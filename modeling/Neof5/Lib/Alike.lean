import Neof5.Lib.Loop

/-!
# Two runs side by side

Two computations are alike in a relation of their values if both end in related values, or both stop
with the same error. A proof about two runs of one program goes through it step by step: `bind` for
what follows a step, `forEach` for the rounds of a loop.
-/

namespace Loop

universe u v

variable {α α' : Type u} {β β' : Type v} {σ σ' ι ρ ε : Type*}
  {R : α → β → Prop} {S : α' → β' → Prop}

/-- Both end in related values, or stop with the same error. -/
def Alike (R : α → β → Prop) : Except ε α → Except ε β → Prop
  | .ok a, .ok b => R a b
  | .error e, .error e' => e = e'
  | _, _ => False

@[simp] theorem alike_ok {a : α} {b : β} :
    Alike R (.ok a : Except ε α) (.ok b) ↔ R a b := Iff.rfl

namespace Alike

variable {x : Except ε α} {y : Except ε β}

theorem refl {R : α → α → Prop} (h : ∀ a, R a a) (x : Except ε α) : Alike R x x := by
  cases x with
  | error e => exact rfl
  | ok a => exact h a

theorem mono {R' : α → β → Prop} (h : Alike R x y) (hR : ∀ a b, R a b → R' a b) :
    Alike R' x y := by
  cases x with
  | error e =>
    cases y with
    | error e' => exact h
    | ok b => exact h
  | ok a =>
    cases y with
    | error e' => exact h
    | ok b => exact hR a b h

/-- What follows a step. -/
theorem bind {f : α → Except ε α'} {g : β → Except ε β'} (h : Alike R x y)
    (hfg : ∀ a b, R a b → Alike S (f a) (g b)) : Alike S (x >>= f) (y >>= g) := by
  cases x with
  | error e =>
    cases y with
    | error e' => exact h
    | ok b => exact h.elim
  | ok a =>
    cases y with
    | error e' => exact h.elim
    | ok b => exact hfg a b h

/-- What related values have in common, both runs give. -/
theorem map_eq {γ : Type*} {f : α → γ} {g : β → γ} (h : Alike R x y)
    (hfg : ∀ a b, R a b → f a = g b) : x.map f = y.map g := by
  cases x with
  | error e =>
    cases y with
    | error e' => exact congrArg Except.error h
    | ok b => exact h.elim
  | ok a =>
    cases y with
    | error e' => exact h.elim
    | ok b => exact congrArg Except.ok (hfg a b h)

/-- The rounds of two loops over the same items. -/
theorem forEach {R : σ → σ' → Prop} {f : ι → σ → Except ε (σ × Option ρ)}
    {g : ι → σ' → Except ε (σ' × Option ρ)}
    (step : ∀ x s t, R s t → Alike (fun o o' => o.2 = o'.2 ∧ R o.1 o'.1) (f x s) (g x t))
    (l : List ι) {s : σ} {t : σ'} (hR : R s t) :
    Alike (fun o o' => o.2 = o'.2 ∧ R o.1 o'.1) (Loop.forEach f l s) (Loop.forEach g l t) := by
  induction l generalizing s t with
  | nil => exact ⟨rfl, hR⟩
  | cons x l ih =>
    have hx := step x s t hR
    rw [Loop.forEach, Loop.forEach]
    cases hf : f x s with
    | error e =>
      cases hg : g x t with
      | error e' => simpa only [hf, hg] using hx
      | ok o' => simp [hf, hg, Alike] at hx
    | ok o =>
      cases hg : g x t with
      | error e' => simp [hf, hg, Alike] at hx
      | ok o' =>
        rw [hf, hg] at hx
        obtain ⟨s', r⟩ := o
        obtain ⟨t', r'⟩ := o'
        obtain ⟨rfl, hR'⟩ : r = r' ∧ R s' t' := hx
        cases r with
        | some r => exact ⟨rfl, hR'⟩
        | none => exact ih hR'

end Alike

end Loop
