import Mathlib

/-!
# Loops with an early return

`forEach body xs s` is the `for` of an imperative function: it runs `body` on the items of `xs`
in order and passes a state along. The body of one item ends in one of three ways.

* `.error e`: the whole loop stops with the error.
* `.ok (s', none)`: the next item follows (`continue`, or the end of the body).
* `.ok (s', some r)`: the enclosing function returns `r`; the state at that point is `s'`.

A loop proof is one proof about a single item: `forEach_total` to show that the loop ends without
an error and what then holds, `forEach_ok` for what a loop that ended has kept, `forEach_none` for a
loop that went through, `forEach_ends` for both of its ends, `forEach_rel` to compare two loops.
-/

namespace Loop

variable {α σ ρ ε : Type*}

/-- A `for` over a list whose body may return early. -/
def forEach (body : α → σ → Except ε (σ × Option ρ)) : List α → σ → Except ε (σ × Option ρ)
  | [], s => .ok (s, none)
  | x :: xs, s =>
    match body x s with
    | .error e => .error e
    | .ok (s', some r) => .ok (s', some r)
    | .ok (s', none) => forEach body xs s'

/-- What holds of the end of a body or of a loop: `I` if it ran to its end, `Q` if it
returned a value. -/
def Ends (I : σ → Prop) (Q : σ → ρ → Prop) : σ × Option ρ → Prop
  | (s, none) => I s
  | (s, some r) => Q s r

section Rules

variable {f : α → σ → Except ε (σ × Option ρ)} {Q : σ → ρ → Prop}

@[simp] theorem ends_none {I : σ → Prop} {s : σ} : Ends I Q (s, none) ↔ I s := Iff.rfl

@[simp] theorem ends_some {I : σ → Prop} {s : σ} {r : ρ} :
    Ends I Q (s, some r) ↔ Q s r := Iff.rfl

/-- The rule for a loop whose body never stops with an error. `I done s` holds before each item,
with `done` the items that came before it. -/
theorem forEach_total {I : List α → σ → Prop} {l : List α}
    (step : ∀ done x rest s, l = done ++ x :: rest → I done s →
      ∃ out, f x s = .ok out ∧ Ends (I (done ++ [x])) Q out)
    {s : σ} (hs : I [] s) : ∃ out, forEach f l s = .ok out ∧ Ends (I l) Q out := by
  suffices ∀ suf done s, l = done ++ suf → I done s →
      ∃ out, forEach f suf s = .ok out ∧ Ends (I l) Q out from this l [] s rfl hs
  intro suf
  induction suf with
  | nil => intro done s hxs hs; exact ⟨_, rfl, by simpa [hxs] using hs⟩
  | cons x suf ih =>
    intro done s hxs hs
    obtain ⟨⟨s', r⟩, hb, he⟩ := step done x suf s hxs hs
    simp only [forEach, hb]
    cases r with
    | some r => exact ⟨_, rfl, he⟩
    | none => exact ih (done ++ [x]) s' (by simp [hxs]) he

/-- `forEach_total` for an invariant that does not look at the items done. -/
theorem forEach_total' {I : σ → Prop} {l : List α}
    (step : ∀ x s, x ∈ l → I s → ∃ out, f x s = .ok out ∧ Ends I Q out)
    {s : σ} (hs : I s) : ∃ out, forEach f l s = .ok out ∧ Ends I Q out :=
  forEach_total (I := fun _ => I) (fun _ x _ s hx hi => step x s (by simp [hx]) hi) hs

/-- What a body that ends keeps, a loop that ends keeps. -/
theorem forEach_ok {I : σ → Prop} (step : ∀ x s out, I s → f x s = .ok out → I out.1) {l : List α}
    {s : σ} {out : σ × Option ρ} (hs : I s) (h : forEach f l s = .ok out) : I out.1 := by
  induction l generalizing s with
  | nil => cases h; exact hs
  | cons x l ih =>
    rw [forEach] at h
    split at h
    · cases h
    · rename_i s' r hb
      cases h
      exact step x s _ hs hb
    · rename_i s' hb
      exact ih (step x s _ hs hb) h

/-- The rule for a loop that ended: the rounds that ended are all there is to look at. -/
theorem forEach_ends {I : List α → σ → Prop} {l : List α}
    (step : ∀ done x rest s out, l = done ++ x :: rest → I done s → f x s = .ok out →
      Ends (I (done ++ [x])) Q out)
    {s : σ} {out : σ × Option ρ} (hs : I [] s) (h : forEach f l s = .ok out) :
    Ends (I l) Q out := by
  suffices ∀ suf done s, l = done ++ suf → I done s → forEach f suf s = .ok out →
      Ends (I l) Q out from this l [] s rfl hs h
  intro suf
  induction suf with
  | nil =>
    intro done s hxs hs h
    cases h
    simpa [hxs] using hs
  | cons x suf ih =>
    intro done s hxs hs h
    rw [forEach] at h
    split at h
    · cases h
    · rename_i s1 r hb
      cases h
      exact step done x suf s _ hxs hs hb
    · rename_i s1 hb
      exact ih (done ++ [x]) s1 (by simp [hxs]) (step done x suf s _ hxs hs hb) h

/-- `forEach_ok` for a body of which something is known on the items of the list. -/
theorem forEach_ok' {I : σ → Prop} {l : List α}
    (step : ∀ x s out, x ∈ l → I s → f x s = .ok out → I out.1) {s : σ} {out : σ × Option ρ}
    (hs : I s) (h : forEach f l s = .ok out) : I out.1 := by
  have hends := forEach_ends (I := fun _ => I) (Q := fun s _ => I s)
    (fun done x rest s out hxs hi hb => by
      have hout := step x s out (by simp [hxs]) hi hb
      obtain ⟨s1, r⟩ := out
      cases r <;> exact hout) hs h
  obtain ⟨s1, r⟩ := out
  cases r <;> exact hends

/-- The rule for a loop that went through to its end: the rounds that did so are all there is to
look at. -/
theorem forEach_none {I : List α → σ → Prop} {l : List α}
    (step : ∀ done x rest s s', l = done ++ x :: rest → I done s → f x s = .ok (s', none) →
      I (done ++ [x]) s')
    {s s' : σ} (hs : I [] s) (h : forEach f l s = .ok (s', none)) : I l s' := by
  refine forEach_ends (Q := fun _ _ => True) (fun done x rest s out hxs hi hb => ?_) hs h
  obtain ⟨s1, r⟩ := out
  cases r with
  | none => exact step done x rest s s1 hxs hi hb
  | some r => trivial

/-- A loop over the indices of a list whose body reads the item at its index is the loop over
the items. -/
theorem forEach_range {β : Type*} {item : β → σ → Except ε (σ × Option ρ)}
    {idx : Nat → σ → Except ε (σ × Option ρ)} (l : List β)
    (h : ∀ i x s, l[i]? = some x → idx i s = item x s) (s : σ) :
    forEach idx (List.range l.length) s = forEach item l s := by
  suffices ∀ k s, (∀ i x s, l[i]? = some x → idx (k + i) s = item x s) →
      forEach idx (List.range' k l.length) s = forEach item l s by
    rw [List.range_eq_range']
    exact this 0 s (by simpa using h)
  clear h
  induction l with
  | nil => intro k s _; rfl
  | cons x l ih =>
    intro k s h
    have hx := h 0 x s rfl
    simp only [List.length_cons, List.range'_succ, forEach]
    rw [show idx k s = item x s by simpa using hx]
    split
    · rfl
    · rfl
    · exact ih (k + 1) _ fun i y t hy => by
        rw [Nat.add_assoc, Nat.add_comm 1]; exact h (i + 1) y t hy

/-- Two runs of a loop side by side. If related states lead to related states and to the same end
of the body, as long as neither end is one of those left out by `G`, then so do the loops. -/
theorem forEach_rel {τ : Type*} {R : σ → τ → Prop} {G : Option ρ → Prop}
    {f' : α → τ → Except ε (τ × Option ρ)} (hnone : G none)
    (step : ∀ x s t out out', R s t → f x s = .ok out → f' x t = .ok out' →
      G out.2 → G out'.2 → out.2 = out'.2 ∧ R out.1 out'.1)
    {l : List α} {s : σ} {t : τ} {out : σ × Option ρ} {out' : τ × Option ρ} (hR : R s t)
    (h : forEach f l s = .ok out) (h' : forEach f' l t = .ok out') (hg : G out.2)
    (hg' : G out'.2) : out.2 = out'.2 ∧ R out.1 out'.1 := by
  induction l generalizing s t with
  | nil => cases h; cases h'; exact ⟨rfl, hR⟩
  | cons x l ih =>
    simp only [forEach] at h h'
    split at h
    · cases h
    · rename_i s1 r hb
      cases h
      split at h'
      · cases h'
      · rename_i hb'
        cases h'
        exact step x s t _ _ hR hb hb' hg hg'
      · rename_i t1 hb'
        exact absurd (step x s t _ _ hR hb hb' hg hnone).1 (by simp)
    · rename_i s1 hb
      split at h'
      · cases h'
      · rename_i hb'
        cases h'
        exact absurd (step x s t _ _ hR hb hb' hnone hg').1 (by simp)
      · rename_i t1 hb'
        exact ih (step x s t _ _ hR hb hb' hnone hnone).2 h h'

end Rules

end Loop
