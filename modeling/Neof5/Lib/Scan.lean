import Mathlib

/-!
# Scanners

A scanner reads the front of an input and gives a value and the rest of the input, or fails. A
scanner loop (`iterate`) runs one round after the other until a round says that it is the last.

Two facts about a scanner carry over from one round to the loop:

* more input behind what was read does not change the result (`iterate_append`);
* every round reads something, so a loop with more rounds than input has enough of them
  (`iterate_congr`, `iterate_length`).
-/

namespace Scan

variable {τ σ β : Type*}

/-- A loop of at most `n` rounds over the state `a`. A round goes on with `.inl` and ends the loop
with `.inr`. -/
def iterate (round : σ → List τ → Option ((σ ⊕ β) × List τ)) :
    Nat → σ → List τ → Option (β × List τ)
  | 0, _, _ => none
  | n + 1, a, s =>
    match round a s with
    | none => none
    | some (.inl a', r) => iterate round n a' r
    | some (.inr b, r) => some (b, r)

section Rules

variable {f g : σ → List τ → Option ((σ ⊕ β) × List τ)} {n m : Nat}

/-- If a round is not changed by the input `t` behind what it reads, then neither is the loop. -/
theorem iterate_append {t : List τ}
    (h : ∀ a s x r, f a s = some (x, r) → g a (s ++ t) = some (x, r ++ t)) (hnm : n ≤ m) {a : σ}
    {s r : List τ} {b : β} (hs : iterate f n a s = some (b, r)) :
    iterate g m a (s ++ t) = some (b, r ++ t) := by
  induction n generalizing m a s with
  | zero => cases hs
  | succ n ih =>
    obtain _ | m := m
    · omega
    rw [iterate] at hs ⊢
    match hf : f a s with
    | none => rw [hf] at hs; cases hs
    | some (.inl a', r') =>
      rw [hf] at hs
      rw [h a s _ _ hf]
      exact ih (by omega) hs
    | some (.inr b', r') =>
      rw [hf] at hs
      cases hs
      rw [h a s _ _ hf]

/-- A loop reads something if every round does. -/
theorem iterate_length (h : ∀ a s x r, f a s = some (x, r) → r.length < s.length) {a : σ}
    {s r : List τ} {b : β} (hs : iterate f n a s = some (b, r)) : r.length < s.length := by
  induction n generalizing a s with
  | zero => cases hs
  | succ n ih =>
    rw [iterate] at hs
    match hf : f a s with
    | none => rw [hf] at hs; cases hs
    | some (.inl a', r') =>
      rw [hf] at hs
      exact (ih hs).trans (h a s _ _ hf)
    | some (.inr b', r') =>
      rw [hf] at hs
      cases hs
      exact h a s _ _ hf

/-- Two loops whose rounds agree on inputs up to a length, and read something there, agree as long
as both have more rounds than input. -/
theorem iterate_congr {l : Nat}
    (hlen : ∀ a s x r, s.length ≤ l → f a s = some (x, r) → r.length < s.length)
    (h : ∀ a s, s.length ≤ l → f a s = g a s) {a : σ} {s : List τ} (hl : s.length ≤ l)
    (hn : s.length < n) (hm : s.length < m) : iterate f n a s = iterate g m a s := by
  induction n generalizing m a s with
  | zero => omega
  | succ n ih =>
    obtain _ | m := m
    · omega
    rw [iterate, iterate, ← h a s hl]
    match hf : f a s with
    | none => rfl
    | some (.inl a', r') =>
      have := hlen a s _ _ hl hf
      exact ih (by omega) (by omega) (by omega)
    | some (.inr b', r') => rfl

end Rules

end Scan
