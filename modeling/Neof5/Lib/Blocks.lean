import Mathlib

/-!
# Hashing in blocks

A hash of this kind cuts its input into blocks of `n` items and folds a compression function over
them. A program does it item by item or piece by piece, and keeps what does not make a whole block
yet: `absorb` is one item of that.

* `absorbAll_short`, `absorbAll_fill`: a piece that does not fill the block, and one that does.
* `absorbAll_blocks`: over an input of whole blocks, absorbing is the fold over the blocks, and
  nothing is left over.
-/

namespace Blocks

variable {α σ : Type*}

/-- The blocks of `n` items from the start of the list. -/
def blocks (n : Nat) : Nat → List α → List (List α)
  | 0, _ => []
  | k + 1, xs => xs.take n :: blocks n k (xs.drop n)

/-- The state, and the items that do not make a whole block yet. -/
structure Pending (σ α : Type*) where
  state : σ
  rest : List α
  deriving DecidableEq

/-- One more item. -/
def absorb (n : Nat) (f : σ → List α → σ) (p : Pending σ α) (x : α) : Pending σ α :=
  if p.rest.length + 1 = n then ⟨f p.state (p.rest ++ [x]), []⟩ else ⟨p.state, p.rest ++ [x]⟩

/-- The items in their order. -/
def absorbAll (n : Nat) (f : σ → List α → σ) (p : Pending σ α) (xs : List α) : Pending σ α :=
  xs.foldl (absorb n f) p

section Rules

variable {n : Nat} {f : σ → List α → σ} {p : Pending σ α} {s : σ} {xs ys rest : List α}

@[simp] theorem absorbAll_nil : absorbAll n f p [] = p := rfl

theorem absorbAll_append :
    absorbAll n f p (xs ++ ys) = absorbAll n f (absorbAll n f p xs) ys := by
  simp [absorbAll, List.foldl_append]

/-- A piece that does not fill the block. -/
theorem absorbAll_short (h : rest.length + xs.length < n) :
    absorbAll n f ⟨s, rest⟩ xs = ⟨s, rest ++ xs⟩ := by
  induction xs generalizing rest with
  | nil => simp
  | cons x xs ih =>
    rw [List.length_cons] at h
    have hx : absorb n f ⟨s, rest⟩ x = ⟨s, rest ++ [x]⟩ := if_neg (by simp only; omega)
    rw [absorbAll, List.foldl_cons, hx, ← absorbAll, ih (by simp; omega)]
    simp

/-- A piece that fills the block. -/
theorem absorbAll_fill (hxs : xs ≠ []) (h : rest.length + xs.length = n) :
    absorbAll n f ⟨s, rest⟩ xs = ⟨f s (rest ++ xs), []⟩ := by
  obtain ⟨ys, y, rfl⟩ := (List.eq_nil_or_concat xs).resolve_left hxs
  rw [List.concat_eq_append] at h ⊢
  rw [List.length_append, List.length_singleton] at h
  have hys : absorbAll n f ⟨s, rest⟩ ys = ⟨s, rest ++ ys⟩ := absorbAll_short (by omega)
  have hy : absorb n f ⟨s, rest ++ ys⟩ y = ⟨f s (rest ++ ys ++ [y]), []⟩ :=
    if_pos (by simp only [List.length_append]; omega)
  rw [absorbAll_append, hys, absorbAll, List.foldl_cons, List.foldl_nil, hy, List.append_assoc]

/-- What waits is never a whole block. -/
theorem length_absorbAll (h : p.rest.length < n) (xs : List α) :
    (absorbAll n f p xs).rest.length = (p.rest.length + xs.length) % n := by
  induction xs generalizing p with
  | nil => rw [absorbAll_nil, List.length_nil, Nat.add_zero, Nat.mod_eq_of_lt h]
  | cons x xs ih =>
    rw [absorbAll, List.foldl_cons, ← absorbAll, List.length_cons]
    by_cases hfull : p.rest.length + 1 = n
    · have hx : absorb n f p x = ⟨f p.state (p.rest ++ [x]), []⟩ := if_pos hfull
      rw [hx, ih (show ([] : List α).length < n by rw [List.length_nil]; omega), List.length_nil,
        show p.rest.length + (xs.length + 1) = n + xs.length by omega, Nat.zero_add,
        Nat.add_mod_left]
    · have hx : absorb n f p x = ⟨p.state, p.rest ++ [x]⟩ := if_neg hfull
      have hlen : (p.rest ++ [x]).length = p.rest.length + 1 := by simp
      rw [hx, ih (by rw [hlen]; omega), hlen,
        show p.rest.length + 1 + xs.length = p.rest.length + (xs.length + 1) by omega]

/-- Whole blocks. -/
theorem absorbAll_blocks (hn : 0 < n) {k : Nat} (h : xs.length = k * n) :
    absorbAll n f ⟨s, []⟩ xs = ⟨(blocks n k xs).foldl f s, []⟩ := by
  induction k generalizing xs s with
  | zero =>
    rw [Nat.zero_mul, List.length_eq_zero_iff] at h
    subst h
    rfl
  | succ k ih =>
    rw [Nat.add_mul, Nat.one_mul] at h
    have htake : (xs.take n).length = n := by rw [List.length_take]; omega
    have hne : xs.take n ≠ [] := fun h0 => by rw [h0, List.length_nil] at htake; omega
    have hfill : absorbAll n f ⟨s, []⟩ (xs.take n) = ⟨f s (xs.take n), []⟩ :=
      absorbAll_fill hne (by rw [htake, List.length_nil, Nat.zero_add])
    calc absorbAll n f ⟨s, []⟩ xs
        = absorbAll n f ⟨s, []⟩ (xs.take n ++ xs.drop n) := by rw [List.take_append_drop]
      _ = absorbAll n f ⟨f s (xs.take n), []⟩ (xs.drop n) := by
        rw [absorbAll_append, hfill]
      _ = ⟨(blocks n (k + 1) xs).foldl f s, []⟩ := by
        rw [ih (by rw [List.length_drop]; omega), blocks, List.foldl_cons]

end Rules

end Blocks
