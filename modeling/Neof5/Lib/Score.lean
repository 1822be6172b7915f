import Mathlib

/-!
# Arithmetic of evaluations

`Score α` is the arithmetic that a program does on floating-point values: literals, sums,
differences and quotients, and the comparisons `<` and `==`. No law is assumed, so what is proved
for every `Score` holds for machine floats too.

`ExtRat` is the exact instance: rational values, and the two infinities and the NaN with which
floating-point arithmetic answers a division by zero. Nothing is rounded and zero has no sign.
Its values without a negative infinity are those of `WithTop ℚ` (`ofTop`).
-/

/-- Values that a program computes with and compares. -/
class Score (α : Type) extends Zero α, Add α, Sub α, Div α, LT α, BEq α where
  /-- the value of a literal or of a converted integer -/
  lit : ℚ → α
  decLt : ∀ a b : α, Decidable (a < b)

namespace Score

variable {α : Type} [Score α]

instance (a b : α) : Decidable (a < b) := Score.decLt a b

end Score

/-- A rational number, an infinity, or not a number. -/
inductive ExtRat where
  | fin (q : ℚ)
  | posInf
  | negInf
  | nan
  deriving DecidableEq

namespace ExtRat

/-- The infinity with the sign of `q`; there is none for zero. -/
def infOf (q : ℚ) : ExtRat := if 0 < q then posInf else if q < 0 then negInf else nan

def add : ExtRat → ExtRat → ExtRat
  | fin a, fin b => fin (a + b)
  | nan, _ | _, nan => nan
  | posInf, negInf | negInf, posInf => nan
  | posInf, _ | _, posInf => posInf
  | negInf, _ | _, negInf => negInf

def neg : ExtRat → ExtRat
  | fin a => fin (-a)
  | posInf => negInf
  | negInf => posInf
  | nan => nan

def div : ExtRat → ExtRat → ExtRat
  | fin a, fin b => if b = 0 then infOf a else fin (a / b)
  | nan, _ | _, nan => nan
  | posInf, fin b => if b < 0 then negInf else posInf
  | negInf, fin b => if b < 0 then posInf else negInf
  | fin _, posInf | fin _, negInf => fin 0
  | posInf, _ | negInf, _ => nan

/-- `<`: false whenever a NaN is compared. -/
def lt : ExtRat → ExtRat → Bool
  | fin a, fin b => decide (a < b)
  | nan, _ | _, nan => false
  | posInf, _ | _, negInf => false
  | negInf, _ | _, posInf => true

/-- `==`: false whenever a NaN is compared. -/
def eq : ExtRat → ExtRat → Bool
  | fin a, fin b => decide (a = b)
  | posInf, posInf | negInf, negInf => true
  | _, _ => false

instance : Score ExtRat where
  zero := fin 0
  add := add
  sub a b := add a (neg b)
  div := div
  lt a b := lt a b = true
  beq := eq
  lit := fin
  decLt a b := inferInstanceAs (Decidable (lt a b = true))

/-! ## Values without a negative infinity

Sums of these are sums in `WithTop ℚ`. -/

/-- A rational number, or the positive infinity for `⊤`. -/
def ofTop : WithTop ℚ → ExtRat
  | none => posInf
  | some q => fin q

@[simp] theorem ofTop_coe (q : ℚ) : ofTop q = Score.lit q := rfl

theorem ofTop_add (a b : WithTop ℚ) : ofTop a + ofTop b = ofTop (a + b) := by
  cases a <;> cases b <;> rfl

theorem ofTop_lt_lit {a : WithTop ℚ} {q : ℚ} : ofTop a < Score.lit q ↔ a < q := by
  cases a with
  | top => exact iff_of_false (by simp [ofTop, LT.lt, lt, Score.lit]) not_top_lt
  | coe a =>
    rw [WithTop.coe_lt_coe]
    exact decide_eq_true_iff

theorem lit_add_lit (a b : ℚ) : (Score.lit a : ExtRat) + Score.lit b = Score.lit (a + b) := rfl

theorem lit_sub_lit (a b : ℚ) : (Score.lit a : ExtRat) - Score.lit b = Score.lit (a - b) := by
  rw [sub_eq_add_neg]; rfl

theorem lit_div_lit {a b : ℚ} (hb : b ≠ 0) :
    (Score.lit a : ExtRat) / Score.lit b = Score.lit (a / b) := if_neg hb

theorem lit_div_zero {a : ℚ} (ha : 0 < a) : (Score.lit a : ExtRat) / Score.lit 0 = posInf := by
  show div (fin a) (fin 0) = posInf
  simp [div, infOf, ha]

theorem posInf_div_lit {b : ℚ} (hb : 0 < b) : posInf / Score.lit b = posInf :=
  if_neg (not_lt.mpr hb.le)

end ExtRat
