import Mathlib

/-!
# Cards (`Cards.cpp`, class `Card`)

A card is its index in the table `_cards`: four suits of each number, from the threes to the
twos, then the joker. The table entry holds the suit in the high and the number in the low four
bits. Every view of a card (`getSuit`, `getNum`, `isJoker`, `getStrength`) reads the table.

`Card.rank` is the abstract reading: the position of the number in the order
3 < 4 < … < K < A < 2 < joker. The lemmas of the last section say what each view is in terms
of it; nothing else in the project looks into the table.
-/

namespace Neof5

/-- The ways in which a call ends without a result: the exceptions that the source throws, the
exceptions of the containers, and undefined behaviour. -/
inductive Fault where
  /-- `throw "カードIDエラー"` -/
  | cardIdError
  /-- `throw "カードエラー"` -/
  | cardError
  /-- `throw "IndexOutOfRange"` -/
  | indexOutOfRange
  /-- `std::out_of_range` of `std::vector::at` -/
  | outOfRange
  /-- `std::vector::operator[]` with an index outside the vector -/
  | badIndex
  /-- a failed assertion that a JSON value has the type that is asked for -/
  | badType
  /-- a conversion of a floating-point value that does not fit into an `int` -/
  | badConversion
  /-- a use of a null pointer -/
  | nullDeref
  /-- a shift by a negative amount, or by the width of the type or more -/
  | badShift
  /-- a read after the terminator of a string -/
  | readPastEnd
  /-- not of the source: more nested calls than the model allows -/
  | depth
  deriving DecidableEq, Repr

/-- `enum Suit` -/
inductive Suit where
  | SPD
  | HRT
  | DIA
  | CLV
  | JKR
  deriving DecidableEq, Repr

namespace Suit

/-- The values of the enumerators. -/
def val : Suit → Nat
  | SPD => 0x50
  | HRT => 0x40
  | DIA => 0x30
  | CLV => 0x20
  | JKR => 0x10

/-- The cast `(Suit)v` of an enumerator's value. -/
def ofVal (v : Nat) : Suit :=
  if v = 0x50 then SPD else if v = 0x40 then HRT else if v = 0x30 then DIA
  else if v = 0x20 then CLV else JKR

end Suit

open Suit in
/-- The table `_cards`. -/
def cardTable : List Nat := [
  CLV.val ||| 3, DIA.val ||| 3, HRT.val ||| 3, SPD.val ||| 3,
  CLV.val ||| 4, DIA.val ||| 4, HRT.val ||| 4, SPD.val ||| 4,
  CLV.val ||| 5, DIA.val ||| 5, HRT.val ||| 5, SPD.val ||| 5,
  CLV.val ||| 6, DIA.val ||| 6, HRT.val ||| 6, SPD.val ||| 6,
  CLV.val ||| 7, DIA.val ||| 7, HRT.val ||| 7, SPD.val ||| 7,
  CLV.val ||| 8, DIA.val ||| 8, HRT.val ||| 8, SPD.val ||| 8,
  CLV.val ||| 9, DIA.val ||| 9, HRT.val ||| 9, SPD.val ||| 9,
  CLV.val ||| 10, DIA.val ||| 10, HRT.val ||| 10, SPD.val ||| 10,
  CLV.val ||| 11, DIA.val ||| 11, HRT.val ||| 11, SPD.val ||| 11,
  CLV.val ||| 12, DIA.val ||| 12, HRT.val ||| 12, SPD.val ||| 12,
  CLV.val ||| 13, DIA.val ||| 13, HRT.val ||| 13, SPD.val ||| 13,
  CLV.val ||| 1, DIA.val ||| 1, HRT.val ||| 1, SPD.val ||| 1,
  CLV.val ||| 2, DIA.val ||| 2, HRT.val ||| 2, SPD.val ||| 2,
  JKR.val]

/-- `CARD_STRENGTH_MAX` -/
def cardStrengthMax : Nat := 14

/-- A card: an index into the table. The constructor of the source refuses every other index
(`Card.ofId`), so `idx` is always in range. -/
structure Card where
  idx : Fin 53
  deriving DecidableEq, Repr, Fintype

namespace Card

/-- `Card::Card(uint8_t id)` -/
def ofId (id : Nat) : Except Fault Card :=
  if h : id < 53 then .ok ⟨⟨id, h⟩⟩ else .error .cardIdError

def getId (c : Card) : Nat := c.idx

def getValue (c : Card) : Nat := cardTable.get c.idx

def getSuit (c : Card) : Suit := Suit.ofVal (c.getValue &&& 0xf0)

def getNum (c : Card) : Nat := c.getValue &&& 0x0f

def isJoker (c : Card) : Bool := c.getValue &&& 0xf0 == Suit.JKR.val

def getStrength (c : Card) : Nat :=
  if c.isJoker then cardStrengthMax else 1 + (c.getNum + 10) % 13

/-- `Card::get(Suit s, int n)`: the card of the suit `s` at the position `n` of the order from
the threes to the twos. -/
def get (s : Suit) (n : Nat) : Except Fault Card :=
  let id := if s = .JKR then cardTable.length - 1 else n * 4 + (s.val - 0x20) / 0x10
  if cardTable.length ≤ id then .error .cardError else ofId id

/-- `Card::getAllCount` -/
def getAllCount : Nat := cardTable.length

/-- `compare(a, b)`: the sign orders the cards by index. -/
def compare (a b : Card) : Int := (a.getId : Int) - b.getId

/-- `Card::compareTo` -/
def compareTo (a b : Card) : Int := compare a b

instance : LT Card := ⟨fun a b => compare a b < 0⟩

instance (a b : Card) : Decidable (a < b) := inferInstanceAs (Decidable (compare a b < 0))

/-! ## The views in terms of the rank -/

/-- The position of the card's number in the order 3 < 4 < … < A < 2; the joker is above. -/
def rank (c : Card) : Nat := c.getId / 4

/-- The joker, `Card::get(JKR, 0)`. -/
def joker : Card := ⟨52⟩

theorem get_joker : get .JKR 0 = .ok joker := rfl

@[ext] theorem ext_id {a b : Card} (h : a.getId = b.getId) : a = b := by
  cases a; cases b; simpa [getId, Fin.ext_iff] using h

theorem getId_lt (c : Card) : c.getId < 53 := c.idx.isLt

@[simp] theorem getAllCount_eq : getAllCount = 53 := rfl

theorem lt_iff {a b : Card} : a < b ↔ a.getId < b.getId := by
  show compare a b < 0 ↔ _
  unfold compare; omega

/-- The joker is the last card, alone of its rank. -/
theorem isJoker_iff : ∀ c : Card, c.isJoker = true ↔ c.rank = 13 := by decide

theorem isJoker_iff_eq {c : Card} : c.isJoker = true ↔ c = joker := by
  rw [isJoker_iff, rank]
  constructor
  · intro h
    have := c.getId_lt
    ext
    simp only [joker, getId, Fin.isValue] at *
    omega
  · rintro rfl; rfl

theorem rank_le (c : Card) : c.rank ≤ 13 := by
  have := c.getId_lt; unfold rank; omega

theorem rank_lt {c : Card} (h : c.isJoker = false) : c.rank < 13 := by
  have h1 := c.rank_le
  have h2 : c.rank ≠ 13 := fun e => by rw [(isJoker_iff c).mpr e] at h; cases h
  omega

/-- The number of a rank, as `getNum` reads it from the table. -/
private theorem getNum_rank : ∀ c : Card,
    c.getNum = if c.rank = 13 then 0 else (c.rank + 2) % 13 + 1 := by decide

/-- Two cards have the same number exactly when they have the same rank. -/
theorem getNum_eq_iff {a b : Card} : a.getNum = b.getNum ↔ a.rank = b.rank := by
  have ha := a.rank_le
  have hb := b.rank_le
  rw [getNum_rank, getNum_rank]
  split <;> split <;> omega

/-- The strength counts the ranks from 1. -/
theorem getStrength_eq : ∀ c : Card, c.getStrength = c.rank + 1 := by decide

/-- The card of a smaller rank comes first. -/
theorem lt_of_rank_lt {a b : Card} (h : a.rank < b.rank) : a < b := by
  rw [lt_iff]; unfold rank at h; omega

theorem rank_le_of_id_le {a b : Card} (h : a.getId ≤ b.getId) : a.rank ≤ b.rank :=
  Nat.div_le_div_right h

end Card

end Neof5
