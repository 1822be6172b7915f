import Mathlib

/-!
# Base 64

The encoding of RFC 4648 with padding: three bytes are a number of 24 bits, which is written with
four digits to the base 64. `decode_text`: the text says which bytes were encoded.
-/

namespace Base64

/-- The digit of the value. -/
def digit (n : Nat) : UInt8 :=
  if n < 26 then (65 + n).toUInt8
  else if n < 52 then (71 + n).toUInt8
  else if n < 62 then (n - 4).toUInt8
  else if n = 62 then 43
  else 47

/-- `=` -/
def padding : UInt8 := 61

/-- The value of the digit. -/
def value (c : UInt8) : Option Nat := (List.range 64).find? fun n => digit n == c

/-- The text of the bytes. -/
def text : List UInt8 → List UInt8
  | [] => []
  | [a] => [digit (a.toNat / 4), digit (a.toNat % 4 * 16), padding, padding]
  | [a, b] =>
    [digit (a.toNat / 4), digit (a.toNat % 4 * 16 + b.toNat / 16), digit (b.toNat % 16 * 4),
      padding]
  | a :: b :: c :: s =>
    digit (a.toNat / 4) :: digit (a.toNat % 4 * 16 + b.toNat / 16) ::
      digit (b.toNat % 16 * 4 + c.toNat / 64) :: digit (c.toNat % 64) :: text s

/-- The bytes of a text. -/
def decode : List UInt8 → Option (List UInt8)
  | [] => some []
  | c₀ :: c₁ :: c₂ :: c₃ :: s => do
    let n₀ ← value c₀
    let n₁ ← value c₁
    let a := (n₀ * 4 + n₁ / 16).toUInt8
    if c₂ = padding then return [a]
    let n₂ ← value c₂
    let b := (n₁ % 16 * 16 + n₂ / 4).toUInt8
    if c₃ = padding then return [a, b]
    let n₃ ← value c₃
    let rest ← decode s
    return a :: b :: (n₂ % 4 * 64 + n₃).toUInt8 :: rest
  | _ => none

theorem value_digit {n : Nat} (h : n < 64) : value (digit n) = some n := by
  interval_cases n <;> decide

theorem digit_ne_padding {n : Nat} (h : n < 64) : digit n ≠ padding := by
  interval_cases n <;> decide

theorem length_text (s : List UInt8) : (text s).length = 4 * ((s.length + 2) / 3) := by
  induction s using text.induct with
  | case1 => rfl
  | case2 a => simp [text]
  | case3 a b => simp [text]
  | case4 a b c s ih =>
    simp only [text, List.length_cons, ih]
    omega

/-- A byte from the digits that hold its bits. -/
theorem toUInt8_eq {a : UInt8} {n : Nat} (h : n = a.toNat) : n.toUInt8 = a := by
  rw [h]
  exact UInt8.ofNat_toNat

/-- **Round trip.** The bytes are read back from the text. -/
theorem decode_text (s : List UInt8) : decode (text s) = some s := by
  induction s using text.induct with
  | case1 => rfl
  | case2 a =>
    have ha := a.toNat_lt
    simp only [text, decode, value_digit (show a.toNat / 4 < 64 by omega),
      value_digit (show a.toNat % 4 * 16 < 64 by omega), Option.bind_eq_bind, Option.bind_some,
      if_true, Option.pure_def]
    rw [toUInt8_eq (a := a) (by omega)]
  | case3 a b =>
    have ha := a.toNat_lt
    have hb := b.toNat_lt
    have hne := digit_ne_padding (show b.toNat % 16 * 4 < 64 by omega)
    simp only [text, decode, value_digit (show a.toNat / 4 < 64 by omega),
      value_digit (show a.toNat % 4 * 16 + b.toNat / 16 < 64 by omega),
      value_digit (show b.toNat % 16 * 4 < 64 by omega), Option.bind_eq_bind, Option.bind_some,
      if_true, if_neg hne, Option.pure_def]
    rw [toUInt8_eq (a := a) (by omega), toUInt8_eq (a := b) (by omega)]
  | case4 a b c s ih =>
    have ha := a.toNat_lt
    have hb := b.toNat_lt
    have hc := c.toNat_lt
    have hne₂ := digit_ne_padding (show b.toNat % 16 * 4 + c.toNat / 64 < 64 by omega)
    have hne₃ := digit_ne_padding (show c.toNat % 64 < 64 by omega)
    simp only [text, decode, value_digit (show a.toNat / 4 < 64 by omega),
      value_digit (show a.toNat % 4 * 16 + b.toNat / 16 < 64 by omega),
      value_digit (show b.toNat % 16 * 4 + c.toNat / 64 < 64 by omega),
      value_digit (show c.toNat % 64 < 64 by omega), Option.bind_eq_bind, Option.bind_some,
      if_neg hne₂, if_neg hne₃, ih, Option.pure_def]
    rw [toUInt8_eq (a := a) (by omega), toUInt8_eq (a := b) (by omega),
      toUInt8_eq (a := c) (by omega)]

/-- Different bytes have different texts. -/
theorem text_injective : Function.Injective text := fun s t h => by
  have hs := decode_text s
  rw [h, decode_text t] at hs
  exact (Option.some.inj hs).symm

end Base64
