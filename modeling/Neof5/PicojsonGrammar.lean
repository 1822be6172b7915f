import Neof5.PicojsonMap

/-!
# The language of the JSON parser

The texts that the parser accepts, written as a grammar, with the value that each stands for
(`ValueText`), and what the loops of the parser have to do with it.

An escape of one or two code units stands for the UTF-8 bytes of a character (`CharCode`). The
grammar is that of JSON but for the numbers, which are what `strtod` takes, and for the bytes of a
string, which need not be UTF-8.
-/

namespace Neof5

namespace Picojson

variable {ν : Type}

/-! ## The grammar -/

/-- White space between the parts of a value. -/
def White (w : Bytes) : Prop := ∀ c ∈ w, isWs c = true

/-- Four hexadecimal digits. -/
def Quadhex (q : Bytes) (u : Nat) : Prop :=
  ∃ ds, List.Forall₂ (fun c d => hexDigit c = some d) q ds ∧ ds.length = 4 ∧
    Nat.ofDigits 16 ds.reverse = u

/-- A character as a code unit of 16 bits, or as two of them: a surrogate is no character. -/
inductive CharCode : Bytes → Char → Prop
  | unit {q : Bytes} {c : Char} : Quadhex q c.toNat → CharCode q c
  | pair {q q' : Bytes} {high low : Nat} {c : Char} : Quadhex q high → Quadhex q' low →
      0xd800 ≤ high → high < 0xdc00 → 0xdc00 ≤ low → low < 0xe000 →
      c.toNat = 0x10000 + (high - 0xd800) * 0x400 + (low - 0xdc00) →
      CharCode (q ++ (ascii "\\u" ++ q')) c

/-- A part of a string. -/
inductive CharText : Bytes → Bytes → Prop
  | plain {c : UInt8} : ¬ c < ' '.toUInt8 → c ≠ '"'.toUInt8 → c ≠ '\\'.toUInt8 → CharText [c] [c]
  | escape {e c : UInt8} : unescape e = some c → CharText ['\\'.toUInt8, e] [c]
  | unicode {q : Bytes} {c : Char} : CharCode q c →
      CharText ('\\'.toUInt8 :: 'u'.toUInt8 :: q) (String.utf8EncodeChar c)

/-- What stands between the quotes of a string. -/
inductive StringText : Bytes → Bytes → Prop
  | nil : StringText [] []
  | cons {u t x s : Bytes} : CharText u x → StringText t s → StringText (u ++ t) (x ++ s)

/-- A number: all of it is for `strtod`. -/
structure NumberText (pf : Platform ν) (t : Bytes) (x : ν) : Prop where
  chars : ∀ c ∈ t, isNumberChar c = true
  first : ∃ c ∈ t.head?, ('0'.toUInt8 ≤ c ∧ c ≤ '9'.toUInt8) ∨ c = '-'.toUInt8
  value : pf.strtod t = some x

/-- Items with commas between them, up to the closing character. -/
inductive ListText {α : Type} (item : Bytes → α → Prop) (close : UInt8) : Bytes → List α → Prop
  | last {t w : Bytes} {x : α} : item t x → White w →
      ListText item close (t ++ (w ++ [close])) [x]
  | more {t w u : Bytes} {x : α} {xs : List α} : item t x → White w → ListText item close u xs →
      ListText item close (t ++ (w ++ ','.toUInt8 :: u)) (x :: xs)

/-- A member of an object. -/
inductive MemberText (value : Bytes → Json ν → Prop) : Bytes → Bytes × Json ν → Prop
  | mk {w w' k key t : Bytes} {v : Json ν} : White w → StringText k key → White w' → value t v →
      MemberText value (w ++ '"'.toUInt8 :: (k ++ '"'.toUInt8 :: (w' ++ ':'.toUInt8 :: t))) (key, v)

/-- A value, with the white space before it. -/
inductive ValueText (pf : Platform ν) : Bytes → Json ν → Prop
  | null {w : Bytes} : White w → ValueText pf (w ++ ascii "null") .null
  | bool {w : Bytes} {b : Bool} : White w →
      ValueText pf (w ++ if b then ascii "true" else ascii "false") (.bool b)
  | num {w t : Bytes} {x : ν} : White w → NumberText pf t x → ValueText pf (w ++ t) (.num x)
  | str {w t s : Bytes} : White w → StringText t s →
      ValueText pf (w ++ '"'.toUInt8 :: (t ++ ['"'.toUInt8])) (.str s)
  | noItems {w w' : Bytes} : White w → White w' →
      ValueText pf (w ++ '['.toUInt8 :: (w' ++ [']'.toUInt8])) (.arr [])
  | arr {w t : Bytes} {a : List (Json ν)} : White w → ListText (ValueText pf) ']'.toUInt8 t a →
      ValueText pf (w ++ '['.toUInt8 :: t) (.arr a)
  | noMembers {w w' : Bytes} : White w → White w' →
      ValueText pf (w ++ '\x7b'.toUInt8 :: (w' ++ ['\x7d'.toUInt8])) (.obj [])
  | obj {w t : Bytes} {ms o : List (Bytes × Json ν)} : White w →
      ListText (MemberText (ValueText pf)) '\x7d'.toUInt8 t ms → Json.IsMapOf o ms →
      ValueText pf (w ++ '\x7b'.toUInt8 :: t) (.obj o)

/-- No number goes on with this text. -/
def Stops (r : Bytes) : Prop := ∀ c ∈ r.head?, isNumberChar c = false

/-- The value does not go on with the text behind it. -/
def Ends (v : Json ν) (r : Bytes) : Prop := ∀ x, v = .num x → Stops r

/-! ## Characters -/

section Chars

variable {s r w p : Bytes} {c ch : UInt8}

theorem skipWs_white (hw : White w) (hc : isWs c = false) : skipWs (w ++ c :: r) = c :: r := by
  rw [skipWs, List.dropWhile_append_of_pos hw, List.dropWhile_cons_of_neg (by simp [hc])]

theorem skipWs_eq_cons (h : skipWs s = c :: r) :
    ∃ w, White w ∧ isWs c = false ∧ s = w ++ c :: r := by
  refine ⟨s.takeWhile isWs, fun d hd => List.mem_takeWhile_imp hd, ?_, ?_⟩
  · have hhead := List.head?_dropWhile_not isWs s
    rw [show s.dropWhile isWs = c :: r from h] at hhead
    simpa using hhead
  · rw [← h, skipWs, List.takeWhile_append_dropWhile]

/-- A character that is no white space, with white space before it. -/
theorem expect_iff (hch : isWs ch = false) :
    expect ch s = some r ↔ ∃ w, White w ∧ s = w ++ ch :: r := by
  rw [expect_eq_some]
  constructor
  · intro h
    obtain ⟨w, hw, -, hs⟩ := skipWs_eq_cons h
    exact ⟨w, hw, hs⟩
  · rintro ⟨w, hw, rfl⟩
    exact skipWs_white hw hch

/-- Another character is not what is expected. -/
theorem expect_other (hw : White w) (hc : isWs c = false) (hne : c ≠ ch) :
    expect ch (w ++ c :: r) = none := by
  simp [expect, skipWs_white hw hc, hne]

theorem matchText_iff : matchText p s = some r ↔ s = p ++ r := by
  induction p generalizing s with
  | nil => simp [matchText]
  | cons a p ih =>
    cases s with
    | nil => simp [matchText]
    | cons c s =>
      rw [matchText]
      split_ifs with hc
      · simp [ih, hc]
      · simp [hc]

end Chars

/-! ## Code points -/

section CodePoints

variable {s r q : Bytes} {u : Nat} {c : Char}

theorem parseQuadhex_iff :
    parseQuadhex s = some (u, r) ↔ ∃ q, s = q ++ r ∧ Quadhex q u := by
  constructor
  · intro h
    obtain ⟨a, b, c, d, rfl, -⟩ := parseQuadhex_eq_some h
    simp only [parseQuadhex, Option.bind_eq_bind, Option.bind_eq_some_iff, Option.pure_def,
      Option.some.injEq, Prod.mk.injEq] at h
    obtain ⟨a', ha, b', hb, c', hc, d', hd, rfl, -⟩ := h
    refine ⟨[a, b, c, d], rfl, [a', b', c', d'], by simp [ha, hb, hc, hd], rfl, ?_⟩
    simp [Nat.ofDigits]
    ring
  · rintro ⟨q, rfl, ds, hq, hlen, rfl⟩
    obtain ⟨a', b', c', d', rfl⟩ := List.length_eq_four.mp hlen
    simp only [List.forall₂_cons_right_iff, List.forall₂_nil_right_iff] at hq
    obtain ⟨a, _, ha, ⟨b, _, hb, ⟨c, _, hc, ⟨d, _, hd, rfl, rfl⟩, rfl⟩, rfl⟩, rfl⟩ := hq
    simp [parseQuadhex, ha, hb, hc, hd, Nat.ofDigits]
    ring

/-- The mark of a byte does not meet the bits behind it. -/
theorem or_mark (b a k : Nat) {n : Nat} (hb : 2 ^ k * a = b) (h : n < 2 ^ k) : b ||| n = n + b := by
  rw [← hb, ← Nat.two_pow_add_eq_or_of_lt h, Nat.add_comm]

/-- The bytes that are stored for a character are those of its UTF-8 encoding. -/
theorem encodeCodepoint_eq (c : Char) : encodeCodepoint c.toNat = String.utf8EncodeChar c := by
  have hmax : c.toNat < 0x110000 := by
    rcases c.valid with h | h
    · exact Nat.lt_trans h (by decide)
    · exact h.2
  have hlow : ∀ n : Nat, 0x80 ||| n &&& 0x3f = n % 64 + 0x80 := by
    intro n
    rw [show (0x3f : Nat) = 2 ^ 6 - 1 from rfl, Nat.and_two_pow_sub_one_eq_mod]
    exact or_mark 0x80 2 6 rfl (Nat.mod_lt _ (by norm_num))
  have hshift : ∀ k, c.toNat >>> k = c.toNat / 2 ^ k := fun k => Nat.shiftRight_eq_div_pow _ _
  have h₂ : c.toNat < 0x800 → 0xc0 ||| c.toNat >>> 6 = c.toNat / 64 % 32 + 192 := by
    intro h
    rw [hshift, or_mark 0xc0 6 5 rfl (by omega)]
    omega
  have h₃ : c.toNat < 0x10000 → 0xe0 ||| c.toNat >>> 12 = c.toNat / 4096 % 16 + 224 := by
    intro h
    rw [hshift, or_mark 0xe0 14 4 rfl (by omega)]
    omega
  have h₄ : 0xf0 ||| c.toNat >>> 18 = c.toNat / 262144 % 8 + 240 := by
    rw [hshift, or_mark 0xf0 30 3 rfl (by omega)]
    omega
  unfold encodeCodepoint String.utf8EncodeChar
  change _ = if c.toNat ≤ 127 then _ else if c.toNat ≤ 2047 then _ else
    if c.toNat ≤ 65535 then _ else _
  by_cases h7 : c.toNat < 0x80
  · rw [if_pos h7, if_pos (show c.toNat ≤ 127 by omega)]
    rfl
  rw [if_neg h7, if_neg (show ¬ c.toNat ≤ 127 by omega)]
  by_cases h11 : c.toNat < 0x800
  · rw [if_pos h11, if_pos (show c.toNat ≤ 2047 by omega), h₂ h11, hlow]
    rfl
  rw [if_neg h11, if_neg (show ¬ c.toNat ≤ 2047 by omega)]
  by_cases h16 : c.toNat < 0x10000
  · rw [if_pos h16, if_pos (show c.toNat ≤ 65535 by omega), h₃ h16, hlow, hlow, hshift]
    rfl
  · rw [if_neg h16, if_neg (show ¬ c.toNat ≤ 65535 by omega), h₄, hlow, hlow, hlow, hshift, hshift]
    rfl

theorem hexDigit_lt {d : UInt8} {n : Nat} (h : hexDigit d = some n) : n < 16 := by
  have key : ∀ i : Fin 256, ∀ n ∈ hexDigit (UInt8.ofFin i), n < 16 := by decide +kernel
  exact key d.toFin n h

theorem quadhex_lt (h : Quadhex q u) : u < 0x10000 := by
  obtain ⟨ds, hds, hlen, rfl⟩ := h
  have hboth := hds.flip.imp fun _ _ hd => And.intro (hexDigit_lt hd) hd
  have hlt : ∀ d ∈ ds.reverse, d < 14 + 2 := by
    intro d hd
    exact ((List.forall₂_and_left _ _).mp hboth).1 d (List.mem_reverse.mp hd)
  simpa [hlen] using Nat.ofDigits_lt_base_pow_length' hlt

/-- What is no surrogate is a character. -/
theorem toNat_ofNat (hu : u < 0x110000) (hsur : ¬ (0xd800 ≤ u ∧ u ≤ 0xdfff)) :
    (Char.ofNat u).toNat = u := by
  have hvalid : u.isValidChar := by
    rcases Nat.lt_or_ge u 0xd800 with h | h
    · exact .inl h
    · exact .inr ⟨by omega, hu⟩
  rw [Char.toNat_ofNat, if_pos hvalid]

theorem not_surrogate (c : Char) : ¬ (0xd800 ≤ c.toNat ∧ c.toNat ≤ 0xdfff) := by
  have hvalid : c.toNat < 0xd800 ∨ 0xdfff < c.toNat ∧ c.toNat < 0x110000 := c.valid
  omega

theorem parseCodepoint_iff {x : Bytes} : parseCodepoint s = some (x, r) ↔
    ∃ q c, s = q ++ r ∧ CharCode q c ∧ x = String.utf8EncodeChar c := by
  constructor
  · intro h
    simp only [parseCodepoint, Option.bind_eq_bind, Option.bind_eq_some_iff, Prod.exists] at h
    obtain ⟨u, r₁, hu, h⟩ := h
    obtain ⟨q, rfl, hq⟩ := parseQuadhex_iff.mp hu
    have hlt := quadhex_lt hq
    split_ifs at h with hsur hlow
    · simp only [Option.bind_eq_some_iff, Prod.exists] at h
      obtain ⟨r₂, hm, low, r₃, hw, h⟩ := h
      obtain rfl := matchText_iff.mp hm
      obtain ⟨q', rfl, hq'⟩ := parseQuadhex_iff.mp hw
      split_ifs at h with hpair
      simp only [Option.pure_def, Option.some.injEq, Prod.mk.injEq] at h
      obtain ⟨rfl, rfl⟩ := h
      have hnat := toNat_ofNat (u := (u - 0xd800) * 0x400 + (low - 0xdc00) + 0x10000) (by omega)
        (by omega)
      refine ⟨_, Char.ofNat _, ?_, .pair (c := Char.ofNat _) hq hq' hsur.1 (by omega) hpair.1
        (by omega) (hnat.trans (by omega)), ?_⟩
      · simp
      · rw [← encodeCodepoint_eq, hnat]
    · cases h
      have hnat := toNat_ofNat (by omega) hsur
      exact ⟨q, Char.ofNat u, rfl, .unit (hnat.symm ▸ hq), by rw [← encodeCodepoint_eq, hnat]⟩
  · rintro ⟨q, c, rfl, hcode, rfl⟩
    rw [← encodeCodepoint_eq]
    cases hcode with
    | unit hq =>
      have hu : parseQuadhex (q ++ r) = some (c.toNat, r) := parseQuadhex_iff.mpr ⟨q, rfl, hq⟩
      simp [parseCodepoint, hu, not_surrogate c]
    | @pair q q' high low _ hq hq' h₁ h₂ h₃ h₄ hc =>
      have hhigh : parseQuadhex (q ++ (ascii "\\u" ++ q') ++ r) =
          some (high, ascii "\\u" ++ (q' ++ r)) := parseQuadhex_iff.mpr ⟨q, by simp, hq⟩
      have hlow : parseQuadhex (q' ++ r) = some (low, r) := parseQuadhex_iff.mpr ⟨q', rfl, hq'⟩
      have hmatch : matchText (ascii "\\u") (ascii "\\u" ++ (q' ++ r)) = some (q' ++ r) :=
        matchText_iff.mpr rfl
      simp only [parseCodepoint, hhigh, Option.bind_eq_bind, Option.bind_some, hmatch, hlow,
        if_pos (show 0xd800 ≤ high ∧ high ≤ 0xdfff by omega),
        if_neg (show ¬ 0xdc00 ≤ high by omega),
        if_pos (show 0xdc00 ≤ low ∧ low ≤ 0xdfff by omega), hc, Option.pure_def, Option.some.injEq,
        Prod.mk.injEq, and_true]
      exact congrArg encodeCodepoint (by omega)

end CodePoints

/-! ## Strings -/

section Strings

variable {s t r out b u x : Bytes} {n : Nat}

theorem CharText.ne_nil (h : CharText u x) : u ≠ [] := by cases h <;> simp

theorem stringRound_inl_iff : stringRound out s = some (.inl b, r) ↔
    ∃ u x, s = u ++ r ∧ CharText u x ∧ b = out ++ x := by
  constructor
  · intro h
    cases s with
    | nil => cases h
    | cons ch s =>
      rw [stringRound.eq_def] at h
      simp only at h
      split_ifs at h with h₁ h₂ h₃
      · cases h
      · cases s with
        | nil => cases h
        | cons e s =>
          simp only at h
          subst h₃
          split_ifs at h with h₄
          · obtain ⟨⟨y, r'⟩, hy, he⟩ := Option.map_eq_some_iff.mp h
            cases he
            obtain ⟨q, c, rfl, hcode, rfl⟩ := parseCodepoint_iff.mp hy
            subst h₄
            exact ⟨_, _, rfl, .unicode hcode, rfl⟩
          · obtain ⟨c, hc, he⟩ := Option.map_eq_some_iff.mp h
            cases he
            exact ⟨_, _, rfl, .escape hc, rfl⟩
      · cases h
        exact ⟨[ch], [ch], rfl, .plain h₁ h₂ h₃, rfl⟩
  · rintro ⟨u, x, rfl, hchar, rfl⟩
    rw [stringRound.eq_def]
    cases hchar with
    | @plain c h₁ h₂ h₃ => simp only [List.cons_append, List.nil_append, h₁, h₂, h₃, ↓reduceIte]
    | @escape e c hc =>
      have hu : e ≠ 'u'.toUInt8 := by
        rintro rfl
        cases hc
      simp only [List.cons_append, List.nil_append, hu, hc, ↓reduceIte, Option.map_some]
      rfl
    | @unicode q c hcode =>
      have hq : parseCodepoint (q ++ r) = some (String.utf8EncodeChar c, r) :=
        parseCodepoint_iff.mpr ⟨q, c, rfl, hcode, rfl⟩
      simp only [List.cons_append, hq, ↓reduceIte, Option.map_some]
      rfl

theorem stringRound_inr_iff : stringRound out s = some (.inr b, r) ↔
    s = '"'.toUInt8 :: r ∧ b = out := by
  constructor
  · intro h
    cases s with
    | nil => cases h
    | cons ch s =>
      rw [stringRound.eq_def] at h
      simp only at h
      split_ifs at h with h₁ h₂ h₃
      · cases h
        exact ⟨by rw [h₂], rfl⟩
      · cases s with
        | nil => cases h
        | cons e s =>
          simp only at h
          split_ifs at h <;> simp at h
      · cases h
  · rintro ⟨rfl, rfl⟩
    rfl

theorem parseString_sound (h : parseString n s = some (x, r)) :
    ∃ t, s = t ++ '"'.toUInt8 :: r ∧ StringText t x := by
  suffices ∀ out, Scan.iterate stringRound n out s = some (x, r) →
      ∃ t y, s = t ++ '"'.toUInt8 :: r ∧ StringText t y ∧ x = out ++ y by
    obtain ⟨t, y, hs, ht, rfl⟩ := this [] h
    exact ⟨t, hs, ht⟩
  clear h
  induction n generalizing s with
  | zero => intro out h; cases h
  | succ n ih =>
    intro out h
    rw [Scan.iterate] at h
    rcases hf : stringRound out s with _ | ⟨out' | out', r'⟩
    · rw [hf] at h
      cases h
    · rw [hf] at h
      obtain ⟨u, y, rfl, hchar, rfl⟩ := stringRound_inl_iff.mp hf
      obtain ⟨t, z, rfl, ht, rfl⟩ := ih _ h
      exact ⟨u ++ t, y ++ z, by simp, .cons hchar ht, by simp⟩
    · rw [hf] at h
      cases h
      obtain ⟨rfl, rfl⟩ := stringRound_inr_iff.mp hf
      exact ⟨[], [], rfl, .nil, by simp⟩

theorem parseString_complete (h : StringText t x) (hn : t.length < n) :
    parseString n (t ++ '"'.toUInt8 :: r) = some (x, r) := by
  suffices ∀ out, Scan.iterate stringRound n out (t ++ '"'.toUInt8 :: r) = some (out ++ x, r) from
    this []
  induction h generalizing n with
  | nil =>
    intro out
    obtain ⟨n, rfl⟩ := Nat.exists_eq_add_of_lt hn
    rw [List.append_nil]
    rfl
  | @cons u t y s hchar _ ih =>
    intro out
    have hu := List.length_pos_iff.mpr hchar.ne_nil
    rw [List.length_append] at hn
    obtain _ | n := n
    · omega
    rw [List.append_assoc, Scan.iterate, stringRound_inl_iff.mpr ⟨u, y, rfl, hchar, rfl⟩]
    simp only [ih (n := n) (by omega) (out ++ y), List.append_assoc]

end Strings

/-! ## Lists -/

section Lists

variable {α σ : Type} {item : Bytes → Option (α × Bytes)} {L : Bytes → α → Prop} {add : σ → α → σ}
  {close : UInt8} {a b : σ} {s t r w : Bytes} {xs : List α} {m n : Nat}

/-- One round of the loop over the items of a list. -/
def listRound (item : Bytes → Option (α × Bytes)) (add : σ → α → σ) (close : UInt8) (a : σ)
    (s : Bytes) : Option ((σ ⊕ σ) × Bytes) :=
  (item s).bind fun p => roundEnd close (add a p.1) p.2

/-- What may close a list. -/
structure Closes (close : UInt8) : Prop where
  not_white : isWs close = false
  not_number : isNumberChar close = false
  ne_comma : close ≠ ','.toUInt8

theorem roundEnd_inl_iff : roundEnd close a s = some (.inl b, r) ↔
    b = a ∧ ∃ w, White w ∧ s = w ++ ','.toUInt8 :: r := by
  unfold roundEnd
  cases hcomma : expect ','.toUInt8 s with
  | some r' =>
    obtain ⟨w, hw, rfl⟩ := (expect_iff (by decide)).mp hcomma
    constructor
    · intro h
      cases h
      exact ⟨rfl, w, hw, rfl⟩
    · rintro ⟨rfl, w', hw', hs⟩
      rw [(expect_iff (by decide)).mpr ⟨w', hw', hs⟩] at hcomma
      cases hcomma
      rfl
  | none =>
    constructor
    · intro h
      obtain ⟨r', -, h⟩ := Option.bind_eq_some_iff.mp h
      cases h
    · rintro ⟨-, w, hw, hs⟩
      rw [(expect_iff (by decide)).mpr ⟨w, hw, hs⟩] at hcomma
      cases hcomma

theorem roundEnd_inr_iff (hclose : Closes close) : roundEnd close a s = some (.inr b, r) ↔
    b = a ∧ ∃ w, White w ∧ s = w ++ close :: r := by
  unfold roundEnd
  constructor
  · intro h
    split at h
    · cases h
    · obtain ⟨r', hr', h⟩ := Option.bind_eq_some_iff.mp h
      cases h
      exact ⟨rfl, (expect_iff hclose.not_white).mp hr'⟩
  · rintro ⟨rfl, w, hw, rfl⟩
    rw [expect_other hw hclose.not_white hclose.ne_comma]
    simp [(expect_iff hclose.not_white).mpr ⟨w, hw, rfl⟩]

theorem stops_white {c : UInt8} (hw : White w) (hc : isNumberChar c = false) :
    Stops (w ++ c :: r) := by
  have hws : ∀ d, isWs d = true → isNumberChar d = false := by
    have key : ∀ i : Fin 256, isWs (UInt8.ofFin i) = true →
        isNumberChar (UInt8.ofFin i) = false := by decide +kernel
    exact fun d hd => key d.toFin hd
  intro d hd
  cases w with
  | nil =>
    cases hd
    exact hc
  | cons e w =>
    cases hd
    exact hws d (hw d (by simp))

theorem list_sound (hclose : Closes close)
    (hitem : ∀ s x r, item s = some (x, r) → ∃ t, s = t ++ r ∧ L t x)
    (h : Scan.iterate (listRound item add close) n a s = some (b, r)) :
    ∃ t xs, s = t ++ r ∧ ListText L close t xs ∧ b = xs.foldl add a := by
  induction n generalizing a s with
  | zero => cases h
  | succ n ih =>
    rw [Scan.iterate] at h
    rcases hf : listRound item add close a s with _ | ⟨a' | a', r'⟩
    · rw [hf] at h
      cases h
    · rw [hf] at h
      obtain ⟨⟨x, r₁⟩, hx, hend⟩ := Option.bind_eq_some_iff.mp hf
      obtain ⟨t, rfl, ht⟩ := hitem _ _ _ hx
      obtain ⟨rfl, w, hw, rfl⟩ := roundEnd_inl_iff.mp hend
      obtain ⟨u, xs, rfl, hu, rfl⟩ := ih h
      exact ⟨_, x :: xs, by simp, .more ht hw hu, rfl⟩
    · rw [hf] at h
      cases h
      obtain ⟨⟨x, r₁⟩, hx, hend⟩ := Option.bind_eq_some_iff.mp hf
      obtain ⟨t, rfl, ht⟩ := hitem _ _ _ hx
      obtain ⟨rfl, w, hw, rfl⟩ := (roundEnd_inr_iff hclose).mp hend
      exact ⟨_, [x], by simp, .last ht hw, rfl⟩

theorem list_complete (hclose : Closes close)
    (hitem : ∀ t x r, L t x → t.length < m → Stops r → item (t ++ r) = some (x, r))
    (h : ListText L close t xs) (hm : t.length ≤ m) (hn : t.length < n) (a : σ) :
    Scan.iterate (listRound item add close) n a (t ++ r) = some (xs.foldl add a, r) := by
  induction h generalizing n a with
  | @last t w x ht hw =>
    rw [List.length_append, List.length_append, List.length_singleton] at hm
    obtain ⟨n, rfl⟩ := Nat.exists_eq_add_of_lt hn
    have hx := hitem t x (w ++ close :: r) ht (by omega) (stops_white hw hclose.not_number)
    have hround : listRound item add close a (t ++ (w ++ [close]) ++ r) =
        some (.inr (add a x), r) := by
      rw [show t ++ (w ++ [close]) ++ r = t ++ (w ++ close :: r) by simp, listRound, hx]
      exact (roundEnd_inr_iff hclose).mpr ⟨rfl, w, hw, rfl⟩
    rw [Scan.iterate, hround]
    rfl
  | @more t w u x xs ht hw _ ih =>
    rw [List.length_append, List.length_append, List.length_cons] at hm hn
    obtain _ | n := n
    · omega
    have hx := hitem t x (w ++ ','.toUInt8 :: (u ++ r)) ht (by omega) (stops_white hw (by decide))
    have hround : listRound item add close a (t ++ (w ++ ','.toUInt8 :: u) ++ r) =
        some (.inl (add a x), u ++ r) := by
      rw [show t ++ (w ++ ','.toUInt8 :: u) ++ r = t ++ (w ++ ','.toUInt8 :: (u ++ r)) by simp,
        listRound, hx]
      exact roundEnd_inl_iff.mpr ⟨rfl, w, hw, rfl⟩
    rw [Scan.iterate, hround]
    exact ih (by omega) (by omega) _

/-- No item begins like the end of the list. -/
def Begins (L : Bytes → α → Prop) (close : UInt8) : Prop :=
  ∀ t x, L t x → ∃ w c q, White w ∧ isWs c = false ∧ c ≠ close ∧ t = w ++ c :: q

theorem expect_list (hfirst : Begins L close) (h : ListText L close t xs) :
    expect close (t ++ r) = none := by
  obtain ⟨u, x, q, hx, rfl⟩ : ∃ u x q, L u x ∧ t = u ++ q := by
    cases h with
    | last hx hw => exact ⟨_, _, _, hx, rfl⟩
    | more hx hw _ => exact ⟨_, _, _, hx, rfl⟩
  obtain ⟨w, c, q', hw, hc, hne, rfl⟩ := hfirst u x hx
  rw [show w ++ c :: q' ++ q ++ r = w ++ c :: (q' ++ q ++ r) by simp]
  exact expect_other hw hc hne

variable {ν : Type} {empty v : Json ν} {wrap : σ → Json ν}

theorem listBody_sound (hclose : Closes close)
    (hitem : ∀ s x r, item s = some (x, r) → ∃ t, s = t ++ r ∧ L t x)
    (h : listBody close (listRound item add close) n a empty wrap s = some (v, r)) :
    (∃ w, White w ∧ s = w ++ close :: r ∧ v = empty) ∨
      ∃ t xs, s = t ++ r ∧ ListText L close t xs ∧ v = wrap (xs.foldl add a) := by
  unfold listBody at h
  split at h
  · rename_i r' hr'
    cases h
    obtain ⟨w, hw, rfl⟩ := (expect_iff hclose.not_white).mp hr'
    exact .inl ⟨w, hw, rfl, rfl⟩
  · obtain ⟨⟨b, r'⟩, hb, he⟩ := Option.map_eq_some_iff.mp h
    cases he
    obtain ⟨t, xs, rfl, ht, rfl⟩ := list_sound hclose hitem hb
    exact .inr ⟨t, xs, rfl, ht, rfl⟩

theorem listBody_empty {f : σ → Bytes → Option ((σ ⊕ σ) × Bytes)} (hclose : Closes close)
    (hw : White w) : listBody close f n a empty wrap (w ++ [close] ++ r) = some (empty, r) := by
  have hexpect : expect close (w ++ [close] ++ r) = some r :=
    (expect_iff hclose.not_white).mpr ⟨w, hw, by simp⟩
  simp only [listBody, hexpect]

theorem listBody_complete (hclose : Closes close) (hfirst : Begins L close)
    (hitem : ∀ t x r, L t x → t.length < n → Stops r → item (t ++ r) = some (x, r))
    (h : ListText L close t xs) (hn : t.length < n) :
    listBody close (listRound item add close) n a empty wrap (t ++ r) =
      some (wrap (xs.foldl add a), r) := by
  simp only [listBody, expect_list hfirst h, list_complete hclose hitem h hn.le hn, Option.map_some]

end Lists

end Picojson

end Neof5
