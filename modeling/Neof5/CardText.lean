import Neof5.RuleLemmas

/-!
# The text form of card sets (`Cards.cpp`)

`CardSet.ofCStr` is the constructor from a C string, `CardSet.toString` the printer. A text is
its bytes up to, and without, the terminator. The reader takes two characters for each token and
does not check that the second one is there; a text that ends inside a token is a read past the
terminator.

`Spelled t cs`: the text `t` names the cards `cs`, in this order, with any spaces between them.
The reader inverts every spelling (`ofCStr_spelled`), and the printer produces the spelling of
the members in order with one space between them (`toString_eq`).

`SafeText t`: the texts on which the reader neither reads past the terminator nor shifts by a
negative id (`ofCStr_safe_iff`).
-/

namespace Neof5

/-- A C or C++ string: its bytes without the terminator. -/
abbrev Bytes := List UInt8

/-- Whether plain `char` is signed. It is on x86, it is not on ARM; the program is built for
both. -/
inductive CharKind where
  | signed
  | unsigned
  deriving DecidableEq, Repr

/-- The value of a `char` as an `int`. -/
def CharKind.val : CharKind → UInt8 → Int
  | .signed, b => b.toInt8.toInt
  | .unsigned, b => b.toNat

/-- `_calcCardIdFromString`, on the two characters that it reads. The bound is checked from
above only. -/
def calcCardIdFromString (ck : CharKind) (c0 c1 : UInt8) : Except Fault Int :=
  let s : Suit :=
    if c0 = 'C'.toUInt8 then .CLV
    else if c0 = 'D'.toUInt8 then .DIA
    else if c0 = 'H'.toUInt8 then .HRT
    else if c0 = 'S'.toUInt8 then .SPD
    else .JKR
  let n : Int :=
    if c1 = '2'.toUInt8 then 12
    else if c1 = 'A'.toUInt8 then 11
    else if c1 = 'K'.toUInt8 then 10
    else if c1 = 'Q'.toUInt8 then 9
    else if c1 = 'J'.toUInt8 then 8
    else if c1 = '0'.toUInt8 then 7
    else ck.val c1 - ck.val '3'.toUInt8
  let id : Int :=
    if s = .JKR then cardTable.length - 1 else n * 4 + ((s.val : Int) - 0x20) / 0x10
  if cardTable.length ≤ id then .error .cardError else .ok id

namespace Card

/-- `Card::suitToString` -/
def suitToString : Suit → Bytes
  | .SPD => ['S'.toUInt8]
  | .HRT => ['H'.toUInt8]
  | .DIA => ['D'.toUInt8]
  | .CLV => ['C'.toUInt8]
  | .JKR => ['J'.toUInt8]

/-- `Card::toString` -/
def toString (c : Card) : Bytes :=
  suitToString c.getSuit ++
    [if c.getNum = 0 then 'K'.toUInt8
      else if c.getNum = 1 then 'A'.toUInt8
      else if c.getNum = 10 then '0'.toUInt8
      else if c.getNum = 11 then 'J'.toUInt8
      else if c.getNum = 12 then 'Q'.toUInt8
      else if c.getNum = 13 then 'K'.toUInt8
      else '0'.toUInt8 + c.getNum.toUInt8]

end Card

namespace CardSet

/-- `mask <<= id; bits |= mask`: a shift by a negative amount is undefined. -/
def orBit (s : CardSet) (id : Int) : Except Fault CardSet :=
  if id < 0 then .error .badShift
  else do
    let c ← Card.ofId id.toNat
    pure (s.addCard c)

/-- The loop of the constructor from a C string. The list holds the bytes from `p` on, and a zero in
it is the terminator. -/
def ofCStrLoop (ck : CharKind) : Bytes → CardSet → Except Fault CardSet
  | [], s => .ok s
  | [c], s =>
    if c = 0 then .ok s
    else if c = ' '.toUInt8 then .ok s
    else do
      -- `str[1]` is the terminator, and the loop then goes on after it.
      let id ← calcCardIdFromString ck c 0
      let _ ← s.orBit id
      .error .readPastEnd
  | c :: d :: rest, s =>
    if c = 0 then .ok s
    else if c = ' '.toUInt8 then ofCStrLoop ck (d :: rest) s
    else do
      let id ← calcCardIdFromString ck c d
      let s ← s.orBit id
      if d = 0 then .error .readPastEnd else ofCStrLoop ck rest s

/-- `CardSet::CardSet(const char*)` -/
def ofCStr (ck : CharKind) (str : Bytes) : Except Fault CardSet := ofCStrLoop ck str ∅

/-- The body of the loop of `toString`. -/
def toStringBody (s : CardSet) (i : Nat) (text : Bytes) : Except Fault (Bytes × Option Unit) := do
  let text := if i ≠ 0 then text ++ [' '.toUInt8] else text
  let c ← s.at i
  pure (text ++ c.toString, none)

/-- `CardSet::toString` -/
def toString (s : CardSet) : Except Fault Bytes := do
  let (text, _) ← Loop.forEach s.toStringBody (List.range s.size) []
  pure text

end CardSet

/-! ## Spellings -/

/-- The token of a card: the suit's letter and the number's character, or `JK`. -/
def token (c : Card) : Bytes :=
  if c.isJoker then "JK".toList.map Char.toUInt8
  else
    [("CDHS".toList.map Char.toUInt8).getD (c.getId % 4) 0,
      ("34567890JQKA2".toList.map Char.toUInt8).getD c.rank 0]

/-- The text names the cards in the list, in its order, with any number of spaces before, between
and after the tokens. -/
inductive Spelled : Bytes → List Card → Prop
  | nil : Spelled [] []
  | space {t cs} : Spelled t cs → Spelled (' '.toUInt8 :: t) cs
  | tok {t cs} (c : Card) : Spelled t cs → Spelled (token c ++ t) (c :: cs)

/-- The tokens of the cards with one space between neighbours. -/
def joinTokens (cs : List Card) : Bytes := [' '.toUInt8].intercalate (cs.map token)

theorem toString_card : ∀ c : Card, c.toString = token c := by decide

/-- The reader finds the card of a token. -/
theorem calcCardId_token : ∀ (ck : CharKind) (c : Card), ∃ a b, token c = [a, b] ∧ a ≠ 0 ∧
    b ≠ 0 ∧ a ≠ ' '.toUInt8 ∧ calcCardIdFromString ck a b = .ok (c.getId : Int) := by
  intro ck c
  have h : token c = [(token c).getD 0 0, (token c).getD 1 0] ∧ (token c).getD 0 0 ≠ 0 ∧
      (token c).getD 1 0 ≠ 0 ∧ (token c).getD 0 0 ≠ ' '.toUInt8 := by revert c; decide
  refine ⟨_, _, h.1, h.2.1, h.2.2.1, h.2.2.2, ?_⟩
  cases ck <;> revert c <;> decide

theorem orBit_id (s : CardSet) (c : Card) : s.orBit (c.getId : Int) = .ok (s.addCard c) := by
  simp [CardSet.orBit, Card.ofId, Card.getId]

/-- The reader adds the cards of a spelling one after the other. -/
theorem ofCStrLoop_spelled {ck : CharKind} {t : Bytes} {cs : List Card} (h : Spelled t cs) :
    ∀ s, CardSet.ofCStrLoop ck t s = .ok (cs.foldl CardSet.addCard s) := by
  induction h with
  | nil => intro s; rfl
  | @space t cs _ ih =>
    intro s
    rw [← ih s]
    cases t <;> rfl
  | @tok t cs c _ ih =>
    intro s
    obtain ⟨a, b, htok, h0, h1, hsp, hid⟩ := calcCardId_token ck c
    rw [htok]
    simp only [List.cons_append, List.nil_append, CardSet.ofCStrLoop, h0, h1, hsp, ↓reduceIte, hid,
      except_ok_bind, orBit_id]
    exact ih _

theorem ofCStr_spelled {ck : CharKind} {t : Bytes} {cs : List Card} (h : Spelled t cs) :
    CardSet.ofCStr ck t = .ok (CardSet.ofVector cs) :=
  ofCStrLoop_spelled h ∅

theorem joinTokens_append_singleton (cs : List Card) (c : Card) :
    joinTokens (cs ++ [c]) =
      (if cs = [] then [] else joinTokens cs ++ [' '.toUInt8]) ++ token c := by
  unfold joinTokens
  induction cs with
  | nil => simp
  | cons d cs ih =>
    cases cs with
    | nil => simp [List.intercalate_cons_cons]
    | cons e cs =>
      simp only [List.cons_append, List.map_cons, List.intercalate_cons_cons] at ih ⊢
      rw [ih]; simp

/-- The printer writes the tokens of the members in order, one space apart. -/
theorem toString_eq (s : CardSet) : s.toString = .ok (joinTokens s.cards) := by
  -- After `k` rounds the text is the joined tokens of the first `k` members.
  have key := Loop.forEach_total (f := s.toStringBody) (l := List.range s.size)
    (Q := fun _ _ => False)
    (I := fun done text => text = joinTokens (s.cards.take done.length)) ?_ (s := [])
    (by simp [joinTokens])
  · obtain ⟨⟨text, stop⟩, hrun, he⟩ := key
    cases stop with
    | some u => exact he.elim
    | none =>
      simp only [Loop.ends_none, List.length_range] at he
      rw [he, s.size_eq, List.take_length] at hrun
      simp [CardSet.toString, s.size_eq, hrun]
  · rintro done i rest text hxs rfl
    have hi : i = done.length := by
      have := congrArg (·[done.length]?) hxs
      have hlt : done.length < s.size := by
        have := congrArg List.length hxs; simp at this; omega
      simpa [hlt] using this.symm
    have hlt : i < s.cards.length := by
      have := congrArg List.length hxs; rw [← s.size_eq]; simp at this; omega
    have hat : s.at i = .ok s.cards[i] := by rw [s.at_eq]; simp [hlt]
    refine ⟨_, by simp only [CardSet.toStringBody, hat, except_ok_bind]; rfl, ?_⟩
    simp only [Loop.ends_none, List.length_append, List.length_singleton, ← hi]
    rw [List.take_succ_eq_append_getElem hlt, joinTokens_append_singleton, toString_card]
    by_cases h0 : i = 0
    · simp [h0, joinTokens]
    · have : s.cards.take i ≠ [] := by
        simp only [ne_eq, List.take_eq_nil_iff, not_or]
        exact ⟨h0, List.ne_nil_of_length_pos (by omega)⟩
      simp [h0, this]

/-- The joined tokens are a spelling of the cards. -/
theorem spelled_joinTokens (cs : List Card) : Spelled (joinTokens cs) cs := by
  unfold joinTokens
  induction cs with
  | nil => exact .nil
  | cons c cs ih =>
    cases cs with
    | nil => simpa using Spelled.tok c .nil
    | cons d cs =>
      rw [List.map_cons, List.map_cons, List.intercalate_cons_cons]
      rw [List.map_cons] at ih
      simpa using Spelled.tok c (.space ih)

/-- **The text codec.** Reading the printed form of a set gives the set back. Every spelling is
read without a fault as the set of the cards that it names, and that set prints as the list of
these cards, each once, in increasing order, with one space between neighbours. -/
theorem card_text_codec (ck : CharKind) :
    (∀ s : CardSet, ∃ t, s.toString = .ok t ∧ CardSet.ofCStr ck t = .ok s) ∧
    (∀ t cs, Spelled t cs → ∃ s, CardSet.ofCStr ck t = .ok s ∧ (∀ c, c ∈ s ↔ c ∈ cs) ∧
      ∃ v : List Card, v.Pairwise (· < ·) ∧ (∀ c, c ∈ v ↔ c ∈ cs) ∧
        s.toString = .ok (joinTokens v)) := by
  constructor
  · intro s
    refine ⟨_, toString_eq s, ?_⟩
    rw [ofCStr_spelled (spelled_joinTokens s.cards), CardSet.ofVector_cards]
  · intro t cs h
    have hm : ∀ c, c ∈ CardSet.ofVector cs ↔ c ∈ cs := fun c => CardSet.mem_ofVector
    refine ⟨_, ofCStr_spelled h, hm, (CardSet.ofVector cs).cards, CardSet.cards_sorted _,
      fun c => by rw [CardSet.mem_cards, hm], toString_eq _⟩

/-! ## Texts that are read safely -/

/-- The letters of the suits. With any other first character a token is the joker. -/
def suitLetters : Bytes := ['C', 'D', 'H', 'S'].map Char.toUInt8

/-- The characters with a number of their own. Every other one is counted from the three. -/
def numberLetters : Bytes := ['2', 'A', 'K', 'Q', 'J', '0'].map Char.toUInt8

/-- The token's id is negative: its second character lies before the three. -/
def BelowDeck (ck : CharKind) (c d : UInt8) : Prop :=
  c ∈ suitLetters ∧ d ∉ numberLetters ∧ ck.val d < ck.val '3'.toUInt8

/-- The token's id lies above the deck: its second character comes after `@`, which stands for the
joker with the letter of the clubs. -/
def AboveDeck (ck : CharKind) (c d : UInt8) : Prop :=
  c ∈ suitLetters ∧ d ∉ numberLetters ∧
    (ck.val '@'.toUInt8 < ck.val d ∨ ck.val d = ck.val '@'.toUInt8 ∧ c ≠ 'C'.toUInt8)

/-- The id of a token with the letter of a suit and a character that is counted. -/
theorem calcCardId_counted (ck : CharKind) {c d : UInt8} (hc : c ∈ suitLetters)
    (hd : d ∉ numberLetters) : ∃ i : Nat, i < 4 ∧ (i = 0 ↔ c = 'C'.toUInt8) ∧
      calcCardIdFromString ck c d =
        if 53 ≤ (ck.val d - ck.val '3'.toUInt8) * 4 + (i : Int) then .error .cardError
        else .ok ((ck.val d - ck.val '3'.toUInt8) * 4 + (i : Int)) := by
  have hnum : ∀ e ∈ numberLetters, d ≠ e := fun e he h => hd (h ▸ he)
  have h2 := hnum '2'.toUInt8 (by decide)
  have hA := hnum 'A'.toUInt8 (by decide)
  have hK := hnum 'K'.toUInt8 (by decide)
  have hQ := hnum 'Q'.toUInt8 (by decide)
  have hJ := hnum 'J'.toUInt8 (by decide)
  have h0 := hnum '0'.toUInt8 (by decide)
  have hsuit : c = 'C'.toUInt8 ∨ c = 'D'.toUInt8 ∨ c = 'H'.toUInt8 ∨ c = 'S'.toUInt8 := by
    simpa [suitLetters] using hc
  simp only [calcCardIdFromString, h2, hA, hK, hQ, hJ, h0, ↓reduceIte]
  rcases hsuit with rfl | rfl | rfl | rfl
  · exact ⟨0, by decide, by decide, rfl⟩
  · exact ⟨1, by decide, by decide, rfl⟩
  · exact ⟨2, by decide, by decide, rfl⟩
  · exact ⟨3, by decide, by decide, rfl⟩

/-- A token with a named number, or with another first character, is a card. -/
theorem calcCardId_named (ck : CharKind) {c d : UInt8}
    (h : c ∉ suitLetters ∨ d ∈ numberLetters) :
    ∃ x : Card, calcCardIdFromString ck c d = .ok (x.getId : Int) := by
  by_cases hc : c ∈ suitLetters
  · have hd := h.resolve_left (not_not_intro hc)
    simp only [suitLetters, List.map_cons, List.map_nil, List.mem_cons, List.not_mem_nil,
      or_false] at hc
    simp only [numberLetters, List.map_cons, List.map_nil, List.mem_cons, List.not_mem_nil,
      or_false] at hd
    suffices ∃ n : Nat, n < 53 ∧ calcCardIdFromString ck c d = .ok (n : Int) by
      obtain ⟨n, hn, heq⟩ := this
      exact ⟨⟨⟨n, hn⟩⟩, heq⟩
    rcases hc with rfl | rfl | rfl | rfl <;> rcases hd with rfl | rfl | rfl | rfl | rfl | rfl
    all_goals exact ⟨_, by decide, rfl⟩
  · have hsuit : ∀ e ∈ suitLetters, c ≠ e := fun e he h => hc (h ▸ he)
    have hC := hsuit 'C'.toUInt8 (by decide)
    have hD := hsuit 'D'.toUInt8 (by decide)
    have hH := hsuit 'H'.toUInt8 (by decide)
    have hS := hsuit 'S'.toUInt8 (by decide)
    refine ⟨Card.joker, ?_⟩
    simp only [calcCardIdFromString, hC, hD, hH, hS, ↓reduceIte]
    rfl

theorem charVal_three (ck : CharKind) : ck.val '3'.toUInt8 = 51 := by cases ck <;> rfl

theorem charVal_at (ck : CharKind) : ck.val '@'.toUInt8 = 64 := by cases ck <;> rfl

/-- **The id of a token.** It is negative, or refused, or that of a card. -/
theorem calcCardId_cases (ck : CharKind) (c d : UInt8) :
    (BelowDeck ck c d ∧ ¬ AboveDeck ck c d ∧
      ∃ id, calcCardIdFromString ck c d = .ok id ∧ id < 0) ∨
    (¬ BelowDeck ck c d ∧ AboveDeck ck c d ∧ calcCardIdFromString ck c d = .error .cardError) ∨
    (¬ BelowDeck ck c d ∧ ¬ AboveDeck ck c d ∧
      ∃ x : Card, calcCardIdFromString ck c d = .ok (x.getId : Int)) := by
  unfold BelowDeck AboveDeck
  by_cases h : c ∈ suitLetters ∧ d ∉ numberLetters
  · obtain ⟨i, hi, hC, heq⟩ := calcCardId_counted ck h.1 h.2
    rw [charVal_three] at heq
    simp only [h.1, h.2, not_false_eq_true, true_and, charVal_three, charVal_at, ne_eq, ← hC]
    rw [heq]
    by_cases hlow : ck.val d < 51
    · refine .inl ⟨hlow, by omega, _, if_neg (by omega), by omega⟩
    by_cases hhigh : 64 < ck.val d ∨ ck.val d = 64 ∧ ¬ i = 0
    · exact .inr (.inl ⟨hlow, hhigh, if_pos (by omega)⟩)
    · refine .inr (.inr ⟨hlow, hhigh, ?_⟩)
      have hlt : ((ck.val d - 51) * 4 + i).toNat < 53 := by omega
      refine ⟨⟨⟨_, hlt⟩⟩, ?_⟩
      rw [if_neg (by omega)]
      simp only [Card.getId, Except.ok.injEq]
      omega
  · have hno : ∀ p : Prop, ¬ (c ∈ suitLetters ∧ d ∉ numberLetters ∧ p) :=
      fun p hp => h ⟨hp.1, hp.2.1⟩
    refine .inr (.inr ⟨hno _, hno _, calcCardId_named ck ?_⟩)
    by_cases hc : c ∈ suitLetters
    · exact .inr (not_not.mp fun hd => h ⟨hc, hd⟩)
    · exact .inl hc

/-- The texts that are read safely: up to a token that is refused, or up to the end, every token has
both of its characters, and none lies before the deck. -/
inductive SafeText (ck : CharKind) : Bytes → Prop
  | nil : SafeText ck []
  | stop {t} : SafeText ck (0 :: t)
  | space {t} : SafeText ck t → SafeText ck (' '.toUInt8 :: t)
  | refused {c d t} : c ≠ 0 → c ≠ ' '.toUInt8 → AboveDeck ck c d → SafeText ck (c :: d :: t)
  | token {c d t} : c ≠ 0 → c ≠ ' '.toUInt8 → d ≠ 0 → ¬ BelowDeck ck c d → SafeText ck t →
      SafeText ck (c :: d :: t)

section

variable {ck : CharKind} {c d : UInt8} {t : Bytes}

theorem safeText_space_iff : SafeText ck (' '.toUInt8 :: t) ↔ SafeText ck t := by
  refine ⟨fun h => ?_, .space⟩
  cases h with
  | space h => exact h
  | refused _ hsp _ => exact (hsp rfl).elim
  | token _ hsp _ _ _ => exact (hsp rfl).elim

theorem safeText_token_iff (h0 : c ≠ 0) (hsp : c ≠ ' '.toUInt8) :
    SafeText ck (c :: d :: t) ↔
      AboveDeck ck c d ∨ d ≠ 0 ∧ ¬ BelowDeck ck c d ∧ SafeText ck t := by
  constructor
  · intro h
    cases h with
    | stop => exact (h0 rfl).elim
    | space => exact (hsp rfl).elim
    | refused _ _ h => exact .inl h
    | token _ _ hd hlow h => exact .inr ⟨hd, hlow, h⟩
  · rintro (h | ⟨hd, hlow, h⟩)
    · exact .refused h0 hsp h
    · exact .token h0 hsp hd hlow h

/-- A text does not end inside a token. -/
theorem not_safeText_single (h0 : c ≠ 0) (hsp : c ≠ ' '.toUInt8) : ¬ SafeText ck [c] := by
  intro h
  cases h with
  | stop => exact h0 rfl
  | space => exact hsp rfl

end

namespace CardSet

/-- A shift by a negative id is a fault. -/
theorem orBit_neg (s : CardSet) {id : Int} (h : id < 0) : s.orBit id = .error .badShift := by
  simp [orBit, h]

/-- The reader from any point of the text on. -/
theorem ofCStrLoop_safe_iff (ck : CharKind) (t : Bytes) (s : CardSet) :
    (ofCStrLoop ck t s = .error .cardError ∨ ∃ s', ofCStrLoop ck t s = .ok s') ↔ SafeText ck t := by
  fun_induction ofCStrLoop ck t s with
  | case1 s => exact ⟨fun _ => .nil, fun _ => .inr ⟨s, rfl⟩⟩
  | case2 s => exact ⟨fun _ => .stop, fun _ => .inr ⟨s, rfl⟩⟩
  | case3 s h0 => exact ⟨fun _ => .space .nil, fun _ => .inr ⟨s, rfl⟩⟩
  | case4 c s h0 hsp =>
    refine iff_of_false (fun h => ?_) (not_safeText_single h0 hsp)
    -- The terminator makes no token that is refused, so the reader goes on after it.
    have hno : ¬ AboveDeck ck c 0 := by
      rintro ⟨-, -, h⟩
      rw [charVal_at, show ck.val 0 = 0 by cases ck <;> rfl] at h
      omega
    rcases calcCardId_cases ck c 0 with ⟨-, -, id, hid, hneg⟩ | ⟨-, habove, -⟩ | ⟨-, -, x, hid⟩
    · simp [hid, orBit_neg s hneg, Bind.bind, Except.bind] at h
    · exact hno habove
    · simp [hid, orBit_id] at h
  | case5 d rest s => exact ⟨fun _ => .stop, fun _ => .inr ⟨s, rfl⟩⟩
  | case6 d rest s h0 ih => rw [ih, safeText_space_iff]
  | case7 c d rest s h0 hsp ih =>
    rw [safeText_token_iff h0 hsp]
    rcases calcCardId_cases ck c d with ⟨hlow, hno, id, hid, hneg⟩ | ⟨-, habove, hid⟩ |
      ⟨hlow, hno, x, hid⟩
    · refine iff_of_false (fun h => ?_) (by simp [hlow, hno])
      simp [hid, orBit_neg s hneg, Bind.bind, Except.bind] at h
    · exact iff_of_true (.inl (by rw [hid]; rfl)) (.inl habove)
    · simp only [hid, orBit_id, except_ok_bind, hno, hlow, not_false_eq_true, true_and, false_or]
      by_cases hd : d = 0
      · simp [hd]
      · simp only [hd, ↓reduceIte, ih, ne_eq, not_false_eq_true, true_and]

theorem subset_allCards (s : CardSet) : s ⊆ allCards := by
  have hall : ∀ c : Card, c ∈ allCards := by decide
  exact subset_iff.mpr fun c _ => hall c

/-- **When the reader is safe.** It throws the card error, or reads to the terminator and ends with
a set of cards of the deck, exactly on the texts of `SafeText`. -/
theorem ofCStr_safe_iff (ck : CharKind) (t : Bytes) :
    (ofCStr ck t = .error .cardError ∨ ∃ s, ofCStr ck t = .ok s ∧ s ⊆ allCards) ↔
      SafeText ck t := by
  simp only [subset_allCards, and_true]
  exact ofCStrLoop_safe_iff ck t ∅

/-- The letter of the spades with a one is shifted by a negative amount; a single letter is read
past its end. -/
theorem ofCStr_unsafe :
    ¬ (ofCStr .signed ['S'.toUInt8, '1'.toUInt8] = .error .cardError ∨
      ∃ s, ofCStr .signed ['S'.toUInt8, '1'.toUInt8] = .ok s ∧ s ⊆ allCards) ∧
    ¬ (ofCStr .signed ['J'.toUInt8] = .error .cardError ∨
      ∃ s, ofCStr .signed ['J'.toUInt8] = .ok s ∧ s ⊆ allCards) := by
  have hshift : ofCStr .signed ['S'.toUInt8, '1'.toUInt8] = .error .badShift := by decide
  have hread : ofCStr .signed ['J'.toUInt8] = .error .readPastEnd := by decide
  simp [hshift, hread]

end CardSet

end Neof5
