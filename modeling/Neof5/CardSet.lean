import Neof5.Cards

/-!
# Sets of cards (`Cards.cpp`, class `CardSet`)

A `CardSet` is a 64-bit word with one bit for each card index. Only the 53 bits of the deck are
ever set: the vector constructor shifts by the ids of cards, the text constructor by the ids of
tokens (a token whose id is no shift amount is a fault, see `Neof5.CardText`), and no operator
sets a bit that its operands do not have. The bound is a field (`inDeck`), so no operation has
to check it again.

The source walks the word in four loops of its own (`size`, `conv2Vector`, `at`, and through
them `toString`). `CardSet.cards`, the members in increasing order, is what all of them compute:
`size_eq`, `conv2Vector_eq`, `at_eq`.
-/

namespace Neof5

/-- A set of cards. -/
structure CardSet where
  bits : BitVec 64
  inDeck : bits.toNat < 2 ^ 53
  deriving DecidableEq, Repr

namespace CardSet

/-- The mask `1 << id` of a card. -/
def mask (c : Card) : BitVec 64 := 1#64 <<< c.getId

theorem mask_toNat (c : Card) : (mask c).toNat = 2 ^ c.getId := by
  have h : 2 ^ c.getId < 2 ^ 64 := Nat.pow_lt_pow_right (by decide) (by have := c.getId_lt; omega)
  simpa [mask, Nat.shiftLeft_eq] using Nat.mod_eq_of_lt h

theorem mask_inDeck (c : Card) : (mask c).toNat < 2 ^ 53 := by
  rw [mask_toNat]; exact Nat.pow_lt_pow_right (by decide) c.getId_lt

theorem and_inDeck {a : BitVec 64} (h : a.toNat < 2 ^ 53) (b : BitVec 64) :
    (a &&& b).toNat < 2 ^ 53 := by
  rw [BitVec.toNat_and]; exact Nat.lt_of_le_of_lt Nat.and_le_left h

/-! ## The operations -/

instance : EmptyCollection CardSet := ⟨⟨0#64, by decide⟩⟩

/-- `CardSet::allCards` -/
def allCards : CardSet := ⟨(1#64 <<< 53) - 1#64, by decide⟩

/-- `CardSet::empty` -/
def empty (s : CardSet) : Bool := s.bits == 0#64

/-- The loop of `size`: `i` iterations are left. -/
def sizeLoop : Nat → BitVec 64 → Nat → Nat
  | 0, _, count => count
  | i + 1, b, count =>
    sizeLoop i (b >>> 1) (if b &&& 0x01#64 ≠ 0#64 then count + 1 else count)

/-- `CardSet::size` -/
def size (s : CardSet) : Nat := sizeLoop Card.getAllCount s.bits 0

/-- `operator-=(const CardSet&)` -/
instance : SDiff CardSet := ⟨fun s t => ⟨s.bits &&& ~~~t.bits, and_inDeck s.inDeck _⟩⟩

/-- `operator+=(const CardSet&)` -/
instance : Union CardSet := ⟨fun s t => ⟨s.bits ||| t.bits, by
  rw [BitVec.toNat_or]; exact Nat.or_lt_two_pow s.inDeck t.inDeck⟩⟩

/-- `operator-=(const Card&)` -/
def subCard (s : CardSet) (c : Card) : CardSet := ⟨s.bits &&& ~~~mask c, and_inDeck s.inDeck _⟩

/-- `operator+=(const Card&)` -/
def addCard (s : CardSet) (c : Card) : CardSet := ⟨s.bits ||| mask c, by
  rw [BitVec.toNat_or]; exact Nat.or_lt_two_pow s.inDeck (mask_inDeck c)⟩

/-- `CardSet::CardSet(const std::vector<Card>&)` -/
def ofVector (cards : List Card) : CardSet := cards.foldl addCard ∅

/-- `has(const Card&)` -/
def has (s : CardSet) (c : Card) : Bool := s.bits &&& mask c != 0#64

/-- `has(const CardSet&)` -/
def hasAll (s t : CardSet) : Bool := s.bits &&& t.bits == t.bits

/-- `new_bits` of `hasNumOf`: the cards of the set whose number is `num`. -/
def numBits (s : CardSet) (num : Nat) : BitVec 64 :=
  (0x0f#64 <<< (4 * ((num + 10) % 13))) &&& s.bits

/-- `hasNumOf(num)` -/
def hasNumOf (s : CardSet) (num : Nat) : Bool := s.numBits num != 0#64

/-- The cards that `hasNumOf(num, &output)` adds to `output`. -/
def numOf (s : CardSet) (num : Nat) : CardSet := ⟨s.numBits num, by
  unfold numBits; rw [BitVec.and_comm]; exact and_inDeck s.inDeck _⟩

/-- `CardSet::extractJoker`: the number of jokers taken out, and the rest. -/
def extractJoker (s : CardSet) : Except Fault (Nat × CardSet) := do
  let jk ← Card.get .JKR 0
  if !s.has jk then pure (0, s) else pure (1, s.subCard jk)

/-- `communion`: the sets meet. -/
def communion (s t : CardSet) : Bool := s.bits &&& t.bits != 0#64

/-- `operator<`: sets are ordered by their words. -/
instance : LT CardSet := ⟨fun s t => s.bits.toNat < t.bits.toNat⟩

instance (s t : CardSet) : Decidable (s < t) :=
  inferInstanceAs (Decidable (s.bits.toNat < t.bits.toNat))

/-- The loop of `conv2Vector`, which ends when no bit is left. A word has 64 bits, so 64
iterations are enough. -/
def conv2VectorLoop : Nat → BitVec 64 → Nat → List Card → Except Fault (List Card)
  | 0, _, _, v => .ok v
  | i + 1, b, idx, v =>
    if b = 0#64 then .ok v
    else if b &&& 0x01#64 ≠ 0#64 then
      match Card.ofId idx with
      | .error e => .error e
      | .ok c => conv2VectorLoop i (b >>> 1) (idx + 1) (v ++ [c])
    else conv2VectorLoop i (b >>> 1) (idx + 1) v

/-- `CardSet::conv2Vector` -/
def conv2Vector (s : CardSet) : Except Fault (List Card) := conv2VectorLoop 64 s.bits 0 []

/-- The loop of `at`: `i` iterations are left. -/
def atLoop (index : Int) : Nat → BitVec 64 → Nat → Nat → Except Fault Card
  | 0, _, _, _ => .error .indexOutOfRange
  | i + 1, b, hit, idx =>
    if b &&& 0x01#64 ≠ 0#64 then
      if (hit : Int) = index then Card.ofId idx
      else atLoop index i (b >>> 1) (hit + 1) (idx + 1)
    else atLoop index i (b >>> 1) hit (idx + 1)

/-- `CardSet::at`, `operator[]` -/
def «at» (s : CardSet) (index : Int) : Except Fault Card :=
  atLoop index Card.getAllCount s.bits 0 0

/-! ## Membership -/

instance : Membership Card CardSet := ⟨fun s c => s.has c = true⟩

instance (s : CardSet) (c : Card) : Decidable (c ∈ s) := inferInstanceAs (Decidable (_ = true))

instance : HasSubset CardSet := ⟨fun s t => t.hasAll s = true⟩

instance (s t : CardSet) : Decidable (s ⊆ t) := inferInstanceAs (Decidable (_ = true))

/-- Bit `i` of the mask of a card. -/
theorem mask_getLsbD (c : Card) (i : Nat) : (mask c).getLsbD i = decide (i = c.getId) := by
  have hc := c.getId_lt
  rw [BitVec.getLsbD, mask_toNat, Nat.testBit_two_pow]
  simp [eq_comm]

theorem mem_iff {s : CardSet} {c : Card} : c ∈ s ↔ s.bits.getLsbD c.getId = true := by
  show (s.bits &&& mask c != 0#64) = true ↔ _
  simp only [bne_iff_ne, ne_eq]
  constructor
  · intro h
    by_contra hn
    apply h
    apply BitVec.eq_of_getLsbD_eq
    intro i hi
    by_cases hic : i = c.getId
    · subst hic; simp [hn]
    · simp [mask_getLsbD, hic]
  · intro h h0
    have := congrArg (fun b => b.getLsbD c.getId) h0
    simp [mask_getLsbD, h] at this

/-- Sets are equal if they have the same cards: no bit above the deck is set. -/
@[ext] theorem ext {s t : CardSet} (h : ∀ c, c ∈ s ↔ c ∈ t) : s = t := by
  have hb : s.bits = t.bits := by
    apply BitVec.eq_of_getLsbD_eq
    intro i hi
    by_cases h53 : i < 53
    · have := h ⟨⟨i, h53⟩⟩
      rw [mem_iff, mem_iff] at this
      exact Bool.eq_iff_iff.mpr this
    · have hz : ∀ u : CardSet, u.bits.getLsbD i = false := fun u => by
        apply Nat.testBit_lt_two_pow
        exact Nat.lt_of_lt_of_le u.inDeck (Nat.pow_le_pow_right (by decide) (by omega))
      rw [hz s, hz t]
  cases s; cases t; simp_all

@[simp] theorem not_mem_empty (c : Card) : c ∉ (∅ : CardSet) := by
  rw [mem_iff]; show ¬ (0#64).getLsbD c.getId = true; simp

@[simp, grind =] theorem mem_sdiff {s t : CardSet} {c : Card} : c ∈ s \ t ↔ c ∈ s ∧ c ∉ t := by
  have h64 : c.getId < 64 := by have := c.getId_lt; omega
  simp only [mem_iff]
  show (s.bits &&& ~~~t.bits).getLsbD c.getId = true ↔ _
  simp [h64]

@[simp, grind =] theorem mem_union {s t : CardSet} {c : Card} : c ∈ s ∪ t ↔ c ∈ s ∨ c ∈ t := by
  simp only [mem_iff]
  show (s.bits ||| t.bits).getLsbD c.getId = true ↔ _
  simp

@[simp, grind =] theorem mem_addCard {s : CardSet} {c d : Card} :
    d ∈ s.addCard c ↔ d ∈ s ∨ d = c := by
  simp only [mem_iff, addCard, BitVec.getLsbD_or, mask_getLsbD]
  simp [Card.ext_id_iff]

@[simp, grind =] theorem mem_subCard {s : CardSet} {c d : Card} :
    d ∈ s.subCard c ↔ d ∈ s ∧ d ≠ c := by
  have hd : d.getId < 64 := by have := d.getId_lt; omega
  simp only [mem_iff, subCard, BitVec.getLsbD_and, BitVec.getLsbD_not, mask_getLsbD]
  simp [hd, Card.ext_id_iff]

theorem subset_iff {s t : CardSet} : s ⊆ t ↔ ∀ c ∈ s, c ∈ t := by
  show (t.bits &&& s.bits == s.bits) = true ↔ _
  rw [beq_iff_eq]
  constructor
  · intro h c hc
    rw [mem_iff] at hc ⊢
    rw [← h, BitVec.getLsbD_and] at hc
    simp_all
  · intro h
    have key : (⟨t.bits &&& s.bits, and_inDeck t.inDeck _⟩ : CardSet) = s := by
      ext c
      have hc := h c
      rw [mem_iff] at hc ⊢
      rw [mem_iff] at hc ⊢
      simp only [BitVec.getLsbD_and, Bool.and_eq_true]
      tauto
    exact congrArg CardSet.bits key

protected theorem subset_refl (s : CardSet) : s ⊆ s := subset_iff.mpr fun _ hc => hc

protected theorem subset_trans {s t u : CardSet} (h : s ⊆ t) (h' : t ⊆ u) : s ⊆ u :=
  subset_iff.mpr fun c hc => subset_iff.mp h' c (subset_iff.mp h c hc)

theorem empty_subset (s : CardSet) : ∅ ⊆ s :=
  subset_iff.mpr fun c hc => (not_mem_empty c hc).elim

theorem addCard_subset_iff {s t : CardSet} {c : Card} : s.addCard c ⊆ t ↔ s ⊆ t ∧ c ∈ t := by
  simp only [subset_iff, mem_addCard, or_imp, forall_and, forall_eq]

theorem subset_addCard (s : CardSet) (c : Card) : s ⊆ s.addCard c :=
  (addCard_subset_iff.mp (CardSet.subset_refl _)).1

theorem empty_iff {s : CardSet} : s.empty = true ↔ s = ∅ := by
  constructor
  · intro h
    have hb : s.bits = 0#64 := by simpa [empty] using h
    cases s; subst hb; rfl
  · rintro rfl; rfl

@[simp] theorem empty_empty : (∅ : CardSet).empty = true := rfl

theorem eq_empty_iff {s : CardSet} : s = ∅ ↔ ∀ c, c ∉ s := by
  constructor
  · rintro rfl c; simp
  · intro h; ext c; simp [h c]

theorem exists_mem_of_ne {s : CardSet} (h : s ≠ ∅) : ∃ c, c ∈ s := by
  by_contra hn
  push Not at hn
  exact h (eq_empty_iff.mpr hn)

theorem empty_eq_false_iff {s : CardSet} : s.empty = false ↔ s ≠ ∅ := by
  rw [Ne, ← empty_iff, Bool.not_eq_true]

/-- The sets have no card in common. -/
def Apart (s t : CardSet) : Prop := ∀ c, c ∈ s → c ∉ t

instance (s t : CardSet) : Decidable (Apart s t) := inferInstanceAs (Decidable (∀ _, _))

theorem communion_iff {s t : CardSet} : s.communion t = true ↔ ∃ c, c ∈ s ∧ c ∈ t := by
  have key : s.communion t = !(⟨s.bits &&& t.bits, and_inDeck s.inDeck _⟩ : CardSet).empty := rfl
  rw [key, Bool.not_eq_true', empty_eq_false_iff]
  have hm : ∀ c, c ∈ (⟨s.bits &&& t.bits, and_inDeck s.inDeck _⟩ : CardSet) ↔ c ∈ s ∧ c ∈ t := by
    intro c; simp only [mem_iff, BitVec.getLsbD_and, Bool.and_eq_true]
  constructor
  · intro h
    obtain ⟨c, hc⟩ := exists_mem_of_ne h
    exact ⟨c, (hm c).mp hc⟩
  · rintro ⟨c, hc⟩ h0
    have := (hm c).mpr hc
    rw [h0] at this
    exact not_mem_empty c this

theorem communion_eq_false {s t : CardSet} : s.communion t = false ↔ Apart s t := by
  rw [← Bool.not_eq_true, communion_iff]; unfold Apart; push Not; rfl

theorem mem_ofVector {v : List Card} {c : Card} : c ∈ ofVector v ↔ c ∈ v := by
  suffices ∀ s : CardSet, c ∈ v.foldl addCard s ↔ c ∈ s ∨ c ∈ v by simpa [ofVector] using this ∅
  induction v with
  | nil => simp
  | cons d v ih => intro s; simp only [List.foldl_cons, ih, mem_addCard, List.mem_cons]; tauto

/-! ## The members in order -/

/-- The deck in increasing order. -/
def allCardList : List Card := (List.finRange 53).map Card.mk

/-- The members of a set in increasing order. -/
def cards (s : CardSet) : List Card := allCardList.filter (s.has ·)

/-- The members of a set from index `k` on: what a loop still has to visit. -/
private def cardsFrom (s : CardSet) (k : Nat) : List Card := (allCardList.drop k).filter (s.has ·)

private theorem cardsFrom_succ (s : CardSet) {k : Nat} (h : k < 53) :
    s.cardsFrom k =
      if s.has ⟨⟨k, h⟩⟩ then ⟨⟨k, h⟩⟩ :: s.cardsFrom (k + 1) else s.cardsFrom (k + 1) := by
  unfold cardsFrom
  rw [List.drop_eq_getElem_cons (by simpa [allCardList] using h), List.filter_cons]
  simp [allCardList]

private theorem cardsFrom_end (s : CardSet) {k : Nat} (h : 53 ≤ k) : s.cardsFrom k = [] := by
  unfold cardsFrom
  rw [List.drop_eq_nil_of_le (by simpa [allCardList] using h)]; rfl

/-- The lowest bit of the shifted word is the bit of the card that the loop is at. -/
private theorem low_bit (s : CardSet) {k : Nat} (h : k < 53) :
    (s.bits >>> k) &&& 0x01#64 ≠ 0#64 ↔ s.has ⟨⟨k, h⟩⟩ = true := by
  have hm : s.has ⟨⟨k, h⟩⟩ = true ↔ s.bits.getLsbD k = true := mem_iff
  rw [hm]
  constructor
  · intro hne
    by_contra hn
    apply hne
    apply BitVec.eq_of_getLsbD_eq
    intro i hi
    cases i with
    | zero => simpa using hn
    | succ i => simp [BitVec.getLsbD_one]
  · intro hk h0
    have := congrArg (fun b => b.getLsbD 0) h0
    simp [hk] at this

private theorem sizeLoop_eq (s : CardSet) (n k count : Nat) (h : n + k = 53) :
    sizeLoop n (s.bits >>> k) count = count + (s.cardsFrom k).length := by
  induction n generalizing k count with
  | zero => simp [sizeLoop, s.cardsFrom_end (k := k) (by omega)]
  | succ n ih =>
    have hk : k < 53 := by omega
    simp only [sizeLoop, s.low_bit hk]
    rw [← BitVec.shiftRight_add, ih (k + 1) _ (by omega), s.cardsFrom_succ hk]
    split
    · rw [List.length_cons]; omega
    · rfl

theorem size_eq (s : CardSet) : s.size = s.cards.length := by
  have := s.sizeLoop_eq 53 0 0 rfl
  simpa [size, cards, cardsFrom] using this

private theorem atLoop_eq (s : CardSet) (index : Int) (n k hit : Nat) (h : n + k = 53) :
    atLoop index n (s.bits >>> k) hit k =
      if (hit : Int) ≤ index then
        match (s.cardsFrom k)[(index - hit).toNat]? with
        | some c => .ok c
        | none => .error .indexOutOfRange
      else .error .indexOutOfRange := by
  induction n generalizing k hit with
  | zero => simp [atLoop, s.cardsFrom_end (k := k) (by omega)]
  | succ n ih =>
    have hk : k < 53 := by omega
    simp only [atLoop, s.low_bit hk]
    rw [← BitVec.shiftRight_add, s.cardsFrom_succ hk]
    split
    · split
      · rename_i hi
        simp [Card.ofId, hk, hi]
      · rename_i hi
        rw [ih (k + 1) (hit + 1) (by omega)]
        by_cases hlt : (hit : Int) < index
        · rw [if_pos (by omega), if_pos (by omega),
            show (index - hit).toNat = (index - ((hit + 1 : Nat) : Int)).toNat + 1 by omega,
            List.getElem?_cons_succ]
        · rw [if_neg (by omega), if_neg (by omega)]
    · exact ih (k + 1) hit (by omega)

/-- `at` reads the members in order and throws for every index that is not one of theirs. -/
theorem at_eq (s : CardSet) (index : Int) :
    s.at index =
      if 0 ≤ index then
        match s.cards[index.toNat]? with
        | some c => .ok c
        | none => .error .indexOutOfRange
      else .error .indexOutOfRange := by
  have := s.atLoop_eq index 53 0 0 rfl
  simpa [CardSet.at, cards, cardsFrom] using this

private theorem conv2VectorLoop_eq (s : CardSet) (n k : Nat) (v : List Card) (h : n + k = 64) :
    conv2VectorLoop n (s.bits >>> k) k v = .ok (v ++ s.cardsFrom k) := by
  induction n generalizing k v with
  | zero => simp [conv2VectorLoop, s.cardsFrom_end (k := k) (by omega)]
  | succ n ih =>
    -- The word is zero from index 53 on, so the loop never asks for a card outside the deck.
    have hz : 53 ≤ k → s.bits >>> k = 0#64 := fun hk => by
      apply BitVec.eq_of_toNat_eq
      simp only [BitVec.toNat_ushiftRight, BitVec.toNat_ofNat, Nat.shiftRight_eq_div_pow]
      have : s.bits.toNat < 2 ^ k :=
        Nat.lt_of_lt_of_le s.inDeck (Nat.pow_le_pow_right (by decide) hk)
      simp [Nat.div_eq_of_lt this]
    simp only [conv2VectorLoop]
    split
    · rename_i h0
      have : s.cardsFrom k = [] := by
        apply List.filter_eq_nil_iff.mpr
        intro c hc hin
        obtain ⟨i, hi, rfl⟩ := List.getElem_of_mem hc
        have hb := mem_iff.mp hin
        have := congrArg (fun b => b.getLsbD i) h0
        simp only [BitVec.getLsbD_ushiftRight, BitVec.getLsbD_zero] at this
        simp [allCardList, Card.getId] at hb
        simp [this] at hb
      simp [this]
    · rename_i h0
      have hk : k < 53 := by by_contra hk; exact h0 (hz (by omega))
      simp only [s.low_bit hk, ← BitVec.shiftRight_add, Card.ofId, hk, ↓reduceDIte]
      rw [s.cardsFrom_succ hk]
      split
      · rw [ih (k + 1) _ (by omega)]; simp
      · exact ih (k + 1) v (by omega)

theorem conv2Vector_eq (s : CardSet) : s.conv2Vector = .ok s.cards := by
  have := s.conv2VectorLoop_eq 64 0 [] rfl
  simpa [conv2Vector, cards, cardsFrom] using this

@[simp] theorem mem_cards {s : CardSet} {c : Card} : c ∈ s.cards ↔ c ∈ s := by
  have : c ∈ allCardList := List.mem_map.mpr ⟨c.idx, List.mem_finRange _, rfl⟩
  simp only [cards, List.mem_filter, this, true_and]; rfl

theorem ofVector_cards (s : CardSet) : ofVector s.cards = s := by
  ext c; rw [mem_ofVector, mem_cards]

theorem cards_sorted (s : CardSet) : s.cards.Pairwise (· < ·) := by
  apply List.Pairwise.filter
  unfold allCardList
  rw [List.pairwise_map]
  exact (List.pairwise_lt_finRange 53).imp fun h => Card.lt_iff.mpr h

theorem cards_nodup (s : CardSet) : s.cards.Nodup :=
  s.cards_sorted.imp fun h e => by rw [Card.lt_iff, e] at h; omega

theorem cards_eq_nil_iff {s : CardSet} : s.cards = [] ↔ s = ∅ := by
  rw [List.eq_nil_iff_forall_not_mem, eq_empty_iff]; simp

/-! ## Sizes -/

/-- The set as a `Finset`, for the sizes of unions and differences. -/
def toFinset (s : CardSet) : Finset Card := s.cards.toFinset

@[simp] theorem mem_toFinset {s : CardSet} {c : Card} : c ∈ s.toFinset ↔ c ∈ s := by
  simp [toFinset]

theorem size_eq_card (s : CardSet) : s.size = s.toFinset.card := by
  rw [size_eq, toFinset, List.toFinset_card_of_nodup s.cards_nodup]

theorem size_le (s : CardSet) : s.size ≤ 53 := by
  rw [size_eq_card]
  exact (Finset.card_le_univ _).trans (by decide)

theorem toFinset_subset {s t : CardSet} : s.toFinset ⊆ t.toFinset ↔ s ⊆ t := by
  rw [subset_iff]; simp [Finset.subset_iff]

theorem size_le_of_subset {s t : CardSet} (h : s ⊆ t) : s.size ≤ t.size := by
  rw [size_eq_card, size_eq_card]; exact Finset.card_le_card (toFinset_subset.mpr h)

theorem eq_of_subset_of_size_le {s t : CardSet} (h : s ⊆ t) (hs : t.size ≤ s.size) : s = t := by
  rw [size_eq_card, size_eq_card] at hs
  have := Finset.eq_of_subset_of_card_le (toFinset_subset.mpr h) hs
  ext c; rw [← mem_toFinset, this, mem_toFinset]

@[simp] theorem size_empty : (∅ : CardSet).size = 0 := by decide

theorem size_eq_zero {s : CardSet} : s.size = 0 ↔ s = ∅ := by
  rw [size_eq, List.length_eq_zero_iff, cards_eq_nil_iff]

theorem size_pos {s : CardSet} : 0 < s.size ↔ s ≠ ∅ := by
  rw [Nat.pos_iff_ne_zero, Ne, size_eq_zero]

theorem size_addCard {s : CardSet} {c : Card} (h : c ∉ s) : (s.addCard c).size = s.size + 1 := by
  rw [size_eq_card, size_eq_card,
    show (s.addCard c).toFinset = insert c s.toFinset by ext d; simp [or_comm]]
  exact Finset.card_insert_of_notMem (by simpa using h)

theorem size_subCard {s : CardSet} {c : Card} (h : c ∈ s) : (s.subCard c).size + 1 = s.size := by
  rw [size_eq_card, size_eq_card,
    show (s.subCard c).toFinset = s.toFinset.erase c by ext d; simp [and_comm]]
  exact Finset.card_erase_add_one (by simpa using h)

/-- The first card of a set that is not empty is its least. -/
theorem at_zero {s : CardSet} (h : s ≠ ∅) :
    ∃ c, s.at 0 = .ok c ∧ s.cards.head? = some c ∧ c ∈ s ∧ ∀ d ∈ s, c.getId ≤ d.getId := by
  have hne : s.cards ≠ [] := fun e => h (cards_eq_nil_iff.mp e)
  obtain ⟨c, t, hc⟩ := List.exists_cons_of_ne_nil hne
  have hs := s.cards_sorted
  rw [hc, List.pairwise_cons] at hs
  refine ⟨c, by simp [at_eq, hc], by simp [hc], by rw [← mem_cards, hc]; simp, fun d hd => ?_⟩
  rw [← mem_cards, hc, List.mem_cons] at hd
  rcases hd with rfl | hd
  · exact Nat.le_refl _
  · exact Nat.le_of_lt (Card.lt_iff.mp (hs.1 d hd))

end CardSet

end Neof5
