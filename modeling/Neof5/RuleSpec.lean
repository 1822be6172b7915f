import Neof5.RuleLemmas

/-!
# What the rules decide

The checks of `DaifugoRule.cpp` against the rules of the game, stated without the card table: the
strength of a play is the position of its number in `numberOrder`, and a sequence is counted in
ranks.

* `canPutA_decides`: the check of class A is the rule, and its error names the first condition
  that fails.
* `isKaidan_iff_isSequence_iff`: no set is recognised as a sequence, because the distance between
  neighbours is counted in card indices, four to a rank.
* `compareKaidan_iff`: the decision between two sequences is the wrong way round.
-/

namespace Neof5

open CardSet

/-! ## Class A -/

/-- The numbers of the cards from the weakest to the strongest. -/
def numberOrder : List Nat := [3, 4, 5, 6, 7, 8, 9, 10, 11, 12, 13, 1, 2]

/-- The strength of a number: its position in the order, from the other end under the
revolution. -/
def numberStrength (k : Bool) (num : Nat) : Nat :=
  if k then 12 - numberOrder.idxOf num else numberOrder.idxOf num

/-- The strength of a play: that of its number. The lone joker is above every number. -/
def playStrength (k : Bool) (s : CardSet) : Nat :=
  match s.cards.filter (!·.isJoker) with
  | [] => 13
  | c :: _ => numberStrength k c.getNum

/-- All cards other than the joker share one number. -/
def SameNumber (s : CardSet) : Prop :=
  ∀ c ∈ s, ∀ d ∈ s, c.isJoker = false → d.isJoker = false → c.getNum = d.getNum

theorem sameNumber_iff {s : CardSet} : SameNumber s ↔ s.IsGroup := by
  simp only [SameNumber, IsGroup, Card.getNum_eq_iff]

theorem idxOf_getNum : ∀ c : Card, c.isJoker = false → numberOrder.idxOf c.getNum = c.rank := by
  decide

theorem numberStrength_getNum {k : Bool} {c : Card} (hc : c.isJoker = false) :
    numberStrength k c.getNum = c.power k := by
  simp only [numberStrength, idxOf_getNum c hc, Card.power, hc, Bool.false_eq_true, ↓reduceIte]

/-- The least card of a play tells its strength: only the lone joker is led by the joker. -/
theorem playStrength_eq {k : Bool} {s : CardSet} (h : s ≠ ∅) :
    playStrength k s = s.lead.power k := by
  obtain ⟨c, t, hc⟩ := List.exists_cons_of_ne_nil (mt cards_eq_nil_iff.mp h)
  have hlead : s.lead = c := by simp [lead, hc]
  unfold playStrength
  cases hj : c.isJoker with
  | true =>
    have hnil : s.cards.filter (!·.isJoker) = [] := by
      rw [List.filter_eq_nil_iff]
      intro d hd
      have := lead_joker h (by rw [hlead]; exact hj) d (mem_cards.mp hd)
      simp [this, Card.isJoker_iff_eq]
    rw [hnil, hlead, Card.isJoker_iff_eq.mp hj, Card.power_joker]
  | false =>
    rw [hc, List.filter_cons_of_pos (by simp [hj]), hlead]
    exact numberStrength_getNum hj

/-- **Class A decides the rule.** The check always ends with a result. It is OK exactly for a
pass, or for cards of one number that meet an empty table or as many cards of one weaker number;
otherwise it is the error of the first of these conditions that fails. -/
theorem canPutA_decides (r : DaifugoRule) (cards ba : CardSet) :
    ∃ res, r.canPutA cards ba = .ok res ∧
      (res = .ok ↔ cards = ∅ ∨ SameNumber cards ∧ (ba = ∅ ∨ ba.size = cards.size ∧
        SameNumber ba ∧ playStrength r.isKakumei ba < playStrength r.isKakumei cards)) ∧
      (res = .errDifferentNum ↔ cards ≠ ∅ ∧ ¬ SameNumber cards) ∧
      (res = .errCountUnmatch ↔ cards ≠ ∅ ∧ SameNumber cards ∧ ba ≠ ∅ ∧
        ba.size ≠ cards.size) ∧
      (res = .errInvalidBa ↔ cards ≠ ∅ ∧ SameNumber cards ∧ ba ≠ ∅ ∧
        ba.size = cards.size ∧ ¬ SameNumber ba) ∧
      (res = .errNotStrong ↔ cards ≠ ∅ ∧ SameNumber cards ∧ ba ≠ ∅ ∧
        ba.size = cards.size ∧ SameNumber ba ∧
        playStrength r.isKakumei cards ≤ playStrength r.isKakumei ba) ∧
      (res = .ok ∨ res = .errDifferentNum ∨ res = .errCountUnmatch ∨ res = .errInvalidBa ∨
        res = .errNotStrong) := by
  refine ⟨putResult r.isKakumei cards ba, canPutA_eq r cards ba, ?_⟩
  simp only [sameNumber_iff]
  unfold putResult
  by_cases hc : cards = ∅
  · simp [hc]
  by_cases hg : cards.IsGroup
  · by_cases hb : ba = ∅
    · simp [hc, hg, hb]
    rw [playStrength_eq hc, playStrength_eq hb]
    by_cases hs : ba.size = cards.size
    · by_cases hbg : ba.IsGroup
      · by_cases hp : ba.lead.power r.isKakumei < cards.lead.power r.isKakumei
        · simp [hc, hg, hb, hs, hbg, hp]
        · simp [hc, hg, hb, hs, hbg, hp, not_lt.mp hp]
      · simp [hc, hg, hb, hs, hbg]
    · simp [hc, hg, hb, hs]
  · simp [hc, hg]

/-! ## Sequences -/

/-- The number of ranks missing between the neighbours of an increasing list. -/
def missingRanks : List Nat → Nat
  | a :: b :: rest => (b - a - 1) + missingRanks (b :: rest)
  | _ => 0

/-- A sequence: three cards or more, one suit, and no more ranks missing between neighbours than
jokers to fill them. `cards` lists a set in increasing order. -/
def IsSequence (cards : CardSet) : Prop :=
  3 ≤ cards.size ∧
  (∀ c ∈ cards, ∀ d ∈ cards, c.isJoker = false → d.isJoker = false → c.getSuit = d.getSuit) ∧
  missingRanks ((cards.cards.filter (!·.isJoker)).map Card.rank) ≤
    (cards.cards.filter (·.isJoker)).length

instance (cards : CardSet) : Decidable (IsSequence cards) :=
  inferInstanceAs (Decidable (_ ∧ _ ∧ _))

/-- No set is taken for a sequence. -/
theorem isKaidan_eq_false (cards : CardSet) : DaifugoRule.isKaidan cards = .ok false := by
  simp [DaifugoRule.isKaidan, isKaidanCards_eq]

/-- The recognition is right exactly on the sets that are not sequences. -/
theorem isKaidan_iff_isSequence_iff (cards : CardSet) :
    (DaifugoRule.isKaidan cards = .ok true ↔ IsSequence cards) ↔ ¬ IsSequence cards := by
  rw [isKaidan_eq_false]
  simp

/-- Clubs 3, 4, 5 are a sequence and are not recognised. -/
theorem isKaidan_clubs_345 :
    ¬ (DaifugoRule.isKaidan (ofVector [⟨0⟩, ⟨4⟩, ⟨8⟩]) = .ok true ↔
      IsSequence (ofVector [⟨0⟩, ⟨4⟩, ⟨8⟩])) := by
  rw [isKaidan_eq_false]
  have : IsSequence (ofVector [⟨0⟩, ⟨4⟩, ⟨8⟩]) := by decide +kernel
  simp [this]

/-! ## Sequence against sequence -/

/-- A scan that keeps the better of two cards, by their keys, ends with a card of the list that has
the greatest key. -/
private theorem foldl_best {R : Card → Card → Prop} [DecidableRel R] (key : Card → Int)
    (hR : ∀ d m, R d m ↔ key m < key d) (cs : List Card) (c : Card) :
    (cs.foldl (fun m d => if R d m then d else m) c) ∈ c :: cs ∧
      ∀ d ∈ c :: cs, key d ≤ key (cs.foldl (fun m d => if R d m then d else m) c) := by
  induction cs generalizing c with
  | nil => simp
  | cons e cs ih =>
    rw [List.foldl_cons]
    obtain ⟨hm, hall⟩ := ih (if R e c then e else c)
    -- The better of the first two cards is one of them, and no worse than both.
    have hmem : (if R e c then e else c) = e ∨ (if R e c then e else c) = c := by
      split <;> simp
    have hle : key e ≤ key (if R e c then e else c) ∧ key c ≤ key (if R e c then e else c) := by
      split
      · rename_i h
        rw [hR] at h
        omega
      · rename_i h
        rw [hR] at h
        omega
    refine ⟨?_, fun d hd => ?_⟩
    · rcases List.mem_cons.mp hm with h | h
      · rw [h]
        rcases hmem with h | h <;> rw [h] <;> simp
      · exact List.mem_cons_of_mem _ (List.mem_cons_of_mem _ h)
    · have hbest := hall _ List.mem_cons_self
      rcases List.mem_cons.mp hd with rfl | hd
      · exact hle.2.trans hbest
      · rcases List.mem_cons.mp hd with rfl | hd
        · exact hle.1.trans hbest
        · exact hall d (List.mem_cons_of_mem _ hd)

/-- `std::max_element` gives a card of the vector of the highest rank. -/
theorem maxElement_spec {v : List Card} (h : v ≠ []) :
    ∃ m, maxElement v = .ok m ∧ m ∈ v ∧ ∀ d ∈ v, d.rank ≤ m.rank := by
  obtain ⟨c, cs, rfl⟩ := List.exists_cons_of_ne_nil h
  obtain ⟨hm, hall⟩ := foldl_best (R := fun d m : Card => m < d) (fun c => c.getId)
    (fun d m => by rw [Card.lt_iff]; omega) cs c
  refine ⟨_, rfl, hm, fun d hd => Card.rank_le_of_id_le ?_⟩
  have := hall d hd
  omega

/-- `std::min_element` gives a card of the vector of the lowest rank. -/
theorem minElement_spec {v : List Card} (h : v ≠ []) :
    ∃ m, minElement v = .ok m ∧ m ∈ v ∧ ∀ d ∈ v, m.rank ≤ d.rank := by
  obtain ⟨c, cs, rfl⟩ := List.exists_cons_of_ne_nil h
  obtain ⟨hm, hall⟩ := foldl_best (R := fun d m : Card => d < m) (fun c => -c.getId)
    (fun d m => by rw [Card.lt_iff]; omega) cs c
  refine ⟨_, rfl, hm, fun d hd => Card.rank_le_of_id_le ?_⟩
  have := hall d hd
  omega

/-- Every card of `vCards` is strictly stronger than every card of `vBalast`. -/
def AllStronger (k : Bool) (vBalast vCards : List Card) : Prop :=
  ∀ c ∈ vCards, ∀ b ∈ vBalast, numberStrength k b.getNum < numberStrength k c.getNum

instance (k : Bool) (vBalast vCards : List Card) : Decidable (AllStronger k vBalast vCards) :=
  inferInstanceAs (Decidable (∀ _, _))

theorem allStronger_iff {k : Bool} {vBalast vCards : List Card}
    (hb : ∀ b ∈ vBalast, b.isJoker = false) (hc : ∀ c ∈ vCards, c.isJoker = false) :
    AllStronger k vBalast vCards ↔
      ∀ c ∈ vCards, ∀ b ∈ vBalast, if k then c.rank < b.rank else b.rank < c.rank := by
  refine forall₂_congr fun c hcm => forall₂_congr fun b hbm => ?_
  rw [numberStrength_getNum (hb b hbm), numberStrength_getNum (hc c hcm),
    Card.power_lt_iff (hb b hbm) (hc c hcm)]

/-- The lowest rank of `vCards` is the highest of `vBalast`. -/
def EndToEnd (vBalast vCards : List Card) : Prop :=
  ∃ c ∈ vCards, ∃ b ∈ vBalast, c.rank = b.rank ∧ (∀ d ∈ vCards, c.rank ≤ d.rank) ∧
    ∀ d ∈ vBalast, d.rank ≤ b.rank

/-- Neither vector lies wholly above the other. -/
def Overlap (vBalast vCards : List Card) : Prop :=
  (∃ c ∈ vCards, ∃ b ∈ vBalast, c.rank ≤ b.rank) ∧ ∃ c ∈ vCards, ∃ b ∈ vBalast, b.rank ≤ c.rank

section

variable {vBalast vCards : List Card} {b c : Card}

/-- The play lies wholly above the table if its lowest card is above the highest of the table. -/
theorem forall_rank_lt_iff (hb : b ∈ vBalast) (hmax : ∀ d ∈ vBalast, d.rank ≤ b.rank)
    (hc : c ∈ vCards) (hmin : ∀ d ∈ vCards, c.rank ≤ d.rank) :
    (∀ c ∈ vCards, ∀ b ∈ vBalast, b.rank < c.rank) ↔ b.rank < c.rank :=
  ⟨fun h => h c hc b hb, fun h c' hc' b' hb' =>
    (hmax b' hb').trans_lt (h.trans_le (hmin c' hc'))⟩

theorem endToEnd_iff (hb : b ∈ vBalast) (hmax : ∀ d ∈ vBalast, d.rank ≤ b.rank)
    (hc : c ∈ vCards) (hmin : ∀ d ∈ vCards, c.rank ≤ d.rank) :
    EndToEnd vBalast vCards ↔ c.rank = b.rank := by
  constructor
  · rintro ⟨c', hc', b', hb', heq, hmin', hmax'⟩
    have h₁ := hmin c' hc'
    have h₂ := hmin' c hc
    have h₃ := hmax b' hb'
    have h₄ := hmax' b hb
    omega
  · intro heq
    exact ⟨c, hc, b, hb, heq, hmin, hmax⟩

theorem overlap_iff (hb : b ∈ vBalast) (hmax : ∀ d ∈ vBalast, d.rank ≤ b.rank)
    (hc : c ∈ vCards) (hmin : ∀ d ∈ vCards, c.rank ≤ d.rank) :
    Overlap vBalast vCards ↔
      ¬ b.rank < c.rank ∧ ¬ ∀ c ∈ vCards, ∀ b ∈ vBalast, c.rank < b.rank := by
  rw [← forall_rank_lt_iff hb hmax hc hmin, Overlap]
  push Not
  rfl

end

/-- **The decision between two sequences is the wrong way round.** The source asks whether the
highest card of the table is stronger than the lowest card of the play. In the usual order that is
right only if these two have one rank (neither answer is OK then); under the revolution it is
right exactly if the ranks overlap. -/
theorem compareKaidan_iff (r : DaifugoRule) (vBalast vCards : List Card) (hb : vBalast ≠ [])
    (hc : vCards ≠ []) (hbj : ∀ b ∈ vBalast, b.isJoker = false)
    (hcj : ∀ c ∈ vCards, c.isJoker = false) :
    r.compareKaidan vBalast vCards =
        .ok (if AllStronger r.isKakumei vBalast vCards then .ok else .errNotStrong) ↔
      if r.isKakumei then Overlap vBalast vCards else EndToEnd vBalast vCards := by
  obtain ⟨b, hbmax, hbm, hball⟩ := maxElement_spec hb
  obtain ⟨c, hcmin, hcm, hcall⟩ := minElement_spec hc
  have hrun : r.compareKaidan vBalast vCards =
      .ok (if c.power r.isKakumei < b.power r.isKakumei then .ok else .errNotStrong) := by
    simp only [DaifugoRule.compareKaidan, hbmax, hcmin, except_ok_bind, compareCards_pos_iff]
    split <;> rfl
  rw [hrun, Except.ok.injEq]
  have key : (c.power r.isKakumei < b.power r.isKakumei ↔
      AllStronger r.isKakumei vBalast vCards) ↔
      if r.isKakumei then Overlap vBalast vCards else EndToEnd vBalast vCards := by
    rw [allStronger_iff hbj hcj]
    cases r.isKakumei with
    | false =>
      simp only [Card.power_lt_iff (hcj c hcm) (hbj b hbm), Bool.false_eq_true, ↓reduceIte]
      rw [forall_rank_lt_iff hbm hball hcm hcall, endToEnd_iff hbm hball hcm hcall]
      omega
    | true =>
      simp only [Card.power_lt_iff (hcj c hcm) (hbj b hbm), ↓reduceIte]
      rw [overlap_iff hbm hball hcm hcall]
      -- Both answers are OK only if the play lies above the table and below it.
      have hnot : b.rank < c.rank → ¬ ∀ c ∈ vCards, ∀ b ∈ vBalast, c.rank < b.rank :=
        fun h hall => by have := hall c hcm b hbm; omega
      tauto
  rw [← key]
  by_cases h₁ : c.power r.isKakumei < b.power r.isKakumei <;>
    by_cases h₂ : AllStronger r.isKakumei vBalast vCards <;> simp [h₁, h₂]

/-- The hypotheses are met, and in this case also the condition: 3 to 5 of clubs against 5 to 7
of diamonds. -/
theorem compareKaidan_iff_clubs_diamonds :
    DaifugoRule.compareKaidan ⟨.B, false⟩ [⟨0⟩, ⟨4⟩, ⟨8⟩] [⟨9⟩, ⟨13⟩, ⟨17⟩] =
        .ok (if AllStronger false [⟨0⟩, ⟨4⟩, ⟨8⟩] [⟨9⟩, ⟨13⟩, ⟨17⟩] then .ok else .errNotStrong) ↔
      EndToEnd [⟨0⟩, ⟨4⟩, ⟨8⟩] [⟨9⟩, ⟨13⟩, ⟨17⟩] :=
  compareKaidan_iff ⟨.B, false⟩ _ _ (by decide) (by decide) (by decide) (by decide)

/-- 6 to 8 of clubs are not accepted on 3 to 5 of clubs. -/
theorem compareKaidan_clubs_678 :
    ¬ DaifugoRule.compareKaidan ⟨.B, false⟩ [⟨0⟩, ⟨4⟩, ⟨8⟩] [⟨12⟩, ⟨16⟩, ⟨20⟩] =
        .ok (if AllStronger false [⟨0⟩, ⟨4⟩, ⟨8⟩] [⟨12⟩, ⟨16⟩, ⟨20⟩] then .ok
          else .errNotStrong) := by
  decide +kernel

end Neof5
