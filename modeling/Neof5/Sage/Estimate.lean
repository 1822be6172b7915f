import Neof5.Sage.Enumerate
import Neof5.Sage.Strength

/-!
# The strength estimate against the rules

The value of a hand is the best one exactly if the loop of `_calcPotentialToBeFightback` meets no
unseen cards that could answer it (`calcPotential_eq_max_iff`), and the rules tell which unseen
cards can (`exists_answer_iff`). Both have one shape, `Answerable`: there is a rank above the hand
with enough cards, the joker counted.

They differ in the counts. The loop passes strengths to `hasNumOf`, which takes numbers: for each
rank it looks at the rank two below (cyclically), and for the joker at the aces. So the estimate
agrees with the rules exactly where these counts give the same answer (`calcPotential_agrees_iff`).
-/

namespace Neof5

open CardSet

namespace SagePlayer

/-! ## Counting cards of a rank -/

/-- The number of cards of a rank. -/
def countRank (s : CardSet) (rank : Nat) : Nat := (s.cards.filter (·.rank = rank)).length

/-- The number of jokers. -/
def countJoker (s : CardSet) : Nat := if Card.joker ∈ s then 1 else 0

section

variable {s : CardSet} {num rank : Nat} {c : Card}

theorem nibble_getLsbD (i : Nat) : (0x0f#64).getLsbD i = decide (i < 4) :=
  Nat.testBit_two_pow_sub_one 4 i

/-- `hasNumOf(num)` picks the cards at the position `(num + 10) % 13` of the table. -/
theorem mem_numOf : c ∈ s.numOf num ↔ c ∈ s ∧ c.rank = (num + 10) % 13 := by
  have hc := c.getId_lt
  have hm := Nat.mod_lt (num + 10) (show 0 < 13 by decide)
  rw [mem_iff, mem_iff]
  simp only [numOf, numBits, BitVec.getLsbD_and, BitVec.getLsbD_shiftLeft, nibble_getLsbD,
    Bool.and_eq_true, Bool.not_eq_true', decide_eq_true_eq, decide_eq_false_iff_not, Card.rank]
  constructor
  · rintro ⟨h, hs⟩
    exact ⟨hs, by omega⟩
  · rintro ⟨hs, h⟩
    exact ⟨by omega, hs⟩

theorem size_numOf : (s.numOf num).size = countRank s ((num + 10) % 13) := by
  rw [size_eq_card, countRank, ← List.toFinset_card_of_nodup (s.cards_nodup.filter _)]
  congr 1
  ext c
  simp [mem_numOf]

theorem hasNumOf_iff : s.hasNumOf num = true ↔ 0 < countRank s ((num + 10) % 13) := by
  have : s.hasNumOf num = !(s.numOf num).empty := rfl
  rw [this, Bool.not_eq_true', empty_eq_false_iff, ← size_pos, size_numOf]

theorem countRank_pos : 0 < countRank s rank ↔ ∃ c ∈ s, c.rank = rank := by
  rw [countRank, List.length_pos_iff_exists_mem]
  simp

theorem length_filter_isJoker :
    (s.cards.filter fun c => c.isJoker = true).length = countJoker s := by
  have hfin : (s.cards.filter fun c => c.isJoker = true).toFinset =
      if Card.joker ∈ s then {Card.joker} else ∅ := by
    ext d
    simp only [List.mem_toFinset, List.mem_filter, mem_cards, decide_eq_true_eq,
      Card.isJoker_iff_eq]
    split
    · rename_i hj
      rw [Finset.mem_singleton]
      exact ⟨fun h => h.2, fun h => ⟨h ▸ hj, h⟩⟩
    · rename_i hj
      simp only [Finset.notMem_empty, iff_false, not_and]
      rintro hd rfl
      exact hj hd
  rw [← List.toFinset_card_of_nodup (s.cards_nodup.filter _), hfin, countJoker]
  split <;> rfl

/-- The cards that make up a group of a rank below the joker. -/
theorem length_groupCards (h : rank < 13) :
    (groupCards s rank).length = countRank s rank + countJoker s := by
  rw [← length_filter_isJoker, groupCards, countRank]
  induction s.cards with
  | nil => rfl
  | cons d cs ih =>
    have hd : d.rank = rank → ¬ d.isJoker = true := fun e hj => by
      have := (Card.isJoker_iff d).mp hj
      omega
    by_cases h₁ : d.rank = rank
    · simp only [h₁, hd h₁, true_or, decide_true, List.filter_cons_of_pos, List.length_cons,
        Bool.false_eq_true, decide_false, not_false_eq_true, List.filter_cons_of_neg, ih]
      omega
    · by_cases h₂ : d.isJoker = true
      · simp only [h₁, h₂, false_or, decide_true, List.filter_cons_of_pos, List.length_cons,
          decide_false, not_false_eq_true, List.filter_cons_of_neg, ih, Bool.false_eq_true]
        omega
      · simp only [h₁, h₂, false_or, decide_false, not_false_eq_true, List.filter_cons_of_neg,
          ih, Bool.false_eq_true]

end

/-! ## The answers that the rules allow -/

/-- A rank of the order `k` above the given one. -/
def RankAbove (k : Bool) (rank r : Nat) : Prop := r < 13 ∧ if k then r < rank else rank < r

/-- With `count r` cards of each rank `r` and `wild` jokers there is an answer to a group of `n`
cards of the given rank. -/
def Answerable (k : Bool) (rank n : Nat) (count : Nat → Nat) (wild : Nat) : Prop :=
  (∃ r, RankAbove k rank r ∧ 0 < count r ∧ n ≤ count r + wild) ∨ n = 1 ∧ 0 < wild

section

variable {k : Bool} {unseen hand : CardSet}

theorem power_lt_iff_rankAbove {a b : Card} (ha : a.isJoker = false) (hb : b.isJoker = false) :
    a.power k < b.power k ↔ RankAbove k a.rank b.rank := by
  have := Card.rank_lt hb
  rw [Card.power_lt_iff ha hb, RankAbove, and_iff_right this]

/-- A rank above a group is that of a number. -/
theorem isJoker_of_rankAbove {rank : Nat} {c : Card} (h : RankAbove k rank c.rank) :
    c.isJoker = false := by
  have := h.1
  rw [Bool.eq_false_iff, Ne, Card.isJoker_iff]
  omega

/-- A single card is answered by every stronger card. -/
theorem exists_answer_single (hne : hand ≠ ∅) (hg : hand.IsGroup) (h1 : hand.size = 1) :
    (∃ H, H ⊆ unseen ∧ H ≠ ∅ ∧ DaifugoRule.canPut ⟨.A, k⟩ H hand = .ok .ok) ↔
      ∃ c ∈ unseen, hand.lead.power k < c.power k := by
  constructor
  · rintro ⟨H, hs, h0, hok⟩
    obtain ⟨-, -, -, hpow⟩ := (canPut_ok_iff h0 hne).mp hok
    exact ⟨H.lead, subset_iff.mp hs _ (lead_eq h0).2.1, hpow⟩
  · rintro ⟨c, hc, hpow⟩
    refine ⟨single c, subset_iff.mpr fun d hd => ?_, single_ne_empty c,
      (canPut_ok_iff (single_ne_empty c) hne).mpr
        ⟨isGroup_of_size_le_one (size_single c).le, hg, by rw [h1, size_single], ?_⟩⟩
    · rw [mem_single.mp hd]; exact hc
    · rw [lead_single]; exact hpow

/-- The stronger cards are those of a rank above, and the joker. -/
theorem exists_stronger_iff {a : Card} (ha : a.isJoker = false) :
    (∃ c ∈ unseen, a.power k < c.power k) ↔
      (∃ r, RankAbove k a.rank r ∧ 0 < countRank unseen r) ∨ 0 < countJoker unseen := by
  constructor
  · rintro ⟨c, hc, hpow⟩
    cases hj : c.isJoker with
    | true =>
      rw [Card.isJoker_iff_eq.mp hj] at hc
      exact .inr (by simp [countJoker, hc])
    | false =>
      exact .inl ⟨c.rank, (power_lt_iff_rankAbove ha hj).mp hpow, countRank_pos.mpr ⟨c, hc, rfl⟩⟩
  · rintro (⟨r, habove, hpos⟩ | hwild)
    · obtain ⟨c, hc, rfl⟩ := countRank_pos.mp hpos
      exact ⟨c, hc, (power_lt_iff_rankAbove ha (isJoker_of_rankAbove habove)).mpr habove⟩
    · refine ⟨Card.joker, ?_, by rw [Card.power_joker]; exact Card.power_lt ha⟩
      by_contra hn
      simp [countJoker, hn] at hwild

/-- **The rules.** Unseen cards can be put on a group exactly if they are enough cards of one rank
above it, the joker counted. -/
theorem exists_answer_iff (hne : hand ≠ ∅) (hg : hand.IsGroup) (hj : hand.lead.isJoker = false) :
    (∃ H, H ⊆ unseen ∧ H ≠ ∅ ∧ DaifugoRule.canPutA ⟨.A, k⟩ H hand = .ok .ok) ↔
      Answerable k hand.lead.rank hand.size (countRank unseen) (countJoker unseen) := by
  have hput : ∀ H, DaifugoRule.canPutA ⟨.A, k⟩ H hand = DaifugoRule.canPut ⟨.A, k⟩ H hand :=
    fun _ => rfl
  simp only [hput]
  by_cases h1 : hand.size = 1
  · rw [exists_answer_single hne hg h1, exists_stronger_iff hj]
    simp only [Answerable, h1, true_and]
    -- One card of a rank is enough for a single.
    refine or_congr (exists_congr fun r => and_congr_right fun _ => ?_) Iff.rfl
    omega
  · have hsize := size_pos.mpr hne
    have hex : (∃ H, H ⊆ unseen ∧ H ≠ ∅ ∧ DaifugoRule.canPut ⟨.A, k⟩ H hand = .ok .ok) ↔
        HoldsStrongerGroup k unseen hand := exists_playable_iff (by omega)
    rw [hex]
    simp only [Answerable, h1, false_and, or_false]
    constructor
    · rintro ⟨-, c, hc, hcj, hpow, hlen⟩
      rw [length_groupCards (Card.rank_lt hcj)] at hlen
      exact ⟨_, (power_lt_iff_rankAbove hj hcj).mp hpow, countRank_pos.mpr ⟨c, hc, rfl⟩, hlen⟩
    · rintro ⟨r, habove, hpos, hlen⟩
      obtain ⟨c, hc, rfl⟩ := countRank_pos.mp hpos
      have hcj := isJoker_of_rankAbove habove
      refine ⟨hg, c, hc, hcj, (power_lt_iff_rankAbove hj hcj).mpr habove, ?_⟩
      rw [length_groupCards habove.1]
      exact hlen

end

/-! ## The answers that the estimate reckons with -/

/-- The strengths that the loop visits are those of the ranks above. -/
theorem mem_climb_iff {k : Bool} {rank : Nat} (h : rank < 13) {st : Int} :
    st ∈ climb k 14 ((rank : Int) + 1) ↔ ∃ r, RankAbove k rank r ∧ st = r + 1 := by
  have hfwd : ∀ (k : Bool) (a : Fin 13), ∀ st ∈ climb k 14 ((a : Nat) + 1),
      ∃ r : Fin 13, (if k then r < a else a < r) ∧ st = (r : Nat) + 1 := by decide +kernel
  have hbwd : ∀ (k : Bool) (a r : Fin 13), (if k then r < a else a < r) →
      ((r : Nat) + 1 : Int) ∈ climb k 14 ((a : Nat) + 1) := by decide +kernel
  constructor
  · intro hst
    obtain ⟨r, hr, he⟩ := hfwd k ⟨rank, h⟩ st hst
    exact ⟨r, ⟨r.isLt, by cases k <;> exact hr⟩, he⟩
  · rintro ⟨r, ⟨hr, habove⟩, rfl⟩
    exact hbwd k ⟨rank, h⟩ ⟨r, hr⟩ (by cases k <;> exact habove)

section

variable {unseen hand : CardSet} {ctx : DaifugoContext} {k : Bool} {pn : Int} {n wild : Nat} {M : ℚ}

/-- A rank adds nothing if it has too few of the cards that are counted for it, which are those of
the rank two below. -/
theorem gain_eq_zero_iff (hpn : 0 < pn) (hn : 0 < n) (r : Nat) :
    gain unseen pn wild n ((r : Int) + 1) = 0 ↔
      ¬ (0 < countRank unseen ((r + 11) % 13) ∧ n ≤ countRank unseen ((r + 11) % 13) + wild) := by
  have hnum : ((((r : Int) + 1) % 13).toNat + 10) % 13 = (r + 11) % 13 := by omega
  unfold gain
  dsimp only
  simp only [hasNumOf_iff, size_numOf, hnum]
  generalize countRank unseen ((r + 11) % 13) = count
  by_cases hpos : 0 < count
  · by_cases h1 : n = 1
    · simp [hpos, h1, hpos.ne', show 1 ≤ count + wild by omega]
    · by_cases hle : n ≤ count + wild
      · have hquot : ((count + wild : ℕ) : ℚ) / pn / (if pn = 1 then 1 else (n : ℚ)) ≠ 0 := by
          have : (0 : ℚ) < pn := by exact_mod_cast hpn
          have : (0 : ℚ) < n := by exact_mod_cast hn
          have : (0 : ℚ) < ((count + wild : ℕ) : ℚ) := by exact_mod_cast hn.trans_le hle
          split <;> positivity
        simp only [hpos, h1, hle, hpn.ne', ↓reduceIte, and_self, not_true_eq_false, iff_false]
        rw [← WithTop.coe_zero, WithTop.coe_inj]
        exact hquot
      · simp [hpos, h1, hle]
  · simp [hpos]

theorem jokerCountOf_eq : jokerCountOf unseen = min 1 (countRank unseen 11) := by
  have h : unseen.hasNumOf cardStrengthMax = true ↔ 0 < countRank unseen 11 := hasNumOf_iff
  unfold jokerCountOf
  split
  · rename_i hj
    have := h.mp hj
    omega
  · rename_i hj
    have := mt h.mpr hj
    omega

/-- **The estimate.** A group has the best value exactly if the cards that are counted for the
ranks above it are too few for an answer. -/
theorem calcPotential_eq_max_iff (hne : hand ≠ ∅) (hg : hand.IsGroup)
    (hj : hand.lead.isJoker = false) (hp : 2 ≤ ctx.getNumOfAvailablePlayers) :
    calcPotentialToBeFightback (Score.lit M : ExtRat) unseen ctx hand k = .ok (Score.lit M) ↔
      ¬ Answerable k hand.lead.rank hand.size (fun r => countRank unseen ((r + 11) % 13))
        (min 1 (countRank unseen 11)) := by
  have hpn : 0 < pnOf ctx := by unfold pnOf; omega
  have hn := size_pos.mpr hne
  have hvalue : ∀ x : WithTop ℚ, ExtRat.ofTop (M + x) = Score.lit M ↔ x = 0 := by
    intro x
    cases x with
    | top => exact iff_of_false (by simp [ExtRat.ofTop, Score.lit]) (by simp)
    | coe q =>
      rw [← WithTop.coe_add, ExtRat.ofTop_coe]
      show ExtRat.fin (M + q) = ExtRat.fin M ↔ _
      simp
  have hnonneg : ∀ x ∈ (climb k 14 hand.lead.getStrength).map
      (gain unseen (pnOf ctx) (jokerCountOf unseen) hand.size), 0 ≤ x := by
    intro x hx
    obtain ⟨st, -, rfl⟩ := List.mem_map.mp hx
    exact gain_nonneg (.inr hpn.le) st
  have hrest : (0 : WithTop ℚ) ≤
      ((if hand.size = 1 then (jokerCountOf unseen : ℚ) else (0 : ℚ) : ℚ) : WithTop ℚ) := by
    rw [← WithTop.coe_zero, WithTop.coe_le_coe]
    split <;> positivity
  rw [calcPotential_group hne hg hj, Except.ok.injEq, hvalue, fightback,
    add_eq_zero_iff_of_nonneg (List.sum_nonneg hnonneg) hrest, Answerable, not_or,
    ← jokerCountOf_eq]
  refine and_congr ⟨?_, fun h => List.sum_eq_zero ?_⟩ ?_
  · rintro hsum ⟨r, habove, hgain⟩
    refine (gain_eq_zero_iff hpn hn r).mp ?_ hgain
    refine List.all_zero_of_le_zero_le_of_sum_eq_zero hnonneg hsum (List.mem_map_of_mem ?_)
    rw [Card.getStrength_eq]
    exact (mem_climb_iff (Card.rank_lt hj)).mpr ⟨r, habove, rfl⟩
  · intro x hx
    obtain ⟨st, hst, rfl⟩ := List.mem_map.mp hx
    rw [Card.getStrength_eq] at hst
    obtain ⟨r, habove, rfl⟩ := (mem_climb_iff (Card.rank_lt hj)).mp hst
    exact (gain_eq_zero_iff hpn hn r).mpr fun hgain => h ⟨r, habove, hgain⟩
  · rw [← WithTop.coe_zero, WithTop.coe_inj]
    by_cases h1 : hand.size = 1 <;> simp [h1]

/-- **Where the estimate agrees with the rules.** The value of a same-number hand is the best one
exactly if no unseen cards can be put on it, just in these cases: the hand is the lone joker; or
the unseen cards hold an answer by their own ranks and joker exactly if they hold one with each
rank replaced by the one two below it, and the joker by an ace. -/
theorem calcPotential_agrees_iff (M : ℚ) (unseen : CardSet) (ctx : DaifugoContext) (hand : CardSet)
    (k : Bool) (hne : hand ≠ ∅) (hg : hand.IsGroup) (hp : 2 ≤ ctx.getNumOfAvailablePlayers) :
    (calcPotentialToBeFightback (Score.lit M : ExtRat) unseen ctx hand k = .ok (Score.lit M) ↔
      ∀ H, H ⊆ unseen → H ≠ ∅ → DaifugoRule.canPutA ⟨.A, k⟩ H hand ≠ .ok .ok) ↔
    (hand = single Card.joker ∨
      (Answerable k hand.lead.rank hand.size (countRank unseen) (countJoker unseen) ↔
        Answerable k hand.lead.rank hand.size (fun r => countRank unseen ((r + 11) % 13))
          (min 1 (countRank unseen 11)))) := by
  cases hj : hand.lead.isJoker with
  | true =>
    have hvalue : calcPotentialToBeFightback (Score.lit M : ExtRat) unseen ctx hand k =
        .ok (Score.lit M) := by
      simp [calcPotentialToBeFightback, (lead_eq hne).1, hj]
    have hrules : ∀ H, H ⊆ unseen → H ≠ ∅ →
        DaifugoRule.canPutA ⟨.A, k⟩ H hand ≠ .ok .ok := by
      intro H _ h0 hok
      obtain ⟨-, -, -, hpow⟩ := (canPut_ok_iff (r := ⟨.A, k⟩) h0 hne).mp hok
      rw [Card.isJoker_iff_eq.mp hj, Card.power_joker] at hpow
      exact absurd hpow (not_lt.mpr (H.lead.power_le k))
    exact iff_of_true (iff_of_true hvalue hrules) (.inl (eq_single_joker hne hj))
  | false =>
    have hsingle : hand ≠ single Card.joker := by
      rintro rfl
      rw [lead_single] at hj
      cases hj
    have hrules : (∀ H, H ⊆ unseen → H ≠ ∅ → DaifugoRule.canPutA ⟨.A, k⟩ H hand ≠ .ok .ok) ↔
        ¬ Answerable k hand.lead.rank hand.size (countRank unseen) (countJoker unseen) := by
      rw [← exists_answer_iff hne hg hj]
      push Not
      rfl
    rw [calcPotential_eq_max_iff hne hg hj hp, hrules, or_iff_right hsingle, not_iff_not]
    exact Iff.comm

/-- The pair of fives, with the other fives unseen. -/
theorem calcPotential_agrees_iff_fives :
    (calcPotentialToBeFightback (Score.lit 0 : ExtRat) (ofVector [⟨10⟩, ⟨11⟩])
        ⟨∅, 0, [], ∅, false, [⟨[], 1, 0⟩, ⟨[], 1, 0⟩]⟩ (ofVector [⟨8⟩, ⟨9⟩]) false =
        .ok (Score.lit 0) ↔
      ∀ H, H ⊆ ofVector [⟨10⟩, ⟨11⟩] → H ≠ ∅ →
        DaifugoRule.canPutA ⟨.A, false⟩ H (ofVector [⟨8⟩, ⟨9⟩]) ≠ .ok .ok) ↔
    (ofVector [⟨8⟩, ⟨9⟩] = single Card.joker ∨
      (Answerable false (ofVector [⟨8⟩, ⟨9⟩]).lead.rank (ofVector [⟨8⟩, ⟨9⟩]).size
          (countRank (ofVector [⟨10⟩, ⟨11⟩])) (countJoker (ofVector [⟨10⟩, ⟨11⟩])) ↔
        Answerable false (ofVector [⟨8⟩, ⟨9⟩]).lead.rank (ofVector [⟨8⟩, ⟨9⟩]).size
          (fun r => countRank (ofVector [⟨10⟩, ⟨11⟩]) ((r + 11) % 13))
          (min 1 (countRank (ofVector [⟨10⟩, ⟨11⟩]) 11)))) :=
  calcPotential_agrees_iff 0 _ _ _ false (by decide) (by decide +kernel) (by decide)

/-- A two has the best value though the unseen joker can be put on it. -/
theorem calcPotential_two_against_joker :
    ¬ (calcPotentialToBeFightback (Score.lit 0 : ExtRat) (single Card.joker)
        ⟨∅, 0, [], ∅, false, [⟨[], 1, 0⟩, ⟨[], 1, 0⟩]⟩ (single ⟨48⟩) false = .ok (Score.lit 0) ↔
      ∀ H, H ⊆ single Card.joker → H ≠ ∅ →
        DaifugoRule.canPutA ⟨.A, false⟩ H (single ⟨48⟩) ≠ .ok .ok) := by
  intro h
  have hvalue : calcPotentialToBeFightback (Score.lit 0 : ExtRat) (single Card.joker)
      ⟨∅, 0, [], ∅, false, [⟨[], 1, 0⟩, ⟨[], 1, 0⟩]⟩ (single ⟨48⟩) false = .ok (Score.lit 0) := by
    decide +kernel
  exact h.mp hvalue (single Card.joker) (by decide) (by decide) (by decide +kernel)

end

end SagePlayer

end Neof5
