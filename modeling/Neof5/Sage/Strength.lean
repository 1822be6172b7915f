import Neof5.Sage.Player

/-!
# Strong hands beat weak ones

The value of a group of cards is the best one plus what the unseen cards of each greater strength
add (`calcPotential_group`). In exact arithmetic these are sums over the strengths above the
group, and the strengths above a stronger group are among those above a weaker one
(`climb_suffix`). So of two groups with as many cards, a strong one can be put on a weak one
(`canPut_of_strong`).
-/

namespace Neof5

open CardSet

namespace SagePlayer

/-- The strengths that the loop of the evaluation visits from `st` on. -/
def climb (isKakumei : Bool) : Nat → Int → List Int
  | 0, _ => []
  | n + 1, st =>
    let st := st + (if isKakumei then -1 else 1)
    if st < 1 || (cardStrengthMax : Int) ≤ st then [] else st :: climb isKakumei n st

/-- What the unseen cards of the strength `st` add to the value. -/
def gain (notappearsCards : CardSet) (pn : Int) (jokerCount handCount : Nat) (st : Int) :
    WithTop ℚ :=
  let num := (st % 13).toNat
  let strengthCount := (notappearsCards.numOf num).size
  if notappearsCards.hasNumOf num then
    if handCount = 1 then ((strengthCount : ℚ) : WithTop ℚ)
    else if handCount ≤ strengthCount + jokerCount then
      if pn = 0 then ⊤
      else (((strengthCount + jokerCount : ℕ) : ℚ) / (pn : ℚ) /
        (if pn = 1 then 1 else (handCount : ℚ)) : ℚ)
    else 0
  else 0

section

variable {notappearsCards : CardSet} {isKakumei : Bool} {pn : Int} {jokerCount handCount : Nat}

/-- The quotient that the loop adds for more than one card. -/
theorem ofTop_quotient (hc : 0 < handCount) {count : Nat} (hn : handCount ≤ count) :
    (Score.lit (count : ℚ) : ExtRat) / Score.lit (pn : ℚ) /
        Score.lit (if pn = 1 then 1 else (handCount : ℚ)) =
      ExtRat.ofTop (if pn = 0 then ⊤
        else ((count : ℚ) / (pn : ℚ) / (if pn = 1 then 1 else (handCount : ℚ)) : ℚ)) := by
  have hpos : 0 < (count : ℚ) := by exact_mod_cast hc.trans_le hn
  have hdiv : 0 < (if pn = 1 then 1 else (handCount : ℚ)) := by
    split
    · simp
    · exact_mod_cast hc
  by_cases h0 : pn = 0
  · rw [if_pos h0, h0, Int.cast_zero, ExtRat.lit_div_zero hpos,
      ExtRat.posInf_div_lit (by simpa [h0] using hdiv)]
    rfl
  · rw [if_neg h0, ExtRat.lit_div_lit (by exact_mod_cast h0), ExtRat.lit_div_lit hdiv.ne',
      ExtRat.ofTop_coe]

/-- The loop adds up the gains. -/
theorem fightbackLoop_eq (hc : 0 < handCount) (n : Nat) (st : Int) (a : WithTop ℚ) :
    fightbackLoop notappearsCards isKakumei pn jokerCount handCount n st (ExtRat.ofTop a) =
      ExtRat.ofTop (a + ((climb isKakumei n st).map
        (gain notappearsCards pn jokerCount handCount)).sum) := by
  induction n generalizing st a with
  | zero => simp [fightbackLoop, climb]
  | succ n ih =>
    simp only [fightbackLoop, climb]
    generalize st + (if isKakumei then -1 else 1) = st'
    by_cases hout : (decide (st' < 1) || decide ((cardStrengthMax : Int) ≤ st')) = true
    · simp [hout]
    rw [if_neg hout, if_neg hout, List.map_cons, List.sum_cons, ← add_assoc, ← ih]
    by_cases hnum : notappearsCards.hasNumOf (st' % 13).toNat = true
    · by_cases h1 : handCount = 1
      · simp only [hnum, h1, ↓reduceIte, gain, ← ExtRat.ofTop_coe, ExtRat.ofTop_add]
      · by_cases hn : handCount ≤ (notappearsCards.numOf (st' % 13).toNat).size + jokerCount
        · simp only [hnum, h1, hn, ↓reduceIte, gain, ofTop_quotient hc hn, ExtRat.ofTop_add]
        · simp only [hnum, h1, hn, ↓reduceIte, gain, add_zero]
    · simp only [hnum, ↓reduceIte, gain, add_zero, Bool.false_eq_true]

/-- A gain is not negative, unless a hand of several cards is evaluated without a player. -/
theorem gain_nonneg (h : handCount = 1 ∨ 0 ≤ pn) (st : Int) :
    0 ≤ gain notappearsCards pn jokerCount handCount st := by
  unfold gain
  dsimp only
  split
  · split
    · exact_mod_cast Nat.zero_le _
    · rename_i h1
      have hpn : (0 : ℚ) ≤ pn := by exact_mod_cast h.resolve_left h1
      split
      · split
        · exact le_top
        · rw [← WithTop.coe_zero, WithTop.coe_le_coe]
          positivity
      · exact le_rfl
  · exact le_rfl

/-- Without a player all gains of a hand of several cards are negative. -/
theorem gain_nonpos (h1 : handCount ≠ 1) (hpn : pn < 0) (st : Int) :
    gain notappearsCards pn jokerCount handCount st ≤ 0 := by
  unfold gain
  dsimp only
  simp only [h1, ↓reduceIte]
  split
  · split
    · rw [if_neg hpn.ne, ← WithTop.coe_zero, WithTop.coe_le_coe]
      refine div_nonpos_of_nonpos_of_nonneg (div_nonpos_of_nonneg_of_nonpos ?_ ?_) ?_
      · positivity
      · exact_mod_cast hpn.le
      · positivity
    · exact le_rfl
  · exact le_rfl

end

/-- The strengths above a card are among those above a weaker one. -/
theorem climb_suffix {k : Bool} {c d : Card} (hc : c.isJoker = false) (hd : d.isJoker = false)
    (h : d.power k ≤ c.power k) :
    climb k 14 c.getStrength <:+ climb k 14 d.getStrength := by
  have hranks : ∀ (k : Bool) (a b : Fin 13), (if k then a ≤ b else b ≤ a) →
      climb k 14 ((a : Nat) + 1 : Nat) <:+ climb k 14 ((b : Nat) + 1 : Nat) := by
    decide +kernel
  rw [Card.getStrength_eq, Card.getStrength_eq]
  refine hranks k ⟨c.rank, Card.rank_lt hc⟩ ⟨d.rank, Card.rank_lt hd⟩ ?_
  have := Card.rank_lt hc
  have := Card.rank_lt hd
  cases k <;> simp [Card.power, hc, hd] at h ⊢ <;> omega

/-! ## The value of a group -/

/-- The number of the other players that the evaluation reckons with. -/
def pnOf (ctx : DaifugoContext) : Int := (ctx.getNumOfAvailablePlayers : Int) - 1

/-- The jokers that the evaluation counts among the unseen cards. -/
def jokerCountOf (notappearsCards : CardSet) : Nat :=
  if notappearsCards.hasNumOf cardStrengthMax then 1 else 0

/-- What the unseen cards add to the value of a group of `handCount` cards. -/
def fightback (notappearsCards : CardSet) (ctx : DaifugoContext) (k : Bool) (handCount : Nat)
    (st : Int) : WithTop ℚ :=
  ((climb k 14 st).map
    (gain notappearsCards (pnOf ctx) (jokerCountOf notappearsCards) handCount)).sum +
  if handCount = 1 then (jokerCountOf notappearsCards : ℚ) else (0 : ℚ)

/-- A group is not taken for a straight. -/
theorem at_one_strength {hand : CardSet} (hg : hand.IsGroup) (h3 : 3 ≤ hand.size) :
    ∃ c, hand.at 1 = .ok c ∧ c.getStrength = hand.lead.getStrength := by
  have hlead := lead_not_joker (s := hand) (by omega)
  obtain ⟨a, b, c, t, hcards⟩ : ∃ a b c t, hand.cards = a :: b :: c :: t := by
    rw [size_eq] at h3
    match hand.cards, h3 with
    | a :: b :: c :: t, _ => exact ⟨a, b, c, t, rfl⟩
  have hmem : b ∈ hand := by rw [← mem_cards, hcards]; simp
  -- A card comes after the second one, so that is not the joker.
  have hbc : b < c := by
    have := hand.cards_sorted
    rw [hcards, List.pairwise_cons, List.pairwise_cons] at this
    exact this.2.1 c (by simp)
  have hb : b.isJoker = false := by
    rw [Bool.eq_false_iff]
    intro hj
    have hc := c.getId_lt
    rw [Card.lt_iff, Card.isJoker_iff_eq.mp hj] at hbc
    simp only [Card.getId, Card.joker] at hbc hc
    omega
  have hne : hand ≠ ∅ := by rintro rfl; simp at h3
  refine ⟨b, by simp [at_eq, hcards], ?_⟩
  rw [Card.getStrength_eq, Card.getStrength_eq, hg b hmem _ (lead_eq hne).2.1 hb hlead]

section

variable {notappearsCards : CardSet} {ctx : DaifugoContext} {k : Bool} {hand : CardSet} {M : ℚ}

/-- **The value of a group.** -/
theorem calcPotential_group (hne : hand ≠ ∅) (hg : hand.IsGroup)
    (hj : hand.lead.isJoker = false) :
    calcPotentialToBeFightback (Score.lit M : ExtRat) notappearsCards ctx hand k =
      .ok (ExtRat.ofTop (M + fightback notappearsCards ctx k hand.size hand.lead.getStrength)) := by
  have hsize := size_pos.mpr hne
  have hsum : (if hand.size = 1 then
      pure (fightbackLoop notappearsCards k (pnOf ctx) (jokerCountOf notappearsCards) hand.size 14
        hand.lead.getStrength (Score.lit M) + Score.lit (jokerCountOf notappearsCards))
    else pure (fightbackLoop notappearsCards k (pnOf ctx) (jokerCountOf notappearsCards) hand.size
      14 hand.lead.getStrength (Score.lit M)) : Except Fault ExtRat) =
      .ok (ExtRat.ofTop (M + fightback notappearsCards ctx k hand.size hand.lead.getStrength)) := by
    simp only [← ExtRat.ofTop_coe, fightbackLoop_eq hsize, ExtRat.ofTop_add, fightback, ← add_assoc]
    split <;> simp
  simp only [calcPotentialToBeFightback, (lead_eq hne).1, except_ok_bind, hj, Bool.false_eq_true,
    ↓reduceIte]
  by_cases h3 : 3 ≤ hand.size
  · obtain ⟨c, hc, hst⟩ := at_one_strength hg h3
    simp only [h3, ↓reduceIte, hc, hst, except_ok_bind, bne_self_eq_false, except_pure_bind,
      Bool.false_eq_true]
    exact hsum
  · simp only [h3, ↓reduceIte, except_pure_bind, Bool.false_eq_true]
    exact hsum

/-- The weaker of two groups has at least the gains of the other, or there are no players left. -/
theorem fightback_mono {c d : Card} (hc : c.isJoker = false) (hd : d.isJoker = false)
    (h : d.power k ≤ c.power k) {n : Nat} (hn : n = 1 ∨ 0 ≤ pnOf ctx) :
    fightback notappearsCards ctx k n c.getStrength ≤
      fightback notappearsCards ctx k n d.getStrength := by
  refine add_le_add_left (List.Sublist.sum_le_sum ((climb_suffix hc hd h).sublist.map _) ?_) _
  intro x hx
  obtain ⟨st, -, rfl⟩ := List.mem_map.mp hx
  exact gain_nonneg hn st

theorem fightback_nonpos {n : Nat} (hn : n ≠ 1) (hpn : pnOf ctx < 0) (st : Int) :
    fightback notappearsCards ctx k n st ≤ 0 := by
  simp only [fightback, hn, ↓reduceIte, WithTop.coe_zero, add_zero]
  have := List.sum_le_card_nsmul ((climb k 14 st).map
    (gain notappearsCards (pnOf ctx) (jokerCountOf notappearsCards) n)) 0 ?_
  · simpa using this
  · intro x hx
    obtain ⟨st', -, rfl⟩ := List.mem_map.mp hx
    exact gain_nonpos hn hpn st'

end

/-! ## Strong and weak groups -/

/-- The best value is a number. -/
theorem handPotentialMax_lit (cards : CardSet) :
    ∃ M : ℚ, (calcHandPotentialMax cards : ExtRat) = Score.lit M := by
  simp only [calcHandPotentialMax]
  split
  · exact ⟨_, ExtRat.lit_sub_lit _ _⟩
  · split
    · rw [ExtRat.lit_div_lit (by norm_num), ExtRat.lit_sub_lit, ExtRat.lit_sub_lit]
      exact ⟨_, rfl⟩
    · exact ⟨_, ExtRat.lit_sub_lit _ _⟩

section

variable {ctx : DaifugoContext} {L : Int} {k : Bool} {u v : CardSet} {a b : ExtRat}

/-- **Strong groups beat weak ones.** Of two groups with as many cards, evaluated in one order,
the strong one has the greater lead. -/
theorem power_lt_of_strong (hu : u ≠ ∅) (hv : v ≠ ∅) (hgu : u.IsGroup) (hgv : v.IsGroup)
    (hsize : u.size = v.size) (hpu : (searchEnv ctx L).potential u k = .ok a)
    (hpv : (searchEnv ctx L).potential v k = .ok b)
    (hweak : (searchEnv ctx L).isStrongHand a = false)
    (hstrong : (searchEnv ctx L).isStrongHand b = true) : u.lead.power k < v.lead.power k := by
  obtain ⟨M, hM⟩ := handPotentialMax_lit (appearsCards ctx)
  simp only [searchEnv, SearchEnv.isStrongHand, hM, ExtRat.lit_add_lit, decide_eq_true_eq,
    decide_eq_false_iff_not] at hpu hpv hweak hstrong
  have hhalf : (M : WithTop ℚ) < ((M + 0.5 : ℚ) : WithTop ℚ) := by
    rw [WithTop.coe_lt_coe]; linarith
  cases hju : u.lead.isJoker with
  | true =>
    -- The joker alone has the best value.
    simp only [calcPotentialToBeFightback, (lead_eq hu).1, except_ok_bind, hju, ↓reduceIte,
      except_pure] at hpu
    rw [← Except.ok.inj hpu, ← ExtRat.ofTop_coe, ExtRat.ofTop_lt_lit] at hweak
    exact (hweak hhalf).elim
  | false =>
    cases hjv : v.lead.isJoker with
    | true =>
      rw [Card.isJoker_iff_eq.mp hjv, Card.power_joker]
      exact Card.power_lt hju
    | false =>
      rw [calcPotential_group hu hgu hju] at hpu
      rw [calcPotential_group hv hgv hjv] at hpv
      cases hpu
      cases hpv
      rw [ExtRat.ofTop_lt_lit] at hweak hstrong
      by_contra hle
      refine hweak ?_
      by_cases hpn : u.size = 1 ∨ 0 ≤ pnOf ctx
      · refine lt_of_le_of_lt (add_le_add_right ?_ _) hstrong
        rw [← hsize]
        exact fightback_mono hju hjv (not_lt.mp hle) hpn
      · push Not at hpn
        calc (M : WithTop ℚ) + fightback _ ctx k u.size u.lead.getStrength
            ≤ M + 0 := add_le_add_right (fightback_nonpos hpn.1 hpn.2 _) _
          _ = M := add_zero _
          _ < _ := hhalf

/-- So it can be put on the weak one. -/
theorem canPut_of_strong {cls : RuleClass} (hu : u ≠ ∅) (hv : v ≠ ∅) (hgu : u.IsGroup)
    (hgv : v.IsGroup) (hsize : u.size = v.size)
    (hpu : (searchEnv ctx L).potential u k = .ok a) (hpv : (searchEnv ctx L).potential v k = .ok b)
    (hweak : (searchEnv ctx L).isStrongHand a = false)
    (hstrong : (searchEnv ctx L).isStrongHand b = true) :
    DaifugoRule.canPut ⟨cls, k⟩ v u = .ok .ok :=
  (canPut_ok_iff hv hu).mpr
    ⟨hgv, hgu, hsize, power_lt_of_strong hu hv hgu hgv hsize hpu hpv hweak hstrong⟩

end

end SagePlayer

end Neof5
