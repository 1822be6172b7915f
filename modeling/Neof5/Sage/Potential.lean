import Neof5.Context
import Neof5.Sage.Search

/-!
# The evaluation of a hand (`_calcPotentialToBeFightback`)

The value of a hand starts at the best one and grows with the unseen cards that could beat the
hand. The loop walks the strengths above the hand's (below it under the revolution).

The source keeps the counts of cards and players in `double` variables. They are small integers,
so the comparisons between them are made on integers here; only what is added to the value is
computed in `α`.
-/

namespace Neof5

open CardSet

namespace SagePlayer

variable {α : Type} [Score α]

/-- The loop over the strengths. A strength stays between 1 and 13, so 14 rounds are enough. -/
def fightbackLoop (notappearsCards : CardSet) (isKakumei : Bool) (pn : Int)
    (jokerCount handCount : Nat) : Nat → Int → α → α
  | 0, _, result => result
  | n + 1, st, result =>
    let st := st + (if isKakumei then -1 else 1)
    if st < 1 || (cardStrengthMax : Int) ≤ st then result
    else
      let num := (st % 13).toNat
      if notappearsCards.hasNumOf num then
        let strengthCount := (notappearsCards.numOf num).size
        if handCount = 1 then
          fightbackLoop notappearsCards isKakumei pn jokerCount handCount n st
            (result + Score.lit strengthCount)
        else
          let strengthCount := strengthCount + jokerCount
          if handCount ≤ strengthCount then
            fightbackLoop notappearsCards isKakumei pn jokerCount handCount n st
              (result + Score.lit strengthCount / Score.lit pn /
                Score.lit (if pn = 1 then 1 else handCount))
          else fightbackLoop notappearsCards isKakumei pn jokerCount handCount n st result
      else fightbackLoop notappearsCards isKakumei pn jokerCount handCount n st result

/-- `_calcPotentialToBeFightback`, with the members `hand_potential_max` and `_notappears_cards`
that it reads. -/
def calcPotentialToBeFightback (handPotentialMax : α) (notappearsCards : CardSet)
    (ctx : DaifugoContext) (hand : CardSet) (isKakumei : Bool) : Except Fault α := do
  let result := handPotentialMax
  let firstCard ← hand.at 0
  if firstCard.isJoker then return result
  let pn : Int := (ctx.getNumOfAvailablePlayers : Int) - 1
  let jokerCount : Nat := if notappearsCards.hasNumOf cardStrengthMax then 1 else 0
  let handCount := hand.size
  let st := firstCard.getStrength
  let isKaidan ←
    if 3 ≤ handCount then do
      let c ← hand.at 1
      pure (c.getStrength != st)
    else pure false
  if isKaidan then
    let p : α := Score.lit 50 +
      Score.lit (200 * jokerCount) / Score.lit handCount / Score.lit st / Score.lit st
    return result + p
  let result := fightbackLoop notappearsCards isKakumei pn jokerCount handCount 14 st result
  if handCount = 1 then return result + Score.lit jokerCount
  return result

/-- Every hand has a value. -/
theorem calcPotential_total (handPotentialMax : α) (notappearsCards : CardSet)
    (ctx : DaifugoContext) {hand : CardSet} (isKakumei : Bool) (h : hand ≠ ∅) :
    ∃ p, calcPotentialToBeFightback handPotentialMax notappearsCards ctx hand isKakumei =
      .ok p := by
  simp only [calcPotentialToBeFightback, (lead_eq h).1, except_ok_bind]
  split
  · exact ⟨_, rfl⟩
  by_cases h3 : 3 ≤ hand.size
  · obtain ⟨c, hc⟩ : ∃ c, hand.at 1 = .ok c := by
      have hlt : 1 < hand.cards.length := by rw [← size_eq]; omega
      exact ⟨hand.cards[1], by simp [at_eq, hlt]⟩
    simp only [h3, ↓reduceIte, hc, except_ok_bind, except_pure]
    split
    · exact ⟨_, rfl⟩
    · split <;> exact ⟨_, rfl⟩
  · simp only [h3, ↓reduceIte, except_pure, except_ok_bind, Bool.false_eq_true]
    split <;> exact ⟨_, rfl⟩

end SagePlayer

end Neof5
