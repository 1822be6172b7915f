import Neof5.Rule

/-!
# The views of a set of cards

The rules and the players look at a `CardSet` through its bits (`has`, `size`, `empty`), as a vector
(`conv2Vector`) and by index (`at`). All of them show `CardSet.cards`; so they agree
(`views_agree`), and a set is the vector of its cards in order.

* `sortCards_cards`: the members are sorted already.
* `cards_ofVector`: a vector that became a set is sorted, without its repetitions.
-/

namespace Neof5

open CardSet

/-! ## Sorted vectors -/

theorem sortCards_perm (v : List Card) : (sortCards v).Perm v := List.perm_insertionSort _ _

theorem sortCards_sorted (v : List Card) :
    (sortCards v).Pairwise fun a b => a.getId ≤ b.getId := by
  have : Std.Total fun a b : Card => a.getId ≤ b.getId := ⟨fun a b => le_total _ _⟩
  have : IsTrans Card fun a b => a.getId ≤ b.getId := ⟨fun _ _ _ => le_trans⟩
  exact List.pairwise_insertionSort _ v

/-- Vectors in increasing order with the same cards are equal. -/
theorem eq_of_mem_iff {u v : List Card} (hu : u.Pairwise (· < ·)) (hv : v.Pairwise (· < ·))
    (h : ∀ c, c ∈ u ↔ c ∈ v) : u = v := by
  have hnd : ∀ {l : List Card}, l.Pairwise (· < ·) → l.Nodup := fun hl =>
    hl.imp fun hlt he => by rw [Card.lt_iff, he] at hlt; omega
  refine List.Perm.eq_of_pairwise (fun a b _ _ hab hba => ?_) hu hv
    ((List.perm_ext_iff_of_nodup (hnd hu) (hnd hv)).mpr h)
  rw [Card.lt_iff] at hab hba
  omega

namespace CardSet

/-- The members of a set are sorted. -/
theorem sortCards_cards (s : CardSet) : sortCards s.cards = s.cards :=
  List.Pairwise.insertionSort_eq (s.cards_sorted.imp fun h => Nat.le_of_lt (Card.lt_iff.mp h))

/-- The members of the set of a vector are its cards in order, each of them once. -/
theorem cards_ofVector (v : List Card) : (ofVector v).cards = (sortCards v).dedup := by
  refine eq_of_mem_iff (cards_sorted _) ?_ fun c => ?_
  · have hle := (sortCards_sorted v).sublist (List.dedup_sublist _)
    have hne : (sortCards v).dedup.Pairwise (· ≠ ·) := List.nodup_dedup _
    refine (hle.and hne).imp fun {a b} h => ?_
    rw [Card.lt_iff]
    exact lt_of_le_of_ne h.1 (mt Card.ext_id h.2)
  · rw [mem_cards, mem_ofVector, List.mem_dedup, (sortCards_perm v).mem_iff]

/-- **The views agree.** The vector of a set is strictly increasing and as long as the set is large,
it holds the cards that the set has, `at` reads it and throws for every index that is not one of
its own, and it makes up the set. The vector of the set of a vector is that vector sorted, without
repetitions. -/
theorem views_agree :
    (∀ s : CardSet, ∃ v, s.conv2Vector = .ok v ∧ v.Pairwise (· < ·) ∧ v.length = s.size ∧
      (∀ c, c ∈ v ↔ s.has c = true) ∧
      (∀ i : Int, 0 ≤ i → i < s.size → ∃ c, v[i.toNat]? = some c ∧ s.at i = .ok c) ∧
      (∀ i : Int, ¬ (0 ≤ i ∧ i < s.size) → s.at i = .error .indexOutOfRange) ∧
      (s.size = 0 ↔ s.empty = true) ∧ ofVector v = s) ∧
    ∀ v : List Card, (ofVector v).conv2Vector = .ok (sortCards v).dedup := by
  refine ⟨fun s => ⟨s.cards, s.conv2Vector_eq, s.cards_sorted, s.size_eq.symm, fun c => mem_cards,
    fun i h0 hi => ?_, fun i hi => ?_, ?_, ofVector_cards s⟩, fun v => ?_⟩
  · have hlt : i.toNat < s.cards.length := by rw [← s.size_eq]; omega
    refine ⟨s.cards[i.toNat], List.getElem?_eq_getElem hlt, ?_⟩
    simp [at_eq, h0, List.getElem?_eq_getElem hlt]
  · rw [at_eq]
    split
    · rename_i h0
      rw [List.getElem?_eq_none]
      rw [← s.size_eq]
      omega
    · rfl
  · rw [size_eq_zero, empty_iff]
  · rw [conv2Vector_eq, cards_ofVector]

end CardSet

end Neof5
