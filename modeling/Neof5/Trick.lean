import Neof5.RuleLemmas

/-!
# Plays within a trick

A trick is a sequence of plays, each put on the one before. `Beats r X Y` is the relation
"`X` may follow `Y`" that `canPut` decides. Its strength is `lead.power`, so it is a strict order
(`Beats.irrefl`, `Beats.trans`) that the revolution turns around below the joker (`beats_not`),
and a trick has at most as many plays as there are powers (`trick_length_le`).
-/

namespace Neof5

/-- The set of one card. -/
def CardSet.single (c : Card) : CardSet := (∅ : CardSet).addCard c

namespace CardSet

@[simp] theorem mem_single {c d : Card} : d ∈ single c ↔ d = c := by simp [single]

theorem single_ne_empty (c : Card) : single c ≠ ∅ := fun h => by
  have : c ∈ single c := by simp
  rw [h] at this; exact not_mem_empty c this

theorem size_single (c : Card) : (single c).size = 1 := by
  rw [single, size_addCard (by simp), size_empty]

theorem lead_single (c : Card) : (single c).lead = c := by
  have := (lead_eq (single_ne_empty c)).2.1
  simpa using this

/-- A set led by the joker is the lone joker. -/
theorem eq_single_joker {s : CardSet} (h : s ≠ ∅) (hj : s.lead.isJoker = true) :
    s = single Card.joker := by
  have hall := lead_joker h hj
  ext c
  rw [mem_single]
  refine ⟨hall c, ?_⟩
  rintro rfl
  obtain ⟨d, hd⟩ := exists_mem_of_ne h
  rwa [hall d hd] at hd

end CardSet

open CardSet

/-- `X` may be put on `Y`; neither is a pass. -/
def Beats (r : DaifugoRule) (X Y : CardSet) : Prop :=
  X ≠ ∅ ∧ Y ≠ ∅ ∧ r.canPut X Y = .ok .ok

variable {r : DaifugoRule} {X Y Z : CardSet}

theorem beats_iff : Beats r X Y ↔ X ≠ ∅ ∧ Y ≠ ∅ ∧ X.IsGroup ∧ Y.IsGroup ∧ Y.size = X.size ∧
    Y.lead.power r.isKakumei < X.lead.power r.isKakumei := by
  constructor
  · rintro ⟨hx, hy, h⟩; exact ⟨hx, hy, (canPut_ok_iff hx hy).mp h⟩
  · rintro ⟨hx, hy, h⟩; exact ⟨hx, hy, (canPut_ok_iff hx hy).mpr h⟩

theorem Beats.irrefl : ¬ Beats r X X := fun h => Nat.lt_irrefl _ (beats_iff.mp h).2.2.2.2.2

theorem Beats.trans (h₁ : Beats r X Y) (h₂ : Beats r Y Z) : Beats r X Z := by
  obtain ⟨hx, -, hgx, -, hs₁, hp₁⟩ := beats_iff.mp h₁
  obtain ⟨-, hz, -, hgz, hs₂, hp₂⟩ := beats_iff.mp h₂
  exact beats_iff.mpr ⟨hx, hz, hgx, hgz, hs₂.trans hs₁, hp₂.trans hp₁⟩

/-- The revolution turns the relation around, the lone joker apart. -/
theorem beats_not {cls : RuleClass} {k : Bool} (hx : X ≠ single Card.joker)
    (hy : Y ≠ single Card.joker) : Beats ⟨cls, k⟩ X Y ↔ Beats ⟨cls, !k⟩ Y X := by
  have hj : ∀ s : CardSet, s ≠ ∅ → s ≠ single Card.joker → s.lead.isJoker = false := by
    intro s h0 hs
    by_contra hn
    exact hs (eq_single_joker h0 (by simpa using hn))
  rw [beats_iff, beats_iff]
  constructor
  · rintro ⟨h0x, h0y, hgx, hgy, hs, hp⟩
    exact ⟨h0y, h0x, hgy, hgx, hs.symm,
      (Card.power_lt_not_iff (hj Y h0y hy) (hj X h0x hx)).mp hp⟩
  · rintro ⟨h0y, h0x, hgy, hgx, hs, hp⟩
    exact ⟨h0x, h0y, hgx, hgy, hs.symm,
      (Card.power_lt_not_iff (hj Y h0y hy) (hj X h0x hx)).mpr hp⟩

/-- The lone joker beats every other single card. -/
theorem joker_beats {c : Card} (hc : c.isJoker = false) :
    Beats r (single Card.joker) (single c) := by
  refine beats_iff.mpr ⟨single_ne_empty _, single_ne_empty _,
    isGroup_of_size_le_one (Nat.le_of_eq (size_single _)),
    isGroup_of_size_le_one (Nat.le_of_eq (size_single _)), by rw [size_single, size_single], ?_⟩
  rw [lead_single, lead_single, Card.power_joker]
  exact Card.power_lt hc

/-- Along a trick the powers of the leading cards increase, so there are at most as many plays
as powers. -/
theorem trick_length_le {hs : List CardSet} (h : hs.IsChain fun a b => Beats r b a) :
    hs.length ≤ 14 := by
  have : Trans (fun a b => Beats r b a) (fun a b => Beats r b a) (fun a b => Beats r b a) :=
    ⟨fun h₁ h₂ => Beats.trans h₂ h₁⟩
  have hp : (hs.map fun s => s.lead.power r.isKakumei).Pairwise (· < ·) :=
    List.pairwise_map.mpr (h.pairwise.imp fun hb => (beats_iff.mp hb).2.2.2.2.2)
  have hsub : hs.map (fun s => s.lead.power r.isKakumei) ⊆ List.range 14 := by
    intro n hn
    obtain ⟨s, -, rfl⟩ := List.mem_map.mp hn
    have := s.lead.power_le r.isKakumei
    simp; omega
  have hnd : (hs.map fun s => s.lead.power r.isKakumei).Nodup := hp.imp fun h => Nat.ne_of_lt h
  simpa using (List.subperm_of_subset hnd hsub).length_le

/-- **A trick is strictly ordered and ends.** For both rule classes and both orders: no play
beats itself, the relation is transitive, the revolution turns it around below the lone joker,
which beats every other single card, and a sequence of plays each of which beats the one before
has at most 14 plays. -/
theorem trick_ordered (cls : RuleClass) :
    (∀ k X, ¬ Beats ⟨cls, k⟩ X X) ∧
    (∀ k X Y Z, Beats ⟨cls, k⟩ X Y → Beats ⟨cls, k⟩ Y Z → Beats ⟨cls, k⟩ X Z) ∧
    (∀ k X Y, X ≠ single Card.joker → Y ≠ single Card.joker →
      (Beats ⟨cls, k⟩ X Y ↔ Beats ⟨cls, !k⟩ Y X)) ∧
    (∀ k c, c.isJoker = false → Beats ⟨cls, k⟩ (single Card.joker) (single c)) ∧
    (∀ k (hs : List CardSet), (∀ h ∈ hs, h ≠ ∅) →
      hs.IsChain (fun a b => Beats ⟨cls, k⟩ b a) → hs.length ≤ 14) :=
  ⟨fun _ _ => Beats.irrefl, fun _ _ _ _ => Beats.trans, fun _ _ _ => beats_not,
    fun _ _ => joker_beats, fun _ _ _ => trick_length_le⟩

end Neof5
