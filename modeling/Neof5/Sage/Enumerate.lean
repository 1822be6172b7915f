import Neof5.Trick

/-!
# Enumeration of the playable hands (`SagePlayer.cpp`)

`genAllCombination` grows hands card by card from a base hand. Accepted hands go to a shared
buffer, a hand that is in the buffer is not grown again, and a rejected hand of three or more
cards is dropped.

The buffer ends up with exactly the playable hands if the table holds at most three cards, and
empty otherwise (`enumrate_spec`). Two facts carry the first part:

* a hand that is dropped has no playable superset (`no_playable_above`): against an empty table
  playable hands are closed under taking away cards, and against `n` cards they have `n` cards;
* a hand that is met again in the buffer has all its playable supersets there, because it was
  grown with the same remaining cards (`Expanded`).
-/

namespace Neof5

open CardSet

namespace SagePlayer

/-- `buff.insert(hand)`: a `std::set` is its elements in increasing order. -/
def buffInsert (buff : List CardSet) (hand : CardSet) : List CardSet :=
  if hand ∈ buff then buff
  else buff.orderedInsert (fun s t => s.bits.toNat ≤ t.bits.toNat) hand

/-- The body of the loop of `_genAllCombination`; `gen` is the recursive call. -/
def genBody (rule : DaifugoRule) (baLast baseHand deck : CardSet)
    (gen : List CardSet → CardSet → CardSet → Except Fault (List CardSet)) (i : Card)
    (buff : List CardSet) : Except Fault (List CardSet × Option Unit) := do
  let hand := baseHand.addCard i
  if hand ∈ buff then return (buff, none)
  if (← rule.canPut hand baLast) = .ok then
    let buff ← gen (buffInsert buff hand) hand (deck.subCard i)
    return (buff, none)
  else if 2 ≤ baseHand.size then return (buff, none)
  else
    let buff ← gen buff hand (deck.subCard i)
    return (buff, none)

/-- `_genAllCombination`. The first number bounds the depth of the recursion; it is the number
of cards in `deck`, from which each nested call takes one away. -/
def genAllCombination (rule : DaifugoRule) (baLast : CardSet) :
    Nat → List CardSet → CardSet → CardSet → Except Fault (List CardSet)
  | 0, buff, _, _ => .ok buff
  | n + 1, buff, baseHand, deck => do
    let tmp ← deck.conv2Vector
    let (buff, _) ← Loop.forEach
      (genBody rule baLast baseHand deck (genAllCombination rule baLast n)) tmp.reverse buff
    return buff

/-- `_enumrateAvairableHands`: the rule object with its flag set, and the filled buffer. -/
def enumrateAvairableHands (rule : DaifugoRule) (buff : List CardSet) (tefda baLast : CardSet)
    (isKakumei : Bool) : Except Fault (DaifugoRule × List CardSet) := do
  let rule := rule.setKakumei isKakumei
  let buff ← genAllCombination rule baLast tefda.size buff ∅ tefda
  return (rule, buff)

/-! ## Playable hands -/

/-- A hand that may be put on the table. -/
def Playable (r : DaifugoRule) (ba hand : CardSet) : Prop :=
  hand ≠ ∅ ∧ r.canPut hand ba = .ok .ok

section

variable {r : DaifugoRule} {ba hand H : CardSet}

/-- On an empty table a hand with fewer cards stays playable. -/
theorem Playable.subset (h : Playable r ∅ H) (hs : hand ⊆ H) (h0 : hand ≠ ∅) :
    Playable r ∅ hand :=
  ⟨h0, (canPut_empty_ok_iff h0).mpr ((isGroup_of_canPut h.2 h.1).subset hs)⟩

theorem Playable.size (h : Playable r ba H) (hb : ba ≠ ∅) : H.size = ba.size :=
  ((canPut_ok_iff h.1 hb).mp h.2).2.2.1.symm

/-- Every single card may lead. -/
theorem playable_single (c : Card) : Playable r ∅ (single c) :=
  ⟨single_ne_empty c, (canPut_empty_ok_iff (single_ne_empty c)).mpr
    (isGroup_of_size_le_one (Nat.le_of_eq (size_single c)))⟩

/-- A rejected hand of three or more cards is below no playable hand, if the table holds at most
three cards. -/
theorem no_playable_above (hba : ba.size ≤ 3) (h3 : 3 ≤ hand.size)
    (hno : r.canPut hand ba ≠ .ok .ok) (hs : hand ⊆ H) : ¬ Playable r ba H := by
  intro hp
  have h0 : hand ≠ ∅ := by rintro rfl; simp at h3
  by_cases hb : ba = ∅
  · subst hb; exact hno (hp.subset hs h0).2
  · have hsz := hp.size hb
    rw [eq_of_subset_of_size_le hs (by omega)] at hno
    exact hno hp.2

/-- With four or more cards on the table no hand of at most three cards is accepted. -/
theorem not_playable_small (hba : 4 ≤ ba.size) (h3 : hand.size ≤ 3) (h0 : hand ≠ ∅) :
    r.canPut hand ba ≠ .ok .ok := by
  intro hok
  have hb : ba ≠ ∅ := by rintro rfl; simp at hba
  have := ((canPut_ok_iff h0 hb).mp hok).2.2.1
  omega

end

/-! ## The buffer -/

theorem mem_buffInsert {buff : List CardSet} {h x : CardSet} :
    x ∈ buffInsert buff h ↔ x = h ∨ x ∈ buff := by
  unfold buffInsert
  split
  · rename_i hm
    constructor
    · exact Or.inr
    · rintro (rfl | hx)
      · exact hm
      · exact hx
  · rw [List.mem_orderedInsert]

theorem nodup_buffInsert {buff : List CardSet} {h : CardSet} (hn : buff.Nodup) :
    (buffInsert buff h).Nodup := by
  unfold buffInsert
  split
  · exact hn
  · rename_i hm
    exact (List.perm_orderedInsert _ h buff).nodup_iff.mpr (List.nodup_cons.mpr ⟨hm, hn⟩)

/-- The buffer stays in increasing order. -/
theorem sorted_buffInsert {buff : List CardSet} {h : CardSet} (hs : buff.Pairwise (· < ·)) :
    (buffInsert buff h).Pairwise (· < ·) := by
  have hnd := nodup_buffInsert (h := h) (hs.imp fun {s t} hlt => by
    rintro rfl; exact Nat.lt_irrefl _ hlt)
  unfold buffInsert at hnd ⊢
  split
  · exact hs
  · rename_i hm
    rw [if_neg hm] at hnd
    have hle : (buff.orderedInsert (fun s t => s.bits.toNat ≤ t.bits.toNat) h).Pairwise
        fun s t => s.bits.toNat ≤ t.bits.toNat := by
      have : Std.Total fun s t : CardSet => s.bits.toNat ≤ t.bits.toNat :=
        ⟨fun s t => Nat.le_total _ _⟩
      have : IsTrans CardSet fun s t => s.bits.toNat ≤ t.bits.toNat := ⟨fun _ _ _ => Nat.le_trans⟩
      exact List.Pairwise.orderedInsert h buff (hs.imp Nat.le_of_lt)
    refine hle.imp₂ (fun s t hst hne => ?_) hnd
    refine Nat.lt_of_le_of_ne hst fun heq => hne ?_
    cases s; cases t
    simp_all [BitVec.toNat_inj]

/-- Every hand of the buffer that is not part of `base` has all its playable supersets within
`all` in the buffer. -/
def Expanded (r : DaifugoRule) (ba : CardSet) (buff : List CardSet) (base all : CardSet) : Prop :=
  ∀ G ∈ buff, ¬ G ⊆ base → ∀ H, Playable r ba H → G ⊆ H → H ⊆ all → H ∈ buff

/-- What a call from `base` leaves in the buffer: the old hands, and all playable hands that grow
from `base` within `all`. -/
structure Grown (r : DaifugoRule) (ba : CardSet) (buff : List CardSet) (base all : CardSet)
    (buff' : List CardSet) : Prop where
  keep : ∀ G ∈ buff, G ∈ buff'
  sound : ∀ G ∈ buff', G ∈ buff ∨ Playable r ba G ∧ base ⊆ G ∧ G ≠ base ∧ G ⊆ all
  complete : ∀ H, Playable r ba H → base ⊆ H → H ≠ base → H ⊆ all → H ∈ buff'
  nodup : buff'.Nodup

section

variable {r : DaifugoRule} {ba base deck : CardSet} {buff : List CardSet}

/-- The invariant of the loop over the cards of the deck: `Grown` restricted to the hands with a
card that is done. -/
private structure LoopInv (r : DaifugoRule) (ba : CardSet) (buff : List CardSet)
    (base all : CardSet) (done : List Card) (b : List CardSet) : Prop where
  keep : ∀ G ∈ buff, G ∈ b
  sound : ∀ G ∈ b, G ∈ buff ∨ Playable r ba G ∧ base ⊆ G ∧ G ⊆ all ∧ ∃ c ∈ done, c ∈ G
  complete : ∀ c ∈ done, ∀ H, Playable r ba H → base ⊆ H → c ∈ H → H ⊆ all → H ∈ b
  nodup : b.Nodup

/-- All playable hands above a hand of the buffer are in the buffer, unless the hand is part of
the base. -/
private theorem LoopInv.expanded {all : CardSet} {done : List Card} {b : List CardSet}
    (hi : LoopInv r ba buff base all done b) (he : Expanded r ba buff base all) :
    Expanded r ba b base all := by
  intro G hG hn H hp hs hall
  rcases hi.sound G hG with hG | ⟨-, hb, -, c, hc, hcG⟩
  · exact hi.keep H (he G hG hn H hp hs hall)
  · exact hi.complete c hc H hp (CardSet.subset_trans hb hs) (subset_iff.mp hs c hcG) hall

/-- The round for the card `i` is done if the new buffer keeps the old one, adds playable hands
above the hand with `i`, and has all of them. -/
private theorem LoopInv.snoc {all : CardSet} {done : List Card} {b b' : List CardSet} {i : Card}
    (hinv : LoopInv r ba buff base all done b) (hnd : b'.Nodup) (hkeep : ∀ G ∈ b, G ∈ b')
    (hsound : ∀ G ∈ b', G ∈ b ∨ Playable r ba G ∧ base.addCard i ⊆ G ∧ G ⊆ all)
    (hcomplete : ∀ H, Playable r ba H → base.addCard i ⊆ H → H ⊆ all → H ∈ b') :
    LoopInv r ba buff base all (done ++ [i]) b' := by
  refine ⟨fun G hG => hkeep G (hinv.keep G hG), fun G hG => ?_,
    fun c hcd H hp hb hcH hall => ?_, hnd⟩
  · rcases hsound G hG with hG | ⟨hp, hG, hall⟩
    · rcases hinv.sound G hG with hG | ⟨hp, hG, hall, c, hcd, hcG⟩
      · exact .inl hG
      · exact .inr ⟨hp, hG, hall, c, by simp [hcd], hcG⟩
    · obtain ⟨hb, hiG⟩ := addCard_subset_iff.mp hG
      exact .inr ⟨hp, hb, hall, i, by simp, hiG⟩
  · rcases List.mem_append.mp hcd with hcd | hcd
    · exact hkeep H (hinv.complete c hcd H hp hb hcH hall)
    · rw [List.mem_singleton.mp hcd] at hcH
      exact hcomplete H hp (addCard_subset_iff.mpr ⟨hb, hcH⟩) hall

/-- Hands of the buffer that are not part of a larger base are not part of the base. -/
private theorem Expanded.mono {base' all : CardSet} {b : List CardSet}
    (h : Expanded r ba b base all) (hs : base ⊆ base') : Expanded r ba b base' all :=
  fun G hG hn => h G hG fun hb => hn (CardSet.subset_trans hb hs)

/-- A hand that is its own base may be added. -/
private theorem Expanded.insert {all : CardSet} {b : List CardSet} (h : Expanded r ba b base all) :
    Expanded r ba (buffInsert b base) base all := by
  intro G hG hn H hp hs hall
  rcases mem_buffInsert.mp hG with rfl | hG
  · exact (hn (CardSet.subset_refl _)).elim
  · exact mem_buffInsert.mpr (.inr (h G hG hn H hp hs hall))

/-- One round of the loop: the hand with the card `i` is in the buffer already, or is grown by the
recursive call, or is dropped. -/
private theorem genBody_spec {all : CardSet} {done : List Card} {b : List CardSet} {i : Card}
    {gen : List CardSet → CardSet → CardSet → Except Fault (List CardSet)} (hba : ba.size ≤ 3)
    (hi : i ∉ base) (hsub : base.addCard i ⊆ all) (he : Expanded r ba buff base all)
    (hgen : ∀ b', b'.Nodup → Expanded r ba b' (base.addCard i) all →
      ∃ b'', gen b' (base.addCard i) (deck.subCard i) = .ok b'' ∧
        Grown r ba b' (base.addCard i) all b'')
    (hinv : LoopInv r ba buff base all done b) :
    ∃ out, genBody r ba base deck gen i b = .ok out ∧
      Loop.Ends (LoopInv r ba buff base all (done ++ [i])) (fun _ _ => False) out := by
  have hexp := hinv.expanded he
  unfold genBody
  by_cases hmem : base.addCard i ∈ b
  · have hnot : ¬ base.addCard i ⊆ base := fun h => hi (addCard_subset_iff.mp h).2
    exact ⟨(b, none), by simp [hmem], hinv.snoc hinv.nodup (fun _ h => h) (fun _ h => .inl h)
      fun H hp hs hall => hexp _ hmem hnot H hp hs hall⟩
  have hexp' : Expanded r ba b (base.addCard i) all := hexp.mono (subset_addCard base i)
  simp only [hmem, ↓reduceIte, canPut_eq, except_ok_bind]
  have hne : base.addCard i ≠ ∅ := fun h => not_mem_empty i (h ▸ by simp)
  by_cases hok : putResult r.isKakumei (base.addCard i) ba = .ok
  · have hplay : Playable r ba (base.addCard i) := ⟨hne, by rw [canPut_eq, hok]⟩
    obtain ⟨b'', hrun, hg⟩ := hgen (buffInsert b (base.addCard i)) (nodup_buffInsert hinv.nodup)
      hexp'.insert
    refine ⟨(b'', none), by simp [hok, hrun], hinv.snoc hg.nodup ?_ ?_ ?_⟩
    · exact fun G hG => hg.keep G (mem_buffInsert.mpr (.inr hG))
    · intro G hG
      rcases hg.sound G hG with hG | ⟨hp, hs, -, hall⟩
      · rcases mem_buffInsert.mp hG with rfl | hG
        · exact .inr ⟨hplay, CardSet.subset_refl _, hsub⟩
        · exact .inl hG
      · exact .inr ⟨hp, hs, hall⟩
    · intro H hp hs hall
      by_cases hH : H = base.addCard i
      · exact hg.keep H (mem_buffInsert.mpr (.inl hH))
      · exact hg.complete H hp hs hH hall
  · have hrej : r.canPut (base.addCard i) ba ≠ .ok .ok := by
      rw [canPut_eq]; simpa using hok
    by_cases h2 : 2 ≤ base.size
    · refine ⟨(b, none), by simp [hok, h2],
        hinv.snoc hinv.nodup (fun _ h => h) (fun _ h => .inl h) ?_⟩
      intro H hp hs
      exact (no_playable_above hba (by rw [size_addCard hi]; omega) hrej hs hp).elim
    · obtain ⟨b'', hrun, hg⟩ := hgen b hinv.nodup hexp'
      refine ⟨(b'', none), by simp [hok, h2, hrun], hinv.snoc hg.nodup hg.keep ?_ ?_⟩
      · intro G hG
        rcases hg.sound G hG with hG | ⟨hp, hs, -, hall⟩
        · exact .inl hG
        · exact .inr ⟨hp, hs, hall⟩
      · intro H hp hs hall
        exact hg.complete H hp hs (fun e => hrej (e ▸ hp.2)) hall

/-- A card goes from the deck to the base. -/
private theorem apart_addCard_subCard {i : Card} (hd : Apart base deck) :
    Apart (base.addCard i) (deck.subCard i) := by
  intro c hc hcd
  obtain ⟨hcd, hci⟩ := mem_subCard.mp hcd
  rcases mem_addCard.mp hc with hc | rfl
  · exact hd c hc hcd
  · exact hci rfl

private theorem addCard_union_subCard {i : Card} (hi : i ∈ deck) :
    base.addCard i ∪ deck.subCard i = base ∪ deck := by
  ext c
  simp only [mem_union, mem_addCard, mem_subCard]
  by_cases hci : c = i
  · simp [hci, hi]
  · simp [hci]

/-- After the loop over the deck the base is grown. -/
private theorem LoopInv.grown {b : List CardSet} (hd : Apart base deck)
    (h : LoopInv r ba buff base (base ∪ deck) deck.cards.reverse b) :
    Grown r ba buff base (base ∪ deck) b := by
  refine ⟨h.keep, fun G hG => ?_, fun H hp hb hne hall => ?_, h.nodup⟩
  · rcases h.sound G hG with hG | ⟨hp, hb, hall, c, hc, hcG⟩
    · exact .inl hG
    · refine .inr ⟨hp, hb, fun e => ?_, hall⟩
      exact hd c (e ▸ hcG) (by simpa using hc)
  · -- A larger hand has a card of the deck, and that card has had its round.
    obtain ⟨c, hc, hcb⟩ : ∃ c, c ∈ H ∧ c ∉ base := by
      by_contra hno
      push Not at hno
      exact hne (CardSet.ext fun c => ⟨hno c, subset_iff.mp hb c⟩)
    have hcd : c ∈ deck := by
      rcases mem_union.mp (subset_iff.mp hall c hc) with h | h
      · exact (hcb h).elim
      · exact h
    exact h.complete c (by simpa using hcd) H hp hb hc hall

/-- With at most three cards on the table, a call grows the base by exactly the playable hands. -/
theorem genAllCombination_spec (hba : ba.size ≤ 3) (n : Nat) :
    ∀ buff base deck, deck.size = n → Apart base deck → buff.Nodup →
      Expanded r ba buff base (base ∪ deck) →
      ∃ buff', genAllCombination r ba n buff base deck = .ok buff' ∧
        Grown r ba buff base (base ∪ deck) buff' := by
  induction n with
  | zero =>
    intro buff base deck hn hd hnd he
    have h0 := size_eq_zero.mp hn
    refine ⟨buff, rfl, fun _ h => h, fun _ h => .inl h, fun H hp hb hne hall => ?_, hnd⟩
    refine (hne (CardSet.ext fun c => ⟨fun hc => ?_, subset_iff.mp hb c⟩)).elim
    simpa [h0] using subset_iff.mp hall c hc
  | succ n ih =>
    intro buff base deck hn hd hnd he
    have hrun := Loop.forEach_total
      (f := genBody r ba base deck (genAllCombination r ba n)) (l := deck.cards.reverse)
      (I := LoopInv r ba buff base (base ∪ deck)) (Q := fun _ _ => False) ?_ (s := buff)
      ⟨fun _ h => h, fun _ h => .inl h, by simp, hnd⟩
    · obtain ⟨⟨b, stop⟩, hrun, hend⟩ := hrun
      cases stop with
      | some u => exact hend.elim
      | none =>
        exact ⟨b, by simp [genAllCombination, conv2Vector_eq, hrun], LoopInv.grown hd hend⟩
    · intro done i rest b hxs hinv
      have hid : i ∈ deck := by
        have : i ∈ deck.cards.reverse := by rw [hxs]; simp
        simpa using this
      have hib : i ∉ base := fun h => hd i h hid
      have hall : base.addCard i ∪ deck.subCard i = base ∪ deck := addCard_union_subCard hid
      have hsub : base.addCard i ⊆ base ∪ deck := addCard_subset_iff.mpr
        ⟨subset_iff.mpr fun c hc => mem_union.mpr (.inl hc), mem_union.mpr (.inr hid)⟩
      refine genBody_spec hba hib hsub he (fun b' hnd' he' => ?_) hinv
      have hsz : (deck.subCard i).size = n := by have := size_subCard hid; omega
      have := ih b' (base.addCard i) (deck.subCard i) hsz
        (apart_addCard_subCard hd) hnd' (by rw [hall]; exact he')
      rwa [hall] at this

/-- With four or more cards on the table every hand is dropped before it is large enough. -/
theorem genAllCombination_large (hba : 4 ≤ ba.size) (n : Nat) :
    ∀ base deck, base.size ≤ 2 → Apart base deck →
      genAllCombination r ba n [] base deck = .ok [] := by
  induction n with
  | zero => intro base deck _ _; rfl
  | succ n ih =>
    intro base deck hb hd
    have hrun := Loop.forEach_total'
      (f := genBody r ba base deck (genAllCombination r ba n)) (l := deck.cards.reverse)
      (I := fun b => b = []) (Q := fun _ _ => False) ?_ (s := []) rfl
    · obtain ⟨⟨b, stop⟩, hrun, hend⟩ := hrun
      cases stop with
      | some u => exact hend.elim
      | none =>
        simp only [Loop.ends_none] at hend
        subst hend
        simp [genAllCombination, conv2Vector_eq, hrun]
    · rintro i b hi rfl
      have hid : i ∈ deck := by simpa using hi
      have hib : i ∉ base := fun h => hd i h hid
      have hsz := size_addCard hib
      have hno : r.canPut (base.addCard i) ba ≠ .ok .ok :=
        not_playable_small hba (by omega) fun h => not_mem_empty i (h ▸ by simp)
      rw [canPut_eq] at hno
      have hno' : ¬ putResult r.isKakumei (base.addCard i) ba = .ok := by simpa using hno
      refine ⟨([], none), ?_, rfl⟩
      unfold genBody
      by_cases h2 : 2 ≤ base.size
      · simp [canPut_eq, hno', h2]
      · have := ih (base.addCard i) (deck.subCard i) (by omega) (apart_addCard_subCard hd)
        simp [canPut_eq, hno', h2, this]

/-- A call leaves the buffer in increasing order. -/
theorem genAllCombination_sorted (n : Nat) : ∀ {buff base deck buff'}, buff.Pairwise (· < ·) →
    genAllCombination r ba n buff base deck = .ok buff' → buff'.Pairwise (· < ·) := by
  induction n with
  | zero => intro buff base deck buff' hs h; cases h; exact hs
  | succ n ih =>
    intro buff base deck buff' hs h
    obtain ⟨tmp, -, h⟩ := bind_ok h
    obtain ⟨out, hloop, h⟩ := bind_ok h
    cases h
    refine Loop.forEach_ok (I := fun b : List CardSet => b.Pairwise (· < ·)) ?_ hs hloop
    intro i b out hb hbody
    simp only [genBody] at hbody
    split at hbody
    · cases hbody; exact hb
    · obtain ⟨chk, -, hbody⟩ := bind_ok hbody
      split at hbody
      · obtain ⟨b', hrun, hbody⟩ := bind_ok hbody
        cases hbody
        exact ih (sorted_buffInsert hb) hrun
      · split at hbody
        · cases hbody; exact hb
        · obtain ⟨b', hrun, hbody⟩ := bind_ok hbody
          cases hbody
          exact ih hb hrun

/-- The hands come in the order of a `std::set`. -/
theorem enumrate_sorted {rule rule' : DaifugoRule} {tefda ba : CardSet} {k : Bool}
    {hands : List CardSet} (h : enumrateAvairableHands rule [] tefda ba k = .ok (rule', hands)) :
    hands.Pairwise (· < ·) := by
  obtain ⟨buff, hrun, h⟩ := bind_ok h
  cases h
  exact genAllCombination_sorted _ .nil hrun

/-- **What the enumeration yields.** It returns without a fault, each hand once, and the hands
are the playable parts of the hand cards if the table holds at most three cards; else there are
none. -/
theorem enumrate_spec (rule : DaifugoRule) (tefda ba : CardSet) (k : Bool) :
    ∃ hands, enumrateAvairableHands rule [] tefda ba k = .ok (rule.setKakumei k, hands) ∧
      hands.Nodup ∧
      ∀ H, H ∈ hands ↔ ba.size ≤ 3 ∧ H ⊆ tefda ∧ Playable (rule.setKakumei k) ba H := by
  have hall : ∅ ∪ tefda = tefda := by ext c; simp
  have hap : Apart ∅ tefda := fun c hc => (not_mem_empty c hc).elim
  by_cases hba : ba.size ≤ 3
  · obtain ⟨b, hrun, hg⟩ := genAllCombination_spec (r := rule.setKakumei k) hba tefda.size [] ∅
      tefda rfl hap List.nodup_nil (by intro G hG; simp at hG)
    rw [hall] at hg
    refine ⟨b, by simp [enumrateAvairableHands, hrun], hg.nodup, fun H => ⟨fun hH => ?_, ?_⟩⟩
    · rcases hg.sound H hH with hH | ⟨hp, -, -, hs⟩
      · simp at hH
      · exact ⟨hba, hs, hp⟩
    · rintro ⟨-, hs, hp⟩
      exact hg.complete H hp (empty_subset H) hp.1 hs
  · have hrun := genAllCombination_large (r := rule.setKakumei k) (by omega : 4 ≤ ba.size)
      tefda.size ∅ tefda (by simp) hap
    refine ⟨[], by simp [enumrateAvairableHands, hrun], List.nodup_nil, fun H => ?_⟩
    simp [hba]

/-- **The enumeration is exact.** Leading, or against at most three cards, the buffer ends up with
exactly the hands that can be played, each of them once. -/
theorem enumrate_exact (rule : DaifugoRule) (tefda ba : CardSet) (k : Bool) (hba : ba.size ≤ 3) :
    ∃ hands, enumrateAvairableHands rule [] tefda ba k = .ok (rule.setKakumei k, hands) ∧
      hands.Nodup ∧
      ∀ H, H ∈ hands ↔ H ≠ ∅ ∧ H ⊆ tefda ∧ (rule.setKakumei k).canPut H ba = .ok .ok := by
  obtain ⟨hands, hrun, hnd, hmem⟩ := enumrate_spec rule tefda ba k
  refine ⟨hands, hrun, hnd, fun H => ?_⟩
  rw [hmem H]
  constructor
  · rintro ⟨-, hs, h0, hok⟩
    exact ⟨h0, hs, hok⟩
  · rintro ⟨h0, hs, hok⟩
    exact ⟨hba, hs, h0, hok⟩

/-- For all cards against a pair of threes. -/
theorem enumrate_exact_threes :
    (ofVector [⟨0⟩, ⟨1⟩]).size ≤ 3 ∧
    ∃ hands, enumrateAvairableHands ⟨.A, false⟩ [] allCards (ofVector [⟨0⟩, ⟨1⟩]) false =
        .ok (⟨.A, false⟩, hands) ∧ hands.Nodup ∧
      ∀ H, H ∈ hands ↔ H ≠ ∅ ∧ H ⊆ allCards ∧
        DaifugoRule.canPut ⟨.A, false⟩ H (ofVector [⟨0⟩, ⟨1⟩]) = .ok .ok :=
  ⟨by decide, enumrate_exact ⟨.A, false⟩ allCards _ false (by decide)⟩

/-- The enumeration is empty if no hand can be played, or the table holds too many cards. -/
theorem enumrate_nil_iff (rule : DaifugoRule) (tefda ba : CardSet) (k : Bool) :
    enumrateAvairableHands rule [] tefda ba k = .ok (rule.setKakumei k, []) ↔
      ∀ H, H ⊆ tefda → Playable (rule.setKakumei k) ba H → 4 ≤ ba.size := by
  obtain ⟨hands, hrun, -, hmem⟩ := enumrate_spec rule tefda ba k
  rw [hrun]
  constructor
  · rintro h H hs hp
    cases h
    by_contra hba
    exact List.not_mem_nil ((hmem H).mpr ⟨by omega, hs, hp⟩)
  · intro h
    have hnil : hands = [] := by
      rw [List.eq_nil_iff_forall_not_mem]
      intro H hH
      obtain ⟨h3, hs, hp⟩ := (hmem H).mp hH
      have := h H hs hp
      omega
    rw [hnil]

end

/-! ## Forced passes -/

/-- The cards of the deck that can make up a group of rank `n`: those of the rank, and the
joker. -/
def groupCards (deck : CardSet) (n : Nat) : List Card :=
  deck.cards.filter fun d => d.rank = n ∨ d.isJoker = true

/-- The deck holds a group of some number that is stronger than the group on the table and has
enough cards, the joker counted. -/
def HoldsStrongerGroup (k : Bool) (deck ba : CardSet) : Prop :=
  ba.IsGroup ∧ ∃ c ∈ deck, c.isJoker = false ∧ ba.lead.power k < c.power k ∧
    ba.size ≤ (groupCards deck c.rank).length

instance (k : Bool) (deck ba : CardSet) : Decidable (HoldsStrongerGroup k deck ba) :=
  inferInstanceAs (Decidable (_ ∧ ∃ _, _ ∧ _))

/-- Against two or more cards, a playable hand is one of the stronger groups that the deck
holds. -/
theorem exists_playable_iff {r : DaifugoRule} {deck ba : CardSet} (h2 : 2 ≤ ba.size) :
    (∃ H, H ⊆ deck ∧ Playable r ba H) ↔ HoldsStrongerGroup r.isKakumei deck ba := by
  have hb : ba ≠ ∅ := by rintro rfl; simp at h2
  constructor
  · rintro ⟨H, hs, hp⟩
    obtain ⟨hg, hbg, hsz, hpow⟩ := (canPut_ok_iff hp.1 hb).mp hp.2
    obtain ⟨-, hmem, -⟩ := lead_eq hp.1
    have hj := lead_not_joker (s := H) (by omega)
    refine ⟨hbg, H.lead, subset_iff.mp hs _ hmem, hj, hpow, ?_⟩
    rw [hsz, H.size_eq]
    refine (List.subperm_of_subset H.cards_nodup fun d hd => ?_).length_le
    have hdH := mem_cards.mp hd
    refine List.mem_filter.mpr ⟨mem_cards.mpr (subset_iff.mp hs d hdH), ?_⟩
    cases hdj : d.isJoker with
    | true => simp
    | false => simp [hg d hdH H.lead hmem hdj hj]
  · rintro ⟨hbg, c, -, hcj, hpow, hlen⟩
    have hnd : ((groupCards deck c.rank).take ba.size).Nodup :=
      (deck.cards_nodup.filter _).sublist (List.take_sublist _ _)
    have hmem : ∀ d, d ∈ ofVector ((groupCards deck c.rank).take ba.size) →
        d ∈ deck ∧ (d.isJoker = false → d.rank = c.rank) := by
      intro d hd
      have := List.mem_filter.mp (List.mem_of_mem_take (mem_ofVector.mp hd))
      refine ⟨mem_cards.mp this.1, fun hdj => ?_⟩
      simpa [hdj] using this.2
    have hsize : (ofVector ((groupCards deck c.rank).take ba.size)).size = ba.size := by
      rw [size_eq_card, show (ofVector ((groupCards deck c.rank).take ba.size)).toFinset
          = ((groupCards deck c.rank).take ba.size).toFinset by ext d; simp [mem_ofVector],
        List.toFinset_card_of_nodup hnd, List.length_take, Nat.min_eq_left hlen]
    have hne : ofVector ((groupCards deck c.rank).take ba.size) ≠ ∅ := by
      rw [← size_pos, hsize]; omega
    have hj := lead_not_joker (by rw [hsize]; exact h2)
    obtain ⟨-, hlead, -⟩ := lead_eq hne
    refine ⟨_, subset_iff.mpr fun d hd => (hmem d hd).1, hne, (canPut_ok_iff hne hb).mpr
      ⟨?_, hbg, hsize.symm, ?_⟩⟩
    · intro d hd e he hdj hej
      rw [(hmem d hd).2 hdj, (hmem e he).2 hej]
    · rw [Card.power_eq_of_rank hj hcj ((hmem _ hlead).2 hj)]; exact hpow

/-- **When a pass for want of hands is forced.** The enumeration finds a playable hand whenever
there is one exactly if the table holds at most three cards, or the deck holds no stronger group
of its size. -/
theorem forced_pass_iff (rule : DaifugoRule) (deck ba : CardSet) (k : Bool) :
    (enumrateAvairableHands rule [] deck ba k = .ok (rule.setKakumei k, []) →
      ∀ H, H ⊆ deck → H ≠ ∅ → (rule.setKakumei k).canPut H ba ≠ .ok .ok) ↔
    (ba.size ≤ 3 ∨ ¬ HoldsStrongerGroup k deck ba) := by
  rw [enumrate_nil_iff]
  by_cases hba : ba.size ≤ 3
  · simp only [hba, true_or, iff_true]
    intro h H hs h0 hok
    have := h H hs ⟨h0, hok⟩
    omega
  · have hlarge : ∀ H, H ⊆ deck → Playable (rule.setKakumei k) ba H → 4 ≤ ba.size :=
      fun _ _ _ => by omega
    have hex : (∃ H, H ⊆ deck ∧ Playable (rule.setKakumei k) ba H) ↔
        HoldsStrongerGroup (rule.setKakumei k).isKakumei deck ba := exists_playable_iff (by omega)
    rw [or_iff_right hba, show k = (rule.setKakumei k).isKakumei from rfl, ← hex]
    constructor
    · rintro h ⟨H, hs, h0, hok⟩
      exact h hlarge H hs h0 hok
    · intro h _ H hs h0 hok
      exact h ⟨H, hs, h0, hok⟩

/-- The four fours against the four threes: the enumeration is empty, though the fours may be
put. -/
theorem fours_on_threes_not_found :
    ¬ (enumrateAvairableHands ⟨.A, false⟩ [] ⟨0xf0#64, by decide⟩ ⟨0x0f#64, by decide⟩ false =
        .ok (⟨.A, false⟩, []) →
      ∀ H, H ⊆ ⟨0xf0#64, by decide⟩ → H ≠ ∅ →
        DaifugoRule.canPut ⟨.A, false⟩ H ⟨0x0f#64, by decide⟩ ≠ .ok .ok) := by
  intro h
  exact h (by decide +kernel) ⟨0xf0#64, by decide⟩ (by decide) (by decide) (by decide +kernel)

end SagePlayer

end Neof5
