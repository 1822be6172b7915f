import Neof5.Sage.Order

/-!
# The first moves that the search compares

`findBestParamChild` compares the first moves by what the search found below them, so a first move
whose child is not in the frontier of the next level is out of the comparison. The source goes
through the weak hands of the root once more to have every hand evaluated; a strong hand depends on
the inner loop, which puts its child into the frontier only where a weak hand shares a card
with it.

* `createChildren_root`: the hands whose children are in the frontier after the root.
* `first_moves_compared_iff`: they are all the hands exactly if each strong hand shares a card with
  a weak one, or no hand is weak.
-/

namespace Neof5

open CardSet

namespace SagePlayer

variable {α : Type} [Score α]

/-- The value of the hand puts it among the strong ones, or among the weak ones. -/
def SearchEnv.Rates (env : SearchEnv α) (k : Bool) (H : CardSet) (strong : Bool) : Prop :=
  ∃ p1, env.potential H k = .ok p1 ∧ env.isStrongHand p1 = strong

theorem SearchEnv.Rates.unique {env : SearchEnv α} {k : Bool} {H : CardSet} {b b' : Bool}
    (h : env.Rates k H b) (h' : env.Rates k H b') : b = b' := by
  obtain ⟨p1, hp1, rfl⟩ := h
  obtain ⟨p1', hp1', rfl⟩ := h'
  cases hp1.symm.trans hp1'
  rfl

section

variable {w : World} {env : SearchEnv α} {u : Pos α} {s s' : Scan α} {g g' : Grow α}

/-! ## Sorting the hands of the root -/

/-- The lists after the loop went through the hands `done` of the root. -/
structure SortedRoot (env : SearchEnv α) (u : Pos α) (done : List CardSet) (s : Scan α) : Prop where
  pos : s.node.label.pos = u
  leaf : s.node.children = []
  rated : ∀ H ∈ done, ∃ strong, env.Rates u.isKakumei H strong
  better : ∀ H, (∃ eh ∈ s.betterHands, eh.hand = H) ↔ H ∈ done ∧ env.Rates u.isKakumei H true
  poor : ∀ H, (∃ eh ∈ s.poorHands, eh.hand = H) ↔ H ∈ done ∧ env.Rates u.isKakumei H false

/-- At the root a hand is put into a list, or the search ends. -/
theorem judgeHand_root {eh : EvalHand α} (h : judgeHand w env true eh s = .ok (s', none)) :
    sortHand w env eh s = (s', none) := by
  simp only [judgeHand] at h
  split at h
  · obtain ⟨chk, -, h⟩ := bind_ok h
    split at h
    · cases h
    · exact Except.ok.inj h
  · exact Except.ok.inj h

section

variable {k strong : Bool} {l : List (EvalHand α)} {done : List CardSet} {H' : CardSet}

/-- The hand goes to the end of the list that it is rated for. -/
theorem SearchEnv.Rates.snoc {eh : EvalHand α} (hr : env.Rates k eh.hand strong)
    (h : (∃ e ∈ l, e.hand = H') ↔ H' ∈ done ∧ env.Rates k H' strong) :
    (∃ e ∈ l ++ [eh], e.hand = H') ↔ H' ∈ done ++ [eh.hand] ∧ env.Rates k H' strong := by
  simp only [List.mem_append, List.mem_singleton, or_and_right, exists_or, exists_eq_left, h]
  refine or_congr_right ⟨?_, fun hx => hx.1.symm⟩
  rintro rfl
  exact ⟨rfl, hr⟩

/-- The other list stays. -/
theorem SearchEnv.Rates.skip {H : CardSet} (hr : env.Rates k H (!strong))
    (h : (∃ e ∈ l, e.hand = H') ↔ H' ∈ done ∧ env.Rates k H' strong) :
    (∃ e ∈ l, e.hand = H') ↔ H' ∈ done ++ [H] ∧ env.Rates k H' strong := by
  rw [List.mem_append, List.mem_singleton, or_and_right, ← h]
  refine (or_iff_left ?_).symm
  rintro ⟨rfl, hr'⟩
  exact absurd (hr.unique hr') (by simp)

end

/-- One round of the loop. -/
theorem SortedRoot.round {done : List CardSet} {H : CardSet} (h : SortedRoot env u done s)
    (hrun : classifyBody w env true H s = .ok (s', none)) : SortedRoot env u (done ++ [H]) s' := by
  obtain ⟨p1, hp1, hrun⟩ := bind_ok hrun
  have hk : s.node.label.isKakumei = u.isKakumei := congrArg Pos.isKakumei h.pos
  rw [hk] at hp1
  have hr : env.Rates u.isKakumei H (env.isStrongHand p1) := ⟨p1, hp1, rfl⟩
  have hrated : ∀ H' ∈ done ++ [H], ∃ strong, env.Rates u.isKakumei H' strong := by
    intro H' hH'
    rcases List.mem_append.mp hH' with hH' | hH'
    · exact h.rated H' hH'
    · rw [List.mem_singleton.mp hH']
      exact ⟨_, hr⟩
  have hsort := judgeHand_root hrun
  rw [sortHand_in_time (by rw [hsort]; simp), Prod.mk.injEq] at hsort
  obtain ⟨rfl, -⟩ := hsort
  cases hs : env.isStrongHand p1 with
  | true =>
    rw [hs] at hr
    exact ⟨h.pos, h.leaf, hrated, fun H' => hr.snoc (h.better H'), fun H' => hr.skip (h.poor H')⟩
  | false =>
    rw [hs] at hr
    exact ⟨h.pos, h.leaf, hrated, fun H' => hr.skip (h.better H'), fun H' => hr.snoc (h.poor H')⟩

theorem SortedRoot.exists_poor {hands : List CardSet} (h : SortedRoot env u hands s)
    {Q : CardSet → Prop} : (∃ peh ∈ s.poorHands, Q peh.hand) ↔
      ∃ P ∈ hands, env.Rates u.isKakumei P false ∧ Q P := by
  constructor
  · rintro ⟨peh, hp, hq⟩
    obtain ⟨h1, h2⟩ := (h.poor peh.hand).mp ⟨peh, hp, rfl⟩
    exact ⟨peh.hand, h1, h2, hq⟩
  · rintro ⟨P, h1, h2, hq⟩
    obtain ⟨peh, hp, rfl⟩ := (h.poor P).mpr ⟨h1, h2⟩
    exact ⟨peh, hp, hq⟩

theorem SortedRoot.poor_nil {hands : List CardSet} (h : SortedRoot env u hands s) :
    s.poorHands = [] ↔ ∀ P ∈ hands, ¬ env.Rates u.isKakumei P false := by
  have := h.exists_poor (Q := fun _ => True)
  simp only [and_true] at this
  rw [List.eq_nil_iff_forall_not_mem]
  simpa only [not_exists, not_and] using not_congr this

/-! ## The frontier after the root -/

/-- The child for the hand `H` is in the frontier. -/
def InNext (g : Grow α) (H : CardSet) : Prop :=
  ∃ i ∈ g.next, ∃ c, g.node.children[i]? = some c ∧ c.label.hand.hand = H

/-- The frontier is made of children, which have different hands. -/
structure Front (g : Grow α) : Prop where
  distinct : g.node.DistinctHands
  next : ∀ i ∈ g.next, i < g.node.children.length

omit [Score α] in
/-- A child is put into the frontier. -/
theorem Front.insert (h : Front g) {i : Nat} {c : EvalNode α}
    (hc : g.node.children[i]? = some c) :
    Front ⟨g.node, g.next.insert i⟩ ∧
      ∀ H, InNext ⟨g.node, g.next.insert i⟩ H ↔ InNext g H ∨ H = c.label.hand.hand := by
  refine ⟨⟨h.distinct, fun j hj => ?_⟩, fun H => ?_⟩
  · rcases List.mem_insert_iff.mp hj with rfl | hj
    · exact (List.getElem?_eq_some_iff.mp hc).1
    · exact h.next j hj
  · simp only [InNext, List.mem_insert_iff, or_and_right, exists_or, hc, Option.some.injEq,
      exists_eq_left', or_comm, eq_comm]

omit [Score α] in
/-- `createChild` leaves the frontier as it is. -/
theorem Front.createChild (h : Front g) (eh : EvalHand α) :
    ∃ n i c, EvalNode.createChild g.node eh = (n, i, c.label) ∧ n.children[i]? = some c ∧
      c.label.hand.hand = eh.hand ∧ n.label = g.node.label ∧ g.node.children <+: n.children ∧
      Front ⟨n, g.next⟩ ∧ ∀ H, InNext ⟨n, g.next⟩ H ↔ InNext g H := by
  obtain ⟨n, i, c, he, hc, hhand, hlab, hpre, hd⟩ := EvalNode.createChild_distinct h.distinct eh
  refine ⟨n, i, c, he, hc, hhand, hlab, hpre, ⟨hd, fun j hj => ?_⟩, fun H => ?_⟩
  · exact Nat.lt_of_lt_of_le (h.next j hj) hpre.length_le
  · refine exists_congr fun j => and_congr_right fun hj => ?_
    obtain ⟨t, ht⟩ := hpre
    show (∃ c, n.children[j]? = some c ∧ _) ↔ _
    rw [← ht, List.getElem?_append_left (h.next j hj)]

/-- The child with the index `i` has the hand `B`. -/
def ChildAt (g : Grow α) (i : Nat) (B : CardSet) : Prop :=
  ∃ c, g.node.children[i]? = some c ∧ c.label.hand.hand = B

omit [Score α] in
/-- A round of the inner loop puts the strong hand `B` into the frontier if the weak hand shares a
card with it, and else at most the weak hand. -/
theorem poorBody_next {rule : DaifugoRule} {beh peh : EvalHand α} {i : Nat} {B : CardSet}
    (hg : Front g) (hB : ChildAt g i B) (hrun : poorBody rule beh i peh g = .ok (g', none)) :
    Front g' ∧ g'.node.label = g.node.label ∧ ChildAt g' i B ∧ ∀ H, peh.hand ≠ H →
      (InNext g' H ↔ InNext g H ∨ H = B ∧ ¬ Apart peh.hand beh.hand) := by
  obtain ⟨c, hc, rfl⟩ := hB
  unfold poorBody at hrun
  cases hcom : peh.hand.communion beh.hand with
  | true =>
    have hmeet : ¬ Apart peh.hand beh.hand := fun h => by
      rw [communion_eq_false.mpr h] at hcom; cases hcom
    simp only [hcom, ↓reduceIte, except_pure] at hrun
    cases hrun
    obtain ⟨hf, hin⟩ := hg.insert hc
    exact ⟨hf, rfl, ⟨c, hc, rfl⟩, fun H _ => by rw [hin H, and_iff_left hmeet]⟩
  | false =>
    have hap := communion_eq_false.mp hcom
    obtain ⟨n, j, d, he, hd, hdhand, hlab, hpre, hf, hsame⟩ := hg.createChild peh
    -- The place of the strong hand stays.
    have hplace : n.children[i]? = some c := by
      obtain ⟨t, ht⟩ := hpre
      rw [← ht, List.getElem?_append_left (List.getElem?_eq_some_iff.mp hc).1, hc]
    have hno : ∀ H, InNext g H ∨ H = c.label.hand.hand ∧ ¬ Apart peh.hand beh.hand ↔
        InNext g H := fun H => or_iff_left fun h => h.2 hap
    simp only [hcom, Bool.false_eq_true, ↓reduceIte, he] at hrun
    by_cases hemp : d.label.hand.tefda.empty = true
    · simp only [hemp, ↓reduceIte] at hrun
      obtain ⟨chk, -, hrun⟩ := bind_ok hrun
      split at hrun
      · cases hrun
      · cases hrun
        exact ⟨hf, hlab, ⟨c, hplace, rfl⟩, fun H _ => by rw [hsame H, hno H]⟩
    · simp only [hemp, Bool.false_eq_true, ↓reduceIte, except_pure] at hrun
      cases hrun
      obtain ⟨hf', hin⟩ := hf.insert hd
      refine ⟨hf', hlab, ⟨c, hplace, rfl⟩, fun H hH => ?_⟩
      rw [hin H, hsame H, hno H, hdhand]
      exact or_iff_left hH.symm

omit [Score α] in
/-- The inner loop puts the strong hand into the frontier if one of the weak hands shares a card
with it. -/
theorem poorLoop_next {rule : DaifugoRule} {beh : EvalHand α} {i : Nat} {B : CardSet}
    {poorHands : List (EvalHand α)} (hg : Front g) (hB : ChildAt g i B)
    (hrun : Loop.forEach (poorBody rule beh i) poorHands g = .ok (g', none)) :
    Front g' ∧ g'.node.label = g.node.label ∧ ∀ H, (∀ peh ∈ poorHands, peh.hand ≠ H) →
      (InNext g' H ↔ InNext g H ∨ H = B ∧ ∃ peh ∈ poorHands, ¬ Apart peh.hand beh.hand) := by
  have key := Loop.forEach_none (l := poorHands) (f := poorBody rule beh i)
    (I := fun done g' => Front g' ∧ g'.node.label = g.node.label ∧ ChildAt g' i B ∧
      ∀ H, (∀ peh ∈ poorHands, peh.hand ≠ H) → (InNext g' H ↔ InNext g H ∨
        H = B ∧ ∃ peh ∈ done, ¬ Apart peh.hand beh.hand))
    ?_ ⟨hg, rfl, hB, by simp⟩ hrun
  · exact ⟨key.1, key.2.1, key.2.2.2⟩
  rintro done peh rest g1 g2 hxs ⟨hg1, hlab, hB1, hnext⟩ hbody
  obtain ⟨hg2, hlab2, hB2, hin⟩ := poorBody_next hg1 hB1 hbody
  refine ⟨hg2, hlab2.trans hlab, hB2, fun H hH => ?_⟩
  rw [hin H (hH peh (by rw [hxs]; simp)), hnext H hH, or_assoc, ← and_or_left]
  simp only [List.mem_append, List.mem_singleton, or_and_right, exists_or, exists_eq_left]

/-- A round of the loop over the strong hands of the root. -/
theorem betterBody_next {rule : DaifugoRule} {beh : EvalHand α} {poorHands : List (EvalHand α)}
    (hg : Front g) (hroot : g.node.label.hand.hand = ∅)
    (hrun : betterBody env rule poorHands beh g = .ok (g', none)) :
    Front g' ∧ g'.node.label = g.node.label ∧ ∀ H, (∀ peh ∈ poorHands, peh.hand ≠ H) →
      (InNext g' H ↔ InNext g H ∨
        H = beh.hand ∧ (poorHands = [] ∨ ∃ peh ∈ poorHands, ¬ Apart peh.hand H)) := by
  have hfol : cannotFollow env g.node.label beh = .ok false := by simp [cannotFollow, hroot]
  obtain ⟨n, i, c, he, hc, hhand, hnlab, -, hf, hsame⟩ := hg.createChild beh
  simp only [betterBody, hfol, except_ok_bind, Bool.false_eq_true, ↓reduceIte, he] at hrun
  cases hp : poorHands with
  | nil =>
    simp only [hp, List.isEmpty_nil, ↓reduceIte, except_pure] at hrun
    cases hrun
    obtain ⟨hf', hin⟩ := hf.insert hc
    refine ⟨hf', hnlab, fun H _ => ?_⟩
    rw [hin H, hsame H, hhand, and_iff_left (.inl rfl)]
  | cons peh rest =>
    rw [← hp]
    have hne : poorHands ≠ [] := by simp [hp]
    simp only [List.isEmpty_eq_false_iff.mpr hne, Bool.false_eq_true, ↓reduceIte] at hrun
    obtain ⟨hf', hlab', hin⟩ := poorLoop_next hf ⟨c, hc, hhand⟩ hrun
    refine ⟨hf', hlab'.trans hnlab, fun H hH => ?_⟩
    rw [hin H hH, hsame H, or_iff_right hne]
    refine or_congr_right (and_congr_right ?_)
    rintro rfl
    rfl

/-- The loop over the strong hands of the root. -/
theorem betterLoop_next {rule : DaifugoRule} {betterHands poorHands : List (EvalHand α)}
    (hg : Front g) (hroot : g.node.label.hand.hand = ∅)
    (hrun : Loop.forEach (betterBody env rule poorHands) betterHands g = .ok (g', none)) :
    Front g' ∧ ∀ H, (∀ peh ∈ poorHands, peh.hand ≠ H) → (InNext g' H ↔ InNext g H ∨
      ∃ beh ∈ betterHands, beh.hand = H ∧
        (poorHands = [] ∨ ∃ peh ∈ poorHands, ¬ Apart peh.hand H)) := by
  have key := Loop.forEach_none (l := betterHands) (f := betterBody env rule poorHands)
    (I := fun done g' => Front g' ∧ g'.node.label = g.node.label ∧
      ∀ H, (∀ peh ∈ poorHands, peh.hand ≠ H) → (InNext g' H ↔ InNext g H ∨
        ∃ beh ∈ done, beh.hand = H ∧ (poorHands = [] ∨ ∃ peh ∈ poorHands, ¬ Apart peh.hand H)))
    ?_ ⟨hg, rfl, by simp⟩ hrun
  · exact ⟨key.1, key.2.2⟩
  rintro done beh rest g1 g2 - ⟨hg1, hlab, hnext⟩ hbody
  obtain ⟨hg2, hlab2, hin⟩ := betterBody_next hg1 (by rw [hlab]; exact hroot) hbody
  refine ⟨hg2, hlab2.trans hlab, fun H hH => ?_⟩
  rw [hin H hH, hnext H hH, or_assoc]
  simp only [List.mem_append, List.mem_singleton, or_and_right, exists_or, exists_eq_left,
    eq_comm (a := H)]

omit [Score α] in
/-- The loop over the weak hands of the root. -/
theorem rootPoorLoop_next {poorHands : List (EvalHand α)} (hg : Front g)
    (hrun : Loop.forEach rootPoorBody poorHands g = .ok (g', none)) :
    Front g' ∧ ∀ H, InNext g' H ↔ InNext g H ∨ ∃ peh ∈ poorHands, peh.hand = H := by
  refine Loop.forEach_none (l := poorHands) (f := rootPoorBody)
    (I := fun done g' => Front g' ∧ ∀ H, InNext g' H ↔ InNext g H ∨ ∃ peh ∈ done, peh.hand = H)
    ?_ ⟨hg, by simp⟩ hrun
  rintro done peh rest g1 g2 - ⟨hg1, hnext⟩ hbody
  obtain ⟨n, j, c, he, hc, hhand, -, -, hf, hsame⟩ := hg1.createChild peh
  simp only [rootPoorBody, he] at hbody
  split at hbody
  · cases hbody
  · cases hbody
    obtain ⟨hf', hin⟩ := hf.insert hc
    refine ⟨hf', fun H => ?_⟩
    rw [hin H, hsame H, hnext H, hhand, or_assoc]
    simp only [List.mem_append, List.mem_singleton, or_and_right, exists_or, exists_eq_left,
      eq_comm (a := H)]

/-- The pass puts no hand with cards into the frontier. -/
theorem passChild_next (hg : Front g) {H : CardSet} (hne : H ≠ ∅) :
    InNext (passChild g) H ↔ InNext g H := by
  obtain ⟨n, j, c, he, hc, hhand, -, -, hf, hsame⟩ :=
    hg.createChild { EvalHand.new with tefda := g.node.label.hand.tefda }
  simp only [passChild, he]
  rw [(hf.insert hc).2 H, hsame H, hhand]
  exact or_iff_left hne

/-- **The frontier after the root.** If the search goes on, the frontier holds the children for all
weak hands, and those for the strong hands that share a card with a weak one, or for all of them
if no hand is weak. -/
theorem createChildren_root {ba : CardSet} (hleaf : s.node.children = [])
    (hroot : s.node.label.hand.hand = ∅)
    (hrun : createChildren env true true ba s = .ok (g, none)) {H : CardSet} (hne : H ≠ ∅) :
    InNext g H ↔ (∃ peh ∈ s.poorHands, peh.hand = H) ∨ ∃ beh ∈ s.betterHands, beh.hand = H ∧
      (s.poorHands = [] ∨ ∃ peh ∈ s.poorHands, ¬ Apart peh.hand H) := by
  have h0 : Front ⟨s.node, []⟩ := ⟨.of_leaf hleaf, by simp⟩
  have hnil : ¬ InNext (⟨s.node, []⟩ : Grow α) H := by simp [InNext]
  obtain ⟨⟨g1, e1⟩, hbetter, hrun⟩ := bind_ok hrun
  cases e1 with
  | some e => cases hrun
  | none =>
  obtain ⟨hf1, hin1⟩ := betterLoop_next h0 hroot hbetter
  simp only [Bool.not_true, Bool.false_eq_true, ↓reduceIte] at hrun
  obtain ⟨⟨g2, e2⟩, hpoor, hrun⟩ := bind_ok hrun
  cases e2 with
  | some e => cases hrun
  | none =>
  obtain ⟨hf2, hin2⟩ := rootPoorLoop_next hf1 hpoor
  have hg2 : InNext g H ↔ InNext g2 H := by
    cases hb : ba.empty with
    | true => simp only [hb, Bool.not_true, Bool.false_eq_true, ↓reduceIte, except_pure] at hrun
              cases hrun; rfl
    | false => simp only [hb, Bool.not_false, ↓reduceIte, except_pure] at hrun
               cases hrun; exact passChild_next hf2 hne
  rw [hg2, hin2 H, or_comm]
  by_cases hweak : ∃ peh ∈ s.poorHands, peh.hand = H
  · simp only [hweak, true_or]
  · rw [hin1 H fun peh hp heq => hweak ⟨peh, hp, heq⟩, or_iff_right hnil]

/-- The expansion of a root that the search goes on from. -/
theorem expand_root {ba : CardSet} {m m' : Mach} {n : EvalNode α} (hleaf : n.children = [])
    (hroot : n.label.hand.hand = ∅) {r : DaifugoRule} {hands : List CardSet}
    (henum : enumrateAvairableHands m.rule [] n.label.hand.tefda ba n.label.isKakumei =
      .ok (r, hands))
    (hrun : expand w env true true ba m n = .ok ((m', g), none)) :
    (∀ H ∈ hands, ∃ strong, env.Rates n.label.isKakumei H strong) ∧
    ∀ H ∈ hands, InNext g H ↔ env.Rates n.label.isKakumei H false ∨
      env.Rates n.label.isKakumei H true ∧ ((∀ P ∈ hands, ¬ env.Rates n.label.isKakumei P false) ∨
        ∃ P ∈ hands, env.Rates n.label.isKakumei P false ∧ ¬ Apart P H) := by
  have hne : ∀ H ∈ hands, H ≠ ∅ := by
    obtain ⟨hands', henum', -, hmem⟩ := enumrate_spec m.rule n.label.hand.tefda ba n.label.isKakumei
    cases henum.symm.trans henum'
    exact fun H hH => ((hmem H).mp hH).2.2.1
  simp only [expand, henum, except_ok_bind] at hrun
  cases hh : hands.isEmpty with
  | true => rw [hh, if_pos rfl] at hrun; cases hrun
  | false =>
  simp only [hh, Bool.false_eq_true, ↓reduceIte] at hrun
  obtain ⟨⟨s, e1⟩, hsort, hrun⟩ := bind_ok hrun
  cases e1 with
  | some e => cases hrun
  | none =>
  obtain ⟨⟨g1, e1⟩, hgrow, hrun⟩ := bind_ok hrun
  cases hrun
  have hs : SortedRoot env n.label.pos hands s := by
    refine Loop.forEach_none (l := hands) (I := fun done s => SortedRoot env n.label.pos done s)
      (fun done H rest s s' _ hs hb => hs.round hb) ?_ hsort
    exact ⟨rfl, hleaf, by simp, by simp, by simp⟩
  have hhand : s.node.label.hand.hand = ∅ := (congrArg Pos.hand hs.pos).trans hroot
  refine ⟨hs.rated, fun H hH => ?_⟩
  rw [createChildren_root hs.leaf hhand hgrow (hne H hH), hs.poor H,
    hs.exists_poor (Q := fun P => ¬ Apart P H), hs.poor_nil]
  refine or_congr (and_iff_right hH) ?_
  have hbetter : (∃ beh ∈ s.betterHands, beh.hand = H) ↔ env.Rates n.label.isKakumei H true :=
    (hs.better H).trans (and_iff_right hH)
  rw [← hbetter]
  constructor
  · rintro ⟨beh, hb, rfl, h⟩
    exact ⟨⟨beh, hb, rfl⟩, h⟩
  · rintro ⟨⟨beh, hb, rfl⟩, h⟩
    exact ⟨beh, hb, rfl, h⟩

/-! ## The first moves in the frontier -/

/-- The frontier holds the child of the root for the hand `H`, or a node below it. -/
def InFrontier (s : Search α) (H : CardSet) : Prop :=
  ∃ i d q, s.tree.label? [i] = some d ∧ d.hand.hand = H ∧ q ∈ s.nextNodes ∧ [i] <:+ q

/-- The strong hand `H` shares no card with a weak one, and there are weak ones. -/
structure DropsOut (env : SearchEnv α) (k : Bool) (hands : List CardSet) (H : CardSet) : Prop where
  strong : env.Rates k H true
  weak : ∃ P ∈ hands, env.Rates k P false
  apart : ∀ P ∈ hands, env.Rates k P false → Apart P H

/-- **When every first move is compared.** The search goes on from the root, where the enumeration
put `hands`. Each of them has its child in the next frontier exactly if none drops out. -/
theorem first_moves_compared_iff (w : World) (env : SearchEnv α) (ba deck : CardSet) (k : Bool)
    (m : Mach) {s : Search α} {hands : List CardSet}
    (henum : enumrateAvairableHands m.rule [] deck ba k = .ok (m.rule.setKakumei k, hands))
    (hrun : visit w env ba [] ⟨m, EvalNode.new deck k, []⟩ = .ok (s, none)) :
    (∀ H ∈ hands, InFrontier s H) ↔ ∀ H ∈ hands, ¬ DropsOut env k hands H := by
  obtain ⟨n, g, e, hn, hexp, htree, he, hnext⟩ := visit_expand hrun
  cases hn
  obtain rfl : e = none := Option.map_eq_none_iff.mp he.symm
  have hnext := hnext rfl
  have hiff : ∀ H, InFrontier s H ↔ InNext g H := by
    intro H
    have hlab : ∀ i, s.tree.label? [i] = (g.node.children[i]?).map Rose.label := by
      intro i
      rw [htree]; rfl
    have hmem : ∀ q, q ∈ s.nextNodes ↔ ∃ i ∈ g.next, q = [i] := by
      intro q
      rw [hnext, mem_insertAll]
      simp
    constructor
    · rintro ⟨i, d, q, hd, hH, hq, hs⟩
      obtain ⟨j, hj, rfl⟩ := (hmem q).mp hq
      obtain rfl : i = j := by simpa using hs.eq_of_length rfl
      rw [hlab, Option.map_eq_some_iff] at hd
      obtain ⟨c, hc, rfl⟩ := hd
      exact ⟨i, hj, c, hc, hH⟩
    · rintro ⟨i, hi, c, hc, hH⟩
      exact ⟨i, c.label, [i], by rw [hlab, hc]; rfl, hH, (hmem _).mpr ⟨i, hi, rfl⟩,
        List.suffix_refl _⟩
  obtain ⟨hrated, hroot⟩ := expand_root rfl rfl henum hexp
  refine forall₂_congr fun H hH => ?_
  rw [hiff, hroot H hH]
  obtain ⟨strong, hr⟩ := hrated H hH
  constructor
  · rintro (hw | ⟨-, hall | ⟨P, hP, hw, hmeet⟩⟩) hd
    · cases hw.unique hd.strong
    · obtain ⟨P, hP, hw⟩ := hd.weak
      exact hall P hP hw
    · exact hmeet (hd.apart P hP hw)
  · intro hd
    cases strong with
    | false => exact .inl hr
    | true =>
      refine .inr ⟨hr, ?_⟩
      by_contra hno
      push Not at hno
      exact hd ⟨hr, hno.1, hno.2⟩

theorem first_moves_compared_iff_three_four_joker :
    ∃ (s : Search ExtRat) (hands : List CardSet),
      enumrateAvairableHands ⟨.A, false⟩ [] (ofVector [⟨0⟩, ⟨5⟩, ⟨52⟩]) ∅ false =
        .ok (⟨.A, false⟩, hands) ∧
      visit stillWorld (searchEnv (turnOf (ofVector [⟨0⟩, ⟨5⟩, ⟨52⟩]) []) 18) ∅ []
        ⟨⟨⟨.A, false⟩, 1, 0, []⟩, EvalNode.new (ofVector [⟨0⟩, ⟨5⟩, ⟨52⟩]) false, []⟩ =
        .ok (s, none) ∧
      ((∀ H ∈ hands, InFrontier s H) ↔ ∀ H ∈ hands, ¬ DropsOut
        (searchEnv (turnOf (ofVector [⟨0⟩, ⟨5⟩, ⟨52⟩]) []) 18 : SearchEnv ExtRat) false hands
          H) := by
  have heval : ((visit (α := ExtRat) stillWorld
      (searchEnv (turnOf (ofVector [⟨0⟩, ⟨5⟩, ⟨52⟩]) []) 18) ∅ []
      ⟨⟨⟨.A, false⟩, 1, 0, []⟩, EvalNode.new (ofVector [⟨0⟩, ⟨5⟩, ⟨52⟩]) false, []⟩).map
      Prod.snd) = .ok none := by decide +kernel
  obtain ⟨⟨s, o⟩, hrun, rfl⟩ := map_ok heval
  obtain ⟨hands, henum, -⟩ := enumrate_spec ⟨.A, false⟩ (ofVector [⟨0⟩, ⟨5⟩, ⟨52⟩]) ∅ false
  exact ⟨s, hands, henum, hrun, first_moves_compared_iff _ _ _ _ _ _ henum hrun⟩

/-- A four and the joker against a single three: the joker is strong, the four is weak, and the
joker's child is not in the frontier. -/
theorem joker_drops_out :
    ∃ (s : Search ExtRat) (hands : List CardSet),
      enumrateAvairableHands ⟨.A, false⟩ [] (ofVector [⟨5⟩, ⟨52⟩]) (ofVector [⟨0⟩]) false =
        .ok (⟨.A, false⟩, hands) ∧
      visit stillWorld (searchEnv (turnOf (ofVector [⟨5⟩, ⟨52⟩]) [ofVector [⟨0⟩]]) 18)
        (ofVector [⟨0⟩]) []
        ⟨⟨⟨.A, false⟩, 1, 0, []⟩, EvalNode.new (ofVector [⟨5⟩, ⟨52⟩]) false, []⟩ = .ok (s, none) ∧
      ¬ ∀ H ∈ hands, InFrontier s H := by
  have heval : ((visit (α := ExtRat) stillWorld
      (searchEnv (turnOf (ofVector [⟨5⟩, ⟨52⟩]) [ofVector [⟨0⟩]]) 18) (ofVector [⟨0⟩]) []
      ⟨⟨⟨.A, false⟩, 1, 0, []⟩, EvalNode.new (ofVector [⟨5⟩, ⟨52⟩]) false, []⟩).map
      fun r => (r.2, r.1.nextNodes, r.1.tree.children.map fun c => c.label.hand.hand)) =
      .ok (none, [[1], [2]], [ofVector [⟨52⟩], ofVector [⟨5⟩], ∅]) := by decide +kernel
  obtain ⟨⟨s, o⟩, hrun, hres⟩ := map_ok heval
  simp only [Prod.mk.injEq] at hres
  obtain ⟨rfl, hnext, hhands⟩ := hres
  refine ⟨s, [ofVector [⟨5⟩], ofVector [⟨52⟩]], by decide +kernel, hrun, fun hall => ?_⟩
  obtain ⟨i, d, q, hd, hH, hq, hs⟩ := hall (ofVector [⟨52⟩]) (by simp)
  have hchild : (s.tree.children.map fun c => c.label.hand.hand)[i]? = some (ofVector [⟨52⟩]) := by
    obtain ⟨c, hc, rfl⟩ := Rose.label?_eq_some.mp hd
    have hc : s.tree.children[i]? = some c := hc
    rw [List.getElem?_map, hc, ← hH]
    rfl
  rw [hhands] at hchild
  rw [hnext] at hq
  simp only [List.mem_cons, List.not_mem_nil, or_false] at hq
  rcases hq with rfl | rfl
  · obtain rfl : i = 1 := by simpa using hs.eq_of_length rfl
    exact absurd hchild (by decide)
  · obtain rfl : i = 2 := by simpa using hs.eq_of_length rfl
    exact absurd hchild (by decide)

end

end SagePlayer

end Neof5
