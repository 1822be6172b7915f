import Neof5.RuleSpec
import Neof5.Sage.Order
import Neof5.Sage.Shape

/-!
# The look-ahead after a weak hand

After a weak hand the search wants a strong hand of as many cards that is stronger by two. The
source compares the strengths and changes the sign of the distance under the revolution, but not
the direction of the comparison. So a hand that is two ranks lower passes the test, and so does
every hand above it.

* `Answers`: what the test is for; `TooClose`: the hands that pass it under the revolution all the
  same.
* `ComesTo`: the state in which the loop over the strong hands comes to one of them. The loop is run
  at the root, at its children, and below a first hand that is no pass.
* `look_ahead_iff`: its child is created for an answer only, exactly if it is not too close in the
  reversed order.
-/

namespace Neof5

open CardSet

namespace SagePlayer

/-! ## The test -/

/-- `beh` is the lone joker or stronger by two, and has as many cards. -/
def Answers (k : Bool) (hand beh : CardSet) : Prop :=
  hand.size = beh.size ∧
    (beh = single Card.joker ∨ playStrength k hand + 2 ≤ playStrength k beh)

/-- Under the revolution `beh` is not stronger by two, and the test does not see it. -/
structure TooClose (hand beh : CardSet) : Prop where
  size : hand.size = beh.size
  notJoker : beh ≠ single Card.joker
  close : playStrength true beh < playStrength true hand + 2
  /-- on the lone joker only an ace or a two passes the test -/
  onJoker : hand = single Card.joker → playStrength true beh ≤ 1

theorem eq_single_joker_iff {s : CardSet} (h : s ≠ ∅) :
    s = single Card.joker ↔ s.lead.rank = 13 := by
  rw [← Card.isJoker_iff]
  refine ⟨?_, eq_single_joker h⟩
  rintro rfl
  rw [lead_single]
  rfl

theorem playStrength_rank {s : CardSet} (k : Bool) (h : s ≠ ∅) :
    playStrength k s =
      if s.lead.rank = 13 then 13 else if k then 12 - s.lead.rank else s.lead.rank := by
  rw [playStrength_eq h, Card.power]
  simp only [Card.isJoker_iff]

section

variable {hand beh : CardSet}

theorem tooClose_iff (hh : hand ≠ ∅) (hb : beh ≠ ∅) :
    TooClose hand beh ↔ hand.size = beh.size ∧ beh.lead.rank ≠ 13 ∧
      if hand.lead.rank = 13 then 11 ≤ beh.lead.rank
      else hand.lead.rank < beh.lead.rank + 2 := by
  have hle := hand.lead.rank_le
  have hle' := beh.lead.rank_le
  have hiff : TooClose hand beh ↔ hand.size = beh.size ∧ beh ≠ single Card.joker ∧
      playStrength true beh < playStrength true hand + 2 ∧
      (hand = single Card.joker → playStrength true beh ≤ 1) :=
    ⟨fun h => ⟨h.size, h.notJoker, h.close, h.onJoker⟩, fun h => ⟨h.1, h.2.1, h.2.2.1, h.2.2.2⟩⟩
  rw [hiff, Ne, eq_single_joker_iff hb, eq_single_joker_iff hh, playStrength_rank true hb,
    playStrength_rank true hh]
  refine and_congr_right fun _ => and_congr_right fun hjk => ?_
  rw [if_neg hjk, if_pos rfl]
  by_cases hj : hand.lead.rank = 13
  · simp only [hj, ↓reduceIte, true_implies]
    omega
  · simp only [hj, ↓reduceIte, false_implies, and_true]
    omega

/-- The test lets only answers pass, the hands apart that are too close in the reversed order. -/
theorem answers_iff {k : Bool} (hh : hand ≠ ∅) (hb : beh ≠ ∅) :
    ((hand.size = beh.size ∧ (hand.lead.getStrength : Int) + (if k then -2 else 2) ≤
        beh.lead.getStrength) → Answers k hand beh) ↔ ¬ (k = true ∧ TooClose hand beh) := by
  have hle := hand.lead.rank_le
  have hle' := beh.lead.rank_le
  rw [tooClose_iff hh hb, Answers, eq_single_joker_iff hb, playStrength_rank k hh,
    playStrength_rank k hb]
  simp only [Card.getStrength_eq, Nat.cast_add, Nat.cast_one]
  cases k with
  | false =>
    simp only [Bool.false_eq_true, ↓reduceIte, false_and, not_false_eq_true, iff_true]
    rintro ⟨hsize, hdist⟩
    refine ⟨hsize, ?_⟩
    split <;> split <;> omega
  | true =>
    simp only [↓reduceIte, true_and]
    split <;> split <;> omega

end

variable {α : Type} [Score α]

/-! ## Where the test is made -/

/-- The first half of `expand`: the hands at a node, sorted. -/
def sortHands (w : World) (env : SearchEnv α) (isRoot : Bool) (baCards : CardSet) (mach : Mach)
    (node : EvalNode α) : Except Fault (Scan α × Option Exit) := do
  let (rule, hands) ←
    enumrateAvairableHands mach.rule [] node.label.hand.tefda baCards node.label.isKakumei
  Loop.forEach (classifyBody w env isRoot) hands
    ⟨Mach.setKakumei { mach with rule } node.label.isKakumei, node, [], []⟩

/-- The search comes to the leaf `n` at `p`, where it looks at the strong hands. The expansion sorts
the hands into `s`, and the loop over the strong ones comes to `beh` with the children in `g`. -/
structure ComesTo (w : World) (env : SearchEnv α) (ba : CardSet) (t : Search α) (p : NodePtr)
    (n : EvalNode α) (s : Scan α) (beh : EvalHand α) (g : Grow α) : Prop where
  node : t.tree.get? p = some n
  leaf : n.children = []
  looks : lookAhead t.tree p = true
  sorted : sortHands w env p.isRoot ba t.mach n = .ok (s, none)
  reached : ∃ done rest, s.betterHands = done ++ beh :: rest ∧
    Loop.forEach (betterBody env s.mach.rule s.poorHands) done ⟨s.node, []⟩ = .ok (g, none)

section

variable {w : World} {env : SearchEnv α} {isRoot : Bool} {ba : CardSet} {t : Search α}
  {p : NodePtr} {n : EvalNode α} {s s' : Scan α} {beh : EvalHand α} {g : Grow α}

/-- The lists after the loop went through the hands `done`. -/
structure Listed (n : EvalNode α) (done : List CardSet) (s : Scan α) : Prop where
  pos : s.node.label.pos = n.label.pos
  children : s.node.children = n.children
  mem : ∀ H ∈ (s.betterHands ++ s.poorHands).map EvalHand.hand, H ∈ done
  distinct : ((s.betterHands ++ s.poorHands).map EvalHand.hand).Nodup

/-- A hand that does not end the search goes to one of the lists, or to none. -/
theorem judgeHand_none {eh : EvalHand α} (h : judgeHand w env isRoot eh s = .ok (s', none)) :
    s' = s ∨ sortHand w env eh s = (s', none) := by
  simp only [judgeHand] at h
  split at h
  · obtain ⟨chk, -, h⟩ := bind_ok h
    split at h
    · cases h
    · split at h
      · cases h; exact .inl rfl
      · exact .inr (Except.ok.inj h)
  · exact .inr (Except.ok.inj h)

/-- One round of the loop that sorts the hands. -/
theorem Listed.round {done : List CardSet} {H : CardSet} (h : Listed n done s) (hH : H ∉ done)
    (hrun : classifyBody w env isRoot H s = .ok (s', none)) : Listed n (done ++ [H]) s' := by
  obtain ⟨p1, -, hrun⟩ := bind_ok hrun
  rcases judgeHand_none hrun with rfl | hsort
  · exact ⟨h.pos, h.children, fun H' hH' => List.mem_append_left _ (h.mem H' hH'), h.distinct⟩
  rw [sortHand_in_time (by rw [hsort]; simp), Prod.mk.injEq] at hsort
  have hperm : ((s'.betterHands ++ s'.poorHands).map EvalHand.hand).Perm
      (H :: (s.betterHands ++ s.poorHands).map EvalHand.hand) := by
    rw [← hsort.1]
    cases env.isStrongHand p1 with
    | true => simp
    | false =>
      simp only [Bool.false_eq_true, ↓reduceIte, ← List.append_assoc]
      exact (List.perm_append_singleton _ _).map EvalHand.hand
  refine ⟨?_, ?_, fun H' hH' => ?_, hperm.nodup_iff.mpr (List.nodup_cons.mpr ⟨?_, h.distinct⟩)⟩
  · rw [← hsort.1]; exact h.pos
  · rw [← hsort.1]; exact h.children
  · rcases List.mem_cons.mp (hperm.mem_iff.mp hH') with rfl | hH'
    · simp
    · exact List.mem_append_left _ (h.mem H' hH')
  · exact fun hin => hH (h.mem H hin)

omit [Score α] in
/-- `createChild` adds a child with the hand only. -/
theorem mem_createChild {eh : EvalHand α} {c : EvalNode α}
    (hc : c ∈ (EvalNode.createChild n eh).1.children) :
    c ∈ n.children ∨ c.label.hand.hand = eh.hand := by
  rcases EvalNode.createChild_cases n eh with ⟨i, c', -, he⟩ | he
  · rw [he] at hc; exact .inl hc
  · rw [he, Rose.children_node, List.mem_append, List.mem_singleton] at hc
    rcases hc with hc | rfl
    · exact .inl hc
    · exact .inr rfl

omit [Score α] in
theorem poorBody_hands {rule : DaifugoRule} {i : Nat} {peh : EvalHand α}
    {out : Grow α × Option Exit} (h : poorBody rule beh i peh g = .ok out) {c : EvalNode α}
    (hc : c ∈ out.1.node.children) : c ∈ g.node.children ∨ c.label.hand.hand = peh.hand := by
  unfold poorBody at h
  split at h
  · cases h; exact .inl hc
  · simp only at h
    split at h
    · obtain ⟨chk, -, h⟩ := bind_ok h
      split at h <;> cases h <;> exact mem_createChild hc
    · cases h; exact mem_createChild hc

/-- A round of the loop over the strong hands adds children for the strong hand and for weak ones
only. -/
theorem betterBody_hands {rule : DaifugoRule} {poorHands : List (EvalHand α)} {g' : Grow α}
    (h : betterBody env rule poorHands beh g = .ok (g', none)) {c : EvalNode α}
    (hc : c ∈ g'.node.children) :
    c ∈ g.node.children ∨ ∃ eh ∈ beh :: poorHands, c.label.hand.hand = eh.hand := by
  simp only [betterBody] at h
  obtain ⟨b, -, h⟩ := bind_ok h
  split at h
  · cases h; exact .inl hc
  split at h
  · cases h
    rcases mem_createChild hc with hc | hc
    · exact .inl hc
    · exact .inr ⟨beh, by simp, hc⟩
  · have hpoor := Loop.forEach_none (l := poorHands)
      (I := fun done g' => ∀ c ∈ g'.node.children,
        c ∈ (EvalNode.createChild g.node beh).1.children ∨
          ∃ eh ∈ done, c.label.hand.hand = eh.hand)
      (fun done peh rest g1 g2 _ hi hb c hc => by
        rcases poorBody_hands hb hc with hc | hc
        · rcases hi c hc with hc | ⟨eh, he, hh⟩
          · exact .inl hc
          · exact .inr ⟨eh, by simp [he], hh⟩
        · exact .inr ⟨peh, by simp, hc⟩)
      (fun c hc => .inl hc) h c hc
    rcases hpoor with hc | ⟨eh, he, hh⟩
    · rcases mem_createChild hc with hc | hc
      · exact .inl hc
      · exact .inr ⟨beh, by simp, hc⟩
    · exact .inr ⟨eh, by simp [he], hh⟩

/-- A strong hand that passes the test gets its child. -/
theorem betterBody_creates (rule : DaifugoRule) (poorHands : List (EvalHand α))
    (hd : g.node.DistinctHands) (hfol : cannotFollow env g.node.label beh = .ok false) :
    ∃ g' e, betterBody env rule poorHands beh g = .ok (g', e) ∧
      ∃ c ∈ g'.node.children, c.label.hand.hand = beh.hand := by
  obtain ⟨n', i, c, he, hc, hhand, -⟩ := EvalNode.createChild_distinct hd beh
  have hin : c ∈ n'.children := List.mem_of_getElem? hc
  simp only [betterBody, hfol, except_ok_bind, Bool.false_eq_true, ↓reduceIte, he]
  cases hp : poorHands.isEmpty with
  | true => exact ⟨⟨n', g.next.insert i⟩, none, by simp, c, hin, hhand⟩
  | false =>
    obtain ⟨⟨g', e⟩, hrun, -⟩ := Loop.forEach_total' (f := poorBody rule beh i) (l := poorHands)
      (I := fun _ => True) (Q := fun _ _ => True) (s := (⟨n', g.next⟩ : Grow α))
      (fun peh g _ _ => by
        unfold poorBody
        obtain ⟨chk, hchk⟩ := canAgari_total rule (EvalNode.createChild g.node peh).2.2.hand.hand
        simp only [hchk, except_ok_bind]
        split
        · exact ⟨(_, none), rfl, trivial⟩
        · split
          · split
            · exact ⟨(_, some _), rfl, trivial⟩
            · exact ⟨(_, none), rfl, trivial⟩
          · exact ⟨(_, none), rfl, trivial⟩) trivial
    have hb := Loop.forEach_ok (I := fun g' : Grow α => Built n' g'.node)
      (fun _ _ _ hb hrun => hb.trans (poorBody_built hrun)) .refl hrun
    exact ⟨g', e, by simpa using hrun, c, hb.keeps.2.1.subset hin, hhand⟩

/-- Where the loop comes to a strong hand, that hand has no child yet. -/
theorem ComesTo.fresh (h : ComesTo w env ba t p n s beh g) :
    g.node.label.pos = n.label.pos ∧ beh.hand ≠ ∅ ∧ g.node.DistinctHands ∧
      ∀ c ∈ g.node.children, c.label.hand.hand ≠ beh.hand := by
  obtain ⟨⟨rule, hands⟩, henum, hsort⟩ := bind_ok h.sorted
  obtain ⟨hands', henum', hnd, hmem⟩ :=
    enumrate_spec t.mach.rule n.label.hand.tefda ba n.label.isKakumei
  cases henum.symm.trans henum'
  have hlist : Listed n hands s := Loop.forEach_none (l := hands) (I := Listed n)
    (fun done H rest s s' hxs hs hb => hs.round (fun hin => by
      rw [hxs, List.nodup_append] at hnd
      exact hnd.2.2 H hin H (by simp) rfl) hb) ⟨rfl, rfl, by simp, by simp⟩ hsort
  obtain ⟨done, rest, hbetter, hloop⟩ := h.reached
  have hbuilt := Loop.forEach_ok (I := fun g' : Grow α => Built s.node g'.node)
    (fun _ _ _ hb hrun => hb.trans (betterBody_built hrun)) .refl hloop
  have hleaf : s.node.children = [] := hlist.children.trans h.leaf
  refine ⟨hbuilt.keeps.1.trans hlist.pos, ?_, hbuilt.keeps.2.2 (.of_leaf hleaf), fun c hc heq => ?_⟩
  · exact ((hmem beh.hand).mp (hlist.mem _ (by simp [hbetter]))).2.2.1
  · have hkids := Loop.forEach_none (l := done)
      (I := fun done g' => ∀ c ∈ g'.node.children,
        ∃ eh ∈ done ++ s.poorHands, c.label.hand.hand = eh.hand)
      (fun done beh rest g1 g2 _ hi hb c hc => by
        rcases betterBody_hands hb hc with hc | ⟨eh, he, hh⟩
        · obtain ⟨eh, he, hh⟩ := hi c hc
          exact ⟨eh, by simp only [List.mem_append] at he ⊢; tauto, hh⟩
        · exact ⟨eh, by simp only [List.mem_append, List.mem_cons] at he ⊢; tauto, hh⟩)
      (by simp [hleaf]) hloop c hc
    obtain ⟨eh, he, hh⟩ := hkids
    have hnd := hlist.distinct
    rw [hbetter, List.append_assoc, List.cons_append, List.map_append, List.map_cons,
      List.nodup_middle, List.nodup_cons] at hnd
    refine hnd.1 ?_
    rw [← heq, hh, ← List.map_append]
    refine List.mem_map_of_mem ?_
    simp only [List.mem_append] at he ⊢
    tauto

/-- **The look-ahead.** At a node with a weak hand the loop over the strong hands comes to `beh`. A
child for it is created only if it answers the node's hand, exactly if it is not too close in the
reversed order. -/
theorem look_ahead_iff (h : ComesTo w env ba t p n s beh g) (hne : n.label.hand.hand ≠ ∅)
    (hweak : env.isStrongHand n.label.hand.p1 = false) :
    (∀ g' e, betterBody env s.mach.rule s.poorHands beh g = .ok (g', e) →
      (∃ c ∈ g'.node.children, c.label.hand.hand = beh.hand) →
      Answers n.label.isKakumei n.label.hand.hand beh.hand) ↔
    ¬ (n.label.isKakumei = true ∧ TooClose n.label.hand.hand beh.hand) := by
  obtain ⟨hpos, hbeh, hd, hfresh⟩ := h.fresh
  rw [← answers_iff hne hbeh]
  obtain ⟨b, hb, hfol⟩ := cannotFollow_eq env g.node.label hbeh
  -- The test that is left for a weak hand.
  have htest : b = false ↔ n.label.hand.hand.size = beh.hand.size ∧
      (n.label.hand.hand.lead.getStrength : Int) + (if n.label.isKakumei then -2 else 2) ≤
        beh.hand.lead.getStrength := by
    rw [hfol, hpos]
    simp only [Follows, NodeData.pos, hne, hweak, Bool.false_eq_true, false_or]
    exact Iff.rfl
  rw [← htest]
  cases b with
  | true =>
    refine iff_of_true (fun g' e hrun hchild => ?_) (fun hb => by cases hb)
    obtain ⟨c, hc, hh⟩ := hchild
    simp only [betterBody, hb, except_ok_bind, ↓reduceIte, except_pure] at hrun
    cases hrun
    exact (hfresh c hc hh).elim
  | false =>
    obtain ⟨g', e, hrun, hc⟩ := betterBody_creates s.mach.rule s.poorHands hd hb
    exact ⟨fun hall _ => hall g' e hrun hc, fun hans _ _ _ _ => hans rfl⟩

end

/-- The turn under the revolution of a player with `deck` who leads, with `yama` out of the game. -/
def revolutionTurn (deck yama : CardSet) : DaifugoContext :=
  { turnOf deck [] with isKakumei := true, yama }

/-- A four, a five and a six under the revolution, with the aces gone: in the second level the
expansion of the weak five comes to the strong four. -/
private theorem four_after_five (deck : CardSet) (hdeck : deck = ofVector [⟨4⟩, ⟨8⟩, ⟨12⟩])
    (yama : CardSet) (hyama : yama = ofVector [⟨44⟩, ⟨45⟩, ⟨46⟩, ⟨47⟩]) :
    ∃ (s1 : Search ExtRat) (n : EvalNode ExtRat) (s : Scan ExtRat) (beh : EvalHand ExtRat)
      (g : Grow ExtRat),
      visit stillWorld (searchEnv (revolutionTurn deck yama) 18) ∅ []
        ⟨⟨⟨.A, false⟩, 1, 0, []⟩, EvalNode.new deck true, []⟩ = .ok (s1, none) ∧
      s1.nextNodes = [[1], [2]] ∧ s1.tree.get? [1] = some n ∧
      ComesTo stillWorld (searchEnv (revolutionTurn deck yama) 18) ∅ s1 [1] n s beh g ∧
      n.label.hand.hand = ofVector [⟨8⟩] ∧ n.label.isKakumei = true ∧
      (searchEnv (revolutionTurn deck yama) 18).isStrongHand n.label.hand.p1 = false ∧
      beh.hand = ofVector [⟨4⟩] := by
  have heval : ((visit (α := ExtRat) stillWorld (searchEnv (revolutionTurn deck yama) 18) ∅ []
      ⟨⟨⟨.A, false⟩, 1, 0, []⟩, EvalNode.new deck true, []⟩) >>= fun r =>
        (sortHands stillWorld (searchEnv (revolutionTurn deck yama) 18) (NodePtr.isRoot [1]) ∅
          r.1.mach ((r.1.tree.get? [1]).getD r.1.tree)).map fun q =>
            decide (r.2 = none ∧ r.1.nextNodes = [[1], [2]] ∧ q.2 = none ∧
              (r.1.tree.get? [1]).map (fun n => (n.children.length, n.label.hand.hand,
                n.label.isKakumei,
                (searchEnv (revolutionTurn deck yama) 18).isStrongHand n.label.hand.p1)) =
                some (0, ofVector [⟨8⟩], true, false) ∧
              q.1.betterHands.map EvalHand.hand = [ofVector [⟨4⟩]])) = .ok true := by
    subst hdeck hyama
    decide +kernel
  obtain ⟨⟨s1, o⟩, hrun, heval⟩ := bind_ok heval
  obtain ⟨⟨s, o'⟩, hsort, heval⟩ := map_ok heval
  obtain ⟨rfl, hnext, rfl, hnode, hbetter⟩ := of_decide_eq_true heval
  obtain ⟨n, hn, hnode⟩ := Option.map_eq_some_iff.mp hnode
  simp only [Prod.mk.injEq, List.length_eq_zero_iff] at hnode
  obtain ⟨hleaf, hhand, hk, hweak⟩ := hnode
  obtain ⟨beh, hbeh, hbhand⟩ := List.map_eq_singleton_iff.mp hbetter
  simp only [hn, Option.getD_some] at hsort
  exact ⟨s1, n, s, beh, ⟨s.node, []⟩, hrun, hnext, hn,
    ⟨hn, hleaf, rfl, hsort, [], [], hbeh, rfl⟩, hhand, hk, hweak, hbhand⟩

theorem look_ahead_iff_four_after_five :
    ∃ (s1 : Search ExtRat) (n : EvalNode ExtRat) (s : Scan ExtRat) (beh : EvalHand ExtRat)
      (g : Grow ExtRat), ∃ env : SearchEnv ExtRat,
      ComesTo stillWorld env ∅ s1 [1] n s beh g ∧ n.label.hand.hand ≠ ∅ ∧
      env.isStrongHand n.label.hand.p1 = false ∧
      ((∀ g' e, betterBody env s.mach.rule s.poorHands beh g = .ok (g', e) →
        (∃ c ∈ g'.node.children, c.label.hand.hand = beh.hand) →
        Answers n.label.isKakumei n.label.hand.hand beh.hand) ↔
      ¬ (n.label.isKakumei = true ∧ TooClose n.label.hand.hand beh.hand)) := by
  obtain ⟨s1, n, s, beh, g, -, -, -, hcomes, hhand, -, hweak, -⟩ := four_after_five _ rfl _ rfl
  have hne : n.label.hand.hand ≠ ∅ := by rw [hhand]; decide
  exact ⟨s1, n, s, beh, g, _, hcomes, hne, hweak, look_ahead_iff hcomes hne hweak⟩

/-- The four gets a child below the five: it is lower by one rank only. -/
theorem four_not_two_below_five :
    ∃ (s1 : Search ExtRat) (n : EvalNode ExtRat) (s : Scan ExtRat) (beh : EvalHand ExtRat)
      (g : Grow ExtRat), ∃ env : SearchEnv ExtRat,
      env = searchEnv (revolutionTurn (ofVector [⟨4⟩, ⟨8⟩, ⟨12⟩])
        (ofVector [⟨44⟩, ⟨45⟩, ⟨46⟩, ⟨47⟩])) 18 ∧
      visit stillWorld env ∅ [] ⟨⟨⟨.A, false⟩, 1, 0, []⟩,
        EvalNode.new (ofVector [⟨4⟩, ⟨8⟩, ⟨12⟩]) true, []⟩ = .ok (s1, none) ∧
      s1.nextNodes = [[1], [2]] ∧ s1.tree.get? [1] = some n ∧
      ComesTo stillWorld env ∅ s1 [1] n s beh g ∧
      n.label.hand.hand = ofVector [⟨8⟩] ∧ env.isStrongHand n.label.hand.p1 = false ∧
      beh.hand = ofVector [⟨4⟩] ∧
      ¬ ∀ g' e, betterBody env s.mach.rule s.poorHands beh g = .ok (g', e) →
        (∃ c ∈ g'.node.children, c.label.hand.hand = beh.hand) →
        Answers n.label.isKakumei n.label.hand.hand beh.hand := by
  obtain ⟨s1, n, s, beh, g, hrun, hnext, hn, hcomes, hhand, hk, hweak, hbeh⟩ :=
    four_after_five _ rfl _ rfl
  refine ⟨s1, n, s, beh, g, _, rfl, hrun, hnext, hn, hcomes, hhand, hweak, hbeh, fun hall => ?_⟩
  obtain ⟨hpos, hb, hd, -⟩ := hcomes.fresh
  obtain ⟨b, hcan, hfol⟩ := cannotFollow_eq (searchEnv (revolutionTurn (ofVector [⟨4⟩, ⟨8⟩, ⟨12⟩])
    (ofVector [⟨44⟩, ⟨45⟩, ⟨46⟩, ⟨47⟩])) 18) g.node.label hb
  have hpass : b = false := by
    rw [hfol, hpos, Follows]
    refine .inr (.inr ?_)
    simp only [NodeData.pos, hhand, hk, hbeh]
    decide
  obtain ⟨g', e, hbody, hc⟩ := betterBody_creates s.mach.rule s.poorHands hd (hpass ▸ hcan)
  have hans := hall g' e hbody hc
  rw [hk, hhand, hbeh] at hans
  exact absurd hans.2 (by decide)

end SagePlayer

end Neof5
