import Neof5.Sage.Turn

/-!
# Finishing with a forbidden hand (`canAgari`)

The rule of class B forbids to finish with the lone joker, or with a two (a three under the
revolution). The search asks `canAgari` where it finds a finishing hand, but then keeps the hand
among the hands of the root, and a hand of the plan is replayed without asking again.

`ForbiddenFinish` names the turns on which this shows. If the whole deck is one hand that may be
put on the table, it is the only one (`eq_of_playable`); so the root has this child besides the
pass, and the search returns it (`thinkRecursive_whole`).
-/

namespace Neof5

open CardSet

namespace SagePlayer

variable {α : Type} [Score α]

/-- The turns on which the player is led to finish although the rule forbids it: the whole deck
may be put on the table, and it is the next hand of the plan or there is no plan to follow. -/
structure ForbiddenFinish (sp : SagePlayer α) (ctx : DaifugoContext) : Prop where
  playable : Playable ⟨.B, ctx.isKakumei⟩ ctx.baLast ctx.deck
  forbidden : DaifugoRule.canAgari ⟨.B, ctx.isKakumei⟩ ctx.deck ≠ .ok .ok
  chosen : sp.savedHandsTree.getLast? = some ctx.deck ∨
    (∀ h, ¬ Replays sp ctx h) ∧ ctx.baLast.size ≤ 3

/-- If a deck may be put on the table as a whole, no other part of it may. -/
theorem eq_of_playable {r : DaifugoRule} {ba deck hand : CardSet} (hb : ba ≠ ∅)
    (hd : Playable r ba deck) (hh : Playable r ba hand) (hs : hand ⊆ deck) : hand = deck := by
  have h1 := ((canPut_ok_iff hd.1 hb).mp hd.2).2.2.1
  have h2 := ((canPut_ok_iff hh.1 hb).mp hh.2).2.2.1
  exact eq_of_subset_of_size_le hs (by omega)

section

variable {env : SearchEnv α} {w : World} {m : Mach} {n : EvalNode α} {ba : CardSet}

/-- The enumeration at a node whose cards are one hand. -/
theorem enumrate_whole {rule : DaifugoRule} {tefda : CardSet} {k : Bool} (hb : ba ≠ ∅)
    (h3 : ba.size ≤ 3) (hput : Playable (rule.setKakumei k) ba tefda) :
    enumrateAvairableHands rule [] tefda ba k = .ok (rule.setKakumei k, [tefda]) := by
  obtain ⟨hands, henum, hnd, hmem⟩ := enumrate_spec rule tefda ba k
  have hall : ∀ H, H ∈ hands ↔ H = tefda := by
    intro H
    rw [hmem H]
    refine ⟨fun h => eq_of_playable hb hput h.2.2 h.2.1, ?_⟩
    rintro rfl
    exact ⟨h3, CardSet.subset_refl _, hput⟩
  have hperm : hands.Perm [tefda] :=
    (List.perm_ext_iff_of_nodup hnd (List.nodup_singleton _)).mpr fun H => by
      rw [hall H, List.mem_singleton]
  rw [henum, List.perm_singleton.mp hperm]

/-- The root's only hand is forbidden to finish with, so it goes to one of the two lists. -/
theorem classify_whole (hev : env.Evaluates) {tefda : CardSet} (hne : tefda ≠ ∅)
    (htef : n.label.hand.tefda = tefda) (hno : m.rule.canAgari tefda ≠ .ok .ok)
    (htime : ¬ env.timelimit < w.clock m.ticks) :
    ∃ s eh, Loop.forEach (classifyBody w env true) [tefda] ⟨m, n, [], []⟩ = .ok (s, none) ∧
      s.node.children = n.children ∧ s.node.label.hand.hand = n.label.hand.hand ∧
      eh.hand = tefda ∧ eh.tefda = ∅ ∧
      (s.betterHands = [eh] ∧ s.poorHands = [] ∨ s.betterHands = [] ∧ s.poorHands = [eh]) := by
  obtain ⟨p1, hp1⟩ := hev tefda n.label.isKakumei hne
  obtain ⟨chk, hchk⟩ := canAgari_total m.rule tefda
  have hbad : chk ≠ .ok := by rintro rfl; exact hno hchk
  have hgone : tefda \ tefda = ∅ := by ext c; simp
  simp only [Loop.forEach, classifyBody, htef, hp1, judgeHand, hgone, except_ok_bind, empty_empty,
    Bool.true_or, Bool.true_and, ↓reduceIte, hchk, if_neg hbad, Bool.not_true, Bool.false_eq_true,
    except_pure, sortHand, Mach.time, if_neg htime]
  cases env.isStrongHand p1 with
  | true => exact ⟨_, ⟨tefda, ∅, p1, 0⟩, rfl, rfl, rfl, rfl, rfl, .inl ⟨rfl, rfl⟩⟩
  | false => exact ⟨_, ⟨tefda, ∅, p1, 0⟩, rfl, rfl, rfl, rfl, rfl, .inr ⟨rfl, rfl⟩⟩

/-- The pass becomes the second child of a node with one child. -/
theorem passChild_second {d : NodeData α} {eh : EvalHand α} (hne : eh.hand ≠ ∅) :
    passChild ⟨.node d [.node (EvalNode.childData d eh) []], [].insert 0⟩ =
      ⟨.node d [.node (EvalNode.childData d eh) [],
        .node (EvalNode.childData d { EvalHand.new with tefda := d.hand.tefda }) []], [1, 0]⟩ := by
  have hfind : List.findIdx?
      (fun c : EvalNode α => c.label.hand.hand == (EvalHand.new (α := α)).hand)
      [.node (EvalNode.childData d eh) []] = none := by
    simpa [EvalNode.childData, EvalHand.new] using hne
  simp only [passChild, EvalNode.createChild, Rose.label_node, Rose.children_node, hfind]
  rfl

/-- The children of the root with one hand that uses up the cards: the child of a weak hand is
returned, and that of a strong hand goes to the next frontier with the pass. -/
theorem createChildren_whole (env : SearchEnv α) {s : Scan α} {eh : EvalHand α}
    (hleaf : s.node.children = []) (hroot : s.node.label.hand.hand = ∅) (hne : eh.hand ≠ ∅)
    (hgone : eh.tefda = ∅) (hb : ba ≠ ∅)
    (hs : s.betterHands = [eh] ∧ s.poorHands = [] ∨ s.betterHands = [] ∧ s.poorHands = [eh]) :
    ∃ g e c, createChildren env true true ba s = .ok (g, e) ∧ g.node.children[0]? = some c ∧
      c.label.hand.hand = eh.hand ∧ c.label.hand.tefda = ∅ ∧
      (e = some (.child 0) ∨ e = none ∧ g.next = [1, 0]) := by
  have htef : (EvalNode.childData s.node.label eh).hand.tefda = ∅ := by
    show eh.tefda \ _ = ∅
    rw [hgone]; ext c; simp
  rcases hs with ⟨hbet, hpoor⟩ | ⟨hbet, hpoor⟩
  · have hfol : cannotFollow env s.node.label eh = .ok false := by simp [cannotFollow, hroot]
    simp only [createChildren, betterChildren, ↓reduceIte, hbet, hpoor, Loop.forEach, betterBody,
      hfol, except_ok_bind, Bool.false_eq_true, EvalNode.createChild_leaf hleaf, List.isEmpty_nil,
      except_pure, Bool.not_true, empty_eq_false_iff.mpr hb, Bool.not_false]
    rw [passChild_second hne]
    exact ⟨_, none, .node (EvalNode.childData s.node.label eh) [], rfl, rfl, rfl, htef,
      .inr ⟨rfl, rfl⟩⟩
  · simp only [createChildren, betterChildren, ↓reduceIte, hbet, hpoor, Loop.forEach,
      except_ok_bind, Bool.not_true, Bool.false_eq_true, rootPoorBody,
      EvalNode.createChild_leaf hleaf, htef, empty_empty, except_pure]
    exact ⟨_, _, .node (EvalNode.childData s.node.label eh) [], rfl, rfl, rfl, htef, .inl rfl⟩

/-- The expansion of such a root. -/
theorem expand_whole (hev : env.Evaluates) (hleaf : n.children = []) (hroot : n.label.hand.hand = ∅)
    (hb : ba ≠ ∅) (h3 : ba.size ≤ 3)
    (hput : Playable (m.rule.setKakumei n.label.isKakumei) ba n.label.hand.tefda)
    (hno : (m.rule.setKakumei n.label.isKakumei).canAgari n.label.hand.tefda ≠ .ok .ok)
    (htime : ¬ env.timelimit < w.clock m.ticks) :
    ∃ m' g e c, expand w env true true ba m n = .ok ((m', g), e) ∧ g.node.children[0]? = some c ∧
      c.label.hand.hand = n.label.hand.tefda ∧ c.label.hand.tefda = ∅ ∧
      (e = some (.child 0) ∨ e = none ∧ g.next = [1, 0]) := by
  obtain ⟨s, eh, hsort, hchild, hhand, hall, hgone, hlists⟩ := classify_whole
    (m := Mach.setKakumei { m with rule := m.rule.setKakumei n.label.isKakumei } n.label.isKakumei)
    hev hput.1 rfl hno htime
  obtain ⟨g, e, c, hrun, hc⟩ := createChildren_whole env (hchild.trans hleaf)
    (hhand.trans hroot) (hall ▸ hput.1) hgone hb hlists
  rw [hall] at hc
  refine ⟨s.mach, g, e, c, ?_, hc⟩
  simp [expand, enumrate_whole hb h3 hput, hsort, hrun]

/-- The expansion of a node without hand cards ends the search with the node. -/
theorem expand_done (w : World) (env : SearchEnv α) (isRoot look : Bool) (ba : CardSet)
    (htef : n.label.hand.tefda = ∅) :
    ∃ m', expand w env isRoot look ba m n = .ok ((m', ⟨n, []⟩), some .node) := by
  have henum := (enumrate_nil_iff m.rule ∅ ba n.label.isKakumei).mpr fun H hs hp => by
    obtain ⟨c, hc⟩ := exists_mem_of_ne hp.1
    exact (not_mem_empty c (subset_iff.mp hs c hc)).elim
  refine ⟨{ m with rule := m.rule.setKakumei n.label.isKakumei }, ?_⟩
  simp [expand, htef, henum]

/-- The search returns with the first node of the frontier. -/
theorem thinkRecursive_first {fuel d : Nat} {nodes rest : List NodePtr} {p : NodePtr}
    {tree : EvalNode α} {s : Search α} {r : Option NodePtr} (hord : w.order d nodes = p :: rest)
    (hv : visit w env ba p ⟨m, tree, []⟩ = .ok (s, some r)) :
    thinkRecursive w env (fuel + 1) d ba nodes m tree = .ok (s.mach, s.tree, r) := by
  simp [thinkRecursive, hord, Loop.forEach, hv]

/-- The search goes on after a level of one node. -/
theorem thinkRecursive_single {fuel d : Nat} {nodes : List NodePtr} {p : NodePtr}
    {tree : EvalNode α} {s : Search α} (hord : w.order d nodes = [p])
    (hv : visit w env ba p ⟨m, tree, []⟩ = .ok (s, none)) (hne : s.nextNodes ≠ []) :
    thinkRecursive w env (fuel + 1) d ba nodes m tree =
      thinkRecursive w env fuel (d + 1) ∅ s.nextNodes s.mach s.tree := by
  simp [thinkRecursive, hord, Loop.forEach, hv, hne]

/-- A search that starts so returns the child with the whole deck. -/
theorem thinkRecursive_whole (hev : env.Evaluates) {deck : CardSet} {k : Bool} (hb : ba ≠ ∅)
    (h3 : ba.size ≤ 3) (hput : Playable ⟨m.rule.cls, k⟩ ba deck)
    (hno : DaifugoRule.canAgari ⟨m.rule.cls, k⟩ deck ≠ .ok .ok)
    (htime : ¬ env.timelimit < stillWorld.clock m.ticks) (fuel : Nat) :
    ∃ m' tree d, thinkRecursive stillWorld env (fuel + 2) 0 ba [[]] m (EvalNode.new deck k) =
      .ok (m', tree, some [0]) ∧ tree.label? [0] = some d ∧ d.hand.hand = deck := by
  obtain ⟨m1, g, e, c, hexp, hc, hhand, htef, he⟩ := expand_whole (w := stillWorld) (m := m)
    (n := EvalNode.new deck k) hev rfl rfl hb h3 hput hno htime
  have hget : g.node.get? [0] = some c := hc
  have hvisit : visit stillWorld env ba [] ⟨m, EvalNode.new deck k, []⟩ =
      .ok (match e with
        | some e => (⟨m1, g.node, []⟩, some (e.ptr []))
        | none => (⟨m1, g.node, g.next.foldl (fun ns i => ns.insert [i]) []⟩, none)) := by
    have hexp : expand stillWorld env (NodePtr.isRoot [])
        (lookAhead (EvalNode.new (α := α) deck k) []) ba m (EvalNode.new deck k) =
        .ok ((m1, g), e) := hexp
    simp only [visit, Rose.get?_nil, hexp, except_ok_bind, Rose.modify]
    cases e <;> rfl
  rcases he with rfl | ⟨rfl, hnext⟩
  · exact ⟨m1, g.node, c.label, thinkRecursive_first rfl hvisit, Rose.label?_of_get? hget, hhand⟩
  · -- The next frontier holds the child and the pass, in this order.
    have hfront : [1, 0].foldl (fun ns i => ns.insert [i]) ([] : List NodePtr) = [[0], [1]] := rfl
    simp only [hnext, hfront] at hvisit
    obtain ⟨m2, hdone⟩ := expand_done (m := m1) stillWorld env (NodePtr.isRoot [0])
      (lookAhead g.node [0]) ∅ htef
    have hvisit1 : visit stillWorld env ∅ [0] ⟨m1, g.node, []⟩ =
        .ok (⟨m2, g.node.modify [0] fun _ => c, []⟩, some (some [0])) := by
      simp [visit, hget, hdone, Exit.ptr]
    refine ⟨m2, g.node.modify [0] fun _ => c, c.label, ?_, ?_, hhand⟩
    · rw [thinkRecursive_single rfl hvisit (by simp)]
      exact thinkRecursive_first rfl hvisit1
    · exact Rose.label?_modify_self hget c

end

/-- In a world where the clock stands still, `think2` returns the whole deck on such a turn. -/
theorem think2_whole (sp : SagePlayer α) {ctx : DaifugoContext} {ba : CardSet} (hb : ba ≠ ∅)
    (h3 : ba.size ≤ 3) (hput : Playable ⟨sp.mach.rule.cls, ctx.isKakumei⟩ ba ctx.deck)
    (hno : DaifugoRule.canAgari ⟨sp.mach.rule.cls, ctx.isKakumei⟩ ctx.deck ≠ .ok .ok) :
    ∃ sp', think2 stillWorld sp ctx ba = .ok (ctx.deck, sp') := by
  obtain ⟨m', tree, d, hrun, hd, hhand⟩ := thinkRecursive_whole
    (m := (sp.mach.time stillWorld).2) (searchEnv_evaluates (α := α) ctx (0 + thinkTimeLimit)) hb h3
    hput hno (by simp [searchEnv, stillWorld, thinkTimeLimit]) ctx.deck.size
  have hsearch : search stillWorld ctx ba sp.mach = .ok (m', tree, some [0]) := hrun
  obtain ⟨s, r, hspec, hret⟩ := search_spec (α := α) stillWorld ctx ba sp.mach
  cases hsearch.symm.trans hspec
  obtain ⟨i, e, rest, -, hpath, -, hfound⟩ := found_line hret.tree stillWorld { sp with
    handPotentialMax := calcHandPotentialMax (appearsCards ctx)
    notappearsCards := allCards \ appearsCards ctx
    mach := s.mach } (q := [0]) (by simp) hd
  have hdeck : e.hand.hand = ctx.deck := by
    rw [pathHands_cons hd] at hpath
    rw [← hhand]
    exact (List.cons.inj hpath).1.symm
  rw [hdeck] at hfound
  simp only [think2, hsearch, except_ok_bind, hfound]
  exact ⟨_, rfl⟩

/-- **Finishing.** The player of class B reached any state, and the table is not empty. In every
world its turn ends without a forbidden finish exactly if `ForbiddenFinish` does not hold of the
state and the turn. -/
theorem finish_allowed_iff {sp : SagePlayer α} {ctx : DaifugoContext} (hr : Reach .B sp)
    (hba : ctx.baLast ≠ ∅) :
    (∀ w hand sp', think w sp ctx = .ok (hand, sp') → hand ≠ ∅ → hand = ctx.deck →
      DaifugoRule.canAgari ⟨.B, ctx.isKakumei⟩ hand = .ok .ok) ↔ ¬ ForbiddenFinish sp ctx := by
  have hcls := hr.inv.rule
  constructor
  · intro hall hff
    have hbad : ∀ w sp', think w sp ctx ≠ .ok (ctx.deck, sp') := fun w sp' hrun =>
      hff.forbidden (hall w _ sp' hrun hff.playable.1 rfl)
    rcases hff.chosen with hlast | ⟨hno, h3⟩
    · have hrep : Replays sp ctx ctx.deck :=
        ⟨hlast, CardSet.subset_refl _, by rw [hcls]; exact hff.playable.2⟩
      rcases think_eq stillWorld sp ctx with ⟨hand, sp', hh, hrun, -⟩ | ⟨hno, -⟩
      · cases hh.1.symm.trans hlast
        exact hbad _ _ hrun
      · exact hno _ hrep
    · rcases think_eq stillWorld sp ctx with ⟨hand, -, hh, -⟩ | ⟨-, mach, hmach, -, hrun⟩
      · exact hno _ hh
      · have hmach : mach.rule.cls = .B := hmach.trans hcls
        obtain ⟨sp', hthink⟩ := think2_whole { sp with savedHandsTree := [], mach } hba h3
          (by rw [hmach]; exact hff.playable) (by rw [hmach]; exact hff.forbidden)
        exact hbad _ _ (hrun.trans hthink)
  · rintro hff w hand sp' hrun hne rfl
    by_contra hno
    rcases think_cases hrun with ⟨hrep, -⟩ | ⟨hnone, mach, hmach, hrun⟩
    · have hput := hrep.2.2
      rw [hcls] at hput
      exact hff ⟨⟨hne, hput⟩, hno, .inl hrep.1⟩
    · obtain ⟨h3, -, hput⟩ := (think2_spec hrun).legal hne
      rw [show ({ sp with savedHandsTree := [], mach } : SagePlayer α).mach.rule.cls = .B from
        hmach.trans hcls] at hput
      exact hff ⟨⟨hne, hput⟩, hno, .inr ⟨hnone, h3⟩⟩

theorem finish_allowed_iff_four :
    Reach .B (newPlayer .B) ∧ (turnOf (ofVector [⟨7⟩]) [ofVector [⟨0⟩]]).baLast ≠ ∅ ∧
    ((∀ w hand sp', think w (newPlayer .B) (turnOf (ofVector [⟨7⟩]) [ofVector [⟨0⟩]]) =
        .ok (hand, sp') → hand ≠ ∅ → hand = ofVector [⟨7⟩] →
        DaifugoRule.canAgari ⟨.B, false⟩ hand = .ok .ok) ↔
      ¬ ForbiddenFinish (newPlayer .B) (turnOf (ofVector [⟨7⟩]) [ofVector [⟨0⟩]])) :=
  ⟨.init ⟨rfl, rfl⟩, by decide, finish_allowed_iff (.init ⟨rfl, rfl⟩) (by decide)⟩

/-- The joker is the last card and a three is on the table: the player may pass, and finishes
with the joker. -/
theorem joker_finish_forbidden :
    Reach .B (newPlayer .B) ∧ (turnOf (ofVector [⟨52⟩]) [ofVector [⟨0⟩]]).baLast ≠ ∅ ∧
    ¬ ∀ hand sp', think stillWorld (newPlayer .B) (turnOf (ofVector [⟨52⟩]) [ofVector [⟨0⟩]]) =
        .ok (hand, sp') → hand ≠ ∅ → hand = ofVector [⟨52⟩] →
        DaifugoRule.canAgari ⟨.B, false⟩ hand = .ok .ok := by
  refine ⟨.init ⟨rfl, rfl⟩, by decide, fun hall => ?_⟩
  have heval : ((think stillWorld (newPlayer .B)
      (turnOf (ofVector [⟨52⟩]) [ofVector [⟨0⟩]])).map Prod.fst) = .ok (ofVector [⟨52⟩]) := by
    decide +kernel
  obtain ⟨⟨hand, sp'⟩, hrun, rfl⟩ := map_ok heval
  exact absurd (hall _ sp' hrun (by decide) rfl) (by decide)

end SagePlayer

end Neof5
