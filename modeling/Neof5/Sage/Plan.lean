import Neof5.Sage.Player
import Neof5.Sage.Tree

/-!
# From the tree to the plan (`think2`)

A node below the root is reached by a first hand, which may be the pass, and then by hands that
all have cards (`TreeInv.line`). `saveHandsTree` collects these hands from the node upwards and
stops at an empty one; `think2` takes the last of them off and returns the first hand of the path.

* `think2_spec`: what `think2` returns and saves.
* `plan_saved_iff`: the saved hands are the rest of the path exactly if the path does not begin
  with a pass.
-/

namespace Neof5

open CardSet

namespace SagePlayer

variable {α : Type} [Score α]

theorem searchEnv_evaluates (ctx : DaifugoContext) (timelimit : Int) :
    (searchEnv ctx timelimit : SearchEnv α).Evaluates :=
  fun _ k h => calcPotential_total _ _ ctx k h

/-- The search of `think2` returns, and what it returns. -/
theorem search_spec (w : World) (ctx : DaifugoContext) (ba : CardSet) (mach : Mach) :
    ∃ (s : Search α) (r : Option NodePtr), search w ctx ba mach = .ok (s.mach, s.tree, r) ∧
      Returned (searchEnv ctx (w.clock mach.ticks + thinkTimeLimit)) mach.rule.cls ba ctx.deck
        ctx.isKakumei (mach.ticks + 1) s r :=
  thinkRecursive_spec (searchEnv_evaluates ctx _) w ba ctx.deck ctx.isKakumei
    (m := (mach.time w).2) rfl

/-! ## Lines of the tree -/

section

variable {env : SearchEnv α} {cls : RuleClass} {ba deck : CardSet} {k : Bool}
  {tree : EvalNode α}

/-- A child of the root holds a playable part of the deck, or the pass. -/
theorem TreeInv.heir (h : TreeInv env cls ba deck k tree) {i : Nat} {e : NodeData α}
    (he : tree.label? [i] = some e) :
    (e.hand.hand ≠ ∅ ∧ ba.size ≤ 3 ∧ e.hand.hand ⊆ deck ∧
      DaifugoRule.canPut ⟨cls, k⟩ e.hand.hand ba = .ok .ok) ∨ e.hand.hand = ∅ ∧ ba ≠ ∅ := by
  have hedge := h.edge i [] tree.label e rfl he
  rw [h.root] at hedge
  rcases hedge.offered_or_pass with ⟨eh, ho, heq⟩ | ⟨-, hb, heq⟩
  · have hh : e.hand.hand = eh.hand := congrArg Pos.hand heq
    rw [hh]
    exact .inl ⟨ho.playable.1, ho.small, ho.subset, ho.playable.2⟩
  · exact .inr ⟨congrArg Pos.hand heq, hb⟩

/-- Below the children of the root each node has a hand with cards. -/
theorem TreeInv.hand_ne_empty (h : TreeInv env cls ba deck k tree) {j i : Nat} {p : NodePtr}
    {d : NodeData α} (hd : tree.label? (j :: i :: p) = some d) : d.hand.hand ≠ ∅ := by
  obtain ⟨n, -, hn, -, -⟩ := Rose.exists_parent hd
  have hedge := h.edge j (i :: p) n.label d (Rose.label?_of_get? hn) hd
  rcases hedge.offered_or_pass with ⟨eh, ho, heq⟩ | ⟨hr, -⟩
  · rw [show d.hand.hand = eh.hand from congrArg Pos.hand heq]
    exact ho.playable.1
  · simp [NodePtr.isRoot] at hr

/-- The line to a node below the root: the first hand, hands with cards after it, and what
`saveHandsTree` makes of it. -/
theorem TreeInv.line (h : TreeInv env cls ba deck k tree) {i : Nat} :
    ∀ (q : NodePtr) (d : NodeData α), tree.label? (q ++ [i]) = some d →
      ∃ e rest, tree.label? [i] = some e ∧
        pathHands tree (q ++ [i]) = e.hand.hand :: rest ∧ (∀ h ∈ rest, h ≠ ∅) ∧
        ∀ buff, EvalNode.saveHandsTree tree (q ++ [i]) buff =
          .ok (buff ++ rest.reverse ++ if e.hand.hand = ∅ then [] else [e.hand.hand]) := by
  intro q
  induction q with
  | nil =>
    intro e he
    have he : tree.label? [i] = some e := he
    have hroot : tree.label.hand.hand = ∅ := congrArg Pos.hand h.root
    refine ⟨e, [], he, by simp [pathHands, pathNodes, he], by simp, fun buff => ?_⟩
    by_cases hemp : e.hand.hand = ∅
    · simp [EvalNode.saveHandsTree, he, hemp]
    · simp [EvalNode.saveHandsTree, he, hemp, empty_eq_false_iff.mpr hemp, hroot]
  | cons j q ih =>
    intro d hd
    rw [List.cons_append] at hd ⊢
    obtain ⟨n, -, hn, -, -⟩ := Rose.exists_parent hd
    obtain ⟨e, rest, he, hpath, hne, hsave⟩ := ih n.label (Rose.label?_of_get? hn)
    have hhand : d.hand.hand ≠ ∅ := by
      cases q with
      | nil => exact h.hand_ne_empty hd
      | cons l q => exact h.hand_ne_empty hd
    refine ⟨e, rest ++ [d.hand.hand], he, by simp [pathHands_cons hd, hpath], fun x hx => ?_,
      fun buff => ?_⟩
    · rcases List.mem_append.mp hx with hx | hx
      · exact hne x hx
      · rw [List.mem_singleton.mp hx]; exact hhand
    · simp [EvalNode.saveHandsTree, hd, empty_eq_false_iff.mpr hhand, hsave]

/-! ## The end of a search that found a plan -/

/-- What `think2` returns and saves if the search returned a node below the root. -/
theorem found_line (h : TreeInv env cls ba deck k tree) (w : World) (sp : SagePlayer α)
    {q : NodePtr} (hq : q ≠ []) {d : NodeData α} (hd : tree.label? q = some d) :
    ∃ i e rest, tree.label? [i] = some e ∧ pathHands tree q = e.hand.hand :: rest ∧
      (∀ h ∈ rest, h ≠ ∅) ∧
      found w sp tree q = .ok (e.hand.hand, { sp with
        savedHandsTree := if e.hand.hand = ∅ then rest.reverse.dropLast else rest.reverse
        mach := tweetFound w e.hand.hand sp.mach }) := by
  obtain ⟨q, i, rfl⟩ := (List.eq_nil_or_concat q).resolve_left hq
  rw [List.concat_eq_append] at hd ⊢
  obtain ⟨e, rest, he, hpath, hne, hsave⟩ := h.line q d hd
  have hheir : heirHand tree (q ++ [i]) = .ok e.hand.hand := by
    simp [heirHand, NodePtr.getHeirOfRoot_snoc, he]
  have hlast : ∀ l : List CardSet,
      (if (!l.isEmpty) = true then l.dropLast else l) = l.dropLast := by
    intro l
    cases l <;> rfl
  refine ⟨i, e, rest, he, hpath, hne, ?_⟩
  simp only [found, hsave, hheir, except_ok_bind, except_pure, hlast, List.nil_append]
  by_cases hemp : e.hand.hand = ∅
  · simp only [hemp, ↓reduceIte, List.append_nil]
  · simp only [hemp, ↓reduceIte, List.dropLast_concat]

/-- What `think2` does if the search returned the root. -/
theorem found_root (h : TreeInv env cls ba deck k tree) (w : World) (sp : SagePlayer α) :
    found w sp tree [] = .ok (∅, { sp with savedHandsTree := [], mach := sp.mach }) := by
  have hroot : tree.label.hand.hand = ∅ := congrArg Pos.hand h.root
  simp [found, EvalNode.saveHandsTree, heirHand, NodePtr.getHeirOfRoot, hroot, tweetFound]

omit [Score α] in
/-- The hand that is returned for a node below the root. -/
theorem heirHand_spec {q : NodePtr} (hq : q ≠ []) {d : NodeData α} (hd : tree.label? q = some d) :
    ∃ i e, tree.label? [i] = some e ∧ heirHand tree q = .ok e.hand.hand := by
  obtain ⟨q, i, rfl⟩ := (List.eq_nil_or_concat q).resolve_left hq
  rw [List.concat_eq_append] at hd ⊢
  obtain ⟨e, he⟩ := Rose.exists_above hd
  exact ⟨i, e, he, by simp [heirHand, NodePtr.getHeirOfRoot_snoc, he]⟩

omit [Score α] in
/-- The last child of a node that has one. -/
theorem getChildAt_last (h : tree.children ≠ []) :
    ∃ d, getChildAt tree ((EvalNode.numOfChildren tree : Int) - 1) =
      .ok [tree.children.length - 1] ∧ tree.label? [tree.children.length - 1] = some d := by
  have hlen := List.length_pos_iff_ne_nil.mpr h
  obtain ⟨c, hc⟩ : ∃ c, tree.children[tree.children.length - 1]? = some c :=
    ⟨_, List.getElem?_eq_getElem (by omega)⟩
  refine ⟨c.label, ?_, Rose.label?_of_get? hc⟩
  have hidx : ((tree.children.length : Int) - 1).toNat = tree.children.length - 1 := by omega
  rw [getChildAt, if_neg (by simpa using h), EvalNode.numOfChildren, if_pos (by omega), hidx]

/-- The fallback returns the hand of a child of the root and keeps the plan. -/
theorem fallback_spec {w : World} {sp sp' : SagePlayer α} {hand : CardSet}
    (hrun : fallback w sp tree = .ok (hand, sp')) :
    ∃ i e, tree.label? [i] = some e ∧ hand = e.hand.hand ∧
      sp' = { sp with mach := tweetPass w hand sp.mach } := by
  have hend : ∀ {q : NodePtr} {d : NodeData α}, q ≠ [] → tree.label? q = some d →
      (heirHand tree q >>= fun hh => .ok (hh, { sp with mach := tweetPass w hh sp.mach })) =
        .ok (hand, sp') →
      ∃ i e, tree.label? [i] = some e ∧ hand = e.hand.hand ∧
        sp' = { sp with mach := tweetPass w hand sp.mach } := by
    intro q d hq hd hrun
    obtain ⟨i, e, he, hh⟩ := heirHand_spec hq hd
    rw [hh] at hrun
    cases hrun
    exact ⟨i, e, he, rfl, rfl⟩
  simp only [fallback, except_pure] at hrun
  cases hbest : EvalNode.findBestParamChild tree with
  | some x =>
    obtain ⟨p, d⟩ := x
    obtain ⟨hp, hd⟩ := EvalNode.findBestParamChild_spec tree p d hbest
    simp only [hbest, except_ok_bind] at hrun
    exact hend hp hd hrun
  | none =>
    simp only [hbest] at hrun
    by_cases hnil : tree.children = []
    · obtain ⟨q, hq, -⟩ := bind_ok hrun
      simp [getChildAt, hnil] at hq
    · obtain ⟨d, hlast, hd⟩ := getChildAt_last hnil
      rw [hlast] at hrun
      exact hend (List.cons_ne_nil _ _) hd hrun

end

/-! ## What `think2` does -/

/-- The hands of a plan have cards, different ones, from the deck that the plan was made for, and
none of those that were played from it. -/
structure PlanOk (deck : CardSet) (played saved : List CardSet) : Prop where
  nonempty : ∀ h ∈ saved, h ≠ ∅
  disjoint : saved.Pairwise Apart
  subset : ∀ h ∈ saved, h ⊆ deck
  apart : ∀ h ∈ saved, ∀ x ∈ played, Apart h x

@[simp] theorem planOk_nil (deck : CardSet) (played : List CardSet) : PlanOk deck played [] :=
  ⟨by simp, .nil, by simp, by simp⟩

/-- What a call of `think2` leaves behind. -/
structure Thought (cls : RuleClass) (ctx : DaifugoContext) (ba : CardSet) (sp sp' : SagePlayer α)
    (hand : CardSet) : Prop where
  rule : sp'.mach.rule.cls = cls
  legal : hand ≠ ∅ → ba.size ≤ 3 ∧ hand ⊆ ctx.deck ∧
    DaifugoRule.canPut ⟨cls, ctx.isKakumei⟩ hand ba = .ok .ok
  leads : ba = ∅ → ctx.deck ≠ ∅ → hand ≠ ∅
  plan : sp'.savedHandsTree = sp.savedHandsTree ∨ PlanOk ctx.deck [hand] sp'.savedHandsTree

/-- The rest of a path, less its last steps, is a plan. -/
theorem planOk_of_dealt {deck hand : CardSet} {rest saved : List CardSet}
    (hd : Dealt deck (hand :: rest) ∅) (hne : ∀ h ∈ rest, h ≠ ∅) (hs : saved.Sublist rest.reverse) :
    PlanOk deck [hand] saved := by
  have hmem : ∀ h ∈ saved, h ∈ rest := fun h hh => List.mem_reverse.mp (hs.subset hh)
  obtain ⟨hfst, hrest⟩ := List.pairwise_cons.mp hd.disjoint
  refine ⟨fun h hh => hne h (hmem h hh), ?_, fun h hh => subset_iff.mpr fun c hc => ?_,
    fun h hh x hx => ?_⟩
  · refine List.Pairwise.sublist hs (List.pairwise_reverse.mpr (hrest.imp ?_))
    exact fun {a b} hab c hb ha => hab c ha hb
  · exact (hd.union c).mpr (.inr ⟨h, by simp [hmem h hh], hc⟩)
  · rw [List.mem_singleton.mp hx]
    exact fun c hc hx => hfst h (hmem h hh) c hx hc

/-- **A call of `think2`.** -/
theorem think2_spec {w : World} {sp sp' : SagePlayer α} {ctx : DaifugoContext} {ba hand : CardSet}
    (hrun : think2 w sp ctx ba = .ok (hand, sp')) :
    Thought sp.mach.rule.cls ctx ba sp sp' hand := by
  obtain ⟨s, r, hsearch, hret⟩ := search_spec (α := α) w ctx ba sp.mach
  -- The hand of a child of the root is legal, and only the pass is empty.
  have hheir : ∀ {i : Nat} {e : NodeData α}, s.tree.label? [i] = some e →
      (e.hand.hand ≠ ∅ → ba.size ≤ 3 ∧ e.hand.hand ⊆ ctx.deck ∧
        DaifugoRule.canPut ⟨sp.mach.rule.cls, ctx.isKakumei⟩ e.hand.hand ba = .ok .ok) ∧
      (ba = ∅ → ctx.deck ≠ ∅ → e.hand.hand ≠ ∅) := by
    intro i e he
    rcases hret.tree.heir he with ⟨h0, hleg⟩ | ⟨h0, hb⟩
    · exact ⟨fun _ => hleg, fun _ _ => h0⟩
    · exact ⟨fun h => (h h0).elim, fun h => (hb h).elim⟩
  cases r with
  | none =>
    simp only [think2, hsearch, except_ok_bind] at hrun
    obtain ⟨i, e, he, rfl, rfl⟩ := fallback_spec hrun
    exact ⟨by simpa using hret.rule, (hheir he).1, (hheir he).2, .inl rfl⟩
  | some q =>
    simp only [think2, hsearch, except_ok_bind] at hrun
    obtain ⟨d, hd, ⟨rfl, hno⟩ | ⟨hq, hemp⟩⟩ := hret.node q rfl
    · rw [found_root hret.tree] at hrun
      cases hrun
      refine ⟨hret.rule, fun h => (h rfl).elim, fun hb hdeck => ?_, .inr (planOk_nil _ _)⟩
      subst hb
      exact (hdeck (tefda_eq_empty hno)).elim
    · obtain ⟨i, e, rest, he, hpath, hne, hfound⟩ := found_line hret.tree w _ hq hd
      rw [hfound] at hrun
      cases hrun
      refine ⟨by simpa using hret.rule, (hheir he).1, (hheir he).2, .inr ?_⟩
      have hdealt := (hret.tree.path q d hd).1
      rw [hpath, hemp] at hdealt
      refine planOk_of_dealt hdealt hne ?_
      show List.Sublist (if e.hand.hand = ∅ then rest.reverse.dropLast else rest.reverse) _
      split
      · exact List.dropLast_sublist _
      · exact List.Sublist.refl _

/-- **When the rest of the plan is saved.** The search returned the node `q` below the root, and
`p1` and `rest` are the hands on the way to it. Then `think2` returns `p1` and saves `rest`
exactly if the plan does not begin with a pass, or has no second step. -/
theorem plan_saved_iff (w : World) (sp : SagePlayer α) (ctx : DaifugoContext) (ba : CardSet)
    {m : Mach} {tree : EvalNode α} {q : NodePtr}
    (hsearch : search w ctx ba sp.mach = .ok (m, tree, some q)) (hq : q ≠ []) :
    ∃ p1 rest, pathHands tree q = p1 :: rest ∧
      ((∃ sp', think2 w sp ctx ba = .ok (p1, sp') ∧ sp'.savedHandsTree.reverse = rest) ↔
        (p1 ≠ ∅ ∨ rest = [])) := by
  obtain ⟨s, r, hrun, hret⟩ := search_spec (α := α) w ctx ba sp.mach
  rw [hsearch] at hrun
  cases hrun
  obtain ⟨d, hd, -⟩ := hret.node q rfl
  obtain ⟨i, e, rest, -, hpath, -, hfound⟩ := found_line hret.tree w { sp with
    handPotentialMax := calcHandPotentialMax (appearsCards ctx)
    notappearsCards := allCards \ appearsCards ctx
    mach := s.mach } hq hd
  refine ⟨e.hand.hand, rest, hpath, ?_⟩
  simp only [think2, hsearch, except_ok_bind, hfound, Except.ok.injEq, Prod.mk.injEq, true_and,
    exists_eq_left']
  by_cases hemp : e.hand.hand = ∅
  · simp only [hemp, ↓reduceIte, ne_eq, not_true_eq_false, false_or]
    constructor
    · intro h
      have := congrArg List.length h
      simp only [List.length_reverse, List.length_dropLast] at this
      exact List.eq_nil_of_length_eq_zero (by omega)
    · rintro rfl
      rfl
  · simp [hemp]

/-- The hands of the plan that a search finds. -/
def planFound (w : World) (ctx : DaifugoContext) (ba : CardSet) (mach : Mach) :
    Option (List CardSet) :=
  match search (α := ExtRat) w ctx ba mach with
  | .ok (_, tree, some q) => some (pathHands tree q)
  | _ => none

/-- The player of class `cls` before its first turn. -/
def newPlayer (cls : RuleClass) : SagePlayer ExtRat := ⟨[], 0, ∅, ⟨⟨cls, false⟩, 0, 0, []⟩⟩

/-- A node that is found, from its plan. -/
theorem exists_of_planFound {w : World} {ctx : DaifugoContext} {ba : CardSet} {mach : Mach}
    {p : CardSet} {ps : List CardSet} (h : planFound w ctx ba mach = some (p :: ps)) :
    ∃ m tree q, search (α := ExtRat) w ctx ba mach = .ok (m, tree, some q) ∧ q ≠ [] ∧
      pathHands tree q = p :: ps := by
  unfold planFound at h
  split at h
  · rename_i m tree q hrun
    have hpath := Option.some.inj h
    exact ⟨m, tree, q, hrun, (by rintro rfl; cases hpath), hpath⟩
  · cases h

/-- The turn of a player with the hand cards `deck` and one opponent. -/
def turnOf (deck : CardSet) (ba : List CardSet) : DaifugoContext :=
  ⟨deck, 0, ba, ∅, false, [⟨[], deck.size, 0⟩, ⟨[], 4, 0⟩]⟩

/-- A three, a four and the joker, led: the search plans the four, the three and the joker. -/
theorem planFound_three_steps :
    planFound stillWorld (turnOf (ofVector [⟨0⟩, ⟨5⟩, ⟨52⟩]) []) ∅ (newPlayer .A).mach =
      some [ofVector [⟨5⟩], ofVector [⟨0⟩], ofVector [⟨52⟩]] := by decide +kernel

theorem plan_saved_iff_three_steps :
    ∃ m tree q, search (α := ExtRat) stillWorld (turnOf (ofVector [⟨0⟩, ⟨5⟩, ⟨52⟩]) []) ∅
        (newPlayer .A).mach = .ok (m, tree, some q) ∧ q ≠ [] ∧
      ∃ p1 rest, pathHands tree q = p1 :: rest ∧
        ((∃ sp', think2 stillWorld (newPlayer .A) (turnOf (ofVector [⟨0⟩, ⟨5⟩, ⟨52⟩]) []) ∅ =
            .ok (p1, sp') ∧ sp'.savedHandsTree.reverse = rest) ↔ (p1 ≠ ∅ ∨ rest = [])) := by
  obtain ⟨m, tree, q, hrun, hq, -⟩ := exists_of_planFound planFound_three_steps
  exact ⟨m, tree, q, hrun, hq, plan_saved_iff stillWorld (newPlayer .A) _ ∅ hrun hq⟩

/-- The two twos against a single five: the search finds the plan to pass and to play the twos,
and the twos are not saved. -/
theorem twos_after_pass_not_saved :
    ¬ ∀ m tree q, search (α := ExtRat) stillWorld
        (turnOf (ofVector [⟨48⟩, ⟨49⟩]) [ofVector [⟨8⟩]]) (ofVector [⟨8⟩]) (newPlayer .A).mach =
          .ok (m, tree, some q) → q ≠ [] →
      ∃ p1 rest sp', pathHands tree q = p1 :: rest ∧
        think2 stillWorld (newPlayer .A) (turnOf (ofVector [⟨48⟩, ⟨49⟩]) [ofVector [⟨8⟩]])
          (ofVector [⟨8⟩]) = .ok (p1, sp') ∧ sp'.savedHandsTree.reverse = rest := by
  intro hall
  have hplan : planFound stillWorld (turnOf (ofVector [⟨48⟩, ⟨49⟩]) [ofVector [⟨8⟩]])
      (ofVector [⟨8⟩]) (newPlayer .A).mach = some [∅, ofVector [⟨48⟩, ⟨49⟩]] := by
    decide +kernel
  obtain ⟨m, tree, q, hrun, hq, hpath⟩ := exists_of_planFound hplan
  obtain ⟨p1, rest, sp', hpath', hthink, hsaved⟩ := hall m tree q hrun hq
  have heval : ((think2 stillWorld (newPlayer .A)
      (turnOf (ofVector [⟨48⟩, ⟨49⟩]) [ofVector [⟨8⟩]]) (ofVector [⟨8⟩])).map
        fun r => r.2.savedHandsTree) = .ok [] := by decide +kernel
  rw [hthink] at heval
  have hnil : sp'.savedHandsTree = [] := by simpa [Except.map] using heval
  rw [hpath] at hpath'
  cases hpath'
  rw [hnil] at hsaved
  cases hsaved

end SagePlayer

end Neof5
