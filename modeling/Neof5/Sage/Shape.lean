import Neof5.Sage.Agari
import Neof5.Sage.PlayOut

/-!
# The shape of the evaluation tree

Whatever the clock, the random numbers and the order of the frontiers, the tree has one shape.

* `search_terminates`: a child has fewer cards left than its parent, the pass of the root apart. So
  the search ends after as many levels as there are cards, and two.
* `Reachable`: the trees of one call of `think2`, also those in the middle of an expansion.
* `NodeInv`: what the fields of a node say about the path to it; `reachable_inv`: they do so in
  every reachable tree.
-/

namespace Neof5

open CardSet

namespace SagePlayer

variable {α : Type} [Score α]

/-! ## Termination -/

/-- The next node of the frontier ends the search if it has no cards left. -/
theorem visit_done (w : World) (env : SearchEnv α) (ba : CardSet) {p : NodePtr} {s : Search α}
    {d : NodeData α} (hd : s.tree.label? p = some d) (hemp : d.hand.tefda = ∅) :
    ∃ s', visit w env ba p s = .ok (s', some (some p)) := by
  obtain ⟨n, hn, rfl⟩ := Rose.label?_eq_some.mp hd
  obtain ⟨m', hexp⟩ := expand_done (m := s.mach) w env p.isRoot (lookAhead s.tree p) ba
    hemp
  exact ⟨_, by simp only [visit, hn, hexp, except_ok_bind]; rfl⟩

/-- **Termination.** For every deck, table, rule, evaluation, clock and order of the frontiers, the
search returns within `deck.size + 2` nested calls. In every state that it goes through, each node
below has fewer cards than its parent, the pass of the root apart, and the next node of the frontier
ends the search if it has no cards. -/
theorem search_terminates (env : SearchEnv α) (hev : env.Evaluates) (w : World) (m : Mach)
    (deck ba : CardSet) (k : Bool) :
    (∃ m' tree r, thinkRecursive w env (deck.size + 2) 0 ba [[]] m (EvalNode.new deck k) =
      .ok (m', tree, r)) ∧
    ∀ c : Conf α, Run w env ba deck k m c →
      (c.todo ≠ [] → c.level < deck.size + 2) ∧
      (∀ i p d e, c.state.tree.label? p = some d → c.state.tree.label? (i :: p) = some e →
        e.hand.tefda.size < d.hand.tefda.size ∨
          p = [] ∧ e.hand.hand = ∅ ∧ e.hand.tefda = d.hand.tefda) ∧
      ∀ p todo d, c.todo = p :: todo → c.state.tree.label? p = some d → d.hand.tefda = ∅ →
        ∃ s', visit w env c.baCards p c.state = .ok (s', some (some p)) := by
  obtain ⟨s, r, hrun, -⟩ := thinkRecursive_spec hev w ba deck k (m := m) rfl
  refine ⟨⟨_, _, _, hrun⟩, fun c hc => ?_⟩
  have hinv := hc.inv hev rfl
  refine ⟨hinv.level_lt, fun i p d e hd he => ?_, fun p todo d _ hd hemp =>
    visit_done w env _ hd hemp⟩
  rcases (hinv.tree.edge i p d e hd he).tefda_lt with hlt | ⟨hroot, hpass, htef⟩
  · exact .inl hlt
  · -- The root has no hand to take out.
    obtain rfl : p = [] := by simpa [NodePtr.isRoot] using hroot
    cases hd
    have hhand : c.state.tree.label.pos.hand = ∅ := congrArg Pos.hand hinv.tree.root
    refine .inr ⟨rfl, hpass, htef.trans ?_⟩
    rw [hhand]
    ext x
    simp [NodeData.pos]

theorem search_terminates_flat :
    (∃ m' tree r, thinkRecursive stillWorld ⟨0, (0 : ExtRat), fun _ _ => .ok 0⟩
        ((ofVector [⟨0⟩, ⟨5⟩]).size + 2) 0 ∅ [[]] ⟨⟨.B, false⟩, 0, 0, []⟩
        (EvalNode.new (ofVector [⟨0⟩, ⟨5⟩]) false) = .ok (m', tree, r)) ∧
    ∀ c : Conf ExtRat, Run stillWorld ⟨0, (0 : ExtRat), fun _ _ => .ok 0⟩ ∅
        (ofVector [⟨0⟩, ⟨5⟩]) false ⟨⟨.B, false⟩, 0, 0, []⟩ c →
      (c.todo ≠ [] → c.level < (ofVector [⟨0⟩, ⟨5⟩]).size + 2) ∧
      (∀ i p d e, c.state.tree.label? p = some d → c.state.tree.label? (i :: p) = some e →
        e.hand.tefda.size < d.hand.tefda.size ∨
          p = [] ∧ e.hand.hand = ∅ ∧ e.hand.tefda = d.hand.tefda) ∧
      ∀ p todo d, c.todo = p :: todo → c.state.tree.label? p = some d → d.hand.tefda = ∅ →
        ∃ s', visit stillWorld ⟨0, (0 : ExtRat), fun _ _ => .ok 0⟩ c.baCards p c.state =
          .ok (s', some (some p)) :=
  search_terminates _ (fun _ _ _ => ⟨0, rfl⟩) _ _ _ _ _

/-! ## The trees of a search -/

/-- One change of a node in an expansion. -/
inductive Change : EvalNode α → EvalNode α → Prop
  | addP2 (n x) : Change n (addP2 n x)
  | createChild (n eh) : Change n (EvalNode.createChild n eh).1

/-- The node comes out of the other one by changes. -/
abbrev Built : EvalNode α → EvalNode α → Prop := Relation.ReflTransGen Change

/-- The trees of the search of `think2`: in each state, and between the changes that the expansion
of the next node makes. -/
inductive Reachable (w : World) (ctx : DaifugoContext) (ba : CardSet) (mach : Mach) :
    EvalNode α → Prop
  | state {c} : Run w (searchEnv ctx (w.clock mach.ticks + thinkTimeLimit)) ba ctx.deck
      ctx.isKakumei (mach.time w).2 c → Reachable w ctx ba mach c.state.tree
  | during {c p todo s' o n n1 n'} :
      Run w (searchEnv ctx (w.clock mach.ticks + thinkTimeLimit)) ba ctx.deck
        ctx.isKakumei (mach.time w).2 c →
      c.todo = p :: todo →
      visit w (searchEnv ctx (w.clock mach.ticks + thinkTimeLimit)) c.baCards p c.state =
        .ok (s', o) →
      c.state.tree.get? p = some n → s'.tree.get? p = some n' → Built n n1 → Built n1 n' →
      Reachable w ctx ba mach (c.state.tree.modify p fun _ => n1)

section

variable {w : World} {env : SearchEnv α} {isRoot look : Bool} {ba : CardSet}

theorem judgeHand_built {eh : EvalHand α} {s : Scan α} {out : Scan α × Option Exit}
    (h : judgeHand w env isRoot eh s = .ok out) : Built s.node out.1.node := by
  have hsort : (sortHand w env eh s).1.node = s.node := by
    simp only [sortHand]
    split
    · rfl
    · split <;> rfl
  simp only [judgeHand] at h
  split at h
  · obtain ⟨chk, -, h⟩ := bind_ok h
    split at h
    · cases h; exact .single (.createChild _ _)
    · split at h
      · cases h; exact .refl
      · cases h; rw [hsort]
  · cases h; rw [hsort]

theorem classifyBody_built {hand : CardSet} {s : Scan α} {out : Scan α × Option Exit}
    (h : classifyBody w env isRoot hand s = .ok out) : Built s.node out.1.node := by
  simp only [classifyBody] at h
  obtain ⟨p1, -, h⟩ := bind_ok h
  exact .head (.addP2 _ _) (judgeHand_built h)

theorem poorBody_built {rule : DaifugoRule} {beh peh : EvalHand α} {i : Nat} {g : Grow α}
    {out : Grow α × Option Exit} (h : poorBody rule beh i peh g = .ok out) :
    Built g.node out.1.node := by
  unfold poorBody at h
  split at h
  · cases h; exact .refl
  · simp only at h
    split at h
    · obtain ⟨chk, -, h⟩ := bind_ok h
      split at h <;> cases h <;> exact .single (.createChild _ _)
    · cases h; exact .single (.createChild _ _)

theorem betterBody_built {rule : DaifugoRule} {poorHands : List (EvalHand α)} {beh : EvalHand α}
    {g : Grow α} {out : Grow α × Option Exit}
    (h : betterBody env rule poorHands beh g = .ok out) : Built g.node out.1.node := by
  simp only [betterBody] at h
  obtain ⟨b, -, h⟩ := bind_ok h
  split at h
  · cases h; exact .refl
  refine .head (.createChild _ beh) ?_
  split at h
  · cases h; exact .refl
  · exact Loop.forEach_ok (I := fun g' => Built _ g'.node)
      (fun _ _ _ hb hrun => hb.trans (poorBody_built hrun)) .refl h

theorem rootPoorBody_built {peh : EvalHand α} {g : Grow α} {out : Grow α × Option Exit}
    (h : rootPoorBody peh g = .ok out) : Built g.node out.1.node := by
  simp only [rootPoorBody] at h
  split at h <;> cases h <;> exact .single (.createChild _ _)

theorem createChildren_built {s : Scan α} {out : Grow α × Option Exit}
    (h : createChildren env isRoot look ba s = .ok out) : Built s.node out.1.node := by
  simp only [createChildren] at h
  obtain ⟨⟨g, e⟩, hbetter, h⟩ := bind_ok h
  have hg : Built s.node g.node := by
    unfold betterChildren at hbetter
    split at hbetter
    · exact Loop.forEach_ok (I := fun g' => Built _ g'.node)
        (fun _ _ _ hb hrun => hb.trans (betterBody_built hrun)) .refl hbetter
    · cases hbetter; exact .refl
  cases e with
  | some e => cases h; exact hg
  | none =>
    cases isRoot with
    | false => cases h; exact hg
    | true =>
      obtain ⟨⟨g', e⟩, hpoor, h⟩ := bind_ok h
      have hg' : Built s.node g'.node :=
        Loop.forEach_ok (I := fun g' => Built _ g'.node)
          (fun _ _ _ hb hrun => hb.trans (rootPoorBody_built hrun)) hg hpoor
      cases e with
      | some e => cases h; exact hg'
      | none =>
        simp only at h
        split at h
        · cases h; exact hg'.tail (.createChild _ _)
        · cases h; exact hg'

/-- An expansion makes changes only. -/
theorem expand_built {m : Mach} {n : EvalNode α} {out : (Mach × Grow α) × Option Exit}
    (h : expand w env isRoot look ba m n = .ok out) : Built n out.1.2.node := by
  simp only [expand] at h
  obtain ⟨⟨rule, hands⟩, -, h⟩ := bind_ok h
  split at h
  · cases h; exact .refl
  obtain ⟨⟨s, e⟩, hsort, h⟩ := bind_ok h
  have hs : Built n s.node :=
    Loop.forEach_ok (I := fun s : Scan α => Built n s.node)
      (fun _ _ _ hb hrun => hb.trans (classifyBody_built hrun)) .refl hsort
  cases e with
  | some e => cases h; exact hs
  | none =>
    obtain ⟨⟨g, e⟩, hcc, h⟩ := bind_ok h
    cases h
    exact hs.trans (createChildren_built hcc)

end

section

variable {n n1 n' : EvalNode α}

/-- A change keeps the node's position and its children, and gives no hand to two of them. -/
theorem Change.keeps (h : Change n n') : n'.label.pos = n.label.pos ∧ n.children <+: n'.children ∧
    (n.DistinctHands → n'.DistinctHands) := by
  cases h with
  | addP2 => exact ⟨rfl, List.prefix_refl _, id⟩
  | createChild eh =>
    refine ⟨?_, ?_, fun hd => ?_⟩
    · rcases EvalNode.createChild_cases n eh with ⟨i, c, -, he⟩ | he
      · rw [he]
      · rw [he]; rfl
    · rcases EvalNode.createChild_cases n eh with ⟨i, c, -, he⟩ | he
      · rw [he]
      · rw [he]; exact List.prefix_append _ _
    · obtain ⟨m, i, c, he, -, -, -, -, hm⟩ := EvalNode.createChild_distinct hd eh
      rw [he]
      exact hm

theorem Built.keeps (h : Built n n') : n'.label.pos = n.label.pos ∧ n.children <+: n'.children ∧
    (n.DistinctHands → n'.DistinctHands) := by
  induction h with
  | refl => exact ⟨rfl, List.prefix_refl _, id⟩
  | tail _ hc ih =>
    obtain ⟨hpos, hpre, hd⟩ := hc.keeps
    exact ⟨hpos.trans ih.1, ih.2.1.trans hpre, hd ∘ ih.2.2⟩

/-- What holds of the children at the end of an expansion, holds in the middle of it. -/
theorem Built.kids {env : SearchEnv α} {cls : RuleClass} {isRoot look : Bool} {ba : CardSet}
    {u : Pos α} (h : Built n1 n') (hk : Kids env cls isRoot look ba u n') :
    Kids env cls isRoot look ba u n1 := by
  obtain ⟨hpos, hpre, -⟩ := h.keeps
  exact ⟨hpos ▸ hk.pos, fun c hc => hk.leaf c (hpre.subset hc),
    fun c hc => hk.attached c (hpre.subset hc)⟩

end

/-! ## The invariant -/

/-- The children of each node have different hands. -/
def DistinctSiblings (tree : EvalNode α) : Prop :=
  ∀ i j (p : NodePtr) d e, tree.label? (i :: p) = some d → tree.label? (j :: p) = some e →
    d.hand.hand = e.hand.hand → i = j

omit [Score α] in
/-- The expansion of a leaf keeps the siblings apart. -/
theorem DistinctSiblings.modify {tree n n' : EvalNode α} {p : NodePtr} (h : DistinctSiblings tree)
    (hp : tree.get? p = some n) (hpos : n'.label.pos = n.label.pos)
    (hleaf : ∀ c ∈ n'.children, c.children = []) (hd : n'.DistinctHands) :
    DistinctSiblings (tree.modify p fun _ => n') := by
  intro i j q d e hid hje heq
  rcases label?_expanded hp hpos hleaf hid with ⟨rfl, c, hc, rfl⟩ | ⟨hq, -, d', hd', hposd⟩
  · rcases label?_expanded hp hpos hleaf hje with ⟨-, c', hc', rfl⟩ | ⟨hq, -⟩
    · exact hd.inj hc hc' heq
    · exact (hq rfl).elim
  · rcases label?_expanded hp hpos hleaf hje with ⟨rfl, -⟩ | ⟨-, -, e', he', hpose⟩
    · exact (hq rfl).elim
    · refine h i j q d' e' hd' he' ?_
      have h1 : d'.hand.hand = d.hand.hand := congrArg Pos.hand hposd
      have h2 : e'.hand.hand = e.hand.hand := congrArg Pos.hand hpose
      rw [h1, h2, heq]

/-- What the fields of the node at `p` say about the path to it. -/
structure NodeInv (ctx : DaifugoContext) (tree : EvalNode α) (p : NodePtr) (d : NodeData α) :
    Prop where
  /-- the cards left are those of the deck that no hand on the path has -/
  tefda : ∀ c, c ∈ d.hand.tefda ↔ c ∈ ctx.deck ∧ ∀ h ∈ pathHands tree p, c ∉ h
  disjoint : (pathHands tree p).Pairwise Apart
  inDeck : ∀ h ∈ pathHands tree p, h ⊆ ctx.deck
  /-- a pass comes first only -/
  pass : p ≠ [] → d.hand.hand = ∅ → p.length = 1
  siblings : ∀ i j e e', tree.label? (i :: p) = some e → tree.label? (j :: p) = some e' →
    e.hand.hand = e'.hand.hand → i = j
  isKakumei : d.isKakumei = turnedBy ctx.isKakumei (pathHands tree p)
  /-- `getHeirOfRoot` is the one ancestor right below the root -/
  heir : p ≠ [] → ∀ q, (q <:+ p ∧ q.length = 1) ↔ q = p.getHeirOfRoot

/-- A position has one ancestor right below the root. -/
theorem heir_iff {p : NodePtr} (hp : p ≠ []) (q : NodePtr) :
    (q <:+ p ∧ q.length = 1) ↔ q = p.getHeirOfRoot := by
  obtain ⟨r, i, rfl⟩ := (List.eq_nil_or_concat p).resolve_left hp
  rw [List.concat_eq_append, NodePtr.getHeirOfRoot_snoc]
  constructor
  · rintro ⟨hs, hl⟩
    exact List.IsSuffix.eq_of_length (List.suffix_of_suffix_length_le hs ⟨r, rfl⟩ (by simp [hl])) hl
  · rintro rfl
    exact ⟨⟨r, rfl⟩, rfl⟩

section

variable {env : SearchEnv α} {cls : RuleClass} {ba : CardSet} {ctx : DaifugoContext}
  {tree : EvalNode α}

/-- The invariant of the search and distinct siblings are what `NodeInv` says. -/
theorem TreeInv.node (h : TreeInv env cls ba ctx.deck ctx.isKakumei tree)
    (hs : DistinctSiblings tree) {p : NodePtr} {d : NodeData α} (hd : tree.label? p = some d) :
    NodeInv ctx tree p d := by
  obtain ⟨hdealt, -⟩ := h.path p d hd
  refine ⟨fun c => ⟨fun hc => ⟨(hdealt.union c).mpr (.inl hc), fun H hH hcH =>
      hdealt.left H hH c hcH hc⟩, fun ⟨hc, hno⟩ => ?_⟩, hdealt.disjoint, fun H hH =>
      subset_iff.mpr fun c hc => (hdealt.union c).mpr (.inr ⟨H, hH, hc⟩), fun hp hpass => ?_,
      fun i j e e' => hs i j p e e', h.turned p d hd, heir_iff⟩
  · rcases (hdealt.union c).mp hc with hc | ⟨H, hH, hcH⟩
    · exact hc
    · exact (hno H hH hcH).elim
  · obtain ⟨i, q, rfl⟩ := List.exists_cons_of_ne_nil hp
    obtain ⟨n, -, hn, -, -⟩ := Rose.exists_parent hd
    rcases (h.edge i q n.label d (Rose.label?_of_get? hn) hd).offered_or_pass with
      ⟨eh, ho, hpos⟩ | ⟨hroot, -, -⟩
    · exact (ho.playable.1 ((congrArg Pos.hand hpos).symm.trans hpass)).elim
    · simpa [NodePtr.isRoot] using hroot

end

section

variable {w : World} {env : SearchEnv α} {cls : RuleClass} {ba deck : CardSet} {k : Bool} {m : Mach}

/-- In the middle of an expansion the invariants hold. -/
theorem SearchInv.during (hev : env.Evaluates) {t l : Nat} {baCards : CardSet} {p : NodePtr}
    {todo : List NodePtr} {s s' : Search α} {o : Option (Option NodePtr)} {n n1 n' : EvalNode α}
    (h : SearchInv env cls ba deck k t ⟨l, baCards, p :: todo, s⟩) (hs : DistinctSiblings s.tree)
    (hrun : visit w env baCards p s = .ok (s', o)) (hn : s.tree.get? p = some n)
    (hn' : s'.tree.get? p = some n') (h1 : Built n n1) (h2 : Built n1 n') :
    TreeInv env cls ba deck k (s.tree.modify p fun _ => n1) ∧
      DistinctSiblings (s.tree.modify p fun _ => n1) := by
  obtain ⟨-, n0, hn0, hleaf⟩ := h.todo.leaf p (by simp)
  cases hn.symm.trans hn0
  obtain ⟨n2, n3, hn2, htree, hkids⟩ := visit_kids hev h hrun
  cases hn.symm.trans hn2
  rw [htree, Rose.get?_modify, hn] at hn'
  cases hn'
  have hkids := h2.kids hkids
  exact ⟨h.tree.modify hn hkids,
    hs.modify hn h1.keeps.1 hkids.leaf (h1.keeps.2.2 (.of_leaf hleaf))⟩

/-- A step of the loop over a frontier makes changes to one node. -/
theorem visit_built {p : NodePtr} {s s' : Search α} {o : Option (Option NodePtr)}
    (h : visit w env ba p s = .ok (s', o)) :
    ∃ n n', s.tree.get? p = some n ∧ s'.tree.get? p = some n' ∧
      s'.tree = s.tree.modify p (fun _ => n') ∧ Built n n' := by
  obtain ⟨n, g, e, hn, hexp, htree, -, -⟩ := visit_expand h
  exact ⟨n, g.node, hn, by rw [htree, Rose.get?_modify, hn]; rfl, htree, expand_built hexp⟩

/-- In a run the siblings stay apart. -/
theorem Run.distinctSiblings (hev : env.Evaluates) (hm : m.rule.cls = cls) {c : Conf α}
    (h : Run w env ba deck k m c) : DistinctSiblings c.state.tree := by
  induction h with
  | refl =>
    intro i j p d e hd
    obtain ⟨c, hc, -⟩ := Rose.label?_eq_some.mp hd
    rw [Rose.get?_of_leaf (by rfl) (by simp)] at hc
    cases hc
  | tail h hstep ih =>
    cases hstep with
    | visit hv =>
      obtain ⟨n, n', hn, hn', htree, hb⟩ := visit_built hv
      have := (SearchInv.during hev (Run.inv hev hm h) ih hv hn hn' hb .refl).2
      rwa [← htree] at this
    | level _ => exact ih

end

/-- The tree with which the search ends is reachable. -/
theorem search_reachable {w : World} {ctx : DaifugoContext} {ba : CardSet} {mach m : Mach}
    {tree : EvalNode α} {r : Option NodePtr} (hrun : search w ctx ba mach = .ok (m, tree, r)) :
    Reachable w ctx ba mach tree := by
  have hev := searchEnv_evaluates (α := α) ctx (w.clock mach.ticks + thinkTimeLimit)
  obtain ⟨s, r', hspec, hreach⟩ := thinkRecursive_rule
    (I := Run w (searchEnv ctx (w.clock mach.ticks + thinkTimeLimit)) ba ctx.deck ctx.isKakumei
      (mach.time w).2) (Q := fun s _ => Reachable w ctx ba mach s.tree)
    (fun d ba' p todo s h => by
      obtain ⟨⟨s', o⟩, hv, -⟩ := visit_spec (w := w) hev (h.inv hev rfl)
      refine ⟨_, hv, ?_⟩
      cases o with
      | none => exact h.tail (.visit hv)
      | some o =>
        obtain ⟨n, n', hn, hn', htree, hb⟩ := visit_built hv
        have := Reachable.during h rfl hv hn hn' hb .refl
        rwa [← htree] at this)
    (fun d ba' s h hne => h.tail (.level hne)) (fun d ba' s h _ => .state h)
    (fun c h hne => (h.inv hev rfl).level_lt hne) (ctx.deck.size + 2) 0 ba [[]] (mach.time w).2
    (EvalNode.new ctx.deck ctx.isKakumei) (by omega) (by simp) .refl
  cases hrun.symm.trans hspec
  exact hreach

/-- **The shape of the tree.** In every tree that `think2` goes through, and in the middle of each
expansion, every node satisfies `NodeInv`. -/
theorem reachable_inv (w : World) (ctx : DaifugoContext) (ba : CardSet) (mach : Mach)
    {tree : EvalNode α} (h : Reachable w ctx ba mach tree) :
    ∀ p d, tree.label? p = some d → NodeInv ctx tree p d := by
  have hev := searchEnv_evaluates (α := α) ctx (w.clock mach.ticks + thinkTimeLimit)
  intro p d hd
  cases h with
  | state hrun => exact (hrun.inv hev rfl).tree.node (hrun.distinctSiblings hev rfl) hd
  | @during c q todo _ _ _ _ _ hrun htodo hv hn hn' h1 h2 =>
    obtain ⟨l, baCards, _, s⟩ := c
    subst htodo
    obtain ⟨htree, hs⟩ := (hrun.inv hev rfl).during hev (hrun.distinctSiblings hev rfl) hv hn hn'
      h1 h2
    exact htree.node hs hd

theorem reachable_inv_three_steps :
    ∃ (tree : EvalNode ExtRat) (q : NodePtr) (d : NodeData ExtRat),
      Reachable stillWorld (turnOf (ofVector [⟨0⟩, ⟨5⟩, ⟨52⟩]) []) ∅ (newPlayer .A).mach tree ∧
      pathHands tree q = [ofVector [⟨5⟩], ofVector [⟨0⟩], ofVector [⟨52⟩]] ∧
      tree.label? q = some d ∧ NodeInv (turnOf (ofVector [⟨0⟩, ⟨5⟩, ⟨52⟩]) []) tree q d := by
  obtain ⟨m, tree, q, hrun, -, hpath⟩ := exists_of_planFound planFound_three_steps
  obtain ⟨s, r, hspec, hret⟩ := search_spec (α := ExtRat) stillWorld
    (turnOf (ofVector [⟨0⟩, ⟨5⟩, ⟨52⟩]) []) ∅ (newPlayer .A).mach
  cases hrun.symm.trans hspec
  obtain ⟨d, hd, -⟩ := hret.node q rfl
  have hreach := search_reachable hrun
  exact ⟨_, q, d, hreach, hpath, hd, reachable_inv _ _ _ _ hreach q d hd⟩

end SagePlayer

end Neof5
