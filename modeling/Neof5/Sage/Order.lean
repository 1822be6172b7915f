import Neof5.Sage.Plan

/-!
# The search does not depend on the order of the frontiers

The frontier of a level is a set of pointers, walked in the order of their addresses. The
expansion of a node reads and changes nothing but the node, the rule object's flag, which it sets
first, and the hand of an ancestor. So as long as the time does not run out, the expansions of
one level can be made in any order.

* `Expands`: what an expansion leaves, out of any surroundings; it is a function of the tree
  (`Expands.unique`).
* `Levels`: the search as a sequence of levels without an order inside them; it has one result
  (`Levels.unique`).
* `order_irrelevant`: whether the search finds a plan, and the hand that the fallback returns if
  not, are the same for all orders.
-/

namespace Neof5

open CardSet

namespace SagePlayer

variable {α : Type}

/-! ## The changes of one level -/

/-- The tree after the expansions of a level. -/
def growAll (gs : List (NodePtr × Grow α)) (tree : EvalNode α) : EvalNode α :=
  gs.foldl (fun t x => t.modify x.1 fun _ => x.2.node) tree

/-- The next frontier after the expansions of a level. -/
def nextAll (gs : List (NodePtr × Grow α)) : List NodePtr :=
  gs.foldl (fun ns x => x.2.next.foldl (fun ns i => ns.insert (i :: x.1)) ns) []

section

variable {tree : EvalNode α} {p : NodePtr} {gs gs' : List (NodePtr × Grow α)}

/-- The expansions of other nodes of a level do not touch a node. -/
theorem get?_growAll (hl : ∀ x ∈ gs, x.1.length = p.length) (hp : p ∉ gs.map Prod.fst) :
    (growAll gs tree).get? p = tree.get? p := by
  induction gs generalizing tree with
  | nil => rfl
  | cons x gs ih =>
    simp only [List.map_cons, List.mem_cons, not_or] at hp
    rw [growAll, List.foldl_cons, ← growAll, ih (fun y hy => hl y (by simp [hy])) hp.2,
      Rose.get?_modify_of_length_eq (hl x (by simp)).symm hp.1]

/-- Nor the labels of the levels above. -/
theorem label?_growAll {q : NodePtr} (hl : ∀ x ∈ gs, q.length < x.1.length) :
    (growAll gs tree).label? q = tree.label? q := by
  induction gs generalizing tree with
  | nil => rfl
  | cons x gs ih =>
    have hx := hl x (by simp)
    rw [growAll, List.foldl_cons, ← growAll, ih (fun y hy => hl y (by simp [hy])),
      Rose.label?_modify_of_length_le (Nat.le_of_lt hx) (by rintro rfl; omega)]

/-- The condition on the ancestor is the same before and after. -/
theorem lookAhead_growAll (hl : ∀ x ∈ gs, x.1.length = p.length) :
    lookAhead (growAll gs tree) p = lookAhead tree p := by
  rcases List.eq_nil_or_concat p with rfl | ⟨q, i, rfl⟩
  · rfl
  rw [List.concat_eq_append] at hl ⊢
  cases q with
  | nil => rfl
  | cons j q =>
    simp only [lookAhead, NodePtr.getHeirOfRoot_snoc]
    rw [label?_growAll fun x hx => by simp [hl x hx]]

theorem mem_nextAll {q : NodePtr} : q ∈ nextAll gs ↔ ∃ x ∈ gs, ∃ i ∈ x.2.next, q = i :: x.1 := by
  suffices ∀ ns : List NodePtr,
      q ∈ gs.foldl (fun ns x => x.2.next.foldl (fun ns i => ns.insert (i :: x.1)) ns) ns ↔
      q ∈ ns ∨ ∃ x ∈ gs, ∃ i ∈ x.2.next, q = i :: x.1 by
    simpa [nextAll] using this []
  induction gs with
  | nil => simp
  | cons x gs ih =>
    intro ns
    rw [List.foldl_cons, ih, mem_insertAll, or_assoc]
    simp

theorem nodup_nextAll : (nextAll gs).Nodup := by
  suffices ∀ ns : List NodePtr, ns.Nodup →
      (gs.foldl (fun ns x => x.2.next.foldl (fun ns i => ns.insert (i :: x.1)) ns) ns).Nodup from
    this [] List.nodup_nil
  induction gs with
  | nil => exact fun ns h => h
  | cons x gs ih => exact fun ns h => ih _ (nodup_insertAll h)

/-- The order of the expansions does not matter for the tree. -/
theorem growAll_perm (hp : gs.Perm gs') {d : Nat} (hl : ∀ x ∈ gs, x.1.length = d)
    (hnd : (gs.map Prod.fst).Nodup) : growAll gs tree = growAll gs' tree := by
  refine hp.foldl_eq' (fun x hx y hy t => ?_) tree
  by_cases hxy : x.1 = y.1
  · rw [List.inj_on_of_nodup_map hnd hx hy hxy]
  · exact Rose.modify_comm ((hl y hy).trans (hl x hx).symm) (Ne.symm hxy) _ _

theorem nextAll_perm (hp : gs.Perm gs') : (nextAll gs).Perm (nextAll gs') := by
  rw [List.perm_ext_iff_of_nodup nodup_nextAll nodup_nextAll]
  intro q
  simp only [mem_nextAll, hp.mem_iff]

end

/-! ## Expansions in two surroundings -/

variable [Score α]

/-- Two states of the sorting loop that differ in the surroundings only. -/
structure SameScan (s s' : Scan α) : Prop where
  rule : s.mach.rule = s'.mach.rule
  node : s.node = s'.node
  better : s.betterHands = s'.betterHands
  poor : s.poorHands = s'.poorHands

section

variable {w w' : World} {env : SearchEnv α} {L : Int} {isRoot look : Bool} {ba : CardSet}

theorem isStrongHand_timelimit (env : SearchEnv α) (L : Int) (p1 : α) :
    SearchEnv.isStrongHand { env with timelimit := L } p1 = env.isStrongHand p1 := rfl

/-- The end of the loop body in time. -/
theorem sortHand_in_time {s : Scan α} {eh : EvalHand α}
    (h : (sortHand w env eh s).2 ≠ some .null) :
    sortHand w env eh s = ({ s with
      mach := (s.mach.time w).2
      betterHands := if env.isStrongHand eh.p1 then s.betterHands ++ [eh] else s.betterHands
      poorHands := if env.isStrongHand eh.p1 then s.poorHands else s.poorHands ++ [eh] },
      none) := by
  by_cases hlim : env.timelimit < w.clock s.mach.ticks
  · simp [sortHand, Mach.time, hlim] at h
  · by_cases hstr : env.isStrongHand eh.p1 = true <;> simp [sortHand, Mach.time, hlim, hstr]

theorem sortHand_same (w w' : World) (env : SearchEnv α) (L : Int) (eh : EvalHand α)
    {s s' : Scan α} (h : SameScan s s')
    (hg : (sortHand w env eh s).2 ≠ some .null)
    (hg' : (sortHand w' { env with timelimit := L } eh s').2 ≠ some .null) :
    (sortHand w env eh s).2 = (sortHand w' { env with timelimit := L } eh s').2 ∧
      SameScan (sortHand w env eh s).1 (sortHand w' { env with timelimit := L } eh s').1 := by
  rw [sortHand_in_time hg, sortHand_in_time hg']
  refine ⟨rfl, h.rule, h.node, ?_, ?_⟩
  · simp only [h.better]; rfl
  · simp only [h.poor]; rfl

theorem judgeHand_same {s s' : Scan α} {eh : EvalHand α} {out out' : Scan α × Option Exit}
    (h : SameScan s s') (hrun : judgeHand w env isRoot eh s = .ok out)
    (hrun' : judgeHand w' { env with timelimit := L } isRoot eh s' = .ok out')
    (hg : out.2 ≠ some .null) (hg' : out'.2 ≠ some .null) :
    out.2 = out'.2 ∧ SameScan out.1 out'.1 := by
  have hsort := sortHand_same w w' env L eh h
  obtain ⟨m, n, b, p⟩ := s
  obtain ⟨m', n', b', p'⟩ := s'
  obtain ⟨hr, rfl, rfl, rfl⟩ : m.rule = m'.rule ∧ n = n' ∧ b = b' ∧ p = p' :=
    ⟨h.rule, h.node, h.better, h.poor⟩
  simp only [judgeHand, isStrongHand_timelimit] at hrun hrun'
  by_cases hc : (eh.tefda.empty && (isRoot || env.isStrongHand n.label.hand.p1 ||
      (env.isStrongHand eh.p1 && eh.hand.size == n.label.hand.hand.size))) = true
  · rw [if_pos hc] at hrun hrun'
    obtain ⟨chk, hchk, hrun⟩ := bind_ok hrun
    obtain ⟨chk', hchk', hrun'⟩ := bind_ok hrun'
    cases (hr ▸ hchk).symm.trans hchk'
    by_cases hok : chk = .ok
    · rw [if_pos hok] at hrun hrun'
      cases hrun
      cases hrun'
      exact ⟨rfl, hr, rfl, rfl, rfl⟩
    · rw [if_neg hok] at hrun hrun'
      cases isRoot with
      | false =>
        cases hrun
        cases hrun'
        exact ⟨rfl, hr, rfl, rfl, rfl⟩
      | true =>
        cases hrun
        cases hrun'
        exact hsort hg hg'
  · rw [if_neg hc] at hrun hrun'
    cases hrun
    cases hrun'
    exact hsort hg hg'

/-- One round of the sorting loop in two surroundings. -/
theorem classifyBody_same {s s' : Scan α} {hand : CardSet} {out out' : Scan α × Option Exit}
    (h : SameScan s s') (hrun : classifyBody w env isRoot hand s = .ok out)
    (hrun' : classifyBody w' { env with timelimit := L } isRoot hand s' = .ok out')
    (hg : out.2 ≠ some .null) (hg' : out'.2 ≠ some .null) :
    out.2 = out'.2 ∧ SameScan out.1 out'.1 := by
  obtain ⟨p1, hp1, hrun⟩ := bind_ok hrun
  obtain ⟨p1', hp1', hrun'⟩ := bind_ok hrun'
  rw [← h.node] at hp1' hrun'
  cases hp1.symm.trans hp1'
  have hsame : SameScan { s with node := addP2 s.node (p1 - Score.lit ((hand.size : ℚ) - 1)) }
      { s' with node := addP2 s.node (p1 - Score.lit ((hand.size : ℚ) - 1)) } :=
    ⟨h.rule, rfl, h.better, h.poor⟩
  exact judgeHand_same hsame hrun hrun' hg hg'

theorem createChildren_same {s s' : Scan α} (h : SameScan s s') :
    createChildren { env with timelimit := L } isRoot look ba s' =
      createChildren env isRoot look ba s := by
  simp only [createChildren, betterChildren, h.rule, h.node, h.better, h.poor]
  rfl

/-- **Expansions agree.** In time, the expansion of a node does not depend on the clock, nor on
the flag of the rule object. -/
theorem expand_same {m m' m1 m1' : Mach} {n : EvalNode α} {g g' : Grow α} {e e' : Option Exit}
    (hr : m.rule.cls = m'.rule.cls)
    (hrun : expand w env isRoot look ba m n = .ok ((m1, g), e))
    (hrun' : expand w' { env with timelimit := L } isRoot look ba m' n = .ok ((m1', g'), e'))
    (hg : e ≠ some .null) (hg' : e' ≠ some .null) : e = e' ∧ g = g' := by
  have hk : m'.rule.setKakumei n.label.isKakumei = m.rule.setKakumei n.label.isKakumei := by
    simp [DaifugoRule.setKakumei, hr]
  obtain ⟨hands, henum, -⟩ := enumrate_spec m.rule n.label.hand.tefda ba n.label.isKakumei
  have henum' : enumrateAvairableHands m'.rule [] n.label.hand.tefda ba n.label.isKakumei =
      .ok (m.rule.setKakumei n.label.isKakumei, hands) := by
    rw [← henum]; simp only [enumrateAvairableHands, hk]
  simp only [expand, henum, henum', except_ok_bind] at hrun hrun'
  cases hh : hands.isEmpty with
  | true =>
    simp only [hh, ↓reduceIte, except_pure] at hrun hrun'
    cases hrun
    cases hrun'
    exact ⟨rfl, rfl⟩
  | false =>
    simp only [hh, Bool.false_eq_true, ↓reduceIte] at hrun hrun'
    obtain ⟨⟨s, x⟩, hloop, hrun⟩ := bind_ok hrun
    obtain ⟨⟨s', x'⟩, hloop', hrun'⟩ := bind_ok hrun'
    have hx : x ≠ some .null := by rintro rfl; cases hrun; exact hg rfl
    have hx' : x' ≠ some .null := by rintro rfl; cases hrun'; exact hg' rfl
    have hround : ∀ hand s s' out out', SameScan s s' → classifyBody w env isRoot hand s = .ok out →
        classifyBody w' { env with timelimit := L } isRoot hand s' = .ok out' →
        out.2 ≠ some .null → out'.2 ≠ some .null → out.2 = out'.2 ∧ SameScan out.1 out'.1 :=
      fun _ _ _ _ _ h hb hb' => classifyBody_same h hb hb'
    obtain ⟨rfl, hs⟩ : x = x' ∧ SameScan s s' := by
      refine Loop.forEach_rel (G := fun x => x ≠ some Exit.null) (by simp) hround ?_ hloop hloop' hx
        hx'
      exact ⟨rfl, rfl, rfl, rfl⟩
    cases x with
    | some x =>
      cases hrun
      cases hrun'
      exact ⟨rfl, by rw [hs.node]⟩
    | none =>
      obtain ⟨⟨g1, e1⟩, hc, hrun⟩ := bind_ok hrun
      obtain ⟨⟨g2, e2⟩, hc', hrun'⟩ := bind_ok hrun'
      rw [createChildren_same hs, hc] at hc'
      cases hc'
      cases hrun
      cases hrun'
      exact ⟨rfl, rfl⟩

end

/-- The expansion of the node at `p` leaves `g` and ends with `e`, in time and in some
surroundings. -/
def Expands (env : SearchEnv α) (cls : RuleClass) (ba : CardSet) (tree : EvalNode α) (p : NodePtr)
    (g : Grow α) (e : Option Exit) : Prop :=
  ∃ w L m m' n, tree.get? p = some n ∧ m.rule.cls = cls ∧ e ≠ some .null ∧
    expand w { env with timelimit := L } p.isRoot (lookAhead tree p) ba m n = .ok ((m', g), e)

section

variable {env : SearchEnv α} {cls : RuleClass} {ba : CardSet} {tree : EvalNode α} {p : NodePtr}
  {gs gs' : List (NodePtr × Grow α)}

theorem Expands.unique {g g' : Grow α} {e e' : Option Exit} (h : Expands env cls ba tree p g e)
    (h' : Expands env cls ba tree p g' e') : e = e' ∧ g = g' := by
  obtain ⟨w, L, m, m1, n, hn, hm, hg, hrun⟩ := h
  obtain ⟨w', L', m', m1', n', hn', hm', hg', hrun'⟩ := h'
  cases hn.symm.trans hn'
  exact expand_same (hm.trans hm'.symm) hrun hrun' hg hg'

/-- Two lists of the expansions of one level are the same up to their order. -/
theorem perm_of_expands (hp : (gs.map Prod.fst).Perm (gs'.map Prod.fst))
    (hnd : (gs.map Prod.fst).Nodup) (h : ∀ x ∈ gs, Expands env cls ba tree x.1 x.2 none)
    (h' : ∀ x ∈ gs', Expands env cls ba tree x.1 x.2 none) : gs.Perm gs' := by
  have hsub : ∀ {as bs : List (NodePtr × Grow α)}, (as.map Prod.fst).Perm (bs.map Prod.fst) →
      (∀ x ∈ as, Expands env cls ba tree x.1 x.2 none) →
      (∀ x ∈ bs, Expands env cls ba tree x.1 x.2 none) → ∀ x ∈ as, x ∈ bs := by
    intro as bs hp ha hb x hx
    obtain ⟨y, hy, hxy⟩ := List.mem_map.mp (hp.mem_iff.mp (List.mem_map_of_mem hx))
    have hex := hb y hy
    rw [hxy] at hex
    have : y = x := Prod.ext hxy (hex.unique (ha x hx)).2
    exact this ▸ hy
  rw [List.perm_ext_iff_of_nodup (List.Nodup.of_map _ hnd)
    (List.Nodup.of_map _ (hp.nodup_iff.mp hnd))]
  exact fun x => ⟨hsub hp h h' x, hsub hp.symm h' h x⟩

end

/-! ## The levels of the search -/

/-- The search from the frontier `nodes` of level `d` on, with the expansions of each level in
any order. The result is the tree if all levels were gone through, and nothing if a node was
returned. -/
inductive Levels (env : SearchEnv α) (cls : RuleClass) :
    Nat → CardSet → List NodePtr → EvalNode α → Option (EvalNode α) → Prop
  | found {d ba nodes tree p g e} : p ∈ nodes → Expands env cls ba tree p g (some e) →
      Levels env cls d ba nodes tree none
  | exhausted {d ba tree gs} : (∀ x ∈ gs, Expands env cls ba tree x.1 x.2 none) → nextAll gs = [] →
      Levels env cls d ba (gs.map Prod.fst) tree (some (growAll gs tree))
  | next {d ba tree gs nodes r} : (∀ x ∈ gs, Expands env cls ba tree x.1 x.2 none) →
      nextAll gs ≠ [] → nodes.Perm (nextAll gs) →
      Levels env cls (d + 1) ∅ nodes (growAll gs tree) r →
      Levels env cls d ba (gs.map Prod.fst) tree r

section

variable {env : SearchEnv α} {cls : RuleClass}

/-- A level cannot both return a node and be gone through. -/
theorem not_found_of_expands {ba : CardSet} {tree : EvalNode α} {nodes : List NodePtr}
    {p : NodePtr} {g : Grow α} {e : Exit} {gs : List (NodePtr × Grow α)} (hp : p ∈ nodes)
    (hfound : Expands env cls ba tree p g (some e))
    (hgs : ∀ x ∈ gs, Expands env cls ba tree x.1 x.2 none)
    (hperm : nodes.Perm (gs.map Prod.fst)) : False := by
  obtain ⟨x, hx, rfl⟩ := List.mem_map.mp (hperm.mem_iff.mp hp)
  have := (hfound.unique (hgs x hx)).1
  cases this

/-- **One result for all orders.** -/
theorem Levels.unique {d : Nat} {ba : CardSet} {nodes nodes' : List NodePtr} {tree : EvalNode α}
    {r r' : Option (EvalNode α)} (h : Levels env cls d ba nodes tree r)
    (h' : Levels env cls d ba nodes' tree r') (hperm : nodes.Perm nodes') (hnd : nodes.Nodup)
    (hl : ∀ p ∈ nodes, p.length = d) : r = r' := by
  induction h generalizing nodes' r' with
  | found hp hfound =>
    cases h' with
    | found => rfl
    | exhausted hgs _ => exact (not_found_of_expands hp hfound hgs hperm).elim
    | next hgs _ _ _ => exact (not_found_of_expands hp hfound hgs hperm).elim
  | @exhausted d ba tree gs hgs hnil =>
    cases h' with
    | found hp hfound => exact (not_found_of_expands hp hfound hgs hperm.symm).elim
    | exhausted hgs' _ =>
      have hgl : ∀ x ∈ gs, x.1.length = d := fun x hx => hl _ (List.mem_map_of_mem hx)
      rw [growAll_perm (perm_of_expands hperm hnd hgs hgs') hgl hnd]
    | next hgs' hne _ _ =>
      have := nextAll_perm (perm_of_expands hperm hnd hgs hgs')
      rw [hnil] at this
      exact (hne (List.nil_perm.mp this)).elim
  | @next d ba tree gs nodes r hgs hne hnodes _ ih =>
    have hgl : ∀ x ∈ gs, x.1.length = d := fun x hx => hl _ (List.mem_map_of_mem hx)
    cases h' with
    | found hp hfound => exact (not_found_of_expands hp hfound hgs hperm.symm).elim
    | exhausted hgs' hnil =>
      have := nextAll_perm (perm_of_expands hperm hnd hgs hgs')
      rw [hnil] at this
      exact (hne (List.perm_nil.mp this)).elim
    | next hgs' _ hnodes' hrest =>
      have hgp := perm_of_expands hperm hnd hgs hgs'
      rw [← growAll_perm hgp hgl hnd] at hrest
      refine ih hrest (hnodes.trans ((nextAll_perm hgp).trans hnodes'.symm))
        (hnodes.nodup_iff.mpr nodup_nextAll) fun q hq => ?_
      obtain ⟨x, hx, i, -, rfl⟩ := mem_nextAll.mp (hnodes.mem_iff.mp hq)
      simp [hgl x hx]

/-- What is known in the middle of a level that started with `tree`. -/
structure MidLevel (env : SearchEnv α) (cls : RuleClass) (baCards : CardSet) (tree : EvalNode α)
    (gs : List (NodePtr × Grow α)) (s : Search α) : Prop where
  expands : ∀ x ∈ gs, Expands env cls baCards tree x.1 x.2 none
  tree : s.tree = growAll gs tree
  next : s.nextNodes = nextAll gs

/-- One step in the middle of a level: the expansion is that of the tree at its start. -/
theorem MidLevel.visit (hev : env.Evaluates) {ba deck baCards : CardSet} {k : Bool} {w : World}
    {t d : Nat} {tree : EvalNode α} {gs : List (NodePtr × Grow α)} {p : NodePtr}
    {rest : List NodePtr} {s : Search α} (h : MidLevel env cls baCards tree gs s)
    (hinv : SearchInv env cls ba deck k t ⟨d, baCards, p :: rest, s⟩)
    (hgs : ∀ x ∈ gs, x.1.length = d) (hp : p ∉ gs.map Prod.fst) :
    ∃ out, visit w env baCards p s = .ok out ∧
      Loop.Ends (fun s' => SearchInv env cls ba deck k t ⟨d, baCards, rest, s'⟩ ∧
          ∃ g, MidLevel env cls baCards tree (gs ++ [(p, g)]) s')
        (fun s' r => (r = none → TimedOut w env t s'.mach.ticks) ∧
          (r ≠ none → ∃ g e, Expands env cls baCards tree p g (some e))) out := by
  obtain ⟨⟨s', o⟩, hrun, hend⟩ := visit_spec (w := w) hev hinv
  obtain ⟨n, g, e, hn, hexp, htree, rfl, hnext⟩ := visit_expand hrun
  have hlen : p.length = d := (hinv.todo.leaf p (by simp)).1
  have hgl : ∀ x ∈ gs, x.1.length = p.length := fun x hx => (hgs x hx).trans hlen.symm
  rw [h.tree, lookAhead_growAll hgl] at hexp
  rw [h.tree, get?_growAll hgl hp] at hn
  have hExp : e ≠ some .null → Expands env cls baCards tree p g e := fun hne =>
    ⟨w, env.timelimit, s.mach, s'.mach, n, hn, hinv.rule, hne, hexp⟩
  refine ⟨_, hrun, ?_⟩
  cases e with
  | none =>
    have hinv' : SearchInv env cls ba deck k t ⟨d, baCards, rest, s'⟩ := hend
    refine ⟨hinv', g, fun x hx => ?_, ?_, ?_⟩
    · rcases List.mem_append.mp hx with hx | hx
      · exact h.expands x hx
      · rw [List.mem_singleton.mp hx]; exact hExp (by simp)
    · rw [htree, h.tree, growAll, growAll, List.foldl_append]; rfl
    · rw [hnext rfl, h.next, nextAll, nextAll, List.foldl_append]; rfl
  | some e =>
    obtain ⟨-, htime⟩ : _ ∧ (e.ptr p = none → TimedOut w env s.mach.ticks s'.mach.ticks) := hend
    refine ⟨fun hr => (htime hr).mono hinv.ticks le_rfl, fun hr => ⟨g, e, hExp ?_⟩⟩
    rintro he
    cases he
    exact hr rfl

/-- The loop over a frontier in time: all its nodes are expanded, or one of them is returned. -/
theorem frontier_spec (hev : env.Evaluates) {ba deck baCards : CardSet} {k : Bool} {w : World}
    {t d : Nat} {tree : EvalNode α} {m : Mach} {nodes : List NodePtr}
    (hinv : SearchInv env cls ba deck k t ⟨d, baCards, nodes, ⟨m, tree, []⟩⟩) :
    ∃ out, Loop.forEach (visit w env baCards) nodes ⟨m, tree, []⟩ = .ok out ∧
      Loop.Ends (fun s => SearchInv env cls ba deck k t ⟨d, baCards, [], s⟩ ∧
          ∃ gs, gs.map Prod.fst = nodes ∧ MidLevel env cls baCards tree gs s)
        (fun s r => (r = none → TimedOut w env t s.mach.ticks) ∧
          (r ≠ none → ∃ p g e, p ∈ nodes ∧ Expands env cls baCards tree p g (some e))) out := by
  have hl : ∀ p ∈ nodes, p.length = d := fun p hp => (hinv.todo.leaf p hp).1
  have hnd : nodes.Nodup := hinv.todo.nodup
  have hstart : ∀ rest, nodes = [] ++ rest →
      SearchInv env cls ba deck k t ⟨d, baCards, rest, ⟨m, tree, []⟩⟩ := by
    rintro rest rfl
    exact hinv
  have hloop := Loop.forEach_total (f := visit w env baCards) (l := nodes)
    (I := fun done s => (∀ rest, nodes = done ++ rest →
        SearchInv env cls ba deck k t ⟨d, baCards, rest, s⟩) ∧
      ∃ gs, gs.map Prod.fst = done ∧ MidLevel env cls baCards tree gs s)
    (Q := fun s r => (r = none → TimedOut w env t s.mach.ticks) ∧
      (r ≠ none → ∃ p g e, p ∈ nodes ∧ Expands env cls baCards tree p g (some e))) ?_
    (s := ⟨m, tree, []⟩) ⟨hstart, [], rfl, by simp, rfl, rfl⟩
  · obtain ⟨⟨s, r⟩, hrun, hend⟩ := hloop
    refine ⟨_, hrun, ?_⟩
    cases r with
    | none => exact ⟨hend.1 [] (by simp), hend.2⟩
    | some r => exact hend
  · rintro done p rest s hnodes ⟨hinv, gs, rfl, hmid⟩
    have hmem : ∀ x ∈ gs, x.1 ∈ nodes := fun x hx => by
      rw [hnodes]; exact List.mem_append_left _ (List.mem_map_of_mem hx)
    have hp : p ∉ gs.map Prod.fst := fun hp => by
      rw [hnodes, List.nodup_append] at hnd
      exact hnd.2.2 p hp p (by simp) rfl
    obtain ⟨⟨s', r⟩, hrun, hend⟩ := hmid.visit (w := w) hev (hinv _ hnodes)
      (fun x hx => hl _ (hmem x hx)) hp
    refine ⟨_, hrun, ?_⟩
    cases r with
    | none =>
      obtain ⟨hinv', g, hmid'⟩ := hend
      refine ⟨fun rest' hr => ?_, gs ++ [(p, g)], by simp, hmid'⟩
      have : rest = rest' := by simpa using hnodes.symm.trans hr
      exact this ▸ hinv'
    | some r =>
      refine ⟨hend.1, fun hr => ?_⟩
      obtain ⟨g, e, hexp⟩ := hend.2 hr
      exact ⟨p, g, e, by simp [hnodes], hexp⟩

/-- **The search runs through the levels.** Its result in time is that of `Levels`. -/
theorem thinkRecursive_levels (hev : env.Evaluates) {ba deck : CardSet} {k : Bool} {w : World} :
    ∀ fuel d baCards nodes m tree m' tree' r,
      SearchInv env cls ba deck k m.ticks ⟨d, baCards, w.order d nodes, ⟨m, tree, []⟩⟩ →
      thinkRecursive w env fuel d baCards nodes m tree = .ok (m', tree', r) →
      ¬ TimedOut w env m.ticks m'.ticks →
      Levels env cls d baCards (w.order d nodes) tree (if r = none then some tree' else none) := by
  intro fuel
  induction fuel with
  | zero => intro d baCards nodes m tree m' tree' r _ hrun; cases hrun
  | succ fuel ih =>
    intro d baCards nodes m tree m' tree' r hinv hrun htime
    obtain ⟨⟨s, o⟩, hloop, hend⟩ := frontier_spec (w := w) hev hinv
    simp only [thinkRecursive, hloop, except_ok_bind] at hrun
    cases o with
    | some r' =>
      cases hrun
      cases r with
      | none => exact (htime (hend.1 rfl)).elim
      | some q =>
        obtain ⟨p, g, e, hp, hexp⟩ := hend.2 (by simp)
        exact .found hp hexp
    | none =>
      obtain ⟨hinv', gs, hgs, hmid⟩ := hend
      rw [← hgs]
      by_cases hnext : s.nextNodes = []
      · simp only [hnext, List.isEmpty_nil, Bool.not_true, Bool.false_eq_true, ↓reduceIte,
          except_pure] at hrun
        cases hrun
        rw [if_pos rfl, hmid.tree]
        exact .exhausted hmid.expands (hmid.next ▸ hnext)
      · simp only [List.isEmpty_eq_false_iff.mpr hnext, Bool.not_false, ↓reduceIte] at hrun
        have hticks : m.ticks ≤ s.mach.ticks := hinv'.ticks
        have hlevel := hinv'.nextLevel (w := w)
        have hrest := ih (d + 1) ∅ s.nextNodes s.mach s.tree m' tree' r
          ⟨hlevel.tree, hlevel.table, hlevel.todo, hlevel.next, hlevel.rule, le_rfl⟩ hrun
          fun ht => htime (ht.mono hticks le_rfl)
        rw [hmid.tree] at hrest
        exact .next hmid.expands (hmid.next ▸ hnext) (hmid.next ▸ w.order_perm _ _) hrest

/-- The limit itself plays no part in time. -/
theorem Levels.timelimit {d : Nat} {ba : CardSet} {nodes : List NodePtr} {tree : EvalNode α}
    {r : Option (EvalNode α)} (L : Int) (h : Levels env cls d ba nodes tree r) :
    Levels { env with timelimit := L } cls d ba nodes tree r := by
  induction h with
  | found hp hexp => exact .found hp hexp
  | exhausted hgs hnil => exact .exhausted hgs hnil
  | next hgs hne hp _ ih => exact .next hgs hne hp ih

end

/-! ## The turn -/

/-- The clock did not pass the limit in a search that started in `mach` and ended in `m`. -/
def InTime (w : World) (mach m : Mach) : Prop :=
  ∀ n, mach.ticks < n → n < m.ticks → w.clock n ≤ w.clock mach.ticks + thinkTimeLimit

theorem search_levels {w : World} {ctx : DaifugoContext} {ba : CardSet} {mach m : Mach}
    {tree : EvalNode α} {r : Option NodePtr} (hrun : search w ctx ba mach = .ok (m, tree, r))
    (htime : InTime w mach m) :
    Levels (searchEnv ctx 0) mach.rule.cls 0 ba [[]] (EvalNode.new ctx.deck ctx.isKakumei)
      (if r = none then some tree else none) := by
  have hord : w.order 0 [[]] = [[]] := List.perm_singleton.mp (w.order_perm 0 [[]])
  have hlevels := thinkRecursive_levels (searchEnv_evaluates ctx (w.clock mach.ticks +
    thinkTimeLimit)) _ _ _ _ _ _ _ _ _ (.start w (m := (mach.time w).2) rfl) hrun (by
      rintro ⟨n, hn, hlt, hlim⟩
      have : w.clock n ≤ w.clock mach.ticks + thinkTimeLimit := htime n hn hlt
      exact absurd hlim (by simpa [searchEnv] using this))
  rw [hord] at hlevels
  exact hlevels.timelimit 0

/-- The hand that the fallback returns depends on the tree only. -/
theorem fallback_fst (w w' : World) (sp sp' : SagePlayer α) (tree : EvalNode α) :
    (fallback w sp tree).map Prod.fst = (fallback w' sp' tree).map Prod.fst := by
  have hend : ∀ q : NodePtr,
      (heirHand tree q >>= fun hh =>
        (.ok (hh, { sp with mach := tweetPass w hh sp.mach }) : Except Fault _)).map Prod.fst =
      (heirHand tree q >>= fun hh =>
        (.ok (hh, { sp' with mach := tweetPass w' hh sp'.mach }) : Except Fault _)).map
          Prod.fst := by
    intro q
    cases heirHand tree q <;> rfl
  unfold fallback
  cases EvalNode.findBestParamChild tree with
  | some x => exact hend x.1
  | none =>
    simp only
    cases getChildAt tree ((EvalNode.numOfChildren tree : Int) - 1) with
    | error e => rfl
    | ok q => exact hend q

/-- **The order of the frontiers does not matter.** Two searches for one turn, in any two worlds
in which the time does not run out, both find a plan or both find none; and if they find none,
the two calls of `think2` return the same hand. -/
theorem order_irrelevant (w w' : World) (sp : SagePlayer α) (ctx : DaifugoContext)
    (ba : CardSet) :
    ∃ m m' tree tree' r r', search (α := α) w ctx ba sp.mach = .ok (m, tree, r) ∧
      search (α := α) w' ctx ba sp.mach = .ok (m', tree', r') ∧
      (InTime w sp.mach m → InTime w' sp.mach m' →
        (r = none ↔ r' = none) ∧
        (r = none → (think2 w sp ctx ba).map Prod.fst = (think2 w' sp ctx ba).map Prod.fst)) := by
  obtain ⟨s, r, hrun, -⟩ := search_spec (α := α) w ctx ba sp.mach
  obtain ⟨s', r', hrun', -⟩ := search_spec (α := α) w' ctx ba sp.mach
  refine ⟨s.mach, s'.mach, s.tree, s'.tree, r, r', hrun, hrun', fun htime htime' => ?_⟩
  have heq := (search_levels hrun htime).unique (search_levels hrun' htime') (.refl _)
    (List.nodup_singleton _) (by simp)
  cases r with
  | some q =>
    cases r' with
    | some q' => simp
    | none => simp at heq
  | none =>
    cases r' with
    | some q' => simp at heq
    | none =>
      have htree : s.tree = s'.tree := by simpa using heq
      refine ⟨by simp, fun _ => ?_⟩
      simp only [think2, hrun, hrun', except_ok_bind, htree]
      exact fallback_fst w w' _ _ _

end SagePlayer

end Neof5
