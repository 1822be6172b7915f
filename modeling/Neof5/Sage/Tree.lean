import Neof5.Sage.Expand

/-!
# The search as a run of expansions

`Step` is one step of the search: the expansion of the next node of the frontier, or the change
to the next level. `thinkRecursive_rule` is the rule for the whole search: what a step preserves
holds to the end.

The invariant is `SearchInv`. The tree grows from the root by `Attached` children only
(`TreeInv`), and the frontiers hold different leaves of one level.

* `thinkRecursive_spec`: the search returns, and what it returns.
* `TreeInv.path`: along every path the hand cards are dealt out without a rest and without a
  card twice.
* `result_complete`: so a node that is returned is a complete plan.
-/

namespace Neof5

open CardSet

theorem NodePtr.getHeirOfRoot_snoc (q : NodePtr) (i : Nat) :
    NodePtr.getHeirOfRoot (q ++ [i]) = [i] := by
  induction q with
  | nil => rfl
  | cons j q ih =>
    cases q with
    | nil => rfl
    | cons l q => exact ih

namespace SagePlayer

variable {α : Type} [Score α]

/-- A state of the search: the level, the table, the nodes that are left to expand, and the
state of the loop over them. -/
structure Conf (α : Type) where
  level : Nat
  baCards : CardSet
  todo : List NodePtr
  state : Search α

/-- The state after the change to the next level. -/
def nextLevel (w : World) (d : Nat) (s : Search α) : Conf α :=
  ⟨d + 1, ∅, w.order (d + 1) s.nextNodes, { s with nextNodes := [] }⟩

/-- One step of the search. -/
inductive Step (w : World) (env : SearchEnv α) : Conf α → Conf α → Prop
  | visit {d ba p todo s s'} : visit w env ba p s = .ok (s', none) →
      Step w env ⟨d, ba, p :: todo, s⟩ ⟨d, ba, todo, s'⟩
  | level {d ba s} : s.nextNodes ≠ [] → Step w env ⟨d, ba, [], s⟩ (nextLevel w d s)

section Rule

variable {w : World} {env : SearchEnv α} {I : Conf α → Prop}
  {Q : Search α → Option NodePtr → Prop} {N : Nat}

/-- The rule for the search. `I` holds before each step, and it bounds the level by `N`; `Q`
holds at the end. -/
theorem thinkRecursive_rule
    (hvisit : ∀ d ba p todo s, I ⟨d, ba, p :: todo, s⟩ →
      ∃ out, visit w env ba p s = .ok out ∧ Loop.Ends (fun s' => I ⟨d, ba, todo, s'⟩) Q out)
    (hlevel : ∀ d ba s, I ⟨d, ba, [], s⟩ → s.nextNodes ≠ [] → I (nextLevel w d s))
    (hend : ∀ d ba s, I ⟨d, ba, [], s⟩ → s.nextNodes = [] → Q s none)
    (hbound : ∀ c, I c → c.todo ≠ [] → c.level < N) :
    ∀ fuel d ba nodes m tree, d + fuel = N → nodes ≠ [] →
      I ⟨d, ba, w.order d nodes, ⟨m, tree, []⟩⟩ →
      ∃ s r, thinkRecursive w env fuel d ba nodes m tree = .ok (s.mach, s.tree, r) ∧ Q s r := by
  intro fuel
  induction fuel with
  | zero =>
    intro d ba nodes m tree hN hne hI
    have hord : w.order d nodes ≠ [] := fun h =>
      hne (List.nil_perm.mp (h ▸ w.order_perm d nodes))
    have := hbound _ hI hord
    simp only at this
    omega
  | succ fuel ih =>
    intro d ba nodes m tree hN hne hI
    obtain ⟨⟨s, r⟩, hrun, hends⟩ := Loop.forEach_total
      (I := fun done s => ∀ rest, w.order d nodes = done ++ rest → I ⟨d, ba, rest, s⟩)
      (fun done p rest s hxs hinv => by
        obtain ⟨⟨s', o⟩, hv, he⟩ := hvisit d ba p rest s (hinv _ hxs)
        refine ⟨_, hv, ?_⟩
        cases o with
        | none =>
          intro rest' hxs'
          have : rest = rest' := by simpa using hxs.symm.trans hxs'
          exact this ▸ he
        | some r => exact he)
      (s := (⟨m, tree, []⟩ : Search α))
      (fun rest h => by rw [← List.nil_append rest, ← h]; exact hI)
    simp only [thinkRecursive, hrun, except_ok_bind]
    cases r with
    | some r => exact ⟨s, r, rfl, hends⟩
    | none =>
      have hI' : I ⟨d, ba, [], s⟩ := hends [] (by simp)
      by_cases hnext : s.nextNodes = []
      · exact ⟨s, none, by simp [hnext], hend d ba s hI' hnext⟩
      · have := ih (d + 1) ∅ s.nextNodes s.mach s.tree (by omega) hnext (hlevel d ba s hI' hnext)
        simpa [hnext] using this

end Rule

/-! ## The invariant -/

/-- The table against which the hands at a node are enumerated: below the root it is empty. -/
def tableAt (ba : CardSet) (p : NodePtr) : CardSet := if p.isRoot then ba else ∅

/-- Every node that has a parent is related to it by `E`, which also sees where the parent is and
whether the search looks at the strong hands there. -/
def Edges (E : NodePtr → Bool → Pos α → Pos α → Prop) (tree : EvalNode α) : Prop :=
  ∀ i (p : NodePtr) d e, tree.label? p = some d → tree.label? (i :: p) = some e →
    E p (lookAhead tree p) d.pos e.pos

/-- A tree of one node has no edges. -/
theorem Edges.new {E : NodePtr → Bool → Pos α → Pos α → Prop} (deck : CardSet) (k : Bool) :
    Edges E (EvalNode.new deck k) := by
  intro i p d e _ he
  obtain ⟨c, hc, -⟩ := Rose.label?_eq_some.mp he
  rw [Rose.get?_of_leaf rfl (by simp)] at hc
  cases hc

section Invariant

variable (env : SearchEnv α) (cls : RuleClass) (ba deck : CardSet) (k : Bool)

/-- The tree of a search that started with the hand cards `deck` against `ba`. -/
structure TreeInv (tree : EvalNode α) : Prop where
  root : tree.label.pos = ⟨∅, deck, 0, k⟩
  edge : Edges (fun p look u v => Attached env cls p.isRoot look (tableAt ba p) u v) tree

/-- Different leaves of one level. -/
structure Frontier (tree : EvalNode α) (level : Nat) (nodes : List NodePtr) : Prop where
  nodup : nodes.Nodup
  leaf : ∀ p ∈ nodes, p.length = level ∧ ∃ n, tree.get? p = some n ∧ n.children = []

/-- The invariant of the search; `t` is the number of clock readings before it. -/
structure SearchInv (t : Nat) (c : Conf α) : Prop where
  tree : TreeInv env cls ba deck k c.state.tree
  table : c.baCards = if c.level = 0 then ba else ∅
  todo : Frontier c.state.tree c.level c.todo
  next : Frontier c.state.tree (c.level + 1) c.state.nextNodes
  rule : c.state.mach.rule.cls = cls
  ticks : t ≤ c.state.mach.ticks

/-- The state in which the search returns `r`. A node that is returned is the root, without a
hand to play, or a node without hand cards. -/
structure Returned (t : Nat) (s : Search α) (r : Option NodePtr) : Prop where
  tree : TreeInv env cls ba deck k s.tree
  rule : s.mach.rule.cls = cls
  ticks : t ≤ s.mach.ticks
  node : ∀ q, r = some q → ∃ d, s.tree.label? q = some d ∧
    (q = [] ∧ (∀ H, H ⊆ deck → Playable ⟨cls, k⟩ ba H → 4 ≤ ba.size) ∨
      q ≠ [] ∧ d.hand.tefda = ∅)

end Invariant

section

variable {env : SearchEnv α} {cls : RuleClass} {ba deck : CardSet} {k : Bool}
  {tree : EvalNode α} {p : NodePtr} {n n' : EvalNode α}

omit [Score α] in
/-- The condition on the heir of the root stays the same when a node below the root changes, as
long as the node keeps its hand. -/
theorem lookAhead_modify (hp : tree.get? p = some n) (hpos : n'.label.pos = n.label.pos)
    {i : Nat} {q : NodePtr} (hr : p ≠ [] ∨ q = []) :
    lookAhead (tree.modify p fun _ => n') (q ++ [i]) = lookAhead tree (q ++ [i]) := by
  cases q with
  | nil => rfl
  | cons j q =>
    have hr := hr.resolve_right (by simp)
    simp only [lookAhead, NodePtr.getHeirOfRoot_snoc]
    by_cases hip : [i] = p
    · subst hip
      rw [Rose.label?, Rose.get?_modify, Rose.label?, hp]
      have hhand : n'.label.hand.hand = n.label.hand.hand := congrArg Pos.hand hpos
      simp [hhand]
    · have hle : [i].length ≤ p.length := List.length_pos_of_ne_nil hr
      rw [Rose.label?_modify_of_length_le hle hip]

omit [Score α] in
/-- The nodes below the root after the expansion of a leaf: the new children, and the old nodes with
their positions. -/
theorem label?_expanded (hp : tree.get? p = some n) (hpos : n'.label.pos = n.label.pos)
    (hleaf : ∀ c ∈ n'.children, c.children = []) {i : Nat} {q : NodePtr} {e : NodeData α}
    (he : (tree.modify p fun _ => n').label? (i :: q) = some e) :
    (q = p ∧ ∃ c, n'.children[i]? = some c ∧ c.label = e) ∨
    (q ≠ p ∧ ¬ p <:+ q ∧ ∃ e', tree.label? (i :: q) = some e' ∧ e'.pos = e.pos) := by
  have hbelow : ∀ r, (tree.modify p fun _ => n').get? (r ++ p) = n'.get? r := fun r => by
    rw [Rose.get?_modify_append, hp]; rfl
  by_cases hq : q = p
  · subst hq
    obtain ⟨c, hc, hl⟩ := Rose.label?_eq_some.mp he
    rw [← List.singleton_append, hbelow] at hc
    exact .inl ⟨rfl, c, hc, hl⟩
  by_cases hs : p <:+ q
  · -- Below a child there is nothing.
    obtain ⟨r, rfl⟩ := hs
    rcases List.eq_nil_or_concat r with rfl | ⟨r', j, rfl⟩
    · exact (hq rfl).elim
    obtain ⟨c, hc, -⟩ := Rose.label?_eq_some.mp he
    rw [← List.cons_append, hbelow, List.concat_eq_append, ← List.cons_append, Rose.get?_snoc,
      Option.bind_eq_some_iff] at hc
    obtain ⟨m, hm, hc⟩ := hc
    rw [Rose.get?_of_leaf (hleaf m (List.mem_of_getElem? hm)) (by simp)] at hc
    cases hc
  · refine .inr ⟨hq, hs, ?_⟩
    by_cases hiq : i :: q = p
    · -- The expanded node itself keeps its position.
      subst hiq
      cases (Rose.label?_modify_self hp n').symm.trans he
      exact ⟨n.label, Rose.label?_of_get? hp, hpos.symm⟩
    · have hs' : ¬ p <:+ i :: q := fun hs' => by
        rcases List.suffix_cons_iff.mp hs' with hs' | hs'
        · exact hiq hs'.symm
        · exact hs hs'
      rw [Rose.label?_modify_of_not_suffix hs'] at he
      exact ⟨e, he, rfl⟩

omit [Score α] in
/-- The expansion of a leaf keeps a relation along the edges that its children satisfy. -/
theorem Edges.modify {E : NodePtr → Bool → Pos α → Pos α → Prop} (h : Edges E tree)
    (hp : tree.get? p = some n) (hpos : n'.label.pos = n.label.pos)
    (hleaf : ∀ c ∈ n'.children, c.children = [])
    (hkids : ∀ c ∈ n'.children, E p (lookAhead tree p) n.label.pos c.label.pos) :
    Edges E (tree.modify p fun _ => n') := by
  have hlook : ∀ q : NodePtr, ¬ (p = [] ∧ 2 ≤ q.length) →
      lookAhead (tree.modify p fun _ => n') q = lookAhead tree q := by
    intro q hq
    rcases List.eq_nil_or_concat q with rfl | ⟨q, i, rfl⟩
    · rfl
    · rw [List.concat_eq_append] at hq ⊢
      refine lookAhead_modify hp hpos ?_
      by_contra hr
      push Not at hr
      have := List.length_pos_of_ne_nil hr.2
      exact hq ⟨hr.1, by simp; omega⟩
  intro i q d e hd he
  rcases label?_expanded hp hpos hleaf he with ⟨rfl, c, hc, rfl⟩ | ⟨hq, hs, e', he', hpose⟩
  · cases (Rose.label?_modify_self hp n').symm.trans hd
    rw [hpos, hlook q (by rintro ⟨rfl, h⟩; simp at h)]
    exact hkids c (List.mem_of_getElem? hc)
  · have hpne : p ≠ [] := by rintro rfl; exact hs List.nil_suffix
    rw [Rose.label?_modify_of_not_suffix hs] at hd
    rw [hlook q fun h => hpne h.1, ← hpose]
    exact h i q d e' hd he'

/-- The expansion of a leaf keeps the invariant of the tree. -/
theorem TreeInv.modify (h : TreeInv env cls ba deck k tree) (hp : tree.get? p = some n)
    (hn : Kids env cls p.isRoot (lookAhead tree p) (tableAt ba p) n.label.pos n') :
    TreeInv env cls ba deck k (tree.modify p fun _ => n') := by
  refine ⟨?_, h.edge.modify hp hn.pos hn.leaf hn.attached⟩
  by_cases hroot : p = []
  · subst hroot
    cases hp
    exact hn.pos.trans h.root
  · have := Rose.label?_modify_of_length_le (t := tree) (q := []) (Nat.zero_le _) (Ne.symm hroot)
      (fun _ => n')
    simp only [Rose.label?_nil, Option.some.injEq] at this
    rw [this]; exact h.root

omit [Score α] in
/-- The expansion of a node keeps the other leaves of its level. -/
theorem Frontier.modify {level : Nat} {nodes : List NodePtr} (h : Frontier tree level nodes)
    (hl : p.length = level) (hp : p ∉ nodes) (f : EvalNode α → EvalNode α) :
    Frontier (tree.modify p f) level nodes := by
  refine ⟨h.nodup, fun q hq => ?_⟩
  obtain ⟨hql, n, hn, hleaf⟩ := h.leaf q hq
  have hne : q ≠ p := by rintro rfl; exact hp hq
  exact ⟨hql, n, by rw [Rose.get?_modify_of_length_eq (by omega) hne]; exact hn, hleaf⟩

omit [Score α] in
/-- The expansion of a leaf keeps the leaves of the next level. -/
theorem Frontier.modify_next {level : Nat} {nodes : List NodePtr}
    (h : Frontier tree (level + 1) nodes) (hl : p.length = level) (hp : tree.get? p = some n)
    (hleaf : n.children = []) (f : EvalNode α → EvalNode α) :
    Frontier (tree.modify p f) (level + 1) nodes := by
  refine ⟨h.nodup, fun q hq => ?_⟩
  obtain ⟨hql, c, hc, hcleaf⟩ := h.leaf q hq
  obtain ⟨i, q, rfl⟩ := List.exists_cons_of_length_eq_add_one hql
  have hne : q ≠ p := by
    rintro rfl
    rw [Rose.get?_cons, hp, Option.bind_some, hleaf] at hc
    simp at hc
  refine ⟨hql, c, ?_, hcleaf⟩
  rw [Rose.get?_cons, Rose.get?_modify_of_length_eq (by simpa [hl] using hql) hne,
    ← Rose.get?_cons]
  exact hc

/-- `nextNodes.insert` over a list of children. -/
theorem mem_insertAll {next : List Nat} {ns : List NodePtr} {q : NodePtr} :
    q ∈ next.foldl (fun ns i => ns.insert (i :: p)) ns ↔ q ∈ ns ∨ ∃ i ∈ next, q = i :: p := by
  induction next generalizing ns with
  | nil => simp
  | cons i next ih =>
    rw [List.foldl_cons, ih, List.mem_insert_iff]
    simp only [List.mem_cons, exists_eq_or_imp]
    tauto

theorem nodup_insertAll {next : List Nat} {ns : List NodePtr} (h : ns.Nodup) :
    (next.foldl (fun ns i => ns.insert (i :: p)) ns).Nodup := by
  induction next generalizing ns with
  | nil => exact h
  | cons i next ih => exact ih (List.Nodup.insert h)

omit [Score α] in
/-- The frontier of the next level takes in the children of an expanded node. -/
theorem Frontier.insertAll {level : Nat} {nodes : List NodePtr} {next : List Nat}
    (h : Frontier (tree.modify p fun _ => n') (level + 1) nodes) (hl : p.length = level)
    (hp : tree.get? p = some n) (hleaf : ∀ c ∈ n'.children, c.children = [])
    (hnext : ∀ i ∈ next, i < n'.children.length) :
    Frontier (tree.modify p fun _ => n') (level + 1)
      (next.foldl (fun ns i => ns.insert (i :: p)) nodes) := by
  refine ⟨nodup_insertAll h.nodup, fun q hq => ?_⟩
  rcases mem_insertAll.mp hq with hq | ⟨i, hi, rfl⟩
  · exact h.leaf q hq
  · obtain ⟨c, hc⟩ : ∃ c, n'.children[i]? = some c := ⟨_, List.getElem?_eq_getElem (hnext i hi)⟩
    refine ⟨by simp [hl], c, ?_, hleaf c (List.mem_of_getElem? hc)⟩
    rw [Rose.get?_cons, Rose.get?_modify, hp]
    exact hc

/-- On an empty table a node without a hand to play has no hand cards. -/
theorem tefda_eq_empty {r : DaifugoRule} {tefda : CardSet}
    (h : ∀ H, H ⊆ tefda → Playable r ∅ H → 4 ≤ (∅ : CardSet).size) : tefda = ∅ := by
  rw [eq_empty_iff]
  intro c hc
  have := h (single c) (subset_iff.mpr fun d hd => mem_single.mp hd ▸ hc) (playable_single c)
  simp at this

/-- The table at the next node. -/
theorem SearchInv.table_eq {t d : Nat} {baCards : CardSet} {todo : List NodePtr} {s : Search α}
    (h : SearchInv env cls ba deck k t ⟨d, baCards, p :: todo, s⟩) : baCards = tableAt ba p := by
  have hlen : p.length = d := (h.todo.leaf p (by simp)).1
  refine h.table.trans ?_
  simp only [tableAt, ← hlen, NodePtr.isRoot, List.isEmpty_iff, List.length_eq_zero_iff]

/-- A step of the loop over a frontier is an expansion. -/
theorem visit_expand {w : World} {s s' : Search α} {o : Option (Option NodePtr)}
    (h : visit w env ba p s = .ok (s', o)) :
    ∃ n g e, s.tree.get? p = some n ∧
      expand w env p.isRoot (lookAhead s.tree p) ba s.mach n = .ok ((s'.mach, g), e) ∧
      s'.tree = s.tree.modify p (fun _ => g.node) ∧ o = e.map (Exit.ptr p) ∧
      (e = none → s'.nextNodes = g.next.foldl (fun ns i => ns.insert (i :: p)) s.nextNodes) := by
  unfold visit at h
  split at h
  · cases h
  · rename_i n hn
    obtain ⟨⟨⟨m, g⟩, e⟩, hexp, h⟩ := bind_ok h
    cases e with
    | none => cases h; exact ⟨n, g, none, hn, hexp, rfl, rfl, fun _ => rfl⟩
    | some e => cases h; exact ⟨n, g, some e, hn, hexp, rfl, rfl, fun he => by cases he⟩

/-- It puts a node with attached children in the place of a leaf. -/
theorem visit_kids (hev : env.Evaluates) {w : World} {t d : Nat} {baCards : CardSet}
    {todo : List NodePtr} {s s' : Search α} {o : Option (Option NodePtr)}
    (h : SearchInv env cls ba deck k t ⟨d, baCards, p :: todo, s⟩)
    (hrun : visit w env baCards p s = .ok (s', o)) :
    ∃ n n', s.tree.get? p = some n ∧ s'.tree = s.tree.modify p (fun _ => n') ∧
      Kids env cls p.isRoot (lookAhead s.tree p) (tableAt ba p) n.label.pos n' := by
  obtain ⟨n, g, e, hn, hexp, htree, -, -⟩ := visit_expand hrun
  obtain ⟨hlen, n1, hn1, hleaf⟩ := h.todo.leaf p (by simp)
  cases hn.symm.trans hn1
  obtain ⟨out, hexp', hend⟩ := expand_spec w hev p.isRoot (lookAhead s.tree p) baCards h.rule hleaf
  cases hexp.symm.trans hexp'
  rw [show baCards = tableAt ba p from h.table_eq] at hend
  refine ⟨n, g.node, hn, htree, ?_⟩
  cases e with
  | none => exact hend.1.kids
  | some e => exact hend.kids

/-- A node with which an expansion ends the search is the root, without a hand to play, or a node
without hand cards. -/
theorem Stopped.goal {w : World} {t : Nat} {m : Mach} {e : Exit} {q : NodePtr}
    (h : Stopped w env cls p.isRoot (lookAhead tree p) (tableAt ba p) n.label.pos t m n' e)
    (hroot : tree.label.pos = ⟨∅, deck, 0, k⟩) (hn : tree.get? p = some n)
    (hq : Exit.ptr p e = some q) :
    ∃ d, (tree.modify p fun _ => n').label? q = some d ∧
      (q = [] ∧ (∀ H, H ⊆ deck → Playable ⟨cls, k⟩ ba H → 4 ≤ ba.size) ∨
        q ≠ [] ∧ d.hand.tefda = ∅) := by
  cases e with
  | null => cases hq
  | node =>
    cases hq
    cases h.ended with
    | node _ hno =>
      refine ⟨_, Rose.label?_modify_self hn n', ?_⟩
      by_cases hp : p = []
      · subst hp
        cases hn
        rw [hroot] at hno
        exact .inl ⟨rfl, hno⟩
      · have hb : tableAt ba p = ∅ := by simp [tableAt, NodePtr.isRoot, hp]
        rw [hb] at hno
        exact .inr ⟨hp, (congrArg Pos.tefda h.kids.pos).trans (tefda_eq_empty hno)⟩
  | child i =>
    cases hq
    cases h.ended with
    | child hc hemp =>
      refine ⟨_, ?_, .inr ⟨by simp, hemp⟩⟩
      rw [Rose.label?, Rose.get?_cons, Rose.get?_modify, hn]
      simp [hc]

/-- One step of the loop over a frontier keeps the invariant, or the search returns; it returns
null only out of time. -/
theorem visit_spec (hev : env.Evaluates) {w : World} {t d : Nat} {baCards : CardSet}
    {todo : List NodePtr} {s : Search α}
    (h : SearchInv env cls ba deck k t ⟨d, baCards, p :: todo, s⟩) :
    ∃ out, visit w env baCards p s = .ok out ∧
      Loop.Ends (fun s' => SearchInv env cls ba deck k t ⟨d, baCards, todo, s'⟩)
        (fun s' r => Returned env cls ba deck k t s' r ∧
          (r = none → TimedOut w env s.mach.ticks s'.mach.ticks)) out := by
  obtain ⟨hlen, n, hn, hleaf⟩ := h.todo.leaf p (by simp)
  have hlen : p.length = d := hlen
  have htable : baCards = tableAt ba p := h.table_eq
  obtain ⟨⟨⟨m, g⟩, e⟩, hexp, hend⟩ := expand_spec w hev p.isRoot (lookAhead s.tree p) baCards
    h.rule hleaf
  have hticks : t ≤ s.mach.ticks := h.ticks
  simp only [visit, hn, hexp, except_ok_bind]
  cases e with
  | none =>
    obtain ⟨hg, hrule, hm⟩ := hend
    have hg : Growing env cls p.isRoot (lookAhead s.tree p) baCards n.label.pos g := hg
    have hm : s.mach.ticks ≤ m.ticks := hm
    have hp : p ∉ todo := (List.nodup_cons.mp h.todo.nodup).1
    refine ⟨(_, none), rfl, ?_⟩
    constructor
    · exact h.tree.modify hn (htable ▸ hg.kids)
    · exact h.table
    · refine Frontier.modify ⟨(List.nodup_cons.mp h.todo.nodup).2, fun q hq => ?_⟩ hlen hp _
      exact h.todo.leaf q (by simp [hq])
    · exact (h.next.modify_next hlen hn hleaf _).insertAll hlen hn hg.kids.leaf hg.next
    · exact hrule
    · exact hticks.trans hm
  | some e =>
    have hend : Stopped w env cls p.isRoot (lookAhead s.tree p) baCards n.label.pos
        s.mach.ticks m g.node e := hend
    rw [htable] at hend
    refine ⟨(_, some _), rfl, ⟨h.tree.modify hn hend.kids, hend.sameRule, hticks.trans hend.ticks,
      fun q hq => hend.goal h.tree.root hn hq⟩, fun hr => ?_⟩
    cases e with
    | null => cases hend.ended with | null _ ht => exact ht
    | node => cases hr
    | child => cases hr

/-- The change to the next level keeps the invariant. -/
theorem SearchInv.nextLevel {w : World} {t d : Nat} {baCards : CardSet} {s : Search α}
    (h : SearchInv env cls ba deck k t ⟨d, baCards, [], s⟩) :
    SearchInv env cls ba deck k t (nextLevel w d s) := by
  refine ⟨h.tree, by simp [SagePlayer.nextLevel], ⟨?_, fun p hp => ?_⟩,
    ⟨List.nodup_nil, by simp [SagePlayer.nextLevel]⟩, h.rule, h.ticks⟩
  · exact (w.order_perm _ _).nodup_iff.mpr h.next.nodup
  · exact h.next.leaf p ((w.order_perm _ _).mem_iff.mp hp)

/-- The search starts with the root alone. -/
theorem SearchInv.start (w : World) {m : Mach} (hm : m.rule.cls = cls) :
    SearchInv env cls ba deck k m.ticks
      ⟨0, ba, w.order 0 [[]], ⟨m, EvalNode.new deck k, []⟩⟩ := by
  have hord : w.order 0 [[]] = [[]] := List.perm_singleton.mp (w.order_perm 0 [[]])
  refine ⟨⟨rfl, .new deck k⟩, by simp, ?_, ⟨List.nodup_nil, by simp⟩, hm, le_rfl⟩
  rw [hord]
  exact ⟨List.nodup_singleton _, fun p hp => by
    rw [List.mem_singleton.mp hp]; exact ⟨rfl, _, rfl, rfl⟩⟩

/-! ## Paths -/

/-- The nodes on the path from the root's child to a node. -/
def pathNodes (tree : EvalNode α) : NodePtr → List (NodeData α)
  | [] => []
  | i :: p => pathNodes tree p ++ (tree.label? (i :: p)).toList

/-- The hands on the path from the root's child to a node. -/
def pathHands (tree : EvalNode α) (p : NodePtr) : List CardSet :=
  (pathNodes tree p).map fun d => d.hand.hand

omit [Score α] in
theorem pathHands_cons {i : Nat} {e : NodeData α} (he : tree.label? (i :: p) = some e) :
    pathHands tree (i :: p) = pathHands tree p ++ [e.hand.hand] := by
  simp [pathHands, pathNodes, he]

/-- The hand cards are dealt out to the hands on the path and the cards that are left. -/
structure Dealt (deck : CardSet) (hands : List CardSet) (tefda : CardSet) : Prop where
  disjoint : hands.Pairwise Apart
  left : ∀ h ∈ hands, Apart h tefda
  union : ∀ c, c ∈ deck ↔ c ∈ tefda ∨ ∃ h ∈ hands, c ∈ h

/-- A hand is played from the cards that are left. -/
theorem Dealt.snoc {hands : List CardSet} {tefda tefda' hand : CardSet} (h : Dealt deck hands tefda)
    (hsub : hand ⊆ tefda) (htef : ∀ c, c ∈ tefda' ↔ c ∈ tefda ∧ c ∉ hand) :
    Dealt deck (hands ++ [hand]) tefda' := by
  have hsub : ∀ c ∈ hand, c ∈ tefda := subset_iff.mp hsub
  refine ⟨?_, ?_, ?_⟩
  · rw [List.pairwise_append]
    refine ⟨h.disjoint, List.pairwise_singleton _ _, fun a ha b hb c hca hcb => ?_⟩
    rw [List.mem_singleton.mp hb] at hcb
    exact h.left a ha c hca (hsub c hcb)
  · intro a ha c hca hc
    rcases List.mem_append.mp ha with ha | ha
    · exact h.left a ha c hca ((htef c).mp hc).1
    · rw [List.mem_singleton.mp ha] at hca
      exact ((htef c).mp hc).2 hca
  · intro c
    rw [h.union c, htef c]
    simp only [List.mem_append, List.mem_singleton, or_and_right, exists_or, exists_eq_left]
    by_cases hch : c ∈ hand
    · simp [hch, hsub c hch]
    · simp [hch]

/-- **Paths deal out the hand cards.** -/
theorem TreeInv.path (h : TreeInv env cls ba deck k tree) :
    ∀ (p : NodePtr) (d : NodeData α), tree.label? p = some d →
      Dealt deck (pathHands tree p) d.hand.tefda ∧
      (d.hand.hand = ∅ ∨ d.hand.hand ∈ pathHands tree p) := by
  intro p
  induction p with
  | nil =>
    intro d hd
    cases hd
    have hhand : tree.label.hand.hand = ∅ := congrArg Pos.hand h.root
    have htef : tree.label.hand.tefda = deck := congrArg Pos.tefda h.root
    exact ⟨⟨.nil, by simp [pathHands, pathNodes], by simp [pathHands, pathNodes, htef]⟩, .inl hhand⟩
  | cons i p ih =>
    intro e he
    obtain ⟨n, -, hn, -, -⟩ := Rose.exists_parent he
    have hd := Rose.label?_of_get? hn
    obtain ⟨hdealt, hown⟩ := ih n.label hd
    obtain ⟨hsub, htef⟩ := (h.edge i p n.label e hd he).tefda
    -- The node's own hand is on the path, so taking it out again changes nothing.
    have htef : ∀ c, c ∈ e.hand.tefda ↔ c ∈ n.label.hand.tefda ∧ c ∉ e.hand.hand := by
      intro c
      have : e.hand.tefda = (n.label.hand.tefda \ e.hand.hand) \ n.label.hand.hand := htef
      rw [this, mem_sdiff, mem_sdiff]
      refine ⟨And.left, fun hc => ⟨hc, fun hh => ?_⟩⟩
      rcases hown with h0 | hown
      · exact not_mem_empty c (h0 ▸ hh)
      · exact hdealt.left _ hown c hh hc.1
    rw [pathHands_cons he]
    exact ⟨hdealt.snoc hsub htef, .inr (by simp)⟩

/-- The order after the hands `hands`: four or more cards turn it around. -/
def turnedBy (k : Bool) (hands : List CardSet) : Bool :=
  hands.foldl (fun k h => if 4 ≤ h.size then !k else k) k

theorem turnedBy_snoc (k : Bool) (hands : List CardSet) (h : CardSet) :
    turnedBy k (hands ++ [h]) = if 4 ≤ h.size then !turnedBy k hands else turnedBy k hands := by
  simp [turnedBy]

theorem turnedBy_of_small {k : Bool} {hands : List CardSet} (h : ∀ H ∈ hands, H.size < 4) :
    turnedBy k hands = k := by
  induction hands with
  | nil => rfl
  | cons H hands ih =>
    rw [turnedBy, List.foldl_cons, if_neg (Nat.not_le.mpr (h H (by simp)))]
    exact ih fun H' hH' => h H' (by simp [hH'])

/-- Each hand of four or more cards on a path turns the order around. -/
theorem TreeInv.turned (h : TreeInv env cls ba deck k tree) :
    ∀ (p : NodePtr) (d : NodeData α), tree.label? p = some d →
      d.isKakumei = turnedBy k (pathHands tree p) := by
  intro p
  induction p with
  | nil =>
    intro d hd
    cases hd
    exact congrArg Pos.isKakumei h.root
  | cons i p ih =>
    intro e he
    obtain ⟨n, -, hn, -, -⟩ := Rose.exists_parent he
    have hd := Rose.label?_of_get? hn
    have hedge : e.isKakumei =
        if 4 ≤ e.hand.hand.size then !n.label.isKakumei else n.label.isKakumei := by
      rcases (h.edge i p n.label e hd he).offered_or_pass with ⟨eh, -, hpos⟩ | ⟨-, -, hpos⟩
      all_goals
        have h1 : e.isKakumei = _ := congrArg Pos.isKakumei hpos
        have h2 : e.hand.hand = _ := congrArg Pos.hand hpos
        rw [h1, h2]
        rfl
    rw [pathHands_cons he, turnedBy_snoc, ← ih n.label hd, hedge]

/-- A child has fewer cards left than the node, the pass of the root apart. -/
theorem Attached.tefda_lt {isRoot look : Bool} {u v : Pos α}
    (h : Attached env cls isRoot look ba u v) :
    v.tefda.size < u.tefda.size ∨ isRoot = true ∧ v.hand = ∅ ∧ v.tefda = u.tefda \ u.hand := by
  rcases h.offered_or_pass with ⟨eh, ho, rfl⟩ | ⟨hr, -, rfl⟩
  · refine .inl ?_
    obtain ⟨-, htef⟩ := h.tefda
    have hsub : ∀ c ∈ (u.child eh).tefda, c ∈ u.tefda ∧ c ∉ eh.hand := by
      intro c hc
      rw [htef, mem_sdiff, mem_sdiff] at hc
      exact hc.1
    -- The hand has a card that is gone.
    obtain ⟨c, hc⟩ := exists_mem_of_ne ho.playable.1
    by_contra hlt
    have heq := eq_of_subset_of_size_le (subset_iff.mpr fun c hc => (hsub c hc).1) (not_lt.mp hlt)
    have hcu := subset_iff.mp ho.subset c hc
    rw [← heq] at hcu
    exact (hsub c hcu).2 hc
  · exact .inr ⟨hr, rfl, rfl⟩

/-- Below the first level each hand has a card, so a path is not longer than there are cards. -/
theorem TreeInv.length_le (h : TreeInv env cls ba deck k tree) :
    ∀ (p : NodePtr) (d : NodeData α), tree.label? p = some d →
      d.hand.tefda.size + p.length ≤ deck.size + 1 := by
  intro p
  induction p with
  | nil =>
    intro d hd
    cases hd
    rw [show tree.label.hand.tefda = deck from congrArg Pos.tefda h.root]
    simp
  | cons i p ih =>
    intro e he
    obtain ⟨n, -, hn, -, -⟩ := Rose.exists_parent he
    have hd := Rose.label?_of_get? hn
    have hedge := (h.edge i p n.label e hd he).tefda_lt
    cases p with
    | nil =>
      cases hn
      have hroot : tree.label.hand.tefda = deck := congrArg Pos.tefda h.root
      have hhand : tree.label.hand.hand = ∅ := congrArg Pos.hand h.root
      have hle : e.hand.tefda.size ≤ deck.size := by
        rcases hedge with hlt | ⟨-, -, heq⟩
        · exact Nat.le_of_lt (hroot ▸ hlt)
        · rw [show e.hand.tefda = tree.label.hand.tefda \ tree.label.hand.hand from heq, hroot,
            hhand]
          exact size_le_of_subset (subset_iff.mpr fun c hc => (mem_sdiff.mp hc).1)
      simpa using hle
    | cons j p =>
      have := ih n.label hd
      rcases hedge with hlt | ⟨hr, -⟩
      · have hlt : e.hand.tefda.size < n.label.hand.tefda.size := hlt
        simp only [List.length_cons] at this ⊢
        omega
      · simp [NodePtr.isRoot] at hr

/-- The levels of a search with a node left to expand are few. -/
theorem SearchInv.level_lt {t : Nat} {c : Conf α} (h : SearchInv env cls ba deck k t c)
    (hne : c.todo ≠ []) : c.level < deck.size + 2 := by
  obtain ⟨p, hp⟩ := List.exists_mem_of_ne_nil _ hne
  obtain ⟨hlen, n, hn, -⟩ := h.todo.leaf p hp
  have := h.tree.length_le p n.label (Rose.label?_of_get? hn)
  omega

/-- **The search returns.** -/
theorem thinkRecursive_spec (hev : env.Evaluates) (w : World) (ba deck : CardSet) (k : Bool)
    {m : Mach} (hm : m.rule.cls = cls) :
    ∃ s r, thinkRecursive w env (deck.size + 2) 0 ba [[]] m (EvalNode.new deck k) =
      .ok (s.mach, s.tree, r) ∧ Returned env cls ba deck k m.ticks s r := by
  refine thinkRecursive_rule (I := SearchInv env cls ba deck k m.ticks)
    (fun d ba' p todo s h => ?_) (fun d ba' s h _ => h.nextLevel) (fun d ba' s h hn => ?_)
    (fun c h hne => h.level_lt hne) (deck.size + 2) 0 ba [[]] m (EvalNode.new deck k) (by omega)
    (by simp) (.start w hm)
  · obtain ⟨⟨s', r⟩, hrun, hend⟩ := visit_spec (w := w) hev h
    refine ⟨_, hrun, ?_⟩
    cases r with
    | none => exact hend
    | some r => exact hend.1
  · exact ⟨h.tree, h.rule, h.ticks, fun q hq => by cases hq⟩

/-- **A result is a complete plan.** Whatever the evaluation, the clock and the order of the
frontiers, the search returns null, the root if the enumeration there is empty, or a node without
hand cards whose path splits the deck. -/
theorem result_complete (env : SearchEnv α) (hev : env.Evaluates) (w : World) (m : Mach)
    (deck ba : CardSet) (k : Bool) :
    ∃ m' tree r,
      thinkRecursive w env (deck.size + 2) 0 ba [[]] m (EvalNode.new deck k) = .ok (m', tree, r) ∧
      (r = none ∨
       r = some [] ∧ enumrateAvairableHands m.rule [] deck ba k = .ok (m.rule.setKakumei k, []) ∨
       ∃ q d, r = some q ∧ tree.label? q = some d ∧ d.hand.tefda = ∅ ∧
        (pathHands tree q).Pairwise Apart ∧ ∀ c, c ∈ deck ↔ ∃ h ∈ pathHands tree q, c ∈ h) := by
  obtain ⟨s, r, hrun, hret⟩ := thinkRecursive_spec hev w ba deck k rfl
  refine ⟨s.mach, s.tree, r, hrun, ?_⟩
  cases r with
  | none => exact .inl rfl
  | some q =>
    obtain ⟨d, hd, ⟨rfl, hno⟩ | ⟨-, hemp⟩⟩ := hret.node q rfl
    · exact .inr (.inl ⟨rfl, (enumrate_nil_iff m.rule deck ba k).mpr hno⟩)
    · obtain ⟨hdealt, -⟩ := hret.tree.path q d hd
      refine .inr (.inr ⟨q, d, rfl, hd, hemp, hdealt.disjoint, fun c => ?_⟩)
      rw [hdealt.union c, hemp]
      simp

/-- A clock that stands still, and frontiers in the order in which `visit` lists them: the children
of one node as they came into the frontier, but those of the node that was expanded last first. -/
def stillWorld : World where
  clock _ := 0
  rdist _ := 0
  order _ l := l
  order_perm _ l := .refl l

/-- A three and a four, where every hand clears the table: the search finds the plan of both. -/
theorem result_complete_flat :
    ∃ m' tree q d, thinkRecursive stillWorld ⟨0, (0 : ExtRat), fun _ _ => .ok 0⟩
        ((ofVector [⟨0⟩, ⟨5⟩]).size + 2) 0 ∅ [[]] ⟨⟨.B, false⟩, 0, 0, []⟩
        (EvalNode.new (ofVector [⟨0⟩, ⟨5⟩]) false) = .ok (m', tree, some q) ∧ q ≠ [] ∧
      tree.label? q = some d ∧ d.hand.tefda = ∅ ∧ (pathHands tree q).Pairwise Apart ∧
      ∀ c, c ∈ ofVector [⟨0⟩, ⟨5⟩] ↔ ∃ h ∈ pathHands tree q, c ∈ h := by
  obtain ⟨m', tree, r, hrun, hres⟩ := result_complete ⟨0, (0 : ExtRat), fun _ _ => .ok 0⟩
    (fun _ _ _ => ⟨0, rfl⟩) stillWorld ⟨⟨.B, false⟩, 0, 0, []⟩ (ofVector [⟨0⟩, ⟨5⟩]) ∅ false
  have hnode : ((thinkRecursive stillWorld ⟨0, (0 : ExtRat), fun _ _ => .ok 0⟩
      ((ofVector [⟨0⟩, ⟨5⟩]).size + 2) 0 ∅ [[]] ⟨⟨.B, false⟩, 0, 0, []⟩
      (EvalNode.new (ofVector [⟨0⟩, ⟨5⟩]) false)).map fun out => out.2.2) =
        .ok (some [0, 0]) := by
    decide +kernel
  rw [hrun] at hnode
  cases hnode
  rcases hres with h | ⟨h, -⟩ | ⟨q, d, h, hd, hdone, hapart, hdeal⟩
  · cases h
  · cases h
  · cases h
    exact ⟨m', tree, _, d, hrun, by simp, hd, hdone, hapart, hdeal⟩

end

end SagePlayer

end Neof5
