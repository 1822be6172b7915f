import Neof5.Sage.Shape

/-!
# The ratings of the nodes

An expansion adds `p1 - (n - 1)` to the sum `p2` of the node for each hand that it sorts. The
fallback compares these sums, and takes a node whose sum is zero for one that was not expanded
(`findBestParamChild`).

* `expand_rated`: after an expansion the sum is the total over the hands that were sorted, and no
  child has a sum yet.
* `ratings_total`: over a whole search, in every order of the frontiers and with every clock, no
  node is rated twice, and none by a part of its hands but the one where the search stopped.
-/

namespace Neof5

open CardSet

namespace SagePlayer

variable {α : Type} [Score α]

/-- The sum over the hands in their order. -/
def rating (env : SearchEnv α) (k : Bool) (hands : List CardSet) : Except Fault α :=
  hands.foldlM (fun x hand => do
    let p1 ← env.potential hand k
    return x + (p1 - Score.lit ((hand.size : ℚ) - 1))) 0

theorem rating_snoc {env : SearchEnv α} {k : Bool} {done : List CardSet} {hand : CardSet} {x p1 : α}
    (h : rating env k done = .ok x) (hp1 : env.potential hand k = .ok p1) :
    rating env k (done ++ [hand]) = .ok (x + (p1 - Score.lit ((hand.size : ℚ) - 1))) := by
  unfold rating at h ⊢
  rw [List.foldlM_append, h]
  simp [hp1]

/-! ## One expansion -/

/-- The node has the data `d`, and its children have no sum. -/
structure Unrated (d : NodeData α) (n : EvalNode α) : Prop where
  label : n.label = d
  kids : ∀ c ∈ n.children, c.label.hand.p2 = 0

section

variable {w : World} {env : SearchEnv α} {isRoot look : Bool} {ba : CardSet} {d : NodeData α}
  {n : EvalNode α} {eh beh peh : EvalHand α} {s : Scan α} {g : Grow α}

theorem Unrated.createChild (h : Unrated d n) (heh : eh.p2 = 0) :
    Unrated d (EvalNode.createChild n eh).1 := by
  rcases EvalNode.createChild_cases n eh with ⟨i, c, -, heq⟩ | heq
  · rw [heq]
    exact h
  · rw [heq]
    refine ⟨h.label, fun c hc => ?_⟩
    rcases List.mem_append.mp hc with hc | hc
    · exact h.kids c hc
    · rw [List.mem_singleton.mp hc]
      exact heh

/-- The evaluated hands in the lists have no sum. -/
def Scan.NoSums (s : Scan α) : Prop := ∀ eh ∈ s.betterHands ++ s.poorHands, eh.p2 = 0

theorem sortHand_unrated (hs : s.NoSums) (heh : eh.p2 = 0) :
    (sortHand w env eh s).1.NoSums ∧ (sortHand w env eh s).1.node = s.node := by
  simp only [sortHand]
  split
  · exact ⟨hs, rfl⟩
  · have hmem : ∀ e, e ∈ s.betterHands ++ s.poorHands ∨ e = eh → e.p2 = 0 := by
      rintro e (he | rfl)
      · exact hs e he
      · exact heh
    split
    · refine ⟨fun e he => hmem e ?_, rfl⟩
      simp only [List.mem_append, List.mem_singleton] at he ⊢
      tauto
    · refine ⟨fun e he => hmem e ?_, rfl⟩
      simp only [List.mem_append, List.mem_singleton] at he ⊢
      tauto

theorem judgeHand_unrated {out : Scan α × Option Exit} (hs : s.NoSums)
    (hn : Unrated d s.node) (heh : eh.p2 = 0)
    (h : judgeHand w env isRoot eh s = .ok out) : out.1.NoSums ∧ Unrated d out.1.node := by
  obtain ⟨hsort, hnode⟩ : (sortHand w env eh s).1.NoSums ∧ _ := sortHand_unrated hs heh
  simp only [judgeHand] at h
  split at h
  · obtain ⟨chk, -, h⟩ := bind_ok h
    split at h
    · cases h
      exact ⟨hs, hn.createChild heh⟩
    · split at h
      · cases h
        exact ⟨hs, hn⟩
      · cases h
        exact ⟨hsort, hnode ▸ hn⟩
  · cases h
    exact ⟨hsort, hnode ▸ hn⟩

/-- The loop that sorts the hands, after the hands `done` of the node `n`. -/
structure ScanRated (env : SearchEnv α) (n : EvalNode α) (done : List CardSet) (s : Scan α) :
    Prop where
  pos : s.node.label.pos = n.label.pos
  total : rating env n.label.isKakumei done = .ok s.node.label.hand.p2
  kids : ∀ c ∈ s.node.children, c.label.hand.p2 = 0
  hands : s.NoSums

/-- A round adds the value of its hand, also the one that ends the search. -/
theorem ScanRated.round {done : List CardSet} {hand : CardSet} {out : Scan α × Option Exit}
    (h : ScanRated env n done s) (hrun : classifyBody w env isRoot hand s = .ok out) :
    ScanRated env n (done ++ [hand]) out.1 := by
  obtain ⟨p1, hp1, hrun⟩ := bind_ok hrun
  have hk : s.node.label.isKakumei = n.label.isKakumei := congrArg Pos.isKakumei h.pos
  rw [hk] at hp1
  have hn : Unrated (addP2 s.node (p1 - Score.lit ((hand.size : ℚ) - 1))).label
      (addP2 s.node (p1 - Score.lit ((hand.size : ℚ) - 1))) := ⟨rfl, h.kids⟩
  obtain ⟨hhands, hnode⟩ := judgeHand_unrated
    (s := { s with node := addP2 s.node (p1 - Score.lit ((hand.size : ℚ) - 1)) })
    h.hands hn rfl hrun
  refine ⟨?_, ?_, hnode.kids, hhands⟩
  · rw [hnode.label]
    exact h.pos
  · rw [hnode.label]
    exact rating_snoc h.total hp1

theorem poorBody_unrated {rule : DaifugoRule} {i : Nat} {out : Grow α × Option Exit}
    (hg : Unrated d g.node) (heh : peh.p2 = 0) (h : poorBody rule beh i peh g = .ok out) :
    Unrated d out.1.node := by
  unfold poorBody at h
  split at h
  · cases h
    exact hg
  · simp only at h
    split at h
    · obtain ⟨chk, -, h⟩ := bind_ok h
      split at h
      · cases h
        exact hg.createChild heh
      · cases h
        exact hg.createChild heh
    · cases h
      exact hg.createChild heh

theorem betterBody_unrated {rule : DaifugoRule} {poorHands : List (EvalHand α)}
    {out : Grow α × Option Exit} (hg : Unrated d g.node) (heh : beh.p2 = 0)
    (hpoor : ∀ peh ∈ poorHands, peh.p2 = 0) (h : betterBody env rule poorHands beh g = .ok out) :
    Unrated d out.1.node := by
  obtain ⟨skip, -, h⟩ := bind_ok h
  split at h
  · cases h
    exact hg
  · simp only at h
    split at h
    · cases h
      exact hg.createChild heh
    · exact Loop.forEach_ok' (I := fun g : Grow α => Unrated d g.node)
        (fun peh _ _ hmem hg hb => poorBody_unrated hg (hpoor peh hmem) hb) (hg.createChild heh) h

theorem rootPoorBody_unrated {out : Grow α × Option Exit} (hg : Unrated d g.node)
    (heh : peh.p2 = 0) (h : rootPoorBody peh g = .ok out) : Unrated d out.1.node := by
  unfold rootPoorBody at h
  dsimp only at h
  split at h <;> cases h <;> exact hg.createChild heh

theorem createChildren_unrated {out : Grow α × Option Exit} (hs : s.NoSums)
    (hn : Unrated d s.node) (h : createChildren env isRoot look ba s = .ok out) :
    Unrated d out.1.node := by
  have hbetter : ∀ beh ∈ s.betterHands, beh.p2 = 0 := fun e he => hs e (by simp [he])
  have hpoor : ∀ peh ∈ s.poorHands, peh.p2 = 0 := fun e he => hs e (by simp [he])
  obtain ⟨⟨g, e⟩, hchildren, h⟩ := bind_ok h
  have hg : Unrated d g.node := by
    unfold betterChildren at hchildren
    split at hchildren
    · exact Loop.forEach_ok' (I := fun g : Grow α => Unrated d g.node)
        (fun beh _ _ hmem hg hb => betterBody_unrated hg (hbetter beh hmem) hpoor hb) hn hchildren
    · cases hchildren
      exact hn
  cases e with
  | some e =>
    cases h
    exact hg
  | none =>
    cases isRoot with
    | false =>
      cases h
      exact hg
    | true =>
      obtain ⟨⟨g', e⟩, hroot, h⟩ := bind_ok h
      have hg' : Unrated d g'.node := Loop.forEach_ok' (I := fun g : Grow α => Unrated d g.node)
        (fun peh _ _ hmem hg hb => rootPoorBody_unrated hg (hpoor peh hmem) hb) hg hroot
      cases e with
      | some e =>
        cases h
        exact hg'
      | none =>
        simp only at h
        split at h
        · cases h
          exact hg'.createChild rfl
        · cases h
          exact hg'

/-- **An expansion rates its node.** The sum of a node without one is the total over the hands that
were sorted, which are all of them unless the search ends there; no child has a sum. -/
theorem expand_rated {m m' : Mach} {e : Option Exit} (hp2 : n.label.hand.p2 = 0)
    (hleaf : n.children = []) (h : expand w env isRoot look ba m n = .ok ((m', g), e)) :
    ∃ rule done rest, enumrateAvairableHands m.rule [] n.label.hand.tefda ba n.label.isKakumei =
        .ok (rule, done ++ rest) ∧ (e = none → rest = []) ∧
      g.node.label.pos = n.label.pos ∧
      rating env n.label.isKakumei done = .ok g.node.label.hand.p2 ∧
      ∀ c ∈ g.node.children, c.label.hand.p2 = 0 := by
  obtain ⟨⟨rule, hands⟩, henum, h⟩ := bind_ok h
  simp only at h
  split at h
  · cases h
    refine ⟨rule, [], hands, henum, by simp, rfl, by rw [hp2]; rfl, by simp [hleaf]⟩
  · obtain ⟨⟨s, e'⟩, hsort, h⟩ := bind_ok h
    have hstart : ScanRated env n [] ⟨{ m with rule }.setKakumei n.label.isKakumei, n, [], []⟩ :=
      ⟨rfl, by rw [hp2]; rfl, by simp [hleaf], by simp [Scan.NoSums]⟩
    have hends := Loop.forEach_ends (I := ScanRated env n)
      (Q := fun s _ => ∃ done rest, hands = done ++ rest ∧ ScanRated env n done s)
      (fun done hand rest s out hxs hs hb => by
        have hround := hs.round hb
        obtain ⟨s', r⟩ := out
        cases r with
        | none => exact hround
        | some r => exact ⟨done ++ [hand], rest, by simp [hxs], hround⟩) hstart hsort
    cases e' with
    | some e' =>
      cases h
      obtain ⟨done, rest, rfl, hs⟩ := hends
      exact ⟨rule, done, rest, henum, by simp, hs.pos, hs.total, hs.kids⟩
    | none =>
      have hs : ScanRated env n hands s := hends
      obtain ⟨⟨g', e''⟩, hchildren, h⟩ := bind_ok h
      cases h
      have hg := createChildren_unrated hs.hands ⟨rfl, hs.kids⟩ hchildren
      refine ⟨rule, hands, [], by simpa using henum, fun _ => rfl, ?_, ?_, hg.kids⟩
      · rw [hg.label]
        exact hs.pos
      · rw [hg.label]
        exact hs.total

end

/-! ## The tree -/

section

variable (env : SearchEnv α) (cls : RuleClass)

/-- The sum of the node is the total over the hands `done`; the enumeration against the table puts
`rest` behind them. -/
structure Rated (table : CardSet) (d : NodeData α) (done rest : List CardSet) : Prop where
  hands : enumrateAvairableHands ⟨cls, d.isKakumei⟩ [] d.hand.tefda table d.isKakumei =
    .ok (⟨cls, d.isKakumei⟩, done ++ rest)
  total : rating env d.isKakumei done = .ok d.hand.p2

/-- Every node is rated by all of its hands or by none, the one where the search stopped apart. The
nodes with children are rated by all. -/
structure Ratings (ba : CardSet) (tree : EvalNode α) (stop : Option NodePtr) : Prop where
  rated : ∀ p d, tree.label? p = some d → ∃ done rest, Rated env cls (tableAt ba p) d done rest ∧
    (done = [] ∨ rest = [] ∨ stop = some p)
  parent : ∀ i p d e, tree.label? p = some d → tree.label? (i :: p) = some e → stop ≠ some p →
    ∃ hands, Rated env cls (tableAt ba p) d hands []

/-- The nodes have no sum. -/
def NoSums (tree : EvalNode α) (nodes : List NodePtr) : Prop :=
  ∀ p ∈ nodes, ∀ d, tree.label? p = some d → d.hand.p2 = 0

end

section

variable {w : World} {env : SearchEnv α} {cls : RuleClass} {ba deck : CardSet} {k : Bool}
  {tree n n' : EvalNode α} {p q : NodePtr} {d : NodeData α}

/-- A node without a sum is rated by no hand. -/
theorem rated_nil (hp2 : d.hand.p2 = 0) (table : CardSet) :
    ∃ rest, Rated env cls table d [] rest := by
  obtain ⟨hands, henum, -⟩ :=
    enumrate_spec ⟨cls, d.isKakumei⟩ d.hand.tefda table d.isKakumei
  exact ⟨hands, henum, by rw [hp2]; rfl⟩

/-- A node that was rated is put in the place of a leaf. -/
theorem Ratings.modify {stop : Option NodePtr} {done rest : List CardSet}
    (h : Ratings env cls ba tree none) (hp : tree.get? p = some n)
    (hleaf : ∀ c ∈ n'.children, c.children = []) (hkids : ∀ c ∈ n'.children, c.label.hand.p2 = 0)
    (hself : Rated env cls (tableAt ba p) n'.label done rest)
    (hstop : stop = none ∧ rest = [] ∨ stop = some p) :
    Ratings env cls ba (tree.modify p fun _ => n') stop := by
  constructor
  · intro q d hd
    rcases Rose.label?_modify_cases hp hleaf hd with ⟨rfl, rfl⟩ | ⟨i, c, rfl, hc, rfl⟩ | ⟨-, hd⟩
    · exact ⟨done, rest, hself, .inr (hstop.imp And.right id)⟩
    · obtain ⟨rest, hrest⟩ := rated_nil (hkids c (List.mem_of_getElem? hc)) _
      exact ⟨[], rest, hrest, .inl rfl⟩
    · obtain ⟨done, rest, hold, hor⟩ := h.rated q d hd
      exact ⟨done, rest, hold, hor.imp_right (Or.imp_right (by simp))⟩
  · intro i q d e hd he hne
    rcases Rose.label?_modify_cases hp hleaf hd with ⟨rfl, rfl⟩ | ⟨j, c, rfl, -, -⟩ | ⟨hs, hold⟩
    · obtain ⟨-, rfl⟩ := hstop.resolve_right hne
      exact ⟨done, hself⟩
    · -- A child has no children.
      rcases Rose.label?_modify_cases hp hleaf he with ⟨heq, -⟩ | ⟨i', c', heq, -⟩ | ⟨hs, -⟩
      · exact absurd (congrArg List.length heq) (by simp only [List.length_cons]; omega)
      · exact absurd (congrArg List.length heq) (by simp only [List.length_cons]; omega)
      · exact (hs ⟨[i, j], rfl⟩).elim
    · rcases Rose.label?_modify_cases hp hleaf he with ⟨heq, -⟩ | ⟨i', c', heq, -⟩ | ⟨-, he⟩
      · rw [← heq] at hp
        exact h.parent i q d n.label hold (Rose.label?_of_get? hp) (by simp)
      · obtain ⟨-, rfl⟩ := List.cons.inj heq
        exact (hs (List.suffix_refl q)).elim
      · exact h.parent i q d e hold he (by simp)

/-- The nodes that are still to be visited have no sums after the visit of another one. -/
theorem NoSums.modify {nodes : List NodePtr} (h : NoSums tree nodes) (hp : tree.get? p = some n)
    (hleaf : ∀ c ∈ n'.children, c.children = []) (hkids : ∀ c ∈ n'.children, c.label.hand.p2 = 0)
    (hne : p ∉ nodes) : NoSums (tree.modify p fun _ => n') nodes := by
  intro q hq d hd
  rcases Rose.label?_modify_cases hp hleaf hd with ⟨rfl, -⟩ | ⟨i, c, -, hc, rfl⟩ | ⟨-, hd⟩
  · exact (hne hq).elim
  · exact hkids c (List.mem_of_getElem? hc)
  · exact h q hq d hd

/-- What a step finds: every node up to now is rated by all of its hands or by none, and those that
are still to be visited by none. -/
structure RatingInv (env : SearchEnv α) (cls : RuleClass) (ba : CardSet) (c : Conf α) : Prop where
  ratings : Ratings env cls ba c.state.tree none
  todo : NoSums c.state.tree c.todo
  next : NoSums c.state.tree c.state.nextNodes

/-- A step of the loop over a frontier rates its node. -/
theorem RatingInv.visit (hev : env.Evaluates) {t l : Nat} {baCards : CardSet} {todo : List NodePtr}
    {s s' : Search α} {o : Option (Option NodePtr)}
    (h : RatingInv env cls ba ⟨l, baCards, p :: todo, s⟩)
    (hinv : SearchInv env cls ba deck k t ⟨l, baCards, p :: todo, s⟩)
    (hrun : visit w env baCards p s = .ok (s', o)) :
    Ratings env cls ba s'.tree (o.map fun _ => p) ∧
      (o = none → RatingInv env cls ba ⟨l, baCards, todo, s'⟩) := by
  obtain ⟨n, g, e, hn, hexp, htree, rfl, hnext⟩ := visit_expand hrun
  obtain ⟨n1, n', hn1, htree', hk⟩ := visit_kids hev hinv hrun
  obtain ⟨hlen, n2, hn2, hempty⟩ := hinv.todo.leaf p (by simp)
  cases hn.symm.trans hn1
  cases hn.symm.trans hn2
  have hnode : g.node = n' := by
    have hget := congrArg (Rose.get? · p) (htree.symm.trans htree')
    simpa only [Rose.get?_modify, hn, Option.map_some, Option.some.injEq] using hget
  have hleaf : ∀ c ∈ g.node.children, c.children = [] := hnode ▸ hk.leaf
  obtain ⟨rule, done, rest, henum, hall, hpos, htotal, hkids⟩ :=
    expand_rated (h.todo p (by simp) n.label (Rose.label?_of_get? hn)) hempty hexp
  have hrated : Rated env cls (tableAt ba p) g.node.label done rest := by
    obtain rfl : baCards = tableAt ba p := hinv.table_eq
    have hk : g.node.label.isKakumei = n.label.isKakumei := congrArg Pos.isKakumei hpos
    have htef : g.node.label.hand.tefda = n.label.hand.tefda := congrArg Pos.tefda hpos
    obtain ⟨hands, henum', -⟩ :=
      enumrate_spec s.mach.rule n.label.hand.tefda (tableAt ba p) n.label.isKakumei
    cases henum.symm.trans henum'
    refine ⟨?_, hk ▸ htotal⟩
    have hrule : s.mach.rule.setKakumei n.label.isKakumei = ⟨cls, n.label.isKakumei⟩ := by
      rw [DaifugoRule.setKakumei, show s.mach.rule.cls = cls from hinv.rule]
    rw [hk, htef, ← hrule]
    exact henum
  have hratings : Ratings env cls ba s'.tree ((e.map (Exit.ptr p)).map fun _ => p) := by
    rw [htree]
    refine h.ratings.modify hn hleaf hkids hrated ?_
    cases e with
    | none => exact .inl ⟨rfl, hall rfl⟩
    | some e => exact .inr rfl
  refine ⟨hratings, fun he => ?_⟩
  obtain rfl : e = none := by cases e with | none => rfl | some e => cases he
  have hnodup := List.nodup_cons.mp hinv.todo.nodup
  have hmodify : ∀ nodes, NoSums s.tree nodes → p ∉ nodes → NoSums s'.tree nodes := by
    intro nodes hnodes hne
    rw [htree]
    exact hnodes.modify hn hleaf hkids hne
  refine ⟨hratings, hmodify todo (fun q hq => h.todo q (by simp [hq])) hnodup.1, ?_⟩
  have hold := hmodify s.nextNodes h.next fun hmem => by
    have hlen' : p.length = l + 1 := (hinv.next.leaf p hmem).1
    have hlen : p.length = l := hlen
    omega
  intro q hq d hd
  have hq : q ∈ g.next.foldl (fun ns i => ns.insert (i :: p)) s.nextNodes := hnext rfl ▸ hq
  rcases mem_insertAll.mp hq with hq | ⟨i, -, rfl⟩
  · exact hold q hq d hd
  · have hd : (s.tree.modify p fun _ => g.node).label? (i :: p) = some d := htree ▸ hd
    rcases Rose.label?_modify_cases hn hleaf hd with ⟨heq, -⟩ | ⟨i', c, -, hc, rfl⟩ | ⟨hs, -⟩
    · exact absurd (congrArg List.length heq) (by simp)
    · exact hkids c (List.mem_of_getElem? hc)
    · exact (hs ⟨[i], rfl⟩).elim

/-- The change to the next level. -/
theorem RatingInv.nextLevel {l : Nat} {baCards : CardSet} {s : Search α}
    (h : RatingInv env cls ba ⟨l, baCards, [], s⟩) :
    RatingInv env cls ba (nextLevel w l s) := by
  refine ⟨h.ratings, fun q hq => h.next q ?_, fun q hq => by cases hq⟩
  exact (w.order_perm _ _).mem_iff.mp hq

/-- The search starts without a sum. -/
theorem RatingInv.start (w : World) (env : SearchEnv α) (cls : RuleClass) (ba deck : CardSet)
    (k : Bool) (m : Mach) : RatingInv env cls ba (startConf w ba deck k m) := by
  have hzero : ∀ p d, (EvalNode.new deck k : EvalNode α).label? p = some d →
      p = [] ∧ d.hand.p2 = 0 := by
    intro p d hd
    obtain ⟨n, hn, rfl⟩ := Rose.label?_eq_some.mp hd
    by_cases hp : p = []
    · subst hp
      cases hn
      exact ⟨rfl, rfl⟩
    · rw [Rose.get?_of_leaf rfl hp] at hn
      cases hn
  refine ⟨⟨fun p d hd => ?_, fun i p d e _ he _ => ?_⟩, fun p _ d hd => (hzero p d hd).2,
    fun p _ d hd => (hzero p d hd).2⟩
  · obtain ⟨rest, hrest⟩ := rated_nil (hzero p d hd).2 _
    exact ⟨[], rest, hrest, .inl rfl⟩
  · cases (hzero _ e he).1

/-- **The ratings.** In every world, when the search ends, the sum of each node is the total over
the hands that the enumeration puts before it, each with its value less the number of its cards but
one, or it is zero and the node has no children. Only the node in whose expansion the search stopped
may be rated by a part of its hands; it is the one that is returned, or the parent of the one that
is, or the time is up. -/
theorem ratings_total (w : World) (ctx : DaifugoContext) (ba : CardSet) (mach : Mach) :
    ∃ m tree r stop, search (α := α) w ctx ba mach = .ok (m, tree, r) ∧
      Ratings (searchEnv ctx (w.clock mach.ticks + thinkTimeLimit)) mach.rule.cls ba tree stop ∧
      (stop = none ∧ r = none ∨ ∃ p e, stop = some p ∧ r = Exit.ptr p e) := by
  have hev := searchEnv_evaluates (α := α) ctx (w.clock mach.ticks + thinkTimeLimit)
  obtain ⟨s, r, hrun, stop, hratings, hstop⟩ := thinkRecursive_rule
    (I := fun c => SearchInv (searchEnv ctx (w.clock mach.ticks + thinkTimeLimit)) mach.rule.cls ba
        ctx.deck ctx.isKakumei (mach.time w).2.ticks c ∧
      RatingInv (searchEnv ctx (w.clock mach.ticks + thinkTimeLimit)) mach.rule.cls ba c)
    (Q := fun s r => ∃ stop, Ratings (searchEnv ctx (w.clock mach.ticks + thinkTimeLimit))
        mach.rule.cls ba s.tree stop ∧
      (stop = none ∧ r = none ∨ ∃ p e, stop = some p ∧ r = Exit.ptr p e))
    (fun d ba' p todo s h => by
      obtain ⟨⟨s', o⟩, hv, hend⟩ := visit_spec (w := w) hev h.1
      obtain ⟨hratings, hgo⟩ := h.2.visit hev h.1 hv
      refine ⟨_, hv, ?_⟩
      cases o with
      | none => exact ⟨hend, hgo rfl⟩
      | some r =>
        obtain ⟨n, g, e, -, -, -, he, -⟩ := visit_expand hv
        obtain ⟨e, rfl, rfl⟩ := Option.map_eq_some_iff.mp he.symm
        exact ⟨some p, hratings, .inr ⟨p, e, rfl, rfl⟩⟩)
    (fun d ba' s h _ => ⟨h.1.nextLevel, h.2.nextLevel⟩)
    (fun d ba' s h _ => ⟨none, h.2.ratings, .inl ⟨rfl, rfl⟩⟩)
    (fun c h hne => h.1.level_lt hne) (ctx.deck.size + 2) 0 ba [[]] (mach.time w).2
    (EvalNode.new ctx.deck ctx.isKakumei) (by omega) (by simp) ⟨.start w rfl, .start ..⟩
  exact ⟨s.mach, s.tree, r, stop, hrun, hratings, hstop⟩

end

end SagePlayer

end Neof5
