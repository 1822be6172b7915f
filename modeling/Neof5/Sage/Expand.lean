import Neof5.Sage.Search

/-!
# What the expansion of a node does

`expand` creates children in five places. `Attached` lists them, with the tests that the code
makes on the way there, and `expand_spec` says what one expansion of a leaf leaves behind: it
returns without a fault, every child is attached by one of the five, and each of the ways to end
the search says something about the node or the child that is returned.

* `Pos`: a node without the sum `p2`, which is all that an expansion changes about it.
* `Offered`: the evaluated hands that the enumeration puts before the node.
* `Kids`: the children that a node has so far.
-/

namespace Neof5

open CardSet

/-- A node without its sum `p2`. -/
structure Pos (α : Type) where
  hand : CardSet
  tefda : CardSet
  p1 : α
  isKakumei : Bool

variable {α : Type}

def NodeData.pos (d : NodeData α) : Pos α := ⟨d.hand.hand, d.hand.tefda, d.hand.p1, d.isKakumei⟩

/-- The position after a hand. -/
def Pos.child (u : Pos α) (eh : EvalHand α) : Pos α :=
  ⟨eh.hand, eh.tefda \ u.hand, eh.p1, if 4 ≤ eh.hand.size then !u.isKakumei else u.isKakumei⟩

theorem EvalNode.childData_pos (d : NodeData α) (eh : EvalHand α) :
    (EvalNode.childData d eh).pos = d.pos.child eh := rfl

/-- `createChild` finds a child with the hand, or appends one. -/
theorem EvalNode.createChild_cases (n : EvalNode α) (eh : EvalHand α) :
    (∃ i c, n.children[i]? = some c ∧ createChild n eh = (n, i, c.label)) ∨
    createChild n eh = (.node n.label (n.children ++ [.node (childData n.label eh) []]),
      n.children.length, childData n.label eh) := by
  unfold createChild
  cases hf : n.children.findIdx? fun c => c.label.hand.hand == eh.hand with
  | none => exact .inr rfl
  | some i =>
    obtain ⟨hi, -⟩ := List.findIdx?_eq_some_iff_getElem.mp hf
    exact .inl ⟨i, n.children[i], List.getElem?_eq_getElem hi, by simp [hi]⟩

theorem EvalNode.createChild_leaf {n : EvalNode α} (h : n.children = []) (eh : EvalHand α) :
    createChild n eh = (.node n.label [.node (childData n.label eh) []], 0,
      childData n.label eh) := by
  simp [createChild, h]

/-! ## One child for each hand -/

/-- The children of a node have different hands. -/
def EvalNode.DistinctHands (n : EvalNode α) : Prop :=
  (n.children.map fun c => c.label.hand.hand).Nodup

theorem EvalNode.DistinctHands.of_leaf {n : EvalNode α} (h : n.children = []) :
    n.DistinctHands := by simp [EvalNode.DistinctHands, h]

/-- Children at two places have two hands. -/
theorem EvalNode.DistinctHands.inj {n : EvalNode α} (h : n.DistinctHands) {i j : Nat}
    {c c' : EvalNode α} (hi : n.children[i]? = some c) (hj : n.children[j]? = some c')
    (heq : c.label.hand.hand = c'.label.hand.hand) : i = j := by
  have hlt : i < n.children.length := (List.getElem?_eq_some_iff.mp hi).1
  refine (List.getElem?_inj (by simpa using hlt) h).mp ?_
  rw [List.getElem?_map, List.getElem?_map, hi, hj, Option.map_some, Option.map_some, heq]

/-- `createChild` keeps the places of the children and returns the place of the one with the hand;
no hand comes up twice. -/
theorem EvalNode.createChild_distinct {n : EvalNode α} (h : n.DistinctHands) (eh : EvalHand α) :
    ∃ n' i c, createChild n eh = (n', i, c.label) ∧ n'.children[i]? = some c ∧
      c.label.hand.hand = eh.hand ∧ n'.label = n.label ∧ n.children <+: n'.children ∧
      n'.DistinctHands := by
  unfold createChild
  cases hf : n.children.findIdx? fun c => c.label.hand.hand == eh.hand with
  | some i =>
    obtain ⟨hi, hhand, -⟩ := List.findIdx?_eq_some_iff_getElem.mp hf
    exact ⟨n, i, n.children[i], by simp [hi], List.getElem?_eq_getElem hi, by simpa using hhand,
      rfl, List.prefix_refl _, h⟩
  | none =>
    have hnew : ∀ c ∈ n.children, c.label.hand.hand ≠ eh.hand := by
      simpa using List.findIdx?_eq_none_iff.mp hf
    refine ⟨_, _, .node (childData n.label eh) [], rfl, by simp, rfl, rfl, List.prefix_append _ _,
      ?_⟩
    rw [EvalNode.DistinctHands, Rose.children_node, List.map_append, List.nodup_append]
    refine ⟨h, List.nodup_singleton _, fun H hH H' hH' => ?_⟩
    obtain ⟨c, hc, rfl⟩ := List.mem_map.mp hH
    rw [List.mem_singleton.mp hH']
    exact hnew c hc

namespace SagePlayer

variable [Score α]

/-- Every hand has a value. -/
def SearchEnv.Evaluates (env : SearchEnv α) : Prop :=
  ∀ hand k, hand ≠ ∅ → ∃ p, env.potential hand k = .ok p

section Attached

variable (env : SearchEnv α) (cls : RuleClass) (isRoot look : Bool) (ba : CardSet) (u : Pos α)

/-- A hand that the enumeration yields at `u`, with its evaluation. -/
structure Offered (eh : EvalHand α) : Prop where
  small : ba.size ≤ 3
  subset : eh.hand ⊆ u.tefda
  playable : Playable ⟨cls, u.isKakumei⟩ ba eh.hand
  tefda : eh.tefda = u.tefda \ eh.hand
  p1 : env.potential eh.hand u.isKakumei = .ok eh.p1

/-- The test on a strong hand: after a hand that does not clear the table it must have as many
cards and be stronger by two. -/
def Follows (hand : CardSet) : Prop :=
  u.hand = ∅ ∨ env.isStrongHand u.p1 = true ∨
    u.hand.size = hand.size ∧
      (u.hand.lead.getStrength : Int) + (if u.isKakumei then -2 else 2) ≤ hand.lead.getStrength

/-- The children that the expansion of `u` can create; `look` is the condition for looking at the
strong hands. -/
inductive Attached : Pos α → Prop
  /-- the last hand, found while the hands are sorted -/
  | finish {eh} : Offered env cls ba u eh → u.tefda \ eh.hand = ∅ →
      (isRoot = true ∨ env.isStrongHand u.p1 = true ∨
        env.isStrongHand eh.p1 = true ∧ eh.hand.size = u.hand.size) →
      DaifugoRule.canAgari ⟨cls, u.isKakumei⟩ eh.hand = .ok .ok → Attached (u.child eh)
  /-- a strong hand -/
  | better {beh} : look = true → Offered env cls ba u beh → env.isStrongHand beh.p1 = true →
      Follows env u beh.hand → Attached (u.child beh)
  /-- a weak hand beside a strong one -/
  | poor {beh peh} : look = true → Offered env cls ba u beh → env.isStrongHand beh.p1 = true →
      Follows env u beh.hand → Offered env cls ba u peh → env.isStrongHand peh.p1 = false →
      Apart peh.hand beh.hand → Attached (u.child peh)
  /-- a weak hand of the root -/
  | rootPoor {peh} : isRoot = true → Offered env cls ba u peh → env.isStrongHand peh.p1 = false →
      Attached (u.child peh)
  /-- the pass of the root -/
  | pass : isRoot = true → ba ≠ ∅ → Attached (u.child { EvalHand.new with tefda := u.tefda })

/-- A node whose children are leaves that are attached to `u`. -/
structure Kids (n : EvalNode α) : Prop where
  pos : n.label.pos = u
  leaf : ∀ c ∈ n.children, c.children = []
  attached : ∀ c ∈ n.children, Attached env cls isRoot look ba u c.label.pos

end Attached

variable {env : SearchEnv α} {cls : RuleClass} {isRoot look : Bool} {ba : CardSet} {u v : Pos α}

/-- A child is one of the hands offered, or the pass of the root. -/
theorem Attached.offered_or_pass (h : Attached env cls isRoot look ba u v) :
    (∃ eh, Offered env cls ba u eh ∧ v = u.child eh) ∨
    isRoot = true ∧ ba ≠ ∅ ∧ v = u.child { EvalHand.new with tefda := u.tefda } := by
  cases h with
  | finish ho => exact .inl ⟨_, ho, rfl⟩
  | better _ ho => exact .inl ⟨_, ho, rfl⟩
  | poor _ _ _ _ ho => exact .inl ⟨_, ho, rfl⟩
  | rootPoor _ ho => exact .inl ⟨_, ho, rfl⟩
  | pass hr hb => exact .inr ⟨hr, hb, rfl⟩

/-- The cards left after a child are those of the node without the child's hand and the node's
own. -/
theorem Attached.tefda (h : Attached env cls isRoot look ba u v) :
    v.hand ⊆ u.tefda ∧ v.tefda = (u.tefda \ v.hand) \ u.hand := by
  rcases h.offered_or_pass with ⟨eh, ho, rfl⟩ | ⟨-, -, rfl⟩
  · exact ⟨ho.subset, by simp [Pos.child, ho.tefda]⟩
  · refine ⟨empty_subset _, ?_⟩
    ext c; simp [Pos.child, EvalHand.new]

/-- `createChild` on a hand that may be attached. -/
theorem Kids.createChild {n : EvalNode α} (h : Kids env cls isRoot look ba u n) {eh : EvalHand α}
    (ha : Attached env cls isRoot look ba u (u.child eh)) :
    ∃ n' i c, EvalNode.createChild n eh = (n', i, c.label) ∧ Kids env cls isRoot look ba u n' ∧
      n'.children[i]? = some c ∧ n.children.length ≤ n'.children.length := by
  rcases EvalNode.createChild_cases n eh with ⟨i, c, hc, he⟩ | he
  · exact ⟨n, i, c, he, h, hc, le_rfl⟩
  · refine ⟨_, _, .node (EvalNode.childData n.label eh) [], he,
      ⟨h.pos, fun c hc => ?_, fun c hc => ?_⟩, by simp, by simp⟩
    all_goals
      rw [Rose.children_node, List.mem_append, List.mem_singleton] at hc
      rcases hc with hc | rfl
    · exact h.leaf c hc
    · rfl
    · exact h.attached c hc
    · rw [Rose.label_node, EvalNode.childData_pos, h.pos]; exact ha

/-! ## Sorting the hands -/

/-- The lists hold offered hands, sorted by strength; the node has no child yet. -/
structure Sorted (env : SearchEnv α) (cls : RuleClass) (ba : CardSet) (u : Pos α) (s : Scan α) :
    Prop where
  pos : s.node.label.pos = u
  leaf : s.node.children = []
  rule : s.mach.rule = ⟨cls, u.isKakumei⟩
  better : ∀ eh ∈ s.betterHands, Offered env cls ba u eh ∧ env.isStrongHand eh.p1 = true
  poor : ∀ eh ∈ s.poorHands, Offered env cls ba u eh ∧ env.isStrongHand eh.p1 = false

/-- The clock passed the limit at one of the readings `a`, …, `b - 1`. -/
def TimedOut (w : World) (env : SearchEnv α) (a b : Nat) : Prop :=
  ∃ n, a ≤ n ∧ n < b ∧ env.timelimit < w.clock n

omit [Score α] in
theorem TimedOut.mono {w : World} {a b a' b' : Nat} (h : TimedOut w env a b) (ha : a' ≤ a)
    (hb : b ≤ b') : TimedOut w env a' b' := by
  obtain ⟨n, h1, h2, h3⟩ := h
  exact ⟨n, by omega, by omega, h3⟩

/-- What an end of the search with `e` says about the node. -/
inductive Ended (w : World) (env : SearchEnv α) (cls : RuleClass) (ba : CardSet) (u : Pos α)
    (a b : Nat) (n : EvalNode α) : Exit → Prop
  /-- out of time -/
  | null : n.children = [] → TimedOut w env a b → Ended w env cls ba u a b n .null
  /-- no hand can be played -/
  | node : n.children = [] →
      (∀ H, H ⊆ u.tefda → Playable ⟨cls, u.isKakumei⟩ ba H → 4 ≤ ba.size) →
      Ended w env cls ba u a b n .node
  /-- a child without hand cards -/
  | child {i c} : n.children[i]? = some c → c.label.pos.tefda = ∅ →
      Ended w env cls ba u a b n (.child i)

/-- The state in which an expansion that began at the reading `t` of the clock ends the
search. -/
structure Stopped (w : World) (env : SearchEnv α) (cls : RuleClass) (isRoot look : Bool)
    (ba : CardSet) (u : Pos α) (t : Nat) (m : Mach) (n : EvalNode α) (e : Exit) : Prop where
  kids : Kids env cls isRoot look ba u n
  sameRule : m.rule.cls = cls
  ticks : t ≤ m.ticks
  ended : Ended w env cls ba u t m.ticks n e

section

variable {w : World} {s : Scan α} {t : Nat}

theorem Sorted.kids (isRoot look : Bool) (hs : Sorted env cls ba u s) :
    Kids env cls isRoot look ba u s.node :=
  ⟨hs.pos, by simp [hs.leaf], by simp [hs.leaf]⟩

theorem Sorted.addP2 (hs : Sorted env cls ba u s) (x : α) :
    Sorted env cls ba u { s with node := addP2 s.node x } :=
  ⟨hs.pos, hs.leaf, hs.rule, hs.better, hs.poor⟩

/-- The end of the loop body on an offered hand. -/
theorem sortHand_spec (w : World) (isRoot look : Bool) {eh : EvalHand α}
    (hs : Sorted env cls ba u s) (ht : t ≤ s.mach.ticks) (ho : Offered env cls ba u eh) :
    Loop.Ends (fun s' => Sorted env cls ba u s' ∧ t ≤ s'.mach.ticks)
      (fun s' e => Stopped w env cls isRoot look ba u t s'.mach s'.node e)
      (sortHand w env eh s) := by
  by_cases hlim : env.timelimit < w.clock s.mach.ticks
  · simp only [sortHand, Mach.time, hlim, ↓reduceIte, Loop.ends_some]
    refine ⟨hs.kids isRoot look, by simp [Mach.tweet, hs.rule], Nat.le_succ_of_le ht,
      .null hs.leaf ?_⟩
    exact ⟨s.mach.ticks, ht, Nat.lt_succ_self _, hlim⟩
  cases hstr : env.isStrongHand eh.p1 with
  | true =>
    simp only [sortHand, Mach.time, hlim, hstr, ↓reduceIte, Loop.ends_none]
    refine ⟨⟨hs.pos, hs.leaf, hs.rule, fun x hx => ?_, hs.poor⟩, Nat.le_succ_of_le ht⟩
    rcases List.mem_append.mp hx with hx | hx
    · exact hs.better x hx
    · rw [List.mem_singleton.mp hx]; exact ⟨ho, hstr⟩
  | false =>
    simp only [sortHand, Mach.time, hlim, hstr, Bool.false_eq_true, ↓reduceIte, Loop.ends_none]
    refine ⟨⟨hs.pos, hs.leaf, hs.rule, hs.better, fun x hx => ?_⟩, Nat.le_succ_of_le ht⟩
    rcases List.mem_append.mp hx with hx | hx
    · exact hs.poor x hx
    · rw [List.mem_singleton.mp hx]; exact ⟨ho, hstr⟩

/-- The loop body on an offered hand. -/
theorem judgeHand_spec {eh : EvalHand α} (hs : Sorted env cls ba u s) (ht : t ≤ s.mach.ticks)
    (ho : Offered env cls ba u eh) :
    ∃ out, judgeHand w env isRoot eh s = .ok out ∧
      Loop.Ends (fun s' => Sorted env cls ba u s' ∧ t ≤ s'.mach.ticks)
        (fun s' e => Stopped w env cls isRoot look ba u t s'.mach s'.node e) out := by
  have hhand : s.node.label.hand.hand = u.hand := congrArg Pos.hand hs.pos
  have hp1 : s.node.label.hand.p1 = u.p1 := congrArg Pos.p1 hs.pos
  have hsort := sortHand_spec w isRoot look hs ht ho
  unfold judgeHand
  simp only [hhand, hp1, hs.rule]
  split
  · rename_i hc
    obtain ⟨hemp, hwin⟩ := Bool.and_eq_true_iff.mp hc
    rw [ho.tefda, empty_iff] at hemp
    obtain ⟨chk, hchk⟩ := canAgari_total ⟨cls, u.isKakumei⟩ eh.hand
    simp only [hchk, except_ok_bind]
    by_cases hok : chk = .ok
    · have ha : Attached env cls isRoot look ba u (u.child eh) := by
        refine .finish ho hemp ?_ (by rw [hchk, hok])
        simpa [or_assoc] using hwin
      obtain ⟨n', i, c, hcc, hkids, hci, -⟩ := (hs.kids isRoot look).createChild ha
      rw [EvalNode.createChild_leaf hs.leaf] at hcc
      obtain ⟨rfl, rfl, hcl⟩ : _ ∧ _ ∧ _ := by simpa only [Prod.mk.injEq] using hcc
      simp only [hok, ↓reduceIte, EvalNode.createChild_leaf hs.leaf]
      refine ⟨_, rfl, hkids, by rw [hs.rule], ht, .child hci ?_⟩
      rw [← hcl]
      show eh.tefda \ _ = ∅
      rw [ho.tefda, hemp]
      ext c; simp
    · cases isRoot with
      | false => exact ⟨(s, none), by simp [hok], hs, ht⟩
      | true => exact ⟨sortHand w env eh s, by simp [hok], hsort⟩
  · exact ⟨_, rfl, hsort⟩

/-- One round of the loop that sorts the hands. -/
theorem classifyBody_spec (w : World) (isRoot look : Bool) (hev : env.Evaluates) {hand : CardSet}
    (hsub : hand ⊆ u.tefda) (hba : ba.size ≤ 3) (hplay : Playable ⟨cls, u.isKakumei⟩ ba hand)
    (hs : Sorted env cls ba u s) (ht : t ≤ s.mach.ticks) :
    ∃ out, classifyBody w env isRoot hand s = .ok out ∧
      Loop.Ends (fun s' => Sorted env cls ba u s' ∧ t ≤ s'.mach.ticks)
        (fun s' e => Stopped w env cls isRoot look ba u t s'.mach s'.node e) out := by
  obtain ⟨p1, hp1⟩ := hev hand u.isKakumei hplay.1
  have hk : s.node.label.isKakumei = u.isKakumei := congrArg Pos.isKakumei hs.pos
  have htef : s.node.label.hand.tefda = u.tefda := congrArg Pos.tefda hs.pos
  simp only [classifyBody, hk, htef, hp1, except_ok_bind]
  exact judgeHand_spec (hs.addP2 _) ht ⟨hba, hsub, hplay, rfl, hp1⟩

/-- The loop that sorts the hands. -/
theorem classifyLoop_spec (w : World) (isRoot look : Bool) (hev : env.Evaluates)
    {hands : List CardSet}
    (hmem : ∀ H ∈ hands, ba.size ≤ 3 ∧ H ⊆ u.tefda ∧ Playable ⟨cls, u.isKakumei⟩ ba H)
    (hs : Sorted env cls ba u s) :
    ∃ out, Loop.forEach (classifyBody w env isRoot) hands s = .ok out ∧
      Loop.Ends (fun s' => Sorted env cls ba u s' ∧ s.mach.ticks ≤ s'.mach.ticks)
        (fun s' e => Stopped w env cls isRoot look ba u s.mach.ticks s'.mach s'.node e) out :=
  Loop.forEach_total'
    (fun hand _ hx hi => classifyBody_spec w isRoot look hev (hmem hand hx).2.1 (hmem hand hx).1
      (hmem hand hx).2.2 hi.1 hi.2) ⟨hs, le_rfl⟩

/-! ## Creating the children -/

/-- The children so far are attached, and the next frontier is made of them. -/
structure Growing (env : SearchEnv α) (cls : RuleClass) (isRoot look : Bool) (ba : CardSet)
    (u : Pos α) (g : Grow α) : Prop where
  kids : Kids env cls isRoot look ba u g.node
  next : ∀ i ∈ g.next, i < g.node.children.length

/-- The ends of the loops that create children. -/
def Won (env : SearchEnv α) (cls : RuleClass) (isRoot look : Bool) (ba : CardSet) (u : Pos α)
    (g : Grow α) (e : Exit) : Prop :=
  Kids env cls isRoot look ba u g.node ∧ ∃ i c, e = .child i ∧ g.node.children[i]? = some c ∧
    c.label.pos.tefda = ∅

/-- A child is created and goes to the next frontier. -/
theorem Growing.createChild {g : Grow α} (hg : Growing env cls isRoot look ba u g) {eh : EvalHand α}
    (ha : Attached env cls isRoot look ba u (u.child eh)) :
    ∃ n i c, EvalNode.createChild g.node eh = (n, i, c.label) ∧ n.children[i]? = some c ∧
      Kids env cls isRoot look ba u n ∧ g.node.children.length ≤ n.children.length ∧
      Growing env cls isRoot look ba u ⟨n, g.next⟩ ∧
      Growing env cls isRoot look ba u ⟨n, g.next.insert i⟩ := by
  obtain ⟨n, i, c, he, hk, hc, hle⟩ := hg.kids.createChild ha
  have hnext : ∀ j ∈ g.next, j < n.children.length := fun j hj =>
    Nat.lt_of_lt_of_le (hg.next j hj) hle
  refine ⟨n, i, c, he, hc, hk, hle, ⟨hk, hnext⟩, hk, fun j hj => ?_⟩
  rcases List.mem_insert_iff.mp hj with rfl | hj
  · exact (List.getElem?_eq_some_iff.mp hc).1
  · exact hnext j hj

theorem cannotFollow_eq (env : SearchEnv α) (d : NodeData α) {beh : EvalHand α} (h : beh.hand ≠ ∅) :
    ∃ b, cannotFollow env d beh = .ok b ∧ (b = false ↔ Follows env d.pos beh.hand) := by
  unfold cannotFollow Follows
  by_cases he : d.hand.hand = ∅
  · exact ⟨false, by simp [he], by simp [NodeData.pos, he]⟩
  cases hs : env.isStrongHand d.hand.p1 with
  | true => exact ⟨false, by simp, by simp [NodeData.pos, hs]⟩
  | false =>
    by_cases hsz : d.hand.hand.size = beh.hand.size
    · refine ⟨decide ((d.hand.hand.lead.getStrength : Int) + (if d.isKakumei then -2 else 2) >
        beh.hand.lead.getStrength), ?_, ?_⟩
      · simp [empty_eq_false_iff.mpr he, hsz, (lead_eq he).1, (lead_eq h).1]
      · rw [decide_eq_false_iff_not, not_lt]
        constructor
        · exact fun hst => .inr (.inr ⟨hsz, hst⟩)
        · rintro (h | h | h)
          · exact (he h).elim
          · simp [NodeData.pos, hs] at h
          · exact h.2
    · exact ⟨true, by simp [empty_eq_false_iff.mpr he, hsz], by simp [NodeData.pos, he, hs, hsz]⟩

/-- One round of the inner loop over the weak hands. -/
theorem poorBody_spec {beh peh : EvalHand α} {i : Nat} {g : Grow α} (hl : look = true)
    (hbo : Offered env cls ba u beh) (hbs : env.isStrongHand beh.p1 = true)
    (hbf : Follows env u beh.hand) (hpo : Offered env cls ba u peh)
    (hpw : env.isStrongHand peh.p1 = false)
    (hg : Growing env cls isRoot look ba u g ∧ i < g.node.children.length) :
    ∃ out, poorBody ⟨cls, u.isKakumei⟩ beh i peh g = .ok out ∧
      Loop.Ends (fun g => Growing env cls isRoot look ba u g ∧ i < g.node.children.length)
        (Won env cls isRoot look ba u) out := by
  unfold poorBody
  cases hcom : peh.hand.communion beh.hand with
  | true =>
    refine ⟨({ g with next := g.next.insert i }, none), by simp, ⟨hg.1.kids, fun j hj => ?_⟩, hg.2⟩
    rcases List.mem_insert_iff.mp hj with rfl | hj
    · exact hg.2
    · exact hg.1.next j hj
  | false =>
    obtain ⟨n, j, c, he, hc, hk, hle, hg1, hg2⟩ := hg.1.createChild
      (.poor hl hbo hbs hbf hpo hpw (communion_eq_false.mp hcom))
    have hi : i < n.children.length := Nat.lt_of_lt_of_le hg.2 hle
    simp only [Bool.false_eq_true, ↓reduceIte, he]
    cases hemp : c.label.hand.tefda.empty with
    | true =>
      obtain ⟨chk, hchk⟩ := canAgari_total ⟨cls, u.isKakumei⟩ c.label.hand.hand
      simp only [↓reduceIte, hchk, except_ok_bind]
      split
      · exact ⟨(_, some _), rfl, hk, j, c, rfl, hc, empty_iff.mp hemp⟩
      · exact ⟨(_, none), rfl, hg1, hi⟩
    | false => exact ⟨(_, none), by simp, hg2, hi⟩

/-- One round of the loop over the strong hands. -/
theorem betterBody_spec {beh : EvalHand α} {poorHands : List (EvalHand α)} {g : Grow α}
    (hl : look = true) (hbo : Offered env cls ba u beh) (hbs : env.isStrongHand beh.p1 = true)
    (hpoor : ∀ eh ∈ poorHands, Offered env cls ba u eh ∧ env.isStrongHand eh.p1 = false)
    (hg : Growing env cls isRoot look ba u g) :
    ∃ out, betterBody env ⟨cls, u.isKakumei⟩ poorHands beh g = .ok out ∧
      Loop.Ends (Growing env cls isRoot look ba u) (Won env cls isRoot look ba u) out := by
  obtain ⟨b, hb, hfol⟩ := cannotFollow_eq env g.node.label hbo.playable.1
  rw [hg.kids.pos] at hfol
  cases b with
  | true => exact ⟨(g, none), by simp [betterBody, hb], hg⟩
  | false =>
    have hbf := hfol.mp rfl
    obtain ⟨n, i, c, he, hc, hk, hle, hg1, hg2⟩ := hg.createChild (.better hl hbo hbs hbf)
    simp only [betterBody, hb, except_ok_bind, Bool.false_eq_true, ↓reduceIte, he]
    cases hp : poorHands.isEmpty with
    | true => exact ⟨(_, none), by simp, hg2⟩
    | false =>
      simp only [Bool.false_eq_true, ↓reduceIte]
      obtain ⟨⟨g', e⟩, hrun, hend⟩ := Loop.forEach_total'
        (fun peh g hpeh hg => poorBody_spec hl hbo hbs hbf (hpoor peh hpeh).1 (hpoor peh hpeh).2 hg)
        (s := (⟨n, g.next⟩ : Grow α)) ⟨hg1, (List.getElem?_eq_some_iff.mp hc).1⟩
      refine ⟨_, hrun, ?_⟩
      cases e with
      | none => exact hend.1
      | some e => exact hend

/-- One round of the loop over the weak hands of the root. -/
theorem rootPoorBody_spec {peh : EvalHand α} {g : Grow α} (hr : isRoot = true)
    (hpo : Offered env cls ba u peh) (hpw : env.isStrongHand peh.p1 = false)
    (hg : Growing env cls isRoot look ba u g) :
    ∃ out, rootPoorBody peh g = .ok out ∧
      Loop.Ends (Growing env cls isRoot look ba u) (Won env cls isRoot look ba u) out := by
  obtain ⟨n, j, c, he, hc, hk, -, hg1, hg2⟩ := hg.createChild (.rootPoor hr hpo hpw)
  simp only [rootPoorBody, he]
  cases hemp : c.label.hand.tefda.empty with
  | true => exact ⟨(_, some _), rfl, hk, j, c, rfl, hc, empty_iff.mp hemp⟩
  | false => exact ⟨(_, none), rfl, hg2⟩

/-- The children of a node whose hands are sorted. -/
theorem createChildren_spec (isRoot look : Bool) (hs : Sorted env cls ba u s) :
    ∃ out, createChildren env isRoot look ba s = .ok out ∧
      Loop.Ends (Growing env cls isRoot look ba u) (Won env cls isRoot look ba u) out := by
  have h0 : Growing env cls isRoot look ba u ⟨s.node, []⟩ := ⟨hs.kids isRoot look, by simp⟩
  obtain ⟨⟨g, e⟩, hbetter, hend⟩ : ∃ out, betterChildren env look s = .ok out ∧
      Loop.Ends (Growing env cls isRoot look ba u) (Won env cls isRoot look ba u) out := by
    cases look with
    | false => exact ⟨_, rfl, h0⟩
    | true =>
      simp only [betterChildren, ↓reduceIte, hs.rule]
      exact Loop.forEach_total' (fun beh g hb hg =>
        betterBody_spec rfl (hs.better beh hb).1 (hs.better beh hb).2 hs.poor hg) h0
  simp only [createChildren, hbetter, except_ok_bind]
  cases e with
  | some e => exact ⟨_, rfl, hend⟩
  | none =>
    cases hr : isRoot with
    | false => exact ⟨(g, none), by simp, hr ▸ hend⟩
    | true =>
      subst hr
      obtain ⟨⟨g', e⟩, hpoor, hend⟩ := Loop.forEach_total' (fun peh g hp hg =>
        rootPoorBody_spec rfl (hs.poor peh hp).1 (hs.poor peh hp).2 hg) hend
      simp only [Bool.not_true, Bool.false_eq_true, ↓reduceIte, hpoor, except_ok_bind]
      cases e with
      | some e => exact ⟨_, rfl, hend⟩
      | none =>
        cases hb : ba.empty with
        | true => exact ⟨(g', none), by simp, hend⟩
        | false =>
          have hend : Growing env cls true look ba u g' := hend
          obtain ⟨n, j, c, he, -, -, -, -, hg2⟩ := hend.createChild
            (.pass rfl (empty_eq_false_iff.mp hb))
          refine ⟨(⟨n, g'.next.insert j⟩, none), ?_, hg2⟩
          have htef : g'.node.label.hand.tefda = u.tefda := by rw [← hend.kids.pos]; rfl
          simp [passChild, htef, he]

/-- **One expansion.** The expansion of a leaf returns without a fault. It leaves attached
children, or ends the search as `Ended` says. -/
theorem expand_spec (w : World) (hev : env.Evaluates) (isRoot look : Bool) (ba : CardSet)
    {m : Mach} (hm : m.rule.cls = cls) {n : EvalNode α} (hleaf : n.children = []) :
    ∃ out, expand w env isRoot look ba m n = .ok out ∧
      Loop.Ends (fun p => Growing env cls isRoot look ba n.label.pos p.2 ∧ p.1.rule.cls = cls ∧
          m.ticks ≤ p.1.ticks)
        (fun p e => Stopped w env cls isRoot look ba n.label.pos m.ticks p.1 p.2.node e) out := by
  obtain ⟨hands, henum, -, hmem⟩ :=
    enumrate_spec m.rule n.label.hand.tefda ba n.label.isKakumei
  have hrule : m.rule.setKakumei n.label.isKakumei = ⟨cls, n.label.pos.isKakumei⟩ := by
    rw [← hm]; rfl
  rw [hrule] at henum hmem
  simp only [expand, henum, except_ok_bind]
  cases hh : hands.isEmpty with
  | true =>
    have hnone : ∀ H, H ⊆ n.label.pos.tefda → Playable ⟨cls, n.label.pos.isKakumei⟩ ba H →
        4 ≤ ba.size := by
      rw [List.isEmpty_iff.mp hh] at henum
      rw [← hrule] at henum ⊢
      exact (enumrate_nil_iff m.rule n.label.pos.tefda ba n.label.isKakumei).mp henum
    refine ⟨((_, _), some .node), rfl, ⟨rfl, ?_, ?_⟩, rfl, le_rfl, .node hleaf hnone⟩
    · simp [hleaf]
    · simp [hleaf]
  | false =>
    have hs0 : Sorted env cls ba n.label.pos ⟨Mach.setKakumei { m with rule := ⟨cls,
        n.label.pos.isKakumei⟩ } n.label.isKakumei, n, [], []⟩ :=
      ⟨rfl, hleaf, rfl, by simp, by simp⟩
    obtain ⟨⟨s, e⟩, hrun, hend⟩ := classifyLoop_spec w isRoot look hev
      (fun H hH => (hmem H).mp hH) hs0
    simp only [Bool.false_eq_true, ↓reduceIte, hrun, except_ok_bind]
    cases e with
    | some e => exact ⟨((_, _), some e), rfl, hend⟩
    | none =>
      obtain ⟨hs, ht⟩ := hend
      obtain ⟨⟨g, e⟩, hcc, hend⟩ := createChildren_spec isRoot look hs
      have hcls : s.mach.rule.cls = cls := by rw [hs.rule]
      refine ⟨((s.mach, g), e), by simp [hcc], ?_⟩
      cases e with
      | none => exact ⟨hend, hcls, ht⟩
      | some e =>
        obtain ⟨hk, i, c, rfl, hc, hemp⟩ := hend
        exact ⟨hk, hcls, ht, .child hc hemp⟩

end

end SagePlayer

end Neof5
