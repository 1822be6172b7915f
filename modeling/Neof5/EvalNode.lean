import Neof5.Lib.Rose
import Neof5.Lib.Score
import Neof5.RuleLemmas

/-!
# The evaluation tree (`EvalNode.cpp`)

The search of `SagePlayer` builds a tree of plays. A node holds the hand that was played to get
there, the hand cards that are left (`tefda`), and two evaluations.

The tree is a `Rose`, and a pointer to a node is its position: nodes are only ever appended to
`_children`, so a position stays valid, and the parent pointer is the tail of the position.
A method that only touches its own object (`createChild`) is a function on the node; one that
follows parent pointers (`getHeirOfRoot`, `saveHandsTree`) takes the tree and the position.
-/

namespace Neof5

/-- `EvalHand` -/
structure EvalHand (α : Type) where
  hand : CardSet
  tefda : CardSet
  p1 : α
  p2 : α

/-- The constructor `EvalHand()` -/
def EvalHand.new {α : Type} [Zero α] : EvalHand α := ⟨∅, ∅, 0, 0⟩

/-- The fields of an `EvalNode` other than the links. -/
structure NodeData (α : Type) where
  hand : EvalHand α
  isKakumei : Bool

/-- `EvalNode` -/
abbrev EvalNode (α : Type) := Rose (NodeData α)

/-- `EvalNode*` -/
abbrev NodePtr := List Nat

namespace NodePtr

/-- `isRoot` -/
def isRoot (p : NodePtr) : Bool := List.isEmpty p

/-- `getParent` -/
def getParent (p : NodePtr) : NodePtr := List.tail p

/-- `getHeirOfRoot`: the ancestor right below the root; the root for the root. -/
def getHeirOfRoot : NodePtr → NodePtr
  | [] => []
  | [i] => [i]
  | _ :: i :: p => getHeirOfRoot (i :: p)

end NodePtr

namespace EvalNode

variable {α : Type}

/-- `EvalNode::EvalNode(tefda, isKakumei)` -/
def new [Zero α] (tefda : CardSet) (isKakumei : Bool) : EvalNode α :=
  .node ⟨{ EvalHand.new with tefda }, isKakumei⟩ []

/-- `numOfChildren` -/
def numOfChildren (this : EvalNode α) : Nat := this.children.length

/-- The data of the child that `createChild` adds: the node's own hand is taken out of the hand
cards, and four or more cards turn the order around. -/
def childData (this : NodeData α) (eh : EvalHand α) : NodeData α where
  hand := { eh with tefda := eh.tefda \ this.hand.hand }
  isKakumei := if 4 ≤ eh.hand.size then !this.isKakumei else this.isKakumei

/-- `createChild`: the node, the index of the child, and the child's data. A child with the same
hand is not added again. -/
def createChild (this : EvalNode α) (eh : EvalHand α) : EvalNode α × Nat × NodeData α :=
  match this.children.findIdx? fun c => c.label.hand.hand == eh.hand with
  | some i => (this, i, (this.children[i]?.map Rose.label).getD (childData this.label eh))
  | none =>
    let child := childData this.label eh
    (.node this.label (this.children ++ [.node child []]), this.children.length, child)

section

variable [Zero α] [BEq α] [LT α] [DecidableLT α]

mutual

/-- `findBestParamChild`: the position below the node, and the node found. -/
def findBestParamChild : EvalNode α → Option (NodePtr × NodeData α)
  | .node _ cs => scanBest 0 none cs

/-- The loop of `findBestParamChild` from the child `i` on. -/
def scanBest (i : Nat) (bestNode : Option (NodePtr × NodeData α)) :
    List (EvalNode α) → Option (NodePtr × NodeData α)
  | [] => bestNode
  | .node d ds :: cs =>
    let child : Option (NodePtr × NodeData α) :=
      if d.hand.p2 == 0 then
        (findBestParamChild (.node d ds)).map fun x => (x.1 ++ [i], x.2)
      else some ([i], d)
    match child with
    | none => scanBest (i + 1) bestNode cs
    | some c =>
      match bestNode with
      | none => scanBest (i + 1) (some c) cs
      | some b => scanBest (i + 1) (if c.2.hand.p2 < b.2.hand.p2 then some c else some b) cs

end

mutual

/-- `findBestParamChild` finds a node below the root. -/
theorem findBestParamChild_spec : ∀ (t : EvalNode α) (p : NodePtr) (e : NodeData α),
    findBestParamChild t = some (p, e) → p ≠ [] ∧ t.label? p = some e
  | .node b cs, p, e, h => by
    rw [findBestParamChild] at h
    rcases scanBest_spec cs 0 none p e h with h | ⟨j, c, q, hc, rfl, hq⟩
    · cases h
    · refine ⟨by simp, ?_⟩
      rw [Rose.label?, Rose.get?_snoc, Rose.children_node, Nat.zero_add, hc]
      exact hq

/-- The loop of `findBestParamChild` ends with the node that it had, or one below a child. -/
theorem scanBest_spec : ∀ (cs : List (EvalNode α)) (i : Nat) (best : Option (NodePtr × NodeData α))
    (p : NodePtr) (e : NodeData α), scanBest i best cs = some (p, e) →
      best = some (p, e) ∨
      ∃ j c q, cs[j]? = some c ∧ p = q ++ [i + j] ∧ Rose.label? c q = some e
  | [], i, best, p, e, h => .inl (by simpa only [scanBest] using h)
  | .node d ds :: cs, i, best, p, e, h => by
    have hchild : ∀ c, (if d.hand.p2 == 0 then
        (findBestParamChild (.node d ds)).map fun x => (x.1 ++ [i], x.2)
        else some ([i], d)) = some c → ∃ q, c.1 = q ++ [i] ∧
          Rose.label? (.node d ds : EvalNode α) q = some c.2 := by
      intro c hc
      split at hc
      · obtain ⟨⟨q, x⟩, hq, rfl⟩ := Option.map_eq_some_iff.mp hc
        exact ⟨q, rfl, (findBestParamChild_spec (.node d ds) q x hq).2⟩
      · cases hc
        exact ⟨[], rfl, rfl⟩
    have hrest : ∀ best', scanBest (i + 1) best' cs = some (p, e) → best' = some (p, e) ∨
        ∃ j c q, (Rose.node d ds :: cs)[j]? = some c ∧ p = q ++ [i + j] ∧
          Rose.label? c q = some e := by
      intro best' h
      rcases scanBest_spec cs (i + 1) best' p e h with h | ⟨j, c, q, hc, hp, hq⟩
      · exact .inl h
      · exact .inr ⟨j + 1, c, q, hc, by rw [hp]; congr 2; omega, hq⟩
    have hhere : ∀ c, (∃ q, c.1 = q ++ [i] ∧ Rose.label? (.node d ds : EvalNode α) q = some c.2) →
        some c = some (p, e) → ∃ j c q, (Rose.node d ds :: cs)[j]? = some c ∧ p = q ++ [i + j] ∧
          Rose.label? c q = some e := by
      rintro c ⟨q, hq, hl⟩ hc
      cases hc
      exact ⟨0, _, q, rfl, hq, hl⟩
    rw [scanBest] at h
    split at h
    · exact hrest _ h
    · rename_i c hc
      split at h
      · exact .inr ((hrest _ h).elim (hhere c (hchild c hc)) id)
      · rename_i b
        rcases hrest _ h with h | h
        · split at h
          · exact .inr (hhere c (hchild c hc) h)
          · exact .inl h
        · exact .inr h

end

end

/-- `saveHandsTree`: the hands from the node up to the first empty one are added to the end of
`buff`. -/
def saveHandsTree (tree : EvalNode α) : NodePtr → List CardSet → Except Fault (List CardSet)
  | [], buff =>
    -- The root has no parent to go on with.
    if tree.label.hand.hand.empty then .ok buff else .error .nullDeref
  | i :: p, buff =>
    match tree.label? (i :: p) with
    | none => .error .nullDeref
    | some d =>
      if d.hand.hand.empty then .ok buff else saveHandsTree tree p (buff ++ [d.hand.hand])

end EvalNode

end Neof5
