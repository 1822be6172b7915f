import Neof5.EvalNode
import Neof5.Sage.Enumerate

/-!
# The search of `SagePlayer` (`_think_recursive`)

The search goes through the evaluation tree level by level. `expand` is the body of its loop for
one node: it enumerates the hands, sorts them into strong and weak ones, and creates children in
five places. `thinkRecursive` runs it over the frontier and goes on with the next level.

What the search cannot control is a parameter:

* `World`: the values of `time()` and of the random generator, and the order in which a
  `std::set<EvalNode*>` is walked, which depends on the addresses of the nodes;
* `SearchEnv.potential`: the evaluation of a hand. `SagePlayer` uses
  `_calcPotentialToBeFightback` (`Neof5.Sage.Potential`).

`Mach` is what changes besides the tree: the rule object, whose flag is set at every node, and
what was read from the world and tweeted so far. Log output is left out.
-/

namespace Neof5

/-- What the player reads from outside during one call of `think`. -/
structure World where
  /-- the value of the `n`-th call of `time()` by the player itself: those of the log output are not
  counted -/
  clock : Nat → Int
  /-- the `n`-th number drawn from the random distribution -/
  rdist : Nat → Nat
  /-- the order in which the pointers in the frontier of a level are walked -/
  order : Nat → List NodePtr → List NodePtr
  order_perm : ∀ d l, (order d l).Perm l

/-- The state of the player's surroundings. -/
structure Mach where
  rule : DaifugoRule
  ticks : Nat
  draws : Nat
  tweets : List String

namespace Mach

/-- `time(NULL)` -/
def time (w : World) (m : Mach) : Int × Mach := (w.clock m.ticks, { m with ticks := m.ticks + 1 })

/-- `getRand(max)` -/
def getRand (w : World) (m : Mach) (max : Nat) : Nat × Mach :=
  (w.rdist m.draws % max, { m with draws := m.draws + 1 })

/-- `_tweetFunc(message)` -/
def tweet (m : Mach) (message : String) : Mach := { m with tweets := m.tweets ++ [message] }

def setKakumei (m : Mach) (isKakumei : Bool) : Mach :=
  { m with rule := m.rule.setKakumei isKakumei }

end Mach

namespace SagePlayer

variable {α : Type} [Score α]

/-- What `_think_recursive` reads and does not change. -/
structure SearchEnv (α : Type) where
  timelimit : Int
  handPotentialMax : α
  potential : CardSet → Bool → Except Fault α

/-- `IS_STRONG_HAND(p1)` -/
def SearchEnv.isStrongHand (env : SearchEnv α) (p1 : α) : Bool :=
  decide (p1 < env.handPotentialMax + Score.lit 0.5)

/-- The ways in which the expansion of a node ends the search: with the null pointer, with the
node, or with one of its children. -/
inductive Exit where
  | null
  | node
  | child (i : Nat)
  deriving DecidableEq, Repr

/-- The pointer that the search returns. -/
def Exit.ptr (p : NodePtr) : Exit → Option NodePtr
  | null => none
  | node => some p
  | child i => some (i :: p)

/-! ## Sorting the hands -/

/-- The state of the loop that sorts the hands. -/
structure Scan (α : Type) where
  mach : Mach
  node : EvalNode α
  betterHands : List (EvalHand α)
  poorHands : List (EvalHand α)

/-- `node->hand.p2 += x` -/
def addP2 (node : EvalNode α) (x : α) : EvalNode α :=
  .node { node.label with hand := { node.label.hand with p2 := node.label.hand.p2 + x } }
    node.children

/-- The end of the loop body: the time check, and the hand goes to one of the lists. -/
def sortHand (w : World) (env : SearchEnv α) (eh : EvalHand α) (s : Scan α) :
    Scan α × Option Exit :=
  let (now, mach) := s.mach.time w
  if env.timelimit < now then
    ({ s with mach := mach.tweet "ぐぐ、時間がない。。。" }, some .null)
  else if env.isStrongHand eh.p1 then
    ({ s with mach, betterHands := s.betterHands ++ [eh] }, none)
  else ({ s with mach, poorHands := s.poorHands ++ [eh] }, none)

/-- The loop body for a hand with its evaluation. -/
def judgeHand (w : World) (env : SearchEnv α) (isRoot : Bool) (eh : EvalHand α) (s : Scan α) :
    Except Fault (Scan α × Option Exit) := do
  let h := s.node.label.hand
  -- All cards are gone: won, if this is the first hand, or the last one or this one clears the
  -- table.
  if eh.tefda.empty && (isRoot || env.isStrongHand h.p1 ||
      (env.isStrongHand eh.p1 && eh.hand.size == h.hand.size)) then
    if (← s.mach.rule.canAgari eh.hand) = .ok then
      let (node, i, _) := EvalNode.createChild s.node eh
      return ({ s with node }, some (.child i))
    else if !isRoot then return (s, none)
    else return sortHand w env eh s
  else return sortHand w env eh s

/-- The body of the loop that sorts the hands. -/
def classifyBody (w : World) (env : SearchEnv α) (isRoot : Bool) (hand : CardSet) (s : Scan α) :
    Except Fault (Scan α × Option Exit) := do
  let n := hand.size
  let p1 ← env.potential hand s.node.label.isKakumei
  let eh : EvalHand α := ⟨hand, s.node.label.hand.tefda \ hand, p1, 0⟩
  judgeHand w env isRoot eh { s with node := addP2 s.node (p1 - Score.lit ((n : ℚ) - 1)) }

/-! ## Creating the children -/

/-- The state of the loops that create children: the node, and the children that are put into
the next frontier. -/
structure Grow (α : Type) where
  node : EvalNode α
  next : List Nat

/-- The hand cannot follow the node's hand: that one does not clear the table, and the hand has
another number of cards or is not stronger by two. -/
def cannotFollow (env : SearchEnv α) (d : NodeData α) (beh : EvalHand α) : Except Fault Bool := do
  if !d.hand.hand.empty && !env.isStrongHand d.hand.p1 then
    if d.hand.hand.size ≠ beh.hand.size then return true
    let a ← d.hand.hand.at 0
    let b ← beh.hand.at 0
    return decide ((a.getStrength : Int) + (if d.isKakumei then -2 else 2) > b.getStrength)
  return false

/-- The body of the inner loop over the weak hands, for the strong hand `beh` with child `i`. -/
def poorBody (rule : DaifugoRule) (beh : EvalHand α) (i : Nat) (peh : EvalHand α) (g : Grow α) :
    Except Fault (Grow α × Option Exit) := do
  if peh.hand.communion beh.hand then return ({ g with next := g.next.insert i }, none)
  let (node, j, child2) := EvalNode.createChild g.node peh
  if child2.hand.tefda.empty then
    if (← rule.canAgari child2.hand.hand) = .ok then return (⟨node, g.next⟩, some (.child j))
    else return (⟨node, g.next⟩, none)
  else return (⟨node, g.next.insert j⟩, none)

/-- The body of the loop over the strong hands. -/
def betterBody (env : SearchEnv α) (rule : DaifugoRule) (poorHands : List (EvalHand α))
    (beh : EvalHand α) (g : Grow α) : Except Fault (Grow α × Option Exit) := do
  if ← cannotFollow env g.node.label beh then return (g, none)
  let (node, i, _) := EvalNode.createChild g.node beh
  if poorHands.isEmpty then return (⟨node, g.next.insert i⟩, none)
  Loop.forEach (poorBody rule beh i) poorHands ⟨node, g.next⟩

/-- The body of the loop over the weak hands of the root. -/
def rootPoorBody (peh : EvalHand α) (g : Grow α) : Except Fault (Grow α × Option Exit) :=
  let (node, j, child2) := EvalNode.createChild g.node peh
  if child2.hand.tefda.empty then .ok (⟨node, g.next⟩, some (.child j))
  else .ok (⟨node, g.next.insert j⟩, none)

/-- The child for a pass. -/
def passChild (g : Grow α) : Grow α :=
  let eh : EvalHand α := { EvalHand.new with tefda := g.node.label.hand.tefda }
  let (node, j, _) := EvalNode.createChild g.node eh
  ⟨node, g.next.insert j⟩

/-- The children for the strong hands, and those for the weak hands beside them. -/
def betterChildren (env : SearchEnv α) (lookAhead : Bool) (s : Scan α) :
    Except Fault (Grow α × Option Exit) :=
  if lookAhead then
    Loop.forEach (betterBody env s.mach.rule s.poorHands) s.betterHands ⟨s.node, []⟩
  else .ok (⟨s.node, []⟩, none)

/-- The children of a node whose hands are sorted. -/
def createChildren (env : SearchEnv α) (isRoot lookAhead : Bool) (baCards : CardSet) (s : Scan α) :
    Except Fault (Grow α × Option Exit) := do
  let (g, exit) ← betterChildren env lookAhead s
  match exit with
  | some e => return (g, some e)
  | none =>
    if !isRoot then return (g, none)
    let (g, exit) ← Loop.forEach rootPoorBody s.poorHands g
    match exit with
    | some e => return (g, some e)
    | none => if !baCards.empty then return (passChild g, none) else return (g, none)

/-- The body of the loop over the frontier, for one node. `lookAhead` is the condition for
creating the children of the strong hands. -/
def expand (w : World) (env : SearchEnv α) (isRoot lookAhead : Bool) (baCards : CardSet)
    (mach : Mach) (node : EvalNode α) : Except Fault ((Mach × Grow α) × Option Exit) := do
  let (rule, hands) ←
    enumrateAvairableHands mach.rule [] node.label.hand.tefda baCards node.label.isKakumei
  let mach := { mach with rule }
  if hands.isEmpty then return ((mach, ⟨node, []⟩), some .node)
  let mach := mach.setKakumei node.label.isKakumei
  let (s, exit) ← Loop.forEach (classifyBody w env isRoot) hands ⟨mach, node, [], []⟩
  match exit with
  | some e => return ((s.mach, ⟨s.node, []⟩), some e)
  | none =>
    let (g, exit) ← createChildren env isRoot lookAhead baCards s
    return ((s.mach, g), exit)

/-! ## The search over the levels -/

/-- The state of the loop over a frontier. -/
structure Search (α : Type) where
  mach : Mach
  tree : EvalNode α
  nextNodes : List NodePtr

/-- `node->isRoot() || node->getParent()->isRoot() || !node->getHeirOfRoot()->hand.hand.empty()` -/
def lookAhead (tree : EvalNode α) (p : NodePtr) : Bool :=
  p.isRoot || p.getParent.isRoot ||
    (tree.label? p.getHeirOfRoot).any fun d => !d.hand.hand.empty

/-- The body of the loop over the frontier. -/
def visit (w : World) (env : SearchEnv α) (baCards : CardSet) (p : NodePtr) (s : Search α) :
    Except Fault (Search α × Option (Option NodePtr)) :=
  match s.tree.get? p with
  | none => .error .nullDeref
  | some node => do
    let ((mach, g), exit) ←
      expand w env p.isRoot (lookAhead s.tree p) baCards s.mach node
    let tree := s.tree.modify p fun _ => g.node
    match exit with
    | some e => return (⟨mach, tree, s.nextNodes⟩, some (e.ptr p))
    | none => return (⟨mach, tree, g.next.foldl (fun ns i => ns.insert (i :: p)) s.nextNodes⟩, none)

/-- `_think_recursive`: the surroundings and the tree after it, and the pointer returned. The
first number bounds the depth of the recursion, `d` is the level. -/
def thinkRecursive (w : World) (env : SearchEnv α) :
    Nat → Nat → CardSet → List NodePtr → Mach → EvalNode α →
      Except Fault (Mach × EvalNode α × Option NodePtr)
  | 0, _, _, _, _, _ => .error .depth
  | fuel + 1, d, baCards, nodes, mach, tree => do
    let (s, result) ← Loop.forEach (visit w env baCards) (w.order d nodes) ⟨mach, tree, []⟩
    match result with
    | some r => return (s.mach, s.tree, r)
    | none =>
      if !s.nextNodes.isEmpty then
        thinkRecursive w env fuel (d + 1) ∅ s.nextNodes s.mach s.tree
      else return (s.mach, s.tree, none)

end SagePlayer

end Neof5
