import Neof5.Sage.Potential

/-!
# The player (`SagePlayer::think`)

`think` plays on from the plan of an earlier turn while that is possible, and else starts a new
search (`think2`). A search that finds a winning line leaves the rest of it as the new plan
(`found`); one that does not, or that runs out of time, falls back on the evaluation of the hands
(`fallback`).

The plan is a `std::vector` that is read and shortened at its back.
-/

namespace Neof5

/-- The members of a `SagePlayer`, and its surroundings. -/
structure SagePlayer (α : Type) where
  savedHandsTree : List CardSet
  handPotentialMax : α
  notappearsCards : CardSet
  mach : Mach

namespace SagePlayer

variable {α : Type} [Score α]

/-- `THINK_TIME_LIMIT` -/
def thinkTimeLimit : Int := 18

/-- `hand_potential_max` for the cards that are known. -/
def calcHandPotentialMax (appearsCards : CardSet) : α :=
  Score.lit (-1.21) -
    (if appearsCards.size < 8 then Score.lit 8
      else if appearsCards.size < 30 then
        Score.lit 7 - Score.lit appearsCards.size / Score.lit 4.8
      else Score.lit 0)

/-- `appears_cards` of `think2`: the cards whose place is known. -/
def appearsCards (ctx : DaifugoContext) : CardSet :=
  ctx.ba.foldl (fun s ba => s ∪ ba) (ctx.yama ∪ ctx.deck)

/-- What the search of `think2` reads. -/
def searchEnv (ctx : DaifugoContext) (timelimit : Int) : SearchEnv α where
  timelimit := timelimit
  handPotentialMax := calcHandPotentialMax (appearsCards ctx)
  potential := calcPotentialToBeFightback (calcHandPotentialMax (appearsCards ctx))
    (CardSet.allCards \ appearsCards ctx) ctx

/-- `p->getHeirOfRoot()->hand.hand` -/
def heirHand (tree : EvalNode α) (p : NodePtr) : Except Fault CardSet :=
  match tree.label? p.getHeirOfRoot with
  | none => .error .nullDeref
  | some d => .ok d.hand.hand

/-- `getChildAt` -/
def getChildAt (tree : EvalNode α) (idx : Int) : Except Fault NodePtr :=
  -- `_children` is null as long as no child was added.
  if tree.children.isEmpty then .error .nullDeref
  else if 0 ≤ idx ∧ idx < tree.children.length then .ok [idx.toNat]
  else .error .outOfRange

/-! ## The remarks of the player -/

/-- A remark at random: `if (getRand(max) == hit) _tweetFunc(message)`. -/
def remark (w : World) (max hit : Nat) (message : String) (mach : Mach) : Mach :=
  let (x, mach) := mach.getRand w max
  if x = hit then mach.tweet message else mach

/-- The remark when two players are left. -/
def tweetLastTwo (w : World) (ctx : DaifugoContext) (mach : Mach) : Mach :=
  if ctx.getNumOfAvailablePlayers = 2 then remark w 8 1 "まずいのう。。。" mach else mach

/-- The remark on a hand of the plan. -/
def tweetSaved (w : World) (mach : Mach) : Mach := remark w 9 1 "ほれっ！" mach

/-- The remarks on a plan that was found. -/
def tweetFound (w : World) (hh : CardSet) (mach : Mach) : Mach :=
  if !hh.empty then
    let (x, mach) := mach.getRand w 3
    if x = 1 then mach.tweet "わしの勝ちじゃ！" else remark w 4 1 "ほほっ！" mach
  else mach

/-- The remark on a pass. -/
def tweetPass (w : World) (hh : CardSet) (mach : Mach) : Mach :=
  if hh.empty then remark w 12 5 "むむぅ" mach else mach

@[simp] theorem remark_rule (w : World) (max hit : Nat) (message : String) (mach : Mach) :
    (remark w max hit message mach).rule = mach.rule := by
  by_cases h : w.rdist mach.draws % max = hit <;> simp [remark, Mach.getRand, Mach.tweet, h]

@[simp] theorem tweetLastTwo_rule (w : World) (ctx : DaifugoContext) (mach : Mach) :
    (tweetLastTwo w ctx mach).rule = mach.rule := by
  unfold tweetLastTwo
  split <;> simp

@[simp] theorem remark_ticks (w : World) (max hit : Nat) (message : String) (mach : Mach) :
    (remark w max hit message mach).ticks = mach.ticks := by
  by_cases h : w.rdist mach.draws % max = hit <;> simp [remark, Mach.getRand, Mach.tweet, h]

@[simp] theorem tweetLastTwo_ticks (w : World) (ctx : DaifugoContext) (mach : Mach) :
    (tweetLastTwo w ctx mach).ticks = mach.ticks := by
  unfold tweetLastTwo
  split <;> simp

@[simp] theorem tweetSaved_rule (w : World) (mach : Mach) :
    (tweetSaved w mach).rule = mach.rule := remark_rule w 9 1 _ mach

@[simp] theorem tweetFound_rule (w : World) (hh : CardSet) (mach : Mach) :
    (tweetFound w hh mach).rule = mach.rule := by
  unfold tweetFound
  split
  · by_cases h : w.rdist mach.draws % 3 = 1 <;> simp [Mach.getRand, Mach.tweet, h]
  · rfl

@[simp] theorem tweetPass_rule (w : World) (hh : CardSet) (mach : Mach) :
    (tweetPass w hh mach).rule = mach.rule := by
  unfold tweetPass
  split <;> simp

/-! ## A turn -/

/-- The end of `think2` if the search returned the node `r`. -/
def found (w : World) (sp : SagePlayer α) (tree : EvalNode α) (r : NodePtr) :
    Except Fault (CardSet × SagePlayer α) := do
  let saved ← EvalNode.saveHandsTree tree r []
  let saved := if !saved.isEmpty then saved.dropLast else saved
  let hh ← heirHand tree r
  return (hh, { sp with savedHandsTree := saved, mach := tweetFound w hh sp.mach })

/-- The end of `think2` if the search returned null. -/
def fallback (w : World) (sp : SagePlayer α) (tree : EvalNode α) :
    Except Fault (CardSet × SagePlayer α) := do
  let result ←
    match EvalNode.findBestParamChild tree with
    | some (p, _) => pure p
    | none => getChildAt tree ((EvalNode.numOfChildren tree : Int) - 1)
  let hh ← heirHand tree result
  return (hh, { sp with mach := tweetPass w hh sp.mach })

/-- The search of `think2`. A search that starts with `n` hand cards has at most `n + 2` levels. -/
def search (w : World) (ctx : DaifugoContext) (baLast : CardSet) (mach : Mach) :
    Except Fault (Mach × EvalNode α × Option NodePtr) :=
  let (now, mach) := mach.time w
  thinkRecursive w (searchEnv ctx (now + thinkTimeLimit)) (ctx.deck.size + 2) 0 baLast [[]] mach
    (EvalNode.new ctx.deck ctx.isKakumei)

/-- `think2` -/
def think2 (w : World) (sp : SagePlayer α) (ctx : DaifugoContext) (baLast : CardSet) :
    Except Fault (CardSet × SagePlayer α) := do
  let (mach, tree, result) ← search w ctx baLast sp.mach
  let sp := { sp with
    handPotentialMax := calcHandPotentialMax (appearsCards ctx)
    notappearsCards := CardSet.allCards \ appearsCards ctx
    mach }
  match result with
  | some r => found w sp tree r
  | none => fallback w sp tree

/-- `think` -/
def think (w : World) (sp : SagePlayer α) (ctx : DaifugoContext) :
    Except Fault (CardSet × SagePlayer α) := do
  let mach := tweetLastTwo w ctx sp.mach
  match sp.savedHandsTree.getLast? with
  | some hand =>
    let mach := mach.setKakumei ctx.isKakumei
    let usable ←
      if ctx.deck.hasAll hand then do
        let chk ← mach.rule.canPut hand ctx.baLast
        pure (chk == .ok)
      else pure false
    if usable then
      return (hand,
        { sp with savedHandsTree := sp.savedHandsTree.dropLast, mach := tweetSaved w mach })
    else think2 w { sp with savedHandsTree := [], mach } ctx ctx.baLast
  | none => think2 w { sp with mach } ctx ctx.baLast

/-- The player before its first turn, under a rule object of class `cls`. Everything but the
empty plan is left open by the constructor. -/
def Fresh (cls : RuleClass) (sp : SagePlayer α) : Prop :=
  sp.savedHandsTree = [] ∧ sp.mach.rule.cls = cls

/-- The states of one player after any sequence of turns. -/
inductive Reach (cls : RuleClass) : SagePlayer α → Prop
  | init {sp} : Fresh cls sp → Reach cls sp
  | turn {sp sp' : SagePlayer α} {w ctx hand} :
      Reach cls sp → think w sp ctx = .ok (hand, sp') → Reach cls sp'

end SagePlayer

end Neof5
