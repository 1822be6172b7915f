import Neof5.Lib.Loop
import Neof5.CardSet

/-!
# The rules of play (`DaifugoRule.cpp`)

Class A (`DaifugoRuleA`): a play is a group of one number, the joker standing for any card; it
must have as many cards as the last play on the table and be stronger. Class B (`DaifugoRuleB`)
adds sequences (kaidan) and forbids some hands as the last one of a player.

The rule object keeps the revolution flag (`_isKakumei`) that its callers set before each use.
A check gives a `ChkResult`: in the source a pointer to the error text, null for OK.
-/

namespace Neof5

/-- `chk_result_t` -/
inductive ChkResult where
  | ok
  | errDifferentNum
  | errCountUnmatch
  | errInvalidBa
  | errNotStrong
  | errJokerAgari
  | err2Agari
  | errBaIsnotKaidan
  | errNotKaidan
  deriving DecidableEq, Repr

/-- The texts of the errors. Those of `errInvalidBa` and `errNotStrong` are exchanged in the
source. -/
def ChkResult.text : ChkResult → Option String
  | .ok => none
  | .errDifferentNum => some "数字が異なるカードが含まれています。"
  | .errCountUnmatch => some "枚数が一致していません。"
  | .errInvalidBa => some "強いカードではありません。"
  | .errNotStrong => some "場のカードが不正です。"
  | .errJokerAgari => some "ジョーカーあがりは禁止です。"
  | .err2Agari => some "２あがり(革命時は３あがり）禁止です。"
  | .errBaIsnotKaidan => some "場が階段でない。"
  | .errNotKaidan => some "カードが階段でない。"

/-- `DaifugoRuleA`, `DaifugoRuleB` -/
inductive RuleClass where
  | A
  | B
  deriving DecidableEq, Repr

/-- A rule object. -/
structure DaifugoRule where
  cls : RuleClass
  isKakumei : Bool
  deriving DecidableEq, Repr

/-- The body of the scan in `_tryGetFirstCard`: the first card that is not a joker is kept, and
a card of another number ends the scan. -/
def tryGetFirstCardBody (cards : CardSet) (i : Nat) (check : Option Card) :
    Except Fault (Option Card × Option Unit) := do
  let c ← cards.at i
  if c.isJoker then pure (check, none)
  else
    match check with
    | none => pure (some c, none)
    | some d => if d.getNum ≠ c.getNum then pure (check, some ()) else pure (check, none)

/-- `_tryGetFirstCard`: `none` where the source returns false, else the pointer that it leaves in
`buff`, which the scan of a set of jokers leaves null. -/
def tryGetFirstCard (cards : CardSet) : Except Fault (Option (Option Card)) :=
  match cards.size with
  | 0 => pure none
  | 1 => do
    let c ← cards.at 0
    pure (some (some c))
  | n => do
    let (check, stop) ← Loop.forEach (tryGetFirstCardBody cards) (List.range n) none
    match stop with
    | some () => pure none
    | none => pure (some check)

namespace DaifugoRule

/-- `IDaifugoRule::setKakumei` -/
def setKakumei (r : DaifugoRule) (isKakumei : Bool) : DaifugoRule := { r with isKakumei }

/-- `DaifugoRuleA::compareCards`: positive if `b` is the stronger card. -/
def compareCards (r : DaifugoRule) (a b : Card) : Int :=
  if a.getNum = b.getNum then 0
  else if a.isJoker then -1
  else if b.isJoker then 1
  else
    let ret : Int := if b < a then -1 else 1
    if r.isKakumei then -ret else ret

/-- `DaifugoRuleA::canPut` -/
def canPutA (r : DaifugoRule) (cards baLast : CardSet) : Except Fault ChkResult := do
  if cards.empty then return .ok
  match ← tryGetFirstCard cards with
  | none => return .errDifferentNum
  | some firstCard =>
    if baLast.empty then return .ok
    if baLast.size ≠ cards.size then return .errCountUnmatch
    match ← tryGetFirstCard baLast with
    | none => return .errInvalidBa
    | some baCard =>
      match baCard, firstCard with
      | some b, some f => if r.compareCards b f ≤ 0 then return .errNotStrong else return .ok
      | _, _ => .error .nullDeref

end DaifugoRule

/-! ## Sequences -/

/-- `listcards->at(i)` -/
def vectorAt (v : List Card) (i : Nat) : Except Fault Card :=
  match v[i]? with
  | some c => .ok c
  | none => .error .outOfRange

/-- `std::sort` by `operator<` of the cards. -/
def sortCards (v : List Card) : List Card := v.insertionSort (fun a b => a.getId ≤ b.getId)

/-- The loop of `_isKaidan` that compares the suits. -/
def sameSuitBody (first : Card) (v : List Card) (i : Nat) (s : Unit) :
    Except Fault (Unit × Option Unit) := do
  let c ← vectorAt v i
  if first.getSuit ≠ c.getSuit then pure (s, some ()) else pure (s, none)

/-- The loop of `_isKaidan` over neighbours: `pj` jokers are used up so far. -/
def kaidanBody (hasJoker : Nat) (v : List Card) (i : Nat) (pj : Int) :
    Except Fault (Int × Option Unit) := do
  let next ← vectorAt v (i + 1)
  let c ← vectorAt v i
  let cmp := next.compareTo c - 1
  if cmp = 0 then pure (pj, none)
  else if cmp ≤ (hasJoker : Int) - pj then pure (pj + cmp, none)
  else pure (pj, some ())

/-- `_isKaidan`: the sorted cards without the joker where the source returns true. -/
def isKaidanCards (cards : CardSet) : Except Fault (Option (List Card)) := do
  if cards.size < 3 then return none
  let (hasJoker, tmpc) ← cards.extractJoker
  let listcards ← tmpc.conv2Vector
  let first ← vectorAt listcards 0
  let (_, stop) ← Loop.forEach (sameSuitBody first listcards)
    (List.range' 1 (listcards.length - 1)) ()
  match stop with
  | some () => return none
  | none =>
    let sorted := sortCards listcards
    let (_, stop) ← Loop.forEach (kaidanBody hasJoker sorted) (List.range (sorted.length - 1)) 0
    match stop with
    | some () => return none
    | none => return some sorted

/-- `std::max_element` -/
def maxElement : List Card → Except Fault Card
  | [] => .error .nullDeref
  | c :: cs => .ok (cs.foldl (fun m d => if m < d then d else m) c)

/-- `std::min_element` -/
def minElement : List Card → Except Fault Card
  | [] => .error .nullDeref
  | c :: cs => .ok (cs.foldl (fun m d => if d < m then d else m) c)

namespace DaifugoRule

/-- `DaifugoRuleB::isKaidan` -/
def isKaidan (cards : CardSet) : Except Fault Bool := do
  let v ← isKaidanCards cards
  pure v.isSome

/-- The decision of `DaifugoRuleB::canPut` between two sequences. -/
def compareKaidan (r : DaifugoRule) (vBalast vCards : List Card) : Except Fault ChkResult := do
  let c1 ← maxElement vBalast
  let c2 ← minElement vCards
  if 0 < r.compareCards c2 c1 then pure .ok else pure .errNotStrong

/-- `DaifugoRuleB::canPut` -/
def canPutB (r : DaifugoRule) (cards baLast : CardSet) : Except Fault ChkResult := do
  let ret ← r.canPutA cards baLast
  if ret = .ok then return ret
  if !baLast.empty then
    match ← isKaidanCards baLast with
    | some vBalast =>
      match ← isKaidanCards cards with
      | some vCards => r.compareKaidan vBalast vCards
      | none => return .errNotKaidan
    | none =>
      match ← isKaidanCards cards with
      | some _ => return .errBaIsnotKaidan
      | none => return ret
  else
    match ← isKaidanCards cards with
    | some _ => return .ok
    | none => return ret

/-- `canPut` of the rule object's class. -/
def canPut (r : DaifugoRule) (cards baLast : CardSet) : Except Fault ChkResult :=
  match r.cls with
  | .A => r.canPutA cards baLast
  | .B => r.canPutB cards baLast

/-- `canAgari` of the rule object's class. -/
def canAgari (r : DaifugoRule) (cards : CardSet) : Except Fault ChkResult :=
  match r.cls with
  | .A => pure .ok
  | .B => do
    let (_, tmpc) ← cards.extractJoker
    if tmpc.empty then return .errJokerAgari
    if tmpc.hasNumOf (if r.isKakumei then 3 else 2) then return .err2Agari
    return .ok

end DaifugoRule

end Neof5
