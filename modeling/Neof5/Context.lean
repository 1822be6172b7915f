import Neof5.CardSet
import Neof5.CardText

/-!
# The situation of a turn (`DaifugoContext.cpp`, `PlayerInfo.cpp`)

What the server tells about a turn: the player's own cards (`deck`), the plays on the table
(`ba`, the last one at the end), the cards that are out of the game (`yama`), the revolution
flag, and the other players.
-/

namespace Neof5

/-- `PlayerInfo` -/
structure PlayerInfo where
  name : Bytes
  havingCardCount : Int
  orderOfFinish : Int
  deriving DecidableEq, Repr

/-- `DaifugoContext` -/
structure DaifugoContext where
  deck : CardSet
  teban : Int
  ba : List CardSet
  yama : CardSet
  isKakumei : Bool
  playerInfo : List PlayerInfo
  deriving DecidableEq, Repr

namespace DaifugoContext

/-- `getNumOfAvailablePlayers`: the players that still hold cards. -/
def getNumOfAvailablePlayers (ctx : DaifugoContext) : Nat :=
  ctx.playerInfo.foldl (fun ret pi => if 0 < pi.havingCardCount then ret + 1 else ret) 0

/-- `ba_last` of the players: the last play on the table, empty if there is none. -/
def baLast (ctx : DaifugoContext) : CardSet := ctx.ba.getLast?.getD ∅

end DaifugoContext

end Neof5
