import Neof5.Context
import Neof5.PicojsonLemmas

/-!
# The protocol (`Neof5Protocol.cpp`)

`onMessage` reads a JSON object from the server. For the kind `ProcessTurn` it builds the context,
asks the player for a hand, and answers with a `Put`; the remarks that the player makes while
thinking are sent as `Tweet`s before it. Only the `Put` asks for the queue to be flushed.

The player is a parameter: any state and any `think` that returns a hand, the remarks and the new
state. Remarks of a turn that ends in a fault are lost with the process.

`Says o turn` is what the server means by an object: card lists as texts of tokens, in any
spelling. `one_answer_per_turn` is about every sequence of messages.
-/

namespace Neof5

/-- `IPlayer` -/
structure IPlayer (σ : Type) where
  /-- the hand, the remarks in their order, and the state after them -/
  think : DaifugoContext → σ → Except Fault (CardSet × List Bytes × σ)

/-- A call of `_sendFunc`. -/
structure Send where
  text : Bytes
  flush : Bool
  deriving DecidableEq, Repr

namespace Neof5Protocol

open Picojson

variable {ν σ : Type}

/-- The object that `putCard` serializes. -/
def putObject (cards : Bytes) : Json ν :=
  .obj (Json.set (ascii "Cards") (.str cards) (Json.set (ascii "Kind") (.str (ascii "Put")) []))

/-- `putCard` -/
def putCard (pf : Platform ν) (cards : CardSet) : Except Fault Send := do
  let text ← cards.toString
  return ⟨serialize pf (putObject text), true⟩

/-- The object that `tweet` serializes. -/
def tweetObject (s : Bytes) : Json ν :=
  .obj (Json.set (ascii "Message") (.str s) (Json.set (ascii "Kind") (.str (ascii "Tweet")) []))

/-- `tweet` -/
def tweet (pf : Platform ν) (s : Bytes) : Send := ⟨serialize pf (tweetObject s), false⟩

/-- `int x = v.get<double>()` -/
def getInt (pf : Platform ν) (v : Json ν) : Except Fault Int := do
  let x ← v.getNum
  match pf.toInt x with
  | some n => .ok n
  | none => .error .badConversion

/-- The entry of a player in the list `PlayerInfo`. -/
def readPlayerInfo (pf : Platform ν) (v : Json ν) : Except Fault PlayerInfo := do
  let o ← v.getObj
  let name ← (Json.field o "Name").getStr
  let havingCardCount ← getInt pf (Json.field o "HavingCardCount")
  let orderOfFinish ← getInt pf (Json.field o "OrderOfFinish")
  return ⟨name, havingCardCount, orderOfFinish⟩

/-- The part of `onMessage` that builds the context, with the constructor of `DaifugoContext`. -/
def readContext (pf : Platform ν) (o : List (Bytes × Json ν)) : Except Fault DaifugoContext := do
  let deck ← (Json.field o "Deck").getStr
  let yama ← (Json.field o "Yama").getStr
  let isKakumei ← (Json.field o "IsKakumei").getBool
  let ba ← (Json.field o "Ba").getArr
  let ba ← ba.mapM Json.getStr
  let teban ← getInt pf (Json.field o "Teban")
  let playerInfo ← (Json.field o "PlayerInfo").getArr
  let playerInfo ← playerInfo.mapM (readPlayerInfo pf)
  let deck ← CardSet.ofCStr pf.charKind deck
  let yama ← CardSet.ofCStr pf.charKind yama
  let ba ← ba.mapM (CardSet.ofCStr pf.charKind)
  return ⟨deck, teban, ba, yama, isKakumei, playerInfo⟩

/-- `onMessage`: what is sent, and the player after it. -/
def onMessage (pf : Platform ν) (player : IPlayer σ) (data : Bytes) (s : σ) :
    Except Fault (List Send × σ) := do
  let obj ← (parse pf data).getObj
  let kind ← (Json.field obj "Kind").getStr
  if kind = ascii "ProcessTurn" then
    let ctx ← readContext pf obj
    let (hand, remarks, s) ← player.think ctx s
    let put ← putCard pf hand
    return (remarks.map (tweet pf) ++ [put], s)
  else return ([], s)

/-- The messages of a connection, one after the other. -/
def run (pf : Platform ν) (player : IPlayer σ) : List Bytes → σ → Except Fault (List Send × σ)
  | [], s => .ok ([], s)
  | data :: rest, s => do
    let (out, s) ← onMessage pf player data s
    let (outs, s) ← run pf player rest s
    return (out ++ outs, s)

/-! ## What the server says -/

/-- A turn as the server means it. -/
structure Turn where
  deck : List Card
  teban : Int
  ba : List (List Card)
  yama : List Card
  isKakumei : Bool
  playerInfo : List PlayerInfo

/-- The context of a turn. -/
def Turn.context (turn : Turn) : DaifugoContext where
  deck := CardSet.ofVector turn.deck
  teban := turn.teban
  ba := turn.ba.map CardSet.ofVector
  yama := CardSet.ofVector turn.yama
  isKakumei := turn.isKakumei
  playerInfo := turn.playerInfo

/-- The number stands for the integer. -/
def SaysInt (pf : Platform ν) (v : Json ν) (n : Int) : Prop := ∃ x, v = .num x ∧ pf.toInt x = some n

/-- The object describes the player. -/
structure SaysPlayer (pf : Platform ν) (o : List (Bytes × Json ν)) (p : PlayerInfo) : Prop where
  name : Json.field o "Name" = .str p.name
  havingCardCount : SaysInt pf (Json.field o "HavingCardCount") p.havingCardCount
  orderOfFinish : SaysInt pf (Json.field o "OrderOfFinish") p.orderOfFinish

/-- The object describes the turn. -/
structure Says (pf : Platform ν) (o : List (Bytes × Json ν)) (turn : Turn) : Prop where
  kind : Json.field o "Kind" = .str (ascii "ProcessTurn")
  deck : ∃ t, Json.field o "Deck" = .str t ∧ Spelled t turn.deck
  teban : SaysInt pf (Json.field o "Teban") turn.teban
  ba : ∃ ts, Json.field o "Ba" = .arr (ts.map .str) ∧ List.Forall₂ Spelled ts turn.ba
  yama : ∃ t, Json.field o "Yama" = .str t ∧ Spelled t turn.yama
  isKakumei : Json.field o "IsKakumei" = .bool turn.isKakumei
  playerInfo : ∃ os, Json.field o "PlayerInfo" = .arr (os.map .obj) ∧
    List.Forall₂ (SaysPlayer pf) os turn.playerInfo

/-- The text is that of an object, with nothing but white space behind it. -/
def IsObjectText (pf : Platform ν) (data : Bytes) (o : List (Bytes × Json ν)) : Prop :=
  ∃ r, parseText pf data = some (.obj o, r) ∧ ∀ c ∈ r, isWs c = true

/-- A message that the server may send. -/
inductive Message (pf : Platform ν) (data : Bytes) : Prop
  | turn {o turn} : IsObjectText pf data o → Says pf o turn → Message pf data
  | other {o kind} : IsObjectText pf data o → Json.field o "Kind" = .str kind →
      kind ≠ ascii "ProcessTurn" → Message pf data

/-! ## Reading a turn -/

section

variable {pf : Platform ν} {player : IPlayer σ} {data : Bytes} {o : List (Bytes × Json ν)}
  {turn : Turn} {s : σ}

theorem mapM_ok {α β : Type} {f : α → Except Fault β} {l : List α} {l' : List β}
    (h : List.Forall₂ (fun a b => f a = .ok b) l l') : l.mapM f = .ok l' := by
  induction h with
  | nil => rfl
  | cons hab _ ih => rw [List.mapM_cons, hab, except_ok_bind, ih]; rfl

theorem getInt_says {v : Json ν} {n : Int} (h : SaysInt pf v n) : getInt pf v = .ok n := by
  obtain ⟨x, rfl, hx⟩ := h
  simp [getInt, Json.getNum, hx]

theorem readPlayerInfo_says {p : PlayerInfo} (h : SaysPlayer pf o p) :
    readPlayerInfo pf (.obj o) = .ok p := by
  simp [readPlayerInfo, Json.getObj, Json.getStr, h.name, getInt_says h.havingCardCount,
    getInt_says h.orderOfFinish]

/-- The context that is built is that of the turn. -/
theorem readContext_says (h : Says pf o turn) : readContext pf o = .ok turn.context := by
  obtain ⟨deck, hdeck, hdeckS⟩ := h.deck
  obtain ⟨yama, hyama, hyamaS⟩ := h.yama
  obtain ⟨ba, hba, hbaS⟩ := h.ba
  obtain ⟨os, hos, hosS⟩ := h.playerInfo
  have hstrs : (ba.map (Json.str (ν := ν))).mapM Json.getStr = .ok ba :=
    mapM_ok (List.forall₂_map_left_iff.mpr (List.forall₂_same.mpr fun _ _ => rfl))
  have hsets : ba.mapM (CardSet.ofCStr pf.charKind) = .ok (turn.ba.map CardSet.ofVector) :=
    mapM_ok (List.forall₂_map_right_iff.mpr (hbaS.imp fun _ _ => ofCStr_spelled))
  have hplayers : (os.map Json.obj).mapM (readPlayerInfo pf) = .ok turn.playerInfo :=
    mapM_ok (List.forall₂_map_left_iff.mpr (hosS.imp fun _ _ => readPlayerInfo_says))
  simp [readContext, hdeck, hyama, h.isKakumei, hba, hos, Json.getStr, Json.getBool, Json.getArr,
    hstrs, hsets, hplayers, getInt_says h.teban, ofCStr_spelled hdeckS, ofCStr_spelled hyamaS,
    Turn.context]

theorem parse_object (h : IsObjectText pf data o) : parse pf data = .obj o := by
  obtain ⟨r, hr, -⟩ := h
  rw [parse, hr]

/-- **A turn.** The remarks are sent first, then the hand. -/
theorem onMessage_turn (hobj : IsObjectText pf data o) (h : Says pf o turn) {hand : CardSet}
    {remarks : List Bytes} {s' : σ}
    (hthink : player.think turn.context s = .ok (hand, remarks, s')) :
    onMessage pf player data s =
      .ok (remarks.map (tweet pf) ++ [⟨serialize pf (putObject (joinTokens hand.cards)), true⟩],
        s') := by
  simp [onMessage, parse_object hobj, Json.getObj, h.kind, Json.getStr, readContext_says h, hthink,
    putCard, toString_eq]

theorem onMessage_other (hobj : IsObjectText pf data o) {kind : Bytes}
    (h : Json.field o "Kind" = .str kind) (hkind : kind ≠ ascii "ProcessTurn") :
    onMessage pf player data s = .ok ([], s) := by
  simp [onMessage, parse_object hobj, Json.getObj, h, Json.getStr, hkind]

/-! ## What is sent -/

/-- A remark: it does not flush, and the server reads the kind `Tweet` and the text. -/
def IsTweet (pf : Platform ν) (remark : Bytes) (m : Send) : Prop :=
  m.flush = false ∧ ∃ o, IsObjectText pf m.text o ∧ Json.field o "Kind" = .str (ascii "Tweet") ∧
    Json.field o "Message" = .str remark

/-- The answer: it flushes, and the server reads the kind `Put` and cards that stand for the
hand. -/
def IsPut (pf : Platform ν) (hand : CardSet) (m : Send) : Prop :=
  m.flush = true ∧ ∃ o cards, IsObjectText pf m.text o ∧
    Json.field o "Kind" = .str (ascii "Put") ∧ Json.field o "Cards" = .str cards ∧
    CardSet.ofCStr pf.charKind cards = .ok hand

theorem isTweet_tweet (remark : Bytes) : IsTweet pf remark (tweet pf remark) := by
  refine ⟨rfl, [(ascii "Kind", .str (ascii "Tweet")), (ascii "Message", .str remark)],
    ⟨[], ?_, by simp⟩, rfl, rfl⟩
  exact parseText_serialize_pair (by decide)

theorem isPut_put (hand : CardSet) :
    IsPut pf hand ⟨serialize pf (putObject (joinTokens hand.cards)), true⟩ := by
  refine ⟨rfl, [(ascii "Cards", .str (joinTokens hand.cards)), (ascii "Kind", .str (ascii "Put"))],
    _, ⟨[], ?_, by simp⟩, rfl, rfl, ?_⟩
  · exact parseText_serialize_pair (by decide)
  · rw [ofCStr_spelled (spelled_joinTokens hand.cards), CardSet.ofVector_cards]

/-! ## Sequences of messages -/

theorem run_append {before : List Bytes} {out sends : List Send} {s₁ s₂ : σ}
    (h : run pf player before s = .ok (out, s₁))
    (hdata : onMessage pf player data s₁ = .ok (sends, s₂)) :
    run pf player (before ++ [data]) s = .ok (out ++ sends, s₂) := by
  induction before generalizing s out with
  | nil =>
    cases h
    simp [run, hdata]
  | cons d before ih =>
    obtain ⟨⟨out₁, t⟩, hd, h⟩ := bind_ok h
    obtain ⟨⟨out₂, t'⟩, hrest, h⟩ := bind_ok h
    cases h
    simp [run, hd, ih hrest]

/-- A message of the server is handled if the player returns. -/
theorem onMessage_total
    (hthink : ∀ ctx s, ∃ hand remarks s', player.think ctx s = .ok (hand, remarks, s'))
    (h : Message pf data) (s : σ) : ∃ sends s', onMessage pf player data s = .ok (sends, s') := by
  rcases h with ⟨hobj, hsaid⟩ | ⟨hobj, hk, hkind⟩
  · obtain ⟨hand, remarks, s', ht⟩ := hthink _ s
    exact ⟨_, _, onMessage_turn hobj hsaid ht⟩
  · exact ⟨_, _, onMessage_other hobj hk hkind⟩

theorem run_total
    (hthink : ∀ ctx s, ∃ hand remarks s', player.think ctx s = .ok (hand, remarks, s'))
    {datas : List Bytes} (h : ∀ data ∈ datas, Message pf data) (s : σ) :
    ∃ out s', run pf player datas s = .ok (out, s') := by
  induction datas generalizing s with
  | nil => exact ⟨_, _, rfl⟩
  | cons data datas ih =>
    obtain ⟨out, s₁, hout⟩ := onMessage_total hthink (h data (by simp)) s
    obtain ⟨outs, s₂, houts⟩ := ih (fun d hd => h d (by simp [hd])) s₁
    exact ⟨out ++ outs, s₂, by simp [run, hout, houts]⟩

end

/-- **One answer per turn.** For every sequence of messages, and every message after it: a turn is
answered with the remarks that the player makes for the context of that turn, none of which
flushes, and then one `Put` that flushes and stands for the hand that the player returned; a
message of another kind is not answered and leaves the player as it was. -/
theorem one_answer_per_turn (pf : Platform ν) (player : IPlayer σ)
    (hthink : ∀ ctx s, ∃ hand remarks s', player.think ctx s = .ok (hand, remarks, s'))
    (before : List Bytes) (data : Bytes) (hmsg : ∀ m ∈ before ++ [data], Message pf m) (s₀ : σ) :
    ∃ out s sends s', run pf player before s₀ = .ok (out, s) ∧
      run pf player (before ++ [data]) s₀ = .ok (out ++ sends, s') ∧
      (∀ o turn, IsObjectText pf data o → Says pf o turn →
        ∃ hand remarks tweets put, player.think turn.context s = .ok (hand, remarks, s') ∧
          sends = tweets ++ [put] ∧ List.Forall₂ (IsTweet pf) remarks tweets ∧
          IsPut pf hand put) ∧
      (∀ o kind, IsObjectText pf data o → Json.field o "Kind" = .str kind →
        kind ≠ ascii "ProcessTurn" → sends = [] ∧ s' = s) := by
  have hbefore : ∀ d ∈ before, Message pf d := fun d hd => hmsg d (by simp [hd])
  obtain ⟨out, s, hout⟩ := run_total hthink hbefore s₀
  obtain ⟨sends, s', hsends⟩ := onMessage_total hthink (hmsg data (by simp)) s
  refine ⟨out, s, sends, s', hout, run_append hout hsends, ?_, ?_⟩
  · intro o turn hobj hsaid
    obtain ⟨hand, remarks, s₁, ht⟩ := hthink turn.context s
    rw [onMessage_turn hobj hsaid ht] at hsends
    cases hsends
    refine ⟨hand, remarks, _, _, ht, rfl, ?_, isPut_put hand⟩
    exact List.forall₂_map_right_iff.mpr (List.forall₂_same.mpr fun m _ => isTweet_tweet m)
  · intro o kind hobj hk hkind
    rw [onMessage_other hobj hk hkind] at hsends
    cases hsends
    exact ⟨rfl, rfl⟩

/-! ## An example -/

/-- A machine on which the numbers are integers, read from texts of one digit. -/
def digitPlatform : Platform Int where
  charKind := .signed
  strtod
    | [c] => if '0'.toUInt8 ≤ c ∧ c ≤ '9'.toUInt8 then some (c.toNat - '0'.toNat) else none
    | _ => none
  toInt := some
  format x := ascii (toString x)
  remains _ := .null

/-- A player that says a word and plays all its cards. -/
def deckPlayer : IPlayer Unit where
  think ctx _ := .ok (ctx.deck, [ascii "hm"], ())

/-- The joker is left, and the table is empty. -/
def sampleTurn : Turn where
  deck := [Card.joker]
  teban := 0
  ba := []
  yama := []
  isKakumei := false
  playerInfo := [⟨ascii "a", 1, 0⟩]

/-- The message of the turn. -/
def sampleText : Bytes := ascii ("\x7b\"Kind\":\"ProcessTurn\",\"Deck\":\"JK\",\"Yama\":\"\"," ++
  "\"IsKakumei\":false,\"Ba\":[],\"Teban\":0,\"PlayerInfo\":[\x7b\"Name\":\"a\"," ++
  "\"HavingCardCount\":1,\"OrderOfFinish\":0\x7d]\x7d")

/-- The object of the message. -/
def sampleObject : List (Bytes × Json Int) :=
  [(ascii "Ba", .arr []), (ascii "Deck", .str (ascii "JK")),
    (ascii "IsKakumei", .bool false), (ascii "Kind", .str (ascii "ProcessTurn")),
    (ascii "PlayerInfo", .arr [.obj [(ascii "HavingCardCount", .num 1),
      (ascii "Name", .str (ascii "a")), (ascii "OrderOfFinish", .num 0)]]),
    (ascii "Teban", .num 0), (ascii "Yama", .str [])]

set_option maxRecDepth 20000 in
theorem sampleText_object : IsObjectText digitPlatform sampleText sampleObject :=
  ⟨[], by rfl, by simp⟩

theorem sampleObject_says : Says digitPlatform sampleObject sampleTurn where
  kind := rfl
  deck := ⟨ascii "JK", rfl, .tok Card.joker .nil⟩
  teban := ⟨0, rfl, rfl⟩
  ba := ⟨[], rfl, .nil⟩
  yama := ⟨[], rfl, .nil⟩
  isKakumei := rfl
  playerInfo := ⟨[[(ascii "HavingCardCount", .num 1), (ascii "Name", .str (ascii "a")),
    (ascii "OrderOfFinish", .num 0)]], rfl, .cons ⟨rfl, ⟨1, rfl, rfl⟩, ⟨0, rfl, rfl⟩⟩ .nil⟩

/-- The message, twice. -/
theorem one_answer_per_turn_sample :
    (∀ ctx s, ∃ hand remarks s', deckPlayer.think ctx s = .ok (hand, remarks, s')) ∧
    (∀ m ∈ [sampleText] ++ [sampleText], Message digitPlatform m) ∧
    ∃ out s sends s', run digitPlatform deckPlayer [sampleText] () = .ok (out, s) ∧
      run digitPlatform deckPlayer ([sampleText] ++ [sampleText]) () = .ok (out ++ sends, s') ∧
      (∀ o turn, IsObjectText digitPlatform sampleText o → Says digitPlatform o turn →
        ∃ hand remarks tweets put, deckPlayer.think turn.context s = .ok (hand, remarks, s') ∧
          sends = tweets ++ [put] ∧ List.Forall₂ (IsTweet digitPlatform) remarks tweets ∧
          IsPut digitPlatform hand put) ∧
      (∀ o kind, IsObjectText digitPlatform sampleText o → Json.field o "Kind" = .str kind →
        kind ≠ ascii "ProcessTurn" → sends = [] ∧ s' = s) := by
  have hthink : ∀ ctx s, ∃ hand remarks s', deckPlayer.think ctx s = .ok (hand, remarks, s') :=
    fun _ _ => ⟨_, _, _, rfl⟩
  have hsample : Message digitPlatform sampleText := .turn sampleText_object sampleObject_says
  have hmsg : ∀ m ∈ [sampleText] ++ [sampleText], Message digitPlatform m :=
    List.forall_mem_cons.mpr ⟨hsample, List.forall_mem_cons.mpr ⟨hsample, List.forall_mem_nil _⟩⟩
  exact ⟨hthink, hmsg, one_answer_per_turn digitPlatform deckPlayer hthink _ _ hmsg ()⟩

end Neof5Protocol

end Neof5
