import Neof5.WsThread
import Neof5.Lws.Safe
import Neof5.Lws.Serve

/-!
# The client on the wire

The connection, the queue of `WsThread` and the player in one system: a byte arrives, or the socket
is writeable. `callback_func` is called from inside the parser of libwebsockets, and what it sends
goes through the queue, the static buffer and `libwebsocket_write`.

* Whatever bytes arrive, and whatever the socket takes of the writes, the only fault is that of a
  message that is not what the protocol expects (`client_safe`).
* If the socket works, then the bytes on the wire are those of `Neof5Protocol.run`: in every order
  of bytes and callbacks, a server reads the texts of the messages' answers in their order
  (`conversation`).
-/

namespace Neof5

open Neof5Protocol Picojson
open PoorPlayer (SizeT)
open WsThread (wsMessageSizeMax strncpy Fits)
open Lws (Action Frame Net Rx Spill Wsi WriteProtocol readByte libwebsocketWrite)

namespace WsClient

variable {ν σ : Type}

/-- The connection, the queue with the static buffer, and the player. -/
structure Client (σ : Type) where
  wsi : Wsi
  thread : WsThread.State
  player : σ

/-- After the handshake. -/
def Client.established (s : σ) : Client σ := ⟨.established .client, WsThread.init, s⟩

/-- The events of the connection. -/
inductive Event where
  | byte (c : UInt8)
  | writeable
  deriving DecidableEq, Repr

/-- The bytes that arrive. -/
def Event.byte? : Event → Option UInt8
  | byte c => some c
  | writeable => none

/-- A text of the queue: the copy into the static buffer and the write, with what the socket
takes and the result. -/
def writeText (z : SizeT) (net : Nat → Net) (text : Bytes) (c : Client σ) :
    Except Fault (Client σ × Bytes × Int) :=
  let buf := strncpy c.thread.buf text wsMessageSizeMax
  if buf.length < text.length then .error .badIndex
  else do
    let payload := buf.take text.length
    let w ← libwebsocketWrite z net c.wsi payload .text
    let thread := { c.thread with
      buf := w.buf ++ buf.drop text.length
      written := c.thread.written ++ [payload] }
    return ({ c with wsi := w.wsi, thread }, w.bytes, w.result)

/-- The loop of `LWS_CALLBACK_CLIENT_WRITEABLE` over the queue, with the result of the callback. -/
def writeLoop (z : SizeT) (net : Nat → Net) :
    List Bytes → Client σ → Except Fault (Client σ × Bytes × Int)
  | [], c => .ok (c, [], 0)
  | text :: rest, c => do
    let (c, out, n) ← writeText z net text
      { c with thread := { c.thread with sendQueue := rest } }
    if n < 0 then return (c, out, -1)
    if n.toNat < text.length then return (c, out, -1)
    let (c, outs, r) ← writeLoop z net rest c
    return (c, out ++ outs, r)

/-- The calls of `_sendFunc` in a message. -/
def sendAll : List Send → WsThread.State → WsThread.State
  | [], st => st
  | m :: sends, st => sendAll sends (WsThread.sendText m st)

/-- A callback of the parser, and what it puts on the wire at once. -/
def deliver (pf : Platform ν) (player : IPlayer σ) (c : Client σ) :
    Action → Except Fault (Client σ × Bytes)
  | .receive data => do
    let (sends, s) ← onMessage pf player data c.player
    return ({ c with thread := sendAll sends c.thread, player := s }, [])
  | .receivePong _ => .ok (c, [])
  | .sent bytes => .ok (c, bytes)

/-- The callbacks in their order. -/
def deliverAll (pf : Platform ν) (player : IPlayer σ) :
    List Action → Client σ → Except Fault (Client σ × Bytes)
  | [], c => .ok (c, [])
  | a :: as, c => do
    let (c, out) ← deliver pf player c a
    let (c, outs) ← deliverAll pf player as c
    return (c, out ++ outs)

/-- One event: what goes onto the wire, and the client unless the connection is closed. -/
def step (z : SizeT) (net : Nat → Net) (pf : Platform ν) (player : IPlayer σ) (c : Client σ) :
    Event → Except Fault (Bytes × Option (Client σ))
  | .byte b => do
    let (actions, wsi) ← readByte z net wsMessageSizeMax c.wsi b
    let (c, out) ← deliverAll pf player actions c
    return (out, wsi.map fun wsi => { c with wsi })
  | .writeable => do
    let (c, out, n) ← writeLoop z net c.thread.sendQueue c
    return (out, if n < 0 then none else some c)

/-! ## The texts -/

/-- A text that the copy keeps as it is, and that is written. -/
def Sendable (text : Bytes) : Prop := Fits text ∧ text ≠ []

/-- The player says nothing but what the players of the program say. -/
def Speaks (player : IPlayer σ) : Prop :=
  ∀ ctx s hand remarks s', player.think ctx s = .ok (hand, remarks, s') →
    ∀ t ∈ remarks, PlayerSays t

/-- The queue and the buffer are as the copy needs them. -/
structure Queued (st : WsThread.State) : Prop where
  sendable : ∀ t ∈ st.sendQueue, Sendable t
  buf_length : st.buf.length = wsMessageSizeMax + WsThread.postPadding

section

variable {pf : Platform ν} {player : IPlayer σ} {z : SizeT} {net : Nat → Net} {c : Client σ}
  {data text : Bytes} {s s' : σ} {sends : List Send}

theorem queued_init : Queued WsThread.init := ⟨by simp [WsThread.init], List.length_replicate ..⟩

theorem serialize_pair_ne_nil (k₁ a k₂ b : Bytes) :
    serialize pf (.obj [(k₁, .str a), (k₂, .str b)]) ≠ [] := by
  rw [serialize_pair]
  exact List.cons_ne_nil _ _

/-- All texts of an answer are as the copy needs them. -/
theorem onMessage_sendable (hspeaks : Speaks player)
    (h : onMessage pf player data s = .ok (sends, s')) : ∀ m ∈ sends, Sendable m.text := by
  obtain ⟨obj, -, h⟩ := bind_ok h
  obtain ⟨kind, -, h⟩ := bind_ok h
  split at h
  · obtain ⟨ctx, -, h⟩ := bind_ok h
    obtain ⟨⟨hand, remarks, s₁⟩, hthink, h⟩ := bind_ok h
    obtain ⟨put, hput, h⟩ := bind_ok h
    cases h
    simp only [putCard, toString_eq, except_ok_bind] at hput
    cases hput
    intro m hm
    rcases List.mem_append.mp hm with hm | hm
    · obtain ⟨t, ht, rfl⟩ := List.mem_map.mp hm
      exact ⟨WsThread.fits_tweet pf (hspeaks ctx s hand remarks _ hthink t ht),
        serialize_pair_ne_nil (ascii "Kind") (ascii "Tweet") (ascii "Message") t⟩
    · rw [List.mem_singleton.mp hm]
      exact ⟨WsThread.fits_put pf hand,
        serialize_pair_ne_nil (ascii "Cards") _ (ascii "Kind") (ascii "Put")⟩
  · cases h
    simp

@[simp] theorem sendAll_queue (sends : List Send) (st : WsThread.State) :
    (sendAll sends st).sendQueue = st.sendQueue ++ sends.map Send.text := by
  induction sends generalizing st with
  | nil => simp [sendAll]
  | cons m sends ih => simp [sendAll, ih, WsThread.sendText]

@[simp] theorem sendAll_buf (sends : List Send) (st : WsThread.State) :
    (sendAll sends st).buf = st.buf := by
  induction sends generalizing st with
  | nil => rfl
  | cons m sends ih => simp [sendAll, ih, WsThread.sendText]

theorem queued_sendAll {st : WsThread.State} (h : Queued st)
    (hs : ∀ m ∈ sends, Sendable m.text) : Queued (sendAll sends st) := by
  refine ⟨fun t ht => ?_, by simpa using h.buf_length⟩
  rcases List.mem_append.mp (sendAll_queue sends st ▸ ht) with ht | ht
  · exact h.sendable t ht
  · obtain ⟨m, hm, rfl⟩ := List.mem_map.mp ht
    exact hs m hm

/-! ## One text -/

/-- What the write of a text comes to. -/
theorem writeText_eq (hqueue : Queued c.thread) (htext : Sendable text) {w : Lws.Written}
    (hwrite : libwebsocketWrite z net c.wsi text .text = .ok w)
    (hlen : w.buf.length = text.length) :
    ∃ c', writeText z net text c = .ok (c', w.bytes, w.result) ∧ c'.wsi = w.wsi ∧
      c'.player = c.player ∧ c'.thread.sendQueue = c.thread.sendQueue ∧
      c'.thread.written = c.thread.written ++ [text] ∧ Queued c'.thread := by
  have hbuf : (strncpy c.thread.buf text wsMessageSizeMax).length =
      wsMessageSizeMax + WsThread.postPadding := by
    rw [WsThread.strncpy_length (by rw [hqueue.buf_length]; omega), hqueue.buf_length]
  have hroom : ¬ (strncpy c.thread.buf text wsMessageSizeMax).length < text.length := by
    have := htext.1.2
    omega
  simp only [writeText, if_neg hroom, WsThread.take_strncpy htext.1, hwrite, except_ok_bind]
  refine ⟨_, rfl, rfl, rfl, rfl, rfl, hqueue.sendable, ?_⟩
  simp only [List.length_append, List.length_drop, hlen, hbuf]
  omega

/-- The loop over the queue, for any socket and random device: it does not fail, and after it the
connection may go on only with an empty queue. -/
theorem writeLoop_safe (z : SizeT) (net : Nat → Net) (queue : List Bytes) (hopen : c.wsi.Open)
    (hqueue : Queued c.thread) (htexts : ∀ t ∈ queue, Sendable t) :
    ∃ c' out n, writeLoop z net queue c = .ok (c', out, n) ∧
      (0 ≤ n → c'.wsi.Open ∧ c'.wsi.rx = c.wsi.rx ∧ Queued c'.thread) := by
  induction queue generalizing c with
  | nil => exact ⟨c, [], 0, rfl, fun _ => ⟨hopen, rfl, hqueue⟩⟩
  | cons text rest ih =>
    have htext : Sendable text := htexts text (by simp)
    have hqueue' : Queued { c.thread with sendQueue := rest } :=
      ⟨fun t ht => htexts t (by simp [ht]), hqueue.buf_length⟩
    obtain ⟨w, hwrite, hrx, hlen, hresult⟩ :=
      Lws.libwebsocketWrite_text z net hopen htext.2
    obtain ⟨c₁, hstep, hwsi, -, -, -, hqueue₁⟩ := writeText_eq
      (c := { c with thread := { c.thread with sendQueue := rest } }) hqueue' htext hwrite hlen
    simp only [writeLoop, hstep, except_ok_bind]
    split_ifs with hneg hpart
    · exact ⟨_, _, _, rfl, by simp⟩
    · exact ⟨_, _, _, rfl, by simp⟩
    · have hopen₁ : c₁.wsi.Open := by
        rcases hresult with h | ⟨-, h⟩
        · omega
        · rwa [hwsi]
      obtain ⟨c', out, n, hloop, hn⟩ := ih hopen₁ hqueue₁ fun t ht => htexts t (by simp [ht])
      rw [hloop]
      refine ⟨_, _, _, rfl, fun h => ?_⟩
      obtain ⟨hopen', hrx', hqueue''⟩ := hn h
      exact ⟨hopen', by rw [hrx', hwsi, hrx], hqueue''⟩

/-! ## Any bytes, and any socket -/

/-- The state between two events. -/
structure Ready (c : Client σ) : Prop where
  opened : c.wsi.Open
  room : c.wsi.rx.rxUserBuffer.length < wsMessageSizeMax
  queued : Queued c.thread

theorem ready_established (s : σ) : Ready (Client.established s) :=
  ⟨⟨rfl, rfl, rfl⟩, Nat.zero_lt_succ _, queued_init⟩

/-- The byte `b` ends a piece of a message, and the protocol fails on that piece. -/
def Offends (z : SizeT) (net : Nat → Net) (pf : Platform ν) (player : IPlayer σ) (c : Client σ)
    (b : UInt8) (e : Fault) : Prop :=
  ∃ data wsi, readByte z net wsMessageSizeMax c.wsi b = .ok ([.receive data], wsi) ∧
    0 < data.length ∧ data.length ≤ wsMessageSizeMax ∧ onMessage pf player data c.player = .error e

theorem Offends.step {b : UInt8} {e : Fault} (h : Offends z net pf player c b e) :
    step z net pf player c (.byte b) = .error e := by
  obtain ⟨data, wsi, hread, -, -, hm⟩ := h
  simp only [WsClient.step, hread, deliverAll, deliver, hm, except_ok_bind]
  rfl

/-- A callback. -/
theorem deliver_safe (pf : Platform ν) (a : Action) (hspeaks : Speaks player)
    (hqueue : Queued c.thread) :
    (∃ c' out, deliver pf player c a = .ok (c', out) ∧ c'.wsi = c.wsi ∧ Queued c'.thread) ∨
      ∃ data e, a = .receive data ∧ onMessage pf player data c.player = .error e := by
  cases a with
  | receive data =>
    cases hm : onMessage pf player data c.player with
    | error e => exact .inr ⟨data, e, rfl, hm⟩
    | ok p =>
      obtain ⟨sends, s'⟩ := p
      refine .inl ⟨{ c with thread := sendAll sends c.thread, player := s' }, [], ?_, rfl,
        queued_sendAll hqueue (onMessage_sendable hspeaks hm)⟩
      rw [deliver, hm]
      rfl
  | receivePong | sent => exact .inl ⟨_, _, rfl, rfl, hqueue⟩

theorem deliverAll_safe (pf : Platform ν) {actions : List Action} (hspeaks : Speaks player)
    (hone : actions.length ≤ 1) (hqueue : Queued c.thread) :
    (∃ c' out, deliverAll pf player actions c = .ok (c', out) ∧ c'.wsi = c.wsi ∧
        Queued c'.thread) ∨
      ∃ data e, actions = [.receive data] ∧ onMessage pf player data c.player = .error e := by
  match actions, hone with
  | [], _ => exact .inl ⟨c, [], rfl, rfl, hqueue⟩
  | [a], _ =>
    rcases deliver_safe pf a hspeaks hqueue with ⟨c', out, hdeliver, hc'⟩ | ⟨data, e, rfl, hm⟩
    · refine .inl ⟨c', out ++ [], ?_, hc'⟩
      simp only [deliverAll, hdeliver, except_ok_bind]
      rfl
    · exact .inr ⟨data, e, rfl, hm⟩

/-- One event. -/
theorem step_safe (z : SizeT) (net : Nat → Net) (pf : Platform ν) (hspeaks : Speaks player)
    (h : Ready c) (ev : Event) :
    (∃ out r, step z net pf player c ev = .ok (out, r) ∧ ∀ c' ∈ r, Ready c') ∨
      ∃ b e, ev = .byte b ∧ Offends z net pf player c b e := by
  cases ev with
  | byte b =>
    obtain ⟨actions, r, hread, hone, hfits, hr⟩ :=
      Lws.readByte_safe z net b ⟨h.room, h.opened.outside⟩
    rcases deliverAll_safe pf hspeaks hone h.queued with
      ⟨c', out, hdeliver, hwsi, hqueue'⟩ | ⟨data, e, rfl, hm⟩
    · refine .inl ⟨_, _, by simp only [step, hread, hdeliver, except_ok_bind]; rfl, ?_⟩
      intro c'' hc''
      obtain ⟨wsi', hwsi', rfl⟩ := Option.mem_map.mp hc''
      obtain ⟨⟨hroom, hout⟩, hmode, hstate⟩ := hr wsi' hwsi'
      exact ⟨⟨hmode.trans h.opened.client, hstate.trans h.opened.established, hout⟩, hroom,
        hqueue'⟩
    · obtain ⟨hpos, hle⟩ : 0 < data.length ∧ data.length ≤ wsMessageSizeMax :=
        hfits (.receive data) (by simp)
      exact .inr ⟨b, e, rfl, data, r, hread, hpos, hle, hm⟩
  | writeable =>
    obtain ⟨c', out, n, hloop, hn⟩ :=
      writeLoop_safe z net _ h.opened h.queued h.queued.sendable
    refine .inl ⟨_, _, by simp only [step, hloop, except_ok_bind]; rfl, ?_⟩
    split_ifs with hneg
    · simp
    · obtain ⟨hopen, hrx, hqueue⟩ := hn (by omega)
      simpa using ⟨hopen, by simpa [hrx] using h.room, hqueue⟩

theorem ready_step (hspeaks : Speaks player) {ev : Event} {out : Bytes} {c' : Client σ}
    (h : Ready c) (hstep : step z net pf player c ev = .ok (out, some c')) : Ready c' := by
  rcases step_safe z net pf hspeaks h ev with ⟨out, r, hok, hr⟩ | ⟨b, e, rfl, hoff⟩
  · rw [hok] at hstep
    cases hstep
    exact hr c' rfl
  · rw [hoff.step] at hstep
    cases hstep

/-- Every state that the client comes to is one between two events. -/
theorem ready_run (hspeaks : Speaks player) {events : List Event} {out : Bytes}
    (h : Machine.run (step z net pf player) (.established s) events = .ok (out, some c)) :
    Ready c :=
  Machine.run_ok_inv (fun _ _ _ _ hc hstep => ready_step hspeaks hc hstep) (ready_established s) h

/-- A player that passes without a word. -/
def quietPlayer : IPlayer Unit where
  think _ _ := .ok (∅, [], ())

theorem quietPlayer_speaks : Speaks quietPlayer := by
  intro ctx s hand remarks s' h
  cases h
  simp

/-- The loop over the queue if the socket takes some of each frame. -/
theorem writeLoop_part (hkey : ∀ k, (net k).random ≠ none) (hsend : ∀ k f, 0 ≤ (net k).send f)
    (queue : List Bytes) (hopen : c.wsi.Open) (hqueue : Queued c.thread)
    (hq : c.thread.sendQueue = queue) :
    ∃ c', writeLoop z net queue c =
        .ok (c', (queue.zipIdx c.wsi.writes).flatMap fun t => (net t.2).takes z .text t.1, 0) ∧
      c'.thread.sendQueue = [] ∧ c'.thread.written = c.thread.written ++ queue := by
  induction queue generalizing c with
  | nil => exact ⟨c, rfl, hq, by simp⟩
  | cons text rest ih =>
    have htext : Sendable text := hqueue.sendable text (by simp [hq])
    have hqueue' : Queued { c.thread with sendQueue := rest } :=
      ⟨fun t ht => hqueue.sendable t (by simp [hq, ht]), hqueue.buf_length⟩
    obtain ⟨w, hwrite, hbytes, hwrites, hresult, hlen, hopen'⟩ :=
      Lws.libwebsocketWrite_part z net hopen htext.2 (hkey _) (hsend _)
    obtain ⟨c₁, hstep, hwsi, -, hq₁, hwritten, hqueue₁⟩ := writeText_eq
      (c := { c with thread := { c.thread with sendQueue := rest } }) hqueue' htext hwrite hlen
    obtain ⟨c', hloop, hnil, hwritten'⟩ := ih (hwsi ▸ hopen') hqueue₁ hq₁
    refine ⟨c', ?_, hnil, ?_⟩
    · have hneg : ¬ ((text.length : Int) < 0) := by omega
      have hpart : ¬ ((text.length : Int).toNat < text.length) := by omega
      simp only [writeLoop, hstep, hresult, except_ok_bind, if_neg hneg, if_neg hpart, hloop]
      rw [List.zipIdx_cons, List.flatMap_cons, ← hbytes, hwsi, hwrites]
      rfl
    · rw [hwritten', hwritten, List.append_assoc]
      rfl

/-- **A partial write is not seen.** The callback checks whether less than a text was written, and
gives up the connection if so. But however little the socket takes of a frame, as long as `send`
does not fail: in every state that the client comes to, the callback puts only that much of each
text onto the wire, takes the text for written and goes on. -/
theorem partial_write_unseen (z : SizeT) (net : Nat → Net) (pf : Platform ν) (player : IPlayer σ)
    (hspeaks : Speaks player) (hkey : ∀ k, (net k).random ≠ none)
    (hsend : ∀ k f, 0 ≤ (net k).send f) (s : σ) (events : List Event) (bytes : Bytes)
    (c : Client σ)
    (h : Machine.run (step z net pf player) (.established s) events = .ok (bytes, some c)) :
    ∃ c', step z net pf player c .writeable =
        .ok ((c.thread.sendQueue.zipIdx c.wsi.writes).flatMap
          fun t => (net t.2).takes z .text t.1, some c') ∧
      c'.thread.sendQueue = [] ∧
      c'.thread.written = c.thread.written ++ c.thread.sendQueue := by
  have hc : Ready c := ready_run hspeaks h
  obtain ⟨c', hloop, hnil, hwritten⟩ :=
    writeLoop_part (z := z) hkey hsend c.thread.sendQueue hc.opened hc.queued rfl
  refine ⟨c', ?_, hnil, hwritten⟩
  simp only [step, hloop, except_ok_bind]
  rfl

/-- A socket that takes one byte at a time. -/
def slowNet (_ : Nat) : Net := ⟨some ⟨1, 2, 3, 4⟩, fun _ => 1⟩

/-- The sample message in a frame. -/
def sampleFrame : Frame := ⟨.text, sampleText, by decide, by decide⟩

def sampleEvents : List Event := (sampleFrame.bytes .bits64).map .byte

/-- The texts in the queue after a run. -/
def queueLength (r : Except Fault (Bytes × Option (Client σ))) : Option Nat :=
  match r with
  | .ok (_, some c) => some c.thread.sendQueue.length
  | _ => none

set_option maxRecDepth 100000 in
theorem sampleEvents_queue : queueLength (Machine.run
    (step .bits64 slowNet digitPlatform quietPlayer) (.established ()) sampleEvents) = some 1 := by
  decide +kernel

/-- The sample message, and a socket that takes one byte of the answer. -/
theorem partial_write_unseen_sample :
    ∃ bytes c c', Machine.run (step .bits64 slowNet digitPlatform quietPlayer) (.established ())
        sampleEvents = .ok (bytes, some c) ∧ c.thread.sendQueue.length = 1 ∧
      step .bits64 slowNet digitPlatform quietPlayer c .writeable =
        .ok ((c.thread.sendQueue.zipIdx c.wsi.writes).flatMap
          fun t => (slowNet t.2).takes .bits64 .text t.1, some c') ∧
      c'.thread.sendQueue = [] ∧
      c'.thread.written = c.thread.written ++ c.thread.sendQueue := by
  have hqueue := sampleEvents_queue
  generalize hrun : Machine.run (step .bits64 slowNet digitPlatform quietPlayer) (.established ())
    sampleEvents = r at hqueue
  unfold queueLength at hqueue
  split at hqueue
  · rename_i bytes c
    obtain ⟨c', hstep, hnil, hwritten⟩ := partial_write_unseen .bits64 slowNet digitPlatform
      quietPlayer quietPlayer_speaks (fun _ => by simp [slowNet]) (fun _ _ => by simp [slowNet]) ()
      sampleEvents bytes c hrun
    exact ⟨bytes, c, c', rfl, by simpa using hqueue, hstep, hnil, hwritten⟩
  · cases hqueue

/-! ## A socket that works -/

/-- A server between two frames. -/
structure Listening (server : Wsi) : Prop where
  serving : server.mode = .serving
  rest : server.rx.AtRest

variable {net' : Nat → Net} {z' : SizeT} {limit : Nat} {server : Wsi}

/-- A text on the wire is read by the server as a whole. -/
theorem server_reads_text (z z' : SizeT) (net' : Nat → Net) (key : Lws.Key)
    (hlimit : wsMessageSizeMax ≤ limit)
    (h : Listening server) (htext : Sendable text) :
    ∃ server', Machine.run (readByte z' net' limit) server (Lws.maskedFrame z .text key text) =
        .ok ([.receive text], some server') ∧ Listening server' := by
  have hlt : text.length < 2 ^ 31 := htext.1.2.trans (by norm_num [wsMessageSizeMax])
  have hle : ([] : Bytes).length + text.length ≤ limit := by
    have := htext.1.2
    rw [List.length_nil]
    omega
  have hzero : 0 < limit := by
    have : 0 < wsMessageSizeMax := Nat.zero_lt_succ _
    omega
  obtain ⟨server', hrun, hmode, hrest⟩ := Lws.server_reads_frame net' key z
    (p := .text) hzero h.serving h.rest rfl (fun _ => rfl) htext.2
    (Lws.lt_modulus z' hlt) (Lws.lt_modulus z hlt) (hlt.trans (by norm_num))
  refine ⟨server', ?_, hmode, hrest⟩
  rw [hrun, Machine.pieces_of_le hle]
  simp [Lws.serverAnswer, htext.2]

/-- The answer to a ping is read by the server, and nothing is handed over. -/
theorem server_reads_pong (z z' : SizeT) (net' : Nat → Net) (key : Lws.Key) {data : Bytes}
    (hlimit : 0 < limit)
    (h : Listening server) (hne : data ≠ []) (hlen : data.length ≤ 125) :
    ∃ server', Machine.run (readByte z' net' limit) server (Lws.maskedFrame z .pong key data) =
        .ok ([], some server') ∧ Listening server' := by
  have hlt : data.length < 2 ^ 31 := hlen.trans_lt (by norm_num)
  obtain ⟨server', hrun, hmode, hrest⟩ := Lws.server_reads_frame net' key z
    (p := .pong) hlimit h.serving h.rest rfl (by omega) hne
    (Lws.lt_modulus z' hlt) (Lws.lt_modulus z hlt) (hlt.trans (by norm_num))
  refine ⟨server', ?_, hmode, hrest⟩
  rw [hrun]
  simp [Lws.serverAnswer]

/-- The callback writes the whole queue out, and the server reads it. -/
theorem writeLoop_read (z z' : SizeT) (net' : Nat → Net)
    (hnet : ∀ k, (net k).Works) (hlimit : wsMessageSizeMax ≤ limit)
    (queue : List Bytes) (hopen : c.wsi.Open) (hqueue : Queued c.thread)
    (hq : c.thread.sendQueue = queue) (h : Listening server) :
    ∃ c' out server', writeLoop z net queue c = .ok (c', out, 0) ∧ c'.wsi.Open ∧
      c'.wsi.rx = c.wsi.rx ∧ Queued c'.thread ∧ c'.thread.sendQueue = [] ∧ c'.player = c.player ∧
      Machine.run (readByte z' net' limit) server out =
        .ok (queue.map .receive, some server') ∧ Listening server' := by
  induction queue generalizing c server with
  | nil => exact ⟨c, [], server, rfl, hopen, rfl, hqueue, hq, rfl, rfl, h⟩
  | cons text rest ih =>
    have htext : Sendable text := hqueue.sendable text (by simp [hq])
    have hqueue' : Queued { c.thread with sendQueue := rest } :=
      ⟨fun t ht => hqueue.sendable t (by simp [hq, ht]), hqueue.buf_length⟩
    obtain ⟨key, w, hwrite, hbytes, hopen', hrx, hbuf, hresult⟩ :=
      Lws.libwebsocketWrite_full (z := z) (p := .text) hopen htext.2 (hnet _)
    obtain ⟨c₁, hstep, hwsi, hplayer, hq₁, -, hqueue₁⟩ := writeText_eq
      (c := { c with thread := { c.thread with sendQueue := rest } }) hqueue' htext hwrite
      (by rw [hbuf, Lws.length_maskBytes])
    obtain ⟨server₁, hread, h₁⟩ := server_reads_text z z' net' key hlimit h htext
    obtain ⟨c', out, server', hloop, hopen'', hrx', hqueue'', hnil, hplayer', hrun, h'⟩ :=
      ih (hwsi ▸ hopen') hqueue₁ hq₁ h₁
    have hres : w.result = text.length := hresult rfl
    refine ⟨c', w.bytes ++ out, server', ?_, hopen'', ?_, hqueue'', hnil, ?_, ?_, h'⟩
    · have hneg : ¬ ((text.length : Int) < 0) := by omega
      have hpart : ¬ ((text.length : Int).toNat < text.length) := by omega
      simp only [writeLoop, hstep, hres, except_ok_bind, if_neg hneg, if_neg hpart, hloop]
      rfl
    · rw [hrx', hwsi, hrx]
    · rw [hplayer', hplayer]
    · rw [hbytes, Machine.run_append hread hrun]
      rfl

/-- A piece that the client collects from a frame: a ping is one as a whole. -/
def Heard (sp : Spill) : Prop :=
  ∃ p : WriteProtocol, p ≠ .close ∧ sp.opcode = p.opcode ∧ sp.data.length ≤ wsMessageSizeMax ∧
    (p = .ping → sp.data ≠ [] ∧ sp.data.length ≤ 125)

/-- The message that is handed over. -/
def message? (sp : Spill) : Option Bytes :=
  if sp.opcode ≤ WriteProtocol.binary.opcode ∧ sp.data ≠ [] then some sp.data else none

/-- One event, with the part of the sends that it puts into the queue and what the server hears of
it: `rx` is the parser after it, and the protocol makes of the messages `rest` what is still to be
sent. -/
def Advances (z z' : SizeT) (net net' : Nat → Net) (limit : Nat) (pf : Platform ν)
    (player : IPlayer σ) (c : Client σ) (server : Wsi) (ev : Event) (rx : Rx) (rest : List Bytes)
    (sends : List Send) (s' : σ) : Prop :=
  ∃ out c' server' sends₁ sends₂ received, step z net pf player c ev = .ok (out, some c') ∧
    Ready c' ∧ c'.wsi.rx = rx ∧ sends = sends₁ ++ sends₂ ∧
    Neof5Protocol.run pf player rest c'.player = .ok (sends₂, s') ∧
    received ++ c'.thread.sendQueue = c.thread.sendQueue ++ sends₁.map Send.text ∧
    Machine.run (readByte z' net' limit) server out =
      .ok (received.map Action.receive, some server') ∧
    Listening server' ∧ (ev = .writeable → c'.thread.sendQueue = [])

/-- A piece is handled: what is sent for it is queued, and a server hears nothing of it yet. -/
theorem spill_advances {b : UInt8} {rx : Rx} {rest : List Bytes} (hspeaks : Speaks player)
    (hnet : ∀ k, (net k).Works) (hlimit : wsMessageSizeMax ≤ limit) (hc : Ready c)
    (h : Listening server)
    (hcollect : ∀ m, Lws.clientCollect z wsMessageSizeMax c.wsi.rx m b = .ok (rx, m, .spill))
    (hsp : Heard ⟨rx.opcode, rx.rxUserBuffer⟩)
    (hrun : Neof5Protocol.run pf player
      ((message? ⟨rx.opcode, rx.rxUserBuffer⟩).toList ++ rest) c.player = .ok (sends, s')) :
    Advances z z' net net' limit pf player c server (.byte b) rx.clear rest sends s' := by
  obtain ⟨p, hclose, hop, hfit, hping⟩ := hsp
  have hzero : 0 < wsMessageSizeMax := Nat.zero_lt_succ _
  obtain ⟨wsi', k, hread, hopen, hrx⟩ :=
    Lws.readByte_spill net hc.opened hcollect hop hclose hfit
  have hready : ∀ st, Queued st → ∀ s, Ready (⟨wsi', st, s⟩ : Client σ) := fun st hst s =>
    ⟨hopen, by rw [hrx]; exact hzero, hst⟩
  -- Whatever is not a message leaves the queue and the player as they are.
  have hquiet : ∀ out server', deliverAll pf player
        (Lws.answer z (net k) p rx.rxUserBuffer) c = .ok (c, out) →
      message? ⟨rx.opcode, rx.rxUserBuffer⟩ = none →
      Machine.run (readByte z' net' limit) server out = .ok ([], some server') →
      Listening server' →
      Advances z z' net net' limit pf player c server (.byte b) rx.clear rest sends s' := by
    intro out server' hdeliver hnone hserver h'
    rw [hnone] at hrun
    refine ⟨out, { c with wsi := wsi' }, server', [], sends, [], ?_, hready _ hc.queued _, hrx, rfl,
      hrun, (List.append_nil _).symm, hserver, h', by simp⟩
    simp only [step, hread, hdeliver, except_ok_bind]
    rfl
  have hdata : p.opcode ≤ WriteProtocol.binary.opcode →
      (∀ d, Lws.answer z (net k) p d = if d.isEmpty then [] else [.receive d]) →
      Advances z z' net net' limit pf player c server (.byte b) rx.clear rest sends s' := by
    intro hle hanswer
    by_cases hempty : rx.rxUserBuffer = []
    · refine hquiet [] server ?_ (by simp [message?, hempty]) rfl h
      rw [hanswer, hempty]
      rfl
    · have hsome : message? ⟨rx.opcode, rx.rxUserBuffer⟩ = some rx.rxUserBuffer := by
        rw [message?, if_pos ⟨hop ▸ hle, hempty⟩]
      rw [hsome] at hrun
      obtain ⟨⟨sends₁, s₁⟩, hm, hrun⟩ := bind_ok hrun
      obtain ⟨⟨sends₂, s₂⟩, hrest, hrun⟩ := bind_ok hrun
      cases hrun
      refine ⟨[], ⟨wsi', sendAll sends₁ c.thread, s₁⟩, server, sends₁, sends₂, [], ?_,
        hready _ (queued_sendAll hc.queued (onMessage_sendable hspeaks hm)) _, hrx, rfl, hrest,
        sendAll_queue .., rfl, h, by simp⟩
      simp only [step, hread, hanswer, List.isEmpty_iff, hempty, if_false, deliverAll, deliver, hm,
        except_ok_bind]
      rfl
  cases p with
  | close => exact absurd rfl hclose
  | text | binary | continuation => exact hdata (by decide) fun d => rfl
  | pong =>
    refine hquiet [] server ?_ ?_ rfl h
    · simp only [Lws.answer]
      split <;> rfl
    · rw [message?, if_neg (by rw [hop]; exact fun h => absurd h.1 (by decide))]
  | ping =>
    obtain ⟨key, hkey⟩ := (hnet k).random
    obtain ⟨hne, hlen⟩ := hping rfl
    have htakes : (net k).takes z .pong rx.rxUserBuffer =
        Lws.maskedFrame z .pong key rx.rxUserBuffer := by
      simp [Net.takes, hkey, (hnet k).full]
    obtain ⟨server', hserver, h'⟩ := server_reads_pong z z' net' key
      (hzero.trans_le hlimit) h hne hlen
    refine hquiet _ server' ?_ ?_ hserver h'
    · simp only [Lws.answer, deliverAll, deliver, htakes, except_ok_bind]
      rw [List.append_nil]
      rfl
    · rw [message?, if_neg (by rw [hop]; exact fun h => absurd h.1 (by decide))]

/-- A byte that ends nothing. -/
theorem more_advances {b : UInt8} {rx : Rx} {msgs : List Bytes} (hc : Ready c)
    (h : Listening server) (hroom : rx.rxUserBuffer.length < wsMessageSizeMax)
    (hcollect : ∀ m, Lws.clientCollect z wsMessageSizeMax c.wsi.rx m b = .ok (rx, m, .more))
    (hrun : Neof5Protocol.run pf player msgs c.player = .ok (sends, s')) :
    Advances z z' net net' limit pf player c server (.byte b) rx msgs sends s' := by
  have hread := Lws.readByte_more net hc.opened hcollect
  have hopen : Wsi.Open { c.wsi with rx } := ⟨hc.opened.1, hc.opened.2, hc.opened.3⟩
  refine ⟨[], { c with wsi := { c.wsi with rx } }, server, [], sends, [], ?_,
    ⟨hopen, hroom, hc.queued⟩, rfl, rfl, hrun, (List.append_nil _).symm, rfl, h, by simp⟩
  simp only [step, hread, except_ok_bind]
  rfl

/-- The queue goes onto the wire. -/
theorem writeable_advances {msgs : List Bytes} (hnet : ∀ k, (net k).Works)
    (hlimit : wsMessageSizeMax ≤ limit) (hc : Ready c) (h : Listening server)
    (hrun : Neof5Protocol.run pf player msgs c.player = .ok (sends, s')) :
    Advances z z' net net' limit pf player c server .writeable c.wsi.rx msgs sends s' := by
  obtain ⟨c', out, server', hloop, hopen, hrx, hqueue, hnil, hplayer, hread, h'⟩ :=
    writeLoop_read z z' net' hnet hlimit c.thread.sendQueue hc.opened
      hc.queued rfl h
  refine ⟨out, c', server', [], sends, c.thread.sendQueue, ?_,
    ⟨hopen, by rw [hrx]; exact hc.room, hqueue⟩, hrx, rfl, by rwa [hplayer], by simp [hnil], hread,
    h', fun _ => hnil⟩
  simp only [step, hloop, except_ok_bind]
  rfl

/-- A run, from any state between two events. -/
theorem conversation_from (z' : SizeT) (net' : Nat → Net) (hspeaks : Speaks player)
    (hnet : ∀ k, (net k).Works)
    (hlimit : wsMessageSizeMax ≤ limit) (events : List Event) {spills : List Spill} {rx' : Rx}
    (hc : Ready c) (h : Listening server)
    (hreads : Lws.Reads (Lws.clientCollect z wsMessageSizeMax) c.wsi.rx
      (events.filterMap Event.byte?) spills rx')
    (hsp : ∀ sp ∈ spills, Heard sp)
    (hrun : Neof5Protocol.run pf player (spills.filterMap message?) c.player = .ok (sends, s')) :
    ∃ bytes c' server' received,
      Machine.run (step z net pf player) c events = .ok (bytes, some c') ∧ c'.player = s' ∧
      received ++ c'.thread.sendQueue = c.thread.sendQueue ++ sends.map Send.text ∧
      Machine.run (readByte z' net' limit) server bytes =
        .ok (received.map Action.receive, some server') ∧
      (events.getLast? = some .writeable → c'.thread.sendQueue = []) := by
  induction events generalizing c server spills sends with
  | nil =>
    cases hreads
    cases hrun
    exact ⟨[], c, server, [], rfl, rfl, by simp, rfl, by simp⟩
  | cons ev events ih =>
    obtain ⟨rx, rest, hadv, hreads', hsp'⟩ : ∃ rx spills', Advances z z' net net' limit pf player c
        server ev rx (spills'.filterMap message?) sends s' ∧
        Lws.Reads (Lws.clientCollect z wsMessageSizeMax) rx (events.filterMap Event.byte?) spills'
          rx' ∧ ∀ sp ∈ spills', Heard sp := by
      cases ev with
      | writeable => exact ⟨_, spills, writeable_advances hnet hlimit hc h hrun, hreads, hsp⟩
      | byte b =>
        cases hreads with
        | more hcollect hrest =>
          obtain ⟨rx₁, m, next, hcol, -, hroom⟩ := Lws.clientCollect_collects (z := z)
            (m := c.wsi.mask) (c := b) hc.room
          rw [hcollect] at hcol
          cases hcol
          exact ⟨_, spills, more_advances hc h (hroom rfl) hcollect hrun, hrest, hsp⟩
        | @spill _ rx₁ _ _ _ rest hcollect hrest =>
          refine ⟨_, rest, spill_advances hspeaks hnet hlimit hc h hcollect (hsp _ (by simp)) ?_,
            hrest, fun sp hsp' => hsp sp (by simp [hsp'])⟩
          rw [← hrun, List.filterMap_cons]
          cases message? ⟨rx₁.opcode, rx₁.rxUserBuffer⟩ <;> rfl
    obtain ⟨out, c₁, server₁, sends₁, sends₂, received₁, hstep, hc₁, hrx₁, rfl, hrun₁, hqueue₁,
      hread₁, h₁, hlast₁⟩ := hadv
    obtain ⟨bytes, c', server', received, hrunc, hplayer, hqueue, hread, hlast⟩ :=
      ih hc₁ h₁ (hrx₁ ▸ hreads') hsp' hrun₁
    refine ⟨out ++ bytes, c', server', received₁ ++ received, Machine.run_cons hstep hrunc, hplayer,
      ?_, ?_, fun hl => ?_⟩
    · rw [List.append_assoc, hqueue, ← List.append_assoc, hqueue₁, List.append_assoc,
        List.map_append]
    · rw [Machine.run_append hread₁ hread, List.map_append]
    · cases events with
      | nil =>
        cases hrunc
        exact hlast₁ (by simpa using hl)
      | cons ev' events => exact hlast (by simpa using hl)

/-- The messages that a frame brings: what is not empty comes in pieces of the size of the
buffer. -/
def messages (f : Frame) : List Bytes :=
  if f.protocol.isControl ∨ f.payload = [] then []
  else Machine.pieces wsMessageSizeMax [] f.payload

theorem filterMap_spills (f : Frame) :
    (f.spills wsMessageSizeMax).filterMap message? = messages f := by
  rw [Frame.spills, List.filterMap_map, messages]
  split_ifs with h
  · rw [List.filterMap_eq_nil_iff]
    intro d hd
    rcases h with hcontrol | hempty
    · have hop : ¬ f.protocol.opcode ≤ WriteProtocol.binary.opcode := by
        cases hp : f.protocol <;> rw [hp] at hcontrol <;> first | decide | cases hcontrol
      simp [message?, hop]
    · rw [hempty, Machine.pieces, List.mem_singleton] at hd
      simp [message?, hd]
  · obtain ⟨hdata, hne⟩ := not_or.mp h
    have hop : f.protocol.opcode ≤ WriteProtocol.binary.opcode := by
      cases hp : f.protocol <;> rw [hp] at hdata <;> first | decide | exact absurd rfl hdata
    have hall : ∀ d ∈ Machine.pieces wsMessageSizeMax [] f.payload,
        (message? ∘ fun d => (⟨f.protocol.opcode, d⟩ : Spill)) d = some d := by
      intro d hd
      simp [message?, hop, Machine.ne_nil_of_mem_pieces hne d hd]
    rw [List.filterMap_congr hall, List.filterMap_some]

/-- What a frame brings is heard, if a ping has a payload. -/
theorem heard_of_mem_spills {f : Frame} (hping : f.protocol = .ping → f.payload ≠ []) {sp : Spill}
    (h : sp ∈ f.spills wsMessageSizeMax) : Heard sp := by
  obtain ⟨d, hd, rfl⟩ := List.mem_map.mp h
  have hzero : 0 < wsMessageSizeMax := Nat.zero_lt_succ _
  refine ⟨f.protocol, f.ne_close, rfl, Machine.length_pieces_le hzero d hd, fun hp => ?_⟩
  have hlen := f.control (by rw [hp]; rfl)
  have hsize : 125 ≤ wsMessageSizeMax := by norm_num [wsMessageSizeMax]
  rw [Machine.pieces_of_le (by simpa using hlen.trans hsize), List.mem_singleton] at hd
  rw [hd]
  exact ⟨hping hp, hlen⟩

theorem heard_of_frames {frames : List Frame}
    (hping : ∀ f ∈ frames, f.protocol = .ping → f.payload ≠ []) :
    ∀ sp ∈ frames.flatMap (Frame.spills wsMessageSizeMax), Heard sp := by
  intro sp hsp
  obtain ⟨f, hf, hsp⟩ := List.mem_flatMap.mp hsp
  exact heard_of_mem_spills (hping f hf) hsp

theorem messages_of_frames (frames : List Frame) :
    (frames.flatMap (Frame.spills wsMessageSizeMax)).filterMap message? =
      frames.flatMap messages := by
  rw [List.filterMap_flatMap]
  exact congrArg (frames.flatMap ·) (funext filterMap_spills)

/-- **The conversation.** The server sends any frames without a key, of which the pings have a
payload, and the protocol handles the messages in them. Then in every order in which their bytes and
the callbacks follow each other, the client puts onto the wire what a server reads as the texts that
the protocol sends, each as a whole and in their order, but for those that are still in the queue;
after a callback there are none. The player ends as the protocol leaves it. -/
theorem conversation (z z' : SizeT) (net net' : Nat → Net) (pf : Platform ν) (player : IPlayer σ)
    (hspeaks : Speaks player) (hnet : ∀ k, (net k).Works) (hlimit : wsMessageSizeMax ≤ limit)
    (frames : List Frame) (hlen : ∀ f ∈ frames, f.Counts z z')
    (hping : ∀ f ∈ frames, f.protocol = .ping → f.payload ≠ []) (s s' : σ) (sends : List Send)
    (hrun : Neof5Protocol.run pf player (frames.flatMap messages) s = .ok (sends, s'))
    (events : List Event)
    (hevents : events.filterMap Event.byte? = frames.flatMap (Frame.bytes z')) :
    ∃ bytes c server received,
      Machine.run (step z net pf player) (.established s) events = .ok (bytes, some c) ∧
      c.player = s' ∧ received ++ c.thread.sendQueue = sends.map Send.text ∧
      Machine.run (readByte z' net' limit) (.established .serving) bytes =
        .ok (received.map Action.receive, some server) ∧
      (events.getLast? = some .writeable → received = sends.map Send.text) := by
  have hzero : 0 < wsMessageSizeMax := Nat.zero_lt_succ _
  obtain ⟨rx', hreads, -⟩ := Lws.reads_frames z z'
    (Client.established s).wsi.rx hzero hlen ⟨rfl, rfl⟩
  have hlistening : Listening (.established .serving) := ⟨rfl, rfl, rfl⟩
  obtain ⟨bytes, c, server, received, hclient, hplayer, hqueue, hserver, hlast⟩ :=
    conversation_from z' net' hspeaks hnet hlimit events (ready_established s) hlistening
      (hevents ▸ hreads) (heard_of_frames hping) (by rw [messages_of_frames]; exact hrun)
  refine ⟨bytes, c, server, received, hclient, hplayer, hqueue, hserver, fun hl => ?_⟩
  rw [hlast hl, List.append_nil] at hqueue
  exact hqueue

set_option maxRecDepth 100000 in
theorem sampleFrame_facts : [sampleFrame].flatMap messages = [sampleText] ∧
    sampleFrame.payload.length < 2 ^ 31 := by decide +kernel

/-- The sample message and a callback. -/
theorem conversation_sample :
    ∃ (sends : List Send) (bytes : Bytes) (c : Client Unit) (server : Wsi) (received : List Bytes),
      Neof5Protocol.run digitPlatform quietPlayer [sampleText] () = .ok (sends, ()) ∧
      Machine.run (step .bits64 Lws.sampleNet digitPlatform quietPlayer) (.established ())
        (sampleEvents ++ [Event.writeable]) = .ok (bytes, some c) ∧
      Machine.run (readByte .bits64 Lws.sampleNet 6000) (.established .serving) bytes =
        .ok (received.map Action.receive, some server) ∧ received = sends.map Send.text := by
  obtain ⟨hmessages, hlen⟩ := sampleFrame_facts
  have hthink : ∀ ctx s, ∃ hand remarks s', quietPlayer.think ctx s = .ok (hand, remarks, s') :=
    fun _ _ => ⟨_, _, _, rfl⟩
  obtain ⟨sends, _, hrun⟩ := run_total hthink
    (List.forall_mem_singleton.mpr (Message.turn sampleText_object sampleObject_says)) ()
  have hevents : (sampleEvents ++ [Event.writeable]).filterMap Event.byte? =
      [sampleFrame].flatMap (Frame.bytes .bits64) := by
    have hbytes : (Event.byte? ∘ Event.byte) = some := rfl
    rw [List.filterMap_append, sampleEvents, List.filterMap_map, hbytes, List.filterMap_some]
    simp [Event.byte?]
  obtain ⟨bytes, c, server, received, hclient, -, -, hserver, hlast⟩ := conversation .bits64 .bits64
    Lws.sampleNet Lws.sampleNet digitPlatform quietPlayer quietPlayer_speaks Lws.sampleNet_works
    (show wsMessageSizeMax ≤ 6000 by decide) [sampleFrame] (List.forall_mem_singleton.mpr
      ⟨Lws.lt_modulus _ hlen, Lws.lt_modulus _ hlen, hlen.trans (by norm_num)⟩)
    (List.forall_mem_singleton.mpr (by simp [sampleFrame])) () () sends
    (by rw [hmessages]; exact hrun) (sampleEvents ++ [Event.writeable]) hevents
  exact ⟨sends, bytes, c, server, received, hrun, hclient, hserver, hlast (by simp)⟩

end

end WsClient

end Neof5
