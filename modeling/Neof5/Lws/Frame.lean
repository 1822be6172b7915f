import Neof5.Lib.Machine
import Neof5.CardText
import Neof5.Poor

/-!
# Frames (`libwebsockets-1.23/lib`: `output.c`, `client-parser.c`, `parsers.c`)

`libwebsocket_write` puts a frame around a payload and masks it on the way from the client to the
server. `libwebsocket_client_rx_sm` reads what comes from the server byte by byte, and
`libwebsocket_rx_sm` is its counterpart in a server of the same library. The library is built with
extensions, but none is active: the client refuses all of them.

Both parsers hand the payload over when the frame ends or the buffer is full (the label `spill`):
`clientCollect` and `serverCollect` are the parsers up to there. The client resumes the masking
with the key and the index that it reads with, so both are kept in one place (`Mask`).
-/

namespace Neof5

open PoorPlayer (SizeT)

namespace Lws

/-! ## The connection -/

/-- A masking key. -/
structure Key where
  b0 : UInt8
  b1 : UInt8
  b2 : UInt8
  b3 : UInt8
  deriving DecidableEq, Repr

/-- `frame_masking_nonce_04[i & 3]` -/
def Key.byte (key : Key) (i : UInt8) : UInt8 :=
  match (i &&& 3).toNat with
  | 0 => key.b0
  | 1 => key.b1
  | 2 => key.b2
  | _ => key.b3

/-- The key as it stands in a frame. -/
def Key.bytes (key : Key) : Bytes := [key.b0, key.b1, key.b2, key.b3]

/-- `frame_masking_nonce_04` and `frame_mask_index` -/
structure Mask where
  nonce : Key
  index : UInt8
  deriving DecidableEq, Repr

/-- `enum lws_rx_parse_state`, from version 13 of the protocol on -/
inductive ParseState where
  | new
  | hdrLen
  | hdrLen16_2
  | hdrLen16_1
  | hdrLen64_8
  | hdrLen64_7
  | hdrLen64_6
  | hdrLen64_5
  | hdrLen64_4
  | hdrLen64_3
  | hdrLen64_2
  | hdrLen64_1
  | key1
  | key2
  | key3
  | key4
  | payload
  deriving DecidableEq, Repr

/-- The frame that is being read. `rxUserBuffer` is the part of the buffer that is filled. -/
structure Rx where
  parseState : ParseState
  opcode : UInt8
  rxPacketLength : Nat
  thisFrameMasked : Bool
  allZeroNonce : Bool
  rxUserBuffer : Bytes
  deriving DecidableEq, Repr

/-- `LWS_CONNMODE_WS_CLIENT`, `LWS_CONNMODE_WS_SERVING` -/
inductive Mode where
  | client
  | serving
  deriving DecidableEq, Repr

/-- `WSI_STATE_ESTABLISHED` and the states of closing -/
inductive WsiState where
  | established
  | awaitingCloseAck
  | returnedCloseAlready
  deriving DecidableEq, Repr

/-- `struct libwebsocket`, and the number of writes so far. -/
structure Wsi where
  mode : Mode
  state : WsiState
  rx : Rx
  mask : Mask
  insideFrame : Bool
  writes : Nat
  deriving DecidableEq, Repr

/-- The connection after the handshake, which sets all fields to zero. -/
def Wsi.established (mode : Mode) : Wsi :=
  ⟨mode, .established, ⟨.new, 0, 0, false, false, []⟩, ⟨⟨0, 0, 0, 0⟩, 0⟩, false, 0⟩

/-- What a write gets from the system: the random key, if four bytes can be read, and the result of
`send`. -/
structure Net where
  random : Option Key
  send : Bytes → Int

/-- The random device and the socket do what they are asked to. -/
structure Net.Works (n : Net) : Prop where
  random : ∃ key, n.random = some key
  full : ∀ frame, n.send frame = frame.length

/-- A random device that gives the same key each time, and a socket that works. -/
def sampleNet (_ : Nat) : Net := ⟨some ⟨1, 2, 3, 4⟩, fun frame => frame.length⟩

theorem sampleNet_works (k : Nat) : (sampleNet k).Works := ⟨⟨_, rfl⟩, fun _ => rfl⟩

/-! ## Writing (`libwebsocket_write`) -/

/-- `enum libwebsocket_write_protocol`, without the flags and `LWS_WRITE_HTTP` -/
inductive WriteProtocol where
  | text
  | binary
  | continuation
  | close
  | ping
  | pong
  deriving DecidableEq, Repr

/-- `LWS_WS_OPCODE_07__...` -/
def WriteProtocol.opcode : WriteProtocol → UInt8
  | continuation => 0
  | text => 1
  | binary => 2
  | close => 8
  | ping => 9
  | pong => 0xa

/-- The frames that are never resumed after a part of them was sent. -/
def WriteProtocol.isControl : WriteProtocol → Bool
  | close | ping | pong => true
  | text | binary | continuation => false

/-- `is_masked_bit` -/
def maskedBit (masked : Bool) : UInt8 := if masked then 0x80 else 0

/-- The bytes of a frame before the key and the payload, with the final bit set. -/
def frameHeader (z : SizeT) (opcode : UInt8) (masked : Bool) (len : Nat) : Bytes :=
  let n := opcode ||| 0x80
  if len < 126 then [n, len.toUInt8 ||| maskedBit masked]
  else if len < 65536 then [n, 126 ||| maskedBit masked, (len >>> 8).toUInt8, len.toUInt8]
  else
    [n, 127 ||| maskedBit masked] ++
      (match z with
      | .bits64 => [(len >>> 56).toUInt8 &&& 0x7f, (len >>> 48).toUInt8, (len >>> 40).toUInt8,
          (len >>> 32).toUInt8]
      | .bits32 => [0, 0, 0, 0]) ++
      [(len >>> 24).toUInt8, (len >>> 16).toUInt8, (len >>> 8).toUInt8, len.toUInt8]

/-- The masking loop, which starts with the index `i`. Its counter is an `int`. -/
def maskBytes (key : Key) : UInt8 → Bytes → Bytes
  | _, [] => []
  | i, c :: s => (c ^^^ key.byte i) :: maskBytes key (i + 1) s

@[simp] theorem length_maskBytes (key : Key) (i : UInt8) (s : Bytes) :
    (maskBytes key i s).length = s.length := by
  induction s generalizing i with
  | nil => rfl
  | cons c s ih => simp [maskBytes, ih]

/-- The same key takes the mask away. -/
@[simp] theorem maskBytes_maskBytes (key : Key) (i : UInt8) (s : Bytes) :
    maskBytes key i (maskBytes key i s) = s := by
  induction s generalizing i with
  | nil => rfl
  | cons c s ih => simp [maskBytes, ih]

/-- What a write leaves behind: the connection, the bytes that the socket took, the result, and the
caller's buffer, in which the payload is masked in place. -/
structure Written where
  wsi : Wsi
  bytes : Bytes
  result : Int
  buf : Bytes
  deriving DecidableEq, Repr

/-- `libwebsocket_write` from `send_raw` on. The result of `lws_issue_raw_ext_access` is the length
that it was asked to send, unless `send` fails. -/
def issue (net : Nat → Net) (wsi : Wsi) (frame : Bytes) (protocol : WriteProtocol) (len : Nat)
    (buf : Bytes) : Written :=
  let n := (net wsi.writes).send frame
  let wsi := { wsi with writes := wsi.writes + 1 }
  let bytes := frame.take n.toNat
  if protocol.isControl then ⟨wsi, bytes, if n < 0 then -1 else n, buf⟩
  else if n < 0 then ⟨{ wsi with insideFrame := true }, bytes, -1, buf⟩
  else ⟨{ wsi with insideFrame := false }, bytes, len, buf⟩

/-- `libwebsocket_write` -/
def libwebsocketWrite (z : SizeT) (net : Nat → Net) (wsi : Wsi) (buf : Bytes)
    (protocol : WriteProtocol) : Except Fault Written :=
  if buf.isEmpty && !protocol.isControl then .ok ⟨wsi, [], 0, buf⟩
  else if wsi.state ≠ .established then .ok ⟨wsi, [], -1, buf⟩
  else if wsi.insideFrame then
    -- The rest of a frame goes out without a header, and `dropmask` is still null.
    if wsi.mode = .client ∧ buf ≠ [] then .error .nullDeref
    else .ok (issue net wsi buf protocol buf.length buf)
  else
    match wsi.mode with
    | .serving =>
      let frame := frameHeader z protocol.opcode false buf.length ++ buf
      .ok (issue net wsi frame protocol buf.length buf)
    | .client =>
      match (net wsi.writes).random with
      | none => .ok ⟨{ wsi with writes := wsi.writes + 1 }, [], -1, buf⟩
      | some key =>
        let masked := maskBytes key 0 buf
        let frame := frameHeader z protocol.opcode true buf.length ++ key.bytes ++ masked
        let wsi := { wsi with mask := ⟨key, buf.length.toUInt8⟩ }
        .ok (issue net wsi frame protocol buf.length masked)

/-! ## Reading -/

/-- `LWS_SEND_BUFFER_POST_PADDING` -/
def postPadding : Nat := 4

/-- How the parser goes on after a byte. -/
inductive Next where
  | more
  | spill
  | kill
  deriving DecidableEq, Repr

/-- `rx_packet_length |= c << shift`; with 32 bits the upper four bytes are not looked at. -/
def Rx.addLength (z : SizeT) (rx : Rx) (shift : Nat) (c : UInt8) (next : ParseState) : Rx :=
  let bits := if z = .bits64 ∨ shift < 32 then c.toNat <<< shift else 0
  { rx with rxPacketLength := rx.rxPacketLength ||| bits, parseState := next }

/-- A byte of the key. -/
def Rx.keyByte (rx : Rx) (c : UInt8) (next : ParseState) : Rx :=
  { rx with allZeroNonce := rx.allZeroNonce && c == 0, parseState := next }

/-- The first byte of a frame. -/
def Rx.first (rx : Rx) (c : UInt8) : Rx := { rx with opcode := c &&& 0xf, parseState := .hdrLen }

/-- `rx_user_buffer[head++] = c` -/
def Rx.push (limit : Nat) (rx : Rx) (c : UInt8) : Except Fault Rx :=
  if rx.rxUserBuffer.length < limit + postPadding then
    .ok { rx with rxUserBuffer := rx.rxUserBuffer ++ [c] }
  else .error .badIndex

/-- The states in the middle of a length or of a key, in which both parsers do the same. -/
def middleByte (z : SizeT) (rx : Rx) (m : Mask) (c : UInt8) : Rx × Mask × Next :=
  match rx.parseState with
  | .hdrLen16_2 =>
    ({ rx with rxPacketLength := c.toNat <<< 8, parseState := .hdrLen16_1 }, m, .more)
  | .hdrLen64_8 =>
    if c &&& 0x80 ≠ 0 then (rx, m, .kill)
    else (({ rx with rxPacketLength := 0 } : Rx).addLength z 56 c .hdrLen64_7, m, .more)
  | .hdrLen64_7 => (rx.addLength z 48 c .hdrLen64_6, m, .more)
  | .hdrLen64_6 => (rx.addLength z 40 c .hdrLen64_5, m, .more)
  | .hdrLen64_5 => (rx.addLength z 32 c .hdrLen64_4, m, .more)
  | .hdrLen64_4 => (rx.addLength z 24 c .hdrLen64_3, m, .more)
  | .hdrLen64_3 => (rx.addLength z 16 c .hdrLen64_2, m, .more)
  | .hdrLen64_2 => (rx.addLength z 8 c .hdrLen64_1, m, .more)
  | .key1 => (rx.keyByte c .key2, { m with nonce := { m.nonce with b0 := c } }, .more)
  | .key2 => (rx.keyByte c .key3, { m with nonce := { m.nonce with b1 := c } }, .more)
  | .key3 => (rx.keyByte c .key4, { m with nonce := { m.nonce with b2 := c } }, .more)
  | _ => (rx, m, .kill)

/-- The length byte of a control frame must hold the length itself. -/
def longLength (rx : Rx) (c : UInt8) (next : ParseState) : Rx × Next :=
  if rx.opcode &&& 8 ≠ 0 then ({ rx with thisFrameMasked := c &&& 0x80 ≠ 0 }, .kill)
  else ({ rx with thisFrameMasked := c &&& 0x80 ≠ 0, parseState := next }, .more)

/-- After the length, in the client. -/
def Rx.clientAfterLength (rx : Rx) : Rx × Next :=
  if rx.thisFrameMasked then ({ rx with parseState := .key1 }, .more)
  else if rx.rxPacketLength ≠ 0 then ({ rx with parseState := .payload }, .more)
  else ({ rx with parseState := .new }, .spill)

/-- A byte of the payload is in the buffer: the frame ends, or the buffer may be full. -/
def Rx.afterPayload (limit : Nat) (rx : Rx) : Rx × Next :=
  if rx.rxPacketLength = 0 then ({ rx with parseState := .new }, .spill)
  else if rx.rxUserBuffer.length = limit then (rx, .spill)
  else (rx, .more)

/-- A byte of the payload, which is unmasked unless it is `plain`. -/
def payloadByte (z : SizeT) (limit : Nat) (plain : Bool) (rx : Rx) (m : Mask) (c : UInt8) :
    Except Fault (Rx × Mask × Next) := do
  let rx ← rx.push limit (if plain then c else c ^^^ m.nonce.byte m.index)
  let m := if plain then m else { m with index := m.index + 1 }
  let rx := { rx with rxPacketLength := (rx.rxPacketLength + z.modulus - 1) % z.modulus }
  let (rx, next) := rx.afterPayload limit
  return (rx, m, next)

/-- `libwebsocket_client_rx_sm` up to the label `spill`. In a masked frame the length byte is taken
with its upper bit. -/
def clientCollect (z : SizeT) (limit : Nat) (rx : Rx) (m : Mask) (c : UInt8) :
    Except Fault (Rx × Mask × Next) :=
  match rx.parseState with
  | .new => .ok (rx.first c, m, .more)
  | .hdrLen =>
    if c &&& 0x7f = 126 then
      let (rx, next) := longLength rx c .hdrLen16_2
      .ok (rx, m, next)
    else if c &&& 0x7f = 127 then
      let (rx, next) := longLength rx c .hdrLen64_8
      .ok (rx, m, next)
    else
      let rx := { rx with thisFrameMasked := c &&& 0x80 ≠ 0, rxPacketLength := c.toNat }
      let (rx, next) := rx.clientAfterLength
      .ok (rx, m, next)
  | .hdrLen16_1 | .hdrLen64_1 =>
    let (rx, next) := (rx.addLength z 0 c rx.parseState).clientAfterLength
    .ok (rx, m, next)
  | .key4 =>
    let m := { m with nonce := { m.nonce with b3 := c } }
    let rx := rx.keyByte c .payload
    if rx.rxPacketLength ≠ 0 then .ok (rx, m, .more)
    else .ok ({ rx with parseState := .new }, m, .spill)
  | .payload => payloadByte z limit (!rx.thisFrameMasked || rx.allZeroNonce) rx m c
  | _ => .ok (middleByte z rx m c)

/-- `libwebsocket_rx_sm` up to the label `spill`. -/
def serverCollect (z : SizeT) (limit : Nat) (rx : Rx) (m : Mask) (c : UInt8) :
    Except Fault (Rx × Mask × Next) :=
  match rx.parseState with
  | .new => .ok (({ rx with allZeroNonce := true } : Rx).first c, m, .more)
  | .hdrLen =>
    if c &&& 0x7f = 126 then
      let (rx, next) := longLength rx c .hdrLen16_2
      .ok (rx, m, next)
    else if c &&& 0x7f = 127 then
      let (rx, next) := longLength rx c .hdrLen64_8
      .ok (rx, m, next)
    else
      let masked : Bool := c &&& 0x80 ≠ 0
      .ok ({ rx with
        thisFrameMasked := masked
        rxPacketLength := (c &&& 0x7f).toNat
        parseState := if masked then .key1 else .payload }, m, .more)
  | .hdrLen16_1 | .hdrLen64_1 =>
    .ok (rx.addLength z 0 c (if rx.thisFrameMasked then .key1 else .payload), m, .more)
  | .key4 =>
    let rx := rx.keyByte c .payload
    .ok (rx, ⟨{ m.nonce with b3 := c }, 0⟩, if rx.rxPacketLength = 0 then .spill else .more)
  | .payload => payloadByte z limit rx.allZeroNonce rx m c
  | _ => .ok (middleByte z rx m c)

/-- What the reader does besides collecting: the callbacks `LWS_CALLBACK_(CLIENT_)RECEIVE` and
`LWS_CALLBACK_CLIENT_RECEIVE_PONG`, and what the socket took of a control frame. -/
inductive Action where
  | receive (data : Bytes)
  | receivePong (data : Bytes)
  | sent (bytes : Bytes)
  deriving DecidableEq, Repr

/-- `rx_user_buffer_head = 0` -/
def Wsi.clearBuffer (wsi : Wsi) : Wsi := { wsi with rx := { wsi.rx with rxUserBuffer := [] } }

/-- A close frame: its payload is sent back, unless it is the answer to our own. -/
def spillClose (z : SizeT) (net : Nat → Net) (wsi : Wsi) :
    Except Fault (List Action × Wsi × Int) := do
  if wsi.state = .awaitingCloseAck then return ([], wsi, -1)
  let w ← libwebsocketWrite z net wsi wsi.rx.rxUserBuffer .close
  return ([.sent w.bytes], { w.wsi with state := .returnedCloseAlready }, -1)

/-- A piece of the payload for the user, with a zero behind it. An empty one is not handed over. -/
def handOver (limit : Nat) (wsi : Wsi) (callback : Bytes → Action) :
    Except Fault (List Action × Wsi × Int) :=
  let data := wsi.rx.rxUserBuffer
  if data.isEmpty then .ok ([], wsi.clearBuffer, 0)
  else if data.length < limit + postPadding then .ok ([callback data], wsi.clearBuffer, 0)
  else .error .badIndex

/-- `libwebsocket_client_rx_sm` from the label `spill` on. -/
def clientSpill (z : SizeT) (net : Nat → Net) (limit : Nat) (wsi : Wsi) :
    Except Fault (List Action × Wsi × Int) := do
  if wsi.rx.opcode = WriteProtocol.close.opcode then spillClose z net wsi
  else if wsi.rx.opcode = WriteProtocol.ping.opcode then
    let w ← libwebsocketWrite z net wsi wsi.rx.rxUserBuffer .pong
    return ([.sent w.bytes], w.wsi.clearBuffer, 0)
  else if wsi.rx.opcode = WriteProtocol.pong.opcode then handOver limit wsi .receivePong
  else if wsi.rx.opcode ≤ WriteProtocol.binary.opcode then handOver limit wsi .receive
  else return ([], wsi.clearBuffer, 0)

/-- `libwebsocket_rx_sm` from the label `spill` on. The user's callback returns zero. -/
def serverSpill (z : SizeT) (net : Nat → Net) (limit : Nat) (wsi : Wsi) :
    Except Fault (List Action × Wsi × Int) := do
  if wsi.rx.opcode = WriteProtocol.close.opcode then spillClose z net wsi
  else if wsi.rx.opcode = WriteProtocol.ping.opcode then
    let w ← libwebsocketWrite z net wsi wsi.rx.rxUserBuffer .pong
    if w.result < 0 then return ([.sent w.bytes], w.wsi, -1)
    return ([.sent w.bytes], w.wsi.clearBuffer, 0)
  else if wsi.rx.opcode = WriteProtocol.pong.opcode then return ([], wsi.clearBuffer, 0)
  else if wsi.rx.opcode ≤ WriteProtocol.binary.opcode then handOver limit wsi .receive
  else return ([], wsi.clearBuffer, 0)

/-- `libwebsocket_client_rx_sm` or `libwebsocket_rx_sm` up to the label `spill`. -/
def Wsi.collect (z : SizeT) (limit : Nat) (wsi : Wsi) (c : UInt8) :
    Except Fault (Rx × Mask × Next) :=
  match wsi.mode with
  | .client => clientCollect z limit wsi.rx wsi.mask c
  | .serving => serverCollect z limit wsi.rx wsi.mask c

/-- The rest of `libwebsocket_client_rx_sm` or `libwebsocket_rx_sm`. -/
def Wsi.spill (z : SizeT) (net : Nat → Net) (limit : Nat) (wsi : Wsi) :
    Except Fault (List Action × Wsi × Int) :=
  match wsi.mode with
  | .client => clientSpill z net limit wsi
  | .serving => serverSpill z net limit wsi

/-- One byte, with the parser of the connection's mode: the connection goes on unless the result is
negative (`libwebsocket_read`). -/
def readByte (z : SizeT) (net : Nat → Net) (limit : Nat) (wsi : Wsi) (c : UInt8) :
    Except Fault (List Action × Option Wsi) := do
  let (rx, mask, next) ← wsi.collect z limit c
  let wsi := { wsi with rx, mask }
  match next with
  | .more => return ([], some wsi)
  | .kill => return ([], none)
  | .spill =>
    let (actions, wsi, n) ← wsi.spill z net limit
    return (actions, if n < 0 then none else some wsi)

end Lws

end Neof5
