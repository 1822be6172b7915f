import Neof5.Lws.Parse

/-!
# What a server reads of what the client writes

A server of the same library reads a masked frame as the client wrote it (`server_reads_frame`): the
key of the frame takes the mask away, and the payload is handed over in pieces of the size of the
server's buffer. So whatever the client writes is read back in the order of the writes, as long as
each write has a payload and goes out in full (`server_reads_writes`).

A frame with a key and no payload is another matter: the server stays in the payload, and takes what
comes next for it (`server_swallows`).
-/

namespace Neof5

open PoorPlayer (SizeT)

namespace Lws

variable {z : SizeT} {net : Nat → Net} {limit : Nat} {rx rx' : Rx} {m : Mask} {c : UInt8}
  {wsi : Wsi} {p : WriteProtocol} {key : Key}

/-! ## The header and the key -/

/-- The server begins a frame with the key of zeros in mind. -/
def Rx.serverStart (rx : Rx) : Rx := { rx with allZeroNonce := true }

/-- After the length, in the server. -/
def Rx.serverAfterLength (rx : Rx) : Rx × Next :=
  ({ rx with parseState := if rx.thisFrameMasked then .key1 else .payload }, .more)

theorem serverCollect_heads (z : SizeT) (limit : Nat) :
    Heads z (serverCollect z limit) true Rx.serverStart Rx.serverAfterLength where
  middle rx m c hst := by
    unfold serverCollect
    split <;> simp_all
  new rx m c hst := by
    simp only [serverCollect, hst]
    rfl
  short rx m len hst hlen := by
    obtain ⟨h7f, h126, h127, h80⟩ := shortByte true hlen
    have hnat : len.toUInt8.toNat = len := toNat_toUInt8_of_lt (hlen.trans (by norm_num))
    simp only [serverCollect, hst, h7f, h126, h127, h80, hnat, if_false]
    rfl
  long16 rx m hst hop := by
    obtain ⟨h7f, -, h80, -⟩ := longByte true
    simp only [serverCollect, hst, h7f, longLength, hop, h80, if_true, ne_eq, not_true_eq_false,
      if_false]
  long64 rx m hst hop := by
    obtain ⟨-, h7f, -, h80⟩ := longByte true
    have hne : (127 : UInt8) ≠ 126 := by decide
    simp only [serverCollect, hst, h7f, hne, longLength, hop, h80, if_true, ne_eq,
      not_true_eq_false, if_false]
  last rx m c hst := by
    rcases List.mem_pair.mp hst with h | h <;> simp only [serverCollect, h] <;> rfl
  after_state rx st := rfl

theorem readByte_serving (hmode : wsi.mode = .serving)
    (h : serverCollect z limit wsi.rx wsi.mask c = .ok (rx', m, .more)) :
    readByte z net limit wsi c = .ok ([], some { wsi with rx := rx', mask := m }) := by
  simp only [readByte, Wsi.collect, hmode, h]
  rfl

/-- Bytes that do not depend on the key, and are not spilled. -/
theorem run_silent_reads (net : Nat → Net) {xs : Bytes} {spills : List Spill}
    (hmode : wsi.mode = .serving) (h : Reads (serverCollect z limit) rx xs spills rx')
    (hs : spills = []) (hrx : wsi.rx = rx) :
    Machine.run (readByte z net limit) wsi xs = .ok ([], some { wsi with rx := rx' }) := by
  induction h generalizing wsi with
  | nil =>
    subst hrx
    rfl
  | @more _ rx₁ _ _ _ _ hc _ ih =>
    subst hrx
    rw [Machine.run_silent (readByte_serving hmode (hc _))]
    exact ih hmode hs rfl
  | spill => cases hs

/-- All four bytes are zero. -/
def Key.isZero (key : Key) : Bool := key.b0 == 0 && key.b1 == 0 && key.b2 == 0 && key.b3 == 0

/-- The frame after the key. -/
def Rx.keyed (rx : Rx) (key : Key) : Rx :=
  { rx with allZeroNonce := key.isZero, parseState := .payload }

/-- The key of a frame with a payload. -/
theorem run_key (z : SizeT) (net : Nat → Net) (limit : Nat) (key : Key) (wsi : Wsi)
    (hmode : wsi.mode = .serving) (hst : wsi.rx.parseState = .key1)
    (hzero : wsi.rx.allZeroNonce = true) (hlen : wsi.rx.rxPacketLength ≠ 0) :
    Machine.run (readByte z net limit) wsi key.bytes =
      .ok ([], some { wsi with rx := wsi.rx.keyed key, mask := ⟨key, 0⟩ }) := by
  simp [Machine.run, readByte, Wsi.collect, serverCollect, middleByte, Rx.keyByte, Key.bytes,
    hmode, hst, hzero, hlen, Rx.keyed, Key.isZero]

/-! ## The payload -/

/-- The payload without the mask. -/
def Mask.unmask (m : Mask) (plain : Bool) (xs : Bytes) : Bytes :=
  if plain then xs else maskBytes m.nonce m.index xs

/-- The mask after a byte of the payload. -/
def Mask.next (m : Mask) (plain : Bool) : Mask :=
  if plain then m else { m with index := m.index + 1 }

theorem unmask_cons (plain : Bool) (xs : Bytes) :
    m.unmask plain (c :: xs) =
      (if plain then c else c ^^^ m.nonce.byte m.index) :: (m.next plain).unmask plain xs := by
  cases plain <;> rfl

@[simp] theorem unmask_nil (plain : Bool) : m.unmask plain [] = [] := by cases plain <;> rfl

/-- With a key of zeros there is no mask. -/
theorem maskBytes_zero (h : key.isZero) (i : UInt8) (xs : Bytes) : maskBytes key i xs = xs := by
  have hbyte : ∀ i, key.byte i = 0 := by
    intro i
    simp only [Key.isZero, Bool.and_eq_true, beq_iff_eq] at h
    unfold Key.byte
    split <;> simp [h]
  induction xs generalizing i with
  | nil => rfl
  | cons c xs ih => simp [maskBytes, hbyte, ih]

/-- The server takes away what the client put on. -/
theorem unmask_maskBytes (xs : Bytes) :
    Mask.unmask ⟨key, 0⟩ key.isZero (maskBytes key 0 xs) = xs := by
  unfold Mask.unmask
  split_ifs with h
  · exact maskBytes_zero h 0 xs
  · exact maskBytes_maskBytes key 0 xs

/-- What the server hands over of a piece. -/
def serverAnswer (p : WriteProtocol) (data : Bytes) : List Action :=
  match p with
  | .text | .binary | .continuation => if data.isEmpty then [] else [.receive data]
  | .close | .ping | .pong => []

/-- A frame that asks for no answer. -/
def WriteProtocol.isSilent : WriteProtocol → Bool
  | close | ping => false
  | text | binary | continuation | pong => true

theorem serverSpill_eq (z : SizeT) (net : Nat → Net) (hp : wsi.rx.opcode = p.opcode)
    (hsilent : p.isSilent) (hfit : wsi.rx.rxUserBuffer.length ≤ limit) :
    serverSpill z net limit wsi =
      .ok (serverAnswer p wsi.rx.rxUserBuffer, wsi.clearBuffer, 0) := by
  unfold serverSpill
  rw [hp]
  cases p with
  | close | ping => cases hsilent
  | pong =>
    rw [if_neg (by decide), if_neg (by decide), if_pos rfl]
    rfl
  | text | binary | continuation =>
    rw [if_neg (by decide), if_neg (by decide), if_neg (by decide), if_pos (by decide),
      handOver_eq hfit]
    rfl

theorem readByte_serving_spill (net : Nat → Net) (hmode : wsi.mode = .serving)
    (h : serverCollect z limit wsi.rx wsi.mask c = .ok (rx', m, .spill))
    (hp : rx'.opcode = p.opcode) (hsilent : p.isSilent)
    (hfit : rx'.rxUserBuffer.length ≤ limit) :
    readByte z net limit wsi c = .ok (serverAnswer p rx'.rxUserBuffer,
      some { wsi with rx := rx'.clear, mask := m }) := by
  have hspill : serverSpill z net limit { wsi with rx := rx', mask := m } = .ok _ :=
    serverSpill_eq z net hp hsilent hfit
  simp only [hmode] at hspill
  simp only [readByte, Wsi.collect, hmode, h, except_ok_bind, Wsi.spill, hspill]
  rfl

/-- The payload is handed over in pieces, without the mask. -/
theorem run_payload (z : SizeT) (net : Nat → Net) (wsi : Wsi) {xs : Bytes}
    (hmode : wsi.mode = .serving) (hst : wsi.rx.parseState = .payload)
    (hp : wsi.rx.opcode = p.opcode) (hsilent : p.isSilent)
    (hroom : wsi.rx.rxUserBuffer.length < limit) (hlen : wsi.rx.rxPacketLength = xs.length)
    (hne : xs ≠ []) (hz : xs.length < z.modulus) :
    ∃ wsi', Machine.run (readByte z net limit) wsi xs =
        .ok ((Machine.pieces limit wsi.rx.rxUserBuffer
          (wsi.mask.unmask wsi.rx.allZeroNonce xs)).flatMap (serverAnswer p), some wsi') ∧
      wsi'.mode = .serving ∧ wsi'.rx.AtRest := by
  induction xs generalizing wsi with
  | nil => exact absurd rfl hne
  | cons c xs ih =>
    have hn : xs.length < z.modulus := (Nat.lt_succ_self _).trans hz
    have hbyte : serverCollect z limit wsi.rx wsi.mask c =
        payloadByte z limit wsi.rx.allZeroNonce wsi.rx wsi.mask c := by
      simp only [serverCollect, hst]
    rw [payloadByte_eq (length_down hlen hn) hroom] at hbyte
    rw [unmask_cons]
    generalize (if wsi.rx.allZeroNonce then c else c ^^^ wsi.mask.nonce.byte wsi.mask.index) = d
      at hbyte ⊢
    have hfit : (wsi.rx.rxUserBuffer ++ [d]).length ≤ limit := by
      rw [List.length_append, List.length_singleton]
      exact hroom
    cases xs with
    | nil =>
      have hlast := readByte_serving_spill net hmode hbyte hp hsilent hfit
      have hrun := Machine.run_cons hlast Machine.run_nil
      rw [unmask_nil, Machine.pieces, List.flatMap_singleton, ← List.append_nil (serverAnswer p _)]
      exact ⟨_, hrun, hmode, ⟨rfl, rfl⟩⟩
    | cons e xs =>
      have hn0 : (e :: xs).length ≠ 0 := by simp
      obtain ⟨y, ys, hys⟩ : ∃ y ys, (wsi.mask.next wsi.rx.allZeroNonce).unmask
          wsi.rx.allZeroNonce (e :: xs) = y :: ys := ⟨_, _, unmask_cons _ _⟩
      rw [hys, Machine.pieces, ← hys]
      split_ifs with hfull
      · simp only [afterPayload_full hn0 hfull] at hbyte
        have hzero : 0 < limit := Nat.zero_lt_of_lt hroom
        have hspill := readByte_serving_spill net hmode hbyte hp hsilent hfit
        obtain ⟨wsi', hrun, hmode', hrest⟩ := ih { wsi with
          rx := (wsi.rx.pushed d (e :: xs).length).clear
          mask := wsi.mask.next wsi.rx.allZeroNonce } hmode hst hp hzero rfl (by simp) hn
        exact ⟨wsi', Machine.run_cons hspill hrun, hmode', hrest⟩
      · simp only [afterPayload_more hn0 hfull] at hbyte
        have hroom' : (wsi.rx.rxUserBuffer ++ [d]).length < limit := lt_of_le_of_ne hfit hfull
        obtain ⟨wsi', hrun, hmode', hrest⟩ := ih { wsi with
          rx := wsi.rx.pushed d (e :: xs).length
          mask := wsi.mask.next wsi.rx.allZeroNonce } hmode hst hp hroom' rfl (by simp) hn
        refine ⟨wsi', ?_, hmode', hrest⟩
        rw [Machine.run_silent (readByte_serving hmode hbyte)]
        exact hrun

/-- The frame in the server after the header and the key. -/
def Rx.serverFrame (rx : Rx) (p : WriteProtocol) (key : Key) (len : Nat) : Rx :=
  { rx with
    parseState := .payload
    opcode := p.opcode
    rxPacketLength := len
    thisFrameMasked := true
    allZeroNonce := key.isZero }

/-- The header and the key of a masked frame with a payload. -/
theorem run_header (net : Nat → Net) (limit : Nat) (key : Key) {len : Nat}
    (hmode : wsi.mode = .serving) (hnew : wsi.rx.parseState = .new)
    (hcontrol : 126 ≤ len → p.isControl = false) (hne : len ≠ 0) (hz : len < z.modulus)
    (h63 : len < 2 ^ 63) :
    Machine.run (readByte z net limit) wsi (frameHeader .bits64 p.opcode true len ++ key.bytes) =
      .ok ([], some { wsi with rx := wsi.rx.serverFrame p key len, mask := ⟨key, 0⟩ }) := by
  have hop : 126 ≤ len → p.opcode &&& 8 = 0 := by
    intro h
    have := hcontrol h
    cases p <;> first | rfl | cases this
  have hhead := reads_header (serverCollect_heads z limit) hnew (opcode_lt p) hop
    hz h63 rfl
  have hrun₁ := run_silent_reads net hmode hhead rfl rfl
  have hrun₂ := run_key z net limit key { wsi with
    rx := (Rx.serverAfterLength (wsi.rx.serverStart.header p.opcode true len)).1 } hmode rfl rfl hne
  exact Machine.run_append hrun₁ hrun₂

/-- **A masked frame.** The server reads what the client wrote. -/
theorem server_reads_frame (net : Nat → Net) (key : Key) (z' : SizeT) {payload : Bytes}
    (hlimit : 0 < limit)
    (hmode : wsi.mode = .serving) (hrx : wsi.rx.AtRest) (hsilent : p.isSilent)
    (hcontrol : 126 ≤ payload.length → p.isControl = false) (hne : payload ≠ [])
    (hz : payload.length < z.modulus) (hz' : payload.length < z'.modulus)
    (h63 : payload.length < 2 ^ 63) :
    ∃ wsi', Machine.run (readByte z net limit) wsi (maskedFrame z' p key payload) =
        .ok ((Machine.pieces limit [] payload).flatMap (serverAnswer p), some wsi') ∧
      wsi'.mode = .serving ∧ wsi'.rx.AtRest := by
  obtain ⟨hnew, hbuf⟩ := hrx
  have hhead := run_header net limit key hmode hnew hcontrol
    (by simpa using hne) hz h63
  have hlen : (maskBytes key 0 payload).length = payload.length := length_maskBytes key 0 payload
  have hne' : maskBytes key 0 payload ≠ [] := by
    rwa [← List.length_pos_iff, hlen, List.length_pos_iff]
  have hroom : (wsi.rx.serverFrame p key payload.length).rxUserBuffer.length < limit := by
    rw [show (wsi.rx.serverFrame p key payload.length).rxUserBuffer = [] from hbuf]
    exact hlimit
  obtain ⟨wsi', hrun, hmode', hrest⟩ := run_payload z net { wsi with
    rx := wsi.rx.serverFrame p key payload.length, mask := ⟨key, 0⟩ } hmode rfl (p := p) rfl hsilent
    hroom hlen.symm hne' (by rwa [hlen])
  refine ⟨wsi', ?_, hmode', hrest⟩
  rw [maskedFrame, frameHeader_bits64 hz', Machine.run_append hhead hrun, List.nil_append]
  show Except.ok ((Machine.pieces limit wsi.rx.rxUserBuffer (Mask.unmask ⟨key, 0⟩ key.isZero
    (maskBytes key 0 payload))).flatMap (serverAnswer p), some wsi') = _
  rw [hbuf, unmask_maskBytes]

theorem lt_modulus (z : SizeT) {n : Nat} (h : n < 2 ^ 31) : n < z.modulus := by
  cases z with
  | bits32 => exact h.trans (by norm_num [SizeT.modulus])
  | bits64 => exact h.trans (by norm_num [SizeT.modulus])

/-! ### A frame with a key and no payload -/

/-- The server is in the payload of a pong and does not come out of it over the next `n` bytes. -/
structure Swallows (z : SizeT) (limit : Nat) (wsi : Wsi) (n : Nat) : Prop where
  mode : wsi.mode = .serving
  state : wsi.rx.parseState = .payload
  opcode : wsi.rx.opcode = WriteProtocol.pong.opcode
  room : wsi.rx.rxUserBuffer.length < limit
  length_lt : n < z.modulus
  far : wsi.rx.rxPacketLength = 0 ∨ n < wsi.rx.rxPacketLength ∧ wsi.rx.rxPacketLength < z.modulus

theorem readByte_swallows (net : Nat → Net) {n : Nat} (h : Swallows z limit wsi (n + 1)) :
    ∃ wsi', readByte z net limit wsi c = .ok ([], some wsi') ∧ Swallows z limit wsi' n := by
  obtain ⟨k, hk, hn, hlt⟩ : ∃ k, (wsi.rx.rxPacketLength + z.modulus - 1) % z.modulus = k ∧ n < k ∧
      k < z.modulus := by
    have hmod := h.length_lt
    rcases h.far with h0 | ⟨hfar, hlt⟩
    · exact ⟨z.modulus - 1, by rw [h0, Nat.zero_add, Nat.mod_eq_of_lt (by omega)], by omega,
        by omega⟩
    · obtain ⟨l, hl⟩ : ∃ l, wsi.rx.rxPacketLength = l + 1 := ⟨wsi.rx.rxPacketLength - 1, by omega⟩
      exact ⟨l, length_down hl (by omega), by omega, by omega⟩
  have hbyte : serverCollect z limit wsi.rx wsi.mask c =
      payloadByte z limit wsi.rx.allZeroNonce wsi.rx wsi.mask c := by
    simp only [serverCollect, h.state]
  rw [payloadByte_eq hk h.room] at hbyte
  generalize (if wsi.rx.allZeroNonce then c else c ^^^ wsi.mask.nonce.byte wsi.mask.index) = d
    at hbyte
  have hk0 : k ≠ 0 := by omega
  have hnlt : n < z.modulus := by omega
  have hfit : (wsi.rx.rxUserBuffer ++ [d]).length ≤ limit := by
    rw [List.length_append, List.length_singleton]
    exact h.room
  by_cases hfull : (wsi.rx.rxUserBuffer ++ [d]).length = limit
  · simp only [afterPayload_full hk0 hfull] at hbyte
    have hspill := readByte_serving_spill net (p := .pong) h.mode hbyte h.opcode rfl hfit
    exact ⟨_, hspill, h.mode, h.state, h.opcode, Nat.zero_lt_of_lt h.room, hnlt, .inr ⟨hn, hlt⟩⟩
  · simp only [afterPayload_more hk0 hfull] at hbyte
    exact ⟨_, readByte_serving h.mode hbyte, h.mode, h.state, h.opcode, lt_of_le_of_ne hfit hfull,
      hnlt, .inr ⟨hn, hlt⟩⟩

theorem run_swallows (net : Nat → Net) {xs : Bytes} (h : Swallows z limit wsi xs.length) :
    ∃ wsi', Machine.run (readByte z net limit) wsi xs = .ok ([], some wsi') ∧
      wsi'.rx.parseState = .payload := by
  induction xs generalizing wsi with
  | nil => exact ⟨wsi, rfl, h.state⟩
  | cons c xs ih =>
    obtain ⟨wsi₁, hbyte, h₁⟩ := readByte_swallows net h
    obtain ⟨wsi', hrun, hst⟩ := ih h₁
    exact ⟨wsi', by rw [Machine.run_silent hbyte, hrun], hst⟩

/-- **An empty pong.** The answer of the client to a ping without a payload is a frame with a key
and no payload. The server stays in its payload: of the bytes that come next, as many as a length
can count, none is handed over. -/
theorem server_swallows {z' : SizeT} (net : Nat → Net) (hlimit : 0 < limit)
    (hmode : wsi.mode = .serving) (hrx : wsi.rx.AtRest) (key : Key) (xs : Bytes)
    (hxs : xs.length < z.modulus) :
    ∃ wsi', Machine.run (readByte z net limit) wsi (maskedFrame z' .pong key [] ++ xs) =
        .ok ([], some wsi') ∧ wsi'.rx.parseState = .payload := by
  obtain ⟨hnew, hbuf⟩ := hrx
  have hzero : 0 < z.modulus := by omega
  have hhead := reads_header (serverCollect_heads z limit) hnew
    (opcode_lt .pong) (by omega) hzero (by norm_num) rfl
  have hrun₁ := run_silent_reads net hmode hhead rfl rfl
  -- The key ends the frame with a spill, and the state is left as it is.
  have hrun₂ : Machine.run (readByte z net limit) { wsi with
      rx := (Rx.serverAfterLength (wsi.rx.serverStart.header 0xa true 0)).1 } key.bytes =
      .ok ([], some { wsi with
        rx := wsi.rx.serverFrame .pong key 0, mask := ⟨key, 0⟩ }) := by
    simp [Machine.run, readByte, Wsi.collect, serverCollect, middleByte, Rx.keyByte, Key.bytes,
      hmode, Wsi.spill, serverSpill, WriteProtocol.opcode, Rx.serverAfterLength, Rx.header,
      Rx.serverStart, Rx.serverFrame, Key.isZero, Wsi.clearBuffer, hbuf]
  have hstuck : Swallows z limit { wsi with
      rx := wsi.rx.serverFrame .pong key 0, mask := ⟨key, 0⟩ } xs.length :=
    ⟨hmode, rfl, rfl, by simpa [Rx.serverFrame, hbuf] using hlimit, hxs, .inl rfl⟩
  obtain ⟨wsi', hrun, hst⟩ := run_swallows net hstuck
  refine ⟨wsi', ?_, hst⟩
  rw [maskedFrame, frameHeader_bits64 (z := z') (lt_modulus z' (by norm_num))]
  have hframe := Machine.run_append (Machine.run_append hrun₁ hrun₂) Machine.run_nil
  exact Machine.run_append hframe hrun

/-- An empty pong, and a text behind it. -/
theorem server_swallows_sample :
    ∃ wsi', Machine.run (readByte .bits32 sampleNet 10) (.established .serving)
        (maskedFrame .bits64 .pong ⟨1, 2, 3, 4⟩ [] ++ maskedFrame .bits64 .text ⟨1, 2, 3, 4⟩ [65]) =
      .ok ([], some wsi') ∧ wsi'.rx.parseState = .payload :=
  server_swallows sampleNet (by decide) rfl ⟨rfl, rfl⟩ ⟨1, 2, 3, 4⟩ _ (by decide)

/-! ## What the client writes -/

/-- A write that goes out in full. -/
theorem libwebsocketWrite_full {buf : Bytes} (h : wsi.Open) (hne : buf ≠ [])
    (hn : (net wsi.writes).Works) :
    ∃ key w, libwebsocketWrite z net wsi buf p = .ok w ∧ w.bytes = maskedFrame z p key buf ∧
      w.wsi.Open ∧ w.wsi.rx = wsi.rx ∧ w.buf = maskBytes key 0 buf ∧
      (p.isControl = false → w.result = buf.length) := by
  obtain ⟨key, hkey⟩ := hn.random
  have hlen : ¬ (((maskedFrame z p key buf).length : Int) < 0) := by omega
  refine ⟨key, _, libwebsocketWrite_client z net h (by simp [hne]), ?_⟩
  simp only [hkey, issue, hn.full, hlen, if_false, Int.toNat_natCast, List.take_length]
  cases p.isControl with
  | true => exact ⟨rfl, ⟨h.1, h.2, h.3⟩, rfl, rfl, by simp⟩
  | false => exact ⟨rfl, ⟨h.1, h.2, rfl⟩, rfl, rfl, fun _ => rfl⟩

/-- The writes of the client, one after the other, with what the socket took. -/
def writeAll (z : SizeT) (net : Nat → Net) :
    Wsi → List (WriteProtocol × Bytes) → Except Fault (Wsi × Bytes)
  | wsi, [] => .ok (wsi, [])
  | wsi, (p, buf) :: rest => do
    let w ← libwebsocketWrite z net wsi buf p
    let (wsi, bytes) ← writeAll z net w.wsi rest
    return (wsi, w.bytes ++ bytes)

/-- A write that a server can read: it has a payload, and asks for no answer. The length of the
whole frame is an `int`. -/
structure Readable (p : WriteProtocol) (payload : Bytes) : Prop where
  silent : p.isSilent
  nonempty : payload ≠ []
  length_lt : payload.length + 14 < 2 ^ 31
  control : 126 ≤ payload.length → p.isControl = false

/-- **Round trip.** What the client writes is read by a server of the same library in the order of
the writes, each payload in pieces of the size of the server's buffer, whatever the keys are, and on
machines of any width. -/
theorem server_reads_writes (z z' : SizeT) (net net' : Nat → Net) (hlimit : 0 < limit)
    (hnet : ∀ k, (net k).Works) (writes : List (WriteProtocol × Bytes))
    (hwrites : ∀ w ∈ writes, Readable w.1 w.2) :
    ∃ client bytes server, writeAll z net (.established .client) writes = .ok (client, bytes) ∧
      Machine.run (readByte z' net' limit) (.established .serving) bytes =
        .ok (writes.flatMap fun w => (Machine.pieces limit [] w.2).flatMap (serverAnswer w.1),
          some server) ∧ server.rx.AtRest := by
  have hclient : (Wsi.established .client).Open := ⟨rfl, rfl, rfl⟩
  have hserver : (Wsi.established .serving).mode = .serving ∧
    (Wsi.established .serving).rx.AtRest := ⟨rfl, rfl, rfl⟩
  generalize Wsi.established .client = client at hclient
  generalize Wsi.established .serving = server at hserver
  induction writes generalizing client server with
  | nil => exact ⟨client, [], server, rfl, rfl, hserver.2⟩
  | cons w writes ih =>
    obtain ⟨p, buf⟩ := w
    have hw : Readable p buf := hwrites (p, buf) (by simp)
    have hlt : buf.length < 2 ^ 31 := by
      have := hw.length_lt
      omega
    obtain ⟨key, w, hwrite, hbytes, hopen, -⟩ :=
      libwebsocketWrite_full (z := z) (p := p) hclient hw.nonempty (hnet _)
    obtain ⟨server₁, hread, hmode, hrest⟩ := server_reads_frame net' key z
      (z := z') hlimit hserver.1 hserver.2 hw.silent hw.control hw.nonempty
      (lt_modulus z' hlt) (lt_modulus z hlt) (hlt.trans (by norm_num))
    obtain ⟨client', bytes, server', hall, hrun, hrest'⟩ :=
      ih (fun w hw => hwrites w (by simp [hw])) w.wsi hopen server₁ ⟨hmode, hrest⟩
    refine ⟨client', w.bytes ++ bytes, server', ?_, ?_, hrest'⟩
    · simp [writeAll, hwrite, hall]
    · rw [hbytes, Machine.run_append hread hrun, List.flatMap_cons]

/-- A text and a pong. -/
theorem server_reads_writes_sample :
    ∃ client bytes server, writeAll .bits64 sampleNet (.established .client)
        [(.text, [104, 109]), (.pong, [1])] = .ok (client, bytes) ∧
      Machine.run (readByte .bits32 sampleNet 6000) (.established .serving) bytes =
        .ok ([(.text, [104, 109]), (.pong, [1])].flatMap fun w =>
          (Machine.pieces 6000 [] w.2).flatMap (serverAnswer w.1), some server) ∧
      server.rx.AtRest :=
  server_reads_writes .bits64 .bits32 sampleNet sampleNet (by decide) sampleNet_works _
    (List.forall_mem_cons.mpr ⟨⟨rfl, by decide, by decide, fun _ => rfl⟩,
      List.forall_mem_singleton.mpr ⟨rfl, by decide, by decide, by decide⟩⟩)

end Lws

end Neof5
