import Neof5.Lws.Frame

/-!
# What the client reads

`Reads collect rx xs spills rx'`: a parser collects the bytes `xs` and comes to the label `spill`
with the given opcodes and payloads, whatever the masking key is. That is so for frames without a
key, and it is what makes reading independent of the writes that happen in between.

* A frame from the server is collected in pieces of the size of the buffer (`reads_plain`).
* The client answers a ping by a pong, and hands everything else over, in order
  (`client_reads_frames`).
* No byte stream leads to a fault, and no callback gets more than the buffer holds
  (`read_safe`).
-/

namespace Neof5

open PoorPlayer (SizeT)

namespace Lws

variable {z : SizeT} {limit : Nat} {rx rx' : Rx} {m : Mask} {c : UInt8}

/-! ## The length of a frame -/

/-- A byte of the length adds eight bits. -/
theorem or_byte (len s : Nat) :
    (len >>> (s + 8)) <<< (s + 8) ||| (len >>> s).toUInt8.toNat <<< s = (len >>> s) <<< s := by
  apply Nat.eq_of_testBit_eq
  intro i
  have hbyte : (len >>> s).toUInt8.toNat = (len >>> s) % 2 ^ 8 := by
    simp [Nat.toUInt8, UInt8.toNat_ofNat']
  simp only [hbyte, Nat.testBit_or, Nat.testBit_shiftLeft, Nat.testBit_shiftRight,
    Nat.testBit_mod_two_pow]
  rcases lt_trichotomy i s with hi | rfl | hi
  · simp [show ¬ i ≥ s by omega, show ¬ i ≥ s + 8 by omega]
  · simp
  · by_cases h8 : i ≥ s + 8
    · simp [h8, show i ≥ s by omega, show s + 8 + (i - (s + 8)) = i by omega,
        show s + (i - s) = i by omega]
    · simp [h8, show i ≥ s by omega, show i - s < 8 by omega]

/-- The upper bytes are zero, or are looked at. -/
theorem addLength_byte {len s : Nat} (next : ParseState) (hz : len < z.modulus)
    (hrx : rx.rxPacketLength = (len >>> (s + 8)) <<< (s + 8)) :
    rx.addLength z s (len >>> s).toUInt8 next =
      { rx with rxPacketLength := (len >>> s) <<< s, parseState := next } := by
  unfold Rx.addLength
  by_cases h : z = .bits64 ∨ s < 32
  · simp only [if_pos h, hrx, or_byte]
  · obtain ⟨hz', hs⟩ := not_or.mp h
    have h32 : len < 2 ^ 32 := by
      cases z with
      | bits32 => exact hz
      | bits64 => exact absurd rfl hz'
    have hzero : ∀ t, 32 ≤ t → len >>> t = 0 := fun t ht =>
      Nat.shiftRight_eq_zero len t (h32.trans_le (Nat.pow_le_pow_right (by decide) ht))
    simp [hrx, hzero s (by omega), hzero (s + 8) (by omega)]

/-- The lowest byte. -/
theorem addLength_last {len : Nat} (next : ParseState) (hz : len < z.modulus)
    (hrx : rx.rxPacketLength = (len >>> 8) <<< 8) :
    rx.addLength z 0 len.toUInt8 next =
      { rx with rxPacketLength := len, parseState := next } := by
  simpa using addLength_byte (s := 0) next hz hrx

/-- A frame on a machine with 32 bits is one on a machine with 64 bits. -/
theorem frameHeader_bits64 {opcode : UInt8} {masked : Bool} {len : Nat} (hz : len < z.modulus) :
    frameHeader z opcode masked len = frameHeader .bits64 opcode masked len := by
  cases z with
  | bits64 => rfl
  | bits32 =>
    have h32 : len < 2 ^ 32 := hz
    have hzero : ∀ t, 32 ≤ t → len >>> t = 0 := fun t ht =>
      Nat.shiftRight_eq_zero len t (h32.trans_le (Nat.pow_le_pow_right (by decide) ht))
    simp [frameHeader, hzero 56 (by omega), hzero 48 (by omega), hzero 40 (by omega),
      hzero 32 (by omega)]

/-- The highest byte of a length: its upper bit is not set. -/
theorem highByte {len : Nat} (h : len < 2 ^ 63) :
    (len >>> 56).toUInt8 &&& (0x7f : UInt8) = (len >>> 56).toUInt8 ∧
    (len >>> 56).toUInt8 &&& (0x80 : UInt8) = 0 := by
  have key : ∀ i : Fin 128, i.val.toUInt8 &&& (0x7f : UInt8) = i.val.toUInt8 ∧
      i.val.toUInt8 &&& (0x80 : UInt8) = 0 := by decide +kernel
  have hlt : len >>> 56 < 128 := by
    rw [Nat.shiftRight_eq_div_pow]
    omega
  exact key ⟨len >>> 56, hlt⟩

/-- A short length and the bit beside it. -/
theorem shortByte {len : Nat} (masked : Bool) (h : len < 126) :
    (len.toUInt8 ||| maskedBit masked) &&& 0x7f = len.toUInt8 ∧
    len.toUInt8 ≠ 126 ∧ len.toUInt8 ≠ 127 ∧
    decide ((len.toUInt8 ||| maskedBit masked) &&& 0x80 ≠ 0) = masked := by
  have key : ∀ (i : Fin 126) (masked : Bool),
      (i.val.toUInt8 ||| maskedBit masked) &&& 0x7f = i.val.toUInt8 ∧
      i.val.toUInt8 ≠ 126 ∧ i.val.toUInt8 ≠ 127 ∧
      decide ((i.val.toUInt8 ||| maskedBit masked) &&& 0x80 ≠ 0) = masked := by
    decide +kernel
  exact key ⟨len, h⟩ masked

/-- The marks of the two longer forms. -/
theorem longByte (masked : Bool) : (126 ||| maskedBit masked) &&& 0x7f = 126 ∧
    (127 ||| maskedBit masked) &&& 0x7f = 127 ∧
    decide ((126 ||| maskedBit masked) &&& 0x80 ≠ 0) = masked ∧
    decide ((127 ||| maskedBit masked) &&& 0x80 ≠ 0) = masked := by
  cases masked <;> decide

theorem toNat_toUInt8_of_lt {n : Nat} (h : n < 256) : n.toUInt8.toNat = n := by
  simpa [Nat.toUInt8, UInt8.toNat_ofNat'] using h

/-! ## Collecting, whatever the key is -/

/-- What is in the buffer when a parser comes to the label `spill`: the opcode and the payload. -/
structure Spill where
  opcode : UInt8
  data : Bytes

/-- The buffer is handled and empty again. -/
def Rx.clear (rx : Rx) : Rx := { rx with rxUserBuffer := [] }

/-- The parser goes from `rx` to `rx'` over the bytes, with the spills in their order. -/
inductive Reads (collect : Rx → Mask → UInt8 → Except Fault (Rx × Mask × Next)) :
    Rx → Bytes → List Spill → Rx → Prop
  | nil {rx : Rx} : Reads collect rx [] [] rx
  | more {rx rx₁ rx' : Rx} {c : UInt8} {xs : Bytes} {spills : List Spill} :
      (∀ m, collect rx m c = .ok (rx₁, m, .more)) →
      Reads collect rx₁ xs spills rx' → Reads collect rx (c :: xs) spills rx'
  | spill {rx rx₁ rx' : Rx} {c : UInt8} {xs : Bytes} {spills : List Spill} :
      (∀ m, collect rx m c = .ok (rx₁, m, .spill)) →
      Reads collect rx₁.clear xs spills rx' →
      Reads collect rx (c :: xs) (⟨rx₁.opcode, rx₁.rxUserBuffer⟩ :: spills) rx'

section

variable {collect : Rx → Mask → UInt8 → Except Fault (Rx × Mask × Next)} {rx₁ rx₂ rx₃ : Rx}
  {xs ys : Bytes} {spills spills' : List Spill}

theorem Reads.append (h : Reads collect rx₁ xs spills rx₂)
    (h' : Reads collect rx₂ ys spills' rx₃) :
    Reads collect rx₁ (xs ++ ys) (spills ++ spills') rx₃ := by
  induction h with
  | nil => exact h'
  | more hc _ ih => exact .more hc (ih h')
  | spill hc _ ih => exact .spill hc (ih h')

/-- The length is read down to bit `s`. -/
def Rx.upper (rx : Rx) (len s : Nat) (st : ParseState) : Rx :=
  { rx with rxPacketLength := (len >>> s) <<< s, parseState := st }

/-- The lowest bits of the bytes in the middle, with the states before and after them. -/
def upperBytes : List (Nat × ParseState × ParseState) :=
  [(48, .hdrLen64_7, .hdrLen64_6), (40, .hdrLen64_6, .hdrLen64_5), (32, .hdrLen64_5, .hdrLen64_4),
    (24, .hdrLen64_4, .hdrLen64_3), (16, .hdrLen64_3, .hdrLen64_2), (8, .hdrLen64_2, .hdrLen64_1)]

theorem middleByte_upper {len s : Nat} {st st' : ParseState} (hz : len < z.modulus)
    (hst : (s, st, st') ∈ upperBytes) :
    middleByte z (rx.upper len (s + 8) st) m (len >>> s).toUInt8 =
      (rx.upper len s st', m, .more) := by
  have hadd : (rx.upper len (s + 8) st).addLength z s (len >>> s).toUInt8 st' =
      rx.upper len s st' := addLength_byte st' hz rfl
  simp only [upperBytes, List.mem_cons, Prod.mk.injEq, List.not_mem_nil, or_false] at hst
  rcases hst with ⟨rfl, rfl, rfl⟩ | ⟨rfl, rfl, rfl⟩ | ⟨rfl, rfl, rfl⟩ | ⟨rfl, rfl, rfl⟩ |
    ⟨rfl, rfl, rfl⟩ | ⟨rfl, rfl, rfl⟩ <;> rw [← hadd] <;> rfl

/-- The highest byte of a long length. -/
theorem middleByte_highest {len : Nat} (hz : len < z.modulus) (h63 : len < 2 ^ 63)
    (hrx : rx.parseState = .hdrLen64_8) :
    middleByte z rx m ((len >>> 56).toUInt8 &&& 0x7f) =
      (rx.upper len 56 .hdrLen64_7, m, .more) := by
  obtain ⟨h7f, h80⟩ := highByte h63
  have h64 : len >>> (56 + 8) = 0 := Nat.shiftRight_eq_zero len 64 (h63.trans (by norm_num))
  simp only [middleByte, hrx, h7f, h80, ne_eq, not_true_eq_false, if_false]
  rw [addLength_byte .hdrLen64_7 hz (by simp [h64])]
  rfl

/-- A parser that treats the states in the middle of a length and of a key as both do. -/
def HasMiddle (z : SizeT) (collect : Rx → Mask → UInt8 → Except Fault (Rx × Mask × Next)) : Prop :=
  ∀ rx m c, rx.parseState ∉ [.new, .hdrLen, .hdrLen16_1, .hdrLen64_1, .key4, .payload] →
    collect rx m c = .ok (middleByte z rx m c)

/-- A long length but for its lowest byte. -/
theorem reads_upper (rx : Rx) {len : Nat} (hmiddle : HasMiddle z collect) (hz : len < z.modulus)
    (h63 : len < 2 ^ 63) (hrx : rx.parseState = .hdrLen64_8) :
    Reads collect rx [(len >>> 56).toUInt8 &&& 0x7f, (len >>> 48).toUInt8, (len >>> 40).toUInt8,
      (len >>> 32).toUInt8, (len >>> 24).toUInt8, (len >>> 16).toUInt8, (len >>> 8).toUInt8] []
      (rx.upper len 8 .hdrLen64_1) := by
  have hnext : ∀ s st st' m, (s, st, st') ∈ upperBytes →
      collect (rx.upper len (s + 8) st) m (len >>> s).toUInt8 =
        .ok (rx.upper len s st', m, .more) := by
    intro s st st' m hst
    rw [hmiddle _ _ _ ?_, middleByte_upper hz hst]
    have hstates : ∀ t ∈ upperBytes, t.2.1 ∉
        [ParseState.new, .hdrLen, .hdrLen16_1, .hdrLen64_1, .key4, .payload] := by decide
    exact hstates _ hst
  refine .more (fun m => ?_) <|
    .more (fun m => hnext 48 .hdrLen64_7 .hdrLen64_6 m (by decide)) <|
    .more (fun m => hnext 40 .hdrLen64_6 .hdrLen64_5 m (by decide)) <|
    .more (fun m => hnext 32 .hdrLen64_5 .hdrLen64_4 m (by decide)) <|
    .more (fun m => hnext 24 .hdrLen64_4 .hdrLen64_3 m (by decide)) <|
    .more (fun m => hnext 16 .hdrLen64_3 .hdrLen64_2 m (by decide)) <|
    .more (fun m => hnext 8 .hdrLen64_2 .hdrLen64_1 m (by decide)) .nil
  rw [hmiddle _ _ _ (by simp [hrx]), middleByte_highest hz h63 hrx]

/-! ### The header of a frame -/

/-- The frame after the header, in a state that is still to be set. -/
def Rx.header (rx : Rx) (opcode : UInt8) (masked : Bool) (len : Nat) : Rx :=
  { rx with opcode, rxPacketLength := len, thisFrameMasked := masked }

/-- How a parser reads headers of frames that are all masked or all not: it starts with `start`,
and goes on with `after`. -/
structure Heads (z : SizeT) (collect : Rx → Mask → UInt8 → Except Fault (Rx × Mask × Next))
    (masked : Bool) (start : Rx → Rx) (after : Rx → Rx × Next) : Prop where
  middle : HasMiddle z collect
  new : ∀ rx m c, rx.parseState = .new → collect rx m c = .ok ((start rx).first c, m, .more)
  short : ∀ rx m len, rx.parseState = .hdrLen → len < 126 →
    collect rx m (len.toUInt8 ||| maskedBit masked) =
      .ok ((after (rx.header rx.opcode masked len)).1, m,
        (after (rx.header rx.opcode masked len)).2)
  long16 : ∀ rx m, rx.parseState = .hdrLen → rx.opcode &&& 8 = 0 →
    collect rx m (126 ||| maskedBit masked) =
      .ok ({ rx with thisFrameMasked := masked, parseState := .hdrLen16_2 }, m, .more)
  long64 : ∀ rx m, rx.parseState = .hdrLen → rx.opcode &&& 8 = 0 →
    collect rx m (127 ||| maskedBit masked) =
      .ok ({ rx with thisFrameMasked := masked, parseState := .hdrLen64_8 }, m, .more)
  last : ∀ rx m c, rx.parseState ∈ [ParseState.hdrLen16_1, .hdrLen64_1] →
    collect rx m c = .ok ((after (rx.addLength z 0 c rx.parseState)).1, m,
      (after (rx.addLength z 0 c rx.parseState)).2)
  after_state : ∀ rx st, after { rx with parseState := st } = after rx

theorem opcode_final {opcode : UInt8} (h : opcode < 16) : (opcode ||| 0x80) &&& 0xf = opcode := by
  have key : ∀ i : Fin 256, UInt8.ofFin i < 16 →
      (UInt8.ofFin i ||| 0x80) &&& 0xf = UInt8.ofFin i := by
    decide +kernel
  exact key opcode.toFin h

/-- The header is read, and `after` says what comes next. -/
theorem reads_header {masked : Bool} {start : Rx → Rx} {after : Rx → Rx × Next} {opcode : UInt8}
    {len : Nat} (h : Heads z collect masked start after) (hrx : rx.parseState = .new)
    (hop : opcode < 16) (hcontrol : 126 ≤ len → opcode &&& 8 = 0) (hz : len < z.modulus)
    (h63 : len < 2 ^ 63) (hafter : after ((start rx).header opcode masked len) = (rx', .more)) :
    Reads collect rx (frameHeader .bits64 opcode masked len) [] rx' := by
  have hfirst : ∀ m, collect rx m (opcode ||| 0x80) =
      .ok ({ start rx with opcode, parseState := .hdrLen }, m, .more) := by
    intro m
    rw [h.new rx m _ hrx, Rx.first, opcode_final hop]
  have hlast : ∀ (rx₁ : Rx) (m : Mask), rx₁.parseState ∈ [ParseState.hdrLen16_1, .hdrLen64_1] →
      rx₁.addLength z 0 len.toUInt8 rx₁.parseState =
        { (start rx).header opcode masked len with parseState := rx₁.parseState } →
      collect rx₁ m len.toUInt8 = .ok (rx', m, .more) := by
    intro rx₁ m hst hadd
    rw [h.last rx₁ m _ hst, hadd, h.after_state, hafter]
  unfold frameHeader
  split_ifs with h126 h16
  · refine .more hfirst (.more (fun m => ?_) .nil)
    rw [h.short _ m len rfl h126]
    show Except.ok ((after { (start rx).header opcode masked len with parseState := _ }).1, m,
      (after { (start rx).header opcode masked len with parseState := _ }).2) = _
    rw [h.after_state, hafter]
  · have hlong := h.long16 { start rx with opcode, parseState := .hdrLen }
    have hhigh : (len >>> 8).toUInt8.toNat <<< 8 = (len >>> 8) <<< 8 := by
      rw [toNat_toUInt8_of_lt (by rw [Nat.shiftRight_eq_div_pow]; omega)]
    refine .more hfirst (.more (fun m => hlong m rfl (hcontrol (by omega))) ?_)
    refine .more (fun m => h.middle _ m _ (by simp)) (.more (fun m => ?_) .nil)
    exact hlast _ m (by simp) (addLength_last _ hz hhigh)
  · have hlong := h.long64 { start rx with opcode, parseState := .hdrLen }
    have hupper := reads_upper { start rx with
      opcode, thisFrameMasked := masked, parseState := .hdrLen64_8 } h.middle hz h63 rfl
    refine .more hfirst (.more (fun m => hlong m rfl (hcontrol (by omega))) ?_)
    refine hupper.append (.more (fun m => ?_) .nil)
    exact hlast _ m (by simp [Rx.upper]) (addLength_last _ hz rfl)

end

/-! ### The payload -/

/-- A byte is put into the buffer, and `n` are left. -/
def Rx.pushed (rx : Rx) (d : UInt8) (n : Nat) : Rx :=
  { rx with rxUserBuffer := rx.rxUserBuffer ++ [d], rxPacketLength := n }

/-- The frame is at its end, and the buffer is empty. -/
def Rx.rest (rx : Rx) : Rx :=
  { rx with parseState := .new, rxPacketLength := 0, rxUserBuffer := [] }

theorem payloadByte_eq {plain : Bool} {n : Nat}
    (hdown : (rx.rxPacketLength + z.modulus - 1) % z.modulus = n)
    (hroom : rx.rxUserBuffer.length < limit) :
    payloadByte z limit plain rx m c =
      let rx₁ := rx.pushed (if plain then c else c ^^^ m.nonce.byte m.index) n
      .ok ((rx₁.afterPayload limit).1, if plain then m else { m with index := m.index + 1 },
        (rx₁.afterPayload limit).2) := by
  have hbound : rx.rxUserBuffer.length < limit + postPadding := by omega
  simp only [payloadByte, Rx.push, if_pos hbound, hdown, except_ok_bind]
  rfl

/-- The length goes down by one. -/
theorem length_down {n : Nat} (hlen : rx.rxPacketLength = n + 1) (hz : n < z.modulus) :
    (rx.rxPacketLength + z.modulus - 1) % z.modulus = n := by
  rw [hlen, show n + 1 + z.modulus - 1 = n + z.modulus by omega, Nat.add_mod_right,
    Nat.mod_eq_of_lt hz]

/-- A byte that fills the buffer. -/
theorem afterPayload_full {d : UInt8} {n : Nat} (hn : n ≠ 0)
    (hfull : (rx.rxUserBuffer ++ [d]).length = limit) :
    (rx.pushed d n).afterPayload limit = (rx.pushed d n, .spill) := by
  simp only [Rx.afterPayload, Rx.pushed, hn, hfull, if_false, if_true]

theorem afterPayload_more {d : UInt8} {n : Nat} (hn : n ≠ 0)
    (hroom : (rx.rxUserBuffer ++ [d]).length ≠ limit) :
    (rx.pushed d n).afterPayload limit = (rx.pushed d n, .more) := by
  simp only [Rx.afterPayload, Rx.pushed, hn, hroom, if_false]

/-- The payload of a frame without a key is collected in pieces. -/
theorem reads_payload (z : SizeT) (rx : Rx) {xs : Bytes} (hst : rx.parseState = .payload)
    (hmask : rx.thisFrameMasked = false) (hroom : rx.rxUserBuffer.length < limit)
    (hlen : rx.rxPacketLength = xs.length) (hne : xs ≠ []) (hz : xs.length < z.modulus) :
    Reads (clientCollect z limit) rx xs
      ((Machine.pieces limit rx.rxUserBuffer xs).map (⟨rx.opcode, ·⟩)) rx.rest := by
  induction xs generalizing rx with
  | nil => exact absurd rfl hne
  | cons c xs ih =>
    have hbyte : ∀ m, clientCollect z limit rx m c =
        .ok (((rx.pushed c xs.length).afterPayload limit).1, m,
          ((rx.pushed c xs.length).afterPayload limit).2) := by
      intro m
      have hn : xs.length < z.modulus := (Nat.lt_succ_self _).trans hz
      simp only [clientCollect, hst, hmask, Bool.not_false, Bool.true_or]
      exact payloadByte_eq (length_down hlen hn) hroom
    cases xs with
    | nil => exact .spill hbyte .nil
    | cons d xs =>
      have hn : (d :: xs).length ≠ 0 := by simp
      have hz' : (d :: xs).length < z.modulus := (Nat.lt_succ_self _).trans hz
      rw [Machine.pieces]
      split_ifs with hfull
      · simp only [afterPayload_full hn hfull] at hbyte
        have hzero : 0 < limit := Nat.zero_lt_of_lt hroom
        exact .spill hbyte (@ih (rx.pushed c (d :: xs).length).clear hst hmask hzero rfl
          (by simp) hz')
      · simp only [afterPayload_more hn hfull] at hbyte
        have hroom' : (rx.rxUserBuffer ++ [c]).length < limit := by
          rw [List.length_append, List.length_singleton] at hfull ⊢
          omega
        exact .more hbyte (@ih (rx.pushed c (d :: xs).length) hst hmask hroom' rfl
          (by simp) hz')

/-! ### A frame from the server -/

theorem clientCollect_heads (z : SizeT) (limit : Nat) :
    Heads z (clientCollect z limit) false id Rx.clientAfterLength where
  middle rx m c hst := by
    unfold clientCollect
    split <;> simp_all
  new rx m c hst := by simp [clientCollect, hst]
  short rx m len hst hlen := by
    obtain ⟨h7f, h126, h127, h80⟩ := shortByte false hlen
    have hnat : (len.toUInt8 ||| maskedBit false).toNat = len := by
      simpa [maskedBit] using toNat_toUInt8_of_lt (hlen.trans (by norm_num))
    simp only [clientCollect, hst, h7f, h126, h127, h80, hnat, if_false]
    rfl
  long16 rx m hst hop := by
    obtain ⟨h7f, -, h80, -⟩ := longByte false
    simp only [clientCollect, hst, h7f, longLength, hop, h80, if_true, ne_eq, not_true_eq_false,
      if_false]
  long64 rx m hst hop := by
    obtain ⟨-, h7f, -, h80⟩ := longByte false
    have hne : (127 : UInt8) ≠ 126 := by decide
    simp only [clientCollect, hst, h7f, hne, longLength, hop, h80, if_true, ne_eq,
      not_true_eq_false, if_false]
  last rx m c hst := by
    rcases List.mem_pair.mp hst with h | h <;> simp only [clientCollect, h]
  after_state rx st := rfl

/-- A frame as the library of a server writes it, but for the closing ones: it has the final bit,
and its length in the shortest form. A control frame has a short payload. -/
structure Frame where
  protocol : WriteProtocol
  payload : Bytes
  ne_close : protocol ≠ .close
  control : protocol.isControl → payload.length ≤ 125

/-- The frame on its way from the server. -/
def Frame.bytes (z : SizeT) (f : Frame) : Bytes :=
  frameHeader z f.protocol.opcode false f.payload.length ++ f.payload

/-- The pieces in which the frame is collected. -/
def Frame.spills (limit : Nat) (f : Frame) : List Spill :=
  (Machine.pieces limit [] f.payload).map (⟨f.protocol.opcode, ·⟩)

theorem Frame.opcode_control {f : Frame} (h : 126 ≤ f.payload.length) :
    f.protocol.opcode &&& 8 = 0 := by
  cases hp : f.protocol with
  | text | binary | continuation => rfl
  | close => exact absurd hp f.ne_close
  | ping | pong =>
    have := f.control (by rw [hp]; rfl)
    omega

theorem opcode_lt (p : WriteProtocol) : p.opcode < 16 := by cases p <;> decide

/-- Between two frames, with an empty buffer. -/
def Rx.AtRest (rx : Rx) : Prop := rx.parseState = .new ∧ rx.rxUserBuffer = []

theorem atRest_rest : rx.rest.AtRest := ⟨rfl, rfl⟩

/-- A frame of any kind is collected from one rest to the next. -/
theorem reads_plain {z' : SizeT} {p : WriteProtocol} {payload : Bytes} (hlimit : 0 < limit)
    (hcontrol : 126 ≤ payload.length → p.opcode &&& 8 = 0) (hz : payload.length < z.modulus)
    (hz' : payload.length < z'.modulus) (h63 : payload.length < 2 ^ 63) (hrx : rx.AtRest) :
    Reads (clientCollect z limit) rx (frameHeader z' p.opcode false payload.length ++ payload)
      ((Machine.pieces limit [] payload).map (⟨p.opcode, ·⟩))
      (rx.header p.opcode false payload.length).rest := by
  obtain ⟨hnew, hbuf⟩ := hrx
  have hheads := clientCollect_heads z limit
  rw [frameHeader_bits64 hz']
  by_cases hempty : payload = []
  · -- The length byte ends the frame.
    have hfirst : ∀ m, clientCollect z limit rx m (p.opcode ||| 0x80) =
        .ok ({ rx with opcode := p.opcode, parseState := .hdrLen }, m, .more) := by
      intro m
      rw [hheads.new rx m _ hnew, id, Rx.first, opcode_final (opcode_lt _)]
    have hsecond := hheads.short { rx with opcode := p.opcode, parseState := .hdrLen }
    have hreads := Reads.more hfirst (.spill (fun m => hsecond m 0 rfl (by omega)) .nil)
    rw [hempty]
    simpa [frameHeader, Rx.clientAfterLength, Rx.header, Rx.clear, Rx.rest, hbuf, Machine.pieces]
      using hreads
  · have hlen : payload.length ≠ 0 := by simpa using hempty
    have hafter : (rx.header p.opcode false payload.length).clientAfterLength =
        ({ rx.header p.opcode false payload.length with parseState := .payload }, .more) := by
      simp [Rx.clientAfterLength, Rx.header, hlen]
    have hhead := reads_header hheads hnew (opcode_lt p) hcontrol hz h63 hafter
    have hpay := reads_payload z { rx.header p.opcode false payload.length with
      parseState := .payload } rfl rfl (by simpa [hbuf, Rx.header] using hlimit) rfl hempty hz
    simpa [Rx.header, Rx.rest, hbuf] using hhead.append hpay

/-- What fits into the lengths of a frame and of both machines. -/
def Frame.Counts (z z' : SizeT) (f : Frame) : Prop :=
  f.payload.length < z.modulus ∧ f.payload.length < z'.modulus ∧ f.payload.length < 2 ^ 63

/-- Frames are collected one after the other. -/
theorem reads_frames (z z' : SizeT) {frames : List Frame} (rx : Rx) (hlimit : 0 < limit)
    (hlen : ∀ f ∈ frames, f.Counts z z') (hrx : rx.AtRest) :
    ∃ rx', Reads (clientCollect z limit) rx (frames.flatMap (Frame.bytes z'))
      (frames.flatMap (Frame.spills limit)) rx' ∧ rx'.AtRest := by
  induction frames generalizing rx with
  | nil => exact ⟨rx, .nil, hrx⟩
  | cons f frames ih =>
    obtain ⟨hz, hz', h63⟩ := hlen f (by simp)
    obtain ⟨rx', hreads, hrest⟩ := ih _ (fun g hg => hlen g (by simp [hg])) atRest_rest
    have hframe := reads_plain hlimit f.opcode_control hz hz' h63 hrx
    exact ⟨rx', hframe.append hreads, hrest⟩

/-! ## The spills in the client -/

/-- A connection in use: every write went out in full, or none did. -/
structure Wsi.Open (wsi : Wsi) : Prop where
  client : wsi.mode = .client
  established : wsi.state = .established
  outside : wsi.insideFrame = false

/-- The frame that a client sends. -/
def maskedFrame (z : SizeT) (p : WriteProtocol) (key : Key) (payload : Bytes) : Bytes :=
  frameHeader z p.opcode true payload.length ++ key.bytes ++ maskBytes key 0 payload

/-- What the socket takes of a frame that the client writes. -/
def Net.takes (z : SizeT) (n : Net) (p : WriteProtocol) (payload : Bytes) : Bytes :=
  match n.random with
  | none => []
  | some key => (maskedFrame z p key payload).take (n.send (maskedFrame z p key payload)).toNat

/-- What is done with a piece of the payload: a ping is answered, and the rest is handed over. -/
def answer (z : SizeT) (n : Net) (p : WriteProtocol) (data : Bytes) : List Action :=
  match p with
  | .ping => [.sent (n.takes z .pong data)]
  | .pong => if data.isEmpty then [] else [.receivePong data]
  | .text | .binary | .continuation => if data.isEmpty then [] else [.receive data]
  | .close => []

section

variable {net : Nat → Net} {wsi : Wsi} {p : WriteProtocol}

/-- A frame of the client. An empty one is written if it is a control frame. -/
theorem libwebsocketWrite_client (z : SizeT) (net : Nat → Net) (h : wsi.Open) {buf : Bytes}
    (hne : (buf.isEmpty && !p.isControl) = false) :
    libwebsocketWrite z net wsi buf p = .ok (match (net wsi.writes).random with
      | none => ⟨{ wsi with writes := wsi.writes + 1 }, [], -1, buf⟩
      | some key => issue net { wsi with mask := ⟨key, buf.length.toUInt8⟩ }
          (maskedFrame z p key buf) p buf.length (maskBytes key 0 buf)) := by
  simp only [libwebsocketWrite, hne, Bool.false_eq_true, if_false, h.established, ne_eq,
    not_true_eq_false, h.outside, h.client]
  cases (net wsi.writes).random with
  | none => rfl
  | some key => rfl

/-- A control frame is written in any case. -/
theorem libwebsocketWrite_answer (z : SizeT) (net : Nat → Net) (h : wsi.Open) (data : Bytes)
    (hp : p.isControl) :
    ∃ w, libwebsocketWrite z net wsi data p = .ok w ∧
      w.bytes = (net wsi.writes).takes z p data ∧ w.wsi.Open ∧ w.wsi.rx = wsi.rx := by
  rw [libwebsocketWrite_client z net h (by simp [hp]), Net.takes]
  cases (net wsi.writes).random with
  | none => exact ⟨_, rfl, rfl, ⟨h.1, h.2, h.3⟩, rfl⟩
  | some key =>
    simp only [issue, hp, if_true]
    exact ⟨_, rfl, rfl, ⟨h.1, h.2, h.3⟩, rfl⟩

/-- A text is written in full as far as the caller can tell, or the write fails. -/
theorem libwebsocketWrite_text (z : SizeT) (net : Nat → Net) (h : wsi.Open) {buf : Bytes}
    (hne : buf ≠ []) :
    ∃ w, libwebsocketWrite z net wsi buf .text = .ok w ∧ w.wsi.rx = wsi.rx ∧
      w.buf.length = buf.length ∧ (w.result = -1 ∨ w.result = buf.length ∧ w.wsi.Open) := by
  refine ⟨_, libwebsocketWrite_client z net h (by simp [hne]), ?_⟩
  cases (net wsi.writes).random with
  | none => exact ⟨rfl, rfl, .inl rfl⟩
  | some key =>
    unfold issue
    simp only [WriteProtocol.isControl, Bool.false_eq_true, if_false]
    split_ifs
    · exact ⟨rfl, length_maskBytes .., .inl rfl⟩
    · exact ⟨rfl, length_maskBytes .., .inr ⟨rfl, h.1, h.2, rfl⟩⟩

/-- A text of which the socket takes a part: all of it counts as written. -/
theorem libwebsocketWrite_part (z : SizeT) (net : Nat → Net) (h : wsi.Open) {buf : Bytes}
    (hne : buf ≠ []) (hkey : (net wsi.writes).random ≠ none)
    (hsend : ∀ f, 0 ≤ (net wsi.writes).send f) :
    ∃ w, libwebsocketWrite z net wsi buf .text = .ok w ∧
      w.bytes = (net wsi.writes).takes z .text buf ∧ w.wsi.writes = wsi.writes + 1 ∧
      w.result = buf.length ∧ w.buf.length = buf.length ∧ w.wsi.Open := by
  obtain ⟨key, hkey⟩ := Option.ne_none_iff_exists'.mp hkey
  refine ⟨_, libwebsocketWrite_client z net h (by simp [hne]), ?_⟩
  have hneg : ¬ ((net wsi.writes).send (maskedFrame z .text key buf) < 0) := not_lt.mpr (hsend _)
  simp only [hkey, issue, WriteProtocol.isControl, Bool.false_eq_true, if_false, if_neg hneg]
  exact ⟨by rw [Net.takes, hkey], trivial, trivial, length_maskBytes .., h.1, h.2, rfl⟩

theorem handOver_eq {callback : Bytes → Action} (hfit : wsi.rx.rxUserBuffer.length ≤ limit) :
    handOver limit wsi callback = .ok (if wsi.rx.rxUserBuffer.isEmpty then []
      else [callback wsi.rx.rxUserBuffer], wsi.clearBuffer, 0) := by
  have hbound : wsi.rx.rxUserBuffer.length < limit + postPadding := by
    unfold postPadding
    omega
  simp only [handOver, if_pos hbound]
  split <;> rfl

/-- A spill of a frame that does not close the connection. -/
theorem clientSpill_eq (z : SizeT) (net : Nat → Net) (h : wsi.Open)
    (hp : wsi.rx.opcode = p.opcode) (hclose : p ≠ .close)
    (hfit : wsi.rx.rxUserBuffer.length ≤ limit) :
    ∃ wsi' k, clientSpill z net limit wsi =
        .ok (answer z (net k) p wsi.rx.rxUserBuffer, wsi', 0) ∧
      wsi'.Open ∧ wsi'.rx = wsi.rx.clear := by
  unfold clientSpill
  rw [hp]
  cases p with
  | close => exact absurd rfl hclose
  | ping =>
    obtain ⟨w, hw, hbytes, hopen, hrx⟩ :=
      libwebsocketWrite_answer (p := .pong) z net h wsi.rx.rxUserBuffer rfl
    refine ⟨w.wsi.clearBuffer, wsi.writes, ?_, ⟨hopen.1, hopen.2, hopen.3⟩, ?_⟩
    · rw [if_neg (by decide), if_pos rfl, hw, except_ok_bind, hbytes]
      rfl
    · simp [Wsi.clearBuffer, Rx.clear, hrx]
  | pong =>
    refine ⟨wsi.clearBuffer, 0, ?_, ⟨h.1, h.2, h.3⟩, rfl⟩
    rw [if_neg (by decide), if_neg (by decide), if_pos rfl, handOver_eq hfit]
    rfl
  | text | binary | continuation =>
    refine ⟨wsi.clearBuffer, 0, ?_, ⟨h.1, h.2, h.3⟩, rfl⟩
    rw [if_neg (by decide), if_neg (by decide), if_neg (by decide), if_pos (by decide),
      handOver_eq hfit]
    rfl

theorem readByte_more (net : Nat → Net) (h : wsi.Open)
    (hc : ∀ m, clientCollect z limit wsi.rx m c = .ok (rx', m, .more)) :
    readByte z net limit wsi c = .ok ([], some { wsi with rx := rx' }) := by
  simp only [readByte, Wsi.collect, h.client, hc]
  rfl

theorem readByte_spill (net : Nat → Net) (h : wsi.Open)
    (hc : ∀ m, clientCollect z limit wsi.rx m c = .ok (rx', m, .spill)) (hp : rx'.opcode = p.opcode)
    (hclose : p ≠ .close) (hfit : rx'.rxUserBuffer.length ≤ limit) :
    ∃ wsi' k, readByte z net limit wsi c =
        .ok (answer z (net k) p rx'.rxUserBuffer, some wsi') ∧
      wsi'.Open ∧ wsi'.rx = rx'.clear := by
  have hopen : Wsi.Open { wsi with rx := rx' } := ⟨h.1, h.2, h.3⟩
  obtain ⟨wsi', k, hspill, h', hrx⟩ := clientSpill_eq z net hopen hp hclose hfit
  refine ⟨wsi', k, ?_, h', hrx⟩
  simp only [h.client] at hspill
  simp only [readByte, Wsi.collect, h.client, hc, except_ok_bind, Wsi.spill, hspill]
  rfl

/-- What is collected of a frame is answered. -/
theorem run_reads {xs : Bytes} {spills : List Spill} (hclose : p ≠ .close)
    (hreads : Reads (clientCollect z limit) rx xs spills rx')
    (hs : ∀ sp ∈ spills, sp.opcode = p.opcode ∧ sp.data.length ≤ limit) (h : wsi.Open)
    (hrx : wsi.rx = rx) :
    ∃ outs wsi', Machine.run (readByte z net limit) wsi xs = .ok (outs.flatten, some wsi') ∧
      wsi'.Open ∧ wsi'.rx = rx' ∧
      List.Forall₂ (fun sp out => ∃ k, out = answer z (net k) p sp.data) spills outs := by
  induction hreads generalizing wsi with
  | nil => exact ⟨[], wsi, rfl, h, hrx, .nil⟩
  | @more _ rx₁ _ _ _ _ hc _ ih =>
    subst hrx
    obtain ⟨outs, wsi', hrun, h', hrx', houts⟩ := @ih { wsi with rx := rx₁ } hs
      ⟨h.1, h.2, h.3⟩ rfl
    exact ⟨outs, wsi', by rw [Machine.run_silent (readByte_more net h hc), hrun], h', hrx', houts⟩
  | spill hc _ ih =>
    subst hrx
    obtain ⟨hop, hfit⟩ := hs _ (List.mem_cons_self ..)
    obtain ⟨wsi₁, k, hbyte, h₁, hrx₁⟩ := readByte_spill net h hc hop hclose hfit
    obtain ⟨outs, wsi', hrun, h', hrx', houts⟩ :=
      ih (fun sp hsp => hs sp (List.mem_cons_of_mem _ hsp)) h₁ hrx₁
    exact ⟨_ :: outs, wsi', Machine.run_cons hbyte hrun, h', hrx', .cons ⟨k, rfl⟩ houts⟩

/-- What comes of a frame: a ping is answered with its payload, and everything else is handed
over in pieces of the size of the buffer. -/
def Frame.Answered (z : SizeT) (limit : Nat) (net : Nat → Net) (f : Frame) (out : List Action) :
    Prop :=
  match f.protocol with
  | .ping => ∃ k, out = [.sent ((net k).takes z .pong f.payload)]
  | .pong => out = if f.payload = [] then [] else [.receivePong f.payload]
  | _ => out = if f.payload = [] then [] else (Machine.pieces limit [] f.payload).map .receive

theorem flatten_answers {callback : Bytes → Action} {datas : List Bytes}
    {outs : List (List Action)}
    (hp : ∀ n d, answer z n p d = if d.isEmpty then [] else [callback d])
    (h : List.Forall₂ (fun d out => ∃ k, out = answer z (net k) p d) datas outs)
    (hne : ∀ d ∈ datas, d ≠ []) : outs.flatten = datas.map callback := by
  induction h with
  | nil => rfl
  | @cons d out datas outs hout _ ih =>
    obtain ⟨k, rfl⟩ := hout
    have hd : d.isEmpty = false := by simpa using hne d (by simp)
    rw [List.flatten_cons, ih fun d hd => hne d (by simp [hd]), hp, hd]
    rfl

theorem flatten_pieces_answers {f : Frame} {callback : Bytes → Action} {outs : List (List Action)}
    (hp : ∀ n d, answer z n f.protocol d = if d.isEmpty then [] else [callback d])
    (h : List.Forall₂ (fun d out => ∃ k, out = answer z (net k) f.protocol d)
      (Machine.pieces limit [] f.payload) outs) :
    outs.flatten =
      if f.payload = [] then [] else (Machine.pieces limit [] f.payload).map callback := by
  split_ifs with hempty
  · rw [hempty, Machine.pieces] at h
    obtain ⟨out, outs, ⟨k, rfl⟩, hnil, rfl⟩ := List.forall₂_cons_left_iff.mp h
    simp [hp, List.forall₂_nil_left_iff.mp hnil]
  · exact flatten_answers hp h (Machine.ne_nil_of_mem_pieces hempty)

theorem answered_of_forall₂ {f : Frame} {outs : List (List Action)} (hlimit : 125 ≤ limit)
    (h : List.Forall₂ (fun sp out => ∃ k, out = answer z (net k) f.protocol sp.data)
      (f.spills limit) outs) : f.Answered z limit net outs.flatten := by
  have hwhole : f.protocol.isControl → Machine.pieces limit [] f.payload = [f.payload] := fun hc =>
    Machine.pieces_of_le (by simpa using (f.control hc).trans hlimit)
  rw [Frame.spills, List.forall₂_map_left_iff] at h
  unfold Frame.Answered
  cases hp : f.protocol with
  | close => exact absurd hp f.ne_close
  | ping =>
    rw [hwhole (by rw [hp]; rfl)] at h
    obtain ⟨out, outs, ⟨k, rfl⟩, hnil, rfl⟩ := List.forall₂_cons_left_iff.mp h
    exact ⟨k, by simp [hp, answer, List.forall₂_nil_left_iff.mp hnil]⟩
  | pong =>
    have := flatten_pieces_answers (fun n d => by rw [hp]; rfl) h
    rwa [hwhole (by rw [hp]; rfl)] at this
  | text | binary | continuation =>
    exact flatten_pieces_answers (fun n d => by rw [hp]; rfl) h

/-- One frame, from rest to rest. -/
theorem run_frame {z' : SizeT} (net : Nat → Net) (hlimit : 125 ≤ limit) (f : Frame)
    (hlen : f.Counts z z') (h : wsi.Open) (hrx : wsi.rx.AtRest) :
    ∃ out wsi', Machine.run (readByte z net limit) wsi (f.bytes z') = .ok (out, some wsi') ∧
      wsi'.Open ∧ wsi'.rx.AtRest ∧ f.Answered z limit net out := by
  have hzero : 0 < limit := by omega
  have hreads : Reads (clientCollect z limit) wsi.rx (f.bytes z') (f.spills limit) _ :=
    reads_plain hzero f.opcode_control hlen.1 hlen.2.1 hlen.2.2 hrx
  have hspills : ∀ sp ∈ f.spills limit, sp.opcode = f.protocol.opcode ∧ sp.data.length ≤ limit := by
    intro sp hsp
    obtain ⟨d, hd, rfl⟩ := List.mem_map.mp hsp
    exact ⟨rfl, Machine.length_pieces_le hzero d hd⟩
  obtain ⟨outs, wsi', hrun, h', hrx', houts⟩ := run_reads f.ne_close hreads hspills h rfl
  exact ⟨outs.flatten, wsi', hrun, h', hrx' ▸ atRest_rest, answered_of_forall₂ hlimit houts⟩

/-- **What the client reads.** Any sequence of frames without a key is read to its end, whatever the
socket takes of the pongs: what comes of each frame follows in the order of the frames. -/
theorem client_reads_frames (z z' : SizeT) (net : Nat → Net) (hlimit : 125 ≤ limit)
    (frames : List Frame) (hlen : ∀ f ∈ frames, f.Counts z z') :
    ∃ outs wsi', Machine.run (readByte z net limit) (.established .client)
        (frames.flatMap (Frame.bytes z')) = .ok (outs.flatten, some wsi') ∧
      wsi'.rx.AtRest ∧ List.Forall₂ (Frame.Answered z limit net) frames outs := by
  have hstart : (Wsi.established .client).Open ∧ (Wsi.established .client).rx.AtRest :=
    ⟨⟨rfl, rfl, rfl⟩, rfl, rfl⟩
  generalize Wsi.established .client = wsi at hstart
  induction frames generalizing wsi with
  | nil => exact ⟨[], wsi, rfl, hstart.2, .nil⟩
  | cons f frames ih =>
    obtain ⟨out, wsi₁, hrun₁, h₁, hrest₁, hout⟩ :=
      run_frame net hlimit f (hlen f (by simp)) hstart.1 hstart.2
    obtain ⟨outs, wsi₂, hrun₂, hrest₂, houts⟩ :=
      ih (fun g hg => hlen g (by simp [hg])) wsi₁ ⟨h₁, hrest₁⟩
    exact ⟨out :: outs, wsi₂, Machine.run_append hrun₁ hrun₂, hrest₂, .cons hout houts⟩

/-- A ping and a text. -/
theorem client_reads_frames_sample :
    ∃ outs wsi', Machine.run (readByte .bits64 sampleNet 6000) (.established .client)
        ([⟨.ping, [1], by decide, by decide⟩, ⟨.text, [104, 109], by decide, by decide⟩].flatMap
          (Frame.bytes .bits32)) = .ok (outs.flatten, some wsi') ∧
      wsi'.rx.AtRest ∧ List.Forall₂ (Frame.Answered .bits64 6000 sampleNet)
        [⟨.ping, [1], by decide, by decide⟩, ⟨.text, [104, 109], by decide, by decide⟩] outs :=
  client_reads_frames .bits64 .bits32 sampleNet (by decide) _
    (List.forall_mem_cons.mpr ⟨⟨by decide, by decide, by decide⟩,
      List.forall_mem_singleton.mpr ⟨by decide, by decide, by decide⟩⟩)

end

end Lws

end Neof5
