import Neof5.Lws.Parse

/-!
# No byte stream leads to a fault

The parsers of both sides are safe for every stream of bytes, also for one that no server or client
would send. The buffer is never full after a byte (`Wsi.Safe`), so the next byte finds room in it,
a callback gets at most what the buffer holds and has room for the zero behind it, and a control
frame that is sent back fits with its header into the padding around the buffer (`read_safe`).
-/

namespace Neof5

open PoorPlayer (SizeT)

namespace Lws

variable {z : SizeT} {net : Nat → Net} {limit : Nat} {rx : Rx} {m : Mask} {c : UInt8} {wsi : Wsi}

/-- `LWS_SEND_BUFFER_PRE_PADDING` -/
def prePadding : Nat := 18

/-- The bytes have room in the buffer and the padding. -/
def Action.Fits (limit : Nat) : Action → Prop
  | .receive data | .receivePong data => 0 < data.length ∧ data.length ≤ limit
  | .sent bytes => bytes.length ≤ prePadding + limit

@[simp] theorem fits_sent {bytes : Bytes} :
    (Action.sent bytes).Fits limit ↔ bytes.length ≤ prePadding + limit := Iff.rfl

/-- There is room for a byte, and no frame was sent in part. -/
structure Wsi.Safe (limit : Nat) (wsi : Wsi) : Prop where
  room : wsi.rx.rxUserBuffer.length < limit
  outside : wsi.insideFrame = false

/-! ## Collecting -/

/-- A byte is collected without a fault, and a buffer that is not spilled has room. -/
def Collects (limit : Nat) (r : Except Fault (Rx × Mask × Next)) : Prop :=
  ∃ rx m next, r = .ok (rx, m, next) ∧ rx.rxUserBuffer.length ≤ limit ∧
    (next = .more → rx.rxUserBuffer.length < limit)

theorem collects_ok {next : Next} (h : rx.rxUserBuffer.length < limit) :
    Collects limit (.ok (rx, m, next)) := ⟨rx, m, next, rfl, h.le, fun _ => h⟩

theorem collects_pair {p : Rx × Next} (hp : p.1.rxUserBuffer = rx.rxUserBuffer)
    (h : rx.rxUserBuffer.length < limit) : Collects limit (.ok (p.1, m, p.2)) :=
  collects_ok (by rwa [hp])

theorem payloadByte_collects (plain : Bool) (h : rx.rxUserBuffer.length < limit) :
    Collects limit (payloadByte z limit plain rx m c) := by
  have hbound : rx.rxUserBuffer.length < limit + postPadding := by omega
  simp only [payloadByte, Rx.push, if_pos hbound, except_ok_bind]
  generalize hd : (if plain then c else c ^^^ m.nonce.byte m.index) = d
  have hle : (rx.rxUserBuffer ++ [d]).length ≤ limit := by
    rw [List.length_append, List.length_singleton]
    exact h
  refine ⟨_, _, _, rfl, ?_, ?_⟩ <;> unfold Rx.afterPayload
  · split_ifs <;> exact hle
  · split_ifs with hend hfull
    · intro hmore
      cases hmore
    · intro hmore
      cases hmore
    · exact fun _ => lt_of_le_of_ne hle hfull

theorem longLength_buffer (st : ParseState) :
    (longLength rx c st).1.rxUserBuffer = rx.rxUserBuffer := by
  unfold longLength
  split <;> rfl

theorem clientAfterLength_buffer : rx.clientAfterLength.1.rxUserBuffer = rx.rxUserBuffer := by
  unfold Rx.clientAfterLength
  split_ifs <;> rfl

theorem middleByte_buffer (z : SizeT) (rx : Rx) (m : Mask) (c : UInt8) :
    (middleByte z rx m c).1.rxUserBuffer = rx.rxUserBuffer := by
  unfold middleByte
  split
  case h_2 => split <;> rfl
  all_goals rfl

theorem middleByte_collects (h : rx.rxUserBuffer.length < limit) :
    Collects limit (.ok (middleByte z rx m c)) := by
  have hbuf := middleByte_buffer z rx m c
  generalize middleByte z rx m c = r at hbuf ⊢
  obtain ⟨rx', m', next⟩ := r
  exact collects_ok (by rwa [hbuf])

theorem clientCollect_collects (h : rx.rxUserBuffer.length < limit) :
    Collects limit (clientCollect z limit rx m c) := by
  unfold clientCollect
  split
  · exact collects_ok h
  · split_ifs
    · exact collects_pair (longLength_buffer _) h
    · exact collects_pair (longLength_buffer _) h
    · exact collects_pair clientAfterLength_buffer h
  · exact collects_pair clientAfterLength_buffer h
  · exact collects_pair clientAfterLength_buffer h
  · dsimp only
    split_ifs <;> exact collects_ok h
  · exact payloadByte_collects _ h
  · exact middleByte_collects h

theorem serverCollect_collects (h : rx.rxUserBuffer.length < limit) :
    Collects limit (serverCollect z limit rx m c) := by
  unfold serverCollect
  split
  · exact collects_ok h
  · split_ifs
    · exact collects_pair (longLength_buffer _) h
    · exact collects_pair (longLength_buffer _) h
    · exact collects_ok h
  · exact collects_ok h
  · exact collects_ok h
  · exact collects_ok h
  · exact payloadByte_collects _ h
  · exact middleByte_collects h

theorem collect_collects (h : wsi.rx.rxUserBuffer.length < limit) :
    Collects limit (wsi.collect z limit c) := by
  unfold Wsi.collect
  split
  · exact clientCollect_collects h
  · exact serverCollect_collects h

/-! ## Spilling -/

theorem length_frameHeader_le (opcode : UInt8) (masked : Bool) (len : Nat) :
    (frameHeader z opcode masked len).length ≤ 10 := by
  unfold frameHeader
  split_ifs
  · simp
  · simp
  · cases z <;> simp

/-- A control frame is written without a fault, and fits into the padding. -/
theorem libwebsocketWrite_control (z : SizeT) (net : Nat → Net) {p : WriteProtocol} {data : Bytes}
    (hp : p.isControl = true) (houtside : wsi.insideFrame = false) (hfit : data.length ≤ limit) :
    ∃ w, libwebsocketWrite z net wsi data p = .ok w ∧ w.bytes.length ≤ prePadding + limit ∧
      w.wsi.insideFrame = false ∧ w.wsi.mode = wsi.mode ∧ w.wsi.state = wsi.state := by
  have hheader := fun masked => length_frameHeader_le (z := z) p.opcode masked data.length
  unfold libwebsocketWrite
  rw [if_neg (by simp [hp])]
  split_ifs with hstate hinside
  · exact ⟨_, rfl, Nat.zero_le _, houtside, rfl, rfl⟩
  · rw [houtside] at hinside
    cases hinside
  · rw [houtside] at hinside
    cases hinside
  · unfold issue prePadding
    simp only [hp, if_true]
    split
    · refine ⟨_, rfl, ?_, houtside, rfl, rfl⟩
      have := hheader false
      simp only [List.length_take, List.length_append]
      omega
    · split
      · exact ⟨_, rfl, Nat.zero_le _, houtside, rfl, rfl⟩
      · refine ⟨_, rfl, ?_, houtside, rfl, rfl⟩
        have := hheader true
        simp only [List.length_take, List.length_append, length_maskBytes, Key.bytes,
          List.length_cons, List.length_nil]
        omega

/-- There is room for a byte, no frame was sent in part, and the connection is used as before. -/
structure Wsi.SafeFrom (limit : Nat) (wsi wsi' : Wsi) : Prop where
  safe : wsi'.Safe limit
  mode : wsi'.mode = wsi.mode
  state : wsi'.state = wsi.state

/-- The buffer is handled without a fault and by one action at most, and is empty if the connection
goes on. -/
def Spills (limit : Nat) (wsi : Wsi) (r : Except Fault (List Action × Wsi × Int)) : Prop :=
  ∃ actions wsi' n, r = .ok (actions, wsi', n) ∧ actions.length ≤ 1 ∧
    (∀ a ∈ actions, a.Fits limit) ∧ (0 ≤ n → wsi.SafeFrom limit wsi')

theorem safeFrom_clearBuffer (hlimit : 0 < limit) (houtside : wsi.insideFrame = false) :
    wsi.SafeFrom limit wsi.clearBuffer := ⟨⟨hlimit, houtside⟩, rfl, rfl⟩

theorem spillClose_spills (hfit : wsi.rx.rxUserBuffer.length ≤ limit)
    (houtside : wsi.insideFrame = false) : Spills limit wsi (spillClose z net wsi) := by
  unfold spillClose
  split_ifs
  · exact ⟨_, _, _, rfl, by simp, by simp, by simp⟩
  · obtain ⟨w, hw, hbytes, -⟩ :=
      libwebsocketWrite_control z net (show WriteProtocol.close.isControl from rfl) houtside hfit
    rw [hw]
    exact ⟨_, _, _, rfl, le_rfl, by simpa using hbytes, by simp⟩

section

variable (hlimit : 0 < limit) (hfit : wsi.rx.rxUserBuffer.length ≤ limit)
  (houtside : wsi.insideFrame = false)
include hlimit hfit houtside

theorem handOver_spills {callback : Bytes → Action}
    (hcallback : ∀ d : Bytes, 0 < d.length → d.length ≤ limit → (callback d).Fits limit) :
    Spills limit wsi (handOver limit wsi callback) := by
  rw [handOver_eq hfit]
  refine ⟨_, _, _, rfl, ?_, ?_, fun _ => safeFrom_clearBuffer hlimit houtside⟩
  · split_ifs <;> simp
  · split_ifs with hempty
    · simp
    · have hpos : 0 < wsi.rx.rxUserBuffer.length := by
        rw [List.length_pos_iff]
        simpa using hempty
      simpa using hcallback _ hpos hfit

theorem clientSpill_spills : Spills limit wsi (clientSpill z net limit wsi) := by
  unfold clientSpill
  split_ifs
  · exact spillClose_spills hfit houtside
  · obtain ⟨w, hw, hbytes, hout, hmode, hstate⟩ :=
      libwebsocketWrite_control z net (show WriteProtocol.pong.isControl from rfl) houtside hfit
    rw [hw]
    exact ⟨_, _, _, rfl, le_rfl, by simpa using hbytes, fun _ => ⟨⟨hlimit, hout⟩, hmode, hstate⟩⟩
  · exact handOver_spills hlimit hfit houtside fun d h₁ h₂ => ⟨h₁, h₂⟩
  · exact handOver_spills hlimit hfit houtside fun d h₁ h₂ => ⟨h₁, h₂⟩
  · exact ⟨_, _, _, rfl, by simp, by simp, fun _ => safeFrom_clearBuffer hlimit houtside⟩

theorem serverSpill_spills : Spills limit wsi (serverSpill z net limit wsi) := by
  unfold serverSpill
  split_ifs
  · exact spillClose_spills hfit houtside
  · obtain ⟨w, hw, hbytes, hout, hmode, hstate⟩ :=
      libwebsocketWrite_control z net (show WriteProtocol.pong.isControl from rfl) houtside hfit
    rw [hw, except_ok_bind]
    split_ifs
    · exact ⟨_, _, _, rfl, le_rfl, by simpa using hbytes, by simp⟩
    · exact ⟨_, _, _, rfl, le_rfl, by simpa using hbytes, fun _ => ⟨⟨hlimit, hout⟩, hmode, hstate⟩⟩
  · exact ⟨_, _, _, rfl, by simp, by simp, fun _ => safeFrom_clearBuffer hlimit houtside⟩
  · exact handOver_spills hlimit hfit houtside fun d h₁ h₂ => ⟨h₁, h₂⟩
  · exact ⟨_, _, _, rfl, by simp, by simp, fun _ => safeFrom_clearBuffer hlimit houtside⟩

theorem spill_spills (z : SizeT) (net : Nat → Net) : Spills limit wsi (wsi.spill z net limit) := by
  unfold Wsi.spill
  split
  · exact clientSpill_spills hlimit hfit houtside
  · exact serverSpill_spills hlimit hfit houtside

end

/-! ## A byte, and a stream -/

/-- One byte, with one action at most. -/
theorem readByte_safe (z : SizeT) (net : Nat → Net) (c : UInt8) (h : wsi.Safe limit) :
    ∃ out r, readByte z net limit wsi c = .ok (out, r) ∧ out.length ≤ 1 ∧
      (∀ a ∈ out, a.Fits limit) ∧ ∀ wsi' ∈ r, wsi.SafeFrom limit wsi' := by
  obtain ⟨rx, m, next, hcollect, hle, hmore⟩ := collect_collects (z := z) (c := c) h.room
  have hlimit : 0 < limit := Nat.zero_lt_of_lt h.room
  simp only [readByte, hcollect, except_ok_bind]
  cases next with
  | more => exact ⟨_, _, rfl, by simp, by simp, by simpa using ⟨⟨hmore rfl, h.outside⟩, rfl, rfl⟩⟩
  | kill => exact ⟨_, _, rfl, by simp, by simp, by simp⟩
  | spill =>
    have hspills : Spills limit { wsi with rx, mask := m } _ :=
      spill_spills hlimit (by exact hle) (by exact h.outside) z net
    obtain ⟨actions, wsi', n, hspill, hone, hactions, hgo⟩ := hspills
    simp only [hspill, except_ok_bind]
    refine ⟨_, _, rfl, hone, hactions, ?_⟩
    split_ifs with hn
    · simp
    · obtain ⟨hsafe, hmode, hstate⟩ := hgo (by omega)
      simpa using ⟨hsafe, hmode, hstate⟩

/-- **Every stream.** Whatever bytes arrive, and whatever the socket takes of the answers, no byte
leads to a fault: each write to the buffer is in bounds, each callback gets at least one byte and at
most what the buffer holds, and each control frame that is sent back fits into the buffer with its
padding. -/
theorem read_safe (z : SizeT) (net : Nat → Net) (mode : Mode) (hlimit : 0 < limit) (xs : Bytes) :
    ∃ out r, Machine.run (readByte z net limit) (.established mode) xs = .ok (out, r) ∧
      (∀ a ∈ out, a.Fits limit) ∧ ∀ wsi ∈ r, wsi.rx.rxUserBuffer.length < limit := by
  have hstart : (Wsi.established mode).Safe limit := ⟨hlimit, rfl⟩
  have hstep : ∀ (wsi : Wsi) (c : UInt8), wsi.Safe limit →
      ∃ out r, readByte z net limit wsi c = .ok (out, r) ∧ (∀ a ∈ out, a.Fits limit) ∧
        ∀ wsi' ∈ r, wsi'.Safe limit := by
    intro wsi c h
    obtain ⟨out, r, hbyte, -, hout, hr⟩ := readByte_safe z net c h
    exact ⟨out, r, hbyte, hout, fun wsi' h' => (hr wsi' h').safe⟩
  obtain ⟨out, r, hrun, hout, hr⟩ := Machine.run_inv hstep xs hstart
  exact ⟨out, r, hrun, hout, fun wsi h => (hr wsi h).room⟩

/-- Bytes that are no frame. -/
theorem read_safe_sample :
    ∃ out r, Machine.run (readByte .bits64 sampleNet 6000) (.established .client)
        [0xff, 0xff, 0xff] = .ok (out, r) ∧
      (∀ a ∈ out, a.Fits 6000) ∧ ∀ wsi ∈ r, wsi.rx.rxUserBuffer.length < 6000 :=
  read_safe .bits64 sampleNet .client (by decide) _

end Lws

end Neof5
