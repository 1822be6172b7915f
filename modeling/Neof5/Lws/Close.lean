import Neof5.Lws.Serve

/-!
# Closing (`libwebsockets-1.23/lib`: `client-parser.c`, `parsers.c`)

* A connection that goes on keeps its state (`readByte_state`): only the end of a close frame
  changes it.
* The client sends the payload of a close frame back, and reads nothing behind it
  (`readByte_close`).
* A server that waits for this answer ends with it, and sends nothing more (`server_reads_close`).
-/

namespace Neof5

open PoorPlayer (SizeT)

namespace Lws

variable {z : SizeT} {net : Nat → Net} {limit : Nat} {rx rx' : Rx} {m : Mask} {c : UInt8}
  {wsi wsi' : Wsi} {p : WriteProtocol} {key : Key}

/-! ## The state of a connection -/

theorem libwebsocketWrite_state {buf : Bytes} {w : Written}
    (h : libwebsocketWrite z net wsi buf p = .ok w) : w.wsi.state = wsi.state := by
  have hissue : ∀ (wsi₁ : Wsi) frame len buf₁, wsi₁.state = wsi.state →
      (issue net wsi₁ frame p len buf₁).wsi.state = wsi.state := by
    intro wsi₁ frame len buf₁ h₁
    simp only [issue]
    split_ifs <;> exact h₁
  unfold libwebsocketWrite at h
  split at h
  · cases h
    rfl
  · split at h
    · cases h
      rfl
    · split at h
      · split at h
        · cases h
        · cases h
          exact hissue _ _ _ _ rfl
      · split at h
        · cases h
          exact hissue _ _ _ _ rfl
        · split at h
          · cases h
            rfl
          · cases h
            exact hissue _ _ _ _ rfl

theorem handOver_state {callback : Bytes → Action} {actions : List Action} {n : Int}
    (h : handOver limit wsi callback = .ok (actions, wsi', n)) : wsi'.state = wsi.state := by
  unfold handOver at h
  dsimp only at h
  split_ifs at h <;> cases h <;> rfl

/-- A spill that does not end the connection. -/
theorem spill_state {actions : List Action} {n : Int}
    (h : wsi.spill z net limit = .ok (actions, wsi', n)) (hn : 0 ≤ n) :
    wsi'.state = wsi.state := by
  have hclose : ∀ {actions wsi'}, spillClose z net wsi ≠ .ok (actions, wsi', n) := by
    intro actions wsi' h
    unfold spillClose at h
    split at h
    · cases h
      omega
    · obtain ⟨w, -, h⟩ := bind_ok h
      cases h
      omega
  unfold Wsi.spill at h
  split at h
  · unfold clientSpill at h
    split_ifs at h
    · exact absurd h hclose
    · obtain ⟨w, hw, h⟩ := bind_ok h
      cases h
      exact libwebsocketWrite_state hw
    · exact handOver_state h
    · exact handOver_state h
    · cases h
      rfl
  · unfold serverSpill at h
    split_ifs at h
    · exact absurd h hclose
    · obtain ⟨w, hw, h⟩ := bind_ok h
      split at h
      · cases h
        omega
      · cases h
        exact libwebsocketWrite_state hw
    · cases h
      rfl
    · exact handOver_state h
    · cases h
      rfl

/-- **A connection that goes on keeps its state.** -/
theorem readByte_state {out : List Action} (h : readByte z net limit wsi c = .ok (out, some wsi')) :
    wsi'.state = wsi.state := by
  obtain ⟨⟨rx, mask, next⟩, -, h⟩ := bind_ok h
  cases next with
  | more =>
    cases h
    rfl
  | kill => cases h
  | spill =>
    obtain ⟨⟨actions, wsi₁, n⟩, hspill, h⟩ := bind_ok h
    by_cases hn : n < 0
    · simp only [if_pos hn] at h
      cases h
    · simp only [if_neg hn] at h
      cases h
      have hkept := spill_state hspill (not_lt.mp hn)
      exact hkept

theorem run_state {xs : Bytes} {out : List Action}
    (h : Machine.run (readByte z net limit) wsi xs = .ok (out, some wsi')) :
    wsi'.state = wsi.state :=
  Machine.run_ok_inv (I := fun w : Wsi => w.state = wsi.state)
    (fun _ _ _ _ h hbyte => (readByte_state hbyte).trans h) rfl h

/-! ## The client -/

/-- A close frame from the server. -/
def closeFrame (z : SizeT) (data : Bytes) : Bytes :=
  frameHeader z WriteProtocol.close.opcode false data.length ++ data

/-- The end of a close frame is answered with its payload, and ends the connection. -/
theorem readByte_close (net : Nat → Net) (h : wsi.Open)
    (hc : ∀ m, clientCollect z limit wsi.rx m c = .ok (rx', m, .spill))
    (hop : rx'.opcode = WriteProtocol.close.opcode) :
    readByte z net limit wsi c =
      .ok ([.sent ((net wsi.writes).takes z .close rx'.rxUserBuffer)], none) := by
  have hopen : Wsi.Open { wsi with rx := rx' } := ⟨h.1, h.2, h.3⟩
  obtain ⟨w, hw, hbytes, -, -⟩ :=
    libwebsocketWrite_answer (p := .close) z net hopen rx'.rxUserBuffer rfl
  have hstate : wsi.state ≠ .awaitingCloseAck := by simp [h.established]
  simp only [h.client] at hw
  simp only [readByte, Wsi.collect, h.client, hc, except_ok_bind, Wsi.spill, clientSpill, hop,
    if_true, spillClose, hstate, if_false, hw, hbytes]
  rfl

theorem payloadByte_more {plain : Bool} {m' : Mask} (hst : rx.parseState = .payload)
    (h : payloadByte z limit plain rx m c = .ok (rx', m', .more)) : rx'.parseState = .payload := by
  obtain ⟨rx₁, hpush, h⟩ := bind_ok h
  have hst₁ : rx₁.parseState = .payload := by
    unfold Rx.push at hpush
    split at hpush <;> cases hpush
    exact hst
  simp only [Rx.afterPayload] at h
  split_ifs at h <;> cases h
  all_goals exact hst₁

theorem middleByte_more {m' : Mask} (h : middleByte z rx m c = (rx', m', .more)) :
    rx'.parseState ≠ .new := by
  unfold middleByte at h
  split at h
  case h_2 => split at h <;> cases h; simp [Rx.addLength]
  all_goals cases h <;> simp [Rx.addLength, Rx.keyByte]

/-- A byte after which the parser goes on in a frame does not end it. -/
theorem clientCollect_more {m' : Mask} (h : clientCollect z limit rx m c = .ok (rx', m', .more)) :
    rx'.parseState ≠ .new := by
  have hafter : ∀ rx₁ : Rx, rx₁.clientAfterLength.1 = rx' ∧ m = m' ∧
      rx₁.clientAfterLength.2 = .more → rx'.parseState ≠ .new := by
    rintro rx₁ ⟨rfl, -, h₁⟩
    unfold Rx.clientAfterLength at h₁ ⊢
    split_ifs at h₁ ⊢ <;> simp_all
  have hlong : ∀ st, st ≠ .new → (longLength rx c st).1 = rx' ∧ m = m' ∧
      (longLength rx c st).2 = .more → rx'.parseState ≠ .new := by
    rintro st hst ⟨rfl, -, h₁⟩
    unfold longLength at h₁ ⊢
    split_ifs at h₁ ⊢
    exact hst
  unfold clientCollect at h
  split at h
  · cases h
    simp [Rx.first]
  · split_ifs at h <;> simp only [Except.ok.injEq, Prod.mk.injEq] at h
    · exact hlong _ (by decide) h
    · exact hlong _ (by decide) h
    · exact hafter _ h
  · simp only [Except.ok.injEq, Prod.mk.injEq] at h
    exact hafter _ h
  · simp only [Except.ok.injEq, Prod.mk.injEq] at h
    exact hafter _ h
  · dsimp only at h
    split_ifs at h <;> cases h
    simp [Rx.keyByte]
  · rw [payloadByte_more (by assumption) h]
    simp
  · exact middleByte_more (Except.ok.inj h)

/-- Between two frames nothing was read since the last spill. -/
theorem Reads.eq_nil {xs : Bytes} (h : Reads (clientCollect z limit) rx xs [] rx')
    (hnew : rx'.parseState = .new) : xs = [] := by
  generalize hspills : ([] : List Spill) = spills at h
  induction h with
  | nil => rfl
  | more hc hrest ih =>
    have hnil := ih hnew hspills
    subst hnil
    cases hrest
    exact absurd hnew (clientCollect_more (hc ⟨⟨0, 0, 0, 0⟩, 0⟩))
  | spill => cases hspills

/-- A close frame is collected as a whole. -/
theorem reads_close (z z' : SizeT) {data : Bytes} (hlimit : 125 ≤ limit) (hlen : data.length ≤ 125)
    (hrx : rx.AtRest) :
    ∃ rx', Reads (clientCollect z limit) rx (closeFrame z' data)
      [⟨WriteProtocol.close.opcode, data⟩] rx' ∧ rx'.parseState = .new := by
  have hlt : data.length < 2 ^ 31 := hlen.trans_lt (by norm_num)
  have hreads : Reads (clientCollect z limit) rx (closeFrame z' data)
      ((Machine.pieces limit [] data).map (⟨WriteProtocol.close.opcode, ·⟩)) _ :=
    reads_plain (by omega) (by omega) (lt_modulus z hlt) (lt_modulus z' hlt)
      (hlt.trans (by norm_num)) hrx
  rw [Machine.pieces_of_le (by simpa using hlen.trans hlimit)] at hreads
  exact ⟨_, hreads, rfl⟩

/-! ## The server -/

/-- The end of the answer, or of a part of it that fills the buffer. -/
theorem readByte_acknowledged (net : Nat → Net) (hmode : wsi.mode = .serving)
    (hwait : wsi.state = .awaitingCloseAck)
    (h : serverCollect z limit wsi.rx wsi.mask c = .ok (rx', m, .spill))
    (hop : rx'.opcode = WriteProtocol.close.opcode) :
    readByte z net limit wsi c = .ok ([], none) := by
  simp only [readByte, Wsi.collect, hmode, h, except_ok_bind, Wsi.spill, serverSpill, hop, if_true,
    spillClose, hwait]
  rfl

/-- The key of an answer without a payload. -/
theorem run_key_acknowledged (z : SizeT) (net : Nat → Net) (limit : Nat) (key : Key) (wsi : Wsi)
    (hmode : wsi.mode = .serving) (hwait : wsi.state = .awaitingCloseAck)
    (hst : wsi.rx.parseState = .key1) (hop : wsi.rx.opcode = WriteProtocol.close.opcode)
    (hlen : wsi.rx.rxPacketLength = 0) :
    Machine.run (readByte z net limit) wsi key.bytes = .ok ([], none) := by
  simp [Machine.run, readByte, Wsi.collect, serverCollect, middleByte, Rx.keyByte, Key.bytes,
    hmode, hst, hlen, Wsi.spill, serverSpill, hop, spillClose, hwait]

/-- The payload of the answer. -/
theorem run_acknowledged (z : SizeT) (net : Nat → Net) (wsi : Wsi) {xs : Bytes}
    (hmode : wsi.mode = .serving) (hwait : wsi.state = .awaitingCloseAck)
    (hst : wsi.rx.parseState = .payload) (hop : wsi.rx.opcode = WriteProtocol.close.opcode)
    (hroom : wsi.rx.rxUserBuffer.length < limit) (hlen : wsi.rx.rxPacketLength = xs.length)
    (hne : xs ≠ []) (hz : xs.length < z.modulus) :
    Machine.run (readByte z net limit) wsi xs = .ok ([], none) := by
  induction xs generalizing wsi with
  | nil => exact absurd rfl hne
  | cons c xs ih =>
    have hn : xs.length < z.modulus := (Nat.lt_succ_self _).trans hz
    have hbyte : serverCollect z limit wsi.rx wsi.mask c =
        payloadByte z limit wsi.rx.allZeroNonce wsi.rx wsi.mask c := by
      simp only [serverCollect, hst]
    rw [payloadByte_eq (length_down hlen hn) hroom] at hbyte
    generalize (if wsi.rx.allZeroNonce then c else c ^^^ wsi.mask.nonce.byte wsi.mask.index) = d
      at hbyte
    cases xs with
    | nil =>
      have hlast := readByte_acknowledged net hmode hwait hbyte hop
      simp [Machine.run, hlast]
    | cons e xs =>
      have hn0 : (e :: xs).length ≠ 0 := by simp
      by_cases hfull : (wsi.rx.rxUserBuffer ++ [d]).length = limit
      · simp only [afterPayload_full hn0 hfull] at hbyte
        have hlast := readByte_acknowledged net hmode hwait hbyte hop
        simp [Machine.run, hlast]
      · simp only [afterPayload_more hn0 hfull] at hbyte
        have hroom' : (wsi.rx.rxUserBuffer ++ [d]).length < limit := by
          rw [List.length_append, List.length_singleton] at hfull ⊢
          omega
        rw [Machine.run_silent (readByte_serving hmode hbyte)]
        exact ih { wsi with
          rx := wsi.rx.pushed d (e :: xs).length
          mask := wsi.mask.next wsi.rx.allZeroNonce } hmode hwait hst hop hroom' rfl (by simp) hn

/-- **The answer to a close frame.** The server that waits for it ends the connection with it, and
sends nothing. -/
theorem server_reads_close (net : Nat → Net) (key : Key) (z' : SizeT) {data : Bytes}
    (hlimit : 0 < limit) (hmode : wsi.mode = .serving) (hwait : wsi.state = .awaitingCloseAck)
    (hrx : wsi.rx.AtRest) (hlen : data.length ≤ 125) :
    Machine.run (readByte z net limit) wsi (maskedFrame z' .close key data) = .ok ([], none) := by
  obtain ⟨hnew, hbuf⟩ := hrx
  have hlt : data.length < 2 ^ 31 := hlen.trans_lt (by norm_num)
  rw [maskedFrame, frameHeader_bits64 (lt_modulus z' hlt)]
  by_cases hempty : data = []
  · -- The last byte of the key ends the frame.
    have hhead : Reads (serverCollect z limit) wsi.rx
        (frameHeader .bits64 WriteProtocol.close.opcode true 0) [] _ :=
      reads_header (serverCollect_heads z limit) hnew (opcode_lt .close) (by omega)
        (lt_modulus z (by norm_num)) (by norm_num) rfl
    have hrun := run_silent_reads net hmode hhead rfl rfl
    have hkey := run_key_acknowledged z net limit key { wsi with
      rx := (Rx.serverAfterLength (wsi.rx.serverStart.header WriteProtocol.close.opcode true 0)).1 }
      hmode hwait rfl rfl rfl
    rw [hempty, maskBytes, List.append_nil]
    exact Machine.run_append hrun hkey
  · have hhead := run_header net limit key (p := .close) hmode hnew (by omega)
      (by simpa using hempty) (lt_modulus z hlt) (hlt.trans (by norm_num))
    have hkey : (maskBytes key 0 data).length = data.length := length_maskBytes key 0 data
    have hpay := run_acknowledged z net { wsi with
      rx := wsi.rx.serverFrame .close key data.length, mask := ⟨key, 0⟩ } hmode hwait rfl rfl
      (by rw [show (wsi.rx.serverFrame .close key data.length).rxUserBuffer = [] from hbuf]
          exact hlimit)
      hkey.symm (by rwa [← List.length_pos_iff, hkey, List.length_pos_iff])
      (by rw [hkey]; exact lt_modulus z hlt)
    exact Machine.run_append hhead hpay

end Lws

end Neof5
