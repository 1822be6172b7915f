import Neof5.Lws.Close
import Neof5.WsClient

/-!
# The end of the connection

The server closes the connection after its frames. The client may still have texts in its queue
then: the answer to the close frame overtakes them, and they are lost. Everything else arrives
(`closing`).
-/

namespace Neof5

open Neof5Protocol Picojson
open PoorPlayer (SizeT)
open WsThread (wsMessageSizeMax)
open Lws (Action Frame Net Rx Spill Wsi WriteProtocol readByte)

namespace WsClient

variable {ν σ : Type} {pf : Platform ν} {player : IPlayer σ} {z z' : SizeT}
  {net net' : Nat → Net} {c : Client σ} {s s' : σ} {sends : List Send} {limit : Nat} {server : Wsi}

/-- A server that waits for the answer to its close frame. -/
structure Waiting (server : Wsi) : Prop where
  listening : Listening server
  waits : server.state = .awaitingCloseAck

/-- The byte that ends the close frame: the answer goes onto the wire, and what is queued does
not. -/
theorem step_close {b : UInt8} {rx : Rx} (hnet : ∀ k, (net k).Works) (hc : Ready c)
    (hcollect : ∀ m, Lws.clientCollect z wsMessageSizeMax c.wsi.rx m b = .ok (rx, m, .spill))
    (hop : rx.opcode = WriteProtocol.close.opcode) :
    ∃ key, step z net pf player c (.byte b) =
      .ok (Lws.maskedFrame z .close key rx.rxUserBuffer, none) := by
  obtain ⟨key, hkey⟩ := (hnet c.wsi.writes).random
  have htakes : (net c.wsi.writes).takes z .close rx.rxUserBuffer =
      Lws.maskedFrame z .close key rx.rxUserBuffer := by
    simp [Net.takes, hkey, (hnet _).full]
  refine ⟨key, ?_⟩
  simp only [step, Lws.readByte_close net hc.opened hcollect hop, htakes, deliverAll, deliver,
    except_ok_bind]
  rw [List.append_nil]
  rfl

/-- A close frame that is still to come has a byte. -/
theorem bytes_before_close {spills : List Spill} {sp : Spill} {rx rx' : Rx} {xs : Bytes}
    (h : Lws.Reads (Lws.clientCollect z wsMessageSizeMax) rx xs (spills ++ [sp]) rx') :
    xs ≠ [] := by
  rintro rfl
  generalize hall : spills ++ [sp] = all at h
  cases h
  simp at hall

/-- What a byte does up to the end of the close frame: it goes on as in any conversation, or it is
the last one of the close frame. -/
theorem byte_before_close {b : UInt8} {spills : List Spill} {data xs : Bytes} {rx' : Rx}
    (hspeaks : Speaks player) (hnet : ∀ k, (net k).Works) (hlimit : wsMessageSizeMax ≤ limit)
    (hc : Ready c) (h : Listening server)
    (hreads : Lws.Reads (Lws.clientCollect z wsMessageSizeMax) c.wsi.rx (b :: xs)
      (spills ++ [⟨WriteProtocol.close.opcode, data⟩]) rx') (hnew : rx'.parseState = .new)
    (hsp : ∀ sp ∈ spills, Heard sp)
    (hrun : Neof5Protocol.run pf player (spills.filterMap message?) c.player = .ok (sends, s')) :
    (∃ rx spills', Advances z z' net net' limit pf player c server (.byte b) rx
        (spills'.filterMap message?) sends s' ∧
      Lws.Reads (Lws.clientCollect z wsMessageSizeMax) rx xs
        (spills' ++ [⟨WriteProtocol.close.opcode, data⟩]) rx' ∧ ∀ sp ∈ spills', Heard sp) ∨
    spills = [] ∧ xs = [] ∧ ∃ key, step z net pf player c (.byte b) =
      .ok (Lws.maskedFrame z .close key data, none) := by
  generalize hall : spills ++ [⟨WriteProtocol.close.opcode, data⟩] = all at hreads
  cases hreads with
  | more hcollect hrest =>
    subst hall
    obtain ⟨rx₁, m, next, hcol, -, hroom⟩ := Lws.clientCollect_collects (z := z)
      (m := c.wsi.mask) (c := b) hc.room
    rw [hcollect] at hcol
    cases hcol
    exact .inl ⟨_, spills, more_advances hc h (hroom rfl) hcollect hrun, hrest, hsp⟩
  | @spill _ rx₁ _ _ _ rest hcollect hrest =>
    cases spills with
    | nil =>
      obtain ⟨heq, rfl⟩ := List.cons.inj hall
      obtain ⟨hop, rfl⟩ := Spill.mk.inj heq
      exact .inr ⟨rfl, hrest.eq_nil hnew, step_close hnet hc hcollect hop.symm⟩
    | cons sp spills =>
      obtain ⟨rfl, rfl⟩ := List.cons.inj hall
      refine .inl ⟨_, spills, spill_advances hspeaks hnet hlimit hc h hcollect (hsp _ (by simp)) ?_,
        hrest, fun sp hsp' => hsp sp (by simp [hsp'])⟩
      rw [← hrun, List.filterMap_cons]
      cases message? ⟨rx₁.opcode, rx₁.rxUserBuffer⟩ <;> rfl

/-- A run in which the client answers the close frame with `data` when it ends after the bytes `xs`:
the texts that are in the queue then are lost, and the server reads the others of those that are to
be sent before the answer. -/
def Closes (z z' : SizeT) (net net' : Nat → Net) (limit : Nat) (pf : Platform ν)
    (player : IPlayer σ) (data xs : Bytes) (c : Client σ) (server : Wsi) (events : List Event)
    (texts : List Bytes) : Prop :=
  ∃ before b after bytes c' key received,
    events = before ++ .byte b :: after ∧ before.filterMap Event.byte? ++ [b] = xs ∧
    Machine.run (step z net pf player) c before = .ok (bytes, some c') ∧
    step z net pf player c' (.byte b) = .ok (Lws.maskedFrame z .close key data, none) ∧
    received ++ c'.thread.sendQueue = texts ∧
    Machine.run (readByte z' net' limit) server (bytes ++ Lws.maskedFrame z .close key data) =
      .ok (received.map Action.receive, none)

/-- An event of the conversation before a run that closes. -/
theorem Advances.closes {ev : Event} {rx : Rx} {rest : List Bytes} {data xs : Bytes}
    {events : List Event} (hwait : server.state = .awaitingCloseAck)
    (h : Advances z z' net net' limit pf player c server ev rx rest sends s')
    (hrest : ∀ c' server' sends', Ready c' → Waiting server' → c'.wsi.rx = rx →
      Neof5Protocol.run pf player rest c'.player = .ok (sends', s') →
      Closes z z' net net' limit pf player data xs c' server' events
        (c'.thread.sendQueue ++ sends'.map Send.text)) :
    Closes z z' net net' limit pf player data (ev.byte?.toList ++ xs) c server (ev :: events)
      (c.thread.sendQueue ++ sends.map Send.text) := by
  obtain ⟨out, c₁, server₁, sends₁, sends₂, received₁, hstep, hc₁, hrx₁, rfl, hrun₁, hqueue₁,
    hread₁, h₁, -⟩ := h
  have hwait₁ : Waiting server₁ := ⟨h₁, (Lws.run_state hread₁).trans hwait⟩
  obtain ⟨before, b, after, bytes, c', key, received, rfl, rfl, hrunc, hclose, htexts, hread⟩ :=
    hrest c₁ server₁ sends₂ hc₁ hwait₁ hrx₁ hrun₁
  refine ⟨ev :: before, b, after, out ++ bytes, c', key, received₁ ++ received, rfl, ?_,
    Machine.run_cons hstep hrunc, hclose, ?_, ?_⟩
  · cases ev <;> rfl
  · rw [List.append_assoc, htexts, ← List.append_assoc, hqueue₁, List.append_assoc,
      List.map_append]
  · rw [List.append_assoc, Machine.run_append hread₁ hread, List.map_append]

/-- A run up to the close frame, from any state between two events. -/
theorem closing_from (z' : SizeT) (net' : Nat → Net) (hspeaks : Speaks player)
    (hnet : ∀ k, (net k).Works) (hlimit : wsMessageSizeMax ≤ limit) (events : List Event)
    {spills : List Spill} {data xs rest : Bytes} {rx' : Rx} (hc : Ready c) (h : Waiting server)
    (hdata : data.length ≤ 125)
    (hreads : Lws.Reads (Lws.clientCollect z wsMessageSizeMax) c.wsi.rx xs
      (spills ++ [⟨WriteProtocol.close.opcode, data⟩]) rx') (hnew : rx'.parseState = .new)
    (hevents : events.filterMap Event.byte? = xs ++ rest) (hsp : ∀ sp ∈ spills, Heard sp)
    (hrun : Neof5Protocol.run pf player (spills.filterMap message?) c.player = .ok (sends, s')) :
    Closes z z' net net' limit pf player data xs c server events
      (c.thread.sendQueue ++ sends.map Send.text) := by
  induction events generalizing c server spills xs sends with
  | nil => exact absurd (List.append_eq_nil_iff.mp hevents.symm).1 (bytes_before_close hreads)
  | cons ev events ih =>
    cases ev with
    | writeable =>
      refine (writeable_advances hnet hlimit hc h.listening hrun).closes h.waits ?_
      exact fun c' server' sends' hc' h' hrx hrun' => ih hc' h' (hrx ▸ hreads) hevents hsp hrun'
    | byte b =>
      obtain ⟨x, xs, rfl⟩ := List.exists_cons_of_ne_nil (bytes_before_close hreads)
      obtain ⟨rfl, hbytes⟩ := List.cons.inj hevents
      rcases byte_before_close hspeaks hnet hlimit hc h.listening hreads hnew hsp hrun with
        ⟨rx, spills', hadv, hreads', hsp'⟩ | ⟨rfl, rfl, key, hstep⟩
      · refine hadv.closes h.waits fun c' server' sends' hc' h' hrx hrun' => ?_
        exact ih hc' h' (hrx ▸ hreads') hbytes hsp' hrun'
      · -- What is in the queue stays there.
        cases hrun
        have hzero : 0 < limit := (Nat.zero_lt_succ _).trans_le hlimit
        have hread : Machine.run (readByte z' net' limit) server
            (Lws.maskedFrame z .close key data) = .ok ([], none) :=
          Lws.server_reads_close net' key z hzero h.listening.serving h.waits h.listening.rest hdata
        exact ⟨[], b, events, [], c, key, [], rfl, rfl, rfl, hstep, by simp, hread⟩

/-- **The end of the connection.** The server sends any frames without a key, of which the pings
have a payload, and then a close frame, and waits for the answer; the protocol handles the messages
in the frames. In every order in which their bytes, whatever bytes come after them and the callbacks
follow each other, the client ends the connection at the last byte of the close frame, with a close
frame that sends the payload back. A server reads the texts that the protocol sends, each as a whole
and in their order, and ends the connection with the answer. Only those texts are lost that are in
the queue before that byte. -/
theorem closing (z z' : SizeT) (net net' : Nat → Net) (pf : Platform ν) (player : IPlayer σ)
    (hspeaks : Speaks player) (hnet : ∀ k, (net k).Works) (hlimit : wsMessageSizeMax ≤ limit)
    (frames : List Frame) (hlen : ∀ f ∈ frames, f.Counts z z')
    (hping : ∀ f ∈ frames, f.protocol = .ping → f.payload ≠ []) (data : Bytes)
    (hdata : data.length ≤ 125) (s s' : σ) (sends : List Send)
    (hrun : Neof5Protocol.run pf player (frames.flatMap messages) s = .ok (sends, s'))
    (events : List Event) (rest : Bytes)
    (hevents : events.filterMap Event.byte? =
      frames.flatMap (Frame.bytes z') ++ Lws.closeFrame z' data ++ rest) :
    ∃ before b after bytes c key received,
      events = before ++ .byte b :: after ∧
      before.filterMap Event.byte? ++ [b] =
        frames.flatMap (Frame.bytes z') ++ Lws.closeFrame z' data ∧
      Machine.run (step z net pf player) (.established s) before = .ok (bytes, some c) ∧
      Machine.run (step z net pf player) (.established s) events =
        .ok (bytes ++ Lws.maskedFrame z .close key data, none) ∧
      received ++ c.thread.sendQueue = sends.map Send.text ∧
      Machine.run (readByte z' net' limit)
          { Wsi.established .serving with state := .awaitingCloseAck }
          (bytes ++ Lws.maskedFrame z .close key data) =
        .ok (received.map Action.receive, none) := by
  have hzero : 0 < wsMessageSizeMax := Nat.zero_lt_succ _
  obtain ⟨rx₁, hframes, hrest⟩ := Lws.reads_frames z z'
    (Client.established s).wsi.rx hzero hlen ⟨rfl, rfl⟩
  obtain ⟨rx₂, hclose, hnew⟩ :=
    Lws.reads_close z z' (show 125 ≤ wsMessageSizeMax by decide) hdata hrest
  have hwaiting : Waiting { Wsi.established .serving with state := .awaitingCloseAck } :=
    ⟨⟨rfl, rfl, rfl⟩, rfl⟩
  obtain ⟨before, b, after, bytes, c, key, received, rfl, hbytes, hbefore, hstep, htexts, hread⟩ :=
    closing_from z' net' hspeaks hnet hlimit events (ready_established s) hwaiting hdata
      (hframes.append hclose) hnew hevents (heard_of_frames hping)
      (by rw [messages_of_frames]; exact hrun)
  have hlast : Machine.run (step z net pf player) c (.byte b :: after) =
      .ok (Lws.maskedFrame z .close key data, none) := by
    rw [Machine.run, hstep]
  exact ⟨before, b, after, bytes, c, key, received, rfl, hbytes, hbefore,
    Machine.run_append hbefore hlast, htexts, hread⟩

/-- A message, a callback, and a close frame with a status. -/
theorem closing_sample :
    ∃ (sends : List Send) (before after : List Event) (b : UInt8) (bytes : Bytes)
      (c : Client Unit) (key : Lws.Key) (received : List Bytes),
      Neof5Protocol.run digitPlatform quietPlayer [sampleText] () = .ok (sends, ()) ∧
      sampleEvents ++ [Event.writeable] ++ (Lws.closeFrame .bits64 [3, 232]).map Event.byte =
        before ++ .byte b :: after ∧
      before.filterMap Event.byte? ++ [b] =
        [sampleFrame].flatMap (Frame.bytes .bits64) ++ Lws.closeFrame .bits64 [3, 232] ∧
      Machine.run (step .bits64 Lws.sampleNet digitPlatform quietPlayer) (.established ()) before =
        .ok (bytes, some c) ∧
      Machine.run (step .bits64 Lws.sampleNet digitPlatform quietPlayer) (.established ())
          (sampleEvents ++ [Event.writeable] ++
            (Lws.closeFrame .bits64 [3, 232]).map Event.byte) =
        .ok (bytes ++ Lws.maskedFrame .bits64 .close key [3, 232], none) ∧
      received ++ c.thread.sendQueue = sends.map Send.text ∧
      Machine.run (readByte .bits64 Lws.sampleNet 6000)
          { Wsi.established .serving with state := .awaitingCloseAck }
          (bytes ++ Lws.maskedFrame .bits64 .close key [3, 232]) =
        .ok (received.map Action.receive, none) := by
  obtain ⟨hmessages, hlen⟩ := sampleFrame_facts
  have hthink : ∀ ctx s, ∃ hand remarks s', quietPlayer.think ctx s = .ok (hand, remarks, s') :=
    fun _ _ => ⟨_, _, _, rfl⟩
  obtain ⟨sends, _, hrun⟩ := run_total hthink
    (List.forall_mem_singleton.mpr (Message.turn sampleText_object sampleObject_says)) ()
  have hbytes : (Event.byte? ∘ Event.byte) = some := rfl
  have hevents : (sampleEvents ++ [Event.writeable] ++
      (Lws.closeFrame .bits64 [3, 232]).map Event.byte).filterMap Event.byte? =
        [sampleFrame].flatMap (Frame.bytes .bits64) ++ Lws.closeFrame .bits64 [3, 232] ++ [] := by
    rw [List.filterMap_append, List.filterMap_append, sampleEvents, List.filterMap_map,
      List.filterMap_map, hbytes, List.filterMap_some, List.filterMap_some]
    simp [Event.byte?]
  obtain ⟨before, b, after, bytes, c, key, received, hsplit, hlast, hbefore, hclient, htexts,
    hserver⟩ := closing .bits64 .bits64
    Lws.sampleNet Lws.sampleNet digitPlatform quietPlayer quietPlayer_speaks Lws.sampleNet_works
    (show wsMessageSizeMax ≤ 6000 by decide) [sampleFrame] (List.forall_mem_singleton.mpr
      ⟨Lws.lt_modulus _ hlen, Lws.lt_modulus _ hlen, hlen.trans (by norm_num)⟩)
    (List.forall_mem_singleton.mpr (by simp [sampleFrame])) [3, 232] (by decide) () () sends
    (by rw [hmessages]; exact hrun) _ [] hevents
  exact ⟨sends, before, after, b, bytes, c, key, received, hrun, hsplit, hlast, hbefore, hclient,
    htexts, hserver⟩

end WsClient

end Neof5
