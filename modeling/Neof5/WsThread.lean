import Neof5.Sage.Remarks

/-!
# The connection (`WsThread.cpp`)

`callback_func` hands each piece of a received message to the protocol as it comes, and writes the
queue out when the socket is writeable. `sendText` only puts a text into the queue, and asks for a
callback if it is to be flushed.

* Receiving: a message that libwebsockets hands over in several pieces is lost, unless its first
  piece is already the whole object (`receive_pieces_iff`).
* Sending: a text goes through a static buffer of `WS_MESSAGE_SIZE_MAX` bytes with `strncpy`, and is
  written with the length of the text. All texts of the protocol are shorter than the buffer and
  have no zero byte, so what is written and queued is what was passed to `sendText`, in every order
  of calls and callbacks (`nothing_lost`).

libwebsockets is a parameter (`Lws`): the result of a write, and what it does to the buffer.
-/

namespace Neof5

open Picojson Neof5Protocol

namespace WsThread

variable {ν σ : Type}

/-! ## Receiving -/

/-- `LWS_CALLBACK_CLIENT_RECEIVE` for one piece after the other: the messages that the client sends
until a fault ends the process. -/
def receive (pf : Platform ν) (player : IPlayer σ) : List Bytes → σ → List Send
  | [], _ => []
  | piece :: rest, s =>
    match onMessage pf player piece s with
    | .error _ => []
    | .ok (sends, s) => sends ++ receive pf player rest s

section

variable {pf : Platform ν} {player : IPlayer σ} {piece : Bytes} {rest : List Bytes} {s : σ}
  {o : List (Bytes × Json ν)} {turn : Turn}

/-- What is not an object ends the process. -/
theorem receive_not_object (h : ∀ o, parse pf piece ≠ .obj o) :
    receive pf player (piece :: rest) s = [] := by
  have hfault : onMessage pf player piece s = .error .badType := by
    unfold onMessage
    cases hv : parse pf piece with
    | obj o => exact absurd hv (h o)
    | null | bool | num | str | arr => rfl
  rw [receive, hfault]

theorem skipWs_eq_nil (h : ∀ c ∈ piece, isWs c = true) : skipWs piece = [] :=
  List.dropWhile_eq_nil_iff.mpr h

theorem parseText_white (h : ∀ c ∈ piece, isWs c = true) : parseText pf piece = none := by
  rw [parseText, parseValue, skipWs_eq_nil h]

/-- A turn is answered, so something is sent. -/
theorem receive_turn_ne_nil
    (hthink : ∀ ctx s, ∃ hand remarks s', player.think ctx s = .ok (hand, remarks, s'))
    (hobj : IsObjectText pf piece o) (hsaid : Says pf o turn) :
    receive pf player [piece] s ≠ [] := by
  obtain ⟨hand, remarks, s', ht⟩ := hthink turn.context s
  rw [receive, onMessage_turn hobj hsaid ht]
  simp

/-- If the front of an object text is read as an object, then it is the same object, and only white
space follows. -/
theorem isObjectText_front {tail r : Bytes} {o' : List (Bytes × Json ν)}
    (hobj : IsObjectText pf (piece ++ tail) o) (hpiece : parseText pf piece = some (.obj o', r)) :
    IsObjectText pf piece o ∧ ∀ c ∈ tail, isWs c = true := by
  obtain ⟨w, hparse, hw⟩ := hobj
  have happend := parseText_append (t := tail) hpiece (by simp)
  rw [hparse] at happend
  cases happend
  exact ⟨⟨r, hpiece, fun c hc => hw c (by simp [hc])⟩, fun c hc => hw c (by simp [hc])⟩

/-- A piece that is taken for an object is an object text or leaves one behind. -/
theorem parse_eq_obj (h : parse pf piece = .obj o) :
    (∃ r, parseText pf piece = some (.obj o, r)) ∨
      parseText pf piece = none ∧ pf.remains piece = .obj o := by
  unfold parse at h
  split at h
  · rename_i v r hp
    exact .inl ⟨r, by rw [hp, h]⟩
  · rename_i hp
    exact .inr ⟨hp, h⟩

/-- White space is no object. -/
theorem receive_white (hremains : ∀ data, parseText pf data = none → ∀ o, pf.remains data ≠ .obj o)
    (h : ∀ c ∈ rest.flatten, isWs c = true) : receive pf player rest s = [] := by
  cases rest with
  | nil => rfl
  | cons next rest =>
    have hnone : parseText pf next = none := parseText_white fun c hc => h c (by simp [hc])
    refine receive_not_object fun o ho => ?_
    rcases parse_eq_obj ho with ⟨r, hr⟩ | ⟨-, hr⟩
    · rw [hnone] at hr
      cases hr
    · exact hremains next hnone o hr

/-- **When a message in pieces is handled as a whole.** It is exactly if the first piece is already
the text of an object. A failed parse is taken to leave no object in the value. -/
theorem receive_pieces_iff (pf : Platform ν) (player : IPlayer σ)
    (hthink : ∀ ctx s, ∃ hand remarks s', player.think ctx s = .ok (hand, remarks, s'))
    (hremains : ∀ data, parseText pf data = none → ∀ o, pf.remains data ≠ .obj o)
    (data : Bytes) (o : List (Bytes × Json ν)) (turn : Turn) (hobj : IsObjectText pf data o)
    (hsaid : Says pf o turn) (pieces : List Bytes) (hpieces : pieces.flatten = data) (s : σ) :
    receive pf player pieces s = receive pf player [data] s ↔
      ∃ piece rest o', pieces = piece :: rest ∧ IsObjectText pf piece o' := by
  have hwhole := receive_turn_ne_nil (s := s) hthink hobj hsaid
  subst hpieces
  constructor
  · intro heq
    cases pieces with
    | nil => exact absurd heq.symm hwhole
    | cons piece rest =>
      -- The first piece was taken for an object, or nothing would have been sent.
      obtain ⟨o', ho'⟩ : ∃ o', parse pf piece = .obj o' := by
        by_contra hno
        push Not at hno
        rw [receive_not_object hno] at heq
        exact hwhole heq.symm
      rcases parse_eq_obj ho' with ⟨r, hr⟩ | ⟨hnone, hr⟩
      · exact ⟨piece, rest, o, rfl, (isObjectText_front hobj hr).1⟩
      · exact absurd hr (hremains piece hnone o')
  · rintro ⟨piece, rest, o', rfl, r, hr, -⟩
    obtain ⟨hpiece, hwhite⟩ := isObjectText_front hobj hr
    obtain ⟨hand, remarks, s', ht⟩ := hthink turn.context s
    rw [receive, receive, onMessage_turn hpiece hsaid ht, onMessage_turn hobj hsaid ht]
    simp only [receive_white hremains hwhite, receive]

end

theorem deckPlayer_thinks (ctx : DaifugoContext) (s : Unit) :
    ∃ hand remarks s', deckPlayer.think ctx s = .ok (hand, remarks, s') := ⟨_, _, _, rfl⟩

theorem digitPlatform_remains (data : Bytes) (_ : parseText digitPlatform data = none)
    (o : List (Bytes × Json Int)) : digitPlatform.remains data ≠ .obj o := by
  intro h
  cases h

set_option maxRecDepth 20000 in
theorem sampleText_white :
    IsObjectText digitPlatform (sampleText ++ ascii " \n") sampleObject :=
  ⟨ascii " \n", by rfl, by decide⟩

/-- The sample message with white space behind it, which comes in a frame of its own. -/
theorem receive_pieces_sample :
    receive digitPlatform deckPlayer [sampleText, ascii " \n"] () =
        receive digitPlatform deckPlayer [sampleText ++ ascii " \n"] () ↔
      ∃ piece rest o', [sampleText, ascii " \n"] = piece :: rest ∧
        IsObjectText digitPlatform piece o' :=
  receive_pieces_iff digitPlatform deckPlayer deckPlayer_thinks digitPlatform_remains
    (sampleText ++ ascii " \n") sampleObject sampleTurn sampleText_white sampleObject_says
    [sampleText, ascii " \n"] (by rw [List.flatten_cons, List.flatten_singleton]) ()

/-- The sample message cut after ten bytes is not answered. -/
theorem receive_sample_cut :
    [sampleText.take 10, sampleText.drop 10].flatten = sampleText ∧
    receive digitPlatform deckPlayer [sampleText.take 10, sampleText.drop 10] () ≠
      receive digitPlatform deckPlayer [sampleText] () := by
  constructor
  · rw [List.flatten_cons, List.flatten_singleton, List.take_append_drop]
  · have hcut : parseText digitPlatform (sampleText.take 10) = none := by
      rw [← Option.isNone_iff_eq_none]
      decide +kernel
    have hnil :
        receive digitPlatform deckPlayer [sampleText.take 10, sampleText.drop 10] () = [] := by
      refine receive_not_object fun o => ?_
      rw [parse, hcut]
      exact digitPlatform_remains _ hcut o
    rw [hnil]
    exact (receive_turn_ne_nil deckPlayer_thinks sampleText_object sampleObject_says).symm

/-! ## Sending -/

/-- `WS_MESSAGE_SIZE_MAX` -/
def wsMessageSizeMax : Nat := 6000

/-- `LWS_SEND_BUFFER_POST_PADDING` -/
def postPadding : Nat := 4

/-- What libwebsockets does with the bytes that it is handed. -/
structure Lws where
  /-- the result of `libwebsocket_write` -/
  write : Bytes → Int
  /-- the buffer after it: the payload is masked in place -/
  after : Bytes → Bytes
  length_after : ∀ b, (after b).length = b.length

/-- The queue and the static buffer from the payload on, and what was done with libwebsockets so
far. -/
structure State where
  sendQueue : List Bytes
  buf : Bytes
  /-- the calls of `libwebsocket_callback_on_writable` -/
  requests : Nat
  /-- the bytes handed to `libwebsocket_write` -/
  written : List Bytes

/-- The state before the first call. -/
def init : State := ⟨[], List.replicate (wsMessageSizeMax + postPadding) 0, 0, []⟩

/-- `sendText` -/
def sendText (m : Send) (st : State) : State :=
  { st with
    sendQueue := st.sendQueue ++ [m.text]
    requests := if m.flush then st.requests + 1 else st.requests }

/-- `strncpy`: the bytes up to the first zero, and zeros up to `n` bytes. -/
def strncpy (dst src : Bytes) (n : Nat) : Bytes :=
  let text := (src.takeWhile (· ≠ 0)).take n
  text ++ List.replicate (n - text.length) 0 ++ dst.drop n

/-- One text of the queue: the copy and the write. -/
def writeText (lws : Lws) (text : Bytes) (st : State) : Except Fault (State × Int) :=
  let buf := strncpy st.buf text wsMessageSizeMax
  if buf.length < text.length then .error .badIndex
  else
    let bytes := buf.take text.length
    .ok ({ st with buf := lws.after buf, written := st.written ++ [bytes] }, lws.write bytes)

/-- The loop of `LWS_CALLBACK_CLIENT_WRITEABLE` over the queue, with the result of the callback. -/
def writeLoop (lws : Lws) : List Bytes → State → Except Fault (State × Int)
  | [], st => .ok (st, 0)
  | text :: rest, st => do
    let (st, n) ← writeText lws text { st with sendQueue := rest }
    if n < 0 then return (st, -1)
    if n.toNat < text.length then return (st, -1)
    writeLoop lws rest st

/-- `LWS_CALLBACK_CLIENT_WRITEABLE` -/
def onWriteable (lws : Lws) (st : State) : Except Fault (State × Int) :=
  writeLoop lws st.sendQueue st

/-- What may happen to the connection: the protocol sends, or the socket is writeable. -/
inductive Event where
  | put (cards : CardSet)
  | tweet (text : Bytes)
  | writeable

/-- One event. -/
def step (pf : Platform ν) (lws : Lws) : Event → State → Except Fault State
  | .put cards, st => do
    let m ← putCard pf cards
    return sendText m st
  | .tweet text, st => .ok (sendText (Neof5Protocol.tweet pf text) st)
  | .writeable, st => do
    let (st, _) ← onWriteable lws st
    return st

/-- The events in their order. -/
def run (pf : Platform ν) (lws : Lws) : List Event → State → Except Fault State
  | [], st => .ok st
  | e :: es, st => do
    let st ← step pf lws e st
    run pf lws es st

/-- The texts that are passed to `sendText`. -/
def sent (pf : Platform ν) : List Event → Except Fault (List Bytes)
  | [] => .ok []
  | .put cards :: es => do
    let m ← putCard pf cards
    let texts ← sent pf es
    return m.text :: texts
  | .tweet text :: es => do
    let texts ← sent pf es
    return (Neof5Protocol.tweet pf text).text :: texts
  | .writeable :: es => sent pf es

/-! ### The texts fit into the buffer -/

/-- A text that the copy keeps as it is. -/
def Fits (text : Bytes) : Prop := 0 ∉ text ∧ text.length < wsMessageSizeMax

theorem strncpy_length {dst src : Bytes} {n : Nat} (h : n ≤ dst.length) :
    (strncpy dst src n).length = dst.length := by
  simp only [strncpy, List.length_append, List.length_replicate, List.length_drop, List.length_take]
  omega

/-- The front of the buffer is the text. -/
theorem take_strncpy {dst text : Bytes} (h : Fits text) :
    (strncpy dst text wsMessageSizeMax).take text.length = text := by
  have hall : text.takeWhile (· ≠ 0) = text := by
    rw [List.takeWhile_eq_self_iff]
    intro c hc
    simpa using fun e : c = 0 => h.1 (e ▸ hc)
  have htake : (text.takeWhile (· ≠ 0)).take wsMessageSizeMax = text := by
    rw [hall, List.take_of_length_le h.2.le]
  rw [strncpy]
  simp only [htake, List.append_assoc, List.take_left]

private theorem escape_nonzero (c : UInt8) : 0 ∉ escape c ∧ (escape c).length ≤ 6 := by
  have key : ∀ i : Fin 256, 0 ∉ escape (UInt8.ofFin i) ∧ (escape (UInt8.ofFin i)).length ≤ 6 := by
    decide +kernel
  exact key c.toFin

theorem zero_notMem_serializeStr (s : Bytes) : 0 ∉ serializeStr s := by
  simp only [serializeStr, List.mem_cons, List.mem_append, List.mem_flatMap, not_or, not_exists,
    not_and, List.not_mem_nil, or_false]
  exact ⟨by decide, fun c _ => (escape_nonzero c).1, by decide⟩

theorem length_serializeStr_le (s : Bytes) : (serializeStr s).length ≤ 6 * s.length + 2 := by
  have : (s.flatMap escape).length ≤ 6 * s.length := by
    induction s with
    | nil => simp
    | cons c s ih =>
      have := (escape_nonzero c).2
      rw [List.flatMap_cons, List.length_append, List.length_cons]
      omega
  simp only [serializeStr, List.length_cons, List.length_append, List.length_nil]
  omega

/-- An object of two strings: each character takes six bytes at most, and 13 bytes are fixed. -/
theorem fits_pair (pf : Platform ν) (k₁ a k₂ b : Bytes)
    (hlen : 6 * (k₁.length + a.length + k₂.length + b.length) + 13 < wsMessageSizeMax) :
    Fits (serialize pf (.obj [(k₁, .str a), (k₂, .str b)])) := by
  rw [serialize_pair]
  constructor
  · simp only [List.mem_cons, List.mem_append, not_or, zero_notMem_serializeStr, List.not_mem_nil,
      not_false_eq_true, true_and, and_true]
    decide
  · have h₁ := length_serializeStr_le k₁
    have h₂ := length_serializeStr_le a
    have h₃ := length_serializeStr_le k₂
    have h₄ := length_serializeStr_le b
    simp only [List.length_cons, List.length_append, List.length_nil]
    omega

theorem length_joinTokens_le (cs : List Card) : (joinTokens cs).length ≤ 3 * cs.length := by
  have htok : ∀ c : Card, (token c).length = 2 := by decide
  unfold joinTokens
  induction cs with
  | nil => simp
  | cons c cs ih =>
    cases cs with
    | nil => simp [htok]
    | cons d cs =>
      rw [List.map_cons, List.map_cons, List.intercalate_cons_cons]
      rw [List.map_cons] at ih
      simp only [List.length_append, htok, List.length_cons, List.length_nil] at ih ⊢
      omega

/-- The answer for any hand fits. -/
theorem fits_put (pf : Platform ν) (hand : CardSet) :
    Fits (serialize pf (putObject (joinTokens hand.cards))) := by
  have hlen : (joinTokens hand.cards).length ≤ 159 := by
    have hsize := hand.size_le
    have hjoin := length_joinTokens_le hand.cards
    rw [hand.size_eq] at hsize
    omega
  have hkeys : (ascii "Cards").length + (ascii "Kind").length + (ascii "Put").length = 12 := by
    decide
  refine fits_pair pf (ascii "Cards") _ (ascii "Kind") (ascii "Put") ?_
  unfold wsMessageSizeMax
  omega

/-- What the players say fits. -/
theorem fits_tweet (pf : Platform ν) {text : Bytes} (h : PlayerSays text) :
    Fits (Neof5Protocol.tweet pf text).text := by
  have hlen : ∀ t ∈ SagePlayer.remarkTexts, (utf8 t).length ≤ 40 := by decide +kernel
  obtain ⟨t, ht, rfl⟩ := h.mem
  have htext := hlen t ht
  have hkeys : (ascii "Kind").length + (ascii "Tweet").length + (ascii "Message").length = 16 := by
    decide
  refine fits_pair pf (ascii "Kind") (ascii "Tweet") (ascii "Message") _ ?_
  unfold wsMessageSizeMax
  omega

/-! ### The queue over a run -/

/-- What was written and what is queued are the texts sent so far, and the texts in the queue and
the buffer are as the copy needs them. -/
structure Inv (st : State) (texts : List Bytes) : Prop where
  texts_eq : st.written ++ st.sendQueue = texts
  fits : ∀ t ∈ st.sendQueue, Fits t
  buf_length : st.buf.length = wsMessageSizeMax + postPadding

section

variable {pf : Platform ν} {lws : Lws} {st : State} {texts : List Bytes}

theorem inv_init : Inv init [] :=
  ⟨rfl, by simp [init], List.length_replicate ..⟩

theorem inv_sendText {m : Send} (h : Inv st texts) (hm : Fits m.text) :
    Inv (sendText m st) (texts ++ [m.text]) := by
  refine ⟨?_, fun t ht => ?_, h.buf_length⟩
  · rw [← h.texts_eq, List.append_assoc]
    rfl
  · rcases List.mem_append.mp ht with ht | ht
    · exact h.fits t ht
    · rw [List.mem_singleton.mp ht]
      exact hm

/-- One round of the loop moves the front of the queue, byte for byte, to what was written. -/
theorem writeText_eq {text : Bytes} (rest : List Bytes) (hfull : ∀ b, lws.write b = b.length)
    (hbuf : st.buf.length = wsMessageSizeMax + postPadding) (hfit : Fits text) :
    ∃ buf', writeText lws text { st with sendQueue := rest } =
        .ok ({ st with sendQueue := rest, buf := buf', written := st.written ++ [text] },
          text.length) ∧ buf'.length = wsMessageSizeMax + postPadding := by
  have hlen : (strncpy st.buf text wsMessageSizeMax).length = wsMessageSizeMax + postPadding := by
    rw [strncpy_length (by omega), hbuf]
  have hroom : ¬ (strncpy st.buf text wsMessageSizeMax).length < text.length := by
    have := hfit.2
    omega
  refine ⟨lws.after (strncpy st.buf text wsMessageSizeMax), ?_, by rw [lws.length_after, hlen]⟩
  simp only [writeText, if_neg hroom, take_strncpy hfit, hfull]

/-- A callback writes the whole queue out. -/
theorem inv_writeLoop (hfull : ∀ b, lws.write b = b.length) (h : Inv st texts) :
    ∃ st', onWriteable lws st = .ok (st', 0) ∧ Inv st' texts ∧ st'.sendQueue = [] := by
  unfold onWriteable
  generalize hq : st.sendQueue = queue
  induction queue generalizing st with
  | nil => exact ⟨st, rfl, h, hq⟩
  | cons text rest ih =>
    have hfit : Fits text := h.fits text (by simp [hq])
    obtain ⟨buf', hwrite, hbuf'⟩ := writeText_eq rest hfull h.buf_length hfit
    have hinv : Inv { st with sendQueue := rest, buf := buf', written := st.written ++ [text] }
        texts := by
      refine ⟨?_, fun t ht => h.fits t (by rw [hq]; exact List.mem_cons_of_mem _ ht), hbuf'⟩
      rw [← h.texts_eq, hq, List.append_assoc]
      rfl
    obtain ⟨st', hloop, hst', hnil⟩ := ih hinv rfl
    refine ⟨st', ?_, hst', hnil⟩
    have hnonneg : ¬ ((text.length : Nat) : Int) < 0 := by omega
    rw [writeLoop, hwrite, except_ok_bind]
    simpa [hnonneg] using hloop

/-- Every event keeps the invariant, with the text that it sends. -/
theorem inv_step (pf : Platform ν) (hfull : ∀ b, lws.write b = b.length) (h : Inv st texts)
    (e : Event) (hsaid : ∀ t, e = .tweet t → PlayerSays t) :
    ∃ new st', sent pf [e] = .ok new ∧ step pf lws e st = .ok st' ∧ Inv st' (texts ++ new) ∧
      (∀ t ∈ new, Fits t) ∧ (e = .writeable → st'.sendQueue = []) := by
  cases e with
  | put cards =>
    obtain ⟨m, hm, hfit⟩ : ∃ m, putCard pf cards = .ok m ∧ Fits m.text :=
      ⟨⟨serialize pf (putObject (joinTokens cards.cards)), true⟩, by simp [putCard, toString_eq],
        fits_put pf cards⟩
    exact ⟨[m.text], sendText m st, by simp [sent, hm], by simp [step, hm], inv_sendText h hfit,
      by simpa using hfit, by simp⟩
  | tweet text =>
    have hfit := fits_tweet pf (hsaid text rfl)
    exact ⟨_, _, rfl, rfl, inv_sendText h hfit, by simpa using hfit, by simp⟩
  | writeable =>
    obtain ⟨st', hrun, hinv, hnil⟩ := inv_writeLoop hfull h
    exact ⟨[], st', rfl, by simp [step, hrun], by simpa using hinv, by simp, fun _ => hnil⟩

theorem sent_cons {e : Event} {es : List Event} {new texts : List Bytes}
    (hnew : sent pf [e] = .ok new) (hes : sent pf es = .ok texts) :
    sent pf (e :: es) = .ok (new ++ texts) := by
  cases e with
  | put cards =>
    obtain ⟨m, hm, hnew⟩ := bind_ok hnew
    cases hnew
    simp [sent, hm, hes]
  | tweet text =>
    cases hnew
    simp [sent, hes]
  | writeable =>
    cases hnew
    exact hes

theorem inv_run (pf : Platform ν) (hfull : ∀ b, lws.write b = b.length) (h : Inv st texts)
    (events : List Event) (hsaid : ∀ t, .tweet t ∈ events → PlayerSays t) :
    ∃ new st', sent pf events = .ok new ∧ run pf lws events st = .ok st' ∧
      Inv st' (texts ++ new) ∧ (∀ t ∈ new, Fits t) ∧
      (events.getLast? = some .writeable → st'.sendQueue = []) := by
  induction events generalizing st texts with
  | nil => exact ⟨[], st, rfl, rfl, by simpa using h, by simp, by simp⟩
  | cons e es ih =>
    obtain ⟨new₁, st₁, hsent₁, hstep, hinv₁, hfit₁, hlast₁⟩ :=
      inv_step pf hfull h e fun t ht => hsaid t (by simp [ht])
    obtain ⟨new₂, st₂, hsent₂, hrun, hinv₂, hfit₂, hlast₂⟩ :=
      ih hinv₁ fun t ht => hsaid t (List.mem_cons_of_mem _ ht)
    refine ⟨new₁ ++ new₂, st₂, sent_cons hsent₁ hsent₂, by simp [run, hstep, hrun],
      by rwa [← List.append_assoc], fun t ht => ?_, fun hlast => ?_⟩
    · rcases List.mem_append.mp ht with ht | ht
      · exact hfit₁ t ht
      · exact hfit₂ t ht
    · cases es with
      | nil =>
        cases hrun
        exact hlast₁ (by simpa using hlast)
      | cons e' es => exact hlast₂ (by simpa using hlast)

end

/-- **Nothing is lost, reordered, duplicated or cut.** In every order of sends and callbacks, as
long as the writes succeed in full, what was written followed by what is queued is the sequence of
texts passed to `sendText`, all of which are shorter than the buffer; and a callback leaves the
queue empty. -/
theorem nothing_lost (pf : Platform ν) (lws : Lws) (hfull : ∀ b, lws.write b = b.length)
    (events : List Event) (hsaid : ∀ t, .tweet t ∈ events → PlayerSays t) :
    ∃ texts st, sent pf events = .ok texts ∧ run pf lws events init = .ok st ∧
      st.written ++ st.sendQueue = texts ∧ (∀ t ∈ texts, t.length < wsMessageSizeMax) ∧
      (events.getLast? = some .writeable → st.sendQueue = []) := by
  obtain ⟨new, st, hsent, hrun, hinv, hfit, hlast⟩ := inv_run pf hfull inv_init events hsaid
  exact ⟨new, st, hsent, hrun, hinv.texts_eq, fun t ht => (hfit t ht).2, hlast⟩

/-- A library that writes everything and leaves the buffer alone. -/
def plainLws : Lws := ⟨fun b => b.length, id, fun _ => rfl⟩

/-- A player with a hand in its plan says a word about it if the dice fall so. -/
theorem playerSays_saved : PlayerSays (utf8 "ほれっ！") := by
  let w : World := ⟨fun _ => 0, fun _ => 1, fun _ l => l, fun _ _ => .refl _⟩
  let ctx : DaifugoContext := ⟨CardSet.single ⟨0⟩, 0, [], ∅, false, []⟩
  let sp : SagePlayer ExtRat := ⟨[CardSet.single ⟨0⟩], .fin 0, ∅, ⟨⟨.A, false⟩, 0, 0, []⟩⟩
  have hput : DaifugoRule.canPut ⟨.A, false⟩ (CardSet.single ⟨0⟩) ∅ = .ok .ok := by decide +kernel
  have hall : (CardSet.single ⟨0⟩).hasAll (CardSet.single ⟨0⟩) = true := by decide
  have hlast : SagePlayer.tweetLastTwo w ctx sp.mach = sp.mach := rfl
  refine .inl ⟨ExtRat, inferInstance, w, ctx, sp,
    { sp with savedHandsTree := [], mach := ⟨⟨.A, false⟩, 0, 1, ["ほれっ！"]⟩ }, CardSet.single ⟨0⟩,
    [utf8 "ほれっ！"], ?_, by simp⟩
  have hthink : SagePlayer.think w sp ctx = .ok (CardSet.single ⟨0⟩,
      { sp with savedHandsTree := [], mach := ⟨⟨.A, false⟩, 0, 1, ["ほれっ！"]⟩ }) := by
    simp only [SagePlayer.think, hlast]
    show (if (CardSet.single ⟨0⟩).hasAll (CardSet.single ⟨0⟩) = true then _ else _) = _
    rw [if_pos hall]
    show (DaifugoRule.canPut ⟨.A, false⟩ (CardSet.single ⟨0⟩) ∅ >>= _) = _
    rw [hput]
    rfl
  simp only [SagePlayer.iplayer, hthink, except_ok_bind]
  rfl

/-- A remark, an answer and a callback. -/
theorem nothing_lost_sample :
    (∀ b, plainLws.write b = b.length) ∧
    (∀ t, .tweet t ∈ [Event.tweet (utf8 "ほれっ！"), .put (CardSet.single ⟨0⟩), .writeable] →
      PlayerSays t) ∧
    ∃ texts st,
      sent digitPlatform [.tweet (utf8 "ほれっ！"), .put (CardSet.single ⟨0⟩), .writeable] =
        .ok texts ∧
      run digitPlatform plainLws
        [.tweet (utf8 "ほれっ！"), .put (CardSet.single ⟨0⟩), .writeable] init = .ok st ∧
      st.written ++ st.sendQueue = texts ∧ (∀ t ∈ texts, t.length < wsMessageSizeMax) ∧
      (([.tweet (utf8 "ほれっ！"), .put (CardSet.single ⟨0⟩), .writeable] :
        List Event).getLast? = some .writeable → st.sendQueue = []) := by
  have hfull : ∀ b, plainLws.write b = b.length := fun _ => rfl
  have hsaid : ∀ t, .tweet t ∈ [Event.tweet (utf8 "ほれっ！"), .put (CardSet.single ⟨0⟩),
      .writeable] → PlayerSays t := by
    intro t ht
    obtain rfl : t = utf8 "ほれっ！" := by simpa using ht
    exact playerSays_saved
  exact ⟨hfull, hsaid, nothing_lost digitPlatform plainLws hfull _ hsaid⟩

end WsThread

end Neof5
