import Neof5.Lib.Base64
import Neof5.Lws.Sha1

/-!
# The key of the handshake (`libwebsockets-1.23/lib`: `base64-decode.c`, `client.c`,
`server-handshake.c`)

The client sends 16 random bytes to the base 64. The server answers with the hash of that text and a
fixed one, to the base 64 as well, and the client compares the answer with the one that it has
worked out itself.

* `lwsB64EncodeString_eq`: the encoder writes the text of RFC 4648 if there is room for it and two
  more bytes, and otherwise says so; it never writes outside the buffer.
* `accept_iff`: for every key, the client takes the answer of a server exactly if the hashes agree.
-/

namespace Neof5

namespace Lws

/-! ## `lws_b64_encode_string` -/

/-- `encode` -/
def encodeTable : Bytes :=
  ascii "ABCDEFGHIJKLMNOPQRSTUVWXYZabcdefghijklmnopqrstuvwxyz0123456789+/"

/-- `encode[i]`, for an index that was masked or shifted to six bits. -/
def encodeAt (i : UInt8) : UInt8 := encodeTable.getD i.toNat 0

/-- The four characters for `triple`, of which `len` bytes are of the input. -/
def quad (len : Nat) (t₀ t₁ t₂ : UInt8) : Bytes :=
  [encodeAt (t₀ >>> 2), encodeAt (((t₀ &&& 0x03) <<< 4) ||| ((t₁ &&& 0xf0) >>> 4)),
    if 1 < len then encodeAt (((t₁ &&& 0x0f) <<< 2) ||| ((t₂ &&& 0xc0) >>> 6)) else '='.toUInt8,
    if 2 < len then encodeAt (t₂ &&& 0x3f) else '='.toUInt8]

/-- `*out++ = ...` into a buffer of `outSize` bytes. -/
def put (outSize : Nat) (out bytes : Bytes) : Except Fault Bytes :=
  if out.length + bytes.length ≤ outSize then .ok (out ++ bytes) else .error .badIndex

/-- After the loop. -/
def b64End (outSize done : Nat) (out : Bytes) : Except Fault (Int × Bytes) := do
  if outSize ≤ done + 1 then return (-1, out)
  let out ← put outSize out [0]
  return (done, out)

/-- One round of the loop, and what follows. -/
def b64Round (outSize : Nat) (q : Bytes) (next : Nat → Bytes → Except Fault (Int × Bytes))
    (done : Nat) (out : Bytes) : Except Fault (Int × Bytes) := do
  if outSize ≤ done + 4 then return (-1, out)
  let out ← put outSize out q
  next (done + 4) out

/-- The loop, with the result of the function and what it has written. -/
def b64Loop (outSize : Nat) : Bytes → Nat → Bytes → Except Fault (Int × Bytes)
  | [] => b64End outSize
  | [a] => b64Round outSize (quad 1 a 0 0) (b64End outSize)
  | [a, b] => b64Round outSize (quad 2 a b 0) (b64End outSize)
  | a :: b :: c :: s => b64Round outSize (quad 3 a b c) (b64Loop outSize s)

/-- `lws_b64_encode_string` -/
def lwsB64EncodeString (input : Bytes) (outSize : Nat) : Except Fault (Int × Bytes) :=
  b64Loop outSize input 0 []

/-! ## The two sides -/

/-- The fixed text that is hashed behind the key. -/
def guid : Bytes := ascii "258EAFA5-E914-47DA-95CA-C5AB0DC85B11"

/-- A string up to its terminator. -/
def cstr (s : Bytes) : Bytes := s.takeWhile (· != 0)

/-- `sprintf(buf, "%s258EAFA5-...", key)`, with the terminator in the buffer, and `SHA1` of it. -/
def hashKey (o : ByteOrder) (bufSize : Nat) (key : Bytes) : Except Fault Bytes := do
  let buf ← put bufSize [] (cstr key ++ guid ++ [0])
  sha1 o (buf.take (cstr key ++ guid).length)

/-- What the client keeps: `key_b64`, which it sends, and `initial_handshake_hash_base64`. -/
structure ClientKey where
  keyB64 : Bytes
  hashB64 : Bytes
  deriving DecidableEq, Repr

/-- The key in `libwebsockets_generate_client_handshake`; `none` if there are no 16 random bytes.
The results of the encoder are not looked at, and `key_b64[39]` is behind the terminator. -/
def clientKey (o : ByteOrder) (random : Bytes) : Except Fault (Option ClientKey) := do
  if random.length ≠ 16 then return none
  let (_, keyB64) ← lwsB64EncodeString random 40
  let hash ← hashKey o 128 keyB64
  let (_, hashB64) ← lwsB64EncodeString hash 30
  return some ⟨keyB64, hashB64⟩

/-- The answer in `handshake_0405` to a key, which is one header; `none` where it gives up. -/
def serverAccept (o : ByteOrder) (key : Bytes) : Except Fault (Option Bytes) := do
  if key.isEmpty then return none
  if 128 ≤ key.length then return none
  let hash ← hashKey o 4096 key
  let (acceptLen, accept) ← lwsB64EncodeString hash 4096
  if acceptLen < 0 then return none
  return some (cstr accept)

/-- `strcmp` in `lws_client_interpret_server_handshake` -/
def ClientKey.takes (k : ClientKey) (accept : Bytes) : Bool := cstr accept == cstr k.hashB64

/-! ## The encoder -/

section Encoder

variable {a b c i : UInt8} {outSize : Nat} {input out : Bytes}

theorem encodeAt_eq {n : Nat} (hi : i.toNat = n) (h : n < 64) : encodeAt i = Base64.digit n := by
  rw [encodeAt, hi]
  interval_cases n <;> decide

theorem toNat_high2 (a : UInt8) : (a >>> 2).toNat = a.toNat / 4 := by
  simp [Nat.shiftRight_eq_div_pow]

theorem toNat_low6 (a : UInt8) : (a &&& 0x3f).toNat = a.toNat % 64 := by
  rw [UInt8.toNat_and]
  exact Nat.and_two_pow_sub_one_eq_mod a.toNat 6

/-- Two bits above four. -/
theorem toNat_bits24 (a b : UInt8) :
    (((a &&& 0x03) <<< 4) ||| ((b &&& 0xf0) >>> 4)).toNat = a.toNat % 4 * 16 + b.toNat / 16 := by
  have ha : ((a &&& 0x03) <<< 4).toNat = 2 ^ 4 * (a.toNat % 4) := by
    have hmod : (a &&& 0x03).toNat = a.toNat % 4 := by
      rw [UInt8.toNat_and]
      exact Nat.and_two_pow_sub_one_eq_mod a.toNat 2
    rw [UInt8.toNat_shiftLeft, hmod, Nat.shiftLeft_eq, show (4 : UInt8).toNat % 8 = 4 from rfl]
    omega
  have hb : ((b &&& 0xf0) >>> 4).toNat = b.toNat / 16 := by
    have hlt := b.toNat_lt
    rw [UInt8.toNat_shiftRight, UInt8.toNat_and, Nat.shiftRight_and_distrib,
      show (0xf0 : UInt8).toNat >>> ((4 : UInt8).toNat % 8) = 2 ^ 4 - 1 from rfl,
      Nat.and_two_pow_sub_one_eq_mod, Nat.shiftRight_eq_div_pow,
      show (4 : UInt8).toNat % 8 = 4 from rfl]
    omega
  have hlt := b.toNat_lt
  rw [UInt8.toNat_or, ha, hb, ← Nat.two_pow_add_eq_or_of_lt (by omega)]
  omega

/-- Four bits above two. -/
theorem toNat_bits42 (b c : UInt8) :
    (((b &&& 0x0f) <<< 2) ||| ((c &&& 0xc0) >>> 6)).toNat = b.toNat % 16 * 4 + c.toNat / 64 := by
  have hb : ((b &&& 0x0f) <<< 2).toNat = 2 ^ 2 * (b.toNat % 16) := by
    have hmod : (b &&& 0x0f).toNat = b.toNat % 16 := by
      rw [UInt8.toNat_and]
      exact Nat.and_two_pow_sub_one_eq_mod b.toNat 4
    rw [UInt8.toNat_shiftLeft, hmod, Nat.shiftLeft_eq, show (2 : UInt8).toNat % 8 = 2 from rfl]
    omega
  have hc : ((c &&& 0xc0) >>> 6).toNat = c.toNat / 64 := by
    have hlt := c.toNat_lt
    rw [UInt8.toNat_shiftRight, UInt8.toNat_and, Nat.shiftRight_and_distrib,
      show (0xc0 : UInt8).toNat >>> ((6 : UInt8).toNat % 8) = 2 ^ 2 - 1 from rfl,
      Nat.and_two_pow_sub_one_eq_mod, Nat.shiftRight_eq_div_pow,
      show (6 : UInt8).toNat % 8 = 6 from rfl]
    omega
  have hlt := c.toNat_lt
  rw [UInt8.toNat_or, hb, hc, ← Nat.two_pow_add_eq_or_of_lt (by omega)]
  omega

theorem quad_eq (len : Nat) (a b c : UInt8) :
    quad len a b c = [Base64.digit (a.toNat / 4), Base64.digit (a.toNat % 4 * 16 + b.toNat / 16),
      if 1 < len then Base64.digit (b.toNat % 16 * 4 + c.toNat / 64) else Base64.padding,
      if 2 < len then Base64.digit (c.toNat % 64) else Base64.padding] := by
  have ha := a.toNat_lt
  have hb := b.toNat_lt
  have hc := c.toNat_lt
  rw [quad, encodeAt_eq (toNat_high2 a) (by omega), encodeAt_eq (toNat_bits24 a b) (by omega),
    encodeAt_eq (toNat_bits42 b c) (by omega), encodeAt_eq (toNat_low6 c) (by omega)]
  rfl

/-- What the code does behind `out`, where `text` is still to come. -/
def Writes (outSize : Nat) (out text : Bytes) (r : Except Fault (Int × Bytes)) : Prop :=
  if out.length + text.length + 1 < outSize
  then r = .ok (((out ++ text).length : Int), out ++ text ++ [0])
  else ∃ part, r = .ok (-1, part)

theorem b64End_writes : Writes outSize out [] (b64End outSize out.length out) := by
  rw [Writes, List.append_nil, List.length_nil]
  by_cases h : out.length + 1 < outSize
  · rw [if_pos (by omega), b64End, if_neg (by omega), put, if_pos (by simp; omega)]
    rfl
  · rw [if_neg (by omega), b64End, if_pos (by omega)]
    exact ⟨out, rfl⟩

theorem b64Round_writes {q text : Bytes} {next : Nat → Bytes → Except Fault (Int × Bytes)}
    (hq : q.length = 4)
    (hnext : Writes outSize (out ++ q) text (next (out ++ q).length (out ++ q))) :
    Writes outSize out (q ++ text) (b64Round outSize q next out.length out) := by
  have hlen : (out ++ q).length = out.length + 4 := by rw [List.length_append, hq]
  by_cases hroom : out.length + 4 < outSize
  · have hput : put outSize out q = .ok (out ++ q) := if_pos (by omega)
    have hround : b64Round outSize q next out.length out = next (out ++ q).length (out ++ q) := by
      rw [b64Round, if_neg (by omega), hput, hlen]
      rfl
    rw [hround, Writes, ← List.append_assoc, List.length_append, hq, ← Nat.add_assoc, ← hlen]
    exact hnext
  · rw [Writes, if_neg (by rw [List.length_append]; omega), b64Round, if_pos (by omega)]
    exact ⟨out, rfl⟩

theorem b64Loop_writes (outSize : Nat) (input out : Bytes) :
    Writes outSize out (Base64.text input) (b64Loop outSize input out.length out) := by
  induction input using Base64.text.induct generalizing out with
  | case1 => exact b64End_writes
  | case2 a =>
    have htext : Base64.text [a] = quad 1 a 0 0 ++ [] := by rw [quad_eq]; rfl
    rw [htext]
    exact b64Round_writes rfl b64End_writes
  | case3 a b =>
    have htext : Base64.text [a, b] = quad 2 a b 0 ++ [] := by rw [quad_eq]; rfl
    rw [htext]
    exact b64Round_writes rfl b64End_writes
  | case4 a b c s ih =>
    have htext : Base64.text (a :: b :: c :: s) = quad 3 a b c ++ Base64.text s := by
      rw [quad_eq]
      rfl
    rw [htext]
    exact b64Round_writes rfl (ih _)

/-- **The encoder.** With room for the text and two more bytes it writes the text and a terminator,
and otherwise its result is -1. -/
theorem lwsB64EncodeString_eq (input : Bytes) (outSize : Nat) :
    if (Base64.text input).length + 1 < outSize then
      lwsB64EncodeString input outSize =
        .ok (((Base64.text input).length : Int), Base64.text input ++ [0])
    else ∃ part, lwsB64EncodeString input outSize = .ok (-1, part) := by
  have h := b64Loop_writes outSize input []
  rwa [Writes, List.length_nil, Nat.zero_add, List.nil_append] at h

end Encoder

/-! ## The answer -/

section Answer

variable {o o' : ByteOrder} {key random : Bytes}

theorem digit_ne_zero (n : Nat) : Base64.digit n ≠ 0 := by
  by_cases h : n < 64
  · interval_cases n <;> decide
  · rw [Base64.digit, if_neg (by omega), if_neg (by omega), if_neg (by omega), if_neg (by omega)]
    decide

theorem zero_notMem_text (s : Bytes) : (0 : UInt8) ∉ Base64.text s := by
  have hdigit : ∀ n, (0 : UInt8) ≠ Base64.digit n := fun n => (digit_ne_zero n).symm
  have hpad : (0 : UInt8) ≠ Base64.padding := by decide
  induction s using Base64.text.induct with
  | case1 => simp [Base64.text]
  | case2 a => simp [Base64.text, hdigit, hpad]
  | case3 a b => simp [Base64.text, hdigit, hpad]
  | case4 a b c s ih => simp [Base64.text, hdigit, ih]

theorem cstr_eq {s : Bytes} (h : (0 : UInt8) ∉ s) : cstr s = s :=
  List.takeWhile_eq_self_iff.mpr fun _ hc => bne_iff_ne.mpr fun h0 => h (h0 ▸ hc)

theorem cstr_terminated {s : Bytes} (h : (0 : UInt8) ∉ s) : cstr (s ++ [0]) = s := by
  have hs : ∀ c ∈ s, (c != 0) = true := fun c hc => bne_iff_ne.mpr fun h0 => h (h0 ▸ hc)
  rw [cstr, List.takeWhile_append_of_pos hs]
  simp

/-- The digest that is encoded for a key. -/
def keyDigest (key : Bytes) : Bytes := Sha1.digest (key ++ guid)

theorem hashKey_eq {bufSize : Nat} (h : (cstr key).length + guid.length + 1 ≤ bufSize) :
    hashKey o bufSize key = .ok (keyDigest (cstr key)) := by
  have hput : put bufSize [] (cstr key ++ guid ++ [0]) = .ok (cstr key ++ guid ++ [0]) :=
    if_pos (by simp only [List.length_append, List.length_nil, List.length_cons]; omega)
  rw [hashKey, hput]
  show sha1 o ((cstr key ++ guid ++ [0]).take (cstr key ++ guid).length) = _
  rw [List.take_left]
  exact sha1_eq o _

theorem encode_digest {outSize : Nat} (h : 29 < outSize) (key : Bytes) :
    lwsB64EncodeString (keyDigest key) outSize = .ok (28, Base64.text (keyDigest key) ++ [0]) := by
  have hlen : (Base64.text (keyDigest key)).length = 28 := by
    rw [Base64.length_text, keyDigest, Sha1.length_digest]
  have hencode := lwsB64EncodeString_eq (keyDigest key) outSize
  rwa [hlen, if_pos h] at hencode

theorem clientKey_eq (hlen : random.length = 16) :
    clientKey o random = .ok (some ⟨Base64.text random ++ [0],
      Base64.text (keyDigest (Base64.text random)) ++ [0]⟩) := by
  have htext : (Base64.text random).length = 24 := by rw [Base64.length_text, hlen]
  have hkey := lwsB64EncodeString_eq random 40
  rw [htext, if_pos (by decide)] at hkey
  have hcstr := cstr_terminated (zero_notMem_text random)
  have hhash : hashKey o 128 (Base64.text random ++ [0]) =
      .ok (keyDigest (cstr (Base64.text random ++ [0]))) :=
    hashKey_eq (by rw [hcstr, htext]; decide)
  rw [clientKey, if_neg (by simpa using hlen), hkey]
  show (hashKey o 128 (Base64.text random ++ [0]) >>= fun hash => _) = _
  rw [hhash, hcstr]
  show (lwsB64EncodeString (keyDigest (Base64.text random)) 30 >>= fun r => _) = _
  rw [encode_digest (by decide)]
  rfl

theorem serverAccept_eq (hne : key ≠ []) (hkey : (0 : UInt8) ∉ key) (hlen : key.length < 128) :
    serverAccept o key = .ok (some (Base64.text (keyDigest key))) := by
  have hguid : guid.length = 36 := rfl
  have hhash : hashKey o 4096 key = .ok (keyDigest (cstr key)) :=
    hashKey_eq (by rw [cstr_eq hkey, hguid]; omega)
  rw [serverAccept, if_neg (by simpa using hne), if_neg (by omega), hhash, cstr_eq hkey]
  show (lwsB64EncodeString (keyDigest key) 4096 >>= fun r => _) = _
  rw [encode_digest (by decide)]
  show Except.ok (some (cstr (Base64.text (keyDigest key) ++ [0]))) = _
  rw [cstr_terminated (zero_notMem_text _)]

/-- **The key of the handshake.** From any 16 random bytes the client makes a key and the answer
that it waits for, and a server makes an answer from the key that it has read, on machines of any
byte order and inside all their buffers. The client takes the answer exactly if the key that the
server has read, with the fixed text behind it, has the digest of the key that was sent; so it
always takes the answer to its own key. -/
theorem accept_iff (o o' : ByteOrder) (random key : Bytes) (hrandom : random.length = 16)
    (hne : key ≠ []) (hkey : (0 : UInt8) ∉ key) (hlen : key.length < 128) :
    ∃ sent answer, clientKey o random = .ok (some sent) ∧
      cstr sent.keyB64 = Base64.text random ∧ serverAccept o' key = .ok (some answer) ∧
      (sent.takes answer = true ↔
        Sha1.digest (key ++ guid) = Sha1.digest (cstr sent.keyB64 ++ guid)) := by
  have hsent := cstr_terminated (zero_notMem_text random)
  refine ⟨_, _, clientKey_eq hrandom, hsent, serverAccept_eq hne hkey hlen, ?_⟩
  rw [ClientKey.takes, beq_iff_eq, cstr_eq (zero_notMem_text _), hsent]
  show Base64.text (keyDigest key) =
    cstr (Base64.text (keyDigest (Base64.text random)) ++ [0]) ↔ _
  rw [cstr_terminated (zero_notMem_text _)]
  exact Base64.text_injective.eq_iff

/-- The answer to the client's own key. -/
theorem accept_iff_own_key :
    ∃ sent answer, clientKey .little (List.replicate 16 0) = .ok (some sent) ∧
      serverAccept .big (cstr sent.keyB64) = .ok (some answer) ∧ sent.takes answer = true := by
  obtain ⟨sent, answer, hsent, hkey, hanswer, htakes⟩ := accept_iff .little .big
    (List.replicate 16 0) (Base64.text (List.replicate 16 0)) (by decide) (by decide) (by decide)
    (by decide)
  exact ⟨sent, answer, hsent, by rw [hkey, hanswer], htakes.mpr (by rw [hkey])⟩

end Answer

end Lws

end Neof5
