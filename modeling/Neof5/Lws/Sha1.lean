import Neof5.CardText
import Neof5.Picojson
import Neof5.Lib.Sha1

/-!
# The hash of the handshake (`libwebsockets-1.23/lib/sha-1.c`)

The code keeps 16 words of the message schedule, in the block itself, and one block that `sha1_loop`
fills piece by piece. A word of the block is read as the machine reads it, so on little-endian
machines the bytes of each word are swapped before.

* `sha1Step_eq`: a step on a full block is the compression of the standard.
* `sha1_digest`: for every input, in whatever pieces and on both kinds of machines, the code writes
  the digest of the standard, and nothing behind a buffer.
-/

namespace Neof5

namespace Lws

open Sha1 (Words rotl beWord beBytes beBytes64)
open Blocks (Pending absorbAll)

/-- `BYTE_ORDER` -/
inductive ByteOrder where
  | little
  | big
  deriving DecidableEq, Repr

/-- A word that stands in memory as these four bytes. -/
def ByteOrder.word (o : ByteOrder) (b₀ b₁ b₂ b₃ : UInt8) : UInt32 :=
  match o with
  | .little => beWord b₃ b₂ b₁ b₀
  | .big => beWord b₀ b₁ b₂ b₃

/-- `m.b8` -/
abbrev Block := Vector UInt8 64

/-- `struct sha1_ctxt`, with the words of `h` and the number in `c` -/
structure Sha1Ctxt where
  h : Words
  c : UInt64
  m : Block
  count : Nat
  deriving DecidableEq

/-- `_K[t / 20]` -/
def sha1K (t : Nat) : UInt32 :=
  match t / 20 with
  | 0 => 0x5a827999
  | 1 => 0x6ed9eba1
  | 2 => 0x8f1bbcdc
  | _ => 0xca62c1d6

/-- `F0`, and `F1`, `F2`, `F3` below -/
def sha1F0 (b c d : UInt32) : UInt32 := (b &&& c) ||| (~~~b &&& d)

def sha1F1 (b c d : UInt32) : UInt32 := (b ^^^ c) ^^^ d

def sha1F2 (b c d : UInt32) : UInt32 := (b &&& c) ||| (b &&& d) ||| (c &&& d)

def sha1F3 (b c d : UInt32) : UInt32 := (b ^^^ c) ^^^ d

/-- The bytes of each word in the other order. -/
def swapWords (m : Block) : Block := Vector.ofFn fun i => m[4 * (i.val / 4) + (3 - i.val % 4)]

/-- `m.b32` -/
def ByteOrder.words (o : ByteOrder) (m : Block) : Vector UInt32 16 :=
  Vector.ofFn fun n => o.word m[4 * n.val] m[4 * n.val + 1] m[4 * n.val + 2] m[4 * n.val + 3]

theorem slot_lt (t : Nat) : t % 16 < 16 := Nat.mod_lt _ (by decide)

/-- `W(s) = S(1, ...)` with `s = t & 0x0f` -/
def nextWord (t : Nat) (w : Vector UInt32 16) : Vector UInt32 16 :=
  have := slot_lt (t + 13)
  have := slot_lt (t + 8)
  have := slot_lt (t + 2)
  have := slot_lt t
  w.set (t % 16)
    (rotl 1 (w[(t + 13) % 16] ^^^ w[(t + 8) % 16] ^^^ w[(t + 2) % 16] ^^^ w[t % 16]))

/-- The body of the loops over `t`. From 20 on the source does not ask whether `t` is at least
16. -/
def roundBody (f : UInt32 → UInt32 → UInt32 → UInt32) (s : Vector UInt32 16 × Words) (t : Nat) :
    Vector UInt32 16 × Words :=
  let w := if 16 ≤ t then nextWord t s.1 else s.1
  have := slot_lt t
  (w, { a := rotl 5 s.2.a + f s.2.b s.2.c s.2.d + s.2.e + w[t % 16] + sha1K t
        b := s.2.a
        c := rotl 30 s.2.b
        d := s.2.c
        e := s.2.d })

/-- The four loops. -/
def sha1Rounds (s : Vector UInt32 16 × Words) : Vector UInt32 16 × Words :=
  let s := (List.range 20).foldl (roundBody sha1F0) s
  let s := (List.range' 20 20).foldl (roundBody sha1F1) s
  let s := (List.range' 40 20).foldl (roundBody sha1F2) s
  (List.range' 60 20).foldl (roundBody sha1F3) s

/-- `sha1_step` -/
def sha1Step (o : ByteOrder) (ctxt : Sha1Ctxt) : Sha1Ctxt :=
  let m := match o with
    | .little => swapWords ctxt.m
    | .big => ctxt.m
  let s := sha1Rounds (o.words m, ctxt.h)
  { ctxt with h := ctxt.h.add s.2, m := Vector.replicate 64 0 }

/-- `memcpy` and `bzero` into the block -/
def store (m : Block) (offset : Nat) (bytes : Bytes) : Except Fault Block :=
  if offset + bytes.length ≤ 64 then
    .ok (Vector.ofFn fun i => if offset ≤ i.val then bytes.getD (i.val - offset) m[i] else m[i])
  else .error .badIndex

/-- After `COUNT` has grown: a full block is compressed. -/
def stepIfFull (o : ByteOrder) (ctxt : Sha1Ctxt) : Sha1Ctxt :=
  if ctxt.count % 64 = 0 then sha1Step o ctxt else ctxt

/-- `COUNT += n; COUNT %= 64`, an `unsigned char` -/
def addCount (count n : Nat) : Nat := (count + n) % 256 % 64

/-- `PUTPAD` -/
def putPad (o : ByteOrder) (x : UInt8) (ctxt : Sha1Ctxt) : Except Fault Sha1Ctxt := do
  let m ← store ctxt.m (ctxt.count % 64) [x]
  return stepIfFull o { ctxt with m, count := addCount ctxt.count 1 }

/-- `sha1_init` -/
def sha1Init : Sha1Ctxt :=
  ⟨⟨0x67452301, 0xefcdab89, 0x98badcfe, 0x10325476, 0xc3d2e1f0⟩, 0, Vector.replicate 64 0, 0⟩

/-- `c.b8` -/
def ByteOrder.bytes64 (o : ByteOrder) (c : UInt64) : Bytes :=
  match o with
  | .little => (beBytes64 c).reverse
  | .big => beBytes64 c

/-- The calls of `PUTPAD` with the bytes of `c`. -/
def putLength (o : ByteOrder) (ctxt : Sha1Ctxt) : Except Fault Sha1Ctxt :=
  let bytes := o.bytes64 ctxt.c
  let bytes := match o with
    | .little => bytes.reverse
    | .big => bytes
  bytes.foldlM (fun ctxt x => putPad o x ctxt) ctxt

/-- The branch of `sha1_pad` in which the length does not fit into the block. -/
def fillBlock (o : ByteOrder) (ctxt : Sha1Ctxt) : Except Fault Sha1Ctxt := do
  let padlen := 64 - ctxt.count % 64
  if padlen < 8 then
    let m ← store ctxt.m (ctxt.count % 64) (List.replicate padlen 0)
    return sha1Step o { ctxt with m, count := addCount ctxt.count padlen }
  else return ctxt

/-- `sha1_pad` -/
def sha1Pad (o : ByteOrder) (ctxt : Sha1Ctxt) : Except Fault Sha1Ctxt := do
  let ctxt ← putPad o 0x80 ctxt
  let ctxt ← fillBlock o ctxt
  let padlen := 64 - ctxt.count % 64
  let m ← store ctxt.m (ctxt.count % 64) (List.replicate (padlen - 8) 0)
  putLength o { ctxt with m, count := addCount ctxt.count (padlen - 8) }

/-- `sha1_loop`; each round reads at least one byte, so as many rounds as bytes are enough. -/
def sha1Loop (o : ByteOrder) : Nat → Bytes → Sha1Ctxt → Except Fault Sha1Ctxt
  | _, [], ctxt => .ok ctxt
  | 0, _ :: _, _ => .error .depth
  | n + 1, input, ctxt => do
    let gapstart := ctxt.count % 64
    let gaplen := 64 - gapstart
    let copysiz := if gaplen < input.length then gaplen else input.length
    let m ← store ctxt.m gapstart (input.take copysiz)
    sha1Loop o n (input.drop copysiz) (stepIfFull o { ctxt with
      m
      count := addCount ctxt.count copysiz
      c := ctxt.c + (copysiz * 8).toUInt64 })

/-- The four bytes of a word of `h`, as `sha1_result` copies them. -/
def ByteOrder.digestWord (o : ByteOrder) (w : UInt32) : Bytes :=
  -- What stands in memory: the least significant byte first on little-endian machines.
  let b8 := match o with
    | .little => (beBytes w).reverse
    | .big => beBytes w
  match o with
  | .little => b8.reverse
  | .big => b8

/-- `sha1_result` -/
def sha1Result (o : ByteOrder) (ctxt : Sha1Ctxt) : Except Fault Bytes := do
  let ctxt ← sha1Pad o ctxt
  let h := ctxt.h
  return o.digestWord h.a ++ o.digestWord h.b ++ o.digestWord h.c ++ o.digestWord h.d ++
    o.digestWord h.e

/-- `SHA1` -/
def sha1 (o : ByteOrder) (d : Bytes) : Except Fault Bytes := do
  let ctxt ← sha1Loop o d.length d sha1Init
  sha1Result o ctxt

/-! ## The rounds -/

section Rounds

variable {block : Bytes} {t n : Nat} {w : Vector UInt32 16} {v : Words}

/-- Before round `t` the slots hold the last 16 words of the schedule, or the first ones. -/
def Window (block : Bytes) (t : Nat) (w : Vector UInt32 16) : Prop :=
  ∀ j, j < max t 16 → t ≤ j + 16 → w[j % 16] = Sha1.schedule block j

theorem Window.slot (h : Window block t w) {i j : Nat} (hi : i < 16) (hij : i = j % 16)
    (hj : j < max t 16) (ht : t ≤ j + 16) : w[i] = Sha1.schedule block j := by
  subst hij
  exact h j hj ht

theorem Window.nextWord (h : Window block t w) (ht : 16 ≤ t) :
    Window block (t + 1) (nextWord t w) := by
  have hnew : rotl 1 (w[(t + 13) % 16] ^^^ w[(t + 8) % 16] ^^^ w[(t + 2) % 16] ^^^ w[t % 16]) =
      Sha1.schedule block t := by
    rw [Sha1.schedule_recurrence ht,
      h.slot (slot_lt _) (j := t - 3) (by omega) (by omega) (by omega),
      h.slot (slot_lt _) (j := t - 8) (by omega) (by omega) (by omega),
      h.slot (slot_lt _) (j := t - 14) (by omega) (by omega) (by omega),
      h.slot (slot_lt _) (j := t - 16) (by omega) (by omega) (by omega)]
  intro j hj hjt
  simp only [Lws.nextWord, Vector.getElem_set]
  by_cases hs : t % 16 = j % 16
  · have hjeq : j = t := by omega
    subst hjeq
    rw [if_pos rfl, hnew]
  · rw [if_neg hs]
    exact h j (by omega) (by omega)

/-- The slots before round `t`, with the new word in its place. -/
theorem Window.round (h : Window block t w) :
    Window block (t + 1) (if 16 ≤ t then Lws.nextWord t w else w) := by
  split_ifs with ht
  · exact h.nextWord ht
  · exact fun j hj hjt => h j (by omega) (by omega)

theorem sha1K_eq (t : Nat) (ht : t < 80) : sha1K t = Sha1.const t := by
  have h : t / 20 = 0 ∨ t / 20 = 1 ∨ t / 20 = 2 ∨ t / 20 = 3 := by omega
  rw [Sha1.const]
  rcases h with h | h | h | h
  · rw [if_pos (by omega), sha1K, h]
    rfl
  · rw [if_neg (by omega), if_pos (by omega), sha1K, h]
    rfl
  · rw [if_neg (by omega), if_neg (by omega), if_pos (by omega), sha1K, h]
    rfl
  · rw [if_neg (by omega), if_neg (by omega), if_neg (by omega), sha1K, h]
    rfl

/-- One of the four loops. -/
theorem rounds_eq {f : UInt32 → UInt32 → UInt32 → UInt32} (hn : t + n ≤ 80)
    (hf : ∀ u, t ≤ u → u < t + n → f = Sha1.fn u) (hw : Window block t w) :
    ∃ w', (List.range' t n).foldl (roundBody f) (w, v) =
        (w', (List.range' t n).foldl (Sha1.round block) v) ∧ Window block (t + n) w' := by
  induction n generalizing t w v with
  | zero => exact ⟨w, rfl, hw⟩
  | succ n ih =>
    have hnew := hw.round
    have hword := hnew.slot (slot_lt t) rfl (by omega) (by omega)
    have hbody : roundBody f (w, v) t =
        (if 16 ≤ t then nextWord t w else w, Sha1.round block v t) := by
      simp only [roundBody, Sha1.round, hword, sha1K_eq t (by omega), hf t le_rfl (by omega)]
    obtain ⟨w', hrest, hw'⟩ := ih (v := Sha1.round block v t) (by omega)
      (fun u hu hu' => hf u (by omega) (by omega)) hnew
    rw [List.range'_succ, List.foldl_cons, List.foldl_cons, hbody, hrest]
    exact ⟨w', rfl, by rwa [show t + (n + 1) = t + 1 + n by omega]⟩

/-- **The rounds.** Over the words of a block the four loops are the 80 rounds of the standard. -/
theorem sha1Rounds_eq (hw : Window block 0 w) :
    (sha1Rounds (w, v)).2 = (List.range 80).foldl (Sha1.round block) v := by
  have hfn : ∀ (f : UInt32 → UInt32 → UInt32 → UInt32) (lo : Nat),
      (∀ u, lo ≤ u → u < lo + 20 → ∀ b c d, f b c d = Sha1.fn u b c d) →
      ∀ u, lo ≤ u → u < lo + 20 → f = Sha1.fn u :=
    fun f lo h u h1 h2 => by funext b c d; exact h u h1 h2 b c d
  obtain ⟨w₁, h₁, hw₁⟩ := rounds_eq (f := sha1F0) (t := 0) (n := 20) (v := v) (by omega)
    (hfn _ _ fun u _ hu b c d => by rw [Sha1.fn, if_pos (by omega), sha1F0]) hw
  obtain ⟨w₂, h₂, hw₂⟩ := rounds_eq (f := sha1F1) (t := 20) (n := 20) (by omega)
    (hfn _ _ fun u hl hu b c d => by
      rw [Sha1.fn, if_neg (by omega), if_pos (by omega), sha1F1]) hw₁
  obtain ⟨w₃, h₃, hw₃⟩ := rounds_eq (f := sha1F2) (t := 40) (n := 20) (by omega)
    (hfn _ _ fun u hl hu b c d => by
      rw [Sha1.fn, if_neg (by omega), if_neg (by omega), if_pos (by omega), sha1F2]) hw₂
  obtain ⟨w₄, h₄, -⟩ := rounds_eq (f := sha1F3) (t := 60) (n := 20) (by omega)
    (hfn _ _ fun u hl hu b c d => by
      rw [Sha1.fn, if_neg (by omega), if_neg (by omega), if_neg (by omega), sha1F3]) hw₃
  have hsplit : List.range 80 =
      List.range' 0 20 ++ List.range' 20 20 ++ List.range' 40 20 ++ List.range' 60 20 := by decide
  rw [sha1Rounds, List.range_eq_range', h₁, h₂, h₃, h₄, hsplit]
  simp only [List.foldl_append]

end Rounds

/-! ## The block -/

section Block

variable {o : ByteOrder} {m m' : Block} {ctxt : Sha1Ctxt} {bytes : Bytes} {offset : Nat}

/-- The words of the block as the machine reads them after the swap. -/
theorem words_window (o : ByteOrder) (m : Block) :
    Window m.toList 0 (o.words (match o with | .little => swapWords m | .big => m)) := by
  intro j hj _
  have hj : j < 16 := by omega
  have hm : ∀ i (hi : i < 64), m.toList.getD i 0 = m[i] := by
    intro i hi
    rw [List.getD_eq_getElem _ _ (by simpa using hi), Vector.getElem_toList]
  rw [Sha1.schedule_word hj, Sha1.word, hm _ (by omega), hm _ (by omega), hm _ (by omega),
    hm _ (by omega)]
  have hslot : j % 16 = j := Nat.mod_eq_of_lt hj
  simp only [ByteOrder.words, hslot]
  cases o with
  | big => rw [Vector.getElem_ofFn, ByteOrder.word]
  | little =>
    have h : 4 * j / 4 = j ∧ 4 * j % 4 = 0 ∧ (4 * j + 1) / 4 = j ∧ (4 * j + 1) % 4 = 1 ∧
        (4 * j + 2) / 4 = j ∧ (4 * j + 2) % 4 = 2 ∧ (4 * j + 3) / 4 = j ∧
        (4 * j + 3) % 4 = 3 := by omega
    obtain ⟨h0, h0', h1, h1', h2, h2', h3, h3'⟩ := h
    simp only [Vector.getElem_ofFn, ByteOrder.word, swapWords, h0, h0', h1, h1', h2, h2', h3, h3']
    rfl

/-- **A step.** On a full block it is the compression of the standard, in both byte orders. -/
theorem sha1Step_eq (o : ByteOrder) (ctxt : Sha1Ctxt) :
    sha1Step o ctxt = { ctxt with
      h := Sha1.compress ctxt.h ctxt.m.toList
      m := Vector.replicate 64 0 } := by
  rw [Sha1.compress, ← sha1Rounds_eq (words_window o ctxt.m)]
  cases o <;> rfl

theorem store_eq (h : offset + bytes.length ≤ 64) :
    ∃ m', store m offset bytes = .ok m' ∧
      m'.toList = m.toList.take offset ++ bytes ++ m.toList.drop (offset + bytes.length) := by
  refine ⟨_, if_pos h, ?_⟩
  apply List.ext_getElem
  · simp
    omega
  · intro i hi hi'
    have hi64 : i < 64 := by simpa using hi
    rw [Vector.getElem_toList, Vector.getElem_ofFn]
    show (if offset ≤ i then bytes.getD (i - offset) m[i] else m[i]) = _
    by_cases hlo : i < offset
    · -- before the bytes
      rw [if_neg (by omega), List.getElem_append_left (by simp; omega),
        List.getElem_append_left (by simp; omega), List.getElem_take, Vector.getElem_toList]
    · rw [if_pos (by omega)]
      by_cases hmid : i - offset < bytes.length
      · rw [List.getD_eq_getElem _ _ hmid, List.getElem_append_left (by simp; omega),
          List.getElem_append_right (by simp; omega)]
        simp [Nat.min_eq_left (show offset ≤ 64 by omega)]
      · -- behind the bytes
        rw [List.getD_eq_default _ _ (by omega), List.getElem_append_right (by simp; omega)]
        simp only [List.getElem_drop, Vector.getElem_toList, List.length_append, List.length_take,
          Vector.length_toList]
        congr 1
        omega

end Block

/-! ## The context -/

section Context

variable {o : ByteOrder} {ctxt : Sha1Ctxt} {p : Pending Words UInt8} {c : UInt64}
  {input bytes : Bytes}

/-- The context stands for what was absorbed. Behind the bytes that wait the block is zero. -/
structure Sha1Ctxt.Holds (ctxt : Sha1Ctxt) (p : Pending Words UInt8) : Prop where
  h : ctxt.h = p.state
  count : ctxt.count = p.rest.length
  lt : p.rest.length < 64
  m : ctxt.m.toList = p.rest ++ List.replicate (64 - p.rest.length) 0

theorem sha1Init_holds : sha1Init.Holds ⟨Sha1.initial, []⟩ := by
  refine ⟨rfl, rfl, by decide, ?_⟩
  simp [sha1Init]

/-- Bytes behind those that wait. -/
theorem Sha1Ctxt.Holds.stored (h : ctxt.Holds p) (hlen : p.rest.length + bytes.length ≤ 64) :
    ∃ m, store ctxt.m (ctxt.count % 64) bytes = .ok m ∧
      m.toList = p.rest ++ bytes ++ List.replicate (64 - (p.rest.length + bytes.length)) 0 := by
  have hcount : ctxt.count % 64 = p.rest.length := by rw [h.count, Nat.mod_eq_of_lt h.lt]
  obtain ⟨m, hm, hlist⟩ := store_eq (m := ctxt.m) hlen
  refine ⟨m, by rw [hcount, hm], ?_⟩
  rw [hlist, h.m, List.take_left, ← List.drop_drop, List.drop_left, List.drop_replicate,
    show 64 - p.rest.length - bytes.length = 64 - (p.rest.length + bytes.length) by omega]

/-- The block is not full yet. -/
theorem Sha1Ctxt.Holds.short (h : ctxt.Holds p) (c : UInt64) (bytes : Bytes)
    (hlen : p.rest.length + bytes.length < 64) :
    ∃ m, store ctxt.m (ctxt.count % 64) bytes = .ok m ∧
      Sha1Ctxt.Holds { ctxt with m, count := addCount ctxt.count bytes.length, c }
        (absorbAll 64 Sha1.compress p bytes) := by
  obtain ⟨m, hm, hlist⟩ := h.stored hlen.le
  have hshort : absorbAll 64 Sha1.compress p bytes = ⟨p.state, p.rest ++ bytes⟩ :=
    Blocks.absorbAll_short hlen
  have hrest : (p.rest ++ bytes).length = p.rest.length + bytes.length := List.length_append
  have hcount : addCount ctxt.count bytes.length = p.rest.length + bytes.length := by
    rw [addCount, h.count]
    omega
  rw [hshort]
  exact ⟨m, hm, h.h, hcount.trans hrest.symm, by rw [hrest]; exact hlen, by rw [hrest, hlist]⟩

/-- The block is full. -/
theorem Sha1Ctxt.Holds.fill (h : ctxt.Holds p) (o : ByteOrder) (c : UInt64) (bytes : Bytes)
    (hlen : p.rest.length + bytes.length = 64) :
    ∃ m, store ctxt.m (ctxt.count % 64) bytes = .ok m ∧
      (sha1Step o { ctxt with m, count := addCount ctxt.count bytes.length, c }).Holds
        (absorbAll 64 Sha1.compress p bytes) := by
  obtain ⟨m, hm, hlist⟩ := h.stored hlen.le
  have hne : bytes ≠ [] := by
    have := h.lt
    rintro rfl
    rw [List.length_nil] at hlen
    omega
  have hfill : absorbAll 64 Sha1.compress p bytes = ⟨Sha1.compress p.state (p.rest ++ bytes), []⟩ :=
    Blocks.absorbAll_fill hne hlen
  rw [hlen, Nat.sub_self, List.replicate_zero, List.append_nil] at hlist
  have hcount : addCount ctxt.count bytes.length = 0 := by
    rw [addCount, h.count, hlen]
  refine ⟨m, hm, ?_⟩
  rw [hfill, sha1Step_eq]
  refine ⟨?_, hcount, Nat.zero_lt_succ _, by simp⟩
  show Sha1.compress ctxt.h m.toList = Sha1.compress p.state (p.rest ++ bytes)
  rw [hlist, h.h]

/-- Bytes that fit into the block, with the step when it is full. -/
theorem Sha1Ctxt.Holds.feed (h : ctxt.Holds p) (o : ByteOrder) (c : UInt64) (bytes : Bytes)
    (hne : bytes ≠ []) (hlen : p.rest.length + bytes.length ≤ 64) :
    ∃ m, store ctxt.m (ctxt.count % 64) bytes = .ok m ∧
      (stepIfFull o { ctxt with m, count := addCount ctxt.count bytes.length, c }).Holds
        (absorbAll 64 Sha1.compress p bytes) := by
  have hpos : 0 < bytes.length := List.length_pos_iff.mpr hne
  have hcount : addCount ctxt.count bytes.length % 64 = (p.rest.length + bytes.length) % 64 := by
    rw [addCount, h.count]
    omega
  rcases Nat.lt_or_eq_of_le hlen with hlt | heq
  · obtain ⟨m, hm, hholds⟩ := h.short c bytes hlt
    refine ⟨m, hm, ?_⟩
    have hpart : addCount ctxt.count bytes.length % 64 ≠ 0 := by omega
    rwa [stepIfFull, if_neg hpart]
  · obtain ⟨m, hm, hholds⟩ := h.fill o c bytes heq
    refine ⟨m, hm, ?_⟩
    have hfull : addCount ctxt.count bytes.length % 64 = 0 := by omega
    rwa [stepIfFull, if_pos hfull]

theorem stepIfFull_c (o : ByteOrder) (ctxt : Sha1Ctxt) : (stepIfFull o ctxt).c = ctxt.c := by
  rw [stepIfFull]
  split_ifs
  · rw [sha1Step_eq]
  · rfl

/-- `sha1_loop` absorbs its input and counts its bits. -/
theorem sha1Loop_holds {n : Nat} (h : ctxt.Holds p) (hn : input.length ≤ n) :
    ∃ ctxt', sha1Loop o n input ctxt = .ok ctxt' ∧
      ctxt'.Holds (absorbAll 64 Sha1.compress p input) ∧
      ctxt'.c = ctxt.c + (input.length * 8).toUInt64 := by
  induction n generalizing input ctxt p with
  | zero =>
    rw [Nat.le_zero, List.length_eq_zero_iff] at hn
    subst hn
    exact ⟨ctxt, by rw [sha1Loop], h, by simp⟩
  | succ n ih =>
    rcases input with _ | ⟨x, xs⟩
    · exact ⟨ctxt, by rw [sha1Loop], h, by simp⟩
    · have hlt := h.lt
      have hcount : ctxt.count % 64 = p.rest.length := by rw [h.count, Nat.mod_eq_of_lt hlt]
      have hpos : 0 < (x :: xs).length := Nat.zero_lt_succ _
      set input := x :: xs with hinput
      set copysiz := if 64 - ctxt.count % 64 < input.length then 64 - ctxt.count % 64
        else input.length with hcopy
      have hsize : 0 < copysiz ∧ copysiz ≤ input.length ∧ p.rest.length + copysiz ≤ 64 := by
        rw [hcopy, hcount]
        split_ifs <;> omega
      obtain ⟨h0, hle, hfit⟩ := hsize
      have htake : (input.take copysiz).length = copysiz := by rw [List.length_take]; omega
      obtain ⟨m, hm, hholds⟩ := h.feed o (ctxt.c + (copysiz * 8).toUInt64) (input.take copysiz)
        (fun he => by rw [he, List.length_nil] at htake; omega) (by rw [htake]; exact hfit)
      rw [htake] at hholds
      have hdrop : (input.drop copysiz).length ≤ n := by rw [List.length_drop]; omega
      obtain ⟨ctxt', hloop, hfinal, hc⟩ := ih hholds hdrop
      refine ⟨ctxt', ?_, ?_, ?_⟩
      · show (store ctxt.m (ctxt.count % 64) (input.take copysiz) >>= fun m =>
          sha1Loop o n (input.drop copysiz) (stepIfFull o { ctxt with
            m
            count := addCount ctxt.count copysiz
            c := ctxt.c + (copysiz * 8).toUInt64 })) = _
        rw [hm]
        exact hloop
      · rwa [← Blocks.absorbAll_append, List.take_append_drop] at hfinal
      · rw [hc, stepIfFull_c, List.length_drop, UInt64.add_assoc, ← UInt64.ofNat_add]
        congr 2
        omega

theorem putPad_holds (h : ctxt.Holds p) (x : UInt8) :
    ∃ ctxt', putPad o x ctxt = .ok ctxt' ∧ ctxt'.Holds (absorbAll 64 Sha1.compress p [x]) ∧
      ctxt'.c = ctxt.c := by
  obtain ⟨m, hm, hholds⟩ := h.feed o ctxt.c [x] (by simp)
    (by have := h.lt; simpa using this)
  refine ⟨_, ?_, hholds, stepIfFull_c o _⟩
  rw [putPad, hm]
  rfl

theorem putPads_holds (h : ctxt.Holds p) (bytes : Bytes) :
    ∃ ctxt', bytes.foldlM (fun ctxt x => putPad o x ctxt) ctxt = .ok ctxt' ∧
      ctxt'.Holds (absorbAll 64 Sha1.compress p bytes) := by
  induction bytes generalizing ctxt p with
  | nil => exact ⟨ctxt, rfl, h⟩
  | cons x bytes ih =>
    obtain ⟨ctxt₁, hx, h₁, -⟩ := putPad_holds (o := o) h x
    obtain ⟨ctxt₂, hrest, h₂⟩ := ih h₁
    rw [← Blocks.absorbAll_append] at h₂
    refine ⟨ctxt₂, ?_, h₂⟩
    rw [List.foldlM_cons, hx]
    exact hrest

/-- Both byte orders put the length with its most significant byte first. -/
theorem putLength_holds (h : ctxt.Holds p) :
    ∃ ctxt', putLength o ctxt = .ok ctxt' ∧
      ctxt'.Holds (absorbAll 64 Sha1.compress p (beBytes64 ctxt.c)) := by
  have hbytes : putLength o ctxt =
      (beBytes64 ctxt.c).foldlM (fun ctxt x => putPad o x ctxt) ctxt := by
    cases o
    · rw [putLength, ByteOrder.bytes64, List.reverse_reverse]
    · rfl
  rw [hbytes]
  exact putPads_holds h _

/-- The zeros that fill the block when the length does not fit behind the one bit. -/
theorem fillBlock_holds (h : ctxt.Holds p) :
    ∃ ctxt' k, fillBlock o ctxt = .ok ctxt' ∧
      ctxt'.Holds (absorbAll 64 Sha1.compress p (List.replicate k 0)) ∧ ctxt'.c = ctxt.c ∧
      k = if 56 < p.rest.length then 64 - p.rest.length else 0 := by
  have hlt := h.lt
  have hcount : ctxt.count % 64 = p.rest.length := by rw [h.count, Nat.mod_eq_of_lt hlt]
  by_cases hfull : 56 < p.rest.length
  · obtain ⟨m, hm, hholds⟩ := h.fill o ctxt.c
      (List.replicate (64 - p.rest.length) 0) (by rw [List.length_replicate]; omega)
    rw [List.length_replicate] at hholds
    rw [hcount] at hm
    refine ⟨_, 64 - p.rest.length, ?_, hholds, by rw [sha1Step_eq], by rw [if_pos hfull]⟩
    rw [fillBlock, hcount, if_pos (by omega), hm]
    rfl
  · refine ⟨ctxt, 0, ?_, h, rfl, by rw [if_neg hfull]⟩
    rw [fillBlock, hcount, if_neg (by omega)]
    rfl

/-- `sha1_pad` absorbs the padding of the standard. -/
theorem sha1Pad_holds (h : ctxt.Holds p) :
    ∃ ctxt', sha1Pad o ctxt = .ok ctxt' ∧
      ctxt'.Holds (absorbAll 64 Sha1.compress p
        (0x80 :: (List.replicate (Sha1.zeros p.rest.length) 0 ++ beBytes64 ctxt.c))) := by
  have hlt := h.lt
  obtain ⟨ctxt₁, h₁, hholds₁, hc₁⟩ := putPad_holds (o := o) h 0x80
  have hlen₁ := Blocks.length_absorbAll (f := Sha1.compress) hlt [(0x80 : UInt8)]
  obtain ⟨ctxt₂, k, h₂, hholds₂, hc₂, hk⟩ := fillBlock_holds (o := o) hholds₁
  have hlen₂ := Blocks.length_absorbAll (f := Sha1.compress) hholds₁.lt
    (List.replicate k (0 : UInt8))
  rw [List.length_singleton] at hlen₁
  rw [List.length_replicate] at hlen₂
  set p₁ := absorbAll 64 Sha1.compress p [(0x80 : UInt8)] with hp₁
  set p₂ := absorbAll 64 Sha1.compress p₁ (List.replicate k (0 : UInt8)) with hp₂
  have hfit : p₂.rest.length ≤ 56 := by
    split_ifs at hk <;> omega
  have hcount : ctxt₂.count % 64 = p₂.rest.length := by
    rw [hholds₂.count, Nat.mod_eq_of_lt hholds₂.lt]
  obtain ⟨m, hm, hholds₃⟩ := hholds₂.short ctxt₂.c
    (List.replicate (56 - p₂.rest.length) 0) (by rw [List.length_replicate]; omega)
  rw [List.length_replicate] at hholds₃
  obtain ⟨ctxt₄, h₄, hholds₄⟩ := putLength_holds (o := o) hholds₃
  have hzeros : k + (56 - p₂.rest.length) = Sha1.zeros p.rest.length := by
    rw [Sha1.zeros]
    split_ifs at hk <;> omega
  refine ⟨ctxt₄, ?_, ?_⟩
  · have hpad : 64 - ctxt₂.count % 64 - 8 = 56 - p₂.rest.length := by omega
    rw [sha1Pad, h₁]
    show (fillBlock o ctxt₁ >>= fun ctxt => _) = Except.ok ctxt₄
    rw [h₂]
    show (store ctxt₂.m (ctxt₂.count % 64)
      (List.replicate (64 - ctxt₂.count % 64 - 8) 0) >>= fun m => _) = Except.ok ctxt₄
    rw [hpad, hm]
    exact h₄
  · have hsplit : (0x80 : UInt8) :: (List.replicate (Sha1.zeros p.rest.length) 0 ++
        beBytes64 ctxt.c) = [0x80] ++ List.replicate k 0 ++
          List.replicate (56 - p₂.rest.length) 0 ++ beBytes64 ctxt.c := by
      rw [← hzeros, List.replicate_add]
      simp
    rw [hsplit, Blocks.absorbAll_append, Blocks.absorbAll_append, Blocks.absorbAll_append, ← hp₁,
      ← hp₂, ← hc₁, ← hc₂]
    exact hholds₄

/-- `sha1_result` -/
theorem sha1Result_holds (h : ctxt.Holds p) :
    sha1Result o ctxt = .ok (absorbAll 64 Sha1.compress p (0x80 ::
      (List.replicate (Sha1.zeros p.rest.length) 0 ++ beBytes64 ctxt.c))).state.bytes := by
  obtain ⟨ctxt', hpad, hholds⟩ := sha1Pad_holds (o := o) h
  have hword : ∀ w, o.digestWord w = beBytes w := by
    intro w
    cases o
    · exact List.reverse_reverse _
    · rfl
  rw [sha1Result, hpad, ← hholds.h]
  show Except.ok _ = Except.ok _
  rw [hword, hword, hword, hword, hword, Words.bytes]

/-- The context after `sha1_loop` has read the pieces of a message. -/
theorem sha1Loops_holds (pieces : List Bytes) (h : ctxt.Holds p) :
    ∃ ctxt', pieces.foldlM (fun ctxt d => sha1Loop o d.length d ctxt) ctxt = .ok ctxt' ∧
      ctxt'.Holds (absorbAll 64 Sha1.compress p pieces.flatten) ∧
      ctxt'.c = ctxt.c + (pieces.flatten.length * 8).toUInt64 := by
  induction pieces generalizing ctxt p with
  | nil => exact ⟨ctxt, rfl, h, by simp⟩
  | cons d pieces ih =>
    obtain ⟨ctxt₁, h₁, hholds₁, hc₁⟩ := sha1Loop_holds (o := o) h (le_refl d.length)
    obtain ⟨ctxt₂, h₂, hholds₂, hc₂⟩ := ih hholds₁
    refine ⟨ctxt₂, ?_, ?_, ?_⟩
    · rw [List.foldlM_cons, h₁]
      exact h₂
    · rwa [← Blocks.absorbAll_append, ← List.flatten_cons] at hholds₂
    · rw [hc₂, hc₁, UInt64.add_assoc, ← UInt64.ofNat_add, List.flatten_cons, List.length_append,
        Nat.add_mul]

theorem sha1Result_digest {msg : Bytes}
    (h : ctxt.Holds (absorbAll 64 Sha1.compress ⟨Sha1.initial, []⟩ msg))
    (hc : ctxt.c = sha1Init.c + (msg.length * 8).toUInt64) :
    sha1Result o ctxt = .ok (Sha1.digest msg) := by
  have hrest := Blocks.length_absorbAll (f := Sha1.compress)
    (p := ⟨Sha1.initial, ([] : Bytes)⟩) (Nat.zero_lt_succ 63) msg
  have hbits : ctxt.c = (8 * msg.length).toUInt64 := by
    rw [hc, Nat.mul_comm]
    exact UInt64.zero_add _
  have hzeros : Sha1.zeros (msg.length % 64) = Sha1.zeros msg.length := by
    rw [Sha1.zeros, Nat.mod_mod, Sha1.zeros]
  rw [sha1Result_holds h, hrest, hbits, List.length_nil, Nat.zero_add, hzeros,
    ← Blocks.absorbAll_append, ← Sha1.pad, Sha1.absorb_pad, Sha1.digest]

/-- `SHA1` -/
theorem sha1_eq (o : ByteOrder) (d : Bytes) : sha1 o d = .ok (Sha1.digest d) := by
  obtain ⟨ctxt, hloop, hholds, hc⟩ := sha1Loop_holds (o := o) sha1Init_holds (le_refl d.length)
  rw [sha1, hloop]
  exact sha1Result_digest hholds hc

/-- **The digest.** In whatever pieces a message comes, on both kinds of machines, the code writes
the digest of the standard, and no copy goes behind the block. -/
theorem sha1_digest (o : ByteOrder) (pieces : List Bytes) :
    (do let ctxt ← pieces.foldlM (fun ctxt (d : Bytes) => sha1Loop o d.length d ctxt) sha1Init
        sha1Result o ctxt) = .ok (Sha1.digest pieces.flatten) ∧
      sha1 o pieces.flatten = .ok (Sha1.digest pieces.flatten) := by
  obtain ⟨ctxt, hloops, hholds, hc⟩ := sha1Loops_holds (o := o) pieces sha1Init_holds
  refine ⟨?_, sha1_eq o pieces.flatten⟩
  rw [hloops]
  exact sha1Result_digest hholds hc

example : sha1 .little (ascii "abc") = .ok [0xa9, 0x99, 0x3e, 0x36, 0x47, 0x06, 0x81, 0x6a, 0xba,
    0x3e, 0x25, 0x71, 0x78, 0x50, 0xc2, 0x6c, 0x9c, 0xd0, 0xd8, 0x9d] := by
  decide +kernel

end Context

end Lws

end Neof5
