import Neof5.Lib.Blocks

/-!
# SHA-1

The hash of FIPS 180-1: the message is padded to blocks of 64 bytes, and the blocks are compressed
into five words in 80 rounds each. This is the text of the standard (`digest`), with the message
schedule as the recurrence over all 80 words; the length counts modulo `2^64`, below which the
standard is defined.
-/

namespace Sha1

/-- Five words: the intermediate hash, and the variables of the rounds. -/
structure Words where
  a : UInt32
  b : UInt32
  c : UInt32
  d : UInt32
  e : UInt32
  deriving DecidableEq, Repr

def Words.add (v w : Words) : Words := ⟨v.a + w.a, v.b + w.b, v.c + w.c, v.d + w.d, v.e + w.e⟩

/-- The intermediate hash before the first block. -/
def initial : Words := ⟨0x67452301, 0xefcdab89, 0x98badcfe, 0x10325476, 0xc3d2e1f0⟩

/-- `S^n` -/
def rotl (n x : UInt32) : UInt32 := (x <<< n) ||| (x >>> (32 - n))

/-- `f_t` -/
def fn (t : Nat) (b c d : UInt32) : UInt32 :=
  if t < 20 then (b &&& c) ||| (~~~b &&& d)
  else if t < 40 then b ^^^ c ^^^ d
  else if t < 60 then (b &&& c) ||| (b &&& d) ||| (c &&& d)
  else b ^^^ c ^^^ d

/-- `K_t` -/
def const (t : Nat) : UInt32 :=
  if t < 20 then 0x5a827999 else if t < 40 then 0x6ed9eba1
  else if t < 60 then 0x8f1bbcdc else 0xca62c1d6

/-- Four bytes as a word, the most significant first. -/
def beWord (b₀ b₁ b₂ b₃ : UInt8) : UInt32 :=
  (b₀.toUInt32 <<< 24) ||| (b₁.toUInt32 <<< 16) ||| (b₂.toUInt32 <<< 8) ||| b₃.toUInt32

/-- A word as four bytes, the most significant first. -/
def beBytes (w : UInt32) : List UInt8 :=
  [(w >>> 24).toUInt8, (w >>> 16).toUInt8, (w >>> 8).toUInt8, w.toUInt8]

/-- The length in bits as eight bytes, the most significant first. -/
def beBytes64 (n : UInt64) : List UInt8 :=
  [(n >>> 56).toUInt8, (n >>> 48).toUInt8, (n >>> 40).toUInt8, (n >>> 32).toUInt8,
    (n >>> 24).toUInt8, (n >>> 16).toUInt8, (n >>> 8).toUInt8, n.toUInt8]

/-- Word `t` of the block. -/
def word (block : List UInt8) (t : Nat) : UInt32 :=
  beWord (block.getD (4 * t) 0) (block.getD (4 * t + 1) 0) (block.getD (4 * t + 2) 0)
    (block.getD (4 * t + 3) 0)

/-- `W_t` -/
def schedule (block : List UInt8) (t : Nat) : UInt32 :=
  if t < 16 then word block t
  else rotl 1 (schedule block (t - 3) ^^^ schedule block (t - 8) ^^^ schedule block (t - 14) ^^^
    schedule block (t - 16))

theorem schedule_word {block : List UInt8} {t : Nat} (h : t < 16) :
    schedule block t = word block t := by
  rw [schedule, if_pos h]

theorem schedule_recurrence {block : List UInt8} {t : Nat} (h : 16 ≤ t) :
    schedule block t = rotl 1 (schedule block (t - 3) ^^^ schedule block (t - 8) ^^^
      schedule block (t - 14) ^^^ schedule block (t - 16)) := by
  rw [schedule, if_neg (by omega)]

/-- One round. -/
def round (block : List UInt8) (v : Words) (t : Nat) : Words where
  a := rotl 5 v.a + fn t v.b v.c v.d + v.e + schedule block t + const t
  b := v.a
  c := rotl 30 v.b
  d := v.c
  e := v.d

/-- The 80 rounds over a block. -/
def compress (h : Words) (block : List UInt8) : Words :=
  h.add ((List.range 80).foldl (round block) h)

/-- The zeros that make the block full behind the one bit and before the length. -/
def zeros (len : Nat) : Nat := (119 - len % 64) % 64

/-- The padded message. -/
def pad (msg : List UInt8) : List UInt8 :=
  msg ++ 0x80 :: (List.replicate (zeros msg.length) 0 ++ beBytes64 (8 * msg.length).toUInt64)

/-- The number of blocks of the padded message. -/
def blockCount (len : Nat) : Nat := (len + 1 + zeros len + 8) / 64

theorem length_pad (msg : List UInt8) : (pad msg).length = blockCount msg.length * 64 := by
  simp only [pad, beBytes64, blockCount, zeros, List.length_append, List.length_cons,
    List.length_replicate, List.length_nil]
  omega

/-- The hash of the message, as five words. -/
def hash (msg : List UInt8) : Words :=
  (Blocks.blocks 64 (blockCount msg.length) (pad msg)).foldl compress initial

/-- Five words as 20 bytes. -/
def Words.bytes (v : Words) : List UInt8 :=
  beBytes v.a ++ beBytes v.b ++ beBytes v.c ++ beBytes v.d ++ beBytes v.e

/-- The message digest. -/
def digest (msg : List UInt8) : List UInt8 := (hash msg).bytes

@[simp] theorem length_digest (msg : List UInt8) : (digest msg).length = 20 := rfl

/-- The hash by absorbing the padded message. -/
theorem absorb_pad (msg : List UInt8) :
    Blocks.absorbAll 64 compress ⟨initial, []⟩ (pad msg) = ⟨hash msg, []⟩ :=
  Blocks.absorbAll_blocks (by decide) (length_pad msg)

end Sha1
