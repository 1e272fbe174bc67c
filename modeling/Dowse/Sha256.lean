import Dowse.Sha256Standard

/-!
# The hash function of sup

`sha256.c` with its words of any width of at least 32 bits. The type `uint32` of the source is
`unsigned long int`, which has 64 bits where sup is usually built: sums carry beyond
bit 31 and left shifts are not cut. Only the masks in `SHR` and in the message
counter, and the bytes that are put into the digest, look at the lower half alone.

A `memcpy` into the buffer is kept as such. The calls of the macro `P` come in
groups of eight that differ in the words and constants only.
-/
namespace Dowse.Sha256
open BlockIteration

variable {w : ℕ}

section Words

def getUint32 (b : List UInt8) (i : ℕ) : BitVec w :=
  (b.getD i 0).toBitVec.setWidth w <<< 24 ||| (b.getD (i + 1) 0).toBitVec.setWidth w <<< 16 |||
    (b.getD (i + 2) 0).toBitVec.setWidth w <<< 8 ||| (b.getD (i + 3) 0).toBitVec.setWidth w

def putUint32 (n : BitVec w) : List UInt8 :=
  [.ofBitVec ((n >>> 24).setWidth 8), .ofBitVec ((n >>> 16).setWidth 8),
    .ofBitVec ((n >>> 8).setWidth 8), .ofBitVec (n.setWidth 8)]

def SHR (x : BitVec w) (n : ℕ) : BitVec w := (x &&& 0xFFFFFFFF) >>> n

def ROTR (x : BitVec w) (n : ℕ) : BitVec w := SHR x n ||| x <<< (32 - n)

def S0 (x : BitVec w) : BitVec w := ROTR x 7 ^^^ ROTR x 18 ^^^ SHR x 3

def S1 (x : BitVec w) : BitVec w := ROTR x 17 ^^^ ROTR x 19 ^^^ SHR x 10

def S2 (x : BitVec w) : BitVec w := ROTR x 2 ^^^ ROTR x 13 ^^^ ROTR x 22

def S3 (x : BitVec w) : BitVec w := ROTR x 6 ^^^ ROTR x 11 ^^^ ROTR x 25

def F0 (x y z : BitVec w) : BitVec w := (x &&& y) ||| (z &&& (x ||| y))

def F1 (x y z : BitVec w) : BitVec w := z ^^^ (x &&& (y ^^^ z))

end Words

/-- The constants of the calls of `P`, in their order. -/
def callConstants : List ℕ :=
  [0x428A2F98, 0x71374491, 0xB5C0FBCF, 0xE9B5DBA5, 0x3956C25B, 0x59F111F1, 0x923F82A4, 0xAB1C5ED5,
   0xD807AA98, 0x12835B01, 0x243185BE, 0x550C7DC3, 0x72BE5D74, 0x80DEB1FE, 0x9BDC06A7, 0xC19BF174,
   0xE49B69C1, 0xEFBE4786, 0x0FC19DC6, 0x240CA1CC, 0x2DE92C6F, 0x4A7484AA, 0x5CB0A9DC, 0x76F988DA,
   0x983E5152, 0xA831C66D, 0xB00327C8, 0xBF597FC7, 0xC6E00BF3, 0xD5A79147, 0x06CA6351, 0x14292967,
   0x27B70A85, 0x2E1B2138, 0x4D2C6DFC, 0x53380D13, 0x650A7354, 0x766A0ABB, 0x81C2C92E, 0x92722C85,
   0xA2BFE8A1, 0xA81A664B, 0xC24B8B70, 0xC76C51A3, 0xD192E819, 0xD6990624, 0xF40E3585, 0x106AA070,
   0x19A4C116, 0x1E376C08, 0x2748774C, 0x34B0BCB5, 0x391C0CB3, 0x4ED8AA4A, 0x5B9CCA4F, 0x682E6FF3,
   0x748F82EE, 0x78A5636F, 0x84C87814, 0x8CC70208, 0x90BEFFFA, 0xA4506CEB, 0xBEF9A3F7, 0xC67178F2]

def K : List (BitVec w) := callConstants.map (BitVec.ofNat w)

/-- The variables `A` to `H`, or the words of the state. -/
@[ext] structure Regs (w : ℕ) where
  A : BitVec w
  B : BitVec w
  C : BitVec w
  D : BitVec w
  E : BitVec w
  F : BitVec w
  G : BitVec w
  H : BitVec w
  deriving DecidableEq, Repr

/-- The new values of `d` and `h`. -/
def P (a b c d e f g h x k : BitVec w) : BitVec w × BitVec w :=
  let temp1 := h + S3 e + F1 e f g + k + x
  let temp2 := S2 a + F0 a b c
  (d + temp1, temp1 + temp2)

/-- The value that `R(t)` assigns to `W[t]`. -/
def R (W : List (BitVec w)) (t : ℕ) : BitVec w :=
  S1 (W.getD (t - 2) 0) + W.getD (t - 7) 0 + S0 (W.getD (t - 15) 0) + W.getD (t - 16) 0

/-- `W` after `16 + k` calls. The words from the 16th on are computed by the calls
that use them, from words that are there already. -/
def words (data : List UInt8) : ℕ → List (BitVec w)
  | 0 => (List.range 16).map fun t => getUint32 data (4 * t)
  | k + 1 => words data k ++ [R (words data k) (16 + k)]

/-- The calls of `P` from the one for `W[t]`, `t` a multiple of eight, to the next such. -/
def eightCalls (W : List (BitVec w)) (v : Regs w) (t : ℕ) : Regs w :=
  let ⟨A, B, C, D, E, F, G, H⟩ := v
  let x i := W.getD (t + i) 0
  let k i := K.getD (t + i) 0
  let (D, H) := P A B C D E F G H (x 0) (k 0)
  let (C, G) := P H A B C D E F G (x 1) (k 1)
  let (B, F) := P G H A B C D E F (x 2) (k 2)
  let (A, E) := P F G H A B C D E (x 3) (k 3)
  let (H, D) := P E F G H A B C D (x 4) (k 4)
  let (G, C) := P D E F G H A B C (x 5) (k 5)
  let (F, B) := P C D E F G H A B (x 6) (k 6)
  let (E, A) := P B C D E F G H A (x 7) (k 7)
  ⟨A, B, C, D, E, F, G, H⟩

structure Context (w : ℕ) where
  total0 : BitVec w
  total1 : BitVec w
  state : Regs w
  buffer : List UInt8
  deriving DecidableEq, Repr

/-- What is in the buffer before stays there. -/
def sha256Starts (ctx : Context w) : Context w :=
  { ctx with
    total0 := 0
    total1 := 0
    state := ⟨0x6A09E667, 0xBB67AE85, 0x3C6EF372, 0xA54FF53A, 0x510E527F, 0x9B05688C, 0x1F83D9AB,
      0x5BE0CD19⟩ }

/-- What `sha256_process` does to the state. -/
def processState (s : Regs w) (data : List UInt8) : Regs w :=
  let v := [0, 8, 16, 24, 32, 40, 48, 56].foldl (eightCalls (words data 48)) s
  ⟨s.A + v.A, s.B + v.B, s.C + v.C, s.D + v.D, s.E + v.E, s.F + v.F, s.G + v.G, s.H + v.H⟩

def sha256Process (ctx : Context w) (data : List UInt8) : Context w :=
  { ctx with state := processState ctx.state data }

/-- `memcpy` to an offset of a buffer. -/
def memcpy (buffer : List UInt8) (offset : ℕ) (input : List UInt8) : List UInt8 :=
  buffer.take offset ++ input ++ buffer.drop (offset + input.length)

/-- The loop over whole blocks of the input, with what it leaves. -/
def processBlocks (ctx : Context w) (input : List UInt8) : Context w × List UInt8 :=
  if 64 ≤ input.length then processBlocks (sha256Process ctx (input.take 64)) (input.drop 64)
  else (ctx, input)
termination_by input.length
decreasing_by
  rw [List.length_drop]
  omega

/-- The message counter after `length` more bytes. -/
def addTotal (ctx : Context w) (length : BitVec w) : Context w :=
  let total0 := (ctx.total0 + length) &&& 0xFFFFFFFF
  { ctx with
    total0 := total0
    total1 := if total0 < length then ctx.total1 + 1 else ctx.total1 }

/-- The number of bytes that wait in the buffer. -/
def Context.left (ctx : Context w) : ℕ := (ctx.total0 &&& 0x3F).toNat

/-- What is left of the input waits in the buffer. -/
def keep (ctx : Context w) (left : ℕ) (input : List UInt8) : Context w :=
  if input.length ≠ 0 then { ctx with buffer := memcpy ctx.buffer left input } else ctx

/-- The bytes of the input are as many as the argument `length` says. -/
def sha256Update (ctx : Context w) (input : List UInt8) : Context w :=
  if input.length = 0 then ctx
  else
    let left := ctx.left
    let fill := 64 - left
    let ctx := addTotal ctx (BitVec.ofNat w input.length)
    let (ctx, input, left) :=
      if left ≠ 0 ∧ fill ≤ input.length then
        let buffer := memcpy ctx.buffer left (input.take fill)
        (sha256Process { ctx with buffer := buffer } buffer, input.drop fill, 0)
      else (ctx, input, left)
    let (ctx, input) := processBlocks ctx input
    keep ctx left input

def sha256Padding : List UInt8 := 0x80 :: List.replicate 63 0

def sha256Finish (ctx : Context w) : List UInt8 :=
  let high := ctx.total0 >>> 29 ||| ctx.total1 <<< 3
  let low := ctx.total0 <<< 3
  let msglen := putUint32 high ++ putUint32 low
  let last := ctx.left
  let padn := if last < 56 then 56 - last else 120 - last
  let ctx := sha256Update ctx (sha256Padding.take padn)
  let ctx := sha256Update ctx msglen
  putUint32 ctx.state.A ++ putUint32 ctx.state.B ++ putUint32 ctx.state.C ++
    putUint32 ctx.state.D ++ putUint32 ctx.state.E ++ putUint32 ctx.state.F ++
    putUint32 ctx.state.G ++ putUint32 ctx.state.H

end Dowse.Sha256
