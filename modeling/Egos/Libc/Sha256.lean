import Egos.Lib.Bytes
import Egos.Lib.Sha256

/-!
# `sha256.c`

`uint32` is `unsigned long`, which has 32 or 64 bits: `w` of them. With 64 the upper half of a word
fills with bits that the code masks off before a shift to the right, and nowhere else.
-/
namespace Egos.Libc.Sha256

open Egos.Lib
open Egos.Lib.Sha256 (Word Work)

set_option autoImplicit false

variable {w : Nat}

/-- `sha256_context` -/
structure Context (w : Nat) where
  total0 : BitVec w
  total1 : BitVec w
  state : Vector (BitVec w) 8
  buffer : Buffer

/-- `GET_UINT32` -/
def getUint32 (b : Buffer) (i : Nat) : BitVec w :=
  (b i).setWidth w <<< 24 ||| (b (i + 1)).setWidth w <<< 16 ||| (b (i + 2)).setWidth w <<< 8 |||
    (b (i + 3)).setWidth w

/-- `PUT_UINT32` -/
def putUint32 (n : BitVec w) : List Byte :=
  [(n >>> 24).setWidth 8, (n >>> 16).setWidth 8, (n >>> 8).setWidth 8, n.setWidth 8]

def sha256Starts (ctx : Context w) : Context w where
  total0 := 0
  total1 := 0
  state := #v[0x6A09E667, 0xBB67AE85, 0x3C6EF372, 0xA54FF53A, 0x510E527F, 0x9B05688C, 0x1F83D9AB,
    0x5BE0CD19].map (BitVec.ofNat w)
  buffer := ctx.buffer

/-! ## One block -/

def shr (x : BitVec w) (n : Nat) : BitVec w := (x &&& 0xFFFFFFFF#w) >>> n

def rotr (x : BitVec w) (n : Nat) : BitVec w := shr x n ||| x <<< (32 - n)

def s0 (x : BitVec w) : BitVec w := rotr x 7 ^^^ rotr x 18 ^^^ shr x 3

def s1 (x : BitVec w) : BitVec w := rotr x 17 ^^^ rotr x 19 ^^^ shr x 10

def s2 (x : BitVec w) : BitVec w := rotr x 2 ^^^ rotr x 13 ^^^ rotr x 22

def s3 (x : BitVec w) : BitVec w := rotr x 6 ^^^ rotr x 11 ^^^ rotr x 25

def f0 (x y z : BitVec w) : BitVec w := (x &&& y) ||| (z &&& (x ||| y))

def f1 (x y z : BitVec w) : BitVec w := z ^^^ (x &&& (y ^^^ z))

/-- The last argument of each `P`. -/
def table : List Nat := [
  0x428A2F98, 0x71374491, 0xB5C0FBCF, 0xE9B5DBA5, 0x3956C25B, 0x59F111F1, 0x923F82A4, 0xAB1C5ED5,
  0xD807AA98, 0x12835B01, 0x243185BE, 0x550C7DC3, 0x72BE5D74, 0x80DEB1FE, 0x9BDC06A7, 0xC19BF174,
  0xE49B69C1, 0xEFBE4786, 0x0FC19DC6, 0x240CA1CC, 0x2DE92C6F, 0x4A7484AA, 0x5CB0A9DC, 0x76F988DA,
  0x983E5152, 0xA831C66D, 0xB00327C8, 0xBF597FC7, 0xC6E00BF3, 0xD5A79147, 0x06CA6351, 0x14292967,
  0x27B70A85, 0x2E1B2138, 0x4D2C6DFC, 0x53380D13, 0x650A7354, 0x766A0ABB, 0x81C2C92E, 0x92722C85,
  0xA2BFE8A1, 0xA81A664B, 0xC24B8B70, 0xC76C51A3, 0xD192E819, 0xD6990624, 0xF40E3585, 0x106AA070,
  0x19A4C116, 0x1E376C08, 0x2748774C, 0x34B0BCB5, 0x391C0CB3, 0x4ED8AA4A, 0x5B9CCA4F, 0x682E6FF3,
  0x748F82EE, 0x78A5636F, 0x84C87814, 0x8CC70208, 0x90BEFFFA, 0xA4506CEB, 0xBEF9A3F7, 0xC67178F2]

/-- `R`, without the assignment. -/
def r (W : List (BitVec w)) (t : Nat) : BitVec w :=
  s1 (W.getD (t - 2) 0) + W.getD (t - 7) 0 + s0 (W.getD (t - 15) 0) + W.getD (t - 16) 0

/-- Which of `A … H` is argument `i` of the `P` that is number `t`. -/
def argument (t : Nat) (i : Fin 8) : Fin 8 := i - Fin.ofNat 8 t

/-- The `P` that is number `t`: `d += temp1; h = temp1 + temp2`. -/
def p (t : Nat) (v : Vector (BitVec w) 8) (x K : BitVec w) : Vector (BitVec w) 8 :=
  let a i := v[argument t i]
  let temp1 := a 7 + s3 (a 4) + f1 (a 4) (a 5) (a 6) + K + x
  let temp2 := s2 (a 0) + f0 (a 0) (a 1) (a 2)
  (v.set (argument t 3) (a 3 + temp1)).set (argument t 7) (temp1 + temp2)

/-- The array `W` and the variables `A … H` after so many `P`. -/
def rounds (data : Buffer) (v : Vector (BitVec w) 8) :
    (n : Nat) → List (BitVec w) × Vector (BitVec w) 8
  | 0 => ((List.range 64).map fun t => if t < 16 then getUint32 data (4 * t) else 0, v)
  | t + 1 =>
    let (W, v) := rounds data v t
    let W := if t < 16 then W else W.set t (r W t)
    (W, p t v (W.getD t 0) (BitVec.ofNat w (table.getD t 0)))

def sha256Process (ctx : Context w) (data : Buffer) : Context w :=
  let v := (rounds data ctx.state 64).2
  { ctx with state := Vector.zipWith (· + ·) ctx.state v }

/-! ## Input -/

/-- The bytes that a pointer into the input points to. -/
def bytesAt (input : List Byte) : Buffer := fun i => input.getD i 0

/-- `while (length >= 64)` -/
def processBlocks (ctx : Context w) (input : List Byte) : Context w × List Byte :=
  if _h : 64 ≤ input.length then
    processBlocks (sha256Process ctx (bytesAt input)) (input.drop 64)
  else (ctx, input)
termination_by input.length
decreasing_by rw [List.length_drop]; omega

/-- The end of `sha256_update`. -/
def absorbRest (ctx : Context w) (left : Nat) (input : List Byte) : Context w :=
  let (ctx, input) := processBlocks ctx input
  if input.length ≠ 0 then { ctx with buffer := overlay ctx.buffer left input } else ctx

/-- `length` is the length of `input`. -/
def sha256Update (ctx : Context w) (input : List Byte) : Context w :=
  let length := BitVec.ofNat w input.length
  if length = 0 then ctx
  else
    let left := (ctx.total0 &&& 0x3F).toNat
    let fill := 64 - left
    let total0 := (ctx.total0 + length) &&& 0xFFFFFFFF#w
    let total1 := if total0 < length then ctx.total1 + 1 else ctx.total1
    let ctx := { ctx with total0 := total0, total1 := total1 }
    if left ≠ 0 ∧ fill ≤ input.length then
      let ctx := { ctx with buffer := overlay ctx.buffer left (input.take fill) }
      absorbRest (sha256Process ctx ctx.buffer) 0 (input.drop fill)
    else absorbRest ctx left input

def sha256Padding : List Byte := 0x80 :: List.replicate 63 0

/-- The digest. -/
def sha256Finish (ctx : Context w) : List Byte :=
  let high := ctx.total0 >>> 29 ||| ctx.total1 <<< 3
  let low := ctx.total0 <<< 3
  let msglen := putUint32 high ++ putUint32 low
  let last := (ctx.total0 &&& 0x3F).toNat
  let padn := if last < 56 then 56 - last else 120 - last
  let ctx := sha256Update ctx (sha256Padding.take padn)
  let ctx := sha256Update ctx msglen
  ctx.state.toList.flatMap putUint32

/-! ## What the words stand for -/

/-- The 32 bits of a word that count. -/
def low (x : BitVec w) : Word := x.setWidth 32

/-- What the variables mean before the `P` that is number `n`. -/
def roles (n : Nat) (v : Vector (BitVec w) 8) : Work where
  a := low (v.get (argument n 0))
  b := low (v.get (argument n 1))
  c := low (v.get (argument n 2))
  d := low (v.get (argument n 3))
  e := low (v.get (argument n 4))
  f := low (v.get (argument n 5))
  g := low (v.get (argument n 6))
  h := low (v.get (argument n 7))

def words (v : Vector (BitVec w) 8) : Work := roles 0 v

end Egos.Libc.Sha256
