import Mathlib.Logic.Function.Basic
import Mathlib.Data.List.GetD
import Mathlib.Algebra.Order.Ring.Int

/-!
# Bytes in memory

A buffer is a function from positions to bytes. Numbers lie in it little-endian, and
a `memcpy` is `overlay`.
-/
namespace Egos.Lib

set_option autoImplicit false

abbrev Byte := BitVec 8

abbrev Buffer := Nat → Byte

/-- Byte `i` of a number. -/
def byteOf (v i : Nat) : Byte := BitVec.ofNat 8 (v / 256 ^ i)

/-- The number that lies in the first `w` bytes. -/
def ofBytes (bytes : Buffer) : Nat → Nat
  | 0 => 0
  | w + 1 => ofBytes bytes w + 256 ^ w * (bytes w).toNat

theorem ofBytes_congr {f g : Buffer} {w : Nat} (h : ∀ k, k < w → f k = g k) :
    ofBytes f w = ofBytes g w := by
  induction w with
  | zero => rfl
  | succ w ih => rw [ofBytes, ofBytes, ih fun k hk => h k (by omega), h w (Nat.lt_succ_self w)]

theorem ofBytes_lt (bytes : Buffer) (w : Nat) : ofBytes bytes w < 256 ^ w := by
  induction w with
  | zero => exact Nat.one_pos
  | succ w ih =>
    have hbyte := (bytes w).isLt
    have hle : 256 ^ w * (bytes w).toNat ≤ 256 ^ w * 255 := Nat.mul_le_mul_left _ (by omega)
    rw [ofBytes, Nat.pow_succ]
    omega

theorem ofBytes_byteOf {bytes : Buffer} {v w : Nat} (h : ∀ i, i < w → bytes i = byteOf v i) :
    ofBytes bytes w = v % 256 ^ w := by
  induction w with
  | zero => simp [ofBytes, Nat.mod_one]
  | succ w ih =>
    have hw : (bytes w).toNat = v / 256 ^ w % 256 := by
      rw [h w (by omega)]
      simp [byteOf]
    rw [ofBytes, ih (fun i hi => h i (by omega)), hw, Nat.mod_pow_succ]

/-- A field of a machine word comes back as it was stored. -/
theorem ofNat_ofBytes {bytes : Buffer} {w : Nat} {x : BitVec (8 * w)}
    (h : ∀ i, i < w → bytes i = byteOf x.toNat i) :
    BitVec.ofNat (8 * w) (ofBytes bytes w) = x := by
  have hpow : 256 ^ w = 2 ^ (8 * w) := by
    rw [show (256 : Nat) = 2 ^ 8 from rfl, ← Nat.pow_mul]
  rw [ofBytes_byteOf h, hpow, Nat.mod_eq_of_lt x.isLt, BitVec.ofNat_toNat, BitVec.setWidth_eq]

/-- Copy `data` into a buffer at `pos`. -/
def overlay (buffer : Buffer) (pos : Nat) (data : List Byte) : Buffer := fun k =>
  if pos ≤ k then data.getD (k - pos) (buffer k) else buffer k

theorem overlay_inside {buffer : Buffer} {pos k : Nat} {data : List Byte} (hk : k < data.length) :
    overlay buffer pos data (pos + k) = data.getD k 0 := by
  unfold overlay
  rw [if_pos (by omega), Nat.add_sub_cancel_left]
  simp [hk]

theorem overlay_outside {buffer : Buffer} {pos k : Nat} {data : List Byte}
    (hk : k < pos ∨ pos + data.length ≤ k) : overlay buffer pos data k = buffer k := by
  unfold overlay
  split
  · exact List.getD_eq_default _ _ (by omega)
  · rfl

/-- Buffers that agree up to a shift still do so after the same copy. -/
theorem overlay_shift {buffer buffer' : Buffer} {pos shift k : Nat} (data : List Byte)
    (h : buffer k = buffer' (k + shift)) :
    overlay buffer pos data k = overlay buffer' (pos + shift) data (k + shift) := by
  unfold overlay
  rw [h]
  by_cases hp : pos ≤ k
  · rw [if_pos hp, if_pos (by omega), show k + shift - (pos + shift) = k - pos by omega]
  · rw [if_neg hp, if_neg (by omega)]

/-! ## Numbers at a position -/

/-- The number in the `w` bytes from `pos` on. -/
def load (bytes : Buffer) (pos w : Nat) : Nat := ofBytes (fun i => bytes (pos + i)) w

/-- Put the low `w` bytes of `v` at `pos`. -/
def store (bytes : Buffer) (pos w v : Nat) : Buffer :=
  overlay bytes pos ((List.range w).map (byteOf v))

theorem store_inside {bytes : Buffer} {pos w v i : Nat} (hi : i < w) :
    store bytes pos w v (pos + i) = byteOf v i := by
  unfold store
  rw [overlay_inside (by simpa using hi)]
  simp [hi]

theorem store_outside {bytes : Buffer} {pos w v k : Nat} (hk : k < pos ∨ pos + w ≤ k) :
    store bytes pos w v k = bytes k := by
  apply overlay_outside
  simpa using hk

theorem load_congr {bytes bytes' : Buffer} {pos pos' w : Nat}
    (h : ∀ i, i < w → bytes (pos + i) = bytes' (pos' + i)) :
    load bytes pos w = load bytes' pos' w :=
  ofBytes_congr h

theorem load_store {bytes : Buffer} {pos w v : Nat} :
    load (store bytes pos w v) pos w = v % 256 ^ w :=
  ofBytes_byteOf fun _ hi => store_inside hi

theorem load_store_of_lt {bytes : Buffer} {pos w v : Nat} (hv : v < 256 ^ w) :
    load (store bytes pos w v) pos w = v := by
  rw [load_store, Nat.mod_eq_of_lt hv]

theorem load_store_of_disjoint {bytes : Buffer} {pos w pos' w' v : Nat}
    (h : pos + w ≤ pos' ∨ pos' + w' ≤ pos) :
    load (store bytes pos' w' v) pos w = load bytes pos w := by
  apply load_congr
  intro i hi
  exact store_outside (by omega)

end Egos.Lib
