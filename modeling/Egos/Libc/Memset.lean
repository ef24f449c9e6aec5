import Egos.Lib.Bytes
import Egos.Lib.Moves

/-!
# `memset`

Zeros are written byte by byte up to an aligned address, then integer by integer, and byte by byte
in the end. The bytes of the beginning are written before the length is looked at.
-/
namespace Egos.Libc.Memset

open Egos.Lib

set_option autoImplicit false

/-- `ALIGN`, the size of an `int` -/
def align : Nat := 4

/-- `(address_t) d & ALMSK` -/
def misaligned (d : Nat) : Nat := d % align

/-- The memory, and the variables `d` and `n`. -/
structure Vars where
  mem : Buffer
  d : Nat
  n : Nat

/-- `n--` for a `size_t` -/
def decrement (n : Nat) : Nat := (n + 2 ^ 64 - 1) % 2 ^ 64

namespace Vars

/-- `*d++ = byte`, `cnt` times. -/
def setBytes (byte : Byte) : (cnt : Nat) → Vars → Vars
  | 0, v => v
  | cnt + 1, v => setBytes byte cnt { v with mem := overlay v.mem v.d [byte], d := v.d + 1 }

/-- `* (int *) d = 0; d += ALIGN`, `cnt` times. -/
def clearInts : (cnt : Nat) → Vars → Vars
  | 0, v => v
  | cnt + 1, v =>
    clearInts cnt { v with mem := overlay v.mem v.d (List.replicate align 0), d := v.d + align }

/-- The first phase, at most `cnt` bytes. -/
def alignZero : (cnt : Nat) → Vars → Vars
  | 0, v => v
  | cnt + 1, v =>
    if misaligned v.d ≠ 0 then
      alignZero cnt { mem := overlay v.mem v.d [0], d := v.d + 1, n := decrement v.n }
    else v

end Vars

/-- The memory after the call, which returns `b`. -/
def memset (mem : Buffer) (b : Nat) (c : Int) (n : Nat) : Nat × Buffer :=
  if c ≠ 0 then (b, (Vars.setBytes (BitVec.ofInt 8 c) n ⟨mem, b, n⟩).mem)
  else
    let v := Vars.alignZero (misaligned b) ⟨mem, b, n⟩
    let v := v.clearInts (v.n / align)
    (b, (v.setBytes 0 (v.n % align)).mem)

/-- Exactly the range gets the byte, as in a loop over its bytes. -/
def Sets (b : Nat) (c : Int) (n : Nat) : Prop :=
  ∀ mem : Buffer,
    (∀ i, i < n → (memset mem b c n).2 (b + i) = BitVec.ofInt 8 c) ∧
    (∀ a, a < b ∨ b + n ≤ a → (memset mem b c n).2 a = mem a) ∧
    (memset mem b c n).2 = (Vars.setBytes (BitVec.ofInt 8 c) n ⟨mem, b, n⟩).mem

/-- The bytes of the first phase: `b & ALMSK`, but no more than there are up to an aligned
address. -/
def skipped (b : Nat) : Nat := min (misaligned b) ((align - misaligned b) % align)

/-! ## The phases -/

section

variable (mem : Buffer) (b : Nat)

theorem overlay_replicate (d n : Nat) (byte : Byte) :
    overlay mem d (List.replicate n byte) = filled mem d n byte := by
  funext a
  by_cases h : d ≤ a ∧ a < d + n
  · obtain ⟨k, rfl⟩ := Nat.exists_eq_add_of_le h.1
    have hk : k < (List.replicate n byte).length := by
      rw [List.length_replicate]
      omega
    rw [overlay_inside hk, List.getD_eq_getElem _ _ hk, List.getElem_replicate,
      filled_inside (by omega)]
  · rw [overlay_outside (by rw [List.length_replicate]; omega), filled_outside (by omega)]

theorem setBytes_eq (byte : Byte) (cnt d n : Nat) :
    Vars.setBytes byte cnt ⟨mem, d, n⟩ = ⟨filled mem d cnt byte, d + cnt, n⟩ := by
  induction cnt generalizing mem d with
  | zero =>
    rw [filled_zero]
    rfl
  | succ cnt ih =>
    have hone : overlay mem d [byte] = filled mem d 1 byte := overlay_replicate mem d 1 byte
    rw [Vars.setBytes]
    dsimp only
    rw [hone, ih, filled_append, Nat.add_comm 1, Nat.add_assoc, Nat.add_comm 1]

theorem clearInts_eq (cnt d n : Nat) :
    Vars.clearInts cnt ⟨mem, d, n⟩ = ⟨filled mem d (cnt * align) 0, d + cnt * align, n⟩ := by
  induction cnt generalizing mem d with
  | zero =>
    rw [Nat.zero_mul, filled_zero]
    rfl
  | succ cnt ih =>
    rw [Vars.clearInts]
    dsimp only
    rw [overlay_replicate, ih, filled_append, Nat.succ_mul, Nat.add_comm align, Nat.add_assoc d,
      Nat.add_comm align]

/-- The first phase stops at an aligned address, or when its count is used up. -/
theorem alignZero_eq (cnt d n : Nat) (hn : n < 2 ^ 64) :
    Vars.alignZero cnt ⟨mem, d, n⟩ =
      ⟨filled mem d (min cnt ((align - misaligned d) % align)) 0,
        d + min cnt ((align - misaligned d) % align),
        (n + 2 ^ 64 - min cnt ((align - misaligned d) % align)) % 2 ^ 64⟩ := by
  induction cnt generalizing mem d n with
  | zero =>
    rw [Nat.zero_min, filled_zero, Nat.sub_zero, Nat.add_mod_right, Nat.mod_eq_of_lt hn]
    rfl
  | succ cnt ih =>
    rw [Vars.alignZero]
    dsimp only
    by_cases hd : misaligned d ≠ 0
    · have hone : overlay mem d [0] = filled mem d 1 0 := overlay_replicate mem d 1 0
      have hdist : min (cnt + 1) ((align - misaligned d) % align) =
          1 + min cnt ((align - misaligned (d + 1)) % align) := by
        unfold misaligned align at *
        omega
      have hle : min cnt ((align - misaligned (d + 1)) % align) < align :=
        Nat.lt_of_le_of_lt (Nat.min_le_right _ _) (Nat.mod_lt _ (by decide))
      have hn' : decrement n < 2 ^ 64 := Nat.mod_lt _ (by decide)
      rw [if_pos hd, hone, ih _ _ _ hn', filled_append, hdist]
      generalize min cnt ((align - misaligned (d + 1)) % align) = p at hle
      have hnext : (decrement n + 2 ^ 64 - p) % 2 ^ 64 = (n + 2 ^ 64 - (1 + p)) % 2 ^ 64 := by
        unfold decrement
        unfold align at hle
        omega
      rw [hnext, Nat.add_assoc]
    · rw [if_neg hd, not_not.mp hd, Nat.sub_zero, Nat.mod_self, Nat.min_zero, filled_zero,
        Nat.sub_zero, Nat.add_mod_right, Nat.mod_eq_of_lt hn]
      rfl

theorem skipped_lt (b : Nat) : skipped b < align :=
  Nat.lt_of_le_of_lt (Nat.min_le_right _ _) (Nat.mod_lt _ (by decide))

theorem memset_zero {n : Nat} (hn : n < 2 ^ 64) :
    memset mem b 0 n = (b, filled mem b (skipped b + (n + 2 ^ 64 - skipped b) % 2 ^ 64) 0) := by
  have halign : Vars.alignZero (misaligned b) ⟨mem, b, n⟩ =
      ⟨filled mem b (skipped b) 0, b + skipped b, (n + 2 ^ 64 - skipped b) % 2 ^ 64⟩ :=
    alignZero_eq mem _ b n hn
  generalize (n + 2 ^ 64 - skipped b) % 2 ^ 64 = rest at halign ⊢
  unfold memset
  rw [if_neg (not_not.mpr rfl), halign]
  dsimp only
  rw [clearInts_eq, filled_append]
  dsimp only
  rw [setBytes_eq, Nat.add_assoc b, filled_append, Nat.add_assoc, Nat.div_add_mod']

theorem memset_byte {c : Int} (hc : c ≠ 0) (n : Nat) :
    memset mem b c n = (b, filled mem b n (BitVec.ofInt 8 c)) := by
  unfold memset
  rw [if_pos hc, setBytes_eq]

end

theorem sets_of_filled {b n : Nat} {c : Int}
    (h : ∀ mem, (memset mem b c n).2 = filled mem b n (BitVec.ofInt 8 c)) : Sets b c n := by
  intro mem
  rw [h, setBytes_eq]
  exact ⟨fun i hi => filled_inside hi, fun a ha => filled_outside ha, rfl⟩

/-- The first phase may run over the end of a short range. -/
theorem not_sets {b n : Nat} (hn : n < 2 ^ 64) (hshort : n < skipped b) : ¬ Sets b 0 n := by
  intro h
  have hkept : (memset (fun _ => 1) b 0 n).2 (b + n) = 1 :=
    (h fun _ => 1).2.1 (b + n) (.inr (Nat.le_refl _))
  have hwritten : n < skipped b + (n + 2 ^ 64 - skipped b) % 2 ^ 64 :=
    Nat.lt_of_lt_of_le hshort (Nat.le_add_right _ _)
  rw [memset_zero _ _ hn] at hkept
  dsimp only at hkept
  rw [filled_inside hwritten] at hkept
  exact absurd hkept (by decide)

/-- Only zeros can go wrong, namely if the range ends before the bytes of the first phase do. -/
theorem sets_iff {b n : Nat} (c : Int) (hn : n < 2 ^ 64) : Sets b c n ↔ c ≠ 0 ∨ skipped b ≤ n := by
  by_cases hc : c = 0
  · subst hc
    constructor
    · intro h
      apply Or.inr
      by_contra hshort
      exact not_sets hn (Nat.not_le.mp hshort) h
    · intro h
      have hle : skipped b ≤ n := h.resolve_left (not_not.mpr rfl)
      apply sets_of_filled
      intro mem
      have hlt : skipped b < 4 := skipped_lt b
      rw [memset_zero _ _ hn, show skipped b + (n + 2 ^ 64 - skipped b) % 2 ^ 64 = n by omega]
      rfl
  · constructor
    · intro _
      exact .inl hc
    · intro _
      apply sets_of_filled
      intro mem
      rw [memset_byte _ _ hc]

/-- Eight zeros at an odd address. -/
theorem sets_iff_odd : Sets 1001 0 8 := (sets_iff 0 (by decide)).mpr (.inr (by decide))

/-- No bytes at an odd address: the byte there is cleared all the same, and the length wraps. -/
theorem sets_not_empty : ¬ Sets 1 0 0 := not_sets (by decide) (by decide)

end Egos.Libc.Memset
