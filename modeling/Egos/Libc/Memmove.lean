import Egos.Lib.Bytes
import Egos.Lib.Moves

/-!
# `memmove`

Bytes are copied until source and destination are aligned, then integers, then the bytes that are
left; from the end downwards if the source lies in front of the destination.
-/
namespace Egos.Libc.Memmove

open Egos.Lib

set_option autoImplicit false

/-- `ALIGN`, the size of an `int` -/
def align : Nat := 4

/-- `(address_t) p & ALMSK` -/
def misaligned (p : Nat) : Nat := p % align

/-- The memory, and the variables `d`, `s` and `n`. -/
structure Vars where
  mem : Buffer
  d : Nat
  s : Nat
  n : Nat

/-- `*d = *s` -/
def copyByte (mem : Buffer) (d s : Nat) : Buffer := overlay mem d [mem s]

/-- `* (int *) d = * (int *) s` -/
def copyInt (mem : Buffer) (d s : Nat) : Buffer :=
  overlay mem d ((List.range align).map fun k => mem (s + k))

/-- The rounds of `do .. while (--cnt > 0)` for a `size_t`. -/
def rounds (cnt : Nat) : Nat := if cnt = 0 then 2 ^ 64 else cnt

namespace Vars

/-- `*d++ = *s++`, `cnt` times. -/
def bytesForward : (cnt : Nat) → Vars → Vars
  | 0, v => v
  | cnt + 1, v => bytesForward cnt { v with mem := copyByte v.mem v.d v.s, d := v.d + 1, s := v.s + 1 }

/-- `*--d = *--s`, `cnt` times. -/
def bytesBackward : (cnt : Nat) → Vars → Vars
  | 0, v => v
  | cnt + 1, v =>
    bytesBackward cnt
      { v with mem := copyByte v.mem (v.d - 1) (v.s - 1), d := v.d - 1, s := v.s - 1 }

/-- The first phase, copying forwards. -/
def alignForward (v : Vars) : Vars :=
  if misaligned v.s ≠ 0 ∨ misaligned v.d ≠ 0 then
    if misaligned v.s ≠ misaligned v.d ∨ v.n < align then
      { bytesForward (rounds v.n) v with n := 0 }
    else
      let cnt := align - misaligned v.s
      { bytesForward (rounds cnt) v with n := v.n - cnt }
  else v

/-- The first phase, copying backwards. -/
def alignBackward (v : Vars) : Vars :=
  if misaligned v.s ≠ 0 ∨ misaligned v.d ≠ 0 then
    if misaligned v.s ≠ misaligned v.d ∨ v.n ≤ align then
      { bytesBackward (rounds v.n) v with n := 0 }
    else
      let cnt := misaligned v.s
      { bytesBackward (rounds cnt) v with n := v.n - cnt }
  else v

/-- The second phase, `while (n >= ALIGN)`, copying forwards. -/
def intsForward (v : Vars) : Vars :=
  if v.n ≥ align then
    intsForward
      { mem := copyInt v.mem v.d v.s, d := v.d + align, s := v.s + align, n := v.n - align }
  else v
termination_by v.n
decreasing_by
  unfold align at *
  omega

/-- The second phase, copying backwards. -/
def intsBackward (v : Vars) : Vars :=
  if v.n ≥ align then
    intsBackward
      { mem := copyInt v.mem (v.d - align) (v.s - align), d := v.d - align, s := v.s - align,
        n := v.n - align }
  else v
termination_by v.n
decreasing_by
  unfold align at *
  omega

end Vars

/-- The memory after the call, which returns `dst`. -/
def memmove (mem : Buffer) (dst src n : Nat) : Nat × Buffer :=
  if n = 0 ∨ dst = src then (dst, mem)
  else if src < dst then
    let v := (Vars.mk mem (dst + n) (src + n) n).alignBackward.intsBackward
    (dst, (v.bytesBackward v.n).mem)
  else
    let v := (Vars.mk mem dst src n).alignForward.intsForward
    (dst, (v.bytesForward v.n).mem)

/-! ## The loops -/

section

variable {mem : Buffer} {d s n : Nat}

theorem copyByte_eq (mem : Buffer) (d s : Nat) : copyByte mem d s = moved mem d s 1 := by
  funext a
  unfold copyByte
  by_cases h : a = d
  · subst h
    have hin : overlay mem a [mem s] (a + 0) = mem s := overlay_inside Nat.one_pos
    have hmoved : moved mem a s 1 (a + 0) = mem (s + 0) := moved_inside Nat.one_pos
    exact hin.trans hmoved.symm
  · rw [overlay_outside (by rw [List.length_singleton]; omega), moved_outside (by omega)]

theorem copyInt_eq (mem : Buffer) (d s : Nat) : copyInt mem d s = moved mem d s align := by
  funext a
  have hlength : ((List.range align).map fun k => mem (s + k)).length = align := by
    rw [List.length_map, List.length_range]
  unfold copyInt
  by_cases h : d ≤ a ∧ a < d + align
  · obtain ⟨k, rfl⟩ := Nat.exists_eq_add_of_le h.1
    have hk : k < align := by omega
    rw [overlay_inside (by rw [hlength]; exact hk), moved_inside hk, List.getD_eq_getElem _ _
      (by rw [hlength]; exact hk), List.getElem_map, List.getElem_range]
  · rw [overlay_outside (by rw [hlength]; omega), moved_outside (by omega)]

theorem rounds_eq (h : n ≠ 0) : rounds n = n := if_neg h

end

/-- Forwards: `k` bytes have been moved. -/
def forward (mem : Buffer) (dst src k n : Nat) : Vars := ⟨moved mem dst src k, dst + k, src + k, n⟩

/-- Backwards: the bytes from `k` to `total` have been moved. -/
def backward (mem : Buffer) (dst src total k n : Nat) : Vars :=
  ⟨moved mem (dst + k) (src + k) (total - k), dst + k, src + k, n⟩

section

variable (mem : Buffer) {dst src total : Nat}

theorem bytesForward_eq (h : dst ≤ src) (cnt k n : Nat) :
    (forward mem dst src k n).bytesForward cnt = forward mem dst src (k + cnt) n := by
  induction cnt generalizing k with
  | zero => rfl
  | succ cnt ih =>
    have hround : copyByte (moved mem dst src k) (dst + k) (src + k) = moved mem dst src (k + 1) := by
      rw [copyByte_eq, moved_forward h]
    rw [Vars.bytesForward]
    unfold forward at ih ⊢
    dsimp only
    rw [hround, Nat.add_assoc dst, Nat.add_assoc src, ih, Nat.add_assoc k, Nat.add_comm 1]

theorem intsForward_eq (h : dst ≤ src) (k n : Nat) :
    ∃ cnt r, cnt + r = n ∧ (forward mem dst src k n).intsForward = forward mem dst src (k + cnt) r := by
  induction n using Nat.strongRecOn generalizing k with
  | ind n ih =>
    rw [Vars.intsForward]
    by_cases hn : n ≥ align
    · have hround : copyInt (moved mem dst src k) (dst + k) (src + k) =
          moved mem dst src (k + align) := by
        rw [copyInt_eq, moved_forward h]
      obtain ⟨cnt, r, hsum, hrest⟩ := ih (n - align) (by unfold align at *; omega) (k + align)
      refine ⟨align + cnt, r, by omega, ?_⟩
      rw [if_pos (show (forward mem dst src k n).n ≥ align from hn)]
      unfold forward at hrest ⊢
      dsimp only
      rw [hround, Nat.add_assoc dst, Nat.add_assoc src, hrest, Nat.add_assoc k]
    · rw [if_neg (show ¬ (forward mem dst src k n).n ≥ align from hn)]
      exact ⟨0, n, Nat.zero_add n, rfl⟩

theorem alignForward_eq (h : dst ≤ src) {n : Nat} (hn : n ≠ 0) :
    ∃ cnt r, cnt + r = n ∧ (forward mem dst src 0 n).alignForward = forward mem dst src cnt r := by
  unfold Vars.alignForward
  split
  · split
    · refine ⟨n, 0, Nat.add_zero n, ?_⟩
      change { (forward mem dst src 0 n).bytesForward (rounds n) with n := 0 } = _
      rw [rounds_eq hn, bytesForward_eq mem h, Nat.zero_add]
      rfl
    · rename_i hsame
      have hlt : misaligned src < align := Nat.mod_lt _ (by decide)
      have hle : align ≤ n := Nat.not_lt.mp fun hlt => hsame (.inr hlt)
      refine ⟨align - misaligned src, n - (align - misaligned src), by omega, ?_⟩
      change { (forward mem dst src 0 n).bytesForward (rounds (align - misaligned src)) with
        n := n - (align - misaligned src) } = _
      rw [rounds_eq (by omega), bytesForward_eq mem h, Nat.zero_add]
      rfl
  · exact ⟨0, n, Nat.zero_add n, rfl⟩

theorem bytesBackward_eq (h : src ≤ dst) (cnt k n : Nat) (hle : k + cnt ≤ total) :
    (backward mem dst src total (k + cnt) n).bytesBackward cnt = backward mem dst src total k n := by
  induction cnt with
  | zero => rfl
  | succ cnt ih =>
    have hround : copyByte (moved mem (dst + (k + (cnt + 1))) (src + (k + (cnt + 1)))
        (total - (k + (cnt + 1)))) (dst + (k + cnt)) (src + (k + cnt)) =
        moved mem (dst + (k + cnt)) (src + (k + cnt)) (total - (k + cnt)) := by
      rw [copyByte_eq, ← Nat.add_assoc k, ← Nat.add_assoc dst, ← Nat.add_assoc src,
        moved_backward (by omega)]
      congr 1
      omega
    rw [Vars.bytesBackward]
    have hd : dst + (k + (cnt + 1)) - 1 = dst + (k + cnt) := rfl
    have hs : src + (k + (cnt + 1)) - 1 = src + (k + cnt) := rfl
    have hrest := ih (by omega)
    unfold backward at hrest ⊢
    dsimp only
    rw [hd, hs, hround, hrest]

theorem intsBackward_eq (h : src ≤ dst) {n : Nat} (hn : n ≤ total) :
    ∃ r, r ≤ n ∧ (backward mem dst src total n n).intsBackward = backward mem dst src total r r := by
  induction n using Nat.strongRecOn with
  | ind n ih =>
    rw [Vars.intsBackward]
    by_cases hge : n ≥ align
    · obtain ⟨k, rfl⟩ := Nat.exists_eq_add_of_le' hge
      have hround : copyInt (moved mem (dst + (k + align)) (src + (k + align)) (total - (k + align)))
          (dst + k) (src + k) = moved mem (dst + k) (src + k) (total - k) := by
        rw [copyInt_eq, ← Nat.add_assoc dst, ← Nat.add_assoc src, moved_backward (by omega)]
        congr 1
        omega
      have hd : dst + (k + align) - align = dst + k := rfl
      have hs : src + (k + align) - align = src + k := rfl
      obtain ⟨r, hr, hrest⟩ := ih k (Nat.lt_add_of_pos_right (by decide)) (by omega)
      refine ⟨r, by omega, ?_⟩
      rw [if_pos (show (backward mem dst src total (k + align) (k + align)).n ≥ align from hge)]
      unfold backward at hrest ⊢
      dsimp only
      rw [hd, hs, hround, Nat.add_sub_cancel, hrest]
    · rw [if_neg (show ¬ (backward mem dst src total n n).n ≥ align from hge)]
      exact ⟨n, Nat.le_refl n, rfl⟩

theorem alignBackward_eq (h : src ≤ dst) (hn : total ≠ 0) :
    ∃ r, r ≤ total ∧ (backward mem dst src total total total).alignBackward =
      backward mem dst src total r r := by
  unfold Vars.alignBackward
  split
  · rename_i hodd
    split
    · refine ⟨0, Nat.zero_le _, ?_⟩
      change { (backward mem dst src total total total).bytesBackward (rounds total) with
        n := 0 } = _
      have hall := bytesBackward_eq mem h total 0 total (show 0 + total ≤ total by omega)
      rw [Nat.zero_add] at hall
      rw [rounds_eq hn, hall]
      rfl
    · rename_i hsame
      obtain ⟨heq, hlarge⟩ := not_or.mp hsame
      have heq' : misaligned (src + total) = misaligned (dst + total) := not_not.mp heq
      have hodd' : misaligned (src + total) ≠ 0 := by
        rcases hodd with hs | hd
        · exact hs
        · rw [heq']
          exact hd
      have hlt : misaligned (src + total) < align := Nat.mod_lt _ (by decide)
      have hle : align < total := Nat.not_le.mp hlarge
      refine ⟨total - misaligned (src + total), Nat.sub_le _ _, ?_⟩
      change { (backward mem dst src total total total).bytesBackward
        (rounds (misaligned (src + total))) with n := total - misaligned (src + total) } = _
      have hsome := bytesBackward_eq mem h (misaligned (src + total))
        (total - misaligned (src + total)) total
        (show total - misaligned (src + total) + misaligned (src + total) ≤ total by omega)
      rw [Nat.sub_add_cancel (Nat.le_of_lt (Nat.lt_trans hlt hle))] at hsome
      rw [rounds_eq hodd', hsome]
      rfl
  · exact ⟨total, Nat.le_refl total, rfl⟩

end

/-- The bytes go to `dst` as if through a temporary, and no others change. -/
theorem memmove_eq (mem : Buffer) (dst src n : Nat) :
    memmove mem dst src n = (dst, moved mem dst src n) := by
  unfold memmove
  split
  · rename_i hnone
    rcases hnone with rfl | rfl
    · rw [moved_zero]
    · rw [moved_self]
  · rename_i hsome
    obtain ⟨hn, hne⟩ := not_or.mp hsome
    split
    · rename_i hlt
      have hstart : Vars.mk mem (dst + n) (src + n) n = backward mem dst src n n n := by
        unfold backward
        rw [Nat.sub_self, moved_zero]
      obtain ⟨r, hr, halign⟩ := alignBackward_eq mem (Nat.le_of_lt hlt) hn
      obtain ⟨r', hr', hints⟩ := intsBackward_eq mem (Nat.le_of_lt hlt) hr
      have hbytes := bytesBackward_eq mem (Nat.le_of_lt hlt) r' 0 r'
        (show 0 + r' ≤ n by omega)
      rw [Nat.zero_add] at hbytes
      dsimp only
      rw [hstart, halign, hints]
      change (dst, ((backward mem dst src n r' r').bytesBackward r').mem) = _
      rw [hbytes]
      rfl
    · rename_i hge
      have hle : dst ≤ src := Nat.not_lt.mp hge
      have hstart : Vars.mk mem dst src n = forward mem dst src 0 n := by
        unfold forward
        rw [moved_zero]
        rfl
      obtain ⟨cnt, r, hsum, halign⟩ := alignForward_eq mem hle hn
      obtain ⟨cnt', r', hsum', hints⟩ := intsForward_eq mem hle cnt r
      dsimp only
      rw [hstart, halign, hints]
      change (dst, ((forward mem dst src (cnt + cnt') r').bytesForward r').mem) = _
      rw [bytesForward_eq mem hle, show cnt + cnt' + r' = n by omega]
      rfl

/-- After `memmove` the destination holds the bytes that the source held before, and everything
else is as it was. -/
theorem memmove_copies (mem : Buffer) (dst src n : Nat) :
    (∀ i, i < n → (memmove mem dst src n).2 (dst + i) = mem (src + i)) ∧
    ∀ a, a < dst ∨ dst + n ≤ a → (memmove mem dst src n).2 a = mem a := by
  rw [memmove_eq]
  exact ⟨fun i hi => moved_inside hi, fun a ha => moved_outside ha⟩

end Egos.Libc.Memmove
