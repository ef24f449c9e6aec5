import Egos.Lib.Links
import Egos.Libc.Tlsf.Classes

/-!
# The lists of free blocks

Each class has a list of its free blocks, and two levels of bitmaps say which lists are not empty.
`Binned heap free` says that the lists hold the free blocks that `free` gives sizes to, and no others.
-/
namespace Egos.Libc.Tlsf

open Egos.Disk (Stop)
open Egos.Lib

set_option autoImplicit false

/-! ## Words in memory -/

/-- The word at `a`. -/
def Heap.at (heap : Heap) (a : Nat) : Nat := load heap.memory a 8

def Heap.put (heap : Heap) (a v : Nat) : Heap := { heap with memory := store heap.memory a 8 v }

section

variable {heap : Heap} {a b v n : Nat}

@[simp] theorem put_brk : (heap.put a v).brk = heap.brk := rfl
@[simp] theorem put_mp : (heap.put a v).mp = heap.mp := rfl
@[simp] theorem put_tlsf : (heap.put a v).tlsf = heap.tlsf := rfl
@[simp] theorem put_dataEnd : (heap.put a v).dataEnd = heap.dataEnd := rfl
@[simp] theorem put_accessible : (heap.put a v).Accessible b n ↔ heap.Accessible b n := Iff.rfl

theorem at_put (hv : v < 2 ^ 64) : (heap.put a v).at a = v := load_store_of_lt hv

theorem at_put_of_disjoint (h : b + 8 ≤ a ∨ a + 8 ≤ b) : (heap.put a v).at b = heap.at b :=
  load_store_of_disjoint h

theorem at_put_of_ne (ha : 8 ∣ a) (hb : 8 ∣ b) (hne : b ≠ a) : (heap.put a v).at b = heap.at b := by
  obtain ⟨x, rfl⟩ := ha
  obtain ⟨y, rfl⟩ := hb
  exact at_put_of_disjoint (by omega)

theorem at_lt : heap.at a < 2 ^ 64 := ofBytes_lt _ _

theorem put_outside {k : Nat} (h : k < a ∨ a + 8 ≤ k) : (heap.put a v).memory k = heap.memory k :=
  store_outside h

theorem Heap.Accessible.part {heap : Heap} {a n b m : Nat} (h : heap.Accessible a n) (hb : a ≤ b)
    (hend : b + m ≤ a + n) : heap.Accessible b m :=
  ⟨Nat.le_trans h.1 hb, Nat.le_trans hend h.2⟩

variable {α : Type} {Q : α → Heap → Prop} {E : Stop → Heap → Prop}

theorem word_ok (h : heap.Accessible a 8) : word a heap = .ok (heap.at a) heap := by
  have hget : (get : Program Heap) heap = .ok heap heap := rfl
  unfold word
  rw [bind_ok hget, if_pos h]
  rfl

theorem setWord_ok (h : heap.Accessible a 8) : setWord a v heap = .ok ⟨⟩ (heap.put a v) := by
  have hget : (get : Program Heap) heap = .ok heap heap := rfl
  unfold setWord
  rw [bind_ok hget, if_pos h]
  rfl

theorem onBytes_ok {f : Buffer → Nat × Buffer} (h : heap.Accessible a n) :
    onBytes a n f heap = .ok ⟨⟩ { heap with memory := (f heap.memory).2 } := by
  have hget : (get : Program Heap) heap = .ok heap heap := rfl
  unfold onBytes
  rw [bind_ok hget, if_pos h]
  rfl

theorem copyBytes_ok (hb : heap.Accessible b n) (ha : heap.Accessible a n) :
    copyBytes b a n heap = .ok ⟨⟩ { heap with memory := moved heap.memory b a n } := by
  have hget : (get : Program Heap) heap = .ok heap heap := rfl
  unfold copyBytes
  rw [bind_ok hget, if_pos ha, onBytes_ok hb, Memmove.memmove_eq]

theorem outcome_step {β : Type} {m : Program β} {f : β → Program α} {r : β} {t : Heap}
    (hm : m heap = .ok r t) (hf : Outcome (f r) Q E t) : Outcome (m >>= f) Q E heap := by
  unfold Outcome
  rw [bind_ok hm]
  exact hf

theorem outcome_word {f : Nat → Program α} (h : heap.Accessible a 8)
    (hf : Outcome (f (heap.at a)) Q E heap) : Outcome (word a >>= f) Q E heap :=
  outcome_step (word_ok h) hf

theorem outcome_setWord {f : Unit → Program α} (h : heap.Accessible a 8)
    (hf : Outcome (f ⟨⟩) Q E (heap.put a v)) : Outcome (setWord a v >>= f) Q E heap :=
  outcome_step (setWord_ok h) hf

end

/-! ## Bitmaps -/

section

variable {w : BitVec 32} {i j k : Nat}

theorem getLsbD_setBit (hk : k < 32) : (setBit k w).getLsbD i = (w.getLsbD i || decide (i = k)) := by
  unfold setBit
  rw [BitVec.getLsbD_or, show 1#32 <<< k = BitVec.twoPow 32 k from rfl, BitVec.getLsbD_twoPow]
  simp [hk, eq_comm]

theorem getLsbD_clearBit (hk : k < 32) :
    (clearBit k w).getLsbD i = (w.getLsbD i && decide (i ≠ k)) := by
  unfold clearBit
  rw [BitVec.getLsbD_and, BitVec.getLsbD_not, show 1#32 <<< k = BitVec.twoPow 32 k from rfl,
    BitVec.getLsbD_twoPow]
  by_cases hi : i < 32
  · simp [hk, hi, eq_comm]
  · rw [BitVec.getLsbD_of_ge w i (by omega)]
    rfl

theorem getLsbD_upper : (w &&& (BitVec.allOnes 32 <<< k)).getLsbD i =
    (w.getLsbD i && decide (k ≤ i)) := by
  rw [BitVec.getLsbD_and, BitVec.getLsbD_shiftLeft, BitVec.getLsbD_allOnes]
  by_cases hi : i < 32
  · have hdist : i - k < 32 := by omega
    by_cases hk : k ≤ i
    · simp [hi, hdist, hk]
    · simp [hi, hk]
  · rw [BitVec.getLsbD_of_ge w i (by omega)]
    rfl

theorem ne_zero_iff : w ≠ 0#32 ↔ ∃ i, w.getLsbD i = true := by
  constructor
  · intro h
    obtain ⟨k, hk, -⟩ := exists_isLeast h
    exact ⟨k, hk⟩
  · rintro ⟨i, hi⟩ rfl
    rw [BitVec.getLsbD_zero] at hi
    cases hi

end

/-! ## Links -/

section

variable {heap : Heap} {a b v : Nat}

theorem dvd_link (ha : blockAlign ∣ a) : 8 ∣ prev a ∧ 8 ∣ next a := by
  obtain ⟨x, rfl⟩ := ha
  unfold prev next buffer bhdrOverhead sizeofBhdr minBlockSize blockAlign
  omega

theorem prev_ne_next (ha : blockAlign ∣ a) (hb : blockAlign ∣ b) : prev a ≠ next b := by
  obtain ⟨x, rfl⟩ := ha
  obtain ⟨y, rfl⟩ := hb
  unfold prev next buffer bhdrOverhead sizeofBhdr minBlockSize blockAlign
  omega

theorem prev_eq_iff : prev a = prev b ↔ a = b := by
  unfold prev buffer
  exact Nat.add_right_cancel_iff

theorem next_eq_iff : next a = next b ↔ a = b := by
  unfold next buffer
  omega

theorem prev_put_prev (ha : blockAlign ∣ a) (hb : blockAlign ∣ b) (hv : v < 2 ^ 64) :
    (heap.put (prev b) v).at (prev a) = if a = b then v else heap.at (prev a) := by
  split
  · next h =>
    rw [h]
    exact at_put hv
  · next h => exact at_put_of_ne (dvd_link hb).1 (dvd_link ha).1 (mt prev_eq_iff.mp h)

theorem next_put_next (ha : blockAlign ∣ a) (hb : blockAlign ∣ b) (hv : v < 2 ^ 64) :
    (heap.put (next b) v).at (next a) = if a = b then v else heap.at (next a) := by
  split
  · next h =>
    rw [h]
    exact at_put hv
  · next h => exact at_put_of_ne (dvd_link hb).2 (dvd_link ha).2 (mt next_eq_iff.mp h)

theorem prev_put_next (ha : blockAlign ∣ a) (hb : blockAlign ∣ b) :
    (heap.put (next b) v).at (prev a) = heap.at (prev a) :=
  at_put_of_ne (dvd_link hb).2 (dvd_link ha).1 (prev_ne_next ha hb)

theorem next_put_prev (ha : blockAlign ∣ a) (hb : blockAlign ∣ b) :
    (heap.put (prev b) v).at (next a) = heap.at (next a) :=
  at_put_of_ne (dvd_link hb).1 (dvd_link ha).2 (prev_ne_next hb ha).symm

end

/-! ## The invariant -/

/-- A block that can be on a list, with its size. -/
structure Listable (heap : Heap) (a n : Nat) : Prop where
  aligned : blockAlign ∣ a
  small : n < maxSize
  lt : a < 2 ^ 64
  accessible : heap.Accessible (buffer a) 16

namespace Listable

variable {heap : Heap} {a n : Nat}

theorem ne_zero (h : Listable heap a n) : a ≠ 0 := by
  have := h.accessible.1
  unfold buffer bhdrOverhead sizeofBhdr minBlockSize sizeofTlsf at this
  omega

theorem prev (h : Listable heap a n) : heap.Accessible (prev a) 8 :=
  h.accessible.part (Nat.le_refl _) (by unfold Tlsf.prev; omega)

theorem next (h : Listable heap a n) : heap.Accessible (next a) 8 :=
  h.accessible.part (Nat.le_add_right _ _) (by unfold Tlsf.next; omega)

end Listable

/-- The lists of the classes. -/
abbrev Bins := Fin realFli → Fin maxSli → List Nat

/-- The bits say which lists are not empty. -/
structure Mapped (t : Header) (bins : Bins) : Prop where
  slBitmap : ∀ i (j : Fin maxSli), (t.slBitmap i).getLsbD j = true ↔ bins i j ≠ []
  flBitmap : ∀ i : Fin realFli, t.flBitmap.getLsbD i = true ↔ t.slBitmap i ≠ 0
  flBitmap_lt : ∀ k, t.flBitmap.getLsbD k = true → k < realFli

/-- These are the lists, and what is on them. -/
structure Listed (heap : Heap) (free : Nat → Option Nat) (bins : Bins) : Prop where
  linked : ∀ i j, Linked 0 (fun a => heap.at (next a)) (fun a => heap.at (prev a)) 0
    (heap.tlsf.matrix i j) (bins i j)
  nodup : ∀ i j, (bins i j).Nodup
  mem_iff : ∀ i j a, a ∈ bins i j ↔ ∃ n, free a = some n ∧ classFl n = i ∧ classSl n = j
  mapped : Mapped heap.tlsf bins
  listable : ∀ a n, free a = some n → Listable heap a n

def Binned (heap : Heap) (free : Nat → Option Nat) : Prop := ∃ bins, Listed heap free bins

/-- Everything but the lists, and the bytes at `K`, is as it was. -/
structure Same (K : Nat → Prop) (heap heap' : Heap) : Prop where
  mp : heap'.mp = heap.mp
  brk : heap'.brk = heap.brk
  dataEnd : heap'.dataEnd = heap.dataEnd
  signature : heap'.tlsf.tlsfSignature = heap.tlsf.tlsfSignature
  areaHead : heap'.tlsf.areaHead = heap.tlsf.areaHead
  memory : ∀ k, K k → heap'.memory k = heap.memory k

namespace Same

variable {K K' : Nat → Prop} {heap heap' heap'' : Heap} {a n v : Nat}

theorem refl : Same K heap heap := ⟨rfl, rfl, rfl, rfl, rfl, fun _ _ => rfl⟩

theorem trans (h : Same K heap heap') (h' : Same K heap' heap'') : Same K heap heap'' :=
  ⟨h'.mp.trans h.mp, h'.brk.trans h.brk, h'.dataEnd.trans h.dataEnd,
    h'.signature.trans h.signature, h'.areaHead.trans h.areaHead,
    fun k hk => (h'.memory k hk).trans (h.memory k hk)⟩

theorem mono (h : Same K heap heap') (hK : ∀ k, K' k → K k) : Same K' heap heap' :=
  ⟨h.mp, h.brk, h.dataEnd, h.signature, h.areaHead, fun k hk => h.memory k (hK k hk)⟩

theorem accessible_iff (h : Same K heap heap') : heap'.Accessible a n ↔ heap.Accessible a n := by
  unfold Heap.Accessible
  rw [h.mp, h.brk]

theorem listable_iff (h : Same K heap heap') : Listable heap' a n ↔ Listable heap a n :=
  ⟨fun ⟨h1, h2, h3, h4⟩ => ⟨h1, h2, h3, h.accessible_iff.mp h4⟩,
    fun ⟨h1, h2, h3, h4⟩ => ⟨h1, h2, h3, h.accessible_iff.mpr h4⟩⟩

theorem at_eq (h : Same K heap heap') (hK : ∀ k, a ≤ k → k < a + 8 → K k) :
    heap'.at a = heap.at a :=
  load_congr fun i hi => h.memory _ (hK _ (Nat.le_add_right a i) (by omega))

theorem put (hK : ∀ k, a ≤ k → k < a + 8 → ¬ K k) : Same K heap (heap.put a v) := by
  refine ⟨rfl, rfl, rfl, rfl, rfl, fun k hk => put_outside ?_⟩
  by_contra hin
  exact hK k (by omega) (by omega) hk

theorem header (f : Header → Header)
    (hs : (f heap.tlsf).tlsfSignature = heap.tlsf.tlsfSignature)
    (ha : (f heap.tlsf).areaHead = heap.tlsf.areaHead) :
    Same K heap { heap with tlsf := f heap.tlsf } :=
  ⟨rfl, rfl, rfl, hs, ha, fun _ _ => rfl⟩

end Same

/-- A byte of the links in a free block. -/
def LinkByte (free : Nat → Option Nat) (k : Nat) : Prop :=
  ∃ a, (free a).isSome ∧ buffer a ≤ k ∧ k < buffer a + 16

/-- Only the lists have changed. -/
abbrev Relinked (free : Nat → Option Nat) : Heap → Heap → Prop := Same fun k => ¬ LinkByte free k

theorem Relinked.put_link {free : Nat → Option Nat} {heap : Heap} {a v x : Nat}
    (h : (free a).isSome) (hx : x = prev a ∨ x = next a) : Relinked free heap (heap.put x v) := by
  apply Same.put
  intro k hlow hhigh
  unfold prev next at hx
  exact not_not.mpr ⟨a, h, by omega, by omega⟩

namespace Listed

variable {heap : Heap} {free : Nat → Option Nat} {bins : Bins} {i i' : Fin realFli}
  {j j' : Fin maxSli} {a n : Nat}

theorem some_of_mem (h : Listed heap free bins) (ha : a ∈ bins i j) :
    ∃ n, free a = some n ∧ classFl n = i ∧ classSl n = j := (h.mem_iff i j a).mp ha

theorem listable_of_mem (h : Listed heap free bins) (ha : a ∈ bins i j) :
    ∃ n, Listable heap a n := by
  obtain ⟨n, hn, -⟩ := h.some_of_mem ha
  exact ⟨n, h.listable a n hn⟩

theorem aligned (h : Listed heap free bins) (ha : a ∈ bins i j) : blockAlign ∣ a := by
  obtain ⟨n, hn⟩ := h.listable_of_mem ha
  exact hn.aligned

/-- A block is on one list only. -/
theorem class_eq (h : Listed heap free bins) (ha : a ∈ bins i j) (ha' : a ∈ bins i' j') :
    i = i' ∧ j = j' := by
  obtain ⟨n, hn, hfl, hsl⟩ := h.some_of_mem ha
  obtain ⟨m, hm, hfl', hsl'⟩ := h.some_of_mem ha'
  rw [hn] at hm
  cases hm
  exact ⟨Fin.ext (hfl.symm.trans hfl'), Fin.ext (hsl.symm.trans hsl')⟩

theorem head_eq_zero_iff (h : Listed heap free bins) : heap.tlsf.matrix i j = 0 ↔ bins i j = [] :=
  (h.linked i j).head_eq_null_iff

theorem head_mem (h : Listed heap free bins) (hne : heap.tlsf.matrix i j ≠ 0) :
    heap.tlsf.matrix i j ∈ bins i j := (h.linked i j).head_mem hne

end Listed

theorem Binned.congr {heap heap' : Heap} {free : Nat → Option Nat} (h : Binned heap free)
    (htlsf : heap'.tlsf = heap.tlsf) (hacc : ∀ a, heap.Accessible a 16 → heap'.Accessible a 16)
    (hmemory : ∀ k, LinkByte free k → heap'.memory k = heap.memory k) : Binned heap' free := by
  obtain ⟨bins, h⟩ := h
  refine ⟨bins, fun i j => ?_, h.nodup, h.mem_iff, htlsf ▸ h.mapped, fun a n ha => ?_⟩
  · have hlink : ∀ a ∈ bins i j, ∀ k, buffer a ≤ k → k < buffer a + 16 →
        heap'.memory k = heap.memory k := by
      intro a ha k hlow hhigh
      obtain ⟨n, hn, -⟩ := h.some_of_mem ha
      exact hmemory k ⟨a, by rw [hn]; rfl, hlow, hhigh⟩
    rw [htlsf]
    refine (h.linked i j).congr (fun a ha => load_congr fun k hk => ?_) fun a ha =>
      load_congr fun k hk => ?_
    · exact hlink a ha _ (by unfold next; omega) (by unfold next; omega)
    · exact hlink a ha _ (by unfold prev; omega) (by unfold prev; omega)
  · obtain ⟨h1, h2, h3, h4⟩ := h.listable a n ha
    exact ⟨h1, h2, h3, hacc _ h4⟩

/-! ## One class changes -/

/-- Another entry for one class. -/
def setClass {α : Type} (f : Fin realFli → Fin maxSli → α) (i : Fin realFli) (j : Fin maxSli)
    (x : α) : Fin realFli → Fin maxSli → α :=
  Function.update f i (Function.update (f i) j x)

section

variable {α : Type} {f : Fin realFli → Fin maxSli → α} {i i' : Fin realFli} {j j' : Fin maxSli}
  {x : α} {t : Header} {bins : Bins} {l : List Nat} {b : Nat}

@[simp] theorem setClass_same : setClass f i j x i j = x := by
  unfold setClass
  rw [Function.update_self, Function.update_self]

theorem setClass_of_ne (h : ¬ (i' = i ∧ j' = j)) : setClass f i j x i' j' = f i' j' := by
  unfold setClass
  by_cases hi : i' = i
  · subst hi
    rw [Function.update_self, Function.update_of_ne fun hj => h ⟨rfl, hj⟩]
  · rw [Function.update_of_ne hi]

@[simp] theorem setMatrix_matrix : (t.setMatrix i j b).matrix = setClass t.matrix i j b := rfl
@[simp] theorem setMatrix_slBitmap : (t.setMatrix i j b).slBitmap = t.slBitmap := rfl
@[simp] theorem setMatrix_flBitmap : (t.setMatrix i j b).flBitmap = t.flBitmap := rfl
@[simp] theorem setBits_matrix : (t.setBits i j).matrix = t.matrix := rfl

@[simp] theorem clearBits_matrix : (t.clearBits i j).matrix = t.matrix := by
  unfold Header.clearBits
  dsimp only
  split <;> rfl

theorem clearBits_rest : (t.clearBits i j).tlsfSignature = t.tlsfSignature ∧
    (t.clearBits i j).areaHead = t.areaHead := by
  unfold Header.clearBits
  dsimp only
  split <;> exact ⟨rfl, rfl⟩

theorem Mapped.setMatrix (h : Mapped t bins) (hold : bins i j ≠ []) (hl : l ≠ []) :
    Mapped (t.setMatrix i j b) (setClass bins i j l) := by
  refine ⟨fun i' j' => ?_, h.flBitmap, h.flBitmap_lt⟩
  rw [setMatrix_slBitmap, h.slBitmap]
  by_cases hc : i' = i ∧ j' = j
  · obtain ⟨rfl, rfl⟩ := hc
    rw [setClass_same]
    exact iff_of_true hold hl
  · rw [setClass_of_ne hc]

theorem Mapped.setBits (h : Mapped t bins) (hl : l ≠ []) :
    Mapped ((t.setMatrix i j b).setBits i j) (setClass bins i j l) := by
  have hsl : ((t.setMatrix i j b).setBits i j).slBitmap =
      Function.update t.slBitmap i (setBit j (t.slBitmap i)) := rfl
  have hfl : ((t.setMatrix i j b).setBits i j).flBitmap = setBit i t.flBitmap := rfl
  have hi : (i : Nat) < 32 := Nat.lt_trans i.isLt (by decide)
  refine ⟨fun i' j' => ?_, fun i' => ?_, fun k hk => ?_⟩
  · rw [hsl]
    by_cases hi' : i' = i
    · subst hi'
      rw [Function.update_self, getLsbD_setBit j.isLt]
      by_cases hj' : j' = j
      · subst hj'
        rw [setClass_same]
        simp [hl]
      · rw [setClass_of_ne fun hc => hj' hc.2, ← h.slBitmap]
        simp [Fin.val_ne_of_ne hj']
    · rw [Function.update_of_ne hi', setClass_of_ne fun hc => hi' hc.1]
      exact h.slBitmap i' j'
  · rw [hsl, hfl, getLsbD_setBit hi]
    by_cases hi' : i' = i
    · subst hi'
      rw [Function.update_self]
      refine iff_of_true (by simp) (ne_zero_iff.mpr ⟨j, ?_⟩)
      rw [getLsbD_setBit j.isLt]
      simp
    · rw [Function.update_of_ne hi', ← h.flBitmap]
      simp [Fin.val_ne_of_ne hi']
  · rw [hfl, getLsbD_setBit hi] at hk
    rcases Bool.or_eq_true _ _ ▸ hk with hk | hk
    · exact h.flBitmap_lt k hk
    · rw [of_decide_eq_true hk]
      exact i.isLt

theorem Mapped.clearBits (h : Mapped t bins) :
    Mapped ((t.setMatrix i j b).clearBits i j) (setClass bins i j []) := by
  have hi : (i : Nat) < 32 := Nat.lt_trans i.isLt (by decide)
  have hsl : ((t.setMatrix i j b).clearBits i j).slBitmap =
      Function.update t.slBitmap i (clearBit j (t.slBitmap i)) := by
    unfold Header.clearBits
    dsimp only
    split <;> rfl
  have hfl : ((t.setMatrix i j b).clearBits i j).flBitmap =
      if clearBit j (t.slBitmap i) = 0 then clearBit i t.flBitmap else t.flBitmap := by
    unfold Header.clearBits
    simp only [Function.update_self, setMatrix_slBitmap, setMatrix_flBitmap]
    split <;> rfl
  refine ⟨fun i' j' => ?_, fun i' => ?_, fun k hk => ?_⟩
  · rw [hsl]
    by_cases hi' : i' = i
    · subst hi'
      rw [Function.update_self, getLsbD_clearBit j.isLt]
      by_cases hj' : j' = j
      · subst hj'
        rw [setClass_same]
        simp
      · rw [setClass_of_ne fun hc => hj' hc.2, ← h.slBitmap]
        simp [Fin.val_ne_of_ne hj']
    · rw [Function.update_of_ne hi', setClass_of_ne fun hc => hi' hc.1]
      exact h.slBitmap i' j'
  · rw [hsl, hfl]
    by_cases hi' : i' = i
    · subst hi'
      rw [Function.update_self]
      split
      · next hzero =>
        rw [getLsbD_clearBit hi]
        simp [hzero]
      · next hne =>
        refine iff_of_true ?_ hne
        -- the bit that is left was there before
        obtain ⟨k, hk⟩ := ne_zero_iff.mp hne
        rw [getLsbD_clearBit j.isLt] at hk
        exact (h.flBitmap i').mpr (ne_zero_iff.mpr ⟨k, (Bool.and_eq_true _ _ ▸ hk).1⟩)
    · rw [Function.update_of_ne hi', ← h.flBitmap]
      split
      · rw [getLsbD_clearBit hi]
        simp [Fin.val_ne_of_ne hi']
      · exact Iff.rfl
  · rw [hfl] at hk
    split at hk
    · rw [getLsbD_clearBit hi] at hk
      exact h.flBitmap_lt k (Bool.and_eq_true _ _ ▸ hk).1
    · exact h.flBitmap_lt k hk

end

end Egos.Libc.Tlsf
