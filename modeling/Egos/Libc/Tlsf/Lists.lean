import Egos.Libc.Tlsf.Bins

/-!
# The work on the lists of free blocks

A block goes on the list of its class, a block leaves its list, and the search finds the first block
of the lowest class that has one among those that are high enough.
-/
namespace Egos.Libc.Tlsf

open Egos.Disk (Stop)
open Egos.Lib

set_option autoImplicit false

section

variable {heap heap' : Heap} {free free' : Nat → Option Nat} {bins : Bins} {i : Fin realFli}
  {j : Fin maxSli} {l : List Nat} {b n : Nat}

/-- One list is another one, and nothing has happened to those of the other classes. -/
theorem Listed.change (h : Listed heap free bins)
    (hlinked : Linked 0 (fun a => heap'.at (next a)) (fun a => heap'.at (prev a)) 0
      (heap'.tlsf.matrix i j) l) (hnodup : l.Nodup)
    (hothers : ∀ i' j', ¬ (i' = i ∧ j' = j) →
      heap'.tlsf.matrix i' j' = heap.tlsf.matrix i' j' ∧ ∀ a ∈ bins i' j',
        heap'.at (next a) = heap.at (next a) ∧ heap'.at (prev a) = heap.at (prev a))
    (hmem : ∀ i' j' a, a ∈ setClass bins i j l i' j' ↔
      ∃ n, free' a = some n ∧ classFl n = i' ∧ classSl n = j')
    (hmapped : Mapped heap'.tlsf (setClass bins i j l))
    (hlistable : ∀ a n, free' a = some n → Listable heap' a n) :
    Listed heap' free' (setClass bins i j l) := by
  refine ⟨fun i' j' => ?_, fun i' j' => ?_, hmem, hmapped, hlistable⟩
  · by_cases hc : i' = i ∧ j' = j
    · obtain ⟨rfl, rfl⟩ := hc
      rw [setClass_same]
      exact hlinked
    · obtain ⟨hmatrix, hlinks⟩ := hothers i' j' hc
      rw [setClass_of_ne hc, hmatrix]
      exact (h.linked i' j').congr (fun a ha => (hlinks a ha).1) fun a ha => (hlinks a ha).2
  · by_cases hc : i' = i ∧ j' = j
    · obtain ⟨rfl, rfl⟩ := hc
      rw [setClass_same]
      exact hnodup
    · rw [setClass_of_ne hc]
      exact h.nodup i' j'

/-! ## Insertion -/

theorem Listed.insert (h : Listed heap free bins) (hb : Listable heap b n) (hnone : free b = none)
    (hi : classFl n = i) (hj : classSl n = j)
    (hr : Relinked (Function.update free b (some n)) heap heap')
    (hnext : ∀ a, blockAlign ∣ a → heap'.at (next a) =
      if a = b then heap.tlsf.matrix i j else heap.at (next a))
    (hprev : ∀ a, blockAlign ∣ a → a ≠ 0 → heap'.at (prev a) =
      if a = b then 0 else if a = heap.tlsf.matrix i j then b else heap.at (prev a))
    (ht : heap'.tlsf = (heap.tlsf.setMatrix i j b).setBits i j) :
    Listed heap' (Function.update free b (some n)) (setClass bins i j (b :: bins i j)) := by
  have hnot : ∀ i' j', b ∉ bins i' j' := by
    intro i' j' hmem
    obtain ⟨m, hm, -⟩ := h.some_of_mem hmem
    rw [hnone] at hm
    cases hm
  have hne : ∀ {i' j'}, ∀ a ∈ bins i' j', a ≠ b := fun a ha heq => hnot _ _ (heq ▸ ha)
  have hzero : ∀ {i' j'}, ∀ a ∈ bins i' j', a ≠ 0 := fun a ha => (h.linked _ _).ne_null ha
  have hmatrix : ∀ i' j', heap'.tlsf.matrix i' j' = setClass heap.tlsf.matrix i j b i' j' := by
    intro i' j'
    rw [ht, setBits_matrix, setMatrix_matrix]
  apply h.change
  · rw [hmatrix, setClass_same]
    refine (h.linked i j).push hb.ne_zero ?_ ?_ (fun hhead => ?_) (fun a ha => ?_)
      (fun a ha hah => ?_) (h.nodup i j)
    · exact (hnext b hb.aligned).trans (if_pos rfl)
    · exact (hprev b hb.aligned hb.ne_zero).trans (if_pos rfl)
    · have hmem := h.head_mem hhead
      exact ((hprev _ (h.aligned hmem) hhead).trans (if_neg (hne _ hmem))).trans (if_pos rfl)
    · exact (hnext a (h.aligned ha)).trans (if_neg (hne a ha))
    · exact ((hprev a (h.aligned ha) (hzero a ha)).trans (if_neg (hne a ha))).trans (if_neg hah)
  · exact List.nodup_cons.mpr ⟨hnot i j, h.nodup i j⟩
  · intro i' j' hc
    refine ⟨(hmatrix i' j').trans (setClass_of_ne hc), fun a ha => ⟨?_, ?_⟩⟩
    · exact (hnext a (h.aligned ha)).trans (if_neg (hne a ha))
    · rw [hprev a (h.aligned ha) (hzero a ha), if_neg (hne a ha), if_neg]
      intro hhead
      -- the head is on a list of its own class
      have hmem := h.head_mem (hhead ▸ hzero a ha)
      rw [← hhead] at hmem
      exact hc (h.class_eq ha hmem)
  · intro i' j' a
    by_cases hab : a = b
    · subst hab
      rw [Function.update_self]
      by_cases hc : i' = i ∧ j' = j
      · obtain ⟨rfl, rfl⟩ := hc
        rw [setClass_same]
        exact iff_of_true List.mem_cons_self ⟨n, rfl, hi, hj⟩
      · rw [setClass_of_ne hc]
        refine iff_of_false (hnot i' j') ?_
        rintro ⟨m, hm, hfl, hsl⟩
        cases hm
        exact hc ⟨Fin.ext (hfl.symm.trans hi), Fin.ext (hsl.symm.trans hj)⟩
    · rw [Function.update_of_ne hab, ← h.mem_iff]
      by_cases hc : i' = i ∧ j' = j
      · obtain ⟨rfl, rfl⟩ := hc
        rw [setClass_same, List.mem_cons]
        exact or_iff_right hab
      · rw [setClass_of_ne hc]
  · rw [ht]
    exact h.mapped.setBits (List.cons_ne_nil _ _)
  · intro a m hm
    by_cases hab : a = b
    · subst hab
      rw [Function.update_self] at hm
      cases hm
      exact hr.listable_iff.mpr hb
    · rw [Function.update_of_ne hab] at hm
      exact hr.listable_iff.mpr (h.listable a m hm)

theorem outcome_insertBlock (h : Binned heap free) (hb : Listable heap b n) (hnone : free b = none) :
    Outcome (insertBlock b (classFl n) (classSl n)) (fun _ heap' =>
      Binned heap' (Function.update free b (some n)) ∧
      Relinked (Function.update free b (some n)) heap heap') (fun _ _ => False) heap := by
  obtain ⟨bins, h⟩ := h
  obtain ⟨i, hi⟩ : ∃ i : Fin realFli, (i : Nat) = classFl n := ⟨⟨_, classFl_lt hb.small⟩, rfl⟩
  obtain ⟨j, hj⟩ : ∃ j : Fin maxSli, (j : Nat) = classSl n := ⟨⟨_, classSl_lt n⟩, rfl⟩
  unfold insertBlock
  rw [← hi, ← hj]
  refine outcome_step (index_ok i) (outcome_step (index_ok j) (outcome_step rfl ?_))
  refine outcome_setWord hb.prev (outcome_setWord (put_accessible.mpr hb.next) ?_)
  generalize hh : heap.tlsf.matrix i j = head
  have hbs : ((Function.update free b (some n)) b).isSome := by
    rw [Function.update_self]
    rfl
  have hr2 : Relinked (Function.update free b (some n)) heap
      ((heap.put (prev b) 0).put (next b) head) :=
    (Relinked.put_link hbs (.inl rfl)).trans (Relinked.put_link hbs (.inr rfl))
  have hhead64 : head < 2 ^ 64 := by
    by_cases hz : head = 0
    · rw [hz]
      decide
    · subst hh
      obtain ⟨m, hm⟩ := h.listable_of_mem (h.head_mem hz)
      exact hm.lt
  by_cases hz : head = 0
  · rw [if_neg (not_not.mpr hz)]
    refine outcome_step rfl ?_
    change _ ∧ _
    have hr := hr2.trans (Same.header (fun t => (t.setMatrix i j b).setBits i j) rfl rfl)
    refine ⟨⟨_, h.insert (i := i) (j := j) hb hnone hi.symm hj.symm hr (fun a ha => ?_)
      (fun a ha ha0 => ?_) rfl⟩, hr⟩
    · rw [hh]
      change ((heap.put (prev b) 0).put (next b) head).at (next a) = _
      rw [next_put_next ha hb.aligned hhead64, next_put_prev ha hb.aligned]
    · rw [hh, if_neg (fun heq : a = head => ha0 (heq.trans hz))]
      change ((heap.put (prev b) 0).put (next b) head).at (prev a) = _
      rw [prev_put_next ha hb.aligned, prev_put_prev ha hb.aligned (by decide)]
  · rw [if_pos hz]
    have hmem : head ∈ bins i j := hh ▸ h.head_mem (hh ▸ hz)
    obtain ⟨m, hm⟩ := h.listable_of_mem hmem
    obtain ⟨m', hm', -⟩ := h.some_of_mem hmem
    have hne : head ≠ b := by
      rintro rfl
      rw [hnone] at hm'
      cases hm'
    have hheads : ((Function.update free b (some n)) head).isSome := by
      rw [Function.update_of_ne hne, hm']
      rfl
    refine outcome_setWord (put_accessible.mpr (put_accessible.mpr hm.prev)) ?_
    change _ ∧ _
    have hr := (hr2.trans (Relinked.put_link (v := b) hheads (.inl rfl))).trans
      (Same.header (fun t => (t.setMatrix i j b).setBits i j) rfl rfl)
    refine ⟨⟨_, h.insert (i := i) (j := j) hb hnone hi.symm hj.symm hr (fun a ha => ?_)
      (fun a ha ha0 => ?_) rfl⟩, hr⟩
    · rw [hh]
      change (((heap.put (prev b) 0).put (next b) head).put (prev head) b).at (next a) = _
      rw [next_put_prev ha hm.aligned, next_put_next ha hb.aligned hhead64,
        next_put_prev ha hb.aligned]
    · rw [hh]
      change (((heap.put (prev b) 0).put (next b) head).put (prev head) b).at (prev a) = _
      rw [prev_put_prev ha hm.aligned hb.lt, prev_put_next ha hb.aligned,
        prev_put_prev ha hb.aligned (by decide)]
      by_cases hab : a = b
      · rw [if_pos hab, if_neg (by rw [hab]; exact hne.symm), if_pos hab]
      · rw [if_neg hab, if_neg hab]

/-! ## Extraction -/

theorem Listed.remove (h : Listed heap free bins) (hb : free b = some n) (hi : classFl n = i)
    (hj : classSl n = j) (hr : Relinked free heap heap')
    (hnext : ∀ a, blockAlign ∣ a → a ≠ 0 → a ≠ b → heap'.at (next a) =
      if a = heap.at (prev b) then heap.at (next b) else heap.at (next a))
    (hprev : ∀ a, blockAlign ∣ a → a ≠ 0 → a ≠ b → heap'.at (prev a) =
      if a = heap.at (next b) then heap.at (prev b) else heap.at (prev a))
    (ht : heap'.tlsf = if heap.tlsf.matrix i j = b then
        (if heap.at (next b) = 0 then (heap.tlsf.setMatrix i j (heap.at (next b))).clearBits i j
          else heap.tlsf.setMatrix i j (heap.at (next b)))
      else heap.tlsf) :
    Listed heap' (Function.update free b none) (setClass bins i j ((bins i j).erase b)) := by
  have hmem : b ∈ bins i j := (h.mem_iff i j b).mpr ⟨n, hb, hi, hj⟩
  have hzero : ∀ {i' j'}, ∀ a ∈ bins i' j', a ≠ 0 := fun a ha => (h.linked _ _).ne_null ha
  have hnull : (0 : Nat) ∉ bins i j := fun h0 => hzero 0 h0 rfl
  have hmatrix : ∀ i' j', heap'.tlsf.matrix i' j' = setClass heap.tlsf.matrix i j
      (if heap.tlsf.matrix i j = b then heap.at (next b) else heap.tlsf.matrix i j) i' j' := by
    intro i' j'
    rw [ht]
    split
    · split
      · rw [clearBits_matrix, setMatrix_matrix]
      · rw [setMatrix_matrix]
    · unfold setClass
      rw [Function.update_eq_self, Function.update_eq_self]
  have hlinked : Linked 0 (fun a => heap'.at (next a)) (fun a => heap'.at (prev a)) 0
      (if heap.tlsf.matrix i j = b then heap.at (next b) else heap.tlsf.matrix i j)
      ((bins i j).erase b) :=
    (h.linked i j).unlink_from (h.nodup i j) hnull hmem
      (fun a ha hab => hnext a (h.aligned ha) (hzero a ha) hab)
      fun a ha hab => hprev a (h.aligned ha) (hzero a ha) hab
  apply h.change
  · rw [hmatrix, setClass_same]
    exact hlinked
  · exact (h.nodup i j).erase b
  · intro i' j' hc
    refine ⟨(hmatrix i' j').trans (setClass_of_ne hc), fun a ha => ?_⟩
    -- a block of another class is none of those that change
    have hout : a ∉ bins i j := fun hin => hc (h.class_eq ha hin)
    have hab : a ≠ b := fun heq => hout (heq ▸ hmem)
    constructor
    · rw [hnext a (h.aligned ha) (hzero a ha) hab, if_neg]
      rintro rfl
      exact hout ((h.linked i j).prev_mem hmem (hzero _ ha))
    · rw [hprev a (h.aligned ha) (hzero a ha) hab, if_neg]
      rintro rfl
      exact hout ((h.linked i j).next_mem hmem (hzero _ ha))
  · intro i' j' a
    by_cases hab : a = b
    · subst hab
      rw [Function.update_self]
      refine iff_of_false ?_ (fun ⟨m, hm, _⟩ => by cases hm)
      by_cases hc : i' = i ∧ j' = j
      · obtain ⟨rfl, rfl⟩ := hc
        rw [setClass_same]
        exact (h.nodup _ _).not_mem_erase
      · rw [setClass_of_ne hc]
        exact fun hin => hc (h.class_eq hin hmem)
    · rw [Function.update_of_ne hab, ← h.mem_iff]
      by_cases hc : i' = i ∧ j' = j
      · obtain ⟨rfl, rfl⟩ := hc
        rw [setClass_same]
        exact List.mem_erase_of_ne hab
      · rw [setClass_of_ne hc]
  · rw [ht]
    by_cases hhead : heap.tlsf.matrix i j = b
    · rw [if_pos hhead] at hlinked ⊢
      split
      · next hz =>
        rw [hlinked.head_eq_null_iff.mp hz]
        exact h.mapped.clearBits
      · next hz =>
        exact h.mapped.setMatrix (List.ne_nil_of_mem hmem)
          fun hnil => hz (hlinked.head_eq_null_iff.mpr hnil)
    · rw [if_neg hhead] at hlinked ⊢
      have hsame : heap.tlsf.setMatrix i j (heap.tlsf.matrix i j) = heap.tlsf := by
        unfold Header.setMatrix
        rw [Function.update_eq_self, Function.update_eq_self]
      have hne : heap.tlsf.matrix i j ≠ 0 := fun hz =>
        List.ne_nil_of_mem hmem (h.head_eq_zero_iff.mp hz)
      have hmapped := h.mapped.setMatrix (i := i) (j := j) (b := heap.tlsf.matrix i j)
        (List.ne_nil_of_mem hmem) fun hnil => hne (hlinked.head_eq_null_iff.mpr hnil)
      rwa [hsame] at hmapped
  · intro a m hm
    by_cases hab : a = b
    · subst hab
      rw [Function.update_self] at hm
      cases hm
    · rw [Function.update_of_ne hab] at hm
      exact hr.listable_iff.mpr (h.listable a m hm)

theorem outcome_extractBlock (h : Binned heap free) (hb : free b = some n) :
    Outcome (extractBlock b (classFl n) (classSl n)) (fun _ heap' =>
      Binned heap' (Function.update free b none) ∧ Relinked free heap heap')
      (fun _ _ => False) heap := by
  obtain ⟨bins, h⟩ := h
  have hl := h.listable b n hb
  obtain ⟨i, hi⟩ : ∃ i : Fin realFli, (i : Nat) = classFl n := ⟨⟨_, classFl_lt hl.small⟩, rfl⟩
  obtain ⟨j, hj⟩ : ∃ j : Fin maxSli, (j : Nat) = classSl n := ⟨⟨_, classSl_lt n⟩, rfl⟩
  have hmem : b ∈ bins i j := (h.mem_iff i j b).mpr ⟨n, hb, hi.symm, hj.symm⟩
  have hnull : (0 : Nat) ∉ bins i j := fun h0 => (h.linked i j).ne_null h0 rfl
  have hnb := (h.linked i j).next_ne (h.nodup i j) hmem
  have hpb := (h.linked i j).prev_ne (h.nodup i j) hnull hmem
  have hbs : (free b).isSome := by
    rw [hb]
    rfl
  generalize hn : heap.at (next b) = c at hnb
  generalize hp : heap.at (prev b) = p at hpb
  have hc64 : c < 2 ^ 64 := hn ▸ at_lt
  have hp64 : p < 2 ^ 64 := hp ▸ at_lt
  have hcmem : c ≠ 0 → c ∈ bins i j := fun hc =>
    hn ▸ (h.linked i j).next_mem hmem (by rw [hn]; exact hc)
  have hpmem : p ≠ 0 → p ∈ bins i j := fun hc =>
    hp ▸ (h.linked i j).prev_mem hmem (by rw [hp]; exact hc)
  have hsome : ∀ a ∈ bins i j, (free a).isSome := by
    intro a ha
    obtain ⟨m, hm, -⟩ := h.some_of_mem ha
    rw [hm]
    rfl
  unfold extractBlock
  rw [← hi, ← hj]
  refine outcome_step (index_ok i) (outcome_step (index_ok j) ?_)
  -- the block behind
  obtain ⟨heap₁, hstep₁, hr₁, htlsf₁, hnext₁, hprev₁⟩ : ∃ heap₁, relinkNext b heap = .ok ⟨⟩ heap₁ ∧
      Relinked free heap heap₁ ∧ heap₁.tlsf = heap.tlsf ∧
      (∀ a, blockAlign ∣ a → heap₁.at (next a) = heap.at (next a)) ∧
      ∀ a, blockAlign ∣ a → a ≠ 0 → heap₁.at (prev a) = if a = c then p else heap.at (prev a) := by
    unfold relinkNext
    rw [bind_ok (word_ok hl.next), hn]
    by_cases hz : c = 0
    · rw [if_neg (not_not.mpr hz)]
      exact ⟨heap, rfl, .refl, rfl, fun _ _ => rfl,
        fun a _ ha0 => (if_neg fun heq => ha0 (heq.trans hz)).symm⟩
    · obtain ⟨m, hm⟩ := h.listable_of_mem (hcmem hz)
      rw [if_pos hz, bind_ok (word_ok hl.prev), hp]
      exact ⟨_, setWord_ok hm.prev, .put_link (hsome c (hcmem hz)) (.inl rfl), rfl,
        fun a ha => next_put_prev ha hm.aligned, fun a ha _ => prev_put_prev ha hm.aligned hp64⟩
  refine outcome_step hstep₁ ?_
  have hn₁ : heap₁.at (next b) = c := (hnext₁ b hl.aligned).trans hn
  have hp₁ : heap₁.at (prev b) = p :=
    ((hprev₁ b hl.aligned hl.ne_zero).trans (if_neg hnb.symm)).trans hp
  -- the block in front
  obtain ⟨heap₂, hstep₂, hr₂, htlsf₂, hnext₂, hprev₂⟩ : ∃ heap₂, relinkPrev b heap₁ = .ok ⟨⟩ heap₂ ∧
      Relinked free heap₁ heap₂ ∧ heap₂.tlsf = heap₁.tlsf ∧
      (∀ a, blockAlign ∣ a → a ≠ 0 →
        heap₂.at (next a) = if a = p then c else heap₁.at (next a)) ∧
      ∀ a, blockAlign ∣ a → heap₂.at (prev a) = heap₁.at (prev a) := by
    unfold relinkPrev
    rw [bind_ok (word_ok (hr₁.accessible_iff.mpr hl.prev)), hp₁]
    by_cases hz : p = 0
    · rw [if_neg (not_not.mpr hz)]
      exact ⟨heap₁, rfl, .refl, rfl, fun a _ ha0 => (if_neg fun heq => ha0 (heq.trans hz)).symm,
        fun _ _ => rfl⟩
    · obtain ⟨m, hm⟩ := h.listable_of_mem (hpmem hz)
      rw [if_pos hz, bind_ok (word_ok (hr₁.accessible_iff.mpr hl.next)), hn₁]
      exact ⟨_, setWord_ok (hr₁.accessible_iff.mpr hm.next),
        .put_link (hsome p (hpmem hz)) (.inr rfl), rfl,
        fun a ha _ => next_put_next ha hm.aligned hc64, fun a ha => prev_put_next ha hm.aligned⟩
  refine outcome_step hstep₂ ?_
  have hn₂ : heap₂.at (next b) = c :=
    ((hnext₂ b hl.aligned hl.ne_zero).trans (if_neg hpb.symm)).trans hn₁
  have hr₂' := hr₁.trans hr₂
  -- the head of the list
  obtain ⟨heap₃, hstep₃, hr₃, htlsf₃, hat₃⟩ : ∃ heap₃, relinkHead b i j heap₂ = .ok ⟨⟩ heap₃ ∧
      Relinked free heap₂ heap₃ ∧ (heap₃.tlsf = if heap.tlsf.matrix i j = b then
        (if c = 0 then (heap.tlsf.setMatrix i j c).clearBits i j else heap.tlsf.setMatrix i j c)
        else heap.tlsf) ∧ ∀ a, heap₃.at a = heap₂.at a := by
    have htlsf : heap₂.tlsf = heap.tlsf := htlsf₂.trans htlsf₁
    have hget : getTlsf heap₂ = .ok heap.tlsf heap₂ := by rw [← htlsf]; rfl
    unfold relinkHead
    rw [bind_ok hget]
    by_cases hhead : heap.tlsf.matrix i j = b
    · rw [if_pos hhead, if_pos hhead, bind_ok (word_ok (hr₂'.accessible_iff.mpr hl.next)), hn₂]
      by_cases hz : c = 0
      · rw [if_pos hz]
        refine ⟨{ heap₂ with tlsf := (heap₂.tlsf.setMatrix i j c).clearBits i j }, ?_,
          .header (fun t => (t.setMatrix i j c).clearBits i j) clearBits_rest.1 clearBits_rest.2,
          ?_, fun _ => rfl⟩
        · rfl
        · rw [if_pos hz, ← htlsf]
      · rw [if_neg hz]
        refine ⟨{ heap₂ with tlsf := heap₂.tlsf.setMatrix i j c }, ?_,
          .header (fun t => t.setMatrix i j c) rfl rfl, ?_, fun _ => rfl⟩
        · rfl
        · rw [if_neg hz, ← htlsf]
    · rw [if_neg hhead, if_neg hhead]
      exact ⟨heap₂, rfl, .refl, htlsf, fun _ => rfl⟩
  refine outcome_step hstep₃ ?_
  have hr₃' := hr₂'.trans hr₃
  refine outcome_setWord (hr₃'.accessible_iff.mpr hl.prev) ?_
  refine Outcome.of_ok (setWord_ok (put_accessible.mpr (hr₃'.accessible_iff.mpr hl.next))) ?_
  have hr := (hr₃'.trans (Relinked.put_link (v := 0) hbs (.inl rfl))).trans
    (Relinked.put_link (v := 0) hbs (.inr rfl))
  refine ⟨⟨_, h.remove hb hi.symm hj.symm hr (fun a ha ha0 hab => ?_) (fun a ha ha0 hab => ?_) ?_⟩, hr⟩
  · rw [next_put_next ha hl.aligned (by decide), if_neg hab, next_put_prev ha hl.aligned, hat₃,
      hnext₂ a ha ha0, hnext₁ a ha, hp, hn]
  · rw [prev_put_next ha hl.aligned, prev_put_prev ha hl.aligned (by decide), if_neg hab, hat₃,
      hprev₂ a ha, hprev₁ a ha ha0, hp, hn]
  · rw [put_tlsf, put_tlsf, htlsf₃, hn]

theorem outcome_extractBlockHdr (h : Binned heap free) (hb : free b = some n)
    (hi : classFl n = i) (hj : classSl n = j) (hhead : heap.tlsf.matrix i j = b) :
    Outcome (extractBlockHdr b (i : Nat) (j : Nat)) (fun _ heap' =>
      Binned heap' (Function.update free b none) ∧ Relinked free heap heap')
      (fun _ _ => False) heap := by
  obtain ⟨bins, h⟩ := h
  have hl := h.listable b n hb
  have hmem : b ∈ bins i j := (h.mem_iff i j b).mpr ⟨n, hb, hi, hj⟩
  have hnull : (0 : Nat) ∉ bins i j := fun h0 => (h.linked i j).ne_null h0 rfl
  have hbs : (free b).isSome := by
    rw [hb]
    rfl
  -- nothing is in front of the first block
  have hprev : heap.at (prev b) = 0 := by
    have hlinked := h.linked i j
    rw [hhead] at hlinked
    cases hbins : bins i j with
    | nil =>
      rw [hbins] at hmem
      cases hmem
    | cons a l =>
      rw [hbins] at hlinked
      obtain ⟨rfl, -, hp, -⟩ := hlinked
      exact hp
  generalize hn : heap.at (next b) = c
  have hcmem : c ≠ 0 → c ∈ bins i j := fun hc =>
    hn ▸ (h.linked i j).next_mem hmem (by rw [hn]; exact hc)
  unfold extractBlockHdr
  refine outcome_step (index_ok i) (outcome_step (index_ok j) ?_)
  refine outcome_word hl.next ?_
  rw [hn]
  refine outcome_step (t := { heap with tlsf := heap.tlsf.setMatrix i j c }) rfl ?_
  have hr₁ : Relinked free heap { heap with tlsf := heap.tlsf.setMatrix i j c } :=
    .header (fun t => t.setMatrix i j c) rfl rfl
  by_cases hz : c = 0
  · rw [if_neg (not_not.mpr hz)]
    refine outcome_step (t := { heap with tlsf := (heap.tlsf.setMatrix i j c).clearBits i j })
      rfl ?_
    have hr₂ : Relinked free heap { heap with tlsf := (heap.tlsf.setMatrix i j c).clearBits i j } :=
      .header (fun t => (t.setMatrix i j c).clearBits i j) clearBits_rest.1 clearBits_rest.2
    refine outcome_setWord (hr₂.accessible_iff.mpr hl.prev) ?_
    refine Outcome.of_ok (setWord_ok (put_accessible.mpr (hr₂.accessible_iff.mpr hl.next))) ?_
    have hr := (hr₂.trans (Relinked.put_link (v := 0) hbs (.inl rfl))).trans
      (Relinked.put_link (v := 0) hbs (.inr rfl))
    refine ⟨⟨_, h.remove hb hi hj hr (fun a ha ha0 hab => ?_) (fun a ha ha0 hab => ?_) ?_⟩, hr⟩
    · rw [next_put_next ha hl.aligned (by decide), if_neg hab, next_put_prev ha hl.aligned, hprev,
        if_neg ha0]
      rfl
    · rw [prev_put_next ha hl.aligned, prev_put_prev ha hl.aligned (by decide), if_neg hab, hn,
        if_neg (fun heq => ha0 (heq.trans hz))]
      rfl
    · rw [if_pos hhead, hn, if_pos hz]
      rfl
  · rw [if_pos hz]
    obtain ⟨m, hm⟩ := h.listable_of_mem (hcmem hz)
    obtain ⟨m', hm', -⟩ := h.some_of_mem (hcmem hz)
    have hcs : (free c).isSome := by
      rw [hm']
      rfl
    refine outcome_setWord (hr₁.accessible_iff.mpr hm.prev) ?_
    refine outcome_setWord (put_accessible.mpr (hr₁.accessible_iff.mpr hl.prev)) ?_
    refine Outcome.of_ok (setWord_ok (put_accessible.mpr (put_accessible.mpr
      (hr₁.accessible_iff.mpr hl.next)))) ?_
    have hr := ((hr₁.trans (Relinked.put_link (v := 0) hcs (.inl rfl))).trans
      (Relinked.put_link (v := 0) hbs (.inl rfl))).trans
        (Relinked.put_link (v := 0) hbs (.inr rfl))
    refine ⟨⟨_, h.remove hb hi hj hr (fun a ha ha0 hab => ?_) (fun a ha ha0 hab => ?_) ?_⟩, hr⟩
    · rw [next_put_next ha hl.aligned (by decide), if_neg hab, next_put_prev ha hl.aligned,
        next_put_prev ha hm.aligned, hprev, if_neg ha0]
      rfl
    · rw [prev_put_next ha hl.aligned, prev_put_prev ha hl.aligned (by decide), if_neg hab,
        prev_put_prev ha hm.aligned (by decide), hn, hprev]
      rfl
    · rw [if_pos hhead, hn, if_neg hz]
      rfl

/-! ## Search -/

theorem Listed.head_of_bit (h : Listed heap free bins) (hbit : (heap.tlsf.slBitmap i).getLsbD j = true) :
    ∃ n, free (heap.tlsf.matrix i j) = some n ∧ classFl n = i ∧ classSl n = j := by
  have hne : heap.tlsf.matrix i j ≠ 0 := fun hz =>
    (h.mapped.slBitmap i j).mp hbit (h.head_eq_zero_iff.mp hz)
  exact h.some_of_mem (h.head_mem hne)

theorem Listed.bit_of_some (h : Listed heap free bins) (hb : free b = some n) (hi : classFl n = i)
    (hj : classSl n = j) : (heap.tlsf.slBitmap i).getLsbD j = true :=
  (h.mapped.slBitmap i j).mpr (List.ne_nil_of_mem ((h.mem_iff i j b).mpr ⟨n, hb, hi, hj⟩))

/-- A free block of the lowest class that has one, from the class of `n` on. -/
structure Fitting (heap : Heap) (free : Nat → Option Nat) (n b m : Nat) (i : Fin realFli)
    (j : Fin maxSli) : Prop where
  isFree : free b = some m
  fl : classFl m = i
  sl : classSl m = j
  head : heap.tlsf.matrix i j = b
  rank_le : rank n ≤ rank m
  least : ∀ a k, free a = some k → rank n ≤ rank k → rank m ≤ rank k

theorem outcome_findSuitableBlock (h : Binned heap free) (hn : n < maxSize) :
    Outcome (findSuitableBlock (classFl n) (classSl n)) (fun r heap' => heap' = heap ∧
      ((r.1 = 0 ∧ ∀ a m, free a = some m → rank m < rank n) ∨
        ∃ m i j, Fitting heap free n r.1 m i j ∧ r.2 = (((i : Nat) : Int), ((j : Nat) : Int))))
      (fun _ _ => False) heap := by
  obtain ⟨bins, h⟩ := h
  obtain ⟨i, hi⟩ : ∃ i : Fin realFli, (i : Nat) = classFl n := ⟨⟨_, classFl_lt hn⟩, rfl⟩
  have hsl := classSl_lt n
  have hrank : rank n = maxSli * i + classSl n := by rw [hi]; rfl
  unfold findSuitableBlock
  rw [← hi]
  refine outcome_step (index_ok i) (outcome_step (shift_ok hsl) ?_)
  refine outcome_step (r := heap.tlsf) (t := heap) rfl ?_
  dsimp only
  by_cases htmp : heap.tlsf.slBitmap i &&& BitVec.allOnes 32 <<< classSl n = 0
  · rw [if_neg (not_not.mpr htmp)]
    -- no block has this first index and a class that is high enough
    have hfl : ∀ a k, free a = some k → classFl k = i → classSl k < classSl n := by
      intro a k hk hki
      by_contra hle
      have hbit := h.bit_of_some (j := ⟨classSl k, classSl_lt k⟩) hk hki rfl
      have hup : (heap.tlsf.slBitmap i &&& BitVec.allOnes 32 <<< classSl n).getLsbD (classSl k) =
          true := by
        rw [getLsbD_upper, hbit, decide_eq_true (Nat.not_lt.mp hle)]
        rfl
      exact ne_zero_iff.mpr ⟨_, hup⟩ htmp
    have hi24 := i.isLt
    unfold realFli at hi24
    rw [show ((i : Nat) : Int) + 1 = ((i + 1 : Nat) : Int) by omega]
    refine outcome_step (shift_ok (by omega)) ?_
    refine outcome_step (r := heap.tlsf) (t := heap) rfl ?_
    by_cases hup : heap.tlsf.flBitmap &&& BitVec.allOnes 32 <<< ((i : Nat) + 1) = 0
    · rw [hup, show lsBit 0 = -1 from lsBit_zero, if_neg (by omega)]
      refine ⟨rfl, .inl ⟨rfl, fun a k hk => ?_⟩⟩
      have hk24 : classFl k < realFli := classFl_lt (h.listable a k hk).small
      have hksl := classSl_lt k
      have hkrank : rank k = maxSli * classFl k + classSl k := rfl
      rcases Nat.lt_trichotomy (classFl k) i with hlt | heq | hgt
      · unfold maxSli at *
        omega
      · have := hfl a k hk heq
        rw [hkrank, hrank, heq]
        omega
      · -- its bit would have been found
        exfalso
        have hbit := h.bit_of_some (i := ⟨classFl k, hk24⟩) (j := ⟨classSl k, hksl⟩) hk rfl rfl
        have hflbit := (h.mapped.flBitmap ⟨classFl k, hk24⟩).mpr (ne_zero_iff.mpr ⟨_, hbit⟩)
        refine ne_zero_iff.mpr ⟨classFl k, ?_⟩ hup
        rw [getLsbD_upper, hflbit, decide_eq_true (by omega : (i : Nat) + 1 ≤ classFl k)]
        rfl
    · obtain ⟨k, hk⟩ := exists_isLeast hup
      have hkbit := hk.1
      rw [getLsbD_upper, Bool.and_eq_true, decide_eq_true_eq] at hkbit
      obtain ⟨hkset, hik⟩ := hkbit
      obtain ⟨i', hi'⟩ : ∃ i' : Fin realFli, (i' : Nat) = k :=
        ⟨⟨k, h.mapped.flBitmap_lt k hkset⟩, rfl⟩
      rw [lsBit_eq hk, if_pos (by omega : (k : Int) > 0), ← hi']
      refine outcome_step (index_ok i') (outcome_step (r := heap.tlsf) (t := heap) rfl ?_)
      have hsl0 : heap.tlsf.slBitmap i' ≠ 0 :=
        (h.mapped.flBitmap i').mp (by rw [hi']; exact hkset)
      obtain ⟨l, hl⟩ := exists_isLeast hsl0
      obtain ⟨j, hj⟩ : ∃ j : Fin maxSli, (j : Nat) = l := ⟨⟨l, hl.lt⟩, rfl⟩
      rw [lsBit_eq hl, ← hj]
      refine outcome_step (index_ok j) (outcome_step (r := heap.tlsf) (t := heap) rfl ?_)
      obtain ⟨m, hm, hmfl, hmsl⟩ := h.head_of_bit (i := i') (j := j) (by rw [hj]; exact hl.1)
      have hmrank : rank m = maxSli * i' + j := by
        unfold rank
        rw [hmfl, hmsl]
      have hjlt := j.isLt
      refine ⟨rfl, .inr ⟨m, i', j, ⟨hm, hmfl, hmsl, rfl, ?_, fun a x hx hle => ?_⟩, rfl⟩⟩
      · unfold maxSli at *
        omega
      · have hx24 : classFl x < realFli := classFl_lt (h.listable a x hx).small
        have hxsl := classSl_lt x
        have hxrank : rank x = maxSli * classFl x + classSl x := rfl
        have hbit := h.bit_of_some (i := ⟨classFl x, hx24⟩) (j := ⟨classSl x, hxsl⟩) hx rfl rfl
        have hxfl : (i : Nat) < classFl x := by
          by_contra hge
          by_cases heq : classFl x = i
          · have := hfl a x hx heq
            rw [hxrank, hrank, heq] at hle
            omega
          · unfold maxSli at *
            omega
        have hflbit : heap.tlsf.flBitmap.getLsbD (classFl x) = true :=
          (h.mapped.flBitmap ⟨classFl x, hx24⟩).mpr (ne_zero_iff.mpr ⟨_, hbit⟩)
        -- neither its first index is below the one found, nor then its second one
        have hge : i' ≤ classFl x := by
          by_contra hlt
          have hbelow := hk.2 (classFl x) (by omega)
          rw [getLsbD_upper, hflbit, decide_eq_true (by omega : (i : Nat) + 1 ≤ classFl x)] at hbelow
          cases hbelow
        by_cases heq : classFl x = i'
        · have hjx : (j : Nat) ≤ classSl x := by
            by_contra hlt
            have hbelow := hl.2 (classSl x) (by omega)
            rw [show (⟨classFl x, hx24⟩ : Fin realFli) = i' from Fin.ext heq] at hbit
            rw [hbit] at hbelow
            cases hbelow
          rw [hmrank, hxrank, heq]
          omega
        · unfold maxSli at *
          omega
  · rw [if_pos htmp]
    obtain ⟨k, hk⟩ := exists_isLeast htmp
    have hkbit := hk.1
    rw [getLsbD_upper, Bool.and_eq_true, decide_eq_true_eq] at hkbit
    obtain ⟨hkset, hslk⟩ := hkbit
    obtain ⟨j, hj⟩ : ∃ j : Fin maxSli, (j : Nat) = k := ⟨⟨k, hk.lt⟩, rfl⟩
    rw [lsBit_eq hk, ← hj]
    refine outcome_step (index_ok j) (outcome_step (r := heap.tlsf) (t := heap) rfl ?_)
    obtain ⟨m, hm, hmfl, hmsl⟩ := h.head_of_bit (i := i) (j := j) (by rw [hj]; exact hkset)
    have hmrank : rank m = maxSli * i + j := by
      unfold rank
      rw [hmfl, hmsl]
    have hjlt := j.isLt
    refine ⟨rfl, .inr ⟨m, i, j, ⟨hm, hmfl, hmsl, rfl, by omega, fun a x hx hle => ?_⟩, rfl⟩⟩
    have hx24 : classFl x < realFli := classFl_lt (h.listable a x hx).small
    have hxsl := classSl_lt x
    have hxrank : rank x = maxSli * classFl x + classSl x := rfl
    have hbit := h.bit_of_some (i := ⟨classFl x, hx24⟩) (j := ⟨classSl x, hxsl⟩) hx rfl rfl
    rcases Nat.lt_trichotomy (classFl x) i with hlt | heq | hgt
    · unfold maxSli at *
      omega
    · have hjx : (j : Nat) ≤ classSl x := by
        by_contra hlt
        rw [show (⟨classFl x, hx24⟩ : Fin realFli) = i from Fin.ext heq] at hbit
        have hbelow := hk.2 (classSl x) (by omega)
        have hle' : classSl n ≤ classSl x := by
          rw [hxrank, hrank, heq] at hle
          omega
        rw [getLsbD_upper, hbit, decide_eq_true hle'] at hbelow
        cases hbelow
      rw [hmrank, hxrank, heq]
      omega
    · unfold maxSli at *
      omega

end

end Egos.Libc.Tlsf
