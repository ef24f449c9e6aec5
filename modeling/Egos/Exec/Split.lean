import Egos.Exec.ElfCvt

/-!
# The segments of the image

The pages are split up into runs of equal protection, in each of which the initialized pages
come first. The runs without protection are left out.
-/
namespace Egos.ElfCvt

open Egos.Lib Egos.Disk Egos.Earth
open Egos.Grass (ExecSegment)
open Egos.Spawnsvr (maxSegments)

set_option autoImplicit false

variable {pages : Nat → PageInfo} {npages first i q : Nat}

/-- One protection, and initialized pages before the others. -/
structure Uniform (pages : Nat → PageInfo) (first i : Nat) : Prop where
  prot : ∀ q, first ≤ q → q < i → (pages q).prot = (pages first).prot
  front : ∀ q q', first ≤ q → q ≤ q' → q' < i → (pages q').initialized = true →
    (pages q).initialized = true

theorem uniform_single (pages : Nat → PageInfo) (first : Nat) : Uniform pages first (first + 1) := by
  constructor
  · intro q h₁ h₂
    rw [show q = first by omega]
  · intro q q' h₁ h₂ h₃ h
    rw [show q = q' by omega]
    exact h

theorem Uniform.extend (h : Uniform pages first i) (hlt : first < i)
    (hprot : (pages i).prot = (pages first).prot)
    (hinit : (pages i).initialized = true → (pages (i - 1)).initialized = true) :
    Uniform pages first (i + 1) := by
  constructor
  · intro q h₁ h₂
    by_cases hq : q = i
    · rw [hq, hprot]
    · exact h.prot q h₁ (by omega)
  · intro q q' h₁ h₂ h₃ hq'
    by_cases hi : q' = i
    · subst hi
      by_cases hq : q = q'
      · rw [hq]
        exact hq'
      · exact h.front q (q' - 1) h₁ (by omega) (by omega) (hinit hq')
    · exact h.front q q' h₁ h₂ (by omega) hq'

theorem ninitialized_le (pages : Nat → PageInfo) (left j : Nat) :
    ninitialized pages left j ≤ left := by
  induction left generalizing j with
  | zero => exact Nat.le_refl 0
  | succ left ih =>
    rw [ninitialized]
    split
    · have := ih (j + 1)
      omega
    · omega

/-- The pages that are counted are those that are initialized. -/
theorem ninitialized_iff {left j : Nat}
    (hfront : ∀ q q', j ≤ q → q ≤ q' → q' < j + left → (pages q').initialized = true →
      (pages q).initialized = true) (hq : j ≤ q) (hlt : q < j + left) :
    (pages q).initialized = true ↔ q < j + ninitialized pages left j := by
  induction left generalizing j with
  | zero => omega
  | succ left ih =>
    rw [ninitialized]
    by_cases hinit : (pages j).initialized = true
    · rw [if_pos hinit]
      by_cases he : q = j
      · subst he
        simp only [hinit, true_iff]
        omega
      · rw [ih (j := j + 1) (fun q q' h₁ h₂ h₃ => hfront q q' (by omega) h₂ (by omega)) (by omega)
          (by omega)]
        omega
    · rw [if_neg hinit, Nat.add_zero]
      constructor
      · intro h
        exact absurd (hfront j q (Nat.le_refl j) hq hlt h) hinit
      · intro h
        omega

theorem Uniform.initialized_iff (base : Nat) (h : Uniform pages first i) (hq : first ≤ q)
    (hlt : q < i) :
    (pages q).initialized = true ↔ q < first + (segmentOf pages base first i).nblocks := by
  apply ninitialized_iff
  · intro q q' h₁ h₂ h₃
    exact h.front q q' h₁ h₂ (by omega)
  · exact hq
  · omega

theorem nblocks_le (pages : Nat → PageInfo) (base : Nat) {first i : Nat} (h : first ≤ i) :
    first + (segmentOf pages base first i).nblocks ≤ i := by
  have := ninitialized_le pages (i - first) first
  unfold segmentOf
  dsimp only
  omega

/-- The runs have all pages with a protection below `first`, in order. -/
structure Splits (pages : Nat → PageInfo) (first : Nat) (runs : List (Nat × Nat)) : Prop where
  sorted : runs.Pairwise fun r r' => r.2 ≤ r'.1
  below : ∀ r ∈ runs, r.1 < r.2 ∧ r.2 ≤ first
  uniform : ∀ r ∈ runs, Uniform pages r.1 r.2
  marked : ∀ r ∈ runs, (pages r.1).prot ≠ Prot.none
  cover : ∀ q, q < first → (pages q).prot ≠ Prot.none → ∃ r ∈ runs, r.1 ≤ q ∧ q < r.2

variable {runs : List (Nat × Nat)}

theorem splits_nil (pages : Nat → PageInfo) : Splits pages 0 [] :=
  ⟨.nil, by simp, by simp, by simp, fun q hq => absurd hq (Nat.not_lt_zero q)⟩

theorem Splits.skip (h : Splits pages first runs) (hu : Uniform pages first i) (hle : first ≤ i)
    (hnone : (pages first).prot = Prot.none) : Splits pages i runs := by
  refine ⟨h.sorted, fun r hr => ?_, h.uniform, h.marked, fun q hq hprot => ?_⟩
  · have := h.below r hr
    omega
  · by_cases hlt : q < first
    · exact h.cover q hlt hprot
    · rw [hu.prot q (by omega) hq] at hprot
      exact absurd hnone hprot

theorem Splits.close (h : Splits pages first runs) (hu : Uniform pages first i) (hlt : first < i)
    (hprot : (pages first).prot ≠ Prot.none) : Splits pages i (runs ++ [(first, i)]) := by
  have hmem : ∀ {r}, r ∈ runs ++ [(first, i)] → r ∈ runs ∨ r = (first, i) := by
    intro r hr
    simpa using hr
  constructor
  · rw [List.pairwise_append]
    refine ⟨h.sorted, .cons (by simp) .nil, fun r hr r' hr' => ?_⟩
    rw [List.mem_singleton.mp hr']
    exact (h.below r hr).2
  · intro r hr
    rcases hmem hr with hr | rfl
    · have := h.below r hr
      omega
    · exact ⟨hlt, Nat.le_refl i⟩
  · intro r hr
    rcases hmem hr with hr | rfl
    · exact h.uniform r hr
    · exact hu
  · intro r hr
    rcases hmem hr with hr | rfl
    · exact h.marked r hr
    · exact hprot
  · intro q hq hp
    by_cases hold : q < first
    · obtain ⟨r, hr, hin⟩ := h.cover q hold hp
      exact ⟨r, List.mem_append_left _ hr, hin⟩
    · exact ⟨(first, i), by simp, by omega, hq⟩

/-- The segments of runs. -/
def segmentsOf (pages : Nat → PageInfo) (base : Nat) (runs : List (Nat × Nat)) :
    List ExecSegment :=
  runs.map fun r => segmentOf pages base r.1 r.2

/-- The loop goes on with the runs so far, the last of them not yet closed. -/
theorem splitLoop_splits {base rounds : Nat} {last : Bool} {es es' : List ExecSegment}
    (h : Splits pages first runs) (hes : es = segmentsOf pages base runs)
    (hlen : runs.length < maxSegments) (hn : npages < 2 ^ 32)
    (hstate : first < i ∧ i ≤ npages ∧ Uniform pages first i ∧ last = (pages (i - 1)).initialized ∨
      first = npages ∧ i = (npages + 1) % 2 ^ 32)
    (hloop : splitLoop pages base npages rounds i first last es = .ok es') :
    ∃ runs', Splits pages npages runs' ∧ es' = segmentsOf pages base runs' ∧
      runs'.length < maxSegments := by
  induction rounds generalizing i first last es runs with
  | zero => cases hloop
  | succ rounds ih =>
    rw [splitLoop] at hloop
    rcases hstate with ⟨hlt, hle, hu, hlast⟩ | ⟨hfirst, hi⟩
    · rw [if_pos hle] at hloop
      dsimp only at hloop
      rw [if_neg (show ¬ npages ≤ first by omega)] at hloop
      split at hloop
      · -- the run ends before page `i`
        have hnext : i < (i + 1) % 2 ^ 32 ∧ (i + 1) % 2 ^ 32 ≤ npages ∧
            Uniform pages i ((i + 1) % 2 ^ 32) ∧
            (if i < npages then (pages i).initialized else last) =
              (pages ((i + 1) % 2 ^ 32 - 1)).initialized ∨
            i = npages ∧ (i + 1) % 2 ^ 32 = (npages + 1) % 2 ^ 32 := by
          by_cases hin : i < npages
          · rw [Nat.mod_eq_of_lt (show i + 1 < 2 ^ 32 by omega), if_pos hin]
            exact .inl ⟨by omega, by omega, uniform_single pages i, rfl⟩
          · have he : i = npages := by omega
            rw [he]
            exact .inr ⟨rfl, rfl⟩
        split at hloop
        · rename_i hprot
          split at hloop
          · rename_i hroom
            refine ih (h.close hu hlt hprot) ?_ ?_ hnext hloop
            · rw [hes, segmentsOf, segmentsOf, List.map_append]
              rfl
            · rw [hes, segmentsOf, List.length_map] at hroom
              rw [List.length_append, List.length_singleton]
              omega
          · cases hloop
        · rename_i hprot
          exact ih (h.skip hu (by omega) (not_not.mp hprot)) hes hlen hnext hloop
      · -- the run goes on
        rename_i hgo
        rw [not_or, not_or] at hgo
        obtain ⟨hne, hprot, hinit⟩ := hgo
        have hin : i < npages := by omega
        refine ih h hes hlen (.inl ?_) hloop
        rw [Nat.mod_eq_of_lt (show i + 1 < 2 ^ 32 by omega), if_pos hin]
        refine ⟨by omega, by omega, hu.extend hlt (not_not.mp hprot) fun hi => ?_, rfl⟩
        rw [← hlast]
        by_contra hfalse
        exact hinit ⟨hi, by simpa using hfalse⟩
    · by_cases hwrap : npages + 1 < 2 ^ 32
      · rw [Nat.mod_eq_of_lt hwrap] at hi
        rw [if_neg (by omega)] at hloop
        injection hloop with he
        rw [hfirst] at h
        exact ⟨runs, h, he ▸ hes, hlen⟩
      · rw [if_pos (by omega)] at hloop
        dsimp only at hloop
        rw [if_pos (by omega)] at hloop
        cases hloop

theorem split_splits {s : State} {es : List ExecSegment} (hn : s.npages < 2 ^ 32)
    (h : split s = .ok es) :
    ∃ runs, Splits s.pages s.npages runs ∧ es = segmentsOf s.pages s.base runs ∧
      runs.length < maxSegments := by
  unfold split at h
  split at h
  · cases h
  · exact splitLoop_splits (splits_nil _) rfl (by decide) hn
      (.inl ⟨by decide, by omega, uniform_single _ 0, rfl⟩) h

end Egos.ElfCvt
