import Egos.Earth.Tlb

/-!
# What the TLB stands for

To the kernel a frame holds one page of bytes. While an entry maps the frame, these bytes lie
in the virtual page, and `contents` looks there. None of the functions of `tlb.c` changes the
contents of a frame.
-/
namespace Egos.Earth.Mmu

open Egos.Lib

set_option autoImplicit false

/-- Entry `k` maps the virtual page to the frame. -/
def Maps (mmu : Mmu) (k : Fin tlbSize) (page frame : Nat) : Prop :=
  (mmu.entries k).virt = page ∧ (mmu.entries k).phys = some frame

/-- No page and no frame is mapped twice, the protection is the one of the entry, and a
page that is not writable agrees with its frame. -/
structure Coherent (mmu : Mmu) : Prop where
  virt : ∀ {k l page frame frame'}, mmu.Maps k page frame → mmu.Maps l page frame' → k = l
  phys : ∀ {k l page page' frame}, mmu.Maps k page frame → mmu.Maps l page' frame → k = l
  access : ∀ {k page frame}, mmu.Maps k page frame → mmu.access page = (mmu.entries k).prot
  hidden : ∀ {page}, (∀ k frame, ¬ mmu.Maps k page frame) → mmu.access page = Prot.none
  readable : ∀ {k page frame}, mmu.Maps k page frame → (mmu.entries k).prot.read = true
  clean : ∀ {k page frame}, mmu.Maps k page frame → (mmu.entries k).prot.write = false →
    mmu.memory page = mmu.frames frame

/-- The bytes of a frame, wherever they are. -/
def contents (mmu : Mmu) (frame : Nat) : Page :=
  match (List.finRange tlbSize).find? fun k =>
      decide ((mmu.entries k).phys = some frame) && (mmu.entries k).prot.write with
  | some k => mmu.memory (mmu.entries k).virt
  | none => mmu.frames frame

variable {mmu mmu' mmu'' : Mmu}

theorem Coherent.contents_mapped (h : mmu.Coherent) {k : Fin tlbSize} {page frame : Nat}
    (hk : mmu.Maps k page frame) : mmu.contents frame = mmu.memory page := by
  unfold contents
  split
  · rename_i l hl
    have hfound := List.find?_some hl
    simp only [Bool.and_eq_true, decide_eq_true_eq] at hfound
    have hlk : l = k := h.phys ⟨rfl, hfound.1⟩ hk
    rw [hlk, hk.1]
  · rename_i hnone
    have hall := List.find?_eq_none.mp hnone k (List.mem_finRange k)
    have hro : (mmu.entries k).prot.write = false := by simpa [hk.2] using hall
    exact (h.clean hk hro).symm

theorem contents_unmapped {frame : Nat} (h : ∀ k page, ¬ mmu.Maps k page frame) :
    mmu.contents frame = mmu.frames frame := by
  unfold contents
  split
  · rename_i l hl
    have hfound := List.find?_some hl
    simp only [Bool.and_eq_true, decide_eq_true_eq] at hfound
    exact absurd ⟨rfl, hfound.1⟩ (h l _)
  · rfl

theorem getEntry_none {page : Nat} (h : mmu.getEntry page = none) (k : Fin tlbSize) (frame : Nat) :
    ¬ mmu.Maps k page frame := by
  intro hk
  have hall := List.find?_eq_none.mp h k (List.mem_finRange k)
  simp [hk.1, hk.2] at hall

theorem getEntry_some {page : Nat} {k : Fin tlbSize} (h : mmu.getEntry page = some k) :
    ∃ frame, mmu.Maps k page frame := by
  have hfound := List.find?_some h
  simp only [Bool.and_eq_true, decide_eq_true_eq] at hfound
  obtain ⟨frame, hframe⟩ := Option.isSome_iff_exists.mp hfound.2
  exact ⟨frame, hfound.1, hframe⟩

/-- The hardware permits an access only to a page that is mapped. -/
theorem Coherent.mapped (h : mmu.Coherent) {page : Nat} (hp : mmu.access page ≠ Prot.none) :
    ∃ k frame, mmu.Maps k page frame := by
  by_contra hnone
  push Not at hnone
  exact hp (h.hidden hnone)

/-- The TLB has fewer entries and stands for the same contents. -/
structure Settles (mmu mmu' : Mmu) : Prop where
  coherent : mmu'.Coherent
  contents : ∀ frame, mmu'.contents frame = mmu.contents frame
  entries : ∀ k page frame, mmu'.Maps k page frame →
    mmu.Maps k page frame ∧ (mmu'.entries k).prot = (mmu.entries k).prot

namespace Settles

theorem refl (h : mmu.Coherent) : Settles mmu mmu := ⟨h, fun _ => rfl, fun _ _ _ hk => ⟨hk, rfl⟩⟩

theorem trans (h : Settles mmu mmu') (h' : Settles mmu' mmu'') : Settles mmu mmu'' where
  coherent := h'.coherent
  contents frame := (h'.contents frame).trans (h.contents frame)
  entries k page frame hk := by
    obtain ⟨hk', hprot'⟩ := h'.entries k page frame hk
    obtain ⟨hk'', hprot⟩ := h.entries k page frame hk'
    exact ⟨hk'', hprot'.trans hprot⟩

theorem foldl {f : Mmu → Fin tlbSize → Mmu} (hf : ∀ mmu k, mmu.Coherent → Settles mmu (f mmu k))
    (h : mmu.Coherent) (ks : List (Fin tlbSize)) : Settles mmu (ks.foldl f mmu) := by
  induction ks generalizing mmu with
  | nil => exact refl h
  | cons k ks ih =>
    have hk := hf mmu k h
    exact hk.trans (ih hk.coherent)

/-- A change that leaves the memory alone settles if the frames that lose their entry get the
page. -/
theorem of_memory (h : mmu.Coherent) (hc : mmu'.Coherent) (hmemory : mmu'.memory = mmu.memory)
    (hentries : ∀ k page frame, mmu'.Maps k page frame →
      mmu.Maps k page frame ∧ (mmu'.entries k).prot = (mmu.entries k).prot)
    (hlost : ∀ k page frame, mmu.Maps k page frame → ¬ mmu'.Maps k page frame →
      mmu'.frames frame = mmu.memory page)
    (hframes : ∀ frame, (∀ k page, ¬ mmu.Maps k page frame) →
      mmu'.frames frame = mmu.frames frame) : Settles mmu mmu' := by
  refine ⟨hc, fun frame => ?_, hentries⟩
  by_cases hm : ∃ k page, mmu.Maps k page frame
  · obtain ⟨k, page, hk⟩ := hm
    rw [h.contents_mapped hk]
    by_cases hk' : mmu'.Maps k page frame
    · rw [hc.contents_mapped hk', hmemory]
    · rw [contents_unmapped fun l page' hl => ?_, hlost k page frame hk hk']
      have hl' := (hentries l page' frame hl).1
      have hlk : l = k := h.phys hl' hk
      subst hlk
      rw [show page' = page from hl'.1.symm.trans hk.1] at hl
      exact hk' hl
  · push Not at hm
    have hm' (k : Fin tlbSize) (page : Nat) : ¬ mmu'.Maps k page frame :=
      fun hk => hm k page (hentries k page frame hk).1
    rw [contents_unmapped hm, contents_unmapped hm', hframes frame hm]

end Settles

theorem Coherent.syncEntry (h : mmu.Coherent) (k : Fin tlbSize) : Settles mmu (mmu.syncEntry k) := by
  unfold Mmu.syncEntry
  split
  · exact .refl h
  rename_i frame hphys
  have hk : mmu.Maps k (mmu.entries k).virt frame := ⟨rfl, hphys⟩
  dsimp only
  split
  · rename_i hwrite
    rw [if_pos (h.readable hk)]
    have hframes {l : Fin tlbSize} {page frame' : Nat} (hl : mmu.Maps l page frame')
        (hro : (mmu.entries l).prot.write = false) : frame' ≠ frame := by
      rintro rfl
      rw [h.phys hl hk, hwrite] at hro
      cases hro
    refine Settles.of_memory h ⟨h.virt, h.phys, h.access, h.hidden, h.readable, ?_⟩ rfl
      (fun _ _ _ hl => ⟨hl, rfl⟩) (fun _ _ _ hl hl' => absurd hl hl') (fun frame' hnone => ?_)
    · intro l page frame' hl hro
      exact (h.clean hl hro).trans (Function.update_of_ne (hframes hl hro) _ _).symm
    · refine Function.update_of_ne ?_ _ _
      rintro rfl
      exact hnone k _ hk
  · exact .refl h

/-- After a sync the frame of the entry is up to date. -/
theorem Coherent.syncEntry_frame (h : mmu.Coherent) {k : Fin tlbSize} {page frame : Nat}
    (hk : mmu.Maps k page frame) : (mmu.syncEntry k).frames frame = mmu.memory page := by
  unfold Mmu.syncEntry
  rw [hk.2, ← hk.1]
  dsimp only
  split
  · exact Function.update_self _ _ _
  · rename_i hro
    exact (h.clean ⟨rfl, hk.2⟩ (by simpa using hro)).symm

theorem syncEntry_entries (mmu : Mmu) (k : Fin tlbSize) :
    (mmu.syncEntry k).entries = mmu.entries := by
  unfold Mmu.syncEntry
  split
  · rfl
  · dsimp only
    split <;> rfl

theorem syncEntry_memory (mmu : Mmu) (k : Fin tlbSize) :
    (mmu.syncEntry k).memory = mmu.memory := by
  unfold Mmu.syncEntry
  split
  · rfl
  · dsimp only
    split <;> rfl

theorem flushEntry_of_unused {k : Fin tlbSize} (h : (mmu.entries k).phys = none) :
    mmu.flushEntry k = mmu := by
  unfold Mmu.flushEntry
  rw [h]

theorem flushEntry_maps {k l : Fin tlbSize} {page frame : Nat} :
    (mmu.flushEntry k).Maps l page frame ↔ l ≠ k ∧ mmu.Maps l page frame := by
  cases hphys : (mmu.entries k).phys with
  | none =>
    rw [flushEntry_of_unused hphys]
    refine ⟨fun hl => ⟨?_, hl⟩, And.right⟩
    rintro rfl
    rw [hl.2] at hphys
    cases hphys
  | some frame' =>
    have hentries : (mmu.flushEntry k).entries =
        Function.update mmu.entries k TlbEntry.unused := by
      unfold Mmu.flushEntry
      rw [hphys]
      dsimp only
      rw [syncEntry_entries]
    unfold Maps
    rw [hentries]
    by_cases hl : l = k
    · subst hl
      simp [TlbEntry.unused]
    · simp [hl]

theorem flushEntry_memory (mmu : Mmu) (k : Fin tlbSize) :
    (mmu.flushEntry k).memory = mmu.memory := by
  unfold Mmu.flushEntry
  split
  · rfl
  · exact syncEntry_memory mmu k

theorem Coherent.flushEntry (h : mmu.Coherent) (k : Fin tlbSize) :
    Settles mmu (mmu.flushEntry k) := by
  cases hphys : (mmu.entries k).phys with
  | none =>
    rw [flushEntry_of_unused hphys]
    exact .refl h
  | some frame =>
    have hk : mmu.Maps k (mmu.entries k).virt frame := ⟨rfl, hphys⟩
    have hsync := h.syncEntry k
    have hmaps {l : Fin tlbSize} {page frame' : Nat} :
        (mmu.flushEntry k).Maps l page frame' ↔ l ≠ k ∧ mmu.Maps l page frame' := flushEntry_maps
    have hentries (l : Fin tlbSize) (hl : l ≠ k) :
        (mmu.flushEntry k).entries l = mmu.entries l := by
      unfold Mmu.flushEntry
      rw [hphys]
      dsimp only
      rw [syncEntry_entries, Function.update_of_ne hl]
    have hframes : (mmu.flushEntry k).frames = (mmu.syncEntry k).frames := by
      unfold Mmu.flushEntry
      rw [hphys]
    have haccess : (mmu.flushEntry k).access =
        Function.update (mmu.syncEntry k).access (mmu.entries k).virt Prot.none := by
      unfold Mmu.flushEntry
      rw [hphys]
    have hsynced {l : Fin tlbSize} {page frame' : Nat} (hl : mmu.Maps l page frame') :
        (mmu.syncEntry k).Maps l page frame' := by
      unfold Maps
      rw [syncEntry_entries]
      exact hl
    have hother {l : Fin tlbSize} {page frame' : Nat} (hlk : l ≠ k)
        (hl : mmu.Maps l page frame') : page ≠ (mmu.entries k).virt := by
      rintro rfl
      exact hlk (h.virt hl hk)
    have hcoherent : (mmu.flushEntry k).Coherent := by
      constructor
      · exact fun hl hl' => h.virt (hmaps.mp hl).2 (hmaps.mp hl').2
      · exact fun hl hl' => h.phys (hmaps.mp hl).2 (hmaps.mp hl').2
      · intro l page frame' hl
        obtain ⟨hlk, hl⟩ := hmaps.mp hl
        rw [haccess, Function.update_of_ne (hother hlk hl), hentries l hlk,
          hsync.coherent.access (hsynced hl), syncEntry_entries]
      · intro page hnone
        rw [haccess]
        by_cases hp : page = (mmu.entries k).virt
        · rw [hp, Function.update_self]
        · rw [Function.update_of_ne hp]
          refine hsync.coherent.hidden fun l frame' hl => ?_
          have hl' := (hsync.entries l page frame' hl).1
          refine hnone l frame' (hmaps.mpr ⟨?_, hl'⟩)
          rintro rfl
          exact hp hl'.1.symm
      · intro l page frame' hl
        obtain ⟨hlk, hl⟩ := hmaps.mp hl
        rw [hentries l hlk]
        exact h.readable hl
      · intro l page frame' hl hro
        obtain ⟨hlk, hl⟩ := hmaps.mp hl
        rw [hentries l hlk] at hro
        rw [flushEntry_memory, hframes]
        have hclean := hsync.coherent.clean (hsynced hl) (by rw [syncEntry_entries]; exact hro)
        rw [← hclean, syncEntry_memory]
    refine Settles.of_memory h hcoherent (flushEntry_memory mmu k) (fun l page frame' hl => ?_)
      (fun l page frame' hl hl' => ?_) (fun frame' hnone => ?_)
    · obtain ⟨hlk, hl⟩ := hmaps.mp hl
      exact ⟨hl, by rw [hentries l hlk]⟩
    · have hlk : l = k := by
        by_contra hne
        exact hl' (hmaps.mpr ⟨hne, hl⟩)
      subst hlk
      rw [hframes]
      exact h.syncEntry_frame hl
    · rw [hframes]
      have hsame := hsync.contents frame'
      rwa [contents_unmapped hnone, contents_unmapped fun l page hl =>
        hnone l page (hsync.entries l page frame' hl).1] at hsame

theorem Coherent.sync (h : mmu.Coherent) : Settles mmu mmu.sync :=
  .foldl (fun _ k hc => hc.syncEntry k) h _

theorem Coherent.flush (h : mmu.Coherent) : Settles mmu mmu.flush :=
  .foldl (fun _ k hc => hc.flushEntry k) h _

/-- A loop over all entries that clears entry `k` when it comes to it. -/
theorem foldl_maps {f : Mmu → Fin tlbSize → Mmu} {k : Fin tlbSize} {page frame : Nat}
    (hclear : ∀ mmu, ¬ (f mmu k).Maps k page frame)
    (hkeep : ∀ mmu l, (f mmu l).Maps k page frame → mmu.Maps k page frame) (mmu : Mmu) :
    ¬ ((List.finRange tlbSize).foldl f mmu).Maps k page frame := by
  have hlist (ks : List (Fin tlbSize)) (mmu : Mmu) (hk : k ∈ ks ∨ ¬ mmu.Maps k page frame) :
      ¬ (ks.foldl f mmu).Maps k page frame := by
    induction ks generalizing mmu with
    | nil => exact hk.resolve_left List.not_mem_nil
    | cons l ks ih =>
      refine ih _ ?_
      by_cases hl : k = l
      · subst hl
        exact .inr (hclear mmu)
      · obtain hmem | hnot := hk
        · exact .inl ((List.mem_cons.mp hmem).resolve_left hl)
        · exact .inr fun hm => hnot (hkeep mmu l hm)
  exact hlist _ mmu (.inl (List.mem_finRange k))

theorem flush_maps (mmu : Mmu) (k : Fin tlbSize) (page frame : Nat) :
    ¬ mmu.flush.Maps k page frame :=
  foldl_maps (fun _ hm => (flushEntry_maps.mp hm).1 rfl) (fun _ _ hm => (flushEntry_maps.mp hm).2) mmu

theorem Coherent.unmap (h : mmu.Coherent) (page : Nat) : Settles mmu (mmu.unmap page) := by
  refine .foldl (fun mmu k hc => ?_) h _
  split
  · exact hc.flushEntry k
  · exact .refl hc

theorem unmap_maps (mmu : Mmu) (k : Fin tlbSize) (page frame : Nat) :
    ¬ (mmu.unmap page).Maps k page frame := by
  refine foldl_maps (fun mmu => ?_) (fun mmu l hm => ?_) mmu
  · split
    · exact fun hm => (flushEntry_maps.mp hm).1 rfl
    · rename_i hv
      exact fun hm => hv hm.1
  · split at hm
    · exact (flushEntry_maps.mp hm).2
    · exact hm

section Map

variable {k : Fin tlbSize} {page frame : Nat} {prot : Prot}

theorem map_entries (l : Fin tlbSize) : (mmu.map k page frame prot).entries l =
    if l = k then ⟨page, some frame, prot⟩ else (mmu.flushEntry k).entries l :=
  Function.update_apply _ _ _ _

theorem map_maps {l : Fin tlbSize} {page' frame' : Nat} :
    (mmu.map k page frame prot).Maps l page' frame' ↔
      l = k ∧ page' = page ∧ frame' = frame ∨ l ≠ k ∧ mmu.Maps l page' frame' := by
  by_cases hl : l = k
  · subst hl
    simp [Mmu.map, Maps, eq_comm]
  · have hflush := @flushEntry_maps mmu k l page' frame'
    unfold Maps at hflush ⊢
    rw [map_entries, if_neg hl, hflush]
    simp [hl]

theorem map_memory (page' : Nat) : (mmu.map k page frame prot).memory page' =
    if page' = page then (mmu.flushEntry k).frames frame else (mmu.flushEntry k).memory page' :=
  Function.update_apply _ _ _ _

theorem map_access (page' : Nat) : (mmu.map k page frame prot).access page' =
    if page' = page then prot else (mmu.flushEntry k).access page' :=
  Function.update_apply _ _ _ _

theorem map_frames : (mmu.map k page frame prot).frames = (mmu.flushEntry k).frames := rfl

theorem map_ne_of_maps (hvirt : ∀ l frame', l ≠ k → ¬ mmu.Maps l page frame') {l : Fin tlbSize}
    {page' frame' : Nat} (hlk : l ≠ k) (hl : mmu.Maps l page' frame') : page' ≠ page := by
  rintro rfl
  exact hvirt l frame' hlk hl

/-- A page is mapped that no other entry maps, to a frame that no other entry maps. -/
theorem Coherent.map (h : mmu.Coherent) (hread : prot.read = true)
    (hvirt : ∀ l frame', l ≠ k → ¬ mmu.Maps l page frame')
    (hphys : ∀ l page', l ≠ k → ¬ mmu.Maps l page' frame) :
    (mmu.map k page frame prot).Coherent := by
  have hflush := h.flushEntry k
  have hkept {l : Fin tlbSize} {page' frame' : Nat} (hlk : l ≠ k)
      (hl : mmu.Maps l page' frame') : (mmu.flushEntry k).Maps l page' frame' :=
    flushEntry_maps.mpr ⟨hlk, hl⟩
  have hentry {l : Fin tlbSize} (hlk : l ≠ k) :
      (mmu.map k page frame prot).entries l = (mmu.flushEntry k).entries l := by
    rw [map_entries, if_neg hlk]
  have hself : (mmu.map k page frame prot).entries k = ⟨page, some frame, prot⟩ := by
    rw [map_entries, if_pos rfl]
  constructor
  · intro l l' page' frame' frame'' hl hl'
    obtain ⟨rfl, rfl, rfl⟩ | ⟨hlk, hl⟩ := map_maps.mp hl
    · obtain ⟨rfl, -, -⟩ | ⟨hlk', hl'⟩ := map_maps.mp hl'
      · rfl
      · exact absurd hl' (hvirt l' frame'' hlk')
    · obtain ⟨rfl, rfl, rfl⟩ | ⟨hlk', hl'⟩ := map_maps.mp hl'
      · exact absurd ‹mmu.Maps l _ _› (hvirt l frame' hlk)
      · exact h.virt ‹mmu.Maps l _ _› hl'
  · intro l l' page' page'' frame' hl hl'
    obtain ⟨rfl, rfl, rfl⟩ | ⟨hlk, hl⟩ := map_maps.mp hl
    · obtain ⟨rfl, -, -⟩ | ⟨hlk', hl'⟩ := map_maps.mp hl'
      · rfl
      · exact absurd hl' (hphys l' page'' hlk')
    · obtain ⟨rfl, rfl, rfl⟩ | ⟨hlk', hl'⟩ := map_maps.mp hl'
      · exact absurd ‹mmu.Maps l _ _› (hphys l page' hlk)
      · exact h.phys ‹mmu.Maps l _ _› hl'
  · intro l page' frame' hl
    obtain ⟨rfl, rfl, rfl⟩ | ⟨hlk, hl⟩ := map_maps.mp hl
    · rw [map_access, if_pos rfl, hself]
    · rw [map_access, if_neg (map_ne_of_maps hvirt hlk hl), hentry hlk,
        hflush.coherent.access (hkept hlk hl)]
  · intro page' hnone
    have hp : page' ≠ page := by
      rintro rfl
      exact hnone k frame (map_maps.mpr (.inl ⟨rfl, rfl, rfl⟩))
    rw [map_access, if_neg hp]
    refine hflush.coherent.hidden fun l frame' hl => ?_
    exact hnone l frame' (map_maps.mpr (.inr (flushEntry_maps.mp hl)))
  · intro l page' frame' hl
    obtain ⟨rfl, rfl, rfl⟩ | ⟨hlk, hl⟩ := map_maps.mp hl
    · rw [hself]
      exact hread
    · rw [hentry hlk]
      exact hflush.coherent.readable (hkept hlk hl)
  · intro l page' frame' hl hro
    obtain ⟨rfl, rfl, rfl⟩ | ⟨hlk, hl⟩ := map_maps.mp hl
    · rw [map_memory, if_pos rfl, map_frames]
    · rw [hentry hlk] at hro
      rw [map_memory, if_neg (map_ne_of_maps hvirt hlk hl), map_frames]
      exact hflush.coherent.clean (hkept hlk hl) hro

theorem Coherent.map_contents (h : mmu.Coherent) (hread : prot.read = true)
    (hvirt : ∀ l frame', l ≠ k → ¬ mmu.Maps l page frame')
    (hphys : ∀ l page', l ≠ k → ¬ mmu.Maps l page' frame) (frame' : Nat) :
    (mmu.map k page frame prot).contents frame' = mmu.contents frame' := by
  have hflush := h.flushEntry k
  have hcoherent := h.map hread hvirt hphys
  rw [← hflush.contents frame']
  by_cases hf : frame' = frame
  · subst hf
    have hunmapped (l : Fin tlbSize) (page' : Nat) : ¬ (mmu.flushEntry k).Maps l page' frame' :=
      fun hl => hphys l page' (flushEntry_maps.mp hl).1 (flushEntry_maps.mp hl).2
    rw [hcoherent.contents_mapped (map_maps.mpr (.inl ⟨rfl, rfl, rfl⟩)), map_memory, if_pos rfl,
      contents_unmapped hunmapped]
  · by_cases hm : ∃ l page', (mmu.flushEntry k).Maps l page' frame'
    · obtain ⟨l, page', hl⟩ := hm
      obtain ⟨hlk, hl'⟩ := flushEntry_maps.mp hl
      rw [hcoherent.contents_mapped (map_maps.mpr (.inr ⟨hlk, hl'⟩)), map_memory,
        if_neg (map_ne_of_maps hvirt hlk hl'), hflush.coherent.contents_mapped hl]
    · push Not at hm
      have hunmapped (l : Fin tlbSize) (page' : Nat) :
          ¬ (mmu.map k page frame prot).Maps l page' frame' := by
        intro hl
        obtain ⟨-, -, rfl⟩ | ⟨hlk, hl⟩ := map_maps.mp hl
        · exact hf rfl
        · exact hm l page' (flushEntry_maps.mpr ⟨hlk, hl⟩)
      rw [contents_unmapped hunmapped, contents_unmapped hm, map_frames]

end Map

theorem Coherent.write (h : mmu.Coherent) {k : Fin tlbSize} {page frame : Nat}
    (hk : mmu.Maps k page frame) (hwrite : (mmu.entries k).prot.write = true) (new : Page) :
    ({ mmu with memory := Function.update mmu.memory page new } : Mmu).Coherent ∧
      ({ mmu with memory := Function.update mmu.memory page new } : Mmu).contents =
        Function.update mmu.contents frame new := by
  have hcoherent :
      ({ mmu with memory := Function.update mmu.memory page new } : Mmu).Coherent := by
    refine ⟨h.virt, h.phys, h.access, h.hidden, h.readable, fun {l page' frame'} hl hro => ?_⟩
    have hp : page' ≠ page := by
      rintro rfl
      rw [h.virt hl hk] at hro
      exact absurd (hwrite.symm.trans hro) (by simp)
    exact (Function.update_of_ne hp _ _).trans (h.clean hl hro)
  refine ⟨hcoherent, funext fun frame' => ?_⟩
  by_cases hf : frame' = frame
  · subst hf
    rw [Function.update_self, hcoherent.contents_mapped (show Maps _ k page frame' from hk)]
    exact Function.update_self _ _ _
  · rw [Function.update_of_ne hf]
    by_cases hm : ∃ l page', mmu.Maps l page' frame'
    · obtain ⟨l, page', hl⟩ := hm
      have hp : page' ≠ page := by
        rintro rfl
        have hlk := h.virt hl hk
        subst hlk
        exact hf (Option.some.inj (hl.2.symm.trans hk.2))
      rw [hcoherent.contents_mapped (show Maps _ l page' frame' from hl), h.contents_mapped hl]
      exact Function.update_of_ne hp _ _
    · push Not at hm
      rw [contents_unmapped hm]
      exact contents_unmapped hm

theorem Coherent.fill (h : mmu.Coherent) {frame : Nat} (hnone : ∀ k page, ¬ mmu.Maps k page frame)
    (new : Page) :
    ({ mmu with frames := Function.update mmu.frames frame new } : Mmu).Coherent ∧
      ({ mmu with frames := Function.update mmu.frames frame new } : Mmu).contents =
        Function.update mmu.contents frame new := by
  have hcoherent :
      ({ mmu with frames := Function.update mmu.frames frame new } : Mmu).Coherent := by
    refine ⟨h.virt, h.phys, h.access, h.hidden, h.readable, fun {l page' frame'} hl hro => ?_⟩
    have hf : frame' ≠ frame := by
      rintro rfl
      exact hnone l page' hl
    exact (h.clean hl hro).trans (Function.update_of_ne hf _ _).symm
  have hunmapped (frame' : Nat) (hm : ∀ k page, ¬ mmu.Maps k page frame') :
      ({ mmu with frames := Function.update mmu.frames frame new } : Mmu).contents frame' =
        Function.update mmu.frames frame new frame' := contents_unmapped hm
  refine ⟨hcoherent, funext fun frame' => ?_⟩
  by_cases hf : frame' = frame
  · subst hf
    rw [hunmapped frame' hnone, Function.update_self, Function.update_self]
  · rw [Function.update_of_ne hf]
    by_cases hm : ∃ l page', mmu.Maps l page' frame'
    · obtain ⟨l, page', hl⟩ := hm
      rw [hcoherent.contents_mapped (show Maps _ l page' frame' from hl), h.contents_mapped hl]
    · push Not at hm
      rw [hunmapped frame' hm, contents_unmapped hm, Function.update_of_ne hf]

theorem coherent_initial (frames : Nat → Page) : (initial frames).Coherent := by
  have hnone (k : Fin tlbSize) (page frame : Nat) : ¬ (initial frames).Maps k page frame := by
    intro hk
    cases hk.2
  exact ⟨fun hk => absurd hk (hnone _ _ _), fun hk => absurd hk (hnone _ _ _),
    fun hk => absurd hk (hnone _ _ _), fun _ => rfl, fun hk => absurd hk (hnone _ _ _),
    fun hk => absurd hk (hnone _ _ _)⟩

end Egos.Earth.Mmu
