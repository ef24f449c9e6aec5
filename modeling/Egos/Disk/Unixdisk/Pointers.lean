import Mathlib.Data.List.Basic
import Mathlib.Data.List.Perm.Basic
import Mathlib.Data.List.Nodup
import Mathlib.Logic.Function.Basic

/-!
# The pointers of a file

A file is given by the words `w` of its inode and by the entries `M` of the indirect blocks.
It grows offset by offset, and each new offset takes first the indirect blocks that it needs
and no earlier one did, then its data block. In this order the blocks of a file are the ones
that were taken from the free list, so a file that grows only moves blocks from the front of
one list to the end of another.
-/
namespace Egos.Disk.Unixdisk

set_option autoImplicit false

/-- Entry `t` of the block `b` becomes `x`. -/
def setPointer (M : Nat → Nat → Nat) (b t x : Nat) : Nat → Nat → Nat :=
  Function.update M b (Function.update (M b) t x)

theorem setPointer_same (M : Nat → Nat → Nat) (b t x : Nat) : setPointer M b t x b t = x := by
  unfold setPointer
  rw [Function.update_self, Function.update_self]

theorem setPointer_of_ne (M : Nat → Nat → Nat) {b t c u : Nat} (x : Nat) (h : c ≠ b ∨ u ≠ t) :
    setPointer M b t x c u = M c u := by
  unfold setPointer
  by_cases hc : c = b
  · subst hc
    rw [Function.update_self, Function.update_of_ne (h.resolve_left (not_not_intro rfl))]
  · rw [Function.update_of_ne hc]

section

variable (E : Nat) (w : Nat → Nat) (M : Nat → Nat → Nat)

/-- The block with the pointers to the data from offset `12 + E + j * E` on. -/
def secondLevel (j : Nat) : Nat := M (w 14) j

theorem secondLevel_update (f : Nat → Nat) (j : Nat) :
    secondLevel w (Function.update M (w 14) f) j = f j := by
  unfold secondLevel
  rw [Function.update_self]

theorem secondLevel_update_of_ne {a : Nat} (h : w 14 ≠ a) (f : Nat → Nat) (j : Nat) :
    secondLevel w (Function.update M a f) j = secondLevel w M j := by
  unfold secondLevel
  rw [Function.update_of_ne h]

/-- The data block at an offset below the triple indirect range. -/
def blockAt (t : Nat) : Nat :=
  if t < 12 then w (1 + t)
  else if t < 12 + E then M (w 13) (t - 12)
  else M (secondLevel w M ((t - (12 + E)) / E)) ((t - (12 + E)) % E)

/-- The indirect blocks that the offset is the first one to need. -/
def indirectAt (t : Nat) : List Nat :=
  if t = 12 then [w 13]
  else if t = 12 + E then [w 14, secondLevel w M 0]
  else if 12 + E < t ∧ (t - (12 + E)) % E = 0 then [secondLevel w M ((t - (12 + E)) / E)]
  else []

/-- The blocks of a file of this size in the order they were taken. -/
def fileBlocks : Nat → List Nat
  | 0 => []
  | t + 1 => fileBlocks t ++ (indirectAt E w M t ++ [blockAt E w M t])

/-- The indirect blocks of a file of this size. -/
def indirects : Nat → List Nat
  | 0 => []
  | t + 1 => indirects t ++ indirectAt E w M t

/-- The number of blocks of a file of this size. -/
def blocksFor (E : Nat) : Nat → Nat
  | 0 => 0
  | t + 1 => blocksFor E t + ((indirectAt E (fun _ => 0) (fun _ _ => 0) t).length + 1)

end

section

variable {E : Nat} {w w' : Nat → Nat} {M M' : Nat → Nat → Nat} {t i : Nat}

theorem indirectAt_length (E : Nat) (w w' : Nat → Nat) (M M' : Nat → Nat → Nat) (t : Nat) :
    (indirectAt E w M t).length = (indirectAt E w' M' t).length := by
  unfold indirectAt
  split_ifs <;> rfl

theorem fileBlocks_length (E : Nat) (w : Nat → Nat) (M : Nat → Nat → Nat) (i : Nat) :
    (fileBlocks E w M i).length = blocksFor E i := by
  induction i with
  | zero => rfl
  | succ i ih =>
    rw [fileBlocks, blocksFor, List.length_append, ih, List.length_append,
      indirectAt_length E w (fun _ => 0) M (fun _ _ => 0)]
    rfl

theorem blocksFor_mono (E : Nat) {i k : Nat} (h : i ≤ k) : blocksFor E i ≤ blocksFor E k := by
  induction k with
  | zero =>
    obtain rfl : i = 0 := by omega
    exact Nat.le_refl _
  | succ k ih =>
    rcases Nat.lt_or_ge k i with hk | hk
    · obtain rfl : i = k + 1 := by omega
      exact Nat.le_refl _
    · have hle := ih hk
      rw [blocksFor]
      omega

theorem rest_ne_nil {size : Nat} {pend l L : List Nat} (hL : fileBlocks E w M i ++ pend ++ l = L)
    (hroom : blocksFor E size ≤ L.length) (hi : i < size)
    (hpend : pend.length ≤ (indirectAt E w M i).length) : l ≠ [] := by
  rintro rfl
  have hlen := congrArg List.length hL
  rw [List.append_nil, List.length_append, fileBlocks_length] at hlen
  have hmono := blocksFor_mono E (show i + 1 ≤ size by omega)
  rw [blocksFor, indirectAt_length E (fun _ => 0) w (fun _ _ => 0) M] at hmono
  omega

theorem fileBlocks_congr (hb : ∀ t, t < i → blockAt E w' M' t = blockAt E w M t)
    (hi : ∀ t, t < i → indirectAt E w' M' t = indirectAt E w M t) :
    fileBlocks E w' M' i = fileBlocks E w M i := by
  induction i with
  | zero => rfl
  | succ i ih =>
    rw [fileBlocks, fileBlocks, hb i (by omega), hi i (by omega),
      ih (fun t ht => hb t (by omega)) (fun t ht => hi t (by omega))]

theorem fileBlocks_inj (h : fileBlocks E w' M' i = fileBlocks E w M i) :
    ∀ t, t < i → blockAt E w' M' t = blockAt E w M t ∧
      indirectAt E w' M' t = indirectAt E w M t := by
  induction i with
  | zero => intro t ht; omega
  | succ i ih =>
    rw [fileBlocks, fileBlocks] at h
    obtain ⟨hpre, hlast⟩ := List.append_inj h (by rw [fileBlocks_length, fileBlocks_length])
    obtain ⟨hind, hblock⟩ := List.append_inj hlast (indirectAt_length _ _ _ _ _ _)
    intro t ht
    by_cases hti : t = i
    · rw [hti]
      exact ⟨(List.cons.inj hblock).1, hind⟩
    · exact ih hpre t (by omega)

theorem fileBlocks_prefix {k : Nat} (h : i ≤ k) :
    ∃ rest, fileBlocks E w M k = fileBlocks E w M i ++ rest := by
  induction k with
  | zero =>
    obtain rfl : i = 0 := by omega
    exact ⟨[], rfl⟩
  | succ k ih =>
    rcases Nat.lt_or_ge k i with hk | hk
    · obtain rfl : i = k + 1 := by omega
      exact ⟨[], (List.append_nil _).symm⟩
    · obtain ⟨rest, he⟩ := ih hk
      exact ⟨rest ++ (indirectAt E w M k ++ [blockAt E w M k]), by
        rw [fileBlocks, he, List.append_assoc]⟩

theorem mem_fileBlocks_of_indirectAt {b : Nat} (ht : t < i) (hb : b ∈ indirectAt E w M t) :
    b ∈ fileBlocks E w M i := by
  obtain ⟨rest, he⟩ := fileBlocks_prefix (E := E) (w := w) (M := M) (show t + 1 ≤ i by omega)
  rw [he, fileBlocks]
  simp [hb]

theorem blockAt_mem (ht : t < i) : blockAt E w M t ∈ fileBlocks E w M i := by
  obtain ⟨rest, he⟩ := fileBlocks_prefix (E := E) (w := w) (M := M) (show t + 1 ≤ i by omega)
  rw [he, fileBlocks]
  simp

theorem blocksFor_lt (E t : Nat) : blocksFor E t < blocksFor E (t + 1) := by
  rw [blocksFor]
  omega

theorem fileBlocks_getElem? (ht : t < i) :
    (fileBlocks E w M i)[blocksFor E (t + 1) - 1]? = some (blockAt E w M t) := by
  obtain ⟨rest, he⟩ := fileBlocks_prefix (E := E) (w := w) (M := M) (show t + 1 ≤ i by omega)
  have hlen : (fileBlocks E w M t ++ indirectAt E w M t).length = blocksFor E (t + 1) - 1 := by
    rw [List.length_append, fileBlocks_length, blocksFor,
      indirectAt_length E w (fun _ => 0) M (fun _ _ => 0)]
    omega
  rw [he, fileBlocks, ← List.append_assoc, List.append_assoc, ← hlen,
    List.getElem?_append_right (Nat.le_refl _), Nat.sub_self]
  rfl

/-- The blocks of a file are its data blocks and its indirect blocks. -/
theorem fileBlocks_perm (E : Nat) (w : Nat → Nat) (M : Nat → Nat → Nat) (i : Nat) :
    (fileBlocks E w M i).Perm ((List.range i).map (blockAt E w M) ++ indirects E w M i) := by
  induction i with
  | zero => exact .refl _
  | succ i ih =>
    rw [fileBlocks, indirects, List.range_succ, List.map_append, List.map_singleton,
      List.append_assoc, ← List.append_assoc [_]]
    refine (ih.append_right _).trans ?_
    rw [List.append_assoc]
    refine List.Perm.append_left _ ?_
    rw [← List.append_assoc, List.append_assoc [_]]
    exact List.perm_append_comm

theorem mem_indirects {b : Nat} :
    b ∈ indirects E w M i ↔ ∃ t, t < i ∧ b ∈ indirectAt E w M t := by
  induction i with
  | zero => simp [indirects]
  | succ i ih =>
    rw [indirects, List.mem_append, ih]
    constructor
    · rintro (⟨t, ht, hb⟩ | hb)
      · exact ⟨t, by omega, hb⟩
      · exact ⟨i, by omega, hb⟩
    · rintro ⟨t, ht, hb⟩
      rcases Nat.lt_or_ge t i with hti | hti
      · exact .inl ⟨t, hti, hb⟩
      · obtain rfl : t = i := by omega
        exact .inr hb

theorem mem_of_indirects {b : Nat} (hb : b ∈ indirects E w M i) : b ∈ fileBlocks E w M i := by
  obtain ⟨t, ht, hb⟩ := mem_indirects.mp hb
  exact mem_fileBlocks_of_indirectAt ht hb

theorem indirects_mono {r r' L : List Nat} {k : Nat} (h : fileBlocks E w M i ++ r = L)
    (h' : fileBlocks E w' M' k ++ r' = L) (hik : i ≤ k) {b : Nat} (hb : b ∈ indirects E w M i) :
    b ∈ indirects E w' M' k := by
  obtain ⟨rest, hrest⟩ := fileBlocks_prefix (E := E) (w := w') (M := M') hik
  have hsame : fileBlocks E w' M' i = fileBlocks E w M i := by
    rw [hrest, List.append_assoc] at h'
    exact (List.append_inj (h'.trans h.symm) (by rw [fileBlocks_length, fileBlocks_length])).1
  obtain ⟨t, ht, hb⟩ := mem_indirects.mp hb
  rw [← (fileBlocks_inj hsame t ht).2] at hb
  exact mem_indirects.mpr ⟨t, by omega, hb⟩

theorem indirectAt_single (E : Nat) (w : Nat → Nat) (M : Nat → Nat → Nat) :
    indirectAt E w M 12 = [w 13] := if_pos rfl

theorem indirectAt_double (hE : 0 < E) (w : Nat → Nat) (M : Nat → Nat → Nat) :
    indirectAt E w M (12 + E) = [w 14, secondLevel w M 0] := by
  rw [indirectAt, if_neg (by omega), if_pos rfl]

theorem indirectAt_chunk (hE : 0 < E) (w : Nat → Nat) (M : Nat → Nat → Nat) {j : Nat}
    (hj : 0 < j) : indirectAt E w M (12 + E + j * E) = [secondLevel w M j] := by
  have hjE : 0 < j * E := Nat.mul_pos hj hE
  rw [indirectAt, if_neg (by omega), if_neg (by omega),
    show 12 + E + j * E - (12 + E) = j * E by omega, Nat.mul_mod_left, Nat.mul_div_cancel _ hE]
  exact if_pos ⟨by omega, rfl⟩

theorem chunk_div {j u : Nat} (hu : u < E) : (12 + E + j * E + u - (12 + E)) / E = j := by
  rw [show 12 + E + j * E + u - (12 + E) = u + E * j by rw [Nat.mul_comm E]; omega,
    Nat.add_mul_div_left _ _ (by omega), Nat.div_eq_of_lt hu, Nat.zero_add]

theorem chunk_mod {j u : Nat} (hu : u < E) : (12 + E + j * E + u - (12 + E)) % E = u := by
  rw [show 12 + E + j * E + u - (12 + E) = u + E * j by rw [Nat.mul_comm E]; omega,
    Nat.add_mul_mod_self_left, Nat.mod_eq_of_lt hu]

/-- Between two boundaries no indirect block is needed. -/
theorem indirectAt_within {j u : Nat} (hu : u < E) (h0 : 0 < u) (w : Nat → Nat)
    (M : Nat → Nat → Nat) : indirectAt E w M (12 + E + j * E + u) = [] := by
  rw [indirectAt, if_neg (by omega), if_neg (by omega), chunk_mod hu]
  exact if_neg fun h => by omega

theorem indirectAt_of_lt {t : Nat} (h12 : t ≠ 12) (ht : t < 12 + E) (w : Nat → Nat)
    (M : Nat → Nat → Nat) : indirectAt E w M t = [] := by
  rw [indirectAt, if_neg h12, if_neg (by omega), if_neg (by omega)]

theorem secondLevel_mem_indirectAt (hE : 0 < E) (w : Nat → Nat) (M : Nat → Nat → Nat) (j : Nat) :
    secondLevel w M j ∈ indirectAt E w M (12 + E + j * E) := by
  rcases Nat.eq_zero_or_pos j with rfl | hj
  · rw [Nat.zero_mul, Nat.add_zero, indirectAt_double hE]
    simp
  · rw [indirectAt_chunk hE w M hj]
    exact List.mem_singleton_self _

theorem single_mem (h : 12 < i) : w 13 ∈ indirects E w M i := by
  refine mem_indirects.mpr ⟨12, h, ?_⟩
  rw [indirectAt_single]
  exact List.mem_singleton_self _

theorem double_mem (hE : 0 < E) (h : 12 + E < i) : w 14 ∈ indirects E w M i := by
  refine mem_indirects.mpr ⟨12 + E, h, ?_⟩
  rw [indirectAt_double hE]
  exact List.mem_cons_self

theorem secondLevel_mem (hE : 0 < E) {j : Nat} (h : 12 + E + j * E < i) :
    secondLevel w M j ∈ indirects E w M i :=
  mem_indirects.mpr ⟨_, h, secondLevel_mem_indirectAt hE w M j⟩

/-- What has been taken when the indirect blocks for the next offset are there. -/
def taken (E : Nat) (w : Nat → Nat) (M : Nat → Nat → Nat) (i : Nat) : List Nat :=
  fileBlocks E w M i ++ indirectAt E w M i

theorem single_mem_taken (h : 12 ≤ i) (w : Nat → Nat) (M : Nat → Nat → Nat) :
    w 13 ∈ taken E w M i := by
  rcases Nat.eq_or_lt_of_le h with rfl | h
  · rw [taken, indirectAt_single]
    exact List.mem_append_right _ (List.mem_singleton_self _)
  · exact List.mem_append_left _ (mem_of_indirects (single_mem h))

theorem secondLevel_mem_taken (hE : 0 < E) {j : Nat} (h : 12 + E + j * E ≤ i) (w : Nat → Nat)
    (M : Nat → Nat → Nat) : secondLevel w M j ∈ taken E w M i := by
  rcases Nat.eq_or_lt_of_le h with rfl | h
  · exact List.mem_append_right _ (secondLevel_mem_indirectAt hE w M j)
  · exact List.mem_append_left _ (mem_of_indirects (secondLevel_mem hE h))

theorem taken_nodup {k : Nat} (h : (fileBlocks E w M k).Nodup) (hi : i < k) :
    (taken E w M i).Nodup := by
  obtain ⟨rest, he⟩ := fileBlocks_prefix (E := E) (w := w) (M := M) (show i + 1 ≤ k by omega)
  rw [he, fileBlocks, ← List.append_assoc, List.append_assoc] at h
  exact (List.nodup_append.mp h).1

theorem taken_nodup_of_le {k : Nat} (h : (taken E w M k).Nodup) (hi : i ≤ k) :
    (taken E w M i).Nodup := by
  rcases Nat.eq_or_lt_of_le hi with rfl | hlt
  · exact h
  · exact taken_nodup (List.nodup_append.mp h).1 hlt

/-- Indirect blocks for different offsets are different. -/
theorem indirectAt_ne {t u b c : Nat} (h : (taken E w M u).Nodup) (htu : t < u)
    (hb : b ∈ indirectAt E w M t) (hc : c ∈ indirectAt E w M u) : c ≠ b := by
  rintro rfl
  exact (List.nodup_append.mp h).2.2 _ (mem_fileBlocks_of_indirectAt htu hb) _ hc rfl

theorem double_ne_secondLevel (hE : 0 < E) (h : (taken E w M (12 + E)).Nodup) :
    w 14 ≠ secondLevel w M 0 := by
  have hpair := (List.nodup_append.mp h).2.1
  rw [indirectAt_double hE] at hpair
  intro he
  exact (List.nodup_cons.mp hpair).1 (he ▸ List.mem_singleton_self _)

/-- A second-level block is none of the indirect blocks before it. -/
theorem secondLevel_ne (hE : 0 < E) {j : Nat} (h : (taken E w M (12 + E + j * E)).Nodup) :
    secondLevel w M j ≠ w 13 ∧ secondLevel w M j ≠ w 14 ∧
      ∀ k, k < j → secondLevel w M j ≠ secondLevel w M k := by
  have hmem := secondLevel_mem_indirectAt hE w M j
  refine ⟨?_, ?_, ?_⟩
  · apply indirectAt_ne h (show 12 < 12 + E + j * E by omega) _ hmem
    rw [indirectAt_single]
    exact List.mem_singleton_self _
  · rcases Nat.eq_zero_or_pos j with rfl | hj
    · rw [Nat.zero_mul, Nat.add_zero] at h
      exact (double_ne_secondLevel hE h).symm
    · have hjE : 0 < j * E := Nat.mul_pos hj hE
      apply indirectAt_ne h (show 12 + E < 12 + E + j * E by omega) _ hmem
      rw [indirectAt_double hE]
      exact List.mem_cons_self
  · intro k hk
    have hmul := Nat.mul_le_mul_right E hk
    rw [Nat.succ_mul] at hmul
    exact indirectAt_ne h (by omega) (secondLevel_mem_indirectAt hE w M k) hmem

theorem double_ne (hE : 0 < E) (h : (fileBlocks E w M i).Nodup) (hi : 12 + E < i) :
    w 14 ≠ w 13 ∧ ∀ k, 12 + E + k * E < i → w 14 ≠ secondLevel w M k := by
  constructor
  · apply indirectAt_ne (taken_nodup h hi) (show 12 < 12 + E by omega)
    · rw [indirectAt_single]
      exact List.mem_singleton_self _
    · rw [indirectAt_double hE]
      exact List.mem_cons_self
  · intro k hk
    exact (secondLevel_ne hE (taken_nodup h hk)).2.1.symm

/-- The pointers that a file of size `i` is made of are the same. -/
structure SamePointers (E : Nat) (w w' : Nat → Nat) (M M' : Nat → Nat → Nat) (i : Nat) : Prop where
  direct : ∀ t, t < i → t < 12 → w' (1 + t) = w (1 + t)
  single : 12 < i → w' 13 = w 13
  singleEntry : ∀ u, 12 + u < i → u < E → M' (w 13) u = M (w 13) u
  double : 12 + E < i → w' 14 = w 14
  level : ∀ j, 12 + E + j * E < i → M' (w 14) j = M (w 14) j
  levelEntry : ∀ j u, u < E → 12 + E + j * E + u < i →
    M' (secondLevel w M j) u = M (secondLevel w M j) u

theorem offset_split (hE : 0 < E) (h : 12 + E ≤ t) :
    12 + E + (t - (12 + E)) / E * E + (t - (12 + E)) % E = t ∧ (t - (12 + E)) % E < E := by
  have h1 := Nat.div_add_mod (t - (12 + E)) E
  rw [Nat.mul_comm] at h1
  exact ⟨by omega, Nat.mod_lt _ hE⟩

/-- Past as many blocks as there are entries, an offset is past the second level. -/
theorem le_offset (hE : 0 < E) (h : 12 + E ≤ t) (hblocks : E ≤ (t - (12 + E)) / E) :
    12 + E + E * E ≤ t := by
  obtain ⟨hsplit, -⟩ := offset_split hE h
  have hmul := Nat.mul_le_mul_right E hblocks
  omega

section

variable (h : SamePointers E w w' M M' i) (hE : 0 < E)

include h

theorem SamePointers.secondLevel_eq {j : Nat} (hj : 12 + E + j * E < i) :
    secondLevel w' M' j = secondLevel w M j := by
  unfold secondLevel
  rw [h.double (by omega), h.level j hj]

include hE

theorem SamePointers.blockAt_eq (ht : t < i) : blockAt E w' M' t = blockAt E w M t := by
  unfold blockAt
  by_cases h12 : t < 12
  · rw [if_pos h12, if_pos h12, h.direct t ht h12]
  · rw [if_neg h12, if_neg h12]
    by_cases h1 : t < 12 + E
    · rw [if_pos h1, if_pos h1, h.single (by omega), h.singleEntry _ (by omega) (by omega)]
    · rw [if_neg h1, if_neg h1]
      obtain ⟨hsplit, hlt⟩ := offset_split hE (show 12 + E ≤ t by omega)
      rw [h.secondLevel_eq (by omega), h.levelEntry _ _ hlt (by omega)]

theorem SamePointers.indirectAt_eq (ht : t < i) :
    indirectAt E w' M' t = indirectAt E w M t := by
  unfold indirectAt
  by_cases h12 : t = 12
  · rw [if_pos h12, if_pos h12, h.single (by omega)]
  · rw [if_neg h12, if_neg h12]
    by_cases h1 : t = 12 + E
    · rw [if_pos h1, if_pos h1, h.double (by omega), h.secondLevel_eq (by omega)]
    · rw [if_neg h1, if_neg h1]
      by_cases h2 : 12 + E < t ∧ (t - (12 + E)) % E = 0
      · obtain ⟨hsplit, hlt⟩ := offset_split hE (show 12 + E ≤ t by omega)
        rw [if_pos h2, if_pos h2, h.secondLevel_eq (by omega)]
      · rw [if_neg h2, if_neg h2]

theorem SamePointers.indirects_eq : indirects E w' M' i = indirects E w M i := by
  have hprefix : ∀ k, k ≤ i → indirects E w' M' k = indirects E w M k := by
    intro k hk
    induction k with
    | zero => rfl
    | succ k ih => rw [indirects, indirects, ih (by omega), h.indirectAt_eq hE (by omega)]
  exact hprefix i (Nat.le_refl i)

theorem SamePointers.fileBlocks_eq : fileBlocks E w' M' i = fileBlocks E w M i :=
  fileBlocks_congr (fun _ ht => h.blockAt_eq hE ht) (fun _ ht => h.indirectAt_eq hE ht)

end

/-- The blocks of a file depend on its words and on its indirect blocks only. -/
theorem SamePointers.of_indirects (hE : 0 < E) (hw : ∀ k, k < 16 → w' k = w k)
    (hM : ∀ b ∈ indirects E w M i, M' b = M b) : SamePointers E w w' M M' i := by
  constructor
  · exact fun t _ ht => hw _ (by omega)
  · exact fun _ => hw 13 (by omega)
  · exact fun u hu _ => congrFun (hM _ (single_mem (by omega))) u
  · exact fun _ => hw 14 (by omega)
  · exact fun j hj => congrFun (hM _ (double_mem hE (by omega))) j
  · exact fun j u _ hu => congrFun (hM _ (secondLevel_mem hE (by omega))) u

theorem blockAt_direct (E : Nat) (w : Nat → Nat) (M : Nat → Nat → Nat) (hi : i < 12) :
    blockAt E w M i = w (1 + i) := if_pos hi

theorem blockAt_single (w : Nat → Nat) (M : Nat → Nat → Nat) (h12 : 12 ≤ i)
    (hi : i < 12 + E) : blockAt E w M i = M (w 13) (i - 12) := by
  rw [blockAt, if_neg (by omega), if_pos hi]

theorem blockAt_level {j : Nat} (w : Nat → Nat) (M : Nat → Nat → Nat)
    (hlo : 12 + E + j * E ≤ i) (hi : i < 12 + E + j * E + E) :
    blockAt E w M i = M (secondLevel w M j) (i - (12 + E + j * E)) := by
  obtain ⟨u, rfl⟩ := Nat.exists_eq_add_of_le hlo
  have hu : u < E := by omega
  rw [blockAt, if_neg (by omega), if_neg (by omega), chunk_div hu, chunk_mod hu,
    Nat.add_sub_cancel_left]

theorem fileBlocks_direct (hE : 0 < E) (hi : i < 12) (x : Nat) :
    fileBlocks E (Function.update w (1 + i) x) M (i + 1) = fileBlocks E w M i ++ [x] := by
  have hsame : SamePointers E w (Function.update w (1 + i) x) M M i := by
    constructor
    · exact fun t ht _ => Function.update_of_ne (by omega) _ _
    · exact fun h => by omega
    · exact fun u hu _ => by omega
    · exact fun h => by omega
    · exact fun j hj => by omega
    · exact fun j u _ hu => by omega
  rw [fileBlocks, hsame.fileBlocks_eq hE, indirectAt_of_lt (by omega) (by omega),
    List.nil_append, blockAt, if_pos hi, Function.update_self]

/-- A pointer to the single indirect block changes nothing in a file of direct blocks. -/
theorem fileBlocks_single (hE : 0 < E) (hi : i ≤ 12) (b : Nat) :
    fileBlocks E (Function.update w 13 b) M i = fileBlocks E w M i := by
  apply SamePointers.fileBlocks_eq _ hE
  constructor
  · exact fun t _ ht => Function.update_of_ne (by omega) _ _
  · exact fun h => by omega
  · exact fun u hu _ => by omega
  · exact fun h => by omega
  · exact fun j hj => by omega
  · exact fun j u _ hu => by omega

theorem fileBlocks_singleEntry (hE : 0 < E) (h12 : 12 ≤ i) (hi : i < 12 + E) (x : Nat) :
    fileBlocks E w (setPointer M (w 13) (i - 12) x) (i + 1) = taken E w M i ++ [x] := by
  have hsame : SamePointers E w w M (setPointer M (w 13) (i - 12) x) i := by
    constructor
    · exact fun _ _ _ => rfl
    · exact fun _ => rfl
    · exact fun u hu _ => setPointer_of_ne _ _ (.inr (by omega))
    · exact fun _ => rfl
    · exact fun j hj => by omega
    · exact fun j u _ hu => by omega
  have hind : indirectAt E w (setPointer M (w 13) (i - 12) x) i = indirectAt E w M i := by
    by_cases he : i = 12
    · rw [he, indirectAt_single, indirectAt_single]
    · rw [indirectAt_of_lt he hi, indirectAt_of_lt he hi]
  have hblock : blockAt E w (setPointer M (w 13) (i - 12) x) i = x := by
    rw [blockAt, if_neg (by omega), if_pos hi, setPointer_same]
  rw [fileBlocks, hsame.fileBlocks_eq hE, hind, hblock, taken, List.append_assoc]

/-- A pointer to the double indirect block changes nothing in a smaller file. -/
theorem fileBlocks_double (hE : 0 < E) (hi : i ≤ 12 + E) (b : Nat) :
    fileBlocks E (Function.update w 14 b) M i = fileBlocks E w M i := by
  apply SamePointers.fileBlocks_eq _ hE
  constructor
  · exact fun t _ ht => Function.update_of_ne (by omega) _ _
  · exact fun _ => Function.update_of_ne (by omega) _ _
  · exact fun _ _ _ => rfl
  · exact fun h => by omega
  · exact fun j hj => by omega
  · exact fun j u _ hu => by omega

/-- An entry of the double indirect block from the end of the file on. -/
theorem fileBlocks_level (hE : 0 < E) {j : Nat} (hi : i ≤ 12 + E + j * E) (x : Nat)
    (h13 : 12 < i → w 14 ≠ w 13)
    (hlevel : ∀ k, 12 + E + k * E < i → w 14 ≠ secondLevel w M k) :
    fileBlocks E w (setPointer M (w 14) j x) i = fileBlocks E w M i := by
  apply SamePointers.fileBlocks_eq _ hE
  constructor
  · exact fun _ _ _ => rfl
  · exact fun _ => rfl
  · exact fun u hu _ => setPointer_of_ne _ _ (.inl (h13 (by omega)).symm)
  · exact fun _ => rfl
  · intro k hk
    refine setPointer_of_ne _ _ (.inr ?_)
    rintro rfl
    omega
  · exact fun k u _ hu => setPointer_of_ne _ _ (.inl (hlevel k (by omega)).symm)

/-- The double indirect block as long as it is the last block that was taken. -/
def doubleAt (E : Nat) (w : Nat → Nat) (i : Nat) : List Nat := if i = 12 + E then [w 14] else []

theorem doubleAt_of_gt (w : Nat → Nat) (h : 12 + E < i) : doubleAt E w i = [] :=
  if_neg (by omega)

theorem doubleAt_length_le (hE : 0 < E) (w : Nat → Nat) (M : Nat → Nat → Nat) :
    (doubleAt E w i).length ≤ (indirectAt E w M i).length := by
  unfold doubleAt
  split
  · rename_i he
    rw [he, indirectAt_double hE]
    exact Nat.le_succ _
  · exact Nat.zero_le _

theorem taken_level (hE : 0 < E) {j : Nat} (hi : i = 12 + E + j * E)
    (hnd : (fileBlocks E w M i ++ doubleAt E w i).Nodup) (x : Nat) :
    taken E w (setPointer M (w 14) j x) i = fileBlocks E w M i ++ doubleAt E w i ++ [x] := by
  have hnew : secondLevel w (setPointer M (w 14) j x) j = x := setPointer_same M _ _ _
  have hkeep : fileBlocks E w (setPointer M (w 14) j x) i = fileBlocks E w M i := by
    rcases Nat.eq_zero_or_pos j with rfl | hj
    · apply fileBlocks_level hE (by omega)
      · intro h12 he
        rw [doubleAt, if_pos (by omega)] at hnd
        exact (List.nodup_append.mp hnd).2.2 _ (mem_of_indirects (single_mem h12)) _
          (List.mem_singleton_self _) he.symm
      · intro k hk
        omega
    · have hjE : 0 < j * E := Nat.mul_pos hj hE
      obtain ⟨h13, hlevel⟩ := double_ne hE (List.nodup_append.mp hnd).1 (by omega)
      exact fileBlocks_level hE (by omega) x (fun _ => h13) hlevel
  rw [taken, hkeep, List.append_assoc]
  congr 1
  rcases Nat.eq_zero_or_pos j with rfl | hj
  · obtain rfl : i = 12 + E := by omega
    rw [indirectAt_double hE, hnew, doubleAt, if_pos rfl]
    rfl
  · have hjE : 0 < j * E := Nat.mul_pos hj hE
    rw [hi, indirectAt_chunk hE w _ hj, hnew, doubleAt_of_gt w (by omega), List.nil_append]

theorem fileBlocks_levelEntry (hE : 0 < E) {j u : Nat} (hu : u < E) (hi : i = 12 + E + j * E + u)
    (hnd : (taken E w M (12 + E + j * E)).Nodup) (x : Nat) :
    fileBlocks E w (setPointer M (secondLevel w M j) u x) (i + 1) = taken E w M i ++ [x] := by
  obtain ⟨h13, h14, hlevel⟩ := secondLevel_ne hE hnd
  have hkeep : ∀ k, secondLevel w (setPointer M (secondLevel w M j) u x) k = secondLevel w M k :=
    fun k => setPointer_of_ne _ _ (.inl h14.symm)
  have hsame : SamePointers E w w M (setPointer M (secondLevel w M j) u x) i := by
    constructor
    · exact fun _ _ _ => rfl
    · exact fun _ => rfl
    · exact fun _ _ _ => setPointer_of_ne _ _ (.inl h13.symm)
    · exact fun _ => rfl
    · exact fun k _ => hkeep k
    · intro k v hv hlt
      rcases Nat.lt_or_ge k j with hk | hk
      · exact setPointer_of_ne _ _ (.inl (hlevel k hk).symm)
      · refine setPointer_of_ne _ _ (.inr ?_)
        have hmul := Nat.mul_le_mul_right E hk
        omega
  have hind : indirectAt E w (setPointer M (secondLevel w M j) u x) i = indirectAt E w M i := by
    unfold indirectAt
    rw [hkeep, hkeep]
  have hblock : blockAt E w (setPointer M (secondLevel w M j) u x) i = x := by
    rw [blockAt, if_neg (by omega), if_neg (by omega), hi, chunk_div hu, chunk_mod hu, hkeep,
      setPointer_same]
  rw [fileBlocks, hsame.fileBlocks_eq hE, hind, hblock, taken, List.append_assoc]

end

end Egos.Disk.Unixdisk
