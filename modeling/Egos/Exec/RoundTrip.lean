import Egos.Exec.Marks
import Egos.Exec.Loading

/-!
# The round trip of an executable

The memory of a process that runs a converted file is compared with the ELF image. What decides
is which pages the steps of `image_prot` hit.
-/
namespace Egos.ElfCvt

open Egos.Lib Egos.Disk Egos.Earth
open Egos.Grass (ExecSegment fileOffset)
open Egos.Spawnsvr (maxSegments ExecHeader pageOffset UserProcess)

set_option autoImplicit false

/-! ### The ELF image -/

def ehdrOf (input : List Byte) : Ehdr := .ofMemory (recordAt input 0 Ehdr.sizeof)

def sectionTable (input : List Byte) : List Shdr :=
  let e := ehdrOf input
  let table := recordAt input (if e.shoff < 2 ^ 63 then e.shoff else Ehdr.sizeof)
    (Shdr.sizeof * e.shnum)
  (List.range e.shnum).map fun i => .ofMemory fun k => table (Shdr.sizeof * i + k)

/-- There are no relocations. -/
def Unrelocated (input : List Byte) : Prop := ∀ sh ∈ sectionTable input, sh.type ≠ shtRela

instance (input : List Byte) : Decidable (Unrelocated input) := by
  unfold Unrelocated
  infer_instance

def programHeaders (input : List Byte) : List Phdr :=
  headersFrom input (ehdrOf input).phnum ((ehdrOf input).phoff % 2 ^ 32)

/-- The converted segments. -/
def converted (input : List Byte) : List Placed := conversions 0 (programHeaders input)

/-- The address of the image. -/
def imageBase (input : List Byte) : Nat := finalBase 0 (programHeaders input)

/-- The calls of `image_prot`. -/
def partsOf (input : List Byte) : List Part := (converted input).flatMap Placed.parts

/-- The address is inside of the segment. -/
def Phdr.Has (p : Phdr) (a : Nat) : Prop := p.vaddr ≤ a ∧ a < p.vaddr + p.memsz

instance (p : Phdr) (a : Nat) : Decidable (p.Has a) := by unfold Phdr.Has; infer_instance

/-- The byte of the segment at an address, if the file has it. -/
def Phdr.byteAt (input : List Byte) (p : Phdr) (a : Nat) : Option Byte :=
  if a < p.vaddr + p.filesz then input[p.offset + (a - p.vaddr)]? else some 0

/-- `frame_init` finds the page in the segment. -/
def Within (es : ExecSegment) (page : Nat) : Prop :=
  es.first ≤ page ∧ page < (es.first + es.npages) % 2 ^ 32

/-- The address lies in a segment of the output, with the permissions of the flags. -/
def Loaded (out : List Byte) (flags a : Nat) : Prop :=
  ∃ i, ∃ hi : i < maxSegments, i < (headerOf out).nsegments ∧
    Within ((headerOf out).segments ⟨i, hi⟩) (a / pageSize) ∧
    ∀ b, b < 3 → flags.testBit b = true →
      allows ((headerOf out).segments ⟨i, hi⟩).prot b = true

/-- The memory of a process that runs the output file is the ELF image. -/
def RoundTrip (input out : List Byte) : Prop :=
  ∀ c ∈ converted input, ∀ a, c.header.Has a → Loaded out c.header.flags a ∧
    ∀ p : UserProcess, p.hdr = headerOf out → ∃ frame,
      loadPage out p (a / pageSize) = .ok frame ∧
        frame[a % pageSize]? = c.header.byteAt input a

/-- The page of the image for an address. -/
def imagePageOf (input : List Byte) (a : Nat) : Nat := a / pageSize - imageBase input / pageSize

/-- The pages of the segment are hit by steps of `image_prot`, with all its permissions, and as
pages of the file if anything but zeros is there; the segment is not below the image and
not too far behind it; and the other segments have the same bytes where they overlap with it. -/
structure Covered (input : List Byte) (c : Placed) : Prop where
  low : imageBase input / pageSize ≤ c.header.vaddr / pageSize
  high : c.header.vaddr + c.header.memsz ≤ (2 ^ 32 - 1) * pageSize
  readable : c.header.Readable
  hit : ∀ a, c.header.Has a → ∃ b, b < 3 ∧
    ∃ p ∈ partsOf input, p.Hits (imagePageOf input a) ∧ p.flags.testBit b = true
  prot : ∀ a, c.header.Has a → ∀ b, b < 3 → c.header.flags.testBit b = true →
    ∃ p ∈ partsOf input, p.Hits (imagePageOf input a) ∧ p.flags.testBit b = true
  initialized : ∀ a, c.header.Has a → c.header.byteAt input a ≠ some 0 →
    ∃ p ∈ partsOf input, p.Hits (imagePageOf input a) ∧ p.initialized = true
  agree : ∀ c' ∈ converted input, ∀ a, c.header.Has a → c'.header.Has a →
    c.header.byteAt input a = c'.header.byteAt input a

/-! ### The run of the converter -/

section

variable {input : List Byte} {s : State}

theorem outcome_readDynsym {sections : List Shdr} :
    Outcome (readDynsym input sections) (fun _ s' => ∃ pos, s' = { s with pos := pos })
      (fun _ _ => True) s := by
  unfold readDynsym
  split
  · exact ⟨s.pos, rfl⟩
  · rename_i sh _
    rw [Outcome.bind_iff]
    apply outcome_fseek
    intro pos _
    rw [Outcome.bind_iff]
    change Outcome (if _ then _ else _) _ _ { s with
      pos := pos + ((input.drop pos).take sh.size).length }
    split
    · exact trivial
    · change Outcome (if _ then _ else _) _ _ _
      split
      · exact trivial
      · exact ⟨_, rfl⟩

theorem lastSection_none {sections : List Shdr} {type : Nat} (h : ∀ sh ∈ sections, sh.type ≠ type) :
    lastSection sections type = none := by
  have hnil : sections.tail.filter (fun sh => sh.type = type) = [] := by
    rw [List.filter_eq_nil_iff]
    intro sh hsh
    simpa using h sh (List.mem_of_mem_tail hsh)
  rw [lastSection, hnil]
  rfl

theorem readGot_none {sections : List Shdr} {stab : Option (List Byte)}
    (h : ∀ sh ∈ sections, sh.type ≠ shtRela) : readGot input sections stab = pure () := by
  unfold readGot
  rw [lastSection_none h]

theorem built_start (input : List Byte) (pos : Nat) :
    Built input [] { State.start with pos := pos } where
  marked := ⟨marked_start.npages, marked_start.pages, marked_start.inside⟩
  filled := ⟨(filled_start input).allocated, (filled_start input).beyond,
    (filled_start input).image⟩
  read := fun _ hc => absurd hc List.not_mem_nil
  base := Nat.two_pow_pos 64
  grown := fun _ => ⟨Nat.zero_le _, fun _ hc => absurd hc List.not_mem_nil⟩

theorem outcome_fseek_eq {offset : Nat} {Q : Unit → State → Prop} {E : Stop → State → Prop}
    (h : Q ⟨⟩ { s with pos := if offset < 2 ^ 63 then offset else s.pos }) :
    Outcome (fseek offset) Q E s := by
  rw [fseek, Outcome.modify_iff]
  split at h
  · rename_i hoff
    rw [if_pos hoff]
    exact h
  · rename_i hoff
    rw [if_neg hoff]
    exact h

theorem outcome_readSections {n : Nat} :
    Outcome (readSections input n) (fun r s' => (∃ pos, s' = { s with pos := pos }) ∧
      r = (List.range n).map fun i => .ofMemory fun k =>
        recordAt input s.pos (Shdr.sizeof * n) (Shdr.sizeof * i + k)) (fun _ _ => True) s := by
  rw [readSections, Outcome.bind_iff]
  apply outcome_readRecord.post
  rintro _ s₁ ⟨rfl, rfl⟩
  exact ⟨⟨_, rfl⟩, rfl⟩

/-- What is known when the converter has returned 0. -/
structure Conversion (input out : List Byte) (s : State) (runs : List (Nat × Nat))
    (blocks : List Byte) : Prop where
  built : Built input (converted input) s
  base : s.base = imageBase input
  splits : Splits s.pages s.npages runs
  few : runs.length < maxSegments
  write : writeSegments s (segmentsOf s.pages s.base runs) = .ok blocks
  out : out = outputFile (ehdrOf input).entry (segmentsOf s.pages s.base runs) blocks

theorem outcome_main (input : List Byte) (hrela : Unrelocated input) :
    Outcome (main input) (fun out s => ∃ runs blocks, Conversion input out s runs blocks)
      (fun _ _ => True) State.start := by
  rw [main, Outcome.bind_iff]
  apply outcome_readRecord.post
  rintro _ s₁ ⟨rfl, hs₁⟩
  change Outcome (if ¬ (ehdrOf input).Executable then _ else _) _ _ _
  split
  · exact trivial
  · change Outcome (fseek (ehdrOf input).shoff >>= _) _ _ _
    rw [Outcome.bind_iff]
    apply outcome_fseek_eq
    rw [Outcome.bind_iff]
    apply outcome_readSections.post
    rintro sections s₂ ⟨⟨pos₂, hs₂⟩, hsections⟩
    have htable : sections = sectionTable input := by
      rw [hsections, hs₁]
      rfl
    rw [Outcome.bind_iff]
    apply outcome_readDynsym.post
    rintro stab s₃ ⟨pos₃, hs₃⟩
    have hstart : s₃ = { State.start with pos := pos₃ } := by rw [hs₃, hs₂, hs₁]
    rw [hstart, Outcome.bind_iff]
    apply (outcome_convertHeaders (built_start input pos₃) (Nat.mod_lt _ (by decide))).post
    rintro _ s₄ ⟨h₄, hb₄⟩
    rw [htable, readGot_none hrela, Outcome.bind_iff, Outcome.pure_iff, Outcome.bind_iff,
      Outcome.get_iff]
    cases hsplit : split s₄ with
    | error e => exact trivial
    | ok es =>
      dsimp only
      cases hwrite : writeSegments s₄ es with
      | error e => exact trivial
      | ok blocks =>
        obtain ⟨runs, hruns, rfl, hfew⟩ := split_splits h₄.marked.npages hsplit
        exact ⟨runs, blocks, h₄, hb₄, hruns, hfew, hwrite, rfl⟩

/-! ### Positions -/

theorem finalBase_of_ne {base : Nat} (h : base ≠ 0) (headers : List Phdr) :
    finalBase base headers = base := by
  induction headers with
  | nil => rfl
  | cons p rest ih =>
    change finalBase (baseAfter base p) rest = base
    rw [baseAfter, if_neg fun hc => h hc.2]
    exact ih

/-- The segment is where it belongs in the image, unless its address is 0, which `base` has at
the start as well. -/
def Anchored (base : Nat) (c : Placed) : Prop :=
  c.header.memsz ≠ 0 ∧ (c.header.vaddr = base + c.pos ∨ c.header.vaddr = 0 ∧ c.pos = 0)

theorem conversions_anchored {base : Nat} {headers : List Phdr} {c : Placed}
    (hc : c ∈ conversions base headers) :
    c.header.memsz ≠ 0 ∧ (c.header.vaddr = finalBase base headers + c.pos ∨
      base = 0 ∧ c.header.vaddr = 0 ∧ c.pos = 0) := by
  induction headers generalizing base with
  | nil => cases hc
  | cons p rest ih =>
    change c.header.memsz ≠ 0 ∧ (c.header.vaddr = finalBase (baseAfter base p) rest + c.pos ∨ _)
    rcases List.mem_append.mp hc with hc | hc
    · unfold placedAt at hc
      split at hc
      · rename_i hp
        rw [List.mem_singleton.mp hc]
        refine ⟨fun hzero => hp.1 (.inl hzero), ?_⟩
        dsimp only
        by_cases hbase : base = 0
        · have hafter : baseAfter base p = p.vaddr := if_pos ⟨hp.1, hbase⟩
          rw [hafter]
          by_cases hvaddr : p.vaddr = 0
          · exact .inr ⟨hbase, hvaddr, by omega⟩
          · rw [finalBase_of_ne hvaddr]
            exact .inl (by omega)
        · have hafter : baseAfter base p = base := if_neg fun hc => hbase hc.2
          rw [hafter, finalBase_of_ne hbase]
          have := hp.2
          exact .inl (by omega)
      · cases hc
    · obtain ⟨hmem, hpos⟩ := ih hc
      refine ⟨hmem, hpos.imp_right fun hstart => ?_⟩
      obtain ⟨hzero, hc⟩ := hstart
      refine ⟨?_, hc⟩
      unfold baseAfter at hzero
      split at hzero
      · rename_i h
        exact h.2
      · exact hzero

theorem anchored {c : Placed} (hc : c ∈ converted input) : Anchored (imageBase input) c := by
  obtain ⟨hmem, hpos⟩ := conversions_anchored hc
  exact ⟨hmem, hpos.imp_right And.right⟩

theorem Part.Hits.lt {p : Part} {q : Nat} (h : p.Hits q) : q < 2 ^ 18 := by
  have hlimit : p.limit < 2 ^ 32 := Nat.mod_lt _ (by decide)
  have := h.2
  unfold pageSize at this
  omega

/-- The last page of a segment. -/
def lastPage (c : Placed) : Nat := (c.header.vaddr + c.header.memsz - 1) / pageSize

theorem has_last {c : Placed} (h : c.header.memsz ≠ 0) :
    c.header.Has (c.header.vaddr + c.header.memsz - 1) := by
  unfold Phdr.Has
  omega

/-- A segment of which all pages can be hit is in the first 4 GiB of the image. -/
theorem small_of_lastPage {base : Nat} {c : Placed} (hc : Anchored base c)
    (hlow : base / pageSize ≤ c.header.vaddr / pageSize)
    (hlast : lastPage c - base / pageSize < 2 ^ 18) : c.pos + c.header.memsz ≤ 2 ^ 32 := by
  obtain ⟨hmem, hpos⟩ := hc
  unfold lastPage pageSize at *
  omega

theorem hit_inside {c : Placed} (hle : c.header.filesz ≤ c.header.memsz)
    (hsmall : c.pos + c.header.memsz ≤ 2 ^ 32) {p : Part} (hp : p ∈ c.parts) {q : Nat} (h : p.Hits q) :
    pageSize * q < c.pos + c.header.memsz := by
  have hlimit := h.2
  unfold Placed.parts at hp
  rcases List.mem_pair.mp hp with rfl | rfl
  · unfold Part.limit Part.first at hlimit
    dsimp only at hlimit
    omega
  · unfold Part.limit Part.first at hlimit
    dsimp only at hlimit
    omega

theorem hit_le_lastPage {base : Nat} {c : Placed} (hc : Anchored base c)
    (hlow : base / pageSize ≤ c.header.vaddr / pageSize)
    {q : Nat} (h : pageSize * q < c.pos + c.header.memsz) : base / pageSize + q ≤ lastPage c := by
  obtain ⟨-, hpos⟩ := hc
  unfold lastPage pageSize at *
  omega

/-! ### The runs -/

variable {out : List Byte} {runs : List (Nat × Nat)} {blocks : List Byte}

/-- A step for some segment hits the page and gives it a permission. -/
def Protected (input : List Byte) (q : Nat) : Prop :=
  ∃ b, b < 3 ∧ ∃ p ∈ partsOf input, p.Hits q ∧ p.flags.testBit b = true

theorem Conversion.pages (h : Conversion input out s runs blocks) :
    s.pages = pageOf (partsOf input) := h.built.marked.pages

theorem Conversion.protected_iff (h : Conversion input out s runs blocks) {q : Nat} :
    (s.pages q).prot ≠ Prot.none ↔ Protected input q := by
  rw [ne_none_iff, h.pages]
  constructor
  · rintro ⟨b, hb⟩
    exact ⟨b, allows_lt hb, (pageOf_allows (allows_lt hb)).mp hb⟩
  · rintro ⟨b, hb, hex⟩
    exact ⟨b, (pageOf_allows hb).mpr hex⟩

theorem Conversion.run_of (h : Conversion input out s runs blocks) {q : Nat}
    (hq : Protected input q) : ∃ r ∈ runs, r.1 ≤ q ∧ q < r.2 := by
  apply h.splits.cover q ?_ (h.protected_iff.mpr hq)
  obtain ⟨-, -, p, hp, hhit, -⟩ := hq
  exact h.built.marked.inside p hp q hhit

theorem Conversion.protected_of (h : Conversion input out s runs blocks) {r : Nat × Nat}
    (hr : r ∈ runs) {q : Nat} (hq : r.1 ≤ q) (hlt : q < r.2) : Protected input q := by
  rw [← h.protected_iff, (h.splits.uniform r hr).prot q hq hlt]
  exact h.splits.marked r hr

theorem Protected.lt {q : Nat} (h : Protected input q) : q < 2 ^ 18 := by
  obtain ⟨-, -, p, -, hhit, -⟩ := h
  exact hhit.lt

theorem Protected.placed {q : Nat} (h : Protected input q) :
    ∃ c ∈ converted input, ∃ p ∈ c.parts, p.Hits q := by
  obtain ⟨-, -, p, hp, hhit, -⟩ := h
  obtain ⟨c, hc, hpc⟩ := List.mem_flatMap.mp hp
  exact ⟨c, hc, p, hpc, hhit⟩

/-- Segments that are neither below the image nor too far behind it. -/
structure Near (input : List Byte) : Prop where
  low : ∀ c ∈ converted input, imageBase input / pageSize ≤ c.header.vaddr / pageSize
  high : ∀ c ∈ converted input, lastPage c < 2 ^ 32 - 1
  small : ∀ c ∈ converted input, c.pos + c.header.memsz ≤ 2 ^ 32

theorem Conversion.runs_bound (h : Conversion input out s runs blocks) (hn : Near input)
    {r : Nat × Nat} (hr : r ∈ runs) :
    r.1 < r.2 ∧ r.2 ≤ 2 ^ 18 ∧ r.2 + imageBase input / pageSize < 2 ^ 32 := by
  have hne := (h.splits.below r hr).1
  have hlast : Protected input (r.2 - 1) := h.protected_of hr (by omega) (by omega)
  have hlt := hlast.lt
  obtain ⟨c, hc, p, hp, hhit⟩ := hlast.placed
  have hin := hit_inside (h.built.read c hc).1 (hn.small c hc) hp hhit
  have hle := hit_le_lastPage (anchored hc) (hn.low c hc) hin
  have hhigh := hn.high c hc
  omega

/-! ### The memory -/

theorem Conversion.few' (h : Conversion input out s runs blocks) :
    (segmentsOf s.pages s.base runs).length < maxSegments := by
  rw [segmentsOf, List.length_map]
  exact h.few

theorem Conversion.fits (h : Conversion input out s runs blocks) :
    ∀ es ∈ segmentsOf s.pages s.base runs, Fits es := by
  intro es hes
  obtain ⟨r, hr, rfl⟩ := List.mem_map.mp hes
  have hbelow := h.splits.below r hr
  have hn := h.built.marked.npages
  have hnb := nblocks_le s.pages s.base (Nat.le_of_lt hbelow.1)
  exact ⟨Nat.mod_lt _ (by decide), show r.2 - r.1 < 2 ^ 32 by omega, by omega⟩

theorem Conversion.header (h : Conversion input out s runs blocks) :
    (headerOf out).nsegments = runs.length ∧ (headerOf out).offset = 1 ∧
      ∀ i (hi : i < maxSegments) es, (segmentsOf s.pages s.base runs)[i]? = some es →
        (headerOf out).segments ⟨i, hi⟩ = es := by
  have hlen : (segmentsOf s.pages s.base runs).length = runs.length := List.length_map _
  rw [h.out, ← hlen]
  exact headerOf_outputFile h.few' h.fits

theorem Conversion.loadPage_eq (h : Conversion input out s runs blocks) {p : UserProcess}
    (hp : p.hdr = headerOf out) (page : Nat) :
    loadPage out p page =
      .ok (frameAt out (fileOffset page (segmentsOf s.pages s.base runs) 1)) := by
  obtain ⟨hlen, hoffset, hsegments⟩ := h.header
  apply ElfCvt.loadPage_eq
  rw [hp, hlen, hoffset, pageOffset_eq hsegments h.few' (by rw [segmentsOf, List.length_map]; rfl)]
  rfl

theorem length_imagePage (image : Buffer) (addr : Nat) : (imagePage image addr).length = pageSize := by
  rw [imagePage, List.length_map, List.length_range]

/-- A page of a run that is not initialized is null. -/
theorem Conversion.load_blank (h : Conversion input out s runs blocks) (hn : Near input)
    {r : Nat × Nat} (hr : r ∈ runs) {q : Nat} (hq : r.1 ≤ q) (hlt : q < r.2)
    (hblank : ¬ (s.pages q).initialized = true) {p : UserProcess} (hp : p.hdr = headerOf out) :
    loadPage out p (q + imageBase input / pageSize) = .ok (List.replicate pageSize 0) := by
  have hruns : ∀ r ∈ runs, 0 ≤ r.1 ∧ r.1 < r.2 ∧ r.2 ≤ 2 ^ 18 ∧ r.2 + s.base / pageSize < 2 ^ 32 := by
    intro r hr
    rw [h.base]
    exact ⟨Nat.zero_le _, h.runs_bound hn hr⟩
  rw [(h.splits.uniform r hr).initialized_iff s.base hq hlt] at hblank
  have hnone := (fileOffset_runs h.splits.sorted hruns (Nat.le_refl 1) h.write hr hq hlt).1 hblank
  rw [h.loadPage_eq hp, ← h.base, hnone]
  rfl

/-- An initialized page of a run is the page of the image. -/
theorem Conversion.load_image (h : Conversion input out s runs blocks) (hn : Near input)
    {r : Nat × Nat} (hr : r ∈ runs) {q : Nat} (hq : r.1 ≤ q) (hlt : q < r.2)
    (hinit : (s.pages q).initialized = true) {p : UserProcess} (hp : p.hdr = headerOf out) :
    0 < s.allocated ∧ imageBase input % pageSize ≤ r.1 * pageSize ∧
      loadPage out p (q + imageBase input / pageSize) =
        .ok (imagePage s.image (q * pageSize - imageBase input % pageSize)) := by
  have hruns : ∀ r ∈ runs, 0 ≤ r.1 ∧ r.1 < r.2 ∧ r.2 ≤ 2 ^ 18 ∧ r.2 + s.base / pageSize < 2 ^ 32 := by
    intro r hr
    rw [h.base]
    exact ⟨Nat.zero_le _, h.runs_bound hn hr⟩
  rw [(h.splits.uniform r hr).initialized_iff s.base hq hlt] at hinit
  obtain ⟨d, hd, hfile, hslice⟩ :=
    (fileOffset_runs h.splits.sorted hruns (Nat.le_refl 1) h.write hr hq hlt).2 hinit
  have halloc : s.allocated < 2 ^ 32 := by
    rw [h.built.filled.allocated]
    exact Nat.mod_lt _ (by decide)
  have hroom := writeSegments_room h.write (List.mem_map_of_mem hr)
    (show 0 < (segmentOf s.pages s.base r.1 r.2).nblocks by omega)
  have hblock : pageSize ≤ pageSize * (segmentOf s.pages s.base r.1 r.2).nblocks :=
    Nat.le_mul_of_pos_right _ (by omega)
  have hbound := h.runs_bound hn hr
  obtain ⟨hle, haddr⟩ := imageAddr_run h.built.base (show r.1 < 2 ^ 18 by omega) halloc
    (Nat.le_trans (Nat.add_le_add_left hblock _) hroom)
  -- the last block that is written lies in the allocated memory, so it is below 4 GiB
  have hlast : q < 2 ^ 18 - 1 := by
    have hmul : s.allocated = s.npages * pageSize % 2 ^ 32 := h.built.filled.allocated
    rw [haddr] at hroom
    unfold pageSize at *
    omega
  have hoffset : (1 + d) * pageSize % 2 ^ 32 = (1 + d) * pageSize := by
    apply Nat.mod_eq_of_lt
    unfold pageSize
    omega
  have hmulq : r.1 * pageSize + (q - r.1) * pageSize = q * pageSize := by
    rw [← Nat.add_mul]
    congr 1
    omega
  have hstart : imageAddr s.base (segmentOf s.pages s.base r.1 r.2) + (q - r.1) * pageSize =
      q * pageSize - imageBase input % pageSize := by
    rw [haddr, ← h.base]
    omega
  rw [hstart] at hslice
  have hnonempty : blocks ≠ [] := by
    rintro rfl
    have := congrArg List.length hslice
    rw [length_imagePage] at this
    simp [pageSize] at this
  refine ⟨by unfold pageSize at *; omega, by rw [← h.base]; exact hle, ?_⟩
  rw [h.loadPage_eq hp, ← h.base, hfile, hoffset, frameAt]
  have hdrop : (out.drop ((1 + d) * pageSize)).take pageSize =
      imagePage s.image (q * pageSize - imageBase input % pageSize) := by
    rw [h.out, drop_outputFile h.few' hnonempty, hslice]
  rw [hdrop, length_imagePage, Nat.sub_self, List.replicate_zero, List.append_nil, h.base]

theorem getElem?_imagePage (image : Buffer) (addr : Nat) {k : Nat} (hk : k < pageSize) :
    (imagePage image addr)[k]? = some (image (addr + k)) := by
  rw [imagePage, List.getElem?_map, List.getElem?_range hk]
  rfl

/-- The last segment that was copied to a place of the image shows there. -/
theorem imageOf_cases (input : List Byte) (cs : List Placed) (k : Nat) :
    (∃ c ∈ cs, c.pos ≤ k ∧ (c.header.contents input)[k - c.pos]? = some (imageOf input cs k)) ∨
      (∀ c ∈ cs, c.pos ≤ k → c.pos + (c.header.contents input).length ≤ k) ∧
        imageOf input cs k = 0 := by
  induction cs using List.reverseRecOn with
  | nil => exact .inr ⟨by simp, rfl⟩
  | append_singleton cs c ih =>
    rw [imageOf_concat]
    by_cases hin : c.pos ≤ k ∧ k < c.pos + (c.header.contents input).length
    · refine .inl ⟨c, by simp, hin.1, ?_⟩
      have hover := @overlay_inside (imageOf input cs) c.pos (k - c.pos) (c.header.contents input)
        (by omega)
      rw [Nat.add_sub_cancel' hin.1] at hover
      rw [hover, List.getElem?_eq_getElem (show k - c.pos < _ by omega), List.getD_eq_getElem]
    · rw [overlay_outside (by omega)]
      rcases ih with ⟨c', hc', h⟩ | ⟨hnone, hzero⟩
      · exact .inl ⟨c', List.mem_append_left _ hc', h⟩
      · refine .inr ⟨fun c' hc' hle => ?_, hzero⟩
        rcases List.mem_append.mp hc' with hc' | hc'
        · exact hnone c' hc' hle
        · rw [List.mem_singleton.mp hc'] at hle ⊢
          omega

/-! ### From the condition to the memory -/

/-- A process that runs the file. -/
def processOf (out : List Byte) : UserProcess := ⟨false, ⟨0, 0⟩, headerOf out, []⟩

theorem near_of_covered (h : ∀ c ∈ converted input, Covered input c) : Near input := by
  constructor
  · exact fun c hc => (h c hc).low
  · intro c hc
    have hhigh := (h c hc).high
    have hmem := (anchored hc).1
    unfold lastPage pageSize at *
    omega
  · intro c hc
    apply small_of_lastPage (anchored hc) (h c hc).low
    exact Protected.lt ((h c hc).hit _ (has_last (anchored hc).1))

theorem Conversion.image (h : Conversion input out s runs blocks)
    (hread : ∀ c ∈ converted input, c.header.Readable) :
    s.image = imageOf input (converted input) := h.built.filled.image hread

theorem contents_pos {p : Phdr} (h : p.contents input ≠ []) : 0 < p.filesz % 2 ^ 32 := by
  apply Nat.pos_of_ne_zero
  intro hzero
  rw [Phdr.contents, hzero, List.take_zero] at h
  exact h rfl

theorem Conversion.anchored_of_contents (h : Conversion input out s runs blocks)
    (hcov : ∀ c ∈ converted input, Covered input c) {c : Placed} (hc : c ∈ converted input)
    (hne : c.header.contents input ≠ []) : c.header.vaddr = imageBase input + c.pos := by
  obtain ⟨hmem, heq | ⟨hvaddr, hpos⟩⟩ := anchored hc
  · exact heq
  · have hfirst : (⟨c.pos, c.header.filesz, c.header.flags, true⟩ : Part).Hits 0 := by
      have := contents_pos hne
      rw [hpos]
      unfold Part.Hits Part.limit Part.first pageSize
      dsimp only
      omega
    have hinit : (s.pages 0).initialized = true := by
      rw [h.pages, pageOf_initialized]
      exact ⟨_, List.mem_flatMap.mpr ⟨c, hc, by simp [Placed.parts]⟩, hfirst, rfl⟩
    have hprot := (hcov c hc).hit 0 ⟨by omega, by omega⟩
    rw [imagePageOf, Nat.zero_div, Nat.zero_sub] at hprot
    obtain ⟨r, hr, hle, hlt⟩ := h.run_of hprot
    obtain ⟨-, hmod, -⟩ := h.load_image (near_of_covered hcov) hr hle hlt hinit
      (show (processOf out).hdr = headerOf out from rfl)
    have hlow := (hcov c hc).low
    have hdecomp := Nat.div_add_mod (imageBase input) pageSize
    rw [hvaddr, Nat.zero_div] at hlow
    rw [Nat.le_zero.mp hle, Nat.zero_mul] at hmod
    rw [Nat.le_zero.mp hlow, Nat.le_zero.mp hmod, Nat.mul_zero] at hdecomp
    omega

theorem byteAt_contents {p : Phdr} {a : Nat} (hle : p.vaddr ≤ a)
    (hlt : a - p.vaddr < (p.contents input).length) :
    p.byteAt input a = (p.contents input)[a - p.vaddr]? := by
  have hlen : (p.contents input).length ≤ p.filesz % 2 ^ 32 := by
    unfold Phdr.contents
    exact List.length_take_le _ _
  have hmod := Nat.mod_le p.filesz (2 ^ 32)
  rw [Phdr.byteAt, if_pos (by omega), Phdr.contents, List.getElem?_take_of_lt (by omega),
    List.getElem?_drop]

theorem Conversion.byteAt_eq (h : Conversion input out s runs blocks)
    (hcov : ∀ c ∈ converted input, Covered input c) (halloc : 0 < s.allocated) {c : Placed}
    (hc : c ∈ converted input) {a : Nat} (ha : c.header.Has a) (hbase : imageBase input ≤ a) :
    c.header.byteAt input a =
      some (imageOf input (converted input) (a - imageBase input)) := by
  rcases imageOf_cases input (converted input) (a - imageBase input) with
    ⟨c', hc', hpos, hget⟩ | ⟨hnone, hzero⟩
  · have hlt := (List.getElem?_eq_some_iff.mp hget).1
    have hne : c'.header.contents input ≠ [] := List.ne_nil_of_length_pos (by omega)
    have hvaddr := h.anchored_of_contents hcov hc' hne
    have hindex : a - imageBase input - c'.pos = a - c'.header.vaddr := by omega
    rw [hindex] at hget hlt
    have hlen : (c'.header.contents input).length ≤ c'.header.filesz % 2 ^ 32 :=
      List.length_take_le _ _
    have hmod := Nat.mod_le c'.header.filesz (2 ^ 32)
    have hle := (h.built.read c' hc').1
    have hhas : c'.header.Has a := ⟨by omega, by omega⟩
    rw [(hcov c hc).agree c' hc' a ha hhas, byteAt_contents hhas.1 hlt, hget]
  · rw [hzero, Phdr.byteAt, if_neg]
    intro hlt
    -- the file part is no longer than the image, which is below 4 GiB as it is written
    have hsize : c.header.filesz < 2 ^ 32 := by
      obtain ⟨hmax, hroom⟩ := h.built.grown (near_of_covered hcov).small
      have hin := hroom c hc
      have hle := (h.built.read c hc).1
      have hmul : s.allocated = s.npages * pageSize % 2 ^ 32 := h.built.filled.allocated
      unfold pageSize at *
      omega
    have hpos : c.header.filesz ≠ 0 := by
      have := ha.1
      omega
    have hlen := (h.built.read c hc).2 (hcov c hc).readable
    rw [Nat.mod_eq_of_lt hsize] at hlen
    have hvaddr := h.anchored_of_contents hcov hc (List.ne_nil_of_length_pos (by omega))
    have := hnone c hc (by have := ha.1; omega)
    have := ha.1
    omega

theorem Conversion.segment (h : Conversion input out s runs blocks) {r : Nat × Nat}
    (hr : r ∈ runs) : ∃ i, ∃ hi : i < maxSegments, i < (headerOf out).nsegments ∧
      (headerOf out).segments ⟨i, hi⟩ = segmentOf s.pages s.base r.1 r.2 := by
  obtain ⟨i, hi, rfl⟩ := List.getElem_of_mem hr
  obtain ⟨hlen, -, hsegments⟩ := h.header
  have hmax : i < maxSegments := by
    have := h.few
    omega
  refine ⟨i, hmax, by omega, hsegments i hmax _ ?_⟩
  rw [segmentsOf, List.getElem?_map, List.getElem?_eq_getElem hi]
  rfl

theorem Conversion.roundTrip (h : Conversion input out s runs blocks)
    (hcov : ∀ c ∈ converted input, Covered input c) : RoundTrip input out := by
  intro c hc a ha
  have hn := near_of_covered hcov
  have hlow : imageBase input / pageSize ≤ a / pageSize :=
    Nat.le_trans (hcov c hc).low (Nat.div_le_div_right ha.1)
  have hpage : a / pageSize = imagePageOf input a + imageBase input / pageSize :=
    (Nat.sub_add_cancel hlow).symm
  obtain ⟨r, hr, hq, hlt⟩ := h.run_of ((hcov c hc).hit a ha)
  constructor
  · obtain ⟨i, hi, hlen, hsegment⟩ := h.segment hr
    have hbound := h.runs_bound hn hr
    refine ⟨i, hi, hlen, ?_, fun b hb hflag => ?_⟩
    · rw [hsegment, hpage]
      unfold Within segmentOf
      dsimp only
      rw [h.base, Nat.mod_eq_of_lt (show r.1 + imageBase input / pageSize < 2 ^ 32 by omega),
        Nat.mod_eq_of_lt (by omega)]
      omega
    · rw [hsegment]
      change allows (s.pages r.1).prot b = true
      rw [← (h.splits.uniform r hr).prot _ hq hlt, h.pages]
      exact (pageOf_allows hb).mpr ((hcov c hc).prot a ha b hb hflag)
  · intro p hp
    have hoffset : a % pageSize < pageSize := Nat.mod_lt _ (by decide)
    rw [hpage]
    by_cases hinit : (s.pages (imagePageOf input a)).initialized = true
    · obtain ⟨halloc, hmod, hload⟩ := h.load_image hn hr hq hlt hinit hp
      refine ⟨_, hload, ?_⟩
      have hmul : r.1 * pageSize ≤ imagePageOf input a * pageSize := Nat.mul_le_mul_right _ hq
      have hsplit : a = (imagePageOf input a + imageBase input / pageSize) * pageSize +
          a % pageSize := by
        rw [← hpage, Nat.div_add_mod']
      have hbase : imageBase input = imageBase input / pageSize * pageSize +
          imageBase input % pageSize := (Nat.div_add_mod' _ _).symm
      have hindex : imagePageOf input a * pageSize - imageBase input % pageSize + a % pageSize =
          a - imageBase input := by
        rw [Nat.add_mul] at hsplit
        omega
      rw [getElem?_imagePage _ _ hoffset, h.image fun c hc => (hcov c hc).readable, hindex]
      refine (h.byteAt_eq hcov halloc hc ha ?_).symm
      rw [Nat.add_mul] at hsplit
      omega
    · refine ⟨_, h.load_blank hn hr hq hlt hinit hp, ?_⟩
      rw [List.getElem?_replicate_of_lt hoffset]
      by_contra hne
      apply hinit
      rw [h.pages, pageOf_initialized]
      exact (hcov c hc).initialized a ha fun he => hne he.symm

/-! ### From the memory to the condition -/

/-- The page of a run for an address that the segment of the run has. The first page of the
segment may have wrapped, for addresses below the image. -/
theorem within_run {pages : Nat → PageInfo} {base first i page : Nat} (hlt : first < i)
    (hi : i < 2 ^ 32) (h : Within (segmentOf pages base first i) page) :
    page < 2 ^ 32 - 1 ∧
      (base / pageSize ≤ page → first ≤ page - base / pageSize ∧ page - base / pageSize < i) ∧
      (page < base / pageSize → base / pageSize < 2 ^ 32 →
        first ≤ page + (2 ^ 32 - base / pageSize) ∧ page + (2 ^ 32 - base / pageSize) < i) := by
  unfold Within segmentOf at h
  dsimp only at h
  generalize base / pageSize = b at h ⊢
  omega

theorem Conversion.run_of_loaded (h : Conversion input out s runs blocks) {flags a : Nat}
    (hl : Loaded out flags a) : ∃ r ∈ runs, r.1 < r.2 ∧ r.2 < 2 ^ 32 ∧
      Within (segmentOf s.pages s.base r.1 r.2) (a / pageSize) ∧
      ∀ b, b < 3 → flags.testBit b = true → allows (s.pages r.1).prot b = true := by
  obtain ⟨i, hi, hlen, hin, hprot⟩ := hl
  obtain ⟨hruns, -, hsegments⟩ := h.header
  rw [hruns] at hlen
  have hsegment := hsegments i hi (segmentOf s.pages s.base runs[i].1 runs[i].2) (by
    rw [segmentsOf, List.getElem?_map, List.getElem?_eq_getElem hlen]
    rfl)
  rw [hsegment] at hin hprot
  have hmem : runs[i] ∈ runs := List.getElem_mem hlen
  have hbelow := h.splits.below _ hmem
  have hn := h.built.marked.npages
  exact ⟨runs[i], hmem, hbelow.1, by omega, hin, hprot⟩

theorem Conversion.protected_of_loaded (h : Conversion input out s runs blocks) {flags a : Nat}
    (hl : Loaded out flags a) : a / pageSize < 2 ^ 32 - 1 ∧
      (imageBase input / pageSize ≤ a / pageSize → Protected input (imagePageOf input a)) ∧
      (a / pageSize < imageBase input / pageSize → imageBase input / pageSize < 2 ^ 32 →
        Protected input (a / pageSize + (2 ^ 32 - imageBase input / pageSize))) := by
  obtain ⟨r, hr, hne, hlt, hin, -⟩ := h.run_of_loaded hl
  rw [h.base] at hin
  obtain ⟨hmax, habove, hbelow⟩ := within_run hne hlt hin
  refine ⟨hmax, fun hle => ?_, fun hlow hbase => ?_⟩
  · obtain ⟨hq, hlt⟩ := habove hle
    exact h.protected_of hr hq hlt
  · obtain ⟨hq, hlt⟩ := hbelow hlow hbase
    exact h.protected_of hr hq hlt

/-- Some segment begins where the image does. -/
theorem exists_base {base : Nat} {headers : List Phdr} (h : finalBase base headers ≠ base) :
    ∃ c ∈ conversions base headers, c.header.vaddr = finalBase base headers := by
  induction headers generalizing base with
  | nil => exact absurd rfl h
  | cons p rest ih =>
    change finalBase (baseAfter base p) rest ≠ base at h
    change ∃ c ∈ placedAt base p ++ conversions (baseAfter base p) rest,
      c.header.vaddr = finalBase (baseAfter base p) rest
    by_cases hafter : baseAfter base p = base
    · rw [hafter] at h ⊢
      obtain ⟨c, hc, hv⟩ := ih h
      exact ⟨c, List.mem_append_right _ hc, hv⟩
    · have hp : p.Loadable ∧ base = 0 := by
        by_contra hnot
        exact hafter (if_neg hnot)
      have hvaddr : baseAfter base p = p.vaddr := if_pos hp
      have hne : p.vaddr ≠ 0 := by
        rw [hvaddr, hp.2] at hafter
        exact hafter
      have hle : base ≤ p.vaddr := by
        rw [hp.2]
        exact Nat.zero_le _
      refine ⟨⟨p, p.vaddr - baseAfter base p⟩, List.mem_append_left _ ?_, ?_⟩
      · rw [placedAt, if_pos ⟨hp.1, hle⟩]
        exact List.mem_singleton_self _
      · rw [hvaddr, finalBase_of_ne hne]

/-- Pages that are hit for a segment that is not below the image are not far behind it. -/
theorem Conversion.page_le (h : Conversion input out s runs blocks)
    (hl : ∀ c ∈ converted input, ∀ a, c.header.Has a → Loaded out c.header.flags a) {c : Placed}
    (hc : c ∈ converted input) (hlow : imageBase input / pageSize ≤ c.header.vaddr / pageSize) :
    lastPage c < 2 ^ 32 - 1 ∧ c.pos + c.header.memsz ≤ 2 ^ 32 ∧
      ∀ p ∈ c.parts, ∀ q, p.Hits q → imageBase input / pageSize + q ≤ lastPage c := by
  have hmem := (anchored hc).1
  obtain ⟨hmax, hpage, -⟩ := h.protected_of_loaded (hl c hc _ (has_last hmem))
  have hle : imageBase input / pageSize ≤ lastPage c := by
    apply Nat.le_trans hlow
    exact Nat.div_le_div_right (by omega)
  have hsmall := small_of_lastPage (anchored hc) hlow (hpage hle).lt
  exact ⟨hmax, hsmall, fun p hp q hhit => hit_le_lastPage (anchored hc) hlow
    (hit_inside (h.built.read c hc).1 hsmall hp hhit)⟩

/-- No segment is below the image. Such a segment would have its pages in place of pages that
are `2 ^ 32` further on, so that the pages behind those had to be hit as well, without an end. -/
theorem Conversion.not_below (h : Conversion input out s runs blocks)
    (hl : ∀ c ∈ converted input, ∀ a, c.header.Has a → Loaded out c.header.flags a) {c : Placed}
    (hc : c ∈ converted input) : imageBase input / pageSize ≤ c.header.vaddr / pageSize := by
  by_contra hlow
  have hwithin : ∀ {c' : Placed}, c' ∈ converted input → ∀ {a}, c'.header.Has a →
      a / pageSize < 2 ^ 32 - 1 ∧
        (a / pageSize < imageBase input / pageSize → imageBase input / pageSize < 2 ^ 32 →
          Protected input (a / pageSize + (2 ^ 32 - imageBase input / pageSize))) := by
    intro c' hc' a ha
    obtain ⟨hmax, -, hbelow⟩ := h.protected_of_loaded (hl c' hc' a ha)
    exact ⟨hmax, hbelow⟩
  have hbase : imageBase input / pageSize < 2 ^ 32 - 1 := by
    have hne : imageBase input ≠ 0 := by
      intro hzero
      rw [hzero, Nat.zero_div] at hlow
      exact hlow (Nat.zero_le _)
    obtain ⟨c', hc', hv⟩ := exists_base hne
    have hmem := (anchored hc').1
    have := (hwithin hc' (a := c'.header.vaddr) ⟨Nat.le_refl _, by omega⟩).1
    rw [hv] at this
    exact this
  have hbelow : ∀ {c' : Placed}, c' ∈ converted input → ∀ {a}, c'.header.Has a →
      a / pageSize < imageBase input / pageSize →
      Protected input (a / pageSize + (2 ^ 32 - imageBase input / pageSize)) :=
    fun hc' _ ha hlt => (hwithin hc' ha).2 hlt (by omega)
  have hzero : c.header.vaddr = 0 := by
    obtain ⟨-, heq | ⟨hvaddr, -⟩⟩ := anchored hc
    · exact absurd (Nat.div_le_div_right (by omega)) hlow
    · exact hvaddr
  have hfirst : Protected input (2 ^ 32 - imageBase input / pageSize) := by
    have hmem := (anchored hc).1
    have := hbelow hc (a := 0) ⟨by omega, by omega⟩ (by
      rw [hzero] at hlow
      exact Nat.lt_of_not_le hlow)
    rwa [Nat.zero_div, Nat.zero_add] at this
  have hall : ∀ n, Protected input ((n + 1) * (2 ^ 32 - imageBase input / pageSize)) := by
    intro n
    induction n with
    | zero =>
      rw [Nat.zero_add, Nat.one_mul]
      exact hfirst
    | succ n ih =>
      have hlt := ih.lt
      have hfar := hfirst.lt
      have hmul : 2 ^ 32 - imageBase input / pageSize ≤
          (n + 1) * (2 ^ 32 - imageBase input / pageSize) := Nat.le_mul_of_pos_left _ (by omega)
      rw [Nat.succ_mul (n + 1)]
      generalize (n + 1) * (2 ^ 32 - imageBase input / pageSize) = q at ih hlt hmul ⊢
      obtain ⟨c', hc', p, hp, hhit⟩ := ih.placed
      by_cases hlow' : imageBase input / pageSize ≤ c'.header.vaddr / pageSize
      · obtain ⟨hmax, -, hle⟩ := h.page_le hl hc' hlow'
        have := hle p hp q hhit
        omega
      · obtain ⟨hmem, heq | ⟨hvaddr, hpos⟩⟩ := anchored hc'
        · exact absurd (Nat.div_le_div_right (by omega)) hlow'
        · have hsmall : c'.pos + c'.header.memsz ≤ 2 ^ 32 := by
            by_contra hbig
            have hdiv : 2 ^ 32 / pageSize = 2 ^ 18 := by decide
            have := hbelow hc' (a := 2 ^ 32) ⟨by omega, by omega⟩ (by rw [hdiv]; omega)
            have := this.lt
            omega
          have hin := hit_inside (h.built.read c' hc').1 hsmall hp hhit
          have hdiv : pageSize * q / pageSize = q := Nat.mul_div_cancel_left q (by decide)
          have := hbelow hc' (a := pageSize * q) ⟨by omega, by omega⟩ (by rw [hdiv]; omega)
          rwa [hdiv] at this
  have hend := (hall (2 ^ 18)).lt
  have : (2 ^ 18 + 1) * 1 ≤ (2 ^ 18 + 1) * (2 ^ 32 - imageBase input / pageSize) :=
    Nat.mul_le_mul_left _ (by omega)
  omega

theorem Conversion.near (h : Conversion input out s runs blocks)
    (hl : ∀ c ∈ converted input, ∀ a, c.header.Has a → Loaded out c.header.flags a) : Near input where
  low _ hc := h.not_below hl hc
  high _ hc := (h.page_le hl hc (h.not_below hl hc)).1
  small _ hc := (h.page_le hl hc (h.not_below hl hc)).2.1

theorem Conversion.covered (h : Conversion input out s runs blocks) (hlen : input.length < 2 ^ 63)
    (hrt : RoundTrip input out) {c : Placed} (hc : c ∈ converted input) : Covered input c := by
  have hl : ∀ c ∈ converted input, ∀ a, c.header.Has a → Loaded out c.header.flags a :=
    fun c hc a ha => (hrt c hc a ha).1
  have hn := h.near hl
  have hmem := (anchored hc).1
  have hpage : ∀ a, c.header.Has a → imageBase input / pageSize ≤ a / pageSize :=
    fun a ha => Nat.le_trans (hn.low c hc) (Nat.div_le_div_right ha.1)
  have hprotected : ∀ a, c.header.Has a → Protected input (imagePageOf input a) :=
    fun a ha => (h.protected_of_loaded (hl c hc a ha)).2.1 (hpage a ha)
  have hoffset : ∀ a, a % pageSize < pageSize := fun a => Nat.mod_lt _ (by decide)
  constructor
  · exact hn.low c hc
  · have hlast := hn.high c hc
    unfold lastPage pageSize at *
    omega
  · intro hfile
    by_contra hfar
    have hle := (h.built.read c hc).1
    obtain ⟨frame, hload, hbyte⟩ := (hrt c hc c.header.vaddr ⟨Nat.le_refl _, by omega⟩).2
      (processOf out) rfl
    -- the file has no byte there, and the frame is full
    have hnone : input[c.header.offset + 0]? = none := List.getElem?_eq_none (by omega)
    rw [Phdr.byteAt, if_pos (by omega), Nat.sub_self, hnone, List.getElem?_eq_none_iff] at hbyte
    rw [h.loadPage_eq rfl] at hload
    injection hload with hframe
    have hfull : frame.length = pageSize := by
      rw [← hframe, length_frameAt]
    have := hoffset c.header.vaddr
    omega
  · exact hprotected
  · intro a ha b hb hflag
    obtain ⟨r, hr, hne, hlt, hin, hprot⟩ := h.run_of_loaded (hl c hc a ha)
    rw [h.base] at hin
    obtain ⟨hq, hlt⟩ := (within_run hne hlt hin).2.1 (hpage a ha)
    have hsame := (h.splits.uniform r hr).prot (imagePageOf input a) hq hlt
    rw [← pageOf_allows hb, ← h.pages, hsame]
    exact hprot b hb hflag
  · intro a ha hbyte
    rw [← pageOf_initialized, ← h.pages]
    by_contra hblank
    obtain ⟨r, hr, hq, hlt⟩ := h.run_of (hprotected a ha)
    obtain ⟨frame, hload, hframe⟩ := (hrt c hc a ha).2 (processOf out) rfl
    have hpagea : imagePageOf input a + imageBase input / pageSize = a / pageSize :=
      Nat.sub_add_cancel (hpage a ha)
    have hzero := h.load_blank hn hr hq hlt hblank (show (processOf out).hdr = headerOf out from rfl)
    rw [hpagea, hload] at hzero
    injection hzero with hzero
    rw [hzero, List.getElem?_replicate_of_lt (hoffset a)] at hframe
    exact hbyte hframe.symm
  · intro c' hc' a ha ha'
    obtain ⟨frame, hload, hbyte⟩ := (hrt c hc a ha).2 (processOf out) rfl
    obtain ⟨frame', hload', hbyte'⟩ := (hrt c' hc' a ha').2 (processOf out) rfl
    rw [hload] at hload'
    injection hload' with hsame
    rw [← hbyte, ← hbyte', hsame]

end

/-- **The round trip.** The memory of a process that runs the converted file is the ELF image, if
and only if the steps of `image_prot` hit all pages of the segments with their permissions, and
as pages of the file where there is more than zeros, and the segments are in reach and agree
with each other. -/
theorem round_trip_iff {input out : List Byte} {s : State} (hlen : input.length < 2 ^ 63)
    (hrela : Unrelocated input) (h : main input State.start = .ok out s) :
    RoundTrip input out ↔ ∀ c ∈ converted input, Covered input c := by
  obtain ⟨runs, blocks, hconv⟩ := (outcome_main input hrela).ok h
  exact ⟨fun hrt c hc => hconv.covered hlen hrt hc, hconv.roundTrip⟩

/-- An executable with one segment, at the beginning of the virtual address space. -/
def oneSegment (filesz memsz : Nat) : List Byte :=
  [0x464c457f, 2, 0, 0, 2 + 2 ^ 16 * 62, 1, 0, 0x90, 64, 0, 0, 0, 0, 64 + 2 ^ 16 * 56, 1, 0,
    1, 6, 0, 0, 0, 0x90, 0, 0x90, filesz, 0, memsz, 0, 0x4000, 0].flatMap Grass.wordBytes

theorem oneSegment_covered :
    ∀ c ∈ converted (oneSegment 1 pageSize), Covered (oneSegment 1 pageSize) c := by
  have hbase : imageBase (oneSegment 1 pageSize) = 0x90 * 2 ^ 32 := by decide +kernel
  have hlength : (converted (oneSegment 1 pageSize)).length = 1 := by decide +kernel
  have hheaders : ∀ c ∈ converted (oneSegment 1 pageSize), c.header.vaddr = 0x90 * 2 ^ 32 ∧
      c.header.memsz = pageSize ∧ c.header.flags = 6 ∧ c.header.Readable := by decide +kernel
  have hhit : ∀ b, b < 3 → Nat.testBit 6 b = true →
      ∃ p ∈ partsOf (oneSegment 1 pageSize), p.Hits 0 ∧ p.flags.testBit b = true := by
    decide +kernel
  have hinitialized : ∃ p ∈ partsOf (oneSegment 1 pageSize), p.Hits 0 ∧ p.initialized = true := by
    decide +kernel
  intro c hc
  obtain ⟨hvaddr, hmemsz, hflags, hreadable⟩ := hheaders c hc
  have hpage (a : Nat) (ha : c.header.Has a) : imagePageOf (oneSegment 1 pageSize) a = 0 := by
    obtain ⟨hlow, hhigh⟩ := ha
    rw [hvaddr] at hlow
    rw [hvaddr, hmemsz] at hhigh
    rw [imagePageOf, hbase]
    unfold pageSize at *
    omega
  constructor
  · rw [hbase, hvaddr]
  · rw [hvaddr, hmemsz]
    decide
  · exact hreadable
  · intro a ha
    rw [hpage a ha]
    exact ⟨1, by decide, hhit 1 (by decide) (by decide)⟩
  · intro a ha b hb hflag
    rw [hpage a ha]
    exact hhit b hb (hflags ▸ hflag)
  · intro a ha _
    rw [hpage a ha]
    exact hinitialized
  · intro c' hc' a _ _
    obtain ⟨only, honly⟩ := List.length_eq_one_iff.mp hlength
    rw [honly, List.mem_singleton] at hc hc'
    rw [hc, hc']

theorem round_trip_small : ∃ out s, main (oneSegment 1 pageSize) State.start = .ok out s ∧
    RoundTrip (oneSegment 1 pageSize) out := by
  have haccepted : (returned (main (oneSegment 1 pageSize) State.start)).isSome = true := by
    decide +kernel
  obtain ⟨out, hout⟩ := Option.isSome_iff_exists.mp haccepted
  have h := eq_ok_of_returned hout
  exact ⟨out, _, h, (round_trip_iff (by decide +kernel) (by decide +kernel) h).mpr
    oneSegment_covered⟩

/-- A segment with an address on a page that is not hit is lost. -/
theorem not_roundTrip {input out : List Byte} {s : State} {a : Nat} (hlen : input.length < 2 ^ 63)
    (hrela : Unrelocated input) (h : main input State.start = .ok out s)
    (hhas : ∃ c ∈ converted input, c.header.Has a)
    (hnone : ∀ p ∈ partsOf input, ¬ p.Hits (imagePageOf input a)) : ¬ RoundTrip input out := by
  intro hrt
  obtain ⟨runs, blocks, hconv⟩ := (outcome_main input hrela).ok h
  obtain ⟨c, hc, ha⟩ := hhas
  obtain ⟨b, -, p, hp, hhit, -⟩ := (hconv.covered hlen hrt hc).hit a ha
  exact hnone p hp hhit

/-- A segment of a page and a byte, of which one byte is in the file. -/
def lostSegment : List Byte := oneSegment 1 (pageSize + 1)

/-- The zeros of the segment begin at its second byte; the next step from there is behind the
segment, and its second page is lost. -/
theorem second_page_lost : ∃ out s, main lostSegment State.start = .ok out s ∧
    Unrelocated lostSegment ∧
    (converted lostSegment).map (fun c => (c.header.vaddr, c.header.filesz, c.header.memsz)) =
      [(virtBase, 1, pageSize + 1)] ∧
    ¬ RoundTrip lostSegment out := by
  have haccepted : (returned (main lostSegment State.start)).isSome = true := by decide +kernel
  obtain ⟨out, hout⟩ := Option.isSome_iff_exists.mp haccepted
  have h := eq_ok_of_returned hout
  have hrela : Unrelocated lostSegment := by decide +kernel
  have hhas : ∃ c ∈ converted lostSegment, c.header.Has (virtBase + pageSize) := by decide +kernel
  have hnone : ∀ p ∈ partsOf lostSegment,
      ¬ p.Hits (imagePageOf lostSegment (virtBase + pageSize)) := by decide +kernel
  exact ⟨out, _, h, hrela, by decide +kernel,
    not_roundTrip (by decide +kernel) hrela h hhas hnone⟩

end Egos.ElfCvt
