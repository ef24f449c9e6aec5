import Egos.Exec.Split

/-!
# Loading the segments

What `frame_init` puts in a page of an executable: it counts the blocks of the segments before
the page, and finds there what the converter has written, a page of the image.
-/
namespace Egos.ElfCvt

open Egos.Lib Egos.Disk Egos.Earth
open Egos.Grass (ExecSegment wordBytes fileOffset fileReplySize)
open Egos.Spawnsvr (maxSegments ExecHeader segmentOfMemory pageOffset UserProcess frameInit
  fileRead headerSize)

set_option autoImplicit false

/-! ### The header -/

/-- The fields fit in their words. -/
def Fits (es : ExecSegment) : Prop := es.first < 2 ^ 32 ∧ es.npages < 2 ^ 32 ∧ es.nblocks < 2 ^ 32

theorem length_segmentBytes (es : ExecSegment) : (segmentBytes es).length = 16 := by
  simp [segmentBytes, Grass.length_wordBytes]

theorem length_flatMap_segmentBytes (l : List ExecSegment) :
    (l.flatMap segmentBytes).length = 16 * l.length := by
  induction l with
  | nil => rfl
  | cons es l ih =>
    rw [List.flatMap_cons, List.length_append, length_segmentBytes, ih, List.length_cons]
    omega

theorem length_headerBytes (entry : Nat) {l : List ExecSegment} (h : l.length < maxSegments) :
    (headerBytes entry l).length = headerSize := by
  unfold maxSegments at h
  simp only [headerBytes, List.length_append, List.length_map, List.length_range,
    List.length_replicate, Grass.length_wordBytes, length_flatMap_segmentBytes, headerSize,
    maxSegments]
  omega

theorem getLsbD_protCode (p : Prot) :
    (⟨(byteOf (protCode p) 0).getLsbD 0, (byteOf (protCode p) 0).getLsbD 1,
      (byteOf (protCode p) 0).getLsbD 2⟩ : Prot) = p := by
  rcases p with ⟨r, w, x⟩
  cases r <;> cases w <;> cases x <;> decide

theorem segmentOfMemory_segmentBytes (front rest : List Byte) {es : ExecSegment} (h : Fits es) :
    segmentOfMemory (fun k => (front ++ (segmentBytes es ++ rest)).getD (front.length + k) 0) =
      es := by
  obtain ⟨h₁, h₂, h₃⟩ := h
  have hword : ∀ (pre : List Byte) (post : List Byte) (v pos : Nat), pos = pre.length →
      v < 2 ^ 32 → ofBytes (fun i => (front ++ (pre ++ (wordBytes v ++ post))).getD
        (front.length + (pos + i)) 0) 4 = v := by
    intro pre post v pos hpos hv
    have := Grass.ofBytes_wordBytes (front ++ pre) post hv
    rw [List.length_append, List.append_assoc] at this
    rw [hpos]
    simpa only [Nat.add_assoc] using this
  have hprot : (front ++ (segmentBytes es ++ rest)).getD (front.length + 12) 0 =
      byteOf (protCode es.prot) 0 := by
    rw [List.getD_append_right _ _ _ _ (Nat.le_add_right _ _), Nat.add_sub_cancel_left]
    rfl
  have hlen : ∀ v, (wordBytes v).length = 4 := Grass.length_wordBytes
  unfold segmentOfMemory
  dsimp only
  rw [hprot, getLsbD_protCode]
  have hfirst := hword [] (wordBytes es.npages ++ (wordBytes es.nblocks ++
    (wordBytes (protCode es.prot) ++ rest))) es.first 0 rfl h₁
  have hnpages := hword (wordBytes es.first) (wordBytes es.nblocks ++
    (wordBytes (protCode es.prot) ++ rest)) es.npages 4 (hlen _).symm h₂
  have hnblocks := hword (wordBytes es.first ++ wordBytes es.npages)
    (wordBytes (protCode es.prot) ++ rest) es.nblocks 8 (by simp [hlen]) h₃
  simp only [segmentBytes, List.append_assoc, List.nil_append, Nat.zero_add] at *
  rw [hfirst, hnpages, hnblocks]

/-- The header of a file, as `user_proc` reads it. -/
def headerOf (out : List Byte) : ExecHeader := .ofMemory fun i => (out.take headerSize).getD i 0

theorem headerOf_headerBytes {entry : Nat} {l : List ExecSegment} {rest : List Byte}
    (hlen : l.length < maxSegments) (hfits : ∀ es ∈ l, Fits es) :
    (headerOf (headerBytes entry l ++ rest)).nsegments = l.length ∧
      (headerOf (headerBytes entry l ++ rest)).offset = 1 ∧
      ∀ i (hi : i < maxSegments) es, l[i]? = some es →
        (headerOf (headerBytes entry l ++ rest)).segments ⟨i, hi⟩ = es := by
  have htake : (headerBytes entry l ++ rest).take headerSize = headerBytes entry l := by
    rw [← length_headerBytes entry hlen, List.take_left']
    rfl
  unfold headerOf
  rw [htake]
  have hlt : l.length < 2 ^ 32 := by
    unfold maxSegments at hlen
    omega
  refine ⟨?_, ?_, fun i hi es hes => ?_⟩
  · have := Grass.ofBytes_wordBytes [] (wordBytes 1 ++ ((List.range 8).map (byteOf entry) ++
      (l.flatMap segmentBytes ++ List.replicate (16 * (maxSegments - l.length)) 0))) hlt
    simpa [ExecHeader.ofMemory, headerBytes] using this
  · have := Grass.ofBytes_wordBytes (wordBytes l.length) ((List.range 8).map (byteOf entry) ++
      (l.flatMap segmentBytes ++ List.replicate (16 * (maxSegments - l.length)) 0))
      (show 1 < 2 ^ 32 by decide)
    rw [Grass.length_wordBytes] at this
    simpa [ExecHeader.ofMemory, headerBytes] using this
  · obtain ⟨hlt, rfl⟩ := List.getElem?_eq_some_iff.mp hes
    have hsplit : l = l.take i ++ l[i] :: l.drop (i + 1) := by simp
    have := segmentOfMemory_segmentBytes (wordBytes l.length ++ wordBytes 1 ++
      (List.range 8).map (byteOf entry) ++ (l.take i).flatMap segmentBytes)
      ((l.drop (i + 1)).flatMap segmentBytes ++
        List.replicate (16 * (maxSegments - l.length)) 0) (hfits l[i] (List.getElem_mem hlt))
    have hfront : (wordBytes l.length ++ wordBytes 1 ++ (List.range 8).map (byteOf entry) ++
        (l.take i).flatMap segmentBytes).length = 16 + 16 * i := by
      simp only [List.length_append, Grass.length_wordBytes, List.length_map, List.length_range,
        length_flatMap_segmentBytes, List.length_take]
      omega
    rw [hfront] at this
    refine Eq.trans ?_ this
    unfold ExecHeader.ofMemory headerBytes
    dsimp only
    have hflat : l.flatMap segmentBytes = (l.take i).flatMap segmentBytes ++
        (segmentBytes l[i] ++ (l.drop (i + 1)).flatMap segmentBytes) := by
      conv_lhs => rw [hsplit]
      rw [List.flatMap_append, List.flatMap_cons]
    rw [hflat]
    simp only [List.append_assoc]

/-- The loop over the header is the loop over its segments. -/
theorem pageOffset_eq {hdr : ExecHeader} {l : List ExecSegment} {page : Nat}
    (hsegments : ∀ i (hi : i < maxSegments) es, l[i]? = some es → hdr.segments ⟨i, hi⟩ = es)
    (hlen : l.length < maxSegments) {left i offset : Nat} (hleft : left + i = l.length) :
    pageOffset hdr page left i offset = .ok (fileOffset page (l.drop i) offset) := by
  induction left generalizing i offset with
  | zero =>
    rw [List.drop_eq_nil_of_le (by omega)]
    rfl
  | succ left ih =>
    have hi : i < l.length := by omega
    have hmax : i < maxSegments := by omega
    rw [pageOffset, dif_pos hmax, hsegments i hmax l[i] (List.getElem?_eq_getElem hi),
      List.drop_eq_getElem_cons hi, fileOffset]
    dsimp only
    by_cases hin : l[i].first ≤ page ∧ page < (l[i].first + l[i].npages) % 2 ^ 32
    · rw [if_pos hin, if_pos hin]
      by_cases hblock : page < (l[i].first + l[i].nblocks) % 2 ^ 32
      · rw [if_pos hblock, if_pos hblock]
      · rw [if_neg hblock, if_neg hblock]
    · rw [if_neg hin, if_neg hin]
      exact ih (by omega)

/-! ### The blocks -/

section

variable {s : State} {pages : Nat → PageInfo} {runs : List (Nat × Nat)} {blocks : List Byte}

theorem writeSegments_cons {es : ExecSegment} {rest : List ExecSegment}
    (h : writeSegments s (es :: rest) = .ok blocks) :
    (0 < es.nblocks → imageAddr s.base es + pageSize * es.nblocks ≤ s.allocated) ∧
      ∃ blocks', writeSegments s rest = .ok blocks' ∧
        blocks = (List.range (pageSize * es.nblocks)).map
          (fun k => s.image (imageAddr s.base es + k)) ++ blocks' := by
  unfold writeSegments at h
  dsimp only at h
  split at h
  · cases h
  · rename_i hroom
    refine ⟨fun hpos => by omega, ?_⟩
    cases hrest : writeSegments s rest with
    | error e =>
      rw [hrest] at h
      cases h
    | ok blocks' =>
      rw [hrest] at h
      injection h with h
      exact ⟨blocks', rfl, h.symm⟩

theorem writeSegments_room {l : List ExecSegment} (h : writeSegments s l = .ok blocks)
    {es : ExecSegment} (hes : es ∈ l) (hpos : 0 < es.nblocks) :
    imageAddr s.base es + pageSize * es.nblocks ≤ s.allocated := by
  induction l generalizing blocks with
  | nil => cases hes
  | cons es' rest ih =>
    obtain ⟨hroom, blocks', hrest, -⟩ := writeSegments_cons h
    rcases List.mem_cons.mp hes with rfl | hes
    · exact hroom hpos
    · exact ih hrest hes

/-- A page of the image. -/
def imagePage (image : Buffer) (addr : Nat) : List Byte :=
  (List.range pageSize).map fun k => image (addr + k)

theorem take_blocks (image : Buffer) (addr : Nat) {n d : Nat} (hd : d < n) (rest : List Byte) :
    (((List.range (pageSize * n)).map (fun k => image (addr + k)) ++ rest).drop
      (d * pageSize)).take pageSize = imagePage image (addr + d * pageSize) := by
  have hle : d * pageSize + pageSize ≤ pageSize * n := by
    rw [← Nat.succ_mul, Nat.mul_comm]
    exact Nat.mul_le_mul_left _ hd
  apply List.ext_getElem?
  intro k
  rw [List.getElem?_take, List.getElem?_drop, imagePage, List.getElem?_map]
  by_cases hk : k < pageSize
  · rw [if_pos hk, List.getElem?_append_left (by simp; omega), List.getElem?_map,
      List.getElem?_range (by omega), List.getElem?_range hk]
    simp only [Option.map_some, Nat.add_assoc]
  · rw [if_neg hk, List.getElem?_eq_none (by simp; omega)]
    rfl

/-- The position that `frame_init` computes for a page of a run: an initialized page is found
where its blocks were written. -/
theorem fileOffset_runs {base lo offset q : Nat} {r : Nat × Nat}
    (hsorted : runs.Pairwise fun r r' => r.2 ≤ r'.1)
    (hruns : ∀ r ∈ runs, lo ≤ r.1 ∧ r.1 < r.2 ∧ r.2 ≤ 2 ^ 18 ∧ r.2 + base / pageSize < 2 ^ 32)
    (hoffset : offset ≤ lo + 1) (hwrite : writeSegments s (segmentsOf pages base runs) = .ok blocks)
    (hr : r ∈ runs) (hq : r.1 ≤ q) (hlt : q < r.2) :
    (¬ q < r.1 + (segmentOf pages base r.1 r.2).nblocks →
      fileOffset (q + base / pageSize) (segmentsOf pages base runs) offset = none) ∧
    (q < r.1 + (segmentOf pages base r.1 r.2).nblocks → ∃ d, d + lo ≤ q ∧
      fileOffset (q + base / pageSize) (segmentsOf pages base runs) offset =
        some ((offset + d) * pageSize % 2 ^ 32) ∧
      (blocks.drop (d * pageSize)).take pageSize = imagePage s.image
        (imageAddr s.base (segmentOf pages base r.1 r.2) + (q - r.1) * pageSize)) := by
  induction runs generalizing lo offset blocks with
  | nil => cases hr
  | cons r₀ rest ih =>
    obtain ⟨hlo, hne, hmax, hend⟩ := hruns r₀ List.mem_cons_self
    obtain ⟨-, blocks', hrest, rfl⟩ := writeSegments_cons hwrite
    have hfirst : (segmentOf pages base r₀.1 r₀.2).first = r₀.1 + base / pageSize :=
      Nat.mod_eq_of_lt (by omega)
    have hnb := nblocks_le pages base (Nat.le_of_lt hne)
    have hnpages : (segmentOf pages base r₀.1 r₀.2).npages = r₀.2 - r₀.1 := rfl
    have hunfold : fileOffset (q + base / pageSize) (segmentsOf pages base (r₀ :: rest)) offset =
        if r₀.1 ≤ q ∧ q < r₀.2 then
          if q < r₀.1 + (segmentOf pages base r₀.1 r₀.2).nblocks then
            some ((offset + (q - r₀.1)) * pageSize % 2 ^ 32)
          else none
        else fileOffset (q + base / pageSize) (segmentsOf pages base rest)
          (offset + (segmentOf pages base r₀.1 r₀.2).nblocks) := by
      change fileOffset _ (segmentOf pages base r₀.1 r₀.2 :: segmentsOf pages base rest) _ = _
      rw [fileOffset, hfirst, hnpages, Nat.mod_eq_of_lt (show r₀.1 + base / pageSize +
        (r₀.2 - r₀.1) < 2 ^ 32 by omega), Nat.mod_eq_of_lt (show r₀.1 + base / pageSize +
        (segmentOf pages base r₀.1 r₀.2).nblocks < 2 ^ 32 by omega), Nat.mod_eq_of_lt
        (show offset + (segmentOf pages base r₀.1 r₀.2).nblocks < 2 ^ 32 by omega)]
      have hpage : q + base / pageSize - (r₀.1 + base / pageSize) = q - r₀.1 := by omega
      rw [hpage]
      congr 1
      · rw [eq_iff_iff]
        omega
      · congr 1
        rw [eq_iff_iff]
        omega
    rw [hunfold]
    rcases List.mem_cons.mp hr with rfl | hr
    · rw [if_pos ⟨hq, hlt⟩]
      constructor
      · intro hblock
        rw [if_neg hblock]
      · intro hblock
        rw [if_pos hblock]
        refine ⟨q - r.1, by omega, rfl, ?_⟩
        have hd : q - r.1 < (segmentOf pages base r.1 r.2).nblocks := by omega
        exact take_blocks s.image _ hd blocks'
    · have hafter : r₀.2 ≤ r.1 := (List.pairwise_cons.mp hsorted).1 r hr
      rw [if_neg (by omega)]
      have hruns' : ∀ r ∈ rest, r₀.2 ≤ r.1 ∧ r.1 < r.2 ∧ r.2 ≤ 2 ^ 18 ∧
          r.2 + base / pageSize < 2 ^ 32 := by
        intro r' hr'
        exact ⟨(List.pairwise_cons.mp hsorted).1 r' hr', (hruns r' (List.mem_cons_of_mem _ hr')).2⟩
      obtain ⟨hout, hin⟩ := ih (List.pairwise_cons.mp hsorted).2 hruns'
        (show offset + (segmentOf pages base r₀.1 r₀.2).nblocks ≤ r₀.2 + 1 by omega) hrest hr
      refine ⟨hout, fun hblock => ?_⟩
      obtain ⟨d, hd, hfile, hslice⟩ := hin hblock
      refine ⟨(segmentOf pages base r₀.1 r₀.2).nblocks + d, by omega, ?_, ?_⟩
      · rw [hfile, Nat.add_assoc]
      · have hlen : ((List.range (pageSize * (segmentOf pages base r₀.1 r₀.2).nblocks)).map
            (fun k => s.image (imageAddr s.base (segmentOf pages base r₀.1 r₀.2) + k))).length =
            (segmentOf pages base r₀.1 r₀.2).nblocks * pageSize := by
          rw [List.length_map, List.length_range, Nat.mul_comm]
        rw [Nat.add_mul, ← List.drop_drop, ← hlen, List.drop_left, hslice]

/-- Without a wrap, the blocks of a run begin where its first page does in the image. -/
theorem imageAddr_run {base first i : Nat} (hbase : base < 2 ^ 64) (hmax : first < 2 ^ 18)
    {allocated : Nat} (halloc : allocated < 2 ^ 32)
    (hroom : imageAddr base (segmentOf pages base first i) + pageSize ≤ allocated) :
    base % pageSize ≤ first * pageSize ∧
      imageAddr base (segmentOf pages base first i) = first * pageSize - base % pageSize := by
  unfold imageAddr segmentOf pageSize at *
  dsimp only at *
  omega

/-! ### The output -/

/-- The answer of the file server to the request of `frame_init`. -/
def answer (out : List Byte) (offset : Nat) : List Byte :=
  List.replicate fileReplySize 0 ++ (out.drop offset).take pageSize

/-- The contents of a frame for a page of a process that runs the file. -/
def loadPage (out : List Byte) (p : UserProcess) (page : Nat) : Except Stop (List Byte) :=
  match pageOffset p.hdr page p.hdr.nsegments 0 p.hdr.offset with
  | .ok (some offset) => frameInit p page (some (answer out offset))
  | _ => frameInit p page none

theorem fileRead_answer (out : List Byte) (offset : Nat) :
    fileRead (some (answer out offset)) pageSize = some ((out.drop offset).take pageSize) := by
  have hlen : (answer out offset).length ≤ fileReplySize + pageSize := by
    simp [answer]
  unfold fileRead
  rw [Option.bind_some, List.take_of_length_le hlen]
  unfold Grass.fileReadData
  have hstatus : (answer out offset).take 4 = wordBytes 0 := by
    unfold answer
    rw [List.take_append_of_le_length (by simp [fileReplySize]), List.take_replicate]
    rfl
  rw [if_pos ⟨by simp [answer], hstatus⟩]
  unfold answer
  rw [List.drop_left' (by simp)]

/-- The frame for a position in the file, or for none. -/
def frameAt (out : List Byte) : Option Nat → List Byte
  | none => List.replicate pageSize 0
  | some offset => (out.drop offset).take pageSize ++
      List.replicate (pageSize - ((out.drop offset).take pageSize).length) 0

theorem length_frameAt (out : List Byte) (o : Option Nat) : (frameAt out o).length = pageSize := by
  cases o with
  | none => exact List.length_replicate
  | some offset =>
    have hle : ((out.drop offset).take pageSize).length ≤ pageSize := List.length_take_le _ _
    rw [frameAt, List.length_append, List.length_replicate]
    omega

theorem loadPage_eq {out : List Byte} {p : UserProcess} {page : Nat} {o : Option Nat}
    (h : pageOffset p.hdr page p.hdr.nsegments 0 p.hdr.offset = .ok o) :
    loadPage out p page = .ok (frameAt out o) := by
  rw [loadPage, h]
  cases o with
  | none =>
    dsimp only
    rw [frameInit, h]
    rfl
  | some offset =>
    dsimp only
    rw [frameInit, h]
    have hlen : ¬ pageSize < ((out.drop offset).take pageSize).length := by simp
    simp only [bind, Except.bind, fileRead_answer]
    rw [if_neg hlen]
    rfl

/-- The blocks lie behind the first page of the file. -/
theorem drop_outputFile {entry d : Nat} {l : List ExecSegment} (hlen : l.length < maxSegments)
    (hblocks : blocks ≠ []) :
    (outputFile entry l blocks).drop ((1 + d) * pageSize) = blocks.drop (d * pageSize) := by
  unfold outputFile
  rw [if_neg hblocks, ← List.append_assoc, Nat.add_mul, Nat.one_mul, ← List.drop_drop,
    List.drop_left']
  rw [List.length_append, List.length_replicate, length_headerBytes entry hlen]
  rfl

theorem headerOf_outputFile {entry : Nat} {l : List ExecSegment} (hlen : l.length < maxSegments)
    (hfits : ∀ es ∈ l, Fits es) :
    (headerOf (outputFile entry l blocks)).nsegments = l.length ∧
      (headerOf (outputFile entry l blocks)).offset = 1 ∧
      ∀ i (hi : i < maxSegments) es, l[i]? = some es →
        (headerOf (outputFile entry l blocks)).segments ⟨i, hi⟩ = es := by
  unfold outputFile
  split
  · have := @headerOf_headerBytes entry l [] hlen hfits
    rw [List.append_nil] at this
    exact this
  · exact headerOf_headerBytes hlen hfits

end

end Egos.ElfCvt
