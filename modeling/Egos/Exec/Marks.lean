import Egos.Exec.ElfCvt
import Egos.Lib.Program

/-!
# The pages of the image

`image_prot` steps through a part of a segment from its first byte on, a page at a time, and
marks the pages that it hits. A part that does not begin at the beginning of a page can end in
a page that is not hit. What the pages are marked with at the end, and what the image contains,
follows from the converted segments and their positions alone.
-/
namespace Egos.ElfCvt

open Egos.Lib Egos.Disk Egos.Earth

set_option autoImplicit false

/-- A call of `image_prot`. -/
structure Part where
  offset : Nat
  size : Nat
  flags : Nat
  initialized : Bool

def Part.first (p : Part) : Nat := p.offset % 2 ^ 32

def Part.limit (p : Part) : Nat := (p.first + p.size % 2 ^ 32) % 2 ^ 32

/-- A step of the part is in the page, at the same place as in all other pages. -/
def Part.Hits (p : Part) (q : Nat) : Prop :=
  p.first / pageSize ≤ q ∧ pageSize * q + p.first % pageSize < p.limit

instance (p : Part) (q : Nat) : Decidable (p.Hits q) := by unfold Part.Hits; infer_instance

/-- A page after the calls. -/
def pageOf (parts : List Part) (q : Nat) : PageInfo :=
  parts.foldl (fun info p => if p.Hits q then info.mark p.flags p.initialized else info) .blank

theorem pageOf_concat (parts : List Part) (p : Part) (q : Nat) :
    pageOf (parts ++ [p]) q =
      if p.Hits q then (pageOf parts q).mark p.flags p.initialized else pageOf parts q := by
  unfold pageOf
  rw [List.foldl_append]
  rfl

theorem pageOf_blank {parts : List Part} {q : Nat} (h : ∀ p ∈ parts, ¬ p.Hits q) :
    pageOf parts q = .blank := by
  induction parts using List.reverseRecOn with
  | nil => rfl
  | append_singleton parts p ih =>
    rw [pageOf_concat, if_neg (h p (by simp))]
    exact ih fun p' hp' => h p' (by simp [hp'])

/-- The permission of a bit of the flags, `PF_X`, `PF_W` and `PF_R` in this order. -/
def allows (p : Prot) : Nat → Bool
  | 0 => p.exec
  | 1 => p.write
  | 2 => p.read
  | _ => false

theorem allows_protOf {flags b : Nat} (hb : b < 3) : allows (protOf flags) b = flags.testBit b := by
  obtain _ | _ | _ | b := b
  · rfl
  · rfl
  · rfl
  · omega

theorem allows_orProt (p p' : Prot) (b : Nat) :
    allows (orProt p p') b = (allows p b || allows p' b) := by
  obtain _ | _ | _ | b := b <;> rfl

theorem allows_lt {p : Prot} {b : Nat} (h : allows p b = true) : b < 3 := by
  obtain _ | _ | _ | b := b
  · decide
  · decide
  · decide
  · cases h

theorem ne_none_iff {p : Prot} : p ≠ Prot.none ↔ ∃ b, allows p b = true := by
  rcases p with ⟨r, w, x⟩
  constructor
  · intro h
    cases r with
    | true => exact ⟨2, rfl⟩
    | false =>
      cases w with
      | true => exact ⟨1, rfl⟩
      | false =>
        cases x with
        | true => exact ⟨0, rfl⟩
        | false => exact absurd rfl h
  · rintro ⟨b, hb⟩ h
    rw [h] at hb
    obtain _ | _ | _ | b := b <;> cases hb

theorem pageOf_allows {parts : List Part} {q b : Nat} (hb : b < 3) :
    allows (pageOf parts q).prot b = true ↔
      ∃ p ∈ parts, p.Hits q ∧ p.flags.testBit b = true := by
  induction parts using List.reverseRecOn with
  | nil =>
    constructor
    · intro h
      exact absurd (ne_none_iff.mpr ⟨b, h⟩) (not_not_intro rfl)
    · rintro ⟨p, hp, -⟩
      cases hp
  | append_singleton parts p ih =>
    have hmem : (∃ p' ∈ parts ++ [p], p'.Hits q ∧ p'.flags.testBit b = true) ↔
        (∃ p' ∈ parts, p'.Hits q ∧ p'.flags.testBit b = true) ∨
          p.Hits q ∧ p.flags.testBit b = true := by
      simp only [List.mem_append, List.mem_singleton, or_and_right, exists_or, exists_eq_left]
    rw [hmem, ← ih, pageOf_concat]
    by_cases hhit : p.Hits q
    · rw [if_pos hhit, PageInfo.mark, allows_orProt, allows_protOf hb, Bool.or_eq_true]
      simp [hhit]
    · rw [if_neg hhit]
      simp [hhit]

theorem pageOf_initialized {parts : List Part} {q : Nat} :
    (pageOf parts q).initialized = true ↔ ∃ p ∈ parts, p.Hits q ∧ p.initialized = true := by
  induction parts using List.reverseRecOn with
  | nil => simp [pageOf, PageInfo.blank]
  | append_singleton parts p ih =>
    have hmem : (∃ p' ∈ parts ++ [p], p'.Hits q ∧ p'.initialized = true) ↔
        (∃ p' ∈ parts, p'.Hits q ∧ p'.initialized = true) ∨ p.Hits q ∧ p.initialized = true := by
      simp only [List.mem_append, List.mem_singleton, or_and_right, exists_or, exists_eq_left]
    rw [hmem, ← ih, pageOf_concat]
    by_cases hhit : p.Hits q
    · rw [if_pos hhit, PageInfo.mark, Bool.or_eq_true]
      simp [hhit]
    · rw [if_neg hhit]
      simp [hhit]

/-! ### The loop of image_prot -/

section

variable {s : State} {limit flags : Nat} {initialized : Bool}

/-- The pages of which a step is left. -/
def Ahead (limit addr q : Nat) : Prop :=
  addr / pageSize ≤ q ∧ pageSize * q + addr % pageSize < limit

instance (limit addr q : Nat) : Decidable (Ahead limit addr q) := by
  unfold Ahead
  infer_instance

/-- The pages of a kind are marked. -/
def State.marked (s : State) (hit : Nat → Prop) [DecidablePred hit] (flags : Nat)
    (initialized : Bool) : State :=
  { s with pages := fun q => if hit q then (s.pages q).mark flags initialized else s.pages q }

theorem State.marked_none {hit : Nat → Prop} [DecidablePred hit] (h : ∀ q, ¬ hit q) :
    s.marked hit flags initialized = s := by
  unfold State.marked
  simp only [h, if_false]

theorem next_step (addr : Nat) :
    (addr + pageSize) / pageSize = addr / pageSize + 1 ∧
      (addr + pageSize) % pageSize = addr % pageSize := by
  unfold pageSize
  omega

/-- A loop that has pages below the limit in front of it for all rounds does not end. -/
theorem protLoop_endless {rounds addr : Nat} (hend : addr + pageSize * rounds ≤ 2 ^ 32)
    (hlimit : ∀ j, j < rounds → addr + pageSize * j < limit) :
    Outcome (protLoop limit flags initialized rounds addr) (fun _ _ => False)
      (fun _ _ => True) s := by
  induction rounds generalizing addr s with
  | zero => exact trivial
  | succ rounds ih =>
    rw [protLoop, if_pos (by simpa using hlimit 0 (by omega)), Outcome.bind_iff, Outcome.get_iff]
    dsimp only
    by_cases hpage : s.npages ≤ addr / pageSize
    · rw [if_pos hpage]
      exact trivial
    · rw [if_neg hpage, Outcome.bind_iff]
      change Outcome (protLoop limit flags initialized rounds _) _ _ _
      cases rounds with
      | zero => exact trivial
      | succ rounds =>
        have hlt : addr + pageSize < 2 ^ 32 := by
          have := hlimit 1 (by omega)
          unfold pageSize at *
          omega
        rw [Nat.mod_eq_of_lt hlt]
        apply ih
        · rw [Nat.mul_add] at hend
          omega
        · intro j hj
          have := hlimit (j + 1) (by omega)
          rw [Nat.mul_add] at this
          omega

/-- The pages that are ahead are marked, if the loop began at page `c` and comes to its end. -/
theorem outcome_protLoop {rounds addr c : Nat} (haddr : addr < 2 ^ 32) (hlimit : limit < 2 ^ 32)
    (hrounds : c + 2 ^ 32 / pageSize = rounds + addr / pageSize)
    (hfirst : pageSize * c + addr % pageSize < limit) :
    Outcome (protLoop limit flags initialized rounds addr)
      (fun _ s' => (∀ q, Ahead limit addr q → q < s.npages) ∧
        s' = s.marked (Ahead limit addr) flags initialized) (fun _ _ => True) s := by
  induction rounds generalizing addr s with
  | zero => exact trivial
  | succ rounds ih =>
    rw [protLoop]
    by_cases hlt : addr < limit
    · rw [if_pos hlt, Outcome.bind_iff, Outcome.get_iff]
      dsimp only
      by_cases hpage : s.npages ≤ addr / pageSize
      · rw [if_pos hpage]
        exact trivial
      · rw [if_neg hpage]
        change Outcome (protLoop limit flags initialized rounds _) _ _ { s with
          pages := Function.update s.pages (addr / pageSize)
            ((s.pages (addr / pageSize)).mark flags initialized) }
        obtain ⟨hdiv, hmod⟩ := next_step addr
        by_cases hwrap : addr + pageSize < 2 ^ 32
        · rw [Nat.mod_eq_of_lt hwrap]
          -- the pages ahead are this one and those of the next address
          have hahead : ∀ q, Ahead limit addr q ↔
              q = addr / pageSize ∨ Ahead limit (addr + pageSize) q := by
            intro q
            unfold Ahead
            rw [hdiv, hmod]
            have := Nat.div_add_mod addr pageSize
            constructor
            · rintro ⟨hq, hql⟩
              by_cases he : q = addr / pageSize
              · exact .inl he
              · exact .inr ⟨by omega, hql⟩
            · rintro (rfl | ⟨hq, hql⟩)
              · exact ⟨Nat.le_refl _, by omega⟩
              · exact ⟨by omega, hql⟩
          apply (ih hwrap (by rw [hdiv]; omega) (by rw [hmod]; exact hfirst)).post
          rintro _ s' ⟨hin, rfl⟩
          constructor
          · intro q hq
            rcases (hahead q).mp hq with rfl | hq
            · omega
            · exact hin q hq
          · simp only [State.marked, State.mk.injEq, true_and]
            funext q
            by_cases he : q = addr / pageSize
            · have hnot : ¬ Ahead limit (addr + pageSize) q := by
                rintro ⟨hle, -⟩
                omega
              rw [if_neg hnot, if_pos ((hahead q).mpr (.inl he)), he, Function.update_self]
            · rw [Function.update_of_ne he]
              simp only [hahead q, he, false_or]
        · -- from the first page on once more, up to where the loop began
          have hpage : addr / pageSize + 1 = 2 ^ 32 / pageSize := by
            unfold pageSize at *
            omega
          have hlast : (addr + pageSize) % 2 ^ 32 = addr % pageSize := by
            unfold pageSize at *
            omega
          have hc : rounds = c := by omega
          have hle : pageSize * c ≤ pageSize * (addr / pageSize) := by
            apply Nat.mul_le_mul_left
            unfold pageSize at *
            omega
          have hdecomp := Nat.div_add_mod addr pageSize
          rw [hlast, hc]
          apply (protLoop_endless ?_ ?_).mono (fun _ _ h => h.elim) (fun _ _ _ => trivial)
          · omega
          · intro j hj
            have : pageSize * j ≤ pageSize * c := Nat.mul_le_mul_left _ (by omega)
            omega
    · rw [if_neg hlt]
      have hnone : ∀ q, ¬ Ahead limit addr q := by
        rintro q ⟨hq, hql⟩
        have := Nat.div_add_mod addr pageSize
        have : pageSize * (addr / pageSize) ≤ pageSize * q := Nat.mul_le_mul_left _ hq
        omega
      exact ⟨fun q hq => absurd hq (hnone q), (State.marked_none hnone).symm⟩

theorem outcome_imageProt (p : Part) :
    Outcome (imageProt p.offset p.size p.flags p.initialized)
      (fun _ s' => (∀ q, p.Hits q → q < s.npages) ∧
        s' = s.marked p.Hits p.flags p.initialized) (fun _ _ => True) s := by
  have hlt : p.first < 2 ^ 32 := Nat.mod_lt _ (by decide)
  by_cases hfirst : p.first < p.limit
  · apply outcome_protLoop hlt (show p.limit < 2 ^ 32 from Nat.mod_lt _ (by decide))
      (Nat.add_comm (p.first / pageSize) _)
    rw [Nat.div_add_mod]
    exact hfirst
  · have hnone : ∀ q, ¬ p.Hits q := by
      rintro q ⟨hq, hql⟩
      have := Nat.div_add_mod p.first pageSize
      have : pageSize * (p.first / pageSize) ≤ pageSize * q := Nat.mul_le_mul_left _ hq
      omega
    change Outcome (protLoop p.limit _ _ (2 ^ 32 / pageSize - 1 + 1) p.first) _ _ _
    rw [protLoop, if_neg hfirst]
    exact ⟨fun q hq => absurd hq (hnone q), (State.marked_none hnone).symm⟩

end

/-! ### Segments in the image -/

/-- A converted segment and its position in the image. -/
structure Placed where
  header : Phdr
  pos : Nat

/-- The calls of `image_prot` for the segment. -/
def Placed.parts (c : Placed) : List Part :=
  [⟨c.pos, c.header.filesz, c.header.flags, true⟩,
    ⟨c.pos + c.header.filesz, c.header.memsz - c.header.filesz, c.header.flags, false⟩]

/-- `fseek` takes the offset, if anything is read there. -/
def Phdr.Readable (p : Phdr) : Prop := p.filesz ≠ 0 → p.offset < 2 ^ 63

instance (p : Phdr) : Decidable p.Readable := by unfold Phdr.Readable; infer_instance

/-- What is read of the segment. -/
def Phdr.contents (input : List Byte) (p : Phdr) : List Byte :=
  (input.drop p.offset).take (p.filesz % 2 ^ 32)

/-- The image after the segments have been copied. -/
def imageOf (input : List Byte) (cs : List Placed) : Buffer :=
  cs.foldl (fun image c => overlay image c.pos (c.header.contents input)) fun _ => 0

theorem imageOf_concat (input : List Byte) (cs : List Placed) (c : Placed) :
    imageOf input (cs ++ [c]) = overlay (imageOf input cs) c.pos (c.header.contents input) := by
  unfold imageOf
  rw [List.foldl_append]
  rfl

section

variable {input : List Byte} {s : State} {parts : List Part} {cs : List Placed}

/-- The pages after calls of `image_prot`. -/
structure Marked (parts : List Part) (s : State) : Prop where
  npages : s.npages < 2 ^ 32
  pages : s.pages = pageOf parts
  inside : ∀ p ∈ parts, ∀ q, p.Hits q → q < s.npages

/-- The image after segments have been copied. -/
structure Filled (input : List Byte) (cs : List Placed) (s : State) : Prop where
  allocated : s.allocated = s.npages * pageSize % 2 ^ 32
  beyond : ∀ k, s.npages * pageSize ≤ k → s.image k = 0
  image : (∀ c ∈ cs, c.header.Readable) → s.image = imageOf input cs

theorem marked_start : Marked [] State.start := ⟨by decide, rfl, fun p hp => by cases hp⟩

theorem filled_start (input : List Byte) : Filled input [] State.start :=
  ⟨rfl, fun _ _ => rfl, fun _ => rfl⟩

theorem Marked.blank (h : Marked parts s) {q : Nat} (hq : s.npages ≤ q) : s.pages q = .blank := by
  rw [h.pages]
  apply pageOf_blank
  intro p hp hhit
  have := h.inside p hp q hhit
  omega

theorem outcome_imageProt_marked (p : Part) (h : Marked parts s) (hf : Filled input cs s) :
    Outcome (imageProt p.offset p.size p.flags p.initialized)
      (fun _ s' => Marked (parts ++ [p]) s' ∧ Filled input cs s' ∧ s'.base = s.base ∧
        s'.npages = s.npages)
      (fun _ _ => True) s := by
  apply (outcome_imageProt p).post
  rintro _ s' ⟨hin, rfl⟩
  refine ⟨⟨h.npages, ?_, ?_⟩, ⟨hf.allocated, hf.beyond, hf.image⟩, rfl, rfl⟩
  · funext q
    rw [pageOf_concat, State.marked, ← h.pages]
  · intro p' hp' q hhit
    rcases List.mem_append.mp hp' with hp' | hp'
    · exact h.inside p' hp' q hhit
    · rw [List.mem_singleton.mp hp'] at hhit
      exact hin q hhit

theorem outcome_cleared {start count allocated : Nat} {Q : Unit → State → Prop}
    (h : (0 < count → start + count ≤ allocated) → Q ⟨⟩ s) :
    Outcome (cleared start count allocated) Q (fun _ _ => True) s := by
  unfold cleared
  split
  · exact trivial
  · rename_i hc
    exact h fun hpos => by omega

/-- The image has room for `newsize` bytes, and for no more than 4 GiB. -/
def Grown (newsize : Nat) (s s' : State) : Prop :=
  s.npages ≤ s'.npages ∧ (newsize ≤ 2 ^ 32 →
    newsize ≤ s'.npages * pageSize ∧ (s.npages ≤ 2 ^ 18 → s'.npages ≤ 2 ^ 18))

theorem outcome_imageGrow {newsize : Nat} (h : Marked parts s) (hf : Filled input cs s) :
    Outcome (imageGrow newsize)
      (fun _ s' => Marked parts s' ∧ Filled input cs s' ∧ s'.base = s.base ∧ Grown newsize s s')
      (fun _ _ => True) s := by
  rw [imageGrow, Outcome.bind_iff, Outcome.get_iff]
  by_cases hnew : s.npages * pageSize < newsize
  · rw [if_pos hnew]
    dsimp only
    have hn : (newsize + pageSize - 1) % 2 ^ 64 / pageSize % 2 ^ 32 < 2 ^ 32 :=
      Nat.mod_lt _ (by decide)
    have hsize : newsize ≤ 2 ^ 32 →
        newsize ≤ (newsize + pageSize - 1) % 2 ^ 64 / pageSize % 2 ^ 32 * pageSize ∧
          (newsize + pageSize - 1) % 2 ^ 64 / pageSize % 2 ^ 32 ≤ 2 ^ 18 := by
      intro hle
      unfold pageSize
      omega
    generalize (newsize + pageSize - 1) % 2 ^ 64 / pageSize % 2 ^ 32 = npages at hn hsize ⊢
    by_cases hint : 2 ^ 31 ≤ s.npages * pageSize
    · rw [if_pos hint]
      exact trivial
    · rw [if_neg hint]
      change Outcome (cleared _ _ _ >>= _) _ _ _
      rw [Outcome.bind_iff]
      apply outcome_cleared
      intro _
      rw [Outcome.bind_iff]
      apply outcome_cleared
      intro hfresh
      have hold := h.npages
      have hle : s.npages ≤ npages := by
        by_contra hlt
        have := hfresh (by omega)
        omega
      have hmul : s.npages * pageSize ≤ npages * pageSize := Nat.mul_le_mul_right _ hle
      have himage : (fun k => if s.npages * pageSize ≤ k ∧ k < s.npages * pageSize +
          (npages + (2 ^ 32 - s.npages)) % 2 ^ 32 * pageSize % 2 ^ 32 then 0 else s.image k) =
          s.image := by
        funext k
        split
        · rename_i hk
          exact (hf.beyond k hk.1).symm
        · rfl
      have hpages : (fun q => if s.npages ≤ q ∧
          q < s.npages + (npages + (2 ^ 32 - s.npages)) % 2 ^ 32 then .blank else s.pages q) =
          s.pages := by
        funext q
        split
        · rename_i hq
          exact (h.blank hq.1).symm
        · rfl
      rw [himage, hpages]
      refine ⟨⟨hn, h.pages, fun p hp q hq => ?_⟩, ⟨rfl, fun k hk => hf.beyond k ?_, hf.image⟩, rfl,
        hle, fun hsmall => ⟨(hsize hsmall).1, fun _ => (hsize hsmall).2⟩⟩
      · exact Nat.lt_of_lt_of_le (h.inside p hp q hq) hle
      · exact Nat.le_trans hmul hk
  · rw [if_neg hnew]
    exact ⟨h, hf, rfl, Nat.le_refl _, fun _ => ⟨Nat.le_of_not_lt hnew, id⟩⟩

theorem outcome_store {dst : Nat} {data : List Byte} {Q : Unit → State → Prop}
    (h : dst + data.length ≤ s.allocated → Q ⟨⟩ { s with image := overlay s.image dst data }) :
    Outcome (store dst data) Q (fun _ _ => True) s := by
  rw [store, Outcome.bind_iff, Outcome.get_iff]
  split
  · exact trivial
  · exact h (by omega)

theorem overlay_nil (image : Buffer) (pos : Nat) : overlay image pos [] = image := by
  funext k
  exact overlay_outside (by simp; omega)

theorem outcome_copyLoop_zero {rounds dst : Nat} {Q : Unit → State → Prop} (h : Q ⟨⟩ s) :
    Outcome (copyLoop input rounds dst 0) Q (fun _ _ => True) s := by
  cases rounds with
  | zero => exact trivial
  | succ rounds =>
    rw [copyLoop, if_neg (by decide)]
    exact h

theorem outcome_copyLoop_eof {rounds dst total : Nat} (hpos : input.length ≤ s.pos)
    (htotal : 0 < total) :
    Outcome (copyLoop input rounds dst total) (fun _ _ => False) (fun _ _ => True) s := by
  cases rounds with
  | zero => exact trivial
  | succ rounds =>
    rw [copyLoop, if_pos htotal, Outcome.bind_iff]
    change Outcome (if (input.drop s.pos).take total = [] then _ else _) _ _ _
    rw [List.drop_eq_nil_of_le hpos, List.take_nil, if_pos rfl]
    exact trivial

theorem outcome_copyLoop {rounds dst total : Nat} :
    Outcome (copyLoop input rounds dst total)
      (fun _ s' => ((input.drop s.pos).take total).length = total ∧
        (0 < total → dst + total ≤ s.allocated) ∧
        s' = { s with
          pos := s.pos + total
          image := overlay s.image dst ((input.drop s.pos).take total) })
      (fun _ _ => True) s := by
  by_cases hzero : total = 0
  · subst hzero
    apply outcome_copyLoop_zero
    rw [List.take_zero, overlay_nil]
    exact ⟨rfl, fun h => absurd h (by decide), rfl⟩
  · cases rounds with
    | zero => exact trivial
    | succ rounds =>
      rw [copyLoop, if_pos (by omega), Outcome.bind_iff]
      generalize hdata : (input.drop s.pos).take total = data
      change Outcome (if (input.drop s.pos).take total = [] then _ else _) _ _ { s with
        pos := s.pos + ((input.drop s.pos).take total).length }
      rw [hdata]
      by_cases hnil : data = []
      · rw [if_pos hnil]
        exact trivial
      · rw [if_neg hnil, Outcome.bind_iff]
        apply outcome_store
        intro hroom
        have hlen : data.length = min total (input.length - s.pos) := by
          rw [← hdata, List.length_take, List.length_drop]
        by_cases hall : data.length = total
        · rw [hall, Nat.sub_self]
          apply outcome_copyLoop_zero
          rw [hall] at hroom
          exact ⟨rfl, fun _ => hroom, rfl⟩
        · apply (outcome_copyLoop_eof ?_ ?_).mono (fun _ _ h => h.elim) (fun _ _ _ => trivial)
          · dsimp only
            omega
          · omega

theorem outcome_fseek {offset : Nat} {Q : Unit → State → Prop} {E : Stop → State → Prop}
    (h : ∀ pos, (offset < 2 ^ 63 → pos = offset) → Q ⟨⟩ { s with pos := pos }) :
    Outcome (fseek offset) Q E s := by
  rw [fseek, Outcome.modify_iff]
  by_cases hoff : offset < 2 ^ 63
  · rw [if_pos hoff]
    exact h offset fun _ => rfl
  · rw [if_neg hoff]
    exact h s.pos fun h => absurd h hoff

/-- The whole segment was there. -/
def Placed.Read (input : List Byte) (c : Placed) : Prop :=
  c.header.filesz ≤ c.header.memsz ∧
    (c.header.Readable → (c.header.contents input).length = c.header.filesz % 2 ^ 32)

theorem contents_length {p : Phdr} (h : p.filesz = 0) : p.contents input = [] := by
  rw [Phdr.contents, h, Nat.zero_mod, List.take_zero]

/-- A segment is copied, and its two parts are marked. -/
theorem outcome_convertSegment {phdr : Phdr} (h : Marked parts s) (hf : Filled input cs s)
    (hbase : s.base ≤ phdr.vaddr) :
    Outcome (convertSegment input phdr)
      (fun _ s' => Marked (parts ++ Placed.parts ⟨phdr, phdr.vaddr - s.base⟩) s' ∧
        Filled input (cs ++ [⟨phdr, phdr.vaddr - s.base⟩]) s' ∧ s'.base = s.base ∧
        Placed.Read input ⟨phdr, phdr.vaddr - s.base⟩ ∧
        Grown ((phdr.vaddr + phdr.memsz + (2 ^ 64 - s.base)) % 2 ^ 64) s s')
      (fun _ _ => True) s := by
  rw [convertSegment, Outcome.bind_iff, Outcome.get_iff]
  by_cases hsize : phdr.memsz < phdr.filesz
  · rw [if_pos hsize]
    exact trivial
  · rw [if_neg hsize]
    change Outcome (imageGrow _ >>= _) _ _ _
    rw [Outcome.bind_iff]
    apply (outcome_imageGrow h hf).post
    rintro _ s₁ ⟨h₁, hf₁, hb₁, hgrown⟩
    rw [Outcome.bind_iff]
    apply outcome_fseek
    intro pos hpos
    rw [Outcome.bind_iff]
    apply outcome_copyLoop.post
    rintro _ s₂ ⟨hlen, hroom, hs₂⟩
    dsimp only at hlen hroom hs₂
    have hread : phdr.Readable →
        (input.drop pos).take (phdr.filesz % 2 ^ 32) = phdr.contents input := by
      intro hr
      by_cases hzero : phdr.filesz = 0
      · rw [contents_length hzero, hzero, Nat.zero_mod, List.take_zero]
      · rw [hpos (hr hzero), Phdr.contents]
    have h₂ : Marked parts s₂ := by
      rw [hs₂]
      exact ⟨h₁.npages, h₁.pages, h₁.inside⟩
    have hb₂ : s₂.base = s₁.base := by rw [hs₂]
    have hn₂ : s₂.npages = s₁.npages := by rw [hs₂]
    have hf₂ : Filled input (cs ++ [⟨phdr, phdr.vaddr - s.base⟩]) s₂ := by
      rw [hs₂]
      refine ⟨hf₁.allocated, fun k hk => ?_, fun hall => ?_⟩
      · dsimp only at hk ⊢
        rw [overlay_outside, hf₁.beyond k hk]
        by_cases htotal : 0 < phdr.filesz % 2 ^ 32
        · have hin := hroom htotal
          have hle : s₁.npages * pageSize % 2 ^ 32 ≤ s₁.npages * pageSize := Nat.mod_le _ _
          rw [hf₁.allocated] at hin
          omega
        · omega
      · dsimp only
        rw [imageOf_concat, hf₁.image fun c hc => hall c (by simp [hc]),
          hread (hall ⟨phdr, phdr.vaddr - s.base⟩ (by simp))]
    rw [Outcome.bind_iff]
    apply (outcome_imageProt_marked ⟨phdr.vaddr - s.base, phdr.filesz, phdr.flags, true⟩ h₂ hf₂).post
    rintro _ s₃ ⟨h₃, hf₃, hb₃, hn₃⟩
    have hsum : phdr.vaddr + phdr.filesz - s.base = phdr.vaddr - s.base + phdr.filesz := by omega
    rw [hsum]
    apply (outcome_imageProt_marked ⟨phdr.vaddr - s.base + phdr.filesz,
      phdr.memsz - phdr.filesz, phdr.flags, false⟩ h₃ hf₃).post
    rintro _ s₄ ⟨h₄, hf₄, hb₄, hn₄⟩
    refine ⟨?_, hf₄, by rw [hb₄, hb₃, hb₂, hb₁], ⟨Nat.le_of_not_lt hsize, fun hr => ?_⟩, ?_⟩
    · rw [List.append_assoc] at h₄
      exact h₄
    · rw [← hread hr]
      exact hlen
    · unfold Grown at hgrown ⊢
      rw [hn₄, hn₃, hn₂]
      exact hgrown

/-! ### The loop over the program headers -/

/-- The record that lies at a position of the file. -/
def recordAt (input : List Byte) (pos size : Nat) : Buffer :=
  fun i => ((input.drop pos).take size).getD i 0

theorem outcome_readRecord {size : Nat} {message : String} :
    Outcome (readRecord input size message)
      (fun r s' => r = recordAt input s.pos size ∧ s' = { s with pos := s.pos + size })
      (fun _ _ => True) s := by
  rw [readRecord, Outcome.bind_iff]
  change Outcome (if ((input.drop s.pos).take size).length ≠ size then _ else _) _ _ { s with
    pos := s.pos + ((input.drop s.pos).take size).length }
  split
  · exact trivial
  · rename_i hlen
    rw [not_not.mp hlen]
    exact ⟨rfl, rfl⟩

theorem field_lt (bytes : Buffer) (pos w : Nat) : field bytes pos w < 256 ^ w := ofBytes_lt _ w

/-- The program headers. -/
def headersFrom (input : List Byte) : (left inpos : Nat) → List Phdr
  | 0, _ => []
  | left + 1, inpos => .ofMemory (recordAt input inpos Phdr.sizeof) ::
      headersFrom input left ((inpos + Phdr.sizeof) % 2 ^ 32)

/-- `base` after a header: the first address that is not 0 stays. -/
def baseAfter (base : Nat) (p : Phdr) : Nat := if p.Loadable ∧ base = 0 then p.vaddr else base

/-- Segments below the base are left out. -/
def placedAt (base : Nat) (p : Phdr) : List Placed :=
  if p.Loadable ∧ base ≤ p.vaddr then [⟨p, p.vaddr - baseAfter base p⟩] else []

/-- The converted segments and their positions. -/
def conversions : (base : Nat) → List Phdr → List Placed
  | _, [] => []
  | base, p :: rest => placedAt base p ++ conversions (baseAfter base p) rest

def finalBase (base : Nat) (headers : List Phdr) : Nat := headers.foldl baseAfter base

/-- The state after the conversion of segments. -/
structure Built (input : List Byte) (cs : List Placed) (s : State) : Prop where
  marked : Marked (cs.flatMap Placed.parts) s
  filled : Filled input cs s
  read : ∀ c ∈ cs, c.Read input
  base : s.base < 2 ^ 64
  grown : (∀ c ∈ cs, c.pos + c.header.memsz ≤ 2 ^ 32) →
    s.npages ≤ 2 ^ 18 ∧ ∀ c ∈ cs, c.pos + c.header.memsz ≤ s.npages * pageSize

theorem outcome_convertSegment_built {phdr : Phdr} (h : Built input cs s)
    (hbase : s.base ≤ phdr.vaddr) :
    Outcome (convertSegment input phdr)
      (fun _ s' => Built input (cs ++ [⟨phdr, phdr.vaddr - s.base⟩]) s' ∧ s'.base = s.base)
      (fun _ _ => True) s := by
  apply (outcome_convertSegment h.marked h.filled hbase).post
  rintro _ s' ⟨hm, hf, hb, hr, hle, hgrown⟩
  refine ⟨⟨?_, hf, ?_, by rw [hb]; exact h.base, ?_⟩, hb⟩
  · rw [List.flatMap_append, List.flatMap_singleton]
    exact hm
  · intro c hc
    rcases List.mem_append.mp hc with hc | hc
    · exact h.read c hc
    · rw [List.mem_singleton.mp hc]
      exact hr
  · intro hsmall
    obtain ⟨hmax, hroom⟩ := h.grown fun c hc => hsmall c (List.mem_append_left _ hc)
    have hlast := hsmall ⟨phdr, phdr.vaddr - s.base⟩ (by simp)
    have hbase64 := h.base
    have hnew : (phdr.vaddr + phdr.memsz + (2 ^ 64 - s.base)) % 2 ^ 64 =
        phdr.vaddr - s.base + phdr.memsz := by
      dsimp only at hlast
      omega
    rw [hnew] at hgrown
    obtain ⟨hin, hmax'⟩ := hgrown hlast
    refine ⟨hmax' hmax, fun c hc => ?_⟩
    rcases List.mem_append.mp hc with hc | hc
    · exact Nat.le_trans (hroom c hc) (Nat.mul_le_mul_right _ hle)
    · rw [List.mem_singleton.mp hc]
      exact hin

theorem outcome_convertHeader {inpos : Nat} (h : Built input cs s) (hpos : inpos < 2 ^ 32) :
    Outcome (convertHeader input inpos)
      (fun _ s' =>
        Built input (cs ++ placedAt s.base (.ofMemory (recordAt input inpos Phdr.sizeof))) s' ∧
        s'.base = baseAfter s.base (.ofMemory (recordAt input inpos Phdr.sizeof)))
      (fun _ _ => True) s := by
  rw [convertHeader, Outcome.bind_iff]
  apply outcome_fseek
  intro pos hpos'
  rw [hpos' (by omega), Outcome.bind_iff]
  apply outcome_readRecord.post
  rintro _ s₁ ⟨rfl, hs₁⟩
  dsimp only at hs₁ ⊢
  have hvaddr : (Phdr.ofMemory (recordAt input inpos Phdr.sizeof)).vaddr < 2 ^ 64 := field_lt _ _ _
  generalize Phdr.ofMemory (recordAt input inpos Phdr.sizeof) = phdr at hvaddr ⊢
  have h₁ : ∀ base, base < 2 ^ 64 → Built input cs { s₁ with base := base } := by
    intro base hbase
    rw [hs₁]
    exact ⟨⟨h.marked.npages, h.marked.pages, h.marked.inside⟩,
      ⟨h.filled.allocated, h.filled.beyond, h.filled.image⟩, h.read, hbase, h.grown⟩
  have hb₁ : s₁.base = s.base := by rw [hs₁]
  by_cases hload : phdr.Loadable
  · rw [if_pos hload, Outcome.bind_iff, Outcome.get_iff, hb₁]
    by_cases hzero : s.base = 0
    · rw [if_pos hzero]
      change Outcome (convertSegment input phdr) _ _ { s₁ with base := phdr.vaddr }
      have hafter : baseAfter s.base phdr = phdr.vaddr := if_pos ⟨hload, hzero⟩
      rw [placedAt, if_pos ⟨hload, by omega⟩, hafter]
      exact outcome_convertSegment_built (h₁ _ hvaddr) (Nat.le_refl phdr.vaddr)
    · rw [if_neg hzero]
      have hafter : baseAfter s.base phdr = s.base := if_neg fun hc => hzero hc.2
      by_cases hle : s.base ≤ phdr.vaddr
      · rw [if_pos hle, placedAt, if_pos ⟨hload, hle⟩, hafter, ← hb₁]
        exact outcome_convertSegment_built (h₁ s₁.base (hb₁ ▸ h.base)) (hb₁ ▸ hle)
      · rw [if_neg hle, placedAt, if_neg fun hc => hle hc.2, hafter, List.append_nil]
        exact ⟨h₁ s₁.base (hb₁ ▸ h.base), hb₁⟩
  · rw [if_neg hload, placedAt, if_neg fun hc => hload hc.1, List.append_nil]
    have hafter : baseAfter s.base phdr = s.base := if_neg fun hc => hload hc.1
    rw [hafter]
    exact ⟨h₁ s₁.base (hb₁ ▸ h.base), hb₁⟩

theorem outcome_convertHeaders {left inpos : Nat} (h : Built input cs s) (hpos : inpos < 2 ^ 32) :
    Outcome (convertHeaders input left inpos)
      (fun _ s' => Built input (cs ++ conversions s.base (headersFrom input left inpos)) s' ∧
        s'.base = finalBase s.base (headersFrom input left inpos)) (fun _ _ => True) s := by
  induction left generalizing inpos cs s with
  | zero =>
    rw [headersFrom, conversions, List.append_nil]
    exact ⟨h, rfl⟩
  | succ left ih =>
    rw [convertHeaders, Outcome.bind_iff]
    apply (outcome_convertHeader h hpos).post
    rintro _ s₁ ⟨h₁, hb₁⟩
    apply (ih h₁ (Nat.mod_lt _ (by decide))).post
    rintro _ s₂ ⟨h₂, hb₂⟩
    rw [hb₁] at h₂ hb₂
    rw [List.append_assoc] at h₂
    exact ⟨h₂, hb₂⟩

end

end Egos.ElfCvt
