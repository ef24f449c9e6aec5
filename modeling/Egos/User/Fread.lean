import Egos.Lib.Program
import Egos.User.Stream
import Mathlib.Data.List.Infix

/-!
# What `fread` returns

The bytes in the input buffer are the next ones of the file, and `fread` hands them on in whole items,
as long as no pass of its loop takes items, leaves a part of one and goes on.
-/
namespace Egos.Stdio

open Egos.Lib Egos.Disk

set_option autoImplicit false

variable {σ : Type}

theorem Stream.buffered_of_offset {st : Stream} (h : st.inOffset = 0) : st.buffered = st.inSize := by
  rw [Stream.buffered, h, Nat.sub_zero]

theorem map_overlay {buffer : Buffer} {pos n : Nat} {data : List Byte} (hn : n = data.length) :
    ((List.range n).map fun i => overlay buffer pos data (pos + i)) = data := by
  subst hn
  apply List.ext_getElem
  · simp
  · intro i hi hi'
    simp [overlay_inside hi', hi']

theorem map_overlay_append {buffer : Buffer} {n : Nat} {data : List Byte} :
    (List.range (n + data.length)).map (overlay buffer n data) =
      (List.range n).map buffer ++ data := by
  rw [List.range_add, List.map_append, List.map_map]
  congr 1
  · apply List.map_congr_left
    intro i hi
    exact overlay_outside (.inl (List.mem_range.mp hi))
  · exact map_overlay rfl

/-- The bytes in the input buffer. -/
def Stream.ahead (st : Stream) : List Byte :=
  (List.range st.buffered).map fun i => st.inBuf (st.inOffset + i)

@[simp] theorem Stream.length_ahead (st : Stream) : st.ahead.length = st.buffered := by
  simp [Stream.ahead]

/-- The bytes in the input buffer are the next ones of the file `C`. -/
structure Stream.Holds (st : Stream) (C : List Byte) : Prop where
  pos_lt : st.pos < 2 ^ 64
  offset_le : st.inOffset ≤ st.inSize
  size_le : st.inSize ≤ bufsiz
  rewound : st.inOffset = st.inSize → st.inSize = 0
  ahead : st.ahead <+: C.drop st.pos

section

variable {st : Stream} {C : List Byte} {size nitems : Nat}

theorem Stream.Holds.offset_eq (h : st.Holds C) (hempty : st.buffered = 0) : st.inOffset = 0 := by
  have hle := h.offset_le
  have heq : st.inOffset = st.inSize := by
    unfold Stream.buffered at hempty
    omega
  rw [heq]
  exact h.rewound heq

theorem Stream.Holds.buffered_le (h : st.Holds C) : st.buffered ≤ C.length - st.pos := by
  have hle := h.ahead.length_le
  rw [Stream.length_ahead, List.length_drop] at hle
  exact hle

theorem Stream.Holds.wrap_pos (h : st.Holds C) (hC : C.length < 2 ^ 64) {n : Nat}
    (hn : n ≤ st.buffered) : wrap (st.pos + n) = st.pos + n := by
  have hle := h.buffered_le
  have hpos := h.pos_lt
  apply Nat.mod_eq_of_lt
  omega

/-- What the loop takes from the buffer: as many whole items as there are and as are wanted. -/
structure Stream.Takes (st : Stream) (size nitems : Nat) (bytes : List Byte) (ni : Nat)
    (taken : Stream) : Prop where
  number : ni = min (st.buffered / size) nitems
  bytes : bytes = st.ahead.take (ni * size)
  ahead : taken.ahead = st.ahead.drop (ni * size)
  pos : taken.pos = wrap (st.pos + ni * size)
  offset_le : taken.inOffset ≤ taken.inSize
  size_le : taken.inSize ≤ st.inSize
  rewound : taken.inOffset = taken.inSize → taken.inSize = 0
  index : taken.index = st.index
  eof : taken.eof = st.eof
  error : taken.error = st.error

theorem Stream.take_ahead {n : Nat} (hn : n ≤ st.buffered) :
    (List.range n).map (fun i => st.inBuf (st.inOffset + i)) = st.ahead.take n := by
  unfold Stream.ahead
  rw [← List.map_take, List.take_range, Nat.min_eq_left hn]

theorem Stream.takes_takeItems (h : st.Holds C) :
    st.Takes size nitems (st.takeItems size nitems).1 (st.takeItems size nitems).2.1
      (st.takeItems size nitems).2.2 := by
  have hle := h.offset_le
  have hend : st.inOffset + st.buffered = st.inSize := by
    unfold Stream.buffered
    omega
  unfold Stream.takeItems
  split
  · have hn : min (st.buffered / size) nitems * size ≤ st.buffered :=
      (Nat.mul_le_mul_right size (Nat.min_le_left _ _)).trans (Nat.div_mul_le_self _ _)
    dsimp only
    constructor
    · rfl
    · exact st.take_ahead hn
    · generalize min (st.buffered / size) nitems * size = n at hn
      apply List.ext_getElem
      · rw [Stream.length_ahead, List.length_drop, Stream.length_ahead]
        unfold Stream.buffered
        dsimp only
        split
        · omega
        · omega
      · intro i hi _
        rw [Stream.length_ahead] at hi
        unfold Stream.buffered at hi
        dsimp only at hi
        rw [List.getElem_drop]
        simp only [Stream.ahead, List.getElem_map, List.getElem_range]
        split
        · rename_i heq
          rw [if_pos heq, if_pos heq] at hi
          exact absurd hi (Nat.not_lt_zero _)
        · rw [Nat.add_assoc]
    · rfl
    · dsimp only
      split
      · exact Nat.le_refl _
      · omega
    · dsimp only
      split
      · exact Nat.zero_le _
      · exact Nat.le_refl _
    · dsimp only
      split
      · exact fun _ => rfl
      · exact fun heq => absurd heq ‹_›
    · rfl
    · rfl
    · rfl
  · rename_i hlt
    have hnone : st.buffered / size = 0 := Nat.div_eq_of_lt (Nat.lt_of_not_le hlt)
    constructor
    · simp [hnone]
    · simp
    · simp
    · change st.pos = wrap (st.pos + 0 * size)
      rw [Nat.zero_mul]
      exact (Nat.mod_eq_of_lt h.pos_lt).symm
    · exact hle
    · exact Nat.le_refl _
    · exact h.rewound
    · rfl
    · rfl
    · rfl

theorem Stream.Takes.le {bytes : List Byte} {ni : Nat} {taken : Stream}
    (h : st.Takes size nitems bytes ni taken) : ni * size ≤ st.buffered := by
  rw [h.number]
  exact (Nat.mul_le_mul_right size (Nat.min_le_left _ _)).trans (Nat.div_mul_le_self _ _)

theorem Stream.Takes.buffered {bytes : List Byte} {ni : Nat} {taken : Stream}
    (h : st.Takes size nitems bytes ni taken) : taken.buffered = st.buffered - ni * size := by
  rw [← Stream.length_ahead, h.ahead, List.length_drop, Stream.length_ahead]

/-- What is left in the buffer follows what was taken. -/
theorem Stream.Takes.holds {bytes : List Byte} {ni : Nat} {taken : Stream}
    (h : st.Takes size nitems bytes ni taken) (hC : C.length < 2 ^ 64) (hst : st.Holds C) :
    taken.pos = st.pos + ni * size ∧ taken.Holds C := by
  have hle := h.le
  have hpos : taken.pos = st.pos + ni * size := h.pos.trans (hst.wrap_pos hC hle)
  have hfile := hst.buffered_le
  have hlt := hst.pos_lt
  constructor
  · exact hpos
  constructor
  · omega
  · exact h.offset_le
  · exact h.size_le.trans hst.size_le
  · exact h.rewound
  · rw [h.ahead, hpos, ← List.drop_drop]
    exact hst.ahead.drop _

theorem Stream.Takes.bytes_eq {bytes : List Byte} {ni : Nat} {taken : Stream}
    (h : st.Takes size nitems bytes ni taken) (hst : st.Holds C) :
    bytes = (C.drop st.pos).take (ni * size) := by
  have hle := h.le
  obtain ⟨rest, hrest⟩ := hst.ahead
  rw [h.bytes, ← hrest, List.take_append_of_le_length (by rw [Stream.length_ahead]; exact hle)]

/-! ## The rest of a pass -/

/-- The `memmove` is right if `buffered` is up to date, or if nothing is left. -/
theorem Stream.Holds.moveDown (h : st.Holds C) {buffered : Nat}
    (hb : buffered = st.buffered ∨ st.buffered = 0) :
    (st.moveDown buffered).Holds C ∧ (st.moveDown buffered).inOffset = 0 ∧
      (st.moveDown buffered).buffered = st.buffered := by
  have hle := h.offset_le
  have hsize := h.size_le
  unfold Stream.moveDown
  split
  · rename_i hmove
    have hfull : buffered = st.buffered := by
      rcases hb with hb | hb
      · exact hb
      · have hzero := h.offset_eq hb
        omega
    subst hfull
    constructor
    · constructor
      · exact h.pos_lt
      · exact Nat.zero_le _
      · unfold Stream.buffered
        dsimp only
        omega
      · exact fun heq => heq.symm
      · have hsame : ((List.range st.buffered).map fun i =>
            overlay st.inBuf 0 st.ahead (0 + i)) <+: C.drop st.pos := by
          rw [map_overlay st.length_ahead.symm]
          exact h.ahead
        exact hsame
    · exact ⟨rfl, rfl⟩
  · rename_i hmove
    constructor
    · exact h
    constructor
    · by_cases hzero : st.buffered = 0
      · exact h.offset_eq hzero
      · omega
    · rfl

theorem Stream.Holds.filled (h : st.Holds C) (h0 : st.inOffset = 0) {data : List Byte}
    (hdata : data <+: (C.drop (st.pos + st.inSize)).take (bufsiz - st.inSize)) :
    (st.filled data).Holds C ∧ (st.filled data).buffered = st.buffered + data.length := by
  have hsize := h.size_le
  have hb := Stream.buffered_of_offset h0
  have hlen := hdata.length_le
  rw [List.length_take] at hlen
  have hb' : (st.filled data).buffered = st.inSize + data.length := by
    unfold Stream.filled Stream.buffered
    rw [h0, Nat.sub_zero]
  have hahead : (st.filled data).ahead = st.ahead ++ data := by
    have hcopy : (List.range (st.inSize + data.length)).map (overlay st.inBuf st.inSize data) =
        (List.range st.inSize).map st.inBuf ++ data := map_overlay_append
    unfold Stream.ahead
    rw [hb', hb, h0]
    change (List.range _).map (fun i => overlay st.inBuf st.inSize data (st.inOffset + i)) = _
    simp only [h0, Nat.zero_add]
    exact hcopy
  constructor
  · constructor
    · exact h.pos_lt
    · exact Nat.le_trans h.offset_le (Nat.le_add_right _ _)
    · change st.inSize + data.length ≤ bufsiz
      omega
    · intro heq
      exact heq.symm.trans h0
    · obtain ⟨rest, hrest⟩ := h.ahead
      rw [hahead]
      change st.ahead ++ data <+: C.drop st.pos
      rw [← List.drop_drop, ← hrest, ← hb, ← st.length_ahead, List.drop_left] at hdata
      rw [← hrest, List.prefix_append_right_inj]
      exact hdata.trans (List.take_prefix _ _)
  · rw [hb', hb]

end

/-! ## File servers -/

section

variable {srv : FileServer σ} {contents : σ → List Byte}

/-- Reads return bytes of a file from the offset on, no more than requested and maybe fewer, and
leave the file as it is. -/
structure Faithful (srv : FileServer σ) (contents : σ → List Byte) : Prop where
  read : ∀ s offset count, ∃ data, (srv.read offset count s).1 = some data ∧
    data <+: ((contents s).drop offset).take count
  kept : ∀ s offset count, contents (srv.read offset count s).2 = contents s

/-- No read is short before the end of the file. -/
def Prompt (srv : FileServer σ) (contents : σ → List Byte) : Prop :=
  ∀ s offset count, (srv.read offset count s).1 = some (((contents s).drop offset).take count)

/-- A read returns less than requested. -/
def Short (srv : FileServer σ) (s : σ) (offset count : Nat) : Prop :=
  ((srv.read offset count s).1.getD []).length < count

/-- A stream that has been read from: no output is pending, and what is buffered is of the file `C`. -/
structure Ready (contents : σ → List Byte) (C : List Byte) (w : World σ) : Prop where
  contents_eq : contents w.server = C
  holds : w.stream.Holds C
  index : w.stream.index = 0
  error : w.stream.error = false

/-- No pass of the loop takes items, leaves a part of one and goes on: not the first one, and, as the
buffer is full when another one follows, none of the later ones. -/
def Clean (srv : FileServer σ) (w : World σ) (size nitems : Nat) : Prop :=
  w.stream.eof = true ∨
    (w.stream.buffered < size ∨ size ∣ w.stream.buffered ∨ nitems ≤ w.stream.buffered / size) ∧
    (size ∣ bufsiz ∨ nitems ≤ w.stream.buffered / size + bufsiz / size ∨
      Short srv w.server (w.stream.pos + w.stream.buffered) (bufsiz - w.stream.buffered % size))

/-- `ni` items have been read. -/
structure Reads (contents : σ → List Byte) (C : List Byte) (w : World σ) (size nitems ni : Nat)
    (bytes : List Byte) (w' : World σ) : Prop where
  le : ni ≤ nitems
  bytes_eq : bytes = (C.drop w.stream.pos).take (ni * size)
  length : bytes.length = ni * size
  pos : w'.stream.pos = w.stream.pos + ni * size
  ready : Ready contents C w'

/-- The buffer goes up to the end of the file. -/
def AtEnd (C : List Byte) (w : World σ) : Prop := C.length ≤ w.stream.pos + w.stream.buffered

end

/-! ## The loop -/

section

variable {srv : FileServer σ} {contents : σ → List Byte} {C : List Byte} {size nitems : Nat}
variable {w w' w'' w₃ : World σ}

theorem outcome_theStream {Q : Stream → World σ → Prop} {E : Stop → World σ → Prop} :
    Outcome theStream Q E w ↔ Q w.stream w := Iff.rfl

theorem outcome_modifyStream {Q : Unit → World σ → Prop} {E : Stop → World σ → Prop}
    (f : Stream → Stream) :
    Outcome (modifyStream f) Q E w ↔ Q () { w with stream := f w.stream } := Iff.rfl

theorem outcome_onServer {α : Type} {Q : α → World σ → Prop} {E : Stop → World σ → Prop}
    (m : StateM σ α) :
    Outcome (onServer m) Q E w ↔ Q (m w.server).1 { w with server := (m w.server).2 } := Iff.rfl

theorem Ready.takes (h : Ready contents C w) (hC : C.length < 2 ^ 64) {bytes : List Byte} {ni : Nat}
    {taken : Stream} (ht : w.stream.Takes size nitems bytes ni taken) :
    Reads contents C w size nitems ni bytes { w with stream := taken } := by
  obtain ⟨hpos, hholds⟩ := ht.holds hC h.holds
  constructor
  · rw [ht.number]
    exact Nat.min_le_right _ _
  · exact ht.bytes_eq h.holds
  · rw [ht.bytes, List.length_take, Stream.length_ahead]
    exact Nat.min_eq_left ht.le
  · exact hpos
  · constructor
    · exact h.contents_eq
    · exact hholds
    · exact ht.index.trans h.index
    · exact ht.error.trans h.error

theorem Reads.append {ni ni' : Nat} {bytes bytes' : List Byte}
    (h : Reads contents C w size nitems ni bytes w')
    (h' : Reads contents C w'' size (nitems - ni) ni' bytes' w₃)
    (hpos : w''.stream.pos = w'.stream.pos) :
    Reads contents C w size nitems (ni + ni') (bytes ++ bytes') w₃ := by
  have hle := h.le
  have hle' := h'.le
  constructor
  · omega
  · rw [h.bytes_eq, h'.bytes_eq, hpos, h.pos, Nat.add_mul, List.take_add, List.drop_drop]
  · rw [List.length_append, h.length, h'.length, Nat.add_mul]
  · rw [h'.pos, hpos, h.pos, Nat.add_mul, Nat.add_assoc]
  · exact h'.ready

/-- How many items there are is not changed by reading some. -/
theorem count_append {ni ni' pos : Nat} (hsize : 0 < size) (hle : ni ≤ nitems)
    (hfile : ni * size ≤ C.length - pos)
    (h : ni' = min (nitems - ni) ((C.length - (pos + ni * size)) / size)) :
    ni + ni' = min nitems ((C.length - pos) / size) := by
  have hin : ni ≤ (C.length - pos) / size := (Nat.le_div_iff_mul_le hsize).mpr hfile
  have hdiv : (C.length - (pos + ni * size)) / size = (C.length - pos) / size - ni := by
    rw [Nat.sub_add_eq, Nat.mul_comm, Nat.sub_mul_div]
  rw [hdiv] at h
  omega

/-- At the end of a file, the items that are buffered are all that there are. -/
theorem AtEnd.count (h : AtEnd C w) (hholds : w.stream.Holds C) :
    w.stream.buffered = C.length - w.stream.pos := by
  have hle := hholds.buffered_le
  unfold AtEnd at h
  omega

theorem AtEnd.takes (h : AtEnd C w) {bytes : List Byte} {ni : Nat} {taken : Stream}
    (ht : w.stream.Takes size nitems bytes ni taken) (hpos : taken.pos = w.stream.pos + ni * size) :
    AtEnd C { w with stream := taken } := by
  have hle := ht.le
  unfold AtEnd at h ⊢
  dsimp only
  rw [hpos, ht.buffered]
  omega

/-- The last pass: everything that is wanted is there, or there is nothing more to read. -/
theorem Ready.count (h : Ready contents C w) {bytes : List Byte} {ni : Nat}
    {taken : Stream} (ht : w.stream.Takes size nitems bytes ni taken)
    (hlast : nitems - ni = 0 ∨ AtEnd C w) :
    ni = min nitems ((C.length - w.stream.pos) / size) := by
  have hnumber := ht.number
  rcases hlast with hall | hend
  · have hle : w.stream.buffered / size ≤ (C.length - w.stream.pos) / size :=
      Nat.div_le_div_right h.holds.buffered_le
    omega
  · rw [hnumber, hend.count h.holds, Nat.min_comm]

/-- The stream before the buffer is filled again: at its beginning lies the part of an item. -/
structure Stream.Rewound (st moved : Stream) (C : List Byte) (size : Nat) : Prop where
  holds : moved.Holds C
  inOffset : moved.inOffset = 0
  inSize : moved.inSize = st.buffered % size
  pos : moved.pos = st.pos + st.buffered / size * size
  index : moved.index = st.index
  error : moved.error = st.error
  eof : moved.eof = st.eof

theorem Stream.moveDown_flags (st : Stream) (buffered : Nat) :
    (st.moveDown buffered).pos = st.pos ∧ (st.moveDown buffered).index = st.index ∧
      (st.moveDown buffered).error = st.error ∧ (st.moveDown buffered).eof = st.eof := by
  unfold Stream.moveDown
  split
  · exact ⟨rfl, rfl, rfl, rfl⟩
  · exact ⟨rfl, rfl, rfl, rfl⟩

/-- If nothing or everything was taken, the `memmove` keeps what is left. -/
theorem Stream.Takes.rewound_moveDown {st taken : Stream} {bytes : List Byte} {ni : Nat}
    (ht : st.Takes size nitems bytes ni taken) (hC : C.length < 2 ^ 64) (h : st.Holds C)
    (hmore : nitems - ni ≠ 0) (hfirst : st.buffered < size ∨ size ∣ st.buffered) :
    st.Rewound (taken.moveDown st.buffered) C size := by
  obtain ⟨hpos, hholds⟩ := ht.holds hC h
  have hni : ni = st.buffered / size := by
    have hnumber := ht.number
    omega
  have hleft : taken.buffered = st.buffered % size := by
    have hdiv := Nat.div_add_mod' st.buffered size
    rw [ht.buffered, hni]
    omega
  have hfresh : st.buffered = taken.buffered ∨ taken.buffered = 0 := by
    rcases hfirst with hlt | hdvd
    · exact .inl (by rw [hleft, Nat.mod_eq_of_lt hlt])
    · exact .inr (by rw [hleft, Nat.mod_eq_zero_of_dvd hdvd])
  obtain ⟨hmoved, hzero, hb⟩ := hholds.moveDown hfresh
  obtain ⟨hmpos, hmindex, hmerror, hmeof⟩ := taken.moveDown_flags st.buffered
  have hin : (taken.moveDown st.buffered).inSize = st.buffered % size := by
    rw [← hleft, ← hb, Stream.buffered_of_offset hzero]
  constructor
  · exact hmoved
  · exact hzero
  · exact hin
  · rw [hmpos, hpos, hni]
  · exact hmindex.trans ht.index
  · exact hmerror.trans ht.error
  · exact hmeof.trans ht.eof

/-- The next read is of the bytes behind those that were buffered. -/
theorem Stream.Rewound.next {st moved : Stream} (h : st.Rewound moved C size) :
    moved.pos + moved.inSize = st.pos + st.buffered := by
  rw [h.pos, h.inSize, Nat.add_assoc, Nat.div_add_mod']

theorem Ready.filled {moved : Stream} {server : σ} {data : List Byte} (h : Ready contents C w)
    (hm : w.stream.Rewound moved C size) (hserver : contents server = C)
    (hdata : data <+: (C.drop (moved.pos + moved.inSize)).take (bufsiz - moved.inSize)) :
    Ready contents C ⟨moved.filled data, server⟩ ∧
      (moved.filled data).buffered = w.stream.buffered % size + data.length := by
  obtain ⟨hholds, hb⟩ := hm.holds.filled hm.inOffset hdata
  constructor
  · constructor
    · exact hserver
    · exact hholds
    · exact hm.index.trans h.index
    · exact hm.error.trans h.error
  · rw [hb, Stream.buffered_of_offset hm.inOffset, hm.inSize]

theorem Clean.next {moved : Stream} {server : σ} {data : List Byte} {ni : Nat}
    (hnumber : ni = min (w.stream.buffered / size) nitems) (hmore : nitems - ni ≠ 0)
    (hlater : size ∣ bufsiz ∨ nitems ≤ w.stream.buffered / size + bufsiz / size)
    (hfull : (moved.filled data).buffered = bufsiz) :
    Clean srv ⟨moved.filled data, server⟩ size (nitems - ni) := by
  right
  dsimp only
  rw [hfull]
  rcases hlater with hdvd | hle
  · exact ⟨.inr (.inl hdvd), .inl hdvd⟩
  · have hleft : nitems - ni ≤ bufsiz / size := by omega
    exact ⟨.inr (.inr hleft), .inr (.inl (by omega))⟩

/-- A read that is short, or that returns nothing, has come to the end of the file. -/
theorem atEnd_filled {moved : Stream} {server : σ} {data : List Byte}
    (hdata : data = (C.drop (moved.pos + moved.inSize)).take (bufsiz - moved.inSize))
    (hb : (moved.filled data).buffered = moved.inSize + data.length)
    (hshort : data.length < bufsiz - moved.inSize) : AtEnd C ⟨moved.filled data, server⟩ := by
  have hlen : data.length = min (bufsiz - moved.inSize) (C.length - (moved.pos + moved.inSize)) := by
    rw [hdata, List.length_take, List.length_drop]
  unfold AtEnd
  dsimp only
  rw [hb]
  change C.length ≤ moved.pos + _
  omega

/-- The state in which the next pass begins. -/
structure Next (srv : FileServer σ) (contents : σ → List Byte) (C : List Byte) (w : World σ)
    (size nitems ni : Nat) (short : Bool) (w' : World σ) : Prop where
  ready : Ready contents C w'
  pos : w'.stream.pos = w.stream.pos + ni * size
  clean : short = true ∨ Clean srv w' size (nitems - ni)
  filled : short = true ∨ size ≤ w'.stream.buffered
  atEnd : Prompt srv contents → short = true ∨ w'.stream.eof = true → AtEnd C w'

theorem next_filled (hsize : 0 < size) (hmax : size ≤ bufsiz) (h : Ready contents C w)
    {bytes : List Byte} {ni : Nat} {taken moved : Stream} {read : List Byte} {server : σ}
    (ht : w.stream.Takes size nitems bytes ni taken) (hwanted : nitems - ni ≠ 0)
    (hnoteof : w.stream.eof ≠ true) (hm : w.stream.Rewound moved C size)
    (hserver : contents server = C)
    (hread : (srv.read (w.stream.pos + w.stream.buffered) (bufsiz - w.stream.buffered % size)
      w.server).1 = some read)
    (hinitial : read <+: (C.drop (w.stream.pos + w.stream.buffered)).take
      (bufsiz - w.stream.buffered % size))
    (hlater : size ∣ bufsiz ∨ nitems ≤ w.stream.buffered / size + bufsiz / size ∨
      Short srv w.server (w.stream.pos + w.stream.buffered) (bufsiz - w.stream.buffered % size)) :
    Next srv contents C w size nitems ni
      (decide (read.length < bufsiz - w.stream.buffered % size)) ⟨moved.filled read, server⟩ := by
  have hnumber := ht.number
  rw [← hm.next, ← hm.inSize] at hinitial
  obtain ⟨hready, hb⟩ := h.filled hm hserver hinitial
  have hroom : w.stream.buffered % size < bufsiz :=
    Nat.lt_of_lt_of_le (Nat.mod_lt _ hsize) hmax
  have hlen : read.length ≤ bufsiz - w.stream.buffered % size := by
    have hle := hinitial.length_le
    rw [List.length_take, hm.inSize] at hle
    omega
  -- a read that is not short fills the buffer
  have hfull : ¬ read.length < bufsiz - w.stream.buffered % size →
      (moved.filled read).buffered = bufsiz := by
    intro hlt
    omega
  constructor
  · exact hready
  · change moved.pos = _
    rw [hm.pos, hnumber, Nat.min_eq_left (by omega)]
  · by_cases hlt : read.length < bufsiz - w.stream.buffered % size
    · exact .inl (decide_eq_true hlt)
    · right
      apply Clean.next hnumber hwanted _ (hfull hlt)
      rcases hlater with hdvd | hle | hshort
      · exact .inl hdvd
      · exact .inr hle
      · unfold Short at hshort
        rw [hread] at hshort
        exact absurd hshort hlt
  · by_cases hlt : read.length < bufsiz - w.stream.buffered % size
    · exact .inl (decide_eq_true hlt)
    · right
      change size ≤ (moved.filled read).buffered
      rw [hfull hlt]
      exact hmax
  · intro hprompt hend
    have hwhole := hprompt w.server (w.stream.pos + w.stream.buffered)
      (bufsiz - w.stream.buffered % size)
    rw [hread, h.contents_eq, ← hm.next, ← hm.inSize] at hwhole
    apply atEnd_filled (Option.some.inj hwhole)
    · rw [hb, hm.inSize]
    · rw [hm.inSize]
      rcases hend with hshort | heof
      · exact of_decide_eq_true hshort
      · change (moved.eof || read.isEmpty) = true at heof
        rw [hm.eof, Bool.eq_false_of_not_eq_true hnoteof, Bool.false_or, List.isEmpty_iff] at heof
        rw [heof, List.length_nil]
        omega

/-- One pass: it takes items, and is the last one, or reads and goes on. -/
theorem outcome_pass {Q : Nat × List Byte → World σ → Prop} {E : Stop → World σ → Prop}
    {left total : Nat} {short : Bool} {data : List Byte} (hsrv : Faithful srv contents)
    (hC : C.length < 2 ^ 64) (hsize : 0 < size) (hmax : size ≤ bufsiz) (h : Ready contents C w)
    (hclean : short = true ∨ Clean srv w size nitems) :
    ∃ ni bytes taken, w.stream.Takes size nitems bytes ni taken ∧
      ((nitems - ni = 0 ∨ short = true ∨ w.stream.eof = true) ∧
          (Q (total + ni, data ++ bytes) { w with stream := taken } →
            Outcome (freadLoop srv size (left + 1) nitems total short data) Q E w) ∨
        (nitems - ni ≠ 0 ∧ short ≠ true ∧ w.stream.eof ≠ true) ∧
          ∃ short' w', Next srv contents C w size nitems ni short' w' ∧
            (Outcome (freadLoop srv size left (nitems - ni) (total + ni) short' (data ++ bytes))
                Q E w' →
              Outcome (freadLoop srv size (left + 1) nitems total short data) Q E w)) := by
  refine ⟨_, _, _, Stream.takes_takeItems h.holds, ?_⟩
  have ht : w.stream.Takes size nitems (w.stream.takeItems size nitems).1
    (w.stream.takeItems size nitems).2.1 (w.stream.takeItems size nitems).2.2 :=
      Stream.takes_takeItems h.holds
  rw [freadLoop]
  simp only [Outcome.bind_iff, outcome_theStream, outcome_modifyStream]
  revert ht
  generalize (w.stream.takeItems size nitems).1 = bytes
  generalize (w.stream.takeItems size nitems).2.1 = ni
  generalize (w.stream.takeItems size nitems).2.2 = taken
  intro ht
  rw [ht.eof]
  by_cases hdone : nitems - ni = 0 ∨ short = true ∨ w.stream.eof = true
  · left
    rw [if_pos hdone]
    exact ⟨hdone, id⟩
  · right
    rw [if_neg hdone]
    rw [not_or, not_or] at hdone
    obtain ⟨hwanted, hnotshort, hnoteof⟩ := hdone
    obtain ⟨hfirst, hlater⟩ := (hclean.resolve_left hnotshort).resolve_left hnoteof
    have hpart : w.stream.buffered < size ∨ size ∣ w.stream.buffered := by
      have hnumber := ht.number
      rcases hfirst with hlt | hdvd | hle
      · exact .inl hlt
      · exact .inr hdvd
      · omega
    have hm := ht.rewound_moveDown hC h.holds hwanted hpart
    have hwrap : wrap ((taken.moveDown w.stream.buffered).pos +
        (taken.moveDown w.stream.buffered).inSize) = w.stream.pos + w.stream.buffered := by
      rw [hm.next]
      exact h.holds.wrap_pos hC (Nat.le_refl _)
    obtain ⟨read, hread, hinitial⟩ := hsrv.read w.server (w.stream.pos + w.stream.buffered)
      (bufsiz - w.stream.buffered % size)
    have hkept := hsrv.kept w.server (w.stream.pos + w.stream.buffered)
      (bufsiz - w.stream.buffered % size)
    rw [h.contents_eq] at hinitial hkept
    refine ⟨⟨hwanted, hnotshort, hnoteof⟩, _, _, next_filled hsize hmax h ht hwanted hnoteof hm hkept
      hread hinitial hlater, ?_⟩
    intro hrest
    rw [if_neg (not_not.mpr hm.inOffset)]
    rw [Outcome.bind_iff, outcome_modifyStream, Outcome.bind_iff, outcome_onServer, hwrap, hm.inSize,
      hread]
    dsimp only
    rw [Outcome.bind_iff, outcome_modifyStream, Bool.eq_false_of_not_eq_true hnotshort]
    exact hrest

/-- How the loop ends: with some items, and with all that there are if no read is short. -/
def Finishes (srv : FileServer σ) (contents : σ → List Byte) (C : List Byte) (w : World σ)
    (size nitems total : Nat) (short : Bool) (data : List Byte) (r : Nat × List Byte)
    (w' : World σ) : Prop :=
  ∃ ni bytes, r = (total + ni, data ++ bytes) ∧ Reads contents C w size nitems ni bytes w' ∧
    (Prompt srv contents → (short = true ∨ w.stream.eof = true → AtEnd C w) →
      ni = min nitems ((C.length - w.stream.pos) / size) ∧ (w'.stream.eof = true → AtEnd C w'))

/-- By induction on the passes: a clean pass that goes on leaves a clean one to follow. -/
theorem outcome_freadLoop (hsrv : Faithful srv contents) (hC : C.length < 2 ^ 64) (hsize : 0 < size)
    (hmax : size ≤ bufsiz) {left : Nat} : ∀ {nitems total : Nat} {short : Bool} {data : List Byte}
      {w : World σ}, Ready contents C w → (short = true ∨ Clean srv w size nitems) →
      nitems < left → (short = true ∨ w.stream.eof = true ∨ size ≤ w.stream.buffered ∨
        nitems + 1 < left) →
      Outcome (freadLoop srv size left nitems total short data)
        (Finishes srv contents C w size nitems total short data) (fun _ _ => False) w := by
  induction left with
  | zero =>
    intro nitems total short data w _ _ hleft
    exact absurd hleft (Nat.not_lt_zero _)
  | succ left ih =>
    intro nitems total short data w h hclean hleft hfuel
    obtain ⟨ni, bytes, taken, ht, hpass⟩ := outcome_pass hsrv hC hsize hmax h hclean
    have hreads := h.takes hC ht
    rcases hpass with ⟨hdone, hlast⟩ | ⟨⟨hwanted, hnotshort, hnoteof⟩, short', w', hnext, hgo⟩
    · apply hlast
      refine ⟨ni, bytes, rfl, hreads, fun _ hend => ⟨?_, ?_⟩⟩
      · apply h.count ht
        rcases hdone with hall | hstop
        · exact .inl hall
        · exact .inr (hend hstop)
      · intro heof
        rw [ht.eof] at heof
        exact (hend (.inr heof)).takes ht hreads.pos
    · apply hgo
      have hnumber := ht.number
      have hitems : size ≤ w.stream.buffered → 0 < ni := by
        intro hle
        have hpos := Nat.div_pos hle hsize
        omega
      have hfuel' := (hfuel.resolve_left hnotshort).resolve_left hnoteof
      apply (ih hnext.ready hnext.clean (by omega) _).mono
      · rintro r w₃ ⟨ni', bytes', rfl, hreads', hcount⟩
        refine ⟨ni + ni', bytes ++ bytes', ?_, hreads.append hreads' ?_, fun hprompt _ => ?_⟩
        · rw [Nat.add_assoc, List.append_assoc]
        · exact hnext.pos.trans hreads.pos.symm
        · obtain ⟨hn, heof⟩ := hcount hprompt (hnext.atEnd hprompt)
          rw [hnext.pos] at hn
          have hfile : ni * size ≤ C.length - w.stream.pos := ht.le.trans h.holds.buffered_le
          exact ⟨count_append hsize hreads.le hfile hn, heof⟩
      · exact fun _ _ hfalse => hfalse
      · rcases hnext.filled with hshort | hfull
        · exact .inl hshort
        · exact .inr (.inr (.inl hfull))

theorem outcome_freadLoop_size {left : Nat} : ∀ {nitems total : Nat} {short : Bool}
    {data : List Byte} {w : World σ}, Outcome (freadLoop srv size left nitems total short data)
      (fun _ w' => w'.stream.size = w.stream.size) (fun _ _ => True) w := by
  have htaken : ∀ {st : Stream} {nitems : Nat}, (st.takeItems size nitems).2.2.size = st.size := by
    intro st nitems
    unfold Stream.takeItems
    split
    · rfl
    · rfl
  have hmoved : ∀ {st : Stream} {buffered : Nat}, (st.moveDown buffered).size = st.size := by
    intro st buffered
    unfold Stream.moveDown
    split
    · rfl
    · rfl
  induction left with
  | zero =>
    intro nitems total short data w
    trivial
  | succ left ih =>
    intro nitems total short data w
    rw [freadLoop, Outcome.bind_iff, outcome_theStream]
    dsimp only
    rw [Outcome.bind_iff, outcome_modifyStream]
    split
    · exact htaken
    · rw [Outcome.bind_iff, outcome_modifyStream]
      split
      · trivial
      · rw [Outcome.bind_iff, outcome_onServer]
        split
        · rw [Outcome.bind_iff, outcome_modifyStream]
          exact hmoved.trans htaken
        · rw [Outcome.bind_iff, outcome_modifyStream]
          apply ih.mono
          · intro _ _ hsame
            exact hsame.trans (hmoved.trans htaken)
          · exact fun _ _ htrue => htrue

theorem outcome_fflush_idle {Q : Int → World σ → Prop} {E : Stop → World σ → Prop}
    (h : w.stream.index = 0) (hq : Q 0 w) : Outcome (fflush srv) Q E w := by
  rw [fflush, Outcome.bind_iff, outcome_theStream, h, if_neg (Nat.lt_irrefl 0)]
  exact hq

theorem Ready.reads_none (h : Ready contents C w) : Reads contents C w size nitems 0 [] w := by
  constructor
  · exact Nat.zero_le _
  · simp
  · simp
  · rw [Nat.zero_mul, Nat.add_zero]
  · exact h

theorem outcome_fread_size (hsize : 0 < size) (h : Ready contents C w) :
    Outcome (fread srv size nitems) (fun _ w' => w'.stream.size = w.stream.size)
      (fun _ _ => True) w := by
  rw [fread, Outcome.bind_iff]
  apply outcome_fflush_idle h.index
  rw [Outcome.bind_iff, outcome_theStream, if_neg (Nat.pos_iff_ne_zero.mp hsize),
    if_neg (Nat.not_lt.mpr h.holds.offset_le), h.error, if_neg Bool.false_ne_true]
  split
  · rw [Outcome.pure_iff]
  · exact outcome_freadLoop_size

/-- A call of `fread`, when nothing is to be flushed. -/
theorem outcome_fread (hsrv : Faithful srv contents) (hC : C.length < 2 ^ 64) (hsize : 0 < size)
    (hmax : size ≤ bufsiz) (h : Ready contents C w) (hclean : Clean srv w size nitems) :
    Outcome (fread srv size nitems) (fun r w' => Reads contents C w size nitems r.1 r.2 w' ∧
      (Prompt srv contents → (w.stream.eof = true → AtEnd C w) →
        r.1 = min nitems ((C.length - w.stream.pos) / size) ∧ (w'.stream.eof = true → AtEnd C w')))
      (fun _ _ => False) w := by
  rw [fread, Outcome.bind_iff]
  apply outcome_fflush_idle h.index
  rw [Outcome.bind_iff, outcome_theStream, if_neg (Nat.pos_iff_ne_zero.mp hsize),
    if_neg (Nat.not_lt.mpr h.holds.offset_le), h.error, if_neg Bool.false_ne_true]
  split
  · rename_i hnone
    rw [Outcome.pure_iff, hnone, Nat.zero_min]
    exact ⟨h.reads_none, fun _ hend => ⟨rfl, hend⟩⟩
  · apply (outcome_freadLoop hsrv hC hsize hmax h (.inr hclean) (by omega) (by omega)).mono
    · rintro _ w' ⟨ni, bytes, rfl, hreads, hcount⟩
      rw [Nat.zero_add, List.nil_append]
      constructor
      · exact hreads
      · intro hprompt hend
        apply hcount hprompt
        intro hstop
        exact hend (hstop.resolve_left Bool.false_ne_true)
    · exact fun _ _ hfalse => hfalse

end

/-! ## Runs -/

/-- A stream with nothing in its buffers, at any position of a file whose size is a 64-bit number. -/
structure Fresh (contents : σ → List Byte) (w : World σ) : Prop where
  size_lt : (contents w.server).length < 2 ^ 64
  pos_lt : w.stream.pos < 2 ^ 64
  inOffset : w.stream.inOffset = 0
  inSize : w.stream.inSize = 0
  index : w.stream.index = 0
  eof : w.stream.eof = false
  error : w.stream.error = false

/-- The states that clean calls of `fread` lead to. -/
inductive Reached (srv : FileServer σ) (w₀ : World σ) : World σ → Prop
  | start : Reached srv w₀ w₀
  | fread {w w' : World σ} {size nitems : Nat} {r : Nat × List Byte} : Reached srv w₀ w →
      0 < size → size ≤ bufsiz → Clean srv w size nitems → fread srv size nitems w = .ok r w' →
      Reached srv w₀ w'

section

variable {srv : FileServer σ} {contents : σ → List Byte} {w₀ w : World σ}

theorem Fresh.ready (h : Fresh contents w₀) : Ready contents (contents w₀.server) w₀ := by
  have hb : w₀.stream.buffered = 0 := by rw [Stream.buffered, h.inSize, Nat.zero_sub]
  constructor
  · rfl
  · constructor
    · exact h.pos_lt
    · rw [h.inOffset]
      exact Nat.zero_le _
    · rw [h.inSize]
      exact Nat.zero_le _
    · exact fun _ => h.inSize
    · rw [List.length_eq_zero_iff.mp (w₀.stream.length_ahead.trans hb)]
      exact List.nil_prefix
  · exact h.index
  · exact h.error

/-- Every state that is reached is one in which the next call can go right. -/
theorem Reached.ready (h : Reached srv w₀ w) (hsrv : Faithful srv contents) (h₀ : Fresh contents w₀) :
    Ready contents (contents w₀.server) w ∧
      (Prompt srv contents → w.stream.eof = true → AtEnd (contents w₀.server) w) := by
  induction h with
  | start =>
    constructor
    · exact h₀.ready
    · intro _ heof
      rw [h₀.eof] at heof
      exact absurd heof Bool.false_ne_true
  | fread _ hsize hmax hclean hcall ih =>
    obtain ⟨hready, hend⟩ := ih
    have hout := outcome_fread hsrv h₀.size_lt hsize hmax hready hclean
    obtain ⟨hreads, hcount⟩ := hout.ok hcall
    constructor
    · exact hreads.ready
    · intro hprompt
      exact (hcount hprompt (hend hprompt)).2

/-- In every state that clean calls lead to, a clean call returns: the bytes that it copies are the
next ones of the file, it moves on by as many, and if no read is short it returns as many whole items
as there are. -/
theorem fread_returns_file (hsrv : Faithful srv contents) (h₀ : Fresh contents w₀)
    (h : Reached srv w₀ w) {size nitems : Nat} (hsize : 0 < size) (hmax : size ≤ bufsiz)
    (hclean : Clean srv w size nitems) :
    ∃ ni bytes w', fread srv size nitems w = .ok (ni, bytes) w' ∧
      bytes = ((contents w.server).drop w.stream.pos).take (ni * size) ∧
      bytes.length = ni * size ∧ w'.stream.pos = w.stream.pos + ni * size ∧
      contents w'.server = contents w.server ∧
      (Prompt srv contents →
        ni = min nitems (((contents w.server).length - w.stream.pos) / size)) := by
  obtain ⟨hready, hend⟩ := h.ready hsrv h₀
  have hout := outcome_fread hsrv h₀.size_lt hsize hmax hready hclean
  obtain ⟨⟨ni, bytes⟩, w', hcall, hreads, hcount⟩ := hout.exists_ok
  rw [hready.contents_eq]
  refine ⟨ni, bytes, w', hcall, hreads.bytes_eq, hreads.length, hreads.pos,
    hreads.ready.contents_eq, ?_⟩
  intro hprompt
  exact (hcount hprompt (hend hprompt)).1

end

theorem faithful_arrayServer : Faithful arrayServer id := by
  constructor
  · intro s offset count
    exact ⟨_, rfl, List.prefix_refl _⟩
  · intro s offset count
    rfl

theorem fresh_opened {mode : BufMode} {file : List Byte} (h : file.length < 2 ^ 64) :
    Fresh id ⟨.opened mode, file⟩ :=
  ⟨h, show 0 < 2 ^ 64 by decide, rfl, rfl, rfl, rfl, rfl⟩

/-! One byte of ten, and then all pairs: the first call leaves nine in the buffer. -/

def tenBytes : List Byte := [1, 2, 3, 4, 5, 6, 7, 8, 9, 10]

def tenOpened : World (List Byte) := ⟨.opened .blkBuf, tenBytes⟩

theorem fread_returns_file_pairs : ∃ w ni bytes w',
    fread arrayServer 1 1 tenOpened = .ok (1, [1]) w ∧ w.stream.buffered = 9 ∧
      fread arrayServer 2 4 w = .ok (ni, bytes) w' ∧ bytes = [2, 3, 4, 5, 6, 7, 8, 9] ∧ ni = 4 := by
  have hone : fread arrayServer 1 1 tenOpened = _ := eq_ok_of_returned (a := (1, [1])) (by
    decide +kernel)
  have hfirst : Clean arrayServer tenOpened 1 1 := .inr ⟨.inl (by decide), .inl (by decide)⟩
  have hreached : Reached arrayServer tenOpened (final (fread arrayServer 1 1 tenOpened)) :=
    .fread .start (by decide) (by decide) hfirst hone
  have hbuffered : (final (fread arrayServer 1 1 tenOpened)).stream.buffered = 9 := by
    decide +kernel
  have hpos : (final (fread arrayServer 1 1 tenOpened)).stream.pos = 1 := by decide +kernel
  have hserver : (final (fread arrayServer 1 1 tenOpened)).server = tenBytes := by decide +kernel
  have hclean : Clean arrayServer (final (fread arrayServer 1 1 tenOpened)) 2 4 := by
    rw [Clean, hbuffered]
    exact .inr ⟨.inr (.inr (by decide)), .inl (by decide)⟩
  obtain ⟨ni, bytes, w', hcall, hbytes, -, -, -, hcount⟩ := fread_returns_file faithful_arrayServer
    (fresh_opened (by decide)) hreached (by decide) (by decide) hclean
  have hni : ni = 4 := by
    rw [hcount fun _ _ _ => rfl, hpos, hserver]
    rfl
  subst hni
  rw [hpos, hserver] at hbytes
  exact ⟨_, 4, bytes, w', hone, hbuffered, hcall, hbytes, rfl⟩

/-- The part of a pair that is left is moved with a length from before the pairs were taken: the
second call makes eight pairs of nine bytes. -/
theorem fread_leftover :
    (final (fread arrayServer 1 1 tenOpened)).stream.pos = 1 ∧
    returned (fread arrayServer 2 10 (final (fread arrayServer 1 1 tenOpened))) =
      some (8, tenBytes.drop 1 ++ List.replicate 7 0) ∧
    min 10 ((tenBytes.length - 1) / 2) = 4 := by
  decide +kernel

end Egos.Stdio
