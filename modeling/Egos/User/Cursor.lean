import Egos.User.Fread

/-!
# A stream as a byte array with a cursor

The position of a stream is spread over `pos` and the two buffers. Seen from outside it is one cursor
in one array, except that a seek to `pos` does not flush, that a seek from the end does so too late,
and that a write leaves the input buffer as it is.
-/
namespace Egos.Stdio

open Egos.Lib Egos.Disk

set_option autoImplicit false

/-- An array with a cursor, and no buffer. -/
structure Tape where
  bytes : List Byte
  cursor : Nat

def Tape.write (t : Tape) (data : List Byte) : Tape :=
  ⟨spliced t.bytes t.cursor data, t.cursor + data.length⟩

def Tape.read (t : Tape) (n : Nat) : List Byte := (t.bytes.drop t.cursor).take n

/-- The calls on one stream that is open for reading and writing; items that are read have size 1. -/
inductive Call where
  | fwrite (items : Items)
  | fread (nitems : Nat)
  | seekSet (offset : BitVec 64)
  | seekCur (offset : BitVec 64)
  | seekEnd (offset : BitVec 64)
  | ftell
  | fflush

inductive Result where
  | written (nitems : Nat)
  | read (nitems : Nat) (bytes : List Byte)
  | status (r : Int)
  | position (p : BitVec 64)
  deriving DecidableEq

def Call.perform : Call → StreamM (List Byte) Result
  | .fwrite items => do return .written (← Stdio.fwrite arrayServer items)
  | .fread nitems => do
    let (n, bytes) ← Stdio.fread arrayServer 1 nitems
    return .read n bytes
  | .seekSet offset => do return .status (← fseek arrayServer offset .set)
  | .seekCur offset => do return .status (← fseek arrayServer offset .cur)
  | .seekEnd offset => do return .status (← fseek arrayServer offset .fromEnd)
  | .ftell => do return .position (← Stdio.ftell arrayServer)
  | .fflush => do return .status (← Stdio.fflush arrayServer)

/-- What the call does to a byte array with a cursor. -/
def Call.onTape (t : Tape) : Call → Result × Tape
  | .fwrite items => (.written items.nitems, t.write items.bytes)
  | .fread n =>
    (.read (t.read n).length (t.read n), ⟨t.bytes, t.cursor + (t.read n).length⟩)
  | .seekSet offset => (.status 0, ⟨t.bytes, offset.toNat⟩)
  | .seekCur offset => (.status 0, ⟨t.bytes, wrap (t.cursor + offset.toNat)⟩)
  | .seekEnd offset => (.status 0, ⟨t.bytes, wrap (t.bytes.length + offset.toNat)⟩)
  | .ftell => (.position (BitVec.ofNat 64 t.cursor), t)
  | .fflush => (.status 0, t)

def performCalls : List Call → StreamM (List Byte) (List Result)
  | [] => return []
  | call :: calls => do
    let r ← call.perform
    return r :: (← performCalls calls)

def tapeCalls : List Call → Tape → List Result × Tape
  | [], t => ([], t)
  | call :: calls, t =>
    let (r, t') := call.onTape t
    let (rs, t'') := tapeCalls calls t'
    (r :: rs, t'')

/-! ## Where the stream differs -/

/-- Whether the input buffer has been left behind by a write, after the call. -/
def Call.leavesStale (st : Stream) (stale : Bool) : Call → Bool
  | .fwrite items => stale || (decide (0 < items.bytes.length) && decide (0 < st.buffered))
  | .seekSet offset => stale && decide (offset.toNat = st.pos)
  | .seekCur offset => stale && decide (offset = 0)
  | .seekEnd _ => false
  | .fread _ | .ftell | .fflush => stale

/-- Nothing is read from a buffer that a write has left behind. When output is pending, no seek goes
to where it will be written, and none is from an end that it will move. What is written ends within
the range of positions. -/
def Call.Harmless (w : World (List Byte)) (stale : Bool) : Call → Prop
  | .fwrite items => w.stream.pos + w.stream.index + items.bytes.length < 2 ^ 64
  | .fread nitems => stale = false ∨ nitems = 0
  | .seekSet offset => w.stream.index = 0 ∨ offset.toNat ≠ w.stream.pos
  | .seekEnd _ => w.stream.index = 0 ∨ w.stream.pos + w.stream.index ≤ w.server.length
  | .seekCur _ | .ftell | .fflush => True

/-- Every call of the run is harmless where it is made. -/
def AllHarmless : List Call → Bool → World (List Byte) → Prop
  | [], _, _ => True
  | call :: calls, stale, w => call.Harmless w stale ∧ match call.perform w with
    | .ok _ w' => AllHarmless calls (call.leavesStale w.stream stale) w'
    | .error _ _ => True

instance (w : World (List Byte)) (stale : Bool) : (call : Call) → Decidable (call.Harmless w stale)
  | .fwrite items =>
    inferInstanceAs (Decidable (w.stream.pos + w.stream.index + items.bytes.length < 2 ^ 64))
  | .fread nitems => inferInstanceAs (Decidable (stale = false ∨ nitems = 0))
  | .seekSet offset =>
    inferInstanceAs (Decidable (w.stream.index = 0 ∨ offset.toNat ≠ w.stream.pos))
  | .seekEnd _ => inferInstanceAs (Decidable (w.stream.index = 0 ∨
      w.stream.pos + w.stream.index ≤ w.server.length))
  | .seekCur _ | .ftell | .fflush => .isTrue trivial

instance decidableAllHarmless : (calls : List Call) → (stale : Bool) → (w : World (List Byte)) →
    Decidable (AllHarmless calls stale w)
  | [], _, _ => .isTrue trivial
  | call :: calls, stale, w =>
    have : Decidable (match call.perform w with
        | .ok _ w' => AllHarmless calls (call.leavesStale w.stream stale) w'
        | .error _ _ => True) :=
      match call.perform w with
      | .ok _ w' => decidableAllHarmless calls (call.leavesStale w.stream stale) w'
      | .error _ _ => .isTrue trivial
    inferInstanceAs (Decidable (_ ∧ _))

/-! ## Arrays -/

section

variable {bytes data data' : List Byte} {offset : Nat}

@[simp] theorem spliced_nil : spliced bytes offset [] = bytes := rfl

theorem spliced_of_ne (h : data ≠ []) :
    spliced bytes offset data = bytes.take offset ++ List.replicate (offset - bytes.length) 0 ++
      data ++ bytes.drop (offset + data.length) := by
  rw [spliced, if_neg (by simpa using h)]

theorem length_front :
    (bytes.take offset ++ List.replicate (offset - bytes.length) (0 : Byte)).length = offset := by
  rw [List.length_append, List.length_take, List.length_replicate]
  omega

theorem length_spliced (h : data ≠ []) :
    (spliced bytes offset data).length = max bytes.length (offset + data.length) := by
  rw [spliced_of_ne h, List.length_append, List.length_append, length_front, List.length_drop]
  omega

theorem spliced_append :
    spliced (spliced bytes offset data) (offset + data.length) data' =
      spliced bytes offset (data ++ data') := by
  by_cases h : data = []
  · rw [h, spliced_nil, List.length_nil, Nat.add_zero, List.nil_append]
  by_cases h' : data' = []
  · rw [h', spliced_nil, List.append_nil]
  have hlen : (spliced bytes offset data).length = max bytes.length (offset + data.length) :=
    length_spliced h
  have hfront : (bytes.take offset ++ List.replicate (offset - bytes.length) 0 ++ data).length =
      offset + data.length := by
    rw [List.length_append, length_front]
  have hgap : offset + data.length - (spliced bytes offset data).length = 0 := by omega
  rw [spliced_of_ne h', hgap, spliced_of_ne h, spliced_of_ne (by simp [h]),
    List.take_append_of_le_length (by omega), List.take_of_length_le (by omega), List.length_append,
    List.drop_append, List.drop_eq_nil_of_le (by omega), hfront, Nat.add_sub_cancel_left,
    List.drop_drop]
  simp [Nat.add_assoc]

end

/-! ## The array behind a stream -/

/-- The output that has not been flushed. -/
def Stream.pending (st : Stream) : List Byte := (List.range st.index).map st.buf

@[simp] theorem Stream.length_pending (st : Stream) : st.pending.length = st.index := by
  simp [Stream.pending]

/-- The array is the file with the pending output in it, and the cursor is behind that. -/
structure Models (t : Tape) (w : World (List Byte)) : Prop where
  bytes : t.bytes = spliced w.server w.stream.pos w.stream.pending
  cursor : t.cursor = w.stream.pos + w.stream.index
  cursor_lt : t.cursor < 2 ^ 64
  bytes_lt : t.bytes.length < 2 ^ 64
  index_le : w.stream.index ≤ w.stream.size
  size_le : w.stream.size ≤ fileMaxMsgSize
  error : w.stream.error = false
  offset_le : w.stream.inOffset ≤ w.stream.inSize

/-- What is in the input buffer lies behind the cursor, and up to the end after an end of file. -/
structure Synced (t : Tape) (w : World (List Byte)) : Prop where
  holds : w.stream.Holds t.bytes
  apart : w.stream.index = 0 ∨ w.stream.buffered = 0
  atEnd : w.stream.eof = true → t.bytes.length ≤ t.cursor + w.stream.buffered

/-- Between two calls. -/
structure Follows (t : Tape) (stale : Bool) (w : World (List Byte)) : Prop where
  models : Models t w
  index_lt : w.stream.index < w.stream.size
  synced : stale = false → Synced t w

/-- After `fflush`. -/
def World.flushed (w : World (List Byte)) : World (List Byte) where
  stream := { w.stream with
    pos := wrap (w.stream.pos + w.stream.index)
    index := 0 }
  server := spliced w.server w.stream.pos w.stream.pending

section

variable {t : Tape} {w w' : World (List Byte)} {stale : Bool} {data : List Byte}

theorem fflush_eq (h : Models t w) : fflush arrayServer w = .ok 0 w.flushed := by
  by_cases hidle : w.stream.index = 0
  · have hpos : w.stream.pos < 2 ^ 64 := by
      have hcursor := h.cursor
      have hlt := h.cursor_lt
      omega
    have hpending : w.stream.pending = [] := by
      rw [Stream.pending, hidle]
      rfl
    have hsame : w.flushed = w := by
      unfold World.flushed
      rw [hpending, spliced_nil, hidle, wrap, Nat.add_zero, Nat.mod_eq_of_lt hpos, ← hidle]
    rw [hsame]
    have hout : Outcome (fflush arrayServer) (fun r s => r = 0 ∧ s = w) (fun _ _ => False) w :=
      outcome_fflush_idle hidle ⟨rfl, rfl⟩
    obtain ⟨r, s, hrun, hr, hs⟩ := hout.exists_ok
    rw [hrun, hr, hs]
  · have hpos := Nat.pos_of_ne_zero hidle
    have hout : Outcome (fflush arrayServer) (fun r s => r = 0 ∧ s = w.flushed)
        (fun _ _ => False) w := by
      rw [fflush, Outcome.bind_iff, outcome_theStream, if_pos hpos, Outcome.bind_iff,
        outcome_onServer]
      exact ⟨rfl, rfl⟩
    obtain ⟨r, s, hrun, hr, hs⟩ := hout.exists_ok
    rw [hrun, hr, hs]

/-- Then the file is the array, and `pos` the cursor. -/
theorem Models.flushed (h : Models t w) :
    Models t w.flushed ∧ w.flushed.server = t.bytes ∧ w.flushed.stream.pos = t.cursor := by
  have hpos : w.flushed.stream.pos = t.cursor := by
    change wrap (w.stream.pos + w.stream.index) = _
    rw [← h.cursor]
    exact Nat.mod_eq_of_lt h.cursor_lt
  constructor
  · constructor
    · exact h.bytes
    · rw [hpos]
      rfl
    · exact h.cursor_lt
    · exact h.bytes_lt
    · exact Nat.zero_le _
    · exact h.size_le
    · exact h.error
    · exact h.offset_le
  · exact ⟨h.bytes.symm, hpos⟩

theorem Stream.Holds.of_empty {st : Stream} {C : List Byte} (hpos : st.pos < 2 ^ 64)
    (hle : st.inOffset ≤ st.inSize) (hsize : st.inSize ≤ bufsiz)
    (hrewound : st.inOffset = st.inSize → st.inSize = 0) (hb : st.buffered = 0) : st.Holds C := by
  constructor
  · exact hpos
  · exact hle
  · exact hsize
  · exact hrewound
  · rw [List.length_eq_zero_iff.mp (st.length_ahead.trans hb)]
    exact List.nil_prefix

theorem Synced.flushed (h : Synced t w) (hm : Models t w) : Synced t w.flushed := by
  obtain ⟨-, -, hpos⟩ := hm.flushed
  constructor
  · rcases h.apart with hidle | hempty
    · have hsame : t.cursor = w.stream.pos := by rw [hm.cursor, hidle, Nat.add_zero]
      constructor
      · rw [hpos]
        exact hm.cursor_lt
      · exact h.holds.offset_le
      · exact h.holds.size_le
      · exact h.holds.rewound
      · rw [hpos, hsame]
        exact h.holds.ahead
    · apply Stream.Holds.of_empty
      · rw [hpos]
        exact hm.cursor_lt
      · exact h.holds.offset_le
      · exact h.holds.size_le
      · exact h.holds.rewound
      · exact hempty
  · exact .inl rfl
  · exact h.atEnd

theorem Follows.flushed (h : Follows t stale w) : Follows t stale w.flushed := by
  constructor
  · exact h.models.flushed.1
  · exact Nat.lt_of_le_of_lt (Nat.zero_le _) h.index_lt
  · intro hs
    exact (h.synced hs).flushed h.models

/-- The call does on the stream what it does on the array. -/
def Call.Agrees (call : Call) (t : Tape) (stale : Bool) (w : World (List Byte)) : Prop :=
  Outcome call.perform (fun r w' => r = (call.onTape t).1 ∧
    Follows (call.onTape t).2 (call.leavesStale w.stream stale) w') (fun _ _ => False) w

/-! ## `fread` -/

theorem fread_flushed (h : Models t w) (size nitems : Nat) :
    fread arrayServer size nitems w = fread arrayServer size nitems w.flushed := by
  have hagain : fflush arrayServer w.flushed = .ok 0 w.flushed := rfl
  rw [fread]
  simp only [Bind.bind, EStateM.bind]
  rw [fflush_eq h, hagain]

theorem prompt_arrayServer : Prompt arrayServer id := fun _ _ _ => rfl

theorem Tape.read_min (t : Tape) (n : Nat) :
    t.read n = (t.bytes.drop t.cursor).take (min n (t.bytes.length - t.cursor)) := by
  rw [Tape.read, List.take_eq_take_min, List.length_drop]

theorem fread_agrees (h : Follows t stale w) {nitems : Nat} (hharm : stale = false ∨ nitems = 0) :
    Call.Agrees (.fread nitems) t stale w := by
  have hflushed := h.flushed
  obtain ⟨hmodels, hserver, hpos⟩ := h.models.flushed
  unfold Call.Agrees Call.perform
  rw [Outcome.bind_iff]
  apply Outcome.of_eq (fread_flushed h.models 1 nitems)
  by_cases hnone : nitems = 0
  · subst hnone
    rw [fread, Outcome.bind_iff]
    apply outcome_fflush_idle rfl
    rw [Outcome.bind_iff, outcome_theStream, if_neg Nat.one_ne_zero,
      if_neg (Nat.not_lt.mpr hmodels.offset_le), hmodels.error, if_neg Bool.false_ne_true,
      if_pos rfl, Outcome.pure_iff]
    exact ⟨rfl, hflushed⟩
  · have hsynced := hflushed.synced (hharm.resolve_right hnone)
    have hready : Ready id t.bytes w.flushed := ⟨hserver, hsynced.holds, rfl, hmodels.error⟩
    have hclean : Clean arrayServer w.flushed 1 nitems :=
      .inr ⟨.inr (.inl (Nat.one_dvd _)), .inl (Nat.one_dvd _)⟩
    have hout := (outcome_fread faithful_arrayServer h.models.bytes_lt Nat.one_pos (by decide) hready
      hclean).both (outcome_fread_size Nat.one_pos hready)
    apply hout.mono
    · rintro ⟨n, bytes⟩ w' ⟨⟨hreads, hcount⟩, hsize⟩
      dsimp only at hreads hcount
      obtain ⟨hn, hend⟩ := hcount prompt_arrayServer (by
        intro heof
        unfold AtEnd
        rw [hpos]
        exact hsynced.atEnd heof)
      have hbytes : bytes = t.read nitems := by
        rw [Tape.read_min, hreads.bytes_eq, hpos, Nat.mul_one, hn, Nat.div_one, hpos]
      have hlength : (t.read nitems).length = n := by
        rw [← hbytes, hreads.length, Nat.mul_one]
      have hready' := hreads.ready
      have hcursor : w'.stream.pos = t.cursor + n := by rw [hreads.pos, hpos, Nat.mul_one]
      have hpending : w'.stream.pending = [] := by
        rw [Stream.pending, hready'.index]
        rfl
      change Result.read n bytes = .read (t.read nitems).length (t.read nitems) ∧
        Follows ⟨t.bytes, t.cursor + (t.read nitems).length⟩ stale w'
      rw [hlength, hbytes]
      constructor
      · rfl
      · constructor
        · constructor
          · rw [hpending, spliced_nil]
            exact hready'.contents_eq.symm
          · rw [hready'.index, hcursor, Nat.add_zero]
          · rw [← hcursor]
            exact hready'.holds.pos_lt
          · exact hmodels.bytes_lt
          · rw [hready'.index]
            exact Nat.zero_le _
          · rw [hsize]
            exact hmodels.size_le
          · exact hready'.error
          · exact hready'.holds.offset_le
        · rw [hready'.index, hsize]
          exact hflushed.index_lt
        · intro _
          constructor
          · exact hready'.holds
          · exact .inl hready'.index
          · intro heof
            have hall := hend heof
            unfold AtEnd at hall
            rw [hcursor] at hall
            exact hall
    · exact fun _ _ hfalse => hfalse.1

/-! ## `fwrite` -/

@[simp] theorem Tape.write_nil (t : Tape) : t.write [] = t := rfl

theorem Tape.write_append (t : Tape) (data data' : List Byte) :
    (t.write data).write data' = t.write (data ++ data') := by
  unfold Tape.write
  dsimp only
  rw [spliced_append, List.length_append, Nat.add_assoc]

/-- The input side of a stream is left as it is. -/
structure SameInput (w w' : World (List Byte)) : Prop where
  inOffset : w'.stream.inOffset = w.stream.inOffset
  inSize : w'.stream.inSize = w.stream.inSize
  eof : w'.stream.eof = w.stream.eof

theorem SameInput.buffered (h : SameInput w w') : w'.stream.buffered = w.stream.buffered := by
  rw [Stream.buffered, h.inOffset, h.inSize, Stream.buffered]

theorem SameInput.trans {w'' : World (List Byte)} (h : SameInput w w') (h' : SameInput w' w'') :
    SameInput w w'' :=
  ⟨h'.inOffset.trans h.inOffset, h'.inSize.trans h.inSize, h'.eof.trans h.eof⟩

/-- The first `n` bytes of `p` have been copied into the output buffer. -/
def World.buffering (w : World (List Byte)) (p : List Byte) (n : Nat) : World (List Byte) :=
  { w with stream := { w.stream with
    buf := overlay w.stream.buf w.stream.index (p.take n)
    index := w.stream.index + n } }

theorem Models.buffering (h : Models t w) {p : List Byte} {n : Nat} (hpos : 0 < n)
    (hn : n ≤ p.length) (hroom : w.stream.index + n ≤ w.stream.size)
    (hfit : t.cursor + n < 2 ^ 64) : Models (t.write (p.take n)) (w.buffering p n) := by
  have hcursor := h.cursor
  have hlen : (p.take n).length = n := List.length_take_of_le hn
  constructor
  · have hpending : (w.buffering p n).stream.pending = w.stream.pending ++ p.take n := by
      have hcopy : (List.range (w.stream.index + (p.take n).length)).map
          (overlay w.stream.buf w.stream.index (p.take n)) =
            (List.range w.stream.index).map w.stream.buf ++ p.take n := map_overlay_append
      rw [hlen] at hcopy
      exact hcopy
    rw [hpending]
    change spliced t.bytes t.cursor (p.take n) = spliced w.server w.stream.pos _
    rw [← spliced_append, ← h.bytes, Stream.length_pending, hcursor]
  · change t.cursor + (p.take n).length = w.stream.pos + (w.stream.index + n)
    omega
  · change t.cursor + (p.take n).length < _
    omega
  · have hlt := h.bytes_lt
    change (spliced t.bytes t.cursor (p.take n)).length < _
    rw [length_spliced (List.ne_nil_of_length_pos (by omega))]
    omega
  · exact hroom
  · exact h.size_le
  · exact h.error
  · exact h.offset_le

/-- By induction on the passes: each writes a chunk. -/
theorem outcome_fwriteLoop {nitems left : Nat} : ∀ {p : List Byte} {t : Tape}
    {w : World (List Byte)}, Models t w → w.stream.index < w.stream.size → p.length < left →
      t.cursor + p.length < 2 ^ 64 →
      Outcome (fwriteLoop arrayServer nitems left p) (fun r w' => r = nitems ∧
        Models (t.write p) w' ∧ w'.stream.index < w'.stream.size ∧ SameInput w w')
        (fun _ _ => False) w := by
  induction left with
  | zero =>
    intro p t w _ _ hleft
    exact absurd hleft (Nat.not_lt_zero _)
  | succ left ih =>
    intro p t w h hindex hleft hfit
    rw [fwriteLoop]
    by_cases hp : p = []
    · subst hp
      rw [if_pos List.isEmpty_nil, Outcome.pure_iff]
      exact ⟨rfl, h, hindex, rfl, rfl, rfl⟩
    · have hsize := h.size_le
      have hlen := List.length_pos_iff.mpr hp
      rw [if_neg (by simpa using hp), Outcome.bind_iff, outcome_theStream,
        if_neg (Nat.not_le.mpr hindex)]
      dsimp only
      generalize hn : min p.length (w.stream.size - w.stream.index) = n
      have hlength : (p.take n).length = n := List.length_take_of_le (by omega)
      have hwritten : Models (t.write (p.take n)) (w.buffering p n) :=
        h.buffering (by omega) (by omega) (by omega) (by omega)
      rw [if_neg (by omega), Outcome.bind_iff, outcome_modifyStream, Outcome.bind_iff,
        outcome_theStream]
      change Outcome _ _ _ (w.buffering p n)
      split
      · rename_i hdone
        have hall : p.take n = p := by
          have hsplit := List.take_append_drop n p
          rw [List.isEmpty_iff.mp hdone.1, List.append_nil] at hsplit
          exact hsplit
        rw [hall] at hwritten
        rw [Outcome.pure_iff]
        exact ⟨rfl, hwritten, hdone.2.1, rfl, rfl, rfl⟩
      · rw [Outcome.bind_iff]
        apply Outcome.of_ok (fflush_eq hwritten)
        rw [if_neg (not_not.mpr rfl)]
        have hrest : (p.drop n).length < left := by
          rw [List.length_drop]
          omega
        have hfit' : (t.write (p.take n)).cursor + (p.drop n).length < 2 ^ 64 := by
          change t.cursor + (p.take n).length + _ < _
          rw [hlength, List.length_drop]
          omega
        have hroom : (w.buffering p n).flushed.stream.index <
            (w.buffering p n).flushed.stream.size := Nat.lt_of_le_of_lt (Nat.zero_le _) hindex
        apply (ih hwritten.flushed.1 hroom hrest hfit').mono
        · rintro r w' ⟨hr, hmodels, hindex', hinput⟩
          rw [Tape.write_append, List.take_append_drop] at hmodels
          have hsame : SameInput w (w.buffering p n).flushed := ⟨rfl, rfl, rfl⟩
          exact ⟨hr, hmodels, hindex', hsame.trans hinput⟩
        · exact fun _ _ hfalse => hfalse

theorem Synced.write (h : Synced t w) (hmodels : Models (t.write data) w') (hinput : SameInput w w')
    (hne : data ≠ []) (hempty : w.stream.buffered = 0) : Synced (t.write data) w' := by
  have hempty' : w'.stream.buffered = 0 := hinput.buffered.trans hempty
  constructor
  · apply Stream.Holds.of_empty
    · have hcursor := hmodels.cursor
      have hlt := hmodels.cursor_lt
      omega
    · exact hmodels.offset_le
    · rw [hinput.inSize]
      exact h.holds.size_le
    · rw [hinput.inOffset, hinput.inSize]
      exact h.holds.rewound
    · exact hempty'
  · exact .inr hempty'
  · intro heof
    rw [hinput.eof] at heof
    have hend := h.atEnd heof
    rw [hempty'] at *
    change (spliced t.bytes t.cursor data).length ≤ t.cursor + data.length + 0
    rw [length_spliced hne]
    omega

theorem fwrite_agrees (h : Follows t stale w) {items : Items}
    (hharm : w.stream.pos + w.stream.index + items.bytes.length < 2 ^ 64) :
    Call.Agrees (.fwrite items) t stale w := by
  rw [← h.models.cursor] at hharm
  unfold Call.Agrees Call.perform
  rw [Outcome.bind_iff, fwrite, Outcome.bind_iff, outcome_theStream, h.models.error,
    if_neg Bool.false_ne_true]
  by_cases hnone : items.bytes = []
  · rw [hnone]
    change Result.written items.nitems = .written items.nitems ∧
      Follows (t.write items.bytes) (stale || _) w
    rw [hnone]
    exact ⟨rfl, by simpa using h⟩
  · apply (outcome_fwriteLoop h.models h.index_lt (Nat.lt_succ_self _) hharm).mono
    · rintro r w' ⟨rfl, hmodels, hindex, hinput⟩
      change Result.written items.nitems = .written items.nitems ∧
        Follows (t.write items.bytes) (stale || _) w'
      constructor
      · rfl
      constructor
      · exact hmodels
      · exact hindex
      · intro hstale
        rw [Bool.or_eq_false_iff] at hstale
        have hempty : w.stream.buffered = 0 := by
          have hpos := List.length_pos_iff.mpr hnone
          simpa [hpos] using hstale.2
        exact (h.synced hstale.1).write hmodels hinput hnone hempty
    · exact fun _ _ hfalse => hfalse

/-! ## Seeks -/

/-- A flushed stream that is moved, with nothing in its input buffer. -/
def World.moved (w : World (List Byte)) (pos : Nat) : World (List Byte) :=
  { w.flushed with stream := { w.flushed.stream.tossed with
    pos := pos
    eof := false } }

theorem Follows.moved (h : Follows t stale w) {pos : Nat} (hpos : pos < 2 ^ 64) (stale' : Bool) :
    Follows ⟨t.bytes, pos⟩ stale' (w.moved pos) := by
  obtain ⟨hmodels, hserver, -⟩ := h.models.flushed
  constructor
  · constructor
    · exact hserver.symm
    · rfl
    · exact hpos
    · exact hmodels.bytes_lt
    · exact Nat.zero_le _
    · exact hmodels.size_le
    · exact hmodels.error
    · exact Nat.le_refl 0
  · exact Nat.lt_of_le_of_lt (Nat.zero_le _) h.index_lt
  · intro _
    constructor
    · apply Stream.Holds.of_empty
      · exact hpos
      · exact Nat.le_refl 0
      · exact Nat.zero_le _
      · exact fun _ => rfl
      · rfl
    · exact .inl rfl
    · exact fun heof => absurd heof Bool.false_ne_true

theorem Follows.forget (h : Follows t stale w) :
    Follows t stale { w with stream := { w.stream with eof := false } } := by
  have hm := h.models
  constructor
  · exact ⟨hm.bytes, hm.cursor, hm.cursor_lt, hm.bytes_lt, hm.index_le, hm.size_le, hm.error,
      hm.offset_le⟩
  · exact h.index_lt
  · intro hstale
    obtain ⟨hholds, hapart, -⟩ := h.synced hstale
    constructor
    · exact ⟨hholds.pos_lt, hholds.offset_le, hholds.size_le, hholds.rewound, hholds.ahead⟩
    · exact hapart
    · exact fun heof => absurd heof Bool.false_ne_true

theorem seekSet_agrees (h : Follows t stale w) {offset : BitVec 64}
    (hharm : w.stream.index = 0 ∨ offset.toNat ≠ w.stream.pos) :
    Call.Agrees (.seekSet offset) t stale w := by
  unfold Call.Agrees Call.perform
  rw [Outcome.bind_iff, fseek, Outcome.bind_iff, outcome_theStream]
  change Outcome _ (fun _ w' => Outcome _ (fun r w' => r = Result.status 0 ∧
    Follows ⟨t.bytes, offset.toNat⟩ (stale && decide (offset.toNat = w.stream.pos)) w') _ w') _ w
  by_cases hsame : offset.toNat = w.stream.pos
  · rw [if_neg (not_not.mpr hsame), decide_eq_true hsame, Bool.and_true]
    have hidle := hharm.resolve_right (not_not.mpr hsame)
    have hcursor : offset.toNat = t.cursor := by
      rw [h.models.cursor, hidle, Nat.add_zero, hsame]
    rw [hcursor]
    exact ⟨rfl, h.forget⟩
  · rw [if_pos hsame, Outcome.bind_iff]
    apply Outcome.of_ok (fflush_eq h.models)
    exact ⟨rfl, h.moved offset.isLt _⟩

theorem seekCur_agrees (h : Follows t stale w) {offset : BitVec 64} :
    Call.Agrees (.seekCur offset) t stale w := by
  unfold Call.Agrees Call.perform
  rw [Outcome.bind_iff, fseek]
  change Outcome _ (fun _ w' => Outcome _ (fun r w' => r = Result.status 0 ∧
    Follows ⟨t.bytes, wrap (t.cursor + offset.toNat)⟩ (stale && decide (offset = 0)) w') _ w') _ w
  by_cases hzero : offset = 0
  · rw [if_neg (not_not.mpr hzero), decide_eq_true hzero, Bool.and_true]
    have hcursor : wrap (t.cursor + offset.toNat) = t.cursor := by
      rw [hzero]
      exact Nat.mod_eq_of_lt h.models.cursor_lt
    rw [hcursor]
    exact ⟨rfl, h.forget⟩
  · rw [if_pos hzero, Outcome.bind_iff]
    apply Outcome.of_ok (fflush_eq h.models)
    have hpos : w.flushed.stream.pos = t.cursor := h.models.flushed.2.2
    rw [← hpos]
    exact ⟨rfl, h.moved (Nat.mod_lt _ (by decide)) _⟩

theorem seekEnd_agrees (h : Follows t stale w) {offset : BitVec 64}
    (hharm : w.stream.index = 0 ∨ w.stream.pos + w.stream.index ≤ w.server.length) :
    Call.Agrees (.seekEnd offset) t stale w := by
  have hlength : w.server.length = t.bytes.length := by
    rw [h.models.bytes]
    by_cases hidle : w.stream.index = 0
    · rw [List.length_eq_zero_iff.mp (w.stream.length_pending.trans hidle), spliced_nil]
    · have hinside := hharm.resolve_left hidle
      rw [length_spliced (List.ne_nil_of_length_pos (by rw [Stream.length_pending]; omega)),
        Stream.length_pending]
      omega
  unfold Call.Agrees Call.perform
  rw [Outcome.bind_iff, fseek, Outcome.bind_iff, outcome_onServer]
  change Outcome _ (fun _ w' => Outcome _ (fun r w' => r = Result.status 0 ∧
    Follows ⟨t.bytes, wrap (t.bytes.length + offset.toNat)⟩ false w') _ w') _ w
  have hstat : (arrayServer.stat w.server).1 = some w.server.length := rfl
  rw [hstat, ← hlength]
  dsimp only
  rw [Outcome.bind_iff]
  apply Outcome.of_ok (fflush_eq h.models)
  exact ⟨rfl, h.moved (Nat.mod_lt _ (by decide)) _⟩

theorem ftell_agrees (h : Follows t stale w) : Call.Agrees .ftell t stale w := by
  unfold Call.Agrees Call.perform
  rw [Outcome.bind_iff, ftell, Outcome.bind_iff]
  apply Outcome.of_ok (fflush_eq h.models)
  have hpos : w.flushed.stream.pos = t.cursor := h.models.flushed.2.2
  change Result.position (BitVec.ofNat 64 w.flushed.stream.pos) = .position _ ∧ _
  rw [hpos]
  exact ⟨rfl, h.flushed⟩

theorem fflush_agrees (h : Follows t stale w) : Call.Agrees .fflush t stale w := by
  unfold Call.Agrees Call.perform
  rw [Outcome.bind_iff]
  exact Outcome.of_ok (fflush_eq h.models) ⟨rfl, h.flushed⟩

/-! ## Runs -/

theorem call_agrees (h : Follows t stale w) (call : Call) (hharm : call.Harmless w stale) :
    call.Agrees t stale w := by
  cases call with
  | fwrite items => exact fwrite_agrees h hharm
  | fread nitems => exact fread_agrees h hharm
  | seekSet offset => exact seekSet_agrees h hharm
  | seekCur offset => exact seekCur_agrees h
  | seekEnd offset => exact seekEnd_agrees h hharm
  | ftell => exact ftell_agrees h
  | fflush => exact fflush_agrees h

theorem performCalls_agree (calls : List Call) : ∀ {t : Tape} {stale : Bool}
    {w : World (List Byte)}, Follows t stale w → AllHarmless calls stale w →
      Outcome (performCalls calls) (fun rs w' => rs = (tapeCalls calls t).1 ∧
        ∃ stale', Follows (tapeCalls calls t).2 stale' w') (fun _ _ => False) w := by
  induction calls with
  | nil =>
    intro t stale w h _
    exact ⟨rfl, stale, h⟩
  | cons call calls ih =>
    intro t stale w h hall
    obtain ⟨hharm, hrest⟩ := hall
    obtain ⟨r, w', hcall, rfl, h'⟩ := (call_agrees h call hharm).exists_ok
    rw [hcall] at hrest
    rw [performCalls, Outcome.bind_iff]
    apply Outcome.of_ok hcall
    rw [Outcome.bind_iff]
    apply (ih h' hrest).mono
    · rintro _ w'' ⟨rfl, h''⟩
      exact ⟨rfl, h''⟩
    · exact fun _ _ hfalse => hfalse

end

theorem follows_opened {mode : BufMode} {file : List Byte} (h : file.length < 2 ^ 64) :
    Follows ⟨file, 0⟩ false ⟨.opened mode, file⟩ := by
  constructor
  · exact ⟨rfl, rfl, show 0 < 2 ^ 64 by decide, h, Nat.zero_le _,
      show bufsiz ≤ fileMaxMsgSize by decide, rfl, Nat.le_refl 0⟩
  · show 0 < bufsiz
    decide
  · intro _
    constructor
    · exact (fresh_opened h).ready.holds
    · exact .inl rfl
    · exact fun heof => absurd heof Bool.false_ne_true

/-- A stream that has been opened answers a run of harmless calls as a byte array with a cursor does,
and a flush makes that array the file. -/
theorem stream_is_tape (mode : BufMode) (file : List Byte) (calls : List Call)
    (hfile : file.length < 2 ^ 64) (hharm : AllHarmless calls false ⟨.opened mode, file⟩) :
    ∃ w, performCalls calls ⟨.opened mode, file⟩ = .ok (tapeCalls calls ⟨file, 0⟩).1 w ∧
      ∃ w', fflush arrayServer w = .ok 0 w' ∧ w'.server = (tapeCalls calls ⟨file, 0⟩).2.bytes := by
  obtain ⟨rs, w, hrun, rfl, stale, hfollows⟩ :=
    (performCalls_agree calls (follows_opened hfile) hharm).exists_ok
  exact ⟨w, hrun, w.flushed, fflush_eq hfollows.models, hfollows.models.flushed.2.1⟩

/-! One byte is written into a file of four and read back, and then the position is asked for. -/

def nine : Items := ⟨1, 1, [9], rfl⟩

def fourOpened : World (List Byte) := ⟨.opened .blkBuf, [1, 2, 3, 4]⟩

def readBack : List Call := [.fread 1, .seekSet 2, .fwrite nine, .fread 1, .seekCur (-2), .fread 2]

theorem stream_is_tape_readBack :
    ∃ w, performCalls readBack fourOpened = .ok (tapeCalls readBack ⟨[1, 2, 3, 4], 0⟩).1 w := by
  have hharm : AllHarmless readBack false fourOpened := by decide +kernel
  obtain ⟨w, hrun, -⟩ := stream_is_tape .blkBuf [1, 2, 3, 4] readBack (by decide) hharm
  exact ⟨w, hrun⟩

/-- A read after a write gets what was buffered before it, a seek to `pos` leaves the cursor behind
the output, and a seek from the end goes to the old end. -/
theorem stream_not_tape :
    returned (performCalls [.fread 1, .fwrite nine, .fread 1] fourOpened) ≠
        some (tapeCalls [.fread 1, .fwrite nine, .fread 1] ⟨[1, 2, 3, 4], 0⟩).1 ∧
      returned (performCalls [.fwrite nine, .seekSet 0, .ftell] fourOpened) ≠
        some (tapeCalls [.fwrite nine, .seekSet 0, .ftell] ⟨[1, 2, 3, 4], 0⟩).1 ∧
      returned (performCalls [.seekSet 4, .fwrite nine, .seekEnd 0, .ftell] fourOpened) ≠
        some (tapeCalls [.seekSet 4, .fwrite nine, .seekEnd 0, .ftell] ⟨[1, 2, 3, 4], 0⟩).1 := by
  decide +kernel

end Egos.Stdio
