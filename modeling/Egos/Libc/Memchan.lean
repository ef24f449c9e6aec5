import Egos.Disk.Store
import Egos.Lib.Numerals
import Egos.Libc.Chars

/-!
# Memory channels

`mc_vprintf` takes its arguments one by one from eight-byte slots. Where it asks for an `int` it gets
the lower half of a slot, and the upper half may hold anything. What the strings are that pointers
lead to, and how a floating-point number is printed, are parameters.
-/
namespace Egos.Libc.Memchan

open Egos.Disk (Stop toInt toUnsigned)
open Egos.Lib

set_option autoImplicit false

/-- `struct mem_chan`: the bytes in front of `offset`, and the number of bytes that are allocated. -/
structure MemChan where
  buf : List Byte
  size : Nat
  fits : buf.length ≤ size
  bound : size < 2 ^ 32

def MemChan.offset (mc : MemChan) : Nat := mc.buf.length

abbrev ChanM := EStateM Stop MemChan

/-- A value that is read or computed, if that is defined. -/
def defined {σ α : Type} : Option α → EStateM Stop σ α
  | some a => pure a
  | none => throw .undefined

/-- The characters of a string literal. -/
def str (s : String) : Pointer := s.toList.map chr

def mcAlloc : MemChan where
  buf := []
  size := 0
  fits := Nat.le_refl _
  bound := by decide

/-- What is allocated before `size` more bytes are copied. -/
def MemChan.grown (mc : MemChan) (size : Nat) : Nat :=
  let wanted := (mc.offset + size) % 2 ^ 32
  if wanted > mc.size then
    let doubled := mc.size * 2 % 2 ^ 32
    if wanted > doubled then wanted else doubled
  else mc.size

theorem MemChan.grown_lt (mc : MemChan) (size : Nat) : mc.grown size < 2 ^ 32 := by
  have hbound := mc.bound
  unfold grown
  grind

def mcPut (buf : List Byte) : ChanM Unit := fun mc =>
  if h : mc.offset + buf.length ≤ mc.grown buf.length then
    .ok () {
      buf := mc.buf ++ buf
      size := mc.grown buf.length
      fits := Nat.le_trans (Nat.le_of_eq List.length_append) h
      bound := mc.grown_lt _ }
  else .error .undefined mc

def mcPutc (c : Byte) : ChanM Unit := mcPut [c]

def mcPuts : Pointer → ChanM Unit
  | [] => pure ()
  | c :: s => if c = 0 then pure () else do
    mcPutc c
    mcPuts s

/-! ## Integers -/

/-- `chars[k]` -/
def digitChar (caps : Bool) (k : Nat) : Byte :=
  (str (if caps then "0123456789ABCDEF" else "0123456789abcdef")).getD k 0

/-- The digits of `d` are put in front of `p`, while there is room in the buffer. -/
def digitLoop (base : Nat) (caps : Bool) : (room d : Nat) → (p : Pointer) → Option Pointer
  | 0, d, p => if d = 0 then some p else none
  | room + 1, d, p =>
    if d = 0 then some p
    else digitLoop base caps room (d / base) (digitChar caps (d % base) :: p)

/-- The last lines of both functions, for a `d` that is not negative: one of the 64 bytes of the
buffer is for the NUL. -/
def putDigits (base : Nat) (caps : Bool) (d : Nat) : ChanM Unit := do
  let p ← defined (digitLoop base caps 63 d [])
  mcPuts p

def mcUnsignedLongLong (d : BitVec 64) (base : Nat) (caps : Bool) : ChanM Unit :=
  if base < 2 ∨ base > 16 then mcPuts (str "<bad base>")
  else if d = 0 then mcPutc (chr '0')
  else putDigits base caps d.toNat

/-- `d = -d`, which overflows for the least value. -/
def negated (d : BitVec 64) : Option (BitVec 64) := if d = BitVec.intMin 64 then none else some (-d)

/-- The plus or the blank in front of a number that is not negative. -/
def putSign (d : BitVec 64) (optPlus optSpace : Bool) : ChanM Unit :=
  if optPlus then (if d.toInt ≥ 0 then mcPutc (chr '+') else pure ())
  else if optSpace then (if d.toInt > 0 then mcPutc (chr ' ') else pure ())
  else pure ()

def mcSignedLongLong (d : BitVec 64) (base : Nat) (caps optPlus optSpace : Bool) : ChanM Unit := do
  putSign d optPlus optSpace
  if base < 2 ∨ base > 16 then mcPuts (str "<bad base>")
  else if d = 0 then mcPutc (chr '0')
  else if d.toInt < 0 then do
    mcPutc (chr '-')
    let d ← defined (negated d)
    putDigits base caps d.toNat
  else putDigits base caps d.toNat

/-! ## Formats -/

/-- An argument of a call with `...`. -/
inductive Arg (δ : Type) where
  | word (slot : BitVec 64)
  | double (value : δ)

/-- The channel, and the arguments that have not been read. -/
structure Printing (δ : Type) where
  mc : MemChan
  ap : List (Arg δ)

/-- `opt_zero_padding`, `opt_left_adjust`, `opt_plus` and `opt_space` -/
structure Options where
  zeroPadding : Bool
  leftAdjust : Bool
  plus : Bool
  space : Bool
  deriving DecidableEq

def Options.none : Options := ⟨false, false, false, false⟩

/-- The loop over the flags. -/
def flagLoop (o : Options) : Pointer → Options × Pointer
  | [] => (o, [])
  | c :: s =>
    if c = chr '0' then flagLoop { o with zeroPadding := true } s
    else if c = chr '-' then flagLoop { o with leftAdjust := true } s
    else if c = chr '+' then flagLoop { o with plus := true } s
    else if c = chr ' ' then flagLoop { o with space := true } s
    else (o, c :: s)

/-- The length modifier is skipped. `modifier` is set to it, and never read. -/
def skipModifier (fmt : Pointer) : Pointer :=
  if fmt.take 2 = str "hh" ∨ fmt.take 2 = str "ll" then fmt.drop 2
  else if deref fmt = chr 'h' ∨ deref fmt = chr 'l' ∨ deref fmt = chr 'j' ∨ deref fmt = chr 't' ∨
      deref fmt = chr 'z' ∨ deref fmt = chr 'L' then fmt.tail
  else fmt

section

variable (signed : Bool)

/-- `min_field_width`, an `unsigned int` -/
def widthLoop : Nat → Pointer → Option (Nat × Pointer)
  | w, [] => some (w, [])
  | w, c :: s => do
    if ← isdigit signed c then
      widthLoop ((w * 10 % 2 ^ 32 + (c.toNat - (chr '0').toNat)) % 2 ^ 32) s
    else some (w, c :: s)

/-- The digits of `precision`, an `int`, which must not overflow. -/
def precisionLoop : Int → Pointer → Option (Int × Pointer)
  | precision, [] => some (precision, [])
  | precision, c :: s => do
    if ← isdigit signed c then
      let next := precision * 10 + (c.toNat - (chr '0').toNat : Nat)
      if next < 2 ^ 31 then precisionLoop next s else none
    else some (precision, c :: s)

end

/-- `while ((int) min_field_width > precision)`, with as many rounds as there can be. -/
def pad (c : Byte) (precision : Int) : (rounds width : Nat) → ChanM Nat
  | 0, width => pure width
  | rounds + 1, width =>
    if toInt width > precision then do
      mcPutc c
      pad c precision rounds (toUnsigned ((width : Int) - 1))
    else pure width

/-- `if (!opt_left_adjust)` -/
def padFront (o : Options) (precision : Int) (width : Nat) : ChanM Nat :=
  if o.leftAdjust then pure width
  else pad (if o.zeroPadding then chr '0' else chr ' ') precision (toInt width - precision).toNat width

/-- For integral types the precision limits the size of the output, for floating-point types it does
not. -/
def putText (c : Byte) (precision : Int) (mc2 : MemChan) : ChanM Unit :=
  if c = chr 'f' ∨ c = chr 'F' then mcPut mc2.buf else mcPut (mc2.buf.take (toUnsigned precision))

/-- Copy into the main channel, observing the formatting options. -/
def copyOut (c : Byte) (o : Options) (width : Nat) (precision : Int) (mc2 : MemChan) : ChanM Unit := do
  let precision :=
    if precision < 0 then toInt mc2.offset
    else if toInt mc2.offset < precision then toInt mc2.offset
    else precision
  let width ← padFront o precision width
  putText c precision mc2
  let _ ← pad (chr ' ') precision (toInt width - precision).toNat width

section

variable {δ : Type}

abbrev PrintM (δ : Type) := EStateM Stop (Printing δ)

/-- `va_arg` for an integer or a pointer. -/
def vaArg : PrintM δ (BitVec 64) := fun p =>
  match p.ap with
  | .word slot :: ap => .ok slot { p with ap := ap }
  | _ => .error .undefined p

/-- `va_arg(ap, double)` -/
def vaDouble : PrintM δ δ := fun p =>
  match p.ap with
  | .double value :: ap => .ok value { p with ap := ap }
  | _ => .error .undefined p

/-- An `int` or an `unsigned int` in a slot. -/
def word (slot : BitVec 64) : BitVec 32 := slot.setWidth 32

/-- Print on the main channel. -/
def onMc {α : Type} (m : ChanM α) : PrintM δ α := onPart Printing.mc (fun p mc => { p with mc := mc }) m

/-- Print into a separate channel first. -/
def separately (m : ChanM Unit) : PrintM δ MemChan := fun p =>
  match m mcAlloc with
  | .ok _ mc2 => .ok mc2 p
  | .error e _ => .error e p

/-- Behind the width: the precision, -1 if there is none. -/
def readPrecision (signed : Bool) (fmt : Pointer) : PrintM δ (Int × Pointer) :=
  if deref fmt = chr '.' then
    if deref fmt.tail = chr '*' then do
      let slot ← vaArg
      pure (toInt (word slot).toNat, fmt.tail.tail)
    else defined (precisionLoop signed 0 fmt.tail)
  else pure (-1, fmt)

variable (signed : Bool) (stringAt : BitVec 64 → Option Pointer)
  (mcSignedDouble : δ → Int → Bool → Bool → Bool → ChanM Unit)

/-- `switch(*fmt)` -/
def convert (c : Byte) (o : Options) (precision : Int) : PrintM δ MemChan :=
  if c = chr 'c' then do
    let slot ← vaArg
    separately (mcPutc (slot.setWidth 8))
  else if c = chr 'd' ∨ c = chr 'i' then do
    let slot ← vaArg
    separately (mcSignedLongLong ((word slot).signExtend 64) 10 false o.plus o.space)
  else if c = chr 'D' then do
    let slot ← vaArg
    separately (mcSignedLongLong slot 10 false o.plus o.space)
  else if c = chr 's' then do
    let slot ← vaArg
    let s ← defined (stringAt slot)
    separately (mcPuts s)
  else if c = chr 'u' then do
    let slot ← vaArg
    separately (mcUnsignedLongLong ((word slot).setWidth 64) 10 false)
  else if c = chr 'U' then do
    let slot ← vaArg
    separately (mcUnsignedLongLong slot 10 false)
  else if c = chr 'o' then do
    let slot ← vaArg
    separately (mcUnsignedLongLong ((word slot).setWidth 64) 8 false)
  else if c = chr 'O' then do
    let slot ← vaArg
    separately (mcUnsignedLongLong slot 8 false)
  else if c = chr 'x' then do
    let slot ← vaArg
    separately (mcUnsignedLongLong ((word slot).setWidth 64) 16 false)
  else if c = chr 'X' then do
    let slot ← vaArg
    separately (mcUnsignedLongLong ((word slot).setWidth 64) 16 true)
  else if c = chr 'p' then do
    let slot ← vaArg
    separately (mcUnsignedLongLong slot 16 false)
  else if c = chr 'f' then do
    let value ← vaDouble
    separately (mcSignedDouble value precision false o.plus o.space)
  else if c = chr 'F' then do
    let value ← vaDouble
    separately (mcSignedDouble value precision true o.plus o.space)
  else separately (mcPutc c)

/-- A conversion, from behind its `%` on, and where the format goes on. At its end the loop stops. -/
def conversion (fmt : Pointer) : PrintM δ Pointer := do
  let (o, fmt) := flagLoop .none fmt
  let (width, fmt) ← defined (widthLoop signed 0 fmt)
  let (precision, fmt) ← readPrecision signed fmt
  let fmt := skipModifier fmt
  if deref fmt = 0 then pure fmt
  else do
    let mc2 ← convert stringAt mcSignedDouble (deref fmt) o precision
    onMc (copyOut (deref fmt) o width precision mc2)
    pure fmt.tail

/-- `while (*fmt != 0)` -/
def printLoop : (rounds : Nat) → Pointer → PrintM δ Unit
  | 0, _ => pure ()
  | rounds + 1, fmt =>
    if deref fmt = 0 then pure ()
    else if deref fmt ≠ chr '%' then do
      onMc (mcPutc (deref fmt))
      printLoop rounds fmt.tail
    else do
      let fmt ← conversion signed stringAt mcSignedDouble fmt.tail
      printLoop rounds fmt

/-- Each round takes a character at least. -/
def mcVprintf (fmt : Pointer) : PrintM δ Unit :=
  printLoop signed stringAt mcSignedDouble fmt.length fmt

end

/-! ## What is appended -/

/-- The program appends a text and returns, whenever a channel has room for it. The offset is an
`unsigned int`, and what goes beyond it is written outside of the buffer. -/
def Writes {α : Type} (m : ChanM α) (text : List Byte) (a : α) : Prop :=
  ∀ mc, if mc.offset + text.length < 2 ^ 32 then
    ∃ mc', m mc = .ok a mc' ∧ mc'.buf = mc.buf ++ text
  else stopped (m mc) = some .undefined

namespace Writes

variable {α β : Type} {m : ChanM α} {f : α → ChanM β} {text text' : List Byte} {a : α} {b : β}

theorem congr (h : Writes m text a) (htext : text = text') : Writes m text' a := htext ▸ h

theorem pure (a : α) : Writes (pure a) [] a := by
  intro mc
  have hroom : mc.offset + ([] : List Byte).length < 2 ^ 32 := Nat.lt_of_le_of_lt mc.fits mc.bound
  rw [if_pos hroom]
  exact ⟨mc, rfl, (List.append_nil _).symm⟩

theorem bind (h : Writes m text a) (hf : Writes (f a) text' b) :
    Writes (m >>= f) (text ++ text') b := by
  intro mc
  have hfirst := h mc
  by_cases hroom : mc.offset + text.length < 2 ^ 32
  · rw [if_pos hroom] at hfirst
    obtain ⟨mid, hm, hbuf⟩ := hfirst
    have hoffset : mid.offset = mc.offset + text.length := by
      unfold MemChan.offset
      rw [hbuf, List.length_append]
    have hsecond := hf mid
    rw [hoffset, Nat.add_assoc, ← List.length_append] at hsecond
    rw [bind_ok hm]
    split at hsecond
    · rename_i hboth
      obtain ⟨mc', hm', hbuf'⟩ := hsecond
      rw [if_pos hboth]
      exact ⟨mc', hm', by rw [hbuf', hbuf, List.append_assoc]⟩
    · rename_i hboth
      rw [if_neg hboth]
      exact hsecond
  · rw [if_neg hroom] at hfirst
    rw [if_neg (by rw [List.length_append]; omega),
      bind_error (eq_error_of_stopped hfirst)]
    rfl

theorem seq {m' : ChanM β} (h : Writes m text a) (h' : Writes m' text' b) :
    Writes (m >>= fun _ => m') (text ++ text') b :=
  bind h h'

theorem undefined (h : Writes m text a) (hf : ∀ mc, stopped (f a mc) = some .undefined)
    (mc : MemChan) : stopped ((m >>= f) mc) = some .undefined := by
  have hfirst := h mc
  split at hfirst
  · obtain ⟨mid, hm, -⟩ := hfirst
    rw [bind_ok hm]
    exact hf mid
  · rw [bind_error (eq_error_of_stopped hfirst)]
    rfl

/-- A text that does not end at the limit of a channel is appended to an empty one. -/
theorem alloc (h : Writes m text a) (hroom : text.length < 2 ^ 32) :
    ∃ mc2, m mcAlloc = .ok a mc2 ∧ mc2.buf = text := by
  have hempty := h mcAlloc
  rw [if_pos (by simpa [MemChan.offset, mcAlloc] using hroom)] at hempty
  exact hempty

theorem onMc {δ : Type} (h : Writes m text a) (p : Printing δ) :
    if p.mc.offset + text.length < 2 ^ 32 then
      ∃ mc', onMc m p = .ok a ⟨mc', p.ap⟩ ∧ mc'.buf = p.mc.buf ++ text
    else stopped (onMc m p) = some .undefined := by
  have hmc := h p.mc
  split at hmc
  · rename_i hroom
    obtain ⟨mc', hm, hbuf⟩ := hmc
    rw [if_pos hroom]
    exact ⟨mc', onPart_ok hm, hbuf⟩
  · rename_i hroom
    rw [if_neg hroom]
    unfold Memchan.onMc onPart
    rw [eq_error_of_stopped hmc]
    rfl

end Writes

/-- The buffer grows as long as its size is an `unsigned int`. -/
theorem writes_mcPut (buf : List Byte) : Writes (mcPut buf) buf () := by
  intro mc
  have hfits := mc.fits
  unfold mcPut
  split
  · rename_i hroom
    have hgrown : mc.offset + buf.length ≤ mc.grown buf.length := by
      unfold MemChan.grown
      rw [Nat.mod_eq_of_lt hroom]
      grind
    rw [dif_pos hgrown]
    exact ⟨_, rfl, rfl⟩
  · rename_i hroom
    have hgrown := mc.grown_lt buf.length
    rw [dif_neg (by omega)]
    rfl

theorem writes_mcPutc (c : Byte) : Writes (mcPutc c) [c] () := writes_mcPut [c]

theorem writes_mcPuts {s : Pointer} (hs : ∀ c ∈ s, c ≠ 0) : Writes (mcPuts s) s () := by
  induction s with
  | nil => exact Writes.pure ()
  | cons c s ih =>
    unfold mcPuts
    rw [if_neg (hs c List.mem_cons_self)]
    exact (writes_mcPutc c).seq (ih fun k hk => hs k (List.mem_cons_of_mem c hk))

/-- The loop finds the numeral, if the buffer is long enough for it. -/
theorem digitLoop_eq {base room d : Nat} (caps : Bool) (hbase : 1 < base) (hd : 0 < d)
    (hroom : d < base ^ room) (p : Pointer) :
    digitLoop base caps room d p = some (numeral (digitChar caps) base d ++ p) := by
  induction room generalizing d p with
  | zero =>
    rw [Nat.pow_zero] at hroom
    omega
  | succ room ih =>
    rw [digitLoop, if_neg (Nat.ne_of_gt hd)]
    by_cases hsmall : d < base
    · have hstop : ∀ q, digitLoop base caps room 0 q = some q := by
        intro q
        cases room <;> rfl
      rw [Nat.div_eq_of_lt hsmall, hstop, Nat.mod_eq_of_lt hsmall, numeral_of_lt _ hsmall]
      rfl
    · have hquotient : 0 < d / base := Nat.div_pos (Nat.not_lt.mp hsmall) (by omega)
      have hless : d / base < base ^ room := Nat.div_lt_of_lt_mul (by rwa [← Nat.pow_succ'])
      rw [ih hquotient hless, numeral_step _ hbase (Nat.not_lt.mp hsmall), List.append_assoc]
      rfl

section

variable {base : Nat} {caps : Bool}

theorem digitChar_zero (caps : Bool) : digitChar caps 0 = chr '0' := by cases caps <;> rfl

theorem digitChar_ne_zero (hbase : base ≤ 16) : ∀ k < base, digitChar caps k ≠ 0 := by
  have hall : ∀ caps, ∀ k < 16, digitChar caps k ≠ 0 := by decide
  intro k hk
  exact hall caps k (Nat.lt_of_lt_of_le hk hbase)

/-- No value of 64 bits has more than 22 digits in a base from 8 on. -/
theorem lt_pow_of_base (hbase : 8 ≤ base) {d : Nat} (hd : d < 2 ^ 64) : d < base ^ 22 :=
  calc d < 2 ^ 64 := hd
    _ ≤ 8 ^ 22 := by decide
    _ ≤ base ^ 22 := Nat.pow_le_pow_left hbase 22

theorem writes_putDigits (hlow : 8 ≤ base) (hhigh : base ≤ 16) {d : Nat} (hpos : 0 < d)
    (hd : d < 2 ^ 64) : Writes (putDigits base caps d) (numeral (digitChar caps) base d) () := by
  have hbase : 1 < base := by omega
  have hroom : d < base ^ 63 :=
    Nat.lt_of_lt_of_le (lt_pow_of_base hlow hd) (Nat.pow_le_pow_right (by omega) (by decide))
  unfold putDigits
  rw [digitLoop_eq caps hbase hpos hroom, List.append_nil]
  have hdigits : ∀ c ∈ numeral (digitChar caps) base d, c ≠ 0 :=
    forall_mem_numeral (P := fun c => c ≠ 0) _ hbase (digitChar_ne_zero hhigh) d
  exact writes_mcPuts hdigits

/-- A zero has a digit of its own. -/
theorem writes_magnitude (hlow : 8 ≤ base) (hhigh : base ≤ 16) (d : BitVec 64) :
    Writes (if d = 0 then mcPutc (chr '0') else putDigits base caps d.toNat)
      (numeral (digitChar caps) base d.toNat) () := by
  by_cases hd : d = 0
  · have hnumeral : numeral (digitChar caps) base d.toNat = [chr '0'] := by
      rw [hd, ← digitChar_zero caps]
      exact numeral_zero _ _
    rw [if_pos hd, hnumeral]
    exact writes_mcPutc _
  · have hpos : 0 < d.toNat := Nat.pos_of_ne_zero fun h => hd (BitVec.eq_of_toNat_eq h)
    rw [if_neg hd]
    exact writes_putDigits hlow hhigh hpos d.isLt

theorem writes_mcUnsignedLongLong (hlow : 8 ≤ base) (hhigh : base ≤ 16) (d : BitVec 64) :
    Writes (mcUnsignedLongLong d base caps) (numeral (digitChar caps) base d.toNat) () := by
  unfold mcUnsignedLongLong
  rw [if_neg (by omega)]
  exact writes_magnitude hlow hhigh d

end

/-- The sign that is printed. The blank is missing in front of a zero. -/
def signOf (v : Int) (optPlus optSpace : Bool) : Pointer :=
  if v < 0 then [chr '-']
  else if optPlus then [chr '+']
  else if optSpace ∧ v ≠ 0 then [chr ' ']
  else []

section

variable {d : BitVec 64} {optPlus optSpace : Bool}

theorem putSign_neg (hd : d.toInt < 0) : putSign d optPlus optSpace = pure () := by
  have hplus : ¬ d.toInt ≥ 0 := by omega
  have hspace : ¬ d.toInt > 0 := by omega
  simp [putSign, hplus, hspace]

theorem writes_putSign (hd : 0 ≤ d.toInt) :
    Writes (putSign d optPlus optSpace) (signOf d.toInt optPlus optSpace) () := by
  unfold putSign signOf
  rw [if_neg (show ¬ d.toInt < 0 by omega)]
  cases optPlus with
  | true =>
    rw [if_pos rfl, if_pos hd]
    exact writes_mcPutc _
  | false =>
    cases optSpace with
    | false => exact Writes.pure ()
    | true =>
      by_cases hpos : 0 < d.toInt
      · simpa [hpos, Int.ne_of_gt hpos] using writes_mcPutc (chr ' ')
      · have hzero : d.toInt = 0 := by omega
        simpa [hzero] using Writes.pure ()

theorem toNat_of_nonneg (hd : 0 ≤ d.toInt) : d.toNat = d.toInt.natAbs := by
  have hcond := BitVec.toInt_eq_toNat_cond d
  have hlt := d.isLt
  split at hcond <;> omega

theorem toNat_neg_of_neg (hd : d.toInt < 0) : (-d).toNat = d.toInt.natAbs := by
  have hcond := BitVec.toInt_eq_toNat_cond d
  have hlt := d.isLt
  rw [BitVec.toNat_neg]
  split at hcond <;> omega

/-- The least value stops the program, and every other one is printed. -/
theorem writes_mcSignedLongLong {base : Nat} {caps : Bool} (hlow : 8 ≤ base) (hhigh : base ≤ 16)
    (hd : d ≠ BitVec.intMin 64) :
    Writes (mcSignedLongLong d base caps optPlus optSpace)
      (signOf d.toInt optPlus optSpace ++ numeral (digitChar caps) base d.toInt.natAbs) () := by
  unfold mcSignedLongLong
  rw [if_neg (by omega)]
  by_cases hneg : d.toInt < 0
  · have hzero : d ≠ 0 := by
      intro h
      rw [h] at hneg
      exact absurd hneg (by decide)
    have hminus : signOf d.toInt optPlus optSpace = [] ++ [chr '-'] := if_pos hneg
    have hpos : 0 < d.toInt.natAbs := by omega
    have hlt : d.toInt.natAbs < 2 ^ 64 := by
      rw [← toNat_neg_of_neg hneg]
      exact (-d).isLt
    rw [putSign_neg hneg, if_neg hzero, if_pos hneg, hminus, List.append_assoc]
    apply (Writes.pure _).seq
    apply (writes_mcPutc _).seq
    rw [negated, if_neg hd]
    have hdigits : Writes (putDigits base caps (-d).toNat)
        (numeral (digitChar caps) base d.toInt.natAbs) () := by
      rw [toNat_neg_of_neg hneg]
      exact writes_putDigits hlow hhigh hpos hlt
    exact hdigits
  · have hnonneg : 0 ≤ d.toInt := by omega
    apply (writes_putSign hnonneg).seq
    rw [if_neg hneg, ← toNat_of_nonneg hnonneg]
    exact writes_magnitude hlow hhigh d

/-- The least value cannot be negated. -/
theorem mcSignedLongLong_intMin (base : Nat) (caps : Bool) (hbase : ¬ (base < 2 ∨ base > 16))
    (mc : MemChan) : stopped
      (mcSignedLongLong (BitVec.intMin 64) base caps optPlus optSpace mc) = some .undefined := by
  have hneg : (BitVec.intMin 64).toInt < 0 := by decide
  unfold mcSignedLongLong
  rw [putSign_neg hneg, if_neg hbase, if_neg (by decide), if_pos hneg]
  apply (Writes.pure _).undefined
  apply (writes_mcPutc _).undefined
  intro mc
  rfl

end

/-! ## Fields -/

/-- The text of a conversion with blanks or zeros beside it, as many as the width asks for. -/
def layout (o : Options) (width : Nat) (text : List Byte) : List Byte :=
  if o.leftAdjust then text ++ List.replicate (width - text.length) (chr ' ')
  else List.replicate (width - text.length) (if o.zeroPadding then chr '0' else chr ' ') ++ text

theorem toInt_pred {width : Nat} (hless : -2 ^ 31 < toInt width) :
    toInt (toUnsigned ((width : Int) - 1)) = toInt width - 1 := by
  unfold toInt toUnsigned at *
  split at hless <;> split <;> omega

/-- The loop ends with a width that is no more than the precision. -/
theorem writes_pad (c : Byte) {precision : Int} (hprecision : -2 ^ 31 ≤ precision)
    {rounds width : Nat} (hrounds : rounds = (toInt width - precision).toNat) :
    ∃ width', toInt width' ≤ precision ∧
      Writes (pad c precision rounds width) (List.replicate rounds c) width' := by
  induction rounds generalizing width with
  | zero => exact ⟨width, by omega, Writes.pure width⟩
  | succ rounds ih =>
    have hmore : toInt width > precision := by omega
    have hpred : toInt (toUnsigned ((width : Int) - 1)) = toInt width - 1 := toInt_pred (by omega)
    have hnext : rounds = (toInt (toUnsigned ((width : Int) - 1)) - precision).toNat := by omega
    obtain ⟨width', hend, hwrites⟩ := ih hnext
    refine ⟨width', hend, ?_⟩
    unfold pad
    rw [if_pos hmore]
    exact (writes_mcPutc c).seq hwrites

theorem pad_done (c : Byte) {precision : Int} {width : Nat} (h : toInt width ≤ precision) :
    pad c precision (toInt width - precision).toNat width = pure width := by
  rw [show (toInt width - precision).toNat = 0 by omega]
  rfl

section

variable {mc2 : MemChan} (htext : mc2.buf.length < 2 ^ 31)
include htext

theorem toInt_offset : toInt mc2.offset = mc2.buf.length := Egos.Disk.toInt_eq htext

theorem writes_putText (c : Byte) : Writes (putText c mc2.buf.length mc2) mc2.buf () := by
  have htake : mc2.buf.take (toUnsigned mc2.buf.length) = mc2.buf := by
    have hoffset : mc2.offset < 2 ^ 32 := Nat.lt_of_le_of_lt mc2.fits mc2.bound
    rw [← toInt_offset htext, Egos.Disk.toUnsigned_toInt hoffset]
    exact List.take_length
  unfold putText
  rw [htake, ite_self]
  exact writes_mcPut _

/-- Without a precision all of the text is copied. -/
theorem writes_copyOut (c : Byte) (o : Options) (width : Nat) :
    Writes (copyOut c o width (-1) mc2) (layout o (toInt width).toNat mc2.buf) () := by
  have hmissing : (toInt width - (mc2.buf.length : Int)).toNat =
      (toInt width).toNat - mc2.buf.length := by omega
  have hpad : ∀ c, ∃ width', toInt width' ≤ (mc2.buf.length : Int) ∧
      Writes (pad c mc2.buf.length (toInt width - (mc2.buf.length : Int)).toNat width)
        (List.replicate ((toInt width).toNat - mc2.buf.length) c) width' := by
    intro c
    obtain ⟨width', hend, hwrites⟩ := writes_pad c (show -2 ^ 31 ≤ (mc2.buf.length : Int) by omega) rfl
    exact ⟨width', hend, hwrites.congr (by rw [hmissing])⟩
  have hput := writes_putText htext c
  unfold copyOut layout padFront
  rw [toInt_offset htext]
  change Writes ((if o.leftAdjust = true then _ else _) >>= fun width =>
    putText c mc2.buf.length mc2 >>= fun _ =>
    pad (chr ' ') mc2.buf.length _ width >>= fun _ => pure ()) _ _
  cases o.leftAdjust with
  | true =>
    obtain ⟨width', -, hwrites⟩ := hpad (chr ' ')
    exact ((Writes.pure width).bind (hput.seq (hwrites.bind (Writes.pure ())))).congr (by simp)
  | false =>
    obtain ⟨width', hend, hwrites⟩ := hpad (if o.zeroPadding then chr '0' else chr ' ')
    have hrest : Writes (pad (chr ' ') mc2.buf.length
        (toInt width' - (mc2.buf.length : Int)).toNat width') [] width' := by
      rw [pad_done _ hend]
      exact Writes.pure width'
    exact (hwrites.bind (hput.seq (hrest.bind (Writes.pure ())))).congr (by simp)

end

end Egos.Libc.Memchan
