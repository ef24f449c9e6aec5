import Egos.Libc.Formats

/-!
# Integers are printed as they are asked for

The text of a conversion is a sign, as many zeros as the width asks for, the numeral, and blanks on
one side. `mc_vprintf` appends it exactly if none of the following is met: a value that its modifier
would allow but an `int` cannot hold, the least `long`, a zero that a blank should stand in front of,
zeros between a sign and the digits, a width that is negative as an `int`, a full channel.
-/
namespace Egos.Libc.Memchan

open Egos.Disk (Stop toInt)
open Egos.Lib
open Egos.Libc.Strtol (isDigitOf)

set_option autoImplicit false

/-- The letters for signed integers. -/
def Letter.signed : Letter → Bool
  | .d | .i | .D => true
  | _ => false

def Letter.base : Letter → Nat
  | .o | .O => 8
  | .x | .X => 16
  | _ => 10

def Letter.caps : Letter → Bool
  | .X => true
  | _ => false

/-- The integer in a slot, of 64 bits or of 32. -/
def integer (signed wide : Bool) (slot : BitVec 64) : Int :=
  if signed then (if wide then slot.toInt else (word slot).toInt)
  else (if wide then slot.toNat else (word slot).toNat)

/-! ## What is asked for -/

namespace Directive

variable (dir : Directive)

/-- The type of the argument has 64 bits. -/
def wide : Bool := dir.letter.long || decide (dir.length ≠ .none)

/-- The value of the argument, of the type that the conversion names. -/
def value (slot : BitVec 64) : Int := integer dir.letter.signed dir.wide slot

def digits (v : Int) : List Byte := numeral (digitChar dir.letter.caps) dir.letter.base v.natAbs

/-- The sign, as flagged. -/
def sign (v : Int) : List Byte :=
  if dir.letter.signed = false then []
  else if v < 0 then [chr '-']
  else if .plus ∈ dir.flags then [chr '+']
  else if .space ∈ dir.flags then [chr ' ']
  else []

/-- The text for a value: on the left, or with zeros behind the sign, or on the right. -/
def expected (v : Int) : List Byte :=
  let missing := dir.width - (dir.sign v ++ dir.digits v).length
  if .minus ∈ dir.flags then dir.sign v ++ (dir.digits v ++ List.replicate missing (chr ' '))
  else if .zero ∈ dir.flags then dir.sign v ++ (List.replicate missing (chr '0') ++ dir.digits v)
  else List.replicate missing (chr ' ') ++ (dir.sign v ++ dir.digits v)

end Directive

/-- The digits in a text are parsed, and a minus is applied. -/
def readBack (base : Nat) (text : List Byte) : Int :=
  (if text.contains (chr '-') then -1 else 1) *
    (Strtol.numeral base (text.filter (isDigitOf base)) : Int)

/-! ## What is printed -/

namespace Directive

variable (dir : Directive)

/-- The value that `mc_vprintf` takes from the slot. It does not know the modifier. -/
def read (slot : BitVec 64) : Int := integer dir.letter.signed dir.letter.long slot

def printedSign (v : Int) : List Byte :=
  if dir.letter.signed then signOf v dir.options.plus dir.options.space else []

def printed (v : Int) : List Byte :=
  layout dir.options (toInt (dir.width % 2 ^ 32)).toNat (dir.printedSign v ++ dir.digits v)

end Directive

/-- The call for a letter in `convert`. -/
def Letter.print (letter : Letter) (slot : BitVec 64) (o : Options) : ChanM Unit :=
  if letter.signed then
    mcSignedLongLong (if letter.long then slot else (word slot).signExtend 64) letter.base
      letter.caps o.plus o.space
  else
    mcUnsignedLongLong (if letter.long then slot else (word slot).setWidth 64) letter.base letter.caps

theorem base_range (letter : Letter) : 8 ≤ letter.base ∧ letter.base ≤ 16 := by
  cases letter <;> decide

theorem toInt_argument (slot : BitVec 64) (long : Bool) :
    (if long then slot else (word slot).signExtend 64).toInt = integer true long slot := by
  cases long with
  | true => rfl
  | false => exact BitVec.toInt_signExtend_of_le (by decide)

theorem toNat_argument (slot : BitVec 64) (long : Bool) :
    (if long then slot else (word slot).setWidth 64).toNat = (integer false long slot).natAbs := by
  cases long with
  | true => rfl
  | false => exact BitVec.toNat_setWidth_of_le (by decide)

/-- An `int` is never the least `long`. -/
theorem argument_ne_intMin {letter : Letter} {slot : BitVec 64} (hs : letter.signed = true)
    (h : ¬ (letter = .D ∧ slot = BitVec.intMin 64)) :
    (if letter.long then slot else (word slot).signExtend 64) ≠ BitVec.intMin 64 := by
  cases hlong : letter.long with
  | true =>
    have hletter : letter = .D := by
      revert hs hlong
      cases letter <;> decide
    intro hmin
    exact h ⟨hletter, hmin⟩
  | false =>
    intro hmin
    have hvalue : (word slot).toInt = (BitVec.intMin 64).toInt := by
      rw [← hmin]
      exact (toInt_argument slot false).symm
    have hlow : -2 ^ 31 ≤ (word slot).toInt := BitVec.le_toInt (word slot)
    rw [hvalue] at hlow
    exact absurd hlow (by decide)

theorem writes_print {dir : Directive} {slot : BitVec 64}
    (h : ¬ (dir.letter = .D ∧ slot = BitVec.intMin 64)) :
    Writes (dir.letter.print slot dir.options)
      (dir.printedSign (dir.read slot) ++ dir.digits (dir.read slot)) () := by
  obtain ⟨hlow, hhigh⟩ := base_range dir.letter
  unfold Letter.print Directive.printedSign Directive.read Directive.digits
  cases hs : dir.letter.signed with
  | true =>
    rw [if_pos rfl, if_pos rfl, ← toInt_argument]
    exact writes_mcSignedLongLong hlow hhigh (argument_ne_intMin hs h)
  | false =>
    rw [if_neg Bool.false_ne_true, if_neg Bool.false_ne_true, ← toNat_argument]
    exact writes_mcUnsignedLongLong hlow hhigh _

theorem print_intMin (o : Options) (mc : MemChan) :
    stopped (Letter.D.print (BitVec.intMin 64) o mc) = some .undefined :=
  mcSignedLongLong_intMin 10 false (by decide) mc

section

variable {δ : Type} (stringAt : BitVec 64 → Option Pointer)
  (mcSignedDouble : δ → Int → Bool → Bool → Bool → ChanM Unit)

theorem convert_char (letter : Letter) (o : Options) (precision : Int) :
    convert stringAt mcSignedDouble letter.char o precision = (do
      let slot ← vaArg
      separately (letter.print slot o)) := by
  cases letter <;> rfl

variable (dir : Directive)

theorem natAbs_integer_lt (signed wide : Bool) (slot : BitVec 64) :
    (integer signed wide slot).natAbs < 2 ^ 64 := by
  have hword := (word slot).isLt
  have hslot := slot.isLt
  have hlow := BitVec.le_toInt slot
  have hhigh := BitVec.toInt_lt (x := slot)
  have hlow' := BitVec.le_toInt (word slot)
  have hhigh' := BitVec.toInt_lt (x := word slot)
  unfold integer
  cases signed <;> cases wide <;> simp only [if_true, if_false, Bool.false_eq_true] <;> omega

theorem length_printedSign_le (v : Int) : (dir.printedSign v).length ≤ 1 := by
  unfold Directive.printedSign signOf
  grind

theorem length_text_le (slot : BitVec 64) :
    (dir.printedSign (dir.read slot) ++ dir.digits (dir.read slot)).length ≤ 23 := by
  have hdigits : (dir.digits (dir.read slot)).length ≤ 22 := by
    obtain ⟨hlow, -⟩ := base_range dir.letter
    apply length_numeral_le
    · omega
    · exact lt_pow_of_base hlow (natAbs_integer_lt _ _ slot)
    · decide
  have hsign := length_printedSign_le dir (dir.read slot)
  rw [List.length_append]
  omega

theorem printOne_run {slot : BitVec 64} (h : ¬ (dir.letter = .D ∧ slot = BitVec.intMin 64))
    (mc : MemChan) (ap : List (Arg δ)) :
    if mc.offset + (dir.printed (dir.read slot)).length < 2 ^ 32 then
      ∃ mc', printOne stringAt mcSignedDouble dir ⟨mc, .word slot :: ap⟩ = .ok () ⟨mc', ap⟩ ∧
        mc'.buf = mc.buf ++ dir.printed (dir.read slot)
    else stopped (printOne stringAt mcSignedDouble dir ⟨mc, .word slot :: ap⟩) = some .undefined := by
  have hlength := length_text_le dir slot
  obtain ⟨mc2, hprint, hbuf⟩ :=
    (writes_print h).alloc (Nat.lt_of_le_of_lt hlength (by decide))
  have hconvert : convert stringAt mcSignedDouble dir.letter.char dir.options (-1)
      ⟨mc, .word slot :: ap⟩ = .ok mc2 ⟨mc, ap⟩ := by
    rw [convert_char]
    change separately (dir.letter.print slot dir.options) ⟨mc, ap⟩ = _
    unfold separately
    rw [hprint]
  have hcopy : Writes (copyOut dir.letter.char dir.options (dir.width % 2 ^ 32) (-1) mc2)
      (dir.printed (dir.read slot)) () := by
    unfold Directive.printed
    rw [← hbuf] at hlength ⊢
    exact writes_copyOut (Nat.lt_of_le_of_lt hlength (by decide)) _ _ _
  unfold printOne
  rw [bind_ok hconvert]
  exact hcopy.onMc ⟨mc, ap⟩

theorem printOne_intMin (hletter : dir.letter = .D) (mc : MemChan) (ap : List (Arg δ)) :
    stopped (printOne stringAt mcSignedDouble dir ⟨mc, .word (BitVec.intMin 64) :: ap⟩) =
      some .undefined := by
  have hprint := eq_error_of_stopped (print_intMin dir.options mcAlloc)
  have hconvert : convert stringAt mcSignedDouble dir.letter.char dir.options (-1)
      ⟨mc, .word (BitVec.intMin 64) :: ap⟩ = .error .undefined ⟨mc, ap⟩ := by
    rw [convert_char, hletter]
    change separately (Letter.D.print (BitVec.intMin 64) dir.options) ⟨mc, ap⟩ = _
    unfold separately
    rw [hprint]
  unfold printOne
  rw [bind_error hconvert]
  rfl

end

/-! ## Reading back -/

section

variable (dir : Directive)

/-- The characters that stand beside the digits. -/
def Filler (c : Byte) : Prop := c = chr ' ' ∨ c = chr '0' ∨ c = chr '+' ∨ c = chr '-'

theorem eq_zero_of_isDigitOf {letter : Letter} {c : Byte} (hc : Filler c)
    (hdigit : isDigitOf letter.base c = true) : c = chr '0' := by
  have hspace : isDigitOf letter.base (chr ' ') = false := by cases letter <;> decide
  have hplus : isDigitOf letter.base (chr '+') = false := by cases letter <;> decide
  have hminus : isDigitOf letter.base (chr '-') = false := by cases letter <;> decide
  rcases hc with rfl | rfl | rfl | rfl
  · rw [hspace] at hdigit
    cases hdigit
  · rfl
  · rw [hplus] at hdigit
    cases hdigit
  · rw [hminus] at hdigit
    cases hdigit

theorem isDigitOf_digits (v : Int) : ∀ c ∈ dir.digits v, isDigitOf dir.letter.base c = true := by
  obtain ⟨hlow, hhigh⟩ := base_range dir.letter
  have hall : ∀ caps, ∀ k < dir.letter.base,
      isDigitOf dir.letter.base (digitChar caps k) = true := by
    cases dir.letter <;> decide +kernel
  exact forall_mem_numeral (P := fun c => isDigitOf dir.letter.base c = true) _ (by omega)
    (hall dir.letter.caps) v.natAbs

/-- Whatever fills the field, the digits are those of the value. -/
theorem readBack_field {v : Int} {front : List Byte} (hfront : ∀ c ∈ front, Filler c)
    (hminus : chr '-' ∈ front ↔ v < 0) (k : Nat) :
    readBack dir.letter.base (front ++ (dir.digits v ++ List.replicate k (chr ' '))) = v := by
  obtain ⟨hlow, hhigh⟩ := base_range dir.letter
  have hspace : isDigitOf dir.letter.base (chr ' ') = false := by
    cases dir.letter <;> decide
  have hzeros : front.filter (isDigitOf dir.letter.base) =
      List.replicate (front.filter (isDigitOf dir.letter.base)).length (chr '0') := by
    apply List.eq_replicate_of_mem
    intro c hc
    obtain ⟨hmem, hdigit⟩ := List.mem_filter.mp hc
    exact eq_zero_of_isDigitOf (hfront c hmem) hdigit
  have hdigits : (dir.digits v).filter (isDigitOf dir.letter.base) = dir.digits v :=
    List.filter_eq_self.mpr (isDigitOf_digits dir v)
  have hblanks : (List.replicate k (chr ' ')).filter (isDigitOf dir.letter.base) = [] := by
    rw [List.filter_replicate, hspace]
    rfl
  have hsign : chr '-' ∈ front ++ (dir.digits v ++ List.replicate k (chr ' ')) ↔ v < 0 := by
    rw [← hminus, List.mem_append, List.mem_append]
    constructor
    · intro h
      rcases h with h | h | h
      · exact h
      · have hdigit := isDigitOf_digits dir v (chr '-') h
        have hnone : isDigitOf dir.letter.base (chr '-') = false := by
          cases dir.letter <;> decide
        rw [hnone] at hdigit
        cases hdigit
      · exact absurd (List.eq_of_mem_replicate h) (by decide)
    · exact Or.inl
  have hvalue : valueFrom digitOf dir.letter.base 0 (dir.digits v) = v.natAbs :=
    valueFrom_numeral (by omega) (digitOf_digitChar hhigh _) _
  unfold readBack
  rw [List.filter_append, List.filter_append, hdigits, hblanks, List.append_nil, hzeros]
  change _ * (valueFrom digitOf dir.letter.base 0 _ : Int) = v
  rw [valueFrom_zeros (by decide), hvalue]
  by_cases hv : v < 0
  · rw [if_pos (List.contains_iff_mem.mpr (hsign.mpr hv))]
    omega
  · rw [if_neg fun h => hv (hsign.mp (List.contains_iff_mem.mp h))]
    omega

/-- The same with nothing behind the digits. -/
theorem readBack_front {v : Int} {front : List Byte} (hfront : ∀ c ∈ front, Filler c)
    (hminus : chr '-' ∈ front ↔ v < 0) :
    readBack dir.letter.base (front ++ dir.digits v) = v := by
  simpa using readBack_field dir hfront hminus 0

/-- A sign that a value can be told from: what there is of it fills a field, and a minus is there just
for values below zero. -/
structure Signs (v : Int) (sign : List Byte) : Prop where
  filler : ∀ c ∈ sign, Filler c
  minus : chr '-' ∈ sign ↔ v < 0

/-- Blanks or zeros on either side of the sign change nothing. -/
theorem Signs.fill {v : Int} {sign : List Byte} (h : Signs v sign) {c : Byte}
    (hc : c = chr ' ' ∨ c = chr '0') (k : Nat) :
    Signs v (List.replicate k c ++ sign) ∧ Signs v (sign ++ List.replicate k c) := by
  have hfiller : ∀ j ∈ List.replicate k c, Filler j := by
    intro j hj
    rw [List.eq_of_mem_replicate hj]
    exact hc.imp id Or.inl
  have hnone : chr '-' ∉ List.replicate k c := by
    intro hj
    have heq := List.eq_of_mem_replicate hj
    rcases hc with rfl | rfl <;> exact absurd heq (by decide)
  constructor
  · constructor
    · intro j hj
      exact (List.mem_append.mp hj).elim (hfiller j) (h.filler j)
    · simpa [hnone] using h.minus
  · constructor
    · intro j hj
      exact (List.mem_append.mp hj).elim (h.filler j) (hfiller j)
    · simpa [hnone] using h.minus

theorem signs_sign {v : Int} (hv : dir.letter.signed = false → 0 ≤ v) : Signs v (dir.sign v) := by
  have hplus : chr '-' ≠ chr '+' := by decide
  have hspace : chr '-' ≠ chr ' ' := by decide
  constructor
  · unfold Directive.sign Filler
    grind
  · unfold Directive.sign
    grind

/-- The text that is asked for is parsed as the value. -/
theorem readBack_expected {v : Int} (hv : dir.letter.signed = false → 0 ≤ v) :
    readBack dir.letter.base (dir.expected v) = v := by
  have hsign := signs_sign dir hv
  unfold Directive.expected
  dsimp only
  split
  · exact readBack_field dir hsign.filler hsign.minus _
  · split
    · have hfront := (hsign.fill (Or.inr rfl)
        (dir.width - (dir.sign v ++ dir.digits v).length)).2
      rw [← List.append_assoc]
      exact readBack_front dir hfront.filler hfront.minus
    · have hfront := (hsign.fill (Or.inl rfl)
        (dir.width - (dir.sign v ++ dir.digits v).length)).1
      rw [← List.append_assoc]
      exact readBack_front dir hfront.filler hfront.minus

/-- The sign that is printed is the one that is asked for, but for the blank in front of a zero. -/
theorem printedSign_eq (v : Int) :
    dir.printedSign v = if v = 0 ∧ dir.sign v = [chr ' '] then [] else dir.sign v := by
  have hplus : chr '+' ≠ chr ' ' := by decide
  unfold Directive.printedSign Directive.sign signOf Directive.options
  grind

theorem signs_printedSign {v : Int} (hv : dir.letter.signed = false → 0 ≤ v) :
    Signs v (dir.printedSign v) := by
  rw [printedSign_eq]
  split
  · rename_i hzero
    constructor
    · intro c hc
      cases hc
    · rw [hzero.1]
      simp
  · exact signs_sign dir hv

/-- What is printed is parsed as the value that was taken. -/
theorem readBack_printed {v : Int} (hv : dir.letter.signed = false → 0 ≤ v) :
    readBack dir.letter.base (dir.printed v) = v := by
  have hsign := signs_printedSign dir hv
  unfold Directive.printed layout
  split
  · rw [List.append_assoc]
    exact readBack_field dir hsign.filler hsign.minus _
  · have hfill : (if dir.options.zeroPadding then chr '0' else chr ' ') = chr ' ' ∨
        (if dir.options.zeroPadding then chr '0' else chr ' ') = chr '0' := by
      split
      · exact Or.inr rfl
      · exact Or.inl rfl
    have hfront := (hsign.fill hfill ((toInt (dir.width % 2 ^ 32)).toNat -
      (dir.printedSign v ++ dir.digits v).length)).1
    rw [← List.append_assoc]
    exact readBack_front dir hfront.filler hfront.minus

end

/-! ## Where the two agree -/

namespace Directive

variable (dir : Directive)

/-- The value fits the half of the slot that is read, if no more than a half is. -/
def Fits (slot : BitVec 64) : Prop :=
  dir.letter.long = false →
    if dir.letter.signed then -2 ^ 31 ≤ dir.value slot ∧ dir.value slot < 2 ^ 31
    else dir.value slot < 2 ^ 32

/-- Where sign and filling stand does not matter, or is right. -/
structure Placed (v : Int) : Prop where
  zeros : .zero ∈ dir.flags → .minus ∉ dir.flags → dir.sign v ≠ [] →
    dir.width ≤ (dir.sign v ++ dir.digits v).length
  blank : v = 0 → dir.sign v = [chr ' '] →
    .minus ∉ dir.flags ∧ .zero ∉ dir.flags ∧ 2 ≤ dir.width

end Directive

section

variable (dir : Directive)

theorem integer_wide (signed : Bool) (slot : BitVec 64) :
    integer signed false slot = integer signed true slot ↔
      if signed then -2 ^ 31 ≤ integer signed true slot ∧ integer signed true slot < 2 ^ 31
      else integer signed true slot < 2 ^ 32 := by
  have hslot := slot.isLt
  have hword : (word slot).toNat = slot.toNat % 2 ^ 32 := BitVec.toNat_setWidth 32 slot
  have hlow := BitVec.toInt_eq_toNat_cond slot
  have hhigh := BitVec.toInt_eq_toNat_cond (word slot)
  unfold integer
  cases signed with
  | true =>
    simp only [if_true, Bool.false_eq_true, if_false]
    split at hlow <;> split at hhigh <;> omega
  | false =>
    simp only [if_true, Bool.false_eq_true, if_false]
    omega

theorem integer_narrow (signed : Bool) (slot : BitVec 64) :
    if signed then -2 ^ 31 ≤ integer signed false slot ∧ integer signed false slot < 2 ^ 31
    else integer signed false slot < 2 ^ 32 := by
  have hword := (word slot).isLt
  have hlow := BitVec.le_toInt (word slot)
  have hhigh := BitVec.toInt_lt (x := word slot)
  unfold integer
  cases signed with
  | true => exact ⟨hlow, hhigh⟩
  | false =>
    simp only [Bool.false_eq_true, if_false]
    omega

theorem read_eq_value_iff (slot : BitVec 64) : dir.read slot = dir.value slot ↔ dir.Fits slot := by
  unfold Directive.read Directive.Fits Directive.value Directive.wide
  cases hlong : dir.letter.long with
  | true => simp
  | false =>
    by_cases hlength : dir.length = .none
    · simpa [hlength] using integer_narrow dir.letter.signed slot
    · simpa [hlength] using integer_wide dir.letter.signed slot

theorem nonneg_integer {signed : Bool} (wide : Bool) (slot : BitVec 64) (hs : signed = false) :
    0 ≤ integer signed wide slot := by
  subst hs
  unfold integer
  cases wide <;> simp

theorem zero_notMem_sign (v : Int) : chr '0' ∉ dir.sign v := by
  have hminus : chr '0' ≠ chr '-' := by decide
  have hplus : chr '0' ≠ chr '+' := by decide
  have hspace : chr '0' ≠ chr ' ' := by decide
  unfold Directive.sign
  grind

theorem printed_eq (hwidth : dir.width < 2 ^ 31) (v : Int) :
    dir.printed v = layout dir.options dir.width (dir.printedSign v ++ dir.digits v) := by
  unfold Directive.printed
  rw [Nat.mod_eq_of_lt (by omega), Egos.Disk.toInt_eq hwidth, Int.toNat_natCast]

/-- With the right sign, only zeros in front of it can be wrong. -/
theorem layout_sign_iff (v : Int) :
    layout dir.options dir.width (dir.sign v ++ dir.digits v) = dir.expected v ↔
      (.zero ∈ dir.flags → .minus ∉ dir.flags → dir.sign v ≠ [] →
        dir.width ≤ (dir.sign v ++ dir.digits v).length) := by
  unfold layout Directive.expected Directive.options
  by_cases hminus : .minus ∈ dir.flags
  · simp [hminus]
  · by_cases hzero : .zero ∈ dir.flags
    · have hiff := fill_sign_iff (zero_notMem_sign dir v)
        (dir.width - (dir.sign v ++ dir.digits v).length) (dir.digits v)
      rw [Nat.sub_eq_zero_iff_le] at hiff
      simp only [hminus, hzero, decide_true, decide_false, if_true, if_false, Bool.false_eq_true,
        not_false_eq_true, forall_const]
      exact hiff
    · simp [hminus, hzero]

/-- Without the blank in front of a zero, only a field to the right is as it should be. -/
theorem layout_blank_iff (hsign : dir.sign 0 = [chr ' ']) :
    layout dir.options dir.width (dir.digits 0) = dir.expected 0 ↔
      .minus ∉ dir.flags ∧ .zero ∉ dir.flags ∧ 2 ≤ dir.width := by
  have hdigits : dir.digits 0 = [chr '0'] := by
    rw [← digitChar_zero dir.letter.caps]
    exact numeral_zero _ _
  have hne : chr '0' ≠ chr ' ' := by decide
  unfold layout Directive.expected Directive.options
  rw [hsign, hdigits]
  by_cases hminus : .minus ∈ dir.flags
  · simp [hminus, hne]
  · by_cases hzero : .zero ∈ dir.flags
    · have hhead : List.replicate (dir.width - 1) (chr '0') ++ [chr '0'] =
          chr '0' :: List.replicate (dir.width - 1) (chr '0') := by
        rw [← List.replicate_succ', List.replicate_succ]
      simp [hminus, hzero, hhead, hne]
    · simp only [hminus, hzero, decide_false, if_false, Bool.false_eq_true, not_false_eq_true,
        true_and, List.length_append, List.length_singleton]
      constructor
      · intro h
        have hlength := congrArg List.length h
        simp only [List.length_append, List.length_replicate, List.length_singleton] at hlength
        omega
      · intro h
        rw [show dir.width - 1 = dir.width - (1 + 1) + 1 by omega, List.replicate_succ',
          List.append_assoc]

theorem printed_eq_expected_iff (hwidth : dir.width < 2 ^ 31) (v : Int) :
    dir.printed v = dir.expected v ↔ dir.Placed v := by
  rw [printed_eq dir hwidth, printedSign_eq]
  by_cases hblank : v = 0 ∧ dir.sign v = [chr ' ']
  · obtain ⟨hzero, hsign⟩ := hblank
    subst hzero
    rw [if_pos ⟨rfl, hsign⟩, List.nil_append, layout_blank_iff dir hsign]
    constructor
    · intro h
      exact ⟨fun hzero => absurd hzero h.2.1, fun _ _ => h⟩
    · intro h
      exact h.blank rfl hsign
  · rw [if_neg hblank, layout_sign_iff]
    constructor
    · intro h
      exact ⟨h, fun hzero hsign => absurd ⟨hzero, hsign⟩ hblank⟩
    · exact Directive.Placed.zeros

theorem width_le_length_expected (v : Int) : dir.width ≤ (dir.expected v).length := by
  unfold Directive.expected
  dsimp only
  split
  · simp only [List.length_append, List.length_replicate]
    omega
  · split
    · simp only [List.length_append, List.length_replicate]
      omega
    · simp only [List.length_append, List.length_replicate]
      omega

theorem length_layout (o : Options) (width : Nat) (text : List Byte) :
    (layout o width text).length = max width text.length := by
  unfold layout
  split
  · simp only [List.length_append, List.length_replicate]
    omega
  · simp only [List.length_append, List.length_replicate]
    omega

/-- A field that is too wide for an `int` is not filled. -/
theorem width_lt_of_printed {slot : BitVec 64} {v : Int}
    (h : dir.printed (dir.read slot) = dir.expected v) : dir.width < 2 ^ 31 := by
  have hprinted : (dir.printed (dir.read slot)).length < 2 ^ 31 := by
    have htext := length_text_le dir slot
    unfold Directive.printed
    rw [length_layout]
    unfold toInt
    omega
  have hexpected := width_le_length_expected dir v
  rw [h] at hprinted
  omega

theorem printed_iff (slot : BitVec 64) :
    dir.printed (dir.read slot) = dir.expected (dir.value slot) ↔
      dir.width < 2 ^ 31 ∧ dir.Fits slot ∧ dir.Placed (dir.value slot) := by
  constructor
  · intro h
    have hwidth : dir.width < 2 ^ 31 := width_lt_of_printed dir h
    have hread : dir.read slot = dir.value slot :=
      calc dir.read slot = readBack dir.letter.base (dir.printed (dir.read slot)) :=
            (readBack_printed dir (nonneg_integer dir.letter.long slot)).symm
        _ = readBack dir.letter.base (dir.expected (dir.value slot)) := by rw [h]
        _ = dir.value slot := readBack_expected dir (nonneg_integer dir.wide slot)
    rw [hread] at h
    exact ⟨hwidth, (read_eq_value_iff dir slot).mp hread, (printed_eq_expected_iff dir hwidth _).mp h⟩
  · intro h
    obtain ⟨hwidth, hfits, hplaced⟩ := h
    rw [(read_eq_value_iff dir slot).mpr hfits]
    exact (printed_eq_expected_iff dir hwidth _).mpr hplaced

/-- All that a conversion depends on. -/
structure Directive.Exact (slot : BitVec 64) (mc : MemChan) : Prop where
  width : dir.width < 2 ^ 31
  room : mc.offset + (dir.expected (dir.value slot)).length < 2 ^ 32
  fits : dir.Fits slot
  negatable : dir.letter = .D → dir.value slot ≠ -2 ^ 63
  placed : dir.Placed (dir.value slot)

end

section

variable {δ : Type} (signed : Bool) (stringAt : BitVec 64 → Option Pointer)
  (mcSignedDouble : δ → Int → Bool → Bool → Bool → ChanM Unit) (dir : Directive)

/-- `mc_vprintf` takes the argument and appends what is asked for, and its digits parse to the
value. -/
def Formats (slot : BitVec 64) (ap : List (Arg δ)) (mc : MemChan) : Prop :=
  ∃ mc' out, mcVprintf signed stringAt mcSignedDouble dir.text ⟨mc, .word slot :: ap⟩ =
      .ok () ⟨mc', ap⟩ ∧
    mc'.buf = mc.buf ++ out ∧ out = dir.expected (dir.value slot) ∧
    readBack dir.letter.base out = dir.value slot

theorem value_intMin_iff {dir : Directive} (hletter : dir.letter = .D) (slot : BitVec 64) :
    dir.value slot = -2 ^ 63 ↔ slot = BitVec.intMin 64 := by
  have hvalue : dir.value slot = slot.toInt := by
    unfold Directive.value Directive.wide
    rw [hletter]
    rfl
  rw [hvalue, ← BitVec.toInt_inj]
  exact Iff.rfl

theorem formats_iff (slot : BitVec 64) (ap : List (Arg δ)) (mc : MemChan) :
    Formats signed stringAt mcSignedDouble dir slot ap mc ↔ dir.Exact slot mc := by
  unfold Formats
  rw [mcVprintf_text]
  by_cases hmin : dir.letter = .D ∧ slot = BitVec.intMin 64
  · obtain ⟨hletter, hslot⟩ := hmin
    constructor
    · intro h
      obtain ⟨mc', out, hrun, -⟩ := h
      have hstopped := printOne_intMin stringAt mcSignedDouble dir hletter mc ap
      rw [← hslot, hrun] at hstopped
      cases hstopped
    · intro h
      exact absurd ((value_intMin_iff hletter slot).mpr hslot) (h.negatable hletter)
  · have hrun := printOne_run stringAt mcSignedDouble dir hmin mc ap
    constructor
    · intro h
      obtain ⟨mc', out, hok, hbuf, hout, -⟩ := h
      split at hrun
      · rename_i hroom
        obtain ⟨mc'', hok', hbuf'⟩ := hrun
        rw [hok] at hok'
        cases hok'
        have htext : dir.printed (dir.read slot) = dir.expected (dir.value slot) := by
          rw [← hout]
          exact List.append_cancel_left (hbuf'.symm.trans hbuf)
        obtain ⟨hwidth, hfits, hplaced⟩ := (printed_iff dir slot).mp htext
        rw [htext] at hroom
        refine ⟨hwidth, hroom, hfits, ?_, hplaced⟩
        intro hletter hvalue
        exact hmin ⟨hletter, (value_intMin_iff hletter slot).mp hvalue⟩
      · rw [hok] at hrun
        cases hrun
    · intro h
      have htext := (printed_iff dir slot).mpr ⟨h.width, h.fits, h.placed⟩
      rw [htext, if_pos h.room] at hrun
      obtain ⟨mc', hok, hbuf⟩ := hrun
      exact ⟨mc', _, hok, hbuf, rfl, readBack_expected dir (nonneg_integer dir.wide slot)⟩

/-- Wherever it stands in a format, a conversion is carried out by itself, and it prints its argument
as asked for exactly if the width is an `int`, the channel has room, the value fits what is read of
it, and sign and filling do not get in each other's way. -/
theorem mcVprintf_exact (slot : BitVec 64) (ap : List (Arg δ)) (mc : MemChan) :
    (∀ rest, mcVprintf signed stringAt mcSignedDouble (dir.text ++ rest) = (do
      mcVprintf signed stringAt mcSignedDouble dir.text
      mcVprintf signed stringAt mcSignedDouble rest)) ∧
    (Formats signed stringAt mcSignedDouble dir slot ap mc ↔ dir.Exact slot mc) := by
  constructor
  · intro rest
    rw [mcVprintf_text]
    exact mcVprintf_directive signed stringAt mcSignedDouble dir rest
  · exact formats_iff signed stringAt mcSignedDouble dir slot ap mc

theorem Formats.final {dir : Directive} {slot : BitVec 64} {ap : List (Arg δ)} {mc : MemChan}
    (h : Formats signed stringAt mcSignedDouble dir slot ap mc) :
    (final (mcVprintf signed stringAt mcSignedDouble dir.text ⟨mc, .word slot :: ap⟩)).mc.buf =
      mc.buf ++ dir.expected (dir.value slot) := by
  obtain ⟨mc', out, hrun, hbuf, hout, -⟩ := h
  rw [hrun, ← hout]
  exact hbuf

end

/-- `%ld` prints the lower half of a `long`, and `%05d` puts zeros in front of a minus. -/
theorem mcVprintf_long_and_zeros :
    ¬ Formats true (fun _ => none) (fun _ _ _ _ _ => throw .undefined) ⟨[], 0, .l, .d, by decide⟩
        (BitVec.ofNat 64 (2 ^ 32)) ([] : List (Arg Empty)) mcAlloc ∧
      ¬ Formats true (fun _ => none) (fun _ _ _ _ _ => throw .undefined)
        ⟨[.zero], 5, .none, .d, by decide⟩ (-42) ([] : List (Arg Empty)) mcAlloc := by
  constructor
  · intro h
    exact absurd h.final (by decide +kernel)
  · intro h
    exact absurd h.final (by decide +kernel)

end Egos.Libc.Memchan
