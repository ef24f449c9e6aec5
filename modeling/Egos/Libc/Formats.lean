import Egos.Libc.Memchan
import Egos.Libc.Strtol

/-!
# How a format is read

The loop of `mc_vprintf` gets shorter formats from round to round, so it ends. A conversion for an
integer is read as the flags, the width and the letter that it is made of, wherever it stands in a
format.
-/
namespace Egos.Libc.Memchan

open Egos.Disk (Stop)
open Egos.Lib
open Egos.Libc.Strtol (digitValue digitValue_bounds isDigitOf isdigitOrAlnum_eq)

set_option autoImplicit false

/-! ## The loop -/

section

variable {signed : Bool}

theorem length_flagLoop_le (o : Options) (s : Pointer) : (flagLoop o s).2.length ≤ s.length := by
  induction s generalizing o with
  | nil => exact Nat.le_refl _
  | cons c s ih =>
    unfold flagLoop
    split
    · exact Nat.le_succ_of_le (ih _)
    · split
      · exact Nat.le_succ_of_le (ih _)
      · split
        · exact Nat.le_succ_of_le (ih _)
        · split
          · exact Nat.le_succ_of_le (ih _)
          · exact Nat.le_refl _

theorem length_widthLoop_le {s : Pointer} {w : Nat} {r : Nat × Pointer}
    (h : widthLoop signed w s = some r) : r.2.length ≤ s.length := by
  induction s generalizing w with
  | nil =>
    cases h
    exact Nat.le_refl _
  | cons c s ih =>
    rw [widthLoop] at h
    obtain ⟨digit, -, h⟩ := Option.bind_eq_some_iff.mp h
    split at h
    · exact Nat.le_succ_of_le (ih h)
    · cases h
      exact Nat.le_refl _

theorem length_precisionLoop_le {s : Pointer} {precision : Int} {r : Int × Pointer}
    (h : precisionLoop signed precision s = some r) : r.2.length ≤ s.length := by
  induction s generalizing precision with
  | nil =>
    cases h
    exact Nat.le_refl _
  | cons c s ih =>
    rw [precisionLoop] at h
    obtain ⟨digit, -, h⟩ := Option.bind_eq_some_iff.mp h
    split at h
    · dsimp only at h
      split at h
      · exact Nat.le_succ_of_le (ih h)
      · cases h
    · cases h
      exact Nat.le_refl _

theorem length_skipModifier_le (s : Pointer) : (skipModifier s).length ≤ s.length := by
  unfold skipModifier
  split
  · simp
  · split <;> simp

variable {δ : Type} {p : Printing δ}

theorem outcome_defined {σ α : Type} {x : Option α} {Q : α → σ → Prop} {E : Stop → σ → Prop} {s : σ}
    (h : ∀ a, x = some a → Q a s) (he : E .undefined s) : Outcome (defined x) Q E s := by
  cases x with
  | none => exact he
  | some a => exact h a rfl

theorem outcome_readPrecision (s : Pointer) :
    Outcome (readPrecision signed s) (fun r _ => r.2.length ≤ s.length) (fun _ _ => True) p := by
  have htail : s.tail.length ≤ s.length := by simp
  have htail' : s.tail.tail.length ≤ s.tail.length := by simp
  unfold readPrecision
  split
  · split
    · apply Outcome.seq (Outcome.always vaArg)
      intro slot p' _
      exact Nat.le_trans htail' htail
    · apply outcome_defined
      · intro r hr
        exact Nat.le_trans (length_precisionLoop_le hr) htail
      · trivial
  · exact Nat.le_refl _

variable (stringAt : BitVec 64 → Option Pointer)
  (mcSignedDouble : δ → Int → Bool → Bool → Bool → ChanM Unit)

theorem outcome_conversion (s : Pointer) :
    Outcome (conversion signed stringAt mcSignedDouble s) (fun r _ => r.length ≤ s.length)
      (fun _ _ => True) p := by
  unfold conversion
  apply Outcome.seq (R := fun r _ => r.2.length ≤ s.length)
  · apply outcome_defined
    · intro r hr
      exact Nat.le_trans (length_widthLoop_le hr) (length_flagLoop_le _ s)
    · trivial
  · intro r p hr
    apply Outcome.seq (outcome_readPrecision r.2)
    intro q p hq
    have hskip : (skipModifier q.2).length ≤ s.length :=
      Nat.le_trans (length_skipModifier_le q.2) (Nat.le_trans hq hr)
    dsimp only
    split
    · exact hskip
    · apply Outcome.seq (Outcome.always _)
      intro mc2 p _
      apply Outcome.seq (Outcome.always _)
      intro _ p _
      exact Nat.le_trans (by simp) hskip

/-- Programs that go on in the same way from wherever the first one ends. -/
theorem bind_congr {σ α β : Type} {m : EStateM Stop σ α} {f g : α → EStateM Stop σ β} {s : σ}
    (h : Outcome m (fun a _ => f a = g a) (fun _ _ => True) s) : (m >>= f) s = (m >>= g) s := by
  cases hm : m s with
  | ok a s' => rw [bind_ok hm, bind_ok hm, h.ok hm]
  | error e s' => rw [bind_error hm, bind_error hm]

variable (signed)

/-- More rounds than there are characters change nothing. -/
theorem printLoop_rounds {rounds rounds' : Nat} {fmt : Pointer} (h : fmt.length ≤ rounds)
    (h' : fmt.length ≤ rounds') : printLoop signed stringAt mcSignedDouble rounds fmt =
      printLoop signed stringAt mcSignedDouble rounds' fmt := by
  induction rounds generalizing rounds' fmt with
  | zero =>
    have hnil : fmt = [] := List.length_eq_zero_iff.mp (Nat.le_zero.mp h)
    subst hnil
    cases rounds' <;> rfl
  | succ rounds ih =>
    cases rounds' with
    | zero =>
      have hnil : fmt = [] := List.length_eq_zero_iff.mp (Nat.le_zero.mp h')
      subst hnil
      rfl
    | succ rounds' =>
      have htail : fmt.tail.length ≤ rounds ∧ fmt.tail.length ≤ rounds' := by
        rw [List.length_tail]
        omega
      unfold printLoop
      split
      · rfl
      · split
        · rw [ih htail.1 htail.2]
        · funext p
          apply bind_congr
          apply (outcome_conversion stringAt mcSignedDouble fmt.tail).post
          intro r p hr
          exact ih (Nat.le_trans hr htail.1) (Nat.le_trans hr htail.2)

/-- What a conversion does in a format, and how it goes on. -/
theorem mcVprintf_percent (fmt : Pointer) :
    mcVprintf signed stringAt mcSignedDouble (chr '%' :: fmt) = (do
      let fmt ← conversion signed stringAt mcSignedDouble fmt
      mcVprintf signed stringAt mcSignedDouble fmt) := by
  funext p
  apply bind_congr
  apply (outcome_conversion stringAt mcSignedDouble fmt).post
  intro r p hr
  exact printLoop_rounds signed stringAt mcSignedDouble hr (Nat.le_refl _)

end

/-! ## Conversions for integers -/

inductive Flag where
  | zero
  | minus
  | plus
  | space
  deriving DecidableEq

def Flag.char : Flag → Byte
  | .zero => chr '0'
  | .minus => chr '-'
  | .plus => chr '+'
  | .space => chr ' '

/-- The length modifiers that stand for an `int`, a `long` and a `long long`. -/
inductive Length where
  | none
  | l
  | ll
  deriving DecidableEq

def Length.text : Length → Pointer
  | .none => []
  | .l => str "l"
  | .ll => str "ll"

inductive Letter where
  | d
  | i
  | u
  | o
  | x
  | X
  | D
  | U
  | O
  deriving DecidableEq

def Letter.char : Letter → Byte
  | .d => chr 'd'
  | .i => chr 'i'
  | .u => chr 'u'
  | .o => chr 'o'
  | .x => chr 'x'
  | .X => chr 'X'
  | .D => chr 'D'
  | .U => chr 'U'
  | .O => chr 'O'

/-- The letters that stand for a `long` by themselves. -/
def Letter.long : Letter → Bool
  | .D | .U | .O => true
  | _ => false

/-- A conversion for an integer, without a precision. -/
structure Directive where
  flags : List Flag
  width : Nat
  length : Length
  letter : Letter
  unmodified : letter.long = true → length = .none

namespace Directive

/-- A width of zero is none, since its digit would be a flag. -/
def widthText (w : Nat) : Pointer := if w = 0 then [] else numeral (digitChar false) 10 w

/-- The text of the conversion behind its `%`. -/
def body (dir : Directive) : Pointer :=
  dir.flags.map Flag.char ++ (widthText dir.width ++ (dir.length.text ++ [dir.letter.char]))

def text (dir : Directive) : Pointer := chr '%' :: dir.body

def options (dir : Directive) : Options where
  zeroPadding := decide (.zero ∈ dir.flags)
  leftAdjust := decide (.minus ∈ dir.flags)
  plus := decide (.plus ∈ dir.flags)
  space := decide (.space ∈ dir.flags)

end Directive

/-- What a flag sets. -/
def Flag.set (o : Options) : Flag → Options
  | .zero => { o with zeroPadding := true }
  | .minus => { o with leftAdjust := true }
  | .plus => { o with plus := true }
  | .space => { o with space := true }

theorem flagLoop_char (o : Options) (f : Flag) (s : Pointer) :
    flagLoop o (f.char :: s) = flagLoop (f.set o) s := by
  cases f <;> rfl

theorem flagLoop_map (o : Options) (flags : List Flag) {c : Byte} (s : Pointer)
    (hc : ∀ f : Flag, c ≠ f.char) : flagLoop o (flags.map Flag.char ++ c :: s) =
      (⟨o.zeroPadding || decide (.zero ∈ flags), o.leftAdjust || decide (.minus ∈ flags),
        o.plus || decide (.plus ∈ flags), o.space || decide (.space ∈ flags)⟩, c :: s) := by
  induction flags generalizing o with
  | nil =>
    have hzero : c ≠ chr '0' := hc .zero
    have hminus : c ≠ chr '-' := hc .minus
    have hplus : c ≠ chr '+' := hc .plus
    have hspace : c ≠ chr ' ' := hc .space
    simp [flagLoop, hzero, hminus, hplus, hspace]
  | cons f flags ih =>
    change flagLoop o (f.char :: (flags.map Flag.char ++ c :: s)) = _
    rw [flagLoop_char, ih]
    cases f <;> simp [Flag.set]

/-- The value of a digit. -/
def digitOf (c : Byte) : Nat := (digitValue c).getD 0

theorem digitOf_eq {c : Byte} (hc : isDigitOf 10 c = true) : digitOf c = c.toNat - (chr '0').toNat := by
  obtain ⟨k, hk, hless⟩ := (Option.any_eq_true _ _).mp hc
  have hrange := (digitValue_bounds hk).2.mp (of_decide_eq_true hless)
  unfold digitOf digitValue
  rw [if_pos hrange]
  rfl

theorem isdigit_eq {signed : Bool} {c : Byte} (hc : c.toNat < 128) :
    isdigit signed c = some (isDigitOf 10 c) := by
  have htabled : ¬ Untabled signed c := by
    intro h
    have hhigh := h.2.1
    omega
  have hdecimal := isdigitOrAlnum_eq 10 htabled
  simpa [Strtol.isdigitOrAlnum, isDigitOf] using hdecimal

theorem lt_of_isDigitOf {base : Nat} {c : Byte} (hc : isDigitOf base c = true) : c.toNat < 128 := by
  obtain ⟨k, hk, -⟩ := (Option.any_eq_true _ _).mp hc
  exact (digitValue_bounds hk).1

/-- The width is read modulo `2 ^ 32`. -/
theorem widthLoop_run {signed : Bool} {run : List Byte} (hrun : ∀ k ∈ run, isDigitOf 10 k = true)
    {c : Byte} (s : Pointer) (hlow : c.toNat < 128) (hc : isDigitOf 10 c = false) (n : Nat) :
    widthLoop signed (n % 2 ^ 32) (run ++ c :: s) =
      some (valueFrom digitOf 10 n run % 2 ^ 32, c :: s) := by
  induction run generalizing n with
  | nil =>
    change widthLoop signed (n % 2 ^ 32) (c :: s) = some (n % 2 ^ 32, c :: s)
    rw [widthLoop, isdigit_eq hlow, hc]
    rfl
  | cons k run ih =>
    have hk : isDigitOf 10 k = true := hrun k List.mem_cons_self
    have hnext : (n % 2 ^ 32 * 10 % 2 ^ 32 + (k.toNat - (chr '0').toNat)) % 2 ^ 32 =
        (n * 10 + digitOf k) % 2 ^ 32 := by
      rw [digitOf_eq hk]
      omega
    change widthLoop signed (n % 2 ^ 32) (k :: (run ++ c :: s)) = _
    rw [widthLoop, isdigit_eq (lt_of_isDigitOf hk), hk]
    change widthLoop signed _ (run ++ c :: s) = _
    rw [hnext, ih fun j hj => hrun j (List.mem_cons_of_mem k hj)]
    rfl

theorem digitOf_digitChar {base : Nat} (hbase : base ≤ 16) (caps : Bool) :
    ∀ k < base, digitOf (digitChar caps k) = k := by
  have hall : ∀ caps, ∀ k < 16, digitOf (digitChar caps k) = k := by decide +kernel
  intro k hk
  exact hall caps k (Nat.lt_of_lt_of_le hk hbase)

namespace Directive

theorem isDigitOf_widthText (w : Nat) : ∀ k ∈ widthText w, isDigitOf 10 k = true := by
  unfold widthText
  split
  · intro k hk
    cases hk
  · exact forall_mem_numeral (P := fun k => isDigitOf 10 k = true) _ (by decide) (by decide) w

theorem valueFrom_widthText (w : Nat) : valueFrom digitOf 10 0 (widthText w) = w := by
  unfold widthText
  split
  · rename_i hw
    exact hw.symm
  · exact valueFrom_numeral (by decide) (digitOf_digitChar (by decide) false) w

end Directive

/-- A character that ends the flags, the digits of a width, and a format without a precision. -/
structure Plain (c : Byte) : Prop where
  low : c.toNat < 128
  noDigit : isDigitOf 10 c = false
  noPoint : c ≠ chr '.'
  noFlag : ∀ f : Flag, c ≠ f.char

theorem plain_char (letter : Letter) : Plain letter.char := by
  constructor
  · cases letter <;> decide
  · cases letter <;> decide
  · cases letter <;> decide
  · intro f
    cases letter <;> cases f <;> decide

theorem char_ne_zero (letter : Letter) : letter.char ≠ 0 := by cases letter <;> decide

theorem plain_l : Plain (chr 'l') := by
  constructor
  · decide
  · decide
  · decide
  · intro f
    cases f <;> decide

/-- What follows the width begins with such a character, and is skipped up to the letter. -/
theorem length_letter (length : Length) (letter : Letter) (rest : Pointer) :
    (∃ c s, length.text ++ letter.char :: rest = c :: s ∧ Plain c) ∧
      skipModifier (length.text ++ letter.char :: rest) = letter.char :: rest := by
  cases length with
  | none =>
    refine ⟨⟨_, _, rfl, plain_char letter⟩, ?_⟩
    cases letter <;> simp [skipModifier, Length.text, Letter.char, str, chr, deref]
  | l =>
    refine ⟨⟨_, _, rfl, plain_l⟩, ?_⟩
    cases letter <;> simp [skipModifier, Length.text, Letter.char, str, chr, deref]
  | ll =>
    refine ⟨⟨_, _, rfl, plain_l⟩, ?_⟩
    simp [skipModifier, Length.text, str, chr]

/-- A width does not begin with a flag. -/
theorem widthText_noFlag (w : Nat) {c : Byte} {s : Pointer} (hc : Plain c) :
    ∃ k t, Directive.widthText w ++ c :: s = k :: t ∧ ∀ f : Flag, k ≠ f.char := by
  unfold Directive.widthText
  split
  · exact ⟨c, s, rfl, hc.noFlag⟩
  · rename_i hw
    have hdigits : ∀ k < 10, 0 < k → digitChar false k ≠ chr '0' ∧ digitChar false k ≠ chr '-' ∧
        digitChar false k ≠ chr '+' ∧ digitChar false k ≠ chr ' ' := by decide
    obtain ⟨k, run, hpos, hk, hrun⟩ :=
      numeral_eq_cons (digitChar false) (show 1 < 10 by decide) w (Nat.pos_of_ne_zero hw)
    obtain ⟨hzero, hminus, hplus, hspace⟩ := hdigits k hk hpos
    refine ⟨digitChar false k, run ++ c :: s, by rw [hrun]; rfl, ?_⟩
    intro f
    cases f with
    | zero => exact hzero
    | minus => exact hminus
    | plus => exact hplus
    | space => exact hspace

section

variable {δ : Type} (signed : Bool) (stringAt : BitVec 64 → Option Pointer)
  (mcSignedDouble : δ → Int → Bool → Bool → Bool → ChanM Unit) (dir : Directive)

/-- Print one argument as the conversion says. -/
def printOne : PrintM δ Unit := do
  let mc2 ← convert stringAt mcSignedDouble dir.letter.char dir.options (-1)
  onMc (copyOut dir.letter.char dir.options (dir.width % 2 ^ 32) (-1) mc2)

/-- The conversion is taken apart as it was put together. -/
theorem conversion_body (rest : Pointer) :
    conversion signed stringAt mcSignedDouble (dir.body ++ rest) = (do
      printOne stringAt mcSignedDouble dir
      pure rest) := by
  obtain ⟨⟨c, s, hhead, hplain⟩, hskip⟩ := length_letter dir.length dir.letter rest
  obtain ⟨k, t, hwidth, hnoFlag⟩ := widthText_noFlag dir.width (s := s) hplain
  have hbody : dir.body ++ rest = dir.flags.map Flag.char ++ k :: t := by
    rw [← hwidth, ← hhead]
    unfold Directive.body
    simp
  have hflags : flagLoop .none (dir.body ++ rest) = (dir.options, k :: t) := by
    rw [hbody, flagLoop_map _ _ _ hnoFlag]
    rfl
  have hrun : widthLoop signed 0 (k :: t) = some (dir.width % 2 ^ 32, c :: s) := by
    rw [← hwidth, ← Nat.zero_mod (2 ^ 32),
      widthLoop_run (Directive.isDigitOf_widthText _) s hplain.low hplain.noDigit,
      Directive.valueFrom_widthText]
  have hprecision : readPrecision signed (c :: s) = (pure (-1, c :: s) : PrintM δ (Int × Pointer)) :=
    if_neg hplain.noPoint
  rw [hhead] at hskip
  unfold conversion printOne
  rw [hflags]
  dsimp only
  rw [hrun]
  change (readPrecision signed (c :: s) >>= fun q => _) = _
  rw [hprecision]
  change (if deref (skipModifier (c :: s)) = 0 then _ else _) = _
  have hletter : deref (dir.letter.char :: rest) ≠ 0 := char_ne_zero dir.letter
  rw [hskip, if_neg hletter, bind_assoc]
  rfl

/-- In a format a conversion prints its argument, and then the format goes on. -/
theorem mcVprintf_directive (rest : Pointer) :
    mcVprintf signed stringAt mcSignedDouble (dir.text ++ rest) = (do
      printOne stringAt mcSignedDouble dir
      mcVprintf signed stringAt mcSignedDouble rest) := by
  change mcVprintf signed stringAt mcSignedDouble (chr '%' :: (dir.body ++ rest)) = _
  rw [mcVprintf_percent, conversion_body, bind_assoc]
  rfl

theorem mcVprintf_text :
    mcVprintf signed stringAt mcSignedDouble dir.text = printOne stringAt mcSignedDouble dir := by
  have hend := mcVprintf_directive signed stringAt mcSignedDouble dir []
  rw [List.append_nil] at hend
  rw [hend]
  exact bind_pure _

end

end Egos.Libc.Memchan
