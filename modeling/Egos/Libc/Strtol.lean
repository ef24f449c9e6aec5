import Egos.Libc.Chars

/-!
# `strtol`, `strtoul` and `strtoull`

The three scan a number in the same way. Which characters they take for digits depends on no more
than whether the base is above 10.
-/
namespace Egos.Libc.Strtol

open Egos.Lib

set_option autoImplicit false

section

variable (signed : Bool)

/-- `while (isspace(*s)) s++` -/
def skipBlanks : Pointer → Option Pointer
  | [] => some []
  | c :: s => do
    if ← isspace signed c then skipBlanks s else some (c :: s)

/-- What the prefix says about the base, and the string behind it. -/
def prefixed (base : Nat) (s : Pointer) : Nat × Pointer :=
  let (base, s) :=
    if (base = 0 ∨ base = 16) ∧ deref s = chr '0' ∧
        (deref s.tail = chr 'x' ∨ deref s.tail = chr 'X') then (16, s.tail.tail)
    else (base, s)
  let (base, s) :=
    if (base = 0 ∨ base = 8) ∧ deref s = chr '0' then (8, s.tail) else (base, s)
  if base = 0 then (10, s) else (base, s)

/-- `base > 10 ? isalnum(*s) : isdigit(*s)` -/
def isdigitOrAlnum (base : Nat) (c : Byte) : Option Bool :=
  if base > 10 then isalnum signed c else isdigit signed c

/-- What the loop adds for a character. -/
def addend (c : Byte) : Option (BitVec 64) := do
  if ← isdigit signed c then some (BitVec.ofNat 64 (c.toNat - (chr '0').toNat))
  else if ← islower signed c then some (BitVec.ofNat 64 (c.toNat - (chr 'a').toNat + 10))
  else if ← isupper signed c then some (BitVec.ofNat 64 (c.toNat - (chr 'A').toNat + 10))
  else some 0

/-- The loop over the digits, behind those with the value `n`. -/
def digits (base : Nat) : Pointer → (n : BitVec 64) → Option (BitVec 64 × Pointer)
  | [], n => some (n, [])
  | c :: s, n => do
    if ← isdigitOrAlnum signed base c then
      let k ← addend signed c
      digits base s (n * BitVec.ofNat 64 base + k)
    else some (n, c :: s)

/-- The value, and what `*endptr` is set to. -/
def strtol (s : Pointer) (base : Nat) : Option (BitVec 64 × Pointer) := do
  let s ← skipBlanks signed s
  let (sign, s) : BitVec 64 × Pointer :=
    if deref s = chr '+' then (1, s.tail) else if deref s = chr '-' then (-1, s.tail) else (1, s)
  let (base, s) := prefixed base s
  let (n, s) ← digits signed base s 0
  some (sign * n, s)

/-- The common text of `strtoul` and `strtoull`, whose types both have 64 bits. -/
def scanUnsigned (s : Pointer) (base : Nat) : Option (BitVec 64 × Pointer) := do
  let s ← skipBlanks signed s
  let (minus, s) : Bool × Pointer :=
    if deref s = chr '-' then (true, s.tail)
    else if deref s = chr '+' then (false, s.tail)
    else (false, s)
  let (base, s) := prefixed base s
  let (total, s) ← digits signed base s 0
  some (if minus then -total else total, s)

def strtoul (s : Pointer) (base : Nat) : Option (BitVec 64 × Pointer) := scanUnsigned signed s base

def strtoull (s : Pointer) (base : Nat) : Option (BitVec 64 × Pointer) := scanUnsigned signed s base

end

/-! ## What a number is -/

/-- The value of a digit or a letter. -/
def digitValue (c : Byte) : Option Nat :=
  if 48 ≤ c.toNat ∧ c.toNat ≤ 57 then some (c.toNat - 48)
  else if 97 ≤ c.toNat ∧ c.toNat ≤ 122 then some (c.toNat - 87)
  else if 65 ≤ c.toNat ∧ c.toNat ≤ 90 then some (c.toNat - 55)
  else none

def isBlank (c : Byte) : Bool := c.toNat = 32 ∨ 9 ≤ c.toNat ∧ c.toNat ≤ 13

/-- A digit of the base. -/
def isDigitOf (base : Nat) (c : Byte) : Bool := (digitValue c).any (· < base)

/-- The value of digits behind others with the value `n`. -/
def numeralFrom (base n : Nat) (run : List Byte) : Nat :=
  run.foldl (fun n c => n * base + (digitValue c).getD 0) n

def numeral (base : Nat) (run : List Byte) : Nat := numeralFrom base 0 run

/-- A number in a string: its sign, its base, its digits, and what follows them. -/
structure Number where
  minus : Bool
  base : Nat
  run : List Byte
  rest : Pointer

/-- The base that digits have, and where they begin: behind a `0x` if they are hexadecimal. With base
0 they are so if there is a `0x`, and octal if there is a `0` alone. -/
def basePrefix (base : Nat) (s : Pointer) : Nat × Pointer :=
  if (base = 0 ∨ base = 16) ∧
      (s.take 2 = [chr '0', chr 'x'] ∨ s.take 2 = [chr '0', chr 'X']) then (16, s.drop 2)
  else if base = 0 then (if s.head? = some (chr '0') then 8 else 10, s)
  else (base, s)

/-- The base of the number at the beginning of a string, and its digits with all that follows: behind
blanks, a sign and a prefix. -/
def numberStart (s : Pointer) (base : Nat) : Nat × Pointer :=
  let s := s.dropWhile isBlank
  basePrefix base (if deref s = chr '-' ∨ deref s = chr '+' then s.tail else s)

/-- The number, with as many digits of its base as there are. -/
def number (s : Pointer) (base : Nat) : Number where
  minus := deref (s.dropWhile isBlank) = chr '-'
  base := (numberStart s base).1
  run := (numberStart s base).2.takeWhile (isDigitOf (numberStart s base).1)
  rest := (numberStart s base).2.dropWhile (isDigitOf (numberStart s base).1)

/-- The value of a number modulo `2 ^ 64`, and the place behind it. -/
def Number.parsed (n : Number) : BitVec 64 × Pointer :=
  let value := BitVec.ofNat 64 (numeral n.base n.run)
  (if n.minus then -value else value, n.rest)

/-- A decimal digit, or for a base above 10 a letter, that is no digit of the base. -/
def Misread (base : Nat) (c : Byte) : Prop :=
  ∃ k, digitValue c = some k ∧ base ≤ k ∧ (base ≤ 10 → k < 10)

/-- The character behind the digits is one that ends them for the loop too, and has an entry in the
table. -/
def Stops (signed : Bool) (n : Number) : Prop :=
  ∀ c, n.rest.head? = some c → ¬ Untabled signed c ∧ ¬ Misread n.base c

/-! ## Characters -/

section

variable {signed : Bool} {base : Nat} {c : Byte}

theorem classOf_eq (h : ¬ Untabled signed c) : classOf signed c = some (ctypeType c) := if_neg h

theorem isspace_eq (h : ¬ Untabled signed c) : isspace signed c = some (isBlank c) := by
  unfold isspace
  rw [classOf_eq h, Option.map_some]
  congr 1
  unfold ctypeType isBlank
  grind

theorem tabled_of_isBlank (h : isBlank c = true) : ¬ Untabled signed c := by
  unfold isBlank at h
  unfold Untabled
  have hblank : c.toNat = 32 ∨ 9 ≤ c.toNat ∧ c.toNat ≤ 13 := of_decide_eq_true h
  omega

theorem digitValue_bounds {k : Nat} (h : digitValue c = some k) :
    c.toNat < 128 ∧ (k < 10 ↔ 48 ≤ c.toNat ∧ c.toNat ≤ 57) := by
  unfold digitValue at h
  split at h
  · cases h
    omega
  · split at h
    · cases h
      omega
    · split at h
      · cases h
        omega
      · cases h

theorem isdigitOrAlnum_eq (base : Nat) (h : ¬ Untabled signed c) :
    isdigitOrAlnum signed base c =
      some ((digitValue c).any fun k => decide (base ≤ 10 → k < 10)) := by
  unfold isdigitOrAlnum isalnum isdigit
  rw [classOf_eq h, Option.map_some, Option.map_some]
  unfold ctypeType digitValue
  grind

theorem addend_eq {k : Nat} (hk : digitValue c = some k) (h : ¬ Untabled signed c) :
    addend signed c = some (BitVec.ofNat 64 k) := by
  have h0 : (chr '0').toNat = 48 := rfl
  have ha : (chr 'a').toNat = 97 := rfl
  have hA : (chr 'A').toNat = 65 := rfl
  unfold addend isdigit islower isupper
  rw [classOf_eq h, h0, ha, hA]
  change (if (ctypeType c).digit = true then some _
    else if (ctypeType c).lower = true then some _
    else if (ctypeType c).upper = true then some _ else some 0) = _
  unfold digitValue at hk
  unfold ctypeType
  grind

theorem tabled_of_isDigitOf (h : isDigitOf base c = true) : ¬ Untabled signed c := by
  unfold isDigitOf at h
  obtain ⟨k, hk, -⟩ := (Option.any_eq_true _ _).mp h
  have hlt := (digitValue_bounds hk).1
  unfold Untabled
  omega

end

/-! ## The loops -/

section

variable {signed : Bool} {base : Nat}

theorem skipBlanks_eq (s : Pointer) :
    skipBlanks signed s =
      if ∃ c, (s.dropWhile isBlank).head? = some c ∧ Untabled signed c then none
      else some (s.dropWhile isBlank) := by
  induction s with
  | nil =>
    rw [if_neg (by rintro ⟨c, h, -⟩; cases h)]
    rfl
  | cons c s ih =>
    by_cases hblank : isBlank c = true
    · rw [List.dropWhile_cons_of_pos hblank, ← ih, skipBlanks,
        isspace_eq (tabled_of_isBlank hblank), hblank]
      rfl
    · rw [List.dropWhile_cons_of_neg hblank, skipBlanks]
      by_cases hc : Untabled signed c
      · rw [if_pos ⟨c, rfl, hc⟩]
        unfold isspace classOf
        rw [if_pos hc]
        rfl
      · have hnone : ¬ ∃ k, (c :: s).head? = some k ∧ Untabled signed k := by
          rintro ⟨k, hk, huntabled⟩
          cases hk
          exact hc huntabled
        rw [if_neg hnone, isspace_eq hc, Bool.not_eq_true _ |>.mp hblank]
        rfl

theorem digits_cons {c : Byte} (s : Pointer) (n : Nat) (h : isDigitOf base c = true) :
    digits signed base (c :: s) (BitVec.ofNat 64 n) =
      digits signed base s (BitVec.ofNat 64 (n * base + (digitValue c).getD 0)) := by
  obtain ⟨k, hk, hlt⟩ := (Option.any_eq_true _ _).mp h
  have hlt' : k < base := of_decide_eq_true hlt
  have htabled : ¬ Untabled signed c := tabled_of_isDigitOf h
  have htaken : isdigitOrAlnum signed base c = some true := by
    rw [isdigitOrAlnum_eq base htabled, hk]
    change some (decide (base ≤ 10 → k < 10)) = some true
    rw [decide_eq_true (fun hle => Nat.lt_of_lt_of_le hlt' hle)]
  rw [digits, htaken]
  change (addend signed c >>= _) = _
  rw [addend_eq hk htabled, hk, Option.getD_some, BitVec.ofNat_add, BitVec.ofNat_mul]
  rfl

theorem digits_run (s : Pointer) (n : Nat) :
    digits signed base s (BitVec.ofNat 64 n) =
      digits signed base (s.dropWhile (isDigitOf base))
        (BitVec.ofNat 64 (numeralFrom base n (s.takeWhile (isDigitOf base)))) := by
  induction s generalizing n with
  | nil => rfl
  | cons c s ih =>
    by_cases h : isDigitOf base c = true
    · rw [List.dropWhile_cons_of_pos h, List.takeWhile_cons_of_pos h, digits_cons s n h, ih]
      rfl
    · rw [List.dropWhile_cons_of_neg h, List.takeWhile_cons_of_neg h]
      rfl

/-- Reading goes on to the end, or stops on the way. -/
theorem length_digits_le {s : Pointer} {n : BitVec 64} {r : BitVec 64 × Pointer}
    (h : digits signed base s n = some r) : r.2.length ≤ s.length := by
  induction s generalizing n with
  | nil =>
    cases h
    exact Nat.le_refl _
  | cons c s ih =>
    rw [digits] at h
    obtain ⟨taken, -, h⟩ := Option.bind_eq_some_iff.mp h
    split at h
    · obtain ⟨k, -, h⟩ := Option.bind_eq_some_iff.mp h
      exact Nat.le_succ_of_le (ih h)
    · cases h
      exact Nat.le_refl _

/-- Behind the digits the loop ends exactly if it should. -/
theorem digits_stop_iff {s : Pointer} (hs : ∀ c, s.head? = some c → ¬ isDigitOf base c = true)
    (n : BitVec 64) : (∃ v, digits signed base s n = some (v, s)) ↔
      ∀ c, s.head? = some c → ¬ Untabled signed c ∧ ¬ Misread base c := by
  cases s with
  | nil =>
    constructor
    · intro _ c hc
      cases hc
    · intro _
      exact ⟨n, rfl⟩
  | cons c s =>
    have hdigit : ¬ isDigitOf base c = true := hs c rfl
    constructor
    · intro h k hk
      cases hk
      obtain ⟨v, hrun⟩ := h
      rw [digits] at hrun
      obtain ⟨taken, htaken, hrun⟩ := Option.bind_eq_some_iff.mp hrun
      have htabled : ¬ Untabled signed c := by
        intro hc
        have hnone : isdigitOrAlnum signed base c = none := by
          unfold isdigitOrAlnum isalnum isdigit classOf
          rw [if_pos hc]
          split <;> rfl
        rw [hnone] at htaken
        cases htaken
      refine ⟨htabled, ?_⟩
      intro hmisread
      obtain ⟨m, hm, -, hsmall⟩ := hmisread
      rw [isdigitOrAlnum_eq base htabled, hm] at htaken
      change some (decide (base ≤ 10 → m < 10)) = some taken at htaken
      rw [decide_eq_true hsmall] at htaken
      cases htaken
      obtain ⟨a, -, hrun⟩ := Option.bind_eq_some_iff.mp hrun
      have hle : (c :: s).length ≤ s.length := length_digits_le hrun
      exact Nat.not_succ_le_self _ hle
    · intro h
      obtain ⟨htabled, hmisread⟩ := h c rfl
      refine ⟨n, ?_⟩
      have htaken : isdigitOrAlnum signed base c = some false := by
        rw [isdigitOrAlnum_eq base htabled]
        cases hv : digitValue c with
        | none => rfl
        | some k =>
          have hle : base ≤ k := by
            by_contra hlt
            apply hdigit
            unfold isDigitOf
            rw [hv]
            exact decide_eq_true (Nat.not_le.mp hlt)
          change some (decide (base ≤ 10 → k < 10)) = some false
          rw [decide_eq_false fun hsmall => hmisread ⟨k, hv, hle, hsmall⟩]
      rw [digits, htaken]
      rfl

/-- The value is not changed where the loop ends. -/
theorem digits_stop {s : Pointer} {n v : BitVec 64} (h : digits signed base s n = some (v, s)) :
    v = n := by
  cases s with
  | nil =>
    cases h
    rfl
  | cons c s =>
    rw [digits] at h
    obtain ⟨taken, -, h⟩ := Option.bind_eq_some_iff.mp h
    split at h
    · obtain ⟨k, -, h⟩ := Option.bind_eq_some_iff.mp h
      exact absurd (length_digits_le h) (Nat.not_succ_le_self _)
    · cases h
      rfl

/-- The digits of the base are what is read, exactly if the loop ends behind them. -/
theorem digits_iff (s : Pointer) :
    digits signed base s 0 = some (BitVec.ofNat 64 (numeral base (s.takeWhile (isDigitOf base))),
      s.dropWhile (isDigitOf base)) ↔
      ∀ c, (s.dropWhile (isDigitOf base)).head? = some c →
        ¬ Untabled signed c ∧ ¬ Misread base c := by
  have hrest : ∀ c, (s.dropWhile (isDigitOf base)).head? = some c → ¬ isDigitOf base c = true := by
    intro c hc
    have hnot := List.head?_dropWhile_not (isDigitOf base) s
    rw [hc] at hnot
    simpa using hnot
  have hrun : digits signed base s 0 = digits signed base (s.dropWhile (isDigitOf base))
      (BitVec.ofNat 64 (numeral base (s.takeWhile (isDigitOf base)))) := digits_run s 0
  rw [hrun, ← digits_stop_iff hrest]
  constructor
  · intro h
    exact ⟨_, h⟩
  · intro h
    obtain ⟨v, hv⟩ := h
    rw [hv, digits_stop hv]

end

/-! ## The functions -/

section

variable {signed : Bool}

theorem sign_eq (s : Pointer) :
    ((if deref s = chr '-' then (true, s.tail)
      else if deref s = chr '+' then (false, s.tail)
      else (false, s) : Bool × Pointer)) =
      (decide (deref s = chr '-'), if deref s = chr '-' ∨ deref s = chr '+' then s.tail else s) := by
  by_cases hminus : deref s = chr '-'
  · rw [if_pos hminus, if_pos (.inl hminus), decide_eq_true hminus]
  · rw [if_neg hminus, decide_eq_false hminus]
    by_cases hplus : deref s = chr '+'
    · rw [if_pos hplus, if_pos (.inr hplus)]
    · rw [if_neg hplus, if_neg fun h => h.elim hminus hplus]

/-- `strtol` multiplies with the sign, and asks for the other sign first. -/
theorem strtol_eq (s : Pointer) (base : Nat) : strtol signed s base = scanUnsigned signed s base := by
  unfold strtol scanUnsigned
  cases skipBlanks signed s with
  | none => rfl
  | some s =>
    have hsign : ((if deref s = chr '+' then (1, s.tail)
        else if deref s = chr '-' then (-1, s.tail)
        else (1, s) : BitVec 64 × Pointer)) =
        (if deref s = chr '-' then -1 else 1,
          if deref s = chr '-' ∨ deref s = chr '+' then s.tail else s) := by
      by_cases hplus : deref s = chr '+'
      · have hminus : deref s ≠ chr '-' := by
          rw [hplus]
          decide
        rw [if_pos hplus, if_neg hminus, if_pos (.inr hplus)]
      · rw [if_neg hplus]
        by_cases hminus : deref s = chr '-'
        · rw [if_pos hminus, if_pos hminus, if_pos (.inl hminus)]
        · rw [if_neg hminus, if_neg hminus, if_neg fun h => h.elim hminus hplus]
    dsimp only [Option.bind_eq_bind, Option.bind_some]
    rw [hsign, sign_eq]
    dsimp only
    congr 1
    funext r
    have hone : (1 : BitVec 64) * r.1 = r.1 := BitVec.one_mul _
    by_cases hminus : deref s = chr '-'
    · rw [if_pos hminus, decide_eq_true hminus, if_pos rfl, BitVec.neg_mul, hone]
    · rw [if_neg hminus, decide_eq_false hminus, if_neg Bool.false_ne_true, hone]

theorem take_two_iff (s : Pointer) {x : Byte} (hx : x ≠ 0) :
    s.take 2 = [chr '0', x] ↔ deref s = chr '0' ∧ deref s.tail = x := by
  rcases s with _ | ⟨a, _ | ⟨b, s⟩⟩
  · constructor
    · intro h
      cases h
    · intro h
      exact absurd h.1 (by decide)
  · constructor
    · intro h
      cases h
    · intro h
      exact absurd h.2.symm hx
  · constructor
    · intro h
      obtain ⟨ha, hb⟩ := List.cons.inj h
      exact ⟨ha, (List.cons.inj hb).1⟩
    · intro h
      obtain ⟨ha, hb⟩ := h
      change [a, b] = _
      rw [show a = chr '0' from ha, show b = x from hb]

theorem head?_eq_iff (s : Pointer) : s.head? = some (chr '0') ↔ deref s = chr '0' := by
  cases s with
  | nil =>
    constructor
    · intro h
      cases h
    · intro h
      exact absurd h (by decide)
  | cons c s => exact Option.some_inj

/-- The scanner also skips the zero that says that a number is octal. -/
theorem prefixed_cases (base : Nat) (s : Pointer) :
    prefixed base s = basePrefix base s ∨
      deref s = chr '0' ∧ prefixed base s = (8, s.tail) ∧ basePrefix base s = (8, s) := by
  have hhex : (s.take 2 = [chr '0', chr 'x'] ∨ s.take 2 = [chr '0', chr 'X']) ↔
      deref s = chr '0' ∧ (deref s.tail = chr 'x' ∨ deref s.tail = chr 'X') := by
    rw [take_two_iff s (by decide), take_two_iff s (by decide), and_or_left]
  have htail : s.tail.tail = s.drop 2 := by
    rw [← List.drop_one, ← List.drop_one, List.drop_drop]
  unfold prefixed basePrefix
  simp only [hhex, head?_eq_iff, ← htail]
  grind

/-- It makes no difference that the loop starts behind the zero of an octal number. -/
theorem digits_prefixed (base : Nat) (s : Pointer) :
    digits signed (prefixed base s).1 (prefixed base s).2 0 =
      digits signed (basePrefix base s).1 (basePrefix base s).2 0 := by
  rcases prefixed_cases base s with h | ⟨hzero, hcode, hspec⟩
  · rw [h]
  · rw [hcode, hspec]
    cases s with
    | nil => rfl
    | cons c s =>
      obtain rfl : c = chr '0' := hzero
      exact (digits_cons s 0 (show isDigitOf 8 (chr '0') = true by decide)).symm

theorem scanUnsigned_eq (s : Pointer) (base : Nat) :
    scanUnsigned signed s base =
      if ∃ c, (s.dropWhile isBlank).head? = some c ∧ Untabled signed c then none
      else (digits signed (numberStart s base).1 (numberStart s base).2 0).map fun r =>
        (if (number s base).minus then -r.1 else r.1, r.2) := by
  unfold scanUnsigned
  rw [skipBlanks_eq]
  split
  · rfl
  · unfold numberStart number
    dsimp only [Option.bind_eq_bind, Option.bind_some]
    rw [sign_eq]
    dsimp only
    rw [digits_prefixed, Option.map_eq_bind]
    rfl

theorem basePrefix_of_ne {base : Nat} {s : Pointer} (h : deref s ≠ chr '0') :
    basePrefix base s = (if base = 0 then 10 else base, s) := by
  unfold basePrefix
  simp only [take_two_iff s (show chr 'x' ≠ 0 by decide), take_two_iff s (show chr 'X' ≠ 0 by decide),
    head?_eq_iff, h, false_and, or_self, and_false, if_false]
  split <;> rfl

/-- An unknown character behind the blanks is one behind no digits. -/
theorem rest_of_untabled {s : Pointer} {base : Nat} {c : Byte}
    (hc : (s.dropWhile isBlank).head? = some c) (huntabled : Untabled signed c) :
    (number s base).rest.head? = some c := by
  have hderef : deref (s.dropWhile isBlank) = c := by
    unfold deref
    rw [List.headD_eq_head?_getD, hc]
    rfl
  have hne : ∀ k : Char, k.toNat < 128 → c ≠ chr k := by
    intro k hk heq
    have htoNat : c.toNat = k.toNat % 2 ^ 8 := by
      rw [heq]
      exact BitVec.toNat_ofNat _ _
    have hhigh := huntabled.2.1
    omega
  have hstart : numberStart s base = (if base = 0 then 10 else base, s.dropWhile isBlank) := by
    unfold numberStart
    dsimp only
    rw [hderef, if_neg fun h => h.elim (hne '-' (by decide)) (hne '+' (by decide))]
    exact basePrefix_of_ne (by rw [hderef]; exact hne '0' (by decide))
  have hnodigit : ¬ isDigitOf (numberStart s base).1 c = true :=
    fun h => tabled_of_isDigitOf h huntabled
  change ((numberStart s base).2.dropWhile (isDigitOf (numberStart s base).1)).head? = some c
  rw [hstart] at hnodigit ⊢
  cases hs : s.dropWhile isBlank with
  | nil =>
    rw [hs] at hc
    cases hc
  | cons k t =>
    rw [hs] at hc
    cases hc
    rw [List.dropWhile_cons_of_neg hnodigit]
    rfl

theorem scanUnsigned_iff (s : Pointer) (base : Nat) :
    scanUnsigned signed s base = some (number s base).parsed ↔ Stops signed (number s base) := by
  rw [scanUnsigned_eq]
  split
  · rename_i h
    obtain ⟨c, hc, huntabled⟩ := h
    constructor
    · intro h
      cases h
    · intro h
      exact absurd huntabled (h c (rest_of_untabled hc huntabled)).1
  · have hdigits : digits signed (number s base).base (numberStart s base).2 0 =
        some (BitVec.ofNat 64 (numeral (number s base).base (number s base).run),
          (number s base).rest) ↔ Stops signed (number s base) := digits_iff _
    rw [← hdigits]
    constructor
    · intro h
      obtain ⟨r, hrun, hr⟩ := Option.map_eq_some_iff.mp h
      obtain ⟨hvalue, hrest⟩ := Prod.mk.inj hr
      have hv : r.1 = BitVec.ofNat 64 (numeral (number s base).base (number s base).run) := by
        split at hvalue
        · exact BitVec.neg_inj.mp hvalue
        · exact hvalue
      rw [← hv, ← hrest]
      exact hrun
    · intro h
      exact Option.map_eq_some_iff.mpr ⟨_, h, rfl⟩

/-- Each of the functions reads a number as it should exactly if the character behind its digits ends
it for the loop too. -/
theorem reads_iff (signed : Bool) (s : Pointer) (base : Nat) :
    (strtol signed s base = some (number s base).parsed ↔ Stops signed (number s base)) ∧
      (strtoul signed s base = some (number s base).parsed ↔ Stops signed (number s base)) ∧
      (strtoull signed s base = some (number s base).parsed ↔ Stops signed (number s base)) := by
  have hiff : scanUnsigned signed s base = some (number s base).parsed ↔
      Stops signed (number s base) := scanUnsigned_iff s base
  constructor
  · rw [strtol_eq]
    exact hiff
  · exact ⟨hiff, hiff⟩

end

/-- The 8 is no octal digit. -/
theorem reads_eight :
    strtol true [chr '1', chr '8'] 8 ≠ some (number [chr '1', chr '8'] 8).parsed ∧
      strtoul true [chr '1', chr '8'] 8 ≠ some (number [chr '1', chr '8'] 8).parsed ∧
      strtoull true [chr '1', chr '8'] 8 ≠ some (number [chr '1', chr '8'] 8).parsed := by
  decide

example : strtol true [chr ' ', chr '-', chr '0', chr 'x', chr '1', chr 'F', chr ','] 0 =
    some (-31, [chr ',']) := by decide

end Egos.Libc.Strtol
