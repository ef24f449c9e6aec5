import Mathlib.Data.Nat.Digits.Lemmas

/-!
# Numerals

The numeral of a number in a base, the first digit in front, over any alphabet. What reads it goes
on from the value of the digits before, so digits can be put in front and read in parts.
-/
namespace Egos.Lib

set_option autoImplicit false

variable {α : Type} {digit : Nat → α} {value : α → Nat} {base : Nat}

/-- A number as a text: no digit too many, but at least one. -/
def numeral (digit : Nat → α) (base n : Nat) : List α :=
  if n = 0 then [digit 0] else ((Nat.digits base n).map digit).reverse

/-- The value of digits behind others with the value `n`. -/
def valueFrom (value : α → Nat) (base n : Nat) (run : List α) : Nat :=
  run.foldl (fun n c => n * base + value c) n

section

variable (digit base)

theorem numeral_zero : numeral digit base 0 = [digit 0] := if_pos rfl

variable {base}

theorem numeral_ne_nil (n : Nat) : numeral digit base n ≠ [] := by
  unfold numeral
  split
  · exact List.cons_ne_nil _ _
  · rename_i hn
    simpa using Nat.digits_ne_nil_iff_ne_zero.mpr hn

theorem numeral_of_lt {n : Nat} (hn : n < base) : numeral digit base n = [digit n] := by
  unfold numeral
  split
  · rename_i hzero
    rw [hzero]
  · rename_i hzero
    rw [Nat.digits_of_lt base n hzero hn]
    rfl

/-- The last digit, behind the numeral of what remains. -/
theorem numeral_step (hbase : 1 < base) {n : Nat} (hn : base ≤ n) :
    numeral digit base n = numeral digit base (n / base) ++ [digit (n % base)] := by
  have hpos : 0 < n := by omega
  have hquotient : n / base ≠ 0 := by
    have hone : 0 < n / base := Nat.div_pos hn (by omega)
    omega
  unfold numeral
  rw [if_neg (Nat.ne_of_gt hpos), if_neg hquotient, Nat.digits_def' hbase hpos]
  simp

/-- The first digit of a number that is not zero is not zero. -/
theorem numeral_eq_cons (hbase : 1 < base) (n : Nat) (hn : 0 < n) :
    ∃ k run, 0 < k ∧ k < base ∧ numeral digit base n = digit k :: run := by
  induction n using Nat.strong_induction_on with
  | _ n ih =>
    by_cases hsmall : n < base
    · exact ⟨n, [], hn, hsmall, numeral_of_lt digit hsmall⟩
    · have hless : n / base < n := Nat.div_lt_self hn hbase
      have hone : 0 < n / base := Nat.div_pos (Nat.not_lt.mp hsmall) (by omega)
      obtain ⟨k, run, hk, hkbase, hrun⟩ := ih (n / base) hless hone
      refine ⟨k, run ++ [digit (n % base)], hk, hkbase, ?_⟩
      rw [numeral_step digit hbase (Nat.not_lt.mp hsmall), hrun]
      rfl

theorem forall_mem_numeral {P : α → Prop} (hbase : 1 < base) (hdigit : ∀ k < base, P (digit k))
    (n : Nat) : ∀ c ∈ numeral digit base n, P c := by
  induction n using Nat.strong_induction_on with
  | _ n ih =>
    intro c hc
    by_cases hn : n < base
    · rw [numeral_of_lt digit hn] at hc
      rw [List.mem_singleton.mp hc]
      exact hdigit n hn
    · rw [numeral_step digit hbase (Nat.not_lt.mp hn)] at hc
      have hless : n / base < n := Nat.div_lt_self (by omega) hbase
      cases List.mem_append.mp hc with
      | inl hfront => exact ih (n / base) hless c hfront
      | inr hlast =>
        rw [List.mem_singleton.mp hlast]
        exact hdigit _ (Nat.mod_lt n (by omega))

theorem length_numeral_le (hbase : 1 < base) {n k : Nat} (hn : n < base ^ k) (hk : 0 < k) :
    (numeral digit base n).length ≤ k := by
  unfold numeral
  split
  · exact hk
  · simpa using (Nat.digits_length_le_iff hbase n).mpr hn

end

theorem valueFrom_append (n : Nat) (front back : List α) :
    valueFrom value base n (front ++ back) =
      valueFrom value base (valueFrom value base n front) back :=
  List.foldl_append

/-- Zeros in front do not count. -/
theorem valueFrom_zeros {c : α} (hc : value c = 0) (k : Nat) (run : List α) :
    valueFrom value base 0 (List.replicate k c ++ run) = valueFrom value base 0 run := by
  have hzeros : valueFrom value base 0 (List.replicate k c) = 0 := by
    induction k with
    | zero => rfl
    | succ k ih =>
      rw [List.replicate_succ]
      change valueFrom value base (0 * base + value c) (List.replicate k c) = 0
      rw [hc, Nat.zero_mul]
      exact ih
  rw [valueFrom_append, hzeros]

theorem valueFrom_numeral (hbase : 1 < base) (hdigit : ∀ k < base, value (digit k) = k) (n : Nat) :
    valueFrom value base 0 (numeral digit base n) = n := by
  induction n using Nat.strong_induction_on with
  | _ n ih =>
    by_cases hn : n < base
    · rw [numeral_of_lt digit hn]
      change 0 * base + value (digit n) = n
      rw [hdigit n hn, Nat.zero_mul, Nat.zero_add]
    · have hless : n / base < n := Nat.div_lt_self (by omega) hbase
      rw [numeral_step digit hbase (Nat.not_lt.mp hn), valueFrom_append, ih _ hless]
      change n / base * base + value (digit (n % base)) = n
      rw [hdigit _ (Nat.mod_lt n (by omega)), Nat.mul_comm]
      exact Nat.div_add_mod n base

/-- What fills a field can stand on the other side of a sign only where there is no sign, or nothing
to be filled. -/
theorem fill_sign_iff {z : α} {sign : List α} (hz : z ∉ sign) (k : Nat) (run : List α) :
    List.replicate k z ++ (sign ++ run) = sign ++ (List.replicate k z ++ run) ↔
      (sign ≠ [] → k = 0) := by
  constructor
  · intro h hsign
    cases k with
    | zero => rfl
    | succ k =>
      cases sign with
      | nil => exact absurd rfl hsign
      | cons c sign =>
        rw [List.replicate_succ] at h
        obtain ⟨hc, -⟩ := List.cons.inj h
        exact absurd (hc ▸ List.mem_cons_self) hz
  · intro h
    cases hsign : sign with
    | nil => rfl
    | cons c sign =>
      have hnone : k = 0 := h (by rw [hsign]; exact List.cons_ne_nil _ _)
      rw [hnone]
      rfl

end Egos.Lib
