import Egos.Lib.Streaming
import Mathlib.Data.Fin.Basic
import Mathlib.Algebra.Group.Nat.Defs

/-!
# SHA-256

The hash function of FIPS 180-2, as it is defined there: words are big-endian, and the constants are
the first bits of the fractional parts of roots of the first primes.
-/
namespace Egos.Lib.Sha256

set_option autoImplicit false

abbrev Word := BitVec 32

/-! ## Constants -/

def isPrime (n : Nat) : Bool := 2 ≤ n && (List.range n).all fun d => d < 2 || n % d != 0

/-- The first 64 primes. -/
def primes : List Nat := (List.range 312).filter isPrime

/-- The first `bits` bits of the `k`-th root of `n`, from the lowest one up. -/
def root (k : Nat) : (bits n : Nat) → Nat
  | 0, _ => 0
  | bits + 1, n =>
    let r := 2 * root k bits (n / 2 ^ k)
    if (r + 1) ^ k ≤ n then r + 1 else r

/-- The first 32 bits of the fractional part of the `k`-th root of `n`. -/
def fraction (k n : Nat) : Word := BitVec.ofNat 32 (root k 40 (n * 2 ^ (32 * k)))

def constant (t : Nat) : Word := fraction 3 (primes.getD t 0)

def initial (i : Nat) : Word := fraction 2 (primes.getD i 0)

/-- A divisor up to the root is enough to see that a number is not prime. -/
theorem primes_eq : primes = (List.range 312).filter fun n =>
    2 ≤ n && (List.range (min n 18)).all fun d => d < 2 || n % d != 0 := by
  apply List.filter_congr
  intro n hn
  rw [List.mem_range] at hn
  unfold isPrime
  congr 1
  rw [Bool.eq_iff_iff]
  simp only [List.all_eq_true, List.mem_range, Bool.or_eq_true, decide_eq_true_eq,
    bne_iff_ne]
  refine ⟨fun h d hd => h d (by omega), fun h d hd => ?_⟩
  by_cases hsmall : d < 18
  · exact h d (by omega)
  · refine .inr fun hdvd => ?_
    have hn' : d * (n / d) = n := Nat.mul_div_cancel' (Nat.dvd_of_mod_eq_zero hdvd)
    have hlow : 2 ≤ n / d := by
      by_contra hlt
      have := Nat.mul_le_mul_left d (show n / d ≤ 1 by omega)
      omega
    have hhigh : n / d < 18 := Nat.div_lt_of_lt_mul (by omega)
    obtain hlt | hne := h (n / d) (by omega)
    · omega
    · exact hne (Nat.mod_eq_zero_of_dvd ⟨d, by rw [Nat.mul_comm, hn']⟩)

/-! ## Functions on words -/

def ch (x y z : Word) : Word := (x &&& y) ^^^ (~~~ x &&& z)

def maj (x y z : Word) : Word := (x &&& y) ^^^ (x &&& z) ^^^ (y &&& z)

def bigSigma0 (x : Word) : Word := x.rotateRight 2 ^^^ x.rotateRight 13 ^^^ x.rotateRight 22

def bigSigma1 (x : Word) : Word := x.rotateRight 6 ^^^ x.rotateRight 11 ^^^ x.rotateRight 25

def sigma0 (x : Word) : Word := x.rotateRight 7 ^^^ x.rotateRight 18 ^^^ x >>> 3

def sigma1 (x : Word) : Word := x.rotateRight 17 ^^^ x.rotateRight 19 ^^^ x >>> 10

/-! ## Blocks -/

/-- The words of a block. -/
def wordAt (block : List (BitVec 8)) (i : Nat) : Word :=
  block.getD (4 * i) 0 ++ block.getD (4 * i + 1) 0 ++ block.getD (4 * i + 2) 0 ++
    block.getD (4 * i + 3) 0

/-- The message schedule. -/
def schedule (m : Nat → Word) (t : Nat) : Word :=
  if t < 16 then m t
  else sigma1 (schedule m (t - 2)) + schedule m (t - 7) + sigma0 (schedule m (t - 15)) +
    schedule m (t - 16)
termination_by t

/-- The working variables. -/
structure Work where
  a : Word
  b : Word
  c : Word
  d : Word
  e : Word
  f : Word
  g : Word
  h : Word
  deriving DecidableEq

def round (k w : Word) (v : Work) : Work :=
  let t1 := v.h + bigSigma1 v.e + ch v.e v.f v.g + k + w
  let t2 := bigSigma0 v.a + maj v.a v.b v.c
  { a := t1 + t2, b := v.a, c := v.b, d := v.c, e := v.d + t1, f := v.e, g := v.f, h := v.g }

/-- The working variables after `n` rounds. -/
def workAfter (m : Nat → Word) (v : Work) : (n : Nat) → Work
  | 0 => v
  | n + 1 => round (constant n) (schedule m n) (workAfter m v n)

def Work.add (v v' : Work) : Work where
  a := v.a + v'.a
  b := v.b + v'.b
  c := v.c + v'.c
  d := v.d + v'.d
  e := v.e + v'.e
  f := v.f + v'.f
  g := v.g + v'.g
  h := v.h + v'.h

def compress (v : Work) (block : List (BitVec 8)) : Work := v.add (workAfter (wordAt block) v 64)

/-! ## Messages -/

def iv : Work where
  a := initial 0
  b := initial 1
  c := initial 2
  d := initial 3
  e := initial 4
  f := initial 5
  g := initial 6
  h := initial 7

/-- The bytes of a word of `8 * n` bits, the highest one first. -/
def bytes (n : Nat) (x : BitVec (8 * n)) : List (BitVec 8) :=
  (List.range n).map fun i => x.extractLsb' (8 * (n - 1 - i)) 8

/-- A one, as many zeros as make a block full, and the number of bits. -/
def padding (length : Nat) : List (BitVec 8) :=
  0x80 :: List.replicate ((119 - length % 64) % 64) 0 ++ bytes 8 (BitVec.ofNat 64 (8 * length))

def Work.bytes (v : Work) : List (BitVec 8) :=
  [v.a, v.b, v.c, v.d, v.e, v.f, v.g, v.h].flatMap (Sha256.bytes 4)

def hash (message : List (BitVec 8)) : List (BitVec 8) :=
  (absorb compress 64 iv (message ++ padding message.length)).1.bytes

/-! ## How the words begin -/

variable {n : Nat} {m : Nat → Word} {v : Work}

theorem schedule_of_lt (h : n < 16) : schedule m n = m n := by
  rw [schedule, if_pos h]

theorem schedule_of_le (h : 16 ≤ n) : schedule m n = sigma1 (schedule m (n - 2)) +
    schedule m (n - 7) + sigma0 (schedule m (n - 15)) + schedule m (n - 16) := by
  rw [schedule, if_neg (by omega)]

/-- Only the sixteen words of the block count. -/
theorem schedule_congr {m' : Nat → Word} (h : ∀ t < 16, m t = m' t) (n : Nat) :
    schedule m n = schedule m' n := by
  induction n using Nat.strong_induction_on with
  | h n ih =>
    by_cases hn : n < 16
    · rw [schedule_of_lt hn, schedule_of_lt hn, h n hn]
    · rw [schedule_of_le (Nat.not_lt.mp hn), schedule_of_le (Nat.not_lt.mp hn), ih _ (by omega),
        ih _ (by omega), ih _ (by omega), ih _ (by omega)]

theorem workAfter_congr {m' : Nat → Word} (h : ∀ t < 16, m t = m' t) (n : Nat) :
    workAfter m v n = workAfter m' v n := by
  induction n with
  | zero => rfl
  | succ n ih => rw [workAfter, workAfter, ih, schedule_congr h]

end Egos.Lib.Sha256
