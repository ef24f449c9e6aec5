import Egos.Libc.Chars

/-!
# `strcmp` and `strncmp`

Both compare unsigned bytes. They differ in what they return when one of the strings ends.
-/
namespace Egos.Libc.Strcmp

open Egos.Lib

set_option autoImplicit false

/-- What is left has become shorter, unless the string ended. -/
theorem length_tail_lt {u : Pointer} (h : deref u ≠ 0) : u.tail.length < u.length := by
  cases u with
  | nil => exact absurd rfl h
  | cons c u => exact Nat.lt_succ_self _

def strcmp (u1 u2 : Pointer) : Int :=
  if h : deref u1 ≠ 0 ∧ deref u2 ≠ 0 then
    if deref u1 ≠ deref u2 then
      (deref u1).toNat - (deref u2).toNat
    else strcmp u1.tail u2.tail
  else if deref u1 = 0 ∧ deref u2 = 0 then 0
  else if deref u1 = 0 then -1 else 1
termination_by u1.length
decreasing_by exact length_tail_lt h.1

def strncmp (u1 u2 : Pointer) : (n : Nat) → Int
  | 0 => 0
  | n + 1 =>
    if deref u1 = 0 ∧ deref u2 = 0 then 0
    else if deref u1 = 0 then 1
    else if deref u2 = 0 then -1
    else if (deref u1).toNat < (deref u2).toNat then -1
    else if (deref u1).toNat > (deref u2).toNat then 1
    else strncmp u1.tail u2.tail n

/-! ## What the functions are for -/

/-- The characters of a string, as numbers. -/
def chars (u : Pointer) : List Nat := (u.takeWhile (· ≠ 0)).map BitVec.toNat

/-- One string is the beginning of a longer one. -/
def ProperPrefix (s t : List Nat) : Prop := s <+: t ∧ s ≠ t

/-- The order of strings, as the two functions should give it. -/
structure Ordered (a b : Pointer) (n : Nat) : Prop where
  lex : compare (strcmp a b) 0 = compare (chars a) (chars b)
  bounded : compare (strncmp a b n) 0 = compare (strcmp (a.take n) (b.take n)) 0
  swapped : compare (strcmp b a) 0 = (compare (strcmp a b) 0).swap
  swapped_bounded : compare (strncmp b a n) 0 = (compare (strncmp a b n) 0).swap
  trans : ∀ c, strcmp a b ≤ 0 → strcmp b c ≤ 0 → strcmp a c ≤ 0
  trans_bounded : ∀ c, strncmp a b n ≤ 0 → strncmp b c n ≤ 0 → strncmp a c n ≤ 0
  agree : (chars a).length < n → (chars b).length < n →
    compare (strncmp a b n) 0 = compare (strcmp a b) 0

/-! ## The characters -/

section

variable {u u' : Pointer} {n : Nat}

theorem chars_of_end (h : deref u = 0) : chars u = [] := by
  cases u with
  | nil => rfl
  | cons c u =>
    have hc : c = 0 := h
    rw [hc]
    rfl

theorem chars_of_char (h : deref u ≠ 0) : chars u = (deref u).toNat :: chars u.tail := by
  cases u with
  | nil => exact absurd rfl h
  | cons c u =>
    have hc : decide (c ≠ 0) = true := decide_eq_true h
    change ((c :: u).takeWhile (· ≠ 0)).map BitVec.toNat = _
    rw [List.takeWhile_cons, if_pos hc]
    rfl

theorem chars_lt (u : Pointer) : ∀ x ∈ chars u, x < 256 := by
  intro x hx
  obtain ⟨c, -, rfl⟩ := List.mem_map.mp hx
  exact c.isLt

theorem chars_take (u : Pointer) (n : Nat) : chars (u.take n) = (chars u).take n := by
  induction n generalizing u with
  | zero => rfl
  | succ n ih =>
    by_cases h : deref u = 0
    · have htake : deref (u.take (n + 1)) = 0 := by
        cases u with
        | nil => rfl
        | cons c u => exact h
      rw [chars_of_end h, chars_of_end htake]
      rfl
    · cases u with
      | nil => exact absurd rfl h
      | cons c u =>
        have htake : deref ((c :: u).take (n + 1)) ≠ 0 := h
        rw [chars_of_char h, chars_of_char htake, List.take_succ_cons, List.tail_cons, List.tail_cons,
          List.take_succ_cons, ih]
        rfl

end

/-! ## The order -/

theorem compare_sub (x y : Nat) : compare ((x : Int) - y) 0 = compare x y := by
  rcases Nat.lt_trichotomy x y with h | h | h
  · rw [Nat.compare_eq_lt.mpr h, Int.compare_eq_lt]
    omega
  · rw [Nat.compare_eq_eq.mpr h, Int.compare_eq_eq]
    omega
  · rw [Nat.compare_eq_gt.mpr h, Int.compare_eq_gt]
    omega

section

variable {a b : Pointer}

/-- The first character decides if there is one on both sides and they differ. -/
theorem compare_chars (ha : deref a ≠ 0) (hb : deref b ≠ 0) :
    compare (chars a) (chars b) =
      (compare (deref a).toNat (deref b).toNat).then (compare (chars a.tail) (chars b.tail)) := by
  rw [chars_of_char ha, chars_of_char hb, List.compare_cons_cons]

theorem compare_strcmp (a b : Pointer) : compare (strcmp a b) 0 = compare (chars a) (chars b) := by
  fun_induction strcmp a b with
  | case1 a b h hne =>
    have hne' : compare (deref a).toNat (deref b).toNat ≠ .eq :=
      fun heq => hne (BitVec.eq_of_toNat_eq (Nat.compare_eq_eq.mp heq))
    rw [compare_chars h.1 h.2, compare_sub]
    cases hc : compare (deref a).toNat (deref b).toNat with
    | lt => rfl
    | eq => exact absurd hc hne'
    | gt => rfl
  | case2 a b h heq ih =>
    rw [compare_chars h.1 h.2, not_not.mp heq, Nat.compare_eq_eq.mpr rfl, ih]
    rfl
  | case3 a b h hend =>
    rw [chars_of_end hend.1, chars_of_end hend.2]
    rfl
  | case4 a b h hend ha =>
    have hb : deref b ≠ 0 := fun hb => hend ⟨ha, hb⟩
    rw [chars_of_end ha, chars_of_char hb]
    rfl
  | case5 a b h hend ha =>
    have hb : deref b = 0 := by
      by_contra hb
      exact h ⟨ha, hb⟩
    rw [chars_of_char ha, chars_of_end hb]
    rfl

/-- The string cut off, with an end that comes after all characters. -/
def marked (n : Nat) (u : Pointer) : List Nat := (chars u).take n ++ [256]

theorem marked_of_end {n : Nat} (h : deref a = 0) : marked n a = [256] := by
  unfold marked
  rw [chars_of_end h, List.take_nil, List.nil_append]

theorem marked_of_char {n : Nat} (h : deref a ≠ 0) :
    marked (n + 1) a = (deref a).toNat :: marked n a.tail := by
  unfold marked
  rw [chars_of_char h, List.take_succ_cons, List.cons_append]

/-- `strncmp` is the lexicographic order in which the end of a string comes last. -/
theorem compare_strncmp (a b : Pointer) (n : Nat) :
    compare (strncmp a b n) 0 = compare (marked n a) (marked n b) := by
  have hlt : ∀ c : Byte, compare c.toNat 256 = .lt := fun c => Nat.compare_eq_lt.mpr c.isLt
  have hgt : ∀ c : Byte, compare 256 c.toNat = .gt := fun c => Nat.compare_eq_gt.mpr c.isLt
  fun_induction strncmp a b n with
  | case1 a b => rfl
  | case2 a b n hend =>
    rw [marked_of_end hend.1, marked_of_end hend.2]
    rfl
  | case3 a b n hend ha =>
    have hb : deref b ≠ 0 := fun hb => hend ⟨ha, hb⟩
    rw [marked_of_end ha, marked_of_char hb, List.compare_cons_cons, hgt]
    rfl
  | case4 a b n hend ha hb =>
    rw [marked_of_char ha, marked_of_end hb, List.compare_cons_cons, hlt]
    rfl
  | case5 a b n hend ha hb hless =>
    rw [marked_of_char ha, marked_of_char hb, List.compare_cons_cons, Nat.compare_eq_lt.mpr hless]
    rfl
  | case6 a b n hend ha hb hless hmore =>
    rw [marked_of_char ha, marked_of_char hb, List.compare_cons_cons, Nat.compare_eq_gt.mpr hmore]
    rfl
  | case7 a b n hend ha hb hless hmore ih =>
    have heq : (deref a).toNat = (deref b).toNat := by omega
    rw [marked_of_char ha, marked_of_char hb, List.compare_cons_cons, Nat.compare_eq_eq.mpr heq, ih]
    rfl

end

/-- The place of the end matters exactly for a proper prefix. -/
theorem compare_marked_iff {s t : List Nat} (hs : ∀ x ∈ s, x < 256) (ht : ∀ x ∈ t, x < 256) :
    compare (s ++ [256]) (t ++ [256]) = compare s t ↔ ¬ (ProperPrefix s t ∨ ProperPrefix t s) := by
  induction s generalizing t with
  | nil =>
    cases t with
    | nil => exact ⟨fun _ h => h.elim (fun h => h.2 rfl) fun h => h.2 rfl, fun _ => rfl⟩
    | cons y t =>
      have hy : y < 256 := ht y List.mem_cons_self
      rw [List.nil_append, List.cons_append, List.compare_cons_cons, Nat.compare_eq_gt.mpr hy]
      constructor
      · intro h
        cases h
      · intro h
        exact absurd (.inl ⟨List.nil_prefix, List.cons_ne_nil y t |>.symm⟩) h
  | cons x s ih =>
    have hx : x < 256 := hs x List.mem_cons_self
    cases t with
    | nil =>
      rw [List.nil_append, List.cons_append, List.compare_cons_cons, Nat.compare_eq_lt.mpr hx]
      constructor
      · intro h
        cases h
      · intro h
        exact absurd (.inr ⟨List.nil_prefix, List.cons_ne_nil x s |>.symm⟩) h
    | cons y t =>
      rw [List.cons_append, List.cons_append, List.compare_cons_cons, List.compare_cons_cons]
      by_cases hxy : x = y
      · subst hxy
        have hcons : ∀ p q : List Nat, ProperPrefix (x :: p) (x :: q) ↔ ProperPrefix p q := by
          intro p q
          unfold ProperPrefix
          rw [List.cons_prefix_cons]
          exact ⟨fun h => ⟨h.1.2, fun heq => h.2 (congrArg _ heq)⟩,
            fun h => ⟨⟨rfl, h.1⟩, fun heq => h.2 (List.cons.inj heq).2⟩⟩
        rw [Nat.compare_eq_eq.mpr rfl, hcons, hcons]
        exact ih (fun z hz => hs z (List.mem_cons_of_mem _ hz))
          (fun z hz => ht z (List.mem_cons_of_mem _ hz))
      · have hne : compare x y ≠ .eq := fun heq => hxy (Nat.compare_eq_eq.mp heq)
        constructor
        · intro _ h
          rcases h with h | h
          · exact hxy (List.cons_prefix_cons.mp h.1).1
          · exact hxy (List.cons_prefix_cons.mp h.1).1.symm
        · intro _
          cases hc : compare x y with
          | lt => rfl
          | eq => exact absurd hc hne
          | gt => rfl

/-! ## Signs -/

section

variable {r : Int}

theorem le_zero_iff : r ≤ 0 ↔ (compare r 0).isLE = true := Int.isLE_compare.symm

end

/-- All laws of the order hold for two strings and a length, unless one of the two is a proper
prefix of the other after both have been cut off. -/
theorem ordered_iff (a b : Pointer) (n : Nat) :
    Ordered a b n ↔ ¬ (ProperPrefix ((chars a).take n) ((chars b).take n) ∨
      ProperPrefix ((chars b).take n) ((chars a).take n)) := by
  have hbounded : compare (strncmp a b n) 0 = compare (strcmp (a.take n) (b.take n)) 0 ↔
      ¬ (ProperPrefix ((chars a).take n) ((chars b).take n) ∨
        ProperPrefix ((chars b).take n) ((chars a).take n)) := by
    rw [compare_strncmp, compare_strcmp, chars_take, chars_take]
    exact compare_marked_iff (fun x hx => chars_lt a x (List.mem_of_mem_take hx))
      (fun x hx => chars_lt b x (List.mem_of_mem_take hx))
  constructor
  · intro h
    exact hbounded.mp h.bounded
  · intro h
    refine ⟨compare_strcmp a b, hbounded.mpr h, ?_, ?_, ?_, ?_, ?_⟩
    · rw [compare_strcmp, compare_strcmp]
      exact Std.OrientedCmp.eq_swap
    · rw [compare_strncmp, compare_strncmp]
      exact Std.OrientedCmp.eq_swap
    · intro c hab hbc
      rw [le_zero_iff, compare_strcmp] at hab hbc ⊢
      exact Std.TransCmp.isLE_trans hab hbc
    · intro c hab hbc
      rw [le_zero_iff, compare_strncmp] at hab hbc ⊢
      exact Std.TransCmp.isLE_trans hab hbc
    · intro ha hb
      rw [hbounded.mpr h, compare_strcmp, compare_strcmp, chars_take, chars_take,
        List.take_of_length_le (Nat.le_of_lt ha), List.take_of_length_le (Nat.le_of_lt hb)]

/-- The first two characters of a string, and more of it. -/
theorem not_ordered : ¬ Ordered [97] [97, 98] 2 := by
  intro h
  exact absurd h.bounded (by decide +kernel)

end Egos.Libc.Strcmp
