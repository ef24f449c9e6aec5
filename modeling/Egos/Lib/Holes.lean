import Mathlib.Data.List.Nodup
import Mathlib.Logic.Function.Basic

/-!
# Arrays with holes

A finite map kept in an array whose slots hold a key with its value or nothing. A new key goes to a
hole or behind the last slot, and a key goes away with its slot becoming a hole. As long as the keys
are distinct, the operations are those of the map.
-/
namespace Egos.Lib.Holes

set_option autoImplicit false

variable {κ ν : Type} {l a b : List (Option (κ × ν))} {k : κ} {v : ν} {i : Nat}

def keys (l : List (Option (κ × ν))) : List κ := l.filterMap fun slot => slot.map Prod.fst

/-- No key lies in two slots. -/
def Distinct (l : List (Option (κ × ν))) : Prop := (keys l).Nodup

/-- Slot `i` is a hole, or the one behind the last. -/
def Vacant (l : List (Option (κ × ν))) (i : Nat) : Prop := l[i]? = some none ∨ i = l.length

/-- Put something into slot `i`, which may be the one behind the last. -/
def fill {α : Type} (l : List α) (i : Nat) (slot : α) : List α :=
  if i < l.length then l.set i slot else l ++ [slot]

theorem keys_append : keys (a ++ b) = keys a ++ keys b := List.filterMap_append

@[simp] theorem keys_none : keys (none :: b) = keys b := rfl

@[simp] theorem keys_some : keys (some (k, v) :: b) = k :: keys b := rfl

theorem fill_middle {α : Type} (a b : List α) (x y : α) :
    fill (a ++ x :: b) a.length y = a ++ y :: b := by
  unfold fill
  rw [if_pos (by simp), List.set_append_right _ _ (Nat.le_refl _), Nat.sub_self]
  rfl

theorem fill_end {α : Type} (a : List α) (y : α) : fill a a.length y = a ++ [y] :=
  if_neg (Nat.lt_irrefl _)

theorem getElem?_fill {α : Type} {l : List α} {i j : Nat} {y : α} (h : i ≤ l.length) :
    (fill l i y)[j]? = if j = i then some y else l[j]? := by
  unfold fill
  split
  · rename_i hlt
    rw [List.getElem?_set]
    by_cases hj : i = j
    · rw [if_pos hj, if_pos hlt, if_pos hj.symm]
    · rw [if_neg hj, if_neg (Ne.symm hj)]
  · rename_i hge
    have hi : i = l.length := by omega
    rw [List.getElem?_append, List.getElem?_singleton, hi]
    split
    · rw [if_neg (by omega)]
    · by_cases hj : j = l.length
      · rw [if_pos (by omega), if_pos hj]
      · rw [if_neg (by omega), if_neg hj, List.getElem?_eq_none (by omega)]

theorem split_at {α : Type} {l : List α} {x : α} (h : l[i]? = some x) :
    ∃ a b, l = a ++ x :: b ∧ a.length = i := by
  obtain ⟨hi, hx⟩ := List.getElem?_eq_some_iff.mp h
  refine ⟨l.take i, l.drop (i + 1), ?_, List.length_take_of_le (Nat.le_of_lt hi)⟩
  rw [← hx, List.getElem_cons_drop, List.take_append_drop]

theorem distinct_between : Distinct (a ++ some (k, v) :: b) ↔
    k ∉ keys (a ++ b) ∧ Distinct (a ++ b) := by
  unfold Distinct
  rw [keys_append, keys_some, List.nodup_middle, List.nodup_cons, keys_append]

theorem keys_without : keys (a ++ none :: b) = keys (a ++ b) := by
  rw [keys_append, keys_none, keys_append]

theorem distinct_clear (h : Distinct l) (hi : l[i]? = some (some (k, v))) :
    Distinct (fill l i none) := by
  obtain ⟨a, b, rfl, rfl⟩ := split_at hi
  obtain ⟨-, hd⟩ := distinct_between.mp h
  unfold Distinct at hd ⊢
  rw [fill_middle, keys_without]
  exact hd

variable [DecidableEq κ]

/-- The value of the first slot with this key. -/
def find (l : List (Option (κ × ν))) (k : κ) : Option ν :=
  l.findSome? fun slot => slot.bind fun pair => if pair.1 = k then some pair.2 else none

theorem find_append : find (a ++ b) k = (find a k).or (find b k) := List.findSome?_append

@[simp] theorem find_hole : find (none :: b) k = find b k := rfl

theorem find_cons (k' : κ) : find (some (k, v) :: b) k' = if k = k' then some v else find b k' := by
  unfold find
  rw [List.findSome?_cons]
  by_cases h : k = k'
  · simp [h]
  · simp [h]

theorem find_eq_none_iff : find l k = none ↔ k ∉ keys l := by
  induction l with
  | nil => simp [find, keys]
  | cons slot rest ih =>
    cases slot with
    | none => rw [find_hole, keys_none, ih]
    | some pair =>
      obtain ⟨k', v⟩ := pair
      rw [find_cons, keys_some, List.mem_cons, not_or]
      by_cases h : k' = k
      · simp [h]
      · rw [if_neg h, ih]
        exact ⟨fun hk => ⟨Ne.symm h, hk⟩, fun hk => hk.2⟩

theorem find_eq_some (h : Distinct l) (hi : l[i]? = some (some (k, v))) : find l k = some v := by
  obtain ⟨a, b, rfl, -⟩ := split_at hi
  unfold Distinct at h
  rw [keys_append, keys_some, List.nodup_middle, List.nodup_cons, List.mem_append, not_or] at h
  rw [find_append, find_eq_none_iff.mpr h.1.1, Option.none_or, find_cons, if_pos rfl]

theorem exists_of_find (h : find l k = some v) : ∃ i : Nat, l[i]? = some (some (k, v)) := by
  induction l with
  | nil => cases h
  | cons slot rest ih =>
    have hrest (h : find rest k = some v) : ∃ i : Nat, (slot :: rest)[i]? = some (some (k, v)) := by
      obtain ⟨i, hi⟩ := ih h
      exact ⟨i + 1, hi⟩
    cases slot with
    | none => exact hrest h
    | some pair =>
      obtain ⟨k', v'⟩ := pair
      rw [find_cons] at h
      split at h
      · rename_i heq
        cases h
        exact ⟨0, by rw [heq]; rfl⟩
      · exact hrest h

theorem find_between (hk : k ∉ keys (a ++ b)) :
    find (a ++ some (k, v) :: b) = Function.update (find (a ++ b)) k (some v) := by
  rw [keys_append, List.mem_append, not_or] at hk
  funext k'
  rw [find_append, find_cons]
  by_cases h : k' = k
  · subst h
    rw [Function.update_self, find_eq_none_iff.mpr hk.1, if_pos rfl, Option.none_or]
  · rw [Function.update_of_ne h, if_neg (Ne.symm h), find_append]

theorem find_without : find (a ++ none :: b) = find (a ++ b) := by
  funext k
  rw [find_append, find_hole, find_append]

/-- What an array with a vacant slot becomes when the slot is filled. -/
theorem vacant_split (h : Vacant l i) (slot : Option (κ × ν)) :
    ∃ a b, fill l i slot = a ++ slot :: b ∧ keys l = keys (a ++ b) ∧ find l = find (a ++ b) := by
  rcases h with hole | rfl
  · obtain ⟨a, b, rfl, rfl⟩ := split_at hole
    exact ⟨a, b, fill_middle a b none slot, keys_without, find_without⟩
  · exact ⟨l, [], fill_end l slot, by rw [List.append_nil], by rw [List.append_nil]⟩

theorem find_fill (h : Vacant l i) (hk : k ∉ keys l) :
    find (fill l i (some (k, v))) = Function.update (find l) k (some v) := by
  obtain ⟨a, b, hfill, hkeys, hfind⟩ := vacant_split h (some (k, v))
  rw [hkeys] at hk
  rw [hfill, hfind, find_between hk]

theorem distinct_fill (h : Vacant l i) (hk : k ∉ keys l) (hl : Distinct l) :
    Distinct (fill l i (some (k, v))) := by
  obtain ⟨a, b, hfill, hkeys, -⟩ := vacant_split h (some (k, v))
  unfold Distinct at hl
  rw [hkeys] at hk hl
  rw [hfill, distinct_between]
  exact ⟨hk, hl⟩

theorem find_clear (h : Distinct l) (hi : l[i]? = some (some (k, v))) :
    find (fill l i none) = Function.update (find l) k none := by
  obtain ⟨a, b, rfl, rfl⟩ := split_at hi
  obtain ⟨hk, -⟩ := distinct_between.mp h
  rw [fill_middle, find_without, find_between hk, Function.update_idem]
  exact (Function.update_eq_self_iff.mpr (find_eq_none_iff.mpr hk).symm).symm

end Egos.Lib.Holes
