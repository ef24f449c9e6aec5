import Mathlib.Data.List.Basic
import Mathlib.Data.List.Nodup
import Mathlib.Data.List.Perm.Basic

/-!
# Search trees of buckets

A binary search tree of the hashes of keys, where the entries whose keys have one hash are in the
bucket of one node. Such a tree finds an entry by its key, however often hashes coincide.
-/
namespace Egos.Lib

set_option autoImplicit false

/-- A tree of hashes, with an `α` at each of them. -/
inductive Buckets (ω α : Type) where
  | null
  | node (left right : Buckets ω α) (hash : ω) (bucket : α)

namespace Buckets

variable {κ ω ε γ : Type}

/-- The entries in the order of their hashes. -/
def entries : Buckets ω (List ε) → List ε
  | null => []
  | node left right _ bucket => entries left ++ bucket ++ entries right

@[simp] theorem mem_entries_node {left right : Buckets ω (List ε)} {h : ω} {bucket : List ε}
    {x : ε} : x ∈ entries (node left right h bucket) ↔
      x ∈ entries left ∨ x ∈ bucket ∨ x ∈ entries right := by
  rw [entries, List.mem_append, List.mem_append, or_assoc]

section

variable (hash : κ → ω) (key : ε → κ)

/-- Every entry is where a search for its key ends, and no other entry has this key. -/
def Ordered [LT ω] : Buckets ω (List ε) → Prop
  | null => True
  | node left right h bucket =>
    Ordered left ∧ Ordered right ∧ (bucket.map key).Nodup ∧
      (∀ e ∈ entries left, hash (key e) < h) ∧ (∀ e ∈ bucket, hash (key e) = h) ∧
      ∀ e ∈ entries right, h < hash (key e)

variable [DecidableEq κ]

/-- Put `e` in the place of the entry with its key, or in front of all. -/
def place (e : ε) (bucket : List ε) : List ε :=
  if ∃ d ∈ bucket, key d = key e then bucket.map fun d => if key d = key e then e else d
  else e :: bucket

variable [DecidableEq ω] [LT ω] [DecidableLT ω]

def find (k : κ) : Buckets ω (List ε) → Option ε
  | null => none
  | node left right h bucket =>
    if h = hash k then bucket.find? fun e => key e = k
    else if h < hash k then find k right
    else find k left

def store (e : ε) : Buckets ω (List ε) → Buckets ω (List ε)
  | null => node null null (hash (key e)) (place key e [])
  | node left right h bucket =>
    if h = hash (key e) then node left right h (place key e bucket)
    else if h < hash (key e) then node left (store e right) h bucket
    else node (store e left) right h bucket

end

/-! ## One bucket -/

section

variable {key : ε → κ} [DecidableEq κ] {e x : ε} {bucket : List ε}

theorem place_of_mem (h : ∃ d ∈ bucket, key d = key e) :
    place key e bucket = bucket.map fun d => if key d = key e then e else d := by
  unfold place
  rw [if_pos h]

theorem place_of_not_mem (h : ¬ ∃ d ∈ bucket, key d = key e) :
    place key e bucket = e :: bucket := by
  unfold place
  rw [if_neg h]

theorem mem_place : x ∈ place key e bucket ↔ x = e ∨ x ∈ bucket ∧ key x ≠ key e := by
  by_cases h : ∃ d ∈ bucket, key d = key e
  · rw [place_of_mem h, List.mem_map]
    constructor
    · intro hgiven
      obtain ⟨d, hd, hx⟩ := hgiven
      split at hx
      · exact .inl hx.symm
      · next hkey =>
        subst hx
        exact .inr ⟨hd, hkey⟩
    · intro hx
      rcases hx with hx | ⟨hx, hkey⟩
      · obtain ⟨d, hd, hkey⟩ := h
        exact ⟨d, hd, by rw [if_pos hkey, hx]⟩
      · exact ⟨x, hx, if_neg hkey⟩
  · rw [place_of_not_mem h, List.mem_cons]
    constructor
    · intro hx
      exact hx.imp id fun hx => ⟨hx, fun hkey => h ⟨x, hx, hkey⟩⟩
    · intro hx
      exact hx.imp id And.left

/-- What the old and the new entry of the key have in common is as before. -/
theorem map_place {f : ε → γ} {d : ε} (hkeys : (bucket.map key).Nodup) (hd : d ∈ bucket)
    (hkey : key d = key e) (hf : f d = f e) : (place key e bucket).map f = bucket.map f := by
  rw [place_of_mem ⟨d, hd, hkey⟩, List.map_map]
  apply List.map_congr_left
  intro x hx
  by_cases hxe : key x = key e
  · have hxd : x = d := List.inj_on_of_nodup_map hkeys hx hd (hxe.trans hkey.symm)
    rw [Function.comp_apply, if_pos hxe, ← hf, hxd]
  · rw [Function.comp_apply, if_neg hxe]

theorem keys_place_nodup (hkeys : (bucket.map key).Nodup) :
    ((place key e bucket).map key).Nodup := by
  by_cases h : ∃ d ∈ bucket, key d = key e
  · obtain ⟨d, hd, hkey⟩ := h
    rw [map_place hkeys hd hkey hkey]
    exact hkeys
  · rw [place_of_not_mem h, List.map_cons, List.nodup_cons]
    constructor
    · intro hmem
      obtain ⟨d, hd, hkey⟩ := List.mem_map.mp hmem
      exact h ⟨d, hd, hkey⟩
    · exact hkeys

theorem find?_key_iff (hkeys : (bucket.map key).Nodup) {k : κ} :
    bucket.find? (fun d => key d = k) = some e ↔ e ∈ bucket ∧ key e = k := by
  constructor
  · intro h
    exact ⟨List.mem_of_find?_eq_some h, by simpa using List.find?_some h⟩
  · intro hgiven
    obtain ⟨hmem, hkey⟩ := hgiven
    cases h : bucket.find? fun d => key d = k with
    | none => exact absurd hkey (by simpa using List.find?_eq_none.mp h e hmem)
    | some d =>
      have hd : key d = k := by simpa using List.find?_some h
      rw [List.inj_on_of_nodup_map hkeys (List.mem_of_find?_eq_some h) hmem (hd.trans hkey.symm)]

end

/-! ## The whole tree -/

section

variable {hash : κ → ω} {key : ε → κ} [LT ω] {left right t : Buckets ω (List ε)} {h : ω}
  {bucket : List ε} {e x : ε} {k : κ}

section

variable [DecidableEq κ] [DecidableEq ω] [DecidableLT ω]

theorem Ordered.map_store (ho : Ordered hash key t) {f : ε → γ} {d : ε}
    (hfind : find hash key (key e) t = some d) (hf : f d = f e) :
    (entries (Buckets.store hash key e t)).map f = (entries t).map f := by
  induction t with
  | null => cases hfind
  | node left right h bucket hleft hright =>
    have hl := hleft ho.1
    have hr := hright ho.2.1
    unfold Buckets.store
    unfold find at hfind
    split
    · next heq =>
      rw [if_pos heq] at hfind
      have hd := (find?_key_iff ho.2.2.1).mp hfind
      simp only [entries, List.map_append, map_place ho.2.2.1 hd.1 hd.2 hf]
    · next hne =>
      rw [if_neg hne] at hfind
      split
      · next hlt =>
        rw [if_pos hlt] at hfind
        simp only [entries, List.map_append, hr hfind]
      · next hge =>
        rw [if_neg hge] at hfind
        simp only [entries, List.map_append, hl hfind]

theorem Ordered.store_perm (ho : Ordered hash key t) (hfind : find hash key (key e) t = none) :
    (entries (Buckets.store hash key e t)).Perm (e :: entries t) := by
  induction t with
  | null =>
    unfold Buckets.store
    simp [entries, place]
  | node left right h bucket hleft hright =>
    have hl := hleft ho.1
    have hr := hright ho.2.1
    unfold Buckets.store
    unfold find at hfind
    split
    · next heq =>
      rw [if_pos heq] at hfind
      have hnew : ¬ ∃ d ∈ bucket, key d = key e := by
        intro hgiven
        obtain ⟨d, hd, hkey⟩ := hgiven
        exact absurd hkey (by simpa using List.find?_eq_none.mp hfind d hd)
      rw [place_of_not_mem hnew]
      unfold entries
      rw [List.append_assoc, List.append_assoc]
      exact List.perm_middle
    · next hne =>
      rw [if_neg hne] at hfind
      split
      · next hlt =>
        rw [if_pos hlt] at hfind
        unfold entries
        exact ((hr hfind).append_left _).trans List.perm_middle
      · next hge =>
        rw [if_neg hge] at hfind
        unfold entries
        exact ((hl hfind).append_right _).append_right _

end

variable [LE ω] [Std.IsLinearOrder ω] [Std.LawfulOrderLT ω]

theorem Ordered.keys_nodup (ho : Ordered hash key t) : ((entries t).map key).Nodup := by
  induction t with
  | null => exact List.nodup_nil
  | node left right h bucket hleft hright =>
    obtain ⟨hol, hor, hkeys, hl, hb, hr⟩ := ho
    have hlt {a b : ε} (ha : hash (key a) < hash (key b)) : key a ≠ key b := by
      intro hab
      rw [hab] at ha
      exact Std.lt_irrefl ha
    unfold entries
    rw [List.map_append, List.map_append]
    apply List.Nodup.append
    · apply List.Nodup.append (hleft hol) hkeys
      intro k hk hk'
      obtain ⟨a, ha, rfl⟩ := List.mem_map.mp hk
      obtain ⟨b, hb', hba⟩ := List.mem_map.mp hk'
      exact hlt (by rw [hb b hb']; exact hl a ha) hba.symm
    · exact hright hor
    · intro k hk hk'
      obtain ⟨b, hb', rfl⟩ := List.mem_map.mp hk'
      have hbh := hr b hb'
      rw [← List.map_append] at hk
      obtain ⟨a, ha, hab⟩ := List.mem_map.mp hk
      rcases List.mem_append.mp ha with ha | ha
      · exact hlt (Std.lt_trans (hl a ha) hbh) hab
      · exact hlt (by rw [hb a ha]; exact hbh) hab

variable [DecidableEq ω] [DecidableLT ω]

/-- An entry is in that part of a node where a search for its key goes, and in no other. -/
theorem Ordered.part_of (ho : Ordered hash key (node left right h bucket)) (hkey : key x = k)
    (hx : x ∈ entries (node left right h bucket)) :
    if h = hash k then x ∈ bucket ∧ x ∉ entries left ∧ x ∉ entries right
    else if h < hash k then x ∈ entries right ∧ x ∉ entries left ∧ x ∉ bucket
    else x ∈ entries left ∧ x ∉ bucket ∧ x ∉ entries right := by
  obtain ⟨-, -, -, hleft, hbucket, hright⟩ := ho
  subst hkey
  have hl (hx : x ∈ entries left) : h ≠ hash (key x) ∧ ¬ h < hash (key x) :=
    ⟨fun he => Std.lt_irrefl (he ▸ hleft x hx), Std.not_gt_of_lt (hleft x hx)⟩
  have hr (hx : x ∈ entries right) : h ≠ hash (key x) ∧ h < hash (key x) :=
    ⟨fun he => Std.lt_irrefl (he ▸ hright x hx), hright x hx⟩
  have hb (hx : x ∈ bucket) : h = hash (key x) := (hbucket x hx).symm
  rw [mem_entries_node] at hx
  split
  · grind
  · split
    · grind
    · grind

variable [DecidableEq κ]

theorem Ordered.find_iff (ho : Ordered hash key t) :
    find hash key k t = some e ↔ e ∈ entries t ∧ key e = k := by
  induction t with
  | null => simp [find, entries]
  | node left right h bucket hleft hright =>
    have hl := hleft ho.1
    have hr := hright ho.2.1
    have hb := find?_key_iff ho.2.2.1 (e := e) (k := k)
    have hpart (hx : e ∈ entries (node left right h bucket)) (hkey : key e = k) :=
      ho.part_of hkey hx
    unfold find
    rw [mem_entries_node] at hpart ⊢
    split
    · rw [hb]
      grind
    · split
      · rw [hr]
        grind
      · rw [hl]
        grind

theorem Ordered.mem_store (ho : Ordered hash key t) :
    x ∈ entries (store hash key e t) ↔ x = e ∨ x ∈ entries t ∧ key x ≠ key e := by
  induction t with
  | null => simp [store, entries, place]
  | node left right h bucket hleft hright =>
    have hl := hleft ho.1
    have hr := hright ho.2.1
    -- the other parts of the node have no entry with this key
    have hother (hx : x ∈ entries (node left right h bucket)) (hkey : key x = key e) :=
      (ho.part_of hkey hx)
    unfold store
    rw [mem_entries_node] at hother ⊢
    split
    · rw [mem_entries_node, mem_place]
      grind
    · split
      · rw [mem_entries_node, hr]
        grind
      · rw [mem_entries_node, hl]
        grind

theorem Ordered.store (ho : Ordered hash key t) : Ordered hash key (store hash key e t) := by
  induction t with
  | null =>
    unfold Buckets.store
    exact ⟨trivial, trivial, by simp [place], by simp [entries], by simp [place],
      by simp [entries]⟩
  | node left right h bucket hleft hright =>
    obtain ⟨hol, hor, hkeys, hl, hb, hr⟩ := ho
    unfold Buckets.store
    split
    · next heq =>
      exact ⟨hol, hor, keys_place_nodup hkeys, hl, fun x hx =>
        (mem_place.mp hx).elim (fun hx => hx ▸ heq.symm) fun hx => hb x hx.1, hr⟩
    · next hne =>
      split
      · next hlt =>
        exact ⟨hol, hright hor, hkeys, hl, hb, fun x hx =>
          (hor.mem_store.mp hx).elim (fun hx => hx ▸ hlt) fun hx => hr x hx.1⟩
      · next hge =>
        have hlt : hash (key e) < h := Std.lt_of_le_of_ne (Std.not_lt.mp hge) (Ne.symm hne)
        exact ⟨hleft hol, hor, hkeys, fun x hx =>
          (hol.mem_store.mp hx).elim (fun hx => hx ▸ hlt) fun hx => hl x hx.1, hb, hr⟩

theorem Ordered.find_store (ho : Ordered hash key t) :
    find hash key k (Buckets.store hash key e t) =
      if k = key e then some e else find hash key k t := by
  apply Option.ext
  intro x
  have hstored := ho.store (e := e)
  rw [hstored.find_iff, ho.mem_store]
  split
  · next hk => grind
  · next hk =>
    rw [ho.find_iff]
    grind

end

end Buckets

end Egos.Lib
