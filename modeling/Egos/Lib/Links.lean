import Mathlib.Data.List.Basic
import Mathlib.Data.List.Nodup

/-!
# Doubly linked lists

Nodes that say which node is next and which one is before, with a null node at both ends. The two
operations are said by what they leave in the nodes of the list, in whatever order they write it.
-/
namespace Egos.Lib

set_option autoImplicit false

variable {α : Type} {null : α} {next prev next' prev' : α → α} {p head a b : α} {l : List α}

/-- From `head` on, behind `p`, the list goes through these nodes. -/
def Linked (null : α) (next prev : α → α) : (p head : α) → List α → Prop
  | _, head, [] => head = null
  | p, head, a :: l => head = a ∧ a ≠ null ∧ prev a = p ∧ Linked null next prev a (next a) l

namespace Linked

theorem congr (h : Linked null next prev p head l) (hnext : ∀ a ∈ l, next' a = next a)
    (hprev : ∀ a ∈ l, prev' a = prev a) : Linked null next' prev' p head l := by
  induction l generalizing p head with
  | nil => exact h
  | cons a l ih =>
    obtain ⟨hhead, hne, hp, hrest⟩ := h
    have ha := List.mem_cons_self (a := a) (l := l)
    refine ⟨hhead, hne, (hprev a ha).trans hp, ?_⟩
    rw [hnext a ha]
    exact ih hrest (fun b hb => hnext b (List.mem_cons_of_mem _ hb))
      fun b hb => hprev b (List.mem_cons_of_mem _ hb)

theorem ne_null (h : Linked null next prev p head l) (ha : a ∈ l) : a ≠ null := by
  induction l generalizing p head with
  | nil => cases ha
  | cons b l ih =>
    obtain ⟨-, hne, -, hrest⟩ := h
    cases ha with
    | head => exact hne
    | tail _ ha => exact ih hrest ha

theorem head_eq_null_iff (h : Linked null next prev p head l) : head = null ↔ l = [] := by
  cases l with
  | nil => exact iff_of_true h rfl
  | cons a l =>
    obtain ⟨rfl, hne, -⟩ := h
    exact iff_of_false hne (List.cons_ne_nil _ _)

theorem head_mem (h : Linked null next prev p head l) (hne : head ≠ null) : head ∈ l := by
  cases l with
  | nil => exact absurd h hne
  | cons a l => exact h.1 ▸ List.mem_cons_self

/-- What a node says is next is in the list, or null. -/
theorem next_mem (h : Linked null next prev p head l) (ha : a ∈ l) (hne : next a ≠ null) :
    next a ∈ l := by
  induction l generalizing p head with
  | nil => cases ha
  | cons b l ih =>
    obtain ⟨-, -, -, hrest⟩ := h
    cases ha with
    | head => exact List.mem_cons_of_mem _ (hrest.head_mem hne)
    | tail _ ha => exact List.mem_cons_of_mem _ (ih hrest ha)

theorem prev_mem (h : Linked null next prev p head l) (ha : a ∈ l) (hne : prev a ≠ p) :
    prev a ∈ l := by
  induction l generalizing p head with
  | nil => cases ha
  | cons b l ih =>
    obtain ⟨-, -, hp, hrest⟩ := h
    cases ha with
    | head => exact absurd hp hne
    | tail _ ha =>
      by_cases hb : prev a = b
      · exact hb ▸ List.mem_cons_self
      · exact List.mem_cons_of_mem _ (ih hrest ha hb)

theorem next_ne (h : Linked null next prev p head l) (hnodup : l.Nodup) (ha : a ∈ l) :
    next a ≠ a := by
  induction l generalizing p head with
  | nil => cases ha
  | cons b l ih =>
    obtain ⟨-, hne, -, hrest⟩ := h
    obtain ⟨hbl, hl⟩ := List.nodup_cons.mp hnodup
    cases ha with
    | head =>
      intro heq
      rw [heq] at hrest
      exact hbl (hrest.head_mem hne)
    | tail _ ha => exact ih hrest hl ha

theorem prev_ne (h : Linked null next prev p head l) (hnodup : l.Nodup) (hpl : p ∉ l) (ha : a ∈ l) :
    prev a ≠ a := by
  induction l generalizing p head with
  | nil => cases ha
  | cons b l ih =>
    obtain ⟨-, -, hprev, hrest⟩ := h
    obtain ⟨hbl, hl⟩ := List.nodup_cons.mp hnodup
    cases ha with
    | head =>
      intro heq
      exact hpl (by rw [← hprev, heq]; exact List.mem_cons_self)
    | tail _ ha => exact ih hrest hl hbl ha

theorem push (h : Linked null next prev null head l) (hb : b ≠ null) (hnext : next' b = head)
    (hprev : prev' b = null) (hhead : head ≠ null → prev' head = b)
    (hn : ∀ a ∈ l, next' a = next a) (hp : ∀ a ∈ l, a ≠ head → prev' a = prev a)
    (hnodup : l.Nodup) : Linked null next' prev' null b (b :: l) := by
  refine ⟨rfl, hb, hprev, ?_⟩
  rw [hnext]
  cases l with
  | nil => exact h
  | cons a l =>
    obtain ⟨rfl, hne, -, hrest⟩ := h
    refine ⟨rfl, hne, hhead hne, ?_⟩
    rw [hn head List.mem_cons_self]
    refine hrest.congr (fun a ha => hn a (List.mem_cons_of_mem _ ha)) fun a ha => ?_
    refine hp a (List.mem_cons_of_mem _ ha) fun heq => ?_
    exact (List.nodup_cons.mp hnodup).1 (heq ▸ ha)

/-- A node is taken out: the one before gets its `next`, the one behind its `prev`. -/
theorem unlink_from [DecidableEq α] (h : Linked null next prev p head l) (hnodup : l.Nodup)
    (hpl : p ∉ l) (hb : b ∈ l)
    (hn : ∀ a ∈ l, a ≠ b → next' a = if a = prev b then next b else next a)
    (hp : ∀ a ∈ l, a ≠ b → prev' a = if a = next b then prev b else prev a) :
    Linked null next' prev' p (if head = b then next b else head) (l.erase b) := by
  induction l generalizing p head with
  | nil => cases hb
  | cons a l ih =>
    obtain ⟨rfl, hne, hprev, hrest⟩ := h
    obtain ⟨hal, hl⟩ := List.nodup_cons.mp hnodup
    by_cases hab : head = b
    · subst hab
      rw [if_pos rfl, List.erase_cons_head]
      -- the nodes behind: only the first of them has another `prev`
      cases l with
      | nil => exact hrest
      | cons c l =>
        obtain ⟨hc, hcne, hcprev, htail⟩ := hrest
        have hcl := (List.nodup_cons.mp hl).1
        have hbehind : ∀ a ∈ l, a ≠ head := fun a ha he =>
          hal (he ▸ List.mem_cons_of_mem _ ha)
        have hpmem : ∀ a ∈ c :: l, a ≠ p := fun a ha he =>
          hpl (he ▸ List.mem_cons_of_mem _ ha)
        have hca : c ≠ head := fun he => hal (he ▸ List.mem_cons_self)
        refine ⟨hc, hcne, ?_, ?_⟩
        · rw [hp c (List.mem_cons_of_mem _ List.mem_cons_self) hca, if_pos hc.symm]
          exact hprev
        · have hcn : next' c = next c := by
            rw [hn c (List.mem_cons_of_mem _ List.mem_cons_self) hca, hprev,
              if_neg (hpmem c List.mem_cons_self)]
          rw [hcn]
          refine htail.congr (fun a ha => ?_) fun a ha => ?_
          · rw [hn a (List.mem_cons_of_mem _ (List.mem_cons_of_mem _ ha)) (hbehind a ha), hprev,
              if_neg (hpmem a (List.mem_cons_of_mem _ ha))]
          · rw [hp a (List.mem_cons_of_mem _ (List.mem_cons_of_mem _ ha)) (hbehind a ha),
              if_neg fun he => hcl (by rw [← hc, ← he]; exact ha)]
    · have hbl : b ∈ l := by
        cases hb with
        | head => exact absurd rfl hab
        | tail _ hb => exact hb
      rw [if_neg hab, List.erase_cons_tail (by simpa using hab)]
      refine ⟨rfl, hne, ?_, ?_⟩
      · rw [hp head List.mem_cons_self hab, if_neg]
        · exact hprev
        · intro he
          -- `b` is behind `head`, and so is what is next to it
          have hnb : next b ≠ null := fun hnull => hne (he.trans hnull)
          exact hal (he ▸ hrest.next_mem hbl hnb)
      · have hfirst : next' head = if next head = b then next b else next head := by
          rw [hn head List.mem_cons_self hab]
          cases l with
          | nil => cases hbl
          | cons c l =>
            obtain ⟨hc, -, hcprev, htail⟩ := hrest
            by_cases hcb : c = b
            · rw [if_pos (by rw [← hcb, hcprev]), if_pos (hc.trans hcb)]
            · rw [if_neg (fun he => ?_), if_neg (fun he => hcb (hc.symm.trans he))]
              have hbl' : b ∈ l := by
                cases hbl with
                | head => exact absurd rfl hcb
                | tail _ hb => exact hb
              have hbc : prev b ≠ c := fun hpb => hal (by
                rw [he, hpb]
                exact List.mem_cons_self)
              exact hal (by
                rw [he]
                exact List.mem_cons_of_mem _ (htail.prev_mem hbl' hbc))
        rw [hfirst]
        exact ih hrest hl hal hbl (fun a ha => hn a (List.mem_cons_of_mem _ ha))
          fun a ha => hp a (List.mem_cons_of_mem _ ha)

end Linked

end Egos.Lib
