import Egos.User.Unistd

/-!
# Reference counts of open files

`Counted` says that every open file counts the open descriptors that refer to it, and that
exactly the files without one have been closed, each of them once. Three things happen to the
table: a file is installed, a descriptor is shared, a descriptor is released. Each keeps
`Counted`, as long as what is shared is open and there is a descriptor to share it with.
-/
namespace Egos.Unistd

open Egos.Lib Egos.Disk

set_option autoImplicit false

variable {φ : Type}

/-- An open descriptor of this file. -/
def Refers (p : Nat) (entry : Fd) : Prop := entry.opened = true ∧ entry.ufp = some p

instance (p : Nat) : DecidablePred (Refers p) := fun _ => inferInstanceAs (Decidable (_ ∧ _))

/-- The number of open descriptors of a file. -/
def State.count (s : State φ) (p : Nat) : Nat := slots s.fds (Refers p)

def Event.closes : Event φ → Option Nat
  | .fflush _ => none
  | .fclose ufp _ => some ufp

/-- The files that have been closed. -/
def State.closed (s : State φ) : List Nat := s.events.filterMap Event.closes

structure Counted (s : State φ) : Prop where
  refcnt : ∀ p o, s.heap p = some o → o.refcnt = s.count p ∧ 0 < s.count p
  live : ∀ fd, (s.fds fd).opened = true → ∃ p o, (s.fds fd).ufp = some p ∧ s.heap p = some o
  fresh : ∀ p, s.next ≤ p → s.heap p = none ∧ p ∉ s.closed
  closed : ∀ p, p < s.next → (p ∈ s.closed ↔ s.count p = 0)
  once : s.closed.Nodup

theorem count_pos {s : State φ} {fd : Fin nFds} {p : Nat} (h : Refers p (s.fds fd)) : 0 < s.count p :=
  slots_pos h

theorem count_update (s : State φ) (fd : Fin nFds) (entry : Fd) (p : Nat) :
    slots (Function.update s.fds fd entry) (Refers p) + (if Refers p (s.fds fd) then 1 else 0) =
      s.count p + (if Refers p entry then 1 else 0) :=
  slots_update s.fds fd entry (Refers p)

theorem not_refers_of_closed {entry : Fd} (h : entry.opened = false) (p : Nat) : ¬ Refers p entry := by
  intro hr
  rw [hr.1] at h
  cases h

namespace Counted

variable {s : State φ}

theorem lt_next (h : Counted s) {p : Nat} {o : FPtr φ} (hp : s.heap p = some o) : p < s.next := by
  by_contra hge
  rw [(h.fresh p (Nat.le_of_not_lt hge)).1] at hp
  cases hp

theorem count_fresh (h : Counted s) {p : Nat} (hp : s.heap p = none) : s.count p = 0 := by
  by_contra hne
  unfold State.count slots at hne
  obtain ⟨fd, hfd⟩ := Finset.card_pos.mp (Nat.pos_of_ne_zero hne)
  have hr : Refers p (s.fds fd) := by simpa using hfd
  obtain ⟨q, o, hq, ho⟩ := h.live fd hr.1
  rw [hr.2] at hq
  cases hq
  rw [hp] at ho
  cases ho

theorem not_closed (h : Counted s) {p : Nat} {o : FPtr φ} (hp : s.heap p = some o) :
    p ∉ s.closed := by
  intro hc
  have hz := (h.closed p (h.lt_next hp)).mp hc
  have hpos := (h.refcnt p o hp).2
  omega

/-- Only `initialized`, `errno` or flushes differ. -/
theorem same (h : Counted s) {s' : State φ} (hfds : s'.fds = s.fds) (hheap : s'.heap = s.heap)
    (hnext : s'.next = s.next) (hclosed : s'.closed = s.closed) : Counted s' := by
  have hcount : ∀ p, s'.count p = s.count p := by
    intro p
    unfold State.count
    rw [hfds]
  constructor
  · intro p o hp
    rw [hcount]
    rw [hheap] at hp
    exact h.refcnt p o hp
  · intro fd hfd
    rw [hfds] at hfd ⊢
    rw [hheap]
    exact h.live fd hfd
  · intro p hp
    rw [hheap, hclosed]
    exact h.fresh p (hnext ▸ hp)
  · intro p hp
    rw [hclosed, hcount]
    exact h.closed p (hnext ▸ hp)
  · rw [hclosed]
    exact h.once

theorem install (h : Counted s) {fd : Fin nFds} (hfd : (s.fds fd).opened = false) (file : φ)
    (mode : Nat) :
    Counted { s with
      heap := Function.update s.heap s.next (some ⟨1, mode, file⟩)
      next := s.next + 1
      fds := Function.update s.fds fd ⟨true, some s.next⟩ } := by
  have hcount : ∀ p, slots (Function.update s.fds fd ⟨true, some s.next⟩) (Refers p) =
      s.count p + if p = s.next then 1 else 0 := by
    intro p
    have hu := count_update s fd ⟨true, some s.next⟩ p
    rw [if_neg (not_refers_of_closed hfd p)] at hu
    have hiff : Refers p ⟨true, some s.next⟩ ↔ p = s.next := by simp [Refers, eq_comm]
    rw [if_congr hiff rfl rfl] at hu
    exact hu
  have hnew := h.count_fresh (h.fresh s.next le_rfl).1
  constructor
  · intro p o hp
    change o.refcnt = (slots _ _ : Nat) ∧ 0 < slots _ _
    rw [hcount]
    by_cases hpn : p = s.next
    · subst hpn
      rw [if_pos rfl, hnew]
      dsimp only at hp
      rw [Function.update_self] at hp
      cases hp
      exact ⟨rfl, by decide⟩
    · rw [if_neg hpn]
      dsimp only at hp
      rw [Function.update_of_ne hpn] at hp
      exact h.refcnt p o hp
  · intro fd' hfd'
    dsimp only at hfd' ⊢
    by_cases he : fd' = fd
    · subst he
      rw [Function.update_self] at hfd' ⊢
      exact ⟨s.next, _, rfl, Function.update_self _ _ _⟩
    · rw [Function.update_of_ne he] at hfd' ⊢
      obtain ⟨p, o, hp, ho⟩ := h.live fd' hfd'
      have hlt := h.lt_next ho
      exact ⟨p, o, hp, by rwa [Function.update_of_ne (by omega)]⟩
  · intro p hp
    dsimp only at hp ⊢
    rw [Function.update_of_ne (by omega)]
    exact h.fresh p (by omega)
  · intro p hp
    change p ∈ s.closed ↔ slots _ _ = 0
    rw [hcount]
    by_cases hpn : p = s.next
    · subst hpn
      rw [if_pos rfl]
      exact iff_of_false (h.fresh s.next le_rfl).2 (by omega)
    · rw [if_neg hpn]
      dsimp only at hp
      exact h.closed p (by omega)
  · exact h.once

theorem share (h : Counted s) {fd fd2 : Fin nFds} (hfd : (s.fds fd).opened = true)
    (hfd2 : (s.fds fd2).opened = false) {p : Nat} {o : FPtr φ} (hp : (s.fds fd).ufp = some p)
    (ho : s.heap p = some o) :
    Counted { s with
      fds := Function.update s.fds fd2 (s.fds fd)
      heap := Function.update s.heap p (some { o with refcnt := o.refcnt + 1 }) } := by
  have hcount : ∀ q, slots (Function.update s.fds fd2 (s.fds fd)) (Refers q) =
      s.count q + if q = p then 1 else 0 := by
    intro q
    have hu := count_update s fd2 (s.fds fd) q
    rw [if_neg (not_refers_of_closed hfd2 q)] at hu
    have hiff : Refers q (s.fds fd) ↔ q = p := by simp [Refers, hfd, hp, eq_comm]
    rw [if_congr hiff rfl rfl] at hu
    exact hu
  obtain ⟨href, hpos⟩ := h.refcnt p o ho
  constructor
  · intro q o' hq
    change o'.refcnt = (slots _ _ : Nat) ∧ 0 < slots _ _
    rw [hcount]
    dsimp only at hq
    by_cases hqp : q = p
    · subst hqp
      rw [Function.update_self] at hq
      cases hq
      rw [if_pos rfl]
      dsimp only
      omega
    · rw [Function.update_of_ne hqp] at hq
      rw [if_neg hqp]
      exact h.refcnt q o' hq
  · intro fd' hfd'
    dsimp only at hfd' ⊢
    by_cases he : fd' = fd2
    · subst he
      rw [Function.update_self]
      exact ⟨p, _, hp, Function.update_self _ _ _⟩
    · rw [Function.update_of_ne he] at hfd' ⊢
      obtain ⟨q, o', hq, ho'⟩ := h.live fd' hfd'
      by_cases hqp : q = p
      · subst hqp
        exact ⟨q, _, hq, Function.update_self _ _ _⟩
      · exact ⟨q, o', hq, by rwa [Function.update_of_ne hqp]⟩
  · intro q hq
    dsimp only at hq ⊢
    have hlt := h.lt_next ho
    rw [Function.update_of_ne (by omega)]
    exact h.fresh q hq
  · intro q hq
    change q ∈ s.closed ↔ slots _ _ = 0
    rw [hcount]
    by_cases hqp : q = p
    · subst hqp
      rw [if_pos rfl]
      exact iff_of_false (h.not_closed ho) (by omega)
    · rw [if_neg hqp]
      exact h.closed q hq
  · exact h.once

theorem release (h : Counted s) {fd : Fin nFds} (hfd : (s.fds fd).opened = true) {p : Nat}
    {o : FPtr φ} (hp : (s.fds fd).ufp = some p) (ho : s.heap p = some o) {s' : State φ}
    (hfds : s'.fds = Function.update s.fds fd { s.fds fd with opened := false })
    (hnext : s'.next = s.next)
    (hlast : o.refcnt - 1 = 0 →
      s'.heap = Function.update s.heap p none ∧ s'.closed = s.closed ++ [p])
    (hmore : o.refcnt - 1 ≠ 0 →
      s'.heap = Function.update s.heap p (some { o with refcnt := o.refcnt - 1 }) ∧
        s'.closed = s.closed) : Counted s' := by
  have hcount : ∀ q, s'.count q + (if q = p then 1 else 0) = s.count q := by
    intro q
    have hu := count_update s fd { s.fds fd with opened := false } q
    have hnone : ¬ Refers q { s.fds fd with opened := false } := not_refers_of_closed rfl q
    rw [← hfds, if_neg hnone] at hu
    have hiff : Refers q (s.fds fd) ↔ q = p := by simp [Refers, hfd, hp, eq_comm]
    rw [if_congr hiff rfl rfl] at hu
    exact hu
  have hself : s'.count p + 1 = s.count p := by simpa using hcount p
  have hother : ∀ q, q ≠ p → s'.count q = s.count q := fun q hq => by simpa [hq] using hcount q
  have hheap : ∀ q, q ≠ p → s'.heap q = s.heap q := by
    intro q hq
    by_cases hz : o.refcnt - 1 = 0
    · rw [(hlast hz).1, Function.update_of_ne hq]
    · rw [(hmore hz).1, Function.update_of_ne hq]
  have hmem : ∀ q, q ≠ p → (q ∈ s'.closed ↔ q ∈ s.closed) := by
    intro q hq
    by_cases hz : o.refcnt - 1 = 0
    · simp [(hlast hz).2, hq]
    · rw [(hmore hz).2]
  obtain ⟨href, hpos⟩ := h.refcnt p o ho
  have hlt := h.lt_next ho
  have hnot := h.not_closed ho
  constructor
  · intro q o' hq
    by_cases hqp : q = p
    · subst hqp
      by_cases hz : o.refcnt - 1 = 0
      · rw [(hlast hz).1, Function.update_self] at hq
        cases hq
      · rw [(hmore hz).1, Function.update_self] at hq
        cases hq
        dsimp only
        omega
    · rw [hother q hqp]
      rw [hheap q hqp] at hq
      exact h.refcnt q o' hq
  · intro fd' hfd'
    have hne : fd' ≠ fd := by
      rintro rfl
      rw [hfds, Function.update_self] at hfd'
      cases hfd'
    rw [hfds, Function.update_of_ne hne] at hfd'
    obtain ⟨q, o', hq, ho'⟩ := h.live fd' hfd'
    have hq' : (s'.fds fd').ufp = some q := by rwa [hfds, Function.update_of_ne hne]
    by_cases hqp : q = p
    · subst hqp
      have hrefers : Refers q (s'.fds fd') := by
        rw [hfds, Function.update_of_ne hne]
        exact ⟨hfd', hq⟩
      have hpos' := count_pos hrefers
      have hz : o.refcnt - 1 ≠ 0 := by omega
      exact ⟨q, _, hq', by rw [(hmore hz).1, Function.update_self]⟩
    · exact ⟨q, o', hq', by rwa [hheap q hqp]⟩
  · intro q hq
    rw [hnext] at hq
    have hqp : q ≠ p := by omega
    rw [hheap q hqp, hmem q hqp]
    exact h.fresh q hq
  · intro q hq
    rw [hnext] at hq
    by_cases hqp : q = p
    · subst hqp
      by_cases hz : o.refcnt - 1 = 0
      · exact iff_of_true (by simp [(hlast hz).2]) (by omega)
      · exact iff_of_false (by rwa [(hmore hz).2]) (by omega)
    · rw [hmem q hqp, hother q hqp]
      exact h.closed q hq
  · by_cases hz : o.refcnt - 1 = 0
    · rw [(hlast hz).2]
      exact List.nodup_append.mpr ⟨h.once, List.nodup_singleton p, by
        intro a ha b hb
        rw [List.mem_singleton] at hb
        rintro rfl
        exact hnot (hb ▸ ha)⟩
    · rw [(hmore hz).2]
      exact h.once

end Counted

/-! ## The state that a call works on -/

/-- One of the three cases of `u_init`. -/
def State.installed (s : State φ) (fd : Fin nFds) (stream : Option φ) (mode : Nat) : State φ :=
  match stream with
  | none => s
  | some file => { s with
      heap := Function.update s.heap s.next (some ⟨1, mode, file⟩)
      next := s.next + 1
      fds := Function.update s.fds fd ⟨true, some s.next⟩ }

/-- The state after `u_init`. -/
def State.ready (s : State φ) (std : Std φ) : State φ :=
  if s.initialized then s
  else (((State.installed { s with initialized := true } 0 std.stdin 0).installed
    1 std.stdout 1).installed 2 std.stderr 1)

variable {std : Std φ} {s : State φ}

theorem outcome_uInitFd {fd : Fin nFds} {stream : Option φ} {mode : Nat}
    {Q : Unit → State φ → Prop} {E : Stop → State φ → Prop} :
    Outcome (uInitFd fd stream mode) Q E s ↔ Q ⟨⟩ (s.installed fd stream mode) := by
  cases stream <;> exact Iff.rfl

theorem outcome_uInit {Q : Unit → State φ → Prop} {E : Stop → State φ → Prop} :
    Outcome (uInit std) Q E s ↔ Q ⟨⟩ (s.ready std) := by
  unfold uInit State.ready
  rw [Outcome.bind_iff, Outcome.get_iff]
  split
  · exact Iff.rfl
  · rw [Outcome.bind_iff, Outcome.modify_iff, Outcome.bind_iff, outcome_uInitFd, Outcome.bind_iff,
      outcome_uInitFd, outcome_uInitFd]

theorem installed_fds {fd fd' : Fin nFds} (hne : fd' ≠ fd) (stream : Option φ) (mode : Nat) :
    (s.installed fd stream mode).fds fd' = s.fds fd' := by
  cases stream with
  | none => rfl
  | some file => exact Function.update_of_ne hne _ _

theorem Counted.installed (h : Counted s) {fd : Fin nFds} (hfd : (s.fds fd).opened = false)
    (stream : Option φ) (mode : Nat) : Counted (s.installed fd stream mode) := by
  cases stream with
  | none => exact h
  | some file => exact h.install hfd file mode

/-- Before the first call nothing is open. -/
structure Consistent (s : State φ) : Prop where
  counted : Counted s
  idle : s.initialized = false → ∀ fd, (s.fds fd).opened = false

theorem Consistent.ready (h : Consistent s) (std : Std φ) : Counted (s.ready std) := by
  unfold State.ready
  split
  · exact h.counted
  · rename_i hi
    have hidle := h.idle (by simpa using hi)
    have h0 : Counted { s with initialized := true } := h.counted.same rfl rfl rfl rfl
    have h1 := h0.installed (hidle 0) std.stdin 0
    have hstdout : ((State.installed { s with initialized := true } 0 std.stdin 0).fds
        1).opened = false := by
      rw [installed_fds (by decide)]
      exact hidle _
    apply (h1.installed hstdout std.stdout 1).installed
    rw [installed_fds (by decide), installed_fds (by decide)]
    exact hidle _

theorem ready_initialized (s : State φ) (std : Std φ) : (s.ready std).initialized = true := by
  unfold State.ready
  split
  · assumption
  · cases std.stdin <;> cases std.stdout <;> cases std.stderr <;> rfl

theorem ready_ready (s : State φ) (std : Std φ) : (s.ready std).ready std = s.ready std := by
  rw [State.ready, if_pos (ready_initialized s std)]

theorem consistent_initial : Consistent (initial : State φ) := by
  refine ⟨?_, fun _ _ => rfl⟩
  have hcount : ∀ p, (initial : State φ).count p = 0 := by
    intro p
    unfold State.count slots
    rw [Finset.card_eq_zero, Finset.filter_eq_empty_iff]
    intro fd _
    exact not_refers_of_closed rfl p
  constructor
  · intro p o hp
    cases hp
  · intro fd hfd
    cases hfd
  · intro p _
    exact ⟨rfl, by simp [State.closed, initial]⟩
  · intro p hp
    exact absurd hp (Nat.not_lt_zero p)
  · exact List.nodup_nil

/-- No descriptor is free. -/
def State.Full (s : State φ) : Prop := ∀ fd, (s.fds fd).opened = true

/-- A call on a descriptor that is not open, or one that finds no free descriptor. -/
def Refused (s : State φ) : Call φ → Prop
  | .open _ _ => s.Full
  | .dup fd => (s.fds fd).opened = false ∨ s.Full
  | .dup2 fd _ => (s.fds fd).opened = false
  | .close fd => (s.fds fd).opened = false

/-- Not a `dup` of an open descriptor without a free one, nor a `dup2` of one that is not
open. -/
def Harmless (s : State φ) : Call φ → Prop
  | .dup fd => (s.fds fd).opened = true → ¬ s.Full
  | .dup2 fd _ => (s.fds fd).opened = true
  | .open _ _ => True
  | .close _ => True

/-- Descriptors, files and what the streams were asked are the same. -/
structure SameTable (s s' : State φ) : Prop where
  fds : s'.fds = s.fds
  heap : s'.heap = s.heap
  next : s'.next = s.next
  events : s'.events = s.events

theorem SameTable.ready_errno (s : State φ) (std : Std φ) (e : Nat) :
    SameTable (s.ready std) (State.ready { s with errno := e } std) := by
  unfold State.ready
  dsimp only
  split
  · exact ⟨rfl, rfl, rfl, rfl⟩
  · cases std.stdin <;> cases std.stdout <;> cases std.stderr <;> exact ⟨rfl, rfl, rfl, rfl⟩

theorem ready_of_initialized {s : State φ} (h : s.initialized = true) : s.ready std = s := if_pos h

section Calls

variable {fd fd2 : Fin nFds} {E : Stop → State φ → Prop}

theorem outcome_uFindfd (s : State φ) :
    Outcome uFindfd (fun r s' => match r with
      | some fd => s' = s ∧ (s.fds fd).opened = false
      | none => s' = { s with errno := ENFILE } ∧ s.Full) E s := by
  rw [uFindfd, Outcome.bind_iff, Outcome.get_iff]
  cases hf : (List.finRange nFds).find? fun fd => !(s.fds fd).opened with
  | some fd =>
    have hfd := List.find?_some hf
    exact ⟨rfl, by simpa using hfd⟩
  | none =>
    have hfull := List.find?_eq_none.mp hf
    refine ⟨rfl, fun fd => ?_⟩
    simpa using hfull fd (List.mem_finRange fd)

theorem outcome_deref {p : Nat} {o : FPtr φ} {Q : Nat × FPtr φ → State φ → Prop}
    (ho : s.heap p = some o) (hq : Q (p, o) s) : Outcome (deref (some p)) Q E s := by
  rw [deref, Outcome.bind_iff, Outcome.get_iff]
  dsimp only
  rw [ho]
  exact hq

theorem outcome_share (h : Counted s) (hi : s.initialized = true) (hfd : (s.fds fd).opened = true)
    (hfd2 : (s.fds fd2).opened = false) :
    Outcome (share fd fd2) (fun r s' => r = fd2.val ∧ Counted s' ∧ s'.initialized = true) E s := by
  obtain ⟨p, o, hp, ho⟩ := h.live fd hfd
  rw [share, Outcome.bind_iff, Outcome.get_iff, Outcome.bind_iff, setFd, Outcome.modify_iff,
    Outcome.bind_iff, hp]
  apply outcome_deref (o := o)
  · exact ho
  · dsimp only
    rw [Outcome.bind_iff, store, Outcome.modify_iff, Outcome.pure_iff]
    exact ⟨rfl, h.share hfd hfd2 hp ho, hi⟩

theorem closed_append (events : List (Event φ)) (e : Event φ) :
    (events ++ [e]).filterMap Event.closes = events.filterMap Event.closes ++ e.closes.toList := by
  rw [List.filterMap_append]
  cases e <;> rfl

theorem outcome_close (h : Counted (s.ready std)) (fd : Fin nFds) :
    Outcome (close std fd) (fun r s' => Counted s' ∧ s'.initialized = true ∧
      (((s.ready std).fds fd).opened = false → r = -1 ∧ SameTable (s.ready std) s') ∧
      (((s.ready std).fds fd).opened = true → r = 0 ∧ s'.fds = Function.update (s.ready std).fds fd
        { (s.ready std).fds fd with opened := false })) E s := by
  have hi := ready_initialized s std
  rw [close, Outcome.bind_iff, outcome_uInit, Outcome.bind_iff, Outcome.get_iff]
  dsimp only
  cases hfd : ((s.ready std).fds fd).opened with
  | false =>
    rw [Bool.not_false, if_pos rfl, Outcome.bind_iff, setErrno, Outcome.modify_iff,
      Outcome.pure_iff]
    refine ⟨h.same rfl rfl rfl rfl, hi, fun _ => ⟨rfl, rfl, rfl, rfl, rfl⟩, fun hc => ?_⟩
    cases hc
  | true =>
    obtain ⟨p, o, hp, ho⟩ := h.live fd hfd
    have hentry : ({ (s.ready std).fds fd with opened := false } : Fd) = ⟨false, some p⟩ := by
      dsimp only
      rw [hp]
    rw [if_neg (by decide), Outcome.bind_iff, hp]
    apply outcome_deref ho
    dsimp only
    rw [Outcome.bind_iff, record, Outcome.modify_iff]
    split
    · rename_i hlast
      rw [Outcome.bind_iff, record, Outcome.modify_iff, Outcome.bind_iff, store, Outcome.modify_iff,
        Outcome.bind_iff, setFd, Outcome.modify_iff, Outcome.pure_iff]
      refine ⟨?_, hi, fun hc => (by cases hc), fun _ => ⟨rfl, rfl⟩⟩
      apply h.release hfd hp ho
      · rw [hentry]
      · rfl
      · intro _
        refine ⟨rfl, ?_⟩
        unfold State.closed
        dsimp only
        rw [closed_append, closed_append]
        simp [Event.closes]
      · intro hmore
        exact absurd hlast hmore
    · rename_i hmore
      rw [Outcome.bind_iff, store, Outcome.modify_iff, Outcome.bind_iff, setFd, Outcome.modify_iff,
        Outcome.pure_iff]
      refine ⟨?_, hi, fun hc => (by cases hc), fun _ => ⟨rfl, rfl⟩⟩
      apply h.release hfd hp ho
      · rw [hentry]
      · rfl
      · intro hlast
        exact absurd hlast hmore
      · intro _
        refine ⟨rfl, ?_⟩
        unfold State.closed
        dsimp only
        rw [closed_append]
        simp [Event.closes]

theorem outcome_open (h : Consistent s) (oflags : Nat) (fopen : String → Fopen φ) :
    Outcome (Unistd.open std oflags fopen) (fun r s' => Consistent s' ∧ ((s.ready std).Full →
      r = -1 ∧ SameTable (s.ready std) (s'.ready std))) E s := by
  have hready := h.ready std
  have hi := ready_initialized s std
  rw [Unistd.open]
  split
  · rw [Outcome.bind_iff, setErrno, Outcome.modify_iff, Outcome.pure_iff]
    exact ⟨⟨h.counted.same rfl rfl rfl rfl, h.idle⟩, fun _ => ⟨rfl, .ready_errno s std EINVAL⟩⟩
  · rename_i mode _
    rw [Outcome.bind_iff, outcome_uInit, Outcome.bind_iff]
    apply (outcome_uFindfd _).post
    intro r s' hr
    have hidle : ∀ {t : State φ}, t.initialized = true → t.initialized = false →
        ∀ fd, (t.fds fd).opened = false := fun ht hf => by rw [ht] at hf; cases hf
    cases r with
    | none =>
      obtain ⟨rfl, hfull⟩ := hr
      refine ⟨⟨hready.same rfl rfl rfl rfl, hidle hi⟩, fun _ => ⟨rfl, ?_⟩⟩
      have hsame := SameTable.ready_errno (s.ready std) std ENFILE
      rwa [ready_ready] at hsame
    | some fd =>
      obtain ⟨rfl, hfd⟩ := hr
      have hfull : ¬ (s.ready std).Full := fun hf => by rw [hf fd] at hfd; cases hfd
      dsimp only
      rw [Outcome.bind_iff, setErrno, Outcome.modify_iff]
      split
      · rw [uErr, Outcome.bind_iff, Outcome.get_iff]
        dsimp only
        split
        · rw [Outcome.bind_iff, setErrno, Outcome.modify_iff, Outcome.pure_iff]
          exact ⟨⟨hready.same rfl rfl rfl rfl, hidle hi⟩, fun hf => absurd hf hfull⟩
        · rw [Outcome.pure_iff]
          exact ⟨⟨hready.same rfl rfl rfl rfl, hidle hi⟩, fun hf => absurd hf hfull⟩
      · rename_i file _
        rw [Outcome.bind_iff, uFptr, Outcome.bind_iff, Outcome.get_iff, Outcome.bind_iff,
          Outcome.modify_iff, Outcome.pure_iff, Outcome.bind_iff, setFd, Outcome.modify_iff,
          Outcome.pure_iff]
        have hinstalled := hready.install hfd file oflags
        exact ⟨⟨hinstalled.same rfl rfl rfl rfl, hidle hi⟩, fun hf => absurd hf hfull⟩

theorem outcome_dup (h : Counted (s.ready std)) (fd : Fin nFds)
    (hsafe : Harmless (s.ready std) (.dup fd)) :
    Outcome (Unistd.dup std fd) (fun r s' => Counted s' ∧ s'.initialized = true ∧
      (Refused (s.ready std) (.dup fd) → r = -1 ∧ SameTable (s.ready std) s')) E s := by
  have hi := ready_initialized s std
  rw [Unistd.dup, Outcome.bind_iff, outcome_uInit, Outcome.bind_iff, Outcome.get_iff]
  cases hfd : ((s.ready std).fds fd).opened with
  | false =>
    rw [Bool.not_false, if_pos rfl, Outcome.bind_iff, setErrno, Outcome.modify_iff,
      Outcome.pure_iff]
    exact ⟨h.same rfl rfl rfl rfl, hi, fun _ => ⟨rfl, rfl, rfl, rfl, rfl⟩⟩
  | true =>
    rw [if_neg (by decide), Outcome.bind_iff]
    apply (outcome_uFindfd _).post
    intro r s' hr
    cases r with
    | none => exact absurd hr.2 (hsafe hfd)
    | some fd2 =>
      obtain ⟨rfl, hfd2⟩ := hr
      apply (outcome_share h hi hfd hfd2).post
      rintro r s' ⟨-, hc, hi'⟩
      refine ⟨hc, hi', fun hrefused => ?_⟩
      rcases hrefused with hclosed | hfull
      · rw [hfd] at hclosed
        cases hclosed
      · exact absurd hfull (hsafe hfd)

theorem outcome_dup2 (h : Counted (s.ready std)) (hfd : ((s.ready std).fds fd).opened = true)
    (fd2 : Fin nFds) :
    Outcome (Unistd.dup2 std fd fd2) (fun _ s' => Counted s' ∧ s'.initialized = true) E s := by
  have hi := ready_initialized s std
  rw [Unistd.dup2, Outcome.bind_iff, outcome_uInit]
  split
  · exact ⟨h, hi⟩
  · rename_i hne
    rw [Outcome.bind_iff, Outcome.get_iff]
    dsimp only
    split
    · rename_i hfd2
      rw [Outcome.bind_iff]
      have hready := ready_ready s std
      have hclose := outcome_close (E := E) (show Counted ((s.ready std).ready std) by rwa [hready]) fd2
      rw [hready] at hclose
      apply hclose.post
      rintro r s' ⟨hc, hi', -, hopen⟩
      obtain ⟨rfl, hfds⟩ := hopen hfd2
      rw [if_neg (by decide)]
      have hfd' : (s'.fds fd).opened = true := by rwa [hfds, Function.update_of_ne hne]
      have hfd2' : (s'.fds fd2).opened = false := by rw [hfds, Function.update_self]
      apply (outcome_share hc hi' hfd' hfd2').post
      rintro _ _ ⟨-, hcounted⟩
      exact hcounted
    · rename_i hfd2
      rw [Outcome.bind_iff, Outcome.pure_iff, if_neg (by decide)]
      apply (outcome_share h hi hfd (by simpa using hfd2)).post
      rintro _ _ ⟨-, hcounted⟩
      exact hcounted

/-- What a call has to do: keep the counts, and answer -1 without effect where it is refused. -/
def Meets (std : Std φ) (s : State φ) (call : Call φ) : Prop :=
  Outcome (call.perform std) (fun r s' => Consistent s' ∧ (Refused (s.ready std) call →
    r = -1 ∧ SameTable (s.ready std) (s'.ready std))) (fun _ _ => False) s

theorem consistent_of_initialized (h : Counted s) (hi : s.initialized = true) : Consistent s := by
  refine ⟨h, fun hf => ?_⟩
  rw [hi] at hf
  cases hf

theorem meets_of_harmless (h : Consistent s) {call : Call φ} (hsafe : Harmless (s.ready std) call) :
    Meets std s call := by
  have hready := h.ready std
  unfold Meets
  cases call with
  | «open» oflags fopen => exact outcome_open h oflags fopen
  | dup fd =>
    apply (outcome_dup hready fd hsafe).post
    rintro r s' ⟨hc, hi, hr⟩
    rw [ready_of_initialized hi]
    exact ⟨consistent_of_initialized hc hi, hr⟩
  | dup2 fd fd2 =>
    apply (outcome_dup2 hready hsafe fd2).post
    rintro r s' ⟨hc, hi⟩
    refine ⟨consistent_of_initialized hc hi, fun hrefused => ?_⟩
    have hclosed : ((s.ready std).fds fd).opened = false := hrefused
    rw [show ((s.ready std).fds fd).opened = true from hsafe] at hclosed
    cases hclosed
  | close fd =>
    apply (outcome_close hready fd).post
    rintro r s' ⟨hc, hi, hr, -⟩
    rw [ready_of_initialized hi]
    exact ⟨consistent_of_initialized hc hi, hr⟩

/-- Whatever it does, `share` does not return -1. -/
theorem share_ne (s : State φ) :
    Outcome (share fd fd2) (fun r _ => r ≠ -1) (fun _ _ => True) s := by
  rw [share, Outcome.bind_iff, Outcome.get_iff, Outcome.bind_iff, setFd, Outcome.modify_iff,
    Outcome.bind_iff]
  apply (Outcome.always _).post
  rintro ⟨p, o⟩ s' -
  dsimp only
  rw [Outcome.bind_iff, store, Outcome.modify_iff, Outcome.pure_iff]
  omega

/-- The calls that the condition excludes are refused and do not answer -1. -/
theorem not_meets_of_harmful (h : Consistent s) {call : Call φ}
    (hharm : ¬ Harmless (s.ready std) call) : ¬ Meets std s call := by
  have hready := h.ready std
  intro hmeets
  have hne : Refused (s.ready std) call ∧
      Outcome (call.perform std) (fun r _ => r ≠ -1) (fun _ _ => True) s := by
    cases call with
    | «open» oflags fopen => exact absurd trivial hharm
    | close fd => exact absurd trivial hharm
    | dup fd =>
      obtain ⟨hfd, hfull⟩ := Classical.not_imp.mp hharm
      rw [not_not] at hfull
      refine ⟨.inr hfull, ?_⟩
      change Outcome (Unistd.dup std fd) _ _ _
      rw [Unistd.dup, Outcome.bind_iff, outcome_uInit, Outcome.bind_iff, Outcome.get_iff, hfd,
        if_neg (by decide), Outcome.bind_iff]
      apply (outcome_uFindfd _).post
      intro r s' hr
      cases r with
      | none => trivial
      | some fd2 =>
        obtain ⟨rfl, hfd2⟩ := hr
        rw [hfull fd2] at hfd2
        cases hfd2
    | dup2 fd fd2 =>
      have hfd : ((s.ready std).fds fd).opened = false := Bool.eq_false_iff.mpr hharm
      refine ⟨hfd, ?_⟩
      change Outcome (Unistd.dup2 std fd fd2) _ _ _
      rw [Unistd.dup2, Outcome.bind_iff, outcome_uInit]
      split
      · rw [Outcome.pure_iff]
        omega
      · rw [Outcome.bind_iff, Outcome.get_iff]
        dsimp only
        split
        · rename_i hfd2
          rw [Outcome.bind_iff]
          have hclose := outcome_close (E := fun _ _ => True)
            (show Counted ((s.ready std).ready std) by rwa [ready_ready]) fd2
          rw [ready_ready] at hclose
          apply hclose.post
          rintro r s' ⟨-, -, -, hopen⟩
          rw [(hopen hfd2).1, if_neg (by decide)]
          exact share_ne s'
        · rw [Outcome.bind_iff, Outcome.pure_iff, if_neg (by decide)]
          exact share_ne _
  obtain ⟨hrefused, hcall⟩ := hne
  obtain ⟨r, s', -, hmet, hr⟩ := (Outcome.both hmeets (hcall.mono (fun _ _ h => h)
    fun _ _ _ => trivial)).mono (fun _ _ h => h) (fun _ _ h => h.1) |>.exists_ok
  exact hr (hmet.2 hrefused).1

theorem meets_iff (h : Consistent s) (call : Call φ) :
    Meets std s call ↔ Harmless (s.ready std) call :=
  ⟨fun hm => by_contra fun hn => not_meets_of_harmful h hn hm, meets_of_harmless h⟩

end Calls

/-- Make the calls one after the other. -/
def run (std : Std φ) (calls : List (Call φ)) : M φ Unit :=
  calls.forM fun call => do
    let _ ← call.perform std

/-- Each of the calls is harmless in the state it finds. -/
def AllHarmless (std : Std φ) : List (Call φ) → State φ → Prop
  | [], _ => True
  | call :: calls, s => Harmless (s.ready std) call ∧ match call.perform std s with
    | .ok _ s' => AllHarmless std calls s'
    | .error _ _ => True

instance (s : State φ) : Decidable s.Full := 
  inferInstanceAs (Decidable (∀ fd, (s.fds fd).opened = true))

instance (s : State φ) : (call : Call φ) → Decidable (Harmless s call)
  | .open _ _ => .isTrue trivial
  | .close _ => .isTrue trivial
  | .dup fd => inferInstanceAs (Decidable ((s.fds fd).opened = true → ¬ s.Full))
  | .dup2 fd _ => inferInstanceAs (Decidable ((s.fds fd).opened = true))

instance decidableAllHarmless (std : Std φ) :
    (calls : List (Call φ)) → (s : State φ) → Decidable (AllHarmless std calls s)
  | [], _ => .isTrue trivial
  | call :: calls, s =>
    have : Decidable (match call.perform std s with
        | .ok _ s' => AllHarmless std calls s'
        | .error _ _ => True) :=
      match call.perform std s with
      | .ok _ s' => decidableAllHarmless std calls s'
      | .error _ _ => .isTrue trivial
    inferInstanceAs (Decidable (_ ∧ _))

/-- In every run whose calls are all harmless, after each call every open file counts the open
descriptors that refer to it, and exactly the files without one have been closed, each once;
and the next call does what it should if and only if it is harmless, too. -/
theorem descriptors_counted (std : Std φ) (calls : List (Call φ))
    (h : AllHarmless std calls initial) :
    Outcome (run std calls) (fun _ s => Counted s ∧
      ∀ call, Meets std s call ↔ Harmless (s.ready std) call) (fun _ _ => False) initial := by
  suffices hrun : ∀ (calls : List (Call φ)) (s : State φ), Consistent s → AllHarmless std calls s →
      Outcome (run std calls) (fun _ s => Consistent s) (fun _ _ => False) s from
    (hrun calls initial consistent_initial h).post fun _ _ hc => ⟨hc.counted, meets_iff hc⟩
  intro calls
  induction calls with
  | nil =>
    intro s hc _
    exact hc
  | cons call calls ih =>
    intro s hc hs
    obtain ⟨r, s', hcall, hc', -⟩ := (meets_of_harmless hc hs.1).exists_ok
    have hrest := hs.2
    rw [hcall] at hrest
    change Outcome ((do let _ ← call.perform std) >>= fun _ => run std calls) _ _ _
    rw [Outcome.bind_iff, Outcome.bind_iff]
    exact .of_ok hcall (ih s' hc' hrest)

/-- Without standard streams a file is opened as descriptor 0, shared with 1, and 0 closed. -/
def sharedCalls : List (Call Nat) := [.open 0 fun _ => Fopen.mk (some 7) 0, .dup 0, .close 0]

def noStd : Std Nat := ⟨none, none, none⟩

theorem descriptors_counted_shared :
    Outcome (run noStd sharedCalls)
      (fun _ s => Counted s ∧ ∀ call, Meets noStd s call ↔ Harmless (s.ready noStd) call)
      (fun _ _ => False) initial :=
  descriptors_counted noStd sharedCalls (by decide +kernel)

/-- `dup2` of descriptor 0, which is closed by now, answers 5 and counts a second descriptor
of the file, of which only one is open. -/
theorem dup2_closed :
    stopped (run noStd sharedCalls initial) = none ∧
    ((final (run noStd sharedCalls initial)).fds 0).opened = false ∧
    returned ((Call.dup2 0 5).perform noStd (final (run noStd sharedCalls initial))) = some 5 ∧
    ((final ((Call.dup2 0 5).perform noStd (final (run noStd sharedCalls initial)))).heap 0).map
      FPtr.refcnt = some 2 ∧
    (final ((Call.dup2 0 5).perform noStd (final (run noStd sharedCalls initial)))).count 0 = 1 := by
  decide +kernel

end Egos.Unistd
