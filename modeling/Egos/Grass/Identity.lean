import Egos.Grass.Runs

/-!
# The ids of processes

A process keeps its id and its uid as long as it lives, and while the counter of the ids has
not wrapped, an id that was given to a process is never given to another one.
-/
namespace Egos.Grass

open Egos.Lib Egos.Earth

set_option autoImplicit false

/-- Whether the event is the birth or the death of a process. -/
def Event.vital : Event → Bool
  | .born .. | .died .. => true
  | _ => false

/-- What all moves keep that are neither a birth nor a death. -/
structure Kept (s s' : Kernel) : Prop where
  pid : ∀ p, (s'.procs p).pid = (s.procs p).pid
  uid : ∀ p, (s'.procs p).uid = (s.procs p).uid
  used : ∀ p, (s'.procs p).state ≠ .free → (s.procs p).state ≠ .free
  alive : ∀ p, (s'.procs p).Alive ↔ (s.procs p).Alive
  pidGen : s'.pidGen = s.pidGen
  events : ∃ new, s'.events = s.events ++ new ∧ ∀ e ∈ new, e.vital = false

namespace Kept

variable {s s' s'' : Kernel}

theorem trans (h : Kept s s') (h' : Kept s' s'') : Kept s s'' where
  pid p := (h'.pid p).trans (h.pid p)
  uid p := (h'.uid p).trans (h.uid p)
  used p hp := h.used p (h'.used p hp)
  alive p := (h'.alive p).trans (h.alive p)
  pidGen := h'.pidGen.trans h.pidGen
  events := by
    obtain ⟨new, he, hv⟩ := h.events
    obtain ⟨new', he', hv'⟩ := h'.events
    refine ⟨new ++ new', by rw [he', he, List.append_assoc], fun e hmem => ?_⟩
    obtain hmem | hmem := List.mem_append.mp hmem
    · exact hv e hmem
    · exact hv' e hmem

theorem same {new : List Event} (hprocs : s'.procs = s.procs) (hgen : s'.pidGen = s.pidGen)
    (hevents : s'.events = s.events ++ new) (hnew : ∀ e ∈ new, e.vital = false) : Kept s s' where
  pid p := by rw [hprocs]
  uid p := by rw [hprocs]
  used p hp := by rwa [hprocs] at hp
  alive p := by rw [hprocs]
  pidGen := hgen
  events := ⟨new, hevents, hnew⟩

theorem setProc {p : Slot} {proc : Process} {new : List Event}
    (hprocs : s'.procs = Function.update s.procs p proc) (hgen : s'.pidGen = s.pidGen)
    (hevents : s'.events = s.events ++ new) (hnew : ∀ e ∈ new, e.vital = false)
    (hpid : proc.pid = (s.procs p).pid) (huid : proc.uid = (s.procs p).uid)
    (hstate : proc.state = (s.procs p).state ∨ (s.procs p).Alive ∧ proc.Alive ∨
      (s.procs p).state = .zombie ∧ proc.state = .free) :
    Kept s s' := by
  have hself : s'.procs p = proc := by rw [hprocs, Function.update_self]
  have hother (q : Slot) (hq : q ≠ p) : s'.procs q = s.procs q := by
    rw [hprocs, Function.update_of_ne hq]
  have hused (h : proc.state ≠ .free) : (s.procs p).state ≠ .free := by
    obtain he | ⟨he | he, -⟩ | ⟨-, he⟩ := hstate
    · rwa [he] at h
    · rw [he]; decide
    · rw [he]; decide
    · exact absurd he h
  have halive : proc.Alive ↔ (s.procs p).Alive := by
    obtain he | ⟨he, he'⟩ | ⟨he, he'⟩ := hstate
    · unfold Process.Alive
      rw [he]
    · exact iff_of_true he' he
    · simp [Process.Alive, he, he']
  refine ⟨fun q => ?_, fun q => ?_, fun q hq => ?_, fun q => ?_, hgen, new, hevents, hnew⟩
  all_goals
    by_cases hp : q = p
    · subst hp
      simp_all
    · simp_all

theorem posted {p : Slot} {m : MsgType} {msg : Message} (h : Posted s p m msg s') : Kept s s' := by
  have hdep : Kept s (s.deposited p m msg) :=
    .setProc rfl rfl rfl (by simp [Event.vital]) rfl rfl (.inl rfl)
  cases h with
  | kept => exact hdep
  | woke hstate =>
    have halive : ((s.deposited p m msg).procs p).Alive := by
      rw [Process.Alive, Kernel.deposited, Kernel.emit, Kernel.setProc_state, if_pos rfl]
      exact .inr hstate
    exact hdep.trans (.setProc rfl rfl (List.append_nil _).symm (by simp) rfl rfl
      (.inr (.inl ⟨halive, .inl rfl⟩)))

theorem released {p : Slot} (rest : List Slot) (hp : (s.procs p).state = .zombie) :
    Kept s ({ s with runnable := rest }.released p) :=
  .setProc rfl rfl (List.append_nil _).symm (by simp) rfl rfl (.inr (.inr ⟨hp, rfl⟩))

end Kept

theorem receivedBy_vital {p : Slot} {m : MsgType} {size : Nat} {msg : Option Message}
    {e : Event} (h : e ∈ Message.receivedBy p m size msg) : e.vital = false := by
  cases msg with
  | none => cases h
  | some msg =>
    rw [List.mem_singleton.mp h]
    rfl

theorem answered_vital {p : Slot} {purpose : Purpose} {msg : Option Message} {e : Event}
    (h : e ∈ purpose.answered p msg) : e.vital = false := by
  cases purpose with
  | recv => cases h
  | rpc | frame =>
    rw [List.mem_singleton.mp h]
    rfl

theorem Spawns.slot_free {w : Promise} {s : Kernel} {p parent : Slot} {rest : List Slot}
    {uid owner : Nat} (h : Spawns w s p parent rest uid owner) (hc : Consistent s) :
    (s.procs p).state = .free :=
  (hc.free_iff p).mp (by rw [h.free]; exact List.mem_cons_self)

theorem spawned_other (s : Kernel) {p q : Slot} {rest : List Slot} {uid owner : Nat}
    (hq : q ≠ p) : (s.spawned p rest uid owner).procs q =
      if q = s.current then { s.me with stack := some ⟨0, .create⟩ } else s.procs q := by
  have hsame : (s.spawned p rest uid owner).procs q =
      (s.setStack s.current (some ⟨0, .create⟩)).procs q := Function.update_of_ne hq _ _
  rw [hsame]
  exact Kernel.setProc_procs _ _ _ _

/-- A move is a birth, a death, or it keeps the identities. -/
theorem Move.kept {w : Promise} {f f' : Phase} {s s' : Kernel} (hm : Move w f s f' s') :
    (∃ p parent rest uid owner, f = .idle ∧ f' = .idle ∧ Spawns w s p parent rest uid owner ∧
      s' = s.spawned p rest uid owner) ∨
    (∃ p, f = .idle ∧ f' = .notify p ∧ (s.procs p).Alive ∧ s' = s.died p) ∨ Kept s s' := by
  have hnil : s.events = s.events ++ [] := (List.append_nil _).symm
  cases hm with
  | @spawn _ p parent rest uid owner hs =>
    exact .inl ⟨p, parent, rest, uid, owner, rfl, rfl, hs, rfl⟩
  | @die _ p halive => exact .inr (.inl ⟨p, rfl, rfl, halive, rfl⟩)
  | post hposted => exact .inr (.inr (.posted hposted))
  | wake hstate =>
    exact .inr (.inr (.setProc rfl rfl hnil (by simp) rfl rfl
      (.inr (.inl ⟨.inr hstate, .inl rfl⟩))))
  | release hzombie => exact .inr (.inr (.released s.runnable hzombie))
  | reap hqueue hzombie => exact .inr (.inr (.released _ hzombie))
  | @switch _ next rest =>
    have hpark : Kept s (s.parked rest) := by
      unfold Kernel.parked
      split
      · exact .same rfl rfl hnil (by simp)
      · rename_i hzombie
        exact .released _ hzombie
      · exact .same rfl rfl hnil (by simp)
    exact .inr (.inr (hpark.trans (.same rfl rfl (List.append_nil _).symm (by simp))))
  | enter | nest | leave | exec | takeFrame =>
    exact .inr (.inr (.setProc rfl rfl hnil (by simp) rfl rfl (.inl rfl)))
  | resume =>
    refine .inr (.inr (.setProc rfl rfl (List.append_assoc _ _ _) (fun e he => ?_) rfl rfl
      (.inl rfl)))
    obtain he | he := List.mem_append.mp he
    · exact receivedBy_vital he
    · exact answered_vital he
  | take => exact .inr (.inr (.setProc rfl rfl rfl (fun e he => receivedBy_vital he)
    rfl rfl (.inl rfl)))
  | @call _ t q contents server size purpose hstack hstate hposted hpid hself =>
    refine .inr (.inr ((Kept.posted hposted).trans ?_))
    refine .setProc (t.called_procs server size purpose) rfl rfl (by simp [Event.vital]) rfl rfl ?_
    rw [← hposted.me hself] at hstate
    exact .inr (.inl ⟨.inl hstate, .inr rfl⟩)
  | block hstack hstate =>
    exact .inr (.inr (.setProc rfl rfl hnil (by simp) rfl rfl
      (.inr (.inl ⟨.inl hstate, .inr rfl⟩))))
  | fill | poke | peek => exact .inr (.inr (.same rfl rfl rfl (by simp [Event.vital])))
  | swept | keepPage | freePage | termed | shutdown | map | advance | sync =>
    exact .inr (.inr (.same rfl rfl hnil (by simp)))

/-- While `proc_term` goes on, its process is a zombie. -/
def Dying (f : Phase) (s : Kernel) : Prop :=
  ∀ p, f = .notify p ∨ (∃ k, f = .release p k) → (s.procs p).state = .zombie

theorem dying_idle (s : Kernel) : Dying .idle s := by
  intro p hp
  obtain hp | ⟨k, hp⟩ := hp <;> cases hp

theorem Move.dying {w : Promise} {f f' : Phase} {s s' : Kernel} (hm : Move w f s f' s')
    (h : Dying f s) : Dying f' s' := by
  intro d hd
  cases hm with
  | @post _ _ _ p m msg hposted =>
    have hz := h d hd
    have hp : d ≠ p := by
      rintro rfl
      have halive := hposted.alive
      rw [Process.Alive, hz] at halive
      obtain hs | hs := halive <;> cases hs
    rw [hposted.other hp]
    exact hz
  | @wake _ _ p hstate =>
    have hz := h d hd
    have hp : d ≠ p := by
      rintro rfl
      rw [hz] at hstate
      cases hstate
    rw [show (s.awake p).procs d = s.procs d from Function.update_of_ne hp _ _]
    exact hz
  | @die _ p =>
    obtain hd | ⟨k, hd⟩ := hd
    · cases hd
      simp [Kernel.died, Kernel.emit, Kernel.setProc]
    · cases hd
  | @swept _ p =>
    obtain hd | ⟨k, hd⟩ := hd
    · cases hd
    · cases hd
      exact h d (.inl rfl)
  | @keepPage _ p i =>
    obtain hd | ⟨k, hd⟩ := hd
    · cases hd
    · cases hd
      exact h d (.inr ⟨i, rfl⟩)
  | @freePage _ p i =>
    obtain hd | ⟨k, hd⟩ := hd
    · cases hd
    · cases hd
      exact h d (.inr ⟨i, rfl⟩)
  | advance => exact h d hd
  | @resume _ m size purpose => cases purpose <;> obtain hd | ⟨k, hd⟩ := hd <;> cases hd
  | _ => obtain hd | ⟨k, hd⟩ := hd <;> cases hd

/-- The phases in which no process is dying. -/
def Phase.Neutral (f : Phase) : Prop := ∀ p k, f ≠ .notify p ∧ f ≠ .release p k

theorem Phase.neutral_idle : Phase.idle.Neutral := fun _ _ => ⟨by simp, by simp⟩

theorem Phase.neutral_taken (page : Nat) : (Phase.taken page).Neutral :=
  fun _ _ => ⟨by simp, by simp⟩

theorem Phase.neutral_filled (page : Nat) : (Phase.filled page).Neutral :=
  fun _ _ => ⟨by simp, by simp⟩

theorem Purpose.neutral_phase (purpose : Purpose) : purpose.phase.Neutral := by
  cases purpose with
  | recv => exact Phase.neutral_idle
  | rpc => exact Phase.neutral_idle
  | frame => exact Phase.neutral_taken _

/-- The ids of the processes in the table, and of those that are dead. -/
structure Ids (s : Kernel) : Prop where
  bounded : ∀ p, (s.procs p).state ≠ .free → (s.procs p).pid < s.pidGen
  distinct : ∀ p q, (s.procs p).state ≠ .free → (s.procs q).state ≠ .free →
    (s.procs p).pid = (s.procs q).pid → p = q
  dead : ∀ q pid uid, .died q pid uid ∈ s.events → pid < s.pidGen ∧
    ∀ p, (s.procs p).Alive → (s.procs p).pid ≠ pid

namespace Ids

variable {s s' : Kernel}

theorem kept (h : Ids s) (hk : Kept s s') : Ids s' := by
  obtain ⟨new, hevents, hnew⟩ := hk.events
  refine ⟨fun p hp => ?_, fun p q hp hq he => ?_, fun q pid uid hmem => ?_⟩
  · rw [hk.pid, hk.pidGen]
    exact h.bounded p (hk.used p hp)
  · rw [hk.pid, hk.pid] at he
    exact h.distinct p q (hk.used p hp) (hk.used q hq) he
  · rw [hevents] at hmem
    obtain hmem | hmem := List.mem_append.mp hmem
    · obtain ⟨hlt, hne⟩ := h.dead q pid uid hmem
      refine ⟨by rw [hk.pidGen]; exact hlt, fun p hp => ?_⟩
      rw [hk.pid]
      exact hne p ((hk.alive p).mp hp)
    · exact absurd (hnew _ hmem) (by simp [Event.vital])

theorem alive_used {proc : Process} (h : proc.Alive) : proc.state ≠ .free := by
  obtain h | h := h <;> rw [h] <;> decide

theorem died (h : Ids s) {p : Slot} (hp : (s.procs p).Alive) : Ids (s.died p) := by
  have hself : (s.died p).procs p = { s.procs p with state := .zombie } :=
    Function.update_self _ _ _
  have hother (q : Slot) (hq : q ≠ p) : (s.died p).procs q = s.procs q :=
    Function.update_of_ne hq _ _
  have hpid (q : Slot) : ((s.died p).procs q).pid = (s.procs q).pid := by
    by_cases hq : q = p
    · rw [hq, hself]
    · rw [hother q hq]
  have hused (q : Slot) (hq : ((s.died p).procs q).state ≠ .free) : (s.procs q).state ≠ .free := by
    by_cases he : q = p
    · rw [he]
      exact alive_used hp
    · rwa [hother q he] at hq
  refine ⟨fun q hq => ?_, fun q r hq hr he => ?_, fun q pid uid hmem => ?_⟩
  · rw [hpid]
    exact h.bounded q (hused q hq)
  · rw [hpid, hpid] at he
    exact h.distinct q r (hused q hq) (hused r hr) he
  · obtain hmem | hmem := List.mem_append.mp (show _ ∈ s.events ++ [_] from hmem)
    · obtain ⟨hlt, hne⟩ := h.dead q pid uid hmem
      refine ⟨hlt, fun r hr => ?_⟩
      rw [hpid]
      apply hne
      by_cases he : r = p
      · exact he ▸ hp
      · rwa [hother r he] at hr
    · cases List.mem_singleton.mp hmem
      refine ⟨h.bounded p (alive_used hp), fun r hr he => ?_⟩
      rw [hpid] at he
      have hrp : r = p := h.distinct r p (hused r (alive_used hr)) (alive_used hp) he
      rw [hrp, hself] at hr
      obtain hr | hr := hr <;> cases hr

theorem spawned (h : Ids s) {p : Slot} {rest : List Slot} {uid owner : Nat}
    (hgen : s.pidGen < 2 ^ 32) : Ids (s.spawned p rest uid owner) := by
  have hmod : s.pidGen % 2 ^ 32 = s.pidGen := Nat.mod_eq_of_lt hgen
  have hself : (s.spawned p rest uid owner).procs p = { Process.zero with
      pid := s.pidGen, uid := uid, owner := owner, state := .runnable } := by
    rw [← hmod]
    exact Function.update_self _ _ _
  have hother (q : Slot) (hq : q ≠ p) : ((s.spawned p rest uid owner).procs q).pid = (s.procs q).pid ∧
      ((s.spawned p rest uid owner).procs q).state = (s.procs q).state := by
    have hsame : (s.spawned p rest uid owner).procs q =
        (s.setStack s.current (some ⟨0, .create⟩)).procs q := Function.update_of_ne hq _ _
    rw [hsame, Kernel.setStack, Kernel.setProc_procs]
    split
    · rename_i hc
      rw [hc]
      exact ⟨rfl, rfl⟩
    · exact ⟨rfl, rfl⟩
  have hgen' : (s.spawned p rest uid owner).pidGen = s.pidGen + 1 := rfl
  have hevents : (s.spawned p rest uid owner).events =
      s.events ++ [.born p (s.pidGen % 2 ^ 32) uid owner] := rfl
  generalize s.spawned p rest uid owner = t at *
  refine ⟨fun q hq => ?_, fun q r hq hr he => ?_, fun q pid uid hmem => ?_⟩
  · by_cases hp : q = p
    · rw [hp, hself, hgen']
      exact Nat.lt_succ_self _
    · rw [(hother q hp).2] at hq
      rw [(hother q hp).1, hgen']
      exact Nat.lt_succ_of_lt (h.bounded q hq)
  · by_cases hp : q = p <;> by_cases hp' : r = p
    · rw [hp, hp']
    · rw [(hother r hp').2] at hr
      rw [hp, hself, (hother r hp').1] at he
      exact absurd (h.bounded r hr) (by rw [← he]; exact Nat.lt_irrefl _)
    · rw [(hother q hp).2] at hq
      rw [hp', hself, (hother q hp).1] at he
      exact absurd (h.bounded q hq) (by rw [he]; exact Nat.lt_irrefl _)
    · rw [(hother q hp).2] at hq
      rw [(hother r hp').2] at hr
      rw [(hother q hp).1, (hother r hp').1] at he
      exact h.distinct q r hq hr he
  · rw [hevents] at hmem
    obtain hmem | hmem := List.mem_append.mp hmem
    · obtain ⟨hlt, hne⟩ := h.dead q pid uid hmem
      refine ⟨by rw [hgen']; exact Nat.lt_succ_of_lt hlt, fun r hr => ?_⟩
      by_cases hp : r = p
      · rw [hp, hself]
        exact Nat.ne_of_gt hlt
      · rw [(hother r hp).1]
        rw [Process.Alive, (hother r hp).2] at hr
        exact hne r hr
    · cases List.mem_singleton.mp hmem

end Ids

theorem Move.ids {w : Promise} {f f' : Phase} {s s' : Kernel} (hw : w.unwrapped)
    (hm : Move w f s f' s') (h : Ids s) : Ids s' := by
  obtain ⟨p, parent, rest, uid, owner, -, -, hs, rfl⟩ | ⟨p, -, -, hp, rfl⟩ | hk := hm.kept
  · exact h.spawned (hs.ids hw)
  · exact h.died hp
  · exact h.kept hk

theorem ids_procInitialize (frames : Nat → Page) : Ids (procInitialize frames) := by
  have hstate := procInitialize_state frames
  have hcurrent (p : Slot) (hp : ((procInitialize frames).procs p).state ≠ .free) :
      p = (procInitialize frames).current := by
    by_contra hne
    rw [hstate, if_neg hne] at hp
    exact hp rfl
  refine ⟨fun p hp => ?_, fun p q hp hq _ => ?_, fun q pid uid hmem => ?_⟩
  · rw [hcurrent p hp]
    exact Nat.one_lt_two
  · rw [hcurrent p hp, hcurrent q hq]
  · cases List.mem_singleton.mp (show _ ∈ [_] from hmem)

end Egos.Grass
