import Egos.Earth.Contents
import Egos.Grass.Identity

/-!
# Who owns the frames

A frame is free or belongs to one page of one process that is alive. A process that dies
holds its frames until `proc_term` has given them back, and `Phase` says which ones. The TLB
maps pages of the running process only.
-/
namespace Egos.Grass

open Egos.Lib Egos.Earth

set_option autoImplicit false

/-- The process holds the frame for its page `i`. -/
structure Holds (f : Phase) (s : Kernel) (p : Slot) (i frame : Nat) : Prop where
  lt : i < virtPages
  page : (s.procs p).pages i = some frame
  holder : (s.procs p).Alive ∨ f = .notify p ∨ ∃ k, f = .release p k ∧ k ≤ i

/-- The process waits for the contents of its page `i`. -/
def Process.Fetching (proc : Process) (i : Nat) : Prop :=
  ∃ nest m size server fault,
    proc.stack = some ⟨nest, .recv m size (.frame server fault)⟩ ∧ relPage fault.virt = i

structure Owned (f : Phase) (s : Kernel) : Prop where
  free_nodup : s.freeframes.Nodup
  free_lt : ∀ frame ∈ s.freeframes, frame < physFrames
  held_lt : ∀ {p i frame}, Holds f s p i frame → frame < physFrames
  exclusive : ∀ {p i frame}, Holds f s p i frame → frame ∉ s.freeframes
  unique : ∀ {p q i j frame}, Holds f s p i frame → Holds f s q j frame → p = q ∧ i = j
  complete : ∀ frame, frame < physFrames →
    frame ∈ s.freeframes ∨ ∃ p i, Holds f s p i frame

/-- A page with a frame that is not mapped: it is being filled, or it waits for that. -/
def Unmapped (f : Phase) (s : Kernel) (i : Nat) : Prop :=
  f = .taken i ∨ f = .filled i ∨ s.me.Fetching i

structure Mapped (f : Phase) (s : Kernel) : Prop where
  coherent : s.mmu.Coherent
  maps : ∀ {k page frame}, s.mmu.Maps k page frame →
    ∃ i, page = absPage i ∧ Holds f s s.current i frame ∧ ¬ Unmapped f s i
  pending : ∀ i, f = .taken i ∨ f = .filled i → i < virtPages ∧ s.me.pages i ≠ none
  fetching : ∀ p i, (s.procs p).Fetching i → i < virtPages ∧ (s.procs p).pages i ≠ none

theorem absPage_inj {i j : Nat} (h : absPage i = absPage j) : i = j := by
  unfold absPage at h
  omega

namespace Owned

variable {f f' : Phase} {s s' : Kernel}

theorem congr (h : Owned f s) (hfree : s'.freeframes = s.freeframes)
    (hholds : ∀ p i frame, Holds f' s' p i frame ↔ Holds f s p i frame) : Owned f' s' where
  free_nodup := by rw [hfree]; exact h.free_nodup
  free_lt := by rw [hfree]; exact h.free_lt
  held_lt hh := h.held_lt ((hholds _ _ _).mp hh)
  exclusive hh := by rw [hfree]; exact h.exclusive ((hholds _ _ _).mp hh)
  unique hh hh' := h.unique ((hholds _ _ _).mp hh) ((hholds _ _ _).mp hh')
  complete frame hf := by
    rw [hfree]
    obtain hmem | ⟨p, i, hh⟩ := h.complete frame hf
    · exact .inl hmem
    · exact .inr ⟨p, i, (hholds _ _ _).mpr hh⟩

theorem take (h : Owned f s) {q : Slot} {page frame : Nat} {rest : List Nat}
    (hframes : s.freeframes = frame :: rest) (hfree : s'.freeframes = rest)
    (hholds : ∀ p i frame', Holds f' s' p i frame' ↔
      Holds f s p i frame' ∨ p = q ∧ i = page ∧ frame' = frame) : Owned f' s' := by
  have hnodup := h.free_nodup
  rw [hframes, List.nodup_cons] at hnodup
  have hmem : frame ∈ s.freeframes := by rw [hframes]; exact List.mem_cons_self
  have hrest {frame' : Nat} (hm : frame' ∈ rest) : frame' ∈ s.freeframes := by
    rw [hframes]
    exact List.mem_cons_of_mem frame hm
  constructor
  · rw [hfree]
    exact hnodup.2
  · rw [hfree]
    exact fun frame' hm => h.free_lt frame' (hrest hm)
  · intro p i frame' hh
    obtain hh | ⟨-, -, rfl⟩ := (hholds _ _ _).mp hh
    · exact h.held_lt hh
    · exact h.free_lt frame' hmem
  · intro p i frame' hh
    rw [hfree]
    obtain hh | ⟨-, -, rfl⟩ := (hholds _ _ _).mp hh
    · exact fun hm => h.exclusive hh (hrest hm)
    · exact hnodup.1
  · intro p q' i j frame' hh hh'
    obtain hh | ⟨rfl, rfl, rfl⟩ := (hholds _ _ _).mp hh
    · obtain hh' | ⟨rfl, rfl, rfl⟩ := (hholds _ _ _).mp hh'
      · exact h.unique hh hh'
      · exact absurd hmem (h.exclusive hh)
    · obtain hh' | ⟨rfl, rfl, -⟩ := (hholds _ _ _).mp hh'
      · exact absurd hmem (h.exclusive hh')
      · exact ⟨rfl, rfl⟩
  · intro frame' hf
    rw [hfree]
    obtain hm | ⟨p, i, hh⟩ := h.complete frame' hf
    · rw [hframes] at hm
      obtain rfl | hm := List.mem_cons.mp hm
      · exact .inr ⟨q, page, (hholds _ _ _).mpr (.inr ⟨rfl, rfl, rfl⟩)⟩
      · exact .inl hm
    · exact .inr ⟨p, i, (hholds _ _ _).mpr (.inl hh)⟩

theorem give (h : Owned f s) {q : Slot} {page frame : Nat} (hheld : Holds f s q page frame)
    (hfree : s'.freeframes = s.freeframes ++ [frame])
    (hholds : ∀ p i frame', Holds f' s' p i frame' ↔
      Holds f s p i frame' ∧ ¬ (p = q ∧ i = page)) : Owned f' s' := by
  constructor
  · rw [hfree, List.nodup_append]
    refine ⟨h.free_nodup, List.nodup_singleton _, fun a ha b hb => ?_⟩
    rw [List.mem_singleton.mp hb]
    rintro rfl
    exact h.exclusive hheld ha
  · intro frame' hm
    rw [hfree] at hm
    obtain hm | hm := List.mem_append.mp hm
    · exact h.free_lt frame' hm
    · rw [List.mem_singleton.mp hm]
      exact h.held_lt hheld
  · exact fun hh => h.held_lt ((hholds _ _ _).mp hh).1
  · intro p i frame' hh hm
    obtain ⟨hh, hne⟩ := (hholds _ _ _).mp hh
    rw [hfree] at hm
    obtain hm | hm := List.mem_append.mp hm
    · exact h.exclusive hh hm
    · rw [List.mem_singleton.mp hm] at hh
      exact hne (h.unique hh hheld)
  · exact fun hh hh' => h.unique ((hholds _ _ _).mp hh).1 ((hholds _ _ _).mp hh').1
  · intro frame' hf
    rw [hfree]
    obtain hm | ⟨p, i, hh⟩ := h.complete frame' hf
    · exact .inl (List.mem_append_left _ hm)
    · by_cases hp : p = q ∧ i = page
      · obtain ⟨rfl, rfl⟩ := hp
        left
        rw [Option.some.inj (hh.page.symm.trans hheld.page)]
        exact List.mem_append_right _ List.mem_cons_self
      · exact .inr ⟨p, i, (hholds _ _ _).mpr ⟨hh, hp⟩⟩

end Owned

/-- When no process is dying, the processes that are alive hold their frames. -/
theorem holds_neutral {f : Phase} (hf : f.Neutral) {s : Kernel} {p : Slot} {i frame : Nat} :
    Holds f s p i frame ↔ i < virtPages ∧ (s.procs p).pages i = some frame ∧ (s.procs p).Alive := by
  constructor
  · intro h
    obtain ha | hn | ⟨k, hr, -⟩ := h.holder
    · exact ⟨h.lt, h.page, ha⟩
    · exact absurd hn (hf p 0).1
    · exact absurd hr (hf p k).2
  · exact fun h => ⟨h.1, h.2.1, .inl h.2.2⟩

theorem holds_congr {f f' : Phase} {s s' : Kernel}
    (hpages : ∀ p, (s'.procs p).pages = (s.procs p).pages)
    (halive : ∀ p, (s'.procs p).Alive ↔ (s.procs p).Alive)
    (hphase : f' = f ∨ f.Neutral ∧ f'.Neutral) (p : Slot) (i frame : Nat) :
    Holds f' s' p i frame ↔ Holds f s p i frame := by
  obtain rfl | ⟨hf, hf'⟩ := hphase
  · refine ⟨fun h => ⟨h.lt, ?_, ?_⟩, fun h => ⟨h.lt, ?_, ?_⟩⟩
    · rw [← hpages]; exact h.page
    · rw [← halive]; exact h.holder
    · rw [hpages]; exact h.page
    · rw [halive]; exact h.holder
  · rw [holds_neutral hf, holds_neutral hf', hpages, halive]

theorem Holds.same {f f' : Phase} {s s' : Kernel} {p : Slot} {i frame : Nat}
    (h : Holds f s p i frame) (hprocs : s'.procs = s.procs)
    (hphase : f' = f ∨ f.Neutral ∧ f'.Neutral) : Holds f' s' p i frame :=
  (holds_congr (fun _ => by rw [hprocs]) (fun _ => by rw [hprocs]) hphase p i frame).mpr h

theorem pages_update {s s' : Kernel} {q : Slot} {proc : Process}
    (hprocs : s'.procs = Function.update s.procs q proc)
    (hpages : proc.pages = (s.procs q).pages) (p : Slot) :
    (s'.procs p).pages = (s.procs p).pages := by
  rw [hprocs]
  by_cases hp : p = q
  · rw [hp, Function.update_self]
    exact hpages
  · rw [Function.update_of_ne hp]

theorem Posted.pages {s s' : Kernel} {q : Slot} {m : MsgType} {msg : Message}
    (h : Posted s q m msg s') (p : Slot) : (s'.procs p).pages = (s.procs p).pages := by
  have hdep := @pages_update s (s.deposited q m msg) q _ rfl rfl
  cases h with
  | kept => exact hdep p
  | woke =>
    rw [← hdep p]
    have hwoken : ((s.deposited q m msg).awake q).procs = Function.update
        (s.deposited q m msg).procs q ((s.deposited q m msg).procs q).woken := rfl
    exact pages_update hwoken rfl p

/-- What a move does to the page tables: nothing, but for a frame that is taken and a new
process. -/
theorem Move.pages {w : Promise} {f f' : Phase} {s s' : Kernel} (hm : Move w f s f' s')
    (hk : Kept s s') : (∀ p, (s'.procs p).pages = (s.procs p).pages) ∨
      ∃ page frame rest, f = .idle ∧ f' = .taken page ∧ s.freeframes = frame :: rest ∧
        page < virtPages ∧ s.me.pages page = none ∧ s.me.state = .runnable ∧
        s' = s.frameTaken page frame rest := by
  cases hm with
  | spawn => exact absurd hk.pidGen (Nat.succ_ne_self _)
  | @takeFrame _ page frame rest hstack hstate hframes hpage hlt =>
    exact .inr ⟨page, frame, rest, rfl, rfl, hframes, hlt, hpage, hstate, rfl⟩
  | post hposted => exact .inl hposted.pages
  | @switch _ next rest =>
    left
    intro p
    obtain hp | ⟨-, hc, hp⟩ := s.parked_procs rest p
    · exact congrArg Process.pages hp
    · have hpages := congrArg Process.pages hp
      subst hc
      exact hpages
  | @call _ t q contents server size purpose _ _ hposted =>
    left
    intro p
    rw [← hposted.pages p]
    exact pages_update (t.called_procs server size purpose) rfl p
  | wake | die | release | reap | enter | nest | leave | resume | take | block | exec =>
    exact .inl (pages_update rfl rfl)
  | swept | keepPage | freePage | termed | shutdown | fill | map | advance | poke | peek | sync =>
    exact .inl fun _ => rfl

theorem holds_spawned {s : Kernel} {q : Slot} {rest : List Slot} {uid owner : Nat}
    (hfree : (s.procs q).state = .free) (p : Slot) (i frame : Nat) :
    Holds .idle (s.spawned q rest uid owner) p i frame ↔ Holds .idle s p i frame := by
  rw [holds_neutral Phase.neutral_idle, holds_neutral Phase.neutral_idle]
  by_cases hp : p = q
  · subst hp
    have hself : ((s.spawned p rest uid owner).procs p).pages = fun _ => none := by
      simp [Kernel.spawned, Kernel.setProc, Kernel.emit, Process.zero]
    have hdead : ¬ (s.procs p).Alive := fun ha => Ids.alive_used ha hfree
    simp [hself, hdead]
  · rw [spawned_other s hp]
    split
    · rename_i hpc
      rw [hpc]
      exact Iff.rfl
    · exact Iff.rfl

theorem holds_died {s : Kernel} {q : Slot} (hq : (s.procs q).Alive) (p : Slot) (i frame : Nat) :
    Holds (.notify q) (s.died q) p i frame ↔ Holds .idle s p i frame := by
  have hpages := @pages_update s (s.died q) q { s.procs q with state := .zombie } rfl rfl
  rw [holds_neutral Phase.neutral_idle]
  constructor
  · intro h
    refine ⟨h.lt, by rw [← hpages]; exact h.page, ?_⟩
    by_cases hp : p = q
    · exact hp ▸ hq
    · obtain ha | hn | ⟨k, hr, -⟩ := h.holder
      · rwa [show (s.died q).procs p = s.procs p from Function.update_of_ne hp _ _] at ha
      · cases hn
        exact absurd rfl hp
      · cases hr
  · intro hgiven
    obtain ⟨hlt, hpage, ha⟩ := hgiven
    refine ⟨hlt, by rw [hpages]; exact hpage, ?_⟩
    by_cases hp : p = q
    · exact .inr (.inl (by rw [hp]))
    · left
      rwa [show (s.died q).procs p = s.procs p from Function.update_of_ne hp _ _]

theorem holds_release {s : Kernel} {q p : Slot} {k i frame : Nat} :
    Holds (.release q k) s p i frame ↔
      i < virtPages ∧ (s.procs p).pages i = some frame ∧ ((s.procs p).Alive ∨ p = q ∧ k ≤ i) := by
  constructor
  · intro h
    refine ⟨h.lt, h.page, ?_⟩
    obtain ha | hn | ⟨k', hr, hle⟩ := h.holder
    · exact .inl ha
    · cases hn
    · cases hr
      exact .inr ⟨rfl, hle⟩
  · intro hgiven
    obtain ⟨hlt, hpage, hh⟩ := hgiven
    refine ⟨hlt, hpage, ?_⟩
    obtain ha | ⟨rfl, hle⟩ := hh
    · exact .inl ha
    · exact .inr (.inr ⟨k, rfl, hle⟩)

theorem holds_notify {s : Kernel} {q p : Slot} {i frame : Nat} :
    Holds (.notify q) s p i frame ↔ Holds (.release q 0) s p i frame := by
  rw [holds_release]
  constructor
  · intro h
    refine ⟨h.lt, h.page, ?_⟩
    obtain ha | hn | ⟨k, hr, -⟩ := h.holder
    · exact .inl ha
    · cases hn
      exact .inr ⟨rfl, Nat.zero_le i⟩
    · cases hr
  · intro hgiven
    obtain ⟨hlt, hpage, hh⟩ := hgiven
    refine ⟨hlt, hpage, ?_⟩
    obtain ha | ⟨rfl, -⟩ := hh
    · exact .inl ha
    · exact .inr (.inl rfl)

/-- When all pages have been given back, only the processes that are alive hold frames. -/
theorem holds_termed {s : Kernel} {q p : Slot} {i frame : Nat} :
    Holds .idle s p i frame ↔ Holds (.release q virtPages) s p i frame := by
  rw [holds_release, holds_neutral Phase.neutral_idle]
  constructor
  · exact fun h => ⟨h.1, h.2.1, .inl h.2.2⟩
  · intro h
    obtain ⟨hlt, hpage, hh⟩ := h
    obtain ha | ⟨-, hle⟩ := hh
    · exact ⟨hlt, hpage, ha⟩
    · exact absurd hlt (Nat.not_lt.mpr hle)

theorem holds_keepPage {s : Kernel} {q p : Slot} {k i frame : Nat}
    (hpage : (s.procs q).pages k = none) :
    Holds (.release q (k + 1)) s p i frame ↔ Holds (.release q k) s p i frame := by
  rw [holds_release, holds_release]
  refine and_congr_right fun _ => and_congr_right fun hi => or_congr_right ?_
  refine and_congr_right fun hp => ⟨Nat.le_of_succ_le, fun hle => ?_⟩
  refine Nat.lt_of_le_of_ne hle ?_
  rintro rfl
  rw [hp, hpage] at hi
  cases hi

theorem holds_freePage {s : Kernel} {q p : Slot} {k i frame : Nat} (hq : ¬ (s.procs q).Alive) :
    Holds (.release q (k + 1)) s p i frame ↔
      Holds (.release q k) s p i frame ∧ ¬ (p = q ∧ i = k) := by
  rw [holds_release, holds_release]
  constructor
  · intro h
    obtain ⟨hlt, hpage, hh⟩ := h
    obtain ha | ⟨rfl, hle⟩ := hh
    · refine ⟨⟨hlt, hpage, .inl ha⟩, fun hun => ?_⟩
      rw [hun.1] at ha
      exact hq ha
    · refine ⟨⟨hlt, hpage, .inr ⟨rfl, Nat.le_of_succ_le hle⟩⟩, fun hun => ?_⟩
      rw [hun.2] at hle
      exact absurd hle (Nat.not_succ_le_self k)
  · intro hboth
    obtain ⟨⟨hlt, hpage, hh⟩, hne⟩ := hboth
    refine ⟨hlt, hpage, ?_⟩
    obtain ha | ⟨rfl, hle⟩ := hh
    · exact .inl ha
    · exact .inr ⟨rfl, Nat.lt_of_le_of_ne hle fun he => hne ⟨rfl, he.symm⟩⟩

theorem holds_frameTaken {s : Kernel} {page frame : Nat} {rest : List Nat}
    (hlt : page < virtPages) (hpage : s.me.pages page = none) (hstate : s.me.state = .runnable)
    (p : Slot) (i frame' : Nat) :
    Holds (.taken page) (s.frameTaken page frame rest) p i frame' ↔
      Holds .idle s p i frame' ∨ p = s.current ∧ i = page ∧ frame' = frame := by
  rw [holds_neutral (Phase.neutral_taken page), holds_neutral Phase.neutral_idle]
  by_cases hp : p = s.current
  · subst hp
    have hself : (s.frameTaken page frame rest).procs s.current =
        { s.me with pages := Function.update s.me.pages page (some frame) } :=
      Function.update_self _ _ _
    have hpages : ((s.frameTaken page frame rest).procs s.current).pages =
        Function.update s.me.pages page (some frame) := by rw [hself]
    have halive : ((s.frameTaken page frame rest).procs s.current).Alive := by
      rw [hself]
      exact .inl hstate
    have halive' : (s.procs s.current).Alive := .inl hstate
    rw [hpages]
    by_cases hi : i = page
    · subst hi
      rw [Function.update_self, show (s.procs s.current).pages i = none from hpage]
      simp [hlt, halive, eq_comm]
    · rw [Function.update_of_ne hi]
      simp [hi, halive, halive', Kernel.me]
  · rw [show (s.frameTaken page frame rest).procs p = s.procs p from Function.update_of_ne hp _ _]
    simp [hp]

theorem Dying.not_alive {f : Phase} {s : Kernel} (h : Dying f s) {p : Slot}
    (hp : f = .notify p ∨ ∃ k, f = .release p k) : ¬ (s.procs p).Alive := by
  intro ha
  rw [Process.Alive, h p hp] at ha
  obtain ha | ha := ha <;> cases ha

theorem Move.owned {w : Promise} {f f' : Phase} {s s' : Kernel} (hc : Consistent s)
    (hd : Dying f s) (hm : Move w f s f' s') (h : Owned f s) : Owned f' s' := by
  obtain ⟨p, parent, rest, uid, owner, rfl, rfl, hs, rfl⟩ | ⟨p, rfl, rfl, hp, rfl⟩ | hk := hm.kept
  · exact h.congr rfl (holds_spawned (hs.slot_free hc))
  · exact h.congr rfl (holds_died hp)
  obtain hpages | ⟨page, frame, rest, rfl, rfl, hframes, hlt, hpage, hstate, rfl⟩ := hm.pages hk
  · have hkeep {t : Kernel} {g : Phase} (hprocs : s'.procs = t.procs)
        (hfree : t.freeframes = s.freeframes) (hphase : g = f ∨ f.Neutral ∧ g.Neutral) :
        Owned g t := by
      refine h.congr hfree (holds_congr ?_ ?_ hphase)
      · rwa [← hprocs]
      · rw [← hprocs]
        exact hk.alive
    cases hm with
    | swept => exact h.congr rfl fun q i frame => holds_notify.symm
    | keepPage hpage => exact h.congr rfl fun q i frame => holds_keepPage hpage
    | @freePage _ p i frame hlt hpage =>
      have hdead : ¬ (s.procs p).Alive := hd.not_alive (.inr ⟨i, rfl⟩)
      have hheld : Holds (.release p i) s p i frame :=
        holds_release.mpr ⟨hlt, hpage, .inr ⟨rfl, le_rfl⟩⟩
      refine h.give hheld rfl fun q j frame' => ?_
      rw [← holds_freePage hdead]
      exact holds_congr hpages hk.alive (.inl rfl) q j frame'
    | termed => exact h.congr rfl fun q i frame => holds_termed
    | release =>
      refine h.congr rfl fun q i frame => ?_
      rw [← holds_termed]
      exact holds_congr hpages hk.alive (.inl rfl) q i frame
    | spawn => exact absurd hk.pidGen (Nat.succ_ne_self _)
    | @die _ p halive =>
      have hdead := (hk.alive p).mpr halive
      simp [Kernel.died, Kernel.emit, Kernel.setProc, Process.Alive] at hdead
    | post hposted =>
      refine hkeep rfl ?_ (.inl rfl)
      cases hposted <;> rfl
    | @switch _ next rest =>
      refine hkeep rfl ?_ (.inl rfl)
      change (s.parked rest).freeframes = s.freeframes
      unfold Kernel.parked
      split <;> rfl
    | @resume _ m size purpose =>
      exact hkeep rfl rfl (.inr ⟨Phase.neutral_idle, purpose.neutral_phase⟩)
    | @call _ t q contents server size purpose _ _ hposted =>
      refine hkeep rfl ?_ (.inr ⟨purpose.neutral_phase, Phase.neutral_idle⟩)
      change t.freeframes = s.freeframes
      cases hposted <;> rfl
    | @takeFrame _ page frame rest _ _ _ hpage =>
      have hp := congrFun (hpages s.current) page
      simp [Kernel.frameTaken, Kernel.setProc] at hp
      rw [show (s.procs s.current).pages page = none from hpage] at hp
      cases hp
    | @fill _ page =>
      exact hkeep rfl rfl (.inr ⟨Phase.neutral_taken page, Phase.neutral_filled page⟩)
    | @map _ _ virt _ _ _ _ _ _ _ _ hindex =>
      refine hkeep rfl rfl (.inr ⟨?_, Phase.neutral_idle⟩)
      obtain rfl | ⟨rfl, -⟩ := hindex
      · exact Phase.neutral_filled _
      · exact Phase.neutral_idle
    | wake | reap | enter | nest | leave | take | block | shutdown | exec | advance | poke
    | peek | sync => exact hkeep rfl rfl (.inl rfl)
  · exact h.take hframes rfl (holds_frameTaken hlt hpage hstate)

namespace Mapped

variable {f f' : Phase} {s s' : Kernel}

/-- The TLB has lost entries at most, and the pages of the rest are held as before. -/
theorem settled (h : Mapped f s) (hmmu : s.mmu.Settles s'.mmu)
    (hmaps : ∀ {k page frame}, s'.mmu.Maps k page frame → ∀ i, page = absPage i →
      Holds f s s.current i frame → ¬ Unmapped f s i →
        Holds f' s' s'.current i frame ∧ ¬ Unmapped f' s' i)
    (hpending : ∀ i, f' = .taken i ∨ f' = .filled i → i < virtPages ∧ s'.me.pages i ≠ none)
    (hfetching : ∀ p i, (s'.procs p).Fetching i → i < virtPages ∧ (s'.procs p).pages i ≠ none) :
    Mapped f' s' := by
  refine ⟨hmmu.coherent, fun {k page frame} hk => ?_, hpending, hfetching⟩
  obtain ⟨i, hi, hholds, hun⟩ := h.maps (hmmu.entries k page frame hk).1
  exact ⟨i, hi, hmaps hk i hi hholds hun⟩

theorem congr (h : Mapped f s) (hmmu : s'.mmu = s.mmu) (hcurrent : s'.current = s.current)
    (hholds : ∀ i frame, Holds f s s.current i frame → Holds f' s' s.current i frame)
    (hpages : ∀ p i, (s.procs p).pages i ≠ none → (s'.procs p).pages i ≠ none)
    (hphase : ∀ i, f' = .taken i ∨ f' = .filled i → f = .taken i ∨ f = .filled i ∨ s.me.Fetching i)
    (hfetching : ∀ p i, (s'.procs p).Fetching i → (s.procs p).Fetching i ∨
      p = s.current ∧ (f = .taken i ∨ f = .filled i)) : Mapped f' s' := by
  have hpend (i : Nat) (hi : f = .taken i ∨ f = .filled i ∨ s.me.Fetching i) :
      i < virtPages ∧ s.me.pages i ≠ none := by
    obtain hi | hi | hi := hi
    · exact h.pending i (.inl hi)
    · exact h.pending i (.inr hi)
    · exact h.fetching s.current i hi
  refine h.settled (by rw [hmmu]; exact .refl h.coherent) ?_ ?_ ?_
  · intro k page frame _ i _ hh hun
    rw [hcurrent]
    refine ⟨hholds i frame hh, fun hun' => hun ?_⟩
    obtain hi | hi | hi := hun'
    · exact hphase i (.inl hi)
    · exact hphase i (.inr hi)
    · rw [Kernel.me, hcurrent] at hi
      obtain hi | ⟨-, hi | hi⟩ := hfetching s.current i hi
      · exact .inr (.inr hi)
      · exact .inl hi
      · exact .inr (.inl hi)
  · intro i hi
    obtain ⟨hlt, hne⟩ := hpend i (hphase i hi)
    rw [Kernel.me, hcurrent]
    exact ⟨hlt, hpages s.current i hne⟩
  · intro p i hi
    obtain hi | ⟨rfl, hi | hi⟩ := hfetching p i hi
    · obtain ⟨hlt, hne⟩ := h.fetching p i hi
      exact ⟨hlt, hpages p i hne⟩
    · obtain ⟨hlt, hne⟩ := h.pending i (.inl hi)
      exact ⟨hlt, hpages s.current i hne⟩
    · obtain ⟨hlt, hne⟩ := h.pending i (.inr hi)
      exact ⟨hlt, hpages s.current i hne⟩

end Mapped

theorem fetching_of_stack {proc proc' : Process} {i : Nat} (h : proc'.stack = proc.stack)
    (hf : proc'.Fetching i) : proc.Fetching i := by
  unfold Process.Fetching at hf
  rw [h] at hf
  exact hf

theorem Process.Fetching.stack {proc : Process} {i : Nat} (h : proc.Fetching i) :
    proc.stack ≠ none := by
  obtain ⟨nest, m, size, server, fault, hs, -⟩ := h
  rw [hs]
  simp

theorem fetching_update {s s' : Kernel} {q : Slot} {proc : Process} {p : Slot} {i : Nat}
    (h : (s'.procs p).Fetching i) (hprocs : s'.procs = Function.update s.procs q proc)
    (hq : proc.Fetching i → (s.procs q).Fetching i) : (s.procs p).Fetching i := by
  rw [hprocs] at h
  by_cases hp : p = q
  · subst hp
    rw [Function.update_self] at h
    exact hq h
  · rwa [Function.update_of_ne hp] at h

theorem Posted.stack {s s' : Kernel} {q : Slot} {m : MsgType} {msg : Message}
    (h : Posted s q m msg s') (p : Slot) : (s'.procs p).stack = (s.procs p).stack := h.quiet.stack p

namespace Mapped

variable {f f' : Phase} {s s' : Kernel}

theorem spawned (h : Mapped .idle s) {q : Slot} {rest : List Slot} {uid owner : Nat}
    (hbare : ∀ i, i < virtPages → s.me.pages i = none) :
    Mapped .idle (s.spawned q rest uid owner) := by
  refine ⟨h.coherent, fun {k page frame} hk => ?_, fun i hi => ?_, fun p i hi => ?_⟩
  · obtain ⟨i, -, hholds, -⟩ := h.maps hk
    have hpage := hholds.page
    rw [show (s.procs s.current).pages i = none from hbare i hholds.lt] at hpage
    cases hpage
  · obtain hi | hi := hi <;> cases hi
  · have hp : p ≠ q := by
      rintro rfl
      refine hi.stack ?_
      simp [Kernel.spawned, Kernel.setProc, Kernel.emit, Process.zero]
    rw [spawned_other s hp] at hi ⊢
    split at hi
    · obtain ⟨nest, m, size, server, fault, hs, -⟩ := hi
      cases hs
    · rename_i hpc
      rw [if_neg hpc]
      exact h.fetching p i hi

theorem frameTaken (h : Mapped .idle s) {page frame : Nat} {rest : List Nat}
    (hstate : s.me.state = .runnable) (hlt : page < virtPages)
    (hpage : s.me.pages page = none) : Mapped (.taken page) (s.frameTaken page frame rest) := by
  have hself : (s.frameTaken page frame rest).procs s.current =
      { s.me with pages := Function.update s.me.pages page (some frame) } :=
    Function.update_self _ _ _
  have hpages (p : Slot) (i : Nat) (hi : (s.procs p).pages i ≠ none) :
      ((s.frameTaken page frame rest).procs p).pages i ≠ none := by
    by_cases hp : p = s.current
    · subst hp
      rw [hself]
      change Function.update s.me.pages page (some frame) i ≠ none
      by_cases hip : i = page
      · subst hip
        rw [Function.update_self]
        simp
      · rwa [Function.update_of_ne hip]
    · rwa [show (s.frameTaken page frame rest).procs p = s.procs p from
        Function.update_of_ne hp _ _]
  have hfetch (p : Slot) (i : Nat) (hi : ((s.frameTaken page frame rest).procs p).Fetching i) :
      (s.procs p).Fetching i := fetching_update hi rfl (fetching_of_stack rfl)
  refine h.settled (.refl h.coherent) ?_ ?_ ?_
  · intro k page' frame' _ i _ hh hun
    refine ⟨(holds_frameTaken hlt hpage hstate _ i frame').mpr (.inl hh), ?_⟩
    rintro (hi | hi | hi)
    · cases hi
      have hi := hh.page
      rw [show (s.procs s.current).pages page = none from hpage] at hi
      cases hi
    · cases hi
    · exact hun (.inr (.inr (hfetch s.current i hi)))
  · intro i hi
    obtain hi | hi := hi
    · cases hi
      refine ⟨hlt, ?_⟩
      rw [show (s.frameTaken page frame rest).me = _ from hself]
      change Function.update s.me.pages page (some frame) page ≠ none
      rw [Function.update_self]
      simp
    · cases hi
  · intro p i hi
    obtain ⟨hi', hne⟩ := h.fetching p i (hfetch p i hi)
    exact ⟨hi', hpages p i hne⟩

theorem frame_unmapped (h : Mapped f s) (ho : Owned f s) {i frame : Nat}
    (hheld : Holds f s s.current i frame) (hun : Unmapped f s i) (k : Fin tlbSize) (page : Nat) :
    ¬ s.mmu.Maps k page frame := by
  intro hk
  obtain ⟨j, -, hh, hmapped⟩ := h.maps hk
  rw [(ho.unique hh hheld).2] at hmapped
  exact hmapped hun

theorem filled {page frame : Nat} (h : Mapped (.taken page) s) (ho : Owned (.taken page) s)
    (hstate : s.me.state = .runnable) (hpage : s.me.pages page = some frame) (contents : Page) :
    Mapped (.filled page) (s.filled page frame contents) := by
  have hlt := (h.pending page (.inl rfl)).1
  have hheld : Holds (.taken page) s s.current page frame :=
    (holds_neutral (Phase.neutral_taken page)).mpr ⟨hlt, hpage, .inl hstate⟩
  refine ⟨(h.coherent.fill (h.frame_unmapped ho hheld (.inl rfl)) contents).1,
    fun {k page' frame'} hk => ?_, fun i hi => ?_, h.fetching⟩
  · obtain ⟨i, hi, hh, hun⟩ := h.maps (show s.mmu.Maps k page' frame' from hk)
    refine ⟨i, hi, ?_, ?_⟩
    · exact hh.same rfl (.inr ⟨Phase.neutral_taken page, Phase.neutral_filled page⟩)
    · rintro (hf | hf | hf)
      · cases hf
      · cases hf
        exact hun (.inl rfl)
      · exact hun (.inr (.inr hf))
  · obtain hi | hi := hi
    · cases hi
    · cases hi
      exact h.pending page (.inl rfl)

theorem mapProt_read (proc : Process) (virt : Nat) (access : Access) :
    (mapProt proc virt access).read = true := by
  unfold mapProt
  split
  · split
    · split <;> rfl
    · rfl
  · rfl

/-- The page that is mapped has no entry but the one that is replaced, nor has its frame. -/
theorem map_free (h : Mapped f s) (ho : Owned f s) {virt frame : Nat} {index : Fin tlbSize}
    (hstate : s.me.state = .runnable) (hlow : virtBase ≤ virt) (htop : virt < virtTop)
    (hpage : s.me.pages (relPage virt) = some frame)
    (hindex : f = .filled (relPage virt) ∨ f = .idle ∧
      ∀ i ∈ s.mmu.getEntry (virt / pageSize), i = index) :
    (∀ l frame', l ≠ index → ¬ s.mmu.Maps l (virt / pageSize) frame') ∧
      ∀ l page', l ≠ index → ¬ s.mmu.Maps l page' frame := by
  have hheld : Holds f s s.current (relPage virt) frame :=
    ⟨relPage_lt hlow htop, hpage, .inl (.inl hstate)⟩
  have hvirt (l : Fin tlbSize) (frame' : Nat) (hl : l ≠ index) :
      ¬ s.mmu.Maps l (virt / pageSize) frame' := by
    intro hk
    obtain hf | ⟨hf, hi⟩ := hindex
    · obtain ⟨j, hj, -, hun⟩ := h.maps hk
      rw [← absPage_relPage hlow] at hj
      rw [← absPage_inj hj] at hun
      exact hun (.inr (.inl hf))
    · cases hentry : s.mmu.getEntry (virt / pageSize) with
      | none => exact Mmu.getEntry_none hentry l frame' hk
      | some i =>
        obtain ⟨frame'', hi'⟩ := Mmu.getEntry_some hentry
        exact hl ((h.coherent.virt hk hi').trans (hi i hentry))
  refine ⟨hvirt, fun l page' hl hk => ?_⟩
  obtain ⟨j, hj, hh, -⟩ := h.maps hk
  rw [(ho.unique hh hheld).2, absPage_relPage hlow] at hj
  rw [hj] at hk
  exact hvirt l frame hl hk

theorem mapped (h : Mapped f s) (ho : Owned f s) {virt frame : Nat} {index : Fin tlbSize}
    {access : Access} (hstack : s.me.stack = none) (hstate : s.me.state = .runnable)
    (hlow : virtBase ≤ virt) (htop : virt < virtTop)
    (hpage : s.me.pages (relPage virt) = some frame)
    (hindex : f = .filled (relPage virt) ∨ f = .idle ∧
      ∀ i ∈ s.mmu.getEntry (virt / pageSize), i = index) :
    Mapped .idle (s.mapped index (virt / pageSize) frame (mapProt s.me virt access)) := by
  obtain ⟨hvirt, hphys⟩ := h.map_free ho hstate hlow htop hpage hindex
  have hneutral : f.Neutral := by
    obtain rfl | ⟨rfl, -⟩ := hindex
    · exact Phase.neutral_filled _
    · exact Phase.neutral_idle
  have hun (i : Nat) :
      ¬ Unmapped .idle (s.mapped index (virt / pageSize) frame (mapProt s.me virt access)) i := by
    rintro (hi | hi | hi)
    · cases hi
    · cases hi
    · exact hi.stack hstack
  refine ⟨h.coherent.map (mapProt_read _ _ _) hvirt hphys, fun {k page' frame'} hk => ?_,
    fun i hi => ?_, h.fetching⟩
  · obtain ⟨-, rfl, rfl⟩ | ⟨hne, hk⟩ := Mmu.map_maps.mp hk
    · refine ⟨relPage virt, (absPage_relPage hlow).symm, ?_, hun _⟩
      exact ⟨relPage_lt hlow htop, hpage, .inl (.inl hstate)⟩
    · obtain ⟨i, hi, hh, -⟩ := h.maps hk
      exact ⟨i, hi, hh.same rfl (.inr ⟨hneutral, Phase.neutral_idle⟩), hun i⟩
  · obtain hi | hi := hi <;> cases hi

theorem permitted (h : Mapped f s) {virt : Nat} {allows : Prot → Bool}
    (hnone : allows Prot.none = false) (hp : Permitted s virt allows) :
    ∃ k frame, s.mmu.Maps k (virt / pageSize) frame ∧
      allows (s.mmu.entries k).prot = true := by
  obtain ⟨-, -, hallows⟩ := hp
  have haccess : s.mmu.access (virt / pageSize) ≠ Prot.none := by
    intro he
    rw [he, hnone] at hallows
    cases hallows
  obtain ⟨k, frame, hk⟩ := h.coherent.mapped haccess
  rw [h.coherent.access hk] at hallows
  exact ⟨k, frame, hk, hallows⟩

theorem poked (h : Mapped .idle s) {virt : Nat} {byte : Byte}
    (hp : Permitted s virt Prot.write) : Mapped .idle (s.poked virt byte) := by
  obtain ⟨k, frame, hk, hwrite⟩ := h.permitted rfl hp
  refine ⟨(h.coherent.write hk hwrite _).1, fun {l page frame'} hl => ?_, h.pending, h.fetching⟩
  obtain ⟨i, hi, hh, hun⟩ := h.maps (show s.mmu.Maps l page frame' from hl)
  exact ⟨i, hi, hh.same rfl (.inl rfl), hun⟩

theorem freedPage {p : Slot} {i : Nat} (h : Mapped (.release p i) s)
    (hdead : ¬ (s.procs p).Alive) (hprocs : s'.procs = s.procs) (hcurrent : s'.current = s.current)
    (hmmu : s'.mmu = s.mmu.unmap (absPage i)) : Mapped (.release p (i + 1)) s' := by
  have hme : s'.me = s.me := by rw [Kernel.me, hprocs, hcurrent, Kernel.me]
  refine h.settled (by rw [hmmu]; exact h.coherent.unmap _) ?_ (by simp) ?_
  · intro k page frame' hk j hj hh hun
    rw [hcurrent]
    refine ⟨Holds.same ((holds_freePage hdead).mpr ⟨hh, fun he => ?_⟩) hprocs (.inl rfl), ?_⟩
    · rw [hmmu, hj, he.2] at hk
      exact Mmu.unmap_maps _ _ _ _ hk
    · unfold Unmapped at hun ⊢
      rw [hme]
      simpa using hun
  · rw [hprocs]
    exact h.fetching

theorem switched (h : Mapped .idle s) (next : Slot) (rest : List Slot)
    (hpages : ∀ p, ((s.switched next rest).procs p).pages = (s.procs p).pages) :
    Mapped .idle (s.switched next rest) := by
  refine ⟨h.coherent.flush.coherent, fun hk => absurd hk (Mmu.flush_maps _ _ _ _), by simp,
    fun p i hi => ?_⟩
  have hstack : ((s.switched next rest).procs p).stack = (s.procs p).stack := by
    obtain hp | ⟨-, hc, hp⟩ := s.parked_procs rest p
    · exact congrArg Process.stack hp
    · have hst := congrArg Process.stack hp
      subst hc
      exact hst
  obtain ⟨hlt, hne⟩ := h.fetching p i (fetching_of_stack hstack hi)
  exact ⟨hlt, by rwa [hpages]⟩

end Mapped

theorem Move.mapped {w : Promise} {f f' : Phase} {s s' : Kernel} (hw : w.bareCreator)
    (hd : Dying f s) (ho : Owned f s) (hm : Move w f s f' s') (h : Mapped f s) : Mapped f' s' := by
  obtain ⟨p, parent, rest, uid, owner, rfl, rfl, hs, rfl⟩ | ⟨p, rfl, rfl, hp, rfl⟩ | hk := hm.kept
  · exact h.spawned (hs.bare hw)
  · refine h.congr rfl rfl (fun i frame => (holds_died hp _ i frame).mpr) (fun q i hi => ?_)
      (fun i hi => by obtain hi | hi := hi <;> cases hi) (fun q i hi => .inl ?_)
    · rwa [pages_update (show (s.died p).procs = _ from rfl) rfl]
    · exact fetching_update hi rfl (fetching_of_stack rfl)
  obtain hpages | ⟨page, frame, rest, rfl, rfl, hframes, hlt, hpage, hstate, rfl⟩ := hm.pages hk
  · have hkeep {g : Phase} (hmmu : s'.mmu = s.mmu) (hcurrent : s'.current = s.current)
        (hphase : g = f ∨ f.Neutral ∧ g.Neutral)
        (hpend : ∀ i, g = .taken i ∨ g = .filled i →
          f = .taken i ∨ f = .filled i ∨ s.me.Fetching i)
        (hfetching : ∀ p i, (s'.procs p).Fetching i → (s.procs p).Fetching i ∨
          p = s.current ∧ (f = .taken i ∨ f = .filled i)) : Mapped g s' := by
      refine h.congr hmmu hcurrent (fun i frame hh => ?_) (fun p i hi => ?_) hpend hfetching
      · exact (holds_congr hpages hk.alive hphase _ i frame).mpr hh
      · rwa [hpages]
    cases hm with
    | spawn => exact absurd hk.pidGen (Nat.succ_ne_self _)
    | @die _ p halive =>
      have hdead := (hk.alive p).mpr halive
      simp [Kernel.died, Kernel.emit, Kernel.setProc, Process.Alive] at hdead
    | @takeFrame _ page frame rest _ _ _ hpage =>
      have hp := congrFun (hpages s.current) page
      simp [Kernel.frameTaken, Kernel.setProc] at hp
      rw [show (s.procs s.current).pages page = none from hpage] at hp
      cases hp
    | @post _ _ _ q m msg hposted =>
      refine hkeep ?_ hposted.current (.inl rfl) (fun i hi => hi.imp_right .inl) fun p i hi => ?_
      · cases hposted <;> rfl
      · exact .inl (fetching_of_stack (hposted.stack p) hi)
    | wake =>
      refine hkeep rfl rfl (.inl rfl) (fun i hi => hi.imp_right .inl) fun p i hi => ?_
      exact .inl (fetching_update hi rfl (fetching_of_stack rfl))
    | swept =>
      exact h.congr rfl rfl (fun i frame => holds_notify.mp) (fun p i hi => hi) (by simp)
        (fun p i hi => .inl hi)
    | keepPage hpage =>
      exact h.congr rfl rfl (fun i frame => (holds_keepPage hpage).mpr) (fun p i hi => hi)
        (by simp) (fun p i hi => .inl hi)
    | @freePage _ p i =>
      refine h.freedPage (hd.not_alive (.inr ⟨i, rfl⟩)) ?_ ?_ ?_
      all_goals dsimp only
    | termed =>
      exact h.congr rfl rfl (fun i frame => holds_termed.mpr) (fun p i hi => hi)
        (by simp) (fun p i hi => .inl hi)
    | release =>
      refine h.congr rfl rfl (fun i frame hh => ?_) (fun p i hi => by rwa [hpages]) (by simp)
        (fun p i hi => .inl (fetching_update hi rfl (fetching_of_stack rfl)))
      exact (holds_congr hpages hk.alive (.inl rfl) _ i frame).mpr (holds_termed.mpr hh)
    | reap =>
      exact hkeep rfl rfl (.inl rfl) (by simp) fun p i hi =>
        .inl (fetching_update hi rfl (fetching_of_stack rfl))
    | @switch _ next rest => exact h.switched next rest hpages
    | enter hstack hstate hcall =>
      refine hkeep rfl rfl (.inl rfl) (by simp) fun p i hi =>
        .inl (fetching_update hi rfl fun hi => ?_)
      obtain ⟨nest, m, size, server, fault, hs, -⟩ := hi
      obtain rfl | rfl := hcall <;> cases hs
    | @nest _ stack n hstack =>
      refine hkeep rfl rfl (.inl rfl) (by simp) fun p i hi =>
        .inl (fetching_update hi rfl fun hi => ?_)
      obtain ⟨nest, m, size, server, fault, hs, hpage⟩ := hi
      obtain ⟨k, call⟩ := stack
      cases hs
      exact ⟨k, m, size, server, fault, hstack, hpage⟩
    | leave =>
      exact hkeep rfl rfl (.inl rfl) (by simp) fun p i hi =>
        .inl (fetching_update hi rfl fun hi => absurd rfl hi.stack)
    | @resume _ m size purpose hstack =>
      refine hkeep rfl rfl (.inr ⟨Phase.neutral_idle, purpose.neutral_phase⟩) (fun i hi => ?_)
        fun p i hi => .inl (fetching_update hi rfl fun hi => absurd rfl hi.stack)
      cases purpose with
      | recv => obtain hi | hi := hi <;> cases hi
      | rpc => obtain hi | hi := hi <;> cases hi
      | frame server fault =>
        obtain hi | hi := hi
        · cases hi
          exact .inr (.inr ⟨0, m, size, server, fault, hstack, rfl⟩)
        · cases hi
    | take =>
      exact hkeep rfl rfl (.inl rfl) (by simp) fun p i hi =>
        .inl (fetching_update hi rfl (fetching_of_stack rfl))
    | @call _ t q contents server size purpose hstack hstate hposted hpid hself hempty hserver =>
      refine hkeep ?_ hposted.current (.inr ⟨purpose.neutral_phase, Phase.neutral_idle⟩)
        (by simp)
        fun p i hi => ?_
      · change t.mmu = s.mmu
        cases hposted <;> rfl
      · rw [t.called_procs server size purpose] at hi
        by_cases hp : p = t.current
        · rw [hp, Function.update_self] at hi
          obtain ⟨nest, m, size', server', fault, hs, rfl⟩ := hi
          cases hs
          exact .inr ⟨hp.trans hposted.current, .inl rfl⟩
        · rw [Function.update_of_ne hp] at hi
          exact .inl (fetching_of_stack (hposted.stack p) hi)
    | block =>
      refine hkeep rfl rfl (.inl rfl) (by simp) fun p i hi =>
        .inl (fetching_update hi rfl fun hi => ?_)
      obtain ⟨nest, m, size, server, fault, hs, -⟩ := hi
      cases hs
    | exec =>
      exact hkeep rfl rfl (.inl rfl) (by simp) fun p i hi =>
        .inl (fetching_update hi rfl (fetching_of_stack rfl))
    | fill hstack hstate hpage => exact h.filled ho hstate hpage _
    | map hstack hstate hlow htop hpage hindex =>
      exact h.mapped ho hstack hstate hlow htop hpage hindex
    | poke hstack hstate hpermit => exact h.poked hpermit
    | sync =>
      refine h.settled h.coherent.sync (fun _ i _ hh hun => ⟨hh.same rfl (.inl rfl), hun⟩)
        (by simp)
        h.fetching
    | advance => exact hkeep rfl rfl (.inl rfl) (fun i hi => hi.imp_right .inl) fun p i hi => .inl hi
    | shutdown | peek => exact hkeep rfl rfl (.inl rfl) (by simp) fun p i hi => .inl hi
  · exact h.frameTaken hstate hlt hpage

/-- The invariant of the memory. -/
structure Memory (f : Phase) (s : Kernel) : Prop where
  dying : Dying f s
  owned : Owned f s
  mapped : Mapped f s

theorem Move.memory {w : Promise} {f f' : Phase} {s s' : Kernel} (hw : w.bareCreator)
    (hc : Consistent s) (hm : Move w f s f' s') (h : Memory f s) : Memory f' s' where
  dying := hm.dying h.dying
  owned := hm.owned hc h.dying h.owned
  mapped := hm.mapped hw h.dying h.owned h.mapped

theorem memory_procInitialize (frames : Nat → Page) : Memory .idle (procInitialize frames) := by
  have hpages (p : Slot) (i : Nat) : ((procInitialize frames).procs p).pages i = none := by
    obtain ⟨pid, owner, state, hp⟩ := procInitialize_fresh frames p
    rw [hp]
    rfl
  have hholds {p : Slot} {i frame : Nat} : ¬ Holds .idle (procInitialize frames) p i frame := by
    intro h
    have hpage := h.page
    rw [hpages] at hpage
    cases hpage
  have hfree := procInitialize_freeframes frames
  refine ⟨dying_idle _, ?_, ?_⟩
  · constructor
    · rw [hfree]
      exact List.nodup_range
    · intro frame hm
      rw [hfree] at hm
      exact List.mem_range.mp hm
    · exact fun hh => absurd hh hholds
    · exact fun hh => absurd hh hholds
    · exact fun hh => absurd hh hholds
    · intro frame hf
      rw [hfree]
      exact .inl (List.mem_range.mpr hf)
  · refine ⟨Mmu.coherent_initial frames, fun hk => ?_, by simp, fun p i hi => ?_⟩
    · cases hk.2
    · exact absurd (procInitialize_stack frames p) hi.stack

/-- The promise that a process that creates another one has no pages, as the servers of the
kernel have none. -/
def Promise.bare : Promise where
  bareCreator := True
  replyToRpc := False
  requestByRpc := False
  unwrapped := False
  mute := fun _ => False
  shielded := fun _ _ => False
  readOnly := noneReadOnly
  header := fun _ => True

/-- Page `i` of the process is valid and has the frame, and the process is alive. -/
def LivePage (s : Kernel) (p : Slot) (i frame : Nat) : Prop :=
  i < virtPages ∧ (s.procs p).pages i = some frame ∧
    (s.procs p).state ≠ .free ∧ (s.procs p).state ≠ .zombie

/-- Who owns the frames, and what the TLB maps, in one state. -/
structure FrameOwnership (s : Kernel) : Prop where
  /-- a frame is free or the frame of one page of one process, and not both -/
  frame : ∀ frame, frame < physFrames →
    s.freeframes.count frame = 1 ∧ (∀ p i, ¬ LivePage s p i frame) ∨
    frame ∉ s.freeframes ∧ ∃! page : Slot × Nat, LivePage s page.1 page.2 frame
  entry : ∀ k frame, (s.mmu.entries k).phys = some frame →
    ∃ i, i < virtPages ∧ (s.mmu.entries k).virt = absPage i ∧ s.me.pages i = some frame
  distinct : ∀ k l, (s.mmu.entries k).phys ≠ none → (s.mmu.entries l).phys ≠ none →
    (s.mmu.entries k).virt = (s.mmu.entries l).virt → k = l

theorem livePage_iff {s : Kernel} {p : Slot} {i frame : Nat} :
    LivePage s p i frame ↔ Holds .idle s p i frame := by
  rw [holds_neutral Phase.neutral_idle]
  unfold LivePage Process.Alive
  cases hs : (s.procs p).state <;> simp

theorem Memory.frameOwnership {s : Kernel} (h : Memory .idle s) : FrameOwnership s where
  frame frame hf := by
    obtain hm | ⟨p, i, hh⟩ := h.owned.complete frame hf
    · refine .inl ⟨List.count_eq_one_of_mem h.owned.free_nodup hm, fun p i hp => ?_⟩
      exact h.owned.exclusive (livePage_iff.mp hp) hm
    · refine .inr ⟨h.owned.exclusive hh, (p, i), livePage_iff.mpr hh, fun page hp => ?_⟩
      obtain ⟨hp, hi⟩ := h.owned.unique (livePage_iff.mp hp) hh
      exact Prod.ext hp hi
  entry k frame hk := by
    obtain ⟨i, hi, hh, -⟩ := h.mapped.maps ⟨rfl, hk⟩
    exact ⟨i, hh.lt, hi, hh.page⟩
  distinct k l hk hl he := by
    obtain ⟨frame, hk⟩ := Option.ne_none_iff_exists'.mp hk
    obtain ⟨frame', hl⟩ := Option.ne_none_iff_exists'.mp hl
    exact h.mapped.coherent.virt ⟨he, hk⟩ ⟨rfl, hl⟩

theorem Memory.failing {f : Phase} {s : Kernel} (h : Memory f s) {a : Assertion}
    (hf : Failing s a) : a ≠ .faultUnmapped ∧ a ≠ .faultValid := by
  refine ⟨?_, ?_⟩
  · rintro rfl
    obtain ⟨virt, hlow, htop, -, hpage, hentry⟩ := hf
    obtain ⟨k, hk⟩ := Option.ne_none_iff_exists'.mp hentry
    obtain ⟨frame, hmaps⟩ := Mmu.getEntry_some hk
    obtain ⟨i, hi, hh, -⟩ := h.mapped.maps hmaps
    rw [← absPage_relPage hlow] at hi
    have hp := hh.page
    rw [← absPage_inj hi, show (s.procs s.current).pages _ = none from hpage] at hp
    cases hp
  · rintro rfl
    obtain ⟨m, size, server, fault, hstack, hpage⟩ := hf
    exact (h.mapped.fetching s.current (relPage fault.virt)
      ⟨0, m, size, server, fault, hstack, rfl⟩).2 hpage

/-- Along every run each frame has one owner, and the assertions of `proc_pagefault` on the
page table hold. -/
theorem run_frameOwnership (frames : Nat → Page) (actions : List Action)
    (h : Honored .bare actions (procInitialize frames)) :
    Outcome (run actions) (fun _ s => FrameOwnership s)
      (fun e _ => e ≠ .assertion .faultUnmapped ∧ e ≠ .assertion .faultValid)
      (procInitialize frames) := by
  have hrun := outcome_run (I := Memory) (Move.memory trivial) h (atRest_procInitialize frames .bare)
    (memory_procInitialize frames)
  refine hrun.mono (fun _ s hs => hs.2.frameOwnership) ?_
  intro e _ he
  have hne (a : Assertion) (ha : e = .assertion a) : a ≠ .faultUnmapped ∧ a ≠ .faultValid := by
    obtain ⟨f, t, -, hmem, ht⟩ := he a ha
    exact hmem.failing ht
  exact ⟨fun ha => (hne _ ha).1 rfl, fun ha => (hne _ ha).2 rfl⟩

theorem honors_bare {s : Kernel} {a : Action}
    (h : ∀ owner uid, a = .create owner uid → ∀ i, i < virtPages → s.me.pages i = none) :
    Honors .bare s a where
  create owner uid ha _ := h owner uid ha
  ids _ _ _ hw := hw.elim
  recv _ _ _ _ hw := hw
  send _ _ _ _ _ _ := ⟨fun _ hw => hw, fun _ hw => hw⟩
  handleSend _ _ _ _ _ _ := ⟨fun _ hw => hw, fun _ hw => hw⟩
  copy _ _ _ hw := hw
  exec _ _ _ _ := trivial

/-- The first action of `main` may create a process. -/
theorem honored_bare_main (frames : Nat → Page) {a : Action} {rest : List Action}
    (h : ∀ b ∈ rest, ∀ owner uid, b ≠ .create owner uid) :
    Honored .bare (a :: rest) (procInitialize frames) := by
  have hrest (s : Kernel) : Honored .bare rest s := by
    induction rest generalizing s with
    | nil => trivial
    | cons b rest ih =>
      refine ⟨honors_bare fun owner uid hb => ?_, fun s' _ => ?_⟩
      · exact absurd hb (h b List.mem_cons_self owner uid)
      · exact ih (fun c hc => h c (List.mem_cons_of_mem b hc)) s'
  refine ⟨honors_bare fun _ _ _ i _ => ?_, fun s' _ => hrest s'⟩
  rw [procInitialize_me]
  rfl

/-- A process has two pages, one of them by a system call, and comes back to the first one after
`main` has run. -/
def pagingExample : List Action :=
  [.create 1 0, .exec true ⟨0, 0⟩ ⟨0, []⟩, .fault virtBase, .fault virtBase, .store virtBase 7,
    .copyTo (virtBase + pageSize) 8, .yield, .wake 0, .yield, .wake 0, .fault virtBase,
    .load virtBase]

theorem honored_pagingExample (frames : Nat → Page) :
    Honored .bare pagingExample (procInitialize frames) :=
  honored_bare_main frames (by simp)

theorem run_frameOwnership_example :
    FrameOwnership (final (run pagingExample (procInitialize fun _ _ => 0))) ∧
      (final (run pagingExample (procInitialize fun _ _ => 0))).freeframes.length = 1022 := by
  have hhonored := honored_pagingExample fun _ _ => 0
  have hok : returned (run pagingExample (procInitialize fun _ _ => 0)) = some ⟨⟩ := by
    decide +kernel
  refine ⟨?_, by decide +kernel⟩
  generalize pagingExample = actions at hhonored hok ⊢
  exact (run_frameOwnership _ actions hhonored).ok (eq_ok_of_returned hok)

end Egos.Grass
