import Egos.User.Ed
import Mathlib.Data.List.Nodup

/-!
# The lines of the editor

As long as no line is deleted, no number goes beyond the last line and `error` has room for the
messages, the pointers in `lines[]` are those of the texts in memory, `curline` is within bounds, and
`lines[]` is not accessed outside of them.
-/
namespace Egos.Ed

open Egos.Lib Egos.Disk

set_option autoImplicit false

/-- What holds after each command. -/
structure Sound (e : Editor) : Prop where
  curline_nonneg : 0 ≤ e.curline
  curline_le : e.curline ≤ e.nlines
  live : ∃ pointers : List Nat, (pointers.length : Int) = e.nlines ∧
    e.lines.take pointers.length = pointers.map some ∧ pointers.Nodup ∧
    ∀ p, p ∈ pointers ↔ ∃ text, e.heap[p]? = some (some text)
  below : ∀ access ∈ e.accesses, 0 ≤ access.1 ∧ access.1 < access.2

/-- The block that `lines` points to holds these pointers and nothing else. -/
structure Holds (pointers : List Nat) (e : Editor) : Prop where
  lines : e.lines = pointers.map some
  nlines : e.nlines = pointers.length
  nodup : pointers.Nodup
  live : ∀ p, p ∈ pointers ↔ ∃ text, e.heap[p]? = some (some text)
  below : ∀ access ∈ e.accesses, 0 ≤ access.1 ∧ access.1 < access.2

/-- `curline` is within bounds. -/
structure InBounds (e : Editor) : Prop where
  nonneg : 0 ≤ e.curline
  le : e.curline ≤ e.nlines

/-- `lines[]` has only been read. -/
def OnlyRead (e e' : Editor) : Prop := ∃ accesses, e' = { e with accesses := accesses }

theorem OnlyRead.refl (e : Editor) : OnlyRead e e := ⟨e.accesses, rfl⟩

theorem OnlyRead.trans {e e' e'' : Editor} (h : OnlyRead e e') (h' : OnlyRead e' e'') :
    OnlyRead e e'' := by
  obtain ⟨accesses, rfl⟩ := h
  obtain ⟨accesses', rfl⟩ := h'
  exact ⟨accesses', rfl⟩

section

variable {pointers : List Nat} {e : Editor}

theorem Holds.sound (h : Holds pointers e) (hb : InBounds e) : Sound e := by
  constructor
  · exact hb.nonneg
  · exact hb.le
  · refine ⟨pointers, h.nlines.symm, ?_, h.nodup, h.live⟩
    have hlength : pointers.length = (pointers.map (some : Nat → Option Nat)).length :=
      (List.length_map _).symm
    rw [h.lines, hlength, List.take_length]
  · exact h.below

theorem Holds.congr {e' : Editor} (h : Holds pointers e) (hlines : e'.lines = e.lines)
    (hnlines : e'.nlines = e.nlines) (hheap : e'.heap = e.heap)
    (haccesses : e'.accesses = e.accesses) : Holds pointers e' := by
  constructor
  · rw [hlines, h.lines]
  · rw [hnlines, h.nlines]
  · exact h.nodup
  · rw [hheap]
    exact h.live
  · rw [haccesses]
    exact h.below

/-! ## Accesses -/

theorem outcome_touch {i : Int} {Q : Unit → Editor → Prop} {E : Stop → Editor → Prop}
    (h0 : 0 ≤ i) (hi : i < e.lines.length)
    (hq : Q () { e with accesses := e.accesses ++ [(i, e.nlines)] }) : Outcome (touch i) Q E e := by
  rw [touch, Outcome.bind_iff, Outcome.modify_iff, Outcome.bind_iff, Outcome.get_iff, if_neg]
  · exact hq
  · dsimp only
    omega

theorem Holds.length_lines (h : Holds pointers e) : (e.lines.length : Int) = e.nlines := by
  rw [h.lines, List.length_map, h.nlines]

theorem Holds.accessed {more : List (Int × Int)} (h : Holds pointers e)
    (hmore : ∀ access ∈ more, 0 ≤ access.1 ∧ access.1 < access.2) :
    Holds pointers { e with accesses := e.accesses ++ more } := by
  constructor
  · exact h.lines
  · exact h.nlines
  · exact h.nodup
  · exact h.live
  · intro access haccess
    rcases List.mem_append.mp haccess with hold | hnew
    · exact h.below access hold
    · exact hmore access hnew

theorem outcome_memmove {dst src n : Int} {Q : Unit → Editor → Prop} {E : Stop → Editor → Prop}
    (hn : 0 ≤ n) (hsrc : 0 ≤ src) (hdst : 0 ≤ dst) (hsrc' : src + n ≤ e.lines.length)
    (hdst' : dst + n ≤ e.lines.length)
    (hq : Q () { e with
      accesses := e.accesses ++ touchedFrom src n e.nlines ++ touchedFrom dst n e.nlines
      lines := e.lines.take dst.toNat ++ (e.lines.drop src.toNat).take n.toNat ++
        e.lines.drop (dst + n).toNat }) :
    Outcome (memmove dst src n) Q E e := by
  rw [memmove, Outcome.bind_iff, Outcome.modify_iff, Outcome.bind_iff, Outcome.get_iff, if_neg]
  · exact hq
  · dsimp only
    omega

theorem outcome_realloc {n : Int} {Q : Unit → Editor → Prop} {E : Stop → Editor → Prop}
    (hn : 0 ≤ n) (hq : Q () { e with
      lines := e.lines.take n.toNat ++ List.replicate (n.toNat - e.lines.length) none }) :
    Outcome (realloc n) Q E e := by
  rw [realloc, if_neg (Int.not_lt.mpr hn)]
  exact hq

theorem mem_touchedFrom {start n nlines : Int} {access : Int × Int} (h0 : 0 ≤ start)
    (hn : start + n ≤ nlines) (h : access ∈ touchedFrom start n nlines) :
    0 ≤ access.1 ∧ access.1 < access.2 := by
  obtain ⟨i, hi, rfl⟩ := List.mem_map.mp h
  rw [List.mem_range] at hi
  constructor
  · dsimp only
    omega
  · dsimp only
    omega

theorem inserted_lines {α : Type} (a b : List α) (x y : α) :
    ((a ++ b ++ [x]).take (a.length + 1) ++ ((a ++ b ++ [x]).drop a.length).take b.length ++
      (a ++ b ++ [x]).drop (a.length + b.length + 1)).set a.length y = a ++ y :: b := by
  obtain ⟨z, hz⟩ : ∃ z, (b ++ [x]).take 1 = [z] := by
    cases b with
    | nil => exact ⟨x, rfl⟩
    | cons c b => exact ⟨c, rfl⟩
  have htake : (a ++ b ++ [x]).take (a.length + 1) = a ++ [z] := by
    rw [List.append_assoc, List.take_length_add_append, hz]
  have hdrop : ((a ++ b ++ [x]).drop a.length).take b.length = b := by
    rw [List.append_assoc, List.drop_left, List.take_left]
  have hrest : (a ++ b ++ [x]).drop (a.length + b.length + 1) = [] := by
    apply List.drop_eq_nil_of_le
    simp only [List.length_append, List.length_singleton]
    exact Nat.le_refl _
  rw [htake, hdrop, hrest, List.append_nil, List.append_assoc,
    List.set_append_right _ _ (Nat.le_refl _), Nat.sub_self]
  rfl

theorem realloc_lines {α : Type} (l : List α) (x : α) :
    l.take (l.length + 1) ++ List.replicate (l.length + 1 - l.length) x = l ++ [x] := by
  rw [List.take_of_length_le (Nat.le_succ _), Nat.add_sub_cancel_left]
  rfl

theorem Holds.not_mem_fresh (h : Holds pointers e) : e.heap.length ∉ pointers := by
  intro hmem
  obtain ⟨text, htext⟩ := (h.live _).mp hmem
  rw [List.getElem?_eq_none (Nat.le_refl _)] at htext
  cases htext

theorem Holds.live_fresh {text : Text} (h : Holds pointers e) (p : Nat) :
    p = e.heap.length ∨ p ∈ pointers ↔ ∃ text', (e.heap ++ [some text])[p]? = some (some text') := by
  rcases Nat.lt_trichotomy p e.heap.length with hlt | heq | hgt
  · rw [List.getElem?_append_left hlt, h.live]
    constructor
    · rintro (heq | hlive)
      · omega
      · exact hlive
    · exact .inr
  · subst heq
    rw [List.getElem?_append_right (Nat.le_refl _), Nat.sub_self]
    exact ⟨fun _ => ⟨text, rfl⟩, fun _ => .inl rfl⟩
  · rw [List.getElem?_eq_none (by rw [List.length_append, List.length_singleton]; omega), h.live,
      List.getElem?_eq_none (by omega)]
    constructor
    · rintro (heq | ⟨text', htext'⟩)
      · omega
      · cases htext'
    · rintro ⟨text', htext'⟩
      cases htext'

theorem outcome_insert {text : Text} {before after : List Nat} (h : Holds (before ++ after) e)
    (hcurline : e.curline = before.length) :
    Outcome (insert text) (fun _ e' => e'.curline = e.curline ∧ e'.nlines = e.nlines + 1 ∧
      Holds (before ++ e.heap.length :: after) e') (fun _ _ => False) e := by
  have hnlines : e.nlines = before.length + after.length := by
    rw [h.nlines, List.length_append]
    exact Int.natCast_add _ _
  have hlines : e.lines = before.map some ++ after.map some := by
    rw [h.lines, List.map_append]
  have hlength := h.length_lines
  have hblock : e.lines.take (e.nlines + 1).toNat ++
      List.replicate ((e.nlines + 1).toNat - e.lines.length) none = e.lines ++ [none] := by
    rw [← hlength]
    exact realloc_lines e.lines none
  rw [insert, Outcome.bind_iff, Outcome.get_iff, Outcome.bind_iff, Outcome.modify_iff,
    Outcome.bind_iff, Outcome.get_iff, Outcome.bind_iff]
  apply outcome_realloc
  · dsimp only
    omega
  dsimp only
  rw [hblock, Outcome.bind_iff, Outcome.modify_iff, Outcome.bind_iff, Outcome.get_iff,
    Outcome.bind_iff]
  dsimp only
  have hcount : (e.lines ++ [none]).length = before.length + after.length + 1 := by
    rw [hlines]
    simp only [List.length_append, List.length_map, List.length_singleton]
  apply outcome_memmove
  · omega
  · omega
  · omega
  · dsimp only
    omega
  · dsimp only
    omega
  have hmoved : (e.nlines + 1 - e.curline - 1).toNat = after.length := by omega
  have hsrc : e.curline.toNat = before.length := by omega
  have hdst : (e.curline + 1).toNat = before.length + 1 := by omega
  have hend : (e.curline + 1 + (e.nlines + 1 - e.curline - 1)).toNat =
      before.length + after.length + 1 := by
    omega
  dsimp only
  rw [hdst, hmoved, hend, Outcome.bind_iff]
  have hset : ((e.lines ++ [none]).take (before.length + 1) ++
      ((e.lines ++ [none]).drop before.length).take after.length ++
      (e.lines ++ [none]).drop (before.length + after.length + 1)).set before.length
        (some e.heap.length) = (before ++ e.heap.length :: after).map some := by
    have hinserted := inserted_lines (before.map some) (after.map some) none (some e.heap.length)
    rw [List.length_map, List.length_map, ← hlines] at hinserted
    rw [hinserted, List.map_append, List.map_cons]
  apply outcome_touch
  · exact hcurline ▸ Int.natCast_nonneg _
  · have hsize := congrArg List.length hset
    have hnew : (before ++ e.heap.length :: after).length = before.length + (after.length + 1) := by
      rw [List.length_append, List.length_cons]
    rw [List.length_set, List.length_map, hnew] at hsize
    dsimp only
    rw [hsrc, hsize]
    omega
  rw [Outcome.modify_iff]
  dsimp only
  refine ⟨rfl, rfl, ?_, ?_, ?_, ?_, ?_⟩
  · dsimp only
    rw [hsrc, hset]
  · dsimp only
    rw [List.length_append, List.length_cons]
    omega
  · rw [List.nodup_middle, List.nodup_cons]
    exact ⟨fun hmem => h.not_mem_fresh hmem, h.nodup⟩
  · intro p
    rw [List.mem_append, List.mem_cons, or_left_comm, ← List.mem_append]
    exact h.live_fresh p
  · intro access haccess
    simp only [List.mem_append, List.mem_singleton] at haccess
    rcases haccess with ((hold | hread) | hwritten) | rfl
    · exact h.below access hold
    · exact mem_touchedFrom (by omega) (by omega) hread
    · exact mem_touchedFrom (by omega) (by omega) hwritten
    · dsimp only
      omega

theorem outcome_readLines {input : List Text} (h : Holds pointers e) (hb : InBounds e) :
    Outcome (readLines input) (fun _ e' => ∃ pointers', Holds pointers' e' ∧ InBounds e')
      (fun _ _ => False) e := by
  refine Outcome.forM (fun _ e' => ∃ pointers', Holds pointers' e' ∧ InBounds e')
    ⟨pointers, h, hb⟩ ?_
  rintro - line - - e' ⟨pointers', h', hb'⟩
  have hnonneg := hb'.nonneg
  have hle := hb'.le
  have hnlines := h'.nlines
  have hsplit := List.take_append_drop e'.curline.toNat pointers'
  rw [← hsplit] at h'
  have hlength : e'.curline = (pointers'.take e'.curline.toNat).length := by
    rw [List.length_take]
    omega
  rw [Outcome.bind_iff]
  apply (outcome_insert h' hlength).post
  rintro - e'' ⟨hcurline, hmore, h''⟩
  rw [Outcome.modify_iff]
  refine ⟨_, h''.congr rfl rfl rfl rfl, ?_, ?_⟩
  · dsimp only
    omega
  · dsimp only
    omega

/-- What is known about a position that has been found: it is that of a line or behind them. -/
def Found (pointers : List Nat) (e : Editor) (r : Text × Option Int) (e' : Editor) : Prop :=
  Holds pointers e' ∧ e'.curline = e.curline ∧ ∀ pos, r.2 = some pos → 0 ≤ pos ∧ pos ≤ e.nlines

/-- A number at the beginning of the line is that of a line, of the end, or 0; as `nlines` is an
`int`, there are no more than `2 ^ 31` of these. -/
def NumberFits (line : Text) (nlines : Int) : Prop :=
  (skipBlanks line).head?.any isdigit = true →
    0 ≤ (strtol (skipBlanks line)).1 ∧ (strtol (skipBlanks line)).1 ≤ min (nlines + 1) (2 ^ 31)

theorem NumberFits.position {line : Text} {nlines : Int} (h : NumberFits line nlines)
    (hnonneg : 0 ≤ nlines) (hdigit : (skipBlanks line).head?.any isdigit = true) :
    0 ≤ (if (strtol (skipBlanks line)).1 = 0 then 0 else wrap ((strtol (skipBlanks line)).1 - 1)) ∧
      (if (strtol (skipBlanks line)).1 = 0 then 0 else wrap ((strtol (skipBlanks line)).1 - 1)) ≤
        nlines := by
  obtain ⟨h0, hle⟩ := h hdigit
  generalize (strtol (skipBlanks line)).1 = r at h0 hle
  split
  · omega
  · have hwrap : wrap (r - 1) = r - 1 := by
      apply Int.bmod_eq_of_le
      · omega
      · omega
    omega

/-- The first number of the line is in bounds, the messages about its patterns fit `error`, and it is
no command to delete lines. -/
def Careful (c : Command) (e : Editor) : Prop :=
  match c.line with
  | none => True
  | some line => NumberFits line e.nlines ∧
    match parse line c.start c.end_ e with
    | .ok p _ => p.cmd ≠ chr 'd' ∧ p.cmd ≠ chr 'c'
    | .error _ _ => False

end

/-! ## Sessions -/

/-- All commands of a session are careful, up to one that ends it. -/
def AllCareful : List Command → Editor → Prop
  | [], _ => True
  | c :: commands, e =>
    Careful c e ∧
      match command c e with
      | .ok true e' => AllCareful commands e'
      | _ => True

theorem AllCareful.take {commands : List Command} : ∀ {e : Editor} (n : Nat),
    AllCareful commands e → AllCareful (commands.take n) e := by
  induction commands with
  | nil =>
    intro e n h
    rw [List.take_nil]
    exact h
  | cons c commands ih =>
    intro e n h
    cases n with
    | zero => trivial
    | succ n =>
      rw [List.take_succ_cons]
      refine ⟨h.1, ?_⟩
      have hrest := h.2
      split
      · rename_i e' hrun
        rw [hrun] at hrest
        exact ih n hrest
      · trivial

theorem outcome_load {file : Option (List Text)} : Outcome (load file)
    (fun _ e => ∃ pointers, Holds pointers e ∧ InBounds e) (fun _ _ => False) started := by
  have h : Holds [] started := by
    refine ⟨rfl, rfl, List.nodup_nil, ?_, fun access haccess => absurd haccess List.not_mem_nil⟩
    intro p
    constructor
    · exact fun hp => absurd hp List.not_mem_nil
    · rintro ⟨text, htext⟩
      cases htext
  have hb : InBounds started := ⟨Int.le_refl 0, Int.le_refl 0⟩
  cases file with
  | none => exact ⟨[], h.congr rfl rfl rfl rfl, hb.nonneg, hb.le⟩
  | some lines => exact outcome_readLines h hb

instance decidableNumberFits (line : Text) (nlines : Int) : Decidable (NumberFits line nlines) :=
  inferInstanceAs (Decidable (_ → _))

instance decidableCareful (c : Command) (e : Editor) : Decidable (Careful c e) :=
  match hline : c.line with
  | none => .isTrue (by rw [Careful, hline]; trivial)
  | some line =>
    have : Decidable (match parse line c.start c.end_ e with
        | .ok p _ => p.cmd ≠ chr 'd' ∧ p.cmd ≠ chr 'c'
        | .error _ _ => False) :=
      match parse line c.start c.end_ e with
      | .ok _ _ => inferInstanceAs (Decidable (_ ∧ _))
      | .error _ _ => .isFalse id
    decidable_of_iff (NumberFits line e.nlines ∧ match parse line c.start c.end_ e with
        | .ok p _ => p.cmd ≠ chr 'd' ∧ p.cmd ≠ chr 'c'
        | .error _ _ => False) (by rw [Careful, hline])

instance decidableAllCareful :
    (commands : List Command) → (e : Editor) → Decidable (AllCareful commands e)
  | [], _ => .isTrue trivial
  | c :: commands, e =>
    have : Decidable (match command c e with
        | .ok true e' => AllCareful commands e'
        | _ => True) :=
      match command c e with
      | .ok true e' => decidableAllCareful commands e'
      | .ok false _ => .isTrue trivial
      | .error _ _ => .isTrue trivial
    inferInstanceAs (Decidable (_ ∧ _))

/-! ## Sessions with three lines -/

def typed (line : String) (input : List String) : Command where
  line := some (ascii line)
  input := input.map ascii
  start := 7
  end_ := -7
  writable := true

def edits : List Command :=
  [typed "\n" [], typed "/b/i\n" ["x\n"], typed "2,$p\n" [], typed "$a\n" ["y\n", "z\n"],
    typed "-\n" [], typed "/q/p\n" [], typed "w\n" [], typed "q\n" []]

end Egos.Ed
