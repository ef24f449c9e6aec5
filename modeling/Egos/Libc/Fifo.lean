import Egos.Libc.Queue

/-!
# Queues as lists

Of any number of queues with their elements in one heap, each one is a list of items, and nothing
leaks.
-/
namespace Egos.Libc.Queues

open Egos.Disk (Stop)
open Egos.Lib

set_option autoImplicit false

/-! ## What the queues are for -/

/-- The items of each queue, from the first one on; there are none before `queue_init`. -/
abbrev Items (w : Nat) := Nat → Option (List (BitVec w))

namespace Items

variable {w : Nat}

/-- The list of a queue. To use a queue before it is initialized is undefined. -/
def list (i : Nat) : EStateM Stop (Items w) (List (BitVec w)) := do
  match (← get) i with
  | none => throw .undefined
  | some l => return l

def setList (i : Nat) (l : List (BitVec w)) : EStateM Stop (Items w) Unit :=
  modify fun items => Function.update items i (some l)

/-- The first item, which leaves the queue. -/
def pop (i : Nat) : EStateM Stop (Items w) (Option (BitVec w)) := do
  match ← list i with
  | [] => return none
  | x :: l =>
    setList i l
    return some x

def call : Call w → EStateM Stop (Items w) (Answer w)
  | .init i => do
    match (← get) i with
    | none | some [] => setList i []
    -- the elements would be lost
    | some _ => throw .undefined
    return .done
  | .insert i item => do
    setList i (item :: (← list i))
    return .done
  | .add i item => do
    setList i ((← list i) ++ [item])
    return .done
  | .addUint i item => do
    setList i ((← list i) ++ [item.setWidth w])
    return .done
  | .get i => return .item ((← pop i).getD 0)
  | .tget i => return .option (← pop i)
  | .getUint i => return .uint ((← pop i).map fun x => x.setWidth 32)
  | .empty i => return .truth (← list i).isEmpty
  | .size i => return .number (BitVec.ofNat 32 (← list i).length)
  | .release i => do
    if (← list i).isEmpty then return .done else throw .assert

end Items

/-! ## Representation -/

section

variable {w : Nat}

abbrev Cells (w : Nat) := List (Nat × Element w)

/-- Where the next element is linked. -/
def lastOf (l : Cells w) : Link :=
  match l.getLast? with
  | none => .first
  | some e => .next e.1

/-- The queue has these elements. -/
structure Represents (heap : Heap (Element w)) (q : Queue) (l : Cells w) : Prop where
  chain : Chain Element.next heap.cell q.first l none
  last : q.last = lastOf l
  nelts : q.nelts = BitVec.ofNat 32 l.length

/-- The elements of the queues, all of them different. -/
structure Holds (items : Items w) (m : Memory w) (cells : Nat → Cells w) : Prop where
  represents : ∀ i l, items i = some l → Represents m.heap (m.queue i) (cells i) ∧
    (cells i).map (fun e => e.2.item) = l
  unused : ∀ i, items i = none → cells i = []
  nodup : ∀ i, ((cells i).map Prod.fst).Nodup
  apart : ∀ i j a, a ∈ (cells i).map Prod.fst → a ∈ (cells j).map Prod.fst → i = j
  live : ∀ a, m.heap.cell a ≠ none → ∃ i, a ∈ (cells i).map Prod.fst

def Rel (items : Items w) (m : Memory w) : Prop := ∃ cells, Holds items m cells

variable {items : Items w} {m m' : Memory w} {cells : Nat → Cells w} {i : Nat}
  {l l' : List (BitVec w)}

/-- Another list for the queue `i`, in cells of its own or new ones. -/
theorem Holds.change (h : Holds items m cells) (new : Cells w)
    (hqueue : ∀ j, j ≠ i → m'.queue j = m.queue j)
    (hcell : ∀ a, a ∉ (cells i).map Prod.fst → a ∉ new.map Prod.fst →
      m'.heap.cell a = m.heap.cell a)
    {q : Queue} (hq : m'.queue i = q) (hnew : Represents m'.heap q new)
    (hl : new.map (fun e => e.2.item) = l')
    (hnodup : (new.map Prod.fst).Nodup)
    (hfresh : ∀ a ∈ new.map Prod.fst, a ∈ (cells i).map Prod.fst ∨ m.heap.cell a = none)
    (hfreed : ∀ a ∈ (cells i).map Prod.fst, a ∈ new.map Prod.fst ∨ m'.heap.cell a = none) :
    Holds (Function.update items i (some l')) m' (Function.update cells i new) := by
  have hother (j : Nat) (hj : j ≠ i) (a : Nat) (ha : a ∈ (cells j).map Prod.fst) :
      a ∉ (cells i).map Prod.fst ∧ a ∉ new.map Prod.fst := by
    have hi : a ∉ (cells i).map Prod.fst := fun hi => hj (h.apart j i a ha hi)
    refine ⟨hi, fun hmem => ?_⟩
    have hnone := (hfresh a hmem).resolve_left hi
    obtain ⟨e, he, rfl⟩ := List.mem_map.mp ha
    cases hitems : items j with
    | none =>
      rw [h.unused j hitems] at he
      cases he
    | some l =>
      rw [(h.represents j l hitems).1.chain.cell_eq he] at hnone
      cases hnone
  constructor
  · intro j lj hj
    by_cases hji : j = i
    · subst hji
      rw [Function.update_self] at hj ⊢
      exact ⟨hq ▸ hnew, hl.trans (Option.some.inj hj)⟩
    · rw [Function.update_of_ne hji] at hj ⊢
      obtain ⟨hrep, hmap⟩ := h.represents j lj hj
      refine ⟨⟨?_, ?_, ?_⟩, hmap⟩
      · rw [hqueue j hji]
        refine hrep.chain.congr fun e he => ?_
        obtain ⟨hi, hmem⟩ := hother j hji e.1 (List.mem_map_of_mem he)
        exact hcell e.1 hi hmem
      · rw [hqueue j hji]
        exact hrep.last
      · rw [hqueue j hji]
        exact hrep.nelts
  · intro j hj
    by_cases hji : j = i
    · subst hji
      rw [Function.update_self] at hj
      cases hj
    · rw [Function.update_of_ne hji] at hj ⊢
      exact h.unused j hj
  · intro j
    by_cases hji : j = i
    · subst hji
      rwa [Function.update_self]
    · rw [Function.update_of_ne hji]
      exact h.nodup j
  · intro j k a hj hk
    by_cases hji : j = i <;> by_cases hki : k = i
    · rw [hji, hki]
    · subst hji
      rw [Function.update_self] at hj
      rw [Function.update_of_ne hki] at hk
      exact absurd hj (hother k hki a hk).2
    · subst hki
      rw [Function.update_self] at hk
      rw [Function.update_of_ne hji] at hj
      exact absurd hk (hother j hji a hj).2
    · rw [Function.update_of_ne hji] at hj
      rw [Function.update_of_ne hki] at hk
      exact h.apart j k a hj hk
  · intro a ha
    by_cases hmem : a ∈ new.map Prod.fst
    · exact ⟨i, by rwa [Function.update_self]⟩
    by_cases hi : a ∈ (cells i).map Prod.fst
    · exact absurd ((hfreed a hi).resolve_left hmem) ha
    · rw [hcell a hi hmem] at ha
      obtain ⟨j, hj⟩ := h.live a ha
      have hji : j ≠ i := fun hji => hi (hji ▸ hj)
      exact ⟨j, by rwa [Function.update_of_ne hji]⟩

/-! ## Operations -/

variable {alloc : Allocator w} {Q : Unit → Memory w → Prop} {E : Stop → Memory w → Prop} {e : Nat}

theorem outcome_queue {Q : Queue → Memory w → Prop} (h : Q (m.queue i) m) :
    Outcome (queue i) Q E m := h

theorem outcome_setQueue {f : Queue → Queue}
    (h : Q () { m with queue := Function.update m.queue i (f (m.queue i)) }) :
    Outcome (setQueue i f) Q E m := h

theorem outcome_element {Q : Element w → Memory w → Prop} {x : Element w}
    (hx : m.heap.cell e = some x) (h : Q x m) : Outcome (element e) Q E m := by
  unfold element
  simp only [Outcome.bind_iff, Outcome.get_iff, hx]
  exact h

theorem outcome_setElement {x y : Element w} (hx : m.heap.cell e = some x)
    (h : Q () { m with heap := m.heap.update e (some y) }) : Outcome (setElement e y) Q E m := by
  unfold setElement
  rw [Outcome.bind_iff]
  exact outcome_element hx h

theorem outcome_free {x : Element w} (hx : m.heap.cell e = some x)
    (h : Q () { m with heap := m.heap.update e none }) : Outcome (free e) Q E m := by
  unfold free
  rw [Outcome.bind_iff]
  exact outcome_element hx h

theorem outcome_newElement {Q : Nat → Memory w → Prop}
    (h : ∀ e, m.heap.cell e = none → Q e { m with heap := m.heap.update e (some ⟨none, 0⟩) }) :
    Outcome (newElement alloc) Q E m := h _ (alloc.fresh m.heap)

theorem Holds.fresh (h : Holds items m cells) (he : m.heap.cell e = none) (hi : items i = some l) :
    e ∉ (cells i).map Prod.fst := by
  intro hmem
  obtain ⟨d, hd, rfl⟩ := List.mem_map.mp hmem
  rw [(h.represents i l hi).1.chain.cell_eq hd] at he
  cases he

theorem lastOf_cons {l : Cells w} {d : Nat × Element w} (h : l ≠ []) :
    lastOf (d :: l) = lastOf l := by
  cases l with
  | nil => exact absurd rfl h
  | cons b l => rfl

theorem outcome_queueInsert (h : Holds items m cells) (hi : items i = some l) (item : BitVec w) :
    Outcome (queueInsert alloc i item)
      (fun _ m' => Rel (Function.update items i (some (item :: l))) m') E m := by
  obtain ⟨hrep, hmap⟩ := h.represents i l hi
  unfold queueInsert
  rw [Outcome.bind_iff]
  refine outcome_newElement fun e he => ?_
  have hout := h.fresh he hi
  have hrest (heap : Heap (Element w)) (q : Queue)
      (hheap : ∀ a, a ≠ e → heap.cell a = m.heap.cell a) (hcell : heap.cell e = some ⟨none, item⟩)
      (hfirst : q.first = (m.queue i).first) (hnelts : q.nelts = (m.queue i).nelts)
      (hlast : q.last = lastOf ((e, ⟨(m.queue i).first, item⟩) :: cells i)) :
      Outcome (do
        setElement e { next := (← queue i).first, item := item }
        setQueue i fun q => { q with first := some e }
        setQueue i fun q => { q with nelts := q.nelts + 1 })
        (fun _ m' => Rel (Function.update items i (some (item :: l))) m') E
        { heap := heap, queue := Function.update m.queue i q } := by
    simp only [Outcome.bind_iff]
    refine outcome_queue (outcome_setElement hcell (outcome_setQueue (outcome_setQueue ?_)))
    simp only [Function.update_self, Function.update_idem]
    have hframe (a : Nat) (ha : a ≠ e) :
        (heap.update e (some ⟨q.first, item⟩)).cell a = m.heap.cell a := by
      rw [Heap.update_other ha, hheap a ha]
    refine ⟨_, h.change ((e, ⟨(m.queue i).first, item⟩) :: cells i) (fun j hj => ?_)
      (fun a _ ha => hframe a fun hae => ha ?_) (Function.update_self _ _ _)
      ⟨⟨rfl, ?_, ?_⟩, hlast, ?_⟩ ?_ ?_ ?_ ?_⟩
    · exact Function.update_of_ne hj _ _
    · rw [hae]
      exact List.mem_cons_self
    · rw [← hfirst]
      exact Heap.update_same _ _ _
    · refine hrep.chain.congr fun d hd => hframe d.1 fun hde => hout ?_
      rw [← hde]
      exact List.mem_map_of_mem hd
    · rw [List.length_cons, BitVec.ofNat_add, hnelts, hrep.nelts]
      rfl
    · rw [List.map_cons, hmap]
    · exact List.nodup_cons.mpr ⟨hout, h.nodup i⟩
    · intro a ha
      rcases List.mem_cons.mp ha with rfl | ha
      · exact .inr he
      · exact .inl ha
    · exact fun a ha => .inl (List.mem_cons_of_mem _ ha)
  simp only [Outcome.bind_iff]
  refine outcome_setElement (Heap.update_same _ _ _) (outcome_queue ?_)
  have hheap (a : Nat) (ha : a ≠ e) : ((m.heap.update e (some ⟨none, 0⟩)).update e
      (some ⟨none, item⟩)).cell a = m.heap.cell a := by
    rw [Heap.update_other ha, Heap.update_other ha]
  split
  · next hnone =>
    have hnil : cells i = [] := by
      have hchain := hrep.chain
      rw [hnone] at hchain
      exact hchain.eq_nil
    rw [Outcome.bind_iff]
    refine outcome_setQueue (hrest _ _ hheap (Heap.update_same _ _ _) rfl rfl ?_)
    rw [hnil]
    rfl
  · next hsome =>
    have hne : cells i ≠ [] := by
      intro hnil
      have hchain := hrep.chain
      rw [hnil] at hchain
      exact hsome hchain
    have hstay := hrest _ (m.queue i) hheap (Heap.update_same _ _ _) rfl rfl
      (by rw [lastOf_cons hne, hrep.last])
    rwa [Function.update_eq_self] at hstay

theorem outcome_queueAdd (h : Holds items m cells) (hi : items i = some l) (item : BitVec w) :
    Outcome (queueAdd alloc i item)
      (fun _ m' => Rel (Function.update items i (some (l ++ [item]))) m') E m := by
  obtain ⟨hrep, hmap⟩ := h.represents i l hi
  unfold queueAdd
  rw [Outcome.bind_iff]
  refine outcome_newElement fun e he => ?_
  have hout := h.fresh he hi
  simp only [Outcome.bind_iff]
  refine outcome_setElement (Heap.update_same _ _ _) (outcome_queue ?_)
  have hheap (a : Nat) (ha : a ≠ e) : ((m.heap.update e (some ⟨none, 0⟩)).update e
      (some ⟨none, item⟩)).cell a = m.heap.cell a := by
    rw [Heap.update_other ha, Heap.update_other ha]
  have hlength (n : Nat) : BitVec.ofNat 32 n + 1 = BitVec.ofNat 32 (n + 1) := by
    rw [BitVec.ofNat_add]
    rfl
  rcases List.eq_nil_or_concat (cells i) with hnil | ⟨front, ⟨a, x⟩, hcells⟩
  · -- the queue was empty, and `last` pointed to `first`
    have hlast : (m.queue i).last = .first := by rw [hrep.last, hnil]; rfl
    have hl : l = [] := by rw [← hmap, hnil]; rfl
    dsimp only
    rw [hlast]
    simp only [Outcome.bind_iff]
    refine outcome_setQueue (outcome_setQueue (outcome_setQueue ?_))
    simp only [Function.update_self, Function.update_idem]
    refine ⟨_, h.change [(e, ⟨none, item⟩)] (fun j hj => Function.update_of_ne hj _ _)
      (fun b _ hb => hheap b fun hbe => hb ?_) (Function.update_self _ _ _)
      ⟨⟨rfl, Heap.update_same _ _ _, rfl⟩, rfl, ?_⟩ ?_ (List.nodup_singleton _) (fun b hb => ?_)
      fun b hb => ?_⟩
    · rw [hbe]
      exact List.mem_cons_self
    · dsimp only
      rw [hrep.nelts, hlength, hnil]
      rfl
    · rw [hl]
      rfl
    · rw [List.mem_singleton.mp hb]
      exact .inr he
    · rw [hnil] at hb
      cases hb
  · -- `last` pointed to the link of the last element
    rw [List.concat_eq_append] at hcells
    have hlast : (m.queue i).last = .next a := by
      rw [hrep.last, hcells, lastOf, List.getLast?_concat]
    have hax : (a, x) ∈ cells i := by
      rw [hcells]
      exact List.mem_append_right _ List.mem_cons_self
    have hcell : m.heap.cell a = some x := hrep.chain.cell_eq hax
    have hae : a ≠ e := by
      rintro rfl
      rw [hcell] at he
      cases he
    have hchain := hrep.chain
    have hnodup := h.nodup i
    rw [hcells] at hchain hout hnodup
    have hfront : a ∉ front.map Prod.fst := by
      rw [List.map_append] at hnodup
      exact fun hmem => (List.disjoint_of_nodup_append hnodup) hmem List.mem_cons_self
    dsimp only
    rw [hlast]
    simp only [Outcome.bind_iff]
    refine outcome_element ((hheap a hae).trans hcell) (outcome_setElement
      ((hheap a hae).trans hcell) (outcome_setQueue (outcome_setQueue ?_)))
    simp only [Function.update_self, Function.update_idem]
    obtain ⟨new, hnew⟩ :
        ∃ new, new = front ++ [(a, { x with next := some e }), (e, ⟨none, item⟩)] := ⟨_, rfl⟩
    have haddrs : new.map Prod.fst = (front ++ [(a, x)]).map Prod.fst ++ [e] := by
      rw [hnew]
      simp
    have hframe (b : Nat) (hba : b ≠ a) (hbe : b ≠ e) :
        (((m.heap.update e (some ⟨none, 0⟩)).update e (some ⟨none, item⟩)).update a
          (some { x with next := some e })).cell b = m.heap.cell b := by
      rw [Heap.update_other hba, hheap b hbe]
    refine ⟨_, h.change new (fun j hj => Function.update_of_ne hj _ _)
      (fun b _ hb => ?_) (Function.update_self _ _ _) ⟨?_, ?_, ?_⟩ ?_ ?_ (fun b hb => ?_)
      fun b hb => .inl ?_⟩
    · rw [haddrs] at hb
      refine hframe b ?_ ?_
      · rintro rfl
        exact hb (by simp)
      · rintro rfl
        exact hb (by simp)
    · rw [hnew]
      exact hchain.extend hfront hout rfl (Heap.update_same _ _ _)
        ((Heap.update_other hae.symm _).trans (Heap.update_same _ _ _)) hframe
    · rw [hnew, lastOf, List.getLast?_append]
      rfl
    · dsimp only
      rw [hrep.nelts, hlength, hcells, hnew]
      simp
    · rw [← hmap, hcells, hnew]
      simp
    · rw [haddrs]
      exact List.nodup_append.mpr ⟨hnodup, List.nodup_singleton e, fun b hb c hc hbc => by
        rw [List.mem_singleton.mp hc] at hbc
        exact hout (hbc ▸ hb)⟩
    · rw [haddrs, ← hcells] at hb
      rcases List.mem_append.mp hb with hb | hb
      · exact .inl hb
      · rw [List.mem_singleton.mp hb]
        exact .inr he
    · rw [haddrs, ← hcells]
      exact List.mem_append_left _ hb

theorem outcome_queueTget (h : Holds items m cells) (hi : items i = some l) :
    Outcome (queueTget i) (fun r m' => r = l.head? ∧
      Rel (if l = [] then items else Function.update items i (some l.tail)) m') E m := by
  obtain ⟨hrep, hmap⟩ := h.represents i l hi
  have hchain := hrep.chain
  have hnodup := h.nodup i
  unfold queueTget
  rw [Outcome.bind_iff]
  refine outcome_queue ?_
  cases hcells : cells i with
  | nil =>
    rw [hcells] at hchain hmap
    rw [show (m.queue i).first = none from hchain, ← hmap]
    exact ⟨rfl, cells, h⟩
  | cons d rest =>
    obtain ⟨e, x⟩ := d
    rw [hcells] at hchain hmap hnodup
    obtain ⟨hfirst, hx, hrest⟩ := hchain
    have hl : l ≠ [] := by
      rw [← hmap]
      exact List.cons_ne_nil _ _
    have hhead : some x.item = l.head? := by
      rw [← hmap]
      rfl
    have hlast := hrep.last
    rw [hcells] at hlast
    obtain ⟨hout, hnodup⟩ := List.nodup_cons.mp hnodup
    have hfinish (q : Queue) (hq : q.first = x.next) (hlast : q.last = lastOf rest)
        (hnelts : q.nelts = BitVec.ofNat 32 rest.length) :
        Rel (Function.update items i (some l.tail))
          { heap := m.heap.update e none, queue := Function.update m.queue i q } := by
      refine ⟨_, h.change rest (fun j hj => Function.update_of_ne hj _ _)
        (fun a ha _ => Heap.update_other ?_ _) (Function.update_self _ _ _) ⟨?_, hlast, hnelts⟩ ?_
        hnodup (fun a ha => .inl ?_) fun a ha => ?_⟩
      · rintro rfl
        exact ha (by rw [hcells]; exact List.mem_cons_self)
      · rw [hq]
        refine hrest.congr fun d hd => Heap.update_other ?_ _
        intro hde
        exact hout (List.mem_map.mpr ⟨d, hd, hde⟩)
      · rw [← hmap]
        rfl
      · rw [hcells]
        exact List.mem_cons_of_mem _ ha
      · rw [hcells] at ha
        rcases List.mem_cons.mp ha with rfl | ha
        · exact .inr (Heap.update_same _ _ _)
        · exact .inl ha
    have hcount : (m.queue i).nelts - 1 = BitVec.ofNat 32 rest.length := by
      rw [hrep.nelts, hcells, List.length_cons, BitVec.ofNat_add]
      exact BitVec.add_sub_cancel _ _
    rw [hfirst]
    simp only [Outcome.bind_iff]
    refine outcome_element hx (outcome_setQueue ?_)
    split
    · next hnone =>
      have hnil : rest = [] := by
        rw [hnone] at hrest
        exact hrest.eq_nil
      simp only [Outcome.bind_iff]
      refine outcome_setQueue (outcome_free hx (outcome_setQueue ⟨hhead, ?_⟩))
      simp only [Function.update_self, Function.update_idem]
      exact hfinish _ rfl (by rw [hnil]; rfl) hcount
    · next hsome =>
      have hne : rest ≠ [] := by
        intro hnil
        rw [hnil] at hrest
        exact hsome hrest
      simp only [Outcome.bind_iff]
      refine outcome_free hx (outcome_setQueue ⟨hhead, ?_⟩)
      simp only [Function.update_self, Function.update_idem]
      exact hfinish _ rfl (hlast.trans (lastOf_cons hne)) hcount

/-! ## Calls -/

theorem Rel.init (h : Rel items m) (hi : items i = none ∨ items i = some []) :
    Outcome (queueInit i) (fun _ m' => Rel (Function.update items i (some [])) m') E m := by
  obtain ⟨cells, h⟩ := h
  have hnil : cells i = [] := by
    rcases hi with hi | hi
    · exact h.unused i hi
    · exact List.map_eq_nil_iff.mp (h.represents i [] hi).2
  refine outcome_setQueue ⟨_, h.change [] (fun j hj => Function.update_of_ne hj _ _)
    (fun _ _ _ => rfl) (Function.update_self _ _ _) ⟨rfl, rfl, rfl⟩ rfl List.nodup_nil
    (fun a ha => by cases ha) fun a ha => ?_⟩
  rw [hnil] at ha
  cases ha

theorem Holds.first_eq_none (h : Holds items m cells) (hi : items i = some l) :
    (m.queue i).first = none ↔ l = [] := by
  obtain ⟨hrep, hmap⟩ := h.represents i l hi
  have hchain := hrep.chain
  rw [← hmap, List.map_eq_nil_iff]
  constructor
  · intro hnone
    rw [hnone] at hchain
    exact hchain.eq_nil
  · intro hnil
    rw [hnil] at hchain
    exact hchain

theorem Holds.nelts_eq (h : Holds items m cells) (hi : items i = some l) :
    (m.queue i).nelts = BitVec.ofNat 32 l.length := by
  obtain ⟨hrep, hmap⟩ := h.represents i l hi
  rw [hrep.nelts, ← hmap, List.length_map]

/-- What an operation does to the list of a queue is what it does to the queue. -/
theorem Rel.done {f : Program w Unit} {items' : Items w}
    (h : Outcome f (fun _ m' => Rel items' m') (fun _ _ => False) m) :
    ∃ m', (f >>= fun _ => pure (Answer.done (w := w))) m = .ok .done m' ∧ Rel items' m' := by
  obtain ⟨_, m', hrun, hrel⟩ := h.exists_ok
  exact ⟨m', bind_ok hrun _, hrel⟩

theorem Rel.list {α : Type} {f : List (BitVec w) → EStateM Stop (Items w) α}
    {Q : α → Items w → Prop} {E : Stop → Items w → Prop} (hundefined : E .undefined items)
    (h : ∀ l, items i = some l → Outcome (f l) Q E items) :
    Outcome (Items.list i >>= f) Q E items := by
  unfold Items.list
  simp only [Outcome.bind_iff, Outcome.get_iff]
  cases hi : items i with
  | none => exact hundefined
  | some l => exact h l hi

theorem Rel.pop (h : Rel items m) : Outcome (Items.pop i)
    (fun r items' => ∃ m', queueTget i m = .ok r m' ∧ Rel items' m')
    (fun e _ => e = .undefined) items := by
  obtain ⟨cells, h⟩ := h
  refine list rfl fun l hi => ?_
  obtain ⟨r, m', hrun, rfl, hrel⟩ :=
    (outcome_queueTget (E := fun _ _ => False) h hi).exists_ok
  cases l with
  | nil => exact ⟨m', hrun, hrel⟩
  | cons x l => exact ⟨m', hrun, hrel⟩

theorem queueRelease_ok (hfirst : (m.queue i).first = none) (hnelts : (m.queue i).nelts = 0) :
    queueRelease i m = .ok () m := by
  have hqueue : queue i m = .ok (m.queue i) m := rfl
  unfold queueRelease
  rw [bind_ok hqueue, assert, if_pos (decide_eq_true hfirst), pure_bind, bind_ok hqueue, assert,
    if_pos (decide_eq_true hnelts)]
  rfl

theorem queueRelease_stops (hfirst : (m.queue i).first ≠ none) :
    queueRelease i m = .error .assert m := by
  have hqueue : queue i m = .ok (m.queue i) m := rfl
  unfold queueRelease
  rw [bind_ok hqueue, assert, if_neg (by rw [decide_eq_true_iff]; exact hfirst)]
  rfl

theorem call_simulates (alloc : Allocator w) (c : Call w) :
    Simulates Rel .undefined (Items.call c) (call alloc c) := by
  intro items m hrel
  obtain ⟨cells, h⟩ := id hrel
  have hpop {i : Nat} {f : Option (BitVec w) → Answer w}
      (hcall : ∀ r m', queueTget i m = .ok r m' → call alloc c m = .ok (f r) m') :
      Outcome (do return f (← Items.pop i) : EStateM Stop (Items w) (Answer w))
        (fun a items' => ∃ m', call alloc c m = .ok a m' ∧ Rel items' m')
        (fun e items' => e = .undefined ∨ ∃ m', call alloc c m = .error e m' ∧ Rel items' m')
        items := by
    rw [Outcome.bind_iff]
    refine hrel.pop.mono (fun r items' hr => ?_) fun e _ he => .inl he
    obtain ⟨m', hrun, hrel'⟩ := hr
    exact ⟨m', hcall r m' hrun, hrel'⟩
  cases c with
  | init i =>
    unfold Items.call
    simp only [Outcome.bind_iff, Outcome.get_iff]
    split
    · next hi => exact Rel.done (hrel.init (.inl hi))
    · next hi => exact Rel.done (hrel.init (.inr hi))
    · exact .inl rfl
  | insert i item =>
    exact Rel.list (.inl rfl) fun l hi => Rel.done (outcome_queueInsert h hi item)
  | add i item =>
    exact Rel.list (.inl rfl) fun l hi => Rel.done (outcome_queueAdd h hi item)
  | addUint i item =>
    exact Rel.list (.inl rfl) fun l hi => Rel.done (outcome_queueAdd h hi _)
  | get i =>
    refine hpop fun r m' hrun => ?_
    change (queueGet i >>= fun x => pure (Answer.item x)) m = _
    refine bind_ok ((bind_ok hrun _).trans ?_) _
    cases r <;> rfl
  | tget i => exact hpop fun r m' hrun => bind_ok hrun _
  | getUint i =>
    refine hpop fun r m' hrun => ?_
    change (queueGetUint i >>= fun x => pure (Answer.uint x)) m = _
    refine bind_ok ((bind_ok hrun _).trans ?_) _
    cases r <;> rfl
  | empty i =>
    refine Rel.list (.inl rfl) fun l hi => ⟨m, ?_, hrel⟩
    change EStateM.Result.ok (Answer.truth (decide ((m.queue i).first = none))) m = _
    have hempty : l.isEmpty = decide ((m.queue i).first = none) :=
      Bool.eq_iff_iff.mpr (by rw [List.isEmpty_iff, decide_eq_true_iff, h.first_eq_none hi])
    rw [hempty]
  | size i =>
    refine Rel.list (.inl rfl) fun l hi => ⟨m, ?_, hrel⟩
    change EStateM.Result.ok (Answer.number (m.queue i).nelts) m = _
    rw [h.nelts_eq hi]
  | release i =>
    refine Rel.list (.inl rfl) fun l hi => ?_
    by_cases hnil : l = []
    · have hnelts : (m.queue i).nelts = 0 := by
        rw [h.nelts_eq hi, hnil]
        rfl
      rw [if_pos (List.isEmpty_iff.mpr hnil)]
      exact ⟨m, bind_ok (queueRelease_ok ((h.first_eq_none hi).mpr hnil) hnelts) _, hrel⟩
    · rw [if_neg (fun hempty => hnil (List.isEmpty_iff.mp hempty))]
      have hfirst : (m.queue i).first ≠ none := fun hnone => hnil ((h.first_eq_none hi).mp hnone)
      exact .inr ⟨m, bind_error (queueRelease_stops hfirst) _, hrel⟩

/-- All queues, with any contents, and no element in use. -/
def start (queue : Nat → Queue) : Memory w where
  heap := .empty
  queue := queue

theorem start_rel (queue : Nat → Queue) : Rel (fun _ => none) (start (w := w) queue) := by
  refine ⟨fun _ => [], ?_, fun _ _ => rfl, fun _ => List.nodup_nil, ?_, fun a ha => absurd rfl ha⟩
  · exact fun i l hi => by cases hi
  · exact fun _ _ a ha => by cases ha

/-- Whatever addresses are given out, any calls for any number of queues do what they do to lists of
items: they answer the same, stop at the same assertion, and leave no element when there are no
items left, as long as queues are initialized before they are used and not while they have items. -/
theorem queues_are_lists (alloc : Allocator w) (queue : Nat → Queue) (calls : List (Call w)) :
    Outcome (calls.mapM Items.call)
      (fun answers items => ∃ m, calls.mapM (call alloc) (start queue) = .ok answers m ∧
        ((∀ i l, items i = some l → l = []) → ∀ e, m.heap.cell e = none))
      (fun e _ => e = .undefined ∨ ∃ m, calls.mapM (call alloc) (start queue) = .error e m)
      (fun _ => none) := by
  refine ((Simulates.mapM (call_simulates alloc) calls) _ _ (start_rel queue)).mono ?_ ?_
  · intro answers items hrun
    obtain ⟨m, hrun, cells, h⟩ := hrun
    refine ⟨m, hrun, fun hempty e => ?_⟩
    by_contra hlive
    obtain ⟨i, hi⟩ := h.live e hlive
    have hnil : cells i = [] := by
      cases hitems : items i with
      | none => exact h.unused i hitems
      | some l =>
        have hmap := (h.represents i l hitems).2
        rw [hempty i l hitems] at hmap
        exact List.map_eq_nil_iff.mp hmap
    rw [hnil] at hi
    cases hi
  · intro e _ hstop
    exact hstop.imp_right fun hstop => ⟨hstop.choose, hstop.choose_spec.1⟩

end

example :
    returned ([.init 0, .init 1, .add 0 5, .addUint 1 7, .insert 0 6, .add 0 8, .get 0, .getUint 1,
      .tget 1, .size 0, .release 1].mapM (call Heap.firstFit)
        (start (w := 64) fun _ => ⟨some 3, .next 4, 2⟩)) =
    some [.done, .done, .done, .done, .done, .done, .item 6, .uint (some 7), .option none,
      .number 2, .done] := by
  decide +kernel

end Egos.Libc.Queues
