import Egos.Libc.Nodes
import Mathlib.Data.Nat.Find

/-!
# Maps are finite maps

Several maps share one cache of nodes. Whatever hashes coincide, and whichever maps have been
released before, each of them is the finite map that its calls say.
-/
namespace Egos.Libc.Map

open Egos.Disk (Stop)
open Egos.Lib Egos.Lib.Buckets

set_option autoImplicit false

variable {δ ε : Type}

/-- A tree with the entries of its lists. -/
abbrev Shape (δ : Type) := Buckets (BitVec 32) (List (Entry δ))

def addrs (shape : Shape δ) : List Nat := (entries shape).map Entry.addr

/-- The entry of a key. -/
def entry (key : Key) (shape : Shape δ) : Option (Entry δ) := find sdbmHash Entry.key key shape

def Sorted (shape : Shape δ) : Prop := Ordered sdbmHash Entry.key shape

inductive Rep (heap : Nat → Option (BinListNode δ)) : Tree → Shape δ → Prop
  | null : Rep heap .null .null
  | node {left right : Tree} {left' right' : Shape δ} {hash : BitVec 32} {list : Option Nat}
      {es : List (Entry δ)} (hleft : Rep heap left left') (hright : Rep heap right right')
      (hlist : Chain heap list es) : Rep heap (.node left right hash list) (.node left' right' hash es)

section

variable {heap heap' : Nat → Option (BinListNode δ)} {tree : Tree} {shape : Shape δ}
  {left right : Shape δ} {hash : BitVec 32} {es : List (Entry δ)} {a : Nat}

theorem addrs_node : addrs (.node left right hash es) =
    addrs left ++ es.map Entry.addr ++ addrs right := by
  unfold addrs
  rw [entries, List.map_append, List.map_append]

theorem Rep.congr (hr : Rep heap tree shape) (h : ∀ a ∈ addrs shape, heap' a = heap a) :
    Rep heap' tree shape := by
  induction hr with
  | null => exact .null
  | node hleft hright hlist ihleft ihright =>
    rw [addrs_node] at h
    apply Rep.node
    · exact ihleft fun a ha => h a (List.mem_append_left _ (List.mem_append_left _ ha))
    · exact ihright fun a ha => h a (List.mem_append_right _ ha)
    · exact hlist.congr fun e he => h _ (List.mem_append_left _ (List.mem_append_right _
        (List.mem_map_of_mem he)))

theorem Rep.live (hr : Rep heap tree shape) (ha : a ∈ addrs shape) : heap a ≠ none := by
  induction hr with
  | null => cases ha
  | node hleft hright hlist ihleft ihright =>
    rw [addrs_node, List.mem_append, List.mem_append] at ha
    rcases ha with (ha | ha) | ha
    · exact ihleft ha
    · obtain ⟨e, he, rfl⟩ := List.mem_map.mp ha
      exact hlist.live he
    · exact ihright ha

end

/-! ## The operations on one tree -/

section

variable {mem : Memory δ} {tree : Tree} {shape : Shape δ} {fuel : Nat} {cached : List Nat}

theorem mapLookup_ok (hr : Rep mem.heap.node tree shape) (hfuel : (entries shape).length < fuel)
    (key : Key) : mapLookup key fuel tree mem = .ok ((entry key shape).bind Entry.data) mem := by
  induction hr with
  | null => rfl
  | @node _ _ _ _ hash _ es hleft hright hlist ihleft ihright =>
    rw [entries, List.length_append, List.length_append] at hfuel
    unfold mapLookup entry find
    split
    · exact mapListLookup_ok hlist (by omega) key
    · split
      · exact ihright (by omega)
      · exact ihleft (by omega)

theorem mapIter_ok (upcall : ε → Key → Option δ → ε) (hr : Rep mem.heap.node tree shape)
    (hfuel : (entries shape).length < fuel) (env : ε) : mapIter upcall fuel tree env mem =
      .ok ((entries shape).foldl (fun env e => upcall env e.key e.data) env) mem := by
  induction hr generalizing env with
  | null => rfl
  | node hleft hright hlist ihleft ihright =>
    rw [entries, List.length_append, List.length_append] at hfuel
    unfold mapIter
    rw [bind_ok (ihleft (by omega) env), bind_ok (mapListIter_ok upcall hlist (by omega) _),
      ihright (by omega), entries, List.foldl_append, List.foldl_append]

theorem entry_addr_mem (hs : Sorted shape) {key : Key} {e : Entry δ}
    (he : entry key shape = some e) : e.addr ∈ addrs shape :=
  List.mem_map_of_mem ((Ordered.find_iff hs).mp he).1

theorem Grown.rep {mem' : Memory δ} {cached' : List Nat} {found : Option (Entry δ)} {slot : Nat}
    (hg : Grown mem mem' cached cached' found slot) (hr : Rep mem.heap.node tree shape)
    (hapart : ∀ a ∈ addrs shape, a ∉ cached)
    (hfound : ∀ e, found = some e → e.addr ∉ addrs shape) (value : Option δ) :
    Rep ((assigned mem'.heap slot value).node) tree shape := by
  have hslot := hg.not_mem (fun a ha => hr.live ha) hapart hfound
  exact hr.congr fun a ha => hg.assigned_frame (fun has => hslot (has ▸ ha)) value

theorem Grown.chain {mem' : Memory δ} {cached' : List Nat} {found : Option (Entry δ)} {slot : Nat}
    (hg : Grown mem mem' cached cached' found slot) {list : Option Nat} {es : List (Entry δ)}
    (hlist : Chain mem.heap.node list es) (hapart : ∀ a ∈ es.map Entry.addr, a ∉ cached)
    (hfound : ∀ e, found = some e → e.addr ∉ es.map Entry.addr) (value : Option δ) :
    Chain ((assigned mem'.heap slot value).node) list es := by
  have hlive (a : Nat) (ha : a ∈ es.map Entry.addr) : mem.heap.node a ≠ none := by
    obtain ⟨e, he, rfl⟩ := List.mem_map.mp ha
    exact hlist.live he
  have hslot := hg.not_mem hlive hapart hfound
  exact hlist.congr fun e he =>
    hg.assigned_frame (fun has => hslot (has ▸ List.mem_map_of_mem he)) value

/-- The parts of a node whose entries have addresses of their own, none of them cached. -/
structure NodeParts (cached : List Nat) (left right : Shape δ) (es : List (Entry δ)) : Prop where
  nodup : (addrs left).Nodup ∧ (es.map Entry.addr).Nodup ∧ (addrs right).Nodup
  apartList : (addrs left).Disjoint (es.map Entry.addr)
  apartRight : (addrs left ++ es.map Entry.addr).Disjoint (addrs right)
  uncachedLeft : ∀ a ∈ addrs left, a ∉ cached
  uncachedList : ∀ a ∈ es.map Entry.addr, a ∉ cached
  uncachedRight : ∀ a ∈ addrs right, a ∉ cached

theorem NodeParts.of_addrs {left right : Shape δ} {hash : BitVec 32} {es : List (Entry δ)}
    (haddrs : (addrs (.node left right hash es)).Nodup)
    (hapart : ∀ a ∈ addrs (.node left right hash es), a ∉ cached) : NodeParts cached left right es := by
  rw [addrs_node] at haddrs hapart
  obtain ⟨hleftlist, hnright, hdright⟩ := List.nodup_append'.mp haddrs
  obtain ⟨hnleft, hnlist, hdlist⟩ := List.nodup_append'.mp hleftlist
  refine ⟨⟨hnleft, hnlist, hnright⟩, hdlist, hdright, fun a ha => ?_, fun a ha => ?_, fun a ha => ?_⟩
  · exact hapart a (List.mem_append_left _ (List.mem_append_left _ ha))
  · exact hapart a (List.mem_append_left _ (List.mem_append_right _ ha))
  · exact hapart a (List.mem_append_right _ ha)

theorem mapInsert_ok (alloc : Allocator δ) (hr : Rep mem.heap.node tree shape) (hs : Sorted shape)
    (haddrs : (addrs shape).Nodup) (hcached : Cached mem cached)
    (hapart : ∀ a ∈ addrs shape, a ∉ cached) (hfuel : (entries shape).length < fuel) (key : Key) :
    ∃ tree' slot mem' cached', mapInsert alloc key fuel tree mem = .ok (tree', slot) mem' ∧
      Grown mem mem' cached cached' (entry key shape) slot ∧
      ∀ value, Rep ((assigned mem'.heap slot value).node) tree'
        (store sdbmHash Entry.key ⟨slot, key, value⟩ shape) := by
  induction hr with
  | null =>
    have hnil : Chain mem.heap.node none ([] : List (Entry δ)) := rfl
    obtain ⟨list, slot, mem', cached', hrun, hg, hlist⟩ := mapListInsert_ok alloc hnil
      List.nodup_nil List.nodup_nil hcached (fun _ he => absurd he List.not_mem_nil) hfuel key
    refine ⟨.node .null .null (sdbmHash key) list, slot, mem', cached', ?_, hg, fun value => ?_⟩
    · unfold mapInsert
      rw [bind_ok hrun]
      rfl
    · exact Rep.node .null .null (hlist value)
  | @node left right left' right' hash list es hleft hright hlist ihleft ihright =>
    obtain ⟨hsleft, hsright, hkeys, -, -, -⟩ := id hs
    rw [entries, List.length_append, List.length_append] at hfuel
    obtain ⟨⟨hnleft, hnlist, hnright⟩, hdlist, hdright, haleft, halist, haright⟩ :=
      NodeParts.of_addrs haddrs hapart
    unfold mapInsert entry find Buckets.store
    split
    · have hlength : es.length < fuel := by omega
      obtain ⟨list', slot, mem', cached', hrun, hg, hlist'⟩ := mapListInsert_ok alloc hlist hkeys
        hnlist hcached (fun e he => halist _ (List.mem_map_of_mem he)) hlength key
      have hfound (e : Entry δ) (he : es.find? (fun e => e.key = key) = some e) :
          e.addr ∈ es.map Entry.addr := List.mem_map_of_mem (List.mem_of_find?_eq_some he)
      refine ⟨.node left right hash list', slot, mem', cached', ?_, hg, fun value => ?_⟩
      · rw [bind_ok hrun]
        rfl
      · apply Rep.node
        · exact hg.rep hleft haleft (fun e he hl => hdlist hl (hfound e he)) value
        · exact hg.rep hright haright (fun e he =>
            hdright (List.mem_append_right _ (hfound e he))) value
        · exact hlist' value
    · split
      · obtain ⟨right'', slot, mem', cached', hrun, hg, hright'⟩ :=
          ihright hsright hnright haright (by omega)
        have hfound (e : Entry δ) (he : entry key right' = some e) : e.addr ∈ addrs right' :=
          entry_addr_mem hsright he
        refine ⟨.node left right'' hash list, slot, mem', cached', ?_, hg, fun value => ?_⟩
        · rw [bind_ok hrun]
          rfl
        · apply Rep.node
          · exact hg.rep hleft haleft (fun e he hl =>
              hdright (List.mem_append_left _ hl) (hfound e he)) value
          · exact hright' value
          · exact hg.chain hlist halist (fun e he hl =>
              hdright (List.mem_append_right _ hl) (hfound e he)) value
      · obtain ⟨left'', slot, mem', cached', hrun, hg, hleft'⟩ :=
          ihleft hsleft hnleft haleft (by omega)
        have hfound (e : Entry δ) (he : entry key left' = some e) : e.addr ∈ addrs left' :=
          entry_addr_mem hsleft he
        refine ⟨.node left'' right hash list, slot, mem', cached', ?_, hg, fun value => ?_⟩
        · rw [bind_ok hrun]
          rfl
        · apply Rep.node
          · exact hleft' value
          · exact hg.rep hright haright (fun e he =>
              hdright (List.mem_append_left _ (hfound e he))) value
          · exact hg.chain hlist halist (fun e he => hdlist (hfound e he)) value

theorem mapRelease_ok (hr : Rep mem.heap.node tree shape) (haddrs : (addrs shape).Nodup)
    (hcached : Cached mem cached) (hapart : ∀ a ∈ addrs shape, a ∉ cached)
    (hfuel : (entries shape).length < fuel) :
    ∃ mem' cached', mapRelease fuel tree mem = .ok () mem' ∧
      Released mem mem' cached cached' (addrs shape) := by
  induction tree generalizing mem shape cached with
  | null =>
    cases hr
    exact ⟨mem, cached, rfl, Released.refl hcached⟩
  | node left right hash list ihleft ihright =>
    cases hr with
    | @node _ _ left' right' _ _ es hleft hright hlist =>
    rw [entries, List.length_append, List.length_append] at hfuel
    obtain ⟨⟨hnleft, hnlist, hnright⟩, hdlist, hdright, haleft, halist, haright⟩ :=
      NodeParts.of_addrs haddrs hapart
    obtain ⟨mem₁, cached₁, hrun₁, h₁⟩ := ihleft hleft hnleft hcached haleft (by omega)
    -- what is released is apart from what remains
    have hright₁ : Rep mem₁.heap.node right right' := hright.congr fun a ha =>
      h₁.frame a fun hl => hdright (List.mem_append_left _ hl) ha
    obtain ⟨mem₂, cached₂, hrun₂, h₂⟩ := ihright hright₁ hnright h₁.cache (fun a ha hc =>
      (h₁.sub a hc).elim (haright a ha) fun hl => hdright (List.mem_append_left _ hl) ha) (by omega)
    have h₁₂ := h₁.trans h₂
    have hout (e : Entry δ) (he : e ∈ es) : e.addr ∉ addrs left' ++ addrs right' := by
      have hmem : e.addr ∈ es.map Entry.addr := List.mem_map_of_mem he
      rw [List.mem_append, not_or]
      exact ⟨fun hl => hdlist hl hmem, hdright (List.mem_append_right _ hmem)⟩
    have hlength : es.length < fuel := by omega
    have hlist₂ : Chain mem₂.heap.node list es := hlist.congr fun e he => h₁₂.frame _ (hout e he)
    obtain ⟨mem₃, cached₃, hrun₃, h₃⟩ := mapListRelease_ok hlist₂ hnlist h₁₂.cache (fun e he hc =>
      (h₁₂.sub _ hc).elim (halist _ (List.mem_map_of_mem he)) (hout e he)) hlength
    refine ⟨mem₃, cached₃, ?_, (h₁₂.trans h₃).congr fun a => ?_⟩
    · unfold mapRelease
      rw [bind_ok hrun₁, bind_ok hrun₂]
      exact hrun₃
    · rw [addrs_node]
      simp only [List.mem_append]
      exact or_right_comm

end

/-! ## Runs of calls -/

/-- The data of the keys in each map. -/
abbrev Contents (δ : Type) := Nat → Key → Option (Option δ)

def Call.effect (m : Contents δ) : Call δ → Contents δ
  | .insert i key value => Function.update m i (Function.update (m i) key (some value))
  | .release i => Function.update m i fun _ => none
  | .lookup _ _ | .iter _ | .cleanup => m

/-- A lookup returns what is stored under the key, or null. An iteration visits each key once, with
its data. -/
def Call.Meets (m : Contents δ) : Call δ → Answer δ → Prop
  | .lookup i key, .value data => data = (m i key).join
  | .iter i, .visited visited =>
    (visited.map Prod.fst).Nodup ∧ ∀ key data, (key, data) ∈ visited ↔ m i key = some data
  | .insert .., .done | .release _, .done | .cleanup, .done => True
  | _, _ => False

/-- The answers to calls in a row. -/
def Explained : Contents δ → List (Call δ) → List (Answer δ) → Prop
  | _, [], [] => True
  | m, c :: calls, a :: answers => c.Meets m a ∧ Explained (c.effect m) calls answers
  | _, _, _ => False

def contents (shapes : Nat → Shape δ) : Contents δ := fun i key =>
  (entry key (shapes i)).map Entry.data

theorem contents_update {shapes : Nat → Shape δ} {i : Nat} {shape : Shape δ}
    {m : Key → Option (Option δ)} (h : ∀ k, (entry k shape).map Entry.data = m k) :
    contents (Function.update shapes i shape) = Function.update (contents shapes) i m := by
  funext j k
  unfold contents
  by_cases hj : j = i
  · subst hj
    rw [Function.update_self, Function.update_self]
    exact h k
  · rw [Function.update_of_ne hj, Function.update_of_ne hj]

/-- Between calls every node belongs to one map or to the cache. The maps have no more entries than
there have been calls. -/
structure Holds (w : World δ) (shapes : Nat → Shape δ) (cached : List Nat) (n : Nat) : Prop where
  rep : ∀ i, Rep w.memory.heap.node (w.maps i) (shapes i)
  sorted : ∀ i, Sorted (shapes i)
  nodup : ∀ i, (addrs (shapes i)).Nodup
  apart : ∀ i j a, a ∈ addrs (shapes i) → a ∈ addrs (shapes j) → i = j
  uncached : ∀ i, ∀ a ∈ addrs (shapes i), a ∉ cached
  cache : Cached w.memory cached
  length_le : ∀ i, (entries (shapes i)).length ≤ n

theorem apart_update {shapes : Nat → Shape δ} {i : Nat} {shape : Shape δ}
    (h : ∀ j k a, a ∈ addrs (shapes j) → a ∈ addrs (shapes k) → j = k)
    (hother : ∀ j, j ≠ i → ∀ a ∈ addrs shape, a ∉ addrs (shapes j)) (j k a : Nat)
    (hj : a ∈ addrs (Function.update shapes i shape j))
    (hk : a ∈ addrs (Function.update shapes i shape k)) : j = k := by
  by_cases hji : j = i
  · by_cases hki : k = i
    · exact hji.trans hki.symm
    · rw [hji, Function.update_self] at hj
      rw [Function.update_of_ne hki] at hk
      exact absurd hk (hother k hki a hj)
  · rw [Function.update_of_ne hji] at hj
    by_cases hki : k = i
    · rw [hki, Function.update_self] at hk
      exact absurd hj (hother j hji a hk)
    · rw [Function.update_of_ne hki] at hk
      exact h j k a hj hk

theorem Holds.init : Holds (World.init : World δ) (fun _ => .null) [] 0 := by
  constructor
  · exact fun _ => .null
  · exact fun _ => trivial
  · exact fun _ => List.nodup_nil
  · intro i j a ha
    cases ha
  · intro i a ha
    cases ha
  · exact ⟨rfl, rfl, Nat.zero_le _, List.nodup_nil⟩
  · exact fun _ => Nat.le_refl _

section

variable {w : World δ} {shapes : Nat → Shape δ} {cached : List Nat} {n fuel : Nat}

theorem Holds.shrink (h : Holds w shapes cached n) {w' : World δ} {shapes' : Nat → Shape δ}
    {cached' : List Nat}
    (hmaps : ∀ i, w'.maps i = w.maps i ∧ shapes' i = shapes i ∨
      w'.maps i = .null ∧ shapes' i = .null)
    (hheap : ∀ i, ∀ a ∈ addrs (shapes' i), w'.memory.heap.node a = w.memory.heap.node a)
    (huncached : ∀ i, ∀ a ∈ addrs (shapes' i), a ∉ cached') (hcached : Cached w'.memory cached') :
    Holds w' shapes' cached' (n + 1) := by
  have hsub (i a : Nat) (ha : a ∈ addrs (shapes' i)) : a ∈ addrs (shapes i) := by
    rcases hmaps i with ⟨-, hs⟩ | ⟨-, hs⟩
    · exact hs ▸ ha
    · rw [hs] at ha
      cases ha
  constructor
  · intro i
    rcases hmaps i with ⟨hm, hs⟩ | ⟨hm, hs⟩
    · rw [hm]
      have hheap := hheap i
      rw [hs] at hheap ⊢
      exact (h.rep i).congr hheap
    · rw [hm, hs]
      exact .null
  · intro i
    rcases hmaps i with ⟨-, hs⟩ | ⟨-, hs⟩
    · rw [hs]
      exact h.sorted i
    · rw [hs]
      trivial
  · intro i
    rcases hmaps i with ⟨-, hs⟩ | ⟨-, hs⟩
    · rw [hs]
      exact h.nodup i
    · rw [hs]
      exact List.nodup_nil
  · exact fun i j a ha ha' => h.apart i j a (hsub i a ha) (hsub j a ha')
  · exact huncached
  · exact hcached
  · intro i
    rcases hmaps i with ⟨-, hs⟩ | ⟨-, hs⟩
    · rw [hs]
      exact Nat.le_succ_of_le (h.length_le i)
    · rw [hs]
      exact Nat.zero_le _

theorem Holds.refl (h : Holds w shapes cached n) : Holds w shapes cached (n + 1) :=
  h.shrink (fun _ => .inl ⟨rfl, rfl⟩) (fun _ _ _ => rfl) h.uncached h.cache

theorem addrs_store {shape : Shape δ} (hs : Sorted shape) {slot : Nat} {key : Key}
    (value : Option δ) (hold : ∀ e, entry key shape = some e → e.addr = slot)
    (hnew : entry key shape = none → slot ∉ addrs shape) (hnodup : (addrs shape).Nodup) :
    let stored := store sdbmHash Entry.key ⟨slot, key, value⟩ shape
    (addrs stored).Nodup ∧ (∀ a ∈ addrs stored, a = slot ∨ a ∈ addrs shape) ∧
      (entries stored).length ≤ (entries shape).length + 1 := by
  intro stored
  cases hfind : entry key shape with
  | some d =>
    have haddrs : addrs stored = addrs shape :=
      Ordered.map_store hs (f := Entry.addr) hfind (hold d hfind)
    have hlength : (entries stored).length = (entries shape).length := by
      simpa [addrs] using congrArg List.length haddrs
    rw [haddrs]
    exact ⟨hnodup, fun _ ha => .inr ha, by omega⟩
  | none =>
    have hperm : (entries stored).Perm (⟨slot, key, value⟩ :: entries shape) :=
      Ordered.store_perm hs hfind
    have haddrs : (addrs stored).Perm (slot :: addrs shape) := hperm.map Entry.addr
    constructor
    · exact haddrs.nodup_iff.mpr (List.nodup_cons.mpr ⟨hnew hfind, hnodup⟩)
    · constructor
      · exact fun a ha => List.mem_cons.mp (haddrs.mem_iff.mp ha)
      · exact Nat.le_of_eq hperm.length_eq

/-- What one call does. -/
def Steps (alloc : Allocator δ) (fuel : Nat) (w : World δ) (shapes : Nat → Shape δ) (n : Nat)
    (c : Call δ) : Prop :=
  ∃ answer w' shapes' cached', call alloc fuel c w = .ok answer w' ∧
    Holds w' shapes' cached' (n + 1) ∧ c.Meets (contents shapes) answer ∧
    contents shapes' = c.effect (contents shapes)

theorem Holds.insert (alloc : Allocator δ) (h : Holds w shapes cached n) (hfuel : n < fuel)
    (i : Nat) (key : Key) (value : Option δ) : Steps alloc fuel w shapes n (.insert i key value) := by
  have hlength : (entries (shapes i)).length < fuel := Nat.lt_of_le_of_lt (h.length_le i) hfuel
  obtain ⟨tree, slot, mem, cached', hrun, hg, hrep⟩ := mapInsert_ok alloc (h.rep i) (h.sorted i)
    (h.nodup i) h.cache (h.uncached i) hlength key
  have hfound (j : Nat) (hj : j ≠ i) (e : Entry δ) (he : entry key (shapes i) = some e) :
      e.addr ∉ addrs (shapes j) :=
    fun hmem => hj (h.apart j i _ hmem (entry_addr_mem (h.sorted i) he))
  have hslot (j : Nat) (hj : j ≠ i) : slot ∉ addrs (shapes j) :=
    hg.not_mem (fun a ha => (h.rep j).live ha) (h.uncached j) (hfound j hj)
  have hslotnew (hnone : entry key (shapes i) = none) : slot ∉ addrs (shapes i) :=
    hg.not_mem (fun a ha => (h.rep i).live ha) (h.uncached i)
      fun e he => absurd (hnone.symm.trans he) (Option.some_ne_none e).symm
  obtain ⟨hnodup, hsub, hstored⟩ :=
    addrs_store (h.sorted i) value hg.old hslotnew (h.nodup i)
  have hother (j : Nat) (hj : j ≠ i) (a : Nat)
      (ha : a ∈ addrs (store sdbmHash Entry.key ⟨slot, key, value⟩ (shapes i))) :
      a ∉ addrs (shapes j) := by
    obtain rfl | hold := hsub a ha
    · exact hslot j hj
    · exact fun hmem => hj (h.apart j i a hmem hold)
  have hframe (a : Nat) (ha : a ≠ slot) : (assigned mem.heap slot value).node a = mem.heap.node a :=
    Function.update_of_ne ha _ _
  have hslotout : slot ∉ cached' := fun hs => (hg.sub slot hs).2 rfl
  refine ⟨.done, { memory := { mem with heap := assigned mem.heap slot value },
                   maps := Function.update w.maps i tree },
    Function.update shapes i (store sdbmHash Entry.key ⟨slot, key, value⟩ (shapes i)), cached',
    ?_, ?_, trivial, ?_⟩
  · exact (bind_ok (onPart_ok hrun) _).trans (bind_ok (onPart_ok (assign_ok hg.live value)) _)
  · constructor
    · intro j
      by_cases hj : j = i
      · subst hj
        dsimp only
        rw [Function.update_self, Function.update_self]
        exact hrep value
      · dsimp only
        rw [Function.update_of_ne hj, Function.update_of_ne hj]
        exact hg.rep (h.rep j) (h.uncached j) (hfound j hj) value
    · apply (Function.forall_update_iff shapes fun _ => Sorted).mpr
      exact ⟨Ordered.store (h.sorted i), fun j _ => h.sorted j⟩
    · apply (Function.forall_update_iff shapes fun _ shape => (addrs shape).Nodup).mpr
      exact ⟨hnodup, fun j _ => h.nodup j⟩
    · exact apart_update h.apart hother
    · apply (Function.forall_update_iff shapes fun _ shape => ∀ a ∈ addrs shape, a ∉ cached').mpr
      constructor
      · intro a ha hc
        obtain ⟨hcached, hne⟩ := hg.sub a hc
        exact h.uncached i a ((hsub a ha).resolve_left hne) hcached
      · exact fun j _ a ha hc => h.uncached j a ha (hg.sub a hc).1
    · exact hg.cache.congr rfl rfl hslotout hframe
    · apply (Function.forall_update_iff shapes fun _ shape => (entries shape).length ≤ n + 1).mpr
      constructor
      · have hlen := h.length_le i
        omega
      · exact fun j _ => Nat.le_succ_of_le (h.length_le j)
  · apply contents_update
    intro k
    unfold entry
    rw [Ordered.find_store (h.sorted i)]
    by_cases hk : k = key
    · subst hk
      rw [if_pos rfl, Function.update_self]
      rfl
    · rw [if_neg hk, Function.update_of_ne hk]
      rfl

theorem Holds.lookup (alloc : Allocator δ) (h : Holds w shapes cached n) (hfuel : n < fuel)
    (i : Nat) (key : Key) : Steps alloc fuel w shapes n (.lookup i key) := by
  have hlength : (entries (shapes i)).length < fuel := Nat.lt_of_le_of_lt (h.length_le i) hfuel
  refine ⟨_, w, shapes, cached, bind_ok (onPart_ok (mapLookup_ok (h.rep i) hlength key)) _,
    h.refl, ?_, rfl⟩
  change (entry key (shapes i)).bind Entry.data = ((entry key (shapes i)).map Entry.data).join
  cases entry key (shapes i) with
  | none => rfl
  | some e => rfl

theorem foldl_visited (es : List (Entry δ)) (visited : List (Key × Option δ)) :
    es.foldl (fun visited e => visited ++ [(e.key, e.data)]) visited =
      visited ++ es.map fun e => (e.key, e.data) := by
  induction es generalizing visited with
  | nil => exact (List.append_nil visited).symm
  | cons e es ih =>
    rw [List.foldl_cons, ih, List.append_assoc]
    rfl

theorem Holds.iter (alloc : Allocator δ) (h : Holds w shapes cached n) (hfuel : n < fuel)
    (i : Nat) : Steps alloc fuel w shapes n (.iter i) := by
  have hlength : (entries (shapes i)).length < fuel := Nat.lt_of_le_of_lt (h.length_le i) hfuel
  refine ⟨_, w, shapes, cached, bind_ok (onPart_ok (mapIter_ok _ (h.rep i) hlength [])) _,
    h.refl, ?_, rfl⟩
  rw [foldl_visited, List.nil_append]
  constructor
  · rw [List.map_map]
    exact Ordered.keys_nodup (h.sorted i)
  · intro key data
    change _ ↔ (entry key (shapes i)).map Entry.data = some data
    rw [List.mem_map, Option.map_eq_some_iff]
    constructor
    · intro hgiven
      obtain ⟨e, he, heq⟩ := hgiven
      obtain ⟨hkey, hdata⟩ := Prod.mk.inj heq
      exact ⟨e, (Ordered.find_iff (h.sorted i)).mpr ⟨he, hkey⟩, hdata⟩
    · intro hboth
      obtain ⟨e, he, hdata⟩ := hboth
      obtain ⟨hmem, hkey⟩ := (Ordered.find_iff (h.sorted i)).mp he
      exact ⟨e, hmem, Prod.ext hkey hdata⟩

theorem Holds.release (alloc : Allocator δ) (h : Holds w shapes cached n) (hfuel : n < fuel)
    (i : Nat) : Steps alloc fuel w shapes n (.release i) := by
  have hlength : (entries (shapes i)).length < fuel := Nat.lt_of_le_of_lt (h.length_le i) hfuel
  obtain ⟨mem, cached', hrun, hr⟩ :=
    mapRelease_ok (h.rep i) (h.nodup i) h.cache (h.uncached i) hlength
  have hother (j a : Nat) (ha : a ∈ addrs (Function.update shapes i .null j)) :
      a ∈ addrs (shapes j) ∧ a ∉ addrs (shapes i) := by
    by_cases hj : j = i
    · subst hj
      rw [Function.update_self] at ha
      cases ha
    · rw [Function.update_of_ne hj] at ha
      exact ⟨ha, fun hi => hj (h.apart j i a ha hi)⟩
  refine ⟨.done, { memory := mem, maps := Function.update w.maps i mapInit },
    Function.update shapes i .null, cached', bind_ok (onPart_ok hrun) _, ?_, trivial, ?_⟩
  · apply h.shrink
    · intro j
      by_cases hj : j = i
      · subst hj
        exact .inr ⟨Function.update_self _ _ _, Function.update_self _ _ _⟩
      · exact .inl ⟨Function.update_of_ne hj _ _, Function.update_of_ne hj _ _⟩
    · exact fun j a ha => hr.frame a (hother j a ha).2
    · intro j a ha hc
      obtain ⟨hj, hi⟩ := hother j a ha
      exact (hr.sub a hc).elim (h.uncached j a hj) hi
    · exact hr.cache
  · exact contents_update fun _ => rfl

theorem Holds.cleanup (alloc : Allocator δ) (h : Holds w shapes cached n)
    (hfuel : maxCache < fuel) : Steps alloc fuel w shapes n .cleanup := by
  obtain ⟨mem, hrun, hempty, hframe⟩ :=
    mapCleanup_ok h.cache (Nat.lt_of_le_of_lt h.cache.room hfuel)
  refine ⟨.done, { w with memory := mem }, shapes, [], bind_ok (onPart_ok hrun) _, ?_, trivial, rfl⟩
  exact h.shrink (fun _ => .inl ⟨rfl, rfl⟩) (fun i a ha => hframe a (h.uncached i a ha))
    (fun _ _ _ => List.not_mem_nil) hempty

theorem Holds.call (alloc : Allocator δ) (h : Holds w shapes cached n) (hfuel : maxCache + n < fuel)
    (c : Call δ) : Steps alloc fuel w shapes n c := by
  have hn : n < fuel := by omega
  have hcache : maxCache < fuel := by omega
  cases c with
  | insert i key value => exact h.insert alloc hn i key value
  | lookup i key => exact h.lookup alloc hn i key
  | iter i => exact h.iter alloc hn i
  | release i => exact h.release alloc hn i
  | cleanup => exact h.cleanup alloc hcache

theorem Holds.calls (alloc : Allocator δ) (h : Holds w shapes cached n) (calls : List (Call δ))
    (hfuel : maxCache + n + calls.length ≤ fuel) :
    ∃ answers w', calls.mapM (Map.call alloc fuel) w = .ok answers w' ∧
      Explained (contents shapes) calls answers := by
  induction calls generalizing w shapes cached n with
  | nil => exact ⟨[], w, rfl, trivial⟩
  | cons c calls ih =>
    rw [List.length_cons] at hfuel
    have hroom : maxCache + n < fuel := by omega
    obtain ⟨answer, w₁, shapes₁, cached₁, hrun, h₁, hmeets, heffect⟩ := h.call alloc hroom c
    obtain ⟨answers, w₂, hrest, hexplained⟩ := ih h₁ (by omega)
    refine ⟨answer :: answers, w₂, ?_, hmeets, heffect ▸ hexplained⟩
    rw [List.mapM_cons, bind_ok hrun, bind_ok hrest]
    rfl

end

/-- Whatever addresses are given out, any calls in a row return, with the answers of finite maps. -/
theorem maps_finite (alloc : Allocator δ) (calls : List (Call δ)) {fuel : Nat}
    (hfuel : maxCache + calls.length ≤ fuel) :
    ∃ answers w, calls.mapM (call alloc fuel) World.init = .ok answers w ∧
      Explained (fun _ _ => none) calls answers :=
  Holds.init.calls alloc calls (by omega)

theorem Heap.exists_free (heap : Heap δ) : ∃ p, heap.node p = none := by
  obtain ⟨m, hm⟩ := heap.finite
  exact ⟨m, hm m (Nat.le_refl m)⟩

/-- The first place that is not in use. -/
def firstFit : Allocator δ where
  choose heap := Nat.find heap.exists_free
  fresh heap := Nat.find_spec heap.exists_free

/-- The hashes of all these keys are 0, and the second map reuses the nodes of the first. -/
def reuse : List (Call Nat) :=
  [.insert 0 [] (some 7), .insert 0 [0] (some 8), .lookup 0 [], .lookup 0 [0, 0], .release 0,
    .insert 1 [0] none, .insert 1 [0, 0] (some 9), .iter 1]

theorem maps_finite_reuse : maxCache + reuse.length ≤ 5008 ∧
    ∃ answers w, reuse.mapM (call firstFit 5008) World.init = .ok answers w ∧
      Explained (fun _ _ => none) reuse answers :=
  ⟨by decide, maps_finite firstFit reuse (by decide)⟩

example : returned (reuse.mapM (call firstFit 3) World.init) =
    some [.done, .done, .value (some 7), .value none, .done, .done, .done,
      .visited [([0, 0], some 9), ([0], none)]] := by decide +kernel

end Egos.Libc.Map
