import Egos.Libc.Map

/-!
# The lists of a map

What the loops over one list do, for a list whose nodes are all in the heap. The cache is such a
list too, of which only the links matter.
-/
namespace Egos.Libc.Map

open Egos.Disk (Stop)
open Egos.Lib Egos.Lib.Buckets

set_option autoImplicit false

variable {δ ε : Type}

/-- What a list has in a node, with the address of the node. -/
structure Entry (δ : Type) where
  addr : Nat
  key : Key
  data : Option δ

def Entry.node (e : Entry δ) (next : Option Nat) : BinListNode δ where
  next := next
  key := some e.key
  data := e.data
  keySize := e.key.length

/-- The list from `p` on has these entries. -/
def Chain (heap : Nat → Option (BinListNode δ)) : Option Nat → List (Entry δ) → Prop
  | p, [] => p = none
  | p, e :: es => p = some e.addr ∧ ∃ next, heap e.addr = some (e.node next) ∧ Chain heap next es

/-- The list from `p` on is in these nodes, whatever they hold. -/
def Links (heap : Nat → Option (BinListNode δ)) : Option Nat → List Nat → Prop
  | p, [] => p = none
  | p, a :: as => p = some a ∧ ∃ bln, heap a = some bln ∧ Links heap bln.next as

/-- The nodes of the cache. -/
structure Cached (mem : Memory δ) (cached : List Nat) : Prop where
  links : Links mem.heap.node mem.blnCache cached
  size : mem.blnCsize = cached.length
  room : cached.length ≤ maxCache
  nodup : cached.Nodup

section

variable {heap heap' : Nat → Option (BinListNode δ)} {p : Option Nat} {es : List (Entry δ)}
  {as : List Nat} {e : Entry δ}

theorem Chain.map {f : Entry δ → Entry δ} (hc : Chain heap p es) (haddr : ∀ e ∈ es, (f e).addr = e.addr)
    (hnode : ∀ e ∈ es, ∀ next, heap e.addr = some (e.node next) →
      heap' e.addr = some ((f e).node next)) : Chain heap' p (es.map f) := by
  induction es generalizing p with
  | nil => exact hc
  | cons e es ih =>
    obtain ⟨hp, next, he, hrest⟩ := hc
    have hfe := haddr e List.mem_cons_self
    constructor
    · rw [hp, hfe]
    · refine ⟨next, ?_, ih hrest (fun e he => haddr e (List.mem_cons_of_mem _ he))
        fun e he => hnode e (List.mem_cons_of_mem _ he)⟩
      rw [hfe]
      exact hnode e List.mem_cons_self next he

theorem Chain.congr (hc : Chain heap p es) (h : ∀ e ∈ es, heap' e.addr = heap e.addr) :
    Chain heap' p es := by
  rw [← List.map_id es]
  apply hc.map (fun _ _ => rfl)
  intro e he next hnode
  rw [h e he]
  exact hnode

theorem Chain.live (hc : Chain heap p es) (he : e ∈ es) : heap e.addr ≠ none := by
  induction es generalizing p with
  | nil => cases he
  | cons d es ih =>
    obtain ⟨-, next, hd, hrest⟩ := hc
    cases he with
    | head =>
      rw [hd]
      exact Option.some_ne_none _
    | tail _ he => exact ih hrest he

theorem Links.congr (hl : Links heap p as) (h : ∀ a ∈ as, heap' a = heap a) :
    Links heap' p as := by
  induction as generalizing p with
  | nil => exact hl
  | cons a as ih =>
    obtain ⟨hp, bln, ha, hrest⟩ := hl
    exact ⟨hp, bln, (h a List.mem_cons_self).trans ha,
      ih hrest fun b hb => h b (List.mem_cons_of_mem _ hb)⟩

end

theorem Cached.congr {mem mem' : Memory δ} {cached : List Nat} (hc : Cached mem cached)
    (hcache : mem'.blnCache = mem.blnCache) (hsize : mem'.blnCsize = mem.blnCsize) {a : Nat}
    (ha : a ∉ cached) (h : ∀ b, b ≠ a → mem'.heap.node b = mem.heap.node b) : Cached mem' cached := by
  constructor
  · rw [hcache]
    exact hc.links.congr fun b hb => h b fun hba => ha (hba ▸ hb)
  · rw [hsize, hc.size]
  · exact hc.room
  · exact hc.nodup

/-! ## Searches -/

section

variable {mem : Memory δ} {a fuel : Nat} {bln : BinListNode δ} {p : Option Nat}
  {es : List (Entry δ)}

theorem node_ok (h : mem.heap.node a = some bln) : node a mem = .ok bln mem := by
  have hget : (get : Program δ (Memory δ)) mem = .ok mem mem := rfl
  unfold node
  rw [bind_ok hget, h]
  rfl

theorem hasKey_ok (e : Entry δ) (next : Option Nat) (key : Key) :
    hasKey (e.node next) key mem = .ok (decide (e.key = key)) mem := by
  unfold hasKey Entry.node
  dsimp only
  split
  · next hlen =>
    rw [if_neg (by omega), ← hlen, List.take_length]
    rfl
  · next hlen =>
    have hne : e.key ≠ key := fun he => hlen (congrArg List.length he)
    rw [decide_eq_false hne]
    rfl

theorem find?_cons (e : Entry δ) (es : List (Entry δ)) (key : Key) :
    (e :: es).find? (fun e => e.key = key) =
      if e.key = key then some e else es.find? fun e => e.key = key := by
  rw [List.find?_cons]
  by_cases he : e.key = key
  · rw [decide_eq_true he, if_pos he]
  · rw [decide_eq_false he, if_neg he]

theorem mapListLookup_ok (hc : Chain mem.heap.node p es) (hfuel : es.length < fuel) (key : Key) :
    mapListLookup key fuel p mem = .ok ((es.find? fun e => e.key = key).bind Entry.data) mem := by
  induction fuel generalizing p es with
  | zero => exact absurd hfuel (Nat.not_lt_zero _)
  | succ fuel ih =>
    cases es with
    | nil =>
      rw [show p = none from hc]
      rfl
    | cons e es =>
      obtain ⟨hp, next, he, hrest⟩ := hc
      subst hp
      unfold mapListLookup
      rw [bind_ok (node_ok he), bind_ok (hasKey_ok e next key), find?_cons]
      by_cases hkey : e.key = key
      · rw [decide_eq_true hkey, if_pos hkey]
        rfl
      · rw [decide_eq_false hkey, if_neg hkey]
        exact ih hrest (Nat.lt_of_succ_lt_succ hfuel)

theorem findNode_ok (hc : Chain mem.heap.node p es) (hfuel : es.length < fuel) (key : Key) :
    findNode key fuel p mem = .ok ((es.find? fun e => e.key = key).map Entry.addr) mem := by
  induction fuel generalizing p es with
  | zero => exact absurd hfuel (Nat.not_lt_zero _)
  | succ fuel ih =>
    cases es with
    | nil =>
      rw [show p = none from hc]
      rfl
    | cons e es =>
      obtain ⟨hp, next, he, hrest⟩ := hc
      subst hp
      unfold findNode
      rw [bind_ok (node_ok he), bind_ok (hasKey_ok e next key), find?_cons]
      by_cases hkey : e.key = key
      · rw [decide_eq_true hkey, if_pos hkey]
        rfl
      · rw [decide_eq_false hkey, if_neg hkey]
        exact ih hrest (Nat.lt_of_succ_lt_succ hfuel)

theorem mapListIter_ok (upcall : ε → Key → Option δ → ε) (hc : Chain mem.heap.node p es)
    (hfuel : es.length < fuel) (env : ε) : mapListIter upcall fuel p env mem =
      .ok (es.foldl (fun env e => upcall env e.key e.data) env) mem := by
  induction fuel generalizing p es env with
  | zero => exact absurd hfuel (Nat.not_lt_zero _)
  | succ fuel ih =>
    cases es with
    | nil =>
      rw [show p = none from hc]
      rfl
    | cons e es =>
      obtain ⟨hp, next, he, hrest⟩ := hc
      subst hp
      unfold mapListIter
      rw [bind_ok (node_ok he)]
      unfold Entry.node
      dsimp only
      rw [if_neg (Nat.lt_irrefl _), List.take_length]
      exact ih hrest (Nat.lt_of_succ_lt_succ hfuel) _

end

/-! ## Insertion -/

/-- What `assign` does to the heap. -/
def assigned (heap : Heap δ) (slot : Nat) (value : Option δ) : Heap δ :=
  heap.update slot ((heap.node slot).map fun bln => { bln with data := value })

/-- What an insertion does to the nodes, where a search for the key has `found` before it. -/
structure Grown (mem mem' : Memory δ) (cached cached' : List Nat) (found : Option (Entry δ))
    (slot : Nat) : Prop where
  cache : Cached mem' cached'
  live : ∃ bln, mem'.heap.node slot = some bln
  frame : ∀ a, a ≠ slot → mem'.heap.node a = mem.heap.node a
  sub : ∀ a ∈ cached', a ∈ cached ∧ a ≠ slot
  old : ∀ e, found = some e → e.addr = slot
  new : found = none → slot ∈ cached ∨ mem.heap.node slot = none

section

variable {mem mem' : Memory δ} {a fuel slot : Nat} {bln : BinListNode δ} {p : Option Nat}
  {es : List (Entry δ)} {cached cached' as : List Nat} {found : Option (Entry δ)}

theorem assigned_self {heap : Heap δ} {value : Option δ} (h : heap.node slot = some bln) :
    (assigned heap slot value).node slot = some { bln with data := value } := by
  change Function.update heap.node slot _ slot = _
  rw [Function.update_self, h]
  rfl

theorem assigned_of_ne {heap : Heap δ} {value : Option δ} (h : a ≠ slot) :
    (assigned heap slot value).node a = heap.node a :=
  Function.update_of_ne h _ _

theorem assign_ok (h : ∃ bln, mem.heap.node slot = some bln) (value : Option δ) :
    assign slot value mem = .ok () { mem with heap := assigned mem.heap slot value } := by
  obtain ⟨bln, hbln⟩ := h
  unfold assign assigned
  rw [bind_ok (node_ok hbln), hbln]
  rfl

theorem Grown.not_mem (hg : Grown mem mem' cached cached' found slot)
    (hlive : ∀ a ∈ as, mem.heap.node a ≠ none) (hcached : ∀ a ∈ as, a ∉ cached)
    (hfound : ∀ e, found = some e → e.addr ∉ as) : slot ∉ as := by
  intro hslot
  cases hf : found with
  | none =>
    rcases hg.new hf with hc | hn
    · exact hcached slot hslot hc
    · exact hlive slot hslot hn
  | some e =>
    apply hfound e hf
    rw [hg.old e hf]
    exact hslot

theorem Grown.assigned_frame (hg : Grown mem mem' cached cached' found slot) (ha : a ≠ slot)
    (value : Option δ) : (assigned mem'.heap slot value).node a = mem.heap.node a := by
  rw [assigned_of_ne ha, hg.frame a ha]

theorem newNode_ok (alloc : Allocator δ) (hc : Cached mem cached) :
    ∃ slot mem' cached', newNode alloc mem = .ok slot mem' ∧
      Grown mem mem' cached cached' none slot := by
  cases cached with
  | nil =>
    have hcache : mem.blnCache = none := hc.links
    have hsize : mem.blnCsize = 0 := hc.size
    have hfresh := alloc.fresh mem.heap
    refine ⟨alloc.choose mem.heap, { mem with
      heap := mem.heap.update (alloc.choose mem.heap) (some ⟨none, none, none, 0⟩) },
      [], ?_, ?_⟩
    · obtain ⟨heap, cache, csize⟩ := mem
      subst hcache hsize
      rfl
    · constructor
      · exact hc.congr rfl rfl List.not_mem_nil fun b hb => Function.update_of_ne hb _ _
      · exact ⟨_, Function.update_self _ _ _⟩
      · exact fun b hb => Function.update_of_ne hb _ _
      · intro a ha
        cases ha
      · intro e he
        cases he
      · exact fun _ => .inr hfresh
  | cons p cached =>
    obtain ⟨hcache, bln, hbln, hrest⟩ := hc.links
    have hsize : mem.blnCsize = cached.length + 1 := hc.size
    have hnodup := List.nodup_cons.mp hc.nodup
    have hroom := hc.room
    rw [List.length_cons] at hroom
    refine ⟨p, { mem with
      heap := mem.heap.update p (some { bln with data := none })
      blnCache := bln.next
      blnCsize := mem.blnCsize - 1 }, cached, ?_, ?_⟩
    · obtain ⟨heap, cache, csize⟩ := mem
      subst hcache hsize
      change (node p >>= _) _ = _
      rw [bind_ok (node_ok hbln)]
      rfl
    · have hframe (b : Nat) (hb : b ≠ p) :
          Function.update mem.heap.node p (some { bln with data := none }) b = mem.heap.node b :=
        Function.update_of_ne hb _ _
      constructor
      · constructor
        · exact hrest.congr fun b hb => hframe b fun hbp => hnodup.1 (hbp ▸ hb)
        · exact Nat.sub_eq_of_eq_add hsize
        · omega
        · exact hnodup.2
      · exact ⟨_, Function.update_self _ _ _⟩
      · exact hframe
      · exact fun b hb => ⟨List.mem_cons_of_mem _ hb, fun hbp => hnodup.1 (hbp ▸ hb)⟩
      · intro e he
        cases he
      · exact fun _ => .inl List.mem_cons_self

theorem Chain.assign {heap : Heap δ} (hc : Chain heap.node p es) (hkeys : (es.map Entry.key).Nodup)
    (haddrs : (es.map Entry.addr).Nodup) {d : Entry δ} (hd : d ∈ es) {key : Key}
    (hkey : d.key = key) (value : Option δ) :
    Chain ((assigned heap d.addr value).node) p (place Entry.key ⟨d.addr, key, value⟩ es) := by
  rw [place_of_mem ⟨d, hd, hkey⟩]
  apply hc.map
  · intro e he
    split
    · next hek => rw [List.inj_on_of_nodup_map hkeys he hd (hek.trans hkey.symm)]
    · rfl
  · intro e he next hnode
    split
    · next hek =>
      have hed : e = d := List.inj_on_of_nodup_map hkeys he hd (hek.trans hkey.symm)
      subst hed
      rw [assigned_self hnode, ← hkey]
      rfl
    · next hek =>
      have hed : e.addr ≠ d.addr := by
        intro ha
        rw [List.inj_on_of_nodup_map haddrs he hd ha] at hek
        exact hek hkey
      rw [assigned_of_ne hed]
      exact hnode

theorem Chain.cons_assigned {heap : Heap δ} (hc : Chain heap.node p es)
    (hslot : slot ∉ es.map Entry.addr) {key : Key}
    (hnode : heap.node slot = some { bln with key := some key, keySize := key.length, next := p })
    (value : Option δ) :
    Chain ((assigned heap slot value).node) (some slot) (⟨slot, key, value⟩ :: es) := by
  constructor
  · rfl
  · refine ⟨p, assigned_self hnode, hc.congr ?_⟩
    intro e he
    apply assigned_of_ne
    rintro rfl
    exact hslot (List.mem_map_of_mem he)

theorem mapListInsert_ok (alloc : Allocator δ) (hc : Chain mem.heap.node p es)
    (hkeys : (es.map Entry.key).Nodup) (haddrs : (es.map Entry.addr).Nodup)
    (hcached : Cached mem cached) (hapart : ∀ e ∈ es, e.addr ∉ cached) (hfuel : es.length < fuel)
    (key : Key) : ∃ list slot mem' cached',
      mapListInsert alloc key fuel p mem = .ok (list, slot) mem' ∧
      Grown mem mem' cached cached' (es.find? fun e => e.key = key) slot ∧
      ∀ value, Chain ((assigned mem'.heap slot value).node) list
        (place Entry.key ⟨slot, key, value⟩ es) := by
  unfold mapListInsert
  rw [bind_ok (findNode_ok hc hfuel key)]
  cases hfind : es.find? fun e => e.key = key with
  | some d =>
    obtain ⟨hd, hkey⟩ := (find?_key_iff hkeys).mp hfind
    have hlive := hc.live hd
    refine ⟨p, d.addr, mem, cached, rfl, ?_, ?_⟩
    · constructor
      · exact hcached
      · exact Option.ne_none_iff_exists'.mp hlive
      · exact fun _ _ => rfl
      · exact fun a ha => ⟨ha, fun had => hapart d hd (had ▸ ha)⟩
      · intro e he
        rw [Option.some.inj he]
      · intro h
        cases h
    · exact hc.assign hkeys haddrs hd hkey
  | none =>
    obtain ⟨slot, mem', cached', hnew, hg⟩ := newNode_ok alloc hcached
    obtain ⟨bln, hbln⟩ := hg.live
    have hslot : slot ∉ es.map Entry.addr := by
      apply hg.not_mem
      · intro a ha
        obtain ⟨e, he, rfl⟩ := List.mem_map.mp ha
        exact hc.live he
      · intro a ha
        obtain ⟨e, he, rfl⟩ := List.mem_map.mp ha
        exact hapart e he
      · intro e he
        cases he
    have hout : slot ∉ cached' := fun hs => (hg.sub slot hs).2 rfl
    have hframe (b : Nat) (hb : b ≠ slot) : Function.update mem'.heap.node slot
        (some { bln with key := some key, keySize := key.length, next := p }) b = mem'.heap.node b :=
      Function.update_of_ne hb _ _
    refine ⟨some slot, slot, { mem' with
      heap := mem'.heap.update slot
        (some { bln with key := some key, keySize := key.length, next := p }) },
      cached', ?_, ?_, ?_⟩
    · change (newNode alloc >>= _) mem = _
      rw [bind_ok hnew, bind_ok (node_ok hbln)]
      rfl
    · constructor
      · exact hg.cache.congr rfl rfl hout hframe
      · exact ⟨_, Function.update_self _ _ _⟩
      · intro b hb
        exact (hframe b hb).trans (hg.frame b hb)
      · exact hg.sub
      · intro e he
        cases he
      · exact fun _ => hg.new rfl
    · intro value
      rw [place_of_not_mem]
      · apply Chain.cons_assigned (hc.congr _) hslot (Function.update_self _ _ _)
        intro e he
        have hne : e.addr ≠ slot := fun ha => hslot (ha ▸ List.mem_map_of_mem he)
        exact (hframe e.addr hne).trans (hg.frame e.addr hne)
      · intro hgiven
        obtain ⟨e, he, hkey⟩ := hgiven
        exact absurd hkey (by simpa using List.find?_eq_none.mp hfind e he)

end

/-! ## Release -/

/-- The nodes of a list are in the cache or free, and all others are as before. -/
structure Released (mem mem' : Memory δ) (cached cached' : List Nat) (as : List Nat) : Prop where
  cache : Cached mem' cached'
  sub : ∀ a ∈ cached', a ∈ cached ∨ a ∈ as
  frame : ∀ a, a ∉ as → mem'.heap.node a = mem.heap.node a

section

variable {mem mem' mem'' : Memory δ} {a fuel : Nat} {bln : BinListNode δ} {p : Option Nat}
  {es : List (Entry δ)} {cached cached' cached'' as as' : List Nat}

theorem Released.refl (hc : Cached mem cached) : Released mem mem cached cached [] :=
  ⟨hc, fun _ ha => .inl ha, fun _ _ => rfl⟩

theorem Released.trans (h : Released mem mem' cached cached' as)
    (h' : Released mem' mem'' cached' cached'' as') :
    Released mem mem'' cached cached'' (as ++ as') := by
  constructor
  · exact h'.cache
  · intro a ha
    rw [List.mem_append]
    rcases h'.sub a ha with ha | ha
    · exact (h.sub a ha).imp id Or.inl
    · exact .inr (.inr ha)
  · intro a ha
    rw [List.mem_append, not_or] at ha
    rw [h'.frame a ha.2, h.frame a ha.1]

theorem Released.congr (h : Released mem mem' cached cached' as) (has : ∀ a, a ∈ as ↔ a ∈ as') :
    Released mem mem' cached cached' as' :=
  ⟨h.cache, fun a ha => (h.sub a ha).imp id (has a).mp,
    fun a ha => h.frame a fun ha' => ha ((has a).mp ha')⟩

theorem free_ok (hbln : mem.heap.node a = some bln) :
    free a mem = .ok () { mem with heap := mem.heap.update a none } := by
  unfold free
  rw [bind_ok (node_ok hbln)]
  rfl

theorem blnRelease_ok (hc : Cached mem cached) (hbln : mem.heap.node a = some bln) (ha : a ∉ cached) :
    ∃ mem' cached', blnRelease a mem = .ok () mem' ∧ Released mem mem' cached cached' [a] := by
  have hsize := hc.size
  have hroom := hc.room
  have hframe (value : Option (BinListNode δ)) (b : Nat) (hb : b ∉ [a]) :
      Function.update mem.heap.node a value b = mem.heap.node b :=
    Function.update_of_ne (List.ne_of_not_mem_cons hb) _ _
  by_cases hfull : mem.blnCsize ≥ maxCache
  · have heq : mem.blnCsize = maxCache := by omega
    refine ⟨{ mem with heap := mem.heap.update a none }, cached, ?_, ?_, ?_, ?_⟩
    · change (if mem.blnCsize ≥ maxCache then _ else _ : Program δ Unit) mem = _
      rw [if_pos hfull, decide_eq_true heq]
      exact free_ok hbln
    · exact hc.congr rfl rfl ha fun b hb => Function.update_of_ne hb _ _
    · exact fun b hb => .inl hb
    · exact hframe none
  · refine ⟨{ mem with
      heap := mem.heap.update a (some { bln with next := mem.blnCache })
      blnCache := some a
      blnCsize := mem.blnCsize + 1 }, a :: cached, ?_, ?_, ?_, ?_⟩
    · change (if mem.blnCsize ≥ maxCache then _ else _ : Program δ Unit) mem = _
      rw [if_neg hfull]
      change (node a >>= _) mem = _
      rw [bind_ok (node_ok hbln)]
      rfl
    · constructor
      · refine ⟨rfl, _, Function.update_self _ _ _, hc.links.congr fun b hb => ?_⟩
        exact Function.update_of_ne (fun hba : b = a => ha (hba ▸ hb)) _ _
      · exact congrArg (· + 1) hsize
      · rw [List.length_cons]
        omega
      · exact List.nodup_cons.mpr ⟨ha, hc.nodup⟩
    · intro b hb
      rw [List.mem_singleton]
      exact (List.mem_cons.mp hb).symm
    · exact hframe _

theorem mapListRelease_ok (hc : Chain mem.heap.node p es) (haddrs : (es.map Entry.addr).Nodup)
    (hcached : Cached mem cached) (hapart : ∀ e ∈ es, e.addr ∉ cached) (hfuel : es.length < fuel) :
    ∃ mem' cached', mapListRelease fuel p mem = .ok () mem' ∧
      Released mem mem' cached cached' (es.map Entry.addr) := by
  induction fuel generalizing mem p es cached with
  | zero => exact absurd hfuel (Nat.not_lt_zero _)
  | succ fuel ih =>
    cases es with
    | nil =>
      rw [show p = none from hc]
      exact ⟨mem, cached, rfl, Released.refl hcached⟩
    | cons e es =>
      obtain ⟨hp, next, he, hrest⟩ := hc
      subst hp
      obtain ⟨hnew, hnodup⟩ := List.nodup_cons.mp haddrs
      have hout := hapart e List.mem_cons_self
      have hne (d : Entry δ) (hd : d ∈ es) : d.addr ≠ e.addr :=
        fun hde => hnew (hde ▸ List.mem_map_of_mem hd)
      -- the key is freed first
      have hframe (b : Nat) (hb : b ≠ e.addr) : Function.update mem.heap.node e.addr
          (some { e.node next with key := none }) b = mem.heap.node b := Function.update_of_ne hb _ _
      have hfreed : Cached { mem with
          heap := mem.heap.update e.addr (some { e.node next with key := none }) } cached :=
        hcached.congr rfl rfl hout hframe
      obtain ⟨mem₁, cached₁, hrun, hhead⟩ :=
        blnRelease_ok hfreed (Function.update_self _ _ _) hout
      have hhead' : Released mem mem₁ cached cached₁ [e.addr] := by
        refine ⟨hhead.cache, hhead.sub, fun a ha => ?_⟩
        rw [hhead.frame a ha]
        exact hframe a (List.ne_of_not_mem_cons ha)
      -- and the rest of the list is still as it was
      have hchain : Chain mem₁.heap.node next es := by
        apply hrest.congr
        intro d hd
        apply hhead'.frame
        rw [List.mem_singleton]
        exact hne d hd
      have hapart₁ (d : Entry δ) (hd : d ∈ es) : d.addr ∉ cached₁ := by
        intro hdc
        rcases hhead.sub _ hdc with hdc | hdc
        · exact hapart d (List.mem_cons_of_mem _ hd) hdc
        · exact hne d hd (List.mem_singleton.mp hdc)
      obtain ⟨mem₂, cached₂, hloop, htail⟩ := ih hchain hnodup hhead.cache hapart₁
        (Nat.lt_of_succ_lt_succ hfuel)
      refine ⟨mem₂, cached₂, ?_, hhead'.trans htail⟩
      unfold mapListRelease
      rw [bind_ok (node_ok he)]
      change (blnRelease e.addr >>= _) { mem with
        heap := mem.heap.update e.addr (some { e.node next with key := none }) } = _
      rw [bind_ok hrun]
      exact hloop

theorem mapCleanup_ok (hc : Cached mem cached) (hfuel : cached.length < fuel) :
    ∃ mem', mapCleanup fuel mem = .ok () mem' ∧ Cached mem' [] ∧
      ∀ a, a ∉ cached → mem'.heap.node a = mem.heap.node a := by
  induction fuel generalizing mem cached with
  | zero => exact absurd hfuel (Nat.not_lt_zero _)
  | succ fuel ih =>
    cases cached with
    | nil =>
      refine ⟨mem, ?_, hc, fun _ _ => rfl⟩
      have hcache : mem.blnCache = none := hc.links
      have hsize : mem.blnCsize = 0 := hc.size
      obtain ⟨heap, cache, csize⟩ := mem
      subst hcache hsize
      rfl
    | cons p cached =>
      obtain ⟨hcache, bln, hbln, hrest⟩ := hc.links
      have hsize : mem.blnCsize = cached.length + 1 := hc.size
      have hroom := hc.room
      rw [List.length_cons] at hroom
      obtain ⟨hnew, hnodup⟩ := List.nodup_cons.mp hc.nodup
      have hframe (b : Nat) (hb : b ≠ p) :
          Function.update mem.heap.node p none b = mem.heap.node b := Function.update_of_ne hb _ _
      have hcached : Cached { mem with
          heap := mem.heap.update p none
          blnCache := bln.next
          blnCsize := mem.blnCsize - 1 } cached := by
        constructor
        · exact hrest.congr fun b hb => hframe b fun hbp => hnew (hbp ▸ hb)
        · exact Nat.sub_eq_of_eq_add hsize
        · omega
        · exact hnodup
      obtain ⟨mem', hrun, hempty, hrestframe⟩ := ih hcached (Nat.lt_of_succ_lt_succ hfuel)
      refine ⟨mem', ?_, hempty, fun a ha => ?_⟩
      · obtain ⟨heap, cache, csize⟩ := mem
        subst hcache hsize
        have hfree : free p ⟨heap, bln.next, cached.length⟩ =
            .ok () ⟨heap.update p none, bln.next, cached.length⟩ := free_ok hbln
        unfold mapCleanup
        change (node p >>= _) _ = _
        rw [bind_ok (node_ok hbln)]
        exact (bind_ok hfree _).trans hrun
      · rw [List.mem_cons, not_or] at ha
        rw [hrestframe a ha.2]
        exact hframe a ha.1

end

end Egos.Libc.Map
