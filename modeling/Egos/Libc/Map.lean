import Egos.Disk.Store
import Egos.Lib.Buckets
import Egos.Lib.Bytes
import Egos.Lib.Program

/-!
# `map.c`

A map is a binary tree indexed by a hash of the key. Each node points to a linked list of the keys
that hash to the same value. The nodes of the lists are in one heap with those that released maps
have left for the next ones. A loop over a list that has not come to its end after `fuel` rounds
does not return.
-/
namespace Egos.Libc.Map

open Egos.Disk (Stop)
open Egos.Lib

set_option autoImplicit false

variable {δ ε : Type}

abbrev Key := List Byte

/-- `struct bin_list_node`. There is no key before one is set, or after it has been freed. -/
structure BinListNode (δ : Type) where
  next : Option Nat
  key : Option Key
  data : Option δ
  keySize : Nat

/-- `struct map *` -/
abbrev Tree := Buckets (BitVec 32) (Option Nat)

/-- Nodes at addresses, of which only finitely many are in use. -/
structure Heap (δ : Type) where
  node : Nat → Option (BinListNode δ)
  finite : ∃ m, ∀ p, m ≤ p → node p = none

namespace Heap

def empty : Heap δ where
  node _ := none
  finite := ⟨0, fun _ _ => rfl⟩

def update (heap : Heap δ) (p : Nat) (bln : Option (BinListNode δ)) : Heap δ where
  node := Function.update heap.node p bln
  finite := by
    obtain ⟨m, hm⟩ := heap.finite
    refine ⟨max m (p + 1), fun q hq => ?_⟩
    rw [Function.update_of_ne (by omega)]
    exact hm q (by omega)

end Heap

structure Memory (δ : Type) where
  heap : Heap δ
  blnCache : Option Nat
  blnCsize : Nat

/-- `calloc` gives out any place that is not in use. -/
structure Allocator (δ : Type) where
  choose : Heap δ → Nat
  fresh : ∀ heap : Heap δ, heap.node (choose heap) = none

abbrev Program (δ : Type) := EStateM Stop (Memory δ)

def maxCache : Nat := 5000

def sdbmHash (key : Key) : BitVec 32 :=
  key.foldl (fun h c => c.setWidth 32 + (h <<< 6) + (h <<< 16) - h) 0

def node (p : Nat) : Program δ (BinListNode δ) := do
  match (← get).heap.node p with
  | none => throw .undefined
  | some bln => pure bln

def put (p : Nat) (bln : BinListNode δ) : Program δ Unit :=
  modify fun mem => { mem with heap := mem.heap.update p (some bln) }

def free (p : Nat) : Program δ Unit := do
  let _ ← node p
  modify fun mem => { mem with heap := mem.heap.update p none }

def assert (condition : Bool) : Program δ Unit :=
  if condition then pure () else throw .assert

/-- `bln->key_size == key_size && memcmp(bln->key, key, key_size) == 0` -/
def hasKey (bln : BinListNode δ) (key : Key) : Program δ Bool :=
  if bln.keySize = key.length then
    match bln.key with
    | none => throw .undefined
    | some bytes =>
      if bytes.length < key.length then throw .undefined
      else pure (bytes.take key.length = key)
  else pure false

def mapListLookup (key : Key) : Nat → Option Nat → Program δ (Option δ)
  | 0, _ => throw .diverge
  | _ + 1, none => pure none
  | fuel + 1, some p => do
    let bln ← node p
    if ← hasKey bln key then pure bln.data
    else mapListLookup key fuel bln.next

def mapLookup (key : Key) (fuel : Nat) : Tree → Program δ (Option δ)
  | .null => pure none
  | .node left right hash list =>
    if hash = sdbmHash key then mapListLookup key fuel list
    else if hash < sdbmHash key then mapLookup key fuel right
    else mapLookup key fuel left

def blnRelease (p : Nat) : Program δ Unit := do
  let mem ← get
  if mem.blnCsize ≥ maxCache then
    assert (mem.blnCsize = maxCache)
    free p
  else
    let bln ← node p
    put p { bln with next := mem.blnCache }
    modify fun mem => { mem with blnCache := some p, blnCsize := mem.blnCsize + 1 }

/-- The loop of `map_list_insert`. -/
def findNode (key : Key) : Nat → Option Nat → Program δ (Option Nat)
  | 0, _ => throw .diverge
  | _ + 1, none => pure none
  | fuel + 1, some p => do
    let bln ← node p
    if ← hasKey bln key then pure (some p)
    else findNode key fuel bln.next

/-- A node from the cache, or a new one. -/
def newNode (alloc : Allocator δ) : Program δ Nat := do
  let mem ← get
  match mem.blnCache with
  | none =>
    assert (mem.blnCsize = 0)
    put (alloc.choose mem.heap) { next := none, key := none, data := none, keySize := 0 }
    pure (alloc.choose mem.heap)
  | some p =>
    assert (mem.blnCsize > 0)
    let bln ← node p
    modify fun mem => { mem with blnCache := bln.next, blnCsize := mem.blnCsize - 1 }
    put p { bln with data := none }
    pure p

/-- The list, and the node whose `data` the returned slot is. -/
def mapListInsert (alloc : Allocator δ) (key : Key) (fuel : Nat) (pbln : Option Nat) :
    Program δ (Option Nat × Nat) := do
  match ← findNode key fuel pbln with
  | some p => pure (pbln, p)
  | none =>
    let p ← newNode alloc
    let bln ← node p
    put p { bln with key := some key, keySize := key.length, next := pbln }
    pure (some p, p)

def mapInsert (alloc : Allocator δ) (key : Key) (fuel : Nat) : Tree → Program δ (Tree × Nat)
  | .null => do
    let (list, slot) ← mapListInsert alloc key fuel none
    pure (.node .null .null (sdbmHash key) list, slot)
  | .node left right hash list =>
    if hash = sdbmHash key then do
      let (list, slot) ← mapListInsert alloc key fuel list
      pure (.node left right hash list, slot)
    else if hash < sdbmHash key then do
      let (right, slot) ← mapInsert alloc key fuel right
      pure (.node left right hash list, slot)
    else do
      let (left, slot) ← mapInsert alloc key fuel left
      pure (.node left right hash list, slot)

/-- `*slot = value` -/
def assign (slot : Nat) (value : Option δ) : Program δ Unit := do
  let bln ← node slot
  put slot { bln with data := value }

/-- The upcalls change `env` only. They get `key_size` bytes of the key. -/
def mapListIter (upcall : ε → Key → Option δ → ε) : Nat → Option Nat → ε → Program δ ε
  | 0, _, _ => throw .diverge
  | _ + 1, none, env => pure env
  | fuel + 1, some p, env => do
    let bln ← node p
    match bln.key with
    | none => throw .undefined
    | some bytes =>
      if bytes.length < bln.keySize then throw .undefined
      else mapListIter upcall fuel bln.next (upcall env (bytes.take bln.keySize) bln.data)

def mapIter (upcall : ε → Key → Option δ → ε) (fuel : Nat) : Tree → ε → Program δ ε
  | .null, env => pure env
  | .node left right _ list, env => do
    let env ← mapIter upcall fuel left env
    let env ← mapListIter upcall fuel list env
    mapIter upcall fuel right env

def mapInit : Tree := .null

def mapListRelease : Nat → Option Nat → Program δ Unit
  | 0, _ => throw .diverge
  | _ + 1, none => pure ()
  | fuel + 1, some p => do
    let bln ← node p
    match bln.key with
    | none => throw .undefined
    | some _ =>
      put p { bln with key := none }
      blnRelease p
      mapListRelease fuel bln.next

def mapRelease (fuel : Nat) : Tree → Program δ Unit
  | .null => pure ()
  | .node left right _ list => do
    mapRelease fuel left
    mapRelease fuel right
    mapListRelease fuel list

def mapCleanup : Nat → Program δ Unit
  | 0 => throw .diverge
  | fuel + 1 => do
    let mem ← get
    match mem.blnCache with
    | none => assert (mem.blnCsize = 0)
    | some p =>
      assert (mem.blnCsize > 0)
      let bln ← node p
      modify fun mem => { mem with blnCache := bln.next, blnCsize := mem.blnCsize - 1 }
      free p
      mapCleanup fuel

/-! ## A process with maps -/

structure World (δ : Type) where
  memory : Memory δ
  maps : Nat → Tree

/-- A released map is initialised again before its next use. -/
inductive Call (δ : Type) where
  | insert (i : Nat) (key : Key) (value : Option δ)
  | lookup (i : Nat) (key : Key)
  | iter (i : Nat)
  | release (i : Nat)
  | cleanup
  deriving DecidableEq

inductive Answer (δ : Type) where
  | done
  | value (data : Option δ)
  | visited (entries : List (Key × Option δ))
  deriving DecidableEq

def World.init : World δ where
  memory := { heap := .empty, blnCache := none, blnCsize := 0 }
  maps _ := mapInit

def onMemory {α : Type} (m : Program δ α) : EStateM Stop (World δ) α :=
  onPart World.memory (fun w mem => { w with memory := mem }) m

def call (alloc : Allocator δ) (fuel : Nat) : Call δ → EStateM Stop (World δ) (Answer δ)
  | .insert i key value => do
    let (map, slot) ← onMemory (mapInsert alloc key fuel ((← get).maps i))
    modify fun w => { w with maps := Function.update w.maps i map }
    onMemory (assign slot value)
    pure .done
  | .lookup i key => do
    return .value (← onMemory (mapLookup key fuel ((← get).maps i)))
  | .iter i => do
    return .visited (← onMemory (mapIter (fun visited key data => visited ++ [(key, data)]) fuel
      ((← get).maps i) []))
  | .release i => do
    onMemory (mapRelease fuel ((← get).maps i))
    modify fun w => { w with maps := Function.update w.maps i mapInit }
    pure .done
  | .cleanup => do
    onMemory (mapCleanup fuel)
    pure .done

end Egos.Libc.Map
