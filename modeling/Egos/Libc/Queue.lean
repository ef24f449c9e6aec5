import Egos.Disk.Store
import Egos.Lib.Chains
import Egos.Lib.Simulation

/-!
# `queue.c`

All queues have their elements in one heap. `last` points to the link that the next element is put
into: that of the last element, or `first`.
-/
namespace Egos.Libc.Queues

open Egos.Disk (Stop)
open Egos.Lib

set_option autoImplicit false

variable {w : Nat}

/-- `struct element`; an item is a pointer, of `w` bits. -/
structure Element (w : Nat) where
  next : Option Nat
  item : BitVec w

/-- What `last` points to. -/
inductive Link where
  | first
  | next (e : Nat)
  deriving DecidableEq

/-- `struct queue` -/
structure Queue where
  first : Option Nat
  last : Link
  nelts : BitVec 32

structure Memory (w : Nat) where
  heap : Heap (Element w)
  queue : Nat → Queue

abbrev Program (w : Nat) := EStateM Stop (Memory w)

abbrev Allocator (w : Nat) := Heap.Allocator (Element w)

def queue (i : Nat) : Program w Queue := do
  return (← get).queue i

def setQueue (i : Nat) (f : Queue → Queue) : Program w Unit :=
  modify fun m => { m with queue := Function.update m.queue i (f (m.queue i)) }

def element (e : Nat) : Program w (Element w) := do
  match (← get).heap.cell e with
  | none => throw .undefined
  | some x => return x

def setElement (e : Nat) (x : Element w) : Program w Unit := do
  let _ ← element e
  modify fun m => { m with heap := m.heap.update e (some x) }

/-- `calloc(1, sizeof(struct element))` -/
def newElement (alloc : Allocator w) : Program w Nat := do
  let m ← get
  let e := alloc.choose m.heap
  set { m with heap := m.heap.update e (some ⟨none, 0⟩) }
  return e

def free (e : Nat) : Program w Unit := do
  let _ ← element e
  modify fun m => { m with heap := m.heap.update e none }

def assert (condition : Bool) : Program w Unit :=
  if condition then pure () else throw .assert

def queueInit (i : Nat) : Program w Unit :=
  setQueue i fun _ => { first := none, last := .first, nelts := 0 }

def queueInsert (alloc : Allocator w) (i : Nat) (item : BitVec w) : Program w Unit := do
  let e ← newElement alloc
  setElement e { next := none, item := item }
  if (← queue i).first = none then
    setQueue i fun q => { q with last := .next e }
  setElement e { next := (← queue i).first, item := item }
  setQueue i fun q => { q with first := some e }
  setQueue i fun q => { q with nelts := q.nelts + 1 }

def queueAdd (alloc : Allocator w) (i : Nat) (item : BitVec w) : Program w Unit := do
  let e ← newElement alloc
  setElement e { next := none, item := item }
  match (← queue i).last with
  | .first => setQueue i fun q => { q with first := some e }
  | .next a => setElement a { (← element a) with next := some e }
  setQueue i fun q => { q with last := .next e }
  setQueue i fun q => { q with nelts := q.nelts + 1 }

def queueAddUint (alloc : Allocator w) (i : Nat) (item : BitVec 32) : Program w Unit :=
  queueAdd alloc i (item.setWidth w)

/-- `queue_tget` -/
def queueTget (i : Nat) : Program w (Option (BitVec w)) := do
  match (← queue i).first with
  | none => return none
  | some e =>
    let x ← element e
    setQueue i fun q => { q with first := x.next }
    if x.next = none then
      setQueue i fun q => { q with last := .first }
    free e
    setQueue i fun q => { q with nelts := q.nelts - 1 }
    return some x.item

/-- `queue_get`: the null pointer if there is no item. -/
def queueGet (i : Nat) : Program w (BitVec w) := do
  match ← queueTget i with
  | none => return 0
  | some item => return item

def queueGetUint (i : Nat) : Program w (Option (BitVec 32)) := do
  match ← queueTget i with
  | none => return none
  | some item => return some (item.setWidth 32)

def queueEmpty (i : Nat) : Program w Bool := do
  return decide ((← queue i).first = none)

def queueSize (i : Nat) : Program w (BitVec 32) := do
  return (← queue i).nelts

def queueRelease (i : Nat) : Program w Unit := do
  assert ((← queue i).first = none)
  assert ((← queue i).nelts = 0)

/-! ## Calls -/

/-- A call for the queue `i`. -/
inductive Call (w : Nat) where
  | init (i : Nat)
  | insert (i : Nat) (item : BitVec w)
  | add (i : Nat) (item : BitVec w)
  | addUint (i : Nat) (item : BitVec 32)
  | get (i : Nat)
  | tget (i : Nat)
  | getUint (i : Nat)
  | empty (i : Nat)
  | size (i : Nat)
  | release (i : Nat)

inductive Answer (w : Nat) where
  | done
  | item (x : BitVec w)
  | option (x : Option (BitVec w))
  | uint (x : Option (BitVec 32))
  | truth (b : Bool)
  | number (n : BitVec 32)
  deriving DecidableEq

def call (alloc : Allocator w) : Call w → Program w (Answer w)
  | .init i => do
    queueInit i
    return .done
  | .insert i item => do
    queueInsert alloc i item
    return .done
  | .add i item => do
    queueAdd alloc i item
    return .done
  | .addUint i item => do
    queueAddUint alloc i item
    return .done
  | .get i => return .item (← queueGet i)
  | .tget i => return .option (← queueTget i)
  | .getUint i => return .uint (← queueGetUint i)
  | .empty i => return .truth (← queueEmpty i)
  | .size i => return .number (← queueSize i)
  | .release i => do
    queueRelease i
    return .done

end Egos.Libc.Queues
