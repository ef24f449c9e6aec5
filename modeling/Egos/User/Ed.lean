import Egos.Disk.Store
import Egos.Lib.Bytes
import Egos.Lib.Program
import Mathlib.Data.Int.Init

/-!
# The line editor

`ed.c`: how a command line is parsed, and what each command does to the lines. What is printed is
left out. A line is as `fgets` gives it, up to its first NUL.
-/
namespace Egos.Ed

open Egos.Lib Egos.Disk

set_option autoImplicit false

/-- A string, without the NUL at its end. -/
abbrev Text := List Byte

/-- `MAX_LINE_SIZE`. -/
def maxLineSize : Nat := 4096

def chr (c : Char) : Byte := BitVec.ofNat 8 c.toNat

/-- The bytes of a text. -/
def ascii (s : String) : Text := s.toList.map chr

/-- The value of an `int`. -/
def wrap (x : Int) : Int := x.bmod (2 ^ 32)

/-- The value of a `long`. -/
def wrapLong (x : Int) : Int := x.bmod (2 ^ 64)

/-! ## What is used of the library -/

def isblank (c : Byte) : Bool := c == chr ' ' || c == chr '\t'

def isspace (c : Byte) : Bool := c == chr ' ' || 9 ≤ c.toNat && c.toNat ≤ 13

def isdigit (c : Byte) : Bool := (chr '0').toNat ≤ c.toNat && c.toNat ≤ (chr '9').toNat

def isupper (c : Byte) : Bool := (chr 'A').toNat ≤ c.toNat && c.toNat ≤ (chr 'Z').toNat

def islower (c : Byte) : Bool := (chr 'a').toNat ≤ c.toNat && c.toNat ≤ (chr 'z').toNat

def isalnum (c : Byte) : Bool := isdigit c || isupper c || islower c

/-- The digits of `strtol`: their value behind that of those before, and what follows. -/
def strtolDigits (base : Int) : (s : Text) → (n : Int) → Int × Text
  | [], n => (n, [])
  | c :: s, n =>
    if (if base > 10 then isalnum c else isdigit c) then
      let n := wrapLong (n * base)
      let n :=
        if isdigit c then wrapLong (n + (c.toNat - (chr '0').toNat))
        else if islower c then wrapLong (n + (c.toNat - (chr 'a').toNat + 10))
        else if isupper c then wrapLong (n + (c.toNat - (chr 'A').toNat + 10))
        else n
      strtolDigits base s n
    else (n, c :: s)

/-- `strtol` for base 0. -/
def strtol (s : Text) : Int × Text :=
  let s := s.dropWhile isspace
  let sign : Int := if s.head? = some (chr '-') then -1 else 1
  let s := if s.head? = some (chr '+') ∨ s.head? = some (chr '-') then s.tail else s
  let (n, s) :=
    if s.head? = some (chr '0') then
      if s.tail.head? = some (chr 'x') ∨ s.tail.head? = some (chr 'X') then
        strtolDigits 16 s.tail.tail 0
      else strtolDigits 8 s.tail 0
    else strtolDigits 10 s 0
  (wrapLong (sign * n), s)

/-- Whether `strstr` finds the pattern: never in an empty string. -/
def strstr : (s : Text) → (pattern : Text) → Bool
  | [], _ => false
  | c :: s, pattern => pattern.isPrefixOf (c :: s) || strstr s pattern

/-! ## The lines -/

structure Editor where
  /-- the block that `lines` points to; `none` is no pointer -/
  lines : List (Option Nat)
  nlines : Int
  curline : Int
  modified : Bool
  lastPattern : Text
  error : Text
  /-- what the pointers that `malloc` has returned point to, `none` after a `free` -/
  heap : List (Option Text)
  /-- the file, as last saved -/
  saved : Text
  /-- the indices of all accesses to `lines[]`, with `nlines` at that time -/
  accesses : List (Int × Int)

abbrev EdM := EStateM Stop Editor

/-- An access to `lines[i]`. -/
def touch (i : Int) : EdM Unit := do
  modify fun e => { e with accesses := e.accesses ++ [(i, e.nlines)] }
  if i < 0 ∨ ((← get).lines.length : Int) ≤ i then
    throw .undefined

def getLine (i : Int) : EdM (Option Nat) := do
  touch i
  return (← get).lines.getD i.toNat none

/-- The string at a pointer. -/
def deref : (p : Option Nat) → EdM Text
  | none => throw .undefined
  | some p => do
    match (← get).heap[p]? with
    | some (some text) => return text
    | _ => throw .undefined

def free : (p : Option Nat) → EdM Unit
  | none => throw .undefined
  | some p => do
    match (← get).heap[p]? with
    | some (some _) => modify fun e => { e with heap := e.heap.set p none }
    | _ => throw .undefined

/-- The accesses to `lines[start]` and the pointers behind it, `n` in all. -/
def touchedFrom (start n nlines : Int) : List (Int × Int) :=
  (List.range n.toNat).map fun (i : Nat) => (start + (i : Int), nlines)

/-- `memmove(&lines[dst], &lines[src], n * sizeof(char *))`. -/
def memmove (dst src n : Int) : EdM Unit := do
  modify fun e => { e with
    accesses := e.accesses ++ touchedFrom src n e.nlines ++ touchedFrom dst n e.nlines }
  let size : Int := (← get).lines.length
  if n < 0 ∨ 0 < n ∧ (src < 0 ∨ dst < 0 ∨ size < src + n ∨ size < dst + n) then
    throw .undefined
  modify fun e => { e with
    lines := e.lines.take dst.toNat ++ (e.lines.drop src.toNat).take n.toNat ++
      e.lines.drop (dst + n).toNat }

/-- `lines = realloc(lines, n * sizeof(char *))`. -/
def realloc (n : Int) : EdM Unit := do
  if n < 0 then
    throw .undefined
  modify fun e => { e with
    lines := e.lines.take n.toNat ++ List.replicate (n.toNat - e.lines.length) none }

def insert (line : Text) : EdM Unit := do
  let copy := (← get).heap.length
  modify fun e => { e with heap := e.heap ++ [some line] }
  realloc ((← get).nlines + 1)
  modify fun e => { e with nlines := e.nlines + 1 }
  let e ← get
  memmove (e.curline + 1) e.curline (e.nlines - e.curline - 1)
  touch e.curline
  modify fun e => { e with lines := e.lines.set e.curline.toNat (some copy) }

def print (start end_ : Int) : EdM Unit := do
  let e ← get
  if e.nlines = 0 ∨ start ≥ e.nlines ∨ start > end_ then
    return
  let end_ := if end_ ≥ e.nlines then e.nlines - 1 else end_
  (List.range (end_ - start + 1).toNat).forM fun (i : Nat) => do
    let _ ← deref (← getLine (start + (i : Int)))
    return
  modify fun e => { e with curline := end_ }

/-- `save`, where `fopen` succeeds if the file is `writable`. -/
def save (writable : Bool) : EdM Unit := do
  if (← get).modified = false then
    return
  if writable = false then
    return
  let saved ← (List.range (← get).nlines.toNat).foldlM (fun (saved : Text) (i : Nat) => do
    let text ← deref (← getLine (i : Int))
    return saved ++ text) []
  modify fun e => { e with saved := saved, modified := false }

/-! ## Command lines -/

def skipBlanks (line : Text) : Text := line.dropWhile isblank

/-- `sprintf(error, …)`. -/
def sprintf (message : Text) : EdM Unit := do
  if maxLineSize ≤ message.length then
    throw .undefined
  modify fun e => { e with error := message }

/-- The loop of `findPattern`: the line that it finds, and whether it was beyond the last. -/
def searchLines (pattern : Text) : (left : Nat) → (i : Int) → (beyond : Bool) →
    EdM (Option (Int × Bool))
  | 0, _, _ => return none
  | left + 1, i, beyond => do
    let e ← get
    let j := (e.curline + i).tmod e.nlines
    let text ← deref (← getLine j)
    if strstr text pattern then
      return some (j, beyond)
    searchLines pattern left (i + 1) (beyond || j == e.nlines - 1)

/-- The search of `findPattern`, with a message if it fails or has wrapped around; `line` is what
follows the pattern. -/
def search (pattern line : Text) : EdM (Text × Option Int) := do
  match ← searchLines pattern (← get).nlines.toNat 0 false with
  | some (j, beyond) =>
    if beyond ∧ (← get).error = [] then
      sprintf (ascii "wrapped around finding '" ++ pattern ++ ascii "'")
    return (line, some j)
  | none =>
    sprintf (ascii "pattern '" ++ pattern ++ ascii "' not found")
    return (line, none)

/-- `findPattern`: what follows the pattern, and the position. -/
def findPattern (line : Text) : EdM (Text × Option Int) := do
  let pattern := line.takeWhile fun c => c != chr '/' && c != chr '\n'
  let line := (line.drop pattern.length).tail
  if pattern = [] then
    search (← get).lastPattern line
  else
    modify fun e => { e with lastPattern := pattern }
    search pattern line

/-- An offset behind a position. -/
def parseOffset (line : Text) (pos : Int) : EdM (Text × Option Int) := do
  let line := skipBlanks line
  if line.head? = some (chr '-') ∨ line.head? = some (chr '+') then
    let (r, line) := strtol line
    let pos := wrap (pos + r)
    let nlines := (← get).nlines
    return (line, some (if pos < 0 then 0 else if pos > nlines then nlines else pos))
  else
    return (line, some pos)

/-- `parsePosition`: what follows the position, and the position. -/
def parsePosition (line : Text) : EdM (Text × Option Int) := do
  let line := skipBlanks line
  if line.head? = some (chr '/') then
    match ← findPattern line.tail with
    | (line, none) => return (line, none)
    | (line, some pos) => parseOffset line pos
  else if line.head? = some (chr '$') ∨ line.head? = some (chr '.') then
    let e ← get
    let pos := if line.head? = some (chr '$') then e.nlines - 1 else e.curline
    parseOffset line.tail (if pos < 0 then 0 else pos)
  else if line.head?.any isdigit then
    let (r, line) := strtol line
    return (line, some (if r = 0 then 0 else wrap (r - 1)))
  else
    return (line, none)

/-- The positions of a command line, where `start` and `end` are uninitialised before. -/
def parseRange (line : Text) (start end_ : Int) : EdM (Text × Int × Int) := do
  let e ← get
  if line.head? = some (chr 'g') then
    return (line.tail, 0, e.nlines - 1)
  else if line.head? = some (chr 'z') then
    return (line.tail, e.curline + 1, e.curline + 10)
  else if line.head? = some (chr '\n') then
    if e.curline ≠ e.nlines then
      return (line, e.curline + 1, e.curline + 1)
    else
      return (line, start, end_)
  else
    match ← parsePosition line with
    | (line, none) => return (line, (← get).curline, (← get).curline)
    | (line, some start) =>
      modify fun e => { e with curline := start }
      let line := skipBlanks line
      if line.head? = some (chr 'z') then
        let end_ := wrap (start + 9)
        return (line.tail, start, if end_ > e.nlines then e.nlines else end_)
      else if line.head? = some (chr ',') then
        match ← parsePosition line.tail with
        | (line, none) => return (line, start, start)
        | (line, some end_) => return (line, start, end_)
      else
        return (line, start, start)

/-- What `parse` makes of a line. -/
structure Parsed where
  start : Int
  end_ : Int
  cmd : Byte

/-- A position within bounds. -/
def clamp (nlines pos : Int) : Int :=
  let pos := if pos ≥ nlines then nlines else pos
  if pos < 0 then 0 else pos

def parse (line : Text) (start end_ : Int) : EdM Parsed := do
  modify fun e => { e with error := [] }
  let (line, start, end_) ← parseRange (skipBlanks line) start end_
  let line := skipBlanks line
  let e ← get
  return {
    start := clamp e.nlines start
    end_ := clamp e.nlines end_
    cmd := if e.error = [] then line.head?.getD 0 else chr 'p' }

/-! ## Commands -/

/-- A pass of the loop of `main`, with what it gets from outside. -/
structure Command where
  /-- the line, `none` at the end of the input -/
  line : Option Text
  /-- what `readInput` gets up to the next end of the input -/
  input : List Text
  /-- what lies in `start` and `end` -/
  start : Int
  end_ : Int
  /-- whether the file can be opened for writing -/
  writable : Bool

/-- The lines are inserted before the current one. -/
def readLines (input : List Text) : EdM Unit :=
  input.forM fun line => do
    insert line
    modify fun e => { e with curline := e.curline + 1 }

def readInput (input : List Text) : EdM Unit := do
  readLines input
  if input ≠ [] then
    modify fun e => { e with modified := true }

/-- The commands `d` and `c`, before the input of the latter. -/
def delete (start end_ : Int) : EdM Unit := do
  (List.range (end_ - start + 1).toNat).forM fun (i : Nat) => do
    free (← getLine (start + (i : Int)))
  memmove start (end_ + 1) ((← get).nlines - end_ + 1)
  modify fun e => { e with
    nlines := e.nlines - (end_ - start + 1)
    modified := true
    curline := start }

/-- The command `-`. -/
def previous : EdM Unit := do
  let e ← get
  let curline := if e.curline > 0 then e.curline - 1 else e.curline
  modify fun e => { e with curline := curline }
  print curline curline

/-- The command, and whether the editor goes on. -/
def execute (c : Command) (p : Parsed) : EdM Bool := do
  if p.cmd = chr '\n' ∨ p.cmd = 0 ∨ p.cmd = chr 'p' then
    print p.start p.end_
    return true
  else if p.cmd = chr 'd' then
    delete p.start p.end_
    return true
  else if p.cmd = chr 'c' then
    delete p.start p.end_
    readInput c.input
    return true
  else if p.cmd = chr '-' then
    previous
    return true
  else if p.cmd = chr 'i' then
    modify fun e => { e with curline := p.start }
    readInput c.input
    return true
  else if p.cmd = chr 'a' then
    modify fun e => { e with curline := if p.end_ + 1 > e.nlines then e.nlines else p.end_ + 1 }
    readInput c.input
    return true
  else if p.cmd = chr 'w' then
    save c.writable
    return true
  else if p.cmd = chr 'q' then
    return (← get).modified
  else
    return decide (p.cmd ≠ chr 'Q')

def command (c : Command) : EdM Bool := do
  match c.line with
  | none =>
    let curline := (← get).curline
    execute c { start := curline, end_ := curline, cmd := chr 'q' }
  | some line => execute c (← parse line c.start c.end_)

/-- The commands are carried out one after the other, until one ends the editor. -/
def session : List Command → EdM Unit
  | [] => return
  | c :: commands => do
    if ← command c then
      session commands

def started : Editor where
  lines := []
  nlines := 0
  curline := 0
  modified := false
  lastPattern := []
  error := []
  heap := []
  saved := []
  accesses := []

/-- The lines of the file, if it can be opened. -/
def load : (file : Option (List Text)) → EdM Unit
  | none => modify fun e => { e with modified := true }
  | some lines => readLines lines

def main (file : Option (List Text)) (commands : List Command) : EdM Unit := do
  load file
  session commands

end Egos.Ed
