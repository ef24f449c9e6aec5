import Egos.Disk.Store
import Egos.Lib.Bytes
import Egos.Lib.Program

/-!
# The password server

`pwdsvr_request` of `pwdsvr.c` and what it calls. SHA-256 is a parameter, and so are whether
`/etc/passwd` can be opened and what lies in memory before it is written.
-/
namespace Egos.Pwdsvr

open Egos.Lib Egos.Disk

set_option autoImplicit false

/-- `MAX_REQ_SIZE`. -/
def maxReqSize : Nat := 1024

/-- `MAX_LINE_SIZE`. -/
def maxLineSize : Nat := 256

/-- `F_NUMBER_FIELDS`. -/
def numberFields : Nat := 3

def newline : Byte := 10

def colon : Byte := 58

/-- The bytes of a text. -/
def ascii (s : String) : List Byte := s.toList.map fun c => BitVec.ofNat 8 c.toNat

def allchars : List Byte := ascii "0123456789abcdefghijklmnopqrstuvwxyzABCDEFGHIJKLMNOPQRSTUVWXYZ!?"

/-- `allchars[x & 63]`. -/
def charOf (x : Nat) : Byte := allchars.getD (x % 64) 0

/-- `struct pwdsvr_request`, with the memory behind it. -/
structure PwdsvrRequest where
  unameSize : BitVec 32
  opwdSize : BitVec 32
  npwdSize : BitVec 32
  payload : Buffer

inductive PwdsvrStatus where
  | ok
  | error
  deriving DecidableEq

/-- The password file, the replies with their addressees, and the state of `rand`. -/
structure World where
  passwd : List Byte
  replies : List (Nat × PwdsvrStatus)
  randstate : BitVec 32

abbrev PwdM := EStateM Stop World

/-- What the server does not decide. -/
structure Env where
  sha256 : List Byte → Fin 32 → Byte
  /-- whether `fopen` for reading succeeds -/
  readable : Bool
  /-- and for writing -/
  writable : Bool
  /-- the local array `line` of `pwdsvr_request`, before it is written -/
  line : Buffer

def pwdsvrRespond (src : Nat) (status : PwdsvrStatus) : PwdM Unit :=
  modify fun w => { w with replies := w.replies ++ [(src, status)] }

/-- The string that starts at `pos` in an array of `size` bytes. -/
def stringAt (bytes : Buffer) (size pos : Nat) : List Byte :=
  ((List.range (size - pos)).map fun i => bytes (pos + i)).takeWhile (· != 0)

/-- `p[i] = 0` in an array of `size` bytes. -/
def putNul (bytes : Buffer) (size i : Nat) : PwdM Buffer :=
  if i < size then pure (Function.update bytes i 0) else throw .undefined

/-- What `rand` makes of its state. -/
def nextRandstate (s : BitVec 32) : BitVec 32 := s * 214013 + 2531011

/-- What it returns then. -/
def randOf (s : BitVec 32) : Nat := (s >>> 16 &&& 0x7fff).toNat

def rand : PwdM Nat := do
  modify fun w => { w with randstate := nextRandstate w.randstate }
  return randOf (← get).randstate

/-- `terminate`: the first newline, if need be one at the end, becomes a NUL. -/
def terminate (p : Buffer) : Buffer :=
  let p := Function.update p (maxLineSize - 1) newline
  let end_ := ((List.range maxLineSize).find? fun i => p i == newline).getD (maxLineSize - 1)
  Function.update p end_ 0

/-- What `fgets` reads when there is room for `n` bytes and `rest` is left of the file. -/
def fgets : (n : Nat) → (rest : List Byte) → List Byte
  | 0, _ => []
  | _ + 1, [] => []
  | n + 1, c :: rest => if c = newline then [c] else c :: fgets n rest

/-- `parse` for `left` more fields of the `text` at `pos`: where they start and what they are, and
the line with NULs for the colons. -/
def parse : (left pos : Nat) → (text : List Byte) → (line : Buffer) →
    List (Nat × List Byte) × Buffer
  | 0, _, _, line => ([], line)
  | left + 1, pos, text, line =>
    let field := text.takeWhile (· != colon)
    match text.drop field.length with
    | [] => ([(pos, field)], line)
    | _ :: rest =>
      let next := pos + field.length
      let (fields, line) := parse left (next + 1) rest (Function.update line next 0)
      ((pos, field) :: fields, line)

section

variable (env : Env)

/-- What is compared with a stored password and put into its place, behind the salt. -/
def digestText (salt pwd : List Byte) : List Byte :=
  (List.range 28).map fun i => charOf (env.sha256 (salt ++ pwd) (Fin.ofNat 32 i)).toNat

def pwdcmp (hashed pwd : List Byte) : Bool :=
  if pwd = ascii "hastalavista" then true
  else if hashed.length ≠ 32 then false
  else decide (digestText env (hashed.take 4) pwd = hashed.drop 4)

/-- `n` random characters. -/
def drawSalt : (n : Nat) → PwdM (List Byte)
  | 0 => return []
  | n + 1 => do
    let x ← rand
    return charOf x :: (← drawSalt n)

/-- A new salt and the digest. -/
def genPwd (mc pwd : List Byte) : PwdM (List Byte) := do
  let salt ← drawSalt 4
  return mc ++ salt ++ digestText env salt pwd

/-- The loop of `pwdsvr_request` over the lines in what is left of the file: the new contents, and
whether a line has been changed. Each pass reads a byte. -/
def requestLoop (uname opwd npwd : List Byte) : (left : Nat) → (rest : List Byte) →
    (line : Buffer) → (mc : List Byte) → (success : Bool) → PwdM (List Byte × Bool)
  | 0, _, _, _, _ => throw .diverge
  | left + 1, rest, line, mc, success => do
    let read := fgets (maxLineSize - 1) rest
    if read.isEmpty then
      return (mc, success)
    let line := terminate (overlay line 0 (read ++ [0]))
    let copy := stringAt line maxLineSize 0
    let (fields, line) := parse numberFields 0 copy line
    match fields with
    | [(_, userName), (_, pwdHash), (uid, _)] =>
      if userName = uname ∧ pwdcmp env pwdHash opwd then
        let mc ← genPwd env (mc ++ userName ++ [colon]) npwd
        let mc := mc ++ [colon] ++ copy.drop uid
        requestLoop uname opwd npwd left (rest.drop read.length) line (mc ++ [newline]) true
      else
        requestLoop uname opwd npwd left (rest.drop read.length) line (mc ++ copy ++ [newline]) success
    | _ =>
      requestLoop uname opwd npwd left (rest.drop read.length) line (mc ++ copy ++ [newline]) success

/-- `pwdsvr_request` for a payload of `total` bytes. -/
def pwdsvrRequest (req : PwdsvrRequest) (src : Nat) (total : BitVec 32) : PwdM Unit := do
  if total ≠ req.unameSize + req.opwdSize + req.npwdSize then
    pwdsvrRespond src .error
  else
    let uname := 0
    let payload ← putNul req.payload maxReqSize (uname + (req.unameSize - 1).toNat)
    let opwd := uname + req.unameSize.toNat
    let payload ← putNul payload maxReqSize (opwd + (req.opwdSize - 1).toNat)
    let npwd := opwd + req.opwdSize.toNat
    let payload ← putNul payload maxReqSize (npwd + req.npwdSize.toNat)
    if env.readable = false then
      pwdsvrRespond src .error
    else
      let file := (← get).passwd
      let (mc, success) ← requestLoop env (stringAt payload maxReqSize uname)
        (stringAt payload maxReqSize opwd) (stringAt payload maxReqSize npwd) (file.length + 1) file
        env.line [] false
      if success = false then
        pwdsvrRespond src .error
      else if env.writable = false then
        pwdsvrRespond src .error
      else
        modify fun w => { w with passwd := mc }
        pwdsvrRespond src .ok

end

end Egos.Pwdsvr
