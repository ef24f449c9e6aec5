import Egos.Grass.Spawnsvr

/-!
# The arguments of a new process

`spawn_load_args` of `spawn.c` on a 64-bit machine, and the memory of the process once `user_proc`
has copied the block. Positions in the block are counted from its start.
-/
namespace Egos.Spawn

open Egos.Lib Egos.Disk Egos.Earth
open Egos.Spawnsvr (SpawnRequest UserProcess grassEnvSize userProc)

set_option autoImplicit false

/-- `ALIGNMENT`. -/
def alignment : Nat := 16

/-- `sizeof(char *)`. -/
def pointerSize : Nat := 8

/-- A string of C, without its NUL. -/
structure CString where
  chars : List Byte
  noNul : 0 ∉ chars

/-- The string with its NUL. -/
def CString.stored (s : CString) : List Byte := s.chars ++ [0]

/-- `struct grass_env`. -/
abbrev GrassEnv := {bytes : List Byte // bytes.length = grassEnvSize}

/-! Where its members lie. -/

def selfAt : Nat := 0
def argcAt : Nat := 56
def argvAt : Nat := 64
def envpAt : Nat := 72

/-- `GRASS_ENV`. -/
def grassEnv : Nat := virtTop - 16 - grassEnvSize

/-- `&GRASS_ENV[1]`. -/
def grassEnvEnd : Nat := virtTop - 16

/-- The size of the block, in unsigned arithmetic. -/
def totalSize (args : List CString) : Nat :=
  let total := ((args.length + 1) * pointerSize + grassEnvSize) % 2 ^ 32
  let total := args.foldl (fun total arg => (total + arg.stored.length) % 2 ^ 32) total
  let rem := total % alignment
  if 0 < rem then (total + (alignment - rem)) % 2 ^ 32 else total

/-- The loop that fills in the block, with the null pointer behind it. -/
def fillArgs : (args : List CString) → (argb : Buffer) → (v1 s1 s2 : Nat) → Buffer
  | [], argb, v1, _, _ => store argb v1 pointerSize 0
  | arg :: args, argb, v1, s1, s2 =>
    let len := arg.stored.length
    fillArgs args (store (overlay argb s1 arg.stored) v1 pointerSize s2)
      (v1 + pointerSize) (s1 + len) (s2 + len)

/-- The assignments to the environment at `ge`. -/
def loadEnv (argb : Buffer) (ge : Nat) (geInit : GrassEnv) (argc v2 : Nat) : Buffer :=
  let argb := overlay argb ge geInit.val
  let argb := store argb (ge + argcAt) 4 argc
  let argb := store argb (ge + argvAt) pointerSize v2
  store argb (ge + envpAt) pointerSize 0

/-- The block before the loop, cleared by `calloc`, with the environment at its end. -/
def newBlock (heap : Buffer) (geInit : GrassEnv) (args : List CString) : Buffer :=
  let total := totalSize args
  loadEnv (overlay heap 0 (List.replicate total 0)) (total - grassEnvSize) geInit args.length
    (grassEnvEnd - total)

/-- `spawn_load_args`: the memory from the start of the block on, and the size of the block. -/
def spawnLoadArgs (heap : Buffer) (geInit : GrassEnv) (args : List CString) : Buffer × Nat :=
  let total := totalSize args
  let array := (args.length + 1) * pointerSize
  (fillArgs args (newBlock heap geInit args) 0 array (grassEnvEnd - total + array), total)

/-- The bytes that are passed on. -/
def block (b : Buffer × Nat) : List Byte := (List.range b.2).map b.1

/-- `user_sp`. -/
def userSp (req : SpawnRequest) : Nat := grassEnvEnd - req.size.toNat

/-- The memory of the process after the `copy_user` of `user_proc`. -/
def copied (mem : Buffer) (req : SpawnRequest) (p : UserProcess) : Buffer :=
  overlay mem (userSp req) (p.args.take req.size.toNat)

/-! ## What a process finds -/

/-- The bytes that the strings take. -/
def textSize (args : List CString) : Nat := (args.map (·.stored.length)).sum

/-- The size of the block, if it did not wrap and without the padding. -/
def rawSize (args : List CString) : Nat :=
  (args.length + 1) * pointerSize + grassEnvSize + textSize args

def StringAt (mem : Buffer) (pos : Nat) (s : CString) : Prop :=
  ∀ k, k < s.stored.length → mem (pos + k) = s.stored.getD k 0

/-- `argv[i]`. -/
def argument (mem : Buffer) (argv i : Nat) : Nat := load mem (argv + pointerSize * i) pointerSize

/-- An array of pointers to the strings, which lie behind it and before `stop`. -/
structure Arguments (mem : Buffer) (argv stop : Nat) (args : List CString) : Prop where
  null : argument mem argv args.length = 0
  strings : ∀ i (h : i < args.length), StringAt mem (argument mem argv i) args[i]
  behind : ∀ i, i < args.length →
    argv + (args.length + 1) * pointerSize ≤ argument mem argv i
  before : ∀ i (h : i < args.length), argument mem argv i + args[i].stored.length ≤ stop
  apart : ∀ i j (hij : i < j) (hj : j < args.length),
    argument mem argv i + args[i].stored.length ≤ argument mem argv j

/-- The members of the environment that are set for the new process. -/
def Replaced (i : Nat) : Prop :=
  i < selfAt + 4 ∨ (argcAt ≤ i ∧ i < argcAt + 4) ∨ (argvAt ≤ i ∧ i < envpAt + pointerSize)

/-- The environment of the process `pid`, and the arguments between `start` and it. -/
structure Equipped (mem : Buffer) (start : Nat) (pid : BitVec 32) (env : GrassEnv)
    (args : List CString) : Prop where
  self : load mem (grassEnv + selfAt) 4 = pid.toNat
  argc : load mem (grassEnv + argcAt) 4 = args.length
  envp : load mem (grassEnv + envpAt) pointerSize = 0
  kept : ∀ i, i < grassEnvSize → ¬ Replaced i → mem (grassEnv + i) = env.val.getD i 0
  start_le : start ≤ load mem (grassEnv + argvAt) pointerSize
  array_le : load mem (grassEnv + argvAt) pointerSize + (args.length + 1) * pointerSize ≤ grassEnv
  argv : Arguments mem (load mem (grassEnv + argvAt) pointerSize) grassEnv args

/-! ## The size -/

theorem textSize_cons (arg : CString) (args : List CString) :
    textSize (arg :: args) = arg.stored.length + textSize args := by
  simp [textSize]

theorem textSize_append (args args' : List CString) :
    textSize (args ++ args') = textSize args + textSize args' := by
  simp [textSize]

theorem textSize_take_succ {args : List CString} {i : Nat} (hi : i < args.length) :
    textSize (args.take (i + 1)) = textSize (args.take i) + args[i].stored.length := by
  rw [List.take_succ_eq_append_getElem hi, textSize_append]
  simp [textSize]

theorem textSize_take_le (args : List CString) {i j : Nat} (hij : i ≤ j) :
    textSize (args.take i) ≤ textSize (args.take j) := by
  obtain ⟨rest, hrest⟩ := List.take_prefix_take_left (l := args) hij
  rw [← hrest, textSize_append]
  exact Nat.le_add_right _ _

theorem foldl_stored {args : List CString} : ∀ {total : Nat}, total + textSize args < 2 ^ 32 →
    args.foldl (fun total arg => (total + arg.stored.length) % 2 ^ 32) total =
      total + textSize args := by
  induction args with
  | nil =>
    intro total _
    simp [textSize]
  | cons arg args ih =>
    intro total h
    rw [textSize_cons] at h ⊢
    rw [List.foldl_cons, Nat.mod_eq_of_lt (by omega), ih (by omega), Nat.add_assoc]

/-- What a size that does not wrap comes to. -/
structure Rounded (raw total : Nat) : Prop where
  le : raw ≤ total
  lt : total < raw + alignment
  dvd : alignment ∣ total

theorem totalSize_rounded {args : List CString} (h : rawSize args < 2 ^ 31) :
    Rounded (rawSize args) (totalSize args) := by
  have hfold : args.foldl (fun total arg => (total + arg.stored.length) % 2 ^ 32)
      (((args.length + 1) * pointerSize + grassEnvSize) % 2 ^ 32) = rawSize args := by
    unfold rawSize at h ⊢
    rw [Nat.mod_eq_of_lt (by omega), foldl_stored (by omega)]
  have halign : alignment = 16 := rfl
  unfold totalSize
  dsimp only
  rw [hfold]
  split
  · rw [Nat.mod_eq_of_lt (by omega)]
    constructor
    · omega
    · omega
    · rw [halign]
      omega
  · constructor
    · exact Nat.le_refl _
    · omega
    · exact Nat.dvd_of_mod_eq_zero (by omega)

/-! ## The loop -/

section

variable {args : List CString} {argb : Buffer} {v1 s1 s2 : Nat}

theorem argument_succ (mem : Buffer) (argv i : Nat) :
    argument mem argv (i + 1) = argument mem (argv + pointerSize) i := by
  unfold argument
  rw [Nat.mul_add_one, Nat.add_comm _ pointerSize, ← Nat.add_assoc]

/-- The loop writes the pointers and the strings only. -/
theorem fillArgs_outside {k : Nat} : ∀ {argb : Buffer} {v1 s1 s2 : Nat},
    (k < v1 ∨ (v1 + (args.length + 1) * pointerSize ≤ k ∧ k < s1) ∨ s1 + textSize args ≤ k) →
    v1 + (args.length + 1) * pointerSize ≤ s1 → fillArgs args argb v1 s1 s2 k = argb k := by
  have hsize : pointerSize = 8 := rfl
  induction args with
  | nil =>
    intro argb v1 s1 s2 hk hroom
    rw [hsize] at hk hroom
    exact store_outside (by simp only [List.length_nil] at hk hroom; omega)
  | cons arg args ih =>
    intro argb v1 s1 s2 hk hroom
    rw [textSize_cons] at hk
    rw [List.length_cons, hsize] at hk hroom
    rw [fillArgs]
    rw [ih (by rw [hsize]; omega) (by rw [hsize]; omega), store_outside (by omega),
      overlay_outside (by omega)]

theorem fillArgs_argument {k : Nat} (hk : k < args.length) (hs2 : s2 + textSize args < 2 ^ 64)
    (hroom : v1 + (args.length + 1) * pointerSize ≤ s1) :
    argument (fillArgs args argb v1 s1 s2) v1 k = s2 + textSize (args.take k) := by
  have hsize : pointerSize = 8 := rfl
  induction args generalizing argb v1 s1 s2 k with
  | nil => exact absurd hk (Nat.not_lt_zero _)
  | cons arg args ih =>
    rw [textSize_cons] at hs2
    rw [List.length_cons, hsize] at hroom
    rw [fillArgs]
    cases k with
    | zero =>
      -- the pointer is written now, and outlives the turns that follow
      have hput : argument (store (overlay argb s1 arg.stored) v1 pointerSize s2) v1 0 = s2 :=
        load_store_of_lt (show s2 < 256 ^ 8 by omega)
      refine Eq.trans (load_congr fun i hi => fillArgs_outside ?_ ?_) hput
      · omega
      · rw [hsize]
        omega
    | succ k =>
      rw [List.take_succ_cons, textSize_cons, ← Nat.add_assoc, argument_succ]
      exact ih (Nat.lt_of_succ_lt_succ hk) (by omega) (by rw [hsize]; omega)

theorem fillArgs_null (hroom : v1 + (args.length + 1) * pointerSize ≤ s1) :
    argument (fillArgs args argb v1 s1 s2) v1 args.length = 0 := by
  have hsize : pointerSize = 8 := rfl
  induction args generalizing argb v1 s1 s2 with
  | nil => exact load_store_of_lt (by decide)
  | cons arg args ih =>
    rw [List.length_cons, hsize] at hroom
    rw [List.length_cons]
    rw [fillArgs]
    rw [argument_succ]
    exact ih (by rw [hsize]; omega)

theorem fillArgs_string {k : Nat} (hk : k < args.length)
    (hroom : v1 + (args.length + 1) * pointerSize ≤ s1) :
    StringAt (fillArgs args argb v1 s1 s2) (s1 + textSize (args.take k)) args[k] := by
  have hsize : pointerSize = 8 := rfl
  induction args generalizing argb v1 s1 s2 k with
  | nil => exact absurd hk (Nat.not_lt_zero _)
  | cons arg args ih =>
    rw [List.length_cons, hsize] at hroom
    rw [fillArgs]
    cases k with
    | zero =>
      intro i hi
      rw [List.take_zero]
      change i < arg.stored.length at hi
      change fillArgs args _ _ _ _ (s1 + 0 + i) = arg.stored.getD i 0
      rw [Nat.add_zero, fillArgs_outside (by rw [hsize]; omega) (by rw [hsize]; omega),
        store_outside (by omega), overlay_inside hi]
    | succ k =>
      rw [List.take_succ_cons, textSize_cons, ← Nat.add_assoc]
      exact ih (Nat.lt_of_succ_lt_succ hk) (by rw [hsize]; omega)

end

/-! ## The environment -/

section

variable {argb : Buffer} {ge argc v2 : Nat} {env : GrassEnv}

theorem loadEnv_outside {k : Nat} (hk : k < ge ∨ ge + grassEnvSize ≤ k) :
    loadEnv argb ge env argc v2 k = argb k := by
  have hlen := env.property
  have hsize : grassEnvSize = 136 := rfl
  have hpointer : pointerSize = 8 := rfl
  have hargc : argcAt = 56 := rfl
  have hargv : argvAt = 64 := rfl
  have henvp : envpAt = 72 := rfl
  unfold loadEnv
  rw [store_outside (by omega), store_outside (by omega), store_outside (by omega),
    overlay_outside (by omega)]

theorem loadEnv_kept {i : Nat} (hi : i < grassEnvSize) (hkept : ¬ Replaced i) :
    loadEnv argb ge env argc v2 (ge + i) = env.val.getD i 0 := by
  have hlen := env.property
  have hpointer : pointerSize = 8 := rfl
  have hargc : argcAt = 56 := rfl
  have hargv : argvAt = 64 := rfl
  have henvp : envpAt = 72 := rfl
  unfold Replaced at hkept
  unfold loadEnv
  rw [store_outside (by omega), store_outside (by omega), store_outside (by omega),
    overlay_inside (by omega)]

theorem loadEnv_argc (h : argc < 2 ^ 32) :
    load (loadEnv argb ge env argc v2) (ge + argcAt) 4 = argc := by
  unfold loadEnv
  rw [load_store_of_disjoint (.inl (by unfold argcAt envpAt; omega)),
    load_store_of_disjoint (.inl (by unfold argcAt argvAt; omega)), load_store_of_lt h]

theorem loadEnv_argv (h : v2 < 2 ^ 64) :
    load (loadEnv argb ge env argc v2) (ge + argvAt) pointerSize = v2 := by
  unfold loadEnv
  rw [load_store_of_disjoint (.inl (by unfold argvAt envpAt pointerSize; omega)),
    load_store_of_lt h]

theorem loadEnv_envp : load (loadEnv argb ge env argc v2) (ge + envpAt) pointerSize = 0 :=
  load_store_of_lt (by decide)

end

/-! ## The process -/

theorem userProc_args {pid : Nat} {req : SpawnRequest} {args : List Byte}
    {reply : Option (List Byte)} {p : UserProcess} (h : userProc pid req args reply = .ok (some p)) :
    p.args = args.take (args.length - grassEnvSize) ++ Grass.wordBytes pid ++
      args.drop (args.length - grassEnvSize + 4) := by
  unfold userProc at h
  split at h
  · cases h
  · split at h
    · cases h
    · dsimp only at h
      split at h
      · cases h
      · split at h
        · cases h
        · split at h
          · cases h
          · cases h
            rfl

theorem userProc_started {pid : Nat} {req : SpawnRequest} {args data : List Byte}
    {reply : Option (List Byte)} (hargs : grassEnvSize ≤ args.length)
    (hread : Spawnsvr.fileRead reply Spawnsvr.headerSize = some data)
    (hlen : data.length = Spawnsvr.headerSize)
    (hhdr : Spawnsvr.Acceptable (.ofMemory fun i => data.getD i 0)) :
    ∃ p, userProc pid req args reply = .ok (some p) := by
  obtain ⟨hpos, hmax⟩ := hhdr
  unfold userProc
  rw [hread]
  simp only [hlen, Nat.pos_iff_ne_zero.mp hpos, Nat.not_lt.mpr hmax,
    Nat.not_lt.mpr hargs, if_false]
  exact ⟨_, rfl⟩

theorem length_block (b : Buffer × Nat) : (block b).length = b.2 := by simp [block]

theorem getD_block {b : Buffer × Nat} {k : Nat} (hk : k < b.2) : (block b).getD k 0 = b.1 k := by
  simp [block, hk]

/-- The block lies in memory from `sp` on, but for the pid. -/
structure Patched (mem : Buffer) (sp pid : Nat) (b : Buffer × Nat) : Prop where
  self : ∀ i, i < 4 → mem (sp + (b.2 - grassEnvSize) + i) = byteOf pid i
  kept : ∀ k, k < b.2 → k < b.2 - grassEnvSize ∨ b.2 - grassEnvSize + 4 ≤ k →
    mem (sp + k) = b.1 k

theorem patched_copied {mem : Buffer} {pid : Nat} {req : SpawnRequest} {b : Buffer × Nat}
    {reply : Option (List Byte)} {p : UserProcess} (henv : grassEnvSize ≤ b.2)
    (hreq : req.size.toNat = b.2) (hp : userProc pid req (block b) reply = .ok (some p)) :
    Patched (copied mem req p) (userSp req) pid b := by
  have hsize : grassEnvSize = 136 := rfl
  have hargs := userProc_args hp
  rw [length_block] at hargs
  have hfront : ((block b).take (b.2 - grassEnvSize)).length = b.2 - grassEnvSize := by
    rw [List.length_take, length_block]
    omega
  have hword := Grass.length_wordBytes pid
  have hlen : p.args.length = b.2 := by
    rw [hargs, List.length_append, List.length_append, hfront, hword, List.length_drop,
      length_block]
    omega
  have hmem : ∀ k, k < b.2 → copied mem req p (userSp req + k) = p.args.getD k 0 := by
    intro k hk
    unfold copied
    rw [hreq, List.take_of_length_le (by omega), overlay_inside (by omega)]
  constructor
  · intro i hi
    rw [Nat.add_assoc, hmem _ (by omega), hargs, List.append_assoc,
      List.getD_append_right _ _ _ _ (by omega), hfront, Nat.add_sub_cancel_left,
      List.getD_append _ _ _ _ (by omega)]
    simp [Grass.wordBytes, hi]
  · intro k hk hside
    rw [hmem k hk, hargs, ← getD_block hk, List.append_assoc]
    rcases hside with hlow | hhigh
    · rw [List.getD_append _ _ _ _ (by omega)]
      simp [hlow]
    · rw [List.getD_append_right _ _ _ _ (by omega), List.getD_append_right _ _ _ _ (by omega),
        hfront, hword]
      simp only [List.getD_eq_getElem?_getD, List.getElem?_drop]
      rw [show b.2 - grassEnvSize + 4 + (k - (b.2 - grassEnvSize) - 4) = k by omega]

/-- The stack of a process lies below 2^63, with room for any size of a block. -/
theorem grassEnvEnd_bounds : 2 ^ 32 < grassEnvEnd ∧ grassEnvEnd < 2 ^ 63 := by
  unfold grassEnvEnd virtTop virtPages
  decide

section

variable {heap mem : Buffer} {env : GrassEnv} {args : List CString} {pid : Nat}

/-- The array of pointers, the strings and the environment fit in the block. -/
theorem array_text_le (hraw : rawSize args < 2 ^ 31) :
    (args.length + 1) * pointerSize + textSize args + grassEnvSize ≤ totalSize args := by
  have hle := (totalSize_rounded hraw).le
  unfold rawSize at hle
  omega

theorem spawnLoadArgs_env (hraw : rawSize args < 2 ^ 31) {k : Nat}
    (hk : totalSize args - grassEnvSize ≤ k) :
    (spawnLoadArgs heap env args).1 k = newBlock heap env args k := by
  have hfit := array_text_le hraw
  unfold spawnLoadArgs
  apply fillArgs_outside
  · omega
  · omega

theorem spawnLoadArgs_outside (hraw : rawSize args < 2 ^ 31) {k : Nat} (hk : totalSize args ≤ k) :
    (spawnLoadArgs heap env args).1 k = heap k := by
  have hfit := array_text_le hraw
  rw [spawnLoadArgs_env hraw (by omega)]
  unfold newBlock
  rw [loadEnv_outside (by omega), overlay_outside (.inr (by simpa using hk))]

/-- Where a string ends, the text does not yet. -/
theorem textSize_take_add_le {i : Nat} (hi : i < args.length) :
    textSize (args.take i) + args[i].stored.length ≤ textSize args := by
  rw [← textSize_take_succ hi]
  exact (textSize_take_le args hi).trans_eq (by rw [List.take_length])

/-- The environment of the block comes to lie at `GRASS_ENV`. -/
theorem userSp_add_env (hraw : rawSize args < 2 ^ 31) :
    grassEnvEnd - totalSize args + (totalSize args - grassEnvSize) = grassEnv := by
  have hfit := array_text_le hraw
  have hlt := (totalSize_rounded hraw).lt
  have hbounds := grassEnvEnd_bounds
  have halign : alignment = 16 := rfl
  have hsum : grassEnv = grassEnvEnd - grassEnvSize := by
    unfold grassEnv grassEnvEnd
    rfl
  omega

/-- What lies before the environment is as it was built. -/
theorem Patched.front {sp : Nat} (h : Patched mem sp pid (spawnLoadArgs heap env args))
    (hraw : rawSize args < 2 ^ 31) {k : Nat} (hk : k < totalSize args - grassEnvSize) :
    mem (sp + k) = (spawnLoadArgs heap env args).1 k := by
  have hfit := array_text_le hraw
  have hlt : k < totalSize args := by omega
  exact h.kept k hlt (.inl hk)

theorem Patched.at_env
    (h : Patched mem (grassEnvEnd - totalSize args) pid (spawnLoadArgs heap env args))
    (hraw : rawSize args < 2 ^ 31) {i : Nat} (hi : 4 ≤ i) (hi' : i < grassEnvSize) :
    mem (grassEnv + i) = newBlock heap env args (totalSize args - grassEnvSize + i) := by
  have hfit := array_text_le hraw
  have hlt : totalSize args - grassEnvSize + i < totalSize args := by omega
  rw [← spawnLoadArgs_env hraw (Nat.le_add_right _ _), ← userSp_add_env hraw, Nat.add_assoc]
  exact h.kept _ hlt (.inr (Nat.add_le_add_left hi _))

theorem Patched.load_env
    (h : Patched mem (grassEnvEnd - totalSize args) pid (spawnLoadArgs heap env args))
    (hraw : rawSize args < 2 ^ 31) {pos w : Nat} (hpos : 4 ≤ pos) (hw : pos + w ≤ grassEnvSize) :
    load mem (grassEnv + pos) w =
      load (newBlock heap env args) (totalSize args - grassEnvSize + pos) w := by
  apply load_congr
  intro i hi
  rw [Nat.add_assoc, Nat.add_assoc]
  exact h.at_env hraw (by omega) (by omega)

/-- In the process, a pointer of the array is the address of its string. -/
theorem Patched.argument
    (h : Patched mem (grassEnvEnd - totalSize args) pid (spawnLoadArgs heap env args))
    (hraw : rawSize args < 2 ^ 31) {i : Nat} (hi : i < args.length) :
    argument mem (grassEnvEnd - totalSize args) i = grassEnvEnd - totalSize args +
      ((args.length + 1) * pointerSize + textSize (args.take i)) := by
  have hfit : (args.length + 1) * 8 + textSize args + grassEnvSize ≤ totalSize args :=
    array_text_le hraw
  have hbounds := grassEnvEnd_bounds
  have hlt := (totalSize_rounded hraw).lt
  have halign : alignment = 16 := rfl
  have hpointer : pointerSize = 8 := rfl
  have hbuilt : Spawn.argument (spawnLoadArgs heap env args).1 0 i = grassEnvEnd - totalSize args +
      (args.length + 1) * pointerSize + textSize (args.take i) :=
    fillArgs_argument hi (by rw [hpointer]; omega) (by omega)
  rw [← Nat.add_assoc, ← hbuilt]
  apply load_congr
  intro k hk
  rw [Nat.add_assoc, h.front hraw (by rw [hpointer] at *; omega), Nat.zero_add]

theorem Patched.null
    (h : Patched mem (grassEnvEnd - totalSize args) pid (spawnLoadArgs heap env args))
    (hraw : rawSize args < 2 ^ 31) :
    Spawn.argument mem (grassEnvEnd - totalSize args) args.length = 0 := by
  have hfit : (args.length + 1) * 8 + textSize args + grassEnvSize ≤ totalSize args :=
    array_text_le hraw
  have hpointer : pointerSize = 8 := rfl
  have hbuilt : Spawn.argument (spawnLoadArgs heap env args).1 0 args.length = 0 :=
    fillArgs_null (by omega)
  rw [← hbuilt]
  apply load_congr
  intro k hk
  rw [Nat.add_assoc, h.front hraw (by rw [hpointer] at *; omega), Nat.zero_add]

theorem arguments_of_patched
    (h : Patched mem (grassEnvEnd - totalSize args) pid (spawnLoadArgs heap env args))
    (hraw : rawSize args < 2 ^ 31) :
    Arguments mem (grassEnvEnd - totalSize args) grassEnv args := by
  have hfit := array_text_le hraw
  have hsp := userSp_add_env hraw
  constructor
  · exact h.null hraw
  · intro i hi k hk
    have htext := textSize_take_add_le hi
    rw [h.argument hraw hi, Nat.add_assoc, h.front hraw (by omega)]
    exact fillArgs_string hi (by omega) k hk
  · intro i hi
    rw [h.argument hraw hi]
    omega
  · intro i hi
    have htext := textSize_take_add_le hi
    rw [h.argument hraw hi]
    omega
  · intro i j hij hj
    have hle := textSize_take_le args (Nat.succ_le_of_lt hij)
    rw [textSize_take_succ (by omega)] at hle
    rw [h.argument hraw (by omega), h.argument hraw hj]
    omega

theorem equipped_of_patched {pid : BitVec 32}
    (h : Patched mem (grassEnvEnd - totalSize args) pid.toNat (spawnLoadArgs heap env args))
    (hraw : rawSize args < 2 ^ 31) :
    Equipped mem (grassEnvEnd - totalSize args) pid env args := by
  have hfit := array_text_le hraw
  have hsp := userSp_add_env hraw
  have hbounds := grassEnvEnd_bounds
  have hlength : args.length < 2 ^ 31 := by
    have hpointer : pointerSize = 8 := rfl
    unfold rawSize at hraw
    rw [hpointer] at hraw
    omega
  have hargv : load mem (grassEnv + argvAt) pointerSize = grassEnvEnd - totalSize args := by
    rw [h.load_env hraw (by decide) (by decide)]
    exact loadEnv_argv (by omega)
  constructor
  · have hself := h.self
    rw [show (spawnLoadArgs heap env args).2 = totalSize args from rfl, hsp] at hself
    rw [selfAt, Nat.add_zero]
    exact (ofBytes_byteOf hself).trans (Nat.mod_eq_of_lt pid.isLt)
  · rw [h.load_env hraw (by decide) (by decide)]
    exact loadEnv_argc (by omega)
  · rw [h.load_env hraw (by decide) (by decide)]
    exact loadEnv_envp
  · intro i hi hr
    have hpid : 4 ≤ i := by
      unfold Replaced selfAt at hr
      omega
    exact (h.at_env hraw hpid hi).trans (loadEnv_kept hi hr)
  · exact hargv.ge
  · rw [hargv]
    omega
  · rw [hargv]
    exact arguments_of_patched h hraw

end

/-- For any strings whose block is smaller than 2^31 bytes: the block is a multiple of the alignment
in size, nothing else of the heap is written, and the process in whose memory it ends up finds its
environment and its arguments. -/
theorem arguments_passed (heap mem : Buffer) (env : GrassEnv) (args : List CString)
    (pid : BitVec 32) (req : SpawnRequest) (reply : Option (List Byte)) (p : UserProcess)
    (hraw : rawSize args < 2 ^ 31)
    (hreq : req.size = BitVec.ofNat 32 (spawnLoadArgs heap env args).2)
    (hp : userProc pid.toNat req (block (spawnLoadArgs heap env args)) reply = .ok (some p)) :
    alignment ∣ (spawnLoadArgs heap env args).2 ∧
      (∀ k, (spawnLoadArgs heap env args).2 ≤ k → (spawnLoadArgs heap env args).1 k = heap k) ∧
      userSp req + (spawnLoadArgs heap env args).2 = grassEnv + grassEnvSize ∧
      Equipped (copied mem req p) (userSp req) pid env args := by
  have hround := totalSize_rounded hraw
  have hfit := array_text_le hraw
  have hsp := userSp_add_env hraw
  have hlt := hround.lt
  have halign : alignment = 16 := rfl
  have htotal : (spawnLoadArgs heap env args).2 = totalSize args := rfl
  have hnat : req.size.toNat = totalSize args := by
    rw [hreq, htotal, BitVec.toNat_ofNat, Nat.mod_eq_of_lt (by omega)]
  have huser : userSp req = grassEnvEnd - totalSize args := by rw [userSp, hnat]
  have hpatched : Patched (copied mem req p) (userSp req) pid.toNat (spawnLoadArgs heap env args) :=
    patched_copied (by rw [htotal]; omega) hnat hp
  rw [huser] at hpatched ⊢
  rw [htotal]
  constructor
  · exact hround.dvd
  constructor
  · intro k hk
    exact spawnLoadArgs_outside hraw hk
  constructor
  · omega
  · exact equipped_of_patched hpatched hraw

/-! A program with one segment is given the arguments `a` and `bc`, and the pid 7. -/

def twoArgs : List CString := [⟨[97], by decide⟩, ⟨[98, 99], by decide⟩]

def onesEnv : GrassEnv := ⟨List.replicate grassEnvSize 1, rfl⟩

def twoArgsRequest : SpawnRequest :=
  ⟨.exec, ⟨2, 3⟩, BitVec.ofNat 32 (spawnLoadArgs (fun _ => 9) onesEnv twoArgs).2, true, 0, 0, 0⟩

/-- A header that begins with the number of segments. -/
def oneSegment : List Byte := 1 :: List.replicate (Spawnsvr.headerSize - 1) 0

theorem arguments_passed_two : rawSize twoArgs < 2 ^ 31 ∧
    ∃ p, userProc (7 : BitVec 32).toNat twoArgsRequest
        (block (spawnLoadArgs (fun _ => 9) onesEnv twoArgs))
        (some (List.replicate Grass.fileReplySize 0 ++ oneSegment)) = .ok (some p) ∧
      Equipped (copied (fun _ => 0) twoArgsRequest p) (userSp twoArgsRequest) 7 onesEnv twoArgs := by
  have hraw : rawSize twoArgs < 2 ^ 31 := by decide
  have hread : Spawnsvr.fileRead (some (List.replicate Grass.fileReplySize 0 ++ oneSegment))
      Spawnsvr.headerSize = some oneSegment := by decide +kernel
  have hhdr : Spawnsvr.Acceptable (.ofMemory fun i => oneSegment.getD i 0) := by
    constructor
    · decide
    · decide
  obtain ⟨p, hp⟩ : ∃ p, userProc (7 : BitVec 32).toNat twoArgsRequest
      (block (spawnLoadArgs (fun _ => 9) onesEnv twoArgs))
      (some (List.replicate Grass.fileReplySize 0 ++ oneSegment)) = .ok (some p) :=
    userProc_started (by decide +kernel) hread (by decide) hhdr
  exact ⟨hraw, p, hp, (arguments_passed (fun _ => 9) (fun _ => 0) onesEnv twoArgs 7 twoArgsRequest
    _ p hraw rfl hp).2.2.2⟩

end Egos.Spawn
