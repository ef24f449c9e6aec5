import Egos.Lib.Objects
import Egos.Libc.Tlsf.Calls

/-!
# The allocator and a process

A process calls the allocator and writes to the objects that it has. Every state that this leads to has a
pool in order, whose used blocks are the objects, each with a block of its own.
-/
namespace Egos.Libc.Tlsf

open Egos.Disk (Stop)
open Egos.Lib

set_option autoImplicit false

inductive Call where
  | malloc (size : Nat)
  | calloc (nelem elemSize : Nat)
  | realloc (ptr size : Nat)
  | free (ptr : Nat)
  /-- The process writes a byte. -/
  | write (ptr i : Nat) (v : Byte)

/-- What is returned is null if there is nothing to return. -/
def Call.perform (fuel : Nat) : Call → Program Nat
  | .malloc size => tlsfMalloc fuel size
  | .calloc nelem elemSize => tlsfCalloc fuel nelem elemSize
  | .realloc ptr size => tlsfRealloc fuel ptr size
  | .free ptr => do
    tlsfFree ptr
    pure 0
  | .write ptr i v => do
    onBytes (ptr + i) 1 fun memory => (ptr + i, Function.update memory (ptr + i) v)
    pure 0

/-- What a call that has returned `r` means to the process. -/
def Call.effect (objects : Objects Byte) (r : Nat) : Call → Objects Byte
  | .malloc size => if r = 0 then objects else objects.add r (List.replicate size none)
  | .calloc nelem elemSize =>
    if r = 0 then objects else objects.add r (List.replicate (nelem * elemSize) (some 0))
  | .realloc ptr size =>
    if r = 0 then objects.drop ptr
    else (objects.drop ptr).add r (Objects.resize ((objects ptr).getD []) size)
  | .free ptr => objects.drop ptr
  | .write ptr i v => objects.write ptr i v

/-- A process, with what it knows of its objects. -/
structure Process where
  heap : Heap
  objects : Objects Byte

/-- The pool may have to grow, and is below one gigabyte still, also if it has not been made yet. -/
structure Spacious (heap : Heap) (size : Nat) : Prop where
  lt : size < maxSize
  room : max defaultAreaSize (heap.brk.getD 0 - heap.mp) + areaFor (wanted size) ≤ maxSize

instance (heap : Heap) (size : Nat) : Decidable (Spacious heap size) :=
  decidable_of_iff (_ ∧ _) ⟨fun h => ⟨h.1, h.2⟩, fun h => ⟨h.lt, h.room⟩⟩

/-- A process passes on what it has been given, and writes to nothing else. -/
def Process.May (P : Process) : Call → Prop
  | .malloc size => Spacious P.heap size
  | .calloc nelem elemSize => Spacious P.heap (nelem * elemSize)
  | .realloc ptr size => (ptr = 0 ∨ (P.objects ptr).isSome) ∧ Spacious P.heap size
  | .free ptr => ptr = 0 ∨ (P.objects ptr).isSome
  | .write ptr i _ => ∃ cells, P.objects ptr = some cells ∧ i < cells.length

/-- The calls of a process, one after the other. -/
inductive Reachable (fuel : Nat) : Process → Prop
  | start {heap : Heap} (h : Fresh heap) : Reachable fuel ⟨heap, Objects.empty⟩
  | step {P : Process} {c : Call} {r : Nat} {heap : Heap} (h : Reachable fuel P) (hmay : P.May c)
      (hc : c.perform fuel P.heap = .ok r heap) : Reachable fuel ⟨heap, c.effect P.objects r⟩

/-- The used blocks are the objects of the process. -/
structure Keeps (heap : Heap) (s : Nat) (blocks : List Block) (objects : Objects Byte) : Prop where
  sound : Sound heap s blocks
  object : ∀ p cells, objects p = some cells → ∃ a n, p = buffer a ∧ a ≠ s ∧ Used s blocks a n ∧
    cells.length ≤ n ∧ n < wanted cells.length + sizeofBhdr
  owned : ∀ a n, a ≠ s → Used s blocks a n → (objects (buffer a)).isSome
  holds : Objects.Holds heap.memory objects
  large : heap.mp + defaultAreaSize ≤ heap.brk.getD 0

/-- Before the first call, or after it. -/
inductive Settled : Process → Prop
  | fresh {heap : Heap} (h : Fresh heap) : Settled ⟨heap, Objects.empty⟩
  | keeps {heap : Heap} {objects : Objects Byte} {s : Nat} {blocks : List Block}
      (h : Keeps heap s blocks objects) : Settled ⟨heap, objects⟩

section

variable {heap heap' : Heap} {s n m a k x p i fuel size' held : Nat} {blocks blocks' : List Block}
  {objects : Objects Byte} {cells : List (Option Byte)} {v : Byte}

theorem buffer_inj : buffer a = buffer x ↔ a = x := Nat.add_right_cancel_iff

namespace Keeps

theorem start_le (h : Keeps heap s blocks objects) (hu : Used s blocks a n) (ha : a ≠ s) :
    s + 32 ≤ a := by
  obtain ⟨l, hl⟩ := List.head?_eq_some_iff.mp h.sound.tidy.room.first
  have hfirst : Used s blocks s sizeofAreaInfo := by
    rw [hl]
    exact ⟨by decide, List.mem_cons_self⟩
  have hinfo : sizeofAreaInfo = 16 := rfl
  have hhdr : bhdrOverhead = 16 := rfl
  have hbounds : s ≤ a := (placed_bounds hu.2).1
  rcases used_disjoint hu hfirst with ⟨heq, -⟩ | hle | hle
  · exact absurd heq ha
  · omega
  · omega

theorem used_of_object (h : Keeps heap s blocks objects) (hp : objects (buffer a) = some cells) :
    ∃ n, a ≠ s ∧ Used s blocks a n ∧ cells.length ≤ n ∧ n < wanted cells.length + sizeofBhdr := by
  obtain ⟨x, n, heq, hx, hu, hle, hlt⟩ := h.object _ _ hp
  cases buffer_inj.mp heq
  exact ⟨n, hx, hu, hle, hlt⟩

theorem add (h : Keeps heap s blocks objects) (hall : Allocated heap heap' s blocks blocks' size' a n)
    (hm : size' < maxSize) (hlen : cells.length = size')
    (hcells : ∀ i v, cells[i]? = some (some v) → heap'.memory (buffer a + i) = v) :
    Keeps heap' s blocks' (objects.add (buffer a) cells) := by
  have hle := (wanted_ok hm).1
  have hlarge := hall.large
  have hgrown : Grown s blocks size' heap heap' := hall.growth.imp_left And.left
  refine ⟨hall.sound, fun p c hp => ?_, fun x k hx hu => ?_, ?_,
    hall.untouched.mp ▸ Nat.le_trans h.large (hgrown.le h.sound.tidy.room)⟩
  · by_cases hpa : p = buffer a
    · subst hpa
      rw [Objects.add_self] at hp
      cases hp
      exact ⟨a, n, rfl, hall.ne_start, (hall.used a n).mpr (.inr ⟨rfl, rfl⟩), by omega,
        hlen ▸ hall.tight⟩
    · rw [Objects.add_of_ne hpa] at hp
      obtain ⟨x, k, rfl, hx, hu, hk⟩ := h.object p c hp
      exact ⟨x, k, rfl, hx, (hall.used x k).mpr (.inl hu), hk⟩
  · by_cases hxa : x = a
    · subst hxa
      rw [Objects.add_self]
      rfl
    · rw [Objects.add_of_ne (fun heq => hxa (buffer_inj.mp heq))]
      rcases (hall.used x k).mp hu with hu | ⟨rfl, -⟩
      · exact h.owned x k hx hu
      · exact absurd rfl hxa
  · refine Objects.Holds.add (h.holds.congr fun p c hp i hi => ?_) hcells
    obtain ⟨x, k, rfl, hx, hu, hk, -⟩ := h.object p c hp
    have hstart := h.start_le hu hx
    exact hall.untouched.memory _ (by unfold buffer; omega)
      ⟨x, k, hu, Nat.le_add_right _ _, by omega⟩

theorem drop (h : Keeps heap s blocks objects) (hfree : Freed heap heap' s blocks blocks' a) :
    Keeps heap' s blocks' (objects.drop (buffer a)) := by
  have hother : ∀ p c, objects.drop (buffer a) p = some c → p ≠ buffer a ∧ objects p = some c := by
    intro p c hp
    by_cases hpa : p = buffer a
    · subst hpa
      rw [Objects.drop_self] at hp
      cases hp
    · rw [Objects.drop_of_ne hpa] at hp
      exact ⟨hpa, hp⟩
  refine ⟨hfree.sound, fun p c hp => ?_, fun x k hx hu => ?_, ?_,
    hfree.same.mp ▸ hfree.same.brk ▸ h.large⟩
  · obtain ⟨hpa, hp⟩ := hother p c hp
    obtain ⟨x, k, rfl, hx, hu, hk⟩ := h.object p c hp
    exact ⟨x, k, rfl, hx, (hfree.used x k).mpr ⟨hu, fun heq => hpa (congrArg buffer heq)⟩, hk⟩
  · obtain ⟨hu, hxa⟩ := (hfree.used x k).mp hu
    rw [Objects.drop_of_ne (fun heq => hxa (buffer_inj.mp heq))]
    exact h.owned x k hx hu
  · refine h.holds.drop.congr fun p c hp i hi => ?_
    obtain ⟨hpa, hp⟩ := hother p c hp
    obtain ⟨x, k, rfl, hx, hu, hk, -⟩ := h.object p c hp
    exact hfree.same.memory _
      ⟨x, k, hu, fun heq => hpa (congrArg buffer heq), Nat.le_add_right _ _, by omega⟩

theorem resize {a' : Nat} (h : Keeps heap s blocks objects) (hp : objects (buffer a) = some cells)
    (hr : Reallocated heap heap' s blocks blocks' a a' m (min n size')) (hu : Used s blocks a n)
    (hlow : size' ≤ m) (hhigh : m < wanted size' + sizeofBhdr)
    (hgrown : Grown s blocks size' heap heap') :
    Keeps heap' s blocks' ((objects.drop (buffer a)).add (buffer a') (Objects.resize cells size')) := by
  obtain ⟨k, ha, hk, hlen, -⟩ := h.used_of_object hp
  obtain rfl := hk.unique hu
  refine ⟨hr.sound, fun p c hp' => ?_, fun x j hx hj => ?_, ?_,
    hr.mp ▸ Nat.le_trans h.large (hgrown.le h.sound.tidy.room)⟩
  · by_cases hpa : p = buffer a'
    · subst hpa
      rw [Objects.add_self] at hp'
      cases hp'
      rw [Objects.resize_length]
      exact ⟨a', m, rfl, hr.ne_start, (hr.used a' m).mpr (.inr ⟨rfl, rfl⟩), hlow, hhigh⟩
    · rw [Objects.add_of_ne hpa] at hp'
      have hne : p ≠ buffer a := by
        rintro rfl
        rw [Objects.drop_self] at hp'
        cases hp'
      rw [Objects.drop_of_ne hne] at hp'
      obtain ⟨x, j, rfl, hx, hj, hc⟩ := h.object p c hp'
      exact ⟨x, j, rfl, hx,
        (hr.used x j).mpr (.inl ⟨hj, fun heq => hne (congrArg buffer heq)⟩), hc⟩
  · by_cases hxa : x = a'
    · subst hxa
      rw [Objects.add_self]
      rfl
    · rw [Objects.add_of_ne (fun heq => hxa (buffer_inj.mp heq))]
      rcases (hr.used x j).mp hj with ⟨hj, hne⟩ | ⟨rfl, -⟩
      · rw [Objects.drop_of_ne (fun heq => hne (buffer_inj.mp heq))]
        exact h.owned x j hx hj
      · exact absurd rfl hxa
  · refine Objects.Holds.add (h.holds.drop.congr fun p c hp' i hi => ?_) fun i v hv => ?_
    · have hne : p ≠ buffer a := by
        rintro rfl
        rw [Objects.drop_self] at hp'
        cases hp'
      rw [Objects.drop_of_ne hne] at hp'
      obtain ⟨x, j, rfl, hx, hj, hc, -⟩ := h.object p c hp'
      have hstart := h.start_le hj hx
      exact hr.memory _ (by unfold buffer; omega)
        ⟨x, j, hj, fun heq => hne (congrArg buffer heq), Nat.le_add_right _ _, by omega⟩
    · obtain ⟨hv, hi⟩ := Objects.resize_known hv
      have hlt := (List.getElem?_eq_some_iff.mp hv).1
      rw [hr.held i (by omega)]
      exact h.holds _ _ hp i v hv

theorem write (h : Keeps heap s blocks objects) (hp : objects p = some cells) (hi : i < cells.length) :
    Keeps { heap with memory := Function.update heap.memory (p + i) v } s blocks
      (objects.write p i v) := by
  obtain ⟨a, n, rfl, ha, hu, hle, hlt⟩ := h.object p cells hp
  refine ⟨h.sound.write hu ha fun k hk => Function.update_of_ne (by omega) _ _, fun q c hq => ?_,
    fun x k hx hk => ?_, h.holds.write hp fun q c hq hne j hj => ?_, h.large⟩
  · by_cases hqa : q = buffer a
    · subst hqa
      rw [Objects.write_self hp] at hq
      cases hq
      rw [List.length_set]
      exact ⟨a, n, rfl, ha, hu, hle, hlt⟩
    · rw [Objects.write_of_ne hqa] at hq
      exact h.object q c hq
  · have hsome := h.owned x k hx hk
    by_cases hxa : x = a
    · subst hxa
      rw [Objects.write_self hp]
      rfl
    · rwa [Objects.write_of_ne (fun heq => hxa (buffer_inj.mp heq))]
  · obtain ⟨x, k, rfl, hx, hk, hc, -⟩ := h.object q c hq
    have hhdr : bhdrOverhead = 16 := rfl
    unfold buffer at *
    rcases used_disjoint hk hu with ⟨rfl, -⟩ | hle | hle
    · exact absurd rfl hne
    · omega
    · omega

end Keeps

/-! ## One call -/

theorem Spacious.modest (hs : Spacious heap size') : Modest heap size' := by
  refine ⟨hs.lt, ?_⟩
  have hroom := hs.room
  omega

theorem firstSize_end : endOf (poolStart p) [⟨sizeofAreaInfo, false⟩, ⟨firstSize, true⟩, ⟨0, false⟩] =
    p + defaultAreaSize := by
  change poolStart p + (bhdrOverhead + sizeofAreaInfo) + (bhdrOverhead + firstSize) +
    (bhdrOverhead + 0) = p + defaultAreaSize
  rw [poolStart_eq]
  unfold bhdrOverhead sizeofBhdr minBlockSize sizeofAreaInfo firstSize defaultAreaSize
  omega

/-- The first pool has one free block, and none that is used. -/
theorem keeps_first
    (h : Sound heap s [⟨sizeofAreaInfo, false⟩, ⟨firstSize, true⟩, ⟨0, false⟩]) :
    Keeps heap s [⟨sizeofAreaInfo, false⟩, ⟨firstSize, true⟩, ⟨0, false⟩] Objects.empty := by
  have hbrk := h.tidy.room.brk
  rw [h.tidy.room.start, firstSize_end] at hbrk
  refine ⟨h, fun p c hp => ?_, fun a n ha hu => ?_, .empty, by rw [hbrk, Option.getD_some]⟩
  · cases hp
  · rw [used_cons, used_cons, used_cons] at hu
    rcases hu with ⟨-, heq, -⟩ | ⟨-, -, heq⟩ | ⟨hn, -, heq⟩ | ⟨-, hnil⟩
    · exact absurd heq ha
    · cases heq
    · cases heq
      exact absurd rfl hn
    · cases hnil

/-- After `firstArea` there is a pool, and it has room. -/
theorem Settled.outcome_firstArea {P : Process} (h : Settled P) (hs : Spacious P.heap size') :
    Outcome firstArea (fun _ heap' => ∃ s blocks, Keeps heap' s blocks P.objects ∧ Modest heap' size')
      (fun _ _ => False) P.heap := by
  cases h with
  | fresh h =>
    refine (Tlsf.outcome_firstArea h).post ?_
    rintro ⟨⟩ heap' ⟨s, hsound⟩
    refine ⟨s, _, keeps_first hsound, hs.lt, ?_⟩
    have hroom := hs.room
    have hbrk := hsound.tidy.room.brk
    rw [hsound.tidy.room.start, firstSize_end] at hbrk
    dsimp only at hroom
    rw [hbrk, Option.getD_some]
    omega
  | keeps h =>
    exact Outcome.of_ok (firstArea_of_sound h.sound) ⟨_, _, h, hs.modest⟩

theorem buffer_ne_zero : buffer a ≠ 0 := by
  unfold buffer bhdrOverhead sizeofBhdr minBlockSize
  omega

namespace Keeps

theorem object_zero (h : Keeps heap s blocks objects) : objects 0 = none := by
  by_contra hsome
  obtain ⟨cells, hcells⟩ := Option.ne_none_iff_exists'.mp hsome
  obtain ⟨a, n, ha, -⟩ := h.object 0 cells hcells
  exact buffer_ne_zero ha.symm

theorem outcome_mallocEx (h : Keeps heap s blocks objects) (hm : Modest heap size')
    (hfuel : 2 ≤ fuel) : Outcome (mallocEx fuel size') (fun r heap' => r ≠ 0 ∧
      ∃ blocks', Keeps heap' s blocks' (objects.add r (List.replicate size' none)))
      (fun _ _ => False) heap := by
  refine (Tlsf.outcome_mallocEx h.sound hm hfuel).post ?_
  rintro r heap' ⟨a, n, blocks', rfl, hall⟩
  refine ⟨buffer_ne_zero, blocks', h.add hall hm.lt List.length_replicate fun i v hv => ?_⟩
  rw [List.getElem?_replicate] at hv
  split at hv <;> cases hv

theorem outcome_callocEx {nelem elemSize : Nat} (h : Keeps heap s blocks objects)
    (hm : Modest heap (nelem * elemSize)) (hfuel : 2 ≤ fuel) :
    Outcome (callocEx fuel nelem elemSize) (fun r heap' => ∃ blocks', Keeps heap' s blocks'
      (if r = 0 then objects else objects.add r (List.replicate (nelem * elemSize) (some 0))))
      (fun _ _ => False) heap := by
  by_cases hne : nelem = 0 ∨ elemSize = 0
  · unfold callocEx
    rw [if_pos hne]
    exact ⟨blocks, by rwa [if_pos rfl]⟩
  · have hlt := hm.lt
    unfold maxSize at hlt
    refine (Tlsf.outcome_callocEx h.sound (Nat.mod_eq_of_lt (by omega)) hm hfuel
      (not_or.mp hne)).post ?_
    rintro r heap' ⟨a, n, blocks', rfl, hall, hzero⟩
    rw [if_neg buffer_ne_zero]
    refine ⟨blocks', h.add hall hm.lt List.length_replicate fun i v hv => ?_⟩
    rw [List.getElem?_replicate] at hv
    split at hv
    · next hi =>
      cases hv
      exact hzero i hi
    · cases hv

theorem outcome_freeEx (h : Keeps heap s blocks objects) (hp : p = 0 ∨ (objects p).isSome) :
    Outcome (freeEx p) (fun _ heap' => ∃ blocks', Keeps heap' s blocks' (objects.drop p))
      (fun _ _ => False) heap := by
  rcases hp with rfl | hp
  · rw [Objects.drop_of_none h.object_zero]
    exact ⟨blocks, h⟩
  · obtain ⟨cells, hcells⟩ := Option.isSome_iff_exists.mp hp
    obtain ⟨a, n, rfl, ha, hu, -⟩ := h.object p cells hcells
    refine (Tlsf.outcome_freeEx h.sound hu ha).post ?_
    rintro ⟨⟩ heap' ⟨blocks', hfree⟩
    exact ⟨blocks', h.drop hfree⟩

theorem outcome_reallocEx (h : Keeps heap s blocks objects) (hp : p = 0 ∨ (objects p).isSome)
    (hm : Modest heap size') (hfuel : 2 ≤ fuel) :
    Outcome (reallocEx fuel p size') (fun r heap' => ∃ blocks', Keeps heap' s blocks'
      (if r = 0 then objects.drop p
        else (objects.drop p).add r (Objects.resize ((objects p).getD []) size')))
      (fun _ _ => False) heap := by
  by_cases hzero : p = 0
  · subst hzero
    rw [Objects.drop_of_none h.object_zero, h.object_zero, Option.getD_none, Objects.resize_nil]
    by_cases hsize : size' = 0
    · subst hsize
      exact ⟨blocks, h⟩
    · unfold reallocEx
      rw [if_pos rfl, if_pos hsize]
      refine (h.outcome_mallocEx hm hfuel).post ?_
      rintro r heap' ⟨hr, hkeeps⟩
      rwa [if_neg hr]
  · obtain ⟨cells, hcells⟩ := Option.isSome_iff_exists.mp (hp.resolve_left hzero)
    by_cases hsize : size' = 0
    · subst hsize
      unfold reallocEx
      rw [if_neg hzero, if_pos rfl]
      refine (h.outcome_freeEx hp).seq ?_
      rintro ⟨⟩ heap' hkeeps
      exact hkeeps
    · obtain ⟨a, n, rfl, ha, hu, hlen, -⟩ := h.object p cells hcells
      refine (Tlsf.outcome_reallocEx h.sound hu ha hm hfuel hsize).post ?_
      rintro r heap' ⟨a', m, blocks', rfl, hlow, hhigh, hr, hgrown⟩
      rw [if_neg buffer_ne_zero, hcells, Option.getD_some]
      exact ⟨blocks', h.resize hcells hr hu hlow hhigh hgrown⟩

end Keeps

/-- Whatever a process may do leaves everything in order, and the call returns. -/
theorem Settled.step {P : Process} {c : Call} (h : Settled P) (hmay : P.May c) (hfuel : 2 ≤ fuel) :
    Outcome (c.perform fuel) (fun r heap' => Settled ⟨heap', c.effect P.objects r⟩)
      (fun _ _ => False) P.heap := by
  cases c with
  | malloc size =>
    refine (h.outcome_firstArea hmay).seq ?_
    rintro ⟨⟩ heap₁ ⟨s, blocks, hkeeps, hm⟩
    refine (hkeeps.outcome_mallocEx hm hfuel).post ?_
    rintro r heap' ⟨hr, blocks', hkeeps'⟩
    change Settled ⟨heap', if r = 0 then _ else _⟩
    rw [if_neg hr]
    exact .keeps hkeeps'
  | calloc nelem elemSize =>
    refine (h.outcome_firstArea hmay).seq ?_
    rintro ⟨⟩ heap₁ ⟨s, blocks, hkeeps, hm⟩
    refine (hkeeps.outcome_callocEx hm hfuel).post ?_
    rintro r heap' ⟨blocks', hkeeps'⟩
    exact .keeps hkeeps'
  | realloc p size =>
    obtain ⟨hp, hs⟩ := hmay
    have hget : (get : Program Heap) P.heap = .ok P.heap P.heap := rfl
    change Outcome (tlsfRealloc fuel p size) _ _ _
    unfold tlsfRealloc
    refine outcome_step hget ?_
    cases h with
    | fresh h =>
      obtain rfl : p = 0 := hp.resolve_right (by rintro ⟨⟩)
      have hf : Settled ⟨_, Objects.empty⟩ := .fresh h
      rw [if_pos h.mp]
      refine (hf.outcome_firstArea hs).seq ?_
      rintro ⟨⟩ heap₁ ⟨s, blocks, hkeeps, hm⟩
      refine (hkeeps.outcome_mallocEx hm hfuel).post ?_
      rintro r heap' ⟨hr, blocks', hkeeps'⟩
      change Settled ⟨heap', if r = 0 then _ else _⟩
      rw [if_neg hr, Objects.drop_of_none rfl]
      rw [← Objects.resize_nil] at hkeeps'
      exact .keeps hkeeps'
    | keeps h =>
      rw [if_neg h.sound.tidy.room.mp_ne]
      refine (h.outcome_reallocEx hp hs.modest hfuel).post ?_
      rintro r heap' ⟨blocks', hkeeps'⟩
      exact .keeps hkeeps'
  | free p =>
    cases h with
    | fresh h =>
      obtain rfl : p = 0 := hmay.resolve_right (by rintro ⟨⟩)
      change Settled ⟨_, Objects.empty.drop 0⟩
      rw [Objects.drop_of_none rfl]
      exact .fresh h
    | keeps h =>
      refine (h.outcome_freeEx hmay).seq ?_
      rintro ⟨⟩ heap' ⟨blocks', hkeeps'⟩
      exact .keeps hkeeps'
  | write p i v =>
    obtain ⟨cells, hcells, hi⟩ := hmay
    cases h with
    | fresh h => cases hcells
    | keeps h =>
      obtain ⟨a, n, rfl, ha, hu, hle, -⟩ := h.object p cells hcells
      obtain ⟨-, -, hacc, -⟩ := h.sound.used_ok hu ha
      refine outcome_step (onBytes_ok (hacc.part (Nat.le_add_right _ _) (by omega))) ?_
      exact .keeps (h.write hcells hi)

theorem Reachable.settled {P : Process} (h : Reachable fuel P) (hfuel : 2 ≤ fuel) : Settled P := by
  induction h with
  | start h => exact .fresh h
  | step _ hmay hc ih => exact (ih.step hmay hfuel).ok hc

end

end Egos.Libc.Tlsf
