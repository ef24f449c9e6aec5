import Egos.Libc.Tlsf.Process

/-!
# What a process can rely on

Whatever calls it has made so far.
-/
namespace Egos.Libc.Tlsf

open Egos.Disk (Stop)
open Egos.Lib

set_option autoImplicit false

section

variable {heap heap' : Heap} {s n m a k p q i fuel size' : Nat} {blocks : List Block}
  {objects : Objects Byte} {cells cells' : List (Option Byte)} {P : Process} {c : Call}

/-! ## Where objects are -/

theorem Keeps.object_bounds (h : Keeps heap s blocks objects) (hp : objects p = some cells) :
    blockAlign ∣ p ∧ heap.mp + sizeofTlsf ≤ p ∧ p + cells.length ≤ heap.brk.getD 0 := by
  obtain ⟨a, n, rfl, ha, hu, hlen, -⟩ := h.object p cells hp
  obtain ⟨-, -, ⟨hlow, hhigh⟩, -, hdvd, -⟩ := h.sound.used_ok hu ha
  exact ⟨Nat.dvd_add hdvd (by decide), hlow, by omega⟩

theorem Keeps.object_disjoint (h : Keeps heap s blocks objects) (hp : objects p = some cells)
    (hq : objects q = some cells') (hne : p ≠ q) :
    p + cells.length ≤ q ∨ q + cells'.length ≤ p := by
  obtain ⟨a, n, rfl, -, ha, hlen, -⟩ := h.object p cells hp
  obtain ⟨x, k, rfl, -, hx, hlen', -⟩ := h.object q cells' hq
  unfold buffer at *
  rcases used_disjoint ha hx with ⟨rfl, -⟩ | hle | hle
  · exact absurd rfl hne
  · omega
  · omega

/-! ## A process that has objects -/

/-- No memory has been asked for yet. -/
def bare (dataEnd : Nat) : Heap where
  memory _ := 0
  dataEnd := dataEnd
  brk := none
  mp := 0
  tlsf := Header.zero

theorem bare_fresh : Fresh (bare 0x404000) where
  mp := rfl
  brk := rfl
  dataEnd := by decide
  word := by decide
  signature := by decide

/-- The process has a pool of at least `low` and at most `high` bytes. -/
structure Running (heap : Heap) (objects : Objects Byte) (low high : Nat) : Prop where
  reachable : Reachable 2 ⟨heap, objects⟩
  keeps : ∃ s blocks, Keeps heap s blocks objects
  low : heap.mp + low ≤ heap.brk.getD 0
  high : heap.brk.getD 0 ≤ heap.mp + high

namespace Running

variable {low high : Nat} {v : Byte}

theorem first : ∃ heap, Running heap Objects.empty defaultAreaSize defaultAreaSize := by
  obtain ⟨⟨⟩, heap, hfirst, s, hsound⟩ := (outcome_firstArea bare_fresh).exists_ok
  have hbrk := hsound.tidy.room.brk
  rw [hsound.tidy.room.start, firstSize_end] at hbrk
  have hcall : (Call.calloc 0 8).perform 2 (bare 0x404000) = .ok 0 heap := by
    change tlsfCalloc 2 0 8 _ = _
    unfold tlsfCalloc
    rw [bind_ok hfirst]
    rfl
  exact ⟨heap, .step (c := .calloc 0 8) (.start bare_fresh)
    (by decide : Spacious (bare 0x404000) 0) hcall, ⟨s, _, keeps_first hsound⟩,
    by rw [hbrk, Option.getD_some], by rw [hbrk, Option.getD_some]⟩

theorem spacious (h : Running heap objects low high) (hlt : size' < maxSize)
    (hroom : max defaultAreaSize high + areaFor (wanted size') ≤ maxSize) :
    Spacious heap size' := by
  refine ⟨hlt, ?_⟩
  have hhigh := h.high
  omega

theorem malloc (h : Running heap objects low high) (size' : Nat) (hlt : size' < maxSize)
    (hroom : max defaultAreaSize high + areaFor (wanted size') ≤ maxSize) :
    ∃ heap' p, objects p = none ∧ Running heap' (objects.add p (List.replicate size' none))
      (max low (sizeofTlsf + size')) (high + areaFor (wanted size')) := by
  have hs := h.spacious hlt hroom
  obtain ⟨s, blocks, hkeeps⟩ := h.keeps
  obtain ⟨p, heap', hmalloc, a, n, blocks', rfl, hall⟩ :=
    (outcome_mallocEx hkeeps.sound hs.modest (Nat.le_refl 2)).exists_ok
  have hlen : (List.replicate size' (none : Option Byte)).length = size' := List.length_replicate
  have hkeeps' := hkeeps.add hall hlt hlen fun i v hv => by
      rw [List.getElem?_replicate] at hv
      split at hv <;> cases hv
  have hcall : (Call.malloc size').perform 2 heap = .ok (buffer a) heap' := by
    change tlsfMalloc 2 size' _ = _
    unfold tlsfMalloc
    rw [bind_ok (firstArea_of_sound hkeeps.sound)]
    exact hmalloc
  have hreach := h.reachable.step (c := Call.malloc size') hs hcall
  change Reachable 2 ⟨heap', if buffer a = 0 then objects else
    objects.add (buffer a) (List.replicate size' none)⟩ at hreach
  rw [if_neg buffer_ne_zero] at hreach
  have hbounds := (hkeeps'.object_bounds Objects.add_self).2
  rw [List.length_replicate] at hbounds
  have hgrown : Grown s blocks size' heap heap' := hall.growth.imp_left And.left
  have hle := hgrown.le hkeeps.sound.tidy.room
  have hmp := hall.untouched.mp
  have hlow := h.low
  have hhigh := h.high
  refine ⟨heap', buffer a, ?_, hreach, ⟨s, blocks', hkeeps'⟩, ?_, ?_⟩
  · by_contra hsome
    obtain ⟨cells, hcells⟩ := Option.ne_none_iff_exists'.mp hsome
    obtain ⟨x, k, heq, -, hu, -⟩ := hkeeps.object _ cells hcells
    cases buffer_inj.mp heq
    exact hall.unused k hu
  · omega
  · rcases hgrown with hsame | ⟨-, hbrk⟩
    · rw [hsame, hmp]
      omega
    · rw [hbrk, hmp, Option.getD_some, ← Option.getD_some (a := endOf s blocks) (b := 0),
        ← hkeeps.sound.tidy.room.brk]
      omega

theorem free (h : Running heap objects low high) (hp : objects p = some cells) :
    ∃ heap', Running heap' (objects.drop p) low high := by
  obtain ⟨s, blocks, hkeeps⟩ := h.keeps
  obtain ⟨a, n, rfl, ha, hu, -⟩ := hkeeps.object p cells hp
  obtain ⟨⟨⟩, heap', hfree, blocks', hfreed⟩ := (outcome_freeEx hkeeps.sound hu ha).exists_ok
  have hcall : (Call.free (buffer a)).perform 2 heap = .ok 0 heap' := by
    change (tlsfFree (buffer a) >>= fun _ => pure 0) _ = _
    unfold tlsfFree
    rw [bind_ok hfree]
    rfl
  refine ⟨heap', h.reachable.step (c := .free (buffer a)) (.inr (Option.isSome_of_eq_some hp)) hcall,
    ⟨s, blocks', hkeeps.drop hfreed⟩, ?_, ?_⟩
  · rw [hfreed.same.mp, hfreed.same.brk]
    exact h.low
  · rw [hfreed.same.mp, hfreed.same.brk]
    exact h.high

theorem write (h : Running heap objects low high) (hp : objects p = some cells) (hi : i < cells.length) :
    ∃ heap', Running heap' (objects.write p i v) low high := by
  obtain ⟨s, blocks, hkeeps⟩ := h.keeps
  obtain ⟨a, n, rfl, ha, hu, hle, -⟩ := hkeeps.object p cells hp
  obtain ⟨-, -, hacc, -⟩ := hkeeps.sound.used_ok hu ha
  have hcall : (Call.write (buffer a) i v).perform 2 heap = .ok 0
      { heap with memory := Function.update heap.memory (buffer a + i) v } := by
    change (onBytes _ 1 _ >>= fun _ => pure 0) _ = _
    rw [bind_ok (onBytes_ok (hacc.part (Nat.le_add_right _ _) (by omega)))]
    rfl
  exact ⟨_, h.reachable.step (c := .write (buffer a) i v) ⟨cells, hp, hi⟩ hcall,
    ⟨s, blocks, hkeeps.write hp hi⟩, h.low, h.high⟩

end Running

/-- A process can have two objects that it has written to, after it has freed one that was too large
for the first pool. -/
theorem exists_objects : ∃ heap objects p q, Running heap objects 20000 60000 ∧ p ≠ q ∧
    objects p = some ((List.replicate 100 none).set 99 (some 7)) ∧
    objects q = some ((List.replicate 50 none).set 0 (some 9)) ∧
    ∀ x, x ≠ p → x ≠ q → objects x = none := by
  obtain ⟨heap₀, h₀⟩ := Running.first
  obtain ⟨heap₁, t, -, h₁⟩ := h₀.malloc 20000 (by decide) (by decide)
  obtain ⟨heap₂, p, hp, h₂⟩ := h₁.malloc 100 (by decide) (by decide)
  obtain ⟨heap₃, q, hq, h₃⟩ := h₂.malloc 50 (by decide) (by decide)
  have hpt : t ≠ p := by
    rintro rfl
    rw [Objects.add_self] at hp
    cases hp
  have hqp : p ≠ q := by
    rintro rfl
    rw [Objects.add_self] at hq
    cases hq
  have hqt : t ≠ q := by
    rintro rfl
    rw [Objects.add_of_ne hpt, Objects.add_self] at hq
    cases hq
  obtain ⟨heap₄, h₄⟩ := h₃.free (p := t)
    ((Objects.add_of_ne hqt).trans ((Objects.add_of_ne hpt).trans Objects.add_self))
  obtain ⟨objects, hobjects⟩ : ∃ objects : Objects Byte, objects =
      (((Objects.empty.add t (List.replicate 20000 none)).add p (List.replicate 100 none)).add q
        (List.replicate 50 none)).drop t := ⟨_, rfl⟩
  have hat (x : Nat) : objects x = if x = q then some (List.replicate 50 none)
      else if x = p then some (List.replicate 100 none) else none := by
    rw [hobjects]
    by_cases hxt : x = t
    · rw [hxt, Objects.drop_self, if_neg hqt, if_neg hpt]
    · rw [Objects.drop_of_ne hxt]
      split
      · next heq => rw [heq, Objects.add_self]
      · next hne =>
        rw [Objects.add_of_ne hne]
        split
        · next heq => rw [heq, Objects.add_self]
        · next hne' => rw [Objects.add_of_ne hne', Objects.add_of_ne hxt]; rfl
  rw [← hobjects] at h₄
  have hatp : objects p = some (List.replicate 100 none) := by
    rw [hat, if_neg hqp, if_pos rfl]
  have hatq : objects q = some (List.replicate 50 none) := by rw [hat, if_pos rfl]
  obtain ⟨heap₅, h₅⟩ := h₄.write (i := 99) (v := 7) hatp (by rw [List.length_replicate]; decide)
  have hatq₅ : objects.write p 99 7 q = some (List.replicate 50 none) :=
    (Objects.write_of_ne hqp.symm).trans hatq
  obtain ⟨heap₆, h₆⟩ := h₅.write (i := 0) (v := 9) hatq₅ (by rw [List.length_replicate]; decide)
  have hlow : 20000 ≤ max (max (max defaultAreaSize (sizeofTlsf + 20000)) (sizeofTlsf + 100))
      (sizeofTlsf + 50) := by decide
  have hhigh : defaultAreaSize + areaFor (wanted 20000) + areaFor (wanted 100) +
      areaFor (wanted 50) ≤ 60000 := by decide
  refine ⟨_, _, p, q, ⟨h₆.reachable, h₆.keeps, ?_, ?_⟩, hqp, ?_, ?_, ?_⟩
  · exact Nat.le_trans (Nat.add_le_add_left hlow _) h₆.low
  · exact Nat.le_trans h₆.high (Nat.add_le_add_left hhigh _)
  · exact (Objects.write_of_ne hqp).trans (Objects.write_self hatp)
  · exact Objects.write_self hatq₅
  · intro x hxp hxq
    rw [Objects.write_of_ne hxq, Objects.write_of_ne hxp, hat, if_neg hxq, if_neg hxp]

/-! ## Every call returns -/

/-- Nothing undefined happens, and no loop goes on forever. -/
theorem call_returns (hfuel : 2 ≤ fuel) (h : Reachable fuel P) (hmay : P.May c) :
    ∃ r heap', c.perform fuel P.heap = .ok r heap' ∧
      Reachable fuel ⟨heap', c.effect P.objects r⟩ := by
  obtain ⟨r, heap', hc, -⟩ := ((h.settled hfuel).step hmay hfuel).exists_ok
  exact ⟨r, heap', hc, .step h hmay hc⟩

theorem call_returns_first : ∃ (P : Process) (p r : Nat) (heap' : Heap), (P.objects p).isSome ∧
    (Call.realloc p 30000).perform 2 P.heap = .ok r heap' ∧
    Reachable 2 ⟨heap', (Call.realloc p 30000).effect P.objects r⟩ := by
  obtain ⟨heap, objects, p, q, h, -, hp, -⟩ := exists_objects
  have hsome : (objects p).isSome := Option.isSome_of_eq_some hp
  obtain ⟨r, heap', hcall, hreach⟩ := call_returns (c := .realloc p 30000) (Nat.le_refl 2)
    h.reachable ⟨.inr hsome, h.spacious (by decide) (by decide)⟩
  exact ⟨⟨heap, objects⟩, p, r, heap', hsome, hcall, hreach⟩

/-! ## Objects -/

/-- Objects are aligned, in the pool and apart from each other, and they have kept what the process has
written to them. -/
theorem objects_safe (hfuel : 2 ≤ fuel) (h : Reachable fuel P) (hp : P.objects p = some cells) :
    (blockAlign ∣ p ∧ P.heap.mp + sizeofTlsf ≤ p ∧ p + cells.length ≤ P.heap.brk.getD 0) ∧
      (∀ i v, cells[i]? = some (some v) → P.heap.memory (p + i) = v) ∧
      ∀ q cells', P.objects q = some cells' → p ≠ q →
        p + cells.length ≤ q ∨ q + cells'.length ≤ p := by
  cases h.settled hfuel with
  | fresh _ => cases hp
  | keeps hk =>
    exact ⟨hk.object_bounds hp, hk.holds p cells hp,
      fun q cells' hq hne => hk.object_disjoint hp hq hne⟩

theorem objects_safe_hundred : ∃ (P : Process) (p q : Nat), Reachable 2 P ∧
    (blockAlign ∣ p ∧ p + 100 ≤ P.heap.brk.getD 0) ∧
    (P.heap.memory (p + 99) = 7 ∧ P.heap.memory (q + 0) = 9) ∧ (p + 100 ≤ q ∨ q + 50 ≤ p) := by
  obtain ⟨heap, objects, p, q, h, hne, hp, hq, -⟩ := exists_objects
  obtain ⟨⟨hdvd, -, hend⟩, hheld, hapart⟩ := objects_safe (Nat.le_refl 2) h.reachable hp
  obtain ⟨-, hheld', -⟩ := objects_safe (Nat.le_refl 2) h.reachable hq
  have hapart := hapart q _ hq hne
  rw [List.length_set, List.length_replicate] at hend
  rw [List.length_set, List.length_set, List.length_replicate, List.length_replicate] at hapart
  exact ⟨⟨heap, objects⟩, p, q, h.reachable, ⟨hdvd, hend⟩, ⟨hheld 99 7 (by decide), hheld' 0 9 (by decide)⟩,
    hapart⟩

theorem Settled.in_order (h : Settled P) : (Fresh P.heap ∧ ∀ p, P.objects p = none) ∨
    ∃ blocks, Keeps P.heap (poolStart P.heap.mp) blocks P.objects := by
  cases h with
  | fresh hf => exact .inl ⟨hf, fun _ => rfl⟩
  | keeps hk => exact .inr ⟨_, hk.sound.tidy.room.start ▸ hk⟩

/-- The blocks of the pool are in order, and those that are used are the objects. -/
theorem pool_in_order (hfuel : 2 ≤ fuel) (h : Reachable fuel P) :
    (Fresh P.heap ∧ ∀ p, P.objects p = none) ∨
      ∃ blocks, Keeps P.heap (poolStart P.heap.mp) blocks P.objects :=
  (h.settled hfuel).in_order

theorem pool_in_order_freed : ∃ (P : Process) (p q : Nat) (blocks : List Block), Reachable 2 P ∧
    p ≠ q ∧ (P.objects p).isSome ∧ (P.objects q).isSome ∧
    Keeps P.heap (poolStart P.heap.mp) blocks P.objects := by
  obtain ⟨heap, objects, p, q, h, hne, hp, hq, -⟩ := exists_objects
  rcases pool_in_order (Nat.le_refl 2) h.reachable with ⟨-, hnone⟩ | ⟨blocks, hkeeps⟩
  · cases (hnone p).symm.trans hp
  · exact ⟨⟨heap, objects⟩, p, q, blocks, h.reachable, hne, Option.isSome_of_eq_some hp,
      Option.isSome_of_eq_some hq, hkeeps⟩

/-! ## Which block is taken -/

/-- A block of the lowest class that has one, if a free block is high enough, and else the pool grows
by what is needed. -/
theorem malloc_good_fit (hfuel : 2 ≤ fuel) (h : Reachable fuel P) (hmp : P.heap.mp ≠ 0)
    (hs : Spacious P.heap size') :
    ∃ blocks a heap', Keeps P.heap (poolStart P.heap.mp) blocks P.objects ∧
      tlsfMalloc fuel size' P.heap = .ok (buffer a) heap' ∧
      ((heap'.brk = P.heap.brk ∧ ∃ m, freeOf (poolStart P.heap.mp) blocks a = some m ∧
          wanted size' ≤ m ∧ ∀ x k, freeOf (poolStart P.heap.mp) blocks x = some k →
            rank (wanted size') ≤ rank k → rank m ≤ rank k) ∨
        (∀ x k, freeOf (poolStart P.heap.mp) blocks x = some k → rank k < rank (wanted size')) ∧
          heap'.brk = some (P.heap.brk.getD 0 + areaFor (wanted size'))) := by
  rcases (h.settled hfuel).in_order with ⟨hfresh, -⟩ | ⟨blocks, hkeeps⟩
  · exact absurd hfresh.mp hmp
  · obtain ⟨r, heap', hmalloc, a, n, blocks', rfl, hall⟩ :=
      (outcome_mallocEx hkeeps.sound hs.modest hfuel).exists_ok
    refine ⟨blocks, a, heap', hkeeps, ?_, ?_⟩
    · unfold tlsfMalloc
      rw [bind_ok (firstArea_of_sound hkeeps.sound)]
      exact hmalloc
    · rw [hkeeps.sound.tidy.room.brk, Option.getD_some, ← hkeeps.sound.tidy.room.brk]
      exact hall.growth

theorem malloc_good_fit_twenty : ∃ (P : Process) (a : Nat) (heap' : Heap), Reachable 2 P ∧
    tlsfMalloc 2 20 P.heap = .ok (buffer a) heap' := by
  obtain ⟨heap, objects, p, q, h, -⟩ := exists_objects
  obtain ⟨s, blocks, hkeeps⟩ := h.keeps
  obtain ⟨blocks, a, heap', -, hmalloc, -⟩ := malloc_good_fit (Nat.le_refl 2) h.reachable
    hkeeps.sound.tidy.room.mp_ne (h.spacious (by decide) (by decide) : Spacious heap 20)
  exact ⟨⟨heap, objects⟩, a, heap', h.reachable, hmalloc⟩

/-- `tlsf_calloc` does not see that the product is too large for a word, and returns a block that is
too small for the elements. -/
theorem calloc_wraps (nelem elemSize : Nat) (hfuel : 2 ≤ fuel) (h : Reachable fuel P)
    (hne : nelem ≠ 0 ∧ elemSize ≠ 0) (hs : Spacious P.heap (nelem * elemSize % 2 ^ 64)) :
    ∃ a heap' blocks n, tlsfCalloc fuel nelem elemSize P.heap = .ok (buffer a) heap' ∧
      Sound heap' (poolStart heap'.mp) blocks ∧ Used (poolStart heap'.mp) blocks a n ∧
      n < wanted (nelem * elemSize % 2 ^ 64) + sizeofBhdr := by
  obtain ⟨⟨⟩, heap₁, hfirst, s, blocks, hkeeps, hm⟩ :=
    ((h.settled hfuel).outcome_firstArea hs).exists_ok
  obtain ⟨r, heap', hcalloc, a, n, blocks', rfl, hall, -⟩ :=
    (outcome_callocEx hkeeps.sound rfl hm hfuel hne).exists_ok
  refine ⟨a, heap', blocks', n, ?_, hall.sound.tidy.room.start ▸ hall.sound,
    hall.sound.tidy.room.start ▸ (hall.used a n).mpr (.inr ⟨rfl, rfl⟩), hall.tight⟩
  unfold tlsfCalloc
  rw [bind_ok hfirst]
  exact hcalloc

/-- Eight elements of two thousand terabytes and more in 48 bytes. -/
theorem calloc_wraps_eight : ∃ (a : Nat) (heap' : Heap) (blocks : List Block) (n : Nat),
    tlsfCalloc 2 8 (2 ^ 61 + 1) (bare 0x404000) = .ok (buffer a) heap' ∧
      Used (poolStart heap'.mp) blocks a n ∧ n < 48 := by
  obtain ⟨a, heap', blocks, n, hcalloc, -, hu, hn⟩ := calloc_wraps 8 (2 ^ 61 + 1)
    (P := ⟨bare 0x404000, Objects.empty⟩) (Nat.le_refl 2) (.start bare_fresh) (by decide) (by decide)
  exact ⟨a, heap', blocks, n, hcalloc, hu, hn⟩

/-! ## Memory that is lost -/

theorem asked_le (h : size' < maxSize) : asked size' ≤ size' + 16 := by
  unfold maxSize at h
  unfold asked minBlockSize roundUpSize blockAlign
  split <;> omega

/-- A block is not much larger than its object. -/
theorem waste_bounded (hfuel : 2 ≤ fuel) (h : Reachable fuel P) (hp : P.objects p = some cells) :
    ∃ blocks a n, Keeps P.heap (poolStart P.heap.mp) blocks P.objects ∧ p = buffer a ∧
      Used (poolStart P.heap.mp) blocks a n ∧ cells.length ≤ n ∧
      n < cells.length + (cells.length + 16) / 32 + 48 := by
  rcases (h.settled hfuel).in_order with ⟨-, hnone⟩ | ⟨blocks, hkeeps⟩
  · rw [hnone] at hp
    cases hp
  · obtain ⟨a, n, rfl, ha, hu, hlen, htight⟩ := hkeeps.object p cells hp
    have hsmall := (hkeeps.sound.used_ok hu ha).2.2.2.1
    refine ⟨blocks, a, n, hkeeps, rfl, hu, hlen, ?_⟩
    have hasked : asked cells.length ≤ cells.length + 16 := asked_le (by omega)
    have hclass : wanted cells.length ≤ asked cells.length + asked cells.length / 32 :=
      classSize_le _
    have hdiv : asked cells.length / 32 ≤ (cells.length + 16) / 32 := Nat.div_le_div_right hasked
    unfold sizeofBhdr at htight
    omega

theorem waste_bounded_hundred : ∃ (P : Process) (s : Nat) (blocks : List Block) (a n : Nat),
    Reachable 2 P ∧ Used s blocks a n ∧ 100 ≤ n ∧ n < 151 := by
  obtain ⟨heap, objects, p, q, h, -, hp, -⟩ := exists_objects
  obtain ⟨blocks, a, n, -, -, hu, hlow, hhigh⟩ := waste_bounded (Nat.le_refl 2) h.reachable hp
  rw [List.length_set, List.length_replicate] at hlow hhigh
  exact ⟨⟨heap, objects⟩, _, blocks, a, n, h.reachable, hu, hlow, hhigh⟩

/-- A free block in front of another one would not be separate from it. -/
theorem Spaced.eq_singleton {b : Block} {l : List Block} (h : Spaced (b :: l))
    (hfree : ∀ c ∈ b :: l, c.free = true) : l = [] := by
  cases l with
  | nil => rfl
  | cons c l =>
    exact absurd ⟨hfree b List.mem_cons_self, hfree c (List.mem_cons_of_mem _ List.mem_cons_self)⟩
      (List.isChain_cons_cons.mp h).1

/-- If the process has no objects, then all that the pool has got is one free block. -/
theorem one_block_left (hfuel : 2 ≤ fuel) (h : Reachable fuel P) (hmp : P.heap.mp ≠ 0)
    (hnone : ∀ p, P.objects p = none) :
    ∃ n, Sound P.heap (poolStart P.heap.mp) [⟨sizeofAreaInfo, false⟩, ⟨n, true⟩, ⟨0, false⟩] ∧
      P.heap.brk = some (poolStart P.heap.mp + 64 + n) := by
  rcases (h.settled hfuel).in_order with ⟨hfresh, -⟩ | ⟨blocks, hkeeps⟩
  · exact absurd hfresh.mp hmp
  · have hroom := hkeeps.sound.tidy.room
    obtain ⟨front, rfl, hfront, hfirst⟩ := hroom.exists_front
    obtain ⟨mid, rfl⟩ := List.head?_eq_some_iff.mp hfirst
    have hfull := hroom.full
    rw [List.dropLast_concat] at hfull
    have hlast := hkeeps.large
    rw [hroom.brk, Option.getD_some] at hlast
    -- no block in the middle is used
    have hfree : ∀ b ∈ mid, b.free = true := by
      intro b hb
      by_contra hused
      obtain ⟨n, f⟩ := b
      rw [Bool.not_eq_true] at hused
      dsimp only at hused
      subst hused
      obtain ⟨l, l', rfl⟩ := List.append_of_mem hb
      have hne : n ≠ 0 := hfull ⟨n, false⟩ (List.mem_cons_of_mem _ hb)
      have hu : Used (poolStart P.heap.mp)
          (⟨sizeofAreaInfo, false⟩ :: (l ++ ⟨n, false⟩ :: l') ++ [⟨0, false⟩])
          (endOf (poolStart P.heap.mp) (⟨sizeofAreaInfo, false⟩ :: l)) n := by
        refine ⟨hne, ?_⟩
        rw [List.cons_append, List.append_assoc, ← List.cons_append]
        exact placed_middle
      have hle : poolStart P.heap.mp + 32 ≤
          endOf (poolStart P.heap.mp) (⟨sizeofAreaInfo, false⟩ :: l) := le_stopOf
      have hsome := hkeeps.owned _ n (by omega) hu
      rw [hnone] at hsome
      cases hsome
    cases mid with
    | nil =>
      have hend : endOf (poolStart P.heap.mp) ([⟨sizeofAreaInfo, false⟩] ++ [⟨0, false⟩]) =
        poolStart P.heap.mp + 48 := rfl
      rw [hend, poolStart_eq] at hlast
      unfold defaultAreaSize at hlast
      omega
    | cons b mid =>
      have hmid : Spaced (b :: mid) := hkeeps.sound.tidy.spaced.left_of_append.of_cons
      obtain rfl := hmid.eq_singleton hfree
      obtain ⟨n, f⟩ := b
      have hf : f = true := hfree _ List.mem_cons_self
      subst hf
      refine ⟨n, hkeeps.sound, hroom.brk.trans (congrArg some ?_)⟩
      change poolStart P.heap.mp + 32 + (16 + n) + 16 = _
      omega

theorem one_block_left_grown : ∃ (P : Process) (n : Nat), Reachable 2 P ∧
    P.heap.mp + 20000 ≤ P.heap.brk.getD 0 ∧
    P.heap.brk = some (poolStart P.heap.mp + 64 + n) := by
  obtain ⟨heap, objects, p, q, h, hne, hp, hq, hnone⟩ := exists_objects
  obtain ⟨heap₁, h₁⟩ := h.free hp
  obtain ⟨heap₂, h₂⟩ := h₁.free ((Objects.drop_of_ne hne.symm).trans hq)
  obtain ⟨s, blocks, hkeeps⟩ := h₂.keeps
  obtain ⟨n, -, hbrk⟩ := one_block_left (Nat.le_refl 2) h₂.reachable hkeeps.sound.tidy.room.mp_ne
    fun x => by
      by_cases hxq : x = q
      · rw [hxq]
        exact Objects.drop_self
      · by_cases hxp : x = p
        · rw [hxp]
          exact (Objects.drop_of_ne hne).trans Objects.drop_self
        · exact (Objects.drop_of_ne hxq).trans ((Objects.drop_of_ne hxp).trans (hnone x hxp hxq))
  exact ⟨_, n, h₂.reachable, h₂.low, hbrk⟩

/-! ## Objects that stay where they are -/

/-- An object that gets smaller does not move. -/
theorem realloc_in_place (hfuel : 2 ≤ fuel) (h : Reachable fuel P) (hp : P.objects p = some cells)
    (hne : size' ≠ 0) (hle : size' ≤ cells.length) :
    ∃ heap', tlsfRealloc fuel p size' P.heap = .ok p heap' ∧ heap'.brk = P.heap.brk ∧
      ∀ i < size', heap'.memory (p + i) = P.heap.memory (p + i) := by
  rcases (h.settled hfuel).in_order with ⟨-, hnone⟩ | ⟨blocks, hkeeps⟩
  · rw [hnone] at hp
    cases hp
  · obtain ⟨a, n, rfl, ha, hu, hlen, -⟩ := hkeeps.object p cells hp
    have hlt := (hkeeps.sound.used_ok hu ha).2.2.2.1
    have hfits : asked size' ≤ n := by
      have hn := hu.1
      obtain ⟨j, hj⟩ := hkeeps.sound.tidy.room.aligned _ (placed_mem hu.2)
      unfold maxSize at hlt
      unfold asked minBlockSize roundUpSize
      unfold blockAlign at hj ⊢
      dsimp only at hj
      split <;> omega
    have hstay := @outcome_reallocEx_inPlace _ _ _ _ fuel _ _ hkeeps.sound hu ha
      (Nat.lt_of_le_of_lt (by omega) hlt) hne hfits
    obtain ⟨r, heap', hrealloc, rfl, m, blocks', -, -, hr⟩ := hstay.exists_ok
    refine ⟨heap', ?_, hr.same.brk, fun i hi => hr.same.memory _ (.inr ⟨by omega, by omega⟩)⟩
    have hget : (get : Program Heap) P.heap = .ok P.heap P.heap := rfl
    unfold tlsfRealloc
    rw [bind_ok hget, if_neg hkeeps.sound.tidy.room.mp_ne]
    exact hrealloc

theorem realloc_in_place_half : ∃ (P : Process) (p : Nat) (heap' : Heap), Reachable 2 P ∧
    tlsfRealloc 2 p 50 P.heap = .ok p heap' := by
  obtain ⟨heap, objects, p, q, h, -, hp, -⟩ := exists_objects
  have hle : 50 ≤ ((List.replicate 100 (none : Option Byte)).set 99 (some 7)).length := by
    rw [List.length_set, List.length_replicate]
    decide
  obtain ⟨heap', hrealloc, -⟩ :=
    realloc_in_place (Nat.le_refl 2) h.reachable hp (by decide) hle
  exact ⟨⟨heap, objects⟩, p, heap', h.reachable, hrealloc⟩

end

end Egos.Libc.Tlsf
