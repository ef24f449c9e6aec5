import Egos.Libc.Sha256

/-!
# The digest of `sha256.c`

The lower 32 bits of every word are those of the standard, whatever is above them, and it does not
matter in which pieces a message comes.
-/
namespace Egos.Libc.Sha256

open Egos.Lib
open Egos.Lib.Sha256 (Word Work)

set_option autoImplicit false

section

variable {w n : Nat} {x y z : BitVec w}

/-! ## The lower 32 bits -/

theorem low_add (hw : 32 ≤ w) : low (x + y) = low x + low y := BitVec.setWidth_add _ _ hw

theorem low_shr (hw : 32 ≤ w) : low (shr x n) = low x >>> n := by
  unfold low shr
  ext i hi
  simp only [BitVec.getElem_setWidth, BitVec.getLsbD_ushiftRight, BitVec.getLsbD_and,
    BitVec.getElem_ushiftRight, BitVec.getLsbD_setWidth]
  have hmask : (0xFFFFFFFF#w).getLsbD (n + i) = decide (n + i < 32) := by
    rw [BitVec.getLsbD_ofNat, show (0xFFFFFFFF : Nat) = 2 ^ 32 - 1 from rfl,
      Nat.testBit_two_pow_sub_one]
    by_cases h : n + i < 32
    · simp [h, show n + i < w by omega]
    · simp [h]
  rw [hmask, Bool.and_comm]

theorem low_rotr (hw : 32 ≤ w) (hn : n < 32) : low (rotr x n) = (low x).rotateRight n := by
  unfold rotr
  rw [BitVec.rotateRight_def, Nat.mod_eq_of_lt hn, ← low_shr hw]
  unfold low
  rw [BitVec.setWidth_or, BitVec.setWidth_shiftLeft_of_le hw]

theorem low_xor : low (x ^^^ y) = low x ^^^ low y := BitVec.setWidth_xor

theorem low_s0 (hw : 32 ≤ w) : low (s0 x) = Sha256.sigma0 (low x) := by
  unfold s0 Sha256.sigma0
  rw [low_xor, low_xor, low_rotr hw (by decide), low_rotr hw (by decide), low_shr hw]

theorem low_s1 (hw : 32 ≤ w) : low (s1 x) = Sha256.sigma1 (low x) := by
  unfold s1 Sha256.sigma1
  rw [low_xor, low_xor, low_rotr hw (by decide), low_rotr hw (by decide), low_shr hw]

theorem low_s2 (hw : 32 ≤ w) : low (s2 x) = Sha256.bigSigma0 (low x) := by
  unfold s2 Sha256.bigSigma0
  rw [low_xor, low_xor, low_rotr hw (by decide), low_rotr hw (by decide), low_rotr hw (by decide)]

theorem low_s3 (hw : 32 ≤ w) : low (s3 x) = Sha256.bigSigma1 (low x) := by
  unfold s3 Sha256.bigSigma1
  rw [low_xor, low_xor, low_rotr hw (by decide), low_rotr hw (by decide), low_rotr hw (by decide)]

theorem low_f0 : low (f0 x y z) = Sha256.maj (low x) (low y) (low z) := by
  unfold low f0 Sha256.maj
  ext i hi
  simp only [BitVec.getElem_setWidth, BitVec.getLsbD_or, BitVec.getLsbD_and, BitVec.getElem_xor,
    BitVec.getElem_and]
  cases x.getLsbD i <;> cases y.getLsbD i <;> cases z.getLsbD i <;> rfl

theorem low_f1 : low (f1 x y z) = Sha256.ch (low x) (low y) (low z) := by
  unfold low f1 Sha256.ch
  ext i hi
  simp only [BitVec.getElem_setWidth, BitVec.getLsbD_xor, BitVec.getLsbD_and, BitVec.getElem_xor,
    BitVec.getElem_and, BitVec.getElem_not]
  cases x.getLsbD i <;> cases y.getLsbD i <;> cases z.getLsbD i <;> rfl

theorem low_ofNat (hw : 32 ≤ w) (k : Nat) : low (BitVec.ofNat w k) = BitVec.ofNat 32 k := by
  unfold low
  apply BitVec.eq_of_toNat_eq
  rw [BitVec.toNat_setWidth, BitVec.toNat_ofNat, BitVec.toNat_ofNat,
    Nat.mod_mod_of_dvd _ (Nat.pow_dvd_pow 2 hw)]

theorem getLsbD_shifted {b : Byte} {k : Nat} (hk : k < w) :
    (b.setWidth w <<< n).getLsbD k = (decide (n ≤ k) && b.getLsbD (k - n)) := by
  rw [BitVec.getLsbD_shiftLeft, BitVec.getLsbD_setWidth]
  by_cases hn : n ≤ k
  · simp [hk, hn, show k - n < w by omega]
  · simp [hn]

/-- Big-endian. -/
theorem low_getUint32 (hw : 32 ≤ w) (b : Buffer) (i : Nat) :
    low (getUint32 (w := w) b i) = b i ++ b (i + 1) ++ b (i + 2) ++ b (i + 3) := by
  have hzero : ∀ (c : Byte) {k : Nat}, 8 ≤ k → c.getLsbD k = false := fun c _ hk =>
    BitVec.getLsbD_of_ge c _ hk
  unfold low getUint32
  apply BitVec.eq_of_getLsbD_eq
  intro k hk
  change _ = (b i ++ b (i + 1) ++ b (i + 2) ++ b (i + 3)).getLsbD k
  have hkw : k < w := by omega
  have hlast : ((b (i + 3)).setWidth w).getLsbD k = (b (i + 3)).getLsbD k := by
    rw [BitVec.getLsbD_setWidth, decide_eq_true hkw, Bool.true_and]
  rw [BitVec.getLsbD_append, BitVec.getLsbD_append, BitVec.getLsbD_append, BitVec.getLsbD_setWidth,
    BitVec.getLsbD_or, BitVec.getLsbD_or, BitVec.getLsbD_or, getLsbD_shifted hkw,
    getLsbD_shifted hkw, getLsbD_shifted hkw, hlast, decide_eq_true hk, Bool.true_and]
  by_cases h8 : k < 8
  · simp [h8, show ¬ 24 ≤ k by omega, show ¬ 16 ≤ k by omega, show ¬ 8 ≤ k by omega]
  · rw [hzero (b (i + 3)) (by omega)]
    by_cases h16 : k < 16
    · simp [h8, show ¬ 24 ≤ k by omega, show ¬ 16 ≤ k by omega, show 8 ≤ k by omega,
        show k - 8 < 8 by omega]
    · rw [hzero (b (i + 2)) (by omega)]
      by_cases h24 : k < 24
      · simp [h8, show ¬ 24 ≤ k by omega, show 16 ≤ k by omega, show ¬ k - 8 < 8 by omega,
          show k - 16 < 8 by omega, Nat.sub_sub]
      · rw [hzero (b (i + 1)) (by omega)]
        simp [h8, show 24 ≤ k by omega, show ¬ k - 8 < 8 by omega, show ¬ k - 16 < 8 by omega,
          Nat.sub_sub]

end

/-! ## One block -/

section

variable {w n : Nat} {v : Vector (BitVec w) 8} {x K : BitVec w} {data : Buffer} {i j : Fin 8}

theorem argument_succ : argument (n + 1) (i + 1) = argument n i := by
  have hshift : ∀ i k : Fin 8, i + 1 - (k + 1) = i - k := by decide
  have hsucc : Fin.ofNat 8 (n + 1) = Fin.ofNat 8 n + 1 := by
    apply Fin.ext
    simp [Fin.val_add]
  unfold argument
  rw [hsucc, hshift]

theorem argument_inj : argument n i = argument n j ↔ i = j := by
  have hinj : ∀ i j k : Fin 8, i - k = j - k ↔ i = j := by decide +kernel
  exact hinj i j _

/-- Eight calls later the variables have come back to their places. -/
theorem argument_last : argument 64 i = argument 0 i := rfl

theorem vector_get (u : Vector (BitVec w) 8) (i : Fin 8) : u.get i = getElem u i.val i.isLt := rfl

theorem set_set_get {a b : BitVec w} {k : Fin 8} :
    ((v.set (argument n i) a (argument n i).isLt).set (argument n j) b (argument n j).isLt).get
        (argument n k) =
      if k = j then b else if k = i then a else v.get (argument n k) := by
  simp only [vector_get, Vector.getElem_set, ← Fin.ext_iff, argument_inj, eq_comm]

/-- The next `P` names each variable one place further. -/
theorem roles_succ : roles (n + 1) v =
    { a := low (v.get (argument n 7)), b := low (v.get (argument n 0)),
      c := low (v.get (argument n 1)), d := low (v.get (argument n 2)),
      e := low (v.get (argument n 3)), f := low (v.get (argument n 4)),
      g := low (v.get (argument n 5)), h := low (v.get (argument n 6)) } := by
  change Work.mk (low (v.get (argument (n + 1) (7 + 1)))) (low (v.get (argument (n + 1) (0 + 1))))
    (low (v.get (argument (n + 1) (1 + 1)))) (low (v.get (argument (n + 1) (2 + 1))))
    (low (v.get (argument (n + 1) (3 + 1)))) (low (v.get (argument (n + 1) (4 + 1))))
    (low (v.get (argument (n + 1) (5 + 1)))) (low (v.get (argument (n + 1) (6 + 1)))) = _
  simp only [argument_succ]

theorem roles_p (hw : 32 ≤ w) :
    roles (n + 1) (p n v x K) = Sha256.round (low K) (low x) (roles n v) := by
  have hget (i : Fin 8) : v[argument n i] = v.get (argument n i) := rfl
  rw [roles_succ]
  unfold roles Sha256.round p
  dsimp only
  simp only [hget, set_set_get]
  simp [low_add hw, low_s2 hw, low_s3 hw, low_f0, low_f1]

theorem table_constant (t : Nat) : BitVec.ofNat 32 (table.getD t 0) = Sha256.constant t := by
  have htable : table.map (BitVec.ofNat 32) = Sha256.primes.map (Sha256.fraction 3) := by
    rw [Sha256.primes_eq]
    decide +kernel
  have hzero : BitVec.ofNat 32 0 = Sha256.fraction 3 0 := by decide +kernel
  rw [Sha256.constant, ← List.getD_map _ _ (BitVec.ofNat 32), htable, hzero,
    List.getD_map]

/-- The words of the block at `data`. -/
def inputWord (data : Buffer) (t : Nat) : Word :=
  data (4 * t) ++ data (4 * t + 1) ++ data (4 * t + 2) ++ data (4 * t + 3)

/-- After `n` of the `P`. -/
structure Rounds (data : Buffer) (v : Vector (BitVec w) 8) (n : Nat)
    (R : List (BitVec w) × Vector (BitVec w) 8) : Prop where
  length : R.1.length = 64
  schedule : ∀ t, t < 16 ∨ t < n → t < 64 →
    low (R.1.getD t 0) = Sha256.schedule (inputWord data) t
  working : roles n R.2 = Sha256.workAfter (inputWord data) (words v) n

theorem rounds_first (hw : 32 ≤ w) : Rounds data v 0 (rounds data v 0) := by
  refine ⟨by simp [rounds], fun t ht hlt => ?_, rfl⟩
  have h16 : t < 16 := by omega
  rw [Sha256.schedule_of_lt h16, rounds, List.getD_eq_getElem?_getD, List.getElem?_map,
    List.getElem?_range hlt, Option.map_some, Option.getD_some, if_pos h16, low_getUint32 hw]
  rfl

theorem Rounds.next {W W' : List (BitVec w)} {u : Vector (BitVec w) 8} (hw : 32 ≤ w) (hn : n < 64)
    (h : Rounds data v n (W, u)) (hW' : W' = if n < 16 then W else W.set n (r W n)) :
    Rounds data v (n + 1) (W', p n u (W'.getD n 0) (BitVec.ofNat w (table.getD n 0))) := by
  obtain ⟨hlen, hschedule, hroles⟩ := h
  dsimp only at hlen hschedule hroles
  have hnext : W'.length = 64 ∧ ∀ t, t < 16 ∨ t < n + 1 → t < 64 →
      low (W'.getD t 0) = Sha256.schedule (inputWord data) t := by
    rw [hW']
    split
    · next h16 =>
      exact ⟨hlen, fun t ht hlt => hschedule t (by omega) hlt⟩
    · next h16 =>
      refine ⟨by rw [List.length_set, hlen], fun t ht hlt => ?_⟩
      rw [List.getD_eq_getElem?_getD, List.getElem?_set]
      by_cases htn : n = t
      · subst htn
        rw [if_pos rfl, if_pos (by omega), Option.getD_some, Sha256.schedule_of_le (by omega)]
        unfold r
        rw [low_add hw, low_add hw, low_add hw, low_s1 hw, low_s0 hw,
          hschedule _ (by omega) (by omega), hschedule _ (by omega) (by omega),
          hschedule _ (by omega) (by omega),
          hschedule _ (by omega) (by omega)]
      · rw [if_neg htn, ← List.getD_eq_getElem?_getD]
        exact hschedule t (by omega) hlt
  refine ⟨hnext.1, hnext.2, ?_⟩
  rw [roles_p hw, hroles, hnext.2 n (by omega) hn, low_ofNat hw, table_constant n]
  rfl

theorem rounds_ok (hw : 32 ≤ w) (data : Buffer) (v : Vector (BitVec w) 8) (hn : n ≤ 64) :
    Rounds data v n (rounds data v n) := by
  induction n with
  | zero => exact rounds_first hw
  | succ n ih => exact (ih (by omega)).next hw hn rfl

/-- `sha256_process` compresses a block as the standard says. -/
theorem process_compresses (hw : 32 ≤ w) (ctx : Context w) {block : List Byte}
    (hblock : ∀ i < 64, data i = bytesAt block i) :
    words (sha256Process ctx data).state = Sha256.compress (words ctx.state) block := by
  have hword : ∀ t < 16, inputWord data t = Sha256.wordAt block t := by
    intro t ht
    unfold inputWord
    rw [hblock _ (by omega), hblock _ (by omega), hblock _ (by omega), hblock _ (by omega)]
    rfl
  have h := (rounds_ok hw data ctx.state (Nat.le_refl 64)).working
  rw [Sha256.workAfter_congr hword] at h
  unfold Sha256.compress
  rw [← h]
  unfold sha256Process words roles Sha256.Work.add
  dsimp only
  simp only [argument_last, vector_get, Vector.getElem_zipWith, low_add hw]

end

/-! ## Messages -/

section

variable {w n : Nat} {ctx : Context w} {m l : List Byte}

/-- What has been absorbed of a message. -/
abbrev absorbed (m : List Byte) : Work × List Byte := absorb Sha256.compress 64 Sha256.iv m

/-- The context of a message that has come so far. -/
structure Takes (ctx : Context w) (m : List Byte) : Prop where
  total0 : ctx.total0.toNat = m.length % 2 ^ 32
  total1 : low ctx.total1 = BitVec.ofNat 32 (m.length / 2 ^ 32)
  state : words ctx.state = (absorbed m).1
  buffer : ∀ i < (absorbed m).2.length, ctx.buffer i = bytesAt (absorbed m).2 i

theorem starts_takes (hw : 32 ≤ w) (ctx : Context w) : Takes (sha256Starts ctx) [] := by
  have hnil : absorbed [] = (Sha256.iv, []) := absorb_of_lt (by decide)
  refine ⟨rfl, ?_, ?_, fun i hi => ?_⟩
  · change low (BitVec.ofNat w 0) = _
    rw [low_ofNat hw]
    rfl
  · rw [hnil]
    unfold words roles sha256Starts
    simp only [vector_get, Vector.getElem_map, low_ofNat hw]
    decide +kernel
  · rw [hnil] at hi
    cases hi

theorem processBlocks_absorb (hw : 32 ≤ w) (ctx : Context w) (l : List Byte) :
    (processBlocks ctx l).1 = { ctx with state := (processBlocks ctx l).1.state } ∧
      (words (processBlocks ctx l).1.state, (processBlocks ctx l).2) =
        absorb Sha256.compress 64 (words ctx.state) l := by
  induction ctx, l using processBlocks.induct with
  | case1 ctx l h ih =>
    have hblock : ∀ i < 64, bytesAt l i = bytesAt (l.take 64) i := by
      intro i hi
      unfold bytesAt
      rw [List.getD_eq_getElem?_getD, List.getD_eq_getElem?_getD, List.getElem?_take_of_lt hi]
    rw [processBlocks, dif_pos h, absorb, dif_pos ⟨by decide, h⟩,
      ← process_compresses hw ctx hblock]
    exact ⟨ih.1, ih.2⟩
  | case2 ctx l h =>
    rw [processBlocks, dif_neg h, absorb, dif_neg (by omega)]
    exact ⟨rfl, rfl⟩

/-- The end of `sha256_update`, when what has been left over before is in the buffer. -/
theorem absorbRest_absorb (hw : 32 ≤ w) (ctx : Context w) (left : Nat) (rest l : List Byte)
    (hleft : left = rest.length)
    (hbuffer : ∀ i < rest.length, ctx.buffer i = bytesAt rest i)
    (hfits : rest = [] ∨ rest.length + l.length < 64) :
    absorbRest ctx left l = { ctx with
      state := (absorbRest ctx left l).state
      buffer := (absorbRest ctx left l).buffer } ∧
    words (absorbRest ctx left l).state =
      (absorb Sha256.compress 64 (words ctx.state) (rest ++ l)).1 ∧
    ∀ i < (absorb Sha256.compress 64 (words ctx.state) (rest ++ l)).2.length,
      (absorbRest ctx left l).buffer i =
        bytesAt (absorb Sha256.compress 64 (words ctx.state) (rest ++ l)).2 i := by
  obtain ⟨hframe, habsorb⟩ := processBlocks_absorb hw ctx l
  -- what is left over: from the input, or all that there is
  have hleftover : ∃ l', (processBlocks ctx l).2 = l' ∧
      absorb Sha256.compress 64 (words ctx.state) (rest ++ l) =
        (words (processBlocks ctx l).1.state, rest ++ l') := by
    rcases hfits with rfl | hshort
    · exact ⟨_, rfl, habsorb.symm⟩
    · have hl : processBlocks ctx l = (ctx, l) := by
        rw [processBlocks, dif_neg (by omega)]
      refine ⟨l, by rw [hl], ?_⟩
      rw [hl, absorb_of_lt (by rw [List.length_append]; exact hshort)]
  obtain ⟨l', hl', hall⟩ := hleftover
  have hctx : absorbRest ctx left l = { (processBlocks ctx l).1 with
      buffer := overlay ctx.buffer left l' } := by
    unfold absorbRest
    dsimp only
    rw [hl']
    split
    · rw [hframe]
    · next hnil =>
      have hnil : l' = [] := List.length_eq_zero_iff.mp (not_not.mp hnil)
      subst hnil
      have hoverlay : overlay ctx.buffer left [] = ctx.buffer := by
        funext k
        exact overlay_outside (by rw [List.length_nil]; omega)
      rw [hoverlay, hframe]
  rw [hall, hctx]
  refine ⟨?_, rfl, fun i hi => ?_⟩
  · rw [hframe]
  · dsimp only at hi ⊢
    rw [List.length_append] at hi
    unfold bytesAt
    by_cases hrest : i < rest.length
    · rw [overlay_outside (.inl (by omega)), hbuffer i hrest, List.getD_append _ _ _ _ hrest]
      rfl
    · obtain ⟨k, rfl⟩ := Nat.exists_eq_add_of_le (Nat.not_lt.mp hrest)
      rw [hleft, overlay_inside (by omega), List.getD_append_right _ _ _ _ (Nat.le_add_right _ _),
        Nat.add_sub_cancel_left]

theorem absorbRest_takes (hw : 32 ≤ w) {left : Nat} {rest : List Byte}
    (hleft : left = rest.length) (hbuffer : ∀ i < rest.length, ctx.buffer i = bytesAt rest i)
    (hfits : rest = [] ∨ rest.length + l.length < 64) (h0 : ctx.total0.toNat = m.length % 2 ^ 32)
    (h1 : low ctx.total1 = BitVec.ofNat 32 (m.length / 2 ^ 32))
    (hall : absorbed m = absorb Sha256.compress 64 (words ctx.state) (rest ++ l)) :
    Takes (absorbRest ctx left l) m := by
  obtain ⟨hframe, hstate, hbytes⟩ := absorbRest_absorb hw ctx left rest l hleft hbuffer hfits
  refine ⟨?_, ?_, hstate.trans (congrArg Prod.fst hall.symm), fun i hi => ?_⟩
  · rw [hframe]
    exact h0
  · rw [hframe]
    exact h1
  · rw [hall] at hi ⊢
    exact hbytes i hi

/-- `total[0] & 0x3F` -/
theorem left_eq (hw : 32 ≤ w) (h : Takes ctx m) :
    (ctx.total0 &&& 0x3F).toNat = (absorbed m).2.length := by
  have hmask : (0x3F : BitVec w).toNat = 2 ^ 6 - 1 := by
    change 0x3F % 2 ^ w = _
    exact Nat.mod_eq_of_lt (Nat.lt_of_lt_of_le (by decide) (Nat.pow_le_pow_right (by decide) hw))
  rw [BitVec.toNat_and, hmask, Nat.and_two_pow_sub_one_eq_mod, h.total0,
    Nat.mod_mod_of_dvd _ (by decide), absorb_length (by decide)]

/-- The counters, when `total[0]` overflows and when not. -/
theorem totals_ok (hw : 32 ≤ w) (h : Takes ctx m) (hl : l.length < 2 ^ 32)
    {total0 total1 : BitVec w}
    (h0 : total0 = (ctx.total0 + BitVec.ofNat w l.length) &&& 0xFFFFFFFF#w)
    (h1 : total1 = if total0 < BitVec.ofNat w l.length then ctx.total1 + 1 else ctx.total1) :
    total0.toNat = (m ++ l).length % 2 ^ 32 ∧
      low total1 = BitVec.ofNat 32 ((m ++ l).length / 2 ^ 32) := by
  have hpow : 2 ^ 32 ≤ 2 ^ w := Nat.pow_le_pow_right (by decide) hw
  have hlen : (BitVec.ofNat w l.length).toNat = l.length := by
    rw [BitVec.toNat_ofNat, Nat.mod_eq_of_lt (Nat.lt_of_lt_of_le hl hpow)]
  have hmask : (0xFFFFFFFF#w).toNat = 2 ^ 32 - 1 := by
    rw [BitVec.toNat_ofNat]
    exact Nat.mod_eq_of_lt (Nat.lt_of_lt_of_le (by decide) hpow)
  have htotal : total0.toNat = (m.length % 2 ^ 32 + l.length) % 2 ^ 32 := by
    rw [h0, BitVec.toNat_and, hmask, Nat.and_two_pow_sub_one_eq_mod, BitVec.toNat_add, hlen,
      h.total0, Nat.mod_mod_of_dvd _ (Nat.pow_dvd_pow 2 hw)]
  rw [List.length_append]
  refine ⟨by omega, ?_⟩
  have hcarry : total0 < BitVec.ofNat w l.length ↔
      (m.length % 2 ^ 32 + l.length) % 2 ^ 32 < l.length := by
    rw [BitVec.lt_def, hlen, htotal]
  rw [h1]
  split
  · next hlt =>
    rw [hcarry] at hlt
    have hone : low (1 : BitVec w) = 1 := low_ofNat hw 1
    rw [low_add hw, h.total1, hone, show (1 : Word) = BitVec.ofNat 32 1 from rfl,
      ← BitVec.ofNat_add]
    congr 1
    omega
  · next hlt =>
    rw [hcarry] at hlt
    rw [h.total1]
    congr 1
    omega

theorem update_takes (hw : 32 ≤ w) (h : Takes ctx m) (hl : l.length < 2 ^ 32) :
    Takes (sha256Update ctx l) (m ++ l) := by
  have hpow : 2 ^ 32 ≤ 2 ^ w := Nat.pow_le_pow_right (by decide) hw
  obtain ⟨total0, h0⟩ : ∃ t, t = (ctx.total0 + BitVec.ofNat w l.length) &&& 0xFFFFFFFF#w := ⟨_, rfl⟩
  obtain ⟨total1, h1⟩ : ∃ t, t = if total0 < BitVec.ofNat w l.length then ctx.total1 + 1
    else ctx.total1 := ⟨_, rfl⟩
  obtain ⟨ht0, ht1⟩ := totals_ok hw h hl h0 h1
  have hlength : (absorbed m).2.length = m.length % 64 := absorb_length (by decide)
  unfold sha256Update
  dsimp only
  rw [left_eq hw h, ← h0, ← h1]
  by_cases hnil : BitVec.ofNat w l.length = 0
  · have hzero : l.length = 0 := by
      have hlen := congrArg BitVec.toNat hnil
      rw [BitVec.toNat_ofNat, Nat.mod_eq_of_lt (Nat.lt_of_lt_of_le hl hpow)] at hlen
      exact hlen.trans BitVec.toNat_zero
    rw [if_pos hnil, List.length_eq_zero_iff.mp hzero, List.append_nil]
    exact h
  · rw [if_neg hnil]
    have hrest : (absorbed m).2.length < 64 := hlength ▸ Nat.mod_lt _ (by decide)
    have hall : absorbed (m ++ l) =
        absorb Sha256.compress 64 (words ctx.state) ((absorbed m).2 ++ l) := by
      rw [h.state]
      exact absorb_append
    obtain ⟨fill, hfill⟩ : ∃ k, k = 64 - (absorbed m).2.length := ⟨_, rfl⟩
    rw [← hfill]
    by_cases hfull : (absorbed m).2.length ≠ 0 ∧ fill ≤ l.length
    · -- the buffer gets full
      rw [if_pos hfull]
      have htake : (l.take fill).length = fill := List.length_take_of_le hfull.2
      have hblock : ((absorbed m).2 ++ l.take fill).length = 64 := by
        rw [List.length_append, htake]
        omega
      obtain ⟨filled, hfilled⟩ : ∃ b, b = overlay ctx.buffer (absorbed m).2.length (l.take fill) :=
        ⟨_, rfl⟩
      rw [← hfilled]
      have hbuffer : ∀ i < 64, filled i = bytesAt ((absorbed m).2 ++ l.take fill) i := by
        intro i hi
        rw [hfilled]
        unfold bytesAt
        by_cases hlow : i < (absorbed m).2.length
        · rw [overlay_outside (.inl hlow), h.buffer i hlow, List.getD_append _ _ _ _ hlow]
          rfl
        · obtain ⟨k, rfl⟩ := Nat.exists_eq_add_of_le (Nat.not_lt.mp hlow)
          rw [overlay_inside (by omega), List.getD_append_right _ _ _ _ (Nat.le_add_right _ _),
            Nat.add_sub_cancel_left]
      have hsplit : absorb Sha256.compress 64 (words ctx.state) ((absorbed m).2 ++ l) =
          absorb Sha256.compress 64
            (Sha256.compress (words ctx.state) ((absorbed m).2 ++ l.take fill)) (l.drop fill) := by
        conv_lhs => rw [← List.take_append_drop fill l, ← List.append_assoc]
        exact absorb_block (by decide) hblock
      refine absorbRest_takes hw (List.length_nil).symm (fun i hi => by cases hi) (.inl rfl) ht0 ht1
        ?_
      rw [process_compresses hw _ hbuffer, List.nil_append]
      exact hall.trans hsplit
    · rw [if_neg hfull]
      refine absorbRest_takes hw rfl h.buffer ?_ ht0 ht1 hall
      by_cases hzero : (absorbed m).2.length = 0
      · exact .inl (List.length_eq_zero_iff.mp hzero)
      · exact .inr (by omega)

end

/-! ## The padding -/

section

variable {w : Nat} {ctx : Context w} {m : List Byte}

theorem putUint32_eq (x : BitVec w) : putUint32 x = Sha256.bytes 4 (low x) := by
  have hbyte : ∀ k ≤ 24, (x >>> k).setWidth 8 = (low x).extractLsb' k 8 := by
    intro k hk
    ext i hi
    rw [BitVec.getElem_setWidth, BitVec.getLsbD_ushiftRight, BitVec.getElem_extractLsb']
    unfold low
    rw [BitVec.getLsbD_setWidth, decide_eq_true (by omega), Bool.true_and]
  have hlast : x.setWidth 8 = (low x).extractLsb' 0 8 := by
    rw [← hbyte 0 (by decide), BitVec.ushiftRight_zero]
  unfold putUint32
  rw [hbyte 24 (by decide), hbyte 16 (by decide), hbyte 8 (by decide), hlast]
  rfl

theorem bytes_eight (k : Nat) : Sha256.bytes 8 (BitVec.ofNat 64 k) =
    Sha256.bytes 4 (BitVec.ofNat 32 (k / 2 ^ 32)) ++ Sha256.bytes 4 (BitVec.ofNat 32 k) := by
  have hlow : ∀ j, j + 8 ≤ 32 →
      (BitVec.ofNat 64 k).extractLsb' j 8 = (BitVec.ofNat 32 k).extractLsb' j 8 := by
    intro j hj
    ext i hi
    rw [BitVec.getElem_extractLsb', BitVec.getElem_extractLsb', BitVec.getLsbD_ofNat,
      BitVec.getLsbD_ofNat, decide_eq_true (by omega), decide_eq_true (by omega)]
  have hhigh : ∀ j, j + 8 ≤ 32 → (BitVec.ofNat 64 k).extractLsb' (32 + j) 8 =
      (BitVec.ofNat 32 (k / 2 ^ 32)).extractLsb' j 8 := by
    intro j hj
    ext i hi
    rw [BitVec.getElem_extractLsb', BitVec.getElem_extractLsb', BitVec.getLsbD_ofNat,
      BitVec.getLsbD_ofNat, decide_eq_true (by omega), decide_eq_true (by omega),
      Nat.testBit_div_two_pow, show 32 + j + i = j + i + 32 by omega]
  change [_, _, _, _, _, _, _, _] = [_, _, _, _] ++ [_, _, _, _]
  simp only [List.cons_append, List.nil_append, List.cons.injEq, and_true]
  exact ⟨hhigh 24 (by decide), hhigh 16 (by decide), hhigh 8 (by decide), hhigh 0 (by decide),
    hlow 24 (by decide), hlow 16 (by decide), hlow 8 (by decide), hlow 0 (by decide)⟩

/-- The number of bits, in two words. -/
theorem msglen_eq (hw : 32 ≤ w) (h : Takes ctx m) :
    putUint32 (ctx.total0 >>> 29 ||| ctx.total1 <<< 3) ++ putUint32 (ctx.total0 <<< 3) =
      Sha256.bytes 8 (BitVec.ofNat 64 (8 * m.length)) := by
  have hlow0 : low ctx.total0 = BitVec.ofNat 32 m.length := by
    unfold low
    apply BitVec.eq_of_toNat_eq
    rw [BitVec.toNat_setWidth, BitVec.toNat_ofNat, h.total0, Nat.mod_mod]
  have hshift : ∀ k, (BitVec.ofNat 32 k) <<< 3 = BitVec.ofNat 32 (8 * k) := by
    intro k
    apply BitVec.eq_of_toNat_eq
    rw [BitVec.toNat_shiftLeft, BitVec.toNat_ofNat, BitVec.toNat_ofNat, Nat.shiftLeft_eq]
    omega
  have hlow : low (ctx.total0 <<< 3) = BitVec.ofNat 32 (8 * m.length) := by
    rw [← hshift, ← hlow0]
    exact BitVec.setWidth_shiftLeft_of_le hw
  have hcarried : (low (ctx.total0 >>> 29)).toNat = m.length % 2 ^ 32 / 2 ^ 29 := by
    unfold low
    rw [BitVec.toNat_setWidth, BitVec.toNat_ushiftRight, h.total0, Nat.shiftRight_eq_div_pow]
    omega
  have hhigh : low (ctx.total0 >>> 29 ||| ctx.total1 <<< 3) =
      BitVec.ofNat 32 (8 * m.length / 2 ^ 32) := by
    have htotal1 : low (ctx.total1 <<< 3) = BitVec.ofNat 32 (8 * (m.length / 2 ^ 32)) := by
      rw [← hshift, ← h.total1]
      exact BitVec.setWidth_shiftLeft_of_le hw
    have hor : low (ctx.total0 >>> 29 ||| ctx.total1 <<< 3) =
        low (ctx.total0 >>> 29) ||| low (ctx.total1 <<< 3) := BitVec.setWidth_or
    rw [hor, htotal1]
    apply BitVec.eq_of_toNat_eq
    rw [BitVec.toNat_or, hcarried, BitVec.toNat_ofNat, BitVec.toNat_ofNat]
    have hthree : 8 * (m.length / 2 ^ 32) % 2 ^ 32 = 2 ^ 3 * (m.length / 2 ^ 32 % 2 ^ 29) := by
      omega
    rw [hthree, Nat.or_comm, ← Nat.two_pow_add_eq_or_of_lt (by omega)]
    omega
  rw [putUint32_eq, putUint32_eq, hhigh, hlow, bytes_eight]

theorem padding_eq (hw : 32 ≤ w) (h : Takes ctx m) :
    let last := (ctx.total0 &&& 0x3F).toNat
    sha256Padding.take (if last < 56 then 56 - last else 120 - last) =
      0x80 :: List.replicate ((119 - m.length % 64) % 64) 0 := by
  have hlength : (absorbed m).2.length = m.length % 64 := absorb_length (by decide)
  dsimp only
  rw [left_eq hw h, hlength]
  obtain ⟨k, hk⟩ : ∃ k, k = (119 - m.length % 64) % 64 := ⟨_, rfl⟩
  have hpadn :
      (if m.length % 64 < 56 then 56 - m.length % 64 else 120 - m.length % 64) = k + 1 := by
    split <;> omega
  rw [hpadn, ← hk]
  unfold sha256Padding
  rw [List.take_succ_cons, List.take_replicate, Nat.min_eq_left (by omega)]

theorem finish_hash (hw : 32 ≤ w) (h : Takes ctx m) : sha256Finish ctx = Sha256.hash m := by
  have hpad := padding_eq hw h
  have hlen := msglen_eq hw h
  dsimp only at hpad
  unfold sha256Finish
  dsimp only
  rw [hpad, hlen]
  have hfirst :
      (0x80 :: List.replicate ((119 - m.length % 64) % 64) 0 : List Byte).length < 2 ^ 32 := by
    rw [List.length_cons, List.length_replicate]
    omega
  have hafter := update_takes hw (update_takes hw h hfirst)
    (show (Sha256.bytes 8 (BitVec.ofNat 64 (8 * m.length))).length < 2 ^ 32 by
      rw [Sha256.bytes, List.length_map, List.length_range]
      decide)
  have hstate := hafter.state
  rw [List.append_assoc] at hstate
  unfold Sha256.hash Sha256.padding
  rw [← hstate]
  unfold words roles Sha256.Work.bytes
  obtain ⟨v, hv⟩ : ∃ v, v = (sha256Update (sha256Update ctx
      (0x80 :: List.replicate ((119 - m.length % 64) % 64) 0))
      (Sha256.bytes 8 (BitVec.ofNat 64 (8 * m.length)))).state := ⟨_, rfl⟩
  rw [← hv]
  have hlist : v.toList = [v[0], v[1], v[2], v[3], v[4], v[5], v[6], v[7]] := by
    obtain ⟨⟨l⟩, hl⟩ := v
    match l, hl with
    | [_, _, _, _, _, _, _, _], _ => rfl
  rw [hlist]
  simp only [List.flatMap_cons, List.flatMap_nil, putUint32_eq]
  rfl

theorem pieces_take (hw : 32 ≤ w) {pieces : List (List Byte)}
    (hpieces : ∀ l ∈ pieces, l.length < 2 ^ 32) (h : Takes ctx m) :
    Takes (pieces.foldl sha256Update ctx) (m ++ pieces.flatten) := by
  induction pieces generalizing ctx m with
  | nil => rwa [List.foldl_nil, List.flatten_nil, List.append_nil]
  | cons l pieces ih =>
    rw [List.foldl_cons, List.flatten_cons, ← List.append_assoc]
    exact ih (fun l' hl' => hpieces l' (List.mem_cons_of_mem l hl'))
      (update_takes hw h (hpieces l List.mem_cons_self))

/-- The digest is the one of the standard, whatever the pieces and the width of a word. -/
theorem digest_of_pieces (hw : 32 ≤ w) (ctx : Context w) (pieces : List (List Byte))
    (hpieces : ∀ l ∈ pieces, l.length < 2 ^ 32) :
    sha256Finish (pieces.foldl sha256Update (sha256Starts ctx)) = Sha256.hash pieces.flatten :=
  finish_hash hw (pieces_take hw hpieces (starts_takes hw ctx))

def usedContext : Context 64 := ⟨3, 5, Vector.replicate 8 7, fun _ => 9⟩

/-- The second piece goes over the end of a block. -/
theorem digest_of_pieces_two :
    sha256Finish (sha256Update (sha256Update (sha256Starts usedContext) (List.replicate 60 0x61))
      (List.replicate 70 0x62)) = Sha256.hash (List.replicate 60 0x61 ++ List.replicate 70 0x62) := by
  have h := digest_of_pieces (by decide) usedContext
    [List.replicate 60 0x61, List.replicate 70 0x62] (by simp)
  rwa [List.flatten_cons, List.flatten_singleton] at h

end

end Egos.Libc.Sha256
