/-
# Oxydllm.Quant.Kernels — the products of a row with packed weights, thread by thread.

The threads of a group share the columns of an output among themselves and split the inputs of each: a thread sums
its share, puts the sum into the scratch, and behind the barrier one thread a column adds the shares up in their order
and stores. One row and a batch of rows have kernels of their own in the AWQ layout. Arithmetic is whatever `Floats`
has, without any law, so that what is equal here is equal bit by bit. The numbers of words and threads are taken to
stay below `2^32`, where `uint` does not wrap; no group has the number `0xFFFFFFFF`, with which `last_g` starts.
-/
import Oxydllm.Lib.Barrier
import Oxydllm.Lib.Cached
import Oxydllm.Quant.Gptq

namespace Oxydllm.Quant

open Barrier Cached

variable {F O : Type}

/-- What the kernels compute with: `float`, and the conversion of a `uint`. -/
structure Floats (F : Type) where
  zero : F
  add : F → F → F
  sub : F → F → F
  mul : F → F → F
  ofNat : Nat → F

/-- The buffers of a weight. -/
structure Packed (F : Type) where
  qweight : Nat → BitVec 32
  qzeros : Nat → BitVec 32
  scales : Nat → F

def qdetTgw : Nat := 32

def qdetS : Nat := 16

def qdetSBatch : Nat := 16

def qdetATgw : Nat := 32

def qdetAS : Nat := 32

def qdetAbTgw : Nat := 16

def awqBatchMax : Nat := 8

/-- `pack_position<BITS>`. -/
def packPosition (bits k : Nat) : Nat := if bits = 4 then awqPackOrder.getD k 0 else k

/-- The inputs from `i_start` to `i_end` of a split. -/
def splitInputs (inFeatures chunk ks : Nat) : List Nat :=
  List.range' (ks * chunk) (min (ks * chunk + chunk) inFeatures - ks * chunk)

/-- The shares of the splits, added in their order. -/
def sumSplits (fl : Floats F) (S : Nat) (share : Nat → F) : F :=
  (List.range S).foldl (fun sum s => fl.add sum (share s)) fl.zero

/-! ## The AWQ layout -/

structure W4A16Params where
  inFeatures : Nat
  outFeatures : Nat
  packedOut : Nat
  groupSize : Nat
  groupShift : Nat
  kSplits : Nat
  chunk : Nat
  m : Nat
  outF32 : Bool

section Awq

variable (fl : Floats F) (bits : Nat) (w : Packed F) (p : W4A16Params)

/-- `zero_slot` and `scale_v` of a group. -/
def awqRead (j g : Nat) : (Nat → F) × (Nat → F) :=
  (fun k => fl.ofNat (unpack bits (w.qzeros (g * p.packedOut + j)) k),
    fun k => w.scales (g * p.outFeatures + j * (32 / bits) + packPosition bits k))

/-- The weight in slot `k` of a word. -/
def awqSlot (j : Nat) (slots : (Nat → F) × (Nat → F)) (i k : Nat) : F :=
  fl.mul (fl.sub (fl.ofNat (unpack bits (w.qweight (i * p.packedOut + j)) k)) (slots.1 k)) (slots.2 k)

def unread : Cache Nat ((Nat → F) × (Nat → F)) := ⟨none, fun _ => fl.zero, fun _ => fl.zero⟩

/-- `acc` of a thread of `awq_gemv_det_impl`. -/
def awqAcc (x : Nat → F) (j ks : Nat) : Nat → F :=
  if j < p.packedOut ∧ ks < p.kSplits then
    ((splitInputs p.inFeatures p.chunk ks).foldl (step (awqRead fl bits w p j) (· >>> p.groupShift)
      fun slots i acc k => fl.add (acc k) (fl.mul (x i) (awqSlot fl bits w p j slots i k)))
      (unread fl, fun _ => fl.zero)).2
  else fun _ => fl.zero

/-- `acc` of a thread of `awq_gemv_batch_det_impl`, by row and slot. -/
def awqBatchAcc (x : Nat → F) (j ks : Nat) : Nat → Nat → F :=
  if j < p.packedOut ∧ ks < p.kSplits then
    ((splitInputs p.inFeatures p.chunk ks).foldl (step (awqRead fl bits w p j) (· >>> p.groupShift)
      fun slots i acc m k =>
        fl.add (acc m k) (fl.mul (x (m * p.inFeatures + i)) (awqSlot fl bits w p j slots i k)))
      (unread fl, fun _ _ => fl.zero)).2
  else fun _ _ => fl.zero

variable (store : F → O) (TGW S : Nat)

/-- A round of `awq_gemv_det_impl`, which has half of the slots. -/
def awqDetRound (x : Nat → F) (gx round : Nat) : Round (Nat × Nat) F O :=
  let HALF := 32 / bits / 2
  { put := putSlots TGW HALF fun t h => awqAcc fl bits w p x (gx * TGW + t.1) t.2 (round * HALF + h)
    emit := fun t partials =>
      let j := gx * TGW + t.1
      if t.2 < HALF ∧ j < p.packedOut then
        let k := round * HALF + t.2
        [(j * (32 / bits) + packPosition bits k,
          store (sumSplits fl S fun s => partials (cell TGW HALF t.1 s (k - round * HALF))))]
      else [] }

/-- `awq_gemv_det_impl`. -/
def awqGemvDet (x : Nat → F) (gx : Nat) : List (Round (Nat × Nat) F O) :=
  (List.range 2).map (awqDetRound fl bits w p store TGW S x gx)

/-- A round of `awq_gemv_batch_det_impl`, which has a row. -/
def awqBatchDetRound (x : Nat → F) (gx m : Nat) : Round (Nat × Nat) F O where
  put := putSlots TGW (32 / bits) fun t k => awqBatchAcc fl bits w p x (gx * TGW + t.1) t.2 m k
  emit := fun t partials =>
    let j := gx * TGW + t.1
    if t.2 < 32 / bits ∧ j < p.packedOut then
      [(m * p.outFeatures + j * (32 / bits) + packPosition bits t.2,
        store (sumSplits fl S fun s => partials (cell TGW (32 / bits) t.1 s t.2)))]
    else []

/-- `awq_gemv_batch_det_impl`. -/
def awqGemvBatchDet (x : Nat → F) (gx : Nat) : List (Round (Nat × Nat) F O) :=
  (List.range (min p.m awqBatchMax)).map (awqBatchDetRound fl bits w p store TGW S x gx)

end Awq

/-! ## The GPTQ layout -/

structure GptqParams where
  inFeatures : Nat
  outFeatures : Nat
  groupSize : Nat
  groupShift : Nat
  kSplits : Nat
  chunk : Nat
  m : Nat
  outF32 : Bool

section Gptq

variable (fl : Floats F) (bits : Nat) (w : Packed F) (p : GptqParams)

/-- `zp1` and `scale_v` of a group. -/
def gptqRead (o g : Nat) : F × F :=
  (fl.add (fl.ofNat (unpack bits (w.qzeros (g * (p.outFeatures / (32 / bits)) + o / (32 / bits))) (o % (32 / bits))))
      (fl.ofNat 1),
    w.scales (g * p.outFeatures + o))

/-- `w[k]` of word `iw`. -/
def gptqSlot (o : Nat) (group : F × F) (iw k : Nat) : F :=
  fl.mul group.2 (fl.sub (fl.ofNat (unpack bits (w.qweight (iw * p.outFeatures + o)) k)) group.1)

/-- `a` of a word and a row. -/
def gptqWord (x : Nat → F) (o : Nat) (group : F × F) (iw m : Nat) : F :=
  (List.range (32 / bits)).foldl (fun a k =>
    fl.add a (fl.mul (x (m * p.inFeatures + iw * (32 / bits) + k)) (gptqSlot fl bits w p o group iw k))) fl.zero

/-- The words from `w_start` to `w_end` of a split. -/
def splitWords (ks : Nat) : List Nat :=
  let iStart := ks * p.chunk
  let iEnd := min (iStart + p.chunk) p.inFeatures
  let wStart := iStart / (32 / bits)
  let wEnd := (iEnd + 32 / bits - 1) / (32 / bits)
  List.range' wStart (wEnd - wStart)

/-- `acc` of a thread of `gptq_gemv_batch_det_impl`, by row. -/
def gptqAcc (x : Nat → F) (o ks : Nat) : Nat → F :=
  if o < p.outFeatures ∧ ks < p.kSplits then
    ((splitWords bits p ks).foldl (step (gptqRead fl bits w p o) (fun iw => (iw * (32 / bits)) >>> p.groupShift)
      fun group iw acc m => fl.add (acc m) (gptqWord fl bits w p x o group iw m))
      (⟨none, fl.zero, fl.zero⟩, fun _ => fl.zero)).2
  else fun _ => fl.zero

/-- A round of `gptq_gemv_batch_det_impl`, which has a row. -/
def gptqDetRound (store : F → O) (x : Nat → F) (gx m : Nat) : Round (Nat × Nat) F O where
  put := fun t => [(t.2 * qdetTgw + t.1, gptqAcc fl bits w p x (gx * qdetTgw + t.1) t.2 m)]
  emit := fun t partials =>
    let o := gx * qdetTgw + t.1
    if t.2 = 0 ∧ o < p.outFeatures then
      [(m * p.outFeatures + o, store (sumSplits fl qdetSBatch fun s => partials (s * qdetTgw + t.1)))]
    else []

/-- `gptq_gemv_batch_det_impl`. -/
def gptqGemvBatchDet (store : F → O) (x : Nat → F) (gx : Nat) : List (Round (Nat × Nat) F O) :=
  (List.range (min p.m awqBatchMax)).map (gptqDetRound fl bits w p store x gx)

end Gptq

/-! ## What a thread sums -/

section Sums

variable {fl : Floats F} {bits : Nat} {w : Packed F}

/-- The weight of an input in slot `k` of word `j`. -/
def awqWeight (fl : Floats F) (bits : Nat) (w : Packed F) (p : W4A16Params) (j k i : Nat) : F :=
  awqSlot fl bits w p j (awqRead fl bits w p j (i >>> p.groupShift)) i k

/-- The share of a split in slot `k` of word `j`. -/
def awqShare (fl : Floats F) (bits : Nat) (w : Packed F) (p : W4A16Params) (x : Nat → F) (j k ks : Nat) : F :=
  if j < p.packedOut ∧ ks < p.kSplits then
    (splitInputs p.inFeatures p.chunk ks).foldl (fun a i => fl.add a (fl.mul (x i) (awqWeight fl bits w p j k i)))
      fl.zero
  else fl.zero

theorem unread_fresh (read : Nat → (Nat → F) × (Nat → F)) : (unread fl).Fresh read :=
  fun _ h => absurd h (Option.some_ne_none _).symm

theorem awqAcc_eq (p : W4A16Params) (x : Nat → F) (j ks k : Nat) :
    awqAcc fl bits w p x j ks k = awqShare fl bits w p x j k ks := by
  unfold awqAcc awqShare
  by_cases h : j < p.packedOut ∧ ks < p.kSplits
  · rw [if_pos h, if_pos h, foldl_cached _ (unread_fresh _)]
    exact (List.foldl_hom (fun acc : Nat → F => acc k) fun _ _ => rfl).symm
  · rw [if_neg h, if_neg h]

theorem awqBatchAcc_eq (p : W4A16Params) (x : Nat → F) (j ks m k : Nat) :
    awqBatchAcc fl bits w p x j ks m k = awqShare fl bits w p (fun i => x (m * p.inFeatures + i)) j k ks := by
  unfold awqBatchAcc awqShare
  by_cases h : j < p.packedOut ∧ ks < p.kSplits
  · rw [if_pos h, if_pos h, foldl_cached _ (unread_fresh _)]
    exact (List.foldl_hom (fun acc : Nat → Nat → F => acc m k) fun _ _ => rfl).symm
  · rw [if_neg h, if_neg h]

/-- The share of a split in column `o`. -/
def gptqShare (fl : Floats F) (bits : Nat) (w : Packed F) (p : GptqParams) (x : Nat → F) (o m ks : Nat) : F :=
  if o < p.outFeatures ∧ ks < p.kSplits then
    (splitWords bits p ks).foldl (fun a iw => fl.add a
      (gptqWord fl bits w p x o (gptqRead fl bits w p o ((iw * (32 / bits)) >>> p.groupShift)) iw m)) fl.zero
  else fl.zero

theorem gptqAcc_eq (p : GptqParams) (x : Nat → F) (o ks m : Nat) :
    gptqAcc fl bits w p x o ks m = gptqShare fl bits w p x o m ks := by
  unfold gptqAcc gptqShare
  by_cases h : o < p.outFeatures ∧ ks < p.kSplits
  · rw [if_pos h, if_pos h, foldl_cached _ fun _ hk => absurd hk (Option.some_ne_none _).symm]
    exact (List.foldl_hom (fun acc : Nat → F => acc m) fun _ _ => rfl).symm
  · rw [if_neg h, if_neg h]

end Sums

/-! ## What a launch leaves -/

theorem sumSplits_congr {fl : Floats F} {S : Nat} {f g : Nat → F} (h : ∀ s < S, f s = g s) :
    sumSplits fl S f = sumSplits fl S g := by
  unfold sumSplits
  rw [← List.foldl_map (f := f) (g := fl.add), ← List.foldl_map (f := g) (g := fl.add)]
  congr 1
  exact List.map_congr_left fun s hs => h s (List.mem_range.1 hs)

theorem packPosition_lt {bits k : Nat} (hbits : bits = 4 ∨ bits = 8) (hk : k < 32 / bits) :
    packPosition bits k < 32 / bits := by
  have h4 : ∀ k < 8, packPosition 4 k < 8 := by decide
  rcases hbits with rfl | rfl
  · exact h4 k hk
  · exact hk

theorem packPosition_inj {bits k k' : Nat} (hbits : bits = 4 ∨ bits = 8) (hk : k < 32 / bits) (hk' : k' < 32 / bits)
    (h : packPosition bits k = packPosition bits k') : k = k' := by
  have h4 : ∀ k < 8, ∀ k' < 8, packPosition 4 k = packPosition 4 k' → k = k' := by decide
  rcases hbits with rfl | rfl
  · exact h4 k hk k' hk' h
  · exact h

section Columns

variable {fl : Floats F} {bits : Nat} {w : Packed F} {store : F → O} {TGW S n : Nat} {x : Nat → F} {after : Nat → O}

theorem column_in_group {j : Nat} (hj : j < n * TGW) :
    j / TGW < n ∧ j % TGW < TGW ∧ j / TGW * TGW + j % TGW = j := by
  have hpos : 0 < TGW := Nat.pos_of_ne_zero fun h0 => by rw [h0, Nat.mul_zero] at hj; exact absurd hj (Nat.not_lt_zero j)
  exact ⟨Nat.div_lt_of_lt_mul (Nat.mul_comm n TGW ▸ hj), Nat.mod_lt _ hpos, by rw [Nat.mul_comm]; exact Nat.div_add_mod j TGW⟩

/-- What thread `t` stores in a round of the kernel for one row. -/
def awqDetStores (fl : Floats F) (bits : Nat) (w : Packed F) (p : W4A16Params) (store : F → O) (TGW S : Nat) (x : Nat → F)
    (gx round : Nat) (t : Nat × Nat) : List (Nat × O) :=
  let j := gx * TGW + t.1
  let k := round * (32 / bits / 2) + t.2
  if t.2 < 32 / bits / 2 ∧ j < p.packedOut then
    [(j * (32 / bits) + packPosition bits k, store (sumSplits fl S (awqShare fl bits w p x j k)))]
  else []

theorem awqDetRound_settled (p : W4A16Params) (gx round : Nat) :
    Settled (grid TGW S) (awqDetRound fl bits w p store TGW S x gx round)
      (awqDetStores fl bits w p store TGW S x gx round) := by
  intro scratch order horder t ht
  show (if t.2 < 32 / bits / 2 ∧ gx * TGW + t.1 < p.packedOut then _ else _) = awqDetStores fl bits w p store TGW S x gx round t
  unfold awqDetStores
  by_cases h : t.2 < 32 / bits / 2 ∧ gx * TGW + t.1 < p.packedOut
  · rw [if_pos h, if_pos h]
    congr 3
    refine sumSplits_congr fun s hs => ?_
    rw [Nat.add_sub_cancel_left, run_putSlots horder (mem_grid.1 ht).1 hs h.1]
    exact awqAcc_eq p x _ _ _
  · rw [if_neg h, if_neg h]

/-- The kernel for one row, under any schedule. -/
theorem awqGemvDet_launched {p : W4A16Params} (hbits : bits = 4 ∨ bits = 8) (hS : 32 / bits ≤ S)
    (h : Launched (List.range n) (grid TGW S) (awqGemvDet fl bits w p store TGW S x) after)
    (hcover : p.packedOut ≤ n * TGW) {j k : Nat} (hj : j < p.packedOut) (hk : k < 32 / bits) :
    after (j * (32 / bits) + packPosition bits k) = store (sumSplits fl S (awqShare fl bits w p x j k)) := by
  have hhalf : 32 / bits = 2 * (32 / bits / 2) := by rcases hbits with rfl | rfl <;> rfl
  obtain ⟨hgx, htx, hjj⟩ := column_in_group (Nat.lt_of_lt_of_le hj hcover)
  have hrounds : Launched (List.range n) (grid TGW S)
      (fun g => (List.range 2).map (awqDetRound fl bits w p store TGW S x g)) after := h
  refine hrounds.stored (fun g _ round _ => awqDetRound_settled p g round) ?_ ?_
  · have hround : k / (32 / bits / 2) * (32 / bits / 2) + k % (32 / bits / 2) = k := by
      rw [Nat.mul_comm]
      exact Nat.div_add_mod _ _
    have hpos : 0 < 32 / bits / 2 := by rcases hbits with rfl | rfl <;> decide
    have hmod : k % (32 / bits / 2) < 32 / bits / 2 := Nat.mod_lt _ hpos
    have htwo : k / (32 / bits / 2) < 2 := Nat.div_lt_of_lt_mul (by omega)
    refine ⟨j / TGW, List.mem_range.2 hgx, k / (32 / bits / 2), List.mem_range.2 htwo, (j % TGW, k % (32 / bits / 2)),
      mem_grid.2 ⟨htx, by show k % (32 / bits / 2) < S; omega⟩, ?_⟩
    show _ ∈ awqDetStores fl bits w p store TGW S x (j / TGW) (k / (32 / bits / 2)) (j % TGW, k % (32 / bits / 2))
    unfold awqDetStores
    dsimp only
    rw [hjj, hround, if_pos ⟨hmod, hj⟩]
    exact List.mem_singleton_self _
  · intro g _ round hround t ht s hs hcell
    unfold awqDetStores at hs
    dsimp only at hs
    by_cases hguard : t.2 < 32 / bits / 2 ∧ g * TGW + t.1 < p.packedOut
    · rw [if_pos hguard, List.mem_singleton] at hs
      subst hs
      have hk' : round * (32 / bits / 2) + t.2 < 32 / bits := by
        have hround := List.mem_range.1 hround
        have hle : round * (32 / bits / 2) ≤ 1 * (32 / bits / 2) := Nat.mul_le_mul_right _ (by omega)
        omega
      obtain ⟨hjj, hpp⟩ := RowMajor.index_inj (packPosition_lt hbits hk') (packPosition_lt hbits hk) hcell
      rw [hjj, packPosition_inj hbits hk' hk hpp]
    · rw [if_neg hguard] at hs
      exact absurd hs List.not_mem_nil

/-- What thread `t` stores in the round of row `m`. -/
def awqBatchDetStores (fl : Floats F) (bits : Nat) (w : Packed F) (p : W4A16Params) (store : F → O) (TGW S : Nat)
    (x : Nat → F) (gx m : Nat) (t : Nat × Nat) : List (Nat × O) :=
  let j := gx * TGW + t.1
  if t.2 < 32 / bits ∧ j < p.packedOut then
    [(m * p.outFeatures + j * (32 / bits) + packPosition bits t.2,
      store (sumSplits fl S (awqShare fl bits w p (fun i => x (m * p.inFeatures + i)) j t.2)))]
  else []

theorem awqBatchDetRound_settled (p : W4A16Params) (gx m : Nat) :
    Settled (grid TGW S) (awqBatchDetRound fl bits w p store TGW S x gx m)
      (awqBatchDetStores fl bits w p store TGW S x gx m) := by
  intro scratch order horder t ht
  show (if t.2 < 32 / bits ∧ gx * TGW + t.1 < p.packedOut then _ else _) = awqBatchDetStores fl bits w p store TGW S x gx m t
  unfold awqBatchDetStores
  by_cases h : t.2 < 32 / bits ∧ gx * TGW + t.1 < p.packedOut
  · rw [if_pos h, if_pos h]
    congr 3
    refine sumSplits_congr fun s hs => ?_
    rw [run_putSlots horder (mem_grid.1 ht).1 hs h.1]
    exact awqBatchAcc_eq p x _ _ _ _
  · rw [if_neg h, if_neg h]

/-- The kernel for a batch of rows, under any schedule. -/
theorem awqGemvBatchDet_launched {p : W4A16Params} (hbits : bits = 4 ∨ bits = 8) (hS : 32 / bits ≤ S)
    (hout : p.outFeatures = p.packedOut * (32 / bits))
    (h : Launched (List.range n) (grid TGW S) (awqGemvBatchDet fl bits w p store TGW S x) after)
    (hcover : p.packedOut ≤ n * TGW) {m j k : Nat} (hm : m < min p.m awqBatchMax) (hj : j < p.packedOut)
    (hk : k < 32 / bits) :
    after (m * p.outFeatures + j * (32 / bits) + packPosition bits k) =
      store (sumSplits fl S (awqShare fl bits w p (fun i => x (m * p.inFeatures + i)) j k)) := by
  obtain ⟨hgx, htx, hjj⟩ := column_in_group (Nat.lt_of_lt_of_le hj hcover)
  have hrounds : Launched (List.range n) (grid TGW S)
      (fun g => (List.range (min p.m awqBatchMax)).map (awqBatchDetRound fl bits w p store TGW S x g)) after := h
  refine hrounds.stored (fun g _ m _ => awqBatchDetRound_settled p g m) ?_ ?_
  · refine ⟨j / TGW, List.mem_range.2 hgx, m, List.mem_range.2 hm, (j % TGW, k),
      mem_grid.2 ⟨htx, Nat.lt_of_lt_of_le hk hS⟩, ?_⟩
    unfold awqBatchDetStores
    dsimp only
    rw [hjj, if_pos ⟨hk, hj⟩]
    exact List.mem_singleton_self _
  · intro g _ m' _ t _ s hs hcell
    unfold awqBatchDetStores at hs
    dsimp only at hs
    by_cases hguard : t.2 < 32 / bits ∧ g * TGW + t.1 < p.packedOut
    · rw [if_pos hguard, List.mem_singleton] at hs
      subst hs
      have hword : ∀ {m j k : Nat}, m * p.outFeatures + j * (32 / bits) + packPosition bits k =
          (m * p.packedOut + j) * (32 / bits) + packPosition bits k := by
        intro m j k
        rw [hout, Nat.add_mul, Nat.mul_assoc]
      dsimp only at hcell
      rw [hword, hword] at hcell
      obtain ⟨hrow, hpp⟩ := RowMajor.index_inj (packPosition_lt hbits hguard.1) (packPosition_lt hbits hk) hcell
      obtain ⟨rfl, hjj⟩ := RowMajor.index_inj hguard.2 hj hrow
      rw [hjj, packPosition_inj hbits hguard.1 hk hpp]
    · rw [if_neg hguard] at hs
      exact absurd hs List.not_mem_nil

/-- What thread `t` stores in the round of row `m`. -/
def gptqDetStores (fl : Floats F) (bits : Nat) (w : Packed F) (p : GptqParams) (store : F → O) (x : Nat → F) (gx m : Nat)
    (t : Nat × Nat) : List (Nat × O) :=
  let o := gx * qdetTgw + t.1
  if t.2 = 0 ∧ o < p.outFeatures then
    [(m * p.outFeatures + o, store (sumSplits fl qdetSBatch (gptqShare fl bits w p x o m)))]
  else []

theorem gptqDetRound_settled (p : GptqParams) (gx m : Nat) :
    Settled (grid qdetTgw qdetSBatch) (gptqDetRound fl bits w p store x gx m)
      (gptqDetStores fl bits w p store x gx m) := by
  intro scratch order horder t ht
  -- one slot a thread
  have hput : ∀ t : Nat × Nat, (gptqDetRound fl bits w p store x gx m).put t =
      putSlots qdetTgw 1 (fun t _ => gptqAcc fl bits w p x (gx * qdetTgw + t.1) t.2 m) t := by
    intro t
    show [(t.2 * qdetTgw + t.1, _)] = [((t.2 * qdetTgw + t.1) * 1 + 0, _)]
    rw [Nat.mul_one, Nat.add_zero]
  rw [List.flatMap_congr fun t _ => hput t] at horder
  show (if t.2 = 0 ∧ gx * qdetTgw + t.1 < p.outFeatures then _ else _) = gptqDetStores fl bits w p store x gx m t
  unfold gptqDetStores
  by_cases h : t.2 = 0 ∧ gx * qdetTgw + t.1 < p.outFeatures
  · rw [if_pos h, if_pos h]
    congr 3
    refine sumSplits_congr fun s hs => ?_
    have hcell : s * qdetTgw + t.1 = cell qdetTgw 1 t.1 s 0 := by
      unfold cell
      rw [Nat.mul_one, Nat.add_zero]
    rw [hcell, run_putSlots horder (mem_grid.1 ht).1 hs Nat.zero_lt_one]
    exact gptqAcc_eq p x _ _ _
  · rw [if_neg h, if_neg h]

/-- The GPTQ kernel, which is one for a row and a batch, under any schedule. -/
theorem gptqGemvBatchDet_launched {p : GptqParams}
    (h : Launched (List.range n) (grid qdetTgw qdetSBatch) (gptqGemvBatchDet fl bits w p store x) after)
    (hcover : p.outFeatures ≤ n * qdetTgw) {m o : Nat} (hm : m < min p.m awqBatchMax) (ho : o < p.outFeatures) :
    after (m * p.outFeatures + o) = store (sumSplits fl qdetSBatch (gptqShare fl bits w p x o m)) := by
  obtain ⟨hgx, htx, hoo⟩ := column_in_group (Nat.lt_of_lt_of_le ho hcover)
  have hrounds : Launched (List.range n) (grid qdetTgw qdetSBatch)
      (fun g => (List.range (min p.m awqBatchMax)).map (gptqDetRound fl bits w p store x g)) after := h
  refine hrounds.stored (fun g _ m _ => gptqDetRound_settled p g m) ?_ ?_
  · refine ⟨o / qdetTgw, List.mem_range.2 hgx, m, List.mem_range.2 hm, (o % qdetTgw, 0),
      mem_grid.2 ⟨htx, Nat.zero_lt_succ _⟩, ?_⟩
    unfold gptqDetStores
    dsimp only
    rw [hoo, if_pos ⟨rfl, ho⟩]
    exact List.mem_singleton_self _
  · intro g _ m' _ t _ s hs hcell
    unfold gptqDetStores at hs
    dsimp only at hs
    by_cases hguard : t.2 = 0 ∧ g * qdetTgw + t.1 < p.outFeatures
    · rw [if_pos hguard, List.mem_singleton] at hs
      subst hs
      obtain ⟨rfl, hoo⟩ := RowMajor.index_inj hguard.2 ho hcell
      rw [hoo]
    · rw [if_neg hguard] at hs
      exact absurd hs List.not_mem_nil

end Columns

end Oxydllm.Quant
