/-
# Oxydllm.Kv.FlatPool — a segmented pool read as one flat array.

`PoolRun` drives a pool and a flat array indexed by slot through the same operations. Whatever grew, was
handed out or was written, a gather reads what the flat array has, in the order asked for; only a gather of
nothing from a pool of several segments fails, where one segment returns nothing. Slots are `u32`, and a
pool has fewer than `2 ^ 32` of them.
-/
import Oxydllm.Kv.Pool

namespace Oxydllm.Kv

open Slice

namespace BlockAllocator

variable {ρ : Type}

/-- The pool `grow` leaves behind, and whether it grew. The tensors are allocated before anything changes. -/
def afterGrow [Inhabited ρ] (device : Nat → Bool) (a : BlockAllocator ρ) : BlockAllocator ρ × Bool :=
  match grow device a with
  | some a' => (a', true)
  | none => (a, false)

/-! ## The flat array -/

/-- Rows written to a flat array from a slot on. -/
def flatWrite (flat : Nat → Option ρ) (slot : Nat) (data : List ρ) : Nat → Option ρ :=
  fun s => if slot ≤ s ∧ s < slot + data.length then data[s - slot]? else flat s

/-- A pool and the rows written to it, after any operations; writes go to slots that are materialised. -/
inductive PoolRun [Inhabited ρ] (maxBlocks segmentBlocks blockSize : Nat) (window : Option Nat) :
    BlockAllocator ρ → (Nat → Option ρ) → Prop
  | start {device : Nat → Bool} {a : BlockAllocator ρ} :
      growing maxBlocks segmentBlocks blockSize window device = some a →
      PoolRun maxBlocks segmentBlocks blockSize window a fun _ => none
  | grow {a : BlockAllocator ρ} {flat : Nat → Option ρ} (device : Nat → Bool) :
      PoolRun maxBlocks segmentBlocks blockSize window a flat →
      PoolRun maxBlocks segmentBlocks blockSize window (a.afterGrow device).1 flat
  | allocate {a a' : BlockAllocator ρ} {flat : Nat → Option ρ} {device : Nat → Bool} {id : Nat} :
      PoolRun maxBlocks segmentBlocks blockSize window a flat →
      allocate device a = some (id, a') →
      PoolRun maxBlocks segmentBlocks blockSize window a' flat
  | share {a : BlockAllocator ρ} {flat : Nat → Option ρ} (id : Nat) :
      PoolRun maxBlocks segmentBlocks blockSize window a flat →
      PoolRun maxBlocks segmentBlocks blockSize window (a.share id) flat
  | free {a : BlockAllocator ρ} {flat : Nat → Option ρ} (id : Nat) :
      PoolRun maxBlocks segmentBlocks blockSize window a flat →
      PoolRun maxBlocks segmentBlocks blockSize window (a.free id) flat
  | write {a a' : BlockAllocator ρ} {flat : Nat → Option ρ} {blockId offset : Nat} {data : List ρ} :
      PoolRun maxBlocks segmentBlocks blockSize window a flat →
      blockId * a.blockSize + offset + data.length ≤ a.numBlocks * a.blockSize →
      a.write blockId offset data = some a' →
      PoolRun maxBlocks segmentBlocks blockSize window a'
        (flatWrite flat (blockId * a.blockSize + offset) data)

/-- The pool has the rows of the flat array. With blocks of no slots there are none. -/
structure Mirrors (a : BlockAllocator ρ) (flat : Nat → Option ρ) : Prop where
  laid : 0 < a.blockSize → a.Laid
  row : ∀ slot r, flat slot = some r → a.row slot = some r
  empty : a.blockSize = 0 → ∀ slot, flat slot = none

theorem grow_blockSize [Inhabited ρ] {device : Nat → Bool} {a a' : BlockAllocator ρ} (h : grow device a = some a') :
    a'.blockSize = a.blockSize := by
  unfold grow at h
  obtain ⟨-, h⟩ := Option.ite_none_left_eq_some.1 h
  obtain ⟨-, h⟩ := Option.ite_none_right_eq_some.1 h
  cases h
  rfl

theorem growing_blockSize [Inhabited ρ] {maxBlocks segmentBlocks blockSize : Nat} {window : Option Nat}
    {device : Nat → Bool} {a : BlockAllocator ρ}
    (h : growing maxBlocks segmentBlocks blockSize window device = some a) : a.blockSize = blockSize :=
  (growing_geometry h).1

theorem allocate_blockSize [Inhabited ρ] {device : Nat → Bool} {a a' : BlockAllocator ρ} {id : Nat}
    (h : allocate device a = some (id, a')) : a'.blockSize = a.blockSize := by
  obtain ⟨a₁, hgrow, hpop⟩ := Option.bind_eq_some_iff.1 h
  have h₁ : a₁.blockSize = a.blockSize := by
    split at hgrow
    · exact grow_blockSize hgrow
    · cases hgrow
      rfl
  rw [← h₁]
  cases hl : a₁.freeList with
  | nil => rw [hl] at hpop; cases hpop
  | cons top rest =>
      rw [hl] at hpop
      cases hpop
      rfl

/-- What extends the pool keeps its rows. -/
theorem Mirrors.extends {a a' : BlockAllocator ρ} {flat : Nat → Option ρ} (h : Mirrors a flat)
    (hsize : a'.blockSize = a.blockSize) (hext : a.Laid → Extends a a') : Mirrors a' flat := by
  refine ⟨fun hpos => (hext (h.laid (hsize ▸ hpos))).laid, fun slot r hr => ?_, fun hzero => h.empty (hsize ▸ hzero)⟩
  rcases Nat.eq_zero_or_pos a.blockSize with hzero | hpos
  · rw [h.empty hzero] at hr
    cases hr
  · exact (hext (h.laid hpos)).row slot r (h.row slot r hr)

theorem Mirrors.write {a a' : BlockAllocator ρ} {flat : Nat → Option ρ} (h : Mirrors a flat)
    {blockId offset : Nat} {data : List ρ}
    (hfit : blockId * a.blockSize + offset + data.length ≤ a.numBlocks * a.blockSize)
    (hwrite : a.write blockId offset data = some a') :
    Mirrors a' (flatWrite flat (blockId * a.blockSize + offset) data) := by
  rcases Nat.eq_zero_or_pos a.blockSize with hzero | hpos
  · -- nothing fits, so nothing was written
    have hnil : data = [] := by
      rw [hzero, Nat.mul_zero] at hfit
      exact List.length_eq_zero_iff.1 (by omega)
    subst hnil
    cases hwrite
    have hsame : flatWrite flat (blockId * a.blockSize + offset) [] = flat := by
      funext s
      unfold flatWrite
      rw [if_neg]
      rw [List.length_nil]
      omega
    rw [hsame]
    exact h
  · obtain ⟨a₁, hwrite₁, hw⟩ := write_wrote (h.laid hpos) hfit
    cases hwrite.symm.trans hwrite₁
    have hsize : a'.blockSize = a.blockSize := by rw [hw.frame]
    refine ⟨fun _ => hw.laid, fun slot r hr => ?_, fun hzero => absurd (hsize ▸ hzero) hpos.ne'⟩
    unfold flatWrite at hr
    rw [hw.row]
    split
    next hin => rwa [if_pos hin] at hr
    next hout =>
      rw [if_neg hout] at hr
      exact h.row slot r hr

theorem afterGrow_mirrors [Inhabited ρ] {a : BlockAllocator ρ} {flat : Nat → Option ρ} (h : Mirrors a flat)
    (device : Nat → Bool) : Mirrors (a.afterGrow device).1 flat := by
  unfold afterGrow
  cases hgrow : grow device a with
  | none => exact h
  | some a' => exact h.extends (grow_blockSize hgrow) fun hlaid => grow_extends hlaid hgrow

theorem PoolRun.mirrors [Inhabited ρ] {maxBlocks segmentBlocks blockSize : Nat} {window : Option Nat}
    {a : BlockAllocator ρ} {flat : Nat → Option ρ}
    (h : PoolRun maxBlocks segmentBlocks blockSize window a flat) : Mirrors a flat := by
  induction h with
  | start hnew =>
      refine ⟨fun hpos => growing_laid ((growing_blockSize hnew) ▸ hpos) hnew, fun slot r hr => ?_, fun _ _ => rfl⟩
      cases hr
  | grow device _ ih => exact afterGrow_mirrors ih device
  | allocate _ hallocate ih =>
      exact ih.extends (allocate_blockSize hallocate) fun hlaid => allocate_extends hlaid hallocate
  | share id _ ih => exact ⟨fun hpos => (ih.laid hpos).share id, ih.row, ih.empty⟩
  | free id _ ih => exact ⟨fun hpos => (ih.laid hpos).free id, ih.row, ih.empty⟩
  | write _ hfit hwrite ih => exact ih.write hfit hwrite

/-! ## Reading what was written -/

theorem Mirrors.gather {a : BlockAllocator ρ} {flat : Nat → Option ρ} (h : Mirrors a flat) {slots : List Nat}
    {rows : List ρ} (hne : slots ≠ []) (hslots : slots.map flat = rows.map some) :
    a.gather slots = some rows := by
  have hrow : slots.map a.row = rows.map some := by
    rw [← hslots]
    refine List.map_congr_left fun slot hslot => ?_
    have hmem := List.mem_map_of_mem (f := flat) hslot
    rw [hslots] at hmem
    obtain ⟨r, -, hr⟩ := List.mem_map.1 hmem
    rw [← hr, h.row slot r hr.symm]
  rcases Nat.eq_zero_or_pos a.blockSize with hzero | hpos
  · obtain ⟨slot, rest, rfl⟩ := List.exists_cons_of_ne_nil hne
    cases rows with
    | nil => cases hslots
    | cons r rows =>
        rw [List.map_cons, List.map_cons, h.empty hzero] at hslots
        cases (List.cons.inj hslots).1
  · exact gather_rows (h.laid hpos) hne hrow

/-- The pool takes every write to slots that are materialised; growing keeps what was written, and leaves
the pool alone when it fails. -/
structure ReadsFlat [Inhabited ρ] (a : BlockAllocator ρ) (flat : Nat → Option ρ) : Prop where
  writes : ∀ blockId offset data, blockId * a.blockSize + offset + data.length ≤ a.numBlocks * a.blockSize →
    ∃ a', a.write blockId offset data = some a'
  grown : ∀ device slots rows, slots ≠ [] → slots.map flat = rows.map some →
    (a.afterGrow device).1.gather slots = some rows
  failed : ∀ device, (a.afterGrow device).2 = false → (a.afterGrow device).1 = a

theorem Mirrors.readsFlat [Inhabited ρ] {a : BlockAllocator ρ} {flat : Nat → Option ρ} (h : Mirrors a flat) :
    ReadsFlat a flat := by
  refine ⟨fun blockId offset data hfit => ?_, fun device slots rows => (afterGrow_mirrors h device).gather,
    fun device hfailed => ?_⟩
  · rcases Nat.eq_zero_or_pos a.blockSize with hzero | hpos
    · have hnil : data = [] := by
        rw [hzero, Nat.mul_zero] at hfit
        exact List.length_eq_zero_iff.1 (by omega)
      subst hnil
      exact ⟨a, rfl⟩
    · obtain ⟨a', hwrite, -⟩ := write_wrote (h.laid hpos) hfit
      exact ⟨a', hwrite⟩
  · unfold afterGrow at hfailed ⊢
    cases hgrow : grow device a with
    | none => rfl
    | some a' =>
        rw [hgrow] at hfailed
        cases hfailed

/-- After any operations a gather of written slots returns the rows of the flat array, in the order asked
for, exactly when a slot is asked for or the pool has one segment. -/
theorem gather_flat_iff [Inhabited ρ] {maxBlocks segmentBlocks blockSize : Nat} {window : Option Nat}
    {a : BlockAllocator ρ} {flat : Nat → Option ρ}
    (h : PoolRun maxBlocks segmentBlocks blockSize window a flat) :
    ReadsFlat a flat ∧ ∀ slots rows, slots.map flat = rows.map some →
      (a.gather slots = some rows ↔ slots ≠ [] ∨ a.segments.length = 1) := by
  refine ⟨h.mirrors.readsFlat, fun slots rows hslots => ?_⟩
  by_cases hnil : slots = []
  · subst hnil
    have hrows : rows = [] := List.map_eq_nil_iff.1 hslots.symm
    rw [hrows, gather_nil]
    constructor
    · intro hsome
      by_contra hmany
      rw [not_or] at hmany
      rw [if_neg hmany.2] at hsome
      cases hsome
    · rintro (hne | hone)
      · exact absurd rfl hne
      · rw [if_pos hone]
  · exact ⟨fun _ => .inl hnil, fun _ => h.mirrors.gather hnil hslots⟩

/-! ## Two segments of two blocks -/

/-- Two segments of two blocks of two slots. -/
def flatPool : BlockAllocator Nat :=
  ⟨[[0, 0, 0, 0], [0, 0, 0, 0]], [2, 3, 0, 1], [0, 0, 0, 0], 4, 4, 2, 2, none⟩

theorem flatPool_run : PoolRun 4 2 2 none flatPool fun _ => none :=
  .grow (fun _ => true) (.start (show growing 4 2 2 none (fun _ => true) = some
    ⟨[[0, 0, 0, 0]], [0, 1], [0, 0], 2, 4, 2, 2, none⟩ from rfl))

/-- A write across the boundary between the segments. -/
theorem flatPool_written :
    PoolRun 4 2 2 none
      ⟨[[0, 0, 0, 5], [6, 7, 0, 0]], [2, 3, 0, 1], [0, 0, 0, 0], 4, 4, 2, 2, none⟩
      (flatWrite (fun _ => none) 3 [5, 6, 7]) :=
  .write flatPool_run (show 1 * flatPool.blockSize + 1 + [5, 6, 7].length ≤ _ by decide)
    (show flatPool.write 1 1 [5, 6, 7] = some _ from rfl)

theorem gather_flat_iff_boundary :
    gather (⟨[[0, 0, 0, 5], [6, 7, 0, 0]], [2, 3, 0, 1], [0, 0, 0, 0], 4, 4, 2, 2, none⟩ :
      BlockAllocator Nat) [5, 3, 5, 4] = some [7, 5, 7, 6] :=
  ((gather_flat_iff flatPool_written).2 [5, 3, 5, 4] [7, 5, 7, 6] rfl).2 (.inl (by decide))

/-- Nothing is asked for, and the gather fails. -/
theorem gather_flat_nothing :
    ¬ ∀ (a : BlockAllocator Nat) (flat : Nat → Option Nat), PoolRun 4 2 2 none a flat →
      ∀ slots rows, slots.map flat = rows.map some → a.gather slots = some rows := by
  intro h
  exact absurd (h flatPool (fun _ => none) flatPool_run [] [] rfl) (by decide)

end BlockAllocator

end Oxydllm.Kv
