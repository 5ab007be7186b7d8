/-
# Oxydllm.Kv.Landing — where the staged rows land.

A flush writes the staged runs one after the other. When no slot is staged twice, every staged row is
afterwards in its slot and every other slot is as it was.
-/
import Oxydllm.Kv.Ownership

namespace Oxydllm.Kv

open Slice

variable {ρ : Type}

/-- The staged rows of a batch with their slots, in the order they are written. -/
def PendingBatch.pairs (b : PendingBatch ρ) : List (Nat × Option ρ) :=
  (b.runs.flatMap PendingRun.pairs).map fun p => (p.1, b.src[p.2]?)

namespace PagedKvCache

def pendingPairs (c : PagedKvCache ρ) : List (Nat × Option ρ) := c.pendingWrites.flatMap PendingBatch.pairs

/-- The rows of `pairs` are in their slots, and nothing else has changed. -/
structure Lands (a a' : BlockAllocator ρ) (pairs : List (Nat × Option ρ)) : Prop where
  frame : a' = { a with segments := a'.segments }
  laid : a'.Laid
  lands : ∀ p ∈ pairs, a'.row p.1 = p.2
  other : ∀ slot, slot ∉ pairs.map Prod.fst → a'.row slot = a.row slot

theorem Lands.nil {a : BlockAllocator ρ} (h : a.Laid) : Lands a a [] :=
  ⟨rfl, h, List.forall_mem_nil _, fun _ _ => rfl⟩

theorem Lands.append {a b c : BlockAllocator ρ} {ps qs : List (Nat × Option ρ)} (h : Lands a b ps)
    (h' : Lands b c qs) (hnd : ((ps ++ qs).map Prod.fst).Nodup) : Lands a c (ps ++ qs) := by
  rw [List.map_append] at hnd
  obtain ⟨-, -, hdisj⟩ := List.nodup_append.1 hnd
  refine ⟨by rw [h'.frame, h.frame], h'.laid, ?_, ?_⟩
  · intro p hp
    rcases List.mem_append.1 hp with hp | hp
    · -- the later writes are elsewhere
      have hmem : p.1 ∈ ps.map Prod.fst := List.mem_map.2 ⟨p, hp, rfl⟩
      rw [h'.other _ fun hq => hdisj _ hmem _ hq rfl]
      exact h.lands p hp
    · exact h'.lands p hp
  · intro slot hslot
    rw [List.map_append, List.mem_append, not_or] at hslot
    rw [h'.other slot hslot.2, h.other slot hslot.1]

theorem mem_pairs {run : PendingRun} {p : Nat × Nat} :
    p ∈ run.pairs ↔ ∃ i < run.nTokens, p = (run.dstSlot + i, run.srcOffset + i) := by
  rw [PendingRun.pairs, List.mem_zipIdx_iff_le_and_getElem?_sub]
  constructor
  · rintro ⟨hle, hget⟩
    obtain ⟨hlt, hget⟩ := List.getElem?_eq_some_iff.1 hget
    rw [List.length_range'] at hlt
    rw [List.getElem_range', Nat.one_mul] at hget
    exact ⟨p.2 - run.srcOffset, hlt, Prod.ext hget.symm (Nat.add_sub_cancel' hle).symm⟩
  · rintro ⟨i, hi, rfl⟩
    refine ⟨Nat.le_add_right _ _, ?_⟩
    show (List.range' run.dstSlot run.nTokens)[run.srcOffset + i - run.srcOffset]? = some (run.dstSlot + i)
    rw [Nat.add_sub_cancel_left, List.getElem?_range' hi, Nat.one_mul]

/-- One run. -/
theorem run_lands {a a' : BlockAllocator ρ} (h : a.Laid) {src rows : List ρ} {run : PendingRun}
    (hfit : ∀ p ∈ run.pairs, p.1 < a.numBlocks * a.blockSize)
    (hrows : narrow src run.srcOffset run.nTokens = some rows)
    (hw : a.write (run.dstSlot / a.blockSize) (run.dstSlot % a.blockSize) rows = some a') :
    Lands a a' (run.pairs.map fun p => (p.1, src[p.2]?)) := by
  obtain ⟨hle, hrows⟩ := Option.ite_none_right_eq_some.1 hrows
  cases hrows
  have hlen := window_length hle
  have hdst : run.dstSlot / a.blockSize * a.blockSize + run.dstSlot % a.blockSize = run.dstSlot := by
    rw [Nat.mul_comm]
    exact Nat.div_add_mod _ _
  have hwrote : BlockAllocator.Wrote a a' run.dstSlot (Slice.window src run.srcOffset run.nTokens) := by
    cases hn : run.nTokens with
    | zero =>
        -- nothing to write
        have hnil : Slice.window src run.srcOffset 0 = [] := List.take_zero
        rw [hn, hnil] at hw
        cases hw
        rw [hnil]
        exact .nil h _
    | succ n =>
        have hlast := hfit (run.dstSlot + n, run.srcOffset + n) (mem_pairs.2 ⟨n, by omega, rfl⟩)
        have hlast : run.dstSlot + n < a.numBlocks * a.blockSize := hlast
        obtain ⟨b, hb, hwrote⟩ := @BlockAllocator.write_wrote _ _ h (run.dstSlot / a.blockSize)
          (run.dstSlot % a.blockSize) (Slice.window src run.srcOffset run.nTokens) (by omega)
        rw [hw] at hb
        cases hb
        rw [hdst, hn] at hwrote
        exact hwrote
  refine ⟨hwrote.frame, hwrote.laid, ?_, ?_⟩
  · intro p hp
    obtain ⟨q, hq, rfl⟩ := List.mem_map.1 hp
    obtain ⟨i, hi, rfl⟩ := mem_pairs.1 hq
    show a'.row (run.dstSlot + i) = src[run.srcOffset + i]?
    rw [hwrote.row, hlen, if_pos (by omega), getElem?_window, if_pos (by omega)]
    congr 2
    omega
  · intro slot hslot
    rw [hwrote.row, hlen, if_neg]
    rintro ⟨hge, hlt⟩
    refine hslot (List.mem_map.2 ⟨(slot, src[run.srcOffset + (slot - run.dstSlot)]?), ?_, rfl⟩)
    refine List.mem_map.2 ⟨(slot, run.srcOffset + (slot - run.dstSlot)), ?_, rfl⟩
    refine mem_pairs.2 ⟨slot - run.dstSlot, by omega, ?_⟩
    congr 1
    omega

theorem flushRuns_lands {a a' : BlockAllocator ρ} (h : a.Laid) {src : List ρ}
    {runs : List PendingRun}
    (hfit : ∀ p ∈ runs.flatMap PendingRun.pairs, p.1 < a.numBlocks * a.blockSize)
    (hnd : (((runs.flatMap PendingRun.pairs).map fun p => (p.1, src[p.2]?)).map Prod.fst).Nodup)
    (hf : flushRuns a.blockSize src runs a = some a') :
    Lands a a' ((runs.flatMap PendingRun.pairs).map fun p => (p.1, src[p.2]?)) := by
  induction runs generalizing a with
  | nil =>
      cases hf
      exact .nil h
  | cons run runs ih =>
      obtain ⟨rows, hrows, hf⟩ := Option.bind_eq_some_iff.1 hf
      obtain ⟨b, hb, hf⟩ := Option.bind_eq_some_iff.1 hf
      rw [List.flatMap_cons, List.map_append] at hnd ⊢
      rw [List.flatMap_cons] at hfit
      have hrun := run_lands h (fun p hp => hfit p (List.mem_append_left _ hp)) hrows hb
      have hblocks : b.numBlocks * b.blockSize = a.numBlocks * a.blockSize := by rw [hrun.frame]
      have hbs : b.blockSize = a.blockSize := by rw [hrun.frame]
      rw [← hbs] at hf
      refine hrun.append (ih hrun.laid (fun p hp => ?_) ?_ hf) hnd
      · rw [hblocks]
        exact hfit p (List.mem_append_right _ hp)
      · rw [List.map_append] at hnd
        exact hnd.of_append_right

theorem flushBatches_lands {a a' : BlockAllocator ρ} (h : a.Laid) {batches : List (PendingBatch ρ)}
    (hfit : ∀ p ∈ batches.flatMap PendingBatch.pairs, p.1 < a.numBlocks * a.blockSize)
    (hnd : ((batches.flatMap PendingBatch.pairs).map Prod.fst).Nodup)
    (hf : flushBatches a.blockSize batches a = some a') :
    Lands a a' (batches.flatMap PendingBatch.pairs) := by
  induction batches generalizing a with
  | nil =>
      cases hf
      exact .nil h
  | cons batch batches ih =>
      obtain ⟨b, hruns, hf⟩ := Option.bind_eq_some_iff.1 hf
      rw [List.flatMap_cons] at hfit hnd ⊢
      have hbatch : Lands a b batch.pairs := by
        refine flushRuns_lands h (fun p hp => ?_) ?_ hruns
        · exact hfit (p.1, batch.src[p.2]?) (List.mem_append_left _ (List.mem_map.2 ⟨p, hp, rfl⟩))
        · rw [List.map_append] at hnd
          exact hnd.of_append_left
      have hblocks : b.numBlocks * b.blockSize = a.numBlocks * a.blockSize := by rw [hbatch.frame]
      have hbs : b.blockSize = a.blockSize := by rw [hbatch.frame]
      rw [← hbs] at hf
      refine hbatch.append (ih hbatch.laid (fun p hp => ?_) ?_ hf) hnd
      · rw [hblocks]
        exact hfit p (List.mem_append_right _ hp)
      · rw [List.map_append] at hnd
        exact hnd.of_append_right

/-- The flush of everything staged. -/
theorem flushPending_lands {c c' : PagedKvCache ρ} {a a' : BlockAllocator ρ} (h : a.Laid)
    (hbs : c.blockSize = a.blockSize)
    (hfit : ∀ p ∈ c.pendingPairs, p.1 < a.numBlocks * a.blockSize)
    (hnd : (c.pendingPairs.map Prod.fst).Nodup) (hf : c.flushPending a = some (c', a')) :
    Lands a a' c.pendingPairs ∧ c' = c.discardPending := by
  obtain ⟨b, hb, hf⟩ := Option.map_eq_some_iff.1 hf
  cases hf
  rw [hbs] at hb
  exact ⟨flushBatches_lands h hfit hnd hb, rfl⟩

end PagedKvCache

end Oxydllm.Kv
