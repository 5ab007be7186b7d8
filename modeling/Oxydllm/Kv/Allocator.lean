/-
# Oxydllm.Kv.Allocator — the block pool of one layer (`BlockAllocator`).

A pool hands out blocks up to a ceiling and materialises them segment by segment. `freeList` is the
source's stack with its top first. The rows stand for the K and V vectors of one slot together; the
element type, the quantised layout and the device live outside the model, except that the device may
refuse to hold another segment (`device`).
-/
import Mathlib.Data.List.Basic
import Mathlib.Data.List.Nodup
import Mathlib.Data.List.Range
import Mathlib.Tactic

namespace Oxydllm.Kv

structure BlockAllocator (ρ : Type) where
  segments : List (List ρ)
  freeList : List Nat
  refCounts : List Nat
  numBlocks : Nat
  maxBlocks : Nat
  segmentBlocks : Nat
  blockSize : Nat
  slidingWindow : Option Nat

namespace BlockAllocator

variable {ρ : Type}

def refCount (a : BlockAllocator ρ) (id : Nat) : Nat := a.refCounts.getD id 0

def share (a : BlockAllocator ρ) (id : Nat) : BlockAllocator ρ :=
  { a with refCounts := a.refCounts.modify id (· + 1) }

def free (a : BlockAllocator ρ) (id : Nat) : BlockAllocator ρ :=
  { a with
    refCounts := a.refCounts.modify id (· - 1)
    freeList := if a.refCount id = 1 then id :: a.freeList else a.freeList }

/-- Blocks that can still be taken: the free ones that exist plus every one below the ceiling that does
not yet. -/
def numFree (a : BlockAllocator ρ) : Nat := a.freeList.length + (a.maxBlocks - a.numBlocks)

/-- Materialises the next segment, or what is left below the ceiling; `device` says whether the device
can hold it. -/
def grow [Inhabited ρ] (device : Nat → Bool) (a : BlockAllocator ρ) : Option (BlockAllocator ρ) :=
  let n := min a.segmentBlocks (a.maxBlocks - a.numBlocks)
  if n = 0 then none
  else if device a.numBlocks then
    some { a with
      segments := a.segments ++ [List.replicate (n * a.blockSize) default]
      numBlocks := a.numBlocks + n
      refCounts := a.refCounts ++ List.replicate n 0
      -- `extend((first..num_blocks).rev())`: the lowest new id ends on top
      freeList := List.range' a.numBlocks n ++ a.freeList }
  else none

/-- A pool with its first segment. -/
def growing [Inhabited ρ] (maxBlocks segmentBlocks blockSize : Nat) (window : Option Nat)
    (device : Nat → Bool) : Option (BlockAllocator ρ) :=
  let a : BlockAllocator ρ :=
    ⟨[], [], [], 0, maxBlocks, max 1 (min segmentBlocks (max maxBlocks 1)), blockSize, window⟩
  if maxBlocks > 0 then grow device a else some a

/-- Hands out a block, materialising the next segment when every block that exists is taken. -/
def allocate [Inhabited ρ] (device : Nat → Bool) (a : BlockAllocator ρ) :
    Option (Nat × BlockAllocator ρ) :=
  (if a.freeList.isEmpty then grow device a else some a).bind fun a =>
    match a.freeList with
    | [] => none
    | id :: rest => some (id, { a with freeList := rest, refCounts := a.refCounts.set id 1 })

/-! ## What the pool keeps -/

/-- The free list is exactly the materialised blocks nobody holds. -/
structure Wf (a : BlockAllocator ρ) : Prop where
  counts_length : a.refCounts.length = a.numBlocks
  below : a.numBlocks ≤ a.maxBlocks
  free_nodup : a.freeList.Nodup
  free_iff : ∀ b, b ∈ a.freeList ↔ b < a.numBlocks ∧ a.refCount b = 0

theorem refCount_of_le {a : BlockAllocator ρ} (h : a.Wf) {b : Nat} (hb : a.numBlocks ≤ b) :
    a.refCount b = 0 := by
  have := h.counts_length
  rw [refCount, List.getD_eq_getElem?_getD, List.getElem?_eq_none (by omega), Option.getD_none]

theorem lt_of_refCount {a : BlockAllocator ρ} (h : a.Wf) {b : Nat} (hb : 0 < a.refCount b) :
    b < a.numBlocks := by
  by_contra hle
  rw [refCount_of_le h (by omega)] at hb
  exact absurd hb (by decide)

/-- What an operation does to the counts and leaves alone. -/
structure Counts (a a' : BlockAllocator ρ) (f : Nat → Nat → Nat) : Prop where
  wf : a'.Wf
  count : ∀ b, a'.refCount b = f b (a.refCount b)
  maxBlocks : a'.maxBlocks = a.maxBlocks
  blockSize : a'.blockSize = a.blockSize
  window : a'.slidingWindow = a.slidingWindow
  segmentBlocks : a'.segmentBlocks = a.segmentBlocks

theorem refCount_modify (counts : List Nat) (f : Nat → Nat) (id b : Nat)
    (hid : id < counts.length) :
    (counts.modify id f).getD b 0 = if b = id then f (counts.getD b 0) else counts.getD b 0 := by
  rw [List.getD_eq_getElem?_getD, List.getElem?_modify, List.getD_eq_getElem?_getD]
  by_cases hb : b = id
  · subst hb
    simp [hid]
  · have hne : ¬ id = b := fun h => hb h.symm
    cases counts[b]? <;> simp [hb, hne]

theorem share_counts {a : BlockAllocator ρ} (h : a.Wf) {id : Nat} (hid : 0 < a.refCount id) :
    Counts a (a.share id) fun b n => if b = id then n + 1 else n := by
  have hlt : id < a.refCounts.length := h.counts_length ▸ lt_of_refCount h hid
  have hcount : ∀ b, (a.share id).refCount b = if b = id then a.refCount b + 1 else a.refCount b :=
    fun b => refCount_modify _ _ _ _ hlt
  refine ⟨⟨by simp [share, h.counts_length], h.below, h.free_nodup, fun b => ?_⟩, hcount, rfl, rfl, rfl, rfl⟩
  rw [hcount]
  show b ∈ a.freeList ↔ b < a.numBlocks ∧ _
  rw [h.free_iff]
  by_cases hb : b = id
  · subst hb
    simp only [if_true]
    omega
  · simp [hb]

theorem free_counts {a : BlockAllocator ρ} (h : a.Wf) {id : Nat} (hid : 0 < a.refCount id) :
    Counts a (a.free id) fun b n => if b = id then n - 1 else n := by
  have hlt : id < a.refCounts.length := h.counts_length ▸ lt_of_refCount h hid
  have hcount : ∀ b, (a.free id).refCount b = if b = id then a.refCount b - 1 else a.refCount b :=
    fun b => refCount_modify _ _ _ _ hlt
  have hnew : id ∉ a.freeList := fun hmem => by
    have := ((h.free_iff id).1 hmem).2
    omega
  refine ⟨⟨by simp [free, h.counts_length], h.below, ?_, fun b => ?_⟩, hcount, rfl, rfl, rfl, rfl⟩
  · show (if a.refCount id = 1 then id :: a.freeList else a.freeList).Nodup
    split
    · exact List.nodup_cons.2 ⟨hnew, h.free_nodup⟩
    · exact h.free_nodup
  · rw [hcount]
    show b ∈ (if a.refCount id = 1 then id :: a.freeList else a.freeList) ↔ b < a.numBlocks ∧ _
    have hlt' := lt_of_refCount h hid
    by_cases hb : b = id
    · subst hb
      by_cases hone : a.refCount b = 1
      · simp [hone, hlt']
      · have hpos : ¬ a.refCount b - 1 = 0 := by omega
        simp [hone, hnew, hpos]
    · rw [if_neg hb]
      split
      · rw [List.mem_cons, h.free_iff]
        simp [hb]
      · exact h.free_iff b

theorem numFree_free {a : BlockAllocator ρ} (id : Nat) :
    (a.free id).numFree = a.numFree + if a.refCount id = 1 then 1 else 0 := by
  unfold numFree free
  by_cases hone : a.refCount id = 1
  · simp only [hone, if_true, List.length_cons]
    omega
  · simp only [hone, if_false]
    omega

@[simp] theorem numFree_share (a : BlockAllocator ρ) (id : Nat) : (a.share id).numFree = a.numFree := rfl

section

variable [Inhabited ρ]

theorem grow_counts {device : Nat → Bool} {a a' : BlockAllocator ρ} (h : a.Wf) (hg : grow device a = some a') :
    Counts a a' (fun _ n => n) ∧ a'.freeList ≠ [] ∧ a'.numFree = a.numFree := by
  unfold grow at hg
  obtain ⟨hn, hg⟩ := Option.ite_none_left_eq_some.1 hg
  obtain ⟨-, hg⟩ := Option.ite_none_right_eq_some.1 hg
  generalize hnum : min a.segmentBlocks (a.maxBlocks - a.numBlocks) = n at hn hg
  cases hg
  have hlen := h.counts_length
  have hbelow := h.below
  have hcount : ∀ b, (a.refCounts ++ List.replicate n 0).getD b 0 = a.refCounts.getD b 0 := by
    intro b
    rw [List.getD_eq_getElem?_getD, List.getD_eq_getElem?_getD, List.getElem?_append]
    split
    · rfl
    next hb =>
      have hnone : a.refCounts[b]? = none := List.getElem?_eq_none (by omega)
      rw [hnone, List.getElem?_replicate]
      split <;> rfl
  refine ⟨⟨⟨?_, ?_, ?_, ?_⟩, hcount, rfl, rfl, rfl, rfl⟩, ?_, ?_⟩
  · simp [hlen]
  · show a.numBlocks + n ≤ a.maxBlocks
    omega
  · refine List.nodup_append.2 ⟨List.nodup_range', h.free_nodup, ?_⟩
    rintro x hx y hy rfl
    have hy := ((h.free_iff x).1 hy).1
    rw [List.mem_range'_1] at hx
    omega
  · intro b
    show b ∈ List.range' a.numBlocks n ++ a.freeList ↔
      b < a.numBlocks + n ∧ (a.refCounts ++ List.replicate n 0).getD b 0 = 0
    rw [hcount, List.mem_append, List.mem_range'_1, h.free_iff]
    show _ ↔ b < a.numBlocks + n ∧ a.refCount b = 0
    constructor
    · rintro (hb | hb)
      · exact ⟨by omega, refCount_of_le h (by omega)⟩
      · exact ⟨by omega, hb.2⟩
    · rintro ⟨hb, hzero⟩
      by_cases hnew : b < a.numBlocks
      · exact .inr ⟨hnew, hzero⟩
      · exact .inl ⟨by omega, by omega⟩
  · simp [hn]
  · simp only [numFree, List.length_append, List.length_range']
    omega

/-- A block handed out was held by nobody. -/
theorem allocate_counts {device : Nat → Bool} {a a' : BlockAllocator ρ} {id : Nat} (h : a.Wf)
    (ha : allocate device a = some (id, a')) :
    Counts a a' (fun b n => if b = id then 1 else n) ∧ a.refCount id = 0 ∧ a'.numFree + 1 = a.numFree := by
  obtain ⟨a₁, hgrow, hpop⟩ := Option.bind_eq_some_iff.1 ha
  have h₁ : Counts a a₁ (fun _ n => n) ∧ a₁.numFree = a.numFree := by
    split at hgrow
    · obtain ⟨hc, -, hfree⟩ := grow_counts h hgrow
      exact ⟨hc, hfree⟩
    · cases hgrow
      exact ⟨⟨h, fun _ => rfl, rfl, rfl, rfl, rfl⟩, rfl⟩
  obtain ⟨hc, hfree⟩ := h₁
  cases hl : a₁.freeList with
  | nil => rw [hl] at hpop; cases hpop
  | cons top rest =>
      rw [hl] at hpop
      cases hpop
      have hmem := (hc.wf.free_iff id).1 (by rw [hl]; exact List.mem_cons_self)
      have hnodup := hc.wf.free_nodup
      rw [hl, List.nodup_cons] at hnodup
      have hlt : id < a₁.refCounts.length := hc.wf.counts_length ▸ hmem.1
      have hcount : ∀ b, (a₁.refCounts.set id 1).getD b 0 = if b = id then 1 else a₁.refCount b := by
        intro b
        rw [List.getD_eq_getElem?_getD, List.getElem?_set]
        by_cases hb : b = id
        · subst hb
          simp [hlt]
        · have hne : ¬ id = b := fun h => hb h.symm
          simp [hb, hne, refCount, List.getD_eq_getElem?_getD]
      refine ⟨⟨⟨by simp [hc.wf.counts_length], hc.wf.below, hnodup.2, fun b => ?_⟩, ?_, hc.maxBlocks,
        hc.blockSize, hc.window, hc.segmentBlocks⟩, ?_, ?_⟩
      · show b ∈ rest ↔ b < a₁.numBlocks ∧ (a₁.refCounts.set id 1).getD b 0 = 0
        rw [hcount]
        by_cases hb : b = id
        · subst hb
          simp [hnodup.1]
        · rw [if_neg hb, ← hc.wf.free_iff, hl, List.mem_cons]
          simp [hb]
      · intro b
        show (a₁.refCounts.set id 1).getD b 0 = _
        rw [hcount, hc.count]
      · rw [← hc.count]
        exact hmem.2
      · rw [← hfree]
        simp only [numFree, hl, List.length_cons]
        omega

end

end BlockAllocator

end Oxydllm.Kv
