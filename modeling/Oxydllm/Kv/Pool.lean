/-
# Oxydllm.Kv.Pool — reading and writing the rows of a block pool (`BlockAllocator::write`, `gather`).

A pool is a list of segments. The slot `s` is the row `s % segmentSlots` of the segment
`s / segmentSlots`. `write` splits a run at the segment boundaries; `gather` reads each segment's share in
one go and puts the rows back in the order they were asked for. `row` is what both are about.
-/
import Oxydllm.Kv.Allocator
import Oxydllm.Lib.Slice

namespace Oxydllm.Kv

open Slice

namespace BlockAllocator

variable {ρ : Type}

/-- The slots of a full segment. -/
def segmentSlots (a : BlockAllocator ρ) : Nat := a.segmentBlocks * a.blockSize

/-- The row of a slot, if it is materialised. -/
def row (a : BlockAllocator ρ) (slot : Nat) : Option ρ :=
  a.segments[slot / a.segmentSlots]?.bind (·[slot % a.segmentSlots]?)

/-- The loop of `write` from the slot `slot` on; `fuel` bounds its turns by the rows left. -/
def writeFrom (a : BlockAllocator ρ) : Nat → Nat → List ρ → Option (BlockAllocator ρ)
  | 0, _, data => if data.isEmpty then some a else none
  | fuel + 1, slot, data =>
      if data.isEmpty then some a
      else
        let segment := slot / a.segmentSlots
        let offset := slot % a.segmentSlots
        let n := min data.length (a.segmentSlots - offset)
        a.segments[segment]?.bind fun rows =>
          (sliceSet rows (data.take n) offset).bind fun rows =>
            writeFrom { a with segments := a.segments.set segment rows } fuel (slot + n) (data.drop n)

/-- Writes rows into the pool from `offset` of a block on. -/
def write (a : BlockAllocator ρ) (blockId offset : Nat) (data : List ρ) : Option (BlockAllocator ρ) :=
  writeFrom a data.length (blockId * a.blockSize + offset) data

/-- The slots that lie in a segment, each with its position in the request. -/
def slotShare (a : BlockAllocator ρ) (slots : List Nat) (segment : Nat) : List (Nat × Nat) :=
  slots.zipIdx.filter fun s => s.1 / a.segmentSlots == segment

/-- The loop of `gather` over the segments from `segment` on: the rows read and their positions. -/
def gatherFrom (a : BlockAllocator ρ) (slots : List Nat) :
    Nat → List (List ρ) → Option (List ρ × List Nat)
  | _, [] => some ([], [])
  | segment, rows :: rest =>
      (indexSelect rows ((a.slotShare slots segment).map fun s => s.1 % a.segmentSlots)).bind fun part =>
        (gatherFrom a slots (segment + 1) rest).map fun r =>
          (part ++ r.1, (a.slotShare slots segment).map Prod.snd ++ r.2)

/-- The rows of the slots, in the order they are asked for. -/
def gather (a : BlockAllocator ρ) (slots : List Nat) : Option (List ρ) :=
  match a.segments with
  | [rows] => indexSelect rows slots
  | segments =>
      (gatherFrom a slots 0 segments).bind fun r =>
        -- `Tensor::cat` takes at least one tensor, and there is one for each segment that has a slot
        if r.2.isEmpty then none
        -- `inverse[position]` is out of range when some slot has no segment
        else if r.2.all (· < r.2.length) then indexSelect r.1 (inversePositions r.2) else none

/-! ## The layout of the segments -/

/-- Every segment but the last is full, and together they hold the materialised blocks. -/
structure Laid (a : BlockAllocator ρ) : Prop where
  block_pos : 0 < a.blockSize
  segment_pos : 0 < a.segmentBlocks
  blocks : a.numBlocks = min a.maxBlocks (a.segments.length * a.segmentBlocks)
  segment_length : ∀ i rows, a.segments[i]? = some rows →
    rows.length = min a.segmentBlocks (a.maxBlocks - i * a.segmentBlocks) * a.blockSize

theorem Laid.slots_pos {a : BlockAllocator ρ} (h : a.Laid) : 0 < a.segmentSlots :=
  Nat.mul_pos h.segment_pos h.block_pos

/-- A slot of a materialised block is in its segment. -/
theorem Laid.slot {a : BlockAllocator ρ} (h : a.Laid) {slot : Nat}
    (hslot : slot < a.numBlocks * a.blockSize) :
    ∃ rows, a.segments[slot / a.segmentSlots]? = some rows ∧ slot % a.segmentSlots < rows.length := by
  have hS := h.slots_pos
  have hblocks := h.blocks
  have hmax : slot < a.maxBlocks * a.blockSize :=
    lt_of_lt_of_le hslot (Nat.mul_le_mul_right _ (by rw [hblocks]; exact min_le_left _ _))
  have hseg : slot < a.segments.length * a.segmentSlots := by
    refine lt_of_lt_of_le hslot ?_
    rw [segmentSlots, ← Nat.mul_assoc]
    exact Nat.mul_le_mul_right _ (by rw [hblocks]; exact min_le_right _ _)
  have hi : slot / a.segmentSlots < a.segments.length := (Nat.div_lt_iff_lt_mul hS).2 hseg
  refine ⟨_, List.getElem?_eq_getElem hi, ?_⟩
  rw [h.segment_length _ _ (List.getElem?_eq_getElem hi), ← Nat.mul_min_mul_right, Nat.lt_min]
  refine ⟨Nat.mod_lt _ hS, ?_⟩
  rw [Nat.sub_mul, Nat.mul_assoc]
  have hdiv := Nat.div_add_mod slot a.segmentSlots
  rw [Nat.mul_comm] at hdiv
  show slot % a.segmentSlots < a.maxBlocks * a.blockSize - slot / a.segmentSlots * a.segmentSlots
  omega

theorem Laid.row {a : BlockAllocator ρ} (h : a.Laid) {slot : Nat}
    (hslot : slot < a.numBlocks * a.blockSize) : ∃ r, a.row slot = some r := by
  obtain ⟨rows, hrows, hlt⟩ := h.slot hslot
  exact ⟨rows[slot % a.segmentSlots], by rw [BlockAllocator.row, hrows, Option.bind_some, List.getElem?_eq_getElem hlt]⟩

/-! ## Writing -/

/-- What a write of `data` from `slot` on does to the pool. -/
structure Wrote (a a' : BlockAllocator ρ) (slot : Nat) (data : List ρ) : Prop where
  frame : a' = { a with segments := a'.segments }
  laid : a'.Laid
  row : ∀ s, a'.row s = if slot ≤ s ∧ s < slot + data.length then data[s - slot]? else a.row s

theorem Wrote.nil {a : BlockAllocator ρ} (h : a.Laid) (slot : Nat) : Wrote a a slot [] := by
  refine ⟨rfl, h, fun s => ?_⟩
  rw [if_neg]
  simp only [List.length_nil]
  omega

theorem Wrote.append {a b c : BlockAllocator ρ} {slot : Nat} {xs ys : List ρ} (h : Wrote a b slot xs)
    (h' : Wrote b c (slot + xs.length) ys) : Wrote a c slot (xs ++ ys) := by
  refine ⟨by rw [h'.frame, h.frame], h'.laid, fun s => ?_⟩
  rw [h'.row, h.row, List.length_append]
  by_cases hys : slot + xs.length ≤ s ∧ s < slot + xs.length + ys.length
  · rw [if_pos hys, if_pos (by omega), List.getElem?_append_right (by omega), Nat.sub_add_eq]
  · rw [if_neg hys]
    by_cases hxs : slot ≤ s ∧ s < slot + xs.length
    · rw [if_pos hxs, if_pos (by omega), List.getElem?_append_left (by omega)]
    · rw [if_neg hxs, if_neg (by omega)]

/-- Positions of one segment. -/
theorem div_mod_of_within {slot S k : Nat} (hS : 0 < S) (h : slot % S + k < S) :
    (slot + k) / S = slot / S ∧ (slot + k) % S = slot % S + k := by
  have hdm := Nat.div_add_mod slot S
  have hsum : slot + k = slot % S + k + S * (slot / S) := by omega
  refine ⟨?_, ?_⟩
  · rw [hsum, Nat.add_mul_div_left _ _ hS, Nat.div_eq_of_lt h, Nat.zero_add]
  · rw [hsum, Nat.add_mul_mod_self_left, Nat.mod_eq_of_lt h]

/-- One turn of the loop: rows that stay inside their segment. -/
theorem wrote_segment {a : BlockAllocator ρ} (h : a.Laid) {slot : Nat} {data rows out : List ρ}
    (hrows : a.segments[slot / a.segmentSlots]? = some rows)
    (hwithin : slot % a.segmentSlots + data.length ≤ a.segmentSlots)
    (hset : sliceSet rows data (slot % a.segmentSlots) = some out) :
    Wrote a { a with segments := a.segments.set (slot / a.segmentSlots) out } slot data := by
  have hS := h.slots_pos
  have hlt : slot / a.segmentSlots < a.segments.length := (List.getElem?_eq_some_iff.1 hrows).1
  refine ⟨rfl, ⟨h.block_pos, h.segment_pos, ?_, ?_⟩, ?_⟩
  · show a.numBlocks = min a.maxBlocks ((a.segments.set _ out).length * a.segmentBlocks)
    rw [List.length_set]
    exact h.blocks
  · intro i rows' hget
    have hget : (a.segments.set (slot / a.segmentSlots) out)[i]? = some rows' := hget
    rw [List.getElem?_set] at hget
    split at hget
    next hi =>
      cases hget
      rw [sliceSet_length hset]
      exact h.segment_length i rows (by rw [← hi]; exact hrows)
    · exact h.segment_length i rows' hget
  · intro s
    show ((a.segments.set (slot / a.segmentSlots) out)[s / a.segmentSlots]?).bind
      (·[s % a.segmentSlots]?) = _
    rw [List.getElem?_set]
    have hdm := Nat.div_add_mod slot a.segmentSlots
    have hdm' := Nat.div_add_mod s a.segmentSlots
    by_cases hseg : slot / a.segmentSlots = s / a.segmentSlots
    · -- a slot of the same segment
      rw [if_pos hseg, if_pos hlt, Option.bind_some, getElem?_sliceSet hset]
      rw [hseg] at hdm
      have hsub : s - slot = s % a.segmentSlots - slot % a.segmentSlots := by omega
      have hiff : (slot % a.segmentSlots ≤ s % a.segmentSlots ∧
          s % a.segmentSlots < slot % a.segmentSlots + data.length) ↔
            slot ≤ s ∧ s < slot + data.length := by omega
      by_cases hin : slot ≤ s ∧ s < slot + data.length
      · rw [if_pos (hiff.2 hin), if_pos hin, hsub]
      · rw [if_neg fun hc => hin (hiff.1 hc), if_neg hin, BlockAllocator.row, ← hseg, hrows,
          Option.bind_some]
    · rw [if_neg hseg, if_neg, BlockAllocator.row]
      rintro ⟨hle, hlt'⟩
      -- a written slot is in the segment of the first one
      obtain ⟨k, rfl⟩ := Nat.exists_eq_add_of_le hle
      exact hseg (div_mod_of_within hS (by omega)).1.symm

theorem writeFrom_wrote {a : BlockAllocator ρ} (h : a.Laid) {fuel slot : Nat} {data : List ρ}
    (hfuel : data.length ≤ fuel) (hfit : slot + data.length ≤ a.numBlocks * a.blockSize) :
    ∃ a', writeFrom a fuel slot data = some a' ∧ Wrote a a' slot data := by
  induction fuel generalizing a slot data with
  | zero =>
      have hdata : data = [] := List.length_eq_zero_iff.1 (Nat.le_zero.1 hfuel)
      subst hdata
      exact ⟨a, rfl, .nil h slot⟩
  | succ fuel ih =>
      unfold writeFrom
      by_cases hdata : data = []
      · subst hdata
        exact ⟨a, rfl, .nil h slot⟩
      have hpos : 0 < data.length := List.length_pos_iff.2 hdata
      have hS := h.slots_pos
      have hmod := Nat.mod_lt slot hS
      simp only [List.isEmpty_iff, hdata, if_false]
      generalize hn : min data.length (a.segmentSlots - slot % a.segmentSlots) = n
      have hn1 : 1 ≤ n := by omega
      have htake : (data.take n).length = n := by
        rw [List.length_take]
        omega
      -- the last row of this turn is materialised, and in the same segment
      obtain ⟨hdiv, hlast⟩ := @div_mod_of_within slot _ (n - 1) hS (by omega)
      obtain ⟨rows, hrows, hlt⟩ := @Laid.slot _ _ h (slot + (n - 1)) (by omega)
      rw [hdiv] at hrows
      rw [hlast] at hlt
      rw [hrows, Option.bind_some]
      obtain ⟨out, hout⟩ := @sliceSet_eq_some _ rows (data.take n)
        (slot % a.segmentSlots) (by omega)
      rw [hout, Option.bind_some]
      have hw := wrote_segment h hrows (by omega) hout
      obtain ⟨a', ha', hw'⟩ := @ih _ hw.laid (slot + n) (data.drop n)
        (by rw [List.length_drop]; omega)
        (by
          rw [List.length_drop]
          show slot + n + (data.length - n) ≤ a.numBlocks * a.blockSize
          omega)
      refine ⟨a', ha', ?_⟩
      have := hw.append (by rw [htake]; exact hw')
      rwa [List.take_append_drop] at this

theorem write_wrote {a : BlockAllocator ρ} (h : a.Laid) {blockId offset : Nat} {data : List ρ}
    (hfit : blockId * a.blockSize + offset + data.length ≤ a.numBlocks * a.blockSize) :
    ∃ a', write a blockId offset data = some a' ∧
      Wrote a a' (blockId * a.blockSize + offset) data :=
  writeFrom_wrote h le_rfl hfit

/-- A write that succeeds leaves the layout as it was. -/
theorem writeFrom_laid {a a' : BlockAllocator ρ} (h : a.Laid) {fuel slot : Nat} {data : List ρ}
    (hw : writeFrom a fuel slot data = some a') : a'.Laid := by
  induction fuel generalizing a slot data with
  | zero =>
      obtain ⟨-, hw⟩ := Option.ite_none_right_eq_some.1 hw
      cases hw
      exact h
  | succ fuel ih =>
      unfold writeFrom at hw
      by_cases hdata : data = []
      · subst hdata
        cases hw
        exact h
      have hpos : 0 < data.length := List.length_pos_iff.2 hdata
      have hmod := Nat.mod_lt slot h.slots_pos
      simp only [List.isEmpty_iff, hdata, if_false] at hw
      obtain ⟨rows, hrows, hw⟩ := Option.bind_eq_some_iff.1 hw
      obtain ⟨out, hout, hw⟩ := Option.bind_eq_some_iff.1 hw
      exact ih (wrote_segment h hrows (by rw [List.length_take]; omega) hout).laid hw

/-! ## Reading -/

/-- The requests of the segments `lo ..< hi`. -/
def requests (a : BlockAllocator ρ) (slots : List Nat) (lo hi : Nat) : List (Nat × Nat) :=
  slots.zipIdx.filter fun s => lo ≤ s.1 / a.segmentSlots && s.1 / a.segmentSlots < hi

theorem requests_cons (a : BlockAllocator ρ) (slots : List Nat) {lo hi : Nat} (h : lo < hi) :
    (a.requests slots lo hi).Perm (a.slotShare slots lo ++ a.requests slots (lo + 1) hi) := by
  have hsplit := List.filter_append_perm (fun s : Nat × Nat => s.1 / a.segmentSlots == lo)
    (a.requests slots lo hi)
  refine hsplit.symm.trans (List.Perm.of_eq ?_)
  congr 1
  · rw [requests, slotShare, List.filter_filter]
    apply List.filter_congr
    intro s _
    rw [Bool.eq_iff_iff]
    simp only [Bool.and_eq_true, beq_iff_eq, decide_eq_true_eq]
    omega
  · rw [requests, requests, List.filter_filter]
    apply List.filter_congr
    intro s _
    rw [Bool.eq_iff_iff]
    simp only [Bool.and_eq_true, Bool.not_eq_true', beq_eq_false_iff_ne, decide_eq_true_eq]
    omega

theorem gatherFrom_rows {a : BlockAllocator ρ} {slots : List Nat} {rows : List ρ}
    (hslots : slots.map a.row = rows.map some) (segment : Nat) {segs : List (List ρ)}
    (hsegs : a.segments.drop segment = segs) :
    ∃ r, gatherFrom a slots segment segs = some r ∧
      r.1.map some = r.2.map (fun position => rows[position]?) ∧
      r.2.Perm ((a.requests slots segment (segment + segs.length)).map Prod.snd) := by
  have hrow : ∀ slot position : Nat, slots[position]? = some slot → a.row slot = rows[position]? := by
    intro slot position hget
    have := congrArg (·[position]?) hslots
    simp only [List.getElem?_map, hget, Option.map_some] at this
    obtain ⟨r, hr, hrr⟩ := Option.map_eq_some_iff.1 this.symm
    rw [← hrr, hr]
  induction segs generalizing segment with
  | nil =>
      refine ⟨_, rfl, rfl, ?_⟩
      have hnone : a.requests slots segment segment = [] := by
        rw [requests, List.filter_eq_nil_iff]
        intro s _
        simp only [Bool.and_eq_true, decide_eq_true_eq]
        omega
      show ([] : List Nat).Perm ((a.requests slots segment segment).map Prod.snd)
      rw [hnone]
      exact .refl _
  | cons seg segs ih =>
      have hseg : a.segments[segment]? = some seg := by
        have := congrArg (·[0]?) hsegs
        simpa only [List.getElem?_drop, Nat.add_zero, List.getElem?_cons_zero] using this
      obtain ⟨r, hr, hrows, horder⟩ := ih (segment + 1) (by
        rw [← List.drop_drop, hsegs]
        rfl)
      -- the share of this segment reads the rows asked for
      have hpart : ((a.slotShare slots segment).map fun s => s.1 % a.segmentSlots).map (seg[·]?) =
          ((a.slotShare slots segment).map Prod.snd).map fun position => rows[position]? := by
        rw [List.map_map, List.map_map]
        apply List.map_congr_left
        rintro ⟨slot, position⟩ hs
        obtain ⟨hmem, hdiv⟩ := List.mem_filter.1 hs
        have hget := List.mk_mem_zipIdx_iff_getElem?.1 hmem
        have hdiv : slot / a.segmentSlots = segment := by simpa using hdiv
        show seg[slot % a.segmentSlots]? = rows[position]?
        rw [← hrow slot position hget, row, hdiv, hseg, Option.bind_some]
      obtain ⟨part, hsome⟩ := @exists_map_some _ _ (fun position => rows[position]?)
        ((a.slotShare slots segment).map Prod.snd) (by
          intro position hposition
          obtain ⟨⟨slot, position'⟩, hs, rfl⟩ := List.mem_map.1 hposition
          have hget := List.mk_mem_zipIdx_iff_getElem?.1 (List.mem_filter.1 hs).1
          have hlt := (List.getElem?_eq_some_iff.1 hget).1
          have hlen : slots.length = rows.length := by
            simpa only [List.length_map] using congrArg List.length hslots
          exact ⟨_, List.getElem?_eq_getElem (by rw [← hlen]; exact hlt)⟩)
      have hselect : indexSelect seg ((a.slotShare slots segment).map fun s => s.1 % a.segmentSlots) =
          some part := indexSelect_eq_some.2 (hpart.trans hsome)
      refine ⟨(part ++ r.1, (a.slotShare slots segment).map Prod.snd ++ r.2), ?_, ?_, ?_⟩
      · rw [gatherFrom, hselect, Option.bind_some, hr, Option.map_some]
      · simp only [List.map_append, hrows, hsome]
      · have hperm := (@requests_cons _ a slots segment (segment + (segs.length + 1))
          (by omega)).map Prod.snd
        rw [List.map_append] at hperm
        refine (List.Perm.append_left _ (horder.trans (List.Perm.of_eq ?_))).trans hperm.symm
        congr 2
        omega

/-- Without slots there is something to return only when the pool has one segment. -/
theorem gather_nil (a : BlockAllocator ρ) :
    gather a [] = if a.segments.length = 1 then some [] else none := by
  have hnone : ∀ segment segs, gatherFrom a [] segment segs = some ([], []) := by
    intro segment segs
    induction segs generalizing segment with
    | nil => rfl
    | cons rows rest ih =>
        show (some []).bind (fun part => (gatherFrom a [] (segment + 1) rest).map _) = _
        rw [ih]
        rfl
  unfold gather
  split
  next rows hrows =>
    rw [hrows]
    rfl
  next hmany =>
    rw [if_neg, hnone]
    · rfl
    · intro hone
      obtain ⟨rows, hrows⟩ := List.length_eq_one_iff.1 hone
      exact hmany rows hrows

/-- Whatever the segments its slots lie in, a gather returns their rows in the order asked for. -/
theorem gather_rows {a : BlockAllocator ρ} (h : a.Laid) {slots : List Nat} {rows : List ρ}
    (hne : slots ≠ []) (hslots : slots.map a.row = rows.map some) : gather a slots = some rows := by
  have hlen : slots.length = rows.length := by
    simpa only [List.length_map] using congrArg List.length hslots
  unfold gather
  split
  next seg hsegs =>
    -- one segment: the slot is the index
    rw [indexSelect_eq_some, ← hslots]
    apply List.map_congr_left
    intro slot hslot
    have hsome : ∃ r, a.row slot = some r := by
      have := List.mem_map_of_mem (f := a.row) hslot
      rw [hslots] at this
      obtain ⟨r, -, hr⟩ := List.mem_map.1 this
      exact ⟨r, hr.symm⟩
    obtain ⟨r, hr⟩ := hsome
    have hdiv : slot / a.segmentSlots = 0 := by
      obtain ⟨rows', hrows', -⟩ := Option.bind_eq_some_iff.1 hr
      have := (List.getElem?_eq_some_iff.1 hrows').1
      rw [hsegs] at this
      exact Nat.lt_one_iff.1 this
    have hlt : slot < a.segmentSlots := by
      rcases Nat.div_eq_zero_iff.1 hdiv with h0 | hlt
      · exact absurd h0 (Nat.ne_of_gt h.slots_pos)
      · exact hlt
    rw [row, hdiv, hsegs, Nat.mod_eq_of_lt hlt]
    rfl
  next =>
    obtain ⟨r, hr, hrows, horder⟩ := @gatherFrom_rows _ _ _ _ hslots 0 a.segments rfl
    have hall : (a.requests slots 0 (0 + a.segments.length)) = slots.zipIdx := by
      rw [requests, List.filter_eq_self]
      rintro ⟨slot, position⟩ hs
      have hget := List.mk_mem_zipIdx_iff_getElem?.1 hs
      have := congrArg (·[position]?) hslots
      simp only [List.getElem?_map, hget, Option.map_some] at this
      obtain ⟨x, -, hx⟩ := Option.map_eq_some_iff.1 this.symm
      obtain ⟨rows', hrows', -⟩ := Option.bind_eq_some_iff.1 hx.symm
      have hlt := (List.getElem?_eq_some_iff.1 hrows').1
      simp only [Bool.and_eq_true, decide_eq_true_eq]
      exact ⟨Nat.zero_le _, by omega⟩
    rw [hall, List.zipIdx_map_snd, ← List.range_eq_range'] at horder
    rw [hlen] at horder
    have hbelow : r.2.all (· < r.2.length) = true := by
      rw [List.all_eq_true]
      intro position hposition
      rw [horder.length_eq, List.length_range]
      exact decide_eq_true (List.mem_range.1 (horder.mem_iff.1 hposition))
    have hsome : ¬ r.2.isEmpty = true := by
      rw [List.isEmpty_iff, ← List.length_eq_zero_iff, horder.length_eq, List.length_range, ← hlen,
        List.length_eq_zero_iff]
      exact hne
    rw [hr, Option.bind_some, if_neg hsome, if_pos hbelow]
    exact indexSelect_inverse horder hrows

/-! ## Handing out blocks moves no row -/

/-- The rows a pool holds are still there, at the same slots. -/
structure Extends (a a' : BlockAllocator ρ) : Prop where
  laid : a'.Laid
  row : ∀ slot r, a.row slot = some r → a'.row slot = some r
  numBlocks : a.numBlocks ≤ a'.numBlocks
  blockSize : a'.blockSize = a.blockSize

theorem Extends.refl {a : BlockAllocator ρ} (h : a.Laid) : Extends a a :=
  ⟨h, fun _ _ hr => hr, le_rfl, Eq.refl _⟩

theorem Extends.trans {a b c : BlockAllocator ρ} (h : Extends a b) (h' : Extends b c) :
    Extends a c :=
  ⟨h'.laid, fun slot r hr => h'.row slot r (h.row slot r hr), h.numBlocks.trans h'.numBlocks,
    h'.blockSize.trans h.blockSize⟩

theorem Laid.share {a : BlockAllocator ρ} (h : a.Laid) (id : Nat) : (a.share id).Laid :=
  ⟨h.block_pos, h.segment_pos, h.blocks, h.segment_length⟩

theorem Laid.free {a : BlockAllocator ρ} (h : a.Laid) (id : Nat) : (a.free id).Laid :=
  ⟨h.block_pos, h.segment_pos, h.blocks, h.segment_length⟩

variable [Inhabited ρ]

theorem grow_extends {device : Nat → Bool} {a a' : BlockAllocator ρ} (h : a.Laid)
    (hg : grow device a = some a') : Extends a a' := by
  unfold grow at hg
  obtain ⟨hn, hg⟩ := Option.ite_none_left_eq_some.1 hg
  obtain ⟨-, hg⟩ := Option.ite_none_right_eq_some.1 hg
  have hblocks := h.blocks
  generalize hnum : min a.segmentBlocks (a.maxBlocks - a.numBlocks) = n at hn hg
  cases hg
  have hsucc : (a.segments.length + 1) * a.segmentBlocks =
      a.segments.length * a.segmentBlocks + a.segmentBlocks := Nat.succ_mul _ _
  refine ⟨⟨h.block_pos, h.segment_pos, ?_, ?_⟩, ?_, Nat.le_add_right _ _, rfl⟩
  · show a.numBlocks + n = min a.maxBlocks ((a.segments ++ [_]).length * a.segmentBlocks)
    rw [List.length_append, List.length_singleton, hsucc]
    omega
  · intro i rows hget
    have hget : (a.segments ++ [List.replicate (n * a.blockSize) default])[i]? = some rows := hget
    rw [List.getElem?_append] at hget
    split at hget
    · exact h.segment_length i rows hget
    next hi =>
      -- the new segment
      rw [List.getElem?_singleton] at hget
      obtain ⟨hi', hrows⟩ := Option.ite_none_right_eq_some.1 hget
      cases hrows
      have heq : i = a.segments.length := by omega
      rw [List.length_replicate, heq, ← hnum]
      show _ = min a.segmentBlocks (a.maxBlocks - a.segments.length * a.segmentBlocks) * a.blockSize
      congr 1
      omega
  · intro slot r hr
    obtain ⟨rows, hrows, hget⟩ := Option.bind_eq_some_iff.1 hr
    have hlt := (List.getElem?_eq_some_iff.1 hrows).1
    show ((a.segments ++ [_])[slot / a.segmentSlots]?).bind (·[slot % a.segmentSlots]?) = some r
    rw [List.getElem?_append_left hlt, hrows, Option.bind_some, hget]

theorem allocate_extends {device : Nat → Bool} {a a' : BlockAllocator ρ} {id : Nat} (h : a.Laid)
    (ha : allocate device a = some (id, a')) : Extends a a' := by
  obtain ⟨a₁, hgrow, hpop⟩ := Option.bind_eq_some_iff.1 ha
  have h₁ : Extends a a₁ := by
    split at hgrow
    · exact grow_extends h hgrow
    · cases hgrow
      exact .refl h
  cases hl : a₁.freeList with
  | nil => rw [hl] at hpop; cases hpop
  | cons top rest =>
      rw [hl] at hpop
      cases hpop
      exact h₁.trans ⟨⟨h₁.laid.block_pos, h₁.laid.segment_pos, h₁.laid.blocks,
        h₁.laid.segment_length⟩, fun _ _ hr => hr, le_rfl, rfl⟩

theorem growing_laid {maxBlocks segmentBlocks blockSize : Nat} {window : Option Nat}
    {device : Nat → Bool} {a : BlockAllocator ρ} (hbs : 0 < blockSize)
    (h : growing maxBlocks segmentBlocks blockSize window device = some a) : a.Laid := by
  have hempty : Laid (⟨[], [], [], 0, maxBlocks, max 1 (min segmentBlocks (max maxBlocks 1)), blockSize,
      window⟩ : BlockAllocator ρ) :=
    ⟨hbs, Nat.le_max_left _ _, by simp, fun i rows hget => by cases hget⟩
  unfold growing at h
  split at h
  · exact (grow_extends hempty h).laid
  · cases h
    exact hempty

theorem growing_geometry {maxBlocks segmentBlocks blockSize : Nat} {window : Option Nat}
    {device : Nat → Bool} {a : BlockAllocator ρ}
    (h : growing maxBlocks segmentBlocks blockSize window device = some a) :
    a.blockSize = blockSize ∧ a.slidingWindow = window := by
  unfold growing at h
  split at h
  · unfold grow at h
    obtain ⟨-, h⟩ := Option.ite_none_left_eq_some.1 h
    obtain ⟨-, h⟩ := Option.ite_none_right_eq_some.1 h
    cases h
    exact ⟨rfl, rfl⟩
  · cases h
    exact ⟨rfl, rfl⟩

end BlockAllocator

end Oxydllm.Kv
