/-
# Oxydllm.Kv.CacheRefines — the paged cache of a sequence is its list of rows.

`Logical` is what the cache stands for: the rows appended so far, and how far a rollback went back. The
block loop of `append` is described once (`Appended`), the contiguous buffer by `Held` (it shows the end
of the list) and `Kept` (it still shows enough of it).
-/
import Oxydllm.Kv.PagedCache
import Mathlib.Logic.Relation

namespace Oxydllm.Kv

open Slice

/-- The table of a sequence whose blocks are exactly those its tokens need. -/
structure BlockTable.Fits (t : BlockTable) (bs : Nat) : Prop where
  blocks_length : t.blockIds.length = PagedKvCache.blocksFor t.numTokens bs
  slot : ∀ i < t.numTokens, ∃ id, t.blockIds[i / bs]? = some id ∧
    t.cachedSlots[i]? = some (id * bs + i % bs)

/-- The pool slots of a run, each with the index of its source row. -/
def PendingRun.pairs (r : PendingRun) : List (Nat × Nat) :=
  (List.range' r.dstSlot r.nTokens).zipIdx r.srcOffset

namespace PagedKvCache

variable {ρ : Type}

/-! ## Block counts -/

theorem blocksFor_mul {bs : Nat} (h : 0 < bs) (q : Nat) : blocksFor (q * bs) bs = q := by
  rw [blocksFor, Nat.add_sub_assoc h, Nat.mul_comm, Nat.mul_add_div h,
    Nat.div_eq_of_lt (Nat.sub_lt h Nat.one_pos), Nat.add_zero]

theorem blocksFor_zero {bs : Nat} (h : 0 < bs) : blocksFor 0 bs = 0 := by
  have := blocksFor_mul h 0
  rwa [Nat.zero_mul] at this

theorem blocksFor_within {bs : Nat} (h : 0 < bs) {q k : Nat} (hk : 0 < k) (hkb : k ≤ bs) :
    blocksFor (q * bs + k) bs = q + 1 := by
  have : q * bs + k + bs - 1 = bs * (q + 1) + (k - 1) := by
    rw [Nat.mul_comm, Nat.mul_succ]
    omega
  rw [blocksFor, this, Nat.mul_add_div h, Nat.div_eq_of_lt (by omega), Nat.add_zero]

/-! ## The runs of an append -/

theorem pairs_merge (dst src n m : Nat) :
    PendingRun.pairs ⟨dst, src, n + m⟩ =
      PendingRun.pairs ⟨dst, src, n⟩ ++ PendingRun.pairs ⟨dst + n, src + n, m⟩ := by
  simp only [PendingRun.pairs]
  rw [← List.range'_append_1, List.zipIdx_append, List.length_range']

theorem pairs_pushRun (runs : List PendingRun) (run : PendingRun) :
    (pushRun runs run).reverse.flatMap PendingRun.pairs =
      runs.reverse.flatMap PendingRun.pairs ++ run.pairs := by
  cases runs with
  | nil => simp [pushRun]
  | cons prev rest =>
      simp only [pushRun]
      split
      next h =>
        -- the run continues the newest one
        obtain ⟨hdst, hsrc⟩ := h
        rw [List.reverse_cons, List.reverse_cons, List.flatMap_append, List.flatMap_append,
          List.append_assoc, List.flatMap_singleton, List.flatMap_singleton]
        congr 1
        rw [pairs_merge, hdst, hsrc]
      · rw [List.reverse_cons, List.flatMap_append, List.flatMap_singleton]

/-! ## The block loop -/

section

variable [Inhabited ρ] {device : Nat → Bool} {bs newSeq fuel : Nat} {poolWrites : Bool}
  {s s' : BlockLoop ρ}

/-- What one turn does. -/
theorem appendBlock_eq (h : appendBlock device bs poolWrites newSeq s = some s') :
    ∃ id alloc blockIds, nextBlock device bs s.alloc s.table = some (id, alloc, blockIds) ∧
      ∃ offset n, offset = s.table.numTokens % bs ∧ n = min (newSeq - s.written) (bs - offset) ∧
        s' = ⟨alloc, ⟨blockIds, s.table.numTokens + n,
            s.table.cachedSlots ++ List.range' (id * bs + offset) n⟩,
          if poolWrites then pushRun s.runs ⟨id * bs + offset, s.written, n⟩ else s.runs,
          s.written + n⟩ := by
  obtain ⟨⟨id, alloc, blockIds⟩, hnext, h⟩ := Option.bind_eq_some_iff.1 h
  obtain ⟨-, h⟩ := Option.ite_none_right_eq_some.1 h
  cases h
  exact ⟨id, alloc, blockIds, hnext, _, _, rfl, rfl, rfl⟩

/-- What every turn keeps holds when the loop ends, and then all rows are written. -/
theorem appendBlocks_induct {P : BlockLoop ρ → Prop}
    (hstep : ∀ s s', s.written < newSeq → P s →
      appendBlock device bs poolWrites newSeq s = some s' → P s')
    (hs : P s) (h : appendBlocks device bs poolWrites newSeq fuel s = some s') :
    P s' ∧ newSeq ≤ s'.written := by
  induction fuel generalizing s with
  | zero =>
      obtain ⟨hlt, h⟩ := Option.ite_none_left_eq_some.1 h
      cases h
      exact ⟨hs, by omega⟩
  | succ fuel ih =>
      unfold appendBlocks at h
      split at h
      next hlt =>
        obtain ⟨s₁, hs₁, h⟩ := Option.bind_eq_some_iff.1 h
        exact ih (hstep s s₁ hlt hs hs₁) h
      next hge =>
        cases h
        exact ⟨hs, by omega⟩

/-- Where the loop stands: `added` are the slots handed out so far. -/
structure Appended (bs newSeq : Nat) (poolWrites : Bool) (a : BlockAllocator ρ) (t : BlockTable)
    (s : BlockLoop ρ) (added : List Nat) : Prop where
  alloc : BlockAllocator.Extends a s.alloc
  written_le : s.written ≤ newSeq
  added_length : added.length = s.written
  numTokens : s.table.numTokens = t.numTokens + s.written
  slots : s.table.cachedSlots = t.cachedSlots ++ added
  runs : s.runs.reverse.flatMap PendingRun.pairs = if poolWrites then added.zipIdx else []
  fits : t.cachedSlots.length = t.numTokens → t.Fits bs → s.table.Fits bs

theorem nextBlock_extends {id : Nat} {a alloc : BlockAllocator ρ} {t : BlockTable}
    {blockIds : List Nat} (ha : a.Laid) (h : nextBlock device bs a t = some (id, alloc, blockIds)) :
    BlockAllocator.Extends a alloc := by
  unfold nextBlock at h
  split at h
  · obtain ⟨r, hr, h⟩ := Option.map_eq_some_iff.1 h
    cases h
    exact BlockAllocator.allocate_extends ha hr
  · obtain ⟨r, hr, h⟩ := Option.map_eq_some_iff.1 h
    cases h
    exact .refl ha

/-- The table after a turn: the current block is number `numTokens / bs`. -/
theorem nextBlock_fits (hbs : 0 < bs) {id n : Nat} {a alloc : BlockAllocator ρ} {t : BlockTable}
    {blockIds : List Nat} (h : nextBlock device bs a t = some (id, alloc, blockIds))
    (hlen : t.cachedSlots.length = t.numTokens) (ht : t.Fits bs) (hn : 0 < n)
    (hnb : t.numTokens % bs + n ≤ bs) :
    BlockTable.Fits ⟨blockIds, t.numTokens + n,
      t.cachedSlots ++ List.range' (id * bs + t.numTokens % bs) n⟩ bs := by
  have hdm := Nat.div_add_mod t.numTokens bs
  rw [Nat.mul_comm] at hdm
  generalize hq : t.numTokens / bs = q at hdm
  generalize hr : t.numTokens % bs = r at hdm hnb
  have hblocks : t.blockIds.length = blocksFor (q * bs + r) bs := by rw [hdm, ht.blocks_length]
  -- the ids up to block `q` are those of the table, block `q` is `id`
  have hids : blockIds.length = q + 1 ∧ blockIds[q]? = some id ∧
      ∀ i, i < t.numTokens → blockIds[i / bs]? = t.blockIds[i / bs]? := by
    unfold nextBlock at h
    split at h
    next hzero =>
      obtain ⟨⟨id', a'⟩, -, h⟩ := Option.map_eq_some_iff.1 h
      cases h
      have hr0 : r = 0 := by omega
      rw [hr0, Nat.add_zero, blocksFor_mul hbs] at hblocks
      refine ⟨by rw [List.length_append, hblocks]; rfl, ?_, ?_⟩
      · rw [← hblocks, List.getElem?_concat_length]
      · intro i hi
        have : i / bs < q := (Nat.div_lt_iff_lt_mul hbs).2 (by omega)
        rw [List.getElem?_append_left (by omega)]
    next hpos =>
      obtain ⟨id', hlast, h⟩ := Option.map_eq_some_iff.1 h
      cases h
      have hmod := Nat.mod_lt t.numTokens hbs
      rw [blocksFor_within hbs (by omega) (by omega)] at hblocks
      refine ⟨hblocks, ?_, fun _ _ => rfl⟩
      rw [List.getLast?_eq_getElem?, hblocks] at hlast
      exact hlast
  obtain ⟨hlength, hid, hold⟩ := hids
  refine ⟨?_, ?_⟩
  · show blockIds.length = blocksFor (t.numTokens + n) bs
    rw [hlength, ← hdm, Nat.add_assoc, blocksFor_within hbs (by omega) hnb]
  · intro i hi
    have hi : i < t.numTokens + n := hi
    by_cases hlt : i < t.numTokens
    · obtain ⟨b, hb, hslot⟩ := ht.slot i hlt
      refine ⟨b, by rw [← hb]; exact hold i hlt, ?_⟩
      show (t.cachedSlots ++ _)[i]? = _
      rw [List.getElem?_append_left (by omega), hslot]
    · -- a token of this turn
      obtain ⟨k, rfl⟩ := Nat.exists_eq_add_of_le (Nat.le_of_not_lt hlt)
      have hsum : t.numTokens + k = (r + k) + bs * q := by
        rw [Nat.mul_comm]
        omega
      have hdiv : (t.numTokens + k) / bs = q := by
        rw [hsum, Nat.add_mul_div_left _ _ hbs, Nat.div_eq_of_lt (by omega), Nat.zero_add]
      have hmod : (t.numTokens + k) % bs = r + k := by
        rw [hsum, Nat.add_mul_mod_self_left, Nat.mod_eq_of_lt (by omega)]
      refine ⟨id, by rw [hdiv]; exact hid, ?_⟩
      show (t.cachedSlots ++ List.range' (id * bs + r) n)[t.numTokens + k]? = _
      rw [List.getElem?_append_right (by omega), List.getElem?_range', hmod, hlen]
      · congr 1
        omega
      · omega

theorem appendBlock_appended (hbs : 0 < bs) {a : BlockAllocator ρ} {t : BlockTable}
    {added : List Nat} (hlt : s.written < newSeq)
    (hs : Appended bs newSeq poolWrites a t s added)
    (h : appendBlock device bs poolWrites newSeq s = some s') :
    ∃ added', Appended bs newSeq poolWrites a t s' added' := by
  obtain ⟨id, alloc, blockIds, hnext, offset, n, hoffset, hn, rfl⟩ := appendBlock_eq h
  have hmod := Nat.mod_lt s.table.numTokens hbs
  have hnpos : 0 < n := by omega
  refine ⟨added ++ List.range' (id * bs + offset) n, hs.alloc.trans (nextBlock_extends hs.alloc.laid hnext),
    ?_, ?_, ?_, ?_, ?_, ?_⟩
  · show s.written + n ≤ newSeq
    omega
  · rw [List.length_append, List.length_range', hs.added_length]
  · show s.table.numTokens + n = t.numTokens + (s.written + n)
    rw [hs.numTokens, Nat.add_assoc]
  · show s.table.cachedSlots ++ _ = _
    rw [hs.slots, List.append_assoc]
  · have hruns := hs.runs
    cases poolWrites with
    | false => exact hruns
    | true =>
        simp only [if_true] at hruns ⊢
        rw [pairs_pushRun, hruns, List.zipIdx_append, hs.added_length, Nat.zero_add]
        rfl
  · intro hlen ht
    subst hoffset
    have hlen' : s.table.cachedSlots.length = s.table.numTokens := by
      rw [hs.slots, List.length_append, hs.added_length, hs.numTokens, hlen]
    exact nextBlock_fits hbs hnext hlen' (hs.fits hlen ht) hnpos (by omega)

/-- The block loop extends the table by one slot a row. -/
theorem appendBlocks_appended (hbs : 0 < bs) {a : BlockAllocator ρ} (ha : a.Laid) {t : BlockTable}
    (h : appendBlocks device bs poolWrites newSeq fuel ⟨a, t, [], 0⟩ = some s') :
    ∃ added, Appended bs newSeq poolWrites a t s' added ∧ s'.written = newSeq := by
  have hstart : ∃ added, Appended bs newSeq poolWrites a t ⟨a, t, [], 0⟩ added := by
    refine ⟨[], .refl ha, Nat.zero_le _, rfl, rfl, (List.append_nil _).symm, ?_, fun _ ht => ht⟩
    cases poolWrites <;> rfl
  obtain ⟨⟨added, hadded⟩, hge⟩ := appendBlocks_induct
    (P := fun s => ∃ added, Appended bs newSeq poolWrites a t s added)
    (fun s s' hlt ⟨added, hs⟩ h => appendBlock_appended hbs hlt hs h) hstart h
  exact ⟨added, hadded, le_antisymm hadded.written_le hge⟩

end

/-! ## The contiguous buffer -/

/-- The buffer shows the end of the list; without a buffer the pool holds the whole list. -/
def Held (c : PagedKvCache ρ) (a : BlockAllocator ρ) (rows : List ρ) : Prop :=
  match c.contig with
  | some buf =>
      c.contigStart + c.contigLen ≤ buf.length ∧ c.contigLen ≤ rows.length ∧
        Slice.window buf c.contigStart c.contigLen = rows.drop (rows.length - c.contigLen)
  | none =>
      c.contigLen = 0 ∧ c.pendingWrites = [] ∧ c.table.cachedSlots.map a.row = rows.map some

/-- The buffer and the table are what `Held` reads; the pool and the staged writes matter only while
there is no buffer. -/
theorem held_frame {c c' : PagedKvCache ρ} {a a' : BlockAllocator ρ} {rows : List ρ}
    (hheld : Held c a rows) (htable : c'.table = c.table) (hcontig : c'.contig = c.contig)
    (hlen : c'.contigLen = c.contigLen) (hstart : c'.contigStart = c.contigStart)
    (hnone : c.contig = none → c.pendingWrites = [] → c'.pendingWrites = [] ∧
      ∀ slot ∈ c.table.cachedSlots, a'.row slot = a.row slot) : Held c' a' rows := by
  unfold Held at hheld ⊢
  rw [hcontig, hlen, hstart, htable]
  cases hc : c.contig with
  | some buf =>
      simp only [hc] at hheld ⊢
      exact hheld
  | none =>
      simp only [hc] at hheld ⊢
      obtain ⟨hzero, hpending, hpool⟩ := hheld
      obtain ⟨hpending', hrows⟩ := hnone hc hpending
      refine ⟨hzero, hpending', ?_⟩
      rw [← hpool]
      exact List.map_congr_left hrows

/-- What the buffer still shows after rollbacks down to `floor`. -/
def Kept (c : PagedKvCache ρ) (floor : Nat) : Prop :=
  c.contig.isSome → match c.window with
    | none => c.contigLen = c.table.numTokens
    | some w => min c.table.numTokens (w + min windowKeepMargin (c.table.numTokens - floor)) ≤ c.contigLen

section Buffer

variable {c : PagedKvCache ρ} {a alloc : BlockAllocator ρ} {rows new : List ρ}

/-- The new rows always stay. -/
theorem le_keepLen (newSeq : Nat) : newSeq ≤ c.keepLen newSeq := by
  unfold keepLen
  cases c.window with
  | none => exact Nat.le_add_left _ _
  | some w =>
      simp only [span, windowKeepMargin]
      refine le_min (Nat.le_add_left _ _) ?_
      omega

/-- What the append leaves of the buffer. -/
structure Placed (c : PagedKvCache ρ) (all : List ρ) (newSeq : Nat) (r : List ρ × Nat × Nat) :
    Prop where
  fits : r.2.1 + r.2.2 ≤ r.1.length
  shows : Slice.window r.1 r.2.1 r.2.2 = all.drop (all.length - r.2.2)
  len : r.2.2 = c.keepLen newSeq ∨ c.contig.isSome ∧ r.2.2 = c.contigLen + newSeq

theorem keepLen_le (hheld : Held c a rows) (hnum : c.table.numTokens = rows.length)
    (newSeq : Nat) : c.keepLen newSeq ≤ rows.length + newSeq := by
  have hlive : c.contig.isSome → c.contigLen ≤ rows.length := by
    unfold Held at hheld
    cases hcontig : c.contig with
    | none => intro h; cases h
    | some buf =>
        rw [hcontig] at hheld
        exact fun _ => hheld.2.1
  unfold keepLen
  by_cases hsome : c.contig.isSome
  · have := hlive hsome
    simp only [hsome, if_true]
    cases c.window with
    | none => exact Nat.add_le_add_right this _
    | some w => exact le_trans (Nat.min_le_left _ _) (Nat.add_le_add_right this _)
  · simp only [hsome]
    cases c.window with
    | none => simp [hnum]
    | some w =>
        have := Nat.min_le_left c.table.numTokens (span newSeq w)
        exact le_trans (Nat.min_le_left _ _) (Nat.add_le_add_right (hnum ▸ this) _)

/-- Rows moved to the front of a buffer, the kept end of the old list and the new ones behind it, are what the append
shows. `source` is where the kept end is read from. -/
theorem placed_front {keep : Nat} {dst : List ρ} {source : Option (List ρ)} (hk : c.keepLen new.length = keep)
    (hkeep : keep ≤ rows.length + new.length) (hdst : keep ≤ dst.length)
    (hsource : 0 < keep - new.length → source = some (rows.drop (rows.length - (keep - new.length)))) :
    ∃ r, ((if keep - new.length > 0 then source.bind fun old => sliceSet dst old 0 else some dst).bind fun d =>
        (sliceSet d new (keep - new.length)).map fun d => (d, 0, keep)) = some r ∧
      Placed c (rows ++ new) new.length r := by
  have hnew : new.length ≤ keep := hk ▸ le_keepLen new.length
  have hall := drop_append_suffix rows new (l := keep - new.length) (by omega)
  rw [Nat.sub_add_cancel hnew] at hall
  have hlen : (rows.drop (rows.length - (keep - new.length))).length = keep - new.length := by
    rw [List.length_drop]
    omega
  have hread : (if keep - new.length > 0 then source.bind fun old => sliceSet dst old 0 else some dst) =
      if keep - new.length > 0 then sliceSet dst (rows.drop (rows.length - (keep - new.length))) 0 else some dst := by
    split
    next hpos => rw [hsource hpos, Option.bind_some]
    next => rfl
  rw [hread]
  generalize rows.drop (rows.length - (keep - new.length)) = old at hlen hall
  obtain ⟨d, out, hd, hout, houtlen, hwin⟩ := @place_front _ dst old new (by omega)
  rw [hlen] at hd hout hwin
  rw [hd, Option.bind_some, hout]
  refine ⟨_, rfl, ?_, ?_, .inl hk.symm⟩
  · show 0 + keep ≤ out.length
    omega
  · show Slice.window out 0 keep = _
    rw [hall, ← hwin, Nat.sub_add_cancel hnew]

/-- The last rows of the list are the last of the buffer. -/
theorem Held.narrow_live {buf : List ρ} {n : Nat} (hheld : Held c a rows) (hcontig : c.contig = some buf)
    (hn : n ≤ c.contigLen) :
    narrow buf (c.contigStart + (c.contigLen - n)) n = some (rows.drop (rows.length - n)) := by
  simp only [Held, hcontig] at hheld
  obtain ⟨hfits, hle, hshows⟩ := hheld
  rw [narrow_eq (by omega), ← @window_window _ _ _ c.contigLen _ _ (by omega), hshows, window_drop_suffix rows hle hn]

/-- Without a buffer, they are in the pool, under the last of the slots the table had. -/
theorem Held.gather_last {added : List Nat} {n : Nat} (hheld : Held c a rows) (hcontig : c.contig = none)
    (hslots : c.table.cachedSlots.length = rows.length) (halloc : BlockAllocator.Extends a alloc) (hpos : 0 < n)
    (hn : n ≤ rows.length) :
    (narrow (c.table.cachedSlots ++ added) (rows.length - n) n).bind alloc.gather =
      some (rows.drop (rows.length - n)) := by
  simp only [Held, hcontig] at hheld
  obtain ⟨-, -, hpool⟩ := hheld
  have hwindow : rows.length - n + n ≤ (c.table.cachedSlots ++ added).length := by
    rw [List.length_append]
    omega
  have hold : Slice.window (c.table.cachedSlots ++ added) (rows.length - n) n =
      c.table.cachedSlots.drop (rows.length - n) := by
    rw [Slice.window, List.drop_append_of_le_length (by omega), List.take_append_of_le_length
      (by rw [List.length_drop]; omega), List.take_of_length_le (by rw [List.length_drop]; omega)]
  have hkept : c.table.cachedSlots.map alloc.row = rows.map some := by
    rw [← hpool]
    refine List.map_congr_left fun slot hslot => ?_
    have hmem := List.mem_map_of_mem (f := a.row) hslot
    rw [hpool] at hmem
    obtain ⟨r, -, hr⟩ := List.mem_map.1 hmem
    rw [halloc.row slot r hr.symm, hr]
  have hrows : (Slice.window (c.table.cachedSlots ++ added) (rows.length - n) n).map alloc.row =
      (rows.drop (rows.length - n)).map some := by
    rw [hold, List.map_drop, hkept, List.map_drop]
  have hne := List.ne_nil_of_length_pos (hpos.trans_eq (window_length hwindow).symm)
  rw [narrow_eq hwindow, Option.bind_some, BlockAllocator.gather_rows halloc.laid hne hrows]

section

variable [Inhabited ρ]

theorem acquireContig_length (spare : List (List ρ)) (needed : Nat) :
    needed ≤ (acquireContig spare needed).length := by
  unfold acquireContig
  cases hfind : spare.find? fun b => decide (needed ≤ b.length) with
  | none =>
      rw [Option.getD_none, List.length_replicate]
      exact le_contigBufCapacity needed
  | some b =>
      rw [Option.getD_some]
      simpa using List.find?_some hfind

/-- The append finds the end of the list wherever it is, in the buffer or in the pool, and puts the new
rows behind it. -/
theorem appendContig_placed (spare : List (List ρ)) {added : List Nat} (hheld : Held c a rows)
    (hnum : c.table.numTokens = rows.length) (hslots : c.table.cachedSlots.length = rows.length)
    (halloc : BlockAllocator.Extends a alloc) :
    ∃ r, appendContig spare c alloc (c.table.cachedSlots ++ added) new = some r ∧
      Placed c (rows ++ new) new.length r := by
  have hnew := le_keepLen (c := c) new.length
  have hkeep := keepLen_le hheld hnum new.length
  have hfrom : min new.length (c.keepLen new.length) = new.length := Nat.min_eq_left hnew
  have hsrc : narrow new (new.length - new.length) new.length = some new := by
    rw [Nat.sub_self]
    exact narrow_self new rfl
  unfold appendContig
  simp only [hfrom, hsrc, Option.bind_some]
  cases hcontig : c.contig with
  | some buf =>
      by_cases hroom : c.contigStart + c.contigLen + new.length ≤ buf.length
      · -- in place
        have hlive := hheld
        simp only [Held, hcontig] at hlive
        obtain ⟨hfits, hle, hshows⟩ := hlive
        obtain ⟨out, hout⟩ := sliceSet_eq_some hroom
        simp only [if_pos hroom, hout]
        refine ⟨_, rfl, ?_, ?_, .inr ⟨by rw [hcontig]; rfl, rfl⟩⟩
        · show c.contigStart + (c.contigLen + new.length) ≤ out.length
          rw [sliceSet_length hout]
          omega
        · show Slice.window out c.contigStart (c.contigLen + new.length) = _
          rw [window_extend hout, hshows]
          exact (drop_append_suffix rows new hle).symm
      · -- the live rows that stay move to the front
        have hlive : c.keepLen new.length ≤ c.contigLen + new.length := by
          rw [keepLen]
          simp only [hcontig, Option.isSome_some, if_true]
          cases c.window with
          | none => exact le_rfl
          | some w => exact Nat.min_le_left _ _
        simp only [if_neg hroom]
        refine placed_front rfl hkeep ?_ fun _ => hheld.narrow_live hcontig (by omega)
        split
        · assumption
        · exact acquireContig_length spare _
  | none =>
      have hmin : min (c.keepLen new.length - new.length) rows.length = c.keepLen new.length - new.length := by
        omega
      simp only [hnum, hmin, ← Option.bind_assoc]
      exact placed_front rfl hkeep (acquireContig_length spare _) fun hpos =>
        hheld.gather_last hcontig hslots halloc hpos (by omega)

end

/-- How far back an append leaves the buffer. -/
theorem placed_kept {floor : Nat} {r : List ρ × Nat × Nat} (hkept : Kept c floor)
    (hfloor : floor ≤ c.table.numTokens) (hnew : new ≠ []) (hr : Placed c (rows ++ new) new.length r) :
    match c.window with
    | none => r.2.2 = c.table.numTokens + new.length
    | some w =>
        min (c.table.numTokens + new.length)
            (w + min windowKeepMargin (c.table.numTokens + new.length - floor)) ≤ r.2.2 ∧
          min (c.table.numTokens + new.length) (w + new.length - 1) ≤ r.2.2 := by
  have hpos : 0 < new.length := List.length_pos_iff.2 hnew
  have hlen := hr.len
  unfold Kept at hkept
  unfold keepLen at hlen
  cases hwin : c.window with
  | none =>
      simp only [hwin] at hkept hlen ⊢
      by_cases hsome : c.contig.isSome
      · have := hkept hsome
        simp only [hsome, if_true, true_and] at hlen
        omega
      · simp only [hsome] at hlen
        simpa using hlen
  | some w =>
      simp only [hwin, span, windowKeepMargin] at hkept hlen ⊢
      by_cases hsome : c.contig.isSome
      · have := hkept hsome
        simp only [hsome, if_true, true_and] at hlen
        omega
      · simp only [hsome] at hlen
        simp only [Bool.false_eq_true, if_false, false_and, or_false] at hlen
        omega

/-! ## Rollbacks and prepopulation -/

theorem held_setNumTokens (hheld : Held c a rows) (hnum : c.table.numTokens = rows.length)
    {n : Nat} (hn : n ≤ rows.length) : Held (c.setNumTokens n) a (rows.take n) := by
  unfold Held at hheld ⊢
  show match c.contig with
    | some buf => _
    | none => _
  cases hcontig : c.contig with
  | none =>
      simp only [hcontig] at hheld ⊢
      obtain ⟨hlen, hpending, hpool⟩ := hheld
      refine ⟨?_, hpending, ?_⟩
      · show c.contigLen - _ = 0
        rw [hlen, Nat.zero_sub]
      · show (c.table.cachedSlots.take n).map a.row = _
        rw [List.map_take, hpool, List.map_take]
  | some buf =>
      simp only [hcontig] at hheld ⊢
      obtain ⟨hfits, hle, hshows⟩ := hheld
      have hlen : (c.setNumTokens n).contigLen = c.contigLen - (rows.length - n) := by
        show c.contigLen - (c.table.numTokens - n) = _
        rw [hnum]
      have hstart : (c.setNumTokens n).contigStart = c.contigStart := rfl
      rw [hlen, hstart, List.length_take, Nat.min_eq_left hn]
      refine ⟨by omega, by omega, ?_⟩
      have hwin : Slice.window buf c.contigStart (c.contigLen - (rows.length - n)) =
          (rows.drop (rows.length - c.contigLen)).take (c.contigLen - (rows.length - n)) := by
        rw [← hshows, Slice.window, Slice.window, List.take_take]
        congr 1
        omega
      rw [hwin, List.drop_take]
      by_cases hcut : rows.length - n ≤ c.contigLen
      · have h1 : n - (c.contigLen - (rows.length - n)) = rows.length - c.contigLen := by omega
        rw [h1]
        congr 1
        omega
      · have h1 : c.contigLen - (rows.length - n) = 0 := by omega
        rw [h1, Nat.sub_zero, Nat.sub_self, List.take_zero, List.take_zero]

theorem kept_setNumTokens {floor n : Nat} (hkept : Kept c floor) (hn : n ≤ c.table.numTokens)
    (hmargin : c.table.numTokens - n ≤ windowKeepMargin) (hfloor : floor ≤ n) :
    Kept (c.setNumTokens n) n := by
  intro hsome
  have hkept := hkept hsome
  show match c.window with
    | none => c.contigLen - (c.table.numTokens - n) = n
    | some w => min n (w + min windowKeepMargin (n - n)) ≤ c.contigLen - (c.table.numTokens - n)
  cases hwin : c.window with
  | none =>
      simp only [hwin] at hkept ⊢
      omega
  | some w =>
      simp only [hwin] at hkept ⊢
      omega

theorem lt_blocksFor {bs : Nat} (hbs : 0 < bs) {i n : Nat} (h : i < n) : i / bs < blocksFor n bs := by
  rw [Nat.div_lt_iff_lt_mul hbs, blocksFor]
  have := Nat.div_add_mod (n + bs - 1) bs
  have hmod := Nat.mod_lt (n + bs - 1) hbs
  rw [Nat.mul_comm] at this
  omega

theorem blocksFor_mono {n m : Nat} (bs : Nat) (h : n ≤ m) : blocksFor n bs ≤ blocksFor m bs :=
  Nat.div_le_div_right (by omega)

/-- A table cut back to the blocks its first `n` tokens need. -/
theorem fits_take {bs : Nat} (hbs : 0 < bs) {t : BlockTable} (ht : t.Fits bs) {n k : Nat}
    (hn : n ≤ t.numTokens) (hk : min k t.blockIds.length = blocksFor n bs) :
    BlockTable.Fits ⟨t.blockIds.take k, n, t.cachedSlots.take n⟩ bs := by
  refine ⟨?_, fun i hi => ?_⟩
  · show (t.blockIds.take k).length = _
    rw [List.length_take, hk]
  · have hi : i < n := hi
    obtain ⟨id, hid, hslot⟩ := ht.slot i (by omega)
    have hlt := lt_blocksFor hbs hi
    refine ⟨id, ?_, ?_⟩
    · show (t.blockIds.take k)[i / bs]? = some id
      rw [List.getElem?_take, if_pos (by omega), hid]
    · show (t.cachedSlots.take n)[i]? = _
      rw [List.getElem?_take, if_pos hi, hslot]

/-- Prefix blocks taken over by a fresh cache, in order. -/
def prepopulate (c : PagedKvCache ρ) (a : BlockAllocator ρ) (ids : List Nat) :
    PagedKvCache ρ × BlockAllocator ρ :=
  let r := ids.foldl (fun s id => prepopulateBlock s.1 s.2 id) (c, a)
  (r.1.setNumTokens (ids.length * c.blockSize), r.2)

theorem foldl_prepopulate {bs : Nat} (hbs : 0 < bs) (ids : List Nat) {c : PagedKvCache ρ}
    (hc : c.blockSize = bs) (a : BlockAllocator ρ)
    (hlen : c.table.cachedSlots.length = c.table.blockIds.length * bs)
    (hslot : ∀ i < c.table.cachedSlots.length, ∃ id, c.table.blockIds[i / bs]? = some id ∧
      c.table.cachedSlots[i]? = some (id * bs + i % bs)) :
    let r := ids.foldl (fun s id => prepopulateBlock s.1 s.2 id) (c, a)
    r.1.table.blockIds.length = c.table.blockIds.length + ids.length ∧
      r.1.table.cachedSlots.length = r.1.table.blockIds.length * bs ∧
      (∀ i < r.1.table.cachedSlots.length, ∃ id, r.1.table.blockIds[i / bs]? = some id ∧
        r.1.table.cachedSlots[i]? = some (id * bs + i % bs)) ∧
      r.1 = { c with table := { r.1.table with numTokens := c.table.numTokens } } ∧
      r.2.segments = a.segments ∧ (a.Laid → r.2.Laid) := by
  induction ids generalizing c a with
  | nil => exact ⟨rfl, hlen, hslot, rfl, rfl, fun h => h⟩
  | cons id ids ih =>
      obtain ⟨h1, h2, h3, h4, h5, h6⟩ := ih (c := (c.prepopulateBlock a id).1) hc
        (c.prepopulateBlock a id).2
        (by
          show (c.table.cachedSlots ++ _).length = (c.table.blockIds ++ [id]).length * bs
          rw [List.length_append, List.length_range', List.length_append, List.length_singleton,
            Nat.succ_mul, hlen, hc])
        (by
          intro i hi
          have hi : i < (c.table.cachedSlots ++ List.range' (id * c.blockSize) c.blockSize).length := hi
          rw [List.length_append, List.length_range', hc] at hi
          show ∃ id', (c.table.blockIds ++ [id])[i / bs]? = some id' ∧
            (c.table.cachedSlots ++ List.range' (id * c.blockSize) c.blockSize)[i]? = some _
          rw [hc]
          by_cases hlt : i < c.table.cachedSlots.length
          · obtain ⟨id', hid, hs⟩ := hslot i hlt
            have hdiv : i / bs < c.table.blockIds.length := (Nat.div_lt_iff_lt_mul hbs).2 (by omega)
            exact ⟨id', by rw [List.getElem?_append_left hdiv, hid],
              by rw [List.getElem?_append_left hlt, hs]⟩
          · obtain ⟨k, rfl⟩ := Nat.exists_eq_add_of_le (Nat.le_of_not_lt hlt)
            have hk : k < bs := by omega
            have hsum : c.table.cachedSlots.length + k = k + bs * c.table.blockIds.length := by
              rw [hlen, Nat.mul_comm, Nat.add_comm]
            have hdiv : (c.table.cachedSlots.length + k) / bs = c.table.blockIds.length := by
              rw [hsum, Nat.add_mul_div_left _ _ hbs, Nat.div_eq_of_lt hk, Nat.zero_add]
            have hmod : (c.table.cachedSlots.length + k) % bs = k := by
              rw [hsum, Nat.add_mul_mod_self_left, Nat.mod_eq_of_lt hk]
            refine ⟨id, by rw [hdiv, List.getElem?_concat_length], ?_⟩
            rw [List.getElem?_append_right (by omega), List.getElem?_range' (by omega), hmod]
            congr 1
            omega)
      refine ⟨?_, h2, h3, h4, h5, fun h => h6 (h.share id)⟩
      rw [List.foldl_cons, h1]
      show (c.table.blockIds ++ [id]).length + ids.length = _
      rw [List.length_append, List.length_singleton, List.length_cons]
      omega

/-- A fresh cache that took blocks over. -/
theorem prepopulate_fits {c : PagedKvCache ρ} (hbs : 0 < c.blockSize) (a : BlockAllocator ρ)
    (ids : List Nat) (hfresh : c.table = .new) :
    let r := prepopulate c a ids
    r.1.table.numTokens = ids.length * c.blockSize ∧
      r.1.table.cachedSlots.length = r.1.table.numTokens ∧ r.1.table.Fits c.blockSize ∧
      r.1 = { c with table := r.1.table, contigLen := c.contigLen } ∧
      r.2.segments = a.segments ∧ (a.Laid → r.2.Laid) := by
  obtain ⟨h1, h2, h3, h4, h5, h6⟩ := foldl_prepopulate hbs ids rfl a
    (by rw [hfresh]; exact (Nat.zero_mul _).symm)
    (by
      rw [hfresh]
      intro i hi
      exact absurd hi (Nat.not_lt_zero i))
  rw [hfresh] at h1
  have h1 : (ids.foldl (fun s id => prepopulateBlock s.1 s.2 id) (c, a)).1.table.blockIds.length =
      ids.length := by rw [h1]; exact Nat.zero_add _
  rw [h1] at h2
  have htake : (ids.foldl (fun s id => prepopulateBlock s.1 s.2 id) (c, a)).1.table.cachedSlots.take
      (ids.length * c.blockSize) =
        (ids.foldl (fun s id => prepopulateBlock s.1 s.2 id) (c, a)).1.table.cachedSlots :=
    List.take_of_length_le (by omega)
  refine ⟨rfl, ?_, ⟨?_, ?_⟩, ?_, h5, h6⟩
  · show (List.take (ids.length * c.blockSize) _).length = ids.length * c.blockSize
    rw [htake, h2]
  · show List.length _ = blocksFor (ids.length * c.blockSize) c.blockSize
    rw [blocksFor_mul hbs]
    exact h1
  · intro i hi
    have hi : i < ids.length * c.blockSize := hi
    obtain ⟨id, hid, hs⟩ := h3 i (by omega)
    refine ⟨id, hid, ?_⟩
    show (List.take (ids.length * c.blockSize) _)[i]? = _
    rw [htake, hs]
  · show setNumTokens _ _ = _
    rw [h4]
    unfold setNumTokens
    simp only [hfresh]
    congr 1
    show c.contigLen - (0 - _) = c.contigLen
    omega

theorem flushRuns_laid {bs : Nat} {src : List ρ} {runs : List PendingRun} {a a' : BlockAllocator ρ}
    (h : a.Laid) (hf : flushRuns bs src runs a = some a') : a'.Laid := by
  induction runs generalizing a with
  | nil =>
      cases hf
      exact h
  | cons run runs ih =>
      obtain ⟨rows, -, hf⟩ := Option.bind_eq_some_iff.1 hf
      obtain ⟨a₁, ha₁, hf⟩ := Option.bind_eq_some_iff.1 hf
      exact ih (BlockAllocator.writeFrom_laid h ha₁) hf

theorem flushBatches_laid {bs : Nat} {batches : List (PendingBatch ρ)} {a a' : BlockAllocator ρ}
    (h : a.Laid) (hf : flushBatches bs batches a = some a') : a'.Laid := by
  induction batches generalizing a with
  | nil =>
      cases hf
      exact h
  | cons batch batches ih =>
      obtain ⟨a₁, ha₁, hf⟩ := Option.bind_eq_some_iff.1 hf
      exact ih (flushRuns_laid h ha₁) hf

theorem freeAll_segments (a : BlockAllocator ρ) (ids : List Nat) :
    (freeAll a ids).segments = a.segments ∧ (freeAll a ids).segmentBlocks = a.segmentBlocks ∧
      (freeAll a ids).blockSize = a.blockSize ∧ (a.Laid → (freeAll a ids).Laid) := by
  induction ids generalizing a with
  | nil => exact ⟨rfl, rfl, rfl, fun h => h⟩
  | cons id ids ih =>
      obtain ⟨h1, h2, h3, h4⟩ := ih (a.free id)
      exact ⟨h1, h2, h3, fun h => h4 (h.free id)⟩

end Buffer

/-! ## Runs -/

/-- What the cache stands for: its rows, the target of the last rollback, and whether every
`set_num_tokens` so far kept the number of blocks. -/
structure Logical (ρ : Type) where
  rows : List ρ
  floor : Nat
  whole : Bool

structure CacheState (ρ : Type) where
  cache : PagedKvCache ρ
  pool : BlockAllocator ρ
  logical : Logical ρ

/-- A rollback the cache is asked for: at most the margin, and not below an earlier one. -/
structure Rollback (s : CacheState ρ) (n : Nat) : Prop where
  le : n ≤ s.cache.table.numTokens
  margin : s.cache.table.numTokens - n ≤ windowKeepMargin
  floor : s.logical.floor ≤ n

/-- The cache stands for its rows. -/
structure Refines (s : CacheState ρ) : Prop where
  block_pos : 0 < s.cache.blockSize
  pool : s.pool.Laid
  num : s.cache.table.numTokens = s.logical.rows.length
  slots : s.cache.table.cachedSlots.length = s.logical.rows.length
  held : Held s.cache s.pool s.logical.rows
  kept : Kept s.cache s.logical.floor
  floor_le : s.logical.floor ≤ s.logical.rows.length
  fits : s.logical.whole = true → s.cache.table.Fits s.cache.blockSize

theorem new_refines {a : BlockAllocator ρ} (h : a.Laid) : Refines ⟨new a, a, [], 0, true⟩ := by
  refine ⟨h.block_pos, h, rfl, rfl, ⟨rfl, rfl, rfl⟩, fun hsome => (by cases hsome), le_rfl, fun _ => ?_⟩
  refine ⟨?_, fun i hi => absurd hi (Nat.not_lt_zero i)⟩
  exact (blocksFor_zero h.block_pos).symm

theorem setNumTokens_refines {s : CacheState ρ} (hs : Refines s) {n : Nat} (hn : Rollback s n) :
    Refines ⟨s.cache.setNumTokens n, s.pool, s.logical.rows.take n, n,
      s.logical.whole &&
        blocksFor n s.cache.blockSize == blocksFor s.cache.table.numTokens s.cache.blockSize⟩ := by
  have hle : n ≤ s.logical.rows.length := hs.num ▸ hn.le
  have hlen : (s.logical.rows.take n).length = n := by rw [List.length_take, Nat.min_eq_left hle]
  refine ⟨hs.block_pos, hs.pool, hlen.symm, ?_, held_setNumTokens hs.held hs.num hle,
    kept_setNumTokens hs.kept hn.le hn.margin hn.floor, hlen.ge, fun hwhole => ?_⟩
  · show (s.cache.table.cachedSlots.take n).length = _
    rw [List.length_take, hs.slots, List.length_take]
  · obtain ⟨hwhole, hblocks⟩ := (Bool.and_eq_true _ _).mp hwhole
    have hfits := hs.fits hwhole
    have hall := fits_take hs.block_pos hfits hn.le (k := s.cache.table.blockIds.length)
      (by rw [Nat.min_self, hfits.blocks_length, beq_iff_eq.1 hblocks])
    rwa [List.take_length] at hall

theorem flushPending_refines {s : CacheState ρ} (hs : Refines s) {c : PagedKvCache ρ}
    {a : BlockAllocator ρ} (h : s.cache.flushPending s.pool = some (c, a)) :
    Refines ⟨c, a, s.logical⟩ ∧ c = s.cache.discardPending := by
  obtain ⟨a', ha', h⟩ := Option.map_eq_some_iff.1 h
  cases h
  refine ⟨⟨hs.block_pos, flushBatches_laid hs.pool ha', hs.num, hs.slots, ?_, hs.kept, hs.floor_le,
    hs.fits⟩, rfl⟩
  refine held_frame hs.held rfl rfl rfl rfl fun _ hpending => ?_
  -- nothing is staged before the first append
  rw [hpending] at ha'
  cases ha'
  exact ⟨rfl, fun _ _ => rfl⟩

theorem truncateTo_refines {s : CacheState ρ} (hs : Refines s) {n : Nat} (hn : Rollback s n)
    {c : PagedKvCache ρ} {a : BlockAllocator ρ} (h : s.cache.truncateTo s.pool n = some (c, a)) :
    Refines ⟨c, a, s.logical.rows.take n, n, s.logical.whole⟩ := by
  have hle : n ≤ s.logical.rows.length := hs.num ▸ hn.le
  unfold truncateTo at h
  split at h
  next hge =>
    -- nothing to drop
    cases h
    have heq : n = s.logical.rows.length := by
      have := hs.num
      omega
    subst heq
    rw [List.take_length]
    refine ⟨hs.block_pos, hs.pool, hs.num, hs.slots, hs.held, fun hsome => ?_, le_rfl, hs.fits⟩
    have := hs.kept hsome
    cases hwin : s.cache.window with
    | none =>
        simp only [hwin] at this ⊢
        exact this
    | some w =>
        simp only [hwin] at this ⊢
        refine le_trans ?_ this
        have hnum := hs.num
        have hfloor := hs.floor_le
        show min s.cache.table.numTokens
          (w + min windowKeepMargin (s.cache.table.numTokens - s.logical.rows.length)) ≤ _
        omega
  next hlt =>
    obtain ⟨⟨c₁, a₁⟩, hflush, h⟩ := Option.map_eq_some_iff.1 h
    cases h
    obtain ⟨h₁, hc₁⟩ := flushPending_refines hs hflush
    have hroll : Rollback ⟨c₁, a₁, s.logical⟩ n := by
      rw [hc₁]
      exact ⟨hn.le, hn.margin, hn.floor⟩
    have h₂ := setNumTokens_refines h₁ hroll
    have hlaid : ∀ ids, (freeAll a₁ ids).Laid := fun ids => (freeAll_segments a₁ ids).2.2.2 h₁.pool
    have hrow : ∀ ids, (freeAll a₁ ids).row = a₁.row := by
      intro ids
      obtain ⟨hseg, hsb, hbs, -⟩ := freeAll_segments a₁ ids
      funext slot
      simp only [BlockAllocator.row, BlockAllocator.segmentSlots, hseg, hsb, hbs]
    have hheld : ∀ a', a'.row = a₁.row →
        Held (c₁.setNumTokens n) a' (s.logical.rows.take n) := by
      intro a' ha'
      exact held_frame h₂.held rfl rfl rfl rfl fun _ hpending => ⟨hpending, fun _ _ => by rw [ha']⟩
    by_cases hcut : blocksFor n c₁.blockSize < c₁.table.blockIds.length
    · simp only [hcut, if_true]
      refine ⟨h₂.block_pos, hlaid _, h₂.num, h₂.slots, hheld _ (hrow _), h₂.kept, h₂.floor_le,
        fun hwhole => ?_⟩
      exact fits_take h₁.block_pos (h₁.fits hwhole) hroll.le (Nat.min_eq_left (le_of_lt hcut))
    · simp only [hcut, if_false]
      refine ⟨h₂.block_pos, h₂.pool, h₂.num, h₂.slots, h₂.held, h₂.kept, h₂.floor_le,
        fun hwhole => ?_⟩
      have hfits := h₁.fits hwhole
      have hmono : blocksFor n c₁.blockSize ≤ c₁.table.blockIds.length :=
        (blocksFor_mono c₁.blockSize hroll.le).trans hfits.blocks_length.ge
      have hall := fits_take h₁.block_pos hfits hroll.le (k := c₁.table.blockIds.length)
        ((Nat.min_self _).trans (le_antisymm (Nat.le_of_not_lt hcut) hmono))
      rwa [List.take_length] at hall

variable [Inhabited ρ]

/-- One operation on the cache, and what others do to the pool meanwhile. An operation that fails ends
the run. -/
inductive Step (s : CacheState ρ) : CacheState ρ → Prop
  | append (device : Nat → Bool) (spare : List (List ρ)) (new : List ρ) (hnew : new ≠ [])
      {c : PagedKvCache ρ} {a : BlockAllocator ρ} {out : List ρ}
      (h : s.cache.append device spare s.pool new = some (c, a, out)) :
      Step s ⟨c, a, { s.logical with rows := s.logical.rows ++ new }⟩
  | setNumTokens (n : Nat) (hn : Rollback s n) :
      Step s ⟨s.cache.setNumTokens n, s.pool, s.logical.rows.take n, n,
        s.logical.whole &&
          blocksFor n s.cache.blockSize == blocksFor s.cache.table.numTokens s.cache.blockSize⟩
  | truncateTo (n : Nat) (hn : Rollback s n) {c : PagedKvCache ρ} {a : BlockAllocator ρ}
      (h : s.cache.truncateTo s.pool n = some (c, a)) :
      Step s ⟨c, a, s.logical.rows.take n, n, s.logical.whole⟩
  | clear : Step s ⟨(s.cache.clear s.pool).1, (s.cache.clear s.pool).2, [], 0, true⟩
  | prepopulate (ids : List Nat) (hfresh : s.cache.table = .new) (hcontig : s.cache.contig = none)
      (rows : List ρ) (hrows : (s.cache.prepopulate s.pool ids).1.table.cachedSlots.map
        (s.cache.prepopulate s.pool ids).2.row = rows.map some) :
      Step s ⟨(s.cache.prepopulate s.pool ids).1, (s.cache.prepopulate s.pool ids).2, rows, 0, true⟩
  | flushPending {c : PagedKvCache ρ} {a : BlockAllocator ρ}
      (h : s.cache.flushPending s.pool = some (c, a)) : Step s ⟨c, a, s.logical⟩
  | discardPending : Step s ⟨s.cache.discardPending, s.pool, s.logical⟩
  | setPoolWrites (on : Bool) : Step s ⟨s.cache.setPoolWrites on, s.pool, s.logical⟩
  | others (a : BlockAllocator ρ) (hlaid : a.Laid)
      (hrows : ∀ slot ∈ s.cache.table.cachedSlots, a.row slot = s.pool.row slot) :
      Step s ⟨s.cache, a, s.logical⟩

/-- The states of a cache over a pool. -/
def Reach (a : BlockAllocator ρ) : CacheState ρ → Prop :=
  Relation.ReflTransGen Step ⟨new a, a, [], 0, true⟩

/-- What an append that finds its blocks does. -/
theorem append_eq {s : CacheState ρ} (hs : Refines s) {device : Nat → Bool} {spare : List (List ρ)}
    {new : List ρ} (hnew : new ≠ []) {l : BlockLoop ρ}
    (hl : appendBlocks device s.cache.blockSize s.cache.poolWrites new.length new.length
      ⟨s.pool, s.cache.table, [], 0⟩ = some l) :
    ∃ added r, Appended s.cache.blockSize new.length s.cache.poolWrites s.pool s.cache.table l added ∧
      l.written = new.length ∧
      Placed s.cache (s.logical.rows ++ new) new.length r ∧
      s.cache.append device spare s.pool new = some
        ({ s.cache with
            table := l.table, contig := some r.1, contigStart := r.2.1, contigLen := r.2.2
            pendingWrites := if l.runs.isEmpty then s.cache.pendingWrites
              else s.cache.pendingWrites ++ [PendingBatch.mk new l.runs.reverse] },
          l.alloc, (s.logical.rows ++ new).drop ((s.logical.rows ++ new).length - r.2.2)) := by
  obtain ⟨added, hadded, hwritten⟩ := appendBlocks_appended hs.block_pos hs.pool hl
  obtain ⟨r, hr, hplaced⟩ := @appendContig_placed _ _ _ _ _ new _ spare added hs.held hs.num
    hs.slots hadded.alloc
  refine ⟨added, r, hadded, hwritten, hplaced, ?_⟩
  have hpos : 0 < new.length := List.length_pos_iff.2 hnew
  have hlen : 0 < r.2.2 := by
    have := le_keepLen (c := s.cache) new.length
    rcases hplaced.len with h | ⟨-, h⟩ <;> omega
  unfold append
  rw [hl, Option.bind_some, hadded.slots, hr, Option.bind_some]
  simp only [current, hlen, if_true]
  rw [narrow_eq hplaced.fits, hplaced.shows]
  rfl

theorem append_refines {s : CacheState ρ} (hs : Refines s) {device : Nat → Bool}
    {spare : List (List ρ)} {new : List ρ} (hnew : new ≠ []) {c : PagedKvCache ρ}
    {a : BlockAllocator ρ} {out : List ρ}
    (h : s.cache.append device spare s.pool new = some (c, a, out)) :
    Refines ⟨c, a, { s.logical with rows := s.logical.rows ++ new }⟩ := by
  obtain ⟨l, hl, -⟩ := Option.bind_eq_some_iff.1 h
  obtain ⟨added, r, hadded, hwritten, hplaced, happend⟩ := @append_eq _ _ _ hs _ spare _ hnew _ hl
  rw [happend] at h
  cases h
  have hkept := placed_kept hs.kept (hs.num ▸ hs.floor_le) hnew hplaced
  have hnum : l.table.numTokens = s.cache.table.numTokens + new.length := by
    rw [hadded.numTokens, hwritten]
  have hlen : r.2.2 ≤ (s.logical.rows ++ new).length := by
    have hkeep := keepLen_le hs.held hs.num new.length
    rw [List.length_append]
    rcases hplaced.len with h | ⟨hsome, h⟩
    · omega
    · have hheld := hs.held
      unfold Held at hheld
      cases hcontig : s.cache.contig with
      | none =>
          rw [hcontig] at hsome
          cases hsome
      | some buf =>
          simp only [hcontig] at hheld
          omega
  refine ⟨hs.block_pos, hadded.alloc.laid, ?_, ?_, ⟨hplaced.fits, hlen, hplaced.shows⟩, ?_, ?_, ?_⟩
  · show l.table.numTokens = (s.logical.rows ++ new).length
    rw [hnum, List.length_append, hs.num]
  · show l.table.cachedSlots.length = (s.logical.rows ++ new).length
    rw [hadded.slots, List.length_append, List.length_append, hadded.added_length, hs.slots, hwritten]
  · intro _
    show match s.cache.window with
      | none => r.2.2 = l.table.numTokens
      | some w => min l.table.numTokens
          (w + min windowKeepMargin (l.table.numTokens - s.logical.floor)) ≤ r.2.2
    rw [hnum]
    cases hwin : s.cache.window with
    | none =>
        simp only [hwin] at hkept
        exact hkept
    | some w =>
        simp only [hwin] at hkept
        exact hkept.1
  · show s.logical.floor ≤ (s.logical.rows ++ new).length
    rw [List.length_append]
    exact le_trans hs.floor_le (Nat.le_add_right _ _)
  · intro hwhole
    exact hadded.fits (hs.slots.trans hs.num.symm) (hs.fits hwhole)

theorem step_refines {s s' : CacheState ρ} (hs : Refines s) (h : Step s s') : Refines s' := by
  cases h with
  | append device spare new hnew h => exact append_refines hs hnew h
  | setNumTokens n hn => exact setNumTokens_refines hs hn
  | truncateTo n hn h => exact truncateTo_refines hs hn h
  | clear =>
      refine ⟨hs.block_pos, (freeAll_segments _ _).2.2.2 hs.pool, rfl, rfl, ⟨rfl, rfl, rfl⟩,
        fun hsome => (by cases hsome), le_rfl, fun _ => ⟨?_, fun i hi => absurd hi (Nat.not_lt_zero i)⟩⟩
      exact (blocksFor_zero hs.block_pos).symm
  | prepopulate ids hfresh hcontig rows hrows =>
      obtain ⟨hnum, hslots, hfits, hc, -, hlaid⟩ := prepopulate_fits hs.block_pos s.pool ids hfresh
      have hlen : (s.cache.prepopulate s.pool ids).1.table.cachedSlots.length = rows.length := by
        simpa only [List.length_map] using congrArg List.length hrows
      have hcontig' : (s.cache.prepopulate s.pool ids).1.contig = none := by
        rw [hc]
        exact hcontig
      have hheld := hs.held
      unfold Held at hheld
      simp only [hcontig] at hheld
      refine ⟨?_, hlaid hs.pool, ?_, hlen, ?_, ?_, Nat.zero_le _, fun _ => ?_⟩
      · show 0 < (s.cache.prepopulate s.pool ids).1.blockSize
        rw [hc]
        exact hs.block_pos
      · exact hslots.symm.trans hlen
      · unfold Held
        simp only [hcontig']
        refine ⟨?_, ?_, hrows⟩
        · rw [hc]
          exact hheld.1
        · rw [hc]
          exact hheld.2.1
      · intro hsome
        rw [hcontig'] at hsome
        cases hsome
      · show BlockTable.Fits _ (s.cache.prepopulate s.pool ids).1.blockSize
        rw [hc]
        exact hfits
  | flushPending h => exact (flushPending_refines hs h).1
  | discardPending =>
      exact ⟨hs.block_pos, hs.pool, hs.num, hs.slots,
        held_frame hs.held rfl rfl rfl rfl fun _ _ => ⟨rfl, fun _ _ => rfl⟩, hs.kept, hs.floor_le, hs.fits⟩
  | setPoolWrites on => exact ⟨hs.block_pos, hs.pool, hs.num, hs.slots, hs.held, hs.kept, hs.floor_le, hs.fits⟩
  | others a hlaid hrows =>
      exact ⟨hs.block_pos, hlaid, hs.num, hs.slots,
        held_frame hs.held rfl rfl rfl rfl fun _ hpending => ⟨hpending, hrows⟩, hs.kept, hs.floor_le,
        hs.fits⟩

theorem reach_refines {a : BlockAllocator ρ} (ha : a.Laid) {s : CacheState ρ} (h : Reach a s) :
    Refines s := by
  induction h with
  | refl => exact new_refines ha
  | tail _ hstep ih => exact step_refines ih hstep

theorem step_geometry {s s' : CacheState ρ} (h : Step s s') :
    s'.cache.blockSize = s.cache.blockSize ∧ s'.cache.window = s.cache.window := by
  cases h with
  | append device spare new hnew h =>
      obtain ⟨l, -, h⟩ := Option.bind_eq_some_iff.1 h
      obtain ⟨⟨buf, start, len⟩, -, h⟩ := Option.bind_eq_some_iff.1 h
      obtain ⟨rows, -, h⟩ := Option.map_eq_some_iff.1 h
      cases h
      exact ⟨rfl, rfl⟩
  | truncateTo n hn h =>
      unfold truncateTo at h
      split at h
      · cases h
        exact ⟨rfl, rfl⟩
      · obtain ⟨⟨c₁, a₁⟩, hflush, h⟩ := Option.map_eq_some_iff.1 h
        obtain ⟨a₂, -, hflush⟩ := Option.map_eq_some_iff.1 hflush
        cases hflush
        cases h
        constructor
        · show (if _ then _ else _ : PagedKvCache ρ).blockSize = _
          split <;> rfl
        · show (if _ then _ else _ : PagedKvCache ρ).window = _
          split <;> rfl
  | prepopulate ids hfresh hcontig rows hrows =>
      have : ∀ (c : PagedKvCache ρ) a, (ids.foldl (fun s id => prepopulateBlock s.1 s.2 id)
          (c, a)).1.blockSize = c.blockSize ∧
            (ids.foldl (fun s id => prepopulateBlock s.1 s.2 id) (c, a)).1.window = c.window := by
        clear hrows
        induction ids with
        | nil => exact fun _ _ => ⟨rfl, rfl⟩
        | cons id ids ih => exact fun c a => ih (c.prepopulateBlock a id).1 (c.prepopulateBlock a id).2
      exact this s.cache s.pool
  | flushPending h =>
      obtain ⟨a₂, -, h⟩ := Option.map_eq_some_iff.1 h
      cases h
      exact ⟨rfl, rfl⟩
  | _ => exact ⟨rfl, rfl⟩

theorem reach_geometry {a : BlockAllocator ρ} {s : CacheState ρ} (h : Reach a s) :
    s.cache.blockSize = a.blockSize ∧ s.cache.window = a.slidingWindow := by
  induction h with
  | refl => exact ⟨rfl, rfl⟩
  | tail _ hstep ih =>
      obtain ⟨hbs, hwin⟩ := step_geometry hstep
      exact ⟨hbs.trans ih.1, hwin.trans ih.2⟩

/-- In every state of a run the cache shows the end of its list of rows, a slot for every row and, as
long as no `set_num_tokens` skipped over a block, exactly the blocks the rows need; an append leaves at
least the window its queries look back on. -/
theorem cache_refines_rows {maxBlocks segmentBlocks blockSize : Nat} {window : Option Nat}
    {device : Nat → Bool} {a : BlockAllocator ρ} (hbs : 0 < blockSize)
    (ha : BlockAllocator.growing maxBlocks segmentBlocks blockSize window device = some a)
    {s : CacheState ρ} (h : Reach a s) :
    s.cache.contigLen ≤ s.logical.rows.length ∧
      s.cache.current = (if s.cache.contigLen = 0 then none
        else some (s.logical.rows.drop (s.logical.rows.length - s.cache.contigLen))) ∧
      s.cache.table.numTokens = s.logical.rows.length ∧
      s.cache.table.cachedSlots.length = s.cache.table.numTokens ∧
      (s.logical.whole = true →
        s.cache.table.blockIds.length = blocksFor s.cache.table.numTokens blockSize ∧
          ∀ i < s.cache.table.numTokens, ∃ id, s.cache.table.blockIds[i / blockSize]? = some id ∧
            s.cache.table.cachedSlots[i]? = some (id * blockSize + i % blockSize)) ∧
      ∀ (device : Nat → Bool) (spare : List (List ρ)) (new : List ρ) (c : PagedKvCache ρ)
        (a : BlockAllocator ρ) (out : List ρ), new ≠ [] →
          s.cache.append device spare s.pool new = some (c, a, out) →
            c.current = some out ∧
              out = (s.logical.rows ++ new).drop ((s.logical.rows ++ new).length - c.contigLen) ∧
              match window with
              | none => c.contigLen = c.table.numTokens
              | some w => min c.table.numTokens (w + new.length - 1) ≤ c.contigLen := by
  have hlaid := BlockAllocator.growing_laid hbs ha
  obtain ⟨hgbs, hgwin⟩ := reach_geometry h
  obtain ⟨habs, hawin⟩ := BlockAllocator.growing_geometry ha
  rw [habs] at hgbs
  rw [hawin] at hgwin
  have hs := reach_refines hlaid h
  refine ⟨?_, ?_, hs.num, hs.slots.trans hs.num.symm, ?_, ?_⟩
  · have hheld := hs.held
    unfold Held at hheld
    cases hcontig : s.cache.contig with
    | some buf =>
        simp only [hcontig] at hheld
        exact hheld.2.1
    | none =>
        simp only [hcontig] at hheld
        rw [hheld.1]
        exact Nat.zero_le _
  · have hheld := hs.held
    unfold Held at hheld
    unfold current
    cases hcontig : s.cache.contig with
    | some buf =>
        simp only [hcontig] at hheld ⊢
        by_cases hzero : s.cache.contigLen = 0
        · rw [if_neg (by omega), if_pos hzero]
        · rw [if_pos (by omega), if_neg hzero, narrow_eq hheld.1, hheld.2.2]
    | none =>
        simp only [hcontig] at hheld ⊢
        rw [if_pos hheld.1]
  · intro hwhole
    have hfits := hs.fits hwhole
    rw [hgbs] at hfits
    exact ⟨hfits.blocks_length, hfits.slot⟩
  · intro device spare new c a out hnew happend
    obtain ⟨l, hl, -⟩ := Option.bind_eq_some_iff.1 happend
    obtain ⟨added, r, hadded, hwritten, hplaced, heq⟩ := @append_eq _ _ _ hs _ spare _ hnew _ hl
    have hkept := placed_kept hs.kept (hs.num ▸ hs.floor_le) hnew hplaced
    have hcurrent : c.current = some out := by
      obtain ⟨l', -, h'⟩ := Option.bind_eq_some_iff.1 happend
      obtain ⟨r', -, h'⟩ := Option.bind_eq_some_iff.1 h'
      obtain ⟨out', hout', h'⟩ := Option.map_eq_some_iff.1 h'
      cases h'
      exact hout'
    rw [heq] at happend
    cases happend
    refine ⟨hcurrent, rfl, ?_⟩
    have hnum : l.table.numTokens = s.cache.table.numTokens + new.length := by
      rw [hadded.numTokens, hwritten]
    rw [hgwin] at hkept
    cases window with
    | none =>
        show r.2.2 = l.table.numTokens
        rw [hnum]
        exact hkept
    | some w =>
        show min l.table.numTokens (w + new.length - 1) ≤ r.2.2
        rw [hnum]
        exact hkept.2

/-! ## A run -/

/-- Two blocks of one slot. -/
def twoSlots : BlockAllocator Nat := ⟨[[0, 0]], [0, 1], [0, 0], 2, 2, 2, 1, none⟩

theorem twoSlots_growing :
    BlockAllocator.growing 2 2 1 none (fun _ => true) = some twoSlots := rfl

/-- Two rows appended at once: two blocks, one run, a fresh buffer of 64 rows. -/
def twoRows : CacheState Nat :=
  ⟨⟨⟨[0, 1], 2, [0, 1]⟩, 1, none, some ([7, 8] ++ List.replicate 62 0), 2, 0,
    [⟨[7, 8], [⟨0, 0, 2⟩]⟩], true⟩, ⟨[[0, 0]], [], [1, 1], 2, 2, 2, 1, none⟩, ⟨[7, 8], 0, true⟩⟩

theorem twoRows_reach : Reach twoSlots twoRows :=
  .single (.append (fun _ => true) [] [7, 8] (List.cons_ne_nil _ _) rfl)

theorem cache_refines_twoRows :
    twoRows.cache.current = some [7, 8] ∧ twoRows.cache.table.blockIds.length = 2 := by
  obtain ⟨-, hcurrent, -, -, hblocks, -⟩ := cache_refines_rows (a := twoSlots)
    Nat.one_pos twoSlots_growing twoRows_reach
  exact ⟨hcurrent, (hblocks rfl).1⟩

/-- Rolling back by `set_num_tokens` over a block boundary leaves a block too many. -/
theorem setNumTokens_keeps_block :
    BlockAllocator.growing 2 2 1 none (fun _ => true) = some twoSlots ∧
      ∃ s : CacheState Nat, Reach twoSlots s ∧
        s.cache.table.blockIds.length ≠ blocksFor s.cache.table.numTokens s.cache.blockSize := by
  refine ⟨twoSlots_growing, ⟨twoRows.cache.setNumTokens 1, twoRows.pool, [7], 1, false⟩, ?_, by decide⟩
  exact twoRows_reach.tail (.setNumTokens 1 ⟨by decide, by decide, by decide⟩)

end PagedKvCache

end Oxydllm.Kv
