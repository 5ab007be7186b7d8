/-
# Oxydllm.Kv.Conserved — every reference to a block has a holder, in every layer.

The holders are the entries of the prefix cache and the block tables of the sequences. `Conserved as held`:
in each layer the count of a block is the number of times it is held. What gives a reference back or takes
one is described by what it adds to `held` or removes.
-/
import Oxydllm.Kv.Ownership
import Oxydllm.Kv.Scheduler

namespace Oxydllm.Kv

variable {ρ : Type}

/-- The pools' counts are those of the blocks held. -/
def Conserved (as : List (BlockAllocator ρ)) (held : Nat → List Nat) : Prop :=
  ∀ l a, as[l]? = some a → a.Wf ∧ ∀ b, a.refCount b = (held l).count b

/-- What of a pool no reference changes. -/
def shapes (as : List (BlockAllocator ρ)) : List (Nat × Nat) := as.map fun a => (a.maxBlocks, a.blockSize)

theorem Conserved.perm {as : List (BlockAllocator ρ)} {held held' : Nat → List Nat}
    (h : Conserved as held) (hperm : ∀ l, (held l).Perm (held' l)) : Conserved as held' :=
  fun l a ha => ⟨(h l a ha).1, fun b => by rw [(h l a ha).2, (hperm l).count_eq]⟩

theorem shapes_length {as as' : List (BlockAllocator ρ)} (h : shapes as' = shapes as) :
    as'.length = as.length := by
  have := congrArg List.length h
  simpa only [shapes, List.length_map] using this

/-! ## One block of each layer -/

namespace PrefixCache

theorem freeLayers_get (as : List (BlockAllocator ρ)) (ids : List Nat) (l : Nat) :
    (freeLayers as ids)[l]? = as[l]?.map fun a => (ids[l]?).elim a a.free := by
  induction as generalizing ids l with
  | nil => cases ids <;> rfl
  | cons a as ih =>
      cases ids with
      | nil =>
          show (a :: as)[l]? = _
          cases (a :: as)[l]? <;> rfl
      | cons id ids =>
          cases l with
          | zero => rfl
          | succ l => simpa only [freeLayers, List.getElem?_cons_succ] using ih ids l

theorem shareLayers_get (as : List (BlockAllocator ρ)) (ids : List Nat) (l : Nat) :
    (shareLayers as ids)[l]? = as[l]?.map fun a => (ids[l]?).elim a a.share := by
  induction as generalizing ids l with
  | nil => cases ids <;> rfl
  | cons a as ih =>
      cases ids with
      | nil =>
          show (a :: as)[l]? = _
          cases (a :: as)[l]? <;> rfl
      | cons id ids =>
          cases l with
          | zero => rfl
          | succ l => simpa only [shareLayers, List.getElem?_cons_succ] using ih ids l

theorem shapes_freeLayers (as : List (BlockAllocator ρ)) (ids : List Nat) :
    shapes (freeLayers as ids) = shapes as := by
  induction as generalizing ids with
  | nil => cases ids <;> rfl
  | cons a as ih =>
      cases ids with
      | nil => rfl
      | cons id ids => exact congrArg (_ :: ·) (ih ids)

theorem shapes_shareLayers (as : List (BlockAllocator ρ)) (ids : List Nat) :
    shapes (shareLayers as ids) = shapes as := by
  induction as generalizing ids with
  | nil => cases ids <;> rfl
  | cons a as ih =>
      cases ids with
      | nil => rfl
      | cons id ids => exact congrArg (_ :: ·) (ih ids)

/-- A reference given back in each layer. -/
theorem freeLayers_conserved {as : List (BlockAllocator ρ)} {ids : List Nat} {held : Nat → List Nat}
    (h : Conserved as fun l => ids[l]?.toList ++ held l) : Conserved (freeLayers as ids) held := by
  intro l a' ha'
  rw [freeLayers_get] at ha'
  obtain ⟨a, ha, rfl⟩ := Option.map_eq_some_iff.1 ha'
  obtain ⟨hwf, hcount⟩ := h l a ha
  have hcount : ∀ b, a.refCount b = (ids[l]?.toList ++ held l).count b := hcount
  cases hid : ids[l]? with
  | none =>
      rw [hid] at hcount
      exact ⟨hwf, hcount⟩
  | some id =>
      rw [hid] at hcount
      have hpos : 0 < a.refCount id := by
        rw [hcount, Option.toList_some, List.singleton_append, List.count_cons_self]
        exact Nat.succ_pos _
      have hc := BlockAllocator.free_counts hwf hpos
      refine ⟨hc.wf, fun b => ?_⟩
      show (a.free id).refCount b = _
      rw [hc.count, hcount, Option.toList_some, List.singleton_append]
      by_cases hb : b = id
      · subst hb
        rw [if_pos rfl, List.count_cons_self, Nat.add_sub_cancel]
      · rw [if_neg hb, List.count_cons_of_ne (Ne.symm hb)]

/-- A further reference to a block already held, in each layer. -/
theorem shareLayers_conserved {as : List (BlockAllocator ρ)} {ids : List Nat} {held : Nat → List Nat}
    (h : Conserved as held)
    (hids : ∀ l id, l < as.length → ids[l]? = some id → id ∈ held l) :
    Conserved (shareLayers as ids) fun l => ids[l]?.toList ++ held l := by
  intro l a' ha'
  rw [shareLayers_get] at ha'
  obtain ⟨a, ha, rfl⟩ := Option.map_eq_some_iff.1 ha'
  obtain ⟨hwf, hcount⟩ := h l a ha
  show _ ∧ ∀ b, _ = (ids[l]?.toList ++ held l).count b
  cases hid : ids[l]? with
  | none => exact ⟨hwf, hcount⟩
  | some id =>
      have hpos : 0 < a.refCount id := by
        rw [hcount]
        exact List.count_pos_iff.2 (hids l id (List.getElem?_eq_some_iff.1 ha).1 hid)
      have hc := BlockAllocator.share_counts hwf hpos
      refine ⟨hc.wf, fun b => ?_⟩
      show (a.share id).refCount b = (id :: held l).count b
      rw [hc.count, hcount]
      by_cases hb : b = id
      · subst hb
        rw [if_pos rfl, List.count_cons_self]
      · rw [if_neg hb, List.count_cons_of_ne (Ne.symm hb)]

/-! ## The entries of the prefix cache -/

/-- The blocks of a layer the entries hold. -/
def entriesAt (c : PrefixCache) (l : Nat) : List Nat :=
  c.entries.entries.filterMap fun e => e.2.blockIds[l]?

/-- A disabled cache holds nothing. -/
def Idle (c : PrefixCache) : Prop := c.disabled = true → c.entries.entries = []

theorem entriesAt_perm {c c' : PrefixCache} (h : c'.entries.entries.Perm c.entries.entries) (l : Nat) :
    (c'.entriesAt l).Perm (c.entriesAt l) :=
  h.filterMap _

theorem evictLru_none {c : PrefixCache} (hidle : c.Idle) {as : List (BlockAllocator ρ)}
    (h : c.evictLru as = none) : c.entries.entries = [] := by
  unfold evictLru at h
  split at h
  next hdis => exact hidle hdis
  · split at h
    · cases h
    next hpop => exact Lru.popLru_eq_none_iff.1 hpop

/-- An eviction gives the references of one entry back. -/
theorem evictLru_conserved {c c' : PrefixCache} {as as' : List (BlockAllocator ρ)}
    {rest : Nat → List Nat} (h : Conserved as fun l => c.entriesAt l ++ rest l)
    (he : c.evictLru as = some (c', as')) :
    Conserved as' (fun l => c'.entriesAt l ++ rest l) ∧ shapes as' = shapes as ∧
      c'.entries.entries.length + 1 = c.entries.entries.length ∧ (c.Idle → c'.Idle) := by
  unfold evictLru at he
  obtain ⟨hdis, he⟩ := Option.ite_none_left_eq_some.1 he
  have hperm := Lru.popLru_perm c.entries
  cases hpop : c.entries.popLru.1 with
  | none =>
      rw [hpop] at he
      cases he
  | some e =>
      obtain ⟨key, entry⟩ := e
      rw [hpop] at he hperm
      cases he
      refine ⟨freeLayers_conserved (h.perm fun l => ?_), shapes_freeLayers _ _, ?_, fun _ hd => ?_⟩
      · have hl : (c.entriesAt l).Perm (entry.blockIds[l]?.toList ++
            c.entries.popLru.2.entries.filterMap fun e => e.2.blockIds[l]?) := by
          refine (hperm.symm.filterMap _).trans (List.Perm.of_eq ?_)
          rw [Option.toList_some, List.singleton_append, List.filterMap_cons]
          cases entry.blockIds[l]? <;> rfl
        refine (hl.append_right _).trans (List.Perm.of_eq ?_)
        rw [List.append_assoc]
        rfl
      · have := hperm.length_eq
        simpa only [Option.toList_some, List.singleton_append, List.length_cons] using this
      · exact absurd hd hdis

theorem get_perm (c : PrefixCache) (k : UInt64) : (c.get k).2.entries.entries.Perm c.entries.entries :=
  Lru.get_perm c.entries k

theorem lookupFrom_perm (chainHash : List Token → UInt64 → UInt64) (blocks : List (List Token))
    (prev : UInt64) (c : PrefixCache) :
    (lookupFrom chainHash c blocks prev).2.entries.entries.Perm c.entries.entries ∧
      (lookupFrom chainHash c blocks prev).2.disabled = c.disabled := by
  induction blocks generalizing prev c with
  | nil => exact ⟨.refl _, rfl⟩
  | cons block blocks ih =>
      unfold lookupFrom
      cases hget : get c (chainHash block prev) with
      | mk found c₁ =>
          have hc₁ : c₁.entries.entries.Perm c.entries.entries := by
            have := get_perm c (chainHash block prev)
            rwa [hget] at this
          have hd₁ : c₁.disabled = c.disabled := by
            have : (c.get (chainHash block prev)).2.disabled = c.disabled := rfl
            rwa [hget] at this
          cases found with
          | none => exact ⟨hc₁, hd₁⟩
          | some entry =>
              simp only
              split
              · obtain ⟨hp, hd⟩ := ih (chainHash block prev) c₁
                exact ⟨hp.trans hc₁, hd.trans hd₁⟩
              · exact ⟨hc₁, hd₁⟩

/-- A lookup moves entries to the front. -/
theorem lookup_perm (chainHash : List Token → UInt64 → UInt64) (c : PrefixCache) (tokens : List Token)
    (blockSize : Nat) :
    (c.lookup chainHash tokens blockSize).2.entries.entries.Perm c.entries.entries ∧
      (c.lookup chainHash tokens blockSize).2.disabled = c.disabled := by
  unfold lookup
  split
  · exact ⟨.refl _, rfl⟩
  · exact lookupFrom_perm chainHash _ _ c

/-- Every block a lookup returns is held by an entry. -/
theorem lookupFrom_mem (chainHash : List Token → UInt64 → UInt64) (blocks : List (List Token))
    (prev : UInt64) (c : PrefixCache) {ids : List Nat}
    (h : ids ∈ (lookupFrom chainHash c blocks prev).1) {l id : Nat} (hid : ids[l]? = some id) :
    id ∈ c.entriesAt l := by
  induction blocks generalizing prev c with
  | nil => cases h
  | cons block blocks ih =>
      unfold lookupFrom at h
      cases hget : get c (chainHash block prev) with
      | mk found c₁ =>
          rw [hget] at h
          have hc₁ : c₁.entries.entries.Perm c.entries.entries := by
            have := get_perm c (chainHash block prev)
            rwa [hget] at this
          cases found with
          | none => cases h
          | some entry =>
              simp only at h
              split at h
              · rcases List.mem_cons.1 h with rfl | h
                · have hpeek : c.entries.peek (chainHash block prev) = some entry := by
                    have := congrArg Prod.fst hget
                    exact this
                  have hmem := Lru.peek_eq_some_iff.1 hpeek
                  exact List.mem_filterMap.2 ⟨_, hmem, hid⟩
                · exact (entriesAt_perm hc₁ l).mem_iff.1 (ih (chainHash block prev) c₁ h)
              · cases h

theorem lookup_mem (chainHash : List Token → UInt64 → UInt64) (c : PrefixCache) (tokens : List Token)
    (blockSize : Nat) {ids : List Nat} (h : ids ∈ (c.lookup chainHash tokens blockSize).1) {l id : Nat}
    (hid : ids[l]? = some id) : id ∈ c.entriesAt l := by
  unfold lookup at h
  split at h
  · cases h
  · exact lookupFrom_mem chainHash _ _ c h hid

/-- A new entry's blocks and those of the others are the blocks of the entry driven out and those kept. -/
theorem push_held (c : PrefixCache) (key : UInt64) (ids : List Nat) (block : List Token)
    (hnew : c.entries.contains key = false) (rest : Nat → List Nat) (l : Nat) :
    let pushed := c.entries.push key ⟨ids, block⟩ hnew c.cap_pos
    (ids[l]?.toList ++ (c.entriesAt l ++ rest l)).Perm
      ((pushed.1.toList.filterMap fun e => e.2.blockIds[l]?) ++
        ((pushed.2.entries.filterMap fun e => e.2.blockIds[l]?) ++ rest l)) := by
  intro pushed
  have hpush := Lru.push_perm c.entries key ⟨ids, block⟩ hnew c.cap_pos
  have hheld := (hpush.symm.filterMap fun e => e.2.blockIds[l]?).append_right (rest l)
  rw [List.filterMap_append, List.append_assoc] at hheld
  refine (List.Perm.of_eq ?_).trans hheld
  rw [← List.append_assoc, List.filterMap_cons]
  cases ids[l]? with
  | none => rfl
  | some id => rfl

theorem registerFrom_conserved (chainHash : List Token → UInt64 → UInt64)
    (pairs : List (List Token × List Nat)) (prev : UInt64) (c : PrefixCache)
    {as : List (BlockAllocator ρ)} {rest : Nat → List Nat}
    (h : Conserved as fun l => c.entriesAt l ++ rest l)
    (hids : ∀ p ∈ pairs, ∀ l id, l < as.length → p.2[l]? = some id → id ∈ rest l) :
    let r := registerFrom chainHash pairs prev c as
    Conserved r.2 (fun l => r.1.entriesAt l ++ rest l) ∧ shapes r.2 = shapes as ∧
      r.1.disabled = c.disabled := by
  induction pairs generalizing prev c as with
  | nil => exact ⟨h, rfl, rfl⟩
  | cons pair pairs ih =>
      obtain ⟨block, ids⟩ := pair
      unfold registerFrom
      simp only
      split
      next hnew =>
        have hshare := @shareLayers_conserved _ _ ids _ h fun l id hl hid =>
          List.mem_append_right _ (hids _ List.mem_cons_self l id hl hid)
        have hshape := shapes_shareLayers as ids
        have hheld := push_held c (chainHash block prev) ids block hnew rest
        set pushed := c.entries.push (chainHash block prev) ⟨ids, block⟩ hnew c.cap_pos
        have hrest : ∀ as' : List (BlockAllocator ρ), shapes as' = shapes as →
            ∀ p ∈ pairs, ∀ l id, l < as'.length → p.2[l]? = some id → id ∈ rest l := by
          intro as' hs p hp l id hl hid
          exact hids p (List.mem_cons_of_mem _ hp) l id (by rwa [← shapes_length hs]) hid
        -- the new entry may drive one out, whose blocks are given back
        cases hdrop : pushed.1 with
        | none =>
            have hnext : Conserved (shareLayers as ids) fun l =>
                (pushed.2.entries.filterMap fun e => e.2.blockIds[l]?) ++ rest l :=
              hshare.perm fun l => (hheld l).trans (List.Perm.of_eq (by rw [hdrop]; rfl))
            obtain ⟨h1, h2, h3⟩ := ih (chainHash block prev) ⟨pushed.2, c.disabled, _⟩ hnext (hrest _ hshape)
            exact ⟨h1, h2.trans hshape, h3⟩
        | some e =>
            obtain ⟨key, evicted⟩ := e
            have hfree : Conserved (freeLayers (shareLayers as ids) evicted.blockIds) fun l =>
                (pushed.2.entries.filterMap fun e => e.2.blockIds[l]?) ++ rest l := by
              apply freeLayers_conserved
              refine hshare.perm fun l => (hheld l).trans (List.Perm.of_eq ?_)
              rw [hdrop, Option.toList_some, List.filterMap_cons, List.filterMap_nil]
              cases evicted.blockIds[l]? <;> rfl
            have hshape' := (shapes_freeLayers (shareLayers as ids) evicted.blockIds).trans hshape
            obtain ⟨h1, h2, h3⟩ := ih (chainHash block prev) ⟨pushed.2, c.disabled, _⟩ hfree (hrest _ hshape')
            exact ⟨h1, h2.trans hshape', h3⟩
      · exact ih (chainHash block prev) c h fun p hp => hids p (List.mem_cons_of_mem _ hp)

theorem register_conserved (chainHash : List Token → UInt64 → UInt64) {c : PrefixCache}
    (tokens : List Token) (startBlock : Nat) {newBlockIds : List (List Nat)} (blockSize : Nat)
    {as : List (BlockAllocator ρ)} {rest : Nat → List Nat}
    (h : Conserved as fun l => c.entriesAt l ++ rest l)
    (hids : ∀ ids ∈ newBlockIds, ∀ l id, l < as.length → ids[l]? = some id → id ∈ rest l) :
    let r := c.register chainHash tokens startBlock newBlockIds as blockSize
    Conserved r.2 (fun l => r.1.entriesAt l ++ rest l) ∧ shapes r.2 = shapes as ∧
      (c.Idle → r.1.Idle) := by
  unfold register
  by_cases hdis : c.disabled = true
  · rw [if_pos hdis]
    exact ⟨h, rfl, id⟩
  · rw [if_neg hdis]
    split
    · exact ⟨h, rfl, id⟩
    · obtain ⟨h1, h2, h3⟩ := registerFrom_conserved chainHash
        ((blocksFrom tokens blockSize startBlock newBlockIds.length).zip newBlockIds)
        (chain chainHash (blocksFrom tokens blockSize 0 startBlock)) c h
        fun p hp => hids p.2 (List.of_mem_zip hp).2
      exact ⟨h1, h2, fun _ hd => absurd (h3.symm.trans hd) hdis⟩

end PrefixCache

/-! ## The tables of the sequences -/

/-- The blocks of a layer in a list of caches. -/
def blockIdsAt (cs : List (PagedKvCache ρ)) (l : Nat) : List Nat := cs[l]?.elim [] (·.table.blockIds)

/-- The blocks of a layer a list of sequences holds. -/
def seqsAt (seqs : List (SequenceState ρ)) (l : Nat) : List Nat :=
  seqs.flatMap fun seq => blockIdsAt seq.caches l

theorem seqsAt_perm {seqs seqs' : List (SequenceState ρ)} (h : seqs.Perm seqs') (l : Nat) :
    (seqsAt seqs l).Perm (seqsAt seqs' l) :=
  h.flatMap_right _

theorem seqsAt_append (seqs seqs' : List (SequenceState ρ)) (l : Nat) :
    seqsAt (seqs ++ seqs') l = seqsAt seqs l ++ seqsAt seqs' l :=
  List.flatMap_append

theorem seqsAt_cons (seq : SequenceState ρ) (seqs : List (SequenceState ρ)) (l : Nat) :
    seqsAt (seq :: seqs) l = blockIdsAt seq.caches l ++ seqsAt seqs l := rfl

/-- A sequence without blocks. -/
def Fresh (seq : SequenceState ρ) : Prop := ∀ l, blockIdsAt seq.caches l = []

theorem seqsAt_fresh {seqs : List (SequenceState ρ)} (h : ∀ seq ∈ seqs, Fresh seq) (l : Nat) :
    seqsAt seqs l = [] :=
  List.flatMap_eq_nil_iff.2 fun seq hseq => h seq hseq l

namespace SequenceState

theorem clearLayers_get (cs : List (PagedKvCache ρ)) (as : List (BlockAllocator ρ)) (l : Nat) :
    (clearLayers cs as).2[l]? = as[l]?.map fun a => cs[l]?.elim a fun c => (c.clear a).2 := by
  induction as generalizing cs l with
  | nil => cases cs <;> rfl
  | cons a as ih =>
      cases cs with
      | nil =>
          show (a :: as)[l]? = _
          cases (a :: as)[l]? <;> rfl
      | cons c cs =>
          cases l with
          | zero => rfl
          | succ l => simpa only [clearLayers, List.getElem?_cons_succ] using ih cs l

theorem clearLayers_length (cs : List (PagedKvCache ρ)) (as : List (BlockAllocator ρ)) :
    (clearLayers cs as).1.length = cs.length := by
  induction as generalizing cs with
  | nil => cases cs <;> rfl
  | cons a as ih =>
      cases cs with
      | nil => rfl
      | cons c cs => exact congrArg (· + 1) (ih cs)

theorem clearLayers_fresh {cs : List (PagedKvCache ρ)} {as : List (BlockAllocator ρ)}
    (h : cs.length ≤ as.length) (l : Nat) : blockIdsAt (clearLayers cs as).1 l = [] := by
  induction as generalizing cs l with
  | nil =>
      have : cs = [] := List.length_eq_zero_iff.1 (Nat.le_zero.1 h)
      subst this
      rfl
  | cons a as ih =>
      cases cs with
      | nil => rfl
      | cons c cs =>
          cases l with
          | zero => rfl
          | succ l => exact ih (Nat.le_of_succ_le_succ h) l

theorem freeAll_shape (a : BlockAllocator ρ) (ids : List Nat) :
    (PagedKvCache.freeAll a ids).maxBlocks = a.maxBlocks ∧
      (PagedKvCache.freeAll a ids).blockSize = a.blockSize := by
  induction ids generalizing a with
  | nil => exact ⟨rfl, rfl⟩
  | cons id ids ih => exact ih (a.free id)

theorem shapes_clearLayers (cs : List (PagedKvCache ρ)) (as : List (BlockAllocator ρ)) :
    shapes (clearLayers cs as).2 = shapes as := by
  induction as generalizing cs with
  | nil => cases cs <;> rfl
  | cons a as ih =>
      cases cs with
      | nil => rfl
      | cons c cs =>
          obtain ⟨hmax, hbs⟩ := freeAll_shape a c.table.blockIds
          show ((PagedKvCache.freeAll a c.table.blockIds).maxBlocks,
            (PagedKvCache.freeAll a c.table.blockIds).blockSize) :: _ = _
          rw [hmax, hbs]
          exact congrArg (_ :: ·) (ih cs)

/-- Clearing a sequence gives all its references back. -/
theorem clearCaches_conserved {seq : SequenceState ρ} {as : List (BlockAllocator ρ)}
    {held : Nat → List Nat} (h : Conserved as fun l => blockIdsAt seq.caches l ++ held l) :
    Conserved (seq.clearCaches as).2 held := by
  intro l a' ha'
  have ha' : (clearLayers seq.caches as).2[l]? = some a' := ha'
  rw [clearLayers_get] at ha'
  obtain ⟨a, ha, rfl⟩ := Option.map_eq_some_iff.1 ha'
  obtain ⟨hwf, hcount⟩ := h l a ha
  have hcount : ∀ b, a.refCount b = (blockIdsAt seq.caches l ++ held l).count b := hcount
  unfold blockIdsAt at hcount
  cases hc : seq.caches[l]? with
  | none =>
      rw [hc] at hcount
      exact ⟨hwf, hcount⟩
  | some c =>
      rw [hc] at hcount
      have howns : PagedKvCache.Owns (fun b => (held l).count b) c a := by
        refine ⟨hwf, fun b => ?_⟩
        rw [hcount, Option.elim_some, List.count_append, Nat.add_comm]
      have hclear := (PagedKvCache.clear_owns howns).owns
      exact ⟨hclear.wf, fun b => hclear.count b⟩

end SequenceState

end Oxydllm.Kv
