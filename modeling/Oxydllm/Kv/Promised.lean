/-
# Oxydllm.Kv.Promised — the blocks a step promises.

A step promises one block to every decode it schedules on a block boundary and to every prompt it admits
the blocks the prefix cache will not supply. `schedule` takes what it grants off its own count of free
blocks, but an eviction for a later prompt of the same call reads the pool again: the count is then what is
free less the decodes' reservations only, and blocks granted before are granted twice. Short of that, all
that is promised is free (`promised_le_free`).
-/
import Oxydllm.Kv.LiveIds

namespace Oxydllm.Kv

variable {ρ : Type}

namespace Scheduler

/-! ## What is promised -/

section

variable (chainHash : List Token → UInt64 → UInt64)

/-- The blocks a prompt takes when `plan_prefill_inputs` runs: all of its blocks but those found cached. -/
def plannedBlocks (blockSize : Nat) (cache : PrefixCache) (seq : SequenceState ρ) : Nat :=
  PagedKvCache.blocksFor seq.allTokens.length blockSize -
    min (cache.lookup chainHash seq.allTokens blockSize).1.length ((seq.allTokens.length - 1) / blockSize)

/-- The decodes scheduled that take a block. -/
def promisedDecodes (s : Scheduler ρ) (r : Turn ρ) : Nat :=
  r.scheduled.countP fun p => p.2 = .decode &&
    s.running.any fun seq => seq.id == p.1 && decodeNeedsNewBlock s.blockSize seq

/-- The blocks the prompts admitted will take. -/
def promisedPrefills (r : Turn ρ) : Nat :=
  ((r.sched.running.filter fun seq => r.scheduled.contains (seq.id, .prefill)).map
    (plannedBlocks chainHash r.sched.blockSize r.cache)).sum

/-- Whether the admission loop evicts for a prompt with another one admitted before. -/
def evictsLate : Nat → Turn ρ → Nat → Bool → Bool
  | 0, _, _, _ => false
  | fuel + 1, t, free, prefillScheduled =>
      if t.sched.running.length < t.sched.config.maxNumSequences ∧ 0 < t.budget then
        match t.sched.waiting with
        | [] => false
        | seq :: waiting =>
            if prefillScheduled && blocksNeededForPrefill chainHash t.sched.blockSize seq t.cache > free
                && (t.cache.evictLru t.sched.allocators).isSome then true
            else
              let e := roomFor chainHash t seq free
              let t := { t with cache := e.1, sched := { t.sched with allocators := e.2.1 } }
              if e.2.2.1 > e.2.2.2 then false
              else if seq.allTokens.length > t.budget ∧ prefillScheduled then false
              else
                evictsLate fuel
                  { t with
                    sched := { t.sched with
                      waiting
                      running := t.sched.running ++ [{ seq with status := .running, phase := .prefill }] }
                    scheduled := t.scheduled ++ [(seq.id, .prefill)]
                    budget := t.budget - seq.allTokens.length }
                  (e.2.2.2 - e.2.2.1) true
      else false

/-- A call of `schedule` that evicts for one prompt after it has admitted another. -/
def LateEviction (s : Scheduler ρ) (cache : PrefixCache) : Prop :=
  let scan := scanRunning s.blockSize s.running s.config.maxTokensPerStep
  let t := scan.2.1.foldl serveBlock ⟨s, cache, scan.1, scan.2.2, 0⟩
  evictsLate chainHash t.sched.waiting.length t (numFreeBlocks t.sched.allocators - t.reserved) false = true

end

/-! ## What is free stays free -/

theorem numFree_freeAll (a : BlockAllocator ρ) (ids : List Nat) :
    a.numFree ≤ (PagedKvCache.freeAll a ids).numFree := by
  induction ids generalizing a with
  | nil => exact le_rfl
  | cons id ids ih =>
      refine le_trans ?_ (ih (a.free id))
      rw [BlockAllocator.numFree_free]
      exact Nat.le_add_right _ _

theorem numFree_clearCaches (seq : SequenceState ρ) (as : List (BlockAllocator ρ)) :
    numFreeBlocks as ≤ numFreeBlocks (seq.clearCaches as).2 := by
  show numFreeBlocks as ≤ numFreeBlocks (SequenceState.clearLayers seq.caches as).2
  cases as with
  | nil => exact Nat.zero_le _
  | cons a as =>
      cases seq.caches with
      | nil => exact le_rfl
      | cons c cs => exact numFree_freeAll a c.table.blockIds

theorem numFree_preempt (s : Scheduler ρ) (i : Nat) :
    numFreeBlocks s.allocators ≤ numFreeBlocks (s.preempt i).allocators := by
  unfold preempt
  split
  · exact le_rfl
  next seq _ => exact numFree_clearCaches seq s.allocators

theorem numFree_freeLayers (as : List (BlockAllocator ρ)) (ids : List Nat) :
    numFreeBlocks as ≤ numFreeBlocks (PrefixCache.freeLayers as ids) := by
  cases as with
  | nil => exact Nat.zero_le _
  | cons a as =>
      cases ids with
      | nil => exact le_rfl
      | cons id ids =>
          show a.numFree ≤ (a.free id).numFree
          rw [BlockAllocator.numFree_free]
          exact Nat.le_add_right _ _

theorem numFree_evictLru {cache cache' : PrefixCache} {as as' : List (BlockAllocator ρ)}
    (h : cache.evictLru as = some (cache', as')) : numFreeBlocks as ≤ numFreeBlocks as' := by
  unfold PrefixCache.evictLru at h
  obtain ⟨-, h⟩ := Option.ite_none_left_eq_some.1 h
  cases hpop : cache.entries.popLru.1 with
  | none =>
      rw [hpop] at h
      cases h
  | some e =>
      rw [hpop] at h
      cases h
      exact numFree_freeLayers as _

theorem numFree_evictUntil (reserved fuel : Nat) (cache : PrefixCache) (as : List (BlockAllocator ρ)) :
    numFreeBlocks as ≤ numFreeBlocks (evictUntil reserved fuel cache as).2 := by
  induction fuel generalizing cache as with
  | zero => exact le_rfl
  | succ fuel ih =>
      unfold evictUntil
      split
      · cases he : cache.evictLru as with
        | none => exact le_rfl
        | some r => exact (numFree_evictLru he).trans (ih r.1 r.2)
      · exact le_rfl

/-! ## The decodes -/

/-- The decodes scheduled so far that take a block are the ones reserved for, and their blocks are free. -/
structure Reserves (s : Scheduler ρ) (t : Turn ρ) : Prop where
  decodes : promisedDecodes s t ≤ t.reserved
  free : t.reserved ≤ numFreeBlocks t.sched.allocators

theorem serveBlock_reserves {s : Scheduler ρ} {t : Turn ρ} (h : Reserves s t) (id : SequenceId) :
    Reserves s (serveBlock t id) := by
  have hevict := numFree_evictUntil t.reserved t.cache.entries.entries.length t.cache t.sched.allocators
  have hfree := h.free
  have hdecodes := h.decodes
  unfold serveBlock
  simp only
  generalize evictUntil t.reserved t.cache.entries.entries.length t.cache t.sched.allocators = e at hevict
  split
  next hroom =>
    split
    · refine ⟨?_, hroom⟩
      unfold promisedDecodes at hdecodes ⊢
      simp only [List.countP_append, List.countP_singleton]
      split <;> omega
    · exact ⟨hdecodes, hfree.trans hevict⟩
  · refine ⟨hdecodes, ?_⟩
    dsimp only
    split
    next i _ => exact (hfree.trans hevict).trans (numFree_preempt { t.sched with allocators := e.2 } i)
    · exact hfree.trans hevict

/-- The first loop schedules only decodes that take no block. -/
theorem scanRunning_free {s : Scheduler ρ} (hids : (s.running.map (·.id)).Nodup)
    {running : List (SequenceState ρ)} (hsub : ∀ seq ∈ running, seq ∈ s.running) (budget : Nat) :
    ∀ p ∈ (scanRunning s.blockSize running budget).1,
      ¬ s.running.any (fun seq => seq.id == p.1 && decodeNeedsNewBlock s.blockSize seq) = true := by
  induction running generalizing budget with
  | nil => exact List.forall_mem_nil _
  | cons seq rest ih =>
      have hrest : ∀ x ∈ rest, x ∈ s.running := fun x hx => hsub x (List.mem_cons_of_mem _ hx)
      unfold scanRunning
      split
      · exact ih hrest budget
      next hneeds =>
        split
        · intro p hp
          rcases List.mem_cons.1 hp with rfl | hp
          · intro hany
            obtain ⟨x, hx, hcond⟩ := List.any_eq_true.1 hany
            obtain ⟨hid, hblock⟩ := Bool.and_eq_true_iff.1 hcond
            have heq : x = seq := List.inj_on_of_nodup_map hids hx (hsub seq List.mem_cons_self)
              (by simpa using hid)
            rw [heq] at hblock
            exact hneeds hblock
          · exact ih hrest (budget - 1) p hp
        · exact ih hrest budget

/-! ## What a lookup finds -/

end Scheduler

namespace PrefixCache

variable (chainHash : List Token → UInt64 → UInt64)

theorem countFrom_congr {c c' : PrefixCache} (h : ∀ k, c'.entries.peek k = c.entries.peek k)
    (blocks : List (List Token)) (prev : UInt64) :
    countFrom chainHash c' blocks prev = countFrom chainHash c blocks prev := by
  induction blocks generalizing prev with
  | nil => rfl
  | cons block blocks ih =>
      unfold countFrom
      rw [h, ih]

theorem lookupFrom_peek (blocks : List (List Token)) (prev : UInt64) (c : PrefixCache) (k : UInt64) :
    (lookupFrom chainHash c blocks prev).2.entries.peek k = c.entries.peek k := by
  induction blocks generalizing prev c with
  | nil => rfl
  | cons block blocks ih =>
      have hget : (c.get (chainHash block prev)).2.entries.peek k = c.entries.peek k :=
        Lru.peek_get c.entries _ k
      unfold lookupFrom
      generalize c.get (chainHash block prev) = found at hget
      obtain ⟨entry, c₁⟩ := found
      cases entry with
      | none => exact hget
      | some entry =>
          simp only
          split
          · exact (ih (chainHash block prev) c₁).trans hget
          · exact hget

theorem lookupFrom_length (blocks : List (List Token)) (prev : UInt64) (c : PrefixCache) :
    (lookupFrom chainHash c blocks prev).1.length = countFrom chainHash c blocks prev := by
  induction blocks generalizing prev c with
  | nil => rfl
  | cons block blocks ih =>
      have hfst : (c.get (chainHash block prev)).1 = c.entries.peek (chainHash block prev) := rfl
      have hpeek : ∀ k, (c.get (chainHash block prev)).2.entries.peek k = c.entries.peek k :=
        Lru.peek_get c.entries _
      unfold lookupFrom countFrom
      rw [← hfst]
      generalize c.get (chainHash block prev) = found at hpeek
      obtain ⟨entry, c₁⟩ := found
      cases entry with
      | none => rfl
      | some entry =>
          simp only
          split
          · rw [List.length_cons, ih, countFrom_congr chainHash hpeek]
          · rfl

/-- A lookup returns as many blocks as a count would. -/
theorem lookup_length (c : PrefixCache) (tokens : List Token) (blockSize : Nat) :
    (c.lookup chainHash tokens blockSize).1.length = c.countCachedBlocks chainHash tokens blockSize := by
  unfold lookup countCachedBlocks
  split
  · rfl
  · exact lookupFrom_length chainHash _ _ c

/-- Recency does not count. -/
theorem touch_count (c : PrefixCache) (touched tokens : List Token) (blockSize : Nat) :
    (c.touch chainHash touched blockSize).countCachedBlocks chainHash tokens blockSize =
      c.countCachedBlocks chainHash tokens blockSize := by
  have hdis := (lookup_perm chainHash c touched blockSize).2
  unfold touch countCachedBlocks
  rw [hdis]
  split
  · rfl
  next hon =>
    unfold lookup
    rw [if_neg hon]
    exact countFrom_congr chainHash (lookupFrom_peek chainHash _ _ c) _ _

/-- Nothing to evict stays nothing to evict. -/
theorem touch_evictLru {c : PrefixCache} {as : List (BlockAllocator ρ)} (h : c.evictLru as = none)
    (touched : List Token) (blockSize : Nat) :
    (c.touch chainHash touched blockSize).evictLru as = none := by
  obtain ⟨hperm, hdis⟩ := lookup_perm chainHash c touched blockSize
  unfold evictLru at h ⊢
  unfold touch
  rw [hdis]
  by_cases hoff : c.disabled = true
  · rw [if_pos hoff]
  · rw [if_neg hoff] at h ⊢
    have hnil : c.entries.entries = [] := by
      apply Lru.popLru_eq_none_iff.1
      cases hpop : c.entries.popLru.1 with
      | none => rfl
      | some e =>
          rw [hpop] at h
          cases h
    rw [hnil] at hperm
    rw [Lru.popLru_eq_none_iff.2 (List.perm_nil.1 hperm)]

end PrefixCache

namespace Scheduler

/-! ## The admissions -/

section

variable (chainHash : List Token → UInt64 → UInt64)

theorem plannedBlocks_eq (blockSize : Nat) (cache : PrefixCache) (seq : SequenceState ρ) :
    plannedBlocks chainHash blockSize cache seq = blocksNeededForPrefill chainHash blockSize seq cache := by
  unfold plannedBlocks blocksNeededForPrefill
  rw [PrefixCache.lookup_length]

theorem touch_needed (blockSize : Nat) (cache : PrefixCache) (touched : List Token)
    (seq : SequenceState ρ) :
    blocksNeededForPrefill chainHash blockSize seq (cache.touch chainHash touched blockSize) =
      blocksNeededForPrefill chainHash blockSize seq cache := by
  unfold blocksNeededForPrefill
  rw [PrefixCache.touch_count]

/-- The eviction loop reports the free blocks and the blocks needed as they are when it ends. -/
theorem evictFor_reports (blockSize reserved : Nat) (seq : SequenceState ρ) (fuel : Nat)
    (cache : PrefixCache) (as : List (BlockAllocator ρ)) {needed free : Nat}
    (hfree : free = numFreeBlocks as - reserved)
    (hneeded : needed = blocksNeededForPrefill chainHash blockSize seq cache) :
    let e := evictFor chainHash blockSize reserved seq fuel (cache, as, needed, free)
    e.2.2.2 = numFreeBlocks e.2.1 - reserved ∧
      e.2.2.1 = blocksNeededForPrefill chainHash blockSize seq e.1 ∧
      numFreeBlocks as ≤ numFreeBlocks e.2.1 := by
  induction fuel generalizing cache as needed free with
  | zero => exact ⟨hfree, hneeded, le_rfl⟩
  | succ fuel ih =>
      unfold evictFor
      split
      · cases he : cache.evictLru as with
        | none => exact ⟨hfree, hneeded, le_rfl⟩
        | some r =>
            obtain ⟨h1, h2, h3⟩ := ih r.1 r.2 rfl rfl
            exact ⟨h1, h2, (numFree_evictLru he).trans h3⟩
      · exact ⟨hfree, hneeded, le_rfl⟩

theorem evictFor_stuck (blockSize reserved : Nat) (seq : SequenceState ρ) (fuel : Nat)
    {cache : PrefixCache} {as : List (BlockAllocator ρ)} (h : cache.evictLru as = none) (needed free : Nat) :
    evictFor chainHash blockSize reserved seq fuel (cache, as, needed, free) =
      (cache, as, needed, free) := by
  cases fuel with
  | zero => rfl
  | succ fuel =>
      unfold evictFor
      rw [h]
      exact ite_self _

/-- The blocks granted to a list of prompts, as the prefix cache stands. -/
def granted (blockSize : Nat) (cache : PrefixCache) (seqs : List (SequenceState ρ)) : Nat :=
  (seqs.map fun seq => blocksNeededForPrefill chainHash blockSize seq cache).sum

/-- The blocks reserved, granted and still on offer are all free; before the first admission all that is
not reserved is on offer. -/
structure Grants (t : Turn ρ) (seqs : List (SequenceState ρ)) (free : Nat) (prefilled : Bool) : Prop where
  le_free : t.reserved + granted chainHash t.sched.blockSize t.cache seqs + free ≤
    numFreeBlocks t.sched.allocators
  first : prefilled = false → seqs = [] ∧ free = numFreeBlocks t.sched.allocators - t.reserved

/-- Room made for the prompt in front, with nothing evicted once a prompt is admitted. -/
theorem roomFor_grants {t : Turn ρ} {seqs : List (SequenceState ρ)} {free : Nat} {prefilled : Bool}
    (h : Grants chainHash t seqs free prefilled) (seq : SequenceState ρ)
    (hlate : ¬ (prefilled && blocksNeededForPrefill chainHash t.sched.blockSize seq t.cache > free &&
      (t.cache.evictLru t.sched.allocators).isSome) = true) :
    let e := roomFor chainHash t seq free
    t.reserved + granted chainHash t.sched.blockSize e.1 seqs + e.2.2.2 ≤ numFreeBlocks e.2.1 ∧
      e.2.2.1 = blocksNeededForPrefill chainHash t.sched.blockSize seq e.1 := by
  have hle := h.le_free
  unfold roomFor
  simp only
  split
  next hfull =>
    have htouch := @touch_needed ρ chainHash t.sched.blockSize t.cache seq.allTokens
    cases prefilled with
    | false =>
        obtain ⟨rfl, hfree⟩ := h.first rfl
        obtain ⟨h1, h2, h3⟩ := evictFor_reports chainHash t.sched.blockSize t.reserved seq
          (t.cache.touch chainHash seq.allTokens t.sched.blockSize).entries.entries.length
          (t.cache.touch chainHash seq.allTokens t.sched.blockSize) t.sched.allocators hfree
          (htouch seq).symm
        refine ⟨?_, h2⟩
        rw [h1]
        have hnone : granted chainHash t.sched.blockSize t.cache ([] : List (SequenceState ρ)) = 0 := rfl
        rw [hnone] at hle
        show t.reserved + 0 + _ ≤ _
        omega
    | true =>
        -- the prompt is turned away with nothing evicted
        have hnone : t.cache.evictLru t.sched.allocators = none := by
          by_contra hsome
          exact hlate (by simp [hfull, Option.isSome_iff_ne_none.2 hsome])
        rw [evictFor_stuck chainHash _ _ _ _
          (PrefixCache.touch_evictLru chainHash hnone seq.allTokens t.sched.blockSize)]
        refine ⟨?_, (htouch seq).symm⟩
        have hsame : granted chainHash t.sched.blockSize
            (t.cache.touch chainHash seq.allTokens t.sched.blockSize) seqs =
              granted chainHash t.sched.blockSize t.cache seqs :=
          congrArg List.sum (List.map_congr_left fun x _ => htouch x)
        rw [hsame]
        exact hle
  · exact ⟨hle, rfl⟩

/-- What the admission loop adds. -/
structure Admitted (t r : Turn ρ) (new : List (SequenceState ρ)) : Prop where
  running : r.sched.running =
    t.sched.running ++ new.map fun seq => { seq with status := .running, phase := .prefill }
  scheduled : r.scheduled = t.scheduled ++ new.map fun seq => (seq.id, .prefill)
  blockSize : r.sched.blockSize = t.sched.blockSize

theorem Admitted.none {t r : Turn ρ} (hrunning : r.sched.running = t.sched.running)
    (hscheduled : r.scheduled = t.scheduled) (hblock : r.sched.blockSize = t.sched.blockSize) :
    Admitted t r [] :=
  ⟨hrunning.trans (List.append_nil _).symm, hscheduled.trans (List.append_nil _).symm, hblock⟩

/-- The prompt a turn of the loop admits, in front of what the rest of the loop does. -/
theorem Admitted.cons {t r : Turn ρ} {seq : SequenceState ρ} {waiting new : List (SequenceState ρ)}
    {cache : PrefixCache} {allocators : List (BlockAllocator ρ)} {budget : Nat}
    (h : Admitted
      { t with
        cache, budget
        sched := { t.sched with
          allocators, waiting
          running := t.sched.running ++ [{ seq with status := .running, phase := .prefill }] }
        scheduled := t.scheduled ++ [(seq.id, .prefill)] } r new) : Admitted t r (seq :: new) := by
  refine ⟨?_, ?_, h.blockSize⟩
  · rw [h.running, List.map_cons, List.append_assoc, List.singleton_append]
  · rw [h.scheduled, List.map_cons, List.append_assoc, List.singleton_append]

/-- A turn of the loop that does not evict late, and whose rest does not either. -/
theorem evictsLate_cons {t : Turn ρ} {fuel free : Nat} {prefilled : Bool}
    (hroom : t.sched.running.length < t.sched.config.maxNumSequences ∧ 0 < t.budget)
    {seq : SequenceState ρ} {waiting : List (SequenceState ρ)} (hw : t.sched.waiting = seq :: waiting)
    (hlate : evictsLate chainHash (fuel + 1) t free prefilled = false) :
    ¬ (prefilled && blocksNeededForPrefill chainHash t.sched.blockSize seq t.cache > free &&
      (t.cache.evictLru t.sched.allocators).isSome) = true ∧
    let e := roomFor chainHash t seq free
    ¬ e.2.2.1 > e.2.2.2 → ¬ (seq.allTokens.length > t.budget ∧ prefilled = true) →
      evictsLate chainHash fuel
        { t with
          cache := e.1
          sched := { t.sched with
            allocators := e.2.1, waiting
            running := t.sched.running ++ [{ seq with status := .running, phase := .prefill }] }
          scheduled := t.scheduled ++ [(seq.id, .prefill)]
          budget := t.budget - seq.allTokens.length }
        (e.2.2.2 - e.2.2.1) true = false := by
  rw [evictsLate, if_pos hroom] at hlate
  simp only [hw] at hlate
  split at hlate
  next => cases hlate
  next hnot =>
    refine ⟨hnot, fun hfits hbudget => ?_⟩
    rwa [if_neg hfits, if_neg hbudget] at hlate

/-- The loop grants what is free, as long as it does not evict late. -/
theorem admitWaiting_grants {t : Turn ρ} {seqs : List (SequenceState ρ)} {fuel free : Nat}
    {prefilled : Bool} (h : Grants chainHash t seqs free prefilled)
    (hlate : evictsLate chainHash fuel t free prefilled = false) :
    ∃ new, Admitted t (admitWaiting chainHash fuel t free prefilled) new ∧
      t.reserved + granted chainHash t.sched.blockSize (admitWaiting chainHash fuel t free prefilled).cache
        (seqs ++ new) ≤ numFreeBlocks (admitWaiting chainHash fuel t free prefilled).sched.allocators := by
  induction fuel generalizing t seqs free prefilled with
  | zero =>
      refine ⟨[], .none rfl rfl rfl, ?_⟩
      rw [List.append_nil]
      exact (Nat.le_add_right _ _).trans h.le_free
  | succ fuel ih =>
      by_cases hroom : t.sched.running.length < t.sched.config.maxNumSequences ∧ 0 < t.budget
      · cases hw : t.sched.waiting with
        | nil =>
            rw [admitWaiting, if_pos hroom]
            simp only [hw]
            refine ⟨[], .none rfl rfl rfl, ?_⟩
            rw [List.append_nil]
            exact (Nat.le_add_right _ _).trans h.le_free
        | cons seq waiting =>
            obtain ⟨hnot, hrest⟩ := evictsLate_cons chainHash hroom hw hlate
            obtain ⟨hle, hneeded⟩ := roomFor_grants chainHash h seq hnot
            rw [admit_cons chainHash hroom hw]
            generalize roomFor chainHash t seq free = e at hle hneeded hrest
            -- a prompt turned away ends the loop
            have hstop : t.reserved + granted chainHash t.sched.blockSize e.1 (seqs ++ []) ≤
                numFreeBlocks e.2.1 := by
              rw [List.append_nil]
              exact (Nat.le_add_right _ _).trans hle
            simp only
            split
            · exact ⟨[], .none rfl rfl rfl, hstop⟩
            next hfits =>
              split
              · exact ⟨[], .none rfl rfl rfl, hstop⟩
              next hbudget =>
                have hgrants : Grants chainHash
                    { t with
                      cache := e.1
                      sched := { t.sched with
                        allocators := e.2.1, waiting
                        running := t.sched.running ++ [{ seq with status := .running, phase := .prefill }] }
                      scheduled := t.scheduled ++ [(seq.id, .prefill)]
                      budget := t.budget - seq.allTokens.length }
                    (seqs ++ [seq]) (e.2.2.2 - e.2.2.1) true := by
                  refine ⟨?_, fun hc => by cases hc⟩
                  unfold granted at hle ⊢
                  simp only [List.map_append, List.sum_append, List.map_cons, List.map_nil, List.sum_cons,
                    List.sum_nil, ← hneeded]
                  omega
                obtain ⟨new, hnew, hsum⟩ := ih hgrants (hrest hfits hbudget)
                refine ⟨seq :: new, hnew.cons, ?_⟩
                rwa [List.append_assoc, List.singleton_append] at hsum
      · rw [admitWaiting, if_neg hroom]
        refine ⟨[], .none rfl rfl rfl, ?_⟩
        rw [List.append_nil]
        exact (Nat.le_add_right _ _).trans h.le_free

/-! ## The step as a whole -/

/-- Where the decode loops leave the step. -/
theorem decodes_reserve {s : Scheduler ρ} (hids : (s.running.map (·.id)).Nodup) (cache : PrefixCache) :
    let scan := scanRunning s.blockSize s.running s.config.maxTokensPerStep
    let t := scan.2.1.foldl serveBlock ⟨s, cache, scan.1, scan.2.2, 0⟩
    Reserves s t ∧ ∀ p ∈ t.scheduled, p.2 = .decode := by
  have hscan : ∀ (running : List (SequenceState ρ)) (budget : Nat),
      ∀ p ∈ (scanRunning s.blockSize running budget).1, p.2 = .decode := by
    intro running
    induction running with
    | nil => exact fun _ => List.forall_mem_nil _
    | cons seq rest ih =>
        intro budget
        unfold scanRunning
        split
        · exact ih budget
        · split
          · exact List.forall_mem_cons.2 ⟨rfl, ih _⟩
          · exact ih budget
  have hstart : Reserves s ⟨s, cache, (scanRunning s.blockSize s.running s.config.maxTokensPerStep).1,
      (scanRunning s.blockSize s.running s.config.maxTokensPerStep).2.2, 0⟩ := by
    refine ⟨le_of_eq (List.countP_eq_zero.2 fun p hp hcond => ?_), Nat.zero_le _⟩
    exact scanRunning_free hids (fun _ hx => hx) _ p hp (Bool.and_eq_true_iff.1 hcond).2
  refine List.foldlRecOn (motive := fun t : Turn ρ => Reserves s t ∧ ∀ p ∈ t.scheduled, p.2 = .decode)
    _ _ ⟨hstart, hscan _ _⟩ fun t ht id _ => ⟨serveBlock_reserves ht.1 id, ?_⟩
  unfold serveBlock
  simp only
  split
  · split
    · exact List.forall_mem_append.2 ⟨ht.2, List.forall_mem_singleton.2 rfl⟩
    · exact ht.2
  · exact ht.2

/-- The prompts admitted promise what they were granted. -/
theorem promisedPrefills_eq {t r : Turn ρ} {new : List (SequenceState ρ)} (h : Admitted t r new)
    (hdecodes : ∀ p ∈ t.scheduled, p.2 = .decode) (hids : (r.sched.running.map (·.id)).Nodup) :
    promisedPrefills chainHash r = granted chainHash t.sched.blockSize r.cache new := by
  rw [h.running, List.map_append, List.map_map] at hids
  have hold : ∀ seq ∈ t.sched.running, ¬ r.scheduled.contains (seq.id, .prefill) = true := by
    intro seq hseq hcontains
    rw [List.contains_iff_mem, h.scheduled, List.mem_append] at hcontains
    rcases hcontains with hp | hp
    · cases hdecodes _ hp
    · obtain ⟨x, hx, heq⟩ := List.mem_map.1 hp
      have hx' : x.id ∈ new.map ((fun seq : SequenceState ρ => seq.id) ∘
          fun seq => { seq with status := .running, phase := .prefill }) :=
        List.mem_map.2 ⟨x, hx, rfl⟩
      rw [(Prod.mk.inj heq).1] at hx'
      exact (List.nodup_append.1 hids).2.2 _ (List.mem_map_of_mem hseq) _ hx' rfl
  have hnew : ∀ seq ∈ new.map fun seq : SequenceState ρ =>
      { seq with status := SequenceStatus.running, phase := SequencePhase.prefill },
      r.scheduled.contains (seq.id, .prefill) = true := by
    intro seq hseq
    obtain ⟨x, hx, rfl⟩ := List.mem_map.1 hseq
    rw [List.contains_iff_mem, h.scheduled]
    exact List.mem_append_right _ (List.mem_map.2 ⟨x, hx, rfl⟩)
  unfold promisedPrefills granted
  rw [h.running, List.filter_append, List.filter_eq_nil_iff.2 hold, List.nil_append,
    List.filter_eq_self.2 hnew, List.map_map, h.blockSize]
  exact congrArg List.sum (List.map_congr_left fun x _ => plannedBlocks_eq chainHash _ _ _)

theorem schedule_promises {s : Scheduler ρ} (hids : s.liveIds.Nodup) {cache : PrefixCache}
    (hlate : ¬ LateEviction chainHash s cache) :
    promisedDecodes s (schedule chainHash s cache) + promisedPrefills chainHash (schedule chainHash s cache)
      ≤ numFreeBlocks (schedule chainHash s cache).sched.allocators := by
  have hrunning : ∀ {x : Scheduler ρ}, x.liveIds.Nodup → (x.running.map (·.id)).Nodup := fun hx =>
    List.Nodup.of_append_left (by rwa [← List.map_append])
  have hafter := hrunning ((@schedule_liveIds _ chainHash s cache).nodup_iff.2 hids)
  obtain ⟨hres, hdecodes⟩ := decodes_reserve (hrunning hids) cache
  unfold LateEviction at hlate
  unfold schedule at hafter ⊢
  simp only at hafter hlate hres hdecodes ⊢
  generalize List.foldl serveBlock _ _ = t at hafter hlate hres hdecodes
  have hfree := hres.free
  have hdone := hres.decodes
  have hstart : Grants chainHash t [] (numFreeBlocks t.sched.allocators - t.reserved) false := by
    refine ⟨?_, fun _ => ⟨rfl, rfl⟩⟩
    show t.reserved + 0 + _ ≤ _
    omega
  obtain ⟨new, hadm, hsum⟩ := admitWaiting_grants chainHash hstart (Bool.eq_false_iff.2 hlate)
  rw [List.nil_append] at hsum
  generalize admitWaiting chainHash _ _ _ _ = r at hafter hadm hsum
  have hcount : promisedDecodes s r = promisedDecodes s t := by
    unfold promisedDecodes
    rw [hadm.scheduled, List.countP_append, List.countP_map]
    simp
  rw [hcount, promisedPrefills_eq chainHash hadm hdecodes hafter]
  omega

end

end Scheduler

/-- In every state of an engine: short of a late eviction, all that a step promises is free. -/
theorem promised_le_free [Inhabited ρ] (chainHash : List Token → UInt64 → UInt64)
    {config : SchedulerConfig} {pools : List (BlockAllocator ρ)} {blockSize : Nat} (hbs : 0 < blockSize)
    (hpools : FreshPools blockSize pools) {s : EngineState ρ} (h : EngineReach chainHash config pools s)
    (hlate : ¬ s.sched.LateEviction chainHash s.prefixCache) :
    s.sched.promisedDecodes (s.sched.schedule chainHash s.prefixCache) +
        Scheduler.promisedPrefills chainHash (s.sched.schedule chainHash s.prefixCache) ≤
      Scheduler.numFreeBlocks (s.sched.schedule chainHash s.prefixCache).sched.allocators :=
  Scheduler.schedule_promises chainHash (h.sound hbs hpools).ids hlate

/-! ## Blocks promised twice

A pool of three blocks of two tokens. A first request has come and gone and left its block to the prefix
cache; two prompts of two blocks each are waiting. The first takes the two free blocks; for the second the
cached block is evicted, and the three blocks then free are taken to be on offer. -/

def twicePool : BlockAllocator Nat := ⟨[[0, 0, 0, 0, 0, 0]], [0, 1, 2], [0, 0, 0], 3, 3, 3, 2, none⟩

def twiceHash : List Token → UInt64 → UInt64 := fun block prev => prev + block.length.toUInt64 + 1

/-- The cache of the first request after its prompt, with the pool. -/
def twiceAppended : PagedKvCache Nat × BlockAllocator Nat × List Nat :=
  ((PagedKvCache.new twicePool).append (fun _ => true) [] twicePool [7, 8]).get (by decide)

theorem twice_append :
    PagedKvCache.CacheMove (.new twicePool) twicePool twiceAppended.1 twiceAppended.2.1 :=
  .append (fun _ => true) [] [7, 8] (Option.some_get (by decide)).symm

/-- The pool with block 0 left to the prefix cache. -/
def twiceLeft : BlockAllocator Nat := { twicePool with freeList := [1, 2], refCounts := [1, 0, 0] }

def twiceCache : PrefixCache :=
  ⟨⟨512, [(3, ⟨[0], [1, 2]⟩)], List.nodup_singleton _, by decide⟩, false, by decide⟩

/-- A sequence with a token to generate. -/
def twiceSeq (id : SequenceId) (prompt : List Token) (status : SequenceStatus) (c : PagedKvCache Nat) :
    SequenceState Nat :=
  ⟨id, 0, prompt, status, .prefill, [c], 0, 1⟩

def twiceState (waiting running : List (SequenceState Nat)) (pool : BlockAllocator Nat) (nextId : Nat)
    (cache : PrefixCache) : EngineState Nat :=
  ⟨⟨⟨4, 16⟩, waiting, running, [pool], nextId, 2⟩, cache⟩

def twiceWaiting : EngineState Nat :=
  twiceState [twiceSeq 1 [3, 4, 5] .waiting (.new twicePool), twiceSeq 2 [6, 7, 8] .waiting (.new twicePool)]
    [] twiceLeft 3 twiceCache

/-- The first request alone, with its cache over the pool. -/
def twiceFirst (c : PagedKvCache Nat) (pool : BlockAllocator Nat) : EngineState Nat :=
  twiceState [] [twiceSeq 0 [1, 2] .running c] pool 1 (.new 512)

theorem twice_reach : EngineReach twiceHash ⟨4, 16⟩ [twicePool] twiceWaiting := by
  have hrun : EngineReach twiceHash ⟨4, 16⟩ [twicePool] (twiceFirst (.new twicePool) twicePool) :=
    .move (.move .start (.addRequest [1, 2] 1 (by decide) (by decide)))
      (.schedule (List.forall_mem_nil _))
  have hprefill : EngineReach twiceHash ⟨4, 16⟩ [twicePool]
      (twiceFirst twiceAppended.1 twiceAppended.2.1) :=
    .move hrun (.forward (@ForwardMove.cache _ _ _ (twiceFirst (.new twicePool) twicePool) 0 0
      (twiceSeq 0 [1, 2] .running (.new twicePool)) rfl _ _ _ _ rfl rfl twice_append))
  have hregistered : EngineReach twiceHash ⟨4, 16⟩ [twicePool]
      (twiceState [] [twiceSeq 0 [1, 2] .running twiceAppended.1]
        { twiceLeft with refCounts := [2, 0, 0] } 1 twiceCache) :=
    .move hprefill (.forward (@ForwardMove.register _ _ twiceHash
      (twiceFirst twiceAppended.1 twiceAppended.2.1) 0 0 1 (twiceSeq 0 [1, 2] .running twiceAppended.1) rfl))
  have hgone : EngineReach twiceHash ⟨4, 16⟩ [twicePool] (twiceState [] [] twiceLeft 1 twiceCache) :=
    .move (.move hregistered (.forward (.sample 0 rfl (by decide) 9 true))) .retire
  exact .move (.move hgone (.addRequest [3, 4, 5] 1 (by decide) (by decide)))
    (.addRequest [6, 7, 8] 1 (by decide) (by decide))

/-- Four blocks promised, three free. -/
theorem promised_twice :
    ¬ ∀ s : EngineState Nat, EngineReach twiceHash ⟨4, 16⟩ [twicePool] s →
      s.sched.promisedDecodes (s.sched.schedule twiceHash s.prefixCache) +
          Scheduler.promisedPrefills twiceHash (s.sched.schedule twiceHash s.prefixCache) ≤
        Scheduler.numFreeBlocks (s.sched.schedule twiceHash s.prefixCache).sched.allocators := by
  intro h
  exact absurd (h twiceWaiting twice_reach) (by decide)

/-- With one prompt waiting nothing is promised twice. -/
theorem promised_once :
    let s := ((Scheduler.new ⟨4, 16⟩ [twicePool]).addRequest [1, 2] 1)
    s.promisedDecodes (s.schedule twiceHash (.new 512)) +
        Scheduler.promisedPrefills twiceHash (s.schedule twiceHash (.new 512)) ≤
      Scheduler.numFreeBlocks (s.schedule twiceHash (.new 512)).sched.allocators := by
  have hpools : FreshPools 2 [twicePool] := by
    intro a ha
    rw [List.mem_singleton.1 ha]
    exact ⟨3, 3, none, fun _ => true, rfl⟩
  have hreach : EngineReach twiceHash ⟨4, 16⟩ [twicePool]
      ⟨(Scheduler.new ⟨4, 16⟩ [twicePool]).addRequest [1, 2] 1, .new 512⟩ :=
    .move .start (.addRequest [1, 2] 1 (by decide) (by decide))
  exact promised_le_free twiceHash (by decide) hpools hreach (by unfold Scheduler.LateEviction; decide)

end Oxydllm.Kv
