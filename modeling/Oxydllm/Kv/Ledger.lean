/-
# Oxydllm.Kv.Ledger — the count of a block is the number of its holders, whatever the order of operations.

The operations that take a block or give one back, each a move of its own: the caches' (`CacheMove`), those
of the prefix cache, and what the scheduler does to a sequence that starts, is preempted, retired or
aborted. `schedule` is a chain of them (`schedule_moves`). A block that a table lists twice counts twice.
-/
import Oxydllm.Kv.EngineRun
import Mathlib.Logic.Relation

namespace Oxydllm.Kv

variable {ρ : Type}

namespace Scheduler

/-- The sequences with a block table. -/
def live (s : Scheduler ρ) : List (SequenceState ρ) := s.running ++ s.waiting

/-- The sequence in front of the queue starts to run. -/
def launch (s : Scheduler ρ) : Scheduler ρ :=
  match s.waiting with
  | [] => s
  | seq :: waiting =>
      { s with
        waiting
        running := s.running ++ [{ seq with status := .running, phase := .prefill }] }

/-- Every reference is one of an entry or of a table, and every sequence has a cache a layer. -/
structure Ledger (s : Scheduler ρ) (cache : PrefixCache) : Prop where
  conserved : Conserved s.allocators fun l => cache.entriesAt l ++ seqsAt s.live l
  layers : ∀ seq ∈ s.live, seq.caches.length = s.allocators.length

/-- Some sequences replaced by others, with their pools and the prefix cache. -/
theorem Ledger.replace {s s' : Scheduler ρ} {cache cache' : PrefixCache} (h : Ledger s cache)
    (gone new kept : List (SequenceState ρ)) (hgone : s.live.Perm (gone ++ kept))
    (hnew : s'.live.Perm (new ++ kept)) (hlen : s'.allocators.length = s.allocators.length)
    (hlayers : ∀ seq ∈ new, seq.caches.length = s.allocators.length)
    (hcons : ∀ rest : Nat → List Nat,
      Conserved s.allocators (fun l => cache.entriesAt l ++ (seqsAt gone l ++ rest l)) →
        Conserved s'.allocators fun l => cache'.entriesAt l ++ (seqsAt new l ++ rest l)) :
    Ledger s' cache' := by
  have hbefore := h.conserved.perm fun l => ((seqsAt_perm hgone l).append_left (cache.entriesAt l))
  simp only [seqsAt_append] at hbefore
  refine ⟨(hcons _ hbefore).perm fun l => List.Perm.append_left _ ?_, fun seq hseq => ?_⟩
  · rw [← seqsAt_append]
    exact (seqsAt_perm hnew l).symm
  · rw [hlen]
    rcases List.mem_append.1 (hnew.mem_iff.1 hseq) with hseq | hseq
    · exact hlayers seq hseq
    · exact h.layers seq (hgone.mem_iff.2 (List.mem_append_right _ hseq))

/-- The sequences as they were. -/
theorem Ledger.same {s s' : Scheduler ρ} {cache cache' : PrefixCache} (h : Ledger s cache)
    (hlive : s'.live.Perm s.live) (hlen : s'.allocators.length = s.allocators.length)
    (hcons : ∀ rest : Nat → List Nat, Conserved s.allocators (fun l => cache.entriesAt l ++ rest l) →
      Conserved s'.allocators fun l => cache'.entriesAt l ++ rest l) : Ledger s' cache' := by
  apply h.replace [] [] s.live (.refl _) hlive hlen
  · exact List.forall_mem_nil _
  · exact hcons

theorem running_live {s : Scheduler ρ} {i : Nat} {seq : SequenceState ρ}
    (hi : s.running[i]? = some seq) : s.live.Perm ([seq] ++ (s.running.eraseIdx i ++ s.waiting)) := by
  obtain ⟨hlt, hget⟩ := List.getElem?_eq_some_iff.1 hi
  have hold : s.running.Perm (seq :: s.running.eraseIdx i) := by
    rw [← hget]
    exact (List.getElem_cons_eraseIdx_perm hlt).symm
  exact hold.append_right _

/-- A running sequence changed. -/
theorem Ledger.setRunning {s : Scheduler ρ} {cache cache' : PrefixCache} (h : Ledger s cache) {i : Nat}
    {seq seq' : SequenceState ρ} (hi : s.running[i]? = some seq) {as : List (BlockAllocator ρ)}
    (hlen : as.length = s.allocators.length) (hcaches : seq'.caches.length = seq.caches.length)
    (hcons : ∀ rest : Nat → List Nat,
      Conserved s.allocators (fun l => cache.entriesAt l ++ (blockIdsAt seq.caches l ++ rest l)) →
        Conserved as fun l => cache'.entriesAt l ++ (blockIdsAt seq'.caches l ++ rest l)) :
    Ledger (s.setRunning i seq' as) cache' := by
  obtain ⟨hlt, -⟩ := List.getElem?_eq_some_iff.1 hi
  have hmem : seq ∈ s.live := List.mem_append_left _ (List.mem_of_getElem? hi)
  apply h.replace _ [seq'] _ (running_live hi)
  · exact (List.set_perm_cons_eraseIdx hlt seq').append_right _
  · exact hlen
  · intro x hx
    rw [List.mem_singleton.1 hx, hcaches]
    exact h.layers seq hmem
  · intro rest hrest
    have hone : ∀ (x : SequenceState ρ) l, seqsAt [x] l = blockIdsAt x.caches l :=
      fun x l => List.append_nil _
    simp only [hone] at hrest ⊢
    exact hcons rest hrest

/-! ## The scheduler's operations -/

/-- A sequence's blocks given back while everybody else keeps theirs. -/
theorem clearOne_apart {seq : SequenceState ρ} {as : List (BlockAllocator ρ)} {entries rest : Nat → List Nat}
    (h : Conserved as fun l => entries l ++ (seqsAt [seq] l ++ rest l)) :
    Conserved (seq.clearCaches as).2 fun l => entries l ++ rest l :=
  clearOne_conserved (h.perm fun _ => List.perm_append_comm_assoc _ _ _)

theorem clearCaches_length (seq : SequenceState ρ) (as : List (BlockAllocator ρ)) :
    (seq.clearCaches as).2.length = as.length :=
  shapes_length (SequenceState.shapes_clearLayers seq.caches as)

theorem preempt_ledger {s : Scheduler ρ} {cache : PrefixCache} (h : Ledger s cache) (i : Nat) :
    Ledger (s.preempt i) cache := by
  unfold preempt
  cases hi : s.running[i]? with
  | none => exact h
  | some seq =>
      have hlayers := h.layers seq (List.mem_append_left _ (List.mem_of_getElem? hi))
      simp only
      generalize hback : { (seq.clearCaches s.allocators).1 with
        numProcessedTokens := 0, phase := SequencePhase.prefill, status := SequenceStatus.waiting } = back
      have hfresh : Fresh back := by
        rw [← hback]
        exact SequenceState.clearLayers_fresh hlayers.le
      apply h.replace [seq] [back] (swapRemove s.running i ++ s.waiting)
      · exact (swapRemove_perm hi).append_right _
      · exact List.perm_middle
      · exact clearCaches_length seq s.allocators
      · intro x hx
        rw [List.mem_singleton.1 hx, ← hback]
        exact (SequenceState.clearLayers_length _ _).trans hlayers
      · intro rest hrest
        refine (clearOne_apart hrest).perm fun l => List.Perm.of_eq ?_
        rw [seqsAt_fresh (fun x hx => by rwa [List.mem_singleton.1 hx]) l, List.nil_append]

theorem dropRunning_ledger {s : Scheduler ρ} {cache : PrefixCache} (h : Ledger s cache) (i : Nat) :
    Ledger (s.dropRunning i) cache := by
  unfold dropRunning
  cases hi : s.running[i]? with
  | none => exact h
  | some seq =>
      apply h.replace [seq] [] _ ((swapRemove_perm hi).append_right _) (.refl _)
      · exact clearCaches_length seq s.allocators
      · exact List.forall_mem_nil _
      · exact fun rest hrest => clearOne_apart hrest

theorem retireFinished_ledger {s : Scheduler ρ} {cache : PrefixCache} (h : Ledger s cache) :
    Ledger s.retireFinished.2 cache := by
  unfold retireFinished
  refine List.foldlRecOn (motive := fun s₁ => Ledger s₁ cache) _ _ h fun s₁ h₁ id _ => ?_
  split
  · exact dropRunning_ledger h₁ _
  · exact h₁

theorem clearAll_apart {seqs : List (SequenceState ρ)} {as : List (BlockAllocator ρ)}
    {entries rest : Nat → List Nat} (h : Conserved as fun l => entries l ++ (seqsAt seqs l ++ rest l)) :
    Conserved (clearAll as seqs) fun l => entries l ++ rest l :=
  (clearAll_conserved (h.perm fun _ => List.perm_append_comm_assoc _ _ _)).1

theorem clearAll_length (seqs : List (SequenceState ρ)) (as : List (BlockAllocator ρ)) :
    (clearAll as seqs).length = as.length := by
  refine List.foldlRecOn (motive := fun as' : List (BlockAllocator ρ) => as'.length = as.length) _ _ rfl
    fun as' h seq _ => ?_
  exact (clearCaches_length seq as').trans h

theorem abortAllRunning_ledger {s : Scheduler ρ} {cache : PrefixCache} (h : Ledger s cache) :
    Ledger s.abortAllRunning.2 cache := by
  apply h.replace s.running [] s.waiting (.refl _) (.refl _)
  · exact clearAll_length _ _
  · exact List.forall_mem_nil _
  · exact fun rest hrest => clearAll_apart hrest

theorem abortAll_ledger {s : Scheduler ρ} {cache : PrefixCache} (h : Ledger s cache) :
    Ledger s.abortAll.2 cache := by
  apply (abortAllRunning_ledger h).replace s.waiting [] []
  · exact .of_eq (List.append_nil _).symm
  · exact .refl _
  · exact clearAll_length _ _
  · exact List.forall_mem_nil _
  · exact fun rest hrest => clearAll_apart hrest

theorem abortSequence_ledger {s : Scheduler ρ} {cache : PrefixCache} (h : Ledger s cache)
    (id : SequenceId) : Ledger (s.abortSequence id).2 cache := by
  unfold abortSequence
  cases s.runningIndex id with
  | some i => exact dropRunning_ledger h i
  | none =>
      simp only
      cases s.waiting.findIdx? (·.id == id) with
      | none => exact h
      | some i =>
          simp only
          cases hi : s.waiting[i]? with
          | none => exact h
          | some seq =>
              obtain ⟨hlt, hget⟩ := List.getElem?_eq_some_iff.1 hi
              have hw : s.waiting.Perm (seq :: s.waiting.eraseIdx i) := by
                rw [← hget]
                exact (List.getElem_cons_eraseIdx_perm hlt).symm
              apply h.replace [seq] [] (s.running ++ s.waiting.eraseIdx i)
              · exact (hw.append_left _).trans List.perm_middle
              · exact .refl _
              · exact clearCaches_length seq s.allocators
              · exact List.forall_mem_nil _
              · exact fun rest hrest => clearOne_apart hrest

theorem addRequest_ledger {s : Scheduler ρ} {cache : PrefixCache} (h : Ledger s cache)
    (prompt : List Token) (maxTokens : Nat) : Ledger (s.addRequest prompt maxTokens) cache := by
  generalize hseq : (⟨s.nextId, 0, prompt, .waiting, .prefill, s.allocators.map .new, 0, maxTokens⟩ :
    SequenceState ρ) = seq
  have hfresh : Fresh seq := by
    intro l
    rw [← hseq]
    unfold blockIdsAt
    rw [List.getElem?_map]
    cases s.allocators[l]? <;> rfl
  apply h.replace [] [seq] s.live (.refl _)
  · rw [← hseq]
    show (s.running ++ (s.waiting ++ [_])).Perm ([_] ++ (s.running ++ s.waiting))
    rw [← List.append_assoc]
    exact List.perm_append_comm
  · rfl
  · intro x hx
    rw [List.mem_singleton.1 hx, ← hseq]
    exact List.length_map _
  · intro rest hrest
    have hnil : ∀ l, seqsAt [seq] l = [] := seqsAt_fresh fun x hx => by rwa [List.mem_singleton.1 hx]
    simp only [hnil]
    exact hrest

theorem launch_cons {s : Scheduler ρ} {seq : SequenceState ρ} {waiting : List (SequenceState ρ)}
    (hw : s.waiting = seq :: waiting) :
    s.launch = { s with
      waiting
      running := s.running ++ [{ seq with status := .running, phase := .prefill }] } := by
  unfold launch
  rw [hw]

theorem launch_ledger {s : Scheduler ρ} {cache : PrefixCache} (h : Ledger s cache) :
    Ledger s.launch cache := by
  unfold launch
  cases hw : s.waiting with
  | nil => exact h
  | cons seq waiting =>
      have hmem : seq ∈ s.live := List.mem_append_right _ (by rw [hw]; exact List.mem_cons_self)
      apply h.replace [seq] [{ seq with status := .running, phase := .prefill }] (s.running ++ waiting)
      · unfold live
        rw [hw]
        exact List.perm_middle
      · show (s.running ++ [_] ++ waiting).Perm _
        rw [List.append_assoc]
        exact List.perm_middle
      · rfl
      · intro x hx
        rw [List.mem_singleton.1 hx]
        exact h.layers seq hmem
      · exact fun rest hrest => hrest

theorem start_ledger [Inhabited ρ] {blockSize : Nat} {as : List (BlockAllocator ρ)}
    (hpools : FreshPools blockSize as) (config : SchedulerConfig) {cache : PrefixCache}
    (hcache : cache.entries.entries = []) : Ledger (.new config as) cache := by
  refine ⟨fun l a ha => ?_, List.forall_mem_nil _⟩
  obtain ⟨maxBlocks, segmentBlocks, window, device, hg⟩ := hpools a (List.mem_of_getElem? ha)
  obtain ⟨hwf, hzero⟩ := growing_counts hg
  refine ⟨hwf, fun b => ?_⟩
  rw [hzero]
  show 0 = (cache.entries.entries.filterMap _ ++ []).count b
  rw [hcache]
  rfl

theorem evictLru_ledger {s : Scheduler ρ} {cache cache' : PrefixCache} (h : Ledger s cache)
    {as : List (BlockAllocator ρ)} (he : cache.evictLru s.allocators = some (cache', as)) :
    Ledger { s with allocators := as } cache' :=
  h.same (.refl _) (shapes_length (PrefixCache.evictLru_conserved h.conserved he).2.1) fun _ hrest =>
    (PrefixCache.evictLru_conserved hrest he).1

theorem lookup_ledger (chainHash : List Token → UInt64 → UInt64) {s : Scheduler ρ} {cache : PrefixCache}
    (h : Ledger s cache) (tokens : List Token) (blockSize : Nat) :
    Ledger s (cache.lookup chainHash tokens blockSize).2 := by
  have hperm := (PrefixCache.lookup_perm chainHash cache tokens blockSize).1
  apply h.same (.refl _) rfl
  exact fun rest hrest => hrest.perm fun l => (PrefixCache.entriesAt_perm hperm l).symm.append_right _

/-- One cache of a running sequence changed, and the pool of its layer. -/
theorem Ledger.updateCache {s : Scheduler ρ} {cache : PrefixCache} (h : Ledger s cache) {i l : Nat}
    {seq : SequenceState ρ} (hi : s.running[i]? = some seq) {c c' : PagedKvCache ρ}
    {a a' : BlockAllocator ρ} (hc : seq.caches[l]? = some c) (ha : s.allocators[l]? = some a)
    (hm : ∀ env, PagedKvCache.Owns env c a → PagedKvCache.OwnStep env c' a a') :
    Ledger (s.setRunning i { seq with caches := seq.caches.set l c' } (s.allocators.set l a')) cache := by
  obtain ⟨hla, -⟩ := List.getElem?_eq_some_iff.1 ha
  apply h.setRunning hi (List.length_set ..) (List.length_set ..)
  exact fun rest hcons => hcons.setCache hc hla (hm _ (hcons.owns hc ha)).owns

end Scheduler

theorem plan_ledger (chainHash : List Token → UInt64 → UInt64) {s : EngineState ρ}
    (h : s.sched.Ledger s.prefixCache) {i : Nat} {seq : SequenceState ρ}
    (hi : s.sched.running[i]? = some seq) :
    (s.plan chainHash i seq).sched.Ledger (s.plan chainHash i seq).prefixCache := by
  obtain ⟨hperm, -⟩ :=
    PrefixCache.lookup_perm chainHash s.prefixCache seq.allTokens s.sched.blockSize
  have hheld : ∀ ids ∈ (s.prefixCache.lookup chainHash seq.allTokens s.sched.blockSize).1,
      ∀ l id, ids[l]? = some id → id ∈ s.prefixCache.entriesAt l := fun ids hids l id hid =>
    PrefixCache.lookup_mem chainHash _ _ _ hids hid
  unfold EngineState.plan planPrefill
  simp only
  generalize s.prefixCache.lookup chainHash seq.allTokens s.sched.blockSize = found at hperm hheld
  generalize min found.1.length ((seq.allTokens.length - 1) / s.sched.blockSize) = n
  have hfound : ∀ {held rest : Nat → List Nat} {as : List (BlockAllocator ρ)},
      Conserved as (fun l => s.prefixCache.entriesAt l ++ (held l ++ rest l)) →
        Conserved as fun l => found.2.entriesAt l ++ (held l ++ rest l) := fun hcons =>
    hcons.perm fun l => (PrefixCache.entriesAt_perm hperm l).symm.append_right _
  split
  · have htake : ∀ ids ∈ found.1.take n, ∀ l id, ids[l]? = some id → id ∈ s.prefixCache.entriesAt l :=
      fun ids hids => hheld ids (List.mem_of_mem_take hids)
    apply h.setRunning hi
    · exact (prepopulateLayers_length ..).2
    · exact (prepopulateLayers_length ..).1
    · exact fun rest hcons => hfound (prepopulateLayers_conserved htake hcons).1
  · exact h.setRunning hi rfl rfl fun rest hcons => hfound hcons

theorem register_ledger (chainHash : List Token → UInt64 → UInt64) {s : EngineState ρ}
    (h : s.sched.Ledger s.prefixCache) {i : Nat} {seq : SequenceState ρ}
    (hi : s.sched.running[i]? = some seq) (startBlock total : Nat) :
    (s.register chainHash seq startBlock total).sched.Ledger
      (s.register chainHash seq startBlock total).prefixCache := by
  have hmem : seq ∈ s.sched.live := List.mem_append_left _ (List.mem_of_getElem? hi)
  by_cases hany : (newBlockIds seq startBlock total).any
      fun ids => ids.length ≠ s.sched.allocators.length
  · rw [register_skipped chainHash hany]
    exact h
  · have hheld : ∀ ids ∈ newBlockIds seq startBlock total, ∀ l id, l < s.sched.allocators.length →
        ids[l]? = some id → id ∈ seqsAt s.sched.live l := by
      intro ids hids l id _ hid
      have hlen : ids.length = seq.caches.length := by
        rw [h.layers seq hmem]
        by_contra hne
        exact hany (List.any_eq_true.2 ⟨ids, hids, decide_eq_true hne⟩)
      exact List.mem_flatMap.2 ⟨seq, hmem, newBlockIds_mem hids hlen hid⟩
    obtain ⟨hcons, hshape, -⟩ := PrefixCache.register_conserved chainHash seq.allTokens startBlock
      s.sched.blockSize h.conserved hheld
    exact ⟨hcons, fun x hx => (h.layers x hx).trans (shapes_length hshape).symm⟩

/-! ## Every order of operations -/

section

variable [Inhabited ρ]

/-- One operation on the blocks. -/
inductive LedgerMove (chainHash : List Token → UInt64 → UInt64) (s : EngineState ρ) :
    EngineState ρ → Prop
  | addRequest (prompt : List Token) (maxTokens : Nat) :
      LedgerMove chainHash s ⟨s.sched.addRequest prompt maxTokens, s.prefixCache⟩
  | launch : LedgerMove chainHash s ⟨s.sched.launch, s.prefixCache⟩
  | preempt (i : Nat) : LedgerMove chainHash s ⟨s.sched.preempt i, s.prefixCache⟩
  | retire : LedgerMove chainHash s ⟨s.sched.retireFinished.2, s.prefixCache⟩
  | abortAllRunning : LedgerMove chainHash s ⟨s.sched.abortAllRunning.2, s.prefixCache⟩
  | abortSequence (id : SequenceId) : LedgerMove chainHash s ⟨(s.sched.abortSequence id).2, s.prefixCache⟩
  | abortAll : LedgerMove chainHash s ⟨s.sched.abortAll.2, s.prefixCache⟩
  | evictLru {cache : PrefixCache} {as : List (BlockAllocator ρ)}
      (he : s.prefixCache.evictLru s.sched.allocators = some (cache, as)) :
      LedgerMove chainHash s ⟨{ s.sched with allocators := as }, cache⟩
  | lookup (tokens : List Token) (blockSize : Nat) :
      LedgerMove chainHash s ⟨s.sched, (s.prefixCache.lookup chainHash tokens blockSize).2⟩
  | plan (i : Nat) {seq : SequenceState ρ} (hi : s.sched.running[i]? = some seq) :
      LedgerMove chainHash s (s.plan chainHash i seq)
  | prepopulateBlock (i l id : Nat) {seq : SequenceState ρ} (hi : s.sched.running[i]? = some seq)
      {c : PagedKvCache ρ} {a : BlockAllocator ρ} (hc : seq.caches[l]? = some c)
      (ha : s.sched.allocators[l]? = some a) (hid : id ∈ s.prefixCache.entriesAt l) :
      LedgerMove chainHash s
        ⟨s.sched.setRunning i { seq with caches := seq.caches.set l (c.prepopulateBlock a id).1 }
          (s.sched.allocators.set l (c.prepopulateBlock a id).2), s.prefixCache⟩
  | cache (i l : Nat) {seq : SequenceState ρ} (hi : s.sched.running[i]? = some seq)
      {c c' : PagedKvCache ρ} {a a' : BlockAllocator ρ} (hc : seq.caches[l]? = some c)
      (ha : s.sched.allocators[l]? = some a) (hm : PagedKvCache.CacheMove c a c' a') :
      LedgerMove chainHash s
        ⟨s.sched.setRunning i { seq with caches := seq.caches.set l c' } (s.sched.allocators.set l a'),
          s.prefixCache⟩
  | register (i startBlock total : Nat) {seq : SequenceState ρ} (hi : s.sched.running[i]? = some seq) :
      LedgerMove chainHash s (s.register chainHash seq startBlock total)
  | progress (i : Nat) {seq seq' : SequenceState ρ} (hi : s.sched.running[i]? = some seq)
      (hcaches : seq'.caches = seq.caches) :
      LedgerMove chainHash s ⟨s.sched.setRunning i seq' s.sched.allocators, s.prefixCache⟩

/-- The states reached from fresh pools and an empty prefix cache. -/
inductive LedgerReach (chainHash : List Token → UInt64 → UInt64) (config : SchedulerConfig)
    (as : List (BlockAllocator ρ)) : EngineState ρ → Prop
  | start (cache : PrefixCache) (hempty : cache.entries.entries = []) :
      LedgerReach chainHash config as ⟨.new config as, cache⟩
  | move {s s' : EngineState ρ} (h : LedgerReach chainHash config as s)
      (hm : LedgerMove chainHash s s') : LedgerReach chainHash config as s'

variable {chainHash : List Token → UInt64 → UInt64}

theorem LedgerMove.ledger {s s' : EngineState ρ} (h : s.sched.Ledger s.prefixCache)
    (hm : LedgerMove chainHash s s') : s'.sched.Ledger s'.prefixCache := by
  cases hm with
  | addRequest prompt maxTokens => exact Scheduler.addRequest_ledger h prompt maxTokens
  | launch => exact Scheduler.launch_ledger h
  | preempt i => exact Scheduler.preempt_ledger h i
  | retire => exact Scheduler.retireFinished_ledger h
  | abortAllRunning => exact Scheduler.abortAllRunning_ledger h
  | abortSequence id => exact Scheduler.abortSequence_ledger h id
  | abortAll => exact Scheduler.abortAll_ledger h
  | evictLru he => exact Scheduler.evictLru_ledger h he
  | lookup tokens blockSize => exact Scheduler.lookup_ledger chainHash h tokens blockSize
  | plan i hi => exact plan_ledger chainHash h hi
  | prepopulateBlock i l id hi hc ha hid =>
      apply h.updateCache hi hc ha
      refine fun env howns => PagedKvCache.prepopulateBlock_owns howns ?_
      rw [(h.conserved l _ ha).2]
      exact List.count_pos_iff.2 (List.mem_append_left _ hid)
  | cache i l hi hc ha hm => exact h.updateCache hi hc ha fun env howns => hm.owns howns
  | register i startBlock total hi => exact register_ledger chainHash h hi startBlock total
  | progress i hi hcaches =>
      apply h.setRunning hi rfl (congrArg List.length hcaches)
      intro rest hcons
      rwa [hcaches]

theorem LedgerReach.ledger {config : SchedulerConfig} {as : List (BlockAllocator ρ)} {blockSize : Nat}
    (hpools : FreshPools blockSize as) {s : EngineState ρ} (h : LedgerReach chainHash config as s) :
    s.sched.Ledger s.prefixCache := by
  induction h with
  | start cache hempty => exact Scheduler.start_ledger hpools config hempty
  | move _ hm ih => exact hm.ledger ih

end

/-! ## The engine's moves -/

section

variable [Inhabited ρ] (chainHash : List Token → UInt64 → UInt64)

open Relation (ReflTransGen)

theorem evictUntil_moves (s : Scheduler ρ) (reserved fuel : Nat) (cache : PrefixCache) :
    let e := Scheduler.evictUntil reserved fuel cache s.allocators
    ReflTransGen (LedgerMove chainHash) ⟨s, cache⟩ ⟨{ s with allocators := e.2 }, e.1⟩ := by
  induction fuel generalizing s cache with
  | zero => exact .refl
  | succ fuel ih =>
      unfold Scheduler.evictUntil
      split
      · cases he : cache.evictLru s.allocators with
        | none => exact .refl
        | some r =>
            have hrest := ih { s with allocators := r.2 } r.1
            exact .head (.evictLru he) hrest
      · exact .refl

theorem serveBlock_moves (t : Scheduler.Turn ρ) (id : SequenceId) :
    ReflTransGen (LedgerMove chainHash) ⟨t.sched, t.cache⟩
      ⟨(Scheduler.serveBlock t id).sched, (Scheduler.serveBlock t id).cache⟩ := by
  have hevict := evictUntil_moves chainHash t.sched t.reserved t.cache.entries.entries.length t.cache
  unfold Scheduler.serveBlock
  simp only at hevict ⊢
  split
  · split
    · exact hevict
    · exact hevict
  · simp only
    split
    next i _ => exact hevict.tail (.preempt i)
    · exact hevict

theorem evictFor_moves (blockSize reserved : Nat) (seq : SequenceState ρ) (s : Scheduler ρ) (fuel : Nat)
    (cache : PrefixCache) (needed free : Nat) :
    let e := Scheduler.evictFor chainHash blockSize reserved seq fuel (cache, s.allocators, needed, free)
    ReflTransGen (LedgerMove chainHash) ⟨s, cache⟩ ⟨{ s with allocators := e.2.1 }, e.1⟩ := by
  induction fuel generalizing s cache needed free with
  | zero => exact .refl
  | succ fuel ih =>
      unfold Scheduler.evictFor
      split
      · cases he : cache.evictLru s.allocators with
        | none => exact .refl
        | some r =>
            have hrest := ih { s with allocators := r.2 } r.1
              (Scheduler.blocksNeededForPrefill chainHash blockSize seq r.1)
              (Scheduler.numFreeBlocks r.2 - reserved)
            exact .head (.evictLru he) hrest
      · exact .refl

theorem roomFor_moves (t : Scheduler.Turn ρ) (seq : SequenceState ρ) (free : Nat) :
    let e := Scheduler.roomFor chainHash t seq free
    ReflTransGen (LedgerMove chainHash) ⟨t.sched, t.cache⟩
      ⟨{ t.sched with allocators := e.2.1 }, e.1⟩ := by
  unfold Scheduler.roomFor
  simp only
  split
  · have hlookup : LedgerMove chainHash ⟨t.sched, t.cache⟩
        ⟨t.sched, t.cache.touch chainHash seq.allTokens t.sched.blockSize⟩ := .lookup _ _
    exact .head hlookup (evictFor_moves chainHash _ _ _ t.sched _ _ _ _)
  · exact .refl

theorem launch_moves {s : Scheduler ρ} {seq : SequenceState ρ} {waiting : List (SequenceState ρ)}
    (hw : s.waiting = seq :: waiting) (cache : PrefixCache) :
    LedgerMove chainHash ⟨s, cache⟩
      ⟨{ s with
        waiting
        running := s.running ++ [{ seq with status := .running, phase := .prefill }] }, cache⟩ := by
  have h : LedgerMove chainHash ⟨s, cache⟩ ⟨s.launch, cache⟩ := .launch
  rwa [Scheduler.launch_cons hw] at h

theorem admitWaiting_moves (t : Scheduler.Turn ρ) (fuel free : Nat) (prefilled : Bool) :
    ReflTransGen (LedgerMove chainHash) ⟨t.sched, t.cache⟩
      ⟨(Scheduler.admitWaiting chainHash fuel t free prefilled).sched,
        (Scheduler.admitWaiting chainHash fuel t free prefilled).cache⟩ := by
  induction fuel generalizing t free prefilled with
  | zero => exact .refl
  | succ fuel ih =>
      by_cases hroom : t.sched.running.length < t.sched.config.maxNumSequences ∧ 0 < t.budget
      · cases hw : t.sched.waiting with
        | nil =>
            rw [Scheduler.admitWaiting, if_pos hroom]
            simp only [hw]
            exact .refl
        | cons seq waiting =>
            rw [Scheduler.admit_cons chainHash hroom hw]
            have hmoves := roomFor_moves chainHash t seq free
            generalize Scheduler.roomFor chainHash t seq free = e at hmoves
            simp only
            split
            · exact hmoves
            · split
              · exact hmoves
              · refine hmoves.trans
                  (.head (@launch_moves _ _ chainHash { t.sched with allocators := e.2.1 } _ _ hw e.1) ?_)
                exact ih
                  { t with
                    cache := e.1
                    sched := { t.sched with
                      allocators := e.2.1, waiting
                      running := t.sched.running ++ [{ seq with status := .running, phase := .prefill }] }
                    scheduled := t.scheduled ++ [(seq.id, .prefill)]
                    budget := t.budget - seq.allTokens.length } _ _
      · rw [Scheduler.admitWaiting, if_neg hroom]

/-- A scheduling step is a chain of lookups, evictions, preemptions and launches. -/
theorem schedule_moves (s : Scheduler ρ) (cache : PrefixCache) :
    ReflTransGen (LedgerMove chainHash) ⟨s, cache⟩
      ⟨(s.schedule chainHash cache).sched, (s.schedule chainHash cache).cache⟩ := by
  unfold Scheduler.schedule
  simp only
  refine ReflTransGen.trans ?_ (admitWaiting_moves chainHash _ _ _ _)
  refine List.foldlRecOn (motive := fun t : Scheduler.Turn ρ =>
    ReflTransGen (LedgerMove chainHash) ⟨s, cache⟩ ⟨t.sched, t.cache⟩) _ _ .refl fun t ht id _ => ?_
  exact ht.trans (serveBlock_moves chainHash t id)

omit [Inhabited ρ] in
theorem sampleToken_caches (seq : SequenceState ρ) (token : Token) (isStop : Bool) :
    (sampleToken seq token isStop).caches = seq.caches := by
  cases isStop <;> rfl

variable {chainHash}

theorem EngineMove.moves {s s' : EngineState ρ} (hm : EngineMove chainHash s s') :
    ReflTransGen (LedgerMove chainHash) s s' := by
  cases hm with
  | addRequest prompt maxTokens => exact .single (.addRequest prompt maxTokens)
  | schedule => exact schedule_moves chainHash s.sched s.prefixCache
  | forward hm =>
      cases hm with
      | plan i hi => exact .single (.plan i hi)
      | cache i l hi hc ha hm => exact .single (.cache i l hi hc ha hm)
      | sample i hi _ token isStop => exact .single (.progress i hi (sampleToken_caches _ token isStop))
      | register i startBlock total hi => exact .single (.register i startBlock total hi)
  | retire => exact .single .retire
  | abortAllRunning => exact .single .abortAllRunning
  | abortSequence id => exact .single (.abortSequence id)
  | abortAll => exact .single .abortAll

theorem LedgerReach.moves {config : SchedulerConfig} {as : List (BlockAllocator ρ)} {s s' : EngineState ρ}
    (h : LedgerReach chainHash config as s) (hm : ReflTransGen (LedgerMove chainHash) s s') :
    LedgerReach chainHash config as s' := by
  induction hm with
  | refl => exact h
  | tail _ hm ih => exact .move ih hm

/-- Every state of an engine is one of these. -/
theorem EngineReach.ledgerReach {config : SchedulerConfig} {as : List (BlockAllocator ρ)}
    {s : EngineState ρ} (h : EngineReach chainHash config as s) : LedgerReach chainHash config as s := by
  induction h with
  | start => exact .start _ rfl
  | startDisabled => exact .start _ rfl
  | move _ hm ih => exact ih.moves hm.moves

end

/-! ## The counts -/

/-- The entries that hold a block of a layer. -/
def PrefixCache.entriesHolding (c : PrefixCache) (l b : Nat) : Nat :=
  c.entries.entries.countP fun e => e.2.blockIds[l]? == some b

/-- How often the tables of the sequences list a block of a layer. -/
def tablesHolding (seqs : List (SequenceState ρ)) (l b : Nat) : Nat :=
  (seqs.map fun seq => (blockIdsAt seq.caches l).count b).sum

theorem held_count (c : PrefixCache) (seqs : List (SequenceState ρ)) (l b : Nat) :
    (c.entriesAt l ++ seqsAt seqs l).count b = c.entriesHolding l b + tablesHolding seqs l b := by
  rw [List.count_append, PrefixCache.entriesAt, List.count_filterMap, seqsAt, List.count_flatMap]
  rfl

/-- Where no table lists the block twice, it is the tables that are counted. -/
theorem tablesHolding_of_nodup {seqs : List (SequenceState ρ)} {l : Nat}
    (h : ∀ seq ∈ seqs, (blockIdsAt seq.caches l).Nodup) (b : Nat) :
    tablesHolding seqs l b = seqs.countP fun seq => (blockIdsAt seq.caches l).contains b := by
  induction seqs with
  | nil => rfl
  | cons seq seqs ih =>
      have hrest := ih fun x hx => h x (List.mem_cons_of_mem _ hx)
      have hone := (h seq List.mem_cons_self).count (a := b)
      unfold tablesHolding at hrest ⊢
      rw [List.map_cons, List.sum_cons, hrest, List.countP_cons, hone, Nat.add_comm]
      simp only [List.contains_iff_mem]

/-- Everybody gone and the prefix cache empty, every block is free. -/
theorem Scheduler.Ledger.allFree {s : Scheduler ρ} {cache : PrefixCache} (h : Ledger s cache)
    (hlive : s.live = []) (hempty : cache.entries.entries = []) {l : Nat} {a : BlockAllocator ρ}
    (ha : s.allocators[l]? = some a) :
    (∀ b, a.refCount b = 0) ∧ (∀ b, b < a.numBlocks → b ∈ a.freeList) ∧ a.numFree = a.maxBlocks := by
  obtain ⟨hwf, hcount⟩ := h.conserved l a ha
  have hzero : ∀ b, a.refCount b = 0 := by
    intro b
    rw [hcount, held_count, hlive, PrefixCache.entriesHolding, hempty]
    rfl
  exact ⟨hzero, fun b hb => (hwf.free_iff b).2 ⟨hb, hzero b⟩, BlockAllocator.numFree_of_unheld hwf hzero⟩

/-- The prefix cache gives one entry up. -/
def Evicts (s s' : EngineState ρ) : Prop :=
  ∃ cache as, s.prefixCache.evictLru s.sched.allocators = some (cache, as) ∧
    s' = ⟨{ s.sched with allocators := as }, cache⟩

theorem evicts_ledger {s s' : EngineState ρ} (h : s.sched.Ledger s.prefixCache)
    (he : Relation.ReflTransGen Evicts s s') :
    s'.sched.Ledger s'.prefixCache ∧ s'.sched.live = s.sched.live := by
  induction he with
  | refl => exact ⟨h, rfl⟩
  | tail _ hstep ih =>
      obtain ⟨cache, as, he, rfl⟩ := hstep
      exact ⟨Scheduler.evictLru_ledger ih.1 he, ih.2⟩

end Oxydllm.Kv
