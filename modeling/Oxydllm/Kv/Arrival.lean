/-
# Oxydllm.Kv.Arrival — in what order waiting prompts are admitted.

Prompts queue in the order of their ids and are admitted from the front. A preempted sequence goes back to
the front, one at a time and in the order of the running vector: the queue stays in order exactly when each
of them is older than all that waits by then.
-/
import Oxydllm.Kv.Bookkeeping
import Oxydllm.Kv.Promised

namespace Oxydllm.Kv

variable {ρ : Type}

namespace Scheduler

open IndexedScheduler

def waitingIds (s : Scheduler ρ) : List SequenceId := s.waiting.map (·.id)

/-- The prompts a step admits. -/
def admittedIds (t : Turn ρ) : List SequenceId := (t.scheduled.filter (·.2 == .prefill)).map (·.1)

/-- Whatever the prefix cache gives up, no block is left for a decode. -/
def turnedAway (t : Turn ρ) : Bool :=
  numFreeBlocks (evictUntil t.reserved t.cache.entries.entries.length t.cache t.sched.allocators).2 ≤
    t.reserved

/-- Each decode that is turned away is older than all that waits by then. -/
def inOrder : List SequenceId → Turn ρ → Bool
  | [], _ => true
  | id :: ids, t =>
      (!turnedAway t || t.sched.waiting.all fun seq => id < seq.id) && inOrder ids (serveBlock t id)

/-- The sequences the next step preempts are each older than all that waits by then. -/
def PreemptsInOrder (s : Scheduler ρ) (cache : PrefixCache) : Prop :=
  let scan := scanRunning s.blockSize s.running s.config.maxTokensPerStep
  inOrder scan.2.1 ⟨s, cache, scan.1, scan.2.2, 0⟩ = true

instance (s : Scheduler ρ) (cache : PrefixCache) : Decidable (s.PreemptsInOrder cache) := by
  unfold PreemptsInOrder
  infer_instance

/-! ## The decodes -/

theorem serveBlock_waiting {t : Turn ρ} {id : SequenceId} (h : id ∈ t.sched.running.map (·.id)) :
    (serveBlock t id).sched.waitingIds =
      if turnedAway t then id :: t.sched.waitingIds else t.sched.waitingIds := by
  unfold serveBlock turnedAway
  simp only [decide_eq_true_eq]
  generalize evictUntil t.reserved t.cache.entries.entries.length t.cache t.sched.allocators = e
  by_cases hfree : numFreeBlocks e.2 ≤ t.reserved
  · rw [if_neg (not_lt.2 hfree), if_pos hfree]
    obtain ⟨i, seq, hidx, hi, rfl⟩ := @runningIndex_of_mem _ { t.sched with allocators := e.2 } _ h
    rw [hidx]
    show (preempt { t.sched with allocators := e.2 } i).waitingIds = _
    unfold preempt
    simp only [hi]
    rfl
  · rw [if_pos (not_le.1 hfree), if_neg hfree]
    split <;> rfl

/-- The queue after the decodes, with what was preempted in front. -/
theorem foldl_serveBlock_waiting {ids : List SequenceId} {t : Turn ρ}
    (hserve : Serving t.scheduled ids t.sched.running) :
    t.sched.waitingIds <:+ (ids.foldl serveBlock t).sched.waitingIds := by
  induction ids generalizing t with
  | nil => exact List.suffix_rfl
  | cons id ids ih =>
      refine List.IsSuffix.trans ?_ (ih (serveBlock_serving hserve))
      rw [serveBlock_waiting (hserve.running id (List.mem_append_right _ List.mem_cons_self))]
      split
      · exact List.suffix_cons _ _
      · exact List.suffix_rfl

/-- A queue in order stays so exactly when the preemptions come in order. -/
theorem foldl_inOrder {ids : List SequenceId} {t : Turn ρ}
    (hserve : Serving t.scheduled ids t.sched.running)
    (hwaiting : t.sched.waitingIds.Pairwise (· < ·)) :
    (ids.foldl serveBlock t).sched.waitingIds.Pairwise (· < ·) ↔ inOrder ids t = true := by
  induction ids generalizing t with
  | nil => exact iff_of_true hwaiting rfl
  | cons id ids ih =>
      have hstep := serveBlock_waiting (hserve.running id (List.mem_append_right _ List.mem_cons_self))
      have hserve' := serveBlock_serving hserve
      rw [inOrder, Bool.and_eq_true, Bool.or_eq_true, List.foldl_cons]
      by_cases hturned : turnedAway t = true
      · rw [if_pos hturned] at hstep
        by_cases hold : (t.sched.waiting.all fun seq => id < seq.id) = true
        · have hfront : ∀ x ∈ t.sched.waitingIds, id < x := by
            intro x hx
            obtain ⟨seq, hseq, rfl⟩ := List.mem_map.1 hx
            simpa using List.all_eq_true.1 hold seq hseq
          have hsorted : (serveBlock t id).sched.waitingIds.Pairwise (· < ·) := by
            rw [hstep]
            exact List.pairwise_cons.2 ⟨hfront, hwaiting⟩
          rw [ih hserve' hsorted]
          exact ⟨fun h => ⟨.inr hold, h⟩, fun h => h.2⟩
        · -- what is pushed in front of something older stays there
          refine iff_of_false (fun hsorted => hold ?_) fun h => ?_
          · have hsuffix := (foldl_serveBlock_waiting hserve').sublist
            rw [hstep] at hsuffix
            have hfront := (List.pairwise_cons.1 (hsorted.sublist hsuffix)).1
            refine List.all_eq_true.2 fun seq hseq => ?_
            simpa using hfront seq.id (List.mem_map_of_mem hseq)
          · rcases h.1 with hnot | hall
            · rw [hturned] at hnot
              cases hnot
            · exact hold hall
      · rw [if_neg hturned] at hstep
        rw [ih hserve' (hstep ▸ hwaiting)]
        rw [Bool.not_eq_true] at hturned
        simp [hturned]

/-! ## The admissions -/

/-- Prompts are admitted from the front of the queue. -/
theorem admitWaiting_front (chainHash : List Token → UInt64 → UInt64) (fuel : Nat) (t : Turn ρ)
    (free : Nat) (prefilled : Bool) :
    ∃ ids, t.sched.waitingIds =
        ids ++ (admitWaiting chainHash fuel t free prefilled).sched.waitingIds ∧
      (admitWaiting chainHash fuel t free prefilled).scheduled =
        t.scheduled ++ ids.map fun id => (id, .prefill) := by
  have hstop : ∀ (r : Turn ρ), r.sched.waitingIds = t.sched.waitingIds → r.scheduled = t.scheduled →
      ∃ ids, t.sched.waitingIds = ids ++ r.sched.waitingIds ∧
        r.scheduled = t.scheduled ++ ids.map fun id => (id, .prefill) :=
    fun r hw hs => ⟨[], hw.symm, hs.trans (List.append_nil _).symm⟩
  induction fuel generalizing t free prefilled with
  | zero => exact hstop _ rfl rfl
  | succ fuel ih =>
      by_cases hroom : t.sched.running.length < t.sched.config.maxNumSequences ∧ 0 < t.budget
      · cases hw : t.sched.waiting with
        | nil =>
            rw [admitWaiting, if_pos hroom]
            simp only [hw]
            exact hstop _ rfl rfl
        | cons seq waiting =>
            rw [admit_cons chainHash hroom hw]
            generalize roomFor chainHash t seq free = e
            simp only
            split
            · exact hstop _ rfl rfl
            · split
              · exact hstop _ rfl rfl
              · obtain ⟨ids, hids, hsched⟩ := ih
                  { t with
                    cache := e.1
                    sched := { t.sched with
                      allocators := e.2.1, waiting
                      running := t.sched.running ++ [{ seq with status := .running, phase := .prefill }] }
                    scheduled := t.scheduled ++ [(seq.id, .prefill)]
                    budget := t.budget - seq.allTokens.length } (e.2.2.2 - e.2.2.1) true
                  fun r h1 h2 => ⟨[], h1.symm, h2.trans (List.append_nil _).symm⟩
                refine ⟨seq.id :: ids, ?_, ?_⟩
                · rw [List.cons_append, ← hids]
                  show t.sched.waiting.map (·.id) = _
                  rw [hw]
                  rfl
                · rw [hsched, List.map_cons, List.append_assoc, List.singleton_append]
      · rw [admitWaiting, if_neg hroom]
        exact hstop _ rfl rfl

/-- What a step admits and what it leaves waiting are, in this order, the queue after the decodes. -/
theorem schedule_queue (chainHash : List Token → UInt64 → UInt64) {s : Scheduler ρ}
    (hids : (s.running.map (·.id)).Nodup) (hwaiting : s.waitingIds.Pairwise (· < ·)) (cache : PrefixCache) :
    (admittedIds (schedule chainHash s cache) ++
        (schedule chainHash s cache).sched.waitingIds).Pairwise (· < ·) ↔
      s.PreemptsInOrder cache := by
  have hserve := scanRunning_serving s.blockSize s.config.maxTokensPerStep hids
  obtain ⟨-, hdecodes⟩ := decodes_reserve hids cache
  unfold PreemptsInOrder schedule
  simp only at hdecodes ⊢
  generalize scanRunning s.blockSize s.running s.config.maxTokensPerStep = scan at hserve hdecodes
  rw [← foldl_inOrder (t := ⟨s, cache, scan.1, scan.2.2, 0⟩) hserve hwaiting]
  generalize scan.2.1.foldl serveBlock ⟨s, cache, scan.1, scan.2.2, 0⟩ = t at hdecodes
  obtain ⟨ids, hqueue, hsched⟩ := admitWaiting_front chainHash t.sched.waiting.length t
    (numFreeBlocks t.sched.allocators - t.reserved) false
  have hnone : t.scheduled.filter (·.2 == .prefill) = [] := by
    refine List.filter_eq_nil_iff.2 fun p hp => ?_
    rw [hdecodes p hp]
    decide
  have hall : (ids.map fun id => (id, SequencePhase.prefill)).filter (·.2 == .prefill) =
      ids.map fun id => (id, SequencePhase.prefill) := by
    refine List.filter_eq_self.2 fun p hp => ?_
    obtain ⟨id, -, rfl⟩ := List.mem_map.1 hp
    rfl
  have hadmitted : admittedIds (admitWaiting chainHash t.sched.waiting.length t
      (numFreeBlocks t.sched.allocators - t.reserved) false) = ids := by
    unfold admittedIds
    rw [hsched, List.filter_append, hnone, List.nil_append, hall, List.map_map]
    exact List.map_id _
  rw [hadmitted, ← hqueue]

/-! ## Leaving -/

theorem retireFinished_waiting (s : Scheduler ρ) : s.retireFinished.2.waiting = s.waiting := by
  unfold retireFinished
  refine List.foldlRecOn (motive := fun s₁ : Scheduler ρ => s₁.waiting = s.waiting) _ _ rfl
    fun s₁ h₁ id _ => ?_
  split
  · refine Eq.trans ?_ h₁
    unfold dropRunning
    split <;> rfl
  · exact h₁

theorem abortSequence_waiting (s : Scheduler ρ) (id : SequenceId) :
    (s.abortSequence id).2.waitingIds.Sublist s.waitingIds := by
  unfold abortSequence
  split
  · have hsame : ∀ i, (s.dropRunning i).waitingIds = s.waitingIds := by
      intro i
      unfold dropRunning
      split <;> rfl
    rw [hsame]
  · split
    · split
      · exact (List.eraseIdx_sublist _ _).map _
      · exact .refl _
    · exact .refl _

end Scheduler

/-! ## Runs -/

variable [Inhabited ρ]

/-- The runs of the engine in which every step preempts in order. -/
inductive OrderedReach (chainHash : List Token → UInt64 → UInt64) (config : SchedulerConfig)
    (as : List (BlockAllocator ρ)) : EngineState ρ → Prop
  | start : OrderedReach chainHash config as ⟨.new config as, .new 512⟩
  | startDisabled : OrderedReach chainHash config as ⟨.new config as, .ofDisabled⟩
  | move {s s' : EngineState ρ} (h : OrderedReach chainHash config as s)
      (hm : EngineMove chainHash s s')
      (horder : s'.sched = (s.sched.schedule chainHash s.prefixCache).sched →
        s.sched.PreemptsInOrder s.prefixCache) : OrderedReach chainHash config as s'

/-- The queue is in the order in which its requests came. -/
structure InArrivalOrder (s : Scheduler ρ) : Prop where
  nodup : s.liveIds.Nodup
  older : ∀ id ∈ s.liveIds, id < s.nextId
  waiting : s.waitingIds.Pairwise (· < ·)

omit [Inhabited ρ] in
theorem InArrivalOrder.running {s : Scheduler ρ} (h : InArrivalOrder s) :
    (s.running.map (·.id)).Nodup := by
  have := h.nodup
  unfold Scheduler.liveIds at this
  rw [List.map_append] at this
  exact this.of_append_left

omit [Inhabited ρ] in
/-- Fewer sequences, or the same, and the queue in the same order. -/
theorem InArrivalOrder.fewer {s s' : Scheduler ρ} (h : InArrivalOrder s)
    (hids : s'.liveIds.Subperm s.liveIds) (hnext : s'.nextId = s.nextId)
    (hwaiting : s'.waitingIds.Pairwise (· < ·)) : InArrivalOrder s' := by
  obtain ⟨ids, hperm, hsub⟩ := id hids
  exact ⟨hperm.nodup_iff.1 (hsub.nodup h.nodup), fun id hid => hnext ▸ h.older id (hids.subset hid),
    hwaiting⟩

theorem EngineMove.inArrivalOrder {chainHash : List Token → UInt64 → UInt64} {s s' : EngineState ρ}
    (h : InArrivalOrder s.sched) (hm : EngineMove chainHash s s')
    (horder : s'.sched = (s.sched.schedule chainHash s.prefixCache).sched →
      s.sched.PreemptsInOrder s.prefixCache) : InArrivalOrder s'.sched := by
  cases hm with
  | addRequest prompt maxTokens hprompt hcap =>
      have hids := Scheduler.addRequest_liveIds s.sched prompt maxTokens
      have hwaiting : (s.sched.addRequest prompt maxTokens).waitingIds =
          s.sched.waitingIds ++ [s.sched.nextId] := List.map_append
      have hlast : ∀ id ∈ s.sched.waitingIds, id < s.sched.nextId := by
        intro id hid
        apply h.older
        unfold Scheduler.liveIds
        rw [List.map_append]
        exact List.mem_append_right _ hid
      refine ⟨?_, ?_, ?_⟩
      · show (s.sched.addRequest prompt maxTokens).liveIds.Nodup
        rw [hids]
        refine List.nodup_append.2 ⟨h.nodup, List.nodup_singleton _, fun x hx y hy => ?_⟩
        rw [List.mem_singleton.1 hy]
        exact Nat.ne_of_lt (h.older x hx)
      · show ∀ id ∈ (s.sched.addRequest prompt maxTokens).liveIds, id < s.sched.nextId + 1
        rw [hids]
        intro id hid
        rcases List.mem_append.1 hid with hid | hid
        · exact Nat.lt_succ_of_lt (h.older id hid)
        · rw [List.mem_singleton.1 hid]
          exact Nat.lt_succ_self _
      · show (s.sched.addRequest prompt maxTokens).waitingIds.Pairwise (· < ·)
        rw [hwaiting]
        refine List.pairwise_append.2 ⟨h.waiting, List.pairwise_singleton _ _, fun x hx y hy => ?_⟩
        rw [List.mem_singleton.1 hy]
        exact hlast x hx
  | schedule hactive =>
      have hqueue := (Scheduler.schedule_queue chainHash h.running h.waiting s.prefixCache).2 (horder rfl)
      exact h.fewer (Scheduler.schedule_liveIds s.sched s.prefixCache).subperm
        (Scheduler.schedule_frame s.sched s.prefixCache).nextId (List.pairwise_append.1 hqueue).2.1
  | forward hm =>
      refine h.fewer (List.Perm.of_eq hm.liveIds).subperm hm.frame.nextId ?_
      have hwaiting : s'.sched.waitingIds = s.sched.waitingIds := by cases hm <;> rfl
      rw [hwaiting]
      exact h.waiting
  | retire =>
      refine h.fewer ?_ (Scheduler.retireFinished_frame s.sched).nextId ?_
      · refine List.Subperm.trans ?_ (Scheduler.retireFinished_liveIds h.nodup).symm.subperm
        exact (List.sublist_append_right _ _).subperm
      · unfold Scheduler.waitingIds
        rw [Scheduler.retireFinished_waiting]
        exact h.waiting
  | abortAllRunning =>
      refine h.fewer ?_ rfl h.waiting
      rw [Scheduler.abortAllRunning_liveIds s.sched]
      exact (List.sublist_append_right _ _).subperm
  | abortSequence id =>
      refine h.fewer ?_ (Scheduler.abortSequence_frame s.sched id).nextId
        (h.waiting.sublist (Scheduler.abortSequence_waiting s.sched id))
      exact (Scheduler.abortSequence_liveIds s.sched id).subperm.trans (List.erase_sublist).subperm
  | abortAll =>
      refine h.fewer ?_ rfl List.Pairwise.nil
      rw [(Scheduler.abortAll_liveIds s.sched).2]
      exact List.nil_subperm

theorem OrderedReach.inArrivalOrder {chainHash : List Token → UInt64 → UInt64} {config : SchedulerConfig}
    {as : List (BlockAllocator ρ)} {s : EngineState ρ} (h : OrderedReach chainHash config as s) :
    InArrivalOrder s.sched := by
  induction h with
  | start => exact ⟨List.nodup_nil, List.forall_mem_nil _, List.Pairwise.nil⟩
  | startDisabled => exact ⟨List.nodup_nil, List.forall_mem_nil _, List.Pairwise.nil⟩
  | move _ hm horder ih => exact hm.inArrivalOrder ih horder

/-- As long as the steps preempt in order, the queue is in the order of arrival, and the prompts a step
admits are the oldest of it, oldest first. -/
theorem first_come_first_served (chainHash : List Token → UInt64 → UInt64) {config : SchedulerConfig}
    {as : List (BlockAllocator ρ)} {s : EngineState ρ} (h : OrderedReach chainHash config as s) :
    s.sched.waitingIds.Pairwise (· < ·) ∧
      ((Scheduler.admittedIds (s.sched.schedule chainHash s.prefixCache) ++
          (s.sched.schedule chainHash s.prefixCache).sched.waitingIds).Pairwise (· < ·) ↔
        s.sched.PreemptsInOrder s.prefixCache) :=
  ⟨h.inArrivalOrder.waiting,
    Scheduler.schedule_queue chainHash h.inArrivalOrder.running h.inArrivalOrder.waiting s.prefixCache⟩

/-! ## Two preempted in one step

Three prompts of a block each in a pool of three blocks. After the first token each decode needs a block:
the first is sent away, the second takes its block, and the third, sent away next, goes in front of it. -/

def queuePool : BlockAllocator Nat := ⟨[[0, 0, 0, 0, 0, 0]], [0, 1, 2], [0, 0, 0], 3, 3, 3, 2, none⟩

def queueHash : List Token → UInt64 → UInt64 := fun block prev => prev + block.length.toUInt64 + 1

/-- A fresh cache after a prompt of two tokens, with the pool. -/
def queueAppend (pool : BlockAllocator Nat) : Option (PagedKvCache Nat × BlockAllocator Nat × List Nat) :=
  (PagedKvCache.new queuePool).append (fun _ => true) [] pool [7, 8]

def queueFirst : PagedKvCache Nat × BlockAllocator Nat × List Nat :=
  (queueAppend queuePool).get (by decide)

def queueSecond : PagedKvCache Nat × BlockAllocator Nat × List Nat :=
  (queueAppend queueFirst.2.1).get (by decide)

def queueThird : PagedKvCache Nat × BlockAllocator Nat × List Nat :=
  (queueAppend queueSecond.2.1).get (by decide)

/-- A sequence at its prompt. -/
def queueSeq (id : SequenceId) (status : SequenceStatus) (c : PagedKvCache Nat) : SequenceState Nat :=
  ⟨id, 0, [1, 2], status, .prefill, [c], 0, 4⟩

/-- A sequence after its first token. -/
def queueDecode (id : SequenceId) (c : PagedKvCache Nat) : SequenceState Nat :=
  ⟨id, 1, [1, 2, 9], .running, .decode, [c], 2, 4⟩

def queueState (running : List (SequenceState Nat)) (pool : BlockAllocator Nat) : EngineState Nat :=
  ⟨⟨⟨4, 16⟩, [], running, [pool], 3, 2⟩, .ofDisabled⟩

/-- The three in the running set, their prompts in their caches or not yet. -/
def queueRunning (a b c : PagedKvCache Nat) (pool : BlockAllocator Nat) : EngineState Nat :=
  queueState [queueSeq 0 .running a, queueSeq 1 .running b, queueSeq 2 .running c] pool

def queueDecoding : EngineState Nat :=
  queueState [queueDecode 0 queueFirst.1, queueDecode 1 queueSecond.1, queueDecode 2 queueThird.1]
    queueThird.2.1

theorem queue_reach : EngineReach queueHash ⟨4, 16⟩ [queuePool] queueDecoding := by
  have hrunning : EngineReach queueHash ⟨4, 16⟩ [queuePool]
      (queueRunning (.new queuePool) (.new queuePool) (.new queuePool) queuePool) :=
    .move (.move (.move (.move .startDisabled (.addRequest [1, 2] 4 (by decide) (by decide)))
      (.addRequest [1, 2] 4 (by decide) (by decide))) (.addRequest [1, 2] 4 (by decide) (by decide)))
      (.schedule (List.forall_mem_nil _))
  have hmove : ∀ {pool : BlockAllocator Nat} (h : (queueAppend pool).isSome),
      PagedKvCache.CacheMove (.new queuePool) pool ((queueAppend pool).get h).1
        ((queueAppend pool).get h).2.1 :=
    fun h => .append (fun _ => true) [] [7, 8] (Option.some_get h).symm
  have hfirst : EngineReach queueHash ⟨4, 16⟩ [queuePool]
      (queueRunning queueFirst.1 (.new queuePool) (.new queuePool) queueFirst.2.1) :=
    .move hrunning (.forward (@ForwardMove.cache _ _ _
      (queueRunning (.new queuePool) (.new queuePool) (.new queuePool) queuePool) 0 0
      (queueSeq 0 .running (.new queuePool)) rfl _ _ _ _ rfl rfl (hmove (by decide))))
  have hsecond : EngineReach queueHash ⟨4, 16⟩ [queuePool]
      (queueRunning queueFirst.1 queueSecond.1 (.new queuePool) queueSecond.2.1) :=
    .move hfirst (.forward (@ForwardMove.cache _ _ _
      (queueRunning queueFirst.1 (.new queuePool) (.new queuePool) queueFirst.2.1) 1 0
      (queueSeq 1 .running (.new queuePool)) rfl _ _ _ _ rfl rfl (hmove (by decide))))
  have hthird : EngineReach queueHash ⟨4, 16⟩ [queuePool]
      (queueRunning queueFirst.1 queueSecond.1 queueThird.1 queueThird.2.1) :=
    .move hsecond (.forward (@ForwardMove.cache _ _ _
      (queueRunning queueFirst.1 queueSecond.1 (.new queuePool) queueSecond.2.1) 2 0
      (queueSeq 2 .running (.new queuePool)) rfl _ _ _ _ rfl rfl (hmove (by decide))))
  have hsampled : EngineReach queueHash ⟨4, 16⟩ [queuePool]
      (queueState [queueDecode 0 queueFirst.1, queueSeq 1 .running queueSecond.1,
        queueSeq 2 .running queueThird.1] queueThird.2.1) :=
    .move hthird (.forward (@ForwardMove.sample _ _ _
      (queueRunning queueFirst.1 queueSecond.1 queueThird.1 queueThird.2.1) 0
      (queueSeq 0 .running queueFirst.1) rfl nofun 9 false))
  have hsampled : EngineReach queueHash ⟨4, 16⟩ [queuePool]
      (queueState [queueDecode 0 queueFirst.1, queueDecode 1 queueSecond.1,
        queueSeq 2 .running queueThird.1] queueThird.2.1) :=
    .move hsampled (.forward (@ForwardMove.sample _ _ _
      (queueState [queueDecode 0 queueFirst.1, queueSeq 1 .running queueSecond.1,
        queueSeq 2 .running queueThird.1] queueThird.2.1) 1
      (queueSeq 1 .running queueSecond.1) rfl nofun 9 false))
  exact .move hsampled (.forward (@ForwardMove.sample _ _ _
    (queueState [queueDecode 0 queueFirst.1, queueDecode 1 queueSecond.1,
      queueSeq 2 .running queueThird.1] queueThird.2.1) 2
    (queueSeq 2 .running queueThird.1) rfl nofun 9 false))

/-- The youngest of the three waits in front of the oldest. -/
theorem queue_out_of_order :
    ¬ ∀ s : EngineState Nat, EngineReach queueHash ⟨4, 16⟩ [queuePool] s →
      s.sched.waitingIds.Pairwise (· < ·) := by
  intro h
  exact absurd (h _ (.move queue_reach (.schedule (by unfold Scheduler.Active; decide)))) (by decide)

/-- Without preemption the queue is served in order. -/
theorem queue_in_order :
    let s := ((Scheduler.new ⟨4, 16⟩ [queuePool]).addRequest [1, 2] 4)
    s.waitingIds.Pairwise (· < ·) ∧
      ((Scheduler.admittedIds (s.schedule queueHash .ofDisabled) ++
          (s.schedule queueHash .ofDisabled).sched.waitingIds).Pairwise (· < ·) ↔
        s.PreemptsInOrder .ofDisabled) := by
  have hreach : OrderedReach queueHash ⟨4, 16⟩ [queuePool]
      ⟨(Scheduler.new ⟨4, 16⟩ [queuePool]).addRequest [1, 2] 4, .ofDisabled⟩ :=
    .move .startDisabled (.addRequest [1, 2] 4 (by decide) (by decide)) fun _ => by decide
  exact first_come_first_served queueHash hreach

end Oxydllm.Kv
