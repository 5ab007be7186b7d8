/-
# Oxydllm.Kv.LiveIds — the ids a scheduler holds.

A step of the engine moves sequences between the queue and the running set and changes what they hold, but
not which there are; only `retireFinished` and the aborts remove any, and they report which.
-/
import Oxydllm.Kv.EngineRun

namespace Oxydllm.Kv

variable {ρ : Type}

namespace Scheduler

/-- The ids of the sequences running or waiting. -/
def liveIds (s : Scheduler ρ) : List SequenceId := (s.running ++ s.waiting).map (·.id)

/-! ## A step -/

theorem preempt_liveIds (s : Scheduler ρ) (i : Nat) : (s.preempt i).liveIds.Perm s.liveIds := by
  unfold preempt
  cases hi : s.running[i]? with
  | none => exact .refl _
  | some seq =>
      show ((swapRemove s.running i ++ _ :: s.waiting).map (·.id)).Perm _
      have hperm := ((swapRemove_perm hi).append_right s.waiting).map fun x : SequenceState ρ => x.id
      refine List.Perm.trans ?_ hperm.symm
      rw [List.cons_append, List.map_cons, List.map_append, List.map_cons, List.map_append]
      exact List.perm_middle

theorem serveBlock_liveIds (t : Turn ρ) (id : SequenceId) :
    (serveBlock t id).sched.liveIds.Perm t.sched.liveIds := by
  unfold serveBlock
  simp only
  split
  · split <;> exact .refl _
  · dsimp only
    split
    · exact (preempt_liveIds _ _).trans (.refl _)
    · exact .refl _

theorem admit_liveIds {chainHash : List Token → UInt64 → UInt64} (fuel : Nat) (t : Turn ρ) (free : Nat)
    (prefilled : Bool) :
    (admitWaiting chainHash fuel t free prefilled).sched.liveIds.Perm t.sched.liveIds := by
  induction fuel generalizing t free prefilled with
  | zero => exact .refl _
  | succ fuel ih =>
      by_cases hroom : t.sched.running.length < t.sched.config.maxNumSequences ∧ 0 < t.budget
      · cases hw : t.sched.waiting with
        | nil =>
            unfold admitWaiting
            rw [if_pos hroom, hw]
        | cons seq waiting =>
            rw [admit_cons chainHash hroom hw]
            simp only
            split
            · exact .refl _
            · split
              · exact .refl _
              · refine (ih _ _ _).trans (List.Perm.of_eq ?_)
                unfold liveIds
                rw [hw]
                simp
      · unfold admitWaiting
        rw [if_neg hroom]

theorem schedule_liveIds {chainHash : List Token → UInt64 → UInt64} (s : Scheduler ρ)
    (cache : PrefixCache) : (schedule chainHash s cache).sched.liveIds.Perm s.liveIds := by
  have hfold : ∀ (ids : List SequenceId) (t : Turn ρ),
      (ids.foldl serveBlock t).sched.liveIds.Perm t.sched.liveIds := by
    intro ids
    induction ids with
    | nil => exact fun t => .refl _
    | cons id ids ih => exact fun t => (ih _).trans (serveBlock_liveIds t id)
  exact (admit_liveIds _ _ _ _).trans (hfold _ ⟨s, cache, _, _, 0⟩)

/-! ## Leaving -/

theorem dropRunning_liveIds {s : Scheduler ρ} {id : SequenceId} (h : id ∈ s.running.map (·.id)) :
    ∃ i, s.runningIndex id = some i ∧
      (s.running.map (·.id)).Perm (id :: (s.dropRunning i).running.map (·.id)) ∧
        (s.dropRunning i).waiting = s.waiting := by
  obtain ⟨i, seq, hidx, hi, hid⟩ := runningIndex_of_mem h
  have hdrop : s.dropRunning i = { s with
      running := swapRemove s.running i, allocators := (seq.clearCaches s.allocators).2 } := by
    unfold dropRunning
    rw [hi]
  refine ⟨i, hidx, ?_, by rw [hdrop]⟩
  rw [hdrop, ← hid]
  exact (swapRemove_perm hi).map (·.id)

/-- The finished sequences leave, the others stay. -/
theorem retireFinished_liveIds {s : Scheduler ρ} (h : s.liveIds.Nodup) :
    s.liveIds.Perm (s.retireFinished.1 ++ s.retireFinished.2.liveIds) := by
  have hfold : ∀ (drop : Scheduler ρ → SequenceId → Scheduler ρ),
      (∀ s id i, s.runningIndex id = some i → drop s id = s.dropRunning i) →
        ∀ (ids : List SequenceId) (s : Scheduler ρ), ids.Nodup →
          (∀ id ∈ ids, id ∈ s.running.map (·.id)) →
            (s.running.map (·.id)).Perm (ids ++ (ids.foldl drop s).running.map (·.id)) ∧
              (ids.foldl drop s).waiting = s.waiting := by
    intro drop hdrop ids
    induction ids with
    | nil => exact fun s _ _ => ⟨.refl _, rfl⟩
    | cons id ids ih =>
        intro s hnd hmem
        obtain ⟨hnew, hnd⟩ := List.nodup_cons.1 hnd
        obtain ⟨i, hidx, hperm, hwait⟩ := dropRunning_liveIds (hmem id List.mem_cons_self)
        have hrest : ∀ x ∈ ids, x ∈ (s.dropRunning i).running.map (·.id) := by
          intro x hx
          rcases List.mem_cons.1 (hperm.mem_iff.1 (hmem x (List.mem_cons_of_mem _ hx))) with rfl | hx'
          · exact absurd hx hnew
          · exact hx'
        obtain ⟨h1, h2⟩ := ih (s.dropRunning i) hnd hrest
        rw [List.foldl_cons, hdrop _ _ _ hidx]
        exact ⟨hperm.trans (h1.cons id), h2.trans hwait⟩
  have hrun : (s.running.map (·.id)).Nodup := by
    unfold liveIds at h
    rw [List.map_append] at h
    exact h.of_append_left
  have hsub : ((s.running.filter (·.status == .finished)).map (·.id)).Sublist (s.running.map (·.id)) :=
    List.filter_sublist.map _
  obtain ⟨drop, hdrop, hret⟩ : ∃ drop : Scheduler ρ → SequenceId → Scheduler ρ,
      (∀ s id i, s.runningIndex id = some i → drop s id = s.dropRunning i) ∧
        s.retireFinished.2 = s.retireFinished.1.foldl drop s := by
    refine ⟨_, ?_, rfl⟩
    intro s id i hidx
    simp only [hidx]
  obtain ⟨h1, h2⟩ := hfold drop hdrop s.retireFinished.1 s (hsub.nodup hrun) fun id hid => hsub.subset hid
  rw [← hret] at h1 h2
  unfold liveIds
  rw [List.map_append, List.map_append, ← List.append_assoc, h2]
  exact h1.append_right _

/-- What `abort_sequence` was asked for is gone afterwards, whether it was there or not. -/
theorem abortSequence_liveIds (s : Scheduler ρ) (id : SequenceId) :
    (s.abortSequence id).2.liveIds.Perm (s.liveIds.erase id) := by
  unfold abortSequence
  by_cases hrun : id ∈ s.running.map (·.id)
  · obtain ⟨i, hidx, hperm, hwait⟩ := dropRunning_liveIds hrun
    rw [hidx]
    show (s.dropRunning i).liveIds.Perm _
    have hall : s.liveIds.Perm (id :: (s.dropRunning i).liveIds) := by
      unfold liveIds
      rw [List.map_append, List.map_append, hwait]
      exact hperm.append_right _
    have := hall.erase id
    rw [List.erase_cons_head] at this
    exact this.symm
  · rw [runningIndex_none hrun]
    simp only
    cases hfind : s.waiting.findIdx? (·.id == id) with
    | none =>
        have hnot : id ∉ s.liveIds := by
          unfold liveIds
          rw [List.map_append, List.mem_append]
          exact fun hc => hc.elim hrun (findId_none.1 hfind)
        rw [List.erase_of_not_mem hnot]
    | some i =>
        obtain ⟨hlt, hp, -⟩ := List.findIdx?_eq_some_iff_getElem.1 hfind
        have hid : s.waiting[i].id = id := by simpa using hp
        simp only [List.getElem?_eq_getElem hlt]
        show ((s.running ++ s.waiting.eraseIdx i).map (·.id)).Perm _
        have hw : s.waiting.Perm (s.waiting[i] :: s.waiting.eraseIdx i) :=
          (List.getElem_cons_eraseIdx_perm hlt).symm
        have hall : s.liveIds.Perm (id :: (s.running ++ s.waiting.eraseIdx i).map (·.id)) := by
          unfold liveIds
          refine ((hw.append_left s.running).map (·.id)).trans ?_
          rw [List.map_append, List.map_cons, List.map_append, hid]
          exact List.perm_middle
        have := hall.erase id
        rw [List.erase_cons_head] at this
        exact this.symm

theorem abortAllRunning_liveIds (s : Scheduler ρ) :
    s.liveIds = s.abortAllRunning.1 ++ s.abortAllRunning.2.liveIds := by
  unfold liveIds
  rw [List.map_append]
  rfl

theorem abortAll_liveIds (s : Scheduler ρ) : s.abortAll.1 = s.liveIds ∧ s.abortAll.2.liveIds = [] := by
  unfold liveIds
  rw [List.map_append]
  exact ⟨rfl, rfl⟩

theorem addRequest_liveIds (s : Scheduler ρ) (prompt : List Token) (maxTokens : Nat) :
    (s.addRequest prompt maxTokens).liveIds = s.liveIds ++ [s.nextId] := by
  unfold liveIds addRequest
  simp

end Scheduler

theorem ForwardMove.liveIds [Inhabited ρ] {chainHash : List Token → UInt64 → UInt64}
    {s s' : EngineState ρ} (hm : ForwardMove chainHash s s') : s'.sched.liveIds = s.sched.liveIds := by
  have hset : ∀ {i : Nat} {seq seq' : SequenceState ρ} (as : List (BlockAllocator ρ)),
      s.sched.running[i]? = some seq → seq'.id = seq.id →
        (s.sched.setRunning i seq' as).liveIds = s.sched.liveIds := by
    intro i seq seq' as hi hid
    obtain ⟨hlt, hget⟩ := List.getElem?_eq_some_iff.1 hi
    have hrun : (s.sched.running.set i seq').map (·.id) = s.sched.running.map (·.id) := by
      rw [List.map_set, hid, ← hget]
      have := @List.set_getElem_self _ (s.sched.running.map (·.id)) i (by simpa using hlt)
      rwa [List.getElem_map] at this
    unfold Scheduler.liveIds
    rw [List.map_append, List.map_append]
    show (s.sched.running.set i seq').map (·.id) ++ _ = _
    rw [hrun]
    rfl
  cases hm with
  | plan i hi =>
      apply hset _ hi
      unfold planPrefill
      simp only
      split <;> rfl
  | cache i l hi hc ha hm => exact hset _ hi rfl
  | sample i hi hst token isStop =>
      apply hset _ hi
      cases isStop <;> rfl
  | register i startBlock total hi => rfl

end Oxydllm.Kv
