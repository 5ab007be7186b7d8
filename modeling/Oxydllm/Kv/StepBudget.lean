/-
# Oxydllm.Kv.StepBudget — the tokens a step bundles.

The decodes of a step never pass `max_tokens_per_step`. A first prompt is admitted whatever its length and
later ones only within what is left, so that a step passes the budget with one prompt at most; but what lets
that prompt in is that it does not fit what the decodes left, not that it is longer than a step.
-/
import Oxydllm.Kv.Promised

namespace Oxydllm.Kv

variable {ρ : Type}

namespace Scheduler

/-! ## What a step carries -/

/-- The decodes of a step, a token each. -/
def decodes (r : Turn ρ) : Nat := r.scheduled.countP fun p => p.2 = .decode

/-- The prompts of a step. -/
def prefillIds (r : Turn ρ) : List SequenceId :=
  (r.scheduled.filter fun p => p.2 = .prefill).map (·.1)

/-- The sequences of these prompts: the last ones to join the running set. -/
def prompts (r : Turn ρ) : List (SequenceState ρ) :=
  r.sched.running.drop (r.sched.running.length - (prefillIds r).length)

def promptTokens (seqs : List (SequenceState ρ)) : Nat := (seqs.map (·.allTokens.length)).sum

/-- The contract of `schedule`: a step is within the budget, or has a single prompt, and one that is longer
than the budget. -/
structure WithinBudget (budget : Nat) (r : Turn ρ) : Prop where
  prompts : (prompts r).map (·.id) = prefillIds r
  decodes : decodes r ≤ budget
  exceeds : budget < Scheduler.decodes r + promptTokens (Scheduler.prompts r) →
    ∃ seq, Scheduler.prompts r = [seq] ∧ budget < seq.allTokens.length

section

variable (chainHash : List Token → UInt64 → UInt64)

/-- The step after its decodes, before it admits a prompt. -/
def served (s : Scheduler ρ) (cache : PrefixCache) : Turn ρ :=
  let scan := scanRunning s.blockSize s.running s.config.maxTokensPerStep
  scan.2.1.foldl serveBlock ⟨s, cache, scan.1, scan.2.2, 0⟩

/-- There is room for a prompt in front, whatever its length: for a sequence, for a token and for its
blocks. -/
def Admits (t : Turn ρ) (seq : SequenceState ρ) (free : Nat) : Prop :=
  t.sched.running.length < t.sched.config.maxNumSequences ∧ 0 < t.budget ∧
    (roomFor chainHash t seq free).2.2.1 ≤ (roomFor chainHash t seq free).2.2.2

/-- The prompt in front is let in with more tokens than the decodes have left, though it is no longer than a
step. -/
def FirstOverruns (s : Scheduler ρ) (cache : PrefixCache) : Prop :=
  let t := served s cache
  ∃ seq ∈ t.sched.waiting.head?,
    Admits chainHash t seq (numFreeBlocks t.sched.allocators - t.reserved) ∧
      t.budget < seq.allTokens.length ∧ seq.allTokens.length ≤ s.config.maxTokensPerStep

end

/-! ## The decodes -/

/-- Only decodes are scheduled, and each took one token off the budget. -/
structure Spent (budget : Nat) (t : Turn ρ) : Prop where
  decodes : ∀ p ∈ t.scheduled, p.2 = .decode
  spent : t.scheduled.length + t.budget = budget

theorem scanRunning_spent (blockSize : Nat) (running : List (SequenceState ρ)) (budget : Nat) :
    (∀ p ∈ (scanRunning blockSize running budget).1, p.2 = SequencePhase.decode) ∧
      (scanRunning blockSize running budget).1.length + (scanRunning blockSize running budget).2.2 = budget := by
  induction running generalizing budget with
  | nil => exact ⟨fun _ h => absurd h List.not_mem_nil, Nat.zero_add _⟩
  | cons seq rest ih =>
      unfold scanRunning
      split
      · exact ih budget
      · split
        next hpos =>
          obtain ⟨hall, hsum⟩ := ih (budget - 1)
          refine ⟨List.forall_mem_cons.2 ⟨rfl, hall⟩, ?_⟩
          dsimp only
          rw [List.length_cons]
          omega
        · exact ih budget

theorem serveBlock_spent {budget : Nat} {t : Turn ρ} (h : Spent budget t) (id : SequenceId) :
    Spent budget (serveBlock t id) := by
  have hspent := h.spent
  unfold serveBlock
  simp only
  split
  · split
    next hpos =>
      refine ⟨fun p hp => ?_, ?_⟩
      · rcases List.mem_append.1 hp with hp | hp
        · exact h.decodes p hp
        · rw [List.mem_singleton.1 hp]
      · rw [List.length_append, List.length_singleton]
        dsimp only
        omega
    · exact ⟨h.decodes, hspent⟩
  · exact ⟨h.decodes, hspent⟩

theorem served_spent (s : Scheduler ρ) (cache : PrefixCache) :
    Spent s.config.maxTokensPerStep (served s cache) := by
  have hfold : ∀ (ids : List SequenceId) {t : Turn ρ}, Spent s.config.maxTokensPerStep t →
      Spent s.config.maxTokensPerStep (ids.foldl serveBlock t) := by
    intro ids
    induction ids with
    | nil => exact fun ht => ht
    | cons id ids ih => exact fun ht => ih (serveBlock_spent ht id)
  obtain ⟨hall, hsum⟩ := scanRunning_spent s.blockSize s.running s.config.maxTokensPerStep
  exact hfold _ ⟨hall, hsum⟩

/-! ## The prompts -/

section

variable (chainHash : List Token → UInt64 → UInt64)

/-- After a first prompt the loop admits what fits the budget left. -/
theorem admitWaiting_later {t : Turn ρ} (fuel free : Nat) :
    ∃ new, Admitted t (admitWaiting chainHash fuel t free true) new ∧ promptTokens new ≤ t.budget ∧
      (t.budget = 0 → new = []) := by
  induction fuel generalizing t free with
  | zero => exact ⟨[], .none rfl rfl rfl, Nat.zero_le _, fun _ => rfl⟩
  | succ fuel ih =>
      by_cases hroom : t.sched.running.length < t.sched.config.maxNumSequences ∧ 0 < t.budget
      · cases hw : t.sched.waiting with
        | nil =>
            rw [admitWaiting, if_pos hroom]
            simp only [hw]
            exact ⟨[], .none rfl rfl rfl, Nat.zero_le _, fun _ => rfl⟩
        | cons seq waiting =>
            rw [admit_cons chainHash hroom hw]
            generalize roomFor chainHash t seq free = e
            simp only
            split
            · exact ⟨[], .none rfl rfl rfl, Nat.zero_le _, fun _ => rfl⟩
            · split
              · exact ⟨[], .none rfl rfl rfl, Nat.zero_le _, fun _ => rfl⟩
              next hfits =>
                obtain ⟨new, hnew, hsum, -⟩ := ih
                  (t := { t with
                    cache := e.1
                    sched := { t.sched with
                      allocators := e.2.1, waiting
                      running := t.sched.running ++ [{ seq with status := .running, phase := .prefill }] }
                    scheduled := t.scheduled ++ [(seq.id, .prefill)]
                    budget := t.budget - seq.allTokens.length }) (e.2.2.2 - e.2.2.1)
                refine ⟨seq :: new, hnew.cons, ?_, fun hzero => absurd hzero hroom.2.ne'⟩
                unfold promptTokens at hsum ⊢
                rw [List.map_cons, List.sum_cons]
                simp only [and_true, not_lt] at hfits hsum
                omega
      · rw [admitWaiting, if_neg hroom]
        exact ⟨[], .none rfl rfl rfl, Nat.zero_le _, fun _ => rfl⟩

/-- The first prompt is admitted, whatever its length, when there is room for it; the others share what it
leaves of the budget. -/
theorem admitWaiting_first (t : Turn ρ) (free : Nat) :
    ∃ new, Admitted t (admitWaiting chainHash t.sched.waiting.length t free false) new ∧
      ((new = [] ∧ ∀ seq ∈ t.sched.waiting.head?, ¬ Admits chainHash t seq free) ∨
        ∃ seq rest, seq ∈ t.sched.waiting.head? ∧ new = seq :: rest ∧ Admits chainHash t seq free ∧
          promptTokens rest ≤ t.budget - seq.allTokens.length ∧
          (t.budget ≤ seq.allTokens.length → rest = [])) := by
  cases hw : t.sched.waiting with
  | nil => exact ⟨[], .none rfl rfl rfl, .inl ⟨rfl, fun seq hseq => by cases hseq⟩⟩
  | cons seq waiting =>
      rw [List.length_cons]
      by_cases hroom : t.sched.running.length < t.sched.config.maxNumSequences ∧ 0 < t.budget
      · rw [admit_cons chainHash hroom hw]
        unfold Admits
        simp only [Bool.false_eq_true, and_false, if_false]
        split
        next hfull =>
          refine ⟨[], .none rfl rfl rfl, .inl ⟨rfl, fun other hother hadmits => ?_⟩⟩
          cases hother
          exact absurd hadmits.2.2 (not_le.2 hfull)
        next hfits =>
          obtain ⟨rest, hrest, hsum, hzero⟩ := admitWaiting_later chainHash
            (t := { t with
              cache := (roomFor chainHash t seq free).1
              sched := { t.sched with
                allocators := (roomFor chainHash t seq free).2.1, waiting
                running := t.sched.running ++ [{ seq with status := .running, phase := .prefill }] }
              scheduled := t.scheduled ++ [(seq.id, .prefill)]
              budget := t.budget - seq.allTokens.length })
            waiting.length ((roomFor chainHash t seq free).2.2.2 - (roomFor chainHash t seq free).2.2.1)
          exact ⟨seq :: rest, hrest.cons, .inr ⟨seq, rest, rfl, rfl, ⟨hroom.1, hroom.2, not_lt.1 hfits⟩, hsum,
            fun hle => hzero (Nat.sub_eq_zero_of_le hle)⟩⟩
      · rw [admitWaiting, if_neg hroom]
        refine ⟨[], .none rfl rfl rfl, .inl ⟨rfl, fun other _ hadmits => ?_⟩⟩
        exact hroom ⟨hadmits.1, hadmits.2.1⟩

/-! ## The step as a whole -/

/-- What a step carries, from what it admits after its decodes. -/
theorem Admitted.carries {budget : Nat} {t r : Turn ρ} {new : List (SequenceState ρ)} (ht : Spent budget t)
    (h : Admitted t r new) :
    decodes r = t.scheduled.length ∧ (prompts r).map (·.id) = prefillIds r ∧
      prompts r = new.map fun seq => { seq with status := .running, phase := .prefill } := by
  have hids : prefillIds r = new.map (·.id) := by
    have hnone : t.scheduled.filter (fun p => decide (p.2 = SequencePhase.prefill)) = [] := by
      rw [List.filter_eq_nil_iff]
      intro p hp
      rw [ht.decodes p hp]
      decide
    have hall : (new.map fun seq => (seq.id, SequencePhase.prefill)).filter
        (fun p => decide (p.2 = SequencePhase.prefill)) = new.map fun seq => (seq.id, SequencePhase.prefill) := by
      rw [List.filter_eq_self]
      intro p hp
      obtain ⟨seq, -, rfl⟩ := List.mem_map.1 hp
      rfl
    unfold prefillIds
    rw [h.scheduled, List.filter_append, hnone, hall, List.nil_append, List.map_map]
    rfl
  have hprompts : prompts r = new.map fun seq => { seq with status := .running, phase := .prefill } := by
    unfold prompts
    rw [hids, h.running, List.length_append, List.length_map, List.length_map, Nat.add_sub_cancel,
      List.drop_left]
  refine ⟨?_, ?_, hprompts⟩
  · unfold decodes
    rw [h.scheduled, List.countP_append]
    have hnone : (new.map fun seq => (seq.id, SequencePhase.prefill)).countP
        (fun p => decide (p.2 = SequencePhase.decode)) = 0 := by
      rw [List.countP_eq_zero]
      intro p hp
      obtain ⟨seq, -, rfl⟩ := List.mem_map.1 hp
      exact fun hc => by cases of_decide_eq_true hc
    rw [hnone, Nat.add_zero, List.countP_eq_length]
    intro p hp
    exact decide_eq_true (ht.decodes p hp)
  · rw [hprompts, hids, List.map_map]
    rfl

theorem promptTokens_running (seqs : List (SequenceState ρ)) :
    promptTokens (seqs.map fun seq => { seq with status := .running, phase := .prefill }) =
      promptTokens seqs := by
  unfold promptTokens
  rw [List.map_map]
  rfl

/-- A step keeps its contract exactly when the first prompt it lets in fits what the decodes left of the
budget or is longer than a step. -/
theorem schedule_withinBudget_iff (s : Scheduler ρ) (cache : PrefixCache) :
    WithinBudget s.config.maxTokensPerStep (schedule chainHash s cache) ↔
      ¬ FirstOverruns chainHash s cache := by
  have ht := served_spent s cache
  have hspent := ht.spent
  obtain ⟨new, hnew, hcases⟩ := admitWaiting_first chainHash (served s cache)
    (numFreeBlocks (served s cache).sched.allocators - (served s cache).reserved)
  obtain ⟨hdecodes, hids, hprompts⟩ := hnew.carries ht
  change decodes (schedule chainHash s cache) = _ at hdecodes
  change (prompts (schedule chainHash s cache)).map (·.id) = prefillIds (schedule chainHash s cache) at hids
  change prompts (schedule chainHash s cache) = _ at hprompts
  have htokens := promptTokens_running new
  rw [← hprompts] at htokens
  unfold FirstOverruns
  constructor
  · rintro h ⟨seq, hseq, hadmits, hover, hle⟩
    rcases hcases with ⟨-, hnone⟩ | ⟨first, rest, hfirst, rfl, -, -, hrest⟩
    · exact hnone seq hseq hadmits
    · cases Option.mem_unique hseq hfirst
      rw [hrest hover.le] at htokens hprompts
      obtain ⟨only, honly, hlong⟩ := h.exceeds (by
        rw [htokens, hdecodes, promptTokens, List.map_singleton, List.sum_singleton]
        omega)
      rw [hprompts, List.map_singleton] at honly
      cases honly
      exact absurd hlong (not_lt.2 hle)
  · intro hnot
    refine ⟨hids, by omega, fun hexceeds => ?_⟩
    rw [htokens, hdecodes] at hexceeds
    rcases hcases with ⟨rfl, -⟩ | ⟨first, rest, hfirst, rfl, hadmits, hsum, hrest⟩
    · exact absurd hexceeds (by rw [promptTokens, List.map_nil, List.sum_nil]; omega)
    · rw [promptTokens, List.map_cons, List.sum_cons] at hexceeds
      change promptTokens rest ≤ _ at hsum
      rcases Nat.lt_or_ge (served s cache).budget first.allTokens.length with hlt | hge
      · rw [hrest hlt.le] at hprompts
        refine ⟨_, hprompts, ?_⟩
        show _ < first.allTokens.length
        by_contra hshort
        exact hnot ⟨first, hfirst, hadmits, hlt, not_lt.1 hshort⟩
      · unfold promptTokens at hsum
        omega

end

end Scheduler

/-! ## A prompt of a step's length behind a decode

Four tokens a step. A first request is decoding when a prompt of four tokens arrives: the step carries the
decode and the whole prompt, five tokens. -/

def overrunPool : BlockAllocator Nat := ⟨[[0, 0, 0, 0, 0, 0]], [0, 1, 2], [0, 0, 0], 3, 3, 3, 2, none⟩

def overrunHash : List Token → UInt64 → UInt64 := fun block prev => prev + block.length.toUInt64 + 1

/-- The cache of the first request after its prompt of one token, with the pool. -/
def overrunAppended : PagedKvCache Nat × BlockAllocator Nat × List Nat :=
  ((PagedKvCache.new overrunPool).append (fun _ => true) [] overrunPool [7]).get (by decide)

theorem overrun_append :
    PagedKvCache.CacheMove (.new overrunPool) overrunPool overrunAppended.1 overrunAppended.2.1 :=
  .append (fun _ => true) [] [7] (Option.some_get (by decide)).symm

def overrunState (waiting running : List (SequenceState Nat)) (pool : BlockAllocator Nat) (nextId : Nat) :
    EngineState Nat :=
  ⟨⟨⟨4, 4⟩, waiting, running, [pool], nextId, 2⟩, .ofDisabled⟩

/-- The first request at its prompt, its tokens in its cache or not yet. -/
def overrunFirst (c : PagedKvCache Nat) (pool : BlockAllocator Nat) : EngineState Nat :=
  overrunState [] [⟨0, 0, [1], .running, .prefill, [c], 0, 2⟩] pool 1

/-- The first request after its first token, a prompt of four tokens waiting. -/
def overrunWaiting : EngineState Nat :=
  overrunState [⟨1, 0, [2, 3, 4, 5], .waiting, .prefill, [.new overrunAppended.2.1], 0, 1⟩]
    [⟨0, 1, [1, 9], .running, .decode, [overrunAppended.1], 1, 2⟩] overrunAppended.2.1 2

theorem overrun_reach : EngineReach overrunHash ⟨4, 4⟩ [overrunPool] overrunWaiting := by
  have hrun : EngineReach overrunHash ⟨4, 4⟩ [overrunPool] (overrunFirst (.new overrunPool) overrunPool) :=
    .move (.move .startDisabled (.addRequest [1] 2 (by decide) (by decide)))
      (.schedule (List.forall_mem_nil _))
  have hprefill : EngineReach overrunHash ⟨4, 4⟩ [overrunPool]
      (overrunFirst overrunAppended.1 overrunAppended.2.1) :=
    .move hrun (.forward (@ForwardMove.cache _ _ _ (overrunFirst (.new overrunPool) overrunPool) 0 0
      ⟨0, 0, [1], .running, .prefill, [.new overrunPool], 0, 2⟩ rfl _ _ _ _ rfl rfl overrun_append))
  have hsampled : EngineReach overrunHash ⟨4, 4⟩ [overrunPool]
      (overrunState [] [⟨0, 1, [1, 9], .running, .decode, [overrunAppended.1], 1, 2⟩] overrunAppended.2.1 1) :=
    .move hprefill (.forward (@ForwardMove.sample _ _ _ (overrunFirst overrunAppended.1 overrunAppended.2.1) 0
      ⟨0, 0, [1], .running, .prefill, [overrunAppended.1], 0, 2⟩ rfl nofun 9 false))
  exact .move hsampled (.addRequest [2, 3, 4, 5] 1 (by decide) (by decide))

/-- Five tokens in a step of four, and no prompt longer than four. -/
theorem overrun_exceeds :
    ¬ ∀ s : EngineState Nat, EngineReach overrunHash ⟨4, 4⟩ [overrunPool] s →
      Scheduler.WithinBudget s.sched.config.maxTokensPerStep
        (s.sched.schedule overrunHash s.prefixCache) := by
  intro h
  obtain ⟨seq, hseq, hlong⟩ := (h overrunWaiting overrun_reach).exceeds (by decide)
  have hlen : (Scheduler.prompts (overrunWaiting.sched.schedule overrunHash overrunWaiting.prefixCache)).map
      (·.allTokens.length) = [4] := by decide
  rw [hseq, List.map_singleton] at hlen
  rw [List.cons.inj hlen |>.1] at hlong
  exact absurd hlong (by decide)

end Oxydllm.Kv
