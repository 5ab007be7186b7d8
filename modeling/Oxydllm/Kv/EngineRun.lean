/-
# Oxydllm.Kv.EngineRun — the runs of scheduler, caches and prefix cache together.

A step of the engine is a run of these moves: `schedule`, for every prompt `plan` (the prefix-cache
lookup), the caches' own operations of the forward, `sample`, `register`, and `retire`. Requests arrive
and leave between them. The moves may come in any order here, so what holds of all runs holds of the
engine's.
-/
import Oxydllm.Kv.Schedule

namespace Oxydllm.Kv

variable {ρ : Type}

/-! ## The moves -/

namespace PagedKvCache

variable [Inhabited ρ]

/-- One operation of a cache on the pool of its layer. -/
inductive CacheMove (c : PagedKvCache ρ) (a : BlockAllocator ρ) :
    PagedKvCache ρ → BlockAllocator ρ → Prop
  | append (device : Nat → Bool) (spare : List (List ρ)) (new : List ρ) {c' : PagedKvCache ρ}
      {a' : BlockAllocator ρ} {out : List ρ} (h : c.append device spare a new = some (c', a', out)) :
      CacheMove c a c' a'
  | flushPending {c' : PagedKvCache ρ} {a' : BlockAllocator ρ} (h : c.flushPending a = some (c', a')) :
      CacheMove c a c' a'
  | discardPending : CacheMove c a c.discardPending a
  | setPoolWrites (on : Bool) : CacheMove c a (c.setPoolWrites on) a
  | setNumTokens (n : Nat) : CacheMove c a (c.setNumTokens n) a
  | truncateTo (n : Nat) {c' : PagedKvCache ρ} {a' : BlockAllocator ρ}
      (h : c.truncateTo a n = some (c', a')) : CacheMove c a c' a'
  | clear : CacheMove c a (c.clear a).1 (c.clear a).2

theorem CacheMove.owns {env : Nat → Nat} {c c' : PagedKvCache ρ} {a a' : BlockAllocator ρ}
    (h : Owns env c a) (hm : CacheMove c a c' a') : OwnStep env c' a a' := by
  cases hm with
  | append device spare new h' => exact append_owns h h'
  | flushPending h' => exact (flushPending_owns h h').1
  | discardPending => exact h.of_frame rfl rfl
  | setPoolWrites on => exact h.of_frame rfl rfl
  | setNumTokens n => exact setNumTokens_owns h n
  | truncateTo n h' => exact truncateTo_owns h h'
  | clear => exact clear_owns h

end PagedKvCache

/-- One layer's cache takes blocks over and then holds `numCached` tokens. -/
def takeOver (ids : List Nat) (numCached : Nat) (c : PagedKvCache ρ) (a : BlockAllocator ρ) :
    PagedKvCache ρ × BlockAllocator ρ :=
  let taken := ids.foldl (fun s id => PagedKvCache.prepopulateBlock s.1 s.2 id) (c, a)
  (taken.1.setNumTokens numCached, taken.2)

/-- The blocks `matched` taken over in every layer; `matched` has the layers' ids of one block after the
other. -/
def prepopulateLayers (matched : List (List Nat)) (numCached : Nat) :
    Nat → List (PagedKvCache ρ) → List (BlockAllocator ρ) →
      List (PagedKvCache ρ) × List (BlockAllocator ρ)
  | l, c :: cs, a :: as =>
      let taken := takeOver (matched.filterMap (·[l]?)) numCached c a
      let r := prepopulateLayers matched numCached (l + 1) cs as
      (taken.1 :: r.1, taken.2 :: r.2)
  | _, cs, as => (cs, as)

/-- `plan_prefill_inputs` for one sequence. -/
def planPrefill (chainHash : List Token → UInt64 → UInt64) (blockSize : Nat) (cache : PrefixCache)
    (as : List (BlockAllocator ρ)) (seq : SequenceState ρ) :
    PrefixCache × List (BlockAllocator ρ) × SequenceState ρ :=
  let found := cache.lookup chainHash seq.allTokens blockSize
  let n := min found.1.length ((seq.allTokens.length - 1) / blockSize)
  if n > 0 then
    let r := prepopulateLayers (found.1.take n) (n * blockSize) 0 seq.caches as
    (found.2, r.2, { seq with caches := r.1 })
  else (found.2, as, seq)

/-- The block ids a finished prefill hands to the prefix cache. -/
def newBlockIds (seq : SequenceState ρ) (startBlock total : Nat) : List (List Nat) :=
  (List.range' startBlock (total - startBlock)).map fun i =>
    seq.caches.filterMap fun c => c.table.blockIds[i]?

/-- The sampled token appended, with its effect on the sequence. -/
def sampleToken (seq : SequenceState ρ) (token : Token) (isStop : Bool) : SequenceState ρ :=
  let seq := seq.appendToken token
  ({ seq with numProcessedTokens := seq.allTokens.length - 1, phase := .decode }).applyToken isStop

structure EngineState (ρ : Type) where
  sched : Scheduler ρ
  prefixCache : PrefixCache

namespace Scheduler

/-- A running sequence replaced. -/
def setRunning (s : Scheduler ρ) (i : Nat) (seq : SequenceState ρ) (as : List (BlockAllocator ρ)) :
    Scheduler ρ :=
  { s with running := s.running.set i seq, allocators := as }

end Scheduler

namespace EngineState

def plan (chainHash : List Token → UInt64 → UInt64) (s : EngineState ρ) (i : Nat)
    (seq : SequenceState ρ) : EngineState ρ :=
  let r := planPrefill chainHash s.sched.blockSize s.prefixCache s.sched.allocators seq
  ⟨s.sched.setRunning i r.2.2 r.2.1, r.1⟩

def register (chainHash : List Token → UInt64 → UInt64) (s : EngineState ρ) (seq : SequenceState ρ)
    (startBlock total : Nat) : EngineState ρ :=
  let r := s.prefixCache.register chainHash seq.allTokens startBlock (newBlockIds seq startBlock total)
    s.sched.allocators s.sched.blockSize
  ⟨{ s.sched with allocators := r.2 }, r.1⟩

end EngineState

variable [Inhabited ρ]

/-- What the forward of a step and its sampling do to the running sequences. -/
inductive ForwardMove (chainHash : List Token → UInt64 → UInt64) (s : EngineState ρ) :
    EngineState ρ → Prop
  | plan (i : Nat) {seq : SequenceState ρ} (hi : s.sched.running[i]? = some seq) :
      ForwardMove chainHash s (s.plan chainHash i seq)
  | cache (i l : Nat) {seq : SequenceState ρ} (hi : s.sched.running[i]? = some seq)
      {c c' : PagedKvCache ρ} {a a' : BlockAllocator ρ} (hc : seq.caches[l]? = some c)
      (ha : s.sched.allocators[l]? = some a) (hm : PagedKvCache.CacheMove c a c' a') :
      ForwardMove chainHash s
        ⟨s.sched.setRunning i { seq with caches := seq.caches.set l c' } (s.sched.allocators.set l a'),
          s.prefixCache⟩
  | sample (i : Nat) {seq : SequenceState ρ} (hi : s.sched.running[i]? = some seq)
      (hst : seq.status ≠ .finished) (token : Token) (isStop : Bool) :
      ForwardMove chainHash s
        ⟨s.sched.setRunning i (sampleToken seq token isStop) s.sched.allocators, s.prefixCache⟩
  | register (i startBlock total : Nat) {seq : SequenceState ρ} (hi : s.sched.running[i]? = some seq) :
      ForwardMove chainHash s (s.register chainHash seq startBlock total)

inductive EngineMove (chainHash : List Token → UInt64 → UInt64) (s : EngineState ρ) :
    EngineState ρ → Prop
  | addRequest (prompt : List Token) (maxTokens : Nat) (hprompt : prompt ≠ [])
      (hcap : prompt.length + maxTokens ≤ s.sched.kvCapacityTokens) :
      EngineMove chainHash s ⟨s.sched.addRequest prompt maxTokens, s.prefixCache⟩
  | schedule (hactive : s.sched.Active) :
      EngineMove chainHash s
        ⟨(s.sched.schedule chainHash s.prefixCache).sched, (s.sched.schedule chainHash s.prefixCache).cache⟩
  | forward {s' : EngineState ρ} (hm : ForwardMove chainHash s s') : EngineMove chainHash s s'
  | retire : EngineMove chainHash s ⟨s.sched.retireFinished.2, s.prefixCache⟩
  | abortAllRunning : EngineMove chainHash s ⟨s.sched.abortAllRunning.2, s.prefixCache⟩
  | abortSequence (id : SequenceId) :
      EngineMove chainHash s ⟨(s.sched.abortSequence id).2, s.prefixCache⟩
  | abortAll : EngineMove chainHash s ⟨s.sched.abortAll.2, s.prefixCache⟩

/-- The states of an engine over its layers' pools; a model with recurrent layers has its prefix cache
disabled. -/
inductive EngineReach (chainHash : List Token → UInt64 → UInt64) (config : SchedulerConfig)
    (as : List (BlockAllocator ρ)) : EngineState ρ → Prop
  | start : EngineReach chainHash config as ⟨.new config as, .new 512⟩
  | startDisabled : EngineReach chainHash config as ⟨.new config as, .ofDisabled⟩
  | move {s s' : EngineState ρ} (h : EngineReach chainHash config as s)
      (hm : EngineMove chainHash s s') : EngineReach chainHash config as s'

/-! ## Every move keeps the invariant -/

section

omit [Inhabited ρ]

/-- What everybody else holds of the blocks of a layer. -/
theorem Conserved.owns {as : List (BlockAllocator ρ)} {cs : List (PagedKvCache ρ)}
    {held rest : Nat → List Nat} (h : Conserved as fun k => held k ++ (blockIdsAt cs k ++ rest k)) {l : Nat}
    {c : PagedKvCache ρ} {a : BlockAllocator ρ} (hc : cs[l]? = some c) (ha : as[l]? = some a) :
    PagedKvCache.Owns (fun b => (held l ++ rest l).count b) c a := by
  obtain ⟨hwf, hcount⟩ := h l a ha
  refine ⟨hwf, fun b => ?_⟩
  rw [hcount]
  show (held l ++ (cs[l]?.elim [] _ ++ rest l)).count b = _
  rw [hc, Option.elim_some]
  simp only [List.count_append]
  omega

/-- One cache changed with the pool of its layer, the other layers not. -/
theorem Conserved.setCache {as : List (BlockAllocator ρ)} {cs : List (PagedKvCache ρ)}
    {held rest : Nat → List Nat} (h : Conserved as fun k => held k ++ (blockIdsAt cs k ++ rest k)) {l : Nat}
    {c c' : PagedKvCache ρ} {a' : BlockAllocator ρ} (hc : cs[l]? = some c) (hl : l < as.length)
    (howned : PagedKvCache.Owns (fun b => (held l ++ rest l).count b) c' a') :
    Conserved (as.set l a') fun k => held k ++ (blockIdsAt (cs.set l c') k ++ rest k) := by
  obtain ⟨hlc, -⟩ := List.getElem?_eq_some_iff.1 hc
  intro k b hb
  by_cases hkl : l = k
  · subst hkl
    rw [List.getElem?_set_self hl] at hb
    cases hb
    refine ⟨howned.wf, fun b => ?_⟩
    show a'.refCount b = (held l ++ (blockIdsAt (cs.set l c') l ++ rest l)).count b
    unfold blockIdsAt
    rw [howned.count, List.getElem?_set_self hlc, Option.elim_some]
    simp only [List.count_append]
    omega
  · rw [List.getElem?_set_ne hkl] at hb
    have hsame : blockIdsAt (cs.set l c') k = blockIdsAt cs k := by
      unfold blockIdsAt
      rw [List.getElem?_set_ne hkl]
    obtain ⟨hwf, hcount⟩ := h k b hb
    refine ⟨hwf, fun x => ?_⟩
    show b.refCount x = (held k ++ (blockIdsAt (cs.set l c') k ++ rest k)).count x
    rw [hsame]
    exact hcount x

end

namespace Scheduler

omit [Inhabited ρ]

/-- What one running sequence holds and what everybody else does. -/
theorem Sound.split {s : Scheduler ρ} {cache : PrefixCache} (h : Sound s cache) {i : Nat}
    {seq : SequenceState ρ} (hi : s.running[i]? = some seq) :
    Conserved s.allocators fun l => cache.entriesAt l ++ (blockIdsAt seq.caches l ++
      (seqsAt (s.running.eraseIdx i) l ++ seqsAt s.waiting l)) := by
  obtain ⟨hlt, hget⟩ := List.getElem?_eq_some_iff.1 hi
  have hold : s.running.Perm (seq :: s.running.eraseIdx i) := by
    rw [← hget]
    exact (List.getElem_cons_eraseIdx_perm hlt).symm
  refine h.conserved.perm fun l => ?_
  refine List.Perm.append_left _ (((seqsAt_perm hold l).append_right _).trans ?_)
  rw [seqsAt_cons, List.append_assoc]

/-- A running sequence changed, with its pools and the prefix cache. -/
theorem Sound.update {s : Scheduler ρ} {cache cache' : PrefixCache} (h : Sound s cache) {i : Nat}
    {seq seq' : SequenceState ρ} (hi : s.running[i]? = some seq) {as : List (BlockAllocator ρ)}
    (hid : seq'.id = seq.id) (hlen : seq'.caches.length = seq.caches.length)
    (hsized : (seq.status ≠ .finished → Sized s.kvCapacityTokens seq) → seq'.status ≠ .finished →
      Sized s.kvCapacityTokens seq')
    (hshape : shapes as = shapes s.allocators) (hidle : cache.Idle → cache'.Idle)
    (hcons : ∀ rest : Nat → List Nat,
      Conserved s.allocators (fun l => cache.entriesAt l ++ (blockIdsAt seq.caches l ++ rest l)) →
        Conserved as fun l => cache'.entriesAt l ++ (blockIdsAt seq'.caches l ++ rest l)) :
    Sound (s.setRunning i seq' as) cache' := by
  obtain ⟨hlt, hget⟩ := List.getElem?_eq_some_iff.1 hi
  have hold : s.running.Perm (seq :: s.running.eraseIdx i) := by
    rw [← hget]
    exact (List.getElem_cons_eraseIdx_perm hlt).symm
  have hnew : (s.running.set i seq').Perm (seq' :: s.running.eraseIdx i) :=
    List.set_perm_cons_eraseIdx hlt seq'
  have hmem : seq ∈ s.running ++ s.waiting := List.mem_append_left _ (List.mem_of_getElem? hi)
  have hcases : ∀ x ∈ s.running.set i seq' ++ s.waiting, x = seq' ∨ x ∈ s.running ++ s.waiting := by
    intro x hx
    rcases List.mem_append.1 hx with hx | hx
    · rcases List.mem_cons.1 (hnew.mem_iff.1 hx) with hx | hx
      · exact .inl hx
      · exact .inr (List.mem_append_left _ (hold.mem_iff.2 (List.mem_cons_of_mem _ hx)))
    · exact .inr (List.mem_append_right _ hx)
  refine ⟨?_, h.fresh, ?_, ?_, ?_, ?_, h.queued, hidle h.idle, h.block_pos⟩
  · refine (hcons _ (h.split hi)).perm fun l => List.Perm.append_left _ ?_
    refine List.Perm.trans ?_ ((seqsAt_perm hnew.symm l).append_right _)
    rw [seqsAt_cons, List.append_assoc]
    exact .refl _
  · intro x hx
    show x.caches.length = as.length
    rw [shapes_length hshape]
    rcases hcases x hx with rfl | hx
    · exact hlen.trans (h.layers seq hmem)
    · exact h.layers x hx
  · have hids := h.ids
    have heq : ((s.running.set i seq' ++ s.waiting).map (·.id)).Perm
        ((s.running ++ s.waiting).map (·.id)) := by
      rw [List.map_append, List.map_append]
      have hhead : ((seq' :: s.running.eraseIdx i).map (·.id)).Perm
          ((seq :: s.running.eraseIdx i).map (·.id)) :=
        .of_eq (by rw [List.map_cons, List.map_cons, hid])
      exact List.Perm.append_right _ (((hnew.map _).trans hhead).trans (hold.map _).symm)
    exact heq.nodup_iff.2 hids
  · intro x hx
    rcases hcases x hx with rfl | hx
    · rw [hid]
      exact h.ids_lt seq hmem
    · exact h.ids_lt x hx
  · intro x hx hst
    show Sized (kvCapacityTokens { s with allocators := as }) x
    rw [capacity_of_shapes hshape]
    rcases hcases x hx with rfl | hx
    · exact hsized (h.sized seq hmem) hst
    · exact h.sized x hx hst

/-- Fewer sequences, their blocks given back. -/
theorem Sound.fewer {s : Scheduler ρ} {cache : PrefixCache} (h : Sound s cache)
    {running waiting gone : List (SequenceState ρ)} {as : List (BlockAllocator ρ)}
    (hperm : (s.running ++ s.waiting).Perm (gone ++ (running ++ waiting)))
    (hwaiting : ∀ x ∈ waiting, x ∈ s.waiting) (hshape : shapes as = shapes s.allocators)
    (hcons : ∀ held : Nat → List Nat,
      Conserved s.allocators (fun l => seqsAt gone l ++ held l) → Conserved as held) :
    Sound { s with running, waiting, allocators := as } cache := by
  have hsub : ∀ x ∈ running ++ waiting, x ∈ s.running ++ s.waiting := fun x hx =>
    hperm.mem_iff.2 (List.mem_append_right _ hx)
  refine ⟨hcons _ (h.conserved.perm fun l => ?_), fun x hx => h.fresh x (hwaiting x hx), ?_, ?_,
    fun x hx => h.ids_lt x (hsub x hx), ?_, fun x hx => h.queued x (hwaiting x hx), h.idle, h.block_pos⟩
  · have hall := seqsAt_perm hperm l
    rw [seqsAt_append, seqsAt_append, seqsAt_append] at hall
    exact (hall.append_left _).trans (List.perm_append_comm_assoc _ _ _)
  · intro x hx
    exact (h.layers x (hsub x hx)).trans (shapes_length hshape).symm
  · have := (hperm.map (·.id)).nodup_iff.1 h.ids
    rw [List.map_append] at this
    exact this.of_append_right
  · intro x hx hst
    show Sized (kvCapacityTokens { s with allocators := as }) x
    rw [capacity_of_shapes hshape]
    exact h.sized x (hsub x hx) hst

theorem clearOne_conserved {seq : SequenceState ρ} {as : List (BlockAllocator ρ)}
    {held : Nat → List Nat} (h : Conserved as fun l => seqsAt [seq] l ++ held l) :
    Conserved (seq.clearCaches as).2 held :=
  SequenceState.clearCaches_conserved (h.perm fun l => by
    rw [seqsAt_cons, List.append_assoc]
    exact .refl _)

theorem clearAll_conserved {seqs : List (SequenceState ρ)} {as : List (BlockAllocator ρ)}
    {held : Nat → List Nat} (h : Conserved as fun l => seqsAt seqs l ++ held l) :
    Conserved (clearAll as seqs) held ∧ shapes (clearAll as seqs) = shapes as := by
  induction seqs generalizing as with
  | nil => exact ⟨h, rfl⟩
  | cons seq seqs ih =>
      have h1 : Conserved (seq.clearCaches as).2 fun l => seqsAt seqs l ++ held l :=
        SequenceState.clearCaches_conserved (h.perm fun l => by
          rw [seqsAt_cons, List.append_assoc])
      obtain ⟨h2, h3⟩ := ih h1
      exact ⟨h2, h3.trans (SequenceState.shapes_clearLayers seq.caches as)⟩

theorem dropRunning_sound {s : Scheduler ρ} {cache : PrefixCache} (h : Sound s cache) (i : Nat) :
    Sound (s.dropRunning i) cache := by
  unfold dropRunning
  cases hi : s.running[i]? with
  | none => exact h
  | some seq =>
      refine @Sound.fewer _ _ _ h _ _ [seq] _ ?_ (fun x hx => hx)
        (SequenceState.shapes_clearLayers seq.caches s.allocators) fun held hheld =>
          clearOne_conserved hheld
      exact ((swapRemove_perm hi).append_right _).trans (List.Perm.of_eq rfl)

theorem retireFinished_sound {s : Scheduler ρ} {cache : PrefixCache} (h : Sound s cache) :
    Sound s.retireFinished.2 cache := by
  unfold retireFinished
  refine List.foldlRecOn (motive := fun s₁ => Sound s₁ cache) _ _ h fun s₁ h₁ id _ => ?_
  split
  · exact dropRunning_sound h₁ _
  · exact h₁

theorem abortAllRunning_sound {s : Scheduler ρ} {cache : PrefixCache} (h : Sound s cache) :
    Sound s.abortAllRunning.2 cache := by
  have hcons := @Conserved.perm _ _ _ (fun l => seqsAt s.running l ++
    (cache.entriesAt l ++ seqsAt s.waiting l)) h.conserved fun l => List.perm_append_comm_assoc _ _ _
  refine @Sound.fewer _ _ _ h [] _ s.running _ (.refl _) (fun x hx => hx)
    (clearAll_conserved hcons).2 fun held hheld => (clearAll_conserved hheld).1

theorem abortAll_sound {s : Scheduler ρ} {cache : PrefixCache} (h : Sound s cache) :
    Sound s.abortAll.2 cache := by
  have h₁ := abortAllRunning_sound h
  have hcons := @Conserved.perm _ _ _ (fun l => seqsAt s.waiting l ++ cache.entriesAt l) h₁.conserved
    fun l => List.perm_append_comm
  refine @Sound.fewer _ _ _ h₁ [] [] s.waiting _ ?_ (fun x hx => by cases hx)
    (clearAll_conserved hcons).2 fun held hheld => (clearAll_conserved hheld).1
  show ([] ++ s.waiting).Perm (s.waiting ++ ([] ++ []))
  rw [List.nil_append, List.nil_append, List.append_nil]

theorem abortSequence_sound {s : Scheduler ρ} {cache : PrefixCache} (h : Sound s cache)
    (id : SequenceId) : Sound (s.abortSequence id).2 cache := by
  unfold abortSequence
  cases s.runningIndex id with
  | some i => exact dropRunning_sound h i
  | none =>
      simp only
      cases hfind : s.waiting.findIdx? (·.id == id) with
      | none => exact h
      | some i =>
          simp only
          cases hi : s.waiting[i]? with
          | none => exact h
          | some seq =>
              obtain ⟨hlt, hget⟩ := List.getElem?_eq_some_iff.1 hi
              have hw : s.waiting.Perm (seq :: s.waiting.eraseIdx i) := by
                rw [← hget]
                exact (List.getElem_cons_eraseIdx_perm hlt).symm
              refine @Sound.fewer _ _ _ h _ _ [seq] _ ?_ (fun x hx => List.mem_of_mem_eraseIdx hx)
                (SequenceState.shapes_clearLayers seq.caches s.allocators) fun held hheld =>
                  clearOne_conserved hheld
              exact (hw.append_left _).trans List.perm_middle

theorem addRequest_sound {s : Scheduler ρ} {cache : PrefixCache} (h : Sound s cache)
    {prompt : List Token} {maxTokens : Nat} (hcap : prompt.length + maxTokens ≤ s.kvCapacityTokens) :
    Sound (s.addRequest prompt maxTokens) cache := by
  generalize hseq : (⟨s.nextId, 0, prompt, .waiting, .prefill, s.allocators.map .new, 0, maxTokens⟩ :
    SequenceState ρ) = seq
  have heq : s.addRequest prompt maxTokens =
      { s with nextId := s.nextId + 1, waiting := s.waiting ++ [seq] } := by rw [← hseq]; rfl
  have hfresh : Fresh seq := by
    intro l
    rw [← hseq]
    unfold blockIdsAt
    rw [List.getElem?_map]
    cases s.allocators[l]? <;> rfl
  have hcases : ∀ x ∈ s.running ++ (s.waiting ++ [seq]), x ∈ s.running ++ s.waiting ∨ x = seq := by
    intro x hx
    rw [← List.append_assoc] at hx
    exact (List.mem_append.1 hx).imp_right List.mem_singleton.1
  rw [heq]
  refine ⟨h.conserved.perm fun l => ?_, ?_, ?_, ?_, ?_, ?_, ?_, h.idle, h.block_pos⟩
  · have hnil : seqsAt [seq] l = [] := seqsAt_fresh (fun x hx => by rwa [List.mem_singleton.1 hx]) l
    rw [seqsAt_append, hnil, List.append_nil]
  · intro x hx
    rcases List.mem_append.1 hx with hx | hx
    · exact h.fresh x hx
    · rwa [List.mem_singleton.1 hx]
  · intro x hx
    rcases hcases x hx with hx | rfl
    · exact h.layers x hx
    · rw [← hseq]
      exact List.length_map _
  · show ((s.running ++ (s.waiting ++ [seq])).map (·.id)).Nodup
    rw [← List.append_assoc, List.map_append, List.nodup_append]
    refine ⟨h.ids, List.nodup_singleton _, ?_⟩
    intro id hid id' hid' heq
    obtain ⟨x, hx, rfl⟩ := List.mem_map.1 hid
    have hlast : id' = s.nextId := by
      rw [List.map_singleton, List.mem_singleton, ← hseq] at hid'
      exact hid'
    exact absurd (heq.trans hlast) (Nat.ne_of_lt (h.ids_lt x hx))
  · intro x hx
    show x.id < s.nextId + 1
    rcases hcases x hx with hx | rfl
    · exact Nat.lt_succ_of_lt (h.ids_lt x hx)
    · rw [← hseq]
      exact Nat.lt_succ_self _
  · intro x hx hst
    rcases hcases x hx with hx | rfl
    · exact h.sized x hx hst
    · rw [← hseq]
      exact ⟨hcap, .inr rfl⟩
  · intro x hx
    rcases List.mem_append.1 hx with hx | hx
    · exact h.queued x hx
    · rw [List.mem_singleton.1 hx, ← hseq]

/-- With nothing waiting and nothing running a step changes nothing. -/
theorem schedule_idle (chainHash : List Token → UInt64 → UInt64) {s : Scheduler ρ} (cache : PrefixCache)
    (h : s.hasPendingWork = false) :
    schedule chainHash s cache = ⟨s, cache, [], s.config.maxTokensPerStep, 0⟩ := by
  have hnone : s.waiting = [] ∧ s.running = [] := by
    simpa [hasPendingWork] using h
  unfold schedule
  rw [hnone.2]
  show admitWaiting chainHash s.waiting.length _ _ _ = _
  rw [hnone.1]
  rfl

theorem sample_sized {capacity : Nat} {seq : SequenceState ρ} {token : Token} {isStop : Bool}
    (h : Sized capacity seq) (hst : (sampleToken seq token isStop).status ≠ .finished) :
    Sized capacity (sampleToken seq token isStop) := by
  have hfits := h.fits
  unfold sampleToken SequenceState.applyToken at hst ⊢
  cases isStop with
  | true => exact absurd rfl hst
  | false =>
      simp only [Bool.false_eq_true, if_false] at hst ⊢
      by_cases hmore : seq.numGenerated + 1 ≥ seq.maxTokens
      · exact absurd (if_pos hmore) hst
      · refine ⟨?_, .inl (Nat.lt_of_not_le hmore)⟩
        show (seq.allTokens ++ [token]).length + seq.maxTokens ≤ capacity + (seq.numGenerated + 1)
        rw [List.length_append, List.length_singleton]
        omega

theorem sample_sound {s : Scheduler ρ} {cache : PrefixCache} (h : Sound s cache) {i : Nat}
    {seq : SequenceState ρ} (hi : s.running[i]? = some seq) (hst : seq.status ≠ .finished)
    (token : Token) (isStop : Bool) :
    Sound (s.setRunning i (sampleToken seq token isStop) s.allocators) cache := by
  have hsame : (sampleToken seq token isStop).id = seq.id ∧
      (sampleToken seq token isStop).caches = seq.caches := by
    cases isStop <;> exact ⟨rfl, rfl⟩
  refine h.update hi hsame.1 (by rw [hsame.2]) (fun hs => sample_sized (hs hst)) rfl id
    fun rest hcons => ?_
  rw [hsame.2]
  exact hcons

/-- One cache of a running sequence changed, and the pool of its layer. -/
theorem Sound.updateCache {s : Scheduler ρ} {cache : PrefixCache} (h : Sound s cache) {i l : Nat}
    {seq : SequenceState ρ} (hi : s.running[i]? = some seq) {c c' : PagedKvCache ρ}
    {a a' : BlockAllocator ρ} (hc : seq.caches[l]? = some c) (ha : s.allocators[l]? = some a)
    (hm : ∀ env, PagedKvCache.Owns env c a → PagedKvCache.OwnStep env c' a a') :
    Sound (s.setRunning i { seq with caches := seq.caches.set l c' } (s.allocators.set l a')) cache := by
  obtain ⟨hla, hget⟩ := List.getElem?_eq_some_iff.1 ha
  have hstep := hm _ ((h.split hi).owns hc ha)
  refine h.update hi rfl (List.length_set ..) (fun hs hst => ?_) ?_ id fun rest hcons => ?_
  · exact ⟨(hs hst).fits, (hs hst).more⟩
  · show shapes (s.allocators.set l a') = shapes s.allocators
    unfold shapes
    rw [List.map_set, hstep.maxBlocks, hstep.blockSize]
    apply List.ext_getElem (List.length_set ..)
    intro k hk hk'
    rw [List.getElem_set]
    split
    next hkl =>
      subst hkl
      rw [List.getElem_map, hget]
    · rfl
  · exact hcons.setCache hc hla (hm _ (hcons.owns hc ha)).owns

end Scheduler

/-! ## The prefix cache -/

section

omit [Inhabited ρ]

theorem takeOver_owns {env : Nat → Nat} {c : PagedKvCache ρ} {a : BlockAllocator ρ}
    (h : PagedKvCache.Owns env c a) {ids : List Nat} (hids : ∀ id ∈ ids, 0 < a.refCount id) (n : Nat) :
    PagedKvCache.OwnStep env (takeOver ids n c a).1 a (takeOver ids n c a).2 :=
  have hstep := PagedKvCache.prepopulate_owns h hids
  ⟨⟨hstep.owns.wf, hstep.owns.count⟩, hstep.maxBlocks, hstep.blockSize⟩

/-- Each layer takes over its own ids. -/
theorem prepopulateLayers_get (matched : List (List Nat)) (n l k : Nat) (cs : List (PagedKvCache ρ))
    (as : List (BlockAllocator ρ)) :
    let r := prepopulateLayers matched n l cs as
    let ids := matched.filterMap (·[l + k]?)
    r.1[k]? = (cs[k]?.map fun c => as[k]?.elim c fun a => (takeOver ids n c a).1) ∧
      r.2[k]? = as[k]?.map fun a => cs[k]?.elim a fun c => (takeOver ids n c a).2 := by
  induction as generalizing cs l k with
  | nil => cases cs <;> cases k <;> simp [prepopulateLayers]
  | cons a as ih =>
      cases cs with
      | nil => cases k <;> simp [prepopulateLayers]
      | cons c cs =>
          cases k with
          | zero => exact ⟨rfl, rfl⟩
          | succ k =>
              have hk : l + (k + 1) = l + 1 + k := by omega
              rw [hk]
              exact ih (l + 1) k cs

theorem prepopulateLayers_length (matched : List (List Nat)) (n l : Nat) (cs : List (PagedKvCache ρ))
    (as : List (BlockAllocator ρ)) :
    (prepopulateLayers matched n l cs as).1.length = cs.length ∧
      (prepopulateLayers matched n l cs as).2.length = as.length := by
  induction as generalizing cs l with
  | nil => cases cs <;> exact ⟨rfl, rfl⟩
  | cons a as ih =>
      cases cs with
      | nil => exact ⟨rfl, rfl⟩
      | cons c cs => exact ⟨congrArg (· + 1) (ih (l + 1) cs).1, congrArg (· + 1) (ih (l + 1) cs).2⟩

/-- The blocks a sequence takes over are held by the prefix cache. -/
theorem prepopulateLayers_conserved {matched : List (List Nat)} {n : Nat} {cs : List (PagedKvCache ρ)}
    {as : List (BlockAllocator ρ)} {entries rest : Nat → List Nat}
    (hheld : ∀ ids ∈ matched, ∀ l id, ids[l]? = some id → id ∈ entries l)
    (h : Conserved as fun l => entries l ++ (blockIdsAt cs l ++ rest l)) :
    let r := prepopulateLayers matched n 0 cs as
    (Conserved r.2 fun l => entries l ++ (blockIdsAt r.1 l ++ rest l)) ∧ shapes r.2 = shapes as := by
  have hlayer : ∀ l a c, as[l]? = some a → cs[l]? = some c →
      PagedKvCache.OwnStep (fun b => (entries l ++ rest l).count b)
        (takeOver (matched.filterMap (·[l]?)) n c a).1 a
        (takeOver (matched.filterMap (·[l]?)) n c a).2 := by
    intro l a c ha hc
    obtain ⟨hwf, hcount⟩ := h l a ha
    have hcount : ∀ b, a.refCount b = (entries l ++ (cs[l]?.elim [] (·.table.blockIds) ++ rest l)).count b :=
      hcount
    rw [hc, Option.elim_some] at hcount
    refine takeOver_owns ⟨hwf, fun b => ?_⟩ (fun id hid => ?_) n
    · rw [hcount]
      simp only [List.count_append]
      omega
    · obtain ⟨ids, hids, hid⟩ := List.mem_filterMap.1 hid
      rw [hcount]
      exact List.count_pos_iff.2 (List.mem_append_left _ (hheld ids hids l id hid))
  constructor
  · intro l a' ha'
    obtain ⟨hcs, has⟩ := prepopulateLayers_get matched n 0 l cs as
    rw [Nat.zero_add] at hcs has
    rw [has] at ha'
    obtain ⟨a, ha, rfl⟩ := Option.map_eq_some_iff.1 ha'
    show _ ∧ ∀ b, _ = (entries l ++ ((prepopulateLayers matched n 0 cs as).1[l]?.elim []
      (·.table.blockIds) ++ rest l)).count b
    rw [hcs, ha]
    cases hc : cs[l]? with
    | none =>
        obtain ⟨hwf, hcount⟩ := h l a ha
        have hcount : ∀ b, a.refCount b =
          (entries l ++ (cs[l]?.elim [] (·.table.blockIds) ++ rest l)).count b := hcount
        rw [hc] at hcount
        exact ⟨hwf, hcount⟩
    | some c =>
        have howns := (hlayer l a c ha hc).owns
        refine ⟨howns.wf, fun b => ?_⟩
        refine (howns.count b).trans ?_
        simp only [Option.map_some, Option.elim_some, List.count_append]
        omega
  · apply List.ext_getElem?
    intro l
    unfold shapes
    rw [List.getElem?_map, List.getElem?_map, (prepopulateLayers_get matched n 0 l cs as).2,
      Nat.zero_add]
    cases ha : as[l]? with
    | none => rfl
    | some a =>
        cases hc : cs[l]? with
        | none => rfl
        | some c =>
            have hstep := hlayer l a c ha hc
            simp only [Option.map_some, Option.elim_some, hstep.maxBlocks, hstep.blockSize]

theorem plan_sound (chainHash : List Token → UInt64 → UInt64) {s : EngineState ρ}
    (h : s.sched.Sound s.prefixCache) {i : Nat} {seq : SequenceState ρ}
    (hi : s.sched.running[i]? = some seq) :
    (s.plan chainHash i seq).sched.Sound (s.plan chainHash i seq).prefixCache := by
  obtain ⟨hperm, hdis⟩ :=
    PrefixCache.lookup_perm chainHash s.prefixCache seq.allTokens s.sched.blockSize
  have hheld : ∀ ids ∈ (s.prefixCache.lookup chainHash seq.allTokens s.sched.blockSize).1,
      ∀ l id, ids[l]? = some id → id ∈ s.prefixCache.entriesAt l := fun ids hids l id hid =>
    PrefixCache.lookup_mem chainHash _ _ _ hids hid
  unfold EngineState.plan planPrefill
  simp only
  generalize s.prefixCache.lookup chainHash seq.allTokens s.sched.blockSize = found at hperm hdis hheld
  have hidle : s.prefixCache.Idle → found.2.Idle := by
    intro hidle hd
    rw [hidle (hdis.symm.trans hd)] at hperm
    exact List.perm_nil.1 hperm
  generalize min found.1.length ((seq.allTokens.length - 1) / s.sched.blockSize) = n
  by_cases hn : n > 0
  · have htake : ∀ ids ∈ found.1.take n, ∀ l id, ids[l]? = some id → id ∈ s.prefixCache.entriesAt l :=
      fun ids hids => hheld ids (List.mem_of_mem_take hids)
    rw [if_pos hn]
    refine h.update hi rfl (prepopulateLayers_length ..).1 (fun hs hst => ?_) ?_ hidle
      fun rest hcons => ?_
    · exact ⟨(hs hst).fits, (hs hst).more⟩
    · exact (prepopulateLayers_conserved htake (h.split hi)).2
    · exact (prepopulateLayers_conserved htake hcons).1.perm fun l =>
        (PrefixCache.entriesAt_perm hperm l).symm.append_right _
  · rw [if_neg hn]
    exact h.update hi rfl rfl (fun hs => hs) rfl hidle fun rest hcons => hcons.perm fun l =>
      (PrefixCache.entriesAt_perm hperm l).symm.append_right _

theorem filterMap_get {α β : Type} {f : α → Option β} {xs : List α} (h : ∀ x ∈ xs, (f x).isSome)
    (l : Nat) : (xs.filterMap f)[l]? = xs[l]?.bind f := by
  induction xs generalizing l with
  | nil => rfl
  | cons x xs ih =>
      obtain ⟨y, hy⟩ := Option.isSome_iff_exists.1 (h x List.mem_cons_self)
      rw [List.filterMap_cons_some hy]
      cases l with
      | zero => exact hy.symm
      | succ l => exact ih (fun x hx => h x (List.mem_cons_of_mem _ hx)) l

/-- A prefill hands over blocks its sequence holds, each under its own layer. -/
theorem newBlockIds_mem {seq : SequenceState ρ} {startBlock total : Nat} {ids : List Nat}
    (hids : ids ∈ newBlockIds seq startBlock total) (hlen : ids.length = seq.caches.length) {l id : Nat}
    (hid : ids[l]? = some id) : id ∈ blockIdsAt seq.caches l := by
  obtain ⟨i, -, rfl⟩ := List.mem_map.1 hids
  have hall := List.filterMap_length_eq_length.1 hlen
  rw [filterMap_get hall] at hid
  obtain ⟨c, hc, hid⟩ := Option.bind_eq_some_iff.1 hid
  unfold blockIdsAt
  rw [hc]
  exact List.mem_of_getElem? hid

/-- With a layer that lacks a block nothing is registered. -/
theorem register_skipped (chainHash : List Token → UInt64 → UInt64) {s : EngineState ρ}
    {seq : SequenceState ρ} {startBlock total : Nat}
    (hany : (newBlockIds seq startBlock total).any fun ids => ids.length ≠ s.sched.allocators.length) :
    s.register chainHash seq startBlock total = s := by
  unfold EngineState.register PrefixCache.register
  simp only [hany, if_true, ite_self]

theorem register_sound (chainHash : List Token → UInt64 → UInt64) {s : EngineState ρ}
    (h : s.sched.Sound s.prefixCache) {i : Nat} {seq : SequenceState ρ}
    (hi : s.sched.running[i]? = some seq) (startBlock total : Nat) :
    (s.register chainHash seq startBlock total).sched.Sound
      (s.register chainHash seq startBlock total).prefixCache := by
  have hmem := List.mem_of_getElem? hi
  by_cases hany : (newBlockIds seq startBlock total).any
      fun ids => ids.length ≠ s.sched.allocators.length
  · rw [register_skipped chainHash hany]
    exact h
  · have hheld : ∀ ids ∈ newBlockIds seq startBlock total, ∀ l id, l < s.sched.allocators.length →
        ids[l]? = some id → id ∈ seqsAt s.sched.running l ++ seqsAt s.sched.waiting l := by
      intro ids hids l id _ hid
      have hlen : ids.length = seq.caches.length := by
        rw [h.layers seq (List.mem_append_left _ hmem)]
        by_contra hne
        exact hany (List.any_eq_true.2 ⟨ids, hids, decide_eq_true hne⟩)
      exact List.mem_append_left _
        (List.mem_flatMap.2 ⟨seq, hmem, newBlockIds_mem hids hlen hid⟩)
    obtain ⟨h1, h2, h3⟩ := PrefixCache.register_conserved chainHash seq.allTokens startBlock
      s.sched.blockSize h.conserved hheld
    exact h.pools h2 (h3 h.idle) h1

end

/-! ## Every run -/

/-- Pools as an engine starts with them. -/
def FreshPools (blockSize : Nat) (as : List (BlockAllocator ρ)) : Prop :=
  ∀ a ∈ as, ∃ maxBlocks segmentBlocks window device,
    BlockAllocator.growing maxBlocks segmentBlocks blockSize window device = some a

theorem growing_counts {maxBlocks segmentBlocks blockSize : Nat} {window : Option Nat}
    {device : Nat → Bool} {a : BlockAllocator ρ}
    (h : BlockAllocator.growing maxBlocks segmentBlocks blockSize window device = some a) :
    a.Wf ∧ ∀ b, a.refCount b = 0 := by
  have hempty : BlockAllocator.Wf (⟨[], [], [], 0, maxBlocks,
      max 1 (min segmentBlocks (max maxBlocks 1)), blockSize, window⟩ : BlockAllocator ρ) :=
    ⟨rfl, Nat.zero_le _, List.nodup_nil, fun b => by simp⟩
  unfold BlockAllocator.growing at h
  split at h
  · obtain ⟨hc, -, -⟩ := BlockAllocator.grow_counts hempty h
    exact ⟨hc.wf, fun b => hc.count b⟩
  · cases h
    exact ⟨hempty, fun _ => rfl⟩

namespace Scheduler

theorem start_sound {blockSize : Nat} (hbs : 0 < blockSize) {as : List (BlockAllocator ρ)}
    (hpools : FreshPools blockSize as) (config : SchedulerConfig) {cache : PrefixCache}
    (hcache : cache.entries.entries = []) : Sound (.new config as) cache := by
  refine ⟨fun l a ha => ?_, List.forall_mem_nil _, List.forall_mem_nil _, List.nodup_nil,
    List.forall_mem_nil _, List.forall_mem_nil _, List.forall_mem_nil _, fun _ => hcache, ?_⟩
  · obtain ⟨maxBlocks, segmentBlocks, window, device, hg⟩ := hpools a (List.mem_of_getElem? ha)
    obtain ⟨hwf, hzero⟩ := growing_counts hg
    refine ⟨hwf, fun b => ?_⟩
    rw [hzero]
    show 0 = (cache.entries.entries.filterMap _ ++ []).count b
    rw [hcache]
    rfl
  · cases as with
    | nil => exact Nat.succ_pos 15
    | cons a as =>
        obtain ⟨maxBlocks, segmentBlocks, window, device, hg⟩ := hpools a List.mem_cons_self
        show 0 < a.blockSize
        rw [(BlockAllocator.growing_geometry hg).1]
        exact hbs

end Scheduler

variable {chainHash : List Token → UInt64 → UInt64}

theorem ForwardMove.sound {s s' : EngineState ρ} (h : s.sched.Sound s.prefixCache)
    (hm : ForwardMove chainHash s s') : s'.sched.Sound s'.prefixCache := by
  cases hm with
  | plan i hi => exact plan_sound chainHash h hi
  | cache i l hi hc ha hm => exact h.updateCache hi hc ha fun env howns => hm.owns howns
  | sample i hi hst token isStop => exact Scheduler.sample_sound h hi hst token isStop
  | register i startBlock total hi => exact register_sound chainHash h hi startBlock total

theorem EngineMove.sound {s s' : EngineState ρ} (h : s.sched.Sound s.prefixCache)
    (hm : EngineMove chainHash s s') : s'.sched.Sound s'.prefixCache := by
  cases hm with
  | addRequest prompt maxTokens hprompt hcap => exact Scheduler.addRequest_sound h hcap
  | schedule hactive =>
      cases hwork : s.sched.hasPendingWork with
      | true => exact (Scheduler.schedule_sound chainHash h hactive hwork).sound
      | false =>
          rw [Scheduler.schedule_idle chainHash s.prefixCache hwork]
          exact h
  | forward hm => exact hm.sound h
  | retire => exact Scheduler.retireFinished_sound h
  | abortAllRunning => exact Scheduler.abortAllRunning_sound h
  | abortSequence id => exact Scheduler.abortSequence_sound h id
  | abortAll => exact Scheduler.abortAll_sound h

theorem EngineReach.sound {config : SchedulerConfig} {as : List (BlockAllocator ρ)} {blockSize : Nat}
    (hbs : 0 < blockSize) (hpools : FreshPools blockSize as) {s : EngineState ρ}
    (h : EngineReach chainHash config as s) : s.sched.Sound s.prefixCache := by
  induction h with
  | start => exact Scheduler.start_sound hbs hpools config rfl
  | startDisabled => exact Scheduler.start_sound hbs hpools config rfl
  | move _ hm ih => exact hm.sound ih

/-! ## What no step changes -/

namespace Scheduler

omit [Inhabited ρ]

theorem admit_frame (fuel : Nat) (t : Turn ρ) (free : Nat) (prefilled : Bool) :
    SameFrame t.sched (admitWaiting chainHash fuel t free prefilled).sched := by
  induction fuel generalizing t free prefilled with
  | zero => exact .refl _
  | succ fuel ih =>
      by_cases hroom : t.sched.running.length < t.sched.config.maxNumSequences ∧ 0 < t.budget
      · cases hw : t.sched.waiting with
        | nil =>
            unfold admitWaiting
            rw [if_pos hroom, hw]
            exact .refl _
        | cons seq waiting =>
            rw [admit_cons chainHash hroom hw]
            simp only
            split
            · exact ⟨rfl, rfl⟩
            · split
              · exact ⟨rfl, rfl⟩
              · exact ⟨(ih _ _ _).config, (ih _ _ _).nextId⟩
      · unfold admitWaiting
        rw [if_neg hroom]
        exact .refl _

theorem schedule_frame (s : Scheduler ρ) (cache : PrefixCache) :
    SameFrame s (schedule chainHash s cache).sched :=
  SameFrame.trans (foldl_serveBlock_frame _ ⟨s, cache, _, _, 0⟩) (admit_frame _ _ _ _)

theorem dropRunning_frame (s : Scheduler ρ) (i : Nat) : SameFrame s (s.dropRunning i) := by
  unfold dropRunning
  split <;> exact ⟨rfl, rfl⟩

theorem retireFinished_frame (s : Scheduler ρ) : SameFrame s s.retireFinished.2 := by
  unfold retireFinished
  refine List.foldlRecOn (motive := fun s₁ => SameFrame s s₁) _ _ (.refl s) fun s₁ h₁ id _ => ?_
  refine h₁.trans ?_
  split
  · exact dropRunning_frame s₁ _
  · exact .refl s₁

theorem abortSequence_frame (s : Scheduler ρ) (id : SequenceId) :
    SameFrame s (s.abortSequence id).2 := by
  unfold abortSequence
  split
  · exact dropRunning_frame s _
  · split
    · split <;> exact ⟨rfl, rfl⟩
    · exact .refl s

end Scheduler

theorem ForwardMove.frame {s s' : EngineState ρ} (hm : ForwardMove chainHash s s') :
    s.sched.SameFrame s'.sched := by
  cases hm <;> exact ⟨rfl, rfl⟩

theorem EngineMove.config {s s' : EngineState ρ} (hm : EngineMove chainHash s s') :
    s'.sched.config = s.sched.config := by
  cases hm with
  | schedule hactive => exact (Scheduler.schedule_frame s.sched s.prefixCache).config
  | forward hm => exact hm.frame.config
  | retire => exact (Scheduler.retireFinished_frame s.sched).config
  | abortSequence id => exact (Scheduler.abortSequence_frame s.sched id).config
  | _ => rfl

theorem EngineReach.config {config : SchedulerConfig} {as : List (BlockAllocator ρ)} {s : EngineState ρ}
    (h : EngineReach chainHash config as s) : s.sched.config = config := by
  induction h with
  | start => rfl
  | startDisabled => rfl
  | move _ hm ih => exact hm.config.trans ih

/-! ## Progress -/

/-- An engine with work to do schedules a sequence, whatever run it comes from. -/
theorem engine_progress (chainHash : List Token → UInt64 → UInt64) {config : SchedulerConfig}
    {as : List (BlockAllocator ρ)} {blockSize : Nat} (hbs : 0 < blockSize)
    (hpools : FreshPools blockSize as) (hmax : 0 < config.maxNumSequences)
    (htokens : 0 < config.maxTokensPerStep) {s : EngineState ρ} (h : EngineReach chainHash config as s)
    (hactive : s.sched.Active) (hwork : s.sched.hasPendingWork = true) :
    (s.sched.schedule chainHash s.prefixCache).scheduled ≠ [] := by
  apply Scheduler.schedule_progress chainHash (h.sound hbs hpools) hactive hwork
  · rw [h.config]
    exact hmax
  · rw [h.config]
    exact htokens

def soloPool : BlockAllocator Nat := ⟨[[0, 0, 0, 0]], [0, 1], [0, 0], 2, 2, 2, 2, none⟩

theorem engine_progress_solo :
    (((Scheduler.new ⟨1, 8⟩ [soloPool]).addRequest [7] 2).schedule (fun _ h => h) (.new 512)).scheduled
      ≠ [] := by
  have hpools : FreshPools 2 [soloPool] := by
    intro a ha
    rw [List.mem_singleton.1 ha]
    exact ⟨2, 2, none, fun _ => true, rfl⟩
  refine @engine_progress _ _ (fun _ h => h) ⟨1, 8⟩ _ _ (by decide) hpools (by decide) (by decide)
    (s := ⟨(Scheduler.new ⟨1, 8⟩ [soloPool]).addRequest [7] 2, .new 512⟩)
    (.move .start (.addRequest [7] 2 (by decide) (by decide))) (List.forall_mem_nil _) rfl

end Oxydllm.Kv
