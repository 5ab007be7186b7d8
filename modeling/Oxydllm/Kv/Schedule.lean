/-
# Oxydllm.Kv.Schedule — what `schedule` keeps, and that it makes progress.

`Sound` is the scheduler's invariant: every reference to a block has a holder, waiting sequences hold
none, and no sequence outgrows the pool. A decode is turned away only when the prefix cache is empty and
no block is free; when all of them are, nothing runs, every block is free, and the prompt in front fits.
-/
import Oxydllm.Kv.Conserved

namespace Oxydllm.Kv

variable {ρ : Type}

theorem swapRemove_perm {α : Type} {xs : List α} {i : Nat} {x : α} (h : xs[i]? = some x) :
    xs.Perm (x :: swapRemove xs i) := by
  obtain ⟨hi, hx⟩ := List.getElem?_eq_some_iff.1 h
  have hne : xs ≠ [] := List.ne_nil_of_length_pos (by omega)
  obtain ⟨front, last, rfl⟩ := (List.eq_nil_or_concat' xs).resolve_left hne
  unfold swapRemove
  rw [List.getLast?_concat]
  simp only
  rw [List.length_append, List.length_singleton] at hi
  by_cases hlast : i = front.length
  · -- the last element itself
    subst hlast
    have hxl : x = last := by
      rw [← hx]
      exact List.getElem_concat_length rfl _
    rw [List.set_append_right _ _ le_rfl, Nat.sub_self]
    show (front ++ [last]).Perm (x :: (front ++ [last]).dropLast)
    rw [List.dropLast_concat, hxl]
    exact List.perm_append_singleton last front
  · have hlt : i < front.length := by omega
    rw [List.set_append_left _ _ hlt, List.dropLast_concat]
    rw [List.getElem_append_left hlt] at hx
    have h1 : front.Perm (x :: front.eraseIdx i) := by
      rw [← hx]
      exact (List.getElem_cons_eraseIdx_perm hlt).symm
    have h2 := List.set_perm_cons_eraseIdx hlt last
    refine (List.perm_append_singleton last front).trans ?_
    refine (h1.cons last).trans ((List.Perm.swap x last _).trans ?_)
    exact (h2.symm.cons x)

namespace Scheduler

/-- `Engine::kv_capacity_tokens`. -/
def kvCapacityTokens (s : Scheduler ρ) : Nat :=
  match s.allocators with
  | [] => 0
  | a :: _ => a.maxBlocks * s.blockSize

/-- A sequence that stays within the capacity it was admitted under. -/
structure Sized (capacity : Nat) (seq : SequenceState ρ) : Prop where
  fits : seq.allTokens.length + seq.maxTokens ≤ capacity + seq.numGenerated
  more : seq.numGenerated < seq.maxTokens ∨ seq.numGenerated = 0

theorem Sized.length_le {capacity : Nat} {seq : SequenceState ρ} (h : Sized capacity seq) :
    seq.allTokens.length ≤ capacity := by
  have := h.fits
  rcases h.more with h | h <;> omega

/-- The invariant of the scheduler over its pools and the prefix cache. -/
structure Sound (s : Scheduler ρ) (cache : PrefixCache) : Prop where
  conserved : Conserved s.allocators fun l =>
    cache.entriesAt l ++ (seqsAt s.running l ++ seqsAt s.waiting l)
  fresh : ∀ seq ∈ s.waiting, Fresh seq
  layers : ∀ seq ∈ s.running ++ s.waiting, seq.caches.length = s.allocators.length
  ids : ((s.running ++ s.waiting).map (·.id)).Nodup
  ids_lt : ∀ seq ∈ s.running ++ s.waiting, seq.id < s.nextId
  sized : ∀ seq ∈ s.running ++ s.waiting, seq.status ≠ .finished → Sized s.kvCapacityTokens seq
  queued : ∀ seq ∈ s.waiting, seq.status = .waiting
  idle : cache.Idle
  block_pos : 0 < s.blockSize

/-- No sequence is finished. -/
def Active (s : Scheduler ρ) : Prop := ∀ seq ∈ s.running, seq.status ≠ .finished

theorem capacity_of_shapes {s : Scheduler ρ} {as : List (BlockAllocator ρ)}
    (h : shapes as = shapes s.allocators) :
    kvCapacityTokens { s with allocators := as } = s.kvCapacityTokens := by
  unfold kvCapacityTokens
  cases hs : s.allocators with
  | nil =>
      rw [hs] at h
      rw [List.map_eq_nil_iff.1 h]
  | cons a rest =>
      rw [hs] at h
      cases as with
      | nil => cases h
      | cons a' rest' =>
          have hhead := congrArg List.head? h
          simp only [shapes, List.map_cons, List.head?_cons, Option.some.injEq, Prod.mk.injEq] at hhead
          simp only [hhead.1]

/-- The pools and the prefix cache changed, the sequences not. -/
theorem Sound.pools {s : Scheduler ρ} {cache cache' : PrefixCache} (h : Sound s cache)
    {as : List (BlockAllocator ρ)} (hshape : shapes as = shapes s.allocators) (hidle : cache'.Idle)
    (hcons : Conserved as fun l => cache'.entriesAt l ++ (seqsAt s.running l ++ seqsAt s.waiting l)) :
    Sound { s with allocators := as } cache' :=
  ⟨hcons, h.fresh, fun seq hseq => (h.layers seq hseq).trans (shapes_length hshape).symm, h.ids,
    h.ids_lt, fun seq hseq hst => by rw [capacity_of_shapes hshape]; exact h.sized seq hseq hst,
    h.queued, hidle, h.block_pos⟩

theorem evictLru_sound {s : Scheduler ρ} {cache cache' : PrefixCache} (h : Sound s cache)
    {as : List (BlockAllocator ρ)} (he : cache.evictLru s.allocators = some (cache', as)) :
    Sound { s with allocators := as } cache' ∧ shapes as = shapes s.allocators ∧
      cache'.entries.entries.length + 1 = cache.entries.entries.length := by
  obtain ⟨hcons, hshape, hlen, hidle⟩ := PrefixCache.evictLru_conserved h.conserved he
  exact ⟨h.pools hshape (hidle h.idle) hcons, hshape, hlen⟩

theorem evictUntil_sound {s : Scheduler ρ} {cache : PrefixCache} (h : Sound s cache)
    (reserved fuel : Nat) (hfuel : cache.entries.entries.length ≤ fuel) :
    let e := evictUntil reserved fuel cache s.allocators
    Sound { s with allocators := e.2 } e.1 ∧ shapes e.2 = shapes s.allocators ∧
      (numFreeBlocks e.2 ≤ reserved → e.1.entries.entries = []) := by
  induction fuel generalizing s cache with
  | zero => exact ⟨h, rfl, fun _ => List.length_eq_zero_iff.1 (Nat.le_zero.1 hfuel)⟩
  | succ fuel ih =>
      unfold evictUntil
      split
      next hfull =>
        cases he : cache.evictLru s.allocators with
        | none => exact ⟨h, rfl, fun _ => PrefixCache.evictLru_none h.idle he⟩
        | some r =>
            obtain ⟨cache', as⟩ := r
            obtain ⟨h', hshape, hlen⟩ := evictLru_sound h he
            obtain ⟨h1, h2, h3⟩ := ih (s := { s with allocators := as }) h' (by omega)
            exact ⟨h1, h2.trans hshape, h3⟩
      next hfree => exact ⟨h, rfl, fun hle => absurd hle hfree⟩

/-- With nothing in the prefix cache and nothing running, the whole pool is free. -/
theorem numFree_of_empty {s : Scheduler ρ} {cache : PrefixCache} (h : Sound s cache)
    (hentries : cache.entries.entries = []) (hrunning : s.running = []) :
    numFreeBlocks s.allocators * s.blockSize = s.kvCapacityTokens := by
  unfold numFreeBlocks kvCapacityTokens
  cases has : s.allocators with
  | nil => exact Nat.zero_mul _
  | cons a rest =>
      obtain ⟨hwf, hcount⟩ := h.conserved 0 a (by rw [has]; rfl)
      have hzero : ∀ b, a.refCount b = 0 := by
        intro b
        rw [hcount]
        simp only [hrunning, seqsAt_fresh h.fresh, PrefixCache.entriesAt, hentries]
        rfl
      simp only [BlockAllocator.numFree_of_unheld hwf hzero]

/-! ## Preemption -/

theorem preempt_sound {s : Scheduler ρ} {cache : PrefixCache} (h : Sound s cache) (hactive : s.Active)
    {i : Nat} {seq : SequenceState ρ} (hi : s.running[i]? = some seq) :
    Sound (s.preempt i) cache ∧ (s.preempt i).Active ∧
      s.running.Perm (seq :: (s.preempt i).running) ∧ (s.preempt i).waiting ≠ [] ∧
      shapes (s.preempt i).allocators = shapes s.allocators := by
  have hperm := swapRemove_perm hi
  have hmem : seq ∈ s.running := List.mem_of_getElem? hi
  have heq : s.preempt i =
      { s with
        running := swapRemove s.running i
        allocators := (seq.clearCaches s.allocators).2
        waiting := { (seq.clearCaches s.allocators).1 with
          numProcessedTokens := 0, phase := .prefill, status := .waiting } :: s.waiting } := by
    unfold preempt
    rw [hi]
  have hshape : shapes (seq.clearCaches s.allocators).2 = shapes s.allocators :=
    SequenceState.shapes_clearLayers seq.caches s.allocators
  have hlayers := h.layers seq (List.mem_append_left _ hmem)
  have hsub : ∀ x ∈ swapRemove s.running i, x ∈ s.running := fun x hx =>
    hperm.mem_iff.2 (List.mem_cons_of_mem _ hx)
  generalize hback : { (seq.clearCaches s.allocators).1 with
    numProcessedTokens := 0, phase := SequencePhase.prefill, status := SequenceStatus.waiting } = back
      at heq
  have hback_fresh : Fresh back := by
    rw [← hback]
    exact SequenceState.clearLayers_fresh hlayers.le
  rw [heq]
  refine ⟨⟨?_, ?_, ?_, ?_, ?_, ?_, ?_, h.idle, h.block_pos⟩, ?_, hperm, List.cons_ne_nil _ _, hshape⟩
  · apply SequenceState.clearCaches_conserved
    refine h.conserved.perm fun l => ?_
    -- the sequence's own references, then those of everybody else
    have hr : (seqsAt s.running l).Perm
        (blockIdsAt seq.caches l ++ seqsAt (swapRemove s.running i) l) := seqsAt_perm hperm l
    have hw : seqsAt (back :: s.waiting) l = seqsAt s.waiting l := by
      rw [seqsAt_cons, hback_fresh l, List.nil_append]
    show (cache.entriesAt l ++ (seqsAt s.running l ++ seqsAt s.waiting l)).Perm
      (blockIdsAt seq.caches l ++
        (cache.entriesAt l ++ (seqsAt (swapRemove s.running i) l ++ seqsAt (back :: s.waiting) l)))
    rw [hw]
    refine ((hr.append_right _).append_left _).trans ?_
    rw [List.append_assoc]
    exact List.perm_append_comm_assoc _ _ _
  · intro x hx
    rcases List.mem_cons.1 hx with rfl | hx
    · exact hback_fresh
    · exact h.fresh x hx
  · intro x hx
    have hlen : (seq.clearCaches s.allocators).2.length = s.allocators.length := shapes_length hshape
    show x.caches.length = (seq.clearCaches s.allocators).2.length
    rw [hlen]
    rcases List.mem_append.1 hx with hx | hx
    · exact h.layers x (List.mem_append_left _ (hsub x hx))
    · rcases List.mem_cons.1 hx with rfl | hx
      · rw [← hback]
        exact (SequenceState.clearLayers_length _ _).trans hlayers
      · exact h.layers x (List.mem_append_right _ hx)
  · have hids : ((s.running ++ s.waiting).map (·.id)).Perm
        ((swapRemove s.running i ++ back :: s.waiting).map (·.id)) := by
      have hid : seq.id = back.id := by rw [← hback]; rfl
      have h1 := (hperm.append_right s.waiting).map (·.id)
      refine h1.trans ?_
      rw [List.cons_append, List.map_cons, hid, ← List.map_cons (f := fun x : SequenceState ρ => x.id)]
      exact (List.perm_middle.symm).map _
    exact hids.nodup_iff.1 h.ids
  · intro x hx
    rcases List.mem_append.1 hx with hx | hx
    · exact h.ids_lt x (List.mem_append_left _ (hsub x hx))
    · rcases List.mem_cons.1 hx with rfl | hx
      · rw [← hback]
        exact h.ids_lt seq (List.mem_append_left _ hmem)
      · exact h.ids_lt x (List.mem_append_right _ hx)
  · intro x hx hst
    show Sized (kvCapacityTokens { s with allocators := (seq.clearCaches s.allocators).2 }) x
    rw [capacity_of_shapes hshape]
    rcases List.mem_append.1 hx with hx | hx
    · exact h.sized x (List.mem_append_left _ (hsub x hx)) hst
    · rcases List.mem_cons.1 hx with rfl | hx
      · have hseq := h.sized seq (List.mem_append_left _ hmem) (hactive seq hmem)
        rw [← hback]
        exact ⟨hseq.fits, hseq.more⟩
      · exact h.sized x (List.mem_append_right _ hx) hst
  · intro x hx
    rcases List.mem_cons.1 hx with rfl | hx
    · rw [← hback]
    · exact h.queued x hx
  · exact fun x hx => hactive x (hsub x hx)

/-! ## The decodes -/

/-- What the loops of a step keep. -/
structure TurnSound (t : Turn ρ) : Prop where
  sound : Sound t.sched t.cache
  active : t.sched.Active
  work : t.sched.hasPendingWork = true

theorem hasPendingWork_iff {s : Scheduler ρ} :
    s.hasPendingWork = true ↔ s.waiting ≠ [] ∨ s.running ≠ [] := by
  simp [hasPendingWork]

/-- Something is scheduled, or every sequence still running is still to be served. -/
def Pending (t : Turn ρ) (rest : List SequenceId) : Prop :=
  t.scheduled ≠ [] ∨
    (t.reserved = 0 ∧ 0 < t.budget ∧ (t.sched.running.map (·.id)).Perm rest)

theorem findId_none {seqs : List (SequenceState ρ)} {id : SequenceId} :
    seqs.findIdx? (·.id == id) = none ↔ id ∉ seqs.map (·.id) := by
  rw [List.findIdx?_eq_none_iff]
  constructor
  · intro h hid
    obtain ⟨seq, hseq, rfl⟩ := List.mem_map.1 hid
    simpa using h seq hseq
  · intro h seq hseq
    have hne : seq.id ≠ id := fun hc => h (List.mem_map.2 ⟨seq, hseq, hc⟩)
    simpa using hne

theorem findId_some {seqs : List (SequenceState ρ)} {id : SequenceId} {i : Nat}
    (h : seqs.findIdx? (·.id == id) = some i) : ∃ seq, seqs[i]? = some seq ∧ seq.id = id := by
  obtain ⟨hlt, hp, -⟩ := List.findIdx?_eq_some_iff_getElem.1 h
  exact ⟨_, List.getElem?_eq_getElem hlt, by simpa using hp⟩

theorem runningIndex_none {s : Scheduler ρ} {id : SequenceId} (h : id ∉ s.running.map (·.id)) :
    s.runningIndex id = none :=
  findId_none.2 h

theorem runningIndex_of_mem {s : Scheduler ρ} {id : SequenceId} (h : id ∈ s.running.map (·.id)) :
    ∃ i seq, s.runningIndex id = some i ∧ s.running[i]? = some seq ∧ seq.id = id := by
  cases hidx : s.runningIndex id with
  | none => exact absurd h (findId_none.1 hidx)
  | some i =>
      obtain ⟨seq, hi, hid⟩ := findId_some hidx
      exact ⟨i, seq, rfl, hi, hid⟩

theorem serveBlock_sound {t : Turn ρ} (h : TurnSound t) (id : SequenceId) :
    TurnSound (serveBlock t id) := by
  obtain ⟨he, -, -⟩ := evictUntil_sound h.sound t.reserved _ le_rfl
  unfold serveBlock
  simp only
  generalize evictUntil t.reserved t.cache.entries.entries.length t.cache t.sched.allocators = e at he
  split
  · split
    · exact ⟨he, h.active, h.work⟩
    · exact ⟨he, h.active, h.work⟩
  · cases hidx : runningIndex { t.sched with allocators := e.2 } id with
    | none => exact ⟨he, h.active, h.work⟩
    | some i =>
        simp only
        cases hrun : t.sched.running[i]? with
        | none =>
            have : preempt { t.sched with allocators := e.2 } i = { t.sched with allocators := e.2 } := by
              unfold preempt
              simp only [hrun]
            rw [this]
            exact ⟨he, h.active, h.work⟩
        | some seq =>
            obtain ⟨h1, h2, -, h4, -⟩ := preempt_sound he h.active (i := i) hrun
            exact ⟨h1, h2, hasPendingWork_iff.2 (.inl h4)⟩

theorem serveBlock_pending {t : Turn ρ} (h : TurnSound t) {id : SequenceId} {rest : List SequenceId}
    (hp : Pending t (id :: rest)) : Pending (serveBlock t id) rest := by
  obtain ⟨he, -, -⟩ := evictUntil_sound h.sound t.reserved _ le_rfl
  unfold serveBlock
  simp only
  generalize evictUntil t.reserved t.cache.entries.entries.length t.cache t.sched.allocators = e at he
  rcases hp with hsched | ⟨hres, hbudget, hperm⟩
  · split
    · split
      · exact .inl fun hnil => hsched (List.append_eq_nil_iff.1 hnil).1
      · exact .inl hsched
    · exact .inl hsched
  · split
    · exact .inl fun hnil => List.cons_ne_nil _ _ (List.append_eq_nil_iff.1 hnil).2
    · -- no block to be had: the sequence leaves the running set
      have hmem : id ∈ t.sched.running.map (·.id) := hperm.mem_iff.2 List.mem_cons_self
      obtain ⟨i, seq, hidx, hrun, hid⟩ :=
        runningIndex_of_mem (s := { t.sched with allocators := e.2 }) hmem
      obtain ⟨-, -, hrem, -, -⟩ := preempt_sound he h.active hrun
      simp only [hidx]
      refine .inr ⟨hres, hbudget, ?_⟩
      have h1 := hrem.map (·.id)
      rw [List.map_cons, hid] at h1
      exact List.Perm.cons_inv (h1.symm.trans hperm)

theorem foldl_serveBlock {t : Turn ρ} (h : TurnSound t) {ids : List SequenceId}
    (hp : Pending t ids) :
    TurnSound (ids.foldl serveBlock t) ∧ Pending (ids.foldl serveBlock t) [] := by
  induction ids generalizing t with
  | nil => exact ⟨h, hp⟩
  | cons id ids ih => exact ih (serveBlock_sound h id) (serveBlock_pending h hp)

/-- The configuration and the next id. -/
structure SameFrame (s s' : Scheduler ρ) : Prop where
  config : s'.config = s.config
  nextId : s'.nextId = s.nextId

theorem SameFrame.refl (s : Scheduler ρ) : SameFrame s s := ⟨rfl, rfl⟩

theorem SameFrame.trans {s₁ s₂ s₃ : Scheduler ρ} (h : SameFrame s₁ s₂) (h' : SameFrame s₂ s₃) :
    SameFrame s₁ s₃ :=
  ⟨h'.config.trans h.config, h'.nextId.trans h.nextId⟩

theorem preempt_frame (s : Scheduler ρ) (i : Nat) : SameFrame s (s.preempt i) := by
  unfold preempt
  split <;> exact ⟨rfl, rfl⟩

theorem serveBlock_frame (t : Turn ρ) (id : SequenceId) : SameFrame t.sched (serveBlock t id).sched := by
  unfold serveBlock
  simp only
  split
  · split <;> exact ⟨rfl, rfl⟩
  · dsimp only
    split
    · exact ⟨(preempt_frame _ _).config, (preempt_frame _ _).nextId⟩
    · exact ⟨rfl, rfl⟩

theorem foldl_serveBlock_frame (ids : List SequenceId) (t : Turn ρ) :
    SameFrame t.sched (ids.foldl serveBlock t).sched := by
  induction ids generalizing t with
  | nil => exact .refl _
  | cons id ids ih => exact (serveBlock_frame t id).trans (ih _)

theorem scanRunning_nil {bs budget : Nat} (hbudget : 0 < budget) {running : List (SequenceState ρ)}
    (h : (scanRunning bs running budget).1 = []) :
    (scanRunning bs running budget).2 = (running.map (·.id), budget) := by
  induction running with
  | nil => rfl
  | cons seq rest ih =>
      unfold scanRunning at h ⊢
      split
      next hneeds =>
        rw [if_pos hneeds] at h
        have := ih h
        simp only [List.map_cons, this]
      next hneeds =>
        rw [if_neg hneeds, if_pos hbudget] at h
        cases h

/-! ## The admissions -/

section

variable (chainHash : List Token → UInt64 → UInt64)

theorem touch_sound {s : Scheduler ρ} {cache : PrefixCache} (h : Sound s cache) (tokens : List Token) :
    Sound s (cache.touch chainHash tokens s.blockSize) := by
  obtain ⟨hperm, hdis⟩ := PrefixCache.lookup_perm chainHash cache tokens s.blockSize
  refine h.pools rfl (fun hd => ?_) (h.conserved.perm fun l => ?_)
  · have hnil := h.idle (hdis.symm.trans hd)
    rw [hnil] at hperm
    exact List.perm_nil.1 hperm
  · exact (PrefixCache.entriesAt_perm hperm l).symm.append_right _

/-- The eviction loop of an admission ends with room for the prompt or with an empty prefix cache; the
free blocks it reports are those there are. -/
theorem evictFor_sound {s : Scheduler ρ} {cache : PrefixCache} (h : Sound s cache)
    (seq : SequenceState ρ) (reserved fuel needed free : Nat)
    (hfuel : cache.entries.entries.length ≤ fuel) :
    let e := evictFor chainHash s.blockSize reserved seq fuel (cache, s.allocators, needed, free)
    Sound { s with allocators := e.2.1 } e.1 ∧ shapes e.2.1 = shapes s.allocators ∧
      (free = numFreeBlocks s.allocators - reserved →
        e.2.2.2 = numFreeBlocks e.2.1 - reserved) ∧
      (needed = blocksNeededForPrefill chainHash s.blockSize seq cache →
        e.2.2.1 = blocksNeededForPrefill chainHash s.blockSize seq e.1) ∧
      (e.2.2.1 > e.2.2.2 → e.1.entries.entries = []) := by
  induction fuel generalizing s cache needed free with
  | zero =>
      exact ⟨h, rfl, fun hf => hf, fun hn => hn, fun _ => List.length_eq_zero_iff.1 (Nat.le_zero.1 hfuel)⟩
  | succ fuel ih =>
      unfold evictFor
      split
      next hfull =>
        cases he : cache.evictLru s.allocators with
        | none =>
            exact ⟨h, rfl, fun hf => hf, fun hn => hn, fun _ => PrefixCache.evictLru_none h.idle he⟩
        | some r =>
            obtain ⟨cache', as⟩ := r
            obtain ⟨h', hshape, hlen⟩ := evictLru_sound h he
            obtain ⟨h1, h2, h3, h4, h5⟩ := ih (s := { s with allocators := as }) h'
              (blocksNeededForPrefill chainHash s.blockSize seq cache') (numFreeBlocks as - reserved)
              (by omega)
            exact ⟨h1, h2.trans hshape, fun _ => h3 rfl, fun _ => h4 rfl, h5⟩
      next hfree =>
        exact ⟨h, rfl, fun hf => hf, fun hn => hn, fun hgt => absurd hgt hfree⟩

/-- A waiting sequence starts to run. -/
theorem admit_one {s : Scheduler ρ} {cache : PrefixCache} (h : Sound s cache) (hactive : s.Active)
    {seq : SequenceState ρ} {waiting : List (SequenceState ρ)} (hw : s.waiting = seq :: waiting) :
    Sound { s with
        waiting, running := s.running ++ [{ seq with status := .running, phase := .prefill }] } cache ∧
      Active { s with
        waiting, running := s.running ++ [{ seq with status := .running, phase := .prefill }] } := by
  have hmem : seq ∈ s.waiting := by rw [hw]; exact List.mem_cons_self
  have hrest : ∀ x ∈ waiting, x ∈ s.waiting := fun x hx => by
    rw [hw]
    exact List.mem_cons_of_mem _ hx
  have hcases : ∀ x ∈ (s.running ++ [{ seq with status := .running, phase := .prefill }]) ++ waiting,
      x ∈ s.running ++ s.waiting ∨ x = { seq with status := .running, phase := .prefill } := by
    intro x hx
    rcases List.mem_append.1 hx with hx | hx
    · rcases List.mem_append.1 hx with hx | hx
      · exact .inl (List.mem_append_left _ hx)
      · exact .inr (List.mem_singleton.1 hx)
    · exact .inl (List.mem_append_right _ (hrest x hx))
  have hseq : seq ∈ s.running ++ s.waiting := List.mem_append_right _ hmem
  refine ⟨⟨?_, fun x hx => h.fresh x (hrest x hx), ?_, ?_, ?_, ?_, fun x hx => h.queued x (hrest x hx),
    h.idle, h.block_pos⟩, ?_⟩
  · refine h.conserved.perm fun l => ?_
    rw [hw, seqsAt_append, seqsAt_cons, seqsAt_cons]
    show (cache.entriesAt l ++ (seqsAt s.running l ++ (blockIdsAt seq.caches l ++ seqsAt waiting l))).Perm
      (cache.entriesAt l ++ (seqsAt s.running l ++ (blockIdsAt seq.caches l ++ []) ++ seqsAt waiting l))
    rw [List.append_nil, List.append_assoc]
  · intro x hx
    rcases hcases x hx with hx | rfl
    · exact h.layers x hx
    · exact h.layers seq hseq
  · have hids := h.ids
    rw [hw] at hids
    have heq : (s.running ++ [{ seq with status := .running, phase := .prefill }] ++ waiting).map
        (fun x : SequenceState ρ => x.id) = (s.running ++ seq :: waiting).map (·.id) := by
      simp only [List.map_append, List.map_cons, List.append_assoc, List.cons_append, List.nil_append]
    rw [← heq] at hids
    exact hids
  · intro x hx
    rcases hcases x hx with hx | rfl
    · exact h.ids_lt x hx
    · exact h.ids_lt seq hseq
  · intro x hx hst
    rcases hcases x hx with hx | rfl
    · exact h.sized x hx hst
    · have := h.sized seq hseq (by rw [h.queued seq hmem]; exact fun hc => by cases hc)
      exact ⟨this.fits, this.more⟩
  · intro x hx
    rcases List.mem_append.1 hx with hx | hx
    · exact hactive x hx
    · rw [List.mem_singleton.1 hx]
      exact fun hc => by cases hc

/-- What one admission decides: the eviction of the loop body. -/
def roomFor (t : Turn ρ) (seq : SequenceState ρ) (free : Nat) :
    PrefixCache × List (BlockAllocator ρ) × Nat × Nat :=
  let needed := blocksNeededForPrefill chainHash t.sched.blockSize seq t.cache
  if needed > free then
    let cache := t.cache.touch chainHash seq.allTokens t.sched.blockSize
    evictFor chainHash t.sched.blockSize t.reserved seq cache.entries.entries.length
      (cache, t.sched.allocators, needed, free)
  else (t.cache, t.sched.allocators, needed, free)

theorem roomFor_sound {t : Turn ρ} (h : Sound t.sched t.cache) (seq : SequenceState ρ) (free : Nat) :
    let e := roomFor chainHash t seq free
    Sound { t.sched with allocators := e.2.1 } e.1 ∧ shapes e.2.1 = shapes t.sched.allocators ∧
      (free = numFreeBlocks t.sched.allocators - t.reserved →
        e.2.2.2 = numFreeBlocks e.2.1 - t.reserved) ∧
      e.2.2.1 ≤ PagedKvCache.blocksFor seq.allTokens.length t.sched.blockSize ∧
      (e.2.2.1 > e.2.2.2 → e.1.entries.entries = []) := by
  unfold roomFor
  simp only
  split
  next hfull =>
    obtain ⟨h1, h2, h3, -, h5⟩ := evictFor_sound chainHash (touch_sound chainHash h seq.allTokens) seq
      t.reserved _ (blocksNeededForPrefill chainHash t.sched.blockSize seq t.cache) free le_rfl
    refine ⟨h1, h2, h3, ?_, h5⟩
    -- every count of the blocks needed is at most the prompt's blocks
    have hle : ∀ (fuel : Nat) (r : PrefixCache × List (BlockAllocator ρ) × Nat × Nat),
        r.2.2.1 ≤ PagedKvCache.blocksFor seq.allTokens.length t.sched.blockSize →
          (evictFor chainHash t.sched.blockSize t.reserved seq fuel r).2.2.1 ≤
            PagedKvCache.blocksFor seq.allTokens.length t.sched.blockSize := by
      intro fuel
      induction fuel with
      | zero => exact fun r hr => hr
      | succ fuel ih =>
          intro r hr
          obtain ⟨cache, as, needed, free⟩ := r
          unfold evictFor
          split
          · cases cache.evictLru as with
            | none => exact hr
            | some r' => exact ih _ (Nat.sub_le _ _)
          · exact hr
    exact hle _ _ (Nat.sub_le _ _)
  next hfree =>
    exact ⟨h, rfl, fun hf => hf, Nat.sub_le _ _, fun hgt => absurd hgt hfree⟩

theorem admit_cons {t : Turn ρ} {fuel free : Nat} {prefilled : Bool}
    (hroom : t.sched.running.length < t.sched.config.maxNumSequences ∧ 0 < t.budget)
    {seq : SequenceState ρ} {waiting : List (SequenceState ρ)} (hw : t.sched.waiting = seq :: waiting) :
    admitWaiting chainHash (fuel + 1) t free prefilled =
      let e := roomFor chainHash t seq free
      let t' : Turn ρ := { t with cache := e.1, sched := { t.sched with allocators := e.2.1 } }
      if e.2.2.1 > e.2.2.2 then t'
      else if seq.allTokens.length > t.budget ∧ prefilled then t'
      else
        admitWaiting chainHash fuel
          { t' with
            sched := { t'.sched with
              waiting
              running := t.sched.running ++ [{ seq with status := .running, phase := .prefill }] }
            scheduled := t.scheduled ++ [(seq.id, .prefill)]
            budget := t.budget - seq.allTokens.length }
          (e.2.2.2 - e.2.2.1) true := by
  rw [admitWaiting, if_pos hroom]
  split
  next hnil =>
    rw [hw] at hnil
    cases hnil
  next seq' waiting' hcons =>
    rw [hw] at hcons
    cases hcons
    rfl

/-- Admissions keep the invariant and only add to what is scheduled. -/
theorem admit_sound {t : Turn ρ} (h : TurnSound t) (fuel free : Nat) (prefilled : Bool) :
    TurnSound (admitWaiting chainHash fuel t free prefilled) ∧
      t.scheduled <+: (admitWaiting chainHash fuel t free prefilled).scheduled := by
  induction fuel generalizing t free prefilled with
  | zero => exact ⟨h, List.prefix_rfl⟩
  | succ fuel ih =>
      by_cases hroom : t.sched.running.length < t.sched.config.maxNumSequences ∧ 0 < t.budget
      · cases hw : t.sched.waiting with
        | nil =>
            rw [admitWaiting, if_pos hroom]
            simp only [hw]
            exact ⟨h, List.prefix_rfl⟩
        | cons seq waiting =>
            rw [admit_cons chainHash hroom hw]
            obtain ⟨he, hshape, -, -, -⟩ := roomFor_sound chainHash h.sound seq free
            generalize roomFor chainHash t seq free = e at he
            have hkeep : TurnSound
                { t with cache := e.1, sched := { t.sched with allocators := e.2.1 } } :=
              ⟨he, h.active, h.work⟩
            simp only
            split
            · exact ⟨hkeep, List.prefix_rfl⟩
            · split
              · exact ⟨hkeep, List.prefix_rfl⟩
              · obtain ⟨hs, ha⟩ := @admit_one _ _ _ he h.active seq waiting hw
                obtain ⟨h1, h2⟩ := ih
                  (t := { t with
                    cache := e.1
                    sched := { t.sched with
                      allocators := e.2.1, waiting
                      running := t.sched.running ++ [{ seq with status := .running, phase := .prefill }] }
                    scheduled := t.scheduled ++ [(seq.id, .prefill)]
                    budget := t.budget - seq.allTokens.length })
                  ⟨hs, ha, hasPendingWork_iff.2 (.inr (by simp))⟩ (e.2.2.2 - e.2.2.1) true
                exact ⟨h1, (List.prefix_append _ _).trans h2⟩
      · rw [admitWaiting, if_neg hroom]
        exact ⟨h, List.prefix_rfl⟩

/-- With nothing running and nothing reserved the prompt in front is admitted. -/
theorem admit_front {t : Turn ρ} (h : TurnSound t) (hrunning : t.sched.running = [])
    (hreserved : t.reserved = 0) (hbudget : 0 < t.budget) (hmax : 0 < t.sched.config.maxNumSequences) :
    (admitWaiting chainHash t.sched.waiting.length t (numFreeBlocks t.sched.allocators - t.reserved)
      false).scheduled ≠ [] := by
  cases hw : t.sched.waiting with
  | nil =>
      have := hasPendingWork_iff.1 h.work
      rw [hw, hrunning] at this
      rcases this with hc | hc <;> exact absurd rfl hc
  | cons seq waiting =>
      rw [List.length_cons, admit_cons chainHash
        ⟨by rw [hrunning]; exact hmax, hbudget⟩ hw]
      obtain ⟨he, hshape, hfree, hneeded, hfull⟩ := roomFor_sound chainHash h.sound seq
        (numFreeBlocks t.sched.allocators - t.reserved)
      have hfree := hfree rfl
      generalize roomFor chainHash t seq (numFreeBlocks t.sched.allocators - t.reserved) = e
        at he hshape hfree hneeded hfull
      -- otherwise the cache is empty, the pool is free, and the prompt fits it
      have hfits : ¬ e.2.2.1 > e.2.2.2 := by
        intro hgt
        have hpool := numFree_of_empty he (hfull hgt) hrunning
        have hcap : kvCapacityTokens { t.sched with allocators := e.2.1 } = t.sched.kvCapacityTokens :=
          capacity_of_shapes hshape
        have hmem : seq ∈ t.sched.waiting := by rw [hw]; exact List.mem_cons_self
        have hlen := (h.sound.sized seq (List.mem_append_right _ hmem)
          (by rw [h.sound.queued seq hmem]; exact fun hc => by cases hc)).length_le
        have hpool : numFreeBlocks e.2.1 * t.sched.blockSize = t.sched.kvCapacityTokens :=
          hpool.trans hcap
        have hblocks : PagedKvCache.blocksFor seq.allTokens.length t.sched.blockSize ≤
            numFreeBlocks e.2.1 := by
          have := PagedKvCache.blocksFor_mono t.sched.blockSize (hlen.trans hpool.ge)
          rwa [PagedKvCache.blocksFor_mul h.sound.block_pos] at this
        rw [hreserved, Nat.sub_zero] at hfree
        omega
      simp only [if_neg hfits, Bool.false_eq_true, and_false, if_false]
      obtain ⟨hs, ha⟩ := @admit_one _ _ _ he h.active seq waiting hw
      obtain ⟨-, hpre⟩ := admit_sound chainHash
        (t := { t with
          cache := e.1
          sched := { t.sched with
            allocators := e.2.1, waiting
            running := t.sched.running ++ [{ seq with status := .running, phase := .prefill }] }
          scheduled := t.scheduled ++ [(seq.id, .prefill)]
          budget := t.budget - seq.allTokens.length })
        ⟨hs, ha, hasPendingWork_iff.2 (.inr (by simp))⟩ waiting.length (e.2.2.2 - e.2.2.1) true
      intro hnil
      have := hpre.length_le
      rw [hnil] at this
      simp at this

/-! ## The step as a whole -/

theorem schedule_sound {s : Scheduler ρ} {cache : PrefixCache} (h : Sound s cache)
    (hactive : s.Active) (hwork : s.hasPendingWork = true) :
    TurnSound (schedule chainHash s cache) := by
  have hfold : ∀ (ids : List SequenceId) {t : Turn ρ}, TurnSound t → TurnSound (ids.foldl serveBlock t) := by
    intro ids
    induction ids with
    | nil => exact fun ht => ht
    | cons id ids ih => exact fun ht => ih (serveBlock_sound ht id)
  exact (admit_sound chainHash (hfold _ (t := ⟨s, cache, _, _, 0⟩) ⟨h, hactive, hwork⟩) _ _ _).1

/-- A step with work to do schedules something. -/
theorem schedule_progress {s : Scheduler ρ} {cache : PrefixCache} (h : Sound s cache)
    (hactive : s.Active) (hwork : s.hasPendingWork = true) (hmax : 0 < s.config.maxNumSequences)
    (hbudget : 0 < s.config.maxTokensPerStep) : (schedule chainHash s cache).scheduled ≠ [] := by
  have hpending : Pending ⟨s, cache, (scanRunning s.blockSize s.running s.config.maxTokensPerStep).1,
      (scanRunning s.blockSize s.running s.config.maxTokensPerStep).2.2, 0⟩
        (scanRunning s.blockSize s.running s.config.maxTokensPerStep).2.1 := by
    by_cases hnil : (scanRunning s.blockSize s.running s.config.maxTokensPerStep).1 = []
    · have hscan := scanRunning_nil hbudget hnil
      exact .inr ⟨rfl, by rw [hscan]; exact hbudget, by rw [hscan]⟩
    · exact .inl hnil
  obtain ⟨hsound, hdone⟩ := foldl_serveBlock (t := ⟨s, cache, _, _, 0⟩) ⟨h, hactive, hwork⟩ hpending
  show (admitWaiting chainHash _ _ _ _).scheduled ≠ []
  generalize hturn : List.foldl serveBlock _ _ = t at hsound hdone ⊢
  rcases hdone with hsched | ⟨hres, hbud, hperm⟩
  · obtain ⟨-, hpre⟩ := admit_sound chainHash hsound t.sched.waiting.length
      (numFreeBlocks t.sched.allocators - t.reserved) false
    intro hnil
    rw [hnil] at hpre
    exact hsched (List.prefix_nil.1 hpre)
  · have hrun : t.sched.running = [] := List.map_eq_nil_iff.1 (List.perm_nil.1 hperm)
    refine admit_front chainHash hsound hrun hres hbud ?_
    have hconfig := (foldl_serveBlock_frame (scanRunning s.blockSize s.running s.config.maxTokensPerStep).2.1
      ⟨s, cache, (scanRunning s.blockSize s.running s.config.maxTokensPerStep).1,
        (scanRunning s.blockSize s.running s.config.maxTokensPerStep).2.2, 0⟩).config
    rw [hturn] at hconfig
    rw [hconfig]
    exact hmax

end

end Scheduler

end Oxydllm.Kv
