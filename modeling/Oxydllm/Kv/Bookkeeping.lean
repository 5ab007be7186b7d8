/-
# Oxydllm.Kv.Bookkeeping — the ids a scheduler answers for, and where it finds them.

The running set is a vector with a map of ids to slots beside it. Removal swaps the last sequence into the
slot that is left, and the map follows; every lookup of the scheduler goes through it. Over every run each
id is waiting or running, once, until it is reported, once.
-/
import Oxydllm.Kv.LiveIds

namespace Oxydllm.Kv

/-! ## A vector and the map of its slots -/

section

variable {κ : Type}

/-- The map holds the slot of every key, and nothing else. -/
def Tracks (index : κ → Option Nat) (keys : List κ) : Prop :=
  ∀ k i, index k = some i ↔ keys[i]? = some k

theorem Tracks.slot_unique {index : κ → Option Nat} {keys : List κ} (h : Tracks index keys) {k : κ}
    {i j : Nat} (hi : keys[i]? = some k) (hj : keys[j]? = some k) : i = j := by
  have hk := ((h k i).2 hi).symm.trans ((h k j).2 hj)
  exact Option.some.inj hk

theorem Tracks.nodup {index : κ → Option Nat} {keys : List κ} (h : Tracks index keys) : keys.Nodup := by
  apply List.nodup_iff_getElem?_ne_getElem?.2
  intro i j hij hj hsame
  have hi : keys[j]? = some keys[j] := List.getElem?_eq_getElem hj
  exact absurd (h.slot_unique (hsame.trans hi) hi) (Nat.ne_of_lt hij)

theorem tracks_nil : Tracks (fun _ : κ => none) [] := by
  intro k i
  simp

variable [DecidableEq κ]

theorem Tracks.push {index : κ → Option Nat} {keys : List κ} (h : Tracks index keys) {k : κ}
    (hnew : k ∉ keys) : Tracks (Function.update index k (some keys.length)) (keys ++ [k]) := by
  intro x i
  by_cases hx : x = k
  · subst hx
    rw [Function.update_self, List.getElem?_append]
    constructor
    · intro hi
      rw [← Option.some.inj hi]
      simp
    · intro hi
      split at hi
      · exact absurd (List.mem_of_getElem? hi) hnew
      next hlt =>
        obtain ⟨hlen, -⟩ := List.getElem?_eq_some_iff.1 hi
        rw [List.length_singleton] at hlen
        have : i = keys.length := by omega
        rw [this]
  · rw [Function.update_of_ne hx, h x i, List.getElem?_append]
    split
    · exact Iff.rfl
    next hlt =>
      rw [List.getElem?_eq_none (not_lt.1 hlt)]
      constructor
      · exact nofun
      · intro hi
        exact absurd (List.mem_singleton.1 (List.mem_of_getElem? hi)) hx

/-- The key of the last slot is moved into the slot that is left. -/
def moveLast (index : κ → Option Nat) (k : κ) (moved : Option κ) (i : Nat) : κ → Option Nat :=
  let index := Function.update index k none
  match moved with
  | some k' => Function.update index k' (some i)
  | none => index

theorem Tracks.swapRemove {index : κ → Option Nat} {keys : List κ} (h : Tracks index keys) {k : κ}
    {i : Nat} (hi : keys[i]? = some k) :
    Tracks (moveLast index k (swapRemove keys i)[i]? i) (swapRemove keys i) := by
  obtain ⟨hlen, -⟩ := List.getElem?_eq_some_iff.1 hi
  have hne : keys ≠ [] := List.ne_nil_of_length_pos (by omega)
  obtain ⟨front, last, rfl⟩ := (List.eq_nil_or_concat' keys).resolve_left hne
  have hlast : (front ++ [last])[front.length]? = some last := List.getElem?_concat_length
  have hfront : ∀ j, j ≠ front.length → (front ++ [last])[j]? = front[j]? := by
    intro j hj
    rw [List.getElem?_append]
    split
    · rfl
    next hge =>
      rw [List.getElem?_eq_none (not_lt.1 hge), List.getElem?_eq_none]
      rw [List.length_singleton]
      omega
  have hend : front[front.length]? = none := List.getElem?_eq_none le_rfl
  unfold Kv.swapRemove
  rw [List.getLast?_concat]
  simp only
  by_cases hil : i = front.length
  · -- the last slot itself
    subst hil
    have hkl : last = k := Option.some.inj (hlast.symm.trans hi)
    subst hkl
    rw [List.set_append_right _ _ le_rfl, Nat.sub_self]
    show Tracks (moveLast index last ((front ++ [last]).dropLast)[front.length]? front.length)
      (front ++ [last]).dropLast
    rw [List.dropLast_concat, hend]
    intro x j
    show Function.update index last none x = some j ↔ _
    by_cases hx : x = last
    · subst hx
      rw [Function.update_self]
      refine ⟨nofun, fun hj => ?_⟩
      have hjl : j ≠ front.length := fun hc => by rw [hc, hend] at hj; cases hj
      exact absurd (h.slot_unique ((hfront j hjl).trans hj) hlast) hjl
    · rw [Function.update_of_ne hx, h x j]
      by_cases hjl : j = front.length
      · rw [hjl, hlast, hend]
        exact ⟨fun hc => absurd (Option.some.inj hc).symm hx, nofun⟩
      · rw [hfront j hjl]
  · have hlt : i < front.length := by
      rw [List.length_append, List.length_singleton] at hlen
      omega
    have hkl : k ≠ last := fun hc => hil (h.slot_unique hi (hc ▸ hlast))
    rw [List.set_append_left _ _ hlt, List.dropLast_concat, List.getElem?_set_self hlt]
    intro x j
    show Function.update (Function.update index k none) last (some i) x = some j ↔ _
    by_cases hx : x = last
    · subst hx
      rw [Function.update_self]
      by_cases hij : i = j
      · rw [hij, List.getElem?_set_self (hij ▸ hlt)]
        exact iff_of_true rfl rfl
      · rw [List.getElem?_set_ne hij]
        refine iff_of_false (fun hc => hij (Option.some.inj hc)) fun hj => ?_
        have hjl : j ≠ front.length := fun hc => by rw [hc, hend] at hj; cases hj
        exact hjl (h.slot_unique ((hfront j hjl).trans hj) hlast)
    · rw [Function.update_of_ne hx]
      have hset : ∀ {j}, i ≠ j → ((front.set i last)[j]? = some x ↔ (front ++ [last])[j]? = some x) := by
        intro j hij
        rw [List.getElem?_set_ne hij]
        by_cases hjl : j = front.length
        · rw [hjl, hlast, hend]
          exact iff_of_false nofun fun hc => hx (Option.some.inj hc).symm
        · rw [hfront j hjl]
      by_cases hxk : x = k
      · subst hxk
        rw [Function.update_self]
        refine ⟨nofun, fun hj => ?_⟩
        by_cases hij : i = j
        · rw [← hij, List.getElem?_set_self hlt] at hj
          exact absurd (Option.some.inj hj).symm hx
        · exact absurd (h.slot_unique hi ((hset hij).1 hj)) hij
      · rw [Function.update_of_ne hxk, h x j]
        by_cases hij : i = j
        · rw [← hij, hi, List.getElem?_set_self hlt]
          exact iff_of_false (fun hc => hxk (Option.some.inj hc).symm)
            fun hc => hx (Option.some.inj hc).symm
        · exact (hset hij).symm

end

theorem map_swapRemove {α β : Type} (f : α → β) (xs : List α) (i : Nat) :
    swapRemove (xs.map f) i = (swapRemove xs i).map f := by
  unfold swapRemove
  rw [List.getLast?_map]
  cases xs.getLast? with
  | none => rfl
  | some last =>
      simp only [Option.map_some]
      rw [← List.map_set, List.map_dropLast]

/-! ## The scheduler with its index -/

variable {ρ : Type}

/-- A scheduler and its `running_index`. -/
structure IndexedScheduler (ρ : Type) where
  sched : Scheduler ρ
  index : SequenceId → Option Nat

/-- A step being put together, and the index. -/
structure IndexedTurn (ρ : Type) where
  turn : Scheduler.Turn ρ
  index : SequenceId → Option Nat

namespace IndexedScheduler

open Scheduler

def new (config : SchedulerConfig) (as : List (BlockAllocator ρ)) : IndexedScheduler ρ :=
  ⟨.new config as, fun _ => none⟩

def addRequest (s : IndexedScheduler ρ) (prompt : List Token) (maxTokens : Nat) :
    SequenceId × IndexedScheduler ρ :=
  (s.sched.nextId, { s with sched := s.sched.addRequest prompt maxTokens })

def pushToRunning (s : IndexedScheduler ρ) (seq : SequenceState ρ) : IndexedScheduler ρ :=
  ⟨{ s.sched with running := s.sched.running ++ [seq] },
    Function.update s.index seq.id (some s.sched.running.length)⟩

/-- `None` where the vector would be read out of bounds. -/
def removeFromRunning (s : IndexedScheduler ρ) (i : Nat) :
    Option (SequenceState ρ × IndexedScheduler ρ) :=
  match s.sched.running[i]? with
  | none => none
  | some seq =>
      let running := swapRemove s.sched.running i
      some (seq, ⟨{ s.sched with running }, moveLast s.index seq.id (running[i]?.map (·.id)) i⟩)

def preempt (s : IndexedScheduler ρ) (i : Nat) : Option (IndexedScheduler ρ) := do
  let (seq, s) ← s.removeFromRunning i
  let r := seq.clearCaches s.sched.allocators
  some ⟨{ s.sched with
    allocators := r.2
    waiting := { r.1 with numProcessedTokens := 0, phase := .prefill, status := .waiting } ::
      s.sched.waiting }, s.index⟩

/-- One turn of the second loop. A sequence that is to be preempted and has no slot is a panic. -/
def serveBlock (t : IndexedTurn ρ) (id : SequenceId) : Option (IndexedTurn ρ) :=
  let e := evictUntil t.turn.reserved t.turn.cache.entries.entries.length t.turn.cache
    t.turn.sched.allocators
  let sched := { t.turn.sched with allocators := e.2 }
  if numFreeBlocks e.2 > t.turn.reserved then
    if 0 < t.turn.budget then
      some { t with turn :=
        { sched, cache := e.1, scheduled := t.turn.scheduled ++ [(id, .decode)],
          budget := t.turn.budget - 1, reserved := t.turn.reserved + 1 } }
    else some { t with turn := { t.turn with sched, cache := e.1 } }
  else do
    let i ← t.index id
    let s ← preempt ⟨sched, t.index⟩ i
    some ⟨{ t.turn with sched := s.sched, cache := e.1 }, s.index⟩

section

variable (chainHash : List Token → UInt64 → UInt64)

/-- The third loop. -/
def admitWaiting : Nat → IndexedTurn ρ → Nat → Bool → IndexedTurn ρ
  | 0, t, _, _ => t
  | fuel + 1, ⟨t, index⟩, free, prefillScheduled =>
      if t.sched.running.length < t.sched.config.maxNumSequences ∧ 0 < t.budget then
        match t.sched.waiting with
        | [] => ⟨t, index⟩
        | seq :: waiting =>
            let e := roomFor chainHash t seq free
            let t := { t with cache := e.1, sched := { t.sched with allocators := e.2.1 } }
            if e.2.2.1 > e.2.2.2 then ⟨t, index⟩
            else if seq.allTokens.length > t.budget ∧ prefillScheduled then ⟨t, index⟩
            else
              let s := pushToRunning ⟨{ t.sched with waiting }, index⟩
                { seq with status := .running, phase := .prefill }
              admitWaiting fuel
                ⟨{ t with
                  sched := s.sched
                  scheduled := t.scheduled ++ [(seq.id, .prefill)]
                  budget := t.budget - seq.allTokens.length }, s.index⟩
                (e.2.2.2 - e.2.2.1) true
      else ⟨t, index⟩

def schedule (s : IndexedScheduler ρ) (cache : PrefixCache) : Option (IndexedTurn ρ) := do
  let scan := scanRunning s.sched.blockSize s.sched.running s.sched.config.maxTokensPerStep
  let t ← scan.2.1.foldlM serveBlock ⟨⟨s.sched, cache, scan.1, scan.2.2, 0⟩, s.index⟩
  some (admitWaiting chainHash t.turn.sched.waiting.length t
    (numFreeBlocks t.turn.sched.allocators - t.turn.reserved) false)

end

/-- One sequence leaves and gives its blocks back; a slot that is not there is a panic. -/
def dropRunning (s : IndexedScheduler ρ) (i : Nat) : Option (IndexedScheduler ρ) := do
  let (seq, s) ← s.removeFromRunning i
  some ⟨{ s.sched with allocators := (seq.clearCaches s.sched.allocators).2 }, s.index⟩

def retireFinished (s : IndexedScheduler ρ) : Option (List SequenceId × IndexedScheduler ρ) := do
  let finished := (s.sched.running.filter (·.status == .finished)).map (·.id)
  let s ← finished.foldlM (fun s id => do dropRunning s (← s.index id)) s
  some (finished, s)

def abortAllRunning (s : IndexedScheduler ρ) : List SequenceId × IndexedScheduler ρ :=
  (s.sched.abortAllRunning.1, ⟨s.sched.abortAllRunning.2, fun _ => none⟩)

def abortSequence (s : IndexedScheduler ρ) (id : SequenceId) : Option (Bool × IndexedScheduler ρ) :=
  match s.index id with
  | some i => do some (true, ← s.dropRunning i)
  | none =>
      match s.sched.waiting.findIdx? (·.id == id) with
      | some i =>
          match s.sched.waiting[i]? with
          | some seq =>
              some (true, ⟨{ s.sched with
                waiting := s.sched.waiting.eraseIdx i
                allocators := (seq.clearCaches s.sched.allocators).2 }, s.index⟩)
          | none => some (false, s)
      | none => some (false, s)

def abortAll (s : IndexedScheduler ρ) : List SequenceId × IndexedScheduler ρ :=
  let r := s.abortAllRunning
  (r.1 ++ s.sched.waiting.map (·.id),
    { r.2 with sched := { r.2.sched with
      waiting := [], allocators := clearAll r.2.sched.allocators s.sched.waiting } })

/-! ## The index follows -/

/-- The index is that of the running vector. -/
def Indexed (s : Scheduler ρ) (index : SequenceId → Option Nat) : Prop :=
  Tracks index (s.running.map (·.id))

/-- What is found through the index is what a search of the vector finds. -/
theorem indexed_eq {s : Scheduler ρ} {index : SequenceId → Option Nat} (h : Indexed s index)
    (id : SequenceId) : index id = s.runningIndex id := by
  by_cases hid : id ∈ s.running.map (·.id)
  · obtain ⟨i, seq, hidx, hi, hseq⟩ := runningIndex_of_mem hid
    rw [hidx, h id i, List.getElem?_map, hi, Option.map_some, hseq]
  · have hnone : index id = none := by
      apply Option.eq_none_iff_forall_ne_some.2
      intro i hi
      exact hid (List.mem_of_getElem? ((h id i).1 hi))
    rw [hnone, runningIndex_none hid]

theorem removeFromRunning_indexed {s : IndexedScheduler ρ} (h : Indexed s.sched s.index) {i : Nat}
    {seq : SequenceState ρ} (hi : s.sched.running[i]? = some seq) :
    ∃ index, s.removeFromRunning i =
        some (seq, ⟨{ s.sched with running := swapRemove s.sched.running i }, index⟩) ∧
      Tracks index ((swapRemove s.sched.running i).map (·.id)) := by
  unfold removeFromRunning
  rw [hi]
  refine ⟨_, rfl, ?_⟩
  have hid : (s.sched.running.map (·.id))[i]? = some seq.id := by
    rw [List.getElem?_map, hi, Option.map_some]
  have := h.swapRemove hid
  rwa [map_swapRemove, List.getElem?_map] at this

theorem preempt_indexed {s : IndexedScheduler ρ} (h : Indexed s.sched s.index) {i : Nat}
    {seq : SequenceState ρ} (hi : s.sched.running[i]? = some seq) :
    ∃ index, s.preempt i = some ⟨s.sched.preempt i, index⟩ ∧ Indexed (s.sched.preempt i) index := by
  obtain ⟨index, hremove, htracks⟩ := removeFromRunning_indexed h hi
  have heq : s.sched.preempt i =
      { s.sched with
        running := swapRemove s.sched.running i
        allocators := (seq.clearCaches s.sched.allocators).2
        waiting := { (seq.clearCaches s.sched.allocators).1 with
          numProcessedTokens := 0, phase := .prefill, status := .waiting } :: s.sched.waiting } := by
    unfold Scheduler.preempt
    rw [hi]
  rw [heq]
  refine ⟨index, ?_, htracks⟩
  unfold preempt
  rw [hremove]
  rfl

theorem dropRunning_indexed {s : IndexedScheduler ρ} (h : Indexed s.sched s.index) {i : Nat}
    {seq : SequenceState ρ} (hi : s.sched.running[i]? = some seq) :
    ∃ index, s.dropRunning i = some ⟨s.sched.dropRunning i, index⟩ ∧
      Indexed (s.sched.dropRunning i) index := by
  obtain ⟨index, hremove, htracks⟩ := removeFromRunning_indexed h hi
  have heq : s.sched.dropRunning i =
      { s.sched with
        running := swapRemove s.sched.running i
        allocators := (seq.clearCaches s.sched.allocators).2 } := by
    unfold Scheduler.dropRunning
    rw [hi]
  rw [heq]
  refine ⟨index, ?_, htracks⟩
  unfold dropRunning
  rw [hremove]
  rfl

/-! ## What a step schedules -/

/-- The ids scheduled so far and those still to be served are running, each once. -/
structure Serving (scheduled : List (SequenceId × SequencePhase)) (rest : List SequenceId)
    (running : List (SequenceState ρ)) : Prop where
  nodup : (scheduled.map (·.1) ++ rest).Nodup
  running : ∀ id ∈ scheduled.map (·.1) ++ rest, id ∈ running.map (·.id)

theorem Serving.serve {scheduled : List (SequenceId × SequencePhase)} {id : SequenceId}
    {rest : List SequenceId} {running : List (SequenceState ρ)}
    (h : Serving scheduled (id :: rest) running) (phase : SequencePhase) :
    Serving (scheduled ++ [(id, phase)]) rest running := by
  have heq : (scheduled ++ [(id, phase)]).map (·.1) ++ rest = scheduled.map (·.1) ++ id :: rest := by
    rw [List.map_append, List.append_assoc]
    rfl
  exact ⟨heq ▸ h.nodup, heq ▸ h.running⟩

theorem Serving.skip {scheduled : List (SequenceId × SequencePhase)} {id : SequenceId}
    {rest : List SequenceId} {running : List (SequenceState ρ)}
    (h : Serving scheduled (id :: rest) running) : Serving scheduled rest running := by
  refine ⟨(List.nodup_cons.1 (List.nodup_middle.1 h.nodup)).2, fun x hx => h.running x ?_⟩
  exact (List.perm_middle.mem_iff).2 (List.mem_cons_of_mem _ hx)

/-- A sequence that is not served may leave. -/
theorem Serving.leave {scheduled : List (SequenceId × SequencePhase)} {seq : SequenceState ρ}
    {rest : List SequenceId} {running : List (SequenceState ρ)} {i : Nat}
    (h : Serving scheduled (seq.id :: rest) running) (hi : running[i]? = some seq) :
    Serving scheduled rest (swapRemove running i) := by
  refine ⟨h.skip.nodup, fun x hx => ?_⟩
  have hperm := (swapRemove_perm hi).map fun y : SequenceState ρ => y.id
  rcases List.mem_cons.1 (hperm.mem_iff.1 (h.skip.running x hx)) with rfl | hx'
  · exact absurd hx (List.nodup_cons.1 (List.nodup_middle.1 h.nodup)).1
  · exact hx'

theorem Serving.enter {scheduled : List (SequenceId × SequencePhase)} {running : List (SequenceState ρ)}
    (h : Serving scheduled [] running) {seq : SequenceState ρ} (hnew : seq.id ∉ running.map (·.id))
    (phase : SequencePhase) : Serving (scheduled ++ [(seq.id, phase)]) [] (running ++ [seq]) := by
  have hold := h.nodup
  have hrun : ∀ x ∈ scheduled.map (·.1), x ∈ running.map (·.id) :=
    fun x hx => h.running x (List.mem_append_left _ hx)
  have hids : (scheduled ++ [(seq.id, phase)]).map (·.1) ++ [] = scheduled.map (·.1) ++ [seq.id] := by
    rw [List.append_nil, List.map_append]
    rfl
  constructor
  · rw [hids]
    rw [List.append_nil] at hold
    exact List.nodup_append.2 ⟨hold, List.nodup_singleton _, fun x hx y hy => by
      rw [List.mem_singleton.1 hy]
      exact fun hc => hnew (hc ▸ hrun x hx)⟩
  · rw [hids, List.map_append]
    intro x hx
    rcases List.mem_append.1 hx with hx | hx
    · exact List.mem_append_left _ (hrun x hx)
    · exact List.mem_append_right _ hx

/-- The first loop takes every running sequence at most once. -/
theorem scanRunning_serving (blockSize budget : Nat) {running : List (SequenceState ρ)}
    (h : (running.map (·.id)).Nodup) :
    Serving (scanRunning blockSize running budget).1 (scanRunning blockSize running budget).2.1 running := by
  have hsub : ∀ (running : List (SequenceState ρ)) (budget : Nat),
      List.Subperm ((scanRunning blockSize running budget).1.map (·.1) ++
        (scanRunning blockSize running budget).2.1) (running.map (·.id)) := by
    intro running
    induction running with
    | nil => exact fun _ => .refl _
    | cons seq rest ih =>
        intro budget
        unfold scanRunning
        split
        · exact (List.perm_middle.subperm).trans ((List.subperm_cons _).2 (ih _))
        · split
          · exact (List.subperm_cons _).2 (ih _)
          · exact (ih _).trans (List.sublist_cons_self _ _).subperm
  obtain ⟨ids, hperm, hids⟩ := hsub running budget
  exact ⟨hperm.nodup_iff.1 (hids.nodup h), fun id hid => (hsub _ _).subset hid⟩

/-- A turn serves one of them, skips it or sends it away. -/
theorem serveBlock_serving {t : Turn ρ} {id : SequenceId} {rest : List SequenceId}
    (h : Serving t.scheduled (id :: rest) t.sched.running) :
    Serving (Scheduler.serveBlock t id).scheduled rest (Scheduler.serveBlock t id).sched.running := by
  unfold Scheduler.serveBlock
  simp only
  generalize evictUntil t.reserved t.cache.entries.entries.length t.cache t.sched.allocators = e
  split
  · split
    · exact h.serve _
    · -- out of budget: it waits a step, where it is
      exact h.skip
  · have hrunning : id ∈ t.sched.running.map (·.id) :=
      h.running id (List.mem_append_right _ List.mem_cons_self)
    obtain ⟨i, seq, hidx, hi, rfl⟩ := @runningIndex_of_mem _ { t.sched with allocators := e.2 } _ hrunning
    have hrun : (Scheduler.preempt { t.sched with allocators := e.2 } i).running =
        swapRemove t.sched.running i := by
      unfold Scheduler.preempt
      simp only [hi]
    rw [hidx]
    show Serving t.scheduled rest (Scheduler.preempt { t.sched with allocators := e.2 } i).running
    rw [hrun]
    exact h.leave hi

theorem serveBlock_indexed {t : Turn ρ} {index : SequenceId → Option Nat} (h : Indexed t.sched index)
    {id : SequenceId} (hrunning : id ∈ t.sched.running.map (·.id)) :
    ∃ index', serveBlock ⟨t, index⟩ id = some ⟨Scheduler.serveBlock t id, index'⟩ ∧
      Indexed (Scheduler.serveBlock t id).sched index' := by
  unfold serveBlock Scheduler.serveBlock
  simp only
  generalize evictUntil t.reserved t.cache.entries.entries.length t.cache t.sched.allocators = e
  split
  · split
    · exact ⟨index, rfl, h⟩
    · exact ⟨index, rfl, h⟩
  · have hslot := @indexed_eq _ { t.sched with allocators := e.2 } _ h id
    obtain ⟨i, seq, hidx, hi, -⟩ := @runningIndex_of_mem _ { t.sched with allocators := e.2 } _ hrunning
    obtain ⟨index', hpreempt, hindexed⟩ :=
      @preempt_indexed _ ⟨{ t.sched with allocators := e.2 }, index⟩ h _ _ hi
    rw [hslot, hidx]
    simp only [Option.bind_eq_bind, Option.bind_some, hpreempt]
    exact ⟨index', rfl, hindexed⟩

theorem foldl_serveBlock_indexed {ids : List SequenceId} {t : Turn ρ}
    {index : SequenceId → Option Nat} (h : Indexed t.sched index)
    (hserve : Serving t.scheduled ids t.sched.running) :
    ∃ index', ids.foldlM serveBlock ⟨t, index⟩ = some ⟨ids.foldl Scheduler.serveBlock t, index'⟩ ∧
      Indexed (ids.foldl Scheduler.serveBlock t).sched index' ∧
        Serving (ids.foldl Scheduler.serveBlock t).scheduled []
          (ids.foldl Scheduler.serveBlock t).sched.running := by
  induction ids generalizing t index with
  | nil => exact ⟨index, rfl, h, hserve⟩
  | cons id ids ih =>
      obtain ⟨index', hstep, hindexed⟩ :=
        serveBlock_indexed h (hserve.running id (List.mem_append_right _ List.mem_cons_self))
      obtain ⟨index'', hrest, hall⟩ := ih hindexed (serveBlock_serving hserve)
      refine ⟨index'', ?_, hall⟩
      rw [List.foldlM_cons, hstep]
      exact hrest

theorem admitWaiting_indexed (chainHash : List Token → UInt64 → UInt64) (fuel : Nat) {t : Turn ρ}
    {index : SequenceId → Option Nat} (h : Indexed t.sched index) (hlive : t.sched.liveIds.Nodup)
    (hserve : Serving t.scheduled [] t.sched.running) (free : Nat) (prefilled : Bool) :
    ∃ index', admitWaiting chainHash fuel ⟨t, index⟩ free prefilled =
        ⟨Scheduler.admitWaiting chainHash fuel t free prefilled, index'⟩ ∧
      Indexed (Scheduler.admitWaiting chainHash fuel t free prefilled).sched index' ∧
        Serving (Scheduler.admitWaiting chainHash fuel t free prefilled).scheduled []
          (Scheduler.admitWaiting chainHash fuel t free prefilled).sched.running := by
  induction fuel generalizing t index free prefilled with
  | zero => exact ⟨index, rfl, h, hserve⟩
  | succ fuel ih =>
      by_cases hroom : t.sched.running.length < t.sched.config.maxNumSequences ∧ 0 < t.budget
      · cases hw : t.sched.waiting with
        | nil =>
            rw [admitWaiting, if_pos hroom, Scheduler.admitWaiting, if_pos hroom]
            simp only [hw]
            exact ⟨index, rfl, h, hserve⟩
        | cons seq waiting =>
            rw [admit_cons chainHash hroom hw, admitWaiting, if_pos hroom]
            simp only [hw]
            generalize roomFor chainHash t seq free = e
            split
            · exact ⟨index, rfl, h, hserve⟩
            · split
              · exact ⟨index, rfl, h, hserve⟩
              · unfold liveIds at hlive
                rw [hw, List.map_append, List.map_cons] at hlive
                have hnew : seq.id ∉ t.sched.running.map (·.id) := fun hc =>
                  (List.nodup_cons.1 (List.nodup_middle.1 hlive)).1 (List.mem_append_left _ hc)
                have hpush := h.push hnew
                rw [List.length_map] at hpush
                apply ih
                · show Tracks _ ((t.sched.running ++ [_]).map fun x : SequenceState ρ => x.id)
                  rw [List.map_append]
                  exact hpush
                · show ((t.sched.running ++ [_] ++ waiting).map fun x : SequenceState ρ => x.id).Nodup
                  rw [List.append_assoc, List.singleton_append, List.map_append, List.map_cons]
                  exact hlive
                · exact @Serving.enter _ _ _ hserve { seq with status := .running, phase := .prefill } hnew _
      · rw [admitWaiting, if_neg hroom, Scheduler.admitWaiting, if_neg hroom]
        exact ⟨index, rfl, h, hserve⟩

/-- `schedule` never misses a slot, and what it selects is running. -/
theorem schedule_indexed (chainHash : List Token → UInt64 → UInt64) {s : IndexedScheduler ρ}
    (h : Indexed s.sched s.index) (hlive : s.sched.liveIds.Nodup) (cache : PrefixCache) :
    ∃ index, s.schedule chainHash cache = some ⟨s.sched.schedule chainHash cache, index⟩ ∧
      Indexed (s.sched.schedule chainHash cache).sched index ∧
        Serving (s.sched.schedule chainHash cache).scheduled []
          (s.sched.schedule chainHash cache).sched.running := by
  have hscan := scanRunning_serving s.sched.blockSize s.sched.config.maxTokensPerStep h.nodup
  unfold schedule Scheduler.schedule
  simp only
  generalize scanRunning s.sched.blockSize s.sched.running s.sched.config.maxTokensPerStep = scan at hscan
  obtain ⟨index', hfold, hindexed, hserve⟩ :=
    foldl_serveBlock_indexed (t := ⟨s.sched, cache, scan.1, scan.2.2, 0⟩) h hscan
  have hperm : (scan.2.1.foldl Scheduler.serveBlock
      ⟨s.sched, cache, scan.1, scan.2.2, 0⟩).sched.liveIds.Perm s.sched.liveIds := by
    refine List.foldlRecOn (motive := fun t : Turn ρ => t.sched.liveIds.Perm s.sched.liveIds)
      _ _ (.refl _) fun t ht id _ => (serveBlock_liveIds t id).trans ht
  rw [hfold]
  simp only [Option.bind_eq_bind, Option.bind_some]
  obtain ⟨index'', heq, hall⟩ := admitWaiting_indexed chainHash _ hindexed
    (hperm.nodup_iff.2 hlive) hserve _ false
  exact ⟨index'', congrArg some heq, hall⟩

/-! ## Leaving -/

theorem retireFinished_indexed {s : IndexedScheduler ρ} (h : Indexed s.sched s.index) :
    ∃ index, s.retireFinished = some (s.sched.retireFinished.1, ⟨s.sched.retireFinished.2, index⟩) ∧
      Indexed s.sched.retireFinished.2 index := by
  have hfold : ∀ (drop : Scheduler ρ → SequenceId → Scheduler ρ),
      (∀ s id i, s.runningIndex id = some i → drop s id = s.dropRunning i) →
        ∀ (ids : List SequenceId) (s : IndexedScheduler ρ), Indexed s.sched s.index → ids.Nodup →
          (∀ id ∈ ids, id ∈ s.sched.running.map (·.id)) →
            ∃ index, ids.foldlM (fun s id => do dropRunning s (← s.index id)) s =
              some ⟨ids.foldl drop s.sched, index⟩ ∧ Indexed (ids.foldl drop s.sched) index := by
    intro drop hdrop ids
    induction ids with
    | nil => exact fun s h _ _ => ⟨s.index, rfl, h⟩
    | cons id ids ih =>
        intro s h hnodup hrunning
        obtain ⟨i, seq, hidx, hi, rfl⟩ := runningIndex_of_mem (hrunning _ List.mem_cons_self)
        obtain ⟨hnew, hnodup⟩ := List.nodup_cons.1 hnodup
        obtain ⟨index, hstep, hindexed⟩ := dropRunning_indexed h hi
        have hrest : ∀ x ∈ ids, x ∈ (s.sched.dropRunning i).running.map (·.id) := by
          have hrun : (s.sched.dropRunning i).running = swapRemove s.sched.running i := by
            unfold Scheduler.dropRunning
            rw [hi]
          intro x hx
          rw [hrun]
          have hperm := (swapRemove_perm hi).map fun y : SequenceState ρ => y.id
          rcases List.mem_cons.1 (hperm.mem_iff.1 (hrunning x (List.mem_cons_of_mem _ hx))) with rfl | hx'
          · exact absurd hx hnew
          · exact hx'
        obtain ⟨index', hfold, hall⟩ := ih ⟨s.sched.dropRunning i, index⟩ hindexed hnodup hrest
        rw [List.foldl_cons, hdrop _ _ _ hidx]
        refine ⟨index', ?_, hall⟩
        rw [List.foldlM_cons, indexed_eq h, hidx]
        simp only [Option.bind_eq_bind, Option.bind_some, hstep]
        exact hfold
  have hsub : s.sched.retireFinished.1.Sublist (s.sched.running.map (·.id)) :=
    List.filter_sublist.map _
  obtain ⟨drop, hdrop, hret⟩ : ∃ drop : Scheduler ρ → SequenceId → Scheduler ρ,
      (∀ s id i, s.runningIndex id = some i → drop s id = s.dropRunning i) ∧
        s.sched.retireFinished.2 = s.sched.retireFinished.1.foldl drop s.sched := by
    refine ⟨_, ?_, rfl⟩
    intro s id i hidx
    simp only [hidx]
  obtain ⟨index, hall, hindexed⟩ := hfold drop hdrop s.sched.retireFinished.1 s h (hsub.nodup h.nodup)
    fun id hid => hsub.subset hid
  rw [hret]
  refine ⟨index, ?_, hindexed⟩
  show (Option.bind (List.foldlM _ s s.sched.retireFinished.1) _) = _
  rw [hall]
  rfl

theorem abortSequence_indexed {s : IndexedScheduler ρ} (h : Indexed s.sched s.index) (id : SequenceId) :
    ∃ index, s.abortSequence id =
        some ((s.sched.abortSequence id).1, ⟨(s.sched.abortSequence id).2, index⟩) ∧
      Indexed (s.sched.abortSequence id).2 index := by
  unfold abortSequence Scheduler.abortSequence
  rw [indexed_eq h id]
  by_cases hid : id ∈ s.sched.running.map (·.id)
  · obtain ⟨i, seq, hidx, hi, -⟩ := runningIndex_of_mem hid
    obtain ⟨index, hdrop, hindexed⟩ := dropRunning_indexed h hi
    rw [hidx]
    simp only [hdrop]
    exact ⟨index, rfl, hindexed⟩
  · rw [runningIndex_none hid]
    simp only
    cases s.sched.waiting.findIdx? (·.id == id) with
    | none => exact ⟨s.index, rfl, h⟩
    | some i =>
        simp only
        cases s.sched.waiting[i]? with
        | none => exact ⟨s.index, rfl, h⟩
        | some seq => exact ⟨s.index, rfl, h⟩

/-- `abort_sequence` reports what it removed. -/
theorem abortSequence_found (s : Scheduler ρ) (id : SequenceId) :
    (s.abortSequence id).1 = true ↔ id ∈ s.liveIds := by
  unfold Scheduler.abortSequence liveIds
  rw [List.map_append, List.mem_append]
  by_cases hrun : id ∈ s.running.map (·.id)
  · obtain ⟨i, seq, hidx, -, -⟩ := runningIndex_of_mem hrun
    rw [hidx]
    exact iff_of_true rfl (.inl hrun)
  · rw [runningIndex_none hrun]
    simp only
    cases hfind : s.waiting.findIdx? (·.id == id) with
    | none => exact iff_of_false nofun fun hc => findId_none.1 hfind (hc.resolve_left hrun)
    | some i =>
        obtain ⟨seq, hi, hid⟩ := findId_some hfind
        simp only [hi]
        exact iff_of_true trivial (.inr (List.mem_map.2 ⟨seq, List.mem_of_getElem? hi, hid⟩))

/-! ## Runs -/

/-- What a caller does with a scheduler. Between two steps the running sequences advance: whatever they
hold changes, with the pools, and some are marked finished. -/
inductive Move (ρ : Type) where
  | addRequest (prompt : List Token) (maxTokens : Nat)
  | schedule (cache : PrefixCache)
  | advance (f : SequenceState ρ → SequenceState ρ) (as : List (BlockAllocator ρ))
  | retireFinished
  | abortSequence (id : SequenceId)
  | abortAllRunning
  | abortAll

/-- The ids handed out, and the ids reported as retired or aborted. -/
structure Log where
  added : List SequenceId
  reported : List SequenceId

def advance (s : IndexedScheduler ρ) (f : SequenceState ρ → SequenceState ρ)
    (as : List (BlockAllocator ρ)) : IndexedScheduler ρ :=
  { s with sched := { s.sched with
    running := s.sched.running.map fun seq => { f seq with id := seq.id }, allocators := as } }

def Log.report (log : Log) (ids : List SequenceId) : Log := { log with reported := log.reported ++ ids }

variable (chainHash : List Token → UInt64 → UInt64)

/-- One move; `none` is a panic. -/
def step : IndexedScheduler ρ × Log → Move ρ → Option (IndexedScheduler ρ × Log)
  | (s, log), .addRequest prompt maxTokens =>
      let r := s.addRequest prompt maxTokens
      some (r.2, { log with added := log.added ++ [r.1] })
  | (s, log), .schedule cache => do
      let t ← s.schedule chainHash cache
      some (⟨t.turn.sched, t.index⟩, log)
  | (s, log), .advance f as => some (s.advance f as, log)
  | (s, log), .retireFinished => do
      let (ids, s) ← s.retireFinished
      some (s, log.report ids)
  | (s, log), .abortSequence id => do
      let (found, s) ← s.abortSequence id
      some (s, if found then log.report [id] else log)
  | (s, log), .abortAllRunning => some (s.abortAllRunning.2, log.report s.abortAllRunning.1)
  | (s, log), .abortAll => some (s.abortAll.2, log.report s.abortAll.1)

/-- A run from an empty scheduler. -/
def run (config : SchedulerConfig) (as : List (BlockAllocator ρ)) (moves : List (Move ρ)) :
    Option (IndexedScheduler ρ × Log) :=
  moves.foldlM (step chainHash) (.new config as, ⟨[], []⟩)

/-- Every id handed out is reported or live, once, and the index is in step. -/
structure Booked (s : IndexedScheduler ρ) (log : Log) : Prop where
  indexed : Indexed s.sched s.index
  ids : (log.reported ++ s.sched.liveIds).Perm log.added
  added : log.added = List.range s.sched.nextId

theorem Booked.nodup {s : IndexedScheduler ρ} {log : Log} (h : Booked s log) :
    (log.reported ++ s.sched.liveIds).Nodup := by
  rw [h.ids.nodup_iff, h.added]
  exact List.nodup_range

theorem Booked.live {s : IndexedScheduler ρ} {log : Log} (h : Booked s log) : s.sched.liveIds.Nodup :=
  h.nodup.of_append_right

/-- Some live ids become reported ones. -/
theorem Booked.leave {s : IndexedScheduler ρ} {log : Log} (h : Booked s log) {s' : IndexedScheduler ρ}
    {ids : List SequenceId} (hindexed : Indexed s'.sched s'.index)
    (hids : s.sched.liveIds.Perm (ids ++ s'.sched.liveIds)) (hnext : s'.sched.nextId = s.sched.nextId) :
    Booked s' (log.report ids) := by
  refine ⟨hindexed, ?_, h.added.trans (congrArg List.range hnext.symm)⟩
  show ((log.reported ++ ids) ++ s'.sched.liveIds).Perm log.added
  rw [List.append_assoc]
  exact (hids.symm.append_left _).trans h.ids

/-- The live ids stay the same. -/
theorem Booked.keep {s : IndexedScheduler ρ} {log : Log} (h : Booked s log) {s' : IndexedScheduler ρ}
    (hindexed : Indexed s'.sched s'.index) (hids : s'.sched.liveIds.Perm s.sched.liveIds)
    (hnext : s'.sched.nextId = s.sched.nextId) : Booked s' log :=
  ⟨hindexed, (hids.append_left _).trans h.ids, h.added.trans (congrArg List.range hnext.symm)⟩

theorem step_booked {s : IndexedScheduler ρ} {log : Log} (h : Booked s log) (m : Move ρ) :
    ∃ s' log', step chainHash (s, log) m = some (s', log') ∧ Booked s' log' := by
  cases m with
  | addRequest prompt maxTokens =>
      refine ⟨_, _, rfl, h.indexed, ?_, ?_⟩
      · show (log.reported ++ (s.sched.addRequest prompt maxTokens).liveIds).Perm
          (log.added ++ [s.sched.nextId])
        rw [addRequest_liveIds, ← List.append_assoc]
        exact h.ids.append_right _
      · show log.added ++ [s.sched.nextId] = List.range (s.sched.nextId + 1)
        rw [List.range_succ, h.added]
  | schedule cache =>
      obtain ⟨index, heq, hindexed, -⟩ := schedule_indexed chainHash h.indexed h.live cache
      refine ⟨⟨(s.sched.schedule chainHash cache).sched, index⟩, log, ?_, ?_⟩
      · show (s.schedule chainHash cache).bind _ = _
        rw [heq]
        rfl
      · exact h.keep hindexed (schedule_liveIds s.sched cache) (schedule_frame s.sched cache).nextId
  | advance f as =>
      have hids : (s.advance f as).sched.running.map (·.id) = s.sched.running.map (·.id) := by
        unfold advance
        rw [List.map_map]
        exact List.map_congr_left fun _ _ => rfl
      refine ⟨_, _, rfl, h.keep ?_ (.of_eq ?_) rfl⟩
      · show Tracks s.index _
        rw [hids]
        exact h.indexed
      · unfold liveIds
        rw [List.map_append, hids, List.map_append]
        rfl
  | retireFinished =>
      obtain ⟨index, heq, hindexed⟩ := retireFinished_indexed h.indexed
      refine ⟨⟨s.sched.retireFinished.2, index⟩, log.report s.sched.retireFinished.1, ?_, ?_⟩
      · show s.retireFinished.bind _ = _
        rw [heq]
        rfl
      · exact h.leave hindexed (retireFinished_liveIds h.live) (retireFinished_frame s.sched).nextId
  | abortSequence id =>
      obtain ⟨index, heq, hindexed⟩ := abortSequence_indexed h.indexed id
      have hids := abortSequence_liveIds s.sched id
      have hnext := (abortSequence_frame s.sched id).nextId
      refine ⟨⟨(s.sched.abortSequence id).2, index⟩,
        if (s.sched.abortSequence id).1 then log.report [id] else log, ?_, ?_⟩
      · show (s.abortSequence id).bind _ = _
        rw [heq]
        rfl
      · split
        next hfound =>
          refine h.leave hindexed ?_ hnext
          have hmem := (abortSequence_found s.sched id).1 hfound
          exact (List.perm_cons_erase hmem).trans (hids.symm.cons id)
        next hfound =>
          refine h.keep hindexed ?_ hnext
          rwa [List.erase_of_not_mem (mt (abortSequence_found s.sched id).2 hfound)] at hids
  | abortAllRunning =>
      exact ⟨_, _, rfl, h.leave (tracks_nil) (.of_eq (abortAllRunning_liveIds s.sched)) rfl⟩
  | abortAll =>
      refine ⟨_, _, rfl, h.leave tracks_nil (.of_eq ?_) rfl⟩
      show s.sched.liveIds = s.sched.abortAll.1 ++ s.sched.abortAll.2.liveIds
      rw [(abortAll_liveIds s.sched).1, (abortAll_liveIds s.sched).2, List.append_nil]

theorem new_booked (config : SchedulerConfig) (as : List (BlockAllocator ρ)) :
    Booked (.new config as) ⟨[], []⟩ :=
  ⟨tracks_nil, .refl _, rfl⟩

theorem run_booked (config : SchedulerConfig) (as : List (BlockAllocator ρ)) (moves : List (Move ρ)) :
    ∃ s log, run chainHash config as moves = some (s, log) ∧ Booked s log := by
  have hfold : ∀ (moves : List (Move ρ)) {s : IndexedScheduler ρ} {log : Log}, Booked s log →
      ∃ s' log', moves.foldlM (step chainHash) (s, log) = some (s', log') ∧ Booked s' log' := by
    intro moves
    induction moves with
    | nil => exact fun h => ⟨_, _, rfl, h⟩
    | cons m moves ih =>
        intro s log h
        obtain ⟨s', log', hstep, h'⟩ := step_booked chainHash h m
        obtain ⟨s'', log'', hrest, h''⟩ := ih h'
        refine ⟨s'', log'', ?_, h''⟩
        rw [List.foldlM_cons, hstep]
        exact hrest
  exact hfold moves (new_booked config as)

/-- No run panics. Every id handed out and not reported is waiting or running, in one place and once; the
index has the slots of the running ids and nothing else; nothing is reported twice; and whatever is
scheduled next is running, each id once. -/
theorem run_bookkeeping (config : SchedulerConfig) (as : List (BlockAllocator ρ))
    (moves : List (Move ρ)) :
    ∃ s log, run chainHash config as moves = some (s, log) ∧
      (∀ id ∈ log.added, id ∉ log.reported →
        (s.sched.waiting.map (·.id)).count id + (s.sched.running.map (·.id)).count id = 1) ∧
      (∀ id, id ∉ log.added ∨ id ∈ log.reported →
        id ∉ s.sched.waiting.map (·.id) ∧ id ∉ s.sched.running.map (·.id)) ∧
      (∀ id i, s.index id = some i ↔ (s.sched.running.map (·.id))[i]? = some id) ∧
      log.added.Nodup ∧ log.reported.Nodup ∧
      ∀ cache, ∃ t, s.schedule chainHash cache = some t ∧ (t.turn.scheduled.map (·.1)).Nodup ∧
        ∀ id ∈ t.turn.scheduled.map (·.1), id ∈ t.turn.sched.running.map (·.id) := by
  obtain ⟨s, log, hrun, h⟩ := run_booked chainHash config as moves
  have hcount : ∀ id, (s.sched.waiting.map (·.id)).count id + (s.sched.running.map (·.id)).count id =
      s.sched.liveIds.count id := by
    intro id
    unfold liveIds
    rw [List.map_append, List.count_append, Nat.add_comm]
  refine ⟨s, log, hrun, ?_, ?_, h.indexed, ?_, h.nodup.of_append_left, ?_⟩
  · intro id hadded hreported
    rw [hcount]
    apply List.count_eq_one_of_mem h.live
    exact (List.mem_append.1 (h.ids.mem_iff.2 hadded)).resolve_left hreported
  · intro id hgone
    have hlive : id ∉ s.sched.liveIds := by
      intro hc
      rcases hgone with hadded | hreported
      · exact hadded (h.ids.mem_iff.1 (List.mem_append_right _ hc))
      · exact (List.nodup_append.1 h.nodup).2.2 id hreported id hc rfl
    have hzero := hcount id
    rw [List.count_eq_zero_of_not_mem hlive] at hzero
    exact ⟨List.count_eq_zero.1 (by omega), List.count_eq_zero.1 (by omega)⟩
  · rw [h.added]
    exact List.nodup_range
  · intro cache
    obtain ⟨index, heq, -, hserve⟩ := schedule_indexed chainHash h.indexed h.live cache
    refine ⟨_, heq, ?_, fun id hid => hserve.running id (List.mem_append_left _ hid)⟩
    have := hserve.nodup
    rwa [List.append_nil] at this

end IndexedScheduler

end Oxydllm.Kv
