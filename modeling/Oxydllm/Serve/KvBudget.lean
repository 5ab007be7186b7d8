/-
# Oxydllm.Serve.KvBudget — the budget's bytes and the models that hold them.

A byte allocated is held by a thread, by a result on its way to a slot, by a slot, or by the draft model of
an engine. Where a step releases what it acquired this is all there is. Some steps do not: a grant that is
not what the pool reserves, a model dropped after its grant, an engine unloaded with its draft.
-/
import Oxydllm.Serve.Slots

namespace Oxydllm.Serve

/-! ## Who holds what -/

/-- The bytes of a result no slot has taken yet. -/
def CompanionState.held : CompanionState → Nat
  | .pending (.ok kv) => kv
  | .foundOpen kv => kv
  | .foundClosed kv => kv
  | _ => 0

def SlotState.bytes : SlotState → Nat
  | .ready _ kv => kv
  | .loading _ => 0

/-- What a load holds beside its slot. -/
def Load.bytes (l : Load) : Nat := l.thread.held + l.companion.held + l.draftBytes

/-- The slot is this engine's. -/
def ModelManager.registered (s : ModelManager) (i : LoadId) (l : Load) : Bool :=
  match s.slots.lookup l.model with
  | some (.ready j _) => j = i
  | _ => false

/-- The KV bytes of the registered engines, their draft models included. -/
def ModelManager.registeredBytes (s : ModelManager) : Nat :=
  (s.slots.map fun p => p.2.bytes).sum +
    (s.loads.zipIdx.map fun p => if s.registered p.2 p.1 then p.1.draftBytes else 0).sum

/-- No load is in flight. -/
def ModelManager.Settled (s : ModelManager) : Prop :=
  ∀ l ∈ s.loads, l.companion.waiting = false ∧
    (l.thread = .serving ∨ l.thread = .exiting ∨ l.thread = .gone)

/-! ## Steps that release what was acquired -/

/-- The thread hands on or gives back what it holds: the pool reserves exactly its grant, no model is
dropped after its grant, a draft is kept only by an engine that is registered or about to be, and the thread
panics with nothing in its hands. -/
def BalancedThread (s : ModelManager) (i : LoadId) (l : Load) : ThreadAct → Prop
  | .build kv => ∀ r g, l.thread = .granted r g → kv = g
  | .verifyFail => ∀ r kv, l.thread = .built r kv → kv = 0
  | .draftVerifyFail => ∀ g, l.thread = .draftGranted g → g = 0
  | .draftMismatch => ∀ g, l.thread = .draftGranted g → g = 0
  | .draftAccept kv => (∀ g, l.thread = .draftGranted g → kv = g) ∧
      (kv = 0 ∨ l.companion.waiting = true ∨ s.registered i l = true)
  | .panic => l.thread.held = 0
  | _ => True

/-- No engine with a draft is unloaded. -/
def Balanced (s : ModelManager) : Act → Prop
  | .thread i act => ∀ l, s.loads[i]? = some l → BalancedThread s i l act
  | .evict m => ∀ i kv l, s.slots.lookup m = some (.ready i kv) → s.loads[i]? = some l → l.draftBytes = 0
  | .guardDrop i => ∀ l, s.loads[i]? = some l → s.registered i l = true → l.draftBytes = 0
  | .install i overBudget =>
      ∀ l, s.loads[i]? = some l → l.companion.isOpen = false ∨ overBudget = true → l.draftBytes = 0
  | _ => True

/-! ## The invariant -/

/-- A draft is there only after its load. -/
def Load.Predraft (l : Load) : Prop :=
  match l.thread with
  | .draftDone | .serving | .exiting | .gone => True
  | _ => l.draftBytes = 0

structure BudgetInv (s : ModelManager) : Prop where
  total : s.kvBudget.allocatedBytes =
    (s.slots.map fun p => p.2.bytes).sum + (s.loads.map Load.bytes).sum
  predraft : ∀ (i : LoadId) (l : Load), s.loads[i]? = some l → l.Predraft
  draft : ∀ (i : LoadId) (l : Load), s.loads[i]? = some l → l.draftBytes ≠ 0 →
    l.companion.waiting = true ∨ s.registered i l = true

theorem registered_iff {s : ModelManager} {i : LoadId} {l : Load} :
    s.registered i l = true ↔ ∃ kv, s.slots.lookup l.model = some (.ready i kv) := by
  unfold ModelManager.registered
  split
  next j kv h =>
    rw [h]
    constructor
    · intro hj
      exact ⟨kv, by rw [of_decide_eq_true hj]⟩
    · rintro ⟨kv', hj⟩
      cases hj
      exact decide_eq_true rfl
  next hnone =>
    constructor
    · intro hc
      cases hc
    · rintro ⟨kv, hj⟩
      exact absurd hj (hnone i kv)

theorem acquire_allocated (b : GlobalKvBudget) (desired : Nat) :
    (b.acquire desired).2.allocatedBytes = b.allocatedBytes + (b.acquire desired).1 := rfl

/-- What a thread's step takes from the budget it holds afterwards. -/
theorem threadStep_budget {s : ModelManager} {i : LoadId} {b b' : GlobalKvBudget} {l l' : Load}
    {act : ThreadAct} (h : threadStep b l act = some (l', b')) (hearly : l.Early) (hpre : l.Predraft)
    (hbal : BalancedThread s i l act) (hle : l.bytes ≤ b.allocatedBytes) :
    b'.allocatedBytes + l.bytes = b.allocatedBytes + l'.bytes ∧ l'.Predraft := by
  obtain ⟨m, t, c, d⟩ := l
  unfold Load.Early at hearly
  cases act <;> cases t <;> simp only [threadStep, Option.some.injEq, Prod.mk.injEq, reduceCtorEq] at h <;>
    obtain ⟨rfl, rfl⟩ := h
  all_goals
    simp only [Load.Predraft, BalancedThread, Load.bytes, ThreadState.held] at hpre hbal hle
    simp only [Load.Predraft, Load.bytes, ThreadState.held, acquire_allocated, GlobalKvBudget.release]
    refine ⟨?_, ?_⟩
  all_goals
    first
      | trivial
      | exact hpre
      | omega
      -- the condition of the step
      | (have hcond := hbal _ _ rfl; omega)
      | (have hcond := hbal _ rfl; omega)
      | (have hcond := hbal.1 _ rfl; omega)
      -- the result goes into the empty channel
      | (cases hearly rfl
         simp only [CompanionState.held] at hle ⊢ <;> omega)

/-- Only an accepted draft brings draft bytes. -/
theorem threadStep_draft {b b' : GlobalKvBudget} {l l' : Load} {act : ThreadAct}
    (h : threadStep b l act = some (l', b')) :
    l'.draftBytes = l.draftBytes ∨ ∃ kv, act = .draftAccept kv ∧ l'.draftBytes = kv := by
  obtain ⟨m, t, c, d⟩ := l
  cases act <;> cases t <;> simp only [threadStep, Option.some.injEq, Prod.mk.injEq, reduceCtorEq] at h <;>
    obtain ⟨rfl, rfl⟩ := h <;>
    first
      | exact .inl rfl
      | exact .inr ⟨_, rfl, rfl⟩

section

variable {s s' : ModelManager}

/-- A load and the budget changed by as much. -/
theorem BudgetInv.setLoad (h : BudgetInv s) {i : LoadId} {l l' : Load} (hi : s.loads[i]? = some l)
    {b : GlobalKvBudget} (hb : b.allocatedBytes + l.bytes = s.kvBudget.allocatedBytes + l'.bytes)
    (hmodel : l'.model = l.model) (hpre : l'.Predraft)
    (hdraft : l'.draftBytes ≠ 0 → l'.companion.waiting = true ∨ s.registered i l = true) :
    BudgetInv { s with loads := s.loads.set i l', kvBudget := b } := by
  refine ⟨?_, fun j z hz => ?_, fun j z hz hne => ?_⟩
  · have hsum := sum_set Load.bytes hi l'
    have htotal := h.total
    show b.allocatedBytes = (s.slots.map fun p => p.2.bytes).sum +
      ((s.loads.set i l').map Load.bytes).sum
    omega
  · rcases getElem?_set_cases hi hz with ⟨-, rfl⟩ | ⟨-, hz⟩
    · exact hpre
    · exact h.predraft j z hz
  · rcases getElem?_set_cases hi hz with ⟨rfl, rfl⟩ | ⟨-, hz⟩
    · refine (hdraft hne).imp_right fun hr => ?_
      rw [registered_iff] at hr ⊢
      rw [hmodel]
      exact hr
    · exact h.draft j z hz hne

theorem bytes_le_total (h : BudgetInv s) {i : LoadId} {l : Load} (hi : s.loads[i]? = some l) :
    l.bytes + (s.slots.map fun p => p.2.bytes).sum ≤ s.kvBudget.allocatedBytes := by
  have hle := sum_set Load.bytes hi ⟨0, .gone, .done, 0⟩
  have hzero : Load.bytes ⟨0, .gone, .done, 0⟩ = 0 := rfl
  have htotal := h.total
  omega

/-- A ready slot and its bytes go. -/
theorem BudgetInv.unload (h : BudgetInv s) (hkeyed : Keyed s.slots) {m : ModelId} {i : LoadId} {kv : Nat}
    (hready : s.slots.lookup m = some (.ready i kv))
    (hnone : ∀ l, s.loads[i]? = some l → l.draftBytes = 0) : BudgetInv (s.unload m kv) := by
  refine ⟨?_, h.predraft, fun j z hz hne => ?_⟩
  · have hsum := sum_removeSlot SlotState.bytes hkeyed m
    rw [hready] at hsum
    have htotal := h.total
    have hkv : SlotState.bytes (.ready i kv) = kv := rfl
    simp only [Option.elim_some, hkv] at hsum
    show s.kvBudget.allocatedBytes - kv = ((removeSlot s.slots m).map fun p => p.2.bytes).sum +
      (s.loads.map Load.bytes).sum
    omega
  · refine (h.draft j z hz hne).imp_right fun hr => ?_
    rw [registered_iff] at hr ⊢
    obtain ⟨kv', hr⟩ := hr
    refine ⟨kv', ?_⟩
    show (removeSlot s.slots m).lookup z.model = _
    rw [lookup_removeSlot, if_neg ?_]
    · exact hr
    · intro hzm
      rw [hzm, hready] at hr
      cases hr
      exact hne (hnone z hz)

/-- A companion takes its model's slot over: the slot goes or turns ready. -/
theorem BudgetInv.takeOver (hinv : ManagerInv s) (h : BudgetInv s) {i : LoadId} {l : Load}
    (hi : s.loads[i]? = some l) (hwait : l.companion.waiting = true) {st : Option SlotState}
    {slots : List (ModelId × SlotState)} {b : GlobalKvBudget} {ws : List WaiterId} {ok : Bool}
    (hslots : ∀ k, slots.lookup k = if k = l.model then st else s.slots.lookup k)
    (hst : st = none ∨ ∃ kv, st = some (.ready i kv))
    (hsum : (slots.map fun p => p.2.bytes).sum =
      (s.slots.map fun p => p.2.bytes).sum + st.elim 0 SlotState.bytes)
    (hb : b.allocatedBytes + l.companion.held = s.kvBudget.allocatedBytes + st.elim 0 SlotState.bytes)
    (hdraft : st = none → l.draftBytes = 0) :
    BudgetInv { s with
      slots := slots, kvBudget := b
      loads := s.loads.set i { l with companion := .notifying ws ok } } := by
  refine ⟨?_, fun j z hz => ?_, fun j z hz hne => ?_⟩
  · have hset := sum_set Load.bytes hi { l with companion := .notifying ws ok }
    have hbytes : Load.bytes { l with companion := .notifying ws ok } + l.companion.held = l.bytes := by
      unfold Load.bytes
      simp only [CompanionState.held]
      omega
    have htotal := h.total
    show b.allocatedBytes = (slots.map fun p => p.2.bytes).sum +
      ((s.loads.set i { l with companion := .notifying ws ok }).map Load.bytes).sum
    omega
  · rcases getElem?_set_cases hi hz with ⟨-, rfl⟩ | ⟨-, hz⟩
    · exact h.predraft i l hi
    · exact h.predraft j z hz
  · rcases getElem?_set_cases hi hz with ⟨rfl, rfl⟩ | ⟨hij, hz⟩
    · right
      rw [registered_iff]
      rcases hst with hst | ⟨kv, hst⟩
      · exact absurd (hdraft hst) hne
      · refine ⟨kv, ?_⟩
        show slots.lookup l.model = _
        rw [hslots, if_pos rfl, hst]
    · rcases h.draft j z hz hne with hw | hr
      · exact .inl hw
      · right
        rw [registered_iff] at hr ⊢
        obtain ⟨kv, hr⟩ := hr
        refine ⟨kv, ?_⟩
        show slots.lookup z.model = _
        rw [hslots, if_neg ?_]
        · exact hr
        · -- the model is still loading
          intro hzm
          obtain ⟨ws', hload⟩ := hinv.slots.loading_of i l hi hwait
          rw [hzm, hload] at hr
          cases hr

theorem installStep_budget (hinv : ManagerInv s) (h : BudgetInv s) {i : LoadId} {l : Load}
    (hi : s.loads[i]? = some l) {overBudget : Bool}
    (hnone : l.companion.isOpen = false ∨ overBudget = true → l.draftBytes = 0)
    (hs : s.installStep i l overBudget = some s') : BudgetInv s' := by
  have hremove : ∀ k, (removeSlot s.slots l.model).lookup k =
      if k = l.model then none else s.slots.lookup k := fun k => lookup_removeSlot s.slots l.model k
  -- a companion that waits has a loading slot, which holds no bytes
  have hload : l.companion.waiting = true →
      ((s.slots.lookup l.model).elim 0 SlotState.bytes) = 0 := by
    intro hwait
    obtain ⟨ws, hload⟩ := hinv.slots.loading_of i l hi hwait
    rw [hload]
    rfl
  have hsum := sum_removeSlot SlotState.bytes hinv.slots.keyed l.model
  have hle := bytes_le_total h hi
  have hheld : l.companion.held ≤ l.bytes := by
    unfold Load.bytes
    omega
  unfold ModelManager.installStep at hs
  simp only at hs
  split at hs
  next kv hcomp =>
    cases hs
    have hwait : l.companion.waiting = true := by rw [hcomp]; rfl
    have hl := hload hwait
    have hkv : l.companion.held = kv := by rw [hcomp]; rfl
    refine h.takeOver hinv hi hwait hremove (.inl rfl) ?_ ?_ fun _ => hnone (.inl (by rw [hcomp]; rfl))
    · show ((removeSlot s.slots l.model).map fun p => p.2.bytes).sum =
        (s.slots.map fun p => p.2.bytes).sum + 0
      omega
    · show s.kvBudget.allocatedBytes - kv + l.companion.held = s.kvBudget.allocatedBytes + 0
      omega
  next kv hcomp =>
    have hwait : l.companion.waiting = true := by rw [hcomp]; rfl
    have hl := hload hwait
    have hkv : l.companion.held = kv := by rw [hcomp]; rfl
    split at hs
    next hover =>
      cases hs
      refine h.takeOver hinv hi hwait hremove (.inl rfl) ?_ ?_ fun _ => hnone (.inr hover)
      · show ((removeSlot s.slots l.model).map fun p => p.2.bytes).sum =
          (s.slots.map fun p => p.2.bytes).sum + 0
        omega
      · show s.kvBudget.allocatedBytes - kv + l.companion.held = s.kvBudget.allocatedBytes + 0
        omega
    · cases hs
      have hins := sum_insertSlot SlotState.bytes hinv.slots.keyed l.model (.ready i kv)
      have hkv' : SlotState.bytes (.ready i kv) = kv := rfl
      refine h.takeOver hinv hi hwait (fun k => lookup_insertSlot s.slots l.model k (.ready i kv))
        (.inr ⟨kv, rfl⟩) ?_ ?_ fun hc => by cases hc
      · simp only [Option.elim_some]
        omega
      · show s.kvBudget.allocatedBytes + l.companion.held =
          s.kvBudget.allocatedBytes + SlotState.bytes (.ready i kv)
        omega
  next hcomp =>
    cases hs
    have hwait : l.companion.waiting = true := by rw [hcomp]; rfl
    have hl := hload hwait
    have hkv : l.companion.held = 0 := by rw [hcomp]; rfl
    refine h.takeOver hinv hi hwait hremove (.inl rfl) ?_ ?_ fun _ => hnone (.inl (by rw [hcomp]; rfl))
    · show ((removeSlot s.slots l.model).map fun p => p.2.bytes).sum =
        (s.slots.map fun p => p.2.bytes).sum + 0
      omega
    · show s.kvBudget.allocatedBytes + l.companion.held = s.kvBudget.allocatedBytes + 0
      omega
  · cases hs

/-- A slot of a loading model changes its waiters, or a load without bytes is added. -/
theorem BudgetInv.loadingSlot (h : BudgetInv s) (hkeyed : Keyed s.slots) {m : ModelId}
    (hm : ∀ i kv, s.slots.lookup m ≠ some (.ready i kv)) (ws : List WaiterId) {loads : List Load}
    (hloads : loads = s.loads ∨ loads = s.loads ++ [⟨m, .starting, .awaiting, 0⟩]) (next : WaiterId) :
    BudgetInv { s with
      slots := insertSlot s.slots m (.loading ws), loads := loads, nextWaiter := next } := by
  have hmem : ∀ (j : LoadId) (z : Load), loads[j]? = some z →
      s.loads[j]? = some z ∨ z = ⟨m, .starting, .awaiting, 0⟩ := by
    intro j z hz
    rcases hloads with rfl | rfl
    · exact .inl hz
    · rw [List.getElem?_append] at hz
      split at hz
      · exact .inl hz
      · exact .inr (List.mem_singleton.1 (List.mem_of_getElem? hz))
  refine ⟨?_, fun j z hz => ?_, fun j z hz hne => ?_⟩
  · have hsum := sum_insertSlot SlotState.bytes hkeyed m (.loading ws)
    have hzero : (s.slots.lookup m).elim 0 SlotState.bytes = 0 := by
      cases hlook : s.slots.lookup m with
      | none => rfl
      | some st =>
          cases st with
          | loading ws' => rfl
          | ready i kv => exact absurd hlook (hm i kv)
    have hnew : SlotState.bytes (.loading ws) = 0 := rfl
    have hbytes : (loads.map Load.bytes).sum = (s.loads.map Load.bytes).sum := by
      rcases hloads with rfl | rfl
      · rfl
      · rw [List.map_append, List.sum_append]
        rfl
    have htotal := h.total
    show s.kvBudget.allocatedBytes =
      ((insertSlot s.slots m (.loading ws)).map fun p => p.2.bytes).sum + (loads.map Load.bytes).sum
    omega
  · rcases hmem j z hz with hz | rfl
    · exact h.predraft j z hz
    · exact rfl
  · rcases hmem j z hz with hz | rfl
    · refine (h.draft j z hz hne).imp_right fun hr => ?_
      rw [registered_iff] at hr ⊢
      obtain ⟨kv, hr⟩ := hr
      refine ⟨kv, ?_⟩
      show (insertSlot s.slots m (.loading ws)).lookup z.model = _
      rw [lookup_insertSlot, if_neg ?_]
      · exact hr
      · intro hzm
        rw [hzm] at hr
        exact hm j kv hr
    · exact absurd rfl hne

theorem step_budget (hinv : ManagerInv s) (h : BudgetInv s) {act : Act} (hbal : Balanced s act)
    (hs : s.step act = some s') : BudgetInv s' := by
  cases act with
  | getWait m =>
      unfold ModelManager.step at hs
      simp only at hs
      split at hs
      next ws hload =>
        cases hs
        exact h.loadingSlot hinv.slots.keyed (fun i kv hc => by rw [hload] at hc; cases hc) _ (.inl rfl) _
      · cases hs
  | getLoad m =>
      unfold ModelManager.step at hs
      simp only at hs
      split at hs
      next hnone =>
        cases hs
        exact h.loadingSlot hinv.slots.keyed (fun i kv hc => by rw [hnone] at hc; cases hc) _ (.inr rfl) _
      · cases hs
  | evict m =>
      unfold ModelManager.step at hs
      simp only at hs
      split at hs
      next i kv hready =>
        cases hs
        exact h.unload hinv.slots.keyed hready fun l hl => hbal i kv l hready hl
      · cases hs
  | thread i act =>
      obtain ⟨l, hi, hs⟩ := Option.bind_eq_some_iff.1 hs
      obtain ⟨⟨l', b⟩, hstep, hs⟩ := Option.map_eq_some_iff.1 hs
      cases hs
      have hframe := threadStep_frame hstep (hinv.early i l hi)
      have hle := bytes_le_total h hi
      obtain ⟨hb, hpre⟩ := threadStep_budget hstep (hinv.early i l hi) (h.predraft i l hi) (hbal l hi)
        (by omega)
      refine h.setLoad hi hb hframe.model hpre fun hne => ?_
      rw [hframe.waiting]
      rcases threadStep_draft hstep with hsame | ⟨kv, rfl, hkv⟩
      · exact h.draft i l hi (by rwa [← hsame])
      · obtain ⟨-, hb⟩ := hbal l hi
        exact hb.resolve_left (by rwa [← hkv])
  | guardDrop i =>
      obtain ⟨l, hi, hs⟩ := Option.bind_eq_some_iff.1 hs
      obtain ⟨hexit, hs⟩ := Option.ite_none_right_eq_some.1 hs
      cases hs
      have hset : BudgetInv (s.setLoad i { l with thread := .gone }) := by
        refine h.setLoad hi ?_ rfl trivial fun hne => h.draft i l hi hne
        unfold Load.bytes
        rw [hexit]
        rfl
      unfold ModelManager.guardDrop
      simp only
      split
      next j kv hready =>
        split
        next hij =>
          subst hij
          refine hset.unload hinv.slots.keyed hready fun z hz => ?_
          rcases getElem?_set_cases hi hz with ⟨-, rfl⟩ | ⟨hne, -⟩
          · exact hbal l hi (registered_iff.2 ⟨kv, hready⟩)
          · exact absurd rfl hne
        · exact hset
      · exact hset
  | check i =>
      obtain ⟨l, hi, hs⟩ := Option.bind_eq_some_iff.1 hs
      split at hs
      next kv hcomp =>
        cases hs
        refine h.setLoad hi ?_ rfl (h.predraft i l hi) fun hne => .inl ?_
        · unfold Load.bytes
          rw [hcomp]
          show _ = _ + (_ + CompanionState.held (if _ then _ else _) + _)
          split <;> rfl
        · show CompanionState.waiting (if _ then _ else _) = true
          split <;> rfl
      next c hne hcomp =>
        cases hs
        refine h.setLoad hi ?_ rfl (h.predraft i l hi) fun _ => .inl rfl
        unfold Load.bytes
        rw [hcomp]
        cases c with
        | ok kv => exact (hne kv rfl).elim
        | err => rfl
        | dropped => rfl
      · cases hs
  | install i overBudget =>
      obtain ⟨l, hi, hs⟩ := Option.bind_eq_some_iff.1 hs
      exact installStep_budget hinv h hi (hbal l hi) hs
  | notify i =>
      obtain ⟨l, hi, hs⟩ := Option.bind_eq_some_iff.1 hs
      simp only at hs
      split at hs
      next ws ok hcomp =>
        cases hs
        have hset : BudgetInv (s.setLoad i { l with companion := .done }) := by
          refine h.setLoad hi ?_ rfl (h.predraft i l hi) fun hne => .inr ?_
          · unfold Load.bytes
            rw [hcomp]
            rfl
          · have := h.draft i l hi hne
            rw [hcomp] at this
            exact this.resolve_left nofun
        exact ⟨hset.total, hset.predraft, hset.draft⟩
      · cases hs

end

/-! ## Every run -/

namespace ModelManager

theorem Reach.budget {totalBytes : Nat} {s : ModelManager} (h : Reach Balanced totalBytes s) :
    BudgetInv s := by
  induction h with
  | start => exact ⟨rfl, fun _ _ hi => (by cases hi), fun _ _ hi => by cases hi⟩
  | step h hc hs ih => exact step_budget h.inv ih hc hs

theorem thread_settled {l : Load} (h : l.thread = .serving ∨ l.thread = .exiting ∨ l.thread = .gone) :
    l.thread.held = 0 := by
  rcases h with h | h | h <;> rw [h] <;> rfl

theorem companion_settled {l : Load} (h : l.companion.waiting = false) : l.companion.held = 0 := by
  cases hc : l.companion with
  | notifying ws ok => rfl
  | done => rfl
  | _ => rw [hc] at h; cases h

/-- With no load in flight the loads hold the drafts of the registered engines and nothing more. -/
theorem loads_settled {s : ModelManager} (h : BudgetInv s) (hset : s.Settled) :
    s.loads.map Load.bytes =
      s.loads.zipIdx.map fun p => if s.registered p.2 p.1 then p.1.draftBytes else 0 := by
  have hfst : s.loads.map Load.bytes = s.loads.zipIdx.map fun p => p.1.bytes := by
    conv_lhs => rw [← List.zipIdx_map_fst 0 s.loads]
    rw [List.map_map]
    rfl
  rw [hfst]
  apply List.map_congr_left
  rintro ⟨l, i⟩ hp
  have hi : s.loads[i]? = some l := List.mem_zipIdx_iff_getElem?.1 hp
  obtain ⟨hcomp, hthread⟩ := hset l (List.mem_of_getElem? hi)
  show l.bytes = if s.registered i l then l.draftBytes else 0
  unfold Load.bytes
  rw [thread_settled hthread, companion_settled hcomp]
  by_cases hzero : l.draftBytes = 0
  · rw [hzero, ite_self]
  · rw [if_pos ((h.draft i l hi hzero).resolve_left (by rw [hcomp]; exact nofun))]
    omega

end ModelManager

/-- In every run whose steps release what they acquired, whenever no load is in flight the bytes allocated
are those of the registered engines, and none once nothing is registered. -/
theorem budget_conserved {totalBytes : Nat} {s : ModelManager}
    (h : ModelManager.Reach Balanced totalBytes s) (hset : s.Settled) :
    s.kvBudget.allocatedBytes = s.registeredBytes ∧
      (s.slots = [] → s.kvBudget.allocatedBytes = 0) := by
  have hinv := h.budget
  have htotal : s.kvBudget.allocatedBytes = s.registeredBytes := by
    rw [hinv.total, ModelManager.loads_settled hinv hset]
    rfl
  refine ⟨htotal, fun hnil => ?_⟩
  rw [htotal]
  unfold ModelManager.registeredBytes
  rw [hnil]
  show 0 + _ = 0
  rw [Nat.zero_add, List.sum_eq_zero_iff_forall_eq_nat]
  intro n hn
  obtain ⟨⟨l, i⟩, -, rfl⟩ := List.mem_map.1 hn
  have hnone : s.registered i l = false := by
    unfold ModelManager.registered
    rw [hnil]
    rfl
  simp only [hnone, Bool.false_eq_true, if_false]

theorem ModelManager.Reach.next {condition : ModelManager → Act → Prop} {totalBytes : Nat}
    {s s' : ModelManager} (h : Reach condition totalBytes s) (act : Act) (hc : condition s act)
    (hs : s.step act = some s') : Reach condition totalBytes s' :=
  h.step hc hs

theorem servingManager_balanced : ModelManager.Reach Balanced 100 servingManager := by
  have hbuild : ModelManager.Reach Balanced 100
      ⟨[(0, .loading [0])], ⟨100, 10⟩, [⟨0, .built 0 10, .awaiting, 0⟩], 1, []⟩ := by
    refine (((ModelManager.Reach.start.next (.getLoad 0) trivial rfl).next (.thread 0 (.reserve 0))
      (fun _ _ => trivial) rfl).next (.thread 0 (.grant 10)) (fun _ _ => trivial) rfl).next
        (.thread 0 (.build 10)) ?_ rfl
    -- the pool is the grant
    intro l hl r g ht
    cases hl
    cases ht
    rfl
  have hinstall : ModelManager.Reach Balanced 100
      ⟨[(0, .ready 0 10)], ⟨100, 10⟩, [⟨0, .sent 0, .notifying [0] true, 0⟩], 1, []⟩ := by
    refine ((hbuild.next (.thread 0 .sendOk) (fun _ _ => trivial) rfl).next (.check 0) trivial rfl).next
      (.install 0 false) ?_ rfl
    intro l hl _
    cases hl
    rfl
  exact (((hinstall.next (.notify 0) trivial rfl).next (.thread 0 .releaseReserved) (fun _ _ => trivial)
    rfl).next (.thread 0 .draftNone) (fun _ _ => trivial) rfl).next (.thread 0 .enterLoop)
      (fun _ _ => trivial) rfl

theorem budget_conserved_serving :
    servingManager.kvBudget.allocatedBytes = servingManager.registeredBytes := by
  refine (budget_conserved servingManager_balanced fun l hl => ?_).1
  rw [List.mem_singleton.1 hl]
  exact ⟨rfl, .inl rfl⟩

/-- A load with a draft, up to its engine's loop. -/
def draftActs : List Act :=
  installActs ++ [.thread 0 (.draftGrant 5), .thread 0 (.draftAccept 5), .thread 0 .enterLoop]

/-- The engine is evicted, and its draft's bytes stay allocated with nothing loaded. -/
theorem draft_bytes_leak :
    ∃ s, ModelManager.Reach (fun _ _ => True) 100 s ∧ s.Settled ∧ s.slots = [] ∧
      s.kvBudget.allocatedBytes = 5 := by
  have hacts : ∀ act ∈ draftActs ++ [.evict 0, .thread 0 .leaveLoop, .guardDrop 0],
    ∀ _ : ModelManager, True := fun _ _ _ => trivial
  refine ⟨⟨[], ⟨100, 5⟩, [⟨0, .gone, .done, 5⟩], 1, [(0, true)]⟩,
    ModelManager.Reach.run hacts .start rfl, fun l hl => ?_, rfl, rfl⟩
  rw [List.mem_singleton.1 hl]
  exact ⟨rfl, .inr (.inr rfl)⟩

end Oxydllm.Serve
