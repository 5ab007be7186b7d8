/-
# Oxydllm.Serve.Slots — slots, waiters and the engines behind them.

`SlotInv`: a model is loading exactly while the companion of one of its loads has not taken the lock.
`Accounted`: every waiter registered is in a slot, with a companion, or has been sent its result. Both hold
of every run. That a ready slot has a live engine does not: the engine may end between the companion's
look at the channel and the lock, or before its guard exists.
-/
import Oxydllm.Serve.Manager

namespace Oxydllm.Serve

/-! ## Sums over lists -/

theorem sum_set {α : Type} (f : α → Nat) {xs : List α} {i : Nat} {x : α} (h : xs[i]? = some x) (y : α) :
    ((xs.set i y).map f).sum + f x = (xs.map f).sum + f y := by
  induction xs generalizing i with
  | nil => cases h
  | cons a xs ih =>
      cases i with
      | zero =>
          cases h
          simp only [List.set_cons_zero, List.map_cons, List.sum_cons]
          omega
      | succ i =>
          have := ih (i := i) h
          simp only [List.set_cons_succ, List.map_cons, List.sum_cons]
          omega

theorem lookup_removeSlot (slots : List (ModelId × SlotState)) (m k : ModelId) :
    (removeSlot slots m).lookup k = if k = m then none else slots.lookup k := by
  induction slots with
  | nil =>
      split <;> rfl
  | cons p slots ih =>
      obtain ⟨k', st⟩ := p
      unfold removeSlot at ih ⊢
      by_cases hk' : k' = m
      · rw [List.filter_cons_of_neg (by simp [hk']), ih, List.lookup_cons]
        by_cases hk : k = m
        · rw [if_pos hk, if_pos hk]
        · rw [if_neg hk, if_neg hk, hk', beq_eq_false_iff_ne.2 hk]
      · rw [List.filter_cons_of_pos (by simp [hk']), List.lookup_cons, List.lookup_cons, ih]
        by_cases hkk : k = k'
        · subst hkk
          rw [if_neg hk', beq_self_eq_true]
          exact (if_neg hk').symm
        · rw [beq_eq_false_iff_ne.2 hkk]

theorem lookup_insertSlot (slots : List (ModelId × SlotState)) (m k : ModelId) (st : SlotState) :
    (insertSlot slots m st).lookup k = if k = m then some st else slots.lookup k := by
  unfold insertSlot
  rw [List.lookup_cons, lookup_removeSlot]
  by_cases hk : k = m
  · rw [hk, beq_self_eq_true]
    exact (if_pos rfl).symm
  · rw [beq_eq_false_iff_ne.2 hk, if_neg hk, if_neg hk]

/-- The keys of a map. -/
def Keyed (slots : List (ModelId × SlotState)) : Prop := (slots.map (·.1)).Nodup

theorem Keyed.remove {slots : List (ModelId × SlotState)} (h : Keyed slots) (m : ModelId) :
    Keyed (removeSlot slots m) :=
  (List.filter_sublist.map _).nodup h

theorem Keyed.insert {slots : List (ModelId × SlotState)} (h : Keyed slots) (m : ModelId)
    (st : SlotState) : Keyed (insertSlot slots m st) := by
  refine List.nodup_cons.2 ⟨fun hc => ?_, h.remove m⟩
  obtain ⟨p, hp, hpm⟩ := List.mem_map.1 hc
  exact of_decide_eq_true (List.mem_filter.1 hp).2 hpm

theorem sum_removeSlot (f : SlotState → Nat) {slots : List (ModelId × SlotState)} (h : Keyed slots)
    (m : ModelId) :
    ((removeSlot slots m).map fun p => f p.2).sum + (slots.lookup m).elim 0 f =
      (slots.map fun p => f p.2).sum := by
  induction slots with
  | nil => rfl
  | cons p slots ih =>
      obtain ⟨k, st⟩ := p
      obtain ⟨hk, h⟩ := List.nodup_cons.1 h
      have ih := ih h
      unfold removeSlot at ih ⊢
      by_cases hkm : k = m
      · subst hkm
        have hnone : slots.lookup k = none := by
          rw [List.lookup_eq_none_iff]
          intro q hq
          have : k ≠ q.1 := fun hc => hk (List.mem_map.2 ⟨q, hq, hc.symm⟩)
          simpa using this
        rw [hnone] at ih
        rw [List.filter_cons_of_neg (by simp), List.lookup_cons, beq_self_eq_true]
        simp only [Option.elim_none, Option.elim_some, List.map_cons, List.sum_cons] at ih ⊢
        omega
      · rw [List.filter_cons_of_pos (by simp [hkm]), List.lookup_cons,
          beq_eq_false_iff_ne.2 (Ne.symm hkm)]
        simp only [List.map_cons, List.sum_cons]
        omega

theorem sum_insertSlot (f : SlotState → Nat) {slots : List (ModelId × SlotState)} (h : Keyed slots)
    (m : ModelId) (st : SlotState) :
    ((insertSlot slots m st).map fun p => f p.2).sum + (slots.lookup m).elim 0 f =
      (slots.map fun p => f p.2).sum + f st := by
  have := sum_removeSlot f h m
  unfold insertSlot
  simp only [List.map_cons, List.sum_cons]
  omega

/-! ## Which slots there are -/

/-- The companion has not taken the lock yet. -/
def CompanionState.waiting : CompanionState → Bool
  | .notifying _ _ => false
  | .done => false
  | _ => true

structure SlotInv (slots : List (ModelId × SlotState)) (loads : List Load) : Prop where
  keyed : Keyed slots
  loading_of : ∀ (i : LoadId) (l : Load), loads[i]? = some l → l.companion.waiting = true →
    ∃ waiters, slots.lookup l.model = some (.loading waiters)
  unique : ∀ (i j : LoadId) (l l' : Load), loads[i]? = some l → loads[j]? = some l' → l.companion.waiting = true →
    l'.companion.waiting = true → l.model = l'.model → i = j
  load_of : ∀ (m : ModelId) (waiters : List WaiterId), slots.lookup m = some (.loading waiters) →
    ∃ (i : LoadId) (l : Load), loads[i]? = some l ∧ l.model = m ∧ l.companion.waiting = true
  ready_of : ∀ (m : ModelId) (i : LoadId) (kv : Nat), slots.lookup m = some (.ready i kv) →
    ∃ l : Load, loads[i]? = some l ∧ l.model = m ∧ l.companion.waiting = false

section

variable {slots : List (ModelId × SlotState)} {loads : List Load}

/-- The load behind a ready slot is the slot's, and its companion has the result. -/
theorem SlotInv.ready_load (h : SlotInv slots loads) {m : ModelId} {i : LoadId} {kv : Nat} {l : Load}
    (hm : slots.lookup m = some (.ready i kv)) (hi : loads[i]? = some l) :
    l.model = m ∧ l.companion.waiting = false := by
  obtain ⟨z, hz, hmodel, hwait⟩ := h.ready_of m i kv hm
  rw [hi] at hz
  cases hz
  exact ⟨hmodel, hwait⟩

theorem getElem?_set_cases {α : Type} {xs : List α} {i j : Nat} {x y z : α} (hi : xs[i]? = some x)
    (h : (xs.set i y)[j]? = some z) : (i = j ∧ z = y) ∨ (i ≠ j ∧ xs[j]? = some z) := by
  by_cases hij : i = j
  · subst hij
    rw [List.getElem?_set_self (List.getElem?_eq_some_iff.1 hi).1] at h
    exact .inl ⟨rfl, (Option.some.inj h).symm⟩
  · rw [List.getElem?_set_ne hij] at h
    exact .inr ⟨hij, h⟩

theorem getElem?_set_of_ne {α : Type} {xs : List α} {i j : Nat} {x z : α} (hi : xs[i]? = some x)
    (y : α) (hj : xs[j]? = some z) : (xs.set i y)[j]? = some (if i = j then y else z) := by
  by_cases hij : i = j
  · subst hij
    rw [List.getElem?_set_self (List.getElem?_eq_some_iff.1 hi).1, if_pos rfl]
  · rw [List.getElem?_set_ne hij, if_neg hij, hj]

/-- A load changed on one side of its companion's lock. -/
theorem SlotInv.setLoad (h : SlotInv slots loads) {i : Nat} {l l' : Load} (hi : loads[i]? = some l)
    (hm : l'.model = l.model) (hw : l'.companion.waiting = l.companion.waiting) :
    SlotInv slots (loads.set i l') := by
  -- every load after the step was one before it, up to what the slots see
  have hback : ∀ (j : Nat) (z : Load), (loads.set i l')[j]? = some z →
      ∃ z₀ : Load, loads[j]? = some z₀ ∧ z.model = z₀.model ∧ z.companion.waiting = z₀.companion.waiting := by
    intro j z hz
    rcases getElem?_set_cases hi hz with ⟨rfl, rfl⟩ | ⟨-, hz⟩
    · exact ⟨l, hi, hm, hw⟩
    · exact ⟨z, hz, rfl, rfl⟩
  have hfwd : ∀ (j : Nat) (z₀ : Load), loads[j]? = some z₀ → ∃ z : Load, (loads.set i l')[j]? = some z ∧
      z.model = z₀.model ∧ z.companion.waiting = z₀.companion.waiting := by
    intro j z₀ hz
    refine ⟨_, getElem?_set_of_ne hi l' hz, ?_⟩
    split
    next hij =>
      subst hij
      rw [hi] at hz
      cases hz
      exact ⟨hm, hw⟩
    · exact ⟨rfl, rfl⟩
  refine ⟨h.keyed, ?_, ?_, ?_, ?_⟩
  · intro j z hz hwait
    obtain ⟨z₀, hz₀, hmodel, hw₀⟩ := hback j z hz
    rw [hmodel]
    exact h.loading_of j z₀ hz₀ (hw₀ ▸ hwait)
  · intro j k z z' hz hz' hwait hwait' hmodel
    obtain ⟨y, hy, hym, hyw⟩ := hback j z hz
    obtain ⟨y', hy', hym', hyw'⟩ := hback k z' hz'
    exact h.unique j k y y' hy hy' (hyw ▸ hwait) (hyw' ▸ hwait') (by rw [← hym, ← hym', hmodel])
  · intro m waiters hlook
    obtain ⟨j, z₀, hz₀, hmodel, hwait⟩ := h.load_of m waiters hlook
    obtain ⟨z, hz, hzm, hzw⟩ := hfwd j z₀ hz₀
    exact ⟨j, z, hz, hzm.trans hmodel, hzw.trans hwait⟩
  · intro m j kv hlook
    obtain ⟨z₀, hz₀, hmodel, hwait⟩ := h.ready_of m j kv hlook
    obtain ⟨z, hz, hzm, hzw⟩ := hfwd j z₀ hz₀
    exact ⟨z, hz, hzm.trans hmodel, hzw.trans hwait⟩

/-- A ready slot goes. -/
theorem SlotInv.removeReady (h : SlotInv slots loads) {m : ModelId} {i : LoadId} {kv : Nat}
    (hready : slots.lookup m = some (.ready i kv)) : SlotInv (removeSlot slots m) loads := by
  have hlook : ∀ k st, (removeSlot slots m).lookup k = some st → slots.lookup k = some st := by
    intro k st hk
    rw [lookup_removeSlot] at hk
    exact (Option.ite_none_left_eq_some.1 hk).2
  refine ⟨h.keyed.remove m, ?_, h.unique, fun k ws hk => h.load_of k ws (hlook k _ hk),
    fun k j kv hk => h.ready_of k j kv (hlook k _ hk)⟩
  intro j l hj hwait
  obtain ⟨waiters, hl⟩ := h.loading_of j l hj hwait
  refine ⟨waiters, ?_⟩
  rw [lookup_removeSlot, if_neg ?_]
  · exact hl
  · intro hc
    rw [hc, hready] at hl
    cases hl

/-- A further waiter. -/
theorem SlotInv.addWaiter (h : SlotInv slots loads) {m : ModelId} {ws : List WaiterId}
    (hload : slots.lookup m = some (.loading ws)) (ws' : List WaiterId) :
    SlotInv (insertSlot slots m (.loading ws')) loads := by
  refine ⟨h.keyed.insert m _, ?_, h.unique, ?_, ?_⟩
  · intro j l hj hwait
    rw [lookup_insertSlot]
    split
    · exact ⟨ws', rfl⟩
    · exact h.loading_of j l hj hwait
  · intro k ws'' hk
    rw [lookup_insertSlot] at hk
    split at hk
    next hkm =>
      rw [hkm]
      exact h.load_of m ws hload
    · exact h.load_of k ws'' hk
  · intro k j kv hk
    rw [lookup_insertSlot] at hk
    split at hk
    · cases hk
    · exact h.ready_of k j kv hk

/-- A load starts. -/
theorem SlotInv.addLoad (h : SlotInv slots loads) {m : ModelId} (hnone : slots.lookup m = none)
    (ws : List WaiterId) :
    SlotInv (insertSlot slots m (.loading ws)) (loads ++ [⟨m, .starting, .awaiting, 0⟩]) := by
  have hback : ∀ (j : Nat) (z : Load), (loads ++ [⟨m, .starting, .awaiting, 0⟩])[j]? = some z →
      loads[j]? = some z ∨ (j = loads.length ∧ z.model = m) := by
    intro j z hz
    rw [List.getElem?_append] at hz
    split at hz
    · exact .inl hz
    next hj =>
      obtain ⟨hlt, rfl⟩ := List.getElem?_eq_some_iff.1 hz
      have hlt : j - loads.length < 1 := hlt
      have hzero : j - loads.length = 0 := by omega
      refine .inr ⟨by omega, ?_⟩
      simp only [hzero, List.getElem_cons_zero]
  have hold : ∀ (j : Nat) (l : Load), loads[j]? = some l → l.companion.waiting = true → l.model ≠ m := by
    intro j l hj hwait hc
    obtain ⟨ws', hl⟩ := h.loading_of j l hj hwait
    rw [hc, hnone] at hl
    cases hl
  refine ⟨h.keyed.insert m _, ?_, ?_, ?_, ?_⟩
  · intro j l hj hwait
    rw [lookup_insertSlot]
    rcases hback j l hj with hj | ⟨-, hm⟩
    · rw [if_neg (hold j l hj hwait)]
      exact h.loading_of j l hj hwait
    · rw [if_pos hm]
      exact ⟨ws, rfl⟩
  · intro j k l l' hj hk hwait hwait' hmodel
    rcases hback j l hj with hj' | ⟨rfl, hm⟩
    · rcases hback k l' hk with hk' | ⟨-, hm'⟩
      · exact h.unique j k l l' hj' hk' hwait hwait' hmodel
      · exact absurd (hmodel.trans hm') (hold j l hj' hwait)
    · rcases hback k l' hk with hk' | ⟨hk', -⟩
      · exact absurd (hmodel.symm.trans hm) (hold k l' hk' hwait')
      · exact hk'.symm
  · intro k ws' hk
    rw [lookup_insertSlot] at hk
    split at hk
    next hkm =>
      refine ⟨loads.length, ⟨m, .starting, .awaiting, 0⟩, ?_, hkm.symm, rfl⟩
      rw [List.getElem?_append_right (Nat.le_refl _), Nat.sub_self]
      rfl
    · obtain ⟨j, l, hj, hm, hwait⟩ := h.load_of k ws' hk
      exact ⟨j, l, by rw [List.getElem?_append_left (List.getElem?_eq_some_iff.1 hj).1]; exact hj, hm, hwait⟩
  · intro k j kv hk
    rw [lookup_insertSlot] at hk
    split at hk
    · cases hk
    · obtain ⟨l, hj, hm, hwait⟩ := h.ready_of k j kv hk
      exact ⟨l, by rw [List.getElem?_append_left (List.getElem?_eq_some_iff.1 hj).1]; exact hj, hm, hwait⟩

/-- The companion takes its model's slot away, and may put a ready one in its place. -/
theorem SlotInv.takeOver (h : SlotInv slots loads) {i : Nat} {l l' : Load} (hi : loads[i]? = some l)
    (hwait : l.companion.waiting = true) (hm : l'.model = l.model)
    (hw : l'.companion.waiting = false) {slots' : List (ModelId × SlotState)} (hkeyed : Keyed slots')
    (hother : ∀ k, k ≠ l.model → slots'.lookup k = slots.lookup k)
    (hself : slots'.lookup l.model = none ∨ ∃ kv, slots'.lookup l.model = some (.ready i kv)) :
    SlotInv slots' (loads.set i l') := by
  have hself' : ∀ ws, slots'.lookup l.model ≠ some (.loading ws) := by
    intro ws hc
    rcases hself with hs | ⟨kv, hs⟩ <;> rw [hs] at hc <;> cases hc
  refine ⟨hkeyed, ?_, ?_, ?_, ?_⟩
  · intro j z hz hzw
    rcases getElem?_set_cases hi hz with ⟨rfl, rfl⟩ | ⟨hij, hz⟩
    · rw [hw] at hzw
      cases hzw
    · obtain ⟨ws, hl⟩ := h.loading_of j z hz hzw
      refine ⟨ws, ?_⟩
      rw [hother _ fun hc => hij (h.unique i j l z hi hz hwait hzw hc.symm)]
      exact hl
  · intro j k z z' hz hz' hzw hzw' hmodel
    rcases getElem?_set_cases hi hz with ⟨rfl, rfl⟩ | ⟨-, hz⟩
    · rw [hw] at hzw
      cases hzw
    · rcases getElem?_set_cases hi hz' with ⟨rfl, rfl⟩ | ⟨-, hz'⟩
      · rw [hw] at hzw'
        cases hzw'
      · exact h.unique j k z z' hz hz' hzw hzw' hmodel
  · intro m ws hk
    have hmne : m ≠ l.model := fun hc => hself' ws (hc ▸ hk)
    rw [hother m hmne] at hk
    obtain ⟨j, z, hz, hzm, hzw⟩ := h.load_of m ws hk
    have hij : i ≠ j := by
      rintro rfl
      rw [hi] at hz
      cases hz
      exact hmne hzm.symm
    exact ⟨j, z, by rw [List.getElem?_set_ne hij]; exact hz, hzm, hzw⟩
  · intro m j kv hk
    by_cases hml : m = l.model
    · subst hml
      rcases hself with hs | ⟨kv', hs⟩
      · rw [hs] at hk
        cases hk
      · rw [hs] at hk
        cases hk
        exact ⟨l', List.getElem?_set_self (List.getElem?_eq_some_iff.1 hi).1, hm, hw⟩
    · rw [hother m hml] at hk
      obtain ⟨z, hz, hzm, hzw⟩ := h.ready_of m j kv hk
      have hij : i ≠ j := by
        rintro rfl
        rw [hi] at hz
        cases hz
        exact hml hzm.symm
      exact ⟨z, by rw [List.getElem?_set_ne hij]; exact hz, hzm, hzw⟩

end

/-! ## The thread of a load -/

/-- Before the result. -/
def ThreadState.early : ThreadState → Bool
  | .starting => true
  | .loading _ => true
  | .granted _ _ => true
  | .built _ _ => true
  | _ => false

/-- The waiters a companion is telling. -/
def CompanionState.waiters : CompanionState → List WaiterId
  | .notifying waiters _ => waiters
  | _ => []

@[simp] theorem CompanionState.waiters_notifying (ws : List WaiterId) (ok : Bool) :
    (CompanionState.notifying ws ok).waiters = ws := rfl

@[simp] theorem CompanionState.waiters_done : CompanionState.done.waiters = [] := rfl

@[simp] theorem CompanionState.waiters_awaiting : CompanionState.awaiting.waiters = [] := rfl

def CompanionState.isOpen : CompanionState → Bool
  | .foundOpen _ => true
  | _ => false

/-- Nothing is in the result channel before the result. -/
def Load.Early (l : Load) : Prop := l.thread.early = true → l.companion = .awaiting

/-- What a step of the thread leaves to the slots and the waiters. -/
structure ThreadFrame (l l' : Load) : Prop where
  model : l'.model = l.model
  waiting : l'.companion.waiting = l.companion.waiting
  waiters : l'.companion.waiters = l.companion.waiters
  isOpen : l'.companion.isOpen = true → l'.companion = l.companion
  early : l'.Early

theorem threadStep_frame {b b' : GlobalKvBudget} {l l' : Load} {act : ThreadAct}
    (h : threadStep b l act = some (l', b')) (hearly : l.Early) : ThreadFrame l l' := by
  obtain ⟨m, t, c, d⟩ := l
  unfold Load.Early at hearly
  cases act <;> cases t <;> simp only [threadStep, Option.some.injEq, Prod.mk.injEq, reduceCtorEq] at h <;>
    obtain ⟨rfl, rfl⟩ := h <;>
    first
      -- still before the result
      | exact ⟨rfl, rfl, rfl, fun _ => rfl, fun _ => hearly rfl⟩
      -- the result itself
      | (cases hearly rfl
         exact ⟨rfl, rfl, rfl, nofun, nofun⟩)
      | exact ⟨rfl, rfl, rfl, fun _ => rfl, nofun⟩

/-! ## Every waiter is accounted for -/

def SlotState.waiters : SlotState → List WaiterId
  | .loading waiters => waiters
  | .ready _ _ => []

@[simp] theorem SlotState.waiters_loading (ws : List WaiterId) : (SlotState.loading ws).waiters = ws := rfl

@[simp] theorem SlotState.waiters_ready (i : LoadId) (kv : Nat) : (SlotState.ready i kv).waiters = [] := rfl

/-- How often a waiter is in a slot, with a companion or among the results. -/
def ModelManager.places (s : ModelManager) (w : WaiterId) : Nat :=
  (s.slots.map fun p => p.2.waiters.count w).sum +
    (s.loads.map fun l => l.companion.waiters.count w).sum + (s.results.map (·.1)).count w

structure ManagerInv (s : ModelManager) : Prop where
  slots : SlotInv s.slots s.loads
  early : ∀ (i : LoadId) (l : Load), s.loads[i]? = some l → l.Early
  accounted : ∀ w, s.places w = if w < s.nextWaiter then 1 else 0

/-- A waiter more. -/
theorem count_next (w n : Nat) :
    (if w < n + 1 then 1 else 0) = (if w < n then 1 else 0) + if n = w then 1 else 0 := by
  split <;> split <;> split <;> omega

/-- A load replaced. -/
theorem early_set {loads : List Load} (h : ∀ (i : LoadId) (l : Load), loads[i]? = some l → l.Early)
    {i : LoadId} {l l' : Load} (hi : loads[i]? = some l) (hl : l'.Early) :
    ∀ (j : LoadId) (z : Load), (loads.set i l')[j]? = some z → z.Early := by
  intro j z hz
  rcases getElem?_set_cases hi hz with ⟨-, rfl⟩ | ⟨-, hz⟩
  · exact hl
  · exact h j z hz

theorem waitersOf_count (st : Option SlotState) (w : WaiterId) :
    (waitersOf st).count w = st.elim 0 fun st => st.waiters.count w := by
  rcases st with _ | ⟨ws⟩ | ⟨i, kv⟩ <;> rfl

section

variable {s : ModelManager}

/-- A slot without waiters goes, and a load changes that tells nobody. -/
theorem ManagerInv.unloadReady (h : ManagerInv s) {m : ModelId} {i : LoadId} {kv : Nat}
    (hready : s.slots.lookup m = some (.ready i kv)) : ManagerInv (s.unload m kv) := by
  refine ⟨h.slots.removeReady hready, h.early, fun w => ?_⟩
  have hsum := sum_removeSlot (fun st => st.waiters.count w) h.slots.keyed m
  rw [hready] at hsum
  have hw := h.accounted w
  have hsum : ((removeSlot s.slots m).map fun p => p.2.waiters.count w).sum =
      (s.slots.map fun p => p.2.waiters.count w).sum := hsum
  unfold ModelManager.places at hw ⊢
  simp only [ModelManager.unload, hsum]
  exact hw

theorem ManagerInv.setLoad (h : ManagerInv s) {i : LoadId} {l l' : Load} (hi : s.loads[i]? = some l)
    (hm : l'.model = l.model) (hwait : l'.companion.waiting = l.companion.waiting)
    (hws : l'.companion.waiters = l.companion.waiters) (hearly : l'.Early) (b : GlobalKvBudget) :
    ManagerInv { s with loads := s.loads.set i l', kvBudget := b } := by
  refine ⟨h.slots.setLoad hi hm hwait, early_set h.early hi hearly, fun w => ?_⟩
  have hsum := sum_set (fun l : Load => l.companion.waiters.count w) hi l'
  have hw := h.accounted w
  unfold ModelManager.places at hw ⊢
  rw [hws] at hsum
  simp only at hsum ⊢
  omega

/-- The companion takes the lock: the waiters of its slot become its own. -/
theorem installStep_inv (h : ManagerInv s) {i : LoadId} {l : Load} (hi : s.loads[i]? = some l)
    {overBudget : Bool} {s' : ModelManager} (hs : s.installStep i l overBudget = some s') :
    ManagerInv s' := by
  have hlate : l.companion.waiting = true → l.companion ≠ .awaiting → l.thread.early = false := by
    intro _ hne
    by_contra hc
    exact hne (h.early i l hi (by simpa using hc))
  -- the slot removed or made ready, the waiters with the companion
  have htake : ∀ {slots' : List (ModelId × SlotState)} {ok : Bool} (b : GlobalKvBudget),
      l.companion.waiting = true → l.companion ≠ .awaiting → Keyed slots' →
      (∀ k, k ≠ l.model → slots'.lookup k = s.slots.lookup k) →
      (slots'.lookup l.model = none ∨ ∃ kv, slots'.lookup l.model = some (.ready i kv)) →
      (∀ w, (slots'.map fun p => p.2.waiters.count w).sum +
        (waitersOf (s.slots.lookup l.model)).count w = (s.slots.map fun p => p.2.waiters.count w).sum) →
      l.companion.waiters = [] →
        ManagerInv { s with
          slots := slots'
          kvBudget := b
          loads := s.loads.set i
            { l with companion := .notifying (waitersOf (s.slots.lookup l.model)) ok } } := by
    intro slots' ok b hwait hne hkeyed hother hself hcount hnone
    have hslots : SlotInv slots' (s.loads.set i
        { l with companion := .notifying (waitersOf (s.slots.lookup l.model)) ok }) := by
      refine h.slots.takeOver hi hwait ?_ ?_ hkeyed hother hself <;> rfl
    refine ⟨hslots, early_set h.early hi fun he => ?_, fun w => ?_⟩
    · have he : l.thread.early = true := he
      rw [hlate hwait hne] at he
      cases he
    · have hsum := sum_set (fun l : Load => l.companion.waiters.count w) hi
        { l with companion := .notifying (waitersOf (s.slots.lookup l.model)) ok }
      have hslots := hcount w
      have hw := h.accounted w
      unfold ModelManager.places at hw ⊢
      simp only [hnone, CompanionState.waiters_notifying, List.count_nil] at hsum ⊢
      omega
  have hremove : ∀ w, ((removeSlot s.slots l.model).map fun p => p.2.waiters.count w).sum +
      (waitersOf (s.slots.lookup l.model)).count w = (s.slots.map fun p => p.2.waiters.count w).sum := by
    intro w
    rw [waitersOf_count]
    exact sum_removeSlot (fun st => st.waiters.count w) h.slots.keyed l.model
  have hgone : ∀ k, k ≠ l.model → (removeSlot s.slots l.model).lookup k = s.slots.lookup k := fun k hk => by
    rw [lookup_removeSlot, if_neg hk]
  have hnone : (removeSlot s.slots l.model).lookup l.model = none := by
    rw [lookup_removeSlot, if_pos rfl]
  unfold ModelManager.installStep at hs
  simp only at hs
  split at hs
  next kv hcomp =>
    cases hs
    exact htake _ (by rw [hcomp]; rfl) (by rw [hcomp]; exact fun hc => by cases hc) (h.slots.keyed.remove _)
      hgone (.inl hnone) hremove (by rw [hcomp]; rfl)
  next kv hcomp =>
    split at hs
    · cases hs
      exact htake _ (by rw [hcomp]; rfl) (by rw [hcomp]; exact fun hc => by cases hc)
        (h.slots.keyed.remove _) hgone (.inl hnone) hremove (by rw [hcomp]; rfl)
    · cases hs
      refine htake s.kvBudget (by rw [hcomp]; rfl) (by rw [hcomp]; exact fun hc => by cases hc)
        (h.slots.keyed.insert _ _) (fun k hk => ?_) (.inr ⟨kv, ?_⟩) (fun w => ?_) (by rw [hcomp]; rfl)
      · rw [lookup_insertSlot, if_neg hk]
      · rw [lookup_insertSlot, if_pos rfl]
      · rw [waitersOf_count]
        exact sum_insertSlot (fun st => st.waiters.count w) h.slots.keyed l.model (.ready i kv)
  next hcomp =>
    cases hs
    exact htake s.kvBudget (by rw [hcomp]; rfl) (by rw [hcomp]; exact fun hc => by cases hc)
      (h.slots.keyed.remove _) hgone (.inl hnone) hremove (by rw [hcomp]; rfl)
  · cases hs

theorem guardDrop_inv (h : ManagerInv s) {i : LoadId} {l : Load} (hi : s.loads[i]? = some l) :
    ManagerInv (s.guardDrop i l) := by
  have hset : ManagerInv (s.setLoad i { l with thread := .gone }) := by
    refine h.setLoad hi ?_ ?_ ?_ ?_ s.kvBudget
    · rfl
    · rfl
    · rfl
    · exact nofun
  unfold ModelManager.guardDrop
  simp only
  split
  next j kv hready =>
    split
    · exact hset.unloadReady hready
    · exact hset
  · exact hset

theorem step_inv (h : ManagerInv s) {act : Act} {s' : ModelManager} (hs : s.step act = some s') :
    ManagerInv s' := by
  cases act with
  | getWait m =>
      unfold ModelManager.step at hs
      simp only at hs
      split at hs
      next ws hload =>
        cases hs
        refine ⟨h.slots.addWaiter hload _, h.early, fun w => ?_⟩
        have hsum := sum_insertSlot (fun st => st.waiters.count w) h.slots.keyed m
          (.loading (ws ++ [s.nextWaiter]))
        have hw := h.accounted w
        unfold ModelManager.places at hw ⊢
        rw [hload] at hsum
        simp only [Option.elim_some, SlotState.waiters_loading, List.count_append, List.count_singleton,
          beq_iff_eq] at hsum ⊢
        rw [count_next]
        omega
      · cases hs
  | getLoad m =>
      unfold ModelManager.step at hs
      simp only at hs
      split at hs
      next hnone =>
        cases hs
        refine ⟨h.slots.addLoad hnone _, fun j z hz => ?_, fun w => ?_⟩
        · rw [List.getElem?_append] at hz
          split at hz
          · exact h.early j z hz
          · obtain ⟨hlt, rfl⟩ := List.getElem?_eq_some_iff.1 hz
            have hzero : j - s.loads.length = 0 := Nat.lt_one_iff.1 hlt
            simp only [hzero, List.getElem_cons_zero]
            exact fun _ => rfl
        · have hsum := sum_insertSlot (fun st => st.waiters.count w) h.slots.keyed m
            (.loading [s.nextWaiter])
          have hw := h.accounted w
          unfold ModelManager.places at hw ⊢
          rw [hnone] at hsum
          simp only [Option.elim_none, SlotState.waiters_loading, List.count_singleton, beq_iff_eq, List.map_append,
            List.sum_append, List.map_cons, List.map_nil, List.sum_cons, List.sum_nil,
            CompanionState.waiters_awaiting, List.count_nil] at hsum ⊢
          rw [count_next]
          omega
      · cases hs
  | evict m =>
      unfold ModelManager.step at hs
      simp only at hs
      split at hs
      next i kv hready =>
        cases hs
        exact h.unloadReady hready
      · cases hs
  | thread i act =>
      obtain ⟨l, hi, hs⟩ := Option.bind_eq_some_iff.1 hs
      obtain ⟨⟨l', b⟩, hstep, hs⟩ := Option.map_eq_some_iff.1 hs
      cases hs
      have hframe := threadStep_frame hstep (h.early i l hi)
      exact h.setLoad hi hframe.model hframe.waiting hframe.waiters hframe.early b
  | guardDrop i =>
      obtain ⟨l, hi, hs⟩ := Option.bind_eq_some_iff.1 hs
      obtain ⟨-, hs⟩ := Option.ite_none_right_eq_some.1 hs
      cases hs
      exact guardDrop_inv h hi
  | check i =>
      obtain ⟨l, hi, hs⟩ := Option.bind_eq_some_iff.1 hs
      have hlate : ∀ c, l.companion = .pending c → l.thread.early = false := by
        intro c hc
        by_contra he
        have := h.early i l hi (by simpa using he)
        rw [hc] at this
        cases this
      split at hs
      next kv hcomp =>
        cases hs
        refine h.setLoad hi ?_ ?_ ?_ ?_ s.kvBudget
        · rfl
        · rw [hcomp]
          show CompanionState.waiting (if _ then _ else _) = true
          split <;> rfl
        · rw [hcomp]
          show CompanionState.waiters (if _ then _ else _) = []
          split <;> rfl
        · intro he
          have he : l.thread.early = true := he
          rw [hlate _ hcomp] at he
          cases he
      next c _ hcomp =>
        cases hs
        refine h.setLoad hi ?_ ?_ ?_ ?_ s.kvBudget
        · rfl
        · rw [hcomp]
          rfl
        · rw [hcomp]
          rfl
        · intro he
          have he : l.thread.early = true := he
          rw [hlate _ hcomp] at he
          cases he
      · cases hs
  | install i overBudget =>
      obtain ⟨l, hi, hs⟩ := Option.bind_eq_some_iff.1 hs
      exact installStep_inv h hi hs
  | notify i =>
      obtain ⟨l, hi, hs⟩ := Option.bind_eq_some_iff.1 hs
      simp only at hs
      split at hs
      next ws ok hcomp =>
        cases hs
        have hslots : SlotInv s.slots (s.loads.set i { l with companion := .done }) := by
          refine h.slots.setLoad hi ?_ ?_
          · rfl
          · rw [hcomp]
            rfl
        refine ⟨hslots, early_set h.early hi fun he => ?_, fun w => ?_⟩
        · have := h.early i l hi he
          rw [hcomp] at this
          cases this
        · have hsum := sum_set (fun l : Load => l.companion.waiters.count w) hi
            { l with companion := .done }
          refine Eq.trans ?_ (h.accounted w)
          have hmap : (ws.map fun w => (w, ok)).map (·.1) = ws := by
            rw [List.map_map]
            exact List.map_id ws
          unfold ModelManager.places
          simp only [hcomp, CompanionState.waiters_notifying, CompanionState.waiters_done, List.count_nil,
            ModelManager.setLoad, List.map_append,
            hmap, List.count_append] at hsum ⊢
          omega
      · cases hs

end

/-! ## Ready slots have live engines, if no engine ends in the gaps -/

/-- No engine ends between its companion's look at the channel and the lock, and none outside its loop
while the companion relies on it or its slot stands. -/
def Careful (s : ModelManager) : Act → Prop
  | .thread i .leaveLoop =>
      ∀ l, s.loads[i]? = some l → l.companion.isOpen = false
  | .thread i .panic =>
      ∀ l, s.loads[i]? = some l →
        l.companion.isOpen = false ∧ ∀ kv, s.slots.lookup l.model ≠ some (.ready i kv)
  | _ => True

structure LiveInv (s : ModelManager) : Prop where
  ready : ∀ (m : ModelId) (i : LoadId) (kv : Nat) (l : Load), s.slots.lookup m = some (.ready i kv) →
    s.loads[i]? = some l → l.thread ≠ .gone
  isOpen : ∀ (i : LoadId) (l : Load), s.loads[i]? = some l → l.companion.isOpen = true →
    l.thread.closed = false

section

variable {s s' : ModelManager}

theorem threadStep_live {b b' : GlobalKvBudget} {l l' : Load} {act : ThreadAct} {ready : Prop}
    (h : threadStep b l act = some (l', b')) (hearly : l.Early)
    (hready : ready → l.companion.waiting = false) (hopen : l.companion.isOpen = true → l.thread.closed = false)
    (hleave : act = .leaveLoop → l.companion.isOpen = false)
    (hpanic : act = .panic → l.companion.isOpen = false ∧ ¬ ready) :
    (ready → l.thread ≠ .gone → l'.thread ≠ .gone) ∧
      (l'.companion.isOpen = true → l'.thread.closed = false) := by
  obtain ⟨m, t, c, d⟩ := l
  unfold Load.Early at hearly
  cases act <;> cases t <;> simp only [threadStep, Option.some.injEq, Prod.mk.injEq, reduceCtorEq] at h <;>
    obtain ⟨rfl, rfl⟩ := h <;>
    refine ⟨fun hr hl => ?_, fun ho => ?_⟩
  all_goals
    first
      | rfl
      | (intro hc; cases hc; done)
      -- an end before the result: the companion is still waiting
      | (cases hearly rfl; cases hready hr)
      | exact ((hpanic rfl).2 hr).elim
      | cases ho
      | exact absurd (ho.symm.trans (hleave rfl)) (by decide)
      | exact absurd (ho.symm.trans (hpanic rfl).1) (by decide)

/-- The loads changed at one index, the slots as they were or with fewer ready ones. -/
theorem LiveInv.update (h : LiveInv s) {i : LoadId} {l l' : Load} (hi : s.loads[i]? = some l)
    (hloads : s'.loads = s.loads.set i l')
    (hslots : ∀ (m : ModelId) (j : LoadId) (kv : Nat), s'.slots.lookup m = some (.ready j kv) →
      s.slots.lookup m = some (.ready j kv) ∨ j = i)
    (hready : ∀ (m : ModelId) (kv : Nat), s'.slots.lookup m = some (.ready i kv) → l'.thread ≠ .gone)
    (hopen : l'.companion.isOpen = true → l'.thread.closed = false) : LiveInv s' := by
  constructor
  · intro m j kv z hlook hz
    rw [hloads] at hz
    rcases getElem?_set_cases hi hz with ⟨rfl, rfl⟩ | ⟨hij, hz⟩
    · exact hready m kv hlook
    · exact h.ready m j kv z ((hslots m j kv hlook).resolve_right (Ne.symm hij)) hz
  · intro j z hz ho
    rw [hloads] at hz
    rcases getElem?_set_cases hi hz with ⟨rfl, rfl⟩ | ⟨-, hz⟩
    · exact hopen ho
    · exact h.isOpen j z hz ho

/-- The slots changed, the loads not, and no slot became ready. -/
theorem LiveInv.slotsOnly (h : LiveInv s) (hloads : ∀ (j : LoadId) (z : Load), s'.loads[j]? = some z →
      s.loads[j]? = some z ∨ (z.thread = .starting ∧ z.companion = .awaiting))
    (hslots : ∀ (m : ModelId) (j : LoadId) (kv : Nat), s'.slots.lookup m = some (.ready j kv) →
      s.slots.lookup m = some (.ready j kv)) : LiveInv s' := by
  constructor
  · intro m j kv z hlook hz
    rcases hloads j z hz with hz | ⟨hz, -⟩
    · exact h.ready m j kv z (hslots m j kv hlook) hz
    · rw [hz]
      exact nofun
  · intro j z hz ho
    rcases hloads j z hz with hz | ⟨hz, -⟩
    · exact h.isOpen j z hz ho
    · rw [hz]
      rfl

theorem ready_of_remove {slots : List (ModelId × SlotState)} {m k : ModelId} {j : LoadId} {kv : Nat}
    (h : (removeSlot slots m).lookup k = some (.ready j kv)) :
    k ≠ m ∧ slots.lookup k = some (.ready j kv) := by
  rw [lookup_removeSlot] at h
  exact Option.ite_none_left_eq_some.1 h

theorem ready_of_insertLoading {slots : List (ModelId × SlotState)} {m k : ModelId} {ws : List WaiterId} {j : LoadId}
    {kv : Nat} (h : (insertSlot slots m (.loading ws)).lookup k = some (.ready j kv)) :
    slots.lookup k = some (.ready j kv) := by
  rw [lookup_insertSlot] at h
  split at h
  · cases h
  · exact h

theorem installStep_live (hinv : ManagerInv s) (h : LiveInv s) {i : LoadId} {l : Load}
    (hi : s.loads[i]? = some l) {overBudget : Bool} (hs : s.installStep i l overBudget = some s') :
    LiveInv s' := by
  -- a slot taken away leaves the other models' slots
  have hgone : ∀ (m : ModelId) (j : LoadId) (kv : Nat),
      (removeSlot s.slots l.model).lookup m = some (.ready j kv) →
        s.slots.lookup m = some (.ready j kv) ∨ j = i := fun m j kv hk => .inl (ready_of_remove hk).2
  have hother : ∀ (m : ModelId) (kv : Nat),
      (removeSlot s.slots l.model).lookup m = some (.ready i kv) → False := by
    intro m kv hk
    obtain ⟨hne, hk⟩ := ready_of_remove hk
    exact hne (hinv.slots.ready_load hk hi).1.symm
  unfold ModelManager.installStep at hs
  simp only at hs
  split at hs
  · cases hs
    exact h.update hi rfl hgone (fun m kv hk => (hother m kv hk).elim) nofun
  next kv hcomp =>
    split at hs
    · cases hs
      exact h.update hi rfl hgone (fun m kv hk => (hother m kv hk).elim) nofun
    · cases hs
      have hclosed := h.isOpen i l hi (by rw [hcomp]; rfl)
      refine h.update hi rfl (fun m j kv' hk => ?_) (fun m kv' hk hc => ?_) nofun
      · have hk : (insertSlot s.slots l.model (.ready i kv)).lookup m = some (.ready j kv') := hk
        rw [lookup_insertSlot] at hk
        split at hk
        · cases hk
          exact .inr rfl
        · exact .inl hk
      · have hc : l.thread = .gone := hc
        rw [hc] at hclosed
        cases hclosed
  · cases hs
    exact h.update hi rfl hgone (fun m kv hk => (hother m kv hk).elim) nofun
  · cases hs

/-- The guard of a thread that has left its loop takes the slot only where it is still the thread's. -/
theorem guardDrop_live (hinv : ManagerInv s) (h : LiveInv s) {i : LoadId} {l : Load} (hi : s.loads[i]? = some l)
    (hexit : l.thread = .exiting) : LiveInv (s.guardDrop i l) := by
  have hnot : l.companion.isOpen = true → False := by
    intro ho
    have := h.isOpen i l hi ho
    rw [hexit] at this
    cases this
  unfold ModelManager.guardDrop
  simp only
  split
  next j kv hready =>
    split
    next hij =>
      subst hij
      refine h.update hi rfl (fun m k kv' hk => .inl (ready_of_remove hk).2) (fun m kv' hk => ?_)
        fun ho => (hnot ho).elim
      obtain ⟨hne, hk⟩ := ready_of_remove hk
      exact absurd (hinv.slots.ready_load hk hi).1.symm hne
    next hij =>
      refine h.update hi rfl (fun m k kv' hk => .inl hk) (fun m kv' hk => ?_)
        fun ho => (hnot ho).elim
      obtain rfl := (hinv.slots.ready_load hk hi).1
      have hk : s.slots.lookup l.model = some (.ready i kv') := hk
      rw [hready] at hk
      cases hk
      exact absurd rfl hij
  next hnone =>
    refine h.update hi rfl (fun m k kv' hk => .inl hk) (fun m kv' hk => ?_)
      fun ho => (hnot ho).elim
    obtain rfl := (hinv.slots.ready_load hk hi).1
    exact absurd hk (hnone i kv')

theorem step_live (hinv : ManagerInv s) (h : LiveInv s) {act : Act} (hc : Careful s act)
    (hs : s.step act = some s') : LiveInv s' := by
  cases act with
  | getWait m =>
      unfold ModelManager.step at hs
      simp only at hs
      split at hs
      · cases hs
        exact h.slotsOnly (fun j z hz => .inl hz) fun k j kv hk => ready_of_insertLoading hk
      · cases hs
  | getLoad m =>
      unfold ModelManager.step at hs
      simp only at hs
      split at hs
      · cases hs
        refine h.slotsOnly (fun j z hz => ?_) fun k j kv hk => ready_of_insertLoading hk
        have hz : (s.loads ++ [⟨m, .starting, .awaiting, 0⟩])[j]? = some z := hz
        rw [List.getElem?_append] at hz
        split at hz
        · exact .inl hz
        · obtain ⟨hlt, rfl⟩ := List.getElem?_eq_some_iff.1 hz
          have hzero : j - s.loads.length = 0 := Nat.lt_one_iff.1 hlt
          right
          simp only [hzero, List.getElem_cons_zero, and_self]
      · cases hs
  | evict m =>
      unfold ModelManager.step at hs
      simp only at hs
      split at hs
      · cases hs
        exact h.slotsOnly (fun j z hz => .inl hz) fun k j kv hk => (ready_of_remove hk).2
      · cases hs
  | thread i act =>
      obtain ⟨l, hi, hs⟩ := Option.bind_eq_some_iff.1 hs
      obtain ⟨⟨l', b⟩, hstep, hs⟩ := Option.map_eq_some_iff.1 hs
      cases hs
      obtain ⟨h1, h2⟩ := @threadStep_live _ _ _ _ _ (∃ kv, s.slots.lookup l.model = some (.ready i kv)) hstep
        (hinv.early i l hi)
        (fun ⟨kv, hk⟩ => (hinv.slots.ready_load hk hi).2)
        (h.isOpen i l hi)
        (fun ha => by
          subst ha
          exact hc l hi)
        (fun ha => by
          subst ha
          exact ⟨(hc l hi).1, fun ⟨kv, hk⟩ => (hc l hi).2 kv hk⟩)
      refine h.update hi rfl (fun m j kv hk => .inl hk) (fun m kv hk => ?_) h2
      obtain rfl := (hinv.slots.ready_load hk hi).1
      exact h1 ⟨kv, hk⟩ (h.ready _ i kv l hk hi)
  | guardDrop i =>
      obtain ⟨l, hi, hs⟩ := Option.bind_eq_some_iff.1 hs
      obtain ⟨hexit, hs⟩ := Option.ite_none_right_eq_some.1 hs
      cases hs
      exact guardDrop_live hinv h hi hexit
  | check i =>
      obtain ⟨l, hi, hs⟩ := Option.bind_eq_some_iff.1 hs
      have hready : ∀ (c : LoadOutcome) (m : ModelId) (kv : Nat), l.companion = .pending c →
          s.slots.lookup m = some (.ready i kv) → False := by
        intro c m kv hcomp hk
        have hw := (hinv.slots.ready_load hk hi).2
        rw [hcomp] at hw
        cases hw
      split at hs
      next kv hcomp =>
        cases hs
        refine h.update hi rfl (fun m j kv' hk => .inl hk)
          (fun m kv' hk => (hready _ m kv' hcomp hk).elim) fun ho => ?_
        have ho : CompanionState.isOpen (if l.thread.closed then .foundClosed kv else .foundOpen kv) = true :=
          ho
        show l.thread.closed = false
        split at ho
        · cases ho
        next hopen => simpa using hopen
      next c _ hcomp =>
        cases hs
        exact h.update hi rfl (fun m j kv' hk => .inl hk)
          (fun m kv' hk => (hready _ m kv' hcomp hk).elim) nofun
      · cases hs
  | install i overBudget =>
      obtain ⟨l, hi, hs⟩ := Option.bind_eq_some_iff.1 hs
      exact installStep_live hinv h hi hs
  | notify i =>
      obtain ⟨l, hi, hs⟩ := Option.bind_eq_some_iff.1 hs
      simp only at hs
      split at hs
      · cases hs
        exact h.update hi rfl (fun m j kv' hk => .inl hk) (fun m kv' hk => h.ready m i kv' l hk hi) nofun
      · cases hs

end

/-! ## Every run -/

namespace ModelManager

/-- Nothing is in flight: every companion has told its waiters, every thread is in its loop or gone. -/
def Quiescent (s : ModelManager) : Prop :=
  ∀ l ∈ s.loads, l.companion = .done ∧ (l.thread = .serving ∨ l.thread = .gone)

theorem new_inv (totalBytes : Nat) : ManagerInv (.new totalBytes) := by
  have hload : ∀ {i : LoadId} {l : Load}, ([] : List Load)[i]? = some l → False := fun hi => by cases hi
  have hslot : ∀ {m : ModelId} {st : SlotState},
      ([] : List (ModelId × SlotState)).lookup m = some st → False := fun hm => by cases hm
  exact ⟨⟨List.nodup_nil, fun _ _ hi => (hload hi).elim, fun _ _ _ _ hi => (hload hi).elim,
    fun _ _ hm => (hslot hm).elim, fun _ _ _ hm => (hslot hm).elim⟩, fun _ _ hi => (hload hi).elim,
    fun _ => rfl⟩

theorem Reach.inv {condition : ModelManager → Act → Prop} {totalBytes : Nat} {s : ModelManager}
    (h : Reach condition totalBytes s) : ManagerInv s := by
  induction h with
  | start => exact new_inv totalBytes
  | step _ _ hs ih => exact step_inv ih hs

theorem Reach.live {totalBytes : Nat} {s : ModelManager} (h : Reach Careful totalBytes s) : LiveInv s := by
  induction h with
  | start => exact ⟨fun _ _ _ _ hm => (by cases hm), fun _ _ hi => by cases hi⟩
  | step h hc hs ih => exact step_live h.inv ih hc hs

/-- With nothing in flight every waiter was sent one result. -/
theorem Reach.answered {condition : ModelManager → Act → Prop} {totalBytes : Nat} {s : ModelManager}
    (h : Reach condition totalBytes s) (hq : s.Quiescent) {w : WaiterId} (hw : w < s.nextWaiter) :
    (s.results.map (·.1)).count w = 1 := by
  have hinv := h.inv
  have hplaces := hinv.accounted w
  rw [if_pos hw] at hplaces
  have hslots : (s.slots.map fun p => p.2.waiters.count w).sum = 0 := by
    rw [List.sum_eq_zero_iff_forall_eq_nat]
    intro n hn
    obtain ⟨⟨m, st⟩, hp, rfl⟩ := List.mem_map.1 hn
    have hlook : s.slots.lookup m = some st := by
      have := hinv.slots.keyed
      clear hinv hplaces hn
      generalize s.slots = slots at this hp
      induction slots with
      | nil => cases hp
      | cons q slots ih =>
          obtain ⟨k, st'⟩ := q
          obtain ⟨hk, hnd⟩ := List.nodup_cons.1 this
          rw [List.lookup_cons]
          rcases List.mem_cons.1 hp with hpq | hp
          · cases hpq
            rw [beq_self_eq_true]
          · have hne : m ≠ k := fun hc => hk (List.mem_map.2 ⟨_, hp, hc⟩)
            rw [beq_eq_false_iff_ne.2 hne]
            exact ih hnd hp
    cases st with
    | ready i kv => rfl
    | loading ws =>
        -- a loading slot has a companion at work
        obtain ⟨i, l, hi, -, hwait⟩ := hinv.slots.load_of m ws hlook
        rw [(hq l (List.mem_of_getElem? hi)).1] at hwait
        cases hwait
  have hloads : (s.loads.map fun l => l.companion.waiters.count w).sum = 0 := by
    rw [List.sum_eq_zero_iff_forall_eq_nat]
    intro n hn
    obtain ⟨l, hl, rfl⟩ := List.mem_map.1 hn
    rw [(hq l hl).1]
    rfl
  unfold places at hplaces
  omega

/-- A guard removes the slot of its own engine or none. -/
theorem guardDrop_slots {s s' : ModelManager} {i : LoadId} (hs : s.step (.guardDrop i) = some s')
    {m : ModelId} {st : SlotState} (hm : s.slots.lookup m = some st) :
    s'.slots.lookup m = some st ∨ ∃ kv, st = .ready i kv := by
  obtain ⟨l, hi, hs⟩ := Option.bind_eq_some_iff.1 hs
  obtain ⟨-, hs⟩ := Option.ite_none_right_eq_some.1 hs
  cases hs
  unfold guardDrop
  simp only
  split
  next j kv hready =>
    split
    next hij =>
      by_cases hml : m = l.model
      · rw [hml, hready] at hm
        cases hm
        exact .inr ⟨kv, by rw [hij]⟩
      · left
        show (removeSlot s.slots l.model).lookup m = some st
        rw [lookup_removeSlot, if_neg hml]
        exact hm
    · exact .inl hm
  · exact .inl hm

end ModelManager

/-- In every run in which no engine ends in the gaps: once nothing is in flight every ready slot has a
serving engine and every waiter was sent exactly one result; and at any time a guard that runs leaves every
slot but its own engine's. -/
theorem slots_have_engines {totalBytes : Nat} {s : ModelManager}
    (h : ModelManager.Reach Careful totalBytes s) :
    (s.Quiescent →
      (∀ (m : ModelId) (i : LoadId) (kv : Nat), s.slots.lookup m = some (.ready i kv) →
        ∃ l, s.loads[i]? = some l ∧ l.thread = .serving) ∧
      ∀ w < s.nextWaiter, (s.results.map (·.1)).count w = 1) ∧
    ∀ (i : LoadId) (s' : ModelManager), s.step (.guardDrop i) = some s' →
      ∀ (m : ModelId) (st : SlotState), s.slots.lookup m = some st →
        s'.slots.lookup m = some st ∨ ∃ kv, st = .ready i kv := by
  refine ⟨fun hq => ⟨fun m i kv hm => ?_, fun w hw => h.answered hq hw⟩,
    fun i s' hs m st hm => ModelManager.guardDrop_slots hs hm⟩
  obtain ⟨l, hi, -, -⟩ := h.inv.slots.ready_of m i kv hm
  refine ⟨l, hi, (hq l (List.mem_of_getElem? hi)).2.resolve_right ?_⟩
  exact h.live.ready m i kv l hm hi

theorem ModelManager.Reach.run {condition : ModelManager → Act → Prop} {totalBytes : Nat}
    {acts : List Act} (hc : ∀ act ∈ acts, ∀ s, condition s act) {s s' : ModelManager}
    (h : Reach condition totalBytes s) (hr : acts.foldlM ModelManager.step s = some s') :
    Reach condition totalBytes s' := by
  induction acts generalizing s with
  | nil =>
      cases hr
      exact h
  | cons act acts ih =>
      obtain ⟨s₁, hs, hr⟩ := Option.bind_eq_some_iff.1 hr
      exact ih (fun a ha => hc a (List.mem_cons_of_mem _ ha))
        (h.step (hc act List.mem_cons_self s) hs) hr

/-- A load up to its installed slot. -/
def installActs : List Act :=
  [.getLoad 0, .thread 0 (.reserve 0), .thread 0 (.grant 10), .thread 0 (.build 10), .thread 0 .sendOk,
    .check 0, .install 0 false, .notify 0, .thread 0 .releaseReserved]

def servingManager : ModelManager :=
  ⟨[(0, .ready 0 10)], ⟨100, 10⟩, [⟨0, .serving, .done, 0⟩], 1, [(0, true)]⟩

theorem servingManager_reach : ModelManager.Reach Careful 100 servingManager := by
  have hacts : ∀ act ∈ installActs ++ [.thread 0 .draftNone, .thread 0 .enterLoop],
      ∀ s, Careful s act := by
    intro act hact s
    simp only [installActs, List.cons_append, List.nil_append, List.mem_cons, List.not_mem_nil,
      or_false] at hact
    rcases hact with rfl | rfl | rfl | rfl | rfl | rfl | rfl | rfl | rfl | rfl | rfl <;> trivial
  exact ModelManager.Reach.run hacts .start rfl

theorem slots_have_engines_serving :
    ∃ l, servingManager.loads[0]? = some l ∧ l.thread = .serving := by
  refine ((slots_have_engines servingManager_reach).1 fun l hl => ?_).1 0 0 10 rfl
  rw [List.mem_singleton.1 hl]
  exact ⟨rfl, .inl rfl⟩

/-- A load whose thread ended before its guard existed. -/
def deadManager : ModelManager :=
  ⟨[(0, .ready 0 10)], ⟨100, 10⟩, [⟨0, .gone, .done, 0⟩], 1, [(0, true)]⟩

/-- The thread panics while it loads the draft: there is no guard yet, and the slot stands. -/
theorem dead_slot_stands :
    ModelManager.Reach (fun _ _ => True) 100 deadManager ∧ deadManager.Quiescent ∧
      deadManager.slots.lookup 0 = some (.ready 0 10) ∧
      deadManager.loads[0]?.map (·.thread) = some .gone := by
  have hacts : ∀ act ∈ installActs ++ [.thread 0 .panic], ∀ _ : ModelManager, True := fun _ _ _ => trivial
  refine ⟨ModelManager.Reach.run hacts .start rfl, fun l hl => ?_, rfl, rfl⟩
  rw [List.mem_singleton.1 hl]
  exact ⟨rfl, .inr rfl⟩

end Oxydllm.Serve
