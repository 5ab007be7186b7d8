/-
# Oxydllm.Serve.Ceiling — the memory budget and the loads in flight (`evict_lru_for_bytes`).

Before a load starts, ready models are unloaded, the least recently used first, until what the others hold
fits in the budget beside the new one. Loads still in flight hold nothing yet and are not counted; when
they end, what they hold is.

Here a slot has the sizes and the time of last use that the eviction reads. The slots' order is that of
the map's iterator, which is arbitrary and may change at any time. Tasks, waiters and the KV budget are in
Oxydllm.Serve.Manager.
-/
import Oxydllm.Serve.Manager

namespace Oxydllm.Serve.Ceiling

/-- What a model takes, and what is projected before it is loaded: the same. -/
structure Sizes where
  weightsSizeBytes : ModelId → Nat
  kvCacheBytes : ModelId → Nat
  projectedSizeBytes : ModelId → Nat
  exact : ∀ m, weightsSizeBytes m + kvCacheBytes m = projectedSizeBytes m

inductive SlotState where
  | loading
  | ready (weightsSizeBytes kvCacheBytes lastUsed : Nat)
deriving DecidableEq

/-- A ready slot as the eviction sees it. -/
structure ReadySlot where
  model : ModelId
  bytes : Nat
  lastUsed : Nat
deriving DecidableEq

abbrev Slots := List (ModelId × SlotState)

def readySlots (slots : Slots) : List ReadySlot :=
  slots.filterMap fun p => match p.2 with
    | .ready weights kv lastUsed => some ⟨p.1, weights + kv, lastUsed⟩
    | .loading => none

def bytesOf (ready : List ReadySlot) : Nat := (ready.map (·.bytes)).sum

/-- `total_loaded_bytes`. -/
def totalLoadedBytes (slots : Slots) : Nat := bytesOf (readySlots slots)

def removeSlot (slots : Slots) (m : ModelId) : Slots := slots.filter fun p => p.1 ≠ m

def insertSlot (slots : Slots) (m : ModelId) (st : SlotState) : Slots := (m, st) :: removeSlot slots m

/-- `min_by_key`: the first of those used least recently. -/
def leastUsed : List ReadySlot → Option ReadySlot
  | [] => none
  | r :: rest =>
      match leastUsed rest with
      | some o => if o.lastUsed < r.lastUsed then some o else some r
      | none => some r

def evictLruOne (slots : Slots) : Option Slots :=
  (leastUsed (readySlots slots)).map fun r => removeSlot slots r.model

/-- Evicts until the bytes needed fit; every eviction takes a slot. -/
def evictLruForBytes (budget needed : Nat) : Nat → Slots → Slots
  | 0, slots => slots
  | fuel + 1, slots =>
      if totalLoadedBytes slots + needed ≤ budget then slots
      else
        match evictLruOne slots with
        | some slots => evictLruForBytes budget needed fuel slots
        | none => slots

variable (sizes : Sizes) (budget : Nat)

/-- What is left of the slots when a load of `m` starts. -/
def makeRoom (slots : Slots) (m : ModelId) : Slots :=
  evictLruForBytes budget (sizes.projectedSizeBytes m) slots.length slots

inductive Act where
  | getOrLoad (m : ModelId) (now : Nat)
  -- the companion installs a model that was loaded, or finds that the load failed
  | install (m : ModelId) (now : Nat)
  | fail (m : ModelId)
  -- `evict_expired`, `evict_lru_one` of a load short of KV budget, the guard of an engine loop
  | unload (m : ModelId)
  -- the map's iterator takes another order
  | reorder (slots : Slots)

/-- A step under the manager's lock. -/
def step (slots : Slots) : Act → Option Slots
  | .getOrLoad m now =>
      match slots.lookup m with
      | some (.ready weights kv _) => some (insertSlot slots m (.ready weights kv now))
      | some .loading => some slots
      | none => some (insertSlot (makeRoom sizes budget slots m) m .loading)
  | .install m now =>
      match slots.lookup m with
      | some .loading =>
          let slots := insertSlot slots m (.ready (sizes.weightsSizeBytes m) (sizes.kvCacheBytes m) now)
          some (if totalLoadedBytes slots > budget then removeSlot slots m else slots)
      | _ => none
  | .fail m =>
      match slots.lookup m with
      | some .loading => some (removeSlot slots m)
      | _ => none
  | .unload m =>
      match slots.lookup m with
      | some (.ready _ _ _) => some (removeSlot slots m)
      | _ => none
  | .reorder slots' => if slots'.isPerm slots then some slots' else none

inductive Reach : Slots → Prop
  | start : Reach []
  | step {slots slots' : Slots} (h : Reach slots) {act : Act}
      (hs : step sizes budget slots act = some slots') : Reach slots'

/-! ## The ceiling -/

/-- The models whose load is in flight. -/
def loadingModels (slots : Slots) : List ModelId :=
  slots.filterMap fun p => match p.2 with
    | .loading => some p.1
    | .ready _ _ _ => none

def inFlightBytes (slots : Slots) : Nat := ((loadingModels slots).map sizes.projectedSizeBytes).sum

/-- What is ready and what is loading fits in the budget, or there is nothing left to evict. -/
def WithinCeiling (slots : Slots) : Prop :=
  totalLoadedBytes slots + inFlightBytes sizes slots ≤ budget ∨ readySlots slots = []

/-- The bytes of a ready slot and of all that are evicted after it. -/
def outlived (before : List ReadySlot) (r : ReadySlot) (after : List ReadySlot) : Nat :=
  bytesOf (before.filter fun x => r.lastUsed < x.lastUsed) + r.bytes +
    bytesOf (after.filter fun x => r.lastUsed ≤ x.lastUsed)

/-- Every ready slot that fits beside a new load, with those evicted after it, also fits beside the loads
already in flight. -/
def Covered (slots : Slots) (m : ModelId) : Prop :=
  ∀ before r after, readySlots slots = before ++ r :: after →
    outlived before r after + sizes.projectedSizeBytes m ≤ budget →
      outlived before r after + sizes.projectedSizeBytes m + inFlightBytes sizes slots ≤ budget

/-! ## What is evicted first -/

theorem bytesOf_append (xs ys : List ReadySlot) : bytesOf (xs ++ ys) = bytesOf xs + bytesOf ys := by
  unfold bytesOf
  rw [List.map_append, List.sum_append]

theorem bytesOf_cons (r : ReadySlot) (rs : List ReadySlot) : bytesOf (r :: rs) = r.bytes + bytesOf rs := by
  unfold bytesOf
  rw [List.map_cons, List.sum_cons]

theorem bytesOf_filter_le (p : ReadySlot → Bool) (rs : List ReadySlot) :
    bytesOf (rs.filter p) ≤ bytesOf rs := by
  unfold bytesOf
  exact (List.filter_sublist.map _).sum_le_sum fun _ _ => Nat.zero_le _

theorem outlived_le (before : List ReadySlot) (r : ReadySlot) (after : List ReadySlot) :
    outlived before r after ≤ bytesOf (before ++ r :: after) := by
  have h1 := bytesOf_filter_le (fun x => r.lastUsed < x.lastUsed) before
  have h2 := bytesOf_filter_le (fun x => r.lastUsed ≤ x.lastUsed) after
  rw [bytesOf_append, bytesOf_cons]
  unfold outlived
  omega

/-- The one evicted first: nobody was used before it, and nobody in front of it at the same time. -/
structure EvictedFirst (before : List ReadySlot) (o : ReadySlot) (after : List ReadySlot) : Prop where
  before : ∀ x ∈ before, o.lastUsed < x.lastUsed
  after : ∀ x ∈ after, o.lastUsed ≤ x.lastUsed

theorem leastUsed_none {rs : List ReadySlot} : leastUsed rs = none ↔ rs = [] := by
  cases rs with
  | nil => exact iff_of_true rfl rfl
  | cons r rest =>
      refine iff_of_false ?_ (List.cons_ne_nil _ _)
      unfold leastUsed
      split
      · split <;> exact nofun
      · exact nofun

theorem leastUsed_split {rs : List ReadySlot} {o : ReadySlot} (h : leastUsed rs = some o) :
    ∃ before after, rs = before ++ o :: after ∧ EvictedFirst before o after := by
  induction rs generalizing o with
  | nil => cases h
  | cons r rest ih =>
      unfold leastUsed at h
      split at h
      next o' hrest =>
        obtain ⟨before, after, rfl, hfirst⟩ := ih hrest
        split at h
        next hlt =>
          cases h
          refine ⟨r :: before, after, rfl, ?_, hfirst.after⟩
          exact List.forall_mem_cons.2 ⟨hlt, hfirst.before⟩
        next hge =>
          cases h
          have hle : r.lastUsed ≤ o'.lastUsed := not_lt.1 hge
          refine ⟨[], before ++ o' :: after, rfl, List.forall_mem_nil _, ?_⟩
          intro x hx
          rcases List.mem_append.1 hx with hx | hx
          · exact hle.trans (hfirst.before x hx).le
          · rcases List.mem_cons.1 hx with rfl | hx
            · exact hle
            · exact hle.trans (hfirst.after x hx)
      next hrest =>
        cases h
        rw [leastUsed_none.1 hrest]
        exact ⟨[], [], rfl, List.forall_mem_nil _, List.forall_mem_nil _⟩

theorem EvictedFirst.outlived_eq {before : List ReadySlot} {o : ReadySlot} {after : List ReadySlot}
    (h : EvictedFirst before o after) : outlived before o after = bytesOf (before ++ o :: after) := by
  unfold outlived
  rw [List.filter_eq_self.2 fun x hx => decide_eq_true (h.before x hx),
    List.filter_eq_self.2 fun x hx => decide_eq_true (h.after x hx), bytesOf_append, bytesOf_cons]
  omega

/-- What holds of the bytes outlived by each slot. -/
def EachOutlived (Q : Nat → Prop) (rs : List ReadySlot) : Prop :=
  ∀ before r after, rs = before ++ r :: after → Q (outlived before r after)

/-- The slot evicted first outlives nobody, and its eviction changes what nobody else outlives. -/
theorem EvictedFirst.each {before : List ReadySlot} {o : ReadySlot} {after : List ReadySlot}
    (h : EvictedFirst before o after) (Q : Nat → Prop) :
    EachOutlived Q (before ++ o :: after) ↔
      Q (bytesOf (before ++ o :: after)) ∧ EachOutlived Q (before ++ after) := by
  have hfront : ∀ {front : List ReadySlot} {r : ReadySlot} {back : List ReadySlot},
      before = front ++ r :: back →
        outlived front r (back ++ o :: after) = outlived front r (back ++ after) := by
    intro front r back hsplit
    have hr : o.lastUsed < r.lastUsed := h.before r (by rw [hsplit]; simp)
    unfold outlived
    rw [List.filter_append, List.filter_append, List.filter_cons_of_neg (by simpa using hr)]
  have hback : ∀ {front : List ReadySlot} {r : ReadySlot} {back : List ReadySlot},
      after = front ++ r :: back →
        outlived (before ++ o :: front) r back = outlived (before ++ front) r back := by
    intro front r back hsplit
    have hr : o.lastUsed ≤ r.lastUsed := h.after r (by rw [hsplit]; simp)
    unfold outlived
    rw [List.filter_append, List.filter_append, List.filter_cons_of_neg (by simpa using hr)]
  constructor
  · intro hall
    refine ⟨h.outlived_eq ▸ hall before o after rfl, fun front r back hsplit => ?_⟩
    rcases List.append_eq_append_iff.1 hsplit with ⟨mid, rfl, hafter⟩ | ⟨mid, hbefore, hrest⟩
    · rw [← hback hafter]
      exact hall _ _ _ (by rw [hafter, List.append_assoc, List.cons_append])
    · cases mid with
      | nil =>
          rw [List.append_nil] at hbefore
          subst hbefore
          have hafter : after = [] ++ r :: back := hrest.symm
          have hsame := hback hafter
          rw [List.append_nil] at hsame
          rw [← hsame]
          exact hall _ _ _ (by rw [hafter, List.append_assoc]; rfl)
      | cons r' mid =>
          obtain ⟨rfl, rfl⟩ := List.cons.inj hrest
          show Q (outlived front r (mid ++ after))
          rw [← hfront hbefore]
          exact hall _ _ _ (by rw [hbefore, List.append_assoc]; rfl)
  · rintro ⟨htotal, hall⟩ front r back hsplit
    rcases List.append_eq_append_iff.1 hsplit with ⟨mid, rfl, hrest⟩ | ⟨mid, hbefore, hrest⟩
    · cases mid with
      | nil =>
          cases hrest
          rw [List.append_nil, h.outlived_eq]
          exact htotal
      | cons o' mid =>
          cases hrest
          rw [hback rfl]
          exact hall _ _ _ (List.append_assoc _ _ _).symm
    · cases mid with
      | nil =>
          cases hrest
          rw [List.append_nil] at hbefore
          subst hbefore
          rw [h.outlived_eq]
          exact htotal
      | cons r' mid =>
          obtain ⟨rfl, rfl⟩ := List.cons.inj hrest
          show Q (outlived front r (mid ++ o :: after))
          rw [hfront hbefore]
          exact hall _ _ _ (by rw [hbefore, List.append_assoc]; rfl)

/-! ## The slots -/

theorem readySlots_removeSlot (slots : Slots) (m : ModelId) :
    readySlots (removeSlot slots m) = (readySlots slots).filter fun r => r.model ≠ m := by
  unfold readySlots removeSlot
  rw [List.filterMap_filter, List.filter_filterMap]
  refine List.filterMap_congr fun p _ => ?_
  obtain ⟨k, st⟩ := p
  by_cases hk : k = m <;> cases st <;> simp [hk, Option.filter]

theorem loadingModels_removeSlot (slots : Slots) (m : ModelId) :
    loadingModels (removeSlot slots m) = (loadingModels slots).filter fun k => k ≠ m := by
  unfold loadingModels removeSlot
  rw [List.filterMap_filter, List.filter_filterMap]
  refine List.filterMap_congr fun p _ => ?_
  obtain ⟨k, st⟩ := p
  by_cases hk : k = m <;> cases st <;> simp [hk, Option.filter]

/-- Every model has one slot, ready or loading. -/
def OneSlot (slots : Slots) : Prop := (slots.map (·.1)).Nodup

theorem OneSlot.removeSlot {slots : Slots} (h : OneSlot slots) (m : ModelId) :
    OneSlot (removeSlot slots m) :=
  (List.filter_sublist.map _).nodup h

theorem OneSlot.insertSlot {slots : Slots} (h : OneSlot slots) (m : ModelId) (st : SlotState) :
    OneSlot (insertSlot slots m st) := by
  refine List.nodup_cons.2 ⟨fun hc => ?_, h.removeSlot m⟩
  obtain ⟨p, hp, hm⟩ := List.mem_map.1 hc
  have := (List.mem_filter.1 hp).2
  simp [hm] at this

theorem OneSlot.ready {slots : Slots} (h : OneSlot slots) :
    ((readySlots slots).map (·.model)).Nodup ∧
      ∀ r ∈ readySlots slots, r.model ∉ loadingModels slots := by
  have hready : ∀ {slots : Slots} {r : ReadySlot}, r ∈ readySlots slots → r.model ∈ slots.map (·.1) := by
    intro slots r hr
    obtain ⟨⟨k, st⟩, hp, hst⟩ := List.mem_filterMap.1 hr
    cases st with
    | loading => cases hst
    | ready weights kv lastUsed =>
        cases hst
        exact List.mem_map.2 ⟨_, hp, rfl⟩
  have hloading : ∀ {slots : Slots} {m : ModelId}, m ∈ loadingModels slots → m ∈ slots.map (·.1) := by
    intro slots m hm
    obtain ⟨⟨k, st⟩, hp, hst⟩ := List.mem_filterMap.1 hm
    cases st with
    | ready weights kv lastUsed => cases hst
    | loading =>
        cases hst
        exact List.mem_map.2 ⟨_, hp, rfl⟩
  induction slots with
  | nil => exact ⟨List.nodup_nil, List.forall_mem_nil _⟩
  | cons p slots ih =>
      obtain ⟨k, st⟩ := p
      obtain ⟨hk, hslots⟩ := List.nodup_cons.1 h
      obtain ⟨h1, h2⟩ := ih hslots
      cases st with
      | loading =>
          refine ⟨h1, fun r hr hc => ?_⟩
          rcases List.mem_cons.1 hc with hc | hc
          · have hm : r.model = k := hc
            exact hk (hm ▸ hready hr)
          · exact h2 r hr hc
      | ready weights kv lastUsed =>
          constructor
          · refine List.nodup_cons.2 ⟨fun hc => ?_, h1⟩
            obtain ⟨r, hr, hm⟩ := List.mem_map.1 hc
            exact hk (hm ▸ hready hr)
          · intro r hr hc
            rcases List.mem_cons.1 hr with rfl | hr
            · exact hk (hloading hc)
            · exact h2 r hr hc

/-! ## Making room -/

theorem evictLruOne_none {slots : Slots} (h : evictLruOne slots = none) : readySlots slots = [] :=
  leastUsed_none.1 (Option.map_eq_none_iff.1 h)

/-- An eviction takes one ready slot, the one evicted first, and no load. -/
theorem evictLruOne_some {slots slots' : Slots} (hone : OneSlot slots)
    (h : evictLruOne slots = some slots') :
    OneSlot slots' ∧ loadingModels slots' = loadingModels slots ∧
      ∃ before o after, readySlots slots = before ++ o :: after ∧ readySlots slots' = before ++ after ∧
        EvictedFirst before o after := by
  obtain ⟨o, ho, rfl⟩ := Option.map_eq_some_iff.1 h
  obtain ⟨before, after, hready, hfirst⟩ := leastUsed_split ho
  obtain ⟨hmodels, hloading⟩ := hone.ready
  refine ⟨hone.removeSlot _, ?_, before, o, after, hready, ?_, hfirst⟩
  · rw [loadingModels_removeSlot]
    refine List.filter_eq_self.2 fun k hk => decide_eq_true fun hc => ?_
    exact hloading o (by rw [hready]; simp) (hc ▸ hk)
  · rw [readySlots_removeSlot, hready]
    rw [hready, List.map_append, List.map_cons] at hmodels
    have hnot := (List.nodup_cons.1 (List.nodup_middle.1 hmodels)).1
    rw [List.filter_append, List.filter_cons_of_neg (by simp)]
    congr 1
    · refine List.filter_eq_self.2 fun x hx => decide_eq_true fun hc => hnot ?_
      exact List.mem_append_left _ (List.mem_map.2 ⟨x, hx, hc⟩)
    · refine List.filter_eq_self.2 fun x hx => decide_eq_true fun hc => hnot ?_
      exact List.mem_append_right _ (List.mem_map.2 ⟨x, hx, hc⟩)

theorem evictLruForBytes_loading (needed fuel : Nat) {slots : Slots} (hone : OneSlot slots) :
    OneSlot (evictLruForBytes budget needed fuel slots) ∧
      loadingModels (evictLruForBytes budget needed fuel slots) = loadingModels slots := by
  induction fuel generalizing slots with
  | zero => exact ⟨hone, rfl⟩
  | succ fuel ih =>
      unfold evictLruForBytes
      split
      · exact ⟨hone, rfl⟩
      · split
        next slots' he =>
          obtain ⟨hone', hloading, -⟩ := evictLruOne_some hone he
          obtain ⟨h1, h2⟩ := ih hone'
          exact ⟨h1, h2.trans hloading⟩
        next he => exact ⟨hone, rfl⟩

/-- What is left fits beside `extra` as well exactly when every slot does that fits without it. -/
theorem evictLruForBytes_iff (needed : Nat) {fuel : Nat} (extra : Nat) {slots : Slots} (hone : OneSlot slots)
    (hfuel : (readySlots slots).length ≤ fuel) :
    (totalLoadedBytes (evictLruForBytes budget needed fuel slots) + needed + extra ≤ budget ∨
        readySlots (evictLruForBytes budget needed fuel slots) = []) ↔
      EachOutlived (fun n => n + needed ≤ budget → n + needed + extra ≤ budget) (readySlots slots) := by
  have hnil : ∀ {rs : List ReadySlot}, rs = [] →
      EachOutlived (fun n => n + needed ≤ budget → n + needed + extra ≤ budget) rs := by
    intro rs hrs before r after hsplit
    rw [hrs] at hsplit
    simp at hsplit
  induction fuel generalizing slots with
  | zero =>
      have hready : readySlots slots = [] := List.length_eq_zero_iff.1 (Nat.le_zero.1 hfuel)
      exact iff_of_true (.inr hready) (hnil hready)
  | succ fuel ih =>
      unfold evictLruForBytes
      by_cases hfits : totalLoadedBytes slots + needed ≤ budget
      · rw [if_pos hfits]
        constructor
        · rintro (hextra | hready)
          · intro before r after hsplit _
            have hle := outlived_le before r after
            rw [← hsplit] at hle
            unfold totalLoadedBytes at hextra
            omega
          · exact hnil hready
        · intro hall
          cases hleast : leastUsed (readySlots slots) with
          | none => exact .inr (leastUsed_none.1 hleast)
          | some o =>
              obtain ⟨before, after, hsplit, hfirst⟩ := leastUsed_split hleast
              have ho := hall before o after hsplit
              rw [hfirst.outlived_eq, ← hsplit] at ho
              exact .inl (ho hfits)
      · rw [if_neg hfits]
        cases he : evictLruOne slots with
        | none =>
            have hready := evictLruOne_none he
            exact iff_of_true (.inr hready) (hnil hready)
        | some slots' =>
            obtain ⟨hone', -, before, o, after, hsplit, hrest, hfirst⟩ := evictLruOne_some hone he
            have hlen : (readySlots slots').length ≤ fuel := by
              rw [hsplit, List.length_append, List.length_cons] at hfuel
              rw [hrest, List.length_append]
              omega
            refine (ih hone' hlen).trans ?_
            rw [hsplit, hfirst.each, hrest]
            refine ⟨fun hall => ⟨fun hle => absurd hle ?_, hall⟩, fun hall => hall.2⟩
            rw [← hsplit]
            exact hfits

/-! ## Runs -/

theorem step_oneSlot {slots slots' : Slots} (h : OneSlot slots) {act : Act}
    (hs : step sizes budget slots act = some slots') : OneSlot slots' := by
  cases act with
  | getOrLoad m now =>
      simp only [step] at hs
      split at hs
      · cases hs
        exact h.insertSlot _ _
      · cases hs
        exact h
      · cases hs
        exact (evictLruForBytes_loading budget _ _ h).1.insertSlot _ _
  | install m now =>
      simp only [step] at hs
      split at hs
      · cases hs
        split
        · exact (h.insertSlot _ _).removeSlot _
        · exact h.insertSlot _ _
      · cases hs
  | fail m =>
      simp only [step] at hs
      split at hs
      · cases hs
        exact h.removeSlot _
      · cases hs
  | unload m =>
      simp only [step] at hs
      split at hs
      · cases hs
        exact h.removeSlot _
      · cases hs
  | reorder slots'' =>
      simp only [step] at hs
      split at hs
      next hperm =>
        cases hs
        exact ((List.isPerm_iff.1 hperm).map _).nodup_iff.2 h
      · cases hs

theorem Reach.oneSlot {slots : Slots} (h : Reach sizes budget slots) : OneSlot slots := by
  induction h with
  | start => exact List.nodup_nil
  | step _ hs ih => exact step_oneSlot sizes budget ih hs

/-- Whenever a load starts, in whatever run, the ready models and the loads in flight fit in the budget,
or nothing is left to evict, exactly when every slot the eviction spares also fits beside the loads
already in flight. -/
theorem load_within_ceiling {slots : Slots} (h : Reach sizes budget slots) (m : ModelId)
    (hm : slots.lookup m = none) (now : Nat) :
    ∃ slots', step sizes budget slots (.getOrLoad m now) = some slots' ∧ slots'.lookup m = some .loading ∧
      (WithinCeiling sizes budget slots' ↔ Covered sizes budget slots m) := by
  have hone := h.oneSlot
  obtain ⟨-, hloading⟩ := evictLruForBytes_loading budget (sizes.projectedSizeBytes m) slots.length hone
  have hkey : ∀ p ∈ slots, p.1 ≠ m := by
    intro p hp hc
    have hnone := List.lookup_eq_none_iff.1 hm p hp
    simp [hc] at hnone
  have hroom : ∀ p ∈ makeRoom sizes budget slots m, p.1 ≠ m := by
    have hsub : ∀ (fuel : Nat) (slots : Slots),
        (evictLruForBytes budget (sizes.projectedSizeBytes m) fuel slots).Sublist slots := by
      intro fuel
      induction fuel with
      | zero => exact fun _ => .refl _
      | succ fuel ih =>
          intro slots
          unfold evictLruForBytes
          split
          · exact .refl _
          · split
            next slots' he =>
              obtain ⟨o, -, rfl⟩ := Option.map_eq_some_iff.1 he
              exact (ih _).trans List.filter_sublist
            next => exact .refl _
    exact fun p hp => hkey p ((hsub _ _).subset hp)
  have hstep : step sizes budget slots (.getOrLoad m now) =
      some ((m, .loading) :: makeRoom sizes budget slots m) := by
    have hremove : removeSlot (makeRoom sizes budget slots m) m = makeRoom sizes budget slots m :=
      List.filter_eq_self.2 fun p hp => decide_eq_true (hroom p hp)
    simp only [step, hm]
    unfold insertSlot
    rw [hremove]
  refine ⟨_, hstep, List.lookup_cons_self, ?_⟩
  have hbytes : inFlightBytes sizes ((m, .loading) :: makeRoom sizes budget slots m) =
      sizes.projectedSizeBytes m + inFlightBytes sizes slots := by
    show ((m :: loadingModels (makeRoom sizes budget slots m)).map sizes.projectedSizeBytes).sum = _
    unfold makeRoom
    rw [hloading, List.map_cons, List.sum_cons]
    rfl
  have hfuel : (readySlots slots).length ≤ slots.length := List.length_filterMap_le _ _
  have hiff := evictLruForBytes_iff budget (sizes.projectedSizeBytes m) (inFlightBytes sizes slots) hone hfuel
  unfold WithinCeiling
  rw [hbytes, ← Nat.add_assoc]
  exact hiff

/-! ## Two loads at once -/

/-- Three models, of 3, 6 and 6 bytes. -/
def threeSizes : Sizes := ⟨fun m => if m = 0 then 2 else 5, fun _ => 1, fun m => if m = 0 then 3 else 6,
  fun m => by by_cases hm : m = 0 <;> simp [hm]⟩

/-- The small one is ready, one of the others loading. -/
def twoLoads : Slots := [(1, .loading), (0, .ready 2 1 0)]

theorem twoLoads_reach : Reach threeSizes 10 twoLoads := by
  have hready : Reach threeSizes 10 [(0, .ready 2 1 0)] :=
    @Reach.step _ _ [(0, .loading)] _ (@Reach.step _ _ [] _ .start (.getOrLoad 0 0) rfl) (.install 0 0) rfl
  exact @Reach.step _ _ _ _ hready (.getOrLoad 1 1) (by decide)

/-- The second load starts with 15 bytes of 10 promised and 3 that could be given up. -/
theorem twoLoads_over :
    ¬ ∀ slots slots' : Slots, Reach threeSizes 10 slots → slots.lookup 2 = none →
      step threeSizes 10 slots (.getOrLoad 2 2) = some slots' → WithinCeiling threeSizes 10 slots' := by
  intro h
  have hover := h twoLoads [(2, .loading), (1, .loading), (0, .ready 2 1 0)] twoLoads_reach rfl (by decide)
  rcases hover with hle | hnil
  · exact absurd hle (by decide)
  · cases hnil

/-- A single load is within the ceiling. -/
theorem oneLoad_within :
    ∃ slots', step threeSizes 10 [] (.getOrLoad 1 0) = some slots' ∧ slots'.lookup 1 = some .loading ∧
      (WithinCeiling threeSizes 10 slots' ↔ Covered threeSizes 10 [] 1) :=
  load_within_ceiling threeSizes 10 .start 1 rfl 0

end Oxydllm.Serve.Ceiling
