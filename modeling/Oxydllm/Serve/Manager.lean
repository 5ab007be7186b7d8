/-
# Oxydllm.Serve.Manager — loading and unloading models (`ModelManager`).

A load has two halves, the thread that loads the model and then runs its engine, and the companion task
that installs the slot. Both, the callers and the evictions are interleaved freely; what is done under the
manager's lock is one step, as is every single operation of the budget. Sizes (`capped`, `kv`) come from
the loader and the device; which ready model is evicted, and when, is left open, as is when a thread
panics.
-/
import Mathlib.Data.List.Basic
import Mathlib.Tactic

namespace Oxydllm.Serve

/-! ## The KV budget -/

structure GlobalKvBudget where
  totalBytes : Nat
  allocatedBytes : Nat
deriving DecidableEq

namespace GlobalKvBudget

def new (totalBytes : Nat) : GlobalKvBudget := ⟨totalBytes, 0⟩

def availableBytes (b : GlobalKvBudget) : Nat := b.totalBytes - b.allocatedBytes

/-- Grants what is asked for, or what is left. -/
def acquire (b : GlobalKvBudget) (desiredBytes : Nat) : Nat × GlobalKvBudget :=
  let granted := min desiredBytes b.availableBytes
  (granted, { b with allocatedBytes := b.allocatedBytes + granted })

def release (b : GlobalKvBudget) (bytes : Nat) : GlobalKvBudget :=
  { b with allocatedBytes := b.allocatedBytes - bytes }

end GlobalKvBudget

/-! ## Slots and loads -/

abbrev ModelId := Nat

/-- A load; its shutdown flag is its own. -/
abbrev LoadId := Nat

abbrev WaiterId := Nat

inductive SlotState where
  | loading (waiters : List WaiterId)
  | ready (shutdown : LoadId) (kvCacheBytes : Nat)
deriving DecidableEq

/-- How far the thread of a load has come, with the bytes of the budget it holds itself. -/
inductive ThreadState where
  | starting
  | loading (reserved : Nat)
  | granted (reserved acquired : Nat)
  | built (reserved kvCacheBytes : Nat)
  -- the result is sent, the reservation not yet released
  | sent (reserved : Nat)
  | draftLoading
  | draftGranted (acquired : Nat)
  | draftDone
  -- inside `engine_loop`, under the guard
  | serving
  -- the loop is over and its receiver dropped, the guard's drop is still to run
  | exiting
  | gone
deriving DecidableEq

/-- What is in the result channel. -/
inductive LoadOutcome where
  | ok (kvCacheBytes : Nat)
  | err
  -- the sender was dropped
  | dropped
deriving DecidableEq

inductive CompanionState where
  | awaiting
  | pending (outcome : LoadOutcome)
  -- the request channel was found open, the lock is still to be taken
  | foundOpen (kvCacheBytes : Nat)
  | foundClosed (kvCacheBytes : Nat)
  | failed
  | notifying (waiters : List WaiterId) (ok : Bool)
  | done
deriving DecidableEq

structure Load where
  model : ModelId
  thread : ThreadState
  companion : CompanionState
  /-- the pool of the draft model, zero without one -/
  draftBytes : Nat
deriving DecidableEq

structure ModelManager where
  slots : List (ModelId × SlotState)
  kvBudget : GlobalKvBudget
  loads : List Load
  nextWaiter : WaiterId
  /-- what waiters were sent -/
  results : List (WaiterId × Bool)
deriving DecidableEq

def ModelManager.new (totalBytes : Nat) : ModelManager := ⟨[], .new totalBytes, [], 0, []⟩

/-- `HashMap::remove`. -/
def removeSlot (slots : List (ModelId × SlotState)) (m : ModelId) : List (ModelId × SlotState) :=
  slots.filter fun p => p.1 ≠ m

/-- `HashMap::insert`. -/
def insertSlot (slots : List (ModelId × SlotState)) (m : ModelId) (st : SlotState) :
    List (ModelId × SlotState) :=
  (m, st) :: removeSlot slots m

/-- `match slots.remove(..) { Some(Loading { waiters }) => waiters, _ => Vec::new() }`. -/
def waitersOf : Option SlotState → List WaiterId
  | some (.loading waiters) => waiters
  | _ => []

namespace ThreadState

/-- The request channel's receiver is gone. -/
def closed : ThreadState → Bool
  | .exiting => true
  | .gone => true
  | _ => false

/-- The bytes the thread holds of the budget, beside what it has handed over. -/
def held : ThreadState → Nat
  | .loading reserved => reserved
  | .granted reserved acquired => reserved + acquired
  | .built reserved kvCacheBytes => reserved + kvCacheBytes
  | .sent reserved => reserved
  | .draftGranted acquired => acquired
  | _ => 0

end ThreadState

/-! ## The thread -/

/-- The steps of a load's thread that do not take the manager's lock. -/
inductive ThreadAct where
  -- the tokenizer and the device are there, and the draft's share is reserved
  | reserve (desired : Nat)
  -- `compute_kv_blocks`
  | grant (capped : Nat)
  -- below the floor, or the load failed
  | refuse
  | build (kv : Nat)
  -- the weights did not survive: the model is dropped, for another attempt or for good
  | verifyFail
  | sendOk
  | sendErr
  | releaseReserved
  | draftGrant (capped : Nat)
  | draftRefuse
  | draftVerifyFail
  | draftMismatch
  | draftAccept (kv : Nat)
  | draftNone
  | enterLoop
  -- the loop returns or panics
  | leaveLoop
  -- outside the loop
  | panic
deriving DecidableEq

def threadStep (b : GlobalKvBudget) (l : Load) : ThreadAct → Option (Load × GlobalKvBudget)
  | .reserve desired =>
      match l.thread with
      | .starting => some ({ l with thread := .loading (b.acquire desired).1 }, (b.acquire desired).2)
      | _ => none
  | .grant capped =>
      match l.thread with
      | .loading r => some ({ l with thread := .granted r (b.acquire capped).1 }, (b.acquire capped).2)
      | _ => none
  | .refuse =>
      match l.thread with
      | .granted r g => some ({ l with thread := .loading r }, b.release g)
      | _ => none
  | .build kv =>
      match l.thread with
      | .granted r _ => some ({ l with thread := .built r kv }, b)
      | _ => none
  | .verifyFail =>
      match l.thread with
      | .built r _ => some ({ l with thread := .loading r }, b)
      | _ => none
  | .sendOk =>
      match l.thread with
      | .built r kv => some ({ l with thread := .sent r, companion := .pending (.ok kv) }, b)
      | _ => none
  | .sendErr =>
      match l.thread with
      | .starting => some ({ l with thread := .gone, companion := .pending .err }, b)
      | .loading r => some ({ l with thread := .gone, companion := .pending .err }, b.release r)
      | _ => none
  | .releaseReserved =>
      match l.thread with
      | .sent r => some ({ l with thread := .draftLoading }, b.release r)
      | _ => none
  | .draftGrant capped =>
      match l.thread with
      | .draftLoading =>
          some ({ l with thread := .draftGranted (b.acquire capped).1 }, (b.acquire capped).2)
      | _ => none
  | .draftRefuse =>
      match l.thread with
      | .draftGranted g => some ({ l with thread := .draftLoading }, b.release g)
      | _ => none
  | .draftVerifyFail =>
      match l.thread with
      | .draftGranted _ => some ({ l with thread := .draftLoading }, b)
      | _ => none
  | .draftMismatch =>
      match l.thread with
      | .draftGranted _ => some ({ l with thread := .draftDone }, b)
      | _ => none
  | .draftAccept kv =>
      match l.thread with
      | .draftGranted _ => some ({ l with thread := .draftDone, draftBytes := kv }, b)
      | _ => none
  | .draftNone =>
      match l.thread with
      | .draftLoading => some ({ l with thread := .draftDone }, b)
      | _ => none
  | .enterLoop =>
      match l.thread with
      | .draftDone => some ({ l with thread := .serving }, b)
      | _ => none
  | .leaveLoop =>
      match l.thread with
      | .serving => some ({ l with thread := .exiting }, b)
      | _ => none
  | .panic =>
      match l.thread with
      | .serving | .exiting | .gone => none
      | .sent _ | .draftLoading | .draftGranted _ | .draftDone => some ({ l with thread := .gone }, b)
      | _ => some ({ l with thread := .gone, companion := .pending .dropped }, b)

/-! ## The steps -/

inductive Act where
  -- `get_or_load` on a loading model, and on one without a slot
  | getWait (m : ModelId)
  | getLoad (m : ModelId)
  -- `evict_lru_one`, `evict_expired`
  | evict (m : ModelId)
  | thread (i : LoadId) (act : ThreadAct)
  | guardDrop (i : LoadId)
  -- the companion looks at the result
  | check (i : LoadId)
  -- the companion takes the lock
  | install (i : LoadId) (overBudget : Bool)
  -- and tells the waiters
  | notify (i : LoadId)
deriving DecidableEq

namespace ModelManager

def setLoad (s : ModelManager) (i : LoadId) (l : Load) : ModelManager :=
  { s with loads := s.loads.set i l }

/-- The slot goes and its bytes return to the budget. -/
def unload (s : ModelManager) (m : ModelId) (kvCacheBytes : Nat) : ModelManager :=
  { s with slots := removeSlot s.slots m, kvBudget := s.kvBudget.release kvCacheBytes }

/-- The companion under the lock. -/
def installStep (s : ModelManager) (i : LoadId) (l : Load) (overBudget : Bool) : Option ModelManager :=
  let waiters := waitersOf (s.slots.lookup l.model)
  match l.companion with
  | .foundClosed kv =>
      some ((s.unload l.model kv).setLoad i { l with companion := .notifying waiters false })
  | .foundOpen kv =>
      if overBudget then
        some ((s.unload l.model kv).setLoad i { l with companion := .notifying waiters false })
      else
        some ({ s with slots := insertSlot s.slots l.model (.ready i kv) }.setLoad i
          { l with companion := .notifying waiters true })
  | .failed =>
      some ({ s with slots := removeSlot s.slots l.model }.setLoad i
        { l with companion := .notifying waiters false })
  | _ => none

/-- `EngineSlotGuard::drop`. -/
def guardDrop (s : ModelManager) (i : LoadId) (l : Load) : ModelManager :=
  let s' := s.setLoad i { l with thread := .gone }
  match s.slots.lookup l.model with
  | some (.ready shutdown kv) => if shutdown = i then s'.unload l.model kv else s'
  | _ => s'

def step (s : ModelManager) : Act → Option ModelManager
  | .getWait m =>
      match s.slots.lookup m with
      | some (.loading waiters) =>
          some { s with
            slots := insertSlot s.slots m (.loading (waiters ++ [s.nextWaiter]))
            nextWaiter := s.nextWaiter + 1 }
      | _ => none
  | .getLoad m =>
      match s.slots.lookup m with
      | none =>
          some { s with
            slots := insertSlot s.slots m (.loading [s.nextWaiter])
            loads := s.loads ++ [⟨m, .starting, .awaiting, 0⟩]
            nextWaiter := s.nextWaiter + 1 }
      | _ => none
  | .evict m =>
      match s.slots.lookup m with
      | some (.ready _ kv) => some (s.unload m kv)
      | _ => none
  | .thread i act =>
      s.loads[i]?.bind fun l => (threadStep s.kvBudget l act).map fun r =>
        { s with loads := s.loads.set i r.1, kvBudget := r.2 }
  | .guardDrop i =>
      s.loads[i]?.bind fun l => if l.thread = .exiting then some (s.guardDrop i l) else none
  | .check i =>
      s.loads[i]?.bind fun l =>
        match l.companion with
        | .pending (.ok kv) =>
            some (s.setLoad i { l with
              companion := if l.thread.closed then .foundClosed kv else .foundOpen kv })
        | .pending _ => some (s.setLoad i { l with companion := .failed })
        | _ => none
  | .install i overBudget => s.loads[i]?.bind fun l => s.installStep i l overBudget
  | .notify i =>
      s.loads[i]?.bind fun l =>
        match l.companion with
        | .notifying waiters ok =>
            some { s.setLoad i { l with companion := .done } with
              results := s.results ++ waiters.map fun w => (w, ok) }
        | _ => none

/-- The states runs reach whose steps all meet a condition on the state before and the step. -/
inductive Reach (condition : ModelManager → Act → Prop) (totalBytes : Nat) : ModelManager → Prop
  | start : Reach condition totalBytes (.new totalBytes)
  | step {s s' : ModelManager} (h : Reach condition totalBytes s) {act : Act} (hc : condition s act)
      (hs : s.step act = some s') : Reach condition totalBytes s'

end ModelManager

end Oxydllm.Serve
