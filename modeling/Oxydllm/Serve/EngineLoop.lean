/-
# Oxydllm.Serve.EngineLoop — the loop that owns a model's engine (`engine_loop`).

The loop drains the queue of requests, drops those whose client has gone, steps the engine and routes what
the step produced to the clients. Arrivals, disconnects and the shutdown flag may come between any two of
its steps. How a token becomes text (reasoning markers, decoding, stop strings) is left to the
environment: a routed token sends some text events and may end its sequence.
-/
import Oxydllm.Kv.LiveIds

namespace Oxydllm.Serve

open Kv

/-- A response channel. -/
abbrev RequestId := Nat

inductive EngineEvent where
  | token (text : String)
  | reasoningToken (text : String)
  | finish (finishReason : String) (completionTokens : Nat)
  | streamEnd
  | error (message : String)
deriving DecidableEq

/-- Text, not an end. -/
def EngineEvent.isText : EngineEvent → Bool
  | .token _ => true
  | .reasoningToken _ => true
  | _ => false

/-- `Finish` or `Error`. -/
def EngineEvent.isTerminal : EngineEvent → Bool
  | .finish _ _ => true
  | .error _ => true
  | _ => false

/-- A text a token routes to its client. -/
abbrev Text := { e : EngineEvent // e.isText = true }

/-! ## Response channels -/

/-- What was delivered on the response channels, and the channels whose client has gone. -/
structure Channels where
  log : List (RequestId × EngineEvent)
  closed : List RequestId

namespace Channels

/-- A send to a client that has gone is lost. -/
def send (ch : Channels) (tx : RequestId) (e : EngineEvent) : Channels :=
  if tx ∈ ch.closed then ch else { ch with log := ch.log ++ [(tx, e)] }

def sendTexts (ch : Channels) (tx : RequestId) (texts : List Text) : Channels :=
  texts.foldl (fun ch e => ch.send tx e.1) ch

/-- What one client received, in order. -/
def events (ch : Channels) (tx : RequestId) : List EngineEvent :=
  ch.log.filterMap fun p => if p.1 = tx then some p.2 else none

end Channels

/-! ## The loop's state -/

structure IncomingRequest where
  tx : RequestId
  promptTokens : List Token
  maxTokens : Nat

structure SeqTracker where
  tx : RequestId
  tokenCount : Nat

/-- Where in its body the loop is. -/
inductive LoopPoint where
  | head
  | receive
  | drain
  | sweep
  | step
  | exited
deriving DecidableEq

structure LoopState (ρ : Type) where
  engine : EngineState ρ
  trackers : List (SequenceId × SeqTracker)
  requestRx : List IncomingRequest
  /-- every request sent on the channel -/
  sent : List RequestId
  ch : Channels
  shutdown : Bool
  sendersGone : Bool
  consecutiveErrors : Nat
  point : LoopPoint

variable {ρ : Type}

/-- `HashMap::remove`. -/
def removeTracker (trackers : List (SequenceId × SeqTracker)) (id : SequenceId) :
    List (SequenceId × SeqTracker) :=
  trackers.filter fun p => p.1 ≠ id

def maxConsecutiveErrors : Nat := 3

def capacityError (promptLen maxTokens capacity : Nat) : String :=
  s!"prompt of {promptLen} tokens plus {maxTokens} completion tokens exceeds the " ++
    s!"{capacity} tokens the KV cache holds"

/-- A request too large for the pool is answered at once, any other is queued and tracked. -/
def enqueueRequest (s : LoopState ρ) (req : IncomingRequest) : LoopState ρ :=
  let promptLen := req.promptTokens.length
  let capacity := s.engine.sched.kvCapacityTokens
  if promptLen + req.maxTokens > capacity then
    let err := capacityError promptLen req.maxTokens capacity
    { s with ch := (s.ch.send req.tx (.error err)).send req.tx .streamEnd }
  else
    let id := s.engine.sched.nextId
    { s with
      engine := ⟨s.engine.sched.addRequest req.promptTokens req.maxTokens, s.engine.prefixCache⟩
      trackers := removeTracker s.trackers id ++ [(id, ⟨req.tx, 0⟩)] }

/-- Closes a stream with its finish reason. -/
def finishTracker (ch : Channels) (tracker : SeqTracker) (finishReason : String) : Channels :=
  (ch.send tracker.tx (.finish finishReason tracker.tokenCount)).send tracker.tx .streamEnd

/-- Closes a stream with an error. -/
def failTracker (ch : Channels) (tracker : SeqTracker) (message : String) : Channels :=
  (ch.send tracker.tx (.error message)).send tracker.tx .streamEnd

/-- One sequence leaves engine and trackers without a word. -/
def abortOne (s : LoopState ρ) (id : SequenceId) : LoopState ρ :=
  { s with
    trackers := removeTracker s.trackers id
    engine := ⟨(s.engine.sched.abortSequence id).2, s.engine.prefixCache⟩ }

def abortSequences (s : LoopState ρ) (ids : List SequenceId) : LoopState ρ :=
  (ids.mergeSort (· ≤ ·)).dedup.foldl abortOne s

/-- The trackers of the ids given are removed and answered. -/
def answerAll (answer : SequenceId → Channels → SeqTracker → Channels) (s : LoopState ρ)
    (ids : List SequenceId) : LoopState ρ :=
  ids.foldl (fun s id => match s.trackers.lookup id with
    | some tracker =>
        { s with trackers := removeTracker s.trackers id, ch := answer id s.ch tracker }
    | none => s) s

/-- One token of a step: its texts, and whether its sequence hit a stop string. -/
structure RoutedToken where
  seqId : SequenceId
  texts : List Text
  stopped : Bool

/-- The loop over the new tokens; the second component collects the sequences stopped. -/
def routeTokens (s : LoopState ρ) : List RoutedToken → LoopState ρ × List SequenceId :=
  List.foldl (fun r tok =>
    if tok.seqId ∈ r.2 then r
    else match r.1.trackers.lookup tok.seqId with
      | none => r
      | some tracker =>
          ({ r.1 with
              trackers := r.1.trackers.map fun p =>
                if p.1 = tok.seqId then (p.1, { p.2 with tokenCount := p.2.tokenCount + 1 }) else p
              ch := r.1.ch.sendTexts tracker.tx tok.texts },
            if tok.stopped then r.2 ++ [tok.seqId] else r.2)) (s, [])

/-- The sequences that hit a stop string. -/
def finishStopped (tail : SequenceId → List Text) (s : LoopState ρ) (ids : List SequenceId) :
    LoopState ρ :=
  ids.foldl (fun s id => match s.trackers.lookup id with
    | some tracker =>
        { abortOne s id with ch := finishTracker (s.ch.sendTexts tracker.tx (tail id)) tracker "stop" }
    | none => s) s

/-- The arm of a step that succeeded. -/
def stepOk (s : LoopState ρ) (tokens : List RoutedToken) (gone : List SequenceId)
    (tail : SequenceId → List Text) (completed : List SequenceId) (reason : SequenceId → String) :
    LoopState ρ :=
  let s := { s with consecutiveErrors := 0 }
  let r := routeTokens s tokens
  let s := abortSequences r.1 gone
  let s := finishStopped tail s r.2
  answerAll (fun id ch tracker =>
    finishTracker (ch.sendTexts tracker.tx (tail id)) tracker (reason id)) s completed

/-- The arm of a step that failed. -/
def stepErr (s : LoopState ρ) (message : String) : LoopState ρ :=
  let s := { s with consecutiveErrors := s.consecutiveErrors + 1 }
  let aborted :=
    if s.consecutiveErrors ≥ maxConsecutiveErrors then s.engine.sched.abortAll
    else s.engine.sched.abortAllRunning
  answerAll (fun _ ch tracker => failTracker ch tracker message)
    { s with engine := ⟨aborted.2, s.engine.prefixCache⟩ } aborted.1

/-- What is still tracked when the loop ends. -/
def drainTrackers (s : LoopState ρ) : LoopState ρ :=
  { s with
    trackers := []
    ch := s.trackers.foldl (fun ch p => failTracker ch p.2 "Model unloaded") s.ch
    point := .exited }

/-! ## Its steps -/

variable [Inhabited ρ]

/-- `Engine::step` up to the point where it retires or fails. -/
def StepsTo (chainHash : List Token → UInt64 → UInt64) (e e' : EngineState ρ) : Prop :=
  Relation.ReflTransGen (ForwardMove chainHash)
    ⟨(e.sched.schedule chainHash e.prefixCache).sched, (e.sched.schedule chainHash e.prefixCache).cache⟩ e'

inductive LoopStep (chainHash : List Token → UInt64 → UInt64) (s : LoopState ρ) : LoopState ρ → Prop
  -- the outside
  | arrive (req : IncomingRequest) (hopen : s.sendersGone = false) (hrun : s.point ≠ .exited)
      (hfresh : req.tx ∉ s.sent) :
      LoopStep chainHash s
        { s with requestRx := s.requestRx ++ [req], sent := s.sent ++ [req.tx] }
  | disconnect (tx : RequestId) :
      LoopStep chainHash s { s with ch := { s.ch with closed := tx :: s.ch.closed } }
  | shutdown : LoopStep chainHash s { s with shutdown := true }
  | dropSenders : LoopStep chainHash s { s with sendersGone := true }
  -- the loop
  | headExit (hp : s.point = .head) (hs : s.shutdown = true) : LoopStep chainHash s (drainTrackers s)
  | headGo (hp : s.point = .head) (hs : s.shutdown = false) :
      LoopStep chainHash s { s with point := .receive }
  | pending (hp : s.point = .receive) (hw : s.engine.sched.hasPendingWork = true) :
      LoopStep chainHash s { s with point := .drain }
  | tryRecv (hp : s.point = .drain) {req : IncomingRequest} {rest : List IncomingRequest}
      (hq : s.requestRx = req :: rest) :
      LoopStep chainHash s (enqueueRequest { s with requestRx := rest } req)
  | tryRecvEmpty (hp : s.point = .drain) (hq : s.requestRx = []) :
      LoopStep chainHash s { s with point := .sweep }
  | blockingRecv (hp : s.point = .receive) (hw : s.engine.sched.hasPendingWork = false)
      {req : IncomingRequest} {rest : List IncomingRequest} (hq : s.requestRx = req :: rest) :
      LoopStep chainHash s { enqueueRequest { s with requestRx := rest } req with point := .sweep }
  | blockingRecvClosed (hp : s.point = .receive) (hw : s.engine.sched.hasPendingWork = false)
      (hq : s.requestRx = []) (hgone : s.sendersGone = true) : LoopStep chainHash s (drainTrackers s)
  | sweep (hp : s.point = .sweep) :
      LoopStep chainHash s
        { abortSequences s ((s.trackers.filter fun p => p.2.tx ∈ s.ch.closed).map (·.1)) with
          point := .step }
  | stepIdle (hp : s.point = .step) (hw : s.engine.sched.hasPendingWork = false) :
      LoopStep chainHash s { s with point := .head }
  | stepOk (hp : s.point = .step) {e : EngineState ρ} (he : StepsTo chainHash s.engine e)
      (tokens : List RoutedToken) (gone : List SequenceId)
      (hgone : ∀ id ∈ gone, ∃ t, (id, t) ∈ s.trackers ∧ t.tx ∈ s.ch.closed)
      (tail : SequenceId → List Text) (reason : SequenceId → String) :
      LoopStep chainHash s
        { stepOk { s with engine := ⟨e.sched.retireFinished.2, e.prefixCache⟩ } tokens gone tail
            e.sched.retireFinished.1 reason with point := .head }
  | stepErr (hp : s.point = .step) {e : EngineState ρ} (he : StepsTo chainHash s.engine e)
      (message : String) :
      LoopStep chainHash s { stepErr { s with engine := e } message with point := .head }

/-- The loop before its first iteration. -/
def LoopState.start (engine : EngineState ρ) : LoopState ρ :=
  ⟨engine, [], [], [], ⟨[], []⟩, false, false, 0, .head⟩

def LoopReach (chainHash : List Token → UInt64 → UInt64) (engine : EngineState ρ) (s : LoopState ρ) :
    Prop :=
  Relation.ReflTransGen (LoopStep chainHash) (.start engine) s

end Oxydllm.Serve
