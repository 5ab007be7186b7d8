/-
# Oxydllm.Kv.EngineStep — a step of the engine on rows (`Engine::step`).

Here a cache is the list of its rows and the prefix cache holds the rows of a block under the tokens up to
its end, what `PagedKvCache` and the chained hashes stand for. What the scheduler decides, the pacer's caps
and the random draws are a step's input, so a run may schedule, cut and draw in any way.

There is no draft model here.
-/
import Oxydllm.Kv.Forward
import Oxydllm.Kv.Scheduler
import Oxydllm.Kv.SpecExact

namespace Oxydllm.Kv.Batched

open Exact (FinishReason StopRules)

variable {ρ Λ σ γ ω : Type}

/-! ## Sequences -/

/-- `SequenceState`; `σ` is the sampling parameters, `γ` the constraint with its state. -/
structure Sequence (ρ σ γ : Type) where
  id : SequenceId
  numGenerated : Nat
  allTokens : List Token
  tokenCounts : Token → Nat
  samplingParams : σ
  status : SequenceStatus
  phase : SequencePhase
  cache : List ρ
  numProcessedTokens : Nat
  maxTokens : Nat
  finishReason : Option FinishReason
  constraint : Option γ

/-- What a caller asks for. -/
structure Request (σ γ : Type) where
  prompt : List Token
  samplingParams : σ
  maxTokens : Nat
  constraint : Option γ

/-- One more of a token. -/
def countToken (counts : Token → Nat) (token : Token) : Token → Nat :=
  fun t => if t = token then counts t + 1 else counts t

namespace Sequence

/-- The sequence `add_request_full` queues. -/
def new (id : SequenceId) (req : Request σ γ) : Sequence ρ σ γ :=
  ⟨id, 0, req.prompt, req.prompt.foldl countToken fun _ => 0, req.samplingParams, .waiting, .prefill, [], 0,
    req.maxTokens, none, req.constraint⟩

def appendToken (s : Sequence ρ σ γ) (token : Token) : Sequence ρ σ γ :=
  { s with allTokens := s.allTokens ++ [token], tokenCounts := countToken s.tokenCounts token }

/-- `apply_token`; the flag says whether the token is sent. -/
def applyToken (s : Sequence ρ σ γ) (isStop : Bool) : Sequence ρ σ γ × Bool :=
  if isStop then ({ s with status := .finished, finishReason := some .stop }, false)
  else if s.numGenerated + 1 ≥ s.maxTokens then
    ({ s with
      numGenerated := s.numGenerated + 1, status := .finished, finishReason := some .length }, true)
  else ({ s with numGenerated := s.numGenerated + 1 }, true)

/-- A preempted sequence gives its cache up and queues again. -/
def preempted (s : Sequence ρ σ γ) : Sequence ρ σ γ :=
  { s with cache := [], numProcessedTokens := 0, phase := .prefill, status := .waiting }

def admitted (s : Sequence ρ σ γ) : Sequence ρ σ γ := { s with status := .running, phase := .prefill }

end Sequence

/-- The running sequence of an id. -/
def getRunning (running : List (Sequence ρ σ γ)) (id : SequenceId) : Option (Sequence ρ σ γ) :=
  running.find? (·.id == id)

def setRunning (running : List (Sequence ρ σ γ)) (id : SequenceId) (s : Sequence ρ σ γ) :
    List (Sequence ρ σ γ) :=
  running.map fun t => if t.id = id then s else t

/-! ## The engine -/

/-- The model, the sampler with the constraint's mask, the constraint's automaton and the stop rules. -/
structure Parts (ρ Λ σ γ ω : Type) where
  model : CausalModel ρ Λ
  sample : ω → Λ → σ → List Token → (Token → Nat) → Option γ → Token
  advance : γ → Token → γ
  stop : StopRules

/-- The rows of a block under the tokens up to its end. -/
abbrev PrefixRows (ρ : Type) := List (List Token × List ρ)

structure Engine (ρ σ γ : Type) where
  waiting : List (Sequence ρ σ γ)
  running : List (Sequence ρ σ γ)
  nextId : SequenceId
  prefixCache : PrefixRows ρ
  blockSize : Nat

structure StepOutput where
  newTokens : List (SequenceId × Token)
  completed : List (SequenceId × Option FinishReason)

/-- What a step depends on besides the engine: what the scheduler decides, the pacer's caps and the draws. -/
structure Turn (ω : Type) where
  preempted : List SequenceId
  admitted : Nat
  decodes : List SequenceId
  cap : Nat → Nat
  draw : SequenceId → ω

/-! ## The scheduler's decision -/

namespace Engine

def preempt (e : Engine ρ σ γ) (id : SequenceId) : Engine ρ σ γ :=
  match getRunning e.running id with
  | none => e
  | some s =>
      { e with running := e.running.filter (·.id ≠ id), waiting := s.preempted :: e.waiting }

/-- The first `n` of the queue start running. -/
def admitFirst (e : Engine ρ σ γ) (n : Nat) : Engine ρ σ γ :=
  { e with
    waiting := e.waiting.drop n, running := e.running ++ (e.waiting.take n).map Sequence.admitted }

/-- `schedule`, with the ids of the prefills. -/
def schedule (e : Engine ρ σ γ) (turn : Turn ω) : Engine ρ σ γ × List SequenceId :=
  let e := turn.preempted.foldl preempt e
  (e.admitFirst turn.admitted, (e.waiting.take turn.admitted).map (·.id))

end Engine

/-! ## The prefills and the batch -/

/-- The loop of `lookup` over the blocks from `i` on. -/
def lookupFrom (cached : PrefixRows ρ) (blockSize : Nat) (tokens : List Token) : Nat → Nat → List (List ρ)
  | 0, _ => []
  | n + 1, i =>
      match cached.lookup (tokens.take ((i + 1) * blockSize)) with
      | none => []
      | some rows => rows :: lookupFrom cached blockSize tokens n (i + 1)

def lookup (cached : PrefixRows ρ) (blockSize : Nat) (tokens : List Token) : List (List ρ) :=
  lookupFrom cached blockSize tokens (tokens.length / blockSize) 0

/-- `register`: the full blocks from `startBlock` on, those under a key already held left out. -/
def register (blockSize : Nat) (tokens : List Token) (cache : List ρ) :
    Nat → Nat → PrefixRows ρ → PrefixRows ρ
  | 0, _, cached => cached
  | n + 1, i, cached =>
      let key := tokens.take ((i + 1) * blockSize)
      let rows := (cache.drop (i * blockSize)).take blockSize
      register blockSize tokens cache n (i + 1)
        (if (cached.lookup key).isSome then cached else (key, rows) :: cached)

structure PrefillInfo where
  seqId : SequenceId
  numCachedTokens : Nat
  numCachedBlocks : Nat
  numFullBlocksTotal : Nat
  uncachedLen : Nat
  inputTokens : List Token

/-- One turn of `plan_prefill_inputs`. -/
def planPrefill (cached : PrefixRows ρ) (blockSize : Nat) (s : Sequence ρ σ γ) :
    Sequence ρ σ γ × PrefillInfo :=
  let matched := lookup cached blockSize s.allTokens
  let numCachedBlocks := min matched.length ((s.allTokens.length - 1) / blockSize)
  let numCachedTokens := numCachedBlocks * blockSize
  let cache :=
    if 0 < numCachedBlocks then (s.cache ++ (matched.take numCachedBlocks).flatten).take numCachedTokens
    else s.cache
  ({ s with cache },
    ⟨s.id, numCachedTokens, numCachedBlocks, s.allTokens.length / blockSize,
      s.allTokens.length - numCachedTokens, s.allTokens.drop numCachedTokens⟩)

def planPrefillInputs (cached : PrefixRows ρ) (blockSize : Nat) :
    List SequenceId → List (Sequence ρ σ γ) → Option (List (Sequence ρ σ γ) × List PrefillInfo)
  | [], running => some (running, [])
  | id :: ids, running =>
      (getRunning running id).bind fun s =>
        (planPrefillInputs cached blockSize ids
          (setRunning running id (planPrefill cached blockSize s).1)).map
            fun r => (r.1, (planPrefill cached blockSize s).2 :: r.2)

def buildBatchInput (running : List (Sequence ρ σ γ)) (infos : List PrefillInfo) (decodes : List SequenceId) :
    Option BatchInput :=
  (decodes.mapM fun id =>
    (getRunning running id).bind fun s =>
      s.allTokens.getLast?.map fun token => (token, s.numProcessedTokens)).map fun last =>
    ⟨infos.flatMap (·.inputTokens) ++ last.map Prod.fst,
      infos.flatMap (fun info => (List.range info.uncachedLen).map (info.numCachedTokens + ·)) ++
        last.map Prod.snd,
      infos.map (·.uncachedLen) ++ List.replicate last.length 1⟩

/-! ## The forward and the sampling -/

/-- `run_forward_pass` on the caches taken out of the running sequences, which get them back. -/
def forwardRunning (m : CausalModel ρ Λ) (cap : Nat → Nat) (prefills decodes : List SequenceId)
    (batch : BatchInput) (running : List (Sequence ρ σ γ)) : Option (List (Sequence ρ σ γ) × List Λ) :=
  ((prefills ++ decodes).mapM fun id => (getRunning running id).map (·.cache)).bind fun caches =>
    (runForwardPass m cap prefills.length caches batch).map fun out =>
      (running.map fun s =>
        { s with cache := (((prefills ++ decodes).zip out.1).lookup s.id).getD s.cache }, out.2)

/-- A token sampled, the constraint and the stop rules advanced; the flag says whether the token is sent. -/
def sampleToken (parts : Parts ρ Λ σ γ ω) (draw : ω) (logits : Λ) (s : Sequence ρ σ γ) :
    Token × Sequence ρ σ γ × Bool :=
  let token := parts.sample draw logits s.samplingParams s.allTokens s.tokenCounts s.constraint
  let s := { s with constraint := s.constraint.map (parts.advance · token) }
  let s := s.appendToken token
  let s := { s with numProcessedTokens := s.allTokens.length - 1 }
  (token, s.applyToken (parts.stop.found token s.allTokens))

/-- What the sampling changes of the engine. -/
structure Sampled (ρ σ γ : Type) where
  running : List (Sequence ρ σ γ)
  prefixCache : PrefixRows ρ
  newTokens : List (SequenceId × Token)

namespace Sampled

/-- A running sequence replaced, and the token sent if the flag says so. -/
def put (t : Sampled ρ σ γ) (id : SequenceId) (r : Token × Sequence ρ σ γ × Bool) : Sampled ρ σ γ :=
  { t with
    running := setRunning t.running id r.2.1
    newTokens := if r.2.2 then t.newTokens ++ [(id, r.1)] else t.newTokens }

end Sampled

/-- `sample_prefill_outputs`: each prefill's token, and the blocks it filled registered. -/
def samplePrefillOutputs (parts : Parts ρ Λ σ γ ω) (draw : SequenceId → ω) (blockSize : Nat) :
    List (PrefillInfo × Λ) → Sampled ρ σ γ → Option (Sampled ρ σ γ)
  | [], t => some t
  | (info, logits) :: rest, t =>
      (getRunning t.running info.seqId).bind fun s =>
        let r := sampleToken parts (draw info.seqId) logits s
        let s := { r.2.1 with phase := .decode }
        let t := t.put info.seqId (r.1, s, r.2.2)
        samplePrefillOutputs parts draw blockSize rest
          { t with
            prefixCache := register blockSize s.allTokens s.cache
              (info.numFullBlocksTotal - info.numCachedBlocks) info.numCachedBlocks t.prefixCache }

def sampleDecodeOutputs (parts : Parts ρ Λ σ γ ω) (draw : SequenceId → ω) :
    List (SequenceId × Λ) → Sampled ρ σ γ → Option (Sampled ρ σ γ)
  | [], t => some t
  | (id, logits) :: rest, t =>
      (getRunning t.running id).bind fun s =>
        sampleDecodeOutputs parts draw rest (t.put id (sampleToken parts (draw id) logits s))

/-- `retire_finished`. -/
def retireFinished (running : List (Sequence ρ σ γ)) :
    List (SequenceId × Option FinishReason) × List (Sequence ρ σ γ) :=
  ((running.filter (·.status = .finished)).map fun s => (s.id, s.finishReason),
    running.filter (·.status ≠ .finished))

namespace Engine

/-- A step up to the sampling of the prefills: the engine scheduled, the infos, the sequences after the
forward and the logits rows. -/
def forward (parts : Parts ρ Λ σ γ ω) (turn : Turn ω) (e : Engine ρ σ γ) :
    Option (Engine ρ σ γ × List PrefillInfo × List Λ) :=
  let scheduled := e.schedule turn
  let e := scheduled.1
  (planPrefillInputs e.prefixCache e.blockSize scheduled.2 e.running).bind fun (running, infos) =>
    (buildBatchInput running infos turn.decodes).bind fun batch =>
      (forwardRunning parts.model turn.cap scheduled.2 turn.decodes batch running).map fun (running, rows) =>
        ({ e with running }, infos, rows)

def step (parts : Parts ρ Λ σ γ ω) (turn : Turn ω) (e : Engine ρ σ γ) : Option (Engine ρ σ γ × StepOutput) :=
  (e.forward parts turn).bind fun (e, infos, rows) =>
    (samplePrefillOutputs parts turn.draw e.blockSize (infos.zip rows) ⟨e.running, e.prefixCache, []⟩).bind
      fun t =>
        (sampleDecodeOutputs parts turn.draw (turn.decodes.zip (rows.drop infos.length)) t).map fun t =>
          let r := retireFinished t.running
          ({ e with running := r.2, prefixCache := t.prefixCache }, ⟨t.newTokens, r.1⟩)

def abortRunning (e : Engine ρ σ γ) : Engine ρ σ γ := { e with running := [] }

/-- A step that fails behind the first `sampled` prefills; the engine's loop aborts what runs, and what the
step had to send is lost. -/
def failedStep (parts : Parts ρ Λ σ γ ω) (turn : Turn ω) (sampled : Nat) (e : Engine ρ σ γ) :
    Option (Engine ρ σ γ) :=
  (e.forward parts turn).bind fun (e, infos, rows) =>
    (samplePrefillOutputs parts turn.draw e.blockSize ((infos.zip rows).take sampled)
      ⟨e.running, e.prefixCache, []⟩).map fun t => { e with prefixCache := t.prefixCache }.abortRunning

def addRequest (e : Engine ρ σ γ) (req : Request σ γ) : Engine ρ σ γ :=
  { e with waiting := e.waiting ++ [.new e.nextId req], nextId := e.nextId + 1 }

def abortSequence (e : Engine ρ σ γ) (id : SequenceId) : Engine ρ σ γ :=
  { e with running := e.running.filter (·.id ≠ id), waiting := e.waiting.filter (·.id ≠ id) }

def abortAll (e : Engine ρ σ γ) : Engine ρ σ γ := { e with running := [], waiting := [] }

/-- An entry of the prefix cache evicted. -/
def evict (e : Engine ρ σ γ) (i : Nat) : Engine ρ σ γ := { e with prefixCache := e.prefixCache.eraseIdx i }

end Engine

/-! ## Runs -/

/-- What the callers asked for, request `id` at place `id`, and what they were sent. -/
structure Log (σ γ : Type) where
  requests : List (Request σ γ)
  newTokens : List (SequenceId × Token)
  completed : List (SequenceId × Option FinishReason)

/-- The decodes are some of those that run and are not preempted, each once. -/
def Turn.Admissible (turn : Turn ω) (e : Engine ρ σ γ) : Prop :=
  turn.decodes.Nodup ∧ ∀ id ∈ turn.decodes, id ∈ (turn.preempted.foldl Engine.preempt e).running.map (·.id)

/-- A move of the engine, with what is sent. A request whose prompt is empty does not reach the engine. -/
inductive EngineStep (parts : Parts ρ Λ σ γ ω) : Engine ρ σ γ × Log σ γ → Engine ρ σ γ × Log σ γ → Prop
  | addRequest (e : Engine ρ σ γ) (log : Log σ γ) (req : Request σ γ) (hprompt : req.prompt ≠ []) :
      EngineStep parts (e, log) (e.addRequest req, { log with requests := log.requests ++ [req] })
  | step (turn : Turn ω) {e e' : Engine ρ σ γ} (log : Log σ γ) {out : StepOutput} (hturn : turn.Admissible e)
      (hs : e.step parts turn = some (e', out)) :
      EngineStep parts (e, log)
        (e', ⟨log.requests, log.newTokens ++ out.newTokens, log.completed ++ out.completed⟩)
  | failed (turn : Turn ω) (sampled : Nat) {e e' : Engine ρ σ γ} (log : Log σ γ) (hturn : turn.Admissible e)
      (hs : e.failedStep parts turn sampled = some e') : EngineStep parts (e, log) (e', log)
  | abortRunning (e : Engine ρ σ γ) (log : Log σ γ) : EngineStep parts (e, log) (e.abortRunning, log)
  | abortSequence (e : Engine ρ σ γ) (log : Log σ γ) (id : SequenceId) :
      EngineStep parts (e, log) (e.abortSequence id, log)
  | abortAll (e : Engine ρ σ γ) (log : Log σ γ) : EngineStep parts (e, log) (e.abortAll, log)
  | evict (e : Engine ρ σ γ) (log : Log σ γ) (i : Nat) : EngineStep parts (e, log) (e.evict i, log)

/-- The states of an engine and what its callers saw. -/
inductive EngineReach (parts : Parts ρ Λ σ γ ω) (blockSize : Nat) : Engine ρ σ γ × Log σ γ → Prop
  | start : EngineReach parts blockSize (⟨[], [], 0, [], blockSize⟩, ⟨[], [], []⟩)
  | move {s s' : Engine ρ σ γ × Log σ γ} (h : EngineReach parts blockSize s) (hs : EngineStep parts s s') :
      EngineReach parts blockSize s'

end Oxydllm.Kv.Batched
