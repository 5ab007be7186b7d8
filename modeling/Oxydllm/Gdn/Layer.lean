/-
# Oxydllm.Gdn.Layer — a recurrent layer (`GatedDeltaNet`), one segment or a batch at a time.

A segment runs a short causal convolution over its projected rows and then the delta rule; what it hands on is the last
rows of the convolution and the state. Both have a path for a single decoded token of their own. A batch projects all
rows at once and cuts its segments out by running offsets.

A tensor `[1, t, d]` is a list of rows. The arithmetic is exact, and `exp`, `log` and `sqrt` are functions on it; a
projection is its weight and bias, however the checkpoint stores them.
-/
import Mathlib.Algebra.Order.Group.Unbundled.Abs
import Mathlib.Logic.Equiv.Fin.Basic
import Oxydllm.Gdn.Chunk
import Oxydllm.Lib.Slice

namespace Oxydllm.Gdn

open Matrix Slice

/-! ## Arithmetic -/

structure Arithmetic (K : Type) [Field K] where
  exp : AddChar K K
  log : K → K
  sqrt : K → K
  l2NormEps : K

section Functions

variable {K : Type} [Field K] (α : Arithmetic K)

def sigmoid (x : K) : K := (α.exp (-x) + 1)⁻¹

def silu (x : K) : K := x * sigmoid α x

def softplus [LinearOrder K] (x : K) : K := max x 0 + α.log (α.exp (-|x|) + 1)

def l2norm {d : Nat} (x : Fin d → K) : Fin d → K :=
  fun i => x i / α.sqrt ((∑ j, x j * x j) + α.l2NormEps)

/-- What the delta rule calls. -/
def Arithmetic.numerics : Numerics K := ⟨α.exp, l2norm α, fun d => 1 / α.sqrt d⟩

end Functions

/-! ## The layer -/

structure LinearAttnConfig where
  numKHeads : Nat
  numVHeads : Nat
  headKDim : Nat
  headVDim : Nat
  convKernel : Nat

namespace LinearAttnConfig

def keyDim (la : LinearAttnConfig) : Nat := la.numKHeads * la.headKDim

def valueDim (la : LinearAttnConfig) : Nat := la.numVHeads * la.headVDim

def convDim (la : LinearAttnConfig) : Nat := 2 * la.keyDim + la.valueDim

/-- How many value heads share a key head. -/
def rep (la : LinearAttnConfig) : Nat := la.numVHeads / la.numKHeads

end LinearAttnConfig

/-- A row of a tensor. -/
abbrev Row (K : Type) (n : Nat) := Fin n → K

structure AnyLinear (K : Type) (inF outF : Nat) where
  weight : Matrix (Fin outF) (Fin inF) K
  bias : Option (Row K outF)

def AnyLinear.forward {K : Type} [Field K] {inF outF : Nat} (p : AnyLinear K inF outF) (x : Row K inF) : Row K outF :=
  p.weight *ᵥ x + p.bias.getD 0

inductive BaProjection (K : Type) (hidden nv : Nat)
  | fused (p : AnyLinear K hidden (nv + nv))
  | separate (b a : AnyLinear K hidden nv)

structure GatedDeltaNet (K : Type) (hidden : Nat) (la : LinearAttnConfig) where
  inProjQkv : AnyLinear K hidden la.convDim
  inProjZ : AnyLinear K hidden la.valueDim
  inProjBa : BaProjection K hidden la.numVHeads
  outProj : AnyLinear K la.valueDim hidden
  convW : Fin la.convKernel → Row K la.convDim
  negExpALog : Row K la.numVHeads
  dtBias : Row K la.numVHeads
  normW : Row K la.headVDim
  rmsNormEps : K
  vHeadsTiled : Bool

/-- The window of the convolution and the memory. -/
structure RecurrentState (K : Type) (la : LinearAttnConfig) where
  conv : List (Row K la.convDim)
  s : State K la.numVHeads la.headKDim la.headVDim

namespace GatedDeltaNet

variable {K : Type} [Field K] {hidden : Nat} {la : LinearAttnConfig} (α : Arithmetic K)
  (net : GatedDeltaNet K hidden la)

/-! ## The convolution -/

/-- The taps on the first rows of a window. -/
def tapSum (rows : List (Row K la.convDim)) : Row K la.convDim :=
  fun ch => ∑ j : Fin la.convKernel, rows.getD j.1 0 ch * net.convW j ch

/-- The loop over the taps: each adds its rows of the padded stream to the sum. -/
def convTaps (padded : List (Row K la.convDim)) (t : Nat) :
    List (Fin la.convKernel) → Option (List (Row K la.convDim)) → Option (Option (List (Row K la.convDim)))
  | [], acc => some acc
  | j :: js, acc => (narrow padded j.1 t).bind fun rows =>
      let term := rows.map fun row => row * net.convW j
      convTaps padded t js (some (match acc with
        | some a => List.zipWith (· + ·) a term
        | none => term))

def siluRow {n : Nat} (row : Row K n) : Row K n := fun i => silu α (row i)

/-- The single-token path of `conv_forward`. -/
def convToken (window qkv : List (Row K la.convDim)) : Option (List (Row K la.convDim) × List (Row K la.convDim)) :=
  let window := window ++ qkv
  if window.length = la.convKernel then
    (narrow window 1 (la.convKernel - 1)).map fun newWindow => ([siluRow α (net.tapSum window)], newWindow)
  else none

/-- The path of `conv_forward` over the padded stream. Without a tap there is no sum. -/
def convStream (left qkv : List (Row K la.convDim)) : Option (List (Row K la.convDim) × List (Row K la.convDim)) :=
  let t := qkv.length
  let padded := left ++ qkv
  (net.convTaps padded t (List.finRange la.convKernel) none).bind fun acc =>
    (narrow padded t (la.convKernel - 1)).bind fun newWindow =>
      acc.map fun acc => (acc.map (siluRow α), newWindow)

/-- `conv_forward`; a kernel of no taps underflows. -/
def convForward (prefill : Bool) (qkv : List (Row K la.convDim)) (prevWindow : Option (List (Row K la.convDim))) :
    Option (List (Row K la.convDim) × List (Row K la.convDim)) :=
  if la.convKernel = 0 then none
  else
    match prevWindow with
    | some window =>
        if qkv.length = 1 ∧ prefill = false then net.convToken α window qkv else net.convStream α window qkv
    | none => net.convStream α (List.replicate (la.convKernel - 1) 0) qkv

/-! ## The rows of a segment -/

/-- What the projections make of a token. -/
structure Projected (K : Type) (la : LinearAttnConfig) where
  qkv : Row K la.convDim
  z : Row K la.valueDim
  beta : Row K la.numVHeads
  g : Row K la.numVHeads

/-- The rows of `b` and of `a`. -/
def baRows (x : Row K hidden) : Row K la.numVHeads × Row K la.numVHeads :=
  match net.inProjBa with
  | .fused p =>
      let ba := p.forward x
      (fun i => ba (Fin.castAdd _ i), fun i => ba (Fin.natAdd _ i))
  | .separate b a => (b.forward x, a.forward x)

def project [LinearOrder K] (x : Row K hidden) : Projected K la :=
  let ba := net.baRows x
  { qkv := net.inProjQkv.forward x
    z := net.inProjZ.forward x
    beta := fun i => sigmoid α (ba.1 i)
    g := fun i => softplus α (ba.2 i + net.dtBias i) * net.negExpALog i }

/-- `expand_heads`: the key head of a value head. -/
def keyHead (h : Nat) : Nat :=
  if la.rep = 1 then h else if net.vHeadsTiled then h % la.numKHeads else h / la.rep

/-- An entry of a row. -/
def entry {n : Nat} (row : Row K n) (i : Nat) : K := if h : i < n then row ⟨i, h⟩ else 0

/-- `narrow`, `to_heads` and `expand_heads`, for one token. -/
def headTokens (qkv : Row K la.convDim) (beta g : Row K la.numVHeads) : Token K la.numVHeads la.headKDim la.headVDim :=
  fun h =>
    { q := fun d => entry qkv (net.keyHead h.1 * la.headKDim + d.1)
      k := fun d => entry qkv (la.keyDim + (net.keyHead h.1 * la.headKDim + d.1))
      v := fun d => entry qkv (2 * la.keyDim + (h.1 * la.headVDim + d.1))
      g := g h
      beta := beta h }

/-- One token's output of the delta rule. -/
abbrev Core (K : Type) (la : LinearAttnConfig) := Fin la.numVHeads → Row K la.headVDim

/-- `CHUNK_SIZE`. -/
def chunkSize : Nat := 64

/-- The single-token path of the delta rule and the other. -/
def mixTokens (prefill : Bool) (tokens : List (Token K la.numVHeads la.headKDim la.headVDim))
    (state : Option (State K la.numVHeads la.headKDim la.headVDim)) :
    Option (List (Core K la) × State K la.numVHeads la.headKDim la.headVDim) :=
  match state, tokens, prefill with
  | some s, [x], false =>
      let r := recurrentDeltaStep α.numerics x s
      some ([r.1], r.2)
  | carried, tokens, _ => chunkGatedDeltaRule α.numerics tokens carried chunkSize

/-- `mix_segment`. The expanded key heads have to be as many as the value heads. -/
def mixSegment (prefill : Bool) (ps : List (Projected K la)) (state : Option (RecurrentState K la)) :
    Option (List (Core K la) × RecurrentState K la) :=
  if la.numKHeads = 0 then none
  else
    (net.convForward α prefill (ps.map (·.qkv)) (state.map (·.conv))).bind fun (act, newConv) =>
      if la.numKHeads * la.rep = la.numVHeads then
        let tokens := List.zipWith (fun row (p : Projected K la) => net.headTokens row p.beta p.g) act ps
        (mixTokens α prefill tokens (state.map (·.s))).map fun (core, newS) => (core, ⟨newConv, newS⟩)
      else none

/-- `gated_norm_fallback` and the projection, for one token. -/
def finish (core : Core K la) (z : Row K la.valueDim) : Row K hidden :=
  let gated : Core K la := fun h e =>
    let var := (∑ e', core h e' * core h e') / (la.headVDim : K)
    core h e / α.sqrt (var + net.rmsNormEps) * net.normW e * silu α (z (finProdFinEquiv (h, e)))
  net.outProj.forward fun i => gated (finProdFinEquiv.symm i).1 (finProdFinEquiv.symm i).2

/-- `finish` over as many rows of `z` as of the core. -/
def finishRows (cores : List (Core K la)) (ps : List (Projected K la)) : Option (List (Row K hidden)) :=
  if cores.length = ps.length then some (List.zipWith (fun core p => net.finish α core p.z) cores ps) else none

/-! ## Segments and batches -/

variable [LinearOrder K]

def forwardSegment (prefill : Bool) (xs : List (Row K hidden)) (state : Option (RecurrentState K la)) :
    Option (List (Row K hidden) × RecurrentState K la) :=
  let ps := xs.map (net.project α)
  (net.mixSegment α prefill ps state).bind fun (core, state) =>
    (net.finishRows α core ps).map fun out => (out, state)

/-- The loop of `forward_batch` over the segments. -/
def mixSegments (prefill : Bool) (ps : List (Projected K la)) (offset : Nat) :
    List (Option (RecurrentState K la) × Nat) → Option (List (Core K la) × List (RecurrentState K la))
  | [] => some ([], [])
  | (state, t) :: rest =>
      (narrow ps offset t).bind fun seg =>
        (net.mixSegment α prefill seg state).bind fun (core, state) =>
          (mixSegments prefill ps (offset + t) rest).map fun (cores, states) => (core ++ cores, state :: states)

/-- `forward_batch`, with the states it leaves. Without a segment there is nothing to concatenate. -/
def forwardBatch (prefill : Bool) (xs : List (Row K hidden)) (tokenCounts : List Nat)
    (states : List (Option (RecurrentState K la))) : Option (List (Row K hidden) × List (RecurrentState K la)) :=
  match states with
  | [] => none
  | [state] => (net.forwardSegment α prefill xs state).map fun (out, state) => (out, [state])
  | states =>
      let ps := xs.map (net.project α)
      (net.mixSegments α prefill ps 0 (states.zip tokenCounts)).bind fun (cores, states) =>
        (net.finishRows α cores ps).map fun out => (out, states)

end GatedDeltaNet

end Oxydllm.Gdn
