/-
# Oxydllm.Gdn.Chunk — the gated delta rule, token by token and in chunks.

`recurrentDeltaStep` is one rank-one update per token; `chunkGatedDeltaRule` solves the updates of a whole chunk as one
unit-triangular system and carries the state over. A head of a token is a `HeadToken`, and the heads do not meet. The
arithmetic is exact: a commutative ring with a map `exp` from sums to products, and any function of a row as its norm.
-/
import Mathlib.Algebra.Group.AddChar
import Oxydllm.Lib.Scan
import Oxydllm.Lib.UnitLower

namespace Oxydllm.Gdn

open Matrix

variable {K : Type} [CommRing K] {n c h dk dv : Nat}

/-! ## Inverting `1 - a` -/

/-- `INVERT_BLOCK`. -/
def invertBlock : Nat := 16

def invertUnitLowerBase (a : Matrix (Fin n) (Fin n) K) : Matrix (Fin n) (Fin n) K := doubling n n a (a + 1) 2

/-- The inverted diagonal blocks of one size. -/
structure Level (K : Type) where
  s : Nat
  m : Nat → Matrix (Fin s) (Fin s) K

def diagonalLevel (a : Matrix (Fin n) (Fin n) K) : Level K where
  s := invertBlock
  m i := invertUnitLowerBase (block a (i * invertBlock) (i * invertBlock) invertBlock)

/-- One turn of the pairing loop. -/
def mergePairs (a : Matrix (Fin n) (Fin n) K) (l : Level K) : Level K where
  s := l.s + l.s
  m p :=
    let a₂₁ := block a ((2 * p + 1) * l.s) (2 * p * l.s) l.s
    let m₁₁ := l.m (2 * p)
    let m₂₂ := l.m (2 * p + 1)
    join m₁₁ 0 (m₂₂ * (a₂₁ * m₁₁)) m₂₂

/-- `while s < n`. -/
def mergeWhile (a : Matrix (Fin n) (Fin n) K) : Nat → Level K → Level K
  | 0, l => l
  | fuel + 1, l => if l.s < n then mergeWhile a fuel (mergePairs a l) else l

def invertUnitLower (a : Matrix (Fin n) (Fin n) K) : Matrix (Fin n) (Fin n) K :=
  if n ≤ invertBlock ∨ n % invertBlock ≠ 0 ∨ 2 ^ n.log2 ≠ n then invertUnitLowerBase a
  else block ((mergeWhile a n (diagonalLevel a)).m 0) 0 0 n

/-! ## The inputs -/

/-- What the rule calls of arithmetic: `exp`, the norm of a row, and `1 / sqrt`. -/
structure Numerics (K : Type) [CommRing K] where
  exp : AddChar K K
  l2norm : {d : Nat} → (Fin d → K) → Fin d → K
  invSqrt : Nat → K

/-- One head of one token. -/
structure HeadToken (K : Type) (dk dv : Nat) where
  q : Fin dk → K
  k : Fin dk → K
  v : Fin dv → K
  g : K
  beta : K

/-- `q` and `k` normalised, and `q` scaled. -/
def HeadToken.normalized (ν : Numerics K) (x : HeadToken K dk dv) : HeadToken K dk dv :=
  { x with q := ν.invSqrt dk • ν.l2norm x.q, k := ν.l2norm x.k }

/-- A row of padding. -/
def HeadToken.zero : HeadToken K dk dv := ⟨0, 0, 0, 0, 0⟩

abbrev Token (K : Type) (h dk dv : Nat) := Fin h → HeadToken K dk dv

/-- `[h, dk, dv]`. -/
abbrev State (K : Type) (h dk dv : Nat) := Fin h → Matrix (Fin dk) (Fin dv) K

/-! ## The recurrence -/

/-- The step from a normalised token on. -/
def deltaStep (exp : AddChar K K) (x : HeadToken K dk dv) (state : Matrix (Fin dk) (Fin dv) K) :
    (Fin dv → K) × Matrix (Fin dk) (Fin dv) K :=
  -- decayed, read, and moved towards the value
  let s := exp x.g • state
  let kvMem := x.k ᵥ* s
  let delta := x.beta • (x.v - kvMem)
  let s := s + vecMulVec x.k delta
  (x.q ᵥ* s, s)

/-- `recurrent_delta_step`. -/
def recurrentDeltaStep (ν : Numerics K) (x : Token K h dk dv) (state : State K h dk dv) :
    (Fin h → Fin dv → K) × State K h dk dv :=
  (fun i => (deltaStep ν.exp ((x i).normalized ν) (state i)).1,
   fun i => (deltaStep ν.exp ((x i).normalized ν) (state i)).2)

/-! ## The chunks -/

/-- `tril_mask`. -/
def trilMask (n : Nat) (strict : Bool) : Matrix (Fin n) (Fin n) K :=
  of fun i j => if j.1 < (if strict then i.1 else i.1 + 1) then 1 else 0

/-- `cumsum_last`. -/
def cumsumLast (x : Fin n → K) : Fin n → K := x ᵥ* of fun j i => if j ≤ i then 1 else 0

section Form

variable (exp : AddChar K K) (x : Fin c → HeadToken K dk dv)

/-- `g_c`. -/
def chunkDecays : Fin c → K := cumsumLast fun r => (x r).g

/-- `decay`. -/
def decayMatrix : Matrix (Fin c) (Fin c) K := of fun i j =>
  exp ((chunkDecays x i - chunkDecays x j) * trilMask c false i j) * trilMask c false i j

def queries : Matrix (Fin c) (Fin dk) K := of fun r => (x r).q

def keys : Matrix (Fin c) (Fin dk) K := of fun r => (x r).k

/-- `k_beta`. -/
def betaKeys : Matrix (Fin c) (Fin dk) K := of fun r d => (x r).k d * (x r).beta

/-- `v_beta`. -/
def betaValues : Matrix (Fin c) (Fin dv) K := of fun r d => (x r).v d * (x r).beta

/-- `a`. -/
def chunkSystem : Matrix (Fin c) (Fin c) K := of fun i j =>
  -((betaKeys x * (keys x)ᵀ) i j * decayMatrix exp x i j * trilMask c true i j)

/-- `g_last`. -/
def lastDecay : K := if hc : 0 < c then chunkDecays x ⟨c - 1, Nat.sub_lt hc Nat.one_pos⟩ else 0

/-- What the intra-chunk math makes of one head of a chunk. -/
structure ChunkForm (K : Type) (c dk dv : Nat) where
  vT : Matrix (Fin c) (Fin dv) K
  kCumdecay : Matrix (Fin c) (Fin dk) K
  qg : Matrix (Fin c) (Fin dk) K
  attn : Matrix (Fin c) (Fin c) K
  egLast : K
  carryT : Matrix (Fin dk) (Fin c) K

def chunkForm : ChunkForm K c dk dv where
  vT := invertUnitLower (chunkSystem exp x) * betaValues x
  kCumdecay := invertUnitLower (chunkSystem exp x) * of fun r d => betaKeys x r d * exp (chunkDecays x r)
  qg := of fun r d => queries x r d * exp (chunkDecays x r)
  attn := of fun i j => (queries x * (keys x)ᵀ) i j * decayMatrix exp x i j
  egLast := exp (lastDecay x)
  carryT := of fun d r => keys x r d * exp (lastDecay x - chunkDecays x r)

end Form

/-- One turn of the loop over the chunks, in one head. -/
def chunkHead (f : ChunkForm K c dk dv) (s : Matrix (Fin dk) (Fin dv) K) :
    Matrix (Fin c) (Fin dv) K × Matrix (Fin dk) (Fin dv) K :=
  let vNew := f.vT - f.kCumdecay * s
  (f.qg * s + f.attn * vNew, f.egLast • s + f.carryT * vNew)

def chunkStep (exp : AddChar K K) (x : Fin c → Token K h dk dv) (s : State K h dk dv) :
    List (Fin h → Fin dv → K) × State K h dk dv :=
  let r := fun i => chunkHead (chunkForm exp fun r => x r i) (s i)
  (List.ofFn fun t => fun i => (r i).1 t, fun i => (r i).2)

def normalizedToken (ν : Numerics K) (x : Token K h dk dv) : Token K h dk dv := fun i => (x i).normalized ν

/-- The rows normalised, and then padded to whole chunks. -/
def paddedRows (ν : Numerics K) (xs : List (Token K h dk dv)) (n c : Nat) : List (Token K h dk dv) :=
  xs.map (normalizedToken ν) ++ List.replicate (n * c - xs.length) fun _ => .zero

/-- Chunk `i` of the padded rows. -/
def chunkAt (xs : List (Token K h dk dv)) (c i : Nat) : Fin c → Token K h dk dv :=
  fun r => xs.getD (i * c + r.1) fun _ => .zero

/-- `chunk_gated_delta_rule`: the outputs of the tokens and the state they leave. Without a token there is nothing to
concatenate. -/
def chunkGatedDeltaRule (ν : Numerics K) (xs : List (Token K h dk dv)) (initialState : Option (State K h dk dv))
    (c : Nat) : Option (List (Fin h → Fin dv → K) × State K h dk dv) :=
  if c = 0 then none
  else
    let t := xs.length
    let n := (t + c - 1) / c
    let r := scan (chunkStep ν.exp) ((List.range n).map (chunkAt (paddedRows ν xs n c) c)) (initialState.getD 0)
    if r.1.isEmpty then none else some (r.1.flatten.take t, r.2)

end Oxydllm.Gdn
