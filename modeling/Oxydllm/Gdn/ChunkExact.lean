/-
# Oxydllm.Gdn.ChunkExact — the chunked rule is the recurrence.

With `G` the sums of the decays inside a chunk and `δ` the updates of its tokens, the state behind a token is
`exp G • S + Σ exp (G - G j) • k j ⊗ δ j` (`closedState`). The chunk's rows `v_new` are these `δ`, since they solve the
unit-triangular system the recurrence states (`invertUnitLower_mul`, `deltaRow`), and so a chunk does what its tokens
do (`chunkHead_scan`). Padding keeps the state, and both runs agree for any number of tokens
(`chunkGatedDeltaRule_eq_recurrent`).
-/
import Mathlib.Analysis.Complex.Exponential
import Mathlib.Data.Matrix.Basic
import Mathlib.LinearAlgebra.Matrix.NonsingularInverse
import Oxydllm.Gdn.Chunk
import Oxydllm.Lib.RowMajor

namespace Oxydllm.Gdn

open Matrix

variable {K : Type} [CommRing K] {n c h dk dv : Nat}

/-! ## The inverse -/

theorem invertUnitLowerBase_mul {a : Matrix (Fin n) (Fin n) K} (ha : StrictLower a) :
    invertUnitLowerBase a * (1 - a) = 1 := by
  have hstart : (a + 1) * (1 - a) = 1 - a ^ 2 := by
    rw [add_mul, one_mul, mul_sub, mul_one, ← sq, sub_add_sub_cancel']
  exact doubling_mul ha.pow_eq_zero n (by decide) (sq a).symm hstart (Nat.le_add_left n 2)

/-- The blocks of a level invert the diagonal blocks of their size. -/
def Inverts (a : Matrix (Fin n) (Fin n) K) (l : Level K) : Prop :=
  ∀ p, l.m p * (1 - block a (p * l.s) (p * l.s) l.s) = 1

theorem diagonalLevel_inverts {a : Matrix (Fin n) (Fin n) K} (ha : StrictLower a) : Inverts a (diagonalLevel a) :=
  fun p => invertUnitLowerBase_mul (block_strictLower ha (p * invertBlock) invertBlock)

theorem mergePairs_inverts {a : Matrix (Fin n) (Fin n) K} (ha : StrictLower a) {l : Level K} (h : Inverts a l) :
    Inverts a (mergePairs a l) := by
  intro p
  have hstart : p * (l.s + l.s) = 2 * p * l.s := by ring
  have hmiddle : 2 * p * l.s + l.s = (2 * p + 1) * l.s := by ring
  -- block `p` of the next size is blocks `2 p` and `2 p + 1` of this one, and nothing above them
  have hblock : block a (p * (l.s + l.s)) (p * (l.s + l.s)) (l.s + l.s) =
      join (block a (2 * p * l.s) (2 * p * l.s) l.s) 0 (block a ((2 * p + 1) * l.s) (2 * p * l.s) l.s)
        (block a ((2 * p + 1) * l.s) ((2 * p + 1) * l.s) l.s) := by
    rw [block_join ha, hstart, hmiddle]
  have hjoin : join (l.m (2 * p)) 0 _ (l.m (2 * p + 1)) *
      (1 - join _ 0 (block a ((2 * p + 1) * l.s) (2 * p * l.s) l.s) _) = 1 :=
    joinLower_mul (h (2 * p)) (h (2 * p + 1))
  rw [← hblock] at hjoin
  exact hjoin

/-- The loop stops at one block of the whole size. -/
theorem mergeWhile_inverts {a : Matrix (Fin n) (Fin n) K} (ha : StrictLower a) {k : Nat} (hn : n = 2 ^ k) :
    ∀ (fuel : Nat) {l : Level K} {j : Nat}, l.s = 2 ^ j → l.s ≤ n → n ≤ l.s + fuel → Inverts a l →
      (mergeWhile a fuel l).s = n ∧ Inverts a (mergeWhile a fuel l) := by
  intro fuel
  induction fuel with
  | zero =>
      intro l j _ hle hfuel h
      exact ⟨by change l.s = n; omega, h⟩
  | succ fuel ih =>
      intro l j hs hle hfuel h
      unfold mergeWhile
      split
      next hlt =>
        have hdouble : (mergePairs a l).s = 2 ^ (j + 1) := by
          change l.s + l.s = _
          rw [hs, pow_succ, Nat.mul_two]
        have hjk : j < k := (Nat.pow_lt_pow_iff_right (by decide)).1 (hs ▸ hn ▸ hlt)
        have hpos : 0 < l.s := hs ▸ Nat.two_pow_pos j
        refine ih hdouble ?_ ?_ (mergePairs_inverts ha h)
        · rw [hdouble, hn]
          exact Nat.pow_le_pow_right (by decide) hjk
        · change n ≤ l.s + l.s + fuel
          omega
      next hge => exact ⟨by omega, h⟩

theorem invertUnitLower_mul {a : Matrix (Fin n) (Fin n) K} (ha : StrictLower a) : invertUnitLower a * (1 - a) = 1 := by
  unfold invertUnitLower
  split
  next => exact invertUnitLowerBase_mul ha
  next h =>
    have hlarge : invertBlock < n := by
      by_contra hle
      exact h (.inl (not_lt.1 hle))
    have hpow : n = 2 ^ n.log2 := by
      by_contra hne
      exact h (.inr (.inr (Ne.symm hne)))
    obtain ⟨hs, hinv⟩ := mergeWhile_inverts ha hpow n (l := diagonalLevel a) (j := 4) rfl hlarge.le
      (Nat.le_add_left n _) (diagonalLevel_inverts ha)
    have hone := hinv 0
    generalize mergeWhile a n (diagonalLevel a) = l at hs hone
    obtain ⟨s, m⟩ := l
    obtain rfl : s = n := hs
    change m 0 * (1 - block a (0 * s) (0 * s) s) = 1 at hone
    rw [Nat.zero_mul, block_self] at hone
    rw [block_self, hone]

/-- Both inversions are exact, and so the same: `1 - a` has one left inverse. -/
theorem invertUnitLower_exact {a : Matrix (Fin n) (Fin n) K} (ha : StrictLower a) :
    invertUnitLower a * (1 - a) = 1 ∧ invertUnitLower a = invertUnitLowerBase a := by
  have hblocked := invertUnitLower_mul ha
  have hbase := invertUnitLowerBase_mul ha
  refine ⟨hblocked, ?_⟩
  calc invertUnitLower a = invertUnitLower a * ((1 - a) * invertUnitLowerBase a) := by
        rw [mul_eq_one_comm.1 hbase, mul_one]
    _ = invertUnitLowerBase a := by rw [← mul_assoc, hblocked, one_mul]

/-- Thirty-two rows, on the blocked path, each with every row above it in its sum. -/
theorem invertUnitLower_exact_full :
    let a : Matrix (Fin 32) (Fin 32) ℤ := of fun i j => if j < i then 1 else 0
    invertUnitLower a * (1 - a) = 1 ∧ invertUnitLower a = invertUnitLowerBase a :=
  invertUnitLower_exact fun _ _ hij => if_neg (not_lt.2 hij)

/-! ## The masks and the decays -/

theorem trilMask_apply (strict : Bool) (i j : Fin n) :
    (trilMask n strict : Matrix _ _ K) i j = if j.1 < (if strict then i.1 else i.1 + 1) then 1 else 0 := rfl

/-- The sum of the decays of the tokens before `r`. -/
def decayBefore (x : Fin c → HeadToken K dk dv) (r : Nat) : K := ∑ j : Fin c, if j.1 < r then (x j).g else 0

/-- The sum up to a token. -/
def decayTo (x : Fin c → HeadToken K dk dv) (r : Fin c) : K := decayBefore x (r.1 + 1)

theorem chunkDecays_eq (x : Fin c → HeadToken K dk dv) : chunkDecays x = decayTo x := by
  funext i
  change (∑ j : Fin c, (x j).g * if j ≤ i then 1 else 0) = ∑ j : Fin c, if j.1 < i.1 + 1 then (x j).g else 0
  refine Finset.sum_congr rfl fun j _ => ?_
  rw [mul_ite, mul_one, mul_zero]
  exact if_congr (Fin.le_def.trans Nat.lt_succ_iff.symm) rfl rfl

/-- One more term under a bound on the index. -/
theorem sum_lt_succ {M : Type} [AddCommMonoid M] (f : Fin c → M) (r : Fin c) :
    (∑ j : Fin c, if j.1 < r.1 + 1 then f j else 0) = (∑ j : Fin c, if j.1 < r.1 then f j else 0) + f r := by
  have hone : (∑ j : Fin c, if j = r then f j else 0) = f r := by
    rw [Finset.sum_ite_eq', if_pos (Finset.mem_univ r)]
  rw [← hone, ← Finset.sum_add_distrib]
  refine Finset.sum_congr rfl fun j _ => ?_
  rcases Nat.lt_trichotomy j.1 r.1 with hlt | heq | hgt
  · rw [if_pos (Nat.lt_succ_of_lt hlt), if_pos hlt, if_neg (Fin.ne_of_lt hlt), add_zero]
  · rw [if_pos (by omega), if_neg (by omega), if_pos (Fin.ext heq), zero_add]
  · rw [if_neg (by omega), if_neg (by omega), if_neg (Fin.ne_of_gt hgt), add_zero]

/-- A row of a product is a combination of rows. -/
theorem row_mul {m : Nat} (a : Matrix (Fin n) (Fin m) K) (b : Matrix (Fin m) (Fin dv) K) (r : Fin n) :
    (a * b).row r = ∑ j, a r j • b.row j := by
  funext e
  rw [row_apply, mul_apply, Finset.sum_apply]
  rfl

theorem decayTo_eq (x : Fin c → HeadToken K dk dv) (r : Fin c) : decayTo x r = decayBefore x r.1 + (x r).g :=
  sum_lt_succ (fun j => (x j).g) r

theorem decayBefore_zero (x : Fin c → HeadToken K dk dv) : decayBefore x 0 = 0 :=
  Finset.sum_eq_zero fun _ _ => if_neg (Nat.not_lt_zero _)

/-! ## A chunk in one head -/

section Chunk

variable (exp : AddChar K K) (x : Fin c → HeadToken K dk dv) (s : Matrix (Fin dk) (Fin dv) K)
  (delta : Fin c → Fin dv → K)

/-- `s` and the updates of the tokens before `r`, each decayed from its token to `u`. -/
def closedState (u : K) (r : Nat) : Matrix (Fin dk) (Fin dv) K :=
  exp u • s + ∑ j : Fin c, if j.1 < r then exp (u - decayTo x j) • vecMulVec (x j).k (delta j) else 0

theorem closedState_zero : closedState exp x s delta (decayBefore x 0) 0 = s := by
  rw [closedState, decayBefore_zero, AddChar.map_zero_eq_one, one_smul,
    Finset.sum_eq_zero fun _ _ => if_neg (Nat.not_lt_zero _), add_zero]

theorem smul_closedState (w u : K) (r : Nat) :
    exp w • closedState exp x s delta u r = closedState exp x s delta (u + w) r := by
  rw [closedState, closedState, smul_add, smul_smul, ← AddChar.map_add_eq_mul, add_comm w u, Finset.smul_sum]
  congr 1
  refine Finset.sum_congr rfl fun j _ => ?_
  rw [smul_ite, smul_zero, smul_smul, ← AddChar.map_add_eq_mul, add_comm w, sub_add_eq_add_sub]

/-- The update of a token enters undecayed. -/
theorem closedState_succ (r : Fin c) :
    closedState exp x s delta (decayTo x r) (r.1 + 1) =
      closedState exp x s delta (decayTo x r) r.1 + vecMulVec (x r).k (delta r) := by
  rw [closedState, sum_lt_succ fun j => exp (decayTo x r - decayTo x j) • vecMulVec (x j).k (delta j), sub_self,
    AddChar.map_zero_eq_one, one_smul, ← add_assoc]
  rfl

theorem vecMul_closedState (y : Fin dk → K) (u : K) (r : Nat) :
    y ᵥ* closedState exp x s delta u r = exp u • (y ᵥ* s) +
      ∑ j : Fin c, (if j.1 < r then (y ⬝ᵥ (x j).k) * exp (u - decayTo x j) else 0) • delta j := by
  rw [closedState, vecMul_add, vecMul_smul, vecMul_sum]
  congr 1
  refine Finset.sum_congr rfl fun j _ => ?_
  split
  · rw [vecMul_smul, vecMul_vecMulVec, smul_smul, mul_comm]
  · rw [vecMul_zero, zero_smul]

/-- The step of a token, from the closed state before it to the one behind it. -/
theorem deltaStep_closedState (r : Fin c)
    (hdelta : delta r = (x r).beta • ((x r).v - (x r).k ᵥ* closedState exp x s delta (decayTo x r) r.1)) :
    deltaStep exp (x r) (closedState exp x s delta (decayBefore x r.1) r.1) =
      ((x r).q ᵥ* closedState exp x s delta (decayTo x r) (r.1 + 1),
        closedState exp x s delta (decayTo x r) (r.1 + 1)) := by
  rw [deltaStep, smul_closedState, ← decayTo_eq, ← hdelta, ← closedState_succ]

/-! ## What the chunk computes -/

theorem decayMatrix_apply (i j : Fin c) : decayMatrix exp x i j =
    if j.1 < i.1 + 1 then exp (decayTo x i - decayTo x j) else 0 := by
  change exp ((chunkDecays x i - chunkDecays x j) * trilMask c false i j) * trilMask c false i j = _
  rw [trilMask_apply, chunkDecays_eq]
  change exp (_ * if j.1 < i.1 + 1 then 1 else 0) * (if j.1 < i.1 + 1 then 1 else 0) = _
  split
  · rw [mul_one, mul_one]
  · rw [mul_zero]

theorem chunkSystem_apply (i j : Fin c) : chunkSystem exp x i j =
    if j.1 < i.1 then -((x i).beta * ((x i).k ⬝ᵥ (x j).k) * exp (decayTo x i - decayTo x j)) else 0 := by
  have hkeys : (betaKeys x * (keys x)ᵀ) i j = (x i).beta * ((x i).k ⬝ᵥ (x j).k) := by
    rw [mul_apply, dotProduct, Finset.mul_sum]
    refine Finset.sum_congr rfl fun d _ => ?_
    change (x i).k d * (x i).beta * (x j).k d = (x i).beta * ((x i).k d * (x j).k d)
    ring
  change -((betaKeys x * (keys x)ᵀ) i j * decayMatrix exp x i j * trilMask c true i j) = _
  rw [hkeys, decayMatrix_apply, trilMask_apply]
  change -(_ * if j.1 < i.1 then 1 else 0) = _
  by_cases hlt : j.1 < i.1
  · rw [if_pos hlt, if_pos hlt, if_pos (Nat.lt_succ_of_lt hlt), mul_one]
  · rw [if_neg hlt, if_neg hlt, mul_zero, neg_zero]

theorem chunkSystem_strictLower : StrictLower (chunkSystem exp x) := by
  intro i j hij
  rw [chunkSystem_apply, if_neg (not_lt.2 (Fin.le_def.1 hij))]

theorem lastDecay_eq : lastDecay x = decayBefore x c := by
  unfold lastDecay
  split
  next hc =>
    rw [chunkDecays_eq, decayTo]
    congr 1
    exact Nat.sub_add_cancel hc
  next hc =>
    obtain rfl : c = 0 := by omega
    rfl

/-- `v_new` of a chunk. -/
def newRows : Matrix (Fin c) (Fin dv) K := (chunkForm exp x).vT - (chunkForm exp x).kCumdecay * s

/-- `v_new` solves a unit-triangular system. -/
theorem newRows_solves : newRows exp x s = betaValues x -
    (of fun r d => betaKeys x r d * exp (chunkDecays x r) : Matrix (Fin c) (Fin dk) K) * s +
      chunkSystem exp x * newRows exp x s := by
  have hsolve : (1 - chunkSystem exp x) * newRows exp x s =
      betaValues x - (of fun r d => betaKeys x r d * exp (chunkDecays x r) : Matrix (Fin c) (Fin dk) K) * s := by
    -- a left inverse of a square matrix is a right inverse
    have hright := mul_eq_one_comm.1 (invertUnitLower_mul (chunkSystem_strictLower exp x))
    change (1 - chunkSystem exp x) * (invertUnitLower (chunkSystem exp x) * betaValues x -
      invertUnitLower (chunkSystem exp x) * _ * s) = _
    rw [Matrix.mul_assoc, ← Matrix.mul_sub, ← Matrix.mul_assoc, hright, Matrix.one_mul]
  rw [← hsolve, Matrix.sub_mul, Matrix.one_mul, sub_add_cancel]

/-- Its rows are the updates of the recurrence. -/
theorem newRows_row (r : Fin c) : (newRows exp x s).row r =
    (x r).beta • ((x r).v - (x r).k ᵥ* closedState exp x s (newRows exp x s).row (decayTo x r) r.1) := by
  -- the three terms of a row: what the earlier tokens took, what the state has, and the value
  have hsystem : (chunkSystem exp x * newRows exp x s).row r = -((x r).beta • ∑ j : Fin c,
      (if j.1 < r.1 then ((x r).k ⬝ᵥ (x j).k) * exp (decayTo x r - decayTo x j) else 0) •
        (newRows exp x s).row j) := by
    rw [row_mul, Finset.smul_sum, ← Finset.sum_neg_distrib]
    refine Finset.sum_congr rfl fun j _ => ?_
    rw [chunkSystem_apply]
    by_cases hlt : j.1 < r.1
    · rw [if_pos hlt, if_pos hlt, neg_smul, smul_smul, mul_assoc]
    · rw [if_neg hlt, if_neg hlt, zero_smul, smul_zero, neg_zero]
  have hkeys : ((of fun r d => betaKeys x r d * exp (chunkDecays x r) : Matrix (Fin c) (Fin dk) K) * s).row r =
      (x r).beta • exp (decayTo x r) • ((x r).k ᵥ* s) := by
    rw [row_mul, vecMul_eq_sum, Finset.smul_sum, Finset.smul_sum]
    refine Finset.sum_congr rfl fun d _ => ?_
    change ((x r).k d * (x r).beta * exp (chunkDecays x r)) • s.row d = _
    rw [chunkDecays_eq, smul_smul, smul_smul]
    congr 1
    ring
  have hvalues : (betaValues x).row r = (x r).beta • (x r).v := funext fun e => mul_comm _ _
  have hrow : (newRows exp x s).row r = (betaValues x).row r -
      ((of fun r d => betaKeys x r d * exp (chunkDecays x r) : Matrix (Fin c) (Fin dk) K) * s).row r +
        (chunkSystem exp x * newRows exp x s).row r :=
    congrArg (fun m : Matrix _ _ K => m.row r) (newRows_solves exp x s)
  rw [hrow, hsystem, hkeys, hvalues, vecMul_closedState, smul_sub, smul_add, ← sub_sub, ← sub_eq_add_neg]

/-- The outputs are the queries on the states behind their tokens. -/
theorem chunkHead_out (r : Fin c) : (chunkHead (chunkForm exp x) s).1.row r =
    (x r).q ᵥ* closedState exp x s (newRows exp x s).row (decayTo x r) (r.1 + 1) := by
  have hattn : ((chunkForm exp x).attn * newRows exp x s).row r = ∑ j : Fin c,
      (if j.1 < r.1 + 1 then ((x r).q ⬝ᵥ (x j).k) * exp (decayTo x r - decayTo x j) else 0) •
        (newRows exp x s).row j := by
    rw [row_mul]
    refine Finset.sum_congr rfl fun j _ => ?_
    change (((x r).q ⬝ᵥ (x j).k) * decayMatrix exp x r j) • _ = _
    rw [decayMatrix_apply, mul_ite, mul_zero]
  have hqg : ((chunkForm exp x).qg * s).row r = exp (decayTo x r) • ((x r).q ᵥ* s) := by
    rw [row_mul, vecMul_eq_sum, Finset.smul_sum]
    refine Finset.sum_congr rfl fun d _ => ?_
    change ((x r).q d * exp (chunkDecays x r)) • s.row d = _
    rw [chunkDecays_eq, smul_smul, mul_comm]
    rfl
  change ((chunkForm exp x).qg * s).row r + ((chunkForm exp x).attn * newRows exp x s).row r = _
  rw [hqg, hattn, vecMul_closedState]

/-- The state carried over is the one behind the last token. -/
theorem chunkHead_state : (chunkHead (chunkForm exp x) s).2 =
    closedState exp x s (newRows exp x s).row (decayBefore x c) c := by
  change exp (lastDecay x) • s + (chunkForm exp x).carryT * newRows exp x s = _
  rw [closedState, lastDecay_eq]
  congr 1
  ext d e
  rw [mul_apply, Matrix.sum_apply]
  refine Finset.sum_congr rfl fun j _ => ?_
  change (x j).k d * exp (lastDecay x - chunkDecays x j) * newRows exp x s j e = _
  rw [if_pos j.2, lastDecay_eq, chunkDecays_eq, Matrix.smul_apply, vecMulVec_apply, smul_eq_mul]
  change _ = _ * ((x j).k d * newRows exp x s j e)
  ring

/-- A token's step, between the states its chunk goes through. -/
theorem chunkHead_step (r : Fin c) :
    deltaStep exp (x r) (closedState exp x s (newRows exp x s).row (decayBefore x r.1) r.1) =
      ((chunkHead (chunkForm exp x) s).1.row r,
        closedState exp x s (newRows exp x s).row (decayBefore x (r.1 + 1)) (r.1 + 1)) := by
  rw [deltaStep_closedState exp x s _ r (newRows_row exp x s r), chunkHead_out]
  rfl

end Chunk

/-! ## Every run -/

/-- The step from normalised heads on. -/
def tokenStep (exp : AddChar K K) (x : Token K h dk dv) (s : State K h dk dv) :
    (Fin h → Fin dv → K) × State K h dk dv :=
  (fun i => (deltaStep exp (x i) (s i)).1, fun i => (deltaStep exp (x i) (s i)).2)

/-- A chunk does what its tokens do. -/
theorem chunkStep_eq (exp : AddChar K K) (x : Fin c → Token K h dk dv) (s : State K h dk dv) :
    chunkStep exp x s = scan (tokenStep exp) (List.ofFn x) s := by
  -- the heads go through their states side by side
  let t (r : Nat) : State K h dk dv := fun i =>
    closedState exp (fun r => x r i) (s i) (newRows exp (fun r => x r i) (s i)).row (decayBefore (fun r => x r i) r) r
  have hstart : t 0 = s := funext fun i => closedState_zero exp (fun r => x r i) (s i) _
  have hend : t c = fun i => (chunkHead (chunkForm exp fun r => x r i) (s i)).2 :=
    funext fun i => (chunkHead_state exp (fun r => x r i) (s i)).symm
  have hstep (r : Fin c) : tokenStep exp (x r) (t r.1) =
      (fun i => (chunkHead (chunkForm exp fun r => x r i) (s i)).1.row r, t (r.1 + 1)) :=
    Prod.ext (funext fun i => congrArg Prod.fst (chunkHead_step exp (fun r => x r i) (s i) r))
      (funext fun i => congrArg Prod.snd (chunkHead_step exp (fun r => x r i) (s i) r))
  have hrun := scan_ofFn hstep
  rw [hstart, hend] at hrun
  exact hrun.symm

/-- A row of padding keeps the state. -/
theorem tokenStep_zero (exp : AddChar K K) (s : State K h dk dv) :
    tokenStep exp (fun _ => .zero) s = (0, s) := by
  have hhead (i : Fin h) : deltaStep exp HeadToken.zero (s i) = (0, s i) := by
    simp only [deltaStep, HeadToken.zero, AddChar.map_zero_eq_one, one_smul, zero_smul, zero_vecMulVec, add_zero,
      zero_vecMul]
  exact Prod.ext (funext fun i => congrArg Prod.fst (hhead i)) (funext fun i => congrArg Prod.snd (hhead i))

/-- Whole chunks are the rows they were cut from. -/
theorem flatMap_chunkAt {ys : List (Token K h dk dv)} (hc : 0 < c) (hlen : ys.length = n * c) :
    ((List.range n).flatMap fun i => List.ofFn (chunkAt ys c i)) = ys := by
  have hwidth (i : Nat) (_ : i < n) : (List.ofFn (chunkAt ys c i)).length = c := List.length_ofFn
  refine List.ext_getElem? fun k => ?_
  rcases Nat.lt_or_ge k (n * c) with hk | hk
  · have hrow : k / c < n := (Nat.div_lt_iff_lt_mul hc).2 hk
    have hcol : k % c < c := Nat.mod_lt k hc
    have hindex : k / c * c + k % c = k := Nat.div_add_mod' k c
    have hentry := RowMajor.getElem?_flatMap_range hwidth hrow hcol
    rw [hindex] at hentry
    rw [hentry, List.getElem?_ofFn, dif_pos hcol, chunkAt, hindex, List.getD_eq_getElem?_getD,
      List.getElem?_eq_getElem (hlen ▸ hk), Option.getD_some]
  · rw [List.getElem?_eq_none (by rw [RowMajor.length_flatMap_range hwidth]; exact hk),
      List.getElem?_eq_none (hlen ▸ hk)]

/-- The chunked rule is the recurrence, for any number of tokens. -/
theorem chunkGatedDeltaRule_scan (ν : Numerics K) {xs : List (Token K h dk dv)} (hxs : xs ≠ [])
    (initialState : Option (State K h dk dv)) (hc : 0 < c) :
    chunkGatedDeltaRule ν xs initialState c = some (scan (recurrentDeltaStep ν) xs (initialState.getD 0)) := by
  have ht : 0 < xs.length := List.length_pos_iff.2 hxs
  obtain ⟨n, hn⟩ : ∃ n, (xs.length + c - 1) / c = n := ⟨_, rfl⟩
  -- the chunks cover the tokens, and there is one at least
  have hle : xs.length ≤ n * c := by
    have hmod := Nat.div_add_mod' (xs.length + c - 1) c
    have hlt := Nat.mod_lt (xs.length + c - 1) hc
    rw [hn] at hmod
    omega
  have hpos : 0 < n := by
    rcases Nat.eq_zero_or_pos n with rfl | hpos
    · omega
    · exact hpos
  have hlen : (paddedRows ν xs n c).length = n * c := by
    rw [paddedRows, List.length_append, List.length_map, List.length_replicate]
    omega
  -- the run over the chunks is the one over the padded rows, and the padding only adds outputs
  have hpadded : scan (tokenStep ν.exp) (paddedRows ν xs n c) (initialState.getD 0) =
      ((scan (recurrentDeltaStep ν) xs (initialState.getD 0)).1 ++ List.replicate (n * c - xs.length) 0,
        (scan (recurrentDeltaStep ν) xs (initialState.getD 0)).2) := by
    rw [paddedRows, scan_append, scan_map, scan_replicate (fun s => tokenStep_zero ν.exp s)]
    rfl
  have hrun := scan_flatten (fun x s => chunkStep_eq ν.exp x s)
    ((List.range n).map (chunkAt (paddedRows ν xs n c) c)) (initialState.getD 0)
  rw [List.flatMap_map, flatMap_chunkAt hc hlen, hpadded] at hrun
  obtain ⟨houts, hstate⟩ := Prod.mk.inj hrun
  unfold chunkGatedDeltaRule
  simp only [if_neg hc.ne', hn]
  rw [if_neg, houts, hstate, List.take_left' (scan_length xs _)]
  · rw [List.isEmpty_iff_length_eq_zero, scan_length, List.length_map, List.length_range]
    exact hpos.ne'

/-- A prompt in pieces, each from the state the ones before it left. -/
def chunkPieces (ν : Numerics K) (c : Nat) : List (List (Token K h dk dv)) → Option (State K h dk dv) →
    Option (List (Fin h → Fin dv → K) × Option (State K h dk dv))
  | [], s => some ([], s)
  | p :: ps, s => (chunkGatedDeltaRule ν p s c).bind fun r =>
      (chunkPieces ν c ps (some r.2)).map fun rest => (r.1 ++ rest.1, rest.2)

theorem chunkPieces_scan (ν : Numerics K) (hc : 0 < c) {ps : List (List (Token K h dk dv))} (hps : ∀ p ∈ ps, p ≠ []) :
    ∀ {p : List (Token K h dk dv)}, p ≠ [] → ∀ s : Option (State K h dk dv), chunkPieces ν c (p :: ps) s =
      some ((scan (recurrentDeltaStep ν) (p ++ ps.flatten) (s.getD 0)).1,
        some (scan (recurrentDeltaStep ν) (p ++ ps.flatten) (s.getD 0)).2) := by
  induction ps with
  | nil =>
      intro p hp s
      rw [chunkPieces, chunkGatedDeltaRule_scan ν hp s hc, List.flatten_nil, List.append_nil]
      change some (_ ++ [], _) = _
      rw [List.append_nil]
  | cons p' ps ih =>
      intro p hp s
      rw [chunkPieces, chunkGatedDeltaRule_scan ν hp s hc, Option.bind_some,
        ih (fun p hp => hps p (.tail _ hp)) (hps p' (.head _)), List.flatten_cons, scan_append p]
      rfl

/-- The chunked rule folds the recurrence over the tokens, and so it does not see how a prompt is cut into pieces. -/
theorem chunkGatedDeltaRule_eq_recurrent (ν : Numerics K) (initialState : Option (State K h dk dv)) (hc : 0 < c) :
    (∀ xs : List (Token K h dk dv), xs ≠ [] → chunkGatedDeltaRule ν xs initialState c =
      some (scan (recurrentDeltaStep ν) xs (initialState.getD 0))) ∧
    ∀ pieces : List (List (Token K h dk dv)), pieces ≠ [] → (∀ p ∈ pieces, p ≠ []) →
      chunkPieces ν c pieces initialState =
        (chunkGatedDeltaRule ν pieces.flatten initialState c).map fun r => (r.1, some r.2) := by
  refine ⟨fun xs hxs => chunkGatedDeltaRule_scan ν hxs initialState hc, fun pieces hne hpieces => ?_⟩
  obtain ⟨p, ps, rfl⟩ := List.exists_cons_of_ne_nil hne
  have hp : p ≠ [] := hpieces p (.head _)
  have hflat : (p :: ps).flatten ≠ [] := List.append_ne_nil_of_left_ne_nil hp _
  rw [chunkPieces_scan ν hc (fun p hp => hpieces p (.tail _ hp)) hp, chunkGatedDeltaRule_scan ν hflat initialState hc]
  rfl

/-- Three tokens of one head over the reals, as one prompt and in two pieces. -/
theorem chunkGatedDeltaRule_eq_recurrent_three : let ν : Numerics ℝ :=
      ⟨⟨Real.exp, Real.exp_zero, Real.exp_add⟩, fun x => x, fun d => 1 / d⟩
    let x : Token ℝ 1 1 1 := fun _ => ⟨fun _ => 1, fun _ => 1, fun _ => 2, -1, 1 / 2⟩
    chunkGatedDeltaRule ν [x, x, x] none 2 = some (scan (recurrentDeltaStep ν) [x, x, x] 0) ∧
      chunkPieces ν 2 [[x], [x, x]] none = (chunkGatedDeltaRule ν [x, x, x] none 2).map fun r => (r.1, some r.2) := by
  intro ν x
  obtain ⟨hrun, hpieces⟩ := chunkGatedDeltaRule_eq_recurrent ν (none : Option (State ℝ 1 1 1)) Nat.two_pos
  exact ⟨hrun [x, x, x] (List.cons_ne_nil _ _), hpieces [[x], [x, x]] (List.cons_ne_nil _ _) (by simp)⟩

end Oxydllm.Gdn
