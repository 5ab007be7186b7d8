/-
# Oxydllm.Moe.Layer — a mixture-of-experts layer (`MoeFeedForward::forward`).

The router scores the experts for each row, the best of them run under whichever dispatch the number of rows
calls for, and a shared expert may be added. A row's output is a function of that row, and with `normTopk` its
weights are a softmax over the chosen logits alone, which is how GPT-OSS routes.
-/
import Oxydllm.Moe.Dispatch
import Oxydllm.Lib.RowMajor
import Mathlib.Algebra.Order.Field.Basic
import Mathlib.Algebra.BigOperators.Ring.List
import Mathlib.Algebra.Order.BigOperators.Group.List
import Mathlib.Analysis.SpecialFunctions.Exp

namespace Oxydllm.Moe

variable {R V : Type}

/-- The exponential, and the order of a row's values, greatest first. -/
structure RowOps (R : Type) where
  exp : R → R
  argSort : List R → List Nat
  perm : ∀ row, (argSort row).Perm (List.range row.length)

structure SharedExpert (R V : Type) where
  expert : V → V
  gate : V → R

/-- A layer as `load` lets it through: one logit an expert, and `top_k` in `(0, num_experts]`. -/
structure MoeFeedForward (R V : Type) where
  router : V → List R
  experts : Nat → V → V
  numExperts : Nat
  shared : Option (SharedExpert R V)
  topK : Nat
  normTopk : Bool
  router_length : ∀ x, (router x).length = numExperts
  topK_pos : 0 < topK
  topK_le : topK ≤ numExperts

section Layer

variable [Field R] [LinearOrder R]

def softmaxLastDim (exp : R → R) (row : List R) : List R :=
  let max := row.foldl max (row.headD 0)
  let expX := row.map fun x => exp (x - max)
  expX.map (· / expX.sum)

namespace MoeFeedForward

def probs (ops : RowOps R) (layer : MoeFeedForward R V) (x : V) : List R :=
  softmaxLastDim ops.exp (layer.router x)

/-- A row of `top_idx`. -/
def topIdx (ops : RowOps R) (layer : MoeFeedForward R V) (x : V) : List Nat :=
  (ops.argSort (layer.probs ops x)).take layer.topK

/-- A row of `top_vals`. -/
def topVals (ops : RowOps R) (layer : MoeFeedForward R V) (x : V) : List R :=
  let topVals := (layer.topIdx ops x).map fun e => (layer.probs ops x).getD e 0
  if layer.normTopk then topVals.map (· / topVals.sum) else topVals

theorem topIdx_length (ops : RowOps R) (layer : MoeFeedForward R V) (x : V) :
    (layer.topIdx ops x).length = layer.topK := by
  have hprobs : (layer.probs ops x).length = layer.numExperts := by
    unfold probs softmaxLastDim
    rw [List.length_map, List.length_map, layer.router_length]
  unfold topIdx
  rw [List.length_take, (ops.perm _).length_eq, List.length_range, hprobs, min_eq_left layer.topK_le]

theorem topVals_length (ops : RowOps R) (layer : MoeFeedForward R V) (x : V) :
    (layer.topVals ops x).length = layer.topK := by
  unfold topVals
  dsimp only
  split
  · rw [List.length_map, List.length_map, topIdx_length]
  · rw [List.length_map, topIdx_length]

/-- Rows of one length, one after the other. -/
theorem length_flatMap_rows {α : Type} {f : V → List α} {k : Nat} (h : ∀ x, (f x).length = k) (xs : List V) :
    (xs.flatMap f).length = xs.length * k := by
  induction xs with
  | nil => exact (Nat.zero_mul k).symm
  | cons x xs ih => rw [List.flatMap_cons, List.length_append, h, ih, List.length_cons, Nat.succ_mul, Nat.add_comm]

/-- `top_idx` and `top_vals` on the host. -/
def readback (ops : RowOps R) (layer : MoeFeedForward R V) (xFlat : List V) :
    Readback R xFlat.length layer.topK :=
  ⟨xFlat.flatMap (layer.topIdx ops), xFlat.flatMap (layer.topVals ops),
    length_flatMap_rows (layer.topIdx_length ops) xFlat, length_flatMap_rows (layer.topVals_length ops) xFlat⟩

/-- The sigmoid of a gate's logit. -/
def sigmoid (ops : RowOps R) (logit : R) : R := (ops.exp (-logit) + 1)⁻¹

variable [AddCommMonoid V] [Module R V]

/-- The dispatch the number of rows calls for. -/
def dispatch (ops : RowOps R) (layer : MoeFeedForward R V) (xFlat : List V) : Run (List V) :=
  let table := layer.readback ops xFlat
  if layer.topK < xFlat.length then dispatchSparse layer.experts layer.numExperts xFlat table
  else dispatchNaive layer.experts layer.numExperts xFlat table

def addShared (ops : RowOps R) (layer : MoeFeedForward R V) (xFlat out : List V) : List V :=
  match layer.shared with
  | none => out
  | some shared =>
      List.zipWith (· + ·) out
        (broadcastMul (xFlat.map shared.expert) (xFlat.map fun x => sigmoid ops (shared.gate x)))

def forward (ops : RowOps R) (layer : MoeFeedForward R V) (xFlat : List V) : Run (List V) := do
  let out ← layer.dispatch ops xFlat
  return layer.addShared ops xFlat out

/-! ## What a row is given -/

omit [AddCommMonoid V] [Module R V] in
/-- The weights of some experts: a softmax over all logits, or over theirs. -/
def weights (ops : RowOps R) (layer : MoeFeedForward R V) (x : V) (chosen : List Nat) : List R :=
  let score := fun e => ops.exp ((layer.router x).getD e 0)
  let total := if layer.normTopk then (chosen.map score).sum else ((layer.router x).map ops.exp).sum
  chosen.map fun e => score e / total

/-- The output of one row. -/
def rowOut (ops : RowOps R) (layer : MoeFeedForward R V) (x : V) : V :=
  let chosen := layer.topIdx ops x
  let routed := (List.zipWith (fun w e => w • layer.experts e x) (layer.weights ops x chosen) chosen).sum
  match layer.shared with
  | none => routed
  | some shared => routed + sigmoid ops (shared.gate x) • shared.expert x

end MoeFeedForward

/-- What the softmax needs of the exponential. -/
structure ExpLaws (exp : R → R) : Prop where
  pos : ∀ a, 0 < exp a
  sub : ∀ a b, exp (a - b) = exp a / exp b

theorem sum_map_div {F : Type} [Field F] (xs : List F) (c : F) : (xs.map (· / c)).sum = xs.sum / c := by
  have hmul := List.sum_map_mul_right xs id c⁻¹
  rw [List.map_id] at hmul
  simp only [div_eq_mul_inv]
  exact hmul

section Softmax

variable {exp : R → R}

/-- The greatest logit cancels. -/
theorem softmaxLastDim_eq (h : ExpLaws exp) (row : List R) :
    softmaxLastDim exp row = row.map fun x => exp x / (row.map exp).sum := by
  unfold softmaxLastDim
  dsimp only
  generalize row.foldl max (row.headD 0) = m
  have hm : exp m ≠ 0 := (h.pos m).ne'
  have hsum : (row.map fun x => exp (x - m)).sum = (row.map exp).sum / exp m := by
    rw [← sum_map_div, List.map_map]
    exact congrArg List.sum (List.map_congr_left fun x _ => h.sub x m)
  rw [hsum, List.map_map]
  apply List.map_congr_left
  intro x _
  show exp (x - m) / ((row.map exp).sum / exp m) = _
  rw [h.sub, div_div_div_cancel_right₀ hm]

end Softmax

/-! ## The weights and the table -/

namespace MoeFeedForward

variable {ops : RowOps R} (layer : MoeFeedForward R V)

omit [LinearOrder R] in
theorem getD_map_router (f : R → R) (x : V) {e : Nat} (he : e < layer.numExperts) :
    ((layer.router x).map f).getD e 0 = f ((layer.router x).getD e 0) := by
  have hlt : e < (layer.router x).length := by rwa [layer.router_length]
  rw [List.getD_eq_getElem?_getD, List.getD_eq_getElem?_getD, List.getElem?_map, List.getElem?_eq_getElem hlt]
  rfl

/-- The chosen experts exist, each once. -/
theorem topIdx_ok (ops : RowOps R) (x : V) :
    (∀ e ∈ layer.topIdx ops x, e < layer.numExperts) ∧ (layer.topIdx ops x).Nodup := by
  have hperm := ops.perm (layer.probs ops x)
  have hprobs : (layer.probs ops x).length = layer.numExperts := by
    unfold probs softmaxLastDim
    rw [List.length_map, List.length_map, layer.router_length]
  rw [hprobs] at hperm
  constructor
  · intro e he
    exact List.mem_range.1 (hperm.mem_iff.1 (List.mem_of_mem_take he))
  · exact (hperm.nodup_iff.2 List.nodup_range).sublist (List.take_sublist _ _)

/-- Normalised or not, the weights are a softmax. -/
theorem topVals_eq [IsStrictOrderedRing R] (h : ExpLaws ops.exp) (x : V) :
    layer.topVals ops x = layer.weights ops x (layer.topIdx ops x) := by
  have hne : layer.router x ≠ [] := by
    apply List.ne_nil_of_length_pos
    rw [layer.router_length]
    exact layer.topK_pos.trans_le layer.topK_le
  have htotal : ((layer.router x).map ops.exp).sum ≠ 0 := by
    apply (List.sum_pos _ _ _).ne'
    · intro a ha
      obtain ⟨l, -, rfl⟩ := List.mem_map.1 ha
      exact h.pos l
    · exact fun hnil => hne (List.map_eq_nil_iff.1 hnil)
  have hvals : (layer.topIdx ops x).map (fun e => (layer.probs ops x).getD e 0) =
      ((layer.topIdx ops x).map fun e => ops.exp ((layer.router x).getD e 0)).map
        (· / ((layer.router x).map ops.exp).sum) := by
    rw [List.map_map]
    apply List.map_congr_left
    intro e he
    unfold probs
    rw [softmaxLastDim_eq h, layer.getD_map_router _ x ((layer.topIdx_ok ops x).1 e he)]
    rfl
  unfold topVals weights
  dsimp only
  rw [hvals]
  split
  · -- the sum over all experts cancels
    rw [sum_map_div, List.map_map, List.map_map]
    apply List.map_congr_left
    intro e _
    exact div_div_div_cancel_right₀ htotal _ _
  · rw [List.map_map]
    rfl

/-- An entry of rows put one behind the other. -/
theorem flatMap_rows {α : Type} {f : V → List α} {k : Nat} (h : ∀ x, (f x).length = k) (xs : List V) {token : Nat}
    (ht : token < xs.length) {slot : Nat} (hs : slot < k) :
    (xs.flatMap f)[token * k + slot]? = (f xs[token])[slot]? := by
  have hpiece := RowMajor.getElem?_flatMap_piece f (xs.take token) xs[token] (xs.drop (token + 1)) (j := slot)
    (by rwa [h])
  have hbefore : ((xs.take token).map fun x => (f x).length).sum = token * k := by
    rw [List.map_congr_left fun x _ => h x, List.map_const', List.sum_replicate, List.length_take,
      min_eq_left ht.le]
    rfl
  rwa [hbefore, List.getElem_cons_drop, List.take_append_drop] at hpiece

theorem readback_expert (ops : RowOps R) (xs : List V) {token : Nat} (ht : token < xs.length) {slot : Nat}
    (hs : slot < layer.topK) :
    (layer.readback ops xs).expert token slot = (layer.topIdx ops xs[token]).getD slot 0 := by
  rw [List.getD_eq_getElem?_getD, ← flatMap_rows (layer.topIdx_length ops) xs ht hs,
    ← List.getD_eq_getElem?_getD]
  rfl

theorem readback_weight (ops : RowOps R) (xs : List V) {token : Nat} (ht : token < xs.length) {slot : Nat}
    (hs : slot < layer.topK) :
    (layer.readback ops xs).weight token slot = (layer.topVals ops xs[token]).getD slot 0 := by
  rw [List.getD_eq_getElem?_getD, ← flatMap_rows (layer.topVals_length ops) xs ht hs,
    ← List.getD_eq_getElem?_getD]
  rfl

/-- The router's own choice is never rejected. -/
theorem readback_ok (ops : RowOps R) (xs : List V) :
    ∀ token < xs.length, (layer.readback ops xs).RowOk layer.numExperts token := by
  intro token ht
  have hrow : (layer.readback ops xs).row token = layer.topIdx ops xs[token] := by
    rw [Readback.row_eq _ ht]
    apply List.ext_getElem
    · rw [List.length_map, List.length_range, layer.topIdx_length]
    · intro slot h₁ h₂
      rw [List.length_map, List.length_range] at h₁
      rw [List.getElem_map, List.getElem_range, layer.readback_expert ops xs ht h₁, List.getD_eq_getElem?_getD,
        List.getElem?_eq_getElem h₂]
      rfl
  unfold Readback.RowOk
  rw [hrow]
  exact layer.topIdx_ok ops xs[token]

variable [AddCommMonoid V] [Module R V]

/-- What the slots of a row add up to. -/
theorem slots_sum (ops : RowOps R) (xs : List V) {token : Nat} (ht : token < xs.length) :
    (∑ slot ∈ Finset.range layer.topK, (layer.readback ops xs).weight token slot •
      layer.experts ((layer.readback ops xs).expert token slot) (xs.getD token 0)) =
    (List.zipWith (fun w e => w • layer.experts e xs[token]) (layer.topVals ops xs[token])
      (layer.topIdx ops xs[token])).sum := by
  have hrow : xs.getD token 0 = xs[token] := by
    rw [List.getD_eq_getElem?_getD, List.getElem?_eq_getElem ht]
    rfl
  rw [← Buckets.sum_map_range]
  congr 1
  apply List.ext_getElem
  · rw [List.length_map, List.length_range, List.length_zipWith, layer.topVals_length, layer.topIdx_length, min_self]
  · intro slot h₁ h₂
    rw [List.length_map, List.length_range] at h₁
    have hvals : slot < (layer.topVals ops xs[token]).length := by rwa [layer.topVals_length]
    have hidx : slot < (layer.topIdx ops xs[token]).length := by rwa [layer.topIdx_length]
    rw [List.getElem_map, List.getElem_range, List.getElem_zipWith, layer.readback_expert ops xs ht h₁,
      layer.readback_weight ops xs ht h₁, hrow, List.getD_eq_getElem?_getD, List.getD_eq_getElem?_getD,
      List.getElem?_eq_getElem hvals, List.getElem?_eq_getElem hidx]
    rfl

/-- Either dispatch gives every row what its slots say. -/
theorem dispatch_rows (ops : RowOps R) (xs : List V) {out : List V} (hlen : out.length = xs.length)
    (hout : ∀ token < xs.length, out[token]? = some ((activeExperts (layer.readback ops xs) layer.numExperts).map
      (expertShare layer.experts xs (layer.readback ops xs) token)).sum) :
    out = xs.map fun x =>
      (List.zipWith (fun w e => w • layer.experts e x) (layer.topVals ops x) (layer.topIdx ops x)).sum := by
  apply List.ext_getElem?
  intro token
  rcases Nat.lt_or_ge token xs.length with ht | ht
  · rw [hout token ht, List.getElem?_map, List.getElem?_eq_getElem ht, Option.map_some, ← layer.slots_sum ops xs ht,
      ← sum_expertShare layer.experts layer.numExperts xs _ (layer.readback_ok ops xs) ht, activeExperts,
      Buckets.sum_filter_of_zero _ _ _ fun e _ h => expertShare_inactive layer.experts xs _ h]
  · rw [List.getElem?_eq_none (hlen.trans_le ht), List.getElem?_eq_none (by rwa [List.length_map])]

/-- The layer treats every row by itself: however many there are and whichever dispatch runs, the output at a
row is the softmax-weighted sum of its chosen experts, over their logits alone where the layer normalises. -/
theorem forward_rows [IsStrictOrderedRing R] (h : ExpLaws ops.exp) (xs : List V) :
    ∃ ran, (layer.forward ops xs).run = (.ok (xs.map (layer.rowOut ops)), ran) := by
  have hok := layer.readback_ok ops xs
  obtain ⟨out, hrun, hout⟩ : ∃ out, (layer.dispatch ops xs).run =
        (.ok out, activeExperts (layer.readback ops xs) layer.numExperts) ∧
      out = xs.map fun x =>
        (List.zipWith (fun w e => w • layer.experts e x) (layer.topVals ops x) (layer.topIdx ops x)).sum := by
    unfold dispatch
    dsimp only
    split
    · obtain ⟨out, hrun, hlen, hrows⟩ := dispatchSparse_run layer.experts xs hok
      exact ⟨out, hrun, layer.dispatch_rows ops xs hlen hrows⟩
    · obtain ⟨out, hrun, hlen, hrows⟩ := dispatchNaive_run layer.experts rfl hok
      exact ⟨out, hrun, layer.dispatch_rows ops xs hlen hrows⟩
  refine ⟨activeExperts (layer.readback ops xs) layer.numExperts, (bind_ok hrun _).trans ?_⟩
  show (Except.ok _, _) = (Except.ok _, _)
  congr 2
  unfold rowOut addShared
  rw [hout]
  rcases layer.shared with - | shared
  · dsimp only
    apply List.map_congr_left
    intro x _
    rw [layer.topVals_eq h]
  · dsimp only
    rw [broadcastMul, List.zipWith_map, List.zipWith_self, List.zipWith_map, List.zipWith_self]
    apply List.map_congr_left
    intro x _
    rw [layer.topVals_eq h]

end MoeFeedForward

end Layer

/-! ## Three experts of which two run -/

noncomputable def realOps : RowOps ℝ where
  exp := Real.exp
  argSort row := (List.range row.length).mergeSort fun i j => decide (row.getD j 0 ≤ row.getD i 0)
  perm _ := List.mergeSort_perm _ _

def threeExperts : MoeFeedForward ℝ ℝ where
  router x := [x, -x, 0]
  experts e x := e * x
  numExperts := 3
  shared := some ⟨fun x => x, fun x => x⟩
  topK := 2
  normTopk := true
  router_length _ := rfl
  topK_pos := Nat.two_pos
  topK_le := by decide

theorem forward_rows_three : ∃ ran,
    (threeExperts.forward realOps [1, 2, 3]).run = (.ok ([1, 2, 3].map (threeExperts.rowOut realOps)), ran) :=
  threeExperts.forward_rows ⟨Real.exp_pos, Real.exp_sub⟩ [1, 2, 3]

end Oxydllm.Moe
