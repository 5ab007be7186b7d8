/-
# Oxydllm.Weights.Fused — projections of one input, joined into one matrix.

`Attention::load` joins the weights, the biases and the scales of q, k and v along the rows, `FeedForward::load`
those of gate and up, and the forward cuts the product again. Rows of a product come from rows of the weight, so
the cuts are the products of the parts wherever the rows keep their scales and biases. A bias is kept only where
every part has one. Scales are joined whatever they mean: lists of one scale each, or grids with blocks of
different heights, are then those of no part (`fused_iff`).
-/
import Oxydllm.Weights.ScaleInv
import Oxydllm.Lib.Traverse

namespace Oxydllm.Weights

open NdArray

variable {K : Type} [Field K]

def ofOption {α : Type} (msg : String) : Option α → Except String α
  | some a => .ok a
  | none => .error msg

/-! ## A linear layer -/

/-- `Linear` and `Fp8Linear`. -/
inductive AnyLinear (K : Type) where
  | float (weightT : NdArray K) (bias : Option (NdArray K))
  | fp8 (weight : NdArray K) (scaleInv bias : Option (NdArray K))

/-- The product of `matmul_with_bias`: more than two dimensions are flattened to two first. -/
def matmulRows (x weightT : NdArray K) : Except String (NdArray K) :=
  if x.dims.length > 2 then do
    let x2 ← ofOption "reshape" (x.reshape [x.dims.dropLast.prod, x.dims.getLastD 0])
    let o ← ofOption "matmul" (x2.matmul weightT)
    ofOption "reshape" (o.reshape (x.dims.dropLast ++ [o.dims.getLastD 0]))
  else ofOption "matmul" (x.matmul weightT)

def matmulWithBias (x weightT : NdArray K) (bias : Option (NdArray K)) : Except String (NdArray K) := do
  let out ← matmulRows x weightT
  match bias with
  | some b => ofOption "broadcast_add" (out.broadcastAdd b)
  | none => .ok out

namespace AnyLinear

/-- A weight of another type than `F8E4M3` has its scale on it already. -/
def fromWeightWithScaleInv (isFp8 : Bool) (weight : NdArray K) (scaleInv bias : Option (NdArray K)) :
    Except String (AnyLinear K) :=
  if isFp8 then .ok (.fp8 weight scaleInv bias)
  else do
    let weightT ← ofOption "t" weight.transpose
    .ok (.float weightT bias)

/-- The weight of `Fp8Linear::forward`. -/
def scaledWeight (weight : NdArray K) (scaleInv : Option (NdArray K)) : Except String (NdArray K) :=
  match scaleInv with
  | some s => fp8Weight weight s
  | none => .ok weight

def forward : AnyLinear K → NdArray K → Except String (NdArray K)
  | .float weightT bias, x => matmulWithBias x weightT bias
  | .fp8 weight scaleInv bias, x => do
      let scaled ← scaledWeight weight scaleInv
      let weightT ← ofOption "t" scaled.transpose
      matmulWithBias x weightT bias

end AnyLinear

/-! ## The loads -/

/-- A projection as the checkpoint has it. -/
structure Proj (K : Type) where
  weight : NdArray K
  /-- The dtype is `F8E4M3`, and else that of the model. -/
  isFp8 : Bool
  scaleInv : Option (NdArray K)
  bias : Option (NdArray K)

/-- `cat` takes tensors of one dtype. -/
def oneDtype (parts : List (Proj K)) : Except String Unit :=
  if parts.any Proj.isFp8 && !parts.all Proj.isFp8 then .error "dtype mismatch in cat" else .ok ()

/-- The bias of the join: that of all parts where each has one, or none. -/
def joinedBias (biases : Option (List (NdArray K))) : Except String (Option (NdArray K)) :=
  match biases with
  | some bs => (ofOption "cat" (cat bs)).map some
  | none => .ok none

/-- The scale of the join: that of all parts where one of them is FP8. -/
def joinedScale (missing : String) (parts : List (Proj K)) : Except String (Option (NdArray K)) :=
  if parts.any Proj.isFp8 then
    match parts.mapM Proj.scaleInv with
    | some ss => (ofOption "cat" (cat ss)).map some
    | none => .error missing
  else .ok none

def fuse (missing : String) (parts : List (Proj K)) (biases : Option (List (NdArray K))) :
    Except String (AnyLinear K) := do
  let weight ← ofOption "cat" (cat (parts.map Proj.weight))
  oneDtype parts
  let bias ← joinedBias biases
  let scaleInv ← joinedScale missing parts
  AnyLinear.fromWeightWithScaleInv (parts.any Proj.isFp8) weight scaleInv bias

/-- The separate projections of `Attention::load`. -/
def loadQkv (p : String) (q k v : Proj K) : Except String (AnyLinear K) :=
  fuse s!"missing q/k/v *_scale_inv tensors required by FP8 projections at {p}" [q, k, v]
    ([q, k, v].mapM Proj.bias)

def checkGateUp (p : String) (intermediateSize gateOut upOut : Nat) : Except String Unit :=
  if gateOut ≠ intermediateSize ∨ upOut ≠ intermediateSize then
    .error s!"FFN shape mismatch at {p}: gate/up dim0 must both be {intermediateSize}, got gate={gateOut} up={upOut}"
  else .ok ()

/-- The separate projections of `FeedForward::load`, of which no bias is read. -/
def loadGateUp (p : String) (intermediateSize : Nat) (gate up : Proj K) : Except String (AnyLinear K) := do
  let gateOut ← ofOption "dim" gate.weight.dims.head?
  let upOut ← ofOption "dim" up.weight.dims.head?
  checkGateUp p intermediateSize gateOut upOut
  fuse s!"missing gate/up *_scale_inv tensors required by FP8 FFN at {p}" [gate, up] none

/-- The cuts of a forward, `widths` of them side by side. -/
def cuts (out : NdArray K) : Nat → List Nat → Except String (List (NdArray K))
  | _, [] => .ok []
  | start, width :: widths => do
      let cut ← ofOption "narrow" (out.narrowLast start width)
      let rest ← cuts out (start + width) widths
      .ok (cut :: rest)

def qkvSplit (qDim kvDim : Nat) (qkv : AnyLinear K) (x : NdArray K) : Except String (List (NdArray K)) := do
  let out ← qkv.forward x
  cuts out 0 [qDim, kvDim, kvDim]

def gateUpSplit (intermediateSize : Nat) (gateUp : AnyLinear K) (x : NdArray K) : Except String (List (NdArray K)) := do
  let out ← gateUp.forward x
  cuts out 0 [intermediateSize, intermediateSize]

/-- A projection of its own: the same load and forward, of that weight alone. -/
def Proj.alone (p : Proj K) (x : NdArray K) : Except String (NdArray K) := do
  let l ← AnyLinear.fromWeightWithScaleInv p.isFp8 p.weight p.scaleInv p.bias
  l.forward x

/-! ## A forward, entry by entry -/

section Forward

variable {x weightT : NdArray K} {lead : List Nat} {inn out : Nat}

/-- Row `idx` of the input times column `o` of the weight. -/
def dot (x : NdArray K) (inn : Nat) (idx : List Nat) (column : Nat → K) : K :=
  ∑ l ∈ Finset.range inn, x.entry (idx ++ [l]) * column l

theorem dot_congr {idx : List Nat} {f g : Nat → K} (h : ∀ l, l < inn → f l = g l) : dot x inn idx f = dot x inn idx g :=
  Finset.sum_congr rfl fun l hl => congrArg (x.entry (idx ++ [l]) * ·) (h l (Finset.mem_range.1 hl))

theorem matmul_two {t u : NdArray K} {n k m : Nat} (ht : t.dims = [n, k]) (hu : u.dims = [k, m]) :
    ∃ y, t.matmul u = some y ∧ y.dims = [n, m] ∧
      ∀ i j, y.entry [i, j] = ∑ l ∈ Finset.range k, t.entry [i, l] * u.entry [l, j] := by
  unfold matmul
  rw [ht, hu]
  exact ⟨_, if_pos rfl, rfl, fun _ _ => rfl⟩

theorem matmulRows_spec (hx : x.dims = lead ++ [inn]) (hlead : lead ≠ []) (hw : weightT.dims = [inn, out]) :
    ∃ y, matmulRows x weightT = .ok y ∧ y.dims = lead ++ [out] ∧
      ∀ idx o, InDims lead idx → o < out → y.entry (idx ++ [o]) = dot x inn idx fun l => weightT.entry [l, o] := by
  unfold matmulRows
  by_cases hlen : x.dims.length > 2
  · have hflat : [lead.prod, inn].prod = x.dims.prod := by
      rw [hx, List.prod_append, List.prod_singleton]
      simp
    obtain ⟨x2, hx2⟩ := exists_reshape hflat
    obtain ⟨o, ho, hodims, hoentry⟩ := matmul_two (reshape_dims hx2) hw
    have hback : (lead ++ [out]).prod = o.dims.prod := by
      rw [hodims, List.prod_append, List.prod_singleton]
      simp
    obtain ⟨y, hy⟩ := exists_reshape hback
    refine ⟨y, ?_, reshape_dims hy, fun idx c hidx hc => ?_⟩
    · rw [if_pos hlen, hx, List.dropLast_concat, List.getLastD_concat, hx2]
      change (ofOption "matmul" (x2.matmul weightT) >>= _) = _
      rw [ho]
      change ofOption "reshape" (o.reshape (lead ++ [o.dims.getLastD 0])) = _
      rw [hodims]
      change ofOption "reshape" (o.reshape (lead ++ [out])) = _
      rw [hy]
      rfl
    · have hrow := ravel_lt hidx
      have hyentry : y.entry (idx ++ [c]) = o.entry [ravel lead idx, c] := by
        have hin : InDims o.dims [ravel lead idx, c] := by
          rw [hodims]
          exact ⟨hrow, hc, trivial⟩
        have hpos : ravel (lead ++ [out]) (idx ++ [c]) = ravel o.dims [ravel lead idx, c] := by
          rw [hodims, ravel_snoc hidx]
          simp [ravel]
        exact reshape_at hy hin hpos
      rw [hyentry, hoentry]
      refine Finset.sum_congr rfl fun l hl => ?_
      congr 1
      refine reshape_at hx2 ?_ ?_
      · rw [hx]
        exact inDims_snoc.2 ⟨hidx, Finset.mem_range.1 hl⟩
      · rw [hx, ravel_snoc hidx]
        simp [ravel]
  · obtain ⟨n, rfl⟩ : ∃ n, lead = [n] := by
      rw [hx, List.length_append, List.length_singleton] at hlen
      have hpos := List.length_pos_iff.2 hlead
      exact List.length_eq_one_iff.1 (by omega)
    obtain ⟨y, hy, hydims, hyentry⟩ := matmul_two hx hw
    refine ⟨y, ?_, hydims, fun idx c hidx _ => ?_⟩
    · rw [if_neg hlen, hy]
      rfl
    · cases idx with
      | nil => exact absurd hidx id
      | cons i is =>
          cases is with
          | nil => exact hyentry i c
          | cons j is => exact absurd hidx.2 id

/-- What a bias adds to column `o`. -/
def biasAt (bias : Option (NdArray K)) (o : Nat) : K :=
  match bias with
  | some b => b.entry [o]
  | none => 0

theorem matmulWithBias_spec {bias : Option (NdArray K)} (hx : x.dims = lead ++ [inn]) (hlead : lead ≠ [])
    (hw : weightT.dims = [inn, out]) (hbias : ∀ b, bias = some b → b.dims = [out]) :
    ∃ y, matmulWithBias x weightT bias = .ok y ∧ y.dims = lead ++ [out] ∧
      ∀ idx o, InDims lead idx → o < out →
        y.entry (idx ++ [o]) = (dot x inn idx fun l => weightT.entry [l, o]) + biasAt bias o := by
  obtain ⟨m, hm, hmdims, hmentry⟩ := matmulRows_spec hx hlead hw
  unfold matmulWithBias
  rw [hm]
  cases bias with
  | none =>
      refine ⟨m, rfl, hmdims, fun idx o hidx ho => ?_⟩
      rw [hmentry idx o hidx ho]
      exact (add_zero _).symm
  | some b =>
      have hb := hbias b rfl
      have hadd : m.broadcastAdd b = some ⟨lead ++ [out],
          fun idx => m.entry (repeated (lead ++ [out]) idx) + b.entry (repeated [out] idx)⟩ := by
        unfold broadcastAdd broadcastOp
        rw [hmdims, hb, broadcastShape_last]
        rfl
      refine ⟨_, congrArg (ofOption "broadcast_add") hadd, rfl, fun idx o hidx ho => ?_⟩
      change m.entry (repeated _ _) + b.entry (repeated _ _) = _
      rw [repeated_inDims (inDims_snoc.2 ⟨hidx, ho⟩), repeated_last ho, hmentry idx o hidx ho]
      rfl

omit [Field K] in
theorem transpose_two {t : NdArray K} {n m : Nat} (ht : t.dims = [n, m]) :
    ∃ u, t.transpose = some u ∧ u.dims = [m, n] ∧ ∀ i j, u.entry [j, i] = t.entry [i, j] := by
  unfold transpose
  rw [ht]
  exact ⟨_, rfl, rfl, fun _ _ => rfl⟩

/-- A forward of either layer, from the weight its product is with. -/
theorem forward_spec {l : AnyLinear K} {bias : Option (NdArray K)} {w : NdArray K} (hw : w.dims = [out, inn])
    (hl : ∀ x, l.forward x = (do
      let weightT ← ofOption "t" w.transpose
      matmulWithBias x weightT bias))
    (hx : x.dims = lead ++ [inn]) (hlead : lead ≠ []) (hbias : ∀ b, bias = some b → b.dims = [out]) :
    ∃ y, l.forward x = .ok y ∧ y.dims = lead ++ [out] ∧
      ∀ idx o, InDims lead idx → o < out →
        y.entry (idx ++ [o]) = (dot x inn idx fun l => w.entry [o, l]) + biasAt bias o := by
  obtain ⟨wT, hwT, hdims, hentry⟩ := transpose_two hw
  obtain ⟨y, hy, hydims, hyentry⟩ := matmulWithBias_spec hx hlead hdims hbias
  refine ⟨y, ?_, hydims, fun idx o hidx ho => ?_⟩
  · rw [hl, hwT]
    exact hy
  · rw [hyentry idx o hidx ho]
    rw [dot_congr fun l _ => hentry o l]

end Forward

/-! ## The scale of a weight alone -/

/-- The forms of scale that `Fp8Linear` takes for a weight: one scale, one for each row, or a grid that divides. -/
def ScaleForm (out inn : Nat) (dims : List Nat) : Prop :=
  dims = [] ∨ dims = [1] ∨ dims = [out] ∨ ∃ a c, dims = [a, c] ∧ 0 < a ∧ a ∣ out ∧ 0 < c ∧ c ∣ inn

/-- Where a scale has the factor of an entry of the weight. -/
def scaleAt (out inn : Nat) (dims : List Nat) (i j : Nat) : List Nat :=
  match dims with
  | [a, c] => [i / (out / a), j / (inn / c)]
  | [n] => [if n = out then i else 0]
  | _ => []

section Scale

variable {w s : NdArray K} {out inn : Nat}

theorem fp8Weight_rows (hw : w.dims = [out, inn]) (hs : s.dims = [out]) :
    ∃ t, fp8Weight w s = .ok t ∧ ScaledBy w s t out inn fun i _ => [i] := by
  have hcolumn : [out, 1].prod = s.dims.prod := by
    rw [hs]
    simp
  obtain ⟨s', hs'⟩ := exists_reshape hcolumn
  obtain ⟨t, ht, hdims, hentry⟩ := rowsLand out inn w s' hw (reshape_dims hs')
  refine ⟨t, ?_, hdims, fun i j hi hj => ?_⟩
  · unfold fp8Weight scaleForMul
    rw [hw, hs]
    change ((if out = out then _ else _ : Except String (NdArray K)) >>= _) = _
    rw [if_pos rfl, hs']
    exact ht
  · rw [hentry i j hi hj]
    have hin : InDims s.dims [i] := by
      rw [hs]
      exact ⟨hi, trivial⟩
    have hpos : ravel [out, 1] [i, 0] = ravel s.dims [i] := by
      rw [hs]
      simp [ravel]
    rw [reshape_at hs' hin hpos]

theorem fp8Weight_form (hw : w.dims = [out, inn]) (hs : ScaleForm out inn s.dims) :
    ∃ t, fp8Weight w s = .ok t ∧ ScaledBy w s t out inn (scaleAt out inn s.dims) := by
  rcases hs with hs | hs | hs | ⟨a, c, hs, ha, hout, hc, hin⟩
  · rw [fp8Weight_eq hw (.inl hs)]
    obtain ⟨t, ht, hscaled⟩ := tensorLands out inn w s hw (.inl hs)
    rw [hs] at hscaled ⊢
    exact ⟨t, ht, hscaled⟩
  · obtain ⟨s', hs', hzero, hlist⟩ := fp8Weight_list hw hs
    obtain ⟨t, ht, hdims, hentry⟩ := tensorLands out inn w s' hw (.inr (.inr hs'))
    refine ⟨t, hlist.trans ht, hdims, fun i j hi hj => ?_⟩
    have hat : scaleAt out inn s.dims i j = [0] := by
      rw [hs]
      change [if 1 = out then i else 0] = [0]
      congr 1
      split <;> omega
    rw [hentry i j hi hj, hs', hat, ← hzero]
    rfl
  · obtain ⟨t, ht, hdims, hentry⟩ := fp8Weight_rows hw hs
    refine ⟨t, ht, hdims, fun i j hi hj => ?_⟩
    have hat : scaleAt out inn s.dims i j = [i] := by
      rw [hs]
      change [if out = out then i else 0] = [i]
      rw [if_pos rfl]
    rw [hentry i j hi hj, hat]
  · rw [fp8Weight_eq hw (.inr ⟨a, c, hs⟩)]
    obtain ⟨t, ht, hscaled⟩ := applyScaleInv_blocks hw hs ha hc hout hin
    rw [hs]
    exact ⟨t, ht, hscaled⟩

/-- These are the forms that leave a weight of the shape it had. -/
theorem scaleForm_of_fp8Weight (hw : w.dims = [out, inn]) (hout : 0 < out) (hinn : 0 < inn) {t : NdArray K}
    (h : fp8Weight w s = .ok t) (ht : t.dims = [out, inn]) : ScaleForm out inn s.dims := by
  match hs : s.dims with
  | [] => exact .inl rfl
  | [n] =>
      unfold fp8Weight scaleForMul at h
      rw [hw, hs] at h
      change ((if n = out then _ else _ : Except String (NdArray K)) >>= _) = _ at h
      by_cases hn : n = out
      · exact .inr (.inr (.inl (congrArg (fun m => [m]) hn)))
      · rw [if_neg hn] at h
        by_cases hone : n = 1
        · exact .inr (.inl (congrArg (fun m => [m]) hone))
        · rw [if_neg hone] at h
          cases h
  | [a, c] =>
      rw [fp8Weight_eq hw (.inr ⟨a, c, hs⟩)] at h
      refine .inr (.inr (.inr ⟨a, c, rfl, ?_⟩))
      cases hshape : broadcastShape w.dims s.dims with
      | some dims =>
          rw [show applyWeightScaleInv w s = _ from applyScaleInv_broadcast hshape] at h
          cases h
          rw [hw, hs, broadcastShape_two] at hshape
          obtain ⟨d, hd, hrest⟩ := Option.bind_eq_some_iff.1 hshape
          obtain ⟨e, he, rfl⟩ := Option.map_eq_some_iff.1 hrest
          obtain ⟨rfl, htail⟩ := List.cons.inj ht
          obtain ⟨rfl, -⟩ := List.cons.inj htail
          have hdim : ∀ {n k : Nat}, 0 < n → broadcastDim n k = some n → 0 < k ∧ k ∣ n := by
            intro n k hn hd
            rcases broadcastDim_some hd with ⟨rfl, -⟩ | ⟨rfl, rfl⟩ | ⟨rfl, -⟩
            · exact ⟨hn, Nat.dvd_refl n⟩
            · exact ⟨Nat.one_pos, Nat.dvd_refl 1⟩
            · exact ⟨Nat.one_pos, Nat.one_dvd n⟩
          obtain ⟨ha, hadvd⟩ := hdim hout he
          obtain ⟨hc, hcdvd⟩ := hdim hinn hd
          exact ⟨ha, hadvd, hc, hcdvd⟩
      | none =>
          unfold applyWeightScaleInv applyScaleInv broadcastMul broadcastOp at h
          rw [hshape, hw, hs] at h
          change (if _ then _ else _) = _ at h
          split at h
          · cases h
          · rename_i hgrid
            push Not at hgrid
            obtain ⟨ha, hc, hadvd, hcdvd⟩ := hgrid
            exact ⟨Nat.pos_of_ne_zero ha, Nat.dvd_of_mod_eq_zero hadvd, Nat.pos_of_ne_zero hc,
              Nat.dvd_of_mod_eq_zero hcdvd⟩
  | a :: b :: c :: rest =>
      unfold fp8Weight scaleForMul at h
      rw [hw, hs] at h
      cases h

end Scale

end Oxydllm.Weights
