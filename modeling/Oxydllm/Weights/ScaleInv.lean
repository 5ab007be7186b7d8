/-
# Oxydllm.Weights.ScaleInv — the scales of a weight, put on its blocks.

`apply_scale_inv` broadcasts a scale where it can and tiles it where its rows and columns divide those of the
weight. It is never told the size of a block: it takes the quotients. Those are the size where the last blocks are
whole, and they are not where a last block is short and the grid divides the weight all the same
(`blocks_land_iff`).
-/
import Oxydllm.Lib.NdArray

namespace Oxydllm.Weights

open NdArray

variable {K : Type} [Field K]

/-! ## The source -/

def applyScaleInv (weight scaleInv : NdArray K) : Except String (NdArray K) :=
  match weight.broadcastMul scaleInv with
  | some scaled => .ok scaled
  | none =>
      match weight.dims, scaleInv.dims with
      | [out, inn], [sOut, sIn] =>
          if sOut = 0 ∨ sIn = 0 ∨ out % sOut ≠ 0 ∨ inn % sIn ≠ 0 then
            .error s!"block-wise FP8 weight_scale_inv [{sOut}, {sIn}] does not tile weight [{out}, {inn}] evenly"
          else
            match scaleInv.reshape [sOut, 1, sIn, 1] with
            | none => .error "reshape"
            | some grid =>
                match (grid.broadcastAs [sOut, out / sOut, sIn, inn / sIn]).reshape [out, inn] with
                | none => .error "reshape"
                | some tiled => .ok ⟨[out, inn], fun idx => tiled.entry idx * weight.entry idx⟩
      | [out, inn], dims =>
          .error s!"weight_scale_inv {dims} does not broadcast onto weight [{out}, {inn}] and is not a 2-D block-scale grid"
      | _, _ => .error "dims2"

/-- The scale that `Fp8Linear::forward` puts on a weight of `outFeatures` rows. -/
def scaleForMul (outFeatures : Nat) (scaleInv : NdArray K) : Except String (NdArray K) :=
  match scaleInv.dims with
  | [_, _] => .ok scaleInv
  | [n] =>
      if n = outFeatures then
        match scaleInv.reshape [outFeatures, 1] with
        | some column => .ok column
        | none => .error "reshape"
      else if n = 1 then
        match scaleInv.reshape [1, 1] with
        | some one => .ok one
        | none => .error "reshape"
      else .error s!"invalid FP8 scale_inv shape [{n}]: expected [out_features, 1], [out_features], or scalar"
  | [] => .ok scaleInv
  | dims => .error s!"invalid FP8 scale_inv rank {dims.length}: expected rank 0, 1, or 2"

/-- The weight `Fp8Linear::forward` multiplies by. -/
def fp8Weight (weight scaleInv : NdArray K) : Except String (NdArray K) := do
  let outFeatures ← match weight.dims with
    | out :: _ => .ok out
    | [] => .error "dim"
  let scale ← scaleForMul outFeatures scaleInv
  applyScaleInv weight scale

/-- A weight of another type, as `apply_weight_scale_inv` leaves it; exact arithmetic has no casts. -/
def applyWeightScaleInv (weight scaleInv : NdArray K) : Except String (NdArray K) := applyScaleInv weight scaleInv

/-! ## What the forms mean -/

/-- `⌈n / b⌉`, the blocks of a dimension. -/
def blocks (n b : Nat) : Nat := (n + (b - 1)) / b

/-- Entry by entry, the weight times the scale at `f i j`. -/
def ScaledBy (w s t : NdArray K) (out inn : Nat) (f : Nat → Nat → List Nat) : Prop :=
  t.dims = [out, inn] ∧ ∀ i j, i < out → j < inn → t.entry [i, j] = w.entry [i, j] * s.entry (f i j)

/-- A grid of block scales is put on the blocks it was made for, or refused. -/
def GridLands (K : Type) [Field K] (out inn b : Nat) : Prop :=
  ∀ w s t : NdArray K, w.dims = [out, inn] → s.dims = [blocks out b, blocks inn b] →
    applyScaleInv w s = .ok t → ScaledBy w s t out inn fun i j => [i / b, j / b]

/-- A column of scales is put on the rows. -/
def RowsLand (K : Type) [Field K] (out inn : Nat) : Prop :=
  ∀ w s : NdArray K, w.dims = [out, inn] → s.dims = [out, 1] →
    ∃ t, applyScaleInv w s = .ok t ∧ ScaledBy w s t out inn fun i _ => [i, 0]

/-- One scale, of rank 0, 1 or 2. -/
def OneDims (dims : List Nat) : Prop := dims = [] ∨ dims = [1] ∨ dims = [1, 1]

/-- One scale is put on everything. -/
def TensorLands (K : Type) [Field K] (out inn : Nat) : Prop :=
  ∀ w s : NdArray K, w.dims = [out, inn] → OneDims s.dims →
    ∃ t, applyScaleInv w s = .ok t ∧ ScaledBy w s t out inn fun _ _ => s.dims.map fun _ => 0

/-- Of grids, columns and single scales both paths make the same weight, or none. -/
def PathsAgree (K : Type) [Field K] (out inn b : Nat) : Prop :=
  ∀ w s : NdArray K, w.dims = [out, inn] →
    s.dims = [blocks out b, blocks inn b] ∨ s.dims = [out, 1] ∨ OneDims s.dims →
    (∃ e, fp8Weight w s = .error e ∧ applyWeightScaleInv w s = .error e) ∨
      ∃ t u, fp8Weight w s = .ok t ∧ applyWeightScaleInv w s = .ok u ∧ Same t u

/-- A weight without entries; a grid that does not divide it; or whole blocks, or a single one, each way. -/
def BlocksWhole (out inn b : Nat) : Prop :=
  out = 0 ∨ inn = 0 ∨ ¬ blocks out b ∣ out ∨ ¬ blocks inn b ∣ inn ∨
    (out ≤ b ∨ b ∣ out) ∧ (inn ≤ b ∨ b ∣ inn)

/-! ## Blocks -/

section Blocks

variable {n b : Nat}

theorem blocks_pos (hb : 0 < b) (hn : 0 < n) : 0 < blocks n b := Nat.div_pos (by omega) hb

theorem blocks_zero (hb : 0 < b) : blocks 0 b = 0 := Nat.div_eq_of_lt (by omega)

theorem le_blocks_mul (hb : 0 < b) : n ≤ blocks n b * b := by
  have hlt := Nat.lt_div_mul_add (a := n + (b - 1)) hb
  unfold blocks
  omega

theorem blocks_le (hb : 0 < b) : blocks n b ≤ n := by
  cases n with
  | zero => rw [blocks_zero hb]
  | succ n =>
      refine Nat.div_le_of_le_mul ?_
      have hmul : n ≤ b * n := Nat.le_mul_of_pos_left n hb
      rw [Nat.mul_succ]
      omega

theorem blocks_one (hn : 0 < n) (hle : n ≤ b) : blocks n b = 1 :=
  Nat.div_eq_of_lt_le (by omega) (by omega)

theorem blocks_of_dvd (hb : 0 < b) {k : Nat} : blocks (b * k) b = k := by
  unfold blocks
  rw [Nat.mul_add_div hb, Nat.div_eq_of_lt (by omega), Nat.add_zero]

/-- The quotient finds the blocks exactly where they are whole or there is one. -/
theorem quotient_iff (hb : 0 < b) (hn : 0 < n) (hdvd : blocks n b ∣ n) :
    (∀ i, i < n → i / (n / blocks n b) = i / b) ↔ n ≤ b ∨ b ∣ n := by
  constructor
  · intro hall
    by_contra hnot
    obtain ⟨hgt, hndvd⟩ := not_or.1 hnot
    obtain ⟨h, hh⟩ := hdvd
    have hpos := blocks_pos hb hn
    have hquot : n / blocks n b = h := Nat.div_eq_of_eq_mul_right hpos hh
    have hhb : h ≤ b := by
      have hle := le_blocks_mul (n := n) hb
      rw [hh] at hle
      exact Nat.le_of_mul_le_mul_left (by rwa [← hh] at hle ⊢) hpos
    have hne : h ≠ b := by
      intro heq
      rw [heq, Nat.mul_comm] at hh
      exact hndvd ⟨blocks n b, hh⟩
    have hh0 : 0 < h := Nat.pos_of_ne_zero fun h0 => by
      rw [h0, Nat.mul_zero] at hh
      omega
    have hone := hall h (by omega)
    rw [hquot, Nat.div_self hh0, Nat.div_eq_of_lt (by omega)] at hone
    exact absurd hone Nat.one_ne_zero
  · rintro (hle | ⟨k, rfl⟩) i hi
    · rw [blocks_one hn hle, Nat.div_one, Nat.div_eq_of_lt hi, Nat.div_eq_of_lt (Nat.lt_of_lt_of_le hi hle)]
    · have hk : 0 < k := Nat.pos_of_ne_zero fun h0 => by
        rw [h0, Nat.mul_zero] at hn
        exact absurd hn (Nat.lt_irrefl 0)
      rw [blocks_of_dvd hb, Nat.mul_div_cancel _ hk]

end Blocks

/-! ## Scaling by blocks -/

section Scaling

variable {w s t : NdArray K} {out inn a c : Nat}

theorem scaledBy_of {f : Nat → Nat → List Nat} {g : List Nat → K}
    (hg : ∀ i j, i < out → j < inn → g [i, j] = w.entry [i, j] * s.entry (f i j)) :
    ScaledBy w s ⟨[out, inn], g⟩ out inn f := ⟨rfl, hg⟩

theorem applyScaleInv_broadcast {dims : List Nat} (h : broadcastShape w.dims s.dims = some dims) :
    applyScaleInv w s = .ok ⟨dims, fun idx => w.entry (repeated w.dims idx) * s.entry (repeated s.dims idx)⟩ := by
  unfold applyScaleInv broadcastMul broadcastOp
  rw [h]
  rfl

/-- What is broadcast from a divisor is in one block, or in as many as there are. -/
theorem div_of_broadcast {n k i : Nat} (hi : i < n) (h : k = n ∨ k = 1) :
    (if k = 1 then 0 else i) = i / (n / k) := by
  rcases h with rfl | rfl
  · have hk : 0 < k := Nat.lt_of_le_of_lt (Nat.zero_le i) hi
    rw [Nat.div_self hk, Nat.div_one]
    split <;> omega
  · rw [if_pos rfl, Nat.div_one, Nat.div_eq_of_lt hi]

/-- Two dimensions of which one divides the other line up, and then the smaller is all of it or one. -/
theorem broadcastDim_dvd {n k d : Nat} (hdvd : k ∣ n) (h : broadcastDim n k = some d) : d = n ∧ (k = n ∨ k = 1) := by
  rcases broadcastDim_some h with ⟨rfl, rfl⟩ | ⟨rfl, rfl⟩ | ⟨rfl, rfl⟩
  · exact ⟨rfl, .inl rfl⟩
  · have hone := Nat.dvd_one.1 hdvd
    exact ⟨hone, .inr hone⟩
  · exact ⟨rfl, .inr rfl⟩

/-- The grid and its tiles, which `apply_scale_inv` makes of a scale that divides the weight. -/
def Tiled (s tiled : NdArray K) (out inn a c : Nat) : Prop :=
  ∃ grid, s.reshape [a, 1, c, 1] = some grid ∧
    (grid.broadcastAs [a, out / a, c, inn / c]).reshape [out, inn] = some tiled

omit [Field K] in
theorem tiled_blocks (hs : s.dims = [a, c]) (hout : a ∣ out) (hin : c ∣ inn) :
    ∃ tiled, Tiled s tiled out inn a c ∧
      ∀ i j, i < out → j < inn → tiled.entry [i, j] = s.entry [i / (out / a), j / (inn / c)] := by
  obtain ⟨bo, rfl⟩ := hout
  obtain ⟨bi, rfl⟩ := hin
  have hgrid : [a, 1, c, 1].prod = s.dims.prod := by
    rw [hs]
    simp
  obtain ⟨grid, hgrid⟩ := exists_reshape hgrid
  have hprod : [a * bo, c * bi].prod = (grid.broadcastAs [a, a * bo / a, c, c * bi / c]).dims.prod := by
    change _ = [a, a * bo / a, c, c * bi / c].prod
    rcases Nat.eq_zero_or_pos a with rfl | ha
    · simp
    · rcases Nat.eq_zero_or_pos c with rfl | hc
      · simp
      · rw [Nat.mul_div_cancel_left _ ha, Nat.mul_div_cancel_left _ hc]
        simp only [List.prod_cons, List.prod_nil, Nat.mul_one]
        ring
  obtain ⟨tiled, htiled⟩ := exists_reshape hprod
  refine ⟨tiled, ⟨grid, hgrid, htiled⟩, fun i j hi hj => ?_⟩
  have ha : 0 < a := Nat.pos_of_ne_zero fun h => by
    rw [h, Nat.zero_mul] at hi
    exact Nat.not_lt_zero i hi
  have hc : 0 < c := Nat.pos_of_ne_zero fun h => by
    rw [h, Nat.zero_mul] at hj
    exact Nat.not_lt_zero j hj
  rw [Nat.mul_div_cancel_left _ ha, Nat.mul_div_cancel_left _ hc] at htiled ⊢
  have hbo : 0 < bo := Nat.pos_of_ne_zero fun h => by
    rw [h, Nat.mul_zero] at hi
    exact Nat.not_lt_zero i hi
  have hbi : 0 < bi := Nat.pos_of_ne_zero fun h => by
    rw [h, Nat.mul_zero] at hj
    exact Nat.not_lt_zero j hj
  have hp : i / bo < a := Nat.div_lt_of_lt_mul (by rwa [Nat.mul_comm] at hi)
  have hq : j / bi < c := Nat.div_lt_of_lt_mul (by rwa [Nat.mul_comm] at hj)
  have hin : InDims [a, bo, c, bi] [i / bo, i % bo, j / bi, j % bi] :=
    ⟨hp, Nat.mod_lt i hbo, hq, Nat.mod_lt j hbi, trivial⟩
  have hpos : ravel [a * bo, c * bi] [i, j] = ravel [a, bo, c, bi] [i / bo, i % bo, j / bi, j % bi] := by
    have hi' := Nat.div_add_mod i bo
    have hj' := Nat.div_add_mod j bi
    simp only [ravel, List.prod_cons, List.prod_nil, Nat.mul_one, Nat.add_zero]
    calc i * (c * bi) + j = (bo * (i / bo) + i % bo) * (c * bi) + (bi * (j / bi) + j % bi) := by rw [hi', hj']
      _ = _ := by ring
  rw [reshape_at htiled hin hpos]
  change grid.entry (repeated grid.dims _) = _
  rw [reshape_dims hgrid, repeated_four]
  refine reshape_at hgrid ?_ ?_
  · rw [hs]
    exact ⟨hp, hq, trivial⟩
  · rw [hs]
    rw [repeated_within hp, repeated_within hq]
    simp [ravel]

theorem applyScaleInv_tiles (hw : w.dims = [out, inn]) (hs : s.dims = [a, c])
    (hshape : broadcastShape w.dims s.dims = none) (ha : 0 < a) (hc : 0 < c) (hout : a ∣ out) (hin : c ∣ inn)
    {tiled : NdArray K} (htiled : Tiled s tiled out inn a c) :
    applyScaleInv w s = .ok ⟨[out, inn], fun idx => tiled.entry idx * w.entry idx⟩ := by
  obtain ⟨grid, hgrid, htiled⟩ := htiled
  unfold applyScaleInv broadcastMul broadcastOp
  rw [hshape, hw, hs]
  change (if _ then _ else _) = _
  rw [if_neg, hgrid]
  · change (match (grid.broadcastAs [a, out / a, c, inn / c]).reshape [out, inn] with
      | none => _
      | some tiled => _) = _
    rw [htiled]
  · rintro (h | h | h | h)
    · exact absurd h (Nat.ne_of_gt ha)
    · exact absurd h (Nat.ne_of_gt hc)
    · exact h (Nat.mod_eq_zero_of_dvd hout)
    · exact h (Nat.mod_eq_zero_of_dvd hin)

/-- A scale whose rows and columns divide those of the weight is put on blocks of the quotients. -/
theorem applyScaleInv_blocks (hw : w.dims = [out, inn]) (hs : s.dims = [a, c]) (ha : 0 < a) (hc : 0 < c)
    (hout : a ∣ out) (hin : c ∣ inn) :
    ∃ t, applyScaleInv w s = .ok t ∧ ScaledBy w s t out inn fun i j => [i / (out / a), j / (inn / c)] := by
  cases hshape : broadcastShape w.dims s.dims with
  | some dims =>
      refine ⟨_, applyScaleInv_broadcast hshape, ?_⟩
      rw [hw, hs, broadcastShape_two] at hshape
      obtain ⟨d, hd, hrest⟩ := Option.bind_eq_some_iff.1 hshape
      obtain ⟨e, he, rfl⟩ := Option.map_eq_some_iff.1 hrest
      obtain ⟨rfl, hc'⟩ := broadcastDim_dvd hin hd
      obtain ⟨rfl, ha'⟩ := broadcastDim_dvd hout he
      refine scaledBy_of fun i j hi hj => ?_
      rw [hw, hs, repeated_self hi hj, repeated_two, div_of_broadcast hi ha', div_of_broadcast hj hc']
  | none =>
      obtain ⟨t, ht, htiled⟩ := tiled_blocks hs hout hin
      refine ⟨_, applyScaleInv_tiles hw hs hshape ha hc hout hin ht, scaledBy_of fun i j hi hj => ?_⟩
      rw [htiled i j hi hj, mul_comm]

/-- Whatever comes of a scale that is no larger than the weight has the shape of the weight. -/
theorem dims_of_applyScaleInv (hw : w.dims = [out, inn]) (hs : s.dims = [a, c]) (ha : a ≤ out) (ha0 : 0 < out → 0 < a)
    (hc : c ≤ inn) (hc0 : 0 < inn → 0 < c) (h : applyScaleInv w s = .ok t) : t.dims = [out, inn] := by
  have hdim : ∀ {n k d : Nat}, k ≤ n → (0 < n → 0 < k) → broadcastDim n k = some d → d = n := by
    intro n k d hle hpos hd
    rcases broadcastDim_some hd with ⟨rfl, rfl⟩ | ⟨rfl, rfl⟩ | ⟨rfl, rfl⟩
    · rfl
    · have hk := hpos Nat.one_pos
      omega
    · rfl
  cases hshape : broadcastShape w.dims s.dims with
  | some dims =>
      rw [applyScaleInv_broadcast hshape] at h
      cases h
      rw [hw, hs, broadcastShape_two] at hshape
      obtain ⟨d, hd, hrest⟩ := Option.bind_eq_some_iff.1 hshape
      obtain ⟨e, he, rfl⟩ := Option.map_eq_some_iff.1 hrest
      rw [hdim hc hc0 hd, hdim ha ha0 he]
  | none =>
      unfold applyScaleInv broadcastMul broadcastOp at h
      rw [hshape, hw, hs] at h
      change (if _ then _ else _) = _ at h
      split at h
      · cases h
      · split at h
        · cases h
        · split at h
          · cases h
          · cases h
            rfl

/-- What does not divide the weight, and is neither all of it nor one, is refused. -/
theorem applyScaleInv_refused (hw : w.dims = [out, inn]) (hs : s.dims = [a, c])
    (hshape : broadcastShape w.dims s.dims = none) (hdvd : ¬ a ∣ out ∨ ¬ c ∣ inn) :
    ∃ e, applyScaleInv w s = .error e := by
  unfold applyScaleInv broadcastMul broadcastOp
  rw [hshape, hw, hs]
  refine ⟨_, if_pos ?_⟩
  rcases hdvd with h | h
  · exact .inr (.inr (.inl fun h0 => h (Nat.dvd_of_mod_eq_zero h0)))
  · exact .inr (.inr (.inr fun h0 => h (Nat.dvd_of_mod_eq_zero h0)))

/-- What can be broadcast divides. -/
theorem dvd_of_broadcast {n k d : Nat} (hle : k ≤ n) (h : broadcastDim n k = some d) (hn : 0 < n) (hk : 0 < k) : k ∣ n := by
  rcases broadcastDim_some h with ⟨rfl, -⟩ | ⟨rfl, -⟩ | ⟨rfl, -⟩
  · exact Nat.dvd_refl _
  · rw [Nat.le_antisymm hle hk]
  · exact Nat.one_dvd n

end Scaling

/-! ## The forms -/

section Forms

variable {out inn b : Nat}

/-- A grid that lands, or is refused, where its blocks are whole or do not divide. -/
theorem gridLands_of_whole (hb : 0 < b) (h : BlocksWhole out inn b) : GridLands K out inn b := by
  intro w s t hw hs ht
  have hdims := dims_of_applyScaleInv hw hs (blocks_le hb) (blocks_pos hb) (blocks_le hb) (blocks_pos hb) ht
  refine ⟨hdims, fun i j hi hj => ?_⟩
  have hout : 0 < out := by omega
  have hinn : 0 < inn := by omega
  by_cases hdvd : blocks out b ∣ out ∧ blocks inn b ∣ inn
  · obtain ⟨t', ht', -, hscaled⟩ :=
      applyScaleInv_blocks hw hs (blocks_pos hb hout) (blocks_pos hb hinn) hdvd.1 hdvd.2
    cases ht.symm.trans ht'
    rcases h with h | h | h | h | ⟨hwhole, hwhole'⟩
    · omega
    · omega
    · exact absurd hdvd.1 h
    · exact absurd hdvd.2 h
    · have hentry : t.entry [i, j] =
          w.entry [i, j] * s.entry [i / (out / blocks out b), j / (inn / blocks inn b)] := hscaled i j hi hj
      rw [(quotient_iff hb hout hdvd.1).2 hwhole i hi, (quotient_iff hb hinn hdvd.2).2 hwhole' j hj] at hentry
      exact hentry
  · cases hshape : broadcastShape w.dims s.dims with
    | none =>
        obtain ⟨e, he⟩ := applyScaleInv_refused hw hs hshape (not_and_or.1 hdvd)
        rw [he] at ht
        cases ht
    | some dims =>
        rw [hw, hs, broadcastShape_two] at hshape
        obtain ⟨d, hd, hrest⟩ := Option.bind_eq_some_iff.1 hshape
        obtain ⟨e, he, -⟩ := Option.map_eq_some_iff.1 hrest
        exact absurd ⟨dvd_of_broadcast (blocks_le hb) he hout (blocks_pos hb hout),
          dvd_of_broadcast (blocks_le hb) hd hinn (blocks_pos hb hinn)⟩ hdvd

theorem whole_of_gridLands (hb : 0 < b) (h : GridLands K out inn b) : BlocksWhole out inn b := by
  by_contra hnot
  unfold BlocksWhole at hnot
  push Not at hnot
  obtain ⟨hout, hinn, hdvd, hdvd', hshort⟩ := hnot
  have hout := Nat.pos_of_ne_zero hout
  have hinn := Nat.pos_of_ne_zero hinn
  have hall : ∀ i j, i < out → j < inn →
      [i / (out / blocks out b), j / (inn / blocks inn b)] = [i / b, j / b] := by
    intro i j hi hj
    -- one entry of the grid is one, and the entry of the weight is scaled by it
    have hlands := h ⟨[out, inn], fun _ => 1⟩ ⟨[blocks out b, blocks inn b], fun idx =>
      if idx = [i / (out / blocks out b), j / (inn / blocks inn b)] then 1 else 0⟩
    obtain ⟨t, ht, -, hscaled⟩ := applyScaleInv_blocks (K := K) (w := ⟨[out, inn], fun _ => 1⟩)
      (s := ⟨[blocks out b, blocks inn b], fun idx =>
        if idx = [i / (out / blocks out b), j / (inn / blocks inn b)] then 1 else 0⟩)
      rfl rfl (blocks_pos hb hout) (blocks_pos hb hinn) hdvd hdvd'
    have hland := (hlands t rfl rfl ht).2 i j hi hj
    rw [hscaled i j hi hj] at hland
    by_contra hne
    simp only [if_true, mul_one, one_mul] at hland
    rw [if_neg (Ne.symm hne)] at hland
    exact one_ne_zero hland
  have hwhole : out ≤ b ∨ b ∣ out := (quotient_iff hb hout hdvd).1 fun i hi => (List.cons.inj (hall i 0 hi hinn)).1
  have hwhole' : inn ≤ b ∨ b ∣ inn :=
    (quotient_iff hb hinn hdvd').1 fun j hj => (List.cons.inj (List.cons.inj (hall 0 j hout hj)).2).1
  obtain ⟨hgt, hndvd⟩ := hshort hwhole
  exact hwhole'.elim (fun hle => absurd hgt (Nat.not_lt.2 hle)) hndvd

theorem rowsLand (out inn : Nat) : RowsLand K out inn := by
  intro w s hw hs
  have hshape : broadcastShape w.dims s.dims = some [out, inn] := by
    rw [hw, hs, broadcastShape_two, broadcastDim_one, broadcastDim_self]
    rfl
  refine ⟨_, applyScaleInv_broadcast hshape, scaledBy_of fun i j hi hj => ?_⟩
  rw [hw, hs, repeated_self hi hj, repeated_two, repeated_within hi, if_pos rfl]

theorem broadcastShape_one {dims : List Nat} (h : OneDims dims) : broadcastShape [out, inn] dims = some [out, inn] := by
  rcases h with rfl | rfl | rfl
  · rfl
  · change ((broadcastDim inn 1).bind fun d => (some [out]).map (d :: ·)).map _ = _
    rw [broadcastDim_one]
    rfl
  · rw [broadcastShape_two, broadcastDim_one, broadcastDim_one]
    rfl

theorem repeated_one {dims : List Nat} (h : OneDims dims) (i j : Nat) : repeated dims [i, j] = dims.map fun _ => 0 := by
  rcases h with rfl | rfl | rfl <;> rfl

theorem tensorLands (out inn : Nat) : TensorLands K out inn := by
  intro w s hw hs
  have hshape : broadcastShape w.dims s.dims = some [out, inn] := by
    rw [hw]
    exact broadcastShape_one hs
  refine ⟨_, applyScaleInv_broadcast hshape, scaledBy_of fun i j hi hj => ?_⟩
  rw [hw, repeated_self hi hj, repeated_one hs]

/-- Of a matrix or a scalar `Fp8Linear` makes what the other path makes. -/
theorem fp8Weight_eq {w s : NdArray K} (hw : w.dims = [out, inn]) (hs : s.dims = [] ∨ ∃ a c, s.dims = [a, c]) :
    fp8Weight w s = applyWeightScaleInv w s := by
  unfold fp8Weight scaleForMul
  rw [hw]
  rcases hs with hs | ⟨a, c, hs⟩
  · rw [hs]
    rfl
  · rw [hs]
    rfl

/-- Of one scale in a list, it makes a matrix first. -/
theorem fp8Weight_list {w s : NdArray K} (hw : w.dims = [out, inn]) (hs : s.dims = [1]) :
    ∃ s', s'.dims = [1, 1] ∧ s'.entry [0, 0] = s.entry [0] ∧ fp8Weight w s = applyScaleInv w s' := by
  obtain ⟨s', hs'⟩ : ∃ s', s.reshape [1, 1] = some s' := exists_reshape (by rw [hs]; rfl)
  refine ⟨s', reshape_dims hs', reshape_at hs' ?_ ?_, ?_⟩
  · rw [hs]
    exact ⟨Nat.one_pos, trivial⟩
  · rw [hs]
    rfl
  · unfold fp8Weight scaleForMul
    rw [hw, hs]
    change ((if 1 = out then _ else _ : Except String (NdArray K)) >>= _) = _
    by_cases hout : 1 = out
    · subst hout
      rw [if_pos rfl, hs']
      rfl
    · rw [if_neg hout, if_pos rfl, hs']
      rfl

theorem same_of_scaledBy {w s s' t u : NdArray K} {f g : Nat → Nat → List Nat} (ht : ScaledBy w s t out inn f)
    (hu : ScaledBy w s' u out inn g) (heq : ∀ i j, s.entry (f i j) = s'.entry (g i j)) : Same t u := by
  refine ⟨ht.1.trans hu.1.symm, fun idx hidx => ?_⟩
  rw [ht.1] at hidx
  obtain ⟨i, j, rfl, hi, hj⟩ := exists_of_inDims_two hidx
  rw [ht.2 i j hi hj, hu.2 i j hi hj, heq]

theorem pathsAgree (out inn b : Nat) : PathsAgree K out inn b := by
  intro w s hw hs
  have hagree : s.dims = [] ∨ (∃ a c, s.dims = [a, c]) →
      (∃ e, fp8Weight w s = .error e ∧ applyWeightScaleInv w s = .error e) ∨
        ∃ t u, fp8Weight w s = .ok t ∧ applyWeightScaleInv w s = .ok u ∧ Same t u := by
    intro hform
    rw [fp8Weight_eq hw hform]
    cases h : applyWeightScaleInv w s with
    | error e => exact .inl ⟨e, rfl, rfl⟩
    | ok t => exact .inr ⟨t, t, rfl, rfl, Same.refl t⟩
  rcases hs with hs | hs | hs | hs | hs
  · exact hagree (.inr ⟨_, _, hs⟩)
  · exact hagree (.inr ⟨_, _, hs⟩)
  · exact hagree (.inl hs)
  · obtain ⟨s', hs', hzero, hlist⟩ := fp8Weight_list hw hs
    obtain ⟨t, ht, htscaled⟩ := tensorLands out inn w s' hw (.inr (.inr hs'))
    obtain ⟨u, hu, huscaled⟩ := tensorLands out inn w s hw (.inr (.inl hs))
    refine .inr ⟨t, u, hlist.trans ht, hu, same_of_scaledBy htscaled huscaled fun _ _ => ?_⟩
    rw [hs', hs]
    exact hzero
  · exact hagree (.inr ⟨_, _, hs⟩)

/-- Block scales land on their blocks, or are refused, exactly where the last blocks are whole or the grid does
not divide the weight; columns and single scales always land, and both paths make the same of all of them. -/
theorem blocks_land_iff (hb : 0 < b) :
    (GridLands K out inn b ∧ RowsLand K out inn ∧ TensorLands K out inn ∧ PathsAgree K out inn b) ↔
      BlocksWhole out inn b :=
  ⟨fun h => whole_of_gridLands hb h.1,
    fun h => ⟨gridLands_of_whole hb h, rowsLand out inn, tensorLands out inn, pathsAgree out inn b⟩⟩

/-- Two blocks by three, all of them whole. -/
theorem blocks_land_whole :
    0 < 128 ∧ ((GridLands ℚ 256 384 128 ∧ RowsLand ℚ 256 384 ∧ TensorLands ℚ 256 384 ∧ PathsAgree ℚ 256 384 128) ↔
      BlocksWhole 256 384 128) := ⟨by decide, blocks_land_iff (by decide)⟩

/-- Six rows in blocks of four: the fourth row is scaled by the second block. -/
theorem short_block_missed :
    ¬ (GridLands ℚ 6 4 4 ∧ RowsLand ℚ 6 4 ∧ TensorLands ℚ 6 4 ∧ PathsAgree ℚ 6 4 4) := by
  rintro ⟨hgrid, -⟩
  have hentry := (hgrid ⟨[6, 4], fun _ => 1⟩ ⟨[2, 1], fun idx => if idx = [0, 0] then 2 else 3⟩ _ rfl rfl rfl).2 3 0
    (by decide) (by decide)
  revert hentry
  decide +kernel

end Forms

end Oxydllm.Weights
