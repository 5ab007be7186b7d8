/-
# Oxydllm.Quant.PackedLinear — a linear layer over packed weights (`PackedQuantLinear`).

A decode step takes the fused product in chunks of at most eight rows, and so does the projection to the vocabulary in
a prefill. A row then has the output it has alone, bit by bit, whatever rows are beside it, how they fall into chunks
and how the threads are scheduled (`forward_row_alone`).
-/
import Oxydllm.Quant.Gemv

namespace Oxydllm.Quant

open Barrier RowMajor

variable {F O : Type}

/-- `phase::Phase`. -/
inductive Phase
  | prefill
  | decode
  deriving DecidableEq

structure PackedQuantLinear (F O : Type) where
  qweight : Tensor Int
  qzeros : Tensor Int
  scales : Tensor F
  bias : Option (Tensor O)
  inFeatures : Nat
  outFeatures : Nat
  bits : Nat
  packDim : PackDim
  outDtype : DType

namespace PackedQuantLinear

/-- `PackedQuantLinear::new`; `cast` rounds a scale to `dtype`. -/
def new (cast : F → F) (raw : QuantWeight F) (bias : Option (Tensor O)) (dtype : DType) :
    Result (PackedQuantLinear F O) := do
  let bits := raw.bits
  ensure (bits = 4 ∨ bits = 8) (.bail s!"PackedQuantLinear: bits must be 4 or 8, got {bits}")
  let qzeros ← required raw.qzeros (.bail "PackedQuantLinear: qzeros missing")
  let packFactor := 32 / bits
  let (qwDim0, qwDim1) ← raw.qweight.dims2 .candle
  let features := match raw.packDim with
    | .out => (qwDim0, qwDim1 * packFactor)
    | .in => (qwDim0 * packFactor, qwDim1)
  let (_, scalesOut) ← raw.scales.dims2 .candle
  let derived := features.2
  ensure (scalesOut = derived)
    (.bail s!"PackedQuantLinear: scales out_features {scalesOut} != derived {derived}")
  return { qweight := raw.qweight
           qzeros := qzeros
           scales := ⟨dtype, raw.scales.dims, raw.scales.data.map cast, by rw [List.length_map]; exact raw.scales.filled⟩
           bias := bias
           inFeatures := features.1
           outFeatures := features.2
           bits := bits
           packDim := raw.packDim
           outDtype := dtype }

variable (fl : Floats F) (store : F → O) (layer : PackedQuantLinear F O)

def withOutDtype (outDtype : DType) : PackedQuantLinear F O := { layer with outDtype := outDtype }

def gemvMaxM : Nat :=
  match layer.packDim with
  | .out => 16
  | .in => 32

/-- Whether a forward of `m` rows takes the fused product. -/
def takesGemv (phase : Option Phase) (m : Nat) : Prop :=
  if phase = some .prefill then layer.outDtype = .f32 else m ≤ layer.gemvMaxM

/-- What the product of the rows of `x` may be. -/
def Gemv (x : Tensor F) (after : Nat → O) : Prop :=
  match layer.packDim with
  | .out => W4A16Matmul.Answers fl store ⟨layer.qweight, layer.qzeros, layer.scales, layer.bits⟩
      (layer.outDtype == .f32) x after
  | .in => GptqMatmul.Answers fl store ⟨layer.qweight, layer.qzeros, layer.scales, layer.bits⟩
      (layer.outDtype == .f32) x after

/-- `narrow(0, row, rows)` of the rows of an input. -/
def narrowRows (x : Tensor F) (width row rows : Nat) : Result (Tensor F) :=
  if h : ((x.data.drop (row * width)).take (rows * width)).length = [rows, width].prod then
    .ok ⟨x.dtype, [rows, width], (x.data.drop (row * width)).take (rows * width), h⟩
  else .error .candle

/-- The chunks of at most eight rows, from `row` on: where one begins and how many it has. -/
def chunkRows (m : Nat) : Nat → Nat → List (Nat × Nat)
  | 0, _ => []
  | fuel + 1, row =>
      if row < m then (row, min (m - row) 8) :: chunkRows m fuel (row + min (m - row) 8) else []

/-- A chunk and its part of the output. -/
def ChunkGemv (x : Tensor F) (chunk : Nat × Nat) (part : List O) : Prop :=
  ∃ xc after, narrowRows x layer.inFeatures chunk.1 chunk.2 = .ok xc ∧ layer.Gemv fl store xc after ∧
    part = (List.range (chunk.2 * layer.outFeatures)).map after

/-- `chunked_batch_gemv`. -/
def ChunkedBatchGemv (x : Tensor F) (m : Nat) (y : List O) : Prop :=
  ∃ parts, List.Forall₂ (layer.ChunkGemv fl store x) (if m ≤ 8 then [(0, m)] else chunkRows m m 0) parts ∧
    y = parts.flatten

/-- `broadcast_add` of the bias, if there is one. -/
def addBias (add : O → O → O) (y : List O) : Result (List O) :=
  match layer.bias with
  | none => .ok y
  | some b =>
      if b.dims = [layer.outFeatures] then
        .ok (y.zipIdx.map fun p => add p.1 (b.data.getD (p.2 % layer.outFeatures) p.1))
      else .error .candle

/-- The rows of an input. -/
def rowsOf (x : Tensor F) : Nat := x.dims.dropLast.prod

/-- What `forward` may answer where it takes the fused product. -/
def Forwards (add : O → O → O) (phase : Option Phase) (x : Tensor F) (out : List O) : Prop :=
  x.dims.getLast? = some layer.inFeatures ∧ layer.takesGemv phase (rowsOf x) ∧
    ∃ y, layer.ChunkedBatchGemv fl store x (rowsOf x) y ∧ layer.addBias add y = .ok out

/-! ## A row -/

/-- The shape every launch finds. -/
def awqShape : AwqShape :=
  ⟨layer.inFeatures, layer.outFeatures, layer.inFeatures / layer.scales.dims.headD 0, layer.qweight.dims.getD 1 0⟩

def gptqShape : GptqShape :=
  ⟨layer.inFeatures, layer.outFeatures, layer.inFeatures / layer.scales.dims.headD 0, layer.qweight.dims.headD 0⟩

def weights : Packed F := ⟨word layer.qweight, word layer.qzeros, layer.scales.buffer fl⟩

/-- What a row has in column `o`, before it is stored. -/
def column (row : Nat → F) (o : Nat) : F :=
  match layer.packDim with
  | .out => layer.awqShape.column fl layer.bits (layer.weights fl) row o
  | .in => layer.gptqShape.column fl layer.bits (layer.weights fl) row o

end PackedQuantLinear

/-! ## What a share reads -/

theorem mem_splitInputs {inFeatures chunk ks i : Nat} (h : i ∈ splitInputs inFeatures chunk ks) : i < inFeatures := by
  obtain ⟨hle, hlt⟩ := List.mem_range'_1.1 h
  omega

theorem AwqShape.column_congr {fl : Floats F} {s : AwqShape} {bits : Nat} {w : Packed F} {row row' : Nat → F}
    (h : ∀ i < s.inFeatures, row i = row' i) (o : Nat) : s.column fl bits w row o = s.column fl bits w row' o := by
  unfold AwqShape.column
  refine sumSplits_congr fun ks _ => ?_
  unfold awqShare
  by_cases hguard : o / (32 / bits) < (s.params 1 false).packedOut ∧ ks < (s.params 1 false).kSplits
  · rw [if_pos hguard, if_pos hguard]
    exact List.foldl_ext _ _ _ fun a i hi => by rw [h i (mem_splitInputs hi)]
  · rw [if_neg hguard, if_neg hguard]

theorem mem_splitWords {s : GptqShape} {bits m ks iw : Nat} {outF32 : Bool} (hbits : bits = 4 ∨ bits = 8)
    (hpacked : s.inFeatures = s.packedIn * (32 / bits)) (h : iw ∈ splitWords bits (s.params bits m outF32) ks) :
    iw < s.packedIn := by
  have hword : 0 < 32 / bits := by rcases hbits with rfl | rfl <;> decide
  obtain ⟨hle, hlt⟩ := List.mem_range'_1.1 h
  have hend : (min (ks * (s.params bits m outF32).chunk + (s.params bits m outF32).chunk) s.inFeatures + 32 / bits - 1) /
      (32 / bits) ≤ s.packedIn := by
    refine Nat.le_of_lt_succ (Nat.div_lt_of_lt_mul ?_)
    have hmin := Nat.min_le_right (ks * (s.params bits m outF32).chunk + (s.params bits m outF32).chunk) s.inFeatures
    rw [hpacked] at hmin ⊢
    rw [Nat.mul_succ, Nat.mul_comm (32 / bits)]
    omega
  have hfeatures : (s.params bits m outF32).inFeatures = s.inFeatures := rfl
  rw [hfeatures] at hlt
  omega

theorem GptqShape.column_congr {fl : Floats F} {s : GptqShape} {bits : Nat} {w : Packed F} {row row' : Nat → F}
    (hbits : bits = 4 ∨ bits = 8) (hpacked : s.inFeatures = s.packedIn * (32 / bits))
    (h : ∀ i < s.inFeatures, row i = row' i) (o : Nat) : s.column fl bits w row o = s.column fl bits w row' o := by
  unfold GptqShape.column
  refine sumSplits_congr fun ks _ => ?_
  unfold gptqShare
  by_cases hguard : o < (s.params bits 1 false).outFeatures ∧ ks < (s.params bits 1 false).kSplits
  · rw [if_pos hguard, if_pos hguard]
    refine List.foldl_ext _ _ _ fun a iw hiw => ?_
    congr 1
    unfold gptqWord
    refine List.foldl_ext _ _ _ fun b k hk => ?_
    have hin : 0 * (s.params bits 1 false).inFeatures + iw * (32 / bits) + k < s.inFeatures := by
      have hle : (iw + 1) * (32 / bits) ≤ s.packedIn * (32 / bits) :=
        Nat.mul_le_mul_right _ (mem_splitWords hbits hpacked hiw)
      have hk := List.mem_range.1 hk
      rw [Nat.succ_mul] at hle
      rw [Nat.zero_mul, hpacked]
      omega
    rw [h _ hin]
  · rw [if_neg hguard, if_neg hguard]

namespace PackedQuantLinear

variable {fl : Floats F} {store : F → O} {layer : PackedQuantLinear F O} {x : Tensor F}

/-! ## Layers -/

/-- What `new` lets through. -/
structure WellFormed (layer : PackedQuantLinear F O) : Prop where
  bits : layer.bits = 4 ∨ layer.bits = 8
  scales : ∃ groups, layer.scales.dims = [groups, layer.outFeatures]
  awq : layer.packDim = .out → ∃ p, layer.qweight.dims = [layer.inFeatures, p]
  gptq : layer.packDim = .in → ∃ p, layer.qweight.dims = [p, layer.outFeatures] ∧ layer.inFeatures = p * (32 / layer.bits)

theorem wellFormed_of_new {cast : F → F} {raw : QuantWeight F} {bias : Option (Tensor O)} {dtype : DType}
    (h : new cast raw bias dtype = .ok layer) : WellFormed layer := by
  unfold new at h
  obtain ⟨_, hbits, h⟩ := Traverse.bind_eq_ok.1 h
  obtain ⟨z, -, h⟩ := Traverse.bind_eq_ok.1 h
  obtain ⟨⟨d0, d1⟩, hq, h⟩ := Traverse.bind_eq_ok.1 h
  obtain ⟨⟨groups, scalesOut⟩, hs, h⟩ := Traverse.bind_eq_ok.1 h
  obtain ⟨_, hout, h⟩ := Traverse.bind_eq_ok.1 h
  have hout := ensure_eq_ok.1 hout
  have hsdims := W4A16Matmul.dims2_eq_ok.1 hs
  have hqdims := W4A16Matmul.dims2_eq_ok.1 hq
  obtain rfl := Except.ok.inj h
  refine ⟨ensure_eq_ok.1 hbits, ⟨groups, hsdims.trans (by rw [hout])⟩, fun hdim => ⟨d1, ?_⟩, fun hdim => ⟨d0, ?_, ?_⟩⟩
  · have hdim : raw.packDim = .out := hdim
    show raw.qweight.dims = _
    rw [hqdims, hdim]
  · have hdim : raw.packDim = .in := hdim
    show raw.qweight.dims = _
    rw [hqdims, hdim]
  · have hdim : raw.packDim = .in := hdim
    dsimp only
    rw [hdim]

/-- What `new` keeps of the weight. -/
structure Of (cast : F → F) (raw : QuantWeight F) (bias : Option (Tensor O)) (layer : PackedQuantLinear F O) : Prop where
  qweight : layer.qweight = raw.qweight
  qzeros : raw.qzeros = some layer.qzeros
  scales : layer.scales.dims = raw.scales.dims ∧ layer.scales.data = raw.scales.data.map cast
  bias : layer.bias = bias
  bits : layer.bits = raw.bits
  packDim : layer.packDim = raw.packDim
  features : layer.packDim = .out → ∃ p, layer.outFeatures = p * (32 / layer.bits) ∧
    layer.qweight.dims = [layer.inFeatures, p]

theorem of_new {cast : F → F} {raw : QuantWeight F} {bias : Option (Tensor O)} {dtype : DType}
    (h : new cast raw bias dtype = .ok layer) : Of cast raw bias layer := by
  unfold new at h
  obtain ⟨_, -, h⟩ := Traverse.bind_eq_ok.1 h
  obtain ⟨z, hz, h⟩ := Traverse.bind_eq_ok.1 h
  obtain ⟨⟨d0, d1⟩, hq, h⟩ := Traverse.bind_eq_ok.1 h
  obtain ⟨⟨groups, scalesOut⟩, -, h⟩ := Traverse.bind_eq_ok.1 h
  obtain ⟨_, -, h⟩ := Traverse.bind_eq_ok.1 h
  have hqdims := W4A16Matmul.dims2_eq_ok.1 hq
  obtain rfl := Except.ok.inj h
  refine ⟨rfl, required_eq_ok.1 hz, ⟨rfl, rfl⟩, rfl, rfl, rfl, fun hdim => ⟨d1, ?_, ?_⟩⟩
  · have hdim : raw.packDim = .out := hdim
    dsimp only
    rw [hdim]
  · have hdim : raw.packDim = .out := hdim
    show raw.qweight.dims = _
    rw [hqdims, hdim]

theorem wellFormed_withOutDtype (h : WellFormed layer) (outDtype : DType) : WellFormed (layer.withOutDtype outDtype) :=
  ⟨h.bits, h.scales, h.awq, h.gptq⟩

theorem column_congr (hwf : WellFormed layer) {row row' : Nat → F} (h : ∀ i < layer.inFeatures, row i = row' i) (o : Nat) :
    layer.column fl row o = layer.column fl row' o := by
  unfold column
  rcases hdim : layer.packDim with - | -
  · exact AwqShape.column_congr h o
  · obtain ⟨p, hq, hin⟩ := hwf.gptq hdim
    have hpacked : layer.gptqShape.packedIn = p := by
      show layer.qweight.dims.headD 0 = p
      rw [hq]
      rfl
    exact GptqShape.column_congr hwf.bits (by rw [hpacked]; exact hin) h o

theorem awqShape_of_fits (hwf : WellFormed layer) (hdim : layer.packDim = .out) {m : Nat} {s : AwqShape}
    (h : W4A16Matmul.Fits ⟨layer.qweight, layer.qzeros, layer.scales, layer.bits⟩ x m s) : layer.awqShape = s := by
  obtain ⟨groups, hscales⟩ := hwf.scales
  obtain ⟨p, hq⟩ := hwf.awq hdim
  obtain ⟨groups', -, -, hgs, hs, -⟩ := h.groups
  have hin : layer.inFeatures = s.inFeatures ∧ p = s.packedOut := by
    have hqq := hq.symm.trans h.qweight
    simp only [List.cons.injEq, and_true] at hqq
    exact hqq
  have hgo : groups = groups' ∧ layer.outFeatures = s.outFeatures := by
    have hss := hscales.symm.trans hs
    simp only [List.cons.injEq, and_true] at hss
    exact hss
  have hsize : layer.inFeatures / layer.scales.dims.headD 0 = s.groupSize := by
    rw [hscales, hgs, ← hin.1, ← hgo.1]
    rfl
  have hpo : layer.qweight.dims.getD 1 0 = s.packedOut := by
    rw [hq]
    exact hin.2
  exact AwqShape.ext hin.1 hgo.2 hsize hpo

theorem gptqShape_of_fits (hwf : WellFormed layer) (hdim : layer.packDim = .in) {m : Nat} {s : GptqShape}
    (h : GptqMatmul.Fits ⟨layer.qweight, layer.qzeros, layer.scales, layer.bits⟩ x m s) : layer.gptqShape = s := by
  obtain ⟨groups, hscales⟩ := hwf.scales
  obtain ⟨p, hq, hin⟩ := hwf.gptq hdim
  obtain ⟨groups', -, -, hgs, hs, -⟩ := h.groups
  have hpo : p = s.packedIn ∧ layer.outFeatures = s.outFeatures := by
    have hqq := hq.symm.trans h.qweight
    simp only [List.cons.injEq, and_true] at hqq
    exact hqq
  have hgo : groups = groups' := (List.cons.inj (hscales.symm.trans hs)).1
  have hsin : layer.inFeatures = s.inFeatures := by
    rw [hin, hpo.1]
    exact h.packed.symm
  have hsize : layer.inFeatures / layer.scales.dims.headD 0 = s.groupSize := by
    rw [hscales, hgs, ← hsin, ← hgo]
    rfl
  have hpi : layer.qweight.dims.headD 0 = s.packedIn := by
    rw [hq]
    exact hpo.1
  exact GptqShape.ext hsin hpo.2 hsize hpi

/-- The rows of a launch. -/
theorem gemv_row (hwf : WellFormed layer) {after : Nat → O} (h : layer.Gemv fl store x after) {m : Nat}
    (hdims : x.dims = [m, layer.inFeatures]) {r o : Nat} (hr : r < m) (ho : o < layer.outFeatures) :
    after (r * layer.outFeatures + o) = store (layer.column fl (inputRow fl x layer.inFeatures r) o) := by
  unfold Gemv at h
  unfold column
  rcases hdim : layer.packDim with - | -
  · rw [hdim] at h
    obtain ⟨m', s, hfits, hrow⟩ := W4A16Matmul.answers_row h
    have hm : m = m' := (List.cons.inj (hdims.symm.trans hfits.dims)).1
    subst hm
    rw [← awqShape_of_fits hwf hdim hfits] at hrow
    exact hrow r hr o ho
  · rw [hdim] at h
    obtain ⟨m', s, hfits, hrow⟩ := GptqMatmul.answers_row h
    have hm : m = m' := (List.cons.inj (hdims.symm.trans hfits.dims)).1
    subst hm
    rw [← gptqShape_of_fits hwf hdim hfits] at hrow
    exact hrow r hr o ho

/-! ## Chunks -/

theorem narrowRows_row {width row rows : Nat} {xc : Tensor F} (h : narrowRows x width row rows = .ok xc) :
    xc.dims = [rows, width] ∧
      ∀ r < rows, ∀ i < width, inputRow fl xc width r i = inputRow fl x width (row + r) i := by
  unfold narrowRows at h
  by_cases hlen : ((x.data.drop (row * width)).take (rows * width)).length = [rows, width].prod
  · rw [dif_pos hlen] at h
    obtain rfl := Except.ok.inj h
    refine ⟨rfl, fun r hr i hi => ?_⟩
    have hlt : r * width + i < rows * width := by
      have hle : (r + 1) * width ≤ rows * width := Nat.mul_le_mul_right width hr
      rw [Nat.succ_mul] at hle
      omega
    show ((x.data.drop (row * width)).take (rows * width)).getD (r * width + i) fl.zero =
      x.data.getD ((row + r) * width + i) fl.zero
    rw [List.getD_eq_getElem?_getD, List.getElem?_take_of_lt hlt, List.getElem?_drop, List.getD_eq_getElem?_getD,
      Nat.add_mul, Nat.add_assoc]
  · rw [dif_neg hlen] at h
    exact absurd h nofun

theorem chunk_row (hwf : WellFormed layer) {chunk : Nat × Nat} {part : List O} (h : layer.ChunkGemv fl store x chunk part)
    {r o : Nat} (hr : r < chunk.2) (ho : o < layer.outFeatures) :
    part[r * layer.outFeatures + o]? =
      some (store (layer.column fl (inputRow fl x layer.inFeatures (chunk.1 + r)) o)) := by
  obtain ⟨xc, after, hxc, hgemv, rfl⟩ := h
  obtain ⟨hdims, hrows⟩ := @narrowRows_row F fl x _ _ _ _ hxc
  have hlt : r * layer.outFeatures + o < chunk.2 * layer.outFeatures := by
    have hle : (r + 1) * layer.outFeatures ≤ chunk.2 * layer.outFeatures := Nat.mul_le_mul_right _ hr
    rw [Nat.succ_mul] at hle
    omega
  rw [List.getElem?_map, List.getElem?_range hlt, Option.map_some, gemv_row hwf hgemv hdims hr ho]
  exact congrArg (fun v => some (store v)) (column_congr hwf (hrows r hr) o)

/-- The rows of the chunks from `row` on. -/
theorem chunks_row (hwf : WellFormed layer) {m fuel row : Nat} (hfuel : m ≤ row + fuel) {parts : List (List O)}
    (h : List.Forall₂ (layer.ChunkGemv fl store x) (chunkRows m fuel row) parts) {r o : Nat} (hr : row + r < m)
    (ho : o < layer.outFeatures) :
    parts.flatten[r * layer.outFeatures + o]? =
      some (store (layer.column fl (inputRow fl x layer.inFeatures (row + r)) o)) := by
  induction fuel generalizing row r parts with
  | zero => omega
  | succ fuel ih =>
      unfold chunkRows at h
      rw [if_pos (by omega)] at h
      rcases h with - | ⟨hchunk, hrest⟩
      rename_i part parts
      have hlen : part.length = min (m - row) 8 * layer.outFeatures := by
        obtain ⟨xc, after, -, -, rfl⟩ := hchunk
        rw [List.length_map, List.length_range]
      rw [List.flatten_cons]
      by_cases hin : r < min (m - row) 8
      · have hlt : r * layer.outFeatures + o < part.length := by
          have hle : (r + 1) * layer.outFeatures ≤ min (m - row) 8 * layer.outFeatures := Nat.mul_le_mul_right _ hin
          rw [Nat.succ_mul] at hle
          omega
        rw [List.getElem?_append_left hlt]
        exact chunk_row hwf hchunk hin ho
      · -- past this chunk
        obtain ⟨r', rfl⟩ : ∃ r', r = min (m - row) 8 + r' := ⟨r - min (m - row) 8, by omega⟩
        rw [List.getElem?_append_right (by rw [hlen, Nat.add_mul]; omega), hlen, Nat.add_mul, Nat.add_assoc,
          Nat.add_sub_cancel_left, ← Nat.add_assoc row]
        exact ih (by omega) hrest (by omega)

/-- The rows of all chunks. -/
theorem chunked_row (hwf : WellFormed layer) {m : Nat} {y : List O} (h : layer.ChunkedBatchGemv fl store x m y) {r o : Nat}
    (hr : r < m) (ho : o < layer.outFeatures) :
    y[r * layer.outFeatures + o]? = some (store (layer.column fl (inputRow fl x layer.inFeatures r) o)) := by
  obtain ⟨parts, hparts, rfl⟩ := h
  by_cases hm : m ≤ 8
  · rw [if_pos hm] at hparts
    rcases hparts with - | ⟨hchunk, hrest⟩
    rcases hrest with - | -
    rw [List.flatten_cons, List.flatten_nil, List.append_nil]
    have hrow := chunk_row hwf hchunk hr ho
    rwa [Nat.zero_add] at hrow
  · rw [if_neg hm] at hparts
    have hrow := chunks_row hwf (by omega) hparts (by rwa [Nat.zero_add]) ho
    rwa [Nat.zero_add] at hrow

theorem addBias_row {add : O → O → O} {y out : List O} (h : layer.addBias add y = .ok out) {r o : Nat}
    (ho : o < layer.outFeatures) {v : O} (hy : y[r * layer.outFeatures + o]? = some v) :
    out[r * layer.outFeatures + o]? = some ((layer.bias.map fun b => add v (b.data.getD o v)).getD v) := by
  unfold addBias at h
  rcases hb : layer.bias with - | b
  · rw [hb] at h
    obtain rfl := Except.ok.inj h
    exact hy
  · rw [hb] at h
    have h : (if b.dims = [layer.outFeatures] then _ else _) = Except.ok out := h
    by_cases hdims : b.dims = [layer.outFeatures]
    · rw [if_pos hdims] at h
      obtain rfl := Except.ok.inj h
      rw [List.getElem?_map, List.getElem?_zipIdx, hy]
      show some (add v (b.data.getD ((0 + (r * layer.outFeatures + o)) % layer.outFeatures) v)) = some (add v (b.data.getD o v))
      rw [Nat.zero_add, Nat.mul_comm, Nat.mul_add_mod, Nat.mod_eq_of_lt ho]
    · rw [if_neg hdims] at h
      exact absurd h nofun

/-- A row of a forward through the fused product. -/
theorem forward_row (hwf : WellFormed layer) {add : O → O → O} {phase : Option Phase} {out : List O}
    (h : layer.Forwards fl store add phase x out) {r o : Nat} (hr : r < rowsOf x) (ho : o < layer.outFeatures) :
    ∃ v, v = store (layer.column fl (inputRow fl x layer.inFeatures r) o) ∧
      out[r * layer.outFeatures + o]? = some ((layer.bias.map fun b => add v (b.data.getD o v)).getD v) := by
  obtain ⟨-, -, y, hy, hbias⟩ := h
  exact ⟨_, rfl, addBias_row hbias ho (chunked_row hwf hy hr ho)⟩

/-- A row has the same output in every forward that takes the fused product, alone or in a batch, in a decode step or
in the projection of a prefill, under any two schedules. -/
theorem forward_row_alone {cast : F → F} {raw : QuantWeight F} {bias : Option (Tensor O)} {dtype : DType}
    {base : PackedQuantLinear F O} (hnew : new cast raw bias dtype = .ok base) {outDtype : DType} {add : O → O → O}
    {phase phase' : Option Phase} {x x' : Tensor F} {out out' : List O}
    (h : (base.withOutDtype outDtype).Forwards fl store add phase x out)
    (h' : (base.withOutDtype outDtype).Forwards fl store add phase' x' out') {r r' : Nat} (hr : r < rowsOf x)
    (hr' : r' < rowsOf x')
    (hrow : ∀ i < base.inFeatures, x.data[r * base.inFeatures + i]? = x'.data[r' * base.inFeatures + i]?) :
    ∀ o < base.outFeatures, out[r * base.outFeatures + o]? = out'[r' * base.outFeatures + o]? := by
  intro o ho
  have hwf := wellFormed_withOutDtype (wellFormed_of_new hnew) outDtype
  obtain ⟨v, hv, hout⟩ := forward_row hwf h hr ho
  obtain ⟨v', hv', hout'⟩ := forward_row hwf h' hr' ho
  have hsame : v = v' := by
    rw [hv, hv', column_congr hwf]
    intro i hi
    show x.data.getD _ fl.zero = x'.data.getD _ fl.zero
    rw [List.getD_eq_getElem?_getD, List.getD_eq_getElem?_getD]
    exact congrArg (·.getD fl.zero) (hrow i hi)
  exact hout.trans (hsame ▸ hout'.symm)

/-! ## A forward -/

theorem exists_answers [Inhabited F] [Inhabited O] (fl : Floats F) (store : F → O) (op : W4A16Matmul F) (outF32 : Bool)
    {x : Tensor F} {m : Nat} {s : AwqShape} (h : op.shape x = .ok (m, s)) :
    ∃ after, op.Answers fl store outF32 x after := by
  obtain ⟨after, hafter⟩ := @exists_launched (Nat × Nat) Nat F O _ _ (List.range (divCeil s.packedOut (s.detTgw m)))
    (grid (s.detTgw m) s.sRows)
    (if 1 < m then
      awqGemvBatchDet fl op.bits (op.weights fl) (s.params m outF32) store (awqKernel (s.geometry m)).1
        (awqKernel (s.geometry m)).2 (x.buffer fl)
    else
      awqGemvDet fl op.bits (op.weights fl) (s.params m outF32) store (awqKernel (s.geometry m)).1
        (awqKernel (s.geometry m)).2 (x.buffer fl))
  exact ⟨after, m, s, h, hafter⟩

theorem exists_answers_gptq [Inhabited F] [Inhabited O] (fl : Floats F) (store : F → O) (op : GptqMatmul F)
    (outF32 : Bool) {x : Tensor F} {m : Nat} {s : GptqShape} (h : op.shape x = .ok (m, s)) :
    ∃ after, op.Answers fl store outF32 x after := by
  obtain ⟨after, hafter⟩ := @exists_launched (Nat × Nat) Nat F O _ _ (List.range (divCeil s.outFeatures qdetTgw))
    (grid qdetTgw (if m = 1 then qdetS else qdetSBatch))
    (gptqGemvBatchDet fl op.bits (op.weights fl) (s.params op.bits m outF32) store (x.buffer fl))
  exact ⟨after, m, s, h, hafter⟩

theorem narrowRows_all {width m : Nat} (hdims : x.dims = [m, width]) : narrowRows x width 0 m = .ok x := by
  obtain ⟨dtype, dims, data, hfilled⟩ := x
  obtain rfl : dims = [m, width] := hdims
  have hlen : data.length = m * width := by
    rw [hfilled]
    simp
  have hslice : (data.drop (0 * width)).take (m * width) = data := by
    rw [Nat.zero_mul, List.drop_zero, ← hlen, List.take_length]
  have hlong : ((data.drop (0 * width)).take (m * width)).length = [m, width].prod := by rw [hslice, hfilled]
  unfold narrowRows
  refine (dif_pos hlong).trans (congrArg Except.ok ?_)
  congr

/-- Up to eight rows are one launch. -/
theorem forwards_of_gemv {phase : Option Phase} {m : Nat} {add : O → O → O} {after : Nat → O}
    (hdims : x.dims = [m, layer.inFeatures]) (hm : m ≤ 8) (htakes : layer.takesGemv phase m) (hbias : layer.bias = none)
    (h : layer.Gemv fl store x after) :
    layer.Forwards fl store add phase x ((List.range (m * layer.outFeatures)).map after) := by
  have hrows : rowsOf x = m := by
    unfold rowsOf
    rw [hdims]
    exact Nat.mul_one m
  have hchunks : layer.ChunkedBatchGemv fl store x (rowsOf x) ((List.range (m * layer.outFeatures)).map after) := by
    refine ⟨[(List.range (m * layer.outFeatures)).map after], ?_, ?_⟩
    · rw [hrows, if_pos hm]
      exact .cons ⟨x, after, narrowRows_all hdims, h, rfl⟩ .nil
    · rw [List.flatten_cons, List.flatten_nil, List.append_nil]
  refine ⟨by rw [hdims]; rfl, by rwa [hrows], _, hchunks, ?_⟩
  unfold addBias
  rw [hbias]

/-- Four columns of eight bits over two inputs. -/
def fourColumns : QuantWeight Int :=
  ⟨8, .out, .awqInterleaved, .signed, ⟨.i32, [2, 1], [0x04030201, 0x08070605], rfl⟩, some ⟨.i32, [1, 1], [0x01010101], rfl⟩,
    ⟨.f16, [1, 4], [1, 2, 3, 4], rfl⟩⟩

def intFloats : Floats Int := ⟨0, (· + ·), (· - ·), (· * ·), Nat.cast⟩

def fourColumnsLayer : PackedQuantLinear Int Int :=
  ⟨⟨.i32, [2, 1], [0x04030201, 0x08070605], rfl⟩, ⟨.i32, [1, 1], [0x01010101], rfl⟩, ⟨.f16, [1, 4], [1, 2, 3, 4], rfl⟩, none, 2, 4,
    8, .out, .f16⟩

theorem new_fourColumns : new id fourColumns none .f16 = .ok fourColumnsLayer := rfl

theorem exists_forwards_fourColumns {x : Tensor Int} {m : Nat} (hdims : x.dims = [m, 2]) (hm : 1 ≤ m ∧ m ≤ 8)
    (hdtype : x.dtype = .f16) :
    ∃ out, (fourColumnsLayer.withOutDtype .f16).Forwards intFloats id (· + ·) (some .decode) x out := by
  have hshape : W4A16Matmul.shape ⟨fourColumnsLayer.qweight, fourColumnsLayer.qzeros, fourColumnsLayer.scales, 8⟩ x =
      .ok (m, ⟨2, 4, 2, 1⟩) := by
    unfold W4A16Matmul.shape
    refine Traverse.bind_eq_ok.2 ⟨(m, 2), W4A16Matmul.dims2_eq_ok.2 hdims,
      Traverse.bind_eq_ok.2 ⟨(), ensure_eq_ok.2 hm, ?_⟩⟩
    dsimp only
    rw [hdtype]
    rfl
  obtain ⟨after, hafter⟩ := exists_answers intFloats (id : Int → Int) _ false hshape
  have htakes : (fourColumnsLayer.withOutDtype .f16).takesGemv (some .decode) m := by
    show (if (some Phase.decode : Option Phase) = some .prefill then _ else m ≤ 16)
    rw [if_neg (by decide)]
    omega
  exact ⟨_, forwards_of_gemv hdims hm.2 htakes rfl hafter⟩

/-- A row alone, and the same row second in a batch of two. -/
theorem forward_row_alone_second : ∃ out out',
    (fourColumnsLayer.withOutDtype .f16).Forwards intFloats id (· + ·) (some .decode) ⟨.f16, [1, 2], [5, 7], rfl⟩ out ∧
      (fourColumnsLayer.withOutDtype .f16).Forwards intFloats id (· + ·) (some .decode) ⟨.f16, [2, 2], [3, 1, 5, 7], rfl⟩
        out' ∧
      ∀ o < 4, out[0 * 4 + o]? = out'[1 * 4 + o]? := by
  obtain ⟨out, hout⟩ := @exists_forwards_fourColumns ⟨.f16, [1, 2], [5, 7], rfl⟩ 1 rfl (by decide) rfl
  obtain ⟨out', hout'⟩ := @exists_forwards_fourColumns ⟨.f16, [2, 2], [3, 1, 5, 7], rfl⟩ 2 rfl (by decide) rfl
  refine ⟨out, out', hout, hout', forward_row_alone new_fourColumns hout hout' (by decide) (by decide) ?_⟩
  intro i hi
  obtain rfl | rfl : i = 0 ∨ i = 1 := by
    have hi : i < 2 := hi
    omega
  · rfl
  · rfl

end PackedQuantLinear

end Oxydllm.Quant
