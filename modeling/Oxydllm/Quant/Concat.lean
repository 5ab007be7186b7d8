/-
# Oxydllm.Quant.Concat — AWQ weights put side by side along the output dimension.

`concatAwqAlongOut` joins the packed weights, the zero points and the scales of its parts row by row. Each
part has whole words, so an output keeps its lane and its group, and what the result dequantises to are the
dequantised parts one below the other (`concatAwq_dequantize`).
-/
import Oxydllm.Quant.Compressed

namespace Oxydllm.Quant

open RowMajor Traverse

variable {R : Type}

/-! ## Joining tensors -/

section Cat

variable {α : Type}

/-- The width of a row: everything after the first dimension. -/
def Tensor.rowWidth (t : Tensor α) : Nat := (t.dims.drop 1).prod

/-- What `Tensor::cat` along dimension 1 asks of its tensors: one dtype, and one shape but for that dimension. -/
def Catable (t : Tensor α) (ts : List (Tensor α)) : Prop :=
  ∀ t' ∈ ts, t'.dtype = t.dtype ∧ 2 ≤ t'.dims.length ∧ t'.dims.take 1 = t.dims.take 1 ∧ t'.dims.drop 2 = t.dims.drop 2

instance (t : Tensor α) (ts : List (Tensor α)) : Decidable (Catable t ts) :=
  inferInstanceAs (Decidable (∀ t' ∈ ts, _))

/-- The rows of the tensors, joined. -/
def joinedData (rows : Nat) (ts : List (Tensor α)) : List α :=
  (List.range rows).flatMap fun r => ts.flatMap fun t => row t.data t.rowWidth r

theorem dims_eq_take_drop {dims : List Nat} (h : 2 ≤ dims.length) :
    dims = dims.getD 0 0 :: dims.getD 1 0 :: dims.drop 2 := by
  match dims, h with
  | d0 :: d1 :: rest, _ => rfl

theorem length_eq_rows (t : Tensor α) (h : 1 ≤ t.dims.length) : t.data.length = t.dims.getD 0 0 * t.rowWidth := by
  rw [t.filled, Tensor.rowWidth]
  match t.dims, h with
  | d0 :: rest, _ => rfl

theorem joined_row_length {rows : Nat} {ts : List (Tensor α)} (h : ∀ t ∈ ts, t.data.length = rows * t.rowWidth)
    {r : Nat} (hr : r < rows) :
    (ts.flatMap fun t => row t.data t.rowWidth r).length = (ts.map Tensor.rowWidth).sum := by
  rw [List.length_flatMap]
  congr 1
  exact List.map_congr_left fun t ht => row_length (h t ht) hr

theorem joinedData_length {rows : Nat} {ts : List (Tensor α)} (h : ∀ t ∈ ts, t.data.length = rows * t.rowWidth) :
    (joinedData rows ts).length = rows * (ts.map Tensor.rowWidth).sum :=
  length_flatMap_range fun _ hr => joined_row_length h hr

theorem getD_take_one {dims dims' : List Nat} (h : dims'.take 1 = dims.take 1) : dims'.getD 0 0 = dims.getD 0 0 := by
  cases dims <;> cases dims' <;> simp_all

theorem Catable.rows {t : Tensor α} {ts : List (Tensor α)} (h : Catable t ts) :
    ∀ t' ∈ ts, t'.data.length = t.dims.getD 0 0 * t'.rowWidth := fun t' ht' => by
  obtain ⟨-, hrank, htake, -⟩ := h t' ht'
  rw [length_eq_rows t' (by omega), getD_take_one htake]

theorem Catable.width {t : Tensor α} {ts : List (Tensor α)} (h : Catable t ts) :
    (ts.map Tensor.rowWidth).sum = (ts.map fun t => t.dims.getD 1 0).sum * (t.dims.drop 2).prod := by
  rw [← List.sum_map_mul_right]
  congr 1
  refine List.map_congr_left fun t' ht' => ?_
  obtain ⟨-, hrank, -, hdrop⟩ := h t' ht'
  rw [Tensor.rowWidth, dims_eq_take_drop hrank, ← hdrop]
  simp

/-- `cat` of the tensors `ts`, the first of which is `t`. -/
def Tensor.catMany (t : Tensor α) (ts : List (Tensor α)) : Result (Tensor α) :=
  if h : Catable t ts then
    .ok
      { dtype := t.dtype
        dims := t.dims.getD 0 0 :: (ts.map fun t => t.dims.getD 1 0).sum :: t.dims.drop 2
        data := joinedData (t.dims.getD 0 0) ts
        filled := by
          rw [joinedData_length h.rows, h.width]
          simp }
  else .error .candle

/-- `Tensor::cat(ts, 1)`: one tensor is returned as it is. -/
def Tensor.catDim1 : List (Tensor α) → Result (Tensor α)
  | [] => .error .candle
  | [t] => .ok t
  | t :: t' :: ts => Tensor.catMany t (t :: t' :: ts)

/-- The tensor of joined rows. -/
structure Joined (rows : Nat) (rest : List Nat) (ts : List (Tensor α)) (c : Tensor α) : Prop where
  dtype : ∀ t ∈ ts, c.dtype = t.dtype
  dims : c.dims = rows :: (ts.map fun t => t.dims.getD 1 0).sum :: rest
  data : c.data = joinedData rows ts

theorem row_flatten {data : List α} {rows width : Nat} (h : data.length = rows * width) :
    (List.range rows).flatMap (row data width) = data := by
  refine List.ext_getElem? fun i => ?_
  rcases Nat.lt_or_ge i (rows * width) with hlt | hge
  · have hw : 0 < width := Nat.pos_of_ne_zero fun h0 => by rw [h0, Nat.mul_zero] at hlt; omega
    have hr : i / width < rows := (Nat.div_lt_iff_lt_mul hw).2 hlt
    have hj := Nat.mod_lt i hw
    have hi : i / width * width + i % width = i := Nat.div_add_mod' i width
    rw [← hi, getElem?_flatMap_range (fun r hr => row_length h hr) hr hj, row_getElem? data hj]
  · rw [List.getElem?_eq_none (by rw [length_flatMap_range fun r hr => row_length h hr]; exact hge),
      List.getElem?_eq_none (by omega)]

theorem joined_single {t : Tensor α} {rows : Nat} {rest : List Nat} (hrank : 2 ≤ t.dims.length)
    (hrows : t.dims.getD 0 0 = rows) (hrest : t.dims.drop 2 = rest) : Joined rows rest [t] t := by
  have hlen := length_eq_rows t (by omega)
  rw [hrows] at hlen
  refine ⟨fun t' ht' => by rw [List.mem_singleton.1 ht'], ?_, ?_⟩
  · rw [← hrest, ← hrows, List.map_singleton, List.sum_singleton]
    exact dims_eq_take_drop hrank
  · simp only [joinedData, List.flatMap_singleton]
    exact (row_flatten hlen).symm

theorem joined_many {t : Tensor α} {ts : List (Tensor α)} {c : Tensor α} (h : Tensor.catMany t ts = .ok c) :
    Joined (t.dims.getD 0 0) (t.dims.drop 2) ts c := by
  unfold Tensor.catMany at h
  split at h
  · rename_i hcat
    cases h
    exact ⟨fun t' ht' => (hcat t' ht').1.symm, rfl, rfl⟩
  · cases h

/-- What `cat` returns for tensors with two dimensions or more and the same number of rows. -/
theorem catDim1_joined {t : Tensor α} {ts : List (Tensor α)} {c : Tensor α} (h : Tensor.catDim1 (t :: ts) = .ok c)
    (hrank : 2 ≤ t.dims.length) : Joined (t.dims.getD 0 0) (t.dims.drop 2) (t :: ts) c := by
  cases ts with
  | nil =>
      cases h
      exact joined_single hrank rfl rfl
  | cons t' ts => exact joined_many h

/-- An entry of joined rows is the entry of the tensor it comes from. -/
theorem Joined.entry {rows : Nat} {rest : List Nat} {pre : List (Tensor α)} {t : Tensor α} {post : List (Tensor α)}
    {c : Tensor α} (h : Joined rows rest (pre ++ t :: post) c)
    (hlen : ∀ t' ∈ pre ++ t :: post, t'.data.length = rows * t'.rowWidth) {r j : Nat} (hr : r < rows)
    (hj : j < t.rowWidth) :
    c.data[r * ((pre ++ t :: post).map Tensor.rowWidth).sum + ((pre.map Tensor.rowWidth).sum + j)]? =
      t.data[r * t.rowWidth + j]? := by
  have hpre : (pre.map fun x => (row x.data x.rowWidth r).length).sum = (pre.map Tensor.rowWidth).sum := by
    congr 1
    exact List.map_congr_left fun x hx => row_length (hlen x (List.mem_append_left _ hx)) hr
  have hbound : (pre.map Tensor.rowWidth).sum + j < ((pre ++ t :: post).map Tensor.rowWidth).sum := by
    rw [List.map_append, List.sum_append, List.map_cons, List.sum_cons]
    omega
  have htlen : (row t.data t.rowWidth r).length = t.rowWidth :=
    row_length (hlen t (List.mem_append_right _ List.mem_cons_self)) hr
  rw [h.data, joinedData, getElem?_flatMap_range (fun r hr => joined_row_length hlen hr) hr hbound, ← hpre,
    getElem?_flatMap_piece (fun x : Tensor α => row x.data x.rowWidth r) pre t post (by rw [htlen]; exact hj),
    row_getElem? t.data hj]

/-- The same for tensors that parts have, of known widths. -/
theorem Joined.entry_of_part {β : Type} {rows : Nat} {rest : List Nat} {f : β → Tensor α} (width : β → Nat)
    {parts : List β} {c : Tensor α} (h : Joined rows rest (parts.map f) c)
    (hlen : ∀ p ∈ parts, (f p).data.length = rows * (f p).rowWidth) (hwidth : ∀ p ∈ parts, (f p).rowWidth = width p)
    {pre : List β} {p : β} {post : List β} (hparts : parts = pre ++ p :: post) {r j : Nat} (hr : r < rows)
    (hj : j < width p) :
    c.data[r * (parts.map width).sum + ((pre.map width).sum + j)]? = (f p).data[r * width p + j]? := by
  subst hparts
  have hp : p ∈ pre ++ p :: post := List.mem_append_right _ List.mem_cons_self
  have hall : (pre ++ p :: post).map width = ((pre ++ p :: post).map f).map Tensor.rowWidth := by
    rw [List.map_map]
    exact List.map_congr_left fun q hq => (hwidth q hq).symm
  have hpre : pre.map width = (pre.map f).map Tensor.rowWidth := by
    rw [List.map_map]
    exact List.map_congr_left fun q hq => (hwidth q (List.mem_append_left _ hq)).symm
  rw [hall, hpre]
  rw [List.map_append, List.map_cons] at h ⊢
  rw [← hwidth p hp] at hj ⊢
  refine h.entry (fun t ht => ?_) hr hj
  rw [← List.map_cons, ← List.map_append] at ht
  obtain ⟨q, hq, rfl⟩ := List.mem_map.1 ht
  exact hlen q hq

end Cat

/-! ## Joining weights -/

/-- `with_context`: the tensor library's failure under the caller's message. -/
def Result.context {α : Type} (r : Result α) (msg : String) : Result α :=
  match r with
  | .ok a => .ok a
  | .error .panic => .error .panic
  | .error _ => .error (.bail msg)

/-- The checks on the parts after the first; `i` is the number of the next. -/
def checkParts (inFeatures groupSize bits packFactor i : Nat) : List (QuantWeight R) → Result Unit
  | [] => .ok ()
  | p :: rest => do
    let got ← p.inFeatures
    ensure (got = inFeatures) (.bail s!"AWQ fuse: in_features mismatch at part {i}: expected {inFeatures}, got {got}")
    let got ← p.groupSize
    ensure (got = groupSize) (.bail s!"AWQ fuse: group_size mismatch at part {i}: expected {groupSize}, got {got}")
    let got := p.bits
    ensure (got = bits) (.bail s!"AWQ fuse: bits mismatch at part {i}: expected {bits}, got {got}")
    let outFeatures ← p.outFeatures
    ensure (packFactor ≠ 0) .panic
    ensure (outFeatures % packFactor = 0)
      (.bail s!"AWQ fuse: part {i} out_features {outFeatures} not divisible by pack_factor {packFactor}")
    checkParts inFeatures groupSize bits packFactor (i + 1) rest

/-- `concat_awq_along_out`. -/
def concatAwqAlongOut : List (QuantWeight R) → Result (QuantWeight R)
  | [] => .error (.bail "concat_awq_along_out: no parts")
  | first :: rest => do
    let inFeatures ← first.inFeatures
    let groupSize ← first.groupSize
    let packFactor ← first.packFactor
    checkParts inFeatures groupSize first.bits packFactor 1 rest
    let qzeros ← (first :: rest).mapM fun p =>
      required p.qzeros (.bail "AWQ fuse: qzeros missing on a part, not an AWQ tensor")
    let qweight ← (Tensor.catDim1 ((first :: rest).map (·.qweight))).context "AWQ fuse: cat qweight"
    let qzeros ← (Tensor.catDim1 qzeros).context "AWQ fuse: cat qzeros"
    let scales ← (Tensor.catDim1 ((first :: rest).map (·.scales))).context "AWQ fuse: cat scales"
    return .newAwq first.bits qweight qzeros scales

theorem context_eq_ok {α : Type} {r : Result α} {msg : String} {a : α} : r.context msg = .ok a ↔ r = .ok a := by
  unfold Result.context
  cases r with
  | ok b => exact Iff.rfl
  | error e =>
      cases e with
      | bail m => exact ⟨fun h => (by cases h), fun h => (by cases h)⟩
      | candle => exact ⟨fun h => (by cases h), fun h => (by cases h)⟩
      | panic => exact ⟨fun h => (by cases h), fun h => (by cases h)⟩

theorem checkParts_ok {inFeatures groupSize bits packFactor i : Nat} {parts : List (QuantWeight R)}
    (h : checkParts inFeatures groupSize bits packFactor i parts = .ok ()) :
    ∀ p ∈ parts, p.inFeatures = .ok inFeatures ∧ p.groupSize = .ok groupSize := by
  induction parts generalizing i with
  | nil => intro p hp; cases hp
  | cons q rest ih =>
      unfold checkParts at h
      obtain ⟨_, hin, h⟩ := bind_eq_ok.1 h
      obtain ⟨_, hine, h⟩ := bind_eq_ok.1 h
      obtain ⟨_, hgs, h⟩ := bind_eq_ok.1 h
      obtain ⟨_, hgse, h⟩ := bind_eq_ok.1 h
      obtain ⟨_, _, h⟩ := bind_eq_ok.1 h
      obtain ⟨_, _, h⟩ := bind_eq_ok.1 h
      obtain ⟨_, _, h⟩ := bind_eq_ok.1 h
      obtain ⟨_, _, h⟩ := bind_eq_ok.1 h
      intro p hp
      rcases List.mem_cons.1 hp with rfl | hp
      · exact ⟨ensure_eq_ok.1 hine ▸ hin, ensure_eq_ok.1 hgse ▸ hgs⟩
      · exact ih h p hp

/-- The output size of a part. -/
def outOf (p : QuantWeight R) : Nat := p.scales.dims.getD 1 0

/-- The zero points of a part. -/
def zerosTensor (p : QuantWeight R) : Tensor Int := p.qzeros.getD ⟨.u32, [0], [], rfl⟩

theorem zeros_of_parts {failure : Failure} {parts : List (QuantWeight R)} {zs : List (Tensor Int)}
    (h : List.Forall₂ (fun p z => required p.qzeros failure = .ok z) parts zs) : zs = parts.map zerosTensor := by
  induction h with
  | nil => rfl
  | cons h _ ih =>
      rw [List.map_cons, ← ih, zerosTensor, required_eq_ok.1 h]
      rfl

/-- What is joined, and what it is made of: readable parts of one input size and grouping. -/
structure JoinedParts (parts : List (QuantWeight R)) (inFeatures groups : Nat) (c : QuantWeight R) (z : Tensor Int) :
    Prop where
  nonempty : parts ≠ []
  readable : ∀ p ∈ parts, Readable p inFeatures (outOf p) groups (zerosTensor p)
  packDim : c.packDim = .out
  qzeros : c.qzeros = some z
  qweight : ∃ rest, Joined inFeatures rest (parts.map (·.qweight)) c.qweight
  zeros : Joined groups [] (parts.map zerosTensor) z
  scales : Joined groups [] (parts.map (·.scales)) c.scales

theorem Readable.inFeatures_out {q : QuantWeight R} {inFeatures outFeatures groups : Nat} {z : Tensor Int}
    (h : Readable q inFeatures outFeatures groups z) (hawq : q.packDim = .out) :
    q.qweight.dims[0]? = some inFeatures := by
  have hin := h.inputs
  unfold QuantWeight.inFeatures at hin
  obtain ⟨d0, hd0, hin⟩ := bind_eq_ok.1 hin
  rw [hawq] at hin
  cases hin
  exact dim_eq_ok.1 hd0

theorem Readable.qweight_rank {q : QuantWeight R} {inFeatures outFeatures groups : Nat} {z : Tensor Int}
    (h : Readable q inFeatures outFeatures groups z) : 2 ≤ q.qweight.dims.length :=
  (List.getElem?_eq_some_iff.1 h.qdim).1

theorem Readable.qweight_width {q : QuantWeight R} {inFeatures outFeatures groups : Nat} {z : Tensor Int}
    (h : Readable q inFeatures outFeatures groups z) (hawq : q.packDim = .out) :
    q.qweight.data.length = inFeatures * q.qweight.rowWidth ∧ q.qweight.rowWidth = outFeatures / awqPackFactor := by
  have hlen := length_eq_rows q.qweight (Nat.le_of_succ_le h.qweight_rank)
  rw [List.getD_eq_getElem?_getD, h.inFeatures_out hawq, Option.getD_some] at hlen
  exact ⟨hlen, Nat.eq_of_mul_eq_mul_left h.pos (hlen.symm.trans h.qlen)⟩

/-- A readable part, under the sizes that the checks compare. -/
theorem readable_part {p : QuantWeight R} {inFeatures groupSize inFeatures' outFeatures groups' : Nat} {z : Tensor Int}
    (h : Readable p inFeatures' outFeatures groups' z) (hin : p.inFeatures = .ok inFeatures)
    (hgs : p.groupSize = .ok groupSize) : Readable p inFeatures (outOf p) (inFeatures / groupSize) (zerosTensor p) := by
  have hin' : inFeatures' = inFeatures := by
    have := h.inputs
    rw [hin] at this
    cases this
    rfl
  subst hin'
  have hgs' : inFeatures' / groups' = groupSize := by
    have := h.groupSize
    rw [hgs] at this
    cases this
    rfl
  have hout : outOf p = outFeatures := by
    rw [outOf, h.scales]
    rfl
  have hz : zerosTensor p = z := by
    rw [zerosTensor, h.qzeros]
    rfl
  rw [← hgs', div_div_of_dvd h.pos h.divides, hout, hz]
  exact h

/-- What a concatenation of readable parts is made of. -/
theorem concatAwq_joined [Ring R] {parts : List (QuantWeight R)} {c : QuantWeight R}
    (hc : concatAwqAlongOut parts = .ok c) (hawq : ∀ p ∈ parts, p.packDim = .out)
    (hread : ∀ p ∈ parts, ∃ inFeatures outFeatures groups z, Readable p inFeatures outFeatures groups z) :
    ∃ inFeatures groups z, JoinedParts parts inFeatures groups c z := by
  cases parts with
  | nil => cases hc
  | cons first rest =>
      unfold concatAwqAlongOut at hc
      obtain ⟨inF, hin, hc⟩ := bind_eq_ok.1 hc
      obtain ⟨gs, hgs, hc⟩ := bind_eq_ok.1 hc
      obtain ⟨pf, _, hc⟩ := bind_eq_ok.1 hc
      obtain ⟨_, hchecks, hc⟩ := bind_eq_ok.1 hc
      obtain ⟨zs, hzs, hc⟩ := bind_eq_ok.1 hc
      obtain ⟨qw, hqw, hc⟩ := bind_eq_ok.1 hc
      obtain ⟨z, hz, hc⟩ := bind_eq_ok.1 hc
      obtain ⟨sc, hsc, hc⟩ := bind_eq_ok.1 hc
      cases hc
      have hsizes : ∀ p ∈ first :: rest, p.inFeatures = .ok inF ∧ p.groupSize = .ok gs := by
        intro p hp
        rcases List.mem_cons.1 hp with rfl | hp
        · exact ⟨hin, hgs⟩
        · exact checkParts_ok hchecks p hp
      have hread : ∀ p ∈ first :: rest, Readable p inF (outOf p) (inF / gs) (zerosTensor p) := fun p hp => by
        obtain ⟨_, _, _, _, h⟩ := hread p hp
        exact readable_part h (hsizes p hp).1 (hsizes p hp).2
      have hzs := zeros_of_parts (forall₂_of_mapM hzs)
      subst hzs
      have hfirst := hread first List.mem_cons_self
      have hqw := catDim1_joined (context_eq_ok.1 hqw) hfirst.qweight_rank
      have hz := catDim1_joined (context_eq_ok.1 hz) (by rw [hfirst.zdims]; exact le_refl 2)
      have hsc := catDim1_joined (context_eq_ok.1 hsc) (by rw [hfirst.scales]; exact le_refl 2)
      rw [List.getD_eq_getElem?_getD, hfirst.inFeatures_out (hawq first List.mem_cons_self), Option.getD_some] at hqw
      rw [hfirst.zdims] at hz
      rw [hfirst.scales] at hsc
      exact ⟨inF, inF / gs, z, List.cons_ne_nil _ _, hread, rfl, rfl, ⟨_, hqw⟩, hz, hsc⟩

/-! ## Lanes and groups stay -/

theorem sum_packed {parts : List (QuantWeight R)} (h : ∀ p ∈ parts, outOf p % awqPackFactor = 0) :
    (parts.map outOf).sum % awqPackFactor = 0 ∧
      (parts.map fun p => outOf p / awqPackFactor).sum = (parts.map outOf).sum / awqPackFactor := by
  induction parts with
  | nil => exact ⟨rfl, by simp⟩
  | cons p parts ih =>
      obtain ⟨hmod, hdiv⟩ := ih fun q hq => h q (List.mem_cons_of_mem _ hq)
      have hp := h p List.mem_cons_self
      simp only [List.map_cons, List.sum_cons, hdiv, awqPackFactor] at *
      omega

theorem readPacked_of_dtype {t t' : Tensor Int} (h : t'.dtype = t.dtype)
    (hread : readPackedToU32 t = .ok (t.data.map (BitVec.ofInt 32))) :
    readPackedToU32 t' = .ok (t'.data.map (BitVec.ofInt 32)) := by
  unfold readPackedToU32 at hread ⊢
  rw [h]
  generalize t.dtype = dtype at hread ⊢
  cases dtype with
  | i32 => rfl
  | u32 => rfl
  | i64 => rfl
  | u8 => cases hread
  | f16 => cases hread
  | bf16 => cases hread
  | f32 => cases hread
  | f64 => cases hread

namespace JoinedParts

variable {parts : List (QuantWeight R)} {inFeatures groups : Nat} {c : QuantWeight R} {z : Tensor Int}

theorem packed (h : JoinedParts parts inFeatures groups c z) : ∀ p ∈ parts, outOf p % awqPackFactor = 0 :=
  fun p hp => (h.readable p hp).packed

/-- The concatenation is readable. -/
theorem readable_concat (h : JoinedParts parts inFeatures groups c z) (hawq : ∀ p ∈ parts, p.packDim = .out) :
    Readable c inFeatures (parts.map outOf).sum groups z := by
  obtain ⟨first, hfirst⟩ := List.exists_mem_of_ne_nil parts h.nonempty
  have hread := h.readable first hfirst
  obtain ⟨rest, hqw⟩ := h.qweight
  obtain ⟨hmod, hdiv⟩ := sum_packed h.packed
  have hqdim : (parts.map (·.qweight)).map (fun t => t.dims.getD 1 0) = parts.map fun p => outOf p / awqPackFactor := by
    rw [List.map_map]
    refine List.map_congr_left fun p hp => ?_
    simp only [Function.comp_apply]
    rw [List.getD_eq_getElem?_getD, (h.readable p hp).qdim, Option.getD_some]
  have hzdim : (parts.map zerosTensor).map (fun t => t.dims.getD 1 0) = parts.map fun p => outOf p / awqPackFactor := by
    rw [List.map_map]
    refine List.map_congr_left fun p hp => ?_
    simp only [Function.comp_apply]
    rw [(h.readable p hp).zdims]
    rfl
  have hsdim : (parts.map (·.scales)).map (fun t => t.dims.getD 1 0) = parts.map outOf := by
    rw [List.map_map]
    rfl
  have hwidths : ((parts.map (·.qweight)).map Tensor.rowWidth).sum = (parts.map outOf).sum / awqPackFactor := by
    rw [← hdiv, List.map_map]
    congr 1
    exact List.map_congr_left fun p hp => ((h.readable p hp).qweight_width (hawq p hp)).2
  refine ⟨?_, hread.pos, hread.divides, ?_, hmod, ?_, ?_, ?_, h.qzeros, ?_, ?_⟩
  · have hd0 : c.qweight.dim 0 (.bail "qweight must be 2D") = .ok inFeatures := dim_eq_ok.2 (by rw [hqw.dims]; rfl)
    unfold QuantWeight.inFeatures
    rw [hd0, h.packDim]
    rfl
  · rw [h.scales.dims, hsdim]
  · rw [hqw.dims, hqdim, hdiv]
    rfl
  · rw [hqw.data, joinedData_length, hwidths]
    intro t ht
    obtain ⟨p, hp, rfl⟩ := List.mem_map.1 ht
    exact ((h.readable p hp).qweight_width (hawq p hp)).1
  · exact readPacked_of_dtype (hqw.dtype _ (List.mem_map.2 ⟨first, hfirst, rfl⟩)) hread.qread
  · rw [h.zeros.dims, hzdim, hdiv]
  · exact readPacked_of_dtype (h.zeros.dtype _ (List.mem_map.2 ⟨first, hfirst, rfl⟩)) hread.zread

/-- A nibble of joined words is the nibble of the part its output is in. -/
theorem nibble_of_part (h : JoinedParts parts inFeatures groups c z) {rows : Nat} {rest : List Nat}
    {f : QuantWeight R → Tensor Int} {t : Tensor Int} (hjoin : Joined rows rest (parts.map f) t)
    (hlen : ∀ p ∈ parts, (f p).data.length = rows * (f p).rowWidth)
    (hwidth : ∀ p ∈ parts, (f p).rowWidth = outOf p / awqPackFactor) {pre : List (QuantWeight R)}
    {p : QuantWeight R} {post : List (QuantWeight R)} (hparts : parts = pre ++ p :: post) {r o : Nat} (hr : r < rows)
    (ho : o < outOf p) : awqNibble t ((parts.map outOf).sum / awqPackFactor) r ((pre.map outOf).sum + o) =
      awqNibble (f p) (outOf p / awqPackFactor) r o := by
  have hp : p ∈ parts := by rw [hparts]; exact List.mem_append_right _ List.mem_cons_self
  have hpre : ∀ q ∈ pre, outOf q % awqPackFactor = 0 := fun q hq =>
    h.packed q (by rw [hparts]; exact List.mem_append_left _ hq)
  obtain ⟨-, hdiv⟩ := sum_packed h.packed
  obtain ⟨hpmod, hpdiv⟩ := sum_packed hpre
  have hcol : o / awqPackFactor < outOf p / awqPackFactor := by
    have := h.packed p hp
    simp only [awqPackFactor] at *
    omega
  have hlane : ((pre.map outOf).sum + o) % awqPackFactor = o % awqPackFactor := by
    simp only [awqPackFactor] at *
    omega
  have hword : ((pre.map outOf).sum + o) / awqPackFactor =
      (pre.map fun p => outOf p / awqPackFactor).sum + o / awqPackFactor := by
    rw [hpdiv]
    simp only [awqPackFactor] at *
    omega
  have hentry := hjoin.entry_of_part (fun p => outOf p / awqPackFactor) hlen hwidth hparts hr hcol
  rw [awqNibble, awqNibble, hlane, hword, ← hdiv]
  simp only [word, List.getD_eq_getElem?_getD, hentry]

/-- An entry of the concatenation is the entry of the part its output is in. -/
theorem entry_of_part [Ring R] (h : JoinedParts parts inFeatures groups c z) (hawq : ∀ p ∈ parts, p.packDim = .out)
    {pre : List (QuantWeight R)} {p : QuantWeight R} {post : List (QuantWeight R)} (hparts : parts = pre ++ p :: post)
    {o i : Nat} (ho : o < outOf p) (hi : i < inFeatures) :
    awqEntry c z inFeatures (parts.map outOf).sum groups ((pre.map outOf).sum + o) i =
      awqEntry p (zerosTensor p) inFeatures (outOf p) groups o i := by
  have hp : p ∈ parts := by rw [hparts]; exact List.mem_append_right _ List.mem_cons_self
  have hg := group_lt (h.readable p hp).divides hi
  obtain ⟨rest, hqw⟩ := h.qweight
  have hweight := h.nibble_of_part hqw (fun q hq => ((h.readable q hq).qweight_width (hawq q hq)).1)
    (fun q hq => ((h.readable q hq).qweight_width (hawq q hq)).2) hparts hi ho
  have hzero := h.nibble_of_part h.zeros
    (fun q hq => by rw [(zerosTensor q).filled, Tensor.rowWidth, (h.readable q hq).zdims]; simp)
    (fun q hq => by rw [Tensor.rowWidth, (h.readable q hq).zdims]; simp) hparts hg ho
  have hscale := h.scales.entry_of_part outOf
    (fun q hq => by rw [q.scales.filled, Tensor.rowWidth, (h.readable q hq).scales]; simp)
    (fun q hq => by rw [Tensor.rowWidth, (h.readable q hq).scales]; simp) hparts hg ho
  simp only [awqEntry, hweight, hzero, List.getD_eq_getElem?_getD, hscale]

end JoinedParts

/-- The sizes and the entries of a part's dequantised weight. -/
def IsDequantised [Ring R] (inFeatures groups : Nat) (p : QuantWeight R) (w : Tensor R) : Prop :=
  w.dims = [outOf p, inFeatures] ∧ w.data = (List.range (outOf p)).flatMap fun o =>
    (List.range inFeatures).map (awqEntry p (zerosTensor p) inFeatures (outOf p) groups o)

theorem stacked [Ring R] {inFeatures groups : Nat} {parts : List (QuantWeight R)} {ws : List (Tensor R)}
    (h : List.Forall₂ (IsDequantised inFeatures groups) parts ws) :
    (ws.map fun w => w.dims.getD 0 0).sum = (parts.map outOf).sum ∧
      ws.flatMap (·.data) = parts.flatMap fun p => (List.range (outOf p)).flatMap fun o =>
        (List.range inFeatures).map (awqEntry p (zerosTensor p) inFeatures (outOf p) groups o) := by
  induction h with
  | nil => exact ⟨rfl, rfl⟩
  | cons h _ ih =>
      obtain ⟨hsum, hdata⟩ := ih
      refine ⟨?_, ?_⟩
      · rw [List.map_cons, List.sum_cons, hsum, h.1, List.map_cons, List.sum_cons]
        rfl
      · rw [List.flatMap_cons, hdata, h.2, List.flatMap_cons]

/-- The concatenation dequantises to the dequantised parts, one below the other. -/
theorem concatAwq_dequantize [Ring R] {parts : List (QuantWeight R)} {c : QuantWeight R}
    (hc : concatAwqAlongOut parts = .ok c) (hawq : ∀ p ∈ parts, p.packDim = .out) {outDtype : DType}
    {ws : List (Tensor R)} (hws : parts.mapM (fun p => dequantizeAwq p outDtype) = .ok ws) :
    ∃ w inFeatures, dequantizeAwq c outDtype = .ok w ∧ (∀ w' ∈ ws, w'.dims = [w'.dims.getD 0 0, inFeatures]) ∧
      w.dtype = outDtype ∧ w.dims = [(ws.map fun w' => w'.dims.getD 0 0).sum, inFeatures] ∧
      w.data = ws.flatMap (·.data) := by
  have hall := forall₂_of_mapM hws
  have hread : ∀ p ∈ parts, OutDtype outDtype ∧
      ∃ inFeatures outFeatures groups z, Readable p inFeatures outFeatures groups z := fun p hp => by
    obtain ⟨w, hw⟩ := exists_of_forall₂ hall p hp
    exact readable_of_dequantizeAwq hw
  obtain ⟨inF, groups, z, hjoin⟩ := concatAwq_joined hc hawq fun p hp => (hread p hp).2
  obtain ⟨first, hfirst⟩ := List.exists_mem_of_ne_nil parts hjoin.nonempty
  have hout := (hread first hfirst).1
  have hc := hjoin.readable_concat hawq
  have hparts : List.Forall₂ (IsDequantised inF groups) parts ws := by
    refine forall₂_imp_of_mem (fun p hp w hw => ?_) hall
    rw [(hjoin.readable p hp).dequantize hout] at hw
    cases hw
    exact ⟨rfl, (hjoin.readable p hp).fill_eq⟩
  obtain ⟨hsum, hdata⟩ := stacked hparts
  refine ⟨_, inF, hc.dequantize hout, fun w hw => ?_, rfl, by rw [hsum], ?_⟩
  · obtain ⟨p, hp⟩ := exists_of_forall₂ hparts.flip w hw
    rw [hp.1]
    rfl
  · rw [hdata, ← flatMap_range_sum outOf _ (fun o => (List.range inF).map
      (awqEntry c z inF (parts.map outOf).sum groups o))]
    · exact hc.fill_eq
    · intro pre p post heq o ho
      refine List.map_congr_left fun i hi => ?_
      exact hjoin.entry_of_part hawq heq ho (List.mem_range.1 hi)

/-- Two inputs in one group, eight outputs. -/
def smallWeight : QuantWeight Int :=
  .newAwq 4 ⟨.i32, [2, 1], [0x12345678, 0x0fedcba9], rfl⟩ ⟨.i32, [1, 1], [0x11111111], rfl⟩
    ⟨.f32, [1, 8], [1, 2, 3, 4, 5, 6, 7, 8], rfl⟩

theorem concatAwq_dequantize_small :
    ∃ c w, concatAwqAlongOut [smallWeight, smallWeight] = .ok c ∧ dequantizeAwq c .f32 = .ok w := by
  obtain ⟨c, hc⟩ : ∃ c, concatAwqAlongOut [smallWeight, smallWeight] = .ok c := ⟨_, rfl⟩
  obtain ⟨ws, hws⟩ : ∃ ws, [smallWeight, smallWeight].mapM (fun p => dequantizeAwq p .f32) = .ok ws := ⟨_, rfl⟩
  have hawq : ∀ p ∈ [smallWeight, smallWeight], p.packDim = .out := fun p hp => by
    rcases List.mem_cons.1 hp with rfl | hp
    · rfl
    · rw [List.mem_singleton.1 hp]
      rfl
  obtain ⟨w, _, hw, -⟩ := concatAwq_dequantize hc hawq hws
  exact ⟨c, w, hc, hw⟩

end Oxydllm.Quant
