/-
# Oxydllm.Gguf.Depermute — the rows of q and k back in the order the model was trained with.

The converter writes a head's rows as `reshape(n_heads, 2, head_dim / 2).swapaxes(1, 2)` leaves them, `depermuteRows`
copies each row back. A row's source is where the converter put it (`source_permuted`), inside its head, and no two rows
have the same (`source_bijOn`), so the copies restore the bytes of a weight (`depermuteRows_permuted`).
-/
import Oxydllm.Gguf.Ranges
import Oxydllm.Lib.Loop
import Oxydllm.Lib.RowMajor
import Oxydllm.Lib.Slice

namespace Oxydllm.Gguf

open Overflow RowMajor Slice

/-! ## The code -/

/-- The copies of the two loops: the source row and the row it goes to. -/
def moves (nHeads headDim : Nat) : List (Nat × Nat) :=
  let half := headDim / 2
  (List.range nHeads).flatMap fun h => (List.range headDim).map fun r =>
    -- HF row `r` of this head sits at interleaved row `2*(r%half) + r/half`
    (h * headDim + 2 * (r % half) + r / half, h * headDim + r)

/-- The loops of `depermute_qk_rows` over the bytes of the rows. -/
def depermuteRows (data : List UInt8) (rowBytes nHeads headDim : Nat) : Option (List UInt8) :=
  (moves nHeads headDim).foldlM (fun out m =>
    (narrow data (m.1 * rowBytes) rowBytes).bind fun src => sliceSet out src (m.2 * rowBytes))
    (List.replicate data.length 0)

/-- Candle's tensor of a type: whole blocks, whose elements and bytes can be counted. -/
structure QTensor (layouts : BlockLayouts) where
  dtype : GgmlDType
  dims : List Nat
  data : List UInt8
  climbs : Climbs dims
  whole : dims.prod % layouts.blockSize dtype = 0
  size : data.length = dims.prod / layouts.blockSize dtype * layouts.typeSize dtype
  size_lt : data.length < words

/-- `StagedWeight`, its buffer as bytes. -/
structure StagedWeight where
  kind : WeightKind
  n : Nat
  k : Nat
  buffer : List UInt8
  whole : k % kind.blockElems = 0

/-- The staged handle beside candle's tensor is made of it again. -/
inductive LinearWeight (layouts : BlockLayouts) where
  | candle (tensor : QTensor layouts)
  | owned (w : StagedWeight)

/-- What a device makes of bytes: candle's tensor, and a buffer where it is a Metal device. -/
structure Device (layouts : BlockLayouts) where
  newQTensor : GgmlDType → List UInt8 → List Nat → Except String (QTensor layouts)
  newBuffer : Option (List UInt8 → Except String (List UInt8))

/-- The name `{:?}` prints. -/
def GgmlDType.debug : GgmlDType → String
  | .f32 => "F32"
  | .f16 => "F16"
  | .bf16 => "BF16"
  | .q4_0 => "Q4_0"
  | .q4_1 => "Q4_1"
  | .q5_0 => "Q5_0"
  | .q5_1 => "Q5_1"
  | .q8_0 => "Q8_0"
  | .q8_1 => "Q8_1"
  | .q2k => "Q2K"
  | .q3k => "Q3K"
  | .q4k => "Q4K"
  | .q5k => "Q5K"
  | .q6k => "Q6K"
  | .q8k => "Q8K"

variable {layouts : BlockLayouts}

/-- `StagedWeight::of_kind` on two dimensions. -/
def StagedWeight.ofKind (buffer : List UInt8) (kind : WeightKind) (n k : Nat) : Option StagedWeight :=
  if h : k % kind.blockElems = 0 then some ⟨kind, n, k, buffer, h⟩ else none

def ownedFromRows (device : Device layouts) (like : StagedWeight) (bytes : List UInt8) (rows k : Nat) :
    Run (LinearWeight layouts) :=
  match device.newBuffer with
  | none => bail "an owned weight lives on Metal"
  | some newBuffer =>
      match newBuffer bytes with
      | .error e => bail e
      | .ok buffer =>
          match StagedWeight.ofKind buffer like.kind rows k with
          | some w => .ok (.owned w)
          | none => bail "owned weight rows are not whole blocks"

/-- Rows and columns. -/
def LinearWeight.matrix : LinearWeight layouts → Run (Nat × Nat)
  | .candle t =>
      match t.dims with
      | [rows, k] => .ok (rows, k)
      | dims => bail s!"depermute_qk_rows: shape {dims} is not a matrix"
  | .owned w => .ok (w.n, w.k)

/-- The bytes, and how many of them a row has. -/
def LinearWeight.rowsOf (k : Nat) : LinearWeight layouts → Run (List UInt8 × Nat)
  | .candle t =>
      if k % layouts.blockSize t.dtype ≠ 0 then
        bail s!"depermute_qk_rows: row length {k} not divisible by {t.dtype.debug} block size {layouts.blockSize t.dtype}"
      else .ok (t.data, k / layouts.blockSize t.dtype * layouts.typeSize t.dtype)
  | .owned w => .ok (w.buffer, k / w.kind.blockElems * w.kind.blockBytes)

/-- The weight over the rows in their new order. -/
def LinearWeight.rebuilt (b : Build) (device : Device layouts) (out : List UInt8) (rows k : Nat) :
    LinearWeight layouts → Run (LinearWeight layouts)
  | .candle t => do
      let tensor ← qtensorWithStaged b layouts device.newQTensor t.dtype out [rows, k]
      .ok (.candle tensor)
  | .owned w => ownedFromRows device w out rows k

def depermuteQkRows (b : Build) (device : Device layouts) (weight : LinearWeight layouts) (nHeads headDim : Nat) :
    Run (LinearWeight layouts) := do
  let (rows, k) ← weight.matrix
  let expected ← word b (nHeads * headDim)
  if rows ≠ expected ∨ headDim % 2 ≠ 0 then
    bail s!"depermute_qk_rows: shape [{rows}, {k}] incompatible with {nHeads} heads x {headDim} dims"
  else do
    let (data, rowBytes) ← weight.rowsOf k
    match depermuteRows data rowBytes nHeads headDim with
    | none => .error .panic
    | some out => weight.rebuilt b device out rows k

/-! ## The converter -/

/-- `reshape(n_heads, 2, head_dim / 2).swapaxes(1, 2)` of rows. -/
def converterPermute (nHeads headDim rowBytes : Nat) (data : List UInt8) : List UInt8 :=
  (List.range nHeads).flatMap fun h => (List.range (headDim / 2)).flatMap fun i => (List.range 2).flatMap fun j =>
    row data rowBytes ((h * 2 + j) * (headDim / 2) + i)

/-! ## The moves -/

section Moves

variable {nHeads headDim half h r : Nat}

theorem mem_moves {m : Nat × Nat} : m ∈ moves nHeads headDim ↔ ∃ h < nHeads, ∃ r < headDim,
    m = (h * headDim + 2 * (r % (headDim / 2)) + r / (headDim / 2), h * headDim + r) := by
  simp only [moves, List.mem_flatMap, List.mem_map, List.mem_range]
  constructor
  · rintro ⟨h, hh, r, hr, rfl⟩
    exact ⟨h, hh, r, hr, rfl⟩
  · rintro ⟨h, hh, r, hr, rfl⟩
    exact ⟨h, hh, r, hr, rfl⟩

/-- A row goes to each place once, in order. -/
theorem moves_targets (nHeads headDim : Nat) :
    (moves nHeads headDim).map (·.2) = List.range (nHeads * headDim) := by
  unfold moves
  induction nHeads with
  | zero => rw [Nat.zero_mul]; rfl
  | succ n ih =>
      rw [List.range_succ, List.flatMap_append, List.flatMap_singleton, List.map_append, ih, List.map_map, Nat.succ_mul,
        List.range_add]
      rfl

/-- The first half of a head comes from its even rows, the second from its odd ones. -/
theorem half_cases (hr : r < 2 * half) : ∃ i < half, ∃ j < 2, r = j * half + i ∧ r % half = i ∧ r / half = j := by
  have hpos : 0 < half := by omega
  refine ⟨r % half, Nat.mod_lt r hpos, r / half, (Nat.div_lt_iff_lt_mul hpos).2 hr, ?_, rfl, rfl⟩
  rw [Nat.mul_comm]
  exact (Nat.div_add_mod r half).symm

theorem source_lt (hr : r < 2 * half) : 2 * (r % half) + r / half < 2 * half := by
  obtain ⟨i, hi, j, hj, -, hmod, hdiv⟩ := half_cases hr
  rw [hmod, hdiv]
  omega

/-- Inside a head, the sources are its rows, each of them once. -/
theorem source_bijOn (h half : Nat) :
    Set.BijOn (fun r => h * (2 * half) + 2 * (r % half) + r / half) (Set.Iio (2 * half))
      (Set.Ico (h * (2 * half)) (h * (2 * half) + 2 * half)) := by
  refine ⟨fun r hr => ?_, fun r hr r' hr' heq => ?_, fun q hq => ?_⟩
  · obtain ⟨i, hi, j, hj, -, hmod, hdiv⟩ := half_cases hr
    change h * (2 * half) ≤ h * (2 * half) + 2 * (r % half) + r / half ∧
      h * (2 * half) + 2 * (r % half) + r / half < h * (2 * half) + 2 * half
    rw [hmod, hdiv]
    omega
  · obtain ⟨i, hi, j, hj, hrow, hmod, hdiv⟩ := half_cases hr
    obtain ⟨i', hi', j', hj', hrow', hmod', hdiv'⟩ := half_cases hr'
    change h * (2 * half) + 2 * (r % half) + r / half = h * (2 * half) + 2 * (r' % half) + r' / half at heq
    rw [hmod, hdiv, hmod', hdiv'] at heq
    obtain rfl : i = i' := by omega
    obtain rfl : j = j' := by omega
    rw [hrow, hrow']
  · obtain ⟨hge, hlt⟩ := hq
    -- row `2 i + j` of the head is the source of row `j half + i`
    have hi : (q - h * (2 * half)) / 2 < half := by omega
    have hj : (q - h * (2 * half)) % 2 < 2 := Nat.mod_lt _ Nat.two_pos
    refine ⟨(q - h * (2 * half)) % 2 * half + (q - h * (2 * half)) / 2, ?_, ?_⟩
    · change _ < 2 * half
      have hle : (q - h * (2 * half)) % 2 * half ≤ 1 * half := Nat.mul_le_mul_right half (by omega)
      omega
    · change h * (2 * half) + 2 * (_ % half) + _ / half = q
      rw [Nat.mul_add_mod_of_lt hi, index_div hi]
      omega

end Moves

/-! ## The rows -/

section Rows

variable {nHeads half rowBytes : Nat} {data : List UInt8}

/-- Two moves to one row are the same. -/
theorem move_source {headDim : Nat} {m m' : Nat × Nat} (h : m ∈ moves nHeads headDim) (h' : m' ∈ moves nHeads headDim)
    (heq : m.2 = m'.2) : m.1 = m'.1 := by
  obtain ⟨a, -, r, hr, rfl⟩ := mem_moves.1 h
  obtain ⟨a', -, r', hr', rfl⟩ := mem_moves.1 h'
  obtain ⟨rfl, rfl⟩ := index_inj hr hr' heq
  rfl

/-- Both rows of a move are among the rows of the weight. -/
theorem move_fits (hlen : data.length = nHeads * (2 * half) * rowBytes) {m : Nat × Nat}
    (hm : m ∈ moves nHeads (2 * half)) :
    m.1 * rowBytes + rowBytes ≤ data.length ∧ m.2 * rowBytes + rowBytes ≤ data.length := by
  obtain ⟨h, hh, r, hr, hmr⟩ := mem_moves.1 hm
  have hfits : ∀ q < 2 * half, (h * (2 * half) + q) * rowBytes + rowBytes ≤ data.length := by
    intro q hq
    have hheads : (h + 1) * (2 * half) ≤ nHeads * (2 * half) := Nat.mul_le_mul_right _ hh
    have hle : (h * (2 * half) + q + 1) * rowBytes ≤ nHeads * (2 * half) * rowBytes :=
      Nat.mul_le_mul_right _ (by rw [Nat.succ_mul] at hheads; omega)
    rwa [Nat.succ_mul, ← hlen] at hle
  have hhalf : 2 * half / 2 = half := Nat.mul_div_cancel_left half Nat.two_pos
  rw [hmr]
  refine ⟨?_, hfits r hr⟩
  change (h * (2 * half) + 2 * (r % (2 * half / 2)) + r / (2 * half / 2)) * rowBytes + rowBytes ≤ _
  rw [hhalf, Nat.add_assoc]
  exact hfits _ (source_lt hr)

/-- The loops copy every row, whatever the bytes are. -/
theorem depermuteRows_spec (hlen : data.length = nHeads * (2 * half) * rowBytes) :
    ∃ out, depermuteRows data rowBytes nHeads (2 * half) = some out ∧ out.length = data.length ∧
      ∀ m ∈ moves nHeads (2 * half), row out rowBytes m.2 = row data rowBytes m.1 := by
  have hstep : ∀ front m back, moves nHeads (2 * half) = front ++ m :: back → ∀ out : List UInt8,
      (out.length = data.length ∧ ∀ m' ∈ front, row out rowBytes m'.2 = row data rowBytes m'.1) →
        ∃ out', ((narrow data (m.1 * rowBytes) rowBytes).bind fun src => sliceSet out src (m.2 * rowBytes)) = some out' ∧
          out'.length = data.length ∧ ∀ m' ∈ front ++ [m], row out' rowBytes m'.2 = row data rowBytes m'.1 := by
    rintro front m back hmoves out ⟨hsize, hrows⟩
    have hall : ∀ m' ∈ front ++ [m], m' ∈ moves nHeads (2 * half) := by
      intro m' hm'
      rw [hmoves, ← List.singleton_append, ← List.append_assoc]
      exact List.mem_append_left _ hm'
    have hm := hall m (List.mem_append_right _ (List.mem_singleton.2 rfl))
    obtain ⟨hsrc, hdst⟩ := move_fits hlen hm
    have hread := window_length hsrc
    have hplace : m.2 * rowBytes + (window data (m.1 * rowBytes) rowBytes).length ≤ out.length := by
      rw [hread, hsize]
      exact hdst
    obtain ⟨out', hset⟩ := sliceSet_eq_some hplace
    refine ⟨out', ?_, (sliceSet_length hset).trans hsize, fun m' hm' => ?_⟩
    · rw [narrow_eq hsrc]
      exact hset
    · by_cases heq : m'.2 = m.2
      · rw [heq, row_sliceSet_self hset hread, move_source (hall m' hm') hm heq]
        rfl
      · rw [row_sliceSet_ne hset hread heq]
        rcases List.mem_append.1 hm' with hold | hnew
        · exact hrows m' hold
        · exact absurd (congrArg (·.2) (List.mem_singleton.1 hnew)) heq
  obtain ⟨out, hout, hsize, hrows⟩ := Loop.foldlM_keeps
    (P := fun (front : List (Nat × Nat)) out => out.length = data.length ∧
      ∀ m' ∈ front, row out rowBytes m'.2 = row data rowBytes m'.1)
    hstep ⟨List.length_replicate, fun m hm => absurd hm List.not_mem_nil⟩
  exact ⟨out, hout, hsize, hrows⟩

/-- Where the converter puts the rows of a head. -/
theorem row_permuted (hlen : data.length = nHeads * (2 * half) * rowBytes) :
    (converterPermute nHeads (2 * half) rowBytes data).length = data.length ∧
      ∀ h < nHeads, ∀ i < half, ∀ j < 2, row (converterPermute nHeads (2 * half) rowBytes data) rowBytes
        (h * (2 * half) + (2 * i + j)) = row data rowBytes (h * (2 * half) + (j * half + i)) := by
  have hhalf : 2 * half / 2 = half := Nat.mul_div_cancel_left half Nat.two_pos
  have hsource : ∀ h j i : Nat, (h * 2 + j) * (2 * half / 2) + i = h * (2 * half) + (j * half + i) := by
    intro h j i
    rw [hhalf]
    ring
  -- a row, a pair of rows and a head
  have hrow : ∀ h < nHeads, ∀ i < half, ∀ j < 2,
      (row data rowBytes ((h * 2 + j) * (2 * half / 2) + i)).length = rowBytes := by
    intro h hh i hi j hj
    refine row_length hlen ?_
    have hheads : (h + 1) * (2 * half) ≤ nHeads * (2 * half) := Nat.mul_le_mul_right _ hh
    have hle : j * half ≤ 1 * half := Nat.mul_le_mul_right half (by omega)
    rw [hsource]
    rw [Nat.succ_mul] at hheads
    omega
  have hpair : ∀ h < nHeads, ∀ i < 2 * half / 2, ((List.range 2).flatMap fun j =>
      row data rowBytes ((h * 2 + j) * (2 * half / 2) + i)).length = 2 * rowBytes := by
    intro h hh i hi
    exact length_flatMap_range fun j hj => hrow h hh i (hhalf ▸ hi) j hj
  have hhead : ∀ h < nHeads, ((List.range (2 * half / 2)).flatMap fun i => (List.range 2).flatMap fun j =>
      row data rowBytes ((h * 2 + j) * (2 * half / 2) + i)).length = 2 * half * rowBytes := by
    intro h hh
    rw [length_flatMap_range (hpair h hh), hhalf]
    ring
  refine ⟨?_, fun h hh i hi j hj => ?_⟩
  · rw [converterPermute, length_flatMap_range hhead, hlen]
    ring
  · have hin : 2 * i + j < 2 * half := by omega
    have hone : (row data rowBytes ((h * 2 + j) * (2 * half / 2) + i)).length = rowBytes := hrow h hh i hi j hj
    rw [converterPermute, row_flatMap_range hhead hh hin, Nat.mul_comm 2 i,
      row_flatMap_range (hpair h hh) (hhalf.symm ▸ hi) hj]
    have hlast := row_flatMap_range (f := fun j => row data rowBytes ((h * 2 + j) * (2 * half / 2) + i)) (n := 2)
      (m := 1) (r := j) (q := 0) (fun j hj => (hrow h hh i hi j hj).trans (Nat.one_mul _).symm) hj Nat.one_pos
    rw [Nat.mul_one, Nat.add_zero] at hlast
    rw [hlast, row_all hone, hsource]

/-- The copies put the converter's rows back. -/
theorem depermuteRows_permuted (hlen : data.length = nHeads * (2 * half) * rowBytes) :
    depermuteRows (converterPermute nHeads (2 * half) rowBytes data) rowBytes nHeads (2 * half) = some data := by
  obtain ⟨hsize, hrows⟩ := row_permuted hlen
  obtain ⟨out, hout, hlength, hcopied⟩ := depermuteRows_spec (hsize.trans hlen)
  rw [hout]
  congr 1
  refine ext_rows ((hlength.trans hsize).trans hlen) hlen fun d hd => ?_
  -- row `d` is some row of some head
  have hmem : d ∈ (moves nHeads (2 * half)).map (·.2) := by
    rw [moves_targets]
    exact List.mem_range.2 hd
  obtain ⟨m, hm, rfl⟩ := List.mem_map.1 hmem
  rw [hcopied m hm]
  obtain ⟨h, hh, r, hr, rfl⟩ := mem_moves.1 hm
  obtain ⟨i, hi, j, hj, hrow, hmod, hdiv⟩ := half_cases hr
  have hhalf : 2 * half / 2 = half := Nat.mul_div_cancel_left half Nat.two_pos
  change row _ rowBytes (h * (2 * half) + 2 * (r % (2 * half / 2)) + r / (2 * half / 2)) = _
  rw [hhalf, hmod, hdiv, Nat.add_assoc, hrows h hh i hi j hj, ← hrow]

end Rows

/-! ## The weights -/

/-- The weight whose rows the converter has permuted inside each head. -/
inductive Permuted (nHeads headDim : Nat) : LinearWeight layouts → LinearWeight layouts → Prop where
  | candle {t t' : QTensor layouts} {k : Nat} (hdims : t.dims = [nHeads * headDim, k])
      (hblocks : k % layouts.blockSize t.dtype = 0) (hdtype : t'.dtype = t.dtype) (hdims' : t'.dims = t.dims)
      (hdata : t'.data =
        converterPermute nHeads headDim (k / layouts.blockSize t.dtype * layouts.typeSize t.dtype) t.data) :
      Permuted nHeads headDim (.candle t) (.candle t')
  | owned {w w' : StagedWeight} (hrows : w.n = nHeads * headDim) (hlt : w.n < words)
      (hsize : w.buffer.length = w.n * (w.k / w.kind.blockElems * w.kind.blockBytes)) (hkind : w'.kind = w.kind)
      (hn : w'.n = w.n) (hk : w'.k = w.k)
      (hbuffer : w'.buffer =
        converterPermute nHeads headDim (w.k / w.kind.blockElems * w.kind.blockBytes) w.buffer) :
      Permuted nHeads headDim (.owned w) (.owned w')

/-- The device makes the weight of its own bytes. -/
def Device.Builds (device : Device layouts) : LinearWeight layouts → Prop
  | .candle t => device.newQTensor t.dtype t.data t.dims = .ok t
  | .owned w => ∃ newBuffer, device.newBuffer = some newBuffer ∧ newBuffer w.buffer = .ok w.buffer

section Weights

variable {b : Build} {device : Device layouts} {nHeads half : Nat}

/-- A tensor's own bytes make the tensor. -/
theorem qtensorWithStaged_own {t : QTensor layouts} (h : device.Builds (.candle t)) :
    qtensorWithStaged b layouts device.newQTensor t.dtype t.data t.dims = .ok t := by
  have hnew : device.newQTensor t.dtype t.data t.dims = .ok t := h
  have hword : word b (t.dims.prod / layouts.blockSize t.dtype * layouts.typeSize t.dtype) = .ok t.data.length := by
    rw [word_fits (t.size ▸ t.size_lt), ← t.size]
  unfold qtensorWithStaged
  rw [product_climbs t.climbs]
  change (if t.dims.prod % _ ≠ 0 then _ else _) = _
  rw [if_neg (not_not.2 t.whole), hword]
  change (if t.data.length ≠ t.data.length then _ else _) = _
  rw [if_neg (not_not.2 rfl), hnew]

/-- The function, behind its checks. -/
theorem depermuteQkRows_eq {weight : LinearWeight layouts} {k rowBytes : Nat} {data out : List UInt8}
    (hmatrix : weight.matrix = .ok (nHeads * (2 * half), k)) (hlt : nHeads * (2 * half) < words)
    (hrows : weight.rowsOf k = .ok (data, rowBytes)) (hout : depermuteRows data rowBytes nHeads (2 * half) = some out) :
    depermuteQkRows b device weight nHeads (2 * half) = weight.rebuilt b device out (nHeads * (2 * half)) k := by
  unfold depermuteQkRows
  rw [hmatrix]
  change (word b (nHeads * (2 * half)) >>= fun expected => if nHeads * (2 * half) ≠ expected ∨ 2 * half % 2 ≠ 0 then _
    else _) = _
  rw [word_fits hlt]
  change (if nHeads * (2 * half) ≠ nHeads * (2 * half) ∨ 2 * half % 2 ≠ 0 then _ else _) = _
  rw [if_neg (by omega), hrows]
  change (match depermuteRows data rowBytes nHeads (2 * half) with | none => _ | some out => _) = _
  rw [hout]

theorem depermuteQkRows_permuted {weight permuted : LinearWeight layouts}
    (h : Permuted nHeads (2 * half) weight permuted) (hbuilds : device.Builds weight) :
    depermuteQkRows b device permuted nHeads (2 * half) = .ok weight := by
  cases h with
  | @candle t t' k hdims hblocks hdtype hdims' hdata =>
      have hlt : nHeads * (2 * half) < words := by
        have hfirst := t.climbs 1
        rw [hdims] at hfirst
        simpa using hfirst
      have hlen : t.data.length = nHeads * (2 * half) * (k / layouts.blockSize t.dtype * layouts.typeSize t.dtype) := by
        have hprod : t.dims.prod = nHeads * (2 * half) * k := by
          rw [hdims]
          simp
        rw [t.size, hprod, Nat.mul_div_assoc _ (Nat.dvd_of_mod_eq_zero hblocks), Nat.mul_assoc]
      have hmatrix : (LinearWeight.candle t').matrix = .ok (nHeads * (2 * half), k) := by
        simp only [LinearWeight.matrix, hdims', hdims]
      have hrows : (LinearWeight.candle t').rowsOf k =
          .ok (t'.data, k / layouts.blockSize t.dtype * layouts.typeSize t.dtype) := by
        simp only [LinearWeight.rowsOf, hdtype, if_neg (not_not.2 hblocks)]
      have hback := depermuteRows_permuted hlen
      rw [← hdata] at hback
      rw [depermuteQkRows_eq hmatrix hlt hrows hback]
      change (qtensorWithStaged b layouts device.newQTensor t'.dtype t.data [nHeads * (2 * half), k] >>= _) = _
      rw [hdtype, ← hdims, qtensorWithStaged_own hbuilds]
      rfl
  | @owned w w' hrows hlt hsize hkind hn hk hbuffer =>
      obtain ⟨newBuffer, hmetal, hnew⟩ := hbuilds
      rw [hrows] at hlt hsize
      have hmatrix : (LinearWeight.owned w' : LinearWeight layouts).matrix = .ok (nHeads * (2 * half), w.k) := by
        simp only [LinearWeight.matrix, hn, hrows, hk]
      have hbytes : (LinearWeight.owned w' : LinearWeight layouts).rowsOf w.k =
          .ok (w'.buffer, w.k / w.kind.blockElems * w.kind.blockBytes) := by
        simp only [LinearWeight.rowsOf, hkind]
      have hback := depermuteRows_permuted hsize
      rw [← hbuffer] at hback
      rw [depermuteQkRows_eq hmatrix hlt hbytes hback]
      unfold LinearWeight.rebuilt ownedFromRows StagedWeight.ofKind
      obtain ⟨kind, n, k, buffer, hwhole⟩ := w
      simp only [hmetal, hnew, hkind, dif_pos hwhole, ← hrows]

end Weights

/-- Depermuting gives back what the converter permuted: the bytes of the rows, of any length, and with them the
weight. Inside a head the source rows are its rows, each once, and every row is written once. -/
theorem depermute_inverts_permute (b : Build) (device : Device layouts) (nHeads headDim : Nat)
    (heven : headDim % 2 = 0) :
    (∀ (rowBytes : Nat) (data : List UInt8), data.length = nHeads * headDim * rowBytes →
      depermuteRows (converterPermute nHeads headDim rowBytes data) rowBytes nHeads headDim = some data) ∧
    (moves nHeads headDim).map (·.2) = List.range (nHeads * headDim) ∧
    (∀ h < nHeads, Set.BijOn (fun r => h * headDim + 2 * (r % (headDim / 2)) + r / (headDim / 2)) (Set.Iio headDim)
      (Set.Ico (h * headDim) (h * headDim + headDim))) ∧
    ∀ weight permuted : LinearWeight layouts, Permuted nHeads headDim weight permuted → device.Builds weight →
      depermuteQkRows b device permuted nHeads headDim = .ok weight := by
  obtain ⟨half, rfl⟩ := Nat.dvd_of_mod_eq_zero heven
  have hhalf : 2 * half / 2 = half := Nat.mul_div_cancel_left half Nat.two_pos
  refine ⟨fun rowBytes data hlen => depermuteRows_permuted hlen, moves_targets _ _, fun h hh => ?_,
    fun weight permuted h hbuilds => depermuteQkRows_permuted h hbuilds⟩
  rw [hhalf]
  exact source_bijOn h half

/-- Two heads of six rows, of one byte each. -/
theorem depermute_inverts_permute_sixes :
    depermuteRows (converterPermute 2 6 1 [0, 1, 2, 3, 4, 5, 6, 7, 8, 9, 10, 11]) 1 2 6 =
        some [0, 1, 2, 3, 4, 5, 6, 7, 8, 9, 10, 11] ∧
      converterPermute 2 6 1 [0, 1, 2, 3, 4, 5, 6, 7, 8, 9, 10, 11] = [0, 3, 1, 4, 2, 5, 6, 9, 7, 10, 8, 11] :=
  ⟨(depermute_inverts_permute .checked (⟨fun _ _ _ => .error "", none⟩ : Device ggmlLayouts) 2 6 rfl).1 1 _ rfl,
    by decide⟩

end Oxydllm.Gguf
