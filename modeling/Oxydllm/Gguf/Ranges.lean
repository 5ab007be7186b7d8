/-
# Oxydllm.Gguf.Ranges — the bytes of the file that a tensor is built from.

The product of the dimensions, the size of the blocks and the start of the range are computed in words, with no
check but the one on the end. A release build wraps, and then reads whatever range comes out if that lies inside
the file; a build that checks overflow panics. What is read is what the header states exactly where none of the
three leaves the words, or the type or the wrapped range is refused (`exact_iff`).
-/
import Oxydllm.Gguf.Probe
import Oxydllm.Lib.Overflow

namespace Oxydllm.Gguf

open Overflow

/-! ## Block layouts -/

/-- `GgmlDType::block_size` and `type_size`: a block has 1, 32 or 256 elements. -/
structure BlockLayouts where
  blockSize : GgmlDType → Nat
  typeSize : GgmlDType → Nat
  blockSize_dvd : ∀ t, blockSize t ∣ words
  typeSize_pos : ∀ t, 0 < typeSize t

/-- The layouts of `ggml`. -/
def ggmlLayouts : BlockLayouts where
  blockSize
    | .f32 | .f16 | .bf16 => 1
    | .q4_0 | .q4_1 | .q5_0 | .q5_1 | .q8_0 | .q8_1 => 32
    | .q2k | .q3k | .q4k | .q5k | .q6k | .q8k => 256
  typeSize
    | .f32 => 4
    | .f16 | .bf16 => 2
    | .q4_0 => 18
    | .q4_1 => 20
    | .q5_0 => 22
    | .q5_1 => 24
    | .q8_0 => 34
    | .q8_1 => 36
    | .q2k => 84
    | .q3k => 110
    | .q4k => 144
    | .q5k => 176
    | .q6k => 210
    | .q8k => 292
  blockSize_dvd t := by cases t <;> decide
  typeSize_pos t := by cases t <;> decide

/-- The kinds of `WeightKind` that candle has no name for. -/
inductive WeightKind where
  | iq4Nl
  | iq3S
  | iq4Xs
  deriving DecidableEq, Repr

def WeightKind.fromGgmlIdIq (id : UInt32) : Option WeightKind :=
  match id.toNat with
  | 20 => some .iq4Nl
  | 21 => some .iq3S
  | 23 => some .iq4Xs
  | _ => none

def WeightKind.blockElems : WeightKind → Nat
  | .iq4Nl => 32
  | _ => 256

def WeightKind.blockBytes : WeightKind → Nat
  | .iq4Nl => 18
  | .iq3S => 110
  | .iq4Xs => 136

/-! ## A tensor of a file -/

/-- A file that can be mapped: its length is a `usize`. -/
structure File where
  bytes : List UInt8
  length_lt : bytes.length < words

/-- What the build and the device can decode of the types only this crate reads. -/
inductive Backend where
  /-- Built without the `metal` feature. -/
  | portable
  /-- Built with it, on another device. -/
  | offMetal
  /-- On Metal, and whether the GPU builds the kernels. -/
  | metal (kernels : Bool)
  deriving DecidableEq, Repr

/-- A read of the file: where it starts, and how many bytes. -/
structure Range where
  start : Nat
  size : Nat
  deriving DecidableEq, Repr

def File.read (file : File) (r : Range) : List UInt8 := (file.bytes.drop r.start).take r.size

inductive Built (QTensor : Type) where
  | candle (tensor : QTensor)
  | owned (kind : WeightKind) (n k : Nat) (buffer : List UInt8)

def bail {α : Type} (msg : String) : Run α := .error (.error msg)

section Build

variable (b : Build) (layouts : BlockLayouts) (backend : Backend)

/-- `read_tensor_bytes`, up to the read. -/
def tensorRange (fileLen dataOffset : Nat) (entry : TensorEntry) (sizeInBytes : Nat) : Run Range := do
  let start ← word b (dataOffset + entry.offset.toNat)
  if start + sizeInBytes < words then
    if start + sizeInBytes > fileLen then
      bail s!"tensor slice ({start}..{start + sizeInBytes}) out of file bounds ({fileLen})"
    else .ok ⟨start, sizeInBytes⟩
  else bail "tensor offset overflow"

/-- What `build_owned` reads. -/
def ownedRange (fileLen dataOffset : Nat) (entry : TensorEntry) : Run (WeightKind × Nat × Nat × Range) :=
  let name := String.ofList (typeName entry.typeId)
  match backend with
  | .portable => bail s!"tensor type {name} is decoded on Metal only"
  | backend =>
      match WeightKind.fromGgmlIdIq entry.typeId with
      | none => bail s!"tensor type {name} is one this engine does not decode"
      | some kind =>
          if backend = .offMetal then bail s!"{name} weights are decoded on Metal only"
          else if backend = .metal false then bail s!"this GPU does not build the kernels that decode {name} weights"
          else
            match entry.dims with
            | [n, k] =>
                if k % kind.blockElems ≠ 0 then
                  bail s!"row length {k} not divisible by {name} block size {kind.blockElems}"
                else do
                  let elems ← word b (n * k)
                  let sizeInBytes ← word b (elems / kind.blockElems * kind.blockBytes)
                  let range ← tensorRange b fileLen dataOffset entry sizeInBytes
                  .ok (kind, n, k, range)
            | dims => bail s!"tensor is {name} with shape {dims}; this engine decodes {name} only as a matrix"

/-- What `build_tensor` reads for a type candle names. -/
def candleRange (fileLen dataOffset : Nat) (entry : TensorEntry) (dtype : GgmlDType) (tensorElems : Nat) : Run Range :=
  if tensorElems % layouts.blockSize dtype ≠ 0 then
    bail s!"tensor elements {tensorElems} not divisible by block size {layouts.blockSize dtype}"
  else do
    let sizeInBytes ← word b (tensorElems / layouts.blockSize dtype * layouts.typeSize dtype)
    tensorRange b fileLen dataOffset entry sizeInBytes

/-- The read that `build_tensor` makes of the file. -/
def readOf (fileLen dataOffset : Nat) (entry : TensorEntry) : Run Range := do
  let tensorElems ← product b entry.dims
  match candleDtype entry.typeId with
  | some dtype => candleRange b layouts fileLen dataOffset entry dtype tensorElems
  | none => do
      let owned ← ownedRange b backend fileLen dataOffset entry
      .ok owned.2.2.2

variable {QTensor : Type} (newQTensor : GgmlDType → List UInt8 → List Nat → Except String QTensor)

/-- `qtensor_with_staged`; what candle makes of the bytes is `newQTensor`. -/
def qtensorWithStaged (dtype : GgmlDType) (bytes : List UInt8) (dims : List Nat) : Run QTensor := do
  let elems ← product b dims
  if elems % layouts.blockSize dtype ≠ 0 then
    bail s!"tensor elements {elems} not divisible by block size {layouts.blockSize dtype}"
  else do
    let expected ← word b (elems / layouts.blockSize dtype * layouts.typeSize dtype)
    if bytes.length ≠ expected then bail s!"tensor {dims} needs {expected} bytes, got {bytes.length}"
    else
      match newQTensor dtype bytes dims with
      | .ok tensor => .ok tensor
      | .error e => bail e

def builtCandle : Run QTensor → Run (Built QTensor)
  | .ok tensor => .ok (.candle tensor)
  | .error (.error e) => bail s!"building the tensor failed: {e}"
  | .error .panic => .error .panic

/-- `build_tensor`. -/
def buildTensor (file : File) (dataOffset : Nat) (entry : TensorEntry) : Run (Built QTensor) := do
  let tensorElems ← product b entry.dims
  match candleDtype entry.typeId with
  | some dtype => do
      let range ← candleRange b layouts file.bytes.length dataOffset entry dtype tensorElems
      builtCandle (qtensorWithStaged b layouts newQTensor dtype (file.read range) entry.dims)
  | none => do
      let owned ← ownedRange b backend file.bytes.length dataOffset entry
      if owned.2.2.1 % owned.1.blockElems = 0 then
        .ok (.owned owned.1 owned.2.1 owned.2.2.1 (file.read owned.2.2.2))
      else bail s!"{String.ofList (typeName entry.typeId)} weight rows are not whole blocks"

end Build

/-! ## What the header states -/

/-- Elements and bytes of a block of a type that the backend knows. -/
def blockOf (layouts : BlockLayouts) (typeId : UInt32) : Option (Nat × Nat) :=
  match candleDtype typeId with
  | some t => some (layouts.blockSize t, layouts.typeSize t)
  | none => (WeightKind.fromGgmlIdIq typeId).map fun kind => (kind.blockElems, kind.blockBytes)

/-- The range the header states, in unbounded integers. -/
def stated (entry : TensorEntry) (dataOffset : Nat) (block : Nat × Nat) : Range :=
  ⟨dataOffset + entry.offset.toNat, entry.dims.prod / block.1 * block.2⟩

/-- The block of an entry that `build_owned` does not refuse for its type or its shape. -/
def ownedBlock (backend : Backend) (entry : TensorEntry) : Option (Nat × Nat) :=
  match backend, WeightKind.fromGgmlIdIq entry.typeId, entry.dims with
  | .metal true, some kind, [_, k] => if k % kind.blockElems = 0 then some (kind.blockElems, kind.blockBytes) else none
  | _, _, _ => none

def candleBlock (layouts : BlockLayouts) (entry : TensorEntry) (t : GgmlDType) : Option (Nat × Nat) :=
  if entry.dims.prod % layouts.blockSize t = 0 then some (layouts.blockSize t, layouts.typeSize t) else none

/-- The block of an entry that is not refused for its type or its shape. -/
def decoded (layouts : BlockLayouts) (backend : Backend) (entry : TensorEntry) : Option (Nat × Nat) :=
  match candleDtype entry.typeId with
  | some t => candleBlock layouts entry t
  | none => ownedBlock backend entry

section Property

variable (b : Build) (layouts : BlockLayouts) (backend : Backend) {QTensor : Type}
  (newQTensor : GgmlDType → List UInt8 → List Nat → Except String QTensor) (file : File) (dataOffset : Nat)
  (entry : TensorEntry)

/-- What an entry is built into from the bytes of its range. -/
inductive BuiltFrom (bytes : List UInt8) : Built QTensor → Prop where
  | candle (t : GgmlDType) (tensor : QTensor) (htype : candleDtype entry.typeId = some t)
      (hnew : newQTensor t bytes entry.dims = .ok tensor) : BuiltFrom bytes (.candle tensor)
  | owned (kind : WeightKind) (n k : Nat) (htype : WeightKind.fromGgmlIdIq entry.typeId = some kind)
      (hdims : entry.dims = [n, k]) : BuiltFrom bytes (.owned kind n k bytes)

/-- Building never panics; a read is of the range the header states, which the file has; and what is built is
built from the bytes there. -/
structure Exact : Prop where
  no_panic : buildTensor b layouts backend newQTensor file dataOffset entry ≠ .error .panic
  range : ∀ r, readOf b layouts backend file.bytes.length dataOffset entry = .ok r →
    ∃ block, blockOf layouts entry.typeId = some block ∧ r = stated entry dataOffset block ∧
      r.start + r.size ≤ file.bytes.length
  built : ∀ t, buildTensor b layouts backend newQTensor file dataOffset entry = .ok t →
    ∃ block, blockOf layouts entry.typeId = some block ∧
      BuiltFrom newQTensor entry (file.read (stated entry dataOffset block)) t

/-- Nothing the header states leaves the words. -/
def FitsWords (block : Nat × Nat) : Prop :=
  entry.dims.prod < words ∧ entry.dims.prod / block.1 * block.2 < words ∧ dataOffset + entry.offset.toNat < words

/-- The range that comes out of wrapping ends behind the file. -/
def Outside (block : Nat × Nat) : Prop :=
  file.bytes.length <
    (dataOffset + entry.offset.toNat) % words + entry.dims.prod % words / block.1 * block.2 % words

/-- In a checked build the product of the dimensions climbs, whatever the type; and an entry that is not refused
states a range in words, or in a wrapping build one that wraps to behind the file. -/
def InWords : Prop :=
  (b = .checked → Climbs entry.dims) ∧
    ∀ block, decoded layouts backend entry = some block →
      FitsWords dataOffset entry block ∨ b = .wrapping ∧ Outside file dataOffset entry block

end Property

/-! ## The steps -/

section Steps

variable {b : Build} {layouts : BlockLayouts} {backend : Backend} {fileLen dataOffset : Nat} {entry : TensorEntry}

theorem product_mod {dims : List Nat} {n : Nat} (h : product b dims = .ok n) : n % words = dims.prod % words := by
  cases b with
  | wrapping =>
      rw [product_wrapping] at h
      cases h
      exact Nat.mod_mod _ _
  | checked =>
      by_cases hclimbs : Climbs dims
      · rw [product_climbs hclimbs] at h
        cases h
        rfl
      · rw [product_checked hclimbs] at h
        cases h

/-- Whether the elements are whole blocks is not lost in wrapping. -/
theorem mod_block {m n block : Nat} (hdvd : block ∣ words) (h : n % words = m % words) : n % block = m % block := by
  rw [← Nat.mod_mod_of_dvd n hdvd, h, Nat.mod_mod_of_dvd m hdvd]

theorem product_pair {n k e : Nat} (h : product b [n, k] = .ok e) : word b (n * k) = .ok e := by
  have hprod : [n, k].prod = n * k := by simp
  cases b with
  | wrapping =>
      rw [product_wrapping, hprod] at h
      rw [word_wrapping]
      exact h
  | checked =>
      by_cases hclimbs : Climbs [n, k]
      · rw [product_climbs hclimbs, hprod] at h
        cases h
        exact word_fits (hprod ▸ hclimbs.prod_lt)
      · rw [product_checked hclimbs] at h
        cases h

theorem blockElems_dvd (kind : WeightKind) : kind.blockElems ∣ words := by cases kind <;> decide

theorem blockBytes_pos (kind : WeightKind) : 0 < kind.blockBytes := by cases kind <;> decide

theorem tensorRange_ok {size : Nat} {r : Range} (h : tensorRange b fileLen dataOffset entry size = .ok r) :
    word b (dataOffset + entry.offset.toNat) = .ok r.start ∧ r.size = size ∧ r.start + size ≤ fileLen := by
  obtain ⟨start, hstart, hrest⟩ := Traverse.bind_eq_ok.1 h
  split at hrest
  · split at hrest
    · cases hrest
    · rename_i hend
      cases hrest
      exact ⟨hstart, rfl, Nat.not_lt.1 hend⟩
  · cases hrest

theorem tensorRange_inside {size start : Nat} (hlen : fileLen < words)
    (hstart : word b (dataOffset + entry.offset.toNat) = .ok start) (hin : start + size ≤ fileLen) :
    tensorRange b fileLen dataOffset entry size = .ok ⟨start, size⟩ := by
  unfold tensorRange
  rw [hstart]
  change (if start + size < words then _ else _) = _
  rw [if_pos (Nat.lt_of_le_of_lt hin hlen), if_neg (Nat.not_lt.2 hin)]

theorem tensorRange_panic {size : Nat} (h : tensorRange b fileLen dataOffset entry size = .error .panic) :
    b = .checked ∧ ¬ dataOffset + entry.offset.toNat < words := by
  by_cases hO : dataOffset + entry.offset.toNat < words
  · unfold tensorRange bail at h
    rw [word_fits hO] at h
    change (if _ then _ else _) = _ at h
    split at h
    · split at h <;> cases h
    · cases h
  · refine ⟨?_, hO⟩
    cases b with
    | checked => rfl
    | wrapping =>
        unfold tensorRange bail at h
        rw [word_wrapping] at h
        change (if _ then _ else _) = _ at h
        split at h
        · split at h <;> cases h
        · cases h

/-- What is left to do for an entry that is not refused. -/
def readDecoded (b : Build) (fileLen dataOffset : Nat) (entry : TensorEntry) (block : Nat × Nat) : Run Range := do
  let elems ← product b entry.dims
  let sizeInBytes ← word b (elems / block.1 * block.2)
  tensorRange b fileLen dataOffset entry sizeInBytes

theorem ownedBlock_some {block : Nat × Nat} (h : ownedBlock backend entry = some block) :
    backend = .metal true ∧ ∃ (kind : WeightKind) (n k : Nat), WeightKind.fromGgmlIdIq entry.typeId = some kind ∧
      entry.dims = [n, k] ∧ k % kind.blockElems = 0 ∧ block = (kind.blockElems, kind.blockBytes) := by
  unfold ownedBlock at h
  split at h
  · rename_i kind n k hkind hdims
    split at h
    · rename_i hwhole
      exact ⟨rfl, kind, n, k, hkind, hdims, hwhole, (Option.some.inj h).symm⟩
    · cases h
  · cases h

theorem ownedRange_decoded (fileLen dataOffset : Nat) {block : Nat × Nat}
    (h : ownedBlock backend entry = some block) {e : Nat}
    (hprod : product b entry.dims = .ok e) :
    ∃ (kind : WeightKind) (n k : Nat), WeightKind.fromGgmlIdIq entry.typeId = some kind ∧ entry.dims = [n, k] ∧
      k % kind.blockElems = 0 ∧ block = (kind.blockElems, kind.blockBytes) ∧
      ownedRange b backend fileLen dataOffset entry = (do
        let range ← readDecoded b fileLen dataOffset entry block
        .ok (kind, n, k, range)) := by
  obtain ⟨rfl, kind, n, k, hkind, hdims, hwhole, rfl⟩ := ownedBlock_some h
  refine ⟨kind, n, k, hkind, hdims, hwhole, rfl, ?_⟩
  unfold readDecoded
  rw [hprod]
  rw [hdims] at hprod
  unfold ownedRange
  simp only [hkind, hdims, hwhole, product_pair hprod, ne_eq, not_true_eq_false, if_false, reduceCtorEq,
    Backend.metal.injEq, Bool.true_eq_false]
  change (word b _ >>= fun _ => _) = (word b _ >>= fun _ => _) >>= fun _ => _
  rw [bind_assoc]

/-- What `build_owned` refuses, it refuses with an error. -/
theorem ownedRange_refused (fileLen dataOffset : Nat) (h : ownedBlock backend entry = none) :
    ∃ msg, ownedRange b backend fileLen dataOffset entry = .error (.error msg) := by
  unfold ownedRange
  cases backend with
  | portable => exact ⟨_, rfl⟩
  | offMetal =>
      cases hkind : WeightKind.fromGgmlIdIq entry.typeId with
      | none => exact ⟨_, rfl⟩
      | some kind => exact ⟨_, rfl⟩
  | metal kernels =>
      cases hkind : WeightKind.fromGgmlIdIq entry.typeId with
      | none => exact ⟨_, rfl⟩
      | some kind =>
          cases kernels with
          | false => exact ⟨_, rfl⟩
          | true =>
              unfold ownedBlock at h
              rw [hkind] at h
              simp only [reduceCtorEq, if_false, Backend.metal.injEq, Bool.true_eq_false]
              split at h
              · rename_i kind' n k hsome hdims
                cases hsome
                split at h
                · cases h
                · rename_i hwhole
                  rw [hdims]
                  exact ⟨_, if_pos hwhole⟩
              · rename_i hno
                split
                · rename_i n k hdims
                  exact absurd hdims (hno kind n k rfl rfl)
                · exact ⟨_, rfl⟩

theorem readOf_decoded {block : Nat × Nat} (h : decoded layouts backend entry = some block) :
    readOf b layouts backend fileLen dataOffset entry = readDecoded b fileLen dataOffset entry block := by
  unfold readOf
  cases hprod : product b entry.dims with
  | error stop =>
      unfold readDecoded
      rw [hprod]
      rfl
  | ok e =>
      unfold decoded at h
      cases htype : candleDtype entry.typeId with
      | some t =>
          rw [htype] at h
          change candleBlock layouts entry t = some block at h
          unfold candleBlock at h
          split at h
          · rename_i hwhole
            cases h
            -- whole blocks can be seen on the wrapped product, since a block divides the words
            have hmod : e % layouts.blockSize t = 0 :=
              (mod_block (layouts.blockSize_dvd t) (product_mod hprod)).trans hwhole
            change candleRange b layouts fileLen dataOffset entry t e = _
            unfold candleRange readDecoded
            rw [if_neg (not_not.2 hmod), hprod]
            rfl
          · cases h
      | none =>
          rw [htype] at h
          obtain ⟨kind, n, k, -, -, -, -, howned⟩ := ownedRange_decoded fileLen dataOffset h hprod
          change (do
            let owned ← ownedRange b backend fileLen dataOffset entry
            (Except.ok owned.2.2.2 : Run Range)) = _
          rw [howned, bind_assoc]
          exact bind_pure _

/-- What is refused for its type or its shape is refused with an error, once the product is there. -/
theorem readOf_refused (fileLen dataOffset : Nat) (h : decoded layouts backend entry = none) {e : Nat}
    (hprod : product b entry.dims = .ok e) :
    ∃ msg, readOf b layouts backend fileLen dataOffset entry = .error (.error msg) := by
  unfold readOf
  rw [hprod]
  unfold decoded at h
  cases htype : candleDtype entry.typeId with
  | some t =>
      rw [htype] at h
      change candleBlock layouts entry t = none at h
      unfold candleBlock at h
      split at h
      · cases h
      · rename_i hwhole
        have hmod : e % layouts.blockSize t ≠ 0 := by
          rw [mod_block (layouts.blockSize_dvd t) (product_mod hprod)]
          exact hwhole
        exact ⟨_, if_pos hmod⟩
  | none =>
      rw [htype] at h
      obtain ⟨msg, hmsg⟩ := ownedRange_refused (b := b) fileLen dataOffset h
      refine ⟨msg, ?_⟩
      change (do
        let owned ← ownedRange b backend fileLen dataOffset entry
        (Except.ok owned.2.2.2 : Run Range)) = _
      rw [hmsg]
      rfl

theorem blockOf_of_decoded {block : Nat × Nat} (h : decoded layouts backend entry = some block) :
    blockOf layouts entry.typeId = some block ∧ block.1 ∣ words ∧ 0 < block.2 := by
  unfold decoded at h
  unfold blockOf
  cases htype : candleDtype entry.typeId with
  | some t =>
      rw [htype] at h
      change candleBlock layouts entry t = some block at h
      unfold candleBlock at h
      split at h
      · cases h
        exact ⟨rfl, layouts.blockSize_dvd t, layouts.typeSize_pos t⟩
      · cases h
  | none =>
      rw [htype] at h
      obtain ⟨-, kind, n, k, hkind, -, -, rfl⟩ := ownedBlock_some h
      rw [hkind]
      exact ⟨rfl, blockElems_dvd kind, blockBytes_pos kind⟩

/-! ## The whole build -/

/-- The entry is refused, or its product is computed, divided and multiplied, and the range checked. -/
theorem readDecoded_ok {block : Nat × Nat} {r : Range} (h : readDecoded b fileLen dataOffset entry block = .ok r) :
    ∃ e, product b entry.dims = .ok e ∧ word b (e / block.1 * block.2) = .ok r.size ∧
      word b (dataOffset + entry.offset.toNat) = .ok r.start ∧ r.start + r.size ≤ fileLen := by
  obtain ⟨e, hprod, hrest⟩ := Traverse.bind_eq_ok.1 h
  obtain ⟨size, hsize, hrange⟩ := Traverse.bind_eq_ok.1 hrest
  obtain ⟨hstart, rfl, hend⟩ := tensorRange_ok hrange
  exact ⟨e, hprod, hsize, hstart, hend⟩

theorem readOf_ok {r : Range} (h : readOf b layouts backend fileLen dataOffset entry = .ok r) :
    ∃ block, decoded layouts backend entry = some block ∧ readDecoded b fileLen dataOffset entry block = .ok r := by
  cases hdecoded : decoded layouts backend entry with
  | some block =>
      rw [readOf_decoded hdecoded] at h
      exact ⟨block, rfl, h⟩
  | none =>
      cases hprod : product b entry.dims with
      | error stop =>
          unfold readOf at h
          rw [hprod] at h
          cases h
      | ok e =>
          obtain ⟨msg, hmsg⟩ := readOf_refused fileLen dataOffset hdecoded hprod
          rw [hmsg] at h
          cases h

theorem File.length_read {file : File} {r : Range} (h : r.start + r.size ≤ file.bytes.length) :
    (file.read r).length = r.size := by
  unfold File.read
  rw [List.length_take, List.length_drop]
  omega

variable {QTensor : Type} {newQTensor : GgmlDType → List UInt8 → List Nat → Except String QTensor} {file : File}

/-- The checks of `qtensor_with_staged` on bytes that were read for the entry all pass. -/
theorem qtensorWithStaged_read (newQTensor : GgmlDType → List UInt8 → List Nat → Except String QTensor) (file : File)
    {t : GgmlDType} {r : Range} {dims : List Nat} {e : Nat}
    (hprod : product b dims = .ok e) (hwhole : e % layouts.blockSize t = 0)
    (hsize : word b (e / layouts.blockSize t * layouts.typeSize t) = .ok r.size)
    (hend : r.start + r.size ≤ file.bytes.length) :
    qtensorWithStaged b layouts newQTensor t (file.read r) dims =
      match newQTensor t (file.read r) dims with
      | .ok tensor => .ok tensor
      | .error msg => bail msg := by
  unfold qtensorWithStaged
  rw [hprod]
  change (if _ then _ else _) = _
  rw [if_neg (not_not.2 hwhole), hsize]
  exact if_neg (not_not.2 (File.length_read hend))

/-- Where nothing is read, nothing is built, for the reason there is. -/
theorem buildTensor_of_error {stop : Stop}
    (h : readOf b layouts backend file.bytes.length dataOffset entry = .error stop) :
    buildTensor b layouts backend newQTensor file dataOffset entry = .error stop := by
  unfold readOf at h
  unfold buildTensor
  cases hprod : product b entry.dims with
  | error stop' =>
      rw [hprod] at h
      cases h
      rfl
  | ok e =>
      rw [hprod] at h
      cases htype : candleDtype entry.typeId with
      | some t =>
          rw [htype] at h
          change candleRange b layouts file.bytes.length dataOffset entry t e = _ at h
          change (candleRange b layouts file.bytes.length dataOffset entry t e >>= _) = _
          rw [h]
          rfl
      | none =>
          rw [htype] at h
          change (ownedRange b backend file.bytes.length dataOffset entry >>= _) = _ at h
          change (ownedRange b backend file.bytes.length dataOffset entry >>= _) = _
          cases howned : ownedRange b backend file.bytes.length dataOffset entry with
          | error stop' =>
              rw [howned] at h
              cases h
              rfl
          | ok owned =>
              rw [howned] at h
              cases h

/-- What is read is built from, or refused with an error. -/
theorem buildTensor_of_read {r : Range} (h : readOf b layouts backend file.bytes.length dataOffset entry = .ok r) :
    (∃ msg, buildTensor b layouts backend newQTensor file dataOffset entry = .error (.error msg)) ∨
      ∃ t, buildTensor b layouts backend newQTensor file dataOffset entry = .ok t ∧
        BuiltFrom newQTensor entry (file.read r) t := by
  obtain ⟨block, hdecoded, hread⟩ := readOf_ok h
  obtain ⟨e, hprod, hsize, -, hend⟩ := readDecoded_ok hread
  unfold readOf at h
  unfold buildTensor
  rw [hprod] at h ⊢
  unfold decoded at hdecoded
  cases htype : candleDtype entry.typeId with
  | some t =>
      rw [htype] at h hdecoded
      change candleRange b layouts file.bytes.length dataOffset entry t e = _ at h
      change (∃ msg, (candleRange b layouts file.bytes.length dataOffset entry t e >>= _) = _) ∨
        ∃ u, (candleRange b layouts file.bytes.length dataOffset entry t e >>= _) = _ ∧ _
      rw [h]
      change candleBlock layouts entry t = some block at hdecoded
      unfold candleBlock at hdecoded
      split at hdecoded
      · rename_i hwhole
        cases hdecoded
        have hmod := (mod_block (layouts.blockSize_dvd t) (product_mod hprod)).trans hwhole
        have hstaged := qtensorWithStaged_read newQTensor file hprod hmod hsize hend
        cases hnew : newQTensor t (file.read r) entry.dims with
        | error msg =>
            rw [hnew] at hstaged
            exact .inl ⟨_, congrArg builtCandle hstaged⟩
        | ok tensor =>
            rw [hnew] at hstaged
            exact .inr ⟨.candle tensor, congrArg builtCandle hstaged, .candle t tensor htype hnew⟩
      · cases hdecoded
  | none =>
      rw [htype] at h hdecoded
      obtain ⟨kind, n, k, hkind, hdims, hwhole, -, howned⟩ :=
        ownedRange_decoded file.bytes.length dataOffset hdecoded hprod
      rw [hread] at howned
      refine .inr ⟨.owned kind n k (file.read r), ?_, .owned kind n k hkind hdims⟩
      change (ownedRange b backend file.bytes.length dataOffset entry >>= _) = _
      rw [howned]
      exact if_pos hwhole

/-- A size that wrapping has not changed is that of a product that was not wrapped either. -/
theorem prod_lt_of_size {prod : Nat} {block : Nat × Nat} (hdvd : block.1 ∣ words) (hpos : 0 < block.2)
    (h : prod / block.1 * block.2 = prod % words / block.1 * block.2 % words) : prod < words := by
  by_contra hge
  obtain ⟨m, hm⟩ := hdvd
  have hB : 0 < block.1 := Nat.pos_of_ne_zero fun h0 => by
    rw [h0, Nat.zero_mul] at hm
    exact absurd hm (Nat.ne_of_gt words_pos)
  have hm0 : 0 < m := Nat.pos_of_ne_zero fun h0 => by
    rw [h0, Nat.mul_zero] at hm
    exact absurd hm (Nat.ne_of_gt words_pos)
  have hc : 0 < prod / words := Nat.div_pos (Nat.not_lt.1 hge) words_pos
  -- a product that wraps loses whole blocks, and the size then is too small by all of them
  have hsplit : prod / block.1 = m * (prod / words) + prod % words / block.1 := by
    calc prod / block.1 = (block.1 * (m * (prod / words)) + prod % words) / block.1 := by
          rw [← Nat.mul_assoc, ← hm, Nat.div_add_mod]
      _ = m * (prod / words) + prod % words / block.1 := Nat.mul_add_div hB _ _
  have hlt : prod / block.1 * block.2 < words := h ▸ Nat.mod_lt _ words_pos
  rw [hsplit, Nat.add_mul] at hlt h
  have hs : prod % words / block.1 * block.2 < words := Nat.lt_of_le_of_lt (Nat.le_add_left _ _) hlt
  rw [Nat.mod_eq_of_lt hs] at h
  have hgain : 0 < m * (prod / words) * block.2 := Nat.mul_pos (Nat.mul_pos hm0 hc) hpos
  omega

theorem readDecoded_wrapping (block : Nat × Nat) :
    readDecoded .wrapping fileLen dataOffset entry block =
      tensorRange .wrapping fileLen dataOffset entry (entry.dims.prod % words / block.1 * block.2 % words) := by
  unfold readDecoded
  rw [product_wrapping]
  change (word .wrapping (entry.dims.prod % words / block.1 * block.2) >>= _) = _
  rw [word_wrapping]
  rfl

theorem readDecoded_fits {block : Nat × Nat} (hclimbs : b = .checked → Climbs entry.dims)
    (hfits : FitsWords dataOffset entry block) :
    readDecoded b fileLen dataOffset entry block =
      tensorRange b fileLen dataOffset entry (entry.dims.prod / block.1 * block.2) := by
  obtain ⟨hprod, hsize, -⟩ := hfits
  cases b with
  | wrapping => rw [readDecoded_wrapping, Nat.mod_eq_of_lt hprod, Nat.mod_eq_of_lt hsize]
  | checked =>
      unfold readDecoded
      rw [product_climbs (hclimbs rfl)]
      change (word .checked (entry.dims.prod / block.1 * block.2) >>= _) = _
      rw [word_fits hsize]
      rfl

/-- What wraps to behind the file is not read. -/
theorem readDecoded_outside {block : Nat × Nat} (houtside : Outside file dataOffset entry block) (r : Range) :
    readDecoded .wrapping file.bytes.length dataOffset entry block ≠ .ok r := by
  intro h
  obtain ⟨e, hprod, hsize, hstart, hend⟩ := readDecoded_ok h
  rw [product_wrapping] at hprod
  cases hprod
  rw [word_wrapping] at hsize hstart
  unfold Outside at houtside
  rw [Except.ok.inj hsize, Except.ok.inj hstart] at houtside
  exact absurd hend (Nat.not_le.2 houtside)

theorem readDecoded_no_panic {block : Nat × Nat} (hclimbs : b = .checked → Climbs entry.dims)
    (hfits : FitsWords dataOffset entry block ∨ b = .wrapping) :
    readDecoded b fileLen dataOffset entry block ≠ .error .panic := by
  intro h
  rcases hfits with hfits | rfl
  -- what is left is the start of the range
  · rw [readDecoded_fits hclimbs hfits] at h
    exact (tensorRange_panic h).2 hfits.2.2
  · rw [readDecoded_wrapping] at h
    cases (tensorRange_panic h).1

theorem readOf_no_panic (h : InWords b layouts backend file dataOffset entry) :
    readOf b layouts backend file.bytes.length dataOffset entry ≠ .error .panic := by
  intro hpanic
  obtain ⟨hclimbs, hblock⟩ := h
  cases hdecoded : decoded layouts backend entry with
  | some block =>
      rw [readOf_decoded hdecoded] at hpanic
      exact readDecoded_no_panic hclimbs ((hblock block hdecoded).imp_right And.left) hpanic
  | none =>
      obtain ⟨e, hprod⟩ : ∃ e, product b entry.dims = .ok e := by
        cases b with
        | wrapping => exact ⟨_, product_wrapping _⟩
        | checked => exact ⟨_, product_climbs (hclimbs rfl)⟩
      obtain ⟨msg, hmsg⟩ := readOf_refused file.bytes.length dataOffset hdecoded hprod
      rw [hmsg] at hpanic
      cases hpanic

theorem readOf_stated (h : InWords b layouts backend file dataOffset entry) {r : Range}
    (hr : readOf b layouts backend file.bytes.length dataOffset entry = .ok r) :
    ∃ block, blockOf layouts entry.typeId = some block ∧ r = stated entry dataOffset block ∧
      r.start + r.size ≤ file.bytes.length := by
  obtain ⟨hclimbs, hblock⟩ := h
  obtain ⟨block, hdecoded, hread⟩ := readOf_ok hr
  refine ⟨block, (blockOf_of_decoded hdecoded).1, ?_⟩
  rcases hblock block hdecoded with hfits | ⟨rfl, houtside⟩
  · rw [readDecoded_fits hclimbs hfits] at hread
    obtain ⟨hstart, hsize, hend⟩ := tensorRange_ok hread
    rw [word_fits hfits.2.2] at hstart
    obtain ⟨start, size⟩ := r
    cases hstart
    cases hsize
    exact ⟨rfl, hend⟩
  · exact absurd hread (readDecoded_outside houtside r)

end Steps

section Exactly

variable {b : Build} {layouts : BlockLayouts} {backend : Backend} {QTensor : Type}
  {newQTensor : GgmlDType → List UInt8 → List Nat → Except String QTensor} {file : File} {dataOffset : Nat}
  {entry : TensorEntry}

theorem exact_of_inWords (h : InWords b layouts backend file dataOffset entry) :
    Exact b layouts backend newQTensor file dataOffset entry where
  no_panic hpanic := by
    cases hread : readOf b layouts backend file.bytes.length dataOffset entry with
    | error stop =>
        rw [buildTensor_of_error hread] at hpanic
        cases hpanic
        exact readOf_no_panic h hread
    | ok r =>
        rcases buildTensor_of_read hread with ⟨msg, hmsg⟩ | ⟨t, ht, -⟩
        · rw [hmsg] at hpanic
          cases hpanic
        · rw [ht] at hpanic
          cases hpanic
  range _ := readOf_stated h
  built t ht := by
    cases hread : readOf b layouts backend file.bytes.length dataOffset entry with
    | error stop =>
        rw [buildTensor_of_error hread] at ht
        cases ht
    | ok r =>
        obtain ⟨block, hblock, rfl, -⟩ := readOf_stated h hread
        rcases (buildTensor_of_read hread :
          (∃ msg, buildTensor b layouts backend newQTensor file dataOffset entry = .error (.error msg)) ∨ _) with
          ⟨msg, hmsg⟩ | ⟨t', ht', hbuilt⟩
        · rw [hmsg] at ht
          cases ht
        · cases ht.symm.trans ht'
          exact ⟨block, hblock, hbuilt⟩

theorem climbs_of_exact (h : Exact .checked layouts backend newQTensor file dataOffset entry) : Climbs entry.dims := by
  by_contra hclimbs
  refine h.no_panic (buildTensor_of_error ?_)
  unfold readOf
  rw [product_checked hclimbs]
  rfl

theorem fits_of_checked (h : Exact .checked layouts backend newQTensor file dataOffset entry) {block : Nat × Nat}
    (hblock : decoded layouts backend entry = some block) : FitsWords dataOffset entry block := by
  have hclimbs := climbs_of_exact h
  have hread : readOf .checked layouts backend file.bytes.length dataOffset entry ≠ .error .panic :=
    fun hpanic => h.no_panic (buildTensor_of_error hpanic)
  rw [readOf_decoded hblock] at hread
  unfold readDecoded at hread
  rw [product_climbs hclimbs] at hread
  have hsize : entry.dims.prod / block.1 * block.2 < words := by
    by_contra hno
    refine hread ?_
    change (word .checked (entry.dims.prod / block.1 * block.2) >>= _) = _
    rw [word_checked hno]
    rfl
  refine ⟨hclimbs.prod_lt, hsize, ?_⟩
  by_contra hno
  refine hread ?_
  change (word .checked (entry.dims.prod / block.1 * block.2) >>= _) = _
  rw [word_fits hsize]
  change tensorRange .checked file.bytes.length dataOffset entry _ = _
  unfold tensorRange
  rw [word_checked hno]
  rfl

theorem fits_of_wrapping (h : Exact .wrapping layouts backend newQTensor file dataOffset entry) {block : Nat × Nat}
    (hblock : decoded layouts backend entry = some block) (hin : ¬ Outside file dataOffset entry block) :
    FitsWords dataOffset entry block := by
  have hread : readOf .wrapping layouts backend file.bytes.length dataOffset entry =
      .ok ⟨(dataOffset + entry.offset.toNat) % words, entry.dims.prod % words / block.1 * block.2 % words⟩ := by
    rw [readOf_decoded hblock, readDecoded_wrapping]
    exact tensorRange_inside file.length_lt (word_wrapping _) (Nat.not_lt.1 hin)
  obtain ⟨hof, hdvd, hpos⟩ := blockOf_of_decoded hblock
  obtain ⟨block', hblock', hr, -⟩ := h.range _ hread
  cases hof.symm.trans hblock'
  have hstart := congrArg Range.start hr
  have hsize := congrArg Range.size hr
  change _ % words = dataOffset + entry.offset.toNat at hstart
  change _ % words = entry.dims.prod / block.1 * block.2 at hsize
  exact ⟨prod_lt_of_size hdvd hpos hsize.symm, hsize ▸ Nat.mod_lt _ words_pos, hstart ▸ Nat.mod_lt _ words_pos⟩

/-- A tensor is built from the bytes the header states and from no others, or refused with an error, exactly
where nothing the header states leaves the words, or what leaves them is refused all the same. -/
theorem exact_iff : Exact b layouts backend newQTensor file dataOffset entry ↔
    InWords b layouts backend file dataOffset entry := by
  refine ⟨fun h => ?_, exact_of_inWords⟩
  cases b with
  | checked => exact ⟨fun _ => climbs_of_exact h, fun block hblock => .inl (fits_of_checked h hblock)⟩
  | wrapping =>
      refine ⟨fun hb => (by cases hb), fun block hblock => ?_⟩
      by_cases houtside : Outside file dataOffset entry block
      · exact .inr ⟨rfl, houtside⟩
      · exact .inl (fits_of_wrapping h hblock houtside)

end Exactly

end Oxydllm.Gguf
