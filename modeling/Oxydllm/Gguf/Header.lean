/-
# Oxydllm.Gguf.Header — the reader of a GGUF header (`common/gguf_header.rs`).

A `Cursor` is the bytes, the position and the version's `magic`: the first two are those of a decoder, the
last is a parameter. `usize` has 64 bits, so that a length read always fits it, and a slice is too short
for a position or an offset to overflow. A float is kept as its bits. A map is a list of its entries, of
which the order says nothing.
-/
import Oxydllm.Lib.Decoder
import Oxydllm.Lib.Utf8Lossy

namespace Oxydllm.Gguf

open LittleEndian
open Utf8Lossy (lossy)

/-! ## The data model -/

inductive VersionedMagic where
  | ggufV1 | ggufV2 | ggufV3
  deriving DecidableEq

/-- `gguf_file::Value`. -/
inductive Value where
  | u8 (x : UInt8)
  | i8 (x : Int8)
  | u16 (x : UInt16)
  | i16 (x : Int16)
  | u32 (x : UInt32)
  | i32 (x : Int32)
  | f32 (bits : UInt32)
  | bool (x : Bool)
  | string (s : List Char)
  | array (items : List Value)
  | u64 (x : UInt64)
  | i64 (x : Int64)
  | f64 (bits : UInt64)

inductive GgmlDType where
  | f32 | f16 | q4_0 | q4_1 | q5_0 | q5_1 | q8_0 | q8_1 | q2k | q3k | q4k | q5k | q6k | q8k | bf16
  deriving DecidableEq

/-- The block type a type id names, where it names one. -/
def candleDtype (typeId : UInt32) : Option GgmlDType :=
  match typeId.toNat with
  | 0 => some .f32
  | 1 => some .f16
  | 2 => some .q4_0
  | 3 => some .q4_1
  | 6 => some .q5_0
  | 7 => some .q5_1
  | 8 => some .q8_0
  | 9 => some .q8_1
  | 10 => some .q2k
  | 11 => some .q3k
  | 12 => some .q4k
  | 13 => some .q5k
  | 14 => some .q6k
  | 15 => some .q8k
  | 30 => some .bf16
  | _ => none

structure TensorEntry where
  name : List Char
  typeId : UInt32
  dims : List Nat
  offset : UInt64

structure TensorInfo where
  ggmlDtype : GgmlDType
  shape : List Nat
  offset : UInt64
  deriving DecidableEq

/-- `HashMap::insert`. -/
def insert {α : Type} (m : List (List Char × α)) (key : List Char) (value : α) : List (List Char × α) :=
  (key, value) :: m.filter fun p => p.1 ≠ key

structure Content where
  magic : VersionedMagic
  metadata : List (List Char × Value)
  tensorInfos : List (List Char × TensorInfo)
  tensorDataOffset : Nat

structure GgufHeader where
  content : Content
  tensors : List TensorEntry

def defaultAlignment : Nat := 32

def maxDims : Nat := 4

def maxDepth : Nat := 64

/-! ## The cursor -/

abbrev Reader := Decoder UInt8 String

def take (n : Nat) : Reader (List UInt8) :=
  Decoder.take (fun i len => s!"header ends at byte {i} of {len}") n

def u8 : Reader UInt8 := do
  let s ← take 1
  pure (s.headD 0)

def u16 : Reader UInt16 := do
  let s ← take 2
  pure (.ofNat (fromLe s))

def u32 : Reader UInt32 := do
  let s ← take 4
  pure (.ofNat (fromLe s))

def u64 : Reader UInt64 := do
  let s ← take 8
  pure (.ofNat (fromLe s))

variable (magic : VersionedMagic)

/-- A count or length, which the first version wrote in four bytes and the later ones in eight. -/
def len : Reader Nat :=
  match magic with
  | .ggufV1 => do
      let n ← u32
      pure n.toNat
  | .ggufV2 | .ggufV3 => do
      let n ← u64
      pure n.toNat

def string : Reader (List Char) := do
  let n ← len magic
  let s ← take n
  pure (lossy s)

/-- A value at the depth `maxDepth - room`. -/
def value (room : Nat) (tag : UInt32) : Reader Value :=
  match tag.toNat with
  | 0 => do
      let x ← u8
      pure (.u8 x)
  | 1 => do
      let x ← u8
      pure (.i8 x.toInt8)
  | 2 => do
      let x ← u16
      pure (.u16 x)
  | 3 => do
      let x ← u16
      pure (.i16 x.toInt16)
  | 4 => do
      let x ← u32
      pure (.u32 x)
  | 5 => do
      let x ← u32
      pure (.i32 x.toInt32)
  | 6 => do
      let x ← u32
      pure (.f32 x)
  | 7 => do
      let x ← u8
      pure (.bool (x != 0))
  | 8 => do
      let s ← string magic
      pure (.string s)
  | 9 =>
      match room with
      | 0 => Decoder.fail s!"metadata nests deeper than {maxDepth}"
      | room + 1 => do
          let elem ← u32
          let n ← len magic
          let items ← Decoder.times (value room elem) n
          pure (.array items)
  | 10 => do
      let x ← u64
      pure (.u64 x)
  | 11 => do
      let x ← u64
      pure (.i64 x.toInt64)
  | 12 => do
      let x ← u64
      pure (.f64 x)
  | tag => Decoder.fail s!"metadata value type {tag} is not GGUF"

/-! ## The header -/

def metadataEntry : Reader (List Char × Value) := do
  let key ← string magic
  let tag ← u32
  let value ← Decoder.mapError (fun e => "metadata '" ++ String.ofList key ++ "': " ++ e)
    (value magic maxDepth tag)
  pure (key, value)

def tensorEntry : Reader TensorEntry := do
  let name ← string magic
  let nDims ← u32
  if maxDims < nDims.toNat then
    Decoder.fail ("tensor '" ++ String.ofList name ++ s!"' has {nDims} dimensions")
  else
    let dims ← Decoder.times (len magic) nDims.toNat
    let typeId ← u32
    let offset ← u64
    pure ⟨name, typeId, dims.reverse, offset⟩

/-- The magic number and the version. -/
def preamble : Reader VersionedMagic := do
  let s ← take 4
  if s ≠ [0x47, 0x47, 0x55, 0x46] then Decoder.fail "not a GGUF file"
  else
    let version ← u32
    match version.toNat with
    | 1 => pure .ggufV1
    | 2 => pure .ggufV2
    | 3 => pure .ggufV3
    | v => Decoder.fail s!"GGUF version {v} is not one this reader knows"

/-- The part of the header that is read from the bytes. -/
def table : Reader (VersionedMagic × List (List Char × Value) × List TensorEntry) := do
  let magic ← preamble
  let nTensors ← len magic
  let nKv ← len magic
  let metadata ← Decoder.times (metadataEntry magic) nKv
  let tensors ← Decoder.times (tensorEntry magic) nTensors
  pure (magic, metadata, tensors)

/-- A tensor of a type that candle names. -/
def TensorEntry.info (t : TensorEntry) : Option TensorInfo :=
  (candleDtype t.typeId).map fun ggmlDtype => ⟨ggmlDtype, t.dims, t.offset⟩

def insertInfo (m : List (List Char × TensorInfo)) (t : TensorEntry) : List (List Char × TensorInfo) :=
  match t.info with
  | some info => insert m t.name info
  | none => m

/-- `general.alignment`, as it is taken. -/
def alignmentOf : Option Value → Nat
  | some (.u8 v) => v.toNat
  | some (.u16 v) => v.toNat
  | some (.u32 v) => v.toNat
  | some (.i8 v) => if 0 ≤ v then v.toInt.toNat else defaultAlignment
  | some (.i16 v) => if 0 ≤ v then v.toInt.toNat else defaultAlignment
  | some (.i32 v) => if 0 ≤ v then v.toInt.toNat else defaultAlignment
  | _ => defaultAlignment

/-- `i.div_ceil(alignment) * alignment`. -/
def alignUp (i alignment : Nat) : Nat := (i + (alignment - 1)) / alignment * alignment

/-- Parses the header at the start of `bytes`, which may be the whole file. -/
def parse (bytes : List UInt8) : Except String GgufHeader :=
  match table bytes 0 with
  | .error e => .error e
  | .ok ((magic, entries, tensors), i) =>
      let metadata := entries.foldl (fun m p => insert m p.1 p.2) []
      let tensorInfos := tensors.foldl insertInfo []
      let alignment := alignmentOf (metadata.lookup "general.alignment".toList)
      if alignment = 0 then .error "general.alignment is zero"
      else .ok ⟨⟨magic, metadata, tensorInfos, alignUp i alignment⟩, tensors⟩

end Oxydllm.Gguf
