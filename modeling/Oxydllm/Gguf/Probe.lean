/-
# Oxydllm.Gguf.Probe — the look at a header before a download (`models/gguf_probe.rs`).

The probe walks the same bytes as the reader and reads every count and length in eight bytes, whatever the
version. Its recursion into arrays has no bound; here it is given room, and `inspectHeader` gives it more
than any buffer takes (`walk_roomy`).
-/
import Oxydllm.Gguf.RoundTrip
import Oxydllm.Lib.Tracks

namespace Oxydllm.Gguf

/-- Names for the ggml type ids; ids absent here are reported numerically. -/
def typeNames : List (Nat × String) :=
  [(0, "F32"), (1, "F16"), (2, "Q4_0"), (3, "Q4_1"), (6, "Q5_0"), (7, "Q5_1"), (8, "Q8_0"), (9, "Q8_1"),
    (10, "Q2_K"), (11, "Q3_K"), (12, "Q4_K"), (13, "Q5_K"), (14, "Q6_K"), (15, "Q8_K"), (30, "BF16"),
    (16, "IQ2_XXS"), (17, "IQ2_XS"), (18, "IQ3_XXS"), (19, "IQ1_S"), (20, "IQ4_NL"), (21, "IQ3_S"),
    (22, "IQ2_S"), (23, "IQ4_XS"), (29, "IQ1_M"), (34, "TQ1_0"), (35, "TQ2_0"), (39, "MXFP4")]

def typeName (id : UInt32) : List Char :=
  match typeNames.find? (·.1 == id.toNat) with
  | some p => p.2.toList
  | none => s!"type {id}".toList

namespace Probe

open LittleEndian
open Utf8Lossy (lossy)

def supportedTypes : List Nat := [0, 1, 2, 3, 6, 7, 8, 9, 10, 11, 12, 13, 14, 15, 20, 21, 23, 30]

/-- A quantization the engine decodes. -/
def Supported (typeId : UInt32) : Prop := typeId.toNat ∈ supportedTypes

instance (typeId : UInt32) : Decidable (Supported typeId) := inferInstanceAs (Decidable (_ ∈ _))

/-! ## The verdict -/

abbrev Counts := List (List Char × Nat)

/-- `*entry(name).or_default() += 1`. -/
def bump (m : Counts) (name : List Char) : Counts := insert m name ((m.lookup name).getD 0 + 1)

structure Composition where
  tensors : Nat
  byType : Counts
  embedding : Option (List Char)
  output : Option (List Char)

def Composition.default : Composition := ⟨0, [], none, none⟩

def Composition.add (c : Composition) (name : List Char) (typeId : UInt32) : Composition :=
  let tname := typeName typeId
  let c := { c with tensors := c.tensors + 1, byType := bump c.byType tname }
  if name = "token_embd.weight".toList then { c with embedding := some tname }
  else if name = "output.weight".toList then { c with output := some tname }
  else c

inductive HeaderVerdict where
  | loadable (architecture : Option (List Char)) (experts : Option UInt32) (composition : Composition)
  | unreadable (architecture : Option (List Char)) (experts : Option UInt32) (offenders : Counts)
      (composition : Composition)
  | unknown

/-! ## The cursor -/

/-- Why a walk ends: the bytes do, or hold what is no header; or the room for nested arrays does. -/
inductive Stop where
  | ended
  | deep

abbrev Cursor := Decoder UInt8 Stop

def take (n : Nat) : Cursor (List UInt8) := Decoder.take (fun _ _ => .ended) n

def u32 : Cursor UInt32 := do
  let s ← take 4
  pure (.ofNat (fromLe s))

def u64 : Cursor UInt64 := do
  let s ← take 8
  pure (.ofNat (fromLe s))

def string : Cursor (List Char) := do
  let n ← u64
  let s ← take n.toNat
  pure (lossy s)

def skip (n : Nat) : Cursor Unit := do
  let _ ← take n
  pure ()

/-- Steps over one value, with room for so many arrays in one another. -/
def skipValue (room : Nat) (tag : UInt32) : Cursor Unit :=
  match tag.toNat with
  | 0 | 1 | 7 => skip 1
  | 2 | 3 => skip 2
  | 4 | 5 | 6 => skip 4
  | 10 | 11 | 12 => skip 8
  | 8 => do
      let _ ← string
      pure ()
  | 9 =>
      match room with
      | 0 => Decoder.fail .deep
      | room + 1 => do
          let elem ← u32
          let n ← u64
          Decoder.loop (fun _ => skipValue room elem) n.toNat ()
  | _ => Decoder.fail .ended

/-- The architecture and the experts found so far. -/
abbrev Found := Option (List Char) × Option UInt32

def metadataEntry (room : Nat) (found : Found) : Cursor Found := do
  let key ← string
  let tag ← u32
  if key = "general.architecture".toList ∧ tag = 8 then do
    let v ← string
    pure (some v, found.2)
  else if ".expert_count".toList.isSuffixOf key ∧ tag = 4 then do
    let v ← u32
    pure (found.1, some v)
  else do
    skipValue room tag
    pure found

/-- The offenders so far, and what the file holds. -/
abbrev Seen := Counts × Composition

def Seen.add (seen : Seen) (name : List Char) (dtype : UInt32) : Seen :=
  (if Supported dtype then seen.1 else bump seen.1 (typeName dtype), seen.2.add name dtype)

def tensorEntry (seen : Seen) : Cursor Seen := do
  let name ← string
  let nDims ← u32
  Decoder.loop (fun _ => skip 8) nDims.toNat ()
  let dtype ← u32
  let _ ← u64
  pure (seen.add name dtype)

def verdict (found : Found) (seen : Seen) : HeaderVerdict :=
  if seen.1.isEmpty then .loadable found.1 found.2 seen.2 else .unreadable found.1 found.2 seen.1 seen.2

def walk (room : Nat) : Cursor HeaderVerdict := do
  let s ← take 4
  if s ≠ [0x47, 0x47, 0x55, 0x46] then Decoder.fail .ended
  else
    let _version ← u32
    let nTensors ← u64
    let nKv ← u64
    let found ← Decoder.loop (metadataEntry room) nKv.toNat (none, none)
    let seen ← Decoder.loop tensorEntry nTensors.toNat ([], .default)
    pure (verdict found seen)

/-- Reads architecture and tensor quantizations out of GGUF header bytes. -/
def inspectHeader (bytes : List UInt8) : HeaderVerdict :=
  match walk (bytes.length + 1) bytes 0 with
  | .ok (v, _) => v
  | .error _ => .unknown

/-! ## Room -/

theorem take_roomy {room : Nat} (n : Nat) : Decoder.Roomy Stop.deep room (take n) :=
  .take (fun _ _ h => by cases h) n

theorem u32_roomy {room : Nat} : Decoder.Roomy Stop.deep room u32 := (take_roomy 4).bind fun _ => .pure _

theorem u64_roomy {room : Nat} : Decoder.Roomy Stop.deep room u64 := (take_roomy 8).bind fun _ => .pure _

theorem skip_roomy {room : Nat} (n : Nat) : Decoder.Roomy Stop.deep room (skip n) :=
  (take_roomy n).bind fun _ => .pure _

theorem string_roomy {room : Nat} : Decoder.Roomy Stop.deep room string :=
  u64_roomy.bind fun _ => (take_roomy _).bind fun _ => .pure _

theorem u32_step {b : List UInt8} {i j : Nat} {x : UInt32} (h : u32 b i = .ok (x, j)) : i < j := by
  have hread : (Decoder.take (fun _ _ => Stop.ended) 4 b i >>= fun r => Except.ok (UInt32.ofNat (fromLe r.1), r.2)) =
      .ok (x, j) := h
  unfold Decoder.take at hread
  split at hread
  · cases hread
    omega
  · cases hread

/-- An array takes bytes before its elements do. -/
theorem skipValue_roomy (room : Nat) (tag : UInt32) : Decoder.Roomy Stop.deep room (skipValue room tag) := by
  induction room generalizing tag with
  | zero => exact fun b i hi hroom => absurd hroom (Nat.not_lt.2 hi)
  | succ room ih =>
      unfold skipValue
      generalize tag.toNat = t
      match t with
      | 0 | 1 | 7 => exact skip_roomy 1
      | 2 | 3 => exact skip_roomy 2
      | 4 | 5 | 6 => exact skip_roomy 4
      | 10 | 11 | 12 => exact skip_roomy 8
      | 8 => exact string_roomy.bind fun _ => .pure _
      | 9 =>
          refine Decoder.Roomy.step_bind u32_roomy (fun b i x j h => u32_step h) fun elem => ?_
          exact u64_roomy.bind fun n => .loop (fun _ => ih elem) _ _
      | _ + 13 => exact .fail fun h => by cases h

theorem metadataEntry_roomy (room : Nat) (found : Found) : Decoder.Roomy Stop.deep room (metadataEntry room found) := by
  refine string_roomy.bind fun key => u32_roomy.bind fun tag => ?_
  split
  · exact string_roomy.bind fun _ => .pure _
  · split
    · exact u32_roomy.bind fun _ => .pure _
    · exact (skipValue_roomy room tag).bind fun _ => .pure _

theorem tensorEntry_roomy {room : Nat} (seen : Seen) : Decoder.Roomy Stop.deep room (tensorEntry seen) :=
  string_roomy.bind fun _ => u32_roomy.bind fun _ => (Decoder.Roomy.loop (fun _ => skip_roomy 8) _ _).bind fun _ =>
    u32_roomy.bind fun _ => u64_roomy.bind fun _ => .pure _

/-- The room that `inspectHeader` gives is enough for every buffer. -/
theorem walk_roomy (bytes : List UInt8) : walk (bytes.length + 1) bytes 0 ≠ .error .deep := by
  have hwalk : Decoder.Roomy Stop.deep (bytes.length + 1) (walk (bytes.length + 1)) := by
    refine (take_roomy 4).bind fun s => ?_
    split
    · exact .fail fun h => by cases h
    · refine u32_roomy.bind fun _ => u64_roomy.bind fun nTensors => u64_roomy.bind fun nKv => ?_
      exact (Decoder.Roomy.loop (metadataEntry_roomy _) _ _).bind fun found =>
        (Decoder.Roomy.loop tensorEntry_roomy _ _).bind fun seen => .pure _
  exact (hwalk bytes 0 (Nat.zero_le _) (by omega)).1

theorem skipValue_extends {room room' : Nat} (h : room ≤ room') (tag : UInt32) :
    Decoder.Extends Stop.deep (skipValue room tag) (skipValue room' tag) := by
  induction room generalizing room' tag with
  | zero =>
      unfold skipValue
      generalize tag.toNat = t
      match t with
      | 0 | 1 | 2 | 3 | 4 | 5 | 6 | 7 | 8 | 10 | 11 | 12 => exact .refl _
      | 9 => exact .fail _
      | _ + 13 => exact .refl _
  | succ room ih =>
      obtain ⟨room', rfl⟩ := Nat.exists_eq_add_of_le' (Nat.lt_of_lt_of_le (Nat.zero_lt_succ room) h)
      unfold skipValue
      generalize tag.toNat = t
      match t with
      | 0 | 1 | 2 | 3 | 4 | 5 | 6 | 7 | 8 | 10 | 11 | 12 => exact .refl _
      | 9 =>
          exact (Decoder.Extends.refl _).bind fun elem => (Decoder.Extends.refl _).bind fun n =>
            .loop (fun _ => ih (Nat.le_of_succ_le_succ h) elem) _ _
      | _ + 13 => exact .refl _

theorem metadataEntry_extends {room room' : Nat} (h : room ≤ room') (found : Found) :
    Decoder.Extends Stop.deep (metadataEntry room found) (metadataEntry room' found) := by
  refine (Decoder.Extends.refl _).bind fun key => (Decoder.Extends.refl _).bind fun tag => ?_
  split
  · exact .refl _
  · split
    · exact .refl _
    · exact (skipValue_extends h tag).bind fun _ => .refl _

/-- A walk that does not come to the end of its room goes the same with more. -/
theorem walk_extends {room room' : Nat} (h : room ≤ room') : Decoder.Extends Stop.deep (walk room) (walk room') := by
  refine (Decoder.Extends.refl _).bind fun s => ?_
  split
  · exact .refl _
  · refine (Decoder.Extends.refl _).bind fun _ => (Decoder.Extends.refl _).bind fun nTensors =>
      (Decoder.Extends.refl _).bind fun nKv => ?_
    exact (Decoder.Extends.loop (metadataEntry_extends h) _ _).bind fun found => .refl _

/-! ## The header that the bytes hold -/

/-- A tensor of any number of dimensions. -/
def rawTensor : Reader TensorEntry := do
  let name ← Gguf.string .ggufV3
  let nDims ← Gguf.u32
  let dims ← Decoder.times (len .ggufV3) nDims.toNat
  let typeId ← Gguf.u32
  let offset ← Gguf.u64
  pure ⟨name, typeId, dims.reverse, offset⟩

/-- A header of any version, with counts and lengths in eight bytes. -/
structure Raw where
  version : UInt32
  entries : List (List Char × Value)
  tensors : List TensorEntry

/-- What follows the version. -/
def rawBody (version : UInt32) : Reader Raw := do
  let nTensors ← len .ggufV3
  let nKv ← len .ggufV3
  let entries ← Decoder.times (Gguf.metadataEntry .ggufV3) nKv
  let tensors ← Decoder.times rawTensor nTensors
  pure ⟨version, entries, tensors⟩

def rawTable : Reader Raw := do
  let s ← Gguf.take 4
  if s ≠ [0x47, 0x47, 0x55, 0x46] then Decoder.fail "not a GGUF file"
  else
    let version ← Gguf.u32
    rawBody version

/-- What the probe keeps of an entry. -/
def Found.add (found : Found) (p : List Char × Value) : Found :=
  match p.2 with
  | .string s => if p.1 = "general.architecture".toList then (some s, found.2) else found
  | .u32 n => if ".expert_count".toList.isSuffixOf p.1 then (found.1, some n) else found
  | _ => found

def Raw.seen (raw : Raw) : Seen := raw.tensors.foldl (fun seen t => seen.add t.name t.typeId) ([], .default)

def Raw.verdict (raw : Raw) : HeaderVerdict :=
  Probe.verdict (raw.entries.foldl Found.add (none, none)) raw.seen

/-! ## The walk goes through it -/

theorem take_tracks (n : Nat) : Decoder.Tracks Eq (Gguf.take n) (take n) := .take _ _ n

theorem u32_tracks : Decoder.Tracks Eq Gguf.u32 u32 := (take_tracks 4).bind_eq fun _ => .pure rfl

theorem u64_tracks : Decoder.Tracks Eq Gguf.u64 u64 := (take_tracks 8).bind_eq fun _ => .pure rfl

theorem len_tracks : Decoder.Tracks (fun n m => n = m.toNat) (len .ggufV3) u64 :=
  u64_tracks.map_left fun _ _ h => congrArg UInt64.toNat h

theorem string_tracks : Decoder.Tracks Eq (Gguf.string .ggufV3) string := by
  refine len_tracks.bind fun n m h => ?_
  subst h
  exact (take_tracks _).bind_eq fun _ => .pure rfl

theorem skip_tracks (n : Nat) : Decoder.Tracks (fun _ _ => True) (Gguf.take n) (skip n) :=
  (take_tracks n).map_right fun _ _ _ => trivial

theorem string_skip_tracks :
    Decoder.Tracks (fun _ _ => True) (Gguf.string .ggufV3) (string >>= fun _ => Pure.pure ()) :=
  string_tracks.map_right fun _ _ _ => trivial

/-- A scalar, of which only the type is kept. -/
theorem scalar_tracks {α : Type} {f : Reader α} {g : Cursor Unit} (h : Decoder.Tracks (fun _ _ => True) f g)
    {tag : UInt32} {m : α → Value} (hm : ∀ x, (m x).tag = tag) :
    Decoder.Tracks (fun (v : Value) _ => v.tag = tag) (f >>= fun x => Pure.pure (m x)) g :=
  h.map_left fun x _ _ => hm x

theorem fixed_tracks {α : Type} (n : Nat) (m : List UInt8 → α) :
    Decoder.Tracks (fun _ _ => True) (Gguf.take n >>= fun s => Pure.pure (m s)) (skip n) :=
  (skip_tracks n).map_left fun _ _ _ => trivial

/-- The probe steps over what the reader reads, when it does so of an array. -/
theorem value_tracks_of {room : Nat}
    (harray : Decoder.Tracks (fun (v : Value) _ => v.tag = 9) (value .ggufV3 room 9) (skipValue room 9))
    (tag : UInt32) :
    Decoder.Tracks (fun (v : Value) _ => v.tag = tag) (value .ggufV3 room tag) (skipValue room tag) := by
  by_cases h9 : tag = 9
  · rw [h9]
    exact harray
  · unfold value skipValue
    generalize ht : tag.toNat = t
    have htag : ∀ n : UInt32, n.toNat = t → n = tag := fun n hn => UInt32.toNat_inj.1 (hn.trans ht.symm)
    rcases t with _ | _ | _ | _ | _ | _ | _ | _ | _ | _ | _ | _ | _ | t
    · exact scalar_tracks (fixed_tracks 1 _) fun _ => htag 0 rfl
    · exact scalar_tracks (fixed_tracks 1 _) fun _ => htag 1 rfl
    · exact scalar_tracks (fixed_tracks 2 _) fun _ => htag 2 rfl
    · exact scalar_tracks (fixed_tracks 2 _) fun _ => htag 3 rfl
    · exact scalar_tracks (fixed_tracks 4 _) fun _ => htag 4 rfl
    · exact scalar_tracks (fixed_tracks 4 _) fun _ => htag 5 rfl
    · exact scalar_tracks (fixed_tracks 4 _) fun _ => htag 6 rfl
    · exact scalar_tracks (fixed_tracks 1 _) fun _ => htag 7 rfl
    · exact scalar_tracks string_skip_tracks fun _ => htag 8 rfl
    · exact absurd (htag 9 rfl).symm h9
    · exact scalar_tracks (fixed_tracks 8 _) fun _ => htag 10 rfl
    · exact scalar_tracks (fixed_tracks 8 _) fun _ => htag 11 rfl
    · exact scalar_tracks (fixed_tracks 8 _) fun _ => htag 12 rfl
    · exact .fail _ _ _

/-- The probe steps over what the reader reads, with the same room. -/
theorem value_tracks (room : Nat) (tag : UInt32) :
    Decoder.Tracks (fun (v : Value) _ => v.tag = tag) (value .ggufV3 room tag) (skipValue room tag) := by
  induction room generalizing tag with
  | zero =>
      refine value_tracks_of ?_ tag
      unfold value skipValue
      exact .fail _ _ _
  | succ room ih =>
      refine value_tracks_of ?_ tag
      unfold value skipValue
      refine u32_tracks.bind_eq fun elem => len_tracks.bind fun n m h => ?_
      subst h
      have hitems : Decoder.Tracks (fun items s => s = items.foldl (fun _ _ => ()) ())
          (Decoder.times (value .ggufV3 room elem) m.toNat)
          (Decoder.loop (fun _ => skipValue room elem) m.toNat ()) :=
        .loop (fun _ => (ih elem).mono fun _ _ _ => rfl) _ _
      exact hitems.map_left fun _ _ _ => rfl

/-- An entry that is only stepped over is not kept. -/
theorem Found.add_skipped {found : Found} {key : List Char} {v : Value} {tag : UInt32} (htag : v.tag = tag)
    (harch : ¬ (key = "general.architecture".toList ∧ tag = 8))
    (hexperts : ¬ (".expert_count".toList.isSuffixOf key = true ∧ tag = 4)) : found.add (key, v) = found := by
  subst htag
  unfold Found.add
  cases v with
  | string s => exact if_neg fun h => harch ⟨h, rfl⟩
  | u32 n => exact if_neg fun h => hexperts ⟨h, rfl⟩
  | _ => rfl

theorem entry_tracks (found : Found) :
    Decoder.Tracks (fun p found' => found' = found.add p) (Gguf.metadataEntry .ggufV3) (metadataEntry maxDepth found) := by
  refine string_tracks.bind_eq fun key => u32_tracks.bind_eq fun tag => ?_
  split
  next harch =>
    obtain ⟨rfl, rfl⟩ := harch
    have hvalue : Decoder.Tracks (fun v s => v = Value.string s) (value .ggufV3 maxDepth 8) string := by
      unfold value
      exact string_tracks.map_left fun _ _ h => congrArg Value.string h
    refine (hvalue.mapError _).bind fun v s h => .pure ?_
    rw [h]
    rfl
  next harch =>
    split
    next hexperts =>
      obtain ⟨hsuffix, rfl⟩ := hexperts
      have hvalue : Decoder.Tracks (fun v n => v = Value.u32 n) (value .ggufV3 maxDepth 4) u32 := by
        unfold value
        exact u32_tracks.map_left fun _ _ h => congrArg Value.u32 h
      refine (hvalue.mapError _).bind fun v n h => .pure ?_
      rw [h]
      exact (if_pos hsuffix).symm
    next hexperts =>
      refine ((value_tracks maxDepth tag).mapError _).bind fun v _ htag => .pure ?_
      exact (Found.add_skipped htag harch hexperts).symm

theorem tensor_tracks (seen : Seen) :
    Decoder.Tracks (fun t seen' => seen' = seen.add t.name t.typeId) rawTensor (tensorEntry seen) := by
  refine string_tracks.bind_eq fun name => u32_tracks.bind_eq fun nDims => ?_
  have hdims : Decoder.Tracks (fun dims s => s = dims.foldl (fun _ _ => ()) ())
      (Decoder.times (len .ggufV3) nDims.toNat) (Decoder.loop (fun _ => skip 8) nDims.toNat ()) := by
    have hlen : Decoder.Tracks (fun _ _ => True) (len .ggufV3) (skip 8) :=
      (fixed_tracks 8 _).map_left fun _ _ _ => trivial
    exact .loop (fun _ => hlen.mono fun _ _ _ => rfl) _ _
  refine hdims.bind fun dims _ _ => u32_tracks.bind_eq fun typeId => u64_tracks.bind_eq fun offset => ?_
  exact .pure rfl

/-- The walk with the reader's room says what the header says that the bytes hold. -/
theorem walk_tracks : Decoder.Tracks (fun raw v => v = raw.verdict) rawTable (walk maxDepth) := by
  refine (take_tracks 4).bind_eq fun s => ?_
  split
  · exact .fail _ _ _
  · refine u32_tracks.bind_eq fun version => len_tracks.bind fun nTensors m h => ?_
    subst h
    refine len_tracks.bind fun nKv k h => ?_
    subst h
    refine (Decoder.Tracks.loop entry_tracks _ _).bind fun entries found hfound => ?_
    refine (Decoder.Tracks.loop tensor_tracks _ _).bind fun tensors seen hseen => .pure ?_
    rw [hfound, hseen]
    rfl

/-! ## The reader checks more -/

theorem value_version (room : Nat) (tag : UInt32) : value .ggufV2 room tag = value .ggufV3 room tag := by
  induction room generalizing tag with
  | zero =>
      unfold value
      rfl
  | succ room ih =>
      unfold value
      simp only [show value .ggufV2 room = value .ggufV3 room from funext ih]
      rfl

/-- The reader of a tensor refuses more dimensions than it knows. -/
theorem tensorEntry_checks :
    Decoder.Checks Eq (fun t => t.dims.length ≤ maxDims) (Gguf.tensorEntry .ggufV3) rawTensor := by
  refine .bind_eq fun name => .bind_eq fun nDims => ?_
  have hdims : Decoder.Yields (fun t : TensorEntry => t.dims.length = nDims.toNat) (do
      let dims ← Decoder.times (len .ggufV3) nDims.toNat
      let typeId ← Gguf.u32
      let offset ← Gguf.u64
      pure ⟨name, typeId, dims.reverse, offset⟩) :=
    (Decoder.Yields.times _ _).bind fun dims hlen => (Decoder.Yields.any _).bind fun _ _ =>
      (Decoder.Yields.any _).bind fun _ _ => .pure (by rw [List.length_reverse, hlen])
  split
  next hmany => exact .fail _ fun b i t j h => Nat.not_le.2 (lt_of_lt_of_eq hmany (hdims b i t j h).symm)
  next hfew => exact .refl fun b i t j h => le_of_eq_of_le (hdims b i t j h) (Nat.not_lt.1 hfew)

/-- The rest of the reader's table. -/
def rest (magic : VersionedMagic) : Reader (VersionedMagic × List (List Char × Value) × List TensorEntry) := do
  let nTensors ← len magic
  let nKv ← len magic
  let metadata ← Decoder.times (Gguf.metadataEntry magic) nKv
  let tensors ← Decoder.times (Gguf.tensorEntry magic) nTensors
  pure (magic, metadata, tensors)

def Raw.Dims (raw : Raw) : Prop := ∀ t ∈ raw.tensors, t.dims.length ≤ maxDims

/-- A table that the reader has read, and the raw one. -/
def Same (magic : VersionedMagic) (r : VersionedMagic × List (List Char × Value) × List TensorEntry) (raw : Raw) :
    Prop :=
  r = (magic, raw.entries, raw.tensors)

theorem rest_checks (magic : VersionedMagic) (hmagic : magic ≠ .ggufV1) (version : UInt32) :
    Decoder.Checks (Same magic) Raw.Dims (rest magic) (rawBody version) := by
  have hentry : Gguf.metadataEntry magic = Gguf.metadataEntry .ggufV3 := by
    cases magic with
    | ggufV1 => exact absurd rfl hmagic
    | ggufV2 =>
        unfold Gguf.metadataEntry
        simp only [value_version]
        rfl
    | ggufV3 => rfl
  have hlen : len magic = len .ggufV3 := by
    cases magic with
    | ggufV1 => exact absurd rfl hmagic
    | ggufV2 => rfl
    | ggufV3 => rfl
  have htensor : Gguf.tensorEntry magic = Gguf.tensorEntry .ggufV3 := by
    cases magic with
    | ggufV1 => exact absurd rfl hmagic
    | ggufV2 => rfl
    | ggufV3 => rfl
  unfold rest
  rw [hentry, hlen, htensor]
  refine .bind_eq fun nTensors => .bind_eq fun nKv => .bind_eq fun entries => ?_
  exact (tensorEntry_checks.times nTensors).map (fun _ => rfl) fun _ => Iff.rfl

/-- The reader knows the version. -/
def Raw.Known (raw : Raw) : Prop := raw.version.toNat = 2 ∨ raw.version.toNat = 3

/-- The bytes are of the first version. -/
def FirstVersion (bytes : List UInt8) : Prop := ∃ i, preamble bytes 0 = .ok (.ggufV1, i)

theorem rawBody_version (version : UInt32) :
    Decoder.Yields (fun raw : Raw => raw.version = version) (rawBody version) :=
  (Decoder.Yields.any _).bind fun _ _ => (Decoder.Yields.any _).bind fun _ _ =>
    (Decoder.Yields.any _).bind fun _ _ => (Decoder.Yields.any _).bind fun _ _ => .pure rfl

theorem unknown_kept {version : UInt32} (hversion : ¬ (version.toNat = 2 ∨ version.toNat = 3)) (e : String)
    (b : List UInt8) (i : Nat) :
    @Decoder.Kept _ (VersionedMagic × List (List Char × Value) × List TensorEntry) _
      (fun r raw => r.2 = (raw.entries, raw.tensors)) (fun raw : Raw => raw.Known ∧ raw.Dims) (.error e)
      (rawBody version b i) := by
  have hread := rawBody_version version b i
  generalize rawBody version b i = r at hread
  cases r with
  | error _ => exact .error
  | ok r =>
      refine .dropped fun h => hversion ?_
      rw [← hread r.1 r.2 rfl]
      exact h.1

theorem rest_kept {magic : VersionedMagic} (hmagic : magic ≠ .ggufV1) {version : UInt32}
    (hversion : version.toNat = 2 ∨ version.toNat = 3) (b : List UInt8) (i : Nat) :
    Decoder.Kept (fun r raw => r.2 = (raw.entries, raw.tensors)) (fun raw : Raw => raw.Known ∧ raw.Dims)
      (rest magic b i) (rawBody version b i) := by
  have hkept := rest_checks magic hmagic version b i
  have hread := rawBody_version version b i
  generalize rest magic b i = r at hkept
  generalize rawBody version b i = r' at hkept hread
  cases hkept with
  | @ok x raw j hsame hdims =>
      refine .ok (congrArg Prod.snd hsame) ⟨?_, hdims⟩
      unfold Raw.Known
      rw [hread raw j rfl]
      exact hversion
  | dropped hdims => exact .dropped fun h => hdims h.2
  | error => exact .error

/-- Of a later version the reader takes what the bytes hold, when it knows the version and the tensors have no
more dimensions than it knows. -/
theorem table_checks {bytes : List UInt8} (hfirst : ¬ FirstVersion bytes) :
    Decoder.Kept (fun r raw => r.2 = (raw.entries, raw.tensors)) (fun raw : Raw => raw.Known ∧ raw.Dims)
      (table bytes 0) (rawTable bytes 0) := by
  have htable : table bytes 0 = preamble bytes 0 >>= fun r => rest r.1 bytes r.2 := rfl
  rw [htable]
  clear htable
  unfold FirstVersion at hfirst
  unfold preamble rawTable at *
  simp only [bind, ReaderT.bind, StateT.bind] at *
  generalize Gguf.take 4 bytes 0 = r at *
  cases r with
  | error _ => exact .error
  | ok r =>
      simp only [Except.bind] at *
      by_cases hmagic : r.1 ≠ [0x47, 0x47, 0x55, 0x46]
      · simp only [if_pos hmagic]
        exact .error
      · simp only [if_neg hmagic, ReaderT.bind, bind, StateT.bind] at *
        generalize Gguf.u32 bytes r.2 = v at *
        cases v with
        | error _ => exact .error
        | ok v =>
            simp only [Except.bind] at *
            generalize hversion : v.1.toNat = n at *
            match n with
            | 1 => exact absurd ⟨_, rfl⟩ hfirst
            | 2 => exact rest_kept (fun h => by cases h) (.inl hversion) bytes v.2
            | 3 => exact rest_kept (fun h => by cases h) (.inr hversion) bytes v.2
            | 0 => exact unknown_kept (by omega) _ bytes v.2
            | n + 4 => exact unknown_kept (by omega) _ bytes v.2

/-! ## The verdict and the header -/

/-- `metadata.insert` of the entries. -/
def metadataOf (entries : List (List Char × Value)) : List (List Char × Value) :=
  entries.foldl (fun m p => insert m p.1 p.2) []

def asString : Value → Option (List Char)
  | .string s => some s
  | _ => none

def asU32 : Value → Option UInt32
  | .u32 n => some n
  | _ => none

/-- The number of an integer of any type. -/
def asInt : Value → Option Int
  | .u8 x => some x.toNat
  | .i8 x => some x.toInt
  | .u16 x => some x.toNat
  | .i16 x => some x.toInt
  | .u32 x => some x.toNat
  | .i32 x => some x.toInt
  | .u64 x => some x.toNat
  | .i64 x => some x.toInt
  | _ => none

/-- The architecture that the metadata state. -/
def architectureOf (metadata : List (List Char × Value)) : Option (List Char) :=
  (metadata.lookup "general.architecture".toList).bind asString

/-- The number of experts under the architecture's own key. -/
def expertsOf (metadata : List (List Char × Value)) : Option Int :=
  (architectureOf metadata).bind fun arch => (metadata.lookup (arch ++ ".expert_count".toList)).bind asInt

/-- How often each name occurs, and no name that does not. -/
def Counts.Of (m : Counts) (names : List (List Char)) : Prop :=
  ∀ name, m.lookup name = if name ∈ names then some (names.count name) else none

/-- What a verdict says of a header besides whether it is loadable. -/
structure Described (h : GgufHeader) (architecture : Option (List Char)) (experts : Option UInt32)
    (composition : Composition) : Prop where
  architecture : architecture = architectureOf h.content.metadata
  experts : experts.map (fun n => (n.toNat : Int)) = expertsOf h.content.metadata
  tensors : composition.tensors = h.tensors.length
  byType : composition.byType.Of (h.tensors.map fun t => typeName t.typeId)

/-- What is to be said of a header. -/
def Told (h : GgufHeader) : HeaderVerdict → Prop
  | .loadable architecture experts composition =>
      (∀ t ∈ h.tensors, Supported t.typeId) ∧ Described h architecture experts composition
  | .unreadable architecture experts offenders composition =>
      (∃ t ∈ h.tensors, ¬ Supported t.typeId) ∧ Described h architecture experts composition ∧
        offenders.Of ((h.tensors.filter fun t => ¬ Supported t.typeId).map fun t => typeName t.typeId)
  | .unknown => False

/-- Nowhere do arrays nest deeper than the reader lets them: the walk ends in its room. -/
def Shallow (bytes : List UInt8) : Prop := walk maxDepth bytes 0 ≠ .error .deep

/-- The probe says what the header is when the reader accepts it, and nothing when it does not. -/
structure Agrees (bytes : List UInt8) : Prop where
  accepted : ∀ h, parse bytes = .ok h → Told h (inspectHeader bytes)
  rejected : ∀ e, parse bytes = .error e → inspectHeader bytes = .unknown
  shallow : Shallow bytes

/-- The last string under the architecture's key. -/
def lastArchitecture (entries : List (List Char × Value)) : Option (List Char) :=
  (entries.filterMap fun p => if p.1 = "general.architecture".toList then asString p.2 else none).getLast?

/-- The last number of 32 bits without a sign under any key that ends like that of the experts. -/
def lastExperts (entries : List (List Char × Value)) : Option UInt32 :=
  (entries.filterMap fun p => if ".expert_count".toList.isSuffixOf p.1 then asU32 p.2 else none).getLast?

/-- A header that the reader accepts, where the last string under the architecture's key is the last value
there, and the last 32-bit number under a key of experts is that of the architecture. -/
structure Regular (raw : Raw) : Prop where
  known : raw.Known
  dims : raw.Dims
  alignment : alignmentOf ((metadataOf raw.entries).lookup "general.alignment".toList) ≠ 0
  architecture : lastArchitecture raw.entries = architectureOf (metadataOf raw.entries)
  experts : (lastExperts raw.entries).map (fun n => (n.toNat : Int)) = expertsOf (metadataOf raw.entries)

/-- Not of the first version, without arrays that nest too deep, and regular if the bytes hold a header. -/
structure Readable (bytes : List UInt8) : Prop where
  version : ¬ FirstVersion bytes
  shallow : Shallow bytes
  regular : ∀ raw i, rawTable bytes 0 = .ok (raw, i) → Regular raw

/-! ## Counting -/

theorem Counts.Of.bump {m : Counts} {names : List (List Char)} (h : m.Of names) (name : List Char) :
    Counts.Of (Probe.bump m name) (names ++ [name]) := by
  intro k
  unfold Probe.bump
  rw [lookup_insert, List.count_append, List.count_singleton]
  by_cases hk : k = name
  · subst hk
    rw [if_pos rfl, if_pos (List.mem_append_right _ List.mem_cons_self), h k, beq_self_eq_true, if_pos rfl]
    by_cases hmem : k ∈ names
    · rw [if_pos hmem, Option.getD_some]
    · rw [if_neg hmem, Option.getD_none, List.count_eq_zero_of_not_mem hmem]
  · have hmem : k ∈ names ++ [name] ↔ k ∈ names := by simp [hk]
    have hne : (name == k) = false := beq_eq_false_iff_ne.2 (Ne.symm hk)
    rw [if_neg hk, h k, hne]
    simp only [hmem, Bool.false_eq_true, if_false, Nat.add_zero]

theorem Counts.Of.isEmpty {m : Counts} {names : List (List Char)} (h : m.Of names) :
    m.isEmpty = true ↔ names = [] := by
  constructor
  · intro hm
    rw [List.isEmpty_iff] at hm
    subst hm
    rw [List.eq_nil_iff_forall_not_mem]
    intro name hmem
    have := h name
    rw [if_pos hmem] at this
    cases this
  · rintro rfl
    cases m with
    | nil => rfl
    | cons p m =>
        have := h p.1
        rw [List.lookup_cons_self, if_neg List.not_mem_nil] at this
        cases this

/-- What is seen of some tensors. -/
structure Seen.Of (seen : Seen) (tensors : List TensorEntry) : Prop where
  count : seen.2.tensors = tensors.length
  byType : seen.2.byType.Of (tensors.map fun t => typeName t.typeId)
  offenders : seen.1.Of ((tensors.filter fun t => ¬ Supported t.typeId).map fun t => typeName t.typeId)

theorem Seen.Of.add {seen : Seen} {tensors : List TensorEntry} (h : seen.Of tensors) (t : TensorEntry) :
    (seen.add t.name t.typeId).Of (tensors ++ [t]) := by
  have hadd : (seen.2.add t.name t.typeId).tensors = seen.2.tensors + 1 ∧
      (seen.2.add t.name t.typeId).byType = bump seen.2.byType (typeName t.typeId) := by
    unfold Composition.add
    dsimp only
    split
    · exact ⟨rfl, rfl⟩
    · split <;> exact ⟨rfl, rfl⟩
  refine ⟨?_, ?_, ?_⟩
  · show (seen.2.add t.name t.typeId).tensors = _
    rw [hadd.1, h.count, List.length_append, List.length_singleton]
  · show (seen.2.add t.name t.typeId).byType.Of _
    rw [hadd.2, List.map_append]
    exact h.byType.bump _
  · show Counts.Of (if Supported t.typeId then seen.1 else bump seen.1 (typeName t.typeId)) _
    rw [List.filter_append, List.map_append]
    by_cases hsup : Supported t.typeId
    · rw [if_pos hsup, List.filter_cons_of_neg (by simpa using hsup), List.filter_nil, List.map_nil, List.append_nil]
      exact h.offenders
    · rw [if_neg hsup, List.filter_cons_of_pos (by simpa using hsup), List.filter_nil]
      exact h.offenders.bump _

theorem seen_foldl (tensors front : List TensorEntry) (seen : Seen) (h : seen.Of front) :
    Seen.Of (tensors.foldl (fun seen t => seen.add t.name t.typeId) seen) (front ++ tensors) := by
  induction tensors generalizing seen front with
  | nil => rwa [List.append_nil]
  | cons t tensors ih =>
      have := ih (front ++ [t]) (seen.add t.name t.typeId) (h.add t)
      rwa [List.append_assoc] at this

theorem getLast?_filterMap_cons {α γ : Type} (f : α → Option γ) (x : α) (xs : List α) :
    ((x :: xs).filterMap f).getLast? = (xs.filterMap f).getLast?.or (f x) := by
  rw [List.filterMap_cons]
  cases f x with
  | none => exact (Option.or_none).symm
  | some y =>
      dsimp only
      rw [List.getLast?_cons]
      cases (xs.filterMap f).getLast? <;> rfl

theorem Found.add_eq (found : Found) (p : List Char × Value) :
    found.add p = ((if p.1 = "general.architecture".toList then asString p.2 else none).or found.1,
      (if ".expert_count".toList.isSuffixOf p.1 then asU32 p.2 else none).or found.2) := by
  unfold Found.add
  cases p.2 with
  | string s =>
      simp only [asString, asU32, ite_self, Option.none_or]
      split <;> rfl
  | u32 n =>
      simp only [asString, asU32, ite_self, Option.none_or]
      split <;> rfl
  | _ => simp only [asString, asU32, ite_self, Option.none_or]

/-- What is found in some entries. -/
theorem found_foldl (entries : List (List Char × Value)) (found : Found) :
    entries.foldl Found.add found = ((lastArchitecture entries).or found.1, (lastExperts entries).or found.2) := by
  induction entries generalizing found with
  | nil => rfl
  | cons p entries ih =>
      unfold lastArchitecture lastExperts at *
      rw [List.foldl_cons, ih, getLast?_filterMap_cons, getLast?_filterMap_cons, Option.or_assoc, Option.or_assoc,
        Found.add_eq]

/-! ## The probe and the reader -/

/-- The verdict on a header is what is to be said of it, when what is found is what it states. -/
theorem Raw.told_iff {raw : Raw} {h : GgufHeader} (htensors : h.tensors = raw.tensors)
    (hmetadata : h.content.metadata = metadataOf raw.entries) :
    Told h raw.verdict ↔ lastArchitecture raw.entries = architectureOf (metadataOf raw.entries) ∧
      (lastExperts raw.entries).map (fun n => (n.toNat : Int)) = expertsOf (metadataOf raw.entries) := by
  have hseen : raw.seen.Of raw.tensors := seen_foldl raw.tensors [] ([], .default) ⟨rfl, fun _ => rfl, fun _ => rfl⟩
  unfold Raw.verdict Probe.verdict
  rw [found_foldl]
  simp only [Option.or_none]
  generalize raw.seen = seen at hseen
  have hempty := hseen.offenders.isEmpty
  rw [List.map_eq_nil_iff, List.filter_eq_nil_iff] at hempty
  have hdescribed : Described h (lastArchitecture raw.entries) (lastExperts raw.entries) seen.2 ↔
      lastArchitecture raw.entries = architectureOf (metadataOf raw.entries) ∧
        (lastExperts raw.entries).map (fun n => (n.toNat : Int)) = expertsOf (metadataOf raw.entries) := by
    rw [← hmetadata]
    constructor
    · exact fun hd => ⟨hd.architecture, hd.experts⟩
    · refine fun hd => ⟨hd.1, hd.2, ?_, ?_⟩
      · rw [htensors]
        exact hseen.count
      · rw [htensors]
        exact hseen.byType
  by_cases hoff : seen.1.isEmpty = true
  · rw [if_pos hoff]
    show (_ ∧ Described _ _ _ _) ↔ _
    rw [hdescribed, htensors]
    refine and_iff_right fun t ht => ?_
    simpa using hempty.1 hoff t ht
  · rw [if_neg hoff]
    show (_ ∧ Described _ _ _ _ ∧ _) ↔ _
    rw [hdescribed, htensors]
    have hsome : ∃ t ∈ raw.tensors, ¬ Supported t.typeId := by
      by_contra hnone
      exact hoff (hempty.2 fun t ht hsup => hnone ⟨t, ht, by simpa using hsup⟩)
    exact ⟨fun hd => hd.2.1, fun hd => ⟨hsome, hd, hseen.offenders⟩⟩

/-- What the reader accepts is a header that the bytes hold. -/
theorem raw_of_parse {bytes : List UInt8} (hfirst : ¬ FirstVersion bytes) {h : GgufHeader}
    (hparse : parse bytes = .ok h) : ∃ raw i, rawTable bytes 0 = .ok (raw, i) ∧ raw.Known ∧ raw.Dims ∧
      alignmentOf ((metadataOf raw.entries).lookup "general.alignment".toList) ≠ 0 ∧ h.tensors = raw.tensors ∧
      h.content.metadata = metadataOf raw.entries := by
  have hkept := table_checks hfirst
  unfold parse at hparse
  generalize table bytes 0 = r at hkept hparse
  generalize rawTable bytes 0 = r' at hkept
  cases hkept with
  | @ok x raw i hsame hP =>
      obtain ⟨magic, entries, tensors⟩ := x
      cases hsame
      dsimp only at hparse
      split at hparse
      · cases hparse
      next halign =>
        cases hparse
        exact ⟨raw, i, rfl, hP.1, hP.2, halign, rfl, rfl⟩
  | dropped _ => cases hparse
  | error => cases hparse

/-- A header that the bytes hold is accepted when nothing about it is refused. -/
theorem parse_of_raw {bytes : List UInt8} (hfirst : ¬ FirstVersion bytes) {raw : Raw} {i : Nat}
    (hraw : rawTable bytes 0 = .ok (raw, i)) (hknown : raw.Known) (hdims : raw.Dims)
    (halign : alignmentOf ((metadataOf raw.entries).lookup "general.alignment".toList) ≠ 0) :
    ∃ h, parse bytes = .ok h := by
  have hkept := table_checks hfirst
  unfold parse
  rw [hraw] at hkept
  generalize table bytes 0 = r at hkept
  cases hkept with
  | @ok x _ _ hsame hP =>
      obtain ⟨magic, entries, tensors⟩ := x
      cases hsame
      dsimp only
      exact ⟨_, if_neg halign⟩
  | dropped hP => exact absurd ⟨hknown, hdims⟩ hP

/-- When the reader's room is enough the probe goes as far with it. -/
theorem walk_eq {bytes : List UInt8} (hshallow : Shallow bytes) :
    walk (bytes.length + 1) bytes 0 = walk maxDepth bytes 0 := by
  rcases Nat.le_total maxDepth (bytes.length + 1) with hle | hle
  · exact walk_extends hle bytes 0 hshallow
  · exact (walk_extends hle bytes 0 (walk_roomy bytes)).symm

theorem inspectHeader_of_raw {bytes : List UInt8} {raw : Raw} {i : Nat} (hraw : rawTable bytes 0 = .ok (raw, i)) :
    inspectHeader bytes = raw.verdict := by
  obtain ⟨v, hwalk, rfl⟩ := walk_tracks.ok_right hraw
  have hshallow : Shallow bytes := by
    unfold Shallow
    rw [hwalk]
    exact fun h => by cases h
  unfold inspectHeader
  rw [walk_eq hshallow, hwalk]

theorem inspectHeader_of_error {bytes : List UInt8} {e : String} (hshallow : Shallow bytes)
    (hraw : rawTable bytes 0 = .error e) : inspectHeader bytes = .unknown := by
  obtain ⟨e', hwalk⟩ := walk_tracks.error_right hraw
  unfold inspectHeader
  rw [walk_eq hshallow, hwalk]

/-- The probe agrees with the reader, about any bytes that are not of the first version, exactly when they are
readable. -/
theorem inspectHeader_agrees_iff (bytes : List UInt8) :
    Readable bytes ↔ ¬ FirstVersion bytes ∧ Agrees bytes := by
  constructor
  · intro hread
    refine ⟨hread.version, ⟨fun h hparse => ?_, fun e hparse => ?_, hread.shallow⟩⟩
    · obtain ⟨raw, i, hraw, -, -, -, htensors, hmetadata⟩ := raw_of_parse hread.version hparse
      have hregular := hread.regular raw i hraw
      rw [inspectHeader_of_raw hraw, Raw.told_iff htensors hmetadata]
      exact ⟨hregular.architecture, hregular.experts⟩
    · rcases hraw : rawTable bytes 0 with e' | ⟨raw, i⟩
      · exact inspectHeader_of_error hread.shallow hraw
      · have hregular := hread.regular raw i hraw
        obtain ⟨h, hok⟩ := parse_of_raw hread.version hraw hregular.known hregular.dims hregular.alignment
        rw [hok] at hparse
        cases hparse
  · rintro ⟨hfirst, hagrees⟩
    refine ⟨hfirst, hagrees.shallow, fun raw i hraw => ?_⟩
    rcases hparse : parse bytes with e | h
    · have hunknown := hagrees.rejected e hparse
      rw [inspectHeader_of_raw hraw] at hunknown
      unfold Raw.verdict Probe.verdict at hunknown
      split at hunknown <;> cases hunknown
    · obtain ⟨raw', i', hraw', hknown, hdims, halign, htensors, hmetadata⟩ := raw_of_parse hfirst hparse
      rw [hraw] at hraw'
      cases hraw'
      have htold := hagrees.accepted h hparse
      rw [inspectHeader_of_raw hraw, Raw.told_iff htensors hmetadata] at htold
      exact ⟨hknown, hdims, halign, htold.1, htold.2⟩

/-- Without tensors and metadata a header of the first version takes sixteen bytes. -/
def emptyFirst : List UInt8 := [0x47, 0x47, 0x55, 0x46, 1, 0, 0, 0, 0, 0, 0, 0, 0, 0, 0, 0]

theorem emptyFirst_disagrees : (∃ h, parse emptyFirst = .ok h) ∧ inspectHeader emptyFirst = .unknown ∧
    ¬ Agrees emptyFirst := by
  have hparse : ∃ h, parse emptyFirst = .ok h := ⟨_, rfl⟩
  have hunknown : inspectHeader emptyFirst = .unknown := rfl
  refine ⟨hparse, hunknown, fun hagrees => ?_⟩
  obtain ⟨h, hok⟩ := hparse
  have htold := hagrees.accepted h hok
  rw [hunknown] at htold
  exact htold

end Probe

end Oxydllm.Gguf
