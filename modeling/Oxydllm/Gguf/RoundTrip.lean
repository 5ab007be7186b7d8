/-
# Oxydllm.Gguf.RoundTrip — a header is read back from its bytes, and from no beginning of them.

The encoder writes a header of any version, as the one beside the reader writes the third. What an empty
array writes as the type of its elements is arbitrary.
-/
import Oxydllm.Gguf.Header

namespace Oxydllm.Gguf

open LittleEndian Decoder
open Utf8Lossy (utf8 lossy_utf8)

/-! ## The encoder -/

def Value.tag : Value → UInt32
  | .u8 _ => 0
  | .i8 _ => 1
  | .u16 _ => 2
  | .i16 _ => 3
  | .u32 _ => 4
  | .i32 _ => 5
  | .f32 _ => 6
  | .bool _ => 7
  | .string _ => 8
  | .array _ => 9
  | .u64 _ => 10
  | .i64 _ => 11
  | .f64 _ => 12

/-- The bytes of a count or length. -/
def VersionedMagic.width : VersionedMagic → Nat
  | .ggufV1 => 4
  | .ggufV2 | .ggufV3 => 8

section

variable (empty : UInt32) (magic : VersionedMagic)

def putLen (n : Nat) : List UInt8 := toLe magic.width n

def putStr (s : List Char) : List UInt8 := putLen magic (utf8 s).length ++ utf8 s

/-- The type of an array's elements, that of the first. -/
def elemTag (items : List Value) : UInt32 := (items.head?.map Value.tag).getD empty

mutual

def putValue : Value → List UInt8
  | .u8 x => [x]
  | .i8 x => [x.toUInt8]
  | .u16 x => toLe 2 x.toNat
  | .i16 x => toLe 2 x.toUInt16.toNat
  | .u32 x => toLe 4 x.toNat
  | .i32 x => toLe 4 x.toUInt32.toNat
  | .f32 bits => toLe 4 bits.toNat
  | .bool x => [if x then 1 else 0]
  | .string s => putStr magic s
  | .array items => toLe 4 (elemTag empty items).toNat ++ (putLen magic items.length ++ putItems items)
  | .u64 x => toLe 8 x.toNat
  | .i64 x => toLe 8 x.toUInt64.toNat
  | .f64 bits => toLe 8 bits.toNat

def putItems : List Value → List UInt8
  | [] => []
  | v :: items => putValue v ++ putItems items

end

def putEntry (p : List Char × Value) : List UInt8 :=
  putStr magic p.1 ++ (toLe 4 p.2.tag.toNat ++ putValue empty magic p.2)

/-- The dimensions are written innermost first. -/
def putTensor (t : TensorEntry) : List UInt8 :=
  putStr magic t.name ++ (toLe 4 t.dims.length ++ (t.dims.reverse.flatMap (putLen magic) ++
    (toLe 4 t.typeId.toNat ++ toLe 8 t.offset.toNat)))

end

structure Header where
  magic : VersionedMagic
  metadata : List (List Char × Value)
  tensors : List TensorEntry

def VersionedMagic.version : VersionedMagic → Nat
  | .ggufV1 => 1
  | .ggufV2 => 2
  | .ggufV3 => 3

def encode (empty : UInt32) (h : Header) : List UInt8 :=
  ([0x47, 0x47, 0x55, 0x46] ++ toLe 4 h.magic.version) ++
    (putLen h.magic h.tensors.length ++ (putLen h.magic h.metadata.length ++
      (h.metadata.flatMap (putEntry empty h.magic) ++ h.tensors.flatMap (putTensor h.magic))))

/-! ## Well-formed headers -/

/-- A count or length that the version's width holds. -/
def Fits (magic : VersionedMagic) (n : Nat) : Prop := n < 256 ^ magic.width

instance (magic : VersionedMagic) (n : Nat) : Decidable (Fits magic n) := inferInstanceAs (Decidable (_ < _))

/-- A value whose lengths fit, with arrays of one type of elements, nested at most `room` deep. -/
def Value.Fits (magic : VersionedMagic) : Nat → Value → Prop
  | 0, .array _ => False
  | room + 1, .array items =>
      Gguf.Fits magic items.length ∧ (∀ v ∈ items, ∀ w ∈ items, v.tag = w.tag) ∧
        ∀ v ∈ items, v.Fits magic room
  | _, .string s => Gguf.Fits magic (utf8 s).length
  | _, _ => True

/-- An integer of at most 32 bits that is not zero. -/
def Value.Aligns : Value → Prop
  | .u8 x => x ≠ 0
  | .u16 x => x ≠ 0
  | .u32 x => x ≠ 0
  | .i8 x => x ≠ 0
  | .i16 x => x ≠ 0
  | .i32 x => x ≠ 0
  | _ => False

structure WellFormed (h : Header) : Prop where
  keys : (h.metadata.map (·.1)).Nodup
  names : (h.tensors.map (·.name)).Nodup
  nKv : Fits h.magic h.metadata.length
  nTensors : Fits h.magic h.tensors.length
  entries : ∀ p ∈ h.metadata, Fits h.magic (utf8 p.1).length ∧ p.2.Fits h.magic maxDepth
  tensors : ∀ t ∈ h.tensors, Fits h.magic (utf8 t.name).length ∧ t.dims.length ≤ maxDims ∧
    ∀ d ∈ t.dims, Fits h.magic d
  alignment : ∀ v, h.metadata.lookup "general.alignment".toList = some v → v.Aligns

/-! ## What the cursor reads -/

theorem take_reads (w : List UInt8) : Reads (take w.length) w w := Reads.take _ w

theorem u8_reads (x : UInt8) : Reads u8 [x] x := (take_reads [x]).map (·.headD 0)

theorem u16_reads (x : UInt16) : Reads u16 (toLe 2 x.toNat) x := by
  have := (take_reads (toLe 2 x.toNat)).map fun s => UInt16.ofNat (fromLe s)
  rwa [length_toLe, fromLe_toLe x.toNat_lt, UInt16.ofNat_toNat] at this

theorem u32_reads (x : UInt32) : Reads u32 (toLe 4 x.toNat) x := by
  have := (take_reads (toLe 4 x.toNat)).map fun s => UInt32.ofNat (fromLe s)
  rwa [length_toLe, fromLe_toLe x.toNat_lt, UInt32.ofNat_toNat] at this

theorem u64_reads (x : UInt64) : Reads u64 (toLe 8 x.toNat) x := by
  have := (take_reads (toLe 8 x.toNat)).map fun s => UInt64.ofNat (fromLe s)
  rwa [length_toLe, fromLe_toLe x.toNat_lt, UInt64.ofNat_toNat] at this

/-- A number that is not one of the cursor's, of a width it has. -/
theorem u32_reads_nat {n : Nat} (h : n < 256 ^ 4) : Reads u32 (toLe 4 n) (.ofNat n) := by
  have := u32_reads (.ofNat n)
  rwa [UInt32.toNat_ofNat_of_lt' h] at this

theorem u64_reads_nat {n : Nat} (h : n < 256 ^ 8) : Reads u64 (toLe 8 n) (.ofNat n) := by
  have := u64_reads (.ofNat n)
  rwa [UInt64.toNat_ofNat_of_lt' h] at this

variable {magic : VersionedMagic}

theorem len_reads {n : Nat} (h : Fits magic n) : Reads (len magic) (putLen magic n) n := by
  have h32 : magic = .ggufV1 → Reads (do let x ← u32; pure x.toNat) (toLe 4 n) n := by
    rintro rfl
    have := (u32_reads_nat h).map UInt32.toNat
    rwa [UInt32.toNat_ofNat_of_lt' h] at this
  have h64 : n < 256 ^ 8 → Reads (do let x ← u64; pure x.toNat) (toLe 8 n) n := by
    intro hn
    have := (u64_reads_nat hn).map UInt64.toNat
    rwa [UInt64.toNat_ofNat_of_lt' hn] at this
  cases magic with
  | ggufV1 => exact h32 rfl
  | ggufV2 => exact h64 h
  | ggufV3 => exact h64 h

theorem string_reads {s : List Char} (h : Fits magic (utf8 s).length) :
    Reads (string magic) (putStr magic s) s := by
  have := (take_reads (utf8 s)).map Utf8Lossy.lossy
  rw [lossy_utf8] at this
  exact (len_reads h).bind this

variable {empty : UInt32}

theorem putItems_eq (items : List Value) :
    putItems empty magic items = items.flatMap (putValue empty magic) := by
  induction items with
  | nil => rfl
  | cons v items ih => rw [putItems, List.flatMap_cons, ih]

/-- The elements of an array have the type it writes. -/
theorem elemTag_eq {items : List Value} (h : ∀ v ∈ items, ∀ w ∈ items, v.tag = w.tag) {v : Value}
    (hv : v ∈ items) : elemTag empty items = v.tag := by
  cases items with
  | nil => cases hv
  | cons w items => exact h w List.mem_cons_self v hv

theorem Value.Fits.string {room : Nat} {s : List Char} (h : (Value.string s).Fits magic room) :
    Gguf.Fits magic (utf8 s).length := by
  cases room with
  | zero => exact h
  | succ room => exact h

/-- A scalar is read at any depth. -/
theorem scalar_reads {room : Nat} {v : Value} (h : v.Fits magic room)
    (hscalar : ∀ items, v ≠ .array items) :
    Reads (value magic room v.tag) (putValue empty magic v) v := by
  unfold value
  cases v with
  | u8 x => exact (u8_reads x).map Value.u8
  | i8 x => exact (u8_reads x.toUInt8).map fun y => Value.i8 y.toInt8
  | u16 x => exact (u16_reads x).map Value.u16
  | i16 x => exact (u16_reads x.toUInt16).map fun y => Value.i16 y.toInt16
  | u32 x => exact (u32_reads x).map Value.u32
  | i32 x => exact (u32_reads x.toUInt32).map fun y => Value.i32 y.toInt32
  | f32 bits => exact (u32_reads bits).map Value.f32
  | bool x =>
      cases x with
      | true => exact (u8_reads 1).map fun y => Value.bool (y != 0)
      | false => exact (u8_reads 0).map fun y => Value.bool (y != 0)
  | string s => exact (string_reads h.string).map Value.string
  | array items => exact absurd rfl (hscalar items)
  | u64 x => exact (u64_reads x).map Value.u64
  | i64 x => exact (u64_reads x.toUInt64).map fun y => Value.i64 y.toInt64
  | f64 bits => exact (u64_reads bits).map Value.f64

/-- An array is read in the room its elements leave. -/
theorem value_reads {room : Nat} {v : Value} (h : v.Fits magic room) :
    Reads (value magic room v.tag) (putValue empty magic v) v := by
  induction room generalizing v with
  | zero => exact scalar_reads h fun items hv => by rw [hv] at h; exact h
  | succ room ih =>
      by_cases hscalar : ∀ items, v ≠ .array items
      · exact scalar_reads h hscalar
      · simp only [not_forall, not_not] at hscalar
        obtain ⟨items, rfl⟩ := hscalar
        obtain ⟨hlen, hsame, hitems⟩ := h
        have hread : ∀ v ∈ items,
            Reads (value magic room (elemTag empty items)) (putValue empty magic v) v := by
          intro v hv
          rw [elemTag_eq hsame hv]
          exact ih (hitems v hv)
        unfold value putValue
        rw [putItems_eq]
        exact (u32_reads _).bind ((len_reads hlen).bind ((Reads.times hread).map Value.array))

/-! ## The header -/

theorem entry_reads {p : List Char × Value} (hkey : Fits magic (utf8 p.1).length)
    (hvalue : p.2.Fits magic maxDepth) :
    Reads (metadataEntry magic) (putEntry empty magic p) p := by
  refine (string_reads hkey).bind ((u32_reads p.2.tag).bind ?_)
  exact ((value_reads hvalue).mapError _).map fun value => (p.1, value)

theorem tensor_reads {t : TensorEntry} (hname : Fits magic (utf8 t.name).length)
    (hdims : t.dims.length ≤ maxDims) (hfits : ∀ d ∈ t.dims, Fits magic d) :
    Reads (tensorEntry magic) (putTensor magic t) t := by
  have hsmall : t.dims.length < 256 ^ 4 := lt_of_le_of_lt hdims (by decide)
  have hn : (UInt32.ofNat t.dims.length).toNat = t.dims.length := UInt32.toNat_ofNat_of_lt' hsmall
  refine (string_reads hname).bind ((u32_reads_nat hsmall).bind ?_)
  rw [hn, if_neg (not_lt.2 hdims), ← List.length_reverse]
  have hread : Reads (Decoder.times (len magic) t.dims.reverse.length) (t.dims.reverse.flatMap (putLen magic))
      t.dims.reverse := Reads.times fun d hd => len_reads (hfits d (List.mem_reverse.1 hd))
  refine hread.bind ((u32_reads t.typeId).bind ?_)
  have hlast := (u64_reads t.offset).map fun offset =>
    (⟨t.name, t.typeId, t.dims.reverse.reverse, offset⟩ : TensorEntry)
  rw [List.reverse_reverse] at hlast ⊢
  exact hlast

theorem preamble_reads (magic : VersionedMagic) :
    Reads preamble ([0x47, 0x47, 0x55, 0x46] ++ toLe 4 magic.version) magic := by
  refine (take_reads [0x47, 0x47, 0x55, 0x46]).bind ?_
  rw [if_neg (not_not.2 rfl)]
  cases magic with
  | ggufV1 => exact (u32_reads 1).last (Reads.pure _)
  | ggufV2 => exact (u32_reads 2).last (Reads.pure _)
  | ggufV3 => exact (u32_reads 3).last (Reads.pure _)

theorem table_reads {h : Header} (hwf : WellFormed h) :
    Reads table (encode empty h) (h.magic, h.metadata, h.tensors) := by
  have hentries : Reads (Decoder.times (metadataEntry h.magic) h.metadata.length)
      (h.metadata.flatMap (putEntry empty h.magic)) h.metadata :=
    Reads.times fun p hp => entry_reads (hwf.entries p hp).1 (hwf.entries p hp).2
  have htensors : Reads (Decoder.times (tensorEntry h.magic) h.tensors.length)
      (h.tensors.flatMap (putTensor h.magic)) h.tensors :=
    Reads.times fun t ht =>
      tensor_reads (hwf.tensors t ht).1 (hwf.tensors t ht).2.1 (hwf.tensors t ht).2.2
  refine (preamble_reads h.magic).bind ((len_reads hwf.nTensors).bind ((len_reads hwf.nKv).bind ?_))
  exact hentries.bind (htensors.map fun tensors => (h.magic, h.metadata, tensors))

/-! ## Maps -/

theorem lookup_insert {α : Type} (m : List (List Char × α)) (key : List Char) (value : α) (k : List Char) :
    (insert m key value).lookup k = if k = key then some value else m.lookup k := by
  unfold insert
  by_cases hk : k = key
  · subst hk
    rw [if_pos rfl, List.lookup_cons_self]
  · rw [if_neg hk, List.lookup_cons, beq_eq_false_iff_ne.2 hk]
    show (m.filter fun p => p.1 ≠ key).lookup k = m.lookup k
    induction m with
    | nil => rfl
    | cons p m ih =>
        rw [List.filter_cons]
        by_cases hp : p.1 = key
        · rw [if_neg (by simp [hp]), ih, List.lookup_cons, beq_eq_false_iff_ne.2 (hp ▸ hk)]
        · rw [if_pos (by simp [hp]), List.lookup_cons, List.lookup_cons, ih]

/-- Entries of distinct keys, inserted one by one, are what is found. -/
theorem lookup_foldl_insert {α : Type} {entries : List (List Char × α)} (hkeys : (entries.map (·.1)).Nodup)
    (m : List (List Char × α)) (k : List Char) :
    (entries.foldl (fun m p => insert m p.1 p.2) m).lookup k = (entries.lookup k).or (m.lookup k) := by
  induction entries generalizing m with
  | nil => rfl
  | cons p entries ih =>
      rw [List.map_cons, List.nodup_cons] at hkeys
      rw [List.foldl_cons, ih hkeys.2, lookup_insert, List.lookup_cons]
      by_cases hk : k = p.1
      · have hnone : entries.lookup k = none :=
          List.lookup_eq_none_iff.2 fun q hq => bne_iff_ne.2 fun hc =>
            hkeys.1 (List.mem_map.2 ⟨q, hq, hc.symm.trans hk⟩)
        rw [if_pos hk, beq_iff_eq.2 hk, hnone]
        rfl
      · rw [if_neg hk, beq_eq_false_iff_ne.2 hk]

theorem lookup_iff_mem {α : Type} {entries : List (List Char × α)} (hkeys : (entries.map (·.1)).Nodup)
    {k : List Char} {v : α} : entries.lookup k = some v ↔ (k, v) ∈ entries := by
  rw [List.lookup_eq_some_iff]
  constructor
  · rintro ⟨front, back, rfl, -⟩
    exact List.mem_append_right _ List.mem_cons_self
  · intro h
    obtain ⟨front, back, rfl⟩ := List.append_of_mem h
    rw [List.map_append, List.nodup_append] at hkeys
    refine ⟨front, back, rfl, fun p hp => ?_⟩
    rw [bne_iff_ne]
    exact (hkeys.2.2 p.1 (List.mem_map_of_mem hp) k List.mem_cons_self).symm

/-- The tensors that candle names, by their names. -/
def namedInfos (tensors : List TensorEntry) : List (List Char × TensorInfo) :=
  tensors.filterMap fun t => t.info.map fun info => (t.name, info)

theorem foldl_insertInfo (tensors : List TensorEntry) (m : List (List Char × TensorInfo)) :
    tensors.foldl insertInfo m = (namedInfos tensors).foldl (fun m p => insert m p.1 p.2) m := by
  unfold namedInfos
  induction tensors generalizing m with
  | nil => rfl
  | cons t tensors ih =>
      rw [List.foldl_cons, ih, List.filterMap_cons]
      unfold insertInfo
      cases t.info with
      | none => rfl
      | some info => rfl

theorem namedInfos_keys {tensors : List TensorEntry} (h : (tensors.map (·.name)).Nodup) :
    ((namedInfos tensors).map (·.1)).Nodup := by
  refine h.sublist ?_
  unfold namedInfos
  induction tensors with
  | nil => exact .slnil
  | cons t tensors ih =>
      rw [List.map_cons, List.nodup_cons] at h
      rw [List.filterMap_cons, List.map_cons]
      cases t.info with
      | none => exact (ih h.2).cons _
      | some info => exact (ih h.2).cons_cons _

theorem mem_namedInfos {tensors : List TensorEntry} {name : List Char} {info : TensorInfo} :
    (name, info) ∈ namedInfos tensors ↔ ∃ t ∈ tensors, t.name = name ∧ t.info = some info := by
  unfold namedInfos
  rw [List.mem_filterMap]
  refine exists_congr fun t => and_congr_right fun _ => ?_
  cases t.info with
  | none => simp
  | some i => simp

/-! ## The data offset -/

theorem alignUp_isLeast {i a : Nat} (ha : a ≠ 0) : IsLeast {m | a ∣ m ∧ i ≤ m} (alignUp i a) := by
  have hpos : 0 < a := Nat.pos_of_ne_zero ha
  unfold alignUp
  constructor
  · refine ⟨Nat.dvd_mul_left a _, ?_⟩
    have := Nat.lt_div_mul_add hpos (a := i + (a - 1))
    omega
  · rintro m ⟨⟨k, rfl⟩, hk⟩
    rw [Nat.mul_comm a k]
    refine Nat.mul_le_mul_right a (Nat.le_of_lt_succ ?_)
    rw [Nat.div_lt_iff_lt_mul hpos, Nat.succ_mul, Nat.mul_comm k a]
    omega

/-- A signed alignment is positive or not taken. -/
theorem signed_pos {n : Int} {p : Prop} [Decidable p] (h : p → ¬ n ≤ 0) :
    (if p then n.toNat else defaultAlignment) ≠ 0 := by
  split
  next hp =>
    have := h hp
    omega
  next => decide

theorem alignmentOf_pos {h : Header} (hwf : WellFormed h) :
    alignmentOf (h.metadata.lookup "general.alignment".toList) ≠ 0 := by
  have haligns := hwf.alignment
  generalize h.metadata.lookup "general.alignment".toList = o at haligns ⊢
  cases o with
  | none => decide
  | some v =>
      have hv := haligns v rfl
      cases v with
      | u8 x => exact fun hx => hv (UInt8.toNat_inj.1 hx)
      | u16 x => exact fun hx => hv (UInt16.toNat_inj.1 hx)
      | u32 x => exact fun hx => hv (UInt32.toNat_inj.1 hx)
      | i8 x =>
          refine signed_pos fun hle hx => hv (Int8.toInt_inj.1 ?_)
          exact le_antisymm hx (Int8.le_iff_toInt_le.1 hle)
      | i16 x =>
          refine signed_pos fun hle hx => hv (Int16.toInt_inj.1 ?_)
          exact le_antisymm hx (Int16.le_iff_toInt_le.1 hle)
      | i32 x =>
          refine signed_pos fun hle hx => hv (Int32.toInt_inj.1 ?_)
          exact le_antisymm hx (Int32.le_iff_toInt_le.1 hle)
      | _ => exact absurd hv not_false

/-! ## The round trip -/

theorem parse_eq {bytes : List UInt8} {h : Header} {i : Nat} (hwf : WellFormed h)
    (htable : table bytes 0 = .ok ((h.magic, h.metadata, h.tensors), i)) :
    ∃ out, parse bytes = .ok out ∧ out.content.magic = h.magic ∧
      (∀ k, out.content.metadata.lookup k = h.metadata.lookup k) ∧ out.tensors = h.tensors ∧
      (∀ name info, out.content.tensorInfos.lookup name = some info ↔
        ∃ t ∈ h.tensors, t.name = name ∧ t.info = some info) ∧
      out.content.tensorDataOffset =
        alignUp i (alignmentOf (h.metadata.lookup "general.alignment".toList)) := by
  have hmetadata : ∀ k,
      (h.metadata.foldl (fun m p => insert m p.1 p.2) []).lookup k = h.metadata.lookup k := by
    intro k
    rw [lookup_foldl_insert hwf.keys, List.lookup_nil, Option.or_none]
  have hpos := alignmentOf_pos hwf
  unfold parse
  rw [htable]
  simp only
  rw [hmetadata, if_neg hpos]
  refine ⟨_, rfl, rfl, hmetadata, rfl, fun name info => ?_, rfl⟩
  show (h.tensors.foldl insertInfo []).lookup name = some info ↔ _
  rw [foldl_insertInfo, lookup_foldl_insert (namedInfos_keys hwf.names), List.lookup_nil, Option.or_none,
    lookup_iff_mem (namedInfos_keys hwf.names), mem_namedInfos]

/-- The encoding of a well-formed header, followed by anything, is parsed as its metadata, its tensors and
the least aligned offset behind it; a strict beginning of the encoding is refused. -/
theorem header_round_trip {h : Header} (hwf : WellFormed h) (empty : UInt32) :
    (∀ back, ∃ out, parse (encode empty h ++ back) = .ok out ∧ out.content.magic = h.magic ∧
      (∀ k, out.content.metadata.lookup k = h.metadata.lookup k) ∧ out.tensors = h.tensors ∧
      (∀ name info, out.content.tensorInfos.lookup name = some info ↔
        ∃ t ∈ h.tensors, t.name = name ∧ t.info = some info) ∧
      IsLeast {m | alignmentOf (h.metadata.lookup "general.alignment".toList) ∣ m ∧
        (encode empty h).length ≤ m} out.content.tensorDataOffset) ∧
    ∀ cut, cut <+: encode empty h → cut ≠ encode empty h → ∃ e, parse cut = .error e := by
  have hreads := @table_reads empty h hwf
  constructor
  · intro back
    have htable := hreads.whole [] back
    rw [List.nil_append, List.length_nil, Nat.zero_add] at htable
    obtain ⟨out, hparse, hmagic, hmetadata, htensors, hinfos, hoffset⟩ := parse_eq hwf htable
    refine ⟨out, hparse, hmagic, hmetadata, htensors, hinfos, ?_⟩
    rw [hoffset]
    exact alignUp_isLeast (alignmentOf_pos hwf)
  · intro cut hcut hne
    obtain ⟨e, he⟩ := hreads.cut [] cut hcut hne
    rw [List.nil_append, List.length_nil] at he
    unfold parse
    rw [he]
    exact ⟨e, rfl⟩

/-- A header with an alignment, an array of arrays and a tensor. -/
def smallHeader : Header where
  magic := .ggufV1
  metadata := [("general.alignment".toList, .u8 64),
    ("a".toList, .array [.array [.string "é".toList], .array []])]
  tensors := [⟨"w".toList, 12, [4, 256], 0⟩]

/-- Its 110 bytes put the data at 128. -/
theorem smallHeader_round_trip : ∃ out, parse (encode 4 smallHeader ++ [0xFF]) = .ok out ∧
    out.content.tensorDataOffset = 128 := by
  have hwf : WellFormed smallHeader := by
    refine ⟨by decide, by decide, by decide, by decide, ?_, by decide, ?_⟩
    · intro p hp
      rcases List.mem_cons.1 hp with rfl | hp
      · exact ⟨by decide, trivial⟩
      · rw [List.mem_singleton.1 hp]
        refine ⟨by decide, by decide, by simp [Value.tag], fun v hv => ?_⟩
        rcases List.mem_cons.1 hv with rfl | hv
        · refine ⟨by decide, by simp [Value.tag], fun w hw => ?_⟩
          rw [List.mem_singleton.1 hw]
          show Fits smallHeader.magic (utf8 "é".toList).length
          decide
        · rw [List.mem_singleton.1 hv]
          exact ⟨by decide, nofun, nofun⟩
    · rintro v hv
      cases hv
      show ¬ (64 : UInt8) = 0
      decide
  obtain ⟨out, hparse, -, -, -, -, hoffset⟩ := (header_round_trip hwf 4).1 [0xFF]
  have halign : alignmentOf (smallHeader.metadata.lookup "general.alignment".toList) = 64 := by decide
  have hlen : (encode 4 smallHeader).length = 110 := by decide
  rw [halign, hlen] at hoffset
  exact ⟨out, hparse, hoffset.unique (alignUp_isLeast (by decide : 64 ≠ 0))⟩

end Oxydllm.Gguf
