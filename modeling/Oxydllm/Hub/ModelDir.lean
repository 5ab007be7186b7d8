/-
# Oxydllm.Hub.ModelDir — the directory a model is pulled into, and its `gguf.index`.

Files are known by their path below the directory; its entries are the first components of these paths. The
index is a text of one name a line: what is written to it reads back as long as the names fit a line
(`Plain`).
-/
import Oxydllm.Hub.Download
import Oxydllm.Lib.Decoder
import Oxydllm.Serve.ToolCalls

namespace Oxydllm.Hub

open Serve.ToolCalls (Value trim trimStart stripSuffix)
open Serve.Harmony (isWhitespace)

abbrev Name := List Char

structure ModelDir where
  files : List (Name × Bytes)
  index : Option (List Char)

namespace ModelDir

def empty : ModelDir := ⟨[], none⟩

def get (d : ModelDir) (name : Name) : Disk := (d.files.find? fun f => f.1 == name).map (·.2)

/-- The file at a path replaced, or removed. -/
def set (d : ModelDir) (name : Name) (disk : Disk) : ModelDir :=
  let rest := d.files.filter fun f => f.1 != name
  match disk with
  | some file => { d with files := (name, file) :: rest }
  | none => { d with files := rest }

/-- `Path::exists`, for a file or a directory on the way to one. -/
def exists? (d : ModelDir) (name : Name) : Bool :=
  d.files.any fun f => f.1 == name || (name ++ ['/']).isPrefixOf f.1

/-- The entry of the directory that a path goes through. -/
def entryOf (path : Name) : Name := path.takeWhile (· ≠ '/')

/-- `Path::extension` of an entry. -/
def hasExtension (ext entry : Name) : Bool := ('.' :: ext).isSuffixOf entry && ext.length + 1 < entry.length

def isGgufEntry : Name → Bool := hasExtension "gguf".toList

/-- `read_dir`. -/
def entries (d : ModelDir) : List Name := (d.files.map fun f => entryOf f.1).dedup

/-- The `.gguf` entries, sorted. -/
def ggufEntries (d : ModelDir) : List Name :=
  (d.entries.filter isGgufEntry).mergeSort fun a b => !decide (b < a)

end ModelDir

/-! ## The index -/

/-- `writeln!` of each name. -/
def indexText (names : List Name) : List Char := names.flatMap (· ++ ['\n'])

/-- A line without the carriage return in front of its break. -/
def chomp (line : List Char) : List Char := (stripSuffix ['\r'] line).getD line

/-- `str::lines`, the line read so far in front. -/
def linesFrom (line : List Char) : List Char → List (List Char)
  | [] => if line = [] then [] else [line]
  | c :: text => if c = '\n' then chomp line :: linesFrom [] text else linesFrom (line ++ [c]) text

/-- The names of an index. -/
def indexNames (text : List Char) : List Name :=
  ((linesFrom [] text).map trim).filter fun l => !l.isEmpty && l.head? != some '#'

/-- A name that a line of the index holds as it is. -/
structure Plain (name : Name) : Prop where
  ne_nil : name ≠ []
  no_break : '\n' ∉ name
  head : ∀ c ∈ name.head?, isWhitespace c = false
  last : ∀ c ∈ name.getLast?, isWhitespace c = false

theorem Plain.trim {name : Name} (h : Plain name) : trim name = name := by
  have hstart : trimStart name = name := by
    cases name with
    | nil => rfl
    | cons c rest =>
        unfold trimStart
        rw [List.dropWhile_cons_of_neg]
        rw [h.head c rfl]
        exact Bool.false_ne_true
  unfold Serve.ToolCalls.trim
  rw [hstart, List.rdropWhile_eq_self_iff]
  intro hne
  rw [h.last _ (List.getLast?_eq_some_getLast hne)]
  exact Bool.false_ne_true

theorem Plain.chomp {name : Name} (h : Plain name) : chomp name = name := by
  unfold Hub.chomp stripSuffix
  split
  next hsuf =>
    -- a carriage return at the end is white space
    obtain ⟨front, rfl⟩ := List.isSuffixOf_iff_suffix.1 hsuf
    have := h.last '\r' (by rw [List.getLast?_concat]; rfl)
    exact absurd this (by decide)
  · rfl

theorem linesFrom_line (line name : List Char) (hbreak : '\n' ∉ name) (text : List Char) :
    linesFrom line (name ++ '\n' :: text) = chomp (line ++ name) :: linesFrom [] text := by
  induction name generalizing line with
  | nil => rw [List.nil_append, linesFrom, if_pos rfl, List.append_nil]
  | cons c name ih =>
      rw [List.mem_cons, not_or] at hbreak
      rw [List.cons_append, linesFrom, if_neg (Ne.symm hbreak.1), ih _ hbreak.2, List.append_assoc,
        List.singleton_append]

/-- The lines of an index are the names written to it, then those of what follows. -/
theorem linesFrom_indexText {names : List Name} (h : ∀ n ∈ names, Plain n) (text : List Char) :
    linesFrom [] (indexText names ++ text) = names ++ linesFrom [] text := by
  induction names with
  | nil => rfl
  | cons name names ih =>
      have hname := h name List.mem_cons_self
      rw [indexText, List.flatMap_cons, List.append_assoc, List.append_assoc, List.singleton_append,
        linesFrom_line [] name hname.no_break, List.nil_append, hname.chomp]
      exact congrArg (name :: ·) (ih fun n hn => h n (List.mem_cons_of_mem _ hn))

/-- A line without a break behind it. -/
theorem linesFrom_last (line name : List Char) (hbreak : '\n' ∉ name) (hne : line ++ name ≠ []) :
    linesFrom line name = [line ++ name] := by
  induction name generalizing line with
  | nil =>
      rw [List.append_nil] at hne ⊢
      rw [linesFrom, if_neg hne]
  | cons c name ih =>
      rw [List.mem_cons, not_or] at hbreak
      have happend : line ++ c :: name = line ++ [c] ++ name := by simp
      rw [happend] at hne ⊢
      rw [linesFrom, if_neg (Ne.symm hbreak.1), ih _ hbreak.2 hne]

/-- What an index of plain names reads back as: all of them but comments. -/
theorem indexNames_eq {names : List Name} (h : ∀ n ∈ names, Plain n) {text : List Char}
    (htext : linesFrom [] text = names) : indexNames text = names.filter (·.head? != some '#') := by
  unfold indexNames
  rw [htext, List.map_congr_left fun n hn => (h n hn).trim, List.map_id']
  refine List.filter_congr fun n hn => ?_
  rw [List.isEmpty_eq_false_iff.2 (h n hn).ne_nil, Bool.not_false, Bool.true_and]

namespace ModelDir

/-- All `.gguf` files of a directory: those its index names, or else its entries. -/
def findGgufFiles (d : ModelDir) : Option (List Name) :=
  let listed := (d.index.map indexNames).getD []
  if listed ≠ [] then some listed
  else if d.ggufEntries = [] then none
  else some d.ggufEntries

/-! ## Whether a download is there as a whole -/

/-- `Value::as_u64`. -/
def asU64 : Value → Option Nat
  | .number text =>
      let n := text.foldl (fun n c => n * 10 + (c.toNat - '0'.toNat)) 0
      if text.all Char.isDigit ∧ n < 2 ^ 64 then some n else none
  | _ => none

section Incomplete

-- `serde_json::from_slice`
variable (fromSlice : Bytes → Option Value)

/-- Fewer bytes than the header of a safetensors file promises. -/
def safetensorsTruncated (file : Bytes) : Bool :=
  let headerLen := LittleEndian.fromLe (file.take 8)
  if file.length < 8 ∨ 256 * 2 ^ 20 < headerLen ∨ file.length < 8 + headerLen then true
  else
    match fromSlice ((file.drop 8).take headerLen) with
    | some (.object tensors) =>
        let ends := tensors.filterMap fun t =>
          ((t.2.get "data_offsets".toList).bind Value.asArray).bind (·[1]?) |>.bind asU64
        decide (file.length < (8 + headerLen + ends.foldl max 0) % 2 ^ 64)
    | _ => true

/-- A file that is missing or truncated; a directory cannot be read. -/
def lacksShard (d : ModelDir) (shard : Name) : Bool := ((d.get shard).map (safetensorsTruncated fromSlice)).getD true

/-- Short of the bytes that `model.safetensors.index.json` lists. -/
def lacksShards (d : ModelDir) (json : Value) : Bool :=
  match (json.get "weight_map".toList).bind Value.asObject with
  | none => true
  | some map =>
      let shards := (map.filterMap (·.2.asStr)).dedup
      if shards.any (d.lacksShard fromSlice) then true
      else
        match ((json.get "metadata".toList).bind (·.get "total_size".toList)).bind asU64 with
        | some total => decide ((shards.map fun s => held (d.get s)).sum < total)
        | none => false

/-- `is_incomplete_download`. What is called `gguf.index` and is no file cannot be read. -/
def isIncompleteDownload (d : ModelDir) : Bool :=
  match d.index with
  | some text => !(indexNames text).all d.exists?
  | none =>
      if d.exists? "gguf.index".toList then true
      else if d.exists? "model.safetensors.index.json".toList then
        match (d.get "model.safetensors.index.json".toList).bind fromSlice with
        | none => true
        | some json => d.lacksShards fromSlice json
      else if d.exists? "config.json".toList then
        let weights := d.entries.filter (hasExtension "safetensors".toList)
        weights.isEmpty || weights.any (d.lacksShard fromSlice)
      else true

end Incomplete

/-! ## Small facts -/

@[simp] theorem get_set_self (d : ModelDir) (name : Name) (disk : Disk) : (d.set name disk).get name = disk := by
  unfold set get
  cases disk with
  | none =>
      have : (d.files.filter fun f => f.1 != name).find? (fun f => f.1 == name) = none := by
        rw [List.find?_eq_none]
        intro f hf
        have := (List.mem_filter.1 hf).2
        simpa using this
      simp only [this, Option.map_none]
  | some file =>
      dsimp only
      rw [List.find?_cons, beq_self_eq_true, Option.map_some]

theorem get_set_ne (d : ModelDir) {name other : Name} (h : other ≠ name) (disk : Disk) :
    (d.set name disk).get other = d.get other := by
  have hrest : (d.files.filter fun f => f.1 != name).find? (fun f => f.1 == other) =
      d.files.find? fun f => f.1 == other := by
    rw [List.find?_filter]
    congr 1
    funext f
    by_cases hf : f.1 = other
    · simp [hf, h]
    · simp [hf]
  unfold set get
  cases disk with
  | none => simp only [hrest]
  | some file =>
      have hmiss : (name == other) = false := by simpa using h.symm
      dsimp only
      rw [List.find?_cons, hmiss, hrest]

@[simp] theorem set_index (d : ModelDir) (name : Name) (disk : Disk) : (d.set name disk).index = d.index := by
  unfold set
  cases disk <;> rfl

/-- A path has a file exactly when it is among the files. -/
theorem mem_files_iff {d : ModelDir} {name : Name} : (∃ file, (name, file) ∈ d.files) ↔ d.get name ≠ none := by
  unfold get
  rw [Ne, Option.map_eq_none_iff, List.find?_eq_none]
  constructor
  · rintro ⟨file, hfile⟩ hnone
    exact hnone _ hfile (beq_self_eq_true name)
  · intro hsome
    by_contra hnone
    exact hsome fun f hf heq => hnone ⟨f.2, by rw [← eq_of_beq heq]; exact hf⟩

/-- An entry leads to a file. -/
theorem mem_ggufEntries {d : ModelDir} {entry : Name} :
    entry ∈ d.ggufEntries ↔ (∃ path, d.get path ≠ none ∧ entryOf path = entry) ∧ isGgufEntry entry = true := by
  unfold ggufEntries entries
  rw [List.mem_mergeSort, List.mem_filter, List.mem_dedup, List.mem_map]
  constructor
  · rintro ⟨⟨f, hf, rfl⟩, hgguf⟩
    exact ⟨⟨f.1, mem_files_iff.1 ⟨f.2, hf⟩, rfl⟩, hgguf⟩
  · rintro ⟨⟨path, hpath, rfl⟩, hgguf⟩
    obtain ⟨file, hfile⟩ := mem_files_iff.2 hpath
    exact ⟨⟨_, hfile, rfl⟩, hgguf⟩

end ModelDir

end Oxydllm.Hub
