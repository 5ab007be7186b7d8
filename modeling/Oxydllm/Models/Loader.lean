/-
# Oxydllm.Models.Loader — from a model id to a directory (`resolve_model_path`).

The file system is a tree without links, its directories in the order `read_dir` lists them. A name, a path
and an id are bytes; all that is done to them looks at ASCII only, save where a name is read as UTF-8. A
function that may slice a text out of its bounds returns an `Option`, `none` for the panic.
-/
import Oxydllm.Hub.ModelDir
import Oxydllm.Lib.PathSteps
import Oxydllm.Lib.Utf8Lossy

namespace Oxydllm.Models

open PathSteps (Step follow)
open Utf8Lossy (lossy utf8)
open Hub (Bytes)

/-! ## Texts -/

/-- The bytes of an ASCII text. -/
def ascii (s : String) : Bytes := s.toList.map fun c => UInt8.ofNat c.toNat

def slash : UInt8 := 0x2F

def dot : UInt8 := 0x2E

def dash : UInt8 := 0x2D

def lower (b : UInt8) : UInt8 := if 0x41 ≤ b ∧ b ≤ 0x5A then b + 0x20 else b

def upper (b : UInt8) : UInt8 := if 0x61 ≤ b ∧ b ≤ 0x7A then b - 0x20 else b

def toAsciiLowercase (s : Bytes) : Bytes := s.map lower

def toAsciiUppercase (s : Bytes) : Bytes := s.map upper

def eqIgnoreAsciiCase (a b : Bytes) : Bool := toAsciiLowercase a == toAsciiLowercase b

/-- `OsStr::to_str`. -/
def toStr (name : Bytes) : Option Bytes := if utf8 (lossy name) = name then some name else none

/-- What `to_string_lossy` makes of bytes behind those held of a character: a character keeps its bytes. -/
def lossyFrom (held : Bytes) : Bytes → Bytes
  | [] => if held = [] then [] else utf8 [Utf8Lossy.replacement]
  | b :: s =>
      match Utf8Lossy.classify (held ++ [b]) with
      | .char _ => held ++ b :: lossyFrom [] s
      | .incomplete => lossyFrom (held ++ [b]) s
      | .invalid =>
          -- a byte that does not continue what is held is read afresh
          if held = [] then utf8 [Utf8Lossy.replacement] ++ lossyFrom [] s
          else
            match Utf8Lossy.classify [b] with
            | .char _ => utf8 [Utf8Lossy.replacement] ++ b :: lossyFrom [] s
            | .incomplete => utf8 [Utf8Lossy.replacement] ++ lossyFrom [b] s
            | .invalid => utf8 [Utf8Lossy.replacement] ++ utf8 [Utf8Lossy.replacement] ++ lossyFrom [] s

/-- `to_string_lossy`. -/
def toStringLossy (name : Bytes) : Bytes := lossyFrom [] name

/-- `str::split` at a byte. -/
def splitAt (sep : UInt8) : Bytes → List Bytes
  | [] => [[]]
  | b :: s =>
      if b = sep then [] :: splitAt sep s
      else
        match splitAt sep s with
        | [] => [[b]]
        | part :: parts => (b :: part) :: parts

/-- `split_once('/')`. -/
def splitOnce : Bytes → Option (Bytes × Bytes)
  | [] => none
  | b :: s => if b = slash then some ([], s) else (splitOnce s).map fun p => (b :: p.1, p.2)

/-! ## Paths -/

def isAbsolute (path : Bytes) : Bool := path.head? == some slash

/-- The step of a component; an empty one and `.` lead nowhere. -/
def stepOf (component : Bytes) : Option (Step Bytes) :=
  if component = [] ∨ component = [dot] then none
  else if component = [dot, dot] then some .up
  else some (.down component)

def steps (path : Bytes) : List (Step Bytes) := (splitAt slash path).filterMap stepOf

/-- Where a path leads that is joined to a location. -/
def locate (base : List Bytes) (path : Bytes) : List Bytes := follow (if isAbsolute path then [] else base) (steps path)

/-! ## The file system -/

inductive Node where
  | file (content : Bytes)
  | dir (entries : List (Bytes × Node))

namespace Node

def child : Node → Bytes → Option Node
  | .file _, _ => none
  | .dir entries, name => entries.lookup name

def get? (root : Node) (loc : List Bytes) : Option Node := loc.foldlM child root

def isDir : Node → Bool
  | .file _ => false
  | .dir _ => true

/-- The node that steps lead to, each taken from a directory. -/
def reach (root : Node) (loc : List Bytes) : List (Step Bytes) → Option Node
  | [] => root.get? loc
  | s :: rest =>
      match root.get? loc with
      | some (.dir _) => reach root (s.leads loc) rest
      | _ => none

/-- The node at a path joined to a location. -/
def find? (root : Node) (base : List Bytes) (path : Bytes) : Option Node :=
  root.reach (if isAbsolute path then [] else base) (steps path)

end Node

/-! ## The `.gguf` files of a directory -/

def isGguf (name : Bytes) : Bool := (ascii ".gguf").isSuffixOf name && 5 < name.length

/-- The names that a `gguf.index` lists, when it can be read. -/
def listed (d : Node) : List Bytes :=
  match d.child (ascii "gguf.index") with
  | some (.file content) => if utf8 (lossy content) = content then (Hub.indexNames (lossy content)).map utf8 else []
  | _ => []

def entries : Node → List (Bytes × Node)
  | .file _ => []
  | .dir es => es

/-- All `.gguf` files, as paths below the directory: those the index lists, or else those in the directory. -/
def findGgufFiles (d : Node) : Option (List Bytes) :=
  if listed d ≠ [] then some (listed d)
  else
    let files := ((entries d).map (·.1)).filter isGguf
    if files = [] then none else some (files.mergeSort fun a b => !decide (b < a))

def findGgufFile (d : Node) : Option Bytes := (listed d).head?.or (((entries d).map (·.1)).find? isGguf)

/-- `file_name` of a path below a directory of a name. -/
def fileName (dirName path : Bytes) : Option Bytes :=
  match ((if isAbsolute path then [] else [Step.down dirName]) ++ steps path).getLast? with
  | some (.down name) => some name
  | _ => none

/-- What stands before the last dot, if anything does. -/
def fileStem (name : Bytes) : Bytes :=
  let ext := name.reverse.takeWhile (· ≠ dot)
  let stem := name.take (name.length - (ext.length + 1))
  if stem = [] then name else stem

def rawStem (dirName path : Bytes) : Bytes := toStringLossy (((fileName dirName path).map fileStem).getD [])

/-- `strip_gguf_split_suffix`. -/
def stripGgufSplitSuffix (stem : Bytes) : Option Bytes :=
  match (splitAt dash stem).reverse with
  | total :: word :: index :: _ =>
      if word = ascii "of" ∧ total.all (fun b => 0x30 ≤ b && b ≤ 0x39) ∧ index.all (fun b => 0x30 ≤ b && b ≤ 0x39) then
        let trim := 1 + total.length + 1 + word.length + 1 + index.length
        -- nothing stands before the number, not even a dash
        if stem.length < trim then none else some (stem.take (stem.length - trim))
      else some stem
  | _ => some stem

/-- `canonicalize_gguf_id`. -/
def canonicalizeGgufId (stem parentName : Bytes) : Bytes :=
  let dirName := (toStr parentName).getD []
  let low := toAsciiLowercase dirName
  let dirBase :=
    if (ascii "-gguf").isSuffixOf low || (ascii "_gguf").isSuffixOf low then dirName.take (dirName.length - 5)
    else dirName
  if dirBase ≠ [] ∧ (toAsciiLowercase dirBase).isPrefixOf (toAsciiLowercase stem) then
    dirBase ++ toAsciiUppercase (stem.drop dirBase.length)
  else stem

/-! ## Resolution -/

/-- A directory that holds a model. -/
def holdsModel (d : Node) : Bool := (d.child (ascii "config.json")).isSome || (findGgufFile d).isSome

/-- `read_dir`, the directories of it. -/
def subdirs (d : Node) : List (Bytes × Node) := (entries d).filter (·.2.isDir)

/-- The first that passes a test, which may panic. -/
def firstMatch {α : Type} (p : α → Option Bool) : List α → Option (Option α)
  | [] => some none
  | x :: xs => do if ← p x then pure (some x) else firstMatch p xs

/-- A file's stem, or the id made of it where these count, is the one wanted. -/
def stemMatches (canonical : Bool) (wanted dirName path : Bytes) : Option Bool := do
  let stem ← stripGgufSplitSuffix (rawStem dirName path)
  pure ((canonical && eqIgnoreAsciiCase (canonicalizeGgufId stem dirName) wanted) || eqIgnoreAsciiCase stem wanted)

/-- One of a directory's files is the one wanted. -/
def dirMatches (canonical : Bool) (wanted : Bytes) (e : Bytes × Node) : Option Bool :=
  match findGgufFiles e.2 with
  | none => some false
  | some paths => do
      let hit ← firstMatch (stemMatches canonical wanted e.1) paths
      pure hit.isSome

/-- The name of a directory, or nothing for one that is not UTF-8. -/
def lowName (name : Bytes) : Bytes := ((toStr name).map toAsciiLowercase).getD []

/-- One name begins with the other, and the directory holds a model. -/
def nameMatches (needle : Bytes) (e : Bytes × Node) : Bool :=
  ((needle.isPrefixOf (lowName e.1)) || (lowName e.1).isPrefixOf needle) && holdsModel e.2

/-- A match with a shorter name is better; one that is not UTF-8 is longer than all. -/
def shorter (needle : Bytes) (best : Option Bytes) (e : Bytes × Node) : Option Bytes :=
  if nameMatches needle e then
    match best with
    | none => some e.1
    | some b =>
        match toStr b with
        | none => some e.1
        | some s => if (lowName e.1).length < s.length then some e.1 else best
  else best

/-- The directory among those of a place that is looked for, by its files and then by its name. -/
def searchIn (d : Node) (canonical : Bool) (wanted : Bytes) : Option (Option Bytes) := do
  let hit ← firstMatch (dirMatches canonical wanted) (subdirs d)
  pure ((hit.map (·.1)).or ((subdirs d).foldl (shorter (toAsciiLowercase wanted)) none))

/-- `resolve_model_path`, the location of what it returns; `base` is that of `models_dir`. -/
def resolveModelPath (root : Node) (base : List Bytes) (id : Bytes) : Option (Option (List Bytes)) :=
  match (root.find? base id).filter fun d => d.isDir && holdsModel d with
  | some _ => some (some (locate base id))
  | none =>
      match splitOnce id with
      | some (namespace_, localId) =>
          match (root.find? base namespace_).filter (·.isDir) with
          | none => some none
          | some d => (searchIn d true localId).map (·.map fun name => locate base namespace_ ++ [name])
      | none =>
          match root.get? base with
          | none => some none
          | some d => (searchIn d false id).map (·.map fun name => base ++ [name])

end Oxydllm.Models
