/-
# Oxydllm.Models.Listing — the models of a directory (`discover_models`) and the files of one (`select_gguf_paths`).

An entry of the listing keeps the directory it comes from and the files its size counts. Of what the listing
tells of a model only its id and its size are kept. `serde_json` is a parameter.
-/
import Oxydllm.Gguf.Header
import Oxydllm.Lib.Grouping
import Oxydllm.Models.Loader

namespace Oxydllm.Models

open Hub (Bytes)

/-! ## Listing -/

structure Discovered where
  id : Bytes
  sizeBytes : Nat
  -- where it was found: a namespace or none, a directory, and the files of its variant
  ns : Option Bytes
  dirName : Bytes
  files : Option (List Bytes)

/-- The names of the directory, from the models directory on. -/
def Discovered.dir (m : Discovered) : List Bytes := m.ns.toList ++ [m.dirName]

def hasSafetensors (d : Node) : Bool :=
  (entries d).any fun e => (ascii ".safetensors").isSuffixOf (toAsciiLowercase e.1) && 12 < e.1.length

/-- The `.safetensors` files of a directory, together. -/
def safetensorsBytes (d : Node) : Nat :=
  ((entries d).map fun e =>
    match e.2 with
    | .file content => if (ascii ".safetensors").isSuffixOf e.1 && 12 < e.1.length then content.length else 0
    | .dir _ => 0).sum

/-- `discover_gguf_model` can read the file as GGUF; it takes the first dimension of the embedding. -/
def readsAsGguf : Option Node → Option Bool
  | some (.file content) =>
      match Gguf.parse content with
      | .error _ => some false
      | .ok h =>
          match h.content.tensorInfos.lookup "token_embd.weight".toList with
          | some info => if info.shape = [] then none else some true
          | none => some true
  | _ => some false

def fileBytes : Option Node → Nat
  | some (.file content) => content.length
  | _ => 0

/-- An id under its namespace. -/
def qualified (ns : Option Bytes) (localId : Bytes) : Bytes :=
  match ns with
  | some ns => toStringLossy ns ++ slash :: localId
  | none => localId

/-- The id of a file of a directory that goes by an id itself. -/
def effectiveId (ns : Option Bytes) (dirName path : Bytes) : Option Bytes := do
  let stem ← stripGgufSplitSuffix (rawStem dirName path)
  let localId := if stem = [] then qualified ns (toStringLossy dirName) else canonicalizeGgufId stem dirName
  pure (qualified ns localId)

section

variable (json : Bytes → Bool) (root : Node) (base : List Bytes)

/-- A variant is listed under an id that is not taken, when its first file can be read. -/
def addGroup (ns : Option Bytes) (dirName : Bytes) (models : List Discovered) (g : Bytes × List Bytes) :
    Option (List Discovered) :=
  if models.any (·.id == g.1) then some models
  else do
    let loc := base ++ (ns.toList ++ [dirName])
    let reads ← readsAsGguf (root.find? loc (g.2.headD []))
    let size := (g.2.map fun p => fileBytes (root.find? loc p)).sum
    pure (if reads then models ++ [⟨g.1, size, ns, dirName, some g.2⟩] else models)

/-- Appends the models of one directory, and says whether it is one of models. -/
def scanModelEntry (ns : Option Bytes) (e : Bytes × Node) (models : List Discovered) :
    Option (Bool × List Discovered) :=
  let gguf := findGgufFiles e.2
  if (e.2.child (ascii "config.json")).isSome ∧ (gguf = none ∨ hasSafetensors e.2) then
    match e.2.child (ascii "config.json") with
    | some (.file raw) =>
        if json raw then
          some (true, models ++
            [⟨qualified ns (toStringLossy e.1), safetensorsBytes e.2, ns, e.1, none⟩])
        else some (false, models)
    | _ => some (false, models)
  else
    match gguf with
    | none => some (false, models)
    | some paths => do
        let keyed ← paths.mapM fun p => (effectiveId ns e.1 p).map (p, ·)
        -- a hash map has the groups in any order; their ids differ, so each is added or not by what was there before
        let models ← (keyed.foldl (Grouping.push (· == ·)) []).foldlM (addGroup root base ns e.1) models
        pure (true, models)

/-- A directory that is none of models is a namespace. -/
def scanTop (models : List Discovered) (e : Bytes × Node) : Option (List Discovered) := do
  let (found, models) ← scanModelEntry json root base none e models
  if found then pure models
  else
    (subdirs e.2).foldlM (fun models child => do
      let (_, models) ← scanModelEntry json root base (some e.1) child models
      pure models) models

/-- Scans the models directory for loadable models, sorted without regard to case. -/
def discoverModels : Option (List Discovered) :=
  match root.get? base with
  | none => some []
  | some d => do
      let models ← (subdirs d).foldlM (scanTop json root base) []
      pure (models.mergeSort fun a b => !decide (toAsciiLowercase b.id < toAsciiLowercase a.id))

end

/-! ## Selection -/

/-- The ids that a stem can be asked for by. -/
def ggufMatchKeys (stem dirName : Bytes) : List Bytes :=
  let canonical := canonicalizeGgufId stem dirName
  if canonical = stem then [stem] else [canonical, stem]

def ggufModelIdKeys (id : Bytes) : List Bytes :=
  match splitOnce id with
  | some (_, localId) => [id, localId]
  | none => [id]

/-- The files of the variant asked for; a directory with one variant has it for any id. Files are of one
variant when their stems are the same but for case, and it goes by the stem of the first. -/
def selectGgufPaths (dirName id : Bytes) (all : List Bytes) : Option (Option (List Bytes)) := do
  let stems ← all.mapM fun p => (stripGgufSplitSuffix (rawStem dirName p)).map (p, ·)
  let groups := stems.foldl (Grouping.push eqIgnoreAsciiCase) []
  let matched := groups.find? fun g =>
    (ggufModelIdKeys id).any fun needle => (ggufMatchKeys g.1 dirName).any fun key => eqIgnoreAsciiCase key needle
  pure (match matched, groups with
    | some g, _ => some g.2
    | none, [g] => some g.2
    | none, _ => none)

end Oxydllm.Models
