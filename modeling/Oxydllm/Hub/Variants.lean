/-
# Oxydllm.Hub.Variants — the GGUF variants of a repository, and their labels.

The files of a repository that share the model's name are put together by their stems, a split suffix taken off, and
each group is labelled with the quantization in its stem. A name is its characters. What upper and lower case are beyond
ASCII is left open (`Casing`); `none` is the panic of a text sliced out of its bounds.
-/
import Oxydllm.Lib.Grouping

namespace Oxydllm.Hub.Variants

/-- The characters of a file name, a stem or a label. -/
abbrev Name := List Char

/-- A file of the repository and its size. -/
abbrev RepoFile := Name × Nat

/-- `str::to_uppercase` and `str::to_lowercase`. -/
structure Casing where
  toUppercase : Name → Name
  toLowercase : Name → Name

/-! ## Texts -/

def toAsciiLowercase (s : Name) : Name := s.map Char.toLower

def eqIgnoreAsciiCase (a b : Name) : Bool := toAsciiLowercase a == toAsciiLowercase b

def stripSuffix (suffix s : Name) : Option Name :=
  if suffix.isSuffixOf s then some (s.take (s.length - suffix.length)) else none

def stripPrefix (pre s : Name) : Option Name := if pre.isPrefixOf s then some (s.drop pre.length) else none

def gguf : Name := ".gguf".toList

/-- The index of the last element that has `p`. -/
def rposition {α : Type} (p : α → Bool) : List α → Option Nat
  | [] => none
  | x :: xs => (rposition p xs).elim (if p x then some 0 else none) fun i => some (i + 1)

/-! ## Labels -/

section Labels

variable (casing : Casing)

/-- Whether a filename segment names a floating-point precision. -/
def isPrecisionSegment (seg : Name) : Bool :=
  ["FP16".toList, "FP32".toList, "F16".toList, "F32".toList, "BF16".toList].contains (casing.toUppercase seg)

/-- Whether a filename segment opens like a quantization label. -/
def isQuantSegment (seg : Name) : Bool :=
  let u := casing.toUppercase seg
  if ["BF16".toList, "F16".toList, "F32".toList].contains u then true
  else
    match (stripPrefix "IQ".toList u <|> stripPrefix "Q".toList u).getD [] with
    | [] => false
    | c :: chars => c.isDigit && chars.all fun c => c.isAlphanum || c == '_'

/-- The segments of the name; a directory is cut off only with the ending. -/
def segmentsOf (filename : Name) : List Name :=
  ((stripSuffix gguf ((filename.splitOn '/').getLastD [])).getD filename).splitOnP fun c => c == '-' || c == '.'

/-- `segments[start..]` as far as it is the label. -/
def labelFrom (segments : List Name) (start : Nat) : List Name :=
  (segments.drop start).takeWhile fun seg => isQuantSegment casing seg || isPrecisionSegment casing seg

def extractQuantFromFilename (filename : Name) : Option Name := do
  let segments := segmentsOf filename
  let start ← rposition (fun seg => isQuantSegment casing seg && !isPrecisionSegment casing seg) segments <|>
    rposition (isQuantSegment casing) segments
  some (['-'].intercalate ((labelFrom casing segments start).map casing.toUppercase))

end Labels

/-! ## Groups -/

def stripSplitSuffix (stem : Name) : Option Name :=
  match (stem.splitOn '-').reverse with
  | total :: word :: index :: _ =>
      if word = "of".toList ∧ total.all Char.isDigit ∧ index.all Char.isDigit then
        let trim := 1 + total.length + 1 + word.length + 1 + index.length
        -- nothing stands before the number, not even a dash
        if stem.length < trim then none else some (stem.take (stem.length - trim))
      else some stem
  | _ => some stem

/-- The name without its ending. -/
def stemOf (name : Name) : Name := (stripSuffix gguf name).getD name

/-- One more of a leading name. -/
def count : List (Name × Nat) → Name → List (Name × Nat)
  | [], l => [(l, 1)]
  | c :: counts, l => if c.1 = l then (c.1, c.2 + 1) :: counts else c :: count counts l

/-- `max_by_key`: the last one of the highest counts. -/
def maxByCount (counts : List (Name × Nat)) : Option (Name × Nat) :=
  counts.foldl (fun best c => match best with
    | none => some c
    | some b => if b.2 ≤ c.2 then some c else some b) none

structure GgufVariant where
  quantName : Name
  files : List RepoFile
  deriving DecidableEq

section Groups

variable (casing : Casing)

/-- The leading name of a file. -/
def lead (name : Name) : Name :=
  casing.toLowercase ((((name.splitOn '/').getLastD []).splitOn '-').headD [])

def labelled (f : RepoFile) : Bool := (extractQuantFromFilename casing f.1).isSome

/-- Drops GGUF files that are not variants of the repository's model. -/
def keepModelVariants (files : List RepoFile) : List RepoFile :=
  match maxByCount (files.foldl (fun counts f => count counts (lead casing f.1)) []) with
  | none => files
  | some (dominant, _) =>
      let sameFamily := files.filter fun f => lead casing f.1 == dominant
      if sameFamily.any (labelled casing) then sameFamily.filter (labelled casing) else sameFamily

def groupGgufVariants (ggufFiles : List RepoFile) : Option (List GgufVariant) := do
  let keyed ← (keepModelVariants casing ggufFiles).mapM fun f => (stripSplitSuffix (stemOf f.1)).map (f, ·)
  let groups := keyed.foldl (Grouping.push fun k k' => k == k') []
  some (groups.map fun g => {
    quantName := (extractQuantFromFilename casing g.1).getD g.1
    files := g.2.mergeSort fun f f' => !decide (f'.1 < f.1) })

end Groups

/-! ## The choice of one -/

inductive SelectError where
  | notFound (preferred : Name) (available : List Name)
  | allDownloaded
  deriving DecidableEq

/-- What `anyhow!` says of it. -/
def SelectError.message : SelectError → Name
  | .notFound preferred available => "Variant '".toList ++ preferred ++ "' not found in this repo. Available: ".toList ++
      ", ".toList.intercalate available
  | .allDownloaded => "All variants of this model are already downloaded. Use --force to re-download.".toList

/-- The variants that are offered. -/
def availableOf (variants : List GgufVariant) (alreadyPresent : List Name) : List GgufVariant :=
  variants.filter fun v => !alreadyPresent.contains v.quantName

/-- `choose` is what the reader of the menu takes of the variants it offers. -/
def selectVariant (variants : List GgufVariant) (preferred : Option Name) (alreadyPresent : List Name)
    (choose : List GgufVariant → GgufVariant) : Except SelectError GgufVariant :=
  match preferred with
  | some pref =>
      match variants.find? fun v => eqIgnoreAsciiCase v.quantName pref with
      | some v => .ok v
      | none => .error (.notFound pref (variants.map (·.quantName)))
  | none =>
      match variants with
      | [v] => .ok v
      | _ =>
          if availableOf variants alreadyPresent = [] then .error .allDownloaded
          else .ok (choose (availableOf variants alreadyPresent))

/-- All of the variant is in the directory; `disk` is the length of a file there. -/
def onDisk (disk : Name → Option Nat) (v : GgufVariant) : Bool :=
  v.files.all fun (name, expectedSize) => (disk name).any fun len => expectedSize == 0 || expectedSize ≤ len

/-- The labels of `already_present` in `pull`. -/
def alreadyPresent (destExists force : Bool) (disk : Name → Option Nat) (variants : List GgufVariant) : List Name :=
  if destExists && !force then
    ((variants.filter fun v => v.quantName != "Safetensors".toList).filter (onDisk disk)).map (·.quantName)
  else []

end Oxydllm.Hub.Variants
