/-
# Oxydllm.Constrain.Shape — `validate_schema_shape`, the check every requested schema passes.

The check walks the schema and follows its references, at most 64 levels deep; the fuel of
`validateSchemaShapeInner` counts the levels still allowed. Error texts are the bytes of the source's
messages, the path of the keyword first.
-/
import Oxydllm.Constrain.Schema

namespace Oxydllm.Constrain

open JsonText SchemaArena

/-- How strictly a requested schema is checked. -/
inductive SchemaStrictness where
  | bestEffort
  | strict
deriving DecidableEq

/-! ## JSON pointers -/

/-- Every occurrence of the two bytes replaced by one. -/
def replacePair (a b c : UInt8) : List UInt8 → List UInt8
  | x :: y :: w => if x = a ∧ y = b then c :: replacePair a b c w else x :: replacePair a b c (y :: w)
  | w => w

/-- `parse_index`: a decimal without sign or leading zero. -/
def parseIndex (s : List UInt8) : Option Nat :=
  if s.isEmpty || (s.head? == some 0x30 && s.length != 1) then none
  else if s.all fun b => 0x30 ≤ b && b ≤ 0x39 then some (digitsValue s) else none

/-- One token of a pointer. -/
def pointerStep (target : Json) (token : List UInt8) : Option Json :=
  match target with
  | .obj ms => Json.get? ms token
  | .arr xs => (parseIndex token).bind (xs[·]?)
  | _ => none

/-- `Value::pointer`. -/
def pointer (j : Json) (p : List UInt8) : Option Json :=
  match p with
  | [] => some j
  | b :: _ =>
      if b = 0x2F then
        ((p.splitOn 0x2F).drop 1).foldlM
          (fun target token => pointerStep target
            (replacePair 0x7E 0x30 0x7E (replacePair 0x7E 0x31 0x2F token))) j
      else none

/-- `resolve_schema_ref`: a `$ref` into the document. -/
def resolveSchemaRef (schema root : Json) : Option Json :=
  ((field schema (bytesOf "$ref")).bind asStr).bind fun r =>
    if r = bytesOf "#" then some root
    else (stripPrefix (bytesOf "#") r).bind (pointer root)

/-! ## The keywords -/

/-- A check that passes or reports the first violation. -/
abbrev Check := Except (List UInt8) Unit

def validType (name : List UInt8) : Bool :=
  ["object", "array", "string", "number", "integer", "boolean", "null"].any (bytesOf · == name)

def unsupportedType (path name : List UInt8) : Check :=
  .error (path ++ bytesOf ".type contains unsupported type '" ++ name ++ bytesOf "'")

/-- `validate_schema_type_keyword`. -/
def validateSchemaTypeKeyword (ty : Json) (path : List UInt8) : Check :=
  match ty with
  | .str name => if validType name then .ok () else unsupportedType path name
  | .arr (x :: xs) => (x :: xs).forM fun item =>
      match asStr item with
      | none => .error (path ++ bytesOf ".type entries must be strings")
      | some name => if validType name then .ok () else unsupportedType path name
  | _ => .error (path ++ bytesOf ".type must be a string or non-empty array of strings")

/-- `is_object_schema`. -/
def isObjectSchema (obj : List (List UInt8 × Json)) : Bool :=
  let has (key : String) : Bool := (Json.get? obj (bytesOf key)).isSome
  match Json.get? obj (bytesOf "type") with
  | some (.str t) => t == bytesOf "object"
  | some (.arr xs) => xs.any fun v => asStr v == some (bytesOf "object")
  | _ => has "properties" || has "required" || has "additionalProperties"

def validateRequired (required : Json) (path : List UInt8) : Check :=
  match asArray required with
  | none => .error (path ++ bytesOf ".required must be an array")
  | some xs => xs.forM fun item =>
      if (asStr item).isNone then .error (path ++ bytesOf ".required entries must be strings")
      else .ok ()

def validateEnum (values : Json) (path : List UInt8) : Check :=
  match asArray values with
  | none => .error (path ++ bytesOf ".enum must be an array")
  | some [] => .error (path ++ bytesOf ".enum must not be empty")
  | some (_ :: _) => .ok ()

/-- The decimal digits of an index in a path. -/
def indexBytes (i : Nat) : List UInt8 := bytesOf (toString i)

/-- The branches of `anyOf`, `validate` being the check of one sub-schema under its path. -/
def validateAnyOf (validate : Json → List UInt8 → Check) (anyOf : Json) (path : List UInt8) : Check :=
  match asArray anyOf with
  | none => .error (path ++ bytesOf ".anyOf must be an array")
  | some [] => .error (path ++ bytesOf ".anyOf must not be empty")
  | some xs => xs.zipIdx.forM fun branch =>
      validate branch.1 (path ++ bytesOf ".anyOf[" ++ indexBytes branch.2 ++ bytesOf "]")

/-- A table of sub-schemas under the keyword `key`. -/
def validateMembers (validate : Json → List UInt8 → Check) (key : String) (table : Json)
    (path : List UInt8) : Check :=
  match asObject table with
  | none => .error (path ++ bytesOf "." ++ bytesOf key ++ bytesOf " must be an object")
  | some ms => ms.forM fun m => validate m.2 (path ++ bytesOf "." ++ bytesOf key ++ bytesOf "." ++ m.1)

def validateAdditional (validate : Json → List UInt8 → Check) (additional : Json)
    (path : List UInt8) : Check :=
  match additional with
  | .bool _ => .ok ()
  | .obj _ => validate additional (path ++ bytesOf ".additionalProperties")
  | _ => .error (path ++ bytesOf ".additionalProperties must be a boolean or schema object")

/-- The strict-mode rules of an object schema. -/
def validateStrict (obj : List (List UInt8 × Json)) (path : List UInt8) : Check :=
  match Json.get? obj (bytesOf "additionalProperties") with
  | some (.bool false) =>
      match (Json.get? obj (bytesOf "required")).bind asArray with
      | none => .error (path ++ bytesOf ".required is required in strict mode")
      | some required =>
          let props := ((Json.get? obj (bytesOf "properties")).bind asObject).getD []
          props.forM fun m =>
            if (required.filterMap asStr).contains m.1 then .ok ()
            else .error (path ++ bytesOf ".required must include property '" ++ m.1 ++
              bytesOf "' in strict mode")
  | _ => .error (path ++ bytesOf " must set additionalProperties to false in strict mode")

/-- The check of a keyword that is present. -/
def onKey (obj : List (List UInt8 × Json)) (key : String) (check : Json → Check) : Check :=
  match Json.get? obj (bytesOf key) with
  | none => .ok ()
  | some v => check v

/-- `validate_schema_shape_inner` at depth `65 - fuel`. -/
def validateSchemaShapeInner (root : Json) (strictness : SchemaStrictness) :
    Nat → Json → List UInt8 → Check
  | 0, _, _ => .error (bytesOf "schema is too deeply nested")
  | fuel + 1, schema, path =>
      match resolveSchemaRef schema root with
      | some resolved => validateSchemaShapeInner root strictness fuel resolved path
      | none =>
          match asObject schema with
          | none => .error (path ++ bytesOf " must be a JSON object")
          | some obj => do
              let validate := validateSchemaShapeInner root strictness fuel
              onKey obj "type" (validateSchemaTypeKeyword · path)
              onKey obj "required" (validateRequired · path)
              onKey obj "enum" (validateEnum · path)
              onKey obj "anyOf" (validateAnyOf validate · path)
              onKey obj "properties" (validateMembers validate "properties" · path)
              onKey obj "items" (validate · (path ++ bytesOf ".items"))
              onKey obj "additionalProperties" (validateAdditional validate · path)
              onKey obj "$defs" (validateMembers validate "$defs" · path)
              if strictness = .strict && isObjectSchema obj then validateStrict obj path else .ok ()

def validateSchemaShape (schema : Json) (strictness : SchemaStrictness) (path : List UInt8) : Check :=
  validateSchemaShapeInner schema strictness 65 schema path

end Oxydllm.Constrain
