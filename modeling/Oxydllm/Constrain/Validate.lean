/-
# Oxydllm.Constrain.Validate — `validate_against_schema`, the check of a finished answer.

`Valid` is what JSON Schema says of a document under the documented keywords, a `$ref` standing for what it
refers to. The check follows the schema with its fuel; a schema that passed `validate_schema_shape` never
uses it up, as its references and nesting end within the same 64 levels.

It departs from `Valid` in three places: a reference is followed once, `additionalProperties: false` says
nothing without `properties`, and an integer is a number stored as one.
-/
import Oxydllm.Constrain.Shape

namespace Oxydllm.Constrain

open JsonText SchemaArena

-- `serde_json`'s equality of numbers
variable (numEq : Number → Number → Bool)

/-! ## Equality of values -/

mutual

/-- `Value::eq`: objects are equal as maps. -/
def valueEq : Json → Json → Bool
  | .null, .null => true
  | .bool a, .bool b => a == b
  | .num a, .num b => numEq a b
  | .str a, .str b => a == b
  | .arr xs, .arr ys => valuesEq xs ys
  | .obj ms, .obj ns => ms.length == ns.length && membersEq ms ns
  | _, _ => false

def valuesEq : List Json → List Json → Bool
  | [], [] => true
  | x :: xs, y :: ys => valueEq x y && valuesEq xs ys
  | _, _ => false

def membersEq : List (List UInt8 × Json) → List (List UInt8 × Json) → Bool
  | [], _ => true
  | (k, v) :: ms, ns =>
      (match Json.get? ns k with
        | some w => valueEq v w
        | none => false) && membersEq ms ns

end

/-! ## The check -/

/-- `as_i64` or `as_u64`: a number that was read as an integer of 64 bits. -/
def isI64OrU64 (n : Number) : Bool :=
  n.isIntegral &&
    if n.neg then 0 < digitsValue n.int.print && digitsValue n.int.print ≤ 2 ^ 63
    else digitsValue n.int.print < 2 ^ 64

/-- `matches_json_type`. -/
def matchesJsonType (value : Json) (ty : List UInt8) : Bool :=
  if ty = bytesOf "object" then (asObject value).isSome
  else if ty = bytesOf "array" then (asArray value).isSome
  else if ty = bytesOf "string" then (asStr value).isSome
  else if ty = bytesOf "number" then match value with
    | .num _ => true
    | _ => false
  else if ty = bytesOf "integer" then match value with
    | .num n => isI64OrU64 n
    | _ => false
  else if ty = bytesOf "boolean" then match value with
    | .bool _ => true
    | _ => false
  else if ty = bytesOf "null" then match value with
    | .null => true
    | _ => false
  else true

/-- `is_array_schema`. -/
def isArraySchema (obj : List (List UInt8 × Json)) : Bool :=
  match Json.get? obj (bytesOf "type") with
  | some (.str t) => t == bytesOf "array"
  | some (.arr xs) => xs.any fun v => asStr v == some (bytesOf "array")
  | _ => (Json.get? obj (bytesOf "items")).isSome

/-- A keyword of the schema object that is an array. -/
def listKey (obj : List (List UInt8 × Json)) (key : String) : Option (List Json) :=
  (Json.get? obj (bytesOf key)).bind asArray

/-- The declared properties. -/
def propsOf (obj : List (List UInt8 × Json)) : Option (List (List UInt8 × Json)) :=
  (Json.get? obj (bytesOf "properties")).bind asObject

def anyOfOk (validate : Json → Json → Bool) (obj : List (List UInt8 × Json)) (value : Json) : Bool :=
  match listKey obj "anyOf" with
  | some branches => branches.any (validate value)
  | none => true

def constOk (obj : List (List UInt8 × Json)) (value : Json) : Bool :=
  match Json.get? obj (bytesOf "const") with
  | some c => valueEq numEq c value
  | none => true

def enumOk (obj : List (List UInt8 × Json)) (value : Json) : Bool :=
  match listKey obj "enum" with
  | some values => values.any fun v => valueEq numEq v value
  | none => true

def typeOk (obj : List (List UInt8 × Json)) (value : Json) : Bool :=
  match Json.get? obj (bytesOf "type") with
  | none => true
  | some (.str name) => matchesJsonType value name
  | some (.arr names) => (names.filterMap asStr).any (matchesJsonType value)
  | some _ => false

def requiredOk (obj ms : List (List UInt8 × Json)) : Bool :=
  match listKey obj "required" with
  | some names => (names.filterMap asStr).all fun name => (Json.get? ms name).isSome
  | none => true

def additionalOk (validate : Json → Json → Bool) (obj ms : List (List UInt8 × Json)) : Bool :=
  match Json.get? obj (bytesOf "additionalProperties") with
  | some (.bool false) =>
      match propsOf obj with
      | some props => ms.all fun m => (Json.get? props m.1).isSome
      | none => true
  | some (.obj extra) =>
      ms.all fun m => ((propsOf obj).any fun props => (Json.get? props m.1).isSome) ||
        validate m.2 (.obj extra)
  | _ => true

def propertiesOk (validate : Json → Json → Bool) (obj ms : List (List UInt8 × Json)) : Bool :=
  match propsOf obj with
  | some props => props.all fun p =>
      match Json.get? ms p.1 with
      | some v => validate v p.2
      | none => true
  | none => true

def itemsOk (validate : Json → Json → Bool) (obj : List (List UInt8 × Json)) (value : Json) : Bool :=
  !isArraySchema obj ||
    match Json.get? obj (bytesOf "items"), value with
    | some items, .arr xs => xs.all fun x => validate x items
    | _, _ => true

/-- The keywords that look into an object. -/
def membersOk (validate : Json → Json → Bool) (obj : List (List UInt8 × Json)) (value : Json) : Bool :=
  match value with
  | .obj ms => requiredOk obj ms && additionalOk validate obj ms && propertiesOk validate obj ms
  | _ => true

/-- `validate_against_schema_inner` at depth `65 - fuel`. -/
def validateAgainstSchemaInner (root : Json) : Nat → Json → Json → Bool
  | 0, _, _ => false
  | fuel + 1, value, schema =>
      match asObject ((resolveSchemaRef schema root).getD schema) with
      | none => false
      | some obj =>
          let validate := validateAgainstSchemaInner root fuel
          anyOfOk validate obj value && constOk numEq obj value && enumOk numEq obj value &&
            typeOk obj value && membersOk validate obj value && itemsOk validate obj value

def validateAgainstSchema (value schema : Json) : Bool :=
  validateAgainstSchemaInner numEq schema 65 value schema

/-! ## What JSON Schema says -/

/-- The types a `type` keyword names. -/
def typeNames : Json → List (List UInt8)
  | .str name => [name]
  | .arr names => names.filterMap asStr
  | _ => []

/-- An integer is a number without fractional part, however it is spelled. -/
inductive HasType : Json → List UInt8 → Prop
  | object (ms : List (List UInt8 × Json)) : HasType (.obj ms) (bytesOf "object")
  | array (xs : List Json) : HasType (.arr xs) (bytesOf "array")
  | string (s : List UInt8) : HasType (.str s) (bytesOf "string")
  | number (n : Number) : HasType (.num n) (bytesOf "number")
  | integer (n : Number) (z : ℤ) (h : n.value = z) : HasType (.num n) (bytesOf "integer")
  | boolean (b : Bool) : HasType (.bool b) (bytesOf "boolean")
  | null : HasType .null (bytesOf "null")

/-- The document `value` is valid under a schema of the document `root`. -/
inductive Valid (root : Json) : Json → Json → Prop
  | ref {schema target value : Json} (href : resolveSchemaRef schema root = some target)
      (h : Valid root target value) : Valid root schema value
  | keywords {obj : List (List UInt8 × Json)} {value branch : Json}
      (href : resolveSchemaRef (.obj obj) root = none)
      (hbranch : ∀ branches, listKey obj "anyOf" = some branches → branch ∈ branches)
      (hanyOf : ∀ branches, listKey obj "anyOf" = some branches → Valid root branch value)
      (hconst : ∀ c, Json.get? obj (bytesOf "const") = some c → valueEq numEq c value = true)
      (henum : ∀ values, listKey obj "enum" = some values → ∃ v ∈ values, valueEq numEq v value = true)
      (htype : ∀ ty, Json.get? obj (bytesOf "type") = some ty → ∃ name ∈ typeNames ty, HasType value name)
      (hrequired : ∀ names ms, listKey obj "required" = some names → value = .obj ms →
        ∀ name, Json.str name ∈ names → (Json.get? ms name).isSome)
      (hproperties : ∀ props ms, propsOf obj = some props → value = .obj ms →
        ∀ p ∈ props, ∀ v, Json.get? ms p.1 = some v → Valid root p.2 v)
      (hclosed : ∀ ms, Json.get? obj (bytesOf "additionalProperties") = some (.bool false) →
        value = .obj ms → ∀ m ∈ ms, ∃ props, propsOf obj = some props ∧ (Json.get? props m.1).isSome)
      (hadditional : ∀ extra ms, Json.get? obj (bytesOf "additionalProperties") = some (.obj extra) →
        value = .obj ms → ∀ m ∈ ms, (∀ props, propsOf obj = some props → Json.get? props m.1 = none) →
          Valid root (.obj extra) m.2)
      (hitems : ∀ items xs, Json.get? obj (bytesOf "items") = some items → value = .arr xs →
        ∀ x ∈ xs, Valid root items x) :
      Valid root (.obj obj) value

/-! ## Where the two part -/

/-- What a schema is once a reference is followed, once. -/
def followed (root schema : Json) : Json := (resolveSchemaRef schema root).getD schema

/-- The pairs of schema and value a check goes on to from one such pair. -/
inductive Visits (root : Json) : Json × Json → Json × Json → Prop
  | anyOf {schema value : Json} {obj : List (List UInt8 × Json)} {branches : List Json} {branch : Json}
      (hobj : followed root schema = .obj obj) (hkey : listKey obj "anyOf" = some branches)
      (hmem : branch ∈ branches) : Visits root (schema, value) (branch, value)
  | property {schema : Json} {obj props ms : List (List UInt8 × Json)} {p : List UInt8 × Json} {v : Json}
      (hobj : followed root schema = .obj obj) (hkey : propsOf obj = some props) (hmem : p ∈ props)
      (hv : Json.get? ms p.1 = some v) : Visits root (schema, .obj ms) (p.2, v)
  | additional {schema : Json} {obj extra ms : List (List UInt8 × Json)} {m : List UInt8 × Json}
      (hobj : followed root schema = .obj obj)
      (hkey : Json.get? obj (bytesOf "additionalProperties") = some (.obj extra)) (hmem : m ∈ ms)
      (hnew : ∀ props, propsOf obj = some props → Json.get? props m.1 = none) :
      Visits root (schema, .obj ms) (.obj extra, m.2)
  | item {schema items x : Json} {obj : List (List UInt8 × Json)} {xs : List Json}
      (hobj : followed root schema = .obj obj) (hkey : Json.get? obj (bytesOf "items") = some items)
      (hmem : x ∈ xs) : Visits root (schema, .arr xs) (items, x)

/-- None of the three departures at a pair: no reference to a reference, no member to refuse where no
property is declared, and no integer of the schema that was read as a float. -/
structure NoSlip (root schema value : Json) : Prop where
  once : resolveSchemaRef (followed root schema) root = none
  closed : ∀ obj ms, followed root schema = .obj obj → value = .obj ms →
    Json.get? obj (bytesOf "additionalProperties") = some (.bool false) → propsOf obj = none → ms = []
  integer : ∀ obj ty n, followed root schema = .obj obj → Json.get? obj (bytesOf "type") = some ty →
    bytesOf "integer" ∈ typeNames ty → value = .num n → (isI64OrU64 n = true ↔ ∃ z : ℤ, n.value = z)

/-- No pair a check can come to has one of the departures. -/
def Plain (root schema value : Json) : Prop :=
  ∀ s v, Relation.ReflTransGen (Visits root) (schema, value) (s, v) → NoSlip root s v

theorem Plain.visit {root schema value schema' value' : Json} (h : Plain root schema value)
    (hv : Visits root (schema, value) (schema', value')) : Plain root schema' value' :=
  fun s v hs => h s v (.head hv hs)

/-! ## What the shape check has seen -/

/-- A schema accepted with `n` levels to go. -/
def Accepted (root : Json) (strictness : SchemaStrictness) (n : Nat) (schema : Json) : Prop :=
  ∃ path, validateSchemaShapeInner root strictness n schema path = .ok ()

/-- The keywords of an accepted schema object, with the sub-schemas accepted a level further down. -/
structure Shaped (accepted : Json → Prop) (obj : List (List UInt8 × Json)) : Prop where
  type : ∀ ty, Json.get? obj (bytesOf "type") = some ty → (∃ name, ty = .str name) ∨ ∃ xs, ty = .arr xs
  names : ∀ ty, Json.get? obj (bytesOf "type") = some ty → ∀ name ∈ typeNames ty, validType name = true
  anyOf : ∀ branches, listKey obj "anyOf" = some branches → ∀ branch ∈ branches, accepted branch
  properties : ∀ props, propsOf obj = some props → ∀ p ∈ props, accepted p.2
  items : ∀ items, Json.get? obj (bytesOf "items") = some items → accepted items
  additional : ∀ extra, Json.get? obj (bytesOf "additionalProperties") = some (.obj extra) →
    accepted (.obj extra)

theorem then_ok {a b : Check} (h : (a >>= fun _ => b) = .ok ()) : a = .ok () ∧ b = .ok () := by
  cases a with
  | error e => cases h
  | ok u => exact ⟨rfl, h⟩

theorem forM_of_ok {α : Type} {f : α → Check} {xs : List α} (h : xs.forM f = .ok ()) :
    ∀ x ∈ xs, f x = .ok () := by
  induction xs with
  | nil => exact List.forall_mem_nil _
  | cons x xs ih =>
      obtain ⟨h1, h2⟩ := then_ok (a := f x) (b := xs.forM f) h
      exact List.forall_mem_cons.2 ⟨h1, ih h2⟩

theorem onKey_ok {obj : List (List UInt8 × Json)} {key : String} {check : Json → Check}
    (h : onKey obj key check = .ok ()) {v : Json} (hv : Json.get? obj (bytesOf key) = some v) :
    check v = .ok () := by
  unfold onKey at h
  rwa [hv] at h

theorem typeKeyword_ok {ty : Json} {path : List UInt8} (h : validateSchemaTypeKeyword ty path = .ok ()) :
    ((∃ name, ty = .str name) ∨ ∃ xs, ty = .arr xs) ∧ ∀ name ∈ typeNames ty, validType name = true := by
  unfold validateSchemaTypeKeyword at h
  split at h
  next name =>
    refine ⟨.inl ⟨name, rfl⟩, fun n hn => ?_⟩
    rw [List.mem_singleton.1 hn]
    by_contra hnot
    rw [if_neg hnot] at h
    cases h
  next x xs =>
    refine ⟨.inr ⟨_, rfl⟩, fun n hn => ?_⟩
    obtain ⟨item, hitem, hstr⟩ := List.mem_filterMap.1 hn
    have hok := forM_of_ok h item hitem
    rw [hstr] at hok
    by_contra hnot
    simp only [if_neg hnot] at hok
    cases hok
  · cases h

theorem members_ok {validate : Json → List UInt8 → Check} {key : String} {table : Json}
    {path : List UInt8} (h : validateMembers validate key table path = .ok ()) :
    ∀ ms, asObject table = some ms → ∀ m ∈ ms, ∃ path, validate m.2 path = .ok () := by
  intro ms hms m hm
  unfold validateMembers at h
  rw [hms] at h
  exact ⟨_, forM_of_ok h m hm⟩

theorem anyOf_ok {validate : Json → List UInt8 → Check} {anyOf : Json} {path : List UInt8}
    (h : validateAnyOf validate anyOf path = .ok ()) :
    ∀ branches, asArray anyOf = some branches → ∀ branch ∈ branches, ∃ path, validate branch path = .ok () := by
  intro branches hbranches branch hmem
  unfold validateAnyOf at h
  rw [hbranches] at h
  cases branches with
  | nil => cases hmem
  | cons b bs =>
      obtain ⟨i, hi⟩ := List.mem_iff_getElem?.1 hmem
      exact ⟨_, forM_of_ok h (branch, i) (List.mk_mem_zipIdx_iff_getElem?.2 hi)⟩

/-- An accepted schema is a reference to an accepted schema, or an object whose keywords are in shape. -/
theorem accepted_cases {root : Json} {strictness : SchemaStrictness} {n : Nat} {schema : Json}
    (h : Accepted root strictness (n + 1) schema) :
    (∃ target, resolveSchemaRef schema root = some target ∧ Accepted root strictness n target) ∨
      resolveSchemaRef schema root = none ∧
        ∃ obj, schema = .obj obj ∧ Shaped (Accepted root strictness n) obj := by
  obtain ⟨path, h⟩ := h
  unfold validateSchemaShapeInner at h
  cases href : resolveSchemaRef schema root with
  | some target =>
      simp only [href] at h
      exact .inl ⟨target, rfl, path, h⟩
  | none =>
      simp only [href] at h
      cases schema with
      | obj obj =>
          obtain ⟨htype, h⟩ := then_ok h
          obtain ⟨-, h⟩ := then_ok h
          obtain ⟨-, h⟩ := then_ok h
          obtain ⟨hanyOf, h⟩ := then_ok h
          obtain ⟨hprops, h⟩ := then_ok h
          obtain ⟨hitems, h⟩ := then_ok h
          obtain ⟨hadditional, -⟩ := then_ok h
          refine .inr ⟨rfl, obj, rfl, ?_, ?_, ?_, ?_, ?_, ?_⟩
          · exact fun ty hty => (typeKeyword_ok (onKey_ok htype hty)).1
          · exact fun ty hty => (typeKeyword_ok (onKey_ok htype hty)).2
          · intro branches hkey
            obtain ⟨a, ha, harr⟩ := Option.bind_eq_some_iff.1 hkey
            exact anyOf_ok (onKey_ok hanyOf ha) branches harr
          · intro props hkey
            obtain ⟨a, ha, hobj⟩ := Option.bind_eq_some_iff.1 hkey
            exact members_ok (onKey_ok hprops ha) props hobj
          · exact fun items hkey => ⟨_, onKey_ok hitems hkey⟩
          · exact fun extra hkey => ⟨_, onKey_ok hadditional hkey⟩
      | _ => cases h

/-! ## The keywords one by one -/

theorem validType_cases {name : List UInt8} (h : validType name = true) :
    name = bytesOf "object" ∨ name = bytesOf "array" ∨ name = bytesOf "string" ∨ name = bytesOf "number" ∨
      name = bytesOf "integer" ∨ name = bytesOf "boolean" ∨ name = bytesOf "null" := by
  unfold validType at h
  obtain ⟨s, hs, heq⟩ := List.any_eq_true.1 h
  rw [← (beq_iff_eq.1 heq)]
  simp only [List.mem_cons, List.not_mem_nil, or_false] at hs
  rcases hs with rfl | rfl | rfl | rfl | rfl | rfl | rfl <;> simp

/-- A known type name is matched by the values of that type. -/
theorem matchesJsonType_iff {value : Json} {name : List UInt8} (hname : validType name = true)
    (hint : name = bytesOf "integer" → ∀ n, value = .num n →
      (isI64OrU64 n = true ↔ ∃ z : ℤ, n.value = z)) :
    matchesJsonType value name = true ↔ HasType value name := by
  constructor
  · intro h
    rcases validType_cases hname with rfl | rfl | rfl | rfl | rfl | rfl | rfl
    · cases value with
      | obj ms => exact .object ms
      | _ => cases h
    · cases value with
      | arr xs => exact .array xs
      | _ => cases h
    · cases value with
      | str s => exact .string s
      | _ => cases h
    · cases value with
      | num n => exact .number n
      | _ => cases h
    · cases value with
      | num n =>
          obtain ⟨z, hz⟩ := (hint rfl n rfl).1 h
          exact .integer n z hz
      | _ => cases h
    · cases value with
      | bool b => exact .boolean b
      | _ => cases h
    · cases value with
      | null => exact .null
      | _ => cases h
  · intro h
    generalize hn : name = name' at h
    cases h with
    | object ms => subst hn; rfl
    | array xs => subst hn; rfl
    | string s => subst hn; rfl
    | number n => subst hn; rfl
    | integer n z hz =>
        have hok := (hint hn n rfl).2 ⟨z, hz⟩
        subst hn
        exact hok
    | boolean b => subst hn; rfl
    | null => subst hn; rfl

theorem typeOk_iff {accepted : Json → Prop} {obj : List (List UInt8 × Json)} (hshape : Shaped accepted obj)
    {value : Json} (hint : ∀ ty n, Json.get? obj (bytesOf "type") = some ty →
      bytesOf "integer" ∈ typeNames ty → value = .num n → (isI64OrU64 n = true ↔ ∃ z : ℤ, n.value = z)) :
    typeOk obj value = true ↔
      ∀ ty, Json.get? obj (bytesOf "type") = some ty → ∃ name ∈ typeNames ty, HasType value name := by
  unfold typeOk
  cases hty : Json.get? obj (bytesOf "type") with
  | none => exact iff_of_true rfl nofun
  | some ty =>
      have hname : ∀ name ∈ typeNames ty, (matchesJsonType value name = true ↔ HasType value name) := by
        intro name hmem
        refine matchesJsonType_iff (hshape.names ty hty name hmem) fun hi n hn => hint ty n hty ?_ hn
        rwa [← hi]
      have hforall : ∀ {P : Prop}, (P ↔ ∃ name ∈ typeNames ty, HasType value name) →
          (P ↔ ∀ ty', some ty = some ty' → ∃ name ∈ typeNames ty', HasType value name) :=
        fun h => h.trans ⟨fun hex ty' heq => Option.some.inj heq ▸ hex, fun hall => hall ty rfl⟩
      rcases hshape.type ty hty with ⟨name, rfl⟩ | ⟨xs, rfl⟩
      · refine hforall ((hname name List.mem_cons_self).trans ?_)
        exact ⟨fun h => ⟨name, List.mem_cons_self, h⟩, fun ⟨n, hn, h⟩ => List.mem_singleton.1 hn ▸ h⟩
      · refine hforall (List.any_eq_true.trans ?_)
        exact ⟨fun ⟨n, hn, h⟩ => ⟨n, hn, (hname n hn).1 h⟩, fun ⟨n, hn, h⟩ => ⟨n, hn, (hname n hn).2 h⟩⟩

/-- An array that has a type of an accepted schema is taken to be one. -/
theorem isArraySchema_of_type {accepted : Json → Prop} {obj : List (List UInt8 × Json)}
    (hshape : Shaped accepted obj) {xs : List Json} {items : Json}
    (hitems : Json.get? obj (bytesOf "items") = some items)
    (htype : ∀ ty, Json.get? obj (bytesOf "type") = some ty → ∃ name ∈ typeNames ty, HasType (.arr xs) name) :
    isArraySchema obj = true := by
  have harray : ∀ name, HasType (.arr xs) name → name = bytesOf "array" := by
    intro name h
    cases h
    rfl
  unfold isArraySchema
  cases hty : Json.get? obj (bytesOf "type") with
  | none => exact Option.isSome_iff_exists.2 ⟨items, hitems⟩
  | some ty =>
      obtain ⟨name, hmem, hname⟩ := htype ty hty
      have heq := harray name hname
      subst heq
      rcases hshape.type ty hty with ⟨t, rfl⟩ | ⟨names, rfl⟩
      · exact beq_iff_eq.2 (List.mem_singleton.1 hmem).symm
      · obtain ⟨v, hv, hstr⟩ := List.mem_filterMap.1 hmem
        exact List.any_eq_true.2 ⟨v, hv, beq_iff_eq.2 hstr⟩

theorem requiredOk_iff (obj ms : List (List UInt8 × Json)) :
    requiredOk obj ms = true ↔ ∀ names, listKey obj "required" = some names →
      ∀ name, Json.str name ∈ names → (Json.get? ms name).isSome := by
  unfold requiredOk
  cases hkey : listKey obj "required" with
  | none => exact iff_of_true rfl nofun
  | some names =>
      simp only [List.all_eq_true, Option.some.injEq]
      constructor
      · rintro hall names' rfl name hname
        exact hall name (List.mem_filterMap.2 ⟨.str name, hname, rfl⟩)
      · intro hall name hname
        obtain ⟨v, hv, hstr⟩ := List.mem_filterMap.1 hname
        cases v with
        | str s =>
            cases hstr
            exact hall names rfl _ hv
        | _ => cases hstr

section

variable {root schema : Json} {obj : List (List UInt8 × Json)} {validate : Json → Json → Bool}
  {value : Json} {accepted : Json → Prop}

theorem anyOfOk_iff (hshape : Shaped accepted obj) (hobj : followed root schema = .obj obj)
    (hplain : Plain root schema value)
    (hsub : ∀ s v, accepted s → Plain root s v → (validate v s = true ↔ Valid numEq root s v)) :
    anyOfOk validate obj value = true ↔ ∃ branch, ∀ branches, listKey obj "anyOf" = some branches →
      branch ∈ branches ∧ Valid numEq root branch value := by
  unfold anyOfOk
  cases hkey : listKey obj "anyOf" with
  | none => exact iff_of_true rfl ⟨.null, nofun⟩
  | some branches =>
      have hbranch : ∀ b ∈ branches, (validate value b = true ↔ Valid numEq root b value) := fun b hb =>
        hsub b value (hshape.anyOf branches hkey b hb) (hplain.visit (.anyOf hobj hkey hb))
      simp only [List.any_eq_true]
      constructor
      · rintro ⟨b, hb, hok⟩
        refine ⟨b, fun branches' heq => ?_⟩
        cases heq
        exact ⟨hb, (hbranch b hb).1 hok⟩
      · rintro ⟨b, hall⟩
        obtain ⟨hb, hvalid⟩ := hall branches rfl
        exact ⟨b, hb, (hbranch b hb).2 hvalid⟩

theorem propertiesOk_iff {ms : List (List UInt8 × Json)} (hshape : Shaped accepted obj)
    (hobj : followed root schema = .obj obj) (hplain : Plain root schema (.obj ms))
    (hsub : ∀ s v, accepted s → Plain root s v → (validate v s = true ↔ Valid numEq root s v)) :
    propertiesOk validate obj ms = true ↔ ∀ props, propsOf obj = some props →
      ∀ p ∈ props, ∀ v, Json.get? ms p.1 = some v → Valid numEq root p.2 v := by
  unfold propertiesOk
  cases hkey : propsOf obj with
  | none => exact iff_of_true rfl nofun
  | some props =>
      have hprop : ∀ p ∈ props, ∀ v, Json.get? ms p.1 = some v →
          (validate v p.2 = true ↔ Valid numEq root p.2 v) := fun p hp v hv =>
        hsub p.2 v (hshape.properties props hkey p hp) (hplain.visit (.property hobj hkey hp hv))
      simp only [List.all_eq_true]
      constructor
      · rintro hall props' heq p hp v hv
        cases heq
        have hok := hall p hp
        rw [hv] at hok
        exact (hprop p hp v hv).1 hok
      · intro hall p hp
        cases hv : Json.get? ms p.1 with
        | none => rfl
        | some v => exact (hprop p hp v hv).2 (hall props rfl p hp v hv)

theorem additionalOk_iff {ms : List (List UInt8 × Json)} (hshape : Shaped accepted obj)
    (hobj : followed root schema = .obj obj) (hplain : Plain root schema (.obj ms))
    (hsub : ∀ s v, accepted s → Plain root s v → (validate v s = true ↔ Valid numEq root s v)) :
    additionalOk validate obj ms = true ↔
      (Json.get? obj (bytesOf "additionalProperties") = some (.bool false) →
        ∀ m ∈ ms, ∃ props, propsOf obj = some props ∧ (Json.get? props m.1).isSome) ∧
      ∀ extra, Json.get? obj (bytesOf "additionalProperties") = some (.obj extra) → ∀ m ∈ ms,
        (∀ props, propsOf obj = some props → Json.get? props m.1 = none) →
          Valid numEq root (.obj extra) m.2 := by
  unfold additionalOk
  cases hkey : Json.get? obj (bytesOf "additionalProperties") with
  | none => exact iff_of_true rfl ⟨nofun, nofun⟩
  | some a =>
      cases a with
      | bool b =>
          cases b with
          | true => exact iff_of_true rfl ⟨nofun, nofun⟩
          | false =>
              cases hprops : propsOf obj with
              | none =>
                  -- nothing is declared, so the object has to be empty
                  have hempty := (hplain _ _ .refl).closed obj ms hobj rfl hkey hprops
                  subst hempty
                  exact iff_of_true rfl ⟨fun _ => List.forall_mem_nil _, nofun⟩
              | some props =>
                  simp only [List.all_eq_true]
                  refine ⟨fun hall => ⟨fun _ m hm => ⟨props, rfl, hall m hm⟩, nofun⟩, fun h m hm => ?_⟩
                  obtain ⟨props', heq, hsome⟩ := h.1 trivial m hm
                  cases heq
                  exact hsome
      | obj extra =>
          simp only [List.all_eq_true, Bool.or_eq_true]
          have hextra : ∀ m ∈ ms, (∀ props, propsOf obj = some props → Json.get? props m.1 = none) →
              (validate m.2 (.obj extra) = true ↔ Valid numEq root (.obj extra) m.2) := fun m hm hnew =>
            hsub _ _ (hshape.additional extra hkey) (hplain.visit (.additional hobj hkey hm hnew))
          have hnew : ∀ {m : List UInt8 × Json},
              ((propsOf obj).any fun props => (Json.get? props m.1).isSome) = true ∨
                ∀ props, propsOf obj = some props → Json.get? props m.1 = none := by
            intro m
            cases propsOf obj with
            | none => exact .inr nofun
            | some props =>
                cases hget : Json.get? props m.1 with
                | none => exact .inr fun props' heq => Option.some.inj heq ▸ hget
                | some v => exact .inl (by simp [hget])
          constructor
          · intro hall
            refine ⟨nofun, fun extra' heq m hm hundeclared => ?_⟩
            cases heq
            rcases hall m hm with hdecl | hok
            · cases hprops : propsOf obj with
              | none =>
                  rw [hprops] at hdecl
                  cases hdecl
              | some props =>
                  rw [hprops, Option.any_some, hundeclared props hprops] at hdecl
                  cases hdecl
            · exact (hextra m hm hundeclared).1 hok
          · rintro ⟨-, hall⟩ m hm
            rcases hnew with hdecl | hundeclared
            · exact .inl hdecl
            · exact .inr ((hextra m hm hundeclared).2 (hall extra rfl m hm hundeclared))
      | _ => exact iff_of_true rfl ⟨nofun, nofun⟩

theorem itemsOk_iff (hshape : Shaped accepted obj) (hobj : followed root schema = .obj obj)
    (hplain : Plain root schema value)
    (hsub : ∀ s v, accepted s → Plain root s v → (validate v s = true ↔ Valid numEq root s v))
    (htype : ∀ ty, Json.get? obj (bytesOf "type") = some ty → ∃ name ∈ typeNames ty, HasType value name) :
    itemsOk validate obj value = true ↔
      ∀ items xs, Json.get? obj (bytesOf "items") = some items → value = .arr xs →
        ∀ x ∈ xs, Valid numEq root items x := by
  unfold itemsOk
  cases hkey : Json.get? obj (bytesOf "items") with
  | none => exact iff_of_true (Bool.or_true _) nofun
  | some items =>
      cases value with
      | arr xs =>
          have hitem : ∀ x ∈ xs, (validate x items = true ↔ Valid numEq root items x) := fun x hx =>
            hsub items x (hshape.items items hkey) (hplain.visit (.item hobj hkey hx))
          rw [isArraySchema_of_type hshape hkey htype]
          simp only [Bool.not_true, Bool.false_or, List.all_eq_true]
          constructor
          · rintro hall items' xs' heq hxs x hx
            cases heq
            cases hxs
            exact (hitem x hx).1 (hall x hx)
          · exact fun hall x hx => (hitem x hx).2 (hall items xs rfl rfl x hx)
      | _ => exact iff_of_true (Bool.or_true _) fun _ _ _ hc => by cases hc

end

/-! ## The check and the semantics -/

theorem constOk_iff (obj : List (List UInt8 × Json)) (value : Json) :
    constOk numEq obj value = true ↔
      ∀ c, Json.get? obj (bytesOf "const") = some c → valueEq numEq c value = true := by
  unfold constOk
  cases Json.get? obj (bytesOf "const") with
  | none => exact iff_of_true rfl nofun
  | some c => exact ⟨fun h c' heq => Option.some.inj heq ▸ h, fun h => h c rfl⟩

theorem enumOk_iff (obj : List (List UInt8 × Json)) (value : Json) :
    enumOk numEq obj value = true ↔
      ∀ values, listKey obj "enum" = some values → ∃ v ∈ values, valueEq numEq v value = true := by
  unfold enumOk
  cases listKey obj "enum" with
  | none => exact iff_of_true rfl nofun
  | some values =>
      simp only [List.any_eq_true]
      exact ⟨fun h values' heq => Option.some.inj heq ▸ h, fun h => h values rfl⟩

/-- The keywords of a schema object that is no reference. -/
theorem keywords_iff {root schema : Json} {obj : List (List UInt8 × Json)}
    {validate : Json → Json → Bool} {value : Json} {accepted : Json → Prop}
    (hshape : Shaped accepted obj) (hobj : followed root schema = .obj obj)
    (href : resolveSchemaRef (.obj obj) root = none) (hplain : Plain root schema value)
    (hsub : ∀ s v, accepted s → Plain root s v → (validate v s = true ↔ Valid numEq root s v)) :
    (anyOfOk validate obj value && constOk numEq obj value && enumOk numEq obj value &&
        typeOk obj value && membersOk validate obj value && itemsOk validate obj value) = true ↔
      Valid numEq root (.obj obj) value := by
  have hint := fun ty n => (hplain _ _ .refl).integer obj ty n hobj
  have htype := typeOk_iff hshape hint
  have hanyOf := anyOfOk_iff numEq hshape hobj hplain hsub
  simp only [Bool.and_eq_true]
  constructor
  · rintro ⟨⟨⟨⟨⟨h1, h2⟩, h3⟩, h4⟩, h5⟩, h6⟩
    obtain ⟨branch, hbranch⟩ := hanyOf.1 h1
    have h4 := htype.1 h4
    have hmembers : ∀ ms, value = .obj ms → requiredOk obj ms = true ∧
        additionalOk validate obj ms = true ∧ propertiesOk validate obj ms = true := by
      rintro ms rfl
      unfold membersOk at h5
      simp only [Bool.and_eq_true] at h5
      exact ⟨h5.1.1, h5.1.2, h5.2⟩
    refine .keywords href (fun b hb => (hbranch b hb).1) (fun b hb => (hbranch b hb).2)
      ((constOk_iff numEq obj value).1 h2) ((enumOk_iff numEq obj value).1 h3) h4 ?_ ?_ ?_ ?_
      ((itemsOk_iff numEq hshape hobj hplain hsub h4).1 h6)
    · rintro names ms hkey rfl
      exact (requiredOk_iff obj ms).1 (hmembers ms rfl).1 names hkey
    · rintro props ms hkey rfl
      exact (propertiesOk_iff numEq hshape hobj hplain hsub).1 (hmembers ms rfl).2.2 props hkey
    · rintro ms hkey rfl
      exact ((additionalOk_iff numEq hshape hobj hplain hsub).1 (hmembers ms rfl).2.1).1 hkey
    · rintro extra ms hkey rfl
      exact ((additionalOk_iff numEq hshape hobj hplain hsub).1 (hmembers ms rfl).2.1).2 extra hkey
  · intro h
    cases h with
    | ref href' h =>
        rw [href] at href'
        cases href'
    | keywords _ hb1 hb2 hconst henum hty hrequired hproperties hclosed hadditional hitems =>
        refine ⟨⟨⟨⟨⟨?_, (constOk_iff numEq obj value).2 hconst⟩, (enumOk_iff numEq obj value).2 henum⟩,
          htype.2 hty⟩, ?_⟩, (itemsOk_iff numEq hshape hobj hplain hsub hty).2 hitems⟩
        · exact hanyOf.2 ⟨_, fun branches hkey => ⟨hb1 branches hkey, hb2 branches hkey⟩⟩
        · cases value with
          | obj ms =>
              unfold membersOk
              simp only [Bool.and_eq_true]
              refine ⟨⟨(requiredOk_iff obj ms).2 fun names hkey => hrequired names ms hkey rfl, ?_⟩,
                (propertiesOk_iff numEq hshape hobj hplain hsub).2 fun props hkey =>
                  hproperties props ms hkey rfl⟩
              exact (additionalOk_iff numEq hshape hobj hplain hsub).2
                ⟨fun hkey => hclosed ms hkey rfl, fun extra hkey => hadditional extra ms hkey rfl⟩
          | _ => rfl

/-- A schema accepted with `n` levels to go needs no more of them to be checked against. -/
theorem validateInner_iff {root : Json} {strictness : SchemaStrictness} (n : Nat) :
    ∀ {fuel : Nat}, n ≤ fuel → ∀ {schema value : Json}, Accepted root strictness n schema →
      Plain root schema value →
        (validateAgainstSchemaInner numEq root fuel value schema = true ↔
          Valid numEq root schema value) := by
  induction n using Nat.strong_induction_on with
  | _ n ih =>
      intro fuel hfuel schema value haccepted hplain
      cases n with
      | zero =>
          obtain ⟨path, h⟩ := haccepted
          cases h
      | succ n =>
          obtain ⟨fuel, rfl⟩ : ∃ k, fuel = k + 1 := ⟨fuel - 1, by omega⟩
          have honce := (hplain _ _ .refl).once
          unfold validateAgainstSchemaInner
          rcases accepted_cases haccepted with ⟨target, href, htarget⟩ | ⟨href, obj, rfl, hshape⟩
          · -- the schema behind the reference, a level further down, is no reference itself
            have hfollowed : followed root schema = target := by
              unfold followed
              rw [href, Option.getD_some]
            rw [hfollowed] at honce
            cases n with
            | zero =>
                obtain ⟨path, h⟩ := htarget
                cases h
            | succ n =>
                rcases accepted_cases htarget with ⟨target', href', -⟩ | ⟨-, obj, rfl, hshape⟩
                · rw [honce] at href'
                  cases href'
                · rw [href, Option.getD_some]
                  have hsub : ∀ s v, Accepted root strictness n s → Plain root s v →
                      (validateAgainstSchemaInner numEq root fuel v s = true ↔ Valid numEq root s v) :=
                    fun s v hs hp => ih n (by omega) (by omega) hs hp
                  refine (keywords_iff numEq hshape hfollowed honce hplain hsub).trans ?_
                  refine ⟨fun h => .ref href h, fun h => ?_⟩
                  cases h with
                  | ref href' h =>
                      rw [href] at href'
                      cases href'
                      exact h
                  | keywords href' =>
                      rw [href] at href'
                      cases href'
          · have hfollowed : followed root (.obj obj) = .obj obj := by
              unfold followed
              rw [href, Option.getD_none]
            rw [href, Option.getD_none]
            exact keywords_iff numEq hshape hfollowed href hplain
              fun s v hs hp => ih n (by omega) (by omega) hs hp

def closedSchema : Json :=
  .obj [(bytesOf "type", .str (bytesOf "object")), (bytesOf "additionalProperties", .bool false)]

def oneMember : Json := .obj [(bytesOf "a", .null)]

theorem closedSchema_accepted : validateSchemaShape closedSchema .bestEffort [] = .ok () := rfl

theorem closedSchema_noref : resolveSchemaRef closedSchema closedSchema = none := rfl

end Oxydllm.Constrain
