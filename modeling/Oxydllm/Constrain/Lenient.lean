/-
# Oxydllm.Constrain.Lenient — where schema guidance is no stricter than `validate_against_schema`.

The compiler and the check read the same schema. `Guided` is what compiled guidance comes to, within its
depth; `NoStricter` names the places where it asks for more than the check does. Away from these a value
that passes the check is admitted by the compiled root, and its compact text is walked to the end.
-/
import Oxydllm.Constrain.Admit
import Oxydllm.Constrain.Faithful
import Oxydllm.Constrain.Validate

namespace Oxydllm.Constrain

open JsonText SchemaArena

variable (numEq : Number → Number → Bool)

/-! ## Where guidance may be stricter -/

/-- The pairs of schema and value that compiled guidance comes to, so many levels down. -/
inductive Guided (root : Json) : Nat → Json → Json → Json → Json → Prop where
  | here (schema value : Json) : Guided root 0 schema value schema value
  | ref {d : Nat} {schema target value s v : Json} (h : form root schema = .ref target)
      (hrest : Guided root d target value s v) : Guided root d schema value s v
  | property {d : Nat} {schema x s v : Json} {props ms : List (List UInt8 × Json)} {required : List Json}
      {additional : Bool} {p : List UInt8 × Json} (h : form root schema = .object props required additional)
      (hp : p ∈ props) (hx : Json.get? ms p.1 = some x) (hrest : Guided root d p.2 x s v) :
      Guided root (d + 1) schema (.obj ms) s v
  | item {d : Nat} {schema items x s v : Json} {xs : List Json} (h : form root schema = .array (some items))
      (hx : x ∈ xs) (hrest : Guided root d items x s v) : Guided root (d + 1) schema (.arr xs) s v

/-- At this pair guidance asks for nothing that the check does not: a reference is followed to the same
schema and once only; an object is meant where properties are declared; no closed object without
properties; no key that is written as another name is, and no key that is asked for but written with
escapes; and enum values that the walker's position can count and that are written the same when they are
equal. -/
structure NoStricter (root schema value : Json) : Prop where
  ref : ∀ target, form root schema = .ref target →
    resolveSchemaRef schema root = some target ∧ resolveSchemaRef target root = none
  object : ∀ props required additional, form root schema = .object props required additional →
    field schema (bytesOf "type") = some (.str (bytesOf "object")) ∨ ∃ ms, value = .obj ms
  closed : ∀ props required ms, form root schema = .object props required false → value = .obj ms →
    (field schema (bytesOf "properties")).bind asObject = none → ms = []
  unaliased : ∀ props required additional ms, form root schema = .object props required additional →
    value = .obj ms → ∀ m ∈ ms, ∀ p ∈ props, keySpelling m.1 = p.1 → m.1 = p.1
  asked : ∀ props required additional ms, form root schema = .object props required additional →
    value = .obj ms → ∀ m ∈ ms, additional = false ∨ Json.str m.1 ∈ required → SelfSpelled m.1
  literal : ∀ literals, form root schema = .leaf (.enum literals) → value.toVec.length ≤ 65536
  number : ∀ values n a, (field schema (bytesOf "enum")).bind asArray = some values → value = .num n →
    Json.num a ∈ values → numEq a n = true → a.print = n.print

variable {root schema : Json}

/-! ## The form of a schema -/

/-- What has a form of its own is an object without a reference. -/
theorem form_plain (hany : form root schema ≠ .any) (href : ∀ t, form root schema ≠ .ref t) :
    ∃ obj, schema = .obj obj ∧ (Json.get? obj (bytesOf "$ref")).bind asStr = none ∧
      resolveSchemaRef schema root = none := by
  cases schema with
  | obj obj =>
      cases hr : (Json.get? obj (bytesOf "$ref")).bind asStr with
      | none =>
          refine ⟨obj, rfl, hr, ?_⟩
          unfold resolveSchemaRef
          rw [show field (.obj obj) (bytesOf "$ref") = Json.get? obj (bytesOf "$ref") from rfl, hr]
          rfl
      | some r =>
          exfalso
          simp only [form, asObject, hr] at hany href
          cases ht : resolveRef root r with
          | none => exact hany (by rw [ht]; rfl)
          | some t => exact href t (by rw [ht]; rfl)
  | _ => exact absurd rfl hany

theorem formEnum_ne {values : List Json} :
    (∀ props required additional, formEnum values ≠ .object props required additional) ∧
      (∀ items, formEnum values ≠ .array items) ∧
        ∀ node, formEnum values = .leaf node →
          values.any isContainer = false ∧ node = .enum (values.map Json.toVec) := by
  unfold formEnum
  split
  · exact ⟨nofun, nofun, nofun⟩
  · split
    · exact ⟨nofun, nofun, nofun⟩
    next hcont =>
      refine ⟨nofun, nofun, fun node h => ⟨by simpa using hcont, ?_⟩⟩
      cases h
      rfl

theorem form_object {props : List (List UInt8 × Json)} {required : List Json} {additional : Bool}
    (h : form root schema = .object props required additional) :
    ∃ obj, schema = .obj obj ∧ resolveSchemaRef schema root = none ∧ props = (propsOf obj).getD [] ∧
      required = (listKey obj "required").getD [] ∧
      (additional = false → Json.get? obj (bytesOf "additionalProperties") = some (.bool false)) := by
  obtain ⟨obj, rfl, hr, hnone⟩ := form_plain (by rw [h]; nofun) (by rw [h]; nofun)
  refine ⟨obj, rfl, hnone, ?_⟩
  have hobject : formObject obj = .object props required additional := by
    simp only [form, asObject, hr] at h
    split at h
    · exact absurd h (formEnum_ne.1 _ _ _)
    · split at h
      · cases h
      · split at h
        · exact h
        · repeat' split at h
          all_goals cases h
  unfold formObject at hobject
  simp only at hobject
  split at hobject
  · cases hobject
  · cases hobject
    refine ⟨rfl, rfl, fun hfalse => ?_⟩
    split at hfalse
    next heq => exact heq
    · cases hfalse

theorem type_of_str {obj : List (List UInt8 × Json)} {ty : List UInt8}
    (h : (Json.get? obj (bytesOf "type")).bind asStr = some ty) :
    Json.get? obj (bytesOf "type") = some (.str ty) := by
  obtain ⟨j, hj, hstr⟩ := Option.bind_eq_some_iff.1 h
  cases j with
  | str s =>
      cases hstr
      exact hj
  | _ => cases hstr

theorem form_array {items : Option Json} (h : form root schema = .array items) :
    ∃ obj, schema = .obj obj ∧ resolveSchemaRef schema root = none ∧
      Json.get? obj (bytesOf "type") = some (.str (bytesOf "array")) ∧
      items = Json.get? obj (bytesOf "items") := by
  obtain ⟨obj, rfl, hr, hnone⟩ := form_plain (by rw [h]; nofun) (by rw [h]; nofun)
  refine ⟨obj, rfl, hnone, ?_⟩
  simp only [form, asObject, hr] at h
  split at h
  · exact absurd h (formEnum_ne.2.1 _)
  · split at h
    · cases h
    · split at h
      · unfold formObject at h
        simp only at h
        split at h <;> cases h
      · split at h
        next hty =>
          cases h
          exact ⟨type_of_str hty, rfl⟩
        · repeat' split at h
          all_goals cases h

/-- A scalar type names its node. -/
theorem form_leaf {node : SchemaNode} (h : form root schema = .leaf node) :
    ∃ obj, schema = .obj obj ∧ resolveSchemaRef schema root = none ∧
      ((∃ values, listKey obj "enum" = some values ∧ values.any isContainer = false ∧
          node = .enum (values.map Json.toVec)) ∨
        ∃ ty, Json.get? obj (bytesOf "type") = some (.str ty) ∧
          (ty = bytesOf "string" ∧ node = .str ∨ ty = bytesOf "number" ∧ node = .number false ∨
            ty = bytesOf "integer" ∧ node = .number true ∨ ty = bytesOf "boolean" ∧ node = .boolean ∨
            ty = bytesOf "null" ∧ node = .null)) := by
  obtain ⟨obj, rfl, hr, hnone⟩ := form_plain (by rw [h]; nofun) (by rw [h]; nofun)
  refine ⟨obj, rfl, hnone, ?_⟩
  simp only [form, asObject, hr] at h
  split at h
  next values hvalues =>
    obtain ⟨hcont, hnode⟩ := formEnum_ne.2.2 _ h
    exact .inl ⟨values, hvalues, hcont, hnode⟩
  · split at h
    · cases h
    · split at h
      · unfold formObject at h
        simp only at h
        split at h <;> cases h
      · split at h
        · cases h
        · refine .inr ?_
          split at h
          next hty => cases h; exact ⟨_, type_of_str hty, by simp⟩
          split at h
          next hty => cases h; exact ⟨_, type_of_str hty, by simp⟩
          split at h
          next hty => cases h; exact ⟨_, type_of_str hty, by simp⟩
          split at h
          next hty => cases h; exact ⟨_, type_of_str hty, by simp⟩
          split at h
          next hty => cases h; exact ⟨_, type_of_str hty, by simp⟩
          cases h

/-! ## What the check has seen -/

/-- The keywords of a schema without reference, one by one. -/
theorem validate_keywords {obj : List (List UInt8 × Json)} {value : Json} {n : Nat}
    (href : resolveSchemaRef (.obj obj) root = none)
    (h : validateAgainstSchemaInner numEq root n value (.obj obj) = true) :
    ∃ m, enumOk numEq obj value = true ∧ typeOk obj value = true ∧
      membersOk (validateAgainstSchemaInner numEq root m) obj value = true ∧
      itemsOk (validateAgainstSchemaInner numEq root m) obj value = true := by
  cases n with
  | zero => cases h
  | succ n =>
      unfold validateAgainstSchemaInner at h
      rw [href] at h
      simp only [Option.getD_none, asObject, Bool.and_eq_true] at h
      exact ⟨n, h.1.1.1.2, h.1.1.2, h.1.2, h.2⟩

theorem validate_followed {target value : Json} {n : Nat} (href : resolveSchemaRef schema root = some target)
    (hnone : resolveSchemaRef target root = none)
    (h : validateAgainstSchemaInner numEq root n value schema = true) :
    validateAgainstSchemaInner numEq root n value target = true := by
  cases n with
  | zero => cases h
  | succ n =>
      unfold validateAgainstSchemaInner at h ⊢
      rw [href, Option.getD_some] at h
      rw [hnone, Option.getD_none]
      exact h

theorem matches_of_type {obj : List (List UInt8 × Json)} {value : Json} {ty : List UInt8}
    (hty : Json.get? obj (bytesOf "type") = some (.str ty)) (h : typeOk obj value = true) :
    matchesJsonType value ty = true := by
  unfold typeOk at h
  rwa [hty] at h

/-- A bit of the mask is set for a name that is required. -/
theorem requiredMask_name {props : List (List UInt8 × NodeId)} {rs : List Json} {m : BitVec 64}
    (h : requiredMask props rs = some m) {i : Nat} {q : List UInt8 × NodeId} (hi : props[i]? = some q)
    (hbit : m.getLsbD i = true) : Json.str q.1 ∈ rs := by
  induction rs generalizing m with
  | nil =>
      cases h
      simp at hbit
  | cons r rs ih =>
      obtain ⟨name, hname, h⟩ := Option.bind_eq_some_iff.1 h
      split at h
      next hany =>
        obtain ⟨m', hm', rfl⟩ := Option.map_eq_some_iff.1 h
        rw [Mask.getLsbD_insert (BitVec.lt_of_getLsbD hbit), Bool.or_eq_true, decide_eq_true_eq] at hbit
        rcases hbit with hbit | rfl
        · exact List.mem_cons_of_mem _ (ih hm' hbit)
        · obtain ⟨hlt, hget⟩ := List.getElem?_eq_some_iff.1 hi
          have hfound := List.findIdx_getElem (w := hlt)
          rw [hget, beq_iff_eq] at hfound
          cases r with
          | str s =>
              cases hname
              rw [hfound]
              exact List.mem_cons_self
          | _ => cases hname
      · cases h

/-- The node of a name is the one built for its sub-schema. -/
theorem builtProps_mem {P : Json → Nat → Nat → NodeId → Prop} {ms : List (List UInt8 × Json)}
    {props : List (List UInt8 × NodeId)} {lo hi : Nat} (h : BuiltProps P ms props lo hi) :
    props.map Prod.fst = ms.map Prod.fst ∧
      ∀ q ∈ props, ∃ m ∈ ms, m.1 = q.1 ∧ ∃ lo hi, P m.2 lo hi q.2 := by
  induction ms generalizing props lo with
  | nil =>
      obtain ⟨rfl, -⟩ := h
      exact ⟨rfl, List.forall_mem_nil _⟩
  | cons m ms ih =>
      obtain ⟨id, rest, mid, rfl, hsub, hrest⟩ := h
      obtain ⟨hnames, hmem⟩ := ih hrest
      refine ⟨by rw [List.map_cons, List.map_cons, hnames], List.forall_mem_cons.2 ⟨?_, fun q hq => ?_⟩⟩
      · exact ⟨m, List.mem_cons_self, rfl, lo, mid, hsub⟩
      · obtain ⟨m', hm', hrest⟩ := hmem q hq
        exact ⟨m', List.mem_cons_of_mem m hm', hrest⟩

/-- Equal scalars are written the same, numbers if the condition says so. -/
theorem valueEq_scalar {a value : Json} (ha : isContainer a = false) (h : valueEq numEq a value = true)
    (hnum : ∀ x n, a = .num x → value = .num n → numEq x n = true → x.print = n.print) :
    value.toValue.isScalar ∧ a.toVec = value.toVec := by
  cases a with
  | null =>
      cases value with
      | null => exact ⟨rfl, rfl⟩
      | _ => cases h
  | bool b =>
      cases value with
      | bool c =>
          rw [show valueEq numEq (.bool b) (.bool c) = (b == c) by rw [valueEq], beq_iff_eq] at h
          subst h
          exact ⟨by cases b <;> rfl, rfl⟩
      | _ => cases h
  | num x =>
      cases value with
      | num n =>
          rw [valueEq] at h
          exact ⟨rfl, hnum x n rfl rfl h⟩
      | _ => cases h
  | str s =>
      cases value with
      | str w =>
          rw [valueEq, beq_iff_eq] at h
          subst h
          exact ⟨rfl, rfl⟩
      | _ => cases h
  | arr xs => cases ha
  | obj ms => cases ha

theorem get?_of_mem {ms : List (List UInt8 × Json)} (hkeys : (ms.map Prod.fst).Nodup) {m : List UInt8 × Json}
    (hm : m ∈ ms) : Json.get? ms m.1 = some m.2 := by
  unfold Json.get?
  cases hfind : ms.find? fun p => p.1 == m.1 with
  | none => exact absurd (List.find?_eq_none.1 hfind m hm) (by simp)
  | some p =>
      have hp : p.1 = m.1 := by simpa using List.find?_some hfind
      have := List.inj_on_of_nodup_map hkeys (List.mem_of_find?_eq_some hfind) hm hp
      rw [this]
      rfl

/-! ## A value that passes is admitted -/

section

variable {numEq}

theorem leaf_admits {a : SchemaArena} {n k id : Nat} {value : Json} {node : SchemaNode}
    (hnode : a.node id = node) (hform : form root schema = .leaf node)
    (hok : NoStricter numEq root schema value)
    (hvalid : validateAgainstSchemaInner numEq root n value schema = true) : Admits a k id value := by
  obtain ⟨obj, rfl, hnone, hcase⟩ := form_leaf hform
  obtain ⟨m, henum, htype, -, -⟩ := validate_keywords numEq hnone hvalid
  rcases hcase with ⟨values, hvalues, hcont, rfl⟩ | ⟨ty, hty, hcase⟩
  · unfold enumOk at henum
    rw [hvalues] at henum
    obtain ⟨v, hv, heq⟩ := List.any_eq_true.1 henum
    have hcont' : isContainer v = false := by
      have := List.any_eq_false.1 hcont v hv
      simpa using this
    obtain ⟨hscalar, hvec⟩ := valueEq_scalar numEq hcont' heq fun x n hx hn hnum => by
      subst hx
      exact hok.number values n x hvalues hn hv hnum
    exact .enum hnode hscalar (List.mem_map.2 ⟨v, hv, hvec⟩) (hok.literal _ hform)
  · have hmatch := matches_of_type hty htype
    rcases hcase with ⟨rfl, rfl⟩ | ⟨rfl, rfl⟩ | ⟨rfl, rfl⟩ | ⟨rfl, rfl⟩ | ⟨rfl, rfl⟩
    · cases value with
      | str s => exact .str hnode
      | _ => cases hmatch
    · cases value with
      | num x => exact .number hnode nofun
      | _ => cases hmatch
    · cases value with
      | num x =>
          refine .number hnode fun _ => ?_
          have hint : isI64OrU64 x = true := hmatch
          unfold isI64OrU64 at hint
          exact (Bool.and_eq_true _ _ ▸ hint).1
      | _ => cases hmatch
    · cases value with
      | bool b => exact .boolean hnode
      | _ => cases hmatch
    · cases value with
      | null => exact .null hnode
      | _ => cases hmatch

/-- What the check has seen of an object. -/
theorem object_members {n : Nat} {value : Json} {ps : List (List UInt8 × Json)} {required : List Json}
    {additional : Bool} (hform : form root schema = .object ps required additional)
    (hok : NoStricter numEq root schema value)
    (hvalid : validateAgainstSchemaInner numEq root n value schema = true) :
    ∃ m ms, value = .obj ms ∧ (∀ name, Json.str name ∈ required → name ∈ ms.map Prod.fst) ∧
      (additional = false → ∀ p ∈ ms, p.1 ∈ ps.map Prod.fst) ∧
      ∀ p ∈ ps, ∀ x, Json.get? ms p.1 = some x → validateAgainstSchemaInner numEq root m x p.2 = true := by
  obtain ⟨obj, rfl, hnone, rfl, rfl, hadditional⟩ := form_object hform
  obtain ⟨m, -, htype, hmembers, -⟩ := validate_keywords numEq hnone hvalid
  obtain ⟨ms, rfl⟩ : ∃ ms, value = .obj ms := by
    refine (hok.object _ _ _ hform).elim (fun hty => ?_) id
    have hmatch := matches_of_type hty htype
    cases value with
    | obj ms => exact ⟨ms, rfl⟩
    | _ => cases hmatch
  have hkey : ∀ {ms : List (List UInt8 × Json)} {k : List UInt8}, (Json.get? ms k).isSome = true →
      k ∈ ms.map Prod.fst := by
    intro ms k hsome
    obtain ⟨x, hx⟩ := Option.isSome_iff_exists.1 hsome
    exact List.mem_map.2 ⟨(k, x), Json.mem_of_get? hx, rfl⟩
  simp only [membersOk, Bool.and_eq_true] at hmembers
  obtain ⟨⟨hrequired, hadd⟩, hproperties⟩ := hmembers
  refine ⟨m, ms, rfl, fun name hname => ?_, fun hfalse p hp => ?_, fun p hp x hx => ?_⟩
  · unfold requiredOk at hrequired
    cases hlist : listKey obj "required" with
    | none =>
        rw [hlist] at hname
        cases hname
    | some names =>
        rw [hlist] at hname hrequired
        exact hkey (List.all_eq_true.1 hrequired name (List.mem_filterMap.2 ⟨_, hname, rfl⟩))
  · subst hfalse
    unfold additionalOk at hadd
    rw [hadditional rfl] at hadd
    cases hprops : propsOf obj with
    | none =>
        rw [hok.closed _ _ ms hform rfl hprops] at hp
        cases hp
    | some pr =>
        rw [hprops] at hadd
        exact hkey (List.all_eq_true.1 hadd p hp)
  · unfold propertiesOk at hproperties
    cases hprops : propsOf obj with
    | none =>
        rw [hprops] at hp
        cases hp
    | some pr =>
        rw [hprops] at hp hproperties
        have hone := List.all_eq_true.1 hproperties p hp
        rw [hx] at hone
        exact hone

/-- A value that passes the check of a schema is admitted by the node built for it. -/
theorem validated_admits {a : SchemaArena} (hany : a.node anyId = .any) (fuel : Nat) :
    ∀ {n k lo hi id : Nat} {schema value : Json}, Built a root fuel schema lo hi id → value.Wf →
      (∀ d s v, Guided root d schema value s v → d ≤ k → NoStricter numEq root s v) →
        validateAgainstSchemaInner numEq root n value schema = true → Admits a k id value := by
  have hnode : ∀ {id : Nat} {node : SchemaNode}, a.nodes[id]? = some node → a.node id = node := by
    intro id node h
    unfold SchemaArena.node
    rw [List.getD_eq_getElem?_getD, h, Option.getD_some]
  induction fuel with
  | zero =>
      intro n k lo hi id schema value hbuilt _ _ _
      obtain ⟨-, rfl⟩ := hbuilt
      exact .any hany
  | succ fuel ih =>
      intro n k lo hi id schema value hbuilt hwf hok hvalid
      have hhere := hok 0 schema value (.here schema value) (Nat.zero_le k)
      unfold Built at hbuilt
      cases hform : form root schema with
      | any =>
          rw [hform] at hbuilt
          obtain ⟨-, rfl⟩ := hbuilt
          exact .any hany
      | ref target =>
          rw [hform] at hbuilt
          obtain ⟨href, hnone⟩ := hhere.ref target hform
          exact ih hbuilt hwf (fun d s v hg => hok d s v (.ref hform hg))
            (validate_followed numEq href hnone hvalid)
      | leaf node =>
          rw [hform] at hbuilt
          obtain ⟨-, rfl, hget⟩ := hbuilt
          exact leaf_admits (hnode hget) hform hhere hvalid
      | array items =>
          rw [hform] at hbuilt
          obtain ⟨obj, rfl, hnone, hty, rfl⟩ := form_array hform
          obtain ⟨m, -, htype, -, hitems⟩ := validate_keywords numEq hnone hvalid
          have hmatch := matches_of_type hty htype
          cases value with
          | arr xs =>
              cases hit : Json.get? obj (bytesOf "items") with
              | none =>
                  rw [hit] at hbuilt
                  obtain ⟨-, rfl, hget⟩ := hbuilt
                  exact .array (hnode hget) fun _ _ x _ => .any hany
              | some items =>
                  rw [hit] at hbuilt hform
                  obtain ⟨mid, child, hsub, -, rfl, hget⟩ := hbuilt
                  have hall : ∀ x ∈ xs, validateAgainstSchemaInner numEq root m x items = true := by
                    unfold itemsOk isArraySchema at hitems
                    rw [hty, hit] at hitems
                    simpa using hitems
                  cases hwf with
                  | arr xs hxs =>
                      refine .array (hnode hget) fun k' hk x hx => ?_
                      subst hk
                      exact ih hsub (hxs x hx) (fun d s v hg hd => hok (d + 1) s v (.item hform hx hg) (by omega))
                        (hall x hx)
          | _ => cases hmatch
      | object ps required additional =>
          rw [hform] at hbuilt
          obtain ⟨mid, props, hprops, hbuilt⟩ := hbuilt
          cases hmask : requiredMask props required with
          | none =>
              rw [hmask] at hbuilt
              obtain ⟨-, rfl⟩ := hbuilt
              exact .any hany
          | some mask =>
              rw [hmask] at hbuilt
              obtain ⟨-, rfl, hget⟩ := hbuilt
              obtain ⟨m, hmembers⟩ := object_members hform hhere hvalid
              obtain ⟨ms, rfl, hrequired, hknown, hproperties⟩ := hmembers
              obtain ⟨hnames, hsubs⟩ := builtProps_mem hprops
              cases hwf with
              | obj ms hkeys hms =>
                  have hasked := hhere.asked ps required additional ms hform rfl
                  refine .object (hnode hget) (fun k' _ p hp q hq => ?_) (fun k' _ hadd p hp => ?_)
                    (fun k' _ i q hi hbit => ?_) fun k' hk p hp => ?_
                  · obtain ⟨s, hs, hname, -⟩ := hsubs q hq
                    rw [← hname]
                    exact hhere.unaliased ps required additional ms hform rfl p hp s hs
                  · have hmem : p.1 ∈ props.map Prod.fst := by
                      rw [hnames]
                      exact hknown hadd p hp
                    exact ⟨hasked p hp (.inl hadd), List.mem_map.1 hmem⟩
                  · have hname := requiredMask_name hmask hi hbit
                    obtain ⟨p, hp, hq⟩ := List.mem_map.1 (hrequired q.1 hname)
                    rw [← hq] at hname ⊢
                    exact ⟨List.mem_map.2 ⟨p, hp, rfl⟩, hasked p hp (.inr hname)⟩
                  · subst hk
                    unfold propNode
                    cases hfind : props.find? (·.1 == p.1) with
                    | none => exact .any hany
                    | some q =>
                        have hq : q.1 = p.1 := by simpa using List.find?_some hfind
                        obtain ⟨s, hs, hname, lo', hi', hsub⟩ := hsubs q (List.mem_of_find?_eq_some hfind)
                        have hx : Json.get? ms s.1 = some p.2 := by
                          rw [hname, hq]
                          exact get?_of_mem hkeys hp
                        exact ih hsub (hms p hp) (fun d s' v hg hd =>
                          hok (d + 1) s' v (.property hform hs hx hg) (by omega)) (hproperties s hs p.2 hx)

end

/-- `{"type":["object","null"],"properties":{}}` -/
def nullable : Json := .obj [(bytesOf "type", .arr [.str (bytesOf "object"), .str (bytesOf "null")]),
  (bytesOf "properties", .obj [])]

/-- `{"type":"object","properties":{"p":…}}` -/
def nullableKey : Json := .obj [(bytesOf "type", .str (bytesOf "object")),
  (bytesOf "properties", .obj [([0x70], nullable)])]

/-- `{"p":…}` -/
def member (value : Json) : Json := .obj [([0x70], value)]

theorem nullableKey_accepted : validateSchemaShape nullableKey .bestEffort [] = .ok () := rfl

theorem nullable_form : form nullableKey nullable = .object [] [] true := rfl

theorem nullableKey_form : form nullableKey nullableKey = .object [([0x70], nullable)] [] true := rfl

theorem nullableKey_wf : nullableKey.Wf := by
  have hnullable : nullable.Wf := by
    refine .obj _ (by decide) ?_
    simp only [List.forall_mem_cons]
    refine ⟨.arr _ ?_, .obj _ List.nodup_nil (List.forall_mem_nil _), List.forall_mem_nil _⟩
    simp only [List.forall_mem_cons]
    exact ⟨.str _, .str _, List.forall_mem_nil _⟩
  refine .obj _ (by decide) ?_
  simp only [List.forall_mem_cons]
  refine ⟨.str _, .obj _ (List.nodup_singleton _) fun m hm => ?_, List.forall_mem_nil _⟩
  rw [List.mem_singleton.1 hm]
  exact hnullable

/-- An object without members is what guidance takes `nullable` for. -/
theorem nullable_noStricter : NoStricter (fun _ _ => true) nullableKey nullable (.obj []) where
  ref _ h := by cases nullable_form.symm.trans h
  object _ _ _ _ := .inr ⟨[], rfl⟩
  closed _ _ _ h := by cases nullable_form.symm.trans h
  unaliased _ _ _ _ h _ m _ p hp := by
    cases nullable_form.symm.trans h
    cases hp
  asked _ _ _ _ _ hms m hm := by
    cases hms
    cases hm
  literal _ h := by cases nullable_form.symm.trans h
  number _ _ _ _ h := by cases h

theorem nullableKey_noStricter :
    NoStricter (fun _ _ => true) nullableKey nullableKey (member (.obj [])) where
  ref _ h := by cases nullableKey_form.symm.trans h
  object _ _ _ _ := .inl rfl
  closed _ _ _ h := by cases nullableKey_form.symm.trans h
  unaliased _ _ _ _ h hms m hm p hp _ := by
    cases nullableKey_form.symm.trans h
    cases hms
    rw [List.mem_singleton.1 hm, List.mem_singleton.1 hp]
  asked _ _ _ _ _ hms m hm _ := by
    cases hms
    rw [List.mem_singleton.1 hm]
    exact ⟨rfl, by decide⟩
  literal _ h := by cases nullableKey_form.symm.trans h
  number _ _ _ _ h := by cases h

theorem nullableKey_guided {d : Nat} {schema value s v : Json} (hs : schema = nullableKey)
    (hv : value = member (.obj [])) (h : Guided nullableKey d schema value s v) :
    NoStricter (fun _ _ => true) nullableKey s v := by
  have hform := nullableKey_form
  rw [show form nullableKey nullableKey = form nullableKey schema by rw [hs]] at hform
  cases h with
  | here =>
      rw [hs, hv]
      exact nullableKey_noStricter
  | ref h _ => cases hform.symm.trans h
  | item h _ _ => cases hform.symm.trans h
  | property h hp hx hrest =>
      cases hform.symm.trans h
      cases hv
      cases List.mem_singleton.1 hp
      cases hx
      -- behind the member there is nothing to go on to
      cases hrest with
      | here => exact nullable_noStricter
      | ref h _ => cases nullable_form.symm.trans h
      | property h hp _ _ =>
          cases nullable_form.symm.trans h
          cases hp

end Oxydllm.Constrain
