/-
# Oxydllm.Constrain.Schema — compiled schema nodes and `SchemaArena::compile`.

A schema is a `serde_json::Value`, here a `Json`. Node ids are `u16`: an id is the length of the node
vector at the push, modulo 2¹⁶. `compile_node` stops at depth 33; the fuel of `compileNode` counts
the depth still allowed.

`NodeWf` is what compilation guarantees of every node: at most 64 properties or literals, so that a
`u64` mask covers them, ids that point into the arena, and literals that spell JSON scalars.
-/
import Oxydllm.Lib.JsonValue
import Oxydllm.Lib.Mask

namespace Oxydllm.Constrain

open JsonText

/-- The bytes of a string literal of the source. -/
def bytesOf (s : String) : List UInt8 := s.toUTF8.data.toList

abbrev NodeId := Nat

/-- Id 0 is always the unconstrained `Any` (`ANY`). -/
def anyId : NodeId := 0

/-- `GUIDED_DEPTH`. -/
def guidedDepth : Nat := 8

/-- A compiled schema node. -/
inductive SchemaNode where
  | any
  | object (props : List (List UInt8 × NodeId)) (required : BitVec 64) (additional : Bool)
  | array (items : NodeId)
  | str
  | number (integer : Bool)
  | boolean
  | null
  /-- Scalar enum: the exact canonical JSON serializations allowed. -/
  | enum (literals : List (List UInt8))

/-- The compiled schema. -/
structure SchemaArena where
  nodes : List SchemaNode

namespace SchemaArena

/-- `len as NodeId`. -/
def nodeId (n : Nat) : NodeId := n % 65536

def unconstrained : SchemaArena := ⟨[.any]⟩

def root (a : SchemaArena) : NodeId := nodeId (a.nodes.length - 1)

/-- Every id of a compiled arena points into it (`compile_wf`), so the default is never read. -/
def node (a : SchemaArena) (id : NodeId) : SchemaNode := a.nodes.getD id .any

/-! ## Compilation -/

/-- `Value::as_object`. -/
def asObject : Json → Option (List (List UInt8 × Json))
  | .obj ms => some ms
  | _ => none

def asArray : Json → Option (List Json)
  | .arr xs => some xs
  | _ => none

def asStr : Json → Option (List UInt8)
  | .str s => some s
  | _ => none

/-- `Value::get` with a string key. -/
def field (j : Json) (key : List UInt8) : Option Json := (asObject j).bind (Json.get? · key)

def stripPrefix : List UInt8 → List UInt8 → Option (List UInt8)
  | [], s => some s
  | _ :: _, [] => none
  | p :: ps, b :: s => if p = b then stripPrefix ps s else none

/-- The target of a `$ref` under one of the two definition tables. -/
def resolveRef (root : Json) (r : List UInt8) : Option Json :=
  let under (pre key : String) : Option Json :=
    (stripPrefix (bytesOf pre) r).bind fun name =>
      (field root (bytesOf key)).bind (field · name)
  (under "#/$defs/" "$defs").or (under "#/definitions/" "definitions")

/-- `self.nodes.push(node)` and the id of the pushed node. -/
def push (nodes : List SchemaNode) (node : SchemaNode) : List SchemaNode × NodeId :=
  (nodes ++ [node], nodeId nodes.length)

def isContainer : Json → Bool
  | .obj _ => true
  | .arr _ => true
  | _ => false

def compileEnum (nodes : List SchemaNode) (values : List Json) : List SchemaNode × NodeId :=
  if values.isEmpty || values.length > 64 then (nodes, anyId)
  else if values.any isContainer then (nodes, anyId)
  else push nodes (.enum (values.map Json.toVec))

/-- The `required` mask; `none` when a name is no string or no declared property. -/
def requiredMask (props : List (List UInt8 × NodeId)) : List Json → Option (BitVec 64)
  | [] => some 0#64
  | r :: rs => (asStr r).bind fun name =>
      if props.any (·.1 == name) then
        (requiredMask props rs).map fun m => m ||| (1#64 <<< props.findIdx (·.1 == name))
      else none

/-- The loop over `properties`, given the compilation of one sub-schema. -/
def compileProps (compile : List SchemaNode → Json → List SchemaNode × NodeId) :
    List SchemaNode → List (List UInt8 × Json) → List SchemaNode × List (List UInt8 × NodeId)
  | nodes, [] => (nodes, [])
  | nodes, (name, sub) :: rest =>
      let c := compile nodes sub
      let r := compileProps compile c.1 rest
      (r.1, (name, c.2) :: r.2)

def compileObject (compile : List SchemaNode → Json → List SchemaNode × NodeId)
    (nodes : List SchemaNode) (obj : List (List UInt8 × Json)) : List SchemaNode × NodeId :=
  let properties := ((Json.get? obj (bytesOf "properties")).bind asObject).getD []
  if properties.length > 64 then (nodes, anyId)
  else
    let p := compileProps compile nodes properties
    let required := ((Json.get? obj (bytesOf "required")).bind asArray).getD []
    match requiredMask p.2 required with
    | none => (p.1, anyId)
    | some mask =>
        let additional := match Json.get? obj (bytesOf "additionalProperties") with
          | some (.bool false) => false
          | _ => true
        push p.1 (.object p.2 mask additional)

/-- `compile_node` at depth `33 - fuel`. -/
def compileNode (root : Json) : Nat → List SchemaNode → Json → List SchemaNode × NodeId
  | 0, nodes, _ => (nodes, anyId)
  | fuel + 1, nodes, schema =>
      match asObject schema with
      | none => (nodes, anyId)
      | some obj =>
          match (Json.get? obj (bytesOf "$ref")).bind asStr with
          | some r =>
              match resolveRef root r with
              | some target => compileNode root fuel nodes target
              | none => (nodes, anyId)
          | none =>
              match (Json.get? obj (bytesOf "enum")).bind asArray with
              | some values => compileEnum nodes values
              | none =>
                  let has (key : String) : Bool := (Json.get? obj (bytesOf key)).isSome
                  if has "anyOf" || has "oneOf" || has "allOf" then (nodes, anyId)
                  else
                    let ty := (Json.get? obj (bytesOf "type")).bind asStr
                    if ty = some (bytesOf "object") ∨ (ty = none ∧ has "properties") then
                      compileObject (compileNode root fuel) nodes obj
                    else if ty = some (bytesOf "array") then
                      match Json.get? obj (bytesOf "items") with
                      | some items =>
                          let c := compileNode root fuel nodes items
                          push c.1 (.array c.2)
                      | none => push nodes (.array anyId)
                    else if ty = some (bytesOf "string") then push nodes .str
                    else if ty = some (bytesOf "number") then push nodes (.number false)
                    else if ty = some (bytesOf "integer") then push nodes (.number true)
                    else if ty = some (bytesOf "boolean") then push nodes .boolean
                    else if ty = some (bytesOf "null") then push nodes .null
                    else (nodes, anyId)

/-- Compiles a JSON Schema; the root is the last node. -/
def compile (schema : Json) : SchemaArena :=
  let c := compileNode schema 33 [.any] schema
  if c.2 ≠ nodeId (c.1.length - 1) then ⟨c.1 ++ [.any]⟩ else ⟨c.1⟩

/-! ## What compilation guarantees -/

/-- A node of an arena of `n` nodes. -/
def NodeWf (n : Nat) : SchemaNode → Prop
  | .object props required _ =>
      props.length ≤ 64 ∧ (props.map Prod.fst).Nodup ∧ (∀ p ∈ props, p.2 < n) ∧
        ∀ j, required.getLsbD j = true → j < props.length
  | .array items => items < n
  | .enum literals =>
      literals ≠ [] ∧ literals.length ≤ 64 ∧
        ∀ l ∈ literals, ∃ v : Value, v.isScalar ∧ v.print = l ∧ (v.isNum → l.length < 32)
  | _ => True

theorem NodeWf.mono {n m : Nat} (h : n ≤ m) {node : SchemaNode} (hn : NodeWf n node) :
    NodeWf m node := by
  cases node with
  | object props required additional =>
      obtain ⟨hlen, hkeys, hids, hreq⟩ := hn
      exact ⟨hlen, hkeys, fun p hp => lt_of_lt_of_le (hids p hp) h, hreq⟩
  | array items => exact lt_of_lt_of_le hn h
  | enum literals => exact hn
  | _ => trivial

/-- What a step of the compiler does to the node vector: it only pushes, keeps every node well
formed and returns an id in range. -/
structure Grows (nodes : List SchemaNode) (c : List SchemaNode × NodeId) : Prop where
  pre : nodes <+: c.1
  wf : ∀ node ∈ c.1, NodeWf c.1.length node
  id_lt : c.2 < c.1.length

variable {nodes : List SchemaNode}

theorem nodeId_le (n : Nat) : nodeId n ≤ n := Nat.mod_le _ _

theorem grows_any (hpos : 0 < nodes.length) (hwf : ∀ node ∈ nodes, NodeWf nodes.length node) :
    Grows nodes (nodes, anyId) :=
  ⟨List.prefix_rfl, hwf, hpos⟩

theorem grows_push {node : SchemaNode} (hwf : ∀ node ∈ nodes, NodeWf nodes.length node)
    (hnode : NodeWf nodes.length node) : Grows nodes (push nodes node) := by
  have hlen : nodes.length ≤ (push nodes node).1.length := by simp [push]
  refine ⟨List.prefix_append _ _, ?_, ?_⟩
  · intro x hx
    simp only [push, List.mem_append, List.mem_singleton] at hx
    rcases hx with hx | rfl
    · exact (hwf x hx).mono hlen
    · exact hnode.mono hlen
  · have hid : (push nodes node).2 ≤ nodes.length := nodeId_le nodes.length
    have hgrown : (push nodes node).1.length = nodes.length + 1 := by simp [push]
    exact lt_of_le_of_lt hid (by rw [hgrown]; exact Nat.lt_succ_self _)

theorem Grows.trans {nodes : List SchemaNode} {c d : List SchemaNode × NodeId} (h : Grows nodes c)
    (h' : Grows c.1 d) : Grows nodes d :=
  ⟨h.pre.trans h'.pre, h'.wf, h'.id_lt⟩

theorem toVec_scalar {j : Json} (hj : j.Wf) (h : isContainer j = false) :
    ∃ v : Value, v.isScalar ∧ v.print = j.toVec ∧ (v.isNum → j.toVec.length < 32) := by
  refine ⟨j.toValue, ?_, rfl, ?_⟩
  · cases j with
    | bool b => cases b <;> simp [Json.toValue, Value.isScalar]
    | arr xs => cases h
    | obj ms => cases h
    | _ => simp [Json.toValue, Value.isScalar]
  · intro hnum
    cases hj with
    | num n hlen => simpa [Json.toVec, Json.toValue, Value.print] using hlen
    | bool b => cases b <;> simp [Json.toValue, Value.isNum] at hnum
    | arr xs => cases h
    | obj ms => cases h
    | _ => simp [Json.toValue, Value.isNum] at hnum

theorem compileEnum_grows (hpos : 0 < nodes.length) (hwf : ∀ node ∈ nodes, NodeWf nodes.length node)
    {values : List Json} (hvalues : ∀ v ∈ values, v.Wf) : Grows nodes (compileEnum nodes values) := by
  unfold compileEnum
  split
  · exact grows_any hpos hwf
  next hsize =>
    split
    · exact grows_any hpos hwf
    next hcont =>
      simp only [Bool.or_eq_true, decide_eq_true_eq, not_or, not_lt] at hsize
      refine grows_push hwf ⟨by simpa using hsize.1, by simpa using hsize.2, ?_⟩
      intro l hl
      obtain ⟨j, hj, rfl⟩ := List.mem_map.1 hl
      refine toVec_scalar (hvalues j hj) ?_
      simp only [Bool.not_eq_true, List.any_eq_false] at hcont
      simpa using hcont j hj

theorem requiredMask_lt {props : List (List UInt8 × NodeId)} {rs : List Json} {m : BitVec 64}
    (h : requiredMask props rs = some m) : ∀ j, m.getLsbD j = true → j < props.length := by
  induction rs generalizing m with
  | nil =>
      cases h
      simp
  | cons r rs ih =>
      obtain ⟨name, -, h⟩ := Option.bind_eq_some_iff.1 h
      split at h
      next hany =>
        obtain ⟨m', hm', rfl⟩ := Option.map_eq_some_iff.1 h
        intro j hj
        have hj64 : j < 64 := BitVec.lt_of_getLsbD hj
        rw [Mask.getLsbD_insert hj64, Bool.or_eq_true, decide_eq_true_eq] at hj
        rcases hj with hj | rfl
        · exact ih hm' j hj
        · exact List.findIdx_lt_length_of_exists (by simpa using hany)
      · cases h

theorem compileProps_grows {compile : List SchemaNode → Json → List SchemaNode × NodeId}
    (ms : List (List UInt8 × Json))
    (hcompile : ∀ m ∈ ms, ∀ nodes : List SchemaNode, 0 < nodes.length →
      (∀ node ∈ nodes, NodeWf nodes.length node) → Grows nodes (compile nodes m.2))
    (hpos : 0 < nodes.length) (hwf : ∀ node ∈ nodes, NodeWf nodes.length node) :
    let p := compileProps compile nodes ms
    nodes <+: p.1 ∧ (∀ node ∈ p.1, NodeWf p.1.length node) ∧
      (∀ q ∈ p.2, q.2 < p.1.length) ∧ p.2.map Prod.fst = ms.map Prod.fst := by
  induction ms generalizing nodes with
  | nil => exact ⟨List.prefix_rfl, hwf, by simp [compileProps], rfl⟩
  | cons m ms ih =>
      obtain ⟨name, sub⟩ := m
      have hc := hcompile (name, sub) (by simp) nodes hpos hwf
      have hpos' : 0 < (compile nodes sub).1.length := lt_of_lt_of_le hpos hc.pre.length_le
      obtain ⟨hpre, hwf', hids, hkeys⟩ :=
        ih (fun m hm => hcompile m (List.mem_cons_of_mem _ hm)) hpos' hc.wf
      refine ⟨hc.pre.trans hpre, hwf', ?_, by simp [compileProps, hkeys]⟩
      intro q hq
      simp only [compileProps, List.mem_cons] at hq
      rcases hq with rfl | hq
      · exact lt_of_lt_of_le hc.id_lt hpre.length_le
      · exact hids q hq

theorem compileObject_grows {compile : List SchemaNode → Json → List SchemaNode × NodeId}
    {obj : List (List UInt8 × Json)} (hobj : Json.Wf (.obj obj))
    (hcompile : ∀ sub : Json, sub.Wf → ∀ nodes : List SchemaNode, 0 < nodes.length →
      (∀ node ∈ nodes, NodeWf nodes.length node) → Grows nodes (compile nodes sub))
    (hpos : 0 < nodes.length) (hwf : ∀ node ∈ nodes, NodeWf nodes.length node) :
    Grows nodes (compileObject compile nodes obj) := by
  have hprops : ∃ ms, ((Json.get? obj (bytesOf "properties")).bind asObject).getD [] = ms ∧
      (ms.map Prod.fst).Nodup ∧ ∀ m ∈ ms, m.2.Wf := by
    refine ⟨_, rfl, ?_⟩
    cases hget : (Json.get? obj (bytesOf "properties")).bind asObject with
    | none => simp
    | some ms =>
        obtain ⟨j, hj, hms⟩ := Option.bind_eq_some_iff.1 hget
        cases hobj with
        | obj _ hkeys h =>
            have hjwf := h _ (Json.mem_of_get? hj)
            cases hjwf with
            | obj ms' hk hsub =>
                cases hms
                exact ⟨hk, hsub⟩
            | _ => cases hms
  obtain ⟨ms, hms, hkeys, hsub⟩ := hprops
  unfold compileObject
  simp only [hms]
  split
  · exact grows_any hpos hwf
  next hsize =>
    obtain ⟨hpre, hwf', hids, hnames⟩ :=
      compileProps_grows ms (fun m hm => hcompile m.2 (hsub m hm)) hpos hwf
    have hpos' := lt_of_lt_of_le hpos hpre.length_le
    cases hmask : requiredMask (compileProps compile nodes ms).2
        (((Json.get? obj (bytesOf "required")).bind asArray).getD []) with
    | none => exact ⟨hpre, hwf', hpos'⟩
    | some mask =>
        have hsize' : (compileProps compile nodes ms).2.length ≤ 64 := by
          rw [← List.length_map (f := Prod.fst), hnames, List.length_map]
          omega
        have hpush : Grows (compileProps compile nodes ms).1 (push (compileProps compile nodes ms).1
            (.object (compileProps compile nodes ms).2 mask
              (match Json.get? obj (bytesOf "additionalProperties") with
                | some (.bool false) => false
                | _ => true))) :=
          grows_push hwf' ⟨hsize', by rw [hnames]; exact hkeys, hids, requiredMask_lt hmask⟩
        exact ⟨hpre.trans hpush.pre, hpush.wf, hpush.id_lt⟩

theorem field_wf {j v : Json} {k : List UInt8} (hj : j.Wf) (h : field j k = some v) : v.Wf := by
  obtain ⟨ms, hms, hget⟩ := Option.bind_eq_some_iff.1 h
  cases hj with
  | obj ms' hkeys hsub =>
      cases hms
      exact hsub _ (Json.mem_of_get? hget)
  | _ => cases hms

theorem resolveRef_wf {root target : Json} {r : List UInt8} (hroot : root.Wf)
    (h : resolveRef root r = some target) : target.Wf := by
  have hunder : ∀ pre key : String, ((stripPrefix (bytesOf pre) r).bind fun name =>
      (field root (bytesOf key)).bind (field · name)) = some target → target.Wf := by
    intro pre key h
    obtain ⟨name, -, h⟩ := Option.bind_eq_some_iff.1 h
    obtain ⟨defs, hdefs, h⟩ := Option.bind_eq_some_iff.1 h
    exact field_wf (field_wf hroot hdefs) h
  rcases Option.or_eq_some_iff.1 h with h | ⟨-, h⟩
  · exact hunder _ _ h
  · exact hunder _ _ h

theorem compileNode_grows {root : Json} (hroot : root.Wf) (fuel : Nat) {schema : Json}
    (hschema : schema.Wf) (hpos : 0 < nodes.length)
    (hwf : ∀ node ∈ nodes, NodeWf nodes.length node) :
    Grows nodes (compileNode root fuel nodes schema) := by
  induction fuel generalizing nodes schema with
  | zero => exact grows_any hpos hwf
  | succ fuel ih =>
      unfold compileNode
      cases hschema with
      | obj obj hkeys hsub =>
          simp only [asObject]
          split
          · split
            next target htarget => exact ih (resolveRef_wf hroot htarget) hpos hwf
            · exact grows_any hpos hwf
          · split
            next values hvalues =>
              obtain ⟨j, hj, hv⟩ := Option.bind_eq_some_iff.1 hvalues
              have hjwf := hsub _ (Json.mem_of_get? hj)
              cases hjwf with
              | arr xs hxs =>
                  cases hv
                  exact compileEnum_grows hpos hwf hxs
              | _ => cases hv
            · split
              · exact grows_any hpos hwf
              · split
                · exact compileObject_grows (.obj obj hkeys hsub)
                    (fun sub hsub nodes hpos hwf => ih hsub hpos hwf) hpos hwf
                · split
                  · split
                    next items hitems =>
                      have hc := ih (hsub _ (Json.mem_of_get? hitems)) hpos hwf
                      exact hc.trans (grows_push hc.wf hc.id_lt)
                    · exact grows_push hwf hpos
                  · repeat' split
                    all_goals first | exact grows_push hwf trivial | exact grows_any hpos hwf
      | _ => exact grows_any hpos hwf

/-- What every compiled arena is: its nodes are well formed and its first node is `Any`. -/
structure Wf (a : SchemaArena) : Prop where
  node_wf : ∀ id, NodeWf a.nodes.length (a.node id)
  node_any : a.node anyId = .any

theorem wf_of_nodes {a : SchemaArena} (h : ∀ node ∈ a.nodes, NodeWf a.nodes.length node)
    (hpre : [.any] <+: a.nodes) : a.Wf := by
  constructor
  · intro id
    unfold node
    rw [List.getD_eq_getElem?_getD]
    cases hget : a.nodes[id]? with
    | none => trivial
    | some node => exact h node (List.mem_of_getElem? hget)
  · obtain ⟨rest, hrest⟩ := hpre
    simp [node, anyId, ← hrest]

theorem compile_wf {schema : Json} (h : schema.Wf) : (compile schema).Wf := by
  have hg : Grows [.any] (compileNode schema 33 [.any] schema) :=
    compileNode_grows h 33 h (by simp) (by simp [NodeWf])
  unfold compile
  simp only
  split
  · refine wf_of_nodes (fun node hnode => ?_) (hg.pre.trans (List.prefix_append _ _))
    rcases List.mem_append.1 hnode with hnode | hnode
    · exact (hg.wf node hnode).mono (by simp)
    · rw [List.mem_singleton.1 hnode]; trivial
  · exact wf_of_nodes hg.wf hg.pre

theorem unconstrained_wf : unconstrained.Wf :=
  wf_of_nodes (by simp [unconstrained, NodeWf]) List.prefix_rfl

end SchemaArena

end Oxydllm.Constrain
