/-
# Oxydllm.Constrain.Faithful — where `SchemaArena::compile` puts the nodes of a schema.

`Form` is what one level of a schema asks for. `Built` lays the unfolding of a schema out in an arena:
every sub-schema owns a stretch `lo ..< hi` of the node vector, the stretches of the children of a node
follow one another, the node itself comes last, and every child id is the position of the child's own
node. `built` counts the nodes of the unfolding.

An id is a `u16`, so the layout is right exactly as long as the unfolding has fewer than 2¹⁶ - 1 nodes.
-/
import Oxydllm.Constrain.Shape
import Oxydllm.Lib.Traverse

namespace Oxydllm.Constrain

open JsonText

namespace SchemaArena

/-! ## One level of a schema -/

/-- What a schema asks the compiler to build. -/
inductive Form where
  /-- Nothing the compiler understands. -/
  | any
  | ref (target : Json)
  | leaf (node : SchemaNode)
  | array (items : Option Json)
  | object (props : List (List UInt8 × Json)) (required : List Json) (additional : Bool)

def formObject (obj : List (List UInt8 × Json)) : Form :=
  let properties := ((Json.get? obj (bytesOf "properties")).bind asObject).getD []
  if properties.length > 64 then .any
  else
    .object properties (((Json.get? obj (bytesOf "required")).bind asArray).getD [])
      (match Json.get? obj (bytesOf "additionalProperties") with
        | some (.bool false) => false
        | _ => true)

def formEnum (values : List Json) : Form :=
  if values.isEmpty || values.length > 64 then .any
  else if values.any isContainer then .any
  else .leaf (.enum (values.map Json.toVec))

def form (root schema : Json) : Form :=
  match asObject schema with
  | none => .any
  | some obj =>
      match (Json.get? obj (bytesOf "$ref")).bind asStr with
      | some r => ((resolveRef root r).map Form.ref).getD .any
      | none =>
          match (Json.get? obj (bytesOf "enum")).bind asArray with
          | some values => formEnum values
          | none =>
              let has (key : String) : Bool := (Json.get? obj (bytesOf key)).isSome
              if has "anyOf" || has "oneOf" || has "allOf" then .any
              else
                let ty := (Json.get? obj (bytesOf "type")).bind asStr
                if ty = some (bytesOf "object") ∨ (ty = none ∧ has "properties") then formObject obj
                else if ty = some (bytesOf "array") then .array (Json.get? obj (bytesOf "items"))
                else if ty = some (bytesOf "string") then .leaf .str
                else if ty = some (bytesOf "number") then .leaf (.number false)
                else if ty = some (bytesOf "integer") then .leaf (.number true)
                else if ty = some (bytesOf "boolean") then .leaf .boolean
                else if ty = some (bytesOf "null") then .leaf .null
                else .any

/-- What the compiler does with a form, given the compilation of the sub-schemas. -/
def compileForm (compile : List SchemaNode → Json → List SchemaNode × NodeId)
    (nodes : List SchemaNode) : Form → List SchemaNode × NodeId
  | .any => (nodes, anyId)
  | .ref target => compile nodes target
  | .leaf node => push nodes node
  | .array none => push nodes (.array anyId)
  | .array (some items) => push (compile nodes items).1 (.array (compile nodes items).2)
  | .object props required additional =>
      let p := compileProps compile nodes props
      match requiredMask p.2 required with
      | none => (p.1, anyId)
      | some mask => push p.1 (.object p.2 mask additional)

theorem compileObject_form (compile : List SchemaNode → Json → List SchemaNode × NodeId)
    (nodes : List SchemaNode) (obj : List (List UInt8 × Json)) :
    compileObject compile nodes obj = compileForm compile nodes (formObject obj) := by
  unfold compileObject formObject
  simp only
  split
  · rfl
  · rfl

theorem compileEnum_form (compile : List SchemaNode → Json → List SchemaNode × NodeId)
    (nodes : List SchemaNode) (values : List Json) :
    compileEnum nodes values = compileForm compile nodes (formEnum values) := by
  unfold compileEnum formEnum
  split
  · rfl
  · split <;> rfl

/-- The compiler is driven by the form alone. -/
theorem compileNode_form (root : Json) (fuel : Nat) (nodes : List SchemaNode) (schema : Json) :
    compileNode root (fuel + 1) nodes schema =
      compileForm (compileNode root fuel) nodes (form root schema) := by
  unfold compileNode form
  cases asObject schema with
  | none => rfl
  | some obj =>
      simp only
      cases (Json.get? obj (bytesOf "$ref")).bind asStr with
      | some r =>
          simp only
          cases resolveRef root r <;> rfl
      | none =>
          simp only
          cases (Json.get? obj (bytesOf "enum")).bind asArray with
          | some values => exact compileEnum_form (compileNode root fuel) nodes values
          | none =>
              simp only
              split
              · rfl
              · split
                · exact compileObject_form (compileNode root fuel) nodes obj
                · split
                  · cases Json.get? obj (bytesOf "items") <;> rfl
                  · repeat' split
                    all_goals rfl

/-! ## The layout of an unfolding -/

/-- The properties of an object in consecutive stretches, `P` being the layout of one of them. -/
def BuiltProps (P : Json → Nat → Nat → NodeId → Prop) :
    List (List UInt8 × Json) → List (List UInt8 × NodeId) → Nat → Nat → Prop
  | [], props, lo, hi => props = [] ∧ hi = lo
  | (name, sub) :: ms, props, lo, hi => ∃ id rest mid,
      props = (name, id) :: rest ∧ P sub lo mid id ∧ BuiltProps P ms rest mid hi

/-- `Built a root fuel schema lo hi id`: the nodes `lo ..< hi` of `a` are those of the unfolding of
`schema` down to depth `33 - fuel`, and `id` is the position of the node of `schema` itself, or `anyId`
where the schema is unsupported. -/
def Built (a : SchemaArena) (root : Json) : Nat → Json → Nat → Nat → NodeId → Prop
  | 0, _, lo, hi, id => hi = lo ∧ id = anyId
  | fuel + 1, schema, lo, hi, id =>
      match form root schema with
      | .any => hi = lo ∧ id = anyId
      | .ref target => Built a root fuel target lo hi id
      | .leaf node => hi = lo + 1 ∧ id = lo ∧ a.nodes[lo]? = some node
      | .array none => hi = lo + 1 ∧ id = lo ∧ a.nodes[lo]? = some (.array anyId)
      | .array (some items) => ∃ mid child, Built a root fuel items lo mid child ∧
          hi = mid + 1 ∧ id = mid ∧ a.nodes[mid]? = some (.array child)
      | .object ms required additional => ∃ mid props,
          BuiltProps (Built a root fuel) ms props lo mid ∧
            match requiredMask props required with
            | none => hi = mid ∧ id = anyId
            | some mask => hi = mid + 1 ∧ id = mid ∧
                a.nodes[mid]? = some (.object props mask additional)

/-- The number of nodes the unfolding of a schema has. -/
def built (root : Json) : Nat → Json → Nat
  | 0, _ => 0
  | fuel + 1, schema =>
      match form root schema with
      | .any => 0
      | .ref target => built root fuel target
      | .leaf _ => 1
      | .array none => 1
      | .array (some items) => built root fuel items + 1
      | .object ms required _ =>
          (ms.map fun m => built root fuel m.2).sum +
            if (requiredMask (ms.map fun m => (m.1, anyId)) required).isSome then 1 else 0

/-- Whether some operation of `compile` panics: the subtraction `len as u16 - 1` underflows, the
root id is out of range, or the shared node is not `Any` (`unreachable!`). -/
def compilePanics (schema : Json) : Bool :=
  let c := compileNode schema 33 [.any] schema
  nodeId c.1.length == 0 ||
    c.2 != nodeId (c.1.length - 1) &&
      match c.1[c.2]? with
      | some .any => false
      | _ => true

/-- The compiled arena is the unfolding of the schema: no panic, `root()` is the last node and is the
one built for the schema (a fresh `Any` when the schema itself compiles to the shared one), and below
it every child id is that of the node built for the corresponding sub-schema. -/
structure Faithful (schema : Json) : Prop where
  no_panic : compilePanics schema = false
  node_any : (compile schema).node anyId = .any
  root_last : (compile schema).root + 1 = (compile schema).nodes.length
  root_built : ∃ hi id, Built (compile schema) schema 33 schema 1 hi id ∧
    ((compile schema).root = id ∨
      id = anyId ∧ (compile schema).root = hi ∧ (compile schema).node hi = .any)

/-! ## A longer arena -/

theorem BuiltProps.mono {P Q : Json → Nat → Nat → NodeId → Prop}
    (hPQ : ∀ sub lo hi id, P sub lo hi id → Q sub lo hi id) {ms : List (List UInt8 × Json)}
    {props : List (List UInt8 × NodeId)} {lo hi : Nat} (h : BuiltProps P ms props lo hi) :
    BuiltProps Q ms props lo hi := by
  induction ms generalizing props lo with
  | nil => exact h
  | cons m ms ih =>
      obtain ⟨id, rest, mid, hprops, hsub, hrest⟩ := h
      exact ⟨id, rest, mid, hprops, hPQ _ _ _ _ hsub, ih hrest⟩

theorem getElem?_of_prefix {α : Type} {xs ys : List α} (h : xs <+: ys) {i : Nat} {x : α}
    (hx : xs[i]? = some x) : ys[i]? = some x := by
  obtain ⟨rest, rfl⟩ := h
  have hi : i < xs.length := (List.getElem?_eq_some_iff.1 hx).1
  rw [List.getElem?_append_left hi, hx]

/-- Pushing nodes moves nothing. -/
theorem Built.mono {a b : SchemaArena} (hab : a.nodes <+: b.nodes) {root : Json} {fuel : Nat}
    {schema : Json} {lo hi : Nat} {id : NodeId} (h : Built a root fuel schema lo hi id) :
    Built b root fuel schema lo hi id := by
  induction fuel generalizing schema lo hi id with
  | zero => exact h
  | succ fuel ih =>
      unfold Built at h ⊢
      cases hform : form root schema with
      | any => simpa only [hform] using h
      | ref target =>
          simp only [hform] at h ⊢
          exact ih h
      | leaf node =>
          simp only [hform] at h ⊢
          obtain ⟨hhi, hid, hnode⟩ := h
          exact ⟨hhi, hid, getElem?_of_prefix hab hnode⟩
      | array items =>
          cases items with
          | none =>
              simp only [hform] at h ⊢
              obtain ⟨hhi, hid, hnode⟩ := h
              exact ⟨hhi, hid, getElem?_of_prefix hab hnode⟩
          | some items =>
              simp only [hform] at h ⊢
              obtain ⟨mid, child, hsub, hhi, hid, hnode⟩ := h
              exact ⟨mid, child, ih hsub, hhi, hid, getElem?_of_prefix hab hnode⟩
      | object ms required additional =>
          simp only [hform] at h ⊢
          obtain ⟨mid, props, hprops, hnode⟩ := h
          refine ⟨mid, props, hprops.mono fun _ _ _ _ hsub => ih hsub, ?_⟩
          cases hmask : requiredMask props required with
          | none => simpa only [hmask] using hnode
          | some mask =>
              simp only [hmask] at hnode ⊢
              exact ⟨hnode.1, hnode.2.1, getElem?_of_prefix hab hnode.2.2⟩

theorem Built.append {nodes : List SchemaNode} {root : Json} {fuel : Nat} {schema : Json}
    {lo hi : Nat} {id : NodeId} (h : Built ⟨nodes⟩ root fuel schema lo hi id)
    (rest : List SchemaNode) : Built ⟨nodes ++ rest⟩ root fuel schema lo hi id :=
  h.mono (List.prefix_append nodes rest)

/-- A node comes last in its stretch. -/
theorem Built.id_last {a : SchemaArena} {root : Json} {fuel : Nat} {schema : Json} {lo hi : Nat}
    {id : NodeId} (h : Built a root fuel schema lo hi id) : id = anyId ∨ id + 1 = hi := by
  induction fuel generalizing schema lo hi id with
  | zero => exact .inl h.2
  | succ fuel ih =>
      unfold Built at h
      split at h
      · exact .inl h.2
      · exact ih h
      · exact .inr (by rw [h.1, h.2.1])
      · exact .inr (by rw [h.1, h.2.1])
      · obtain ⟨mid, child, -, hhi, hid, -⟩ := h
        exact .inr (by rw [hhi, hid])
      · obtain ⟨mid, props, -, h⟩ := h
        split at h
        · exact .inl h.2
        · exact .inr (by rw [h.1, h.2.1])

/-! ## The compiler lays out the unfolding -/

/-- A compilation that pushes `n` nodes lays them out as `P` says, as long as ids do not wrap. -/
structure Lays (P : SchemaArena → Nat → Nat → NodeId → Prop) (n : Nat) (nodes : List SchemaNode)
    (c : List SchemaNode × NodeId) : Prop where
  pre : nodes <+: c.1
  len : c.1.length = nodes.length + n
  built : c.1.length ≤ 65536 → P ⟨c.1⟩ nodes.length c.1.length c.2

theorem nodeId_eq {n : Nat} (h : n < 65536) : nodeId n = n := Nat.mod_eq_of_lt h

theorem push_pre (nodes : List SchemaNode) (node : SchemaNode) : nodes <+: (push nodes node).1 :=
  List.prefix_append _ _

theorem push_len (nodes : List SchemaNode) (node : SchemaNode) :
    (push nodes node).1.length = nodes.length + 1 := by
  simp [push]

theorem push_get (nodes : List SchemaNode) (node : SchemaNode) :
    (push nodes node).1[nodes.length]? = some node := by
  simp [push]

theorem push_id {nodes : List SchemaNode} {node : SchemaNode}
    (h : (push nodes node).1.length ≤ 65536) : (push nodes node).2 = nodes.length := by
  rw [push_len] at h
  exact nodeId_eq (Nat.lt_of_succ_le h)

theorem requiredMask_congr {ps qs : List (List UInt8 × NodeId)}
    (h : ps.map Prod.fst = qs.map Prod.fst) (rs : List Json) :
    requiredMask ps rs = requiredMask qs rs := by
  induction rs with
  | nil => rfl
  | cons r rs ih =>
      have hany : ∀ name, ps.any (·.1 == name) = qs.any (·.1 == name) := by
        intro name
        have := congrArg (fun l => List.any l (· == name)) h
        simpa only [List.any_map, Function.comp_def] using this
      have hidx : ∀ name, ps.findIdx (·.1 == name) = qs.findIdx (·.1 == name) := by
        intro name
        have := congrArg (fun l => List.findIdx (· == name) l) h
        simpa only [List.findIdx_map, Function.comp_def] using this
      unfold requiredMask
      simp only [hany, hidx, ih]

/-- The loop over the properties lays out one after the other. -/
theorem compileProps_lays {compile : List SchemaNode → Json → List SchemaNode × NodeId}
    {P : SchemaArena → Json → Nat → Nat → NodeId → Prop} {count : Json → Nat}
    (hmono : ∀ {a b : SchemaArena} {sub lo hi id}, a.nodes <+: b.nodes → P a sub lo hi id →
      P b sub lo hi id)
    (hcompile : ∀ nodes sub, Lays (P · sub) (count sub) nodes (compile nodes sub))
    (nodes : List SchemaNode) (ms : List (List UInt8 × Json)) :
    let p := compileProps compile nodes ms
    nodes <+: p.1 ∧ p.1.length = nodes.length + (ms.map fun m => count m.2).sum ∧
      p.2.map Prod.fst = ms.map Prod.fst ∧
      (p.1.length ≤ 65536 → BuiltProps (P ⟨p.1⟩) ms p.2 nodes.length p.1.length) := by
  induction ms generalizing nodes with
  | nil => exact ⟨List.prefix_rfl, by simp [compileProps], rfl, fun _ => ⟨rfl, rfl⟩⟩
  | cons m ms ih =>
      obtain ⟨name, sub⟩ := m
      obtain ⟨hpre, hlen, hbuilt⟩ := hcompile nodes sub
      obtain ⟨hpre', hlen', hnames, hbuilt'⟩ := ih (compile nodes sub).1
      refine ⟨hpre.trans hpre', ?_, by simpa [compileProps] using hnames, ?_⟩
      · show (compileProps compile (compile nodes sub).1 ms).1.length = _
        rw [hlen', hlen]
        simp only [List.map_cons, List.sum_cons]
        omega
      · intro hfit
        refine ⟨_, _, _, rfl, ?_, hbuilt' hfit⟩
        -- the nodes of the first property are already in place when the rest is compiled
        exact hmono hpre' (hbuilt (le_trans hpre'.length_le hfit))

theorem compileNode_lays (root : Json) (fuel : Nat) (nodes : List SchemaNode) (schema : Json) :
    Lays (fun a => Built a root fuel schema) (built root fuel schema) nodes
      (compileNode root fuel nodes schema) := by
  induction fuel generalizing nodes schema with
  | zero => exact ⟨List.prefix_rfl, rfl, fun _ => ⟨rfl, rfl⟩⟩
  | succ fuel ih =>
      rw [compileNode_form]
      cases hform : form root schema with
      | any =>
          refine ⟨List.prefix_rfl, ?_, ?_⟩
          · simp [compileForm, built, hform]
          · intro _
            simp only [Built, hform]
            exact ⟨rfl, rfl⟩
      | ref target =>
          obtain ⟨hpre, hlen, hbuilt⟩ := ih nodes target
          refine ⟨hpre, ?_, ?_⟩
          · simpa [compileForm, built, hform] using hlen
          · intro hfit
            simp only [Built, hform]
            exact hbuilt hfit
      | leaf node =>
          refine ⟨push_pre _ _, ?_, ?_⟩
          · simp only [built, hform]
            exact push_len nodes node
          · intro hfit
            simp only [Built, hform]
            exact ⟨push_len nodes node, push_id hfit, push_get nodes node⟩
      | array items =>
          cases items with
          | none =>
              refine ⟨push_pre _ _, ?_, ?_⟩
              · simp only [built, hform]
                exact push_len nodes _
              · intro hfit
                simp only [Built, hform]
                exact ⟨push_len nodes _, push_id hfit, push_get nodes _⟩
          | some items =>
              obtain ⟨hpre, hlen, hbuilt⟩ := ih nodes items
              have hpush := push_pre (compileNode root fuel nodes items).1
                (.array (compileNode root fuel nodes items).2)
              refine ⟨hpre.trans hpush, ?_, ?_⟩
              · simp only [built, hform]
                show (push _ _).1.length = _
                rw [push_len, hlen]
                omega
              · intro hfit
                have hsub := hbuilt (le_trans hpush.length_le hfit)
                simp only [Built, hform]
                exact ⟨_, _, hsub.mono hpush, push_len _ _, push_id hfit, push_get _ _⟩
      | object ms required additional =>
          obtain ⟨hpre, hlen, hnames, hbuilt⟩ := compileProps_lays
            (P := fun a sub lo hi id => Built a root fuel sub lo hi id)
            (fun hab h => h.mono hab) (fun nodes sub => ih nodes sub) nodes ms
          have hmask : requiredMask (compileProps (compileNode root fuel) nodes ms).2 required =
              requiredMask (ms.map fun m => (m.1, anyId)) required :=
            requiredMask_congr (by rw [hnames]; simp [Function.comp_def]) required
          cases hreq : requiredMask (compileProps (compileNode root fuel) nodes ms).2 required with
          | none =>
              have hc : compileForm (compileNode root fuel) nodes (.object ms required additional) =
                  ((compileProps (compileNode root fuel) nodes ms).1, anyId) := by
                simp only [compileForm, hreq]
              rw [hc]
              refine ⟨hpre, ?_, ?_⟩
              · simpa [built, hform, ← hmask, hreq] using hlen
              · intro hfit
                simp only [Built, hform]
                refine ⟨_, _, hbuilt hfit, ?_⟩
                simp only [hreq, and_self]
          | some mask =>
              have hc : compileForm (compileNode root fuel) nodes (.object ms required additional) =
                  push (compileProps (compileNode root fuel) nodes ms).1
                    (.object (compileProps (compileNode root fuel) nodes ms).2 mask additional) := by
                simp only [compileForm, hreq]
              rw [hc]
              have hpush := push_pre (compileProps (compileNode root fuel) nodes ms).1
                (.object (compileProps (compileNode root fuel) nodes ms).2 mask additional)
              refine ⟨hpre.trans hpush, ?_, ?_⟩
              · rw [push_len, hlen]
                simp only [built, hform, ← hmask, hreq]
                exact Nat.add_assoc _ _ _
              · intro hfit
                have hsub := hbuilt (le_trans hpush.length_le hfit)
                simp only [Built, hform]
                refine ⟨_, _, hsub.mono fun _ _ _ _ h => h.mono hpush, ?_⟩
                simp only [hreq]
                exact ⟨push_len _ _, push_id hfit, push_get _ _⟩

/-! ## Faithful compilation -/

theorem compile_nodes_pre (schema : Json) :
    (compileNode schema 33 [.any] schema).1 <+: (compile schema).nodes := by
  unfold compile
  simp only
  split
  · exact List.prefix_append _ _
  · exact List.prefix_rfl

theorem built_lt_of_faithful {schema : Json} (h : Faithful schema) :
    built schema 33 schema < 65535 := by
  have hlen : (compileNode schema 33 [.any] schema).1.length = 1 + built schema 33 schema :=
    (compileNode_lays schema 33 [.any] schema).len
  -- an id is below 2¹⁶, and so is the last one
  have hroot : (compile schema).root < 65536 := Nat.mod_lt _ (by decide)
  have hfit : 1 + built schema 33 schema ≤ 65536 := by
    have hpre := (compile_nodes_pre schema).length_le
    rw [hlen, ← h.root_last] at hpre
    exact le_trans hpre (Nat.succ_le_of_lt hroot)
  -- with 2¹⁶ nodes the subtraction underflows
  have hpanic := h.no_panic
  simp only [compilePanics, Bool.or_eq_false_iff, beq_eq_false_iff_ne, hlen] at hpanic
  have hne : 1 + built schema 33 schema ≠ 65536 := by
    intro heq
    exact hpanic.1 (by rw [heq]; rfl)
  omega

/-- Compilation is faithful exactly when the unfolding of the schema, references replaced by their
targets down to depth 32, has fewer than 2¹⁶ - 1 nodes. -/
theorem compile_faithful_iff (schema : Json) :
    Faithful schema ↔ built schema 33 schema < 65535 := by
  have hlays := compileNode_lays schema 33 [.any] schema
  have hlen : (compileNode schema 33 [.any] schema).1.length = 1 + built schema 33 schema := hlays.len
  constructor
  · exact built_lt_of_faithful
  · intro h
    generalize hc : compileNode schema 33 [.any] schema = c at hlays hlen
    have hfit : c.1.length ≤ 65535 := by omega
    have hpos : 0 < c.1.length := by omega
    have hbuilt : Built ⟨c.1⟩ schema 33 schema 1 c.1.length c.2 :=
      hlays.built (le_trans hfit (by decide))
    have hany : c.1[0]? = some .any := getElem?_of_prefix hlays.pre rfl
    have hlast : nodeId (c.1.length - 1) = c.1.length - 1 := nodeId_eq (by omega)
    have hnpanic : nodeId c.1.length ≠ 0 := by
      rw [nodeId_eq (by omega)]
      exact Nat.ne_of_gt hpos
    by_cases hid : c.2 = c.1.length - 1
    · -- the node of the schema is the last one
      have hcomp : compile schema = ⟨c.1⟩ := by
        unfold compile
        simp only [hc, hlast, hid, ne_eq, not_true_eq_false, if_false]
      have hroot : (compile schema).root = c.1.length - 1 := by
        rw [hcomp]
        exact hlast
      refine ⟨?_, ?_, ?_, c.1.length, c.2, ?_, .inl ?_⟩
      · simp only [compilePanics, hc, hlast, hid]
        simpa using hnpanic
      · rw [hcomp]
        simp only [node, anyId, List.getD_eq_getElem?_getD, hany, Option.getD_some]
      · rw [hroot, hcomp]
        exact Nat.sub_add_cancel hpos
      · rw [hcomp]
        exact hbuilt
      · rw [hroot, hid]
    · -- the schema is unsupported, and a fresh `Any` is pushed
      have hzero : c.2 = anyId := by
        rcases hbuilt.id_last with h0 | h1
        · exact h0
        · exact absurd (Nat.eq_sub_of_add_eq h1) hid
      have hcomp : compile schema = ⟨c.1 ++ [.any]⟩ := by
        unfold compile
        simp only [hc, hlast, ne_eq, hid, not_false_eq_true, if_true]
      have hroot : (compile schema).root = c.1.length := by
        rw [hcomp]
        simp only [root, List.length_append, List.length_singleton, Nat.add_sub_cancel]
        exact nodeId_eq (by omega)
      refine ⟨?_, ?_, ?_, c.1.length, c.2, ?_, .inr ⟨hzero, hroot, ?_⟩⟩
      · simp only [compilePanics, hc, hzero, anyId, hany, Bool.and_false, Bool.or_false]
        exact beq_eq_false_iff_ne.2 hnpanic
      · rw [hcomp]
        have := getElem?_of_prefix (List.prefix_append c.1 [SchemaNode.any]) hany
        simp only [node, anyId, List.getD_eq_getElem?_getD, this, Option.getD_some]
      · rw [hroot, hcomp]
        simp
      · rw [hcomp]
        exact hbuilt.append [.any]
      · rw [hcomp]
        simp [node]

/-! ## A schema whose unfolding outgrows the id type -/

/-- 64 property names. -/
def wideNames : List (List UInt8) := (List.range 64).map fun i => [UInt8.ofNat (i + 48)]

/-- An object schema with 64 properties of one sub-schema. -/
def wideObject (sub : Json) : Json :=
  .obj [(bytesOf "type", .str (bytesOf "object")),
    (bytesOf "properties", .obj (wideNames.map fun name => (name, sub)))]

def refTo (r : String) : Json := .obj [(bytesOf "$ref", .str (bytesOf r))]

def stringSchema : Json := .obj [(bytesOf "type", .str (bytesOf "string"))]

/-- 64 references to an object of 64 references to an object of 64 strings. -/
def wideSchema : Json :=
  .obj [(bytesOf "type", .str (bytesOf "object")),
    (bytesOf "properties", .obj (wideNames.map fun name => (name, refTo "#/$defs/b"))),
    (bytesOf "$defs", .obj [([0x62], wideObject (refTo "#/$defs/c")), ([0x63], wideObject stringSchema)])]

theorem built_wide {root schema sub : Json} {additional : Bool} (fuel : Nat)
    (h : form root schema = .object (wideNames.map fun name => (name, sub)) [] additional) :
    built root (fuel + 1) schema = 64 * built root fuel sub + 1 := by
  have hsum : ((wideNames.map fun name => (name, sub)).map fun m => built root fuel m.2).sum =
      64 * built root fuel sub := by
    rw [List.map_map]
    show (wideNames.map fun _ => built root fuel sub).sum = _
    rw [List.map_const', List.sum_replicate, smul_eq_mul]
    rfl
  simp only [built, h, hsum, requiredMask, Option.isSome_some, if_true]

theorem built_ref {root target : Json} {r : String} (fuel : Nat)
    (h : form root (refTo r) = .ref target) :
    built root (fuel + 1) (refTo r) = built root fuel target := by
  simp only [built, h]

/-- 64 · (64 · (64 + 1) + 1) + 1 nodes. -/
theorem built_wideSchema : built wideSchema 33 wideSchema = 266305 := by
  have hstring : built wideSchema 28 stringSchema = 1 := rfl
  have hc : built wideSchema 30 (refTo "#/$defs/c") = 65 := by
    rw [@built_ref _ (wideObject stringSchema) _ 29 rfl,
      @built_wide _ _ stringSchema true 28 rfl, hstring]
  have hb : built wideSchema 32 (refTo "#/$defs/b") = 4161 := by
    rw [@built_ref _ (wideObject (refTo "#/$defs/c")) _ 31 rfl,
      @built_wide _ _ (refTo "#/$defs/c") true 30 rfl, hc]
  rw [@built_wide _ _ (refTo "#/$defs/b") true 32 rfl, hb]

section Accepted

variable {root : Json} {fuel : Nat}

theorem validateMembers_wide {validate : Json → List UInt8 → Check} {sub : Json}
    (h : ∀ path, validate sub path = .ok ()) (key : String) (path : List UInt8) :
    validateMembers validate key (.obj (wideNames.map fun name => (name, sub))) path = .ok () := by
  apply Traverse.forM_ok
  intro m hm
  obtain ⟨name, -, rfl⟩ := List.mem_map.1 hm
  exact h _

theorem validate_ref {r : String} {target : Json}
    (href : resolveSchemaRef (refTo r) root = some target)
    (h : ∀ path, validateSchemaShapeInner root .bestEffort fuel target path = .ok ())
    (path : List UInt8) :
    validateSchemaShapeInner root .bestEffort (fuel + 1) (refTo r) path = .ok () := by
  unfold validateSchemaShapeInner
  simp only [href]
  exact h path

theorem validate_string (path : List UInt8) :
    validateSchemaShapeInner root .bestEffort (fuel + 1) stringSchema path = .ok () := rfl

theorem validate_wide {sub : Json}
    (h : ∀ path, validateSchemaShapeInner root .bestEffort fuel sub path = .ok ())
    (path : List UInt8) :
    validateSchemaShapeInner root .bestEffort (fuel + 1) (wideObject sub) path = .ok () := by
  show (validateMembers (validateSchemaShapeInner root .bestEffort fuel) "properties"
    (.obj (wideNames.map fun name => (name, sub))) path >>= fun _ => .ok ()) = .ok ()
  rw [validateMembers_wide h]
  rfl

/-- An object schema with properties and a table of definitions. -/
theorem validate_tables {props defs : Json} {path : List UInt8}
    (hprops : validateMembers (validateSchemaShapeInner root .bestEffort fuel) "properties" props
      path = .ok ())
    (hdefs : validateMembers (validateSchemaShapeInner root .bestEffort fuel) "$defs" defs
      path = .ok ()) :
    validateSchemaShapeInner root .bestEffort (fuel + 1)
      (.obj [(bytesOf "type", .str (bytesOf "object")), (bytesOf "properties", props),
        (bytesOf "$defs", defs)]) path = .ok () := by
  show (validateMembers _ "properties" props path >>= fun _ =>
    validateMembers _ "$defs" defs path >>= fun _ => .ok ()) = .ok ()
  rw [hprops]
  show (validateMembers _ "$defs" defs path >>= fun _ => .ok ()) = .ok ()
  rw [hdefs]
  rfl

end Accepted

theorem wideSchema_accepted (path : List UInt8) :
    validateSchemaShape wideSchema .bestEffort path = .ok () := by
  have hc : ∀ fuel path, validateSchemaShapeInner wideSchema .bestEffort (fuel + 2)
      (wideObject stringSchema) path = .ok () :=
    fun fuel => validate_wide validate_string
  have hrefc : ∀ fuel path, validateSchemaShapeInner wideSchema .bestEffort (fuel + 3)
      (refTo "#/$defs/c") path = .ok () :=
    fun fuel => @validate_ref _ _ _ (wideObject stringSchema) rfl (hc fuel)
  have hb : ∀ fuel path, validateSchemaShapeInner wideSchema .bestEffort (fuel + 4)
      (wideObject (refTo "#/$defs/c")) path = .ok () :=
    fun fuel => validate_wide (hrefc fuel)
  have hrefb : ∀ fuel path, validateSchemaShapeInner wideSchema .bestEffort (fuel + 5)
      (refTo "#/$defs/b") path = .ok () :=
    fun fuel => @validate_ref _ _ _ (wideObject (refTo "#/$defs/c")) rfl (hb fuel)
  refine @validate_tables _ 64 _ _ _ (validateMembers_wide (hrefb 59) _ path) ?_
  apply Traverse.forM_ok
  intro m hm
  rcases List.mem_cons.1 hm with rfl | hm
  · exact hb 60 _
  · rw [List.mem_singleton.1 hm]
    exact hc 62 _

/-- The schema passes the check of the request, and its arena of 266306 nodes has ids that wrap. -/
theorem wideSchema_unfaithful :
    (∀ path, validateSchemaShape wideSchema .bestEffort path = .ok ()) ∧ ¬ Faithful wideSchema := by
  refine ⟨wideSchema_accepted, fun h => ?_⟩
  have := built_lt_of_faithful h
  rw [built_wideSchema] at this
  omega

end SchemaArena

end Oxydllm.Constrain
