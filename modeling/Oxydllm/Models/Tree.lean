/-
# Oxydllm.Models.Tree — the file system: what a tree may look like, and where paths of names lead in it.
-/
import Oxydllm.Models.Loader

namespace Oxydllm.Models

open Hub (Bytes)
open PathSteps (Step follow)

/-! ## Trees -/

/-- What a file or directory may be called. -/
structure IsName (n : Bytes) : Prop where
  ne_nil : n ≠ []
  no_slash : slash ∉ n
  ne_dot : n ≠ [dot]
  ne_up : n ≠ [dot, dot]

/-- A file system: names are names, and each once in a directory. -/
inductive Node.Wf : Node → Prop where
  | file (content : Bytes) : Node.Wf (.file content)
  | dir {es : List (Bytes × Node)} : (es.map (·.1)).Nodup → (∀ e ∈ es, IsName e.1) → (∀ e ∈ es, Node.Wf e.2) →
      Node.Wf (.dir es)

theorem lookup_of_mem {α : Type} {es : List (Bytes × α)} (hnodup : (es.map (·.1)).Nodup) {n : Bytes} {x : α}
    (h : (n, x) ∈ es) : es.lookup n = some x := by
  obtain ⟨front, back, rfl⟩ := List.append_of_mem h
  rw [List.map_append, List.nodup_append] at hnodup
  refine List.lookup_eq_some_iff.2 ⟨front, back, rfl, fun e he => ?_⟩
  rw [bne_iff_ne]
  exact (hnodup.2.2 e.1 (List.mem_map_of_mem he) n List.mem_cons_self).symm

theorem mem_of_lookup {α : Type} {es : List (Bytes × α)} {n : Bytes} {x : α} (h : es.lookup n = some x) :
    (n, x) ∈ es := by
  obtain ⟨front, back, rfl, -⟩ := List.lookup_eq_some_iff.1 h
  exact List.mem_append_right _ List.mem_cons_self

theorem Node.get?_snoc (root : Node) (loc : List Bytes) (n : Bytes) :
    root.get? (loc ++ [n]) = (root.get? loc).bind (Node.child · n) := by
  unfold Node.get?
  rw [List.foldlM_append]
  cases List.foldlM Node.child root loc with
  | none => rfl
  | some d =>
      show List.foldlM Node.child d [n] = Node.child d n
      rw [List.foldlM_cons]
      cases Node.child d n <;> rfl

theorem Node.Wf.child {d c : Node} {n : Bytes} (h : d.Wf) (hc : d.child n = some c) : c.Wf := by
  cases h with
  | file content => cases hc
  | dir _ _ hchildren => exact hchildren _ (mem_of_lookup hc)

theorem Node.Wf.get? {root d : Node} {loc : List Bytes} (h : root.Wf) (hd : root.get? loc = some d) : d.Wf := by
  induction loc using List.reverseRecOn generalizing d with
  | nil =>
      cases hd
      exact h
  | append_singleton loc n ih =>
      rw [Node.get?_snoc, Option.bind_eq_some_iff] at hd
      obtain ⟨d', hd', hc⟩ := hd
      exact (ih hd').child hc

theorem Node.Wf.name {d : Node} (h : d.Wf) {e : Bytes × Node} (he : e ∈ entries d) : IsName e.1 := by
  cases h with
  | file content => cases he
  | dir _ hnames _ => exact hnames e he

theorem Node.Wf.nodup {d : Node} (h : d.Wf) : ((entries d).map (·.1)).Nodup := by
  cases h with
  | file content => exact List.nodup_nil
  | dir hnodup _ _ => exact hnodup

theorem Node.Wf.child_of_mem {d : Node} (h : d.Wf) {e : Bytes × Node} (he : e ∈ entries d) :
    d.child e.1 = some e.2 := by
  cases h with
  | file content => cases he
  | dir hnodup _ _ => exact lookup_of_mem hnodup he

theorem Node.Wf.subdirs_nodup {d : Node} (h : d.Wf) : ((subdirs d).map (·.1)).Nodup :=
  h.nodup.sublist (List.filter_sublist.map _)

theorem mem_subdirs {d : Node} {e : Bytes × Node} : e ∈ subdirs d ↔ e ∈ entries d ∧ e.2.isDir = true := List.mem_filter

/-- Each name leads one step down. -/
theorem IsName.step {n : Bytes} (h : IsName n) : stepOf n = some (.down n) := by
  unfold stepOf
  rw [if_neg fun hc => hc.elim h.ne_nil h.ne_dot, if_neg h.ne_up]

theorem splitOnce_append {a : Bytes} (h : slash ∉ a) (b : Bytes) : splitOnce (a ++ slash :: b) = some (a, b) := by
  induction a with
  | nil => exact if_pos rfl
  | cons x a ih =>
      rw [List.mem_cons, not_or] at h
      rw [List.cons_append, splitOnce, if_neg (Ne.symm h.1), ih h.2]
      rfl

theorem splitOnce_none {a : Bytes} (h : slash ∉ a) : splitOnce a = none := by
  induction a with
  | nil => rfl
  | cons x a ih =>
      rw [List.mem_cons, not_or] at h
      rw [splitOnce, if_neg (Ne.symm h.1), ih h.2]
      rfl

/-! ## Paths of names -/

theorem splitAt_of_not_mem {sep : UInt8} {s : Bytes} (h : sep ∉ s) : splitAt sep s = [s] := by
  induction s with
  | nil => rfl
  | cons b s ih =>
      rw [List.mem_cons, not_or] at h
      rw [splitAt, if_neg (Ne.symm h.1), ih h.2]

/-- A name is at most one step. -/
theorem steps_of_not_mem {name : Bytes} (h : slash ∉ name) : steps name = (stepOf name).toList := by
  unfold steps
  rw [splitAt_of_not_mem h, List.filterMap_cons]
  cases stepOf name <;> rfl

theorem not_isAbsolute {name : Bytes} (h : slash ∉ name) : ¬ isAbsolute name = true := by
  unfold isAbsolute
  intro habs
  exact h (List.mem_of_mem_head? (eq_of_beq habs))

theorem IsName.steps {n : Bytes} (h : IsName n) : steps n = [.down n] := by
  rw [steps_of_not_mem h.no_slash, h.step]
  rfl

theorem IsName.locate {n : Bytes} (h : IsName n) (base : List Bytes) : locate base n = base ++ [n] := by
  unfold Models.locate
  rw [if_neg (not_isAbsolute h.no_slash), h.steps]
  rfl

theorem IsName.find? {n : Bytes} (h : IsName n) (root : Node) (base : List Bytes) :
    root.find? base n = root.get? (base ++ [n]) := by
  unfold Node.find?
  rw [if_neg (not_isAbsolute h.no_slash), h.steps, Node.reach]
  cases hbase : root.get? base with
  | none => rw [Node.get?_snoc, hbase, Option.bind_none]
  | some d =>
      cases d with
      | file content =>
          rw [Node.get?_snoc, hbase]
          rfl
      | dir es => rfl

end Oxydllm.Models
