/-
# Oxydllm.Models.Contained — which ids and file names lead out of the directory they are joined to.

An id is joined to the models directory as it is, and so is a file name of a repository to the directory of
its model. Both stay inside by what they spell, read step by step (`Remains`); an id of the namespace `..`
that leads to no model of its own is looked for beside the models directory. What `get_or_load` loads and
`rm` deletes is what the id resolves to.
-/
import Oxydllm.Models.Tree

namespace Oxydllm.Models

open PathSteps (Step Form form follow Inside Within)
open Hub (Bytes)

/-! ## The files that a pull takes -/

/-- `to_lowercase`; beyond ASCII only the Kelvin sign turns into a letter that the suffixes hold. -/
def toLowercase : Bytes → Bytes
  | 0xE2 :: 0x84 :: 0xAA :: s => 0x6B :: toLowercase s
  | b :: s => lower b :: toLowercase s
  | [] => []

def isRelevantFile (f : Bytes) : Bool :=
  if f.head? = some dot then false
  else
    let l := toLowercase f
    if slash ∈ f then (ascii ".json").isSuffixOf l
    else if l = ascii "consolidated.safetensors" || (ascii ".pth").isSuffixOf l || (ascii ".pt").isSuffixOf l ||
        (ascii ".bin").isSuffixOf l then false
    else
      (ascii ".json").isSuffixOf l || (ascii ".safetensors").isSuffixOf l || (ascii ".gguf").isSuffixOf l ||
        (ascii ".model").isSuffixOf l || (ascii ".tiktoken").isSuffixOf l || (ascii ".jinja").isSuffixOf l

/-- The paths that a pull into a directory writes to: the relevant files that the variant chosen and the files
already there leave to be taken, and the index. -/
def pullPaths (dest : List Bytes) (listing : List Bytes) (taken : Bytes → Bool) : List (List Bytes) :=
  (((listing.filter isRelevantFile).filter taken).map (locate dest)) ++ [dest ++ [ascii "gguf.index"]]

/-! ## Names that stay -/

/-- A path does not lead out of the directory it is joined to, nor to this directory. -/
def Remains (base : List Bytes) (path : Bytes) : Prop :=
  if isAbsolute path then Inside base (form (steps path)).down else Within base (steps path)

theorem inside_locate_iff (base : List Bytes) (path : Bytes) : Inside base (locate base path) ↔ Remains base path := by
  unfold locate Remains
  by_cases habs : isAbsolute path = true
  · rw [if_pos habs, if_pos habs, PathSteps.follow_eq]
    unfold Form.leads
    rw [List.take_nil, List.nil_append]
  · rw [if_neg habs, if_neg habs]
    exact PathSteps.inside_follow_iff base (steps path)

theorem locate_name (base : List Bytes) {name : Bytes} (h : slash ∉ name) :
    locate base name = follow base (stepOf name).toList := by
  unfold locate
  rw [if_neg (not_isAbsolute h), steps_of_not_mem h]

/-- Only `..` leads from a directory to what is beside it. -/
theorem locate_name_extends (base : List Bytes) {name : Bytes} (h : slash ∉ name) (hup : name ≠ [dot, dot]) :
    base <+: locate base name := by
  rw [locate_name base h]
  unfold stepOf
  rw [if_neg hup]
  split
  · exact List.prefix_rfl
  · exact List.prefix_append _ _

theorem splitOnce_spec {id front back : Bytes} (h : splitOnce id = some (front, back)) :
    id = front ++ slash :: back ∧ slash ∉ front := by
  induction id generalizing front with
  | nil => cases h
  | cons b id ih =>
      rw [splitOnce] at h
      split at h
      next hb =>
        cases h
        rw [hb]
        exact ⟨rfl, List.not_mem_nil⟩
      next hb =>
        rw [Option.map_eq_some_iff] at h
        obtain ⟨p, hp, heq⟩ := h
        cases heq
        obtain ⟨rfl, hnot⟩ := ih hp
        exact ⟨rfl, List.not_mem_cons_of_ne_of_not_mem (Ne.symm hb) hnot⟩

/-! ## Ids -/

/-- An id that leads to a model does not lead out of the models directory; and one of the namespace `..` that
leads to none is not found beside it. -/
structure Stays (root : Node) (base : List Bytes) (id : Bytes) : Prop where
  own : ∀ d, root.find? base id = some d → d.isDir = true → holdsModel d = true → Remains base id
  beside : (∀ d, root.find? base id = some d → d.isDir = true → holdsModel d = false) →
    ∀ localId, id = [dot, dot] ++ slash :: localId → base ≠ [] →
      ∀ d, root.find? base [dot, dot] = some d → d.isDir = true →
        ∀ name, searchIn d true localId ≠ some (some name)

/-- What an id resolves to is inside the models directory. -/
def Contained (root : Node) (base : List Bytes) (id : Bytes) : Prop :=
  ∀ loc, resolveModelPath root base id = some (some loc) → Inside base loc

/-- What is found in the models directory or in one of its namespaces. -/
theorem inside_found {base : List Bytes} {namespace_ : Bytes} (h : slash ∉ namespace_) (hup : namespace_ ≠ [dot, dot])
    (name : Bytes) : Inside base (locate base namespace_ ++ [name]) :=
  .child (locate_name_extends base h hup) name

theorem map_map_some {α γ : Type} {o : Option (Option α)} {f : α → γ} {y : γ} :
    o.map (Option.map f) = some (some y) ↔ ∃ x, o = some (some x) ∧ f x = y := by
  rw [Option.map_eq_some_iff]
  constructor
  · rintro ⟨found, rfl, hfound⟩
    obtain ⟨x, rfl, hx⟩ := Option.map_eq_some_iff.1 hfound
    exact ⟨x, rfl, hx⟩
  · rintro ⟨x, rfl, hx⟩
    exact ⟨some x, rfl, congrArg some hx⟩

/-- What is found in the parent is outside, unless the models directory is the root. -/
theorem beside_iff {base : List Bytes} (d : Node) (wanted : Bytes) :
    (∀ loc, (searchIn d true wanted).map (·.map fun name => locate base [dot, dot] ++ [name]) = some (some loc) →
      Inside base loc) ↔ (base ≠ [] → ∀ name, searchIn d true wanted ≠ some (some name)) := by
  constructor
  · intro h hbase name hname
    exact PathSteps.not_inside_beside hbase name (h _ (map_map_some.2 ⟨name, hname, rfl⟩))
  · intro h loc hloc
    obtain ⟨name, hname, rfl⟩ := map_map_some.1 hloc
    by_cases hbase : base = []
    · subst hbase
      exact .child List.prefix_rfl name
    · exact absurd hname (h hbase name)

/-- What the search finds of an id with no model of its own. -/
theorem search_iff (root : Node) (base : List Bytes) (id : Bytes) :
    (∀ loc, (match splitOnce id with
        | some (namespace_, localId) =>
            match (root.find? base namespace_).filter (·.isDir) with
            | none => some none
            | some d => (searchIn d true localId).map (·.map fun name => locate base namespace_ ++ [name])
        | none =>
            match root.get? base with
            | none => some none
            | some d => (searchIn d false id).map (·.map fun name => base ++ [name])) = some (some loc) →
      Inside base loc) ↔
    ∀ localId, id = [dot, dot] ++ slash :: localId → base ≠ [] →
      ∀ d, root.find? base [dot, dot] = some d → d.isDir = true →
        ∀ name, searchIn d true localId ≠ some (some name) := by
  rcases hsplit : splitOnce id with _ | ⟨namespace_, localId⟩
  · dsimp only
    constructor
    · rintro - localId rfl
      cases hsplit
    · intro _ loc hloc
      cases hget : root.get? base with
      | none =>
          rw [hget] at hloc
          cases hloc
      | some d =>
          rw [hget] at hloc
          obtain ⟨name, -, rfl⟩ := map_map_some.1 hloc
          exact .child List.prefix_rfl name
  · dsimp only
    obtain ⟨hid, hnot⟩ := splitOnce_spec hsplit
    by_cases hup : namespace_ = [dot, dot]
    · subst hup
      cases hdir : (root.find? base [dot, dot]).filter (·.isDir) with
      | none =>
          rw [Option.filter_eq_none_iff] at hdir
          refine ⟨fun _ _ _ _ d hd hisDir => absurd hisDir (hdir d hd), fun _ loc hloc => ?_⟩
          cases hloc
      | some d =>
          obtain ⟨hd, hisDir⟩ := Option.filter_eq_some_iff.1 hdir
          dsimp only
          rw [beside_iff]
          constructor
          · intro h localId' hid' hbase d' hd' _
            obtain rfl : localId = localId' := by
              have := List.append_cancel_left (hid.symm.trans hid')
              exact (List.cons.inj this).2
            rw [hd] at hd'
            cases hd'
            exact h hbase
          · exact fun h hbase => h localId hid hbase d hd hisDir
    · constructor
      · rintro - localId' rfl
        cases hsplit
        exact absurd rfl hup
      · intro _ loc hloc
        cases hdir : (root.find? base namespace_).filter (·.isDir) with
        | none =>
            rw [hdir] at hloc
            cases hloc
        | some d =>
            rw [hdir] at hloc
            obtain ⟨name, -, rfl⟩ := map_map_some.1 hloc
            exact inside_found hnot hup name

theorem contained_iff (root : Node) (base : List Bytes) (id : Bytes) :
    Contained root base id ↔ Stays root base id := by
  unfold Contained resolveModelPath
  rcases hown : (root.find? base id).filter fun d => d.isDir && holdsModel d with _ | d
  · -- no model of its own
    have hnone : ∀ d, root.find? base id = some d → d.isDir = true → holdsModel d = false := by
      intro d hd hdir
      rw [hd, Option.filter_some, hdir, Bool.true_and] at hown
      by_contra hholds
      rw [Bool.not_eq_false] at hholds
      rw [if_pos hholds] at hown
      cases hown
    rw [hown]
    refine Iff.trans (search_iff root base id) ⟨fun h => ⟨fun d hd hdir hholds => ?_, fun _ => h⟩, fun h => h.beside hnone⟩
    rw [hnone d hd hdir] at hholds
    cases hholds
  · -- a model of its own
    obtain ⟨hd, hholds⟩ := Option.filter_eq_some_iff.1 hown
    rw [Bool.and_eq_true] at hholds
    rw [hown]
    constructor
    · intro h
      refine ⟨fun _ _ _ _ => (inside_locate_iff base id).1 (h _ rfl), fun hno => ?_⟩
      have hnot := hno d hd hholds.1
      rw [hholds.2] at hnot
      cases hnot
    · intro h loc hloc
      cases hloc
      exact (inside_locate_iff base id).2 (h.own d hd hholds.1 hholds.2)

/-! ## File names -/

/-- A relevant file without a directory is one step down. -/
theorem relevant_name {f : Bytes} (hrel : isRelevantFile f = true) (h : slash ∉ f) (dest : List Bytes) :
    Inside dest (locate dest f) := by
  have hdot : f.head? ≠ some dot := by
    intro hd
    unfold isRelevantFile at hrel
    rw [if_pos hd] at hrel
    cases hrel
  have hne : f ≠ [] := by
    rintro rfl
    exact absurd hrel (by decide)
  have hstep : stepOf f = some (.down f) := by
    unfold stepOf
    rw [if_neg, if_neg]
    · rintro rfl
      exact hdot rfl
    · rintro (hnil | rfl)
      · exact hne hnil
      · exact hdot rfl
  rw [locate_name dest h, hstep]
  exact .down dest f

/-- What a pull writes is inside the directory it pulls into. -/
def PullContained (dest : List Bytes) (listing : List Bytes) : Prop :=
  ∀ taken, ∀ loc ∈ pullPaths dest listing taken, Inside dest loc

theorem pullContained_iff (dest : List Bytes) (listing : List Bytes) :
    PullContained dest listing ↔
      ∀ f ∈ listing, isRelevantFile f = true → slash ∈ f → Remains dest f := by
  unfold PullContained pullPaths
  constructor
  · intro h f hf hrel _
    refine (inside_locate_iff dest f).1 (h (fun _ => true) _ (List.mem_append_left _ (List.mem_map_of_mem ?_)))
    exact List.mem_filter.2 ⟨List.mem_filter.2 ⟨hf, hrel⟩, rfl⟩
  · intro h taken loc hloc
    rcases List.mem_append.1 hloc with hloc | hloc
    · obtain ⟨f, hf, rfl⟩ := List.mem_map.1 hloc
      obtain ⟨hf, hrel⟩ := List.mem_filter.1 (List.mem_filter.1 hf).1
      by_cases hslash : slash ∈ f
      · exact (inside_locate_iff dest f).2 (h f hf hrel hslash)
      · exact relevant_name hrel hslash dest
    · cases List.mem_singleton.1 hloc
      exact .child List.prefix_rfl _

/-- An id resolves to a directory inside the models directory, and a pull writes inside its own, exactly when
what is joined spells a path that remains there, and nothing beside the models directory is found. -/
theorem paths_inside_iff (root : Node) (base : List Bytes) (id : Bytes) (dest : List Bytes) (listing : List Bytes) :
    (Contained root base id ↔ Stays root base id) ∧
      (PullContained dest listing ↔ ∀ f ∈ listing, isRelevantFile f = true → slash ∈ f → Remains dest f) :=
  ⟨contained_iff root base id, pullContained_iff dest listing⟩

/-- A models directory `m` with a directory `x` beside it that holds a configuration. -/
def twoDirs : Node := .dir [(ascii "m", .dir []), (ascii "x", .dir [(ascii "config.json", .file [])])]

/-- What `../x` resolves to is beside the models directory, and so is what `a/../../x.json` writes. -/
theorem paths_escape :
    ¬ Contained twoDirs [ascii "m"] (ascii "../x") ∧ ¬ PullContained [ascii "m"] [ascii "a/../../x.json"] := by
  constructor
  · intro h
    obtain ⟨rest, -, heq⟩ := h [ascii "x"] rfl
    exact absurd (List.cons.inj heq).1 (by decide)
  · intro h
    have hmem : [ascii "x.json"] ∈ pullPaths [ascii "m"] [ascii "a/../../x.json"] fun _ => true :=
      List.mem_cons_self
    obtain ⟨rest, -, heq⟩ := h _ _ hmem
    exact absurd (List.cons.inj heq).1 (by decide)

end Oxydllm.Models
