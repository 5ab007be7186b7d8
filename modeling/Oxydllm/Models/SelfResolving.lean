/-
# Oxydllm.Models.SelfResolving — when a listed id resolves to what it was listed for.

An entry keeps the directory it comes from, and the resolution has to come to that directory in the same tree
by the id alone. A variant's id is its stem but for case, and the resolution looks at case nowhere but in the
path that the id spells; so what stands in the way is a directory of the id's name, a directory in front with
a stem that differs in case at most, and a file beside it of such a stem with another id (`selfResolving_iff`).
-/
import Oxydllm.Models.Listed
import Oxydllm.Models.Search

namespace Oxydllm.Models

open Hub (Bytes)

/-! ## The place of an id -/

/-- The path of an id leads to a directory that holds a model. -/
def Direct (root : Node) (base : List Bytes) (id : Bytes) : Prop :=
  ∃ d, root.find? base id = some d ∧ d.isDir = true ∧ holdsModel d = true

theorem resolve_direct {root : Node} {base : List Bytes} {id : Bytes} (h : Direct root base id) :
    resolveModelPath root base id = some (some (locate base id)) := by
  obtain ⟨d, hd, hdir, hholds⟩ := h
  unfold resolveModelPath
  rw [hd, Option.filter_some, if_pos (Bool.and_eq_true_iff.2 ⟨hdir, hholds⟩)]

theorem not_direct {root : Node} {base : List Bytes} {id : Bytes} (h : ¬ Direct root base id) :
    ((root.find? base id).filter fun d => d.isDir && holdsModel d) = none := by
  rw [Option.filter_eq_none_iff]
  intro d hd hholds
  exact h ⟨d, hd, Bool.and_eq_true_iff.1 hholds⟩

/-- Otherwise the place of the namespace is searched. -/
theorem resolve_search {root parent : Node} {base : List Bytes} {ns : Option Bytes} {localId : Bytes}
    (hparent : root.get? (base ++ ns.toList) = some parent) (hdir : parent.isDir = true) (hns : ∀ n ∈ ns, IsName n)
    (htext : ∀ n ∈ ns, toStringLossy n = n) (hslash : ns = none → slash ∉ localId)
    (h : ¬ Direct root base (qualified ns localId)) :
    resolveModelPath root base (qualified ns localId) =
      (searchIn parent ns.isSome localId).map (·.map fun name => base ++ (ns.toList ++ [name])) := by
  unfold resolveModelPath
  rw [not_direct h]
  cases ns with
  | none =>
      rw [Option.toList_none, List.append_nil] at hparent
      dsimp only
      rw [show qualified none localId = localId from rfl, splitOnce_none (hslash rfl)]
      dsimp only
      rw [hparent]
      rfl
  | some n =>
      have hn := hns n rfl
      have hid : qualified (some n) localId = n ++ slash :: localId := by
        show toStringLossy n ++ slash :: localId = _
        rw [htext n rfl]
      dsimp only
      rw [hid, splitOnce_append hn.no_slash]
      dsimp only
      rw [hn.find?, hn.locate, show root.get? (base ++ [n]) = some parent from hparent, Option.filter_some, if_pos hdir]
      dsimp only
      simp only [List.append_assoc, Option.toList_some, Option.isSome_some]

/-- A namespace that is not UTF-8 is not looked into. -/
theorem resolve_lost {root : Node} {base : List Bytes} {n localId : Bytes} (hn : IsName n) (htext : toStringLossy n ≠ n)
    (h : ¬ Direct root base (qualified (some n) localId)) (dirName : Bytes) :
    resolveModelPath root base (qualified (some n) localId) ≠ some (some (base ++ ([n] ++ [dirName]))) := by
  intro hfound
  unfold resolveModelPath at hfound
  rw [not_direct h] at hfound
  dsimp only at hfound
  rw [show qualified (some n) localId = toStringLossy n ++ slash :: localId from rfl,
    splitOnce_append hn.lossy.no_slash] at hfound
  dsimp only at hfound
  split at hfound
  next => cases hfound
  next =>
    obtain ⟨name, hname, hmap⟩ := Option.map_eq_some_iff.1 hfound
    obtain ⟨name', -, hloc⟩ := Option.map_eq_some_iff.1 hmap
    rw [hn.lossy.locate, List.append_assoc] at hloc
    have hcons := List.append_cancel_left hloc
    exact htext (List.cons.inj hcons).1

/-! ## Selection -/

/-- The file has the stem wanted, but for case. -/
def hasStem (dirName wanted path : Bytes) : Bool := (stemOf dirName path).any (eqIgnoreAsciiCase · wanted)

/-- Files of one variant. -/
def SameStem (dirName p q : Bytes) : Prop :=
  ∀ s ∈ stemOf dirName p, ∀ t ∈ stemOf dirName q, eqIgnoreAsciiCase s t = true

theorem stem_slash {dirName path stem : Bytes} (hdir : slash ∉ dirName) (h : stemOf dirName path = some stem) :
    slash ∉ stem := strip_slash h (rawStem_slash hdir)

section

variable {ns : Option Bytes} {localId dirName : Bytes}

theorem matchKeys_any (stem needle : Bytes) :
    ((ggufMatchKeys stem dirName).any fun key => eqIgnoreAsciiCase key needle) = eqIgnoreAsciiCase stem needle := by
  have hcanonical := canonical_eqIgnore stem dirName
  have hsame : eqIgnoreAsciiCase (canonicalizeGgufId stem dirName) needle = eqIgnoreAsciiCase stem needle := by
    rw [Bool.eq_iff_iff, eqIgnore_iff, eqIgnore_iff, eqIgnore_iff.1 hcanonical]
  unfold ggufMatchKeys
  dsimp only
  split
  · rw [List.any_cons, List.any_nil, Bool.or_false]
  · rw [List.any_cons, List.any_cons, List.any_nil, Bool.or_false, hsame, Bool.or_self]

/-- Of the forms of an id the local one counts, for a stem has no slash. -/
theorem idKeys_any (hns : ∀ n ∈ ns, IsName n) (hlocal : ns = none → slash ∉ localId) {stem : Bytes}
    (hstem : slash ∉ stem) :
    ((ggufModelIdKeys (qualified ns localId)).any fun needle =>
      (ggufMatchKeys stem dirName).any fun key => eqIgnoreAsciiCase key needle) = eqIgnoreAsciiCase stem localId := by
  cases ns with
  | none =>
      show (ggufModelIdKeys localId).any _ = _
      unfold ggufModelIdKeys
      rw [splitOnce_none (hlocal rfl)]
      dsimp only
      rw [List.any_cons, List.any_nil, Bool.or_false, matchKeys_any]
  | some n =>
      have hfull : eqIgnoreAsciiCase stem (toStringLossy n ++ slash :: localId) = false := by
        rw [Bool.eq_false_iff]
        exact fun h => slash_of_eqIgnore h hstem (List.mem_append_right _ List.mem_cons_self)
      show (ggufModelIdKeys (toStringLossy n ++ slash :: localId)).any _ = _
      unfold ggufModelIdKeys
      rw [splitOnce_append (hns n rfl).lossy.no_slash]
      dsimp only
      rw [List.any_cons, List.any_cons, List.any_nil, Bool.or_false, matchKeys_any, matchKeys_any, hfull,
        Bool.false_or]

/-- The groups of a directory, and the one that is taken. -/
theorem select_groups (hns : ∀ n ∈ ns, IsName n) (hlocal : ns = none → slash ∉ localId) (hdir : slash ∉ dirName)
    {all : List Bytes} (hstems : ∀ p ∈ all, ∃ stem, stemOf dirName p = some stem) :
    ∃ groups : List (Bytes × List Bytes), groups.Pairwise (fun g g' => ¬ eqIgnoreAsciiCase g.1 g'.1 = true) ∧
      (∀ g ∈ groups, g.2 = all.filter (hasStem dirName g.1)) ∧
      (∀ p ∈ all, ∃ g ∈ groups, hasStem dirName g.1 p = true) ∧
      (∀ g ∈ groups, ∃ p ∈ all, stemOf dirName p = some g.1) ∧
      (∀ g, groups.find? (fun g => eqIgnoreAsciiCase g.1 localId) = some g →
        selectGgufPaths dirName (qualified ns localId) all = some (some g.2)) ∧
      (groups.find? (fun g => eqIgnoreAsciiCase g.1 localId) = none → ∀ files,
        selectGgufPaths dirName (qualified ns localId) all = some (some files) ↔ ∃ g, groups = [g] ∧ g.2 = files) := by
  obtain ⟨keyed, hkeyed⟩ := Grouping.exists_keyed hstems
  obtain ⟨hmap, hkeys⟩ := Grouping.keyed_spec hkeyed
  have hgroups := Grouping.groupsOf_foldl eqIgnore_equivalence keyed
  have hkeyOf : ∀ g ∈ keyed.foldl (Grouping.push eqIgnoreAsciiCase) [], ∃ p ∈ all, stemOf dirName p = some g.1 := by
    intro g hg
    obtain ⟨p, hp, hkey⟩ := hgroups.inhabited g hg
    exact ⟨p.1, hmap ▸ List.mem_map_of_mem hp, hkey ▸ hkeys p hp⟩
  have hfind : ∀ groups : List (Bytes × List Bytes), (∀ g ∈ groups, slash ∉ g.1) →
      groups.find? (fun g => (ggufModelIdKeys (qualified ns localId)).any fun needle =>
        (ggufMatchKeys g.1 dirName).any fun key => eqIgnoreAsciiCase key needle) =
      groups.find? (fun g => eqIgnoreAsciiCase g.1 localId) := by
    intro groups hslash
    induction groups with
    | nil => rfl
    | cons g groups ih =>
        rw [List.find?_cons, List.find?_cons, idKeys_any hns hlocal (hslash g List.mem_cons_self),
          ih fun g' hg' => hslash g' (List.mem_cons_of_mem _ hg')]
  have hnoSlash : ∀ g ∈ keyed.foldl (Grouping.push eqIgnoreAsciiCase) [], slash ∉ g.1 := by
    intro g hg
    obtain ⟨p, -, hstem⟩ := hkeyOf g hg
    exact stem_slash hdir hstem
  have hmapM : all.mapM (fun p => (stripGgufSplitSuffix (rawStem dirName p)).map (p, ·)) = some keyed := hkeyed
  refine ⟨_, hgroups.apart, fun g hg => ?_, fun p hp => ?_, hkeyOf, fun g hg => ?_, fun hnone files => ?_⟩
  · rw [hgroups.things g hg, Grouping.ofKey_keyed hkeyed]
    refine List.filter_congr fun p _ => ?_
    unfold hasStem
    cases stemOf dirName p with
    | none => rfl
    | some stem =>
        show eqIgnoreAsciiCase g.1 stem = eqIgnoreAsciiCase stem g.1
        rw [Bool.eq_iff_iff, eqIgnore_iff, eqIgnore_iff]
        exact eq_comm
  · rw [← hmap] at hp
    obtain ⟨q, hq, rfl⟩ := List.mem_map.1 hp
    obtain ⟨g, hg, hkey⟩ := hgroups.covered q hq
    refine ⟨g, hg, ?_⟩
    unfold hasStem
    rw [hkeys q hq]
    exact eqIgnore_equivalence.symm hkey
  · unfold selectGgufPaths
    rw [hmapM, Option.bind_eq_bind, Option.bind_some]
    dsimp only
    rw [hfind _ hnoSlash, hg]
    rfl
  · unfold selectGgufPaths
    rw [hmapM, Option.bind_eq_bind, Option.bind_some]
    dsimp only
    rw [hfind _ hnoSlash, hnone]
    generalize keyed.foldl (Grouping.push eqIgnoreAsciiCase) [] = groups
    rcases groups with _ | ⟨g, _ | ⟨g', groups⟩⟩
    · refine ⟨(fun h => by cases h), ?_⟩
      rintro ⟨g, hg, -⟩
      cases hg
    · refine ⟨fun h => ⟨g, rfl, Option.some.inj (Option.some.inj h)⟩, ?_⟩
      rintro ⟨g', hg', rfl⟩
      cases hg'
      rfl
    · refine ⟨(fun h => by cases h), ?_⟩
      rintro ⟨g, hg, -⟩
      cases hg

theorem hasStem_iff {wanted p : Bytes} :
    hasStem dirName wanted p = true ↔ ∃ stem, stemOf dirName p = some stem ∧ eqIgnoreAsciiCase stem wanted = true := by
  unfold hasStem
  rw [Option.any_eq_true]

/-- Where files have the stem of the id, they are selected. -/
theorem select_found (hns : ∀ n ∈ ns, IsName n) (hlocal : ns = none → slash ∉ localId) (hdir : slash ∉ dirName)
    {all : List Bytes} (hstems : ∀ p ∈ all, ∃ stem, stemOf dirName p = some stem)
    (h : ∃ p ∈ all, hasStem dirName localId p = true) :
    selectGgufPaths dirName (qualified ns localId) all = some (some (all.filter (hasStem dirName localId))) := by
  obtain ⟨groups, -, hthings, hcovered, -, hselect, -⟩ := select_groups hns hlocal hdir hstems
  have hfound : (groups.find? fun g => eqIgnoreAsciiCase g.1 localId).isSome = true := by
    obtain ⟨p, hp, hwanted⟩ := h
    obtain ⟨stem, hstem, hwanted⟩ := hasStem_iff.1 hwanted
    obtain ⟨g, hg, hkey⟩ := hcovered p hp
    obtain ⟨stem', hstem', hkey⟩ := hasStem_iff.1 hkey
    cases hstem.symm.trans hstem'
    exact List.find?_isSome.2 ⟨g, hg, eqIgnore_equivalence.trans (eqIgnore_equivalence.symm hkey) hwanted⟩
  obtain ⟨g, hfind⟩ := Option.isSome_iff_exists.1 hfound
  have hwanted := List.find?_some hfind
  rw [hselect g hfind, hthings g (List.mem_of_find?_eq_some hfind)]
  have hsame : ∀ p, hasStem dirName g.1 p = hasStem dirName localId p := by
    intro p
    unfold hasStem
    cases stemOf dirName p with
    | none => rfl
    | some stem =>
        show eqIgnoreAsciiCase stem g.1 = eqIgnoreAsciiCase stem localId
        rw [Bool.eq_iff_iff, eqIgnore_iff, eqIgnore_iff, eqIgnore_iff.1 hwanted]
  rw [List.filter_congr fun p _ => hsame p]

/-- Where none has, a directory of one variant is selected as a whole. -/
theorem select_alone (hns : ∀ n ∈ ns, IsName n) (hlocal : ns = none → slash ∉ localId) (hdir : slash ∉ dirName)
    {all files : List Bytes} (hne : all ≠ []) (hstems : ∀ p ∈ all, ∃ stem, stemOf dirName p = some stem)
    (h : ¬ ∃ p ∈ all, hasStem dirName localId p = true) :
    selectGgufPaths dirName (qualified ns localId) all = some (some files) ↔
      all = files ∧ ∀ p ∈ all, ∀ q ∈ all, SameStem dirName p q := by
  obtain ⟨groups, hapart, hthings, hcovered, hkeyOf, -, hselect⟩ := select_groups hns hlocal hdir hstems
  have hnone : groups.find? (fun g => eqIgnoreAsciiCase g.1 localId) = none := by
    rw [List.find?_eq_none]
    intro g hg hwanted
    obtain ⟨p, hp, hstem⟩ := hkeyOf g hg
    exact h ⟨p, hp, hasStem_iff.2 ⟨g.1, hstem, hwanted⟩⟩
  -- a group of all the files
  have hwhole : ∀ g ∈ groups, (∀ p ∈ all, hasStem dirName g.1 p = true) → g.2 = all :=
    fun g hg hall => (hthings g hg).trans (List.filter_eq_self.2 hall)
  rw [hselect hnone]
  constructor
  · rintro ⟨g, rfl, hfiles⟩
    have hall : ∀ p ∈ all, hasStem dirName g.1 p = true := by
      intro p hp
      obtain ⟨g', hg', hstem⟩ := hcovered p hp
      cases List.mem_singleton.1 hg'
      exact hstem
    refine ⟨(hwhole g List.mem_cons_self hall).symm.trans hfiles, fun p hp q hq s hs t ht => ?_⟩
    obtain ⟨s', hs', hps⟩ := hasStem_iff.1 (hall p hp)
    obtain ⟨t', ht', hqt⟩ := hasStem_iff.1 (hall q hq)
    cases hs'.symm.trans hs
    cases ht'.symm.trans ht
    exact eqIgnore_equivalence.trans hps (eqIgnore_equivalence.symm hqt)
  · rintro ⟨rfl, hsame⟩
    rcases groups with _ | ⟨g, _ | ⟨g', groups⟩⟩
    · obtain ⟨p, hp⟩ := List.exists_mem_of_ne_nil all hne
      obtain ⟨g, hg, -⟩ := hcovered p hp
      cases hg
    · refine ⟨g, rfl, hwhole g List.mem_cons_self fun p hp => ?_⟩
      obtain ⟨q, hq, hstem⟩ := hkeyOf g List.mem_cons_self
      obtain ⟨s, hs⟩ := hstems p hp
      exact hasStem_iff.2 ⟨s, hs, hsame p hp q hq s hs g.1 hstem⟩
    · obtain ⟨p, hp, hstem⟩ := hkeyOf g List.mem_cons_self
      obtain ⟨q, hq, hstem'⟩ := hkeyOf g' (List.mem_cons_of_mem _ List.mem_cons_self)
      exact absurd (hsame p hp q hq g.1 hstem g'.1 hstem') ((List.pairwise_cons.1 hapart).1 g' List.mem_cons_self)

end

/-! ## Resolving to itself -/

/-- The id without its namespace. -/
def Discovered.localId (m : Discovered) : Bytes :=
  match m.ns with
  | some ns => m.id.drop ((toStringLossy ns).length + 1)
  | none => m.id

/-- The id comes to the directory that the entry was listed from, and in it to the files whose size is listed. -/
structure SelfResolving (root : Node) (base : List Bytes) (m : Discovered) : Prop where
  place : resolveModelPath root base m.id = some (some (base ++ m.dir))
  files : ∀ files ∈ m.files, ∃ node all, root.get? (base ++ m.dir) = some node ∧ findGgufFiles node = some all ∧
    selectGgufPaths m.dirName m.id all = some (some files)

/-- Nothing else in the tree answers to the id. -/
structure Unambiguous (root : Node) (base : List Bytes) (m : Discovered) : Prop where
  -- no other directory is found at the path that the id spells
  own : Direct root base m.id → locate base m.id = base ++ m.dir
  -- where none is found, the namespace is one that the id can spell, and the directory is chosen in it
  text : ¬ Direct root base m.id → ∀ ns ∈ m.ns, toStringLossy ns = ns
  chosen : ¬ Direct root base m.id → ∀ parent front node back, root.get? (base ++ m.ns.toList) = some parent →
    subdirs parent = front ++ (m.dirName, node) :: back →
    Chosen m.ns.isSome m.localId front (m.dirName, node) back
  -- the files of a variant with the stem of its id are all of that id
  alike : m.files ≠ none → ∀ node all, root.get? (base ++ m.dir) = some node → findGgufFiles node = some all →
    (∃ p ∈ all, hasStem m.dirName m.localId p = true) →
    ∀ p ∈ all, hasStem m.dirName m.localId p = true ↔ effectiveId m.ns m.dirName p = some m.id
  -- and where none has that stem, there is no other variant
  alone : m.files ≠ none → ∀ node all, root.get? (base ++ m.dir) = some node → findGgufFiles node = some all →
    (¬ ∃ p ∈ all, hasStem m.dirName m.localId p = true) →
    (∀ p ∈ all, effectiveId m.ns m.dirName p = some m.id) ∧ ∀ p ∈ all, ∀ q ∈ all, SameStem m.dirName p q

theorem localId_eq {m : Discovered} {localId : Bytes} (h : m.id = qualified m.ns localId) : m.localId = localId := by
  unfold Discovered.localId
  unfold qualified at h
  cases hns : m.ns with
  | none =>
      rw [hns] at h
      exact h
  | some ns =>
      rw [hns] at h
      dsimp only at h ⊢
      rw [h, ← List.drop_drop, List.drop_left]
      rfl

theorem stem_of_effectiveId {ns : Option Bytes} {dirName p id : Bytes} (h : effectiveId ns dirName p = some id) :
    ∃ stem, stemOf dirName p = some stem := by
  unfold effectiveId at h
  obtain ⟨stem, hstem, -⟩ := Option.bind_eq_some_iff.1 h
  exact ⟨stem, hstem⟩

/-- An id without its namespace; at the top it has no slash. -/
theorem effectiveId_local {ns : Option Bytes} {dirName p id : Bytes} (hdir : IsName dirName)
    (h : effectiveId ns dirName p = some id) : ∃ localId, id = qualified ns localId ∧ (ns = none → slash ∉ localId) := by
  unfold effectiveId at h
  obtain ⟨stem, hstem, hid⟩ := Option.bind_eq_some_iff.1 h
  refine ⟨_, (Option.some.inj hid).symm, ?_⟩
  rintro rfl
  split
  · exact hdir.lossy.no_slash
  · exact canonical_slash (stem_slash hdir.no_slash hstem)

theorem filter_eq_iff {α : Type} {xs : List α} {p q : α → Bool} :
    xs.filter p = xs.filter q ↔ ∀ x ∈ xs, p x = true ↔ q x = true := by
  constructor
  · intro heq x hx
    have hmem : x ∈ xs.filter p ↔ x ∈ xs.filter q := by rw [heq]
    rw [List.mem_filter, List.mem_filter] at hmem
    exact ⟨fun hp => (hmem.1 ⟨hx, hp⟩).2, fun hq => (hmem.2 ⟨hx, hq⟩).2⟩
  · intro h
    exact List.filter_congr fun x hx => Bool.eq_iff_iff.2 (h x hx)

section

variable {root parent node : Node} {base : List Bytes} {m : Discovered}

theorem get?_dir (hwf : root.Wf) (hparent : root.get? (base ++ m.ns.toList) = some parent)
    (hmem : (m.dirName, node) ∈ subdirs parent) : root.get? (base ++ m.dir) = some node := by
  unfold Discovered.dir
  rw [← List.append_assoc, Node.get?_snoc, hparent]
  exact (hwf.get? hparent).child_of_mem (mem_subdirs.1 hmem).1

theorem isDir_of_subdirs {e : Bytes × Node} (h : e ∈ subdirs parent) : parent.isDir = true := by
  cases parent with
  | file content => cases h
  | dir es => rfl

/-- An id comes to the directory when that lies where it spells, or else is chosen. -/
theorem place_iff (hwf : root.Wf) (hparent : root.get? (base ++ m.ns.toList) = some parent)
    (hns : ∀ n ∈ m.ns, IsName n) (hmem : (m.dirName, node) ∈ subdirs parent) {localId : Bytes}
    (hid : m.id = qualified m.ns localId) (hslash : m.ns = none → slash ∉ localId) :
    resolveModelPath root base m.id = some (some (base ++ m.dir)) ↔
      (Direct root base m.id → locate base m.id = base ++ m.dir) ∧
        (¬ Direct root base m.id → (∀ ns ∈ m.ns, toStringLossy ns = ns) ∧
          ∀ parent front node back, root.get? (base ++ m.ns.toList) = some parent →
            subdirs parent = front ++ (m.dirName, node) :: back →
            Chosen m.ns.isSome localId front (m.dirName, node) back) := by
  by_cases hdirect : Direct root base m.id
  · rw [resolve_direct hdirect]
    constructor
    · intro h
      exact ⟨fun _ => Option.some.inj (Option.some.inj h), fun hn => absurd hdirect hn⟩
    · rintro ⟨h, -⟩
      rw [h hdirect]
  have htext : resolveModelPath root base m.id = some (some (base ++ m.dir)) → ∀ ns ∈ m.ns, toStringLossy ns = ns := by
    intro h n hn
    by_contra hne
    have hsome : m.ns = some n := hn
    rw [hid, hsome] at hdirect
    refine resolve_lost (hns n hn) hne hdirect m.dirName ?_
    rw [hid] at h
    unfold Discovered.dir at h
    rwa [hsome] at h
  have hsearch : (∀ ns ∈ m.ns, toStringLossy ns = ns) → (resolveModelPath root base m.id = some (some (base ++ m.dir)) ↔
      searchIn parent m.ns.isSome localId = some (some m.dirName)) := by
    intro htext
    rw [hid] at hdirect ⊢
    rw [resolve_search hparent (isDir_of_subdirs hmem) hns htext hslash hdirect]
    unfold Discovered.dir
    constructor
    · intro h
      obtain ⟨found, hfound, hmap⟩ := Option.map_eq_some_iff.1 h
      obtain ⟨name, rfl, hloc⟩ := Option.map_eq_some_iff.1 hmap
      have hlast := List.append_cancel_left (List.append_cancel_left hloc)
      rw [hfound, List.singleton_inj.1 hlast]
    · intro h
      rw [h]
      rfl
  constructor
  · intro h
    refine ⟨fun hd => absurd hd hdirect, fun _ => ⟨htext h, fun parent' front node' back hparent' hsplit => ?_⟩⟩
    cases hparent.symm.trans hparent'
    exact (searchIn_iff (hwf.get? hparent) hsplit).1 ((hsearch (htext h)).1 h)
  · rintro ⟨-, h⟩
    obtain ⟨htext, hchosen⟩ := h hdirect
    obtain ⟨front, back, hsplit⟩ := List.append_of_mem hmem
    exact (hsearch htext).2 ((searchIn_iff (hwf.get? hparent) hsplit).2 (hchosen parent front node back hparent hsplit))

/-- The files of an id are selected when they are those with its stem, or else all of one variant. -/
theorem files_iff (hns : ∀ n ∈ m.ns, IsName n) (hdir : slash ∉ m.dirName) {all files : List Bytes} {localId : Bytes}
    (hid : m.id = qualified m.ns localId) (hslash : m.ns = none → slash ∉ localId)
    (hids : ∀ p ∈ all, ∃ id, effectiveId m.ns m.dirName p = some id) (hne : all ≠ [])
    (hfiles : files = all.filter fun p => (effectiveId m.ns m.dirName p).any (m.id == ·)) :
    selectGgufPaths m.dirName m.id all = some (some files) ↔
      ((∃ p ∈ all, hasStem m.dirName localId p = true) →
        ∀ p ∈ all, hasStem m.dirName localId p = true ↔ effectiveId m.ns m.dirName p = some m.id) ∧
      ((¬ ∃ p ∈ all, hasStem m.dirName localId p = true) →
        (∀ p ∈ all, effectiveId m.ns m.dirName p = some m.id) ∧ ∀ p ∈ all, ∀ q ∈ all, SameStem m.dirName p q) := by
  have hstems : ∀ p ∈ all, ∃ stem, stemOf m.dirName p = some stem := by
    intro p hp
    obtain ⟨id, hp⟩ := hids p hp
    exact stem_of_effectiveId hp
  have hhas : ∀ p ∈ all, (effectiveId m.ns m.dirName p).any (m.id == ·) = true ↔
      effectiveId m.ns m.dirName p = some m.id := by
    intro p hp
    obtain ⟨id, hpid⟩ := hids p hp
    rw [hpid]
    constructor
    · exact fun h => congrArg some (eq_of_beq h).symm
    · intro h
      cases h
      exact beq_self_eq_true m.id
  by_cases hfound : ∃ p ∈ all, hasStem m.dirName localId p = true
  · rw [hid, select_found hns hslash hdir hstems hfound, ← hid, hfiles, Option.some_inj, Option.some_inj, filter_eq_iff]
    constructor
    · exact fun h => ⟨fun _ p hp => (h p hp).trans (hhas p hp), fun hno => absurd hfound hno⟩
    · rintro ⟨h, -⟩ p hp
      exact (h hfound p hp).trans (hhas p hp).symm
  · rw [hid, select_alone hns hslash hdir hne hstems hfound, ← hid, hfiles, eq_comm, List.filter_eq_self]
    constructor
    · rintro ⟨hall, hsame⟩
      exact ⟨fun h => absurd h hfound, fun _ => ⟨fun p hp => (hhas p hp).1 (hall p hp), hsame⟩⟩
    · rintro ⟨-, h⟩
      obtain ⟨hall, hsame⟩ := h hfound
      exact ⟨fun p hp => (hhas p hp).2 (hall p hp), hsame⟩

/-- An entry listed is what its id comes to exactly when nothing else in the tree answers to it. -/
theorem selfResolving_iff {json : Bytes → Bool} {models : List Discovered} (hwf : root.Wf)
    (hlisted : discoverModels json root base = some models) (hm : m ∈ models) :
    Unambiguous root base m ↔ SelfResolving root base m := by
  obtain ⟨parent, node, hparent, hns, hmem, hkind⟩ := discoverModels_listed hwf hlisted m hm
  have hdirName := (hwf.get? hparent).name (mem_subdirs.1 hmem).1
  have hget := get?_dir hwf hparent hmem
  cases hkind with
  | config hnone hid hconfig =>
      have hplace := place_iff hwf hparent hns hmem hid fun _ => hdirName.lossy.no_slash
      rw [← localId_eq hid] at hplace
      constructor
      · intro h
        refine ⟨hplace.2 ⟨h.own, fun hd => ⟨h.text hd, h.chosen hd⟩⟩, fun files hfiles => ?_⟩
        rw [hnone] at hfiles
        cases hfiles
      · intro h
        obtain ⟨hown, hrest⟩ := hplace.1 h.place
        exact ⟨hown, fun hd => (hrest hd).1, fun hd => (hrest hd).2, fun hf => absurd hnone hf, fun hf => absurd hnone hf⟩
  | @gguf all files hall hsome hids hfiles hne =>
      have hsomething : m.files ≠ none := fun h => by
        rw [hsome] at h
        cases h
      -- one of the files gives the id
      obtain ⟨p, hp⟩ := List.exists_mem_of_ne_nil files hne
      rw [hfiles, List.mem_filter] at hp
      obtain ⟨id, hpid⟩ := hids p hp.1
      rw [hpid] at hp
      have heq : m.id = id := eq_of_beq hp.2
      obtain ⟨localId, hid, hslash⟩ := effectiveId_local hdirName (heq ▸ hpid)
      have hplace := place_iff hwf hparent hns hmem hid hslash
      have hselect := files_iff hns hdirName.no_slash hid hslash hids (List.ne_nil_of_mem hp.1) hfiles
      rw [← localId_eq hid] at hplace hselect
      constructor
      · intro h
        refine ⟨hplace.2 ⟨h.own, fun hd => ⟨h.text hd, h.chosen hd⟩⟩, fun files' hfiles' => ?_⟩
        cases hsome.symm.trans hfiles'
        exact ⟨node, all, hget, hall,
          hselect.2 ⟨h.alike hsomething node all hget hall, h.alone hsomething node all hget hall⟩⟩
      · intro h
        obtain ⟨hown, hrest⟩ := hplace.1 h.place
        obtain ⟨node', all', hget', hall', hsel⟩ := h.files files hsome
        cases hget.symm.trans hget'
        cases hall.symm.trans hall'
        obtain ⟨halike, halone⟩ := hselect.1 hsel
        refine ⟨hown, fun hd => (hrest hd).1, fun hd => (hrest hd).2, fun _ node'' all'' hget'' hall'' => ?_,
          fun _ node'' all'' hget'' hall'' => ?_⟩
        · cases hget.symm.trans hget''
          cases hall.symm.trans hall''
          exact halike
        · cases hget.symm.trans hget''
          cases hall.symm.trans hall''
          exact halone

end

/-! ## Two directories -/

/-- A header without tensors. -/
def bareGguf : Bytes := [0x47, 0x47, 0x55, 0x46, 1, 0, 0, 0, 0, 0, 0, 0, 0, 0, 0, 0]

/-- Two directories, each with a variant whose name differs from the other's in case. -/
def clash : Node :=
  .dir [(ascii "models", .dir [(ascii "a", .dir [(ascii "M-Q4.gguf", .file bareGguf)]),
    (ascii "b", .dir [(ascii "m-q4.gguf", .file bareGguf)])])]

def clashFirst : Discovered := ⟨ascii "M-Q4", 16, none, ascii "a", some [ascii "M-Q4.gguf"]⟩

def clashSecond : Discovered := ⟨ascii "m-q4", 16, none, ascii "b", some [ascii "m-q4.gguf"]⟩

theorem findGgufFiles_single {name content : Bytes} (hlisted : listed (.dir [(name, .file content)]) = [])
    (hname : isGguf name = true) : findGgufFiles (.dir [(name, .file content)]) = some [name] := by
  have hfiles : ((entries (.dir [(name, Node.file content)])).map (·.1)).filter isGguf = [name] :=
    List.filter_cons_of_pos hname
  unfold findGgufFiles
  rw [if_neg (fun h => h hlisted), hfiles]
  dsimp only
  rw [if_neg (List.cons_ne_nil _ _), List.mergeSort_singleton]

theorem clash_found : findGgufFiles (.dir [(ascii "M-Q4.gguf", .file bareGguf)]) = some [ascii "M-Q4.gguf"] ∧
    findGgufFiles (.dir [(ascii "m-q4.gguf", .file bareGguf)]) = some [ascii "m-q4.gguf"] :=
  ⟨findGgufFiles_single rfl rfl, findGgufFiles_single rfl rfl⟩

theorem clash_first (json : Bytes → Bool) : scanTop json clash [ascii "models"] []
    (ascii "a", .dir [(ascii "M-Q4.gguf", .file bareGguf)]) = some [clashFirst] := by
  unfold scanTop scanModelEntry
  rw [clash_found.1]
  rfl

theorem clash_second (json : Bytes → Bool) : scanTop json clash [ascii "models"] [clashFirst]
    (ascii "b", .dir [(ascii "m-q4.gguf", .file bareGguf)]) = some [clashFirst, clashSecond] := by
  unfold scanTop scanModelEntry
  rw [clash_found.2]
  rfl

/-- The second is listed and comes to the first's directory. -/
theorem clash_listed (json : Bytes → Bool) : ∃ models, discoverModels json clash [ascii "models"] = some models ∧
    clashFirst ∈ models ∧ clashSecond ∈ models := by
  have hfold : (subdirs (.dir [(ascii "a", .dir [(ascii "M-Q4.gguf", .file bareGguf)]),
      (ascii "b", .dir [(ascii "m-q4.gguf", .file bareGguf)])])).foldlM (scanTop json clash [ascii "models"]) [] =
      some [clashFirst, clashSecond] := by
    show (scanTop json clash [ascii "models"] [] _).bind (fun models =>
      (scanTop json clash [ascii "models"] models _).bind pure) = _
    rw [clash_first, Option.bind_some, clash_second]
    rfl
  unfold discoverModels
  rw [show clash.get? [ascii "models"] = some (.dir _) from rfl]
  dsimp only
  rw [hfold]
  refine ⟨_, rfl, ?_, ?_⟩
  · exact List.mem_mergeSort.2 List.mem_cons_self
  · exact List.mem_mergeSort.2 (List.mem_cons_of_mem _ List.mem_cons_self)

theorem clash_resolves : resolveModelPath clash [ascii "models"] (ascii "m-q4") =
    some (some [ascii "models", ascii "a"]) := by
  have hmatch : dirMatches false (ascii "m-q4") (ascii "a", .dir [(ascii "M-Q4.gguf", .file bareGguf)]) = some true := by
    unfold dirMatches
    rw [clash_found.1]
    rfl
  unfold resolveModelPath
  show (searchIn _ false (ascii "m-q4")).map _ = _
  unfold searchIn
  rw [show subdirs (.dir [(ascii "a", .dir [(ascii "M-Q4.gguf", .file bareGguf)]),
      (ascii "b", .dir [(ascii "m-q4.gguf", .file bareGguf)])]) = [] ++ (ascii "a", .dir _) :: [(ascii "b", .dir _)] from rfl,
    firstMatch_found (fun _ h => absurd h List.not_mem_nil) hmatch]
  rfl

theorem isName_of {n : Bytes} (h : (n != [] && !n.contains slash && n != [dot] && n != [dot, dot]) = true) : IsName n := by
  simp only [Bool.and_eq_true, bne_iff_ne, Bool.not_eq_true', List.contains_eq_mem, decide_eq_false_iff_not] at h
  obtain ⟨⟨⟨hnil, hslash⟩, hdot⟩, hup⟩ := h
  exact ⟨hnil, hslash, hdot, hup⟩

/-- A directory of one file. -/
theorem wf_single {name content : Bytes} (h : IsName name) : Node.Wf (.dir [(name, .file content)]) := by
  refine .dir (List.nodup_singleton _) (fun e he => ?_) (fun e he => ?_)
  · cases List.mem_singleton.1 he
    exact h
  · cases List.mem_singleton.1 he
    exact .file content

theorem clash_wf : clash.Wf := by
  have hmodels : Node.Wf (.dir [(ascii "a", .dir [(ascii "M-Q4.gguf", .file bareGguf)]),
      (ascii "b", .dir [(ascii "m-q4.gguf", .file bareGguf)])]) := by
    refine .dir (by decide) (fun e he => ?_) (fun e he => ?_)
    · rcases List.mem_cons.1 he with rfl | he
      · exact isName_of rfl
      · cases List.mem_singleton.1 he
        exact isName_of rfl
    · rcases List.mem_cons.1 he with rfl | he
      · exact wf_single (isName_of rfl)
      · cases List.mem_singleton.1 he
        exact wf_single (isName_of rfl)
  refine .dir (List.nodup_singleton _) (fun e he => ?_) (fun e he => ?_)
  · cases List.mem_singleton.1 he
    exact isName_of rfl
  · cases List.mem_singleton.1 he
    exact hmodels

theorem selfResolving_iff_clash : Unambiguous clash [ascii "models"] clashSecond ↔
    SelfResolving clash [ascii "models"] clashSecond := by
  obtain ⟨models, hlisted, -, hsecond⟩ := clash_listed fun _ => false
  exact selfResolving_iff clash_wf hlisted hsecond

theorem listed_elsewhere : ∃ models, discoverModels (fun _ => false) clash [ascii "models"] = some models ∧
    ¬ ∀ m ∈ models, SelfResolving clash [ascii "models"] m := by
  obtain ⟨models, hlisted, -, hsecond⟩ := clash_listed fun _ => false
  refine ⟨models, hlisted, fun h => ?_⟩
  have hplace := (h clashSecond hsecond).place
  have hresolves : resolveModelPath clash [ascii "models"] clashSecond.id = some (some [ascii "models", ascii "a"]) :=
    clash_resolves
  rw [hresolves] at hplace
  exact absurd hplace (by decide)

end Oxydllm.Models
