/-
# Oxydllm.Models.Listed — where an entry of the listing comes from.

A variant's id is its stem but for case, and a stem has no slash. An entry comes from a directory of the models
directory or of a namespace, with the files of one id (`discoverModels_listed`).
-/
import Oxydllm.Models.Listing
import Oxydllm.Models.Tree

namespace Oxydllm.Models

open Hub (Bytes)
open PathSteps (Step)

/-! ## Case and slashes -/

theorem eqIgnore_iff {a b : Bytes} : eqIgnoreAsciiCase a b = true ↔ toAsciiLowercase a = toAsciiLowercase b := by
  unfold eqIgnoreAsciiCase
  rw [beq_iff_eq]

theorem eqIgnore_equivalence : Equivalence fun a b => eqIgnoreAsciiCase a b = true where
  refl _ := eqIgnore_iff.2 rfl
  symm h := eqIgnore_iff.2 (eqIgnore_iff.1 h).symm
  trans h h' := eqIgnore_iff.2 ((eqIgnore_iff.1 h).trans (eqIgnore_iff.1 h'))

theorem eq_equivalence : Equivalence fun a b : Bytes => (a == b) = true where
  refl := beq_self_eq_true
  symm h := beq_iff_eq.2 (beq_iff_eq.1 h).symm
  trans h h' := beq_iff_eq.2 ((beq_iff_eq.1 h).trans (beq_iff_eq.1 h'))

theorem lower_slash (b : UInt8) : lower b = slash ↔ b = slash := by
  unfold lower slash
  split
  next h =>
    have h1 := UInt8.le_iff_toNat_le.1 h.1
    have h2 := UInt8.le_iff_toNat_le.1 h.2
    rw [← UInt8.toNat_inj, ← UInt8.toNat_inj, UInt8.toNat_add]
    simp only [UInt8.reduceToNat] at *
    omega
  next => rfl

theorem lower_upper (b : UInt8) : lower (upper b) = lower b := by
  unfold lower upper
  simp only [UInt8.le_iff_toNat_le, UInt8.reduceToNat, ← UInt8.toNat_inj]
  split
  next h =>
    have hsub : (b - 0x20).toNat = b.toNat - 32 := by
      rw [UInt8.toNat_sub_of_le]
      · rfl
      · rw [UInt8.le_iff_toNat_le]
        show 32 ≤ _
        omega
    rw [if_pos (by rw [hsub]; omega), if_neg (by omega), UInt8.toNat_add, hsub]
    simp only [UInt8.reduceToNat]
    omega
  next h => rfl

theorem slash_lower {s : Bytes} : slash ∈ toAsciiLowercase s ↔ slash ∈ s := by
  unfold toAsciiLowercase
  rw [List.mem_map]
  constructor
  · rintro ⟨b, hb, hlow⟩
    rwa [← (lower_slash b).1 hlow]
  · exact fun h => ⟨slash, h, (lower_slash slash).2 rfl⟩

/-- Texts that are the same but for case have slashes together. -/
theorem slash_of_eqIgnore {a b : Bytes} (h : eqIgnoreAsciiCase a b = true) (ha : slash ∉ a) : slash ∉ b := by
  rw [← slash_lower] at ha ⊢
  rwa [← eqIgnore_iff.1 h]

theorem not_mem_splitAt {sep : UInt8} {s part : Bytes} (h : part ∈ splitAt sep s) : sep ∉ part := by
  induction s generalizing part with
  | nil =>
      cases List.mem_singleton.1 h
      exact List.not_mem_nil
  | cons b s ih =>
      rw [splitAt] at h
      split at h
      next hb =>
        rcases List.mem_cons.1 h with rfl | hmem
        · exact List.not_mem_nil
        · exact ih hmem
      next hb =>
        cases hs : splitAt sep s with
        | nil =>
            rw [hs] at h
            cases List.mem_singleton.1 h
            exact fun hc => hb (List.mem_singleton.1 hc).symm
        | cons p ps =>
            rw [hs] at h ih
            rcases List.mem_cons.1 h with rfl | hmem
            · exact fun hc => (List.mem_cons.1 hc).elim (fun hc => hb hc.symm) (ih List.mem_cons_self)
            · exact ih (List.mem_cons_of_mem _ hmem)

theorem mem_steps {path name : Bytes} (h : Step.down name ∈ steps path) : slash ∉ name := by
  obtain ⟨component, hmem, hstep⟩ := List.mem_filterMap.1 h
  unfold stepOf at hstep
  split at hstep
  · cases hstep
  · split at hstep
    · cases hstep
    · cases hstep
      exact not_mem_splitAt hmem

theorem lossyFrom_slash {held s : Bytes} (hheld : slash ∉ held) (hs : slash ∉ s) : slash ∉ lossyFrom held s := by
  have hrepl : slash ∉ Utf8Lossy.utf8 [Utf8Lossy.replacement] := by decide
  induction s generalizing held with
  | nil =>
      unfold lossyFrom
      split
      · exact List.not_mem_nil
      · exact hrepl
  | cons b s ih =>
      rw [List.mem_cons, not_or] at hs
      have hb : slash ∉ [b] := fun h => hs.1 (List.mem_singleton.1 h)
      have hfresh := ih List.not_mem_nil hs.2
      unfold lossyFrom
      split
      · simp only [List.mem_append, List.mem_cons, not_or]
        exact ⟨hheld, hs.1, hfresh⟩
      · exact ih (fun h => (List.mem_append.1 h).elim hheld hb) hs.2
      · split
        · exact fun h => (List.mem_append.1 h).elim hrepl hfresh
        · split
          · simp only [List.mem_append, List.mem_cons, not_or]
            exact ⟨hrepl, hs.1, hfresh⟩
          · exact fun h => (List.mem_append.1 h).elim hrepl (ih hb hs.2)
          · simp only [List.mem_append, not_or]
            exact ⟨⟨hrepl, hrepl⟩, hfresh⟩

/-- A name that is not UTF-8 takes a replacement character. -/
theorem lossyFrom_same (held s : Bytes) : lossyFrom held s = held ++ s ∨ (0xEF : UInt8) ∈ lossyFrom held s := by
  have hrepl : (0xEF : UInt8) ∈ Utf8Lossy.utf8 [Utf8Lossy.replacement] := by decide
  induction s generalizing held with
  | nil =>
      unfold lossyFrom
      split
      next h =>
        rw [h]
        exact .inl rfl
      next => exact .inr hrepl
  | cons b s ih =>
      unfold lossyFrom
      split
      · rcases ih [] with h | h
        · rw [h]
          exact .inl rfl
        · exact .inr (List.mem_append_right _ (List.mem_cons_of_mem _ h))
      · rcases ih (held ++ [b]) with h | h
        · rw [h, List.append_assoc]
          exact .inl rfl
        · exact .inr h
      · right
        split
        · exact List.mem_append_left _ hrepl
        · split
          · exact List.mem_append_left _ hrepl
          · exact List.mem_append_left _ hrepl
          · exact List.mem_append_left _ (List.mem_append_left _ hrepl)

theorem lossyFrom_completes {c : Char} {held bs : Bytes} (h : Utf8Lossy.Completes c held bs) (s : Bytes) :
    lossyFrom held (bs ++ s) = held ++ bs ++ lossyFrom [] s := by
  induction h with
  | last hchar =>
      show lossyFrom _ (_ :: s) = _
      rw [lossyFrom, hchar]
      dsimp only
      rw [List.append_assoc, List.singleton_append]
  | more hincomplete _ ih =>
      rw [List.cons_append, lossyFrom, hincomplete, ih]
      simp only [List.append_assoc, List.cons_append, List.nil_append]

/-- A name that is UTF-8 stays as it is. -/
theorem toStringLossy_of_toStr {name text : Bytes} (h : toStr name = some text) : toStringLossy name = name := by
  have hall : ∀ cs : List Char, toStringLossy (Utf8Lossy.utf8 cs) = Utf8Lossy.utf8 cs := by
    intro cs
    induction cs with
    | nil => rfl
    | cons c cs ih =>
        show lossyFrom [] (String.utf8EncodeChar c ++ Utf8Lossy.utf8 cs) = _
        rw [lossyFrom_completes (Utf8Lossy.completes_encode c), List.nil_append]
        exact congrArg _ ih
  unfold toStr at h
  split at h
  next hutf8 =>
    rw [← hutf8]
    exact hall _
  next => cases h

theorem IsName.lossy {n : Bytes} (h : IsName n) : IsName (toStringLossy n) := by
  rcases lossyFrom_same [] n with hsame | hmem
  · rw [List.nil_append] at hsame
    rw [show toStringLossy n = n from hsame]
    exact h
  · refine ⟨List.ne_nil_of_mem hmem, lossyFrom_slash List.not_mem_nil h.no_slash, fun hdot => ?_, fun hup => ?_⟩
    · rw [show lossyFrom [] n = [dot] from hdot] at hmem
      exact absurd hmem (by decide)
    · rw [show lossyFrom [] n = [dot, dot] from hup] at hmem
      exact absurd hmem (by decide)

theorem fileName_slash {dirName path name : Bytes} (h : slash ∉ dirName) (hname : fileName dirName path = some name) :
    slash ∉ name := by
  unfold fileName at hname
  split at hname
  next n hlast =>
    cases hname
    have hmem := List.mem_of_getLast? hlast
    rcases List.mem_append.1 hmem with hmem | hmem
    · split at hmem
      · cases hmem
      · cases List.mem_singleton.1 hmem
        exact h
    · exact mem_steps hmem
  next => cases hname

theorem rawStem_slash {dirName path : Bytes} (h : slash ∉ dirName) : slash ∉ rawStem dirName path := by
  unfold rawStem
  refine lossyFrom_slash List.not_mem_nil ?_
  cases hname : fileName dirName path with
  | none => exact List.not_mem_nil
  | some name =>
      have hno := fileName_slash h hname
      show slash ∉ fileStem name
      unfold fileStem
      dsimp only
      split
      · exact hno
      · exact fun hc => hno (List.mem_of_mem_take hc)

theorem strip_slash {stem stem' : Bytes} (h : stripGgufSplitSuffix stem = some stem') (hs : slash ∉ stem) :
    slash ∉ stem' := by
  unfold stripGgufSplitSuffix at h
  split at h
  · split at h
    · dsimp only at h
      split at h
      · cases h
      · cases h
        exact fun hc => hs (List.mem_of_mem_take hc)
    · cases h
      exact hs
  · cases h
    exact hs

/-- A stem with the case of a name it begins with. -/
theorem recased_eqIgnore (dirBase stem : Bytes) :
    eqIgnoreAsciiCase (if dirBase ≠ [] ∧ (toAsciiLowercase dirBase).isPrefixOf (toAsciiLowercase stem) then
      dirBase ++ toAsciiUppercase (stem.drop dirBase.length) else stem) stem = true := by
  rw [eqIgnore_iff]
  split
  next h =>
    obtain ⟨rest, hrest⟩ := List.isPrefixOf_iff_prefix.1 h.2
    have hupper : toAsciiLowercase (toAsciiUppercase (stem.drop dirBase.length)) =
        toAsciiLowercase (stem.drop dirBase.length) := by
      unfold toAsciiLowercase toAsciiUppercase
      rw [List.map_map]
      exact List.map_congr_left fun b _ => lower_upper b
    have hlen : dirBase.length = (toAsciiLowercase dirBase).length := by
      unfold toAsciiLowercase
      rw [List.length_map]
    have happend : ∀ a b, toAsciiLowercase (a ++ b) = toAsciiLowercase a ++ toAsciiLowercase b :=
      fun a b => List.map_append
    have hdrop : toAsciiLowercase (stem.drop dirBase.length) = (toAsciiLowercase stem).drop dirBase.length :=
      List.map_drop
    rw [happend, hupper, hdrop, ← hrest, hlen, List.drop_left]
  next => rfl

/-- An id made of a stem is the stem but for case. -/
theorem canonical_eqIgnore (stem dirName : Bytes) :
    eqIgnoreAsciiCase (canonicalizeGgufId stem dirName) stem = true :=
  recased_eqIgnore _ _

theorem canonical_slash {stem dirName : Bytes} (h : slash ∉ stem) : slash ∉ canonicalizeGgufId stem dirName :=
  slash_of_eqIgnore (eqIgnore_equivalence.symm (canonical_eqIgnore stem dirName)) h

/-! ## What is listed -/

/-- The stem of a file of a directory. -/
def stemOf (dirName path : Bytes) : Option Bytes := stripGgufSplitSuffix (rawStem dirName path)

/-- A configuration's entry, or that of the files of a directory that have its id. -/
inductive Kind (node : Node) (m : Discovered) : Prop where
  | config : m.files = none → m.id = qualified m.ns (toStringLossy m.dirName) →
      (node.child (ascii "config.json")).isSome = true → Kind node m
  | gguf {all files : List Bytes} : findGgufFiles node = some all → m.files = some files →
      (∀ p ∈ all, ∃ id, effectiveId m.ns m.dirName p = some id) →
      files = all.filter (fun p => (effectiveId m.ns m.dirName p).any (m.id == ·)) → files ≠ [] → Kind node m

/-- An entry comes from a directory of the models directory, or of a namespace in it. -/
def Listed (root : Node) (base : List Bytes) (m : Discovered) : Prop :=
  ∃ parent node, root.get? (base ++ m.ns.toList) = some parent ∧ (∀ ns ∈ m.ns, IsName ns) ∧
    (m.dirName, node) ∈ subdirs parent ∧ Kind node m

/-- A property that each step of a loop keeps. -/
theorem foldlM_keeps {α σ : Type} {f : σ → α → Option σ} {P : σ → Prop} {xs : List α} {s s' : σ}
    (h : xs.foldlM f s = some s') (hstep : ∀ x ∈ xs, ∀ s s', P s → f s x = some s' → P s') (hs : P s) : P s' := by
  induction xs generalizing s with
  | nil =>
      cases h
      exact hs
  | cons x xs ih =>
      rw [List.foldlM_cons] at h
      cases hx : f s x with
      | none =>
          rw [hx] at h
          cases h
      | some s₁ =>
          rw [hx] at h
          exact ih h (fun y hy => hstep y (List.mem_cons_of_mem _ hy)) (hstep x List.mem_cons_self s s₁ hs hx)

section

variable {json : Bytes → Bool} {root : Node} {base : List Bytes}

theorem addGroup_listed {ns : Option Bytes} {dirName : Bytes} {models models' : List Discovered}
    {g : Bytes × List Bytes} (h : addGroup root base ns dirName models g = some models')
    (hnew : ∀ size, Listed root base ⟨g.1, size, ns, dirName, some g.2⟩) (hold : ∀ m ∈ models, Listed root base m) :
    ∀ m ∈ models', Listed root base m := by
  unfold addGroup at h
  split at h
  · cases h
    exact hold
  · dsimp only at h
    cases hreads : readsAsGguf (root.find? (base ++ (ns.toList ++ [dirName])) (g.2.headD [])) with
    | none =>
        rw [hreads] at h
        cases h
    | some reads =>
        rw [hreads] at h
        cases h
        intro m hm
        cases reads with
        | false => exact hold m hm
        | true =>
            rcases List.mem_append.1 hm with hmem | hmem
            · exact hold m hmem
            · cases List.mem_singleton.1 hmem
              exact hnew _

theorem scanModelEntry_listed {ns : Option Bytes} {e : Bytes × Node} {models models' : List Discovered} {found : Bool}
    {parent : Node} (hparent : root.get? (base ++ ns.toList) = some parent) (hns : ∀ n ∈ ns, IsName n)
    (he : e ∈ subdirs parent) (h : scanModelEntry json root base ns e models = some (found, models'))
    (hold : ∀ m ∈ models, Listed root base m) : ∀ m ∈ models', Listed root base m := by
  unfold scanModelEntry at h
  dsimp only at h
  split at h
  next hconfig =>
    split at h
    · split at h
      · cases h
        intro m hm
        rcases List.mem_append.1 hm with hmem | hmem
        · exact hold m hmem
        · cases List.mem_singleton.1 hmem
          exact ⟨parent, e.2, hparent, hns, he, .config rfl rfl hconfig.1⟩
      · cases h
        exact hold
    · cases h
      exact hold
  next =>
    cases hgguf : findGgufFiles e.2 with
    | none =>
        rw [hgguf] at h
        cases h
        exact hold
    | some paths =>
        rw [hgguf] at h
        dsimp only at h
        cases hkeyed : paths.mapM fun p => (effectiveId ns e.1 p).map (p, ·) with
        | none =>
            rw [hkeyed] at h
            cases h
        | some keyed =>
            rw [hkeyed] at h
            have hgroups := Grouping.groupsOf_foldl eq_equivalence keyed
            cases hfold : (keyed.foldl (Grouping.push (· == ·)) []).foldlM (addGroup root base ns e.1) models with
            | none =>
                rw [Option.bind_eq_bind, Option.bind_some, hfold] at h
                cases h
            | some models₁ =>
                rw [Option.bind_eq_bind, Option.bind_some, hfold] at h
                cases h
                refine foldlM_keeps (P := fun models => ∀ m ∈ models, Listed root base m) hfold ?_ hold
                intro g hg s s' hs hstep
                refine addGroup_listed hstep (fun size => ?_) hs
                have hfiles := (hgroups.things g hg).trans (Grouping.ofKey_keyed hkeyed g.1)
                obtain ⟨p, hp, hkey⟩ := hgroups.inhabited g hg
                have hmem : p.1 ∈ g.2 := by
                  rw [hgroups.things g hg]
                  exact List.mem_map.2 ⟨p, List.mem_filter.2 ⟨hp, beq_iff_eq.2 hkey.symm⟩, rfl⟩
                exact ⟨parent, e.2, hparent, hns, he,
                  .gguf hgguf rfl (Grouping.keyed_some hkeyed) hfiles (List.ne_nil_of_mem hmem)⟩

theorem scanTop_listed {e : Bytes × Node} {models models' : List Discovered} {parent : Node} (hwf : root.Wf)
    (hparent : root.get? base = some parent) (he : e ∈ subdirs parent)
    (h : scanTop json root base models e = some models') (hold : ∀ m ∈ models, Listed root base m) :
    ∀ m ∈ models', Listed root base m := by
  have hroot : root.get? (base ++ (none : Option Bytes).toList) = some parent := by
    rw [Option.toList_none, List.append_nil]
    exact hparent
  have hchild : root.get? (base ++ (some e.1).toList) = some e.2 := by
    rw [Option.toList_some, Node.get?_snoc, hparent]
    exact (hwf.get? hparent).child_of_mem (mem_subdirs.1 he).1
  have hname := (hwf.get? hparent).name (mem_subdirs.1 he).1
  unfold scanTop at h
  cases hentry : scanModelEntry json root base none e models with
  | none =>
      rw [hentry] at h
      cases h
  | some r =>
      obtain ⟨found, models₁⟩ := r
      have hfirst := scanModelEntry_listed hroot (fun _ h => by cases h) he hentry hold
      rw [hentry] at h
      cases found with
      | true =>
          cases h
          exact hfirst
      | false =>
          refine foldlM_keeps (P := fun models => ∀ m ∈ models, Listed root base m) h ?_ hfirst
          intro child hmem s s' hs hstep
          cases hscan : scanModelEntry json root base (some e.1) child s with
          | none =>
              rw [hscan] at hstep
              cases hstep
          | some r =>
              rw [hscan] at hstep
              cases hstep
              refine scanModelEntry_listed hchild (fun n hn => ?_) hmem hscan hs
              cases hn
              exact hname

/-- What is listed comes from a directory. -/
theorem discoverModels_listed {models : List Discovered} (hwf : root.Wf) (h : discoverModels json root base = some models) :
    ∀ m ∈ models, Listed root base m := by
  unfold discoverModels at h
  cases hparent : root.get? base with
  | none =>
      rw [hparent] at h
      cases h
      exact fun m hm => absurd hm List.not_mem_nil
  | some d =>
      rw [hparent] at h
      dsimp only at h
      cases hfold : (subdirs d).foldlM (scanTop json root base) [] with
      | none =>
          rw [hfold] at h
          cases h
      | some found =>
          rw [hfold] at h
          cases h
          intro m hm
          refine foldlM_keeps (P := fun models => ∀ m ∈ models, Listed root base m) hfold ?_
            (fun m hm => absurd hm List.not_mem_nil) m (List.mem_mergeSort.1 hm)
          exact fun e he s s' hs hstep => scanTop_listed hwf hparent he hstep hs

end

end Oxydllm.Models
