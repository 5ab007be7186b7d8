/-
# Oxydllm.Models.Search — which directory of a place the resolution comes to.

The first directory that a file of has the stem wanted (`firstMatch`), or else the one with the shortest of the
names that match, which the loop over `prefix_match` finds (`fold_best_iff`). A name that is not UTF-8 matches
everything there, takes the place of each name before it and gives way to each after it.
-/
import Oxydllm.Models.Tree

namespace Oxydllm.Models

open Hub (Bytes)

/-! ## The first that passes -/

section

variable {α : Type} {p : α → Option Bool}

theorem firstMatch_found {front back : List α} {x : α} (hfront : ∀ y ∈ front, p y = some false)
    (hx : p x = some true) : firstMatch p (front ++ x :: back) = some (some x) := by
  induction front with
  | nil =>
      rw [List.nil_append, firstMatch, hx]
      rfl
  | cons y front ih =>
      rw [List.cons_append, firstMatch, hfront y List.mem_cons_self]
      exact ih fun z hz => hfront z (List.mem_cons_of_mem _ hz)

/-- What is found is the first that passes. -/
theorem firstMatch_hit {xs : List α} {x : α} (h : firstMatch p xs = some (some x)) :
    ∃ front back, xs = front ++ x :: back ∧ (∀ y ∈ front, p y = some false) ∧ p x = some true := by
  induction xs with
  | nil => cases h
  | cons y xs ih =>
      rw [firstMatch] at h
      cases hy : p y with
      | none =>
          rw [hy] at h
          cases h
      | some b =>
          rw [hy] at h
          cases b with
          | true =>
              cases h
              exact ⟨[], xs, rfl, fun _ h => absurd h List.not_mem_nil, hy⟩
          | false =>
              obtain ⟨front, back, rfl, hfront, hx⟩ := ih h
              refine ⟨y :: front, back, rfl, fun z hz => ?_, hx⟩
              rcases List.mem_cons.1 hz with rfl | hz
              · exact hy
              · exact hfront z hz

/-- Nothing is found where nothing passes. -/
theorem firstMatch_none_iff {xs : List α} : firstMatch p xs = some none ↔ ∀ y ∈ xs, p y = some false := by
  induction xs with
  | nil => exact ⟨fun _ _ h => absurd h List.not_mem_nil, fun _ => rfl⟩
  | cons y xs ih =>
      rw [firstMatch, List.forall_mem_cons, ← ih]
      cases hy : p y with
      | none => exact ⟨(fun h => by cases h), (fun h => by cases h.1)⟩
      | some b =>
          cases b with
          | true => exact ⟨(fun h => by cases h), (fun h => by cases h.1)⟩
          | false => exact ⟨fun h => ⟨rfl, h⟩, fun h => h.2⟩

end

/-! ## The shortest name -/

theorem toStr_eq {name text : Bytes} (h : toStr name = some text) : text = name := by
  unfold toStr at h
  split at h
  · exact (Option.some.inj h).symm
  · cases h

theorem lowName_none {name : Bytes} (h : toStr name = none) : lowName name = [] := by
  unfold lowName
  rw [h]
  rfl

theorem lowName_length {name : Bytes} (h : toStr name ≠ none) : (lowName name).length = name.length := by
  obtain ⟨text, htext⟩ := Option.ne_none_iff_exists'.1 h
  unfold lowName
  rw [htext, toStr_eq htext]
  exact List.length_map _

/-- A match takes the place of a name: of one that is not UTF-8, and of a longer one. -/
def Displaces (e : Bytes × Node) (b : Bytes) : Prop := toStr b = none ∨ (lowName e.1).length < b.length

section

variable {needle b : Bytes} {e : Bytes × Node} {best : Option Bytes}

theorem shorter_skip (h : nameMatches needle e = false) : shorter needle best e = best := by
  unfold shorter
  rw [h]
  rfl

theorem shorter_none (h : nameMatches needle e = true) : shorter needle none e = some e.1 := by
  unfold shorter
  rw [if_pos h]

theorem shorter_takes (h : nameMatches needle e = true) (hd : Displaces e b) :
    shorter needle (some b) e = some e.1 := by
  unfold shorter
  rw [if_pos h]
  dsimp only
  cases hb : toStr b with
  | none => rfl
  | some text =>
      rcases hd with hnone | hlt
      · rw [hb] at hnone
        cases hnone
      · dsimp only
        rw [toStr_eq hb, if_pos hlt]

theorem shorter_stays (hd : ¬ Displaces e b) : shorter needle (some b) e = some b := by
  unfold shorter
  split
  · dsimp only
    cases hb : toStr b with
    | none => exact absurd (.inl hb) hd
    | some text =>
        dsimp only
        rw [toStr_eq hb, if_neg fun hlt => hd (.inr hlt)]
  · rfl

theorem shorter_among : shorter needle best e = best ∨ shorter needle best e = some e.1 := by
  cases hm : nameMatches needle e with
  | false => exact .inl (shorter_skip hm)
  | true =>
      cases best with
      | none => exact .inr (shorter_none hm)
      | some b =>
          by_cases hd : Displaces e b
          · exact .inr (shorter_takes hm hd)
          · exact .inl (shorter_stays hd)

theorem fold_among {es : List (Bytes × Node)} (h : es.foldl (shorter needle) best = some b) :
    best = some b ∨ b ∈ es.map (·.1) := by
  induction es generalizing best with
  | nil => exact .inl h
  | cons e es ih =>
      rcases ih h with hstep | hmem
      · rcases shorter_among with hkept | htaken
        · exact .inl (hkept.symm.trans hstep)
        · rw [htaken] at hstep
          cases hstep
          exact .inr List.mem_cons_self
      · exact .inr (List.mem_cons_of_mem _ hmem)

/-- A name stays when none behind it displaces it. -/
theorem fold_stays_iff {es : List (Bytes × Node)} (hb : b ∉ es.map (·.1)) :
    es.foldl (shorter needle) (some b) = some b ↔ ∀ e ∈ es, nameMatches needle e = true → ¬ Displaces e b := by
  induction es with
  | nil => exact ⟨fun _ _ h => absurd h List.not_mem_nil, fun _ => rfl⟩
  | cons e es ih =>
      rw [List.map_cons, List.mem_cons, not_or] at hb
      rw [List.foldl_cons, List.forall_mem_cons]
      cases hm : nameMatches needle e with
      | false =>
          rw [shorter_skip hm, ih hb.2]
          exact ⟨fun h => ⟨fun hf => absurd hf Bool.false_ne_true, h⟩, fun h => h.2⟩
      | true =>
          by_cases hd : Displaces e b
          · rw [shorter_takes hm hd]
            refine ⟨fun h => ?_, fun h => absurd hd (h.1 rfl)⟩
            rcases fold_among h with heq | hmem
            · exact absurd (Option.some.inj heq).symm hb.1
            · exact absurd hmem hb.2
          · rw [shorter_stays hd, ih hb.2]
            exact ⟨fun h => ⟨fun _ => hd, h⟩, fun h => h.2⟩

end

/-- A directory displaces each match in front, but for those that one in between that is not UTF-8 has displaced. -/
def Clears (needle : Bytes) (front : List (Bytes × Node)) (e : Bytes × Node) : Prop :=
  ∀ front₁ e₁ front₂, front = front₁ ++ e₁ :: front₂ → nameMatches needle e₁ = true →
    (∀ e₂ ∈ front₂, nameMatches needle e₂ = true → toStr e₂.1 ≠ none) → Displaces e e₁.1

section

variable {needle : Bytes} {e : Bytes × Node}

theorem clears_snoc {xs : List (Bytes × Node)} {x : Bytes × Node} : Clears needle (xs ++ [x]) e ↔
    (nameMatches needle x = true → Displaces e x.1) ∧
      ((nameMatches needle x = true → toStr x.1 ≠ none) → Clears needle xs e) := by
  constructor
  · intro h
    refine ⟨fun hm => h xs x [] rfl hm fun _ h => absurd h List.not_mem_nil, fun htext front₁ e₁ front₂ hsplit hm hall => ?_⟩
    refine h front₁ e₁ (front₂ ++ [x]) ?_ hm fun e₂ he₂ => ?_
    · rw [hsplit, List.append_assoc, List.cons_append]
    · rcases List.mem_append.1 he₂ with hmem | hmem
      · exact hall e₂ hmem
      · cases List.mem_singleton.1 hmem
        exact htext
  · rintro ⟨hlast, hrest⟩ front₁ e₁ front₂ hsplit hm hall
    rcases List.eq_nil_or_concat front₂ with rfl | ⟨front₃, y, rfl⟩
    · obtain ⟨-, hx⟩ := List.append_inj' hsplit rfl
      cases hx
      exact hlast hm
    · rw [List.concat_eq_append, ← List.cons_append, ← List.append_assoc] at hsplit
      obtain ⟨hxs, hx⟩ := List.append_inj' hsplit rfl
      cases hx
      rw [List.concat_eq_append] at hall
      refine hrest (hall x (List.mem_append_right _ List.mem_cons_self)) front₁ e₁ front₃ hxs hm fun e₂ he₂ => ?_
      exact hall e₂ (List.mem_append_left _ he₂)

/-- The best of those in front is displaced when all are. -/
theorem fold_front {front : List (Bytes × Node)} (hnames : ∀ x ∈ front, x.1 ≠ []) :
    (∀ b, front.foldl (shorter needle) none = some b → Displaces e b) ↔ Clears needle front e := by
  induction front using List.reverseRecOn with
  | nil =>
      refine ⟨fun _ front₁ e₁ front₂ hsplit => ?_, fun _ b h => by cases h⟩
      exact absurd hsplit (List.append_ne_nil_of_right_ne_nil _ (List.cons_ne_nil _ _)).symm
  | append_singleton xs x ih =>
      have hxs : ∀ y ∈ xs, y.1 ≠ [] := fun y hy => hnames y (List.mem_append_left _ hy)
      have ih := ih hxs
      rw [clears_snoc, List.foldl_append, ← ih, List.foldl_cons, List.foldl_nil]
      cases hm : nameMatches needle x with
      | false =>
          rw [shorter_skip hm]
          exact ⟨fun h => ⟨fun hf => absurd hf Bool.false_ne_true, fun _ => h⟩,
            fun h => h.2 fun hf => absurd hf Bool.false_ne_true⟩
      | true =>
          cases hbest : xs.foldl (shorter needle) none with
          | none =>
              rw [shorter_none hm]
              exact ⟨fun h => ⟨fun _ => h x.1 rfl, fun _ b hb => by cases hb⟩, fun h b hb => by
                cases hb
                exact h.1 rfl⟩
          | some b =>
              have hb : b ≠ [] := by
                rcases fold_among hbest with hnone | hmem
                · cases hnone
                · obtain ⟨y, hy, rfl⟩ := List.mem_map.1 hmem
                  exact hxs y hy
              by_cases htext : toStr x.1 = none
              · have hd : Displaces x b := .inr (by
                  rw [lowName_none htext]
                  exact List.length_pos_iff.2 hb)
                rw [shorter_takes hm hd]
                exact ⟨fun h => ⟨fun _ => h x.1 rfl, fun hne => absurd htext (hne rfl)⟩, fun h b' hb' => by
                  cases hb'
                  exact h.1 rfl⟩
              · have hlen := lowName_length htext
                by_cases hd : Displaces x b
                · rw [shorter_takes hm hd]
                  refine ⟨fun h => ⟨fun _ => h x.1 rfl, fun _ b' hb' => ?_⟩, fun h b' hb' => ?_⟩
                  · cases hb'
                    rcases hd with hnone | hlt
                    · exact .inl hnone
                    · rcases h x.1 rfl with hnone | hlt'
                      · exact absurd hnone htext
                      · exact .inr (by omega)
                  · cases hb'
                    exact h.1 rfl
                · rw [shorter_stays hd]
                  refine ⟨fun h => ⟨fun _ => ?_, fun _ => h⟩, fun h => h.2 fun _ => htext⟩
                  rcases h b rfl with hnone | hlt
                  · exact absurd (.inl hnone) hd
                  · have hle : ¬ (lowName x.1).length < b.length := fun hlt' => hd (.inr hlt')
                    exact .inr (by omega)

end

/-- A directory whose name is the best match. -/
structure IsBest (needle : Bytes) (front : List (Bytes × Node)) (e : Bytes × Node) (back : List (Bytes × Node)) :
    Prop where
  hit : nameMatches needle e = true
  clears : Clears needle front e
  kept : ∀ e' ∈ back, nameMatches needle e' = true → ¬ Displaces e' e.1

theorem fold_best_iff {needle : Bytes} {front back : List (Bytes × Node)} {e : Bytes × Node}
    (hnodup : ((front ++ e :: back).map (·.1)).Nodup) (hnames : ∀ x ∈ front, x.1 ≠ []) :
    (front ++ e :: back).foldl (shorter needle) none = some e.1 ↔ IsBest needle front e back := by
  rw [List.map_append, List.map_cons, List.nodup_append, List.nodup_cons] at hnodup
  obtain ⟨-, ⟨hback, -⟩, hapart⟩ := hnodup
  have hfront : ∀ b, front.foldl (shorter needle) none = some b → b ≠ e.1 := by
    intro b hb
    rcases fold_among hb with hnone | hmem
    · cases hnone
    · exact hapart b hmem e.1 List.mem_cons_self
  rw [List.foldl_append, List.foldl_cons]
  cases hm : nameMatches needle e with
  | false =>
      rw [shorter_skip hm]
      refine ⟨fun h => ?_, fun h => absurd (hm.symm.trans h.hit) Bool.false_ne_true⟩
      rcases fold_among h with heq | hmem
      · exact absurd rfl (hfront e.1 heq)
      · exact absurd hmem hback
  | true =>
      by_cases hclears : Clears needle front e
      · have hstep : shorter needle (front.foldl (shorter needle) none) e = some e.1 := by
          cases hbest : front.foldl (shorter needle) none with
          | none => exact shorter_none hm
          | some b => exact shorter_takes hm ((fold_front hnames).2 hclears b hbest)
        rw [hstep, fold_stays_iff hback]
        exact ⟨fun h => ⟨hm, hclears, h⟩, fun h => h.kept⟩
      · refine ⟨fun h => ?_, fun h => absurd h.clears hclears⟩
        rw [← fold_front hnames] at hclears
        simp only [not_forall] at hclears
        obtain ⟨b, hbest, hd⟩ := hclears
        rw [hbest, shorter_stays hd] at h
        rcases fold_among h with heq | hmem
        · exact absurd (Option.some.inj heq) (hfront b hbest)
        · exact absurd hmem hback

/-! ## The search -/

/-- The directory that is chosen: the first with a file of the stem, or where none has one the best match. -/
def Chosen (canonical : Bool) (wanted : Bytes) (front : List (Bytes × Node)) (e : Bytes × Node)
    (back : List (Bytes × Node)) : Prop :=
  (dirMatches canonical wanted e = some true ∧ ∀ e' ∈ front, dirMatches canonical wanted e' = some false) ∨
    ((∀ e' ∈ front ++ e :: back, dirMatches canonical wanted e' = some false) ∧
      IsBest (toAsciiLowercase wanted) front e back)

/-- A name stands in one place. -/
theorem split_unique {front front' back back' : List (Bytes × Node)} {e e' : Bytes × Node}
    (hnodup : ((front ++ e :: back).map (·.1)).Nodup) (h : front ++ e :: back = front' ++ e' :: back')
    (hname : e'.1 = e.1) : front' = front ∧ e' = e := by
  have hlen : front.length = front'.length := by
    have hi : ((front ++ e :: back).map (·.1))[front.length]? = some e.1 := by
      rw [List.map_append, List.getElem?_append_right (by simp)]
      simp
    have hj : ((front ++ e :: back).map (·.1))[front'.length]? = some e.1 := by
      rw [h, List.map_append, List.getElem?_append_right (by simp)]
      simp [hname]
    have hlt : front.length < ((front ++ e :: back).map (·.1)).length := by simp
    exact (List.getElem?_inj hlt hnodup).1 (hi.trans hj.symm)
  obtain ⟨hfront, hrest⟩ := List.append_inj h hlen
  exact ⟨hfront.symm, (List.cons.inj hrest).1.symm⟩

theorem searchIn_iff {d : Node} {canonical : Bool} {wanted : Bytes} {e : Bytes × Node} {front back : List (Bytes × Node)}
    (hwf : d.Wf) (hsplit : subdirs d = front ++ e :: back) :
    searchIn d canonical wanted = some (some e.1) ↔ Chosen canonical wanted front e back := by
  have hnodup : ((front ++ e :: back).map (·.1)).Nodup := hsplit ▸ hwf.subdirs_nodup
  have hnames : ∀ x ∈ front, x.1 ≠ [] := by
    intro x hx
    have hmem : x ∈ subdirs d := hsplit ▸ List.mem_append_left _ hx
    exact (hwf.name (mem_subdirs.1 hmem).1).ne_nil
  unfold searchIn
  rw [hsplit]
  constructor
  · intro h
    cases hit : firstMatch (dirMatches canonical wanted) (front ++ e :: back) with
    | none =>
        rw [hit] at h
        cases h
    | some found =>
        rw [hit] at h
        cases found with
        | none => exact .inr ⟨firstMatch_none_iff.1 hit, (fold_best_iff hnodup hnames).1 (Option.some.inj h)⟩
        | some e' =>
            obtain ⟨front', back', hsplit', hfront', hmatch⟩ := firstMatch_hit hit
            have hname : e'.1 = e.1 := Option.some.inj (Option.some.inj h)
            obtain ⟨rfl, rfl⟩ := split_unique hnodup hsplit' hname
            exact .inl ⟨hmatch, hfront'⟩
  · rintro (⟨hmatch, hfront⟩ | ⟨hnone, hbest⟩)
    · rw [firstMatch_found hfront hmatch]
      rfl
    · rw [firstMatch_none_iff.2 hnone]
      exact congrArg some ((fold_best_iff hnodup hnames).2 hbest)

end Oxydllm.Models
