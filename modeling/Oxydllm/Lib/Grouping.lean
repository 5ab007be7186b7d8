/-
# Oxydllm.Lib.Grouping — things put into groups by keys, one after the other.

A thing goes to the first group whose key is equivalent to its own, or makes a new one. The groups are then
those of the equivalence: each has, in their order, the things with keys equivalent to its own
(`groupsOf_foldl`).
-/
import Mathlib.Data.List.Basic
import Mathlib.Tactic

namespace Oxydllm.Grouping

variable {α κ : Type}

def push (r : κ → κ → Bool) : List (κ × List α) → α × κ → List (κ × List α)
  | [], p => [(p.2, [p.1])]
  | g :: groups, p => if r g.1 p.2 then (g.1, g.2 ++ [p.1]) :: groups else g :: push r groups p

/-- The things of a key. -/
def ofKey (r : κ → κ → Bool) (keyed : List (α × κ)) (k : κ) : List α := (keyed.filter fun p => r k p.2).map (·.1)

structure GroupsOf (r : κ → κ → Bool) (keyed : List (α × κ)) (groups : List (κ × List α)) : Prop where
  apart : groups.Pairwise fun g g' => ¬ r g.1 g'.1 = true
  things : ∀ g ∈ groups, g.2 = ofKey r keyed g.1
  covered : ∀ p ∈ keyed, ∃ g ∈ groups, r g.1 p.2 = true
  inhabited : ∀ g ∈ groups, ∃ p ∈ keyed, p.2 = g.1

variable {r : κ → κ → Bool}

theorem push_new {groups : List (κ × List α)} {p : α × κ} (h : ∀ g ∈ groups, ¬ r g.1 p.2 = true) :
    push r groups p = groups ++ [(p.2, [p.1])] := by
  induction groups with
  | nil => rfl
  | cons g groups ih =>
      rw [push, if_neg (h g List.mem_cons_self), ih fun g' hg' => h g' (List.mem_cons_of_mem _ hg')]
      rfl

theorem push_old {front back : List (κ × List α)} {g : κ × List α} {p : α × κ}
    (hfront : ∀ g' ∈ front, ¬ r g'.1 p.2 = true) (hg : r g.1 p.2 = true) :
    push r (front ++ g :: back) p = front ++ (g.1, g.2 ++ [p.1]) :: back := by
  induction front with
  | nil => exact if_pos hg
  | cons g' front ih =>
      rw [List.cons_append, push, if_neg (hfront g' List.mem_cons_self),
        ih fun g'' hg'' => hfront g'' (List.mem_cons_of_mem _ hg'')]
      rfl

/-- The first group of a key. -/
theorem exists_first {groups : List (κ × List α)} {k : κ} (h : ∃ g ∈ groups, r g.1 k = true) :
    ∃ front g back, groups = front ++ g :: back ∧ (∀ g' ∈ front, ¬ r g'.1 k = true) ∧ r g.1 k = true := by
  induction groups with
  | nil =>
      obtain ⟨g, hg, -⟩ := h
      cases hg
  | cons g groups ih =>
      by_cases hg : r g.1 k = true
      · exact ⟨[], g, groups, rfl, fun _ h => absurd h List.not_mem_nil, hg⟩
      · obtain ⟨g', hg', hk⟩ := h
        have hrest : ∃ g ∈ groups, r g.1 k = true := by
          rcases List.mem_cons.1 hg' with rfl | hmem
          · exact absurd hk hg
          · exact ⟨g', hmem, hk⟩
        obtain ⟨front, g'', back, rfl, hfront, hk''⟩ := ih hrest
        refine ⟨g :: front, g'', back, rfl, fun g' hg' => ?_, hk''⟩
        rcases List.mem_cons.1 hg' with rfl | hmem
        · exact hg
        · exact hfront g' hmem

theorem ofKey_snoc (keyed : List (α × κ)) (p : α × κ) (k : κ) :
    ofKey r (keyed ++ [p]) k = ofKey r keyed k ++ if r k p.2 = true then [p.1] else [] := by
  unfold ofKey
  rw [List.filter_append, List.map_append]
  congr 1
  by_cases hk : r k p.2 = true
  · simp [hk]
  · simp [hk]

theorem GroupsOf.push (hr : Equivalence fun a b => r a b = true) {keyed : List (α × κ)} {groups : List (κ × List α)}
    (h : GroupsOf r keyed groups) (p : α × κ) : GroupsOf r (keyed ++ [p]) (push r groups p) := by
  by_cases hnew : ∃ g ∈ groups, r g.1 p.2 = true
  · obtain ⟨front, g, back, rfl, hfront, hg⟩ := exists_first hnew
    rw [push_old hfront hg]
    obtain ⟨hapart, hthings, hcovered, hinhabited⟩ := h
    have hback : ∀ g' ∈ back, ¬ r g'.1 p.2 = true := by
      intro g' hg' hk
      have hcons := (List.pairwise_append.1 hapart).2.1
      exact (List.pairwise_cons.1 hcons).1 g' hg' (hr.trans hg (hr.symm hk))
    -- the keys of the groups are as before
    have hkeys : ∀ g' ∈ front ++ (g.1, g.2 ++ [p.1]) :: back, ∃ g'' ∈ front ++ g :: back, g''.1 = g'.1 := by
      intro g' hg'
      rcases List.mem_append.1 hg' with hmem | hmem
      · exact ⟨g', List.mem_append_left _ hmem, rfl⟩
      · rcases List.mem_cons.1 hmem with rfl | hmem
        · exact ⟨g, List.mem_append_right _ List.mem_cons_self, rfl⟩
        · exact ⟨g', List.mem_append_right _ (List.mem_cons_of_mem _ hmem), rfl⟩
    refine ⟨?_, fun g' hg' => ?_, fun q hq => ?_, fun g' hg' => ?_⟩
    · rw [List.pairwise_append, List.pairwise_cons] at hapart ⊢
      refine ⟨hapart.1, hapart.2.1, fun a ha b hb => ?_⟩
      rcases List.mem_cons.1 hb with rfl | hb
      · exact hapart.2.2 a ha g List.mem_cons_self
      · exact hapart.2.2 a ha b (List.mem_cons_of_mem _ hb)
    · rw [ofKey_snoc]
      rcases List.mem_append.1 hg' with hmem | hmem
      · rw [if_neg (hfront g' hmem), List.append_nil]
        exact hthings g' (List.mem_append_left _ hmem)
      · rcases List.mem_cons.1 hmem with rfl | hmem
        · rw [if_pos hg, ← hthings g (List.mem_append_right _ List.mem_cons_self)]
        · rw [if_neg (hback g' hmem), List.append_nil]
          exact hthings g' (List.mem_append_right _ (List.mem_cons_of_mem _ hmem))
    · have hold : ∃ g' ∈ front ++ g :: back, r g'.1 q.2 = true := by
        rcases List.mem_append.1 hq with hmem | hmem
        · exact hcovered q hmem
        · cases List.mem_singleton.1 hmem
          exact ⟨g, List.mem_append_right _ List.mem_cons_self, hg⟩
      obtain ⟨g', hg', hk⟩ := hold
      rcases List.mem_append.1 hg' with hmem | hmem
      · exact ⟨g', List.mem_append_left _ hmem, hk⟩
      · rcases List.mem_cons.1 hmem with rfl | hmem
        · exact ⟨_, List.mem_append_right _ List.mem_cons_self, hk⟩
        · exact ⟨g', List.mem_append_right _ (List.mem_cons_of_mem _ hmem), hk⟩
    · obtain ⟨g'', hg'', heq⟩ := hkeys g' hg'
      obtain ⟨q, hq, hk⟩ := hinhabited g'' hg''
      exact ⟨q, List.mem_append_left _ hq, hk.trans heq⟩
  · have hnone : ∀ g ∈ groups, ¬ r g.1 p.2 = true := fun g hg hk => hnew ⟨g, hg, hk⟩
    rw [push_new hnone]
    refine ⟨?_, fun g hg => ?_, fun q hq => ?_, fun g hg => ?_⟩
    · rw [List.pairwise_append]
      refine ⟨h.apart, List.pairwise_singleton _ _, fun a ha b hb => ?_⟩
      cases List.mem_singleton.1 hb
      exact hnone a ha
    · rw [ofKey_snoc]
      rcases List.mem_append.1 hg with hmem | hmem
      · rw [if_neg (hnone g hmem), List.append_nil]
        exact h.things g hmem
      · cases List.mem_singleton.1 hmem
        have hempty : ofKey r keyed p.2 = [] := by
          unfold ofKey
          rw [List.map_eq_nil_iff, List.filter_eq_nil_iff]
          intro q hq hk
          obtain ⟨g, hg, hgk⟩ := h.covered q hq
          exact hnone g hg (hr.trans hgk (hr.symm hk))
        rw [hempty, if_pos (hr.refl p.2), List.nil_append]
    · rcases List.mem_append.1 hq with hmem | hmem
      · obtain ⟨g, hg, hk⟩ := h.covered q hmem
        exact ⟨g, List.mem_append_left _ hg, hk⟩
      · cases List.mem_singleton.1 hmem
        exact ⟨_, List.mem_append_right _ List.mem_cons_self, hr.refl p.2⟩
    · rcases List.mem_append.1 hg with hmem | hmem
      · obtain ⟨q, hq, hk⟩ := h.inhabited g hmem
        exact ⟨q, List.mem_append_left _ hq, hk⟩
      · cases List.mem_singleton.1 hmem
        exact ⟨p, List.mem_append_right _ List.mem_cons_self, rfl⟩

theorem groupsOf_nil : GroupsOf r ([] : List (α × κ)) [] :=
  ⟨List.Pairwise.nil, fun _ h => absurd h List.not_mem_nil, fun _ h => absurd h List.not_mem_nil,
    fun _ h => absurd h List.not_mem_nil⟩

theorem groupsOf_foldl (hr : Equivalence fun a b => r a b = true) (keyed : List (α × κ)) :
    GroupsOf r keyed (keyed.foldl (push r) []) := by
  have hall : ∀ (keyed front : List (α × κ)) (groups : List (κ × List α)), GroupsOf r front groups →
      GroupsOf r (front ++ keyed) (keyed.foldl (push r) groups) := by
    intro keyed
    induction keyed with
    | nil =>
        intro front groups h
        rwa [List.append_nil]
    | cons p keyed ih =>
        intro front groups h
        have := ih (front ++ [p]) (Grouping.push r groups p) (h.push hr p)
        rwa [List.append_assoc] at this
  exact hall keyed [] [] groupsOf_nil

/-! ## Keys that are computed -/

section Keyed

variable {f : α → Option κ}

/-- Each thing with its key, when all have one. -/
theorem keyed_spec {xs : List α} {keyed : List (α × κ)} (h : xs.mapM (fun x => (f x).map (x, ·)) = some keyed) :
    keyed.map (·.1) = xs ∧ ∀ p ∈ keyed, f p.1 = some p.2 := by
  induction xs generalizing keyed with
  | nil =>
      cases h
      exact ⟨rfl, fun _ h => absurd h List.not_mem_nil⟩
  | cons x xs ih =>
      rw [List.mapM_cons] at h
      cases hx : f x with
      | none =>
          rw [hx] at h
          cases h
      | some k =>
          rw [hx] at h
          cases hxs : xs.mapM fun x => (f x).map (x, ·) with
          | none =>
              rw [hxs] at h
              cases h
          | some rest =>
              rw [hxs] at h
              cases h
              obtain ⟨hmap, hkeys⟩ := ih hxs
              refine ⟨congrArg (x :: ·) hmap, fun p hp => ?_⟩
              rcases List.mem_cons.1 hp with rfl | hp
              · exact hx
              · exact hkeys p hp

/-- The things of a key are those whose key is computed so. -/
theorem ofKey_keyed {xs : List α} {keyed : List (α × κ)} (h : xs.mapM (fun x => (f x).map (x, ·)) = some keyed)
    (k : κ) : ofKey r keyed k = xs.filter fun x => (f x).any (r k) := by
  obtain ⟨hmap, hkeys⟩ := keyed_spec h
  unfold ofKey
  rw [← hmap, List.filter_map]
  congr 1
  refine List.filter_congr fun p hp => ?_
  show r k p.2 = (f p.1).any (r k)
  rw [hkeys p hp]
  rfl

theorem exists_keyed {xs : List α} (h : ∀ x ∈ xs, ∃ k, f x = some k) :
    ∃ keyed, xs.mapM (fun x => (f x).map (x, ·)) = some keyed := by
  induction xs with
  | nil => exact ⟨[], rfl⟩
  | cons x xs ih =>
      obtain ⟨k, hk⟩ := h x List.mem_cons_self
      obtain ⟨rest, hrest⟩ := ih fun y hy => h y (List.mem_cons_of_mem _ hy)
      refine ⟨(x, k) :: rest, ?_⟩
      rw [List.mapM_cons, hk, hrest]
      rfl

theorem keyed_some {xs : List α} {keyed : List (α × κ)} (h : xs.mapM (fun x => (f x).map (x, ·)) = some keyed) :
    ∀ x ∈ xs, ∃ k, f x = some k := by
  obtain ⟨hmap, hkeys⟩ := keyed_spec h
  intro x hx
  rw [← hmap] at hx
  obtain ⟨p, hp, rfl⟩ := List.mem_map.1 hx
  exact ⟨p.2, hkeys p hp⟩

end Keyed

end Oxydllm.Grouping
