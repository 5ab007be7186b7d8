/-
# Oxydllm.Lib.FanIn — sources forwarded into one queue, and what is taken from it.

Each source is forwarded in its own order, the sources in any order among each other. Nothing is lost, made twice or
turned around on the way: what was taken of a source, what is queued of it and what it still has make up the
source (`Step.conserves`). A network of finitely many sources comes to rest (`Step.remaining_lt`).
-/
import Mathlib.Algebra.BigOperators.Group.Finset.Basic
import Mathlib.Algebra.Order.BigOperators.Group.Finset
import Mathlib.Logic.Relation
import Mathlib.Tactic

namespace Oxydllm

structure FanIn (α : Type) where
  /-- what each source still has to give -/
  sources : Nat → List α
  queue : List (Nat × α)
  taken : List (Nat × α)

namespace FanIn

variable {α : Type}

def start (sources : Nat → List α) : FanIn α := ⟨sources, [], []⟩

def forward (s : FanIn α) (i : Nat) (a : α) (rest : List α) : FanIn α :=
  { s with sources := Function.update s.sources i rest, queue := s.queue ++ [(i, a)] }

def take (s : FanIn α) (p : Nat × α) (rest : List (Nat × α)) : FanIn α :=
  { s with queue := rest, taken := s.taken ++ [p] }

inductive Step (s : FanIn α) : FanIn α → Prop
  | forward {i : Nat} {a : α} {rest : List α} (h : s.sources i = a :: rest) : Step s (s.forward i a rest)
  | take {p : Nat × α} {rest : List (Nat × α)} (h : s.queue = p :: rest) : Step s (s.take p rest)

/-! ## What came from a source -/

def ofSource (i : Nat) (xs : List (Nat × α)) : List α := xs.filterMap fun p => if p.1 = i then some p.2 else none

@[simp] theorem ofSource_nil (i : Nat) : ofSource i ([] : List (Nat × α)) = [] := rfl

theorem ofSource_append (i : Nat) (xs ys : List (Nat × α)) : ofSource i (xs ++ ys) = ofSource i xs ++ ofSource i ys :=
  List.filterMap_append

theorem ofSource_self (i : Nat) (a : α) (xs : List (Nat × α)) : ofSource i ((i, a) :: xs) = a :: ofSource i xs := by
  simp [ofSource]

theorem ofSource_ne {i j : Nat} (h : j ≠ i) (a : α) (xs : List (Nat × α)) :
    ofSource i ((j, a) :: xs) = ofSource i xs := by
  simp [ofSource, h]

theorem mem_ofSource {i : Nat} {a : α} {xs : List (Nat × α)} : a ∈ ofSource i xs ↔ (i, a) ∈ xs := by
  simp only [ofSource, List.mem_filterMap, Option.ite_none_right_eq_some, Option.some.injEq]
  constructor
  · rintro ⟨⟨j, b⟩, hmem, rfl, rfl⟩
    exact hmem
  · intro hmem
    exact ⟨(i, a), hmem, rfl, rfl⟩

/-- What is summed up over all that was taken is summed up source by source. -/
theorem sum_ofSource {n : Nat} (f : α → Nat) {xs : List (Nat × α)} (h : ∀ p ∈ xs, p.1 < n) :
    (xs.map fun p => f p.2).sum = ∑ i ∈ Finset.range n, ((ofSource i xs).map f).sum := by
  induction xs with
  | nil => simp
  | cons p xs ih =>
      obtain ⟨j, a⟩ := p
      have hj : j ∈ Finset.range n := Finset.mem_range.2 (h _ List.mem_cons_self)
      have hone : ∀ i, ((ofSource i ((j, a) :: xs)).map f).sum =
          (if j = i then f a else 0) + ((ofSource i xs).map f).sum := by
        intro i
        rcases eq_or_ne j i with rfl | hne
        · rw [ofSource_self, List.map_cons, List.sum_cons, if_pos rfl]
        · rw [ofSource_ne hne, if_neg hne, Nat.zero_add]
      rw [List.map_cons, List.sum_cons, ih fun p hp => h p (List.mem_cons_of_mem _ hp), Finset.sum_congr rfl fun i _ => hone i,
        Finset.sum_add_distrib, Finset.sum_ite_eq, if_pos hj]

/-! ## Conservation -/

def Conserves (sources : Nat → List α) (s : FanIn α) : Prop :=
  ∀ i, ofSource i s.taken ++ ofSource i s.queue ++ s.sources i = sources i

theorem start_conserves (sources : Nat → List α) : (start sources).Conserves sources := fun _ => rfl

theorem Step.conserves {sources : Nat → List α} {s s' : FanIn α} (hstep : Step s s') (h : s.Conserves sources) :
    s'.Conserves sources := by
  intro i
  rcases hstep with @⟨j, a, rest, hsource⟩ | @⟨⟨j, a⟩, rest, hqueue⟩
  · rw [← h i]
    show ofSource i s.taken ++ ofSource i (s.queue ++ [(j, a)]) ++ Function.update s.sources j rest i = _
    rcases eq_or_ne j i with rfl | hne
    · rw [Function.update_self, ofSource_append, ofSource_self, hsource]
      simp
    · rw [Function.update_of_ne hne.symm, ofSource_append, ofSource_ne hne, ofSource_nil, List.append_nil]
  · rw [← h i, hqueue]
    show ofSource i (s.taken ++ [(j, a)]) ++ ofSource i rest ++ s.sources i = _
    rcases eq_or_ne j i with rfl | hne
    · rw [ofSource_append, ofSource_self, ofSource_self]
      simp
    · rw [ofSource_append, ofSource_ne hne, ofSource_ne hne, ofSource_nil, List.append_nil]

theorem Conserves.taken_prefix {sources : Nat → List α} {s : FanIn α} (h : s.Conserves sources) (i : Nat) :
    ofSource i s.taken <+: sources i := by
  rw [← h i, List.append_assoc]
  exact List.prefix_append _ _

theorem Conserves.taken_all {sources : Nat → List α} {s : FanIn α} (h : s.Conserves sources) (hqueue : s.queue = [])
    {i : Nat} (hsource : s.sources i = []) : ofSource i s.taken = sources i := by
  rw [← h i, hqueue, hsource, ofSource_nil, List.append_nil, List.append_nil]

theorem Conserves.source_nil {sources : Nat → List α} {s : FanIn α} (h : s.Conserves sources) {i : Nat}
    (hi : sources i = []) : s.sources i = [] := by
  have hall := h i
  rw [hi, List.append_eq_nil_iff] at hall
  exact hall.2

/-- Nothing is taken from where nothing was. -/
theorem Conserves.taken_lt {sources : Nat → List α} {s : FanIn α} (h : s.Conserves sources) {n : Nat}
    (hn : ∀ i, n ≤ i → sources i = []) : ∀ p ∈ s.taken, p.1 < n := by
  rintro ⟨i, a⟩ hp
  by_contra hle
  have hmem : a ∈ sources i := (h.taken_prefix i).subset (mem_ofSource.2 hp)
  rw [hn i (Nat.le_of_not_lt hle)] at hmem
  exact absurd hmem List.not_mem_nil

/-! ## Rest -/

/-- Two steps for what a source has, one for what is queued. -/
def remaining (n : Nat) (s : FanIn α) : Nat := 2 * ∑ i ∈ Finset.range n, (s.sources i).length + s.queue.length

theorem Step.remaining_lt {n : Nat} {s s' : FanIn α} (hstep : Step s s') (h : ∀ i, n ≤ i → s.sources i = []) :
    s'.remaining n < s.remaining n := by
  rcases hstep with @⟨j, a, rest, hsource⟩ | @⟨p, rest, hqueue⟩
  · have hj : j ∈ Finset.range n := by
      by_contra hnot
      rw [h j (by simpa using hnot)] at hsource
      exact absurd hsource (by simp)
    have hsum : ∑ i ∈ Finset.range n, (Function.update s.sources j rest i).length <
        ∑ i ∈ Finset.range n, (s.sources i).length := by
      apply Finset.sum_lt_sum
      · intro i _
        rcases eq_or_ne i j with rfl | hne
        · rw [Function.update_self, hsource]
          exact Nat.le_succ _
        · rw [Function.update_of_ne hne]
      · refine ⟨j, hj, ?_⟩
        rw [Function.update_self, hsource]
        exact Nat.lt_succ_self _
    show 2 * ∑ i ∈ Finset.range n, (Function.update s.sources j rest i).length + (s.queue ++ [(j, a)]).length <
      2 * ∑ i ∈ Finset.range n, (s.sources i).length + s.queue.length
    rw [List.length_append, List.length_singleton]
    omega
  · show 2 * ∑ i ∈ Finset.range n, (s.sources i).length + rest.length <
      2 * ∑ i ∈ Finset.range n, (s.sources i).length + s.queue.length
    rw [hqueue, List.length_cons]
    omega

end FanIn

end Oxydllm
