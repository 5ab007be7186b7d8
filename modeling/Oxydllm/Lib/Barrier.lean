/-
# Oxydllm.Lib.Barrier — groups of threads that share a scratch memory, from one barrier to the next.

In a round every thread of a group puts values into the scratch, waits at the barrier, and then reads the scratch and
stores to the memory that all groups share. In what order the threads of a round come, and the groups, is the
scheduler's. `Launched` takes any order; what a launch leaves is the same for all of them as soon as each round reads
only cells that it fills itself, and no two stores disagree (`Launched.stored`). Where it starts from, the scratch as
much as the memory, does not matter then.
-/
import Oxydllm.Lib.RowMajor
import Mathlib.Data.List.Perm.Basic
import Mathlib.Data.List.Forall2
import Mathlib.Logic.Function.Basic

namespace Oxydllm.Barrier

variable {T G α β : Type}

/-! ## Stores -/

def run (mem : Nat → α) (stores : List (Nat × α)) : Nat → α :=
  stores.foldl (fun m s => Function.update m s.1 s.2) mem

theorem run_cons (mem : Nat → α) (s : Nat × α) (stores : List (Nat × α)) :
    run mem (s :: stores) = run (Function.update mem s.1 s.2) stores := rfl

theorem run_of_same {mem : Nat → α} {stores : List (Nat × α)} {a : Nat} {v : α}
    (hsame : ∀ s ∈ stores, s.1 = a → s.2 = v) (h : (∃ s ∈ stores, s.1 = a) ∨ mem a = v) : run mem stores a = v := by
  induction stores generalizing mem with
  | nil => exact h.elim (fun ⟨s, hs, _⟩ => absurd hs List.not_mem_nil) id
  | cons s stores ih =>
      rw [run_cons]
      refine ih (fun s' hs' => hsame s' (List.mem_cons_of_mem _ hs')) ?_
      by_cases hs : s.1 = a
      · right
        rw [← hs, Function.update_self]
        exact hsame s List.mem_cons_self hs
      · rcases h with ⟨s', hs', ha⟩ | h
        · rcases List.mem_cons.1 hs' with rfl | hs'
          · exact absurd ha hs
          · exact .inl ⟨s', hs', ha⟩
        · right
          rwa [Function.update_of_ne (Ne.symm hs)]

/-- A cell that is stored to, by everyone the same value, has that value. -/
theorem run_stored {mem : Nat → α} {stores : List (Nat × α)} {a : Nat} {v : α}
    (hsame : ∀ s ∈ stores, s.1 = a → s.2 = v) (h : (a, v) ∈ stores) : run mem stores a = v :=
  run_of_same hsame (.inl ⟨_, h, rfl⟩)

/-! ## Rounds -/

structure Round (T α β : Type) where
  put : T → List (Nat × α)
  emit : T → (Nat → α) → List (Nat × β)

/-- The rounds of a group one after another, with the stores they make. -/
inductive Executes (threads : List T) : List (Round T α β) → (Nat → α) → List (Nat × β) → Prop
  | done (scratch : Nat → α) : Executes threads [] scratch []
  | round {r : Round T α β} {rs : List (Round T α β)} {scratch : Nat → α} {order : List (Nat × α)}
      {out : List (Nat × β)} (horder : order.Perm (threads.flatMap r.put))
      (hrest : Executes threads rs (run scratch order) out) :
      Executes threads (r :: rs) scratch ((threads.flatMap fun t => r.emit t (run scratch order)) ++ out)

/-- What the groups store, in any order, over whatever the memory held. -/
def Launched (groups : List G) (threads : List T) (rounds : G → List (Round T α β)) (after : Nat → β) : Prop :=
  ∃ (outs : List (List (Nat × β))) (order : List (Nat × β)) (before : Nat → β),
    List.Forall₂ (fun g out => ∃ scratch, Executes threads (rounds g) scratch out) groups outs ∧
      order.Perm outs.flatten ∧ after = run before order

theorem exists_executes (threads : List T) (rs : List (Round T α β)) (scratch : Nat → α) :
    ∃ out, Executes threads rs scratch out := by
  induction rs generalizing scratch with
  | nil => exact ⟨[], .done scratch⟩
  | cons r rs ih =>
      obtain ⟨out, hout⟩ := ih (run scratch (threads.flatMap r.put))
      exact ⟨_, .round (List.Perm.refl _) hout⟩

/-- Some schedule there is: that of the lists. -/
theorem exists_launched [Inhabited α] [Inhabited β] (groups : List G) (threads : List T)
    (rounds : G → List (Round T α β)) : ∃ after, Launched groups threads rounds after := by
  have houts : ∃ outs, List.Forall₂ (fun g out => ∃ scratch, Executes threads (rounds g) scratch out) groups outs := by
    induction groups with
    | nil => exact ⟨[], .nil⟩
    | cons g groups ih =>
        obtain ⟨outs, houts⟩ := ih
        obtain ⟨out, hout⟩ := exists_executes threads (rounds g) fun _ => default
        exact ⟨out :: outs, .cons ⟨_, hout⟩ houts⟩
  obtain ⟨outs, houts⟩ := houts
  exact ⟨_, outs, outs.flatten, fun _ => default, houts, List.Perm.refl _, rfl⟩

/-- The stores of a thread in a round whose reads are settled by the puts. -/
def Settled (threads : List T) (r : Round T α β) (stores : T → List (Nat × β)) : Prop :=
  ∀ scratch order, order.Perm (threads.flatMap r.put) → ∀ t ∈ threads, r.emit t (run scratch order) = stores t

section Settling

variable {ι : Type} {threads : List T} {idx : List ι}

theorem Executes.eq {round : ι → Round T α β} {scratch : Nat → α} {out : List (Nat × β)}
    {stores : ι → T → List (Nat × β)} (h : Executes threads (idx.map round) scratch out)
    (hsettled : ∀ i ∈ idx, Settled threads (round i) (stores i)) :
    out = idx.flatMap fun i => threads.flatMap (stores i) := by
  induction idx generalizing scratch out with
  | nil =>
      rcases h with ⟨⟩
      rfl
  | cons i idx ih =>
      rcases h with _ | ⟨horder, hrest⟩
      rw [List.flatMap_cons, ih hrest fun i' hi' => hsettled i' (List.mem_cons_of_mem _ hi')]
      congr 1
      exact List.flatMap_congr fun t ht => hsettled i List.mem_cons_self _ _ horder t ht

variable {groups : List G} {round : G → ι → Round T α β} {stores : G → ι → T → List (Nat × β)}

/-- Every store of a launch is one of a thread in a round. -/
theorem mem_flatten_outs {outs : List (List (Nat × β))}
    (h : List.Forall₂ (fun g out => ∃ scratch, Executes threads (idx.map (round g)) scratch out) groups outs)
    (hsettled : ∀ g ∈ groups, ∀ i ∈ idx, Settled threads (round g i) (stores g i)) {s : Nat × β} :
    s ∈ outs.flatten ↔ ∃ g ∈ groups, ∃ i ∈ idx, ∃ t ∈ threads, s ∈ stores g i t := by
  induction h with
  | nil => exact ⟨fun hs => absurd hs List.not_mem_nil, fun ⟨g, hg, _⟩ => absurd hg List.not_mem_nil⟩
  | @cons g out groups outs hg _ ih =>
      obtain ⟨scratch, hexec⟩ := hg
      have hout := hexec.eq (hsettled g List.mem_cons_self)
      rw [List.flatten_cons, List.mem_append, ih fun g' hg' => hsettled g' (List.mem_cons_of_mem _ hg'), hout,
        List.mem_flatMap]
      constructor
      · rintro (⟨i, hi, hs⟩ | ⟨g', hg', hs⟩)
        · obtain ⟨t, ht, hs⟩ := List.mem_flatMap.1 hs
          exact ⟨g, List.mem_cons_self, i, hi, t, ht, hs⟩
        · exact ⟨g', List.mem_cons_of_mem _ hg', hs⟩
      · rintro ⟨g', hg', i, hi, t, ht, hs⟩
        rcases List.mem_cons.1 hg' with rfl | hg'
        · exact .inl ⟨i, hi, List.mem_flatMap.2 ⟨t, ht, hs⟩⟩
        · exact .inr ⟨g', hg', i, hi, t, ht, hs⟩

/-- A cell that some thread stores to, and all of them the same value, has that value in the end. -/
theorem Launched.stored {after : Nat → β} (h : Launched groups threads (fun g => idx.map (round g)) after)
    (hsettled : ∀ g ∈ groups, ∀ i ∈ idx, Settled threads (round g i) (stores g i)) {a : Nat} {v : β}
    (hstore : ∃ g ∈ groups, ∃ i ∈ idx, ∃ t ∈ threads, (a, v) ∈ stores g i t)
    (hsame : ∀ g ∈ groups, ∀ i ∈ idx, ∀ t ∈ threads, ∀ s ∈ stores g i t, s.1 = a → s.2 = v) : after a = v := by
  obtain ⟨outs, order, before, houts, horder, rfl⟩ := h
  refine run_stored (fun s hs ha => ?_) (horder.mem_iff.2 ((mem_flatten_outs houts hsettled).2 hstore))
  obtain ⟨g, hg, i, hi, t, ht, hst⟩ := (mem_flatten_outs houts hsettled).1 (horder.mem_iff.1 hs)
  exact hsame g hg i hi t ht s hst ha

end Settling

/-! ## Slots of threads in a grid -/

/-- The threads of a group, `width` across and `height` down. -/
def grid (width height : Nat) : List (Nat × Nat) :=
  (List.range height).flatMap fun y => (List.range width).map fun x => (x, y)

theorem mem_grid {width height : Nat} {t : Nat × Nat} : t ∈ grid width height ↔ t.1 < width ∧ t.2 < height := by
  unfold grid
  rw [List.mem_flatMap]
  constructor
  · rintro ⟨y, hy, ht⟩
    obtain ⟨x, hx, rfl⟩ := List.mem_map.1 ht
    exact ⟨List.mem_range.1 hx, List.mem_range.1 hy⟩
  · rintro ⟨hx, hy⟩
    exact ⟨t.2, List.mem_range.2 hy, List.mem_map.2 ⟨t.1, List.mem_range.2 hx, rfl⟩⟩

/-- Slot `k` of the thread at `(x, y)`, with `slots` to a thread. -/
def cell (width slots x y k : Nat) : Nat := (y * width + x) * slots + k

theorem cell_inj {width slots x y k x' y' k' : Nat} (hx : x < width) (hx' : x' < width) (hk : k < slots)
    (hk' : k' < slots) (h : cell width slots x y k = cell width slots x' y' k') : x = x' ∧ y = y' ∧ k = k' := by
  obtain ⟨hpos, hkk⟩ := RowMajor.index_inj hk hk' h
  obtain ⟨hyy, hxx⟩ := RowMajor.index_inj hx hx' hpos
  exact ⟨hxx, hyy, hkk⟩

/-- Every thread fills its slots. -/
def putSlots (width slots : Nat) (value : Nat × Nat → Nat → α) (t : Nat × Nat) : List (Nat × α) :=
  (List.range slots).map fun k => (cell width slots t.1 t.2 k, value t k)

/-- Behind the barrier each slot holds what its thread has put there. -/
theorem run_putSlots {width height slots : Nat} {value : Nat × Nat → Nat → α} {scratch : Nat → α}
    {order : List (Nat × α)} (h : order.Perm ((grid width height).flatMap (putSlots width slots value))) {x y k : Nat}
    (hx : x < width) (hy : y < height) (hk : k < slots) :
    run scratch order (cell width slots x y k) = value (x, y) k := by
  refine run_stored (fun s hs hcell => ?_) (h.mem_iff.2 ?_)
  · obtain ⟨t, ht, hs⟩ := List.mem_flatMap.1 (h.mem_iff.1 hs)
    obtain ⟨k', hk', rfl⟩ := List.mem_map.1 hs
    obtain ⟨hxx, hyy, rfl⟩ := cell_inj (mem_grid.1 ht).1 hx (List.mem_range.1 hk') hk hcell
    obtain rfl : t = (x, y) := Prod.ext hxx hyy
    rfl
  · exact List.mem_flatMap.2 ⟨(x, y), mem_grid.2 ⟨hx, hy⟩, List.mem_map.2 ⟨k, List.mem_range.2 hk, rfl⟩⟩

end Oxydllm.Barrier
