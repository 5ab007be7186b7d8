/-
# Oxydllm.Lib.Runs — an output whose last entry takes what comes of the same key.

`mergeInto` is one step of a loop that looks at the end of what it has written: an element of that end's key goes into
it, any other opens an entry of its own. A whole run of the loop is the elements cut into stretches of one key, each
gathered into one entry (`foldl_mergeInto`); neighbouring entries then differ in their keys (`gathered_alternate`).
-/
import Mathlib.Data.List.SplitBy

namespace Oxydllm.Runs

variable {α β κ : Type} [DecidableEq κ] (key : α → κ) (keyOf : β → κ) (start : α → β) (extend : β → α → β)

def mergeInto (out : List β) (x : α) : List β :=
  match out.getLast? with
  | some last => if keyOf last = key x then out.dropLast ++ [extend last x] else out ++ [start x]
  | none => out ++ [start x]

/-- The stretches of one key. -/
def runs (xs : List α) : List (List α) := xs.splitBy fun a b => key a = key b

/-- One entry of a stretch. -/
def gathered : List α → Option β
  | [] => none
  | x :: xs => some (xs.foldl extend (start x))

theorem filterMap_gathered_cons (x : α) (xs : List α) (rs : List (List α)) :
    ((x :: xs) :: rs).filterMap (gathered start extend) =
      xs.foldl extend (start x) :: rs.filterMap (gathered start extend) := rfl

section Steps

variable {key keyOf start extend} {out : List β} {last : β} {x : α} {xs : List α}

theorem mergeInto_same (h : keyOf last = key x) :
    mergeInto key keyOf start extend (out ++ [last]) x = out ++ [extend last x] := by
  rw [mergeInto, List.getLast?_concat]
  show (if keyOf last = key x then (out ++ [last]).dropLast ++ [extend last x] else _) = _
  rw [if_pos h, List.dropLast_concat]

theorem mergeInto_other (h : ∀ last ∈ out.getLast?, keyOf last ≠ key x) :
    mergeInto key keyOf start extend out x = out ++ [start x] := by
  unfold mergeInto
  rcases hlast : out.getLast? with - | last
  · rfl
  · exact if_neg (h last hlast)

/-- What the two ways of writing keep of the key. -/
structure Keyed (key : α → κ) (keyOf : β → κ) (start : α → β) (extend : β → α → β) : Prop where
  start : ∀ x, keyOf (start x) = key x
  extend : ∀ b x, keyOf (extend b x) = keyOf b

theorem foldl_mergeInto_same (hk : Keyed key keyOf start extend) (h : ∀ x ∈ xs, key x = keyOf last) :
    xs.foldl (mergeInto key keyOf start extend) (out ++ [last]) = out ++ [xs.foldl extend last] := by
  induction xs generalizing last with
  | nil => rfl
  | cons x xs ih =>
      rw [List.foldl_cons, mergeInto_same (h x List.mem_cons_self).symm, ih, List.foldl_cons]
      intro y hy
      rw [hk.extend]
      exact h y (List.mem_cons_of_mem _ hy)

theorem foldl_mergeInto_run (hk : Keyed key keyOf start extend) (hout : ∀ last ∈ out.getLast?, keyOf last ≠ key x)
    (h : ∀ y ∈ xs, key y = key x) :
    (x :: xs).foldl (mergeInto key keyOf start extend) out = out ++ [xs.foldl extend (start x)] := by
  rw [List.foldl_cons, mergeInto_other hout, foldl_mergeInto_same hk]
  intro y hy
  rw [hk.start]
  exact h y hy

omit [DecidableEq κ] in
theorem keyOf_foldl (hk : Keyed key keyOf start extend) (last : β) (xs : List α) :
    keyOf (xs.foldl extend last) = keyOf last := by
  induction xs generalizing last with
  | nil => rfl
  | cons x xs ih => rw [List.foldl_cons, ih, hk.extend]

end Steps

section Cut

variable {key keyOf start extend} {x : α} {xs : List α} {rs : List (List α)}

theorem key_of_run (h : (x :: xs).IsChain fun a b => decide (key a = key b) = true) : ∀ y ∈ xs, key y = key x := by
  induction xs generalizing x with
  | nil => intro y hy; exact absurd hy List.not_mem_nil
  | cons x' xs ih =>
      obtain ⟨hxx', hrest⟩ := List.isChain_cons_cons.1 h
      have hkey : key x = key x' := of_decide_eq_true hxx'
      intro y hy
      rcases List.mem_cons.1 hy with rfl | hy
      · exact hkey.symm
      · exact (ih hrest y hy).trans hkey.symm

omit [DecidableEq κ] in
theorem key_getLast (h : ∀ y ∈ xs, key y = key x) : key ((x :: xs).getLast (List.cons_ne_nil x xs)) = key x := by
  rcases List.mem_cons.1 (List.getLast_mem (List.cons_ne_nil x xs)) with hlast | hlast
  · rw [hlast]
  · exact h _ hlast

/-- Each stretch of one key, next to one of another. -/
def Cut (key : α → κ) (rs : List (List α)) : Prop :=
  [] ∉ rs ∧ (∀ r ∈ rs, r.IsChain fun a b => decide (key a = key b) = true) ∧
    rs.IsChain fun a b => ∃ ha hb, decide (key (a.getLast ha) = key (b.head hb)) = false

theorem cut_runs (xs : List α) : Cut key (runs key xs) :=
  ⟨List.nil_notMem_splitBy _ xs, fun _ => List.isChain_of_mem_splitBy,
    List.isChain_getLast_head_splitBy (fun a b => decide (key a = key b)) xs⟩

theorem Cut.tail {r : List α} (h : Cut key (r :: rs)) : Cut key rs :=
  ⟨fun hmem => h.1 (List.mem_cons_of_mem _ hmem), fun r' hr' => h.2.1 r' (List.mem_cons_of_mem _ hr'), h.2.2.tail⟩

/-- The next stretch does not have the key of this one. -/
theorem Cut.next {x' : α} {xs' : List α} (h : Cut key ((x :: xs) :: (x' :: xs') :: rs)) : key x ≠ key x' := by
  obtain ⟨ha, hb, hne⟩ := (List.isChain_cons_cons.1 h.2.2).1
  have hrun : ∀ y ∈ xs, key y = key x := key_of_run (h.2.1 _ List.mem_cons_self)
  rw [← key_getLast hrun]
  exact of_decide_eq_false hne

theorem foldl_mergeInto_cut (hk : Keyed key keyOf start extend) {out : List β} (h : Cut key rs)
    (hout : ∀ last ∈ out.getLast?, ∀ r ∈ rs.head?, ∀ y ∈ r.head?, keyOf last ≠ key y) :
    rs.flatten.foldl (mergeInto key keyOf start extend) out = out ++ rs.filterMap (gathered start extend) := by
  induction rs generalizing out with
  | nil => exact (List.append_nil out).symm
  | cons r rs ih =>
      rcases r with - | ⟨x, xs⟩
      · exact absurd List.mem_cons_self h.1
      have hrun : ∀ y ∈ xs, key y = key x := key_of_run (h.2.1 _ List.mem_cons_self)
      rw [List.flatten_cons, List.foldl_append,
        foldl_mergeInto_run hk (fun last hlast => hout last hlast _ rfl x rfl) hrun, ih h.tail,
        filterMap_gathered_cons, List.append_assoc, List.singleton_append]
      -- the entry just written has the key of its stretch, which is not that of the next
      intro last hlast r hr y hy
      rw [List.getLast?_concat, Option.mem_some] at hlast
      subst hlast
      rw [keyOf_foldl hk, hk.start]
      rcases rs with - | ⟨- | ⟨x', xs'⟩, rs⟩
      · exact absurd hr (Option.not_mem_none _)
      · exact absurd (List.mem_cons_of_mem _ List.mem_cons_self) h.1
      · obtain rfl : x' :: xs' = r := Option.some.inj hr
        obtain rfl : x' = y := Option.some.inj hy
        exact h.next

end Cut

variable {key keyOf start extend}

theorem foldl_mergeInto (hk : Keyed key keyOf start extend) (xs : List α) :
    xs.foldl (mergeInto key keyOf start extend) [] = (runs key xs).filterMap (gathered start extend) := by
  have hflat : (runs key xs).flatten = xs := List.flatten_splitBy _ xs
  have hcut : Cut key (runs key xs) := cut_runs xs
  calc xs.foldl (mergeInto key keyOf start extend) []
      = (runs key xs).flatten.foldl (mergeInto key keyOf start extend) [] := by rw [hflat]
    _ = [] ++ (runs key xs).filterMap (gathered start extend) :=
        foldl_mergeInto_cut hk hcut fun _ h => absurd h (Option.not_mem_none _)
    _ = (runs key xs).filterMap (gathered start extend) := List.nil_append _

/-- Neighbours never share a key. -/
theorem gathered_alternate (hk : Keyed key keyOf start extend) (xs : List α) :
    ((runs key xs).filterMap (gathered start extend)).IsChain fun a b => keyOf a ≠ keyOf b := by
  generalize hrs : runs key xs = rs
  have hcut : Cut key rs := hrs ▸ cut_runs xs
  clear hrs
  induction rs with
  | nil => exact List.isChain_nil
  | cons r rs ih =>
      rcases r with - | ⟨x, xs⟩
      · exact absurd List.mem_cons_self hcut.1
      rw [filterMap_gathered_cons]
      rcases rs with - | ⟨- | ⟨x', xs'⟩, rs⟩
      · exact List.isChain_singleton _
      · exact absurd (List.mem_cons_of_mem _ List.mem_cons_self) hcut.1
      · have hnext := ih hcut.tail
        rw [filterMap_gathered_cons] at hnext ⊢
        refine List.isChain_cons_cons.2 ⟨?_, hnext⟩
        rw [keyOf_foldl hk, keyOf_foldl hk, hk.start, hk.start]
        exact hcut.next

end Oxydllm.Runs
