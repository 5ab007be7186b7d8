/-
# Oxydllm.Moe.Dispatch — the two ways a mixture of experts runs its experts.

`dispatchNaive` runs every chosen expert on all rows and weighs them with a column that is zero where the
expert was not chosen; `dispatchSparse` runs it on the rows routed to it and adds the results back. Both
read the router's choice from the device, check it, and return at each row the weighted sum over its slots
(`dispatch_agree`). A row is an element of a module over the weights, an expert a function of rows; `ran` of
a run are the experts that were run, in order.
-/
import Oxydllm.Lib.Buckets
import Oxydllm.Lib.Traverse
import Mathlib.Algebra.Module.BigOperators

namespace Oxydllm.Moe

open Buckets Traverse

/-! ## The routing table -/

/-- `top_idx` and `top_vals`, `n_tokens` rows of `top_k`, read back and flattened. -/
structure Readback (R : Type) (nTokens topK : Nat) where
  topIdx : List Nat
  topVals : List R
  topIdx_length : topIdx.length = nTokens * topK
  topVals_length : topVals.length = nTokens * topK

variable {R V : Type} {nTokens topK : Nat}

namespace Readback

/-- `top_idx_cpu[token * top_k..(token + 1) * top_k]`. -/
def row (tb : Readback R nTokens topK) (token : Nat) : List Nat := (tb.topIdx.drop (token * topK)).take topK

/-- The expert in a slot of a row. -/
def expert (tb : Readback R nTokens topK) (token slot : Nat) : Nat := tb.topIdx.getD (token * topK + slot) 0

/-- The weight in a slot of a row. -/
def weight [Zero R] (tb : Readback R nTokens topK) (token slot : Nat) : R := tb.topVals.getD (token * topK + slot) 0

/-- Ids in range and distinct within the row. -/
def RowOk (tb : Readback R nTokens topK) (numExperts token : Nat) : Prop :=
  (∀ raw ∈ tb.row token, raw < numExperts) ∧ (tb.row token).Nodup

instance (tb : Readback R nTokens topK) (numExperts token : Nat) : Decidable (tb.RowOk numExperts token) :=
  inferInstanceAs (Decidable (_ ∧ _))

theorem row_fits {token : Nat} (ht : token < nTokens) : token * topK + topK ≤ nTokens * topK := by
  calc token * topK + topK = (token + 1) * topK := (Nat.succ_mul token topK).symm
    _ ≤ nTokens * topK := Nat.mul_le_mul_right topK ht

theorem row_eq (tb : Readback R nTokens topK) {token : Nat} (ht : token < nTokens) :
    tb.row token = (List.range topK).map (tb.expert token) := by
  have hfit : token * topK + topK ≤ nTokens * topK := row_fits ht
  apply List.ext_getElem
  · simp only [row, List.length_take, List.length_drop, List.length_map, List.length_range, tb.topIdx_length]
    omega
  · intro i h₁ h₂
    have hi : i < topK := by simpa using h₂
    have hlt : token * topK + i < tb.topIdx.length := by rw [tb.topIdx_length]; omega
    simp [row, expert, List.getElem?_eq_getElem hlt]

theorem zipIdx_row (tb : Readback R nTokens topK) {token : Nat} (ht : token < nTokens) :
    (tb.row token).zipIdx = (List.range topK).map fun slot => (tb.expert token slot, slot) := by
  rw [tb.row_eq ht]
  apply List.ext_getElem
  · simp
  · intro i h₁ h₂
    simp

end Readback

/-! ## Running experts -/

/-- A dispatch: it may fail, and it runs experts. -/
abbrev Run (β : Type) : Type := ExceptT String (StateM (List Nat)) β

/-- The experts run, and what came out. -/
def Run.run {β : Type} (m : Run β) : Except String β × List Nat := m []

/-- `ExpertBank::resolve`: the experts of the ids, in their order. -/
def resolve (experts : Nat → V → V) (ids : List Nat) : List (Nat × (V → V)) := ids.map fun e => (e, experts e)

/-- `expert.forward`: an expert is applied row by row. -/
def forward (expert : Nat × (V → V)) (x : List V) : Run (List V) :=
  fun ran => (.ok (x.map expert.2), ran ++ [expert.1])

/-- What depends on no expert. -/
def lift {β : Type} (r : Except String β) : Run β := fun ran => (r, ran)

/-- `checked_expert_row`, `seen` being `row[..i]`. -/
def checkedExpertRow (numExperts : Nat) (seen : List Nat) : List Nat → Except String Unit
  | [] => .ok ()
  | raw :: rest =>
    if numExperts ≤ raw then
      .error s!"router selected expert {raw} of {numExperts}: corrupted device readback"
    else if raw ∈ seen then
      .error s!"router selected expert {raw} twice in one top-k row: corrupted device readback"
    else checkedExpertRow numExperts (seen ++ [raw]) rest

section Dispatch

variable [Semiring R] [AddCommMonoid V] [Module R V]

/-- `expert_out.broadcast_mul(&w)` of a column of weights. -/
def broadcastMul (out : List V) (w : List R) : List V := List.zipWith (fun c r => c • r) w out

/-- `get_or_insert_with(|| vec![0.0; n_tokens])[token] += v`. -/
def addWeight (nTokens token : Nat) (v : R) (w : Option (List R)) : Option (List R) :=
  some ((w.getD (List.replicate nTokens 0)).modify token fun c => c + v)

/-- `per_expert_w` of the table, or the first row's complaint. -/
def perExpertW (tb : Readback R nTokens topK) (numExperts : Nat) : Except String (List (Option (List R))) :=
  (List.range nTokens).foldlM
    (fun w token => do
      checkedExpertRow numExperts [] (tb.row token)
      return (tb.row token).zipIdx.foldl
        (fun w p => w.modify p.1 (addWeight nTokens token (tb.weight token p.2))) w)
    (List.replicate numExperts none)

/-- `acc` with one more expert's weighted rows. -/
def accumulate (acc : Option (List V)) (weighted : List V) : Option (List V) :=
  some (match acc with
    | some a => List.zipWith (fun r s => r + s) a weighted
    | none => weighted)

/-- `dispatch_naive`. -/
def dispatchNaive (experts : Nat → V → V) (numExperts : Nat) (xFlat : List V) (tb : Readback R nTokens topK) :
    Run (List V) := do
  let perExpertW ← lift (perExpertW tb numExperts)
  let active := (List.range numExperts).filter fun e => (perExpertW.getD e none).isSome
  let acc ← (resolve experts active).foldlM
    (fun acc expert => do
      -- rows that did not choose the expert have weight zero
      let expertOut ← forward expert xFlat
      return accumulate acc (broadcastMul expertOut ((perExpertW.getD expert.1 none).getD [])))
    none
  return acc.getD (List.replicate nTokens 0)

/-- `per_expert_tokens` and `per_expert_weights` of the table, cell by cell, or the first row's complaint.
Row numbers are stored as `u32`, which the rows of a tensor fit. -/
def perExpertRows (tb : Readback R nTokens topK) (numExperts : Nat) : Except String (List (List Nat × List R)) :=
  (List.range nTokens).foldlM
    (fun lists token => do
      checkedExpertRow numExperts [] (tb.row token)
      return (List.range topK).foldl
        (fun lists slot => lists.modify (tb.expert token slot) fun l =>
          (l.1 ++ [token], l.2 ++ [tb.weight token slot])) lists)
    (List.replicate numExperts ([], []))

/-- `index_select(idx, 0)`. -/
def indexSelect (x : List V) (idx : List Nat) : List V := idx.map fun i => x.getD i 0

/-- `index_add(idx, src, 0)`. -/
def indexAdd (out : List V) (idx : List Nat) (src : List V) : List V :=
  (idx.zip src).foldl (fun o p => o.modify p.1 fun r => r + p.2) out

/-- `dispatch_sparse`. -/
def dispatchSparse (experts : Nat → V → V) (numExperts : Nat) (xFlat : List V) (tb : Readback R nTokens topK) :
    Run (List V) := do
  let perExpert ← lift (perExpertRows tb numExperts)
  let active := (List.range numExperts).filter fun e => !(perExpert.getD e ([], [])).1.isEmpty
  (resolve experts active).foldlM
    (fun output expert => do
      let tokenIdx := (perExpert.getD expert.1 ([], [])).1
      let weights := (perExpert.getD expert.1 ([], [])).2
      -- only the rows that chose the expert
      let expertOut ← forward expert (indexSelect xFlat tokenIdx)
      return indexAdd output tokenIdx (broadcastMul expertOut weights))
    (List.replicate nTokens 0)

end Dispatch

/-! ## The check -/

theorem checkedExpertRow_ok {numExperts : Nat} {row seen : List Nat} (hrange : ∀ raw ∈ row, raw < numExperts)
    (hnodup : row.Nodup) (hseen : ∀ raw ∈ row, raw ∉ seen) : checkedExpertRow numExperts seen row = .ok () := by
  induction row generalizing seen with
  | nil => rfl
  | cons raw rest ih =>
      have hraw : raw < numExperts := hrange raw List.mem_cons_self
      obtain ⟨hnot, hnodup⟩ := List.nodup_cons.1 hnodup
      rw [checkedExpertRow, if_neg (by omega), if_neg (hseen raw List.mem_cons_self)]
      refine ih (fun r hr => hrange r (List.mem_cons_of_mem _ hr)) hnodup fun r hr hmem => ?_
      rcases List.mem_append.1 hmem with h | h
      · exact hseen r (List.mem_cons_of_mem _ hr) h
      · rw [List.mem_singleton.1 h] at hr
        exact hnot hr

theorem checkedExpertRow_ok_only {numExperts : Nat} {row seen : List Nat}
    (h : checkedExpertRow numExperts seen row = .ok ()) :
    (∀ raw ∈ row, raw < numExperts) ∧ row.Nodup ∧ ∀ raw ∈ row, raw ∉ seen := by
  induction row generalizing seen with
  | nil => simp
  | cons raw rest ih =>
      rw [checkedExpertRow] at h
      split at h
      · cases h
      · rename_i hrange
        split at h
        · cases h
        · rename_i hseen
          obtain ⟨hr, hn, hs⟩ := ih h
          refine ⟨?_, List.nodup_cons.2 ⟨fun hmem => hs raw hmem (by simp), hn⟩, ?_⟩
          · intro r hmem
            rcases List.mem_cons.1 hmem with rfl | hmem
            · omega
            · exact hr r hmem
          · intro r hmem
            rcases List.mem_cons.1 hmem with rfl | hmem
            · exact hseen
            · exact fun hin => hs r hmem (List.mem_append_left _ hin)

/-- The check of all rows, as both dispatches make it on their way. -/
def checkRows (tb : Readback R nTokens topK) (numExperts : Nat) : Except String Unit :=
  forM (List.range nTokens) fun token => checkedExpertRow numExperts [] (tb.row token)

theorem checkRows_ok {tb : Readback R nTokens topK} {numExperts : Nat}
    (h : ∀ token < nTokens, tb.RowOk numExperts token) : checkRows tb numExperts = .ok () :=
  forM_ok fun token ht =>
    checkedExpertRow_ok (h token (List.mem_range.1 ht)).1 (h token (List.mem_range.1 ht)).2 fun _ _ => List.not_mem_nil

theorem checkRows_error {tb : Readback R nTokens topK} {numExperts : Nat}
    (h : ∃ token < nTokens, ¬ tb.RowOk numExperts token) : ∃ msg, checkRows tb numExperts = .error msg := by
  obtain ⟨token, ht, hbad⟩ := h
  refine forM_error ⟨token, List.mem_range.2 ht, fun hok => hbad ?_⟩
  obtain ⟨hrange, hnodup, -⟩ := checkedExpertRow_ok_only hok
  exact ⟨hrange, hnodup⟩

/-- A loop that checks each thing before it puts it away. -/
theorem foldlM_check {α σ : Type} (check : α → Except String Unit) (put : σ → α → σ) (xs : List α) (s : σ) :
    xs.foldlM (fun s x => do check x; return put s x) s = (do forM xs check; return xs.foldl put s) := by
  induction xs generalizing s with
  | nil => rfl
  | cons x xs ih =>
      rw [List.foldlM_cons, List.forM_cons]
      cases hc : check x with
      | error msg => rfl
      | ok u => exact ih (put s x)

/-! ## The table as a list of entries -/

section Entries

variable [Semiring R]

/-- An entry of the table: its row, its expert and its weight. -/
structure Entry (R : Type) where
  token : Nat
  expert : Nat
  weight : R

/-- The entries of a row. -/
def rowEntries (tb : Readback R nTokens topK) (token : Nat) : List (Entry R) :=
  (List.range topK).map fun slot => ⟨token, tb.expert token slot, tb.weight token slot⟩

/-- The entries of the table, in order. -/
def entries (tb : Readback R nTokens topK) : List (Entry R) := (List.range nTokens).flatMap (rowEntries tb)

theorem mem_entries {tb : Readback R nTokens topK} {en : Entry R} (h : en ∈ entries tb) :
    en.token < nTokens ∧ en.expert ∈ tb.row en.token := by
  obtain ⟨token, ht, hen⟩ := List.mem_flatMap.1 h
  obtain ⟨slot, hslot, rfl⟩ := List.mem_map.1 hen
  have ht := List.mem_range.1 ht
  refine ⟨ht, ?_⟩
  rw [tb.row_eq ht]
  exact List.mem_map.2 ⟨slot, hslot, rfl⟩

theorem ofKey_rowEntries (tb : Readback R nTokens topK) (token token' : Nat) :
    ofKey Entry.token token (rowEntries tb token') = if token' = token then rowEntries tb token' else [] := by
  unfold ofKey rowEntries
  split
  · rename_i h
    rw [List.filter_eq_self]
    intro en hen
    obtain ⟨slot, -, rfl⟩ := List.mem_map.1 hen
    simpa using h
  · rename_i h
    rw [List.filter_eq_nil_iff]
    intro en hen
    obtain ⟨slot, -, rfl⟩ := List.mem_map.1 hen
    simpa using h

/-- The entries of a row, picked out of the table. -/
theorem ofKey_entries (tb : Readback R nTokens topK) {token : Nat} (ht : token < nTokens) :
    ofKey Entry.token token (entries tb) = rowEntries tb token := by
  have hsplit : ∀ n, (ofKey Entry.token token ((List.range n).flatMap (rowEntries tb))) =
      if token < n then rowEntries tb token else [] := by
    intro n
    induction n with
    | zero => rfl
    | succ n ih =>
        rw [List.range_succ, List.flatMap_append, ofKey, List.filter_append, ← ofKey, ih, ← ofKey, List.flatMap_singleton,
          ofKey_rowEntries]
        rcases Nat.lt_trichotomy token n with h | rfl | h
        · rw [if_pos h, if_neg (by omega), if_pos (by omega), List.append_nil]
        · rw [if_neg (by omega), if_pos rfl, if_pos (by omega), List.nil_append]
        · rw [if_neg (by omega), if_neg (by omega), if_neg (by omega), List.append_nil]
  rw [entries, hsplit nTokens, if_pos ht]

theorem perExpertW_eq (tb : Readback R nTokens topK) (numExperts : Nat) :
    perExpertW tb numExperts = (do
      checkRows tb numExperts
      return (entries tb).foldl (fun w en => w.modify en.expert (addWeight nTokens en.token en.weight))
        (List.replicate numExperts none)) := by
  rw [perExpertW, foldlM_check, entries, List.foldl_flatMap]
  congr 1
  funext u
  congr 1
  refine List.foldl_ext _ _ _ fun w token ht => ?_
  rw [tb.zipIdx_row (List.mem_range.1 ht), rowEntries, List.foldl_map, List.foldl_map]

theorem perExpertRows_eq (tb : Readback R nTokens topK) (numExperts : Nat) :
    perExpertRows tb numExperts = (do
      checkRows tb numExperts
      return (entries tb).foldl (fun l en => l.modify en.expert fun c => (c.1 ++ [en.token], c.2 ++ [en.weight]))
        (List.replicate numExperts ([], []))) := by
  rw [perExpertRows, foldlM_check, entries, List.foldl_flatMap]
  congr 1
  funext u
  congr 1
  refine List.foldl_ext _ _ _ fun w token _ => ?_
  rw [rowEntries, List.foldl_map]

end Entries

/-! ## What the experts add up to -/

theorem bind_ok {β γ : Type} {m : Run β} {b : β} {ran ran' : List Nat} (h : m ran = (.ok b, ran')) (f : β → Run γ) :
    (m >>= f) ran = f b ran' := by
  show (ExceptT.bindCont f (m ran).1) (m ran).2 = _
  rw [h]
  rfl

theorem bind_error {β γ : Type} {m : Run β} {msg : String} {ran ran' : List Nat} (h : m ran = (.error msg, ran'))
    (f : β → Run γ) : (m >>= f) ran = (.error msg, ran') := by
  show (ExceptT.bindCont f (m ran).1) (m ran).2 = _
  rw [h]
  rfl

/-- A loop over experts runs each of them once and never fails. -/
theorem foldlM_forward {σ : Type} (input : Nat → List V) (put : σ → Nat → List V → σ) (es : List (Nat × (V → V)))
    (s : σ) (ran : List Nat) :
    (es.foldlM (fun s e => do let out ← forward e (input e.1); return put s e.1 out) s : Run σ) ran =
      (.ok (es.foldl (fun s e => put s e.1 ((input e.1).map e.2)) s), ran ++ es.map (·.1)) := by
  induction es generalizing s ran with
  | nil => simp; rfl
  | cons e es ih =>
      rw [List.foldlM_cons, List.foldl_cons, List.map_cons]
      have h := ih (put s e.1 ((input e.1).map e.2)) (ran ++ [e.1])
      rw [List.append_assoc] at h
      exact h

section Sums

variable [Semiring R] [AddCommMonoid V] [Module R V]

/-- What an entry adds to its row. -/
def share (experts : Nat → V → V) (xFlat : List V) (en : Entry R) : V :=
  en.weight • experts en.expert (xFlat.getD en.token 0)

/-- What an expert adds to a row: its entries of that row. -/
def expertShare (experts : Nat → V → V) (xFlat : List V) (tb : Readback R nTokens topK) (token e : Nat) : V :=
  ((ofKey Entry.expert e (ofKey Entry.token token (entries tb))).map (share experts xFlat)).sum

theorem ofKey_comm {α : Type} (key key' : α → Nat) (e e' : Nat) (xs : List α) :
    ofKey key e (ofKey key' e' xs) = ofKey key' e' (ofKey key e xs) := by
  unfold ofKey
  rw [List.filter_filter, List.filter_filter]
  simp only [Bool.and_comm]

/-- The experts together add to a row what its slots say. -/
theorem sum_expertShare (experts : Nat → V → V) (numExperts : Nat) (xFlat : List V) (tb : Readback R nTokens topK)
    (hok : ∀ token < nTokens, tb.RowOk numExperts token) {token : Nat} (ht : token < nTokens) :
    (((List.range numExperts).map (expertShare experts xFlat tb token))).sum =
      ∑ slot ∈ Finset.range topK,
        tb.weight token slot • experts (tb.expert token slot) (xFlat.getD token 0) := by
  unfold expertShare
  rw [sum_cells, ofKey_entries tb ht, rowEntries, List.map_map, sum_map_range]
  · rfl
  · intro en hen
    obtain ⟨hen, -⟩ := mem_ofKey.1 hen
    obtain ⟨ht, hrow⟩ := mem_entries hen
    exact (hok en.token ht).1 en.expert hrow

/-! ### The naive dispatch -/

theorem foldl_addWeight (es : List (Entry R)) (w : Option (List R)) :
    es.foldl (fun w en => addWeight nTokens en.token en.weight w) w =
      if es = [] then w
      else some (es.foldl (fun l en => l.modify en.token fun c => c + en.weight) (w.getD (List.replicate nTokens 0))) := by
  induction es generalizing w with
  | nil => rfl
  | cons en es ih =>
      rw [List.foldl_cons, ih, if_neg (List.cons_ne_nil en es), List.foldl_cons]
      cases es with
      | nil => rfl
      | cons en' es => rw [if_neg (List.cons_ne_nil en' es)]; rfl

/-- The weights of an expert, once the table is read. -/
theorem naive_cell (tb : Readback R nTokens topK) {numExperts e : Nat} (he : e < numExperts) :
    ((entries tb).foldl (fun w en => w.modify en.expert (addWeight nTokens en.token en.weight))
      (List.replicate numExperts none)).getD e none =
      if ofKey Entry.expert e (entries tb) = [] then none
      else some ((ofKey Entry.expert e (entries tb)).foldl (fun l en => l.modify en.token fun c => c + en.weight)
        (List.replicate nTokens 0)) := by
  rw [List.getD_eq_getElem?_getD,
    getElem?_foldl_modify Entry.expert (fun en => addWeight nTokens en.token en.weight),
    List.getElem?_replicate, if_pos he, Option.map_some, Option.getD_some, foldl_addWeight]
  rfl

/-- The weight column of a list of entries. -/
theorem column_getElem? (es : List (Entry R)) {token : Nat} (ht : token < nTokens) :
    (es.foldl (fun l en => l.modify en.token fun c => c + en.weight) (List.replicate nTokens (0 : R)))[token]? =
      some ((ofKey Entry.token token es).map Entry.weight).sum := by
  rw [getElem?_foldl_modify Entry.token fun en c => c + en.weight, List.getElem?_replicate, if_pos ht,
    Option.map_some, foldl_add Entry.weight, zero_add]

/-- The weighted rows of an expert that ran on all rows. -/
theorem naive_weighted (experts : Nat → V → V) {xFlat : List V} (hx : xFlat.length = nTokens)
    (tb : Readback R nTokens topK) (e : Nat) {token : Nat} (ht : token < nTokens) :
    (broadcastMul (xFlat.map (experts e)) ((ofKey Entry.expert e (entries tb)).foldl
      (fun l en => l.modify en.token fun c => c + en.weight) (List.replicate nTokens 0)))[token]? =
      some (expertShare experts xFlat tb token e) := by
  have hrow : xFlat[token]? = some (xFlat.getD token 0) := by
    rw [List.getD_eq_getElem?_getD, List.getElem?_eq_getElem (by omega), Option.getD_some]
  rw [broadcastMul, List.getElem?_zipWith, column_getElem? _ ht, List.getElem?_map, hrow, expertShare,
    ofKey_comm Entry.expert Entry.token]
  simp only [Option.map_some, Option.some.injEq]
  have hshare : (ofKey Entry.token token (ofKey Entry.expert e (entries tb))).map (share experts xFlat) =
      (ofKey Entry.token token (ofKey Entry.expert e (entries tb))).map
        fun en => en.weight • experts e (xFlat.getD token 0) := by
    refine List.map_congr_left fun en hen => ?_
    obtain ⟨hen, htoken⟩ := mem_ofKey.1 hen
    obtain ⟨-, hexpert⟩ := mem_ofKey.1 hen
    rw [share, htoken, hexpert]
  rw [hshare, List.sum_smul, List.map_map]
  rfl

/-- The rows accumulated over experts. -/
theorem accumulate_rows (weighted : Nat → List V) (g : Nat → Nat → V) (es : List Nat)
    (hlen : ∀ e ∈ es, (weighted e).length = nTokens)
    (hg : ∀ e ∈ es, ∀ token < nTokens, (weighted e)[token]? = some (g token e)) (acc : Option (List V)) (s : Nat → V)
    (hacc : (acc.getD (List.replicate nTokens 0)).length = nTokens)
    (hs : ∀ token < nTokens, (acc.getD (List.replicate nTokens 0))[token]? = some (s token)) :
    ((es.foldl (fun acc e => accumulate acc (weighted e)) acc).getD (List.replicate nTokens 0)).length = nTokens ∧
      ∀ token < nTokens, ((es.foldl (fun acc e => accumulate acc (weighted e)) acc).getD
        (List.replicate nTokens 0))[token]? = some (s token + (es.map (g token)).sum) := by
  induction es generalizing acc s with
  | nil => exact ⟨hacc, fun token ht => by simpa using hs token ht⟩
  | cons e es ih =>
      have he := hlen e List.mem_cons_self
      have hnew : ∀ token < nTokens, ((accumulate acc (weighted e)).getD (List.replicate nTokens 0))[token]? =
          some (s token + g token e) := by
        intro token ht
        have hrow := hs token ht
        cases acc with
        | none =>
            rw [Option.getD_none, List.getElem?_replicate, if_pos ht, Option.some.injEq] at hrow
            rw [← hrow, zero_add]
            exact hg e List.mem_cons_self token ht
        | some a =>
            rw [Option.getD_some] at hrow
            show (List.zipWith (fun r s => r + s) a (weighted e))[token]? = _
            rw [List.getElem?_zipWith, hrow, hg e List.mem_cons_self token ht]
      have hsize : ((accumulate acc (weighted e)).getD (List.replicate nTokens 0)).length = nTokens := by
        cases acc with
        | none => exact he
        | some a =>
            rw [Option.getD_some] at hacc
            show (List.zipWith (fun r s => r + s) a (weighted e)).length = nTokens
            rw [List.length_zipWith, hacc, he, Nat.min_self]
      obtain ⟨h₁, h₂⟩ := ih (fun e' h' => hlen e' (List.mem_cons_of_mem _ h'))
        (fun e' h' => hg e' (List.mem_cons_of_mem _ h')) (accumulate acc (weighted e)) _ hsize hnew
      refine ⟨h₁, fun token ht => ?_⟩
      rw [List.foldl_cons, h₂ token ht, List.map_cons, List.sum_cons, add_assoc]

/-! ### The sparse dispatch -/

/-- The rows and weights of an expert, once the table is read. -/
theorem sparse_cell (tb : Readback R nTokens topK) {numExperts e : Nat} (he : e < numExperts) :
    ((entries tb).foldl (fun l en => l.modify en.expert fun c => (c.1 ++ [en.token], c.2 ++ [en.weight]))
      (List.replicate numExperts ([], []))).getD e ([], []) =
      ((ofKey Entry.expert e (entries tb)).map Entry.token, (ofKey Entry.expert e (entries tb)).map Entry.weight) := by
  have hpush : ∀ (es : List (Entry R)) (c : List Nat × List R),
      es.foldl (fun c en => (c.1 ++ [en.token], c.2 ++ [en.weight])) c =
        (c.1 ++ es.map Entry.token, c.2 ++ es.map Entry.weight) := by
    intro es
    induction es with
    | nil => simp
    | cons en es ih => intro c; rw [List.foldl_cons, ih]; simp
  rw [List.getD_eq_getElem?_getD,
    getElem?_foldl_modify Entry.expert fun en c => (c.1 ++ [en.token], c.2 ++ [en.weight]),
    List.getElem?_replicate, if_pos he, Option.map_some, Option.getD_some, hpush]
  rfl

/-- The rows of an expert, weighted and paired with where they go. -/
theorem sparse_pairs (expert : V → V) (xFlat : List V) (es : List (Entry R)) :
    (es.map Entry.token).zip (broadcastMul ((indexSelect xFlat (es.map Entry.token)).map expert) (es.map Entry.weight)) =
      es.map fun en => (en.token, en.weight • expert (xFlat.getD en.token 0)) := by
  induction es with
  | nil => rfl
  | cons en es ih =>
      simp only [indexSelect, List.map_cons, broadcastMul, List.zipWith_cons_cons, List.zip_cons_cons] at ih ⊢
      rw [ih]

/-- One expert's rows, added to the output. -/
theorem indexAdd_row (experts : Nat → V → V) (xFlat : List V) (tb : Readback R nTokens topK) (e : Nat)
    (output : List V) (token : Nat) :
    (indexAdd output ((ofKey Entry.expert e (entries tb)).map Entry.token)
      (broadcastMul ((indexSelect xFlat ((ofKey Entry.expert e (entries tb)).map Entry.token)).map (experts e))
        ((ofKey Entry.expert e (entries tb)).map Entry.weight)))[token]? =
      output[token]?.map fun r => r + expertShare experts xFlat tb token e := by
  have hshare : (ofKey Entry.expert e (entries tb)).map
      (fun en => (en.token, en.weight • experts e (xFlat.getD en.token 0))) =
      (ofKey Entry.expert e (entries tb)).map fun en => (en.token, share experts xFlat en) := by
    refine List.map_congr_left fun en hen => ?_
    rw [share, (mem_ofKey.1 hen).2]
  rw [indexAdd, sparse_pairs, hshare, List.foldl_map,
    getElem?_foldl_modify Entry.token fun en r => r + share experts xFlat en, expertShare,
    ofKey_comm Entry.expert Entry.token]
  simp only [foldl_add (share experts xFlat)]

end Sums

/-! ## Agreement -/

section Agree

variable [Semiring R] [AddCommMonoid V] [Module R V]

/-- The experts of a table, ascending. -/
def activeExperts (tb : Readback R nTokens topK) (numExperts : Nat) : List Nat :=
  (List.range numExperts).filter fun e => !(ofKey Entry.expert e (entries tb)).isEmpty

theorem expertShare_inactive (experts : Nat → V → V) (xFlat : List V) (tb : Readback R nTokens topK) {token e : Nat}
    (h : (!(ofKey Entry.expert e (entries tb)).isEmpty) = false) : expertShare experts xFlat tb token e = 0 := by
  have hnil : ofKey Entry.expert e (entries tb) = [] := by simpa using h
  rw [expertShare, ofKey_comm, hnil]
  rfl

theorem lt_of_mem_active {tb : Readback R nTokens topK} {numExperts e : Nat} (h : e ∈ activeExperts tb numExperts) :
    e < numExperts ∧ ofKey Entry.expert e (entries tb) ≠ [] := by
  obtain ⟨he, hne⟩ := List.mem_filter.1 h
  exact ⟨List.mem_range.1 he, by simpa using hne⟩

/-- The naive dispatch of a good table. -/
theorem dispatchNaive_run (experts : Nat → V → V) {numExperts : Nat} {xFlat : List V} (hx : xFlat.length = nTokens)
    {tb : Readback R nTokens topK} (hok : ∀ token < nTokens, tb.RowOk numExperts token) :
    ∃ out, (dispatchNaive experts numExperts xFlat tb).run = (.ok out, activeExperts tb numExperts) ∧
      out.length = nTokens ∧ ∀ token < nTokens, out[token]? =
        some ((activeExperts tb numExperts).map (expertShare experts xFlat tb token)).sum := by
  obtain ⟨cells, hcells⟩ : ∃ cells, (entries tb).foldl
    (fun w en => w.modify en.expert (addWeight nTokens en.token en.weight)) (List.replicate numExperts none) = cells :=
    ⟨_, rfl⟩
  have hw : lift (perExpertW tb numExperts) [] = (.ok cells, []) := by
    rw [perExpertW_eq, checkRows_ok hok, hcells]
    rfl
  have hcell : ∀ e < numExperts, cells.getD e none = _ := fun e he => hcells ▸ naive_cell tb he
  have hactive : (List.range numExperts).filter (fun e => (cells.getD e none).isSome) = activeExperts tb numExperts := by
    refine List.filter_congr fun e he => ?_
    rw [hcell e (List.mem_range.1 he)]
    by_cases hnil : ofKey Entry.expert e (entries tb) = [] <;> simp [hnil]
  have hcolumn : ∀ e ∈ activeExperts tb numExperts, (cells.getD e none).getD [] =
      (ofKey Entry.expert e (entries tb)).foldl (fun l en => l.modify en.token fun c => c + en.weight)
        (List.replicate nTokens 0) := by
    intro e he
    obtain ⟨hlt, hne⟩ := lt_of_mem_active he
    rw [hcell e hlt, if_neg hne, Option.getD_some]
  have hrows := accumulate_rows
    (fun e => broadcastMul (xFlat.map (experts e)) ((cells.getD e none).getD []))
    (expertShare experts xFlat tb) (activeExperts tb numExperts)
    (fun e he => by
      rw [hcolumn e he, broadcastMul, List.length_zipWith, List.length_map, length_foldl_modify Entry.token,
        List.length_replicate, hx, Nat.min_self])
    (fun e he token ht => by rw [hcolumn e he]; exact naive_weighted experts hx tb e ht)
    none (fun _ => 0) (by simp) (fun token ht => by simp [ht])
  refine ⟨_, ?_, hrows.1, fun token ht => by rw [hrows.2 token ht, zero_add]⟩
  have hrun := foldlM_forward (fun _ => xFlat)
    (fun acc e out => accumulate acc (broadcastMul out ((cells.getD e none).getD [])))
    (resolve experts (activeExperts tb numExperts)) none []
  have hids : (resolve experts (activeExperts tb numExperts)).map (·.1) = activeExperts tb numExperts := by
    rw [resolve, List.map_map]
    exact List.map_id _
  rw [hids, List.nil_append, resolve, List.foldl_map] at hrun
  rw [Run.run, dispatchNaive, bind_ok hw]
  simp only [hactive]
  exact bind_ok hrun _

/-- The sparse dispatch of a good table. -/
theorem dispatchSparse_run (experts : Nat → V → V) {numExperts : Nat} (xFlat : List V)
    {tb : Readback R nTokens topK} (hok : ∀ token < nTokens, tb.RowOk numExperts token) :
    ∃ out, (dispatchSparse experts numExperts xFlat tb).run = (.ok out, activeExperts tb numExperts) ∧
      out.length = nTokens ∧ ∀ token < nTokens, out[token]? =
        some ((activeExperts tb numExperts).map (expertShare experts xFlat tb token)).sum := by
  obtain ⟨cells, hcells⟩ : ∃ cells, (entries tb).foldl
    (fun l en => l.modify en.expert fun c => (c.1 ++ [en.token], c.2 ++ [en.weight]))
    (List.replicate numExperts ([], [])) = cells := ⟨_, rfl⟩
  have hw : lift (perExpertRows tb numExperts) [] = (.ok cells, []) := by
    rw [perExpertRows_eq, checkRows_ok hok, hcells]
    rfl
  have hcell : ∀ e < numExperts, cells.getD e ([], []) = _ := fun e he => hcells ▸ sparse_cell tb he
  have hactive : (List.range numExperts).filter (fun e => !(cells.getD e ([], [])).1.isEmpty) =
      activeExperts tb numExperts := by
    refine List.filter_congr fun e he => ?_
    rw [hcell e (List.mem_range.1 he)]
    simp
  have hrun := foldlM_forward (fun e => indexSelect xFlat (cells.getD e ([], [])).1)
    (fun output e out => indexAdd output (cells.getD e ([], [])).1 (broadcastMul out (cells.getD e ([], [])).2))
    (resolve experts (activeExperts tb numExperts)) (List.replicate nTokens 0) []
  have hids : (resolve experts (activeExperts tb numExperts)).map (·.1) = activeExperts tb numExperts := by
    rw [resolve, List.map_map]
    exact List.map_id _
  rw [hids, List.nil_append, resolve, List.foldl_map] at hrun
  have hrows : ∀ (es : List Nat) (output : List V), (∀ e ∈ es, e < numExperts) → ∀ token,
      (es.foldl (fun output e => indexAdd output (cells.getD e ([], [])).1
        (broadcastMul ((indexSelect xFlat (cells.getD e ([], [])).1).map (experts e)) (cells.getD e ([], [])).2))
        output)[token]? = output[token]?.map fun r => r + (es.map (expertShare experts xFlat tb token)).sum := by
    intro es
    induction es with
    | nil => intro output _ token; simp
    | cons e es ih =>
        intro output hlt token
        rw [List.foldl_cons, ih _ fun e' he' => hlt e' (List.mem_cons_of_mem _ he'), hcell e (hlt e List.mem_cons_self),
          indexAdd_row, Option.map_map]
        simp only [Function.comp_def, List.map_cons, List.sum_cons, add_assoc]
  have hout := hrows (activeExperts tb numExperts) (List.replicate nTokens 0) fun e he => (lt_of_mem_active he).1
  generalize (activeExperts tb numExperts).foldl _ (List.replicate nTokens (0 : V)) = out at hout hrun
  have hlength : out.length = nTokens := by
    refine Nat.le_antisymm ?_ (Nat.le_of_not_lt fun hlt => ?_)
    · have hend := hout nTokens
      rw [List.getElem?_replicate, if_neg (Nat.lt_irrefl nTokens), Option.map_none] at hend
      exact List.getElem?_eq_none_iff.1 hend
    · have hend := hout out.length
      rw [List.getElem?_replicate, if_pos hlt, List.getElem?_eq_none (Nat.le_refl _)] at hend
      cases hend
  refine ⟨out, ?_, hlength, fun token ht => ?_⟩
  · rw [Run.run, dispatchSparse, bind_ok hw]
    simp only [hactive]
    exact hrun
  · rw [hout token, List.getElem?_replicate, if_pos ht, Option.map_some, zero_add]

/-- Both dispatches reject a table with a bad row, with the same complaint, before they run an expert. -/
theorem dispatch_rejects (experts : Nat → V → V) {numExperts : Nat} (xFlat : List V) {tb : Readback R nTokens topK}
    (hbad : ∃ token < nTokens, ¬ tb.RowOk numExperts token) :
    ∃ msg, (dispatchNaive experts numExperts xFlat tb).run = (.error msg, []) ∧
      (dispatchSparse experts numExperts xFlat tb).run = (.error msg, []) := by
  obtain ⟨msg, hmsg⟩ := checkRows_error hbad
  have hnaive : lift (perExpertW tb numExperts) [] = (.error msg, []) := by
    rw [perExpertW_eq, hmsg]
    rfl
  have hsparse : lift (perExpertRows tb numExperts) [] = (.error msg, []) := by
    rw [perExpertRows_eq, hmsg]
    rfl
  exact ⟨msg, bind_error hnaive _, bind_error hsparse _⟩

/-- On a good table both dispatches run the chosen experts once each and return at each row the weighted sum
over its slots; a table with a bad row both reject before they run one. -/
theorem dispatch_agree (experts : Nat → V → V) (numExperts : Nat) (xFlat : List V) (hx : xFlat.length = nTokens)
    (tb : Readback R nTokens topK) :
    ((∀ token < nTokens, tb.RowOk numExperts token) →
      ∃ out ran, (dispatchNaive experts numExperts xFlat tb).run = (.ok out, ran) ∧
        (dispatchSparse experts numExperts xFlat tb).run = (.ok out, ran) ∧
        out.length = nTokens ∧ ∀ token < nTokens, out[token]? =
          some (∑ slot ∈ Finset.range topK,
            tb.weight token slot • experts (tb.expert token slot) (xFlat.getD token 0))) ∧
    ((∃ token < nTokens, ¬ tb.RowOk numExperts token) →
      ∃ msg, (dispatchNaive experts numExperts xFlat tb).run = (.error msg, []) ∧
        (dispatchSparse experts numExperts xFlat tb).run = (.error msg, [])) := by
  refine ⟨fun hok => ?_, fun hbad => dispatch_rejects experts xFlat hbad⟩
  obtain ⟨out, hnaive, hlen, hout⟩ := dispatchNaive_run experts hx hok
  obtain ⟨out', hsparse, hlen', hout'⟩ := dispatchSparse_run experts xFlat hok
  have hsame : out = out' := by
    refine List.ext_getElem? fun token => ?_
    rcases Nat.lt_or_ge token nTokens with ht | ht
    · rw [hout token ht, hout' token ht]
    · rw [List.getElem?_eq_none (by omega), List.getElem?_eq_none (by omega)]
  refine ⟨out, activeExperts tb numExperts, hnaive, hsame ▸ hsparse, hlen, fun token ht => ?_⟩
  rw [hout token ht, ← sum_expertShare experts numExperts xFlat tb hok ht, activeExperts,
    sum_filter_of_zero _ _ _ fun e _ h => expertShare_inactive experts xFlat tb h]

/-- Two rows, three experts, the first expert unused. -/
def smallTable : Readback Int 2 2 := ⟨[1, 2, 2, 1], [3, 1, 2, 5], rfl, rfl⟩

theorem dispatch_agree_small : ∃ out ran,
    (dispatchNaive (fun e x => x + (e : Int)) 3 [10, 20] smallTable).run = (.ok out, ran) ∧
      (dispatchSparse (fun e x => x + (e : Int)) 3 [10, 20] smallTable).run = (.ok out, ran) := by
  have hok : ∀ token < 2, smallTable.RowOk 3 token := by decide
  obtain ⟨out, ran, hnaive, hsparse, -⟩ :=
    (dispatch_agree (fun e (x : Int) => x + (e : Int)) 3 [10, 20] rfl smallTable).1 hok
  exact ⟨out, ran, hnaive, hsparse⟩

end Agree

end Oxydllm.Moe
