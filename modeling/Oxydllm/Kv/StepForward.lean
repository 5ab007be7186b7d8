/-
# Oxydllm.Kv.StepForward — what the forward of a step leaves in the caches.

A prefill starts from the rows the prefix cache holds of its prompt, a decode from all rows but the last
token's. Whatever else is in the batch, the scheduled sequences end with the rows of all their tokens and the
logits behind them (`forwardRunning_eq`).
-/
import Oxydllm.Kv.Solo

namespace Oxydllm.Kv.Batched

variable {ρ Λ σ γ ω : Type}

/-! ## The running sequences by id -/

theorem getRunning_some {running : List (Sequence ρ σ γ)} {id : SequenceId} {s : Sequence ρ σ γ}
    (h : getRunning running id = some s) : s ∈ running ∧ s.id = id := by
  have hid := List.find?_some h
  exact ⟨List.mem_of_find?_eq_some h, beq_iff_eq.1 hid⟩

theorem eq_of_id {running : List (Sequence ρ σ γ)} (hnodup : (running.map (·.id)).Nodup) {s t : Sequence ρ σ γ}
    (hs : s ∈ running) (ht : t ∈ running) (h : s.id = t.id) : s = t :=
  List.inj_on_of_nodup_map hnodup hs ht h

theorem getRunning_of_mem {running : List (Sequence ρ σ γ)} {id : SequenceId} (h : id ∈ running.map (·.id)) :
    ∃ s, getRunning running id = some s := by
  obtain ⟨s, hs, rfl⟩ := List.mem_map.1 h
  apply Option.isSome_iff_exists.1
  apply List.find?_isSome.2
  exact ⟨s, hs, beq_self_eq_true s.id⟩

theorem getRunning_map {running : List (Sequence ρ σ γ)} {f : Sequence ρ σ γ → Sequence ρ σ γ}
    (hf : ∀ s, (f s).id = s.id) (id : SequenceId) :
    getRunning (running.map f) id = (getRunning running id).map f := by
  unfold getRunning
  rw [List.find?_map]
  congr 2
  funext s
  exact congrArg (· == id) (hf s)

theorem setRunning_ids {running : List (Sequence ρ σ γ)} {id : SequenceId} {s : Sequence ρ σ γ} (h : s.id = id) :
    (setRunning running id s).map (·.id) = running.map (·.id) := by
  unfold setRunning
  rw [List.map_map]
  apply List.map_congr_left
  intro t _
  show (if t.id = id then s else t).id = t.id
  split
  next heq => rw [h, heq]
  next => rfl

theorem mem_setRunning {running : List (Sequence ρ σ γ)} {id : SequenceId} {s t : Sequence ρ σ γ}
    (h : t ∈ setRunning running id s) : t = s ∨ (t ∈ running ∧ t.id ≠ id) := by
  obtain ⟨u, hu, rfl⟩ := List.mem_map.1 h
  by_cases heq : u.id = id
  · exact .inl (if_pos heq)
  · exact .inr (by rw [if_neg heq]; exact ⟨hu, heq⟩)

theorem getRunning_setRunning {running : List (Sequence ρ σ γ)} {id id' : SequenceId} {s : Sequence ρ σ γ}
    (hs : s.id = id) (hne : id' ≠ id) : getRunning (setRunning running id s) id' = getRunning running id' := by
  induction running with
  | nil => rfl
  | cons t running ih =>
      show List.find? _ ((if t.id = id then s else t) :: setRunning running id s) = _
      unfold getRunning
      rw [List.find?_cons, List.find?_cons]
      by_cases heq : t.id = id
      · have hmiss : (id == id') = false := beq_false_of_ne (Ne.symm hne)
        rw [if_pos heq, hs, heq, hmiss]
        exact ih
      · rw [if_neg heq]
        split
        · rfl
        · exact ih

/-- The sequences of some ids. -/
theorem mapM_getRunning_isSome {running : List (Sequence ρ σ γ)} {ids : List SequenceId}
    (h : ∀ id ∈ ids, id ∈ running.map (·.id)) : ∃ seqs, ids.mapM (getRunning running) = some seqs := by
  apply Option.isSome_iff_exists.1
  apply Traverse.isSome_mapM_iff.2
  intro id hid
  exact Option.isSome_iff_exists.2 (getRunning_of_mem (h id hid))

theorem mapM_getRunning_ids {running : List (Sequence ρ σ γ)} {ids : List SequenceId}
    {seqs : List (Sequence ρ σ γ)} (h : ids.mapM (getRunning running) = some seqs) : seqs.map (·.id) = ids := by
  rw [Traverse.map_of_mapM h (g := (·.id)) (k := fun id => id) fun id s hs => (getRunning_some hs).2, List.map_id']

theorem mapM_getRunning_mem {running : List (Sequence ρ σ γ)} {ids : List SequenceId}
    {seqs : List (Sequence ρ σ γ)} (h : ids.mapM (getRunning running) = some seqs) {s : Sequence ρ σ γ}
    (hs : s ∈ seqs) : s ∈ running := by
  obtain ⟨id, -, hid⟩ := Traverse.mem_of_mapM h hs
  exact (getRunning_some hid).1

/-- What is read of the sequences of some ids. -/
theorem mapM_bind_getRunning {β : Type} {running : List (Sequence ρ σ γ)} {ids : List SequenceId}
    {seqs : List (Sequence ρ σ γ)} (h : ids.mapM (getRunning running) = some seqs)
    {f : Sequence ρ σ γ → Option β} {g : Sequence ρ σ γ → β} (hf : ∀ s ∈ seqs, f s = some (g s)) :
    (ids.mapM fun id => (getRunning running id).bind f) = some (seqs.map g) := by
  induction ids generalizing seqs with
  | nil =>
      cases h
      rfl
  | cons id ids ih =>
      rw [List.mapM_cons] at h
      obtain ⟨s, hs, h⟩ := Option.bind_eq_some_iff.1 h
      obtain ⟨rest, hrest, h⟩ := Option.bind_eq_some_iff.1 h
      cases h
      rw [List.mapM_cons, hs, Option.bind_some, hf s List.mem_cons_self,
        ih hrest fun t ht => hf t (List.mem_cons_of_mem _ ht)]
      rfl

theorem mapM_setRunning {running : List (Sequence ρ σ γ)} {id : SequenceId} {s : Sequence ρ σ γ} (hs : s.id = id)
    {ids : List SequenceId} (hid : id ∉ ids) :
    ids.mapM (getRunning (setRunning running id s)) = ids.mapM (getRunning running) := by
  induction ids with
  | nil => rfl
  | cons id' ids ih =>
      rw [List.mem_cons, not_or] at hid
      rw [List.mapM_cons, List.mapM_cons, getRunning_setRunning hs (Ne.symm hid.1), ih hid.2]

theorem mapM_getRunning_map {running : List (Sequence ρ σ γ)} {f : Sequence ρ σ γ → Sequence ρ σ γ}
    (hf : ∀ s, (f s).id = s.id) {ids : List SequenceId} {seqs : List (Sequence ρ σ γ)}
    (h : ids.mapM (getRunning running) = some seqs) :
    ids.mapM (getRunning (running.map f)) = some (seqs.map f) := by
  rw [← mapM_bind_getRunning h (f := fun s => some (f s)) fun s _ => rfl]
  congr 1
  funext id
  rw [getRunning_map hf]
  exact Option.map_eq_bind

/-- Values kept under the ids of their sequences. -/
theorem lookup_ids {β : Type} (seqs : List (Sequence ρ σ γ)) (g : Sequence ρ σ γ → β) (id : SequenceId) :
    ((seqs.map (·.id)).zip (seqs.map g)).lookup id = (getRunning seqs id).map g := by
  induction seqs with
  | nil => rfl
  | cons s seqs ih =>
      rw [List.map_cons, List.map_cons, List.zip_cons_cons, List.lookup_cons]
      unfold getRunning
      rw [List.find?_cons, BEq.comm]
      split
      · rfl
      · exact ih

/-! ## The prefix cache -/

/-- The entries hold the rows of the block their key ends with. -/
def EntriesOk (m : CausalModel ρ Λ) (blockSize : Nat) (cached : PrefixRows ρ) : Prop :=
  ∀ e ∈ cached, ∃ i, e.1.length = (i + 1) * blockSize ∧ e.2 = (m.rowsOf e.1).drop (i * blockSize)

theorem mem_of_lookup {cached : PrefixRows ρ} {key : List Token} {rows : List ρ} (h : cached.lookup key = some rows) :
    (key, rows) ∈ cached := by
  obtain ⟨l₁, l₂, rfl, -⟩ := List.lookup_eq_some_iff.1 h
  exact List.mem_append_right _ List.mem_cons_self

/-- Two stretches of a list that meet. -/
theorem stretch_append {α : Type} (xs : List α) {a b c : Nat} (hab : a ≤ b) (hbc : b ≤ c) (hb : b ≤ xs.length) :
    (xs.take b).drop a ++ (xs.take c).drop b = (xs.take c).drop a := by
  have hlen : (xs.take b).length = b := by rw [List.length_take, min_eq_left hb]
  have hsplit : xs.take c = xs.take b ++ (xs.take c).drop b := by
    have := List.take_append_drop b (xs.take c)
    rw [List.take_take, min_eq_left hbc] at this
    exact this.symm
  rw [← List.drop_append_of_le_length (by rwa [hlen]), ← hsplit]

/-- The blocks found are the rows of the prefix they make up. -/
theorem lookupFrom_rows {m : CausalModel ρ Λ} {blockSize : Nat} {cached : PrefixRows ρ}
    (h : EntriesOk m blockSize cached) (tokens : List Token) (n i : Nat) (hlen : (i + n) * blockSize ≤ tokens.length)
    {k : Nat} (hk : k ≤ (lookupFrom cached blockSize tokens n i).length) :
    ((lookupFrom cached blockSize tokens n i).take k).flatten =
      ((m.rowsOf tokens).take ((i + k) * blockSize)).drop (i * blockSize) := by
  induction n generalizing i k with
  | zero =>
      obtain rfl : k = 0 := Nat.le_zero.1 hk
      exact (List.drop_eq_nil_of_le (List.length_take_le _ _)).symm
  | succ n ih =>
      unfold lookupFrom at hk ⊢
      rcases k with - | k
      · rw [List.take_zero]
        exact (List.drop_eq_nil_of_le (List.length_take_le _ _)).symm
      split at hk
      next => exact absurd hk (Nat.not_succ_le_zero k)
      next rows hrows =>
        have hblock : (i + 1) * blockSize ≤ (i + (n + 1)) * blockSize := Nat.mul_le_mul_right _ (by omega)
        have hmore : (i + 1) * blockSize ≤ (i + (k + 1)) * blockSize := Nat.mul_le_mul_right _ (by omega)
        have hstep : i * blockSize ≤ (i + 1) * blockSize := Nat.mul_le_mul_right _ (Nat.le_succ i)
        obtain ⟨j, hj, hkey⟩ := h _ (mem_of_lookup hrows)
        have hsame : j * blockSize = i * blockSize := by
          have hlong : (tokens.take ((i + 1) * blockSize)).length = (i + 1) * blockSize := by
            rw [List.length_take, min_eq_left (hblock.trans hlen)]
          have heq : (i + 1) * blockSize = (j + 1) * blockSize := hlong.symm.trans hj
          rw [Nat.add_mul, Nat.add_mul] at heq
          exact (Nat.add_right_cancel heq).symm
        have hfirst : rows = ((m.rowsOf tokens).take ((i + 1) * blockSize)).drop (i * blockSize) := by
          rw [← CausalModel.rowsOf_take, ← hsame]
          exact hkey
        have hrest := ih (i + 1) (by rw [Nat.add_assoc, Nat.add_comm 1 n]; exact hlen) (Nat.le_of_succ_le_succ hk)
        rw [Nat.add_assoc, Nat.add_comm 1 k] at hrest
        rw [List.take_succ_cons, List.flatten_cons, hrest, hfirst]
        apply stretch_append _ hstep hmore
        rw [CausalModel.rowsOf_length]
        exact hblock.trans hlen

/-- What a prefill starts from. -/
theorem planPrefill_cache {m : CausalModel ρ Λ} {blockSize : Nat} {cached : PrefixRows ρ}
    (h : EntriesOk m blockSize cached) {s : Sequence ρ σ γ} (hcache : s.cache = []) (hne : s.allTokens ≠ []) :
    (planPrefill cached blockSize s).1.cache =
        m.rowsOf (s.allTokens.take (planPrefill cached blockSize s).2.numCachedTokens) ∧
      (planPrefill cached blockSize s).2.numCachedTokens < s.allTokens.length := by
  have hpos := List.length_pos_of_ne_nil hne
  unfold planPrefill
  dsimp only
  generalize hn : min (lookup cached blockSize s.allTokens).length ((s.allTokens.length - 1) / blockSize) = n
  have hle : n ≤ (lookup cached blockSize s.allTokens).length := hn ▸ min_le_left _ _
  have hlt : n * blockSize < s.allTokens.length := by
    have hdiv : n ≤ (s.allTokens.length - 1) / blockSize := hn ▸ min_le_right _ _
    have := (Nat.mul_le_mul_right blockSize hdiv).trans (Nat.div_mul_le_self _ _)
    omega
  refine ⟨?_, hlt⟩
  split
  next =>
    have hblocks : (0 + s.allTokens.length / blockSize) * blockSize ≤ s.allTokens.length := by
      rw [Nat.zero_add]
      exact Nat.div_mul_le_self _ _
    have hrows := lookupFrom_rows h s.allTokens _ 0 hblocks hle
    rw [Nat.zero_mul, List.drop_zero, Nat.zero_add] at hrows
    rw [hcache, List.nil_append, CausalModel.rowsOf_take]
    show ((lookupFrom cached blockSize s.allTokens _ 0).take n).flatten.take _ = _
    rw [hrows, List.take_take, min_self]
  next hzero =>
    obtain rfl : n = 0 := Nat.eq_zero_of_not_pos hzero
    rw [hcache, Nat.zero_mul]
    rfl

/-- Registering rows of a prompt keeps the entries. -/
theorem register_ok {m : CausalModel ρ Λ} {blockSize : Nat} {tokens : List Token} {cache : List ρ} {filled : Nat}
    (hcache : cache = (m.rowsOf tokens).take filled) (hfilled : filled ≤ tokens.length) (n i : Nat)
    (hlen : (i + n) * blockSize ≤ filled) {cached : PrefixRows ρ} (h : EntriesOk m blockSize cached) :
    EntriesOk m blockSize (register blockSize tokens cache n i cached) := by
  induction n generalizing i cached with
  | zero => exact h
  | succ n ih =>
      apply ih (i + 1) (by rw [Nat.add_assoc, Nat.add_comm 1 n]; exact hlen)
      split
      next => exact h
      next =>
        have hblock : (i + 1) * blockSize ≤ filled :=
          (Nat.mul_le_mul_right _ (by omega)).trans hlen
        have hlong : (tokens.take ((i + 1) * blockSize)).length = (i + 1) * blockSize := by
          rw [List.length_take, min_eq_left (hblock.trans hfilled)]
        intro e he
        rcases List.mem_cons.1 he with rfl | he
        · refine ⟨i, hlong, ?_⟩
          show (cache.drop _).take _ = _
          rw [CausalModel.rowsOf_take, hcache, List.take_drop, List.take_take, ← Nat.succ_mul, min_eq_left hblock]
        · exact h e he

/-! ## The prefills planned -/

/-- A running sequence, planned if it is one of the prefills. -/
def plannedIn (cached : PrefixRows ρ) (blockSize : Nat) (ids : List SequenceId) (s : Sequence ρ σ γ) :
    Sequence ρ σ γ :=
  if s.id ∈ ids then (planPrefill cached blockSize s).1 else s

theorem plannedIn_id (cached : PrefixRows ρ) (blockSize : Nat) (ids : List SequenceId) (s : Sequence ρ σ γ) :
    (plannedIn cached blockSize ids s).id = s.id := by
  unfold plannedIn
  split <;> rfl

/-- Every prefill is planned from where the step found it. -/
theorem planPrefillInputs_eq (cached : PrefixRows ρ) (blockSize : Nat) {ids : List SequenceId} (hids : ids.Nodup)
    {running : List (Sequence ρ σ γ)} (hnodup : (running.map (·.id)).Nodup) {seqs : List (Sequence ρ σ γ)}
    (hseqs : ids.mapM (getRunning running) = some seqs) :
    planPrefillInputs cached blockSize ids running =
      some (running.map (plannedIn cached blockSize ids),
        seqs.map fun s => (planPrefill cached blockSize s).2) := by
  induction ids generalizing running seqs with
  | nil =>
      cases hseqs
      have hsame : running.map (plannedIn cached blockSize []) = running.map id :=
        List.map_congr_left fun s _ => if_neg List.not_mem_nil
      rw [hsame, List.map_id]
      rfl
  | cons id ids ih =>
      obtain ⟨hid, hids⟩ := List.nodup_cons.1 hids
      rw [List.mapM_cons] at hseqs
      obtain ⟨s, hs, hseqs⟩ := Option.bind_eq_some_iff.1 hseqs
      obtain ⟨rest, hrest, hseqs⟩ := Option.bind_eq_some_iff.1 hseqs
      cases hseqs
      obtain ⟨hmem, hsid⟩ := getRunning_some hs
      have hsame : (planPrefill cached blockSize s).1.id = id := hsid
      have hlater : ids.mapM (getRunning (setRunning running id (planPrefill cached blockSize s).1)) = some rest := by
        rw [← hrest]
        exact mapM_setRunning hsame hid
      unfold planPrefillInputs
      rw [hs, Option.bind_some, ih hids (by rwa [setRunning_ids hsame]) hlater, Option.map_some, List.map_cons]
      congr 2
      unfold setRunning
      rw [List.map_map]
      apply List.map_congr_left
      intro t ht
      show plannedIn cached blockSize ids (if t.id = id then _ else t) = plannedIn cached blockSize (id :: ids) t
      unfold plannedIn
      by_cases heq : t.id = id
      · obtain rfl : t = s := eq_of_id hnodup ht hmem (heq.trans hsid.symm)
        rw [if_pos heq, hsame, if_neg hid, if_pos (heq ▸ List.mem_cons_self)]
      · rw [if_neg heq]
        by_cases hin : t.id ∈ ids
        · rw [if_pos hin, if_pos (List.mem_cons_of_mem _ hin)]
        · rw [if_neg hin, if_neg (List.not_mem_cons_of_ne_of_not_mem heq hin)]

/-! ## The batch -/

/-- What a planned prefill feeds. -/
def prefillShare (info : PrefillInfo) : List (Token × Nat) :=
  info.inputTokens.zip ((List.range info.uncachedLen).map (info.numCachedTokens + ·))

/-- A forward gives every sequence what its share read from its cache gives. -/
theorem forwardBatchLast_shares (m : CausalModel ρ Λ) (work : List (List ρ × List (Token × Nat)))
    (h : ∀ w ∈ work, w.2 ≠ []) {out : List (List ρ × Λ)}
    (hout : forwardBatchLast m (work.map Prod.fst) (work.map (·.2.length)) (work.flatMap Prod.snd) = some out) :
    out.map (fun o => (⟨o.1, some o.2⟩ : Slot ρ Λ)) = work.map fun w => w.2.foldl m.feed ⟨w.1, none⟩ := by
  induction work generalizing out with
  | nil =>
      cases hout
      rfl
  | cons w work ih =>
      rw [List.map_cons, List.map_cons, List.flatMap_cons] at hout
      unfold forwardBatchLast at hout
      dsimp only at hout
      rw [List.take_left, List.drop_left] at hout
      obtain ⟨logits, hlast, hout⟩ := Option.bind_eq_some_iff.1 hout
      obtain ⟨rest, hrest, rfl⟩ := Option.map_eq_some_iff.1 hout
      rw [List.map_cons, List.map_cons, ih (fun v hv => h v (List.mem_cons_of_mem _ hv)) hrest, ← hlast]

theorem zip_flatMap {α β δ : Type} (xs : List α) (f : α → List β) (g : α → List δ)
    (h : ∀ x ∈ xs, (f x).length = (g x).length) :
    (xs.flatMap f).zip (xs.flatMap g) = xs.flatMap fun x => (f x).zip (g x) := by
  induction xs with
  | nil => rfl
  | cons x xs ih =>
      rw [List.flatMap_cons, List.flatMap_cons, List.flatMap_cons, List.zip_append (h x List.mem_cons_self),
        ih fun y hy => h y (List.mem_cons_of_mem _ hy)]

/-- All rows but the last token's are in the cache, and the position fed next is that token's. -/
structure Settled (m : CausalModel ρ Λ) (s : Sequence ρ σ γ) : Prop where
  cache : s.cache = m.rowsOf s.allTokens.dropLast
  position : s.numProcessedTokens = s.allTokens.length - 1

theorem Settled.share {m : CausalModel ρ Λ} {s : Sequence ρ σ γ} (h : Settled m s) (hne : s.allTokens ≠ []) :
    [(s.allTokens.getLast hne, s.numProcessedTokens)].foldl m.feed ⟨s.cache, none⟩ = m.read [] s.allTokens := by
  have hread := m.read_append s.allTokens.dropLast (List.cons_ne_nil (s.allTokens.getLast hne) [])
  rw [List.dropLast_concat_getLast] at hread
  rw [hread, h.cache, h.position, ← List.length_dropLast]
  unfold CausalModel.read
  rw [m.rowsOf_length]
  rfl

theorem planPrefill_share {m : CausalModel ρ Λ} {blockSize : Nat} {cached : PrefixRows ρ}
    (h : EntriesOk m blockSize cached) {s : Sequence ρ σ γ} (hcache : s.cache = []) (hne : s.allTokens ≠ []) :
    prefillShare (planPrefill cached blockSize s).2 ≠ [] ∧
      (prefillShare (planPrefill cached blockSize s).2).foldl m.feed
        ⟨(planPrefill cached blockSize s).1.cache, none⟩ = m.read [] s.allTokens := by
  obtain ⟨hrows, hlt⟩ := planPrefill_cache h hcache hne
  generalize hn : (planPrefill cached blockSize s).2.numCachedTokens = n at hrows hlt
  have hlen : (m.rowsOf (s.allTokens.take n)).length = n := by
    rw [m.rowsOf_length, List.length_take, min_eq_left hlt.le]
  have hdrop : s.allTokens.drop n ≠ [] := by
    apply List.ne_nil_of_length_pos
    rw [List.length_drop]
    omega
  have hshare : prefillShare (planPrefill cached blockSize s).2 =
      (s.allTokens.drop n).zip (List.range' n (s.allTokens.drop n).length) := by
    rw [List.length_drop, List.range'_eq_map_range, ← hn]
    rfl
  have hread := m.read_append (s.allTokens.take n) hdrop
  rw [List.take_append_drop] at hread
  constructor
  · rw [hshare]
    apply List.ne_nil_of_length_pos
    rw [List.length_zip, List.length_range', min_self]
    exact List.length_pos_of_ne_nil hdrop
  · rw [hshare, hrows, hread]
    unfold CausalModel.read
    rw [hlen]

/-! ## The forward -/

/-- A running sequence once it has read all of its tokens, if it is one of the scheduled. -/
def readIn (m : CausalModel ρ Λ) (ids : List SequenceId) (s : Sequence ρ σ γ) : Sequence ρ σ γ :=
  if s.id ∈ ids then { s with cache := m.rowsOf s.allTokens } else s

/-- What the scheduler gives a forward: sequences that run, each once, the prefills with nothing in their
caches and the decodes with all but one row. -/
structure Scheduled (m : CausalModel ρ Λ) (prefills decodes : List SequenceId) (running : List (Sequence ρ σ γ)) :
    Prop where
  nodup : (running.map (·.id)).Nodup
  once : (prefills ++ decodes).Nodup
  runs : ∀ id ∈ prefills ++ decodes, id ∈ running.map (·.id)
  nonempty : ∀ s ∈ running, s.allTokens ≠ []
  prefill : ∀ s ∈ running, s.id ∈ prefills → s.cache = []
  settled : ∀ s ∈ running, s.id ∉ prefills → Settled m s

section

variable (cached : PrefixRows ρ) (blockSize : Nat)

/-- What a prefill and what a decode feed, and the caches they feed it to. -/
def prefillWork (s : Sequence ρ σ γ) : List ρ × List (Token × Nat) :=
  ((planPrefill cached blockSize s).1.cache, prefillShare (planPrefill cached blockSize s).2)

def decodeWork (s : Sequence ρ σ γ) : List ρ × List (Token × Nat) :=
  (s.cache, [(s.allTokens.getLastD 0, s.numProcessedTokens)])

/-- The batch of these prefills and decodes. -/
def batchOf (seqsP seqsD : List (Sequence ρ σ γ)) : BatchInput :=
  let infos := seqsP.map fun s => (planPrefill cached blockSize s).2
  ⟨infos.flatMap (·.inputTokens) ++ seqsD.map (·.allTokens.getLastD 0),
    infos.flatMap (fun info => (List.range info.uncachedLen).map (info.numCachedTokens + ·)) ++
      seqsD.map (·.numProcessedTokens),
    infos.map (·.uncachedLen) ++ List.replicate seqsD.length 1⟩

theorem inputTokens_length (s : Sequence ρ σ γ) :
    (planPrefill cached blockSize s).2.inputTokens.length = (planPrefill cached blockSize s).2.uncachedLen :=
  List.length_drop

theorem batchOf_tokens (seqsP seqsD : List (Sequence ρ σ γ)) :
    (batchOf cached blockSize seqsP seqsD).tokens =
      (seqsP.map (prefillWork cached blockSize) ++ seqsD.map decodeWork).flatMap Prod.snd := by
  have hsame : ∀ s ∈ seqsP, (planPrefill cached blockSize s).2.inputTokens.length =
      ((List.range (planPrefill cached blockSize s).2.uncachedLen).map
        ((planPrefill cached blockSize s).2.numCachedTokens + ·)).length := by
    intro s _
    rw [inputTokens_length, List.length_map, List.length_range]
  unfold BatchInput.tokens batchOf
  dsimp only
  rw [List.flatMap_map, List.flatMap_map, List.zip_append, zip_flatMap seqsP _ _ hsame, List.zip_map',
    List.flatMap_append, List.flatMap_map, List.flatMap_map]
  · exact congrArg _ List.map_eq_flatMap
  · rw [List.length_flatMap, List.length_flatMap, List.map_congr_left hsame]

theorem batchOf_counts (seqsP seqsD : List (Sequence ρ σ γ)) :
    (batchOf cached blockSize seqsP seqsD).tokenCounts =
      (seqsP.map (prefillWork cached blockSize) ++ seqsD.map decodeWork).map (·.2.length) := by
  unfold batchOf
  dsimp only
  rw [List.map_append, List.map_map, List.map_map, List.map_map]
  congr 1
  · apply List.map_congr_left
    intro s _
    show _ = (prefillShare _).length
    unfold prefillShare
    rw [List.length_zip, inputTokens_length, List.length_map, List.length_range, min_self]
    rfl
  · rw [← List.map_const']
    rfl

theorem batchOf_laid {seqsP : List (Sequence ρ σ γ)} (seqsD : List (Sequence ρ σ γ))
    (h : ∀ s ∈ seqsP, prefillShare (planPrefill cached blockSize s).2 ≠ []) :
    (batchOf cached blockSize seqsP seqsD).Laid := by
  have hsum : ∀ seqs : List (Sequence ρ σ γ), (List.replicate seqs.length 1).sum = seqs.length := fun seqs => by
    rw [List.sum_replicate, smul_eq_mul, Nat.mul_one]
  refine ⟨?_, ?_, ?_⟩
  · show (List.flatMap _ (seqsP.map _) ++ seqsD.map _).length = (List.map _ (seqsP.map _) ++ _).sum
    rw [List.length_append, List.length_flatMap, List.length_map, List.sum_append, hsum, List.map_map, List.map_map]
    congr 2
    exact List.map_congr_left fun s _ => inputTokens_length cached blockSize s
  · show (List.flatMap _ (seqsP.map _) ++ seqsD.map _).length = (List.map _ (seqsP.map _) ++ _).sum
    rw [List.length_append, List.length_flatMap, List.length_map, List.sum_append, hsum]
    congr 2
    apply List.map_congr_left
    intro info _
    rw [List.length_map, List.length_range]
  · intro n hn
    rw [batchOf_counts] at hn
    obtain ⟨w, hw, rfl⟩ := List.mem_map.1 hn
    rcases List.mem_append.1 hw with hw | hw
    · obtain ⟨s, hs, rfl⟩ := List.mem_map.1 hw
      exact List.length_pos_of_ne_nil (h s hs)
    · obtain ⟨s, -, rfl⟩ := List.mem_map.1 hw
      exact le_refl 1

end

/-- The batch of a step and what the forward makes of the running sequences. -/
theorem forwardRunning_eq (m : CausalModel ρ Λ) (cap : Nat → Nat) {blockSize : Nat} {cached : PrefixRows ρ}
    (hentries : EntriesOk m blockSize cached) {prefills decodes : List SequenceId} {running : List (Sequence ρ σ γ)}
    (h : Scheduled m prefills decodes running) :
    ∃ seqsP seqsD batch rows, prefills.mapM (getRunning running) = some seqsP ∧
      decodes.mapM (getRunning running) = some seqsD ∧
      buildBatchInput (running.map (plannedIn cached blockSize prefills))
        (seqsP.map fun s => (planPrefill cached blockSize s).2) decodes = some batch ∧
      forwardRunning m cap prefills decodes batch (running.map (plannedIn cached blockSize prefills)) =
        some (running.map (readIn m (prefills ++ decodes)), rows) ∧
      rows.map some = (seqsP ++ seqsD).map fun s => m.answer s.allTokens := by
  obtain ⟨seqsP, hseqsP⟩ := mapM_getRunning_isSome fun id hid => h.runs id (List.mem_append_left decodes hid)
  obtain ⟨seqsD, hseqsD⟩ := mapM_getRunning_isSome fun id hid => h.runs id (List.mem_append_right prefills hid)
  have hidsP := mapM_getRunning_ids hseqsP
  have hidsD := mapM_getRunning_ids hseqsD
  have hmemP : ∀ s ∈ seqsP, s ∈ running := fun s => mapM_getRunning_mem hseqsP
  have hmemD : ∀ s ∈ seqsD, s ∈ running := fun s => mapM_getRunning_mem hseqsD
  have hdisjoint := (List.nodup_append.1 h.once).2.2
  have hinP : ∀ s ∈ seqsP, s.id ∈ prefills := fun s hs => hidsP ▸ List.mem_map_of_mem hs
  have hinD : ∀ s ∈ seqsD, s.id ∉ prefills := fun s hs hin =>
    hdisjoint s.id hin s.id (hidsD ▸ List.mem_map_of_mem hs) rfl
  have hplanP : seqsP.map (plannedIn cached blockSize prefills) =
      seqsP.map fun s => (planPrefill cached blockSize s).1 :=
    List.map_congr_left fun s hs => if_pos (hinP s hs)
  have hplanD : seqsD.map (plannedIn cached blockSize prefills) = seqsD :=
    (List.map_congr_left fun s hs => if_neg (hinD s hs)).trans (List.map_id seqsD)
  have hafterP := mapM_getRunning_map (plannedIn_id cached blockSize prefills) hseqsP
  have hafterD := mapM_getRunning_map (plannedIn_id cached blockSize prefills) hseqsD
  rw [hplanP] at hafterP
  rw [hplanD] at hafterD
  have hlast : ∀ s ∈ seqsD, s.allTokens.getLast? = some (s.allTokens.getLastD 0) := fun s hs => by
    rw [List.getLastD_eq_getLast?, List.getLast?_eq_some_getLast (h.nonempty s (hmemD s hs))]
    rfl
  -- the share of each sequence, read from its cache
  have hshareP : ∀ s ∈ seqsP, prefillShare (planPrefill cached blockSize s).2 ≠ [] ∧
      (prefillWork cached blockSize s).2.foldl m.feed ⟨(prefillWork cached blockSize s).1, none⟩ =
        m.read [] s.allTokens := fun s hs =>
    planPrefill_share hentries (h.prefill s (hmemP s hs) (hinP s hs)) (h.nonempty s (hmemP s hs))
  have hshareD : ∀ s ∈ seqsD, (decodeWork s).2.foldl m.feed ⟨(decodeWork s).1, none⟩ = m.read [] s.allTokens := by
    intro s hs
    have hne := h.nonempty s (hmemD s hs)
    have hget : s.allTokens.getLastD 0 = s.allTokens.getLast hne := by
      rw [List.getLastD_eq_getLast?, List.getLast?_eq_some_getLast hne]
      rfl
    unfold decodeWork
    rw [hget]
    exact (h.settled s (hmemD s hs) (hinD s hs)).share hne
  have hne : ∀ w ∈ seqsP.map (prefillWork cached blockSize) ++ seqsD.map decodeWork, w.2 ≠ [] := by
    intro w hw
    rcases List.mem_append.1 hw with hw | hw
    · obtain ⟨s, hs, rfl⟩ := List.mem_map.1 hw
      exact (hshareP s hs).1
    · obtain ⟨s, -, rfl⟩ := List.mem_map.1 hw
      exact List.cons_ne_nil _ _
  -- the forward
  have hlaid := batchOf_laid cached blockSize seqsD fun s hs => (hshareP s hs).1
  have hcaches : ((prefills ++ decodes).mapM fun id =>
      (getRunning (running.map (plannedIn cached blockSize prefills)) id).map (·.cache)) =
        some ((seqsP.map (prefillWork cached blockSize) ++ seqsD.map decodeWork).map Prod.fst) := by
    have hall : (prefills ++ decodes).mapM (getRunning (running.map (plannedIn cached blockSize prefills))) =
        some ((seqsP.map fun s => (planPrefill cached blockSize s).1) ++ seqsD) := by
      rw [List.mapM_append, hafterP, hafterD]
      rfl
    have hread := mapM_bind_getRunning hall (f := fun s => some s.cache) fun s _ => rfl
    simp only [Option.map_eq_bind]
    rw [List.map_append, List.map_map] at hread
    rw [List.map_append, List.map_map, List.map_map]
    exact hread
  have hcount : ((seqsP.map (prefillWork cached blockSize) ++ seqsD.map decodeWork).map Prod.fst).length =
      (batchOf cached blockSize seqsP seqsD).tokenCounts.length := by
    rw [batchOf_counts, List.length_map, List.length_map]
  obtain ⟨out, hout, -, hrun⟩ := runForwardPass_whole m cap prefills.length _ _ hlaid hcount
  rw [batchOf_counts, batchOf_tokens] at hout
  have hslots := forwardBatchLast_shares m _ hne hout
  have hreads : (seqsP.map (prefillWork cached blockSize) ++ seqsD.map decodeWork).map
      (fun w => w.2.foldl m.feed ⟨w.1, none⟩) = (seqsP ++ seqsD).map fun s => m.read [] s.allTokens := by
    rw [List.map_append, List.map_append, List.map_map, List.map_map]
    exact congrArg₂ _ (List.map_congr_left fun s hs => (hshareP s hs).2) (List.map_congr_left hshareD)
  rw [hreads] at hslots
  have hrows : out.map Prod.fst = (seqsP ++ seqsD).map fun s => m.rowsOf s.allTokens := by
    have := congrArg (List.map Slot.cache) hslots
    rwa [List.map_map, List.map_map] at this
  have hanswers : (out.map Prod.snd).map some = (seqsP ++ seqsD).map fun s => m.answer s.allTokens := by
    have := congrArg (List.map Slot.last) hslots
    rw [List.map_map, List.map_map] at this
    rw [List.map_map]
    exact this
  refine ⟨seqsP, seqsD, batchOf cached blockSize seqsP seqsD, out.map Prod.snd, hseqsP, hseqsD, ?_, ?_, hanswers⟩
  · unfold buildBatchInput
    rw [mapM_bind_getRunning hafterD (g := fun s => (s.allTokens.getLastD 0, s.numProcessedTokens)) fun s hs => by
      rw [hlast s hs]
      rfl, Option.map_some, List.map_map, List.map_map, List.length_map]
    rfl
  · unfold forwardRunning
    rw [hcaches, Option.bind_some, hrun, Option.map_some, List.map_map]
    congr 2
    apply List.map_congr_left
    intro s hs
    have hids : prefills ++ decodes = (seqsP ++ seqsD).map (·.id) := by
      rw [List.map_append, hidsP, hidsD]
    have hlookup := lookup_ids (seqsP ++ seqsD) (fun s => m.rowsOf s.allTokens) s.id
    rw [← hids, ← hrows] at hlookup
    show { plannedIn cached blockSize prefills s with
      cache := (((prefills ++ decodes).zip (out.map Prod.fst)).lookup
        (plannedIn cached blockSize prefills s).id).getD (plannedIn cached blockSize prefills s).cache } = readIn m _ s
    rw [plannedIn_id, hlookup]
    unfold readIn
    by_cases hin : s.id ∈ prefills ++ decodes
    · obtain ⟨t, ht⟩ := getRunning_of_mem (hids ▸ hin)
      obtain ⟨htmem, htid⟩ := getRunning_some ht
      have hrun' : t ∈ running := by
        rcases List.mem_append.1 htmem with h' | h'
        · exact hmemP t h'
        · exact hmemD t h'
      obtain rfl : t = s := eq_of_id h.nodup hrun' hs htid
      rw [if_pos hin, ht, Option.map_some, Option.getD_some]
      unfold plannedIn
      split <;> rfl
    · have hnone : getRunning (seqsP ++ seqsD) s.id = none := by
        apply List.find?_eq_none.2
        intro t ht heq
        exact hin (hids ▸ List.mem_map.2 ⟨t, ht, beq_iff_eq.1 heq⟩)
      rw [if_neg hin, hnone, Option.map_none, Option.getD_none]
      unfold plannedIn
      rw [if_neg fun hp => hin (List.mem_append_left _ hp)]

end Oxydllm.Kv.Batched
