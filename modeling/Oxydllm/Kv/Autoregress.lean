/-
# Oxydllm.Kv.Autoregress — the engine gives every request the tokens of its own loop.

Batches, chunks, prefix hits, evictions, preemptions, aborts and failed steps may come in any order: what a
request is sent is what its loop alone sends after some draws, and a request that completed has all of it.
Where the sampler's draws do not matter, two engines therefore agree on every request.
-/
import Oxydllm.Kv.StepForward

namespace Oxydllm.Kv.Batched

open Exact (FinishReason StopRules)

variable {ρ Λ σ γ ω : Type}

/-- What a request was sent is what its loop sends. -/
def Told (parts : Parts ρ Λ σ γ ω) (requests : List (Request σ γ)) (sent : List (SequenceId × Token))
    (id : SequenceId) : Prop :=
  ∀ req, requests[id]? = some req → ∃ draws, (Solo.run parts req draws).sent = sentTo sent id

/-- A request was sent all its loop sends, which ended for that reason. -/
def Done (parts : Parts ρ Λ σ γ ω) (requests : List (Request σ γ)) (sent : List (SequenceId × Token))
    (c : SequenceId × Option FinishReason) : Prop :=
  ∃ req draws, requests[c.1]? = some req ∧ (Solo.run parts req draws).sent = sentTo sent c.1 ∧
    (Solo.run parts req draws).finishReason = c.2 ∧ c.2.isSome

theorem Follows.told {parts : Parts ρ Λ σ γ ω} {requests : List (Request σ γ)} {sent : List (SequenceId × Token)}
    {s : Sequence ρ σ γ} (h : Follows parts requests sent s) : Told parts requests sent s.id := by
  obtain ⟨req, draws, hreq, -, -, hrun⟩ := h.loop
  intro req' hreq'
  obtain rfl : req = req' := Option.some.inj (hreq.symm.trans hreq')
  exact ⟨draws, by rw [hrun]⟩

theorem Follows.done {parts : Parts ρ Λ σ γ ω} {requests : List (Request σ γ)} {sent : List (SequenceId × Token)}
    {s : Sequence ρ σ γ} (h : Follows parts requests sent s) (hfinished : s.status = .finished) :
    Done parts requests sent (s.id, s.finishReason) := by
  obtain ⟨req, draws, hreq, -, -, hrun⟩ := h.loop
  exact ⟨req, draws, hreq, by rw [hrun], by rw [hrun], h.finished.1 hfinished⟩

theorem Follows.live {parts : Parts ρ Λ σ γ ω} {requests : List (Request σ γ)} {sent : List (SequenceId × Token)}
    {s : Sequence ρ σ γ} (h : Follows parts requests sent s) : s.status ≠ .finished ↔ s.finishReason = none := by
  rw [Ne, h.finished, Option.not_isSome_iff_eq_none]

/-! ## The sampling -/

/-- Between the forward and the end of the sampling: the sequences of `pending` have read all of their tokens,
the others all but the last. -/
structure Sampling (parts : Parts ρ Λ σ γ ω) (requests : List (Request σ γ)) (sent : List (SequenceId × Token))
    (blockSize : Nat) (ids pending : List SequenceId) (t : Sampled ρ σ γ) : Prop where
  same : t.running.map (·.id) = ids
  nodup : ids.Nodup
  follows : ∀ s ∈ t.running, Follows parts requests (sent ++ t.newTokens) s
  unread : ∀ s ∈ t.running, s.id ∈ pending → s.finishReason = none ∧ s.cache = parts.model.rowsOf s.allTokens
  settled : ∀ s ∈ t.running, s.id ∉ pending → Settled parts.model s
  entries : EntriesOk parts.model blockSize t.prefixCache
  told : ∀ id, Told parts requests (sent ++ t.newTokens) id
  others : ∀ id, id ∉ ids → sentTo t.newTokens id = []

theorem Told.other {parts : Parts ρ Λ σ γ ω} {requests : List (Request σ γ)} {sent more : List (SequenceId × Token)}
    {id : SequenceId} (h : Told parts requests sent id) (hmore : sentTo more id = []) :
    Told parts requests (sent ++ more) id := by
  intro req hreq
  obtain ⟨draws, hsent⟩ := h req hreq
  exact ⟨draws, by rw [sentTo_append, hmore, List.append_nil, hsent]⟩

/-- A pending sequence gets its token. -/
theorem Sampling.put {parts : Parts ρ Λ σ γ ω} {requests : List (Request σ γ)} {sent : List (SequenceId × Token)}
    {blockSize : Nat} {ids pending : List SequenceId} {t : Sampled ρ σ γ} {id : SequenceId}
    (h : Sampling parts requests sent blockSize ids (id :: pending) t) (hid : id ∉ pending) {s : Sequence ρ σ γ}
    (hs : getRunning t.running id = some s) {logits : Λ} (hlogits : parts.model.answer s.allTokens = some logits)
    (draw : ω) {token : Token} {s' : Sequence ρ σ γ} {emit : Bool}
    (hsample : sampleToken parts draw logits s = (token, s', emit)) (s'' : Sequence ρ σ γ) (hphase : s'' = { s' with phase := s''.phase }) :
    Sampling parts requests sent blockSize ids pending (t.put id (token, s'', emit)) ∧
      s''.allTokens = s.allTokens ++ [token] ∧ s''.cache = s.cache ∧ s''.id = id := by
  obtain ⟨hmem, rfl⟩ := getRunning_some hs
  obtain ⟨hlive, hcache⟩ := h.unread s hmem List.mem_cons_self
  obtain ⟨hfollows, hid', hcache', hall, hposition⟩ := (h.follows s hmem).sampled hlive hlogits draw hsample
  -- the phase is the engine's alone
  have hids : s''.id = s.id := by rw [hphase]; exact hid'
  have hall' : s''.allTokens = s.allTokens ++ [token] := by rw [hphase]; exact hall
  have hcaches : s''.cache = s.cache := by rw [hphase]; exact hcache'
  have hpos : s''.numProcessedTokens = s''.allTokens.length - 1 := by rw [hphase]; exact hposition
  have hnew : Follows parts requests (sent ++ (t.put s.id (token, s'', emit)).newTokens) s'' := by
    have hlog : sent ++ (t.put s.id (token, s'', emit)).newTokens =
        if emit then sent ++ t.newTokens ++ [(s.id, token)] else sent ++ t.newTokens := by
      unfold Sampled.put
      dsimp only
      split
      · rw [List.append_assoc]
      · rfl
    rw [hlog, hphase]
    exact ⟨hfollows.loop, hfollows.counts, hfollows.finished, hfollows.nonempty⟩
  have hlog : (t.put s.id (token, s'', emit)).newTokens = t.newTokens ∨
      (t.put s.id (token, s'', emit)).newTokens = t.newTokens ++ [(s.id, token)] := by
    unfold Sampled.put
    dsimp only
    split
    · exact .inr rfl
    · exact .inl rfl
  refine ⟨⟨(setRunning_ids hids).trans h.same, h.nodup, ?_, ?_, ?_, h.entries, ?_, ?_⟩, hall', hcaches, hids⟩
  · intro u hu
    rcases mem_setRunning hu with rfl | ⟨hold, hne⟩
    · exact hnew
    · rcases hlog with hlog | hlog
      · rw [hlog]
        exact h.follows u hold
      · rw [hlog, ← List.append_assoc]
        exact (h.follows u hold).other (sentTo_other (Ne.symm hne) token)
  · intro u hu hin
    rcases mem_setRunning hu with rfl | ⟨hold, -⟩
    · exact absurd (hids ▸ hin) hid
    · exact h.unread u hold (List.mem_cons_of_mem _ hin)
  · intro u hu hout
    rcases mem_setRunning hu with rfl | ⟨hold, hne⟩
    · refine ⟨?_, hpos⟩
      rw [hcaches, hall', List.dropLast_concat]
      exact hcache
    · exact h.settled u hold (List.not_mem_cons_of_ne_of_not_mem hne hout)
  · intro id'
    by_cases heq : id' = s.id
    · subst heq
      have htold := hnew.told
      rwa [hids] at htold
    · rcases hlog with hlog | hlog
      · rw [hlog]
        exact h.told id'
      · rw [hlog, ← List.append_assoc]
        exact (h.told id').other (sentTo_other (Ne.symm heq) token)
  · intro id' hout
    have hne : s.id ≠ id' := by
      rintro rfl
      exact hout (h.same ▸ List.mem_map_of_mem hmem)
    rcases hlog with hlog | hlog
    · rw [hlog]
      exact h.others id' hout
    · rw [hlog, sentTo_append, h.others id' hout, sentTo_other hne]
      rfl

theorem mem_put {t : Sampled ρ σ γ} {id : SequenceId} {r : Token × Sequence ρ σ γ × Bool} (hr : r.2.1.id = id)
    {s : Sequence ρ σ γ} (h : s ∈ (t.put id r).running) (hne : s.id ≠ id) : s ∈ t.running := by
  rcases mem_setRunning h with rfl | ⟨hold, -⟩
  · exact absurd hr hne
  · exact hold

/-- The prefills' tokens. -/
theorem samplePrefillOutputs_sampling {parts : Parts ρ Λ σ γ ω} {requests : List (Request σ γ)}
    {sent : List (SequenceId × Token)} {blockSize : Nat} {ids : List SequenceId} (draw : SequenceId → ω)
    (work : List (PrefillInfo × Λ)) (later : List SequenceId) {t : Sampled ρ σ γ}
    (h : Sampling parts requests sent blockSize ids (work.map (·.1.seqId) ++ later) t)
    (hnodup : (work.map (·.1.seqId) ++ later).Nodup) (hin : ∀ w ∈ work, w.1.seqId ∈ ids)
    (hwork : ∀ w ∈ work, ∀ s ∈ t.running, s.id = w.1.seqId → parts.model.answer s.allTokens = some w.2 ∧
      w.1.numCachedBlocks ≤ w.1.numFullBlocksTotal ∧
        w.1.numFullBlocksTotal * blockSize ≤ s.allTokens.length) :
    ∃ t', samplePrefillOutputs parts draw blockSize work t = some t' ∧
      Sampling parts requests sent blockSize ids later t' ∧
      ∀ s ∈ t'.running, s.id ∉ work.map (·.1.seqId) → s ∈ t.running := by
  induction work generalizing t with
  | nil => exact ⟨t, rfl, h, fun s hs _ => hs⟩
  | cons w work ih =>
      obtain ⟨info, logits⟩ := w
      rw [List.map_cons, List.cons_append] at h hnodup
      obtain ⟨hid, hnodup⟩ := List.nodup_cons.1 hnodup
      obtain ⟨s, hs⟩ := getRunning_of_mem (h.same ▸ hin _ List.mem_cons_self : info.seqId ∈ t.running.map (·.id))
      obtain ⟨hmem, hsid⟩ := getRunning_some hs
      obtain ⟨hlogits, hblocks, hfull⟩ := hwork _ List.mem_cons_self s hmem hsid
      have hcache := (h.unread s hmem (hsid ▸ List.mem_cons_self)).2
      rcases hsample : sampleToken parts (draw info.seqId) logits s with ⟨token, s', emit⟩
      obtain ⟨hput, hall, hsame, hsid'⟩ :=
        h.put hid hs hlogits (draw info.seqId) hsample { s' with phase := .decode } rfl
      -- the blocks registered are full of the rows of the prompt
      have hrows : s'.cache = (parts.model.rowsOf s'.allTokens).take s.allTokens.length := by
        rw [show s'.allTokens = _ from hall, ← CausalModel.rowsOf_take, List.take_left]
        exact hsame.trans hcache
      have hshorter : s.allTokens.length ≤ s'.allTokens.length := by
        rw [show s'.allTokens = _ from hall, List.length_append]
        exact Nat.le_add_right _ _
      have hentries := register_ok hrows hshorter
        (info.numFullBlocksTotal - info.numCachedBlocks) info.numCachedBlocks
        (by rwa [Nat.add_sub_of_le hblocks]) hput.entries
      have hnext : Sampling parts requests sent blockSize ids (work.map (·.1.seqId) ++ later)
          { t.put info.seqId (token, { s' with phase := .decode }, emit) with
            prefixCache := register blockSize s'.allTokens s'.cache
              (info.numFullBlocksTotal - info.numCachedBlocks) info.numCachedBlocks t.prefixCache } :=
        ⟨hput.same, hput.nodup, hput.follows, hput.unread, hput.settled, hentries, hput.told, hput.others⟩
      obtain ⟨t', ht', hdone, hkept⟩ := ih hnext hnodup (fun v hv => hin v (List.mem_cons_of_mem _ hv)) fun v hv u hu hvid => by
          apply hwork v (List.mem_cons_of_mem _ hv) u _ hvid
          apply mem_put hsid' hu
          rintro heq
          exact hid (List.mem_append_left _ (List.mem_map.2 ⟨v, hv, hvid.symm.trans heq⟩))
      refine ⟨t', ?_, hdone, ?_⟩
      · unfold samplePrefillOutputs
        rw [hs, Option.bind_some]
        dsimp only
        rw [hsample]
        exact ht'
      · intro u hu hout
        rw [List.map_cons, List.mem_cons, not_or] at hout
        exact mem_put hsid' (hkept u hu hout.2) hout.1

/-- The decodes' tokens. -/
theorem sampleDecodeOutputs_sampling {parts : Parts ρ Λ σ γ ω} {requests : List (Request σ γ)}
    {sent : List (SequenceId × Token)} {blockSize : Nat} {ids : List SequenceId} (draw : SequenceId → ω)
    (work : List (SequenceId × Λ)) {t : Sampled ρ σ γ}
    (h : Sampling parts requests sent blockSize ids (work.map Prod.fst) t) (hnodup : (work.map Prod.fst).Nodup)
    (hin : ∀ w ∈ work, w.1 ∈ ids)
    (hwork : ∀ w ∈ work, ∀ s ∈ t.running, s.id = w.1 → parts.model.answer s.allTokens = some w.2) :
    ∃ t', sampleDecodeOutputs parts draw work t = some t' ∧ Sampling parts requests sent blockSize ids [] t' := by
  induction work generalizing t with
  | nil => exact ⟨t, rfl, h⟩
  | cons w work ih =>
      obtain ⟨id, logits⟩ := w
      rw [List.map_cons] at h hnodup
      obtain ⟨hid, hnodup⟩ := List.nodup_cons.1 hnodup
      obtain ⟨s, hs⟩ := getRunning_of_mem (h.same ▸ hin _ List.mem_cons_self : id ∈ t.running.map (·.id))
      obtain ⟨hmem, hsid⟩ := getRunning_some hs
      have hlogits := hwork _ List.mem_cons_self s hmem hsid
      rcases hsample : sampleToken parts (draw id) logits s with ⟨token, s', emit⟩
      obtain ⟨hput, -, -, hsid'⟩ := h.put hid hs hlogits (draw id) hsample s' rfl
      obtain ⟨t', ht', hdone⟩ := ih hput hnodup (fun v hv => hin v (List.mem_cons_of_mem _ hv))
        fun v hv u hu hvid => by
          apply hwork v (List.mem_cons_of_mem _ hv) u _ hvid
          apply mem_put hsid' hu
          rintro heq
          exact hid (List.mem_map.2 ⟨v, hv, hvid.symm.trans heq⟩)
      refine ⟨t', ?_, hdone⟩
      unfold sampleDecodeOutputs
      rw [hs, Option.bind_some, hsample]
      exact ht'

/-! ## Between the steps -/

/-- Between two steps what runs has all rows but the last token's, and what waits has none. -/
structure Inv (parts : Parts ρ Λ σ γ ω) (e : Engine ρ σ γ) (log : Log σ γ) : Prop where
  size : log.requests.length = e.nextId
  nodup : ((e.running ++ e.waiting).map (·.id)).Nodup
  follows : ∀ s ∈ e.running ++ e.waiting, Follows parts log.requests log.newTokens s
  live : ∀ s ∈ e.running ++ e.waiting, s.status ≠ .finished
  settled : ∀ s ∈ e.running, Settled parts.model s
  empty : ∀ s ∈ e.waiting, s.cache = []
  entries : EntriesOk parts.model e.blockSize e.prefixCache
  told : ∀ id, Told parts log.requests log.newTokens id
  fresh : ∀ id, log.requests.length ≤ id → sentTo log.newTokens id = []
  done : ∀ c ∈ log.completed, Done parts log.requests log.newTokens c ∧ c.1 ∉ (e.running ++ e.waiting).map (·.id)

/-- Sequences that leave or go back to the queue, and entries that leave, are nothing to the others. -/
theorem Inv.fewer {parts : Parts ρ Λ σ γ ω} {e e' : Engine ρ σ γ} {log : Log σ γ} (h : Inv parts e log)
    (hnext : e'.nextId = e.nextId) (hnodup : ((e'.running ++ e'.waiting).map (·.id)).Nodup)
    (hrunning : ∀ s ∈ e'.running, s ∈ e.running)
    (hwaiting : ∀ s ∈ e'.waiting, s ∈ e.waiting ∨ ∃ t ∈ e.running, s = t.preempted)
    (hblock : e'.blockSize = e.blockSize) (hentries : ∀ entry ∈ e'.prefixCache, entry ∈ e.prefixCache) :
    Inv parts e' log := by
  have hback : ∀ s ∈ e'.running ++ e'.waiting, s ∈ e.running ++ e.waiting ∨ ∃ t ∈ e.running, s = t.preempted := by
    intro s hs
    rcases List.mem_append.1 hs with hs | hs
    · exact .inl (List.mem_append_left _ (hrunning s hs))
    · exact (hwaiting s hs).imp_left (List.mem_append_right _)
  refine ⟨h.size.trans hnext.symm, hnodup, ?_, ?_, fun s hs => h.settled s (hrunning s hs), ?_, ?_, h.told, h.fresh, ?_⟩
  · intro s hs
    rcases hback s hs with hold | ⟨t, ht, rfl⟩
    · exact h.follows s hold
    · have hmem := List.mem_append_left e.waiting ht
      exact (h.follows t hmem).moved (h.live t hmem) (by rintro ⟨⟩) rfl rfl rfl rfl rfl rfl rfl rfl
  · intro s hs
    rcases hback s hs with hold | ⟨t, -, rfl⟩
    · exact h.live s hold
    · rintro ⟨⟩
  · intro s hs
    rcases hwaiting s hs with hold | ⟨t, -, rfl⟩
    · exact h.empty s hold
    · rfl
  · rw [hblock]
    exact fun entry hentry => h.entries entry (hentries entry hentry)
  · intro c hc
    obtain ⟨hdone, hout⟩ := h.done c hc
    refine ⟨hdone, fun hin => hout ?_⟩
    obtain ⟨s, hs, hid⟩ := List.mem_map.1 hin
    rcases hback s hs with hold | ⟨t, ht, rfl⟩
    · exact List.mem_map.2 ⟨s, hold, hid⟩
    · exact List.mem_map.2 ⟨t, List.mem_append_left _ ht, hid⟩

theorem Inv.preempt {parts : Parts ρ Λ σ γ ω} {e : Engine ρ σ γ} {log : Log σ γ} (h : Inv parts e log)
    (id : SequenceId) : Inv parts (e.preempt id) log := by
  unfold Engine.preempt
  split
  next => exact h
  next s hs =>
    obtain ⟨hmem, hsid⟩ := getRunning_some hs
    have hnodup := h.nodup
    rw [List.map_append, List.nodup_append] at hnodup
    obtain ⟨hrunning, hwaiting, hdisjoint⟩ := hnodup
    refine h.fewer rfl ?_ (fun t ht => List.mem_of_mem_filter ht) ?_ rfl fun _ hentry => hentry
    · rw [List.map_append, List.map_cons, List.nodup_append]
      refine ⟨hrunning.sublist (List.filter_sublist.map _), List.nodup_cons.2 ⟨?_, hwaiting⟩, ?_⟩
      · exact fun hin => hdisjoint s.id (List.mem_map_of_mem hmem) s.id hin rfl
      · rintro a ha b hb rfl
        obtain ⟨t, ht, rfl⟩ := List.mem_map.1 ha
        obtain ⟨hold, hkept⟩ := List.mem_filter.1 ht
        rcases List.mem_cons.1 hb with heq | hb
        · exact of_decide_eq_true hkept (heq.trans hsid)
        · exact hdisjoint t.id (List.mem_map_of_mem hold) t.id hb rfl
    · intro t ht
      rcases List.mem_cons.1 ht with rfl | ht
      · exact .inr ⟨s, hmem, rfl⟩
      · exact .inl ht

theorem Inv.preempts {parts : Parts ρ Λ σ γ ω} {e : Engine ρ σ γ} {log : Log σ γ} (h : Inv parts e log)
    (ids : List SequenceId) : Inv parts (ids.foldl Engine.preempt e) log := by
  induction ids generalizing e with
  | nil => exact h
  | cons id ids ih => exact ih (h.preempt id)

/-- Logits rows paired with what was read of their sequences. -/
theorem mem_zip_answers {α : Type} {seqs : List (Sequence ρ σ γ)} {f : Sequence ρ σ γ → α}
    {g : Sequence ρ σ γ → Option Λ} {rows : List Λ} (h : rows.map some = seqs.map g) {w : α × Λ}
    (hw : w ∈ (seqs.map f).zip rows) : ∃ s ∈ seqs, w.1 = f s ∧ g s = some w.2 := by
  induction seqs generalizing rows with
  | nil => exact absurd hw List.not_mem_nil
  | cons s seqs ih =>
      rcases rows with - | ⟨row, rows⟩
      · cases h
      rw [List.map_cons, List.map_cons] at h
      obtain ⟨hrow, hrows⟩ := List.cons.inj h
      rcases List.mem_cons.1 hw with rfl | hw
      · exact ⟨s, List.mem_cons_self, rfl, hrow.symm⟩
      · obtain ⟨t, ht, hrest⟩ := ih hrows hw
        exact ⟨t, List.mem_cons_of_mem _ ht, hrest⟩

/-- What the sampling of a step starts from. -/
structure Forwarded (parts : Parts ρ Λ σ γ ω) (log : Log σ γ) (decodes : List SequenceId) (e e' : Engine ρ σ γ)
    (infos : List PrefillInfo) (rowsP rowsD : List Λ) : Prop where
  nextId : e'.nextId = e.nextId
  nodup : ((e'.running ++ e'.waiting).map (·.id)).Nodup
  known : ∀ id ∈ (e'.running ++ e'.waiting).map (·.id), id ∈ (e.running ++ e.waiting).map (·.id)
  waiting : ∀ s ∈ e'.waiting, Follows parts log.requests log.newTokens s ∧ s.status ≠ .finished ∧ s.cache = []
  sampling : Sampling parts log.requests log.newTokens e'.blockSize (e'.running.map (·.id))
    (infos.map (·.seqId) ++ decodes) ⟨e'.running, e'.prefixCache, []⟩
  live : ∀ s ∈ e'.running, s.status ≠ .finished
  once : (infos.map (·.seqId) ++ decodes).Nodup
  runs : ∀ id ∈ infos.map (·.seqId) ++ decodes, id ∈ e'.running.map (·.id)
  planned : infos.length = rowsP.length
  decoded : decodes.length = rowsD.length
  prefill : ∀ w ∈ infos.zip rowsP, ∀ s ∈ e'.running, s.id = w.1.seqId →
    parts.model.answer s.allTokens = some w.2 ∧ w.1.numCachedBlocks ≤ w.1.numFullBlocksTotal ∧
      w.1.numFullBlocksTotal * e'.blockSize ≤ s.allTokens.length
  decode : ∀ w ∈ decodes.zip rowsD, ∀ s ∈ e'.running, s.id = w.1 → parts.model.answer s.allTokens = some w.2

theorem Forwarded.work {parts : Parts ρ Λ σ γ ω} {log : Log σ γ} {decodes : List SequenceId} {e e' : Engine ρ σ γ}
    {infos : List PrefillInfo} {rowsP rowsD : List Λ} (h : Forwarded parts log decodes e e' infos rowsP rowsD) :
    (infos.zip rowsP).map (·.1.seqId) = infos.map (·.seqId) := by
  have hfst := congrArg (List.map (·.seqId)) (List.map_fst_zip h.planned.le)
  rwa [List.map_map] at hfst

/-- The prefills are paired with their own rows. -/
theorem Forwarded.zip {parts : Parts ρ Λ σ γ ω} {log : Log σ γ} {decodes : List SequenceId} {e e' : Engine ρ σ γ}
    {infos : List PrefillInfo} {rowsP rowsD : List Λ} (h : Forwarded parts log decodes e e' infos rowsP rowsD) :
    infos.zip (rowsP ++ rowsD) = infos.zip rowsP := by
  have happend := @List.zip_append _ _ infos [] rowsP rowsD h.planned
  rwa [List.append_nil, List.zip_nil_left, List.append_nil] at happend

theorem readIn_id (m : CausalModel ρ Λ) (ids : List SequenceId) (s : Sequence ρ σ γ) : (readIn m ids s).id = s.id := by
  unfold readIn
  split <;> rfl

theorem readIn_allTokens (m : CausalModel ρ Λ) (ids : List SequenceId) (s : Sequence ρ σ γ) :
    (readIn m ids s).allTokens = s.allTokens := by
  unfold readIn
  split <;> rfl

theorem Follows.readIn {parts : Parts ρ Λ σ γ ω} {requests : List (Request σ γ)} {sent : List (SequenceId × Token)}
    {s : Sequence ρ σ γ} (h : Follows parts requests sent s) (ids : List SequenceId) :
    Follows parts requests sent (readIn parts.model ids s) := by
  unfold Batched.readIn
  split
  · exact ⟨h.loop, h.counts, h.finished, h.nonempty⟩
  · exact h

/-- What the scheduler decides is what the forward needs. -/
theorem Inv.scheduled {parts : Parts ρ Λ σ γ ω} {e : Engine ρ σ γ} {log : Log σ γ} (h : Inv parts e log) (n : Nat)
    {decodes : List SequenceId} (hnodup : decodes.Nodup) (hruns : ∀ id ∈ decodes, id ∈ e.running.map (·.id)) :
    Scheduled parts.model ((e.waiting.take n).map (·.id)) decodes (e.admitFirst n).running := by
  have hids := h.nodup
  rw [List.map_append, List.nodup_append] at hids
  obtain ⟨hrunning, hwaiting, hdisjoint⟩ := hids
  have htake : ((e.waiting.take n).map (·.id)).Sublist (e.waiting.map (·.id)) := (List.take_sublist _ _).map _
  have hadmitted : ((e.waiting.take n).map Sequence.admitted).map (·.id) = (e.waiting.take n).map (·.id) := by
    rw [List.map_map]
    rfl
  have hcases : ∀ s ∈ (e.admitFirst n).running, s ∈ e.running ∨ ∃ t ∈ e.waiting, s = t.admitted ∧ t ∈ e.waiting.take n := by
    intro s hs
    rcases List.mem_append.1 hs with hs | hs
    · exact .inl hs
    · obtain ⟨t, ht, rfl⟩ := List.mem_map.1 hs
      exact .inr ⟨t, List.mem_of_mem_take ht, rfl, ht⟩
  refine ⟨?_, ?_, ?_, ?_, ?_, ?_⟩
  · show ((e.running ++ _).map _).Nodup
    rw [List.map_append, hadmitted, List.nodup_append]
    exact ⟨hrunning, hwaiting.sublist htake, fun a ha b hb => hdisjoint a ha b (htake.subset hb)⟩
  · rw [List.nodup_append]
    exact ⟨hwaiting.sublist htake, hnodup, fun a ha b hb heq => hdisjoint b (hruns b hb) a (htake.subset ha) heq.symm⟩
  · intro id hid
    show id ∈ (e.running ++ _).map _
    rw [List.map_append, hadmitted, List.mem_append]
    rcases List.mem_append.1 hid with hid | hid
    · exact .inr hid
    · exact .inl (hruns id hid)
  · intro s hs
    rcases hcases s hs with hs | ⟨t, ht, rfl, -⟩
    · exact (h.follows s (List.mem_append_left _ hs)).nonempty
    · exact (h.follows t (List.mem_append_right _ ht)).nonempty
  · intro s hs hin
    rcases hcases s hs with hs | ⟨t, ht, rfl, -⟩
    · exact absurd rfl (hdisjoint s.id (List.mem_map_of_mem hs) s.id (htake.subset hin))
    · exact h.empty t ht
  · intro s hs hout
    rcases hcases s hs with hs | ⟨t, -, rfl, ht⟩
    · exact h.settled s hs
    · exact absurd (List.mem_map.2 ⟨t, ht, rfl⟩) hout

theorem Inv.admitted {parts : Parts ρ Λ σ γ ω} {e : Engine ρ σ γ} {log : Log σ γ} (h : Inv parts e log) (n : Nat) :
    ∀ s ∈ (e.admitFirst n).running, Follows parts log.requests log.newTokens s ∧ s.status ≠ .finished := by
  intro s hs
  rcases List.mem_append.1 hs with hs | hs
  · have hmem := List.mem_append_left e.waiting hs
    exact ⟨h.follows s hmem, h.live s hmem⟩
  · obtain ⟨t, ht, rfl⟩ := List.mem_map.1 hs
    have hmem := List.mem_append_right e.running (List.mem_of_mem_take ht)
    have hlive : t.admitted.status ≠ .finished := by rintro ⟨⟩
    exact ⟨(h.follows t hmem).moved (h.live t hmem) hlive rfl rfl rfl rfl rfl rfl rfl rfl, hlive⟩

/-- Admitting changes no id. -/
theorem admitFirst_ids (e : Engine ρ σ γ) (n : Nat) :
    ((e.admitFirst n).running ++ (e.admitFirst n).waiting).map (·.id) = (e.running ++ e.waiting).map (·.id) := by
  show (e.running ++ (e.waiting.take n).map Sequence.admitted ++ e.waiting.drop n).map (·.id) = _
  rw [List.append_assoc, List.map_append, List.map_append, List.map_append, List.map_map]
  congr 1
  rw [← List.take_append_drop n (e.waiting.map (·.id)), ← List.map_take, ← List.map_drop]
  rfl

theorem Inv.forward {parts : Parts ρ Λ σ γ ω} {e : Engine ρ σ γ} {log : Log σ γ} (h : Inv parts e log)
    {turn : Turn ω} (hturn : turn.Admissible e) :
    ∃ e' infos rowsP rowsD, e.forward parts turn = some (e', infos, rowsP ++ rowsD) ∧
      Forwarded parts log turn.decodes (turn.preempted.foldl Engine.preempt e) e' infos rowsP rowsD := by
  have hp := h.preempts turn.preempted
  obtain ⟨hdecodes, hruns⟩ := hturn
  generalize hpre : turn.preempted.foldl Engine.preempt e = p at hp hruns
  have hsched := hp.scheduled turn.admitted hdecodes hruns
  generalize hprefills : (p.waiting.take turn.admitted).map (·.id) = prefills at hsched
  obtain ⟨seqsP, seqsD, batch, rows, hseqsP, hseqsD, hbatch, hrun, hrows⟩ :=
    forwardRunning_eq parts.model turn.cap hp.entries hsched
  have honceP := (List.nodup_append.1 hsched.once).1
  have hplan := planPrefillInputs_eq p.prefixCache p.blockSize honceP hsched.nodup hseqsP
  rw [List.map_append] at hrows
  obtain ⟨rowsP, rowsD, rfl, hrowsP, hrowsD⟩ := List.map_eq_append_iff.1 hrows
  refine ⟨{ p.admitFirst turn.admitted with
      running := (p.admitFirst turn.admitted).running.map (readIn parts.model (prefills ++ turn.decodes)) },
    seqsP.map (fun s => (planPrefill p.prefixCache p.blockSize s).2), rowsP, rowsD, ?_, ?_⟩
  · unfold Engine.forward Engine.schedule
    dsimp only
    rw [hpre, hprefills]
    show (planPrefillInputs p.prefixCache p.blockSize prefills (p.admitFirst turn.admitted).running).bind _ = _
    rw [hplan, Option.bind_some]
    dsimp only
    rw [hbatch, Option.bind_some, hrun, Option.map_some]
  have hinfos : (seqsP.map fun s => (planPrefill p.prefixCache p.blockSize s).2).map (·.seqId) = prefills := by
    rw [List.map_map]
    exact mapM_getRunning_ids hseqsP
  have hids : ((p.admitFirst turn.admitted).running.map (readIn parts.model (prefills ++ turn.decodes))).map (·.id) =
      (p.admitFirst turn.admitted).running.map (·.id) := by
    rw [List.map_map]
    exact List.map_congr_left fun s _ => readIn_id _ _ s
  have hall : ((p.admitFirst turn.admitted).running.map (readIn parts.model (prefills ++ turn.decodes)) ++
      (p.admitFirst turn.admitted).waiting).map (·.id) = (p.running ++ p.waiting).map (·.id) := by
    rw [List.map_append, hids, ← List.map_append, admitFirst_ids]
  have hfollows := hp.admitted turn.admitted
  -- a running sequence is the one that was read under its id
  have hread : ∀ t ∈ (p.admitFirst turn.admitted).running, ∀ s ∈ (p.admitFirst turn.admitted).running.map
      (readIn parts.model (prefills ++ turn.decodes)), s.id = t.id → s.allTokens = t.allTokens := by
    intro t ht s hs hid
    obtain ⟨u, hu, rfl⟩ := List.mem_map.1 hs
    rw [readIn_id] at hid
    rw [readIn_allTokens, eq_of_id hsched.nodup hu ht hid]
  refine ⟨rfl, ?_, ?_, ?_, ?_, ?_, ?_, ?_, ?_, ?_, ?_, ?_⟩
  · show (List.map _ (_ ++ _)).Nodup
    rw [hall]
    exact hp.nodup
  · intro id hid
    rw [← hall]
    exact hid
  · intro s hs
    have hold := List.mem_of_mem_drop hs
    have hmem := List.mem_append_right p.running hold
    exact ⟨hp.follows s hmem, hp.live s hmem, hp.empty s hold⟩
  · rw [hinfos]
    refine ⟨rfl, by rw [hids]; exact hsched.nodup, ?_, ?_, ?_, hp.entries, ?_, fun _ _ => rfl⟩
    · intro s hs
      obtain ⟨t, ht, rfl⟩ := List.mem_map.1 hs
      rw [List.append_nil]
      exact (hfollows t ht).1.readIn _
    · intro s hs hin
      obtain ⟨t, ht, rfl⟩ := List.mem_map.1 hs
      rw [readIn_id] at hin
      unfold readIn
      rw [if_pos hin]
      exact ⟨((hfollows t ht).1.live).1 (hfollows t ht).2, rfl⟩
    · intro s hmem hout
      obtain ⟨t, ht, rfl⟩ := List.mem_map.1 hmem
      rw [readIn_id] at hout
      unfold readIn
      rw [if_neg hout]
      exact hsched.settled t ht fun hin => hout (List.mem_append_left _ hin)
    · rw [List.append_nil]
      exact hp.told
  · intro s hs
    obtain ⟨t, ht, rfl⟩ := List.mem_map.1 hs
    unfold readIn
    split
    · exact (hfollows t ht).2
    · exact (hfollows t ht).2
  · rw [hinfos]
    exact hsched.once
  · rw [hinfos]
    intro id hid
    rw [hids]
    exact hsched.runs id hid
  · have := congrArg List.length hrowsP
    rw [List.length_map, List.length_map] at this
    rw [List.length_map, this]
  · have := congrArg List.length hrowsD
    rw [List.length_map, List.length_map] at this
    rw [this, ← mapM_getRunning_ids hseqsD, List.length_map]
  · intro w hw s hmem hid
    obtain ⟨t, ht, hinfo, hanswer⟩ := mem_zip_answers hrowsP hw
    rw [hread t (mapM_getRunning_mem hseqsP ht) s hmem (hid.trans (congrArg PrefillInfo.seqId hinfo)), hinfo]
    refine ⟨hanswer, ?_, Nat.div_mul_le_self _ _⟩
    exact (min_le_right _ _).trans (Nat.div_le_div_right (Nat.sub_le _ _))
  · intro w hw s hmem hid
    rw [← mapM_getRunning_ids hseqsD] at hw
    obtain ⟨t, ht, hinfo, hanswer⟩ := mem_zip_answers hrowsD hw
    rw [hread t (mapM_getRunning_mem hseqsD ht) s hmem (hid.trans hinfo)]
    exact hanswer

/-! ## The moves -/

theorem Follows.known {parts : Parts ρ Λ σ γ ω} {requests : List (Request σ γ)} {sent : List (SequenceId × Token)}
    {s : Sequence ρ σ γ} (h : Follows parts requests sent s) : s.id < requests.length := by
  obtain ⟨req, draws, hreq, -⟩ := h.loop
  exact (List.getElem?_eq_some_iff.1 hreq).1

theorem Done.other {parts : Parts ρ Λ σ γ ω} {requests : List (Request σ γ)} {sent more : List (SequenceId × Token)}
    {c : SequenceId × Option FinishReason} (h : Done parts requests sent c) (hmore : sentTo more c.1 = []) :
    Done parts requests (sent ++ more) c := by
  obtain ⟨req, draws, hreq, hsent, hreason⟩ := h
  exact ⟨req, draws, hreq, by rw [sentTo_append, hmore, List.append_nil, hsent], hreason⟩

/-- What is left once the finished sequences are retired. -/
theorem Inv.retired {parts : Parts ρ Λ σ γ ω} {e e' : Engine ρ σ γ} {log : Log σ γ} (h : Inv parts e log)
    {decodes : List SequenceId} {infos : List PrefillInfo} {rowsP rowsD : List Λ}
    (hf : Forwarded parts log decodes e e' infos rowsP rowsD) {t : Sampled ρ σ γ}
    (ht : Sampling parts log.requests log.newTokens e'.blockSize (e'.running.map (·.id)) [] t) :
    Inv parts { e' with running := (retireFinished t.running).2, prefixCache := t.prefixCache }
      ⟨log.requests, log.newTokens ++ t.newTokens, log.completed ++ (retireFinished t.running).1⟩ := by
  have hnodup := hf.nodup
  rw [List.map_append, List.nodup_append, ← ht.same] at hnodup
  obtain ⟨hrunning, hwaiting, hdisjoint⟩ := hnodup
  have hrest : ∀ s ∈ (retireFinished t.running).2, s ∈ t.running ∧ s.status ≠ .finished := by
    intro s hs
    obtain ⟨hmem, hlive⟩ := List.mem_filter.1 hs
    exact ⟨hmem, of_decide_eq_true hlive⟩
  -- what is sent in a step is sent to sequences that run
  have hothers : ∀ s ∈ e'.waiting, sentTo t.newTokens s.id = [] := fun s hs => ht.others s.id fun hin =>
    hdisjoint s.id (ht.same ▸ hin) s.id (List.mem_map_of_mem hs) rfl
  have hless : ((retireFinished t.running).2.map (·.id)).Sublist (t.running.map (·.id)) :=
    List.filter_sublist.map _
  refine ⟨h.size.trans hf.nextId.symm, ?_, ?_, ?_, ?_, fun s hs => (hf.waiting s hs).2.2, ht.entries, ht.told, ?_, ?_⟩
  · show (List.map _ (_ ++ _)).Nodup
    rw [List.map_append, List.nodup_append]
    exact ⟨hrunning.sublist hless, hwaiting, fun a ha b hb => hdisjoint a (hless.subset ha) b hb⟩
  · intro s hs
    rcases List.mem_append.1 hs with hs | hs
    · exact ht.follows s (hrest s hs).1
    · exact (hf.waiting s hs).1.other (hothers s hs)
  · intro s hs
    rcases List.mem_append.1 hs with hs | hs
    · exact (hrest s hs).2
    · exact (hf.waiting s hs).2.1
  · exact fun s hs => ht.settled s (hrest s hs).1 List.not_mem_nil
  · intro id hid
    show sentTo (log.newTokens ++ t.newTokens) id = []
    rw [sentTo_append, h.fresh id hid, ht.others, List.nil_append]
    intro hin
    rw [← ht.same] at hin
    obtain ⟨s, hs, rfl⟩ := List.mem_map.1 hin
    exact absurd (ht.follows s hs).known (Nat.not_lt.2 hid)
  · intro c hc
    show _ ∧ c.1 ∉ List.map _ (_ ++ _)
    rw [List.map_append, List.mem_append, not_or]
    rcases List.mem_append.1 hc with hc | hc
    · obtain ⟨hdone, hout⟩ := h.done c hc
      have hgone : c.1 ∉ (e'.running ++ e'.waiting).map (·.id) := fun hin => hout (hf.known _ hin)
      rw [List.map_append, List.mem_append, not_or, ← ht.same] at hgone
      exact ⟨hdone.other (ht.others _ (ht.same ▸ hgone.1)), fun hin => hgone.1 (hless.subset hin), hgone.2⟩
    · obtain ⟨s, hs, rfl⟩ := List.mem_map.1 hc
      obtain ⟨hmem, hfinished⟩ := List.mem_filter.1 hs
      refine ⟨(ht.follows s hmem).done (of_decide_eq_true hfinished), fun hin => ?_, fun hin => ?_⟩
      · obtain ⟨u, hu, hid⟩ := List.mem_map.1 hin
        obtain ⟨humem, hlive⟩ := hrest u hu
        obtain rfl : u = s := eq_of_id hrunning humem hmem hid
        exact hlive (of_decide_eq_true hfinished)
      · exact hdisjoint s.id (List.mem_map_of_mem hmem) s.id hin rfl

/-- A step. -/
theorem Inv.step {parts : Parts ρ Λ σ γ ω} {e : Engine ρ σ γ} {log : Log σ γ} (h : Inv parts e log) {turn : Turn ω}
    (hturn : turn.Admissible e) :
    ∃ e' out, e.step parts turn = some (e', out) ∧
      Inv parts e' ⟨log.requests, log.newTokens ++ out.newTokens, log.completed ++ out.completed⟩ := by
  have hp := h.preempts turn.preempted
  obtain ⟨e', infos, rowsP, rowsD, hforward, hf⟩ := h.forward hturn
  generalize turn.preempted.foldl Engine.preempt e = p at hp hf
  have hworkP := hf.work
  have hworkD : (turn.decodes.zip rowsD).map Prod.fst = turn.decodes := List.map_fst_zip hf.decoded.le
  obtain ⟨t, ht, hsampled, hkept⟩ := samplePrefillOutputs_sampling turn.draw (infos.zip rowsP)
    turn.decodes (hworkP ▸ hf.sampling) (hworkP ▸ hf.once)
    (fun w hw => hf.runs _ (List.mem_append_left _ (hworkP ▸ List.mem_map_of_mem hw))) hf.prefill
  obtain ⟨honceP, honceD, hdisjoint⟩ := List.nodup_append.1 hf.once
  obtain ⟨t', ht', hdone⟩ := sampleDecodeOutputs_sampling turn.draw (turn.decodes.zip rowsD)
    (by rw [hworkD]; exact hsampled) (by rw [hworkD]; exact honceD)
    (fun w hw => hf.runs _ (List.mem_append_right _ (hworkD ▸ List.mem_map_of_mem hw))) fun w hw s hs hid => by
      apply hf.decode w hw s (hkept s hs _) hid
      intro hin
      exact hdisjoint s.id (hworkP ▸ hin) w.1 (hworkD ▸ List.mem_map_of_mem hw) hid
  refine ⟨_, ⟨t'.newTokens, (retireFinished t'.running).1⟩, ?_, hp.retired hf hdone⟩
  unfold Engine.step
  rw [hforward, Option.bind_some]
  dsimp only
  rw [hf.zip, ht, Option.bind_some, List.drop_left' hf.planned.symm, ht', Option.map_some]

/-- A step that fails leaves entries that hold. -/
theorem Inv.failedStep {parts : Parts ρ Λ σ γ ω} {e e' : Engine ρ σ γ} {log : Log σ γ} (h : Inv parts e log)
    {turn : Turn ω} (hturn : turn.Admissible e) (sampled : Nat) (hs : e.failedStep parts turn sampled = some e') :
    Inv parts e' log := by
  have hp := h.preempts turn.preempted
  obtain ⟨f, infos, rowsP, rowsD, hforward, hf⟩ := h.forward hturn
  generalize turn.preempted.foldl Engine.preempt e = p at hp hf
  have hsplit : ((infos.zip rowsP).take sampled).map (·.1.seqId) ++
      (((infos.zip rowsP).drop sampled).map (·.1.seqId) ++ turn.decodes) = infos.map (·.seqId) ++ turn.decodes := by
    rw [← List.append_assoc, ← List.map_append, List.take_append_drop, hf.work]
  obtain ⟨t, ht, hsampled, -⟩ := samplePrefillOutputs_sampling turn.draw ((infos.zip rowsP).take sampled) _
    (hsplit ▸ hf.sampling) (hsplit ▸ hf.once)
    (fun w hw => hf.runs _ (List.mem_append_left _ (hf.work ▸ List.mem_map_of_mem (List.mem_of_mem_take hw))))
    fun w hw => hf.prefill w (List.mem_of_mem_take hw)
  unfold Engine.failedStep at hs
  rw [hforward, Option.bind_some] at hs
  dsimp only at hs
  rw [hf.zip, ht, Option.map_some] at hs
  obtain rfl := Option.some.inj hs
  have hnodup := hf.nodup
  rw [List.map_append, List.nodup_append] at hnodup
  refine ⟨hp.size.trans hf.nextId.symm, hnodup.2.1, fun s hs => (hf.waiting s hs).1, fun s hs => (hf.waiting s hs).2.1,
    fun s hs => absurd hs List.not_mem_nil, fun s hs => (hf.waiting s hs).2.2, hsampled.entries, hp.told, hp.fresh, ?_⟩
  intro c hc
  obtain ⟨hdone, hout⟩ := hp.done c hc
  refine ⟨hdone, fun hin => hout (hf.known _ ?_)⟩
  rw [List.map_append]
  exact List.mem_append_right _ hin

/-- A request more. -/
theorem Inv.addRequest {parts : Parts ρ Λ σ γ ω} {e : Engine ρ σ γ} {log : Log σ γ} (h : Inv parts e log)
    {req : Request σ γ} (hprompt : req.prompt ≠ []) :
    Inv parts (e.addRequest req) { log with requests := log.requests ++ [req] } := by
  have hget : (log.requests ++ [req])[e.nextId]? = some req := by
    rw [← h.size]
    exact List.getElem?_concat_length
  have hold : ∀ {id : SequenceId} {r : Request σ γ}, log.requests[id]? = some r →
      (log.requests ++ [req])[id]? = some r := fun hr => by
    rw [List.getElem?_append_left (List.getElem?_eq_some_iff.1 hr).1]
    exact hr
  have hsent : sentTo log.newTokens e.nextId = [] := h.fresh _ h.size.le
  have hkeep : ∀ {s : Sequence ρ σ γ}, Follows parts log.requests log.newTokens s →
      Follows parts (log.requests ++ [req]) log.newTokens s := by
    rintro s hs
    obtain ⟨r, draws, hr, hrest⟩ := hs.loop
    exact ⟨⟨r, draws, hold hr, hrest⟩, hs.counts, hs.finished, hs.nonempty⟩
  have hids : ((e.addRequest req).running ++ (e.addRequest req).waiting).map (·.id) =
      (e.running ++ e.waiting).map (·.id) ++ [e.nextId] := by
    show (e.running ++ (e.waiting ++ [_])).map _ = _
    rw [← List.append_assoc, List.map_append]
    rfl
  have hcases : ∀ s ∈ (e.addRequest req).running ++ (e.addRequest req).waiting,
      s ∈ e.running ++ e.waiting ∨ s = .new e.nextId req := by
    intro s hs
    have hs : s ∈ e.running ++ (e.waiting ++ [.new e.nextId req]) := hs
    rw [← List.append_assoc] at hs
    exact (List.mem_append.1 hs).imp_right List.mem_singleton.1
  refine ⟨?_, ?_, ?_, ?_, h.settled, ?_, h.entries, ?_, ?_, ?_⟩
  · show (log.requests ++ [req]).length = e.nextId + 1
    rw [List.length_append, h.size]
    rfl
  · rw [hids, List.nodup_append]
    refine ⟨h.nodup, List.nodup_singleton _, ?_⟩
    rintro a ha b hb rfl
    obtain ⟨s, hs, rfl⟩ := List.mem_map.1 ha
    exact absurd ((h.follows s hs).known) (by rw [List.mem_singleton.1 hb, h.size]; exact lt_irrefl _)
  · intro s hs
    rcases hcases s hs with hs | rfl
    · exact hkeep (h.follows s hs)
    · exact .new parts hget hsent hprompt
  · intro s hs
    rcases hcases s hs with hs | rfl
    · exact h.live s hs
    · rintro ⟨⟩
  · intro s hs
    rcases List.mem_append.1 hs with hs | hs
    · exact h.empty s hs
    · rw [List.mem_singleton.1 hs]
      rfl
  · intro id r hr
    rcases Nat.lt_or_ge id log.requests.length with hlt | hge
    · rw [List.getElem?_append_left hlt] at hr
      exact h.told id r hr
    · exact ⟨[], (h.fresh id hge).symm⟩
  · intro id hid
    rw [List.length_append] at hid
    exact h.fresh id (by omega)
  · intro c hc
    obtain ⟨⟨r, draws, hr, hrest⟩, hout⟩ := h.done c hc
    refine ⟨⟨r, draws, hold hr, hrest⟩, ?_⟩
    rw [hids, List.mem_append, not_or]
    refine ⟨hout, fun hin => ?_⟩
    have := (List.getElem?_eq_some_iff.1 hr).1
    rw [List.mem_singleton.1 hin, h.size] at this
    exact lt_irrefl _ this

theorem EngineStep.inv {parts : Parts ρ Λ σ γ ω} {s s' : Engine ρ σ γ × Log σ γ} (h : Inv parts s.1 s.2)
    (hs : EngineStep parts s s') : Inv parts s'.1 s'.2 := by
  rcases hs with ⟨e, log, req, hprompt⟩ | ⟨turn, log, hturn, hstep⟩ | ⟨turn, sampled, log, hturn, hstep⟩ | ⟨e, log⟩ |
    ⟨e, log, id⟩ | ⟨e, log⟩ | ⟨e, log, i⟩
  · exact h.addRequest hprompt
  · obtain ⟨e', out, heq, hinv⟩ := h.step hturn
    obtain ⟨rfl, rfl⟩ := Prod.mk.inj (Option.some.inj (heq.symm.trans hstep))
    exact hinv
  · exact h.failedStep hturn sampled hstep
  · have hnodup := h.nodup
    rw [List.map_append, List.nodup_append] at hnodup
    exact h.fewer rfl hnodup.2.1 (fun _ hs => absurd hs List.not_mem_nil) (fun _ => .inl) rfl fun _ => id
  · refine h.fewer rfl ?_ (fun _ => List.mem_of_mem_filter) (fun _ hs => .inl (List.mem_of_mem_filter hs)) rfl
      fun _ hentry => hentry
    exact h.nodup.sublist ((List.filter_sublist.append List.filter_sublist).map _)
  · exact h.fewer rfl List.nodup_nil (fun _ hs => absurd hs List.not_mem_nil) (fun _ hs => absurd hs List.not_mem_nil) rfl
      fun _ => id
  · exact h.fewer rfl h.nodup (fun _ => id) (fun _ => .inl) rfl fun _ => List.mem_of_mem_eraseIdx

theorem EngineReach.inv {parts : Parts ρ Λ σ γ ω} {blockSize : Nat} {s : Engine ρ σ γ × Log σ γ}
    (h : EngineReach parts blockSize s) : Inv parts s.1 s.2 := by
  induction h with
  | start =>
      exact ⟨rfl, List.nodup_nil, fun _ hs => absurd hs List.not_mem_nil, fun _ hs => absurd hs List.not_mem_nil,
        fun _ hs => absurd hs List.not_mem_nil, fun _ hs => absurd hs List.not_mem_nil,
        fun _ hs => absurd hs List.not_mem_nil, fun _ _ hreq => absurd hreq (by simp), fun _ _ => rfl,
        fun _ hc => absurd hc List.not_mem_nil⟩
  | move _ hs ih => exact hs.inv ih

/-! ## Two requests with a prefix in common -/

instance (turn : Turn ω) (e : Engine ρ σ γ) : Decidable (turn.Admissible e) :=
  inferInstanceAs (Decidable (_ ∧ _))

/-- The steps of some turns. -/
def stepAll (parts : Parts ρ Λ σ γ ω) :
    List (Turn ω) → Engine ρ σ γ × Log σ γ → Option (Engine ρ σ γ × Log σ γ)
  | [], s => some s
  | turn :: turns, s =>
      if turn.Admissible s.1 then
        (s.1.step parts turn).bind fun r =>
          stepAll parts turns
            (r.1, ⟨s.2.requests, s.2.newTokens ++ r.2.newTokens, s.2.completed ++ r.2.completed⟩)
      else none

theorem stepAll_reach {parts : Parts ρ Λ σ γ ω} {blockSize : Nat} (turns : List (Turn ω))
    {s s' : Engine ρ σ γ × Log σ γ} (h : EngineReach parts blockSize s) (hs : stepAll parts turns s = some s') :
    EngineReach parts blockSize s' := by
  induction turns generalizing s with
  | nil =>
      obtain rfl := Option.some.inj hs
      exact h
  | cons turn turns ih =>
      unfold stepAll at hs
      split at hs
      next hturn =>
        obtain ⟨r, hr, hs⟩ := Option.bind_eq_some_iff.1 hs
        exact ih (.move h (.step turn s.2 hturn hr)) hs
      next => cases hs

def pairParts : Parts Nat Nat Unit Unit Unit :=
  ⟨sumModel, fun _ logits _ all counts _ => (logits + counts 1 + all.length) % 5, fun c _ => c, ⟨[4], []⟩⟩

def firstRequest : Request Unit Unit := ⟨[1, 2, 3], (), 3, none⟩

def secondRequest : Request Unit Unit := ⟨[1, 2, 0], (), 2, none⟩

def pairStart : Engine Nat Unit Unit × Log Unit Unit :=
  (((⟨[], [], 0, [], 2⟩ : Engine Nat Unit Unit).addRequest firstRequest).addRequest secondRequest,
    ⟨[firstRequest, secondRequest], [], []⟩)

theorem pairStart_reach : EngineReach pairParts 2 pairStart :=
  .move (.move .start (.addRequest _ _ firstRequest (List.cons_ne_nil _ _)))
    (.addRequest _ _ secondRequest (List.cons_ne_nil _ _))

/-- The first is prefilled; the second starts from its block while the first decodes; the first is preempted
and prefilled again. -/
def pairTurns : List (Turn Unit) :=
  [⟨[], 1, [], fun _ => 2, fun _ => ()⟩, ⟨[], 1, [0], fun _ => 1, fun _ => ()⟩,
    ⟨[0], 1, [], fun i => i, fun _ => ()⟩]

theorem pair_steps : ∃ e log, stepAll pairParts pairTurns pairStart = some (e, log) ∧
    log.requests = [firstRequest, secondRequest] ∧ log.newTokens = [(0, 2), (0, 2), (0, 3)] ∧
      log.completed = [(1, some .stop), (0, some .length)] := by
  have hsome : (stepAll pairParts pairTurns pairStart).isSome := by decide
  refine ⟨_, _, (Option.some_get hsome).symm, ?_, by decide, by decide⟩
  rfl

/-! ## The tokens of a request -/

/-- Where the draws do not matter, a loop that has ended has sent what any other of its request sends. -/
theorem Solo.run_ended {parts : Parts ρ Λ σ γ ω} (hdraw : ∀ w w', parts.sample w = parts.sample w')
    (req : Request σ γ) {draws : List ω} (draws' : List ω) (hended : (Solo.run parts req draws).finishReason.isSome) :
    (Solo.run parts req draws').sent <+: (Solo.run parts req draws).sent ∧
      ((Solo.run parts req draws').finishReason.isSome → Solo.run parts req draws' = Solo.run parts req draws) := by
  rcases Nat.le_total draws.length draws'.length with hle | hle
  · obtain ⟨more, hmore⟩ := Solo.run_longer hdraw req hle
    rw [Solo.foldl_finished parts req hended] at hmore
    rw [hmore]
    exact ⟨List.prefix_refl _, fun _ => rfl⟩
  · obtain ⟨more, hmore⟩ := Solo.run_longer hdraw req hle
    refine ⟨?_, fun hended' => ?_⟩
    · rw [hmore]
      exact Solo.foldl_sent parts req _ more
    · rw [Solo.foldl_finished parts req hended'] at hmore
      exact hmore.symm

def aloneStart : Engine Nat Unit Unit × Log Unit Unit :=
  ((⟨[], [], 0, [], 1⟩ : Engine Nat Unit Unit).addRequest firstRequest, ⟨[firstRequest], [], []⟩)

/-- The first request on an engine of its own, up to its second token. -/
def aloneTurns : List (Turn Unit) := [⟨[], 1, [], fun _ => 9, fun _ => ()⟩, ⟨[], 0, [0], fun _ => 9, fun _ => ()⟩]

theorem alone_steps : ∃ e log, stepAll pairParts aloneTurns aloneStart = some (e, log) ∧
    log.requests = [firstRequest] ∧ log.newTokens = [(0, 2), (0, 2)] := by
  have hsome : (stepAll pairParts aloneTurns aloneStart).isSome := by decide
  refine ⟨_, _, (Option.some_get hsome).symm, ?_, by decide⟩
  rfl

end Oxydllm.Kv.Batched
