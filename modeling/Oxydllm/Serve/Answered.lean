/-
# Oxydllm.Serve.Answered — every request the loop takes is answered once.

`LoopInv s leaving`: the trackers are those of the live sequences, save for sequences just retired
(`leaving`), a request is in the channel, tracked, answered or its client is gone, and never two of these.
Every step of the loop keeps it with nothing leaving. What the loop does not take is what the channel
still holds when it ends.
-/
import Mathlib.Data.List.Dedup
import Oxydllm.Serve.EngineLoop

namespace Oxydllm.Serve

open Kv

variable {ρ : Type}

/-! ## What a client receives -/

def Texts (es : List EngineEvent) : Prop := ∀ e ∈ es, e.isText = true

/-- Text, one `Finish` or `Error`, one `StreamEnd`, and nothing more. -/
def Answered (es : List EngineEvent) : Prop :=
  ∃ texts last, Texts texts ∧ EngineEvent.isTerminal last = true ∧ es = texts ++ [last, .streamEnd]

theorem not_answered_nil : ¬ Answered [] := by
  rintro ⟨texts, last, -, -, hnil⟩
  have := congrArg List.length hnil
  simp at this

namespace Channels

theorem closed_send (ch : Channels) (tx : RequestId) (e : EngineEvent) :
    (ch.send tx e).closed = ch.closed := by
  unfold send
  split <;> rfl

theorem events_send_self {ch : Channels} {tx : RequestId} (h : tx ∉ ch.closed) (e : EngineEvent) :
    (ch.send tx e).events tx = ch.events tx ++ [e] := by
  unfold send events
  rw [if_neg h]
  simp

theorem events_send_ne (ch : Channels) {tx tx' : RequestId} (h : tx ≠ tx') (e : EngineEvent) :
    (ch.send tx e).events tx' = ch.events tx' := by
  unfold send events
  split
  · rfl
  · simp [h]

/-- What was sent concerns one client only, and left its stream as `P` says unless it has gone. -/
structure SentTo (ch ch' : Channels) (tx : RequestId) (P : List EngineEvent → Prop) : Prop where
  closed : ch'.closed = ch.closed
  other : ∀ tx', tx ≠ tx' → ch'.events tx' = ch.events tx'
  self : tx ∉ ch.closed → Texts (ch.events tx) → P (ch'.events tx)

theorem sendTexts_sent (ch : Channels) (tx : RequestId) (texts : List Text) :
    SentTo ch (ch.sendTexts tx texts) tx Texts := by
  unfold sendTexts
  induction texts generalizing ch with
  | nil => exact ⟨rfl, fun _ _ => rfl, fun _ h => h⟩
  | cons e texts ih =>
      obtain ⟨h1, h2, h3⟩ := ih (ch.send tx e.1)
      rw [closed_send] at h1 h3
      refine ⟨h1, fun tx' hne => (h2 tx' hne).trans (events_send_ne ch hne _), fun hopen htext => ?_⟩
      apply h3 hopen
      rw [events_send_self hopen]
      intro x hx
      rcases List.mem_append.1 hx with hx | hx
      · exact htext x hx
      · rw [List.mem_singleton.1 hx]
        exact e.2

/-- A terminal event and the end of the stream. -/
theorem sendEnd_sent (ch : Channels) (tx : RequestId) {last : EngineEvent}
    (hlast : last.isTerminal = true) :
    SentTo ch ((ch.send tx last).send tx .streamEnd) tx Answered := by
  refine ⟨by rw [closed_send, closed_send], fun tx' hne => ?_, fun hopen htext => ?_⟩
  · rw [events_send_ne _ hne, events_send_ne _ hne]
  · refine ⟨_, last, htext, hlast, ?_⟩
    rw [events_send_self (by rwa [closed_send]), events_send_self hopen, List.append_assoc]
    rfl

theorem SentTo.trans {ch ch' ch'' : Channels} {tx : RequestId} {P : List EngineEvent → Prop}
    (h : SentTo ch ch' tx Texts) (h' : SentTo ch' ch'' tx P) : SentTo ch ch'' tx P :=
  ⟨h'.closed.trans h.closed, fun tx' hne => (h'.other tx' hne).trans (h.other tx' hne),
    fun hopen htext => h'.self (by rwa [h.closed]) (h.self hopen htext)⟩

end Channels

open Channels

theorem failTracker_sent (ch : Channels) (t : SeqTracker) (message : String) :
    SentTo ch (failTracker ch t message) t.tx Answered :=
  sendEnd_sent ch t.tx rfl

theorem finishTracker_sent (ch : Channels) (t : SeqTracker) (texts : List Text) (reason : String) :
    SentTo ch (finishTracker (ch.sendTexts t.tx texts) t reason) t.tx Answered :=
  (sendTexts_sent ch t.tx texts).trans (sendEnd_sent _ t.tx rfl)

/-! ## The invariant -/

namespace LoopState

def keys (s : LoopState ρ) : List SequenceId := s.trackers.map (·.1)

/-- The requests in the channel and those tracked. -/
def outstanding (s : LoopState ρ) : List RequestId := s.requestRx.map (·.tx) ++ s.trackers.map (·.2.tx)

end LoopState

structure LoopInv (s : LoopState ρ) (leaving : List SequenceId) : Prop where
  keys_nodup : s.keys.Nodup
  ids_nodup : s.engine.sched.liveIds.Nodup
  keys_lt : ∀ id ∈ s.keys, id < s.engine.sched.nextId
  live_keys : ∀ id ∈ s.engine.sched.liveIds, id ∈ s.keys
  keys_live : ∀ id ∈ s.keys, id ∈ s.engine.sched.liveIds ∨ id ∈ leaving
  leaving_dead : ∀ id ∈ leaving, id ∉ s.engine.sched.liveIds
  open_nodup : s.outstanding.Nodup
  open_sent : ∀ tx ∈ s.outstanding, tx ∈ s.sent
  unheard : ∀ tx, tx ∉ s.sent ∨ tx ∈ s.requestRx.map (·.tx) → s.ch.events tx = []
  text : ∀ p ∈ s.trackers, p.2.tx ∉ s.ch.closed → Texts (s.ch.events p.2.tx)
  answered : ∀ tx ∈ s.sent, tx ∉ s.ch.closed → tx ∉ s.outstanding → Answered (s.ch.events tx)

section

variable {s : LoopState ρ} {leaving : List SequenceId}

theorem mem_outstanding {s : LoopState ρ} {p : SequenceId × SeqTracker} (h : p ∈ s.trackers) :
    p.2.tx ∈ s.outstanding :=
  List.mem_append_right _ (List.mem_map.2 ⟨p, h, rfl⟩)

/-- Trackers are told apart by their clients. -/
theorem LoopInv.tracker_eq (h : LoopInv s leaving) {p q : SequenceId × SeqTracker} (hp : p ∈ s.trackers)
    (hq : q ∈ s.trackers) (htx : p.2.tx = q.2.tx) : p = q :=
  List.inj_on_of_nodup_map (List.nodup_append.1 h.open_nodup).2.1 hp hq htx

theorem LoopInv.tracked_not_queued (h : LoopInv s leaving) {p : SequenceId × SeqTracker}
    (hp : p ∈ s.trackers) : p.2.tx ∉ s.requestRx.map (·.tx) := fun hc =>
  (List.nodup_append.1 h.open_nodup).2.2 _ hc _ (List.mem_map.2 ⟨p, hp, rfl⟩) rfl

theorem lookup_mem {trackers : List (SequenceId × SeqTracker)} {id : SequenceId} {t : SeqTracker}
    (h : trackers.lookup id = some t) : (id, t) ∈ trackers := by
  obtain ⟨front, back, rfl, -⟩ := List.lookup_eq_some_iff.1 h
  exact List.mem_append_right _ List.mem_cons_self

theorem lookup_none {trackers : List (SequenceId × SeqTracker)} {id : SequenceId}
    (h : trackers.lookup id = none) : id ∉ trackers.map (·.1) := by
  intro hc
  obtain ⟨p, hp, hid⟩ := List.mem_map.1 hc
  have := List.lookup_eq_none_iff.1 h p hp
  rw [hid] at this
  simp at this

theorem mem_removeTracker {trackers : List (SequenceId × SeqTracker)} {id : SequenceId}
    {p : SequenceId × SeqTracker} : p ∈ removeTracker trackers id ↔ p ∈ trackers ∧ p.1 ≠ id := by
  unfold removeTracker
  rw [List.mem_filter, decide_eq_true_iff]

/-- A tracker is removed, with its sequence if that is live, and its client answered or gone. -/
theorem LoopInv.drop (h : LoopInv s leaving) {id : SequenceId} {e : EngineState ρ} {ch : Channels}
    {leaving' : List SequenceId} (hlive : e.sched.liveIds.Perm (s.engine.sched.liveIds.erase id))
    (hnext : e.sched.nextId = s.engine.sched.nextId) (hclosed : ch.closed = s.ch.closed)
    (hother : ∀ tx, (∀ t, (id, t) ∈ s.trackers → t.tx ≠ tx) → ch.events tx = s.ch.events tx)
    (hans : ∀ t, (id, t) ∈ s.trackers → t.tx ∉ s.ch.closed → Answered (ch.events t.tx))
    (hleave : ∀ x ∈ leaving, x = id ∨ x ∈ leaving') (hsub : ∀ x ∈ leaving', x ∈ leaving) :
    LoopInv { s with trackers := removeTracker s.trackers id, engine := e, ch } leaving' := by
  have hkeys : ∀ x, x ∈ (removeTracker s.trackers id).map (·.1) ↔ x ∈ s.keys ∧ x ≠ id := by
    intro x
    constructor
    · intro hx
      obtain ⟨p, hp, rfl⟩ := List.mem_map.1 hx
      exact ⟨List.mem_map.2 ⟨p, (mem_removeTracker.1 hp).1, rfl⟩, (mem_removeTracker.1 hp).2⟩
    · rintro ⟨hx, hne⟩
      obtain ⟨p, hp, rfl⟩ := List.mem_map.1 hx
      exact List.mem_map.2 ⟨p, mem_removeTracker.2 ⟨hp, hne⟩, rfl⟩
  have hsublist : (removeTracker s.trackers id).Sublist s.trackers := List.filter_sublist
  have hids := h.ids_nodup
  have hlive_iff : ∀ x, x ∈ e.sched.liveIds ↔ x ≠ id ∧ x ∈ s.engine.sched.liveIds := fun x => by
    rw [hlive.mem_iff, hids.mem_erase_iff]
  have hopen : (s.requestRx.map (·.tx) ++ (removeTracker s.trackers id).map (·.2.tx)).Sublist s.outstanding :=
    List.Sublist.append_left (hsublist.map _) _
  refine ⟨(hsublist.map _).nodup h.keys_nodup, hlive.nodup_iff.2 (hids.erase _), ?_, ?_, ?_, ?_,
    hopen.nodup h.open_nodup, fun tx htx => h.open_sent tx (hopen.subset htx), ?_, ?_, ?_⟩
  · intro x hx
    show x < e.sched.nextId
    rw [hnext]
    exact h.keys_lt x ((hkeys x).1 hx).1
  · intro x hx
    obtain ⟨hne, hx⟩ := (hlive_iff x).1 hx
    exact (hkeys x).2 ⟨h.live_keys x hx, hne⟩
  · intro x hx
    obtain ⟨hx, hne⟩ := (hkeys x).1 hx
    rcases h.keys_live x hx with hx | hx
    · exact .inl ((hlive_iff x).2 ⟨hne, hx⟩)
    · exact .inr ((hleave x hx).resolve_left hne)
  · exact fun x hx hc => h.leaving_dead x (hsub x hx) ((hlive_iff x).1 hc).2
  · intro tx htx
    show ch.events tx = []
    rw [hother tx ?_]
    · exact h.unheard tx htx
    · rintro t ht rfl
      rcases htx with htx | htx
      · exact htx (h.open_sent _ (mem_outstanding ht))
      · exact h.tracked_not_queued ht htx
  · intro p hp hopen
    obtain ⟨hp, hne⟩ := mem_removeTracker.1 hp
    show Texts (ch.events p.2.tx)
    rw [hother p.2.tx ?_]
    · exact h.text p hp (by rw [← hclosed]; exact hopen)
    · intro t ht htx
      exact hne (congrArg Prod.fst (h.tracker_eq ht hp htx)).symm
  · intro tx hsent hopen hout
    have hopen' : tx ∉ s.ch.closed := by rw [← hclosed]; exact hopen
    clear hopen
    show Answered (ch.events tx)
    by_cases hwas : tx ∈ s.outstanding
    · -- it was this tracker's
      rcases List.mem_append.1 hwas with hq | htr
      · exact absurd (List.mem_append_left _ hq) hout
      · obtain ⟨p, hp, rfl⟩ := List.mem_map.1 htr
        have hid : p.1 = id := by
          by_contra hne
          exact hout (List.mem_append_right _ (List.mem_map.2 ⟨p, mem_removeTracker.2 ⟨hp, hne⟩, rfl⟩))
        obtain ⟨k, t⟩ := p
        subst hid
        exact hans t hp hopen'
    · rw [hother tx ?_]
      · exact h.answered tx hsent hopen' hwas
      · rintro t ht rfl
        exact hwas (mem_outstanding ht)

/-- `drop` for a tracker found, its client answered. -/
theorem LoopInv.dropTracker (h : LoopInv s leaving) {id : SequenceId} {t : SeqTracker}
    (ht : s.trackers.lookup id = some t) {e : EngineState ρ} {ch : Channels}
    {leaving' : List SequenceId} (hlive : e.sched.liveIds.Perm (s.engine.sched.liveIds.erase id))
    (hnext : e.sched.nextId = s.engine.sched.nextId) (hsent : SentTo s.ch ch t.tx Answered)
    (hleave : ∀ x ∈ leaving, x = id ∨ x ∈ leaving') (hsub : ∀ x ∈ leaving', x ∈ leaving) :
    LoopInv { s with trackers := removeTracker s.trackers id, engine := e, ch } leaving' := by
  have hmem := lookup_mem ht
  -- one tracker for each id
  have huniq : ∀ t', (id, t') ∈ s.trackers → t' = t := by
    intro t' ht'
    have := List.inj_on_of_nodup_map h.keys_nodup ht' hmem rfl
    exact congrArg Prod.snd this
  refine h.drop hlive hnext hsent.closed (fun tx htx => hsent.other tx (htx t hmem)) ?_ hleave hsub
  intro t' ht' hopen
  rw [huniq t' ht'] at hopen ⊢
  exact hsent.self hopen (h.text _ hmem hopen)

theorem abortOne_inv (h : LoopInv s leaving) {id : SequenceId}
    (hgone : ∀ t, (id, t) ∈ s.trackers → t.tx ∈ s.ch.closed) : LoopInv (abortOne s id) leaving :=
  h.drop (s.engine.sched.abortSequence_liveIds id) (s.engine.sched.abortSequence_frame id).nextId rfl
    (fun _ _ => rfl) (fun t ht hopen => absurd (hgone t ht) hopen) (fun _ hx => .inr hx) fun _ hx => hx

theorem abortSequences_inv (h : LoopInv s leaving) {ids : List SequenceId}
    (hgone : ∀ id ∈ ids, ∀ t, (id, t) ∈ s.trackers → t.tx ∈ s.ch.closed) :
    LoopInv (abortSequences s ids) leaving := by
  have hfold : ∀ (ids : List SequenceId) {s : LoopState ρ}, LoopInv s leaving →
      (∀ id ∈ ids, ∀ t, (id, t) ∈ s.trackers → t.tx ∈ s.ch.closed) →
        LoopInv (ids.foldl abortOne s) leaving := by
    intro ids
    induction ids with
    | nil => exact fun h _ => h
    | cons id ids ih =>
        intro s h hgone
        refine ih (abortOne_inv h (hgone id List.mem_cons_self)) fun x hx t ht => ?_
        exact hgone x (List.mem_cons_of_mem _ hx) t (mem_removeTracker.1 ht).1
  exact hfold _ h fun id hid =>
    hgone id ((List.mergeSort_perm ids _).mem_iff.1 (List.mem_dedup.1 hid))

theorem finishStopped_inv (h : LoopInv s leaving) (tail : SequenceId → List Text)
    (ids : List SequenceId) : LoopInv (finishStopped tail s ids) leaving := by
  unfold finishStopped
  induction ids generalizing s with
  | nil => exact h
  | cons id ids ih =>
      rw [List.foldl_cons]
      apply ih
      split
      next t ht =>
        exact h.dropTracker ht (s.engine.sched.abortSequence_liveIds id)
          (s.engine.sched.abortSequence_frame id).nextId (finishTracker_sent s.ch t (tail id) "stop")
          (fun _ hx => .inr hx) fun _ hx => hx
      · exact h

/-- All that leaves is answered. -/
theorem answerAll_inv {answer : SequenceId → Channels → SeqTracker → Channels}
    (hanswer : ∀ id ch t, SentTo ch (answer id ch t) t.tx Answered) (h : LoopInv s leaving) :
    LoopInv (answerAll answer s leaving) [] := by
  unfold answerAll
  induction leaving generalizing s with
  | nil => exact h
  | cons id leaving ih =>
      have hdead := h.leaving_dead id List.mem_cons_self
      rw [List.foldl_cons]
      apply ih
      split
      next t ht =>
        exact h.dropTracker ht (List.Perm.of_eq (List.erase_of_not_mem hdead).symm) rfl
          (hanswer id s.ch t) (fun x hx => List.mem_cons.1 hx) fun x hx => List.mem_cons_of_mem _ hx
      next ht =>
        have hnot := lookup_none ht
        exact { h with
          keys_live := fun x hx => (h.keys_live x hx).imp_right fun hx' =>
            (List.mem_cons.1 hx').resolve_left fun hc => hnot (by rw [← hc]; exact hx)
          leaving_dead := fun x hx => h.leaving_dead x (List.mem_cons_of_mem _ hx) }

/-- Texts sent to one tracked client; the trackers keep their ids and clients. -/
theorem LoopInv.texts (h : LoopInv s leaving) {id : SequenceId} {t : SeqTracker}
    (ht : (id, t) ∈ s.trackers) {trackers : List (SequenceId × SeqTracker)} {ch : Channels}
    (hsame : trackers.map (fun p => (p.1, p.2.tx)) = s.trackers.map fun p => (p.1, p.2.tx))
    (hsent : SentTo s.ch ch t.tx Texts) : LoopInv { s with trackers, ch } leaving := by
  have hkeys : LoopState.keys { s with trackers, ch } = s.keys := by
    have := congrArg (List.map Prod.fst) hsame
    rwa [List.map_map, List.map_map] at this
  have hout : LoopState.outstanding { s with trackers, ch } = s.outstanding := by
    have := congrArg (List.map Prod.snd) hsame
    rw [List.map_map, List.map_map] at this
    exact congrArg (s.requestRx.map (·.tx) ++ ·) this
  refine ⟨?_, h.ids_nodup, ?_, ?_, ?_, h.leaving_dead, ?_, ?_, ?_, ?_, ?_⟩
  · rw [hkeys]
    exact h.keys_nodup
  · rw [hkeys]
    exact h.keys_lt
  · rw [hkeys]
    exact h.live_keys
  · rw [hkeys]
    exact h.keys_live
  · rw [hout]
    exact h.open_nodup
  · rw [hout]
    exact h.open_sent
  · intro tx htx
    show ch.events tx = []
    rw [hsent.other tx ?_]
    · exact h.unheard tx htx
    · rintro rfl
      rcases htx with htx | htx
      · exact htx (h.open_sent _ (mem_outstanding ht))
      · exact h.tracked_not_queued ht htx
  · intro p hp hopen
    have hopen : p.2.tx ∉ s.ch.closed := by rw [← hsent.closed]; exact hopen
    have hmem : (p.1, p.2.tx) ∈ s.trackers.map fun p => (p.1, p.2.tx) := by
      rw [← hsame]
      exact List.mem_map.2 ⟨p, hp, rfl⟩
    obtain ⟨q, hq, heq⟩ := List.mem_map.1 hmem
    have htx : q.2.tx = p.2.tx := congrArg Prod.snd heq
    have htext := h.text q hq (by rwa [htx])
    rw [htx] at htext
    show Texts (ch.events p.2.tx)
    by_cases hself : t.tx = p.2.tx
    · rw [← hself] at hopen htext ⊢
      exact hsent.self hopen htext
    · rw [hsent.other _ hself]
      exact htext
  · intro tx hs hopen hnot
    have hopen : tx ∉ s.ch.closed := by rw [← hsent.closed]; exact hopen
    rw [hout] at hnot
    show Answered (ch.events tx)
    rw [hsent.other tx ?_]
    · exact h.answered tx hs hopen hnot
    · rintro rfl
      exact hnot (mem_outstanding ht)

theorem routeTokens_inv (h : LoopInv s leaving) (tokens : List RoutedToken) :
    LoopInv (routeTokens s tokens).1 leaving ∧ (routeTokens s tokens).1.ch.closed = s.ch.closed ∧
      ∀ id t, (id, t) ∈ (routeTokens s tokens).1.trackers → ∃ t', (id, t') ∈ s.trackers ∧ t'.tx = t.tx := by
  have hall : LoopInv (routeTokens s tokens).1 leaving ∧
      (routeTokens s tokens).1.ch.closed = s.ch.closed ∧
        (routeTokens s tokens).1.trackers.map (fun p => (p.1, p.2.tx)) =
          s.trackers.map (fun p => (p.1, p.2.tx)) := by
    unfold routeTokens
    refine List.foldlRecOn (motive := fun r : LoopState ρ × List SequenceId =>
      LoopInv r.1 leaving ∧ r.1.ch.closed = s.ch.closed ∧
        r.1.trackers.map (fun p => (p.1, p.2.tx)) = s.trackers.map (fun p => (p.1, p.2.tx)))
      tokens _ ⟨h, rfl, rfl⟩ fun r hr tok _ => ?_
    obtain ⟨h1, h2, h3⟩ := hr
    by_cases hstop : tok.seqId ∈ r.2
    · rw [if_pos hstop]
      exact ⟨h1, h2, h3⟩
    · rw [if_neg hstop]
      cases ht : r.1.trackers.lookup tok.seqId with
      | none => exact ⟨h1, h2, h3⟩
      | some t =>
          have hsame : (r.1.trackers.map fun p : SequenceId × SeqTracker =>
              if p.1 = tok.seqId then (p.1, { p.2 with tokenCount := p.2.tokenCount + 1 }) else p).map
                (fun p => (p.1, p.2.tx)) = r.1.trackers.map fun p => (p.1, p.2.tx) := by
            rw [List.map_map]
            apply List.map_congr_left
            intro p _
            show (fun p : SequenceId × SeqTracker => (p.1, p.2.tx)) (if _ then _ else _) = _
            split <;> rfl
          have hsent := sendTexts_sent r.1.ch t.tx tok.texts
          exact ⟨h1.texts (lookup_mem ht) hsame hsent, hsent.closed.trans h2, hsame.trans h3⟩
  obtain ⟨h1, h2, h3⟩ := hall
  refine ⟨h1, h2, fun id t ht => ?_⟩
  have hmem : (id, t.tx) ∈ s.trackers.map fun p => (p.1, p.2.tx) := by
    rw [← h3]
    exact List.mem_map.2 ⟨_, ht, rfl⟩
  obtain ⟨q, hq, heq⟩ := List.mem_map.1 hmem
  have hid : q.1 = id := congrArg Prod.fst heq
  subst hid
  exact ⟨q.2, hq, congrArg Prod.snd heq⟩

/-! ## The steps -/

theorem stepOk_inv (h : LoopInv s leaving) {tokens : List RoutedToken} {gone : List SequenceId}
    (hgone : ∀ id ∈ gone, ∃ t, (id, t) ∈ s.trackers ∧ t.tx ∈ s.ch.closed)
    (tail : SequenceId → List Text) (reason : SequenceId → String) :
    LoopInv (stepOk s tokens gone tail leaving reason) [] := by
  have h₀ : LoopInv { s with consecutiveErrors := 0 } leaving := ⟨h.keys_nodup, h.ids_nodup, h.keys_lt,
    h.live_keys, h.keys_live, h.leaving_dead, h.open_nodup, h.open_sent, h.unheard, h.text, h.answered⟩
  obtain ⟨h₁, hclosed, htrack⟩ := routeTokens_inv h₀ tokens
  refine answerAll_inv (fun id ch t => finishTracker_sent ch t (tail id) (reason id))
    (finishStopped_inv (abortSequences_inv h₁ ?_) tail _)
  intro id hid t ht
  obtain ⟨t', ht', htx⟩ := htrack id t ht
  obtain ⟨t₀, ht₀, hclosed₀⟩ := hgone id hid
  have hsame : t' = t₀ := congrArg Prod.snd (List.inj_on_of_nodup_map h.keys_nodup ht' ht₀ rfl)
  rw [hclosed, ← htx, hsame]
  exact hclosed₀

/-- Sequences gone from the engine, their trackers about to go. -/
theorem LoopInv.leave (h : LoopInv s []) {e : EngineState ρ} {ids : List SequenceId}
    (hperm : s.engine.sched.liveIds.Perm (ids ++ e.sched.liveIds))
    (hnext : e.sched.nextId = s.engine.sched.nextId) : LoopInv { s with engine := e } ids := by
  have hnd := hperm.nodup_iff.1 h.ids_nodup
  obtain ⟨-, hids, hdisj⟩ := List.nodup_append.1 hnd
  refine ⟨h.keys_nodup, hids, ?_, ?_, ?_, ?_, h.open_nodup, h.open_sent, h.unheard, h.text, h.answered⟩
  · intro x hx
    show x < e.sched.nextId
    rw [hnext]
    exact h.keys_lt x hx
  · exact fun x hx => h.live_keys x (hperm.mem_iff.2 (List.mem_append_right _ hx))
  · intro x hx
    have hlive := (h.keys_live x hx).resolve_right List.not_mem_nil
    exact (List.mem_append.1 (hperm.mem_iff.1 hlive)).symm
  · exact fun x hx hc => hdisj x hx x hc rfl

theorem stepErr_inv (h : LoopInv s []) (message : String) : LoopInv (stepErr s message) [] := by
  have hanswer : ∀ (_ : SequenceId) (ch : Channels) (t : SeqTracker),
      SentTo ch (failTracker ch t message) t.tx Answered := fun _ ch t => failTracker_sent ch t message
  have hall : LoopInv { s with
      consecutiveErrors := s.consecutiveErrors + 1
      engine := ⟨s.engine.sched.abortAll.2, s.engine.prefixCache⟩ } s.engine.sched.abortAll.1 := by
    have hleave := @LoopInv.leave _ _ h ⟨s.engine.sched.abortAll.2, s.engine.prefixCache⟩
      s.engine.sched.abortAll.1 (by
        obtain ⟨hids, hnil⟩ := s.engine.sched.abortAll_liveIds
        rw [hids, hnil, List.append_nil]) rfl
    exact ⟨hleave.keys_nodup, hleave.ids_nodup, hleave.keys_lt, hleave.live_keys, hleave.keys_live,
      hleave.leaving_dead, hleave.open_nodup, hleave.open_sent, hleave.unheard, hleave.text,
      hleave.answered⟩
  have hrun : LoopInv { s with
      consecutiveErrors := s.consecutiveErrors + 1
      engine := ⟨s.engine.sched.abortAllRunning.2, s.engine.prefixCache⟩ }
        s.engine.sched.abortAllRunning.1 := by
    have hleave := @LoopInv.leave _ _ h ⟨s.engine.sched.abortAllRunning.2, s.engine.prefixCache⟩
      s.engine.sched.abortAllRunning.1
      (List.Perm.of_eq s.engine.sched.abortAllRunning_liveIds) rfl
    exact ⟨hleave.keys_nodup, hleave.ids_nodup, hleave.keys_lt, hleave.live_keys, hleave.keys_live,
      hleave.leaving_dead, hleave.open_nodup, hleave.open_sent, hleave.unheard, hleave.text,
      hleave.answered⟩
  unfold stepErr
  simp only
  split
  · exact answerAll_inv hanswer hall
  · exact answerAll_inv hanswer hrun

section Enqueue

variable {req : IncomingRequest} {rest : List IncomingRequest}

theorem LoopState.outstanding_eq (hq : s.requestRx = req :: rest) :
    s.outstanding = req.tx :: (rest.map (·.tx) ++ s.trackers.map (·.2.tx)) := by
  unfold LoopState.outstanding
  rw [hq]
  rfl

theorem LoopInv.request_unheard (h : LoopInv s []) (hq : s.requestRx = req :: rest) : s.ch.events req.tx = [] :=
  h.unheard _ (.inr (by rw [hq]; exact List.mem_cons_self))

theorem mem_request_of_rest (hq : s.requestRx = req :: rest) {tx : RequestId} (htx : tx ∈ rest.map (·.tx)) :
    tx ∈ s.requestRx.map (·.tx) := by
  rw [hq]
  exact List.mem_cons_of_mem _ htx

/-- A request that is refused has its answer. -/
theorem LoopInv.refuse (h : LoopInv s []) (hq : s.requestRx = req :: rest) (err : String) :
    LoopInv { s with requestRx := rest, ch := (s.ch.send req.tx (.error err)).send req.tx .streamEnd } [] := by
  have hnd := h.open_nodup
  have hsent := h.open_sent
  rw [LoopState.outstanding_eq hq] at hnd hsent
  obtain ⟨hreq, hnd⟩ := List.nodup_cons.1 hnd
  have hend : SentTo s.ch ((s.ch.send req.tx (.error err)).send req.tx .streamEnd) req.tx Answered :=
    sendEnd_sent s.ch req.tx rfl
  refine ⟨h.keys_nodup, h.ids_nodup, h.keys_lt, h.live_keys, h.keys_live, h.leaving_dead, hnd,
    fun tx htx => hsent tx (List.mem_cons_of_mem _ htx), ?_, ?_, ?_⟩
  · intro tx htx
    refine (hend.other tx ?_).trans (h.unheard tx (htx.imp_right (mem_request_of_rest hq)))
    rintro rfl
    rcases htx with htx | htx
    · exact htx (hsent _ List.mem_cons_self)
    · exact hreq (List.mem_append_left _ htx)
  · intro p hp hopen
    have hne : req.tx ≠ p.2.tx := fun hc =>
      hreq (List.mem_append_right _ (List.mem_map.2 ⟨p, hp, hc.symm⟩))
    have hopen : p.2.tx ∉ s.ch.closed := by rw [← hend.closed]; exact hopen
    exact (hend.other _ hne).symm ▸ h.text p hp hopen
  · intro tx htx hopen hnot
    have hopen : tx ∉ s.ch.closed := by rw [← hend.closed]; exact hopen
    by_cases heq : req.tx = tx
    · subst heq
      exact hend.self hopen (by rw [h.request_unheard hq]; exact List.forall_mem_nil _)
    · refine (hend.other _ heq).symm ▸ h.answered tx htx hopen fun hc => ?_
      rw [LoopState.outstanding_eq hq] at hc
      rcases List.mem_cons.1 hc with hc | hc
      · exact heq hc.symm
      · exact hnot hc

/-- A request that is queued is tracked under the next id. -/
theorem LoopInv.track (h : LoopInv s []) (hq : s.requestRx = req :: rest) :
    LoopInv { s with
      requestRx := rest
      engine := ⟨s.engine.sched.addRequest req.promptTokens req.maxTokens, s.engine.prefixCache⟩
      trackers := s.trackers ++ [(s.engine.sched.nextId, ⟨req.tx, 0⟩)] } [] := by
  have hkeys : ∀ t : SeqTracker, (s.trackers ++ [(s.engine.sched.nextId, t)]).map (·.1) =
      s.keys ++ [s.engine.sched.nextId] := fun t => by
    rw [List.map_append]
    rfl
  have hnew : ∀ x ∈ s.keys, x ≠ s.engine.sched.nextId := fun x hx =>
    Nat.ne_of_lt (h.keys_lt x hx)
  have hlive := s.engine.sched.addRequest_liveIds req.promptTokens req.maxTokens
  have hperm : (rest.map (·.tx) ++ (s.trackers ++
      [((s.engine.sched.nextId, ⟨req.tx, 0⟩) : SequenceId × SeqTracker)]).map (·.2.tx)).Perm
        s.outstanding := by
    rw [LoopState.outstanding_eq hq, List.map_append, ← List.append_assoc]
    exact List.perm_append_singleton _ _
  refine ⟨?_, ?_, ?_, ?_, ?_, fun x hx => absurd hx List.not_mem_nil, hperm.nodup_iff.2 h.open_nodup,
    fun tx htx => h.open_sent tx (hperm.mem_iff.1 htx), ?_, ?_, ?_⟩
  · show ((s.trackers ++ _).map (·.1)).Nodup
    rw [hkeys, List.nodup_append]
    exact ⟨h.keys_nodup, List.nodup_singleton _, fun x hx y hy =>
      List.mem_singleton.1 hy ▸ hnew x hx⟩
  · show (Scheduler.liveIds _).Nodup
    rw [hlive, List.nodup_append]
    refine ⟨h.ids_nodup, List.nodup_singleton _, fun x hx y hy => ?_⟩
    rw [List.mem_singleton.1 hy]
    exact hnew x (h.live_keys x hx)
  · intro x hx
    have hx : x ∈ s.keys ++ [s.engine.sched.nextId] := by rw [← hkeys]; exact hx
    show x < s.engine.sched.nextId + 1
    rcases List.mem_append.1 hx with hx | hx
    · exact Nat.lt_succ_of_lt (h.keys_lt x hx)
    · rw [List.mem_singleton.1 hx]
      exact Nat.lt_succ_self _
  · intro x hx
    have hx : x ∈ s.engine.sched.liveIds ++ [s.engine.sched.nextId] := by rw [← hlive]; exact hx
    show x ∈ (s.trackers ++ _).map (·.1)
    rw [hkeys]
    rcases List.mem_append.1 hx with hx | hx
    · exact List.mem_append_left _ (h.live_keys x hx)
    · exact List.mem_append_right _ hx
  · intro x hx
    have hx : x ∈ s.keys ++ [s.engine.sched.nextId] := by rw [← hkeys]; exact hx
    left
    show x ∈ Scheduler.liveIds _
    rw [hlive]
    rcases List.mem_append.1 hx with hx | hx
    · exact List.mem_append_left _ ((h.keys_live x hx).resolve_right List.not_mem_nil)
    · exact List.mem_append_right _ hx
  · exact fun tx htx => h.unheard tx (htx.imp_right (mem_request_of_rest hq))
  · intro p hp hopen
    rcases List.mem_append.1 hp with hp | hp
    · exact h.text p hp hopen
    · rw [List.mem_singleton.1 hp]
      show Texts (s.ch.events req.tx)
      rw [h.request_unheard hq]
      exact List.forall_mem_nil _
  · exact fun tx htx hopen hnot => h.answered tx htx hopen fun hc => hnot (hperm.mem_iff.2 hc)

theorem LoopInv.nextId_untracked (h : LoopInv s leaving) : removeTracker s.trackers s.engine.sched.nextId = s.trackers := by
  unfold removeTracker
  rw [List.filter_eq_self]
  intro p hp
  exact decide_eq_true (Nat.ne_of_lt (h.keys_lt p.1 (List.mem_map.2 ⟨p, hp, rfl⟩)))

/-- A request taken from the channel is answered at once or tracked. -/
theorem enqueueRequest_inv (h : LoopInv s []) (hq : s.requestRx = req :: rest) :
    LoopInv (enqueueRequest { s with requestRx := rest } req) [] := by
  unfold enqueueRequest
  simp only
  split
  · exact h.refuse hq _
  · rw [h.nextId_untracked]
    exact h.track hq

end Enqueue

/-- What the channel still holds when the loop ends is not answered, all else is. -/
structure Drained (s : LoopState ρ) : Prop where
  unheard : ∀ tx ∈ s.requestRx.map (·.tx), s.ch.events tx = []
  answered : ∀ tx ∈ s.sent, tx ∉ s.ch.closed → tx ∉ s.requestRx.map (·.tx) → Answered (s.ch.events tx)

theorem drainTrackers_drained (h : LoopInv s []) : Drained (drainTrackers s) := by
  have hfold : ∀ (ps : List (SequenceId × SeqTracker)) (ch : Channels),
      (ps.map (·.2.tx)).Nodup → (∀ p ∈ ps, p.2.tx ∉ ch.closed → Texts (ch.events p.2.tx)) →
        let ch' := ps.foldl (fun ch p => failTracker ch p.2 "Model unloaded") ch
        ch'.closed = ch.closed ∧ (∀ tx, tx ∉ ps.map (·.2.tx) → ch'.events tx = ch.events tx) ∧
          ∀ tx ∈ ps.map (·.2.tx), tx ∉ ch.closed → Answered (ch'.events tx) := by
    intro ps
    induction ps with
    | nil => exact fun ch _ _ => ⟨rfl, fun _ _ => rfl, fun tx htx => absurd htx List.not_mem_nil⟩
    | cons p ps ih =>
        intro ch hnd htext
        obtain ⟨hp, hnd⟩ := List.nodup_cons.1 hnd
        have hsent := failTracker_sent ch p.2 "Model unloaded"
        have hne : ∀ q ∈ ps, p.2.tx ≠ q.2.tx := fun q hq hc =>
          hp (List.mem_map.2 ⟨q, hq, hc.symm⟩)
        obtain ⟨h1, h2, h3⟩ := ih (failTracker ch p.2 "Model unloaded") hnd fun q hq hopen => by
          rw [hsent.other _ (hne q hq)]
          exact htext q (List.mem_cons_of_mem _ hq) (by rwa [← hsent.closed])
        refine ⟨h1.trans hsent.closed, fun tx htx => ?_, fun tx htx hopen => ?_⟩
        · obtain ⟨hhead, htail⟩ := not_or.1 (mt List.mem_cons.2 htx)
          exact (h2 tx htail).trans (hsent.other tx (Ne.symm hhead))
        · rcases List.mem_cons.1 htx with rfl | htx
          · exact (h2 _ hp).symm ▸ hsent.self hopen (htext p List.mem_cons_self hopen)
          · exact h3 tx htx (by rwa [hsent.closed])
  obtain ⟨-, htxs, hdisj⟩ := List.nodup_append.1 h.open_nodup
  obtain ⟨h1, h2, h3⟩ := hfold s.trackers s.ch htxs h.text
  constructor
  · intro tx htx
    refine (h2 tx fun hc => hdisj tx htx tx hc rfl).trans (h.unheard tx (.inr htx))
  · intro tx htx hopen hnot
    have hopen : tx ∉ s.ch.closed := by rw [← h1]; exact hopen
    by_cases htr : tx ∈ s.trackers.map (·.2.tx)
    · exact h3 tx htr hopen
    · exact (h2 tx htr).symm ▸ h.answered tx htx hopen fun hc => (List.mem_append.1 hc).elim hnot htr

/-- What holds at every point of a run. -/
structure RunInv (s : LoopState ρ) : Prop where
  running : s.point ≠ .exited → LoopInv s []
  exited : s.point = .exited → Drained s

theorem LoopInv.run (h : LoopInv s []) (hp : s.point ≠ .exited) : RunInv s :=
  ⟨fun _ => h, fun hc => absurd hc hp⟩

/-- The point of the loop does not matter to the invariant. -/
theorem LoopInv.at (h : LoopInv s []) (point : LoopPoint) (hp : point ≠ .exited) :
    RunInv { s with point } :=
  LoopInv.run ⟨h.keys_nodup, h.ids_nodup, h.keys_lt, h.live_keys, h.keys_live, h.leaving_dead,
    h.open_nodup, h.open_sent, h.unheard, h.text, h.answered⟩ hp

theorem disconnect_inv (h : LoopInv s []) (tx : RequestId) :
    LoopInv { s with ch := { s.ch with closed := tx :: s.ch.closed } } [] :=
  ⟨h.keys_nodup, h.ids_nodup, h.keys_lt, h.live_keys, h.keys_live, h.leaving_dead, h.open_nodup,
    h.open_sent, h.unheard, fun p hp hopen => h.text p hp fun hc => hopen (List.mem_cons_of_mem _ hc),
    fun x hx hopen => h.answered x hx fun hc => hopen (List.mem_cons_of_mem _ hc)⟩

theorem arrive_inv (h : LoopInv s []) {req : IncomingRequest} (hfresh : req.tx ∉ s.sent) :
    LoopInv { s with requestRx := s.requestRx ++ [req], sent := s.sent ++ [req.tx] } [] := by
  have hperm : ((s.requestRx ++ [req]).map (·.tx) ++ s.trackers.map (·.2.tx)).Perm
      (req.tx :: s.outstanding) := by
    rw [List.map_append, List.append_assoc]
    exact List.perm_middle
  have hold : ∀ tx, tx ∈ s.sent ++ [req.tx] → tx = req.tx ∨ tx ∈ s.sent := fun tx htx =>
    (List.mem_append.1 htx).symm.imp_left List.mem_singleton.1
  refine ⟨h.keys_nodup, h.ids_nodup, h.keys_lt, h.live_keys, h.keys_live, h.leaving_dead, ?_, ?_, ?_,
    h.text, ?_⟩
  · exact hperm.nodup_iff.2 (List.nodup_cons.2 ⟨fun hc => hfresh (h.open_sent _ hc), h.open_nodup⟩)
  · intro tx htx
    rcases List.mem_cons.1 (hperm.mem_iff.1 htx) with rfl | htx
    · exact List.mem_append_right _ List.mem_cons_self
    · exact List.mem_append_left _ (h.open_sent tx htx)
  · intro tx htx
    by_cases hreq : tx = req.tx
    · rw [hreq]
      exact h.unheard _ (.inl hfresh)
    · refine h.unheard tx (htx.imp (fun hn hc => hn (List.mem_append_left _ hc)) fun hq => ?_)
      rw [List.map_append] at hq
      exact (List.mem_append.1 hq).resolve_right fun hc => hreq (List.mem_singleton.1 hc)
  · intro tx htx hopen hnot
    have hnot : tx ∉ req.tx :: s.outstanding := fun hc => hnot (hperm.mem_iff.2 hc)
    obtain ⟨hne, hnot⟩ := not_or.1 (mt List.mem_cons.2 hnot)
    exact h.answered tx ((hold tx htx).resolve_left hne) hopen hnot

theorem stepsTo_liveIds [Inhabited ρ] {chainHash : List Token → UInt64 → UInt64} {e e' : EngineState ρ}
    (h : StepsTo chainHash e e') :
    e'.sched.liveIds.Perm e.sched.liveIds ∧ e'.sched.nextId = e.sched.nextId := by
  induction h with
  | refl =>
      exact ⟨Scheduler.schedule_liveIds e.sched e.prefixCache,
        (Scheduler.schedule_frame e.sched e.prefixCache).nextId⟩
  | tail _ hm ih => exact ⟨(List.Perm.of_eq hm.liveIds).trans ih.1, hm.frame.nextId.trans ih.2⟩

theorem LoopStep.inv [Inhabited ρ] {chainHash : List Token → UInt64 → UInt64} {s' : LoopState ρ}
    (h : RunInv s) (hs : LoopStep chainHash s s') : RunInv s' := by
  have hrun : ∀ {p : LoopPoint}, s.point = p → p ≠ .exited → LoopInv s [] := fun hp hne =>
    h.running (by rwa [hp])
  cases hs with
  | arrive req hopen hp hfresh => exact (arrive_inv (h.running hp) hfresh).run hp
  | disconnect tx =>
      refine ⟨fun hp => disconnect_inv (h.running hp) tx, fun hp => ?_⟩
      obtain ⟨h1, h2⟩ := h.exited hp
      exact ⟨h1, fun x hx hopen => h2 x hx fun hc => hopen (List.mem_cons_of_mem _ hc)⟩
  | shutdown =>
      refine ⟨fun hp => ?_, fun hp => ⟨(h.exited hp).unheard, (h.exited hp).answered⟩⟩
      have h := h.running hp
      exact ⟨h.keys_nodup, h.ids_nodup, h.keys_lt, h.live_keys, h.keys_live, h.leaving_dead, h.open_nodup,
        h.open_sent, h.unheard, h.text, h.answered⟩
  | dropSenders =>
      refine ⟨fun hp => ?_, fun hp => ⟨(h.exited hp).unheard, (h.exited hp).answered⟩⟩
      have h := h.running hp
      exact ⟨h.keys_nodup, h.ids_nodup, h.keys_lt, h.live_keys, h.keys_live, h.leaving_dead, h.open_nodup,
        h.open_sent, h.unheard, h.text, h.answered⟩
  | headExit hp _ =>
      exact ⟨fun hc => absurd rfl hc, fun _ => drainTrackers_drained (hrun hp (by decide))⟩
  | headGo hp _ => exact (hrun hp (by decide)).at .receive (by decide)
  | pending hp _ => exact (hrun hp (by decide)).at .drain (by decide)
  | tryRecv hp hq =>
      refine (enqueueRequest_inv (hrun hp (by decide)) hq).run ?_
      unfold enqueueRequest
      simp only
      split
      · exact fun hc => absurd (hp.symm.trans hc) (by decide)
      · exact fun hc => absurd (hp.symm.trans hc) (by decide)
  | tryRecvEmpty hp _ => exact (hrun hp (by decide)).at .sweep (by decide)
  | blockingRecv hp _ hq => exact (enqueueRequest_inv (hrun hp (by decide)) hq).at .sweep (by decide)
  | blockingRecvClosed hp _ _ _ =>
      exact ⟨fun hc => absurd rfl hc, fun _ => drainTrackers_drained (hrun hp (by decide))⟩
  | sweep hp =>
      have h := hrun hp (by decide)
      refine (abortSequences_inv h fun id hid t ht => ?_).at .step (by decide)
      obtain ⟨p, hp, rfl⟩ := List.mem_map.1 hid
      obtain ⟨hp, hclosed⟩ := List.mem_filter.1 hp
      have : p.2 = t := congrArg Prod.snd (List.inj_on_of_nodup_map h.keys_nodup hp ht rfl)
      rw [← this]
      exact of_decide_eq_true hclosed
  | stepIdle hp _ => exact (hrun hp (by decide)).at .head (by decide)
  | @stepOk hp e he tokens gone hgone tail reason =>
      have h := hrun hp (by decide)
      obtain ⟨hids, hnext⟩ := stepsTo_liveIds he
      have hretire := Scheduler.retireFinished_liveIds (hids.nodup_iff.2 h.ids_nodup)
      have hleave : LoopInv { s with engine := ⟨e.sched.retireFinished.2, e.prefixCache⟩ }
          e.sched.retireFinished.1 :=
        h.leave (hids.symm.trans hretire) ((Scheduler.retireFinished_frame _).nextId.trans hnext)
      exact (stepOk_inv hleave hgone tail reason).at .head (by decide)
  | @stepErr hp e he message =>
      obtain ⟨hids, hnext⟩ := stepsTo_liveIds he
      have hleave : LoopInv { s with engine := e } [] := (hrun hp (by decide)).leave hids.symm hnext
      exact (stepErr_inv hleave message).at .head (by decide)

end

/-! ## Every run -/

theorem LoopReach.inv [Inhabited ρ] {chainHash : List Token → UInt64 → UInt64} {config : SchedulerConfig}
    {as : List (BlockAllocator ρ)} {cache : PrefixCache} {s : LoopState ρ}
    (h : LoopReach chainHash ⟨.new config as, cache⟩ s) : RunInv s := by
  induction h with
  | refl =>
      refine LoopInv.run ?_ (by intro hc; cases hc)
      exact ⟨List.nodup_nil, List.nodup_nil, List.forall_mem_nil _, List.forall_mem_nil _,
        List.forall_mem_nil _, List.forall_mem_nil _, List.nodup_nil, List.forall_mem_nil _,
        fun _ _ => rfl, List.forall_mem_nil _, List.forall_mem_nil _⟩
  | tail _ hs ih => exact hs.inv ih

/-- At the head of every iteration the trackers are those of the live sequences. When the loop has ended
a request whose client is still there was answered, and once, if and only if the channel did not hold it
any more. -/
theorem engine_loop_answers [Inhabited ρ] (chainHash : List Token → UInt64 → UInt64)
    (config : SchedulerConfig) (as : List (BlockAllocator ρ)) (cache : PrefixCache) {s : LoopState ρ}
    (h : LoopReach chainHash ⟨.new config as, cache⟩ s) :
    (s.point = .head → s.keys.Nodup ∧ ∀ id, id ∈ s.keys ↔ id ∈ s.engine.sched.liveIds) ∧
      (s.point = .exited → ∀ tx ∈ s.sent, tx ∉ s.ch.closed →
        (Answered (s.ch.events tx) ↔ tx ∉ s.requestRx.map (·.tx))) := by
  have hinv := h.inv
  constructor
  · intro hp
    have h := hinv.running (by rw [hp]; decide)
    exact ⟨h.keys_nodup, fun id => ⟨fun hid => (h.keys_live id hid).resolve_right List.not_mem_nil,
      h.live_keys id⟩⟩
  · intro hp tx htx hopen
    have h := hinv.exited hp
    refine ⟨fun hans hq => ?_, h.answered tx htx hopen⟩
    rw [h.unheard tx hq] at hans
    exact not_answered_nil hans

/-- A loop told to end while a request waits in its channel. -/
def evicted : LoopState Nat :=
  drainTrackers { LoopState.start ⟨.new ⟨1, 8⟩ [soloPool], .new 512⟩ with
    requestRx := [⟨0, [7], 2⟩], sent := [0], shutdown := true }

theorem evicted_reach :
    LoopReach (fun _ h => h) ⟨.new ⟨1, 8⟩ [soloPool], .new 512⟩ evicted := by
  have harrive : LoopReach (fun _ h => h) ⟨.new ⟨1, 8⟩ [soloPool], .new 512⟩
      { LoopState.start ⟨.new ⟨1, 8⟩ [soloPool], .new 512⟩ with
        requestRx := [⟨0, [7], 2⟩], sent := [0] } :=
    .single (.arrive ⟨0, [7], 2⟩ rfl (by intro hc; cases hc) List.not_mem_nil)
  exact (harrive.tail .shutdown).tail (.headExit rfl rfl)

theorem engine_loop_answers_evicted :
    Answered (evicted.ch.events 0) ↔ 0 ∉ evicted.requestRx.map (·.tx) :=
  (engine_loop_answers (fun _ h => h) ⟨1, 8⟩ [soloPool] (.new 512) evicted_reach).2 rfl 0
    List.mem_cons_self List.not_mem_nil

/-- The client of a request the loop never took hears nothing. -/
theorem evicted_unanswered :
    LoopReach (fun _ h => h) ⟨.new ⟨1, 8⟩ [soloPool], .new 512⟩ evicted ∧ evicted.point = .exited ∧
      0 ∈ evicted.sent ∧ 0 ∉ evicted.ch.closed ∧ ¬ Answered (evicted.ch.events 0) :=
  ⟨evicted_reach, rfl, List.mem_cons_self, List.not_mem_nil, not_answered_nil⟩

end Oxydllm.Serve
