/-
# Oxydllm.Gdn.Uncut — a recurrent layer does not see how its input was cut or batched.

A batch gives each of its segments the run of that segment alone, cut out at its offset (`forwardBatch_scan`), so after
any calls every sequence stands where one run over its tokens puts it (`Settled`, `run_settled`). One segment over the
whole sequence is that run (`run_eq_forwardSegment`).
-/
import Mathlib.Analysis.SpecialFunctions.Log.Basic
import Oxydllm.Gdn.Segment

namespace Oxydllm.Gdn

open Slice

namespace GatedDeltaNet

variable {K : Type} [Field K] [LinearOrder K] {hidden : Nat} {la : LinearAttnConfig} (α : Arithmetic K)
  (net : GatedDeltaNet K hidden la)

/-! ## A batch -/

/-- A segment of a batch: the state of its sequence and its rows. -/
abbrev Segment (K : Type) (hidden : Nat) (la : LinearAttnConfig) := Option (RecurrentState K la) × List (Row K hidden)

/-- What its run alone gives. -/
def alone (p : Segment K hidden la) : List (Row K hidden) × RecurrentState K la :=
  scan (net.tokenStep α) p.2 (p.1.getD (startState la))

/-- Rows, and a state with a whole window. -/
def Sound (p : Segment K hidden la) : Prop := p.2 ≠ [] ∧ ∀ st ∈ p.1, RecurrentState.Whole st

/-- The loop cuts the segments out of the projected rows one after the other. -/
theorem mixSegments_scan (hfits : la.Fits) (prefill : Bool) (segments : List (Segment K hidden la)) :
    (∀ p ∈ segments, Sound p) → ∀ front : List (Row K hidden),
      net.mixSegments α prefill ((front ++ segments.flatMap Prod.snd).map (net.project α)) front.length
        (segments.map fun p => (p.1, p.2.length)) =
      some (segments.flatMap fun p => (scan (net.coreStep α) (p.2.map (net.project α)) (p.1.getD (startState la))).1,
        segments.map fun p => (net.alone α p).2) := by
  induction segments with
  | nil => intro _ _; rfl
  | cons p segments ih =>
      intro hsound front
      obtain ⟨hrows, hstate⟩ := hsound p (.head _)
      have hps : p.2.map (net.project α) ≠ [] := fun h => hrows (List.map_eq_nil_iff.1 h)
      -- what is behind the rows before the offset starts with the segment
      have hcut : narrow ((front ++ (p :: segments).flatMap Prod.snd).map (net.project α)) front.length p.2.length =
          some (p.2.map (net.project α)) := by
        rw [narrow_eq (by simp only [List.length_map, List.length_append, List.flatMap_cons]; omega), window,
          ← List.map_drop, List.drop_left, List.flatMap_cons, ← List.map_take, List.take_left]
      have hrest := ih (fun p hp => hsound p (.tail _ hp)) (front ++ p.2)
      rw [List.append_assoc, ← List.flatMap_cons, List.length_append] at hrest
      rw [List.map_cons, mixSegments, hcut, Option.bind_some, mixSegment_scan α net hfits prefill hps hstate,
        Option.bind_some]
      dsimp only
      have halone := congrArg Prod.snd (tokenStep_scan α net p.2 (p.1.getD (startState la)))
      rw [hrest, ← halone]
      rfl

/-- The finished rows of several runs. -/
theorem finishRows_flatMap (segments : List (Segment K hidden la)) :
    net.finishRows α
      (segments.flatMap fun p => (scan (net.coreStep α) (p.2.map (net.project α)) (p.1.getD (startState la))).1)
      ((segments.flatMap Prod.snd).map (net.project α)) = some (segments.flatMap fun p => (net.alone α p).1) := by
  have hlen : (segments.flatMap fun p =>
      (scan (net.coreStep α) (p.2.map (net.project α)) (p.1.getD (startState la))).1).length =
        ((segments.flatMap Prod.snd).map (net.project α)).length := by
    simp only [List.length_flatMap, List.length_map, scan_length]
  rw [finishRows, if_pos hlen]
  congr 1
  clear hlen
  induction segments with
  | nil => rfl
  | cons p segments ih =>
      simp only [List.flatMap_cons, List.map_append]
      rw [List.zipWith_append (by rw [scan_length]), ih, alone, tokenStep_scan]

/-- A batch gives each segment the run of that segment alone. -/
theorem forwardBatch_scan (hfits : la.Fits) (prefill : Bool) (segments : List (Segment K hidden la))
    (hne : segments ≠ []) (hsound : ∀ p ∈ segments, Sound p) :
    net.forwardBatch α prefill (segments.flatMap Prod.snd) (segments.map fun p => p.2.length) (segments.map Prod.fst) =
      some (segments.flatMap fun p => (net.alone α p).1, segments.map fun p => (net.alone α p).2) := by
  obtain ⟨p, segments, rfl⟩ := List.exists_cons_of_ne_nil hne
  cases segments with
  | nil =>
      obtain ⟨hrows, hstate⟩ := hsound p (.head _)
      -- one segment alone goes past the loop
      simp only [List.flatMap_cons, List.flatMap_nil, List.append_nil, List.map_cons, List.map_nil]
      rw [forwardBatch, forwardSegment_scan α net hfits prefill hrows hstate]
      rfl
  | cons p' segments =>
      have hmix := mixSegments_scan α net hfits prefill (p :: p' :: segments) hsound []
      have hzip : ((p :: p' :: segments).map Prod.fst).zip ((p :: p' :: segments).map fun p => p.2.length) =
          (p :: p' :: segments).map fun p => (p.1, p.2.length) := List.zip_map'
      have hbatch (xs : List (Row K hidden)) (counts : List Nat) :
          net.forwardBatch α prefill xs counts ((p :: p' :: segments).map Prod.fst) =
            (net.mixSegments α prefill (xs.map (net.project α)) 0
              (((p :: p' :: segments).map Prod.fst).zip counts)).bind fun r =>
                (net.finishRows α r.1 (xs.map (net.project α))).map fun out => (out, r.2) := rfl
      rw [hbatch, hzip]
      refine Option.bind_eq_some_iff.2 ⟨_, hmix, ?_⟩
      rw [finishRows_flatMap]
      rfl

theorem forwardBatch_none (hfits : ¬la.Fits) (prefill : Bool) (xs : List (Row K hidden)) (counts : List Nat)
    {states : List (Option (RecurrentState K la))} (hcounts : counts.length = states.length) :
    net.forwardBatch α prefill xs counts states = none := by
  cases states with
  | nil => rfl
  | cons s states =>
      cases states with
      | nil =>
          rw [forwardBatch, forwardSegment_none α net hfits]
          rfl
      | cons s' states =>
          obtain ⟨t, counts, rfl⟩ := List.exists_cons_of_length_eq_add_one hcounts
          have hbatch : net.forwardBatch α prefill xs (t :: counts) (s :: s' :: states) =
              (net.mixSegments α prefill (xs.map (net.project α)) 0
                ((s, t) :: (s' :: states).zip counts)).bind fun r =>
                  (net.finishRows α r.1 (xs.map (net.project α))).map fun out => (out, r.2) := rfl
          have hmix : net.mixSegments α prefill (xs.map (net.project α)) 0
              ((s, t) :: (s' :: states).zip counts) = none := by
            rw [mixSegments]
            refine Option.bind_eq_none_iff.2 fun seg _ => ?_
            rw [mixSegment_none α net hfits]
            rfl
          rw [hbatch, hmix]
          rfl

/-! ## Calls -/

/-- One call: pieces of different sequences, each of some tokens, in one phase. -/
structure Call (K : Type) (hidden : Nat) where
  prefill : Bool
  pieces : List (Nat × List (Row K hidden))
  nonempty : pieces ≠ []
  full : ∀ p ∈ pieces, p.2 ≠ []
  apart : (pieces.map Prod.fst).Nodup

/-- The state of each sequence, and the outputs of its tokens so far. -/
structure World (K : Type) (hidden : Nat) (la : LinearAttnConfig) where
  states : Nat → Option (RecurrentState K la)
  outs : Nat → List (Row K hidden)

def World.empty : World K hidden la := ⟨fun _ => none, fun _ => []⟩

/-- The rows of a batch go to their sequences in order. -/
def deliver : List (Nat × List (Row K hidden)) → List (Row K hidden) → List (RecurrentState K la) →
    World K hidden la → World K hidden la
  | (id, xs) :: pieces, out, st :: states, w =>
      deliver pieces (out.drop xs.length) states
        { states := Function.update w.states id (some st)
          outs := Function.update w.outs id (w.outs id ++ out.take xs.length) }
  | _, _, _, w => w

def runCall (w : World K hidden la) (call : Call K hidden) : Option (World K hidden la) :=
  (net.forwardBatch α call.prefill (call.pieces.flatMap Prod.snd) (call.pieces.map fun p => p.2.length)
    (call.pieces.map fun p => w.states p.1)).map fun r => deliver call.pieces r.1 r.2 w

def run (calls : List (Call K hidden)) : Option (World K hidden la) := calls.foldlM (net.runCall α) .empty

/-- The tokens of a sequence, in the order they were fed. -/
def rowsOf (calls : List (Call K hidden)) (id : Nat) : List (Row K hidden) :=
  calls.flatMap fun call => (call.pieces.lookup id).getD []

omit [Field K] [LinearOrder K] in
/-- What a delivery leaves at a sequence. -/
theorem deliver_at {r : Nat × List (Row K hidden) → List (Row K hidden) × RecurrentState K la}
    (hr : ∀ p, (r p).1.length = p.2.length) (id : Nat) (pieces : List (Nat × List (Row K hidden))) :
    (pieces.map Prod.fst).Nodup → ∀ w : World K hidden la,
      let w' := deliver pieces (pieces.flatMap fun p => (r p).1) (pieces.map fun p => (r p).2) w
      match pieces.lookup id with
      | some xs => w'.states id = some (r (id, xs)).2 ∧ w'.outs id = w.outs id ++ (r (id, xs)).1
      | none => w'.states id = w.states id ∧ w'.outs id = w.outs id := by
  induction pieces with
  | nil => exact fun _ w => ⟨rfl, rfl⟩
  | cons p pieces ih =>
      intro hnodup w
      obtain ⟨k, xs⟩ := p
      rw [List.map_cons, List.nodup_cons] at hnodup
      rw [List.flatMap_cons, List.map_cons, deliver, List.drop_left' (hr (k, xs)), List.take_left' (hr (k, xs))]
      have hrest := ih hnodup.2 ⟨Function.update w.states k (some (r (k, xs)).2),
        Function.update w.outs k (w.outs k ++ (r (k, xs)).1)⟩
      rw [List.lookup_cons]
      by_cases hid : id = k
      -- its piece comes here, and no later piece is its own
      · subst hid
        have hnone : pieces.lookup id = none := by
          rw [List.lookup_eq_none_iff]
          intro p hp
          refine bne_iff_ne.2 fun hkey => hnodup.1 ?_
          change id ∈ _
          rw [hkey]
          exact List.mem_map_of_mem hp
        rw [hnone] at hrest
        rw [beq_self_eq_true]
        simpa using hrest
      · rw [beq_false_of_ne hid]
        simpa [Function.update_of_ne hid] using hrest

/-- A sequence stands where one run over its tokens puts it. -/
def Settled (w : World K hidden la) (id : Nat) (xs : List (Row K hidden)) : Prop :=
  w.outs id = (scan (net.tokenStep α) xs (startState la)).1 ∧
    w.states id = if xs.isEmpty then none else some (scan (net.tokenStep α) xs (startState la)).2

theorem Settled.getD {w : World K hidden la} {id : Nat} {xs : List (Row K hidden)} (h : net.Settled α w id xs) :
    (w.states id).getD (startState la) = (scan (net.tokenStep α) xs (startState la)).2 := by
  rw [h.2]
  cases xs <;> rfl

theorem Settled.whole (hfits : la.Fits) {w : World K hidden la} {id : Nat} {xs : List (Row K hidden)}
    (h : net.Settled α w id xs) : ∀ st ∈ w.states id, RecurrentState.Whole st := by
  intro st hst
  obtain rfl : (scan (net.tokenStep α) xs (startState la)).2 = st := by
    rw [← h.getD, Option.mem_def.1 hst, Option.getD_some]
  exact tokenStep_scan_whole α net (startState_whole hfits.kernel) xs

/-- A call moves each of its sequences on by its piece, and no other. -/
theorem runCall_settled (hfits : la.Fits) {w : World K hidden la} {past : Nat → List (Row K hidden)}
    (h : ∀ id, net.Settled α w id (past id)) (call : Call K hidden) :
    ∃ w', net.runCall α w call = some w' ∧ ∀ id, net.Settled α w' id (past id ++ (call.pieces.lookup id).getD []) := by
  have hbatch := forwardBatch_scan α net hfits call.prefill (call.pieces.map fun p => (w.states p.1, p.2))
    (fun hnil => call.nonempty (List.map_eq_nil_iff.1 hnil)) fun p hp => by
      obtain ⟨q, hq, rfl⟩ := List.mem_map.1 hp
      exact ⟨call.full q hq, (h q.1).whole α net hfits⟩
  simp only [List.flatMap_map, List.map_map, Function.comp_def] at hbatch
  refine ⟨_, by rw [runCall, hbatch]; rfl, fun id => ?_⟩
  have hat := deliver_at (r := fun p => net.alone α (w.states p.1, p.2)) (fun p => scan_length _ _) id call.pieces
    call.apart w
  cases hlookup : call.pieces.lookup id with
  | none =>
      rw [hlookup] at hat
      rw [Option.getD_none, List.append_nil]
      exact ⟨hat.2.trans (h id).1, hat.1.trans (h id).2⟩
  | some xs =>
      rw [hlookup] at hat
      have hxs : xs ≠ [] := by
        obtain ⟨front, back, hpieces, -⟩ := List.lookup_eq_some_iff.1 hlookup
        exact call.full (id, xs) (hpieces ▸ List.mem_append_right front (.head back))
      -- the piece starts from where the past of the sequence ended
      have hmoved : net.alone α (w.states id, xs) = scan (net.tokenStep α) xs
          (scan (net.tokenStep α) (past id) (startState la)).2 := by rw [alone, (h id).getD]
      have hempty : (past id ++ xs).isEmpty = false := by simp [hxs]
      refine ⟨hat.2.trans ?_, hat.1.trans ?_⟩
      · rw [(h id).1, hmoved, Option.getD_some, scan_append]
      · rw [hmoved, Option.getD_some, hempty, scan_append]
        rfl

/-- After any calls. -/
theorem run_settled (hfits : la.Fits) (calls : List (Call K hidden)) : ∀ {w : World K hidden la}
    {past : Nat → List (Row K hidden)}, (∀ id, net.Settled α w id (past id)) →
      ∃ w', calls.foldlM (net.runCall α) w = some w' ∧ ∀ id, net.Settled α w' id (past id ++ rowsOf calls id) := by
  induction calls with
  | nil =>
      intro w past h
      exact ⟨w, rfl, fun id => by rw [rowsOf, List.flatMap_nil, List.append_nil]; exact h id⟩
  | cons call calls ih =>
      intro w past h
      obtain ⟨w₁, hcall, h₁⟩ := runCall_settled α net hfits h call
      obtain ⟨w', hrun, h'⟩ := ih h₁
      refine ⟨w', ?_, fun id => ?_⟩
      · rw [List.foldlM_cons, hcall]
        exact hrun
      · rw [rowsOf, List.flatMap_cons, ← List.append_assoc]
        exact h' id

/-- However a sequence is cut into pieces and batched with others, in whatever phase each piece is fed: its outputs and
what it leaves are those of one segment over the whole sequence, from no state. -/
theorem run_eq_forwardSegment (calls : List (Call K hidden)) (id : Nat) (hid : rowsOf calls id ≠ []) (prefill : Bool) :
    (net.run α calls).map (fun w => (w.outs id, w.states id)) =
      (net.forwardSegment α prefill (rowsOf calls id) none).map (fun r => (r.1, some r.2)) ∧
    (la.Fits → (net.run α calls).isSome) := by
  by_cases hfits : la.Fits
  · have hempty (id : Nat) : net.Settled α (.empty : World K hidden la) id [] := ⟨rfl, rfl⟩
    obtain ⟨w, hrun, hsettled⟩ := run_settled α net hfits calls hempty
    have hat := hsettled id
    rw [List.nil_append] at hat
    have hnonempty : (rowsOf calls id).isEmpty = false := by simp [hid]
    rw [run, hrun, forwardSegment_scan α net hfits prefill hid fun st hst => by cases hst]
    refine ⟨?_, fun _ => rfl⟩
    rw [Option.map_some, Option.map_some, hat.1, hat.2, hnonempty]
    rfl
  · refine ⟨?_, fun h => absurd h hfits⟩
    rw [forwardSegment_none α net hfits]
    -- there is a first call, and it fails
    cases calls with
    | nil => exact absurd rfl hid
    | cons call calls =>
        have hcall : net.runCall α .empty call = none := by
          rw [runCall, forwardBatch_none α net hfits _ _ _ (by rw [List.length_map, List.length_map])]
          rfl
        rw [run, List.foldlM_cons, hcall]
        rfl

/-- A prefill of two sequences, and a decoded token of the first. -/
theorem run_eq_forwardSegment_two : let α : Arithmetic ℝ :=
      ⟨⟨Real.exp, Real.exp_zero, Real.exp_add⟩, Real.log, Real.sqrt, 1 / 1000000⟩
    let net : GatedDeltaNet ℝ 1 ⟨1, 1, 1, 1, 2⟩ :=
      ⟨⟨Matrix.of fun i _ => i.1, none⟩, ⟨Matrix.of fun _ _ => 1, none⟩, .separate ⟨1, none⟩ ⟨1, none⟩,
        ⟨Matrix.of fun _ _ => 1, none⟩, fun j _ => j.1, -1, 0, 1, 1 / 1000000, false⟩
    let calls : List (Call ℝ 1) :=
      [⟨true, [(0, [1, 2]), (1, [3])], by simp, by simp, by simp⟩, ⟨false, [(0, [4])], by simp, by simp, by simp⟩]
    (net.run α calls).map (fun w => (w.outs 0, w.states 0)) =
      (net.forwardSegment α true [1, 2, 4] none).map (fun r => (r.1, some r.2)) ∧ (net.run α calls).isSome := by
  intro α net calls
  obtain ⟨heq, hsome⟩ := run_eq_forwardSegment α net calls 0 (List.cons_ne_nil 1 [2, 4]) true
  exact ⟨heq, hsome ⟨by decide, by decide, by decide⟩⟩

end GatedDeltaNet

end Oxydllm.Gdn
