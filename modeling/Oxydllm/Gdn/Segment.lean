/-
# Oxydllm.Gdn.Segment — a segment of a recurrent layer, token by token.

Whatever the length, the phase and the state a segment starts from, the convolution is the run of one window along its
rows (`convForward_scan`), the delta rule is its recurrence (`mixTokens_scan`), and so the segment is the run of one
step along its tokens (`forwardSegment_scan`).
-/
import Oxydllm.Gdn.ChunkExact
import Oxydllm.Gdn.Layer

namespace Oxydllm.Gdn

open Slice

/-- The dimensions a forward of the layer needs. -/
structure LinearAttnConfig.Fits (la : LinearAttnConfig) : Prop where
  kernel : 0 < la.convKernel
  keyHeads : 0 < la.numKHeads
  shared : la.numKHeads * la.rep = la.numVHeads

namespace GatedDeltaNet

variable {K : Type} [Field K] {hidden : Nat} {la : LinearAttnConfig} (α : Arithmetic K)
  (net : GatedDeltaNet K hidden la)

/-! ## The convolution -/

/-- The window moves on by a row, and the taps are summed on it. -/
def convStep (x : Row K la.convDim) (window : List (Row K la.convDim)) : Row K la.convDim × List (Row K la.convDim) :=
  (siluRow α (net.tapSum (window ++ [x])), (window ++ [x]).drop 1)

theorem convStep_length {window : List (Row K la.convDim)} (x : Row K la.convDim) :
    (net.convStep α x window).2.length = window.length := by
  rw [convStep, List.length_drop, List.length_append]
  rfl

/-- The taps read the first rows only. -/
theorem tapSum_append {rows : List (Row K la.convDim)} (h : la.convKernel ≤ rows.length)
    (more : List (Row K la.convDim)) :
    net.tapSum (rows ++ more) = net.tapSum rows := by
  funext ch
  refine Finset.sum_congr rfl fun j _ => ?_
  rw [List.getD_eq_getElem?_getD, List.getD_eq_getElem?_getD, List.getElem?_append_left (Nat.lt_of_lt_of_le j.2 h)]

theorem convStep_scan (qkv : List (Row K la.convDim)) : ∀ {left : List (Row K la.convDim)},
    left.length + 1 = la.convKernel → scan (net.convStep α) qkv left =
      ((List.range qkv.length).map fun i => siluRow α (net.tapSum ((left ++ qkv).drop i)),
        (left ++ qkv).drop qkv.length) := by
  induction qkv with
  | nil =>
      intro left _
      rw [scan, List.append_nil]
      rfl
  | cons x qkv ih =>
      intro left hleft
      have hnext : (net.convStep α x left).2.length + 1 = la.convKernel := by rw [convStep_length, hleft]
      -- the first output reads the window and its row only, and the moved window goes before the rest
      have hsplit : left ++ x :: qkv = left ++ [x] ++ qkv := List.append_cons left x qkv
      have hlen : (left ++ [x]).length = la.convKernel := by rw [List.length_append, ← hleft]; rfl
      have hmoved : (net.convStep α x left).2 ++ qkv = (left ++ x :: qkv).drop 1 := by
        rw [hsplit]
        exact (List.drop_append_of_le_length (by omega)).symm
      have hfirst : net.tapSum (left ++ [x]) = net.tapSum (left ++ x :: qkv) := by
        rw [hsplit, tapSum_append net hlen.ge]
      rw [scan, ih hnext, hmoved, List.length_cons, List.range_succ_eq_map, List.map_cons, List.map_map, List.drop_zero,
        ← hfirst, List.drop_drop, Nat.add_comm 1]
      simp only [List.drop_drop, Function.comp_def, Nat.add_comm 1, Nat.succ_eq_add_one]
      rfl

/-- Rows cut out of a stream. -/
theorem narrow_rows {rows : List (Row K la.convDim)} {start len : Nat} (h : start + len ≤ rows.length) :
    narrow rows start len = some ((List.range len).map fun i => rows.getD (i + start) 0) := by
  rw [narrow_eq h]
  congr 1
  refine List.ext_getElem? fun i => ?_
  rw [getElem?_window, List.getElem?_map]
  by_cases hi : i < len
  · rw [if_pos hi, List.getElem?_range hi, Option.map_some, Nat.add_comm i, List.getD_eq_getElem?_getD,
      List.getElem?_eq_getElem (by omega), Option.getD_some]
  · rw [if_neg hi, List.getElem?_eq_none (by rw [List.length_range]; omega), Option.map_none]

/-- Each tap adds its term to the sum so far. -/
theorem convTaps_some {padded : List (Row K la.convDim)} {t : Nat} (js : List (Fin la.convKernel)) :
    (∀ j ∈ js, j.1 + t ≤ padded.length) → ∀ f : Nat → Row K la.convDim,
      net.convTaps padded t js (some ((List.range t).map f)) =
        some (some ((List.range t).map fun i =>
          f i + (js.map fun j => padded.getD (i + j.1) 0 * net.convW j).sum)) := by
  induction js with
  | nil =>
      intro _ f
      simp only [convTaps, List.map_nil, List.sum_nil, add_zero]
  | cons j js ih =>
      intro hfit f
      rw [convTaps, narrow_rows (hfit j (.head _)), Option.bind_some]
      simp only [List.map_map, List.zipWith_map, List.zipWith_self]
      rw [ih fun j hj => hfit j (.tail _ hj)]
      simp only [List.map_cons, List.sum_cons, Function.comp_def, add_assoc]

/-- The loop over the taps sums them on every row. -/
theorem convTaps_eq (hk : 0 < la.convKernel) {left qkv : List (Row K la.convDim)}
    (hleft : left.length + 1 = la.convKernel) :
    net.convTaps (left ++ qkv) qkv.length (List.finRange la.convKernel) none =
      some (some ((List.range qkv.length).map fun i => net.tapSum ((left ++ qkv).drop i))) := by
  have hfit (j : Fin la.convKernel) : j.1 + qkv.length ≤ (left ++ qkv).length := by
    rw [List.length_append]
    omega
  have hsum (i : Nat) : net.tapSum ((left ++ qkv).drop i) =
      ((List.finRange la.convKernel).map fun j => (left ++ qkv).getD (i + j.1) 0 * net.convW j).sum := by
    rw [← Fin.sum_univ_def]
    funext ch
    rw [Finset.sum_apply]
    refine Finset.sum_congr rfl fun j _ => ?_
    rw [List.getD_eq_getElem?_getD, List.getD_eq_getElem?_getD, List.getElem?_drop]
    rfl
  obtain ⟨j, js, hjs⟩ := List.exists_cons_of_ne_nil (l := List.finRange la.convKernel)
    (by rw [Ne, ← List.length_eq_zero_iff, List.length_finRange]; exact hk.ne')
  simp only [hsum, hjs]
  rw [convTaps, narrow_rows (hfit j), Option.bind_some]
  simp only [List.map_map]
  rw [convTaps_some net js fun j _ => hfit j]
  rfl

theorem convStream_scan (hk : 0 < la.convKernel) {left : List (Row K la.convDim)}
    (hleft : left.length + 1 = la.convKernel) (qkv : List (Row K la.convDim)) : net.convStream α left qkv = some (scan (net.convStep α) qkv left) := by
  have hlen : (left ++ qkv).length = qkv.length + (la.convKernel - 1) := by
    rw [List.length_append]
    omega
  unfold convStream
  dsimp only
  rw [convTaps_eq net hk hleft, Option.bind_some, narrow_eq hlen.ge, convStep_scan α net qkv hleft, window,
    List.take_of_length_le (by rw [List.length_drop]; omega)]
  simp only [Option.bind_some, Option.map_some, List.map_map]
  rfl

theorem convToken_scan {left : List (Row K la.convDim)} (hleft : left.length + 1 = la.convKernel)
    (x : Row K la.convDim) : net.convToken α left [x] = some (scan (net.convStep α) [x] left) := by
  have hlen : (left ++ [x]).length = la.convKernel := by rw [List.length_append, ← hleft]; rfl
  unfold convToken
  dsimp only
  rw [if_pos hlen, narrow_eq (by omega), window, List.take_of_length_le (by rw [List.length_drop]; omega)]
  rfl

/-- The window a segment starts from. -/
def startWindow (la : LinearAttnConfig) (prev : Option (List (Row K la.convDim))) : List (Row K la.convDim) :=
  prev.getD (List.replicate (la.convKernel - 1) 0)

/-- The convolution is the run of one window along the rows, on either path. -/
theorem convForward_scan (hk : 0 < la.convKernel) (prefill : Bool) (qkv : List (Row K la.convDim))
    {prev : Option (List (Row K la.convDim))} (hprev : ∀ w ∈ prev, w.length + 1 = la.convKernel) :
    net.convForward α prefill qkv prev = some (scan (net.convStep α) qkv (startWindow la prev)) := by
  unfold convForward
  rw [if_neg hk.ne']
  cases prev with
  | none =>
      refine convStream_scan α net hk ?_ qkv
      rw [List.length_replicate]
      exact Nat.sub_add_cancel hk
  | some w =>
      have hw := hprev w rfl
      change (if _ then _ else _) = some (scan (net.convStep α) qkv w)
      split
      next hone =>
        -- a decoded token, on one dot product
        obtain ⟨x, rfl⟩ := List.length_eq_one_iff.1 hone.1
        exact convToken_scan α net hw x
      next => exact convStream_scan α net hk hw qkv

/-! ## The segment -/

/-- The delta rule is its recurrence, on either path. -/
theorem mixTokens_scan (prefill : Bool) {tokens : List (Token K la.numVHeads la.headKDim la.headVDim)} (h : tokens ≠ [])
    (state : Option (State K la.numVHeads la.headKDim la.headVDim)) :
    mixTokens α prefill tokens state = some (scan (recurrentDeltaStep α.numerics) tokens (state.getD 0)) := by
  unfold mixTokens
  split
  next => rfl
  next => exact chunkGatedDeltaRule_scan α.numerics h state (by decide)

/-- The state of an empty sequence. -/
def startState (la : LinearAttnConfig) : RecurrentState K la := ⟨List.replicate (la.convKernel - 1) 0, 0⟩

/-- The window has the rows the kernel reaches back. -/
def RecurrentState.Whole (st : RecurrentState K la) : Prop := st.conv.length + 1 = la.convKernel

theorem startState_whole (hk : 0 < la.convKernel) : RecurrentState.Whole (startState la : RecurrentState K la) := by
  unfold RecurrentState.Whole startState
  rw [List.length_replicate]
  exact Nat.sub_add_cancel hk

/-- A projected token, up to the output of the delta rule. -/
def coreStep (p : Projected K la) (st : RecurrentState K la) : Core K la × RecurrentState K la :=
  let row := net.convStep α p.qkv st.conv
  let r := recurrentDeltaStep α.numerics (net.headTokens row.1 p.beta p.g) st.s
  (r.1, ⟨row.2, r.2⟩)

theorem coreStep_whole {st : RecurrentState K la} (h : RecurrentState.Whole st) (p : Projected K la) :
    RecurrentState.Whole (net.coreStep α p st).2 := (congrArg (· + 1) (convStep_length α net p.qkv)).trans h

theorem coreStep_scan_whole (ps : List (Projected K la)) : ∀ {st : RecurrentState K la}, RecurrentState.Whole st →
    RecurrentState.Whole (scan (net.coreStep α) ps st).2 := by
  induction ps with
  | nil => exact fun h => h
  | cons p ps ih => exact fun h => ih (coreStep_whole α net h p)

/-- The window runs ahead of the delta rule: its run first, and then the delta rule on its rows. -/
theorem coreStep_scan (ps : List (Projected K la)) : ∀ st : RecurrentState K la,
    scan (net.coreStep α) ps st =
      let rows := scan (net.convStep α) (ps.map (·.qkv)) st.conv
      let r := scan (recurrentDeltaStep α.numerics)
        (List.zipWith (fun row (p : Projected K la) => net.headTokens row p.beta p.g) rows.1 ps) st.s
      (r.1, ⟨rows.2, r.2⟩) := by
  induction ps with
  | nil => intro st; rfl
  | cons p ps ih => intro st; rw [scan, ih]; rfl

/-- A segment is the run of one step along its tokens. -/
theorem mixSegment_scan (hfits : la.Fits) (prefill : Bool) {ps : List (Projected K la)} (hps : ps ≠ [])
    {state : Option (RecurrentState K la)} (hstate : ∀ st ∈ state, RecurrentState.Whole st) :
    net.mixSegment α prefill ps state = some (scan (net.coreStep α) ps (state.getD (startState la))) := by
  have hconv : ∀ w ∈ state.map (·.conv), w.length + 1 = la.convKernel := by
    intro w hw
    obtain ⟨st, hst, rfl⟩ := Option.mem_map.1 hw
    exact hstate st hst
  have hwindow : startWindow la (state.map (·.conv)) = (state.getD (startState la)).conv := by cases state <;> rfl
  have hmemory : (state.map (·.s)).getD 0 = (state.getD (startState la)).s := by cases state <;> rfl
  have hrows : List.zipWith (fun row (p : Projected K la) => net.headTokens row p.beta p.g)
      (scan (net.convStep α) (ps.map (·.qkv)) (state.getD (startState la)).conv).1 ps ≠ [] := by
    rw [Ne, ← List.length_eq_zero_iff, List.length_zipWith, scan_length, List.length_map, Nat.min_self,
      List.length_eq_zero_iff]
    exact hps
  unfold mixSegment
  rw [if_neg hfits.keyHeads.ne', convForward_scan α net hfits.kernel prefill _ hconv, hwindow, Option.bind_some]
  dsimp only
  rw [if_pos hfits.shared, mixTokens_scan α prefill hrows, hmemory, coreStep_scan]
  rfl

theorem mixSegment_none (hfits : ¬la.Fits) (prefill : Bool) (ps : List (Projected K la))
    (state : Option (RecurrentState K la)) : net.mixSegment α prefill ps state = none := by
  unfold mixSegment
  split
  next => rfl
  next hheads =>
    refine Option.bind_eq_none_iff.2 fun r hr => if_neg fun hshared => hfits ⟨?_, Nat.pos_of_ne_zero hheads, hshared⟩
    -- without a tap the convolution has no sum
    refine Nat.pos_of_ne_zero fun hkernel => ?_
    unfold convForward at hr
    rw [if_pos hkernel] at hr
    cases hr

variable [LinearOrder K]

/-- One token. -/
def tokenStep (x : Row K hidden) (st : RecurrentState K la) : Row K hidden × RecurrentState K la :=
  let p := net.project α x
  let r := net.coreStep α p st
  (net.finish α r.1 p.z, r.2)

theorem tokenStep_scan (xs : List (Row K hidden)) : ∀ st : RecurrentState K la,
    scan (net.tokenStep α) xs st =
      (List.zipWith (fun core (p : Projected K la) => net.finish α core p.z)
        (scan (net.coreStep α) (xs.map (net.project α)) st).1 (xs.map (net.project α)),
        (scan (net.coreStep α) (xs.map (net.project α)) st).2) := by
  induction xs with
  | nil => intro st; rfl
  | cons x xs ih => intro st; rw [scan, ih]; rfl

theorem tokenStep_scan_whole {st : RecurrentState K la} (h : RecurrentState.Whole st) (xs : List (Row K hidden)) :
    RecurrentState.Whole (scan (net.tokenStep α) xs st).2 := by
  rw [tokenStep_scan]
  exact coreStep_scan_whole α net _ h

/-- The rows of a run, finished. -/
theorem finishRows_scan (xs : List (Row K hidden)) (st : RecurrentState K la) :
    net.finishRows α (scan (net.coreStep α) (xs.map (net.project α)) st).1 (xs.map (net.project α)) =
      some (scan (net.tokenStep α) xs st).1 := by
  rw [finishRows, if_pos (scan_length _ _), tokenStep_scan]

theorem forwardSegment_scan (hfits : la.Fits) (prefill : Bool) {xs : List (Row K hidden)} (hxs : xs ≠ [])
    {state : Option (RecurrentState K la)} (hstate : ∀ st ∈ state, RecurrentState.Whole st) :
    net.forwardSegment α prefill xs state = some (scan (net.tokenStep α) xs (state.getD (startState la))) := by
  have hps : xs.map (net.project α) ≠ [] := fun h => hxs (List.map_eq_nil_iff.1 h)
  rw [forwardSegment, mixSegment_scan α net hfits prefill hps hstate, Option.bind_some]
  dsimp only
  rw [finishRows_scan, tokenStep_scan]
  rfl

theorem forwardSegment_none (hfits : ¬la.Fits) (prefill : Bool) (xs : List (Row K hidden))
    (state : Option (RecurrentState K la)) : net.forwardSegment α prefill xs state = none := by
  rw [forwardSegment, mixSegment_none α net hfits]
  rfl

end GatedDeltaNet

end Oxydllm.Gdn
