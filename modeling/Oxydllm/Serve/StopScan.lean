/-
# Oxydllm.Serve.StopScan — stop strings matched on the decoded text (`StopScanner`).

The scanner hands out what can no longer belong to a stop string and holds the rest. It stops at the first
delta after which some stop string is visible, at the earliest start visible then; a stop string that starts
earlier but ends later is not waited for.
-/
import Oxydllm.Lib.Occurrence

namespace Oxydllm.Serve

open Occurrence

structure StopScanner where
  stops : List (List Char)
  held : List Char

/-- What the scanner hands out of a delta of decoded text. -/
inductive Scan where
  | text (t : List Char)
  | stopped (t : List Char)

namespace StopScanner

def new (stops : List (List Char)) : StopScanner := ⟨stops, []⟩

def earliestMatch (s : StopScanner) : Option Nat := earliest s.stops s.held

/-- Takes the next delta of decoded text. -/
def push (s : StopScanner) (delta : List Char) : Scan × StopScanner :=
  if s.stops.isEmpty then (.text delta, s)
  else
    let s := { s with held := s.held ++ delta }
    match s.earliestMatch with
    | some start => (.stopped (s.held.take start), { s with held := [] })
    | none =>
        let keep := (s.stops.map (longestOpening s.held)).max?.getD 0
        (.text (s.held.take (s.held.length - keep)), { s with held := s.held.drop (s.held.length - keep) })

/-- Takes the last delta of a stream that ended on its own. -/
def finish (s : StopScanner) (delta : List Char) : Scan × StopScanner :=
  if s.stops.isEmpty then (.text delta, s)
  else
    let s := { s with held := s.held ++ delta }
    match s.earliestMatch with
    | some start => (.stopped (s.held.take start), { s with held := [] })
    | none => (.text s.held, { s with held := [] })

/-- A stream of deltas and a last one: the text handed out, and whether a stop string ended it. -/
def scan (s : StopScanner) : List (List Char) → List Char → List Char × Bool
  | [], last =>
      match (s.finish last).1 with
      | .text t => (t, false)
      | .stopped t => (t, true)
  | delta :: deltas, last =>
      match s.push delta with
      | (.text t, s) => let r := scan s deltas last; (t ++ r.1, r.2)
      | (.stopped t, _) => (t, true)

/-- The text in front of the earliest stop string, or all of it. -/
def upTo (stops : List (List Char)) (text : List Char) : List Char × Bool :=
  match earliest stops text with
  | some start => (text.take start, true)
  | none => (text, false)

/-! ## Text that shows no stop string -/

/-- The scanner holds nothing when it has nothing to look for. -/
def Idle (s : StopScanner) : Prop := s.stops = [] → s.held = []

/-- What is pushed and shows no stop string is handed out or held. -/
theorem push_quiet {s : StopScanner} (hidle : Idle s) {delta : List Char}
    (hfree : Free s.stops (s.held ++ delta)) :
    ∃ t held, s.push delta = (.text t, { s with held }) ∧ t ++ held = s.held ++ delta ∧
      Idle { s with held } := by
  unfold push earliestMatch
  cases hstops : s.stops.isEmpty with
  | true =>
      refine ⟨delta, s.held, rfl, ?_, hidle⟩
      rw [hidle (List.isEmpty_iff.1 hstops), List.append_nil, List.nil_append]
  | false =>
      simp only [Bool.false_eq_true, if_false, earliest_none_iff.2 hfree]
      exact ⟨_, _, rfl, List.take_append_drop _ _,
        fun hnil => absurd hnil (List.isEmpty_eq_false_iff.1 hstops)⟩

/-- A last delta that shows no stop string releases what was held. -/
theorem finish_quiet {s : StopScanner} (hidle : Idle s) {delta : List Char}
    (hfree : Free s.stops (s.held ++ delta)) :
    (s.finish delta).1 = .text (s.held ++ delta) := by
  unfold finish earliestMatch
  cases hstops : s.stops.isEmpty with
  | true =>
      rw [hidle (List.isEmpty_iff.1 hstops)]
      rfl
  | false => simp only [Bool.false_eq_true, if_false, earliest_none_iff.2 hfree]

/-! ## A stream -/

/-- What the scanner has handed out and what it holds are the text so far; no stop string occurs in it, and
none that may yet occur has begun in what was handed out. -/
structure Scanned (s : StopScanner) (out text : List Char) : Prop where
  split : out ++ s.held = text
  free : Free s.stops text
  closed : Closed s.stops text out.length

theorem scanned_new {stops : List (List Char)} (hstops : ∀ stop ∈ stops, stop ≠ []) :
    Scanned (new stops) [] [] := by
  refine ⟨rfl, fun stop hstop i hocc => hstops stop hstop ?_, fun _ _ i hi => absurd hi (Nat.not_lt_zero i)⟩
  unfold OccursAt at hocc
  rwa [List.drop_nil, List.prefix_nil] at hocc

/-- The stop strings visible in what is held are those visible in the whole text. -/
theorem Scanned.earliest_held {s : StopScanner} {out text : List Char} (h : Scanned s out text)
    (delta : List Char) :
    earliest s.stops (text ++ delta) = (earliest s.stops (s.held ++ delta)).map (out.length + ·) := by
  have hheld : s.held ++ delta = (text ++ delta).drop out.length := by
    rw [← h.split, List.append_assoc, List.drop_left]
  have hlen : out.length ≤ text.length := by
    rw [← h.split, List.length_append]
    exact Nat.le_add_right _ _
  have hstart : ∀ stop ∈ s.stops, ∀ i, OccursAt stop (text ++ delta) i → out.length ≤ i :=
    fun stop hstop i hocc => occursAt_append h.free h.closed hlen hstop hocc
  rw [hheld]
  cases hfound : earliest s.stops ((text ++ delta).drop out.length) with
  | none =>
      rw [Option.map_none, earliest_none_iff]
      intro stop hstop i hocc
      have hi := hstart stop hstop i hocc
      refine earliest_none_iff.1 hfound stop hstop (i - out.length) (occursAt_drop.2 ?_)
      rwa [Nat.add_sub_cancel' hi]
  | some start =>
      obtain ⟨⟨stop, hstop, hocc⟩, hmin⟩ := earliest_some_iff.1 hfound
      rw [Option.map_some, earliest_some_iff]
      refine ⟨⟨stop, hstop, occursAt_drop.1 hocc⟩, fun stop' hstop' i hocc' => ?_⟩
      have hi := hstart stop' hstop' i hocc'
      have := hmin stop' hstop' (i - out.length) (occursAt_drop.2 (by rwa [Nat.add_sub_cancel' hi]))
      omega

/-- A stop string seen in what is held is cut at its place in the text. -/
theorem Scanned.cut {s : StopScanner} {out text delta : List Char} (h : Scanned s out text) {start : Nat}
    (hstart : earliest s.stops (s.held ++ delta) = some start) :
    (out ++ (s.held ++ delta).take start, true) = upTo s.stops (text ++ delta) := by
  unfold upTo
  rw [h.earliest_held delta, hstart, ← h.split]
  simp only [Option.map_some, List.append_assoc, List.take_length_add_append]

/-- A delta that shows no stop string. -/
theorem Scanned.step {s : StopScanner} {out text : List Char} (h : Scanned s out text)
    (hsome : s.stops ≠ []) {delta : List Char} (hfree : earliest s.stops (text ++ delta) = none) :
    ∃ t held, s.push delta = (.text t, { s with held }) ∧
      Scanned { s with held } (out ++ t) (text ++ delta) := by
  have hheld : earliest s.stops (s.held ++ delta) = none := by
    have := h.earliest_held delta
    rw [hfree] at this
    exact Option.map_eq_none_iff.1 this.symm
  have hdrop : (text ++ delta).drop out.length = s.held ++ delta := by
    rw [← h.split, List.append_assoc, List.drop_left]
  have hlen : out.length ≤ text.length := by
    rw [← h.split, List.length_append]
    exact Nat.le_add_right _ _
  generalize hkeep : (s.stops.map (longestOpening (s.held ++ delta))).max?.getD 0 = keep
  have hmax : ∀ stop ∈ s.stops, longestOpening (s.held ++ delta) stop ≤ keep := by
    intro stop hstop
    cases hm : (s.stops.map (longestOpening (s.held ++ delta))).max? with
    | none =>
        rw [List.max?_eq_none_iff, List.map_eq_nil_iff] at hm
        exact absurd hm hsome
    | some m =>
        rw [hm] at hkeep
        rw [← hkeep]
        exact (List.max?_eq_some_iff.1 hm).2 _ (List.mem_map_of_mem hstop)
  have hle : keep ≤ (s.held ++ delta).length := by
    cases hm : (s.stops.map (longestOpening (s.held ++ delta))).max? with
    | none =>
        rw [hm] at hkeep
        rw [← hkeep]
        exact Nat.zero_le _
    | some m =>
        rw [hm] at hkeep
        obtain ⟨stop, -, heq⟩ := List.mem_map.1 (List.max?_eq_some_iff.1 hm).1
        rw [← hkeep, Option.getD_some, ← heq]
        exact longestOpening_le _ _
  have hpush : s.push delta =
      (.text ((s.held ++ delta).take ((s.held ++ delta).length - keep)),
        { s with held := (s.held ++ delta).drop ((s.held ++ delta).length - keep) }) := by
    unfold push earliestMatch
    simp only [List.isEmpty_eq_false_iff.2 hsome, Bool.false_eq_true, if_false, hheld, hkeep]
  refine ⟨_, _, hpush, ?_, earliest_none_iff.1 hfree, ?_⟩
  · rw [List.append_assoc, List.take_append_drop, ← List.append_assoc, h.split]
  · have hclosed := @Closed.step _ _ _ _ _ _ keep h.closed hlen (earliest_none_iff.1 hfree) (by rwa [hdrop])
    have hout : (out ++ (s.held ++ delta).take ((s.held ++ delta).length - keep)).length =
        (text ++ delta).length - keep := by
      rw [List.length_append, List.length_take, ← h.split]
      simp only [List.length_append] at hle ⊢
      omega
    rwa [hout]

/-- The part of the stream after which the scanner decides: the first of its beginnings, cut between two
deltas, that shows a stop string, or all of it. -/
def decided (stops : List (List Char)) : List Char → List (List Char) → List Char → List Char
  | text, [], last => text ++ last
  | text, delta :: deltas, last =>
      if earliest stops (text ++ delta) = none then decided stops (text ++ delta) deltas last
      else text ++ delta

/-- A stream yields the text in front of the earliest stop string of what it decides on. -/
theorem scan_eq {s : StopScanner} {out text : List Char} (h : Scanned s out text) (hsome : s.stops ≠ [])
    (deltas : List (List Char)) (last : List Char) :
    (out ++ (s.scan deltas last).1, (s.scan deltas last).2) =
      upTo s.stops (decided s.stops text deltas last) := by
  have hne : s.stops.isEmpty = false := List.isEmpty_eq_false_iff.2 hsome
  induction deltas generalizing s out text with
  | nil =>
      unfold scan finish earliestMatch decided
      simp only [hne, Bool.false_eq_true, if_false]
      cases hstart : earliest s.stops (s.held ++ last) with
      | some start => exact h.cut hstart
      | none =>
          unfold upTo
          rw [h.earliest_held last, hstart, ← h.split]
          simp only [Option.map_none, List.append_assoc]
  | cons delta deltas ih =>
      unfold scan decided
      cases hstart : earliest s.stops (s.held ++ delta) with
      | some start =>
          have hvisible : ¬ earliest s.stops (text ++ delta) = none := by
            rw [h.earliest_held delta, hstart]
            exact Option.some_ne_none _
          rw [if_neg hvisible]
          unfold push earliestMatch
          simp only [hne, Bool.false_eq_true, if_false, hstart]
          exact h.cut hstart
      | none =>
          have hfree : earliest s.stops (text ++ delta) = none := by
            rw [h.earliest_held delta, hstart]
            rfl
          obtain ⟨t, held, hpush, hnext⟩ := h.step hsome hfree
          rw [if_pos hfree, hpush]
          have hrest := ih hnext hsome hne
          simp only at hrest ⊢
          rw [← hrest, List.append_assoc]

theorem decided_prefix (stops : List (List Char)) (text : List Char) (deltas : List (List Char))
    (last : List Char) :
    decided stops text deltas last <+: text ++ (deltas.flatten ++ last) ∧
      (earliest stops (decided stops text deltas last) = none →
        decided stops text deltas last = text ++ (deltas.flatten ++ last)) := by
  induction deltas generalizing text with
  | nil => exact ⟨List.prefix_rfl, fun _ => rfl⟩
  | cons delta deltas ih =>
      have hsplit : text ++ ((delta :: deltas).flatten ++ last) =
          (text ++ delta) ++ (deltas.flatten ++ last) := by
        rw [List.flatten_cons, List.append_assoc, List.append_assoc]
      unfold decided
      rw [hsplit]
      split
      · exact ih (text ++ delta)
      next hvisible => exact ⟨List.prefix_append _ _, fun hnone => absurd hnone hvisible⟩

/-- No stop string of the text ends before the one that starts earliest does. -/
def EndsFirst (stops : List (List Char)) (text : List Char) : Prop :=
  ∀ start, earliest stops text = some start → ∀ stop ∈ stops, ∀ i, OccursAt stop text i →
    ∃ first ∈ stops, OccursAt first text start ∧ start + first.length ≤ i + stop.length

/-- Every way of cutting the text into deltas yields the text in front of the earliest stop string exactly
when no stop string ends before the one that starts earliest. -/
theorem scan_chunks_iff {stops : List (List Char)} (hstops : ∀ stop ∈ stops, stop ≠ []) (text : List Char) :
    (∀ deltas last, deltas.flatten ++ last = text →
      (new stops).scan deltas last = upTo stops text) ↔ EndsFirst stops text := by
  by_cases hsome : stops = []
  · subst hsome
    constructor
    · exact fun _ _ _ _ hstop => by cases hstop
    · rintro - deltas last rfl
      have hpass : (new []).scan deltas last = (deltas.flatten ++ last, false) := by
        induction deltas with
        | nil => rfl
        | cons delta deltas ih =>
            show (delta ++ ((new []).scan deltas last).1, ((new []).scan deltas last).2) = _
            rw [ih, List.flatten_cons, List.append_assoc]
      rw [hpass]
      rfl
  · have hscan : ∀ deltas last, (new stops).scan deltas last = upTo stops (decided stops [] deltas last) :=
      fun deltas last => scan_eq (scanned_new hstops) hsome deltas last
    constructor
    · intro h start hstart stop hstop i hocc
      -- cut right behind the occurrence
      have hend := hocc.end_le (hstops stop hstop)
      have hin : OccursAt stop (text.take (i + stop.length)) i := hocc.take le_rfl
      have hvisible : ¬ earliest stops (text.take (i + stop.length)) = none :=
        fun hnone => earliest_none_iff.1 hnone stop hstop i hin
      have hsame := h [text.take (i + stop.length)] (text.drop (i + stop.length)) (by simp)
      rw [hscan, decided, List.nil_append, if_neg hvisible] at hsame
      obtain ⟨start', hstart'⟩ := Option.ne_none_iff_exists'.1 hvisible
      unfold upTo at hsame
      rw [hstart', hstart] at hsame
      obtain ⟨⟨first, hfirst, hocc'⟩, -⟩ := earliest_some_iff.1 hstart'
      have hend' := hocc'.end_le (hstops first hfirst)
      rw [List.length_take] at hend'
      have hlen := congrArg List.length (Prod.mk.inj hsame).1
      obtain ⟨⟨first', hfirst', hocc''⟩, -⟩ := earliest_some_iff.1 hstart
      have hend'' := hocc''.end_le (hstops first' hfirst')
      simp only [List.length_take] at hlen
      have heq : start' = start := by omega
      subst heq
      exact ⟨first, hfirst, hocc'.of_take, by omega⟩
    · intro h deltas last hsplit
      rw [hscan]
      obtain ⟨⟨rest, hrest⟩, hall⟩ := decided_prefix stops [] deltas last
      rw [List.nil_append, hsplit] at hrest hall
      generalize decided stops [] deltas last = shown at hrest hall
      cases hshown : earliest stops shown with
      | none => rw [hall hshown]
      | some start' =>
          -- what is visible has the earliest one in it
          obtain ⟨⟨stop, hstop, hocc⟩, hmin⟩ := earliest_some_iff.1 hshown
          have hend := hocc.end_le (hstops stop hstop)
          have hintext : ∀ {stop i}, OccursAt stop shown i → i ≤ shown.length → OccursAt stop text i :=
            fun ho hi => hrest ▸ ho.append rest hi
          cases hstart : earliest stops text with
          | none =>
              exact absurd (hintext hocc (by omega)) (earliest_none_iff.1 hstart stop hstop start')
          | some start =>
              obtain ⟨-, hmin'⟩ := earliest_some_iff.1 hstart
              obtain ⟨first, hfirst, hocc', hle⟩ := h start hstart stop hstop start' (hintext hocc (by omega))
              have htake : text.take shown.length = shown := by rw [← hrest, List.take_left]
              have hinshown : OccursAt first shown start := by
                have := hocc'.take (n := shown.length) (by omega)
                rwa [htake] at this
              have heq : start' = start := Nat.le_antisymm (hmin first hfirst start hinshown)
                (hmin' stop hstop start' (hintext hocc (by omega)))
              unfold upTo
              rw [hshown, hstart, heq, ← hrest]
              simp only [List.take_append_of_le_length (show start ≤ shown.length by omega)]

/-- One stop string: it always ends first. -/
theorem scan_chunks_four :
    (new ["four".toList]).scan ["one fo".toList, "ur".toList] [] = ("one ".toList, true) :=
  (scan_chunks_iff (by decide) "one four".toList).2 (fun start hstart stop hstop i hocc => by
    rw [List.mem_singleton] at hstop
    obtain ⟨⟨first, hfirst, hat⟩, hmin⟩ := earliest_some_iff.1 hstart
    have hle := hmin stop (List.mem_singleton.2 hstop) i hocc
    refine ⟨first, hfirst, hat, ?_⟩
    rw [List.mem_singleton.1 hfirst, hstop]
    omega) _ _ rfl

/-- `b` ends before `abc` does. -/
theorem scan_chunks_differ :
    ¬ ∀ deltas last deltas' last', deltas.flatten ++ last = deltas'.flatten ++ last' →
      (new ["abc".toList, "b".toList]).scan deltas last =
        (new ["abc".toList, "b".toList]).scan deltas' last' := by
  intro h
  exact absurd (h [] "abc".toList ["ab".toList] "c".toList rfl) (by decide)

end StopScanner

end Oxydllm.Serve
