/-
# Oxydllm.Serve.StopBytes — the scanner on byte offsets, and what it may hand out.

`StopScanner` works on `str`: matches, suffix lengths and cuts are byte offsets, and a cut off a character
boundary panics. `BytesScanner` has those offsets; it makes the cuts of the scanner on characters
(`push_eq`), so that none of them panics, nothing is lost, and nothing of a stop string is handed out.
-/
import Oxydllm.Serve.IncrementalDecode
import Oxydllm.Serve.StopScan
import Mathlib.Data.Nat.Find

namespace Oxydllm.Serve

open Occurrence

/-! ## Text cut at byte offsets -/

/-- The text up to a byte offset and from it on, if the offset is a character boundary. -/
def splitAtByte : List Char → Nat → Option (List Char × List Char)
  | s, 0 => some ([], s)
  | [], _ + 1 => none
  | c :: s, n + 1 =>
      if c.utf8Size ≤ n + 1 then (splitAtByte s (n + 1 - c.utf8Size)).map fun r => (c :: r.1, r.2) else none

/-- `str::find`, as a byte offset. -/
def findByte (p s : List Char) : Option Nat := (find p s).map fun i => byteLen (s.take i)

theorem byteLen_take_le (s : List Char) {i j : Nat} (h : i ≤ j) : byteLen (s.take i) ≤ byteLen (s.take j) := by
  obtain ⟨more, hmore⟩ : s.take i <+: s.take j := List.take_prefix_take_left h
  rw [← hmore, byteLen_append]
  exact Nat.le_add_right _ _

theorem byteLen_drop_le (s : List Char) {i j : Nat} (h : i ≤ j) : byteLen (s.drop j) ≤ byteLen (s.drop i) := by
  obtain ⟨d, rfl⟩ := Nat.exists_eq_add_of_le h
  rw [← List.take_append_drop d (s.drop i), List.drop_drop, byteLen_append]
  exact Nat.le_add_left _ _

theorem splitAtByte_append (s t : List Char) : splitAtByte (s ++ t) (byteLen s) = some (s, t) := by
  induction s with
  | nil => cases t <;> rfl
  | cons c s ih =>
      have hpos := c.utf8Size_pos
      rw [byteLen_cons]
      obtain ⟨n, hn⟩ : ∃ n, c.utf8Size + byteLen s = n + 1 := ⟨c.utf8Size + byteLen s - 1, by omega⟩
      rw [hn, List.cons_append, splitAtByte, if_pos (by omega), ← hn, Nat.add_sub_cancel_left, ih]
      rfl

/-- A boundary is where some of the characters end. -/
theorem splitAtByte_some {s a b : List Char} {n : Nat} (h : splitAtByte s n = some (a, b)) :
    s = a ++ b ∧ byteLen a = n := by
  induction s generalizing n a with
  | nil =>
      cases n with
      | zero =>
          cases h
          exact ⟨rfl, rfl⟩
      | succ n => cases h
  | cons c s ih =>
      cases n with
      | zero =>
          cases h
          exact ⟨rfl, rfl⟩
      | succ n =>
          rw [splitAtByte] at h
          obtain ⟨hle, h⟩ := Option.ite_none_right_eq_some.1 h
          obtain ⟨⟨a', b'⟩, hrest, heq⟩ := Option.map_eq_some_iff.1 h
          cases heq
          obtain ⟨hs, hlen⟩ := ih hrest
          rw [byteLen_cons, hlen]
          exact ⟨congrArg (c :: ·) hs, by omega⟩

/-! ## The scanner -/

structure BytesScanner where
  stops : List (List Char)
  held : List Char

/-- Length in bytes of the longest suffix of `text` that is a proper prefix of `stop`. -/
def longestSuffixOpening (text stop : List Char) : Nat :=
  (((List.range' 1 (byteLen stop - 1)).reverse.filter fun n => (splitAtByte stop n).isSome).find? fun n =>
    (splitAtByte stop n).any fun r => r.1.isSuffixOf text).getD 0

namespace BytesScanner

def new (stops : List (List Char)) : BytesScanner := ⟨stops, []⟩

def earliestMatch (s : BytesScanner) : Option Nat := (s.stops.filterMap (findByte · s.held)).min?

/-- The text before a match; what is left of it is dropped. -/
def cut (s : BytesScanner) (start : Nat) : Option (List Char × BytesScanner) :=
  (splitAtByte s.held start).map fun r => (r.1, { s with held := [] })

/-- Takes the next delta of decoded text; `none` where a cut panics. -/
def push (s : BytesScanner) (delta : List Char) : Option (Scan × BytesScanner) :=
  if s.stops.isEmpty then some (.text delta, s)
  else
    let s := { s with held := s.held ++ delta }
    match s.earliestMatch with
    | some start => (s.cut start).map fun r => (.stopped r.1, r.2)
    | none =>
        let keep := (s.stops.map (longestSuffixOpening s.held)).max?.getD 0
        (splitAtByte s.held (byteLen s.held - keep)).map fun r => (.text r.1, { s with held := r.2 })

/-- Takes the last delta of a stream that ended on its own. -/
def finish (s : BytesScanner) (delta : List Char) : Option (Scan × BytesScanner) :=
  if s.stops.isEmpty then some (.text delta, s)
  else
    let s := { s with held := s.held ++ delta }
    match s.earliestMatch with
    | some start => (s.cut start).map fun r => (.stopped r.1, r.2)
    | none => some (.text s.held, { s with held := [] })

/-- The same scanner on characters. -/
def chars (s : BytesScanner) : StopScanner := ⟨s.stops, s.held⟩

/-! ## The same cuts -/

theorem min?_map {g : Nat → Nat} (hg : Monotone g) (l : List Nat) : (l.map g).min? = l.min?.map g := by
  cases hl : l.min? with
  | none =>
      rw [List.min?_eq_none_iff] at hl
      rw [hl]
      rfl
  | some a =>
      obtain ⟨hmem, hmin⟩ := List.min?_eq_some_iff.1 hl
      rw [Option.map_some, List.min?_eq_some_iff]
      refine ⟨List.mem_map_of_mem hmem, fun b hb => ?_⟩
      obtain ⟨c, hc, rfl⟩ := List.mem_map.1 hb
      exact hg (hmin c hc)

theorem max?_map {g : Nat → Nat} (hg : Monotone g) (l : List Nat) : (l.map g).max? = l.max?.map g := by
  cases hl : l.max? with
  | none =>
      rw [List.max?_eq_none_iff] at hl
      rw [hl]
      rfl
  | some a =>
      obtain ⟨hmem, hmax⟩ := List.max?_eq_some_iff.1 hl
      rw [Option.map_some, List.max?_eq_some_iff]
      refine ⟨List.mem_map_of_mem hmem, fun b hb => ?_⟩
      obtain ⟨c, hc, rfl⟩ := List.mem_map.1 hb
      exact hg (hmax c hc)

/-- Trying lengths downwards finds the greatest. -/
theorem find?_down (p : Nat → Bool) (n : Nat) :
    ((List.range' 1 n).reverse.find? p).getD 0 = Nat.findGreatest (fun k => p k = true) n := by
  induction n with
  | zero => rfl
  | succ n ih =>
      rw [List.range'_concat, List.reverse_append, List.reverse_singleton, List.singleton_append, List.find?_cons,
        Nat.findGreatest_succ, Nat.one_mul, Nat.add_comm 1 n, ← ih]
      cases p (n + 1) <;> rfl

theorem earliestMatch_eq (s : BytesScanner) :
    s.earliestMatch = s.chars.earliestMatch.map fun i => byteLen (s.held.take i) := by
  show (s.stops.filterMap (findByte · s.held)).min? = (s.stops.filterMap (find · s.held)).min?.map _
  rw [← min?_map fun _ _ => byteLen_take_le s.held]
  congr 1
  rw [List.map_filterMap]
  rfl

theorem longestOpening_eq (text stop : List Char) :
    longestOpening text stop =
      Nat.findGreatest (fun k => (stop.take k).isSuffixOf text = true) (stop.length - 1) :=
  find?_down _ _

/-- The suffix that opens the stop string, in bytes. -/
theorem longestSuffixOpening_eq (text stop : List Char) :
    longestSuffixOpening text stop = byteLen (text.drop (text.length - longestOpening text stop)) := by
  have hopen := longestOpening_eq text stop
  generalize longestOpening text stop = k at hopen
  obtain ⟨hk, hsuf, hmax⟩ := Nat.findGreatest_eq_iff.1 hopen.symm
  -- what is held back of the text is the beginning of the stop string
  have hdrop : text.drop (text.length - k) = stop.take k := by
    rcases Nat.eq_zero_or_pos k with rfl | hpos
    · rw [Nat.sub_zero, List.drop_length, List.take_zero]
    · have hsuffix := List.isSuffixOf_iff_suffix.1 (hsuf hpos.ne')
      have hlen : (stop.take k).length = k := by
        rw [List.length_take]
        omega
      have := List.suffix_iff_eq_drop.1 hsuffix
      rw [hlen] at this
      exact this.symm
  have hsplit := splitAtByte_append (stop.take k) (stop.drop k)
  rw [List.take_append_drop] at hsplit
  unfold longestSuffixOpening
  rw [List.find?_filter, find?_down, hdrop, Nat.findGreatest_eq_iff]
  refine ⟨?_, fun hne => ?_, fun n hlt hle hopens => ?_⟩
  · rcases Nat.eq_zero_or_pos k with rfl | hpos
    · exact Nat.zero_le _
    · have hrest : byteLen stop = byteLen (stop.take k) + byteLen (stop.drop k) := by
        rw [← byteLen_append, List.take_append_drop]
      obtain ⟨c, rest, hcons⟩ := List.exists_cons_of_ne_nil (List.ne_nil_of_length_pos
        (show 0 < (stop.drop k).length by rw [List.length_drop]; omega))
      have hc := c.utf8Size_pos
      rw [hcons, byteLen_cons] at hrest
      omega
  · have hk0 : k ≠ 0 := by
      rintro rfl
      exact hne rfl
    rw [hsplit]
    exact decide_eq_true ⟨rfl, hsuf hk0⟩
  · replace hopens := of_decide_eq_true hopens
    obtain ⟨⟨a, b⟩, hab⟩ := Option.isSome_iff_exists.1 hopens.1
    rw [hab] at hopens
    obtain ⟨hstop, hlen⟩ := splitAtByte_some hab
    have htake : stop.take a.length = a := by rw [hstop, List.take_left]
    have hproper : a.length ≤ stop.length - 1 := by
      have hb : b ≠ [] := by
        rintro rfl
        rw [List.append_nil] at hstop
        rw [hstop] at hle hlt
        omega
      have := List.length_pos_iff.2 hb
      have := congrArg List.length hstop
      rw [List.length_append] at this
      omega
    have hlong : a.length ≤ k := by
      by_contra hgt
      refine hmax (not_le.1 hgt) hproper ?_
      rw [htake]
      exact hopens.2
    have := byteLen_take_le stop hlong
    rw [htake, hlen] at this
    omega

/-- The scanner cuts where the scanner on characters does; no cut panics. -/
theorem cut_eq (s : BytesScanner) (i : Nat) :
    s.cut (byteLen (s.held.take i)) = some (s.held.take i, { s with held := [] }) := by
  have hsplit := splitAtByte_append (s.held.take i) (s.held.drop i)
  rw [List.take_append_drop] at hsplit
  unfold cut
  rw [hsplit]
  rfl

/-- A match, seen in bytes. -/
theorem earliestMatch_held (stops : List (List Char)) (held : List Char) :
    earliestMatch ⟨stops, held⟩ =
      (StopScanner.earliestMatch ⟨stops, held⟩).map fun i => byteLen (held.take i) :=
  earliestMatch_eq ⟨stops, held⟩

/-- What is kept, in bytes. -/
theorem keep_eq (stops : List (List Char)) (held : List Char) :
    (stops.map (longestSuffixOpening held)).max?.getD 0 =
      byteLen (held.drop (held.length - (stops.map (longestOpening held)).max?.getD 0)) := by
  have hmap : stops.map (longestSuffixOpening held) =
      (stops.map (longestOpening held)).map fun k => byteLen (held.drop (held.length - k)) := by
    rw [List.map_map]
    exact List.map_congr_left fun stop _ => longestSuffixOpening_eq held stop
  rw [hmap, max?_map (g := fun k => byteLen (held.drop (held.length - k)))
    fun i j h => byteLen_drop_le held (Nat.sub_le_sub_left h _)]
  cases (stops.map (longestOpening held)).max? with
  | none =>
      show 0 = byteLen (held.drop (held.length - 0))
      rw [Nat.sub_zero, List.drop_length]
      rfl
  | some k => rfl

theorem push_eq (stops : List (List Char)) (held delta : List Char) :
    push ⟨stops, held⟩ delta =
      some ((StopScanner.push ⟨stops, held⟩ delta).1, ⟨stops, (StopScanner.push ⟨stops, held⟩ delta).2.held⟩) := by
  unfold push StopScanner.push
  cases hstops : stops.isEmpty with
  | true =>
      simp only [if_true]
  | false =>
      simp only [Bool.false_eq_true, if_false, earliestMatch_held]
      cases StopScanner.earliestMatch ⟨stops, held ++ delta⟩ with
      | some start =>
          simp only [Option.map_some, cut_eq ⟨stops, held ++ delta⟩ start]
      | none =>
          have hsplit := splitAtByte_append
            ((held ++ delta).take ((held ++ delta).length - (stops.map (longestOpening (held ++ delta))).max?.getD 0))
            ((held ++ delta).drop ((held ++ delta).length - (stops.map (longestOpening (held ++ delta))).max?.getD 0))
          have hlen := byteLen_append
            ((held ++ delta).take ((held ++ delta).length - (stops.map (longestOpening (held ++ delta))).max?.getD 0))
            ((held ++ delta).drop ((held ++ delta).length - (stops.map (longestOpening (held ++ delta))).max?.getD 0))
          rw [List.take_append_drop] at hsplit hlen
          simp only [Option.map_none, keep_eq]
          rw [hlen, Nat.add_sub_cancel, hsplit]
          rfl

theorem finish_eq (stops : List (List Char)) (held delta : List Char) :
    finish ⟨stops, held⟩ delta =
      some ((StopScanner.finish ⟨stops, held⟩ delta).1,
        ⟨stops, (StopScanner.finish ⟨stops, held⟩ delta).2.held⟩) := by
  unfold finish StopScanner.finish
  cases hstops : stops.isEmpty with
  | true => simp only [if_true]
  | false =>
      simp only [Bool.false_eq_true, if_false, earliestMatch_held]
      cases StopScanner.earliestMatch ⟨stops, held ++ delta⟩ with
      | some start => simp only [Option.map_some, cut_eq ⟨stops, held ++ delta⟩ start]
      | none => rfl

/-! ## A stream -/

/-- What a list of deltas yields, and the scanner after it unless a stop string ended it; `none` where a cut
panics. -/
def feed : BytesScanner → List (List Char) → Option (List (List Char) × Option BytesScanner)
  | s, [] => some ([], some s)
  | s, delta :: deltas =>
      (s.push delta).bind fun
        | (.text t, s) => (feed s deltas).map fun r => (t :: r.1, r.2)
        | (.stopped t, _) => some ([t], none)

/-- The input shows no stop string, and whatever follows, none begins in what was handed out. -/
structure Withheld (stops : List (List Char)) (emitted input : List Char) : Prop where
  free : Free stops input
  begins : ∀ more, ∀ stop ∈ stops, ∀ i, OccursAt stop (input ++ more) i → emitted.length ≤ i

/-- The input up to the start of a stop string in it. -/
def CutAtStop (stops : List (List Char)) (emitted input : List Char) : Prop :=
  ∃ stop ∈ stops, ∃ i, OccursAt stop input i ∧ emitted = input.take i

/-- What a stream that goes on has yielded, and what its end would yield. -/
structure Going (stops : List (List Char)) (s : BytesScanner) (emitted input : List Char) : Prop where
  whole : emitted ++ s.held = input
  withheld : Withheld stops emitted input
  ended : ∀ last, ∃ scan s', s.finish last = some (scan, s') ∧
    match scan with
    | .text t => emitted ++ t = input ++ last ∧ Free stops (input ++ last)
    | .stopped t => CutAtStop stops (emitted ++ t) (input ++ last)

theorem cutAtStop_of_match {s : StopScanner} {out text delta : List Char}
    (h : StopScanner.Scanned s out text) {start : Nat}
    (hstart : earliest s.stops (s.held ++ delta) = some start) :
    CutAtStop s.stops (out ++ (s.held ++ delta).take start) (text ++ delta) := by
  have hcut := h.cut hstart
  have hvisible := h.earliest_held delta
  rw [hstart, Option.map_some] at hvisible
  obtain ⟨⟨stop, hstop, hocc⟩, -⟩ := earliest_some_iff.1 hvisible
  unfold StopScanner.upTo at hcut
  rw [hvisible] at hcut
  exact ⟨stop, hstop, _, hocc, (Prod.mk.inj hcut).1⟩

/-- A delta to the scanner on characters: it is split into what is handed out and what is held, or shows a
stop string. -/
theorem push_scanned {s : StopScanner} {out text : List Char} (h : StopScanner.Scanned s out text)
    (hidle : s.Idle) (delta : List Char) :
    (∃ t held, s.push delta = (.text t, { s with held }) ∧
        StopScanner.Scanned { s with held } (out ++ t) (text ++ delta) ∧ StopScanner.Idle { s with held }) ∨
      ∃ t, (s.push delta).1 = .stopped t ∧ CutAtStop s.stops (out ++ t) (text ++ delta) := by
  by_cases hsome : s.stops = []
  · -- nothing to look for
    have hfree : ∀ u, Free s.stops u := fun u stop hstop => by
      rw [hsome] at hstop
      cases hstop
    obtain ⟨t, held, hpush, hsplit, hidle'⟩ := StopScanner.push_quiet hidle (hfree (s.held ++ delta))
    refine .inl ⟨t, held, hpush, ⟨?_, hfree _, fun stop hstop => ?_⟩, hidle'⟩
    · rw [List.append_assoc, hsplit, ← List.append_assoc, h.split]
    · exact absurd hstop (by rw [show s.stops = [] from hsome]; exact List.not_mem_nil)
  · cases hstart : earliest s.stops (s.held ++ delta) with
    | some start =>
        refine .inr ⟨_, ?_, cutAtStop_of_match h hstart⟩
        unfold StopScanner.push StopScanner.earliestMatch
        simp only [List.isEmpty_eq_false_iff.2 hsome, Bool.false_eq_true, if_false, hstart]
    | none =>
        have hfree : earliest s.stops (text ++ delta) = none := by
          rw [h.earliest_held delta, hstart]
          rfl
        obtain ⟨t, held, hpush, hnext⟩ := h.step hsome hfree
        exact .inl ⟨t, held, hpush, hnext, fun hnil => absurd hnil hsome⟩

theorem going_of_scanned {stops : List (List Char)} {held out text : List Char}
    (h : StopScanner.Scanned ⟨stops, held⟩ out text) (hidle : StopScanner.Idle ⟨stops, held⟩) :
    Going stops ⟨stops, held⟩ out text := by
  have hlen : out.length ≤ text.length := by
    rw [← h.split, List.length_append]
    exact Nat.le_add_right _ _
  refine ⟨h.split, ⟨h.free, fun more stop hstop i hocc => occursAt_append h.free h.closed hlen hstop hocc⟩,
    fun last => ⟨_, _, finish_eq stops held last, ?_⟩⟩
  have hwhole : out ++ (held ++ last) = text ++ last := by
    rw [← List.append_assoc]
    exact congrArg (· ++ last) h.split
  cases hstart : earliest stops (held ++ last) with
  | none =>
      have hfree := h.earliest_held last
      rw [show earliest stops (held ++ last) = none from hstart, Option.map_none] at hfree
      have hquiet := StopScanner.finish_quiet hidle (earliest_none_iff.1 hstart)
      rw [hquiet]
      exact ⟨hwhole, earliest_none_iff.1 hfree⟩
  | some start =>
      have hsome : stops ≠ [] := by
        rintro rfl
        cases hstart
      have hstopped : (StopScanner.finish ⟨stops, held⟩ last).1 = .stopped ((held ++ last).take start) := by
        unfold StopScanner.finish StopScanner.earliestMatch
        simp only [List.isEmpty_eq_false_iff.2 hsome, Bool.false_eq_true, if_false, hstart]
      rw [hstopped]
      exact cutAtStop_of_match h hstart

theorem feed_scanned {stops : List (List Char)} {held out text : List Char}
    (h : StopScanner.Scanned ⟨stops, held⟩ out text) (hidle : StopScanner.Idle ⟨stops, held⟩)
    (deltas : List (List Char)) :
    ∃ outs going, feed ⟨stops, held⟩ deltas = some (outs, going) ∧
      match going with
      | some s => Going stops s (out ++ outs.flatten) (text ++ deltas.flatten)
      | none => CutAtStop stops (out ++ outs.flatten) (text ++ (deltas.take outs.length).flatten) := by
  induction deltas generalizing held out text with
  | nil =>
      refine ⟨[], some ⟨stops, held⟩, rfl, ?_⟩
      rw [List.flatten_nil, List.append_nil, List.append_nil]
      exact going_of_scanned h hidle
  | cons delta deltas ih =>
      rcases push_scanned h hidle delta with ⟨t, held', hpush, hnext, hidle'⟩ | ⟨t, hpush, hcut⟩
      · obtain ⟨outs, going, hfeed, hgoing⟩ := ih hnext hidle'
        refine ⟨t :: outs, going, ?_, ?_⟩
        · rw [feed, push_eq, Option.bind_some, hpush]
          simp only [hfeed, Option.map_some]
        · cases going with
          | some s =>
              simp only [List.flatten_cons, ← List.append_assoc] at hgoing ⊢
              exact hgoing
          | none =>
              simp only [List.length_cons, List.take_succ_cons, List.flatten_cons, ← List.append_assoc]
                at hgoing ⊢
              exact hgoing
      · refine ⟨[t], none, ?_, ?_⟩
        · rw [feed, push_eq, Option.bind_some, hpush]
        · simp only [List.flatten_cons, List.flatten_nil, List.append_nil, List.length_singleton,
            List.take_succ_cons, List.take_zero]
          exact hcut

/-- Whatever the stop strings and the deltas, the scanner loses nothing and hands out nothing of a stop
string, and every cut is on a character boundary. -/
theorem feed_sound {stops : List (List Char)} (hstops : ∀ stop ∈ stops, stop ≠ []) (deltas : List (List Char)) :
    ∃ outs going, (new stops).feed deltas = some (outs, going) ∧
      match going with
      | some s => Going stops s outs.flatten deltas.flatten
      | none => CutAtStop stops outs.flatten (deltas.take outs.length).flatten :=
  feed_scanned (StopScanner.scanned_new hstops) (fun _ => rfl) deltas

theorem feed_sound_split :
    ∃ outs going, (new ["four".toList, "è!".toList]).feed ["one fo".toList, "x è".toList] = some (outs, going) ∧
      match going with
      | some s => Going ["four".toList, "è!".toList] s outs.flatten ["one fo".toList, "x è".toList].flatten
      | none => CutAtStop ["four".toList, "è!".toList] outs.flatten
          (["one fo".toList, "x è".toList].take outs.length).flatten :=
  feed_sound (by decide) _

example : (new ["è!".toList]).feed ["caff".toList, "è".toList, "!".toList] =
    some (["caff".toList, [], []], none) := rfl

end BytesScanner

end Oxydllm.Serve
