/-
# Oxydllm.Constrain.Bytes — the constraint sees bytes, not tokens.

`allowed` and `advance` cut the same walk at token boundaries: `allowed` tries each token's bytes,
`advance` commits to them. So the state after a run is a function of the bytes of its tokens, and a mask
entry says whether a walk succeeds. Stop ids are the exception both times: `advance` skips their bytes,
`allowed` marks them when the machine accepts; a stop id that has bytes of its own is marked by them too.
-/
import Oxydllm.Constrain.Walk

namespace Oxydllm.Constrain

namespace TokenByteTable

/-- The bytes the table holds for a token. -/
def entry (table : TokenByteTable) (token : Nat) : List UInt8 := ((table.bytes[token]?).join).getD []

/-- The table's bytes of a sequence of tokens. -/
def concat (table : TokenByteTable) (ts : List Nat) : List UInt8 := ts.flatMap table.entry

/-- No stop id has bytes in the table. -/
def StopsSilent (table : TokenByteTable) : Prop := ∀ stop ∈ table.stopIds, table.entry stop = []

theorem emit_eq_entry {table : TokenByteTable} (h : table.StopsSilent) (token : Nat) :
    table.emit token = table.entry token := by
  unfold emit
  split
  next hstop => exact (h token (by simpa using hstop)).symm
  · rfl

theorem emitted_eq_concat {table : TokenByteTable} (h : table.StopsSilent) (ts : List Nat) :
    table.emitted ts = table.concat ts := by
  have hfun : table.emit = table.entry := funext (emit_eq_entry h)
  rw [emitted, concat, hfun]

end TokenByteTable

namespace JsonConstraint

variable {table : TokenByteTable} {mode : JsonMode} {arena : SchemaArena} {vocabSize : Nat}

/-- What a run has reached is determined by the bytes it walked. -/
theorem Reached.unique {w : List UInt8} {c c' : JsonConstraint} (h : Reached table mode arena w c)
    (h' : Reached table mode arena w c') : c = c' := by
  obtain ⟨htable, harena, hroot, hmode, hwalk⟩ := h
  obtain ⟨htable', harena', hroot', hmode', hwalk'⟩ := h'
  rw [hwalk, Option.some.injEq, Prod.mk.injEq] at hwalk'
  obtain ⟨hmachine, hguide⟩ := hwalk'
  cases c
  cases c'
  simp_all

/-- The mask entry of an id whose table entry is not empty. -/
theorem allowed_entry (c : JsonConstraint) {id : Nat} (hid : id < vocabSize) (hstop : id ∉ c.table.stopIds)
    (hempty : c.table.bytes[id]? ≠ some (some [])) :
    (c.allowed vocabSize)[id]? = some true ↔
      ∃ w, c.table.bytes[id]? = some (some w) ∧ (c.walk c.machine c.guide w).isSome := by
  rw [allowed_iff]
  simp only [hid, true_and, hstop, and_false, or_false]
  cases hb : c.table.bytes[id]? with
  | none => simp [legal]
  | some entry =>
      cases entry with
      | none => simp [legal]
      | some w =>
          have hw : w ≠ [] := by
            rintro rfl
            exact hempty hb
          simp [legal, hw]

/-- The mask entry of a stop id without bytes. -/
theorem allowed_stop (c : JsonConstraint) {stop : Nat} (hlt : stop < vocabSize) (hstop : stop ∈ c.table.stopIds)
    (hsilent : c.table.entry stop = []) :
    (c.allowed vocabSize)[stop]? = some true ↔ c.machine.accepting := by
  have hno : c.legal (c.table.bytes[stop]?).join = false := by
    unfold TokenByteTable.entry at hsilent
    cases hb : (c.table.bytes[stop]?).join with
    | none => rfl
    | some w =>
        rw [hb] at hsilent
        simp only [Option.getD_some] at hsilent
        simp [legal, hsilent]
  rw [allowed_iff]
  simp [hlt, hstop, hno]

/-- When no stop id has bytes, runs with the same bytes reach the same constraint, a stop id is marked
exactly when the machine accepts, and any other id exactly when the walk of its bytes succeeds. -/
theorem bytes_determine (table : TokenByteTable) (mode : JsonMode) (arena : SchemaArena) (vocabSize : Nat)
    (hsilent : table.StopsSilent) (hempty : ∀ id ∉ table.stopIds, table.bytes[id]? ≠ some (some [])) :
    (∀ ts ts' c c', Run (new table mode arena) vocabSize ts c → Run (new table mode arena) vocabSize ts' c' →
      table.concat ts = table.concat ts' → c = c') ∧
    ∀ ts c, Run (new table mode arena) vocabSize ts c →
      (∀ stop ∈ table.stopIds, stop < vocabSize →
        ((c.allowed vocabSize)[stop]? = some true ↔ c.machine.accepting)) ∧
      ∀ id < vocabSize, id ∉ table.stopIds →
        ((c.allowed vocabSize)[id]? = some true ↔
          ∃ w, table.bytes[id]? = some (some w) ∧ (c.walk c.machine c.guide w).isSome) := by
  refine ⟨?_, ?_⟩
  · intro ts ts' c c' hrun hrun' hbytes
    have h := run_reached hrun
    have h' := run_reached hrun'
    rw [TokenByteTable.emitted_eq_concat hsilent] at h h'
    rw [← hbytes] at h'
    exact h.unique h'
  · intro ts c hrun
    have htable := (run_reached hrun).table_eq
    refine ⟨?_, ?_⟩
    · intro stop hstop hlt
      exact allowed_stop c hlt (by rw [htable]; exact hstop) (by rw [htable]; exact hsilent stop hstop)
    · intro id hid hstop
      have := allowed_entry c hid (by rw [htable]; exact hstop) (by rw [htable]; exact hempty id hstop)
      rwa [htable] at this

/-- A vocabulary whose stop token `<|end|>` is an ordinary entry, next to a quotation mark. -/
def spelledStop : TokenByteTable := ⟨[some [0x22], some (bytesOf "<|end|>")], [1]⟩

/-- Inside a string the stop token is allowed for its bytes, although the machine does not accept. -/
theorem spelledStop_marked :
    ∃ c, Run (new spelledStop .value .unconstrained) 2 [0] c ∧ 1 ∈ spelledStop.stopIds ∧
      (c.allowed 2)[1]? = some true ∧ ¬ c.machine.accepting :=
  ⟨_, .snoc .nil (by decide), by decide, by decide, by decide⟩

/-- A vocabulary of the digit one and a silent stop token. -/
theorem bytes_determine_single :
    ∃ c, Run (new (.single [0x31]) .value .unconstrained) 2 [0] c ∧
      ((c.allowed 2)[1]? = some true ↔ c.machine.accepting) := by
  have hrun : Run (new (.single [0x31]) .value .unconstrained) 2 [0]
      ((new (.single [0x31]) .value .unconstrained).advance 0) := .snoc .nil (by decide)
  have h := bytes_determine (.single [0x31]) .value .unconstrained 2
    (by
      intro stop hstop
      rw [List.mem_singleton.1 hstop]
      rfl)
    (by
      intro id hid
      rcases id with _ | _ | id
      · decide
      · exact absurd (List.mem_singleton.2 rfl) hid
      · simp [TokenByteTable.single])
  exact ⟨_, hrun, (h.2 [0] _ hrun).1 1 (by decide) (by decide)⟩

end JsonConstraint

end Oxydllm.Constrain
