/-
# Oxydllm.Hub.Truncated — a safetensors file that is shorter than its header says.

The largest end in the header is any word, and what comes before the data is added to it with no check: near the
end of the words the sum wraps, and the file is whole whatever its length, or the sum panics. Everywhere else the
answer is that of unbounded integers (`truncated_exact_iff`).
-/
import Oxydllm.Hub.ModelDir
import Oxydllm.Gguf.Ranges

namespace Oxydllm.Hub

open Overflow
open Serve.ToolCalls (Value)
open ModelDir (asU64 safetensorsTruncated)

section

-- `serde_json::from_slice`
variable (fromSlice : Bytes → Option Value)

/-- `t["data_offsets"][1]` of a tensor, as far as it is a word. -/
def dataEnd (t : Value) : Option Nat :=
  ((t.get "data_offsets".toList).bind Value.asArray).bind (·[1]?) |>.bind asU64

def headerLen (file : Bytes) : Nat := LittleEndian.fromLe (file.take 8)

/-- The tensors of a header that the size limit and the file leave room for, where it parses as an object. -/
def headerTensors (file : Bytes) : Option (List (List Char × Value)) :=
  if file.length < 8 ∨ 256 * 2 ^ 20 < headerLen file ∨ file.length < 8 + headerLen file then none
  else (fromSlice ((file.drop 8).take (headerLen file))).bind Value.asObject

/-- The largest end. -/
def largestEnd (tensors : List (List Char × Value)) : Nat := (tensors.filterMap fun t => dataEnd t.2).foldl max 0

/-- `safetensors_truncated` in either build. -/
def safetensorsTruncatedIn (b : Build) (file : Bytes) : Run Bool :=
  match headerTensors fromSlice file with
  | none => .ok true
  | some tensors => do
      let stated ← word b (8 + headerLen file + largestEnd tensors)
      .ok (decide (file.length < stated))

/-- False is said of a file exactly when its header can be read and it reaches the largest end, in unbounded
integers; and something is said of every file. -/
def TruncatedExact (b : Build) (file : Bytes) : Prop :=
  ∃ truncated, safetensorsTruncatedIn fromSlice b file = .ok truncated ∧
    (truncated = false ↔ ∃ tensors, headerTensors fromSlice file = some tensors ∧
      8 + headerLen file + largestEnd tensors ≤ file.length)

/-- What a header that can be read states ends within the words. -/
def EndsInWords (file : Bytes) : Prop :=
  ∀ tensors, headerTensors fromSlice file = some tensors → 8 + headerLen file + largestEnd tensors < words

/-! ## The size stated -/

theorem asU64_lt {v : Value} {n : Nat} (h : asU64 v = some n) : n < words := by
  unfold asU64 at h
  split at h
  · rename_i text
    change (if text.all Char.isDigit ∧ _ then some _ else none) = some n at h
    split at h
    · rename_i hfits
      cases h
      exact hfits.2
    · cases h
  · cases h

theorem dataEnd_lt {t : Value} {n : Nat} (h : dataEnd t = some n) : n < words := by
  obtain ⟨v, -, hv⟩ := Option.bind_eq_some_iff.1 h
  exact asU64_lt hv

theorem foldl_max_lt {ends : List Nat} {n : Nat} (hn : n < words) (h : ∀ e ∈ ends, e < words) :
    ends.foldl max n < words := by
  induction ends generalizing n with
  | nil => exact hn
  | cons e ends ih =>
      exact ih (Nat.max_lt.2 ⟨hn, h e List.mem_cons_self⟩) fun e' he' => h e' (List.mem_cons_of_mem _ he')

theorem largestEnd_lt (tensors : List (List Char × Value)) : largestEnd tensors < words := by
  refine foldl_max_lt words_pos fun e he => ?_
  obtain ⟨t, -, ht⟩ := List.mem_filterMap.1 he
  exact dataEnd_lt ht

theorem header_fits {file : Bytes} {tensors : List (List Char × Value)}
    (h : headerTensors fromSlice file = some tensors) : 8 + headerLen file ≤ file.length := by
  unfold headerTensors at h
  split at h
  · cases h
  · rename_i hroom
    push Not at hroom
    exact hroom.2.2

/-! ## The answer -/

/-- The release build is the one of `is_incomplete_download`. -/
theorem truncatedIn_wrapping (file : Bytes) :
    safetensorsTruncatedIn fromSlice .wrapping file = .ok (safetensorsTruncated fromSlice file) := by
  unfold safetensorsTruncatedIn safetensorsTruncated headerTensors
  change _ = Except.ok (if file.length < 8 ∨ 256 * 2 ^ 20 < headerLen file ∨ file.length < 8 + headerLen file then true
    else _)
  by_cases hroom : file.length < 8 ∨ 256 * 2 ^ 20 < headerLen file ∨ file.length < 8 + headerLen file
  · rw [if_pos hroom, if_pos hroom]
  · rw [if_neg hroom, if_neg hroom]
    have hlen : LittleEndian.fromLe (file.take 8) = headerLen file := rfl
    rw [hlen]
    cases fromSlice ((file.drop 8).take (headerLen file)) with
    | none => rfl
    | some v =>
        cases v with
        | object tensors =>
            change (word .wrapping (8 + headerLen file + largestEnd tensors) >>= _) = _
            rw [word_wrapping]
            rfl
        | _ => rfl

theorem truncatedIn_fits {b : Build} {file : Bytes} {tensors : List (List Char × Value)}
    (h : headerTensors fromSlice file = some tensors) (hfits : 8 + headerLen file + largestEnd tensors < words) :
    safetensorsTruncatedIn fromSlice b file = .ok (decide (file.length < 8 + headerLen file + largestEnd tensors)) := by
  unfold safetensorsTruncatedIn
  rw [h]
  change (word b _ >>= _) = _
  rw [word_fits hfits]
  rfl

/-- What wraps is said to be whole: the sum comes out before the data. -/
theorem truncatedIn_wraps {file : Bytes} {tensors : List (List Char × Value)}
    (h : headerTensors fromSlice file = some tensors) (hover : ¬ 8 + headerLen file + largestEnd tensors < words) :
    safetensorsTruncatedIn fromSlice .wrapping file = .ok false := by
  unfold safetensorsTruncatedIn
  rw [h]
  change (word .wrapping _ >>= _) = _
  rw [word_wrapping]
  have hlast := largestEnd_lt tensors
  have hheader := header_fits fromSlice h
  have hmod : (8 + headerLen file + largestEnd tensors) % words ≤ 8 + headerLen file := by
    rw [Nat.mod_eq_sub_mod (Nat.not_lt.1 hover)]
    exact Nat.le_trans (Nat.mod_le _ _) (by omega)
  change Except.ok (decide _) = _
  rw [decide_eq_false (Nat.not_lt.2 (Nat.le_trans hmod hheader))]

/-- The answer is that of unbounded integers exactly where a header that can be read ends within the words. -/
theorem truncated_exact_iff (b : Build) (file : Gguf.File) :
    TruncatedExact fromSlice b file.bytes ↔ EndsInWords fromSlice file.bytes := by
  constructor
  · rintro ⟨truncated, hin, hfalse⟩ tensors htensors
    by_contra hover
    cases b with
    | checked =>
        unfold safetensorsTruncatedIn at hin
        rw [htensors] at hin
        change (word .checked _ >>= _) = _ at hin
        rw [word_checked hover] at hin
        cases hin
    | wrapping =>
        rw [truncatedIn_wraps fromSlice htensors hover] at hin
        cases hin
        obtain ⟨tensors', htensors', hend⟩ := hfalse.1 rfl
        cases htensors.symm.trans htensors'
        exact hover (Nat.lt_of_le_of_lt hend file.length_lt)
  · intro hwords
    cases htensors : headerTensors fromSlice file.bytes with
    | none =>
        refine ⟨true, ?_, (fun h => by cases h), ?_⟩
        · unfold safetensorsTruncatedIn
          rw [htensors]
        · rintro ⟨tensors, hsome, -⟩
          rw [htensors] at hsome
          cases hsome
    | some tensors =>
        refine ⟨_, truncatedIn_fits fromSlice htensors (hwords tensors htensors), ?_⟩
        rw [decide_eq_false_iff_not, Nat.not_lt]
        constructor
        · exact fun hend => ⟨tensors, htensors, hend⟩
        · rintro ⟨tensors', htensors', hend⟩
          cases htensors.symm.trans htensors'
          exact hend

/-- Tensors and files alike: what is read, and what is said of a length, is exact where the words are not left. -/
theorem ranges_exact_iff (b : Build) (layouts : Gguf.BlockLayouts) (backend : Gguf.Backend) {QTensor : Type}
    (newQTensor : Gguf.GgmlDType → List UInt8 → List Nat → Except String QTensor) (file : Gguf.File)
    (dataOffset : Nat) (entry : Gguf.TensorEntry) :
    (Gguf.Exact b layouts backend newQTensor file dataOffset entry ↔
      Gguf.InWords b layouts backend file dataOffset entry) ∧
    (TruncatedExact fromSlice b file.bytes ↔ EndsInWords fromSlice file.bytes) :=
  ⟨Gguf.exact_iff, truncated_exact_iff fromSlice b file⟩

end

/-! ## Near the end of the words -/

/-- A file of 64 bytes of which the data begins at 32. -/
def short : Gguf.File where
  bytes := List.replicate 64 0
  length_lt := by decide

/-- One `F32` at 32 bytes before the end of the words. -/
def farEntry : Gguf.TensorEntry where
  name := ['t']
  typeId := 0
  dims := [1]
  offset := 18446744073709551584

/-- A tensor is the bytes it is made of. -/
def keepBytes (_ : Gguf.GgmlDType) (bytes : List UInt8) (_ : List Nat) : Except String (List UInt8) := .ok bytes

/-- A release build reads the first bytes of the file for it, a checked one panics. -/
theorem farEntry_not_exact :
    ¬ Gguf.Exact .wrapping Gguf.ggmlLayouts .portable keepBytes short 32 farEntry ∧
    ¬ Gguf.Exact .checked Gguf.ggmlLayouts .portable keepBytes short 32 farEntry := by
  refine ⟨fun h => ?_, fun h => h.no_panic rfl⟩
  obtain ⟨block, hblock, hr, -⟩ := h.range ⟨0, 4⟩ rfl
  cases hblock
  cases hr

end Oxydllm.Hub
