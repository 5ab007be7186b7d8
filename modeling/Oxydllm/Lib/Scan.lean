/-
# Oxydllm.Lib.Scan — a step with an output, run along a list.

The run over pieces is the run over their concatenation (`scan_append`, `scan_flatten`), a step that keeps its state may
be repeated (`scan_replicate`), and a run is known from the states it goes through (`scan_ofFn`).
-/
import Mathlib.Data.List.OfFn

namespace Oxydllm

variable {σ α β : Type}

/-- The outputs of a step run along a list, and the state it leaves. -/
def scan (step : α → σ → β × σ) : List α → σ → List β × σ
  | [], s => ([], s)
  | x :: xs, s =>
      let r := step x s
      let rest := scan step xs r.2
      (r.1 :: rest.1, rest.2)

variable {step : α → σ → β × σ}

@[simp]
theorem scan_length (xs : List α) : ∀ s, (scan step xs s).1.length = xs.length := by
  induction xs with
  | nil => intro s; rfl
  | cons x xs ih => intro s; exact congrArg (· + 1) (ih _)

theorem scan_append (xs ys : List α) : ∀ s, scan step (xs ++ ys) s =
    ((scan step xs s).1 ++ (scan step ys (scan step xs s).2).1, (scan step ys (scan step xs s).2).2) := by
  induction xs with
  | nil => intro s; rfl
  | cons x xs ih =>
      intro s
      rw [List.cons_append, scan, ih]
      rfl

/-- A step on blocks that runs the step on their elements. -/
theorem scan_flatten {γ : Type} {elements : γ → List α} {whole : γ → σ → List β × σ}
    (hwhole : ∀ b s, whole b s = scan step (elements b) s) (bs : List γ) : ∀ s,
      ((scan whole bs s).1.flatten, (scan whole bs s).2) = scan step (bs.flatMap elements) s := by
  induction bs with
  | nil => intro s; rfl
  | cons b bs ih =>
      intro s
      rw [List.flatMap_cons, scan_append, ← ih, scan, hwhole]
      rfl

theorem scan_map {γ : Type} (f : γ → α) (xs : List γ) : ∀ s,
    scan step (xs.map f) s = scan (fun x => step (f x)) xs s := by
  induction xs with
  | nil => intro s; rfl
  | cons x xs ih => intro s; rw [List.map_cons, scan, scan, ih]

theorem scan_replicate {x : α} {o : σ → β} (hidle : ∀ s, step x s = (o s, s)) (n : Nat) (s : σ) :
    scan step (List.replicate n x) s = (List.replicate n (o s), s) := by
  induction n with
  | zero => rfl
  | succ n ih => rw [List.replicate_succ, scan, hidle, ih, List.replicate_succ]

/-- The states a run goes through, step by step. -/
theorem scan_ofFn {n : Nat} {x : Fin n → α} {o : Fin n → β} {t : Nat → σ}
    (h : ∀ r : Fin n, step (x r) (t r.1) = (o r, t (r.1 + 1))) :
    scan step (List.ofFn x) (t 0) = (List.ofFn o, t n) := by
  induction n generalizing t with
  | zero => rw [List.ofFn_zero, List.ofFn_zero, scan]
  | succ n ih =>
      -- the first step is taken, and the rest starts from the next state
      have hrest := ih (x := fun r => x r.succ) (o := fun r => o r.succ) (t := fun r => t (r + 1)) fun r => h r.succ
      have hfirst : step (x 0) (t 0) = (o 0, t 1) := h 0
      rw [List.ofFn_succ, List.ofFn_succ, scan, hfirst, hrest]

end Oxydllm
