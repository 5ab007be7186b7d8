/-
# Oxydllm.Lib.Cached — a loop that reads again only when the key changes.

A loop over `xs` needs what `read` gives for the key of each element, and keeps the last value it has read. As long as
the cache is fresh, holding for its key what a read of it gives, the loop does what it would do reading every time
(`foldl_cached`).
-/
import Mathlib.Data.List.Basic

namespace Oxydllm.Cached

variable {ι κ σ α : Type} [DecidableEq κ]

structure Cache (κ σ : Type) where
  key : Option κ
  value : σ

namespace Cache

variable (read : κ → σ)

def load (c : Cache κ σ) (k : κ) : Cache κ σ := if c.key = some k then c else ⟨some k, read k⟩

def Fresh (c : Cache κ σ) : Prop := ∀ k, c.key = some k → c.value = read k

variable {read} {c : Cache κ σ}

theorem fresh_load (h : c.Fresh read) (k : κ) : (c.load read k).Fresh read := by
  unfold load
  by_cases hk : c.key = some k
  · rwa [if_pos hk]
  · rw [if_neg hk]
    intro k' hk'
    obtain rfl := Option.some.inj hk'
    rfl

theorem load_value (h : c.Fresh read) (k : κ) : (c.load read k).value = read k := by
  unfold load
  by_cases hk : c.key = some k
  · rw [if_pos hk]
    exact h k hk
  · rw [if_neg hk]

end Cache

/-- One step of the loop. -/
def step (read : κ → σ) (key : ι → κ) (body : σ → ι → α → α) (s : Cache κ σ × α) (x : ι) : Cache κ σ × α :=
  (s.1.load read (key x), body (s.1.load read (key x)).value x s.2)

theorem foldl_cached {read : κ → σ} {key : ι → κ} {body : σ → ι → α → α} (xs : List ι) {c : Cache κ σ}
    (h : c.Fresh read) (a : α) :
    (xs.foldl (step read key body) (c, a)).2 = xs.foldl (fun a x => body (read (key x)) x a) a := by
  induction xs generalizing c a with
  | nil => rfl
  | cons x xs ih =>
      show (xs.foldl (step read key body) (c.load read (key x), body (c.load read (key x)).value x a)).2 = _
      rw [ih (Cache.fresh_load h (key x)), Cache.load_value h (key x), List.foldl_cons]

end Oxydllm.Cached
