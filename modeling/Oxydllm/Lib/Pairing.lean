/-
# Oxydllm.Pairing — openers and closers that take turns.

Things that open and things that close, in a list, at most one of them open at a time: whatever prefix one
looks at, as many have closed as have opened, or one fewer.
-/
import Mathlib.Data.List.Infix

namespace Oxydllm.Pairing

variable {α : Type} (opens closes : α → Bool)

/-- Beginning with `held` open, no prefix closes what is not open, nor opens a second one. -/
def InTurn (held : Nat) (l : List α) : Prop :=
  ∀ p, p <+: l → p.countP closes ≤ held + p.countP opens ∧ held + p.countP opens ≤ p.countP closes + 1

variable {opens closes}

theorem InTurn.nil {held : Nat} (h : held ≤ 1) : InTurn opens closes held [] := by
  intro p hp
  rw [List.prefix_nil.1 hp, List.countP_nil, List.countP_nil]
  omega

/-- One list behind another, which leaves `held'` open. -/
theorem InTurn.append {held held' : Nat} {u v : List α} (hu : InTurn opens closes held u)
    (hheld : held + u.countP opens = held' + u.countP closes) (hv : InTurn opens closes held' v) :
    InTurn opens closes held (u ++ v) := by
  intro p hp
  rcases List.prefix_or_prefix_of_prefix hp (List.prefix_append u v) with hin | ⟨q, rfl⟩
  · exact hu p hin
  · have := hv q ((List.prefix_append_right_inj u).1 hp)
    rw [List.countP_append, List.countP_append]
    omega

/-- What neither opens nor closes. -/
theorem InTurn.idle {held : Nat} {u : List α} (hheld : held ≤ 1) (hopens : u.countP opens = 0)
    (hcloses : u.countP closes = 0) : InTurn opens closes held u := by
  intro p hp
  have hopened : p.countP opens ≤ u.countP opens := hp.sublist.countP_le
  have hclosed : p.countP closes ≤ u.countP closes := hp.sublist.countP_le
  omega

theorem InTurn.opener {x : α} (hopens : opens x = true) (hcloses : closes x = false) :
    InTurn opens closes 0 [x] := by
  intro p hp
  rcases List.prefix_cons_iff.1 hp with rfl | ⟨q, rfl, hq⟩
  · exact ⟨le_rfl, Nat.zero_le _⟩
  · rw [List.prefix_nil.1 hq]
    simp [hopens, hcloses]

theorem InTurn.closer {x : α} (hopens : opens x = false) (hcloses : closes x = true) :
    InTurn opens closes 1 [x] := by
  intro p hp
  rcases List.prefix_cons_iff.1 hp with rfl | ⟨q, rfl, hq⟩
  · exact ⟨Nat.zero_le _, le_rfl⟩
  · rw [List.prefix_nil.1 hq]
    simp [hopens, hcloses]

end Oxydllm.Pairing
