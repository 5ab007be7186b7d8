/-
# Oxydllm.Decoder — decoders of a buffer, with an error where it ends too early.

A decoder goes through a buffer from a position on and returns a value and the position behind it, or
fails. It reads a word as a value when it does so wherever the word stands, whatever comes behind, and
fails on every strict beginning of the word that ends the buffer. Decoders in sequence read words in
sequence.
-/
import Mathlib.Data.List.Infix
import Mathlib.Tactic

namespace Oxydllm

/-- A decoder of `β`s that fails with an `ε`. -/
abbrev Decoder (β ε : Type) := ReaderT (List β) (StateT Nat (Except ε))

namespace Decoder

variable {β ε α γ : Type}

/-- The next `n` elements, or an error about the position and the length of the buffer. -/
def take (err : Nat → Nat → ε) (n : Nat) : Decoder β ε (List β) := fun b i =>
  if i + n ≤ b.length then .ok ((b.drop i).take n, i + n) else .error (err i b.length)

def fail (e : ε) : Decoder β ε α := fun _ _ => .error e

def mapError (h : ε → ε) (f : Decoder β ε α) : Decoder β ε α := fun b i => (f b i).mapError h

/-- One value behind another, `n` of them. -/
def times (f : Decoder β ε α) : Nat → Decoder β ε (List α)
  | 0 => pure []
  | n + 1 => do
      let x ← f
      let xs ← times f n
      pure (x :: xs)

/-- `f` reads `w` as `x`. -/
structure Reads (f : Decoder β ε α) (w : List β) (x : α) : Prop where
  whole : ∀ front back, f (front ++ w ++ back) front.length = .ok (x, front.length + w.length)
  cut : ∀ front u, u <+: w → u ≠ w → ∃ e, f (front ++ u) front.length = .error e

namespace Reads

theorem pure (x : α) : Reads (Pure.pure x : Decoder β ε α) [] x :=
  ⟨fun _ _ => rfl, fun _ _ hu hne => absurd (List.prefix_nil.1 hu) hne⟩

theorem bind {f : Decoder β ε α} {g : α → Decoder β ε γ} {u v : List β} {x : α} {y : γ}
    (hf : Reads f u x) (hg : Reads (g x) v y) : Reads (f >>= g) (u ++ v) y := by
  constructor
  · intro front back
    show (f (front ++ (u ++ v) ++ back) front.length >>= fun r => g r.1 _ r.2) = _
    have hwhole := hf.whole front (v ++ back)
    have hrest := hg.whole (front ++ u) back
    simp only [List.append_assoc, List.length_append] at hwhole hrest ⊢
    rw [hwhole]
    show g x _ _ = _
    rw [hrest, Nat.add_assoc]
  · intro front w hw hne
    show ∃ e, (f (front ++ w) front.length >>= fun r => g r.1 _ r.2) = .error e
    -- the cut is in the first word, or behind it
    rcases List.prefix_or_prefix_of_prefix hw (List.prefix_append u v) with hin | ⟨cut, rfl⟩
    · by_cases hwu : w = u
      · have hcut := hg.cut (front ++ w) [] List.nil_prefix (by
          rintro rfl
          exact hne (by rw [hwu, List.append_nil]))
        have hwhole := hf.whole front []
        rw [List.append_nil, List.length_append] at hcut
        rw [List.append_nil, ← hwu] at hwhole
        rw [hwhole]
        exact hcut
      · obtain ⟨e, he⟩ := hf.cut front w hin hwu
        rw [he]
        exact ⟨e, rfl⟩
    · have hcut := hg.cut (front ++ u) cut ((List.prefix_append_right_inj u).1 hw)
        (fun hc => hne (by rw [hc]))
      have hwhole := hf.whole front cut
      rw [List.length_append] at hcut
      rw [← List.append_assoc, hwhole]
      exact hcut

/-- Behind the word nothing is left to read. -/
theorem last {f : Decoder β ε α} {g : α → Decoder β ε γ} {w : List β} {x : α} {y : γ} (hf : Reads f w x)
    (hg : Reads (g x) [] y) : Reads (f >>= g) w y := by
  have := hf.bind hg
  rwa [List.append_nil] at this

theorem map {f : Decoder β ε α} {w : List β} {x : α} (hf : Reads f w x) (g : α → γ) :
    Reads (do let y ← f; Pure.pure (g y)) w (g x) :=
  hf.last (g := fun y => Pure.pure (g y)) (Reads.pure (g x))

theorem take (err : Nat → Nat → ε) (w : List β) : Reads (Decoder.take err w.length) w w := by
  constructor
  · intro front back
    unfold Decoder.take
    rw [if_pos (by simp only [List.length_append]; omega), List.append_assoc, List.drop_left,
      List.take_left]
  · intro front u hu hne
    have hlt : u.length < w.length :=
      lt_of_le_of_ne hu.length_le fun hlen => hne (hu.eq_of_length hlen)
    unfold Decoder.take
    rw [if_neg (by simp only [List.length_append]; omega)]
    exact ⟨_, rfl⟩

theorem mapError {f : Decoder β ε α} {w : List β} {x : α} (hf : Reads f w x) (h : ε → ε) :
    Reads (Decoder.mapError h f) w x := by
  constructor
  · intro front back
    unfold Decoder.mapError
    rw [hf.whole]
    rfl
  · intro front u hu hne
    obtain ⟨e, he⟩ := hf.cut front u hu hne
    unfold Decoder.mapError
    rw [he]
    exact ⟨_, rfl⟩

/-- The values of a list, each read from its own word. -/
theorem times {f : Decoder β ε α} {enc : α → List β} {xs : List α} (h : ∀ x ∈ xs, Reads f (enc x) x) :
    Reads (Decoder.times f xs.length) (xs.flatMap enc) xs := by
  induction xs with
  | nil => exact Reads.pure []
  | cons x xs ih =>
      rw [List.flatMap_cons]
      exact (h x List.mem_cons_self).bind ((ih fun y hy => h y (List.mem_cons_of_mem x hy)).map (x :: ·))

end Reads

end Decoder

/-! ## Little-endian numbers -/

namespace LittleEndian

/-- The number of some bytes, the lowest first. -/
def fromLe : List UInt8 → Nat
  | [] => 0
  | b :: w => b.toNat + 256 * fromLe w

/-- The `k` lowest bytes of a number. -/
def toLe : Nat → Nat → List UInt8
  | 0, _ => []
  | k + 1, n => .ofNat n :: toLe k (n / 256)

theorem length_toLe (k n : Nat) : (toLe k n).length = k := by
  induction k generalizing n with
  | zero => rfl
  | succ k ih => rw [toLe, List.length_cons, ih]

theorem fromLe_toLe {k n : Nat} (h : n < 256 ^ k) : fromLe (toLe k n) = n := by
  induction k generalizing n with
  | zero =>
      rw [pow_zero] at h
      rw [Nat.lt_one_iff.1 h]
      rfl
  | succ k ih =>
      rw [pow_succ'] at h
      rw [toLe, fromLe, ih (Nat.div_lt_of_lt_mul h), UInt8.toNat_ofNat']
      exact Nat.mod_add_div n 256

end LittleEndian

end Oxydllm
