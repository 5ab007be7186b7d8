/-
# Oxydllm.Lib.Tracks — two decoders that go through a buffer together.

`Tracks` relates decoders that fail together and otherwise stop at the same place with related values, the
errors set aside. `Extends` is for a decoder with less room than another: it does the same unless it fails
for want of room; `Roomy` says that the room was enough. `Checks` is for a decoder that refuses some of the
values another reads.
-/
import Oxydllm.Lib.Decoder

namespace Oxydllm.Decoder

variable {β ε ε' α γ σ δ : Type}

/-- A state through some rounds. -/
def loop (f : σ → Decoder β ε σ) : Nat → σ → Decoder β ε σ
  | 0, s => pure s
  | n + 1, s => do
      let s ← f s
      loop f n s

/-! ## Decoders that do the same -/

/-- Related values at the same place, or two failures. -/
inductive Alike (R : α → γ → Prop) : Except ε (α × Nat) → Except ε' (γ × Nat) → Prop
  | ok {x : α} {y : γ} {i : Nat} : R x y → Alike R (.ok (x, i)) (.ok (y, i))
  | error {e : ε} {e' : ε'} : Alike R (.error e) (.error e')

def Tracks (R : α → γ → Prop) (f : Decoder β ε α) (g : Decoder β ε' γ) : Prop := ∀ b i, Alike R (f b i) (g b i)

namespace Tracks

theorem pure {R : α → γ → Prop} {x : α} {y : γ} (h : R x y) :
    Tracks R (Pure.pure x : Decoder β ε α) (Pure.pure y : Decoder β ε' γ) :=
  fun _ _ => .ok h

theorem fail (R : α → γ → Prop) (e : ε) (e' : ε') :
    Tracks R (Decoder.fail e : Decoder β ε α) (Decoder.fail e' : Decoder β ε' γ) :=
  fun _ _ => .error

theorem take (err : Nat → Nat → ε) (err' : Nat → Nat → ε') (n : Nat) :
    Tracks Eq (Decoder.take err n : Decoder β ε (List β)) (Decoder.take err' n) := by
  intro b i
  unfold Decoder.take
  split
  · exact .ok rfl
  · exact .error

theorem bind {R : α → γ → Prop} {S : σ → δ → Prop} {f : Decoder β ε α} {g : Decoder β ε' γ}
    {f' : α → Decoder β ε σ} {g' : γ → Decoder β ε' δ} (h : Tracks R f g)
    (h' : ∀ x y, R x y → Tracks S (f' x) (g' y)) : Tracks S (f >>= f') (g >>= g') := by
  intro b i
  show Alike S (f b i >>= fun r => f' r.1 b r.2) (g b i >>= fun r => g' r.1 b r.2)
  have hfirst := h b i
  generalize f b i = r at hfirst
  generalize g b i = r' at hfirst
  cases hfirst with
  | ok hR => exact h' _ _ hR b _
  | error => exact .error

/-- Decoders with the same first step. -/
theorem bind_eq {S : σ → δ → Prop} {f : Decoder β ε α} {g : Decoder β ε' α} {f' : α → Decoder β ε σ}
    {g' : α → Decoder β ε' δ} (h : Tracks Eq f g) (h' : ∀ x, Tracks S (f' x) (g' x)) :
    Tracks S (f >>= f') (g >>= g') :=
  h.bind fun x _ hxy => hxy ▸ h' x

/-- The first decoder's value changed. -/
theorem map_left {R : α → γ → Prop} {S : σ → γ → Prop} {f : Decoder β ε α} {g : Decoder β ε' γ} (h : Tracks R f g)
    {m : α → σ} (hm : ∀ x y, R x y → S (m x) y) : Tracks S (f >>= fun x => Pure.pure (m x)) g := by
  intro b i
  show Alike S (f b i >>= fun r => Except.ok (m r.1, r.2)) (g b i)
  have hfirst := h b i
  generalize f b i = r at hfirst
  generalize g b i = r' at hfirst
  cases hfirst with
  | ok hR => exact .ok (hm _ _ hR)
  | error => exact .error

/-- The second decoder's value changed. -/
theorem map_right {R : α → γ → Prop} {S : α → σ → Prop} {f : Decoder β ε α} {g : Decoder β ε' γ}
    (h : Tracks R f g) {m : γ → σ} (hm : ∀ x y, R x y → S x (m y)) :
    Tracks S f (g >>= fun y => Pure.pure (m y)) := by
  intro b i
  show Alike S (f b i) (g b i >>= fun r => Except.ok (m r.1, r.2))
  have hfirst := h b i
  generalize f b i = r at hfirst
  generalize g b i = r' at hfirst
  cases hfirst with
  | ok hR => exact .ok (hm _ _ hR)
  | error => exact .error

theorem mono {R S : α → γ → Prop} {f : Decoder β ε α} {g : Decoder β ε' γ} (h : Tracks R f g)
    (hm : ∀ x y, R x y → S x y) : Tracks S f g := by
  intro b i
  have hboth := h b i
  generalize f b i = r at hboth
  generalize g b i = r' at hboth
  cases hboth with
  | ok hR => exact .ok (hm _ _ hR)
  | error => exact .error

theorem mapError {R : α → γ → Prop} {f : Decoder β ε α} {g : Decoder β ε' γ} (h : Tracks R f g) (m : ε → ε) :
    Tracks R (Decoder.mapError m f) g := by
  intro b i
  show Alike R ((f b i).mapError m) (g b i)
  have hfirst := h b i
  generalize f b i = r at hfirst
  generalize g b i = r' at hfirst
  cases hfirst with
  | ok hR => exact .ok hR
  | error => exact .error

/-- A loop over a state, beside the list of what it goes through. -/
theorem loop {step : σ → α → σ} {f : Decoder β ε α} {g : σ → Decoder β ε' σ}
    (h : ∀ s, Tracks (fun x s' => s' = step s x) f (g s)) (n : Nat) (s : σ) :
    Tracks (fun xs s' => s' = xs.foldl step s) (Decoder.times f n) (Decoder.loop g n s) := by
  induction n generalizing s with
  | zero => exact Tracks.pure rfl
  | succ n ih =>
      refine (h s).bind fun x s' hs => ?_
      subst hs
      intro b i
      show Alike _ (Decoder.times f n b i >>= fun r => Except.ok (x :: r.1, r.2)) (Decoder.loop g n (step s x) b i)
      have hrest := ih (step s x) b i
      generalize Decoder.times f n b i = r at hrest
      generalize Decoder.loop g n (step s x) b i = r' at hrest
      cases hrest with
      | ok hs => exact .ok hs
      | error => exact .error

/-- What the second does when the first succeeds. -/
theorem ok_right {R : α → γ → Prop} {f : Decoder β ε α} {g : Decoder β ε' γ} (h : Tracks R f g) {b : List β}
    {i j : Nat} {x : α} (hf : f b i = .ok (x, j)) : ∃ y, g b i = .ok (y, j) ∧ R x y := by
  have hboth := h b i
  rw [hf] at hboth
  generalize g b i = r at hboth
  cases hboth with
  | ok hR => exact ⟨_, rfl, hR⟩

theorem error_right {R : α → γ → Prop} {f : Decoder β ε α} {g : Decoder β ε' γ} (h : Tracks R f g) {b : List β}
    {i : Nat} {e : ε} (hf : f b i = .error e) : ∃ e', g b i = .error e' := by
  have hboth := h b i
  rw [hf] at hboth
  generalize g b i = r at hboth
  cases hboth with
  | error => exact ⟨_, rfl⟩

end Tracks

/-! ## Decoders that check more -/

/-- Whatever a decoder reads has a property. -/
def Yields (P : α → Prop) (f : Decoder β ε α) : Prop := ∀ b i x j, f b i = .ok (x, j) → P x

namespace Yields

theorem pure {P : α → Prop} {x : α} (h : P x) : Yields P (Pure.pure x : Decoder β ε α) := by
  intro b i y j hy
  cases hy
  exact h

theorem bind {P : α → Prop} {Q : γ → Prop} {f : Decoder β ε α} {g : α → Decoder β ε γ} (h : Yields P f)
    (h' : ∀ x, P x → Yields Q (g x)) : Yields Q (f >>= g) := by
  intro b i y j hy
  have hstep : (f b i >>= fun r => g r.1 b r.2) = .ok (y, j) := hy
  have hfirst := h b i
  generalize f b i = r at hstep hfirst
  cases r with
  | error _ => cases hstep
  | ok r => exact h' r.1 (hfirst r.1 r.2 rfl) b r.2 y j hstep

theorem any (f : Decoder β ε α) : Yields (fun _ => True) f := fun _ _ _ _ _ => trivial

theorem times (f : Decoder β ε α) (n : Nat) : Yields (fun xs => xs.length = n) (Decoder.times f n) := by
  induction n with
  | zero => exact pure rfl
  | succ n ih => exact (any f).bind fun x _ => ih.bind fun xs hxs => pure (congrArg Nat.succ hxs)

end Yields

/-- Related values, of which the second has a property; a failure beside a value that lacks it; or two
failures. -/
inductive Kept (R : α → γ → Prop) (P : γ → Prop) : Except ε (α × Nat) → Except ε (γ × Nat) → Prop
  | ok {x : α} {y : γ} {i : Nat} : R x y → P y → Kept R P (.ok (x, i)) (.ok (y, i))
  | dropped {e : ε} {y : γ} {i : Nat} : ¬ P y → Kept R P (.error e) (.ok (y, i))
  | error {e e' : ε} : Kept R P (.error e) (.error e')

/-- The first decoder reads those values of the second that have a property. -/
def Checks (R : α → γ → Prop) (P : γ → Prop) (f : Decoder β ε α) (g : Decoder β ε γ) : Prop :=
  ∀ b i, Kept R P (f b i) (g b i)

namespace Checks

variable {R : α → γ → Prop} {P : γ → Prop}

theorem refl {P : α → Prop} {f : Decoder β ε α} (h : Yields P f) : Checks Eq P f f := by
  intro b i
  have hread := h b i
  generalize f b i = r at hread
  cases r with
  | error e => exact .error
  | ok r => exact .ok rfl (hread r.1 r.2 rfl)

theorem fail (e : ε) {g : Decoder β ε γ} (h : Yields (fun y => ¬ P y) g) : Checks R P (Decoder.fail e) g := by
  intro b i
  have hread := h b i
  generalize g b i = r at hread
  cases r with
  | error e => exact .error
  | ok r => exact .dropped (hread r.1 r.2 rfl)

theorem bind_eq {f : Decoder β ε σ} {f' : σ → Decoder β ε α} {g' : σ → Decoder β ε γ}
    (h : ∀ x, Checks R P (f' x) (g' x)) : Checks R P (f >>= f') (f >>= g') := by
  intro b i
  show Kept R P (f b i >>= fun r => f' r.1 b r.2) (f b i >>= fun r => g' r.1 b r.2)
  generalize f b i = r
  cases r with
  | error _ => exact .error
  | ok r => exact h r.1 b r.2

theorem map {Q : σ → Prop} {S : α → σ → Prop} {f g : Decoder β ε γ} (h : Checks Eq P f g) {m : γ → α} {m' : γ → σ}
    (hS : ∀ y, S (m y) (m' y)) (hQ : ∀ y, Q (m' y) ↔ P y) :
    Checks S Q (f >>= fun y => Pure.pure (m y)) (g >>= fun y => Pure.pure (m' y)) := by
  intro b i
  show Kept S Q (f b i >>= fun r => Except.ok (m r.1, r.2)) (g b i >>= fun r => Except.ok (m' r.1, r.2))
  have hfirst := h b i
  generalize f b i = r at hfirst
  generalize g b i = r' at hfirst
  cases hfirst with
  | ok heq hP =>
      subst heq
      exact .ok (hS _) ((hQ _).2 hP)
  | dropped hP => exact .dropped fun hq => hP ((hQ _).1 hq)
  | error => exact .error

theorem times {P : α → Prop} {f g : Decoder β ε α} (h : Checks Eq P f g) (n : Nat) :
    Checks Eq (fun xs => ∀ x ∈ xs, P x) (Decoder.times f n) (Decoder.times g n) := by
  induction n with
  | zero => exact refl (.pure fun x hx => absurd hx List.not_mem_nil)
  | succ n ih =>
      intro b i
      show Kept _ _ (f b i >>= fun r => Decoder.times f n b r.2 >>= fun r' => Except.ok (r.1 :: r'.1, r'.2))
        (g b i >>= fun r => Decoder.times g n b r.2 >>= fun r' => Except.ok (r.1 :: r'.1, r'.2))
      have hfirst := h b i
      generalize f b i = r at hfirst
      generalize g b i = r' at hfirst
      cases hfirst with
      | error => exact .error
      | @ok x y j heq hP =>
          subst heq
          show Kept _ _ (Decoder.times f n b j >>= fun r' => Except.ok (x :: r'.1, r'.2))
            (Decoder.times g n b j >>= fun r' => Except.ok (x :: r'.1, r'.2))
          have hrest := ih b j
          generalize Decoder.times f n b j = r at hrest
          generalize Decoder.times g n b j = r' at hrest
          cases hrest with
          | ok heq hPs =>
              subst heq
              exact .ok rfl (List.forall_mem_cons.2 ⟨hP, hPs⟩)
          | dropped hPs => exact .dropped fun hall => hPs (List.forall_mem_cons.1 hall).2
          | error => exact .error
      | @dropped e y j hP =>
          show Kept _ _ (.error e) (Decoder.times g n b j >>= fun r' => Except.ok (y :: r'.1, r'.2))
          generalize Decoder.times g n b j = r'
          cases r' with
          | error _ => exact .error
          | ok r' => exact .dropped fun hall => hP (List.forall_mem_cons.1 hall).1

end Checks

/-! ## Decoders with more room -/

/-- The second does what the first does, unless that fails with the error given. -/
def Extends (e : ε) (f g : Decoder β ε α) : Prop := ∀ b i, f b i ≠ .error e → g b i = f b i

namespace Extends

variable {e : ε}

theorem refl (f : Decoder β ε α) : Extends e f f := fun _ _ _ => rfl

theorem fail (g : Decoder β ε α) : Extends e (Decoder.fail e) g := fun _ _ h => absurd rfl h

theorem bind {f g : Decoder β ε α} {f' g' : α → Decoder β ε γ} (h : Extends e f g)
    (h' : ∀ x, Extends e (f' x) (g' x)) : Extends e (f >>= f') (g >>= g') := by
  intro b i
  show (f b i >>= fun r => f' r.1 b r.2) ≠ _ → (g b i >>= fun r => g' r.1 b r.2) = f b i >>= fun r => f' r.1 b r.2
  intro hne
  have hfirst : g b i = f b i := h b i fun hf => hne (by rw [hf]; rfl)
  rw [hfirst]
  generalize f b i = r at hne
  cases r with
  | error _ => rfl
  | ok r => exact h' r.1 b r.2 hne

theorem loop {f g : σ → Decoder β ε σ} (h : ∀ s, Extends e (f s) (g s)) (n : Nat) (s : σ) :
    Extends e (Decoder.loop f n s) (Decoder.loop g n s) := by
  induction n generalizing s with
  | zero => exact refl _
  | succ n ih => exact (h s).bind fun s' => ih s'

end Extends

/-- With fewer than `room` elements left the decoder does not fail with the error given, and where it stops
there are none fewer than none. -/
def Roomy (e : ε) (room : Nat) (f : Decoder β ε α) : Prop :=
  ∀ b i, i ≤ b.length → b.length < i + room → f b i ≠ .error e ∧ ∀ x j, f b i = .ok (x, j) → i ≤ j ∧ j ≤ b.length

namespace Roomy

variable {e : ε} {room : Nat}

theorem pure (x : α) : Roomy e room (Pure.pure x : Decoder β ε α) := by
  intro b i hi _
  refine ⟨(fun h => by cases h), fun y j h => ?_⟩
  cases h
  exact ⟨Nat.le_refl _, hi⟩

theorem fail {e' : ε} (h : e' ≠ e) : Roomy e room (Decoder.fail e' : Decoder β ε α) := by
  intro b i _ _
  exact ⟨fun he => h (Except.error.inj he), fun x j h => by cases h⟩

theorem take {err : Nat → Nat → ε} (herr : ∀ i n, err i n ≠ e) (n : Nat) :
    Roomy e room (Decoder.take err n : Decoder β ε (List β)) := by
  intro b i hi _
  unfold Decoder.take
  split
  next hlen =>
    refine ⟨(fun h => by cases h), fun x j h => ?_⟩
    cases h
    exact ⟨Nat.le_add_right _ _, hlen⟩
  next => exact ⟨fun h => herr _ _ (Except.error.inj h), fun x j h => by cases h⟩

theorem bind {f : Decoder β ε α} {g : α → Decoder β ε γ} (h : Roomy e room f) (h' : ∀ x, Roomy e room (g x)) :
    Roomy e room (f >>= g) := by
  intro b i hi hroom
  show (f b i >>= fun r => g r.1 b r.2) ≠ _ ∧ ∀ y j, (f b i >>= fun r => g r.1 b r.2) = .ok (y, j) → _
  obtain ⟨hne, hpos⟩ := h b i hi hroom
  generalize f b i = r at hne hpos
  cases r with
  | error e' => exact ⟨fun h => hne (congrArg Except.error (Except.error.inj h)), fun y j h => by cases h⟩
  | ok r =>
      obtain ⟨hle, hlen⟩ := hpos r.1 r.2 rfl
      obtain ⟨hne', hpos'⟩ := h' r.1 b r.2 hlen (by omega)
      exact ⟨hne', fun y j hy => ⟨hle.trans (hpos' y j hy).1, (hpos' y j hy).2⟩⟩

theorem loop {f : σ → Decoder β ε σ} (h : ∀ s, Roomy e room (f s)) (n : Nat) (s : σ) :
    Roomy e room (Decoder.loop f n s) := by
  induction n generalizing s with
  | zero => exact pure s
  | succ n ih => exact (h s).bind fun s' => ih s'

/-- Behind something of the buffer less room is enough. -/
theorem step_bind {f : Decoder β ε α} {g : α → Decoder β ε γ} (h : Roomy e (room + 1) f)
    (hstep : ∀ b i x j, f b i = .ok (x, j) → i < j) (h' : ∀ x, Roomy e room (g x)) :
    Roomy e (room + 1) (f >>= g) := by
  intro b i hi hroom
  show (f b i >>= fun r => g r.1 b r.2) ≠ _ ∧ ∀ y j, (f b i >>= fun r => g r.1 b r.2) = .ok (y, j) → _
  obtain ⟨hne, hpos⟩ := h b i hi hroom
  have hlt := hstep b i
  generalize f b i = r at hne hpos hlt
  cases r with
  | error e' => exact ⟨fun h => hne (congrArg Except.error (Except.error.inj h)), fun y j h => by cases h⟩
  | ok r =>
      have hless := hlt r.1 r.2 rfl
      obtain ⟨hne', hpos'⟩ := h' r.1 b r.2 (hpos r.1 r.2 rfl).2 (by omega)
      exact ⟨hne', fun y j hy => ⟨hless.le.trans (hpos' y j hy).1, (hpos' y j hy).2⟩⟩

end Roomy

end Oxydllm.Decoder
