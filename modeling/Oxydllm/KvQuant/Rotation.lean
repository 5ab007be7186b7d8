/-
# Oxydllm.KvQuant.Rotation — the rotation back undoes the rotation.

The loops of a stage do its butterflies in place, each on two entries no other one reads; `Halfway` is what they have
done so far. So a stage of the code is a stage of the index bits (`whtStage_spec`) and the transform all of them
(`whtInplace_spec`): linear, and twice done a multiple of the vector. Signs and scales come off in the other order.
-/
import Oxydllm.KvQuant.Quantizer
import Oxydllm.Lib.Butterfly

namespace Oxydllm.KvQuant

open Loop Butterfly

/-! ## The loop over the stages -/

section Loops

variable {K : Type} [Add K] [Sub K]

/-- What holds in front of the loop and is carried over each stage holds behind it. -/
theorem whtLoop_keeps {m n : Nat} {P : Nat → List K → Prop}
    (hstep : ∀ k < m, ∀ x, P k x → ∃ y, whtStage (2 ^ k) x = some y ∧ P (k + 1) y) :
    ∀ {k fuel : Nat} {x : List K}, k + n = m → n ≤ fuel → P k x → ∃ y, whtLoop (2 ^ m) fuel (2 ^ k) x = some y ∧ P m y := by
  induction n with
  | zero =>
      intro k fuel x hk _ h
      obtain rfl : k = m := hk
      refine ⟨x, ?_, h⟩
      cases fuel with
      | zero => rw [whtLoop, if_neg (lt_irrefl _)]
      | succ fuel => rw [whtLoop, if_neg (lt_irrefl _)]
  | succ n ih =>
      intro k fuel x hk hfuel h
      have hturn : 2 ^ k < 2 ^ m := Nat.pow_lt_pow_right (by decide) (by omega)
      cases fuel with
      | zero => exact absurd hfuel (Nat.not_succ_le_zero n)
      | succ fuel =>
          obtain ⟨y, hy, hP⟩ := hstep k (by omega) x h
          obtain ⟨z, hz, hend⟩ := @ih (k + 1) fuel y (by omega) (by omega) hP
          refine ⟨z, ?_, hend⟩
          rw [whtLoop, if_pos hturn, hy, Option.bind_some, ← pow_succ]
          exact hz

/-- A power of two of entries is as many stages as its bits. -/
theorem whtInplace_keeps {m : Nat} {P : Nat → List K → Prop}
    (hstep : ∀ k < m, ∀ x, P k x → ∃ y, whtStage (2 ^ k) x = some y ∧ P (k + 1) y) {x : List K} (hlen : x.length = 2 ^ m)
    (h : P 0 x) : ∃ y, whtInplace x = some y ∧ P m y := by
  have hloop := whtLoop_keeps hstep (Nat.zero_add m) Nat.lt_two_pow_self.le h
  rw [pow_zero] at hloop
  rw [whtInplace, hlen]
  exact hloop

/-- The number of blocks of a stage. -/
theorem stage_turns {c k : Nat} : (2 ^ (k + 1 + c) + 2 ^ k * 2 - 1) / (2 ^ k * 2) = 2 ^ c := by
  have hd : 2 ^ (k + 1 + c) = 2 ^ (k + 1) * 2 ^ c := pow_add 2 (k + 1) c
  have hpos : 0 < 2 ^ (k + 1) := Nat.two_pow_pos _
  rw [← pow_succ, hd]
  refine Nat.div_eq_of_lt_le ?_ ?_
  · rw [Nat.mul_comm]; omega
  · rw [Nat.succ_mul, Nat.mul_comm]; omega

theorem butterfly_length {half j : Nat} {x : List K} (h : j + half < x.length) :
    ∃ y, butterfly half x j = some y ∧ y.length = x.length := by
  have hj : j < x.length := Nat.lt_of_le_of_lt (Nat.le_add_right j half) h
  refine ⟨(x.set j (x[j] + x[j + half])).set (j + half) (x[j] - x[j + half]), ?_, by rw [List.length_set, List.length_set]⟩
  rw [butterfly, List.getElem?_eq_getElem hj, List.getElem?_eq_getElem h]
  show (setAt x j _).bind _ = _
  rw [setAt_eq hj, Option.bind_some, setAt_eq (by rwa [List.length_set])]

/-- Of a power of two of entries the transform keeps the number, whatever the sums are. -/
theorem whtInplace_length {m : Nat} {x : List K} (hlen : x.length = 2 ^ m) :
    ∃ y, whtInplace x = some y ∧ y.length = 2 ^ m := by
  refine whtInplace_keeps (P := fun _ (y : List K) => y.length = 2 ^ m) (fun k hk y hylen => ?_) hlen hlen
  obtain ⟨c, rfl⟩ : ∃ c, m = k + 1 + c := ⟨m - (k + 1), by omega⟩
  rw [whtStage, stepBy, hylen, stage_turns]
  refine times_keeps (P := fun _ (y : List K) => y.length = 2 ^ (k + 1 + c)) (fun t ht y hylen => ?_) hylen
  refine times_keeps (P := fun _ (y : List K) => y.length = 2 ^ (k + 1 + c)) (fun o ho y hylen => ?_) hylen
  have hblock : (t + 1) * (2 ^ k * 2) ≤ 2 ^ c * (2 ^ k * 2) := Nat.mul_le_mul_right _ ht
  have hd : 2 ^ (k + 1 + c) = 2 ^ c * (2 ^ k * 2) := by rw [← pow_succ, ← pow_add, Nat.add_comm]
  rw [Nat.succ_mul] at hblock
  have hpair : t * (2 ^ k * 2) + o + 2 ^ k < y.length := by omega
  obtain ⟨z, hz, hzlen⟩ := butterfly_length hpair
  exact ⟨z, hz, hzlen.trans hylen⟩

end Loops

section Transform

variable {K : Type} [CommRing K]

/-- A vector as a function, zero behind its end. -/
def entries (x : List K) : Nat → K := fun p => x.getD p 0

theorem entries_set {x : List K} {i : Nat} (hi : i < x.length) (v : K) (p : Nat) :
    entries (x.set i v) p = if p = i then v else entries x p := by
  rw [entries, List.getD_eq_getElem?_getD, List.getElem?_set]
  rcases eq_or_ne p i with rfl | hne
  · rw [if_pos rfl, if_pos rfl, if_pos hi, Option.getD_some]
  · rw [if_neg hne, if_neg hne.symm, entries, List.getD_eq_getElem?_getD]

theorem getElem?_entries {x : List K} {i : Nat} (hi : i < x.length) : x[i]? = some (entries x i) := by
  rw [entries, List.getD_eq_getElem?_getD, List.getElem?_eq_getElem hi, Option.getD_some]

theorem entries_of_le {x : List K} {p : Nat} (hp : x.length ≤ p) : entries x p = 0 := by
  rw [entries, List.getD_eq_getElem?_getD, List.getElem?_eq_none hp, Option.getD_none]

theorem ext_entries {x y : List K} (hlen : x.length = y.length) (h : entries x = entries y) : x = y := by
  refine List.ext_getElem hlen fun i hx hy => Option.some.inj ?_
  rw [← List.getElem?_eq_getElem hx, ← List.getElem?_eq_getElem hy, getElem?_entries hx, getElem?_entries hy, h]

theorem entries_map {x : List K} {f : K → K} (hf : f 0 = 0) : entries (x.map f) = fun p => f (entries x p) := by
  funext p
  rw [entries, List.getD_eq_getElem?_getD, List.getElem?_map, entries, List.getD_eq_getElem?_getD]
  cases x[p]? with
  | none => exact hf.symm
  | some v => rfl

theorem entries_map_mul (x : List K) (c : K) : entries (x.map (· * c)) = fun p => entries x p * c :=
  entries_map (zero_mul c)

theorem entries_mul_map (x : List K) (c : K) : entries (x.map (c * ·)) = fun p => c * entries x p :=
  entries_map (mul_zero c)

theorem entries_zipWith {x y : List K} {f : K → K → K} (hf : f 0 0 = 0) (hlen : x.length = y.length) :
    entries (List.zipWith f x y) = fun p => f (entries x p) (entries y p) := by
  funext p
  rcases Nat.lt_or_ge p x.length with hp | hp
  · rw [entries, List.getD_eq_getElem?_getD, List.getElem?_zipWith, getElem?_entries hp, getElem?_entries (hlen ▸ hp)]
    rfl
  · have hzip : (List.zipWith f x y).length ≤ p := by
      rw [List.length_zipWith]
      omega
    rw [entries_of_le hp, entries_of_le (hlen.ge.trans hp), entries_of_le hzip, hf]

/-! ## One stage -/

/-- `y` is `x` with the entries in `done` as the stage of bit `k` leaves them. -/
structure Halfway (k : Nat) (x : List K) (done : Nat → Prop) (y : List K) : Prop where
  length : y.length = x.length
  now : ∀ p, done p → entries y p = stage natBits k (entries x) p
  before : ∀ p, ¬ done p → entries y p = entries x p

section Stage

variable {k : Nat} {x y : List K} {done done' : Nat → Prop}

theorem Halfway.congr (h : Halfway k x done y) (hdone : ∀ p, done p ↔ done' p) : Halfway k x done' y where
  length := h.length
  now p hp := h.now p ((hdone p).2 hp)
  before p hp := h.before p (mt (hdone p).1 hp)

/-- A butterfly does the two entries of a pair. -/
theorem Halfway.butterfly (h : Halfway k x done y) {t o : Nat} (ho : o < 2 ^ k)
    (hfits : 2 ^ (k + 1) * t + o + 2 ^ k < x.length) (hfirst : ¬ done (2 ^ (k + 1) * t + o))
    (hsecond : ¬ done (2 ^ (k + 1) * t + o + 2 ^ k)) :
    ∃ z, butterfly (2 ^ k) y (2 ^ (k + 1) * t + o) = some z ∧
      Halfway k x (fun p => done p ∨ p = 2 ^ (k + 1) * t + o ∨ p = 2 ^ (k + 1) * t + o + 2 ^ k) z := by
  have hclear : natBits.bit k (2 ^ (k + 1) * t + o) = false := bit_first ho
  have hset : natBits.bit k (2 ^ (k + 1) * t + o + 2 ^ k) = true := bit_second ho
  have hup := flip_first (t := t) ho
  have hdown := flip_second (t := t) ho
  have hhalf : 0 < 2 ^ k := Nat.two_pow_pos k
  generalize 2 ^ (k + 1) * t + o = j at *
  have hj : j < y.length := by rw [h.length]; omega
  have hj' : j + 2 ^ k < (y.set j (entries y j + entries y (j + 2 ^ k))).length := by
    rw [List.length_set, h.length]
    exact hfits
  have hread : y[j + 2 ^ k]? = some (entries y (j + 2 ^ k)) := getElem?_entries (h.length ▸ hfits)
  refine ⟨(y.set j (entries y j + entries y (j + 2 ^ k))).set (j + 2 ^ k) (entries y j - entries y (j + 2 ^ k)), ?_, ?_⟩
  · rw [KvQuant.butterfly, getElem?_entries hj, hread]
    show (setAt y j _).bind _ = _
    rw [setAt_eq hj, Option.bind_some, setAt_eq hj']
  · have hentry : ∀ p, entries ((y.set j (entries y j + entries y (j + 2 ^ k))).set (j + 2 ^ k)
        (entries y j - entries y (j + 2 ^ k))) p =
          if p = j + 2 ^ k then entries x j - entries x (j + 2 ^ k)
          else if p = j then entries x j + entries x (j + 2 ^ k) else entries y p := by
      intro p
      rw [entries_set hj', entries_set hj, h.before j hfirst, h.before _ hsecond]
    refine ⟨by rw [List.length_set, List.length_set, h.length], fun p hp => ?_, fun p hp => ?_⟩
    · rw [hentry]
      by_cases hp2 : p = j + 2 ^ k
      · rw [if_pos hp2, hp2, stage_set hset, hdown]
      rw [if_neg hp2]
      by_cases hp1 : p = j
      · rw [if_pos hp1, hp1, stage_clear hclear, hup]
      rw [if_neg hp1]
      exact h.now p (hp.resolve_right (not_or.2 ⟨hp1, hp2⟩))
    · obtain ⟨hnot, hp1, hp2⟩ : ¬ done p ∧ p ≠ j ∧ p ≠ j + 2 ^ k :=
        ⟨fun hd => hp (.inl hd), fun he => hp (.inr (.inl he)), fun he => hp (.inr (.inr he))⟩
      rw [hentry, if_neg hp2, if_neg hp1, h.before p hnot]

/-- The innermost loop does a block. -/
theorem Halfway.block {t : Nat} (h : Halfway k x (· < 2 ^ (k + 1) * t) y) (hfits : 2 ^ (k + 1) * (t + 1) ≤ x.length) :
    ∃ z, times (2 ^ k) (fun y o => KvQuant.butterfly (2 ^ k) y (2 ^ (k + 1) * t + o)) y = some z ∧
      Halfway k x (· < 2 ^ (k + 1) * (t + 1)) z := by
  have hpow : 2 ^ (k + 1) = 2 ^ k + 2 ^ k := by rw [pow_succ]; omega
  have hnext : 2 ^ (k + 1) * (t + 1) = 2 ^ (k + 1) * t + 2 ^ k + 2 ^ k := by rw [Nat.mul_succ]; omega
  rw [hnext] at hfits ⊢
  have hhalf : 0 < 2 ^ k := Nat.two_pow_pos k
  -- done after `o` turns: the blocks before this one and the first `o` of either half of it
  obtain ⟨z, hz, hall⟩ := times_keeps
    (P := fun o => Halfway k x fun p => p < 2 ^ (k + 1) * t + o ∨
      (2 ^ (k + 1) * t + 2 ^ k ≤ p ∧ p < 2 ^ (k + 1) * t + 2 ^ k + o))
    (fun o ho y hy => by
      obtain ⟨z, hz, hafter⟩ := hy.butterfly (t := t) ho (by omega) (by omega) (by omega)
      exact ⟨z, hz, hafter.congr fun p => by omega⟩)
    (h.congr fun p => by omega)
  exact ⟨z, hz, hall.congr fun p => by omega⟩

theorem flip_ge {m p : Nat} (hk : k < m) (hp : 2 ^ m ≤ p) : 2 ^ m ≤ natBits.flip k p := by
  by_contra hlt
  have hback : natBits.flip k (natBits.flip k p) < 2 ^ m :=
    Nat.xor_lt_two_pow (Nat.lt_of_not_le hlt) (Nat.pow_lt_pow_right (by decide) hk)
  rw [natBits.flip_flip] at hback
  omega

theorem whtStage_spec {m : Nat} (hlen : x.length = 2 ^ m) (hk : k < m) :
    ∃ y, whtStage (2 ^ k) x = some y ∧ y.length = 2 ^ m ∧ entries y = stage natBits k (entries x) := by
  obtain ⟨c, rfl⟩ : ∃ c, m = k + 1 + c := ⟨m - (k + 1), by omega⟩
  have hd : 2 ^ (k + 1 + c) = 2 ^ (k + 1) * 2 ^ c := pow_add 2 (k + 1) c
  obtain ⟨y, hy, hall⟩ : ∃ y,
      times (2 ^ c) (fun x i => times (2 ^ k) (fun x o => butterfly (2 ^ k) x (i * (2 ^ k * 2) + o)) x) x = some y ∧
        Halfway k x (· < 2 ^ (k + 1) * 2 ^ c) y :=
    times_keeps (P := fun t => Halfway k x (· < 2 ^ (k + 1) * t))
      (fun t ht y hy => by
        have hblock := hy.block (by rw [hlen, hd]; exact Nat.mul_le_mul_left _ ht)
        rw [← pow_succ, Nat.mul_comm t]
        exact hblock)
      ⟨rfl, fun p hp => absurd hp (by omega), fun _ _ => rfl⟩
  refine ⟨y, ?_, hall.length.trans hlen, funext fun p => ?_⟩
  · rw [whtStage, stepBy, hlen, stage_turns]
    exact hy
  rcases Nat.lt_or_ge p (2 ^ (k + 1 + c)) with hp | hp
  · exact hall.now p (hd ▸ hp)
  · -- behind the end both of a pair are zero
    have hpartner : entries x (natBits.flip k p) = 0 := entries_of_le (hlen.le.trans (flip_ge hk hp))
    rw [hall.before p (by omega), stage, hpartner, entries_of_le (hlen.le.trans hp), sub_zero, add_zero, ite_self]

end Stage

/-! ## The transform -/

/-- On a power of two of entries the loop ends, having done the stages of all bits. -/
theorem whtInplace_spec {m : Nat} {x : List K} (hlen : x.length = 2 ^ m) :
    ∃ y, whtInplace x = some y ∧ y.length = 2 ^ m ∧ entries y = transform natBits (List.range m) (entries x) := by
  refine whtInplace_keeps (P := fun k (y : List K) => y.length = 2 ^ m ∧ entries y = transform natBits (List.range k) (entries x))
    (fun k hk y ⟨hylen, hent⟩ => ?_) hlen ⟨hlen, rfl⟩
  obtain ⟨z, hz, hzlen, hstage⟩ := whtStage_spec hylen hk
  exact ⟨z, hz, hzlen, by rw [hstage, hent, List.range_succ, transform_concat]⟩

/-- Twice done, it multiplies by the length. -/
theorem whtInplace_whtInplace {m : Nat} {x : List K} (hlen : x.length = 2 ^ m) :
    ∃ y, whtInplace x = some y ∧ y.length = 2 ^ m ∧ whtInplace y = some (x.map fun v => 2 ^ m * v) := by
  obtain ⟨y, hy, hylen, hent⟩ := whtInplace_spec hlen
  obtain ⟨z, hz, hzlen, hent'⟩ := whtInplace_spec hylen
  refine ⟨y, hy, hylen, hz.trans (congrArg some ?_)⟩
  refine ext_entries (by rw [List.length_map, hzlen, hlen]) ?_
  rw [hent', hent, transform_transform List.nodup_range, List.length_range, entries_mul_map]

/-- The transform of a linear combination. -/
theorem whtInplace_linear {m : Nat} {x y : List K} (hx : x.length = 2 ^ m) (hy : y.length = 2 ^ m) (a b : K) :
    ∃ u v, whtInplace x = some u ∧ whtInplace y = some v ∧
      whtInplace (List.zipWith (fun s t => a * s + b * t) x y) =
        some (List.zipWith (fun s t => a * s + b * t) u v) := by
  have hzero : a * 0 + b * 0 = (0 : K) := by rw [mul_zero, mul_zero, add_zero]
  have hlen : (List.zipWith (fun s t => a * s + b * t) x y).length = 2 ^ m := by
    rw [List.length_zipWith, hx, hy, Nat.min_self]
  obtain ⟨u, hu, hulen, huent⟩ := whtInplace_spec hx
  obtain ⟨v, hv, hvlen, hvent⟩ := whtInplace_spec hy
  obtain ⟨w, hw, hwlen, hwent⟩ := whtInplace_spec hlen
  refine ⟨u, v, hu, hv, hw.trans (congrArg some ?_)⟩
  refine ext_entries (by rw [hwlen, List.length_zipWith, hulen, hvlen, Nat.min_self]) ?_
  rw [hwent, entries_zipWith hzero (hx.trans hy.symm), entries_zipWith hzero (hulen.trans hvlen.symm), huent, hvent,
    transform_add, transform_mul, transform_mul]

theorem whtInplace_map_mul {m : Nat} {x y : List K} (hx : x.length = 2 ^ m) (hy : whtInplace x = some y) (c : K) :
    whtInplace (x.map (· * c)) = some (y.map (· * c)) := by
  obtain ⟨u, hu, hulen, huent⟩ := whtInplace_spec hx
  obtain ⟨w, hw, hwlen, hwent⟩ := whtInplace_spec (x := x.map (· * c)) (by rw [List.length_map, hx])
  obtain rfl := Option.some.inj (hy.symm.trans hu)
  refine hw.trans (congrArg some (ext_entries (by rw [hwlen, List.length_map, hulen]) ?_))
  have hout : transform natBits (List.range m) (fun p => entries x p * c) =
      fun p => transform natBits (List.range m) (entries x) p * c := by
    simp only [mul_comm _ c, transform_mul]
  rw [hwent, entries_map_mul, entries_map_mul, hout, huent]

end Transform

/-! ## Signs -/

section Signs

variable {K : Type} [CommRing K]

theorem signsFrom_length : ∀ (n : Nat) (state : UInt64), (signsFrom n state : List K).length = n
  | 0, _ => rfl
  | n + 1, state => congrArg (· + 1) (signsFrom_length n (xorshift64 state))

theorem signsFrom_sq {n : Nat} {state : UInt64} {s : K} (hs : s ∈ signsFrom n state) : s * s = 1 := by
  induction n generalizing state with
  | zero => exact absurd hs List.not_mem_nil
  | succ n ih =>
      rcases List.mem_cons.1 hs with rfl | hrest
      · split
        · rw [neg_mul_neg, one_mul]
        · rw [one_mul]
      · exact ih hrest

theorem generateSigns_length (n : Nat) : (generateSigns n : List K).length = n := signsFrom_length ..

theorem scaleBy_eq : ∀ {x s : List K}, x.length = s.length → scaleBy x s = List.zipWith (· * ·) x s
  | [], [], _ => rfl
  | _ :: _, _ :: _, h => congrArg (_ :: ·) (scaleBy_eq (Nat.succ.inj h))

theorem entries_generateSigns {n p : Nat} (hp : p < n) :
    entries (generateSigns n : List K) p * entries (generateSigns n : List K) p = 1 := by
  have hlt : p < (generateSigns n : List K).length := by rw [generateSigns_length]; exact hp
  exact signsFrom_sq (List.mem_of_getElem? (getElem?_entries hlt))

end Signs

/-! ## The rotation -/

section Rotation

variable {K : Type} [CommRing K] {bitWidth m : Nat} {qjl : Bool} {q : KvQuantizer K}

theorem useHadamard_of_two_pow (hq : Built bitWidth (2 ^ m) qjl q) : q.useHadamard = true := by
  rw [hq.useHadamard_eq, Nat.log2_two_pow]
  exact decide_eq_true ⟨(Nat.two_pow_pos m).ne', rfl⟩

/-- Undone, up to the scales. -/
theorem unrotate_rotate (hq : Built bitWidth (2 ^ m) qjl q) {x : List K} (hx : x.length = 2 ^ m) (invNorm norm : K) :
    ∃ y, q.rotate invNorm x = some y ∧ y.length = 2 ^ m ∧
      q.unrotate norm y = some (x.map fun v => q.invSqrtD * q.invSqrtD * 2 ^ m * (invNorm * norm) * v) := by
  have hhad := useHadamard_of_two_pow hq
  have hsigns : q.mseSigns.length = 2 ^ m := by rw [hq.mseSigns_eq, generateSigns_length]
  -- the signed vector and its transform
  have hscale : scaleBy (x.map (· * invNorm)) q.mseSigns = List.zipWith (· * ·) (x.map (· * invNorm)) q.mseSigns :=
    scaleBy_eq (by rw [List.length_map, hx, hsigns])
  generalize hsigned : List.zipWith (· * ·) (x.map (· * invNorm)) q.mseSigns = signed at hscale
  have hsignedLen : signed.length = 2 ^ m := by
    rw [← hsigned, List.length_zipWith, List.length_map, hx, hsigns, Nat.min_self]
  obtain ⟨u, hu, hulen, htwice⟩ := whtInplace_whtInplace hsignedLen
  have hback := whtInplace_map_mul hulen htwice q.invSqrtD
  refine ⟨u.map (· * q.invSqrtD), ?_, by rw [List.length_map, hulen], ?_⟩
  · rw [KvQuantizer.rotate, hscale, if_pos hhad, hu, Option.map_some]
  -- back: the signed vector comes out scaled, and the signs meet themselves
  have hlen : ((signed.map fun v => 2 ^ m * v).map (· * q.invSqrtD)).length =
      (q.mseSigns.map fun sign => q.invSqrtD * sign * norm).length := by
    rw [List.length_map, List.length_map, List.length_map, hsignedLen, hsigns]
  have hout : entries (q.mseSigns.map fun sign => q.invSqrtD * sign * norm) =
      fun p => q.invSqrtD * entries q.mseSigns p * norm := entries_map (by rw [mul_zero, zero_mul])
  rw [KvQuantizer.unrotate, if_pos hhad, hback, Option.map_some, scaleBy_eq hlen]
  refine congrArg some (ext_entries ?_ (funext fun p => ?_))
  · rw [List.length_zipWith, hlen, Nat.min_self, List.length_map, List.length_map, hsigns, hx]
  rw [entries_zipWith (zero_mul 0) hlen, hout, entries_map_mul, entries_mul_map, entries_mul_map, ← hsigned,
    entries_zipWith (zero_mul 0) (by rw [List.length_map, hx, hsigns]), entries_map_mul]
  rcases Nat.lt_or_ge p (2 ^ m) with hp | hp
  · have hsq : entries q.mseSigns p * entries q.mseSigns p = 1 := by
      rw [hq.mseSigns_eq]
      exact entries_generateSigns hp
    linear_combination (q.invSqrtD * q.invSqrtD * 2 ^ m * (invNorm * norm) * entries x p) * hsq
  · simp only [entries_of_le (hx.le.trans hp), zero_mul, mul_zero]

/-- Twice the transform multiplies by the length, it is linear, and the rotation back undoes the rotation of a vector,
exactly where the scales cancel. -/
theorem rotation_undone [Div K] (m : Nat) :
    (∀ x : List K, x.length = 2 ^ m → ∃ y, whtInplace x = some y ∧ y.length = 2 ^ m ∧
      whtInplace y = some (x.map fun v => 2 ^ m * v)) ∧
    (∀ (x y : List K) (a b : K), x.length = 2 ^ m → y.length = 2 ^ m →
      ∃ u v, whtInplace x = some u ∧ whtInplace y = some v ∧
        whtInplace (List.zipWith (fun s t => a * s + b * t) x y) =
          some (List.zipWith (fun s t => a * s + b * t) u v)) ∧
    ∀ (ν : Numerics K) (bitWidth : Nat) (qjl : Bool) (q : KvQuantizer K), newWithQjl ν bitWidth (2 ^ m) qjl = some q →
      ∀ (x : List K) (invNorm norm : K), x.length = 2 ^ m →
        ∃ y, q.rotate invNorm x = some y ∧
          q.unrotate norm y = some (x.map fun v => q.invSqrtD * q.invSqrtD * 2 ^ m * (invNorm * norm) * v) ∧
            (q.invSqrtD * q.invSqrtD * 2 ^ m = 1 → invNorm * norm = 1 → q.unrotate norm y = some x) := by
  refine ⟨fun x hx => whtInplace_whtInplace hx, fun x y a b hx hy => whtInplace_linear hx hy a b,
    fun ν bitWidth qjl q hq x invNorm norm hx => ?_⟩
  obtain ⟨y, hy, -, hback⟩ := unrotate_rotate (newWithQjl_built hq) hx invNorm norm
  refine ⟨y, hy, hback, fun hroot hnorm => hback.trans ?_⟩
  simp only [hroot, hnorm, one_mul, List.map_id']

/-- Rational arithmetic with a root that is right for four. -/
def ratNumerics : Numerics ℚ where
  lit := id
  sqrt _ := 2
  pi := 22 / 7

/-- A vector of length five. -/
theorem rotation_undone_four :
    ∃ q y, newWithQjl ratNumerics 4 4 true = some q ∧ q.rotate (1 / 5) [3, 0, -4, 0] = some y ∧
      q.unrotate 5 y = some [3, 0, -4, 0] := by
  obtain ⟨q, hq⟩ : ∃ q, newWithQjl ratNumerics 4 (2 ^ 2) true = some q := ⟨_, rfl⟩
  obtain ⟨y, hy, -, hback⟩ := (rotation_undone 2).2.2 ratNumerics 4 true q hq [3, 0, -4, 0] (1 / 5) 5 rfl
  have hroot : q.invSqrtD = 1 / 2 := by
    obtain rfl := Option.some.inj hq
    rfl
  exact ⟨q, y, hq, hy, hback (by rw [hroot]; norm_num) (by norm_num)⟩

end Rotation

end Oxydllm.KvQuant
