/-
# Oxydllm.Lib.BitStream — fields of a few bits in a string of bytes.

Bit `p` of the bytes is bit `p % 8` of byte `p / 8`. Fields of `b` bits are packed when bit `p` is bit `p % b` of field
`p / b` and the bytes end with the last of them; they are unpacked by reading these bits again. Of fields that fit in
`b` bits nothing is lost (`Unpacked.eq_of_packed`).
-/
import Mathlib.Data.List.Basic
import Mathlib.Tactic

namespace Oxydllm.BitStream

variable {bytes fields : List (BitVec 8)} {b n : Nat}

/-! ## Bits -/

/-- Byte `i`, or field `i`; zero behind the end. -/
def byteAt (bytes : List (BitVec 8)) (i : Nat) : BitVec 8 := bytes.getD i 0

def bitAt (bytes : List (BitVec 8)) (p : Nat) : Bool := (byteAt bytes (p / 8)).getLsbD (p % 8)

theorem getElem?_byteAt {i : Nat} (hi : i < bytes.length) : bytes[i]? = some (byteAt bytes i) := by
  rw [byteAt, List.getD_eq_getElem?_getD, List.getElem?_eq_getElem hi, Option.getD_some]

theorem byteAt_set {i : Nat} (hi : i < bytes.length) (v : BitVec 8) (j : Nat) :
    byteAt (bytes.set i v) j = if j = i then v else byteAt bytes j := by
  rw [byteAt, List.getD_eq_getElem?_getD, List.getElem?_set]
  rcases eq_or_ne j i with rfl | hne
  · rw [if_pos rfl, if_pos rfl, if_pos hi, Option.getD_some]
  · rw [if_neg hne, if_neg hne.symm, byteAt, List.getD_eq_getElem?_getD]

theorem byteAt_zeros (n i : Nat) : byteAt (List.replicate n 0) i = 0 := by
  rw [byteAt, List.getD_eq_getElem?_getD, List.getElem?_replicate]
  split <;> rfl

theorem bitAt_zeros (n p : Nat) : bitAt (List.replicate n 0) p = false := by
  rw [bitAt, byteAt_zeros]
  exact BitVec.getLsbD_zero

theorem bitAt_set {i : Nat} (hi : i < bytes.length) (v : BitVec 8) (p : Nat) :
    bitAt (bytes.set i v) p = if p / 8 = i then v.getLsbD (p % 8) else bitAt bytes p := by
  rw [bitAt, byteAt_set hi, apply_ite (BitVec.getLsbD · (p % 8))]
  rfl

theorem getLsbD_byteAt {i q : Nat} (hq : q < 8) : (byteAt bytes i).getLsbD q = bitAt bytes (8 * i + q) := by
  rw [bitAt, Nat.mul_add_div (by decide), Nat.div_eq_of_lt hq, Nat.add_zero, Nat.mul_add_mod, Nat.mod_eq_of_lt hq]

theorem bitAt_or {i : Nat} (hi : i < bytes.length) (v : BitVec 8) (p : Nat) :
    bitAt (bytes.set i (byteAt bytes i ||| v)) p = (bitAt bytes p || (decide (p / 8 = i) && v.getLsbD (p % 8))) := by
  rw [bitAt_set hi]
  by_cases hp : p / 8 = i
  · rw [if_pos hp, decide_eq_true hp, Bool.true_and, BitVec.getLsbD_or, bitAt, hp]
  · rw [if_neg hp, decide_eq_false hp, Bool.false_and, Bool.or_false]

/-- The bits of a byte from bit `s % 8` on. -/
theorem getLsbD_byteAt_shift {s t : Nat} (h : s % 8 + t < 8) :
    (byteAt bytes (s / 8) >>> (s % 8)).getLsbD t = bitAt bytes (s + t) := by
  rw [BitVec.getLsbD_ushiftRight, getLsbD_byteAt h]
  congr 1
  omega

/-- The lowest `b` bits. -/
theorem getLsbD_mask (hb : b ≤ 8) (v : BitVec 8) (t : Nat) :
    (v &&& BitVec.ofNat 8 (2 ^ b - 1)).getLsbD t = (decide (t < b) && v.getLsbD t) := by
  rw [BitVec.getLsbD_and, BitVec.getLsbD_ofNat, Nat.testBit_two_pow_sub_one]
  by_cases ht : t < b
  · rw [decide_eq_true ht, decide_eq_true (ht.trans_le hb), Bool.true_and, Bool.and_true, Bool.true_and]
  · rw [decide_eq_false ht, Bool.and_false, Bool.and_false, Bool.false_and]

/-- A field that lies in one byte, from bit `k` of it on. -/
theorem getLsbD_field (hb : b ≤ 8) {i k s : Nat} (hs : 8 * i + k = s) (hin : k + b ≤ 8) (t : Nat) :
    ((byteAt bytes i >>> k) &&& BitVec.ofNat 8 (2 ^ b - 1)).getLsbD t = (decide (t < b) && bitAt bytes (s + t)) := by
  rw [getLsbD_mask hb, BitVec.getLsbD_ushiftRight]
  by_cases ht : t < b
  · rw [getLsbD_byteAt (by omega), ← hs, Nat.add_assoc]
  · rw [decide_eq_false ht, Bool.false_and, Bool.false_and]

/-! ## Fields, one after the other -/

/-- Up to bit `upto` the fields are in the bytes, and nothing behind it. -/
def Filled (b : Nat) (fields : List (BitVec 8)) (upto : Nat) (bytes : List (BitVec 8)) : Prop :=
  ∀ p, bitAt bytes p = (decide (p < upto) && (byteAt fields (p / b)).getLsbD (p % b))

/-- The first `upto` fields are what the bytes hold of `b` bits each. -/
def Read (b : Nat) (bytes : List (BitVec 8)) (upto : Nat) (fields : List (BitVec 8)) : Prop :=
  ∀ i < upto, ∀ t, (byteAt fields i).getLsbD t = (decide (t < b) && bitAt bytes (i * b + t))

theorem filled_zeros : Filled b fields 0 (List.replicate n 0) := by
  intro p
  rw [bitAt_zeros, decide_eq_false (Nat.not_lt_zero p), Bool.false_and]

theorem read_zero : Read b bytes 0 fields := fun i hi => absurd hi (Nat.not_lt_zero i)

/-- A field put behind the others. -/
theorem Filled.write {i : Nat} {bytes' : List (BitVec 8)} {v : BitVec 8} (h : Filled b fields (i * b) bytes)
    (hv : ∀ t, v.getLsbD t = (decide (t < b) && (byteAt fields i).getLsbD t))
    (hbits : ∀ p, bitAt bytes' p = (bitAt bytes p || (decide (i * b ≤ p) && v.getLsbD (p - i * b)))) :
    Filled b fields ((i + 1) * b) bytes' := by
  intro p
  rw [hbits, h p, hv, Nat.succ_mul]
  rcases Nat.lt_or_ge p (i * b) with hlow | hhigh
  · rw [decide_eq_true hlow, decide_eq_false (Nat.not_le.2 hlow), decide_eq_true (hlow.trans_le (Nat.le_add_right _ b)),
      Bool.false_and, Bool.or_false]
  rw [decide_eq_false (Nat.not_lt.2 hhigh), decide_eq_true hhigh, Bool.false_and, Bool.false_or, Bool.true_and]
  obtain ⟨t, rfl⟩ := Nat.exists_eq_add_of_le hhigh
  rw [Nat.add_sub_cancel_left]
  by_cases ht : t < b
  · have hb : 0 < b := Nat.zero_lt_of_lt ht
    rw [decide_eq_true ht, decide_eq_true (Nat.add_lt_add_left ht _), Nat.mul_comm, Nat.mul_add_div hb,
      Nat.div_eq_of_lt ht, Nat.add_zero, Nat.mul_add_mod, Nat.mod_eq_of_lt ht]
  · rw [decide_eq_false ht, decide_eq_false (by omega), Bool.false_and, Bool.false_and]

/-- It is enough that its bits are where they should be. -/
theorem Filled.write_at {P : Nat → Prop} [DecidablePred P] {i : Nat} {bytes' : List (BitVec 8)} {v : BitVec 8}
    (h : Filled b fields (i * b) bytes) (hv : ∀ t, v.getLsbD t = (decide (t < b) && (byteAt fields i).getLsbD t))
    (hbits : ∀ p, bitAt bytes' p = (bitAt bytes p || (decide (P p) && v.getLsbD (p - i * b))))
    (hplace : ∀ p, p - i * b < b → (P p ↔ i * b ≤ p)) : Filled b fields ((i + 1) * b) bytes' := by
  refine h.write hv fun p => ?_
  rw [hbits]
  cases hbit : v.getLsbD (p - i * b) with
  | false => rw [Bool.and_false, Bool.and_false]
  | true =>
      rw [hv, Bool.and_eq_true] at hbit
      have hiff := hplace p (of_decide_eq_true hbit.1)
      simp only [hiff]

/-- A byte of fields put behind the others. -/
theorem Filled.set {t : Nat} {v : BitVec 8} (h : Filled b fields (min (8 * t) (n * b)) bytes) (ht : t < bytes.length)
    (hv : ∀ q < 8, v.getLsbD q =
      (decide (8 * t + q < n * b) && (byteAt fields ((8 * t + q) / b)).getLsbD ((8 * t + q) % b))) :
    Filled b fields (min (8 * (t + 1)) (n * b)) (bytes.set t v) := by
  intro p
  rw [bitAt_set ht]
  by_cases hp : p / 8 = t
  · have hsplit : 8 * t + p % 8 = p := by omega
    have hupto : (p < min (8 * (t + 1)) (n * b)) ↔ p < n * b := by omega
    rw [if_pos hp, hv _ (Nat.mod_lt p (by decide)), hsplit]
    simp only [hupto]
  · have hupto : (p < min (8 * (t + 1)) (n * b)) ↔ p < min (8 * t) (n * b) := by omega
    rw [if_neg hp, h p]
    simp only [hupto]

/-- A field read behind the others. -/
theorem Read.set {i : Nat} {v : BitVec 8} (h : Read b bytes i fields) (hi : i < fields.length)
    (hv : ∀ t, v.getLsbD t = (decide (t < b) && bitAt bytes (i * b + t))) :
    Read b bytes (i + 1) (fields.set i v) := by
  intro j hj t
  rw [byteAt_set hi]
  rcases Nat.lt_succ_iff_lt_or_eq.1 hj with hlt | rfl
  · rw [if_neg hlt.ne, h j hlt]
  · rw [if_pos rfl, hv]

/-! ## All fields -/

/-- The fields are packed in the bytes. -/
structure Packed (b n : Nat) (fields bytes : List (BitVec 8)) : Prop where
  length : bytes.length = (n * b + 7) / 8
  filled : Filled b fields (n * b) bytes

/-- The fields are what the bytes hold. -/
structure Unpacked (b n : Nat) (bytes fields : List (BitVec 8)) : Prop where
  length : fields.length = n
  read : Read b bytes n fields

theorem ext_byteAt {xs ys : List (BitVec 8)} (hlen : xs.length = ys.length)
    (h : ∀ i < xs.length, byteAt xs i = byteAt ys i) : xs = ys := by
  refine List.ext_getElem hlen fun i hx hy => Option.some.inj ?_
  rw [← List.getElem?_eq_getElem hx, ← List.getElem?_eq_getElem hy, getElem?_byteAt hx, getElem?_byteAt hy, h i hx]

/-- Unpacked, the packed fields come back. -/
theorem Unpacked.eq_of_packed {out : List (BitVec 8)} (hout : Unpacked b n bytes out) (h : Packed b n fields bytes)
    (hlen : fields.length = n) (hfits : ∀ v ∈ fields, v.toNat < 2 ^ b) : out = fields := by
  refine ext_byteAt (hout.length.trans hlen.symm) fun i hi => BitVec.eq_of_getLsbD_eq fun t _ => ?_
  have hin : i < n := hout.length ▸ hi
  rw [hout.read i hin]
  by_cases ht : t < b
  · -- bit `t` of field `i` is bit `i * b + t` of the bytes
    have hb : 0 < b := Nat.zero_lt_of_lt ht
    have hp : i * b + t < n * b := by
      calc i * b + t < (i + 1) * b := by rw [Nat.succ_mul]; exact Nat.add_lt_add_left ht _
        _ ≤ n * b := Nat.mul_le_mul_right b hin
    have hfield : (i * b + t) / b = i := by
      rw [Nat.mul_comm, Nat.mul_add_div hb, Nat.div_eq_of_lt ht, Nat.add_zero]
    have hplace : (i * b + t) % b = t := by rw [Nat.mul_comm, Nat.mul_add_mod, Nat.mod_eq_of_lt ht]
    rw [decide_eq_true ht, Bool.true_and, h.filled, decide_eq_true hp, Bool.true_and, hfield, hplace]
  · have hmem : byteAt fields i ∈ fields := List.mem_of_getElem? (getElem?_byteAt (hlen.symm ▸ hin))
    have hsmall : (byteAt fields i).toNat < 2 ^ t :=
      (hfits _ hmem).trans_le (Nat.pow_le_pow_right (by decide) (Nat.le_of_not_lt ht))
    rw [decide_eq_false ht, Bool.false_and, BitVec.getLsbD, Nat.testBit_lt_two_pow hsmall]

end Oxydllm.BitStream
