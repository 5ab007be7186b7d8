/-
# Oxydllm.Kv.ContigPool — retired contiguous buffers under a byte budget (`ContigBufferPool`).

Each layer keeps the buffers its sequences retire, the layers count their bytes against a budget they share.
`put` reserves before it keeps and `take` gives back, so that the budget holds what its pools hold.
`set_budget` moves a pool with what it holds and does not ask whether the new budget has room for it.
-/
import Mathlib.Algebra.BigOperators.Fin
import Mathlib.Data.Fintype.Basic
import Mathlib.Data.List.TakeWhile

namespace Oxydllm.Kv

/-- The limit and what is held, in bytes. They count buffers that exist, so that no sum of them leaves a
`usize`. -/
structure ContigBudget where
  limit : Nat
  held : Nat

namespace ContigBudget

def new (limit : Nat) : ContigBudget := ⟨limit, 0⟩

/-- Reserves `bytes` if they fit under the limit. -/
def tryAdd (b : ContigBudget) (bytes : Nat) : Option ContigBudget :=
  if b.held + bytes > b.limit then none else some { b with held := b.held + bytes }

/-- `none` where the subtraction underflows. -/
def sub (b : ContigBudget) (bytes : Nat) : Option ContigBudget :=
  if bytes ≤ b.held then some { b with held := b.held - bytes } else none

theorem tryAdd_some {b b' : ContigBudget} {bytes : Nat} (h : b.tryAdd bytes = some b') :
    b.held + bytes ≤ b.limit ∧ b' = { b with held := b.held + bytes } := by
  obtain ⟨hfits, heq⟩ := Option.ite_none_left_eq_some.1 h
  exact ⟨not_lt.1 hfits, (Option.some.inj heq).symm⟩

end ContigBudget

structure ContigBuffer (T : Type) where
  k : T
  v : T
  cap : Nat

/-- A pool's buffers, and which budget they count against. -/
structure ContigBufferPool (T : Type) (m : Nat) where
  buffers : List (ContigBuffer T)
  maxBuffers : Nat
  bytesPerToken : Nat
  budget : Fin m

namespace ContigBufferPool

variable {T : Type} {m : Nat}

/-- The bytes of a list of buffers. -/
def bytesOf (bytesPerToken : Nat) (buffers : List (ContigBuffer T)) : Nat :=
  (buffers.map fun b => b.cap * bytesPerToken).sum

def bytes (p : ContigBufferPool T m) : Nat := bytesOf p.bytesPerToken p.buffers

/-- What the pool has under a budget. -/
def share (p : ContigBufferPool T m) (j : Fin m) : Nat := if p.budget = j then p.bytes else 0

/-- The buffer, the pool and its budget after a `take`; `none` where the budget underflows. -/
def take (p : ContigBufferPool T m) (b : ContigBudget) (needed : Nat) :
    Option (Option (ContigBuffer T) × ContigBufferPool T m × ContigBudget) :=
  match p.buffers.findIdx? (fun buf => needed ≤ buf.cap) with
  | none => some (none, p, b)
  | some idx =>
      (p.buffers[idx]?).bind fun buf =>
        (b.sub (buf.cap * p.bytesPerToken)).map fun b =>
          (some buf, { p with buffers := p.buffers.eraseIdx idx }, b)

/-- The loop of `put`, over the buffers from the last one down: those left once `bytes` are reserved, or
none when they do not fit an emptied pool. -/
def makeRoom (bytesPerToken bytes : Nat) :
    List (ContigBuffer T) → ContigBudget → Option (Option (List (ContigBuffer T)) × ContigBudget)
  | [], b =>
      match b.tryAdd bytes with
      | some b => some (some [], b)
      | none => some (none, b)
  | largest :: rest, b =>
      match b.tryAdd bytes with
      | some b => some (some (largest :: rest), b)
      | none => (b.sub (largest.cap * bytesPerToken)).bind (makeRoom bytesPerToken bytes rest)

/-- `partition_point`, on buffers sorted by `cap`. -/
def place (buffers : List (ContigBuffer T)) (cap : Nat) : Nat :=
  (buffers.takeWhile fun b => b.cap < cap).length

def put (p : ContigBufferPool T m) (b : ContigBudget) (buf : ContigBuffer T) :
    Option (ContigBufferPool T m × ContigBudget) :=
  if p.maxBuffers = 0 then some (p, b)
  else
    let bytes := buf.cap * p.bytesPerToken
    (makeRoom p.bytesPerToken bytes p.buffers.reverse b).bind fun
      | (none, b) => some ({ p with buffers := [] }, b)
      | (some kept, b) =>
          let buffers := kept.reverse.insertIdx (place kept.reverse buf.cap) buf
          if buffers.length > p.maxBuffers then
            match buffers with
            | [] => none
            | smallest :: buffers =>
                (b.sub (smallest.cap * p.bytesPerToken)).map fun b => ({ p with buffers }, b)
          else some ({ p with buffers }, b)

/-- Sorted by `cap`, and not too many. -/
structure Ordered (p : ContigBufferPool T m) : Prop where
  sorted : p.buffers.Pairwise (fun a b => a.cap ≤ b.cap)
  count : p.buffers.length ≤ p.maxBuffers

/-- What `take` has to find. -/
def SmallestFit (p : ContigBufferPool T m) (needed : Nat) : Option (ContigBuffer T) → Prop
  | none => ∀ buf ∈ p.buffers, buf.cap < needed
  | some buf => buf ∈ p.buffers ∧ needed ≤ buf.cap ∧ ∀ other ∈ p.buffers, needed ≤ other.cap → buf.cap ≤ other.cap

/-! ## One pool -/

theorem bytesOf_append (k : Nat) (xs ys : List (ContigBuffer T)) :
    bytesOf k (xs ++ ys) = bytesOf k xs + bytesOf k ys := by
  unfold bytesOf
  rw [List.map_append, List.sum_append]

theorem bytesOf_cons (k : Nat) (b : ContigBuffer T) (bs : List (ContigBuffer T)) :
    bytesOf k (b :: bs) = b.cap * k + bytesOf k bs := by
  unfold bytesOf
  rw [List.map_cons, List.sum_cons]

theorem bytesOf_reverse (k : Nat) (bs : List (ContigBuffer T)) : bytesOf k bs.reverse = bytesOf k bs := by
  unfold bytesOf
  rw [List.map_reverse, List.sum_reverse]

/-- What an operation on a pool does to it and to its budget: the pool stays in order, and the budget moves
with it. -/
structure Moved (p p' : ContigBufferPool T m) (b b' : ContigBudget) : Prop where
  ordered : Ordered p'
  budget : p'.budget = p.budget
  limit : b'.limit = b.limit
  held : b'.held + p.bytes = b.held + p'.bytes
  within : b.held ≤ b.limit → b'.held ≤ b'.limit

theorem take_moved {p : ContigBufferPool T m} (hp : Ordered p) {b : ContigBudget} (hheld : p.bytes ≤ b.held)
    (needed : Nat) :
    ∃ found p' b', p.take b needed = some (found, p', b') ∧ SmallestFit p needed found ∧ Moved p p' b b' := by
  unfold take
  cases hidx : p.buffers.findIdx? (fun buf => needed ≤ buf.cap) with
  | none =>
      refine ⟨none, p, b, rfl, fun buf hbuf => ?_, hp, rfl, rfl, rfl, id⟩
      have := List.findIdx?_eq_none_iff.1 hidx buf hbuf
      simpa using this
  | some idx =>
      obtain ⟨hlt, hfit, hfirst⟩ := List.findIdx?_eq_some_iff_getElem.1 hidx
      have hsplit : p.buffers = p.buffers.take idx ++ p.buffers[idx] :: p.buffers.drop (idx + 1) := by
        rw [List.getElem_cons_drop, List.take_append_drop]
      have herase : p.buffers.eraseIdx idx = p.buffers.take idx ++ p.buffers.drop (idx + 1) :=
        List.eraseIdx_eq_take_drop_succ _ _
      have hbytes : p.bytes = bytesOf p.bytesPerToken (p.buffers.eraseIdx idx) +
          p.buffers[idx].cap * p.bytesPerToken := by
        unfold bytes
        conv_lhs => rw [hsplit]
        rw [herase, bytesOf_append, bytesOf_append, bytesOf_cons]
        omega
      have hsub : p.buffers[idx].cap * p.bytesPerToken ≤ b.held := by omega
      refine ⟨some p.buffers[idx], { p with buffers := p.buffers.eraseIdx idx },
        { b with held := b.held - p.buffers[idx].cap * p.bytesPerToken }, ?_, ?_, ⟨?_, ?_⟩, rfl, rfl, ?_, ?_⟩
      · simp only [List.getElem?_eq_getElem hlt, Option.bind_some, ContigBudget.sub, if_pos hsub,
          Option.map_some]
      · refine ⟨List.getElem_mem hlt, of_decide_eq_true hfit, fun other hother hother' => ?_⟩
        obtain ⟨i, hi, rfl⟩ := List.getElem_of_mem hother
        rcases Nat.lt_trichotomy i idx with h | h | h
        · exact absurd (decide_eq_true hother') (by simpa using hfirst i h)
        · subst h
          exact le_rfl
        · exact List.pairwise_iff_getElem.1 hp.sorted idx i hlt hi h
      · exact hp.sorted.sublist (List.eraseIdx_sublist _ _)
      · exact ((List.eraseIdx_sublist _ _).length_le).trans hp.count
      · simp only [bytes] at hbytes ⊢
        omega
      · intro hle
        simp only
        omega

/-- The loop ends: it keeps the first buffers and has reserved the bytes, or all are gone. -/
theorem makeRoom_spec {k bytes : Nat} (buffers : List (ContigBuffer T)) (b : ContigBudget)
    (hheld : bytesOf k buffers ≤ b.held) :
    ∃ kept b', makeRoom k bytes buffers b = some (kept, b') ∧ b'.limit = b.limit ∧
      (∀ rest, kept = some rest → rest <:+ buffers ∧ b'.held ≤ b'.limit ∧
        b'.held + bytesOf k buffers = b.held + bytes + bytesOf k rest) ∧
      (kept = none → b'.held + bytesOf k buffers = b.held) := by
  induction buffers generalizing b with
  | nil =>
      unfold makeRoom
      cases hadd : b.tryAdd bytes with
      | none =>
          exact ⟨none, b, rfl, rfl, fun rest hrest => (by cases hrest), fun _ => rfl⟩
      | some b' =>
          obtain ⟨hfits, rfl⟩ := ContigBudget.tryAdd_some hadd
          refine ⟨some [], _, rfl, rfl, fun rest hrest => ?_, fun hnone => by cases hnone⟩
          cases hrest
          exact ⟨List.suffix_rfl, hfits, rfl⟩
  | cons largest rest ih =>
      unfold makeRoom
      cases hadd : b.tryAdd bytes with
      | some b' =>
          obtain ⟨hfits, rfl⟩ := ContigBudget.tryAdd_some hadd
          refine ⟨some (largest :: rest), _, rfl, rfl, fun kept hkept => ?_, fun hnone => by cases hnone⟩
          cases hkept
          exact ⟨List.suffix_rfl, hfits, rfl⟩
      | none =>
        rw [bytesOf_cons] at hheld
        have hsub : largest.cap * k ≤ b.held := by omega
        obtain ⟨kept, b', hroom, hlimit, hsome, hnone⟩ :=
          ih { b with held := b.held - largest.cap * k } (by simp only; omega)
        refine ⟨kept, b', ?_, hlimit, fun rest' hkept => ?_, fun hkept => ?_⟩
        · unfold ContigBudget.sub
          rw [if_pos hsub]
          exact hroom
        · obtain ⟨hsuffix, hle, hsum⟩ := hsome rest' hkept
          refine ⟨hsuffix.trans (List.suffix_cons _ _), hle, ?_⟩
          rw [bytesOf_cons]
          simp only at hsum
          omega
        · have := hnone hkept
          rw [bytesOf_cons]
          simp only at this
          omega

/-- Putting a buffer where `place` says keeps the order. -/
theorem insert_sorted {buffers : List (ContigBuffer T)} (hsorted : buffers.Pairwise (fun a b => a.cap ≤ b.cap))
    (buf : ContigBuffer T) :
    (buffers.insertIdx (place buffers buf.cap) buf).Pairwise (fun a b => a.cap ≤ b.cap) ∧
      (buffers.insertIdx (place buffers buf.cap) buf).Perm (buf :: buffers) := by
  have hle : place buffers buf.cap ≤ buffers.length := (List.takeWhile_sublist _).length_le
  refine ⟨?_, List.perm_insertIdx _ _ hle⟩
  unfold place
  induction buffers with
  | nil => exact List.pairwise_singleton _ _
  | cons b bs ih =>
      rw [List.pairwise_cons] at hsorted
      by_cases hlt : b.cap < buf.cap
      · simp only [List.takeWhile_cons, hlt, decide_true, if_true]
        rw [List.length_cons, List.insertIdx_succ_cons, List.pairwise_cons]
        refine ⟨fun c hc => ?_, ih hsorted.2 ((List.takeWhile_sublist _).length_le)⟩
        have hmem := (List.perm_insertIdx buf bs ((List.takeWhile_sublist _).length_le)).mem_iff.1 hc
        rcases List.mem_cons.1 hmem with rfl | hc
        · exact hlt.le
        · exact hsorted.1 c hc
      · simp only [List.takeWhile_cons, hlt, decide_false, Bool.false_eq_true, if_false]
        rw [List.length_nil, List.insertIdx_zero, List.pairwise_cons, List.pairwise_cons]
        refine ⟨fun c hc => ?_, hsorted⟩
        rcases List.mem_cons.1 hc with rfl | hc
        · exact not_lt.1 hlt
        · exact (not_lt.1 hlt).trans (hsorted.1 c hc)

theorem bytesOf_perm {k : Nat} {xs ys : List (ContigBuffer T)} (h : xs.Perm ys) :
    bytesOf k xs = bytesOf k ys := (h.map _).sum_eq

theorem put_moved {p : ContigBufferPool T m} (hp : Ordered p) {b : ContigBudget} (hheld : p.bytes ≤ b.held)
    (buf : ContigBuffer T) : ∃ p' b', p.put b buf = some (p', b') ∧ Moved p p' b b' := by
  unfold put
  by_cases hmax : p.maxBuffers = 0
  · rw [if_pos hmax]
    exact ⟨p, b, rfl, hp, rfl, rfl, rfl, id⟩
  rw [if_neg hmax]
  obtain ⟨kept, b', hroom, hlimit, hsome, hnone⟩ :=
    @makeRoom_spec T p.bytesPerToken (buf.cap * p.bytesPerToken) p.buffers.reverse b
      (by rwa [bytesOf_reverse])
  simp only [hroom, Option.bind_some]
  rw [bytesOf_reverse] at hsome hnone
  cases kept with
  | none =>
      have hgone := hnone rfl
      refine ⟨_, _, rfl, ⟨List.Pairwise.nil, Nat.zero_le _⟩, rfl, hlimit, ?_, fun hle => ?_⟩
      · show b'.held + bytesOf p.bytesPerToken p.buffers = b.held + 0
        omega
      · omega
  | some kept =>
      obtain ⟨hsuffix, hwithin, hsum⟩ := hsome kept rfl
      have hprefix : kept.reverse <+: p.buffers := by
        rwa [← List.reverse_suffix, List.reverse_reverse]
      have hcount : kept.reverse.length ≤ p.maxBuffers := hprefix.length_le.trans hp.count
      obtain ⟨hsorted, hperm⟩ := insert_sorted (hp.sorted.sublist hprefix.sublist) buf
      have hbytes := @bytesOf_perm T p.bytesPerToken _ _ hperm
      rw [bytesOf_cons, bytesOf_reverse] at hbytes
      have hlen := hperm.length_eq
      rw [List.length_cons] at hlen
      dsimp only
      generalize kept.reverse.insertIdx (place kept.reverse buf.cap) buf = buffers at *
      split
      next hover =>
        cases buffers with
        | nil => cases hlen
        | cons smallest buffers =>
            rw [bytesOf_cons] at hbytes
            have hsub : smallest.cap * p.bytesPerToken ≤ b'.held := by
              have : bytesOf p.bytesPerToken p.buffers ≤ b.held := hheld
              omega
            refine ⟨{ p with buffers }, { b' with held := b'.held - smallest.cap * p.bytesPerToken }, ?_,
              ⟨(List.pairwise_cons.1 hsorted).2, ?_⟩, rfl, hlimit, ?_, fun _ => ?_⟩
            · simp only [ContigBudget.sub, if_pos hsub, Option.map_some]
            · rw [List.length_cons] at hlen
              dsimp only
              omega
            · show b'.held - _ + bytesOf p.bytesPerToken p.buffers = b.held + bytesOf p.bytesPerToken buffers
              omega
            · dsimp only
              omega
      next hover =>
        refine ⟨_, _, rfl, ⟨hsorted, not_lt.1 hover⟩, rfl, hlimit, ?_, fun _ => hwithin⟩
        show b'.held + bytesOf p.bytesPerToken p.buffers = b.held + bytesOf p.bytesPerToken buffers
        omega

end ContigBufferPool

/-! ## The pools of a model -/

/-- Budgets and the pools that count against them. -/
structure ContigPools (T : Type) (n m : Nat) where
  budgets : Fin m → ContigBudget
  pools : Fin n → ContigBufferPool T m

inductive ContigOp (T : Type) (n m : Nat) where
  | put (pool : Fin n) (buf : ContigBuffer T)
  | take (pool : Fin n) (needed : Nat)
  | setBudget (pool : Fin n) (budget : Fin m)

namespace ContigPools

variable {T : Type} {n m : Nat}

/-- A pool and its budget after an operation on them. -/
def update (s : ContigPools T n m) (i : Fin n) (p : ContigBufferPool T m) (b : ContigBudget) :
    ContigPools T n m :=
  ⟨Function.update s.budgets (s.pools i).budget b, Function.update s.pools i p⟩

def put (s : ContigPools T n m) (i : Fin n) (buf : ContigBuffer T) : Option (ContigPools T n m) :=
  ((s.pools i).put (s.budgets (s.pools i).budget) buf).map fun r => s.update i r.1 r.2

def take (s : ContigPools T n m) (i : Fin n) (needed : Nat) :
    Option (Option (ContigBuffer T) × ContigPools T n m) :=
  ((s.pools i).take (s.budgets (s.pools i).budget) needed).map fun r => (r.1, s.update i r.2.1 r.2.2)

/-- Moves the pool, and what it holds, under another budget. -/
def setBudget (s : ContigPools T n m) (i : Fin n) (j : Fin m) : Option (ContigPools T n m) :=
  let held := (s.pools i).bytes
  ((s.budgets (s.pools i).budget).sub held).map fun old =>
    let budgets := Function.update s.budgets (s.pools i).budget old
    ⟨Function.update budgets j { budgets j with held := (budgets j).held + held },
      Function.update s.pools i { s.pools i with budget := j }⟩

def step (s : ContigPools T n m) : ContigOp T n m → Option (ContigPools T n m)
  | .put i buf => s.put i buf
  | .take i needed => (s.take i needed).map (·.2)
  | .setBudget i j => s.setBudget i j

/-- The bytes pooled under a budget. -/
def pooled (s : ContigPools T n m) (j : Fin m) : Nat := ∑ i, (s.pools i).share j

/-- Pools in order, budgets that hold what their pools hold, operations that do not underflow and a `take`
that finds the smallest fit. -/
structure Accounted (s : ContigPools T n m) : Prop where
  ordered : ∀ i, (s.pools i).Ordered
  held : ∀ j, (s.budgets j).held = s.pooled j
  total : ∀ op, ∃ s', s.step op = some s'
  smallest : ∀ i needed, ∃ found s', s.take i needed = some (found, s') ∧ (s.pools i).SmallestFit needed found

/-- No budget is exceeded. -/
def Within (s : ContigPools T n m) : Prop := ∀ j, (s.budgets j).held ≤ (s.budgets j).limit

/-- A pool that comes under another budget finds room there. -/
def Fits (s : ContigPools T n m) : ContigOp T n m → Prop
  | .setBudget i j =>
      j ≠ (s.pools i).budget → (s.budgets j).held + (s.pools i).bytes ≤ (s.budgets j).limit
  | _ => True

/-- In every state of a run. -/
def Throughout (P : ContigPools T n m → Prop) : ContigPools T n m → List (ContigOp T n m) → Prop
  | s, [] => P s
  | s, op :: ops => P s ∧ ∀ s', s.step op = some s' → Throughout P s' ops

/-- Every pool that moves in a run finds room. -/
def Fitting : ContigPools T n m → List (ContigOp T n m) → Prop
  | _, [] => True
  | s, op :: ops => s.Fits op ∧ ∀ s', s.step op = some s' → Fitting s' ops

/-- Pools that hold nothing yet. -/
structure Fresh (s : ContigPools T n m) : Prop where
  empty : ∀ i, (s.pools i).buffers = []
  held : ∀ j, (s.budgets j).held = 0

/-- What the steps keep. -/
structure Counted (s : ContigPools T n m) : Prop where
  ordered : ∀ i, (s.pools i).Ordered
  held : ∀ j, (s.budgets j).held = s.pooled j

/-- What is pooled under a budget after one pool has changed. -/
theorem pooled_update (pools : Fin n → ContigBufferPool T m) (budgets budgets' : Fin m → ContigBudget)
    (i : Fin n) (p : ContigBufferPool T m) (j : Fin m) :
    (⟨budgets', Function.update pools i p⟩ : ContigPools T n m).pooled j + (pools i).share j =
      (⟨budgets, pools⟩ : ContigPools T n m).pooled j + p.share j := by
  unfold pooled
  dsimp only
  rw [← Finset.add_sum_erase _ _ (Finset.mem_univ i),
    ← Finset.add_sum_erase _ (fun k => (pools k).share j) (Finset.mem_univ i)]
  have hrest : ∑ k ∈ Finset.univ.erase i, (Function.update pools i p k).share j =
      ∑ k ∈ Finset.univ.erase i, (pools k).share j :=
    Finset.sum_congr rfl fun k hk => by rw [Function.update_of_ne (Finset.ne_of_mem_erase hk)]
  rw [hrest, Function.update_self]
  omega

theorem share_le_pooled (s : ContigPools T n m) (i : Fin n) (j : Fin m) : (s.pools i).share j ≤ s.pooled j := by
  unfold pooled
  rw [← Finset.add_sum_erase _ _ (Finset.mem_univ i)]
  exact Nat.le_add_right _ _

theorem Counted.bytes_le {s : ContigPools T n m} (h : Counted s) (i : Fin n) :
    (s.pools i).bytes ≤ (s.budgets (s.pools i).budget).held := by
  have hshare := s.share_le_pooled i (s.pools i).budget
  rw [h.held]
  rwa [ContigBufferPool.share, if_pos rfl] at hshare

/-- Pools stay in order when one of them changes into one in order. -/
theorem ordered_update {pools : Fin n → ContigBufferPool T m} (h : ∀ i, (pools i).Ordered) {i : Fin n}
    {p : ContigBufferPool T m} (hp : p.Ordered) (k : Fin n) : (Function.update pools i p k).Ordered := by
  rcases eq_or_ne k i with rfl | hne
  · rwa [Function.update_self]
  · rw [Function.update_of_ne hne]
    exact h k

/-- An operation on one pool and its budget keeps the count. -/
theorem Counted.update {s : ContigPools T n m} (h : Counted s) {i : Fin n} {p : ContigBufferPool T m}
    {b : ContigBudget} (hmoved : (s.pools i).Moved p (s.budgets (s.pools i).budget) b) :
    Counted (s.update i p b) := by
  refine ⟨ordered_update h.ordered hmoved.ordered, fun j => ?_⟩
  have hsum := pooled_update s.pools s.budgets (s.update i p b).budgets i p j
  have hold := h.held j
  have hheld := hmoved.held
  unfold ContigBufferPool.share at hsum
  rw [hmoved.budget] at hsum
  change _ = s.pooled j + _ at hsum
  change (Function.update s.budgets (s.pools i).budget b j).held = _
  change (s.update i p b).pooled j + _ = _ at hsum
  rcases eq_or_ne j (s.pools i).budget with rfl | hne
  · rw [if_pos rfl, if_pos rfl] at hsum
    rw [Function.update_self]
    omega
  · rw [if_neg hne.symm, if_neg hne.symm] at hsum
    rw [Function.update_of_ne hne]
    omega

theorem Within.update {s : ContigPools T n m} (h : Within s) {i : Fin n} {p : ContigBufferPool T m}
    {b : ContigBudget} (hmoved : (s.pools i).Moved p (s.budgets (s.pools i).budget) b) :
    Within (s.update i p b) := by
  intro j
  unfold ContigPools.update
  dsimp only
  rcases eq_or_ne j (s.pools i).budget with rfl | hne
  · rw [Function.update_self]
    exact hmoved.within (h _)
  · rw [Function.update_of_ne hne]
    exact h j

theorem put_counted {s : ContigPools T n m} (h : Counted s) (i : Fin n) (buf : ContigBuffer T) :
    ∃ s', s.put i buf = some s' ∧ Counted s' ∧ (Within s → Within s') := by
  obtain ⟨p, b, hput, hmoved⟩ := ContigBufferPool.put_moved (h.ordered i) (h.bytes_le i) buf
  refine ⟨s.update i p b, ?_, h.update hmoved, fun hw => hw.update hmoved⟩
  unfold put
  rw [hput]
  rfl

theorem take_counted {s : ContigPools T n m} (h : Counted s) (i : Fin n) (needed : Nat) :
    ∃ found s', s.take i needed = some (found, s') ∧ (s.pools i).SmallestFit needed found ∧ Counted s' ∧
      (Within s → Within s') := by
  obtain ⟨found, p, b, htake, hfound, hmoved⟩ :=
    ContigBufferPool.take_moved (h.ordered i) (h.bytes_le i) needed
  refine ⟨found, s.update i p b, ?_, hfound, h.update hmoved, fun hw => hw.update hmoved⟩
  unfold take
  rw [htake]
  rfl

/-- Where the bytes of a pool that moves go. -/
theorem setBudget_some {s : ContigPools T n m} {i : Fin n}
    (hle : (s.pools i).bytes ≤ (s.budgets (s.pools i).budget).held) (j : Fin m) :
    ∃ budgets, s.setBudget i j = some ⟨budgets, Function.update s.pools i { s.pools i with budget := j }⟩ ∧
      ∀ k, (budgets k).limit = (s.budgets k).limit ∧
        (budgets k).held + (s.pools i).share k = (s.budgets k).held + if j = k then (s.pools i).bytes else 0 := by
  unfold setBudget ContigBudget.sub
  simp only [if_pos hle, Option.map_some]
  refine ⟨_, rfl, fun k => ?_⟩
  unfold ContigBufferPool.share
  by_cases hj : j = k <;> by_cases hold : (s.pools i).budget = k
  · subst hj
    rw [hold] at hle ⊢
    simp only [Function.update_self, if_true, true_and]
    omega
  · subst hj
    simp only [Function.update_self, Function.update_of_ne (Ne.symm hold), if_true, if_neg hold, true_and]
    omega
  · subst hold
    simp only [Function.update_self, Function.update_of_ne (Ne.symm hj), if_true, if_neg hj, true_and]
    omega
  · simp only [Function.update_of_ne (Ne.symm hj), Function.update_of_ne (Ne.symm hold), if_neg hj, if_neg hold,
      true_and]

/-- A pool that moves keeps the count, and keeps the budgets within their limits exactly when it finds room
in the new one. -/
theorem setBudget_counted {s : ContigPools T n m} (h : Counted s) (i : Fin n) (j : Fin m) :
    ∃ s', s.setBudget i j = some s' ∧ Counted s' ∧ (Within s → (Within s' ↔ s.Fits (.setBudget i j))) := by
  obtain ⟨budgets, hset, hmoved⟩ := setBudget_some (h.bytes_le i) j
  refine ⟨_, hset, ⟨ordered_update h.ordered ⟨(h.ordered i).sorted, (h.ordered i).count⟩, fun k => ?_⟩,
    fun hw => ⟨fun hw' hne => ?_, fun hfits k => ?_⟩⟩
  · have hsum := pooled_update s.pools s.budgets budgets i { s.pools i with budget := j } k
    have hheld := (hmoved k).2
    have hold := h.held k
    change _ + (s.pools i).share k = s.pooled k + (if j = k then (s.pools i).bytes else 0) at hsum
    change (budgets k).held = _
    omega
  · obtain ⟨hlimit, hheld⟩ := hmoved j
    have := hw' j
    dsimp only at this
    rw [ContigBufferPool.share, if_neg hne.symm, if_pos rfl] at hheld
    omega
  · obtain ⟨hlimit, hheld⟩ := hmoved k
    have hold := hw k
    dsimp only
    unfold ContigBufferPool.share at hheld
    by_cases hj : j = k
    · subst hj
      rw [if_pos rfl] at hheld
      by_cases hsame : (s.pools i).budget = j
      · rw [if_pos hsame] at hheld
        omega
      · have := hfits (Ne.symm hsame)
        rw [if_neg hsame] at hheld
        omega
    · rw [if_neg hj] at hheld
      omega

theorem Counted.step {s : ContigPools T n m} (h : Counted s) (op : ContigOp T n m) :
    ∃ s', s.step op = some s' ∧ Counted s' ∧ (Within s → (Within s' ↔ s.Fits op)) := by
  cases op with
  | put i buf =>
      obtain ⟨s', hput, hcounted, hwithin⟩ := put_counted h i buf
      exact ⟨s', hput, hcounted, fun hw => ⟨fun _ => trivial, fun _ => hwithin hw⟩⟩
  | take i needed =>
      obtain ⟨found, s', htake, -, hcounted, hwithin⟩ := take_counted h i needed
      refine ⟨s', ?_, hcounted, fun hw => ⟨fun _ => trivial, fun _ => hwithin hw⟩⟩
      show (s.take i needed).map (·.2) = some s'
      rw [htake]
      rfl
  | setBudget i j => exact setBudget_counted h i j

theorem Counted.accounted {s : ContigPools T n m} (h : Counted s) : Accounted s := by
  refine ⟨h.ordered, h.held, fun op => ?_, fun i needed => ?_⟩
  · obtain ⟨s', hstep, -⟩ := h.step op
    exact ⟨s', hstep⟩
  · obtain ⟨found, s', htake, hfound, -⟩ := take_counted h i needed
    exact ⟨found, s', htake, hfound⟩

theorem Fresh.counted {s : ContigPools T n m} (h : Fresh s) : Counted s := by
  refine ⟨fun i => ?_, fun j => ?_⟩
  · constructor
    · rw [h.empty i]
      exact List.Pairwise.nil
    · rw [h.empty i]
      exact Nat.zero_le _
  · rw [h.held j]
    unfold pooled
    refine (Finset.sum_eq_zero fun i _ => ?_).symm
    unfold ContigBufferPool.share ContigBufferPool.bytes
    rw [h.empty i]
    exact ite_self 0

theorem Fresh.within {s : ContigPools T n m} (h : Fresh s) : Within s := by
  intro j
  rw [h.held j]
  exact Nat.zero_le _

/-- A run from a state within the limits stays so exactly when the pools that move find room. -/
theorem throughout_iff {s : ContigPools T n m} (h : Counted s) (hw : Within s) (ops : List (ContigOp T n m)) :
    Throughout (fun s => Accounted s ∧ Within s) s ops ↔ Fitting s ops := by
  induction ops generalizing s with
  | nil => exact ⟨fun _ => trivial, fun _ => ⟨h.accounted, hw⟩⟩
  | cons op ops ih =>
      obtain ⟨s', hstep, hcounted, hiff⟩ := h.step op
      have hnext : ∀ {P : ContigPools T n m → Prop}, (∀ t, s.step op = some t → P t) ↔ P s' := by
        intro P
        rw [hstep]
        exact ⟨fun hall => hall s' rfl, fun hp t ht => Option.some.inj ht ▸ hp⟩
      unfold Throughout Fitting
      rw [hnext, hnext]
      constructor
      · rintro ⟨-, hrest⟩
        have hw' : Within s' := by
          cases ops with
          | nil => exact hrest.2
          | cons op ops => exact hrest.1.2
        exact ⟨(hiff hw).1 hw', (ih hcounted hw').1 hrest⟩
      · rintro ⟨hfits, hrest⟩
        have hw' := (hiff hw).2 hfits
        exact ⟨⟨h.accounted, hw⟩, (ih hcounted hw').2 hrest⟩

/-- From pools that hold nothing, every state of a run is accounted for and within the limits exactly when
every pool that comes under another budget finds room there. -/
theorem run_accounted_iff {s : ContigPools T n m} (h : Fresh s) (ops : List (ContigOp T n m)) :
    Throughout (fun s => Accounted s ∧ Within s) s ops ↔ Fitting s ops :=
  throughout_iff h.counted h.within ops

/-- A pool of its own, and a budget of 50 bytes to move it to. -/
def twoBudgets : ContigPools Unit 1 2 where
  budgets j := if j = 0 then .new 1000 else .new 50
  pools _ := ⟨[], 4, 1, 0⟩

theorem twoBudgets_fresh : Fresh twoBudgets := ⟨fun _ => rfl, by decide⟩

theorem run_accounted_iff_move :
    Throughout (fun s => Accounted s ∧ Within s) twoBudgets
        [.put 0 ⟨(), (), 30⟩, .setBudget 0 1, .put 0 ⟨(), (), 40⟩] ↔
      Fitting twoBudgets [.put 0 ⟨(), (), 30⟩, .setBudget 0 1, .put 0 ⟨(), (), 40⟩] :=
  run_accounted_iff twoBudgets_fresh _

/-- A pool that holds 60 bytes moves under a budget of 50. -/
theorem run_not_accounted :
    ¬ ∀ s : ContigPools Unit 1 2, Fresh s → ∀ ops, Throughout (fun s => Accounted s ∧ Within s) s ops := by
  intro h
  have hrun := (h twoBudgets twoBudgets_fresh [.put 0 ⟨(), (), 60⟩, .setBudget 0 1]).2 _ rfl
  have hlast := (hrun.2 _ rfl).2 1
  exact absurd hlast (by decide)

end ContigPools

end Oxydllm.Kv
