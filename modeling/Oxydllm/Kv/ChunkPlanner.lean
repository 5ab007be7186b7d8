/-
# Oxydllm.Kv.ChunkPlanner — a batch cut into forwards (`ChunkPlanner`).

The planner hands out one forward at a time and asks for a fresh cap for each. A token of the batch is known
by the sequence that owns it: the chunks' owners, one chunk after the other, are the batch's
(`Partition.owners`), and so are the rows they contribute (`Partition.rows`).
-/
import Mathlib.Data.List.Range
import Mathlib.Tactic

namespace Oxydllm.Kv

/-- The phase a forward runs in. -/
inductive Phase where
  | prefill
  | decode
  deriving DecidableEq

/-- One forward: where its tokens start in the batch, how many of each sequence it holds from `seqBase` on,
which of them end here, and its phase. -/
structure ForwardChunk where
  start : Nat
  counts : List Nat
  seqBase : Nat
  finished : List Nat
  phase : Phase
  deriving DecidableEq

namespace ForwardChunk

def len (c : ForwardChunk) : Nat := c.counts.sum

/-- The token of the batch is one of the chunk's. -/
def Holds (c : ForwardChunk) (token : Nat) : Prop := c.start ≤ token ∧ token < c.start + c.len

/-- The sequences whose logits row the chunk contributes. -/
def rows (c : ForwardChunk) : List Nat := c.finished.map (c.seqBase + ·)

end ForwardChunk

structure ChunkPlanner where
  counts : List Nat
  splitAt : Nat
  seq : Nat
  doneInSeq : Nat
  start : Nat

namespace ChunkPlanner

def new (counts : List Nat) (splitAt : Nat) : ChunkPlanner := ⟨counts, splitAt, 0, 0, 0⟩

/-- What the loop of `next` works on: the planner's place and the chunk so far. -/
structure Filling where
  seq : Nat
  doneInSeq : Nat
  counts : List Nat
  finished : List Nat
  room : Nat

/-- The loop of `next`, over the counts from `seq` on. -/
def fill (splitAt : Nat) : List Nat → Filling → Filling
  | [], f => f
  | count :: rest, f =>
      if f.room = 0 then f
      else if f.seq = splitAt ∧ f.counts ≠ [] then f
      else
        let take := min (count - f.doneInSeq) f.room
        let f := { f with
          counts := f.counts ++ [take], room := f.room - take, doneInSeq := f.doneInSeq + take }
        if f.doneInSeq = count then
          fill splitAt rest
            { f with finished := f.finished ++ [f.counts.length - 1], seq := f.seq + 1, doneInSeq := 0 }
        -- less than the sequence was taken, so the room is gone and the loop ends
        else f

def next (p : ChunkPlanner) (cap : Nat) : Option ForwardChunk × ChunkPlanner :=
  if p.counts.length ≤ p.seq then (none, p)
  else
    let phase := if p.seq < p.splitAt then Phase.prefill else Phase.decode
    let f := fill p.splitAt (p.counts.drop p.seq) ⟨p.seq, p.doneInSeq, [], [], max cap 1⟩
    (some ⟨p.start, f.counts, p.seq, f.finished, phase⟩,
      { p with seq := f.seq, doneInSeq := f.doneInSeq, start := p.start + f.counts.sum })

/-- The chunks of at most `fuel` calls, each with the cap the pacer returns then, if the last call finds
nothing left. -/
def plan : Nat → (Nat → Nat) → ChunkPlanner → Option (List ForwardChunk)
  | 0, _, _ => none
  | fuel + 1, cap, p =>
      match p.next (cap 0) with
      | (none, _) => some []
      | (some chunk, p) => (plan fuel (fun i => cap (i + 1)) p).map (chunk :: ·)

/-! ## The tokens and who owns them -/

/-- The sequence of each token, for sequences of these lengths numbered from `seq` on. -/
def owners : Nat → List Nat → List Nat
  | _, [] => []
  | seq, count :: rest => List.replicate count seq ++ owners (seq + 1) rest

/-- The place in the batch of the last token of a sequence. -/
def lastToken (counts : List Nat) (seq : Nat) : Nat := (counts.take (seq + 1)).sum - 1

/-- A sequence of the batch is left at `doneInSeq`, which is not its end. -/
def Begun (rest : List Nat) (doneInSeq : Nat) : Prop :=
  match rest with
  | [] => doneInSeq = 0
  | count :: _ => doneInSeq < count

theorem begun_zero {rest : List Nat} (hpos : ∀ n ∈ rest, 1 ≤ n) : Begun rest 0 := by
  cases rest with
  | nil => rfl
  | cons count rest => exact hpos count List.mem_cons_self

/-- What the loop does to a filling: the counts it pushes, and where it leaves the sequences. -/
structure Filled (splitAt : Nat) (rest : List Nat) (f f' : Filling) (pushed : List Nat) : Prop where
  counts : f'.counts = f.counts ++ pushed
  positive : ∀ n ∈ pushed, 0 < n
  room : pushed.sum + f'.room = f.room
  seq_le : f.seq ≤ f'.seq
  within : pushed.length ≤ rest.length
  named : f'.seq - f.seq ≤ pushed.length
  finished : f'.finished = f.finished ++ List.range' f.counts.length (f'.seq - f.seq)
  begun : Begun (rest.drop (f'.seq - f.seq)) f'.doneInSeq
  place : (rest.take (f'.seq - f.seq)).sum + f'.doneInSeq = f.doneInSeq + pushed.sum
  owned : (owners f.seq rest).drop f.doneInSeq =
    owners f.seq pushed ++ (owners f'.seq (rest.drop (f'.seq - f.seq))).drop f'.doneInSeq
  unmixed : f.seq < splitAt ∨ (f.seq = splitAt ∧ f.counts ≠ []) → f.seq + pushed.length ≤ splitAt
  moved : rest ≠ [] → f.room ≠ 0 → ¬ (f.seq = splitAt ∧ f.counts ≠ []) → pushed ≠ []

/-- The loop ends at once. -/
theorem filled_refl {splitAt : Nat} {rest : List Nat} {f : Filling} (hbegun : Begun rest f.doneInSeq)
    (hstop : rest = [] ∨ f.room = 0 ∨ (f.seq = splitAt ∧ f.counts ≠ [])) :
    Filled splitAt rest f f [] := by
  refine ⟨(List.append_nil _).symm, fun _ h => absurd h List.not_mem_nil, Nat.zero_add _, le_rfl,
    Nat.zero_le _, ?_, ?_, ?_, ?_, ?_, ?_, fun hrest hroom hmix => ?_⟩
  · rw [Nat.sub_self]
    exact le_rfl
  · rw [Nat.sub_self, List.range'_zero, List.append_nil]
  · rwa [Nat.sub_self, List.drop_zero]
  · rw [Nat.sub_self, List.take_zero, List.sum_nil]
    omega
  · rw [Nat.sub_self, List.drop_zero]
    rfl
  · rintro (hlt | ⟨heq, -⟩)
    · exact hlt.le
    · exact heq.le
  · rcases hstop with h | h | h
    · exact absurd h hrest
    · exact absurd h hroom
    · exact absurd h hmix

/-- Dropping from the owners of a sequence less than it has. -/
theorem owners_drop {seq count done : Nat} {rest : List Nat} (hle : done ≤ count) :
    (owners seq (count :: rest)).drop done = List.replicate (count - done) seq ++ owners (seq + 1) rest := by
  rw [owners, List.drop_append_of_le_length (by rwa [List.length_replicate]), List.drop_replicate]

theorem fill_filled (splitAt : Nat) {rest : List Nat} (hpos : ∀ n ∈ rest, 1 ≤ n) (f : Filling)
    (hbegun : Begun rest f.doneInSeq) : ∃ pushed, Filled splitAt rest f (fill splitAt rest f) pushed := by
  induction rest generalizing f with
  | nil => exact ⟨[], filled_refl hbegun (.inl rfl)⟩
  | cons count rest ih =>
      have hdone : f.doneInSeq < count := hbegun
      unfold fill
      split
      next hroom => exact ⟨[], filled_refl hbegun (.inr (.inl hroom))⟩
      next hroom =>
        split
        next hmix => exact ⟨[], filled_refl hbegun (.inr (.inr hmix))⟩
        next hmix =>
          dsimp only
          by_cases hfits : count - f.doneInSeq ≤ f.room
          · -- the rest of the sequence fits
            rw [min_eq_left hfits, if_pos (by omega), List.length_append, List.length_singleton,
              Nat.add_sub_cancel]
            obtain ⟨pushed, hp⟩ := ih (fun n hn => hpos n (List.mem_cons_of_mem _ hn))
              ⟨f.seq + 1, 0, f.counts ++ [count - f.doneInSeq], f.finished ++ [f.counts.length],
                f.room - (count - f.doneInSeq)⟩
              (begun_zero fun n hn => hpos n (List.mem_cons_of_mem _ hn))
            generalize fill splitAt rest _ = f' at hp ⊢
            have hseq : f'.seq - f.seq = (f'.seq - (f.seq + 1)) + 1 := by
              have := hp.seq_le
              simp only at this
              omega
            refine ⟨(count - f.doneInSeq) :: pushed, ?_, ?_, ?_, ?_, ?_, ?_, ?_, ?_, ?_, ?_, ?_,
              fun _ _ _ => List.cons_ne_nil _ _⟩
            · rw [hp.counts, List.append_assoc, List.singleton_append]
            · intro n hn
              rcases List.mem_cons.1 hn with rfl | hn
              · omega
              · exact hp.positive n hn
            · have := hp.room
              rw [List.sum_cons]
              simp only at this
              omega
            · have := hp.seq_le
              simp only at this
              omega
            · rw [List.length_cons, List.length_cons]
              exact Nat.succ_le_succ hp.within
            · rw [hseq, List.length_cons]
              exact Nat.succ_le_succ hp.named
            · rw [hp.finished, hseq, List.range'_succ, List.append_assoc, List.singleton_append,
                List.length_append, List.length_singleton]
            · rw [hseq, List.drop_succ_cons]
              exact hp.begun
            · have := hp.place
              rw [hseq, List.take_succ_cons, List.sum_cons, List.sum_cons]
              simp only at this
              omega
            · have := hp.owned
              simp only [List.drop_zero] at this
              rw [owners_drop hdone.le, hseq, List.drop_succ_cons, owners, List.append_assoc, ← this]
            · intro hlow
              have hlt : f.seq < splitAt := hlow.resolve_right hmix
              have := hp.unmixed (by
                rcases Nat.lt_or_ge (f.seq + 1) splitAt with h | h
                · exact .inl h
                · exact .inr ⟨by simp only; omega, List.append_ne_nil_of_right_ne_nil _ (List.cons_ne_nil _ _)⟩)
              rw [List.length_cons]
              simp only at this
              omega
          · -- the room is spent inside the sequence
            rw [min_eq_right (by omega), if_neg (by omega)]
            refine ⟨[f.room], rfl, ?_, ?_, le_rfl, ?_, ?_, ?_, ?_, ?_, ?_, ?_, fun _ _ _ => List.cons_ne_nil _ _⟩
            · intro n hn
              rw [List.mem_singleton.1 hn]
              omega
            · simp only [List.sum_singleton, Nat.sub_self, Nat.add_zero]
            · exact Nat.succ_le_succ (Nat.zero_le _)
            · simp only [Nat.sub_self, Nat.zero_le]
            · simp only [Nat.sub_self, List.range'_zero, List.append_nil]
            · simp only [Nat.sub_self, List.drop_zero]
              exact (show f.doneInSeq + f.room < count by omega)
            · simp only [Nat.sub_self, List.take_zero, List.sum_nil, List.sum_singleton, Nat.zero_add]
            · simp only [Nat.sub_self, List.drop_zero]
              rw [owners_drop hdone.le, owners_drop (by omega : f.doneInSeq + f.room ≤ count), owners, owners,
                List.append_nil, ← List.append_assoc, List.replicate_append_replicate]
              congr 2
              omega
            · intro hlow
              have hlt : f.seq < splitAt := hlow.resolve_right hmix
              rw [List.length_singleton]
              omega

/-! ## One chunk -/

/-- Where a planner of this batch can stand. -/
structure Planned (counts : List Nat) (splitAt : Nat) (p : ChunkPlanner) : Prop where
  batch : p.counts = counts
  split : p.splitAt = splitAt
  seq_le : p.seq ≤ counts.length
  begun : Begun (counts.drop p.seq) p.doneInSeq
  start : p.start = (counts.take p.seq).sum + p.doneInSeq

/-- The owners of the tokens not handed out yet. -/
def left (p : ChunkPlanner) : List Nat := (owners p.seq (p.counts.drop p.seq)).drop p.doneInSeq

/-- What holds of a chunk by itself. -/
structure Sound (counts : List Nat) (splitAt : Nat) (c : ForwardChunk) : Prop where
  len_pos : 0 < c.len
  positive : ∀ n ∈ c.counts, 0 < n
  within : c.seqBase + c.counts.length ≤ counts.length
  finished : ∀ row ∈ c.finished, row < c.counts.length
  last : ∀ seq < counts.length, seq ∈ c.rows ↔ c.Holds (lastToken counts seq)
  phase : ∀ i < c.counts.length, c.phase = .prefill ↔ c.seqBase + i < splitAt

theorem planned_new {counts : List Nat} (hpos : ∀ n ∈ counts, 1 ≤ n) (splitAt : Nat) :
    Planned counts splitAt (new counts splitAt) :=
  ⟨rfl, rfl, Nat.zero_le _, begun_zero hpos, rfl⟩

theorem Planned.start_lt {counts : List Nat} {splitAt : Nat} {p : ChunkPlanner} (h : Planned counts splitAt p)
    (hmore : p.seq < counts.length) : p.start < counts.sum := by
  have hbegun := h.begun
  rw [List.drop_eq_getElem_cons hmore] at hbegun
  have hdone : p.doneInSeq < counts[p.seq] := hbegun
  have hsum : counts.sum = (counts.take p.seq).sum + (counts[p.seq] + (counts.drop (p.seq + 1)).sum) := by
    rw [← List.sum_cons, ← List.drop_eq_getElem_cons hmore, List.sum_take_add_sum_drop]
  rw [h.start]
  omega

/-- A sequence ends inside a stretch of the batch exactly when the stretch passes its last token. -/
theorem lastToken_mem_iff {counts : List Nat} (hpos : ∀ n ∈ counts, 1 ≤ n) {seq : Nat}
    (hseq : seq < counts.length) {place done : Nat} (hbegun : Begun (counts.drop place) done) :
    lastToken counts seq < (counts.take place).sum + done ↔ seq < place := by
  have hmono : ∀ {m n : Nat}, m ≤ n → (counts.take m).sum ≤ (counts.take n).sum := by
    intro m n h
    obtain ⟨more, hmore⟩ : counts.take m <+: counts.take n := List.take_prefix_take_left h
    rw [← hmore, List.sum_append]
    exact Nat.le_add_right _ _
  have hseqpos : 0 < (counts.take (seq + 1)).sum := by
    rw [List.sum_take_succ _ _ hseq]
    have := hpos _ (List.getElem_mem hseq)
    omega
  unfold lastToken
  constructor
  · intro hlt
    by_contra hge
    have hplace : place < counts.length := by omega
    rw [List.drop_eq_getElem_cons hplace] at hbegun
    have hdone : done < counts[place] := hbegun
    have := hmono (show place + 1 ≤ seq + 1 by omega)
    rw [List.sum_take_succ _ _ hplace] at this
    omega
  · intro hlt
    have := hmono (show seq + 1 ≤ place by omega)
    omega

/-- What a call that hands out a chunk does. -/
theorem next_some {counts : List Nat} {splitAt : Nat} (hpos : ∀ n ∈ counts, 1 ≤ n) {p : ChunkPlanner}
    (h : Planned counts splitAt p) (hmore : p.seq < counts.length) (cap : Nat) :
    ∃ c p', p.next cap = (some c, p') ∧ Planned counts splitAt p' ∧ Sound counts splitAt c ∧
      c.len ≤ max cap 1 ∧ c.start = p.start ∧ p'.start = p.start + c.len ∧
      p.left = owners c.seqBase c.counts ++ p'.left ∧
      List.range' p.seq (counts.length - p.seq) =
        c.rows ++ List.range' p'.seq (counts.length - p'.seq) := by
  obtain ⟨pushed, hf⟩ := fill_filled splitAt
    (fun n hn => hpos n (List.mem_of_mem_drop hn)) ⟨p.seq, p.doneInSeq, [], [], max cap 1⟩ h.begun
  have hnext : ∃ f, f = fill splitAt (counts.drop p.seq) ⟨p.seq, p.doneInSeq, [], [], max cap 1⟩ ∧
      p.next cap = (some ⟨p.start, f.counts, p.seq, f.finished,
          if p.seq < splitAt then .prefill else .decode⟩,
        { p with seq := f.seq, doneInSeq := f.doneInSeq, start := p.start + f.counts.sum }) := by
    refine ⟨_, rfl, ?_⟩
    unfold next
    rw [h.batch, h.split, if_neg (not_le.2 hmore)]
  obtain ⟨f, heq, hnext⟩ := hnext
  rw [← heq] at hf
  rw [show f.counts = pushed from hf.counts] at hnext
  have hseq : p.seq ≤ f.seq := hf.seq_le
  have hwithin : pushed.length ≤ counts.length - p.seq := by
    have := hf.within
    rwa [List.length_drop] at this
  have hnamed : f.seq - p.seq ≤ pushed.length := hf.named
  have hfinished : f.finished = List.range' 0 (f.seq - p.seq) := by
    rw [hf.finished, List.nil_append, List.length_nil]
  have hplace : p.seq + (f.seq - p.seq) = f.seq := by omega
  have hbegun : Begun (counts.drop f.seq) f.doneInSeq := by
    have := hf.begun
    rwa [List.drop_drop, hplace] at this
  have hstart : p.start + pushed.sum = (counts.take f.seq).sum + f.doneInSeq := by
    have := hf.place
    have hsplit : counts.take f.seq = counts.take p.seq ++ (counts.drop p.seq).take (f.seq - p.seq) := by
      rw [← List.take_add, hplace]
    rw [hsplit, List.sum_append, h.start]
    simp only at this
    omega
  have hne : pushed ≠ [] := hf.moved (fun hnil => by
    rw [List.drop_eq_nil_iff] at hnil
    omega) (by simp only; omega) (fun hmix => hmix.2 rfl)
  have hrows : f.finished.map (p.seq + ·) = List.range' p.seq (f.seq - p.seq) := by
    rw [hfinished, List.range'_eq_map_range, List.range'_eq_map_range, List.map_map]
    exact List.map_congr_left fun n _ => congrArg (p.seq + ·) (Nat.zero_add n)
  refine ⟨_, _, hnext, ⟨h.batch, h.split, ?_, hbegun, hstart⟩, ⟨?_, hf.positive, ?_, ?_, ?_, ?_⟩, ?_, rfl,
    rfl, ?_, ?_⟩
  · dsimp only
    omega
  · obtain ⟨n, rest, hcons⟩ := List.exists_cons_of_ne_nil hne
    have := hf.positive n (hcons ▸ List.mem_cons_self)
    unfold ForwardChunk.len
    rw [hcons, List.sum_cons]
    omega
  · dsimp only
    omega
  · intro row hrow
    rw [hfinished, List.mem_range'_1] at hrow
    dsimp only
    omega
  · intro seq hlt
    have hbefore := lastToken_mem_iff hpos hlt h.begun
    have hafter := lastToken_mem_iff hpos hlt hbegun
    unfold ForwardChunk.rows ForwardChunk.Holds ForwardChunk.len
    rw [hrows, List.mem_range'_1, hstart, hafter, h.start]
    dsimp only
    omega
  · intro i hi
    dsimp only at hi ⊢
    split
    next hlow =>
      have : p.seq + pushed.length ≤ splitAt := hf.unmixed (.inl hlow)
      exact ⟨fun _ => by omega, fun _ => rfl⟩
    next hhigh => exact ⟨fun hdec => (by cases hdec), fun hlow => absurd hlow (by omega)⟩
  · have := hf.room
    unfold ForwardChunk.len
    dsimp only at this ⊢
    omega
  · have := hf.owned
    unfold left
    dsimp only at this ⊢
    rw [h.batch, this, List.drop_drop, hplace]
  · unfold ForwardChunk.rows
    dsimp only
    have hto : counts.length - p.seq = (f.seq - p.seq) + (counts.length - f.seq) := by omega
    rw [hrows, hto, ← List.range'_append_1, hplace]

/-- A call that finds nothing left. -/
theorem next_none {counts : List Nat} {splitAt : Nat} {p : ChunkPlanner} (h : Planned counts splitAt p)
    (hdone : counts.length ≤ p.seq) (cap : Nat) : p.next cap = (none, p) ∧ p.left = [] := by
  constructor
  · unfold next
    rw [h.batch, if_pos hdone]
  · unfold left
    rw [h.batch, List.drop_eq_nil_of_le hdone, owners, List.drop_nil]

/-! ## A whole batch -/

/-- The chunks cut the batch, in order. -/
structure Partition (counts : List Nat) (splitAt : Nat) (cap : Nat → Nat) (chunks : List ForwardChunk) :
    Prop where
  sound : ∀ c ∈ chunks, Sound counts splitAt c
  capped : ∀ i (h : i < chunks.length), chunks[i].len ≤ max (cap i) 1
  start : ∀ i (h : i < chunks.length), chunks[i].start = ((chunks.take i).map (·.len)).sum
  owners : chunks.flatMap (fun c => owners c.seqBase c.counts) = owners 0 counts
  rows : chunks.flatMap (·.rows) = List.range counts.length

/-- The chunks from where a planner stands. -/
theorem plan_from {counts : List Nat} {splitAt : Nat} (hpos : ∀ n ∈ counts, 1 ≤ n) (fuel : Nat)
    {p : ChunkPlanner} (h : Planned counts splitAt p) (hfuel : counts.sum - p.start < fuel)
    (cap : Nat → Nat) :
    ∃ chunks, plan fuel cap p = some chunks ∧ (∀ c ∈ chunks, Sound counts splitAt c) ∧
      (∀ i (h : i < chunks.length), chunks[i].len ≤ max (cap i) 1 ∧
        chunks[i].start = p.start + ((chunks.take i).map (·.len)).sum) ∧
      chunks.flatMap (fun c => ChunkPlanner.owners c.seqBase c.counts) = p.left ∧
      chunks.flatMap (·.rows) = List.range' p.seq (counts.length - p.seq) := by
  induction fuel generalizing p cap with
  | zero => omega
  | succ fuel ih =>
      rcases Nat.lt_or_ge p.seq counts.length with hmore | hdone
      · obtain ⟨c, p', hnext, hp', hsound, hcap, hstart, hstart', hleft, hrows⟩ :=
          next_some hpos h hmore (cap 0)
        have hlen := hsound.len_pos
        have hbelow := h.start_lt hmore
        obtain ⟨chunks, hplan, hall, hplaces, howners, hrest⟩ :=
          ih hp' (by omega) (fun i => cap (i + 1))
        refine ⟨c :: chunks, ?_, ?_, ?_, ?_, ?_⟩
        · unfold plan
          rw [hnext]
          simp only [hplan, Option.map_some]
        · exact List.forall_mem_cons.2 ⟨hsound, hall⟩
        · intro i hi
          cases i with
          | zero => exact ⟨hcap, hstart⟩
          | succ i =>
              obtain ⟨hle, heq⟩ := hplaces i (Nat.lt_of_succ_lt_succ hi)
              refine ⟨hle, ?_⟩
              rw [List.getElem_cons_succ, heq, hstart', List.take_succ_cons, List.map_cons, List.sum_cons,
                Nat.add_assoc]
        · rw [List.flatMap_cons, howners, hleft]
        · rw [List.flatMap_cons, hrest, hrows]
      · obtain ⟨hnext, hleft⟩ := next_none h hdone (cap 0)
        refine ⟨[], ?_, fun c hc => absurd hc List.not_mem_nil, fun i hi => absurd hi (Nat.not_lt_zero i), ?_, ?_⟩
        · unfold plan
          rw [hnext]
        · rw [hleft]
          rfl
        · rw [Nat.sub_eq_zero_of_le hdone]
          rfl

/-- Whatever caps the pacer returns, the planner comes to an end and has cut the batch. -/
theorem plan_partition (counts : List Nat) (splitAt : Nat) (cap : Nat → Nat) (hpos : ∀ n ∈ counts, 1 ≤ n) :
    ∃ chunks, plan (counts.sum + 1) cap (new counts splitAt) = some chunks ∧
      Partition counts splitAt cap chunks := by
  obtain ⟨chunks, hplan, hall, hplaces, howners, hrows⟩ :=
    plan_from hpos (counts.sum + 1) (planned_new hpos splitAt) (Nat.lt_succ_of_le (Nat.sub_le _ _)) cap
  refine ⟨chunks, hplan, hall, fun i h => (hplaces i h).1, fun i h => ?_, howners, ?_⟩
  · rw [(hplaces i h).2]
    exact Nat.zero_add _
  · rw [hrows, List.range_eq_range']
    rfl

theorem plan_partition_three :
    ∃ chunks, plan 7 (fun i => 2 - i) (new [3, 1, 2] 2) = some chunks ∧
      Partition [3, 1, 2] 2 (fun i => 2 - i) chunks :=
  plan_partition [3, 1, 2] 2 (fun i => 2 - i) (by decide)

example : plan 4 (fun _ => 4) (new [3, 2, 1] 2) = some
    [⟨0, [3, 1], 0, [0], .prefill⟩, ⟨4, [1], 1, [0], .prefill⟩, ⟨5, [1], 2, [0], .decode⟩] := by
  decide

end ChunkPlanner

end Oxydllm.Kv
