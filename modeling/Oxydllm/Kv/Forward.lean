/-
# Oxydllm.Kv.Forward — a batch run as one or more forwards (`run_forward_pass`).

The model is a parameter: what a token adds to its sequence's cache and the logits it answers depend on the
rows before it. Every token of the batch is read into the sequence that owns it, in the order of the batch;
a chunk reads a stretch of them, and a sequence's logits stand once its last token is read.
-/
import Oxydllm.Kv.ChunkPlanner
import Oxydllm.Kv.PrefixCache
import Oxydllm.Lib.Traverse

namespace Oxydllm.Kv.Batched

open ChunkPlanner

variable {ρ Λ : Type}

/-- The row a token adds to a cache and the logits it answers, from the rows before it, the token and its
position. -/
structure CausalModel (ρ Λ : Type) where
  row : List ρ → Token → Nat → ρ
  logits : List ρ → Token → Nat → Λ

/-- A sequence inside a forward: its cache and the logits of the token read last. -/
structure Slot (ρ Λ : Type) where
  cache : List ρ
  last : Option Λ

def CausalModel.feed (m : CausalModel ρ Λ) (s : Slot ρ Λ) (x : Token × Nat) : Slot ρ Λ :=
  ⟨s.cache ++ [m.row s.cache x.1 x.2], some (m.logits s.cache x.1 x.2)⟩

/-- `forward_batch_last`: every sequence reads its share of the tokens and answers with the logits of its
last one. A sequence without a token has none. -/
def forwardBatchLast (m : CausalModel ρ Λ) :
    List (List ρ) → List Nat → List (Token × Nat) → Option (List (List ρ × Λ))
  | [], [], [] => some []
  | cache :: caches, count :: counts, xs =>
      let s := (xs.take count).foldl m.feed ⟨cache, none⟩
      s.last.bind fun logits =>
        (forwardBatchLast m caches counts (xs.drop count)).map ((s.cache, logits) :: ·)
  | _, _, _ => none

structure BatchInput where
  allTokenIds : List Token
  allPositions : List Nat
  tokenCounts : List Nat

/-- One turn of the loop: the chunk's window of the input on the caches of its sequences, and the rows of
those that end here. -/
def runChunk (m : CausalModel ρ Λ) (batch : BatchInput) (s : List (List ρ) × List Λ) (chunk : ForwardChunk) :
    Option (List (List ρ) × List Λ) :=
  let input := (batch.allTokenIds.drop chunk.start).take chunk.len
  let positions := (batch.allPositions.drop chunk.start).take chunk.len
  let caches := (s.1.drop chunk.seqBase).take chunk.counts.length
  (forwardBatchLast m caches chunk.counts (input.zip positions)).bind fun out =>
    (chunk.finished.mapM fun row => out[row]?.map Prod.snd).map fun rows =>
      (s.1.take chunk.seqBase ++ out.map Prod.fst ++ s.1.drop (chunk.seqBase + chunk.counts.length),
        s.2 ++ rows)

/-- The loop over the chunks; `cap` is what the pacer says before each of them. -/
def runChunks (m : CausalModel ρ Λ) (batch : BatchInput) :
    Nat → (Nat → Nat) → ChunkPlanner → List (List ρ) × List Λ → Option (List (List ρ) × List Λ)
  | 0, _, _, _ => none
  | fuel + 1, cap, p, s =>
      match p.next (cap 0) with
      | (none, _) => some s
      | (some chunk, p) => (runChunk m batch s chunk).bind (runChunks m batch fuel (fun i => cap (i + 1)) p)

/-- The caches and the logits rows, one a sequence in batch order. -/
def runForwardPass (m : CausalModel ρ Λ) (cap : Nat → Nat) (numPrefills : Nat) (caches : List (List ρ))
    (batch : BatchInput) : Option (List (List ρ) × List Λ) :=
  runChunks m batch (batch.tokenCounts.sum + 1) cap (.new batch.tokenCounts numPrefills) (caches, [])

/-! ## Tokens read into the sequences that own them -/

/-- A token read into sequence `x.1`. -/
def readAt (m : CausalModel ρ Λ) (slots : List (Slot ρ Λ)) (x : Nat × Token × Nat) : List (Slot ρ Λ) :=
  slots.modify x.1 (m.feed · x.2)

theorem readAt_other (m : CausalModel ρ Λ) (slots : List (Slot ρ Λ)) {i : Nat} {tagged : List (Nat × Token × Nat)}
    (h : ∀ x ∈ tagged, x.1 ≠ i) : (tagged.foldl (readAt m) slots)[i]? = slots[i]? := by
  induction tagged generalizing slots with
  | nil => rfl
  | cons x tagged ih =>
      rw [List.foldl_cons, ih _ fun y hy => h y (List.mem_cons_of_mem _ hy)]
      exact List.getElem?_modify_ne (f := (m.feed · x.2)) slots (h x List.mem_cons_self)

theorem readAt_length (m : CausalModel ρ Λ) (slots : List (Slot ρ Λ)) (tagged : List (Nat × Token × Nat)) :
    (tagged.foldl (readAt m) slots).length = slots.length := by
  induction tagged generalizing slots with
  | nil => rfl
  | cons x tagged ih =>
      rw [List.foldl_cons, ih]
      exact List.length_modify _ _ _

/-- The tokens of one sequence, read one after the other. -/
theorem readAt_replicate (m : CausalModel ρ Λ) (slots : List (Slot ρ Λ)) (i : Nat) (xs : List (Token × Nat)) :
    ((List.replicate xs.length i).zip xs).foldl (readAt m) slots =
      slots.modify i fun s => xs.foldl m.feed s := by
  induction xs generalizing slots with
  | nil => exact (List.modify_id i slots).symm
  | cons x xs ih =>
      show ((List.replicate xs.length i).zip xs).foldl (readAt m) (readAt m slots (i, x)) = _
      rw [ih]
      exact List.modify_modify_eq _ _ i slots

theorem modify_middle {α : Type} (f : α → α) (before : List α) (x : α) (after : List α) :
    (before ++ x :: after).modify before.length f = before ++ f x :: after :=
  List.modifyTailIdx_add _ 0 before (x :: after)

/-- The logits a sequence came with are gone once it has read a token. -/
theorem feed_blank (m : CausalModel ρ Λ) (s : Slot ρ Λ) {xs : List (Token × Nat)} (h : xs ≠ []) :
    xs.foldl m.feed s = xs.foldl m.feed ⟨s.cache, none⟩ := by
  obtain ⟨x, rest, rfl⟩ := List.exists_cons_of_ne_nil h
  rfl

theorem feed_last (m : CausalModel ρ Λ) (s : Slot ρ Λ) {xs : List (Token × Nat)} (h : xs ≠ []) :
    ∃ logits, xs.foldl m.feed s = ⟨(xs.foldl m.feed s).cache, some logits⟩ := by
  obtain ⟨init, x, rfl⟩ : ∃ init x, xs = init ++ [x] :=
    ⟨xs.dropLast, xs.getLast h, (List.dropLast_concat_getLast h).symm⟩
  rw [List.foldl_append]
  exact ⟨_, rfl⟩

/-- A forward on the sequences in the middle reads its tokens into them and into no others. -/
theorem forwardBatchLast_readAt (m : CausalModel ρ Λ) {counts : List Nat} (hpos : ∀ n ∈ counts, 0 < n)
    (before slots after : List (Slot ρ Λ)) (hslots : slots.length = counts.length) {xs : List (Token × Nat)}
    (hxs : xs.length = counts.sum) :
    ∃ out, forwardBatchLast m (slots.map (·.cache)) counts xs = some out ∧ out.length = counts.length ∧
      ((owners before.length counts).zip xs).foldl (readAt m) (before ++ slots ++ after) =
        before ++ out.map (fun o => ⟨o.1, some o.2⟩) ++ after := by
  induction counts generalizing before slots xs with
  | nil =>
      obtain rfl := List.eq_nil_of_length_eq_zero hslots
      obtain rfl := List.eq_nil_of_length_eq_zero hxs
      exact ⟨[], rfl, rfl, rfl⟩
  | cons count counts ih =>
      obtain ⟨s, slots, rfl⟩ := List.exists_cons_of_length_eq_add_one hslots
      rw [List.sum_cons] at hxs
      have hcount : 0 < count := hpos count List.mem_cons_self
      have htake : (xs.take count).length = count := by
        rw [List.length_take]
        omega
      have hne : xs.take count ≠ [] := List.ne_nil_of_length_pos (by omega)
      obtain ⟨logits, hfed⟩ := feed_last m ⟨s.cache, none⟩ hne
      have hdrop : (xs.drop count).length = counts.sum := by
        rw [List.length_drop]
        omega
      obtain ⟨out, hout, hlen, hread⟩ := ih (fun n hn => hpos n (List.mem_cons_of_mem _ hn))
        (before ++ [⟨((xs.take count).foldl m.feed ⟨s.cache, none⟩).cache, some logits⟩]) slots
        (Nat.succ_injective hslots) hdrop
      refine ⟨(((xs.take count).foldl m.feed ⟨s.cache, none⟩).cache, logits) :: out, ?_,
        congrArg Nat.succ hlen, ?_⟩
      · rw [List.map_cons]
        unfold forwardBatchLast
        dsimp only
        rw [congrArg Slot.last hfed, Option.bind_some, hout, Option.map_some]
      · rw [List.length_append, List.length_singleton] at hread
        have hsplit : (owners before.length (count :: counts)).zip xs =
            (List.replicate (xs.take count).length before.length).zip (xs.take count) ++
              (owners (before.length + 1) counts).zip (xs.drop count) := by
          rw [owners, htake]
          nth_rewrite 1 [← List.take_append_drop count xs]
          exact List.zip_append (by rw [List.length_replicate, htake])
        rw [hsplit, List.foldl_append, readAt_replicate, List.append_assoc, List.cons_append, modify_middle,
          feed_blank m s hne, hfed, List.map_cons]
        simpa only [List.append_assoc, List.cons_append, List.nil_append] using hread

/-! ## The chunks -/

namespace BatchInput

/-- The tokens of the batch with their positions. -/
def tokens (batch : BatchInput) : List (Token × Nat) := batch.allTokenIds.zip batch.allPositions

/-- A token, a position for each of the sequences' shares, and no share is empty. -/
structure Laid (batch : BatchInput) : Prop where
  ids : batch.allTokenIds.length = batch.tokenCounts.sum
  positions : batch.allPositions.length = batch.tokenCounts.sum
  positive : ∀ n ∈ batch.tokenCounts, 1 ≤ n

theorem Laid.tokens_length {batch : BatchInput} (h : batch.Laid) : batch.tokens.length = batch.tokenCounts.sum := by
  unfold tokens
  rw [List.length_zip, h.ids, h.positions, min_self]

theorem window_eq (batch : BatchInput) (start len : Nat) :
    ((batch.allTokenIds.drop start).take len).zip ((batch.allPositions.drop start).take len) =
      (batch.tokens.drop start).take len := by
  show List.zipWith Prod.mk _ _ = (List.drop _ (List.zipWith Prod.mk _ _)).take _
  rw [List.drop_zipWith, List.take_zipWith]

end BatchInput

theorem owners_length (seq : Nat) (counts : List Nat) : (owners seq counts).length = counts.sum := by
  induction counts generalizing seq with
  | nil => rfl
  | cons count counts ih => rw [owners, List.length_append, List.length_replicate, ih, List.sum_cons]

theorem mem_owners {seq i : Nat} {counts : List Nat} (h : i ∈ owners seq counts) :
    seq ≤ i ∧ i < seq + counts.length := by
  induction counts generalizing seq with
  | nil => exact absurd h List.not_mem_nil
  | cons count counts ih =>
      rw [List.length_cons]
      rcases List.mem_append.1 h with h | h
      · have := List.eq_of_mem_replicate h
        omega
      · have := ih h
        omega

theorem planned_start_le {counts : List Nat} {splitAt : Nat} {p : ChunkPlanner} (h : Planned counts splitAt p) :
    p.start ≤ counts.sum := by
  rcases Nat.lt_or_ge p.seq counts.length with hmore | hdone
  · exact (h.start_lt hmore).le
  · have hbegun := h.begun
    rw [List.drop_eq_nil_of_le hdone] at hbegun
    have hzero : p.doneInSeq = 0 := hbegun
    rw [h.start, List.take_of_length_le hdone, hzero]
    exact le_refl _

/-- The logits a sequence stands at. -/
def answerAt (slots : List (Slot ρ Λ)) (i : Nat) : Option Λ := slots[i]?.bind (·.last)

/-- A chunk reads its window, and its rows are what the sequences that end in it stand at. -/
theorem runChunk_readAt (m : CausalModel ρ Λ) (batch : BatchInput) {splitAt : Nat} {c : ForwardChunk}
    (hc : Sound batch.tokenCounts splitAt c) (slots : List (Slot ρ Λ))
    (hslots : slots.length = batch.tokenCounts.length)
    (hwindow : ((batch.tokens.drop c.start).take c.len).length = c.len) (rows : List Λ) :
    let slots' := ((owners c.seqBase c.counts).zip ((batch.tokens.drop c.start).take c.len)).foldl (readAt m) slots
    ∃ new, runChunk m batch (slots.map (·.cache), rows) c = some (slots'.map (·.cache), rows ++ new) ∧
      new.map some = c.rows.map (answerAt slots') := by
  intro slots'
  have hwithin := hc.within
  have hbefore : (slots.take c.seqBase).length = c.seqBase := by
    rw [List.length_take]
    omega
  have hmiddle : ((slots.drop c.seqBase).take c.counts.length).length = c.counts.length := by
    rw [List.length_take, List.length_drop]
    omega
  obtain ⟨out, hout, hlen, hread⟩ := forwardBatchLast_readAt m hc.positive (slots.take c.seqBase)
    ((slots.drop c.seqBase).take c.counts.length) (slots.drop (c.seqBase + c.counts.length)) hmiddle hwindow
  have hsplit : slots.take c.seqBase ++ (slots.drop c.seqBase).take c.counts.length ++
      slots.drop (c.seqBase + c.counts.length) = slots := by
    rw [← List.take_add, List.take_append_drop]
  rw [hsplit, hbefore] at hread
  have hanswer : ∀ {row : Nat} {o : List ρ × Λ}, out[row]? = some o →
      answerAt slots' (c.seqBase + row) = some o.2 := by
    intro row o hrow
    obtain ⟨hlt, -⟩ := List.getElem?_eq_some_iff.1 hrow
    show (slots'[c.seqBase + row]?).bind _ = _
    rw [show slots' = _ from hread, List.append_assoc,
      List.getElem?_append_right (by rw [hbefore]; exact Nat.le_add_right _ _), hbefore, Nat.add_sub_cancel_left,
      List.getElem?_append_left (by rwa [List.length_map]), List.getElem?_map, hrow]
    rfl
  have hall : (c.finished.mapM fun row => out[row]?.map Prod.snd).isSome := by
    apply Traverse.isSome_mapM_iff.2
    intro row hrow
    have hlt : row < out.length := by
      rw [hlen]
      exact hc.finished row hrow
    rw [List.getElem?_eq_getElem hlt]
    rfl
  obtain ⟨new, hnew⟩ := Option.isSome_iff_exists.1 hall
  have hrows : new.map some = c.rows.map (answerAt slots') := by
    unfold ForwardChunk.rows
    rw [List.map_map]
    apply Traverse.map_of_mapM hnew
    intro row logits hlogits
    obtain ⟨o, hrow, rfl⟩ := Option.map_eq_some_iff.1 hlogits
    exact (hanswer hrow).symm
  refine ⟨new, ?_, hrows⟩
  unfold runChunk
  dsimp only
  rw [batch.window_eq, ← List.map_drop, ← List.map_take, hout, Option.bind_some, hnew, Option.map_some,
    show slots' = _ from hread, List.map_append, List.map_append, List.map_map, List.map_take, List.map_drop]
  rfl

/-- What the chunks from a planner's place on read, and the rows they give. -/
theorem runChunks_readAt (m : CausalModel ρ Λ) {batch : BatchInput} (hbatch : batch.Laid) {splitAt : Nat} (fuel : Nat)
    {p : ChunkPlanner} (hp : Planned batch.tokenCounts splitAt p) (hfuel : batch.tokenCounts.sum - p.start < fuel)
    (cap : Nat → Nat) (slots : List (Slot ρ Λ)) (hslots : slots.length = batch.tokenCounts.length) (rows : List Λ) :
    let slots' := (p.left.zip (batch.tokens.drop p.start)).foldl (readAt m) slots
    ∃ new, runChunks m batch fuel cap p (slots.map (·.cache), rows) = some (slots'.map (·.cache), rows ++ new) ∧
      new.map some =
        (List.range' p.seq (batch.tokenCounts.length - p.seq)).map (answerAt slots') := by
  induction fuel generalizing p cap slots rows with
  | zero => omega
  | succ fuel ih =>
      intro slots'
      rcases Nat.lt_or_ge p.seq batch.tokenCounts.length with hmore | hdone
      · obtain ⟨c, p', hnext, hp', hsound, -, hstart, hstart', hleft, hrange⟩ :=
          next_some hbatch.positive hp hmore (cap 0)
        have hlen := hsound.len_pos
        have hbelow := hp.start_lt hmore
        have hend := planned_start_le hp'
        have hwindow : ((batch.tokens.drop c.start).take c.len).length = c.len := by
          rw [List.length_take, List.length_drop, hbatch.tokens_length]
          omega
        obtain ⟨new, hchunk, hnew⟩ := runChunk_readAt m batch hsound slots hslots hwindow rows
        obtain ⟨later, hrest, hlater⟩ := ih hp' (by omega) (fun i => cap (i + 1))
          (((owners c.seqBase c.counts).zip ((batch.tokens.drop c.start).take c.len)).foldl (readAt m) slots)
          ((readAt_length m _ _).trans hslots) (rows ++ new)
        have hread : slots' = (p'.left.zip (batch.tokens.drop p'.start)).foldl (readAt m)
            (((owners c.seqBase c.counts).zip ((batch.tokens.drop c.start).take c.len)).foldl (readAt m) slots) := by
          rw [← List.foldl_append]
          show ((p.left.zip (batch.tokens.drop p.start)).foldl (readAt m) slots) = _
          rw [← List.zip_append (by rw [owners_length, hwindow]; rfl), ← hleft, hstart', hstart, ← List.drop_drop,
            List.take_append_drop]
        rw [← hread] at hrest hlater
        -- the sequences that end in this chunk own none of the tokens behind it
        have hkept : ∀ i ∈ c.rows, answerAt slots' i = answerAt
            (((owners c.seqBase c.counts).zip ((batch.tokens.drop c.start).take c.len)).foldl (readAt m) slots) i := by
          intro i hi
          have hnodup := List.nodup_range' (s := p.seq) (n := batch.tokenCounts.length - p.seq)
          rw [hrange] at hnodup
          have hout := (List.nodup_append.1 hnodup).2.2 i hi
          unfold answerAt
          rw [hread, readAt_other]
          intro x hx heq
          have hmem : x.1 ∈ p'.left := (List.of_mem_zip hx).1
          have hbetween := mem_owners (List.mem_of_mem_drop hmem)
          rw [hp'.batch, List.length_drop] at hbetween
          exact hout x.1 (List.mem_range'_1.2 hbetween) heq.symm
        refine ⟨new ++ later, ?_, ?_⟩
        · unfold runChunks
          rw [hnext]
          dsimp only
          rw [hchunk, Option.bind_some, hrest, List.append_assoc]
        · rw [hrange, List.map_append, List.map_append, hlater, hnew, List.map_congr_left hkept]
      · obtain ⟨hnext, hleft⟩ := next_none hp hdone (cap 0)
        have hread : slots' = slots := by
          show (p.left.zip _).foldl (readAt m) slots = slots
          rw [hleft]
          rfl
        refine ⟨[], ?_, ?_⟩
        · unfold runChunks
          rw [hnext]
          dsimp only
          rw [hread, List.append_nil]
        · rw [Nat.sub_eq_zero_of_le hdone]
          rfl

/-- However the pacer cuts the batch into forwards, the caches and the logits rows are those of one forward
over the whole of it. -/
theorem runForwardPass_whole (m : CausalModel ρ Λ) (cap : Nat → Nat) (numPrefills : Nat) (caches : List (List ρ))
    (batch : BatchInput) (hbatch : batch.Laid) (hcaches : caches.length = batch.tokenCounts.length) :
    ∃ out, forwardBatchLast m caches batch.tokenCounts batch.tokens = some out ∧
      out.length = caches.length ∧
      runForwardPass m cap numPrefills caches batch = some (out.map Prod.fst, out.map Prod.snd) := by
  have hblank : (caches.map fun cache => (⟨cache, none⟩ : Slot ρ Λ)).map (·.cache) = caches := by
    rw [List.map_map]
    exact List.map_id caches
  have hslots : (caches.map fun cache => (⟨cache, none⟩ : Slot ρ Λ)).length = batch.tokenCounts.length := by
    rwa [List.length_map]
  obtain ⟨out, hout, hlen, hread⟩ := forwardBatchLast_readAt m hbatch.positive [] _ [] hslots hbatch.tokens_length
  obtain ⟨rows, hrun, hnew⟩ := runChunks_readAt m hbatch (batch.tokenCounts.sum + 1)
    (planned_new hbatch.positive numPrefills) (Nat.lt_succ_of_le (Nat.sub_le _ _)) cap _ hslots []
  have hstart : (new batch.tokenCounts numPrefills).left.zip
      (batch.tokens.drop (new batch.tokenCounts numPrefills).start) =
        (owners 0 batch.tokenCounts).zip batch.tokens := rfl
  rw [List.length_nil, List.nil_append, List.append_nil, List.nil_append, List.append_nil] at hread
  rw [hblank] at hout hrun
  rw [hstart, hread] at hrun hnew
  have hrows : rows = out.map Prod.snd := by
    apply List.map_injective_iff.2 (Option.some_injective Λ)
    rw [hnew, List.map_map, ← hlen]
    apply List.ext_getElem
    · rw [List.length_map, List.length_map, List.length_range']
      rfl
    · intro i hi hi'
      rw [List.length_map] at hi'
      rw [List.getElem_map, List.getElem_map, List.getElem_range', Nat.one_mul]
      show ((out.map _)[0 + i]?).bind _ = _
      rw [Nat.zero_add, List.getElem?_map, List.getElem?_eq_getElem hi']
      rfl
  refine ⟨out, hout, hlen.trans hcaches.symm, ?_⟩
  unfold runForwardPass
  rw [hrun, hrows, List.map_map]
  rfl

/-! ## Each sequence by itself -/

/-- What a forward gives a sequence is what it gives it alone. -/
theorem forwardBatchLast_alone (m : CausalModel ρ Λ) {caches : List (List ρ)} {counts : List Nat}
    {xs : List (Token × Nat)} {out : List (List ρ × Λ)} (h : forwardBatchLast m caches counts xs = some out)
    {i : Nat} {cache : List ρ} {count : Nat} (hcache : caches[i]? = some cache) (hcount : counts[i]? = some count) :
    ∃ o, out[i]? = some o ∧
      forwardBatchLast m [cache] [count] ((xs.drop (counts.take i).sum).take count) = some [o] := by
  induction counts generalizing caches xs out i with
  | nil => exact absurd hcount (by simp)
  | cons n counts ih =>
      rcases caches with - | ⟨c, caches⟩
      · exact absurd hcache (by simp)
      unfold forwardBatchLast at h
      dsimp only at h
      obtain ⟨logits, hlast, h⟩ := Option.bind_eq_some_iff.1 h
      obtain ⟨rest, hrest, rfl⟩ := Option.map_eq_some_iff.1 h
      rcases i with - | i
      · obtain rfl : c = cache := Option.some.inj hcache
        obtain rfl : n = count := Option.some.inj hcount
        refine ⟨_, rfl, ?_⟩
        rw [List.take_zero, List.sum_nil, List.drop_zero]
        unfold forwardBatchLast
        dsimp only
        rw [List.take_take, min_self, hlast, Option.bind_some, List.drop_take, Nat.sub_self, List.take_zero]
        rfl
      · obtain ⟨o, ho, halone⟩ := ih hrest hcache hcount
        refine ⟨o, ho, ?_⟩
        rwa [List.take_succ_cons, List.sum_cons, ← List.drop_drop]

namespace BatchInput

/-- A sequence's share of the batch as a batch of its own. -/
def alone (batch : BatchInput) (i : Nat) : BatchInput :=
  let start := (batch.tokenCounts.take i).sum
  let count := batch.tokenCounts.getD i 0
  ⟨(batch.allTokenIds.drop start).take count, (batch.allPositions.drop start).take count, [count]⟩

theorem Laid.alone {batch : BatchInput} (h : batch.Laid) {i : Nat} (hi : i < batch.tokenCounts.length) :
    (batch.alone i).Laid := by
  have hsum : (batch.tokenCounts.take i).sum + batch.tokenCounts[i] ≤ batch.tokenCounts.sum := by
    rw [← List.sum_take_succ _ _ hi, ← List.sum_take_add_sum_drop batch.tokenCounts (i + 1)]
    exact Nat.le_add_right _ _
  have hcount : batch.tokenCounts.getD i 0 = batch.tokenCounts[i] := by
    rw [List.getD_eq_getElem?_getD, List.getElem?_eq_getElem hi]
    rfl
  have hids := h.ids
  have hpositions := h.positions
  refine ⟨?_, ?_, ?_⟩
  · show ((batch.allTokenIds.drop _).take _).length = [batch.tokenCounts.getD i 0].sum
    rw [hcount, List.length_take, List.length_drop, List.sum_singleton]
    omega
  · show ((batch.allPositions.drop _).take _).length = [batch.tokenCounts.getD i 0].sum
    rw [hcount, List.length_take, List.length_drop, List.sum_singleton]
    omega
  · intro n hn
    rw [List.mem_singleton.1 hn, hcount]
    exact h.positive _ (List.getElem_mem hi)

end BatchInput

/-- A sequence of a batch gets the cache and the logits it would get in a batch of its own, whatever runs
beside it and however either batch is cut. -/
theorem runForwardPass_alone (m : CausalModel ρ Λ) (cap : Nat → Nat) (numPrefills : Nat) (caches : List (List ρ))
    (batch : BatchInput) (hbatch : batch.Laid) (hcaches : caches.length = batch.tokenCounts.length) :
    ∃ caches' rows, runForwardPass m cap numPrefills caches batch = some (caches', rows) ∧
      caches'.length = caches.length ∧ rows.length = caches.length ∧
      ∀ i cache, caches[i]? = some cache → ∃ cache' row, caches'[i]? = some cache' ∧ rows[i]? = some row ∧
        ∀ (cap' : Nat → Nat) (numPrefills' : Nat),
          runForwardPass m cap' numPrefills' [cache] (batch.alone i) = some ([cache'], [row]) := by
  obtain ⟨out, hout, hlen, hrun⟩ := runForwardPass_whole m cap numPrefills caches batch hbatch hcaches
  refine ⟨_, _, hrun, by rwa [List.length_map], by rwa [List.length_map], ?_⟩
  intro i cache hcache
  obtain ⟨hi, -⟩ := List.getElem?_eq_some_iff.1 hcache
  rw [hcaches] at hi
  obtain ⟨o, ho, halone⟩ := forwardBatchLast_alone m hout hcache (List.getElem?_eq_getElem hi)
  refine ⟨o.1, o.2, by rw [List.getElem?_map, ho]; rfl, by rw [List.getElem?_map, ho]; rfl, ?_⟩
  intro cap' numPrefills'
  have hcount : batch.tokenCounts.getD i 0 = batch.tokenCounts[i] := by
    rw [List.getD_eq_getElem?_getD, List.getElem?_eq_getElem hi]
    rfl
  obtain ⟨out', hout', -, hrun'⟩ :=
    runForwardPass_whole m cap' numPrefills' [cache] (batch.alone i) (hbatch.alone hi) rfl
  have htokens : (batch.alone i).tokens =
      (batch.tokens.drop (batch.tokenCounts.take i).sum).take batch.tokenCounts[i] := by
    rw [← hcount, ← batch.window_eq]
    rfl
  have hcounts : (batch.alone i).tokenCounts = [batch.tokenCounts[i]] := congrArg (fun n => [n]) hcount
  rw [htokens, hcounts, halone] at hout'
  rw [hrun', ← Option.some.inj hout']
  rfl

/-- A model whose rows are running sums of tokens. -/
def sumModel : CausalModel Nat Nat := ⟨fun rows token pos => rows.sum + token + pos, fun rows token _ => rows.sum * 2 + token⟩

def twoPrompts : BatchInput := ⟨[5, 6, 7, 2], [0, 1, 2, 1], [3, 1]⟩

theorem runForwardPass_alone_two :
    twoPrompts.Laid ∧ ∃ caches' rows, runForwardPass sumModel (fun _ => 2) 1 [[], [4]] twoPrompts = some (caches', rows) ∧
      caches'.length = 2 ∧ rows.length = 2 ∧
      ∀ i cache, ([[], [4]] : List (List Nat))[i]? = some cache →
        ∃ cache' row, caches'[i]? = some cache' ∧ rows[i]? = some row ∧
          ∀ (cap' : Nat → Nat) (numPrefills' : Nat),
            runForwardPass sumModel cap' numPrefills' [cache] (twoPrompts.alone i) = some ([cache'], [row]) :=
  have hlaid : twoPrompts.Laid := ⟨rfl, rfl, by decide⟩
  ⟨hlaid, runForwardPass_alone sumModel (fun _ => 2) 1 [[], [4]] twoPrompts hlaid rfl⟩

example : runForwardPass sumModel (fun _ => 2) 1 [[], [4]] twoPrompts = some ([[5, 12, 26], [4, 7]], [41, 10]) := by
  decide

end Oxydllm.Kv.Batched
