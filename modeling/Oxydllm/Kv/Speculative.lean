/-
# Oxydllm.Kv.Speculative — the speculative decode of one sequence (`run_speculative_decode`).

The draft model proposes tokens one by one, the target checks them all in one forward, and both caches are
rolled back to what was accepted. The forwards of the two models are given; what the model follows is what
they append, layer by layer, and whether the pools have the blocks.

The scheduler promises a decode at most one block of the target's pools, and none of the draft's. The
cycle takes what its appends need.
-/
import Oxydllm.Kv.Room
import Oxydllm.Kv.EngineRun

namespace Oxydllm.Kv

variable {ρ : Type}

/-- A cache beside the pool it draws from. -/
abbrev Layer (ρ : Type) := PagedKvCache ρ × BlockAllocator ρ

/-- What a forward does: the rows it appends to the next layer, from what the layers before it returned,
and the most likely token after each input. -/
structure BatchModel (ρ : Type) where
  rows : List (List ρ) → List Token → List Nat → List ρ
  rows_length : ∀ outs tokens positions, (rows outs tokens positions).length = tokens.length
  argmax : List (List ρ) → List Token → List Token
  argmax_length : ∀ outs tokens, (argmax outs tokens).length = tokens.length

/-- `SPEC_DRAFT_K`. -/
def specDraftK : Nat := 4

/-- What the speculative cycle reads and writes of a sequence. -/
structure SpecSequence (ρ : Type) where
  allTokens : List Token
  numGenerated : Nat
  maxTokens : Nat
  numProcessedTokens : Nat
  status : SequenceStatus
  caches : List (Layer ρ)
  draftCaches : List (Layer ρ)

/-- Where the cycle stands after its forwards. -/
structure SpecForward (ρ : Type) where
  drafts : List Token
  targetAm : List Token
  caches : List (Layer ρ)
  draftCaches : List (Layer ρ)

/-! ## The forwards -/

section

variable [Inhabited ρ] (device : Nat → Bool) (spare : BlockAllocator ρ → List (List ρ))

/-- A forward appends to one layer after the other. -/
def forwardLayers (m : BatchModel ρ) (tokens : List Token) (positions : List Nat) :
    List (List ρ) → List (Layer ρ) → Option (List (List ρ) × List (Layer ρ))
  | outs, [] => some (outs, [])
  | outs, l :: ls =>
      (l.1.append device (spare l.2) l.2 (m.rows outs tokens positions)).bind fun (c, a, out) =>
        (forwardLayers m tokens positions (outs ++ [out]) ls).map fun r => (r.1, (c, a) :: r.2)

def greedyForward (m : BatchModel ρ) (tokens : List Token) (positions : List Nat)
    (ls : List (Layer ρ)) : Option (List Token × List (Layer ρ)) :=
  (forwardLayers device spare m tokens positions [] ls).map fun r => (m.argmax r.1 tokens, r.2)

/-- The next `k` tokens of the draft, each fed back. -/
def draftTokens (m : BatchModel ρ) :
    Nat → Token → Nat → List (Layer ρ) → Option (List Token × List (Layer ρ))
  | 0, _, _, ls => some ([], ls)
  | k + 1, cur, pos, ls =>
      (greedyForward device spare m [cur] [pos] ls).bind fun (out, ls) =>
        out[0]?.bind fun next =>
          (draftTokens m k next (pos + 1) ls).map fun r => (next :: r.1, r.2)

def writesOff (ls : List (Layer ρ)) : List (Layer ρ) := ls.map fun l => (l.1.setPoolWrites false, l.2)

/-- The draft's cache catches up with the confirmed tokens. -/
def fillGap (draft : BatchModel ρ) (allTokens : List Token) (ls : List (Layer ρ)) :
    Option (List (Layer ρ)) :=
  let targetHave := allTokens.length - 1
  let draftHave := ls.head?.elim 0 fun l => l.1.table.numTokens
  if draftHave < targetHave then
    (greedyForward device spare draft ((allTokens.drop draftHave).take (targetHave - draftHave))
      (List.range' draftHave (targetHave - draftHave)) ls).map Prod.snd
  else some ls

/-- The part of the cycle that takes blocks. -/
def specForwards (model draft : BatchModel ρ) (s : SpecSequence ρ) : Option (SpecForward ρ) :=
  let l := s.allTokens.length
  s.allTokens[l - 1]?.bind fun last =>
    ((fillGap device spare draft s.allTokens (writesOff s.draftCaches)).bind
      (draftTokens device spare draft specDraftK last (l - 1))).bind fun (drafts, draftCaches) =>
        (greedyForward device spare model (last :: drafts) (List.range' (l - 1) (specDraftK + 1))
          (writesOff s.caches)).map fun (targetAm, caches) => ⟨drafts, targetAm, caches, draftCaches⟩

end

/-! ## Acceptance and rollback -/

/-- How many drafts the target confirms. -/
def matchLen : List Token → List Token → Nat
  | d :: ds, t :: ts => if t = d then matchLen ds ts + 1 else 0
  | _, _ => 0

/-- The accepted tokens join the sequence, up to a stop. -/
def acceptTokens (stop : Token → List Token → Bool) : List Token → SpecSequence ρ → SpecSequence ρ
  | [], s => s
  | tok :: toks, s =>
      let all := s.allTokens ++ [tok]
      if stop tok all then
        { s with allTokens := all, numProcessedTokens := all.length - 1, status := .finished }
      else
        acceptTokens stop toks
          { s with
            allTokens := all
            numProcessedTokens := all.length - 1
            numGenerated := s.numGenerated + 1
            status := if s.numGenerated + 1 ≥ s.maxTokens then .finished else s.status }

def rollBack (keep : Nat) : List (Layer ρ) → Option (List (Layer ρ))
  | [] => some []
  | l :: ls =>
      (l.1.discardPending.truncateTo l.2 keep).bind fun l => (rollBack keep ls).map (l :: ·)

/-- One turn of the loop of `run_speculative_decode`. -/
def speculativeDecode [Inhabited ρ] (device : Nat → Bool) (spare : BlockAllocator ρ → List (List ρ))
    (model draft : BatchModel ρ) (stop : Token → List Token → Bool) (s : SpecSequence ρ) :
    Option (SpecSequence ρ) :=
  (specForwards device spare model draft s).bind fun r =>
    let m := matchLen r.drafts r.targetAm
    r.targetAm[m]?.bind fun correction =>
      let s := acceptTokens stop (r.drafts.take m ++ [correction])
        { s with caches := r.caches, draftCaches := r.draftCaches }
      let keep := s.allTokens.length - 1
      (rollBack keep s.caches).bind fun caches =>
        (rollBack keep s.draftCaches).map fun draftCaches => { s with caches, draftCaches }

/-! ## What a forward needs -/

section

open PagedKvCache

/-- A layer after appends that bring it to `n` tokens. -/
structure Grown (floor n : Nat) (l l' : Layer ρ) : Prop where
  stands : Stands floor n l'
  room : room l' = room l
  size : l'.1.blockSize = l.1.blockSize

theorem Grown.trans {floor n m : Nat} {ls ls' ls'' : List (Layer ρ)}
    (h : List.Forall₂ (Grown floor n) ls ls') (h' : List.Forall₂ (Grown floor m) ls' ls'') :
    List.Forall₂ (Grown floor m) ls ls'' := by
  induction h generalizing ls'' with
  | nil => exact h'
  | cons hl _ ih =>
      cases h' with
      | cons hl' hls' =>
          exact .cons ⟨hl'.stands, hl'.room.trans hl.room, hl'.size.trans hl.size⟩ (ih hls')

theorem Grown.all {floor n : Nat} {ls ls' : List (Layer ρ)} (h : List.Forall₂ (Grown floor n) ls ls') :
    ∀ l ∈ ls', Stands floor n l := by
  induction h with
  | nil => exact List.forall_mem_nil _
  | cons hl _ ih => exact List.forall_mem_cons.2 ⟨hl.stands, ih⟩

/-- What every layer can hold. -/
def Holds (n : Nat) (ls : List (Layer ρ)) : Prop := ∀ l ∈ ls, blocksFor n l.1.blockSize ≤ room l

theorem Grown.holds_iff {floor n k : Nat} {ls ls' : List (Layer ρ)}
    (h : List.Forall₂ (Grown floor n) ls ls') : Holds k ls' ↔ Holds k ls := by
  induction h with
  | nil => exact Iff.rfl
  | cons hl _ ih =>
      unfold Holds at ih ⊢
      rw [List.forall_mem_cons, List.forall_mem_cons, ih, hl.room, hl.size]

/-- Feeding `t` tokens to layers of `n` tokens: it succeeds exactly when they can hold them, and leaves
layers of `n + t` tokens. -/
structure Feeds {α : Type} (layers : α → List (Layer ρ)) (floor n t : Nat) (ls : List (Layer ρ))
    (res : Option α) : Prop where
  iff : (∃ x, res = some x) ↔ Holds (n + t) ls
  grown : ∀ x, res = some x → List.Forall₂ (Grown floor (n + t)) ls (layers x)

theorem Feeds.bind {α β : Type} {layers : α → List (Layer ρ)} {layers' : β → List (Layer ρ)}
    {floor n t k : Nat} {ls : List (Layer ρ)} {res : Option α} {g : α → Option β}
    (h : Feeds layers floor n t ls res)
    (hg : ∀ x, res = some x → (∀ l ∈ layers x, Stands floor (n + t) l) →
      Feeds layers' floor (n + t) k (layers x) (g x)) :
    Feeds layers' floor n (t + k) ls (res.bind g) := by
  constructor
  · constructor
    · rintro ⟨y, hy⟩
      obtain ⟨x, hx, hy⟩ := Option.bind_eq_some_iff.1 hy
      have hgrown := h.grown x hx
      rw [← Nat.add_assoc, ← Grown.holds_iff hgrown]
      exact (hg x hx (Grown.all hgrown)).iff.1 ⟨y, hy⟩
    · intro hholds
      -- what holds `n + t + k` tokens holds `n + t`
      obtain ⟨x, hx⟩ := h.iff.2 fun l hl =>
        (blocksFor_mono _ (by omega)).trans (hholds l hl)
      have hgrown := h.grown x hx
      rw [← Nat.add_assoc, ← Grown.holds_iff hgrown] at hholds
      obtain ⟨y, hy⟩ := (hg x hx (Grown.all hgrown)).iff.2 hholds
      exact ⟨y, by rw [hx, Option.bind_some, hy]⟩
  · intro y hy
    obtain ⟨x, hx, hy⟩ := Option.bind_eq_some_iff.1 hy
    have hgrown := h.grown x hx
    rw [← Nat.add_assoc]
    exact Grown.trans hgrown ((hg x hx (Grown.all hgrown)).grown y hy)

theorem Feeds.map {α β : Type} {layers : α → List (Layer ρ)} {layers' : β → List (Layer ρ)}
    {floor n t : Nat} {ls : List (Layer ρ)} {res : Option α} {g : α → β}
    (h : Feeds layers floor n t ls res) (hg : ∀ x, layers' (g x) = layers x) :
    Feeds layers' floor n t ls (res.map g) := by
  constructor
  · rw [← h.iff]
    constructor
    · rintro ⟨y, hy⟩
      obtain ⟨x, hx, -⟩ := Option.map_eq_some_iff.1 hy
      exact ⟨x, hx⟩
    · rintro ⟨x, hx⟩
      exact ⟨g x, by rw [hx, Option.map_some]⟩
  · intro y hy
    obtain ⟨x, hx, rfl⟩ := Option.map_eq_some_iff.1 hy
    rw [hg]
    exact h.grown x hx

theorem Feeds.nothing {α : Type} {layers : α → List (Layer ρ)} {floor n : Nat} {x : α}
    (h : ∀ l ∈ layers x, Stands floor n l) : Feeds layers floor n 0 (layers x) (some x) := by
  constructor
  · exact ⟨fun _ l hl => (h l hl).le_room, fun _ => ⟨x, rfl⟩⟩
  · intro y hy
    cases hy
    rw [Nat.add_zero, List.forall₂_same]
    exact fun l hl => ⟨h l hl, rfl, rfl⟩

variable [Inhabited ρ] {device : Nat → Bool} {spare : BlockAllocator ρ → List (List ρ)}

theorem forwardLayers_feeds (hdevice : ∀ n, device n = true) (m : BatchModel ρ) {tokens : List Token}
    (htokens : tokens ≠ []) (positions : List Nat) {floor n : Nat} {outs : List (List ρ)}
    {ls : List (Layer ρ)} (h : ∀ l ∈ ls, Stands floor n l) :
    Feeds Prod.snd floor n tokens.length ls (forwardLayers device spare m tokens positions outs ls) := by
  induction ls generalizing outs with
  | nil =>
      refine ⟨⟨fun _ => List.forall_mem_nil _, fun _ => ⟨_, rfl⟩⟩, fun x hx => ?_⟩
      cases hx
      exact .nil
  | cons l ls ih =>
      obtain ⟨hl, hls⟩ := List.forall_mem_cons.1 h
      have hrows : m.rows outs tokens positions ≠ [] := by
        intro hnil
        have hlen := m.rows_length outs tokens positions
        rw [hnil] at hlen
        exact htokens (List.length_eq_zero_iff.1 hlen.symm)
      have hiff := append_iff hdevice hl hrows (spare l.2)
      rw [m.rows_length] at hiff
      have hholds : Holds (n + tokens.length) (l :: ls) ↔
          blocksFor (n + tokens.length) l.1.blockSize ≤ room l ∧ Holds (n + tokens.length) ls :=
        List.forall_mem_cons
      constructor
      · rw [hholds, ← hiff]
        constructor
        · rintro ⟨x, hx⟩
          obtain ⟨⟨c, a, out⟩, happend, hx⟩ := Option.bind_eq_some_iff.1 hx
          obtain ⟨r, hr, -⟩ := Option.map_eq_some_iff.1 hx
          exact ⟨⟨_, happend⟩, (ih hls).iff.1 ⟨r, hr⟩⟩
        · rintro ⟨⟨⟨c, a, out⟩, happend⟩, hrest⟩
          obtain ⟨r, hr⟩ := (@ih (outs ++ [out]) hls).iff.2 hrest
          exact ⟨(r.1, (c, a) :: r.2), by simp only [forwardLayers, happend, Option.bind_some, hr, Option.map_some]⟩
      · intro x hx
        obtain ⟨⟨c, a, out⟩, happend, hx⟩ := Option.bind_eq_some_iff.1 hx
        obtain ⟨r, hr, rfl⟩ := Option.map_eq_some_iff.1 hx
        obtain ⟨hstands, hroom, hsize⟩ := append_stands hdevice hl hrows happend
        rw [m.rows_length] at hstands
        exact .cons ⟨hstands, hroom, hsize⟩ ((ih hls).grown r hr)

theorem greedyForward_feeds (hdevice : ∀ n, device n = true) (m : BatchModel ρ) {tokens : List Token}
    (htokens : tokens ≠ []) (positions : List Nat) {floor n : Nat} {ls : List (Layer ρ)}
    (h : ∀ l ∈ ls, Stands floor n l) :
    Feeds Prod.snd floor n tokens.length ls (greedyForward device spare m tokens positions ls) :=
  (forwardLayers_feeds hdevice m htokens positions h).map fun _ => rfl

theorem greedyForward_length {m : BatchModel ρ} {tokens : List Token} {positions : List Nat}
    {ls : List (Layer ρ)} {r : List Token × List (Layer ρ)}
    (h : greedyForward device spare m tokens positions ls = some r) : r.1.length = tokens.length := by
  obtain ⟨x, -, rfl⟩ := Option.map_eq_some_iff.1 h
  exact m.argmax_length _ _

theorem draftTokens_feeds (hdevice : ∀ n, device n = true) (m : BatchModel ρ) (k : Nat) (cur : Token)
    (pos : Nat) {floor n : Nat} {ls : List (Layer ρ)} (h : ∀ l ∈ ls, Stands floor n l) :
    Feeds Prod.snd floor n k ls (draftTokens device spare m k cur pos ls) := by
  induction k generalizing cur pos n ls with
  | zero => exact @Feeds.nothing _ _ Prod.snd _ _ (([] : List Token), ls) h
  | succ k ih =>
      have hfeeds : Feeds Prod.snd floor n ([cur].length + k) ls
          (draftTokens device spare m (k + 1) cur pos ls) := by
        refine (greedyForward_feeds hdevice m (List.cons_ne_nil cur []) [pos] h).bind fun x hx hx' => ?_
        obtain ⟨out, ls'⟩ := x
        obtain ⟨next, rfl⟩ := List.length_eq_one_iff.1 (greedyForward_length hx)
        exact (ih next (pos + 1) hx').map fun _ => rfl
      rwa [List.length_singleton, Nat.add_comm 1 k] at hfeeds

theorem draftTokens_length {m : BatchModel ρ} {k : Nat} {cur : Token} {pos : Nat}
    {ls : List (Layer ρ)} {r : List Token × List (Layer ρ)}
    (h : draftTokens device spare m k cur pos ls = some r) : r.1.length = k := by
  induction k generalizing cur pos ls r with
  | zero =>
      cases h
      rfl
  | succ k ih =>
      obtain ⟨⟨out, ls'⟩, -, h⟩ := Option.bind_eq_some_iff.1 h
      obtain ⟨next, -, h⟩ := Option.bind_eq_some_iff.1 h
      obtain ⟨r', hr', rfl⟩ := Option.map_eq_some_iff.1 h
      rw [List.length_cons, ih hr']

/-! ## What the cycle needs -/

theorem PagedKvCache.Stands.setPoolWrites {floor n : Nat} {l : Layer ρ} (h : Stands floor n l) (on : Bool) :
    Stands floor n (l.1.setPoolWrites on, l.2) := by
  obtain ⟨rows, f, hr, hlen, hf⟩ := h.refines
  obtain ⟨env, ho⟩ := h.owns
  exact ⟨⟨rows, f, step_refines hr (.setPoolWrites on), hlen, hf⟩, ⟨env, ho.wf, ho.count⟩,
    h.size, h.addressable⟩

theorem writesOff_stands {floor n : Nat} {ls : List (Layer ρ)} (h : ∀ l ∈ ls, Stands floor n l) :
    ∀ l ∈ writesOff ls, Stands floor n l := by
  intro l hl
  obtain ⟨l₀, hl₀, rfl⟩ := List.mem_map.1 hl
  exact (h l₀ hl₀).setPoolWrites false

omit [Inhabited ρ] in
theorem holds_writesOff {n : Nat} {ls : List (Layer ρ)} : Holds n (writesOff ls) ↔ Holds n ls :=
  List.forall_mem_map

theorem fillGap_feeds (hdevice : ∀ n, device n = true) (draft : BatchModel ρ) {allTokens : List Token}
    {k : Nat} {ls : List (Layer ρ)} (h : ∀ l ∈ ls, Stands k k l) :
    Feeds id k k (allTokens.length - 1 - k) ls (fillGap device spare draft allTokens ls) := by
  cases ls with
  | nil =>
      have hnil : fillGap device spare draft allTokens [] = some [] := by
        unfold fillGap
        dsimp only
        split <;> rfl
      rw [hnil]
      refine ⟨⟨fun _ => List.forall_mem_nil _, fun _ => ⟨_, rfl⟩⟩, fun x hx => ?_⟩
      cases hx
      exact .nil
  | cons l ls =>
      have hhave : l.1.table.numTokens = k := (h l List.mem_cons_self).numTokens
      unfold fillGap
      simp only [List.head?_cons, Option.elim_some, hhave]
      split
      next hlt =>
        have hlen : ((allTokens.drop k).take (allTokens.length - 1 - k)).length =
            allTokens.length - 1 - k := by
          rw [List.length_take, List.length_drop]
          omega
        have hne : (allTokens.drop k).take (allTokens.length - 1 - k) ≠ [] :=
          List.ne_nil_of_length_pos (by omega)
        have hfeeds := @greedyForward_feeds _ _ device spare hdevice draft _ hne
          (List.range' k (allTokens.length - 1 - k)) _ _ _ h
        rw [hlen] at hfeeds
        exact hfeeds.map fun _ => rfl
      next hge =>
        rw [Nat.sub_eq_zero_of_le (Nat.le_of_not_lt hge)]
        exact @Feeds.nothing _ _ id _ _ (l :: ls) h

/-- Where a sequence stands before its cycle: the target's caches hold all tokens but the last, the
draft's no more. -/
structure Entry (s : SpecSequence ρ) : Prop where
  nonempty : 0 < s.allTokens.length
  target : ∀ l ∈ s.caches, Stands (s.allTokens.length - 1) (s.allTokens.length - 1) l
  draft : ∃ k, k ≤ s.allTokens.length - 1 ∧ ∀ l ∈ s.draftCaches, Stands k k l

/-- What the forwards leave. -/
structure Forwarded (s : SpecSequence ρ) (r : SpecForward ρ) : Prop where
  target : List.Forall₂ (Grown (s.allTokens.length - 1) (s.allTokens.length + specDraftK))
    (writesOff s.caches) r.caches
  draft : ∃ k, k ≤ s.allTokens.length - 1 ∧ (∀ l ∈ s.draftCaches, Stands k k l) ∧
    List.Forall₂ (Grown k (s.allTokens.length - 1 + specDraftK)) (writesOff s.draftCaches) r.draftCaches
  drafts_length : r.drafts.length = specDraftK

theorem specForwards_spec (hdevice : ∀ n, device n = true) (model draft : BatchModel ρ)
    {s : SpecSequence ρ} (h : Entry s) :
    ((∃ r, specForwards device spare model draft s = some r) ↔
      Holds (s.allTokens.length + specDraftK) s.caches ∧
        Holds (s.allTokens.length - 1 + specDraftK) s.draftCaches) ∧
      ∀ r, specForwards device spare model draft s = some r → Forwarded s r := by
  obtain ⟨k, hk, hdraft⟩ := h.draft
  have hpos := h.nonempty
  have hlast : s.allTokens[s.allTokens.length - 1]? = some s.allTokens[s.allTokens.length - 1] :=
    List.getElem?_eq_getElem (by omega)
  -- the draft's side: the gap, then the proposals
  have hd := (@fillGap_feeds _ _ device spare hdevice draft s.allTokens _ _
    (writesOff_stands hdraft)).bind (g := draftTokens device spare draft specDraftK
      s.allTokens[s.allTokens.length - 1] (s.allTokens.length - 1)) fun x _ hx =>
        draftTokens_feeds hdevice draft specDraftK _ _ hx
  have hsum : k + (s.allTokens.length - 1 - k + specDraftK) = s.allTokens.length - 1 + specDraftK := by
    omega
  -- the target's side: the last token and the proposals
  have ht : ∀ drafts : List Token, drafts.length = specDraftK →
      Feeds Prod.snd (s.allTokens.length - 1) (s.allTokens.length - 1) (specDraftK + 1)
        (writesOff s.caches) (greedyForward device spare model
          (s.allTokens[s.allTokens.length - 1] :: drafts)
          (List.range' (s.allTokens.length - 1) (specDraftK + 1)) (writesOff s.caches)) := by
    intro drafts hlen
    have hfeeds := @greedyForward_feeds _ _ device spare hdevice model _
      (List.cons_ne_nil s.allTokens[s.allTokens.length - 1] drafts)
      (List.range' (s.allTokens.length - 1) (specDraftK + 1)) _ _ _ (writesOff_stands h.target)
    rwa [List.length_cons, hlen] at hfeeds
  have hsum' : s.allTokens.length - 1 + (specDraftK + 1) = s.allTokens.length + specDraftK := by omega
  have hiff := hd.iff
  rw [hsum, holds_writesOff] at hiff
  have hdrafts : ∀ x, (fillGap device spare draft s.allTokens (writesOff s.draftCaches)).bind
      (draftTokens device spare draft specDraftK s.allTokens[s.allTokens.length - 1]
        (s.allTokens.length - 1)) = some x → x.1.length = specDraftK := by
    intro x hx
    obtain ⟨ls, -, hx⟩ := Option.bind_eq_some_iff.1 hx
    exact draftTokens_length hx
  unfold specForwards
  simp only [hlast, Option.bind_some]
  constructor
  · constructor
    · rintro ⟨r, hr⟩
      obtain ⟨x, hx, hr⟩ := Option.bind_eq_some_iff.1 hr
      obtain ⟨v, hv, -⟩ := Option.map_eq_some_iff.1 hr
      have htarget := (ht x.1 (hdrafts x hx)).iff.1 ⟨v, hv⟩
      rw [hsum', holds_writesOff] at htarget
      exact ⟨htarget, hiff.1 ⟨x, hx⟩⟩
    · rintro ⟨htarget, hrest⟩
      obtain ⟨x, hx⟩ := hiff.2 hrest
      rw [← holds_writesOff, ← hsum'] at htarget
      obtain ⟨v, hv⟩ := (ht x.1 (hdrafts x hx)).iff.2 htarget
      exact ⟨_, by rw [hx, Option.bind_some, hv, Option.map_some]⟩
  · intro r hr
    obtain ⟨x, hx, hr⟩ := Option.bind_eq_some_iff.1 hr
    obtain ⟨v, hv, rfl⟩ := Option.map_eq_some_iff.1 hr
    have htarget := (ht x.1 (hdrafts x hx)).grown v hv
    have hgrown := hd.grown x hx
    rw [hsum'] at htarget
    rw [hsum] at hgrown
    exact ⟨htarget, ⟨k, hk, hdraft, hgrown⟩, hdrafts x hx⟩

/-- The blocks a layer hands the cycle are free, and beyond those promised to other sequences. -/
def TakesAtMost (promised : Nat) (l l' : Layer ρ) : Prop :=
  l'.1.table.blockIds.length - l.1.table.blockIds.length + promised ≤ l.2.numFree

/-- The forwards of the cycle go through, on blocks of their own. The scheduler promises other sequences
blocks of the target's pools only. -/
def Served (device : Nat → Bool) (spare : BlockAllocator ρ → List (List ρ)) (model draft : BatchModel ρ)
    (promised : Nat) (s : SpecSequence ρ) : Prop :=
  ∃ r, specForwards device spare model draft s = some r ∧
    List.Forall₂ (TakesAtMost promised) s.caches r.caches ∧
      List.Forall₂ (TakesAtMost 0) s.draftCaches r.draftCaches

/-- Every target layer has the blocks of the tokens and the `K` proposals, every draft layer those of one
token less. -/
def HasRoom (promised : Nat) (s : SpecSequence ρ) : Prop :=
  (∀ l ∈ s.caches,
      blocksFor (s.allTokens.length + specDraftK) l.1.blockSize + promised ≤
        l.1.table.blockIds.length + l.2.numFree) ∧
    ∀ l ∈ s.draftCaches,
      blocksFor (s.allTokens.length - 1 + specDraftK) l.1.blockSize ≤
        l.1.table.blockIds.length + l.2.numFree

omit [Inhabited ρ] in
theorem takesAtMost_iff {floor floor' n n' promised : Nat} (hle : n ≤ n') {ls ls' : List (Layer ρ)}
    (h : ∀ l ∈ ls, Stands floor n l) (hgrown : List.Forall₂ (Grown floor' n') (writesOff ls) ls') :
    List.Forall₂ (TakesAtMost promised) ls ls' ↔
      ∀ l ∈ ls, blocksFor n' l.1.blockSize + promised ≤ l.1.table.blockIds.length + l.2.numFree := by
  induction ls generalizing ls' with
  | nil =>
      cases hgrown
      exact ⟨fun _ => List.forall_mem_nil _, fun _ => .nil⟩
  | cons l ls ih =>
      cases hgrown with
      | cons hl hls =>
          obtain ⟨hstands, hrest⟩ := List.forall_mem_cons.1 h
          rw [List.forall₂_cons, List.forall_mem_cons, ih hrest hls]
          refine and_congr_left fun _ => ?_
          have hsize : _ = l.1.blockSize := hl.size
          have hblocks := hl.stands.blocks
          rw [hsize] at hblocks
          have hbefore := hstands.blocks
          have hmono := blocksFor_mono l.1.blockSize hle
          rw [TakesAtMost, hblocks]
          omega

theorem served_iff (hdevice : ∀ n, device n = true) (model draft : BatchModel ρ)
    {s : SpecSequence ρ} (h : Entry s) (promised : Nat) :
    Served device spare model draft promised s ↔ HasRoom promised s := by
  obtain ⟨hiff, hspec⟩ := @specForwards_spec _ _ device spare hdevice model draft s h
  have htakes : ∀ r, specForwards device spare model draft s = some r →
      ((List.Forall₂ (TakesAtMost promised) s.caches r.caches ∧
        List.Forall₂ (TakesAtMost 0) s.draftCaches r.draftCaches) ↔ HasRoom promised s) := by
    intro r hr
    have hf := hspec r hr
    obtain ⟨k, hk, hdraft, hgrown⟩ := hf.draft
    rw [takesAtMost_iff (by omega) h.target hf.target, takesAtMost_iff (by omega) hdraft hgrown]
    rfl
  constructor
  · rintro ⟨r, hr, htake⟩
    exact (htakes r hr).1 htake
  · intro hroom
    obtain ⟨r, hr⟩ := hiff.2 ⟨fun l hl => (Nat.le_add_right _ _).trans (hroom.1 l hl), hroom.2⟩
    exact ⟨r, hr, (htakes r hr).2 hroom⟩

/-! ## What the cycle leaves -/

omit [Inhabited ρ] in
theorem matchLen_le (drafts targetAm : List Token) : matchLen drafts targetAm ≤ drafts.length := by
  induction drafts generalizing targetAm with
  | nil => exact Nat.le_refl 0
  | cons d ds ih =>
      cases targetAm with
      | nil => exact Nat.zero_le _
      | cons t ts =>
          unfold matchLen
          split
          · exact Nat.succ_le_succ (ih ts)
          · exact Nat.zero_le _

omit [Inhabited ρ] in
/-- At least one token joins, at most all of them. -/
theorem acceptTokens_spec (stop : Token → List Token → Bool) {toks : List Token} (htoks : toks ≠ [])
    (s : SpecSequence ρ) :
    s.allTokens.length < (acceptTokens stop toks s).allTokens.length ∧
      (acceptTokens stop toks s).allTokens.length ≤ s.allTokens.length + toks.length ∧
        (acceptTokens stop toks s).caches = s.caches ∧
          (acceptTokens stop toks s).draftCaches = s.draftCaches := by
  induction toks generalizing s with
  | nil => exact absurd rfl htoks
  | cons tok toks ih =>
      by_cases hstop : stop tok (s.allTokens ++ [tok]) = true
      · simp [acceptTokens, hstop]
      · rw [acceptTokens]
        simp only [hstop, Bool.false_eq_true, if_false]
        cases toks with
        | nil => simp [acceptTokens]
        | cons next toks =>
            have hrest := ih (List.cons_ne_nil next toks)
              { s with
                allTokens := s.allTokens ++ [tok]
                numProcessedTokens := (s.allTokens ++ [tok]).length - 1
                numGenerated := s.numGenerated + 1
                status := if s.numGenerated + 1 ≥ s.maxTokens then .finished else s.status }
            simp only [List.length_append, List.length_cons, List.length_nil] at hrest ⊢
            obtain ⟨h1, h2, h3, h4⟩ := hrest
            exact ⟨by omega, by omega, h3, h4⟩

theorem rollBack_stands {floor n keep : Nat} (hfloor : floor ≤ keep)
    (hmargin : n ≤ keep + windowKeepMargin) {ls ls' : List (Layer ρ)}
    (h : ∀ l ∈ ls, Stands floor n l) (hroll : rollBack keep ls = some ls') :
    ∀ l ∈ ls', Stands (min n keep) (min n keep) l := by
  induction ls generalizing ls' with
  | nil =>
      cases hroll
      exact List.forall_mem_nil _
  | cons l ls ih =>
      obtain ⟨hl, hls⟩ := List.forall_mem_cons.1 h
      obtain ⟨l', hl', hroll⟩ := Option.bind_eq_some_iff.1 hroll
      obtain ⟨rest, hrest, rfl⟩ := Option.map_eq_some_iff.1 hroll
      refine List.forall_mem_cons.2 ⟨?_, ih hls hrest⟩
      obtain ⟨rows, f, hr, hlen, hf⟩ := hl.refines
      obtain ⟨env, ho⟩ := hl.owns
      have hdiscard : Refines ⟨l.1.discardPending, l.2, ⟨rows, f, true⟩⟩ :=
        ⟨hr.block_pos, hr.pool, hr.num, hr.slots, held_frame hr.held rfl rfl rfl rfl
          fun _ _ => ⟨rfl, fun _ _ => rfl⟩, hr.kept, hr.floor_le, hr.fits⟩
      have hown : Owns env l.1.discardPending l.2 := ⟨ho.wf, ho.count⟩
      have hstep := truncateTo_owns hown hl'
      have hnum : l.1.table.numTokens = n := hl.numTokens
      obtain ⟨hrefines, hsize⟩ : (∃ rows f, Refines ⟨l'.1, l'.2, ⟨rows, f, true⟩⟩ ∧
          rows.length = min n keep ∧ f ≤ min n keep) ∧ l'.1.blockSize = l.1.blockSize := by
        by_cases hge : keep ≥ n
        · -- the cache is not longer than what is kept
          have hle : keep ≥ l.1.discardPending.table.numTokens := by
            show l.1.table.numTokens ≤ keep
            omega
          rw [truncateTo, if_pos hle] at hl'
          cases hl'
          rw [Nat.min_eq_left hge]
          exact ⟨⟨rows, f, hdiscard, hlen, hlen ▸ hr.floor_le⟩, rfl⟩
        · have hback : Rollback ⟨l.1.discardPending, l.2, ⟨rows, f, true⟩⟩ keep := by
            refine ⟨?_, ?_, hf.trans hfloor⟩
            · show keep ≤ l.1.table.numTokens
              omega
            · show l.1.table.numTokens - keep ≤ windowKeepMargin
              omega
          have hcut := truncateTo_refines hdiscard hback hl'
          rw [Nat.min_eq_right (by omega)]
          refine ⟨⟨rows.take keep, keep, hcut, ?_, le_rfl⟩, (step_geometry (.truncateTo keep hback hl')).1⟩
          rw [List.length_take]
          omega
      refine ⟨hrefines, ⟨env, hstep.owns⟩, ?_, ?_⟩
      · rw [hstep.blockSize, hsize]
        exact hl.size
      · rw [hstep.maxBlocks, hstep.blockSize]
        exact hl.addressable

theorem speculativeDecode_entry (hdevice : ∀ n, device n = true) {model draft : BatchModel ρ}
    {stop : Token → List Token → Bool} {s s' : SpecSequence ρ} (h : Entry s)
    (hs : speculativeDecode device spare model draft stop s = some s') : Entry s' := by
  obtain ⟨r, hr, hs⟩ := Option.bind_eq_some_iff.1 hs
  obtain ⟨correction, -, hs⟩ := Option.bind_eq_some_iff.1 hs
  obtain ⟨caches, hcaches, hs⟩ := Option.bind_eq_some_iff.1 hs
  obtain ⟨draftCaches, hdrafts, rfl⟩ := Option.map_eq_some_iff.1 hs
  have hf := (@specForwards_spec _ _ device spare hdevice model draft s h).2 r hr
  obtain ⟨k, hk, -, hgrown⟩ := hf.draft
  obtain ⟨hlt, hle, hsame, hsame'⟩ := acceptTokens_spec stop
    (List.append_ne_nil_of_right_ne_nil (r.drafts.take (matchLen r.drafts r.targetAm))
      (List.cons_ne_nil correction []))
    { s with caches := r.caches, draftCaches := r.draftCaches }
  rw [hsame] at hcaches
  rw [hsame'] at hdrafts
  have hm := matchLen_le r.drafts r.targetAm
  have hlen := hf.drafts_length
  rw [List.length_append, List.length_take, List.length_singleton] at hle
  generalize acceptTokens stop _ _ = t at hlt hle hcaches hdrafts ⊢
  have hlt : s.allTokens.length < t.allTokens.length := hlt
  have hle : t.allTokens.length ≤ s.allTokens.length + (specDraftK + 1) := by
    refine hle.trans (Nat.add_le_add_left ?_ _)
    omega
  have hK : specDraftK = 4 := rfl
  have hmargin : windowKeepMargin = 16 := rfl
  have hpos := h.nonempty
  constructor
  · show 0 < t.allTokens.length
    omega
  · have hstands := rollBack_stands (by omega) (by omega) (Grown.all hf.target) hcaches
    rwa [Nat.min_eq_right (by omega)] at hstands
  · have hstands := rollBack_stands (by omega) (by omega) (Grown.all hgrown) hdrafts
    exact ⟨_, Nat.min_le_right _ _, hstands⟩

end

/-! ## Runs -/

section

open PagedKvCache

variable [Inhabited ρ]

/-- A layer that a run of its cache brought to `n` tokens, in a pool it shares with others and whose slots
have `u32` indices. -/
structure Prefilled (n : Nat) (l : Layer ρ) : Prop where
  reach : ∃ a rows floor, a.Laid ∧ Reach a ⟨l.1, l.2, ⟨rows, floor, true⟩⟩ ∧ rows.length = n
  owns : ∃ env, Owns env l.1 l.2
  size : l.2.blockSize = l.1.blockSize
  addressable : l.2.maxBlocks * l.2.blockSize ≤ 2 ^ 32

/-- What other sequences and the prefix cache do to the pool: the rows of the sequence stay, and so do
its references. -/
structure Around (l l' : Layer ρ) : Prop where
  cache : l'.1 = l.1
  laid : l'.2.Laid
  rows : ∀ slot ∈ l.1.table.cachedSlots, l'.2.row slot = l.2.row slot
  owns : ∃ env, Owns env l.1 l'.2
  maxBlocks : l'.2.maxBlocks = l.2.maxBlocks
  blockSize : l'.2.blockSize = l.2.blockSize

/-- The states in which a sequence meets its speculative cycles, from a prefill (the first, or one after
a preemption) on. -/
inductive SpecReach (device : Nat → Bool) (spare : BlockAllocator ρ → List (List ρ))
    (model draft : BatchModel ρ) (stop : Token → List Token → Bool) : SpecSequence ρ → Prop
  | prefilled (s : SpecSequence ρ) (hne : 0 < s.allTokens.length)
      (hcaches : ∀ l ∈ s.caches, Prefilled (s.allTokens.length - 1) l)
      (hdrafts : ∀ l ∈ s.draftCaches, Prefilled 0 l) : SpecReach device spare model draft stop s
  | others {s : SpecSequence ρ} (h : SpecReach device spare model draft stop s)
      (caches draftCaches : List (Layer ρ)) (hcaches : List.Forall₂ Around s.caches caches)
      (hdrafts : List.Forall₂ Around s.draftCaches draftCaches) :
      SpecReach device spare model draft stop { s with caches, draftCaches }
  | cycle {s s' : SpecSequence ρ} (h : SpecReach device spare model draft stop s)
      (hs : speculativeDecode device spare model draft stop s = some s') :
      SpecReach device spare model draft stop s'

theorem Prefilled.stands {n : Nat} {l : Layer ρ} (h : Prefilled n l) : Stands n n l := by
  obtain ⟨a, rows, floor, ha, hreach, hlen⟩ := h.reach
  have hr := reach_refines ha hreach
  exact ⟨⟨rows, floor, hr, hlen, hlen ▸ hr.floor_le⟩, h.owns, h.size, h.addressable⟩

theorem Around.stands {floor n : Nat} {ls ls' : List (Layer ρ)} (h : List.Forall₂ Around ls ls')
    (hls : ∀ l ∈ ls, Stands floor n l) : ∀ l ∈ ls', Stands floor n l := by
  induction h with
  | nil => exact List.forall_mem_nil _
  | @cons l l' ls ls' hl _ ih =>
      obtain ⟨hstands, hrest⟩ := List.forall_mem_cons.1 hls
      refine List.forall_mem_cons.2 ⟨?_, ih hrest⟩
      obtain ⟨rows, f, hr, hlen, hf⟩ := hstands.refines
      have hstep : Refines ⟨l'.1, l'.2, ⟨rows, f, true⟩⟩ := by
        rw [hl.cache]
        exact step_refines hr (.others l'.2 hl.laid hl.rows)
      refine ⟨⟨rows, f, hstep, hlen, hf⟩, ?_, ?_, ?_⟩
      · rw [hl.cache]
        exact hl.owns
      · rw [hl.cache, hl.blockSize]
        exact hstands.size
      · rw [hl.maxBlocks, hl.blockSize]
        exact hstands.addressable

variable {device : Nat → Bool} {spare : BlockAllocator ρ → List (List ρ)} {model draft : BatchModel ρ}
  {stop : Token → List Token → Bool}

theorem SpecReach.entry (hdevice : ∀ n, device n = true) {s : SpecSequence ρ}
    (h : SpecReach device spare model draft stop s) : Entry s := by
  induction h with
  | prefilled s hne hcaches hdrafts =>
      exact ⟨hne, fun l hl => (hcaches l hl).stands,
        ⟨0, Nat.zero_le _, fun l hl => (hdrafts l hl).stands⟩⟩
  | others _ caches draftCaches hcaches hdrafts ih =>
      obtain ⟨k, hk, hdraft⟩ := ih.draft
      exact ⟨ih.nonempty, Around.stands hcaches ih.target, ⟨k, hk, Around.stands hdrafts hdraft⟩⟩
  | cycle _ hs ih => exact speculativeDecode_entry hdevice ih hs

/-- In every state of every run, the cycle is served exactly when every pool has the blocks of the `K`
proposals beside those promised. -/
theorem spec_blocks_iff (hdevice : ∀ n, device n = true) {s : SpecSequence ρ}
    (h : SpecReach device spare model draft stop s) (promised : Nat) :
    Served device spare model draft promised s ↔ HasRoom promised s :=
  served_iff hdevice model draft (h.entry hdevice) promised

/-! ## A run -/

/-- A model that appends the tokens themselves and repeats its input. -/
def echo : BatchModel Nat := ⟨fun _ tokens _ => tokens, fun _ _ _ => rfl, fun _ tokens => tokens, fun _ _ => rfl⟩

/-- Four blocks of one slot. -/
def fourSlots : BlockAllocator Nat := ⟨[[0, 0, 0, 0]], [0, 1, 2, 3], [0, 0, 0, 0], 4, 4, 4, 1, none⟩

theorem fourSlots_growing :
    BlockAllocator.growing 4 4 1 none (fun _ => true) = some fourSlots := rfl

/-- The draft's pool is twice as large. -/
def eightSlots : BlockAllocator Nat :=
  ⟨[List.replicate 8 0], List.range 8, List.replicate 8 0, 8, 8, 8, 1, none⟩

theorem eightSlots_growing :
    BlockAllocator.growing 8 8 1 none (fun _ => true) = some eightSlots := rfl

/-- The layer after the prefill of a prompt of one token. -/
def oneRow : Layer Nat :=
  (⟨⟨[0], 1, [0]⟩, 1, none, some ([7] ++ List.replicate 63 0), 1, 0, [], true⟩,
    ⟨[[7, 0, 0, 0]], [1, 2, 3], [1, 0, 0, 0], 4, 4, 4, 1, none⟩)

/-- A prompt of one token and three to come, the first of them sampled, in a pool of four tokens. -/
def tight : SpecSequence Nat :=
  ⟨[7, 5], 1, 3, 1, .running, [oneRow], [(.new eightSlots, eightSlots)]⟩

theorem new_owns {maxBlocks segmentBlocks blockSize : Nat} {window : Option Nat}
    {device : Nat → Bool} {a : BlockAllocator ρ}
    (h : BlockAllocator.growing maxBlocks segmentBlocks blockSize window device = some a) :
    Owns (fun _ => 0) (.new a) a := by
  obtain ⟨hwf, hzero⟩ := growing_counts h
  exact ⟨hwf, fun b => by rw [hzero]; rfl⟩

theorem oneRow_prefilled : Prefilled 1 oneRow := by
  have hlaid := BlockAllocator.growing_laid Nat.one_pos fourSlots_growing
  -- one append and its flush
  have happend : append (fun _ => true) [] (.new fourSlots) fourSlots [7] = some
      ({ oneRow.1 with pendingWrites := [⟨[7], [⟨0, 0, 1⟩]⟩] },
        { oneRow.2 with segments := [[0, 0, 0, 0]] }, [7]) := rfl
  have hflush : flushPending { oneRow.1 with pendingWrites := [⟨[7], [⟨0, 0, 1⟩]⟩] }
      { oneRow.2 with segments := [[0, 0, 0, 0]] } = some oneRow := rfl
  have hreach : Reach fourSlots ⟨oneRow.1, oneRow.2, ⟨[7], 0, true⟩⟩ :=
    (Relation.ReflTransGen.single (.append (fun _ => true) [] [7] (List.cons_ne_nil _ _) happend)).tail
      (.flushPending hflush)
  have howns := (flushPending_owns (append_owns (new_owns fourSlots_growing) happend).owns hflush).1.owns
  exact ⟨⟨_, _, _, hlaid, hreach, rfl⟩, ⟨_, howns⟩, rfl, by decide⟩

theorem eightSlots_prefilled : Prefilled 0 (.new eightSlots, eightSlots) :=
  ⟨⟨_, [], 0, BlockAllocator.growing_laid Nat.one_pos eightSlots_growing, .refl, rfl⟩,
    ⟨_, new_owns eightSlots_growing⟩, rfl, by decide⟩

theorem tight_reach : SpecReach (fun _ => true) (fun _ => []) echo echo (fun _ _ => false) tight :=
  .prefilled tight (by decide) (List.forall_mem_singleton.2 oneRow_prefilled)
    (List.forall_mem_singleton.2 eightSlots_prefilled)

theorem spec_blocks_tight :
    Served (fun _ => true) (fun _ => []) echo echo 0 tight ↔ HasRoom 0 tight :=
  spec_blocks_iff (fun _ => rfl) tight_reach 0

/-- A request that fits its pool and has it alone fails at its first cycle: the five tokens of the check
need two blocks more than there are. -/
theorem tight_unserved :
    [7].length + tight.maxTokens ≤ fourSlots.maxBlocks * fourSlots.blockSize ∧
      SpecReach (fun _ => true) (fun _ => []) echo echo (fun _ _ => false) tight ∧
        (∀ l ∈ tight.caches ++ tight.draftCaches, room l = l.2.maxBlocks) ∧
          ¬ Served (fun _ => true) (fun _ => []) echo echo 0 tight := by
  refine ⟨by decide, tight_reach, ?_, ?_⟩
  · decide
  · rintro ⟨r, hr, -⟩
    have hnone : specForwards (fun _ => true) (fun _ => []) echo echo tight = none := rfl
    rw [hnone] at hr
    cases hr

end

end Oxydllm.Kv
