/-
# Oxydllm.Moe.ExpertCache — streamed experts in a cache with a budget in bytes.

`fetchMany` stamps what a call finds, reads the rest, and then evicts what no call has used for longest until
the budget is kept or only the call's own experts are left. A call may fail while reading or while draining
evicted buffers; the cache stays sound either way (`Sound.fetchMany`), so it is after any calls
(`fetchMany_sound`). An entry's stamp is the number of the last call that asked for it.
-/
import Oxydllm.Lib.Traverse
import Mathlib.Data.List.Nodup
import Mathlib.Data.List.Perm.Basic
import Mathlib.Tactic

namespace Oxydllm.Moe

/-! ## The cache -/

/-- `(layer_idx as u32, e as u32)`. -/
def expertKey (layer e : Nat) : Nat × Nat := (layer % 2 ^ 32, e % 2 ^ 32)

structure CacheEntry (E : Type) where
  expert : E
  bytes : Nat
  lastUse : Nat

structure LruState (E : Type) where
  cache : List ((Nat × Nat) × CacheEntry E)
  clock : Nat
  bytes : Nat
  hits : Nat
  misses : Nat
  graveyard : List E
  graveyardBytes : Nat

/-- `GRAVEYARD_DRAIN_BYTES`. -/
def graveyardDrainBytes : Nat := 512 * 2 ^ 20

variable {E : Type}

/-- The pool as `StreamedExperts::new` makes it. -/
def LruState.new : LruState E := ⟨[], 0, 0, 0, 0, [], 0⟩

/-- A hash map is walked in any order. -/
structure WalkOrder (α : Type) where
  walk : List α → List α
  perm : ∀ l, (walk l).Perm l

/-- A call: the ids that a layer's dispatch asks for, which are distinct and fit their `u32` key, what reading
and building an expert comes to, whether a drain works, and the order the map is walked in. What can be read
is what the checkpoint has. -/
structure Call (checkpoint : Nat → Nat → E × Nat) where
  layer : Nat
  ids : List Nat
  layer_lt : layer < 2 ^ 32
  ids_lt : ∀ e ∈ ids, e < 2 ^ 32
  ids_nodup : ids.Nodup
  load : Nat → Except String (E × Nat)
  load_eq : ∀ e r, load e = .ok r → r = checkpoint layer e
  drain : Except String Unit
  order : WalkOrder ((Nat × Nat) × CacheEntry E)

/-- How a call ends without experts. -/
inductive FetchFailure
  | error (msg : String)
  | panic
  deriving DecidableEq

/-- What a call leaves behind: the cache, the entries it evicted in order, and what it returns. -/
structure Fetched (E : Type) where
  state : LruState E
  victims : List ((Nat × Nat) × CacheEntry E)
  result : Except FetchFailure (List E)

def cachedEntry (cache : List ((Nat × Nat) × CacheEntry E)) (key : Nat × Nat) : Option (CacheEntry E) :=
  (cache.find? fun p => p.1 = key).map (·.2)

/-- `entry.last_use = clock` for the entry of a key. -/
def stamp (clock : Nat) (key : Nat × Nat) (p : (Nat × Nat) × CacheEntry E) : (Nat × Nat) × CacheEntry E :=
  if p.1 = key then (p.1, { p.2 with lastUse := clock }) else p

/-- One id of the first loop: a hit is stamped, a miss is noted once. -/
def lookUp (layer clock : Nat) (st : LruState E × List Nat) (e : Nat) : LruState E × List Nat :=
  let key := expertKey layer e
  if (cachedEntry st.1.cache key).isSome then
    ({ st.1 with cache := st.1.cache.map (stamp clock key), hits := st.1.hits + 1 }, st.2)
  else if e ∈ st.2 then st
  else (st.1, st.2 ++ [e])

/-- `cache.insert`. -/
def insertEntry (cache : List ((Nat × Nat) × CacheEntry E)) (key : Nat × Nat) (entry : CacheEntry E) :
    List ((Nat × Nat) × CacheEntry E) := (cache.filter fun p => ¬ p.1 = key) ++ [(key, entry)]

/-- One expert of the insertion loop. -/
def insertMiss (layer clock : Nat) (s : LruState E) (m : Nat × (E × Nat)) : LruState E :=
  { s with
    cache := insertEntry s.cache (expertKey layer m.1) ⟨m.2.1, m.2.2, clock⟩
    bytes := s.bytes + m.2.2
    misses := s.misses + 1 }

/-- `min_by_key(last_use)`: the first of the entries with the smallest stamp. -/
def minByLastUse : List ((Nat × Nat) × CacheEntry E) → Option ((Nat × Nat) × CacheEntry E)
  | [] => none
  | p :: rest =>
    match minByLastUse rest with
    | none => some p
    | some q => if p.2.lastUse ≤ q.2.lastUse then some p else some q

/-- The victim leaves the cache for the graveyard. -/
def bury (s : LruState E) (victim : (Nat × Nat) × CacheEntry E) : LruState E :=
  { s with
    cache := s.cache.filter fun p => ¬ p.1 = victim.1
    bytes := s.bytes - victim.2.bytes
    graveyardBytes := s.graveyardBytes + victim.2.bytes
    graveyard := s.graveyard ++ [victim.2.expert] }

/-- The eviction loop; every round takes an entry, so the cache's size bounds the rounds. `none` is the panic
of a search that finds no victim. -/
def evict (order : WalkOrder ((Nat × Nat) × CacheEntry E)) (cacheBytes idsLen clock : Nat) :
    Nat → LruState E → Option (LruState E × List ((Nat × Nat) × CacheEntry E))
  | 0, s => some (s, [])
  | rounds + 1, s =>
    if cacheBytes < s.bytes ∧ idsLen < s.cache.length then
      -- the call's own entries have its stamp and are no candidates
      (minByLastUse ((order.walk s.cache).filter fun p => p.2.lastUse ≠ clock)).bind fun victim =>
        (evict order cacheBytes idsLen clock rounds (bury s victim)).map fun r => (r.1, victim :: r.2)
    else some (s, [])

/-- The experts of the ids, by the keys they were just found or inserted under. -/
def collectExperts (layer : Nat) (cache : List ((Nat × Nat) × CacheEntry E)) : List Nat → Except FetchFailure (List E)
  | [] => .ok []
  | e :: ids =>
    match cachedEntry cache (expertKey layer e) with
    | none => .error .panic
    | some entry => (collectExperts layer cache ids).map fun experts => entry.expert :: experts

/-- The end of a call: the graveyard is drained when it is full, and the experts are collected. -/
def finishFetch (layer : Nat) (ids : List Nat) (drain : Except String Unit) (s : LruState E)
    (victims : List ((Nat × Nat) × CacheEntry E)) : Fetched E :=
  if graveyardDrainBytes ≤ s.graveyardBytes then
    match drain with
    | .error msg => ⟨s, victims, .error (.error msg)⟩
    | .ok () =>
      let s := { s with graveyard := [], graveyardBytes := 0 }
      ⟨s, victims, collectExperts layer s.cache ids⟩
  else ⟨s, victims, collectExperts layer s.cache ids⟩

/-- `read_misses` and the builds, in the order of the ids. -/
def loadMisses {checkpoint : Nat → Nat → E × Nat} (c : Call checkpoint) (misses : List Nat) :
    Except String (List (E × Nat)) := misses.mapM c.load

/-- `fetch_many`. -/
def fetchMany {checkpoint : Nat → Nat → E × Nat} (cacheBytes : Nat) (c : Call checkpoint) (s : LruState E) : Fetched E :=
  let clock := s.clock + 1
  let st := c.ids.foldl (lookUp c.layer clock) ({ s with clock := clock }, [])
  let misses := st.2.mergeSort fun a b => a ≤ b
  match loadMisses c misses with
  -- the hits keep their stamps, and the clock has moved
  | .error msg => ⟨st.1, [], .error (.error msg)⟩
  | .ok built =>
    -- the whole batch is in before anything goes
    let s := (misses.zip built).foldl (insertMiss c.layer clock) st.1
    match evict c.order cacheBytes c.ids.length clock s.cache.length s with
    | none => ⟨s, [], .error .panic⟩
    | some (s, victims) => finishFetch c.layer c.ids c.drain s victims

/-- The pool after calls, whatever came of them. -/
def fetchAll {checkpoint : Nat → Nat → E × Nat} (cacheBytes : Nat) (calls : List (Call checkpoint)) : LruState E :=
  calls.foldl (fun s c => (fetchMany cacheBytes c s).state) .new

/-! ## Entries by key -/

/-- The keys that a call asks for. -/
def callKeys {checkpoint : Nat → Nat → E × Nat} (c : Call checkpoint) : List (Nat × Nat) := c.ids.map (expertKey c.layer)

theorem expertKey_eq {layer e : Nat} (hl : layer < 2 ^ 32) (he : e < 2 ^ 32) : expertKey layer e = (layer, e) := by
  rw [expertKey, Nat.mod_eq_of_lt hl, Nat.mod_eq_of_lt he]

theorem callKeys_nodup {checkpoint : Nat → Nat → E × Nat} (c : Call checkpoint) : (callKeys c).Nodup := by
  have hmap : callKeys c = c.ids.map fun e => (c.layer, e) :=
    List.map_congr_left fun e he => expertKey_eq c.layer_lt (c.ids_lt e he)
  rw [hmap]
  exact c.ids_nodup.map fun _ _ h => congrArg Prod.snd h

theorem cachedEntry_isSome {cache : List ((Nat × Nat) × CacheEntry E)} {key : Nat × Nat} :
    (cachedEntry cache key).isSome = true ↔ key ∈ cache.map (·.1) := by
  simp [cachedEntry, List.find?_isSome]

/-- A key that is cached has one entry. -/
theorem cachedEntry_of_mem {cache : List ((Nat × Nat) × CacheEntry E)} {key : Nat × Nat} (h : key ∈ cache.map (·.1)) :
    ∃ entry, cachedEntry cache key = some entry ∧ (key, entry) ∈ cache := by
  obtain ⟨entry, hentry⟩ := Option.isSome_iff_exists.1 (cachedEntry_isSome.2 h)
  refine ⟨entry, hentry, ?_⟩
  obtain ⟨p, hp, rfl⟩ := Option.map_eq_some_iff.1 hentry
  have hkey := List.find?_some hp
  simp only [decide_eq_true_eq] at hkey
  rw [← hkey]
  exact List.mem_of_find?_eq_some hp

/-- The entry of a key, taken out. -/
theorem perm_cons_filter {cache : List ((Nat × Nat) × CacheEntry E)} (hkeys : (cache.map (·.1)).Nodup)
    {v : (Nat × Nat) × CacheEntry E} (hv : v ∈ cache) : cache.Perm (v :: cache.filter fun p => ¬ p.1 = v.1) := by
  induction cache with
  | nil => cases hv
  | cons p cache ih =>
      obtain ⟨hnew, hkeys⟩ := List.nodup_cons.1 hkeys
      rcases List.mem_cons.1 hv with rfl | hv
      · have hall : cache.filter (fun p => ¬ p.1 = v.1) = cache := List.filter_eq_self.2 fun q hq => by
          have : q.1 ≠ v.1 := fun h => hnew (List.mem_map.2 ⟨q, hq, h⟩)
          simpa using this
        rw [List.filter_cons_of_neg (by simp), hall]
      · have hne : p.1 ≠ v.1 := fun h => hnew (List.mem_map.2 ⟨v, hv, h.symm⟩)
        rw [List.filter_cons_of_pos (by simpa using hne)]
        exact ((ih hkeys hv).cons p).trans (List.Perm.swap v p _)

theorem minByLastUse_none {l : List ((Nat × Nat) × CacheEntry E)} (h : minByLastUse l = none) : l = [] := by
  cases l with
  | nil => rfl
  | cons p rest =>
      rw [minByLastUse] at h
      split at h
      · cases h
      · split at h <;> cases h

/-- The victim search finds an entry that none was used before. -/
theorem minByLastUse_some {l : List ((Nat × Nat) × CacheEntry E)} {v : (Nat × Nat) × CacheEntry E}
    (h : minByLastUse l = some v) : v ∈ l ∧ ∀ p ∈ l, v.2.lastUse ≤ p.2.lastUse := by
  induction l generalizing v with
  | nil => cases h
  | cons p rest ih =>
      rw [minByLastUse] at h
      split at h
      · rename_i hnone
        cases h
        rw [minByLastUse_none hnone]
        exact ⟨List.mem_singleton_self _, fun q hq => by rw [List.mem_singleton.1 hq]⟩
      · rename_i q hq
        obtain ⟨hmem, hmin⟩ := ih hq
        split at h
        · rename_i hle
          cases h
          refine ⟨List.mem_cons_self, fun r hr => ?_⟩
          rcases List.mem_cons.1 hr with rfl | hr
          · exact Nat.le_refl _
          · exact Nat.le_trans hle (hmin r hr)
        · rename_i hle
          cases h
          refine ⟨List.mem_cons_of_mem _ hmem, fun r hr => ?_⟩
          rcases List.mem_cons.1 hr with rfl | hr
          · omega
          · exact hmin r hr

/-! ## One call -/

/-- The bytes are those of the entries, no stamp is ahead of the clock, and every expert is the checkpoint's. -/
structure Sound (checkpoint : Nat → Nat → E × Nat) (s : LruState E) : Prop where
  keys_nodup : (s.cache.map (·.1)).Nodup
  bytes : s.bytes = (s.cache.map (·.2.bytes)).sum
  past : ∀ p ∈ s.cache, p.2.lastUse ≤ s.clock
  genuine : ∀ p ∈ s.cache, p.2.expert = (checkpoint p.1.1 p.1.2).1

/-- The stamp of a call on all its keys. -/
def touch (clock : Nat) (keys : List (Nat × Nat)) (p : (Nat × Nat) × CacheEntry E) : (Nat × Nat) × CacheEntry E :=
  if p.1 ∈ keys then (p.1, { p.2 with lastUse := clock }) else p

theorem touch_fst (clock : Nat) (keys : List (Nat × Nat)) (p : (Nat × Nat) × CacheEntry E) :
    (touch clock keys p).1 = p.1 := by
  unfold touch
  split <;> rfl

theorem touch_cons (clock : Nat) (key : Nat × Nat) (keys : List (Nat × Nat)) (p : (Nat × Nat) × CacheEntry E) :
    touch clock keys (stamp clock key p) = touch clock (key :: keys) p := by
  unfold touch stamp
  by_cases hk : p.1 = key
  · subst hk
    by_cases hm : p.1 ∈ keys <;> simp [hm]
  · by_cases hm : p.1 ∈ keys <;> simp [hk, hm]

theorem touch_nil (clock : Nat) (cache : List ((Nat × Nat) × CacheEntry E)) : cache.map (touch clock []) = cache := by
  refine (List.map_congr_left fun p _ => ?_).trans (List.map_id _)
  simp [touch]

/-- A key that is not cached stamps nothing. -/
theorem touch_uncached (clock : Nat) {key : Nat × Nat} (keys : List (Nat × Nat)) {cache : List ((Nat × Nat) × CacheEntry E)}
    (h : key ∉ cache.map (·.1)) : cache.map (touch clock (key :: keys)) = cache.map (touch clock keys) := by
  refine List.map_congr_left fun p hp => ?_
  have hne : p.1 ≠ key := fun heq => h (List.mem_map.2 ⟨p, hp, heq⟩)
  simp [touch, hne]

theorem stamp_keys (clock : Nat) (key : Nat × Nat) (cache : List ((Nat × Nat) × CacheEntry E)) :
    (cache.map (stamp clock key)).map (·.1) = cache.map (·.1) := by
  rw [List.map_map]
  refine List.map_congr_left fun p _ => ?_
  simp only [Function.comp_apply, stamp]
  split <;> rfl

/-- The ids that a cache of these keys misses. -/
def Missing (layer : Nat) (keys : List (Nat × Nat)) (ids : List Nat) (e : Nat) : Prop := e ∈ ids ∧ expertKey layer e ∉ keys

theorem missing_hit {layer e : Nat} {keys : List (Nat × Nat)} (h : expertKey layer e ∈ keys) (ids : List Nat) (e' : Nat) :
    Missing layer keys (e :: ids) e' ↔ Missing layer keys ids e' := by
  unfold Missing
  rw [List.mem_cons]
  constructor
  · rintro ⟨rfl | hin, hout⟩
    · exact absurd h hout
    · exact ⟨hin, hout⟩
  · rintro ⟨hin, hout⟩
    exact ⟨Or.inr hin, hout⟩

theorem missing_miss {layer e : Nat} {keys : List (Nat × Nat)} (h : expertKey layer e ∉ keys) (ids : List Nat) (e' : Nat) :
    Missing layer keys (e :: ids) e' ↔ e' = e ∨ Missing layer keys ids e' := by
  unfold Missing
  rw [List.mem_cons]
  constructor
  · rintro ⟨rfl | hin, hout⟩
    · exact Or.inl rfl
    · exact Or.inr ⟨hin, hout⟩
  · rintro (rfl | ⟨hin, hout⟩)
    · exact ⟨Or.inl rfl, h⟩
    · exact ⟨Or.inr hin, hout⟩

/-- What the first loop does: the hits are stamped, and the misses are the ids that are not cached. -/
theorem foldl_lookUp (layer clock : Nat) (ids : List Nat) (s : LruState E) (ms : List Nat) (hms : ms.Nodup) :
    let r := ids.foldl (lookUp layer clock) (s, ms)
    r.1.cache = s.cache.map (touch clock (ids.map (expertKey layer))) ∧ r.1.bytes = s.bytes ∧ r.1.clock = s.clock ∧
      r.2.Nodup ∧ ∀ e, e ∈ r.2 ↔ e ∈ ms ∨ Missing layer (s.cache.map (·.1)) ids e := by
  induction ids generalizing s ms with
  | nil => exact ⟨(touch_nil clock s.cache).symm, rfl, rfl, hms, fun e => by simp [Missing]⟩
  | cons e ids ih =>
      rw [List.foldl_cons, List.map_cons]
      by_cases hhit : expertKey layer e ∈ s.cache.map (·.1)
      · rw [lookUp, if_pos (cachedEntry_isSome.2 hhit)]
        obtain ⟨hcache, hbytes, hclock, hnodup, hmem⟩ := ih
          { s with cache := s.cache.map (stamp clock (expertKey layer e)), hits := s.hits + 1 } ms hms
        refine ⟨?_, hbytes, hclock, hnodup, fun e' => ?_⟩
        · rw [hcache, List.map_map]
          exact List.map_congr_left fun p _ => touch_cons clock _ _ p
        · rw [hmem e', stamp_keys, missing_hit hhit]
      · rw [lookUp, if_neg fun h => hhit (cachedEntry_isSome.1 h), touch_uncached clock _ hhit]
        dsimp only
        split
        · rename_i hin
          obtain ⟨hcache, hbytes, hclock, hnodup, hmem⟩ := ih s ms hms
          refine ⟨hcache, hbytes, hclock, hnodup, fun e' => ?_⟩
          rw [hmem e', missing_miss hhit]
          constructor
          · rintro (h | h)
            · exact Or.inl h
            · exact Or.inr (Or.inr h)
          · rintro (h | rfl | h)
            · exact Or.inl h
            · exact Or.inl hin
            · exact Or.inr h
        · rename_i hout
          have hms' : (ms ++ [e]).Nodup := by
            rw [List.nodup_append_comm]
            exact List.nodup_cons.2 ⟨hout, hms⟩
          obtain ⟨hcache, hbytes, hclock, hnodup, hmem⟩ := ih s (ms ++ [e]) hms'
          refine ⟨hcache, hbytes, hclock, hnodup, fun e' => ?_⟩
          rw [hmem e', missing_miss hhit, List.mem_append, List.mem_singleton, or_assoc]

/-- The entry that a read expert gets. -/
def newEntry (checkpoint : Nat → Nat → E × Nat) (layer clock e : Nat) : (Nat × Nat) × CacheEntry E :=
  (expertKey layer e, ⟨(checkpoint layer e).1, (checkpoint layer e).2, clock⟩)

/-- What the insertion loop does to new keys. -/
theorem foldl_insertMiss (checkpoint : Nat → Nat → E × Nat) (layer clock : Nat) (misses : List Nat) (s : LruState E)
    (hnodup : (misses.map (expertKey layer)).Nodup)
    (hnew : ∀ e ∈ misses, expertKey layer e ∉ s.cache.map (·.1)) :
    let r := (misses.map fun e => (e, checkpoint layer e)).foldl (insertMiss layer clock) s
    r.cache = s.cache ++ misses.map (newEntry checkpoint layer clock) ∧
      r.bytes = s.bytes + (misses.map fun e => (checkpoint layer e).2).sum ∧ r.clock = s.clock := by
  induction misses generalizing s with
  | nil => simp
  | cons e misses ih =>
      obtain ⟨hfirst, hnodup⟩ := List.nodup_cons.1 hnodup
      have hkeep : s.cache.filter (fun p => ¬ p.1 = expertKey layer e) = s.cache :=
        List.filter_eq_self.2 fun p hp => by
          have : p.1 ≠ expertKey layer e := fun h => hnew e List.mem_cons_self (List.mem_map.2 ⟨p, hp, h⟩)
          simpa using this
      have hcache : (insertMiss layer clock s (e, checkpoint layer e)).cache =
          s.cache ++ [newEntry checkpoint layer clock e] := by
        rw [insertMiss, insertEntry, hkeep]
        rfl
      have hnew' : ∀ e' ∈ misses, expertKey layer e' ∉
          (insertMiss layer clock s (e, checkpoint layer e)).cache.map (·.1) := fun e' he' hmem => by
        rw [hcache, List.map_append, List.mem_append] at hmem
        rcases hmem with hmem | hmem
        · exact hnew e' (List.mem_cons_of_mem _ he') hmem
        · exact hfirst (List.mem_map.2 ⟨e', he', List.mem_singleton.1 hmem⟩)
      obtain ⟨h₁, h₂, h₃⟩ := ih (insertMiss layer clock s (e, checkpoint layer e)) hnodup hnew'
      rw [List.map_cons, List.foldl_cons]
      refine ⟨?_, ?_, h₃⟩
      · rw [h₁, hcache, List.map_cons, List.append_assoc]
        rfl
      · rw [h₂, List.map_cons, List.sum_cons, ← Nat.add_assoc]
        rfl

/-- The cache once a call's experts are in: exactly they have the call's stamp. -/
structure Loaded (checkpoint : Nat → Nat → E × Nat) (keys : List (Nat × Nat)) (clock : Nat) (s : LruState E) : Prop
    extends Sound checkpoint s where
  clock_eq : s.clock = clock
  holds : ∀ k ∈ keys, k ∈ s.cache.map (·.1)
  stamped : ∀ p ∈ s.cache, p.2.lastUse = clock ↔ p.1 ∈ keys

theorem touch_keys (clock : Nat) (keys : List (Nat × Nat)) (cache : List ((Nat × Nat) × CacheEntry E)) :
    (cache.map (touch clock keys)).map (·.1) = cache.map (·.1) := by
  rw [List.map_map]
  exact List.map_congr_left fun p _ => touch_fst clock keys p

theorem touch_bytes (clock : Nat) (keys : List (Nat × Nat)) (p : (Nat × Nat) × CacheEntry E) :
    (touch clock keys p).2.bytes = p.2.bytes := by
  unfold touch
  split <;> rfl

theorem touch_expert (clock : Nat) (keys : List (Nat × Nat)) (p : (Nat × Nat) × CacheEntry E) :
    (touch clock keys p).2.expert = p.2.expert := by
  unfold touch
  split <;> rfl

theorem touch_lastUse (clock : Nat) (keys : List (Nat × Nat)) (p : (Nat × Nat) × CacheEntry E) :
    (touch clock keys p).2.lastUse = if p.1 ∈ keys then clock else p.2.lastUse := by
  unfold touch
  split <;> rfl

/-- Stamping keeps a cache sound. -/
theorem Sound.touch {checkpoint : Nat → Nat → E × Nat} {s r : LruState E} (h : Sound checkpoint s)
    {keys : List (Nat × Nat)} (hcache : r.cache = s.cache.map (touch (s.clock + 1) keys)) (hbytes : r.bytes = s.bytes)
    (hclock : r.clock = s.clock + 1) : Sound checkpoint r := by
  refine ⟨?_, ?_, fun p hp => ?_, fun p hp => ?_⟩
  · rw [hcache, touch_keys]
    exact h.keys_nodup
  · rw [hbytes, h.bytes, hcache, List.map_map]
    congr 1
    exact List.map_congr_left fun p _ => (touch_bytes _ _ p).symm
  · rw [hcache] at hp
    obtain ⟨q, hq, rfl⟩ := List.mem_map.1 hp
    have := h.past q hq
    rw [touch_lastUse, hclock]
    split <;> omega
  · rw [hcache] at hp
    obtain ⟨q, hq, rfl⟩ := List.mem_map.1 hp
    rw [touch_expert, touch_fst]
    exact h.genuine q hq

/-- An entry has the stamp of the call that asks for it, or the one it had. -/
def Stamped {checkpoint : Nat → Nat → E × Nat} (c : Call checkpoint) (s : LruState E)
    (p : (Nat × Nat) × CacheEntry E) : Prop :=
  (p.1 ∈ callKeys c ∧ p.2.lastUse = s.clock + 1) ∨
    (p.1 ∉ callKeys c ∧ ∃ q ∈ s.cache, q.1 = p.1 ∧ q.2.lastUse = p.2.lastUse)

theorem stamped_touch {checkpoint : Nat → Nat → E × Nat} {s : LruState E} (c : Call checkpoint)
    {q : (Nat × Nat) × CacheEntry E} (hq : q ∈ s.cache) : Stamped c s (touch (s.clock + 1) (callKeys c) q) := by
  unfold Stamped
  rw [touch_fst, touch_lastUse]
  split
  · rename_i hin
    exact Or.inl ⟨hin, rfl⟩
  · rename_i hin
    exact Or.inr ⟨hin, q, hq, rfl, rfl⟩

/-- An entry of a cache that a call's experts are in. -/
structure EntryOk {checkpoint : Nat → Nat → E × Nat} (c : Call checkpoint) (s : LruState E)
    (p : (Nat × Nat) × CacheEntry E) : Prop where
  past : p.2.lastUse ≤ s.clock + 1
  genuine : p.2.expert = (checkpoint p.1.1 p.1.2).1
  asked : p.2.lastUse = s.clock + 1 ↔ p.1 ∈ callKeys c
  stamped : Stamped c s p

theorem Sound.entryOk_touch {checkpoint : Nat → Nat → E × Nat} {s : LruState E} (h : Sound checkpoint s)
    (c : Call checkpoint) {q : (Nat × Nat) × CacheEntry E} (hq : q ∈ s.cache) :
    EntryOk c s (Moe.touch (s.clock + 1) (callKeys c) q) := by
  have hpast := h.past q hq
  refine ⟨?_, ?_, ?_, stamped_touch c hq⟩
  · rw [touch_lastUse]
    split <;> omega
  · rw [touch_expert, touch_fst]
    exact h.genuine q hq
  · rw [touch_lastUse, touch_fst]
    split
    · rename_i hin
      exact ⟨fun _ => hin, fun _ => rfl⟩
    · rename_i hin
      exact ⟨fun hl => by omega, fun hk => absurd hk hin⟩

theorem entryOk_new {checkpoint : Nat → Nat → E × Nat} (c : Call checkpoint) (s : LruState E) {e : Nat} (he : e ∈ c.ids) :
    EntryOk c s (newEntry checkpoint c.layer (s.clock + 1) e) := by
  have hkey : expertKey c.layer e ∈ callKeys c := List.mem_map_of_mem he
  refine ⟨Nat.le_refl _, ?_, ⟨fun _ => hkey, fun _ => rfl⟩, Or.inl ⟨hkey, rfl⟩⟩
  rw [newEntry, expertKey_eq c.layer_lt (c.ids_lt e he)]

/-- The cache of a call that reads all its misses, before the eviction. -/
theorem Sound.loaded {checkpoint : Nat → Nat → E × Nat} {s r t : LruState E} (h : Sound checkpoint s)
    (c : Call checkpoint) {misses : List Nat}
    (hcache : r.cache = s.cache.map (Moe.touch (s.clock + 1) (callKeys c))) (hbytes : r.bytes = s.bytes)
    (hclock : r.clock = s.clock + 1) (hnodup : misses.Nodup)
    (hmisses : ∀ e, e ∈ misses ↔ Missing c.layer (s.cache.map (·.1)) c.ids e)
    (ht : t = (misses.map fun e => (e, checkpoint c.layer e)).foldl (insertMiss c.layer (s.clock + 1)) r) :
    Loaded checkpoint (callKeys c) (s.clock + 1) t ∧ ∀ p ∈ t.cache, Stamped c s p := by
  have hr := h.touch hcache hbytes hclock
  have hrkeys : r.cache.map (·.1) = s.cache.map (·.1) := by rw [hcache, touch_keys]
  have hkeysnd : (misses.map (expertKey c.layer)).Nodup := by
    have hmap : misses.map (expertKey c.layer) = misses.map fun e => (c.layer, e) :=
      List.map_congr_left fun e he => expertKey_eq c.layer_lt (c.ids_lt e ((hmisses e).1 he).1)
    rw [hmap]
    exact hnodup.map fun _ _ h => congrArg Prod.snd h
  have hnew : ∀ e ∈ misses, expertKey c.layer e ∉ r.cache.map (·.1) := fun e he => by
    rw [hrkeys]
    exact ((hmisses e).1 he).2
  obtain ⟨h₁, h₂, h₃⟩ := foldl_insertMiss checkpoint c.layer (s.clock + 1) misses r hkeysnd hnew
  rw [← ht] at h₁ h₂ h₃
  have hnewkeys : (misses.map (newEntry checkpoint c.layer (s.clock + 1))).map (·.1) = misses.map (expertKey c.layer) := by
    rw [List.map_map]
    rfl
  have hentry : ∀ p ∈ t.cache, EntryOk c s p := fun p hp => by
    rw [h₁, hcache] at hp
    rcases List.mem_append.1 hp with hp | hp
    · obtain ⟨q, hq, rfl⟩ := List.mem_map.1 hp
      exact h.entryOk_touch c hq
    · obtain ⟨e, he, rfl⟩ := List.mem_map.1 hp
      exact entryOk_new c s ((hmisses e).1 he).1
  refine ⟨⟨⟨?_, ?_, fun p hp => ?_, fun p hp => (hentry p hp).genuine⟩, ?_, fun k hk => ?_,
    fun p hp => (hentry p hp).asked⟩, fun p hp => (hentry p hp).stamped⟩
  · rw [h₁, List.map_append, hnewkeys]
    refine List.nodup_append.2 ⟨hr.keys_nodup, hkeysnd, fun a ha b hb heq => ?_⟩
    obtain ⟨e, he, rfl⟩ := List.mem_map.1 hb
    exact hnew e he (heq ▸ ha)
  · rw [h₂, h₁, hr.bytes, List.map_append, List.sum_append, List.map_map]
    rfl
  · rw [h₃, hclock]
    exact (hentry p hp).past
  · rw [h₃, hclock]
  · obtain ⟨e, he, rfl⟩ := List.mem_map.1 hk
    rw [h₁, List.map_append, hnewkeys, hrkeys]
    by_cases hc : expertKey c.layer e ∈ s.cache.map (·.1)
    · exact List.mem_append_left _ hc
    · exact List.mem_append_right _ (List.mem_map.2 ⟨e, (hmisses e).2 ⟨he, hc⟩, rfl⟩)

/-! ### The eviction -/

theorem Loaded.victim_unasked {checkpoint : Nat → Nat → E × Nat} {keys : List (Nat × Nat)} {clock : Nat}
    {s : LruState E} (h : Loaded checkpoint keys clock s) {order : WalkOrder ((Nat × Nat) × CacheEntry E)}
    {v : (Nat × Nat) × CacheEntry E}
    (hv : minByLastUse ((order.walk s.cache).filter fun p => p.2.lastUse ≠ clock) = some v) :
    v ∈ s.cache ∧ v.1 ∉ keys ∧ ∀ p ∈ s.cache, v.2.lastUse ≤ p.2.lastUse := by
  obtain ⟨hmem, hmin⟩ := minByLastUse_some hv
  obtain ⟨hwalk, hne⟩ := List.mem_filter.1 hmem
  have hmem : v ∈ s.cache := (order.perm s.cache).mem_iff.1 hwalk
  have hne : v.2.lastUse ≠ clock := by simpa using hne
  refine ⟨hmem, fun hk => hne ((h.stamped v hmem).2 hk), fun p hp => ?_⟩
  by_cases hpc : p.2.lastUse = clock
  · have := h.past v hmem
    rw [h.clock_eq] at this
    omega
  · exact hmin p (List.mem_filter.2 ⟨(order.perm s.cache).mem_iff.2 hp, by simpa using hpc⟩)

/-- With more entries than the call has experts there is something to evict. -/
theorem Loaded.victim_exists {checkpoint : Nat → Nat → E × Nat} {keys : List (Nat × Nat)} {clock : Nat}
    {s : LruState E} (h : Loaded checkpoint keys clock s) (hmore : keys.length < s.cache.length)
    (order : WalkOrder ((Nat × Nat) × CacheEntry E)) :
    ∃ v, minByLastUse ((order.walk s.cache).filter fun p => p.2.lastUse ≠ clock) = some v := by
  cases hmin : minByLastUse ((order.walk s.cache).filter fun p => p.2.lastUse ≠ clock) with
  | some v => exact ⟨v, rfl⟩
  | none =>
      have hall : ∀ k ∈ s.cache.map (·.1), k ∈ keys := fun k hk => by
        obtain ⟨p, hp, rfl⟩ := List.mem_map.1 hk
        refine (h.stamped p hp).1 (Decidable.byContradiction fun hne => ?_)
        have hin : p ∈ (order.walk s.cache).filter fun p => p.2.lastUse ≠ clock :=
          List.mem_filter.2 ⟨(order.perm s.cache).mem_iff.2 hp, by simpa using hne⟩
        rw [minByLastUse_none hmin] at hin
        cases hin
      have hle := (List.subperm_of_subset h.keys_nodup hall).length_le
      rw [List.length_map] at hle
      omega

theorem Loaded.bury {checkpoint : Nat → Nat → E × Nat} {keys : List (Nat × Nat)} {clock : Nat} {s : LruState E}
    (h : Loaded checkpoint keys clock s) {v : (Nat × Nat) × CacheEntry E} (hv : v ∈ s.cache) (hk : v.1 ∉ keys) :
    Loaded checkpoint keys clock (Moe.bury s v) ∧ (Moe.bury s v).cache.length + 1 = s.cache.length := by
  have hperm := perm_cons_filter h.keys_nodup hv
  have hsub : ∀ p ∈ (Moe.bury s v).cache, p ∈ s.cache := fun p hp => (List.mem_filter.1 hp).1
  refine ⟨⟨⟨?_, ?_, fun p hp => h.past p (hsub p hp), fun p hp => h.genuine p (hsub p hp)⟩, h.clock_eq, fun k hk' => ?_,
    fun p hp => h.stamped p (hsub p hp)⟩, ?_⟩
  · exact h.keys_nodup.sublist (List.filter_sublist.map _)
  · have hsum := (hperm.map (·.2.bytes)).sum_eq
    rw [List.map_cons, List.sum_cons, ← h.bytes] at hsum
    show s.bytes - v.2.bytes = _
    rw [hsum, Nat.add_sub_cancel_left]
    rfl
  · obtain ⟨p, hp, rfl⟩ := List.mem_map.1 (h.holds k hk')
    have hne : ¬ p.1 = v.1 := fun heq => hk (heq ▸ hk')
    exact List.mem_map.2 ⟨p, List.mem_filter.2 ⟨hp, by simpa using hne⟩, rfl⟩
  · have := hperm.length_eq
    rw [List.length_cons] at this
    exact this.symm

/-- What the eviction leaves and takes. -/
structure Evicted (checkpoint : Nat → Nat → E × Nat) (keys : List (Nat × Nat)) (clock cacheBytes : Nat) (s : LruState E)
    (r : LruState E × List ((Nat × Nat) × CacheEntry E)) : Prop where
  loaded : Loaded checkpoint keys clock r.1
  enough : r.1.bytes ≤ cacheBytes ∨ r.1.cache.length ≤ keys.length
  unasked : ∀ v ∈ r.2, v.1 ∉ keys
  split : ∀ p, p ∈ r.2 ∨ p ∈ r.1.cache → p ∈ s.cache
  ordered : r.2.Pairwise fun v w => v.2.lastUse ≤ w.2.lastUse
  least : ∀ v ∈ r.2, ∀ p ∈ r.1.cache, v.2.lastUse ≤ p.2.lastUse

theorem evict_spec {checkpoint : Nat → Nat → E × Nat} {keys : List (Nat × Nat)} {clock : Nat}
    (order : WalkOrder ((Nat × Nat) × CacheEntry E)) (cacheBytes rounds : Nat) {s : LruState E}
    (h : Loaded checkpoint keys clock s) (hrounds : s.cache.length ≤ rounds) :
    ∃ r, evict order cacheBytes keys.length clock rounds s = some r ∧ Evicted checkpoint keys clock cacheBytes s r := by
  induction rounds generalizing s with
  | zero =>
      refine ⟨(s, []), rfl, h, Or.inr (by dsimp only; omega), fun v hv => absurd hv List.not_mem_nil, fun p hp => ?_, .nil,
        fun v hv => absurd hv List.not_mem_nil⟩
      exact hp.resolve_left List.not_mem_nil
  | succ rounds ih =>
      rw [evict]
      split
      · rename_i hcond
        obtain ⟨v, hv⟩ := h.victim_exists hcond.2 order
        obtain ⟨hmem, hk, hmin⟩ := h.victim_unasked hv
        obtain ⟨hbury, hlen⟩ := h.bury hmem hk
        obtain ⟨r, hr, hev⟩ := ih hbury (by omega)
        have hsub : ∀ p ∈ (bury s v).cache, p ∈ s.cache := fun p hp => (List.mem_filter.1 hp).1
        rw [hv, Option.bind_some, hr]
        refine ⟨(r.1, v :: r.2), rfl, hev.loaded, hev.enough, fun w hw => ?_, fun p hp => ?_, ?_, fun w hw p hp => ?_⟩
        · rcases List.mem_cons.1 hw with rfl | hw
          · exact hk
          · exact hev.unasked w hw
        · rcases hp with hp | hp
          · rcases List.mem_cons.1 hp with rfl | hp
            · exact hmem
            · exact hsub p (hev.split p (Or.inl hp))
          · exact hsub p (hev.split p (Or.inr hp))
        · exact List.pairwise_cons.2 ⟨fun w hw => hmin w (hsub w (hev.split w (Or.inl hw))), hev.ordered⟩
        · rcases List.mem_cons.1 hw with rfl | hw
          · exact hmin p (hsub p (hev.split p (Or.inr hp)))
          · exact hev.least w hw p hp
      · rename_i hcond
        refine ⟨(s, []), rfl, h, by dsimp only; omega, fun v hv => absurd hv List.not_mem_nil, fun p hp => ?_, .nil,
          fun v hv => absurd hv List.not_mem_nil⟩
        exact hp.resolve_left List.not_mem_nil

/-! ### What a call returns -/

/-- Experts that are all cached are collected in order. -/
theorem collectExperts_eq {checkpoint : Nat → Nat → E × Nat} {layer : Nat} {cache : List ((Nat × Nat) × CacheEntry E)}
    (hgen : ∀ p ∈ cache, p.2.expert = (checkpoint p.1.1 p.1.2).1) (ids : List Nat)
    (hkey : ∀ e ∈ ids, expertKey layer e = (layer, e)) (hin : ∀ e ∈ ids, expertKey layer e ∈ cache.map (·.1)) :
    collectExperts layer cache ids = .ok (ids.map fun e => (checkpoint layer e).1) := by
  induction ids with
  | nil => rfl
  | cons e ids ih =>
      obtain ⟨entry, hentry, hmem⟩ := cachedEntry_of_mem (hin e List.mem_cons_self)
      have hexpert := hgen _ hmem
      rw [hkey e List.mem_cons_self] at hexpert
      rw [collectExperts, hentry]
      dsimp only
      rw [ih (fun e' he' => hkey e' (List.mem_cons_of_mem _ he')) (fun e' he' => hin e' (List.mem_cons_of_mem _ he')),
        hexpert]
      rfl

/-- What holds of a call and of the cache that it leaves. -/
structure FetchedSound {checkpoint : Nat → Nat → E × Nat} (cacheBytes : Nat) (c : Call checkpoint) (s : LruState E)
    (out : Fetched E) : Prop where
  sound : Sound checkpoint out.state
  clock : out.state.clock = s.clock + 1
  no_panic : out.result ≠ .error .panic
  experts : ∀ experts, out.result = .ok experts → experts = c.ids.map (fun e => (checkpoint c.layer e).1) ∧
    (out.state.bytes ≤ cacheBytes ∨ (out.state.cache.map (·.1)).Perm (callKeys c))
  unasked : ∀ v ∈ out.victims, v.1 ∉ callKeys c
  ordered : out.victims.Pairwise fun v w => v.2.lastUse ≤ w.2.lastUse
  least : ∀ v ∈ out.victims, ∀ p ∈ out.state.cache, v.2.lastUse ≤ p.2.lastUse
  stamps : ∀ p, p ∈ out.victims ∨ p ∈ out.state.cache → Stamped c s p

theorem finishFetch_state (layer : Nat) (ids : List Nat) (drain : Except String Unit) (s : LruState E)
    (victims : List ((Nat × Nat) × CacheEntry E)) :
    let out := finishFetch layer ids drain s victims
    out.victims = victims ∧ out.state.cache = s.cache ∧ out.state.bytes = s.bytes ∧ out.state.clock = s.clock ∧
      ((∃ msg, out.result = .error (.error msg)) ∨ out.result = collectExperts layer s.cache ids) := by
  unfold finishFetch
  split
  · cases drain with
    | error msg => exact ⟨rfl, rfl, rfl, rfl, Or.inl ⟨msg, rfl⟩⟩
    | ok u => exact ⟨rfl, rfl, rfl, rfl, Or.inr rfl⟩
  · exact ⟨rfl, rfl, rfl, rfl, Or.inr rfl⟩

theorem loadMisses_eq {checkpoint : Nat → Nat → E × Nat} {c : Call checkpoint} {misses : List Nat}
    {built : List (E × Nat)} (h : loadMisses c misses = .ok built) : built = misses.map (checkpoint c.layer) := by
  have hall := Traverse.forall₂_of_mapM h
  clear h
  induction hall with
  | nil => rfl
  | cons hload _ ih => rw [List.map_cons, ← ih, c.load_eq _ _ hload]

theorem zip_map_self {α β : Type} (f : α → β) (l : List α) : l.zip (l.map f) = l.map fun a => (a, f a) := by
  induction l with
  | nil => rfl
  | cons a l ih => rw [List.map_cons, List.zip_cons_cons, ih, List.map_cons]

/-- A call whose reading fails has stamped its hits, and nothing else has changed. -/
theorem Sound.fetchedSound_hits {checkpoint : Nat → Nat → E × Nat} {s r : LruState E} (h : Sound checkpoint s)
    (cacheBytes : Nat) (c : Call checkpoint) (hcache : r.cache = s.cache.map (Moe.touch (s.clock + 1) (callKeys c)))
    (hbytes : r.bytes = s.bytes) (hclock : r.clock = s.clock + 1) (msg : String) :
    FetchedSound cacheBytes c s ⟨r, [], .error (.error msg)⟩ := by
  refine ⟨h.touch hcache hbytes hclock, hclock, fun he => (by cases he), fun _ he => (by cases he),
    fun v hv => absurd hv List.not_mem_nil, .nil, fun v hv => absurd hv List.not_mem_nil, fun p hp => ?_⟩
  have hp := hp.resolve_left List.not_mem_nil
  dsimp only at hp
  rw [hcache] at hp
  obtain ⟨q, hq, rfl⟩ := List.mem_map.1 hp
  exact stamped_touch c hq

/-- The end of a call after its eviction, whether the drain works or not. -/
theorem Evicted.fetchedSound {checkpoint : Nat → Nat → E × Nat} {s t s' : LruState E} {cacheBytes : Nat}
    (c : Call checkpoint) {victims : List ((Nat × Nat) × CacheEntry E)}
    (h : Evicted checkpoint (callKeys c) (s.clock + 1) cacheBytes t (s', victims))
    (hstamped : ∀ p ∈ t.cache, Stamped c s p) :
    FetchedSound cacheBytes c s (finishFetch c.layer c.ids c.drain s' victims) := by
  obtain ⟨hv, hc, hb, hck, hres⟩ := finishFetch_state c.layer c.ids c.drain s' victims
  generalize finishFetch c.layer c.ids c.drain s' victims = out at hv hc hb hck hres ⊢
  have hcollect := collectExperts_eq h.loaded.genuine c.ids
    (fun e he => expertKey_eq c.layer_lt (c.ids_lt e he))
    (fun e he => h.loaded.holds _ (List.mem_map.2 ⟨e, he, rfl⟩))
  rw [hcollect] at hres
  have hsound : Sound checkpoint out.state :=
    ⟨hc ▸ h.loaded.keys_nodup, by rw [hb, hc]; exact h.loaded.bytes, by rw [hc, hck]; exact h.loaded.past,
      hc ▸ h.loaded.genuine⟩
  refine ⟨hsound, hck.trans h.loaded.clock_eq, fun hpanic => ?_, fun experts hok => ⟨?_, ?_⟩, ?_, ?_, ?_, ?_⟩
  · rcases hres with ⟨msg, hres⟩ | hres <;> rw [hres] at hpanic <;> cases hpanic
  · rcases hres with ⟨msg, hres⟩ | hres <;> rw [hres] at hok <;> cases hok
    rfl
  · rw [hb, hc]
    refine h.enough.imp_right fun hfew => ?_
    have hsub := List.subperm_of_subset (callKeys_nodup c) fun k hk => h.loaded.holds k hk
    exact (hsub.perm_of_length_le (by rw [List.length_map]; exact hfew)).symm
  · exact fun v hv' => h.unasked v (hv ▸ hv')
  · exact hv ▸ h.ordered
  · intro v hv' p hp
    exact h.least v (hv ▸ hv') p (hc ▸ hp)
  · intro p hp
    rw [hv, hc] at hp
    exact hstamped p (h.split p hp)

/-- Every call on a sound cache is sound, also one that fails. -/
theorem Sound.fetchMany {checkpoint : Nat → Nat → E × Nat} {s : LruState E} (h : Sound checkpoint s) (cacheBytes : Nat)
    (c : Call checkpoint) : FetchedSound cacheBytes c s (Moe.fetchMany cacheBytes c s) := by
  obtain ⟨hcache, hbytes, hclock, hnodup, hmem⟩ :=
    foldl_lookUp c.layer (s.clock + 1) c.ids { s with clock := s.clock + 1 } [] List.nodup_nil
  unfold Moe.fetchMany
  dsimp only
  generalize c.ids.foldl (lookUp c.layer (s.clock + 1)) ({ s with clock := s.clock + 1 }, []) = st at *
  cases hload : loadMisses c (st.2.mergeSort fun a b => a ≤ b) with
  | error msg => exact h.fetchedSound_hits cacheBytes c hcache hbytes hclock msg
  | ok built =>
      have hperm := List.mergeSort_perm st.2 fun a b => decide (a ≤ b)
      obtain ⟨hloaded, hstamped⟩ := h.loaded c hcache hbytes hclock (hperm.nodup_iff.2 hnodup)
        (fun e => by
          rw [hperm.mem_iff, hmem e]
          exact or_iff_right List.not_mem_nil) rfl
      dsimp only
      rw [loadMisses_eq hload, zip_map_self]
      generalize ((st.2.mergeSort fun a b => a ≤ b).map fun e => (e, checkpoint c.layer e)).foldl
        (insertMiss c.layer (s.clock + 1)) st.1 = t at hloaded hstamped ⊢
      obtain ⟨⟨s', victims⟩, hev, hspec⟩ := evict_spec c.order cacheBytes t.cache.length hloaded (Nat.le_refl _)
      rw [callKeys, List.length_map] at hev
      rw [hev]
      exact hspec.fetchedSound c hstamped

/-! ## Any calls -/

/-- The number of the last of the calls that asked for a key. -/
def lastAsk {checkpoint : Nat → Nat → E × Nat} (calls : List (Call checkpoint)) (key : Nat × Nat) : Nat :=
  calls.zipIdx.foldl (fun n p => if key ∈ callKeys p.1 then p.2 + 1 else n) 0

theorem lastAsk_concat {checkpoint : Nat → Nat → E × Nat} (calls : List (Call checkpoint)) (c : Call checkpoint)
    (key : Nat × Nat) :
    lastAsk (calls ++ [c]) key = if key ∈ callKeys c then calls.length + 1 else lastAsk calls key := by
  simp [lastAsk, List.zipIdx_append]

/-- A sound cache whose stamps are the numbers of the calls. -/
structure RunSound {checkpoint : Nat → Nat → E × Nat} (calls : List (Call checkpoint)) (s : LruState E) : Prop where
  sound : Sound checkpoint s
  clock : s.clock = calls.length
  stamps : ∀ p ∈ s.cache, p.2.lastUse = lastAsk calls p.1

theorem Stamped.lastAsk {checkpoint : Nat → Nat → E × Nat} {calls : List (Call checkpoint)} {s : LruState E}
    (h : RunSound calls s) {c : Call checkpoint} {p : (Nat × Nat) × CacheEntry E} (hp : Stamped c s p) :
    p.2.lastUse = Moe.lastAsk (calls ++ [c]) p.1 := by
  rw [lastAsk_concat]
  rcases hp with ⟨hin, hlast⟩ | ⟨hin, q, hq, hkey, hlast⟩
  · rw [if_pos hin, hlast, h.clock]
  · rw [if_neg hin, ← hlast, h.stamps q hq, hkey]

theorem fetchAll_concat {checkpoint : Nat → Nat → E × Nat} (cacheBytes : Nat) (calls : List (Call checkpoint))
    (c : Call checkpoint) :
    fetchAll cacheBytes (calls ++ [c]) = (fetchMany cacheBytes c (fetchAll cacheBytes calls)).state := by
  rw [fetchAll, List.foldl_append]
  rfl

theorem fetchAll_sound {checkpoint : Nat → Nat → E × Nat} (cacheBytes : Nat) (calls : List (Call checkpoint)) :
    RunSound calls (fetchAll cacheBytes calls) := by
  induction calls using List.reverseRecOn with
  | nil =>
      exact ⟨⟨List.nodup_nil, rfl, fun p hp => absurd hp List.not_mem_nil, fun p hp => absurd hp List.not_mem_nil⟩, rfl,
        fun p hp => absurd hp List.not_mem_nil⟩
  | append_singleton calls c ih =>
      have hstep := ih.sound.fetchMany cacheBytes c
      rw [fetchAll_concat]
      refine ⟨hstep.sound, ?_, fun p hp => (hstep.stamps p (Or.inr hp)).lastAsk ih⟩
      rw [hstep.clock, ih.clock, List.length_append, List.length_singleton]

/-- After any calls the bytes are those of the cache, and the next call finds its victims, never among its own
experts and always of the earliest last use, and returns its experts in order with the budget kept or nothing
else cached. -/
theorem fetchMany_sound {checkpoint : Nat → Nat → E × Nat} (cacheBytes : Nat) (calls : List (Call checkpoint))
    (c : Call checkpoint) :
    let s := fetchAll cacheBytes calls
    let out := fetchMany cacheBytes c s
    s.bytes = (s.cache.map (·.2.bytes)).sum ∧ out.state.bytes = (out.state.cache.map (·.2.bytes)).sum ∧
      out.result ≠ .error .panic ∧
      (∀ experts, out.result = .ok experts → experts = c.ids.map (fun e => (checkpoint c.layer e).1) ∧
        (out.state.bytes ≤ cacheBytes ∨ (out.state.cache.map (·.1)).Perm (callKeys c))) ∧
      (∀ v ∈ out.victims, v.1 ∉ callKeys c) ∧
      (∀ p, p ∈ out.victims ∨ p ∈ out.state.cache → p.2.lastUse = lastAsk (calls ++ [c]) p.1) ∧
      out.victims.Pairwise (fun v w => v.2.lastUse ≤ w.2.lastUse) ∧
      ∀ v ∈ out.victims, ∀ p ∈ out.state.cache, v.2.lastUse ≤ p.2.lastUse := by
  intro s out
  have hs := fetchAll_sound cacheBytes calls
  have hout := hs.sound.fetchMany cacheBytes c
  exact ⟨hs.sound.bytes, hout.sound.bytes, hout.no_panic, hout.experts, hout.unasked,
    fun p hp => (hout.stamps p hp).lastAsk hs, hout.ordered, hout.least⟩

end Oxydllm.Moe
