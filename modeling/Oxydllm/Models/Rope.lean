/-
# Oxydllm.Models.Rope — the rotary tables of a GGUF model's layers.

`rope_sharing_plan` builds one table for each pair of rotary dimension and theta and points every layer at its
own. The pair is all that the plan compares, and the frequency factors of a file go to a table when any layer
without a window is pointed at it. A layer with a window then gets them too where it shares the pair
(`shared_scaling`), so each layer has the table it would have alone exactly when no pair is shared between the
two kinds, or the file has no factors (`own_tables_iff`).
-/
import Oxydllm.Lib.Interning
import Oxydllm.Lib.Traverse
import Mathlib.Data.List.Induction

namespace Oxydllm.Models

/-- A double, by its bits: `rope_sharing_plan` and `scaling_for_theta` compare a theta by nothing else. -/
structure F64 where
  bits : BitVec 64
  deriving DecidableEq, Repr

/-- `x > 0.0`: the sign is clear and `x` is neither zero nor a NaN. -/
def F64.positive (x : F64) : Bool :=
  decide (0 < x.bits.toNat) && decide (x.bits.toNat ≤ 0x7FF0000000000000)

inductive RopeScaling where
  | none
  | linear (factor : F64)
  | llama3 (factor lowFreqFactor highFreqFactor : F64) (originalMaxPos : Nat)
  | yarn (factor : F64) (originalMaxPos : Nat) (betaFast betaSlow : F64)
  | longRope (shortFactor longFactor : List F64) (originalMaxPos : Nat)
  | frequencyFactors (factors : List F64)
  deriving DecidableEq, Repr

def scalingForTheta (layerTheta globalTheta : F64) (scaling : RopeScaling) : RopeScaling :=
  if layerTheta.bits = globalTheta.bits then scaling else .none

def ropeSharingPlan (geometries : List (Nat × F64)) : List (Nat × F64) × List Nat :=
  geometries.foldl (fun plan g =>
    match plan.1.findIdx? fun d => d.1 == g.1 && d.2.bits == g.2.bits with
    | some idx => (plan.1, plan.2 ++ [idx])
    | none => (plan.1 ++ [g], plan.2 ++ [(plan.1 ++ [g]).length - 1])) ([], [])

/-! ## The layers of a file -/

/-- What a layer says of its rotation, and its window. -/
structure LayerRope where
  rotaryDim : Nat
  theta : F64
  window : Option Nat
  deriving DecidableEq, Repr

def LayerRope.geometry (l : LayerRope) : Nat × F64 := (l.rotaryDim, l.theta)

/-- What a file says of how its layers differ, as far as their rotation goes. -/
structure PerLayerSource where
  pattern : Option (List Bool)
  kvHeads : Option (List Nat)
  window : Option Nat
  fullKeyLength : Nat
  swaKeyLength : Nat
  fullRopeTheta : F64
  swaRopeTheta : F64
  fullRotaryDim : Nat
  swaRotaryDim : Nat
  deriving Repr

namespace PerLayerSource

variable (src : PerLayerSource)

/-- The list is as long as the layers are many: `parse_per_layer_geometry` drops any other. -/
def sliding (i : Nat) : Bool :=
  match src.pattern with
  | some p => p[i]?.getD false
  | none => false

def pick (i swa full fallback : Nat) : Nat :=
  let chosen := if src.sliding i then swa else full
  if chosen > 0 then chosen else if full > 0 then full else fallback

def layer (headDim i : Nat) : LayerRope where
  rotaryDim := src.pick i src.swaRotaryDim src.fullRotaryDim (src.pick i src.swaKeyLength src.fullKeyLength headDim)
  theta := if src.sliding i && src.swaRopeTheta.positive then src.swaRopeTheta else src.fullRopeTheta
  window := if src.sliding i then src.window else none

end PerLayerSource

def buildPerLayerGeometry (src : PerLayerSource) (numLayers headDim : Nat) : Option (List LayerRope) :=
  if src.pattern.isNone && src.kvHeads.isNone then none else some ((List.range numLayers).map (src.layer headDim))

def resolveSlidingWindowForLayer (alternating : Bool) (slidingWindow : Option Nat) (layerIdx : Nat) : Option Nat :=
  if alternating && layerIdx % 2 == 1 then none else slidingWindow

/-- The layers of `load`: each its own where the file has them apart, or else all of one geometry. -/
def loadLayers (perLayer : Option (List LayerRope)) (numLayers : Nat) (rotaryDim : Option Nat) (headDim : Nat)
    (ropeTheta : F64) (alternating : Bool) (slidingWindow : Option Nat) : List LayerRope :=
  match perLayer with
  | some layers => layers
  | none => (List.range numLayers).map fun i =>
      { rotaryDim := rotaryDim.getD headDim, theta := ropeTheta
        window := resolveSlidingWindowForLayer alternating slidingWindow i }

/-- What `load` takes from the file before it builds the tables. -/
structure RopeSource where
  layers : List LayerRope
  /-- `rope_freqs.weight`. -/
  ropeFactors : Option (List F64)
  ropeTheta : F64
  /-- `rope.scaling.type`. -/
  scalingType : Option String
  /-- `rope.scaling.factor`. -/
  scalingFactor : F64
  maxPositionEmbeddings : Nat
  contextLen : Nat

namespace RopeSource

variable (s : RopeSource)

def geometries : List (Nat × F64) := s.layers.map LayerRope.geometry

def layerWindows : List (Option Nat) := s.layers.map LayerRope.window

def statedScaling : RopeScaling :=
  if s.scalingType = some "linear" then .linear s.scalingFactor else .none

def maxSeqLen : Nat := min s.maxPositionEmbeddings (max s.contextLen 1)

/-- The scaling of table `idx`, whose theta is `theta`. -/
def tableScaling (perLayerTable : List Nat) (idx : Nat) (theta : F64) : RopeScaling :=
  match s.ropeFactors with
  | some f =>
      if perLayerTable.zipIdx.any fun t => t.1 == idx && s.layerWindows[t.2]? == some none then .frequencyFactors f
      else scalingForTheta theta s.ropeTheta s.statedScaling
  | none => scalingForTheta theta s.ropeTheta s.statedScaling

section

variable {Rope : Type} (newWithScaling : Nat → Nat → F64 → RopeScaling → Except String Rope)

/-- `tables[t].clone()`. -/
def pick (tables : List Rope) (t : Nat) : Except String Rope :=
  match tables[t]? with
  | some table => .ok table
  | none => .error "index out of bounds"

/-- The tables of `load`, one for each distinct setting, and the one each layer is given. -/
def ropes : Except String (List Rope) := do
  let plan := ropeSharingPlan s.geometries
  let tables ← plan.1.zipIdx.mapM fun d =>
    newWithScaling d.1.1 s.maxSeqLen d.1.2 (s.tableScaling plan.2 d.2 d.1.2)
  plan.2.mapM (pick tables)

end

/-! ## A layer alone -/

/-- The scaling of a layer that shares its table with no other. -/
def ownScaling (l : LayerRope) : RopeScaling :=
  match s.ropeFactors, l.window with
  | some f, none => .frequencyFactors f
  | _, _ => scalingForTheta l.theta s.ropeTheta s.statedScaling

/-- Every layer of a load that returns has the table built from that layer alone, whatever builds the tables. -/
def OwnTables : Prop :=
  ∀ (Rope : Type) (newWithScaling : Nat → Nat → F64 → RopeScaling → Except String Rope) (tables : List Rope),
    s.ropes newWithScaling = .ok tables → tables.length = s.layers.length ∧
      ∀ (i : Nat) (l : LayerRope), s.layers[i]? = some l → ∃ table, tables[i]? = some table ∧
        newWithScaling l.rotaryDim s.maxSeqLen l.theta (s.ownScaling l) = .ok table

/-- The plan points each layer at its own setting, and builds none twice. -/
def PlanExact : Prop :=
  (ropeSharingPlan s.geometries).1.Nodup ∧
    ∀ (i : Nat) (l : LayerRope), s.layers[i]? = some l → ∃ t, (ropeSharingPlan s.geometries).2[i]? = some t ∧
      (ropeSharingPlan s.geometries).1[t]? = some (l.rotaryDim, l.theta)

/-- No layer with a window shares its rotary dimension and theta with one that has none. -/
def KindsApart : Prop :=
  ∀ l ∈ s.layers, ∀ l' ∈ s.layers, l.geometry = l'.geometry → l.window ≠ none → l'.window ≠ none

end RopeSource

/-! ## The plan -/

open Interning (Interned)

theorem plan_snoc (gs : List (Nat × F64)) (g : Nat × F64) :
    ropeSharingPlan (gs ++ [g]) =
      match (ropeSharingPlan gs).1.findIdx? fun d => d.1 == g.1 && d.2.bits == g.2.bits with
      | some idx => ((ropeSharingPlan gs).1, (ropeSharingPlan gs).2 ++ [idx])
      | none => ((ropeSharingPlan gs).1 ++ [g], (ropeSharingPlan gs).2 ++ [((ropeSharingPlan gs).1 ++ [g]).length - 1]) := by
  unfold ropeSharingPlan
  rw [List.foldl_append, List.foldl_cons, List.foldl_nil]

theorem same_setting (d g : Nat × F64) : (d.1 == g.1 && d.2.bits == g.2.bits) = true ↔ d = g := by
  rw [Bool.and_eq_true, beq_iff_eq, beq_iff_eq]
  constructor
  · rintro ⟨hdim, hbits⟩
    obtain ⟨dim, ⟨bits⟩⟩ := d
    obtain ⟨dim', ⟨bits'⟩⟩ := g
    cases hdim
    cases hbits
    rfl
  · rintro rfl
    exact ⟨rfl, rfl⟩

theorem ropeSharingPlan_interned (gs : List (Nat × F64)) :
    Interned (ropeSharingPlan gs).1 (ropeSharingPlan gs).2 gs := by
  -- the plan is a fold, so the induction is on the last layer added
  induction gs using List.reverseRecOn with
  | nil => exact Interned.nil
  | append_singleton gs g ih =>
      rw [plan_snoc]
      cases hfind : (ropeSharingPlan gs).1.findIdx? fun d => d.1 == g.1 && d.2.bits == g.2.bits with
      | some idx =>
          obtain ⟨hlt, hsame, -⟩ := List.findIdx?_eq_some_iff_getElem.1 hfind
          refine ih.hit (List.getElem?_eq_some_iff.2 ⟨hlt, ?_⟩)
          exact (same_setting _ g).1 hsame
      | none =>
          -- the search compares bits, and equal bits are equal thetas
          have hnew : g ∉ (ropeSharingPlan gs).1 := by
            intro hmem
            have hno := List.findIdx?_eq_none_iff.1 hfind g hmem
            rw [(same_setting g g).2 rfl] at hno
            cases hno
          have hlast : ((ropeSharingPlan gs).1 ++ [g]).length - 1 = (ropeSharingPlan gs).1.length := by
            rw [List.length_append, List.length_singleton, Nat.add_sub_cancel]
          rw [hlast]
          exact ih.miss hnew

namespace RopeSource

variable (s : RopeSource)

theorem geometries_getElem? {s : RopeSource} {i : Nat} {l : LayerRope} (h : s.layers[i]? = some l) :
    s.geometries[i]? = some l.geometry := by
  unfold geometries
  rw [List.getElem?_map, h]
  rfl

theorem plan_exact : s.PlanExact := by
  have hplan := ropeSharingPlan_interned s.geometries
  exact ⟨hplan.nodup, fun i l hl => hplan.entry (geometries_getElem? hl)⟩

/-! ## What each table is built with -/

/-- Whether a layer without a window is pointed at a table. -/
theorem pointed_iff {points : List Nat} {idx : Nat} :
    (points.zipIdx.any fun t => t.1 == idx && s.layerWindows[t.2]? == some none) = true ↔
      ∃ (i : Nat) (l : LayerRope), points[i]? = some idx ∧ s.layers[i]? = some l ∧ l.window = none := by
  rw [List.any_eq_true]
  constructor
  · rintro ⟨⟨t, i⟩, hmem, htest⟩
    rw [Bool.and_eq_true, beq_iff_eq, beq_iff_eq] at htest
    obtain ⟨rfl, hwindow⟩ := htest
    have hi : points[i]? = some t := (List.mem_zipIdx_iff_getElem?).1 hmem
    have hlayer : s.layers[i]?.map LayerRope.window = some none := by
      rw [← List.getElem?_map]
      exact hwindow
    obtain ⟨l, hl, hnone⟩ := Option.map_eq_some_iff.1 hlayer
    exact ⟨i, l, hi, hl, hnone⟩
  · rintro ⟨i, l, hi, hl, hnone⟩
    refine ⟨(idx, i), (List.mem_zipIdx_iff_getElem?).2 hi, ?_⟩
    have hwindow : s.layerWindows[i]? = some none := by
      unfold layerWindows
      rw [List.getElem?_map, hl, Option.map_some, hnone]
    rw [Bool.and_eq_true, beq_iff_eq, beq_iff_eq]
    exact ⟨rfl, hwindow⟩

/-- The table of a layer gets the factors when some layer of the same setting has no window. -/
theorem shared_scaling {i t : Nat} {l : LayerRope} (hl : s.layers[i]? = some l)
    (ht : (ropeSharingPlan s.geometries).2[i]? = some t) :
    s.tableScaling (ropeSharingPlan s.geometries).2 t l.theta =
      if ∃ l' ∈ s.layers, l'.geometry = l.geometry ∧ l'.window = none then s.ownScaling { l with window := none }
      else scalingForTheta l.theta s.ropeTheta s.statedScaling := by
  have hplan := ropeSharingPlan_interned s.geometries
  have hpointed : ((ropeSharingPlan s.geometries).2.zipIdx.any fun u =>
      u.1 == t && s.layerWindows[u.2]? == some none) = true ↔
        ∃ l' ∈ s.layers, l'.geometry = l.geometry ∧ l'.window = none := by
    rw [pointed_iff]
    constructor
    · rintro ⟨j, l', hj, hl', hnone⟩
      -- two layers share a table exactly when they share the pair
      have hsame := (hplan.same_entry (geometries_getElem? hl') (geometries_getElem? hl) hj ht).1 rfl
      exact ⟨l', List.mem_of_getElem? hl', hsame, hnone⟩
    · rintro ⟨l', hmem, hsame, hnone⟩
      obtain ⟨j, hl'⟩ := List.mem_iff_getElem?.1 hmem
      obtain ⟨t', hj, -⟩ := hplan.entry (geometries_getElem? hl')
      have heq := (hplan.same_entry (geometries_getElem? hl') (geometries_getElem? hl) hj ht).2 hsame
      exact ⟨j, l', heq ▸ hj, hl', hnone⟩
  unfold tableScaling ownScaling
  cases s.ropeFactors with
  | none => exact (ite_self _).symm
  | some f => exact if_congr hpointed rfl rfl

section

variable {Rope : Type} {newWithScaling : Nat → Nat → F64 → RopeScaling → Except String Rope}

/-- What `load` gives a layer: the table of its own setting, with the scaling the table got. -/
theorem ropes_spec {tables : List Rope} (h : s.ropes newWithScaling = .ok tables) :
    tables.length = s.layers.length ∧ ∀ (i : Nat) (l : LayerRope), s.layers[i]? = some l →
      ∃ (t : Nat) (table : Rope), (ropeSharingPlan s.geometries).2[i]? = some t ∧ tables[i]? = some table ∧
        newWithScaling l.rotaryDim s.maxSeqLen l.theta
          (s.tableScaling (ropeSharingPlan s.geometries).2 t l.theta) = .ok table := by
  have hplan := ropeSharingPlan_interned s.geometries
  obtain ⟨built, hbuilt, hgiven⟩ := Traverse.bind_eq_ok.1 h
  constructor
  · have hlen := (Traverse.forall₂_of_mapM hgiven).length_eq
    rw [← hlen, hplan.points.length_eq, geometries, List.length_map]
  · intro i l hl
    obtain ⟨t, ht, hentry⟩ := hplan.entry (geometries_getElem? hl)
    obtain ⟨table, htable, hpick⟩ := Traverse.getElem?_of_mapM hgiven ht
    have hzip : (ropeSharingPlan s.geometries).1.zipIdx[t]? = some (l.geometry, t) := by
      rw [List.getElem?_zipIdx, hentry, Option.map_some, Nat.zero_add]
    obtain ⟨table', htable', hnew⟩ := Traverse.getElem?_of_mapM hbuilt hzip
    unfold pick at hpick
    rw [htable'] at hpick
    cases hpick
    exact ⟨t, table, ht, htable, hnew⟩

/-- Where every table can be built, the load returns. -/
theorem ropes_total (hnew : ∀ dim len theta scaling, ∃ table, newWithScaling dim len theta scaling = .ok table) :
    ∃ tables, s.ropes newWithScaling = .ok tables := by
  have hplan := ropeSharingPlan_interned s.geometries
  have hbuild : ∀ d ∈ (ropeSharingPlan s.geometries).1.zipIdx, ∃ table, newWithScaling d.1.1 s.maxSeqLen d.1.2
      (s.tableScaling (ropeSharingPlan s.geometries).2 d.2 d.1.2) = .ok table :=
    fun d _ => hnew d.1.1 s.maxSeqLen d.1.2 (s.tableScaling (ropeSharingPlan s.geometries).2 d.2 d.1.2)
  obtain ⟨built, hbuilt⟩ := Traverse.exists_mapM_ok hbuild
  have hlen : (ropeSharingPlan s.geometries).1.length = built.length := by
    rw [← (Traverse.forall₂_of_mapM hbuilt).length_eq, List.length_zipIdx]
  have hgive : ∀ t ∈ (ropeSharingPlan s.geometries).2, ∃ table, pick built t = .ok table := by
    intro t ht
    have hlt : t < built.length := hlen ▸ hplan.in_range ht
    refine ⟨built[t], ?_⟩
    unfold pick
    rw [List.getElem?_eq_getElem hlt]
  obtain ⟨tables, htables⟩ := Traverse.exists_mapM_ok hgive
  exact ⟨tables, Traverse.bind_eq_ok.2 ⟨built, hbuilt, htables⟩⟩

end

/-! ## A table of one's own -/

theorem ownScaling_no_window (l : LayerRope) (f : List F64) (hf : s.ropeFactors = some f) :
    s.ownScaling { l with window := none } = .frequencyFactors f := by
  unfold ownScaling
  rw [hf]

theorem ownScaling_no_factors (l : LayerRope) (hf : s.ropeFactors = none) :
    s.ownScaling l = scalingForTheta l.theta s.ropeTheta s.statedScaling := by
  unfold ownScaling
  rw [hf]

theorem ownScaling_windowed (l : LayerRope) (hw : l.window ≠ none) :
    s.ownScaling l = scalingForTheta l.theta s.ropeTheta s.statedScaling := by
  unfold ownScaling
  cases hwindow : l.window with
  | none => exact absurd hwindow hw
  | some w => cases s.ropeFactors <;> rfl

/-- No stated scaling is a list of factors. -/
theorem scalingForTheta_ne_factors (theta : F64) (f : List F64) :
    scalingForTheta theta s.ropeTheta s.statedScaling ≠ .frequencyFactors f := by
  unfold scalingForTheta statedScaling
  split
  · split <;> exact RopeScaling.noConfusion
  · exact RopeScaling.noConfusion

/-- Where no pair is shared between the kinds, the table of a layer has the scaling the layer has alone. -/
theorem shared_eq_own (hkinds : s.ropeFactors = none ∨ s.KindsApart) {i t : Nat} {l : LayerRope}
    (hl : s.layers[i]? = some l) (ht : (ropeSharingPlan s.geometries).2[i]? = some t) :
    s.tableScaling (ropeSharingPlan s.geometries).2 t l.theta = s.ownScaling l := by
  rw [shared_scaling s hl ht]
  rcases hkinds with hf | hapart
  · rw [ownScaling_no_factors s _ hf, ownScaling_no_factors s _ hf, ite_self]
  · by_cases hw : l.window = none
    · rw [if_pos ⟨l, List.mem_of_getElem? hl, rfl, hw⟩, ← hw]
    · have hnone : ¬ ∃ l' ∈ s.layers, l'.geometry = l.geometry ∧ l'.window = none := by
        rintro ⟨l', hmem, hsame, hnone⟩
        exact hapart l (List.mem_of_getElem? hl) l' hmem hsame.symm hw hnone
      rw [if_neg hnone, ownScaling_windowed s l hw]

theorem ownTables_of_apart (hkinds : s.ropeFactors = none ∨ s.KindsApart) : s.OwnTables := by
  intro Rope newWithScaling tables h
  obtain ⟨hlen, hlayers⟩ := ropes_spec s h
  refine ⟨hlen, fun i l hl => ?_⟩
  obtain ⟨t, table, ht, htable, hnew⟩ := hlayers i l hl
  rw [shared_eq_own s hkinds hl ht] at hnew
  exact ⟨table, htable, hnew⟩

/-- A table that shows what it was built from. -/
def settings (dim len : Nat) (theta : F64) (scaling : RopeScaling) : Except String (Nat × Nat × F64 × RopeScaling) :=
  .ok (dim, len, theta, scaling)

theorem settings_loads : ∃ tables, s.ropes settings = .ok tables :=
  ropes_total s fun dim len theta scaling => ⟨(dim, len, theta, scaling), rfl⟩

theorem apart_of_ownTables (h : s.OwnTables) : s.ropeFactors = none ∨ s.KindsApart := by
  by_contra hnot
  obtain ⟨hf, hmixed⟩ := not_or.1 hnot
  obtain ⟨f, hf⟩ := Option.ne_none_iff_exists'.1 hf
  unfold KindsApart at hmixed
  push Not at hmixed
  obtain ⟨l, hmem, l', hmem', hsame, hw, hnone⟩ := hmixed
  obtain ⟨i, hl⟩ := List.mem_iff_getElem?.1 hmem
  obtain ⟨tables, hload⟩ := settings_loads s
  obtain ⟨t, table, ht, htable, hnew⟩ := (ropes_spec s hload).2 i l hl
  obtain ⟨table', htable', hown⟩ := (h _ settings tables hload).2 i l hl
  cases htable.symm.trans htable'
  have hscaling : s.tableScaling (ropeSharingPlan s.geometries).2 t l.theta = s.ownScaling l := by
    have heq := Except.ok.inj (hnew.trans hown.symm)
    exact congrArg (fun r => r.2.2.2) heq
  rw [shared_scaling s hl ht, if_pos ⟨l', hmem', hsame.symm, hnone⟩, ownScaling_no_window s l f hf,
    ownScaling_windowed s l hw] at hscaling
  exact scalingForTheta_ne_factors s l.theta f hscaling.symm

/-- A file that gives the base and the dimension once for its sliding layers and its full ones, and has
factors: the sliding layer is given them too. -/
def oneBase : RopeSource where
  layers := loadLayers
    (buildPerLayerGeometry
      { pattern := some [true, false], kvHeads := none, window := some 1024, fullKeyLength := 512, swaKeyLength := 0
        fullRopeTheta := ⟨0x412E848000000000⟩, swaRopeTheta := ⟨0⟩, fullRotaryDim := 512, swaRotaryDim := 0 } 2 256)
    2 none 256 ⟨0x412E848000000000⟩ false (some 1024)
  ropeFactors := some [⟨0x3FF0000000000000⟩]
  ropeTheta := ⟨0x412E848000000000⟩
  scalingType := none
  scalingFactor := ⟨0x3FF0000000000000⟩
  maxPositionEmbeddings := 131072
  contextLen := 4096

/-- Where every layer has the one geometry, the layers are of one kind or the file has no factors. -/
theorem kindsApart_uniform (numLayers : Nat) (rotaryDim : Option Nat) (headDim : Nat) (theta : F64)
    (alternating : Bool) (slidingWindow : Option Nat)
    (hlayers : s.layers = loadLayers none numLayers rotaryDim headDim theta alternating slidingWindow) :
    s.KindsApart ↔ (∀ l ∈ s.layers, l.window = none) ∨ ∀ l ∈ s.layers, l.window ≠ none := by
  have hsame : ∀ l ∈ s.layers, l.geometry = (rotaryDim.getD headDim, theta) := by
    rw [hlayers]
    intro l hl
    obtain ⟨i, -, rfl⟩ := List.mem_map.1 hl
    rfl
  constructor
  · intro hapart
    by_cases hall : ∀ l ∈ s.layers, l.window = none
    · exact .inl hall
    · push Not at hall
      obtain ⟨l, hl, hw⟩ := hall
      exact .inr fun l' hl' => hapart l hl l' hl' ((hsame l hl).trans (hsame l' hl').symm) hw
  · rintro (hnone | hsome) l hl l' hl' - hw
    · exact absurd (hnone l hl) hw
    · exact hsome l' hl'

end RopeSource

end Oxydllm.Models
