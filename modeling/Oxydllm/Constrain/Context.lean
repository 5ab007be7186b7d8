/-
# Oxydllm.Constrain.Context — where a run stands inside the document.

`Context` is the reading of everything in front of a value: the containers still open, what each of
them already holds and the guide's state at the value. It refines `Outer`, which knows the bytes only;
`context_of_outer` builds it from a run.
-/
import Oxydllm.Constrain.Frame

namespace Oxydllm.Constrain

open JsonText GuideState

/-- Automaton and guide read `w` together. -/
def Walks (arena : SchemaArena) (mode : JsonMode) (m : JsonMachine) (g : GuideState) (w : List UInt8)
    (m' : JsonMachine) (g' : GuideState) : Prop :=
  ∃ τ, m.trace mode w = some (τ, m') ∧ g.observe arena arena.root τ = some g'

section

variable {arena : SchemaArena} {mode : JsonMode} {m m' : JsonMachine} {g g' : GuideState}

theorem walks_append (w₁ w₂ : List UInt8) :
    Walks arena mode m g (w₁ ++ w₂) m' g' ↔
      ∃ m₁ g₁, Walks arena mode m g w₁ m₁ g₁ ∧ Walks arena mode m₁ g₁ w₂ m' g' := by
  constructor
  · rintro ⟨τ, ht, hg⟩
    rw [JsonMachine.trace_append] at ht
    obtain ⟨⟨τ₁, m₁⟩, ht₁, ht₂⟩ := Option.bind_eq_some_iff.1 ht
    obtain ⟨⟨τ₂, m₂⟩, ht', heq⟩ := Option.map_eq_some_iff.1 ht₂
    cases heq
    rw [observe_append] at hg
    obtain ⟨g₁, hg₁, hg₂⟩ := Option.bind_eq_some_iff.1 hg
    exact ⟨m₁, g₁, ⟨τ₁, ht₁, hg₁⟩, ⟨τ₂, ht', hg₂⟩⟩
  · rintro ⟨m₁, g₁, ⟨τ₁, ht₁, hg₁⟩, ⟨τ₂, ht₂, hg₂⟩⟩
    exact ⟨τ₁ ++ τ₂, by simp [JsonMachine.trace_append, ht₁, ht₂], by simp [observe_append, hg₁, hg₂]⟩

/-- What has been read of a piece, and the rest of the walk. -/
theorem walks_piece {v v' : View} {w₁ w₂ : List UInt8} {C : Prop} {τ : List Obs}
    (h : Piece mode v w₁ C τ v') (hm : m.view = v) (hw : Walks arena mode m g (w₁ ++ w₂) m' g') :
    C ∧ ∃ m₁ g₁, m₁.view = v' ∧ g.observe arena arena.root τ = some g₁ ∧
      Walks arena mode m₁ g₁ w₂ m' g' := by
  obtain ⟨m₁, g₁, ⟨τ₁, ht, hg⟩, hrest⟩ := (walks_append w₁ w₂).1 hw
  have hC := h.needs m _ hm ht
  obtain ⟨m₂, ht₂, hv⟩ := h.reads hC m hm
  rw [ht] at ht₂
  cases ht₂
  exact ⟨hC, m₁, g₁, hv, hg, hrest⟩

theorem walks_nil : Walks arena mode m g [] m' g' ↔ m' = m ∧ g' = g := by
  constructor
  · rintro ⟨τ, ht, hg⟩
    cases ht
    cases hg
    exact ⟨rfl, rfl⟩
  · rintro ⟨rfl, rfl⟩
    exact ⟨[], rfl, rfl⟩

/-! ## What stands in front of a value -/

/-- The elements in front of the next one and the comma behind them. -/
inductive ItemsBefore (arena : SchemaArena) (n : Nat) (g₁ : GuideState) : List UInt8 → GuideState → Prop where
  | nil : ItemsBefore arena n g₁ [] g₁
  | comma {g₂} (items : Items) (hall : items.All readable) (hd : items.depth + n ≤ maxDepth)
      (hg : itemsGuide arena arena.root items g₁ = some g₂) :
      ItemsBefore arena n g₁ (items.print ++ [0x2C]) g₂

/-- The members in front of the next one and the comma behind them. -/
inductive MembersBefore (arena : SchemaArena) (n : Nat) (g₁ : GuideState) : List UInt8 → GuideState → Prop where
  | nil : MembersBefore arena n g₁ [] g₁
  | comma {g₂} (members : Members) (hall : members.All readable) (hd : members.depth + n ≤ maxDepth)
      (hg : membersGuide arena arena.root members g₁ = some g₂)
      (hkey : g₂.hasAvailableKey arena = true) :
      MembersBefore arena n g₁ (members.print ++ [0x2C]) g₂

/-- The bytes in front of a value, the gap included, and the guide at the value. -/
inductive Context (arena : SchemaArena) (mode : JsonMode) : List Bool → List UInt8 → GuideState → Prop where
  | top (gap : Gap) (hgap : readable.gap false gap) : Context arena mode [] gap.bytes .new
  | arr {fs w p g g₁ g₂} (h : Context arena mode fs w g) (htop : TopOk mode fs)
      (hd : fs.length < maxDepth) (he : g.enter arena arena.root 0x5B = some g₁)
      (hp : ItemsBefore arena (fs.length + 1) g₁ p g₂) (gap : Gap) (hgap : readable.gap false gap) :
      Context arena mode (true :: fs) (w ++ 0x5B :: (p ++ gap.bytes)) g₂
  | obj {fs w p g g₁ g₂ g₃} (h : Context arena mode fs w g) (hd : fs.length < maxDepth)
      (he : g.enter arena arena.root 0x7B = some g₁) (hp : MembersBefore arena (fs.length + 1) g₁ p g₂)
      (gap₁ : Gap) (key : Str) (gap₂ gap₃ : Gap) (hgap₁ : readable.gap false gap₁)
      (hkey : readable.str key) (hgap₂ : readable.gap false gap₂) (hgap₃ : readable.gap false gap₃)
      (hk : g₂.keyGuide arena key = some g₃) :
      Context arena mode (false :: fs)
        (w ++ 0x7B :: (p ++ (gap₁.bytes ++ Str.print key ++ gap₂.bytes ++ 0x3A :: gap₃.bytes))) g₃

/-! ## Reading it off a walk -/

variable {fs : List Bool} {st : S} {r : Nat} {w : List UInt8}

theorem walks_objOpen (hst : st.Open) (hm : m.view = ⟨fs, st, r⟩)
    (h : Walks arena mode m g (0x7B :: w) m' g') :
    fs.length < maxDepth ∧ ∃ m₁ g₁, m₁.view = ⟨false :: fs, .objFirst, 0⟩ ∧
      g.enter arena arena.root 0x7B = some g₁ ∧ Walks arena mode m₁ g₁ w m' g' := by
  obtain ⟨hd, m₁, g₁, hv, hg, hrest⟩ := walks_piece (objOpen_piece mode fs hst r) hm h
  rw [observe_one, onByte_objOpen] at hg
  exact ⟨hd, m₁, g₁, hv, hg, hrest⟩

theorem walks_arrOpen (hst : st.Open) (htop : TopOk mode fs) (hm : m.view = ⟨fs, st, r⟩)
    (h : Walks arena mode m g (0x5B :: w) m' g') :
    fs.length < maxDepth ∧ ∃ m₁ g₁, m₁.view = ⟨true :: fs, .arrFirst, 0⟩ ∧
      g.enter arena arena.root 0x5B = some g₁ ∧ Walks arena mode m₁ g₁ w m' g' := by
  obtain ⟨hd, m₁, g₁, hv, hg, hrest⟩ := walks_piece (arrOpen_piece hst r htop) hm h
  rw [observe_one, onByte_arrOpen] at hg
  exact ⟨hd, m₁, g₁, hv, hg, hrest⟩

/-- A gap in front of a value. -/
theorem walks_valueGap (hst : st.Open) (hm : m.view = ⟨fs, st, 0⟩) (hg : g.val = .free) (gap : Gap)
    (h : Walks arena mode m g (gap.bytes ++ w) m' g') :
    readable.gap false gap ∧ ∃ m₁ st₁ r₁, S.Open st₁ ∧ m₁.view = ⟨fs, st₁, r₁⟩ ∧
      Walks arena mode m₁ g w m' g' := by
  have hpiece := (valueGap_piece mode fs hst 0 gap).congr (gapCost_false gap)
  obtain ⟨hgap, m₁, g₁, hv, hobs, hrest⟩ := walks_piece hpiece hm h
  rw [observe_gap hg] at hobs
  cases hobs
  exact ⟨hgap, m₁, _, _, valueGap_open hst gap, hv, hrest⟩

theorem walks_itemsBefore (hwf : arena.Wf) {n : Nat} {p : List UInt8} (hlen : fs.length + 1 ≤ maxDepth) (hm : m.view = ⟨true :: fs, .arrFirst, 0⟩) (hg : g.val = .free)
    (hp : ItemPrefix n p) (h : Walks arena mode m g (p ++ w) m' g') :
    ∃ m₁ g₁ st₁, S.Open st₁ ∧ m₁.view = ⟨true :: fs, st₁, 0⟩ ∧ g₁.val = .free ∧
      ItemsBefore arena n g p g₁ ∧ Walks arena mode m₁ g₁ w m' g' := by
  cases hp with
  | nil => exact ⟨m, g, _, .inr rfl, hm, hg, .nil, h⟩
  | comma items hd =>
      have hread : Piece mode _ _ _ _ _ := items_piece hlen items
      have hpiece := hread.append (items_comma items)
      obtain ⟨⟨hC, -⟩, m₁, g₁, hv, hobs, hrest⟩ := walks_piece hpiece hm h
      rw [observe_items hwf items hg 0x2C {} rfl] at hobs
      obtain ⟨g₂, hi, hobs⟩ := Option.bind_eq_some_iff.1 hobs
      have hval := itemsGuide_val hwf items hi
      rw [onByte_content, content_free hval] at hobs
      obtain rfl := Option.some.inj hobs
      exact ⟨m₁, _, _, .inl rfl, hv, hval, .comma items hC.1 hd hi, hrest⟩

theorem walks_membersBefore (hwf : arena.Wf) {n : Nat} {p : List UInt8} (hlen : fs.length + 1 ≤ maxDepth) (hm : m.view = ⟨false :: fs, .objFirst, 0⟩) (hg : g.val = .free)
    (hp : MemberPrefix n p) (h : Walks arena mode m g (p ++ w) m' g') :
    ∃ m₁ g₁ st₁, (st₁ = .objFirst ∨ st₁ = .objComma) ∧ m₁.view = ⟨false :: fs, st₁, 0⟩ ∧ g₁.val = .free ∧
      MembersBefore arena n g p g₁ ∧ Walks arena mode m₁ g₁ w m' g' := by
  cases hp with
  | nil => exact ⟨m, g, _, .inl rfl, hm, hg, .nil, h⟩
  | comma members hd =>
      have hread : Piece mode _ _ _ _ _ := members_piece hlen members
      have hpiece := hread.append (members_comma members)
      obtain ⟨⟨hC, -⟩, m₁, g₁, hv, hobs, hrest⟩ := walks_piece hpiece hm h
      rw [observe_members hwf members hg 0x2C { objComma := true } rfl] at hobs
      obtain ⟨g₂, hi, hobs⟩ := Option.bind_eq_some_iff.1 hobs
      have hval := membersGuide_val hwf members hi
      rw [onByte_comma hval] at hobs
      obtain ⟨hkey, hobs⟩ := Option.ite_none_right_eq_some.1 hobs
      obtain rfl := Option.some.inj hobs
      exact ⟨m₁, _, _, .inr rfl, hv, hval, .comma members hC.1 hd hi hkey, hrest⟩

/-- A key and its colon. -/
theorem walks_keyed (hst : st = .objFirst ∨ st = .objComma) (hm : m.view = ⟨fs, st, 0⟩)
    (hg : g.val = .free) (gap₁ : Gap) (key : Str) (gap₂ : Gap)
    (h : Walks arena mode m g (gap₁.bytes ++ Str.print key ++ gap₂.bytes ++ 0x3A :: w) m' g') :
    readable.gap false gap₁ ∧ readable.str key ∧ readable.gap false gap₂ ∧
      ∃ m₁ g₁, m₁.view = ⟨fs, .value, 0⟩ ∧ g.keyGuide arena key = some g₁ ∧
        Walks arena mode m₁ g₁ w m' g' := by
  have hsplit : gap₁.bytes ++ Str.print key ++ gap₂.bytes ++ 0x3A :: w =
      (gap₁.bytes ++ Str.print key ++ gap₂.bytes ++ [0x3A]) ++ w := by simp
  rw [hsplit] at h
  obtain ⟨⟨h₁, h₂, h₃⟩, m₁, g₁, hv, hobs, hrest⟩ := walks_piece (keyed_piece hst gap₁ key gap₂) hm h
  rw [observe_keyed hg] at hobs
  obtain ⟨g₂, hk, hobs⟩ := Option.bind_eq_some_iff.1 hobs
  cases hobs
  exact ⟨h₁, h₂, h₃, m₁, g₁, hv, hk, hrest⟩

theorem context_val (hwf : arena.Wf) (h : Context arena mode fs w g) : g.val = .free := by
  cases h with
  | top gap hgap => rfl
  | arr h htop hd he hp gap hgap =>
      cases hp with
      | nil => exact enter_open hwf (.inr rfl) he
      | comma items hall hd hg => exact itemsGuide_val hwf items hg
  | obj h hd he hp gap₁ key gap₂ gap₃ hgap₁ hkey hgap₂ hgap₃ hk => exact keyGuide_val hk

/-- A walk up to a value leaves the automaton ready for it and the guide in the context of what it has
read. -/
theorem context_of_outer (hwf : arena.Wf) (hout : Outer mode fs w)
    (h : Walks arena mode (.new mode) .new w m g) :
    Context arena mode fs w g ∧ ∃ st r, S.Open st ∧ m.view = ⟨fs, st, r⟩ := by
  induction hout generalizing m g with
  | top gap =>
      have h' : Walks arena mode (.new mode) .new (gap.bytes ++ []) m g := by rwa [List.append_nil]
      obtain ⟨hgap, m₁, st₁, r₁, hst₁, hv, hrest⟩ := walks_valueGap (.inl rfl) rfl rfl gap h'
      obtain ⟨rfl, rfl⟩ := walks_nil.1 hrest
      exact ⟨.top gap hgap, st₁, r₁, hst₁, hv⟩
  | @arr fs w p hout htop hd hp gap ih =>
      obtain ⟨m₀, g₀, h₀, h⟩ := (walks_append _ _).1 h
      obtain ⟨hctx, st₀, r₀, hst₀, hv₀⟩ := ih h₀
      obtain ⟨-, m₁, g₁, hv₁, he, h⟩ := walks_arrOpen hst₀ htop hv₀ h
      obtain ⟨m₂, g₂, st₂, hst₂, hv₂, hval₂, hbefore, h⟩ :=
        walks_itemsBefore hwf hd hv₁ (enter_open hwf (.inr rfl) he) hp h
      have h' : Walks arena mode m₂ g₂ (gap.bytes ++ []) m g := by rwa [List.append_nil]
      obtain ⟨hgap, m₃, st₃, r₃, hst₃, hv₃, hrest⟩ := walks_valueGap hst₂ hv₂ hval₂ gap h'
      obtain ⟨rfl, rfl⟩ := walks_nil.1 hrest
      exact ⟨.arr hctx htop hd he hbefore gap hgap, st₃, r₃, hst₃, hv₃⟩
  | @obj fs w p hout hd hp gap₁ key gap₂ gap₃ ih =>
      obtain ⟨m₀, g₀, h₀, h⟩ := (walks_append _ _).1 h
      obtain ⟨hctx, st₀, r₀, hst₀, hv₀⟩ := ih h₀
      obtain ⟨-, m₁, g₁, hv₁, he, h⟩ := walks_objOpen hst₀ hv₀ h
      obtain ⟨m₂, g₂, st₂, hst₂, hv₂, hval₂, hbefore, h⟩ :=
        walks_membersBefore hwf hd hv₁ (enter_open hwf (.inl rfl) he) hp h
      obtain ⟨hgap₁, hkey, hgap₂, m₃, g₃, hv₃, hk, h⟩ := walks_keyed hst₂ hv₂ hval₂ gap₁ key gap₂ h
      have h' : Walks arena mode m₃ g₃ (gap₃.bytes ++ []) m g := by rwa [List.append_nil]
      obtain ⟨hgap₃, m₄, st₄, r₄, hst₄, hv₄, hrest⟩ := walks_valueGap (.inl rfl) hv₃ (keyGuide_val hk) gap₃ h'
      obtain ⟨rfl, rfl⟩ := walks_nil.1 hrest
      exact ⟨.obj hctx hd he hbefore gap₁ key gap₂ gap₃ hgap₁ hkey hgap₂ hgap₃ hk, st₄, r₄, hst₄, hv₄⟩

/-- A longer walk goes through that context. -/
theorem context_behind (hwf : arena.Wf) (hout : Outer mode fs w) {rest : List UInt8}
    (h : Walks arena mode (.new mode) .new (w ++ rest) m g) :
    ∃ m₀ g₀, Context arena mode fs w g₀ ∧ (∃ st r, S.Open st ∧ m₀.view = ⟨fs, st, r⟩) ∧
      Walks arena mode m₀ g₀ rest m g := by
  obtain ⟨m₀, g₀, h₀, hrest⟩ := (walks_append _ _).1 h
  obtain ⟨hctx, hview⟩ := context_of_outer hwf hout h₀
  exact ⟨m₀, g₀, hctx, hview, hrest⟩

end

end Oxydllm.Constrain
