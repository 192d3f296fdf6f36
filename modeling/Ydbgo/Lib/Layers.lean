import Mathlib.Order.Nat

/-! # Layers of edits

A store keeps a map as a stack of layers, each with edits of some of the keys.
A layer spans a stretch of the map's history when it takes every version in it to
the last one, so layers whose stretches overlap can be stacked. The newest layer
is on top of the others and still written to.
-/

namespace Ydbgo

variable {κ ε σ : Type} (act : ε → σ → σ)

def actOn : Option ε → σ → σ
  | none, x => x
  | some e, x => act e x

/-- The map after the edits of a layer. -/
def applyLayer (L : κ → Option ε) (X : κ → σ) (k : κ) : σ := actOn act (L k) (X k)

/-- The map after the edits of some layers, the oldest first. -/
def stack (layers : List (κ → Option ε)) (X : κ → σ) : κ → σ :=
  layers.foldl (fun X L => applyLayer act L X) X

/-- The layer takes every version from `b` to `t` to version `t`. -/
structure Spans (F : ℕ → κ → σ) (L : κ → Option ε) (b t : ℕ) : Prop where
  le : b ≤ t
  eq : ∀ s, b ≤ s → s ≤ t → applyLayer act L (F s) = F t

/-- A layer with the stretch it spans. -/
structure Slot (κ ε : Type) where
  layer : κ → Option ε
  base : ℕ
  last : ℕ

/-- Layers, the oldest first, that lead on from version `T`. -/
def Chain (F : ℕ → κ → σ) : ℕ → List (Slot κ ε) → Prop
  | _, [] => True
  | T, s :: ss => s.base ≤ T ∧ T ≤ s.last ∧ Spans act F s.layer s.base s.last ∧ Chain F s.last ss

/-- The version that layers lead to. -/
def lastOf (T : ℕ) : List (Slot κ ε) → ℕ
  | [] => T
  | s :: ss => lastOf s.last ss

variable {act}

theorem stack_append (layers layers' : List (κ → Option ε)) (X : κ → σ) :
    stack act (layers ++ layers') X = stack act layers' (stack act layers X) :=
  List.foldl_append

namespace Chain

variable {F G : ℕ → κ → σ} {T v : ℕ} {ss ss' : List (Slot κ ε)}

theorem append : Chain act F T (ss ++ ss') ↔ Chain act F T ss ∧ Chain act F (lastOf T ss) ss' := by
  induction ss generalizing T with
  | nil => simp [Chain, lastOf]
  | cons s ss ih => simp only [List.cons_append, Chain, lastOf, ih, and_assoc]

theorem le_lastOf (h : Chain act F T ss) : T ≤ lastOf T ss := by
  induction ss generalizing T with
  | nil => exact le_rfl
  | cons s ss ih => exact h.2.1.trans (ih h.2.2.2)

theorem congr (h : Chain act F T ss) (hv : lastOf T ss ≤ v) (hFG : ∀ s ≤ v, F s = G s) :
    Chain act G T ss := by
  induction ss generalizing T with
  | nil => trivial
  | cons s ss ih =>
    obtain ⟨hb, ht, hspans, hrest⟩ := h
    have hlast : s.last ≤ v := hrest.le_lastOf.trans hv
    refine ⟨hb, ht, ⟨hspans.le, fun i hbi hi => ?_⟩, ih hrest hv⟩
    rw [← hFG i (hi.trans hlast), ← hFG s.last hlast, hspans.eq i hbi hi]

/-- A chain stacked on its first version gives the last one. -/
theorem stack (h : Chain act F T ss) : stack act (ss.map Slot.layer) (F T) = F (lastOf T ss) := by
  induction ss generalizing T with
  | nil => rfl
  | cons s ss ih =>
    obtain ⟨hb, ht, hspans, hrest⟩ := h
    have hfirst := hspans.eq T hb ht
    exact (congrArg (Ydbgo.stack act _) hfirst).trans (ih hrest)

end Chain

variable (act) in
/-- Layers over `x₀`, and a layer on top of them, that lead to `X`. The edits of `hid` change nothing
in the versions that the top layer spans. -/
def Leads (x₀ : κ → σ) (layers : List (κ → Option ε)) (top hid : κ → Option ε) (X : κ → σ) : Prop :=
  ∃ (F : ℕ → κ → σ) (T : ℕ) (bottom : List (κ → Option ε)) (slots : List (Slot κ ε)) (b v : ℕ),
    layers = bottom ++ slots.map Slot.layer ∧ stack act bottom x₀ = F T ∧
      Chain act F T (slots ++ [⟨top, b, v⟩]) ∧ F v = X ∧
      ∀ k e, hid k = some e → ∀ s, b ≤ s → s ≤ v → act e (F s k) = F s k

namespace Leads

variable {x₀ X : κ → σ} {layers : List (κ → Option ε)} {top hid hid' : κ → Option ε}

/-- Without edits on top. -/
theorem of_stack (h : stack act layers x₀ = X) (hhid : ∀ k e, hid k = some e → act e (X k) = X k) :
    Leads act x₀ layers (fun _ => none) hid X :=
  ⟨fun _ => X, 0, layers, [], 0, 0, (List.append_nil _).symm, h,
    ⟨le_rfl, le_rfl, ⟨le_rfl, fun _ _ _ => rfl⟩, trivial⟩, rfl, fun k e he _ _ _ => hhid k e he⟩

/-- The layers stacked give the map. -/
theorem eq (h : Leads act x₀ layers top hid X) : applyLayer act top (stack act layers x₀) = X := by
  obtain ⟨F, T, bottom, slots, b, v, rfl, hbottom, hchain, rfl, -⟩ := h
  have hstack := hchain.stack
  rw [List.map_append, stack_append] at hstack
  rw [stack_append, hbottom]
  have hlast : lastOf T (slots ++ [(⟨top, b, v⟩ : Slot κ ε)]) = v := by
    clear hbottom hchain hstack
    induction slots generalizing T with
    | nil => rfl
    | cons s slots ih => exact ih _
  rw [hlast] at hstack
  exact hstack

theorem hide (h : Leads act x₀ layers top hid X)
    (hhid' : ∀ k e, hid' k = some e → hid k = some e) : Leads act x₀ layers top hid' X := by
  obtain ⟨F, T, bottom, slots, b, v, hlayers, hbottom, hchain, hX, hhid⟩ := h
  exact ⟨F, T, bottom, slots, b, v, hlayers, hbottom, hchain, hX,
    fun k e he => hhid k e (hhid' k e he)⟩

theorem hid_eq (h : Leads act x₀ layers top hid X) {k : κ} {e : ε} (he : hid k = some e) :
    act e (X k) = X k := by
  obtain ⟨F, T, bottom, slots, b, v, rfl, -, hchain, rfl, hhid⟩ := h
  exact hhid k e he v (Chain.append.mp hchain).2.2.2.1.le le_rfl

theorem top_eq (h : Leads act x₀ layers top hid X) : applyLayer act top X = X := by
  obtain ⟨F, T, bottom, slots, b, v, rfl, -, hchain, rfl, -⟩ := h
  obtain ⟨-, -, hspans, -⟩ := (Chain.append.mp hchain).2
  exact hspans.eq v hspans.le le_rfl

/-- The top layer is written to: `M` does what it does and then `U`, where the hidden edits change
nothing. -/
theorem write (hidem : ∀ e x, act e (act e x) = act e x) (h : Leads act x₀ layers top hid X)
    {U M : κ → Option ε}
    (hM : ∀ k x, (∀ e, hid k = some e → act e x = x) →
      actOn act (M k) x = actOn act (U k) (actOn act (top k) x))
    (hhid' : ∀ k e, hid' k = some e → U k = none ∧ hid k = some e) :
    Leads act x₀ layers M hid' (applyLayer act U X) := by
  obtain ⟨F, T, bottom, slots, b, v, rfl, hbottom, hchain, rfl, hhid⟩ := h
  obtain ⟨hslots, hb, hlast, hspans, -⟩ := Chain.append.mp hchain
  let G : ℕ → κ → σ := fun s => if s ≤ v then F s else applyLayer act U (F v)
  have hFG : ∀ s ≤ v, F s = G s := fun s hs => (if_pos hs).symm
  have hnew : G (v + 1) = applyLayer act U (F v) := if_neg (by omega)
  have hT : T ≤ v := hslots.le_lastOf.trans hlast
  have hstep : ∀ s, b ≤ s → s ≤ v → applyLayer act M (F s) = applyLayer act U (F v) := by
    intro s hbs hs
    ext k
    have htop : actOn act (top k) (F s k) = F v k := congrFun (hspans.eq s hbs hs) k
    exact (hM k _ fun e he => hhid k e he s hbs hs).trans (congrArg _ htop)
  have hidemM (Y : κ → σ) : applyLayer act M (applyLayer act M Y) = applyLayer act M Y := by
    ext k
    unfold applyLayer
    cases M k with
    | none => rfl
    | some e => exact hidem e (Y k)
  refine ⟨G, T, bottom, slots, b, v + 1, rfl, hbottom.trans (hFG T hT),
    Chain.append.mpr ⟨hslots.congr hlast hFG, hb, hlast.trans (Nat.le_succ v), ⟨?_, ?_⟩, trivial⟩,
    hnew, ?_⟩
  · exact hspans.le.trans (Nat.le_succ v)
  · intro s hbs hs
    rcases Nat.of_le_succ hs with hs | rfl
    · rw [← hFG s hs, hnew]
      exact hstep s hbs hs
    · rw [hnew, ← hstep v hspans.le le_rfl, hidemM]
  · intro k e he s hbs hs
    obtain ⟨hU, he⟩ := hhid' k e he
    rcases Nat.of_le_succ hs with hs | rfl
    · rw [← hFG s hs]
      exact hhid k e he s hbs hs
    · have hsame : G (v + 1) k = F v k := by rw [hnew, applyLayer, hU, actOn]
      rw [hsame]
      exact hhid k e he v hspans.le le_rfl

/-- The top layer becomes one of the others, together with hidden edits. -/
theorem settle (h : Leads act x₀ layers top hid X) {full : κ → Option ε}
    (hfull : ∀ k, full k = top k ∨ top k = none ∧ hid k = full k)
    (hhid' : ∀ k e, hid' k = some e → full k = some e) :
    Leads act x₀ (layers ++ [full]) (fun _ => none) hid' X := by
  obtain ⟨F, T, bottom, slots, b, v, rfl, hbottom, hchain, rfl, hhid⟩ := h
  obtain ⟨hslots, hb, hlast, hspans, -⟩ := Chain.append.mp hchain
  have hspans' : Spans act F full b v := by
    refine ⟨hspans.le, fun s hbs hs => ?_⟩
    ext k
    have htop : actOn act (top k) (F s k) = F v k := congrFun (hspans.eq s hbs hs) k
    rcases hfull k with hk | ⟨hnone, hk⟩
    · rw [applyLayer, hk, htop]
    · rw [hnone, actOn] at htop
      rw [applyLayer, ← hk]
      cases he : hid k with
      | none => exact htop
      | some e => exact (hhid k e he s hbs hs).trans htop
  refine ⟨F, T, bottom, slots ++ [⟨full, b, v⟩], v, v, ?_, hbottom, ?_, rfl, ?_⟩
  · rw [List.map_append, List.append_assoc]
    rfl
  · have hempty : Spans act F (fun _ => none) v v :=
      ⟨le_rfl, fun s hvs hs => by rw [le_antisymm hs hvs]; rfl⟩
    rw [List.append_assoc, Chain.append]
    exact ⟨hslots, hb, hlast, hspans', le_rfl, le_rfl, hempty, trivial⟩
  · intro k e he s hvs hs
    obtain rfl := le_antisymm hs hvs
    have hk := congrFun (hspans'.eq s hspans.le le_rfl) k
    rwa [applyLayer, hhid' k e he, actOn] at hk

end Leads

end Ydbgo
