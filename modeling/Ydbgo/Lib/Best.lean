import Mathlib.Data.List.Perm.Basic
import Mathlib.Order.Lattice

/-! # The best value of a list

A loop keeps the first value that no later one is better than. Values need not
all be comparable: one that stands beside the others is beaten by none, and is
what the loop ends with if it comes first. Where only one value is beaten by
none, the loop finds it in any order, and over the parts of a list as well.
-/

namespace Ydbgo

section Best

variable {α : Type} (better : α → α → Bool)

def keepBetter (b : Option α) (v : α) : Option α :=
  match b with
  | none => some v
  | some w => if better v w then some v else some w

def bestOf (vs : List α) : Option α := vs.foldl (keepBetter better) none

/-- Values in a strict order, and values that are better than no other. -/
structure OrderedOn (vs : List α) : Prop where
  irrefl : ∀ v ∈ vs, ¬ better v v
  trans : ∀ u ∈ vs, ∀ v ∈ vs, ∀ w ∈ vs, better u v → better v w → better u w
  beside : ∀ u ∈ vs, ∀ v ∈ vs, better u v → ∀ w ∈ vs,
    better u w ∨ better w v ∨ ∀ x ∈ vs, ¬ better w x

/-- A value of the list that no other one is better than. -/
def Unbeaten (vs : List α) (m : α) : Prop := m ∈ vs ∧ ∀ u ∈ vs, ¬ better u m

/-- No two values of the list are both beaten by none. -/
def OneBest (vs : List α) : Prop := ∀ m m', Unbeaten better vs m → Unbeaten better vs m' → m = m'

variable {better} {vs vs' : List α} {m : α}

theorem OrderedOn.of_subset (h : OrderedOn better vs) (hs : ∀ v ∈ vs', v ∈ vs) :
    OrderedOn better vs' := by
  constructor
  · exact fun v hv => h.irrefl v (hs v hv)
  · exact fun u hu v hv w hw => h.trans u (hs u hu) v (hs v hv) w (hs w hw)
  · intro u hu v hv hb w hw
    rcases h.beside u (hs u hu) v (hs v hv) hb w (hs w hw) with h | h | h
    · exact Or.inl h
    · exact Or.inr (Or.inl h)
    · exact Or.inr (Or.inr fun x hx => h x (hs x hx))

/-- Values with ranks, and values without that stand beside them. -/
theorem orderedOn_of_rank {β : Type} [LinearOrder β] (rank : α → Option β)
    (h : ∀ u ∈ vs, ∀ v ∈ vs, better u v ↔ ∃ a ∈ rank u, ∃ b ∈ rank v, a < b) :
    OrderedOn better vs := by
  constructor
  · intro v hv hb
    obtain ⟨a, ha, b, hb, hlt⟩ := (h v hv v hv).mp hb
    obtain rfl := Option.mem_unique ha hb
    exact lt_irrefl _ hlt
  · intro u hu v hv w hw huv hvw
    obtain ⟨a, ha, b, hb, hab⟩ := (h u hu v hv).mp huv
    obtain ⟨b', hb', c, hc, hbc⟩ := (h v hv w hw).mp hvw
    obtain rfl := Option.mem_unique hb hb'
    exact (h u hu w hw).mpr ⟨a, ha, c, hc, lt_trans hab hbc⟩
  · intro u hu v hv huv w hw
    obtain ⟨a, ha, b, hb, hab⟩ := (h u hu v hv).mp huv
    cases hc : rank w with
    | none =>
      refine Or.inr (Or.inr fun x hx hwx => ?_)
      obtain ⟨c, hc', -⟩ := (h w hw x hx).mp hwx
      rw [hc] at hc'
      cases hc'
    | some c =>
      rcases lt_or_ge a c with hac | hca
      · exact Or.inl ((h u hu w hw).mpr ⟨a, ha, c, hc, hac⟩)
      · exact Or.inr (Or.inl ((h w hw v hv).mpr ⟨c, hc, b, hb, lt_of_le_of_lt hca hab⟩))

/-- What the loop ends with from `b`: something no worse, and beaten by none of the list. -/
theorem foldl_keepBetter {b : α} (h : OrderedOn better (b :: vs)) :
    ∃ r, vs.foldl (keepBetter better) (some b) = some r ∧ (r = b ∨ better r b) ∧ r ∈ b :: vs ∧
      ∀ u ∈ b :: vs, ¬ better u r := by
  induction vs generalizing b with
  | nil => exact ⟨b, rfl, Or.inl rfl, List.mem_cons_self, by simpa using h.irrefl b⟩
  | cons v vs ih =>
    have hb : b ∈ b :: v :: vs := List.mem_cons_self
    have hv : v ∈ b :: v :: vs := List.mem_cons_of_mem _ List.mem_cons_self
    have hsub : ∀ w : α, w ∈ b :: v :: vs → ∀ x ∈ w :: vs, x ∈ b :: v :: vs := by
      intro w hw x hx
      rcases List.mem_cons.mp hx with rfl | hx
      · exact hw
      · exact List.mem_cons_of_mem _ (List.mem_cons_of_mem _ hx)
    by_cases hbv : better v b = true
    · obtain ⟨r, hr, hle, hmem, hun⟩ := ih (h.of_subset (hsub v hv))
      have hrb : better r b = true := by
        rcases hle with rfl | hrv
        · exact hbv
        · exact h.trans r (hsub v hv r hmem) v hv b hb hrv hbv
      refine ⟨r, by simpa [keepBetter, hbv] using hr, Or.inr hrb, hsub v hv r hmem, ?_⟩
      intro u hu
      rcases List.mem_cons.mp hu with rfl | hu
      · intro hur
        exact h.irrefl u hb (h.trans u hb r (hsub v hv r hmem) u hb hur hrb)
      · exact hun u hu
    · obtain ⟨r, hr, hle, hmem, hun⟩ := ih (h.of_subset (hsub b hb))
      refine ⟨r, by simpa [keepBetter, hbv] using hr, hle, hsub b hb r hmem, ?_⟩
      intro u hu
      rcases List.mem_cons.mp hu with rfl | hu
      · exact hun u List.mem_cons_self
      rcases List.mem_cons.mp hu with rfl | hu
      · -- `v` is not better than `b`, so it is not better than what is no worse than `b`
        intro hur
        rcases hle with rfl | hrb
        · exact hbv hur
        · exact hbv (h.trans u hv r (hsub b hb r hmem) b hb hur hrb)
      · exact hun u (List.mem_cons_of_mem _ hu)

theorem bestOf_eq_none : bestOf better vs = none ↔ vs = [] := by
  cases vs with
  | nil => simp [bestOf]
  | cons v vs =>
    have hsome : ∀ b : α, (vs.foldl (keepBetter better) (some b)).isSome := by
      induction vs with
      | nil => exact fun b => rfl
      | cons w vs ih =>
        intro b
        rw [List.foldl_cons, keepBetter]
        split <;> exact ih _
    have hv : bestOf better (v :: vs) = vs.foldl (keepBetter better) (some v) := rfl
    simp only [hv, reduceCtorEq, iff_false]
    exact Option.ne_none_iff_isSome.mpr (hsome v)

theorem unbeaten_of_bestOf (h : OrderedOn better vs) (hm : bestOf better vs = some m) :
    Unbeaten better vs m := by
  cases vs with
  | nil => cases hm
  | cons v vs =>
    obtain ⟨r, hr, -, hmem, hun⟩ := foldl_keepBetter h
    obtain rfl : r = m := Option.some.inj (hr.symm.trans hm)
    exact ⟨hmem, hun⟩

/-- Every value is beaten by none, or by one that is. -/
theorem exists_unbeaten (h : OrderedOn better vs) {v : α} (hv : v ∈ vs) :
    ∃ m, Unbeaten better vs m ∧ (m = v ∨ better m v) := by
  have hsub : ∀ x, x ∈ v :: vs ↔ x ∈ vs := by simpa using hv
  obtain ⟨r, -, hle, hmem, hun⟩ := foldl_keepBetter (h.of_subset fun x hx => (hsub x).mp hx)
  exact ⟨r, ⟨(hsub r).mp hmem, fun u hu => hun u ((hsub u).mpr hu)⟩, hle⟩

theorem bestOf_eq_of_oneBest (h : OrderedOn better vs) (hone : OneBest better vs)
    (hm : Unbeaten better vs m) : bestOf better vs = some m := by
  cases hb : bestOf better vs with
  | none =>
    obtain rfl := bestOf_eq_none.mp hb
    cases hm.1
  | some r => rw [hone r m (unbeaten_of_bestOf h hb) hm]

/-- The order of the values does not matter. -/
theorem bestOf_congr (h : OrderedOn better vs) (hone : OneBest better vs)
    (hmem : ∀ v, v ∈ vs ↔ v ∈ vs') : bestOf better vs = bestOf better vs' := by
  have hun : ∀ m, Unbeaten better vs m ↔ Unbeaten better vs' m := by simp [Unbeaten, hmem]
  cases hb : bestOf better vs' with
  | none =>
    obtain rfl := bestOf_eq_none.mp hb
    exact bestOf_eq_none.mpr (List.eq_nil_iff_forall_not_mem.mpr fun v hv => by simp [hmem] at hv)
  | some r =>
    have hr := unbeaten_of_bestOf (h.of_subset fun v hv => (hmem v).mpr hv) hb
    exact bestOf_eq_of_oneBest h hone ((hun r).mpr hr)

/-- The best of all values is the best of those that are best in their parts. -/
theorem bestOf_flatten {parts : List (List α)} (h : OrderedOn better parts.flatten)
    (hone : OneBest better parts.flatten) :
    bestOf better (parts.filterMap (bestOf better)) = bestOf better parts.flatten := by
  have hpart : ∀ p ∈ parts, ∀ v ∈ p, v ∈ parts.flatten := fun p hp v hv =>
    List.mem_flatten_of_mem hp hv
  have hbests : ∀ v ∈ parts.filterMap (bestOf better), v ∈ parts.flatten := by
    intro v hv
    obtain ⟨p, hp, hb⟩ := List.mem_filterMap.mp hv
    exact hpart p hp v (unbeaten_of_bestOf (h.of_subset (hpart p hp)) hb).1
  -- a value that the one best is not better than is that one
  have honly : ∀ m r, Unbeaten better parts.flatten m → r ∈ parts.flatten → ¬ better m r →
      r = m := by
    intro m r hm hr hmr
    refine hone r m ⟨hr, fun u hu hur => ?_⟩ hm
    rcases h.beside u hu r hr hur m hm.1 with hum | hmr' | hno
    · exact hm.2 u hu hum
    · exact hmr hmr'
    · -- then the best is beside the others, and one of them is best too
      obtain ⟨w, hw, hwr⟩ := exists_unbeaten h hr
      obtain rfl := hone w m hw hm
      rcases hwr with rfl | hwr
      · exact hm.2 u hu hur
      · exact hno r hr hwr
  cases hb : bestOf better parts.flatten with
  | none =>
    have hnil := bestOf_eq_none.mp hb
    refine bestOf_eq_none.mpr (List.eq_nil_iff_forall_not_mem.mpr fun v hv => ?_)
    have hmem := hbests v hv
    rw [hnil] at hmem
    cases hmem
  | some m =>
    have hm := unbeaten_of_bestOf h hb
    obtain ⟨p, hp, hmp⟩ := List.mem_flatten.mp hm.1
    have hbest : m ∈ parts.filterMap (bestOf better) := by
      refine List.mem_filterMap.mpr ⟨p, hp, ?_⟩
      cases hbp : bestOf better p with
      | none =>
        obtain rfl := bestOf_eq_none.mp hbp
        cases hmp
      | some r =>
        have hr := unbeaten_of_bestOf (h.of_subset (hpart p hp)) hbp
        rw [honly m r hm (hpart p hp r hr.1) (hr.2 m hmp)]
    refine bestOf_eq_of_oneBest (h.of_subset hbests) ?_ ⟨hbest, fun u hu => hm.2 u (hbests u hu)⟩
    intro r r' hr hr'
    rw [honly m r hm (hbests r hr.1) (hr.2 m hbest), honly m r' hm (hbests r' hr'.1) (hr'.2 m hbest)]

/-- A value beaten by none is what the loop ends with if it comes first. -/
theorem bestOf_cons_of_unbeaten (h : OrderedOn better vs) (hm : Unbeaten better vs m)
    (hsub : ∀ v ∈ vs', v ∈ vs) : bestOf better (m :: vs') = some m := by
  have hm' : ∀ v ∈ m :: vs', v ∈ vs := by
    intro v hv
    rcases List.mem_cons.mp hv with rfl | hv
    · exact hm.1
    · exact hsub v hv
  obtain ⟨r, hr, hle, hmem, -⟩ := foldl_keepBetter (h.of_subset hm')
  rcases hle with rfl | hrm
  · exact hr
  · exact absurd hrm (hm.2 r (hm' r hmem))

end Best

end Ydbgo
