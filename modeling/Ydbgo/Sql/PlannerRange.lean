import Ydbgo.Storage.PkOrder

/-! # Constraints and ranges

A key lies in the range built from the constraints when its values satisfy
them. The converse needs that an equality prefix is followed by no one-sided
bound.
-/

namespace Ydbgo.Sql

open Storage

/-- `a` is below `b`, strictly or not. -/
def Below (strict : Bool) (a b : Bytes) : Prop := if strict then a < b else a ≤ b

/-- A value's encoding satisfies the constraint. -/
structure Constraint.Holds (c : Constraint) (x : Value) : Prop where
  eq : ∀ v, c.eq = some v → enc x = enc v
  lo : ∀ v s, c.lo = some (v, s) → Below s (enc v) (enc x)
  up : ∀ v s, c.up = some (v, s) → Below s (enc x) (enc v)

def Constraint.bounds (c : Constraint) : List Value :=
  (c.lo.map Prod.fst).toList ++ (c.up.map Prod.fst).toList

def Constraint.values (c : Constraint) : List Value := c.eq.toList ++ c.bounds

section Bounds

theorem nil_le (a : Bytes) : [] ≤ a := not_lt.mp (List.not_lt_nil _)

theorem bound_le_iff {a b rest : Bytes} (h : Apart a b) (hrest : rest < [0xff]) (strict : Bool) :
    a ++ (if strict then [0xff] else []) ≤ b ++ rest ↔ Below strict a b := by
  rw [h.append_le_iff, Below]
  cases strict with
  | false => simp only [Bool.false_eq_true, if_false, nil_le, and_true, le_iff_lt_or_eq (a := a)]
  | true => simp [not_le_of_gt hrest]

theorem lt_bound_iff {a b rest : Bytes} (h : Apart a b) (hrest : rest < [0xff]) (strict : Bool) :
    a ++ rest < b ++ (if strict then [] else [0xff]) ↔ Below strict a b := by
  rw [h.append_lt_iff, Below]
  cases strict with
  | false => simp [hrest, le_iff_lt_or_eq]
  | true => simp

theorem lowerBytes (pre : List Value) (v : Value) (strict : Bool) :
    pkBoundBytes ⟨pre ++ [v], !strict⟩ false =
      (pre.map enc).flatten ++ (enc v ++ if strict then [0xff] else []) := by
  cases strict <;> simp [pkBoundBytes, encodePK_eq]

theorem upperBytes (pre : List Value) (v : Value) (strict : Bool) :
    pkBoundBytes ⟨pre ++ [v], !strict⟩ true =
      (pre.map enc).flatten ++ (enc v ++ if strict then [] else [0xff]) := by
  cases strict <;> simp [pkBoundBytes, encodePK_eq]

end Bounds

section Range

variable {xs : List Value} {types : ℕ → SqlType} (hx : ∀ i x, xs[i]? = some x → KeyValue (types i) x)
  {cons : ℕ → Option Constraint}
  (hc : ∀ i c, cons i = some c → ∀ v ∈ c.values, KeyValue (types i) v)

theorem encodePK_split (i : ℕ) :
    encodePK xs = ((xs.take i).map enc).flatten ++ encodePK (xs.drop i) := by
  rw [encodePK_eq, encodePK_eq, ← List.flatten_append, ← List.map_append, List.take_append_drop]

theorem encodePK_drop {i : ℕ} (h : i < xs.length) :
    encodePK (xs.drop i) = enc xs[i] ++ encodePK (xs.drop (i + 1)) := by
  rw [List.drop_eq_getElem_cons h, encodePK_eq, encodePK_eq, List.map_cons, List.flatten_cons]

/-- The keys of the range around an equality prefix are those that start with it. -/
theorem inRange_point_iff {pre : List Value} {i : ℕ}
    (hap : List.Forall₂ Apart ((xs.take i).map enc) (pre.map enc)) :
    InRange (some ⟨some ⟨pre, true⟩, some ⟨pre, true⟩⟩) (encodePK xs) ↔
      (xs.take i).map enc = pre.map enc := by
  have h := between_flatten_iff (s := []) (t := [0xff]) (k := encodePK (xs.drop i)) hap
  rw [← encodePK_split] at h
  simp only [List.append_nil, nil_le, encodePK_lt_guard, and_self, and_true] at h
  simpa [InRange, pkRangeBytes, pkBoundBytes, encodePK_eq] using h

/-- A key that starts with the equality prefix lies within bounds its next value satisfies. -/
theorem inRange_of_holds {c : Constraint} {pre : List Value} {i : ℕ} (h : i < xs.length)
    (hpre : (xs.take i).map enc = pre.map enc) (hap : ∀ v ∈ c.bounds, Apart (enc v) (enc xs[i]))
    (hold : c.Holds xs[i]) :
    InRange (some ⟨c.lo.map fun b => ⟨pre ++ [b.1], !b.2⟩, c.up.map fun b => ⟨pre ++ [b.1], !b.2⟩⟩)
      (encodePK xs) := by
  have hrest := encodePK_lt_guard (xs.drop (i + 1))
  rw [encodePK_split i, encodePK_drop h, hpre]
  simp only [InRange, pkRangeBytes, Option.map_map, Option.map_eq_some_iff, Function.comp]
  constructor
  · rintro _ ⟨⟨v, s⟩, hv, rfl⟩
    rw [lowerBytes, append_le_append_left, bound_le_iff (hap v (by simp [Constraint.bounds, hv])) hrest]
    exact hold.lo v s hv
  · rintro _ ⟨⟨v, s⟩, hv, rfl⟩
    rw [upperBytes, append_lt_append_left,
      lt_bound_iff (hap v (by simp [Constraint.bounds, hv])).symm hrest]
    exact hold.up v s hv

/-- A key within bounds on both sides, or after no equality, starts with the equality prefix, and its
next value satisfies the bounds. -/
theorem holds_of_inRange {c : Constraint} {pre : List Value} {i : ℕ} (h : i < xs.length)
    (hpre : List.Forall₂ Apart ((xs.take i).map enc) (pre.map enc))
    (hap : ∀ v ∈ c.bounds, Apart (enc v) (enc xs[i])) (heq : c.eq = none)
    (hsides : 0 < i → c.lo.isSome ∧ c.up.isSome)
    (hin : InRange (some ⟨c.lo.map fun b => ⟨pre ++ [b.1], !b.2⟩,
      c.up.map fun b => ⟨pre ++ [b.1], !b.2⟩⟩) (encodePK xs)) :
    (xs.take i).map enc = pre.map enc ∧ c.Holds xs[i] := by
  have hrest := encodePK_lt_guard (xs.drop (i + 1))
  have hlo : ∀ v s, c.lo = some (v, s) → (pre.map enc).flatten ++
      (enc v ++ if s then [0xff] else []) ≤ ((xs.take i).map enc).flatten ++
        (enc xs[i] ++ encodePK (xs.drop (i + 1))) := fun v s hv => by
    rw [← lowerBytes, ← encodePK_drop h, ← encodePK_split]
    exact hin.1 _ (by simp [pkRangeBytes, hv])
  have hup : ∀ v s, c.up = some (v, s) → ((xs.take i).map enc).flatten ++
      (enc xs[i] ++ encodePK (xs.drop (i + 1))) < (pre.map enc).flatten ++
        (enc v ++ if s then [] else [0xff]) := fun v s hv => by
    rw [← upperBytes, ← encodePK_drop h, ← encodePK_split]
    exact hin.2 _ (by simp [pkRangeBytes, hv])
  have heqs : (xs.take i).map enc = pre.map enc := by
    rcases Nat.eq_zero_or_pos i with rfl | hi
    · simpa using hpre
    · obtain ⟨hl, hu⟩ := hsides hi
      obtain ⟨⟨v, s⟩, hv⟩ := Option.isSome_iff_exists.mp hl
      obtain ⟨⟨w, t⟩, hw⟩ := Option.isSome_iff_exists.mp hu
      exact ((between_flatten_iff hpre).mp ⟨hlo v s hv, hup w t hw⟩).1
  refine ⟨heqs, by simp [heq], fun v s hv => ?_, fun v s hv => ?_⟩
  · have hle := hlo v s hv
    rwa [heqs, append_le_append_left, bound_le_iff (hap v (by simp [Constraint.bounds, hv])) hrest]
      at hle
  · have hlt := hup v s hv
    rwa [heqs, append_lt_append_left,
      lt_bound_iff (hap v (by simp [Constraint.bounds, hv])).symm hrest] at hlt

include hx hc in
theorem apart_of_cons {i : ℕ} {c : Constraint} (h : i < xs.length) (hi : cons i = some c) :
    ∀ v ∈ c.values, Apart (enc v) (enc xs[i]) :=
  fun v hv => apart_enc (hc i c hi v hv) (hx i _ (List.getElem?_eq_getElem h))

include hx hc in
theorem buildRange_sound (hold : ∀ j c x, cons j = some c → xs[j]? = some x → c.Holds x) (n : ℕ)
    {i : ℕ} (hi : i + n = xs.length) {pre : List Value}
    (hpre : (xs.take i).map enc = pre.map enc) (exact : Bool) :
    InRange (buildRange cons n i pre exact).1 (encodePK xs) := by
  have hpoint : ∀ {j : ℕ} {ws : List Value}, (xs.take j).map enc = ws.map enc →
      InRange (some ⟨some ⟨ws, true⟩, some ⟨ws, true⟩⟩) (encodePK xs) := fun {j ws} hj => by
    refine (inRange_point_iff (i := j) ?_).mpr hj
    rw [hj]
    exact List.forall₂_same.mpr fun a _ => apart_of_length_eq rfl
  induction n generalizing i pre exact with
  | zero => simp [buildRange, InRange, pkRangeBytes]
  | succ n ih =>
    have hlt : i < xs.length := by omega
    cases hci : cons i with
    | none =>
      simp only [buildRange, hci]
      split
      · simp [InRange, pkRangeBytes]
      · exact hpoint hpre
    | some c =>
      have hholds := hold i c _ hci (List.getElem?_eq_getElem hlt)
      cases hce : c.eq with
      | none =>
        simp only [buildRange, hci, hce]
        exact inRange_of_holds hlt hpre
          (fun v hv => apart_of_cons hx hc hlt hci v (List.mem_append_right _ hv)) hholds
      | some v =>
        have hnext : (xs.take (i + 1)).map enc = (pre ++ [v]).map enc := by
          rw [List.take_succ_eq_append_getElem hlt, List.map_append, List.map_append, hpre]
          simp [hholds.eq v hce]
        simp only [buildRange, hci, hce]
        split
        · exact hpoint hnext
        · exact ih (by omega) hnext _

/-- A range is exact only if nothing was left to check before. -/
theorem exact_of_buildRange {n i : ℕ} {pre : List Value} {exact : Bool}
    (h : (buildRange cons n i pre exact).2 = true) : exact = true := by
  induction n generalizing i pre exact with
  | zero => exact h
  | succ n ih =>
    simp only [buildRange] at h
    cases hci : cons i with
    | none =>
      rw [hci] at h
      dsimp only at h
      split at h <;> exact (Bool.and_eq_true_iff.mp h).1
    | some c =>
      rw [hci] at h
      dsimp only at h
      cases hce : c.eq with
      | none =>
        rw [hce] at h
        exact (Bool.and_eq_true_iff.mp h).1
      | some v =>
        rw [hce] at h
        dsimp only at h
        have hand : (exact && c.lo.isNone && c.up.isNone) = true := by
          split at h
          · exact h
          · exact ih h
        exact (Bool.and_eq_true_iff.mp (Bool.and_eq_true_iff.mp hand).1).1

include hx hc in
theorem buildRange_exact
    (hsides : ∀ j c, cons j = some c → 0 < j → c.eq = none →
      (∀ k < j, ∃ d, cons k = some d ∧ d.eq.isSome) → c.lo.isSome ∧ c.up.isSome)
    (n : ℕ) {i : ℕ} (hi : i + n = xs.length) {pre : List Value} {exact : Bool}
    (hlen : pre.length = i) (hap : List.Forall₂ Apart ((xs.take i).map enc) (pre.map enc))
    (heqs : ∀ k < i, ∃ d, cons k = some d ∧ d.eq.isSome)
    (hexact : (buildRange cons n i pre exact).2 = true)
    (hin : InRange (buildRange cons n i pre exact).1 (encodePK xs)) :
    n ≠ 0 → (xs.take i).map enc = pre.map enc ∧
      ∀ j c x, i ≤ j → cons j = some c → xs[j]? = some x → c.Holds x := by
  induction n generalizing i pre exact with
  | zero => exact fun h => absurd rfl h
  | succ n ih =>
    rintro -
    have hlt : i < xs.length := by omega
    have hget : ∀ x, xs[i]? = some x → x = xs[i] := fun x h => by
      rw [List.getElem?_eq_getElem hlt] at h
      exact (Option.some.inj h).symm
    have hlast : ((List.range n).all fun j => (cons (i + 1 + j)).isNone) = true →
        ∀ j c, i < j → j < xs.length → cons j ≠ some c := by
      intro h j c hj hjl hcj
      have := List.all_eq_true.mp h (j - (i + 1)) (List.mem_range.mpr (by omega))
      rw [show i + 1 + (j - (i + 1)) = j by omega, hcj] at this
      cases this
    have hafter : ((List.range n).all fun j => (cons (i + 1 + j)).isNone) = true →
        (∀ c, cons i = some c → c.Holds xs[i]) →
        ∀ j c x, i ≤ j → cons j = some c → xs[j]? = some x → c.Holds x := by
      intro h hi j c x hj hcj hxj
      rcases Nat.eq_or_lt_of_le hj with rfl | hj
      · rw [hget x hxj]
        exact hi c hcj
      · exact absurd hcj (hlast h j c hj (List.getElem?_eq_some_iff.mp hxj).1)
    cases hci : cons i with
    | none =>
      simp only [buildRange, hci] at hexact hin
      split at hexact
      · rename_i hpre
        obtain rfl := List.isEmpty_iff.mp hpre
        obtain rfl : 0 = i := hlen
        exact ⟨rfl, hafter (Bool.and_eq_true_iff.mp hexact).2 (by simp [hci])⟩
      · rename_i hpre
        rw [if_neg hpre] at hin
        exact ⟨(inRange_point_iff hap).mp hin,
          hafter (Bool.and_eq_true_iff.mp hexact).2 (by simp [hci])⟩
    | some c =>
      have hapc := apart_of_cons hx hc hlt hci
      cases hce : c.eq with
      | none =>
        simp only [buildRange, hci, hce] at hexact hin
        obtain ⟨hpre, hholds⟩ := holds_of_inRange hlt hap
          (fun v hv => hapc v (List.mem_append_right _ hv)) hce
          (fun hpos => hsides i c hci hpos hce heqs) hin
        refine ⟨hpre, hafter (Bool.and_eq_true_iff.mp hexact).2 fun d hd => ?_⟩
        obtain rfl := Option.some.inj (hci.symm.trans hd)
        exact hholds
      | some v =>
        have hap' : List.Forall₂ Apart ((xs.take (i + 1)).map enc) ((pre ++ [v]).map enc) := by
          rw [List.take_succ_eq_append_getElem hlt, List.map_append, List.map_append]
          exact List.rel_append hap (.cons (hapc v (by simp [Constraint.values, hce])).symm .nil)
        have hsplit : (xs.take (i + 1)).map enc = (pre ++ [v]).map enc →
            (xs.take i).map enc = pre.map enc ∧ enc xs[i] = enc v := by
          intro h
          rw [List.take_succ_eq_append_getElem hlt, List.map_append, List.map_append] at h
          simpa using List.append_inj' h (by simp)
        have hholds : c.lo.isNone = true → c.up.isNone = true → enc xs[i] = enc v →
            c.Holds xs[i] := by
          intro hl hu he
          rw [Option.isNone_iff_eq_none] at hl hu
          exact ⟨by simpa [hce] using he, by simp [hl], by simp [hu]⟩
        simp only [buildRange, hci, hce] at hexact hin
        split at hexact
        · rename_i hn
          subst hn
          rw [if_pos rfl] at hin
          simp only [Bool.and_eq_true] at hexact
          obtain ⟨⟨-, hl⟩, hu⟩ := hexact
          obtain ⟨hpre, hv⟩ := hsplit ((inRange_point_iff hap').mp hin)
          refine ⟨hpre, hafter rfl fun d hd => ?_⟩
          obtain rfl := Option.some.inj (hci.symm.trans hd)
          exact hholds hl hu hv
        · rename_i hn
          rw [if_neg hn] at hin
          have heqs' : ∀ k < i + 1, ∃ d, cons k = some d ∧ d.eq.isSome := by
            intro k hk
            rcases Nat.lt_succ_iff_lt_or_eq.mp hk with hk | rfl
            · exact heqs k hk
            · exact ⟨c, hci, by simp [hce]⟩
          have he := exact_of_buildRange hexact
          simp only [Bool.and_eq_true] at he
          obtain ⟨⟨-, hl⟩, hu⟩ := he
          obtain ⟨hnext, hrest⟩ := ih (by omega) (by simp [hlen]) hap' heqs' hexact hin hn
          obtain ⟨hpre, hv⟩ := hsplit hnext
          refine ⟨hpre, fun j d x hj hdj hxj => ?_⟩
          rcases Nat.eq_or_lt_of_le hj with rfl | hj
          · obtain rfl := Option.some.inj (hci.symm.trans hdj)
            rw [hget x hxj]
            exact hholds hl hu hv
          · exact hrest j d x hj hdj hxj

end Range

end Ydbgo.Sql
