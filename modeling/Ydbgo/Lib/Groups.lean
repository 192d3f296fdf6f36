import Mathlib.Data.Finset.Card
import Mathlib.Data.List.Dedup
import Mathlib.Data.List.Forall2
import Mathlib.Data.List.Induction
import Mathlib.Data.List.Perm.Basic
import Mathlib.Data.Multiset.ZeroCons

/-! # Groups of a list

A loop puts the elements of a list into groups by a key, in the order in which
the keys are first seen. The groups are the filters of the list by its keys.
-/

namespace Ydbgo

section Groups

variable {α κ : Type} [DecidableEq κ] (key : α → κ)

/-- An element goes to the end of its group, or starts one at the end. -/
def addGroup (groups : List (κ × List α)) (a : α) : List (κ × List α) :=
  if key a ∈ groups.map Prod.fst then
    groups.map fun g => if g.1 = key a then (g.1, g.2 ++ [a]) else g
  else groups ++ [(key a, [a])]

def groupsBy (as : List α) : List (κ × List α) := as.foldl (addGroup key) []

/-- The keys of a list, where they are first seen. -/
def firstKeys (as : List α) : List κ := (as.map key).reverse.dedup.reverse

variable {key} {as : List α}

@[simp] theorem mem_firstKeys {k : κ} : k ∈ firstKeys key as ↔ ∃ a ∈ as, key a = k := by
  simp [firstKeys]

theorem nodup_firstKeys : (firstKeys key as).Nodup :=
  List.nodup_reverse.mpr (List.nodup_dedup _)

theorem firstKeys_append (a : α) : firstKeys key (as ++ [a]) =
    if key a ∈ firstKeys key as then firstKeys key as else firstKeys key as ++ [key a] := by
  have hmem : key a ∈ (as.map key).reverse ↔ key a ∈ firstKeys key as := by simp [firstKeys]
  rw [firstKeys, List.map_append, List.reverse_append, List.map_singleton, List.reverse_singleton,
    List.singleton_append]
  split
  · rename_i h
    rw [List.dedup_cons_of_mem (hmem.mpr h), firstKeys]
  · rename_i h
    rw [List.dedup_cons_of_notMem (fun hk => h (hmem.mp hk)), List.reverse_cons, firstKeys]

theorem groupsBy_eq (as : List α) : groupsBy key as =
    (firstKeys key as).map fun k => (k, as.filter fun a => key a = k) := by
  induction as using List.reverseRecOn with
  | nil => rfl
  | append_singleton as a ih =>
    rw [groupsBy, List.foldl_append, List.foldl_cons, List.foldl_nil]
    change addGroup key (groupsBy key as) a = _
    have hkeys : (groupsBy key as).map Prod.fst = firstKeys key as := by
      rw [ih, List.map_map]
      exact List.map_id _
    rw [addGroup, hkeys, firstKeys_append]
    split
    · rw [ih, List.map_map]
      refine List.map_congr_left fun k _ => ?_
      by_cases hk : k = key a
      · simp [hk]
      · simp [hk, Ne.symm hk]
    · rename_i hnew
      rw [ih, List.map_append, List.map_singleton]
      congr 1
      · refine List.map_congr_left fun k hk => ?_
        have hne : ¬ key a = k := fun h => hnew (h ▸ hk)
        simp [hne]
      · have hnone : as.filter (fun b => key b = key a) = [] := by
          refine List.filter_eq_nil_iff.mpr fun b hb => ?_
          simp only [decide_eq_true_eq]
          exact fun h => hnew (mem_firstKeys.mpr ⟨b, hb, h⟩)
        simp [hnone]

/-- Lists with the same keys have the same groups' keys, in some order. -/
theorem firstKeys_perm {β : Type} {key' : β → κ} {bs : List β}
    (h : ∀ k, (∃ a ∈ as, key a = k) ↔ ∃ b ∈ bs, key' b = k) :
    (firstKeys key as).Perm (firstKeys key' bs) := by
  refine (List.perm_ext_iff_of_nodup nodup_firstKeys nodup_firstKeys).mpr fun k => ?_
  rw [mem_firstKeys, mem_firstKeys, h]

/-- There are as many keys as elements only if no two elements share one. -/
theorem length_firstKeys_lt (h : ¬ (as.map key).Nodup) : (firstKeys key as).length < as.length := by
  have hsub := List.dedup_sublist (as.map key).reverse
  have hlen : (as.map key).reverse.length = as.length := by simp
  rw [firstKeys, List.length_reverse, ← hlen]
  refine Nat.lt_of_le_of_ne hsub.length_le fun he => h ?_
  have heq := hsub.eq_of_length he
  exact List.nodup_reverse.mp (List.dedup_eq_self.mp heq)

/-- The groups without their keys. -/
def groups (key : α → κ) (as : List α) : List (List α) :=
  (firstKeys key as).map fun k => as.filter fun a => key a = k

theorem snd_groupsBy (as : List α) : (groupsBy key as).map Prod.snd = groups key as := by
  rw [groupsBy_eq, List.map_map]
  rfl

/-- Groups of elements that carry their keys. -/
theorem groupsBy_keyed (as : List α) :
    (groupsBy Prod.fst (as.map fun a => (key a, a))).map (fun g => g.2.map Prod.snd) =
      groups key as := by
  have hfirst : firstKeys Prod.fst (as.map fun a => (key a, a)) = firstKeys key as := by
    rw [firstKeys, List.map_map]
    rfl
  rw [groupsBy_eq, List.map_map, groups, hfirst]
  refine List.map_congr_left fun k _ => ?_
  simp only [Function.comp_apply, List.filter_map, List.map_map]
  exact List.map_id _

theorem mem_groups {g : List α} :
    g ∈ groups key as ↔ ∃ a ∈ as, g = as.filter fun b => key b = key a := by
  simp only [groups, List.mem_map, mem_firstKeys]
  constructor
  · rintro ⟨_, ⟨a, ha, rfl⟩, rfl⟩
    exact ⟨a, ha, rfl⟩
  · rintro ⟨a, ha, rfl⟩
    exact ⟨key a, ⟨a, ha, rfl⟩, rfl⟩

/-- Keys that tell the same elements apart make the same groups. -/
theorem groups_congr {κ' : Type} [DecidableEq κ'] {key' : α → κ'}
    (h : ∀ a ∈ as, ∀ b ∈ as, key a = key b ↔ key' a = key' b) :
    groups key as = groups key' as := by
  -- the first keys stand for the same elements, one by one
  have hkeys : List.Forall₂ (fun k k' => ∀ a ∈ as, key a = k ↔ key' a = k') (firstKeys key as)
      (firstKeys key' as) := by
    induction as using List.reverseRecOn with
    | nil => exact .nil
    | append_singleton as a ih =>
      have hsub : ∀ b ∈ as, b ∈ as ++ [a] := fun b hb => List.mem_append_left _ hb
      have ha : a ∈ as ++ [a] := by simp
      have hold := ih fun b hb c hc => h b (hsub b hb) c (hsub c hc)
      have hnew : List.Forall₂ (fun k k' => ∀ b ∈ as ++ [a], key b = k ↔ key' b = k')
          (firstKeys key as) (firstKeys key' as) := by
        refine List.forall₂_iff_zip.mpr ⟨hold.length_eq, fun {k k'} hk b hb => ?_⟩
        have hkk := (List.forall₂_iff_zip.mp hold).2 hk
        obtain ⟨c, hc, rfl⟩ := mem_firstKeys.mp (List.of_mem_zip hk).1
        rw [h b hb c (hsub c hc), (hkk c hc).mp rfl]
      have hmem : key a ∈ firstKeys key as ↔ key' a ∈ firstKeys key' as := by
        rw [mem_firstKeys, mem_firstKeys]
        exact exists_congr fun b => and_congr_right fun hb => h b (hsub b hb) a ha
      rw [firstKeys_append, firstKeys_append]
      by_cases hk : key a ∈ firstKeys key as
      · rw [if_pos hk, if_pos (hmem.mp hk)]
        exact hnew
      · rw [if_neg hk, if_neg fun hk' => hk (hmem.mpr hk')]
        exact List.rel_append hnew (.cons (fun b hb => h b hb a ha) .nil)
  unfold groups
  generalize firstKeys key as = ks at hkeys
  generalize firstKeys key' as = ks' at hkeys
  induction hkeys with
  | nil => rfl
  | @cons k k' ks ks' hk _ ih =>
    have hfilter : (as.filter fun a => key a = k) = as.filter fun a => key' a = k' :=
      List.filter_congr fun a ha => by simp [hk a ha]
    rw [List.map_cons, List.map_cons, hfilter, ih]

/-- The one key of the list that a test singles out. -/
theorem filter_firstKeys_eq {p : κ → Bool} {k : κ} (h : ∀ k' ∈ firstKeys key as, p k' ↔ k' = k) :
    (firstKeys key as).filter p = if k ∈ firstKeys key as then [k] else [] := by
  have heq : (firstKeys key as).filter p = (firstKeys key as).filter (· == k) :=
    List.filter_congr fun k' hk' => by
      rw [Bool.eq_iff_iff, h k' hk', beq_iff_eq]
  rw [heq, List.filter_beq]
  split
  · rename_i hk
    rw [List.count_eq_one_of_mem nodup_firstKeys hk]
    rfl
  · rename_i hk
    rw [List.count_eq_zero_of_not_mem hk]
    rfl

theorem head_group {a : α} (ha : a ∈ as) :
    ((as.filter fun b => key b = key a).head?).map key = some (key a) := by
  cases hg : as.filter fun b => key b = key a with
  | nil =>
    have hmem : a ∈ as.filter fun b => key b = key a := by simp [ha]
    rw [hg] at hmem
    cases hmem
  | cons b g =>
    have hmem : b ∈ as.filter fun b => key b = key a := hg ▸ List.mem_cons_self
    obtain ⟨-, hb⟩ := List.mem_filter.mp hmem
    rw [List.head?_cons, Option.map_some, of_decide_eq_true hb]

/-- Of the groups of several lists, those with a key are what the lists have of that key. -/
theorem filter_flatMap_groups (ls : List (List α)) (k : κ) :
    (ls.flatMap (groups key)).filter (fun g => (g.head?).map key = some k) =
      (ls.map fun as => as.filter fun a => key a = k).filter fun g => !g.isEmpty := by
  induction ls with
  | nil => rfl
  | cons as ls ih =>
    have hone : (groups key as).filter (fun g => (g.head?).map key = some k) =
        [as.filter fun a => key a = k].filter fun g => !g.isEmpty := by
      have hp : ∀ k' ∈ firstKeys key as,
          (decide (((as.filter fun a => key a = k').head?).map key = some k) = true ↔ k' = k) := by
        intro k' hk'
        obtain ⟨a, ha, rfl⟩ := mem_firstKeys.mp hk'
        rw [head_group ha, decide_eq_true_eq, Option.some.injEq]
      rw [groups, List.filter_map]
      change ((firstKeys key as).filter fun k' =>
        decide (((as.filter fun a => key a = k').head?).map key = some k)).map _ = _
      rw [filter_firstKeys_eq hp]
      split
      · rename_i hk
        obtain ⟨a, ha, rfl⟩ := mem_firstKeys.mp hk
        have hmem : a ∈ as.filter fun b => key b = key a := by simp [ha]
        have hne : (as.filter fun b => key b = key a).isEmpty = false := by
          rw [Bool.eq_false_iff]
          exact fun he => List.not_mem_nil (List.isEmpty_iff.mp he ▸ hmem)
        simp [hne]
      · rename_i hk
        have hnil : (as.filter fun a => key a = k) = [] := by
          refine List.filter_eq_nil_iff.mpr fun a ha => ?_
          simp only [decide_eq_true_eq]
          exact fun he => hk (mem_firstKeys.mpr ⟨a, ha, he⟩)
        rw [hnil]
        rfl
    rw [List.flatMap_cons, List.filter_append, ih, hone, List.map_cons, ← List.filter_append]
    rfl

/-- Rows for different keys are in the same order up to one only if that one is the same. -/
theorem eq_of_map_perm {β : Type} {ks : List κ} {f g : κ → β} {k : κ} (hn : ks.Nodup) (hk : k ∈ ks)
    (hother : ∀ k' ∈ ks, k' ≠ k → f k' = g k') (h : (ks.map f).Perm (ks.map g)) : f k = g k := by
  have hsplit := List.perm_cons_erase hk
  have hrest : (ks.erase k).map f = (ks.erase k).map g := by
    refine List.map_congr_left fun k' hk' => ?_
    obtain ⟨hne, hmem⟩ := (List.Nodup.mem_erase_iff hn).mp hk'
    exact hother k' hmem hne
  have hperm := ((hsplit.map f).symm.trans h).trans (hsplit.map g)
  rw [List.map_cons, List.map_cons, hrest] at hperm
  exact Multiset.cons_inj_left ((ks.erase k).map g : Multiset β) |>.mp (Multiset.coe_eq_coe.mpr hperm)

end Groups

/-! ### Heads of groups -/

section Heads

variable {α β κ : Type} [DecidableEq β] [DecidableEq κ] {key : α → κ} {f : α → β} {g : β → κ}
  {as : List α}

theorem firstKeys_perm_dedup : (firstKeys key as).Perm (as.map key).dedup := by
  refine (List.perm_ext_iff_of_nodup nodup_firstKeys (List.nodup_dedup _)).mpr fun k => ?_
  rw [mem_firstKeys, List.mem_dedup, List.mem_map]

theorem length_firstKeys : (firstKeys key as).length = (as.map key).toFinset.card := by
  rw [firstKeys_perm_dedup.length_eq, List.card_toFinset]

/-- A coarser key makes no fewer groups only if it tells all apart that the finer one does. -/
theorem injOn_of_length_firstKeys
    (h : (firstKeys f as).length ≤ (firstKeys (g ∘ f) as).length) :
    ∀ a ∈ as, ∀ b ∈ as, g (f a) = g (f b) → f a = f b := by
  have himage : (as.map (g ∘ f)).toFinset = (as.map f).toFinset.image g := by
    ext k
    simp
  rw [length_firstKeys, length_firstKeys, himage] at h
  have hinj := Finset.injOn_of_card_image_eq (le_antisymm Finset.card_image_le h)
  rintro a ha b hb he
  exact hinj (by simpa using ⟨a, ha, rfl⟩) (by simpa using ⟨b, hb, rfl⟩) he

theorem groups_comp (h : ∀ a ∈ as, ∀ b ∈ as, g (f a) = g (f b) → f a = f b) :
    groups (g ∘ f) as = groups f as :=
  groups_congr fun a ha b hb => ⟨h a ha b hb, congrArg g⟩

/-- The first element of each group. -/
def heads (key : α → κ) (as : List α) : List α := (groups key as).filterMap List.head?

theorem map_heads : (heads f as).map f = firstKeys f as := by
  rw [heads, groups, List.filterMap_map, List.map_filterMap]
  have hhead : ∀ k ∈ firstKeys f as,
      (((as.filter fun a => f a = k).head?).map f) = some k := by
    rintro k hk
    obtain ⟨a, ha, rfl⟩ := mem_firstKeys.mp hk
    exact head_group ha
  calc (firstKeys f as).filterMap _ = (firstKeys f as).filterMap some :=
        List.filterMap_congr fun k hk => hhead k hk
    _ = firstKeys f as := List.filterMap_some

theorem length_heads : (heads key as).length = (firstKeys key as).length := by
  rw [← map_heads, List.length_map]

/-- The heads by a coarser key are one for each value of the finer one exactly if the coarser key
tells the values apart. -/
theorem heads_perm_dedup : ((heads (g ∘ f) as).map f).Perm (as.map f).dedup ↔
    ∀ a ∈ as, ∀ b ∈ as, g (f a) = g (f b) → f a = f b := by
  constructor
  · intro h
    have hlen := h.length_eq
    rw [List.length_map, length_heads, ← firstKeys_perm_dedup.length_eq] at hlen
    exact injOn_of_length_firstKeys (le_of_eq hlen.symm)
  · intro h
    rw [heads, groups_comp h]
    exact (List.Perm.of_eq map_heads).trans firstKeys_perm_dedup

theorem mem_of_mem_heads {a : α} (h : a ∈ heads key as) : a ∈ as := by
  obtain ⟨g, hg, hhead⟩ := List.mem_filterMap.mp h
  obtain ⟨b, -, rfl⟩ := mem_groups.mp hg
  exact List.mem_of_mem_filter (List.mem_of_mem_head? hhead)

/-- Elements with different keys are their own groups. -/
theorem heads_of_nodup (h : (as.map key).Nodup) : heads key as = as := by
  have hkeys : firstKeys key as = as.map key := by
    rw [firstKeys, (List.nodup_reverse.mpr h).dedup, List.reverse_reverse]
  have hhead : ∀ a ∈ as, (as.filter fun b => key b = key a).head? = some a := by
    intro a ha
    have hmap : ((as.filter fun b => key b = key a).head?).map key = some (key a) := head_group ha
    cases hg : (as.filter fun b => key b = key a).head? with
    | none =>
      rw [hg] at hmap
      cases hmap
    | some b =>
      rw [hg, Option.map_some, Option.some.injEq] at hmap
      have hb : b ∈ as := List.mem_of_mem_filter (List.mem_of_mem_head? hg)
      rw [List.inj_on_of_nodup_map h hb ha hmap]
  rw [heads, groups, hkeys, List.map_map, List.filterMap_map]
  calc as.filterMap _ = as.filterMap some := List.filterMap_congr hhead
    _ = as := List.filterMap_some

theorem nodup_of_length_heads (h : (heads key as).length = as.length) : (as.map key).Nodup := by
  by_contra hn
  have hlt := length_firstKeys_lt hn
  rw [← length_heads, h] at hlt
  exact Nat.lt_irrefl _ hlt

end Heads

end Ydbgo
