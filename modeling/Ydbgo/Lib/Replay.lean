import Mathlib.Data.List.Basic
import Mathlib.Data.List.GetD

/-! # Replay

Commands that are run once more from the state that they led to. The functions
of a band are closed under composition, and each of them is idempotent, so that
a sequence of them may be replayed. A command may also create the thing that it
changes or drop it.
-/

namespace Ydbgo

variable {X Y M : Type}

/-- A set of idempotent functions that is closed under composition. -/
structure Band (X : Type) where
  mem : (X → X) → Prop
  id_mem : mem id
  comp_mem : ∀ {f g}, mem f → mem g → mem (g ∘ f)
  idem : ∀ {f}, mem f → ∀ x, f (f x) = f x

/-- The functions of a list, the first one first. -/
def runAll (fs : List (X → X)) (x : X) : X := fs.foldl (fun x f => f x) x

namespace Band

theorem mem_runAll (B : Band X) {fs : List (X → X)} (h : ∀ f ∈ fs, B.mem f) :
    B.mem (runAll fs) := by
  induction fs with
  | nil => exact B.id_mem
  | cons f fs ih =>
    obtain ⟨hf, hfs⟩ := List.forall_mem_cons.mp h
    have hrun : runAll (f :: fs) = runAll fs ∘ f := rfl
    rw [hrun]
    exact B.comp_mem hf (ih hfs)

/-! ### Products -/

/-- Functions that act at each place on what is there. -/
def pi (ι : Type) (B : Band X) : Band (ι → X) where
  mem F := ∃ f : ι → X → X, (∀ i, B.mem (f i)) ∧ ∀ x i, F x i = f i (x i)
  id_mem := ⟨fun _ => id, fun _ => B.id_mem, fun _ _ => rfl⟩
  comp_mem := by
    rintro F G ⟨f, hf, hF⟩ ⟨g, hg, hG⟩
    refine ⟨fun i => g i ∘ f i, fun i => B.comp_mem (hf i) (hg i), fun x i => ?_⟩
    rw [Function.comp_apply, hG, hF]
    rfl
  idem := by
    rintro F ⟨f, hf, hF⟩ x
    ext i
    rw [hF, hF, B.idem (hf i)]

/-- Functions that act on both components. -/
def prod (A : Band X) (B : Band Y) : Band (X × Y) where
  mem F := ∃ f g, A.mem f ∧ B.mem g ∧ ∀ p, F p = (f p.1, g p.2)
  id_mem := ⟨_, _, A.id_mem, B.id_mem, fun _ => rfl⟩
  comp_mem := by
    rintro F G ⟨f, g, hf, hg, hF⟩ ⟨f', g', hf', hg', hG⟩
    refine ⟨_, _, A.comp_mem hf hf', B.comp_mem hg hg', fun p => ?_⟩
    rw [Function.comp_apply, hG, hF, Function.comp_apply, Function.comp_apply]
  idem := by
    rintro F ⟨f, g, hf, hg, hF⟩ p
    rw [hF, hF, A.idem hf, B.idem hg]

/-! ### Registers -/

/-- Functions that set what is there or not there, or give a value where there is none. -/
def fill (X : Type) : Band (Option X) where
  mem f := (∃ c, ∀ x, f x = c) ∨ ∃ c : Option X, ∀ x, f x = x.or c
  id_mem := Or.inr ⟨none, fun _ => Option.or_none.symm⟩
  comp_mem := by
    rintro f g (⟨c, hf⟩ | ⟨c, hf⟩) (⟨d, hg⟩ | ⟨d, hg⟩)
    · exact Or.inl ⟨d, fun _ => hg _⟩
    · exact Or.inl ⟨c.or d, fun x => by rw [Function.comp_apply, hg, hf]⟩
    · exact Or.inl ⟨d, fun _ => hg _⟩
    · exact Or.inr ⟨c.or d, fun x => by rw [Function.comp_apply, hg, hf, Option.or_assoc]⟩
  idem := by
    rintro f (⟨c, hf⟩ | ⟨c, hf⟩) x
    · rw [hf, hf]
    · rw [hf, hf, Option.or_assoc, Option.or_self]

/-- Functions that set what is there or not there, or that remove or change what is there in a way
that depends on what no change touches. -/
def register (B : Band X) (Same : X → X → Prop) (hsame : ∀ f, B.mem f → ∀ x, Same x (f x)) :
    Band (Option X) where
  mem f := (∃ c, ∀ x, f x = c) ∨ ∃ g : X → Option (X → X),
    (∀ x y, Same x y → g x = g y) ∧ (∀ x u, g x = some u → B.mem u) ∧
      ∀ o, f o = o.bind fun x => (g x).map fun u => u x
  id_mem := by
    refine Or.inr ⟨fun _ => some id, fun _ _ _ => rfl, fun _ u hu => ?_, fun o => ?_⟩
    · exact Option.some.inj hu ▸ B.id_mem
    · cases o <;> rfl
  comp_mem := by
    rintro f f' (⟨c, hf⟩ | ⟨g, hg, hu, hf⟩) (⟨c', hf'⟩ | ⟨g', hg', hu', hf'⟩)
    · exact Or.inl ⟨c', fun _ => hf' _⟩
    · exact Or.inl ⟨f' c, fun x => by rw [Function.comp_apply, hf]⟩
    · exact Or.inl ⟨c', fun _ => hf' _⟩
    · refine Or.inr ⟨fun x => (g x).bind fun u => (g' x).map fun u' => u' ∘ u, ?_, ?_, ?_⟩
      · intro x y hxy
        dsimp only
        rw [hg x y hxy, hg' x y hxy]
      · intro x w hw
        obtain ⟨u, hgu, hw⟩ := Option.bind_eq_some_iff.mp hw
        obtain ⟨u', hgu', rfl⟩ := Option.map_eq_some_iff.mp hw
        exact B.comp_mem (hu x u hgu) (hu' x u' hgu')
      · intro o
        rw [Function.comp_apply, hf', hf]
        cases o with
        | none => rfl
        | some x =>
          cases hgx : g x with
          | none => simp [hgx]
          | some u =>
            have hx := hg' x (u x) (hsame u (hu x u hgx) x)
            simp only [Option.bind_some, hgx, Option.map_some, ← hx, Option.map_map]
            rfl
  idem := by
    rintro f (⟨c, hf⟩ | ⟨g, hg, hu, hf⟩) o
    · rw [hf, hf]
    · rw [hf, hf]
      cases o with
      | none => rfl
      | some x =>
        cases hgx : g x with
        | none => simp [hgx]
        | some u =>
          have hx := hg x (u x) (hsame u (hu x u hgx) x)
          simp only [Option.bind_some, hgx, Option.map_some, ← hx, B.idem (hu x u hgx)]

end Band

/-! ### Rows -/

section Overlay

variable {V : Type}

/-- The list with the given values in place of its own. -/
def overlay (w : ℕ → Option V) (row : List V) : List V := row.mapIdx fun i v => (w i).getD v

theorem overlay_getElem? (w : ℕ → Option V) (row : List V) (i : ℕ) :
    (overlay w row)[i]? = (row[i]?).map fun v => (w i).getD v := List.getElem?_mapIdx

/-- The lists agree at the places outside `A`. -/
def AgreeOff (A : ℕ → Prop) (r r' : List V) : Prop := ∀ i, ¬ A i → r[i]? = r'[i]?

/-- Values put in the places of `A`. -/
def Band.overlay (V : Type) (A : ℕ → Prop) : Band (List V) where
  mem f := ∃ w : ℕ → Option V, (∀ i, ¬ A i → w i = none) ∧ ∀ r, f r = Ydbgo.overlay w r
  id_mem := ⟨fun _ => none, fun _ _ => rfl, fun r => by
    apply List.ext_getElem?
    intro i
    simp [overlay_getElem?]⟩
  comp_mem := by
    rintro f g ⟨w, hw, hf⟩ ⟨w', hw', hg⟩
    refine ⟨fun i => (w' i).or (w i), fun i hi => ?_, fun r => ?_⟩
    · dsimp only
      rw [hw i hi, hw' i hi, Option.or_none]
    apply List.ext_getElem?
    intro i
    rw [Function.comp_apply, hg, hf, overlay_getElem?, overlay_getElem?, overlay_getElem?, Option.map_map]
    cases w' i <;> rfl
  idem := by
    rintro f ⟨w, hw, hf⟩ r
    apply List.ext_getElem?
    intro i
    rw [hf, hf, overlay_getElem?, overlay_getElem?, Option.map_map]
    cases w i <;> rfl

theorem Band.agreeOff_overlay {A : ℕ → Prop} (f : List V → List V)
    (h : (Band.overlay V A).mem f) (r : List V) : AgreeOff A r (f r) := by
  obtain ⟨w, hw, hf⟩ := h
  intro i hi
  rw [hf, overlay_getElem?, hw i hi]
  cases r[i]? <;> rfl

/-- Rows that are set or removed, or whose places in `A` are set as the others say. -/
def Band.rows (V : Type) (A : ℕ → Prop) : Band (Option (List V)) :=
  .register (.overlay V A) (AgreeOff A) Band.agreeOff_overlay

end Overlay

/-! ### Commands -/

/-- A command on a thing with a fixed description `M` and a content `X`. -/
inductive Command (M X : Type) where
  | drop
  /-- There is one from here on, if there was none. -/
  | create (m : M) (x : X)
  | change (f : M → X → X)

namespace Command

def act : Command M X → Option (M × X) → Option (M × X)
  | drop, _ => none
  | create m x, s => s.or (some (m, x))
  | change f, s => s.map fun p => (p.1, f p.1 p.2)

def actAll (cs : List (Command M X)) (s : Option (M × X)) : Option (M × X) :=
  cs.foldl (fun s c => c.act s) s

theorem actAll_append (cs cs' : List (Command M X)) (s : Option (M × X)) :
    actAll (cs ++ cs') s = actAll cs' (actAll cs s) := List.foldl_append

/-- Every change finds the thing that it changes. -/
def Finds : List (Command M X) → Option (M × X) → Prop
  | [], _ => True
  | c :: cs, s => (∀ f, c = change f → s.isSome) ∧ Finds cs (c.act s)

theorem finds_append {cs cs' : List (Command M X)} {s : Option (M × X)} :
    Finds (cs ++ cs') s ↔ Finds cs s ∧ Finds cs' (actAll cs s) := by
  induction cs generalizing s with
  | nil => exact (iff_of_eq (true_and _)).symm
  | cons c cs ih =>
    simp only [List.cons_append, Finds, ih, and_assoc]
    rfl

/-- What the changes among the commands do to the content. -/
def changes (m : M) (cs : List (Command M X)) : List (X → X) :=
  cs.filterMap fun c => match c with
    | change f => some (f m)
    | _ => none

theorem actAll_some {cs : List (Command M X)} (h : drop ∉ cs) (m : M) (x : X) :
    actAll cs (some (m, x)) = some (m, runAll (changes m cs) x) := by
  induction cs generalizing x with
  | nil => rfl
  | cons c cs ih =>
    obtain ⟨hc, hcs⟩ := not_or.mp (mt List.mem_cons.mpr h)
    cases c with
    | drop => exact absurd rfl hc
    | create m' x' => exact ih hcs x
    | change f => exact ih hcs (f m x)

/-- What was there before a drop does not matter after it. -/
theorem actAll_drop {cs : List (Command M X)} (h : drop ∈ cs) (s s' : Option (M × X)) :
    actAll cs s = actAll cs s' := by
  obtain ⟨as, bs, rfl⟩ := List.mem_iff_append.mp h
  rw [actAll_append, actAll_append]
  rfl

/-- Commands that are run a second time change nothing, if the first time each change found what it
changes, and the changes together do nothing more to what they led to. -/
theorem actAll_again {cs : List (Command M X)} {s : Option (M × X)} (h : Finds cs s)
    (hidem : ∀ m x, s = some (m, x) ∨ s = none ∧ cs.head? = some (create m x) →
      runAll (changes m cs) (runAll (changes m cs) x) = runAll (changes m cs) x) :
    actAll cs (actAll cs s) = actAll cs s := by
  by_cases hdrop : drop ∈ cs
  · exact actAll_drop hdrop _ _
  cases s with
  | some p =>
    obtain ⟨m, x⟩ := p
    rw [actAll_some hdrop, actAll_some hdrop, hidem m x (Or.inl rfl)]
  | none =>
    cases cs with
    | nil => rfl
    | cons c cs =>
      cases c with
      | drop => exact absurd List.mem_cons_self hdrop
      | change f => exact absurd (h.1 f rfl) Bool.false_ne_true
      | create m x =>
        -- the thing is created in the first run only
        have hfirst : actAll (create m x :: cs) none = actAll (create m x :: cs) (some (m, x)) := rfl
        rw [hfirst, actAll_some hdrop, actAll_some hdrop, hidem m x (Or.inr ⟨rfl, rfl⟩)]

/-- Changes in a band may be run a second time. -/
theorem actAll_actAll (B : M → Band X) {cs : List (Command M X)} {s : Option (M × X)}
    (hcs : ∀ f, change f ∈ cs → ∀ m, (B m).mem (f m)) (h : Finds cs s) :
    actAll cs (actAll cs s) = actAll cs s := by
  apply actAll_again h
  rintro m x -
  have hmem : (B m).mem (runAll (changes m cs)) := (B m).mem_runAll fun f hf => by
    obtain ⟨c, hc, hf⟩ := List.mem_filterMap.mp hf
    cases c with
    | drop => cases hf
    | create m' x => cases hf
    | change g => exact Option.some.inj hf ▸ hcs g hc m
  exact (B m).idem hmem x

end Command

end Ydbgo
