import Mathlib.Data.List.Induction
import Mathlib.Logic.Function.Basic
import Ydbgo.Lib.Bytes

/-! # Freezing a shard

Each node that hosts a shard keeps a flag that its handlers of forwarded writes
and its retention loop check; a write led by the node itself checks none. The
flag is set by `ADMIN UNFREEZE-SHARD` and cleared by `ADMIN FREEZE-SHARD`, on the
node that receives the command. A write goes from node to node in steps, with
any other step in between.
-/

namespace Ydbgo.Shard.Freeze

/-- The statements that a forwarded write carries: one of text, or encoded ones. -/
inductive Form where
  | text
  | enc (stmts : ℕ)
  deriving DecidableEq, Repr

def Form.writes : Form → ℕ
  | text => 1
  | enc stmts => stmts

/-- How far a write has come: `execShardSQLStmt`, `handleExecShard` and `handleExecShardEnc` before
and after they check the flag, `runRetention`, and the writes that are left for the group. -/
inductive Stage where
  | routed (node : Bytes)
  | handler (node : Bytes) (form : Form)
  | unfrozen (node : Bytes) (form : Form)
  | retention (node : Bytes)
  | ready (node : Bytes) (writes : ℕ)
  | done
  deriving DecidableEq, Repr

inductive Outcome where
  | applied
  | refused
  | failed
  deriving DecidableEq, Repr

/-- What a step reads of the catalog and of the shard's group. -/
structure Env where
  hosts : Bool := true
  livePlacementAddr : Option Bytes := none
  isLeader : Bool := true
  shardLeaderSQLAddr : Option Bytes := none
  expired : Bool := true
  ok : Bool := true

/-- On to the leader, or to the group if the node has become the leader meanwhile. -/
def Env.forward (env : Env) (node : Bytes) (form : Form) : Stage × Option Outcome :=
  match env.shardLeaderSQLAddr with
  | none => (.done, some .failed)
  | some addr => if addr ≠ node then (.handler addr form, none) else (.ready node form.writes, none)

/-- One step of a write, given the flags of the replicas that are mounted. -/
def Stage.advance (frozen : Bytes → Option Bool) (env : Env) : Stage → Stage × Option Outcome
  | routed node =>
    if ¬ env.hosts then
      match env.livePlacementAddr with
      | none => (done, some .failed)
      | some addr => (handler addr (.enc 1), none)
    else if (frozen node).isNone then (done, some .failed)
    else if ¬ env.isLeader then env.forward node (.enc 1)
    else (ready node 1, none)
  | handler node form =>
    match frozen node with
    | none => (done, some .failed)
    | some true => (done, some .refused)
    | some false => (unfrozen node form, none)
  | unfrozen node form =>
    if ¬ env.isLeader then env.forward node form else (ready node form.writes, none)
  | retention node =>
    if ¬ env.hosts then (done, none)
    else
      match frozen node with
      | none => (done, none)
      | some true => if env.isLeader ∧ env.expired then (done, some .refused) else (done, none)
      | some false => if env.isLeader ∧ env.expired then (ready node 1, none) else (done, none)
  | ready _ 0 => (done, none)
  | ready node (writes + 1) =>
    if env.ok then (ready node writes, some .applied) else (done, some .failed)
  | done => (done, none)

inductive Event where
  | admin (node : Bytes) (freeze : Bool)
  | statement (node : Bytes)
  | execShard (node : Bytes)
  | execShardEnc (node : Bytes) (stmts : ℕ)
  | runRetention (node : Bytes)
  | advance (i : ℕ) (env : Env)

/-- The flags of the mounted replicas, and the writes under way. -/
structure State where
  frozen : Bytes → Option Bool
  writes : List Stage

/-- The command sets the flag of the node's own replica, to the opposite of its name. -/
def handleFreezeShard (frozen : Bytes → Option Bool) (node : Bytes) (freeze : Bool) :
    Bytes → Option Bool :=
  match frozen node with
  | none => frozen
  | some _ => Function.update frozen node (some (!freeze))

def step (s : State) : Event → State × Option Outcome
  | .admin node freeze => ({ s with frozen := handleFreezeShard s.frozen node freeze }, none)
  | .statement node => ({ s with writes := s.writes ++ [.routed node] }, none)
  | .execShard node => ({ s with writes := s.writes ++ [.handler node .text] }, none)
  | .execShardEnc node stmts => ({ s with writes := s.writes ++ [.handler node (.enc stmts)] }, none)
  | .runRetention node => ({ s with writes := s.writes ++ [.retention node] }, none)
  | .advance i env =>
    match s.writes[i]? with
    | none => (s, none)
    | some stage =>
      let (stage', outcome) := stage.advance s.frozen env
      ({ s with writes := s.writes.set i stage' }, outcome)

variable (mounted : Bytes → Bool)

/-- Every replica starts with its flag cleared. -/
def start : State where
  frozen node := if mounted node then some false else none
  writes := []

def run (evs : List Event) : State := evs.foldl (fun s e => (step s e).1) (start mounted)

/-! ### The commands so far -/

/-- The admin commands that found a replica. -/
def accepted : Event → Option (Bytes × Bool)
  | .admin node freeze => if mounted node then some (node, freeze) else none
  | _ => none

/-- Whether the last command was to freeze, if there was one. -/
def lastAdmin (evs : List Event) : Option Bool :=
  (evs.filterMap (accepted mounted)).getLast?.map Prod.snd

/-- The same of the commands that one node received. -/
def lastAdminAt (node : Bytes) (evs : List Event) : Option Bool :=
  ((evs.filterMap (accepted mounted)).filter fun c => c.1 = node).getLast?.map Prod.snd

/-- No write is applied after a freeze, and none is refused as frozen otherwise. -/
def BlocksWrites (evs : List Event) : Prop :=
  ∀ before e after, evs = before ++ e :: after →
    ((step (run mounted before) e).2 = some .applied → lastAdmin mounted before ≠ some true) ∧
    ((step (run mounted before) e).2 = some .refused → lastAdmin mounted before = some true)

/-- A write may check a replica that was unfrozen last only if the last command of all was to freeze,
and is not left to the group after a freeze. -/
def Stage.Heeds (env : Env) (before : List Event) : Stage → Prop
  | handler node _ => mounted node → lastAdminAt mounted node before = some false →
      lastAdmin mounted before = some true
  | retention node => mounted node → env.hosts → env.isLeader → env.expired →
      lastAdminAt mounted node before = some false → lastAdmin mounted before = some true
  | ready _ (_ + 1) => env.ok → lastAdmin mounted before ≠ some true
  | routed _ | unfrozen _ _ | ready _ 0 | done => True

variable {mounted}

theorem run_concat (evs : List Event) (e : Event) :
    run mounted (evs ++ [e]) = (step (run mounted evs) e).1 := by
  simp [run]

theorem frozen_step (s : State) (e : Event) (h : ∀ node freeze, e ≠ .admin node freeze) :
    (step s e).1.frozen = s.frozen := by
  cases e with
  | admin node freeze => exact absurd rfl (h node freeze)
  | advance i env =>
    simp only [step]
    cases s.writes[i]? <;> rfl
  | _ => rfl

theorem lastAdminAt_concat (node : Bytes) (evs : List Event) (e : Event) :
    lastAdminAt mounted node (evs ++ [e]) =
      match accepted mounted e with
      | some (node', freeze) => if node' = node then some freeze else lastAdminAt mounted node evs
      | none => lastAdminAt mounted node evs := by
  simp only [lastAdminAt, List.filterMap_append, List.filterMap_cons, List.filterMap_nil]
  cases accepted mounted e with
  | none => simp
  | some c =>
    by_cases hc : c.1 = node <;> simp [hc]

/-- A flag says that its node was unfrozen last. -/
theorem frozen_run (evs : List Event) (node : Bytes) :
    (run mounted evs).frozen node =
      if mounted node then some (lastAdminAt mounted node evs == some false) else none := by
  induction evs using List.reverseRecOn generalizing node with
  | nil => simp [run, start, lastAdminAt]
  | append_singleton evs e ih =>
    rw [run_concat, lastAdminAt_concat]
    by_cases he : ∃ node' freeze, e = .admin node' freeze
    · obtain ⟨node', freeze, rfl⟩ := he
      simp only [step, handleFreezeShard, accepted]
      by_cases hm : mounted node'
      · -- the command finds its replica
        rw [ih node', if_pos hm, if_pos hm]
        dsimp only
        by_cases hn : node' = node
        · subst hn
          rw [Function.update_self, if_pos hm, if_pos rfl]
          cases freeze <;> rfl
        · rw [Function.update_of_ne (Ne.symm hn), if_neg hn, ih node]
      · rw [ih node', if_neg hm, if_neg hm]
        exact ih node
    · push Not at he
      have hacc : accepted mounted e = none := by
        cases e with
        | admin node' freeze => exact absurd rfl (he node' freeze)
        | _ => rfl
      rw [hacc, frozen_step _ _ he, ih]

theorem outcome_step (s : State) (e : Event) {o : Outcome} (h : (step s e).2 = some o) :
    ∃ i env stage, e = .advance i env ∧ s.writes[i]? = some stage ∧
      (stage.advance s.frozen env).2 = some o := by
  cases e with
  | advance i env =>
    simp only [step] at h
    cases hs : s.writes[i]? with
    | none =>
      rw [hs] at h
      cases h
    | some stage =>
      rw [hs] at h
      exact ⟨i, env, stage, rfl, hs, h⟩
  | _ => cases h

theorem forward_outcome {env : Env} {node : Bytes} {form : Form} {o : Outcome}
    (h : (env.forward node form).2 = some o) : o = .failed := by
  unfold Env.forward at h
  split at h
  · exact (Option.some.inj h).symm
  · split at h <;> cases h

/-- A write is applied by the group only. -/
theorem advance_eq_applied {frozen : Bytes → Option Bool} {env : Env} {stage : Stage} :
    (stage.advance frozen env).2 = some .applied ↔
      ∃ node writes, stage = .ready node (writes + 1) ∧ env.ok := by
  constructor
  · intro h
    cases stage with
    | routed node =>
      simp only [Stage.advance] at h
      split at h
      · split at h <;> cases h
      · split at h
        · cases h
        · split at h
          · cases forward_outcome h
          · cases h
    | handler node form =>
      simp only [Stage.advance] at h
      split at h <;> cases h
    | unfrozen node form =>
      simp only [Stage.advance] at h
      split at h
      · cases forward_outcome h
      · cases h
    | retention node =>
      simp only [Stage.advance] at h
      split at h
      · cases h
      · split at h
        · cases h
        · split at h <;> cases h
        · split at h <;> cases h
    | ready node writes =>
      cases writes with
      | zero => cases h
      | succ writes =>
        simp only [Stage.advance] at h
        split at h
        · next hok => exact ⟨node, writes, rfl, hok⟩
        · cases h
    | done => cases h
  · rintro ⟨node, writes, rfl, hok⟩
    simp [Stage.advance, hok]

/-- A write is refused by a replica whose flag is set. -/
theorem advance_eq_refused {frozen : Bytes → Option Bool} {env : Env} {stage : Stage} :
    (stage.advance frozen env).2 = some .refused ↔
      (∃ node form, stage = .handler node form ∧ frozen node = some true) ∨
      ∃ node, stage = .retention node ∧ frozen node = some true ∧
        env.hosts ∧ env.isLeader ∧ env.expired := by
  constructor
  · intro h
    cases stage with
    | routed node =>
      simp only [Stage.advance] at h
      split at h
      · split at h <;> cases h
      · split at h
        · cases h
        · split at h
          · cases forward_outcome h
          · cases h
    | handler node form =>
      simp only [Stage.advance] at h
      split at h
      · cases h
      · next hf => exact Or.inl ⟨node, form, rfl, hf⟩
      · cases h
    | unfrozen node form =>
      simp only [Stage.advance] at h
      split at h
      · cases forward_outcome h
      · cases h
    | retention node =>
      simp only [Stage.advance] at h
      split at h
      · cases h
      · next hh =>
        rw [not_not] at hh
        split at h
        · cases h
        · next hf =>
          split at h
          · next he => exact Or.inr ⟨node, rfl, hf, hh, he⟩
          · cases h
        · split at h <;> cases h
    | ready node writes =>
      cases writes with
      | zero => cases h
      | succ writes =>
        simp only [Stage.advance] at h
        split at h <;> cases h
    | done => cases h
  · rintro (⟨node, form, rfl, hf⟩ | ⟨node, rfl, hf, hh, hl, he⟩)
    · simp [Stage.advance, hf]
    · simp [Stage.advance, hf, hh, hl, he]

theorem frozen_eq_true {evs : List Event} {node : Bytes} :
    (run mounted evs).frozen node = some true ↔
      mounted node ∧ lastAdminAt mounted node evs = some false := by
  rw [frozen_run]
  by_cases hm : mounted node <;> simp [hm]

/-- What one step may do, told by the commands so far. -/
theorem heeds_iff {before : List Event} {i : ℕ} {env : Env} {stage : Stage}
    (hs : (run mounted before).writes[i]? = some stage) :
    stage.Heeds mounted env before ↔
      ((step (run mounted before) (.advance i env)).2 = some .applied →
        lastAdmin mounted before ≠ some true) ∧
      ((step (run mounted before) (.advance i env)).2 = some .refused →
        lastAdmin mounted before = some true) := by
  have hout : (step (run mounted before) (.advance i env)).2 =
      (stage.advance (run mounted before).frozen env).2 := by
    simp only [step, hs]
  rw [hout, advance_eq_applied, advance_eq_refused]
  cases stage with
  | routed node => simp [Stage.Heeds]
  | handler node form => simp [Stage.Heeds, frozen_eq_true]
  | unfrozen node form => simp [Stage.Heeds]
  | retention node =>
    simp only [Stage.Heeds, frozen_eq_true]
    simp
    tauto
  | ready node writes => cases writes <;> simp [Stage.Heeds]
  | done => simp [Stage.Heeds]

end Ydbgo.Shard.Freeze
