import Ydbgo.Sql.Clock

/-! # The replicated state machine

`FSM.Apply` on a log entry, given as the statements it decodes to, and the
batcher that turns what `Apply` returns into a reply to each caller. Every
statement runs at a reading of the replica's clock.
-/

namespace Ydbgo.Raft

open Sql (Stdlib Clock WriteStmt Result)

open Storage (Exec ExecError Engine updateBatch)

/-- The statements of a log entry. -/
abbrev Entry : Type := List WriteStmt

variable (lib : Stdlib)

/-- The function `Apply` gives to `UpdateBatch`, from statement `i` on. -/
def runStmts (clock : ℕ → Clock) : ℕ → Entry → Exec (List Result)
  | _, [] => return []
  | i, st :: stmts => do
    let r ← Sql.execute (lib.at (clock i)) st
    let results ← runStmts clock (i + 1) stmts
    return r :: results

/-- What `Apply` returns: nil, an error or the results. -/
inductive Response where
  | none
  | error (err : ExecError)
  | results (rs : List Result)
  deriving DecidableEq, Repr

def fsmApply (clock : ℕ → Clock) (stmts : Entry) (e : Engine) : Response × Engine :=
  if stmts.isEmpty then (.none, e)
  else match updateBatch (runStmts lib clock 0 stmts) e with
    | (.ok rs, e') => (.results rs, e')
    | (.error err, e') => (.error err, e')

/-- Entries applied one after the other, entry `i` being the first. -/
def applyLog (clock : ℕ → ℕ → Clock) : ℕ → List Entry → Engine → List Response × Engine
  | _, [], e => ([], e)
  | i, stmts :: log, e =>
    let (r, e) := fsmApply lib (clock i) stmts e
    let (rs, e) := applyLog clock (i + 1) log e
    (r :: rs, e)

/-- What a caller of the batcher receives. -/
inductive Reply where
  | result (r : Option Result)
  | error (err : ExecError)
  deriving DecidableEq, Repr

/-- `completeApply`: the replies to the `n` callers of an entry. -/
def completeApply (n : ℕ) : Response → List Reply
  | .none => List.replicate n (.result none)
  | .error err => List.replicate n (.error err)
  | .results rs => (List.range n).map fun i => .result rs[i]?

/-- `apply` of the batcher: the statements as one entry. -/
def submitAll (clock : ℕ → Clock) (stmts : Entry) (e : Engine) : List Reply × Engine :=
  let (resp, e') := fsmApply lib clock stmts e
  (completeApply stmts.length resp, e')

/-! ### Replicas -/

variable {lib}

theorem runStmts_clock {stmts : Entry} (h : ∀ st ∈ stmts, st.1.ClockFree lib)
    (clock clock' : ℕ → Clock) (i : ℕ) :
    runStmts lib clock i stmts = runStmts lib clock' i stmts := by
  induction stmts generalizing i with
  | nil => rfl
  | cons st stmts ih =>
    have hst := h st List.mem_cons_self
    rw [runStmts, runStmts, Sql.execute_at hst, Sql.execute_at hst,
      ih fun s hs => h s (List.mem_cons_of_mem _ hs)]

theorem fsmApply_clock {stmts : Entry} (h : ∀ st ∈ stmts, st.1.ClockFree lib)
    (clock clock' : ℕ → Clock) (e : Engine) :
    fsmApply lib clock stmts e = fsmApply lib clock' stmts e := by
  rw [fsmApply, fsmApply, runStmts_clock h clock clock']

/-- A table with an integer key, and a row of it with the given expression. -/
def createKey : WriteStmt :=
  ⟨.createTable [116] [⟨[107], .int, false, .nil, false⟩] [] false (ascii "cstore2") 0, rfl⟩

def insertKey (e : Sql.Expr) : WriteStmt := ⟨.insert [116] [] [[e]], rfl⟩

end Ydbgo.Raft
