import Ydbgo.Shard.RoutingRight

/-! # Keys pinned by a WHERE

The router takes the values of the equalities in a WHERE for the key of every row
that the WHERE selects. They are, unless a cell of a key column can equal its
value without being it, or the value changes until the shard computes it again.
-/

namespace Ydbgo.Shard

open Sql Storage

/-- An equality of a column and an expression, and whether the column is on its right. -/
structure Pin where
  column : Bytes
  expr : Expr
  flipped : Bool

section Walk

variable {lib : Stdlib} {left right e : Expr} {ps : List (Pin × Value)}

/-- The equalities that `walk` finds in a WHERE, with the values that it gives them. -/
inductive Pins (lib : Stdlib) : Expr → List (Pin × Value) → Prop
  | and {l r ps ps'} : Pins lib l ps → Pins lib r ps' → Pins lib (.binary .and l r) (ps ++ ps')
  | left {n e v} : Gives (eval lib (fun _ => none) e) v →
    Pins lib (.binary .eq (.ident n) e) [(⟨n, e, false⟩, v)]
  | right {e n v} : Gives (pinOf lib e (.ident n)) none → Gives (eval lib (fun _ => none) e) v →
    Pins lib (.binary .eq e (.ident n)) [(⟨n, e, true⟩, v)]

/-- What the walk leaves in `found`. -/
def found (ps : List (Pin × Value)) : List (Bytes × Value) := ps.map fun q => (q.1.column, q.2)

theorem gives_pinOf_ident {n : Bytes} {o : Option (Bytes × Value)} :
    Gives (pinOf lib (.ident n) e) o ↔
      (∃ v, Gives (eval lib (fun _ => none) e) v ∧ o = some (n, v)) ∨
      (o = none ∧ ∃ err, (eval lib (fun _ => none) e).run = some (.error err)) := by
  unfold pinOf Gives
  dsimp only
  generalize eval lib (fun _ => none) e = x
  obtain _ | err | v := x
  · exact ⟨nofun, by rintro (⟨v, hv, -⟩ | ⟨-, err, herr⟩) <;> contradiction⟩
  · constructor
    · rintro ⟨⟩
      exact .inr ⟨rfl, err, rfl⟩
    · rintro (⟨v, hv, -⟩ | ⟨rfl, -⟩)
      · cases hv
      · rfl
  · constructor
    · rintro ⟨⟩
      exact .inl ⟨v, rfl, rfl⟩
    · rintro (⟨w, hw, rfl⟩ | ⟨-, err, herr⟩)
      · cases hw
        rfl
      · cases herr

theorem gives_pinOf_some {q : Bytes × Value} (h : Gives (pinOf lib left right) (some q)) :
    left = .ident q.1 ∧ Gives (eval lib (fun _ => none) right) q.2 := by
  cases left with
  | ident n =>
    obtain ⟨v, hv, hq⟩ | ⟨hq, -⟩ := gives_pinOf_ident.mp h
    · obtain rfl := Option.some.inj hq
      exact ⟨rfl, hv⟩
    · cases hq
  | _ => cases gives_pure.mp h

theorem gives_walk_of_pins (h : Pins lib e ps) : Gives (walk lib e) (some (found ps)) := by
  induction h with
  | and _ _ ihl ihr =>
    refine gives_bind.mpr ⟨_, ihl, gives_bind.mpr ⟨_, ihr, ?_⟩⟩
    exact gives_pure.mpr (congrArg some List.map_append.symm)
  | left hv =>
    exact gives_bind.mpr ⟨_, gives_pinOf_ident.mpr (.inl ⟨_, hv, rfl⟩), gives_pure.mpr rfl⟩
  | @right e n v hnone hv =>
    have hpin : Gives (pinOf lib (.ident n) e) (some (n, v)) :=
      gives_pinOf_ident.mpr (.inl ⟨v, hv, rfl⟩)
    exact gives_bind.mpr ⟨_, hnone, gives_bind.mpr ⟨_, hpin, gives_pure.mpr rfl⟩⟩

theorem pins_of_gives_walk {fs : List (Bytes × Value)} (h : Gives (walk lib e) (some fs)) :
    ∃ ps, Pins lib e ps ∧ fs = found ps := by
  induction e generalizing fs with
  | binary op l r ihl ihr =>
    cases op with
    | and =>
      obtain ⟨_ | fs₁, hl, hrest⟩ := gives_bind.mp h
      · cases gives_pure.mp hrest
      · obtain ⟨_ | fs₂, hr, hfs⟩ := gives_bind.mp hrest
        · cases gives_pure.mp hfs
        · obtain ⟨ps₁, hps₁, rfl⟩ := ihl hl
          obtain ⟨ps₂, hps₂, rfl⟩ := ihr hr
          refine ⟨_, hps₁.and hps₂, ?_⟩
          rw [found, List.map_append]
          exact (Option.some.inj (gives_pure.mp hfs)).symm
    | eq =>
      obtain ⟨_ | q, hl, hrest⟩ := gives_bind.mp h
      · obtain ⟨_ | q, hr, hfs⟩ := gives_bind.mp hrest
        · cases gives_pure.mp hfs
        · obtain ⟨rfl, hv⟩ := gives_pinOf_some hr
          exact ⟨_, .right hl hv, (Option.some.inj (gives_pure.mp hfs)).symm⟩
      · obtain ⟨rfl, hv⟩ := gives_pinOf_some hl
        exact ⟨_, .left hv, (Option.some.inj (gives_pure.mp hrest)).symm⟩
    | _ => cases gives_pure.mp h
  | _ => cases gives_pure.mp h

end Walk

/-! ### The rows that a WHERE of equalities selects -/

section Meets

variable {lib lib' : Stdlib} {ctx : RowContext} {e : Expr} {ps : List (Pin × Value)}

/-- The equality holds for a value of its column. -/
def Meets (lib : Stdlib) (q : Pin) (x : Value) : Prop :=
  ∃ w, Gives (eval lib (fun _ => none) q.expr) w ∧
    (if q.flipped then evalCompare lib w x (· == .eq) else evalCompare lib x w (· == .eq)) =
      boolValue true

/-- The expression refers to no column. -/
def Pin.closed (q : Pin) : Prop := q.expr.idents = []

theorem eval_closed (h : e.idents = []) : eval lib ctx e = eval lib (fun _ => none) e :=
  eval_congr fun n hn => by
    rw [h] at hn
    cases hn

theorem boolOf_evalCompare {v w : Value} :
    boolOf (evalCompare lib v w (· == .eq)) = some true ↔
      evalCompare lib v w (· == .eq) = boolValue true := by
  unfold evalCompare
  split
  · exact ⟨nofun, nofun⟩
  · cases v.compare lib w <;> decide

theorem gives_eval_ident {n : Bytes} {x : Value} :
    Gives (eval lib ctx (.ident n)) x ↔
      (n = ascii "*" ∧ x = nullValue) ∨ (n ≠ ascii "*" ∧ ctx n = some x) := by
  rw [eval]
  by_cases hn : n = ascii "*"
  · simp [hn, eq_comm]
  · cases ctx n <;> simp [hn]

theorem gives_eval_eq {left right : Expr} {v : Value} :
    Gives (eval lib ctx (.binary .eq left right)) v ↔ ∃ l r, Gives (eval lib ctx left) l ∧
      Gives (eval lib ctx right) r ∧ evalCompare lib l r (· == .eq) = v := by
  rw [eval, gives_bind]
  simp only [gives_bind, gives_check, evalBinary, gives_pure]
  constructor
  · rintro ⟨l, hl, r, hr, h⟩
    exact ⟨l, r, hl, hr, h⟩
  · rintro ⟨l, r, hl, hr, h⟩
    exact ⟨l, hl, r, hr, h⟩

/-- The columns of the equalities have values, and those without other columns hold. -/
theorem meets_of_true {v : Value} (hps : Pins lib' e ps) (h : Gives (eval lib ctx e) v)
    (hv : boolOf v = some true) : ∀ q ∈ ps, q.1.column ≠ ascii "*" ∧
      ∃ x, ctx q.1.column = some x ∧ (q.1.closed → Meets lib q.1 x) := by
  induction hps generalizing v with
  | and _ _ ihl ihr =>
    obtain ⟨l, hl, hrest⟩ := gives_bind.mp h
    obtain ⟨r, hr, hand⟩ := gives_bind.mp hrest
    obtain rfl := gives_pure.mp hand
    obtain ⟨hbl, hbr⟩ := boolOf_evalAnd.mp hv
    exact List.forall_mem_append.mpr ⟨ihl (gives_check.mp hl) hbl, ihr (gives_check.mp hr) hbr⟩
  | @left n e w hw =>
    obtain ⟨l, r, hl, hr, rfl⟩ := gives_eval_eq.mp h
    rw [boolOf_evalCompare] at hv
    rw [List.forall_mem_singleton]
    rcases gives_eval_ident.mp hl with ⟨-, rfl⟩ | ⟨hn, hx⟩
    · simp [evalCompare, nullValue, boolValue] at hv
    · refine ⟨hn, l, hx, fun hclosed => ⟨r, ?_, hv⟩⟩
      rwa [eval_closed hclosed] at hr
  | @right e n w _ hw =>
    obtain ⟨l, r, hl, hr, rfl⟩ := gives_eval_eq.mp h
    rw [boolOf_evalCompare] at hv
    rw [List.forall_mem_singleton]
    rcases gives_eval_ident.mp hr with ⟨-, rfl⟩ | ⟨hn, hx⟩
    · simp [evalCompare, nullValue, boolValue] at hv
    · refine ⟨hn, r, hx, fun hclosed => ⟨l, ?_, hv⟩⟩
      rwa [eval_closed hclosed] at hl

theorem true_of_meets (hps : Pins lib' e ps) (h : ∀ q ∈ ps, q.1.column ≠ ascii "*" ∧
      ∃ x, ctx q.1.column = some x ∧ q.1.closed ∧ Meets lib q.1 x) :
    ∃ v, Gives (eval lib ctx e) v ∧ boolOf v = some true := by
  induction hps with
  | and _ _ ihl ihr =>
    obtain ⟨hl, hr⟩ := List.forall_mem_append.mp h
    obtain ⟨l, hl, hbl⟩ := ihl hl
    obtain ⟨r, hr, hbr⟩ := ihr hr
    exact ⟨evalAnd l r, gives_bind.mpr ⟨l, gives_check.mpr hl, gives_bind.mpr
      ⟨r, gives_check.mpr hr, gives_pure.mpr rfl⟩⟩, boolOf_evalAnd.mpr ⟨hbl, hbr⟩⟩
  | left _ =>
    obtain ⟨hn, x, hx, hclosed, w, hw, htrue⟩ := List.forall_mem_singleton.mp h
    refine ⟨_, gives_eval_eq.mpr ⟨x, w, gives_eval_ident.mpr (.inr ⟨hn, hx⟩), ?_, rfl⟩,
      boolOf_evalCompare.mpr htrue⟩
    rwa [eval_closed hclosed]
  | right _ _ =>
    obtain ⟨hn, x, hx, hclosed, w, hw, htrue⟩ := List.forall_mem_singleton.mp h
    refine ⟨_, gives_eval_eq.mpr ⟨w, x, ?_, gives_eval_ident.mpr (.inr ⟨hn, hx⟩), rfl⟩,
      boolOf_evalCompare.mpr htrue⟩
    rwa [eval_closed hclosed]

theorem gives_whereTrue_iff (hps : Pins lib' e ps) :
    Gives (whereTrue lib e ctx) true ↔ ∃ v, Gives (eval lib ctx e) v ∧ boolOf v = some true := by
  have hne : e ≠ .nil := by
    rintro rfl
    cases hps
  rw [whereTrue, if_neg hne, gives_bind]
  simp only [gives_check, gives_pure, decide_eq_true_eq]

end Meets

/-! ### The cells of a row -/

section Cells

variable {lib : Stdlib} {st : CreateTable} {name n : Bytes} {cells : List Cell}

/-- The type of the last column of that name. -/
def CreateTable.typeOf (st : CreateTable) (n : Bytes) : Option ColType :=
  SortedMap.getEntry n (st.table.cols.map fun c => (c.name, c.typ)).reverse

/-- A column of a row has the value of the last cell under its name. -/
theorem cell_of_rowContext (hlen : cells.length = st.table.cols.length) {v : Value}
    (h : rowContext (st.table.schema name) (cellValues lib cells) n = some v) :
    ∃ (i : ℕ) (c : ColInfo) (cell : Cell), st.table.cols[i]? = some c ∧ c.name = n ∧
      cells[i]? = some cell ∧ st.typeOf n = some c.typ ∧ v = toSQLValue lib (variant cell) := by
  have hvalues : ((st.table.schema name).columns.map ColumnDef.name).zip (cellValues lib cells) =
      ((st.table.cols.zip cells).map fun e => (e.1.name, e)).map
        fun e => (e.1, toSQLValue lib (variant e.2.2)) := by
    rw [schema_names, cellValues, List.zip_map, List.map_map]
    rfl
  have htypes : (st.table.cols.map fun c => (c.name, c.typ)) =
      ((st.table.cols.zip cells).map fun e => (e.1.name, e)).map fun e => (e.1, e.2.1.typ) := by
    conv_lhs => rw [← List.map_fst_zip (Nat.le_of_eq hlen.symm), List.map_map]
    rw [List.map_map]
    rfl
  rw [rowContext, hvalues, ← List.map_reverse, ← List.map_reverse,
    SortedMap.getEntry_map fun e : ColInfo × Cell => toSQLValue lib (variant e.2)] at h
  obtain ⟨e, he, rfl⟩ := Option.map_eq_some_iff.mp h
  obtain ⟨e', he', hn⟩ := List.mem_map.mp (SortedMap.mem_of_getEntry he)
  rw [List.mem_reverse] at he'
  obtain ⟨rfl, rfl⟩ := Prod.mk.inj hn
  obtain ⟨i, hi⟩ := List.getElem?_of_mem he'
  obtain ⟨hc, hcell⟩ := List.getElem?_zip_eq_some.mp hi
  refine ⟨i, e'.1, e'.2, hc, rfl, hcell, ?_, rfl⟩
  rw [CreateTable.typeOf, htypes, ← List.map_reverse, ← List.map_reverse,
    SortedMap.getEntry_map fun e : ColInfo × Cell => e.1.typ, he]
  rfl

/-- A row whose cells are made of the names and the types of the columns. -/
theorem rowContext_cells (f : Bytes → ColType → SqlValue) {t : ColType}
    (h : st.typeOf n = some t) :
    rowContext (st.table.schema name)
      (cellValues lib (st.table.cols.map fun c => some (f c.name c.typ))) n =
        some (toSQLValue lib (f n t)) := by
  have hvalues : ((st.table.schema name).columns.map ColumnDef.name).zip
      (cellValues lib (st.table.cols.map fun c => some (f c.name c.typ))) =
        (st.table.cols.map fun c => (c.name, c.typ)).map
          fun e => (e.1, toSQLValue lib (f e.1 e.2)) := by
    rw [schema_names, cellValues, List.map_map, List.zip_map', List.map_map]
    rfl
  rw [rowContext, hvalues, ← List.map_reverse,
    SortedMap.getEntry_map_key fun m u => toSQLValue lib (f m u)]
  exact congrArg (Option.map fun u => toSQLValue lib (f n u)) h

end Cells

/-! ### The key that is read off a WHERE -/

section Keys

variable {lib lib' : Stdlib} {st : CreateTable} {schema : TableSchema} {e : Expr}
  {ps : List (Pin × Value)} {name key k p : Bytes} {cells : List Cell}

theorem forall₂_of_mapM {α β : Type} {f : α → Option β} {as : List α} {bs : List β}
    (h : as.mapM f = some bs) : List.Forall₂ (fun a b => f a = some b) as bs := by
  induction as generalizing bs with
  | nil =>
    obtain rfl := Option.some.inj h
    exact .nil
  | cons a as ih =>
    rw [List.mapM_cons] at h
    obtain ⟨b, hb, h⟩ := Option.bind_eq_some_iff.mp h
    obtain ⟨bs', hbs, h⟩ := Option.bind_eq_some_iff.mp h
    obtain rfl := Option.some.inj h
    exact .cons hb (ih hbs)

theorem exists_pins (h : Gives (pkKeyFromWhere lib schema e) (some k)) : ∃ ps, Pins lib e ps := by
  unfold pkKeyFromWhere at h
  split at h
  · cases gives_pure.mp h
  · obtain ⟨_ | fs, hfs, hk⟩ := gives_bind.mp h
    · cases gives_pure.mp hk
    · obtain ⟨ps, hps, -⟩ := pins_of_gives_walk hfs
      exact ⟨ps, hps⟩

/-- The parts of the key that the router reads off a WHERE. -/
theorem values_of_pkKeyFromWhere (hps : Pins lib e ps)
    (h : Gives (pkKeyFromWhere lib schema e) (some k)) : ∃ ws : List Value,
      List.Forall₂ (fun p w => foundValue lib schema (found ps) p = some w) schema.pk ws ∧
      k = (ws.map enc).flatten := by
  unfold pkKeyFromWhere at h
  split at h
  · cases gives_pure.mp h
  · obtain ⟨o, hfs, hk⟩ := gives_bind.mp h
    obtain rfl := gives_unique hfs (gives_walk_of_pins hps)
    obtain ⟨ws, hws, rfl⟩ := Option.map_eq_some_iff.mp (gives_pure.mp hk)
    exact ⟨ws, forall₂_of_mapM hws, encodePK_eq ws⟩

/-- A key column with a value has an equality. -/
theorem pin_of_foundValue {w : Value} (h : foundValue lib schema (found ps) p = some w) :
    ∃ q ∈ ps, q.1.column = p := by
  unfold foundValue at h
  generalize hv : SortedMap.getEntry p (found ps).reverse = o at h
  obtain _ | v := o
  · cases h
  · obtain ⟨q, hq, he⟩ := List.mem_map.mp (List.mem_reverse.mp (SortedMap.mem_of_getEntry hv))
    exact ⟨q, hq, (Prod.mk.inj he).1⟩

/-- A row that the engine can hold: its cells are NULL or of the types of their columns. -/
structure StoredRow (st : CreateTable) (key : Bytes) (cells : List Cell) : Prop
    extends GoodRow st.table key cells where
  typed : ∀ (i : ℕ) (c : ColInfo) (x : SqlValue), st.table.cols[i]? = some c →
    cells[i]? = some (some x) → x.null = true ∨ x.typ = c.typ

/-- A cell of a column for which the equalities of the column hold, as far as they have no other
column. -/
structure CellFits (lib : Stdlib) (st : CreateTable) (ps : List (Pin × Value)) (n : Bytes)
    (x : SqlValue) : Prop where
  notStar : n ≠ ascii "*"
  column : ∃ t, st.typeOf n = some t ∧ (x.null = true ∨ x.typ = t)
  normal : Normal x
  meets : ∀ q ∈ ps, q.1.column = n → q.1.closed → Meets lib q.1 (toSQLValue lib x)

/-- A column has no cell that fits, or the names of the key columns are there once and every cell
that fits a key column is encoded as the value that the router takes for it. -/
def PinsKey (lib : Stdlib) (c c' : Clock) (st : CreateTable) (ps : List (Pin × Value)) : Prop :=
  (∃ q ∈ ps, ∀ x, ¬ CellFits (lib.at c') st ps q.1.column x) ∨
  ∀ p ∈ (normalizeSchema st).pk, st.names.count p = 1 ∧ ∀ w x,
    foundValue (lib.at c) (normalizeSchema st) (found ps) p = some w →
    CellFits (lib.at c') st ps p x → enc w = encodeKeyValue x

/-- Where the WHERE is true, the columns of its equalities have cells that fit. -/
theorem fits_of_true (hps : Pins lib' e ps) (hrow : StoredRow st key cells)
    (h : Gives (whereTrue lib e (rowContext (st.table.schema name) (cellValues lib cells))) true) :
    ∀ q ∈ ps, ∃ (i : ℕ) (c : ColInfo) (x : SqlValue), st.table.cols[i]? = some c ∧
      c.name = q.1.column ∧ cells[i]? = some (some x) ∧ CellFits lib st ps q.1.column x := by
  obtain ⟨v, hv, hb⟩ := (gives_whereTrue_iff hps).mp h
  have hall := meets_of_true hps hv hb
  intro q hq
  obtain ⟨hstar, y, hy, -⟩ := hall q hq
  obtain ⟨i, c, cell, hc, hn, hcell, ht, rfl⟩ := cell_of_rowContext hrow.length hy
  obtain ⟨x, rfl, hnormal⟩ := hrow.normal cell (List.mem_of_getElem? hcell)
  refine ⟨i, c, x, hc, hn, hcell, hstar, ⟨c.typ, ht, hrow.typed i c x hc hcell⟩, hnormal, ?_⟩
  intro q' hq' hcol hclosed
  obtain ⟨-, z, hz, hmeets⟩ := hall q' hq'
  rw [hcol, hy] at hz
  obtain rfl := Option.some.inj hz
  exact hmeets hclosed

/-- The parts that a name gives to the key of a row. -/
def keyParts (st : CreateTable) (cells : List Cell) (p : Bytes) : List Bytes :=
  (positions st.names p).map fun i => encodeKeyValue (variant cells[i]?.join)

theorem key_eq (h : GoodRow st.table key cells) :
    key = ((normalizeSchema st).pk.flatMap (keyParts st cells)).flatten := by
  rw [h.key, encodeKey, List.flatMap_def, List.map_map]
  congr 1
  change ((normalizeSchema st).pk.flatMap (positions st.names)).map _ = _
  rw [List.map_flatMap]
  rfl

theorem getElem?_names {i : ℕ} {c : ColInfo} (h : st.table.cols[i]? = some c) :
    st.names[i]? = some c.name := by
  rw [← names_table, List.getElem?_map, h]
  rfl

theorem keyParts_of_once (h : st.names.count p = 1) {i : ℕ} {c : ColInfo} {x : SqlValue}
    (hc : st.table.cols[i]? = some c) (hn : c.name = p) (hx : cells[i]? = some (some x)) :
    keyParts st cells p = [encodeKeyValue x] := by
  obtain ⟨j, hj, hp⟩ := positions_of_count h
  obtain rfl := eq_of_count_eq_one h hp (hn ▸ getElem?_names hc)
  rw [keyParts, hj, List.map_singleton, hx]
  rfl

theorem flatMap_eq_map {α β γ : Type} {f : α → List γ} {g : β → γ} {as : List α} {bs : List β}
    (h : List.Forall₂ (fun a b => f a = [g b]) as bs) : as.flatMap f = bs.map g := by
  induction h with
  | nil => rfl
  | cons hab _ ih => rw [List.flatMap_cons, hab, ih, List.map_cons, List.singleton_append]

variable {c c' : Clock}

/-- The rows that the WHERE selects have the key that the router reads off it. -/
theorem key_of_true (hps : Pins (lib.at c) e ps)
    (hk : Gives (pkKeyFromWhere (lib.at c) (normalizeSchema st) e) (some k))
    (h : PinsKey lib c c' st ps) (hrow : StoredRow st key cells)
    (htrue : Gives (whereTrue (lib.at c') e
      (rowContext (st.table.schema name) (cellValues (lib.at c') cells))) true) : key = k := by
  obtain ⟨ws, hws, rfl⟩ := values_of_pkKeyFromWhere hps hk
  have hfits := fits_of_true hps hrow htrue
  obtain ⟨q, hq, hno⟩ | hsame := h
  · obtain ⟨i, d, x, -, -, -, hx⟩ := hfits q hq
    exact absurd hx (hno x)
  · rw [key_eq hrow.toGoodRow]
    congr 1
    refine flatMap_eq_map (List.forall₂_iff_zip.mpr ⟨hws.length_eq, fun {p w} hpw => ?_⟩)
    have hfound := (List.forall₂_iff_zip.mp hws).2 hpw
    obtain ⟨q, hq, rfl⟩ := pin_of_foundValue hfound
    obtain ⟨i, d, x, hd, hn, hx, hfit⟩ := hfits q hq
    obtain ⟨honce, henc⟩ := hsame q.1.column (List.of_mem_zip hpw).1
    rw [keyParts_of_once honce hd hn hx, henc w x hfound hfit]

end Keys

/-! ### Rows of given cells -/

section Picked

open Classical in
/-- The cell for a name, if it is one of that type, and otherwise a zero. -/
noncomputable def pickCell (g : Bytes → SqlValue) (n : Bytes) (t : ColType) : SqlValue :=
  if Normal (g n) ∧ ((g n).null = true ∨ (g n).typ = t) then g n else { typ := t }

noncomputable def pickCells (st : CreateTable) (g : Bytes → SqlValue) : List Cell :=
  st.table.cols.map fun c => some (pickCell g c.name c.typ)

variable {lib lib' : Stdlib} {st : CreateTable} {e : Expr} {ps : List (Pin × Value)}
  {name n p : Bytes} {g : Bytes → SqlValue}

theorem normal_zero (t : ColType) : Normal { typ := t } := by
  intro lib
  cases t with
  | timestamp =>
    have h := unixMicro_unixMicroTime lib 0
    simp [toSQLValue, fromSQLValue, timestampValue, h]
  | _ => rfl

theorem pickCell_typed (g : Bytes → SqlValue) (n : Bytes) (t : ColType) :
    Normal (pickCell g n t) ∧ ((pickCell g n t).null = true ∨ (pickCell g n t).typ = t) := by
  unfold pickCell
  split
  · assumption
  · exact ⟨normal_zero t, .inr rfl⟩

theorem pickCell_of_fits {t : ColType} (h : CellFits lib st ps n (g n))
    (ht : st.typeOf n = some t) : pickCell g n t = g n := by
  obtain ⟨u, hu, htyped⟩ := h.column
  obtain rfl := Option.some.inj (ht.symm.trans hu)
  exact if_pos ⟨h.normal, htyped⟩

theorem storedRow_pickCells (st : CreateTable) (g : Bytes → SqlValue) :
    StoredRow st (encodeKey (st.table.pk.map fun p => variant (pickCells st g)[p]?.join))
      (pickCells st g) where
  length := List.length_map _
  normal := by
    intro cell hcell
    obtain ⟨c, -, rfl⟩ := List.mem_map.mp hcell
    exact ⟨_, rfl, (pickCell_typed g c.name c.typ).1⟩
  key := rfl
  typed := by
    intro i c x hc hx
    rw [pickCells, List.getElem?_map, hc] at hx
    obtain rfl := Option.some.inj (Option.some.inj hx)
    exact (pickCell_typed g c.name c.typ).2

/-- The WHERE is true of a row of cells that fit. -/
theorem true_of_fits (hps : Pins lib' e ps) (hclosed : ∀ q ∈ ps, q.1.closed)
    (hg : ∀ q ∈ ps, CellFits lib st ps q.1.column (g q.1.column)) :
    Gives (whereTrue lib e (rowContext (st.table.schema name)
      (cellValues lib (pickCells st g)))) true := by
  refine (gives_whereTrue_iff hps).mpr (true_of_meets hps fun q hq => ?_)
  obtain ⟨t, ht, -⟩ := (hg q hq).column
  refine ⟨(hg q hq).notStar, _, rowContext_cells (pickCell g) ht, hclosed q hq, ?_⟩
  rw [pickCell_of_fits (hg q hq) ht]
  exact (hg q hq).meets q hq rfl (hclosed q hq)

theorem keyParts_pickCells (honce : st.names.count p = 1) (h : CellFits lib st ps p (g p)) :
    keyParts st (pickCells st g) p = [encodeKeyValue (g p)] := by
  obtain ⟨t, ht, -⟩ := h.column
  obtain ⟨c, hc, hct⟩ := List.mem_map.mp (List.mem_reverse.mp (SortedMap.mem_of_getEntry ht))
  obtain ⟨rfl, rfl⟩ := Prod.mk.inj hct
  obtain ⟨i, hi⟩ := List.getElem?_of_mem hc
  refine keyParts_of_once honce hi rfl ?_
  rw [pickCells, List.getElem?_map, hi, Option.map_some, pickCell_of_fits h ht]

theorem nul_keyParts (h : 0 ∉ (g p).s) {part : Bytes}
    (hpart : part ∈ keyParts st (pickCells st g) p) :
    ∃ x : SqlValue, part = encodeKeyValue x ∧ 0 ∉ x.s := by
  obtain ⟨i, hi, rfl⟩ := List.mem_map.mp hpart
  have hname := mem_positions.mp hi
  rw [← names_table, List.getElem?_map] at hname
  obtain ⟨c, hc, rfl⟩ := Option.map_eq_some_iff.mp hname
  refine ⟨_, rfl, ?_⟩
  rw [pickCells, List.getElem?_map, hc, Option.map_some, Option.join_some, variant,
    Option.getD_some, pickCell]
  split
  · exact h
  · exact List.not_mem_nil

variable {c c' : Clock} {k : Bytes}

/-- If the rows that the WHERE selects all have the router's key, the equalities pin it, where they
have no other columns and no string has a zero byte. -/
theorem pinsKey_of_key (hps : Pins (lib.at c) e ps)
    (hk : Gives (pkKeyFromWhere (lib.at c) (normalizeSchema st) e) (some k))
    (hclosed : ∀ q ∈ ps, q.1.closed)
    (hvalues : ∀ p w, foundValue (lib.at c) (normalizeSchema st) (found ps) p = some w → 0 ∉ w.str)
    (hcells : ∀ n x, CellFits (lib.at c') st ps n x → 0 ∉ x.s)
    (h : ∀ key cells, StoredRow st key cells → Gives (whereTrue (lib.at c') e
      (rowContext (st.table.schema name) (cellValues (lib.at c') cells))) true → key = k) :
    PinsKey lib c c' st ps := by
  obtain ⟨ws, hws, rfl⟩ := values_of_pkKeyFromWhere hps hk
  by_cases hno : ∃ q ∈ ps, ∀ x, ¬ CellFits (lib.at c') st ps q.1.column x
  · exact .inl hno
  right
  have hsome : ∀ q ∈ ps, ∃ x, CellFits (lib.at c') st ps q.1.column x := by
    intro q hq
    by_contra hx
    exact hno ⟨q, hq, fun x hfit => hx ⟨x, hfit⟩⟩
  have hpinned : ∀ p ∈ (normalizeSchema st).pk, ∃ q ∈ ps, q.1.column = p := by
    intro p hp
    obtain ⟨w, hpw⟩ := exists_zip_left hws.length_eq hp
    exact pin_of_foundValue ((List.forall₂_iff_zip.mp hws).2 hpw)
  -- whatever cells fit, the row that has them has the key, part by part
  have hparts (g : Bytes → SqlValue)
      (hg : ∀ q ∈ ps, CellFits (lib.at c') st ps q.1.column (g q.1.column)) :
      (normalizeSchema st).pk.flatMap (keyParts st (pickCells st g)) = ws.map enc := by
    have hrow := storedRow_pickCells st g
    have hkey := (key_eq hrow.toGoodRow).symm.trans (h _ _ hrow (true_of_fits hps hclosed hg))
    have hnul : ∀ part ∈ (normalizeSchema st).pk.flatMap (keyParts st (pickCells st g)),
        ∃ x : SqlValue, part = encodeKeyValue x ∧ 0 ∉ x.s := by
      intro part hpart
      obtain ⟨p, hp, hpart⟩ := List.mem_flatMap.mp hpart
      obtain ⟨q, hq, rfl⟩ := hpinned p hp
      exact nul_keyParts (hcells _ _ (hg q hq)) hpart
    refine flatten_inj (fun part hpart b hb => ?_) (fun hnil => ?_) ?_ hkey
    · obtain ⟨x, rfl, hx⟩ := hnul part hpart
      obtain ⟨w, hw, rfl⟩ := List.mem_map.mp hb
      obtain ⟨p, hpw⟩ := exists_zip_right hws.length_eq hw
      have hstr := hvalues p w ((List.forall₂_iff_zip.mp hws).2 hpw)
      exact apart_encodeKeyValue hx (nul_fromSQLValue hstr)
    · obtain ⟨x, hx, -⟩ := hnul [] hnil
      cases hx
    · simp [enc, encodeKeyValue]
  obtain ⟨g, hg⟩ : ∃ g : Bytes → SqlValue,
      ∀ q ∈ ps, CellFits (lib.at c') st ps q.1.column (g q.1.column) := by
    classical
    refine ⟨fun n => if h : ∃ x, CellFits (lib.at c') st ps n x then h.choose else {}, ?_⟩
    intro q hq
    simp only [dif_pos (hsome q hq)]
    exact (hsome q hq).choose_spec
  have honce : ∀ p ∈ (normalizeSchema st).pk, st.names.count p = 1 := by
    apply once_of_length
    have hlen := congrArg List.length (hparts g hg)
    rw [List.length_map, ← hws.length_eq, List.length_flatMap] at hlen
    rw [keyNames_table, List.length_flatMap, ← hlen]
    simp only [List.length_replicate, keyParts, List.length_map, length_positions]
  intro p hp
  refine ⟨honce p hp, fun w x hfound hx => ?_⟩
  classical
  have hg' : ∀ q ∈ ps, CellFits (lib.at c') st ps q.1.column
      (Function.update g p x q.1.column) := by
    intro q hq
    by_cases hqp : q.1.column = p
    · rw [hqp, Function.update_self]
      exact hx
    · rw [Function.update_of_ne hqp]
      exact hg q hq
  have hmap : (normalizeSchema st).pk.map (fun n => encodeKeyValue (Function.update g p x n)) =
      ws.map enc := by
    rw [← hparts _ hg']
    refine (flatMap_eq_map (List.forall₂_same.mpr fun n hn => ?_)).symm
    obtain ⟨q, hq, rfl⟩ := hpinned n hn
    exact keyParts_pickCells (honce _ hn) (hg' q hq)
  rw [← List.forall₂_eq_eq_eq, List.forall₂_map_left_iff, List.forall₂_map_right_iff] at hmap
  obtain ⟨v, hpv⟩ := exists_zip_left hws.length_eq hp
  have hv := (List.forall₂_iff_zip.mp hws).2 hpv
  obtain rfl := Option.some.inj (hfound.symm.trans hv)
  have hpart := (List.forall₂_iff_zip.mp hmap).2 hpv
  rw [Function.update_self] at hpart
  exact hpart.symm

end Picked

/-! ### The router and the engine -/

/-- The key under which the router sends an INSERT row is the one that the engine stores it under if
the row keeps its key, and the key that it reads off a WHERE is that of every row the WHERE selects
if the equalities pin it. Without zero bytes in strings, and for equalities with no column but their
own, this is so only then. -/
theorem routing_keys (lib : Stdlib) (c c' : Clock) (st : CreateTable) (name : Bytes) :
    (∀ (columns : List Bytes) (row : List Expr) (k : Bytes) (ws : List (Bytes × Value)),
      Gives (pkKeyForRow (lib.at c) (normalizeSchema st) columns row) k →
      Gives (insertRow (lib.at c') (st.table.schema name)
        (insertColumns (st.table.schema name) columns) row) ws →
      (InsertSteady lib c c' st (insertColumns (normalizeSchema st) columns) row →
        k = st.table.schemaKey (insertVals ws)) ∧
      (NulFreeRow lib c c' row → k = st.table.schemaKey (insertVals ws) →
        InsertSteady lib c c' st (insertColumns (normalizeSchema st) columns) row)) ∧
    ∀ (e : Expr) (k : Bytes),
      Gives (pkKeyFromWhere (lib.at c) (normalizeSchema st) e) (some k) →
      ∃ ps, Pins (lib.at c) e ps ∧
        (PinsKey lib c c' st ps → ∀ key cells, StoredRow st key cells →
          Gives (whereTrue (lib.at c') e
            (rowContext (st.table.schema name) (cellValues (lib.at c') cells))) true → key = k) ∧
        ((∀ q ∈ ps, q.1.closed) →
          (∀ p w, foundValue (lib.at c) (normalizeSchema st) (found ps) p = some w →
            0 ∉ w.str) →
          (∀ n x, CellFits (lib.at c') st ps n x → 0 ∉ x.s) →
          (∀ key cells, StoredRow st key cells → Gives (whereTrue (lib.at c') e
            (rowContext (st.table.schema name) (cellValues (lib.at c') cells))) true → key = k) →
          PinsKey lib c c' st ps) := by
  constructor
  · intro columns row k ws hk hws
    exact insert_key hk hws
  · intro e k hk
    obtain ⟨ps, hps⟩ := exists_pins hk
    refine ⟨ps, hps, fun h key cells hrow htrue => key_of_true hps hk h hrow htrue, ?_⟩
    exact fun hclosed hvalues hcells hall => pinsKey_of_key hps hk hclosed hvalues hcells hall

/-- A table with a key of one timestamp, `CREATE TABLE t (ts timestamp PRIMARY KEY, v int)`. -/
def stamped : CreateTable where
  name := ascii "t"
  columns := [⟨ascii "ts", .timestamp, true, .nil, true⟩, ⟨ascii "v", .int, false, .nil, false⟩]
  pk := []
  engine := []
  retention := 0

/-- `INSERT INTO t (v) VALUES (1)`: the router takes the epoch for the key, the executor NULL. -/
theorem timestamp_left_out : ∃ (lib : Stdlib) (c : Clock) (k : Bytes) (ws : List (Bytes × Value)),
    Gives (pkKeyForRow (lib.at c) (normalizeSchema stamped) [ascii "v"] [.literal (.int 1)]) k ∧
    Gives (insertRow (lib.at c) (stamped.table.schema (ascii "t"))
      (insertColumns (stamped.table.schema (ascii "t")) [ascii "v"]) [.literal (.int 1)]) ws ∧
    k ≠ stamped.table.schemaKey (insertVals ws) :=
  ⟨.plain, ⟨⟨0, 0⟩, 0⟩, _, _, rfl, rfl, by decide⟩

end Ydbgo.Shard
