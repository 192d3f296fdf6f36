import Ydbgo.Sql.PrintStatements

/-! # A printed statement is parsed again

The text of a statement is parsed as that statement, except for what the text does
not say. The text of a table with a key of its own cannot be parsed: the key stands
behind the parenthesis before which the parser reads it.
-/

namespace Ydbgo.Sql

open Tokens

variable {lib : Stdlib} {formatDuration : Int64 → Bytes} {parseDuration : Bytes → Option Int64}
  {n : ℕ} {v : Token} {us : List Token} {st : Statement} {text : Bytes}

/-! ### The word that a statement begins with -/

theorem parses_insertWord (h : Parses (parseInsert lib n) (keyword "insert" :: us) v st) :
    Parses (parseStatement lib parseDuration n) (keyword "insert" :: us) v st := by
  refine parses_elseKeyword rfl ?_
  exact parses_thenKeyword rfl h

theorem parses_updateWord (h : Parses (parseUpdate lib n) (keyword "update" :: us) v st) :
    Parses (parseStatement lib parseDuration n) (keyword "update" :: us) v st := by
  iterate 2 refine parses_elseKeyword rfl ?_
  exact parses_thenKeyword rfl h

theorem parses_deleteWord (h : Parses (parseDelete lib n) (keyword "delete" :: us) v st) :
    Parses (parseStatement lib parseDuration n) (keyword "delete" :: us) v st := by
  iterate 3 refine parses_elseKeyword rfl ?_
  exact parses_thenKeyword rfl h

theorem parses_createWord
    (h : Parses (parseCreate lib parseDuration n) (keyword "create" :: us) v st) :
    Parses (parseStatement lib parseDuration n) (keyword "create" :: us) v st := by
  iterate 4 refine parses_elseKeyword rfl ?_
  exact parses_thenKeyword rfl h

theorem parses_dropWord (h : Parses (parseDrop lib) (keyword "drop" :: us) v st) :
    Parses (parseStatement lib parseDuration n) (keyword "drop" :: us) v st := by
  iterate 5 refine parses_elseKeyword rfl ?_
  exact parses_thenKeyword rfl h

theorem parses_kvWord (h : Parses (parseKV lib) (keyword "kv" :: us) v st) :
    Parses (parseStatement lib parseDuration n) (keyword "kv" :: us) v st := by
  iterate 6 refine parses_elseKeyword rfl ?_
  iterate 3 refine parses_else rfl ?_
  exact parses_thenKeyword rfl h

/-! ### All statements -/

theorem length_namesTokens (names : List Bytes) : names.length ≤ (namesTokens names).length := by
  have hne : ∀ name ∈ names, [word name] ≠ [] := fun _ _ => List.cons_ne_nil _ _
  have hlen := length_le_commaTokens hne
  rw [namesTokens, length_inParens]
  omega

theorem length_columnTokens (columns : List ColumnDef) :
    columns.length ≤ (commaTokens (columns.map columnTokens)).length := by
  have hne : ∀ c ∈ columns, columnTokens c ≠ [] := fun _ _ => List.cons_ne_nil _ _
  exact length_le_commaTokens hne

/-- A statement is read from its tokens. -/
theorem parses_statement (hlib : AsciiLibrary lib)
    (h : st.Printable lib formatDuration parseDuration) (hkey : st.tableKey = [])
    (hn : (st.tokens lib formatDuration).length < n) :
    Parses (parseStatement lib parseDuration n) (st.tokens lib formatDuration) endToken
      (st.reread lib) := by
  cases st with
  | createTable name columns pk ifNotExists engine retention =>
    obtain ⟨hname, hcolumns, -, hengine, hretention⟩ := h
    obtain rfl : pk = [] := hkey
    unfold Statement.tokens at hn ⊢
    have hlen := length_columnTokens columns
    simp only [if_pos, List.append_nil, List.append_assoc, List.length_append,
      length_inParens] at hn ⊢
    exact parses_createWord (parses_createTable hlib hname hcolumns hengine
      (fun hpos => (hretention hpos).2) (by omega) rfl rfl)
  | dropTable name ifExists => exact parses_dropWord (parses_dropTable h)
  | createIndex name table columns ifNotExists =>
    obtain ⟨hname, htable, hcolumns⟩ := h
    unfold Statement.tokens at hn ⊢
    have hlen := length_namesTokens columns
    simp only [List.append_assoc, List.length_append] at hn ⊢
    exact parses_createWord (parses_createIndex hname htable hcolumns (by omega))
  | dropIndex name table ifExists => exact parses_dropWord (parses_dropIndex h)
  | insert table columns rows =>
    obtain ⟨htable, hcolumns, hne, hrows⟩ := h
    unfold Statement.tokens at hn ⊢
    have hlen : columns.length ≤ (if columns = [] then [] else namesTokens columns).length := by
      split
      · subst columns
        exact Nat.le_refl _
      · exact length_namesTokens columns
    simp only [List.append_assoc, List.length_append] at hn ⊢
    exact parses_insertWord (parses_insert hlib htable hcolumns hne hrows (by omega)
      (by omega))
  | update table sets where_ =>
    obtain ⟨htable, hne, hsets, hwhere⟩ := h
    unfold Statement.tokens at hn ⊢
    simp only [List.append_assoc, List.length_append] at hn ⊢
    exact parses_updateWord (parses_update hlib htable hne hsets hwhere (by omega)
      (by omega))
  | delete table where_ =>
    obtain ⟨htable, hwhere⟩ := h
    unfold Statement.tokens at hn ⊢
    simp only [List.append_assoc, List.length_append] at hn ⊢
    exact parses_deleteWord (parses_delete hlib htable hwhere (by omega))
  | begin_ =>
    iterate 6 refine parses_elseKeyword rfl ?_
    exact parses_then rfl parses_pure
  | commit =>
    iterate 6 refine parses_elseKeyword rfl ?_
    refine parses_else rfl ?_
    exact parses_then rfl parses_pure
  | rollback =>
    iterate 6 refine parses_elseKeyword rfl ?_
    iterate 2 refine parses_else rfl ?_
    exact parses_then rfl parses_pure
  | createDatabase name =>
    refine parses_createWord (parses_advance fun _ => parses_then rfl ?_)
    exact parses_map (parses_identLower h)
  | select s => exact absurd h id
  | kvPut table key value => exact parses_kvWord (parses_kvPut h)
  | kvGet table key => exact parses_kvWord (parses_kvGet h)
  | kvDelete table key => exact parses_kvWord (parses_kvDelete h)
  | kvScan table start stop hasStart hasEnd => exact parses_kvWord (parses_kvScan h)

/-! ### Texts -/

/-- All statements but a SELECT begin with a word. -/
theorem kind_headD (h : st.Printable lib formatDuration parseDuration) :
    ((st.tokens lib formatDuration).headD v).kind = .ident := by
  cases st with
  | select s => exact absurd h id
  | _ => rfl

section

variable {toks : List Token} {ts : List Token} {t : Token} {p : ℕ}

theorem stands_of_append (h : toks = ts ++ [t]) (hv : t.bare = v) (hus : ts.map Token.bare = us) :
    Stands toks 0 (us ++ [v]) := by
  refine ⟨[], ?_⟩
  rw [h, List.drop_zero, List.append_nil, List.map_append, hus, List.map_singleton, hv]

end

/-- The tokens of a text and the token at its end. -/
theorem exists_tokens (h : Spells lib Detached text us) : ∃ toks,
    tokenize lib text = .ok toks ∧ Stands toks 0 (us ++ [endToken]) ∧
      ∃ t, toks[us.length]? = some t ∧ t.kind = .eof ∧ toks.length = us.length + 1 := by
  have hend : headToken lib [] = some (endToken, 0) := rfl
  obtain ⟨ts, hlexed, hts⟩ := h 0 [] _ detached_nil (.eof hend rfl)
  rw [List.append_nil] at hlexed
  have hlen : ts.length = us.length := by
    rw [← hts, List.length_map]
  refine ⟨_, tokenize_iff.mpr hlexed, stands_of_append rfl rfl hts,
    endToken.behind (0 + text.length), ?_, rfl, ?_⟩
  · rw [← hlen, List.getElem?_concat_length]
  · rw [List.length_append, hlen]
    rfl

theorem parse_of_spells (hs : Spells lib Detached text us)
    (hkind : (us.headD endToken).kind = .ident)
    (h : ∀ n, us.length < n → Parses (parseStatement lib parseDuration n) us endToken st) :
    parse lib parseDuration text = .ok [st] := by
  obtain ⟨toks, htoks, hstands, t, ht, heof, hlen⟩ := exists_tokens hs
  have hrun := h toks.length (by omega) toks 0 hstands
  rw [Nat.zero_add] at hrun
  obtain ⟨p, hp⟩ := hstands.first
  have hne {kind : TokKind} (hkind' : kind ≠ .ident) : (us.headD endToken).kind ≠ kind :=
    fun he => hkind' (he.symm.trans hkind)
  exact parse_iff.mpr ⟨toks, [(0, st)], htoks, .statement hp (hne TokKind.noConfusion)
    (hne TokKind.noConfusion) hrun (.eof ht heof), rfl⟩

/-! ### A key behind the columns -/

section

variable {toks : List Token} {i : ℕ}

/-- No statement begins with PRIMARY. -/
theorem exec_primary (h : Word toks i "primary") :
    ∃ err s, (parseStatement lib parseDuration n).exec (standing toks i) = (.error err, s) := by
  have hat : Word (standing toks i).items (standing toks i).pos "primary" := h
  rw [parseStatement, exec_else "select" hat (by decide), exec_else "insert" hat (by decide),
    exec_else "update" hat (by decide), exec_else "delete" hat (by decide),
    exec_else "create" hat (by decide), exec_else "drop" hat (by decide),
    exec_elseAccept "begin" hat (by decide), exec_elseAccept "commit" hat (by decide),
    exec_elseAccept "rollback" hat (by decide), exec_else "kv" hat (by decide)]
  obtain ⟨t, ht, -, -⟩ := hat
  rw [Prog.exec_bind_ok (exec_peek ht)]
  exact ⟨_, _, rfl⟩

end

theorem not_parses_of_spells {vs : List Token} {sts : List Statement}
    (hs : Spells lib Detached text (us ++ keyword "primary" :: vs))
    (hkind : (us.headD (keyword "primary")).kind = .ident)
    (h : ∀ n, us.length < n →
      Parses (parseStatement lib parseDuration n) us (keyword "primary") st) :
    parse lib parseDuration text ≠ .ok sts := by
  intro hparse
  obtain ⟨toks', xs, htoks', hreads, -⟩ := parse_iff.mp hparse
  obtain ⟨toks, htoks, hstands, -, -, -, hlen⟩ := exists_tokens hs
  obtain rfl : toks = toks' := Except.ok.inj (htoks.symm.trans htoks')
  have hsplit : us ++ keyword "primary" :: vs ++ [endToken] =
      us ++ [keyword "primary"] ++ (vs ++ [endToken]) := by
    simp only [List.append_assoc, List.cons_append, List.nil_append]
  rw [hsplit] at hstands
  have hfirst := hstands.left
  have hlt : us.length < toks.length := by
    rw [hlen, List.length_append]
    omega
  have hrun := h toks.length hlt toks 0 hfirst
  obtain ⟨p, hp⟩ := hfirst.first
  have hne {kind : TokKind} (hkind' : kind ≠ .ident) :
      (us.headD (keyword "primary")).kind ≠ kind := fun he => hkind' (he.symm.trans hkind)
  obtain ⟨st', j, xs', -, hexec, hrest⟩ := (reads_statement hp (hne TokKind.noConfusion)
    (hne TokKind.noConfusion)).mp hreads
  have hj : standing toks j = standing toks (0 + us.length) :=
    (Prod.mk.inj (hexec.symm.trans hrun)).2
  obtain rfl : j = 0 + us.length := congrArg Tape.pos hj
  obtain ⟨q, hq⟩ := hfirst.append.head
  obtain ⟨st'', k, -, -, hexec', -⟩ := (reads_statement hq TokKind.noConfusion
    TokKind.noConfusion).mp hrest
  obtain ⟨err, s, herr⟩ := @exec_primary lib parseDuration toks.length toks _ ⟨_, hq, rfl, rfl⟩
  cases hexec'.symm.trans herr

/-- The tokens of a table without its key and what is behind it. -/
def createTokens (name : Bytes) (columns : List ColumnDef) : List Token :=
  phrase ["create", "table"] ++ ([word name] ++ inParens (commaTokens (columns.map columnTokens)))

theorem parses_createTokens {name : Bytes} {columns : List ColumnDef} (hlib : AsciiLibrary lib)
    (hname : IsNameAt lib false name)
    (hcolumns : ∀ c ∈ columns, IsName lib c.name ∧ equalFold c.name "primary" = false)
    (hn : (createTokens name columns).length < n) :
    Parses (parseStatement lib parseDuration n) (createTokens name columns) (keyword "primary")
      (.createTable name (columns.map ColumnDef.reread) [] false [] 0) := by
  have hlen := length_columnTokens columns
  have hzero : ¬ (0 : Int64) < 0 := by decide
  simp only [createTokens, List.length_append, length_inParens] at hn
  have hall := @parses_createTable lib (fun _ => []) parseDuration n (keyword "primary") name
    columns [] 0 hlib hname hcolumns (.inl rfl) (fun h => absurd h hzero) (by omega) rfl rfl
  rw [engineTokens, retentionTokens, if_pos rfl, if_neg hzero, if_neg hzero, List.append_nil,
    List.append_nil] at hall
  exact parses_createWord hall

theorem parse_reread (hlib : AsciiLibrary lib)
    (h : st.Printable lib formatDuration parseDuration) (hkey : st.tableKey = []) :
    parse lib parseDuration (statementString lib formatDuration st) = .ok [st.reread lib] :=
  parse_of_spells (spells_statement hlib h) (kind_headD h)
    fun _ hn => parses_statement hlib h hkey hn

theorem not_parses_of_tableKey {sts : List Statement} (hlib : AsciiLibrary lib)
    (h : st.Printable lib formatDuration parseDuration) (hkey : st.tableKey ≠ []) :
    parse lib parseDuration (statementString lib formatDuration st) ≠ .ok sts := by
  have hspells := spells_statement hlib h
  cases st with
  | createTable name columns pk ifNotExists engine retention =>
    have hpk : pk ≠ [] := hkey
    obtain ⟨hname, hcolumns, -⟩ := h
    unfold Statement.tokens at hspells
    simp only [if_neg hpk, List.append_assoc] at hspells
    have hsplit : Spells lib Detached _ (createTokens name columns ++ keyword "primary" ::
      keyword "key" :: (namesTokens pk ++ _)) := hspells
    exact not_parses_of_spells hsplit rfl fun m hm => parses_createTokens hlib hname hcolumns hm
  | _ => exact absurd rfl hkey

theorem asciiLibrary_plain : AsciiLibrary Stdlib.plain := ⟨fun _ _ => rfl, fun _ _ => rfl⟩

theorem name_plain : ∀ name ∈ ["t", "a", "b"].map ascii,
    IsName Stdlib.plain name ∧ ¬ Reserved name := by
  unfold IsName Reserved
  decide

/-- A statement with a number, a quote in a literal and two operators. -/
def updateQuoted : Statement :=
  .update (ascii "t")
    [⟨ascii "a", .binary .add (.ident (ascii "a")) (.literal (.int 10))⟩]
    (.unary .not (.binary .eq (.ident (ascii "b")) (.literal (.string (ascii "it's")))))

end Ydbgo.Sql
