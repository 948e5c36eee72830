import PunyGui.Sqlite.Eval

/-!
# Scripts

A script `s1; s2; ...; sn` given to `sqlite3/eval` in one call, and the same
statements given to it one by one.

* `Contract`: what is assumed of SQLite, in terms of a compiler for single
  statements.
* `Run`: the statements compile and run to their ends, each in the state that
  those before it leave.
* `Agrees`: what the loop of `sql_eval` needs on top of that, since it compiles
  a statement before it runs the one before.
* `sqlEval_script_iff`: the call of the script does what the single calls do
  exactly if this is so.
-/

namespace PunyGui.Sqlite

open Text Fuel

variable {rt : Runtime} {S : Library}

/-- What is assumed of SQLite. -/
structure Contract (S : Library) where
  /-- The first statement of a text, and the text after it. -/
  first : Bytes → Option (Bytes × Bytes)
  /-- The code of a statement for the schema of a database. -/
  compile : S.Db → Bytes → Except String S.Stmt
  first_nil : first [] = none
  /-- `sqlite3_prepare_v2` returns NULL only where no statement is left. -/
  prepare_none (db : S.Db) {text : Bytes} (h : first text = none) :
    ∃ tail, S.prepare db text = .ok (none, tail)
  /-- `sqlite3_prepare_v2` compiles the first statement of its text. -/
  prepare_some (db : S.Db) {text s tail : Bytes} (h : first text = some (s, tail)) :
    S.prepare db text = (compile db s).map fun stmt => (some stmt, tail)
  /-- `sqlite3_step` compiles a statement again where the schema has changed. -/
  step_compile {db₀ db : S.Db} {s : Bytes} {early late : S.Stmt} (h₀ : compile db₀ s = .ok early)
    (h : compile db s = .ok late) : S.step db early = S.step db late

/-- The statements joined by semicolons. -/
def script : List Bytes → Bytes
  | [] => []
  | [s] => s
  | s :: ss => s ++ 0x3B :: script ss

/-- The text is one statement, whether it stands alone or before others. -/
structure Contract.IsStatement (C : Contract S) (s : Bytes) : Prop where
  no_null : 0 ∉ s
  first_self : C.first s = some (s, [])
  first_append (rest : Bytes) : C.first (s ++ 0x3B :: rest) = some (s, rest)

/-! ## Runs of a statement -/

/-- The statement runs to `SQLITE_DONE`, and stands at the given rows before. -/
inductive Rows (S : Library) : S.Db → S.Stmt → List S.Stmt → S.Db → Prop
  | done {db db' : S.Db} {stmt stmt' : S.Stmt} (h : S.step db stmt = (.done, db', stmt')) :
      Rows S db stmt [] db'
  | row {db db₁ db' : S.Db} {stmt stmt₁ : S.Stmt} {rs : List S.Stmt}
      (h : S.step db stmt = (.row, db₁, stmt₁)) (hrs : Rows S db₁ stmt₁ rs db') :
      Rows S db stmt (stmt₁ :: rs) db'

/-- Only the first step of a statement depends on when it was compiled. -/
theorem Rows.congr {db db' : S.Db} {stmt stmt' : S.Stmt} {rs : List S.Stmt}
    (h : S.step db stmt = S.step db stmt') (hrs : Rows S db stmt rs db') :
    Rows S db stmt' rs db' := by
  cases hrs with
  | done hd => exact .done (h ▸ hd)
  | row hr hrs => exact .row (h ▸ hr) hrs

theorem Rows.unique {db db₁ db₂ : S.Db} {stmt : S.Stmt} {rs₁ rs₂ : List S.Stmt}
    (h₁ : Rows S db stmt rs₁ db₁) (h₂ : Rows S db stmt rs₂ db₂) : rs₁ = rs₂ ∧ db₁ = db₂ := by
  induction h₁ generalizing rs₂ with
  | done hd =>
    cases h₂ with
    | done hd' => cases hd.symm.trans hd'; exact ⟨rfl, rfl⟩
    | row hr' _ => cases hd.symm.trans hr'
  | row hr _ ih =>
    cases h₂ with
    | done hd' => cases hr.symm.trans hd'
    | row hr' hrs' =>
      cases hr.symm.trans hr'
      obtain ⟨rfl, rfl⟩ := ih hrs'
      exact ⟨rfl, rfl⟩

/-- A statement that runs to its end is executed. -/
theorem yields_execute {db' : S.Db} {rs : List S.Stmt} {w : Connection S} {h : Handle S}
    (hrs : Rows S w.db h.stmt rs db') :
    ∃ w', w'.db = db' ∧ Yields (fun n => execute n w h) (w', none) := by
  generalize hdb : w.db = db, hst : h.stmt = stmt at hrs
  induction hrs generalizing w h with
  | @done _ db' _ _ hd =>
    subst hdb hst
    refine ⟨{ w.record (.step h.id .done) with db := db' }, rfl, yields_succ_iff.1 ?_⟩
    simp only [execute, Connection.step, hd]
    exact yields_some.2 rfl
  | @row _ db₁ _ _ stmt₁ _ hr _ ih =>
    subst hdb hst
    obtain ⟨w', hw', hy⟩ := ih (w := { w.record (.step h.id .row) with db := db₁ })
      (h := { h with stmt := stmt₁ }) rfl rfl
    refine ⟨w', hw', yields_succ_iff.1 ?_⟩
    simp only [execute, Connection.step, hr]
    exact hy

/-- Its rows are collected, if the result of the statement is wanted. -/
theorem yields_collectLoop (rt : Runtime) (colnames : List Bytes) {db' : S.Db}
    {rs : List S.Stmt} {w : Connection S} {h : Handle S} (rows : List Janet)
    (hrs : Rows S w.db h.stmt rs db') :
    ∃ w', w'.db = db' ∧ Yields (fun n => collectLoop rt colnames n w h rows)
      (w', rows ++ rs.map (row rt colnames), none) := by
  generalize hdb : w.db = db, hst : h.stmt = stmt at hrs
  induction hrs generalizing w h rows with
  | @done _ db' _ _ hd =>
    subst hdb hst
    refine ⟨{ w.record (.step h.id .done) with db := db' }, rfl, yields_succ_iff.1 ?_⟩
    simp only [collectLoop, Connection.step, hd, List.map_nil, List.append_nil]
    exact yields_some.2 rfl
  | @row _ db₁ _ _ stmt₁ _ hr _ ih =>
    subst hdb hst
    obtain ⟨w', hw', hy⟩ := ih (w := { w.record (.step h.id .row) with db := db₁ })
      (h := { h with stmt := stmt₁ }) (rows ++ [row rt colnames stmt₁]) rfl rfl
    refine ⟨w', hw', yields_succ_iff.1 ?_⟩
    simp only [collectLoop, Connection.step, hr, List.map_cons]
    rw [List.append_assoc] at hy
    exact hy

/-! ## The loop -/

section Loop

variable (rt : Runtime) {w : Connection S} {h : Handle S} {c s tail : Bytes}

/-- Where no statement is left, the last one is executed for its rows. -/
theorem yields_evalLoop_none (params : Option Janet)
    (hprepare : S.prepare w.db c = .ok (none, tail))
    {rs : List S.Stmt} {db' : S.Db} (hrs : Rows S w.db h.stmt rs db') :
    ∃ w', w'.db = db' ∧ Yields (fun n => evalLoop rt params n w (some h) c)
      (w', .ok (.array (rs.map (row rt (S.columnNames h.stmt))))) := by
  obtain ⟨w', hw', hy⟩ := yields_collectLoop rt (S.columnNames h.stmt)
    (w := w.record (.prepare none)) [] hrs
  refine ⟨w'.finalize h, hw', yields_succ_iff.1 ?_⟩
  simp only [evalLoop, Connection.prepare, hprepare, collectOption, executeCollect,
    Option.elim_some]
  rw [hy.bind_iff]
  exact yields_some.2 rfl

/-- Otherwise the statement before it is executed, the parameters are bound, and the
    loop goes on. -/
theorem yields_evalLoop_some (params : Option Janet) {next : S.Stmt}
    (hprepare : S.prepare w.db c = .ok (some next, tail)) (stmt : Option (Handle S))
    {v w' : Connection S} {h' : Handle S}
    (hexec : Yields (fun n => executeOption n
      { w.record (.prepare (some w.prepared)) with prepared := w.prepared + 1 } stmt) (v, none))
    (hbind : bindOption rt v ⟨w.prepared, next⟩ params = (w', .ok h'))
    (r : Connection S × Except String Janet) :
    Yields (fun n => evalLoop rt params n w stmt c) r ↔
      Yields (fun n => evalLoop rt params n (w'.finalizeOption stmt) (some h') tail) r := by
  rw [← yields_succ_iff (f := fun n => evalLoop rt params n w stmt c)]
  simp only [evalLoop, Connection.prepare, hprepare]
  rw [hexec.bind_iff]
  simp only [hbind]

variable (C : Contract S)

theorem yields_evalLoop_last (hfirst : C.first c = none) {rs : List S.Stmt} {db' : S.Db}
    (hrs : Rows S w.db h.stmt rs db') :
    ∃ w', w'.db = db' ∧ Yields (fun n => evalLoop rt none n w (some h) c)
      (w', .ok (.array (rs.map (row rt (S.columnNames h.stmt))))) := by
  obtain ⟨tail, hprepare⟩ := C.prepare_none w.db hfirst
  exact yields_evalLoop_none rt none hprepare hrs

/-- A statement that does not compile ends the call. -/
theorem yields_evalLoop_error (hfirst : C.first c = some (s, tail)) {msg : String}
    (hc : C.compile w.db s = .error msg) (stmt : Option (Handle S)) :
    ∃ w', Yields (fun n => evalLoop rt none n w stmt c) (w', .error msg) := by
  have hprepare : S.prepare w.db c = .error msg := by rw [C.prepare_some _ hfirst, hc]; rfl
  refine ⟨(w.record (.prepare none)).finalizeOption stmt, yields_succ_iff.1 ?_⟩
  simp only [evalLoop, Connection.prepare, hprepare]
  exact yields_some.2 rfl

theorem yields_evalLoop_next (hfirst : C.first c = some (s, tail)) {next : S.Stmt}
    (hc : C.compile w.db s = .ok next) (stmt : Option (Handle S)) {db' : S.Db}
    (hrun : ∀ v : Connection S, v.db = w.db →
      ∃ w', w'.db = db' ∧ Yields (fun n => executeOption n v stmt) (w', none)) :
    ∃ w' h', w'.db = db' ∧ h'.stmt = next ∧ ∀ r, Yields (fun n => evalLoop rt none n w stmt c) r ↔
      Yields (fun n => evalLoop rt none n w' (some h') tail) r := by
  have hprepare : S.prepare w.db c = .ok (some next, tail) := by
    rw [C.prepare_some _ hfirst, hc]
    rfl
  obtain ⟨w', hw', hy⟩ := hrun
    { w.record (.prepare (some w.prepared)) with prepared := w.prepared + 1 } rfl
  exact ⟨w'.finalizeOption stmt, ⟨w.prepared, next⟩,
    by rw [Connection.finalizeOption_db, hw'], rfl,
    yields_evalLoop_some rt none hprepare stmt hy rfl⟩

end Loop

/-! ## Composition -/

/-- The statements compile and run to `SQLITE_DONE`, each in the state left by
    those before it; the result is made of the rows of the last one. -/
inductive Run (rt : Runtime) (C : Contract S) : S.Db → List Bytes → S.Db → Janet → Prop
  | last {db db' : S.Db} {s : Bytes} {stmt : S.Stmt} {rs : List S.Stmt}
      (hc : C.compile db s = .ok stmt) (hrs : Rows S db stmt rs db') :
      Run rt C db [s] db' (.array (rs.map (row rt (S.columnNames stmt))))
  | cons {db db₁ db' : S.Db} {s t : Bytes} {ss : List Bytes} {stmt : S.Stmt} {rs : List S.Stmt}
      {r : Janet} (hc : C.compile db s = .ok stmt) (hrs : Rows S db stmt rs db₁)
      (h : Run rt C db₁ (t :: ss) db' r) : Run rt C db (s :: t :: ss) db' r

/-- One call of `sqlite3/eval` on an open database, without parameters. -/
def Evals (rt : Runtime) (w : Connection S) (query : Bytes) (w' : Connection S)
    (r : Except String Janet) : Prop :=
  Yields (fun n => sqlEval rt n false w query none) (w', r)

/-- A call for each statement, in order. The result is that of the last one. -/
inductive Separately (rt : Runtime) : Connection S → List Bytes → Connection S → Janet → Prop
  | last {w w' : Connection S} {s : Bytes} {r : Janet} (h : Evals rt w s w' (.ok r)) :
      Separately rt w [s] w' r
  | cons {w w₁ w' : Connection S} {s t : Bytes} {ss : List Bytes} {r₁ r : Janet}
      (h₁ : Evals rt w s w₁ (.ok r₁)) (h : Separately rt w₁ (t :: ss) w' r) :
      Separately rt w (s :: t :: ss) w' r

/-- The statement `early` was compiled from the first of the statements, before
    the present state was reached. Each of the others compiles before the one
    before it runs, and the last one, as compiled then, names its columns so
    that its rows are the same. -/
def Agrees (rt : Runtime) (C : Contract S) : S.Stmt → S.Db → List Bytes → Prop
  | _, _, [] => True
  | early, db, [s] => ∀ late rs db', C.compile db s = .ok late → Rows S db late rs db' →
    rs.map (row rt (S.columnNames early)) = rs.map (row rt (S.columnNames late))
  | _, db, s :: t :: ss => ∃ next, C.compile db t = .ok next ∧
    ∀ stmt rs db₁, C.compile db s = .ok stmt → Rows S db stmt rs db₁ →
      Agrees rt C next db₁ (t :: ss)

/-- Compiling every statement before the one before it runs makes no difference. -/
def Composes (rt : Runtime) (C : Contract S) (db : S.Db) : List Bytes → Prop
  | [] => True
  | s :: ss => ∀ stmt, C.compile db s = .ok stmt → Agrees rt C stmt db (s :: ss)

variable {C : Contract S} {w : Connection S} {h : Handle S} {db db' : S.Db} {ss : List Bytes}
  {s : Bytes} {r : Janet}

theorem first_script (hs : C.IsStatement s) (ss : List Bytes) :
    C.first (script (s :: ss)) = some (s, script ss) := by
  cases ss with
  | nil => exact hs.first_self
  | cons t ss => exact hs.first_append _

/-- The loop, standing before the first of the statements, which it has compiled
    before. -/
theorem evalLoop_iff (hss : ∀ s ∈ ss, C.IsStatement s) (hrun : Run rt C w.db (s :: ss) db' r)
    (hearly : C.compile db s = .ok h.stmt) :
    (∃ w', w'.db = db' ∧ Yields (fun n => evalLoop rt none n w (some h) (script ss)) (w', .ok r)) ↔
      Agrees rt C h.stmt w.db (s :: ss) := by
  induction ss generalizing w h db s with
  | nil =>
    cases hrun with
    | @last _ _ _ late rs hc hrs =>
      -- The early statement makes the same steps, and labels the rows its way.
      have hrs' := hrs.congr (C.step_compile hearly hc).symm
      obtain ⟨w', hw', hy⟩ := yields_evalLoop_last rt C (c := script []) C.first_nil hrs'
      constructor
      · rintro ⟨w'', -, hy'⟩ late' rs' db'' hc' hrs''
        cases hc.symm.trans hc'
        obtain ⟨rfl, rfl⟩ := hrs.unique hrs''
        exact Janet.array.inj (Except.ok.inj (Prod.mk.inj (hy.unique hy')).2)
      · intro hagrees
        exact ⟨w', hw', hagrees late rs db' hc hrs ▸ hy⟩
  | cons t ss ih =>
    cases hrun with
    | @cons _ db₁ _ _ _ _ late rs _ hc hrs hrun =>
      have hfirst := first_script (hss t List.mem_cons_self) ss
      cases hnext : C.compile w.db t with
      | error msg =>
        obtain ⟨w', hy⟩ := yields_evalLoop_error rt C hfirst hnext (some h)
        constructor
        · rintro ⟨w'', -, hy'⟩
          cases (Prod.mk.inj (hy.unique hy')).2
        · rintro ⟨next, hnext', -⟩
          cases hnext.symm.trans hnext'
      | ok next =>
        have hexecute : ∀ v : Connection S, v.db = w.db →
            ∃ w', w'.db = db₁ ∧ Yields (fun n => execute n v h) (w', none) := fun v hv =>
          yields_execute (hv ▸ hrs.congr (C.step_compile hearly hc).symm)
        obtain ⟨w₁, h₁, hw₁, rfl, hloop⟩ :=
          yields_evalLoop_next rt C hfirst hnext (some h) hexecute
        subst hw₁
        simp only [hloop]
        rw [ih (fun s hs => hss s (List.mem_cons_of_mem _ hs)) hrun hnext]
        constructor
        · intro hagrees
          refine ⟨h₁.stmt, hnext, fun stmt rs' db₂ hc' hrs' => ?_⟩
          cases hc.symm.trans hc'
          exact (hrs.unique hrs').2 ▸ hagrees
        · rintro ⟨next', hnext', hagrees⟩
          cases hnext.symm.trans hnext'
          exact hagrees late rs w₁.db hc hrs

theorem hasNull_script {ss : List Bytes} (hss : ∀ s ∈ ss, C.IsStatement s) :
    hasNull (script ss) = false := by
  rw [hasNull, List.contains_eq_mem, decide_eq_false_iff_not]
  induction ss with
  | nil => exact List.not_mem_nil
  | cons s ss ih =>
    have hs := (hss s List.mem_cons_self).no_null
    cases ss with
    | nil => exact hs
    | cons t ss =>
      simp only [script, List.mem_append, List.mem_cons, not_or]
      exact ⟨hs, by decide, ih fun s h => hss s (List.mem_cons_of_mem _ h)⟩

/-- The call of a script compiles the first statement, in the present state. -/
theorem evals_script_iff (hss : ∀ t ∈ s :: ss, C.IsStatement t)
    (hrun : Run rt C w.db (s :: ss) db' r) :
    (∃ w', w'.db = db' ∧ Evals rt w (script (s :: ss)) w' (.ok r)) ↔
      Composes rt C w.db (s :: ss) := by
  obtain ⟨stmt, hc⟩ : ∃ stmt, C.compile w.db s = .ok stmt := by
    cases hrun with
    | last hc _ => exact ⟨_, hc⟩
    | cons hc _ _ => exact ⟨_, hc⟩
  obtain ⟨w₁, h₁, hw₁, rfl, hloop⟩ := yields_evalLoop_next rt C
    (first_script (hss s List.mem_cons_self) ss) hc none fun v hv => ⟨v, hv, yields_some.2 rfl⟩
  have hloop' := evalLoop_iff (fun t ht => hss t (List.mem_cons_of_mem _ ht)) (hw₁ ▸ hrun) hc
  simp only [Evals, sqlEval, Bool.false_eq_true, if_false, hasNull_script hss]
  simp only [hloop, hloop', hw₁]
  constructor
  · intro hagrees stmt hc'
    cases hc.symm.trans hc'
    exact hagrees
  · exact fun hcomposes => hcomposes h₁.stmt hc

theorem evals_statement (hs : C.IsStatement s) {stmt : S.Stmt} {rs : List S.Stmt}
    (hc : C.compile w.db s = .ok stmt) (hrs : Rows S w.db stmt rs db') :
    ∃ w', w'.db = db' ∧
      Evals rt w s w' (.ok (.array (rs.map (row rt (S.columnNames stmt))))) := by
  refine (evals_script_iff (fun t ht => List.mem_singleton.1 ht ▸ hs) (.last hc hrs)).2 ?_
  intro stmt hc late rs db' hc' _
  cases hc.symm.trans hc'
  rfl

/-- The single calls succeed where the statements run. -/
theorem exists_separately (hss : ∀ s ∈ ss, C.IsStatement s) (hrun : Run rt C w.db ss db' r) :
    ∃ w', w'.db = db' ∧ Separately rt w ss w' r := by
  generalize hdb : w.db = db at hrun
  induction hrun generalizing w with
  | last hc hrs =>
    subst hdb
    obtain ⟨w', hw', h⟩ := evals_statement (hss _ List.mem_cons_self) hc hrs
    exact ⟨w', hw', .last h⟩
  | cons hc hrs _ ih =>
    subst hdb
    obtain ⟨w₁, hw₁, h₁⟩ := evals_statement (hss _ List.mem_cons_self) hc hrs
    obtain ⟨w', hw', h⟩ := ih (fun t ht => hss t (List.mem_cons_of_mem _ ht)) hw₁
    exact ⟨w', hw', .cons h₁ h⟩

/-- The single calls of statements that run lead to the same state and rows as
    the call of the script, exactly if it makes no difference to compile every
    statement before the one before it runs. -/
theorem sqlEval_script_iff (hss : ∀ s ∈ ss, C.IsStatement s) (hrun : Run rt C w.db ss db' r) :
    (∃ w', w'.db = db' ∧ Separately rt w ss w' r) ∧
      ((∃ w', w'.db = db' ∧ Evals rt w (script ss) w' (.ok r)) ↔ Composes rt C w.db ss) := by
  refine ⟨exists_separately hss hrun, ?_⟩
  cases ss with
  | nil => cases hrun
  | cons s ss => exact evals_script_iff hss hrun

/-! ## A table that is created and filled -/

section OneTable

/-- `create table t(a)`. -/
def createTable : Bytes :=
  ascii ['c', 'r', 'e', 'a', 't', 'e', ' ', 't', 'a', 'b', 'l', 'e', ' ', 't', '(', 'a', ')']

/-- `insert into t values(1)`. -/
def insertInto : Bytes :=
  ascii ['i', 'n', 's', 'e', 'r', 't', ' ', 'i', 'n', 't', 'o', ' ', 't', ' ', 'v', 'a', 'l', 'u',
    'e', 's', '(', '1', ')']

/-- The two statements as they are compiled. -/
inductive OneTable
  | create
  | insert

/-- They compile if the table is missing, or there; it is given by the number of
    its rows. -/
def OneTable.compile (db : Option ℕ) (s : Bytes) : Except String OneTable :=
  if s = createTable then
    if db = none then .ok .create else .error "table t already exists"
  else if s = insertInto then
    if db = none then .error "no such table: t" else .ok .insert
  else .error "syntax error"

/-- The text before and after the first semicolon. -/
def OneTable.first (text : Bytes) : Option (Bytes × Bytes) :=
  if text = [] then none
  else some (text.takeWhile (· != 0x3B), (text.dropWhile (· != 0x3B)).drop 1)

/-- A library that has these statements. -/
def Library.oneTable : Library where
  Db := Option ℕ
  Stmt := OneTable
  prepare db text :=
    match OneTable.first text with
    | none => .ok (none, [])
    | some (s, tail) => (OneTable.compile db s).map fun stmt => (some stmt, tail)
  step
    | _, .create => (.done, some 0, .create)
    | db, .insert => (.done, db.map (· + 1), .insert)
  columnNames _ := []
  column _ _ := .null
  bindParameterCount _ := 0
  bindParameterIndex _ _ := 0
  bind _ _ _ := .error "column index out of range"

theorem OneTable.compile_unique {db db' : Option ℕ} {s : Bytes} {stmt stmt' : OneTable}
    (h : OneTable.compile db s = .ok stmt) (h' : OneTable.compile db' s = .ok stmt') :
    stmt = stmt' := by
  rw [OneTable.compile] at h h'
  split_ifs at h h' <;> cases h <;> cases h' <;> rfl

def Contract.oneTable : Contract Library.oneTable where
  first := OneTable.first
  compile := OneTable.compile
  first_nil := rfl
  prepare_none _ _ h := ⟨[], by simp [Library.oneTable, h]⟩
  prepare_some _ _ _ _ h := by simp [Library.oneTable, h]
  step_compile h₀ h := by rw [OneTable.compile_unique h₀ h]

theorem isStatement_oneTable {s : Bytes} (hne : s ≠ []) (hs : s.all fun c => c != 0 && c != 0x3B) :
    Contract.oneTable.IsStatement s := by
  simp only [List.all_eq_true, Bool.and_eq_true] at hs
  have hall : ∀ c ∈ s, (c != 0x3B) = true := fun c hc => (hs c hc).2
  refine ⟨fun h => by simpa using (hs 0 h).1, ?_, fun rest => ?_⟩
  · simp only [Contract.oneTable, OneTable.first, if_neg hne]
    rw [List.takeWhile_eq_self_iff.2 hall, List.dropWhile_eq_nil_iff.2 hall]
    rfl
  · have hstop : Stops (· != 0x3B) (0x3B :: rest) := stops_cons.2 rfl
    simp only [Contract.oneTable, OneTable.first]
    rw [if_neg (by simp), takeWhile_append_all hall hstop, dropWhile_append_all hall hstop]
    rfl

/-- The two statements run on an empty database. -/
theorem run_createTable_insertInto : Run Runtime.assoc Contract.oneTable none
    [createTable, insertInto] (some 1) (.array []) := by
  have hcreate : Rows Library.oneTable (none : Option ℕ) OneTable.create [] (some 0) := .done rfl
  have hinsert : Rows Library.oneTable (some 0) OneTable.insert [] (some 1) := .done rfl
  exact .cons rfl hcreate (.last rfl hinsert)

theorem isStatement_createTable_insertInto :
    ∀ s ∈ [createTable, insertInto], Contract.oneTable.IsStatement s := by
  simp only [List.mem_cons, List.not_mem_nil, or_false, forall_eq_or_imp, forall_eq]
  exact ⟨isStatement_oneTable (by decide) rfl, isStatement_oneTable (by decide) rfl⟩

theorem sqlEval_script_iff_insert :
    (∃ w', w'.db = some 1 ∧ Separately Runtime.assoc (S := Library.oneTable) ⟨none, 0, []⟩
        [createTable, insertInto] w' (.array [])) ∧
      ((∃ w', w'.db = some 1 ∧ Evals Runtime.assoc (S := Library.oneTable) ⟨none, 0, []⟩
          (script [createTable, insertInto]) w' (.ok (.array []))) ↔
        Composes Runtime.assoc Contract.oneTable none [createTable, insertInto]) :=
  sqlEval_script_iff isStatement_createTable_insertInto run_createTable_insertInto

/-- The script of the two does not, since the table is missing when the second
    one is compiled. -/
theorem sqlEval_create_insert :
    (∃ w', w'.db = some 1 ∧ Separately Runtime.assoc (S := Library.oneTable) ⟨none, 0, []⟩
        [createTable, insertInto] w' (.array [])) ∧
      ∀ w' r, ¬ Evals Runtime.assoc (S := Library.oneTable) ⟨none, 0, []⟩
        (script [createTable, insertInto]) w' (.ok r) := by
  refine ⟨exists_separately isStatement_createTable_insertInto run_createTable_insertInto, ?_⟩
  rintro w' r ⟨n, hn⟩
  have herror : sqlEval Runtime.assoc (S := Library.oneTable) (n + 2) false ⟨none, 0, []⟩
      (script [createTable, insertInto]) none = some
        (⟨none, 1, [.prepare (some 0), .prepare none, .finalize 0]⟩, .error "no such table: t") :=
    rfl
  have heval := hn (n + 2) (Nat.le_add_right n 2)
  simp only [herror] at heval
  cases heval

end OneTable

end PunyGui.Sqlite
