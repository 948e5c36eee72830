import PunyGui.Fuel
import PunyGui.Janet

/-!
# Evaluating SQL

The binding of SQLite: `sql_eval` runs the statements of a text one after the
other and returns the rows of the last one.

SQLite itself is not part of the program. `Sqlite` has the functions that the
binding calls, as they act on the state of the database and on the prepared
statements; nothing is assumed of them here. Every call that concerns a
prepared statement is recorded, so that one can see which statements are
stepped and finalized, and when.

The loops `execute` and `evalLoop` end only if SQLite lets them, and have a bound
on their steps.
-/

namespace PunyGui.Sqlite

open Text

/-- A value of SQLite. -/
inductive SqlValue
  | null
  | integer (z : ℤ)
  | float (x : Binary64.Double)
  | text (s : Bytes)
  | blob (s : Bytes)

/-- What `sqlite3_step` returns; the message of an error is `sqlite3_errmsg`. -/
inductive Status
  | row
  | done
  | error (msg : String)
  deriving DecidableEq

/-- The functions of SQLite. -/
structure Library where
  /-- The state of a database: its schema and its content. -/
  Db : Type
  /-- The state of a prepared statement: its code, bindings and position. -/
  Stmt : Type
  /-- `sqlite3_prepare_v2`: an error message, or the statement, which is NULL if
      there is none, and the rest of the text. -/
  prepare : Db → Bytes → Except String (Option Stmt × Bytes)
  step : Db → Stmt → Status × Db × Stmt
  /-- `sqlite3_column_count` and `sqlite3_column_name`. -/
  columnNames : Stmt → List Bytes
  /-- `sqlite3_column_type` and the value of that type. -/
  column : Stmt → ℕ → SqlValue
  bindParameterCount : Stmt → ℕ
  bindParameterIndex : Stmt → Bytes → ℤ
  /-- `sqlite3_bind_null`, `_int`, `_double`, `_text` and `_blob`. -/
  bind : Stmt → ℤ → SqlValue → Except String Stmt

/-- A call that concerns a prepared statement, which is given by its number. -/
inductive Call
  | prepare (stmt : Option ℕ)
  | bind (stmt : ℕ)
  | step (stmt : ℕ) (status : Status)
  | finalize (stmt : ℕ)
  deriving DecidableEq

variable (rt : Runtime) (S : Library)

/-- What is behind the handle of a connection: the database, how many statements
    were prepared, and the calls so far. -/
structure Connection where
  db : S.Db
  prepared : ℕ
  calls : List Call

/-- A pointer to a prepared statement. -/
structure Handle where
  id : ℕ
  stmt : S.Stmt

variable {S}

namespace Connection

def record (w : Connection S) (c : Call) : Connection S := { w with calls := w.calls ++ [c] }

@[simp] theorem record_db (w : Connection S) (c : Call) : (w.record c).db = w.db := rfl

/-- `sqlite3_prepare_v2`. -/
def prepare (w : Connection S) (text : Bytes) :
    Connection S × Except String (Option (Handle S) × Bytes) :=
  match S.prepare w.db text with
  | .error msg => (w.record (.prepare none), .error msg)
  | .ok (none, tail) => (w.record (.prepare none), .ok (none, tail))
  | .ok (some stmt, tail) =>
    ({ w.record (.prepare (some w.prepared)) with prepared := w.prepared + 1 },
      .ok (some ⟨w.prepared, stmt⟩, tail))

/-- `sqlite3_step`. -/
def step (w : Connection S) (h : Handle S) : Status × Connection S × Handle S :=
  let (status, db, stmt) := S.step w.db h.stmt
  (status, { w.record (.step h.id status) with db }, { h with stmt })

/-- `sqlite3_finalize`. -/
def finalize (w : Connection S) (h : Handle S) : Connection S := w.record (.finalize h.id)

@[simp] theorem finalize_db (w : Connection S) (h : Handle S) : (w.finalize h).db = w.db := rfl

/-- `if (stmt) sqlite3_finalize(stmt);` -/
def finalizeOption (w : Connection S) (stmt : Option (Handle S)) : Connection S :=
  stmt.elim w w.finalize

@[simp] theorem finalizeOption_db (w : Connection S) (stmt : Option (Handle S)) :
    (w.finalizeOption stmt).db = w.db := by
  cases stmt <;> rfl

end Connection

/-! ## Parameters -/

/-- `has_null`. -/
def hasNull (s : Bytes) : Bool := s.contains 0

/-- What `bind1` binds for a value. -/
def bindable : Janet → Except String SqlValue
  | .nil => .ok .null
  | .boolean b => .ok (.integer (rt.unwrapBoolean b))
  | .number x => .ok (.float x)
  | .string s | .symbol s | .keyword s =>
    if hasNull s then .error "cannot have embedded nulls in text values" else .ok (.text s)
  | .buffer s => .ok (.blob s)
  | _ => .error "invalid sql value"

/-- `bind1`. -/
def bind1 (w : Connection S) (h : Handle S) (index : ℤ) (value : Janet) :
    Connection S × Except String (Handle S) :=
  match bindable rt value with
  | .error msg => (w, .error msg)
  | .ok v => (w.record (.bind h.id), (S.bind h.stmt index v).map fun stmt => { h with stmt })

/-- The loop of `bindmany` over an array or a tuple, from index `i` on. -/
def bindIndexed (w : Connection S) (h : Handle S) :
    ℕ → List Janet → Connection S × Except String (Handle S)
  | _, [] => (w, .ok h)
  | i, x :: xs =>
    match bind1 rt w h (i + 1) x with
    | (w, .error msg) => (w, .error msg)
    | (w, .ok h) => bindIndexed w h (i + 1) xs

/-- The parameter that a key of a dictionary names, 0 if there is none. -/
def keyIndex (stmt : S.Stmt) : Janet → ℤ
  | .number x => (Janet.number x).checkint.getD 0
  | .keyword s => S.bindParameterIndex stmt (0x3A :: cString s)
  | .string s | .symbol s => S.bindParameterIndex stmt (cString s)
  | _ => 0

/-- The loop of `bindmany` over the slots of a dictionary. -/
def bindSlots (w : Connection S) (h : Handle S) (limitindex : ℕ) :
    Slots → Connection S × Except String (Handle S)
  | [] => (w, .ok h)
  | (k, v) :: kvs =>
    if k.isNil then bindSlots w h limitindex kvs
    else
      let index := keyIndex h.stmt k
      if index ≤ 0 ∨ index > limitindex then (w, .error "invalid index in sql parameters")
      else
        match bind1 rt w h index v with
        | (w, .error msg) => (w, .error msg)
        | (w, .ok h) => bindSlots w h limitindex kvs

/-- `bindmany`. -/
def bindmany (w : Connection S) (h : Handle S) :
    Janet → Connection S × Except String (Handle S)
  | .array seq | .tuple seq =>
    if seq.length > S.bindParameterCount h.stmt + 1 then
      (w, .error "invalid index in sql parameters")
    else bindIndexed rt w h 0 seq
  | .table kvs | .struct kvs => bindSlots rt w h (S.bindParameterCount h.stmt) kvs
  | _ => (w, .error "invalid type for sql parameters")

/-! ## Execution -/

/-- `execute`, which ends with an error message or none. -/
def execute : ℕ → Connection S → Handle S → Option (Connection S × Option String)
  | 0, _, _ => none
  | n + 1, w, h =>
    match w.step h with
    | (.row, w, h) => execute n w h
    | (.done, w, _) => some (w, none)
    | (.error msg, w, _) => some (w, some msg)

/-- The value of a column of a row; `sqlite3_column_int` has 32 bits. -/
def columnValue : SqlValue → Janet
  | .null => .nil
  | .integer z => .integer (Int.bmod z (2 ^ 32))
  | .float x => .number x
  | .text s => .string s
  | .blob s => .buffer s

/-- The struct for the row at which the statement stands. -/
def row (colnames : List Bytes) (stmt : S.Stmt) : Janet :=
  .struct (rt.struct (colnames.mapIdx fun i name => (.keyword name, columnValue (S.column stmt i))))

/-- The loop of `execute_collect`. The names of the columns are those that the
    statement had before its first step. -/
def collectLoop (colnames : List Bytes) :
    ℕ → Connection S → Handle S → List Janet → Option (Connection S × List Janet × Option String)
  | 0, _, _, _ => none
  | n + 1, w, h, rows =>
    match w.step h with
    | (.row, w, h) => collectLoop colnames n w h (rows ++ [row rt colnames h.stmt])
    | (.done, w, _) => some (w, rows, none)
    | (.error msg, w, _) => some (w, rows, some msg)

/-- `execute_collect`. -/
def executeCollect (n : ℕ) (w : Connection S) (h : Handle S) (rows : List Janet) :
    Option (Connection S × List Janet × Option String) :=
  collectLoop rt (S.columnNames h.stmt) n w h rows

/-- `if (stmt) err = execute(stmt);` -/
def executeOption (n : ℕ) (w : Connection S) (stmt : Option (Handle S)) :
    Option (Connection S × Option String) :=
  stmt.elim (some (w, none)) (execute n w)

/-- `if (stmt) err = execute_collect(stmt, rows);` -/
def collectOption (n : ℕ) (w : Connection S) (stmt : Option (Handle S)) :
    Option (Connection S × List Janet × Option String) :=
  stmt.elim (some (w, [], none)) fun h => executeCollect rt n w h []

/-- `if (argc == 3) err = bindmany(stmt_next, argv[2]);` -/
def bindOption (w : Connection S) (h : Handle S) (params : Option Janet) :
    Connection S × Except String (Handle S) :=
  params.elim (w, .ok h) (bindmany rt w h)

/-- The label `error`: both statements are finalized. -/
def fail (w : Connection S) (stmt stmtNext : Option (Handle S)) (err : String) :
    Connection S × Except String Janet :=
  ((w.finalizeOption stmt).finalizeOption stmtNext, .error err)

/-- The loop of `sql_eval`: `stmt` is the statement to execute, and `c` the text
    after it. -/
def evalLoop (params : Option Janet) :
    ℕ → Connection S → Option (Handle S) → Bytes → Option (Connection S × Except String Janet)
  | 0, _, _, _ => none
  | n + 1, w, stmt, c =>
    match w.prepare c with
    | (w, .error err) => some (fail w stmt none err)
    | (w, .ok (none, _)) =>
      (collectOption rt n w stmt).bind fun
        | (w, _, some err) => some (fail w stmt none err)
        | (w, rows, none) => some (w.finalizeOption stmt, .ok (.array rows))
    | (w, .ok (some next, c)) =>
      (executeOption n w stmt).bind fun
        | (w, some err) => some (fail w stmt (some next) err)
        | (w, none) =>
          match bindOption rt w next params with
          | (w, .error err) => some (fail w stmt (some next) err)
          | (w, .ok next) => evalLoop params n (w.finalizeOption stmt) (some next) c

/-- `sql_eval`, for a connection on which `FLAG_CLOSED` is set or not. -/
def sqlEval (n : ℕ) (closed : Bool) (w : Connection S) (query : Bytes) (params : Option Janet) :
    Option (Connection S × Except String Janet) :=
  if closed then some (w, .error "database already closed")
  else if hasNull query then some (w, .error "cannot have embedded NULL in sql statememts")
  else evalLoop rt params n w none query

end PunyGui.Sqlite
