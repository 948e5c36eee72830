import Mathlib.Data.Finset.Insert
import Mathlib.Data.Finset.Erase
import PunyGui.Sqlite.Result

/-!
# Connections

The connection objects of Janet, and the handles of SQLite that they hold, over any
sequence of operations.

A handle is given by its address, and may get the one of a handle that was closed; so
may an object. A call of SQLite on a handle that is not allocated is undefined, and so is
a step that makes one.

* `World`: the handles that are allocated, and the objects that are live.
* `step`: an operation, or the collection of an object.
* `Consistent`: the handles are those of the open objects, no step is undefined, and
  closed objects refuse everything.
* `run_consistent_iff`: every state of a run is consistent exactly if no `sqlite3_open`
  fails with a handle.
-/

namespace PunyGui.Sqlite

open Text

/-- The functions of SQLite, with those that tell something about a connection. -/
structure Engine extends Library where
  /-- `sqlite3_last_insert_rowid`. -/
  lastInsertRowid : Db → ℤ
  /-- `sqlite3_errcode`. -/
  errcode : Db → ℤ

/-- A connection object; `closed` is `FLAG_CLOSED` of its flags. -/
structure Db where
  handle : ℕ
  closed : Bool

/-- The handles that `sqlite3_open` has allocated and `sqlite3_close_v2` has not been
    given since, and the live objects. -/
structure World where
  allocated : Finset ℕ
  objects : ℕ → Option Db

/-- Nothing is open. -/
def World.start : World := ⟨∅, fun _ => none⟩

/-- What `sqlite3_open` returns; it allocates a handle also when it fails, unless the
    memory is exhausted. -/
inductive Opened
  | ok (handle : ℕ)
  | error (handle : Option ℕ) (msg : String)

def Opened.handle? : Opened → Option ℕ
  | .ok handle => some handle
  | .error handle _ => handle

/-- An operation, with what SQLite has to say to it: the state in which the database is
    at the time of the call. -/
inductive Op (E : Engine)
  | open (addr : ℕ) (result : Opened)
  | eval (addr : ℕ) (state : E.Db) (steps : ℕ) (query : Bytes) (params : Option Janet)
  | lastInsertRowid (addr : ℕ) (state : E.Db)
  | errorCode (addr : ℕ) (state : E.Db)
  | close (addr : ℕ)
  | collect (addr : ℕ)

/-- `sqlite3_open` fails, but has allocated a handle. -/
def Op.Leaks {E : Engine} : Op E → Prop
  | .open _ (.error (some _) _) => True
  | _ => False

variable (rt : Runtime) {E : Engine}

/-! ## The operations -/

namespace World

variable (w : World) (addr : ℕ) (db : Db)

/-- The object is made, changed or freed. -/
def put (o : Option Db) : World := { w with objects := Function.update w.objects addr o }

/-- So many calls of SQLite on a handle, other than to close it. -/
def use (handle calls : ℕ) : Option World :=
  if calls = 0 ∨ handle ∈ w.allocated then some w else none

/-- `sqlite3_close_v2`. -/
def closeV2 (handle : ℕ) : Option World :=
  if handle ∈ w.allocated then some { w with allocated := w.allocated.erase handle } else none

/-- `closedb`. -/
def closedb : Option World :=
  if db.closed then some w else (w.put addr (some { db with closed := true })).closeV2 db.handle

/-- `gcsqlite`, and the object is freed. -/
def gcsqlite : Option World := (w.closedb addr db).map fun w => w.put addr none

/-- `sql_open`. If it fails, the message is read from the handle; there is one also for
    the NULL that it gets when the memory is exhausted. -/
def sqlOpen : Opened → Option (World × Except String Janet)
  | .ok handle =>
    let w := { w with allocated := insert handle w.allocated }
    some (w.put addr (some { handle, closed := false }), .ok (.abstract addr))
  | .error (some handle) msg =>
    let w := { w with allocated := insert handle w.allocated }
    (w.use handle 1).map fun w => (w, .error msg)
  | .error none msg => some (w, .error msg)

/-- `sql_close`. -/
def sqlClose : Option (World × Except String Janet) :=
  (w.closedb addr db).map fun w => (w, .ok .nil)

end World

/-- `sql_error_code`. -/
def sqlErrorCode (errcode : E.Db → ℤ) (closed : Bool) (w : Connection E.toLibrary) :
    Except String Janet :=
  if closed then .error "database already closed" else .ok (.integer (errcode w.db))

/-- One step: nothing if it makes a call that is undefined, or if it does not end. -/
def step (w : World) : Op E → Option (World × Except String Janet)
  | .open addr result => w.sqlOpen addr result
  | .eval addr state n query params =>
    (w.objects addr).bind fun db =>
      (sqlEval rt n db.closed ⟨state, 0, []⟩ query params).bind fun (c, r) =>
        (w.use db.handle c.calls.length).map fun w => (w, r)
  | .lastInsertRowid addr state =>
    (w.objects addr).bind fun db =>
      (w.use db.handle (if db.closed then 0 else 1)).map fun w =>
        (w, sqlLastInsertRowid E.lastInsertRowid db.closed ⟨state, 0, []⟩)
  | .errorCode addr state =>
    (w.objects addr).bind fun db =>
      (w.use db.handle (if db.closed then 0 else 1)).map fun w =>
        (w, sqlErrorCode E.errcode db.closed ⟨state, 0, []⟩)
  | .close addr => (w.objects addr).bind (w.sqlClose addr)
  | .collect addr =>
    (w.objects addr).bind fun db => (w.gcsqlite addr db).map fun w => (w, .ok .nil)

/-- What Janet and SQLite see to: a new object and a new handle get free addresses, an
    operation is given a live object, and only a live object is collected; and a call of
    `sqlite3/eval` ends. -/
def Enabled (w : World) : Op E → Prop
  | .open addr result => w.objects addr = none ∧ ∀ h ∈ result.handle?, h ∉ w.allocated
  | .eval addr state n query params => ∃ db, w.objects addr = some db ∧
    (sqlEval rt n db.closed ⟨state, 0, []⟩ query params).isSome
  | .lastInsertRowid addr _ | .errorCode addr _ | .close addr | .collect addr =>
    (w.objects addr).isSome

/-- A step that may be made leads from one state to the other. -/
def Steps (w : World) (op : Op E) (w' : World) : Prop :=
  Enabled rt w op ∧ ∃ r, step rt w op = some (w', r)

/-! ## Consistency -/

/-- The object is open, and holds the handle. -/
def World.Holds (w : World) (addr handle : ℕ) : Prop :=
  ∃ db, w.objects addr = some db ∧ db.closed = false ∧ db.handle = handle

/-- Every operation on the object fails, and changes nothing; to close it does nothing. -/
structure Refuses (E : Engine) (w : World) (addr : ℕ) : Prop where
  eval (state : E.Db) (n : ℕ) (query : Bytes) (params : Option Janet) :
    step rt w (.eval addr state n query params) = some (w, .error "database already closed")
  lastInsertRowid (state : E.Db) :
    step rt w (.lastInsertRowid addr state) = some (w, .error "database already closed")
  errorCode (state : E.Db) :
    step rt w (.errorCode addr state) = some (w, .error "database already closed")
  close : step (E := E) rt w (.close addr) = some (w, .ok .nil)

/-- What should hold in every state. -/
structure Consistent (E : Engine) (w : World) : Prop where
  /-- The handles that are allocated are those of the open objects. -/
  owned (handle : ℕ) : handle ∈ w.allocated ↔ ∃ addr, w.Holds addr handle
  /-- No step makes a call on a handle that is not allocated, nor closes one. -/
  safe (op : Op E) (h : Enabled rt w op) : (step rt w op).isSome
  refuses {addr : ℕ} {db : Db} (h : w.objects addr = some db) (hclosed : db.closed = true) :
    Refuses rt E w addr

/-- The handles are owned, each by one object. -/
structure Owned (w : World) : Prop where
  mem_iff (handle : ℕ) : handle ∈ w.allocated ↔ ∃ addr, w.Holds addr handle
  unique {addr addr' handle : ℕ} (h : w.Holds addr handle) (h' : w.Holds addr' handle) :
    addr = addr'

theorem owned_start : Owned World.start where
  mem_iff handle := by simp [World.start, World.Holds]
  unique := by simp [World.start, World.Holds]

section Owned

variable {w : World} {addr addr' handle : ℕ} {db : Db} {o : Option Db}

@[simp] theorem put_allocated : (w.put addr o).allocated = w.allocated := rfl

/-- What an object holds does not depend on what is allocated. -/
@[simp] theorem holds_mk (s : Finset ℕ) :
    (World.mk s w.objects).Holds addr handle ↔ w.Holds addr handle := Iff.rfl

theorem holds_put : (w.put addr o).Holds addr' handle ↔
    (addr' = addr ∧ ∃ db, o = some db ∧ db.closed = false ∧ db.handle = handle) ∨
      (addr' ≠ addr ∧ w.Holds addr' handle) := by
  by_cases h : addr' = addr
  · subst h
    simp [World.Holds, World.put]
  · simp [World.Holds, World.put, h]

/-- An object that is not open holds nothing. -/
theorem holds_put_closed (ho : ∀ db, o = some db → db.closed = true) :
    (w.put addr o).Holds addr' handle ↔ addr' ≠ addr ∧ w.Holds addr' handle := by
  rw [holds_put, or_iff_right]
  rintro ⟨-, db, rfl, hopen, -⟩
  exact Bool.false_ne_true (hopen.symm.trans (ho db rfl))

theorem holds_eq (hdb : w.objects addr = some db) (h : w.Holds addr handle) :
    db.closed = false ∧ db.handle = handle := by
  obtain ⟨db', hdb', h⟩ := h
  cases hdb.symm.trans hdb'
  exact h

variable (hw : Owned w)

include hw

/-- The handle of an open object is allocated. -/
theorem Owned.mem_allocated (hdb : w.objects addr = some db) (hopen : db.closed = false) :
    db.handle ∈ w.allocated :=
  (hw.mem_iff _).2 ⟨addr, db, hdb, hopen, rfl⟩

/-- A new object with a new handle. -/
theorem Owned.opens (haddr : w.objects addr = none) (hhandle : handle ∉ w.allocated) :
    Owned (World.put { w with allocated := insert handle w.allocated } addr
      (some { handle, closed := false })) := by
  have hne : ∀ {a h}, w.Holds a h → a ≠ addr := by
    rintro _ h ⟨db, hdb, -⟩ rfl
    cases haddr.symm.trans hdb
  have hnew : ∀ {a h}, w.Holds a h → h ≠ handle := by
    rintro a _ h rfl
    exact hhandle ((hw.mem_iff _).2 ⟨a, h⟩)
  have hiff : ∀ {a h}, (World.put { w with allocated := insert handle w.allocated } addr
      (some { handle, closed := false })).Holds a h ↔
        (a = addr ∧ handle = h) ∨ (a ≠ addr ∧ w.Holds a h) := by
    intro a h
    rw [holds_put, holds_mk]
    simp
  constructor
  · -- The new handle is held by the new object, every other one as before.
    intro h
    simp only [put_allocated, Finset.mem_insert, hw.mem_iff, hiff, exists_or]
    refine or_congr ?_ (exists_congr fun a => ⟨fun ha => ⟨hne ha, ha⟩, And.right⟩)
    exact ⟨fun hh => ⟨addr, rfl, hh.symm⟩, fun ⟨_, _, hh⟩ => hh.symm⟩
  · intro a b h ha hb
    rcases hiff.1 ha with ⟨hab, hh⟩ | ⟨-, ha⟩ <;> rcases hiff.1 hb with ⟨hab', hh'⟩ | ⟨-, hb⟩
    · exact hab.trans hab'.symm
    · exact absurd hh.symm (hnew hb)
    · exact absurd hh'.symm (hnew ha)
    · exact hw.unique ha hb

/-- An open object is closed or freed, and its handle with it. -/
theorem Owned.release (hdb : w.objects addr = some db) (hopen : db.closed = false)
    (ho : ∀ db, o = some db → db.closed = true) :
    Owned (World.put { w with allocated := w.allocated.erase db.handle } addr o) := by
  have hself : w.Holds addr db.handle := ⟨db, hdb, hopen, rfl⟩
  constructor
  · intro h
    simp only [holds_put_closed ho, put_allocated, Finset.mem_erase, hw.mem_iff, holds_mk]
    constructor
    · rintro ⟨hne, a, ha⟩
      refine ⟨a, ?_, ha⟩
      rintro rfl
      exact hne (holds_eq hdb ha).2.symm
    · rintro ⟨a, hne, ha⟩
      refine ⟨?_, a, ha⟩
      rintro rfl
      exact hne (hw.unique ha hself)
  · intro a b h ha hb
    exact hw.unique ((holds_put_closed ho).1 ha).2 ((holds_put_closed ho).1 hb).2

/-- A closed object is changed or freed. -/
theorem Owned.drop (hdb : w.objects addr = some db) (hclosed : db.closed = true)
    (ho : ∀ db, o = some db → db.closed = true) : Owned (w.put addr o) := by
  constructor
  · intro h
    simp only [holds_put_closed ho, put_allocated, hw.mem_iff]
    refine exists_congr fun a => ⟨fun ha => ⟨?_, ha⟩, And.right⟩
    rintro rfl
    exact Bool.false_ne_true ((holds_eq hdb ha).1.symm.trans hclosed)
  · intro a b h ha hb
    exact hw.unique ((holds_put_closed ho).1 ha).2 ((holds_put_closed ho).1 hb).2

end Owned

/-! ## The steps -/

section Steps

variable {w : World} {addr : ℕ} {db : Db}

theorem use_of_mem {handle : ℕ} (h : handle ∈ w.allocated) (calls : ℕ) :
    w.use handle calls = some w :=
  if_pos (.inr h)

/-- A failing `sqlite3_open` leaves the handle allocated. -/
theorem sqlOpen_error (w : World) (addr handle : ℕ) (msg : String) :
    w.sqlOpen addr (.error (some handle) msg) =
      some ({ w with allocated := insert handle w.allocated }, .error msg) := by
  rw [World.sqlOpen, use_of_mem (Finset.mem_insert_self ..), Option.map_some]

/-- The calls on the handle of an object that is not open are none. -/
theorem Owned.use (hw : Owned w) (hdb : w.objects addr = some db) {calls : ℕ}
    (hcalls : db.closed = true → calls = 0) : w.use db.handle calls = some w := by
  cases hclosed : db.closed with
  | true => exact if_pos (.inl (hcalls hclosed))
  | false => exact use_of_mem (hw.mem_allocated hdb hclosed) calls

/-- A live object is closed, if it is not, without an undefined call. -/
theorem Owned.closedb (hw : Owned w) (hdb : w.objects addr = some db) : ∃ w' db',
    w.closedb addr db = some w' ∧ Owned w' ∧ w'.objects addr = some db' ∧ db'.closed = true := by
  cases hclosed : db.closed with
  | true => exact ⟨w, db, if_pos hclosed, hw, hdb, hclosed⟩
  | false =>
    have ho : ∀ db', some { db with closed := true } = some db' → db'.closed = true := by
      rintro _ ⟨⟩
      rfl
    refine ⟨_, { db with closed := true }, ?_, hw.release hdb hclosed ho, ?_, rfl⟩
    · rw [World.closedb, hclosed, if_neg Bool.false_ne_true]
      exact if_pos (hw.mem_allocated hdb hclosed)
    · simp [World.put]

/-- A step that may be made is not undefined, and keeps the handles owned, unless
    `sqlite3_open` fails with a handle. -/
theorem Owned.step (hw : Owned w) {op : Op E} (he : Enabled rt w op) : ∃ w' r,
    step rt w op = some (w', r) ∧ (¬op.Leaks → Owned w') := by
  cases op with
  | «open» addr result =>
    cases result with
    | ok handle => exact ⟨_, _, rfl, fun _ => hw.opens he.1 (he.2 handle rfl)⟩
    | error handle msg =>
      cases handle with
      | none => exact ⟨w, _, rfl, fun _ => hw⟩
      | some handle =>
        exact ⟨_, _, sqlOpen_error w addr handle msg, fun hleak => absurd trivial hleak⟩
  | eval addr state n query params =>
    obtain ⟨db, hdb, hr⟩ := he
    obtain ⟨⟨c, r⟩, hr⟩ := Option.isSome_iff_exists.1 hr
    refine ⟨w, r, ?_, fun _ => hw⟩
    -- On a closed connection `sql_eval` raises its error before any call.
    have hcalls : db.closed = true → c.calls.length = 0 := fun hclosed => by
      rw [hclosed] at hr
      cases hr
      rfl
    rw [Sqlite.step, hdb, Option.bind_some, hr, Option.bind_some]
    dsimp only
    rw [hw.use hdb hcalls, Option.map_some]
  | lastInsertRowid addr state =>
    obtain ⟨db, hdb⟩ := Option.isSome_iff_exists.1 he
    have huse : w.use db.handle (if db.closed then 0 else 1) = some w :=
      hw.use hdb fun h => if_pos h
    refine ⟨w, sqlLastInsertRowid E.lastInsertRowid db.closed ⟨state, 0, []⟩, ?_, fun _ => hw⟩
    rw [Sqlite.step, hdb, Option.bind_some, huse, Option.map_some]
  | errorCode addr state =>
    obtain ⟨db, hdb⟩ := Option.isSome_iff_exists.1 he
    have huse : w.use db.handle (if db.closed then 0 else 1) = some w :=
      hw.use hdb fun h => if_pos h
    refine ⟨w, sqlErrorCode E.errcode db.closed ⟨state, 0, []⟩, ?_, fun _ => hw⟩
    rw [Sqlite.step, hdb, Option.bind_some, huse, Option.map_some]
  | close addr =>
    obtain ⟨db, hdb⟩ := Option.isSome_iff_exists.1 he
    obtain ⟨w', db', hclose, hw', -⟩ := hw.closedb hdb
    refine ⟨w', .ok .nil, ?_, fun _ => hw'⟩
    rw [Sqlite.step, hdb, Option.bind_some, World.sqlClose, hclose]
    rfl
  | collect addr =>
    obtain ⟨db, hdb⟩ := Option.isSome_iff_exists.1 he
    obtain ⟨w', db', hclose, hw', hdb', hclosed⟩ := hw.closedb hdb
    refine ⟨w'.put addr none, .ok .nil, ?_, fun _ => hw'.drop hdb' hclosed nofun⟩
    rw [Sqlite.step, hdb, Option.bind_some, World.gcsqlite, hclose]
    rfl

theorem refuses_of_closed (hdb : w.objects addr = some db) (hclosed : db.closed = true) :
    Refuses rt E w addr := by
  constructor
  · intro state n query params
    rw [step, hdb, Option.bind_some, hclosed]
    rfl
  · intro state
    rw [step, hdb, Option.bind_some, hclosed]
    rfl
  · intro state
    rw [step, hdb, Option.bind_some, hclosed]
    rfl
  · rw [step, hdb, Option.bind_some, World.sqlClose, World.closedb, if_pos hclosed]
    rfl

theorem Owned.consistent (hw : Owned w) : Consistent rt E w where
  owned := hw.mem_iff
  safe op he := by
    obtain ⟨w', r, hs, -⟩ := hw.step rt he
    rw [hs]
    rfl
  refuses hdb hclosed := refuses_of_closed rt hdb hclosed

/-- A handle that no object gets is never closed: the ownership is lost. -/
theorem not_consistent_of_leaks {w' : World} {op : Op E} (hw : Consistent rt E w)
    (hs : Steps rt w op w') (hleak : op.Leaks) : ¬Consistent rt E w' := by
  obtain ⟨he, r, hs⟩ := hs
  match op, hleak with
  | .open addr (.error (some handle) msg), _ =>
    replace hs := (sqlOpen_error w addr handle msg).symm.trans hs
    obtain ⟨rfl, -⟩ := Prod.mk.inj (Option.some.inj hs)
    intro hw'
    obtain ⟨addr', hholds⟩ := (hw'.owned handle).1 (Finset.mem_insert_self ..)
    exact he.2 handle rfl ((hw.owned handle).2 ⟨addr', hholds⟩)

end Steps

/-- In a run from the start, every state is consistent exactly if no `sqlite3_open` fails
    with a handle, which `sql_open` does not close. -/
theorem run_consistent_iff {ops : List (Op E)} {w : World}
    (h : History.Run (Steps rt) World.start ops w) :
    (∀ ops₁ w₁, ops₁ <+: ops → History.Run (Steps rt) World.start ops₁ w₁ → Consistent rt E w₁) ↔
      ∀ op ∈ ops, ¬op.Leaks := by
  refine h.always_iff (I := Owned) (fun hw => hw.consistent rt) ?_ ?_ owned_start
  · rintro w op w' hw ⟨he, r, hs⟩ hleak
    obtain ⟨w'', r', hs', hw''⟩ := hw.step rt he
    cases hs.symm.trans hs'
    exact hw'' hleak
  · exact fun hw hs hleak => not_consistent_of_leaks rt hw hs hleak

/-! ## One connection -/

def Engine.oneTable : Engine where
  toLibrary := Library.oneTable
  lastInsertRowid _ := 0
  errcode _ := 0

/-- A connection that is opened, asked for a row number, closed and collected. -/
def oneConnection : List (Op Engine.oneTable) :=
  [.open 0 (.ok 7), .lastInsertRowid 0 none, .close 0, .collect 0]

theorem run_oneConnection : ∃ w,
    History.Run (Steps Runtime.assoc) World.start oneConnection w := by
  refine ⟨_, .cons ⟨⟨rfl, ?_⟩, _, rfl⟩ (.cons ⟨rfl, _, rfl⟩ (.cons ⟨rfl, _, rfl⟩
    (.cons ⟨rfl, _, rfl⟩ .nil)))⟩
  simp [Opened.handle?, World.start]

theorem run_consistent_iff_oneConnection :
    (∀ ops₁ w₁, ops₁ <+: oneConnection →
      History.Run (Steps Runtime.assoc) World.start ops₁ w₁ →
      Consistent Runtime.assoc Engine.oneTable w₁) ↔ ∀ op ∈ oneConnection, ¬op.Leaks := by
  obtain ⟨w, h⟩ := run_oneConnection
  exact run_consistent_iff Runtime.assoc h

/-- A file that cannot be opened leaves a handle that nothing holds. -/
theorem run_failed_open : ∃ w,
    History.Run (Steps Runtime.assoc) World.start
        [(.open 0 (.error (some 7) "unable to open database file") : Op Engine.oneTable)] w ∧
      ¬Consistent Runtime.assoc Engine.oneTable w := by
  have hs : Steps Runtime.assoc World.start
      (.open 0 (.error (some 7) "unable to open database file") : Op Engine.oneTable)
      ⟨{7}, fun _ => none⟩ :=
    ⟨⟨rfl, by simp [World.start]⟩, _, sqlOpen_error World.start 0 7 _⟩
  exact ⟨_, .cons hs .nil,
    not_consistent_of_leaks Runtime.assoc (owned_start.consistent _) hs trivial⟩

end PunyGui.Sqlite
