import PunyGui.Sqlite.Bind
import PunyGui.Sqlite.Result
import PunyGui.Sqlite.Script

/-!
# Parameters that come back

A query that returns its parameters as columns, evaluated with a list of values.

* `ParameterQuery`: what is assumed of SQLite.
* `Accepted`: the values that `bindmany` accepts.
* `returned`: what should come back for a value.
* `echoes_iff`: it comes back exactly if the integers bound for the booleans are 1
  and 0. They are what `janet_unwrap_integer` makes of a value that is no number.
* `sqlEval_echoes_iff`: so nothing can be said of a list with a boolean, and all
  other lists come back.
-/

namespace PunyGui.Sqlite

open Binary64 Registry Fuel

variable {rt : Runtime} {S : Library}

/-! ## Values -/

/-- The values that `bindmany` accepts. -/
def Accepted : Janet → Prop
  | .nil | .boolean _ => True
  | .number x => ∀ neg, x ≠ .nan neg
  | .string s | .symbol s | .keyword s => 0 ∉ s
  -- An empty buffer may have no address, which SQLite takes for NULL.
  | .buffer s => s ≠ []
  | _ => False

/-- What should come back for a value. -/
def returned : Janet → Janet
  | .boolean b => .integer b.toInt
  | .symbol s | .keyword s => .string s
  | x => x

/-- What a parameter has after the value was bound to it. -/
def stored (rt : Runtime) : Janet → SqlValue
  | .boolean b => .integer (rt.unwrapBoolean b)
  | .number x => .float x
  | .string s | .symbol s | .keyword s => .text s
  | .buffer s => .blob s
  | _ => .null

theorem bindable_text {x : Janet} {s : Text.Bytes}
    (hx : x = .string s ∨ x = .symbol s ∨ x = .keyword s) (hs : 0 ∉ s) :
    bindable rt x = .ok (.text s) := by
  have hnull : hasNull s = false := by
    rw [hasNull, ← Bool.not_eq_true, List.contains_iff_mem]
    exact hs
  rcases hx with rfl | rfl | rfl <;> simp [bindable, hnull]

theorem held_of_accepted {x : Janet} (hx : Accepted x) : held rt x = .ok (stored rt x) := by
  cases x with
  | nil | boolean b | buffer s => rfl
  | number x =>
    cases x with
    | finite neg pattern | inf neg => rfl
    | nan neg => exact absurd rfl (hx neg)
  | string s | symbol s | keyword s =>
    rw [held, bindable_text (by simp) hx]
    rfl
  | _ => exact hx.elim

/-- The integer that is bound for a boolean comes back as the boolean. -/
def Unwraps (rt : Runtime) (b : Bool) : Prop := Int.bmod (rt.unwrapBoolean b) (2 ^ 32) = b.toInt

/-- Only a boolean may come back as something else. -/
theorem columnValue_stored_iff {x : Janet} (hx : Accepted x) :
    columnValue (stored rt x) = returned x ↔ ∀ b, x = .boolean b → Unwraps rt b := by
  cases x with
  | boolean b =>
    have hsmall : b.toInt.natAbs < 2 ^ 52 := by cases b <;> decide
    rw [stored, columnValue, returned, Janet.integer, Janet.integer, Janet.number.injEq, eq_comm,
      Double.ofInt_inj hsmall, eq_comm]
    exact ⟨fun h b' hb => Janet.boolean.inj hb ▸ h, fun h => h b rfl⟩
  | nil | number _ | string _ | symbol _ | keyword _ | buffer _ =>
    exact iff_of_true rfl fun b hb => by cases hb
  | _ => exact hx.elim

/-! ## The query -/

/-- What is assumed of SQLite: the text is one query that returns its parameters as
    columns with the given names. -/
structure ParameterQuery (B : Bindings S) (db : S.Db) (query : Text.Bytes)
    (names : List Text.Bytes) where
  no_null : hasNull query = false
  stmt : S.Stmt
  tail : Text.Bytes
  prepare : S.prepare db query = .ok (some stmt, tail)
  prepare_tail : ∃ rest, S.prepare db tail = .ok (none, rest)
  /-- The statement was prepared from the query and was not stepped since. -/
  IsPrepared : S.Stmt → Prop
  prepared : IsPrepared stmt
  bind {stmt stmt' : S.Stmt} (h : IsPrepared stmt) {i : ℤ} {v : SqlValue}
    (hb : S.bind stmt i v = .ok stmt') : IsPrepared stmt'
  columnNames {stmt : S.Stmt} (h : IsPrepared stmt) : S.columnNames stmt = names
  bindParameterCount {stmt : S.Stmt} (h : IsPrepared stmt) :
    S.bindParameterCount stmt = names.length
  /-- There is one row, and a column of it has what its parameter has. -/
  rows {stmt : S.Stmt} (h : IsPrepared stmt) (db : S.Db) : ∃ r db', Rows S db stmt [r] db' ∧
    ∀ i < names.length, S.column r i = B.value stmt (i + 1)

section Query

variable {B : Bindings S} {db : S.Db} {query : Text.Bytes} {names : List Text.Bytes}
  (Q : ParameterQuery B db query names) {w w' : Connection S} {h h' : Handle S} {i : ℕ}
  {xs : List Janet} {seq : Janet}

include Q

theorem bind1_prepared {x : Janet} (hb : bind1 rt w h i x = (w', .ok h'))
    (hs : Q.IsPrepared h.stmt) : w'.db = w.db ∧ Q.IsPrepared h'.stmt := by
  cases hx : bindable rt x with
  | error msg =>
    rw [bind1, hx] at hb
    cases hb
  | ok v =>
    cases hstmt : S.bind h.stmt i v with
    | error msg =>
      rw [bind1_of_error hx hstmt] at hb
      cases hb
    | ok stmt =>
      rw [bind1_of_ok hx hstmt] at hb
      cases hb
      exact ⟨rfl, Q.bind hs hstmt⟩

/-- Binding the values leaves the query as it is. -/
theorem bindIndexed_prepared (hb : bindIndexed rt w h i xs = (w', .ok h'))
    (hs : Q.IsPrepared h.stmt) : w'.db = w.db ∧ Q.IsPrepared h'.stmt := by
  induction xs generalizing w h i with
  | nil =>
    cases hb
    exact ⟨rfl, hs⟩
  | cons x xs ih =>
    rw [bindIndexed, ← Nat.cast_succ] at hb
    rcases h₁ : bind1 rt w h (i + 1 : ℕ) x with ⟨w₁, msg | h₁'⟩ <;> rw [h₁] at hb
    · cases hb
    · obtain ⟨hdb, hs'⟩ := bind1_prepared Q h₁ hs
      obtain ⟨hdb', hs''⟩ := ih hb hs'
      exact ⟨hdb'.trans hdb, hs''⟩

variable (rt)

/-- After the list is bound, every parameter has its value. -/
theorem bindmany_stored (hxs : ∀ x ∈ xs, Accepted x) (hlen : xs.length = names.length)
    (hseq : IsIndexed xs seq) (hs : Q.IsPrepared h.stmt) : ∃ w' h',
      bindmany rt w h seq = (w', .ok h') ∧ w'.db = w.db ∧ Q.IsPrepared h'.stmt ∧
        ∀ i x, xs[i]? = some x → B.value h'.stmt (i + 1) = stored rt x := by
  have hheld : List.Forall₂ (fun x v => held rt x = .ok v) xs (xs.map (stored rt)) := by
    rw [List.forall₂_map_right_iff, List.forall₂_same]
    exact fun x hx => held_of_accepted (hxs x hx)
  have hcount := Q.bindParameterCount hs
  obtain ⟨w', h', hb, -, hv⟩ := assigns_bindIndexed (h := h) (i := 0) B hheld (by omega) w
  obtain ⟨hdb, hs'⟩ := bindIndexed_prepared Q hb hs
  refine ⟨w', h', ?_, hdb, hs', fun i x hx => ?_⟩
  · rw [bindmany_indexed hseq, if_neg (by omega), hb]
  · rw [hv, assign_zipIdx, if_pos (Nat.le_add_left 1 i), Nat.add_sub_cancel, List.getElem?_map, hx]
    rfl

/-- The call returns one row, made of the values that the parameters have. -/
theorem yields_row (hdb : w.db = db) (hxs : ∀ x ∈ xs, Accepted x)
    (hlen : xs.length = names.length) (hseq : IsIndexed xs seq) : ∃ w' r,
      Yields (fun n => sqlEval rt n false w query (some seq)) (w', .ok (.array [row rt names r])) ∧
        ∀ i x, xs[i]? = some x → S.column r i = stored rt x := by
  subst hdb
  -- The first round of the loop prepares the query and binds the list.
  obtain ⟨w₁, h₁, hb, hdb, hs, hv⟩ := bindmany_stored rt Q hxs hlen hseq
    (w := { w.record (.prepare (some w.prepared)) with prepared := w.prepared + 1 })
    (h := ⟨w.prepared, Q.stmt⟩) Q.prepared
  -- The second one finds no other statement and collects the rows.
  obtain ⟨r, db', hrows, hcolumn⟩ := Q.rows hs w₁.db
  obtain ⟨rest, htail⟩ := Q.prepare_tail
  have htail' : S.prepare w₁.db Q.tail = .ok (none, rest) :=
    (congrArg (S.prepare · Q.tail) hdb).trans htail
  obtain ⟨w₂, -, hy⟩ := yields_evalLoop_none rt (some seq) htail' hrows
  rw [Q.columnNames hs] at hy
  refine ⟨w₂, r, ?_, fun i x hx => ?_⟩
  · simp only [sqlEval, Q.no_null, Bool.false_eq_true, if_false]
    exact (yields_evalLoop_some rt (some seq) Q.prepare none (yields_some.2 rfl) hb _).2 hy
  · obtain ⟨hlt, -⟩ := List.getElem?_eq_some_iff.1 hx
    rw [hcolumn i (hlen ▸ hlt), hv i x hx]

end Query

/-! ## What comes back -/

/-- The struct has the value under the name of a column, and nothing if it is nil. -/
def HasColumn (t : Slots) (name : Text.Bytes) (v : Janet) : Prop :=
  dictionaryGet t (.keyword name) = v ∧ (v = .nil → ∀ y, (.keyword name, y) ∉ entries t)

/-- The call with the list returns one row, and in it every value of the list as it
    should come back. -/
def Echoes (rt : Runtime) (w : Connection S) (query : Text.Bytes) (names : List Text.Bytes)
    (xs : List Janet) (seq : Janet) : Prop :=
  ∃ w' t, Yields (fun n => sqlEval rt n false w query (some seq)) (w', .ok (.array [.struct t])) ∧
    ∀ (i : ℕ) x name, xs[i]? = some x → names[i]? = some name → HasColumn t name (returned x)

section Echo

variable {B : Bindings S} {w : Connection S} {query : Text.Bytes} {names : List Text.Bytes}
  {xs : List Janet} {seq : Janet}

theorem hasColumn_row_iff (hnames : names.Nodup) {r : S.Stmt} {i : ℕ} {name : Text.Bytes}
    (hi : names[i]? = some name) {v : Janet} :
    HasColumn (rt.struct (cells names r)) name v ↔ columnValue (S.column r i) = v := by
  rw [HasColumn, dictionaryGet_row hnames hi]
  refine and_iff_left_of_imp ?_
  rintro hv rfl y hy
  obtain ⟨rfl, hnil⟩ := (mem_entries_row hnames hi).1 hy
  rw [hv] at hnil
  cases hnil

/-- The list comes back exactly if the integers bound for its booleans do. -/
theorem echoes_iff (Q : ParameterQuery B w.db query names) (hnames : names.Nodup)
    (hxs : ∀ x ∈ xs, Accepted x) (hlen : xs.length = names.length) (hseq : IsIndexed xs seq) :
    Echoes rt w query names xs seq ↔ ∀ b, .boolean b ∈ xs → Unwraps rt b := by
  obtain ⟨w', r, hy, hcolumn⟩ := yields_row rt Q rfl hxs hlen hseq
  constructor
  · rintro ⟨w'', t, hy', hback⟩ b hb
    obtain ⟨rfl, ht⟩ := Prod.mk.inj (hy.unique hy')
    obtain rfl : rt.struct (cells names r) = t := by
      simpa [row, cells] using ht
    obtain ⟨i, hi⟩ := List.mem_iff_getElem?.1 hb
    obtain ⟨hlt, -⟩ := List.getElem?_eq_some_iff.1 hi
    have hname := List.getElem?_eq_getElem (hlen ▸ hlt)
    have hvalue := (hasColumn_row_iff hnames hname).1 (hback i _ _ hi hname)
    rw [hcolumn i _ hi] at hvalue
    exact (columnValue_stored_iff (hxs _ hb)).1 hvalue b rfl
  · intro h
    refine ⟨w', rt.struct (cells names r), hy, fun i x name hi hname => ?_⟩
    have hx := List.mem_of_getElem? hi
    rw [hasColumn_row_iff hnames hname, hcolumn i x hi, columnValue_stored_iff (hxs x hx)]
    rintro b rfl
    exact h b hx

/-- The same Janet with other integers for the booleans. -/
def withUnwrapBoolean (rt : Runtime) (f : Bool → ℤ) : Runtime := { rt with unwrapBoolean := f }

/-- A list comes back, whatever integers `janet_unwrap_integer` makes of booleans,
    exactly if it has none. -/
theorem sqlEval_echoes_iff (rt : Runtime) (Q : ParameterQuery B w.db query names)
    (hnames : names.Nodup) (hxs : ∀ x ∈ xs, Accepted x) (hlen : xs.length = names.length)
    (hseq : IsIndexed xs seq) :
    (∀ f, Echoes (withUnwrapBoolean rt f) w query names xs seq) ↔ ∀ b, .boolean b ∉ xs := by
  simp only [echoes_iff Q hnames hxs hlen hseq]
  constructor
  · -- It may be neither 0 nor 1.
    have htwo (b : Bool) : Int.bmod 2 (2 ^ 32) ≠ b.toInt := by cases b <;> decide
    exact fun h b hb => htwo b (h (fun _ => 2) b hb)
  · exact fun h f b hb => absurd hb (h b)

end Echo

/-! ## One column -/

/-- A statement of `Library.echo`: the values of its parameters, and whether it was stepped. -/
structure EchoStmt where
  value : ℕ → SqlValue
  stepped : Bool

/-- A library for which every text is a query that returns its parameters. -/
def Library.echo (names : List Text.Bytes) : Library where
  Db := Unit
  Stmt := EchoStmt
  prepare _ text := .ok (if text = [] then none else some ⟨fun _ => .null, false⟩, [])
  step _ stmt := (if stmt.stepped then .done else .row, (), { stmt with stepped := true })
  columnNames _ := names
  column stmt i := stmt.value (i + 1)
  bindParameterCount _ := names.length
  bindParameterIndex _ _ := 0
  bind stmt i v :=
    if 1 ≤ i ∧ i ≤ names.length then
      .ok { stmt with value := Function.update stmt.value i.toNat v.kept }
    else .error "column index out of range"

/-- One column. -/
def columnA : List Text.Bytes := [[0x61]]

def Bindings.echo : Bindings (Library.echo columnA) where
  value stmt := stmt.value
  count_lt _ := (by decide : 1 < 2 ^ 31)
  bind_ok {stmt i} h₁ h₂ v :=
    ⟨_, if_pos ⟨Int.ofNat_le.2 h₁, Int.ofNat_le.2 h₂⟩, rfl, rfl⟩
  bind_range {_ i} h _ :=
    ⟨_, if_neg fun hi => Nat.not_le.2 h (Int.ofNat_le.1 hi.2), by decide⟩

/-- `select ?1`. -/
def selectParameter : Text.Bytes :=
  Text.ascii ['s', 'e', 'l', 'e', 'c', 't', ' ', '?', '1']

def ParameterQuery.echo : ParameterQuery Bindings.echo () selectParameter columnA where
  no_null := by decide
  stmt := ⟨fun _ => .null, false⟩
  tail := []
  prepare := rfl
  prepare_tail := ⟨[], rfl⟩
  IsPrepared stmt := stmt.stepped = false
  prepared := rfl
  bind {stmt stmt'} h {i v} hb := by
    simp only [Library.echo] at hb
    split_ifs at hb
    cases hb
    exact h
  columnNames _ := rfl
  bindParameterCount _ := rfl
  rows {stmt} h _ := by
    have hdone : Rows (Library.echo columnA) () { stmt with stepped := true } [] () := .done rfl
    refine ⟨{ stmt with stepped := true }, (), .row ?_ hdone, fun _ _ => rfl⟩
    simp only [Library.echo, h]
    rfl

/-- What is behind the handle before the query. -/
def beforeSelect : Connection (Library.echo columnA) := ⟨(), 0, []⟩

theorem sqlEval_echoes_iff_keyword :
    (∀ f, Echoes (withUnwrapBoolean Runtime.assoc f) beforeSelect selectParameter columnA
        [.keyword [0x6B]] (.tuple [.keyword [0x6B]])) ↔ ∀ b, .boolean b ∉ [Janet.keyword [0x6B]] :=
  sqlEval_echoes_iff (w := beforeSelect) Runtime.assoc ParameterQuery.echo (by decide)
    (by simp [Accepted]) rfl (.inr rfl)

/-- Where the bits of a boolean are taken for an integer that does not depend on it, true
    does not come back as 1. -/
theorem sqlEval_true : ¬Echoes Runtime.assoc beforeSelect selectParameter columnA
    [.boolean true] (.tuple [.boolean true]) := by
  rw [echoes_iff (w := beforeSelect) ParameterQuery.echo (by decide) (by simp [Accepted]) rfl
    (.inr rfl)]
  exact fun h => absurd (h true List.mem_cons_self) (by rw [Unwraps]; decide)

end PunyGui.Sqlite
