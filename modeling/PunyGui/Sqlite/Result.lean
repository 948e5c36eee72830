import PunyGui.Sqlite.Account

/-!
# Result rows

The structs that `sqlite3/eval` returns for the rows of the last statement.

* `dictionaryGet_row`: what a struct has under the name of a column.
* `FaithfulRow`: what it should have.
* `Returns.yields`: the rows of the last statement are what the call returns.
* `sqlEval_rows_iff`: the structs have what they should exactly if the columns are kept
  under the names that they had before the first step, and the integers have 32 bits.
-/

namespace PunyGui.Sqlite

open Binary64 Text Fuel

variable {rt : Runtime} {S : Library}

/-- `sql_last_insert_rowid`; `rowid` is `sqlite3_last_insert_rowid`, which has 64 bits. -/
def sqlLastInsertRowid (rowid : S.Db → ℤ) (closed : Bool) (w : Connection S) :
    Except String Janet :=
  if closed then .error "database already closed" else .ok (.number (.ofInt (rowid w.db)))

/-! ## A row -/

section Row

variable {names : List Bytes} {r : S.Stmt} {i : ℕ} {name : Bytes} {x : Janet}

/-- What is put for the columns of a row. -/
def cells (names : List Bytes) (r : S.Stmt) : Slots :=
  names.mapIdx fun i name => (.keyword name, columnValue (S.column r i))

theorem mem_cells {kv : Janet × Janet} : kv ∈ cells names r ↔
    ∃ i name, names[i]? = some name ∧ kv = (.keyword name, columnValue (S.column r i)) := by
  simp only [cells, List.mem_iff_getElem?, List.getElem?_mapIdx, Option.map_eq_some_iff]
  grind

theorem cells_keys (names : List Bytes) (r : S.Stmt) :
    (cells names r).map Prod.fst = names.map .keyword := by
  refine List.ext_getElem? fun i => ?_
  simp [cells]
  rfl

variable (hnames : names.Nodup)

include hnames

theorem entries_row (rt : Runtime) : (entries (rt.struct (cells names r))).Perm
    ((cells names r).filter fun kv => !kv.1.isNil && !kv.2.isNil) := by
  refine rt.entries_struct ?_ fun kv hkv => ?_
  · rw [cells_keys]
    exact hnames.map fun _ _ => Janet.keyword.inj
  · obtain ⟨i, name, -, rfl⟩ := mem_cells.1 hkv
    exact (isKey_keyword name _).2 rfl

theorem wellKeyed_row (rt : Runtime) : WellKeyed (rt.struct (cells names r)) := by
  refine ((entries_row hnames rt).map _).nodup_iff.2 ?_
  refine List.Nodup.sublist (List.filter_sublist.map _) ?_
  rw [cells_keys]
  exact hnames.map fun _ _ => Janet.keyword.inj

/-- The struct has the values of the columns, but for nil. -/
theorem mem_entries_row (hi : names[i]? = some name) :
    (.keyword name, x) ∈ entries (rt.struct (cells names r)) ↔
      x = columnValue (S.column r i) ∧ x.isNil = false := by
  rw [(entries_row hnames rt).mem_iff, List.mem_filter, mem_cells]
  simp only [Prod.mk.injEq, Janet.keyword.injEq, Janet.isNil, Bool.not_false, Bool.true_and,
    Bool.not_eq_true']
  refine and_congr_left fun _ => ⟨?_, fun hx => ⟨i, name, hi, rfl, hx⟩⟩
  rintro ⟨j, _, hj, rfl, rfl⟩
  obtain ⟨hlt, -⟩ := List.getElem?_eq_some_iff.1 hi
  rw [(List.getElem?_inj hlt hnames).1 (hi.trans hj.symm)]

/-- What the struct has under the name of a column is the value of the column. -/
theorem dictionaryGet_row (hi : names[i]? = some name) :
    dictionaryGet (rt.struct (cells names r)) (.keyword name) = columnValue (S.column r i) := by
  cases hnil : (columnValue (S.column r i)).isNil with
  | true =>
    rw [dictionaryGet_eq_nil (isKey_keyword name) fun x hx => ?_]
    · exact (Janet.isNil_iff.1 hnil).symm
    · obtain ⟨rfl, hx⟩ := (mem_entries_row hnames hi).1 hx
      exact Bool.false_ne_true (hx.symm.trans hnil)
  | false =>
    exact dictionaryGet_of_mem (isKey_keyword name) (wellKeyed_row hnames rt)
      ((mem_entries_row hnames hi).2 ⟨rfl, hnil⟩)

end Row

/-! ## Faithful rows -/

theorem bmod_eq_self_iff {z : ℤ} : Int.bmod z (2 ^ 32) = z ↔ -2 ^ 31 ≤ z ∧ z < 2 ^ 31 := by
  rw [Int.bmod]
  omega

/-- An integer comes back from its low 32 bits only if it has no more. -/
theorem integer_bmod_iff {z : ℤ} :
    Janet.integer (Int.bmod z (2 ^ 32)) = Janet.integer z ↔ -2 ^ 31 ≤ z ∧ z < 2 ^ 31 := by
  have hsmall : (Int.bmod z (2 ^ 32)).natAbs < 2 ^ 52 := by
    rw [Int.bmod]
    omega
  rw [Janet.integer, Janet.integer, Janet.number.injEq, Double.ofInt_inj hsmall, bmod_eq_self_iff]

section Faithful

variable (rowid : S.Db → ℤ) (w₀ : Connection S)

/-- What a struct should have for a row, under the names that the columns have there: NULL
    is absent, every integer that a number can be is that number, and the other values are
    as they are. The number of a row that was inserted before is the one that
    `sqlite3/last-insert-rowid` gave in the state `w₀` after the insert. -/
structure FaithfulRow (r : S.Stmt) (t : Slots) : Prop where
  null {i : ℕ} {name : Bytes} (hi : (S.columnNames r)[i]? = some name)
    (h : S.column r i = .null) : ∀ x, (.keyword name, x) ∉ entries t
  integer {i : ℕ} {name : Bytes} (hi : (S.columnNames r)[i]? = some name) {z : ℤ}
    (h : S.column r i = .integer z) (hz : z.natAbs ≤ 2 ^ 53) :
    dictionaryGet t (.keyword name) = .integer z
  float {i : ℕ} {name : Bytes} (hi : (S.columnNames r)[i]? = some name) {x : Double}
    (h : S.column r i = .float x) : dictionaryGet t (.keyword name) = .number x
  text {i : ℕ} {name : Bytes} (hi : (S.columnNames r)[i]? = some name) {s : Bytes}
    (h : S.column r i = .text s) : dictionaryGet t (.keyword name) = .string s
  blob {i : ℕ} {name : Bytes} (hi : (S.columnNames r)[i]? = some name) {s : Bytes}
    (h : S.column r i = .blob s) : dictionaryGet t (.keyword name) = .buffer s
  inserted {i : ℕ} {name : Bytes} (hi : (S.columnNames r)[i]? = some name)
    (h : S.column r i = .integer (rowid w₀.db)) :
    sqlLastInsertRowid rowid false w₀ = .ok (dictionaryGet t (.keyword name))

/-- One struct for each row, in order. -/
def FaithfulRows (rs : List S.Stmt) (v : Janet) : Prop :=
  ∃ ts : List Slots, v = .array (ts.map .struct) ∧ List.Forall₂ (FaithfulRow rowid w₀) rs ts

/-- The integers of a row, as far as a number can be them, have 32 bits. -/
def Narrow (r : S.Stmt) : Prop :=
  ∀ i < (S.columnNames r).length, ∀ z, S.column r i = .integer z →
    z.natAbs ≤ 2 ^ 53 ∨ z = rowid w₀.db → -2 ^ 31 ≤ z ∧ z < 2 ^ 31

/-- The column of a row that had this name among `names`; NULL if there was none. -/
def columnUnder (names : List Bytes) (r : S.Stmt) (name : Bytes) : SqlValue :=
  (names.idxOf? name).elim .null (S.column r)

/-- The value a column should come back as. -/
def exactValue : SqlValue → Janet
  | .null => .nil
  | .integer z => .integer z
  | .float x => .number x
  | .text s => .string s
  | .blob s => .buffer s

/-- For every column of a row, what had its name among `names` is read as its value, if
    that is not an integer which a number cannot be. -/
def Kept (names : List Bytes) (r : S.Stmt) : Prop :=
  ∀ i name, (S.columnNames r)[i]? = some name →
    (∀ z, S.column r i = .integer z → z.natAbs ≤ 2 ^ 53 ∨ z = rowid w₀.db) →
      columnValue (columnUnder names r name) = exactValue (S.column r i)

variable {rowid w₀} {names : List Bytes} {r : S.Stmt} {rs : List S.Stmt} {name : Bytes}

/-- Under a name of its own, a column is read itself. -/
theorem columnUnder_of_nodup (hnames : names.Nodup) {i : ℕ} (hi : names[i]? = some name)
    (r : S.Stmt) : columnUnder names r name = S.column r i := by
  obtain ⟨hlt, he⟩ := List.getElem?_eq_some_iff.1 hi
  have hidx : names.idxOf? name = some i := by
    refine List.idxOf?_eq_some_iff.2 ⟨hlt, he, fun j hj e => ?_⟩
    exact hj.ne ((List.Nodup.getElem_inj_iff hnames).1 (e.trans he.symm))
  rw [columnUnder, hidx, Option.elim_some]

/-- The struct has under every name what the column of that name is read as. -/
theorem dictionaryGet_cells (rt : Runtime) (hnames : names.Nodup) (r : S.Stmt) (name : Bytes) :
    dictionaryGet (rt.struct (cells names r)) (.keyword name) =
      columnValue (columnUnder names r name) := by
  by_cases h : name ∈ names
  · obtain ⟨i, hi⟩ := List.mem_iff_getElem?.1 h
    rw [dictionaryGet_row hnames hi, columnUnder_of_nodup hnames hi]
  · -- No column had the name, so nothing was put under it.
    rw [columnUnder, List.idxOf?_eq_none_iff.2 h]
    refine dictionaryGet_eq_nil (isKey_keyword name) fun x hx => h ?_
    obtain ⟨i, name', hi, e⟩ := mem_cells.1 (List.mem_of_mem_filter
      ((entries_row hnames rt).mem_iff.1 hx))
    obtain rfl := Janet.keyword.inj (Prod.mk.inj e).1
    exact List.mem_of_getElem? hi

/-- The struct has nothing under a name exactly if it gives nil for it. -/
theorem notMem_entries_row (rt : Runtime) (hnames : names.Nodup) (r : S.Stmt) (name : Bytes) :
    (∀ x, (.keyword name, x) ∉ entries (rt.struct (cells names r))) ↔
      dictionaryGet (rt.struct (cells names r)) (.keyword name) = .nil := by
  refine ⟨dictionaryGet_eq_nil (isKey_keyword name), fun hnil x hx => ?_⟩
  rw [dictionaryGet_of_mem (isKey_keyword name) (wellKeyed_row hnames rt) hx] at hnil
  have hkept := (List.mem_filter.1 ((entries_row hnames rt).mem_iff.1 hx)).2
  rw [hnil] at hkept
  cases hkept

theorem faithfulRow_iff_kept (rt : Runtime) (hnames : names.Nodup) :
    FaithfulRow rowid w₀ r (rt.struct (cells names r)) ↔ Kept rowid w₀ names r := by
  constructor
  · intro hrow i name hi hz
    rw [← dictionaryGet_cells rt hnames]
    cases hv : S.column r i with
    | null => exact (notMem_entries_row rt hnames r name).1 (hrow.null hi hv)
    | integer z =>
      rcases hz z hv with hz | rfl
      · exact hrow.integer hi hv hz
      · exact (Except.ok.inj (hrow.inserted hi hv)).symm
    | float x => exact hrow.float hi hv
    | text s => exact hrow.text hi hv
    | blob s => exact hrow.blob hi hv
  · intro hkept
    have hget : ∀ {i : ℕ} {name : Bytes} {x : SqlValue}, (S.columnNames r)[i]? = some name →
        S.column r i = x → (∀ z, x = .integer z → z.natAbs ≤ 2 ^ 53 ∨ z = rowid w₀.db) →
        dictionaryGet (rt.struct (cells names r)) (.keyword name) = exactValue x := by
      rintro i name _ hi rfl hz
      rw [dictionaryGet_cells rt hnames]
      exact hkept i name hi hz
    exact
      { null := fun hi hv => (notMem_entries_row rt hnames r _).2 (hget hi hv (by simp))
        integer := fun hi z hv hz => hget hi hv fun z' hz' => by cases hz'; exact .inl hz
        float := fun hi x hv => hget hi hv (by simp)
        text := fun hi s hv => hget hi hv (by simp)
        blob := fun hi s hv => hget hi hv (by simp)
        inserted := fun hi hv =>
          congrArg Except.ok (hget hi hv fun z hz => by cases hz; exact .inr rfl).symm }

/-- Where the columns have kept their names, only the integers matter. -/
theorem kept_iff_narrow (hnames : (S.columnNames r).Nodup) :
    Kept rowid w₀ (S.columnNames r) r ↔ Narrow rowid w₀ r := by
  constructor
  · intro hkept i hlt z hz hbound
    have hi := List.getElem?_eq_getElem hlt
    have h := hkept i _ hi fun z' hz' => by
      rw [hz] at hz'
      cases hz'
      exact hbound
    rw [columnUnder_of_nodup hnames hi, hz] at h
    exact integer_bmod_iff.1 h
  · intro hnarrow i name hi hz
    rw [columnUnder_of_nodup hnames hi]
    cases hv : S.column r i with
    | integer z =>
      obtain ⟨hlt, -⟩ := List.getElem?_eq_some_iff.1 hi
      exact integer_bmod_iff.2 (hnarrow i hlt z hv (hz z hv))
    | null => rfl
    | float x => rfl
    | text s => rfl
    | blob s => rfl

/-- There is one struct for each row. -/
theorem faithfulRows_iff (rt : Runtime) (names : List Bytes) :
    FaithfulRows rowid w₀ rs (.array (rs.map (row rt names))) ↔
      ∀ r ∈ rs, FaithfulRow rowid w₀ r (rt.struct (cells names r)) := by
  have hrows : rs.map (row rt names) = (rs.map fun r => rt.struct (cells names r)).map .struct := by
    rw [List.map_map]
    rfl
  have hinj : Function.Injective Janet.struct := fun _ _ => Janet.struct.inj
  have hsame : (∀ r ∈ rs, FaithfulRow rowid w₀ r (rt.struct (cells names r))) ↔
      List.Forall₂ (FaithfulRow rowid w₀) rs (rs.map fun r => rt.struct (cells names r)) := by
    rw [List.forall₂_map_right_iff, List.forall₂_same]
  rw [hsame]
  constructor
  · rintro ⟨ts, hts, hrs⟩
    rw [hrows] at hts
    rwa [List.map_injective_iff.2 hinj (Janet.array.inj hts)]
  · exact fun hrs => ⟨_, congrArg Janet.array hrows, hrs⟩

end Faithful

/-! ## The call -/

theorem yields_of_execute {n : ℕ} {w : Connection S} {h : Handle S}
    {a : Connection S × Option String} (hn : execute n w h = some a) :
    Yields (fun m => execute m w h) a := by
  induction n generalizing w h with
  | zero => cases hn
  | succ n ih =>
    rw [execute] at hn
    refine yields_succ_iff.1 ?_
    rcases hs : w.step h with ⟨status, w₁, h₁⟩
    rw [hs] at hn
    simp only [execute, hs]
    cases status with
    | row => exact ih hn
    | done => exact yields_some.2 (Option.some.inj hn)
    | error msg => exact yields_some.2 (Option.some.inj hn)

theorem yields_of_executeOption {n : ℕ} {w : Connection S} {stmt : Option (Handle S)}
    {a : Connection S × Option String} (hn : executeOption n w stmt = some a) :
    Yields (fun m => executeOption m w stmt) a := by
  cases stmt with
  | none => exact yields_some.2 (Option.some.inj hn)
  | some h => exact yields_of_execute hn

/-- A call that has a last statement with these rows returns them. -/
theorem Returns.yields {params : Option Janet} {w : Connection S} {stmt : Option (Handle S)}
    {c : Bytes} {result : Option (S.Stmt × List S.Stmt)}
    (hr : Returns rt params w stmt c result) :
    ∃ w', Yields (fun n => evalLoop rt params n w stmt c)
      (w', .ok (.array (lastRows rt result))) := by
  induction hr with
  | @none w w₁ _ _ hp =>
    refine ⟨w₁, yields_succ_iff.1 ?_⟩
    simp only [evalLoop, hp, collectOption, Option.elim_none, Option.bind_some]
    exact yields_some.2 rfl
  | @last w w₁ h _ _ _ _ hp hrs =>
    obtain ⟨w', -, hy⟩ := yields_collectLoop rt (S.columnNames h.stmt) [] hrs
    refine ⟨w'.finalize h, yields_succ_iff.1 ?_⟩
    simp only [evalLoop, hp, collectOption, executeCollect, Option.elim_some]
    rw [hy.bind_iff]
    exact yields_some.2 rfl
  | next hp hexec hb _ ih =>
    obtain ⟨w', hy⟩ := ih
    refine ⟨w', yields_succ_iff.1 ?_⟩
    simp only [evalLoop, hp]
    rw [(yields_of_executeOption hexec).bind_iff]
    simp only [hb]
    exact hy

/-- A call whose last statement stands at these rows, where their columns have names of
    their own, returns one struct for each row, in order. They have what they should exactly
    if every column is kept under its name, of those that the statement had before its first
    step. Where these are the names that the columns still have, that is exactly if the
    integers have 32 bits. -/
theorem sqlEval_rows_iff {w : Connection S} {query : Bytes} {params : Option Janet}
    {stmt : S.Stmt} {rs : List S.Stmt} (hquery : hasNull query = false)
    (hrows : Returns rt params w none query (some (stmt, rs)))
    (hnames : ∀ r ∈ rs, (S.columnNames r).Nodup) (rowid : S.Db → ℤ) (w₀ : Connection S) :
    ∃ w' v, Yields (fun n => sqlEval rt n false w query params) (w', .ok v) ∧
      ((∀ r ∈ rs, S.columnNames r = S.columnNames stmt) →
        (FaithfulRows rowid w₀ rs v ↔ ∀ r ∈ rs, Narrow rowid w₀ r)) ∧
      ((S.columnNames stmt).Nodup →
        (FaithfulRows rowid w₀ rs v ↔ ∀ r ∈ rs, Kept rowid w₀ (S.columnNames stmt) r)) := by
  obtain ⟨w', hy⟩ := hrows.yields
  refine ⟨w', .array (rs.map (row rt (S.columnNames stmt))), ?_, fun hsame => ?_,
    fun hdistinct => ?_⟩
  · simp only [sqlEval, Bool.false_eq_true, if_false, hquery]
    exact hy
  · rw [faithfulRows_iff]
    refine forall₂_congr fun r hr => ?_
    rw [← hsame r hr, faithfulRow_iff_kept rt (hnames r hr), kept_iff_narrow (hnames r hr)]
  · rw [faithfulRows_iff]
    exact forall₂_congr fun r hr => faithfulRow_iff_kept rt hdistinct

/-! ## An identifier -/

/-- A library for which every text is the same query: it has one column, and an integer
    in it. The column is named `before` until the first step, and `name` from then on. -/
def Library.identifier (id : ℤ) (before name : Bytes) : Library where
  Db := Unit
  Stmt := Bool
  prepare _ text := .ok (if text = [] then none else some false, [])
  step
    | _, false => (.row, (), true)
    | _, true => (.done, (), true)
  columnNames
    | false => [before]
    | true => [name]
  column
    | true, _ => .integer id
    | false, _ => .null
  bindParameterCount _ := 0
  bindParameterIndex _ _ := 0
  bind _ _ _ := .error "column index out of range"

/-- The name of the column. -/
def nameId : Bytes := ascii ['i', 'd']

section Identifier

variable (id : ℤ) (before name : Bytes)

/-- `select id`. -/
def selectId : Bytes := ascii ['s', 'e', 'l', 'e', 'c', 't', ' ', 'i', 'd']

/-- What is behind the handle before the query. -/
def beforeQuery : Connection (Library.identifier id before name) := ⟨(), 0, []⟩

/-- What the query returns. -/
def identifierRows : Janet := .array [.struct [(.keyword before, .integer (Int.bmod id (2 ^ 32)))]]

theorem returns_identifier :
    Returns Runtime.assoc none (beforeQuery id before name) none selectId
      (some (false, [true])) :=
  .next (n := 0) rfl rfl rfl (.last rfl (.row rfl (.done rfl)))

theorem yields_identifier : ∃ w', Yields (fun n => sqlEval Runtime.assoc n false
    (beforeQuery id before name) selectId none) (w', .ok (identifierRows id before)) :=
  (returns_identifier id before name).yields

end Identifier

theorem sqlEval_rows_iff_seven : ∃ w' v, Yields (fun n => sqlEval Runtime.assoc n false
    (beforeQuery 7 nameId nameId) selectId none) (w', .ok v) ∧
      ((∀ r ∈ [true], (Library.identifier 7 nameId nameId).columnNames r = [nameId]) →
        (FaithfulRows (fun _ => 7) (beforeQuery 7 nameId nameId) [true] v ↔
          ∀ r ∈ [true], Narrow (fun _ => 7) (beforeQuery 7 nameId nameId) r)) ∧
      ([nameId].Nodup →
        (FaithfulRows (fun _ => 7) (beforeQuery 7 nameId nameId) [true] v ↔
          ∀ r ∈ [true], Kept (fun _ => 7) (beforeQuery 7 nameId nameId) [nameId] r)) :=
  sqlEval_rows_iff (by decide) (returns_identifier 7 nameId nameId)
    (fun r _ => by cases r <;> exact List.nodup_singleton _) (fun _ => 7) (beforeQuery 7 _ _)

/-- The identifier `2 ^ 31` comes back as `-2 ^ 31`. -/
theorem sqlEval_identifier_wide : ∃ w', Yields (fun n => sqlEval Runtime.assoc n false
      (beforeQuery (2 ^ 31) nameId nameId) selectId none)
        (w', .ok (identifierRows (2 ^ 31) nameId)) ∧
    Returns Runtime.assoc none (beforeQuery (2 ^ 31) nameId nameId) none
      selectId (some (false, [true])) ∧
    ¬FaithfulRows (fun _ => 2 ^ 31) (beforeQuery (2 ^ 31) nameId nameId)
      [true] (identifierRows (2 ^ 31) nameId) := by
  obtain ⟨w', h⟩ := yields_identifier (2 ^ 31) nameId nameId
  refine ⟨w', h, returns_identifier _ _ _, fun hrows => ?_⟩
  have hrow := (faithfulRows_iff Runtime.assoc [nameId]).1 hrows true List.mem_cons_self
  have hkept := (faithfulRow_iff_kept Runtime.assoc (by decide)).1 hrow
  have hnarrow := (kept_iff_narrow (S := Library.identifier (2 ^ 31) _ _) (r := true)
    (List.nodup_singleton _)).1 hkept 0 Nat.zero_lt_one (2 ^ 31) rfl (.inr rfl)
  exact absurd hnarrow.2 (lt_irrefl _)

/-- An identifier that is renamed after the statement was compiled comes back under the
    name that it had before. -/
theorem sqlEval_identifier_renamed : ∃ w', Yields (fun n => sqlEval Runtime.assoc n false
      (beforeQuery 7 (ascii ['a']) (ascii ['b'])) selectId none)
        (w', .ok (identifierRows 7 (ascii ['a']))) ∧
    ¬FaithfulRows (fun _ => 7) (beforeQuery 7 (ascii ['a']) (ascii ['b'])) [true]
      (identifierRows 7 (ascii ['a'])) := by
  obtain ⟨w', h⟩ := yields_identifier 7 (ascii ['a']) (ascii ['b'])
  refine ⟨w', h, fun hrows => ?_⟩
  have hrow := (faithfulRows_iff Runtime.assoc [ascii ['a']]).1 hrows true List.mem_cons_self
  have hkept := (faithfulRow_iff_kept Runtime.assoc (by decide)).1 hrow
  exact absurd (hkept 0 (ascii ['b']) rfl fun z hz => .inr (by cases hz; rfl)) nofun

end PunyGui.Sqlite
