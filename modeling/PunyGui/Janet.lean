import PunyGui.Binary64
import PunyGui.Text

/-!
# Janet values

The values the C code exchanges with Janet, and the parts of the Janet runtime
it relies on.

A value is given by its type and content; functions, fibers, abstract values
and pointers only by an address. A table or a struct is the array of its slots,
in the order of the memory, as the C code sees it through
`janet_dictionary_view`: a slot whose key is nil is empty.

* `entries`: the used slots of a table.
* `Runtime`: what is assumed of Janet. A table may arrange its slots in any
  way, as long as `janet_table_put` is the update of a map.
* `Janet.deep`: the content of a value without the arrangement of its tables;
  two values with the same content are equal in depth.
-/

namespace PunyGui

open Binary64 Text

/-- A Janet value. -/
inductive Janet
  | nil
  | boolean (b : Bool)
  | number (x : Double)
  | string (s : Bytes)
  | symbol (s : Bytes)
  | keyword (s : Bytes)
  | buffer (s : Bytes)
  | array (xs : List Janet)
  | tuple (xs : List Janet)
  | table (kvs : List (Janet × Janet))
  | struct (kvs : List (Janet × Janet))
  | function (addr : ℕ)
  | cfunction (addr : ℕ)
  | fiber (addr : ℕ)
  | abstract (addr : ℕ)
  | pointer (addr : ℕ)

/-- The slots of a table, in the order of the memory. -/
abbrev Slots := List (Janet × Janet)

namespace Janet

def isNil : Janet → Bool
  | .nil => true
  | _ => false

theorem isNil_iff {x : Janet} : x.isNil = true ↔ x = .nil := by
  cases x <;> simp [isNil]

/-- The bytes of a string, symbol, keyword or buffer (`janet_bytes_view`). -/
def bytes? : Janet → Option Bytes
  | .string s | .symbol s | .keyword s | .buffer s => some s
  | _ => none

/-- `janet_wrap_integer`. -/
def integer (z : ℤ) : Janet := .number (.ofInt z)

/-- The range of the 32-bit integers. -/
def isInt32 (z : ℤ) : Bool := -2 ^ 31 ≤ z && z < 2 ^ 31

/-- `janet_unwrap_integer`: it is only defined for a number that has its integral
    part in range. -/
def unwrapInteger : Janet → Option ℤ
  | .number x => x.trunc.filter isInt32
  | _ => none

/-- `janet_checkint` and `janet_unwrap_integer`: the 32-bit integer that a value is. -/
def checkint : Janet → Option ℤ
  | .number x => x.toInt?.filter isInt32
  | _ => none

theorem checkint_integer {z : ℤ} (h : z.natAbs ≤ 2 ^ 53) :
    (integer z).checkint = if isInt32 z then some z else none := by
  rw [integer, checkint, Double.toInt?_ofInt h, Option.filter_some]

/-- `janet_equals`, for the values that are compared by content or address. -/
def keyEq : Janet → Janet → Bool
  | .nil, .nil => true
  | .boolean a, .boolean b => a == b
  | .number x, .number y => x.ceq y
  | .string a, .string b => a == b
  | .symbol a, .symbol b => a == b
  | .keyword a, .keyword b => a == b
  | .function a, .function b => a == b
  | .cfunction a, .cfunction b => a == b
  | .fiber a, .fiber b => a == b
  | .abstract a, .abstract b => a == b
  | .pointer a, .pointer b => a == b
  | _, _ => false

/-- A string, symbol or keyword is equal only to itself. -/
theorem keyEq_string {s : Bytes} {k : Janet} : keyEq (.string s) k = true ↔ k = .string s := by
  cases k <;> simp [keyEq]
  exact eq_comm

end Janet

/-! ## Parts of a value -/

namespace Janet

mutual

/-- `P` holds of the value and of all its parts: elements, keys and values. -/
def Forall (P : Janet → Prop) : Janet → Prop
  | .array xs => P (.array xs) ∧ ForallItems P xs
  | .tuple xs => P (.tuple xs) ∧ ForallItems P xs
  | .table kvs => P (.table kvs) ∧ ForallSlots P kvs
  | .struct kvs => P (.struct kvs) ∧ ForallSlots P kvs
  | x => P x

def ForallItems (P : Janet → Prop) : List Janet → Prop
  | [] => True
  | x :: xs => Forall P x ∧ ForallItems P xs

def ForallSlots (P : Janet → Prop) : List (Janet × Janet) → Prop
  | [] => True
  | (k, v) :: kvs => (k.isNil = false → Forall P k ∧ Forall P v) ∧ ForallSlots P kvs

end

mutual

/-- How many arrays and tables are nested around the deepest part. -/
def height : Janet → ℕ
  | .array xs | .tuple xs => heightItems xs
  | .table kvs | .struct kvs => heightSlots kvs
  | _ => 0

def heightItems : List Janet → ℕ
  | [] => 0
  | x :: xs => max (height x + 1) (heightItems xs)

def heightSlots : List (Janet × Janet) → ℕ
  | [] => 0
  | (k, v) :: kvs => if k.isNil then heightSlots kvs else max (height v + 1) (heightSlots kvs)

end

mutual

theorem Forall.mono {P Q : Janet → Prop} (h : ∀ y, P y → Q y) :
    ∀ {x : Janet}, x.Forall P → x.Forall Q
  | .array _, ⟨hx, hxs⟩ | .tuple _, ⟨hx, hxs⟩ => ⟨h _ hx, ForallItems.mono h hxs⟩
  | .table _, ⟨hx, hkvs⟩ | .struct _, ⟨hx, hkvs⟩ => ⟨h _ hx, ForallSlots.mono h hkvs⟩
  | .nil, hx | .boolean _, hx | .number _, hx | .string _, hx | .symbol _, hx | .keyword _, hx
  | .buffer _, hx | .function _, hx | .cfunction _, hx | .fiber _, hx | .abstract _, hx
  | .pointer _, hx => h _ hx

theorem ForallItems.mono {P Q : Janet → Prop} (h : ∀ y, P y → Q y) :
    ∀ {xs : List Janet}, ForallItems P xs → ForallItems Q xs
  | [], _ => trivial
  | _ :: _, ⟨hx, hxs⟩ => ⟨hx.mono h, ForallItems.mono h hxs⟩

theorem ForallSlots.mono {P Q : Janet → Prop} (h : ∀ y, P y → Q y) :
    ∀ {kvs : List (Janet × Janet)}, ForallSlots P kvs → ForallSlots Q kvs
  | [], _ => trivial
  | (_, _) :: _, ⟨hkv, hkvs⟩ =>
    ⟨fun hn => ⟨(hkv hn).1.mono h, (hkv hn).2.mono h⟩, ForallSlots.mono h hkvs⟩

end

mutual

theorem forall_and {P Q : Janet → Prop} :
    ∀ {x : Janet}, x.Forall P → x.Forall Q → x.Forall fun y => P y ∧ Q y
  | .array _, h, h' | .tuple _, h, h' => ⟨⟨h.1, h'.1⟩, forallItems_and h.2 h'.2⟩
  | .table _, h, h' | .struct _, h, h' => ⟨⟨h.1, h'.1⟩, forallSlots_and h.2 h'.2⟩
  | .nil, h, h' | .boolean _, h, h' | .number _, h, h' | .string _, h, h' | .symbol _, h, h'
  | .keyword _, h, h' | .buffer _, h, h' | .function _, h, h' | .cfunction _, h, h'
  | .fiber _, h, h' | .abstract _, h, h' | .pointer _, h, h' => ⟨h, h'⟩

theorem forallItems_and {P Q : Janet → Prop} : ∀ {xs : List Janet}, ForallItems P xs →
    ForallItems Q xs → ForallItems (fun y => P y ∧ Q y) xs
  | [], _, _ => trivial
  | _ :: _, ⟨hx, hxs⟩, ⟨hx', hxs'⟩ => ⟨forall_and hx hx', forallItems_and hxs hxs'⟩

theorem forallSlots_and {P Q : Janet → Prop} : ∀ {kvs : List (Janet × Janet)}, ForallSlots P kvs →
    ForallSlots Q kvs → ForallSlots (fun y => P y ∧ Q y) kvs
  | [], _, _ => trivial
  | (_, _) :: _, ⟨h, hkvs⟩, ⟨h', hkvs'⟩ =>
    ⟨fun hn => ⟨forall_and (h hn).1 (h' hn).1, forall_and (h hn).2 (h' hn).2⟩,
      forallSlots_and hkvs hkvs'⟩

end

mutual

theorem forall_of_forall {P : Janet → Prop} (h : ∀ y, P y) : ∀ x : Janet, x.Forall P
  | .array _ | .tuple _ => ⟨h _, forallItems_of_forall h _⟩
  | .table _ | .struct _ => ⟨h _, forallSlots_of_forall h _⟩
  | .nil | .boolean _ | .number _ | .string _ | .symbol _ | .keyword _ | .buffer _ | .function _
  | .cfunction _ | .fiber _ | .abstract _ | .pointer _ => h _

theorem forallItems_of_forall {P : Janet → Prop} (h : ∀ y, P y) : ∀ xs, ForallItems P xs
  | [] => trivial
  | _ :: _ => ⟨forall_of_forall h _, forallItems_of_forall h _⟩

theorem forallSlots_of_forall {P : Janet → Prop} (h : ∀ y, P y) : ∀ kvs, ForallSlots P kvs
  | [] => trivial
  | (_, _) :: _ =>
    ⟨fun _ => ⟨forall_of_forall h _, forall_of_forall h _⟩, forallSlots_of_forall h _⟩

end

/-- A byte sequence has no parts. -/
theorem forall_of_bytes {P : Janet → Prop} {k : Janet} {s : Bytes} (h : k.bytes? = some s) :
    k.Forall P ↔ P k := by
  cases k <;> simp_all [bytes?, Forall]

end Janet

/-! ## Tables -/

/-- The used slots of a table. -/
def entries (t : Slots) : Slots := t.filter fun kv => !kv.1.isNil

theorem entries_cons_nil {k v : Janet} {t : Slots} (hk : k.isNil = true) :
    entries ((k, v) :: t) = entries t := by
  simp [entries, hk]

theorem entries_cons {k v : Janet} {t : Slots} (hk : k.isNil = false) :
    entries ((k, v) :: t) = (k, v) :: entries t := by
  simp [entries, hk]

/-- `janet_table_get`, and `janet_dictionary_get`: nil for a missing key. -/
def dictionaryGet (t : Slots) (k : Janet) : Janet :=
  ((entries t).find? fun kv => k.keyEq kv.1).elim .nil Prod.snd

/-- What is assumed of Janet. -/
structure Runtime where
  /-- `JANET_RECURSION_GUARD`. -/
  recursionGuard : ℕ
  guard_lt : recursionGuard < 0xFFFF
  /-- `janet_table(0)`. -/
  table : Slots
  /-- `janet_table_put`. -/
  tablePut : Slots → Janet → Janet → Slots
  entries_table : entries table = []
  /-- Putting a value replaces the entry of its key. -/
  entries_put {t : Slots} {k v : Janet} (hk : k.keyEq k = true) (hn : k ≠ .nil) (hv : v ≠ .nil) :
    (entries (tablePut t k v)).Perm ((k, v) :: (entries t).filter fun kv => !k.keyEq kv.1)
  /-- Putting nil removes the entry of its key. -/
  entries_put_nil {t : Slots} {k : Janet} (hk : k.keyEq k = true) (hn : k ≠ .nil) :
    (entries (tablePut t k .nil)).Perm ((entries t).filter fun kv => !k.keyEq kv.1)
  /-- The struct that `janet_struct_begin`, `_put` and `_end` make of pairs. -/
  struct : Slots → Slots
  /-- A struct has the pairs of different keys, except those with a nil. -/
  entries_struct {kvs : Slots} (h : (kvs.map Prod.fst).Nodup)
    (hk : ∀ kv ∈ kvs, kv.1.keyEq kv.1 = true) :
    (entries (struct kvs)).Perm (kvs.filter fun kv => !kv.1.isNil && !kv.2.isNil)
  /-- `janet_unwrap_integer` of a boolean, which takes its bits for a number. -/
  unwrapBoolean : Bool → ℤ
  /-- `janet_to_string`, for the values that are not made of bytes. -/
  describe : Janet → Bytes

/-- The runtime whose tables are association lists. -/
def Runtime.assoc : Runtime where
  recursionGuard := 1024
  guard_lt := by decide
  table := []
  tablePut t k v :=
    if v.isNil then t.filter fun kv => !k.keyEq kv.1
    else (k, v) :: t.filter fun kv => !k.keyEq kv.1
  entries_table := rfl
  entries_put {t k v} _ hn hv := by
    have hk : k.isNil = false := by cases k <;> simp_all [Janet.isNil]
    have hv : v.isNil = false := by cases v <;> simp_all [Janet.isNil]
    simp only [hv, Bool.false_eq_true, if_false, entries, List.filter_cons, hk,
      Bool.not_false, if_true]
    rw [List.filter_filter, List.filter_filter]
    simp only [Bool.and_comm]
    exact List.Perm.refl _
  entries_put_nil {t k} _ _ := by
    simp only [Janet.isNil, if_true, entries]
    rw [List.filter_filter, List.filter_filter]
    simp only [Bool.and_comm]
    exact List.Perm.refl _
  struct kvs := kvs.filter fun kv => !kv.1.isNil && !kv.2.isNil
  entries_struct {kvs} _ _ := by
    rw [entries, List.filter_filter]
    simp only [← Bool.and_assoc, Bool.and_self]
    exact List.Perm.refl _
  unwrapBoolean _ := -2 ^ 31
  describe _ := []

/-! ## Equality in depth -/

/-- The content of a value: a table is a map, whatever the order of its slots. -/
inductive Deep
  | atom (x : Janet)
  | number (x : Double)
  | array (xs : List Deep)
  | tuple (xs : List Deep)
  | table (f : Janet → Option Deep)
  | struct (f : Janet → Option Deep)

namespace Janet

open Classical in
mutual

/-- The content of a value, its numbers seen through `f`. -/
noncomputable def deep (f : Double → Double) : Janet → Deep
  | .number x => .number (f x)
  | .array xs => .array (deepItems f xs)
  | .tuple xs => .tuple (deepItems f xs)
  | .table kvs => .table (deepSlots f kvs)
  | .struct kvs => .struct (deepSlots f kvs)
  | .nil => .atom .nil
  | .boolean b => .atom (.boolean b)
  | .string s => .atom (.string s)
  | .symbol s => .atom (.symbol s)
  | .keyword s => .atom (.keyword s)
  | .buffer s => .atom (.buffer s)
  | .function a => .atom (.function a)
  | .cfunction a => .atom (.cfunction a)
  | .fiber a => .atom (.fiber a)
  | .abstract a => .atom (.abstract a)
  | .pointer a => .atom (.pointer a)

noncomputable def deepItems (f : Double → Double) : List Janet → List Deep
  | [] => []
  | x :: xs => deep f x :: deepItems f xs

/-- The map of the used slots. -/
noncomputable def deepSlots (f : Double → Double) : List (Janet × Janet) → Janet → Option Deep
  | [] => fun _ => none
  | (k, v) :: kvs => fun k' =>
    if k.isNil = false ∧ k = k' then some (deep f v) else deepSlots f kvs k'

end

end Janet

open Binary64 in
/-- The number without the sign of a zero: what `==` compares, but for NaN. -/
def unsign : Double → Double
  | .finite neg i => if (i : ℕ) = 0 then .zero else .finite neg i
  | x => x

/-- Equality in depth: numbers are compared by `==`, so that a value with a NaN
    in it is equal to none. -/
def DeepEq (u v : Janet) : Prop :=
  u.deep unsign = v.deep unsign ∧ v.Forall fun y => ∀ neg, y ≠ .number (.nan neg)

/-! ## Tables as maps -/

theorem forallSlots_iff {P : Janet → Prop} {t : Slots} :
    Janet.ForallSlots P t ↔ ∀ kv ∈ entries t, kv.1.Forall P ∧ kv.2.Forall P := by
  induction t with
  | nil => simp [entries, Janet.ForallSlots]
  | cons kv t ih =>
    obtain ⟨k, v⟩ := kv
    rw [Janet.ForallSlots, ih]
    cases hn : k.isNil with
    | true => rw [entries_cons_nil hn]; simp
    | false => rw [entries_cons hn, List.forall_mem_cons]; simp

theorem heightSlots_le_iff {t : Slots} {n : ℕ} :
    Janet.heightSlots t ≤ n ↔ ∀ kv ∈ entries t, kv.2.height + 1 ≤ n := by
  induction t with
  | nil => simp [entries, Janet.heightSlots]
  | cons kv t ih =>
    obtain ⟨k, v⟩ := kv
    rw [Janet.heightSlots]
    cases hn : k.isNil with
    | true => rw [entries_cons_nil hn, if_pos rfl, ih]
    | false => rw [entries_cons hn, List.forall_mem_cons, if_neg (by decide), max_le_iff, ih]

/-- No two slots of a table have the same key. -/
def WellKeyed (t : Slots) : Prop := ((entries t).map Prod.fst).Nodup

/-- A key that is equal to itself only. -/
def IsKey (k : Janet) : Prop := ∀ k', k.keyEq k' = true ↔ k = k'

theorem isKey_string (s : Bytes) : IsKey (.string s) := fun _ => Janet.keyEq_string.trans eq_comm

theorem isKey_keyword (s : Bytes) : IsKey (.keyword s) := by
  intro k
  cases k <;> simp [Janet.keyEq]

theorem isKey_pointer (a : ℕ) : IsKey (.pointer a) := by
  intro k
  cases k <;> simp [Janet.keyEq]

section Slots

open Janet

variable {rt : Runtime} {f : Double → Double} {t u : Slots} {k v : Janet}

theorem wellKeyed_table : WellKeyed rt.table := by simp [WellKeyed, rt.entries_table]

/-- Without doublets, the map of a table is the set of its entries. -/
theorem deepSlots_eq_some (ht : WellKeyed t) {d : Deep} :
    deepSlots f t k = some d ↔ ∃ v, (k, v) ∈ entries t ∧ d = deep f v := by
  induction t with
  | nil => simp [deepSlots, entries]
  | cons kv t ih =>
    obtain ⟨k', v'⟩ := kv
    rw [WellKeyed, entries] at ht ih
    rw [deepSlots]
    cases hn : k'.isNil with
    | true =>
      simp only [List.filter_cons, hn, Bool.not_true, Bool.false_eq_true, if_false] at ht
      simpa [entries, List.filter_cons, hn] using ih ht
    | false =>
      simp only [List.filter_cons, hn, Bool.not_false, if_true, List.map_cons,
        List.nodup_cons] at ht
      by_cases hk : k' = k
      · subst hk
        have hnot : ∀ v, (k', v) ∉ t.filter fun kv => !kv.1.isNil :=
          fun v hv => ht.1 (List.mem_map.2 ⟨_, hv, rfl⟩)
        simp [entries, hn, hnot, eq_comm]
      · simpa [entries, List.filter_cons, hn, hk, Ne.symm hk] using ih ht.2

theorem deepSlots_table : deepSlots f rt.table = fun _ => none := by
  funext k
  refine Option.eq_none_iff_forall_ne_some.2 fun d hd => ?_
  rw [deepSlots_eq_some wellKeyed_table, rt.entries_table] at hd
  simp at hd

theorem nodup_filter_keyEq (hk : IsKey k) (ht : WellKeyed t) :
    (((entries t).filter fun kv => !k.keyEq kv.1).map Prod.fst).Nodup ∧
      k ∉ ((entries t).filter fun kv => !k.keyEq kv.1).map Prod.fst := by
  refine ⟨ht.sublist (List.filter_sublist.map _), ?_⟩
  simp only [List.mem_map, List.mem_filter, not_exists, not_and]
  rintro ⟨k', v'⟩ ⟨-, h⟩ rfl
  simp [(hk k').2 rfl] at h

/-- What a table holds after a put was put or was there before. -/
theorem mem_entries_put (hk : IsKey k) (hn : k ≠ .nil) {kv : Janet × Janet}
    (h : kv ∈ entries (rt.tablePut t k v)) : kv = (k, v) ∨ kv ∈ entries t := by
  by_cases hv : v = .nil
  · subst hv
    rw [(rt.entries_put_nil ((hk k).2 rfl) hn).mem_iff] at h
    exact .inr (List.mem_filter.1 h).1
  · rw [(rt.entries_put ((hk k).2 rfl) hn hv).mem_iff, List.mem_cons] at h
    exact h.imp_right fun h => (List.mem_filter.1 h).1

theorem wellKeyed_put (hk : IsKey k) (hn : k ≠ .nil) (ht : WellKeyed t) :
    WellKeyed (rt.tablePut t k v) := by
  obtain ⟨h₁, h₂⟩ := nodup_filter_keyEq hk ht
  by_cases hv : v = .nil
  · subst hv
    exact ((rt.entries_put_nil ((hk k).2 rfl) hn).map _).nodup_iff.2 h₁
  · exact ((rt.entries_put ((hk k).2 rfl) hn hv).map _).nodup_iff.2 (List.nodup_cons.2 ⟨h₂, h₁⟩)

open Classical in
/-- `janet_table_put` updates the map of the table. -/
theorem deepSlots_put (hk : IsKey k) (hn : k ≠ .nil) (ht : WellKeyed t) :
    deepSlots f (rt.tablePut t k v) =
      Function.update (deepSlots f t) k (if v = .nil then none else some (deep f v)) := by
  funext k'
  refine Option.ext fun d => ?_
  rw [deepSlots_eq_some (wellKeyed_put hk hn ht)]
  have hne : ∀ {k' v'}, (k', v') ∈ ((entries t).filter fun kv => !k.keyEq kv.1) ↔
      (k', v') ∈ entries t ∧ k' ≠ k := by
    intro k' v'
    rw [List.mem_filter, Bool.not_eq_true', ← Bool.not_eq_true, hk, ne_comm]
  by_cases hv : v = .nil
  · subst hv
    simp only [(rt.entries_put_nil ((hk k).2 rfl) hn).mem_iff, hne, if_true]
    by_cases h : k' = k
    · subst h
      simp
    · simp [deepSlots_eq_some ht, h]
  · simp only [(rt.entries_put ((hk k).2 rfl) hn hv).mem_iff, List.mem_cons, hne, if_neg hv]
    by_cases h : k' = k
    · subst h
      simp [eq_comm]
    · simp [deepSlots_eq_some ht, h]

/-- Looking up a key finds its entry. -/
theorem dictionaryGet_of_mem (hk : IsKey k) (ht : WellKeyed t) (h : (k, v) ∈ entries t) :
    dictionaryGet t k = v := by
  rw [dictionaryGet]
  cases hf : (entries t).find? fun kv => k.keyEq kv.1 with
  | none => exact absurd ((hk k).2 rfl) (List.find?_eq_none.1 hf _ h)
  | some kv =>
    obtain rfl : k = kv.1 := (hk _).1 (List.find?_some hf :)
    have hmem := List.mem_of_find?_eq_some hf
    have := List.inj_on_of_nodup_map ht hmem h rfl
    rw [this]
    rfl

theorem dictionaryGet_eq_nil (hk : IsKey k) (h : ∀ v, (k, v) ∉ entries t) :
    dictionaryGet t k = .nil := by
  rw [dictionaryGet]
  rw [List.find?_eq_none.2]
  · rfl
  · rintro ⟨k', v⟩ hmem heq
    obtain rfl := (hk _).1 heq
    exact h v hmem

theorem dictionaryGet_table (k : Janet) : dictionaryGet rt.table k = .nil := by
  simp [dictionaryGet, rt.entries_table]

/-- What `janet_table_put` has put is found under its key. -/
theorem dictionaryGet_put (hk : IsKey k) (hn : k ≠ .nil) (hv : v ≠ .nil) (ht : WellKeyed t) :
    dictionaryGet (rt.tablePut t k v) k = v := by
  refine dictionaryGet_of_mem hk (wellKeyed_put hk hn ht) ?_
  rw [(rt.entries_put ((hk k).2 rfl) hn hv).mem_iff]
  exact List.mem_cons_self

/-- What is found under the other keys stays. -/
theorem dictionaryGet_put_of_ne (hk : IsKey k) (hn : k ≠ .nil) (hv : v ≠ .nil) (ht : WellKeyed t)
    {k' : Janet} (hk' : IsKey k') (hne : k' ≠ k) :
    dictionaryGet (rt.tablePut t k v) k' = dictionaryGet t k' := by
  have hmem : ∀ w, (k', w) ∈ entries (rt.tablePut t k v) ↔ (k', w) ∈ entries t := by
    intro w
    rw [(rt.entries_put ((hk k).2 rfl) hn hv).mem_iff, List.mem_cons, List.mem_filter,
      Prod.mk.injEq, Bool.not_eq_true', ← Bool.not_eq_true, hk]
    simp [hne, Ne.symm hne]
  by_cases hw : ∃ w, (k', w) ∈ entries t
  · obtain ⟨w, hw⟩ := hw
    rw [dictionaryGet_of_mem hk' (wellKeyed_put hk hn ht) ((hmem w).2 hw),
      dictionaryGet_of_mem hk' ht hw]
  · rw [not_exists] at hw
    rw [dictionaryGet_eq_nil hk' hw, dictionaryGet_eq_nil hk' fun w => (hmem w).not.2 (hw w)]

/-- The table that the pairs are put into, one after the other. -/
def putAll (rt : Runtime) (kvs : Slots) : Slots :=
  kvs.foldl (fun t kv => rt.tablePut t kv.1 kv.2) rt.table

@[simp] theorem putAll_concat (kvs : Slots) (kv : Janet × Janet) :
    putAll rt (kvs ++ [kv]) = rt.tablePut (putAll rt kvs) kv.1 kv.2 := by
  simp [putAll]

/-- Every pair is found under its key, if no key comes twice. -/
theorem dictionaryGet_putAll {kvs : Slots}
    (hkvs : ∀ kv ∈ kvs, IsKey kv.1 ∧ kv.1 ≠ .nil ∧ kv.2 ≠ .nil)
    (hnodup : (kvs.map Prod.fst).Nodup) :
    WellKeyed (putAll rt kvs) ∧ ∀ kv ∈ kvs, dictionaryGet (putAll rt kvs) kv.1 = kv.2 := by
  induction kvs using List.reverseRecOn with
  | nil => exact ⟨wellKeyed_table, by simp⟩
  | append_singleton kvs kv ih =>
    rw [List.map_append, List.nodup_append] at hnodup
    obtain ⟨ht, hget⟩ := ih (fun kv h => hkvs kv (List.mem_append_left _ h)) hnodup.1
    obtain ⟨hk, hn, hv⟩ := hkvs kv (by simp)
    rw [putAll_concat]
    refine ⟨wellKeyed_put hk hn ht, fun kv' h => ?_⟩
    rcases List.mem_append.1 h with h | h
    · have hne : kv'.1 ≠ kv.1 :=
        hnodup.2.2 _ (List.mem_map_of_mem h) _ (by simp)
      rw [dictionaryGet_put_of_ne hk hn hv ht (hkvs kv' (List.mem_append_left _ h)).1 hne,
        hget kv' h]
    · obtain rfl := List.mem_singleton.1 h
      exact dictionaryGet_put hk hn hv ht

end Slots

end PunyGui
