import PunyGui.Registry
import PunyGui.Sqlite.Eval

/-!
# Parameters by position and by number

`bindmany` with a list, and with a dictionary that has the same values under the
numbers of the parameters.

* `Bindings`: what is assumed of SQLite.
* `Assigns`: the values are bound, and nothing else changes.
* `BindsAlike`: what the two forms should do.
* `bindmany_alike_iff`: they do it, unless there is one value too many.
-/

namespace PunyGui.Sqlite

open Registry

/-- What a parameter has once a value is bound to it: SQLite takes a NaN for NULL. -/
def SqlValue.kept : SqlValue → SqlValue
  | .float (.nan _) => .null
  | v => v

/-- What is assumed of SQLite. -/
structure Bindings (S : Library) where
  /-- The values of the parameters, which are numbered from 1. -/
  value : S.Stmt → ℕ → SqlValue
  /-- `sqlite3_bind_parameter_count` returns an `int`. -/
  count_lt (stmt : S.Stmt) : S.bindParameterCount stmt < 2 ^ 31
  /-- Binding a value changes nothing but the value of its parameter. -/
  bind_ok {stmt : S.Stmt} {i : ℕ} (h₁ : 1 ≤ i) (h₂ : i ≤ S.bindParameterCount stmt)
    (v : SqlValue) : ∃ stmt', S.bind stmt i v = .ok stmt' ∧
      S.bindParameterCount stmt' = S.bindParameterCount stmt ∧
      value stmt' = Function.update (value stmt) i v.kept
  /-- There is no parameter after the last one; `SQLITE_RANGE` has a message of its own. -/
  bind_range {stmt : S.Stmt} {i : ℕ} (h : S.bindParameterCount stmt < i) (v : SqlValue) :
    ∃ msg, S.bind stmt i v = .error msg ∧ msg ≠ "invalid index in sql parameters"

variable {rt : Runtime} {S : Library} {w : Connection S} {h : Handle S}

/-! ## Binding -/

/-- What a parameter has for a value of Janet. -/
def held (rt : Runtime) (x : Janet) : Except String SqlValue := (bindable rt x).map SqlValue.kept

theorem exists_bindable {x : Janet} {v : SqlValue} (hx : held rt x = .ok v) :
    ∃ u, bindable rt x = .ok u ∧ u.kept = v := by
  rw [held] at hx
  cases hu : bindable rt x with
  | error msg => rw [hu] at hx; cases hx
  | ok u => rw [hu] at hx; exact ⟨u, rfl, Except.ok.inj hx⟩

/-- The values are put for the parameters, one after the other. -/
def Bindings.Assigns (B : Bindings S) (h : Handle S) (log : List (ℕ × SqlValue))
    (r : Connection S × Except String (Handle S)) : Prop :=
  ∃ w' h', r = (w', .ok h') ∧ S.bindParameterCount h'.stmt = S.bindParameterCount h.stmt ∧
    B.value h'.stmt = assign (B.value h.stmt) log

section Binding

variable {w₁ : Connection S} {h₁ : Handle S} {i : ℕ} {x : Janet} {xs : List Janet}
  {vs : List SqlValue}

theorem bind1_of_ok {v : SqlValue} (hx : bindable rt x = .ok v) {stmt : S.Stmt}
    (hs : S.bind h.stmt i v = .ok stmt) :
    bind1 rt w h i x = (w.record (.bind h.id), .ok { h with stmt }) := by
  rw [bind1, hx]
  exact congrArg (Prod.mk (w.record (.bind h.id))) (by rw [hs]; rfl)

theorem bind1_of_error {v : SqlValue} (hx : bindable rt x = .ok v) {msg : String}
    (hs : S.bind h.stmt i v = .error msg) :
    bind1 rt w h i x = (w.record (.bind h.id), .error msg) := by
  rw [bind1, hx]
  exact congrArg (Prod.mk (w.record (.bind h.id))) (by rw [hs]; rfl)

theorem bindIndexed_of_ok (hb : bind1 rt w h (i + 1 : ℕ) x = (w₁, .ok h₁)) :
    bindIndexed rt w h i (x :: xs) = bindIndexed rt w₁ h₁ (i + 1) xs := by
  rw [bindIndexed, ← Nat.cast_succ, hb]

theorem bindIndexed_of_error {msg : String}
    (hb : bind1 rt w h (i + 1 : ℕ) x = (w₁, .error msg)) :
    bindIndexed rt w h i (x :: xs) = (w₁, .error msg) := by
  rw [bindIndexed, ← Nat.cast_succ, hb]

variable (B : Bindings S)

theorem assigns_bind1 (h₁ : 1 ≤ i) (h₂ : i ≤ S.bindParameterCount h.stmt) {v : SqlValue}
    (hx : held rt x = .ok v) (w : Connection S) : B.Assigns h [(i, v)] (bind1 rt w h i x) := by
  obtain ⟨u, hu, rfl⟩ := exists_bindable hx
  obtain ⟨stmt, hs, hc, hv⟩ := B.bind_ok h₁ h₂ u
  exact ⟨_, { h with stmt }, bind1_of_ok hu hs, hc, hv⟩

/-- Binding by position puts the values in order. -/
theorem assigns_bindIndexed (hxs : List.Forall₂ (fun x v => held rt x = .ok v) xs vs)
    (hi : i + xs.length ≤ S.bindParameterCount h.stmt) (w : Connection S) :
    B.Assigns h ((vs.zipIdx (i + 1)).map Prod.swap) (bindIndexed rt w h i xs) := by
  induction hxs generalizing w h i with
  | nil => exact ⟨w, h, rfl, rfl, rfl⟩
  | @cons x v xs vs hx _ ih =>
    rw [List.length_cons] at hi
    obtain ⟨w₁, h₁, hb, hc, hv⟩ := assigns_bind1 (h := h) B (Nat.le_add_left 1 i) (by omega) hx w
    obtain ⟨w₂, h₂, hr, hc', hv'⟩ := ih (h := h₁) (i := i + 1) (by rw [hc]; omega) w₁
    refine ⟨w₂, h₂, (bindIndexed_of_ok hb).trans hr, hc'.trans hc, ?_⟩
    rw [hv', hv]
    rfl

include B in
/-- One value too many gets an error of SQLite. -/
theorem bindIndexed_range (hxs : ∀ x ∈ xs, ∃ v, held rt x = .ok v)
    (hi : i ≤ S.bindParameterCount h.stmt)
    (hlen : i + xs.length = S.bindParameterCount h.stmt + 1) (w : Connection S) :
    ∃ w' msg, bindIndexed rt w h i xs = (w', .error msg) ∧
      msg ≠ "invalid index in sql parameters" := by
  induction xs generalizing w h i with
  | nil =>
    rw [List.length_nil] at hlen
    omega
  | cons x xs ih =>
    obtain ⟨v, hx⟩ := hxs x List.mem_cons_self
    rw [List.length_cons] at hlen
    rcases hi.eq_or_lt with heq | hlt
    · -- The parameter after the last one.
      obtain ⟨u, hu, -⟩ := exists_bindable hx
      have hrange : S.bindParameterCount h.stmt < i + 1 := by omega
      obtain ⟨msg, hs, hne⟩ := B.bind_range hrange u
      exact ⟨_, msg, bindIndexed_of_error (bind1_of_error hu hs), hne⟩
    · obtain ⟨w₁, h₁, hb, hc, -⟩ := assigns_bind1 B (Nat.le_add_left 1 i) hlt hx w
      obtain ⟨w₂, msg, hr, hne⟩ := ih (h := h₁) (i := i + 1)
        (fun y hy => hxs y (List.mem_cons_of_mem x hy)) (by omega) (by omega) w₁
      exact ⟨w₂, msg, (bindIndexed_of_ok hb).trans hr, hne⟩

end Binding

/-! ## Numbers as keys -/

section Keys

variable {w₁ : Connection S} {h₁ : Handle S} {k x : Janet} {kvs : Slots} {n : ℕ}

/-- No parameter has the index. -/
def IsOut (n : ℕ) (index : ℤ) : Prop := index ≤ 0 ∨ index > n

theorem bindSlots_of_nil (hk : k.isNil = true) :
    bindSlots rt w h n ((k, x) :: kvs) = bindSlots rt w h n kvs := by
  rw [bindSlots, if_pos hk]

theorem bindSlots_of_out (hk : k.isNil = false) (hout : IsOut n (keyIndex h.stmt k)) :
    bindSlots rt w h n ((k, x) :: kvs) = (w, .error "invalid index in sql parameters") := by
  rw [bindSlots, hk, if_neg Bool.false_ne_true]
  exact if_pos hout

theorem bindSlots_of_ok (hk : k.isNil = false) (hout : ¬IsOut n (keyIndex h.stmt k))
    (hb : bind1 rt w h (keyIndex h.stmt k) x = (w₁, .ok h₁)) :
    bindSlots rt w h n ((k, x) :: kvs) = bindSlots rt w₁ h₁ n kvs := by
  rw [IsOut] at hout
  rw [bindSlots, hk, if_neg Bool.false_ne_true]
  dsimp only
  rw [if_neg hout, hb]

theorem isInt32_natCast {i : ℕ} : Janet.isInt32 i = true ↔ i < 2 ^ 31 := by
  rw [Janet.isInt32, Bool.and_eq_true, decide_eq_true_iff, decide_eq_true_iff]
  omega

/-- A number that is a 32-bit integer is its own index. -/
theorem keyIndex_integer {stmt : S.Stmt} {i : ℕ} (hi : i ≤ 2 ^ 31) :
    keyIndex stmt (Janet.integer i) = if i < 2 ^ 31 then (i : ℤ) else 0 := by
  change (Janet.integer i).checkint.getD 0 = _
  rw [Janet.checkint_integer (by omega), apply_ite (Option.getD · 0)]
  simp only [isInt32_natCast, Option.getD_some, Option.getD_none]

/-- The number after the last parameter is out, also where it has more than 32 bits. -/
theorem isOut_succ {stmt : S.Stmt} (hn : n < 2 ^ 31) :
    IsOut n (keyIndex stmt (Janet.integer (n + 1 : ℕ))) := by
  rw [keyIndex_integer hn]
  split_ifs
  · exact .inr (by omega)
  · exact .inl le_rfl

variable (B : Bindings S)

/-- Binding by number puts the values in the order of the slots. -/
theorem assigns_bindSlots {log : List (ℕ × SqlValue)}
    (hkvs : List.Forall₂ (fun kv u => kv.1 = Janet.integer u.1 ∧ held rt kv.2 = .ok u.2)
      (entries kvs) log) (hlog : ∀ u ∈ log, 1 ≤ u.1 ∧ u.1 ≤ n)
    (hn : S.bindParameterCount h.stmt = n) (w : Connection S) :
    B.Assigns h log (bindSlots rt w h n kvs) := by
  -- On the slots: an empty one is skipped, any other takes the next pair of the log.
  induction kvs generalizing w h log with
  | nil =>
    cases hkvs
    exact ⟨w, h, rfl, rfl, rfl⟩
  | cons kv kvs ih =>
    obtain ⟨k, x⟩ := kv
    cases hk : k.isNil with
    | true =>
      rw [entries_cons_nil hk] at hkvs
      rw [bindSlots_of_nil hk]
      exact ih hkvs hlog hn w
    | false =>
      rw [entries_cons hk] at hkvs
      rcases hkvs with - | ⟨⟨rfl, hx⟩, hkvs⟩
      rename_i u log
      obtain ⟨h₁, h₂⟩ := hlog u List.mem_cons_self
      have hlt := B.count_lt h.stmt
      have hkey : keyIndex h.stmt (Janet.integer u.1) = u.1 := by
        rw [keyIndex_integer (by omega), if_pos (by omega)]
      have hout : ¬IsOut n (keyIndex h.stmt (Janet.integer u.1)) := by
        rw [hkey, IsOut]
        omega
      obtain ⟨w₁, h₁, hb, hc, hv⟩ := assigns_bind1 (h := h) B h₁ (hn ▸ h₂) hx w
      obtain ⟨w₂, h₂, hr, hc', hv'⟩ := ih (h := h₁) hkvs
        (fun u hu => hlog u (List.mem_cons_of_mem _ hu)) (hc.trans hn) w₁
      refine ⟨w₂, h₂, ?_, hc'.trans hc, ?_⟩
      · rw [bindSlots_of_ok hk hout (hkey ▸ hb), hr]
      · rw [hv', hv]
        rfl

include B in
/-- If there is a number without a parameter, it is found, whatever the order of the slots. -/
theorem bindSlots_error
    (hkvs : ∀ kv ∈ entries kvs, (∃ d, kv.1 = .number d) ∧ ∃ v, held rt kv.2 = .ok v)
    (hout : ∃ kv ∈ entries kvs, ∀ stmt : S.Stmt, IsOut n (keyIndex stmt kv.1))
    (hn : S.bindParameterCount h.stmt = n) (w : Connection S) :
    ∃ w', bindSlots rt w h n kvs = (w', .error "invalid index in sql parameters") := by
  induction kvs generalizing w h with
  | nil =>
    obtain ⟨kv, hkv, -⟩ := hout
    cases hkv
  | cons kv kvs ih =>
    obtain ⟨k, x⟩ := kv
    cases hk : k.isNil with
    | true =>
      rw [entries_cons_nil hk] at hkvs hout
      rw [bindSlots_of_nil hk]
      exact ih hkvs hout hn w
    | false =>
      rw [entries_cons hk] at hkvs hout
      obtain ⟨⟨d, rfl⟩, v, hx⟩ := hkvs (k, x) List.mem_cons_self
      by_cases ho : IsOut n (keyIndex h.stmt (.number d))
      · exact ⟨w, bindSlots_of_out hk ho⟩
      · -- This slot is bound, so another one is out.
        obtain ⟨kv, hmem, hkv⟩ := hout
        have hrest : kv ∈ entries kvs := by
          rcases List.mem_cons.1 hmem with rfl | hmem
          · exact absurd (hkv h.stmt) ho
          · exact hmem
        obtain ⟨i, hi⟩ : ∃ i : ℕ, keyIndex h.stmt (.number d) = i := by
          rw [IsOut] at ho
          exact ⟨_, (Int.toNat_of_nonneg (by omega)).symm⟩
        rw [hi, IsOut] at ho
        obtain ⟨w₁, h₁, hb, hc, -⟩ :=
          assigns_bind1 (h := h) (i := i) B (by omega) (by omega) hx w
        obtain ⟨w₂, hr⟩ := ih (h := h₁) (fun kv hkv => hkvs kv (List.mem_cons_of_mem _ hkv))
          ⟨kv, hrest, hkv⟩ (hc.trans hn) w₁
        exact ⟨w₂, (bindSlots_of_ok hk (hi ▸ ho) (hi ▸ hb)).trans hr⟩

end Keys

/-! ## The two forms -/

/-- A list of values: an array or a tuple. -/
def IsIndexed (xs : List Janet) (seq : Janet) : Prop := seq = .array xs ∨ seq = .tuple xs

/-- The values under the numbers of the parameters. -/
def numbered (xs : List Janet) : Slots := (xs.zipIdx 1).map fun p => (Janet.integer p.2, p.1)

/-- A dictionary with these entries, in any order. -/
def IsNumbered (xs : List Janet) (dict : Janet) : Prop :=
  ∃ kvs, (dict = .table kvs ∨ dict = .struct kvs) ∧ (entries kvs).Perm (numbered xs)

/-- Every parameter has its value, and those that are left have NULL. -/
def Bindings.Holds (B : Bindings S) (stmt : S.Stmt) (vs : List SqlValue) : Prop :=
  ∀ i, B.value stmt (i + 1) = vs[i]?.getD .null

/-- What the two forms should do with so many values: both bind them, or both fail, and
    the first one does so before it has bound anything. -/
structure BindsAlike (B : Bindings S) (rt : Runtime) (w : Connection S) (h : Handle S)
    (vs : List SqlValue) (seq dict : Janet) : Prop where
  success (hlen : vs.length ≤ S.bindParameterCount h.stmt) : ∃ w₁ h₁ w₂ h₂,
    bindmany rt w h seq = (w₁, .ok h₁) ∧ bindmany rt w h dict = (w₂, .ok h₂) ∧
      B.Holds h₁.stmt vs ∧ B.Holds h₂.stmt vs
  failure (hlen : S.bindParameterCount h.stmt < vs.length) :
    bindmany rt w h seq = (w, .error "invalid index in sql parameters") ∧
      ∃ w', bindmany rt w h dict = (w', .error "invalid index in sql parameters")

section Alike

variable {xs : List Janet} {vs : List SqlValue} {seq dict : Janet}

theorem exists_held (hxs : List.Forall₂ (fun x v => held rt x = .ok v) xs vs) :
    ∀ x ∈ xs, ∃ v, held rt x = .ok v := by
  induction hxs with
  | nil => nofun
  | cons hx _ ih => exact List.forall_mem_cons.2 ⟨⟨_, hx⟩, ih⟩

theorem bindmany_indexed (hseq : IsIndexed xs seq) : bindmany rt w h seq =
    if xs.length > S.bindParameterCount h.stmt + 1 then
      (w, .error "invalid index in sql parameters")
    else bindIndexed rt w h 0 xs := by
  rcases hseq with rfl | rfl <;> rfl

theorem forall₂_numbered (hxs : List.Forall₂ (fun x v => held rt x = .ok v) xs vs) :
    List.Forall₂ (fun kv u => kv.1 = Janet.integer u.1 ∧ held rt kv.2 = .ok u.2) (numbered xs)
      ((vs.zipIdx 1).map Prod.swap) := by
  rw [numbered]
  generalize 1 = k
  induction hxs generalizing k with
  | nil => exact .nil
  | cons hx _ ih => exact .cons ⟨rfl, hx⟩ (ih (k + 1))

theorem mem_numbered {kv : Janet × Janet} (h : kv ∈ numbered xs) :
    (∃ d, kv.1 = .number d) ∧ kv.2 ∈ xs := by
  obtain ⟨p, hp, rfl⟩ := List.mem_map.1 h
  exact ⟨⟨_, rfl⟩, List.fst_mem_of_mem_zipIdx hp⟩

/-- The values put under the numbers, in whatever order. -/
theorem holds_of_perm {stmt stmt' : S.Stmt} (B : Bindings S) (hfresh : ∀ i, B.value stmt i = .null)
    {log : List (ℕ × SqlValue)} (hlog : log.Perm ((vs.zipIdx 1).map Prod.swap))
    (hs : B.value stmt' = assign (B.value stmt) log) : B.Holds stmt' vs := by
  intro i
  have hnodup : (log.map Prod.fst).Nodup := by
    refine (hlog.map _).nodup_iff.2 ?_
    rw [List.map_map]
    exact (List.zipIdx_map_snd 1 vs).symm ▸ List.nodup_range'
  rw [hs, assign_perm hlog hnodup, assign_zipIdx, if_pos (Nat.le_add_left 1 i), hfresh,
    Nat.add_sub_cancel]

/-- Where there are parameters enough, both forms bind all values. -/
theorem bindmany_success (B : Bindings S) (hfresh : ∀ i, B.value h.stmt i = .null)
    (hxs : List.Forall₂ (fun x v => held rt x = .ok v) xs vs) (hseq : IsIndexed xs seq)
    (hdict : IsNumbered xs dict) (hlen : vs.length ≤ S.bindParameterCount h.stmt) :
    ∃ w₁ h₁ w₂ h₂, bindmany rt w h seq = (w₁, .ok h₁) ∧ bindmany rt w h dict = (w₂, .ok h₂) ∧
      B.Holds h₁.stmt vs ∧ B.Holds h₂.stmt vs := by
  have hle : xs.length ≤ S.bindParameterCount h.stmt := hxs.length_eq ▸ hlen
  obtain ⟨w₁, h₁, hr₁, -, hv₁⟩ := assigns_bindIndexed (h := h) (i := 0) B hxs (by omega) w
  obtain ⟨kvs, hkvs, hperm⟩ := hdict
  -- The slots are a rearrangement of the values in order.
  obtain ⟨log, hlog, hlogp⟩ := List.perm_comp_forall₂ hperm (forall₂_numbered hxs)
  have hrange : ∀ u ∈ log, 1 ≤ u.1 ∧ u.1 ≤ S.bindParameterCount h.stmt := by
    intro u hu
    obtain ⟨p, hp, rfl⟩ := List.mem_map.1 (hlogp.mem_iff.1 hu)
    have hmem := List.mem_zipIdx hp
    exact ⟨hmem.1, by simp only [Prod.fst_swap]; omega⟩
  obtain ⟨w₂, h₂, hr₂, -, hv₂⟩ := assigns_bindSlots B hlog hrange rfl w
  refine ⟨w₁, h₁, w₂, h₂, ?_, ?_, holds_of_perm B hfresh (List.Perm.refl _) hv₁,
    holds_of_perm B hfresh hlogp hv₂⟩
  · rw [bindmany_indexed hseq, if_neg (by omega), hr₁]
  · rcases hkvs with rfl | rfl <;> exact hr₂

/-- Where there are not, binding by number fails. -/
theorem bindmany_dict_failure (B : Bindings S)
    (hxs : List.Forall₂ (fun x v => held rt x = .ok v) xs vs) (hdict : IsNumbered xs dict)
    (hlen : S.bindParameterCount h.stmt < xs.length) :
    ∃ w', bindmany rt w h dict = (w', .error "invalid index in sql parameters") := by
  obtain ⟨kvs, hkvs, hperm⟩ := hdict
  have hentries : ∀ kv ∈ entries kvs, (∃ d, kv.1 = .number d) ∧ ∃ v, held rt kv.2 = .ok v := by
    intro kv hkv
    obtain ⟨hd, hx⟩ := mem_numbered (hperm.mem_iff.1 hkv)
    exact ⟨hd, exists_held hxs kv.2 hx⟩
  have hout : ∃ kv ∈ entries kvs, ∀ stmt : S.Stmt,
      IsOut (S.bindParameterCount h.stmt) (keyIndex stmt kv.1) := by
    have hmem : (_, 1 + S.bindParameterCount h.stmt) ∈ xs.zipIdx 1 :=
      List.mk_add_mem_zipIdx_iff_getElem?.2 (List.getElem?_eq_getElem hlen)
    refine ⟨_, hperm.mem_iff.2 (List.mem_map_of_mem hmem), fun stmt => ?_⟩
    rw [Nat.add_comm]
    exact isOut_succ (B.count_lt h.stmt)
  obtain ⟨w', hr⟩ := bindSlots_error B hentries hout rfl w
  exact ⟨w', by rcases hkvs with rfl | rfl <;> exact hr⟩

/-- On a fresh statement the two forms do alike, unless there is one value more than
    there are parameters: then binding by position fails in SQLite, with the others bound. -/
theorem bindmany_alike_iff (B : Bindings S) (hfresh : ∀ i, B.value h.stmt i = .null)
    (hxs : List.Forall₂ (fun x v => held rt x = .ok v) xs vs) (hseq : IsIndexed xs seq)
    (hdict : IsNumbered xs dict) :
    BindsAlike B rt w h vs seq dict ↔ xs.length ≠ S.bindParameterCount h.stmt + 1 := by
  have hlen := hxs.length_eq
  constructor
  · intro halike heq
    have hseq' := (halike.failure (by omega)).1
    obtain ⟨w', msg, hr, hne⟩ :=
      bindIndexed_range (h := h) B (exists_held hxs) (Nat.zero_le _) (by omega) w
    rw [bindmany_indexed hseq, if_neg (by omega), hr] at hseq'
    exact hne (Except.error.inj (Prod.mk.inj hseq').2)
  · intro hne
    refine ⟨bindmany_success B hfresh hxs hseq hdict, fun hlt => ⟨?_, ?_⟩⟩
    · rw [bindmany_indexed hseq, if_pos (by omega)]
    · exact bindmany_dict_failure B hxs hdict (by omega)

end Alike

/-! ## Statements that only have parameters -/

/-- A library whose statements are the values of `n` parameters. -/
def Library.parameters (n : ℕ) : Library where
  Db := Unit
  Stmt := ℕ → SqlValue
  prepare _ _ := .ok (none, [])
  step _ stmt := (.done, (), stmt)
  columnNames _ := []
  column _ _ := .null
  bindParameterCount _ := n
  bindParameterIndex _ _ := 0
  bind stmt i v :=
    if 1 ≤ i ∧ i ≤ n then .ok (Function.update stmt i.toNat v.kept)
    else .error "column index out of range"

def Bindings.parameters (n : ℕ) (hn : n < 2 ^ 31) : Bindings (Library.parameters n) where
  value stmt := stmt
  count_lt _ := hn
  bind_ok {stmt i} h₁ h₂ v :=
    ⟨Function.update stmt i v.kept, if_pos ⟨Int.ofNat_le.2 h₁, Int.ofNat_le.2 h₂⟩, rfl, rfl⟩
  bind_range {_ i} h _ :=
    ⟨_, if_neg fun hi => Nat.not_le.2 h (Int.ofNat_le.1 hi.2), by decide⟩

/-- A fresh statement of this library. -/
def freshHandle (n : ℕ) : Handle (Library.parameters n) := ⟨0, fun _ => .null⟩

theorem isNumbered_struct (xs : List Janet) : IsNumbered xs (.struct (numbered xs)) := by
  refine ⟨_, .inr rfl, ?_⟩
  rw [entries, List.filter_eq_self.2 fun kv hkv => ?_]
  obtain ⟨⟨d, hd⟩, -⟩ := mem_numbered hkv
  rw [hd]
  rfl

theorem bindmany_alike_iff_one :
    BindsAlike (Bindings.parameters 2 (by decide)) Runtime.assoc ⟨(), 0, []⟩ (freshHandle 2)
        [.text [0x61]] (.tuple [.string [0x61]]) (.struct (numbered [.string [0x61]])) ↔
      [Janet.string [0x61]].length ≠ 2 + 1 :=
  bindmany_alike_iff (Bindings.parameters 2 (by decide)) (fun _ => rfl) (.cons rfl .nil)
    (.inr rfl) (isNumbered_struct _)

/-- With two values for one parameter, the first one is bound before the error, which is
    that of SQLite. -/
theorem bindmany_one_too_many :
    ¬BindsAlike (Bindings.parameters 1 (by decide)) Runtime.assoc ⟨(), 0, []⟩ (freshHandle 1)
      [.text [0x61], .text [0x62]] (.tuple [.string [0x61], .string [0x62]])
      (.struct (numbered [.string [0x61], .string [0x62]])) := by
  intro halike
  have hseq := (halike.failure (by decide)).1
  cases congrArg (fun r => r.1.calls) hseq

end PunyGui.Sqlite
