import PunyGui.History
import PunyGui.Sqlite.Script

/-!
# The account of the statements

What `sql_eval` does with the statements it prepares, seen in the calls that it
makes: every statement is finalized once, used only before that, and stepped only
after those before it have been stepped to their ends.

* `Permitted`: when a call may be made.
* `Head`: what holds of the calls at the head of the loop.
* `Accounted`: what holds of them at the end, also of an error.
* `sqlEval_accounts`: it holds whatever SQLite returns.
-/

namespace PunyGui.Sqlite

open Text History

/-- A call may be made: a statement gets the next number, it is used and finalized
    while it is not finalized, and it is stepped if it has not come to its end, but
    all before it have. -/
def Permitted (past : List Call) : Call → Prop
  | .prepare none => True
  | .prepare (some k) => ∀ j, .prepare (some j) ∈ past → j < k
  | .bind k => .prepare (some k) ∈ past ∧ .finalize k ∉ past
  | .step k _ => (.prepare (some k) ∈ past ∧ .finalize k ∉ past) ∧ .step k .done ∉ past ∧
    ∀ j < k, .prepare (some j) ∈ past → .step j .done ∈ past
  | .finalize k => .prepare (some k) ∈ past ∧ .finalize k ∉ past

/-- Every call was permitted, and no statement is left. -/
structure Accounted (tr : List Call) : Prop where
  along : Along Permitted tr
  finalized (k : ℕ) (h : .prepare (some k) ∈ tr) : .finalize k ∈ tr

/-- Every statement is finalized exactly once. -/
theorem Accounted.count_finalize {tr : List Call} (h : Accounted tr) {k : ℕ}
    (hk : .prepare (some k) ∈ tr) : tr.count (.finalize k) = 1 :=
  h.along.count_eq_one (fun _ hp => hp.2) (h.finalized k hk)

/-- The books of the calls: the statements are numbered from `first` to `next`, those
    in `todo` have not come to their ends, and those in `left` are not finalized. -/
structure Ledger (first next : ℕ) (todo left : List ℕ) (tr : List Call) : Prop where
  along : Along Permitted tr
  le : first ≤ next
  prepared (k : ℕ) : .prepare (some k) ∈ tr ↔ first ≤ k ∧ k < next
  done (k : ℕ) : .step k .done ∈ tr ↔ .prepare (some k) ∈ tr ∧ k ∉ todo
  finalized (k : ℕ) : .finalize k ∈ tr ↔ .prepare (some k) ∈ tr ∧ k ∉ left
  left_prepared : ∀ k ∈ left, .prepare (some k) ∈ tr

theorem ledger_nil (n : ℕ) : Ledger n n [] [] [] where
  along := along_nil
  le := le_rfl
  prepared k := by simp
  done k := by simp
  finalized k := by simp
  left_prepared := by simp

section Ledger

variable {first next k : ℕ} {todo todo' left left' : List ℕ} {tr : List Call}
  (h : Ledger first next todo left tr)

include h

theorem Ledger.accounted (hleft : left = []) : Accounted tr where
  along := h.along
  finalized k hk := (h.finalized k).2 ⟨hk, by simp [hleft]⟩

/-- A call that neither begins nor ends anything. -/
theorem Ledger.plain {c : Call} (hperm : Permitted tr c) (hp : ∀ k, c ≠ .prepare (some k))
    (hd : ∀ k, c ≠ .step k .done) (hf : ∀ k, c ≠ .finalize k) :
    Ledger first next todo left (tr ++ [c]) where
  along := along_concat.2 ⟨h.along, hperm⟩
  le := h.le
  prepared k := by simpa [(hp k).symm] using h.prepared k
  done k := by simpa [(hp k).symm, (hd k).symm] using h.done k
  finalized k := by simpa [(hp k).symm, (hf k).symm] using h.finalized k
  left_prepared k hk := List.mem_append_left _ (h.left_prepared k hk)

theorem Ledger.prepareNone : Ledger first next todo left (tr ++ [.prepare none]) :=
  h.plain trivial nofun nofun nofun

theorem Ledger.prepareSome (htodo : ∀ j, j ∈ todo' ↔ j = next ∨ j ∈ todo)
    (hleft : ∀ j, j ∈ left' ↔ j = next ∨ j ∈ left) :
    Ledger first (next + 1) todo' left' (tr ++ [.prepare (some next)]) where
  along := along_concat.2 ⟨h.along, fun j hj => ((h.prepared j).1 hj).2⟩
  le := h.le.trans (Nat.le_succ next)
  prepared k := by
    have := h.prepared k
    have := h.le
    simp only [List.mem_append, List.mem_singleton, Call.prepare.injEq, Option.some.injEq]
    grind
  done k := by
    have := h.prepared k
    simp only [List.mem_append, List.mem_singleton, Call.prepare.injEq, Option.some.injEq, h.done,
      htodo, reduceCtorEq, or_false]
    grind
  finalized k := by
    have := h.prepared k
    simp only [List.mem_append, List.mem_singleton, Call.prepare.injEq, Option.some.injEq,
      h.finalized, hleft, reduceCtorEq, or_false]
    grind
  left_prepared k hk := by
    simp only [List.mem_append, List.mem_singleton, Call.prepare.injEq, Option.some.injEq]
    exact ((hleft k).1 hk).symm.imp (h.left_prepared k) id

/-- A statement may be used if it is not finalized. -/
theorem Ledger.usable (hk : k ∈ left) : .prepare (some k) ∈ tr ∧ .finalize k ∉ tr :=
  ⟨h.left_prepared k hk, (h.finalized k).not.2 fun hf => hf.2 hk⟩

/-- It may be stepped if it is the first one that has not come to its end. -/
theorem Ledger.steppable (hk : k ∈ left) (hkt : k ∈ todo) (hfirst : ∀ j ∈ todo, k ≤ j)
    (status : Status) : Permitted tr (.step k status) := by
  refine ⟨h.usable hk, (h.done k).not.2 fun hd => hd.2 hkt, fun j hj hp => ?_⟩
  exact (h.done j).2 ⟨hp, fun ht => absurd (hfirst j ht) (Nat.not_le.2 hj)⟩

theorem Ledger.bind (hk : k ∈ left) (m : ℕ) :
    Ledger first next todo left (tr ++ List.replicate m (.bind k)) := by
  induction m with
  | zero => simpa using h
  | succ m ih =>
    rw [List.replicate_succ', ← List.append_assoc]
    exact ih.plain (ih.usable hk) nofun nofun nofun

theorem Ledger.rows (hk : k ∈ left) (hkt : k ∈ todo) (hfirst : ∀ j ∈ todo, k ≤ j) (m : ℕ) :
    Ledger first next todo left (tr ++ List.replicate m (.step k .row)) := by
  induction m with
  | zero => simpa using h
  | succ m ih =>
    rw [List.replicate_succ', ← List.append_assoc]
    exact ih.plain (ih.steppable hk hkt hfirst .row) nofun nofun nofun

theorem Ledger.error (hk : k ∈ left) (hkt : k ∈ todo) (hfirst : ∀ j ∈ todo, k ≤ j)
    (msg : String) : Ledger first next todo left (tr ++ [.step k (.error msg)]) :=
  h.plain (h.steppable hk hkt hfirst _) nofun nofun nofun

theorem Ledger.complete (hk : k ∈ left) (hkt : k ∈ todo) (hfirst : ∀ j ∈ todo, k ≤ j)
    (htodo : ∀ j, j ∈ todo' ↔ j ∈ todo ∧ j ≠ k) :
    Ledger first next todo' left (tr ++ [.step k .done]) where
  along := along_concat.2 ⟨h.along, h.steppable hk hkt hfirst _⟩
  le := h.le
  prepared k := by simpa using h.prepared k
  done j := by
    have := h.left_prepared k hk
    simp only [List.mem_append, List.mem_singleton, Call.step.injEq, and_true, reduceCtorEq,
      or_false, h.done, htodo]
    grind
  finalized k := by simpa using h.finalized k
  left_prepared k hk := List.mem_append_left _ (h.left_prepared k hk)

theorem Ledger.finalize (hk : k ∈ left) (hleft : ∀ j, j ∈ left' ↔ j ∈ left ∧ j ≠ k) :
    Ledger first next todo left' (tr ++ [.finalize k]) where
  along := along_concat.2 ⟨h.along, h.usable hk⟩
  le := h.le
  prepared k := by simpa using h.prepared k
  done k := by simpa using h.done k
  finalized j := by
    have := h.left_prepared k hk
    simp only [List.mem_append, List.mem_singleton, Call.finalize.injEq, reduceCtorEq, or_false,
      h.finalized, hleft]
    grind
  left_prepared j hj := List.mem_append_left _ (h.left_prepared j ((hleft j).1 hj).1)

end Ledger

variable {rt : Runtime} {S : Library} {w w' : Connection S} {h h' : Handle S}

/-! ## The calls of the parts -/

/-- Between two states of a connection, the statement was bound, and nothing else. -/
def Binds (w : Connection S) (k : ℕ) (w' : Connection S) (r : Except String (Handle S)) : Prop :=
  (∃ m, w'.calls = w.calls ++ List.replicate m (.bind k)) ∧ w'.prepared = w.prepared ∧
    ∀ h', r = .ok h' → h'.id = k

theorem binds_error (w : Connection S) (k : ℕ) (msg : String) : Binds w k w (.error msg) :=
  ⟨⟨0, by simp⟩, rfl, nofun⟩

theorem binds_ok (w : Connection S) (h : Handle S) : Binds w h.id w (.ok h) :=
  ⟨⟨0, by simp⟩, rfl, fun _ hr => by cases hr; rfl⟩

theorem Binds.trans {w₁ w₂ w₃ : Connection S} {r : Except String (Handle S)}
    (h₁ : Binds w₁ h.id w₂ (.ok h')) (h₂ : Binds w₂ h'.id w₃ r) : Binds w₁ h.id w₃ r := by
  obtain ⟨⟨m₁, hc₁⟩, hp₁, hid⟩ := h₁
  rw [hid h' rfl] at h₂
  obtain ⟨⟨m₂, hc₂⟩, hp₂, hid'⟩ := h₂
  exact ⟨⟨m₁ + m₂, by rw [hc₂, hc₁, List.append_assoc, List.replicate_add]⟩, hp₂.trans hp₁, hid'⟩

theorem binds_bind1 {i : ℤ} {x : Janet} {r : Except String (Handle S)}
    (hx : bind1 rt w h i x = (w', r)) : Binds w h.id w' r := by
  rw [bind1] at hx
  split at hx
  · obtain ⟨rfl, rfl⟩ := Prod.mk.inj hx
    exact binds_error ..
  · next v hv =>
    obtain ⟨rfl, rfl⟩ := Prod.mk.inj hx
    refine ⟨⟨1, rfl⟩, rfl, fun h' hr => ?_⟩
    cases hb : S.bind h.stmt i v with
    | error msg => rw [hb] at hr; cases hr
    | ok stmt => rw [hb] at hr; cases hr; rfl

theorem binds_bindIndexed {i : ℕ} {xs : List Janet} {r : Except String (Handle S)}
    (hx : bindIndexed rt w h i xs = (w', r)) : Binds w h.id w' r := by
  induction xs generalizing w h i with
  | nil =>
    obtain ⟨rfl, rfl⟩ := Prod.mk.inj hx
    exact binds_ok ..
  | cons x xs ih =>
    rw [bindIndexed] at hx
    split at hx
    · next hb =>
      obtain ⟨rfl, rfl⟩ := Prod.mk.inj hx
      exact binds_bind1 hb
    · next hb => exact (binds_bind1 hb).trans (ih hx)

theorem binds_bindSlots {limitindex : ℕ} {kvs : Slots} {r : Except String (Handle S)}
    (hx : bindSlots rt w h limitindex kvs = (w', r)) : Binds w h.id w' r := by
  induction kvs generalizing w h with
  | nil =>
    obtain ⟨rfl, rfl⟩ := Prod.mk.inj hx
    exact binds_ok ..
  | cons kv kvs ih =>
    obtain ⟨k, v⟩ := kv
    rw [bindSlots] at hx
    split at hx
    · exact ih hx
    dsimp only at hx
    split at hx
    · obtain ⟨rfl, rfl⟩ := Prod.mk.inj hx
      exact binds_error ..
    split at hx
    · next hb =>
      obtain ⟨rfl, rfl⟩ := Prod.mk.inj hx
      exact binds_bind1 hb
    · next hb => exact (binds_bind1 hb).trans (ih hx)

theorem binds_bindmany {params : Janet} {r : Except String (Handle S)}
    (hx : bindmany rt w h params = (w', r)) : Binds w h.id w' r := by
  simp only [bindmany] at hx
  split at hx
  · split at hx
    · obtain ⟨rfl, rfl⟩ := Prod.mk.inj hx
      exact binds_error ..
    · exact binds_bindIndexed hx
  · split at hx
    · obtain ⟨rfl, rfl⟩ := Prod.mk.inj hx
      exact binds_error ..
    · exact binds_bindIndexed hx
  · exact binds_bindSlots hx
  · exact binds_bindSlots hx
  · obtain ⟨rfl, rfl⟩ := Prod.mk.inj hx
    exact binds_error ..

theorem binds_bindOption {params : Option Janet} {r : Except String (Handle S)}
    (hx : bindOption rt w h params = (w', r)) : Binds w h.id w' r := by
  cases params with
  | none =>
    obtain ⟨rfl, rfl⟩ := Prod.mk.inj hx
    exact binds_ok ..
  | some params => exact binds_bindmany hx

/-- What a step returns in the end, for an error message or none. -/
def lastStatus (err : Option String) : Status := err.elim .done .error

/-- Between two states of a connection, the statement was stepped through so many
    rows, to its end or to an error. -/
def StepsThrough (w : Connection S) (k m : ℕ) (err : Option String) (w' : Connection S) : Prop :=
  w'.calls = w.calls ++ List.replicate m (.step k .row) ++ [.step k (lastStatus err)] ∧
    w'.prepared = w.prepared

theorem stepsThrough_last {status : Status} {err : Option String}
    (hs : w.step h = (status, w', h')) (he : status = lastStatus err) :
    StepsThrough w h.id 0 err w' := by
  obtain ⟨rfl, hw⟩ := Prod.mk.inj hs
  obtain ⟨rfl, -⟩ := Prod.mk.inj hw
  rw [StepsThrough, ← he]
  simp [Connection.record]

theorem stepsThrough_row {w₁ : Connection S} {m : ℕ} {err : Option String}
    (hs : w.step h = (.row, w₁, h')) (hx : StepsThrough w₁ h'.id m err w') :
    StepsThrough w h.id (m + 1) err w' := by
  obtain ⟨hr, hw⟩ := Prod.mk.inj hs
  obtain ⟨rfl, rfl⟩ := Prod.mk.inj hw
  obtain ⟨hc, hp⟩ := hx
  refine ⟨?_, hp⟩
  rw [hc, hr, List.replicate_succ]
  simp [Connection.record]

theorem stepsThrough_execute {n : ℕ} {err : Option String}
    (hx : execute n w h = some (w', err)) : ∃ m, StepsThrough w h.id m err w' := by
  induction n generalizing w h with
  | zero => cases hx
  | succ n ih =>
    rw [execute] at hx
    split at hx
    · next hs =>
      obtain ⟨m, hm⟩ := ih hx
      exact ⟨m + 1, stepsThrough_row hs hm⟩
    · next hs =>
      obtain ⟨rfl, rfl⟩ := Prod.mk.inj (Option.some.inj hx)
      exact ⟨0, stepsThrough_last hs rfl⟩
    · next hs =>
      obtain ⟨rfl, rfl⟩ := Prod.mk.inj (Option.some.inj hx)
      exact ⟨0, stepsThrough_last hs rfl⟩

/-- The rows collected are those at which the statement stood. -/
theorem stepsThrough_collectLoop {colnames : List Bytes} {n : ℕ} {rows rows' : List Janet}
    {err : Option String} (hx : collectLoop rt colnames n w h rows = some (w', rows', err)) :
    ∃ rs : List S.Stmt, StepsThrough w h.id rs.length err w' ∧
      rows' = rows ++ rs.map (row rt colnames) ∧ (err = none → Rows S w.db h.stmt rs w'.db) := by
  induction n generalizing w h rows with
  | zero => cases hx
  | succ n ih =>
    rw [collectLoop] at hx
    -- A row, the end, or an error.
    split at hx
    · next w₁ h₁ hs =>
      obtain ⟨rs, hm, hrows, hdone⟩ := ih hx
      refine ⟨h₁.stmt :: rs, stepsThrough_row hs hm, by simp [hrows], fun he => ?_⟩
      obtain ⟨hr, hw⟩ := Prod.mk.inj hs
      obtain ⟨rfl, rfl⟩ := Prod.mk.inj hw
      exact .row (Prod.ext hr rfl) (hdone he)
    · next hs =>
      obtain ⟨rfl, hr⟩ := Prod.mk.inj (Option.some.inj hx)
      obtain ⟨rfl, rfl⟩ := Prod.mk.inj hr
      refine ⟨[], stepsThrough_last hs rfl, by simp, fun _ => ?_⟩
      obtain ⟨hr, hw⟩ := Prod.mk.inj hs
      obtain ⟨rfl, rfl⟩ := Prod.mk.inj hw
      exact .done (Prod.ext hr rfl)
    · next hs =>
      obtain ⟨rfl, hr⟩ := Prod.mk.inj (Option.some.inj hx)
      obtain ⟨rfl, rfl⟩ := Prod.mk.inj hr
      exact ⟨[], stepsThrough_last hs rfl, by simp, fun he => by cases he⟩

/-! ## The loop -/

section Loop

variable {first next k : ℕ} {todo left left' : List ℕ} {base tr : List Call}
  {stmt : Option (Handle S)}

/-- The number of a statement that may be there. -/
def number (stmt : Option (Handle S)) : List ℕ := (stmt.map Handle.id).toList

@[simp] theorem finalizeOption_prepared (w : Connection S) (stmt : Option (Handle S)) :
    (w.finalizeOption stmt).prepared = w.prepared := by
  cases stmt <;> rfl

theorem Ledger.finalizeOption (hl : Ledger first next todo left tr) (hw : w.calls = base ++ tr)
    (stmt : Option (Handle S)) (hleft : ∀ j, j ∈ left ↔ j ∈ number stmt ∨ j ∈ left')
    (hnot : ∀ j ∈ number stmt, j ∉ left') :
    ∃ tr', (w.finalizeOption stmt).calls = base ++ tr' ∧ Ledger first next todo left' tr' ∧
      ∀ k status, tr'.count (.step k status) = tr.count (.step k status) := by
  cases stmt with
  | none =>
    refine ⟨tr, hw, { hl with finalized := fun k => ?_, left_prepared := fun k hk => ?_ },
      fun _ _ => rfl⟩
    · rw [hl.finalized, hleft]
      simp [number]
    · exact hl.left_prepared k ((hleft k).2 (.inr hk))
  | some h =>
    refine ⟨tr ++ [.finalize h.id], ?_, hl.finalize ((hleft _).2 (.inl ?_)) fun j => ?_,
      fun k st => ?_⟩
    · rw [← List.append_assoc, ← hw]
      rfl
    · simp [number]
    · have := hnot j
      simp only [number, Option.map_some, Option.toList_some, List.mem_singleton] at hleft this
      rw [hleft]
      grind
    · simp [List.count_append]

/-- A statement is stepped through to its end. -/
theorem Ledger.stepsDone {m : ℕ} (hl : Ledger first next todo left tr) (hw : w.calls = base ++ tr)
    (hst : StepsThrough w k m none w') (hk : k ∈ left) (hkt : k ∈ todo)
    (hfirst : ∀ j ∈ todo, k ≤ j) {todo' : List ℕ} (htodo : ∀ j, j ∈ todo' ↔ j ∈ todo ∧ j ≠ k) :
    w'.calls = base ++ (tr ++ List.replicate m (.step k .row) ++ [.step k .done]) ∧
      Ledger first next todo' left (tr ++ List.replicate m (.step k .row) ++ [.step k .done]) := by
  refine ⟨?_, (hl.rows hk hkt hfirst m).complete hk hkt hfirst htodo⟩
  rw [hst.1, hw]
  simp [lastStatus]

/-- A statement is stepped through to an error. -/
theorem Ledger.stepsError {m : ℕ} {msg : String} (hl : Ledger first next todo left tr)
    (hw : w.calls = base ++ tr) (hst : StepsThrough w k m (some msg) w') (hk : k ∈ left)
    (hkt : k ∈ todo) (hfirst : ∀ j ∈ todo, k ≤ j) :
    ∃ tr', w'.calls = base ++ tr' ∧ Ledger first next todo left tr' := by
  refine ⟨tr ++ List.replicate m (.step k .row) ++ [.step k (.error msg)], ?_,
    (hl.rows hk hkt hfirst m).error hk hkt hfirst msg⟩
  rw [hst.1, hw]
  simp [lastStatus]

/-- From the head of the loop, the call succeeds: no statement is left in the end, or the
    last one, as it is bound, runs to its end and stands at some rows before. -/
inductive Returns (rt : Runtime) (params : Option Janet) : Connection S → Option (Handle S) →
    Bytes → Option (S.Stmt × List S.Stmt) → Prop
  | none {w w₁ : Connection S} {c tail : Bytes} (hp : w.prepare c = (w₁, .ok (.none, tail))) :
      Returns rt params w .none c .none
  | last {w w₁ : Connection S} {h : Handle S} {c tail : Bytes} {rs : List S.Stmt} {db' : S.Db}
      (hp : w.prepare c = (w₁, .ok (.none, tail))) (hrs : Rows S w₁.db h.stmt rs db') :
      Returns rt params w (some h) c (some (h.stmt, rs))
  | next {n : ℕ} {w w₁ w₂ w₃ : Connection S} {stmt : Option (Handle S)} {h h' : Handle S}
      {c tail : Bytes} {result : Option (S.Stmt × List S.Stmt)}
      (hp : w.prepare c = (w₁, .ok (some h, tail)))
      (hexec : executeOption n w₁ stmt = some (w₂, .none))
      (hb : bindOption rt w₂ h params = (w₃, .ok h'))
      (hr : Returns rt params (w₃.finalizeOption stmt) (some h') tail result) :
      Returns rt params w stmt c result

/-- The rows of the last statement. -/
def lastRows (rt : Runtime) : Option (S.Stmt × List S.Stmt) → List Janet
  | .none => []
  | some (stmt, rs) => rs.map (row rt (S.columnNames stmt))

/-- The calls of a call that succeeds: every statement has come to its end, and the last
    one has been stepped through its rows. -/
structure Completed (tr : List Call) (result : Option (S.Stmt × List S.Stmt)) : Prop where
  done (k : ℕ) (h : .prepare (some k) ∈ tr) : .step k .done ∈ tr
  none (h : result = .none) (k : ℕ) : .prepare (some k) ∉ tr
  last (stmt : S.Stmt) (rs : List S.Stmt) (h : result = some (stmt, rs)) :
    ∃ k, .prepare (some k) ∈ tr ∧ (∀ j, .prepare (some j) ∈ tr → j ≤ k) ∧
      tr.count (.step k .row) = rs.length

/-- The account of a call that began with the calls `base`, from the head of the loop on. -/
def Settled (rt : Runtime) (params : Option Janet) (base : List Call) (w : Connection S)
    (stmt : Option (Handle S)) (c : Bytes) (w' : Connection S) (r : Except String Janet) : Prop :=
  ∃ tr, w'.calls = base ++ tr ∧ Accounted tr ∧ ∀ v, r = .ok v →
    ∃ result, Returns rt params w stmt c result ∧ v = .array (lastRows rt result) ∧
      Completed tr result

/-- An error leaves no statement behind. -/
theorem settled_fail {params : Option Janet} {w₀ : Connection S}
    {stmt₀ stmtNext : Option (Handle S)}
    {c : Bytes} {err : String} {r : Except String Janet}
    (hl : Ledger first next todo (number stmt ++ number stmtNext) tr) (hw : w.calls = base ++ tr)
    (hne : ∀ j ∈ number stmt, j ∉ number stmtNext)
    (hx : some (fail w stmt stmtNext err) = some (w', r)) :
    Settled rt params base w₀ stmt₀ c w' r := by
  obtain ⟨rfl, rfl⟩ := Prod.mk.inj (Option.some.inj hx)
  obtain ⟨tr₁, hw₁, hl₁, -⟩ := hl.finalizeOption hw stmt (fun j => List.mem_append) hne
  obtain ⟨tr₂, hw₂, hl₂, -⟩ : ∃ tr₂, _ ∧ Ledger first next todo [] tr₂ ∧ _ :=
    hl₁.finalizeOption hw₁ stmtNext (fun j => by simp) (by simp)
  exact ⟨tr₂, hw₂, hl₂.accounted rfl, nofun⟩

/-- At the head of the loop, only the current statement is left, and not yet stepped. -/
structure AtHead (first : ℕ) (base tr : List Call) (w : Connection S)
    (stmt : Option (Handle S)) : Prop where
  ledger : Ledger first w.prepared (number stmt) (number stmt) tr
  calls : w.calls = base ++ tr
  current : ∀ j ∈ number stmt, j + 1 = w.prepared ∧ tr.count (.step j .row) = 0
  initial (h : stmt = none) (k : ℕ) : .prepare (some k) ∉ tr

theorem AtHead.prepareNone (hh : AtHead first base tr w stmt)
    (hc : w'.calls = w.calls ++ [.prepare none]) (hp : w'.prepared = w.prepared) :
    AtHead first base (tr ++ [.prepare none]) w' stmt where
  ledger := hp ▸ hh.ledger.prepareNone
  calls := by rw [hc, hh.calls, List.append_assoc]
  current j hj := by
    rw [hp, List.count_append, (hh.current j hj).2]
    exact ⟨(hh.current j hj).1, by simp⟩
  initial hs k := by simpa using hh.initial hs k

/-- Where no statement is left, the last one is executed for its rows. -/
theorem settled_last {n : ℕ} {params : Option Janet} {c tail : Bytes} {r : Except String Janet}
    {w₁ : Connection S} (hh : AtHead first base tr w₁ stmt)
    (hp : w.prepare c = (w₁, .ok (none, tail)))
    (hx : ((collectOption rt n w₁ stmt).bind fun
      | (w, _, some err) => some (fail w stmt none err)
      | (w, rows, none) => some (w.finalizeOption stmt, .ok (.array rows))) = some (w', r)) :
    Settled rt params base w stmt c w' r := by
  have hl := hh.ledger
  cases stmt with
  | none =>
    -- The text had no statement at all.
    obtain ⟨rfl, rfl⟩ := Prod.mk.inj (Option.some.inj hx)
    refine ⟨tr, hh.calls, hl.accounted rfl, fun v hv => ⟨none, .none hp, ?_, ?_⟩⟩
    · exact (Except.ok.inj hv).symm
    · exact ⟨fun k hk => absurd hk (hh.initial rfl k), fun _ => hh.initial rfl, nofun⟩
  | some h =>
    have hk : h.id ∈ number (some h) := by simp [number]
    have hfirst : ∀ j ∈ number (some h), h.id ≤ j := by simp [number]
    obtain ⟨⟨w₂, rows, err⟩, hcollect, hx⟩ := Option.bind_eq_some_iff.1 hx
    obtain ⟨rs, hst, hrows, hdone⟩ := stepsThrough_collectLoop hcollect
    cases err with
    | some err =>
      obtain ⟨tr₁, hw₁, hl₁⟩ := hl.stepsError hh.calls hst hk hk hfirst
      exact settled_fail (by simpa [number] using hl₁) hw₁ (by simp [number]) hx
    | none =>
      obtain ⟨rfl, rfl⟩ := Prod.mk.inj (Option.some.inj hx)
      have htodo : ∀ j, j ∈ ([] : List ℕ) ↔ j ∈ number (some h) ∧ j ≠ h.id := by simp [number]
      obtain ⟨hw₁, hl₁⟩ := hl.stepsDone hh.calls hst hk hk hfirst htodo
      obtain ⟨tr₂, hw₂, hl₂, hcount⟩ : ∃ tr₂, _ ∧ Ledger first w₁.prepared [] [] tr₂ ∧ _ :=
        hl₁.finalizeOption hw₁ (some h) (by simp) (by simp)
      refine ⟨tr₂, hw₂, hl₂.accounted rfl, fun v hv =>
        ⟨some (h.stmt, rs), .last hp (hdone rfl), ?_, fun k hk => ?_, nofun, ?_⟩⟩
      · rw [← Except.ok.inj hv, hrows]
        rfl
      · exact (hl₂.done k).2 ⟨hk, List.not_mem_nil⟩
      · rintro _ _ ⟨⟩
        -- The current statement has the last number, and its rows are its only steps but one.
        have hlast := hl.left_prepared h.id hk
        refine ⟨h.id, (hl₂.prepared h.id).2 ((hl.prepared h.id).1 hlast), fun j hj => ?_, ?_⟩
        · have := (hl₂.prepared j).1 hj
          have := (hh.current h.id hk).1
          omega
        · rw [hcount, List.count_append, List.count_append, (hh.current h.id hk).2]
          simp

/-- A statement that was not prepared is not stepped. -/
theorem Ledger.count_step_eq_zero (hl : Ledger first next todo left tr)
    (hk : .prepare (some k) ∉ tr) (status : Status) : tr.count (.step k status) = 0 := by
  refine List.count_eq_zero_of_not_mem fun hmem => hk ?_
  obtain ⟨past, rest, rfl⟩ := List.append_of_mem hmem
  exact List.mem_append_left _ (hl.along past _ rest rfl).1.1

/-- The current statement is executed, while the next one waits. -/
theorem Ledger.executeOption {n : ℕ} {err : Option String}
    (hl : Ledger first next (number stmt ++ [k]) (number stmt ++ [k]) tr)
    (hw : w.calls = base ++ tr) (hlt : ∀ j ∈ number stmt, j < k)
    (hx : executeOption n w stmt = some (w', err)) :
    ∃ tr', w'.calls = base ++ tr' ∧ w'.prepared = w.prepared ∧
      (err = none → tr'.count (.step k .row) = tr.count (.step k .row) ∧
        Ledger first next [k] (number stmt ++ [k]) tr') ∧
      ∀ msg, err = some msg → ∃ todo, Ledger first next todo (number stmt ++ [k]) tr' := by
  cases stmt with
  | none =>
    obtain ⟨rfl, rfl⟩ := Prod.mk.inj (Option.some.inj hx)
    exact ⟨tr, hw, rfl, fun _ => ⟨rfl, hl⟩, nofun⟩
  | some h =>
    have hk : h.id ∈ number (some h) ++ [k] := by simp [number]
    have hne : h.id < k := hlt h.id (by simp [number])
    have hfirst : ∀ j ∈ number (some h) ++ [k], h.id ≤ j := by simp [number, hne.le]
    obtain ⟨m, hst⟩ := stepsThrough_execute hx
    cases err with
    | none =>
      have htodo : ∀ j, j ∈ [k] ↔ j ∈ number (some h) ++ [k] ∧ j ≠ h.id := fun j => by
        simp only [number, Option.map_some, Option.toList_some, List.mem_append, List.mem_singleton]
        omega
      obtain ⟨hw', hl'⟩ := hl.stepsDone hw hst hk hk hfirst htodo
      refine ⟨_, hw', hst.2, fun _ => ⟨?_, hl'⟩, nofun⟩
      simp [List.count_append, List.count_replicate, hne.ne]
    | some msg =>
      obtain ⟨tr', hw', hl'⟩ := hl.stepsError hw hst hk hk hfirst
      exact ⟨tr', hw', hst.2, nofun, fun _ _ => ⟨_, hl'⟩⟩

theorem calls_prepare {text : Bytes} {r : Except String (Option (Handle S) × Bytes)}
    (hx : w.prepare text = (w', r)) :
    (w'.calls = w.calls ++ [.prepare none] ∧ w'.prepared = w.prepared ∧
      ∀ h tail, r ≠ .ok (some h, tail)) ∨
    ∃ h tail, r = .ok (some h, tail) ∧ h.id = w.prepared ∧
      w'.calls = w.calls ++ [.prepare (some h.id)] ∧ w'.prepared = w.prepared + 1 := by
  rw [Connection.prepare] at hx
  split at hx
  · obtain ⟨rfl, rfl⟩ := Prod.mk.inj hx
    exact .inl ⟨rfl, rfl, fun _ _ h => by cases h⟩
  · obtain ⟨rfl, rfl⟩ := Prod.mk.inj hx
    exact .inl ⟨rfl, rfl, fun _ _ h => by cases h⟩
  · obtain ⟨rfl, rfl⟩ := Prod.mk.inj hx
    exact .inr ⟨_, _, rfl, rfl, rfl, rfl⟩

/-- The current statement is executed, and the next one bound and made current. -/
theorem settled_next {n : ℕ} {params : Option Janet} {h : Handle S} {c tail : Bytes}
    {r : Except String Janet} (hh : AtHead first base tr w stmt) {w₁ : Connection S}
    (hp : w.prepare c = (w₁, .ok (some h, tail))) (hid : h.id = w.prepared)
    (hc : w₁.calls = w.calls ++ [.prepare (some h.id)])
    (hpr : w₁.prepared = w.prepared + 1)
    (hrec : ∀ {w stmt tr}, AtHead first base tr w stmt →
      evalLoop rt params n w stmt tail = some (w', r) → Settled rt params base w stmt tail w' r)
    (hx : ((executeOption n w₁ stmt).bind fun
      | (w, some err) => some (fail w stmt (some h) err)
      | (w, none) =>
        match bindOption rt w h params with
        | (w, .error err) => some (fail w stmt (some h) err)
        | (w, .ok h) => evalLoop rt params n (w.finalizeOption stmt) (some h) tail) =
            some (w', r)) :
    Settled rt params base w stmt c w' r := by
  -- The new statement gets the next number, so it is behind the current one.
  have hnew : .prepare (some h.id) ∉ tr := by
    rw [hh.ledger.prepared, hid]
    omega
  have hlt : ∀ j ∈ number stmt, j < h.id := fun j hj => by have := (hh.current j hj).1; omega
  have hdisj : ∀ j ∈ number stmt, j ∉ number (some h) := fun j hj => by
    simpa [number] using (hlt j hj).ne
  have hmem : ∀ j, j ∈ number stmt ++ [h.id] ↔ j = w.prepared ∨ j ∈ number stmt := by
    simp [hid, or_comm]
  have hl₁ := hh.ledger.prepareSome hmem hmem
  rw [← hpr, ← hid] at hl₁
  obtain ⟨⟨w₂, err⟩, hexec, hx⟩ := Option.bind_eq_some_iff.1 hx
  have hw₁ : w₁.calls = base ++ (tr ++ [.prepare (some h.id)]) := by
    rw [hc, hh.calls, List.append_assoc]
  obtain ⟨tr₂, hw₂, hpr₂, hdone, herror⟩ := hl₁.executeOption hw₁ hlt hexec
  cases err with
  | some err =>
    obtain ⟨todo, hl₂⟩ := herror err rfl
    exact settled_fail hl₂ hw₂ hdisj hx
  | none =>
    obtain ⟨hcount, hl₂⟩ := hdone rfl
    have hmem_left : h.id ∈ number stmt ++ [h.id] := by simp
    dsimp only at hx
    rcases hb : bindOption rt w₂ h params with ⟨w₃, err | h'⟩ <;> rw [hb] at hx
    · -- Both are finalized: the current one, which is done, and the next one.
      obtain ⟨⟨m, hc₃⟩, hpr₃, -⟩ := binds_bindOption hb
      exact settled_fail (hl₂.bind hmem_left m)
        (by rw [hc₃, hw₂, List.append_assoc]) hdisj hx
    · obtain ⟨⟨m, hc₃⟩, hpr₃, hid'⟩ := binds_bindOption hb
      obtain ⟨tr₄, hw₄, hl₄, hcount₄⟩ : ∃ tr₄, _ ∧ Ledger first w₁.prepared [h.id] [h.id] tr₄ ∧ _ :=
        (hl₂.bind hmem_left m).finalizeOption
          (by rw [hc₃, hw₂, List.append_assoc]) stmt (fun j => List.mem_append)
          (by simpa [number] using hdisj)
      -- The head of the loop again, with the next statement as the current one.
      have hnumber : number (some h') = [h.id] := by simp [number, hid' h' rfl]
      have hprep : (w₃.finalizeOption stmt).prepared = w₁.prepared := by
        rw [finalizeOption_prepared, hpr₃, hpr₂]
      have hh' : AtHead first base tr₄ (w₃.finalizeOption stmt) (some h') := by
        refine ⟨?_, hw₄, fun j hj => ?_, nofun⟩
        · rw [hnumber, hprep]
          exact hl₄
        · rw [hnumber, List.mem_singleton] at hj
          rw [hj, hprep, hpr, hid, ← hid, hcount₄, List.count_append, hcount, List.count_append,
            hh.ledger.count_step_eq_zero hnew]
          exact ⟨rfl, by simp [List.count_replicate]⟩
      obtain ⟨tr', hw', ha, hr⟩ := hrec hh' hx
      refine ⟨tr', hw', ha, fun v hv => ?_⟩
      obtain ⟨result, hret, hv, hdone⟩ := hr v hv
      exact ⟨result, .next hp hexec hb hret, hv, hdone⟩

/-- From the head of the loop on, the books are kept. -/
theorem settled_evalLoop {params : Option Janet} {n : ℕ} {c : Bytes} {r : Except String Janet}
    (hh : AtHead first base tr w stmt) (hx : evalLoop rt params n w stmt c = some (w', r)) :
    Settled rt params base w stmt c w' r := by
  induction n generalizing w stmt tr c with
  | zero => cases hx
  | succ n ih =>
    rw [evalLoop] at hx
    rcases hp : w.prepare c with ⟨w₁, err | ⟨- | next, tail⟩⟩ <;> rw [hp] at hx <;>
      rcases calls_prepare hp with ⟨hc, hpr, hr⟩ | ⟨h, tail, hr, hid, hc, hpr⟩
    · have hh₁ := hh.prepareNone hc hpr
      exact settled_fail (by simpa [number] using hh₁.ledger) hh₁.calls (by simp [number]) hx
    · cases hr
    · exact settled_last (hh.prepareNone hc hpr) hp hx
    · cases hr
    · exact absurd rfl (hr next tail)
    · cases hr
      exact settled_next hh hp hid hc hpr (fun hh hx => ih hh hx) hx

theorem atHead_initial (w : Connection S) : AtHead w.prepared w.calls [] w none where
  ledger := ledger_nil _
  calls := by simp
  current := by simp [number]
  initial _ k := List.not_mem_nil

end Loop

/-- Whatever SQLite returns, every statement that a call of `sqlite3/eval` prepares is
    finalized exactly once, every use of it was permitted, and if the call succeeds, all
    have come to their ends and the rows are those of the last one. -/
theorem sqlEval_accounts {n : ℕ} {closed : Bool} {query : Bytes} {params : Option Janet}
    {r : Except String Janet} (h : sqlEval rt n closed w query params = some (w', r)) :
    ∃ tr, w'.calls = w.calls ++ tr ∧
      (∀ k, .prepare (some k) ∈ tr → tr.count (.finalize k) = 1) ∧ Along Permitted tr ∧
      ∀ v, r = .ok v → ∃ result, Returns rt params w none query result ∧
        v = .array (lastRows rt result) ∧ Completed tr result := by
  rw [sqlEval] at h
  split_ifs at h
  · obtain ⟨rfl, rfl⟩ := Prod.mk.inj (Option.some.inj h)
    exact ⟨[], by simp, by simp, along_nil, fun _ hv => by cases hv⟩
  · obtain ⟨rfl, rfl⟩ := Prod.mk.inj (Option.some.inj h)
    exact ⟨[], by simp, by simp, along_nil, fun _ hv => by cases hv⟩
  · obtain ⟨tr, hw, ha, hr⟩ := settled_evalLoop (atHead_initial w) h
    exact ⟨tr, hw, fun k hk => ha.count_finalize hk, ha.along, hr⟩

/-- A library for which each byte of a text is a query with so many rows. -/
def Library.counting : Library where
  Db := Unit
  Stmt := ℕ
  prepare _ text :=
    match text with
    | [] => .ok (none, [])
    | c :: tail => .ok (some c.toNat, tail)
  step
    | _, 0 => (.done, (), 0)
    | _, n + 1 => (.row, (), n)
  columnNames _ := [ascii ['n']]
  column n _ := .integer n
  bindParameterCount _ := 0
  bindParameterIndex _ _ := 0
  bind _ _ _ := .error "column index out of range"

/-- The calls for a query with two rows and one with one. -/
def countingCalls : List Call :=
  [.prepare (some 0), .prepare (some 1), .step 0 .row, .step 0 .row, .step 0 .done, .finalize 0,
    .prepare none, .step 1 .row, .step 1 .done, .finalize 1]

/-- The rows of the second one. -/
def countingRows : Janet := .array [.struct [(.keyword (ascii ['n']), .integer 0)]]

theorem sqlEval_accounts_counting :
    ∃ tr, countingCalls = [] ++ tr ∧
      (∀ k, .prepare (some k) ∈ tr → tr.count (.finalize k) = 1) ∧ Along Permitted tr ∧
      ∀ v, (.ok countingRows : Except String Janet) = .ok v → ∃ result,
        Returns (S := Library.counting) Runtime.assoc none ⟨(), 0, []⟩ none [2, 1] result ∧
          v = .array (lastRows Runtime.assoc result) ∧ Completed tr result := by
  have heval : sqlEval Runtime.assoc (S := Library.counting) 8 false ⟨(), 0, []⟩ [2, 1] none =
      some (⟨(), 2, countingCalls⟩, .ok countingRows) := rfl
  exact sqlEval_accounts heval

end PunyGui.Sqlite
