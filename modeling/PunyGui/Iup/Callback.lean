import PunyGui.Janet
import PunyGui.Registry

/-!
# GUI callbacks

`iup-set-thunk-callback` makes a Janet function the callback of a widget for a
callback name. The function is remembered in two places: IUP stores, for the
handle and the name, the one C function `janet_iup_universal_cb`, and the table
`janet_iup_cbs` stores the Janet function, for the handle only.

* `iupSetThunkCallback`, `universalCb`: the code.
* `Toolkit`: what is assumed of IUP.
* `Consistent`: what the two places hold after any calls, namely the registry
  of the handles and names and its projection to the handles.
* `dispatch_iff`: the right function is called exactly as long as every call
  passes the function that the other names of the handle have already.
-/

namespace PunyGui.Iup

open Text Registry

/-- A C function that IUP may call. -/
inductive Icallback
  | null
  | universalCb
  | other (addr : ℕ)
  deriving DecidableEq

/-- What is assumed of IUP: it has a callback for every handle and name, which
    an event calls and `IupSetCallback` replaces. -/
structure Toolkit where
  State : Type
  /-- `IupSetCallback`, which returns the callback replaced. -/
  setCallback : State → ℕ → Bytes → Icallback → State × Icallback
  /-- The callback that an event calls. -/
  callback : State → ℕ → Bytes → Icallback
  address : Icallback → ℕ
  callback_set (s : State) (ih : ℕ) (name : Bytes) (func : Icallback)
    (ih' : ℕ) (name' : Bytes) :
    callback (setCallback s ih name func).1 ih' name' =
      if (ih', name') = (ih, name) then func else callback s ih' name'

/-- The toolkit whose state is the map of the callbacks. -/
def Toolkit.maps : Toolkit where
  State := ℕ × Bytes → Icallback
  setCallback s ih name func := (Function.update s (ih, name) func, s (ih, name))
  callback s ih name := s (ih, name)
  address
    | .null => 0
    | .universalCb => 1
    | .other addr => addr
  callback_set s ih name func ih' name' := by simp [Function.update_apply]

variable (rt : Runtime) (iup : Toolkit)

/-- The global state: the table `janet_iup_cbs`, which is NULL at first, and the
    state of IUP. -/
structure Gui where
  cbs : Option Slots
  toolkit : iup.State

/-- `janet_iup_cbs`, or the table that takes the place of NULL. -/
def Gui.table {iup : Toolkit} (g : Gui iup) : Slots := g.cbs.getD rt.table

/-- `IupSetThunkCallback_wrapped`: none if an argument has the wrong type, which
    is an error of Janet, raised before anything is changed. -/
def iupSetThunkCallback (g : Gui iup) : List Janet → Option (Gui iup × Janet)
  | [.pointer ih, .string name, .function f] =>
    let cbs := rt.tablePut (g.table rt) (.pointer ih) (.function f)
    let (toolkit, result) := iup.setCallback g.toolkit ih (cString name) .universalCb
    some (⟨some cbs, toolkit⟩, .integer (Int.bmod (iup.address result) (2 ^ 32)))
  | _ => none

/-- A call of a Janet function by `janet_call`. -/
structure Call where
  func : ℕ
  args : List Janet

variable (janetCall : Call → Janet)

/-- `janet_iup_universal_cb`: the call it makes and the integer it returns. There
    is none where it unwraps a function that the table does not have. -/
def universalCb {iup : Toolkit} (g : Gui iup) (ih : ℕ) (c : ℤ) : Option (Call × Option ℤ) :=
  match g.cbs.map (dictionaryGet · (.pointer ih)) with
  | some (.function f) =>
    let call := ⟨f, [.pointer ih, .integer c]⟩
    some (call, (janetCall call).unwrapInteger)
  | _ => none

/-- An event of a widget: IUP calls the callback it has stored. -/
def event (g : Gui iup) (ih : ℕ) (name : Bytes) (c : ℤ) : Option (Call × Option ℤ) :=
  if iup.callback g.toolkit ih name = .universalCb then universalCb janetCall g ih c else none

/-! ## Runs -/

/-- The arguments of a call of `iup-set-thunk-callback`. -/
structure Registration where
  ih : ℕ
  name : Bytes
  f : ℕ

namespace Registration

def argv (r : Registration) : List Janet := [.pointer r.ih, .string r.name, .function r.f]

/-- The call as a put of the registry that is meant: one function for each
    handle and name. -/
def put (r : Registration) : (ℕ × Bytes) × ℕ := ((r.ih, cString r.name), r.f)

end Registration

/-- The puts of a sequence of calls. -/
def log (rs : List Registration) : List ((ℕ × Bytes) × ℕ) := rs.map Registration.put

/-- One call. -/
def register (g : Gui iup) (r : Registration) : Gui iup :=
  (iupSetThunkCallback rt iup g r.argv).elim g Prod.fst

/-- The state after a sequence of calls, from the start of the program. -/
def registerAll (s : iup.State) (rs : List Registration) : Gui iup :=
  rs.foldl (register rt iup) ⟨none, s⟩

variable {rt iup janetCall} {g : Gui iup} {s : iup.State}

theorem registerAll_concat (rs : List Registration) (r : Registration) :
    registerAll rt iup s (rs ++ [r]) = register rt iup (registerAll rt iup s rs) r := by
  simp [registerAll]

/-- Only a call with a pointer, a string and a function succeeds. -/
theorem iupSetThunkCallback_cases {argv : List Janet} {g' : Gui iup} {v : Janet}
    (h : iupSetThunkCallback rt iup g argv = some (g', v)) :
    ∃ r : Registration, argv = r.argv ∧ g' = register rt iup g r := by
  simp only [iupSetThunkCallback] at h
  split at h
  · rename_i ih name f
    refine ⟨⟨ih, name, f⟩, rfl, ?_⟩
    rw [Option.some.injEq, Prod.mk.injEq] at h
    exact h.1.symm
  · cases h

/-- What the table and IUP hold after the puts of a log. -/
structure Consistent (rt : Runtime) (g : Gui iup) (log : List ((ℕ × Bytes) × ℕ)) : Prop where
  wellKeyed : WellKeyed (g.table rt)
  /-- The table is the projection of the registry to the handles. -/
  function (ih : ℕ) : dictionaryGet (g.table rt) (.pointer ih) =
    (latest (coarsen Prod.fst log) ih).elim .nil .function
  /-- IUP has the universal callback for everything registered. -/
  callback {ih : ℕ} {name : Bytes} (h : (latest log (ih, name)).isSome) :
    iup.callback g.toolkit ih name = .universalCb

theorem consistent_start : Consistent rt (⟨none, s⟩ : Gui iup) [] where
  wellKeyed := wellKeyed_table
  function _ := dictionaryGet_table _
  callback h := by cases h

/-- One call keeps the table and IUP consistent with the registry. -/
theorem Consistent.register {log : List ((ℕ × Bytes) × ℕ)} (h : Consistent rt g log)
    (r : Registration) : Consistent rt (register rt iup g r) (log ++ [r.put]) where
  wellKeyed := wellKeyed_put (isKey_pointer _) Janet.noConfusion h.wellKeyed
  function ih := by
    have hput : latest (coarsen Prod.fst (log ++ [r.put])) ih =
        if ih = r.ih then some r.f else latest (coarsen Prod.fst log) ih :=
      latest_coarsen_concat ..
    by_cases hih : ih = r.ih
    · subst hih
      rw [hput, if_pos rfl]
      exact dictionaryGet_put (isKey_pointer _) Janet.noConfusion Janet.noConfusion h.wellKeyed
    · rw [hput, if_neg hih, ← h.function ih]
      exact dictionaryGet_put_of_ne (isKey_pointer _) Janet.noConfusion Janet.noConfusion
        h.wellKeyed (isKey_pointer _) fun heq => hih (Janet.pointer.inj heq)
  callback {ih name} hk := by
    have hset := iup.callback_set g.toolkit r.ih (cString r.name) .universalCb ih name
    by_cases hn : (ih, name) = r.put.1
    · exact hset.trans (if_pos hn)
    · rw [latest_concat, if_neg hn] at hk
      exact (hset.trans (if_neg hn)).trans (h.callback hk)

theorem consistent_registerAll (rs : List Registration) :
    Consistent rt (registerAll rt iup s rs) (log rs) := by
  induction rs using List.reverseRecOn with
  | nil => exact consistent_start
  | append_singleton rs r ih =>
    rw [registerAll_concat, log, List.map_append]
    exact ih.register r

/-! ## Dispatch -/

/-- The call an event should make. -/
def callOf (f ih : ℕ) (c : ℤ) : Call := ⟨f, [.pointer ih, .integer c]⟩

/-- An event of a registered handle and name calls the function registered last
    for the handle, whatever its name was. -/
theorem event_eq {log : List ((ℕ × Bytes) × ℕ)} (h : Consistent rt g log) {ih : ℕ}
    {name : Bytes} (hk : (latest log (ih, name)).isSome) (c : ℤ) :
    event iup janetCall g ih name c = (latest (coarsen Prod.fst log) ih).map fun f =>
      (callOf f ih c, (janetCall (callOf f ih c)).unwrapInteger) := by
  obtain ⟨f, hf⟩ := Option.isSome_iff_exists.1 (latest_coarsen_isSome (p := Prod.fst) hk)
  have hget := h.function ih
  simp only at hf
  rw [hf, Option.elim_some] at hget
  rw [event, if_pos (h.callback hk), universalCb, hf]
  cases hcbs : g.cbs with
  | none => simp [Gui.table, hcbs, dictionaryGet_table] at hget
  | some t =>
    rw [Gui.table, hcbs, Option.getD_some] at hget
    simp [hget, callOf]

/-- Every event of a registered handle and name calls the function registered
    last for this handle and name. -/
def Dispatches (rt : Runtime) (iup : Toolkit) (s : iup.State) (rs : List Registration) : Prop :=
  ∀ janetCall ih name f c, latest (log rs) (ih, name) = some f →
    event iup janetCall (registerAll rt iup s rs) ih name c =
      some (callOf f ih c, (janetCall (callOf f ih c)).unwrapInteger)

/-- One more call changes nothing for the other registered handles and names. -/
def Undisturbed (rt : Runtime) (iup : Toolkit) (s : iup.State) (rs : List Registration)
    (r : Registration) : Prop :=
  ∀ janetCall ih name c, (latest (log rs) (ih, name)).isSome → (ih, name) ≠ r.put.1 →
    event iup janetCall (registerAll rt iup s (rs ++ [r])) ih name c =
      event iup janetCall (registerAll rt iup s rs) ih name c

theorem dispatches_iff {rs : List Registration} :
    Dispatches rt iup s rs ↔ Faithful Prod.fst (log rs) := by
  constructor
  · rintro h ⟨ih, name⟩ f hf
    have hev := h (fun _ => .nil) ih name f 0 hf
    rw [event_eq (consistent_registerAll rs) (by rw [hf]; rfl)] at hev
    obtain ⟨f', hf', heq⟩ := Option.map_eq_some_iff.1 hev
    rw [hf', (Call.mk.inj (Prod.mk.inj heq).1).1]
  · intro h janetCall ih name f c hf
    rw [event_eq (consistent_registerAll rs) (by rw [hf]; rfl), h _ _ hf, Option.map_some]

theorem undisturbed_of_faithful {rs : List Registration} {r : Registration}
    (h : Faithful Prod.fst (log rs)) (h' : Faithful Prod.fst (log (rs ++ [r]))) :
    Undisturbed rt iup s rs r := by
  intro janetCall ih name c hk hne
  obtain ⟨f, hf⟩ := Option.isSome_iff_exists.1 hk
  rw [log, List.map_append] at h'
  have hk' : latest (log rs ++ [r.put]) (ih, name) = some f := by rw [latest_concat, if_neg hne, hf]
  have hcoarse := coarsen_concat_of_ne h h' hf hne
  rw [event_eq (consistent_registerAll rs) hk, event_eq (consistent_registerAll (rs ++ [r])),
    log, List.map_append]
  · exact congrArg _ hcoarse
  · rw [log, List.map_append]
    exact hk' ▸ rfl

/-- The call passes the function that the other names of its handle have already. -/
def Conforms (rs : List Registration) (r : Registration) : Prop :=
  ∀ name f, latest (log rs) (r.ih, name) = some f → name ≠ cString r.name → f = r.f

theorem agrees_put_iff {rs : List Registration} {r : Registration} :
    Agrees Prod.fst (log rs) r.put ↔ Conforms rs r := by
  constructor
  · exact fun h name f hf hne => h _ f hf rfl fun heq => hne (Prod.mk.inj heq).2
  · rintro h ⟨ih, name⟩ f hf rfl hne
    exact h name f hf fun heq => hne (congrArg (Prod.mk _) heq)

/-- An event of a registered handle and name always calls the function registered
    last for them, and a call for one handle and name never changes what the
    events of another do, exactly if every call passes the function that the
    other names of its handle have already. -/
theorem dispatch_iff (rs : List Registration) :
    ((∀ p, p <+: rs → Dispatches rt iup s p) ∧
        ∀ p r, p ++ [r] <+: rs → Undisturbed rt iup s p r) ↔
      ∀ p r, p ++ [r] <+: rs → Conforms p r := by
  have hfaithful := faithful_prefix_iff Prod.fst Registration.put rs
  simp only [dispatches_iff, ← agrees_put_iff]
  constructor
  · exact fun h => hfaithful.1 h.1
  · intro h
    have h' := hfaithful.2 h
    exact ⟨h', fun p r hp =>
      undisturbed_of_faithful (h' p ((List.prefix_append p [r]).trans hp)) (h' _ hp)⟩

/-- A text field with two callbacks: the second one takes the place of the first. -/
theorem dispatch_two_names : ¬ Dispatches Runtime.assoc Toolkit.maps (fun _ => .null)
    [⟨1, ascii ['A', 'C', 'T', 'I', 'O', 'N'], 10⟩, ⟨1, ascii ['K', '_', 'A', 'N', 'Y'], 11⟩] := by
  intro h
  have hev := h (fun _ => .nil) 1 (ascii ['A', 'C', 'T', 'I', 'O', 'N']) 10 0 rfl
  exact absurd (congrArg (Option.map fun r => r.1.func) hev) (by decide)

end PunyGui.Iup
