import PunyGui.Circlet.Reply

/-!
# The HTTP server

All requests of a listener go through the one fiber that `circlet-bind-http`
starts: it runs the loop `evloop` of `server`, which yields the reply to one
request and is resumed with the next one.

* `httpHandler`: what happens at an event of mongoose.
* `serve`: the replies to a sequence of events.
* `serve_eq`: they are those of the handler up to its first error, and none after
  it, since the fiber has ended then.
* `serve_isolated_iff`: every request whose handler returns is answered exactly if
  no request before it has raised an error.
-/

namespace PunyGui.Circlet

open Text

/-- The parts of `struct http_message` that a handler sees. -/
structure HttpMessage where
  body : Bytes
  uri : Bytes
  queryString : Bytes
  method : Bytes
  proto : Bytes
  /-- The names and values up to the end of the arrays. -/
  headers : List (Bytes × Bytes)

variable (rt : Runtime)

/-- `janet_table_put` of a string under a keyword. -/
def putBytes (t : Slots) (k : List Char) (s : Bytes) : Slots :=
  rt.tablePut t (.keyword (ascii k)) (.string s)

/-- The table of the headers, which end with the first empty name. -/
def requestHeaders (headers : List (Bytes × Bytes)) : Slots :=
  (headers.takeWhile fun header => !header.1.isEmpty).foldl
    (fun t header => rt.tablePut t (.string header.1) (.string header.2)) rt.table

/-- `build_http_request`, for a connection whose `user_data` is at an address. -/
def buildHttpRequest (userData : ℕ) (hm : HttpMessage) : Janet :=
  let payload := rt.table
  let payload := putBytes rt payload ['b', 'o', 'd', 'y'] hm.body
  let payload := putBytes rt payload ['u', 'r', 'i'] hm.uri
  let payload :=
    putBytes rt payload ['q', 'u', 'e', 'r', 'y', '-', 's', 't', 'r', 'i', 'n', 'g'] hm.queryString
  let payload := putBytes rt payload ['m', 'e', 't', 'h', 'o', 'd'] hm.method
  let payload := putBytes rt payload ['p', 'r', 'o', 't', 'o', 'c', 'o', 'l'] hm.proto
  let payload := rt.tablePut payload
    (.keyword (ascii ['c', 'o', 'n', 'n', 'e', 'c', 't', 'i', 'o', 'n'])) (.abstract userData)
  .table (rt.tablePut payload headersKey (.table (requestHeaders rt hm.headers)))

/-! ## The fiber -/

/-- The status of a fiber. -/
inductive FiberStatus
  | dead
  | error
  | pending
  | new
  deriving DecidableEq

/-- A handler, behind the middleware. It returns a value or raises an error, and
    may change the state of the program. -/
abbrev Handler (σ : Type*) := σ → Janet → Except Janet Janet × σ

variable {σ : Type*} (mw : Handler σ)

/-- `janet_continue` on the fiber of `evloop`: its new status, what it yields or
    raises, and the state after it. The loop is suspended only at its `yield`s,
    and goes on from both of them with the next request. -/
def janetContinue (fiber : FiberStatus) (s : σ) (value : Janet) : FiberStatus × Janet × σ :=
  match fiber with
  | .new => (.pending, .nil, s)
  | .pending =>
    match mw s value with
    | (.ok ret, s) => (.pending, ret, s)
    | (.error err, s) => (.error, err, s)
  -- A fiber that has ended is not run again.
  | .dead | .error => (.error, .nil, s)

/-- The fiber of a listener, and the state of the program. -/
structure Server (σ : Type*) where
  fiber : FiberStatus
  state : σ

/-- `do_bind`: the fiber is started with the listener, which has its wrapper at
    an address. -/
def doBind (cw : ℕ) (s : σ) : Server σ :=
  let (status, _, s) := janetContinue mw .new s (.abstract cw)
  ⟨status, s⟩

/-- An event of mongoose. -/
inductive Event
  | httpRequest (userData : ℕ) (hm : HttpMessage)
  | other

/-- `http_handler`: the bytes of the reply, if there is one. -/
def httpHandler (w : Server σ) : Event → Option Bytes × Server σ
  | .other => (none, w)
  | .httpRequest userData hm =>
    match janetContinue mw w.fiber w.state (buildHttpRequest rt userData hm) with
    | (status, out, s) =>
      if status ≠ .dead ∧ status ≠ .pending then (none, ⟨status, s⟩)
      else (some (sendHttp rt out), ⟨status, s⟩)

/-- The replies to a sequence of events. -/
def serve (w : Server σ) : List Event → List (Option Bytes)
  | [] => []
  | ev :: evs =>
    let (reply, w) := httpHandler rt mw w ev
    reply :: serve w evs

/-! ## Isolation -/

/-- What the handler does at each event, called for one request after the other. -/
def outcomes (s : σ) : List Event → List (Option (Except Janet Janet))
  | [] => []
  | .other :: evs => none :: outcomes s evs
  | .httpRequest userData hm :: evs =>
    let (outcome, s) := mw s (buildHttpRequest rt userData hm)
    some outcome :: outcomes s evs

/-- The replies to outcomes, if the first error is the end. -/
def answers : List (Option (Except Janet Janet)) → List (Option Bytes)
  | [] => []
  | none :: os => none :: answers os
  | some (.ok ret) :: os => some (sendHttp rt ret) :: answers os
  | some (.error _) :: os => none :: os.map fun _ => none

/-- Every request whose handler returns is answered with the reply built from
    what it returns. -/
def Isolated (s : σ) (cw : ℕ) (evs : List Event) : Prop :=
  ∀ (i : ℕ) ret, (outcomes rt mw s evs)[i]? = some (some (.ok ret)) →
    (serve rt mw (doBind mw cw s) evs)[i]? = some (some (sendHttp rt ret))

variable {rt mw}

/-- A fiber that has ended answers no event and stays so. -/
theorem httpHandler_error (s : σ) (ev : Event) :
    httpHandler rt mw ⟨.error, s⟩ ev = (none, ⟨.error, s⟩) := by
  cases ev <;> simp [httpHandler, janetContinue]

theorem serve_error (s : σ) (evs : List Event) :
    serve rt mw ⟨.error, s⟩ evs = evs.map fun _ => none := by
  induction evs with
  | nil => rfl
  | cons ev evs ih => simp only [serve, httpHandler_error, ih, List.map_cons]

theorem length_outcomes (s : σ) (evs : List Event) :
    (outcomes rt mw s evs).length = evs.length := by
  induction evs generalizing s with
  | nil => rfl
  | cons ev evs ih => cases ev <;> simp [outcomes, ih]

/-- A pending fiber answers a request whose handler returns, and stays pending. -/
theorem httpHandler_ok {s s' : σ} {userData : ℕ} {hm : HttpMessage} {ret : Janet}
    (h : mw s (buildHttpRequest rt userData hm) = (.ok ret, s')) :
    httpHandler rt mw ⟨.pending, s⟩ (.httpRequest userData hm) =
      (some (sendHttp rt ret), ⟨.pending, s'⟩) := by
  simp [httpHandler, janetContinue, h]

/-- It ends with a handler that raises an error. -/
theorem httpHandler_raise {s s' : σ} {userData : ℕ} {hm : HttpMessage} {err : Janet}
    (h : mw s (buildHttpRequest rt userData hm) = (.error err, s')) :
    httpHandler rt mw ⟨.pending, s⟩ (.httpRequest userData hm) = (none, ⟨.error, s'⟩) := by
  simp [httpHandler, janetContinue, h]

/-- The replies of the server follow from the outcomes of the handler. -/
theorem serve_eq (cw : ℕ) (s : σ) (evs : List Event) :
    serve rt mw (doBind mw cw s) evs = answers rt (outcomes rt mw s evs) := by
  have hstart : doBind mw cw s = ⟨.pending, s⟩ := rfl
  rw [hstart]
  clear hstart
  induction evs generalizing s with
  | nil => rfl
  | cons ev evs ih =>
    cases ev with
    | other =>
      rw [outcomes, answers, ← ih]
      rfl
    | httpRequest userData hm =>
      rcases h : mw s (buildHttpRequest rt userData hm) with ⟨ret | ret, s'⟩
      · simp only [serve, httpHandler_raise h, outcomes, h, answers, serve_error]
        rw [List.map_const', List.map_const', length_outcomes]
      · simp only [serve, httpHandler_ok h, outcomes, h, answers, ih]

/-- An outcome is answered exactly if it is a return with no error before it. -/
theorem answers_getElem? {os : List (Option (Except Janet Janet))} {i : ℕ} {ret : Janet}
    (h : os[i]? = some (some (.ok ret))) :
    (answers rt os)[i]? = some (some (sendHttp rt ret)) ↔
      ∀ j < i, ∀ err, os[j]? ≠ some (some (.error err)) := by
  induction os generalizing i with
  | nil => cases h
  | cons o os ih =>
    cases i with
    | zero =>
      obtain rfl : o = some (.ok ret) := Option.some.inj h
      exact iff_of_true rfl fun j hj => absurd hj (Nat.not_lt_zero j)
    | succ i =>
      rw [Nat.forall_lt_succ_left]
      rcases o with - | err | ret'
      · exact (ih h).trans (and_iff_right fun _ => nofun).symm
      · -- The first error: nothing is answered any more.
        refine iff_of_false (fun hi => ?_) fun hall => hall.1 err rfl
        rw [answers, List.getElem?_cons_succ, List.getElem?_map] at hi
        obtain ⟨o, -, ho⟩ := Option.map_eq_some_iff.1 hi
        cases ho
      · exact (ih h).trans (and_iff_right fun _ => nofun).symm

/-- Every request whose handler returns is answered exactly if no error is raised
    before it. -/
theorem serve_isolated_iff (s : σ) (cw : ℕ) (evs : List Event) :
    Isolated rt mw s cw evs ↔
      ∀ (i j : ℕ) ret err, (outcomes rt mw s evs)[i]? = some (some (.ok ret)) → j < i →
        (outcomes rt mw s evs)[j]? ≠ some (some (.error err)) := by
  rw [Isolated, serve_eq]
  constructor
  · exact fun h i j ret err hret hj => (answers_getElem? hret).1 (h i ret hret) j hj err
  · exact fun h i ret hret => (answers_getElem? hret).2 fun j hj err => h i j ret err hret hj

/-- A handler that raises an error at its first request only. -/
def failsOnce : Handler Bool
  | false, _ => (.error .nil, true)
  | true, _ => (.ok (.struct []), true)

/-- `GET /`. -/
def getRoot : HttpMessage where
  body := []
  uri := ascii ['/']
  queryString := []
  method := ascii ['G', 'E', 'T']
  proto := ascii ['H', 'T', 'T', 'P', '/', '1', '.', '1']
  headers := []

/-- The second of two requests is not answered, though its handler would return. -/
theorem serve_failsOnce : ¬ Isolated Runtime.assoc failsOnce false 1
    [.httpRequest 1 getRoot, .httpRequest 1 getRoot] := by
  intro h
  have hanswered := h 1 (.struct []) rfl
  have hserve : (serve Runtime.assoc failsOnce (doBind failsOnce 1 false)
      [.httpRequest 1 getRoot, .httpRequest 1 getRoot])[1]? = some none := rfl
  rw [hserve] at hanswered
  cases hanswered

end PunyGui.Circlet
