import PunyGui.Circlet.Server

/-!
# Routing

The middleware of `circlet_lib.janet`, and what comes of a request to
`(server (logger (router routes)))`.

* `Env`: the parts of Janet that the middleware uses.
* `logger_eq`: what the logger returns for a request.
* `Routed`: the reply that the client should receive.
* `routed_iff`: it receives this one exactly if there is a route, and `:status` can be
  read of what its handler returns.
-/

namespace PunyGui.Circlet

open Text Binary64 Http

/-- The parts of Janet that the middleware uses. -/
structure Env (σ : Type*) where
  /-- A Janet function, by its address. -/
  call : ℕ → Handler σ
  /-- `get` for the values that are no dictionaries, which may raise an error. -/
  getOther : Janet → Janet → Except Janet Janet
  /-- `length` for the values that are not made of bytes. -/
  lengthOther : Janet → Except Janet ℕ
  /-- `os/clock`. -/
  clock : σ → Double × σ
  /-- `(string/format "%.3f" (* 1000 (- end-clock start-clock)))`. -/
  elapsed : Double → Double → Bytes
  /-- `print`, with the values of its line. -/
  print : List Janet → σ → σ

variable (rt : Runtime) {σ : Type*} (env : Env σ)

/-! ## The middleware -/

/-- Neither nil nor false. -/
def truthy : Janet → Bool
  | .nil | .boolean false => false
  | _ => true

/-- `or`, of two values. -/
def orElse (x y : Janet) : Janet := if truthy x then x else y

/-- `get`. -/
def Env.get : Janet → Janet → Except Janet Janet
  | .table kvs, key | .struct kvs, key => .ok (dictionaryGet kvs key)
  | ds, key => env.getOther ds key

/-- `length`. -/
def Env.length (x : Janet) : Except Janet ℕ :=
  match x.bytes? with
  | some s => .ok s.length
  | none => env.lengthOther x

def uriKey : Janet := .keyword (ascii ['u', 'r', 'i'])
def protocolKey : Janet := .keyword (ascii ['p', 'r', 'o', 't', 'o', 'c', 'o', 'l'])
def methodKey : Janet := .keyword (ascii ['m', 'e', 't', 'h', 'o', 'd'])
def queryStringKey : Janet :=
  .keyword (ascii ['q', 'u', 'e', 'r', 'y', '-', 's', 't', 'r', 'i', 'n', 'g'])
def connectionKey : Janet :=
  .keyword (ascii ['c', 'o', 'n', 'n', 'e', 'c', 't', 'i', 'o', 'n'])
def defaultKey : Janet := .keyword (ascii ['d', 'e', 'f', 'a', 'u', 'l', 't'])

/-- `middleware`: a function is a handler, and any other value what a handler returns. -/
def middleware : Janet → Handler σ
  | .function addr => env.call addr
  | x => fun s _ => (.ok x, s)

/-- The route that `router` selects, or what it finds where there is none. -/
def route (routes : Slots) (uri : Janet) : Janet :=
  orElse (dictionaryGet routes uri) (dictionaryGet routes defaultKey)

/-- `router`. The routes may be a table that changes with the state. -/
def router (routes : σ → Slots) : Handler σ := fun s req =>
  match env.get req uriKey with
  | .error err => (.error err, s)
  | .ok uri =>
    let r := route (routes s) uri
    if truthy r then middleware env r s req else (.ok (.integer 404), s)

/-- The parts of a request that `logger` prints. -/
structure RequestLine where
  uri : Janet
  proto : Janet
  method : Janet
  qs : Janet

/-- The destructuring of the request. -/
def requestLine (req : Janet) : Except Janet RequestLine := do
  return {
    uri := ← env.get req uriKey
    proto := ← env.get req protocolKey
    method := ← env.get req methodKey
    qs := ← env.get req queryStringKey }

/-- `(if (< 0 (length qs)) (string uri "?" qs) uri)`. -/
def fullUri (line : RequestLine) : Except Janet Janet := do
  let len ← env.length line.qs
  return if 0 < len then
    .string (janetToString rt line.uri ++ [0x3F] ++ janetToString rt line.qs) else line.uri

/-- What is printed for a request, once there is a result. -/
def logLine (line : RequestLine) (startClock endClock : Double) (ret : Janet) :
    Except Janet (List Janet) := do
  let fulluri ← fullUri rt env line
  let status ← env.get ret statusKey
  let blank : Janet := .string [0x20]
  return [line.proto, blank, line.method, blank, orElse status (.integer 200), blank, fulluri,
    .string (ascii [' ', 'e', 'l', 'a', 'p', 's', 'e', 'd', ' ']),
    .string (env.elapsed startClock endClock), .string (ascii ['m', 's'])]

/-- `logger`. -/
def logger (nextmw : Handler σ) : Handler σ := fun s req =>
  match requestLine env req with
  | .error err => (.error err, s)
  | .ok line =>
    let (startClock, s) := env.clock s
    match nextmw s req with
    | (.error err, s) => (.error err, s)
    | (.ok ret, s) =>
      let (endClock, s) := env.clock s
      match logLine rt env line startClock endClock ret with
      | .error err => (.error err, s)
      | .ok printed => (.ok ret, env.print printed s)

/-- The handler that `(server (logger (router routes)))` calls: `logger` returns a
    function, which `middleware` leaves as it is. -/
def stack (routes : σ → Slots) : Handler σ := logger rt env (router env routes)

/-! ## A request through the stack -/

section Request

variable {rt env} {userData : ℕ} {hm : HttpMessage} {nextmw : Handler σ} {s s' : σ} {ret : Janet}

/-- The pairs of a request. -/
def requestPairs (rt : Runtime) (userData : ℕ) (hm : HttpMessage) : Slots :=
  [(bodyKey, .string hm.body), (uriKey, .string hm.uri), (queryStringKey, .string hm.queryString),
    (methodKey, .string hm.method), (protocolKey, .string hm.proto),
    (connectionKey, .abstract userData), (headersKey, .table (requestHeaders rt hm.headers))]

theorem buildHttpRequest_eq :
    buildHttpRequest rt userData hm = .table (putAll rt (requestPairs rt userData hm)) := rfl

/-- A request has what mongoose has parsed, under its keys. -/
theorem get_request {k v : Janet} (h : (k, v) ∈ requestPairs rt userData hm) :
    env.get (buildHttpRequest rt userData hm) k = .ok v := by
  have hnodup : ((requestPairs rt userData hm).map Prod.fst).Nodup := by
    simp [requestPairs, bodyKey, uriKey, queryStringKey, methodKey, protocolKey, connectionKey,
      headersKey, ascii]
  have hkeys : ∀ kv ∈ requestPairs rt userData hm, IsKey kv.1 ∧ kv.1 ≠ .nil ∧ kv.2 ≠ .nil := by
    simp [requestPairs, bodyKey, uriKey, queryStringKey, methodKey, protocolKey, connectionKey,
      headersKey, isKey_keyword]
  rw [buildHttpRequest_eq]
  exact congrArg Except.ok ((dictionaryGet_putAll hkeys hnodup).2 (k, v) h)

theorem get_request_uri :
    env.get (buildHttpRequest rt userData hm) uriKey = .ok (.string hm.uri) :=
  get_request (by simp [requestPairs])

theorem requestLine_request : requestLine env (buildHttpRequest rt userData hm) =
    .ok ⟨.string hm.uri, .string hm.proto, .string hm.method, .string hm.queryString⟩ := by
  have hproto : env.get (buildHttpRequest rt userData hm) protocolKey = .ok (.string hm.proto) :=
    get_request (by simp [requestPairs])
  have hmethod : env.get (buildHttpRequest rt userData hm) methodKey = .ok (.string hm.method) :=
    get_request (by simp [requestPairs])
  have hqs : env.get (buildHttpRequest rt userData hm) queryStringKey =
      .ok (.string hm.queryString) :=
    get_request (by simp [requestPairs])
  rw [requestLine, get_request_uri, hproto, hmethod, hqs]
  rfl

theorem router_request (routes : σ → Slots) :
    router env routes s (buildHttpRequest rt userData hm) =
      if truthy (route (routes s) (.string hm.uri)) then
        middleware env (route (routes s) (.string hm.uri)) s (buildHttpRequest rt userData hm)
      else (.ok (.integer 404), s) := by
  rw [router, get_request_uri]

/-- The line is printed if `:status` can be read of the result. -/
theorem exists_logLine {uri proto method qs : Bytes} {t₀ t₁ : Double} :
    (∃ printed, logLine rt env ⟨.string uri, .string proto, .string method, .string qs⟩ t₀ t₁ ret =
        .ok printed) ↔ ∃ status, env.get ret statusKey = .ok status := by
  rw [logLine]
  obtain ⟨full, hfull⟩ : ∃ full, fullUri rt env
      ⟨.string uri, .string proto, .string method, .string qs⟩ = .ok full := ⟨_, rfl⟩
  rw [hfull]
  cases env.get ret statusKey with
  | error err => exact iff_of_false (fun ⟨_, h⟩ => by cases h) fun ⟨_, h⟩ => by cases h
  | ok status => exact iff_of_true ⟨_, rfl⟩ ⟨_, rfl⟩

/-- The logger returns what the next handler returns, if it can read `:status` of it. -/
theorem logger_ok
    (h : nextmw (env.clock s).2 (buildHttpRequest rt userData hm) = (.ok ret, s'))
    (hstatus : ∃ status, env.get ret statusKey = .ok status) :
    ∃ s'', logger rt env nextmw s (buildHttpRequest rt userData hm) = (.ok ret, s'') := by
  obtain ⟨printed, hline⟩ := exists_logLine.2 hstatus
  simp only [logger, requestLine_request, h]
  rw [hline]
  exact ⟨_, rfl⟩

/-- Otherwise it raises an error, although the next handler has returned. -/
theorem logger_unreadable
    (h : nextmw (env.clock s).2 (buildHttpRequest rt userData hm) = (.ok ret, s'))
    (hstatus : ¬∃ status, env.get ret statusKey = .ok status) :
    ∃ err s'', logger rt env nextmw s (buildHttpRequest rt userData hm) = (.error err, s'') := by
  simp only [logger, requestLine_request, h]
  cases hline : logLine rt env ⟨.string hm.uri, .string hm.proto, .string hm.method,
      .string hm.queryString⟩ (env.clock s).1 (env.clock s').1 ret with
  | error err => exact ⟨err, _, rfl⟩
  | ok printed => exact absurd (exists_logLine.1 ⟨printed, hline⟩) hstatus

end Request

/-! ## The server over events -/

/-- The server after a sequence of events. -/
def after (mw : Handler σ) (w : Server σ) : List Event → Server σ
  | [] => w
  | ev :: evs => after mw (httpHandler rt mw w ev).2 evs

/-- The fiber of a listener waits, or has ended with an error. -/
theorem fiber_after (mw : Handler σ) {w : Server σ}
    (hw : w.fiber = .pending ∨ w.fiber = .error) (evs : List Event) :
    (after rt mw w evs).fiber = .pending ∨ (after rt mw w evs).fiber = .error := by
  induction evs generalizing w with
  | nil => exact hw
  | cons ev evs ih =>
    refine ih ?_
    obtain ⟨fiber, s⟩ := w
    rcases hw with rfl | rfl
    · cases ev with
      | other => exact .inl rfl
      | httpRequest userData hm =>
        rcases h : mw s (buildHttpRequest rt userData hm) with ⟨ret | ret, s'⟩
        · rw [httpHandler_raise h]
          exact .inr rfl
        · rw [httpHandler_ok h]
          exact .inl rfl
    · rw [httpHandler_error]
      exact .inr rfl

/-! ## Routing -/

section Routed

variable (routes : σ → Slots) (w : Server σ) (userData : ℕ) (hm : HttpMessage)

/-- The state in which the router is called: the logger has read the clock. -/
def atRouter (w : Server σ) : σ := (env.clock w.state).2

/-- The route of a request. -/
def routeOf : Janet := route (routes (atRouter env w)) (.string hm.uri)

/-- The handler of the route returns a value. -/
def HandlerReturns (ret : Janet) : Prop :=
  ∃ s', middleware env (routeOf env routes w hm) (atRouter env w)
    (buildHttpRequest rt userData hm) = (.ok ret, s')

/-- The reply of the server, if there is one. -/
def reply : Option Bytes :=
  (httpHandler rt (stack rt env routes) w (.httpRequest userData hm)).1

/-- What the client should receive: the reply built from what the handler of the route
    returns, or one with the status 404 where there is no route; and the logger passes on
    what the router returns. -/
structure Routed : Prop where
  found (hroute : truthy (routeOf env routes w hm) = true) (ret : Janet)
    (hret : HandlerReturns rt env routes w userData hm ret) :
    reply rt env routes w userData hm = some (sendHttp rt ret)
  missing (hroute : truthy (routeOf env routes w hm) = false) : ∃ bytes response,
    reply rt env routes w userData hm = some bytes ∧ readHead bytes = some response ∧
      response.status = 404
  logged (ret : Janet) (s' : σ)
    (hret : router env routes (atRouter env w) (buildHttpRequest rt userData hm) = (.ok ret, s')) :
    reply rt env routes w userData hm = some (sendHttp rt ret)

variable {rt env routes w userData hm}

/-- What the router returns is answered if `:status` can be read of it. -/
theorem reply_of_ok {s s' : σ} {ret : Janet}
    (h : router env routes (env.clock s).2 (buildHttpRequest rt userData hm) = (.ok ret, s'))
    (hstatus : ∃ status, env.get ret statusKey = .ok status) :
    reply rt env routes ⟨.pending, s⟩ userData hm = some (sendHttp rt ret) := by
  obtain ⟨s'', hlogger⟩ := logger_ok h hstatus
  rw [reply, stack, httpHandler_ok hlogger]

/-- Else it is not. -/
theorem reply_of_unreadable {s s' : σ} {ret : Janet}
    (h : router env routes (env.clock s).2 (buildHttpRequest rt userData hm) = (.ok ret, s'))
    (hstatus : ¬∃ status, env.get ret statusKey = .ok status) :
    reply rt env routes ⟨.pending, s⟩ userData hm = none := by
  obtain ⟨err, s'', hlogger⟩ := logger_unreadable h hstatus
  rw [reply, stack, httpHandler_raise hlogger]

theorem reply_of_error (s : σ) : reply rt env routes ⟨.error, s⟩ userData hm = none := by
  rw [reply, httpHandler_error]

/-- A number is answered with the status 500, whatever it is. -/
theorem readHead_sendHttp_number (x : Double) (response : Response)
    (h : readHead (sendHttp rt (.number x)) = some response) : response.status = 500 := by
  have hstatus : (readHead (mgSendHead 500 0)).map Response.status = some 500 := by decide +kernel
  rw [show sendHttp rt (.number x) = mgSendHead 500 0 from rfl] at h
  rw [h] at hstatus
  exact Option.some.inj hstatus

theorem router_found (hroute : truthy (routeOf env routes w hm) = true) :
    router env routes (atRouter env w) (buildHttpRequest rt userData hm) =
      middleware env (routeOf env routes w hm) (atRouter env w)
        (buildHttpRequest rt userData hm) := by
  rw [router_request]
  exact if_pos hroute

theorem router_missing (hroute : truthy (routeOf env routes w hm) = false) :
    router env routes (atRouter env w) (buildHttpRequest rt userData hm) =
      (.ok (.integer 404), atRouter env w) := by
  rw [router_request]
  exact if_neg (ne_true_of_eq_false hroute)

/-- A request is routed as it should be exactly if there is a route, and if its handler
    returns, the fiber waits and `:status` can be read. -/
theorem routed_iff_of_fiber (hw : w.fiber = .pending ∨ w.fiber = .error) :
    Routed rt env routes w userData hm ↔ truthy (routeOf env routes w hm) = true ∧
      ∀ ret, HandlerReturns rt env routes w userData hm ret →
        w.fiber = .pending ∧ ∃ status, env.get ret statusKey = .ok status := by
  obtain ⟨fiber, s⟩ := w
  constructor
  · intro h
    have hroute : truthy (routeOf env routes ⟨fiber, s⟩ hm) = true := by
      by_contra hmissing
      rw [Bool.not_eq_true] at hmissing
      obtain ⟨bytes, response, hreply, hhead, hstatus⟩ := h.missing hmissing
      -- The router has returned a number, which is no response.
      rw [h.logged _ _ (router_missing hmissing)] at hreply
      cases hreply
      rw [readHead_sendHttp_number _ _ hhead] at hstatus
      cases hstatus
    refine ⟨hroute, fun ret hret => ?_⟩
    have hreply := h.found hroute ret hret
    rcases hw with rfl | rfl
    · refine ⟨rfl, ?_⟩
      by_contra hstatus
      obtain ⟨s', hret⟩ := hret
      rw [reply_of_unreadable ((router_found hroute).trans hret) hstatus] at hreply
      cases hreply
    · rw [reply_of_error] at hreply
      cases hreply
  · rintro ⟨hroute, hcond⟩
    have hfound : ∀ ret, HandlerReturns rt env routes ⟨fiber, s⟩ userData hm ret →
        reply rt env routes ⟨fiber, s⟩ userData hm = some (sendHttp rt ret) := by
      intro ret hret
      obtain ⟨hfiber, hstatus⟩ := hcond ret hret
      obtain rfl : fiber = .pending := hfiber
      obtain ⟨s', hret⟩ := hret
      exact reply_of_ok ((router_found hroute).trans hret) hstatus
    refine ⟨fun _ => hfound, fun hmissing => ?_, fun ret s' hret => hfound ret ⟨s', ?_⟩⟩
    · rw [hmissing] at hroute
      cases hroute
    · rw [← router_found hroute]
      exact hret

end Routed

/-- The server that has been started with the handler stack and got some events. -/
def listening (rt : Runtime) (env : Env σ) (routes : σ → Slots) (cw : ℕ) (s : σ)
    (evs : List Event) : Server σ :=
  after rt (stack rt env routes) (doBind (stack rt env routes) cw s) evs

/-- After any events, the reply to a request is the one that its route asks for exactly if
    there is a route, and if its handler returns, the fiber still waits and `:status` can
    be read of what the handler returns. -/
theorem routed_iff (routes : σ → Slots) (cw : ℕ) (s : σ) (evs : List Event) (userData : ℕ)
    (hm : HttpMessage) :
    Routed rt env routes (listening rt env routes cw s evs) userData hm ↔
      truthy (routeOf env routes (listening rt env routes cw s evs) hm) = true ∧
        ∀ ret, HandlerReturns rt env routes (listening rt env routes cw s evs) userData hm ret →
          (listening rt env routes cw s evs).fiber = .pending ∧
            ∃ status, env.get ret statusKey = .ok status :=
  routed_iff_of_fiber (fiber_after rt _ (.inl rfl) evs)

/-- Janet without functions, where nothing but a dictionary has keys. -/
def Env.still : Env Unit where
  call _ := fun s _ => (.ok .nil, s)
  getOther _ _ := .ok .nil
  lengthOther _ := .ok 0
  clock s := (.zero, s)
  elapsed _ _ := []
  print _ s := s

/-- Without routes, `GET /` gets a reply with the status 500. -/
theorem not_routed_getRoot :
    ¬Routed Runtime.assoc Env.still (fun _ => []) (listening Runtime.assoc Env.still (fun _ => [])
      1 () []) 1 getRoot := by
  intro h
  have hroute := ((routed_iff_of_fiber (.inl rfl)).1 h).1
  cases hroute

end PunyGui.Circlet
