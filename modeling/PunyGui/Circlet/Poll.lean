import PunyGui.Circlet.Answer
import PunyGui.Circlet.Endless
import PunyGui.Circlet.Pipeline
import PunyGui.History
import PunyGui.Sessions

/-!
# Serving connections

The turns that `mg_mgr_poll` gives to the connections of a listener. A connection is
closed if it is marked for this, else it reads what has arrived, and sends of its
replies what its socket takes. All connections share the fiber of the listener.
A connection that has asked for a websocket goes on with `mg_ws_handler`; what that
queues is left open.

* `mgMgrHandleConn`: the turn of a connection.
* `serverRun`: the turns of all connections, in any order.
* `HasDone`: a connection, and what it has done so far.
* `serverRun_requests`: the requests that every connection has handed over are those of
  the bytes that it has read itself.
* `serverRun_sent`: it has sent the replies to them, in order and up to what is queued,
  and after them what is queued for a websocket.
* `serverRun_answers`: all replies are those that the handler gives to the requests, in
  the order in which they come from all connections.
-/

namespace PunyGui.Circlet

open Text Http Imp Sessions History

/-! ## The turn of a connection -/

/-- The parts of `struct mg_connection` that a turn depends on. -/
structure ServerConn extends MgConnection where
  http : HttpConn

/-- How the reading of a socket ends. -/
inductive ReadEnd
  | wouldBlock
  | shutdown
  | error

/-- What `select` finds of a socket, and what the calls on it then return. -/
structure Socket where
  /-- The parts that are read, and the end of the reading, if there is something to read. -/
  canRead : Option (List Bytes × ReadEnd)
  /-- The number of bytes that are sent, or an error, if something can be sent. -/
  canWrite : Option (Option ℕ)
  /-- What is queued for a websocket in the turn, and whether the connection is marked to be
      closed after it. -/
  websocket : Bytes × Bool

/-- What a connection does. -/
inductive Action
  | received (data : Bytes)
  /-- A request is handed over, and the reply to it is queued. -/
  | request (userData : ℕ) (hm : HttpMessage) (reply : Option Bytes)
  /-- A handshake, or frames, are queued for a websocket. -/
  | frames (data : Bytes)
  | sent (data : Bytes)
  /-- A call on its socket has returned an error. -/
  | failed
  | closed

variable {σ : Type} (rt : Runtime) (mw : Handler σ)

/-- A reply is queued, and the connection is marked to be closed after it. -/
def ServerConn.queue (nc : ServerConn) (reply : Option Bytes) : ServerConn :=
  reply.elim nc fun s => { nc with sendMbuf := nc.sendMbuf ++ s, sendAndClose := true }

/-- The events of a connection go to `http_handler`. -/
def handleEvents (w : Server σ) (nc : ServerConn) :
    List Event → List Action × Server σ × ServerConn
  | [] => ([], w, nc)
  | ev :: evs =>
    let (reply, w) := httpHandler rt mw w ev
    let (acts, w, nc) := handleEvents w (nc.queue reply) evs
    match ev with
    | .other => (acts, w, nc)
    | .httpRequest userData hm => (.request userData hm reply :: acts, w, nc)

/-- `mg_do_recv`: the parts are read one by one. -/
def mgDoRecv (n : ℕ) (w : Server σ) (nc : ServerConn) :
    List Bytes → ReadEnd → Outcome (List Action × Server σ × ServerConn)
  | [], .wouldBlock => pure ([], w, nc)
  | [], .shutdown => pure ([], w, { nc with sendAndClose := true })
  | [], .error => pure ([.failed], w, { nc with http.closeImmediately := true })
  | x :: xs, e => do
    let (evs, http) ← nc.http.recv n x
    let (acts, w, nc) := handleEvents rt mw w { nc with http } evs
    if nc.http.closeImmediately then pure (.received x :: acts, w, nc)
    else do
      let (acts', w, nc) ← mgDoRecv n w nc xs e
      pure (.received x :: acts ++ acts', w, nc)

/-- `mg_ws_handshake`, once a request has asked for a websocket, and `mg_ws_handler` from
    then on. -/
def mgWsHandler (nc : ServerConn) (out : Bytes × Bool) : List Action × ServerConn :=
  if nc.http.isWebsocket then
    ([.frames out.1],
      { nc with sendMbuf := nc.sendMbuf ++ out.1, sendAndClose := nc.sendAndClose || out.2 })
  else ([], nc)

/-- `MG_TCP_IO_SIZE`. -/
def tcpIoSize : ℕ := 1460

/-- `mg_if_can_send_cb`. -/
def mgIfCanSendCb (nc : ServerConn) (res : Option ℕ) : List Action × ServerConn :=
  if nc.http.closeImmediately || nc.sendMbuf.isEmpty then ([], nc)
  else
    match res with
    | none => ([.failed], { nc with http.closeImmediately := true })
    | some n =>
      let n := min n (min nc.sendMbuf.length tcpIoSize)
      ([.sent (nc.sendMbuf.take n)], { nc with sendMbuf := mbufRemove nc.sendMbuf n })

/-- The connection is marked to be closed, and has sent what is to be sent before. -/
def ServerConn.isDone (nc : ServerConn) : Bool :=
  nc.http.closeImmediately || (nc.sendAndClose && nc.sendMbuf.isEmpty)

/-- `mg_close_conn`: what is queued at `MG_EV_CLOSE` is freed with the connection. -/
def mgCloseConn (w : Server σ) (nc : ServerConn) : List Action × Server σ :=
  let (acts, w, _) := handleEvents rt mw w nc nc.http.close
  (acts ++ [.closed], w)

/-- `mg_mgr_handle_conn`: the connection is closed, or reads and sends. -/
def mgMgrHandleConn (n : ℕ) (w : Server σ) (nc : ServerConn) (sock : Socket) :
    Outcome (List Action × Server σ × Option ServerConn) :=
  if nc.isDone then
    let (acts, w) := mgCloseConn rt mw w nc
    pure (acts, w, none)
  else do
    let (acts, w, nc) ← sock.canRead.elim (pure ([], w, nc)) fun (xs, e) =>
      mgDoRecv rt mw n w nc xs e
    let (acts', nc) := mgWsHandler nc sock.websocket
    let (acts'', nc) := sock.canWrite.elim ([], nc) fun res => mgIfCanSendCb nc res
    pure (acts ++ acts' ++ acts'', w, some nc)

/-- A connection that has been accepted. -/
def acceptConn (cw : ℕ) : ServerConn := ⟨⟨[], false⟩, mgIfAcceptNewConn cw⟩

/-- Connections are accepted and get their turns, from the start of the listener on. -/
def serverRun (cw n : ℕ) (s : σ) (ts : List (Turn Socket)) :
    Outcome (List (ℕ × Action) × System (Server σ) ServerConn) :=
  System.run (acceptConn cw) (mgMgrHandleConn rt mw n) ⟨doBind mw cw s, []⟩ ts

/-! ## What a connection has done -/

/-- The parts that it has read. -/
def received (acts : List Action) : List Bytes :=
  acts.filterMap fun
    | .received x => some x
    | _ => none

/-- Its requests, with the replies to them. -/
def exchanges (acts : List Action) : List ((ℕ × HttpMessage) × Option Bytes) :=
  acts.filterMap fun
    | .request userData hm reply => some ((userData, hm), reply)
    | _ => none

/-- The bytes of the replies. -/
def replies (acts : List Action) : Bytes := ((exchanges acts).filterMap Prod.snd).flatten

/-- The bytes that it has sent. -/
def sent (acts : List Action) : Bytes :=
  (acts.filterMap fun
    | .sent x => some x
    | _ => none).flatten

/-- The bytes that were queued for a websocket. -/
def frames (acts : List Action) : Bytes :=
  (acts.filterMap fun
    | .frames x => some x
    | _ => none).flatten

/-- A connection that is open, and what it has done. -/
structure Standing (cw n : ℕ) (acts : List Action) (nc : ServerConn) : Prop where
  /-- It has got the requests of what it has read. -/
  read : ∃ evs http, (mgIfAcceptNewConn cw).recvAll n (received acts) = .ok (evs, http) ∧
    (exchanges acts).map Prod.fst = requests evs ∧
      (nc.http = http ∨ .failed ∈ acts ∧ nc.http = { http with closeImmediately := true })
  /-- What it has not sent yet is queued: of the replies, and of what comes after them on a
      websocket. -/
  queue : replies acts ++ frames acts = sent acts ++ nc.sendMbuf
  plain (h : nc.http.isWebsocket = false) : frames acts = []

/-- A connection that has been closed, and what it had done before and when it was. -/
def Ended (cw n : ℕ) (acts : List Action) : Prop :=
  ∃ past nc last, acts = past ++ last ++ [.closed] ∧ Standing cw n past nc ∧ nc.isDone = true ∧
    (exchanges last).map Prod.fst = requests nc.http.close ∧ received last = [] ∧
      sent last = [] ∧ frames last = []

/-- What a connection has done, open or closed. -/
def HasDone (cw n : ℕ) (acts : List Action) : Option ServerConn → Prop
  | some nc => Standing cw n acts nc
  | none => Ended cw n acts

variable {rt mw} {cw n : ℕ} {acts acts' past : List Action} {nc nc' : ServerConn}
  {w w' : Server σ} {evs : List Event}

@[simp] theorem received_append : received (acts ++ acts') = received acts ++ received acts' :=
  List.filterMap_append

@[simp] theorem exchanges_append : exchanges (acts ++ acts') = exchanges acts ++ exchanges acts' :=
  List.filterMap_append

@[simp] theorem replies_append : replies (acts ++ acts') = replies acts ++ replies acts' := by
  simp [replies]

@[simp] theorem sent_append : sent (acts ++ acts') = sent acts ++ sent acts' := by
  simp [sent]

@[simp] theorem frames_append : frames (acts ++ acts') = frames acts ++ frames acts' := by
  simp [frames]

@[simp] theorem replies_request (userData : ℕ) (hm : HttpMessage) (reply : Option Bytes) :
    replies (.request userData hm reply :: acts) = reply.getD [] ++ replies acts := by
  cases reply <;> rfl

@[simp] theorem ServerConn.http_queue (reply : Option Bytes) : (nc.queue reply).http = nc.http := by
  cases reply <;> rfl

@[simp] theorem ServerConn.sendMbuf_queue (reply : Option Bytes) :
    (nc.queue reply).sendMbuf = nc.sendMbuf ++ reply.getD [] := by
  cases reply with
  | none => exact (List.append_nil _).symm
  | some s => rfl

/-! ## A turn -/

variable (rt mw) in
/-- The events of a connection are its requests, and the replies to them are queued. -/
theorem handleEvents_spec (w : Server σ) (nc : ServerConn) (evs : List Event) :
    (exchanges (handleEvents rt mw w nc evs).1).map Prod.fst = requests evs ∧
      received (handleEvents rt mw w nc evs).1 = [] ∧ sent (handleEvents rt mw w nc evs).1 = [] ∧
        frames (handleEvents rt mw w nc evs).1 = [] ∧
          (handleEvents rt mw w nc evs).2.2.http = nc.http ∧
            (handleEvents rt mw w nc evs).2.2.sendMbuf =
              nc.sendMbuf ++ replies (handleEvents rt mw w nc evs).1 := by
  induction evs generalizing w nc with
  | nil => exact ⟨rfl, rfl, rfl, rfl, rfl, (List.append_nil _).symm⟩
  | cons ev evs ih =>
    cases ev with
    | other => exact ih w nc
    | httpRequest userData hm =>
      obtain ⟨hexchanges, hreceived, hsent, hframes, hhttp, hqueue⟩ :=
        ih (httpHandler rt mw w (.httpRequest userData hm)).2
          (nc.queue (httpHandler rt mw w (.httpRequest userData hm)).1)
      refine ⟨congrArg ((userData, hm) :: ·) hexchanges, hreceived, hsent, hframes,
        hhttp.trans (ServerConn.http_queue _), hqueue.trans ?_⟩
      rw [ServerConn.sendMbuf_queue, List.append_assoc]
      exact congrArg _ (replies_request userData hm _).symm

theorem standing_acceptConn (cw n : ℕ) : Standing cw n [] (acceptConn cw) where
  read := ⟨[], _, rfl, rfl, .inl rfl⟩
  queue := rfl
  plain _ := rfl

/-- A connection that is a websocket stays one. -/
theorem recv_isWebsocket {c http : HttpConn} {x : Bytes} (hx : c.recv n x = .ok (evs, http))
    (hplain : http.isWebsocket = false) : c.isWebsocket = false := by
  by_contra hws
  rw [HttpConn.recv, if_pos (by simp [hws])] at hx
  cases hx
  exact hws hplain

/-- There are no replies after the first frame. -/
theorem recv_plain (hplain : nc.http.isWebsocket = false → frames past = [])
    {x : Bytes} {http : HttpConn} (hx : nc.http.recv n x = .ok (evs, http)) (rt : Runtime)
    (mw : Handler σ) (w : Server σ) :
    replies (handleEvents rt mw w { nc with http } evs).1 ++ frames past =
      frames past ++ replies (handleEvents rt mw w { nc with http } evs).1 := by
  cases hws : nc.http.isWebsocket with
  | false => rw [hplain hws, List.append_nil, List.nil_append]
  | true =>
    rw [HttpConn.recv, if_pos (by simp [hws])] at hx
    cases hx
    exact (List.append_nil _).symm

variable (rt mw) in
/-- A part that is read. -/
theorem Standing.recv (h : Standing cw n past nc) (hopen : nc.http.closeImmediately = false)
    {x : Bytes} {http : HttpConn} (hx : nc.http.recv n x = .ok (evs, http)) (w : Server σ) :
    Standing cw n (past ++ .received x :: (handleEvents rt mw w { nc with http } evs).1)
      (handleEvents rt mw w { nc with http } evs).2.2 := by
  obtain ⟨hexchanges, hreceived, hsent, hframes, hhttp, hqueue⟩ :=
    handleEvents_spec rt mw w { nc with http } evs
  obtain ⟨evs₀, http₀, hrec, hreq, hconn⟩ := h.read
  obtain rfl : nc.http = http₀ := hconn.resolve_right fun hh => by
    rw [hh.2] at hopen
    cases hopen
  have hone : received (.received x :: (handleEvents rt mw w { nc with http } evs).1) = [x] :=
    congrArg (x :: ·) hreceived
  refine ⟨⟨evs₀ ++ (evs ++ []), http, ?_, ?_, .inl hhttp⟩, ?_, fun hplain => ?_⟩
  · rw [received_append, hone]
    exact HttpConn.recvAll_append hrec (HttpConn.recvAll_cons hx rfl)
  · rw [exchanges_append, List.map_append, hreq, List.append_nil, requests_append, ← hexchanges]
    rfl
  · have hcomm := recv_plain h.plain hx rt mw w
    have hnil : sent (.received x :: (handleEvents rt mw w { nc with http } evs).1) = [] := hsent
    have hnil' : frames (.received x :: (handleEvents rt mw w { nc with http } evs).1) = [] :=
      hframes
    have hsame : replies (.received x :: (handleEvents rt mw w { nc with http } evs).1) =
      replies (handleEvents rt mw w { nc with http } evs).1 := rfl
    rw [replies_append, frames_append, sent_append, hnil, hnil', hsame, List.append_nil,
      List.append_nil, hqueue, ← List.append_assoc, ← h.queue, List.append_assoc, List.append_assoc,
      hcomm]
  · rw [hhttp] at hplain
    rw [frames_append, h.plain (recv_isWebsocket hx hplain), List.nil_append]
    exact hframes

/-- An error of the socket. -/
theorem Standing.failed (h : Standing cw n past nc) : Standing cw n (past ++ [.failed])
    { nc with http.closeImmediately := true } where
  read := by
    obtain ⟨evs, http, hrec, hreq, hconn⟩ := h.read
    refine ⟨evs, http, ?_, ?_, .inr ⟨List.mem_append_right _ List.mem_cons_self, ?_⟩⟩
    · rwa [received_append, show received [.failed] = [] from rfl, List.append_nil]
    · rwa [exchanges_append, show exchanges [.failed] = [] from rfl, List.append_nil]
    · rcases hconn with heq | ⟨-, heq⟩
      · rw [heq]
      · rw [heq]
  queue := by
    have hreplies : replies [.failed] = [] := rfl
    have hsent : sent [.failed] = [] := rfl
    have hframes : frames [.failed] = [] := rfl
    rw [replies_append, sent_append, frames_append, hreplies, hsent, hframes, List.append_nil,
      List.append_nil, List.append_nil]
    exact h.queue
  plain hplain := by
    rw [frames_append, h.plain hplain]
    rfl

/-- The reading of a connection. -/
theorem Standing.doRecv {xs : List Bytes} {e : ReadEnd} (h : Standing cw n past nc)
    (hopen : nc.http.closeImmediately = false)
    (hrun : mgDoRecv rt mw n w nc xs e = .ok (acts, w', nc')) :
    Standing cw n (past ++ acts) nc' := by
  induction xs generalizing past nc w acts with
  | nil =>
    cases e with
    | wouldBlock =>
      cases hrun
      rwa [List.append_nil]
    | shutdown =>
      cases hrun
      rw [List.append_nil]
      exact ⟨h.read, h.queue, h.plain⟩
    | error =>
      cases hrun
      exact h.failed
  | cons x xs ih =>
    rw [mgDoRecv] at hrun
    obtain ⟨⟨evs, http⟩, hx, hrun⟩ := bind_eq_ok.1 hrun
    have hstep := h.recv rt mw hopen hx w
    simp only at hrun
    split_ifs at hrun with hclosed
    · cases hrun
      exact hstep
    · obtain ⟨⟨acts', w'', nc''⟩, hrest, hrun⟩ := bind_eq_ok.1 hrun
      cases hrun
      have hrec := ih hstep (by simpa using hclosed) hrest
      rwa [List.append_assoc] at hrec

/-- What is queued for a websocket. -/
theorem Standing.wsHandler (h : Standing cw n past nc) (out : Bytes × Bool) :
    Standing cw n (past ++ (mgWsHandler nc out).1) (mgWsHandler nc out).2 := by
  unfold mgWsHandler
  split_ifs with hws
  · obtain ⟨evs, http, hrec, hreq, hconn⟩ := h.read
    have hexchanges : exchanges [.frames out.1] = [] := rfl
    have hreceived : received [.frames out.1] = [] := rfl
    have hreplies : replies [.frames out.1] = [] := rfl
    have hsent : sent [.frames out.1] = [] := rfl
    have hframes : frames [.frames out.1] = out.1 := List.append_nil _
    refine ⟨⟨evs, http, ?_, ?_, ?_⟩, ?_, fun hplain => ?_⟩
    · rwa [received_append, hreceived, List.append_nil]
    · rwa [exchanges_append, hexchanges, List.append_nil]
    · exact hconn.imp_right fun hh => ⟨List.mem_append_left _ hh.1, hh.2⟩
    · rw [replies_append, frames_append, sent_append, hreplies, hframes, hsent, List.append_nil,
        List.append_nil, ← List.append_assoc, h.queue, List.append_assoc]
    · rw [hws] at hplain
      cases hplain
  · rwa [List.append_nil]

/-- The sending of a connection. -/
theorem Standing.canSend (h : Standing cw n past nc) (res : Option ℕ) :
    Standing cw n (past ++ (mgIfCanSendCb nc res).1) (mgIfCanSendCb nc res).2 := by
  unfold mgIfCanSendCb
  split_ifs with hnone
  · rwa [List.append_nil]
  · cases res with
    | none => exact h.failed
    | some k =>
      simp only
      generalize hk : min k (min nc.sendMbuf.length tcpIoSize) = m
      have hle : m ≤ nc.sendMbuf.length := by omega
      have hbuf : nc.sendMbuf.take m ++ mbufRemove nc.sendMbuf m = nc.sendMbuf := by
        rw [mbufRemove]
        split_ifs with hm
        · exact List.take_append_drop _ _
        · obtain rfl : m = 0 := by omega
          rfl
      obtain ⟨evs, http, hrec, hreq, hconn⟩ := h.read
      refine ⟨⟨evs, http, ?_, ?_, ?_⟩, ?_, fun hplain => ?_⟩
      · rwa [received_append, show received [.sent (nc.sendMbuf.take m)] = [] from rfl,
          List.append_nil]
      · rwa [exchanges_append, show exchanges [.sent (nc.sendMbuf.take m)] = [] from rfl,
          List.append_nil]
      · exact hconn.imp_right fun hh => ⟨List.mem_append_left _ hh.1, hh.2⟩
      · have hone : sent [.sent (nc.sendMbuf.take m)] = nc.sendMbuf.take m := List.append_nil _
        have hreplies : replies [.sent (nc.sendMbuf.take m)] = [] := rfl
        have hframes : frames [.sent (nc.sendMbuf.take m)] = [] := rfl
        rw [replies_append, frames_append, sent_append, hone, hreplies, hframes, List.append_nil,
          List.append_nil, h.queue, List.append_assoc, hbuf]
      · rw [frames_append, h.plain hplain]
        rfl

/-- What a connection does in its turn. -/
theorem turn_cases {sock : Socket} {c : Option ServerConn}
    (h : mgMgrHandleConn rt mw n w nc sock = .ok (acts, w', c)) :
    (nc.isDone = true ∧ c = none ∧ ∃ last nc',
        handleEvents rt mw w nc nc.http.close = (last, w', nc') ∧ acts = last ++ [.closed]) ∨
      (nc.isDone = false ∧ ∃ xs e acts₁ nc₁ acts₂ nc₂ acts₃ nc₃,
        mgDoRecv rt mw n w nc xs e = .ok (acts₁, w', nc₁) ∧
          mgWsHandler nc₁ sock.websocket = (acts₂, nc₂) ∧
            (acts₃ = [] ∧ nc₃ = nc₂ ∨ ∃ res, mgIfCanSendCb nc₂ res = (acts₃, nc₃)) ∧
              acts = acts₁ ++ acts₂ ++ acts₃ ∧ c = some nc₃) := by
  rw [mgMgrHandleConn] at h
  split_ifs at h with hdone
  · cases h
    exact .inl ⟨hdone, rfl, _, _, rfl, rfl⟩
  · obtain ⟨⟨acts₁, w₁, nc₁⟩, hread, h⟩ := bind_eq_ok.1 h
    obtain ⟨xs, e, hread⟩ : ∃ xs e, mgDoRecv rt mw n w nc xs e = .ok (acts₁, w₁, nc₁) := by
      cases hcan : sock.canRead with
      | none => exact ⟨[], .wouldBlock, by rwa [hcan] at hread⟩
      | some xe => exact ⟨xe.1, xe.2, by rwa [hcan] at hread⟩
    refine .inr ⟨by simpa using hdone, xs, e, acts₁, nc₁, ?_⟩
    obtain ⟨⟨acts₂, nc₂⟩, hws⟩ : ∃ r, mgWsHandler nc₁ sock.websocket = r := ⟨_, rfl⟩
    simp only [hws] at h
    cases hcan : sock.canWrite with
    | none =>
      rw [hcan] at h
      cases h
      exact ⟨acts₂, nc₂, [], nc₂, hread, hws, .inl ⟨rfl, rfl⟩, rfl, rfl⟩
    | some res =>
      rw [hcan] at h
      cases h
      exact ⟨acts₂, nc₂, _, _, hread, hws, .inr ⟨res, rfl⟩, rfl, rfl⟩

/-- What a turn of a connection adds to what it has done. -/
theorem Standing.turn {sock : Socket} {c : Option ServerConn} (h : Standing cw n past nc)
    (hrun : mgMgrHandleConn rt mw n w nc sock = .ok (acts, w', c)) :
    HasDone cw n (past ++ acts) c := by
  rcases turn_cases hrun with ⟨hdone, rfl, last, nc', hclose, rfl⟩ |
      ⟨hdone, xs, e, acts₁, nc₁, acts₂, nc₂, acts₃, nc₃, hread, hws, hsend, rfl, rfl⟩
  · obtain ⟨hexchanges, hreceived, hsent, hframes, -⟩ :=
      handleEvents_spec rt mw w nc nc.http.close
    rw [hclose] at hexchanges hreceived hsent hframes
    exact ⟨past, nc, last, (List.append_assoc _ _ _).symm, h, hdone, hexchanges, hreceived, hsent,
      hframes⟩
  · have hopen : nc.http.closeImmediately = false := by
      rw [ServerConn.isDone, Bool.or_eq_false_iff] at hdone
      exact hdone.1
    have hstep := (h.doRecv hopen hread).wsHandler sock.websocket
    rw [hws, List.append_assoc] at hstep
    rw [← List.append_assoc]
    rcases hsend with ⟨rfl, rfl⟩ | ⟨res, hres⟩
    · rwa [List.append_nil]
    · have hcan := hstep.canSend res
      rwa [hres] at hcan

/-! ## Runs -/

variable {s : σ} {ts : List (Turn Socket)} {tr : List (ℕ × Action)}
  {y : System (Server σ) ServerConn} {i : ℕ} {c : Option ServerConn}

/-- Nothing is queued for a websocket unless what was read asks for one. -/
theorem Standing.frames_eq (h : Standing cw n acts nc) {http : HttpConn}
    (hrec : (mgIfAcceptNewConn cw).recvAll n (received acts) = .ok (evs, http))
    (hplain : http.isWebsocket = false) : frames acts = [] := by
  obtain ⟨evs', http', hrec', -, hconn⟩ := h.read
  obtain ⟨-, rfl⟩ := Prod.mk.inj (Except.ok.inj (hrec'.symm.trans hrec))
  refine h.plain ?_
  rcases hconn with heq | ⟨-, heq⟩
  · rwa [heq]
  · rwa [heq]

/-- What every connection has done, whatever the order of the turns. -/
theorem hasDone_serverRun (h : serverRun rt mw cw n s ts = .ok (tr, y))
    (hi : y.sessions[i]? = some c) : HasDone cw n (actionsOf i tr) c :=
  run_session (P := HasDone cw n) (standing_acceptConn cw n)
    (fun _ _ _ _ _ _ _ hP hturn => hP.turn hturn) h hi

/-- A handler that answers every request with an empty page. -/
def emptyPage : Handler Unit := fun _ _ => (.ok (.struct []), ())

/-- Two clients that send the same bytes: those of the second one arrive while those of the
    first one do. -/
def twoClients (s : Bytes) : List (Turn Socket) :=
  [.start, .turn 0 ⟨some ([s.take 9], .wouldBlock), none, [], false⟩, .start,
    .turn 1 ⟨some ([s.take 12, s.drop 12], .wouldBlock), none, [], false⟩,
    .turn 0 ⟨some ([s.drop 9], .wouldBlock), some (some 5), [], false⟩]

theorem exists_twoClients : ∃ tr y c,
    serverRun Runtime.assoc emptyPage 1 2 () (twoClients getRootText) = .ok (tr, y) ∧
      y.sessions[0]? = some c :=
  ⟨_, _, _, rfl, rfl⟩

/-- The fiber goes on from one request to the next. -/
def Answers (rt : Runtime) (mw : Handler σ) (w : Server σ) (e : (ℕ × HttpMessage) × Option Bytes)
    (w' : Server σ) : Prop :=
  httpHandler rt mw w (.httpRequest e.1.1 e.1.2) = (e.2, w')

variable (rt mw) in
theorem answers_handleEvents (w : Server σ) (nc : ServerConn) (evs : List Event) :
    Run (Answers rt mw) w (exchanges (handleEvents rt mw w nc evs).1)
      (handleEvents rt mw w nc evs).2.1 := by
  induction evs generalizing w nc with
  | nil => exact .nil
  | cons ev evs ih =>
    cases ev with
    | other => exact ih w nc
    | httpRequest userData hm => exact .cons rfl (ih _ _)

theorem answers_mgDoRecv {xs : List Bytes} {e : ReadEnd}
    (hrun : mgDoRecv rt mw n w nc xs e = .ok (acts, w', nc')) :
    Run (Answers rt mw) w (exchanges acts) w' := by
  induction xs generalizing nc w acts with
  | nil => cases e <;> cases hrun <;> exact .nil
  | cons x xs ih =>
    rw [mgDoRecv] at hrun
    obtain ⟨⟨evs, http⟩, -, hrun⟩ := bind_eq_ok.1 hrun
    have hstep := answers_handleEvents rt mw w { nc with http } evs
    simp only at hrun
    split_ifs at hrun
    · cases hrun
      exact hstep
    · obtain ⟨⟨acts', w'', nc''⟩, hrest, hrun⟩ := bind_eq_ok.1 hrun
      cases hrun
      rw [exchanges_append]
      exact run_append_iff.2 ⟨_, hstep, ih hrest⟩

theorem exchanges_mgIfCanSendCb (nc : ServerConn) (res : Option ℕ) :
    exchanges (mgIfCanSendCb nc res).1 = [] := by
  unfold mgIfCanSendCb
  split_ifs
  · rfl
  · cases res <;> rfl

theorem exchanges_mgWsHandler (nc : ServerConn) (out : Bytes × Bool) :
    exchanges (mgWsHandler nc out).1 = [] := by
  unfold mgWsHandler
  split_ifs <;> rfl

theorem answers_mgMgrHandleConn {sock : Socket}
    (hrun : mgMgrHandleConn rt mw n w nc sock = .ok (acts, w', c)) :
    Run (Answers rt mw) w (exchanges acts) w' := by
  rcases turn_cases hrun with ⟨-, -, last, nc', hclose, rfl⟩ |
      ⟨-, xs, e, acts₁, nc₁, acts₂, nc₂, acts₃, nc₃, hread, hws, hsend, rfl, -⟩
  · have hevents := answers_handleEvents rt mw w nc nc.http.close
    rw [hclose] at hevents
    rw [exchanges_append]
    exact run_append_iff.2 ⟨w', hevents, .nil⟩
  · have hnil : exchanges acts₃ = [] := by
      rcases hsend with ⟨rfl, -⟩ | ⟨res, hres⟩
      · rfl
      · rw [← exchanges_mgIfCanSendCb nc₂ res, hres]
    have hnil' : exchanges acts₂ = [] := by rw [← exchanges_mgWsHandler nc₁ sock.websocket, hws]
    rw [exchanges_append, exchanges_append, hnil, hnil', List.append_nil, List.append_nil]
    exact answers_mgDoRecv hread

theorem answers_serverRun (h : serverRun rt mw cw n s ts = .ok (tr, y)) :
    Run (Answers rt mw) (doBind mw cw s) (exchanges (tr.map Prod.snd)) y.shared := by
  refine run_shared (Q := fun acts w => Run (Answers rt mw) (doBind mw cw s) (exchanges acts) w)
    .nil (fun past w nc sock acts w' c hpast hturn => ?_) h
  rw [exchanges_append]
  exact run_append_iff.2 ⟨w, hpast, answers_mgMgrHandleConn hturn⟩

theorem serve_of_answers {es : List ((ℕ × HttpMessage) × Option Bytes)}
    (h : Run (Answers rt mw) w es w') :
    serve rt mw w (es.map fun e => .httpRequest e.1.1 e.1.2) = es.map Prod.snd := by
  induction h with
  | nil => rfl
  | cons ha _ ih =>
    rw [List.map_cons, serve, ha, List.map_cons, ← ih]

end PunyGui.Circlet
