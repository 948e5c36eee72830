import PunyGui.Circlet.Request

/-!
# Requests with chunked bodies

A body that a client sends in chunks, in whatever parts it arrives.

* `chunkStream`: the chunks as they are written, with the last one.
* `ClientRequest.IsChunked`: a request that has them for its body.
* `ClientRequest.arrived`: the connection once the start of such a request has arrived.
* `requests_chunked`: the handler gets the request once, with the data of the chunks for
  its body, and with what has arrived with the end of the last chunk after them.
-/

namespace PunyGui.Circlet

open Text Http Imp Framing

/-- The chunks of a body, each with its size as it is written, and the last one. -/
def chunkStream (chunks : List (Bytes × Bytes)) (last : Bytes) : Bytes :=
  (chunks.map fun c => chunk c.1 c.2).flatten ++ chunk last []

/-- The data of the chunks. -/
def chunkedBody (chunks : List (Bytes × Bytes)) : Bytes := (chunks.map Prod.snd).flatten

/-- Chunks with the right sizes, of which only the last one is empty. -/
structure AreChunks (chunks : List (Bytes × Bytes)) (last : Bytes) : Prop where
  sizes : ∀ c ∈ chunks, IsSize c.1 c.2.length
  data : ∀ c ∈ chunks, c.2 ≠ []
  last : IsSize last 0

/-- A request whose body is chunked, and whose head there is room for. -/
structure ClientRequest.IsChunked (r : ClientRequest) (chunks : List (Bytes × Bytes))
    (last : Bytes) : Prop extends r.HasHead where
  areChunks : AreChunks chunks last
  body : r.body = chunkStream chunks last
  /-- The first `Transfer-Encoding` is `chunked`. -/
  coding : ∃ field,
    r.fields.find? (fun field => lower field.1 == lower transferEncoding) = some field ∧
      lower field.2 = lower chunked
  /-- No field announces a length, and a body is expected. -/
  unannounced : r.announced = none
  expected : lower r.method = lower post ∨ lower r.method = lower put
  noWebsocket : ∀ field ∈ r.fields, lower field.1 ≠ lower secWebsocketKey
  size : r.render.length < 2 ^ 64
  head_le : r.head.length ≤ maxHttpRequestSize

/-- The connection once the start `p` of a request with a chunked body has arrived: the
    chunks that are there as a whole have been collapsed. -/
def ClientRequest.arrived (cw : ℕ) (r : ClientRequest) (p : Bytes) : HttpConn :=
  let d := takeChunks (p.drop r.head.length)
  { mgIfAcceptNewConn cw with
    recvMbuf := p.take r.head.length ++ (bodyData d ++ d.rest)
    rcvd := p.length
    bodyLen := (bodyData d).length }

variable {size data last s t p x : Bytes} {chunks : List (Bytes × Bytes)}

/-! ## The chunks of a stream -/

theorem chunkStream_nil : chunkStream [] last = chunk last [] := rfl

theorem chunkStream_cons (c : Bytes × Bytes) (chunks : List (Bytes × Bytes)) :
    chunkStream (c :: chunks) last = chunk c.1 c.2 ++ chunkStream chunks last := by
  rw [chunkStream, List.map_cons, List.flatten_cons, List.append_assoc, chunkStream]

theorem AreChunks.tail {c : Bytes × Bytes} (h : AreChunks (c :: chunks) last) :
    AreChunks chunks last where
  sizes c' hc' := h.sizes c' (List.mem_cons_of_mem c hc')
  data c' hc' := h.data c' (List.mem_cons_of_mem c hc')
  last := h.last

theorem takeChunks_more (h : chunkVerdict s = .more) : takeChunks s = ⟨[], s, none⟩ := by
  rw [takeChunks, drain_more h, Option.getD_some]

theorem takeChunks_chunk (h : IsSize size data.length) (hdata : data ≠ []) (rest : Bytes) :
    takeChunks (chunk size data ++ rest) = (takeChunks rest).cons (chunk size data) rest := by
  have hdone : chunkVerdict (chunk size data ++ rest) = .done (chunk size data).length := by
    rw [chunkVerdict_chunk h, if_neg hdata]
  have hlen : rest.length < (chunk size data ++ rest).length := by
    rw [List.length_append, length_chunk]
    omega
  rw [takeChunks, drain_done hdone, List.drop_left, List.take_left, drain_takeChunks hlen]
  rfl

theorem bodyData_cons (h : IsSize size data.length) (s : Bytes) (d : Drained UInt8 Unit) :
    bodyData (d.cons (chunk size data) s) = data ++ bodyData d := by
  rw [bodyData, Drained.cons, List.map_cons, List.flatten_cons, chunkData_chunk h]
  rfl

/-- All chunks of a stream are taken, and nothing behind the last one. -/
theorem takeChunks_stream (h : AreChunks chunks last) (t : Bytes) :
    (takeChunks (chunkStream chunks last ++ t)).stopped = some () ∧
      bodyData (takeChunks (chunkStream chunks last ++ t)) = chunkedBody chunks ∧
        afterChunks (takeChunks (chunkStream chunks last ++ t)) = t := by
  induction chunks with
  | nil =>
    have hsize : IsSize last ([] : Bytes).length := h.last
    have hstop : chunkVerdict (chunk last [] ++ t) = .stop () := by
      rw [chunkVerdict_chunk hsize, if_pos rfl]
    have htake : takeChunks (chunkStream [] last ++ t) = ⟨[], chunk last [] ++ t, some ()⟩ := by
      rw [takeChunks, chunkStream_nil, drain_stop hstop, Option.getD_some]
    rw [htake]
    refine ⟨rfl, rfl, ?_⟩
    rw [afterChunks, mgHttpParseChunk_chunk hsize]
    exact List.drop_left
  | cons c chunks ih =>
    have hsize := h.sizes c List.mem_cons_self
    obtain ⟨hstopped, hdata, hafter⟩ := ih h.tail
    rw [chunkStream_cons, List.append_assoc, takeChunks_chunk hsize (h.data c List.mem_cons_self),
      bodyData_cons hsize, hdata]
    exact ⟨hstopped, rfl, hafter⟩

/-- As long as the end of a chunk is missing, there is no chunk. -/
theorem chunkVerdict_cut (h : IsSize size data.length) (hp : p <+: chunk size data)
    (hne : p ≠ chunk size data) : chunkVerdict p = .more := by
  cases hs : mgHttpParseChunk p with
  | none => simp only [chunkVerdict, hs]
  | some c =>
    obtain ⟨t, ht⟩ := hp
    obtain ⟨size', data', rest, hsize, rfl, rfl⟩ := mgHttpParseChunk_iff.1 hs
    have hparse := mgHttpParseChunk_chunk h []
    rw [List.append_nil, ← ht, List.append_assoc, mgHttpParseChunk_chunk hsize] at hparse
    have hlen := congrArg Chunk.total (Option.some.inj hparse)
    simp only [List.length_append] at hlen
    obtain rfl : t = [] := List.eq_nil_of_length_eq_zero (by omega)
    exact absurd ((List.append_nil _).symm.trans ht) hne

/-- As long as the end of the last chunk is missing, there is more to come. -/
theorem takeChunks_cut (h : AreChunks chunks last) (hp : p <+: chunkStream chunks last)
    (hne : p ≠ chunkStream chunks last) : (takeChunks p).stopped = none := by
  induction chunks generalizing p with
  | nil =>
    rw [chunkStream_nil] at hp hne
    rw [takeChunks_more (chunkVerdict_cut h.last hp hne)]
  | cons c chunks ih =>
    have hsize := h.sizes c List.mem_cons_self
    rw [chunkStream_cons] at hp hne
    by_cases hle : (chunk c.1 c.2).length ≤ p.length
    · -- The first chunk is there.
      obtain ⟨q, rfl⟩ := List.prefix_of_prefix_length_le (List.prefix_append _ _) hp hle
      rw [takeChunks_chunk hsize (h.data c List.mem_cons_self)]
      exact ih h.tail ((List.prefix_append_right_inj _).1 hp) fun heq => hne (by rw [heq])
    · have hpre := List.prefix_of_prefix_length_le hp (List.prefix_append _ _) (le_of_not_ge hle)
      rw [takeChunks_more (chunkVerdict_cut hsize hpre fun heq => hle (by rw [heq]))]

/-- What has been taken off the start of a stream is not looked at again. -/
theorem takeChunks_append (h : (takeChunks s).stopped = none) (x : Bytes) :
    takeChunks (s ++ x) =
      (takeChunks ((takeChunks s).rest ++ x)).after (withRest x (takeChunks s).taken) := by
  have hall := drain_takeChunks (Nat.lt_succ_self (s ++ x).length)
  obtain ⟨d₁, h₁, -, ⟨e, he, -⟩ | ⟨d₂, -, h₂, heq⟩⟩ :=
    drain_append lawful_chunkVerdict hall fun _ _ _ _ => rfl
  all_goals
    have hs : d₁ = takeChunks s := by
      have hlt : s.length < (s ++ x).length.succ := by
        rw [List.length_append]
        omega
      exact Option.some.inj (h₁.symm.trans (drain_takeChunks hlt))
  · rw [hs, h] at he
    cases he
  · rw [heq, hs]
    rw [hs] at h₂
    have hmore := drain_takeChunks (Nat.lt_succ_self ((takeChunks s).rest ++ x).length)
    rcases le_total ((takeChunks s).rest ++ x).length.succ (s ++ x).length.succ with hle | hle
    · rw [Option.some.inj (h₂.symm.trans (drain_mono hmore hle))]
    · rw [Option.some.inj ((drain_mono h₂ hle).symm.trans hmore)]

theorem bodyData_after (taken : List (Bytes × Bytes)) (d : Drained UInt8 Unit) :
    bodyData (d.after (withRest x taken)) = (taken.map fun ms => chunkData ms.1).flatten ++
      bodyData d := by
  rw [bodyData, Drained.taken_after, withRest, List.map_append, List.map_map,
    List.flatten_append]
  rfl

/-- The data of the chunks that are there, and the ones that come with `x`. -/
theorem bodyData_append (h : (takeChunks s).stopped = none) (x : Bytes) :
    bodyData (takeChunks (s ++ x)) =
      bodyData (takeChunks s) ++ bodyData (takeChunks ((takeChunks s).rest ++ x)) := by
  rw [takeChunks_append h, bodyData_after]
  rfl

/-! ## The connection -/

section Connection

variable {cw n : ℕ} {r : ClientRequest} {c : HttpConn} {body rest : Bytes}

theorem isChunked_parsed (h : r.IsChunked chunks last) : r.parsed.isChunked = true := by
  obtain ⟨field, hfind, hvalue⟩ := h.coding
  rw [ParsedMessage.isChunked, ClientRequest.mgGetHttpHeader_parsed h.toHasHead (by decide), hfind]
  exact (ClientRequest.mgVcasecmp_iff (by decide)).2 hvalue

/-- Of a request with a chunked body, any number of bytes is waited for. -/
theorem lengths_chunked (h : r.IsChunked chunks last) : r.lengths = ⟨sizeMax, sizeMax⟩ := by
  have hexpected : ¬((!mgVcasecmp r.method put) = true ∧ (!mgVcasecmp r.method post) = true) := by
    rintro ⟨hput, hpost⟩
    rcases h.expected with heq | heq
    · rw [(ClientRequest.mgVcasecmp_iff (by decide)).2 heq] at hpost
      cases hpost
    · rw [(ClientRequest.mgVcasecmp_iff (by decide)).2 heq] at hput
      cases hput
  rw [ClientRequest.lengths, h.unannounced]
  exact if_neg fun hh => hexpected hh.2

/-- What a pass leaves of chunks that are not all there. -/
theorem pass_open (h : r.IsChunked chunks last) (hbuf : c.recvMbuf = r.head ++ (body ++ rest))
    (hlen : c.bodyLen = body.length) (hopen : (takeChunks rest).stopped = none)
    (hrcvd : c.rcvd < sizeMax) : ∃ evs, requests evs = [] ∧
      c.pass = .ok ⟨evs, { c with
        recvMbuf := r.head ++ (body ++ bodyData (takeChunks rest) ++ (takeChunks rest).rest)
        bodyLen := (body ++ bodyData (takeChunks rest)).length }, false⟩ := by
  have hparse := ClientRequest.mgParseHttp_head h.toHasHead (body ++ rest)
  have hws := ClientRequest.isHandshake_parsed h.toHasHead h.noWebsocket
  have hmessage : r.parsed.lengths.message = sizeMax := by
    rw [ClientRequest.parsed, lengths_chunked h]
  have hafter : afterChunks (takeChunks rest) = (takeChunks rest).rest := by
    rw [afterChunks, hopen]
    rfl
  simp only [HttpConn.pass, hbuf, hparse, HttpConn.dechunk, isChunked_parsed h, if_true,
    List.drop_left, hlen, mgHandleChunked_eq, ok_bind, HttpConn.afterHead, hws, hopen,
    Bool.false_eq_true, if_false, List.take_left, hmessage, hrcvd, Option.isSome_none, hafter]
  refine ⟨_, ?_, rfl⟩
  rw [requests_append]
  split_ifs <;> rfl

/-- What it leaves once the last chunk is there. -/
theorem pass_closed (h : r.IsChunked chunks last) (hbuf : c.recvMbuf = r.head ++ (body ++ rest))
    (hlen : c.bodyLen = body.length) (hclosed : (takeChunks rest).stopped.isSome = true)
    (hrcvd : (r.head ++ (body ++ rest)).length ≤ c.rcvd) : ∃ evs,
      requests evs = [(c.userData, r.message
        (body ++ bodyData (takeChunks rest) ++ afterChunks (takeChunks rest)))] ∧
      c.pass = .ok ⟨evs, { c with recvMbuf := [], rcvd := 0, bodyLen := 0 }, false⟩ := by
  have hparse := ClientRequest.mgParseHttp_head h.toHasHead (body ++ rest)
  have hws := ClientRequest.isHandshake_parsed h.toHasHead h.noWebsocket
  obtain ⟨gap, hgap, -⟩ := length_takeChunks rest
  generalize hbuf' : body ++ bodyData (takeChunks rest) ++ afterChunks (takeChunks rest) = buf
  have hle : ¬c.rcvd < buf.length + r.head.length := by
    simp only [← hbuf', List.length_append] at hrcvd ⊢
    omega
  have hremove : mbufRemove (r.head ++ buf) (buf.length + r.head.length) = [] := by
    have hpos := two_le_of_parsed (ClientRequest.isHead_head h.toHasHead)
    have hall : buf.length + r.head.length = (r.head ++ buf).length := by
      rw [List.length_append, Nat.add_comm]
    rw [mbufRemove, if_pos ⟨by omega, hall.le⟩, hall, List.drop_length]
  simp only [HttpConn.pass, hbuf, hparse, HttpConn.dechunk, isChunked_parsed h, if_true,
    List.drop_left, hlen, mgHandleChunked_eq, ok_bind, HttpConn.afterHead, hws, hclosed,
    Bool.false_eq_true, if_false, List.take_left, hbuf', hle, hremove]
  refine ⟨_, ?_, rfl⟩
  rw [requests_append]
  split_ifs <;> rfl

/-- As long as the end of the request is missing, so is the last chunk. -/
theorem stopped_of_cut (h : r.IsChunked chunks last) (hp : r.head ++ s <+: r.render)
    (hne : r.head ++ s ≠ r.render) : (takeChunks s).stopped = none := by
  refine takeChunks_cut h.areChunks ?_ fun heq => hne ?_
  · rw [← h.body]
    exact (List.prefix_append_right_inj _).1 hp
  · rw [heq, ← h.body, ClientRequest.render]

/-- What arrives after the head is behind what has been collapsed. -/
theorem arrived_split (cw : ℕ) (h : r.IsChunked chunks last) (hp : p <+: r.render)
    (hne : p ≠ r.render) (hs : p ++ x = r.head ++ s) : ∃ body rest,
      (r.arrived cw p).recvMbuf ++ x = r.head ++ (body ++ rest) ∧
        (r.arrived cw p).bodyLen = body.length ∧ (body ++ rest).length ≤ s.length ∧
          bodyData (takeChunks s) = body ++ bodyData (takeChunks rest) ∧
            (takeChunks s).rest = (takeChunks rest).rest ∧
              (takeChunks s).stopped = (takeChunks rest).stopped := by
  rcases lt_or_ge p.length r.head.length with hlt | hle
  · have hdrop : p.drop r.head.length = [] := List.drop_eq_nil_of_le hlt.le
    refine ⟨[], s, ?_, ?_, le_rfl, rfl, rfl, rfl⟩
    · simp only [ClientRequest.arrived, hdrop, List.take_of_length_le hlt.le]
      exact (congrArg (· ++ x) (List.append_nil p)).trans hs
    · simp only [ClientRequest.arrived, hdrop]
      rfl
  · obtain ⟨s₀, rfl⟩ := List.prefix_of_prefix_length_le (List.prefix_append r.head r.body) hp hle
    rw [List.append_assoc, List.append_cancel_left_eq] at hs
    have hcut := stopped_of_cut h hp hne
    obtain ⟨gap, hgap, -⟩ := length_takeChunks s₀
    have hafter : afterChunks (takeChunks s₀) = (takeChunks s₀).rest := by
      rw [afterChunks, hcut]
      rfl
    refine ⟨bodyData (takeChunks s₀), (takeChunks s₀).rest ++ x, ?_, ?_, ?_, ?_, ?_, ?_⟩
    · simp only [ClientRequest.arrived, List.drop_left, List.take_left, List.append_assoc]
    · simp only [ClientRequest.arrived, List.drop_left]
    · rw [← hs]
      simp only [List.length_append, hafter] at hgap ⊢
      omega
    · rw [← hs, bodyData_append hcut]
    · rw [← hs, takeChunks_append hcut]
      rfl
    · rw [← hs, takeChunks_append hcut]
      rfl

theorem recv_of_pass {evs : List Event} (hopen : c.closeImmediately = false)
    (hws : c.isWebsocket = false) {c' : HttpConn}
    (h : HttpConn.pass { c with recvMbuf := c.recvMbuf ++ x, rcvd := c.rcvd + x.length } =
      .ok ⟨evs, c', false⟩) : c.recv (n + 1) x = .ok (.other :: evs, c') := by
  refine HttpConn.recv_of_again hopen hws ?_
  rw [HttpConn.again, h]
  rfl

/-- More of the request arrives, but not its end. -/
theorem recv_arrived_open (cw n : ℕ) (h : r.IsChunked chunks last) (hp : p ++ x <+: r.render)
    (hne : p ++ x ≠ r.render) : ∃ evs, requests evs = [] ∧
      (r.arrived cw p).recv (n + 1) x = .ok (evs, r.arrived cw (p ++ x)) := by
  rcases lt_or_ge (p ++ x).length r.head.length with hlt | hle
  · -- The head is not all there.
    have hhead := List.prefix_of_prefix_length_le hp (List.prefix_append r.head r.body) hlt.le
    have hun := unfinished_of_isPrefix (ClientRequest.isHead_head h.toHasHead) hhead fun heq => by
      rw [heq] at hlt
      exact lt_irrefl _ hlt
    have harrived {q : Bytes} (hq : q.length ≤ r.head.length) :
        r.arrived cw q = { mgIfAcceptNewConn cw with recvMbuf := q, rcvd := q.length } := by
      simp only [ClientRequest.arrived, List.drop_eq_nil_of_le hq, List.take_of_length_le hq]
      exact congrArg (fun b => HttpConn.mk cw b _ _ _ _) (List.append_nil q)
    have hroom : ¬maxHttpRequestSize ≤ (p ++ x).length := not_le.2 (hlt.trans_le h.head_le)
    have hple : p.length ≤ r.head.length := (List.prefix_append p x).length_le.trans hlt.le
    rw [harrived hlt.le, harrived hple, List.length_append]
    refine ⟨[.other], rfl, recv_of_pass rfl rfl ?_⟩
    simp only [HttpConn.pass, mgParseHttp_eq_unfinished.2 hun, if_neg hroom]
    rfl
  · obtain ⟨s, hs⟩ := List.prefix_of_prefix_length_le (List.prefix_append r.head r.body) hp hle
    have hpre : p <+: r.render := (List.prefix_append p x).trans hp
    have hpne : p ≠ r.render := fun heq => by
      have hx : x = [] := by
        have := hp.length_le
        rw [heq, List.length_append] at this
        exact List.eq_nil_of_length_eq_zero (by omega)
      exact hne (by rw [hx, List.append_nil, heq])
    obtain ⟨body, rest, hbuf, hbody, -, hdata, hrest, hstopped⟩ :=
      arrived_split cw h hpre hpne hs.symm
    have hcut : (takeChunks s).stopped = none := by
      rw [← hs] at hp hne
      exact stopped_of_cut h hp hne
    have hrcvd : p.length + x.length < sizeMax := by
      have hlt := lt_of_le_of_ne hp.length_le fun heq => hne (hp.eq_of_length heq)
      have hsize := h.size
      rw [List.length_append] at hlt
      rw [sizeMax]
      omega
    obtain ⟨evs, hevs, hpass⟩ := pass_open
      (c := { r.arrived cw p with
        recvMbuf := (r.arrived cw p).recvMbuf ++ x, rcvd := (r.arrived cw p).rcvd + x.length })
      h hbuf hbody (hstopped ▸ hcut) hrcvd
    refine ⟨.other :: evs, hevs, (recv_of_pass rfl rfl hpass).trans ?_⟩
    rw [← hdata, ← hrest]
    simp only [ClientRequest.arrived, ← hs, List.drop_left, List.take_left]
    rw [hs, List.length_append]

/-- The end of the request arrives, with something behind it. -/
theorem recv_arrived_closed (cw n : ℕ) (h : r.IsChunked chunks last) (hp : p <+: r.render)
    (hne : p ≠ r.render) (hx : p ++ x = r.render ++ t) : ∃ evs,
      requests evs = [(cw, r.message (chunkedBody chunks ++ t))] ∧
        (r.arrived cw p).recv (n + 1) x = .ok (evs, mgIfAcceptNewConn cw) := by
  have hs : p ++ x = r.head ++ (chunkStream chunks last ++ t) := by
    rw [hx, ClientRequest.render, h.body, List.append_assoc]
  obtain ⟨body, rest, hbuf, hbody, hle, hdata, hrest, hstopped⟩ := arrived_split cw h hp hne hs
  obtain ⟨hall, hchunks, hafter⟩ := takeChunks_stream h.areChunks t
  have hafter' : afterChunks (takeChunks rest) = t := by
    rw [← hafter, afterChunks, afterChunks, hrest, hstopped]
  have hclosed : (takeChunks rest).stopped.isSome = true := by
    rw [← hstopped, hall]
    rfl
  have hrcvd : (r.head ++ (body ++ rest)).length ≤ p.length + x.length := by
    rw [← List.length_append, hs]
    simp only [List.length_append] at hle ⊢
    omega
  obtain ⟨evs, hevs, hpass⟩ := pass_closed
    (c := { r.arrived cw p with
      recvMbuf := (r.arrived cw p).recvMbuf ++ x, rcvd := (r.arrived cw p).rcvd + x.length })
    h hbuf hbody hclosed hrcvd
  rw [← hdata, hchunks, hafter'] at hevs
  exact ⟨.other :: evs, hevs, recv_of_pass rfl rfl hpass⟩

theorem recvAll_arrived (cw n : ℕ) (h : r.IsChunked chunks last) {ys : List Bytes}
    (hp : p ++ ys.flatten <+: r.render) (hne : p ++ ys.flatten ≠ r.render) :
    ∃ evs, requests evs = [] ∧
      (r.arrived cw p).recvAll (n + 1) ys = .ok (evs, r.arrived cw (p ++ ys.flatten)) := by
  induction ys generalizing p with
  | nil => exact ⟨[], rfl, by rw [List.flatten_nil, List.append_nil]; rfl⟩
  | cons y ys ih =>
    rw [List.flatten_cons, ← List.append_assoc] at hp hne ⊢
    have hpre := (List.prefix_append (p ++ y) ys.flatten).trans hp
    have hpne : p ++ y ≠ r.render := fun heq => by
      rw [← heq] at hp hne
      have hnil := hp.length_le
      rw [List.length_append] at hnil
      rw [List.eq_nil_of_length_eq_zero (l := ys.flatten) (by omega), List.append_nil] at hne
      exact hne rfl
    obtain ⟨evs, hevs, hrec⟩ := recv_arrived_open cw n h hpre hpne
    obtain ⟨evs', hevs', hrec'⟩ := ih hp hne
    exact ⟨evs ++ evs', by rw [requests_append, hevs, hevs']; rfl,
      HttpConn.recvAll_cons hrec hrec'⟩

end Connection

/-- `POST /`, with the body `hello` in two chunks. -/
def postHello : ClientRequest where
  method := post
  target := ascii ['/']
  proto := ascii ['H', 'T', 'T', 'P', '/', '1', '.', '1']
  fields := [(transferEncoding, chunked)]
  body := chunkStream [([0x33], ascii ['h', 'e', 'l']), ([0x30, 0x32], ascii ['l', 'o'])] [0x30]

theorem isChunked_postHello : postHello.IsChunked
    [([0x33], ascii ['h', 'e', 'l']), ([0x30, 0x32], ascii ['l', 'o'])] [0x30] where
  method := isWord_of_all (by decide) (by decide)
  target := isWord_of_all (by decide) (by decide)
  proto := isWord_of_all (by decide) (by decide)
  fields field hfield := by
    obtain rfl := List.mem_singleton.1 hfield
    exact ⟨isWord_of_all (by decide) (by decide), by decide, by decide,
      List.all_eq_true.1 (by decide), by rintro c ⟨⟩; decide, by rintro c ⟨⟩; decide⟩
  length_fields := by decide
  areChunks := by
    have hsize (s : Bytes) (n : ℕ) (hs : s ≠ []) (hlen : s.length ≤ 6)
        (hall : s.all isxdigit = true) (hvalue : ofDigits 16 s = n) : IsSize s n :=
      ⟨hs, hlen, List.all_eq_true.1 hall, hvalue⟩
    refine ⟨fun c hc => ?_, fun c hc => ?_, hsize _ _ (by decide) (by decide) (by decide) rfl⟩
    · rcases List.mem_pair.1 hc with rfl | rfl
      · exact hsize _ _ (by decide) (by decide) (by decide) rfl
      · exact hsize _ _ (by decide) (by decide) (by decide) rfl
    · rcases List.mem_pair.1 hc with rfl | rfl <;> decide
  body := rfl
  coding := ⟨_, rfl, rfl⟩
  unannounced := rfl
  expected := .inl rfl
  noWebsocket field hfield := by
    obtain rfl := List.mem_singleton.1 hfield
    decide
  size := by decide
  head_le := by decide

end PunyGui.Circlet
