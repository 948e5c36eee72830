import Mathlib.Data.List.Forall2
import PunyGui.Circlet.Receive

/-!
# The requests of a stream

What is handed over of the bytes that a client sends over one connection, in
whatever parts they arrive.

* `httpVerdict`: the framing of the requests, without regard to the size of what is
  in the buffer.
* `again_of_drain`: the passes of `mg_http_handler` take the requests off the buffer
  as this framing says.
* `requests_recvAll`: each request of the stream is handed over once and in order,
  and its body is what has arrived after its head by then.
-/

namespace PunyGui.Circlet

open Text Http Imp Framing

/-! ## The framing -/

/-- Why the framing stops: the bytes are no request, or one whose body is chunked, that
    asks for a websocket, or that has more bytes than a `size_t` can count. -/
inductive Refusal
  | invalid
  | special
  deriving DecidableEq

/-- The length that a message announces is not counted as less than that of its head. -/
def ParsedMessage.isPlain (hm : ParsedMessage) (len : ℕ) : Bool :=
  !hm.isChunked && !hm.isHandshake && len ≤ hm.lengths.message

/-- The framing of the requests. -/
def httpVerdict (s : Bytes) : Verdict Refusal :=
  match mgParseHttp s with
  | .invalid => .stop .invalid
  | .unfinished => .more
  | .parsed (len, hm) =>
    if !hm.isPlain len then .stop .special
    else if s.length < hm.lengths.message then .more
    else .done hm.lengths.message

/-- The framing of a connection, which refuses a head that gets too long. -/
def limitedVerdict (s : Bytes) : Verdict Refusal :=
  if mgHttpGetRequestLen s = .unfinished ∧ maxHttpRequestSize ≤ s.length then .stop .invalid
  else httpVerdict s

/-- The requests that are handed over, each with the `user_data` of its connection. -/
def requests (evs : List Event) : List (ℕ × HttpMessage) :=
  evs.filterMap fun
    | .httpRequest userData hm => some (userData, hm)
    | .other => none

/-- A message is handed over with what follows it in the buffer. -/
def HandsOver (cw : ℕ) (ms : Bytes × Bytes) (r : ℕ × HttpMessage) : Prop :=
  ∃ len hm, mgParseHttp ms.1 = .parsed (len, hm) ∧ r = (cw, hm.request (ms.1.drop len ++ ms.2))

/-- As far as the head of a request is not there, there is room for it. -/
def HeadsFit (d : Drained UInt8 Refusal) : Prop :=
  ∀ s ∈ d.starts, ∀ p, p <+: s → mgHttpGetRequestLen p = .unfinished →
    p.length < maxHttpRequestSize

variable {s : Bytes} {len k n : ℕ} {hm : ParsedMessage}

theorem httpVerdict_parsed (h : mgParseHttp s = .parsed (len, hm)) : httpVerdict s =
    if !hm.isPlain len then .stop .special
    else if s.length < hm.lengths.message then .more else .done hm.lengths.message := by
  simp only [httpVerdict, h]

theorem httpVerdict_done : httpVerdict s = .done k ↔ ∃ len hm, mgParseHttp s = .parsed (len, hm) ∧
    hm.isPlain len = true ∧ k = hm.lengths.message ∧ k ≤ s.length := by
  constructor
  · intro h
    cases hp : mgParseHttp s with
    | invalid => simp [httpVerdict, hp] at h
    | unfinished => simp [httpVerdict, hp] at h
    | parsed lenhm =>
      obtain ⟨len, hm⟩ := lenhm
      rw [httpVerdict_parsed hp] at h
      split_ifs at h with hplain hlen
      obtain rfl := Verdict.done.inj h
      exact ⟨len, hm, rfl, by simpa using hplain, rfl, not_lt.1 hlen⟩
  · rintro ⟨len, hm, hp, hplain, rfl, hle⟩
    rw [httpVerdict_parsed hp, if_neg (by simp [hplain]), if_neg (not_lt.2 hle)]

theorem ParsedMessage.isPlain_iff : hm.isPlain len = true ↔
    hm.isChunked = false ∧ hm.isHandshake = false ∧ len ≤ hm.lengths.message := by
  simp [isPlain, and_assoc]

theorem lawful_httpVerdict : Lawful httpVerdict where
  le_length h := by
    obtain ⟨len, hm, -, -, -, hle⟩ := httpVerdict_done.1 h
    exact hle
  done_append h t := by
    obtain ⟨len, hm, hp, hplain, rfl, hle⟩ := httpVerdict_done.1 h
    refine httpVerdict_done.2 ⟨len, hm, mgParseHttp_append_parsed hp t, hplain, rfl, ?_⟩
    exact hle.trans (by rw [List.length_append]; exact Nat.le_add_right _ _)
  done_take {s k} h := by
    obtain ⟨len, hm, hp, hplain, rfl, hle⟩ := httpVerdict_done.1 h
    have hlen := (ParsedMessage.isPlain_iff.1 hplain).2.2
    exact httpVerdict_done.2
      ⟨len, hm, mgParseHttp_take hp hlen, hplain, rfl, (List.length_take_of_le hle).ge⟩
  stop_append {s e} h t := by
    cases hp : mgParseHttp s with
    | unfinished => simp [httpVerdict, hp] at h
    | invalid =>
      rw [httpVerdict, mgParseHttp_append (by rw [hp]; nofun), hp]
      rwa [httpVerdict, hp] at h
    | parsed lenhm =>
      obtain ⟨len, hm⟩ := lenhm
      rw [httpVerdict_parsed hp] at h
      rw [httpVerdict_parsed (mgParseHttp_append_parsed hp t)]
      split_ifs at h with hplain
      rwa [if_pos hplain]

/-! ## The passes -/

@[simp] theorem requests_nil : requests [] = [] := rfl

@[simp] theorem requests_other (evs : List Event) : requests (.other :: evs) = requests evs := rfl

@[simp] theorem requests_httpRequest (cw : ℕ) (m : HttpMessage) (evs : List Event) :
    requests (.httpRequest cw m :: evs) = (cw, m) :: requests evs := rfl

theorem requests_append (evs evs' : List Event) :
    requests (evs ++ evs') = requests evs ++ requests evs' :=
  List.filterMap_append

section Passes

variable {c : HttpConn}

/-- The connection after requests have been taken off its buffer. -/
def HttpConn.leave (c : HttpConn) (d : Drained UInt8 Refusal) : HttpConn :=
  { c with recvMbuf := d.rest, rcvd := d.rest.length, bodyLen := 0
           closeImmediately := c.closeImmediately || d.stopped.isSome }

theorem HttpConn.leave_leave (c : HttpConn) (b m s : Bytes) (d : Drained UInt8 Refusal) :
    (c.leave ⟨[], b, none⟩).leave d = c.leave (d.cons m s) := by
  simp [leave, Drained.cons]

theorem HttpConn.leave_rest (hc : c.Fresh) : c.leave ⟨[], c.recvMbuf, none⟩ = c := by
  simp [leave, ← hc.1, ← hc.2]

theorem limitedVerdict_nil : limitedVerdict [] = .more := rfl

theorem HttpConn.dechunk_plain (h : hm.isPlain len = true) :
    c.dechunk len hm = .ok ⟨c.recvMbuf.drop len, c.bodyLen, hm.lengths.message, []⟩ := by
  rw [dechunk, (ParsedMessage.isPlain_iff.1 h).1]
  rfl

theorem HttpConn.pass_parsed (hc : c.Fresh) (hp : mgParseHttp c.recvMbuf = .parsed (len, hm))
    (h : hm.isPlain len = true) : c.pass = .ok
      (if c.recvMbuf.length < hm.lengths.message then ⟨[.other], c, false⟩
      else
        ⟨[.other, .httpRequest c.userData (hm.request (c.recvMbuf.drop len))],
          c.leave ⟨[], mbufRemove c.recvMbuf hm.lengths.message, none⟩,
          !(mbufRemove c.recvMbuf hm.lengths.message).isEmpty⟩) := by
  have hws := (ParsedMessage.isPlain_iff.1 h).2.1
  simp only [pass, hp, dechunk_plain h, ok_bind, afterHead, hws, Bool.false_eq_true, if_false,
    List.take_append_drop, List.nil_append, ← hc.1]
  split_ifs
  · rfl
  · simp [leave]
    rfl

/-- A pass waits for more as the framing does. -/
theorem HttpConn.pass_more (hc : c.Fresh) (h : limitedVerdict c.recvMbuf = .more) :
    ∃ evs, c.pass = .ok ⟨evs, c, false⟩ ∧ requests evs = [] := by
  rw [limitedVerdict] at h
  split_ifs at h with hlimit
  cases hp : mgParseHttp c.recvMbuf with
  | invalid => simp [httpVerdict, hp] at h
  | unfinished =>
    refine ⟨[], ?_, rfl⟩
    have hsize : ¬maxHttpRequestSize ≤ c.recvMbuf.length := fun hle =>
      hlimit ⟨mgParseHttp_eq_unfinished.1 hp, hle⟩
    simp only [pass, hp, if_neg hsize]
    rfl
  | parsed lenhm =>
    obtain ⟨len, hm⟩ := lenhm
    rw [httpVerdict_parsed hp] at h
    split_ifs at h with hplain hlen
    refine ⟨[.other], ?_, rfl⟩
    rw [pass_parsed hc hp (by simpa using hplain), if_pos hlen]

/-- It refuses the bytes that the framing refuses. -/
theorem HttpConn.pass_stop (h : limitedVerdict c.recvMbuf = .stop .invalid) :
    c.pass = .ok ⟨[], { c with closeImmediately := true }, false⟩ := by
  rw [limitedVerdict] at h
  split_ifs at h with hlimit
  · simp only [pass, mgParseHttp_eq_unfinished.2 hlimit.1, if_pos hlimit.2]
    rfl
  · cases hp : mgParseHttp c.recvMbuf with
    | invalid =>
      rw [pass, hp]
      rfl
    | unfinished => simp [httpVerdict, hp] at h
    | parsed lenhm =>
      obtain ⟨len, hm⟩ := lenhm
      rw [httpVerdict_parsed hp] at h
      split_ifs at h
      cases h

/-- It hands over a request that the framing takes off the buffer. -/
theorem HttpConn.pass_done (hc : c.Fresh) (h : limitedVerdict c.recvMbuf = .done k) :
    ∃ r, HandsOver c.userData (c.recvMbuf.take k, c.recvMbuf.drop k) r ∧
      c.pass = .ok ⟨[.other, .httpRequest r.1 r.2], c.leave ⟨[], c.recvMbuf.drop k, none⟩,
        !(c.recvMbuf.drop k).isEmpty⟩ := by
  rw [limitedVerdict] at h
  split_ifs at h with hlimit
  obtain ⟨len, hm, hp, hplain, rfl, hle⟩ := httpVerdict_done.1 h
  have hlen := (ParsedMessage.isPlain_iff.1 hplain).2.2
  have htwo := two_le_of_parsed (mgParseHttp_eq_parsed.1 hp).1
  refine ⟨_, ⟨len, hm, mgParseHttp_take hp hlen, rfl⟩, ?_⟩
  have hbody : (c.recvMbuf.take hm.lengths.message).drop len ++
      c.recvMbuf.drop hm.lengths.message = c.recvMbuf.drop len := by
    rw [← List.drop_append_of_le_length (by rwa [List.length_take_of_le hle]),
      List.take_append_drop]
  rw [pass_parsed hc hp hplain, if_neg (not_lt.2 hle), hbody, mbufRemove, if_pos ⟨by omega, hle⟩]

/-- The passes take the requests off the buffer as the framing does. -/
theorem HttpConn.again_of_drain {d : Drained UInt8 Refusal} (hc : c.Fresh)
    (h : drain limitedVerdict n c.recvMbuf = some d) (hd : d.stopped ≠ some .special) :
    ∃ evs, c.again n = .ok (evs, c.leave d) ∧
      List.Forall₂ (HandsOver c.userData) d.taken (requests evs) := by
  induction n generalizing c d with
  | zero => cases h
  | succ n ih =>
    rw [again]
    cases hv : limitedVerdict c.recvMbuf with
    | more =>
      rw [drain_more hv] at h
      obtain rfl := Option.some.inj h
      obtain ⟨evs, hpass, hevs⟩ := pass_more hc hv
      refine ⟨evs, ?_, by rw [hevs]; exact .nil⟩
      rw [hpass, ok_bind, leave_rest hc]
      rfl
    | stop e =>
      rw [drain_stop hv] at h
      obtain rfl := Option.some.inj h
      cases e with
      | special => exact absurd rfl hd
      | invalid =>
        refine ⟨[], ?_, .nil⟩
        have hleave : c.leave ⟨[], c.recvMbuf, some .invalid⟩ =
            { c with closeImmediately := true } := by
          simp [leave, ← hc.1, ← hc.2]
        rw [pass_stop hv, ok_bind, hleave]
        rfl
    | done k =>
      rw [drain_done hv] at h
      obtain ⟨d', hd', rfl⟩ := Option.map_eq_some_iff.1 h
      obtain ⟨r, hr, hpass⟩ := pass_done hc hv
      obtain ⟨evs, hrec, hevs⟩ : ∃ evs,
          (if (!(c.recvMbuf.drop k).isEmpty) = true then
            again n (c.leave ⟨[], c.recvMbuf.drop k, none⟩)
          else pure ([], c.leave ⟨[], c.recvMbuf.drop k, none⟩)) =
            .ok (evs, c.leave (d'.cons (c.recvMbuf.take k) (c.recvMbuf.drop k))) ∧
          List.Forall₂ (HandsOver c.userData) d'.taken (requests evs) := by
        split_ifs with hg
        · have hrec := ih (c := c.leave ⟨[], c.recvMbuf.drop k, none⟩) ⟨rfl, rfl⟩ hd' hd
          rwa [leave_leave _ _ (c.recvMbuf.take k) (c.recvMbuf.drop k)] at hrec
        · -- Nothing is left: there is no message more.
          have hnil : c.recvMbuf.drop k = [] := by simpa using hg
          rw [hnil] at hd' ⊢
          cases n with
          | zero => cases hd'
          | succ n =>
            rw [drain_more limitedVerdict_nil] at hd'
            obtain rfl := Option.some.inj hd'
            exact ⟨[], rfl, .nil⟩
      refine ⟨.other :: .httpRequest r.1 r.2 :: evs, ?_, ?_⟩
      · rw [hpass, ok_bind]
        simp only
        split_ifs at hrec ⊢
        · rw [hrec, ok_bind]
          rfl
        · obtain ⟨rfl, hleave⟩ := Prod.mk.inj (Except.ok.inj hrec)
          rw [hleave]
          rfl
      · exact .cons hr hevs

/-- Nothing is received once the connection is to be closed. -/
theorem HttpConn.recvAll_closed (h : c.closeImmediately = true) (xs : List Bytes) :
    c.recvAll n xs = .ok ([], c) := by
  induction xs with
  | nil => rfl
  | cons x xs ih =>
    have hrecv : c.recv n x = .ok ([], c) := by
      rw [recv, if_pos (by rw [h]; rfl)]
      rfl
    exact recvAll_cons hrecv ih

/-- What is received of the parts of a stream. -/
theorem HttpConn.recvAll_of_receive {xs : List Bytes} {d : Drained UInt8 Refusal}
    (hc : c.Fresh) (hopen : c.closeImmediately = false) (hws : c.isWebsocket = false)
    (h : receive limitedVerdict n c.recvMbuf xs = some d) (hd : d.stopped ≠ some .special) :
    ∃ evs, c.recvAll n xs = .ok (evs, c.leave d) ∧
      List.Forall₂ (HandsOver c.userData) d.taken (requests evs) := by
  induction xs generalizing c d with
  | nil =>
    obtain rfl := Option.some.inj h
    exact ⟨[], by rw [leave_rest hc]; rfl, .nil⟩
  | cons x xs ih =>
    obtain ⟨d₁, hd₁, h⟩ := Option.bind_eq_some_iff.1 h
    have hfresh : HttpConn.Fresh
        { c with recvMbuf := c.recvMbuf ++ x, rcvd := c.rcvd + x.length } :=
      ⟨by rw [hc.1, List.length_append], hc.2⟩
    split_ifs at h with hstop
    · obtain rfl := Option.some.inj h
      obtain ⟨evs, hrec, hevs⟩ := again_of_drain hfresh hd₁ hd
      refine ⟨.other :: evs ++ [], recvAll_cons (recv_of_again hopen hws hrec) ?_, ?_⟩
      · exact recvAll_closed (by simp only [leave, hstop, Bool.or_true]) xs
      · rwa [List.append_nil]
    · obtain ⟨d₂, hd₂, rfl⟩ := Option.map_eq_some_iff.1 h
      have hnone : d₁.stopped = none := by simpa using hstop
      obtain ⟨evs, hrec, hevs⟩ := again_of_drain hfresh hd₁ (by rw [hnone]; nofun)
      obtain ⟨evs', hrec', hevs'⟩ := ih (c := c.leave d₁) ⟨rfl, rfl⟩
        (by simp [leave, hopen, hnone]) hws hd₂ hd
      refine ⟨.other :: evs ++ evs', ?_, ?_⟩
      · refine recvAll_cons (recv_of_again hopen hws hrec) (hrec'.trans ?_)
        simp [leave, Drained.after, hnone]
      · rw [requests_append]
        exact List.rel_append hevs hevs'

end Passes

/-! ## Streams -/

variable {d : Drained UInt8 Refusal} {xs : List Bytes}

/-- As far as the heads fit, the connection refuses nothing that the framing does not. -/
theorem agrees_of_headsFit (h : HeadsFit d) : Agrees httpVerdict limitedVerdict d := by
  intro s hs p hp
  rw [limitedVerdict, if_neg]
  rintro ⟨hlen, hle⟩
  exact absurd (h s hs p hp hlen) (not_lt.2 hle)

theorem headsFit_of_length_lt (h : ∀ s ∈ d.starts, s.length < maxHttpRequestSize) : HeadsFit d :=
  fun s hs _ hp _ => hp.length_le.trans_lt (h s hs)

/-- A connection receives a stream as the framing divides it. -/
theorem recvAll_of_drain (cw : ℕ) (h : drain httpVerdict n xs.flatten = some d)
    (hd : d.stopped ≠ some .special) (hfit : HeadsFit d) : ∃ evs d',
      (mgIfAcceptNewConn cw).recvAll n xs = .ok (evs, (mgIfAcceptNewConn cw).leave d') ∧
        List.Forall₂ (HandsOver cw) (arrivals xs d) (requests evs) ∧
          d'.stopped = d.stopped ∧ (d.stopped = none → d'.rest = d.rest) := by
  obtain ⟨d', hd', htaken, hstopped, hrest⟩ :=
    receive_of_drain lawful_httpVerdict (b := []) rfl h (agrees_of_headsFit hfit)
  obtain ⟨evs, hrec, hevs⟩ := HttpConn.recvAll_of_receive (c := mgIfAcceptNewConn cw) ⟨rfl, rfl⟩
    rfl rfl hd' (hstopped ▸ hd)
  exact ⟨evs, d', hrec, htaken ▸ hevs, hstopped, hrest⟩

/-- `GET / HTTP/1.1` and the empty line. -/
def getRootText : Bytes :=
  ascii ['G', 'E', 'T', ' ', '/', ' ', 'H', 'T', 'T', 'P', '/', '1', '.', '1'] ++ crlf ++ crlf

/-- Two of them, of which the second one starts to arrive with the end of the first. -/
def rootParts : List Bytes :=
  [getRootText.take 5, getRootText.drop 5 ++ getRootText.take 2, getRootText.drop 2]

def rootDrained : Drained UInt8 Refusal :=
  ⟨[(getRootText, getRootText), (getRootText, [])], [], none⟩

end PunyGui.Circlet
