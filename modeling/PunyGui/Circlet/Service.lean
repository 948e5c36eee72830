import PunyGui.Circlet.Clients
import PunyGui.Circlet.Poll

/-!
# Serving clients

From the bytes that clients write to the bytes that they are sent.

* `Responds`: the handler returns for every request, and what it returns is right.
* `serverRun_responds`: however the turns of the connections and the parts of their
  bytes are mixed, a client that writes well-formed requests is sent a right reply to
  each of them, in order, and all of them before it is disconnected.
-/

namespace PunyGui.Circlet

open Text Http Imp Sessions History

variable {σ : Type} {rt : Runtime} {mw : Handler σ} {P : Janet → Janet → Prop}

/-- The handler raises no error, and what it returns for a request has a property. -/
def Responds (mw : Handler σ) (P : Janet → Janet → Prop) : Prop :=
  ∀ s req, ∃ ret s', mw s req = (.ok ret, s') ∧ P req ret

/-- A reply that is built from such a return value. -/
def IsReply (rt : Runtime) (P : Janet → Janet → Prop) (r : ℕ × HttpMessage) (reply : Bytes) :
    Prop :=
  ∃ ret, P (buildHttpRequest rt r.1 r.2) ret ∧ reply = sendHttp rt ret

/-- The handler raises no error for the requests of mongoose, and the replies to them have
    a property. -/
def Replies (rt : Runtime) (mw : Handler σ) (R : ℕ × HttpMessage → Bytes → Prop) : Prop :=
  ∀ s r, ∃ ret s', mw s (buildHttpRequest rt r.1 r.2) = (.ok ret, s') ∧ R r (sendHttp rt ret)

theorem Responds.replies (hmw : Responds mw P) : Replies rt mw (IsReply rt P) := by
  intro s r
  obtain ⟨ret, s', hret, hP⟩ := hmw s (buildHttpRequest rt r.1 r.2)
  exact ⟨ret, s', hret, ret, hP, rfl⟩

variable {R : ℕ × HttpMessage → Bytes → Prop}

/-- A fiber that waits answers all requests. -/
theorem Replies.of_answers (hmw : Replies rt mw R) {s : σ}
    {es : List ((ℕ × HttpMessage) × Option Bytes)} {w' : Server σ}
    (h : Run (Answers rt mw) ⟨.pending, s⟩ es w') :
    ∀ e ∈ es, ∃ reply, e.2 = some reply ∧ R e.1 reply := by
  induction es generalizing s with
  | nil => exact fun e he => absurd he List.not_mem_nil
  | cons e es ih =>
    obtain - | ⟨ha, hes⟩ := h
    obtain ⟨ret, s', hret, hR⟩ := hmw s e.1
    rw [Answers, httpHandler_ok hret] at ha
    obtain ⟨hreply, rfl⟩ := Prod.mk.inj ha
    intro e' he'
    rcases List.mem_cons.1 he' with rfl | he'
    · exact ⟨_, hreply.symm, hR⟩
    · exact ih hes e' he'

theorem exists_replies {acts : List Action}
    (h : ∀ e ∈ exchanges acts, ∃ reply, e.2 = some reply ∧ R e.1 reply) :
    ∃ rep, List.Forall₂ R ((exchanges acts).map Prod.fst) rep ∧ replies acts = rep.flatten := by
  rw [replies]
  generalize exchanges acts = es at h ⊢
  induction es with
  | nil => exact ⟨[], .nil, rfl⟩
  | cons e es ih =>
    obtain ⟨reply, he, hreply⟩ := h e List.mem_cons_self
    obtain ⟨rep, hrep, heq⟩ := ih fun e' he' => h e' (List.mem_cons_of_mem e he')
    refine ⟨reply :: rep, .cons hreply hrep, ?_⟩
    rw [List.filterMap_cons_some he, List.flatten_cons, heq, List.flatten_cons]

variable {cw n : ℕ} {rs : List ClientRequest} {t : Bytes} {acts : List Action} {nc : ServerConn}

/-- What a connection has handed over of well-formed requests. -/
theorem Standing.requests_eq (h : Standing cw n acts nc) (hrs : ∀ r ∈ rs, r.Fits)
    (ht : IsCut t) (hread : (received acts).flatten = rs.flatMap ClientRequest.render ++ t) :
    (exchanges acts).map Prod.fst = handedOver cw (received acts) rs t ∧ frames acts = [] ∧
      (.failed ∉ acts → nc.http.closeImmediately = false) := by
  obtain ⟨evs, http, hrec, hreq, hconn⟩ := h.read
  have hmono := HttpConn.recvAll_mono hrec (le_max_left n (rs.length + 1))
  obtain ⟨evs', c, hrec', hevs, rfl⟩ :=
    recvAll_requests cw hrs ht hread (le_max_right n (rs.length + 1))
  obtain ⟨rfl, rfl⟩ := Prod.mk.inj (Except.ok.inj (hmono.symm.trans hrec'))
  refine ⟨hreq.trans hevs, h.frames_eq hrec rfl, fun hfailed => ?_⟩
  rw [hconn.resolve_right fun hh => hfailed hh.1]
  rfl

section Run

variable {s : σ} {ts : List (Turn Socket)} {tr : List (ℕ × Action)}
  {y : System (Server σ) ServerConn} {i : ℕ} {c : Option ServerConn}

/-- What a connection that reads well-formed requests has sent. -/
theorem Replies.serverRun (hmw : Replies rt mw R) (h : serverRun rt mw cw n s ts = .ok (tr, y))
    (hi : y.sessions[i]? = some c) (hrs : ∀ r ∈ rs, r.Fits) (ht : IsCut t)
    (hread : (received (actionsOf i tr)).flatten = rs.flatMap ClientRequest.render ++ t) :
    ∃ rep, List.Forall₂ R (handedOver cw (received (actionsOf i tr)) rs t) rep ∧
      sent (actionsOf i tr) <+: rep.flatten ∧
        (∀ nc, c = some nc → sent (actionsOf i tr) ++ nc.sendMbuf = rep.flatten) ∧
          (c = none → .failed ∉ actionsOf i tr → sent (actionsOf i tr) = rep.flatten) := by
  have hall := hmw.of_answers (answers_serverRun h)
  have hown : ∀ e ∈ exchanges (actionsOf i tr), ∃ reply, e.2 = some reply ∧ R e.1 reply := by
    intro e he
    obtain ⟨a, ha, hae⟩ := List.mem_filterMap.1 he
    exact hall e (List.mem_filterMap.2 ⟨a, mem_of_mem_actionsOf ha, hae⟩)
  have hdone := hasDone_serverRun h hi
  cases c with
  | some nc =>
    obtain ⟨rep, hrep, hreplies⟩ := exists_replies hown
    obtain ⟨hreq, hframes, -⟩ := hdone.requests_eq hrs ht hread
    have hqueue : sent (actionsOf i tr) ++ nc.sendMbuf = rep.flatten := by
      rw [← hreplies, ← hdone.queue, hframes, List.append_nil]
    rw [hreq] at hrep
    refine ⟨rep, hrep, hqueue ▸ List.prefix_append _ _, fun nc' hnc => ?_, nofun⟩
    rw [← Option.some.inj hnc, hqueue]
  | none =>
    -- What is queued when the connection is closed is not sent.
    obtain ⟨past, nc, last, hacts, hpast, hisDone, -, hreceived, hsent, -⟩ := hdone
    have hpastread : received (actionsOf i tr) = received past := by
      rw [hacts, received_append, received_append, hreceived, List.append_nil]
      exact List.append_nil _
    have hpastsent : sent (actionsOf i tr) = sent past := by
      rw [hacts, sent_append, sent_append, hsent, List.append_nil]
      exact List.append_nil _
    rw [hpastread] at hread ⊢
    rw [hpastsent]
    have hpastown : ∀ e ∈ exchanges past, ∃ reply, e.2 = some reply ∧ R e.1 reply := by
      intro e he
      refine hown e ?_
      rw [hacts, exchanges_append, exchanges_append]
      exact List.mem_append_left _ (List.mem_append_left _ he)
    obtain ⟨rep, hrep, hreplies⟩ := exists_replies hpastown
    obtain ⟨hreq, hframes, hopen⟩ := hpast.requests_eq hrs ht hread
    have hqueue : sent past ++ nc.sendMbuf = rep.flatten := by
      rw [← hreplies, ← hpast.queue, hframes, List.append_nil]
    rw [hreq] at hrep
    refine ⟨rep, hrep, hqueue ▸ List.prefix_append _ _, nofun, fun _ hfailed => ?_⟩
    have hnc : nc.sendMbuf = [] := by
      rw [ServerConn.isDone, hopen fun hmem => hfailed (by rw [hacts]; simp [hmem])] at hisDone
      simpa using (Bool.and_eq_true_iff.1 hisDone).2
    rw [← hqueue, hnc, List.append_nil]

end Run

theorem responds_emptyPage : Responds emptyPage fun _ ret => ret = .struct [] :=
  fun _ _ => ⟨.struct [], (), rfl, rfl⟩

end PunyGui.Circlet
