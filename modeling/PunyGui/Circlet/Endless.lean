import PunyGui.Circlet.Receive
import PunyGui.Fuel

/-!
# Requests that never end

The length of a message is that of its head and that of the body it announces, as
a `size_t`. If they add up to zero, the message is done at once, and
`mbuf_remove` takes nothing off the buffer: `mg_http_handler` comes to the same
message again, without end.

* `HttpConn.Stuck`: a connection in which that happens.
* `next_self_iff`: a pass leaves a connection as it is exactly if it is stuck.
* `listener_forever_iff`: what arrives in a connection is never done with exactly if
  the passes come to a connection that is stuck.
-/

namespace PunyGui.Circlet

open Text Http Imp Fuel

variable {c c' : HttpConn} {len n : ℕ} {hm : ParsedMessage} {data : Bytes}

/-- The connection before the next pass, if there is one. -/
def HttpConn.next (c : HttpConn) : Option HttpConn :=
  match c.pass with
  | .ok p => if p.again then some p.conn else none
  | .error _ => none

/-- The request at the start of the buffer is done, and takes nothing off it: the lengths
    of its head and of the body it announces add up to zero. -/
def HttpConn.Stuck (c : HttpConn) : Prop :=
  c.Fresh ∧ ∃ len hm, mgParseHttp c.recvMbuf = .parsed (len, hm) ∧ hm.isHandshake = false ∧
    hm.lengths.message = 0 ∧
      (hm.isChunked = true → mgHttpParseChunk (c.recvMbuf.drop len) = none)

/-- `MG_EV_RECV` before the first pass. -/
def HttpConn.received (c : HttpConn) (data : Bytes) : HttpConn :=
  { c with recvMbuf := c.recvMbuf ++ data, rcvd := c.rcvd + data.length }

/-- Bytes without a chunk are left as they are. -/
theorem HttpConn.dechunk_fresh (h : c.bodyLen = 0)
    (hchunk : hm.isChunked = true → mgHttpParseChunk (c.recvMbuf.drop len) = none) :
    c.dechunk len hm = .ok ⟨c.recvMbuf.drop len, c.bodyLen, hm.lengths.message, []⟩ := by
  rw [dechunk]
  split_ifs with hc
  · have hverdict : chunkVerdict (c.recvMbuf.drop len) = .more := by
      rw [chunkVerdict, hchunk hc]
    have htake : takeChunks (c.recvMbuf.drop len) = ⟨[], c.recvMbuf.drop len, none⟩ := by
      rw [takeChunks, Framing.drain_more hverdict, Option.getD_some]
    have heq := mgHandleChunked_eq len hm.lengths.message [] (c.recvMbuf.drop len)
    rw [List.nil_append, List.length_nil, htake] at heq
    rw [h, heq]
    rfl
  · rfl

theorem HttpConn.next_eq_some : c.next = some c' ↔
    ∃ p, c.pass = .ok p ∧ p.again = true ∧ p.conn = c' := by
  rw [next]
  cases c.pass with
  | error e => simp
  | ok p => simp

/-- There is another pass after a request that is done. -/
theorem HttpConn.afterHead_again {ch : Chunked} (h : (c.afterHead len hm ch).again = true) :
    hm.isHandshake = false ∧ ch.messageLen ≤ c.rcvd ∧
      (c.afterHead len hm ch).conn.recvMbuf =
        mbufRemove (c.recvMbuf.take len ++ ch.buf) ch.messageLen := by
  rw [afterHead] at h ⊢
  split_ifs at h ⊢ with hws hmore
  exact ⟨by simpa using hws, not_lt.1 hmore, rfl⟩

/-- A body that is left as it is has no chunk. -/
theorem HttpConn.parseChunk_of_dechunk (hc : hm.isChunked = true) (hbody : c.bodyLen = 0)
    {ch : Chunked} (h : c.dechunk len hm = .ok ch)
    (hbuf : ch.buf.length = (c.recvMbuf.drop len).length) :
    mgHttpParseChunk (c.recvMbuf.drop len) = none := by
  obtain ⟨buf, hdrop⟩ : ∃ buf, c.recvMbuf.drop len = buf := ⟨_, rfl⟩
  have heq := mgHandleChunked_eq len hm.lengths.message [] buf
  rw [List.nil_append, List.length_nil] at heq
  rw [dechunk, if_pos hc, hbody, hdrop, heq] at h
  obtain rfl := Except.ok.inj h
  obtain ⟨gap, hgap, hnil⟩ := length_takeChunks buf
  have hg : gap = [] := by
    apply List.eq_nil_of_length_eq_zero
    rw [hdrop] at hbuf
    simp only [List.nil_append, List.length_append] at hbuf
    omega
  obtain ⟨htaken, hstopped⟩ := hnil.1 hg
  have hverdict := Framing.verdict_rest (drain_takeChunks (Nat.lt_succ_self buf.length))
  have hmem := Framing.mem_starts (drain_takeChunks (Nat.lt_succ_self buf.length))
  rw [Framing.Drained.starts, htaken, List.map_nil, List.nil_append, List.mem_singleton] at hmem
  rw [← hmem, hstopped] at hverdict
  rw [hdrop]
  exact mgHttpParseChunk_eq_none hverdict

/-- A pass leaves the connection as it is exactly if it is stuck. -/
theorem HttpConn.next_self_iff (h : c.Inv) : c.next = some c ↔ c.Stuck := by
  rw [next_eq_some]
  constructor
  · rintro ⟨p, hp, hagain, hconn⟩
    obtain ⟨p', hp', -, hspec⟩ := pass_spec h
    obtain rfl : p = p' := Except.ok.inj (hp.symm.trans hp')
    have hfresh : c.Fresh := hconn ▸ (hspec hagain).1
    refine ⟨hfresh, ?_⟩
    rw [pass] at hp
    cases hparse : mgParseHttp c.recvMbuf with
    | invalid =>
      rw [hparse] at hp
      obtain rfl := Except.ok.inj hp
      cases hagain
    | unfinished =>
      rw [hparse] at hp
      simp only at hp
      split_ifs at hp <;> obtain rfl := Except.ok.inj hp <;> cases hagain
    | parsed lenhm =>
      obtain ⟨len, hm⟩ := lenhm
      obtain ⟨ch, hch, -, hshort⟩ := dechunk_eq h hparse
      simp only [hparse, hch, ok_bind] at hp
      obtain rfl := Except.ok.inj hp
      obtain ⟨hws, hle, hbuf⟩ := afterHead_again hagain
      rw [hconn] at hbuf
      -- The buffer has not become shorter, so nothing is dechunked and nothing removed.
      have hch' : ch = ⟨c.recvMbuf.drop len, c.bodyLen, hm.lengths.message, []⟩ := by
        refine hshort.resolve_left fun hlt => ?_
        have hlen := congrArg List.length (List.take_append_drop len c.recvMbuf)
        have hrem := mbufRemove_eq_self_or (c.recvMbuf.take len ++ ch.buf) ch.messageLen
        have hle' : (mbufRemove (c.recvMbuf.take len ++ ch.buf) ch.messageLen).length ≤
            (c.recvMbuf.take len ++ ch.buf).length := by
          rcases hrem with h | h
          · exact h.le
          · rw [h]
        rw [← hbuf, List.length_append] at hle'
        rw [List.length_append] at hlen
        omega
      refine ⟨len, hm, rfl, hws, ?_, fun hc => ?_⟩
      · rw [hch'] at hbuf hle
        simp only [List.take_append_drop] at hbuf hle
        by_contra hne
        rw [mbufRemove, if_pos ⟨Nat.pos_of_ne_zero hne, hle.trans_eq hfresh.1⟩] at hbuf
        have hlen := congrArg List.length hbuf
        rw [List.length_drop] at hlen
        have hle₀ := le_length_of_parsed hparse
        have htwo := two_le_of_parsed (mgParseHttp_eq_parsed.1 hparse).1
        omega
      · exact parseChunk_of_dechunk hc hfresh.2 hch (by rw [hch'])
  · rintro ⟨⟨hrcvd, hbody⟩, len, hm, hp, hws, hlen, hchunk⟩
    have hne : c.recvMbuf ≠ [] := by
      intro hnil
      rw [hnil] at hp
      cases hp
    rw [pass, hp]
    simp only [dechunk_fresh hbody hchunk, ok_bind]
    refine ⟨_, rfl, ?_, ?_⟩
    · simp [afterHead, hws, hlen, mbufRemove, hne]
    · have hself : { c with rcvd := c.recvMbuf.length, bodyLen := 0 } = c := by
        rw [← hrcvd, ← hbody]
      simpa [afterHead, hws, hlen, mbufRemove] using hself

/-- The bound is too small exactly if there is another pass after it. -/
theorem HttpConn.again_eq_fuel_iff (h : c.Inv) (n : ℕ) :
    c.again n = .error .fuel ↔ (after next n c).isSome := by
  induction n generalizing c with
  | zero => exact iff_of_true rfl rfl
  | succ n ih =>
    obtain ⟨p, hp, -, hagain⟩ := pass_spec h
    rw [again, hp, ok_bind]
    by_cases hg : p.again = true
    · have hnext : c.next = some p.conn := next_eq_some.2 ⟨p, hp, hg, rfl⟩
      rw [if_pos hg, after_succ hnext, ← ih (hagain hg).1.inv]
      rcases again_spec (hagain hg).1.inv n with hrec | ⟨evs, c', hrec, -⟩
      · rw [hrec]
        exact iff_of_true rfl rfl
      · rw [hrec]
        exact iff_of_false (fun h => by cases h) (fun h => by cases h)
    · rw [if_neg hg, after, next, hp]
      simp only [if_neg hg]
      exact iff_of_false (fun h => by cases h) (fun h => by cases h)

theorem HttpConn.next_spec (h : c.Inv) (hn : c.next = some c') : c'.Inv ∧
    (2 * c'.recvMbuf.length + (if c'.Fresh then 0 else 1) <
      2 * c.recvMbuf.length + (if c.Fresh then 0 else 1) ∨ c' = c) := by
  obtain ⟨p, hp, hagain, rfl⟩ := next_eq_some.1 hn
  obtain ⟨p', hp', -, hspec⟩ := pass_spec h
  obtain rfl : p = p' := Except.ok.inj (hp.symm.trans hp')
  obtain ⟨hfresh, hlt | heq⟩ := hspec hagain
  · refine ⟨hfresh.inv, .inl ?_⟩
    rw [if_pos hfresh]
    omega
  · refine ⟨hfresh.inv, ?_⟩
    by_cases hc : c.Fresh
    · right
      rw [heq]
      obtain ⟨hrcvd, hbody⟩ := hc
      rw [← hrcvd, ← hbody]
    · left
      rw [if_pos hfresh, if_neg hc, heq]
      exact Nat.lt_succ_self _

/-- The passes do not end exactly if they come to a connection that is stuck. -/
theorem HttpConn.again_forever_iff (h : c.Inv) :
    (∀ n, c.again n = .error .fuel) ↔ ∃ k c', after next k c = some c' ∧ c'.Stuck := by
  have hinv : ∀ k c', after next k c = some c' → c'.Inv := by
    intro k
    induction k generalizing c with
    | zero =>
      intro c' hk
      obtain rfl := Option.some.inj hk
      exact h
    | succ k ih =>
      intro c' hk
      obtain ⟨c₁, hc₁, hk⟩ := Option.bind_eq_some_iff.1 hk
      exact ih (next_spec h hc₁).1 c' hk
  calc (∀ n, c.again n = .error .fuel)
      ↔ ∀ n, (after next n c).isSome := forall_congr' (again_eq_fuel_iff h)
    _ ↔ ∃ k c', after next k c = some c' ∧ c'.next = some c' :=
        forever_iff _ h fun c c' => next_spec
    _ ↔ ∃ k c', after next k c = some c' ∧ c'.Stuck :=
        exists_congr fun k => exists_congr fun c' =>
          and_congr_right fun hk => next_self_iff (hinv k c' hk)

theorem HttpConn.again_mono {m : ℕ} {r : List Event × HttpConn} (h : c.again n = .ok r)
    (hnm : n ≤ m) : c.again m = .ok r := by
  induction n generalizing c m r with
  | zero => cases h
  | succ n ih =>
    obtain ⟨m, rfl⟩ : ∃ m', m = m' + 1 := ⟨m - 1, by omega⟩
    rw [again] at h ⊢
    obtain ⟨p, hp, h⟩ := bind_eq_ok.1 h
    rw [hp, ok_bind]
    split_ifs at h ⊢
    · obtain ⟨r', hr', h⟩ := bind_eq_ok.1 h
      rw [ih hr' (Nat.le_of_succ_le_succ hnm), ok_bind]
      exact h
    · exact h

theorem HttpConn.recv_mono {m : ℕ} {r : List Event × HttpConn} (h : c.recv n data = .ok r)
    (hnm : n ≤ m) : c.recv m data = .ok r := by
  rw [recv] at h ⊢
  split_ifs at h ⊢
  · exact h
  · obtain ⟨r', hr', h⟩ := bind_eq_ok.1 h
    rw [again_mono hr' hnm, ok_bind]
    exact h

theorem HttpConn.recvAll_mono {m : ℕ} {r : List Event × HttpConn} {xs : List Bytes}
    (h : c.recvAll n xs = .ok r) (hnm : n ≤ m) : c.recvAll m xs = .ok r := by
  induction xs generalizing c r with
  | nil => exact h
  | cons x xs ih =>
    rw [recvAll] at h ⊢
    obtain ⟨⟨evs, c₁⟩, h₁, h⟩ := bind_eq_ok.1 h
    obtain ⟨⟨evs', c₂⟩, h₂, h⟩ := bind_eq_ok.1 h
    rw [recv_mono h₁ hnm, ok_bind]
    simp only [ih h₂, ok_bind]
    exact h

/-- What is received for a part takes the bytes through the passes. -/
theorem HttpConn.recv_forever_iff (h : c.isWebsocket = true ∨ c.Inv) :
    (∀ n, c.recv n data = .error .fuel) ↔ c.closeImmediately = false ∧ c.isWebsocket = false ∧
      ∃ k c', after next k (c.received data) = some c' ∧ c'.Stuck := by
  by_cases hclosed : (c.closeImmediately || c.isWebsocket) = true
  · refine iff_of_false (fun hn => ?_) fun hopen => ?_
    · have := hn 0
      rw [recv, if_pos hclosed] at this
      cases this
    · rw [hopen.1, hopen.2.1] at hclosed
      cases hclosed
  · have hopen : c.closeImmediately = false ∧ c.isWebsocket = false := by simpa using hclosed
    have hinv : (c.received data).Inv :=
      (h.resolve_left (by rw [hopen.2]; exact Bool.false_ne_true)).recv data _
    rw [and_iff_right hopen.1, and_iff_right hopen.2, ← again_forever_iff hinv]
    refine forall_congr' fun n => ?_
    rw [recv, if_neg hclosed]
    change (HttpConn.again n (c.received data) >>= _) = _ ↔ _
    rcases again_spec hinv n with hrec | ⟨evs, c', hrec, -⟩
    · rw [hrec]
      exact iff_of_true rfl rfl
    · rw [hrec]
      exact iff_of_false (fun h => by cases h) (fun h => by cases h)

/-- The bytes that arrive in the parts `xs` keep the connection in a loop without end. -/
def HttpConn.Loops (c : HttpConn) (xs : List Bytes) : Prop :=
  ∃ ys x zs, xs = ys ++ x :: zs ∧ ∃ m evs c', c.recvAll m ys = .ok (evs, c') ∧
    c'.closeImmediately = false ∧ c'.isWebsocket = false ∧
      ∃ k c'', after next k (c'.received x) = some c'' ∧ c''.Stuck

theorem HttpConn.loops_cons_of_recv {x : Bytes} {xs : List Bytes} {evs : List Event}
    (hx : c.recv n x = .ok (evs, c')) (h : c'.Loops xs) : c.Loops (x :: xs) := by
  obtain ⟨ys, y, zs, rfl, m, evs', c₁, hys, hstuck⟩ := h
  refine ⟨x :: ys, y, zs, rfl, max n m, evs ++ evs', c₁, ?_, hstuck⟩
  rw [recvAll, recv_mono hx (le_max_left n m), ok_bind]
  simp only [recvAll_mono hys (le_max_right n m), ok_bind]
  rfl

theorem HttpConn.recvAll_forever_iff (h : c.isWebsocket = true ∨ c.Inv) (xs : List Bytes) :
    (∀ n, c.recvAll n xs = .error .fuel) ↔ c.Loops xs := by
  induction xs generalizing c with
  | nil =>
    refine iff_of_false (fun hn => by cases hn 0) ?_
    rintro ⟨ys, x, zs, hxs, -⟩
    exact List.append_ne_nil_of_right_ne_nil ys (List.cons_ne_nil x zs) hxs.symm
  | cons x xs ih =>
    by_cases hx : ∀ n, c.recv n x = .error .fuel
    · -- The first part is never done with.
      refine iff_of_true (fun n => by rw [recvAll, hx n]; rfl) ?_
      exact ⟨[], x, xs, rfl, 0, [], c, rfl, (recv_forever_iff h).1 hx⟩
    · obtain ⟨n₀, hn₀⟩ := not_forall.1 hx
      obtain ⟨evs, c₁, hrec, hc₁⟩ := (recv_spec h n₀ x).resolve_left hn₀
      constructor
      · intro hn
        refine loops_cons_of_recv hrec ((ih hc₁).1 fun n => ?_)
        rcases recvAll_spec hc₁ n xs with hxs | ⟨evs', c₂, hxs, -⟩
        · exact hxs
        · have hmax := hn (max n₀ n)
          rw [recvAll, recv_mono hrec (le_max_left n₀ n), ok_bind] at hmax
          simp only [recvAll_mono hxs (le_max_right n₀ n), ok_bind] at hmax
          cases hmax
      · rintro ⟨ys, y, zs, hxs, m, evs', c₂, hys, hopen⟩ n
        cases ys with
        | nil =>
          -- Then the first part would not have been done with.
          obtain ⟨rfl, rfl⟩ := List.cons.inj hxs
          obtain ⟨-, rfl⟩ := Prod.mk.inj (Except.ok.inj hys)
          exact absurd ((recv_forever_iff h).2 hopen) hx
        | cons x' ys =>
          obtain ⟨rfl, rfl⟩ := List.cons.inj hxs
          obtain ⟨⟨evs₁, c₁'⟩, h₁, hys⟩ := bind_eq_ok.1 hys
          obtain ⟨⟨evs₂, c₂'⟩, h₂, hys⟩ := bind_eq_ok.1 hys
          obtain ⟨-, rfl⟩ := Prod.mk.inj (Except.ok.inj hys)
          obtain ⟨-, rfl⟩ := Prod.mk.inj (Except.ok.inj
            ((recv_mono hrec (le_max_left n₀ m)).symm.trans (recv_mono h₁ (le_max_right n₀ m))))
          have hrest := (ih hc₁).2 ⟨ys, y, zs, rfl, m, evs₂, _, h₂, hopen⟩
          rw [recvAll]
          rcases recv_spec h n x with hn | ⟨evs₃, c₃, hn, -⟩
          · rw [hn]
            rfl
          · obtain ⟨-, rfl⟩ := Prod.mk.inj (Except.ok.inj
              ((recv_mono hrec (le_max_left n₀ n)).symm.trans (recv_mono hn (le_max_right n₀ n))))
            rw [hn, ok_bind]
            simp only [hrest n]
            rfl

/-- A request that announces a body of minus its own length. -/
def getEndless : Bytes :=
  ascii ['G', 'E', 'T', ' ', '/', ' ', 'H', 'T', 'T', 'P', '/', '1', '.', '1'] ++ crlf ++
    contentLengthName ++ ascii [':', ' ', '-', '3', '9'] ++ crlf ++ crlf

example : (mgIfAcceptNewConn 1).Loops [getEndless] :=
  ⟨[], getEndless, [], rfl, 0, [], _, rfl, rfl, rfl, 0, _, rfl, ⟨rfl, rfl⟩, 39, _, rfl, rfl, rfl,
    nofun⟩

end PunyGui.Circlet
