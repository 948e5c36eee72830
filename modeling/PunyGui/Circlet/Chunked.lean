import PunyGui.Circlet.Server
import PunyGui.Framing
import PunyGui.Imp

/-!
# Chunked bodies

`mg_handle_chunked` of mongoose takes the chunks of a body out of their frames,
in the receive buffer: the data of a chunk are moved down to the data before
them, and what is left of the buffer is moved down after the last chunk.

* `mgHttpParseChunk`: the chunk at the start of some bytes, if it is all there.
* `mgHandleChunked`: what is in the buffer after the head, once its chunks are
  collapsed.
* `mgHttpParseChunk_iff`: the bytes that are a chunk.
* `mgHandleChunked_eq`: no access leaves the buffer, and the data of the chunks and
  what follows them are where they would be without the frames.
-/

namespace PunyGui.Circlet

open Text Http Imp Framing

/-! ## The buffer -/

/-- The length of a chunk, and where its data are. -/
structure Chunk where
  total : ℕ
  chunkData : ℕ
  chunkLen : ℕ
  deriving DecidableEq

/-- `mg_http_parse_chunk`, which returns zero if there is none. -/
def mgHttpParseChunk (buf : Bytes) : Option Chunk :=
  let i := (buf.takeWhile isxdigit).length
  let n := ofDigits 16 (buf.takeWhile isxdigit)
  if 6 < i then none
  else if i = 0 ∨ (buf.drop i).take 2 ≠ crlf then none
  else if (buf.drop (i + 2 + n)).take 2 ≠ crlf then none
  else some ⟨i + 2 + n + 2, i + 2, n⟩

/-- `memmove` in a buffer. -/
def memmove (buf : Bytes) (dst src n : ℕ) : Outcome Bytes :=
  if dst + n ≤ buf.length ∧ src + n ≤ buf.length then
    .ok (buf.take dst ++ (buf.drop src).take n ++ buf.drop (dst + n))
  else .error .fault

/-- The variables of `mg_handle_chunked`. -/
structure Collapse where
  buf : Bytes
  bodyLen : ℕ
  i : ℕ
  zeroChunkReceived : Bool

/-- The loop that collapses the chunks, with a bound on its steps. -/
def Collapse.loop : ℕ → Collapse → Outcome Collapse
  | 0, _ => .error .fuel
  | n + 1, r =>
    match mgHttpParseChunk (r.buf.drop r.i) with
    | none => .ok r
    | some c => do
      let buf ← memmove r.buf r.bodyLen (r.i + c.chunkData) c.chunkLen
      let r := { r with buf, bodyLen := r.bodyLen + c.chunkLen, i := r.i + c.total }
      if c.chunkLen = 0 then pure { r with zeroChunkReceived := true } else loop n r

/-- What `mg_handle_chunked` leaves: the buffer from the body on, `chunk.body_len` and
    `message.len`, and the events it has sent. -/
structure Chunked where
  buf : Bytes
  bodyLen : ℕ
  messageLen : ℕ
  events : List Event

/-- `mg_handle_chunked`, for a message with a head of a length. -/
def mgHandleChunked (headLen : ℕ) (buf : Bytes) (bodyLen messageLen : ℕ) : Outcome Chunked :=
  -- `assert(blen >= body_len)`
  if buf.length < bodyLen then .error .fault
  else do
    let r ← Collapse.loop (buf.length + 1) ⟨buf, bodyLen, bodyLen, false⟩
    if r.i ≤ r.bodyLen then pure ⟨buf, bodyLen, messageLen, []⟩
    -- `assert(i <= blen)`
    else if buf.length < r.i then .error .fault
    else do
      let moved ← memmove r.buf r.bodyLen r.i (buf.length - r.i)
      pure {
        -- What `memset` clears is no longer counted by `recv_mbuf.len`.
        buf := moved.take (buf.length - (r.i - r.bodyLen))
        bodyLen := r.bodyLen
        messageLen :=
          if r.zeroChunkReceived then r.bodyLen + (buf.length - r.i) + headLen else messageLen
        events := [.other] }

/-! ## Chunks -/

/-- A number of so many bytes as a chunk has it before its data. -/
structure IsSize (size : Bytes) (n : ℕ) : Prop where
  ne_nil : size ≠ []
  length_le : size.length ≤ 6
  digits : ∀ c ∈ size, isxdigit c = true
  value : ofDigits 16 size = n

/-- A chunk: the number of its data, and the data. -/
def chunk (size data : Bytes) : Bytes := size ++ crlf ++ data ++ crlf

theorem stops_crlf (t : Bytes) : Stops isxdigit (crlf ++ t) := stops_cons.2 rfl

/-- The end of a line, and what follows it. -/
theorem eq_crlf_append {s : Bytes} {i : ℕ} (h : (s.drop i).take 2 = crlf) :
    s.drop i = crlf ++ s.drop (i + 2) := by
  rw [← h, ← List.drop_drop, List.take_append_drop]

/-- The bytes of which a chunk is read. -/
theorem mgHttpParseChunk_iff {s : Bytes} {c : Chunk} : mgHttpParseChunk s = some c ↔
    ∃ size data rest, IsSize size data.length ∧ s = chunk size data ++ rest ∧
      c = ⟨(chunk size data).length, size.length + 2, data.length⟩ := by
  constructor
  · intro h
    rw [mgHttpParseChunk] at h
    obtain ⟨size, hsize⟩ : ∃ size, s.takeWhile isxdigit = size := ⟨_, rfl⟩
    rw [hsize] at h
    split_ifs at h with h₁ h₂ h₃
    rw [not_or, not_not] at h₂
    rw [not_not] at h₃
    obtain rfl := Option.some.inj h
    -- The bytes, cut at the ends of both lines.
    have hs : s = size ++ (crlf ++ ((s.drop (size.length + 2)).take (ofDigits 16 size) ++
        (crlf ++ s.drop (size.length + 2 + ofDigits 16 size + 2)))) := by
      have hdata := List.take_append_drop (ofDigits 16 size) (s.drop (size.length + 2))
      rw [List.drop_drop, eq_crlf_append h₃] at hdata
      have htake : s.take size.length = size :=
        hsize ▸ (List.prefix_iff_eq_take.1 (List.takeWhile_prefix isxdigit)).symm
      rw [hdata, ← eq_crlf_append h₂.2]
      conv_lhs => rw [← List.take_append_drop size.length s, htake]
    have hlen : ((s.drop (size.length + 2)).take (ofDigits 16 size)).length =
        ofDigits 16 size := by
      rw [List.length_take, min_eq_left]
      have := congrArg List.length h₃
      rw [List.length_take, List.length_drop, crlf, List.length_cons] at this
      rw [List.length_drop]
      omega
    have hsize' : IsSize size ((s.drop (size.length + 2)).take (ofDigits 16 size)).length :=
      ⟨fun hnil => h₂.1 (by rw [hnil]; rfl), not_lt.1 h₁,
        fun c hc => of_mem_takeWhile (hsize ▸ hc), hlen.symm⟩
    refine ⟨size, _, s.drop (size.length + 2 + ofDigits 16 size + 2), hsize', ?_, ?_⟩
    · simpa only [chunk, List.append_assoc] using hs
    · simp only [chunk, List.length_append, hlen]
      rfl
  · rintro ⟨size, data, rest, hsize, rfl, rfl⟩
    have htake : (chunk size data ++ rest).takeWhile isxdigit = size := by
      simp only [chunk, List.append_assoc]
      exact takeWhile_append_all hsize.digits (stops_crlf _)
    have hdrop : (chunk size data ++ rest).drop size.length = crlf ++ (data ++ crlf ++ rest) := by
      simp only [chunk, List.append_assoc, List.drop_left]
    have hdrop' :
        (chunk size data ++ rest).drop (size.length + 2 + data.length) = crlf ++ rest := by
      rw [← List.drop_drop, ← List.drop_drop, hdrop, List.append_assoc]
      exact List.drop_left
    have hne : size.length ≠ 0 := fun h => hsize.ne_nil (List.eq_nil_of_length_eq_zero h)
    rw [mgHttpParseChunk, htake, hsize.value, if_neg (not_lt.2 hsize.length_le), hdrop, hdrop',
      if_neg (by simp [hne, crlf]), if_neg (by simp [crlf])]
    simp only [chunk, List.length_append]
    rfl

/-! ## The chunks of a buffer -/

/-- The framing of the chunks, which end with one that has no data. -/
def chunkVerdict (s : Bytes) : Verdict Unit :=
  match mgHttpParseChunk s with
  | none => .more
  | some c => if c.chunkLen = 0 then .stop () else .done c.total

/-- The data of a chunk. -/
def chunkData (s : Bytes) : Bytes :=
  (mgHttpParseChunk s).elim [] fun c => (s.drop c.chunkData).take c.chunkLen

/-- The chunks that are taken off the start of some bytes. -/
def takeChunks (s : Bytes) : Drained UInt8 Unit :=
  (drain chunkVerdict (s.length + 1) s).getD ⟨[], s, none⟩

/-- The data of the chunks that are taken off the buffer. -/
def bodyData (d : Drained UInt8 Unit) : Bytes := (d.taken.map fun ms => chunkData ms.1).flatten

/-- What is left after them, without the last chunk. -/
def afterChunks (d : Drained UInt8 Unit) : Bytes :=
  if d.stopped.isSome then d.rest.drop ((mgHttpParseChunk d.rest).elim 0 Chunk.total) else d.rest

variable {size data rest : Bytes}

theorem mgHttpParseChunk_chunk (h : IsSize size data.length) (rest : Bytes) :
    mgHttpParseChunk (chunk size data ++ rest) =
      some ⟨(chunk size data).length, size.length + 2, data.length⟩ :=
  mgHttpParseChunk_iff.2 ⟨size, data, rest, h, rfl, rfl⟩

theorem chunkData_chunk (h : IsSize size data.length) : chunkData (chunk size data) = data := by
  have hparse := mgHttpParseChunk_chunk h []
  rw [List.append_nil] at hparse
  have hdrop : (chunk size data).drop (size.length + 2) = data ++ crlf := by
    rw [← List.drop_drop, chunk, List.append_assoc, List.append_assoc, List.drop_left]
    rfl
  rw [chunkData, hparse, Option.elim_some, hdrop, List.take_left]

theorem chunkVerdict_chunk (h : IsSize size data.length) (rest : Bytes) :
    chunkVerdict (chunk size data ++ rest) =
      if data = [] then .stop () else .done (chunk size data).length := by
  simp only [chunkVerdict, mgHttpParseChunk_chunk h rest, List.length_eq_zero_iff]

theorem chunkVerdict_done {s : Bytes} {k : ℕ} (h : chunkVerdict s = .done k) :
    ∃ size data rest, IsSize size data.length ∧ data ≠ [] ∧ s = chunk size data ++ rest ∧
      k = (chunk size data).length := by
  cases hs : mgHttpParseChunk s with
  | none => simp [chunkVerdict, hs] at h
  | some c =>
    obtain ⟨size, data, rest, hsize, rfl, rfl⟩ := mgHttpParseChunk_iff.1 hs
    rw [chunkVerdict_chunk hsize] at h
    split_ifs at h with hdata
    exact ⟨size, data, rest, hsize, hdata, rfl, (Verdict.done.inj h).symm⟩

theorem chunkVerdict_stop {s : Bytes} (h : chunkVerdict s = .stop ()) :
    ∃ size rest, IsSize size 0 ∧ s = chunk size [] ++ rest := by
  cases hs : mgHttpParseChunk s with
  | none => simp [chunkVerdict, hs] at h
  | some c =>
    obtain ⟨size, data, rest, hsize, rfl, rfl⟩ := mgHttpParseChunk_iff.1 hs
    rw [chunkVerdict_chunk hsize] at h
    split_ifs at h with hdata
    subst hdata
    exact ⟨size, rest, hsize, rfl⟩

theorem lawful_chunkVerdict : Lawful chunkVerdict where
  le_length h := by
    obtain ⟨size, data, rest, -, -, rfl, rfl⟩ := chunkVerdict_done h
    rw [List.length_append]
    exact Nat.le_add_right _ _
  done_append h t := by
    obtain ⟨size, data, rest, hsize, hdata, rfl, rfl⟩ := chunkVerdict_done h
    rw [List.append_assoc, chunkVerdict_chunk hsize, if_neg hdata]
  done_take h := by
    obtain ⟨size, data, rest, hsize, hdata, rfl, rfl⟩ := chunkVerdict_done h
    rw [List.take_left, ← List.append_nil (chunk size data), chunkVerdict_chunk hsize,
      if_neg hdata, List.append_nil]
  stop_append h t := by
    obtain ⟨size, rest, hsize, rfl⟩ := chunkVerdict_stop h
    rw [List.append_assoc, chunkVerdict_chunk hsize, if_pos rfl]

theorem drain_takeChunks {s : Bytes} {n : ℕ} (h : s.length < n) :
    drain chunkVerdict n s = some (takeChunks s) := by
  have hpos : ∀ s k, chunkVerdict s = .done k → 0 < k := by
    intro s k hk
    obtain ⟨size, data, rest, -, -, -, rfl⟩ := chunkVerdict_done hk
    rw [chunk, List.length_append]
    exact Nat.add_pos_right _ (by decide)
  obtain ⟨d, hd⟩ := exists_drain lawful_chunkVerdict hpos (Nat.lt_succ_self s.length)
  rw [drain_mono hd h, takeChunks, hd, Option.getD_some]

/-! ## The collapse -/

theorem memmove_eq {buf : Bytes} {dst src n : ℕ} (hdst : dst + n ≤ buf.length)
    (hsrc : src + n ≤ buf.length) : memmove buf dst src n =
      .ok (buf.take dst ++ (buf.drop src).take n ++ buf.drop (dst + n)) :=
  if_pos ⟨hdst, hsrc⟩

theorem length_chunk (size data : Bytes) :
    (chunk size data).length = size.length + 2 + data.length + 2 := by
  simp only [chunk, List.length_append]
  rfl

theorem drop_chunk (size data rest : Bytes) :
    (chunk size data ++ rest).drop (size.length + 2) = data ++ (crlf ++ rest) := by
  rw [← List.drop_drop, chunk, List.append_assoc, List.append_assoc, List.append_assoc,
    List.drop_left]
  rfl

/-- The data of a chunk are moved down to the body. What is between them and the next
    chunk then is out of use. -/
theorem memmove_chunk (body gap rest : Bytes) (size data : Bytes) :
    memmove (body ++ gap ++ (chunk size data ++ rest)) body.length
        ((body ++ gap).length + (size.length + 2)) data.length =
      .ok (body ++ data ++ (gap ++ chunk size data).drop data.length ++ rest) := by
  have hlen := length_chunk size data
  rw [memmove_eq]
  · have hsrc : ((body ++ gap ++ (chunk size data ++ rest)).drop
        ((body ++ gap).length + (size.length + 2))).take data.length = data := by
      rw [← List.drop_drop, List.drop_left, drop_chunk, List.take_left]
    have hdst : (body ++ gap ++ (chunk size data ++ rest)).drop (body.length + data.length) =
        (gap ++ chunk size data).drop data.length ++ rest := by
      rw [List.append_assoc, ← List.drop_drop, List.drop_left, ← List.append_assoc,
        List.drop_append_of_le_length (by rw [List.length_append]; omega)]
    rw [hsrc, hdst, List.append_assoc body gap, List.take_left, List.append_assoc (body ++ data)]
  · simp only [List.length_append]
    omega
  · simp only [List.length_append]
    omega

/-- One step of the loop. -/
theorem Collapse.loop_chunk (n : ℕ) (body gap rest : Bytes) (h : IsSize size data.length) :
    Collapse.loop (n + 1) ⟨body ++ gap ++ (chunk size data ++ rest), body.length,
        (body ++ gap).length, false⟩ =
      let gap' := (gap ++ chunk size data).drop data.length
      let r := ⟨body ++ data ++ gap' ++ rest, (body ++ data).length, (body ++ data ++ gap').length,
        false⟩
      if data = [] then .ok { r with zeroChunkReceived := true } else Collapse.loop n r := by
  have hlen : (body ++ gap).length + (chunk size data).length =
      (body ++ data ++ (gap ++ chunk size data).drop data.length).length := by
    have := length_chunk size data
    simp only [List.length_append, List.length_drop]
    omega
  rw [Collapse.loop, List.drop_left, mgHttpParseChunk_chunk h]
  simp only [memmove_chunk, ok_bind, hlen, ← List.length_append, List.length_eq_zero_iff]
  rfl

theorem mgHttpParseChunk_eq_none {s : Bytes} (h : chunkVerdict s = .more) :
    mgHttpParseChunk s = none := by
  cases hs : mgHttpParseChunk s with
  | none => rfl
  | some c =>
    simp only [chunkVerdict, hs] at h
    split_ifs at h

/-- Chunks that are taken off what is behind the body are collapsed to their data. -/
theorem Collapse.loop_eq {n : ℕ} {rest : Bytes} {d : Drained UInt8 Unit} (body gap : Bytes)
    (h : drain chunkVerdict n rest = some d) :
    ∃ gap' : Bytes, Collapse.loop n
          ⟨body ++ gap ++ rest, body.length, (body ++ gap).length, false⟩ =
        .ok ⟨body ++ bodyData d ++ gap' ++ afterChunks d, (body ++ bodyData d).length,
          (body ++ bodyData d ++ gap').length, d.stopped.isSome⟩ ∧
      (gap' = [] ↔ gap = [] ∧ d.taken = [] ∧ d.stopped = none) := by
  induction n generalizing body gap rest d with
  | zero => cases h
  | succ n ih =>
    cases hv : chunkVerdict rest with
    | more =>
      rw [drain_more hv] at h
      obtain rfl := Option.some.inj h
      refine ⟨gap, ?_, by simp⟩
      rw [Collapse.loop, List.drop_left, mgHttpParseChunk_eq_none hv]
      simp [bodyData, afterChunks]
    | stop e =>
      obtain ⟨size, rest, (hsize : IsSize size ([] : Bytes).length), rfl⟩ := chunkVerdict_stop hv
      rw [drain_stop hv] at h
      obtain rfl := Option.some.inj h
      refine ⟨gap ++ chunk size [], ?_, iff_of_false (fun hgap => ?_) (by simp)⟩
      · rw [Collapse.loop_chunk n body gap rest hsize, if_pos rfl]
        have hafter : afterChunks ⟨[], chunk size [] ++ rest, some e⟩ = rest := by
          rw [afterChunks, mgHttpParseChunk_chunk hsize]
          exact List.drop_left
        simp [bodyData, hafter]
      · have := congrArg List.length hgap
        rw [List.length_append, length_chunk] at this
        cases this
    | done k =>
      obtain ⟨size, data, rest, hsize, hdata, rfl, rfl⟩ := chunkVerdict_done hv
      rw [drain_done hv, List.drop_left, List.take_left] at h
      obtain ⟨d', hd', rfl⟩ := Option.map_eq_some_iff.1 h
      obtain ⟨gap', hloop, hgap'⟩ :=
        ih (body ++ data) ((gap ++ chunk size data).drop data.length) hd'
      have hbody : bodyData (d'.cons (chunk size data) rest) = data ++ bodyData d' := by
        rw [bodyData, Drained.cons, List.map_cons, List.flatten_cons, chunkData_chunk hsize]
        rfl
      refine ⟨gap', ?_, iff_of_false (fun hgap => ?_) (by simp [Drained.cons])⟩
      · rw [Collapse.loop_chunk n body gap rest hsize, if_neg hdata, hloop, hbody]
        simp only [List.append_assoc]
        rfl
      · have := congrArg List.length (hgap'.1 hgap).1
        rw [List.length_drop, List.length_append, length_chunk, List.length_nil] at this
        omega

theorem length_memmove {buf buf' : Bytes} {dst src n : ℕ} (h : memmove buf dst src n = .ok buf') :
    buf'.length = buf.length := by
  rw [memmove] at h
  split_ifs at h with hle
  obtain rfl := Except.ok.inj h
  simp only [List.length_append, List.length_take, List.length_drop]
  omega

theorem Collapse.length_loop {n : ℕ} {r r' : Collapse} (h : Collapse.loop n r = .ok r') :
    r'.buf.length = r.buf.length := by
  induction n generalizing r with
  | zero => cases h
  | succ n ih =>
    rw [Collapse.loop] at h
    split at h
    · obtain rfl := Except.ok.inj h
      rfl
    · obtain ⟨buf, hbuf, h⟩ := bind_eq_ok.1 h
      split_ifs at h
      · obtain rfl := Except.ok.inj h
        exact length_memmove hbuf
      · exact (ih h).trans (length_memmove hbuf)

/-- What is behind the gap is moved down over it. -/
theorem memmove_rest (body gap rest : Bytes) : ∃ moved,
    memmove (body ++ gap ++ rest) body.length (body ++ gap).length
        ((body ++ gap ++ rest).length - (body ++ gap).length) = .ok moved ∧
      moved.take ((body ++ gap ++ rest).length - ((body ++ gap).length - body.length)) =
        body ++ rest := by
  have hrest : (body ++ gap ++ rest).length - (body ++ gap).length = rest.length := by
    rw [List.length_append, Nat.add_sub_cancel_left]
  have hall : (body ++ gap ++ rest).length - ((body ++ gap).length - body.length) =
      (body ++ rest).length := by
    simp only [List.length_append]
    omega
  refine ⟨_, memmove_eq ?_ ?_, ?_⟩
  · simp only [List.length_append]
    omega
  · simp only [List.length_append]
    omega
  · rw [hrest, hall, List.drop_left, List.take_length, List.append_assoc body, List.take_left,
      List.take_left]

/-- The chunks and their frames are longer than their data. -/
theorem length_takeChunks (rest : Bytes) : ∃ gap : Bytes,
    rest.length = (bodyData (takeChunks rest)).length + gap.length +
        (afterChunks (takeChunks rest)).length ∧
      (gap = [] ↔ (takeChunks rest).taken = [] ∧ (takeChunks rest).stopped = none) := by
  obtain ⟨gap, hloop, hgap⟩ :=
    Collapse.loop_eq [] [] (drain_takeChunks (Nat.lt_succ_self rest.length))
  refine ⟨gap, ?_, hgap.trans (and_iff_right rfl)⟩
  have hlen := Collapse.length_loop hloop
  simpa only [List.nil_append, List.length_append] using hlen.symm

/-- If there is no chunk, nothing is taken. -/
theorem takeChunks_of_none {rest : Bytes} (htaken : (takeChunks rest).taken = [])
    (hstopped : (takeChunks rest).stopped = none) :
    bodyData (takeChunks rest) = [] ∧ afterChunks (takeChunks rest) = rest := by
  refine ⟨by rw [bodyData, htaken]; rfl, ?_⟩
  have hmem := mem_starts (drain_takeChunks (Nat.lt_succ_self rest.length))
  rw [Drained.starts, htaken, List.map_nil, List.nil_append, List.mem_singleton] at hmem
  rw [afterChunks, hstopped]
  exact hmem.symm

/-- The chunks behind the body are collapsed to their data, wherever the body ends: no
    assertion fails and no access leaves the buffer. -/
theorem mgHandleChunked_eq (headLen messageLen : ℕ) (body rest : Bytes) :
    mgHandleChunked headLen (body ++ rest) body.length messageLen = .ok {
      buf := body ++ bodyData (takeChunks rest) ++ afterChunks (takeChunks rest)
      bodyLen := (body ++ bodyData (takeChunks rest)).length
      messageLen :=
        if (takeChunks rest).stopped.isSome then
          (body ++ bodyData (takeChunks rest) ++ afterChunks (takeChunks rest)).length + headLen
        else messageLen
      events :=
        if (takeChunks rest).taken = [] ∧ (takeChunks rest).stopped = none then []
        else [.other] } := by
  have hdrain := drain_takeChunks (s := rest) (n := (body ++ rest).length + 1)
    (by rw [List.length_append]; omega)
  have hnone := @takeChunks_of_none rest
  generalize takeChunks rest = d at hdrain hnone ⊢
  obtain ⟨gap, hloop, hgap⟩ := Collapse.loop_eq body [] hdrain
  rw [List.append_nil] at hloop
  have hlen := Collapse.length_loop hloop
  rw [mgHandleChunked, if_neg (by simp), hloop, ok_bind]
  by_cases hnil : gap = []
  · -- There is no chunk.
    obtain ⟨-, htaken, hstopped⟩ := hgap.1 hnil
    obtain ⟨hdata, hafter⟩ := hnone htaken hstopped
    simp [hnil, htaken, hstopped, hdata, hafter]
    rfl
  · obtain ⟨moved, hmoved, htake⟩ := memmove_rest (body ++ bodyData d) gap (afterChunks d)
    have hsome : ¬(d.taken = [] ∧ d.stopped = none) := fun h => hnil (hgap.2 ⟨rfl, h⟩)
    have hlt : (body ++ bodyData d).length < (body ++ bodyData d ++ gap).length := by
      have hpos := List.length_pos_iff.2 hnil
      simp only [List.length_append]
      omega
    have hafter : (body ++ bodyData d ++ gap ++ afterChunks d).length -
        (body ++ bodyData d ++ gap).length = (afterChunks d).length := by
      rw [List.length_append, Nat.add_sub_cancel_left]
    simp only at hlen ⊢
    rw [if_neg (not_le.2 hlt), if_neg (by rw [← hlen, List.length_append]; omega), ← hlen, hmoved,
      ok_bind, htake, if_neg hsome, hafter]
    simp only [← List.length_append]
    rfl

end PunyGui.Circlet
