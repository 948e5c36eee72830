import PunyGui.Circlet.Reply

/-!
# One reply for every result

What `send_http` puts into the send buffer of a connection before it marks it to
be closed, for any value that a handler may return.

* `MgConnection.sendHttp`: the connection after it.
* `Answered`: it has got one head more, and the body after it. A value that is no
  reply, or has a part of the wrong type, is answered with the status 500.
* `sendHttp_answered_iff`: that is so for a value that is not a dictionary, and for
  a dictionary if its parts have the right types and no header has a blank line
  in it.
-/

namespace PunyGui.Circlet

open Text Libc Http

/-- The parts of `struct mg_connection` that a reply changes: the send buffer and
    the flag `MG_F_SEND_AND_CLOSE`. -/
structure MgConnection where
  sendMbuf : Bytes
  sendAndClose : Bool
  deriving DecidableEq

/-- `mg_send`. -/
def MgConnection.send (c : MgConnection) (s : Bytes) : MgConnection :=
  { c with sendMbuf := c.sendMbuf ++ s }

/-- `send_http`: whatever was queued, the connection is marked after it. -/
def MgConnection.sendHttp (rt : Runtime) (c : MgConnection) (res : Janet) : MgConnection :=
  { c.send (Circlet.sendHttp rt res) with sendAndClose := true }

/-- `janet_dictionary_view`. -/
def dictionaryView : Janet → Option Slots
  | .table kvs | .struct kvs => some kvs
  | _ => none

/-- The parts of a reply. -/
structure ReplyParts where
  code : ℤ
  headerkvs : Slots
  body : Bytes

/-- The parts of a dictionary, if all of them have the right types. -/
def replyParts (kvs : Slots) : Option ReplyParts :=
  (replyCode kvs).bind fun code => (replyHeaders kvs).bind fun headerkvs =>
    (replyBody kvs).map fun body => ⟨code, headerkvs, body⟩

/-- The status and the body a value is to be answered with: those of a dictionary
    with parts of the right types, of whose body `%.*s` writes what stands before the
    first zero byte, and 500 without a body for anything else. -/
def answer (res : Janet) : ℤ × Bytes :=
  ((dictionaryView res).bind replyParts).elim (500, []) fun parts =>
    (parts.code, cString parts.body)

/-- The connection has got one head, and after it the body, and is marked then. -/
def Answered (rt : Runtime) (res : Janet) : Prop :=
  ∀ c : MgConnection, ∃ reply, c.sendHttp rt res = ⟨c.sendMbuf ++ reply, true⟩ ∧
    splitHead reply = some (answer res)

variable {rt : Runtime}

theorem answered_iff {res : Janet} :
    Answered rt res ↔ splitHead (sendHttp rt res) = some (answer res) := by
  constructor
  · intro h
    obtain ⟨reply, hreply, hsplit⟩ := h ⟨[], false⟩
    obtain rfl : sendHttp rt res = reply := congrArg MgConnection.sendMbuf hreply
    exact hsplit
  · exact fun h c => ⟨_, rfl, h⟩

/-! ## The lines of a reply -/

/-- A header, without the end of its line. -/
def headerText (rt : Runtime) (kv : Janet × Janet) : Bytes :=
  cString (janetToString rt kv.1) ++ [0x3A, 0x20] ++ cString (janetToString rt kv.2)

/-- The lines of a reply after the first one. -/
def replyLines (rt : Runtime) (parts : ReplyParts) : List Bytes :=
  fieldLine serverField :: (entries parts.headerkvs).map (headerText rt) ++
    if parts.body.length ≠ 0 then [fieldLine (contentLengthField parts.body.length)] else []

theorem sendReply_eq_lines (parts : ReplyParts) :
    sendReply rt parts.code parts.headerkvs parts.body =
      (statusLine parts.code (mgStatusMessage parts.code) :: replyLines rt parts).flatMap
        (· ++ crlf) ++ (crlf ++ cString parts.body) := by
  have hheaders : (entries parts.headerkvs).flatMap (headerLine rt) =
      ((entries parts.headerkvs).map (headerText rt)).flatMap (· ++ crlf) := by
    rw [List.flatMap_map]
    rfl
  have hlength : (if parts.body.length ≠ 0 then contentLengthLine parts.body.length else []) =
      (if parts.body.length ≠ 0 then [fieldLine (contentLengthField parts.body.length)]
        else []).flatMap (· ++ crlf) := by
    split_ifs
    · exact (contentLengthLine_eq _).trans (List.append_nil _).symm
    · rfl
  rw [sendReply, mgSendResponseLine_eq, hheaders, hlength, replyLines]
  simp

theorem mgSendHead_eq_lines (code : ℤ) (len : ℕ) : mgSendHead code len =
    (statusLine code (mgStatusMessage code) ::
      [fieldLine serverField, fieldLine (contentLengthField len)]).flatMap (· ++ crlf) ++
        (crlf ++ []) := by
  rw [mgSendHead, mgSendResponseLine_eq, contentLengthLine_eq]
  simp

theorem not_hasBlank_fieldLine {field : Bytes × Bytes} (h : IsField field) :
    ¬HasBlank (fieldLine field ++ crlf) :=
  not_hasBlank h.isLine (by simp [fieldLine])

/-! ## Answers -/

/-- No header, written as its line, has a blank line in it. -/
def HeadersUnbroken (rt : Runtime) (parts : ReplyParts) : Prop :=
  ∀ kv ∈ entries parts.headerkvs, ¬HasBlank (headerLine rt kv)

theorem splitHead_sendReply_iff (parts : ReplyParts) :
    splitHead (sendReply rt parts.code parts.headerkvs parts.body) =
        some (parts.code, cString parts.body) ↔ HeadersUnbroken rt parts := by
  rw [sendReply_eq_lines, splitHead_lines_iff (isLine_mgStatusMessage _), replyLines]
  constructor
  · intro h kv hkv
    refine h (headerText rt kv) (List.mem_append_left _ (List.mem_cons_of_mem _ ?_))
    exact List.mem_map_of_mem hkv
  · intro h d hd
    rw [List.cons_append, List.mem_cons, List.mem_append] at hd
    rcases hd with rfl | hd | hd
    · exact not_hasBlank_fieldLine isField_serverField
    · obtain ⟨kv, hkv, rfl⟩ := List.mem_map.1 hd
      exact h kv hkv
    · split_ifs at hd
      · rw [List.mem_singleton.1 hd]
        exact not_hasBlank_fieldLine (isField_contentLengthField _)
      · cases hd

theorem splitHead_mgSendHead (code : ℤ) (len : ℕ) :
    splitHead (mgSendHead code len) = some (code, []) := by
  rw [mgSendHead_eq_lines, splitHead_lines_iff (isLine_mgStatusMessage code)]
  intro d hd
  rcases List.mem_pair.1 hd with rfl | rfl
  · exact not_hasBlank_fieldLine isField_serverField
  · exact not_hasBlank_fieldLine (isField_contentLengthField len)

theorem sendHttp_of_not_dictionary {res : Janet} (h : dictionaryView res = none) :
    sendHttp rt res = mgSendHead 500 0 := by
  cases res <;> first | rfl | cases h

theorem sendHttp_of_dictionary {res : Janet} {kvs : Slots} (h : dictionaryView res = some kvs) :
    sendHttp rt res =
      (replyParts kvs).elim [] fun parts => sendReply rt parts.code parts.headerkvs parts.body := by
  have hres : res = .table kvs ∨ res = .struct kvs := by
    cases res <;> first | cases h; simp | cases h
  rw [replyParts]
  rcases hres with rfl | rfl <;> rw [sendHttp] <;>
    cases replyCode kvs <;> cases replyHeaders kvs <;> cases replyBody kvs <;> rfl

/-- A value gets one head and its body exactly if it is no dictionary, or its parts have
    the right types and no header has a blank line in it. -/
theorem sendHttp_answered_iff (rt : Runtime) (res : Janet) : Answered rt res ↔
    ∀ kvs, dictionaryView res = some kvs →
      ∃ parts, replyParts kvs = some parts ∧ HeadersUnbroken rt parts := by
  rw [answered_iff, answer]
  cases hres : dictionaryView res with
  | none =>
    rw [sendHttp_of_not_dictionary hres]
    exact iff_of_true (splitHead_mgSendHead 500 0) fun _ h => by cases h
  | some kvs =>
    rw [sendHttp_of_dictionary hres, Option.bind_some]
    cases hparts : replyParts kvs with
    | none =>
      -- Nothing is queued.
      refine iff_of_false (fun h => Option.some_ne_none _ h.symm) fun h => ?_
      obtain ⟨parts, hparts', -⟩ := h kvs rfl
      cases hparts.symm.trans hparts'
    | some parts =>
      refine (splitHead_sendReply_iff parts).trans ⟨fun h kvs' hkvs => ?_, fun h => ?_⟩
      · cases hkvs
        exact ⟨parts, hparts, h⟩
      · obtain ⟨parts', hparts', hunbroken⟩ := h kvs rfl
        cases hparts.symm.trans hparts'
        exact hunbroken

example : Answered Runtime.assoc (.struct hello) := answered_iff.2 (by decide)

/-- A status that is a string: the connection is closed without a reply. -/
theorem sendHttp_status_string :
    ¬Answered Runtime.assoc (.struct [(statusKey, .string (ascii ['4', '0', '4']))]) := by
  rw [answered_iff]
  decide

end PunyGui.Circlet
