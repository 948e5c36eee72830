import PunyGui.Http
import PunyGui.Janet

/-!
# HTTP replies

`send_http` turns what a handler returns into the bytes of a reply, with the
status line of mongoose and `mg_printf`, which is `printf` into the send buffer
of the connection. The connection is closed after it.

* `sendHttp`: the bytes that are queued.
* `sendHttp_eq`: for a dictionary they are a head, written line by line, and the
  part of the body before its first zero byte, since `%.*s` stops there.
* `sendHttp_carries_iff`: they carry the dictionary exactly if its body has no
  zero byte.
-/

namespace PunyGui.Circlet

open Text Libc Http

variable (rt : Runtime)

/-- `mg_status_message`. -/
def mgStatusMessage : ℤ → Bytes
  | 206 => ascii ['P', 'a', 'r', 't', 'i', 'a', 'l', ' ', 'C', 'o', 'n', 't', 'e', 'n', 't']
  | 301 => ascii ['M', 'o', 'v', 'e', 'd']
  | 302 => ascii ['F', 'o', 'u', 'n', 'd']
  | 400 => ascii ['B', 'a', 'd', ' ', 'R', 'e', 'q', 'u', 'e', 's', 't']
  | 401 => ascii ['U', 'n', 'a', 'u', 't', 'h', 'o', 'r', 'i', 'z', 'e', 'd']
  | 403 => ascii ['F', 'o', 'r', 'b', 'i', 'd', 'd', 'e', 'n']
  | 404 => ascii ['N', 'o', 't', ' ', 'F', 'o', 'u', 'n', 'd']
  | 416 => ascii ['R', 'e', 'q', 'u', 'e', 's', 't', 'e', 'd', ' ', 'R', 'a', 'n', 'g', 'e', ' ',
    'N', 'o', 't', ' ', 'S', 'a', 't', 'i', 's', 'f', 'i', 'a', 'b', 'l', 'e']
  | 418 => ascii ['I', '\'', 'm', ' ', 'a', ' ', 't', 'e', 'a', 'p', 'o', 't']
  | 500 => ascii ['I', 'n', 't', 'e', 'r', 'n', 'a', 'l', ' ', 'S', 'e', 'r', 'v', 'e', 'r', ' ',
    'E', 'r', 'r', 'o', 'r']
  | 502 => ascii ['B', 'a', 'd', ' ', 'G', 'a', 't', 'e', 'w', 'a', 'y']
  | 503 => ascii ['S', 'e', 'r', 'v', 'i', 'c', 'e', ' ', 'U', 'n', 'a', 'v', 'a', 'i', 'l', 'a',
    'b', 'l', 'e']
  | _ => ascii ['O', 'K']

/-- `mg_version_header`. -/
def mgVersionHeader : Bytes :=
  ascii ['M', 'o', 'n', 'g', 'o', 'o', 's', 'e', '/', '6', '.', '1', '4']

/-- `mg_send_response_line`, without extra headers. -/
def mgSendResponseLine (code : ℤ) : Bytes :=
  ascii ['H', 'T', 'T', 'P', '/', '1', '.', '1', ' '] ++ formatInt code ++
    [0x20] ++ mgStatusMessage code ++ crlf ++
    ascii ['S', 'e', 'r', 'v', 'e', 'r', ':', ' '] ++ mgVersionHeader ++ crlf

/-- The line `Content-Length: %d`. -/
def contentLengthLine (len : ℤ) : Bytes :=
  ascii ['C', 'o', 'n', 't', 'e', 'n', 't', '-', 'L', 'e', 'n', 'g', 't', 'h', ':', ' '] ++
    formatInt len ++ crlf

/-- `mg_send_head`, for a content length that is not negative. -/
def mgSendHead (code len : ℤ) : Bytes :=
  mgSendResponseLine code ++ contentLengthLine len ++ crlf

/-- `janet_to_string`. -/
def janetToString (x : Janet) : Bytes := x.bytes?.getD (rt.describe x)

def statusKey : Janet := .keyword (ascii ['s', 't', 'a', 't', 'u', 's'])
def headersKey : Janet := .keyword (ascii ['h', 'e', 'a', 'd', 'e', 'r', 's'])
def bodyKey : Janet := .keyword (ascii ['b', 'o', 'd', 'y'])

/-- The status of a dictionary: 200 if there is none. -/
def replyCode (kvs : Slots) : Option ℤ :=
  match dictionaryGet kvs statusKey with
  | .nil => some 200
  | status => status.checkint

/-- The slots of its headers. -/
def replyHeaders (kvs : Slots) : Option Slots :=
  match dictionaryGet kvs headersKey with
  | .nil => some []
  | .table headerkvs | .struct headerkvs => some headerkvs
  | _ => none

/-- The bytes of its body. -/
def replyBody (kvs : Slots) : Option Bytes :=
  match dictionaryGet kvs bodyKey with
  | .nil => some []
  | body => body.bytes?

/-- The line `%s: %s` of a header. -/
def headerLine (kv : Janet × Janet) : Bytes :=
  cString (janetToString rt kv.1) ++ [0x3A, 0x20] ++ cString (janetToString rt kv.2) ++ crlf

/-- The reply to a dictionary. -/
def sendReply (code : ℤ) (headerkvs : Slots) (body : Bytes) : Bytes :=
  mgSendResponseLine code ++ (entries headerkvs).flatMap (headerLine rt) ++
    (if body.length ≠ 0 then contentLengthLine body.length else []) ++
    -- `%.*s` writes at most as many bytes as the body has, and none from a zero byte on.
    (crlf ++ cString body)

/-- The bytes that `send_http` queues. -/
def sendHttp : Janet → Bytes
  | .table kvs | .struct kvs =>
    match replyCode kvs, replyHeaders kvs, replyBody kvs with
    | some code, some headerkvs, some body => sendReply rt code headerkvs body
    -- A part of the wrong type: nothing is queued before the connection is closed.
    | _, _, _ => []
  | _ => mgSendHead 500 0

/-! ## The round trip -/

variable {rt}

/-- The headers of a dictionary, as strings. -/
def headerFields (rt : Runtime) (headerkvs : Slots) : List (Bytes × Bytes) :=
  (entries headerkvs).map fun kv => (janetToString rt kv.1, janetToString rt kv.2)

/-- `server`. -/
def server : Bytes := ascii ['s', 'e', 'r', 'v', 'e', 'r']

/-- The field is none of those that `send_http` and mongoose write themselves. -/
def IsOther (field : Bytes × Bytes) : Bool :=
  lower field.1 != server && lower field.1 != contentLength

/-- A header that may stand in a dictionary: a string for its name and one for
    its value, without the bytes that end them, which is none of the other fields. -/
def IsHeader (kv : Janet × Janet) : Prop :=
  ∃ name value, kv = (.string name, .string value) ∧ IsField (name, value) ∧
    (0 ∉ name ∧ 0 ∉ value) ∧ IsOther (name, value)

def serverField : Bytes × Bytes := (ascii ['S', 'e', 'r', 'v', 'e', 'r'], mgVersionHeader)

def contentLengthName : Bytes :=
  ascii ['C', 'o', 'n', 't', 'e', 'n', 't', '-', 'L', 'e', 'n', 'g', 't', 'h']

def contentLengthField (len : ℕ) : Bytes × Bytes := (contentLengthName, decimal len)

/-- All fields of a reply. -/
def replyFields (rt : Runtime) (headerkvs : Slots) (body : Bytes) : List (Bytes × Bytes) :=
  serverField :: headerFields rt headerkvs ++
    if body.length ≠ 0 then [contentLengthField body.length] else []

variable {code : ℤ} {headerkvs : Slots} {body : Bytes}

theorem headerLine_eq {kv : Janet × Janet} (h : IsHeader kv) :
    headerLine rt kv = fieldLine (janetToString rt kv.1, janetToString rt kv.2) ++ crlf := by
  obtain ⟨name, value, rfl, -, ⟨hname, hvalue⟩, -⟩ := h
  simp only [headerLine, janetToString, Janet.bytes?, Option.getD_some]
  rw [cString_eq_self_iff.2 hname, cString_eq_self_iff.2 hvalue, fieldLine]
  simp

theorem mgSendResponseLine_eq (code : ℤ) : mgSendResponseLine code =
    statusLine code (mgStatusMessage code) ++ crlf ++ (fieldLine serverField ++ crlf) := by
  simp [mgSendResponseLine, statusLine, serverField, fieldLine, ascii, version]
  exact ⟨rfl, rfl⟩

theorem contentLengthLine_eq (len : ℕ) :
    contentLengthLine len = fieldLine (contentLengthField len) ++ crlf := by
  simp [contentLengthLine, contentLengthField, contentLengthName, fieldLine, ascii, formatInt]
  exact ⟨rfl, rfl⟩

/-- A reply is a head and the body up to its first zero byte. -/
theorem sendReply_eq (h : ∀ kv ∈ entries headerkvs, IsHeader kv) :
    sendReply rt code headerkvs body = statusLine code (mgStatusMessage code) ++ crlf ++
      (renderFields (replyFields rt headerkvs body) ++ crlf ++ cString body) := by
  have hheaders : (entries headerkvs).flatMap (headerLine rt) =
      renderFields (headerFields rt headerkvs) := by
    rw [headerFields, renderFields, List.flatMap_map]
    exact List.flatMap_congr fun kv hkv => headerLine_eq (h kv hkv)
  have hlength : (if body.length ≠ 0 then contentLengthLine body.length else []) =
      renderFields (if body.length ≠ 0 then [contentLengthField body.length] else []) := by
    split_ifs
    · exact (contentLengthLine_eq _).trans (List.append_nil _).symm
    · rfl
  rw [sendReply, mgSendResponseLine_eq, hheaders, hlength, replyFields]
  simp [renderFields]

theorem isLine_mgStatusMessage (code : ℤ) : IsLine (mgStatusMessage code) := by
  simp only [mgStatusMessage]
  split <;> exact ⟨by decide, by decide⟩

theorem isField_serverField : IsField serverField :=
  ⟨⟨by decide, by decide⟩, by decide, ⟨by decide, by decide⟩⟩

theorem lower_contentLengthName : lower contentLengthName = contentLength := by decide

theorem isField_contentLengthField (len : ℕ) : IsField (contentLengthField len) where
  name := (⟨by decide, by decide⟩ : IsLine contentLengthName)
  colon := (by decide : 0x3A ∉ contentLengthName)
  value := isLine_decimal len

theorem isField_replyFields (h : ∀ kv ∈ entries headerkvs, IsHeader kv) :
    ∀ field ∈ replyFields rt headerkvs body, IsField field := by
  intro field hfield
  rw [replyFields, List.cons_append, List.mem_cons, List.mem_append] at hfield
  rcases hfield with rfl | hfield | hfield
  · exact isField_serverField
  · obtain ⟨kv, hkv, rfl⟩ := List.mem_map.1 hfield
    obtain ⟨name, value, rfl, hname, -, -⟩ := h kv hkv
    exact hname
  · split_ifs at hfield
    · rw [List.mem_singleton.1 hfield]
      exact isField_contentLengthField _
    · cases hfield

theorem readHead_sendReply (h : ∀ kv ∈ entries headerkvs, IsHeader kv) :
    readHead (sendReply rt code headerkvs body) =
      some ⟨code, replyFields rt headerkvs body, cString body⟩ := by
  rw [sendReply_eq h]
  exact readHead_render (isLine_mgStatusMessage code) (isField_replyFields h) _

/-- What is left of the fields without those that are not the dictionary's. -/
theorem filter_replyFields (h : ∀ kv ∈ entries headerkvs, IsHeader kv) :
    (replyFields rt headerkvs body).filter IsOther = headerFields rt headerkvs := by
  have hheaders : (headerFields rt headerkvs).filter IsOther = headerFields rt headerkvs := by
    refine List.filter_eq_self.2 fun field hfield => ?_
    obtain ⟨kv, hkv, rfl⟩ := List.mem_map.1 hfield
    obtain ⟨name, value, rfl, -, -, hother⟩ := h kv hkv
    exact hother
  have hserver : IsOther serverField = false := by decide
  have hlength (len : ℕ) : IsOther (contentLengthField len) = false := by
    simp [IsOther, contentLengthField, lower_contentLengthName]
  rw [replyFields, List.cons_append, List.filter_cons_of_neg (by simp [hserver]),
    List.filter_append, hheaders]
  split_ifs <;> simp [hlength]

theorem decimal_injective : Function.Injective decimal := fun m n h => by
  rw [← ofDigits_decimal m, h, ofDigits_decimal]

/-- The lines `Content-Length` give the length of what follows exactly if the
    body is all there. -/
theorem lengthsAgree_iff (h : ∀ kv ∈ entries headerkvs, IsHeader kv) :
    (Response.mk code (replyFields rt headerkvs body) (cString body)).LengthsAgree ↔ 0 ∉ body := by
  rw [← cString_eq_self_iff]
  constructor
  · intro hagree
    by_cases hbody : body = []
    · rw [hbody]
      rfl
    · -- The length that is announced is that of the body, and what follows is its start.
      have hmem : contentLengthField body.length ∈ replyFields rt headerkvs body := by
        simp [replyFields, hbody]
      have hlen := decimal_injective (hagree _ hmem lower_contentLengthName)
      exact (List.takeWhile_prefix _).eq_of_length hlen.symm
  · intro hbody field hfield hname
    rw [replyFields, List.cons_append, List.mem_cons, List.mem_append] at hfield
    -- Of the three sorts of fields, only the last one can have this name.
    rcases hfield with rfl | hfield | hfield
    · exact absurd hname (by decide)
    · obtain ⟨kv, hkv, rfl⟩ := List.mem_map.1 hfield
      obtain ⟨name, value, rfl, -, -, hother⟩ := h kv hkv
      simp only [janetToString, Janet.bytes?, Option.getD_some] at hname
      simp [IsOther, hname] at hother
    · split_ifs at hfield
      · rw [List.mem_singleton.1 hfield, hbody]
        rfl
      · cases hfield

/-- The bytes are one response with the given status, body and, besides those
    that every reply has, headers. -/
def Carries (queued : Bytes) (code : ℤ) (headers : List (Bytes × Bytes)) (body : Bytes) : Prop :=
  ∃ r, readResponse queued = some r ∧ r.status = code ∧ r.fields.filter IsOther = headers ∧
    r.body = body

/-- The reply to a dictionary carries it, and has the number of bytes after its
    blank line in every line `Content-Length`, exactly if the body has no zero
    byte. -/
theorem sendHttp_carries_iff {res : Janet} {kvs : Slots}
    (hres : res = .table kvs ∨ res = .struct kvs)
    (hcode : replyCode kvs = some code) (hheaders : replyHeaders kvs = some headerkvs)
    (h : ∀ kv ∈ entries headerkvs, IsHeader kv) (hbody : replyBody kvs = some body) :
    (Carries (sendHttp rt res) code (headerFields rt headerkvs) body ∧
        ∀ r, readHead (sendHttp rt res) = some r → r.LengthsAgree) ↔ 0 ∉ body := by
  have hsend : sendHttp rt res = sendReply rt code headerkvs body := by
    rcases hres with rfl | rfl <;> simp only [sendHttp, hcode, hheaders, hbody]
  rw [hsend, readHead_sendReply h]
  constructor
  · rintro ⟨-, hagree⟩
    exact (lengthsAgree_iff h).1 (hagree _ rfl)
  · intro hnull
    have hagree : (Response.mk code (replyFields rt headerkvs body) (cString body)).LengthsAgree :=
      (lengthsAgree_iff h).2 hnull
    refine ⟨⟨⟨code, replyFields rt headerkvs body, cString body⟩, ?_, rfl, filter_replyFields h,
      cString_eq_self_iff.2 hnull⟩, ?_⟩
    · rw [readResponse, readHead_sendReply h]
      simp [hagree]
    · rintro _ ⟨⟩
      exact hagree

/-- A dictionary with a header and the body `hi`. -/
def hello : Slots :=
  [(headersKey, .struct [(.string (ascii ['A']), .string (ascii ['b']))]),
    (bodyKey, .string (ascii ['h', 'i']))]

theorem sendHttp_carries_iff_hello :
    (Carries (sendHttp Runtime.assoc (.struct hello)) 200
          (headerFields Runtime.assoc [(.string (ascii ['A']), .string (ascii ['b']))])
          (ascii ['h', 'i']) ∧
        ∀ r, readHead (sendHttp Runtime.assoc (.struct hello)) = some r → r.LengthsAgree) ↔
      0 ∉ ascii ['h', 'i'] := by
  refine sendHttp_carries_iff (.inr rfl) rfl rfl (fun kv hkv => ?_) rfl
  rw [List.mem_singleton.1 hkv]
  exact ⟨ascii ['A'], ascii ['b'], rfl, ⟨⟨by decide, by decide⟩, by decide, by decide, by decide⟩,
    ⟨by decide, by decide⟩, rfl⟩

/-- A body with a zero byte is cut there, and its length is not. -/
theorem sendHttp_null :
    readResponse
      (sendHttp Runtime.assoc (.struct [(bodyKey, .string [0x61, 0x00, 0x62])])) = none := by
  decide

end PunyGui.Circlet
