import PunyGui.Circlet.Server
import PunyGui.Framing
import PunyGui.Libc.Strtod

/-!
# Reading a request

`mg_parse_http` of mongoose, for the requests that a listener receives. It reads
a buffer again each time that something has arrived, and fills `struct
http_message` once there is an empty line in it.

* `mgHttpGetRequestLen`: the length of the head, which ends with the empty line.
* `mgParseHttp`: the head, and the length of the body it announces.
* `mgHttpGetRequestLen_append`, `mgParseHttp_eq`: what they make of a buffer
  depends on the bytes of the head alone.
-/

namespace PunyGui.Circlet

open Text Libc Http

/-! ## The head -/

/-- What a reader returns: `-1`, zero while there is no empty line, or a result. -/
inductive Reading (α : Type*)
  | invalid
  | unfinished
  | parsed (a : α)
  deriving DecidableEq

def Reading.map {α β : Type*} (f : α → β) : Reading α → Reading β
  | .invalid => .invalid
  | .unfinished => .unfinished
  | .parsed a => .parsed (f a)

/-- `isprint`. -/
def isprint (c : UInt8) : Bool := 0x20 ≤ c && c ≤ 0x7E

/-- The bytes that may stand in a head. -/
def isHeadByte (c : UInt8) : Bool := isprint c || c == 0x0D || c == 0x0A || 128 ≤ c

/-- `mg_http_get_request_len`. -/
def mgHttpGetRequestLen : Bytes → Reading ℕ
  | [] => .unfinished
  | c :: s =>
    if !isHeadByte c then .invalid
    else if c = 0x0A ∧ s.take 1 = [0x0A] then .parsed 2
    else if c = 0x0A ∧ s.take 2 = crlf then .parsed 3
    else (mgHttpGetRequestLen s).map (· + 1)

/-- `strchr(delims, c) != NULL`, which finds the byte that ends `delims` as well. -/
def isDelim (delims : Bytes) (c : UInt8) : Bool := delims.contains c || c == 0

/-- `mg_skip`: the bytes before a delimiter, and what follows all delimiters there. -/
def mgSkip (delims s : Bytes) : Bytes × Bytes :=
  (s.takeWhile (!isDelim delims ·), (s.dropWhile (!isDelim delims ·)).dropWhile (isDelim delims))

/-- `mg_ncasecmp(s₁, s₂, len) == 0`. -/
def mgNcasecmp : Bytes → Bytes → ℕ → Bool
  | _, _, 0 => true
  | c₁ :: s₁, c₂ :: s₂, len + 1 => tolower c₁ == tolower c₂ && (c₁ == 0 || mgNcasecmp s₁ s₂ len)
  | _, _, _ => false

/-- `mg_vcasecmp(str₁, str₂) == 0`. -/
def mgVcasecmp (str₁ str₂ : Bytes) : Bool :=
  mgNcasecmp str₁ str₂ (min str₁.length str₂.length) && str₁.length == str₂.length

/-- `to64`. -/
def to64 (s : Bytes) : ℤ := strtoll s

/-- A number as a `size_t`. -/
def toSize (n : ℤ) : ℕ := (n % 2 ^ 64).toNat

/-- `(size_t) ~0`. -/
def sizeMax : ℕ := 2 ^ 64 - 1

/-- `body.len` and `message.len`. -/
structure Lengths where
  body : ℕ
  message : ℕ
  deriving DecidableEq

/-- `mg_http_parse_headers`, for a head of a length, with a bound on the number of
    steps and the number of headers that there is room for. -/
def mgHttpParseHeaders (len : ℕ) : ℕ → ℕ → Bytes → Lengths → List (Bytes × Bytes) × Lengths
  | 0, _, _, ls => ([], ls)
  | _, 0, _, ls => ([], ls)
  | n + 1, i + 1, s, ls =>
    let (k, p) := mgSkip (ascii [':', ' ']) s
    let (v, s') := mgSkip crlf p
    let v := v.rdropWhile (· == 0x20)
    if k ≠ [] ∧ v = [] then mgHttpParseHeaders len n (i + 1) s' ls
    else if k = [] ∨ v = [] then ([], ls)
    else
      -- The comparison is with the start of the name alone.
      let ls :=
        if mgNcasecmp s contentLengthName 14 then
          ⟨toSize (to64 p), toSize (len + toSize (to64 p))⟩
        else ls
      let (headers, ls) := mgHttpParseHeaders len n i s' ls
      ((k, v) :: headers, ls)

/-- `MG_MAX_HTTP_HEADERS - 1`. -/
def maxHttpHeaders : ℕ := 39

/-- The parts of `struct http_message` that `mg_parse_http` fills. -/
structure ParsedMessage where
  lengths : Lengths
  method : Bytes
  uri : Bytes
  queryString : Bytes
  proto : Bytes
  headers : List (Bytes × Bytes)
  deriving DecidableEq

def put : Bytes := ascii ['P', 'U', 'T']
def post : Bytes := ascii ['P', 'O', 'S', 'T']

/-- `mg_parse_http` of a request, once its head is there. -/
def mgParseHead (head : Bytes) : Option ParsedMessage :=
  let s := head.dropWhile isspace
  let (method, s₁) := mgSkip [0x20] s
  let (uri, s₂) := mgSkip [0x20] s₁
  let (proto, s₃) := mgSkip crlf s₂
  -- `uri.p <= method.p || proto.p <= uri.p`
  if s.length ≤ s₁.length ∨ s₁.length ≤ s₂.length then none
  else
    let (headers, ls) :=
      mgHttpParseHeaders head.length (s₃.length + 1) maxHttpHeaders s₃ ⟨sizeMax, sizeMax⟩
    some {
      lengths :=
        if ls.body = sizeMax ∧ !mgVcasecmp method put ∧ !mgVcasecmp method post then
          ⟨0, head.length⟩
        else ls
      method
      uri := uri.takeWhile (· != 0x3F)
      queryString := (uri.dropWhile (· != 0x3F)).tail
      proto
      headers }

/-- `mg_parse_http`, for a request: the length of the head and the message. -/
def mgParseHttp (s : Bytes) : Reading (ℕ × ParsedMessage) :=
  match mgHttpGetRequestLen s with
  | .invalid => .invalid
  | .unfinished => .unfinished
  | .parsed len =>
    match mgParseHead (s.take len) with
    | none => .invalid
    | some hm => .parsed (len, hm)

/-- `mg_get_http_header`. -/
def mgGetHttpHeader (hm : ParsedMessage) (name : Bytes) : Option Bytes :=
  ((hm.headers.takeWhile fun h => !h.1.isEmpty).find? fun h =>
    h.1.length == name.length && mgNcasecmp h.1 name name.length).map Prod.snd

/-! ## What a head depends on -/

variable {s t : Bytes} {n : ℕ}

@[simp] theorem Reading.map_eq_parsed_iff {α β : Type*} {f : α → β} {r : Reading α} {b : β} :
    r.map f = .parsed b ↔ ∃ a, r = .parsed a ∧ f a = b := by
  cases r <;> simp [Reading.map]

@[simp] theorem Reading.map_eq_invalid_iff {α β : Type*} {f : α → β} {r : Reading α} :
    r.map f = .invalid ↔ r = .invalid := by
  cases r <;> simp [Reading.map]

@[simp] theorem Reading.map_eq_unfinished_iff {α β : Type*} {f : α → β} {r : Reading α} :
    r.map f = .unfinished ↔ r = .unfinished := by
  cases r <;> simp [Reading.map]

/-- Bytes that arrive later do not change the end of a head that is there. -/
theorem mgHttpGetRequestLen_append (h : mgHttpGetRequestLen s ≠ .unfinished) (t : Bytes) :
    mgHttpGetRequestLen (s ++ t) = mgHttpGetRequestLen s := by
  induction s with
  | nil => exact absurd rfl h
  | cons c s ih =>
    rw [mgHttpGetRequestLen] at h
    rw [List.cons_append, mgHttpGetRequestLen, mgHttpGetRequestLen]
    by_cases hc : isHeadByte c
    · simp only [hc, Bool.not_true, Bool.false_eq_true, if_false] at h ⊢
      rcases s with - | ⟨d, - | ⟨e, s⟩⟩
      · simp [mgHttpGetRequestLen, Reading.map, crlf] at h
      · by_cases hd : isHeadByte d
        · by_cases hlf : c = 0x0A ∧ d = 0x0A
          · simp [hlf]
          · simp [mgHttpGetRequestLen, Reading.map, crlf, hd, hlf] at h
        · -- The byte is no part of an empty line.
          have hlf : d ≠ 0x0A := by rintro rfl; exact hd rfl
          have hcr : d ≠ 0x0D := by rintro rfl; exact hd rfl
          simp [mgHttpGetRequestLen, Reading.map, crlf, hd, hlf, hcr]
      · have htake (k : ℕ) (hk : k ≤ 2) : (d :: e :: s ++ t).take k = (d :: e :: s).take k :=
          List.take_append_of_le_length (by simp; omega)
        rw [htake 1 (by decide), htake 2 le_rfl]
        split_ifs with h₁ h₂
        · rfl
        · rfl
        · rw [if_neg h₁, if_neg h₂] at h
          rw [ih fun hs => h (Reading.map_eq_unfinished_iff.2 hs)]
    · simp [hc]

theorem two_le_of_parsed (h : mgHttpGetRequestLen s = .parsed n) : 2 ≤ n := by
  induction s generalizing n with
  | nil => cases h
  | cons c s ih =>
    rw [mgHttpGetRequestLen] at h
    split_ifs at h
    · obtain rfl : 2 = n := Reading.parsed.inj h
      rfl
    · obtain rfl : 3 = n := Reading.parsed.inj h
      decide
    · obtain ⟨m, hm, rfl⟩ := Reading.map_eq_parsed_iff.1 h
      exact (ih hm).trans (Nat.le_succ m)

/-- A head has all that is needed to find it. -/
theorem mgHttpGetRequestLen_take (h : mgHttpGetRequestLen s = .parsed n) :
    n ≤ s.length ∧ mgHttpGetRequestLen (s.take n) = .parsed n := by
  induction s generalizing n with
  | nil => cases h
  | cons c s ih =>
    rw [mgHttpGetRequestLen] at h
    split_ifs at h with hc h₁ h₂
    · obtain rfl : 2 = n := Reading.parsed.inj h
      obtain ⟨s, rfl⟩ : ∃ s', s = 0x0A :: s' := by
        cases s with
        | nil => cases h₁.2
        | cons d s => exact ⟨s, by simpa using h₁.2⟩
      rw [h₁.1]
      exact ⟨by simp, rfl⟩
    · obtain rfl : 3 = n := Reading.parsed.inj h
      obtain ⟨s, rfl⟩ : ∃ s', s = 0x0D :: 0x0A :: s' := by
        rcases s with - | ⟨d, - | ⟨e, s⟩⟩
        · cases h₂.2
        · cases h₂.2
        · exact ⟨s, by simpa [crlf] using h₂.2⟩
      rw [h₂.1]
      exact ⟨by simp, rfl⟩
    · obtain ⟨m, hm, rfl⟩ := Reading.map_eq_parsed_iff.1 h
      obtain ⟨hle, htake⟩ := ih hm
      have hm₂ := two_le_of_parsed hm
      refine ⟨Nat.succ_le_succ hle, ?_⟩
      rw [List.take_succ_cons, mgHttpGetRequestLen, List.take_take, List.take_take,
        min_eq_left hm₂, min_eq_left (Nat.le_of_succ_le hm₂), if_neg hc, if_neg h₁, if_neg h₂,
        htake]
      rfl

/-- A head: the first empty line is at its end. -/
def IsHead (head : Bytes) : Prop := mgHttpGetRequestLen head = .parsed head.length

theorem IsHead.append {head : Bytes} (h : IsHead head) (t : Bytes) :
    mgHttpGetRequestLen (head ++ t) = .parsed head.length := by
  rw [mgHttpGetRequestLen_append (by rw [h]; nofun), h]

/-- There is no head in the bytes before its end. -/
theorem unfinished_of_isPrefix {head p : Bytes} (h : IsHead head) (hp : p <+: head)
    (hne : p ≠ head) : mgHttpGetRequestLen p = .unfinished := by
  by_contra hun
  obtain ⟨t, rfl⟩ := hp
  have happ := mgHttpGetRequestLen_append hun t
  rw [h] at happ
  have hle := (mgHttpGetRequestLen_take happ.symm).1
  rw [List.length_append] at hle
  have ht : t = [] := List.eq_nil_of_length_eq_zero (by omega)
  exact hne (by rw [ht, List.append_nil])

/-! ## What a message depends on -/

variable {len : ℕ} {hm : ParsedMessage}

theorem mgParseHttp_eq_unfinished :
    mgParseHttp s = .unfinished ↔ mgHttpGetRequestLen s = .unfinished := by
  rw [mgParseHttp]
  cases mgHttpGetRequestLen s with
  | invalid => simp
  | unfinished => simp
  | parsed n => cases hhm : mgParseHead (s.take n) <;> simp [hhm]

/-- A message is read of its head, which is at the start of the buffer. -/
theorem mgParseHttp_eq_parsed : mgParseHttp s = .parsed (len, hm) ↔
    mgHttpGetRequestLen s = .parsed len ∧ mgParseHead (s.take len) = some hm := by
  rw [mgParseHttp]
  cases mgHttpGetRequestLen s with
  | invalid => simp
  | unfinished => simp
  | parsed n =>
    cases hhm : mgParseHead (s.take n) with
    | none => simp [hhm]; rintro rfl; simp [hhm]
    | some hm' => simp [hhm]; rintro rfl; simp [hhm]

/-- Bytes that arrive later do not change what is read of a head that is there. -/
theorem mgParseHttp_append (h : mgParseHttp s ≠ .unfinished) (t : Bytes) :
    mgParseHttp (s ++ t) = mgParseHttp s := by
  have hlen := mgHttpGetRequestLen_append (mt mgParseHttp_eq_unfinished.2 h) t
  rw [mgParseHttp, mgParseHttp, hlen]
  cases hs : mgHttpGetRequestLen s with
  | invalid => rfl
  | unfinished => rfl
  | parsed n => simp only [List.take_append_of_le_length (mgHttpGetRequestLen_take hs).1]

theorem mgParseHttp_append_parsed (h : mgParseHttp s = .parsed (len, hm)) (t : Bytes) :
    mgParseHttp (s ++ t) = .parsed (len, hm) := by
  rw [mgParseHttp_append (by rw [h]; nofun), h]

theorem le_length_of_parsed (h : mgParseHttp s = .parsed (len, hm)) : len ≤ s.length :=
  (mgHttpGetRequestLen_take (mgParseHttp_eq_parsed.1 h).1).1

/-- What follows the head does not matter. -/
theorem mgParseHttp_take_append (h : mgParseHttp s = .parsed (len, hm)) (t : Bytes) :
    mgParseHttp (s.take len ++ t) = .parsed (len, hm) := by
  refine mgParseHttp_append_parsed (mgParseHttp_eq_parsed.2 ?_) t
  obtain ⟨hlen, hhm⟩ := mgParseHttp_eq_parsed.1 h
  have htake : (s.take len).take len = s.take len := by rw [List.take_take, min_self]
  exact ⟨(mgHttpGetRequestLen_take hlen).2, htake.symm ▸ hhm⟩

theorem mgParseHttp_take (h : mgParseHttp s = .parsed (len, hm)) {k : ℕ} (hk : len ≤ k) :
    mgParseHttp (s.take k) = .parsed (len, hm) := by
  have htake : s.take k = s.take len ++ (s.take k).drop len := by
    conv_lhs => rw [← List.take_append_drop len (s.take k), List.take_take, min_eq_left hk]
  rw [htake]
  exact mgParseHttp_take_append h _

end PunyGui.Circlet
