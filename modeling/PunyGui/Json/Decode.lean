import PunyGui.Janet
import PunyGui.JsonText

/-!
# The JSON decoder

The decoder of `json.c`. A pointer into the source is what the memory holds
from there on, up to and including the zero byte after the source; reading past
it is a `fault`. The pointer `*p` that the C functions share is passed along,
and returned also when they fail, since the position of an error is read off it.

The loops and the recursion take a bound on the number of steps (`fuel`), which
`jsonDecode` sets high enough: it is never reached on an accepted source.
-/

namespace PunyGui

open Binary64 Text Libc

def jsonKeywordKey : ℕ := 0x10000
def jsonNullToNil : ℕ := 0x20000

/-- Why the decoder stops before the end. -/
inductive Stop
  | error (msg : String)
  /-- A read past the end of the memory. -/
  | fault
  /-- The bound on the number of steps was reached. -/
  | fuel
  deriving DecidableEq

/-- The byte at `p[i]`. -/
def deref (p : Bytes) (i : ℕ) : Except Stop UInt8 :=
  match p[i]? with
  | some b => .ok b
  | none => .error .fault

/-- Check if a character is whitespace. -/
def white (c : UInt8) : Bool := c == 0x09 || c == 0x0A || c == 0x20 || c == 0x0D

/-- Skip whitespace. -/
def skipwhite (p : Bytes) : Bytes := p.dropWhile white

/-- Get a hex digit value. -/
def hexdig (dig : UInt8) : ℤ :=
  if 0x30 ≤ dig ∧ dig ≤ 0x39 then dig.toNat - 0x30
  else if 0x61 ≤ dig ∧ dig ≤ 0x66 then 10 + dig.toNat - 0x61
  else if 0x41 ≤ dig ∧ dig ≤ 0x46 then 10 + dig.toNat - 0x41
  else -1

/-- Read the hex value for a unicode escape. -/
def decodeUtf16Escape (p : Bytes) : Except Stop ℕ := do
  let c₀ ← deref p 0
  if c₀ = 0 then .error (.error "unexpected end of source") else
  let c₁ ← deref p 1
  if c₁ = 0 then .error (.error "unexpected end of source") else
  let c₂ ← deref p 2
  if c₂ = 0 then .error (.error "unexpected end of source") else
  let c₃ ← deref p 3
  if c₃ = 0 then .error (.error "unexpected end of source") else
  let d₁ := hexdig c₀
  let d₂ := hexdig c₁
  let d₃ := hexdig c₂
  let d₄ := hexdig c₃
  if d₁ < 0 ∨ d₂ < 0 ∨ d₃ < 0 ∨ d₄ < 0 then .error (.error "invalid hex digit")
  else .ok (d₄.toNat ||| d₃.toNat <<< 4 ||| d₂.toNat <<< 8 ||| d₁.toNat <<< 12)

/-- Write a codepoint in UTF-8. -/
def pushCodepoint (codepoint : ℕ) : Bytes :=
  if codepoint ≤ 0x7F then [UInt8.ofNat codepoint]
  else if codepoint ≤ 0x7FF then
    [UInt8.ofNat (((codepoint >>> 6) &&& 0x1F) ||| 0xC0),
      UInt8.ofNat (((codepoint >>> 0) &&& 0x3F) ||| 0x80)]
  else if codepoint ≤ 0xFFFF then
    [UInt8.ofNat (((codepoint >>> 12) &&& 0x0F) ||| 0xE0),
      UInt8.ofNat (((codepoint >>> 6) &&& 0x3F) ||| 0x80),
      UInt8.ofNat (((codepoint >>> 0) &&& 0x3F) ||| 0x80)]
  else
    [UInt8.ofNat (((codepoint >>> 18) &&& 0x07) ||| 0xF0),
      UInt8.ofNat (((codepoint >>> 12) &&& 0x3F) ||| 0x80),
      UInt8.ofNat (((codepoint >>> 6) &&& 0x3F) ||| 0x80),
      UInt8.ofNat (((codepoint >>> 0) &&& 0x3F) ||| 0x80)]

/-- The codepoint of the escape after `cp`, which points to its `u`: with its
    length counted from there, and joined with the low surrogate after it. -/
def decodeEscape (cp : Bytes) : Except Stop (ℕ × ℕ) := do
  let codepoint ← decodeUtf16Escape (cp.drop 1)
  if codepoint ≥ 0xDC00 ∧ codepoint ≤ 0xDFFF then
    .error (.error "unexpected utf-16 low surrogate")
  else if codepoint ≥ 0xD800 ∧ codepoint ≤ 0xDBFF then
    let c₅ ← deref cp 5
    if c₅ ≠ 0x5C then .error (.error "expected utf-16 low surrogate pair") else
    let c₆ ← deref cp 6
    if c₆ ≠ 0x75 then .error (.error "expected utf-16 low surrogate pair") else
    let lowsur ← decodeUtf16Escape (cp.drop 7)
    if lowsur < 0xDC00 ∨ lowsur > 0xDFFF then
      .error (.error "expected utf-16 low surrogate pair")
    else .ok (((codepoint - 0xD800) <<< 10) + (lowsur - 0xDC00) + 0x10000, 11)
  else .ok (codepoint, 5)

/-- The byte a two-character escape is turned to. -/
def simpleEscape (c : UInt8) : Option UInt8 :=
  if c = 0x62 /- b -/ then some 0x08
  else if c = 0x66 /- f -/ then some 0x0C
  else if c = 0x6E /- n -/ then some 0x0A
  else if c = 0x72 /- r -/ then some 0x0D
  else if c = 0x74 /- t -/ then some 0x09
  else if c = 0x22 then some 0x22
  else if c = 0x5C then some 0x5C
  else if c = 0x2F then some 0x2F
  else none

/-- The loop of `decodeString`, with what is already in the buffer. -/
def decodeStringLoop : ℕ → Bytes → Bytes → Except Stop (Bytes × Bytes)
  | 0, _, _ => .error .fuel
  | fuel + 1, cp, buffer => do
    let b ← deref cp 0
    if b = 0x22 then .ok (buffer, cp.drop 1)
    else if b < 32 then .error (.error "invalid character in string")
    else if b = 0x5C then
      let c ← deref cp 1
      if c = 0x75 /- u -/ then
        let (codepoint, n) ← decodeEscape (cp.drop 1)
        decodeStringLoop fuel ((cp.drop 1).drop n) (buffer ++ pushCodepoint codepoint)
      else
        match simpleEscape c with
        | some b => decodeStringLoop fuel (cp.drop 2) (buffer ++ [b])
        | none => .error (.error "unknown string escape")
    else decodeStringLoop fuel (cp.drop 1) (buffer ++ [b])

/-- Parse a string. Also handles the conversion of utf-16 to utf-8. -/
def decodeString (p : Bytes) : Except Stop (Bytes × Bytes) := decodeStringLoop p.length p []

/-- A byte the fast scan of a string goes over, as the signed `char` it is. -/
def plain (c : UInt8) : Bool :=
  (32 ≤ c.toInt8 || c.toInt8 < 0) && c != 0x22 && c != 0x5C

/-- The string case of `decodeOne`, with `p` after the opening quote. -/
def decodeQuoted (p : Bytes) : Except (Stop × Bytes) (Janet × Bytes) :=
  let cp := p.dropWhile plain
  match cp with
  | [] => .error (.fault, 0x22 :: p)
  | c :: cs =>
    if c = 0x5C then
      match decodeString p with
      | .ok (s, p') => .ok (.string s, p')
      | .error e => .error (e, p)
    else if c ≠ 0x22 then .error (.error "unexpected character", 0x22 :: p)
    else .ok (.string (p.takeWhile plain), cs)

/-- Whether `p` starts with the rest of an identifier: what follows it. -/
def expectRest : Bytes → Bytes → Except Stop Bytes
  | [], p => .ok p
  | l :: ls, p => do
    let b ← deref p 0
    if b ≠ l then .error (.error "bad identifier") else expectRest ls (p.drop 1)

/-- An identifier of value `x`, with `p` at its first letter. -/
def decodeIdent (p rest : Bytes) (x : Janet) : Except (Stop × Bytes) (Janet × Bytes) :=
  match expectRest rest (p.drop 1) with
  | .ok p' => .ok (x, p')
  | .error e => .error (e, p)

/-- A name turned to a keyword. -/
def toKeyword : Janet → Janet
  | .string s => .keyword s
  | k => k

def nullKeyword : Janet := .keyword (ascii ['n', 'u', 'l', 'l'])

section

variable (rt : Runtime)

mutual

def decodeOne : ℕ → Bytes → ℕ → Except (Stop × Bytes) (Janet × Bytes)
  | 0, p, _ => .error (.fuel, p)
  | fuel + 1, p, depth =>
    -- Prevent stack overflow.
    if depth &&& 0xFFFF > rt.recursionGuard then .error (.error "recured too deeply", p)
    else
      match skipwhite p with
      | [] => .error (.fault, [])
      | c :: cs =>
        if c = 0 then .error (.error "unexpected end of source", c :: cs)
        else if c = 0x2D ∨ (0x30 ≤ c ∧ c ≤ 0x39) then
          let (x, e) := strtod (c :: cs)
          if e = c :: cs then .error (.error "bad number", c :: cs) else .ok (.number x, e)
        else if c = 0x66 then decodeIdent (c :: cs) (ascii ['a', 'l', 's', 'e']) (.boolean false)
        else if c = 0x6E then
          decodeIdent (c :: cs) (ascii ['u', 'l', 'l'])
            (if depth &&& jsonNullToNil ≠ 0 then .nil else nullKeyword)
        else if c = 0x74 then decodeIdent (c :: cs) (ascii ['r', 'u', 'e']) (.boolean true)
        else if c = 0x22 then decodeQuoted cs
        else if c = 0x5B then decodeElements fuel (skipwhite cs) depth []
        else if c = 0x7B then decodeMembers fuel (skipwhite cs) depth rt.table
        else .error (.error "unexpected character", c :: cs)

/-- The loop over the elements of an array. -/
def decodeElements : ℕ → Bytes → ℕ → List Janet → Except (Stop × Bytes) (Janet × Bytes)
  | 0, p, _, _ => .error (.fuel, p)
  | _ + 1, [], _, _ => .error (.fault, [])
  | fuel + 1, c :: cs, depth, array =>
    if c = 0x5D then .ok (.array array, cs)
    else
      match decodeOne fuel (c :: cs) (depth + 1) with
      | .error e => .error e
      | .ok (subval, p) =>
        match skipwhite p with
        | [] => .error (.fault, [])
        | c :: cs =>
          if c = 0x5D then .ok (.array (array ++ [subval]), cs)
          else if c ≠ 0x2C then .error (.error "expected comma", c :: cs)
          else decodeElements fuel cs depth (array ++ [subval])

/-- The loop over the members of an object. -/
def decodeMembers : ℕ → Bytes → ℕ → Slots → Except (Stop × Bytes) (Janet × Bytes)
  | 0, p, _, _ => .error (.fuel, p)
  | _ + 1, [], _, _ => .error (.fault, [])
  | fuel + 1, c :: cs, depth, table =>
    if c = 0x7D then .ok (.table table, cs)
    else
      match skipwhite (c :: cs) with
      | [] => .error (.fault, [])
      | c :: cs =>
        if c ≠ 0x22 then .error (.error "expected json string", c :: cs)
        else
          match decodeOne fuel (c :: cs) (depth + 1) with
          | .error e => .error e
          | .ok (subkey, p) =>
            match skipwhite p with
            | [] => .error (.fault, [])
            | c :: cs =>
              if c ≠ 0x3A then .error (.error "expected colon", c :: cs)
              else
                match decodeOne fuel cs (depth + 1) with
                | .error e => .error e
                | .ok (subval, p) =>
                  let subkey := if depth &&& jsonKeywordKey ≠ 0 then toKeyword subkey else subkey
                  let table := rt.tablePut table subkey subval
                  match skipwhite p with
                  | [] => .error (.fault, [])
                  | c :: cs =>
                    if c = 0x7D then .ok (.table table, cs)
                    else if c ≠ 0x2C then .error (.error "expected comma", c :: cs)
                    else decodeMembers fuel cs depth table

end

/-- The flags of `json/decode`. -/
def decodeFlags (keywords nils : Bool) : ℕ :=
  (if keywords then jsonKeywordKey else 0) ||| (if nils then jsonNullToNil else 0)

/-- `json/decode`: the value of the source `s`, or the error with its position. -/
def jsonDecode (s : Bytes) (keywords nils : Bool) : Except (Stop × ℕ) Janet :=
  let start := s ++ [0]
  let position (p : Bytes) : ℕ := start.length - p.length
  match decodeOne rt (2 * start.length + 1) start (decodeFlags keywords nils) with
  | .error (e, p) => .error (e, position p)
  | .ok (ret, p) =>
    -- Check trailing values.
    match skipwhite p with
    | [] => .error (.fault, position [])
    | c :: cs =>
      if c ≠ 0 then .error (.error "unexpected extra token", position (c :: cs)) else .ok ret

end

end PunyGui
