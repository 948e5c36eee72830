import PunyGui.Janet
import PunyGui.Libc.Printf

/-!
# The JSON encoder

The encoder of `json.c`. An encoder is the buffer with the level of indentation
and the two strings of the format; an error comes with the encoder as it was
when the error occurred, since what has been written stays in the buffer.

The C functions pass the depth down, and never look at it.
-/

namespace PunyGui

open Binary64 Text Libc

structure Encoder where
  buffer : Bytes
  indent : ℕ
  tab : Bytes
  newline : Bytes

namespace Encoder

/-- `janet_buffer_push_bytes`, and its variants. -/
def push (e : Encoder) (b : Bytes) : Encoder := { e with buffer := e.buffer ++ b }

/-- Go one level in, after an opening bracket. -/
def enter (e : Encoder) (bracket : UInt8) : Encoder :=
  { e.push [bracket] with indent := e.indent + 1 }

/-- A newline and the indentation of the current level. -/
def newlineBytes (tab newline : Bytes) (indent : ℕ) : Bytes :=
  newline ++ if tab = [] then [] else (List.replicate indent tab).flatten

/-- `encode_newline`. -/
def encodeNewline (e : Encoder) : Encoder := e.push (newlineBytes e.tab e.newline e.indent)

/-- Go one level out: a comma left by the last item is erased, and the closing
    bracket comes on a new line. -/
def leave (e : Encoder) (bracket : UInt8) : Encoder :=
  let e := { e with indent := e.indent - 1 }
  let e := if e.buffer.getLast? = some 0x2C then
    encodeNewline { e with buffer := e.buffer.dropLast } else e
  e.push [bracket]

end Encoder

/-! ## Strings -/

/-- `tohex`. -/
def tohex (x : ℕ) : UInt8 :=
  if x < 10 then UInt8.ofNat (0x30 + x) else UInt8.ofNat (0x41 + (x - 10))

/-- The codepoints of a byte sequence, as the encoder gets them, up to the
    first byte it finds invalid, and whether there is none. Of a sequence of four
    bytes, the last one is read twice and the third one only checked. -/
def codepoints : Bytes → List ℕ × Bool
  | [] => ([], true)
  | c₀ :: s =>
    if c₀ < 0x80 then (c₀.toNat :: (codepoints s).1, (codepoints s).2)
    else if c₀ < 0xE0 then
      match s with
      | c₁ :: s =>
        if c₁ >>> 6 ≠ 2 then ([], false)
        else
          let codepoint := (c₀.toNat &&& 0x1F) <<< 6 ||| (c₁.toNat &&& 0x3F)
          (codepoint :: (codepoints s).1, (codepoints s).2)
      | _ => ([], false)
    else if c₀ < 0xF0 then
      match s with
      | c₁ :: c₂ :: s =>
        if c₁ >>> 6 ≠ 2 then ([], false)
        else if c₂ >>> 6 ≠ 2 then ([], false)
        else
          let codepoint := (c₀.toNat &&& 0x0F) <<< 12 ||| (c₁.toNat &&& 0x3F) <<< 6 |||
            (c₂.toNat &&& 0x3F)
          (codepoint :: (codepoints s).1, (codepoints s).2)
      | _ => ([], false)
    else if c₀ < 0xF8 then
      match s with
      | c₁ :: c₂ :: c₃ :: s =>
        if c₁ >>> 6 ≠ 2 then ([], false)
        else if c₂ >>> 6 ≠ 2 then ([], false)
        else if c₃ >>> 6 ≠ 2 then ([], false)
        else
          let codepoint := (c₀.toNat &&& 0x07) <<< 18 ||| (c₁.toNat &&& 0x3F) <<< 12 |||
            (c₃.toNat &&& 0x3F) <<< 6 ||| (c₃.toNat &&& 0x3F)
          (codepoint :: (codepoints s).1, (codepoints s).2)
      | _ => ([], false)
    else ([], false)

/-- One unicode escape. -/
def unicodeEscape (n : ℕ) : Bytes :=
  [0x5C, 0x75 /- u -/, tohex (n >>> 12 &&& 0xF), tohex (n >>> 8 &&& 0xF), tohex (n >>> 4 &&& 0xF),
    tohex (n &&& 0xF)]

/-- What is written for a codepoint. -/
def writeCodepoint (codepoint : ℕ) : Bytes :=
  if codepoint > 0x1F ∧ codepoint < 0x80 then
    if codepoint = 0x5C ∨ codepoint = 0x22 then [0x5C, UInt8.ofNat codepoint]
    else [UInt8.ofNat codepoint]
  else if codepoint < 0x10000 then unicodeEscape codepoint
  else unicodeEscape (((codepoint - 0x10000) >>> 10) + 0xD800) ++
    unicodeEscape (((codepoint - 0x10000) &&& 0x3FF) + 0xDC00)

/-- The string case of `encodeOne`. -/
def encodeString (e : Encoder) (bytes : Bytes) : Except (String × Encoder) Encoder :=
  let e := (e.push [0x22]).push ((codepoints bytes).1.flatMap writeCodepoint)
  if (codepoints bytes).2 then .ok (e.push [0x22])
  else .error ("string contains invalid utf-8", e)

/-! ## Values -/

/-- What stands between a key and its value. -/
def separator (tab : Bytes) : Bytes := if tab = [] then [0x3A] else [0x3A, 0x20]

mutual

def encodeOne (e : Encoder) : Janet → Except (String × Encoder) Encoder
  | .nil => .ok (e.push (ascii ['n', 'u', 'l', 'l']))
  | .boolean b =>
    .ok (e.push (if b then ascii ['t', 'r', 'u', 'e'] else ascii ['f', 'a', 'l', 's', 'e']))
  | .number x => .ok (e.push (formatG17 x))
  | .string s | .symbol s | .keyword s | .buffer s => encodeString e s
  | .tuple xs | .array xs => (encodeItems (e.enter 0x5B) xs).map (·.leave 0x5D)
  | .table kvs | .struct kvs => (encodeSlots (e.enter 0x7B) kvs).map (·.leave 0x7D)
  | .function _ | .cfunction _ | .fiber _ | .abstract _ | .pointer _ =>
    .error ("type not supported", e)

/-- The loop over the items of an array or tuple. -/
def encodeItems (e : Encoder) : List Janet → Except (String × Encoder) Encoder
  | [] => .ok e
  | x :: xs =>
    match encodeOne e.encodeNewline x with
    | .error err => .error err
    | .ok e => encodeItems (e.push [0x2C]) xs

/-- The loop over the slots of a table or struct. -/
def encodeSlots (e : Encoder) : List (Janet × Janet) → Except (String × Encoder) Encoder
  | [] => .ok e
  | (k, v) :: kvs =>
    if k.isNil then encodeSlots e kvs
    else if k.bytes?.isNone then .error ("object key must be a byte sequence", e)
    else
      match encodeOne e.encodeNewline k with
      | .error err => .error err
      | .ok e =>
        match encodeOne (e.push (separator e.tab)) v with
        | .error err => .error err
        | .ok e => encodeSlots (e.push [0x2C]) kvs

end

/-- `json/encode`, with the buffer it appends to. A tab alone comes with the
    newline `"\r\n"`. -/
def jsonEncode (x : Janet) (tab newline : Option Bytes) (buffer : Bytes) :
    Except String Bytes :=
  let e : Encoder :=
    { buffer, indent := 0, tab := tab.getD [],
      newline := if tab.isSome then newline.getD [0x0D, 0x0A] else [] }
  match encodeOne e x with
  | .error (err, _) => .error err
  | .ok e => .ok e.buffer

end PunyGui
