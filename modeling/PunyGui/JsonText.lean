import PunyGui.Libc.Strtod
import PunyGui.Utf8

/-!
# JSON texts

The syntax trees of JSON texts, as bytes. A tree keeps everything its text
says: the white space around the structural characters, the spelling of the
numbers and of every character of a string, and whether a comma stands before a
closing bracket. `Tree.render t r` is the text of `t` followed by `r`.

Which trees are texts is left to a `Dialect`, which says what spellings of
numbers and strings it has, and whether it admits such commas:

* `rfc8259`: the grammar of RFC 8259, where in addition every escape of a
  surrogate belongs to a pair;
* `lenient`: numbers are whatever `strtod` reads from a minus or a digit on,
  the bytes of a string need not be UTF-8, and a comma may stand before a
  closing bracket;
* `loose`: numbers are whatever `strtod` reads, and surrogates need no pair.

A text has at most one tree, even in the loosest of them (`Tree.unique`).
-/

namespace JsonText

open Text Libc

/-- A white space character. -/
def isWs (c : UInt8) : Bool := c == 0x20 || c == 0x09 || c == 0x0A || c == 0x0D

/-- White space. -/
def Ws (w : Bytes) : Prop := ∀ c ∈ w, isWs c = true

/-! ## Strings -/

/-- One item of a string: a byte, a two-character escape or a `\u` escape. -/
inductive Item
  | raw (b : UInt8)
  | esc (c : UInt8)
  | unicode (h₁ h₂ h₃ h₄ : UInt8)
  deriving DecidableEq

/-- The byte a two-character escape stands for. -/
def unescape : UInt8 → Option UInt8
  | 0x62 /- b -/ => some 0x08
  | 0x66 /- f -/ => some 0x0C
  | 0x6E /- n -/ => some 0x0A
  | 0x72 /- r -/ => some 0x0D
  | 0x74 /- t -/ => some 0x09
  | 0x22 => some 0x22
  | 0x5C => some 0x5C
  | 0x2F /- / -/ => some 0x2F
  | _ => none

/-- The code unit of a `\u` escape. -/
def codeUnit (h₁ h₂ h₃ h₄ : UInt8) : ℕ := ofDigits 16 [h₁, h₂, h₃, h₄]

/-- The items of the grammar. -/
def Item.Lexical : Item → Prop
  | .raw b => 0x20 ≤ b ∧ b ≠ 0x22 ∧ b ≠ 0x5C
  | .esc c => (unescape c).isSome
  | .unicode h₁ h₂ h₃ h₄ =>
    isxdigit h₁ = true ∧ isxdigit h₂ = true ∧ isxdigit h₃ = true ∧ isxdigit h₄ = true

/-- The text of an item, followed by `r`. -/
def Item.render : Item → Bytes → Bytes
  | .raw b, r => b :: r
  | .esc c, r => 0x5C :: c :: r
  | .unicode h₁ h₂ h₃ h₄, r => 0x5C :: 0x75 :: h₁ :: h₂ :: h₃ :: h₄ :: r

/-- The text of a string between its quotes, followed by `r`. -/
def renderItems (is : List Item) (r : Bytes) : Bytes := is.foldr Item.render r

@[simp] theorem renderItems_nil (r : Bytes) : renderItems [] r = r := rfl
@[simp] theorem renderItems_cons (i : Item) (is : List Item) (r : Bytes) :
    renderItems (i :: is) r = i.render (renderItems is r) := rfl

theorem renderItems_append (is js : List Item) (r : Bytes) :
    renderItems (is ++ js) r = renderItems is (renderItems js r) := by
  simp [renderItems, List.foldr_append]

/-- The bytes of a string, unless it has an unpaired surrogate. -/
def stringValue : List Item → Option Bytes
  | [] => some []
  | .raw b :: is => (stringValue is).map (b :: ·)
  | .esc c :: is => (stringValue is).map ((unescape c).getD c :: ·)
  | .unicode h₁ h₂ h₃ h₄ :: is =>
    let u := codeUnit h₁ h₂ h₃ h₄
    if Utf8.IsLow u then none
    else if Utf8.IsHigh u then
      match is with
      | .unicode g₁ g₂ g₃ g₄ :: is =>
        let l := codeUnit g₁ g₂ g₃ g₄
        if Utf8.IsLow l then (stringValue is).map (Utf8.bytes (Utf8.join u l) ++ ·) else none
      | _ => none
    else (stringValue is).map (Utf8.bytes u ++ ·)

section StringValue

variable {h₁ h₂ h₃ h₄ : UInt8} {is : List Item}

/-- The value of an escape that is no surrogate. -/
theorem stringValue_unicode (hl : ¬Utf8.IsLow (codeUnit h₁ h₂ h₃ h₄))
    (hh : ¬Utf8.IsHigh (codeUnit h₁ h₂ h₃ h₄)) : stringValue (.unicode h₁ h₂ h₃ h₄ :: is) =
      (stringValue is).map (Utf8.bytes (codeUnit h₁ h₂ h₃ h₄) ++ ·) := by
  rw [stringValue.eq_def]
  exact (if_neg hl).trans (if_neg hh)

/-- The value of a pair of surrogates. -/
theorem stringValue_pair {g₁ g₂ g₃ g₄ : UInt8} (hh : Utf8.IsHigh (codeUnit h₁ h₂ h₃ h₄))
    (hl : Utf8.IsLow (codeUnit g₁ g₂ g₃ g₄)) :
    stringValue (.unicode h₁ h₂ h₃ h₄ :: .unicode g₁ g₂ g₃ g₄ :: is) = (stringValue is).map
      (Utf8.bytes (Utf8.join (codeUnit h₁ h₂ h₃ h₄) (codeUnit g₁ g₂ g₃ g₄)) ++ ·) := by
  have hn : ¬Utf8.IsLow (codeUnit h₁ h₂ h₃ h₄) := by
    rw [Utf8.IsHigh] at hh
    rw [Utf8.IsLow]
    omega
  rw [stringValue.eq_def]
  exact (if_neg hn).trans ((if_pos hh).trans (if_pos hl))

/-- An item whose text is ASCII. -/
def Item.IsAscii : Item → Prop
  | .raw b => b < 0x80
  | _ => True

/-- The value of items in ASCII is well-formed UTF-8. -/
theorem isUtf8_stringValue {is : List Item} (h : ∀ i ∈ is, i.Lexical ∧ i.IsAscii) {v : Bytes}
    (hv : stringValue is = some v) : Utf8.IsUtf8 v := by
  have hall : ∀ c, (unescape c).all (fun b => decide (b < 0x80)) = true :=
    forall_byte (by decide +kernel)
  have hesc : ∀ c b, unescape c = some b → b < 0x80 := by
    intro c b hcb
    simpa [hcb] using hall c
  fun_induction stringValue is generalizing v with
  | case1 =>
    cases hv
    exact Utf8.isUtf8_nil
  | case2 b is ih =>
    obtain ⟨v, hv', rfl⟩ := Option.map_eq_some_iff.1 hv
    have hb : b < 0x80 := (h _ List.mem_cons_self).2
    exact (Utf8.isUtf8_ascii (b := [b]) (by simpa using hb)).append
      (ih (fun i hi => h i (List.mem_cons_of_mem _ hi)) hv')
  | case3 c is ih =>
    obtain ⟨v, hv', rfl⟩ := Option.map_eq_some_iff.1 hv
    obtain ⟨b, hb⟩ := Option.isSome_iff_exists.1 ((h _ List.mem_cons_self).1 : (unescape c).isSome)
    rw [hb]
    exact (Utf8.isUtf8_ascii (b := [b]) (by simpa using hesc c b hb)).append
      (ih (fun i hi => h i (List.mem_cons_of_mem _ hi)) hv')
  | case4 => cases hv
  -- A pair of surrogates is one character.
  | case5 h₁ h₂ h₃ h₄ u hlow hhigh g₁ g₂ g₃ g₄ is l hl' =>
    rename_i ih
    obtain ⟨v, hv', rfl⟩ := Option.map_eq_some_iff.1 hv
    exact (Utf8.isUtf8_bytes _).append
      (ih (fun i hi => h i (List.mem_cons_of_mem _ (List.mem_cons_of_mem _ hi))) hv')
  | case6 => cases hv
  | case7 => cases hv
  | case8 h₁ h₂ h₃ h₄ is u hlow hhigh =>
    rename_i ih
    obtain ⟨v, hv', rfl⟩ := Option.map_eq_some_iff.1 hv
    exact (Utf8.isUtf8_bytes _).append (ih (fun i hi => h i (List.mem_cons_of_mem _ hi)) hv')

end StringValue

/-- The text of items in ASCII is well-formed UTF-8. -/
theorem isUtf8_renderItems {is : List Item} (h : ∀ i ∈ is, i.Lexical ∧ i.IsAscii) :
    Utf8.IsUtf8 (renderItems is []) := by
  have hesc : ∀ c, (unescape c).isSome → c < 0x80 := forall_byte (by decide +kernel)
  have hdigit : ∀ c, isxdigit c = true → c < 0x80 := forall_byte (by decide +kernel)
  refine Utf8.isUtf8_ascii ?_
  induction is with
  | nil => simp
  | cons i is ih =>
    have ih := ih fun i hi => h i (List.mem_cons_of_mem _ hi)
    obtain ⟨hl, ha⟩ := h i List.mem_cons_self
    cases i with
    | raw b => exact List.forall_mem_cons.2 ⟨ha, ih⟩
    | esc c => exact List.forall_mem_cons.2 ⟨by decide, List.forall_mem_cons.2 ⟨hesc c hl, ih⟩⟩
    | unicode h₁ h₂ h₃ h₄ =>
      obtain ⟨l₁, l₂, l₃, l₄⟩ := hl
      simp only [renderItems_cons, Item.render, List.forall_mem_cons]
      exact ⟨by decide, by decide, hdigit _ l₁, hdigit _ l₂, hdigit _ l₃, hdigit _ l₄, ih⟩

/-! ## Trees -/

mutual

/-- A value. -/
inductive Tree
  | null
  | true_
  | false_
  | number (tok : Bytes)
  | string (is : List Item)
  | emptyArray (w : Bytes)
  | array (es : Elements)
  | emptyObject (w : Bytes)
  | object (ms : Members)

/-- The elements of an array, with the white space before and after each. The
    last one may be followed by a comma. -/
inductive Elements
  | last (w₁ : Bytes) (t : Tree) (w₂ : Bytes) (comma : Bool)
  | cons (w₁ : Bytes) (t : Tree) (w₂ : Bytes) (es : Elements)

/-- The members of an object, with the white space around names and values. -/
inductive Members
  | last (w₁ : Bytes) (name : List Item) (w₂ w₃ : Bytes) (t : Tree) (w₄ : Bytes) (comma : Bool)
  | cons (w₁ : Bytes) (name : List Item) (w₂ w₃ : Bytes) (t : Tree) (w₄ : Bytes) (ms : Members)

end

/-- A comma that may be there, followed by `r`. -/
def renderComma (comma : Bool) (r : Bytes) : Bytes := if comma then 0x2C :: r else r

mutual

/-- The text of a value, followed by `r`. -/
def Tree.render : Tree → Bytes → Bytes
  | .null, r => 0x6E :: 0x75 :: 0x6C :: 0x6C :: r
  | .true_, r => 0x74 :: 0x72 :: 0x75 :: 0x65 :: r
  | .false_, r => 0x66 :: 0x61 :: 0x6C :: 0x73 :: 0x65 :: r
  | .number tok, r => tok ++ r
  | .string is, r => 0x22 :: renderItems is (0x22 :: r)
  | .emptyArray w, r => 0x5B :: (w ++ 0x5D :: r)
  | .array es, r => 0x5B :: es.render (0x5D :: r)
  | .emptyObject w, r => 0x7B :: (w ++ 0x7D :: r)
  | .object ms, r => 0x7B :: ms.render (0x7D :: r)

def Elements.render : Elements → Bytes → Bytes
  | .last w₁ t w₂ comma, r => w₁ ++ t.render (w₂ ++ renderComma comma r)
  | .cons w₁ t w₂ es, r => w₁ ++ t.render (w₂ ++ 0x2C :: es.render r)

def Members.render : Members → Bytes → Bytes
  | .last w₁ name w₂ w₃ t w₄ comma, r =>
    w₁ ++ 0x22 ::
      renderItems name (0x22 :: (w₂ ++ 0x3A :: (w₃ ++ t.render (w₄ ++ renderComma comma r))))
  | .cons w₁ name w₂ w₃ t w₄ ms, r =>
    w₁ ++ 0x22 ::
      renderItems name (0x22 :: (w₂ ++ 0x3A :: (w₃ ++ t.render (w₄ ++ 0x2C :: ms.render r))))

end

theorem length_le_renderItems (is : List Item) (r : Bytes) :
    is.length + r.length ≤ (renderItems is r).length := by
  induction is with
  | nil => simp
  | cons i is ih =>
    cases i <;> simp only [renderItems_cons, Item.render, List.length_cons] <;> omega

theorem renderItems_append_right (is : List Item) (r q : Bytes) :
    renderItems is (r ++ q) = renderItems is r ++ q := by
  induction is with
  | nil => rfl
  | cons i is ih => cases i <;> simp [Item.render, ih]

theorem renderComma_append (comma : Bool) (r q : Bytes) :
    renderComma comma (r ++ q) = renderComma comma r ++ q := by
  cases comma <;> rfl

mutual

/-- What follows a value comes after its text. -/
theorem Tree.render_append : ∀ (t : Tree) (r q : Bytes), t.render (r ++ q) = t.render r ++ q
  | .null, _, _ | .true_, _, _ | .false_, _, _ => rfl
  | .number tok, r, q => (List.append_assoc tok r q).symm
  | .string is, r, q => by
    simp only [Tree.render, ← List.cons_append, renderItems_append_right]
  | .emptyArray w, r, q | .emptyObject w, r, q => by simp [Tree.render]
  | .array es, r, q => by
    simp only [Tree.render, ← List.cons_append, es.render_append]
  | .object ms, r, q => by
    simp only [Tree.render, ← List.cons_append, ms.render_append]

theorem Elements.render_append : ∀ (es : Elements) (r q : Bytes),
    es.render (r ++ q) = es.render r ++ q
  | .last w₁ t w₂ comma, r, q => by
    simp only [Elements.render, renderComma_append, ← List.append_assoc, t.render_append]
  | .cons w₁ t w₂ es, r, q => by
    simp only [Elements.render, es.render_append, ← List.cons_append, ← List.append_assoc,
      t.render_append]

theorem Members.render_append : ∀ (ms : Members) (r q : Bytes),
    ms.render (r ++ q) = ms.render r ++ q
  | .last w₁ name w₂ w₃ t w₄ comma, r, q => by
    simp only [Members.render, renderComma_append, ← List.cons_append, ← List.append_assoc,
      t.render_append, renderItems_append_right]
  | .cons w₁ name w₂ w₃ t w₄ ms, r, q => by
    simp only [Members.render, ms.render_append, ← List.cons_append, ← List.append_assoc,
      t.render_append, renderItems_append_right]

end

theorem Tree.suffix_render (t : Tree) (r : Bytes) : r <:+ t.render r :=
  ⟨t.render [], (t.render_append [] r).symm⟩

mutual

/-- How many arrays and objects are nested around the deepest value or name. -/
def Tree.height : Tree → ℕ
  | .array es => es.height + 1
  | .object ms => ms.height + 1
  | _ => 0

def Elements.height : Elements → ℕ
  | .last _ t _ _ => t.height
  | .cons _ t _ es => max t.height es.height

def Members.height : Members → ℕ
  | .last _ _ _ _ t _ _ => t.height
  | .cons _ _ _ _ t _ ms => max t.height ms.height

end

/-! ## Dialects -/

/-- What a dialect admits. -/
structure Dialect where
  number : Bytes → Prop
  string : List Item → Prop
  /-- Whether a comma before a closing bracket may be there. -/
  comma : Bool → Prop

mutual

/-- The values of a dialect. -/
def Tree.In (D : Dialect) : Tree → Prop
  | .null | .true_ | .false_ => True
  | .number tok => D.number tok
  | .string is => D.string is
  | .emptyArray w => Ws w
  | .array es => es.In D
  | .emptyObject w => Ws w
  | .object ms => ms.In D

def Elements.In (D : Dialect) : Elements → Prop
  | .last w₁ t w₂ comma => Ws w₁ ∧ t.In D ∧ Ws w₂ ∧ D.comma comma
  | .cons w₁ t w₂ es => Ws w₁ ∧ t.In D ∧ Ws w₂ ∧ es.In D

def Members.In (D : Dialect) : Members → Prop
  | .last w₁ name w₂ w₃ t w₄ comma =>
    Ws w₁ ∧ D.string name ∧ Ws w₂ ∧ Ws w₃ ∧ t.In D ∧ Ws w₄ ∧ D.comma comma
  | .cons w₁ name w₂ w₃ t w₄ ms =>
    Ws w₁ ∧ D.string name ∧ Ws w₂ ∧ Ws w₃ ∧ t.In D ∧ Ws w₄ ∧ ms.In D

end

/-- A dialect is part of another one. -/
structure Dialect.Le (D E : Dialect) : Prop where
  number : ∀ tok, D.number tok → E.number tok
  string : ∀ is, D.string is → E.string is
  comma : ∀ c, D.comma c → E.comma c

section Mono

variable {D E : Dialect} (h : D.Le E)

include h

mutual

theorem Tree.In.mono : ∀ {t : Tree}, t.In D → t.In E
  | .null, _ | .true_, _ | .false_, _ => trivial
  | .number _, ht => h.number _ ht
  | .string _, ht => h.string _ ht
  | .emptyArray _, ht | .emptyObject _, ht => ht
  | .array _, ht => Elements.In.mono ht
  | .object _, ht => Members.In.mono ht

theorem Elements.In.mono : ∀ {es : Elements}, es.In D → es.In E
  | .last .., ⟨h₁, ht, h₂, hc⟩ => ⟨h₁, ht.mono, h₂, h.comma _ hc⟩
  | .cons .., ⟨h₁, ht, h₂, hes⟩ => ⟨h₁, ht.mono, h₂, hes.mono⟩

theorem Members.In.mono : ∀ {ms : Members}, ms.In D → ms.In E
  | .last .., ⟨h₁, hn, h₂, h₃, ht, h₄, hc⟩ => ⟨h₁, h.string _ hn, h₂, h₃, ht.mono, h₄, h.comma _ hc⟩
  | .cons .., ⟨h₁, hn, h₂, h₃, ht, h₄, hms⟩ => ⟨h₁, h.string _ hn, h₂, h₃, ht.mono, h₄, hms.mono⟩

end

end Mono

/-- A number as `strtod` reads it, from its first byte to its last. -/
structure IsToken (tok : Bytes) : Prop where
  ne_nil : tok ≠ []
  start : ∀ c ∈ tok.head?, isspace c = false
  all : (strtod tok).2 = []

/-- A string of the grammar without unpaired surrogates. -/
def IsString (is : List Item) : Prop := (∀ i ∈ is, i.Lexical) ∧ (stringValue is).isSome

/-- The grammar of RFC 8259. -/
def rfc8259 : Dialect where
  number tok := ∃ l : Literal, l.IsJson ∧ tok = l.render
  string is := IsString is ∧ Utf8.IsUtf8 (renderItems is [])
  comma c := c = false

/-- The numbers of `strtod`, any bytes in strings, and commas before closing
    brackets. -/
def lenient : Dialect where
  number tok := IsToken tok ∧ ∀ c ∈ tok.head?, c = 0x2D ∨ isdigit c = true
  string := IsString
  comma _ := True

/-- The numbers of `strtod`, infinities and NaN included, and unpaired
    surrogates. -/
def loose : Dialect where
  number := IsToken
  string is := ∀ i ∈ is, i.Lexical
  comma _ := True

end JsonText
