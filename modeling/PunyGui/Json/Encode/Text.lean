import PunyGui.Json.Encode.String

/-!
# Encoding texts

Where the encoder succeeds it has written a JSON text: `encodeOne_eq_ok_iff`
gives its tree, `textOf`, with the white space of the format, and says on what
values it succeeds.

The comma that the loops write after the last item is the one `leave` erases:
what they leave in the buffer is the text of the items, with that comma in the
place of the last newline (`encodeItems_eq`).
-/

namespace PunyGui

open Binary64 Text Libc JsonText Encoder

/-! ## The text of a value -/

section TextOf

variable (tab newline : Bytes)

/-- The blank after a colon. -/
def afterColon : Bytes := if tab = [] then [] else [0x20]

mutual

/-- The text of a value at a level of indentation. -/
def textOf (i : ℕ) : Janet → Tree
  | .nil => .null
  | .boolean b => if b then .true_ else .false_
  | .number x => .number (formatG17 x)
  | .string s | .symbol s | .keyword s | .buffer s => .string (stringItems s)
  | .array xs | .tuple xs =>
    match itemsText i xs with
    | none => .emptyArray []
    | some es => .array es
  | .table kvs | .struct kvs =>
    match slotsText i kvs with
    | none => .emptyObject []
    | some ms => .object ms
  -- These have no text.
  | .function _ | .cfunction _ | .fiber _ | .abstract _ | .pointer _ => .null

def itemsText (i : ℕ) : List Janet → Option Elements
  | [] => none
  | x :: xs =>
    match itemsText i xs with
    | none => some (.last (newlineBytes tab newline (i + 1)) (textOf (i + 1) x)
        (newlineBytes tab newline i) false)
    | some es => some (.cons (newlineBytes tab newline (i + 1)) (textOf (i + 1) x) [] es)

def slotsText (i : ℕ) : List (Janet × Janet) → Option Members
  | [] => none
  | (k, v) :: kvs =>
    if k.isNil then slotsText i kvs
    else
      let name := stringItems (k.bytes?.getD [])
      match slotsText i kvs with
      | none => some (.last (newlineBytes tab newline (i + 1)) name [] (afterColon tab)
          (textOf (i + 1) v) (newlineBytes tab newline i) false)
      | some ms => some (.cons (newlineBytes tab newline (i + 1)) name [] (afterColon tab)
          (textOf (i + 1) v) [] ms)

end

end TextOf

/-- What the encoder checks of a part of a value. -/
def Writable : Janet → Prop
  | .nil | .boolean _ | .number _ | .array _ | .tuple _ => True
  | .string s | .symbol s | .keyword s | .buffer s => (codepoints s).2 = true
  | .table kvs | .struct kvs => ∀ kv ∈ entries kvs, kv.1.bytes?.isSome
  | .function _ | .cfunction _ | .fiber _ | .abstract _ | .pointer _ => False

/-! ## The encoder -/

section Encode

variable {e e' : Encoder} {i : ℕ}

@[simp] theorem push_tab (b : Bytes) : (e.push b).tab = e.tab := rfl
@[simp] theorem push_newline (b : Bytes) : (e.push b).newline = e.newline := rfl
@[simp] theorem push_indent (b : Bytes) : (e.push b).indent = e.indent := rfl
@[simp] theorem encodeNewline_indent : e.encodeNewline.indent = e.indent := rfl
@[simp] theorem encodeNewline_tab : e.encodeNewline.tab = e.tab := rfl
@[simp] theorem encodeNewline_newline : e.encodeNewline.newline = e.newline := rfl

@[simp] theorem push_push (b c : Bytes) : (e.push b).push c = e.push (b ++ c) := by
  simp [Encoder.push]

theorem encodeNewline_push (b : Bytes) :
    e.encodeNewline.push b = e.push (newlineBytes e.tab e.newline e.indent ++ b) := push_push ..

/-- Nothing was written between the brackets. -/
theorem enter_leave {b c : UInt8} (hb : b ≠ 0x2C) : (e.enter b).leave c = e.push [b, c] := by
  simp [Encoder.enter, Encoder.leave, Encoder.push, hb]

/-- The last comma makes room for the newline before the closing bracket. -/
theorem enter_push_leave (b c : UInt8) (body : Bytes) :
    ((e.enter b).push (body ++ [0x2C])).leave c =
      e.push (b :: (body ++ newlineBytes e.tab e.newline e.indent ++ [c])) := by
  have hlast : ((e.buffer ++ [b]) ++ (body ++ [0x2C])).getLast? = some 0x2C := by
    rw [← List.append_assoc, List.getLast?_concat]
  have hdrop : ((e.buffer ++ [b]) ++ (body ++ [0x2C])).dropLast = e.buffer ++ [b] ++ body := by
    rw [← List.append_assoc, List.dropLast_concat]
  simp only [Encoder.enter, Encoder.leave, Encoder.push, Encoder.encodeNewline, hlast,
    if_true, hdrop]
  simp

theorem encodeString_eq (e : Encoder) (s : Bytes) (h : (codepoints s).2 = true) :
    encodeString e s = .ok (e.push ((Tree.string (stringItems s)).render [])) := by
  simp [encodeString, h, Tree.render, render_stringItems]

theorem encodeOne_bytes {k : Janet} {s : Bytes} (h : k.bytes? = some s) (e : Encoder) :
    encodeOne e k = encodeString e s := by
  cases k <;> simp_all [Janet.bytes?, encodeOne]

theorem render_eq (t : Tree) (r : Bytes) : t.render r = t.render [] ++ r :=
  t.render_append [] r

/-- What the loop over the items writes: nothing, or the items with a comma in
    the place of the last newline. -/
def WritesItems (e : Encoder) (i : ℕ) (xs : List Janet) : Prop :=
  match itemsText e.tab e.newline i xs with
  | none => encodeItems e xs = .ok e
  | some es => ∃ body, es.render [] = body ++ newlineBytes e.tab e.newline i ∧
    encodeItems e xs = .ok (e.push (body ++ [0x2C]))

/-- What the loop over the slots writes. -/
def WritesSlots (e : Encoder) (i : ℕ) (kvs : List (Janet × Janet)) : Prop :=
  match slotsText e.tab e.newline i kvs with
  | none => encodeSlots e kvs = .ok e
  | some ms => ∃ body, ms.render [] = body ++ newlineBytes e.tab e.newline i ∧
    encodeSlots e kvs = .ok (e.push (body ++ [0x2C]))

theorem leave_items {xs : List Janet} (h : WritesItems (e.enter 0x5B) e.indent xs) :
    (encodeItems (e.enter 0x5B) xs).map (·.leave 0x5D) = .ok (e.push
      ((textOf e.tab e.newline e.indent (.array xs)).render [])) := by
  rw [WritesItems] at h
  simp only [show (e.enter 0x5B).tab = e.tab from rfl,
    show (e.enter 0x5B).newline = e.newline from rfl] at h
  rw [textOf]
  cases hx : itemsText e.tab e.newline e.indent xs with
  | none =>
    rw [hx] at h
    simp only [h, Except.map]
    rw [enter_leave (by decide)]
    rfl
  | some es =>
    rw [hx] at h
    obtain ⟨body, hb, he⟩ := h
    simp only [he, Except.map]
    rw [enter_push_leave, ← hb, ← List.nil_append [0x5D], ← Elements.render_append]
    rfl

theorem leave_slots {kvs : List (Janet × Janet)} (h : WritesSlots (e.enter 0x7B) e.indent kvs) :
    (encodeSlots (e.enter 0x7B) kvs).map (·.leave 0x7D) = .ok (e.push
      ((textOf e.tab e.newline e.indent (.table kvs)).render [])) := by
  rw [WritesSlots] at h
  simp only [show (e.enter 0x7B).tab = e.tab from rfl,
    show (e.enter 0x7B).newline = e.newline from rfl] at h
  rw [textOf]
  cases hx : slotsText e.tab e.newline e.indent kvs with
  | none =>
    rw [hx] at h
    simp only [h, Except.map]
    rw [enter_leave (by decide)]
    rfl
  | some es =>
    rw [hx] at h
    obtain ⟨body, hb, he⟩ := h
    simp only [he, Except.map]
    rw [enter_push_leave, ← hb, ← List.nil_append [0x7D], ← Members.render_append]
    rfl

theorem separator_eq (tab : Bytes) : separator tab = 0x3A :: afterColon tab := by
  rw [separator, afterColon]
  split_ifs <;> rfl

mutual

/-- The encoder writes the text of a value all of whose parts it can write. -/
theorem encodeOne_eq : ∀ (x : Janet) (e : Encoder), x.Forall Writable →
    encodeOne e x = .ok (e.push ((textOf e.tab e.newline e.indent x).render []))
  | .nil, _, _ => rfl
  | .number _, _, _ => by simp [encodeOne, textOf, Tree.render]
  | .boolean b, e, _ => by cases b <;> rfl
  | .string s, e, h | .symbol s, e, h | .keyword s, e, h | .buffer s, e, h => encodeString_eq e s h
  | .array xs, e, h => by
    rw [encodeOne]
    exact leave_items (encodeItems_eq xs (e.enter 0x5B) e.indent rfl h.2)
  | .tuple xs, e, h => by
    rw [encodeOne]
    exact leave_items (encodeItems_eq xs (e.enter 0x5B) e.indent rfl h.2)
  | .table kvs, e, h => by
    rw [encodeOne]
    exact leave_slots (encodeSlots_eq kvs (e.enter 0x7B) e.indent rfl h.1 h.2)
  | .struct kvs, e, h => by
    rw [encodeOne]
    exact leave_slots (encodeSlots_eq kvs (e.enter 0x7B) e.indent rfl h.1 h.2)
  | .function _, _, h | .cfunction _, _, h | .fiber _, _, h | .abstract _, _, h
  | .pointer _, _, h => h.elim

theorem encodeItems_eq : ∀ (xs : List Janet) (e : Encoder) (i : ℕ), e.indent = i + 1 →
    Janet.ForallItems Writable xs → WritesItems e i xs
  | [], e, i, _, _ => rfl
  | x :: xs, e, i, hi, ⟨hx, hxs⟩ => by
    have hone := encodeOne_eq x e.encodeNewline hx
    have ih := encodeItems_eq xs
      ((e.encodeNewline.push ((textOf e.tab e.newline (i + 1) x).render [])).push [0x2C]) i hi hxs
    rw [WritesItems] at ih ⊢
    simp only [push_tab, push_newline, encodeNewline_tab, encodeNewline_newline,
      encodeNewline_indent, hi] at ih hone
    rw [itemsText, encodeItems, hone]
    -- The comma behind the last item is there too; `leave` takes it away.
    cases hxs : itemsText e.tab e.newline i xs with
    | none =>
      rw [hxs] at ih
      refine ⟨newlineBytes e.tab e.newline (i + 1) ++ (textOf e.tab e.newline (i + 1) x).render [],
        ?_, ?_⟩
      · rw [Elements.render, render_eq]
        simp [renderComma]
      · simp only [ih]
        simp [encodeNewline_push, hi]
    | some es =>
      rw [hxs] at ih
      obtain ⟨body, hb, he⟩ := ih
      refine ⟨newlineBytes e.tab e.newline (i + 1) ++
        ((textOf e.tab e.newline (i + 1) x).render [] ++
        0x2C :: body), ?_, ?_⟩
      · rw [Elements.render, render_eq, hb]
        simp
      · simp only [he]
        simp [encodeNewline_push, hi]

theorem encodeSlots_eq : ∀ (kvs : List (Janet × Janet)) (e : Encoder) (i : ℕ), e.indent = i + 1 →
    (∀ kv ∈ entries kvs, kv.1.bytes?.isSome) → Janet.ForallSlots Writable kvs → WritesSlots e i kvs
  | [], e, i, _, _, _ => rfl
  | (k, v) :: kvs, e, i, hi, hk, ⟨hkv, hkvs⟩ => by
    cases hn : k.isNil with
    | true =>
      -- An empty slot is skipped, without a newline.
      have hk' : ∀ kv ∈ entries kvs, kv.1.bytes?.isSome := by simpa [entries, hn] using hk
      have ih := encodeSlots_eq kvs e i hi hk' hkvs
      rw [WritesSlots] at ih ⊢
      simpa only [slotsText, encodeSlots, hn, if_true] using ih
    | false =>
      have hk' : k.bytes?.isSome ∧ ∀ kv ∈ entries kvs, kv.1.bytes?.isSome := by
        simpa [entries, hn] using hk
      obtain ⟨s, hs⟩ := Option.isSome_iff_exists.1 hk'.1
      have hvalid : (codepoints s).2 = true := by
        have := (Janet.forall_of_bytes hs).1 (hkv hn).1
        cases k <;> simp_all [Janet.bytes?, Writable]
      -- The encoder after the key, the value and the comma, in turn.
      have hkey := (encodeOne_bytes hs e.encodeNewline).trans (encodeString_eq _ s hvalid)
      have hval := encodeOne_eq v ((e.encodeNewline.push
        ((Tree.string (stringItems s)).render [])).push (separator e.tab)) (hkv hn).2
      have ih := encodeSlots_eq kvs ((((e.encodeNewline.push
        ((Tree.string (stringItems s)).render [])).push (separator e.tab)).push
        ((textOf e.tab e.newline (i + 1) v).render [])).push [0x2C]) i hi hk'.2 hkvs
      rw [WritesSlots] at ih ⊢
      simp only [push_tab, push_newline, push_indent, encodeNewline_tab, encodeNewline_newline,
        encodeNewline_indent, hi] at ih hval
      rw [slotsText, encodeSlots]
      simp only [hn, hs, Option.isNone_some, Bool.false_eq_true, if_false, Option.getD_some, hkey,
        push_tab, encodeNewline_tab, hval]
      cases hkvs : slotsText e.tab e.newline i kvs with
      | none =>
        rw [hkvs] at ih
        refine ⟨newlineBytes e.tab e.newline (i + 1) ++ ((Tree.string (stringItems s)).render [] ++
          (separator e.tab ++ (textOf e.tab e.newline (i + 1) v).render [])), ?_, ?_⟩
        · rw [Members.render, render_eq (textOf _ _ _ _), separator_eq, Tree.render]
          simp [renderComma, ← renderItems_append_right]
        · simp only [ih]
          simp [encodeNewline_push, hi]
      | some ms =>
        rw [hkvs] at ih
        obtain ⟨body, hb, he⟩ := ih
        refine ⟨newlineBytes e.tab e.newline (i + 1) ++ ((Tree.string (stringItems s)).render [] ++
          (separator e.tab ++
            ((textOf e.tab e.newline (i + 1) v).render [] ++ 0x2C :: body))), ?_, ?_⟩
        · rw [Members.render, render_eq (textOf _ _ _ _), separator_eq, Tree.render, hb]
          simp [← renderItems_append_right]
        · simp only [he]
          simp [encodeNewline_push, hi]

end

theorem writable_of_encodeString {s : Bytes} (h : encodeString e s = .ok e') :
    (codepoints s).2 = true := by
  simp only [encodeString] at h
  split_ifs at h with hv
  exact hv

theorem ok_of_map {α β γ : Type} {f : α → β} {x : Except γ α} {b : β} (h : x.map f = .ok b) :
    ∃ a, x = .ok a := by
  cases x with
  | error c => cases h
  | ok a => exact ⟨a, rfl⟩

mutual

/-- The encoder succeeds on no other value. -/
theorem writable_of_encodeOne : ∀ (x : Janet) {e e' : Encoder}, encodeOne e x = .ok e' →
    x.Forall Writable
  | .nil, _, _, _ | .boolean _, _, _, _ | .number _, _, _, _ => trivial
  | .string _, _, _, h | .symbol _, _, _, h | .keyword _, _, _, h | .buffer _, _, _, h =>
    writable_of_encodeString h
  | .array xs, _, _, h | .tuple xs, _, _, h => by
    rw [encodeOne] at h
    obtain ⟨_, h⟩ := ok_of_map h
    exact ⟨trivial, writable_of_encodeItems xs h⟩
  | .table kvs, _, _, h | .struct kvs, _, _, h => by
    rw [encodeOne] at h
    obtain ⟨_, h⟩ := ok_of_map h
    exact writable_of_encodeSlots kvs h
  | .function _, _, _, h | .cfunction _, _, _, h | .fiber _, _, _, h | .abstract _, _, _, h
  | .pointer _, _, _, h => by cases h

theorem writable_of_encodeItems : ∀ (xs : List Janet) {e e' : Encoder},
    encodeItems e xs = .ok e' → Janet.ForallItems Writable xs
  | [], _, _, _ => trivial
  | x :: xs, e, e', h => by
    rw [encodeItems] at h
    cases hone : encodeOne e.encodeNewline x with
    | error err => rw [hone] at h; cases h
    | ok e₁ =>
      rw [hone] at h
      exact ⟨writable_of_encodeOne x hone, writable_of_encodeItems xs h⟩

theorem writable_of_encodeSlots : ∀ (kvs : List (Janet × Janet)) {e e' : Encoder},
    encodeSlots e kvs = .ok e' →
    (∀ kv ∈ entries kvs, kv.1.bytes?.isSome) ∧ Janet.ForallSlots Writable kvs
  | [], _, _, _ => ⟨by simp [entries], trivial⟩
  | (k, v) :: kvs, e, e', h => by
    rw [encodeSlots] at h
    split_ifs at h with hn hk
    · obtain ⟨h₁, h₂⟩ := writable_of_encodeSlots kvs h
      exact ⟨by simpa [entries, hn] using h₁, by simp [hn], h₂⟩
    · cases hkey : encodeOne e.encodeNewline k with
      | error err => rw [hkey] at h; cases h
      | ok e₁ =>
        simp only [hkey] at h
        cases hval : encodeOne (e₁.push (separator e₁.tab)) v with
        | error err => rw [hval] at h; cases h
        | ok e₂ =>
          simp only [hval] at h
          obtain ⟨h₁, h₂⟩ := writable_of_encodeSlots kvs h
          have hk : k.bytes?.isSome := by simpa [Option.isSome_iff_ne_none] using hk
          refine ⟨?_, fun _ => ⟨writable_of_encodeOne k hkey, writable_of_encodeOne v hval⟩, h₂⟩
          simpa [entries, hn, hk] using h₁

end

/-- The newline of a format. -/
def formatNewline (tab newline : Option Bytes) : Bytes :=
  if tab.isSome then newline.getD [0x0D, 0x0A] else []

/-- On which values `json/encode` succeeds, and what it appends to the buffer. -/
theorem jsonEncode_eq_ok_iff {x : Janet} {tab newline : Option Bytes} {buffer b : Bytes} :
    jsonEncode x tab newline buffer = .ok b ↔ x.Forall Writable ∧
      b = buffer ++ (textOf (tab.getD []) (formatNewline tab newline) 0 x).render [] := by
  unfold jsonEncode
  constructor
  · intro h
    simp only at h
    cases hone : encodeOne (Encoder.mk buffer 0 (tab.getD [])
        (if tab.isSome then newline.getD [0x0D, 0x0A] else [])) x with
    | error err => rw [hone] at h; cases h
    | ok e =>
      have hw := writable_of_encodeOne x hone
      rw [encodeOne_eq x _ hw] at h
      exact ⟨hw, (Except.ok.inj h).symm⟩
  · rintro ⟨hw, rfl⟩
    simp only [encodeOne_eq x _ hw]
    rfl

end Encode

end PunyGui
