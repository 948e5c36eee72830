import PunyGui.Json.Decode.Text

/-!
# The decoder and the grammar

What `json/decode` makes of the texts of RFC 8259, and which other texts it
accepts.

* `meaning`: the content of a text.
* `jsonDecode_rfc8259`: the decoder is complete.
* `jsonDecode_isRfc8259_iff`: it is sound exactly on the sources that use none
  of its extensions.
-/

namespace PunyGui

open Binary64 Text Libc JsonText

/-! ## Meaning -/

section Meaning

variable (f : Double → Double) (keywords nils : Bool)

open Classical in
mutual

/-- The content of a text, its numbers seen through `f`: an array has its elements in order, an
    object maps a name to the last value it has. -/
noncomputable def meaning : Tree → Deep
  | .null => .atom (if nils then .nil else nullKeyword)
  | .true_ => .atom (.boolean true)
  | .false_ => .atom (.boolean false)
  | .number tok => .number (f (strtod tok).1)
  | .string is => .atom (.string ((stringValue is).getD []))
  | .emptyArray _ => .array []
  | .array es => .array (elementMeanings es)
  | .emptyObject _ => .table fun _ => none
  | .object ms => .table (memberMeanings ms fun _ => none)

noncomputable def elementMeanings : Elements → List Deep
  | .last _ t _ _ => [meaning t]
  | .cons _ t _ es => meaning t :: elementMeanings es

/-- A value nil, which only `null` can have, leaves no entry. -/
noncomputable def memberMeanings : Members → (Janet → Option Deep) → Janet → Option Deep
  | .last _ name _ _ t _ _, m =>
    Function.update m (nameKey keywords name)
      (if t = .null ∧ nils = true then none else some (meaning t))
  | .cons _ name _ _ t _ ms, m =>
    memberMeanings ms (Function.update m (nameKey keywords name)
      (if t = .null ∧ nils = true then none else some (meaning t)))

end

end Meaning

section Deep

variable {rt : Runtime} {f : Double → Double} {keywords nils : Bool}

theorem isKey_nameKey (name : List Item) : IsKey (nameKey keywords name) := by
  cases keywords
  · exact isKey_string _
  · exact isKey_keyword _

theorem nameKey_ne_nil (name : List Item) : nameKey keywords name ≠ .nil := by
  cases keywords <;> simp [nameKey]

theorem treeValue_eq_nil_iff (t : Tree) :
    treeValue rt keywords nils t = .nil ↔ t = .null ∧ nils = true := by
  cases t <;> simp [treeValue, nullKeyword]

open Classical in
/-- A member put in a table. -/
theorem deepSlots_put_member (name : List Item) (t : Tree) {table : Slots} (h : WellKeyed table) :
    Janet.deepSlots f (rt.tablePut table (nameKey keywords name) (treeValue rt keywords nils t)) =
      Function.update (Janet.deepSlots f table) (nameKey keywords name)
        (if t = .null ∧ nils = true then none
          else some ((treeValue rt keywords nils t).deep f)) := by
  rw [deepSlots_put (isKey_nameKey name) (nameKey_ne_nil name) h]
  congr 2
  rw [treeValue_eq_nil_iff]

mutual

/-- The value of a text has the content of the text. -/
theorem deep_treeValue : ∀ t : Tree, (treeValue rt keywords nils t).deep f =
    meaning f keywords nils t
  | .null => by cases nils <;> rfl
  | .true_ | .false_ | .number _ | .string _ | .emptyArray _ => rfl
  | .array es => by rw [treeValue, Janet.deep, deep_elementValues es, meaning]
  | .emptyObject _ => by rw [treeValue, Janet.deep, deepSlots_table, meaning]
  | .object ms => by
    rw [treeValue, Janet.deep, (deep_memberSlots ms wellKeyed_table).2, deepSlots_table, meaning]

theorem deep_elementValues : ∀ es : Elements,
    Janet.deepItems f (elementValues rt keywords nils es) = elementMeanings f keywords nils es
  | .last _ t _ _ => by
    rw [elementValues, Janet.deepItems, deep_treeValue t, Janet.deepItems, elementMeanings]
  | .cons _ t _ es => by
    rw [elementValues, Janet.deepItems, deep_treeValue t, deep_elementValues es, elementMeanings]

theorem deep_memberSlots : ∀ (ms : Members) {table : Slots}, WellKeyed table →
    WellKeyed (memberSlots rt keywords nils ms table) ∧
      Janet.deepSlots f (memberSlots rt keywords nils ms table) =
        memberMeanings f keywords nils ms (Janet.deepSlots f table)
  | .last _ name _ _ t _ _, table, h => by
    refine ⟨wellKeyed_put (isKey_nameKey name) (nameKey_ne_nil name) h, ?_⟩
    rw [memberSlots, deepSlots_put_member name t h, deep_treeValue t, memberMeanings]
  | .cons _ name _ _ t _ ms, table, h => by
    obtain ⟨h₁, h₂⟩ := deep_memberSlots ms (wellKeyed_put (v := treeValue rt keywords nils t)
      (isKey_nameKey name) (nameKey_ne_nil name) h)
    refine ⟨h₁, ?_⟩
    rw [memberSlots, h₂, deepSlots_put_member name t h, deep_treeValue t, memberMeanings]

end

end Deep

/-! ## The texts of RFC 8259 -/

theorem isToken_literal {l : Literal} (h : l.IsJson) : IsToken l.render := by
  obtain ⟨c, i, hi⟩ := List.exists_cons_of_ne_nil h.int.1
  have hd : isdigit c = true := h.int.2 c (hi ▸ List.mem_cons_self)
  have hs := strtod_literal (r := []) stops_nil h
  rw [List.append_nil] at hs
  have hsp : isspace 0x2D = false := by decide
  refine ⟨?_, ?_, by rw [hs]⟩ <;>
    cases hn : l.neg <;>
      simp [Literal.render, Literal.magnitude, hn, hi, isspace_of_isdigit c hd, hsp]

theorem lenient_literal {l : Literal} (h : l.IsJson) : lenient.number l.render := by
  refine ⟨isToken_literal h, ?_⟩
  obtain ⟨c, i, hi⟩ := List.exists_cons_of_ne_nil h.int.1
  have hd : isdigit c = true := h.int.2 c (hi ▸ List.mem_cons_self)
  cases hn : l.neg <;> simp [Literal.render, Literal.magnitude, hn, hi, hd]

theorem rfc8259_le_lenient : rfc8259.Le lenient where
  number := by
    rintro _ ⟨l, h, rfl⟩
    exact lenient_literal h
  string _ h := h.1
  comma _ _ := trivial

/-- What RFC 8259 asks of a lenient text: numbers spelled in its grammar,
    strings in UTF-8, and no comma before a closing bracket. -/
def strict : Dialect where
  number tok := ∃ l : Literal, l.IsJson ∧ tok = l.render
  string is := Utf8.IsUtf8 (renderItems is [])
  comma c := c = false

theorem rfc8259_le_strict : rfc8259.Le strict where
  number _ h := h
  string _ h := h.2
  comma _ h := h

mutual

theorem rfc8259_of_strict : ∀ {t : Tree}, t.In lenient → t.In strict → t.In rfc8259
  | .null, _, _ | .true_, _, _ | .false_, _, _ => trivial
  | .number _, _, h => h
  | .string _, h₁, h₂ => ⟨h₁, h₂⟩
  | .emptyArray _, h, _ | .emptyObject _, h, _ => h
  | .array _, h₁, h₂ => elements_rfc8259_of_strict h₁ h₂
  | .object _, h₁, h₂ => members_rfc8259_of_strict h₁ h₂

theorem elements_rfc8259_of_strict : ∀ {es : Elements}, es.In lenient → es.In strict → es.In rfc8259
  | .last .., ⟨h₁, ht, h₂, _⟩, ⟨_, ht', _, hc⟩ => ⟨h₁, rfc8259_of_strict ht ht', h₂, hc⟩
  | .cons .., ⟨h₁, ht, h₂, hes⟩, ⟨_, ht', _, hes'⟩ =>
    ⟨h₁, rfc8259_of_strict ht ht', h₂, elements_rfc8259_of_strict hes hes'⟩

theorem members_rfc8259_of_strict : ∀ {ms : Members}, ms.In lenient → ms.In strict → ms.In rfc8259
  | .last .., ⟨h₁, hn, h₂, h₃, ht, h₄, _⟩, ⟨_, hn', _, _, ht', _, hc⟩ =>
    ⟨h₁, ⟨hn, hn'⟩, h₂, h₃, rfc8259_of_strict ht ht', h₄, hc⟩
  | .cons .., ⟨h₁, hn, h₂, h₃, ht, h₄, hms⟩, ⟨_, hn', _, _, ht', _, hms'⟩ =>
    ⟨h₁, ⟨hn, hn'⟩, h₂, h₃, rfc8259_of_strict ht ht', h₄, members_rfc8259_of_strict hms hms'⟩

end

/-! ## No zero byte -/

theorem zero_notMem_ws {w : Bytes} (hw : Ws w) : 0 ∉ w :=
  fun h => absurd (hw 0 h) (by decide)

theorem zero_notMem_digits {l : Bytes} (hl : ∀ c ∈ l, isdigit c = true) : 0 ∉ l :=
  fun h => absurd (hl 0 h) (by decide)

theorem zero_notMem_literal {l : Literal} (h : l.IsJson) : 0 ∉ l.render := by
  have hsign : ∀ s : Option Bool, 0 ∉ Exponent.signBytes s := by decide
  have hfrac : 0 ∉ Literal.fracBytes l.frac := by
    cases hf : l.frac with
    | none => simp [Literal.fracBytes]
    | some f => simpa [Literal.fracBytes] using zero_notMem_digits (h.frac f hf).2
  have hexp : 0 ∉ Literal.expBytes l.exp := by
    cases he : l.exp with
    | none => simp [Literal.expBytes]
    | some e =>
      obtain ⟨hm, -, hd⟩ := h.exp e he
      have h0 : (0 : UInt8) ≠ e.mark := by rintro h0; rw [← h0] at hm; cases hm
      simp [Literal.expBytes, Exponent.render, h0, hsign, zero_notMem_digits hd]
  cases hn : l.neg <;>
    simp [Literal.render, Literal.magnitude, hn, zero_notMem_digits h.int.2, hfrac, hexp]

theorem zero_notMem_renderItems {is : List Item} (h : ∀ i ∈ is, i.Lexical) {r : Bytes}
    (hr : 0 ∉ r) :
    0 ∉ renderItems is r := by
  have hx : ∀ c, isxdigit c = true → (0 : UInt8) ≠ c := by rintro _ hc rfl; cases hc
  induction is with
  | nil => exact hr
  | cons i is ih =>
    have ih := ih fun i hi => h i (List.mem_cons_of_mem _ hi)
    have hi := h i List.mem_cons_self
    cases i with
    | raw b =>
      have hb : (0 : UInt8) ≠ b := by rintro rfl; exact absurd hi.1 (by decide)
      simp [Item.render, hb, ih]
    | esc c =>
      have hc : (0 : UInt8) ≠ c := by rintro rfl; cases hi
      simp [Item.render, hc, ih]
    | unicode h₁ h₂ h₃ h₄ =>
      simp [Item.render, hx _ hi.1, hx _ hi.2.1, hx _ hi.2.2.1, hx _ hi.2.2.2, ih]

theorem zero_notMem_renderComma (comma : Bool) {r : Bytes} (hr : 0 ∉ r) :
    0 ∉ renderComma comma r := by
  cases comma <;> simpa [renderComma] using hr

mutual

theorem zero_notMem_render : ∀ {t : Tree} {r : Bytes}, t.In rfc8259 → 0 ∉ r → 0 ∉ t.render r
  | .null, _, _, hr | .true_, _, _, hr | .false_, _, _, hr => by simpa [Tree.render] using hr
  | .number _, _, ⟨l, h, rfl⟩, hr => by simp [Tree.render, zero_notMem_literal h, hr]
  | .string _, _, h, hr => by
    have := zero_notMem_renderItems h.1.1 (r := 0x22 :: _) (by simpa using hr)
    simpa [Tree.render] using this
  | .emptyArray _, _, h, hr | .emptyObject _, _, h, hr => by
    simpa [Tree.render, zero_notMem_ws (show Ws _ from h)] using hr
  | .array _, _, h, hr => by
    simpa [Tree.render] using elements_zero_notMem_render h (r := 0x5D :: _) (by simpa using hr)
  | .object _, _, h, hr => by
    simpa [Tree.render] using members_zero_notMem_render h (r := 0x7D :: _) (by simpa using hr)

theorem elements_zero_notMem_render : ∀ {es : Elements} {r : Bytes}, es.In rfc8259 → 0 ∉ r →
    0 ∉ es.render r
  | .last w₁ t w₂ comma, r, ⟨h₁, ht, h₂, _⟩, hr => by
    have := zero_notMem_render ht (r := w₂ ++ renderComma comma r)
      (by simpa [zero_notMem_ws h₂] using zero_notMem_renderComma comma hr)
    simpa [Elements.render, zero_notMem_ws h₁] using this
  | .cons w₁ t w₂ es, r, ⟨h₁, ht, h₂, hes⟩, hr => by
    have := zero_notMem_render ht (r := w₂ ++ 0x2C :: es.render r)
      (by simpa [zero_notMem_ws h₂] using elements_zero_notMem_render hes hr)
    simpa [Elements.render, zero_notMem_ws h₁] using this

theorem members_zero_notMem_render : ∀ {ms : Members} {r : Bytes}, ms.In rfc8259 → 0 ∉ r →
    0 ∉ ms.render r
  | .last w₁ name w₂ w₃ t w₄ comma, r, ⟨h₁, hn, h₂, h₃, ht, h₄, _⟩, hr => by
    have := zero_notMem_render ht (r := w₄ ++ renderComma comma r)
      (by simpa [zero_notMem_ws h₄] using zero_notMem_renderComma comma hr)
    have := zero_notMem_renderItems hn.1.1 (r := 0x22 :: (w₂ ++ 0x3A :: (w₃ ++ _)))
      (by simpa [zero_notMem_ws h₂, zero_notMem_ws h₃] using this)
    simpa [Members.render, zero_notMem_ws h₁] using this
  | .cons w₁ name w₂ w₃ t w₄ ms, r, ⟨h₁, hn, h₂, h₃, ht, h₄, hms⟩, hr => by
    have := zero_notMem_render ht (r := w₄ ++ 0x2C :: ms.render r)
      (by simpa [zero_notMem_ws h₄] using members_zero_notMem_render hms hr)
    have := zero_notMem_renderItems hn.1.1 (r := 0x22 :: (w₂ ++ 0x3A :: (w₃ ++ _)))
      (by simpa [zero_notMem_ws h₂, zero_notMem_ws h₃] using this)
    simpa [Members.render, zero_notMem_ws h₁] using this

end

/-! ## Which sources are texts -/

/-- The whole source is a text of RFC 8259 with the given tree. -/
def IsRfc8259 (s : Bytes) (t : Tree) : Prop :=
  t.In rfc8259 ∧ ∃ w w', Ws w ∧ Ws w' ∧ s = w ++ t.render w'

theorem IsRfc8259.readsAs {s : Bytes} {t : Tree} (h : IsRfc8259 s t) : ReadsAs s t [] := by
  obtain ⟨-, w, w', hw, hw', rfl⟩ := h
  exact ⟨w, w', hw, hw', by rw [List.append_assoc, ← Tree.render_append]⟩

theorem IsRfc8259.zero_notMem {s : Bytes} {t : Tree} (h : IsRfc8259 s t) : 0 ∉ s := by
  obtain ⟨ht, w, w', hw, hw', rfl⟩ := h
  simp [zero_notMem_ws hw, zero_notMem_render ht (zero_notMem_ws hw')]

/-- Where a source can be read as a lenient text, it can be read in no other way. -/
theorem IsRfc8259.eq {s rest : Bytes} {t t' : Tree} (h : IsRfc8259 s t) (ht' : t'.In lenient)
    (hr : ReadsAs s t' rest) : t' = t :=
  (ReadsAs.unique hr h.readsAs (ht'.mono lenient_le_loose)
    ((h.1.mono rfc8259_le_lenient).mono lenient_le_loose)).1

variable {rt : Runtime} {keywords nils : Bool}

/-- `json/decode` accepts the texts of RFC 8259 in which nothing is nested
    deeper than the recursion guard, with the content they have. -/
theorem jsonDecode_rfc8259 {s : Bytes} {t : Tree} (h : IsRfc8259 s t)
    (hh : t.height ≤ rt.recursionGuard) :
    ∃ v, jsonDecode rt s keywords nils = .ok v ∧ v.deep id = meaning id keywords nils t :=
  ⟨_, jsonDecode_iff.2 ⟨t, [], h.1.mono rfc8259_le_lenient, hh, h.readsAs, rfl⟩, deep_treeValue t⟩

/-- `{"a":[1,null]}`. -/
def sampleTree : Tree :=
  .object (.last [] [.raw 0x61] [] [] (.array (.cons [] (.number [0x31]) []
    (.last [0x20] .null [] false))) [] false)

theorem isJson_one : (Literal.mk false [0x31] none none).IsJson :=
  ⟨⟨by simp, by simp [isdigit]⟩, by simp, by simp, by simp⟩

theorem isRfc8259_sample : IsRfc8259 (sampleTree.render []) sampleTree := by
  refine ⟨⟨ws_nil, ⟨⟨by simp [Item.Lexical], rfl⟩, Utf8.isUtf8_ascii (by simp [Item.render])⟩,
    ws_nil, ws_nil,
    ⟨ws_nil, ⟨_, isJson_one, rfl⟩, ws_nil, by simp [Ws, isWs], trivial, ws_nil, rfl⟩, ws_nil, rfl⟩,
    [], [], ws_nil, ws_nil, rfl⟩

theorem jsonDecode_rfc8259_sample : IsRfc8259 (sampleTree.render []) sampleTree ∧
    ∃ v, jsonDecode .assoc (sampleTree.render []) false false = .ok v ∧
      v.deep id = meaning id false false sampleTree :=
  ⟨isRfc8259_sample, jsonDecode_rfc8259 isRfc8259_sample (by decide)⟩

/-- What `json/decode` accepts is a text of RFC 8259 with the content of the
    result exactly if it has no zero byte and, read as a lenient text, no other
    extension: no number that is spelled in another way, no string that is not
    in UTF-8, and no comma before a closing bracket. -/
theorem jsonDecode_isRfc8259_iff {s : Bytes} {v : Janet}
    (h : jsonDecode rt s keywords nils = .ok v) :
    (∃ t, IsRfc8259 s t ∧ v.deep id = meaning id keywords nils t) ↔
      0 ∉ s ∧ ∀ t rest, t.In lenient → ReadsAs s t rest → t.In strict := by
  constructor
  · rintro ⟨t, ht, -⟩
    refine ⟨ht.zero_notMem, fun t' rest ht' hr => ?_⟩
    rw [ht.eq ht' hr]
    exact ht.1.mono rfc8259_le_strict
  · rintro ⟨h0, hs⟩
    obtain ⟨t, rest, ht, -, hr, rfl⟩ := jsonDecode_iff.1 h
    refine ⟨t, ⟨rfc8259_of_strict ht (hs t rest ht hr), ?_⟩, deep_treeValue t⟩
    obtain rfl := hr.rest_eq_nil h0
    obtain ⟨w, w', hw, hw', e⟩ := hr
    refine ⟨w, w', hw, hw', ?_⟩
    rw [Tree.render_append, ← List.append_assoc] at e
    exact List.append_cancel_right e

/-- `[1,]`. -/
def commaTree : Tree := .array (.last [] (.number [0x31]) [] true)

theorem lenient_commaTree : commaTree.In lenient :=
  ⟨ws_nil, lenient_literal isJson_one, ws_nil, trivial⟩

theorem readsAs_commaTree : ReadsAs (ascii ['[', '1', ',', ']']) commaTree [] :=
  ⟨[], [], ws_nil, ws_nil, rfl⟩

theorem jsonDecode_comma : jsonDecode .assoc (ascii ['[', '1', ',', ']']) false false =
    .ok (treeValue .assoc false false commaTree) :=
  jsonDecode_iff.2 ⟨commaTree, [], lenient_commaTree, by decide, readsAs_commaTree, rfl⟩

theorem jsonDecode_isRfc8259_iff_comma :
    (∃ t, IsRfc8259 (ascii ['[', '1', ',', ']']) t ∧
      (treeValue .assoc false false commaTree).deep id = meaning id false false t) ↔
    0 ∉ ascii ['[', '1', ',', ']'] ∧
      ∀ t rest, t.In lenient → ReadsAs (ascii ['[', '1', ',', ']']) t rest → t.In strict :=
  jsonDecode_isRfc8259_iff jsonDecode_comma

/-- A comma before a closing bracket is accepted. -/
theorem jsonDecode_comma_not_rfc8259 :
    (∃ v, jsonDecode .assoc (ascii ['[', '1', ',', ']']) false false = .ok v) ∧
      ¬∃ t, IsRfc8259 (ascii ['[', '1', ',', ']']) t := by
  refine ⟨⟨_, jsonDecode_comma⟩, ?_⟩
  rintro ⟨t, ht⟩
  have hc := ht.1
  rw [← ht.eq lenient_commaTree readsAs_commaTree] at hc
  obtain ⟨-, -, -, hc⟩ := hc
  cases hc

end PunyGui
