import PunyGui.Json.RoundTrip

/-!
# What survives JSON

Three questions about `json/encode` and `json/decode` together, each answered by
a condition on the parts of the value.

* `jsonEncode_usable_iff`: when the output is JSON that the decoder accepts.
* `jsonEncode_jsonDecode_iff`: when a value made of JSON data comes back as its
  canonical image.
* `jsonDecode_reencode_iff`: when a decoded value survives being encoded and
  decoded again.
-/

namespace PunyGui

open Binary64 Text Libc JsonText

variable {rt : Runtime}

/-! ## Usable output -/

/-- A part of a value that has a JSON text: a finite number, or a byte sequence
    whose codepoints have their surrogates paired. -/
def UsablePart : Janet → Prop
  | .number x => x.IsFinite
  | .string s | .symbol s | .keyword s | .buffer s => Paired (codepoints s).1
  | _ => True

theorem writtenIn_rfc8259_iff (y : Janet) : WrittenIn rfc8259 y ↔ UsablePart y := by
  cases y <;> simp [WrittenIn, UsablePart, rfc8259_number_iff, rfc8259_string_iff]

/-- The output of `json/encode` is a text of RFC 8259, and `json/decode` accepts
    it, exactly if the value is nested at most as deep as the recursion guard and
    all its numbers and byte sequences have a JSON text. -/
theorem jsonEncode_usable_iff {x : Janet} {b : Bytes} (h : jsonEncode x none none [] = .ok b) :
    ((∃ t, IsRfc8259 b t) ∧ ∃ v, jsonDecode rt b false false = .ok v) ↔
      x.height ≤ rt.recursionGuard ∧ x.Forall UsablePart := by
  obtain ⟨hw, rfl⟩ := jsonEncode_eq_ok_iff.1 h
  have hrfc : x.Forall (WrittenIn rfc8259) ↔ x.Forall UsablePart :=
    ⟨Janet.Forall.mono fun y => (writtenIn_rfc8259_iff y).1,
      Janet.Forall.mono fun y => (writtenIn_rfc8259_iff y).2⟩
  have hiff := isRfc8259_textOf ws_nil ws_nil hw
  simp only [List.nil_append, Option.getD_none, formatNewline, Option.isSome_none,
    Bool.false_eq_true,
    if_false, jsonDecode_textOf ws_nil ws_nil hw, hiff, hrfc]
  constructor
  · rintro ⟨hu, v, -, hh, -⟩
    exact ⟨hh, hu⟩
  · rintro ⟨hh, hu⟩
    exact ⟨hu, _, Janet.Forall.mono (WrittenIn.mono rfc8259_le_lenient) (hrfc.2 hu), hh, rfl⟩

/-- `[10,{"a":["hi",true]}]`. -/
def nestedText : Bytes :=
  ascii ['[', '1', '0', ',', '{', '"', 'a', '"', ':', '[', '"', 'h', 'i', '"', ',', 't', 'r', 'u',
    'e', ']', '}', ']']

/-- The value that it is decoded to. -/
def nested : Janet :=
  .array [.number (.ofInt 10),
    .table [(.string (ascii ['a']), .array [.string (ascii ['h', 'i']), .boolean true])]]

theorem jsonEncode_usable_iff_nested : ((∃ t, IsRfc8259 nestedText t) ∧
    ∃ v, jsonDecode .assoc nestedText false false = .ok v) ↔
      nested.height ≤ Runtime.assoc.recursionGuard ∧ nested.Forall UsablePart :=
  jsonEncode_usable_iff (x := nested) (by decide +kernel)

/-- An infinity is written as a word that is no JSON. -/
theorem jsonEncode_inf :
    jsonEncode (.number (.inf false)) none none [] = .ok (ascii ['i', 'n', 'f']) ∧
    (¬∃ t, IsRfc8259 (ascii ['i', 'n', 'f']) t) ∧
    ¬∃ v, jsonDecode .assoc (ascii ['i', 'n', 'f']) false false = .ok v := by
  have hw : (Janet.number (.inf false)).Forall Writable := trivial
  refine ⟨rfl, fun h => ?_, ?_⟩
  · exact (rfc8259_number_iff (.inf false)).1 ((isRfc8259_textOf ws_nil ws_nil hw).1 h)
  · rintro ⟨v, h⟩
    exact ((lenient_number_iff (.inf false)).1 ((jsonDecode_textOf ws_nil ws_nil hw).1 h).1).1 rfl

/-! ## The canonical image -/

/-- A part of a value that is JSON data: a finite number, a byte sequence in
    UTF-8, or a container, whose keys are byte sequences that differ as such. -/
def JsonPart : Janet → Prop
  | .nil | .boolean _ | .array _ | .tuple _ => True
  | .number x => x.IsFinite
  | .string s | .symbol s | .keyword s | .buffer s => Utf8.IsUtf8 s
  | .table kvs | .struct kvs => (∀ kv ∈ entries kvs, kv.1.bytes?.isSome) ∧
      ((entries kvs).map fun kv => kv.1.bytes?).Nodup
  | .function _ | .cfunction _ | .fiber _ | .abstract _ | .pointer _ => False

/-- The atom JSON has for an atom: byte sequences become strings, nil `:null`. -/
def canonicalAtom : Janet → Janet
  | .nil => nullKeyword
  | .string s | .symbol s | .keyword s | .buffer s => .string s
  | x => x

/-- The content of the canonical image of a value. -/
noncomputable def canonical : Janet → Deep := content canonicalAtom id

/-- A part of a value the encoder leaves intact: it mangles no character. -/
def IntactPart : Janet → Prop
  | .string s | .symbol s | .keyword s | .buffer s => Unmangled s
  | _ => True

theorem bytes_canonicalAtom (k : Janet) (s : Bytes) (h : k.bytes? = some s) :
    (canonicalAtom k).bytes? = some s := by
  cases k <;> simp_all [Janet.bytes?, canonicalAtom]

theorem writable_of_jsonPart : ∀ y : Janet, JsonPart y → Writable y
  | .nil, _ | .boolean _, _ | .number _, _ | .array _, _ | .tuple _, _ => trivial
  | .string _, ⟨cs, h⟩ | .symbol _, ⟨cs, h⟩ | .keyword _, ⟨cs, h⟩ | .buffer _, ⟨cs, h⟩ => by
    rw [h, Writable, codepoints_encode]
  | .table _, h | .struct _, h => h.1

theorem lenient_of_jsonPart : ∀ y : Janet, JsonPart y → WrittenIn lenient y
  | .nil, _ | .boolean _, _ | .array _, _ | .tuple _, _ | .table _, _ | .struct _, _ => trivial
  | .number x, h => rfc8259_le_lenient.number _ ((rfc8259_number_iff x).2 h)
  | .string _, ⟨cs, h⟩ | .symbol _, ⟨cs, h⟩ | .keyword _, ⟨cs, h⟩ | .buffer _, ⟨cs, h⟩ => by
    rw [h]
    exact ⟨fun i hi => (stringItems_spec _ i hi).1, by rw [stringValue_encode]; rfl⟩

theorem keysDistinct_of_jsonPart : ∀ y : Janet, JsonPart y → KeysDistinct canonicalAtom y
  | .table kvs, h | .struct kvs, h => by
    have he : ((entries kvs).map fun kv => kv.1.bytes?) =
        ((entries kvs).map fun kv => canonicalAtom kv.1).map Janet.bytes? := by
      rw [List.map_map]
      refine List.map_congr_left fun kv hkv => ?_
      obtain ⟨s, hs⟩ := Option.isSome_iff_exists.1 (h.1 kv hkv)
      rw [Function.comp, hs, bytes_canonicalAtom _ s hs]
    exact List.Nodup.of_map _ (he ▸ h.2)
  | .nil, _ | .boolean _, _ | .number _, _ | .array _, _ | .tuple _, _ | .string _, _
  | .symbol _, _ | .keyword _, _ | .buffer _, _ => trivial

/-- A finite number is read back as it was written. -/
theorem strtod_formatG17_finite {x : Double} (h : x.IsFinite) : (strtod (formatG17 x)).1 = x := by
  cases x with
  | finite neg i =>
    have := strtod_formatG17 neg i (r := []) stops_nil
    rw [List.append_nil] at this
    rw [this]
  | inf _ => cases h
  | nan _ => cases h

theorem returns_iff_intactPart {y : Janet} (h : JsonPart y) :
    Returns canonicalAtom id y ↔ IntactPart y := by
  cases y <;>
    simp_all [Returns, IntactPart, canonicalAtom, rereadAtom, ← respell_eq_iff, JsonPart,
      strtod_formatG17_finite]

/-- What comes back from encoding and decoding a value. -/
theorem encode_decode_iff {x : Janet} {p : Janet → Prop} (hw : x.Forall Writable) :
    (∃ b v, jsonEncode x none none [] = .ok b ∧ jsonDecode rt b false false = .ok v ∧ p v) ↔
      x.Forall (WrittenIn lenient) ∧ x.height ≤ rt.recursionGuard ∧
        p (treeValue rt false false (textOf [] [] 0 x)) := by
  simp only [jsonEncode_eq_ok_iff, List.nil_append, Option.getD_none, formatNewline,
    Option.isSome_none, Bool.false_eq_true, if_false]
  constructor
  · rintro ⟨_, v, ⟨-, rfl⟩, hd, hp⟩
    obtain ⟨h₁, h₂, rfl⟩ := (jsonDecode_textOf ws_nil ws_nil hw).1 hd
    exact ⟨h₁, h₂, hp⟩
  · rintro ⟨h₁, h₂, hp⟩
    exact ⟨_, _, ⟨hw, rfl⟩, (jsonDecode_textOf ws_nil ws_nil hw).2 ⟨h₁, h₂, rfl⟩, hp⟩

/-- JSON data comes back as its canonical image exactly if in every sequence of
    four UTF-8 bytes, in strings and keys, the third and the fourth byte have the
    same six low bits. -/
theorem jsonEncode_jsonDecode_iff {x : Janet} (hx : x.Forall JsonPart)
    (hh : x.height ≤ rt.recursionGuard) :
    (∃ b v, jsonEncode x none none [] = .ok b ∧ jsonDecode rt b false false = .ok v ∧
      v.deep id = canonical x) ↔ x.Forall IntactPart := by
  have hw := hx.mono writable_of_jsonPart
  rw [encode_decode_iff hw, deep_treeValue, meaning_textOf id x 0 hw, canonical,
    reread_eq_content_iff bytes_canonicalAtom x hw (hx.mono keysDistinct_of_jsonPart)]
  constructor
  · rintro ⟨-, -, hr⟩
    exact (Janet.forall_and hx hr).mono fun y h => (returns_iff_intactPart h.1).1 h.2
  · intro hi
    exact ⟨hx.mono lenient_of_jsonPart, hh,
      (Janet.forall_and hx hi).mono fun y h => (returns_iff_intactPart h.1).2 h.2⟩

theorem jsonEncode_jsonDecode_iff_array :
    (∃ b v, jsonEncode (.array [.nil, .keyword [0x61]]) none none [] = .ok b ∧
      jsonDecode .assoc b false false = .ok v ∧
      v.deep id = canonical (.array [.nil, .keyword [0x61]])) ↔
      (Janet.array [.nil, .keyword [0x61]]).Forall IntactPart :=
  jsonEncode_jsonDecode_iff ⟨trivial, trivial, Utf8.isUtf8_ascii (by simp), trivial⟩ (by decide)

/-- The string of the character U+10001. -/
def linearB : Bytes := [0xF0, 0x90, 0x80, 0x81]

theorem isUtf8_linearB : Utf8.IsUtf8 linearB := ⟨[Char.ofNat 0x10001], by decide +kernel⟩

/-- U+10001 comes back as U+10041. -/
theorem jsonEncode_jsonDecode_linearB : (Janet.string linearB).Forall JsonPart ∧
    ¬∃ b v, jsonEncode (.string linearB) none none [] = .ok b ∧
      jsonDecode .assoc b false false = .ok v ∧ v.deep id = canonical (.string linearB) := by
  have hj : (Janet.string linearB).Forall JsonPart := isUtf8_linearB
  refine ⟨hj, fun h => ?_⟩
  have h := ((encode_decode_iff (hj.mono writable_of_jsonPart)).1 h).2.2
  have hr : respell linearB = linearB := by
    simpa [treeValue, textOf, Janet.deep, canonical, content,
    canonicalAtom, respell] using h
  exact absurd hr (by decide +kernel)

/-! ## Decoded values -/

/-- A part of what `json/decode` returns. -/
def DecodedPart : Janet → Prop
  | .boolean _ | .number _ | .string _ | .array _ => True
  | .keyword s => s = ascii ['n', 'u', 'l', 'l']
  | .table kvs => (∀ kv ∈ entries kvs, ∃ s, kv.1 = .string s) ∧ WellKeyed kvs
  | _ => False

section Decoded

theorem decodedPart_put {kvs : Slots} {s : Bytes} {v : Janet} (h : DecodedPart (.table kvs))
    (hkvs : Janet.ForallSlots DecodedPart kvs) (hv : v.Forall DecodedPart) :
    DecodedPart (.table (rt.tablePut kvs (.string s) v)) ∧
      Janet.ForallSlots DecodedPart (rt.tablePut kvs (.string s) v) := by
  have hmem : ∀ {kv}, kv ∈ entries (rt.tablePut kvs (.string s) v) →
      kv = (.string s, v) ∨ kv ∈ entries kvs := mem_entries_put (isKey_string s) (by simp)
  rw [forallSlots_iff] at hkvs ⊢
  refine ⟨⟨fun kv hkv => ?_, wellKeyed_put (isKey_string s) (by simp) h.2⟩, fun kv hkv => ?_⟩
  · rcases hmem hkv with rfl | hkv
    · exact ⟨s, rfl⟩
    · exact h.1 kv hkv
  · rcases hmem hkv with rfl | hkv
    · exact ⟨trivial, hv⟩
    · exact hkvs kv hkv

theorem decodedPart_table :
    DecodedPart (.table rt.table) ∧ Janet.ForallSlots DecodedPart rt.table := by
  rw [forallSlots_iff, DecodedPart, rt.entries_table]
  simp [wellKeyed_table]

mutual

theorem decodedPart_treeValue : ∀ t : Tree, (treeValue rt false false t).Forall DecodedPart
  | .null => rfl
  | .true_ | .false_ | .number _ | .string _ => trivial
  | .emptyArray _ => ⟨trivial, trivial⟩
  | .array es => ⟨trivial, decodedPart_elementValues es⟩
  | .emptyObject _ => decodedPart_table
  | .object ms => decodedPart_memberSlots ms decodedPart_table

theorem decodedPart_elementValues : ∀ es : Elements,
    Janet.ForallItems DecodedPart (elementValues rt false false es)
  | .last _ t _ _ => ⟨decodedPart_treeValue t, trivial⟩
  | .cons _ t _ es => ⟨decodedPart_treeValue t, decodedPart_elementValues es⟩

theorem decodedPart_memberSlots : ∀ (ms : Members) {kvs : Slots},
    DecodedPart (.table kvs) ∧ Janet.ForallSlots DecodedPart kvs →
    DecodedPart (.table (memberSlots rt false false ms kvs)) ∧
      Janet.ForallSlots DecodedPart (memberSlots rt false false ms kvs)
  | .last _ _ _ _ t _ _, _, h => decodedPart_put h.1 h.2 (decodedPart_treeValue t)
  | .cons _ _ _ _ t _ ms, _, h =>
    decodedPart_memberSlots ms (decodedPart_put h.1 h.2 (decodedPart_treeValue t))

end

theorem height_put_le (name : List Item) {kvs : Slots} {v : Janet} {n : ℕ}
    (h : Janet.heightSlots kvs ≤ n) (hv : v.height + 1 ≤ n) :
    Janet.heightSlots (rt.tablePut kvs (nameKey false name) v) ≤ n := by
  rw [heightSlots_le_iff] at h ⊢
  intro kv hkv
  rcases mem_entries_put (isKey_nameKey name) (nameKey_ne_nil name) hkv with rfl | hkv
  · exact hv
  · exact h kv hkv

mutual

/-- A value is nested at most as deep as its text. -/
theorem height_treeValue_le : ∀ t : Tree, (treeValue rt false false t).height ≤ t.height
  | .null | .true_ | .false_ | .number _ | .string _ | .emptyArray _ => Nat.zero_le _
  | .array es => height_elementValues_le es
  | .emptyObject _ => by
    rw [treeValue, Janet.height, heightSlots_le_iff, rt.entries_table]
    simp
  | .object ms => by
    refine height_memberSlots_le ms ?_ le_rfl
    rw [heightSlots_le_iff, rt.entries_table]
    simp

theorem height_elementValues_le : ∀ es : Elements,
    Janet.heightItems (elementValues rt false false es) ≤ es.height + 1
  | .last _ t _ _ => by
    have := height_treeValue_le t
    simp only [elementValues, Janet.heightItems, Elements.height]
    omega
  | .cons _ t _ es => by
    have h₁ := height_treeValue_le t
    have h₂ := height_elementValues_le es
    simp only [elementValues, Janet.heightItems, Elements.height]
    omega

theorem height_memberSlots_le : ∀ (ms : Members) {kvs : Slots} {n : ℕ},
    Janet.heightSlots kvs ≤ n → ms.height + 1 ≤ n →
    Janet.heightSlots (memberSlots rt false false ms kvs) ≤ n
  | .last _ name _ _ t _ _, kvs, n, h, hn => by
    exact height_put_le name h ((Nat.succ_le_succ (height_treeValue_le t)).trans hn)
  | .cons _ name _ _ t _ ms, kvs, n, h, hn => by
    have hmax : max t.height ms.height + 1 ≤ n := hn
    have ht : (treeValue rt false false t).height ≤ t.height := height_treeValue_le t
    exact height_memberSlots_le ms (height_put_le name h (by omega)) (by omega)

end

theorem deepSlots_eq_contentSlots_of {f : Double → Double} {kvs : List (Janet × Janet)}
    (h : ∀ kv ∈ entries kvs, kv.2.deep f = content id f kv.2) :
    Janet.deepSlots f kvs = contentSlots id f kvs := by
  induction kvs with
  | nil => rfl
  | cons kv kvs ih =>
    obtain ⟨k, v⟩ := kv
    rw [Janet.deepSlots, contentSlots]
    funext k'
    cases hn : k.isNil with
    | true =>
      rw [entries_cons_nil hn] at h
      simp [ih h]
    | false =>
      rw [entries_cons hn, List.forall_mem_cons] at h
      simp [ih h.2, h.1]

mutual

/-- A decoded value has no tuples and no structs: its content is its content in depth. -/
theorem deep_eq_content (f : Double → Double) : ∀ x : Janet, x.Forall DecodedPart →
    x.deep f = content id f x
  | .boolean _, _ | .number _, _ | .string _, _ | .keyword _, _ => rfl
  | .array xs, h => by rw [Janet.deep, content, deepItems_eq_contentItems f xs h.2]
  | .table kvs, h => by
    rw [Janet.deep, content, deepSlots_eq_contentSlots_of (entries_deep_eq_content f kvs h.2)]

theorem deepItems_eq_contentItems (f : Double → Double) : ∀ xs : List Janet,
    Janet.ForallItems DecodedPart xs → Janet.deepItems f xs = contentItems id f xs
  | [], _ => rfl
  | x :: xs, ⟨hx, hxs⟩ => by
    rw [Janet.deepItems, contentItems, deep_eq_content f x hx, deepItems_eq_contentItems f xs hxs]

theorem entries_deep_eq_content (f : Double → Double) : ∀ kvs : List (Janet × Janet),
    Janet.ForallSlots DecodedPart kvs → ∀ kv ∈ entries kvs, kv.2.deep f = content id f kv.2
  | [], _ => by simp [entries]
  | (k, v) :: kvs, ⟨hkv, hkvs⟩ => by
    have ih := entries_deep_eq_content f kvs hkvs
    cases hn : k.isNil with
    | true => rwa [entries_cons_nil hn]
    | false =>
      rw [entries_cons hn, List.forall_mem_cons]
      exact ⟨deep_eq_content f v (hkv hn).2, ih⟩

end

end Decoded

/-! ## Encoding a decoded value -/

/-- A part of a decoded value that survives: no `:null`, a number that is neither
    a NaN nor the positive infinity, a string nothing in which is mangled. -/
def SurvivingPart : Janet → Prop
  | .keyword _ => False
  | .number x => x ≠ .inf false ∧ ∀ neg, x ≠ .nan neg
  | .string s => Unmangled s
  | _ => True

theorem writable_of_surviving {y : Janet} (hd : DecodedPart y) (hs : SurvivingPart y) :
    Writable y := by
  cases y with
  | boolean _ | number _ | array _ => trivial
  | string s =>
    obtain ⟨cs, rfl, -⟩ := hs
    rw [Writable, codepoints_encode]
  | keyword _ => cases hs
  | table kvs =>
    intro kv hkv
    obtain ⟨s, hs⟩ := hd.1 kv hkv
    rw [hs]
    rfl
  | _ => cases hd

theorem lenient_of_surviving {y : Janet} (hd : DecodedPart y) (hs : SurvivingPart y) :
    WrittenIn lenient y := by
  cases y with
  | boolean _ | array _ | table _ => trivial
  | number x => exact (lenient_number_iff x).2 ⟨hs.1, hs.2 false⟩
  | string s =>
    obtain ⟨cs, rfl, -⟩ := hs
    exact ⟨fun i hi => (stringItems_spec _ i hi).1, by rw [stringValue_encode]; rfl⟩
  | keyword _ => cases hs
  | _ => cases hd

theorem returns_of_surviving {y : Janet} (hd : DecodedPart y) (hs : SurvivingPart y) :
    Returns id unsign y := by
  cases y with
  | boolean _ => rfl
  | array _ | table _ => trivial
  | number x =>
    rcases x with ⟨neg, i⟩ | (_ | _) | neg
    · exact congrArg unsign (strtod_formatG17_finite (x := .finite neg i) trivial)
    · exact absurd rfl hs.1
    · rfl
    · exact absurd rfl (hs.2 neg)
  | string s => exact congrArg Janet.string ((respell_eq_iff s).2 hs)
  | keyword _ => cases hs
  | _ => cases hd

theorem surviving_of_returns {y : Janet} (hd : DecodedPart y) (hl : WrittenIn lenient y)
    (hr : Returns id unsign y) (hn : ∀ neg, y ≠ .number (.nan neg)) : SurvivingPart y := by
  cases y with
  | boolean _ | array _ | table _ => trivial
  | number x => exact ⟨((lenient_number_iff x).1 hl).1, fun neg h => hn neg (h ▸ rfl)⟩
  | string s => exact (respell_eq_iff s).1 (Janet.string.inj hr)
  | keyword _ => cases hr
  | _ => cases hd

theorem keysDistinct_of_decoded {y : Janet} (hd : DecodedPart y) : KeysDistinct id y := by
  cases y with
  | boolean _ | array _ | number _ | string _ | keyword _ => trivial
  | table kvs => exact hd.2
  | _ => cases hd

/-- A decoded value is encoded, and decoded again to a value equal in depth,
    exactly if it has no `:null`, no NaN and no positive infinity, and all its
    strings and keys are well-formed UTF-8 that the encoder does not mangle. -/
theorem jsonDecode_reencode_iff {s : Bytes} {v : Janet} (h : jsonDecode rt s false false = .ok v) :
    (∃ b u, jsonEncode v none none [] = .ok b ∧ jsonDecode rt b false false = .ok u ∧ DeepEq u v) ↔
      v.Forall SurvivingPart := by
  obtain ⟨t, rest, -, hh, -, rfl⟩ := jsonDecode_iff.1 h
  have hd : (treeValue rt false false t).Forall DecodedPart := decodedPart_treeValue t
  have hh : (treeValue rt false false t).height ≤ rt.recursionGuard :=
    (height_treeValue_le t).trans hh
  generalize treeValue rt false false t = v at hd hh ⊢
  have hk : v.Forall (KeysDistinct id) := hd.mono fun y => keysDistinct_of_decoded
  -- The value read back has the same content exactly if all its parts return.
  have hdeep : ∀ hw : v.Forall Writable,
    ((treeValue rt false false (textOf [] [] 0 v)).deep unsign =
      v.deep unsign ↔ v.Forall (Returns id unsign)) := fun hw => by
    rw [deep_treeValue, meaning_textOf unsign v 0 hw, deep_eq_content unsign v hd]
    exact reread_eq_content_iff (h := id) (fun k s hs => hs) v hw hk
  constructor
  · rintro ⟨b, u, hb, hu, he⟩
    have hw := (jsonEncode_eq_ok_iff.1 hb).1
    obtain ⟨hl, -, he⟩ := (encode_decode_iff (p := fun u => DeepEq u v) hw).1 ⟨b, u, hb, hu, he⟩
    have hr := (hdeep hw).1 he.1
    exact (Janet.forall_and (Janet.forall_and hd hl) (Janet.forall_and hr he.2)).mono
      fun y hy => surviving_of_returns hy.1.1 hy.1.2 hy.2.1 hy.2.2
  · intro hs
    have hds := Janet.forall_and hd hs
    have hw := hds.mono fun y hy => writable_of_surviving hy.1 hy.2
    refine (encode_decode_iff hw).2
      ⟨hds.mono fun y hy => lenient_of_surviving hy.1 hy.2, hh, ?_, ?_⟩
    · exact (hdeep hw).2 (hds.mono fun y hy => returns_of_surviving hy.1 hy.2)
    · exact hs.mono fun y hy neg he => by
        subst he
        exact hy.2 neg rfl

/-- `null` comes back as the string `"null"`. -/
theorem jsonDecode_reencode_null :
    jsonDecode .assoc (ascii ['n', 'u', 'l', 'l']) false false = .ok nullKeyword ∧
      ¬∃ b u, jsonEncode nullKeyword none none [] = .ok b ∧
        jsonDecode .assoc b false false = .ok u ∧ DeepEq u nullKeyword := by
  refine ⟨rfl, fun h => ?_⟩
  have hw : nullKeyword.Forall Writable := rfl
  have he := ((encode_decode_iff (p := fun u => DeepEq u nullKeyword) hw).1 h).2.2.1
  simp [textOf, treeValue, nullKeyword, Janet.deep] at he

theorem jsonDecode_reencode_iff_nested :
    (∃ b u, jsonEncode nested none none [] = .ok b ∧
      jsonDecode .assoc b false false = .ok u ∧ DeepEq u nested) ↔ nested.Forall SurvivingPart :=
  jsonDecode_reencode_iff (s := nestedText) rfl

end PunyGui
