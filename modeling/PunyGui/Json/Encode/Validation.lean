import PunyGui.Json.Encode.Text
import PunyGui.JsonText.Unique

/-!
# The validation of UTF-8

Which byte sequences the encoder accepts, and whether it writes the characters they
stand for.

* `Framed`: the shape that it checks.
* `Spells`: a text that stands for a character.
* `validates_iff`: on which byte sequences it does what it should.
-/

namespace PunyGui

open Binary64 Text Libc JsonText Encoder

/-! ## The shape -/

/-- A continuation byte. -/
def IsContinuation (c : UInt8) : Prop := 0x80 ≤ c ∧ c < 0xC0

/-- The bytes are frames: a first byte that says how many continuation bytes follow, and
    these. -/
inductive Framed : Bytes → Prop
  | nil : Framed []
  | one {c₀ : UInt8} {s : Bytes} (h₀ : c₀ < 0x80) (h : Framed s) : Framed (c₀ :: s)
  | two {c₀ c₁ : UInt8} {s : Bytes} (h₀ : 0x80 ≤ c₀ ∧ c₀ < 0xE0) (h₁ : IsContinuation c₁)
      (h : Framed s) : Framed (c₀ :: c₁ :: s)
  | three {c₀ c₁ c₂ : UInt8} {s : Bytes} (h₀ : 0xE0 ≤ c₀ ∧ c₀ < 0xF0) (h₁ : IsContinuation c₁)
      (h₂ : IsContinuation c₂) (h : Framed s) : Framed (c₀ :: c₁ :: c₂ :: s)
  | four {c₀ c₁ c₂ c₃ : UInt8} {s : Bytes} (h₀ : 0xF0 ≤ c₀ ∧ c₀ < 0xF8) (h₁ : IsContinuation c₁)
      (h₂ : IsContinuation c₂) (h₃ : IsContinuation c₃) (h : Framed s) :
      Framed (c₀ :: c₁ :: c₂ :: c₃ :: s)

theorem isContinuation_iff : ∀ c, IsContinuation c ↔ c >>> 6 = 2 :=
  forall_byte (by simp only [IsContinuation]; decide +kernel)

section Framed

variable {s : Bytes}

/-- The encoder checks the frames, and nothing else. -/
theorem codepoints_of_framed (h : Framed s) : (codepoints s).2 = true := by
  -- A first byte fails the tests of the shorter frames, and passes that of its own.
  induction h with
  | nil => rfl
  | one h₀ _ ih =>
    rw [codepoints.eq_def]
    simp only [h₀, if_true]
    exact ih
  | two h₀ h₁ _ ih =>
    have h80 := UInt8.not_lt.2 h₀.1
    simp only [codepoints, h80, h₀.2, (isContinuation_iff _).1 h₁, if_false, if_true, ne_eq,
      not_true_eq_false]
    exact ih
  | @three c₀ c₁ c₂ s h₀ h₁ h₂ _ ih =>
    have hE0 := UInt8.not_lt.2 h₀.1
    have h80 : ¬c₀ < 0x80 := fun h => hE0 (UInt8.lt_trans h (by decide))
    simp only [codepoints, h80, hE0, h₀.2, (isContinuation_iff _).1 h₁,
      (isContinuation_iff _).1 h₂, if_false, if_true, ne_eq, not_true_eq_false]
    exact ih
  | @four c₀ c₁ c₂ c₃ s h₀ h₁ h₂ h₃ _ ih =>
    have hF0 := UInt8.not_lt.2 h₀.1
    have hE0 : ¬c₀ < 0xE0 := fun h => hF0 (UInt8.lt_trans h (by decide))
    have h80 : ¬c₀ < 0x80 := fun h => hE0 (UInt8.lt_trans h (by decide))
    simp only [codepoints, h80, hE0, hF0, h₀.2, (isContinuation_iff _).1 h₁,
      (isContinuation_iff _).1 h₂, (isContinuation_iff _).1 h₃, if_false, if_true, ne_eq,
      not_true_eq_false]
    exact ih

theorem framed_of_codepoints (h : (codepoints s).2 = true) : Framed s := by
  have hcont : ∀ {c : UInt8}, ¬c >>> 6 ≠ 2 → IsContinuation c := fun hc =>
    (isContinuation_iff _).2 (not_not.1 hc)
  fun_induction codepoints s with
  | case1 => exact .nil
  | case2 c₀ s h₀ ih => exact .one h₀ (ih h)
  | case4 c₀ h₁ h₂ c₁ s hc n ih => exact .two ⟨UInt8.not_lt.1 h₁, h₂⟩ (hcont hc) (ih h)
  | case8 c₀ h₁ h₂ h₃ c₁ c₂ s hc hc' n ih =>
    exact .three ⟨UInt8.not_lt.1 h₂, h₃⟩ (hcont hc) (hcont hc') (ih h)
  | case13 c₀ h₁ h₂ h₃ h₄ c₁ c₂ c₃ s hc hc' hc'' n ih =>
    exact .four ⟨UInt8.not_lt.1 h₃, h₄⟩ (hcont hc) (hcont hc') (hcont hc'') (ih h)
  | _ => cases h

theorem framed_iff : Framed s ↔ (codepoints s).2 = true :=
  ⟨codepoints_of_framed, framed_of_codepoints⟩

/-- Well-formed UTF-8 is framed. -/
theorem framed_of_isUtf8 (h : Utf8.IsUtf8 s) : Framed s := by
  obtain ⟨cs, rfl⟩ := h
  rw [framed_iff, codepoints_encode]

end Framed

/-! ## What is written -/

/-- A text between quotes that stands for a character. -/
def Spells (c : Char) (text : Bytes) : Prop :=
  ∃ is : List Item, (∀ i ∈ is, i.Lexical) ∧ text = renderItems is [] ∧
    stringValue is = some (String.utf8EncodeChar c)

/-- The value of items is joined where none of them waits for a surrogate. -/
theorem stringValue_append {is js : List Item} {v : Bytes} (h : stringValue is = some v) :
    stringValue (is ++ js) = (stringValue js).map (v ++ ·) := by
  fun_induction stringValue is generalizing v with
  | case1 =>
    cases h
    simp
  | case2 b is ih =>
    obtain ⟨v, hv, rfl⟩ := Option.map_eq_some_iff.1 h
    simp [stringValue, ih hv, Function.comp_def]
  | case3 c is ih =>
    obtain ⟨v, hv, rfl⟩ := Option.map_eq_some_iff.1 h
    simp [stringValue, ih hv, Function.comp_def]
  | case5 h₁ h₂ h₃ h₄ u hlow hhigh g₁ g₂ g₃ g₄ is l hl' =>
    rename_i ih
    obtain ⟨v, hv, rfl⟩ := Option.map_eq_some_iff.1 h
    rw [List.cons_append, List.cons_append, stringValue_pair hhigh hl', ih hv]
    simp [Function.comp_def, u, l]
  | case8 h₁ h₂ h₃ h₄ is u hlow hhigh =>
    rename_i ih
    obtain ⟨v, hv, rfl⟩ := Option.map_eq_some_iff.1 h
    rw [List.cons_append, stringValue_unicode hlow hhigh, ih hv]
    simp [Function.comp_def, u]
  | _ => cases h

theorem spells_writeCodepoint (c : Char) : Spells c (writeCodepoint c.toNat) := by
  refine ⟨codepointItems c.toNat, fun i hi => (codepointItems_spec _ i hi).1, ?_, ?_⟩
  · rw [render_codepointItems, List.append_nil]
  · have hv : c.toNat.isValidChar := c.valid
    rw [← List.append_nil (codepointItems c.toNat), stringValue_codepointItems hv,
      Utf8.bytes_toNat]
    simp [stringValue]

/-- Texts for the characters, one after the other, are a text for the string. -/
theorem exists_items_of_spells {cs : List Char} {texts : List Bytes}
    (h : List.Forall₂ Spells cs texts) : ∃ is : List Item, (∀ i ∈ is, i.Lexical) ∧
      (∀ r, texts.flatten ++ r = renderItems is r) ∧ stringValue is = some (Utf8.encode cs) := by
  induction h with
  | nil => exact ⟨[], by simp, fun r => rfl, rfl⟩
  | cons hc _ ih =>
    obtain ⟨is, hl, rfl, hv⟩ := hc
    obtain ⟨js, hl', hr, hv'⟩ := ih
    refine ⟨is ++ js, fun i hi => (List.mem_append.1 hi).elim (hl i) (hl' i), fun r => ?_, ?_⟩
    · rw [renderItems_append, ← hr, List.flatten_cons, List.append_assoc,
        ← renderItems_append_right, List.nil_append]
    · rw [stringValue_append hv, hv', Option.map_some, Utf8.encode_cons]

/-! ## The validation -/

/-- What the encoder should do with a byte sequence: accept it exactly if it is
    well-formed UTF-8, and write its characters then. -/
structure Validates (b : Bytes) : Prop where
  accepts (e : Encoder) (k : Janet) (hk : k.bytes? = some b) :
    (∃ e', encodeOne e k = .ok e') ↔ Utf8.IsUtf8 b
  rejects (e : Encoder) (k : Janet) (hk : k.bytes? = some b) (err : String × Encoder)
    (h : encodeOne e k = .error err) : err.1 = "string contains invalid utf-8"
  writes (e : Encoder) (k : Janet) (hk : k.bytes? = some b) (e' : Encoder)
    (h : encodeOne e k = .ok e') : ∃ cs texts, b = Utf8.encode cs ∧
      List.Forall₂ Spells cs texts ∧ e' = e.push (0x22 :: (texts.flatten ++ [0x22]))

section Validates

variable {b : Bytes} {e e' : Encoder}

theorem encodeString_ok_iff : encodeString e b = .ok e' ↔ Framed b ∧
    e' = e.push (0x22 :: renderItems (stringItems b) [0x22]) := by
  rw [framed_iff]
  simp only [encodeString]
  split_ifs with h
  · simp [h, render_stringItems, eq_comm]
  · simp [h]

theorem encodeString_error {err : String × Encoder} (h : encodeString e b = .error err) :
    err.1 = "string contains invalid utf-8" := by
  simp only [encodeString] at h
  split_ifs at h
  cases h
  rfl

/-- What is not framed is rejected, as it should be. -/
theorem validates_of_not_framed (hb : ¬Framed b) : Validates b where
  accepts e k hk := by
    refine ⟨fun ⟨e', h⟩ => ?_, fun h => absurd (framed_of_isUtf8 h) hb⟩
    rw [encodeOne_bytes hk, encodeString_ok_iff] at h
    exact absurd h.1 hb
  rejects e k hk err h := encodeString_error (encodeOne_bytes hk e ▸ h)
  writes e k hk e' h := by
    rw [encodeOne_bytes hk, encodeString_ok_iff] at h
    exact absurd h.1 hb

/-- Well-formed UTF-8 is written as it should be where nothing is mangled. -/
theorem validates_of_unmangled (hb : Unmangled b) : Validates b where
  accepts e k hk := by
    obtain ⟨cs, rfl, -⟩ := hb
    refine ⟨fun _ => ⟨cs, rfl⟩, fun h => ?_⟩
    rw [encodeOne_bytes hk]
    exact ⟨_, encodeString_ok_iff.2 ⟨framed_of_isUtf8 h, rfl⟩⟩
  rejects e k hk err h := encodeString_error (encodeOne_bytes hk e ▸ h)
  writes e k hk e' h := by
    obtain ⟨cs, rfl, hcs⟩ := hb
    rw [encodeOne_bytes hk, encodeString_ok_iff] at h
    have hmap : cs.map (fun c => mangle c.toNat) = cs.map Char.toNat :=
      List.map_congr_left fun c hc => (mangle_eq_iff _).2 (hcs c hc)
    refine ⟨cs, cs.map fun c => writeCodepoint c.toNat, rfl, ?_, ?_⟩
    · rw [List.forall₂_map_right_iff, List.forall₂_same]
      exact fun c _ => spells_writeCodepoint c
    · rw [h.2, render_stringItems, codepoints_encode, hmap, List.flatMap_map, List.flatMap_def]

/-- The text that is written stands for the bytes only where nothing is mangled. -/
theorem unmangled_of_validates (h : Validates b) (hb : Framed b) : Unmangled b := by
  have hok : encodeOne ⟨[], 0, [], []⟩ (.string b) = .ok _ :=
    (encodeOne_bytes rfl _).trans (encodeString_ok_iff.2 ⟨hb, rfl⟩)
  obtain ⟨cs, texts, hcs, hsp, he⟩ := h.writes _ _ rfl _ hok
  obtain ⟨is, hl, htext, hv⟩ := exists_items_of_spells hsp
  have hitems : renderItems (stringItems b) [0x22] = renderItems is [0x22] := by
    rw [← htext]
    simpa [push] using he
  have his := (renderItems_unique (fun i hi => (stringItems_spec b i hi).1) hl hitems).1
  rw [← respell_eq_iff, respell, his, hv, hcs]
  rfl

/-- The encoder does what it should exactly with what is not framed, which it rejects,
    and with well-formed UTF-8 in which nothing is mangled. -/
theorem validates_iff : Validates b ↔ ¬Framed b ∨ Unmangled b :=
  ⟨fun h => or_iff_not_imp_left.2 fun hb => unmangled_of_validates h (not_not.1 hb),
    fun h => h.elim validates_of_not_framed validates_of_unmangled⟩

end Validates

/-- Neither an overlong form nor a smiley is dealt with as it should be: the first is
    accepted, and of the second another character is written. -/
theorem not_validates_overlong_smiley :
    ¬Validates [0xC0, 0x80] ∧ ¬Validates [0xF0, 0x9F, 0x98, 0x80] := by
  constructor
  · intro h
    have hb := (respell_eq_iff _).2 (unmangled_of_validates h (framed_iff.2 (by decide)))
    exact absurd hb (by decide)
  · intro h
    have hb := (respell_eq_iff _).2 (unmangled_of_validates h (framed_iff.2 (by decide)))
    exact absurd hb (by decide)

end PunyGui
