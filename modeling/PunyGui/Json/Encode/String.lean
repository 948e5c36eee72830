import PunyGui.Json.Encode
import PunyGui.JsonText
import Mathlib.Tactic.IntervalCases

/-!
# Encoding strings

What the encoder makes of a byte sequence: the codepoints it gets and the items
of the grammar it writes for them.

* `codepoints_encode`: of a well-formed UTF-8 text it gets the characters, except
  that those above `0xFFFF` are mangled.
* `isSome_stringValue_iff`: the items have a value if the surrogates among the
  codepoints are paired.
* `respell`: what a decoder makes of the items.
-/

namespace PunyGui

open Text JsonText

/-! ## Bits -/

theorem shiftLeft_or {a k : ℕ} (h : a < 2 ^ k) (b : ℕ) : b <<< k ||| a = b * 2 ^ k + a := by
  rw [Nat.shiftLeft_eq, Nat.mul_comm, Nat.two_pow_add_eq_or_of_lt h]

section Sequences

variable (a b c d : ℕ)

theorem and_3F : a &&& 0x3F = a % 64 := Nat.and_two_pow_sub_one_eq_mod a 6

/-- The codepoint of two bytes. -/
theorem two_bits : (a &&& 0x1F) <<< 6 ||| (b &&& 0x3F) = a % 32 * 64 + b % 64 := by
  have ha : a &&& 0x1F = a % 32 := Nat.and_two_pow_sub_one_eq_mod a 5
  rw [ha, and_3F, shiftLeft_or (k := 6) (by omega)]
  rfl

/-- The codepoint of three bytes. -/
theorem three_bits : (a &&& 0x0F) <<< 12 ||| (b &&& 0x3F) <<< 6 ||| (c &&& 0x3F) =
    a % 16 * 4096 + b % 64 * 64 + c % 64 := by
  have ha : a &&& 0x0F = a % 16 := Nat.and_two_pow_sub_one_eq_mod a 4
  rw [ha, and_3F, and_3F, Nat.or_assoc, shiftLeft_or (k := 6) (by omega),
    shiftLeft_or (k := 12) (by omega)]
  omega

/-- The codepoint of four bytes. -/
theorem four_bits : (a &&& 0x07) <<< 18 ||| (b &&& 0x3F) <<< 12 ||| (c &&& 0x3F) <<< 6 |||
    (d &&& 0x3F) = a % 8 * 262144 + b % 64 * 4096 + c % 64 * 64 + d % 64 := by
  have ha : a &&& 0x07 = a % 8 := Nat.and_two_pow_sub_one_eq_mod a 3
  rw [ha, and_3F, and_3F, and_3F, Nat.or_assoc, Nat.or_assoc,
    shiftLeft_or (k := 6) (by omega), shiftLeft_or (k := 12) (by omega),
    shiftLeft_or (k := 18) (by omega)]
  omega

end Sequences

/-! ## Codepoints -/

/-- The codepoints have at most 21 bits. -/
theorem codepoints_lt (s : Bytes) : ∀ n ∈ (codepoints s).1, n < 0x200000 := by
  fun_induction codepoints s with
  | case1 => simp
  | case2 c₀ s h ih =>
    have := c₀.toNat_lt
    exact List.forall_mem_cons.2 ⟨by omega, ih⟩
  | case4 c₀ h₁ h₂ c₁ s hc n ih =>
    have hn : n = _ := two_bits ..
    exact List.forall_mem_cons.2 ⟨by omega, ih⟩
  | case8 c₀ h₁ h₂ h₃ c₁ c₂ s hc hc' n ih =>
    have hn : n = _ := three_bits ..
    exact List.forall_mem_cons.2 ⟨by omega, ih⟩
  | case13 c₀ h₁ h₂ h₃ h₄ c₁ c₂ c₃ s hc hc' hc'' n ih =>
    have hn : n = _ := four_bits ..
    exact List.forall_mem_cons.2 ⟨by omega, ih⟩
  | _ => simp

/-- What the encoder takes a character for. -/
def mangle (n : ℕ) : ℕ := if n < 0x10000 then n else n / 4096 * 4096 + n % 64 * 64 + n % 64

/-- A continuation byte passes the check. -/
theorem continuation_shift {n : ℕ} (h : n < 64) : UInt8.ofNat (n + 0x80) >>> 6 = 2 := by
  have : ∀ m : Fin 64, UInt8.ofNat (m + 0x80) >>> 6 = 2 := by decide +kernel
  exact this ⟨n, h⟩

theorem toNat_ofNat {n : ℕ} (h : n < 256) : (UInt8.ofNat n).toNat = n := by
  rw [UInt8.toNat_ofNat', Nat.mod_eq_of_lt h]

/-- The encoder gets the character of a UTF-8 sequence, possibly mangled. -/
theorem codepoints_bytes {n : ℕ} (h : n.isValidChar) (s : Bytes) :
    codepoints (Utf8.bytes n ++ s) = (mangle n :: (codepoints s).1, (codepoints s).2) := by
  have hlt : n < 0x110000 := by rw [Nat.isValidChar] at h; omega
  have hc : ∀ m, UInt8.ofNat (m % 64 + 0x80) >>> 6 = 2 := fun m =>
    continuation_shift (Nat.mod_lt m (by decide))
  have hm : ∀ m, (UInt8.ofNat (m % 64 + 0x80)).toNat = m % 64 + 0x80 := fun m =>
    toNat_ofNat (by omega)
  rw [mangle]
  -- By the length of the sequence: the first byte passes the tests up to that of its range.
  rcases Nat.lt_or_ge n 0x80 with h₁ | h₁
  · have ht : (UInt8.ofNat n).toNat = n := toNat_ofNat (by omega)
    have h80 : UInt8.ofNat n < 0x80 := UInt8.lt_iff_toNat_lt.2 (by rw [ht]; exact h₁)
    rw [Utf8.bytes_one h₁, if_pos (by omega), List.cons_append, List.nil_append, codepoints.eq_def]
    simp only [h80, if_true, ht]
  rcases Nat.lt_or_ge n 0x800 with h₂ | h₂
  · have ht : (UInt8.ofNat (n / 64 + 0xC0)).toNat = n / 64 + 0xC0 := toNat_ofNat (by omega)
    have h80 : ¬UInt8.ofNat (n / 64 + 0xC0) < 0x80 := by
      rw [UInt8.lt_iff_toNat_lt, ht]; simp
    have hE0 : UInt8.ofNat (n / 64 + 0xC0) < 0xE0 := by
      rw [UInt8.lt_iff_toNat_lt, ht]; simp; omega
    rw [Utf8.bytes_two h₁ h₂, if_pos (by omega)]
    simp only [List.cons_append, List.nil_append, codepoints, h80, hE0, hc, two_bits, ht, hm,
      if_false, if_true, ne_eq, not_true_eq_false]
    exact Prod.ext (List.cons_eq_cons.2 ⟨by omega, rfl⟩) rfl
  rcases Nat.lt_or_ge n 0x10000 with h₃ | h₃
  · have ht : (UInt8.ofNat (n / 4096 + 0xE0)).toNat = n / 4096 + 0xE0 := toNat_ofNat (by omega)
    have h80 : ¬UInt8.ofNat (n / 4096 + 0xE0) < 0x80 := by
      rw [UInt8.lt_iff_toNat_lt, ht]; simp
    have hE0 : ¬UInt8.ofNat (n / 4096 + 0xE0) < 0xE0 := by
      rw [UInt8.lt_iff_toNat_lt, ht]; simp
    have hF0 : UInt8.ofNat (n / 4096 + 0xE0) < 0xF0 := by
      rw [UInt8.lt_iff_toNat_lt, ht]; simp; omega
    rw [Utf8.bytes_three h h₂ h₃, if_pos h₃]
    simp only [List.cons_append, List.nil_append, codepoints, h80, hE0, hF0, hc, three_bits, ht, hm,
      if_false, if_true, ne_eq, not_true_eq_false]
    exact Prod.ext (List.cons_eq_cons.2 ⟨by omega, rfl⟩) rfl
  · have ht : (UInt8.ofNat (n / 262144 + 0xF0)).toNat = n / 262144 + 0xF0 := toNat_ofNat (by omega)
    have h80 : ¬UInt8.ofNat (n / 262144 + 0xF0) < 0x80 := by
      rw [UInt8.lt_iff_toNat_lt, ht]; simp
    have hE0 : ¬UInt8.ofNat (n / 262144 + 0xF0) < 0xE0 := by
      rw [UInt8.lt_iff_toNat_lt, ht]; simp
    have hF0 : ¬UInt8.ofNat (n / 262144 + 0xF0) < 0xF0 := by
      rw [UInt8.lt_iff_toNat_lt, ht]; simp
    have hF8 : UInt8.ofNat (n / 262144 + 0xF0) < 0xF8 := by
      rw [UInt8.lt_iff_toNat_lt, ht]; simp; omega
    rw [Utf8.bytes_four h₃ hlt, if_neg (by omega)]
    simp only [List.cons_append, List.nil_append, codepoints, h80, hE0, hF0, hF8, hc, four_bits, ht,
      hm, if_false, if_true, ne_eq, not_true_eq_false]
    exact Prod.ext (List.cons_eq_cons.2 ⟨by omega, rfl⟩) rfl

/-- Of a well-formed text, the encoder gets the characters, possibly mangled. -/
theorem codepoints_encode (cs : List Char) :
    codepoints (Utf8.encode cs) = (cs.map fun c => mangle c.toNat, true) := by
  induction cs with
  | nil => rfl
  | cons c cs ih =>
    have hc : c.toNat.isValidChar := c.valid
    rw [Utf8.encode_cons, ← Utf8.bytes_toNat, codepoints_bytes hc, ih]
    rfl

/-! ## Items -/

theorem tohex_spec {x : ℕ} (h : x < 16) : isxdigit (tohex x) = true ∧ digitVal (tohex x) = x := by
  interval_cases x <;> decide

/-- The escape written for a code unit. -/
def hexItem (n : ℕ) : Item :=
  .unicode (tohex (n >>> 12 &&& 0xF)) (tohex (n >>> 8 &&& 0xF)) (tohex (n >>> 4 &&& 0xF))
    (tohex (n &&& 0xF))

theorem and_F (n : ℕ) : n &&& 0xF = n % 16 := Nat.and_two_pow_sub_one_eq_mod n 4

theorem lexical_hexItem (n : ℕ) : (hexItem n).Lexical := by
  simp only [hexItem, and_F]
  exact ⟨(tohex_spec (Nat.mod_lt _ (by decide))).1, (tohex_spec (Nat.mod_lt _ (by decide))).1,
    (tohex_spec (Nat.mod_lt _ (by decide))).1, (tohex_spec (Nat.mod_lt _ (by decide))).1⟩

theorem codeUnit_hexItem {n : ℕ} (h : n < 0x10000) :
    codeUnit (tohex (n >>> 12 &&& 0xF)) (tohex (n >>> 8 &&& 0xF)) (tohex (n >>> 4 &&& 0xF))
      (tohex (n &&& 0xF)) = n := by
  simp only [codeUnit, ofDigits, List.foldl_cons, List.foldl_nil, and_F, Nat.shiftRight_eq_div_pow]
  rw [(tohex_spec (Nat.mod_lt _ (by decide))).2, (tohex_spec (Nat.mod_lt _ (by decide))).2,
    (tohex_spec (Nat.mod_lt _ (by decide))).2, (tohex_spec (Nat.mod_lt _ (by decide))).2]
  omega

/-- The items written for a codepoint. -/
def codepointItems (n : ℕ) : List Item :=
  if n > 0x1F ∧ n < 0x80 then
    if n = 0x5C ∨ n = 0x22 then [.esc (UInt8.ofNat n)] else [.raw (UInt8.ofNat n)]
  else if n < 0x10000 then [hexItem n]
  else [hexItem (((n - 0x10000) >>> 10) + 0xD800), hexItem (((n - 0x10000) &&& 0x3FF) + 0xDC00)]

/-- The items written for a byte sequence. -/
def stringItems (s : Bytes) : List Item := (codepoints s).1.flatMap codepointItems

theorem render_codepointItems (n : ℕ) (r : Bytes) :
    renderItems (codepointItems n) r = writeCodepoint n ++ r := by
  rw [codepointItems, writeCodepoint]
  split_ifs <;> rfl

theorem render_stringItems (s r : Bytes) :
    renderItems (stringItems s) r = (codepoints s).1.flatMap writeCodepoint ++ r := by
  rw [stringItems]
  induction (codepoints s).1 with
  | nil => rfl
  | cons n ns ih =>
    rw [List.flatMap_cons, renderItems_append, ih, render_codepointItems, List.flatMap_cons,
      List.append_assoc]

theorem codepointItems_spec (n : ℕ) : ∀ i ∈ codepointItems n, i.Lexical ∧ i.IsAscii := by
  rw [codepointItems]
  split_ifs with h₁ h₂
  · simp only [List.forall_mem_singleton]
    rcases h₂ with rfl | rfl <;> exact ⟨by rw [Item.Lexical]; decide, trivial⟩
  · simp only [List.forall_mem_singleton]
    have ht : (UInt8.ofNat n).toNat = n := toNat_ofNat (by omega)
    refine ⟨⟨?_, ?_, ?_⟩, ?_⟩
    · rw [UInt8.le_iff_toNat_le, ht]
      exact h₁.1
    · intro h
      rw [h] at ht
      exact h₂ (.inr ht.symm)
    · intro h
      rw [h] at ht
      exact h₂ (.inl ht.symm)
    · rw [Item.IsAscii, UInt8.lt_iff_toNat_lt, ht]
      exact h₁.2
  · simp only [List.forall_mem_singleton]
    exact ⟨lexical_hexItem n, trivial⟩
  · simp only [List.forall_mem_cons]
    exact ⟨⟨lexical_hexItem _, trivial⟩, ⟨lexical_hexItem _, trivial⟩, by simp⟩

theorem stringItems_spec (s : Bytes) : ∀ i ∈ stringItems s, i.Lexical ∧ i.IsAscii := by
  intro i hi
  obtain ⟨n, -, hi⟩ := List.mem_flatMap.1 hi
  exact codepointItems_spec n i hi

/-! ## Values -/

section StringValue

variable {n m : ℕ} {is : List Item}

theorem not_isLow_of_isHigh (h : Utf8.IsHigh n) : ¬Utf8.IsLow n := by
  rw [Utf8.IsHigh] at h
  rw [Utf8.IsLow]
  omega

theorem stringValue_hexItem (hn : n < 0x10000) (hl : ¬Utf8.IsLow n) (hh : ¬Utf8.IsHigh n) :
    stringValue (hexItem n :: is) = (stringValue is).map (Utf8.bytes n ++ ·) := by
  have h : stringValue (hexItem n :: is) = _ :=
    stringValue_unicode (by rwa [codeUnit_hexItem hn]) (by rwa [codeUnit_hexItem hn])
  rwa [codeUnit_hexItem hn] at h

theorem stringValue_low (hn : n < 0x10000) (hl : Utf8.IsLow n) :
    stringValue (hexItem n :: is) = none := by
  rw [hexItem, stringValue.eq_def]
  simp only [codeUnit_hexItem hn, if_pos hl]

/-- A high surrogate needs an escaped low one next to it. -/
theorem stringValue_high (hh : Utf8.IsHigh n) : stringValue (hexItem n :: is) =
    match is with
    | .unicode g₁ g₂ g₃ g₄ :: is =>
      if Utf8.IsLow (codeUnit g₁ g₂ g₃ g₄) then
        (stringValue is).map (Utf8.bytes (Utf8.join n (codeUnit g₁ g₂ g₃ g₄)) ++ ·)
      else none
    | _ => none := by
  have hn : n < 0x10000 := by rw [Utf8.IsHigh] at hh; omega
  rw [hexItem, stringValue.eq_def]
  rcases is with _ | ⟨_ | _ | _, is⟩ <;>
    simp only [codeUnit_hexItem hn, if_neg (not_isLow_of_isHigh hh), if_pos hh]

theorem stringValue_high_hexItem (hh : Utf8.IsHigh n) (hm : m < 0x10000) :
    stringValue (hexItem n :: hexItem m :: is) =
      if Utf8.IsLow m then (stringValue is).map (Utf8.bytes (Utf8.join n m) ++ ·) else none := by
  rw [stringValue_high hh]
  simp only [hexItem, codeUnit_hexItem hm]

/-- The surrogates the encoder splits a codepoint into. -/
theorem split_eq (n : ℕ) : ((n - 0x10000) >>> 10) + 0xD800 = Utf8.high n ∧
    ((n - 0x10000) &&& 0x3FF) + 0xDC00 = Utf8.low n := by
  have h : (n - 0x10000) &&& 0x3FF = (n - 0x10000) % 0x400 := Nat.and_two_pow_sub_one_eq_mod _ 10
  rw [h, Nat.shiftRight_eq_div_pow]
  exact ⟨rfl, rfl⟩

/-- A character is written as its value. -/
theorem stringValue_codepointItems (hv : n.isValidChar) :
    stringValue (codepointItems n ++ is) = (stringValue is).map (Utf8.bytes n ++ ·) := by
  have hlt : n < 0x110000 := by rw [Nat.isValidChar] at hv; omega
  rw [codepointItems]
  split_ifs with h₁ h₂ h₃
  · rw [Utf8.bytes_one h₁.2]
    rcases h₂ with rfl | rfl <;> rfl
  · rw [Utf8.bytes_one h₁.2]
    rfl
  · refine stringValue_hexItem h₃ ?_ ?_
    · rw [Utf8.IsLow]
      rw [Nat.isValidChar] at hv
      omega
    · rw [Utf8.IsHigh]
      rw [Nat.isValidChar] at hv
      omega
  · have hl := Utf8.isLow_low n
    rw [(split_eq n).1, (split_eq n).2, List.cons_append, List.cons_append, List.nil_append,
      stringValue_high_hexItem (Utf8.isHigh_high hlt) (by rw [Utf8.IsLow] at hl; omega),
      if_pos hl, Utf8.join_high_low (by omega)]

/-- Codepoints in which every surrogate is part of a pair of a high and a low
    one, and which are not too large. -/
def Paired : List ℕ → Prop
  | [] => True
  | n :: ns =>
    if Utf8.IsHigh n then
      match ns with
      | m :: ns => Utf8.IsLow m ∧ Paired ns
      | [] => False
    else ¬Utf8.IsLow n ∧ n ≤ 0x10FFFF ∧ Paired ns

/-- The items written after a high surrogate complete it only if they are a low one. -/
theorem stringValue_high_codepointItems (hh : Utf8.IsHigh n) (hm : m < 0x200000) :
    stringValue (hexItem n :: (codepointItems m ++ is)) =
      if Utf8.IsLow m then (stringValue is).map (Utf8.bytes (Utf8.join n m) ++ ·) else none := by
  rw [codepointItems]
  have hlow : Utf8.IsLow m → ¬(m > 0x1F ∧ m < 0x80) ∧ m < 0x10000 := by
    rw [Utf8.IsLow]
    omega
  split_ifs with h₁ h₂ hl hl h₃ hl hl
  · exact absurd h₁ (hlow hl).1
  · rw [stringValue_high hh]
    rfl
  · exact absurd h₁ (hlow hl).1
  · rw [stringValue_high hh]
    rfl
  · exact (stringValue_high_hexItem hh h₃).trans (if_pos hl)
  · exact (stringValue_high_hexItem hh h₃).trans (if_neg hl)
  · exact absurd (hlow hl).2 h₃
  · rw [(split_eq m).1, (split_eq m).2, List.cons_append, List.cons_append, List.nil_append,
      stringValue_high_hexItem hh (by rw [Utf8.high]; omega)]
    -- The first of the two escapes is low only when the second one is left over.
    rw [stringValue_low (by rw [Utf8.low]; omega) (Utf8.isLow_low m)]
    simp

/-- What is written for a byte sequence has a value if the surrogates are paired. -/
theorem isSome_stringValue_iff {ns : List ℕ} (h : ∀ n ∈ ns, n < 0x200000) :
    (stringValue (ns.flatMap codepointItems)).isSome ↔ Paired ns := by
  fun_induction Paired ns with
  | case1 => simp [stringValue]
  -- A high surrogate, and what follows it.
  | case2 n hh m ns ih =>
    have hh' : ¬(n > 0x1F ∧ n < 0x80) := by rw [Utf8.IsHigh] at hh; omega
    have hn : n < 0x10000 := by rw [Utf8.IsHigh] at hh; omega
    have hm := h m (List.mem_cons_of_mem _ List.mem_cons_self)
    have ih := ih fun k hk => h k (List.mem_cons_of_mem _ (List.mem_cons_of_mem _ hk))
    rw [List.flatMap_cons, codepointItems, if_neg hh', if_pos hn, List.flatMap_cons,
      List.cons_append, List.nil_append, stringValue_high_codepointItems hh hm]
    split_ifs with hl <;> simp [hl, ih]
  | case3 n hh =>
    have hh' : ¬(n > 0x1F ∧ n < 0x80) := by rw [Utf8.IsHigh] at hh; omega
    have hn : n < 0x10000 := by rw [Utf8.IsHigh] at hh; omega
    rw [List.flatMap_cons, codepointItems, if_neg hh', if_pos hn, List.flatMap_nil,
      List.append_nil, stringValue_high hh]
    simp
  | case4 n ns hh ih =>
    have ih := ih fun k hk => h k (List.mem_cons_of_mem _ hk)
    have hn := h n List.mem_cons_self
    rw [List.flatMap_cons]
    -- Anything else: a low surrogate, a character, or a number too big for one.
    by_cases hl : Utf8.IsLow n
    · have hl' : ¬(n > 0x1F ∧ n < 0x80) ∧ n < 0x10000 := by rw [Utf8.IsLow] at hl; omega
      rw [codepointItems, if_neg hl'.1, if_pos hl'.2, List.cons_append, List.nil_append,
        stringValue_low hl'.2 hl]
      simp [hl]
    by_cases hbig : n ≤ 0x10FFFF
    · rw [stringValue_codepointItems (Utf8.isValidChar_of_not_surrogate (by omega) hh hl)]
      simp [hl, hbig, ih]
    · -- The first of the two escapes is low.
      rw [codepointItems, if_neg (by omega), if_neg (by omega), List.cons_append, List.cons_append,
        List.nil_append, (split_eq n).1, stringValue_low (by rw [Utf8.high]; omega)
          (by rw [Utf8.IsLow, Utf8.high]; omega)]
      simp [hbig]

end StringValue

/-! ## Reading a string back -/

/-- What a decoder makes of the string written for `s`. -/
def respell (s : Bytes) : Bytes := (stringValue (stringItems s)).getD []

theorem isUtf8_respell (s : Bytes) : Utf8.IsUtf8 (respell s) := by
  rw [respell]
  cases h : stringValue (stringItems s) with
  | none => exact Utf8.isUtf8_nil
  | some v => exact isUtf8_stringValue (stringItems_spec s) h

/-- What the encoder takes a character for, as a character. -/
def mangleChar (c : Char) : Char := Char.ofNat (mangle c.toNat)

theorem isValidChar_mangle (c : Char) : (mangle c.toNat).isValidChar := by
  have h : c.toNat.isValidChar := c.valid
  rw [Nat.isValidChar] at h
  rw [mangle, Nat.isValidChar]
  split_ifs <;> omega

theorem toNat_mangleChar (c : Char) : (mangleChar c).toNat = mangle c.toNat :=
  Utf8.val_ofNat (isValidChar_mangle c)

theorem stringValue_encode (cs : List Char) :
    stringValue (stringItems (Utf8.encode cs)) = some (Utf8.encode (cs.map mangleChar)) := by
  rw [stringItems, codepoints_encode]
  induction cs with
  | nil => rfl
  | cons c cs ih =>
    rw [List.map_cons, List.flatMap_cons, stringValue_codepointItems (isValidChar_mangle c), ih]
    rfl

theorem respell_encode (cs : List Char) :
    respell (Utf8.encode cs) = Utf8.encode (cs.map mangleChar) := by
  rw [respell, stringValue_encode, Option.getD_some]

theorem mangle_mangle (n : ℕ) : mangle (mangle n) = mangle n := by
  simp only [mangle]
  split_ifs with h₁ h₂
  · rfl
  · omega
  · have hr : n % 64 < 64 := Nat.mod_lt n (by decide)
    generalize n % 64 = r at hr ⊢
    generalize n / 4096 = q
    have hq : (q * 4096 + r * 64 + r) / 4096 = q := by omega
    have hm : (q * 4096 + r * 64 + r) % 64 = r := by omega
    rw [hq, hm]

theorem mangleChar_mangleChar (c : Char) : mangleChar (mangleChar c) = mangleChar c := by
  rw [mangleChar, toNat_mangleChar, mangle_mangle, mangleChar]

/-- A well-formed text written twice is the text written once. -/
theorem respell_respell {s : Bytes} (h : Utf8.IsUtf8 s) : respell (respell s) = respell s := by
  obtain ⟨cs, rfl⟩ := h
  rw [respell_encode, respell_encode, List.map_map]
  congr 1
  exact List.map_congr_left fun c _ => mangleChar_mangleChar c

/-- A well-formed text in which the third and the fourth byte of every sequence
    of four have the same six low bits. -/
def Unmangled (s : Bytes) : Prop :=
  ∃ cs, s = Utf8.encode cs ∧ ∀ c ∈ cs, 0x10000 ≤ c.toNat → c.toNat / 64 % 64 = c.toNat % 64

theorem mangle_eq_iff (n : ℕ) : mangle n = n ↔ (0x10000 ≤ n → n / 64 % 64 = n % 64) := by
  rw [mangle]
  split_ifs <;> omega

theorem mangleChar_eq_iff (c : Char) : mangleChar c = c ↔ mangle c.toNat = c.toNat := by
  rw [← toNat_mangleChar]
  exact ⟨fun h => by rw [h], fun h => Char.ext (UInt32.toNat_inj.1 h)⟩

/-- A string comes back as it was exactly if it is well-formed and nothing in it
    is mangled. -/
theorem respell_eq_iff (s : Bytes) : respell s = s ↔ Unmangled s := by
  have key : ∀ cs : List Char, cs.map mangleChar = cs ↔
      ∀ c ∈ cs, 0x10000 ≤ c.toNat → c.toNat / 64 % 64 = c.toNat % 64 := by
    intro cs
    have h := List.map_inj_left (l := cs) (f := mangleChar) (g := id)
    rw [List.map_id] at h
    simpa only [id, mangleChar_eq_iff, mangle_eq_iff] using h
  constructor
  · intro h
    obtain ⟨cs, hcs⟩ : Utf8.IsUtf8 s := h ▸ isUtf8_respell s
    refine ⟨cs, hcs, (key cs).1 (Utf8.encode_injective ?_)⟩
    rw [← respell_encode, ← hcs, h]
  · rintro ⟨cs, rfl, h⟩
    rw [respell_encode, (key cs).2 h]

end PunyGui
