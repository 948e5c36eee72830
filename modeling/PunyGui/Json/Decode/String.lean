import PunyGui.Json.Decode
import Mathlib.Tactic.IntervalCases

/-!
# Decoding strings

What `decodeString` and the fast scan of `decodeOne` accept is exactly the
strings of the grammar, any bytes in them, whose surrogates are paired:

* `decodeString_render`, `decodeQuoted_render`: they read such a string to its
  end, as its value;
* `Quotes`: how such a string goes on, item by item;
* `decodeStringLoop_sound`, `decodeQuoted_sound`: what they read is such a string;
* `decodeQuoted_alike`: where there are no escapes, the scan and `decodeString` read the
  same, whatever the bytes.
-/

namespace PunyGui

open Binary64 Text Libc JsonText

/-! ## Bits -/

/-- An or of disjoint bits is a sum. -/
theorem or_shiftLeft {a k : ℕ} (h : a < 2 ^ k) (b : ℕ) : a ||| b <<< k = a + b * 2 ^ k := by
  rw [Nat.shiftLeft_eq, Nat.or_comm, Nat.mul_comm, ← Nat.two_pow_add_eq_or_of_lt h, Nat.add_comm]

theorem hexdig_of_isxdigit : ∀ c, isxdigit c = true → hexdig c = digitVal c ∧
    digitVal c < 16 ∧ c ≠ 0 :=
  forall_byte (by decide +kernel)

theorem isxdigit_of_hexdig : ∀ c, ¬hexdig c < 0 → isxdigit c = true :=
  forall_byte (by decide +kernel)

theorem codeUnit_eq (h₁ h₂ h₃ h₄ : UInt8) : codeUnit h₁ h₂ h₃ h₄ =
    ((digitVal h₁ * 16 + digitVal h₂) * 16 + digitVal h₃) * 16 + digitVal h₄ := by
  simp [codeUnit, ofDigits]

/-- The bits the decoder puts together are the code unit. -/
theorem hex_bits {d₁ d₂ d₃ d₄ : ℕ} (h₂ : d₂ < 16) (h₃ : d₃ < 16) (h₄ : d₄ < 16) :
    d₄ ||| d₃ <<< 4 ||| d₂ <<< 8 ||| d₁ <<< 12 = ((d₁ * 16 + d₂) * 16 + d₃) * 16 + d₄ := by
  rw [or_shiftLeft (k := 4) (by omega), or_shiftLeft (k := 8) (by omega),
    or_shiftLeft (k := 12) (by omega)]
  omega

/-- The bits of a continuation byte. -/
theorem continuation_bits (n : ℕ) : (n &&& 0x3F) ||| 0x80 = n % 64 + 0x80 := by
  rw [show (0x3F : ℕ) = 2 ^ 6 - 1 from rfl, Nat.and_two_pow_sub_one_eq_mod]
  exact or_shiftLeft (Nat.mod_lt n (by decide : 0 < 2 ^ 6)) 2

/-- The bits of a leading byte, for `m` small enough. -/
theorem leading_bits {m : ℕ} {k : ℕ} (hm : m < 2 ^ k) (b : ℕ) :
    (m &&& (2 ^ k - 1)) ||| b <<< k = m + b * 2 ^ k := by
  rw [Nat.and_two_pow_sub_one_eq_mod, Nat.mod_eq_of_lt hm, or_shiftLeft hm]

/-- `pushCodepoint` writes the UTF-8 form of a character. -/
theorem pushCodepoint_eq {n : ℕ} (h : n.isValidChar) : pushCodepoint n = Utf8.bytes n := by
  have hlt : n < 0x110000 := by rw [Nat.isValidChar] at h; omega
  rw [pushCodepoint]
  simp only [Nat.shiftRight_eq_div_pow, continuation_bits]
  split_ifs with h₁ h₂ h₃
  · rw [Utf8.bytes_one (by omega)]
  · have h₆ : (n / 2 ^ 6 &&& 0x1F) ||| 0xC0 = n / 2 ^ 6 + 0xC0 :=
      leading_bits (k := 5) (by omega) 6
    rw [Utf8.bytes_two (by omega) (by omega), h₆]
    simp
  · have h₁₂ : (n / 2 ^ 12 &&& 0x0F) ||| 0xE0 = n / 2 ^ 12 + 0xE0 :=
      leading_bits (k := 4) (by omega) 14
    rw [Utf8.bytes_three h (by omega) (by omega), h₁₂]
    simp
  · have h₁₈ : (n / 2 ^ 18 &&& 0x07) ||| 0xF0 = n / 2 ^ 18 + 0xF0 :=
      leading_bits (k := 3) (by omega) 30
    rw [Utf8.bytes_four (by omega) hlt, h₁₈]
    simp

/-! ## Escapes -/

section Escapes

variable {h₁ h₂ h₃ h₄ : UInt8}

/-- Four hexadecimal digits are read as their code unit. -/
theorem decodeUtf16Escape_render (h : (Item.unicode h₁ h₂ h₃ h₄).Lexical) (r : Bytes) :
    decodeUtf16Escape (h₁ :: h₂ :: h₃ :: h₄ :: r) = .ok (codeUnit h₁ h₂ h₃ h₄) := by
  obtain ⟨e₁, -, n₁⟩ := hexdig_of_isxdigit _ h.1
  obtain ⟨e₂, l₂, n₂⟩ := hexdig_of_isxdigit _ h.2.1
  obtain ⟨e₃, l₃, n₃⟩ := hexdig_of_isxdigit _ h.2.2.1
  obtain ⟨e₄, l₄, n₄⟩ := hexdig_of_isxdigit _ h.2.2.2
  have hneg : ¬((digitVal h₁ : ℤ) < 0 ∨ (digitVal h₂ : ℤ) < 0 ∨ (digitVal h₃ : ℤ) < 0 ∨
      (digitVal h₄ : ℤ) < 0) := by omega
  simp [decodeUtf16Escape, deref, n₁, n₂, n₃, n₄, e₁, e₂, e₃, e₄, codeUnit_eq,
    hex_bits l₂ l₃ l₄, bind, Except.bind]

/-- What is read as a code unit are four hexadecimal digits. -/
theorem decodeUtf16Escape_sound {p : Bytes} {n : ℕ} (h : decodeUtf16Escape p = .ok n) :
    ∃ h₁ h₂ h₃ h₄ r, p = h₁ :: h₂ :: h₃ :: h₄ :: r ∧ (Item.unicode h₁ h₂ h₃ h₄).Lexical ∧
      n = codeUnit h₁ h₂ h₃ h₄ := by
  rcases p with _ | ⟨h₁, _ | ⟨h₂, _ | ⟨h₃, _ | ⟨h₄, r⟩⟩⟩⟩ <;>
    simp only [decodeUtf16Escape, deref, bind, Except.bind, List.getElem?_nil,
      List.getElem?_cons_zero, List.getElem?_cons_succ] at h <;>
    repeat' split at h
  all_goals cases h
  rename_i hneg
  simp only [not_or] at hneg
  have hx : (Item.unicode h₁ h₂ h₃ h₄).Lexical :=
    ⟨isxdigit_of_hexdig _ hneg.1, isxdigit_of_hexdig _ hneg.2.1,
      isxdigit_of_hexdig _ hneg.2.2.1, isxdigit_of_hexdig _ hneg.2.2.2⟩
  refine ⟨h₁, h₂, h₃, h₄, r, rfl, hx, ?_⟩
  obtain ⟨e₁, -, -⟩ := hexdig_of_isxdigit _ hx.1
  obtain ⟨e₂, l₂, -⟩ := hexdig_of_isxdigit _ hx.2.1
  obtain ⟨e₃, l₃, -⟩ := hexdig_of_isxdigit _ hx.2.2.1
  obtain ⟨e₄, l₄, -⟩ := hexdig_of_isxdigit _ hx.2.2.2
  rw [e₁, e₂, e₃, e₄, codeUnit_eq]
  exact hex_bits l₂ l₃ l₄

theorem codeUnit_lt (h : (Item.unicode h₁ h₂ h₃ h₄).Lexical) : codeUnit h₁ h₂ h₃ h₄ < 0x10000 := by
  have l₁ := (hexdig_of_isxdigit _ h.1).2.1
  have l₂ := (hexdig_of_isxdigit _ h.2.1).2.1
  have l₃ := (hexdig_of_isxdigit _ h.2.2.1).2.1
  have l₄ := (hexdig_of_isxdigit _ h.2.2.2).2.1
  rw [codeUnit_eq]
  omega

/-- An escape that is no surrogate is its code point. -/
theorem decodeEscape_render (h : (Item.unicode h₁ h₂ h₃ h₄).Lexical)
    (hlow : ¬Utf8.IsLow (codeUnit h₁ h₂ h₃ h₄)) (hhigh : ¬Utf8.IsHigh (codeUnit h₁ h₂ h₃ h₄))
    (r : Bytes) :
    decodeEscape (0x75 :: h₁ :: h₂ :: h₃ :: h₄ :: r) = .ok (codeUnit h₁ h₂ h₃ h₄, 5) := by
  rw [Utf8.IsLow] at hlow
  rw [Utf8.IsHigh] at hhigh
  simp only [decodeEscape, List.drop_succ_cons, List.drop_zero, decodeUtf16Escape_render h, bind,
    Except.bind]
  rw [if_neg hlow, if_neg hhigh]

/-- A pair of surrogates is read as the code point it stands for. -/
theorem decodeEscape_pair {g₁ g₂ g₃ g₄ : UInt8} (h : (Item.unicode h₁ h₂ h₃ h₄).Lexical)
    (hhigh : Utf8.IsHigh (codeUnit h₁ h₂ h₃ h₄)) (g : (Item.unicode g₁ g₂ g₃ g₄).Lexical)
    (hlow : Utf8.IsLow (codeUnit g₁ g₂ g₃ g₄)) (r : Bytes) :
    decodeEscape (0x75 :: h₁ :: h₂ :: h₃ :: h₄ :: 0x5C :: 0x75 :: g₁ :: g₂ :: g₃ :: g₄ :: r) =
      .ok (Utf8.join (codeUnit h₁ h₂ h₃ h₄) (codeUnit g₁ g₂ g₃ g₄), 11) := by
  rw [Utf8.IsHigh] at hhigh
  rw [Utf8.IsLow] at hlow
  simp only [decodeEscape, deref, List.drop_succ_cons, List.drop_zero, decodeUtf16Escape_render h,
    decodeUtf16Escape_render g, List.getElem?_cons_succ, List.getElem?_cons_zero, bind, Except.bind]
  rw [if_neg (by omega), if_pos (by omega), if_neg (by decide), if_neg (by decide),
    if_neg (by omega), Utf8.join, Nat.shiftLeft_eq]

/-- An escape is read only when it is no surrogate or the first of a pair. -/
theorem decodeEscape_sound {cp : Bytes} {n k : ℕ} (h : decodeEscape (0x75 :: cp) = .ok (n, k)) :
    ∃ h₁ h₂ h₃ h₄ r, cp = h₁ :: h₂ :: h₃ :: h₄ :: r ∧ (Item.unicode h₁ h₂ h₃ h₄).Lexical ∧
      ¬Utf8.IsLow (codeUnit h₁ h₂ h₃ h₄) ∧
      (¬Utf8.IsHigh (codeUnit h₁ h₂ h₃ h₄) ∧ n = codeUnit h₁ h₂ h₃ h₄ ∧ k = 5 ∨
        Utf8.IsHigh (codeUnit h₁ h₂ h₃ h₄) ∧ ∃ g₁ g₂ g₃ g₄ q,
          r = 0x5C :: 0x75 :: g₁ :: g₂ :: g₃ :: g₄ :: q ∧
          (Item.unicode g₁ g₂ g₃ g₄).Lexical ∧ Utf8.IsLow (codeUnit g₁ g₂ g₃ g₄) ∧
          n = Utf8.join (codeUnit h₁ h₂ h₃ h₄) (codeUnit g₁ g₂ g₃ g₄) ∧ k = 11) := by
  simp only [decodeEscape, List.drop_succ_cons, List.drop_zero, bind, Except.bind] at h
  cases hu : decodeUtf16Escape cp with
  | error e => simp [hu] at h
  | ok u =>
    obtain ⟨h₁, h₂, h₃, h₄, r, rfl, hx, rfl⟩ := decodeUtf16Escape_sound hu
    refine ⟨h₁, h₂, h₃, h₄, r, rfl, hx, ?_⟩
    simp only [hu] at h
    split_ifs at h with hlow hhigh
    · -- A high surrogate: the bytes behind it are read as a second escape.
      refine ⟨fun hl => hlow hl, .inr ⟨hhigh, ?_⟩⟩
      rcases r with _ | ⟨c₅, _ | ⟨c₆, q⟩⟩ <;>
        simp only [deref, List.getElem?_nil, List.getElem?_cons_zero, List.getElem?_cons_succ,
          List.drop_succ_cons, List.drop_zero] at h <;> repeat' split at h
      all_goals try cases h
      rename_i h₅ h₆ _ l hl hrange
      obtain ⟨g₁, g₂, g₃, g₄, q, rfl, gx, rfl⟩ := decodeUtf16Escape_sound hl
      simp only [ne_eq, Decidable.not_not] at h₅ h₆
      refine ⟨g₁, g₂, g₃, g₄, q, by rw [h₅, h₆], gx, by rw [Utf8.IsLow]; omega, ?_, rfl⟩
      rw [Utf8.join, Nat.shiftLeft_eq]
    · rw [Except.ok.injEq, Prod.mk.injEq] at h
      exact ⟨fun hl => hlow hl, .inl ⟨fun hh => hhigh hh, h.1.symm, h.2.symm⟩⟩

end Escapes

/-- The two-character escapes are those of the grammar. -/
theorem simpleEscape_eq : ∀ c, simpleEscape c = unescape c := forall_byte (by decide +kernel)

/-! ## The loop -/

section Loop

variable {is : List Item} {v : Bytes}

/-- The loop reads a string to its closing quote. -/
theorem decodeStringLoop_render (hl : ∀ i ∈ is, i.Lexical) (hv : stringValue is = some v)
    {fuel : ℕ} (hf : is.length < fuel) (r buffer : Bytes) :
    decodeStringLoop fuel (renderItems is (0x22 :: r)) buffer = .ok (buffer ++ v, r) := by
  -- One turn of the loop for an item, or for the two of a surrogate pair.
  fun_induction stringValue is generalizing v fuel buffer with
  | case1 =>
    obtain ⟨fuel, rfl⟩ := Nat.exists_eq_succ_of_ne_zero hf.ne'
    simp_all [decodeStringLoop, deref, bind, Except.bind]
  | case2 b is ih =>
    obtain ⟨fuel, rfl⟩ := Nat.exists_eq_succ_of_ne_zero (Nat.ne_of_gt (Nat.zero_lt_of_lt hf))
    obtain ⟨v, hv', rfl⟩ := Option.map_eq_some_iff.1 hv
    have hb : 0x20 ≤ b ∧ b ≠ 0x22 ∧ b ≠ 0x5C := hl _ List.mem_cons_self
    have hlt : ¬b < 32 := UInt8.not_lt.2 hb.1
    have := ih (fun i hi => hl i (List.mem_cons_of_mem _ hi)) hv' (Nat.lt_of_succ_lt_succ hf)
    simp [decodeStringLoop, deref, Item.render, bind, Except.bind, hb.2, hlt, this]
  | case3 c is ih =>
    obtain ⟨fuel, rfl⟩ := Nat.exists_eq_succ_of_ne_zero (Nat.ne_of_gt (Nat.zero_lt_of_lt hf))
    obtain ⟨v, hv', rfl⟩ := Option.map_eq_some_iff.1 hv
    obtain ⟨b, hb⟩ := Option.isSome_iff_exists.1 (hl _ List.mem_cons_self : (unescape c).isSome)
    have hu : c ≠ 0x75 := by rintro rfl; cases hb
    have := ih (fun i hi => hl i (List.mem_cons_of_mem _ hi)) hv' (Nat.lt_of_succ_lt_succ hf)
    simp [decodeStringLoop, deref, Item.render, bind, Except.bind, hu, simpleEscape_eq, hb, this]
  | case4 => cases hv
  -- A pair of surrogates; no other use of one has a value.
  | case5 h₁ h₂ h₃ h₄ u hlow hhigh g₁ g₂ g₃ g₄ is l hl' =>
    rename_i ih
    obtain ⟨fuel, rfl⟩ := Nat.exists_eq_succ_of_ne_zero (Nat.ne_of_gt (Nat.zero_lt_of_lt hf))
    obtain ⟨v, hv', rfl⟩ := Option.map_eq_some_iff.1 hv
    have hg := hl _ (List.mem_cons_of_mem _ List.mem_cons_self)
    have hj := Utf8.join_bounds hhigh hl'
    have hf' : is.length < fuel := by simp at hf; omega
    have := ih (fun i hi => hl i (List.mem_cons_of_mem _ (List.mem_cons_of_mem _ hi))) hv' hf'
    simp [decodeStringLoop, deref, Item.render, bind, Except.bind,
      decodeEscape_pair (hl _ List.mem_cons_self) hhigh hg hl', this,
      pushCodepoint_eq (.inr ⟨by omega, hj.2⟩), u, l]
  | case6 => cases hv
  | case7 => cases hv
  | case8 h₁ h₂ h₃ h₄ is u hlow hhigh =>
    rename_i ih
    obtain ⟨fuel, rfl⟩ := Nat.exists_eq_succ_of_ne_zero (Nat.ne_of_gt (Nat.zero_lt_of_lt hf))
    obtain ⟨v, hv', rfl⟩ := Option.map_eq_some_iff.1 hv
    have hx := hl _ List.mem_cons_self
    have hu := codeUnit_lt hx
    have := ih (fun i hi => hl i (List.mem_cons_of_mem _ hi)) hv' (Nat.lt_of_succ_lt_succ hf)
    simp [decodeStringLoop, deref, Item.render, bind, Except.bind,
      decodeEscape_render hx hlow hhigh, this,
      pushCodepoint_eq (Utf8.isValidChar_of_not_surrogate (by omega) hhigh hlow), u]

/-- `cp` is a string that stands for `v`, up to its closing quote, and `p` behind that. -/
def Quotes (cp v p : Bytes) : Prop :=
  ∃ is, cp = renderItems is (0x22 :: p) ∧ (∀ i ∈ is, i.Lexical) ∧ stringValue is = some v

section Quotes

variable {cp p : Bytes} {h₁ h₂ h₃ h₄ : UInt8}

theorem quotes_nil : Quotes (0x22 :: p) [] p :=
  ⟨[], (renderItems_nil _).symm, fun _ hi => absurd hi List.not_mem_nil, rfl⟩

/-- A byte that stands for itself. -/
theorem Quotes.raw {c : UInt8} (h : Quotes cp v p) (hc : (Item.raw c).Lexical) :
    Quotes (c :: cp) (c :: v) p := by
  obtain ⟨is, rfl, hl, hv⟩ := h
  refine ⟨.raw c :: is, rfl, List.forall_mem_cons.2 ⟨hc, hl⟩, ?_⟩
  rw [stringValue, hv, Option.map_some]

/-- An escape of two characters. -/
theorem Quotes.esc {d b : UInt8} (h : Quotes cp v p) (hd : unescape d = some b) :
    Quotes (0x5C :: d :: cp) (b :: v) p := by
  obtain ⟨is, rfl, hl, hv⟩ := h
  refine ⟨.esc d :: is, rfl, List.forall_mem_cons.2 ⟨?_, hl⟩, ?_⟩
  · exact Option.isSome_iff_exists.2 ⟨b, hd⟩
  · rw [stringValue, hv, Option.map_some, hd, Option.getD_some]

/-- A `\u` escape that is no surrogate. -/
theorem Quotes.unicode (h : Quotes cp v p) (hx : (Item.unicode h₁ h₂ h₃ h₄).Lexical)
    (hlow : ¬Utf8.IsLow (codeUnit h₁ h₂ h₃ h₄)) (hhigh : ¬Utf8.IsHigh (codeUnit h₁ h₂ h₃ h₄)) :
    Quotes (0x5C :: 0x75 :: h₁ :: h₂ :: h₃ :: h₄ :: cp)
      (Utf8.bytes (codeUnit h₁ h₂ h₃ h₄) ++ v) p := by
  obtain ⟨is, rfl, hl, hv⟩ := h
  refine ⟨.unicode h₁ h₂ h₃ h₄ :: is, rfl, List.forall_mem_cons.2 ⟨hx, hl⟩, ?_⟩
  rw [stringValue_unicode hlow hhigh, hv, Option.map_some]

/-- Two of them that are a pair of surrogates. -/
theorem Quotes.pair {g₁ g₂ g₃ g₄ : UInt8} (h : Quotes cp v p)
    (hx : (Item.unicode h₁ h₂ h₃ h₄).Lexical) (hhigh : Utf8.IsHigh (codeUnit h₁ h₂ h₃ h₄))
    (gx : (Item.unicode g₁ g₂ g₃ g₄).Lexical) (hlow : Utf8.IsLow (codeUnit g₁ g₂ g₃ g₄)) :
    Quotes (0x5C :: 0x75 :: h₁ :: h₂ :: h₃ :: h₄ :: 0x5C :: 0x75 :: g₁ :: g₂ :: g₃ :: g₄ :: cp)
      (Utf8.bytes (Utf8.join (codeUnit h₁ h₂ h₃ h₄) (codeUnit g₁ g₂ g₃ g₄)) ++ v) p := by
  obtain ⟨is, rfl, hl, hv⟩ := h
  refine ⟨.unicode h₁ h₂ h₃ h₄ :: .unicode g₁ g₂ g₃ g₄ :: is, rfl,
    List.forall_mem_cons.2 ⟨hx, List.forall_mem_cons.2 ⟨gx, hl⟩⟩, ?_⟩
  rw [stringValue_pair hhigh hlow, hv, Option.map_some]

end Quotes

/-- What the loop reads is a string. -/
theorem decodeStringLoop_sound {fuel : ℕ} {cp buffer b p : Bytes}
    (h : decodeStringLoop fuel cp buffer = .ok (b, p)) : ∃ v, Quotes cp v p ∧ b = buffer ++ v := by
  induction fuel generalizing cp buffer with
  | zero => cases h
  | succ fuel ih =>
    rcases cp with _ | ⟨c, cs⟩
    · cases h
    simp only [decodeStringLoop, deref, List.getElem?_cons_zero, List.getElem?_cons_succ, bind,
      Except.bind, List.drop_succ_cons, List.drop_zero] at h
    split_ifs at h with hq hlt hbs
    · -- The closing quote.
      cases h
      exact ⟨[], hq ▸ quotes_nil, (List.append_nil _).symm⟩
    · subst hbs
      rcases cs with _ | ⟨d, ds⟩
      · cases h
      simp only [List.getElem?_cons_zero] at h
      split_ifs at h with hu
      · -- A `\u` escape, or two of them.
        subst hu
        cases he : decodeEscape (0x75 :: ds) with
        | error e => simp [he] at h
        | ok x =>
          obtain ⟨n, k⟩ := x
          simp only [he] at h
          obtain ⟨h₁, h₂, h₃, h₄, r, rfl, hx, hlow, hcases⟩ := decodeEscape_sound he
          obtain ⟨hhigh, rfl, rfl⟩ | ⟨hhigh, g₁, g₂, g₃, g₄, q, rfl, gx, gl, rfl, rfl⟩ := hcases
          · obtain ⟨v, hv, rfl⟩ := ih h
            refine ⟨_, hv.unicode hx hlow hhigh, ?_⟩
            have hchar := Utf8.isValidChar_of_not_surrogate
              ((codeUnit_lt hx).trans (by decide)) hhigh hlow
            rw [pushCodepoint_eq hchar, List.append_assoc]
          · obtain ⟨v, hv, rfl⟩ := ih h
            refine ⟨_, hv.pair hx hhigh gx gl, ?_⟩
            have hj := Utf8.join_bounds hhigh gl
            rw [pushCodepoint_eq (.inr ⟨by omega, hj.2⟩), List.append_assoc]
      · -- An escape of two characters.
        rw [simpleEscape_eq] at h
        cases he : unescape d with
        | none => simp [he] at h
        | some b' =>
          simp only [he, List.drop_succ_cons, List.drop_zero] at h
          obtain ⟨v, hv, rfl⟩ := ih h
          exact ⟨_, hv.esc he, List.append_assoc ..⟩
    · -- A byte that stands for itself.
      obtain ⟨v, hv, rfl⟩ := ih h
      exact ⟨_, hv.raw ⟨UInt8.not_lt.1 hlt, hq, hbs⟩, List.append_assoc ..⟩

theorem decodeString_render (h : IsString is) (hv : stringValue is = some v) (r : Bytes) :
    decodeString (renderItems is (0x22 :: r)) = .ok (v, r) := by
  have := length_le_renderItems is (0x22 :: r)
  exact decodeStringLoop_render h.1 hv (by simp at this; omega) r []

end Loop

/-! ## The fast scan -/

theorem plain_iff : ∀ c, plain c = true ↔ 0x20 ≤ c ∧ c ≠ 0x22 ∧ c ≠ 0x5C :=
  forall_byte (by decide +kernel)

section Quoted

variable {is : List Item} {v : Bytes}

/-- The scan stops at an escape, or else has seen the whole string. -/
theorem scan_render (hl : ∀ i ∈ is, i.Lexical) (r : Bytes) :
    (∃ q, (renderItems is (0x22 :: r)).dropWhile plain = 0x5C :: q) ∨
      (renderItems is (0x22 :: r)).dropWhile plain = 0x22 :: r ∧
        stringValue is = some ((renderItems is (0x22 :: r)).takeWhile plain) := by
  have hbs : ∀ q : Bytes, (0x5C :: q).dropWhile plain = 0x5C :: q := fun _ => rfl
  induction is with
  | nil => exact .inr ⟨rfl, rfl⟩
  | cons i is ih =>
    cases i with
    | raw b =>
      have hb := (plain_iff b).2 (hl _ List.mem_cons_self)
      rcases ih fun i hi => hl i (List.mem_cons_of_mem _ hi) with ⟨q, hq⟩ | ⟨hd, ht⟩
      · exact .inl ⟨q, by simp [Item.render, hb, hq]⟩
      · exact .inr ⟨by simp [Item.render, hb, hd], by simp [Item.render, stringValue, hb, ht]⟩
    | esc c => exact .inl ⟨_, hbs _⟩
    | unicode h₁ h₂ h₃ h₄ => exact .inl ⟨_, hbs _⟩

theorem renderItems_map_raw (s r : Bytes) : renderItems (s.map .raw) r = s ++ r := by
  induction s with
  | nil => rfl
  | cons b s ih => simp [Item.render, ih]

theorem stringValue_map_raw (s : Bytes) : stringValue (s.map .raw) = some s := by
  induction s with
  | nil => rfl
  | cons b s ih => simp [stringValue, ih]

/-- A string is read as its value. -/
theorem decodeQuoted_render (h : IsString is) (hv : stringValue is = some v) (r : Bytes) :
    decodeQuoted (renderItems is (0x22 :: r)) = .ok (.string v, r) := by
  rw [decodeQuoted]
  rcases scan_render h.1 r with ⟨q, hq⟩ | ⟨hd, ht⟩
  · simp [hq, decodeString_render h hv]
  · rw [hv, Option.some.injEq] at ht
    simp [hd, ht]

/-- What is read as a string is one. -/
theorem decodeQuoted_sound {p r : Bytes} {x : Janet} (h : decodeQuoted p = .ok (x, r)) :
    ∃ is v, p = renderItems is (0x22 :: r) ∧ IsString is ∧ stringValue is = some v ∧
      x = .string v := by
  rw [decodeQuoted] at h
  cases hd : p.dropWhile plain with
  | nil => simp [hd] at h
  | cons c cs =>
    simp only [hd] at h
    split_ifs at h with hbs hq
    · -- The scan has met an escape: the string is read again from its start.
      cases hs : decodeString p with
      | error e => simp [hs] at h
      | ok y =>
        obtain ⟨s, p'⟩ := y
        simp only [hs, Except.ok.injEq, Prod.mk.injEq] at h
        obtain ⟨rfl, rfl⟩ := h
        obtain ⟨v, ⟨is, rfl, hl, hv⟩, hb⟩ := decodeStringLoop_sound hs
        rw [List.nil_append] at hb
        exact ⟨is, v, rfl, ⟨hl, by simp [hv]⟩, hv, by rw [hb]⟩
    · -- It has come to the closing quote: every byte stands for itself.
      simp only [Except.ok.injEq, Prod.mk.injEq] at h
      obtain ⟨rfl, rfl⟩ := h
      refine ⟨(p.takeWhile plain).map .raw, p.takeWhile plain, ?_, ⟨?_, ?_⟩,
        stringValue_map_raw _, rfl⟩
      · rw [renderItems_map_raw, ← Decidable.not_not.1 hq, ← hd, List.takeWhile_append_dropWhile]
      · intro i hi
        obtain ⟨b, hb, rfl⟩ := List.mem_map.1 hi
        exact (plain_iff b).1 (of_mem_takeWhile hb)
      · simp [stringValue_map_raw]

end Quoted

/-! ## The scan and the loop -/

section Scan

variable {p q r : Bytes}

/-- No backslash comes before the first quote or control byte. The zero byte at the end is
    a control byte. -/
def Unescaped (p : Bytes) : Prop := 0x5C ∉ p.takeWhile fun c => 0x20 ≤ c && c != 0x22

theorem unescaped_cons (b : UInt8) : Unescaped (b :: p) ↔
    (0x20 ≤ b → b ≠ 0x22 → b ≠ 0x5C ∧ Unescaped p) := by
  rw [Unescaped, List.takeWhile_cons]
  by_cases hb : 0x20 ≤ b ∧ b ≠ 0x22
  · simp [hb, Unescaped, eq_comm (a := (0x5C : UInt8))]
  · have hstop : (decide (0x20 ≤ b) && b != 0x22) = false := by simpa using hb
    rw [hstop]
    exact iff_of_true (by simp) fun hlow hquote => absurd ⟨hlow, hquote⟩ hb

/-- The loop goes over the same bytes as the scan, and stops at the same byte. -/
theorem decodeStringLoop_plain (hq : ∀ b ∈ q, plain b = true) {c : UInt8}
    (hc : c = 0x22 ∨ c < 0x20) {fuel : ℕ} (hf : q.length < fuel) (buffer : Bytes) :
    decodeStringLoop fuel (q ++ c :: r) buffer =
      if c = 0x22 then .ok (buffer ++ q, r)
      else .error (.error "invalid character in string") := by
  induction q generalizing fuel buffer with
  | nil =>
    obtain ⟨fuel, rfl⟩ := Nat.exists_eq_succ_of_ne_zero hf.ne'
    rw [List.append_nil]
    by_cases hquote : c = 0x22
    · rw [if_pos hquote]
      exact if_pos hquote
    · rw [if_neg hquote]
      exact (if_neg hquote).trans (if_pos (hc.resolve_left hquote))
  | cons b q ih =>
    obtain ⟨hb, hq⟩ := List.forall_mem_cons.1 hq
    obtain ⟨fuel, rfl⟩ := Nat.exists_eq_succ_of_ne_zero (Nat.ne_of_gt (Nat.zero_lt_of_lt hf))
    obtain ⟨hlow, hquote, hbackslash⟩ := (plain_iff b).1 hb
    have hrec := ih hq (Nat.lt_of_succ_lt_succ hf) (buffer ++ [b])
    rw [List.append_assoc, List.singleton_append] at hrec
    rw [← hrec]
    exact (if_neg hquote).trans ((if_neg (UInt8.not_lt.2 hlow)).trans (if_neg hbackslash))

/-- Behind the scan there is a quote or a control byte. -/
theorem exists_stop (h0 : 0 ∈ p) (hp : Unescaped p) :
    ∃ c r, p = p.takeWhile plain ++ c :: r ∧ (c = 0x22 ∨ c < 0x20) := by
  induction p with
  | nil => cases h0
  | cons b p ih =>
    by_cases hb : plain b = true
    · obtain ⟨hlow, hquote, -⟩ := (plain_iff b).1 hb
      have hne : 0 ≠ b := by
        rintro rfl
        exact absurd hlow (by decide)
      have hrest := ((unescaped_cons b).1 hp hlow hquote).2
      obtain ⟨c, r, hr, hc⟩ := ih (List.mem_of_ne_of_mem hne h0) hrest
      exact ⟨c, r, by rw [List.takeWhile_cons_of_pos hb, List.cons_append, ← hr], hc⟩
    · refine ⟨b, p, by rw [List.takeWhile_cons_of_neg hb, List.nil_append], ?_⟩
      by_contra hnot
      rw [not_or, UInt8.not_lt] at hnot
      have hbackslash := ((unescaped_cons b).1 hp hnot.2 hnot.1).1
      exact hb ((plain_iff b).2 ⟨hnot.2, hnot.1, hbackslash⟩)

/-- Without a backslash, the scan of `decodeOne` and `decodeString` read the same string to
    the same place, or both fail. -/
theorem decodeQuoted_alike (h0 : 0 ∈ p) (hp : Unescaped p) :
    (∃ s r, decodeQuoted p = .ok (.string s, r) ∧ decodeString p = .ok (s, r)) ∨
      ∃ msg msg', decodeQuoted p = .error (.error msg, 0x22 :: p) ∧
        decodeString p = .error (.error msg') := by
  obtain ⟨c, r, hr, hc⟩ := exists_stop h0 hp
  have hplain : ∀ b ∈ p.takeWhile plain, plain b = true := fun b hb => of_mem_takeWhile hb
  have hlen : (p.takeWhile plain).length < p.length := by
    conv_rhs => rw [hr, List.length_append, List.length_cons]
    omega
  have hloop := decodeStringLoop_plain (r := r) hplain hc hlen []
  rw [← hr, List.nil_append, ← decodeString] at hloop
  have hscan : p.dropWhile plain = c :: r := by
    have hsplit := List.takeWhile_append_dropWhile (p := plain) (l := p)
    exact List.append_cancel_left (hsplit.trans hr)
  by_cases hquote : c = 0x22
  · refine .inl ⟨p.takeWhile plain, r, ?_, ?_⟩
    · rw [decodeQuoted, hscan, hquote]
      rfl
    · rw [hloop, if_pos hquote]
  · have hbackslash : c ≠ 0x5C := by
      rintro rfl
      exact absurd hc (by decide)
    refine .inr ⟨"unexpected character", "invalid character in string", ?_, ?_⟩
    · rw [decodeQuoted, hscan]
      exact (if_neg hbackslash).trans (if_pos hquote)
    · rw [hloop, if_neg hquote]

/-- The bytes `é"` and the zero byte behind them. -/
theorem decodeQuoted_alike_utf8 :
    (∃ s r, decodeQuoted [0xC3, 0xA9, 0x22, 0] = .ok (.string s, r) ∧
        decodeString [0xC3, 0xA9, 0x22, 0] = .ok (s, r)) ∨
      ∃ msg msg', decodeQuoted [0xC3, 0xA9, 0x22, 0] =
          .error (.error msg, [0x22, 0xC3, 0xA9, 0x22, 0]) ∧
        decodeString [0xC3, 0xA9, 0x22, 0] = .error (.error msg') :=
  decodeQuoted_alike (by decide) (by rw [Unescaped]; decide)

end Scan

end PunyGui
