import PunyGui.Text

/-!
# UTF-8 and UTF-16

A Unicode text is a list of characters (`Char` is the type of Unicode scalar
values). Its UTF-8 form is `encode`, and a byte string is well-formed UTF-8 if
it is the UTF-8 form of a text (`IsUtf8`), which is then unique
(`encode_injective`).

In UTF-16, a character above `0xFFFF` is a pair of surrogates: `high` and `low`
split it and `join` puts it together again.
-/

namespace Utf8

open Text

/-- The UTF-8 form of a text. -/
def encode (cs : List Char) : Bytes := cs.flatMap String.utf8EncodeChar

/-- A byte string is well-formed UTF-8. -/
def IsUtf8 (b : Bytes) : Prop := ∃ cs, b = encode cs

@[simp] theorem encode_nil : encode [] = [] := rfl

@[simp] theorem encode_cons (c : Char) (cs : List Char) :
    encode (c :: cs) = String.utf8EncodeChar c ++ encode cs := rfl

theorem encode_injective {cs ds : List Char} (h : encode cs = encode ds) : cs = ds :=
  String.ofList_injective (String.toByteArray_inj.1 (by
    simpa [List.utf8Encode, encode] using congrArg List.toByteArray h))

theorem val_ofNat {n : ℕ} (h : n.isValidChar) : (Char.ofNat n).val.toNat = n := by
  rw [Char.ofNat, dif_pos h]
  rfl

/-- ASCII is UTF-8. -/
theorem isUtf8_ascii {b : Bytes} (h : ∀ c ∈ b, c < 0x80) : IsUtf8 b := by
  induction b with
  | nil => exact ⟨[], rfl⟩
  | cons c b ih =>
    obtain ⟨cs, rfl⟩ := ih fun d hd => h d (List.mem_cons_of_mem _ hd)
    have hc : c.toNat < 0x80 := UInt8.lt_iff_toNat_lt.1 (h c List.mem_cons_self)
    refine ⟨Char.ofNat c.toNat :: cs, ?_⟩
    rw [encode_cons, String.utf8EncodeChar]
    simp only [val_ofNat (.inl (by omega : c.toNat < 0xD800))]
    rw [if_pos (by omega)]
    simp

theorem isUtf8_nil : IsUtf8 [] := ⟨[], rfl⟩

theorem IsUtf8.append {a b : Bytes} (ha : IsUtf8 a) (hb : IsUtf8 b) : IsUtf8 (a ++ b) := by
  obtain ⟨cs, rfl⟩ := ha
  obtain ⟨ds, rfl⟩ := hb
  exact ⟨cs ++ ds, by simp [encode]⟩

/-! ## Code points -/

/-- The UTF-8 form of the character of code point `n`. -/
def bytes (n : ℕ) : Bytes := String.utf8EncodeChar (Char.ofNat n)

section Bytes

variable {n : ℕ}

theorem bytes_toNat (c : Char) : bytes c.toNat = String.utf8EncodeChar c := by
  rw [bytes, Char.ofNat_toNat]

theorem isUtf8_bytes (n : ℕ) : IsUtf8 (bytes n) := ⟨[Char.ofNat n], by simp [bytes]⟩

theorem bytes_one (h : n < 0x80) : bytes n = [UInt8.ofNat n] := by
  rw [bytes, String.utf8EncodeChar]
  simp only [val_ofNat (.inl (by omega : n < 0xD800))]
  rw [if_pos (by omega)]

theorem bytes_two (h₁ : 0x80 ≤ n) (h₂ : n < 0x800) :
    bytes n = [UInt8.ofNat (n / 64 + 0xC0), UInt8.ofNat (n % 64 + 0x80)] := by
  rw [bytes, String.utf8EncodeChar]
  simp only [val_ofNat (.inl (by omega : n < 0xD800))]
  rw [if_neg (by omega), if_pos (by omega), Nat.mod_eq_of_lt (b := 0x20) (by omega)]

theorem bytes_three (hv : n.isValidChar) (h₁ : 0x800 ≤ n) (h₂ : n < 0x10000) :
    bytes n = [UInt8.ofNat (n / 4096 + 0xE0), UInt8.ofNat (n / 64 % 64 + 0x80),
      UInt8.ofNat (n % 64 + 0x80)] := by
  rw [bytes, String.utf8EncodeChar]
  simp only [val_ofNat hv]
  rw [if_neg (by omega), if_neg (by omega), if_pos (by omega),
    Nat.mod_eq_of_lt (b := 0x10) (by omega)]

theorem bytes_four (h₁ : 0x10000 ≤ n) (h₂ : n < 0x110000) :
    bytes n = [UInt8.ofNat (n / 262144 + 0xF0), UInt8.ofNat (n / 4096 % 64 + 0x80),
      UInt8.ofNat (n / 64 % 64 + 0x80), UInt8.ofNat (n % 64 + 0x80)] := by
  rw [bytes, String.utf8EncodeChar]
  simp only [val_ofNat (.inr ⟨by omega, h₂⟩ : n.isValidChar)]
  rw [if_neg (by omega), if_neg (by omega), if_neg (by omega),
    Nat.mod_eq_of_lt (b := 0x08) (by omega)]

end Bytes

/-! ## Surrogates -/

/-- A high surrogate of UTF-16. -/
def IsHigh (n : ℕ) : Prop := 0xD800 ≤ n ∧ n ≤ 0xDBFF

/-- A low surrogate of UTF-16. -/
def IsLow (n : ℕ) : Prop := 0xDC00 ≤ n ∧ n ≤ 0xDFFF

instance (n : ℕ) : Decidable (IsHigh n) := inferInstanceAs (Decidable (_ ∧ _))
instance (n : ℕ) : Decidable (IsLow n) := inferInstanceAs (Decidable (_ ∧ _))

/-- The surrogates of the code point `n`. -/
def high (n : ℕ) : ℕ := (n - 0x10000) / 0x400 + 0xD800
def low (n : ℕ) : ℕ := (n - 0x10000) % 0x400 + 0xDC00

/-- The code point of a pair of surrogates. -/
def join (hi lo : ℕ) : ℕ := (hi - 0xD800) * 0x400 + (lo - 0xDC00) + 0x10000

theorem join_high_low {n : ℕ} (h : 0x10000 ≤ n) : join (high n) (low n) = n := by
  rw [join, high, low]
  omega

theorem isHigh_high {n : ℕ} (h : n < 0x110000) : IsHigh (high n) := by
  rw [IsHigh, high]
  omega

theorem isLow_low (n : ℕ) : IsLow (low n) := by
  rw [IsLow, low]
  omega

theorem join_bounds {hi lo : ℕ} (h₁ : IsHigh hi) (h₂ : IsLow lo) :
    0x10000 ≤ join hi lo ∧ join hi lo < 0x110000 := by
  rw [IsHigh] at h₁
  rw [IsLow] at h₂
  rw [join]
  omega

/-- A code point of at most four hexadecimal digits is a character unless it is
    a surrogate. -/
theorem isValidChar_of_not_surrogate {n : ℕ} (h : n < 0x110000) (h₁ : ¬IsHigh n) (h₂ : ¬IsLow n) :
    n.isValidChar := by
  rw [IsHigh] at h₁
  rw [IsLow] at h₂
  rw [Nat.isValidChar]
  omega

end Utf8
