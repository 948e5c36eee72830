import Mathlib.Data.List.TakeWhile
import Mathlib.Data.Nat.Digits.Lemmas
import Mathlib.Tactic.Ring

/-!
# Byte strings and decimal digits

Text as the programs handle it: lists of bytes.

* `Stops p l`: the list `l` is empty or starts with a byte outside `p`, so that
  a scan along `p` started before `l` goes no further (`takeWhile_append_stop`,
  `dropWhile_append_stop`).
* `ofDigits b l`: the number written by the digits `l` in base `b`.
* `decimal n`: the decimal digits of `n`, without leading zeros.
-/

namespace Text

/-- A byte string. -/
abbrev Bytes := List UInt8

/-- The bytes of a string of ASCII characters. -/
def ascii (cs : List Char) : Bytes := cs.map Char.toUInt8

/-- What C sees of a byte string: the bytes before the first zero byte. -/
def cString (s : Bytes) : Bytes := s.takeWhile (· != 0)

theorem cString_eq_self_iff {s : Bytes} : cString s = s ↔ 0 ∉ s := by
  rw [cString, List.takeWhile_eq_self_iff]
  simp only [bne_iff_ne]
  exact ⟨fun h hs => h 0 hs rfl, fun h c hc heq => h (heq ▸ hc)⟩

theorem zero_notMem_cString (s : Bytes) : 0 ∉ cString s := fun h => by
  simpa using List.mem_takeWhile_imp h

theorem cString_cons {c : UInt8} (hc : c ≠ 0) (s : Bytes) : cString (c :: s) = c :: cString s :=
  List.takeWhile_cons_of_pos (by simpa using hc)

theorem cString_zero_cons (s : Bytes) : cString (0 :: s) = [] :=
  List.takeWhile_cons_of_neg (by simp)

/-- To prove a decidable property of all bytes, check them all. -/
theorem forall_byte {p : UInt8 → Prop} (h : ∀ n : Fin 256, p (UInt8.ofNat n))
    (c : UInt8) : p c := by
  have := h ⟨c.toNat, c.toNat_lt⟩
  simpa using this

/-! ## Scans -/

/-- The list `l` is empty or starts with a byte outside `p`. -/
def Stops (p : UInt8 → Bool) (l : Bytes) : Prop := ∀ c ∈ l.head?, p c = false

section Scans

variable {p q : UInt8 → Bool} {l r : Bytes}

theorem stops_nil : Stops p [] := by simp [Stops]

@[simp] theorem stops_cons {c : UInt8} : Stops p (c :: l) ↔ p c = false := by simp [Stops]

theorem Stops.mono (h : Stops p l) (hpq : ∀ c, q c = true → p c = true) : Stops q l := by
  intro c hc
  have := h c hc
  exact Bool.eq_false_iff.2 fun hq => by simp [hpq c hq] at this

theorem Stops.takeWhile (h : Stops p l) : l.takeWhile p = [] := by
  cases l with
  | nil => rfl
  | cons c l => rw [List.takeWhile_cons_of_neg (by simpa using h)]

theorem Stops.dropWhile (h : Stops p l) : l.dropWhile p = l := by
  cases l with
  | nil => rfl
  | cons c l => rw [List.dropWhile_cons_of_neg (by simpa using h)]

/-- A scan does not go past the place where it stops. -/
theorem takeWhile_append_stop (h : Stops p r) (l : Bytes) :
    (l ++ r).takeWhile p = l.takeWhile p := by
  rw [List.takeWhile_append, h.takeWhile, List.append_nil]
  split_ifs with hl
  · exact ((List.takeWhile_prefix p).eq_of_length hl).symm
  · rfl

theorem dropWhile_append_stop (h : Stops p r) (l : Bytes) :
    (l ++ r).dropWhile p = l.dropWhile p ++ r := by
  rw [List.dropWhile_append, h.dropWhile]
  split_ifs with hl
  · rw [List.isEmpty_iff.1 hl, List.nil_append]
  · rfl

/-- A scan started on bytes that all satisfy `p` takes exactly these. -/
theorem takeWhile_append_all (hl : ∀ c ∈ l, p c = true) (h : Stops p r) :
    (l ++ r).takeWhile p = l := by
  rw [takeWhile_append_stop h, List.takeWhile_eq_self_iff.2 hl]

theorem dropWhile_append_all (hl : ∀ c ∈ l, p c = true) (h : Stops p r) :
    (l ++ r).dropWhile p = r := by
  rw [dropWhile_append_stop h, List.dropWhile_eq_nil_iff.2 hl, List.nil_append]

theorem of_mem_takeWhile {c : UInt8} (hc : c ∈ l.takeWhile p) : p c = true :=
  List.mem_takeWhile_imp hc

end Scans

/-! ## Digits -/

/-- A decimal digit. -/
def isdigit (c : UInt8) : Bool := 0x30 ≤ c && c ≤ 0x39

/-- A letter. -/
def isalpha (c : UInt8) : Bool := (0x41 ≤ c && c ≤ 0x5A) || (0x61 ≤ c && c ≤ 0x7A)

/-- A hexadecimal digit. -/
def isxdigit (c : UInt8) : Bool := isdigit c || (0x41 ≤ c && c ≤ 0x46) || (0x61 ≤ c && c ≤ 0x66)

/-- The upper-case letters turned to lower case. -/
def tolower (c : UInt8) : UInt8 := if 0x41 ≤ c && c ≤ 0x5A then c + 0x20 else c

/-- The value of a decimal or hexadecimal digit. -/
def digitVal (c : UInt8) : ℕ :=
  if isdigit c then c.toNat - 0x30 else (tolower c).toNat - 0x57

/-- The digit of value `n < 10`. -/
def digit (n : ℕ) : UInt8 := UInt8.ofNat (0x30 + n)

theorem isdigit_digit {n : ℕ} (h : n < 10) : isdigit (digit n) = true := by
  interval_cases n <;> decide

theorem digitVal_digit {n : ℕ} (h : n < 10) : digitVal (digit n) = n := by
  interval_cases n <;> decide

/-- The number written by the digits `l` in base `b`. -/
def ofDigits (b : ℕ) (l : Bytes) : ℕ := l.foldl (fun a c => a * b + digitVal c) 0

@[simp] theorem ofDigits_nil (b : ℕ) : ofDigits b [] = 0 := rfl

theorem foldl_digits (b : ℕ) (l : Bytes) (a : ℕ) :
    l.foldl (fun a c => a * b + digitVal c) a = a * b ^ l.length + ofDigits b l := by
  induction l generalizing a with
  | nil => simp
  | cons c l ih =>
    rw [ofDigits, List.foldl_cons, List.foldl_cons, ih, ih (0 * b + _), List.length_cons]
    ring

theorem ofDigits_append (b : ℕ) (l r : Bytes) :
    ofDigits b (l ++ r) = ofDigits b l * b ^ r.length + ofDigits b r := by
  rw [ofDigits, List.foldl_append, ← ofDigits, foldl_digits]

theorem ofDigits_cons (b : ℕ) (c : UInt8) (l : Bytes) :
    ofDigits b (c :: l) = digitVal c * b ^ l.length + ofDigits b l := by
  rw [ofDigits, List.foldl_cons, foldl_digits, Nat.zero_mul, Nat.zero_add]

/-- Zeros on the left change nothing. -/
theorem ofDigits_zeros_append (b n : ℕ) (l : Bytes) :
    ofDigits b (List.replicate n 0x30 ++ l) = ofDigits b l := by
  induction n with
  | zero => rfl
  | succ n ih =>
    rw [List.replicate_succ, List.cons_append, ofDigits_cons, ih, show digitVal 0x30 = 0 from rfl,
      Nat.zero_mul, Nat.zero_add]

/-- Zeros on the right scale the number. -/
theorem ofDigits_append_zeros (b n : ℕ) (l : Bytes) :
    ofDigits b (l ++ List.replicate n 0x30) = ofDigits b l * b ^ n := by
  have h := ofDigits_zeros_append b n []
  rw [List.append_nil, ofDigits_nil] at h
  rw [ofDigits_append, h, List.length_replicate, Nat.add_zero]

/-- The decimal digits of `n`, without leading zeros. -/
def decimal (n : ℕ) : Bytes :=
  if n = 0 then [0x30] else ((Nat.digits 10 n).map digit).reverse

theorem isdigit_decimal (n : ℕ) : ∀ c ∈ decimal n, isdigit c = true := by
  intro c hc
  rw [decimal] at hc
  split_ifs at hc
  · rw [List.mem_singleton] at hc
    exact hc ▸ by decide
  · rw [List.mem_reverse, List.mem_map] at hc
    obtain ⟨d, hd, rfl⟩ := hc
    exact isdigit_digit (Nat.digits_lt_base (by decide) hd)

theorem decimal_ne_nil (n : ℕ) : decimal n ≠ [] := by
  rw [decimal]
  split_ifs with h
  · simp
  · simp [Nat.digits_ne_nil_iff_ne_zero.2 h]

theorem ofDigits_map_digit {l : List ℕ} (hl : ∀ d ∈ l, d < 10) :
    ofDigits 10 ((l.map digit).reverse) = Nat.ofDigits 10 l := by
  induction l with
  | nil => rfl
  | cons d l ih =>
    rw [List.map_cons, List.reverse_cons, ofDigits_append, ofDigits_cons,
      digitVal_digit (hl d List.mem_cons_self), ih fun d hd => hl d (List.mem_cons_of_mem _ hd),
      Nat.ofDigits_cons]
    simp
    ring

/-- Reading the decimal digits of a number gives it back. -/
theorem ofDigits_decimal (n : ℕ) : ofDigits 10 (decimal n) = n := by
  rw [decimal]
  split_ifs with h
  · rw [h]; rfl
  · rw [ofDigits_map_digit fun d hd => Nat.digits_lt_base (by decide) hd, Nat.ofDigits_digits]

/-- A number between two powers of ten has as many digits. -/
theorem length_decimal {n k : ℕ} (h₁ : 10 ^ k ≤ n) (h₂ : n < 10 ^ (k + 1)) :
    (decimal n).length = k + 1 := by
  have hn : n ≠ 0 := (lt_of_lt_of_le (by positivity) h₁).ne'
  rw [decimal, if_neg hn, List.length_reverse, List.length_map]
  exact le_antisymm ((Nat.digits_length_le_iff (by decide) n).2 h₂)
    ((Nat.lt_digits_length_iff (by decide) n).2 h₁)

/-- The first digit of a positive number is not zero. -/
theorem decimal_eq_cons {n : ℕ} (hn : n ≠ 0) : ∃ c l, decimal n = c :: l ∧ c ≠ 0x30 := by
  have hne : Nat.digits 10 n ≠ [] := Nat.digits_ne_nil_iff_ne_zero.2 hn
  have hlast := Nat.getLast_digit_ne_zero 10 hn
  have hlt := Nat.digits_lt_base (b := 10) (m := n) (by decide) (List.getLast_mem hne)
  refine ⟨digit ((Nat.digits 10 n).getLast hne),
    ((Nat.digits 10 n).dropLast.map digit).reverse, ?_, ?_⟩
  · rw [decimal, if_neg hn]
    conv_lhs => rw [← List.dropLast_append_getLast hne]
    rw [List.map_append, List.reverse_append]
    rfl
  · revert hlast hlt
    generalize (Nat.digits 10 n).getLast hne = d
    intro h0 hlt
    interval_cases d <;> first | exact absurd rfl h0 | decide

end Text
