import PunyGui.Libc.Strtod
import Mathlib.Data.List.DropRight

/-!
# Writing numbers: `printf`

The conversions of `printf` the programs use: `%d` (`formatInt`) and `%.17g`
(`formatG17`), correctly rounded.

A finite number is written as a literal of the JSON grammar (`g17_isJson`), and
`strtod` reads it back exactly (`strtod_formatG17`): seventeen significant
digits are within one part in `2 * 10 ^ 16` of the number.
-/

namespace Libc

open Binary64 Text

/-- `%d`. -/
def formatInt : ℤ → Bytes
  | .ofNat n => decimal n
  | .negSucc n => 0x2D :: decimal (n + 1)

/-! ## Seventeen digits -/

/-- Decimal exponents are counted from `10 ^ (-400)`, below every unit. -/
@[irreducible] def offset : ℕ := 400

/-- The exponent of the first significant digit of `v` units. -/
def decimalExponent (v : ℕ) : ℕ := Nat.log 10 (v * 10 ^ offset / one)

/-- The first seventeen digits of `v` units, as an integer, and the exponent of
    the first one: rounding up to `10 ^ 17` moves to the next exponent. -/
@[irreducible] def significant (v : ℕ) : ℕ × ℕ :=
  let x := decimalExponent v
  let d := rne (v * 10 ^ (offset + 16)) (one * 10 ^ x)
  if d = 10 ^ 17 then (10 ^ 16, x + 1) else (d, x)

/-- The digits without the zeros at the end. -/
def stripZeros (l : Bytes) : Bytes := l.rdropWhile (· == 0x30)

/-- The fraction with the given digits: none when these are all zeros. -/
def fraction (l : Bytes) : Option Bytes := if stripZeros l = [] then none else some (stripZeros l)

/-- An exponent of at least two digits. -/
def exponent (x : ℤ) : Exponent where
  mark := 0x65
  sign := some (x < 0)
  digits := if x.natAbs < 10 then 0x30 :: decimal x.natAbs else decimal x.natAbs

/-- The literal of the seventeen digits `ds`, the first one of exponent `x`: in
    the style of `%f` for an exponent from `-4` to `16`, else in that of `%e`. -/
def styled (neg : Bool) (ds : Bytes) (x : ℤ) : Literal :=
  if 0 ≤ x ∧ x < 17 then ⟨neg, ds.take (x.toNat + 1), fraction (ds.drop (x.toNat + 1)), none⟩
  else if -4 ≤ x ∧ x < 0 then
    ⟨neg, [0x30], fraction (List.replicate ((-x).toNat - 1) 0x30 ++ ds), none⟩
  else ⟨neg, ds.take 1, fraction (ds.drop 1), some (exponent x)⟩

/-- The literal `%.17g` writes for `v` units. -/
def g17 (neg : Bool) (v : ℕ) : Literal :=
  if v = 0 then ⟨neg, [0x30], none, none⟩
  else styled neg (decimal (significant v).1) ((significant v).2 - (offset : ℕ))

/-- `%.17g`. -/
def formatG17 : Double → Bytes
  | .finite neg i => (g17 neg (unitsOf i)).render
  | .inf neg => (if neg then [0x2D] else []) ++ infLetters
  | .nan neg => (if neg then [0x2D] else []) ++ nanLetters

/-! ## The digits -/

theorem one_pos : 0 < one := by rw [one]; positivity

theorem two_pow_le_ten_pow {a b : ℕ} (h : a ≤ 3 * b) : 2 ^ a ≤ 10 ^ b :=
  calc 2 ^ a ≤ 2 ^ (3 * b) := Nat.pow_le_pow_right (by decide) h
    _ = (2 ^ 3) ^ b := pow_mul 2 3 b
    _ ≤ 10 ^ b := Nat.pow_le_pow_left (by decide) b

/-- The offset is below every unit. -/
theorem one_le_offset : one ≤ 10 ^ offset :=
  two_pow_le_ten_pow (by rw [unitExponent, offset]; omega)

theorem decimalExponent_spec {v : ℕ} (hv : 0 < v) :
    10 ^ decimalExponent v * one ≤ v * 10 ^ offset ∧
      v * 10 ^ offset < 10 ^ (decimalExponent v + 1) * one := by
  have hw : 1 ≤ v * 10 ^ offset / one :=
    (Nat.one_le_div_iff one_pos).2 (one_le_offset.trans (Nat.le_mul_of_pos_left _ hv))
  exact ⟨(Nat.le_div_iff_mul_le one_pos).1 (Nat.pow_log_le_self 10 (by omega)),
    (Nat.div_lt_iff_lt_mul one_pos).1 (Nat.lt_pow_succ_log_self (by decide) _)⟩

/-- There are seventeen digits, and they are within one part in `2 * 10 ^ 16` of
    the number. -/
theorem significant_spec {v : ℕ} (hv : 0 < v) :
    10 ^ 16 ≤ (significant v).1 ∧ (significant v).1 < 10 ^ 17 ∧
      2 * 10 ^ 16 * ((significant v).1 * 10 ^ (significant v).2 * one) ≤
        2 * 10 ^ 16 * (v * 10 ^ (offset + 16)) + v * 10 ^ (offset + 16) ∧
      2 * 10 ^ 16 * (v * 10 ^ (offset + 16)) ≤
        2 * 10 ^ 16 * ((significant v).1 * 10 ^ (significant v).2 * one) +
          v * 10 ^ (offset + 16) := by
  obtain ⟨hle, hlt⟩ := decimalExponent_spec hv
  obtain ⟨x, hx⟩ : ∃ x, x = decimalExponent v := ⟨_, rfl⟩
  -- `p` is the weight of the last digit, and `w` the number, on the same scale.
  obtain ⟨p, hp⟩ : ∃ p, p = one * 10 ^ x := ⟨_, rfl⟩
  obtain ⟨w, hw⟩ : ∃ w, w = v * 10 ^ offset := ⟨_, rfl⟩
  have hppos : 0 < p := hp ▸ Nat.mul_pos one_pos (by positivity)
  have hv16 : v * 10 ^ (offset + 16) = 10 ^ 16 * w := by rw [hw, pow_add]; ring
  rw [← hx, ← hw, Nat.mul_comm, ← hp] at hle
  rw [← hx, ← hw, pow_succ, show 10 ^ x * 10 * one = 10 * p by rw [hp]; ring] at hlt
  have hn := rne_near (n := v * 10 ^ (offset + 16)) hppos
  obtain ⟨d, hd⟩ : ∃ d, d = rne (v * 10 ^ (offset + 16)) p := ⟨_, rfl⟩
  rw [← hd, hv16] at hn
  have hlow : 10 ^ 16 ≤ d := by
    by_contra hcon
    have := Nat.mul_le_mul_right p (show d + 1 ≤ 10 ^ 16 by omega)
    rw [Nat.succ_mul] at this
    omega
  have hhigh : d ≤ 10 ^ 17 := by
    by_contra hcon
    have := Nat.mul_le_mul_right p (show 10 ^ 17 + 1 ≤ d by omega)
    rw [Nat.succ_mul] at this
    omega
  have hval : d * 10 ^ x * one = d * p := by rw [hp]; ring
  simp only [significant, ← hx, ← hp, ← hd]
  rw [hv16]
  split_ifs with h17
  · have hval' : 10 ^ 16 * 10 ^ (x + 1) * one = d * p := by rw [← hval, h17]; ring
    rw [hval']
    refine ⟨le_refl _, by norm_num, by omega, by omega⟩
  · rw [hval]
    refine ⟨hlow, by omega, by omega, by omega⟩

/-! ## The round trip -/

theorem stripZeros_append (l : Bytes) : ∃ z, l = stripZeros l ++ List.replicate z 0x30 := by
  refine ⟨(l.rtakeWhile (· == 0x30)).length, ?_⟩
  have hz : l.rtakeWhile (· == 0x30) = List.replicate (l.rtakeWhile (· == 0x30)).length 0x30 :=
    List.eq_replicate_iff.2 ⟨rfl, fun b hb => by simpa using List.mem_rtakeWhile_imp hb⟩
  rw [← hz, stripZeros, List.rdropWhile_append_rtakeWhile]

theorem fraction_getD (l : Bytes) : (fraction l).getD [] = stripZeros l := by
  rw [fraction]
  split_ifs with h
  · rw [h]; rfl
  · rfl

theorem mem_of_mem_fraction {l f : Bytes} (hf : f ∈ fraction l) :
    f ≠ [] ∧ ∀ c ∈ f, c ∈ l := by
  obtain ⟨z, hz⟩ := stripZeros_append l
  rw [fraction] at hf
  split_ifs at hf with h
  · cases hf
  · cases hf
    exact ⟨h, fun c hc => hz ▸ List.mem_append_left _ hc⟩

/-- Seventeen digits, wherever the point is and without the zeros at the end,
    are read back as the number they were written for. -/
theorem ofScaled_significant {neg : Bool} {i : Fin infPattern} (hi : 0 < unitsOf i)
    {int l : Bytes} {e : ℤ} (hd : ofDigits 10 (int ++ l) = (significant (unitsOf i)).1)
    (he : e - l.length = ((significant (unitsOf i)).2 : ℤ) - (offset + 16 : ℕ)) :
    Double.ofScaled neg (ofDigits 10 (int ++ (fraction l).getD [])) 10
      (e - ((fraction l).getD []).length) = .finite neg i := by
  obtain ⟨-, -, h₁, h₂⟩ := significant_spec hi
  obtain ⟨z, hz⟩ := stripZeros_append l
  rw [fraction_getD]
  obtain ⟨m, hm⟩ : ∃ m, m = ofDigits 10 (int ++ stripZeros l) := ⟨_, rfl⟩
  have hmd : m * 10 ^ z = (significant (unitsOf i)).1 := by
    rw [hm, ← ofDigits_append_zeros, List.append_assoc, ← hz, hd]
  have hlen : l.length = (stripZeros l).length + z := by
    conv_lhs => rw [hz]
    simp
  generalize significant (unitsOf i) = s at *
  obtain ⟨d, x⟩ := s
  dsimp only at *
  -- The ratio `m * 10 ^ e'` is `d * 10 ^ x` on the scale of the offset.
  obtain ⟨e', he'⟩ : ∃ e' : ℤ, e' = e - (stripZeros l).length := ⟨_, rfl⟩
  have hratio : m * 10 ^ e'.toNat * one * 10 ^ (offset + 16) =
      d * 10 ^ x * one * 10 ^ (-e').toNat := by
    have hexp : e'.toNat + (offset + 16) = z + x + (-e').toNat := by omega
    calc m * 10 ^ e'.toNat * one * 10 ^ (offset + 16)
        = m * one * 10 ^ (e'.toNat + (offset + 16)) := by rw [pow_add]; ring
      _ = m * 10 ^ z * 10 ^ x * one * 10 ^ (-e').toNat := by rw [hexp, pow_add, pow_add]; ring
      _ = _ := by rw [hmd]
  rw [← hm, ← he', Double.ofScaled]
  have hipos : 0 < (i : ℕ) := by
    rcases Nat.eq_zero_or_pos (i : ℕ) with h0 | h0
    · rw [h0] at hi; simp [unitsOf] at hi
    · exact h0
  refine Double.ofRatio_of_eq (roundPattern_of_near (by positivity) hipos ?_ ?_)
  · refine Nat.le_of_mul_le_mul_right ?_ (show 0 < 10 ^ (offset + 16) by positivity)
    calc 2 * 10 ^ 16 * (m * 10 ^ e'.toNat * one) * 10 ^ (offset + 16)
        = 2 * 10 ^ 16 * (d * 10 ^ x * one) * 10 ^ (-e').toNat := by
          rw [Nat.mul_assoc (2 * 10 ^ 16), hratio]; ring
      _ ≤ _ := Nat.mul_le_mul_right _ h₁
      _ = _ := by ring
  · refine Nat.le_of_mul_le_mul_right ?_ (show 0 < 10 ^ (offset + 16) by positivity)
    calc 2 * 10 ^ 16 * (unitsOf i * 10 ^ (-e').toNat) * 10 ^ (offset + 16)
        = 2 * 10 ^ 16 * (unitsOf i * 10 ^ (offset + 16)) * 10 ^ (-e').toNat := by ring
      _ ≤ _ := Nat.mul_le_mul_right _ h₂
      _ = 2 * 10 ^ 16 * (d * 10 ^ x * one * 10 ^ (-e').toNat) +
          unitsOf i * 10 ^ (-e').toNat * 10 ^ (offset + 16) := by ring
      _ = _ := by rw [← hratio]; ring

theorem exponent_value (x : ℤ) : (exponent x).value = x := by
  have hd : ofDigits 10 (exponent x).digits = x.natAbs := by
    simp only [exponent]
    split_ifs
    · exact (ofDigits_zeros_append 10 1 _).trans (ofDigits_decimal _)
    · exact ofDigits_decimal _
  rw [Exponent.value, hd]
  by_cases hx : x < 0
  · simp only [exponent, hx, decide_true, Option.getD_some, signed, if_true]
    omega
  · simp only [exponent, hx, decide_false, Option.getD_some, signed, Bool.false_eq_true, if_false]
    omega

theorem exponent_isJson (x : ℤ) : (exponent x).IsJson where
  mark := rfl
  digits := by
    simp only [exponent]
    split_ifs
    · refine ⟨List.cons_ne_nil _ _, fun c hc => ?_⟩
      rcases List.mem_cons.1 hc with rfl | hc
      · decide
      · exact isdigit_decimal _ c hc
    · exact ⟨decimal_ne_nil _, isdigit_decimal _⟩

/-- Digits without a leading zero make a literal of the JSON grammar. -/
theorem styled_isJson (neg : Bool) {c : UInt8} {ds : Bytes} (hc : c ≠ 0x30)
    (hds : ∀ b ∈ c :: ds, isdigit b = true) (x : ℤ) : (styled neg (c :: ds) x).IsJson := by
  have hfrac : ∀ {l : Bytes}, (∀ b ∈ l, isdigit b = true) →
      ∀ f ∈ fraction l, f ≠ [] ∧ ∀ b ∈ f, isdigit b = true := fun hl f hf =>
    ⟨(mem_of_mem_fraction hf).1, fun b hb => hl b ((mem_of_mem_fraction hf).2 b hb)⟩
  have hint : ∀ n, ∀ b ∈ (c :: ds).take (n + 1), isdigit b = true :=
    fun n b hb => hds b (List.mem_of_mem_take hb)
  have hdrop : ∀ n, ∀ b ∈ (c :: ds).drop n, isdigit b = true :=
    fun n b hb => hds b (List.mem_of_mem_drop hb)
  rw [styled]
  split_ifs
  · exact ⟨⟨by simp, hint _⟩, fun h => absurd h (by simpa using hc), hfrac (hdrop _), by simp⟩
  · refine ⟨⟨by simp, by simp [isdigit]⟩, fun _ => rfl, hfrac fun b hb => ?_, by simp⟩
    rcases List.mem_append.1 hb with hb | hb
    · rw [List.eq_of_mem_replicate hb]; decide
    · exact hds b hb
  · refine ⟨⟨by simp, hint 0⟩, fun h => absurd h (by simpa using hc), hfrac (hdrop _), ?_⟩
    rintro _ ⟨⟩
    exact exponent_isJson x

/-- Wherever the point is, the digits before and after it, together with the
    exponent, are the seventeen digits with the exponent of the first one. -/
theorem styled_digits (neg : Bool) {ds : Bytes} (hds : ds.length = 17) (x : ℤ) :
    ∃ l, (styled neg ds x).frac = fraction l ∧
      ofDigits 10 ((styled neg ds x).int ++ l) = ofDigits 10 ds ∧
      (styled neg ds x).exp.elim 0 Exponent.value - l.length = x - 16 := by
  rw [styled]
  split_ifs with hx hx'
  · refine ⟨_, rfl, by rw [List.take_append_drop], ?_⟩
    rw [List.length_drop, hds, Option.elim_none]
    omega
  · refine ⟨_, rfl, ?_, ?_⟩
    · rw [List.singleton_append, ← List.cons_append, ← List.replicate_succ, ofDigits_zeros_append]
    · rw [List.length_append, List.length_replicate, hds, Option.elim_none]
      omega
  · refine ⟨_, rfl, by rw [List.take_append_drop], ?_⟩
    rw [List.length_drop, hds, Option.elim_some, exponent_value]
    omega

theorem styled_neg (neg : Bool) (ds : Bytes) (x : ℤ) : (styled neg ds x).neg = neg := by
  rw [styled]
  split_ifs <;> rfl

/-- The literal written for a number is one of the JSON grammar. -/
theorem g17_isJson (neg : Bool) (v : ℕ) : (g17 neg v).IsJson := by
  rw [g17]
  split_ifs with h0
  · exact ⟨⟨by simp, by simp [isdigit]⟩, fun _ => rfl, by simp, by simp⟩
  · have h16 := (significant_spec (Nat.pos_of_ne_zero h0)).1
    obtain ⟨c, l, hl, hc⟩ := decimal_eq_cons (show (significant v).1 ≠ 0 by omega)
    rw [hl]
    exact styled_isJson neg hc (hl ▸ isdigit_decimal _) _

/-- The literal written for a finite number stands for this number. -/
theorem g17_value (neg : Bool) (i : Fin infPattern) :
    (g17 neg (unitsOf i)).value = .finite neg i := by
  rw [g17]
  split_ifs with h0
  · have hi : (i : ℕ) = 0 := by
      by_contra hne
      exact (unitsOf_pos (Nat.pos_of_ne_zero hne)).ne' h0
    have hz : ofDigits 10 [0x30] = 0 := rfl
    simp only [Literal.value, Option.elim_none, Option.getD_none, List.append_nil, hz,
      Double.ofScaled, Nat.zero_mul]
    exact Double.ofRatio_of_eq (by rw [roundPattern_zero, hi])
  · have hv := Nat.pos_of_ne_zero h0
    obtain ⟨h16, h17, -⟩ := significant_spec hv
    obtain ⟨l, hl, hd, hx⟩ := styled_digits neg (length_decimal h16 h17)
      ((significant (unitsOf i)).2 - (offset : ℕ))
    rw [ofDigits_decimal] at hd
    rw [Literal.value, styled_neg, hl]
    exact ofScaled_significant hv hd (by rw [hx]; push_cast; ring)

/-- `strtod` reads back exactly what `%.17g` writes for a finite number. -/
theorem strtod_formatG17 (neg : Bool) (i : Fin infPattern) {r : Bytes}
    (hr : Stops isNumberByte r) :
    strtod (formatG17 (.finite neg i) ++ r) = (.finite neg i, r) := by
  rw [formatG17, strtod_literal hr (g17_isJson neg _), g17_value]

end Libc
