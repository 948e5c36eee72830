import Mathlib.Data.Nat.Log
import Mathlib.Tactic.Linarith
import Mathlib.Tactic.Ring

/-!
# Binary64 numbers

The double-precision numbers of IEEE 754, with the payload of a NaN forgotten.
A finite magnitude is kept as its bit pattern without the sign, read as a
natural number: the patterns below `2047 * 2 ^ 52` are in order of magnitude,
and the pattern `2047 * 2 ^ 52` of infinity comes right after them.

* `unitsOf i`: the magnitude of pattern `i`, an integer number of *units* of
  `2 ^ (-1074)`, the smallest subnormal.
* `rne n d`: the integer nearest `n / d`, ties going to the even one.
* `roundPattern n d`: the pattern nearest `n / d` units. Rounding past the
  largest finite magnitude lands on the pattern of infinity.
* `roundPattern_of_near`: a ratio within one part in `2 * 10 ^ 16` of the
  magnitude of a pattern rounds to this pattern. Seventeen significant digits
  are that close, which is why they identify a double.
* `Double.toInt?_ofInt`: an integer of at most 53 bits is a double.
-/

namespace Binary64

/-- The pattern of infinity, the first one that is not finite. -/
def infPattern : ℕ := 2047 * 2 ^ 52

/-- A binary64 number. -/
inductive Double
  | finite (neg : Bool) (pattern : Fin infPattern)
  | inf (neg : Bool)
  | nan (neg : Bool)
  deriving DecidableEq

namespace Double

/-- The positive zero. -/
def zero : Double := .finite false ⟨0, by decide⟩

/-- The comparison `==` of C: a NaN differs from everything, itself included,
    and the two zeros are equal. -/
def ceq : Double → Double → Bool
  | .nan _, _ => false
  | _, .nan _ => false
  | .inf s, .inf t => s == t
  | .finite s i, .finite t j => i == j && (s == t || i.val == 0)
  | _, _ => false

/-- Whether a number is finite. -/
def IsFinite : Double → Prop
  | .finite _ _ => True
  | _ => False

instance : DecidablePred IsFinite
  | .finite _ _ => .isTrue trivial
  | .inf _ => .isFalse id
  | .nan _ => .isFalse id

end Double

/-! ## Rounding to an integer -/

/-- The integer nearest `n / d`, ties going to the even one. -/
def rne (n d : ℕ) : ℕ :=
  if 2 * (n % d) < d then n / d
  else if d < 2 * (n % d) then n / d + 1
  else n / d + n / d % 2

/-- An integer less than one half away is the nearest one. -/
theorem rne_eq_of_near {n d m : ℕ} (h₁ : 2 * n < 2 * (m * d) + d) (h₂ : 2 * (m * d) < 2 * n + d) :
    rne n d = m := by
  have hd : 0 < d := by omega
  have hdm := Nat.div_add_mod n d
  have hr := Nat.mod_lt n hd
  rcases Nat.lt_or_ge n (m * d) with hlt | hge
  · -- Just below `m * d`: the quotient is `m - 1`, rounded up.
    obtain ⟨m, rfl⟩ : ∃ k, m = k + 1 := by
      cases m with
      | zero => omega
      | succ k => exact ⟨k, rfl⟩
    have hsucc : (m + 1) * d = m * d + d := Nat.succ_mul m d
    have hq : n / d = m := Nat.div_eq_of_lt_le (by omega) (by omega)
    rw [hq, Nat.mul_comm] at hdm
    rw [rne, hq, if_neg (by omega), if_pos (by omega)]
  · have hq : n / d = m := Nat.div_eq_of_lt_le hge (by rw [Nat.succ_mul]; omega)
    rw [hq, Nat.mul_comm] at hdm
    rw [rne, hq, if_pos (by omega)]

/-- The nearest integer is at most one half away. -/
theorem rne_near {n d : ℕ} (hd : 0 < d) :
    2 * n ≤ 2 * (rne n d * d) + d ∧ 2 * (rne n d * d) ≤ 2 * n + d := by
  have hdm := Nat.div_add_mod n d
  have hr := Nat.mod_lt n hd
  rw [Nat.mul_comm] at hdm
  have hsucc : (n / d + 1) * d = n / d * d + d := Nat.succ_mul _ _
  rw [rne]
  split_ifs with h₁ h₂
  · omega
  · omega
  · rcases Nat.mod_two_eq_zero_or_one (n / d) with h | h
    · rw [h, Nat.add_zero]; omega
    · rw [h]; omega

/-! ## Patterns -/

/-- The magnitude of pattern `i`, in units. -/
def unitsOf (i : ℕ) : ℕ :=
  if i < 2 ^ 52 then i else (2 ^ 52 + i % 2 ^ 52) * 2 ^ (i / 2 ^ 52 - 1)

/-- The pattern nearest `n / d` units. -/
def roundPattern (n d : ℕ) : ℕ :=
  let k := Nat.log2 (n / d) - 52
  k * 2 ^ 52 + rne n (d * 2 ^ k)

/-- A pattern is made of an exponent `k` and a significand `m`, which is
    normalised unless the exponent is the smallest. -/
theorem exists_significand (i : ℕ) : ∃ k m, i = k * 2 ^ 52 + m ∧ unitsOf i = m * 2 ^ k ∧
    m < 2 ^ 53 ∧ (k = 0 ∨ 2 ^ 52 ≤ m) := by
  by_cases h : i < 2 ^ 52
  · exact ⟨0, i, by omega, by rw [unitsOf, if_pos h, pow_zero, mul_one], by omega, .inl rfl⟩
  · have hm := Nat.mod_lt i (show 0 < 2 ^ 52 by decide)
    have hdm := Nat.div_add_mod i (2 ^ 52)
    have hq : 1 ≤ i / 2 ^ 52 := (Nat.one_le_div_iff (by decide)).2 (not_lt.1 h)
    exact ⟨i / 2 ^ 52 - 1, 2 ^ 52 + i % 2 ^ 52, by omega, by rw [unitsOf, if_neg h],
      by omega, .inr (by omega)⟩

theorem unitsOf_pos {i : ℕ} (hi : 0 < i) : 0 < unitsOf i := by
  rw [unitsOf]
  split_ifs
  · exact hi
  · positivity

/-- The exponent of a ratio of at least `2 ^ 52` units. -/
theorem log2_div_eq {n d k : ℕ} (hd : 0 < d) (h₁ : 2 ^ k * d ≤ n) (h₂ : n < 2 ^ (k + 1) * d) :
    Nat.log2 (n / d) = k := by
  have hle : 2 ^ k ≤ n / d := (Nat.le_div_iff_mul_le hd).2 h₁
  have hlt : n / d < 2 ^ (k + 1) := (Nat.div_lt_iff_lt_mul hd).2 h₂
  have hne : n / d ≠ 0 := (lt_of_lt_of_le (by positivity) hle).ne'
  exact (Nat.log2_eq_iff hne).2 ⟨hle, hlt⟩

/-- A ratio within one part in `2 * 10 ^ 16` of the magnitude of a pattern
    rounds to this pattern. -/
theorem roundPattern_of_near {n d i : ℕ} (hd : 0 < d) (hi : 0 < i)
    (h₁ : 2 * 10 ^ 16 * n ≤ 2 * 10 ^ 16 * (unitsOf i * d) + unitsOf i * d)
    (h₂ : 2 * 10 ^ 16 * (unitsOf i * d) ≤ 2 * 10 ^ 16 * n + unitsOf i * d) :
    roundPattern n d = i := by
  obtain ⟨k, m, rfl, hu, hm, hk⟩ := exists_significand i
  have hpos := unitsOf_pos hi
  rw [hu] at h₁ h₂ hpos
  -- `D` is the weight of the last bit of the significand, times `d`.
  obtain ⟨D, hD⟩ : ∃ D, D = d * 2 ^ k := ⟨_, rfl⟩
  have hDpos : 0 < D := hD ▸ by positivity
  have hmD : m * 2 ^ k * d = m * D := by rw [hD]; ring
  rw [hmD] at h₁ h₂
  have hmD53 : m * D + D ≤ 2 ^ 53 * D := by
    rw [← Nat.succ_mul]; exact Nat.mul_le_mul_right D hm
  have h53 : 2 ^ (52 + k + 1) * d = 2 ^ 53 * D := by rw [hD]; ring
  have h52 : 2 ^ (52 + k) * d = 2 ^ 52 * D := by rw [hD]; ring
  by_cases hlow : 0 < k ∧ n < 2 ^ 52 * D
  · -- The ratio falls just short of a power of two: it rounds, in the binade
    -- below, up to the power of two.
    obtain ⟨hk0, hn⟩ := hlow
    obtain ⟨k, rfl⟩ : ∃ j, k = j + 1 := ⟨k - 1, by omega⟩
    obtain ⟨E, hE⟩ : ∃ E, E = d * 2 ^ k := ⟨_, rfl⟩
    have hDE : D = 2 * E := by rw [hD, hE]; ring
    have hm52 : m = 2 ^ 52 := by
      by_contra hne
      have : 2 ^ 52 + 1 ≤ m := by omega
      have := Nat.mul_le_mul_right D this
      rw [Nat.succ_mul] at this
      omega
    subst hm52
    have hlog : Nat.log2 (n / d) = 52 + k := by
      have e₁ : 2 ^ (52 + k) * d = 2 ^ 52 * E := by rw [hE]; ring
      have e₂ : 2 ^ (52 + k + 1) * d = 2 ^ 53 * E := by rw [hE]; ring
      refine log2_div_eq hd ?_ ?_ <;> omega
    rw [roundPattern, hlog, Nat.add_sub_cancel_left, ← hE,
      rne_eq_of_near (m := 2 ^ 53) (by omega) (by omega)]
    omega
  · -- Otherwise the ratio keeps the exponent of the pattern.
    have hlog : Nat.log2 (n / d) - 52 = k := by
      rcases Nat.eq_zero_or_pos k with rfl | hk0
      · have hlt : n / d < 2 ^ 53 := (Nat.div_lt_iff_lt_mul hd).2 (by
          simp only [pow_zero, mul_one] at hD
          rw [hD] at h₁ hmD53
          omega)
        by_cases h0 : n / d = 0
        · rw [h0]; rfl
        · have := (Nat.log2_lt h0).2 hlt
          omega
      · rw [log2_div_eq (k := 52 + k) hd (by omega) (by omega)]
        omega
    rw [roundPattern, hlog, ← hD, rne_eq_of_near (m := m) (by omega) (by omega)]

/-- Zero rounds to zero. -/
theorem roundPattern_zero (d : ℕ) : roundPattern 0 d = 0 := by
  simp [roundPattern, rne, Nat.log2_zero]

/-- The unit is `2 ^ (-unitExponent)`. -/
@[irreducible] def unitExponent : ℕ := 1074

/-- The number of units in one. -/
def one : ℕ := 2 ^ unitExponent

namespace Double

/-- The number nearest `n / d` units, with the given sign. -/
def ofRatio (neg : Bool) (n d : ℕ) : Double :=
  if h : roundPattern n d < infPattern then .finite neg ⟨roundPattern n d, h⟩ else .inf neg

theorem ofRatio_of_eq {neg : Bool} {n d : ℕ} {i : Fin infPattern} (h : roundPattern n d = i) :
    ofRatio neg n d = .finite neg i := by
  simp [ofRatio, h]

/-- The number nearest `m * b ^ e`, with the given sign. -/
def ofScaled (neg : Bool) (m b : ℕ) (e : ℤ) : Double :=
  ofRatio neg (m * b ^ e.toNat * one) (b ^ (-e).toNat)

/-- The number nearest an integer. -/
def ofInt (z : ℤ) : Double := ofScaled (z < 0) z.natAbs 10 0

/-- A finite number without its fraction. -/
def trunc : Double → Option ℤ
  | .finite neg i => some (if neg then -(unitsOf i / one : ℕ) else (unitsOf i / one : ℕ))
  | _ => none

/-- The integer that a number is. -/
def toInt? : Double → Option ℤ
  | .finite neg i => if unitsOf i % one = 0 then trunc (.finite neg i) else none
  | _ => none

end Double

/-! ## Integers -/

theorem one_pos : 0 < one := Nat.two_pow_pos _

/-- The magnitude of an exponent and a normalised significand. -/
theorem unitsOf_normal {e m : ℕ} (h₁ : 2 ^ 52 ≤ m) (h₂ : m < 2 ^ 53) :
    unitsOf (e * 2 ^ 52 + m) = m * 2 ^ e := by
  have hdiv : (e * 2 ^ 52 + m) / 2 ^ 52 = e + 1 := by omega
  have hmod : 2 ^ 52 + (e * 2 ^ 52 + m) % 2 ^ 52 = m := by omega
  rw [unitsOf, if_neg (by omega), hdiv, hmod, Nat.add_sub_cancel]

theorem le_unitsOf {e i : ℕ} (h : (e + 1) * 2 ^ 52 ≤ i) : 2 ^ 52 * 2 ^ e ≤ unitsOf i := by
  have he : e ≤ i / 2 ^ 52 - 1 := by omega
  rw [unitsOf, if_neg (by omega)]
  exact Nat.mul_le_mul (Nat.le_add_right _ _) (Nat.pow_le_pow_right (by decide) he)

/-- An integer of at most 53 bits has a pattern. -/
theorem exists_pattern {n : ℕ} (h₀ : 0 < n) (h : n ≤ 2 ^ 53) :
    ∃ i : Fin infPattern, unitsOf i = n * one := by
  obtain ⟨e, m, h₁, h₂, he, hm⟩ : ∃ e m, 2 ^ 52 ≤ m ∧ m < 2 ^ 53 ∧ e ≤ 1075 ∧
      m * 2 ^ e = n * 2 ^ 1074 := by
    have hk := Nat.log2_self_le h₀.ne'
    have hk' := Nat.lt_log2_self (n := n)
    rcases h.eq_or_lt with rfl | hlt
    · exact ⟨1075, 2 ^ 52, le_rfl, by decide, le_rfl, by decide +kernel⟩
    · have hle : Nat.log2 n ≤ 52 := Nat.lt_succ_iff.1 ((Nat.log2_lt h₀.ne').2 hlt)
      generalize Nat.log2 n = k at hk hk' hle
      -- The bits of `n` are shifted to the top of the significand.
      have h52 : 2 ^ k * 2 ^ (52 - k) = 2 ^ 52 := by rw [← pow_add, Nat.add_sub_cancel' hle]
      have h53 : 2 ^ (k + 1) * 2 ^ (52 - k) = 2 ^ 53 := by rw [pow_succ, mul_right_comm, h52]; rfl
      refine ⟨1022 + k, n * 2 ^ (52 - k), ?_, ?_, by omega, ?_⟩
      · exact h52 ▸ Nat.mul_le_mul_right _ hk
      · exact h53 ▸ Nat.mul_lt_mul_of_pos_right hk' (by positivity)
      · rw [mul_assoc, ← pow_add]
        congr 2
        omega
  refine ⟨⟨e * 2 ^ 52 + m, ?_⟩, ?_⟩
  · rw [infPattern]
    omega
  · rw [unitsOf_normal h₁ h₂, hm, one, unitExponent]

namespace Double

theorem ofInt_eq (z : ℤ) : ofInt z = ofRatio (z < 0) (z.natAbs * one) 1 := by
  simp only [ofInt, ofScaled, Int.toNat_zero, neg_zero, pow_zero, mul_one]

theorem natAbs_of_toInt? {neg : Bool} {i : Fin infPattern} {y : ℤ}
    (h : (finite neg i).toInt? = some y) : y.natAbs = unitsOf i / one := by
  rw [toInt?] at h
  split_ifs at h
  obtain rfl := Option.some.inj h
  split_ifs
  · rw [Int.natAbs_neg, Int.natAbs_natCast]
  · exact Int.natAbs_natCast _

theorem ofInt_of_unitsOf {z : ℤ} {i : Fin infPattern} (h₀ : z ≠ 0)
    (h : unitsOf i = z.natAbs * one) : ofInt z = .finite (z < 0) i := by
  have hi : 0 < (i : ℕ) := by
    rcases Nat.eq_zero_or_pos (i : ℕ) with hi | hi
    · have hpos : 0 < z.natAbs * one := Nat.mul_pos (Int.natAbs_pos.2 h₀) one_pos
      rw [← h, hi] at hpos
      exact absurd hpos (by decide)
    · exact hi
  rw [ofInt_eq]
  refine ofRatio_of_eq ?_
  rw [← h]
  exact roundPattern_of_near (by decide) hi (by omega) (by omega)

/-- An integer of at most 53 bits is kept. -/
theorem toInt?_ofInt {z : ℤ} (h : z.natAbs ≤ 2 ^ 53) : (ofInt z).toInt? = some z := by
  by_cases h₀ : z = 0
  · subst h₀
    decide +kernel
  obtain ⟨i, hi⟩ := exists_pattern (Int.natAbs_pos.2 h₀) h
  rw [ofInt_of_unitsOf h₀ hi, toInt?, hi, if_pos (Nat.mul_mod_left _ _), trunc, hi,
    Nat.mul_div_cancel _ one_pos]
  by_cases hz : z < 0
  · rw [if_pos (decide_eq_true hz)]
    exact congrArg some (by omega)
  · rw [if_neg (by simpa using hz)]
    exact congrArg some (by omega)

/-- A larger integer does not become a small one. -/
theorem natAbs_ge_of_toInt? {y z : ℤ} (hz : 2 ^ 53 < z.natAbs) (h : (ofInt z).toInt? = some y) :
    2 ^ 52 ≤ y.natAbs := by
  have hlog : 53 + unitExponent ≤ Nat.log2 (z.natAbs * one / 1) := by
    have hpos : 0 < z.natAbs * one := Nat.mul_pos (by omega) one_pos
    rw [Nat.div_one, Nat.le_log2 hpos.ne', pow_add]
    exact Nat.mul_le_mul_right _ hz.le
  have hpattern : (unitExponent + 1) * 2 ^ 52 ≤ roundPattern (z.natAbs * one) 1 := by
    rw [roundPattern]
    refine le_trans (Nat.mul_le_mul_right _ ?_) (Nat.le_add_right _ _)
    omega
  have hunits : 2 ^ 52 ≤ unitsOf (roundPattern (z.natAbs * one) 1) / one := by
    rw [Nat.le_div_iff_mul_le one_pos]
    exact le_unitsOf hpattern
  rw [ofInt_eq, ofRatio] at h
  split_ifs at h
  · rw [natAbs_of_toInt? h]
    exact hunits
  · cases h

theorem ofInt_inj {y z : ℤ} (hy : y.natAbs < 2 ^ 52) : ofInt y = ofInt z ↔ y = z := by
  refine ⟨fun h => ?_, congrArg ofInt⟩
  have hy' : (ofInt z).toInt? = some y := h ▸ toInt?_ofInt (by omega)
  by_cases hz : z.natAbs ≤ 2 ^ 53
  · exact Option.some.inj (hy'.symm.trans (toInt?_ofInt hz))
  · exact absurd (natAbs_ge_of_toInt? (not_le.1 hz) hy') (by omega)

end Double

end Binary64
