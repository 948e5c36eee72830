import PunyGui.Binary64
import PunyGui.Text

/-!
# Reading numbers: `strtod` and `strtoll`

`strtod` of C99 in the "C" locale: after blanks and a sign, it converts the
longest prefix that is a decimal number, a hexadecimal number (`0x`, with an
optional binary exponent), an infinity or a NaN, and returns the number with
what is left of the text. The conversion rounds to nearest. Without any such
prefix, it returns zero and the whole text.

* `strtod_append`: what `strtod` converts does not depend on what follows, as
  long as it starts with a byte no number contains (`Stops isNumberByte`).
* `Literal`: a decimal number, as its sign, digits, fraction and exponent;
  `strtod_literal` reads it as its value.
* `strtoll`: an integer of 64 bits.
-/

namespace Libc

open Binary64 Text

/-! ## The scanner -/

def isspace (c : UInt8) : Bool := c == 0x20 || (0x09 ≤ c && c ≤ 0x0D)

/-- What is left of `p` after the lower-case letters `l`, in any case. -/
def stripCase : Bytes → Bytes → Option Bytes
  | [], p => some p
  | _ :: _, [] => none
  | l :: ls, c :: p => if tolower c = l then stripCase ls p else none

/-- An optional sign. -/
def scanSign : Bytes → Bool × Bytes
  | 0x2B /- + -/ :: p => (false, p)
  | 0x2D /- - -/ :: p => (true, p)
  | p => (false, p)

theorem scanSign_digit {c : UInt8} (hc : isdigit c = true) (p : Bytes) :
    scanSign (c :: p) = (false, c :: p) := by
  have h₁ : c ≠ 0x2B := by rintro rfl; simp [isdigit] at hc
  have h₂ : c ≠ 0x2D := by rintro rfl; simp [isdigit] at hc
  simp [scanSign, h₁, h₂]

/-- Digits with an optional point: the digits before it, those after it and
    what is left. -/
def scanMantissa (dig : UInt8 → Bool) (p : Bytes) : Bytes × Bytes × Bytes :=
  match p.dropWhile dig with
  | 0x2E /- . -/ :: q => (p.takeWhile dig, q.takeWhile dig, q.dropWhile dig)
  | q => (p.takeWhile dig, [], q)

/-- The integer of the given sign and magnitude. -/
def signed (neg : Bool) (n : ℕ) : ℤ := if neg then -n else n

/-- An optional exponent, after the given mark. A mark without any digit after
    it is not an exponent. -/
def scanExponent (mark : UInt8) : Bytes → ℤ × Bytes
  | [] => (0, [])
  | c :: q =>
    let (neg, r) := scanSign q
    if tolower c = mark ∧ r.takeWhile isdigit ≠ [] then
      (signed neg (ofDigits 10 (r.takeWhile isdigit)), r.dropWhile isdigit)
    else (0, c :: q)

/-- A decimal number. -/
def scanDecimal (neg : Bool) (p : Bytes) : Option (Double × Bytes) :=
  let (i, f, q) := scanMantissa isdigit p
  if i = [] ∧ f = [] then none
  else
    let (e, r) := scanExponent 0x65 /- e -/ q
    some (.ofScaled neg (ofDigits 10 (i ++ f)) 10 (e - f.length), r)

/-- A hexadecimal number, after its `0x`. -/
def scanHexadecimal (neg : Bool) (p : Bytes) : Option (Double × Bytes) :=
  let (i, f, q) := scanMantissa isxdigit p
  if i = [] ∧ f = [] then none
  else
    let (e, r) := scanExponent 0x70 /- p -/ q
    some (.ofScaled neg (ofDigits 16 (i ++ f)) 2 (e - 4 * f.length), r)

/-- The optional payload of a NaN, between parentheses. -/
def skipPayload : Bytes → Bytes
  | 0x28 /- ( -/ :: p =>
    match p.dropWhile fun c => isdigit c || isalpha c || c == 0x5F /- _ -/ with
    | 0x29 /- ) -/ :: q => q
    | _ => 0x28 :: p
  | p => p

/-- The letters of `infinity`, `inf` and `nan`. -/
def infinityLetters : Bytes := ascii ['i', 'n', 'f', 'i', 'n', 'i', 't', 'y']
def infLetters : Bytes := ascii ['i', 'n', 'f']
def nanLetters : Bytes := ascii ['n', 'a', 'n']
def hexPrefix : Bytes := ascii ['0', 'x']

/-- What `strtod` converts, after the sign. -/
def scanMagnitude (neg : Bool) (p : Bytes) : Option (Double × Bytes) :=
  ((stripCase infinityLetters p).map fun r => (.inf neg, r)) <|>
  ((stripCase infLetters p).map fun r => (.inf neg, r)) <|>
  ((stripCase nanLetters p).map fun r => (.nan neg, skipPayload r)) <|>
  ((stripCase hexPrefix p).bind (scanHexadecimal neg)) <|>
  scanDecimal neg p

/-- `strtod`: the number and what is left of the text. -/
def strtod (p : Bytes) : Double × Bytes :=
  let (neg, q) := scanSign (p.dropWhile isspace)
  (scanMagnitude neg q).getD (.zero, p)

/-! ## What follows a number -/

/-- The bytes a number may contain. -/
def isNumberByte (c : UInt8) : Bool :=
  isdigit c || isalpha c || c == 0x2B || c == 0x2D || c == 0x2E || c == 0x5F ||
    c == 0x28 || c == 0x29

/-- A byte that is a letter or a digit in some case is one a number may contain. -/
theorem isNumberByte_of_tolower :
    ∀ c, isdigit (tolower c) = true ∨ isalpha (tolower c) = true → isNumberByte c = true :=
  forall_byte (by decide +kernel)

theorem isalpha_tolower_of_isdigit : ∀ c, isdigit c = true → isalpha (tolower c) = false :=
  forall_byte (by decide +kernel)

theorem tolower_of_isdigit : ∀ c, isdigit c = true → tolower c = c :=
  forall_byte (by decide +kernel)

theorem isspace_of_isdigit : ∀ c, isdigit c = true → isspace c = false :=
  forall_byte (by decide +kernel)

theorem isNumberByte_of_isxdigit : ∀ c, isxdigit c = true → isNumberByte c = true :=
  forall_byte (by decide +kernel)

section Append

variable {r : Bytes} (hr : Stops isNumberByte r)

include hr

theorem stops_isdigit : Stops isdigit r :=
  hr.mono fun c hc => by simp [isNumberByte, hc]

theorem stops_isxdigit : Stops isxdigit r := hr.mono isNumberByte_of_isxdigit

theorem stops_payload : Stops (fun c => isdigit c || isalpha c || c == 0x5F) r := by
  refine hr.mono fun c hc => ?_
  simp only [Bool.or_eq_true] at hc
  rcases hc with (hc | hc) | hc <;> simp [isNumberByte, hc]

theorem ne_of_cons {c b : UInt8} {l : Bytes} (hl : r = c :: l) (hb : isNumberByte b = true) :
    c ≠ b := by
  rintro rfl
  rw [hl, stops_cons, hb] at hr
  cases hr

theorem stripCase_append {l : Bytes} (hl : l.all (fun c => isdigit c || isalpha c) = true)
    (p : Bytes) : stripCase l (p ++ r) = (stripCase l p).map (· ++ r) := by
  induction l generalizing p with
  | nil => simp [stripCase]
  | cons a l ih =>
    rw [List.all_cons, Bool.and_eq_true] at hl
    cases p with
    | cons c p =>
      simp only [List.cons_append, stripCase]
      split_ifs
      · exact ih hl.2 p
      · rfl
    | nil =>
      -- The next letter is not in `r`, which starts with no letter or digit.
      cases r with
      | nil => rfl
      | cons c r =>
        have hne : tolower c ≠ a := by
          rintro rfl
          rw [stops_cons, isNumberByte_of_tolower c (by simpa using hl.1)] at hr
          cases hr
        simp [stripCase, hne]

theorem scanSign_append (p : Bytes) :
    scanSign (p ++ r) = ((scanSign p).1, (scanSign p).2 ++ r) := by
  cases p with
  | nil =>
    cases hl : r with
    | nil => rfl
    | cons c l =>
      have h₁ : c ≠ 0x2B := ne_of_cons hr hl (by decide)
      have h₂ : c ≠ 0x2D := ne_of_cons hr hl (by decide)
      simp [scanSign, h₁, h₂]
  | cons c p =>
    by_cases h₁ : c = 0x2B
    · simp [scanSign, h₁]
    · by_cases h₂ : c = 0x2D
      · simp [scanSign, h₂]
      · simp [scanSign, h₁, h₂]

theorem scanMantissa_append {dig : UInt8 → Bool} (hdig : Stops dig r) (p : Bytes) :
    scanMantissa dig (p ++ r) =
      ((scanMantissa dig p).1, (scanMantissa dig p).2.1, (scanMantissa dig p).2.2 ++ r) := by
  simp only [scanMantissa]
  rw [dropWhile_append_stop hdig, takeWhile_append_stop hdig]
  cases hq : p.dropWhile dig with
  | nil =>
    cases hl : r with
    | nil => rfl
    | cons c l =>
      have hc : c ≠ 0x2E := ne_of_cons hr hl (by decide)
      simp [hc]
  | cons c q =>
    by_cases hc : c = 0x2E
    · simp [hc, takeWhile_append_stop hdig, dropWhile_append_stop hdig]
    · simp [hc]

theorem scanExponent_append {mark : UInt8} (hm : isalpha mark = true) (p : Bytes) :
    scanExponent mark (p ++ r) = ((scanExponent mark p).1, (scanExponent mark p).2 ++ r) := by
  have hd := stops_isdigit hr
  cases p with
  | nil =>
    cases r with
    | nil => rfl
    | cons c l =>
      have hne : tolower c ≠ mark := by
        rintro rfl
        rw [stops_cons, isNumberByte_of_tolower c (.inr hm)] at hr
        cases hr
      simp [scanExponent, hne]
  | cons c q =>
    simp only [List.cons_append, scanExponent, scanSign_append hr, takeWhile_append_stop hd,
      dropWhile_append_stop hd]
    split_ifs <;> rfl

theorem scanDecimal_append (neg : Bool) (p : Bytes) :
    scanDecimal neg (p ++ r) = (scanDecimal neg p).map fun x => (x.1, x.2 ++ r) := by
  simp only [scanDecimal, scanMantissa_append hr (stops_isdigit hr),
    scanExponent_append hr (show isalpha 0x65 = true by decide)]
  split_ifs <;> rfl

theorem scanHexadecimal_append (neg : Bool) (p : Bytes) :
    scanHexadecimal neg (p ++ r) = (scanHexadecimal neg p).map fun x => (x.1, x.2 ++ r) := by
  simp only [scanHexadecimal, scanMantissa_append hr (stops_isxdigit hr),
    scanExponent_append hr (show isalpha 0x70 = true by decide)]
  split_ifs <;> rfl

theorem skipPayload_append (p : Bytes) : skipPayload (p ++ r) = skipPayload p ++ r := by
  have hd := stops_payload hr
  cases p with
  | nil =>
    cases hl : r with
    | nil => rfl
    | cons c l =>
      have hc : c ≠ 0x28 := ne_of_cons hr hl (by decide)
      simp [skipPayload, hc]
  | cons c p =>
    by_cases hc : c = 0x28
    · subst hc
      simp only [List.cons_append, skipPayload, dropWhile_append_stop hd]
      -- The closing bracket is not in `r`.
      cases p.dropWhile fun c => isdigit c || isalpha c || c == 0x5F with
      | nil =>
        cases hl : r with
        | nil => rfl
        | cons a l =>
          have ha : a ≠ 0x29 := ne_of_cons hr hl (by decide)
          simp [ha]
      | cons a q =>
        by_cases ha : a = 0x29
        · simp [ha]
        · simp [ha]
    · simp [skipPayload, hc]

theorem scanMagnitude_append (neg : Bool) (p : Bytes) :
    scanMagnitude neg (p ++ r) = (scanMagnitude neg p).map fun x => (x.1, x.2 ++ r) := by
  have h₁ := stripCase_append hr (l := infinityLetters) rfl p
  have h₂ := stripCase_append hr (l := infLetters) rfl p
  have h₃ := stripCase_append hr (l := nanLetters) rfl p
  have h₄ := stripCase_append hr (l := hexPrefix) rfl p
  simp only [scanMagnitude, h₁, h₂, h₃, h₄, scanDecimal_append hr]
  -- The first alternative that reads `p` is also the first one that reads `p ++ r`.
  cases stripCase infinityLetters p with
  | some q => rfl
  | none =>
    cases stripCase infLetters p with
    | some q => rfl
    | none =>
      cases stripCase nanLetters p with
      | some q => simp [skipPayload_append hr]
      | none =>
        cases stripCase hexPrefix p with
        | none => rfl
        | some q =>
          simp only [Option.map_some, Option.bind_some, scanHexadecimal_append hr]
          cases scanHexadecimal neg q <;> rfl

/-- What `strtod` converts does not depend on what follows it. -/
theorem strtod_append {c : UInt8} (hc : isspace c = false) (p : Bytes) :
    strtod (c :: p ++ r) = ((strtod (c :: p)).1, (strtod (c :: p)).2 ++ r) := by
  have hd : ∀ q, (c :: q).dropWhile isspace = c :: q := fun q =>
    List.dropWhile_cons_of_neg (by simp [hc])
  have hs := scanSign_append hr (c :: p)
  rw [List.cons_append] at hs ⊢
  simp only [strtod, hd, hs, scanMagnitude_append hr]
  cases scanMagnitude (scanSign (c :: p)).1 (scanSign (c :: p)).2 <;> rfl

end Append

/-! ## What is left -/

theorem suffix_of_stripCase {l p q : Bytes} (h : stripCase l p = some q) : q <:+ p := by
  induction l generalizing p with
  | nil =>
    rw [stripCase, Option.some.injEq] at h
    exact h ▸ List.suffix_refl _
  | cons a l ih =>
    cases p with
    | nil => cases h
    | cons c p =>
      rw [stripCase] at h
      split_ifs at h
      exact (ih h).trans (List.suffix_cons _ _)

theorem scanSign_suffix (p : Bytes) : (scanSign p).2 <:+ p := by
  simp only [scanSign]
  split
  · exact List.suffix_cons _ _
  · exact List.suffix_cons _ _
  · exact List.suffix_refl _

theorem scanMantissa_suffix (dig : UInt8 → Bool) (p : Bytes) :
    (scanMantissa dig p).2.2 <:+ p := by
  have hd : p.dropWhile dig <:+ p := List.dropWhile_suffix _
  rw [scanMantissa]
  split
  · rename_i q hq
    rw [hq] at hd
    exact (List.dropWhile_suffix _).trans ((List.suffix_cons _ _).trans hd)
  · exact hd

theorem scanExponent_suffix (mark : UInt8) (p : Bytes) : (scanExponent mark p).2 <:+ p := by
  cases p with
  | nil => exact List.suffix_refl _
  | cons c q =>
    simp only [scanExponent]
    split_ifs
    · exact (List.dropWhile_suffix _).trans ((scanSign_suffix q).trans (List.suffix_cons _ _))
    · exact List.suffix_refl _

theorem skipPayload_suffix (p : Bytes) : skipPayload p <:+ p := by
  simp only [skipPayload]
  split
  · rename_i p
    split
    · rename_i q hq
      exact (List.suffix_cons _ _).trans
        (hq ▸ (List.dropWhile_suffix _).trans (List.suffix_cons _ _))
    · exact List.suffix_refl _
  · exact List.suffix_refl _

theorem suffix_of_scanDecimal {neg : Bool} {p : Bytes} {x : Double × Bytes}
    (h : scanDecimal neg p = some x) : x.2 <:+ p := by
  simp only [scanDecimal] at h
  split_ifs at h
  cases h
  exact (scanExponent_suffix _ _).trans (scanMantissa_suffix _ _)

theorem suffix_of_scanHexadecimal {neg : Bool} {p : Bytes} {x : Double × Bytes}
    (h : scanHexadecimal neg p = some x) : x.2 <:+ p := by
  simp only [scanHexadecimal] at h
  split_ifs at h
  cases h
  exact (scanExponent_suffix _ _).trans (scanMantissa_suffix _ _)

theorem suffix_of_scanMagnitude {neg : Bool} {p : Bytes} {x : Double × Bytes}
    (h : scanMagnitude neg p = some x) : x.2 <:+ p := by
  simp only [scanMagnitude, Option.orElse_eq_orElse, Option.orElse_eq_or, Option.or_eq_some_iff,
    Option.map_eq_some_iff, Option.bind_eq_some_iff] at h
  rcases h with ⟨q, hq, rfl⟩ | ⟨-, ⟨q, hq, rfl⟩ | ⟨-, ⟨q, hq, rfl⟩ | ⟨-, ⟨q, hq, hx⟩ | ⟨-, hx⟩⟩⟩⟩
  · exact suffix_of_stripCase hq
  · exact suffix_of_stripCase hq
  · exact (skipPayload_suffix q).trans (suffix_of_stripCase hq)
  · exact (suffix_of_scanHexadecimal hx).trans (suffix_of_stripCase hq)
  · exact suffix_of_scanDecimal hx

/-- What `strtod` leaves is the end of the text. -/
theorem strtod_suffix (p : Bytes) : (strtod p).2 <:+ p := by
  simp only [strtod]
  cases h : scanMagnitude (scanSign (p.dropWhile isspace)).1 (scanSign (p.dropWhile isspace)).2 with
  | none => exact List.suffix_refl _
  | some x =>
    exact (suffix_of_scanMagnitude h).trans ((scanSign_suffix _).trans (List.dropWhile_suffix _))

/-! ## Decimal numbers -/

/-- The exponent of a decimal number. -/
structure Exponent where
  mark : UInt8
  /-- The sign, possibly absent: `none`, or whether it is a minus. -/
  sign : Option Bool
  digits : Bytes

/-- A decimal number: an optional sign, digits, an optional fraction and an
    optional exponent. -/
structure Literal where
  neg : Bool
  int : Bytes
  frac : Option Bytes
  exp : Option Exponent

namespace Exponent

/-- The bytes of an optional sign. -/
def signBytes : Option Bool → Bytes
  | none => []
  | some false => [0x2B]
  | some true => [0x2D]

def render (e : Exponent) : Bytes := e.mark :: signBytes e.sign ++ e.digits

def value (e : Exponent) : ℤ :=
  signed (e.sign.getD false) (ofDigits 10 e.digits)

/-- An exponent of the JSON grammar. -/
structure IsJson (e : Exponent) : Prop where
  mark : tolower e.mark = 0x65
  digits : e.digits ≠ [] ∧ ∀ c ∈ e.digits, isdigit c = true

end Exponent

namespace Literal

def fracBytes : Option Bytes → Bytes
  | none => []
  | some f => 0x2E :: f

def expBytes : Option Exponent → Bytes
  | none => []
  | some e => e.render

def magnitude (l : Literal) : Bytes := l.int ++ (fracBytes l.frac ++ expBytes l.exp)

def render (l : Literal) : Bytes := (if l.neg then [0x2D] else []) ++ l.magnitude

/-- The number a literal stands for. -/
def value (l : Literal) : Double :=
  .ofScaled l.neg (ofDigits 10 (l.int ++ l.frac.getD [])) 10
    ((l.exp.elim 0 Exponent.value) - (l.frac.getD []).length)

/-- A number of the JSON grammar: digits without a leading zero, a fraction and
    an exponent with at least one digit. -/
structure IsJson (l : Literal) : Prop where
  int : l.int ≠ [] ∧ ∀ c ∈ l.int, isdigit c = true
  leading : l.int.head? = some 0x30 → l.int = [0x30]
  frac : ∀ f ∈ l.frac, f ≠ [] ∧ ∀ c ∈ f, isdigit c = true
  exp : ∀ e ∈ l.exp, e.IsJson

end Literal

section Literal

variable {l : Literal} {r : Bytes} (hr : Stops isNumberByte r)

include hr

theorem scanExponent_render {e : Exponent} (he : e.IsJson) :
    scanExponent 0x65 (e.render ++ r) = (e.value, r) := by
  obtain ⟨m, s, d⟩ := e
  obtain ⟨hm, hd, hdig⟩ := he
  have ht : (d ++ r).takeWhile isdigit = d := takeWhile_append_all hdig (stops_isdigit hr)
  have hw : (d ++ r).dropWhile isdigit = r := dropWhile_append_all hdig (stops_isdigit hr)
  obtain ⟨a, d, rfl⟩ := List.exists_cons_of_ne_nil hd
  rw [List.cons_append] at ht hw
  have hs : scanSign (Exponent.signBytes s ++ a :: (d ++ r)) = (s.getD false, a :: (d ++ r)) := by
    rcases s with _ | _ | _
    · exact scanSign_digit (hdig a List.mem_cons_self) _
    · rfl
    · rfl
  simp only [Exponent.render, List.cons_append, List.append_assoc, scanExponent, hs, ht, hw, hm,
    Exponent.value, ne_eq, reduceCtorEq, not_false_eq_true, and_self, if_true]

theorem scanExponent_expBytes (he : ∀ e ∈ l.exp, e.IsJson) :
    scanExponent 0x65 (Literal.expBytes l.exp ++ r) = (l.exp.elim 0 Exponent.value, r) := by
  cases h : l.exp with
  | some e => exact scanExponent_render hr (he e (h ▸ rfl))
  | none =>
    cases hl : r with
    | nil => rfl
    | cons c q =>
      have hne : tolower c ≠ 0x65 := by
        intro hc
        have := isNumberByte_of_tolower c (.inr (by rw [hc]; decide))
        rw [hl, stops_cons, this] at hr
        cases hr
      simp [Literal.expBytes, scanExponent, hne]

/-- After the digits of a literal comes no digit. -/
theorem stops_expBytes (he : ∀ e ∈ l.exp, e.IsJson) :
    Stops isdigit (Literal.expBytes l.exp ++ r) := by
  cases h : l.exp with
  | none => exact stops_isdigit hr
  | some e =>
    have hm := (he e (h ▸ rfl)).mark
    simp only [Literal.expBytes, Exponent.render, List.cons_append, stops_cons]
    refine Bool.eq_false_iff.2 fun hd => ?_
    have := isalpha_tolower_of_isdigit _ hd
    rw [hm] at this
    cases this

theorem scanMantissa_literal (h : l.IsJson) :
    scanMantissa isdigit (l.magnitude ++ r) =
      (l.int, l.frac.getD [], Literal.expBytes l.exp ++ r) := by
  have he := stops_expBytes hr h.exp
  rw [scanMantissa, Literal.magnitude]
  cases hf : l.frac with
  | none =>
    rw [Literal.fracBytes, List.nil_append, List.append_assoc, takeWhile_append_all h.int.2 he,
      dropWhile_append_all h.int.2 he]
    -- What follows the digits is not a point either.
    cases hq : Literal.expBytes l.exp ++ r with
    | nil => rfl
    | cons c q =>
      have hc : c ≠ 0x2E := by
        cases hx : l.exp with
        | none => exact ne_of_cons hr (by rw [hx] at hq; exact hq) (by decide)
        | some e =>
          have hm := (h.exp e (hx ▸ rfl)).mark
          rw [hx, Literal.expBytes, Exponent.render, List.cons_append, List.cons_append,
            List.cons.injEq] at hq
          rintro rfl
          rw [hq.1] at hm
          exact absurd hm (by decide)
      simp [hc]
  | some f =>
    have hfd := (h.frac f (hf ▸ rfl)).2
    have hs : Stops isdigit (0x2E :: (f ++ (Literal.expBytes l.exp ++ r))) := by
      rw [stops_cons]; decide
    simp only [Literal.fracBytes, List.append_assoc, List.cons_append,
      takeWhile_append_all h.int.2 hs, dropWhile_append_all h.int.2 hs,
      takeWhile_append_all hfd he, dropWhile_append_all hfd he, Option.getD_some]

theorem scanDecimal_literal (h : l.IsJson) (neg : Bool) :
    scanDecimal neg (l.magnitude ++ r) = some (.ofScaled neg (ofDigits 10 (l.int ++ l.frac.getD []))
      10 ((l.exp.elim 0 Exponent.value) - (l.frac.getD []).length), r) := by
  simp only [scanDecimal, scanMantissa_literal hr h, scanExponent_expBytes hr h.exp]
  rw [if_neg fun hi => h.int.1 hi.1]

/-- A literal is not hexadecimal: no `x` follows its first digit. -/
theorem stripCase_hexPrefix_literal (h : l.IsJson) :
    stripCase hexPrefix (l.magnitude ++ r) = none := by
  obtain ⟨c, i, hi⟩ := List.exists_cons_of_ne_nil h.int.1
  have hx : ∀ {b : UInt8} {q : Bytes}, tolower b ≠ 0x78 → stripCase (ascii ['x']) (b :: q) = none :=
    fun hb => if_neg hb
  rw [Literal.magnitude, hi, List.append_assoc, List.cons_append]
  change (if tolower c = 0x30 then _ else none) = none
  split_ifs with hc
  · have hc0 : c = 0x30 := by
      rw [← tolower_of_isdigit c (h.int.2 c (hi ▸ List.mem_cons_self)), hc]
    have hnil : i = [] := by
      have := h.leading (by rw [hi, hc0]; rfl)
      rw [hi, List.cons.injEq] at this
      exact this.2
    rw [hnil, List.nil_append]
    -- Behind a zero that stands alone comes a point, an exponent or the rest.
    cases hf : l.frac with
    | some f => exact hx (by decide)
    | none =>
      cases he : l.exp with
      | some e => exact hx (by rw [(h.exp e (he ▸ rfl)).mark]; decide)
      | none =>
        cases hl : r with
        | nil => rfl
        | cons b q =>
          refine hx fun hb => ?_
          have := isNumberByte_of_tolower b (.inr (by rw [hb]; decide))
          rw [hl, stops_cons, this] at hr
          cases hr
  · rfl

theorem scanMagnitude_literal (h : l.IsJson) (neg : Bool) :
    scanMagnitude neg (l.magnitude ++ r) = scanDecimal neg (l.magnitude ++ r) := by
  obtain ⟨c, i, hi⟩ := List.exists_cons_of_ne_nil h.int.1
  -- No letter starts with a digit.
  have hs : ∀ {b : UInt8} {ls : Bytes}, isalpha b = true →
      stripCase (b :: ls) (l.magnitude ++ r) = none := by
    intro b ls hb
    rw [Literal.magnitude, hi]
    refine if_neg ?_
    rintro rfl
    rw [isalpha_tolower_of_isdigit c (h.int.2 c (hi ▸ List.mem_cons_self))] at hb
    cases hb
  have h₁ : stripCase infinityLetters (l.magnitude ++ r) = none := hs (by decide)
  have h₂ : stripCase infLetters (l.magnitude ++ r) = none := hs (by decide)
  have h₃ : stripCase nanLetters (l.magnitude ++ r) = none := hs (by decide)
  simp only [scanMagnitude, h₁, h₂, h₃, stripCase_hexPrefix_literal hr h]
  rfl

/-- `strtod` reads exactly a number of the JSON grammar. -/
theorem strtod_literal (h : l.IsJson) : strtod (l.render ++ r) = (l.value, r) := by
  have hd := scanMagnitude_literal hr h l.neg
  rw [scanDecimal_literal hr h] at hd
  obtain ⟨c, i, hi⟩ := List.exists_cons_of_ne_nil h.int.1
  have hc := h.int.2 c (hi ▸ List.mem_cons_self)
  have hm : l.magnitude ++ r =
      c :: (i ++ (Literal.fracBytes l.frac ++ Literal.expBytes l.exp) ++ r) := by
    rw [Literal.magnitude, hi]; rfl
  have hsign : scanSign ((l.render ++ r).dropWhile isspace) = (l.neg, l.magnitude ++ r) := by
    rw [Literal.render]
    cases l.neg with
    | true => rfl
    | false =>
      rw [if_neg (by decide), List.nil_append, hm,
        List.dropWhile_cons_of_neg (by simp [isspace_of_isdigit c hc]), scanSign_digit hc]
  simp only [strtod, hsign, hd, Option.getD_some, Literal.value]

end Literal

/-! ## `strtoll` -/

/-- `strtoll`, in base ten: blanks, a sign and digits. Behind the last number of 64 bits, it
    is that number. -/
def strtoll (p : Bytes) : ℤ :=
  let (neg, q) := scanSign (p.dropWhile isspace)
  max (-2 ^ 63) (min (2 ^ 63 - 1) (signed neg (ofDigits 10 (q.takeWhile isdigit))))

/-- What follows the digits does not matter. -/
theorem strtoll_append {s rest : Bytes} (hne : s ≠ []) (hspace : Stops isspace s)
    (hrest : Stops isdigit rest) : strtoll (s ++ rest) = strtoll s := by
  obtain ⟨c, s, rfl⟩ := List.exists_cons_of_ne_nil hne
  have hc : Stops isspace (c :: (s ++ rest)) := stops_cons.2 (stops_cons.1 hspace)
  have hsign : scanSign (c :: (s ++ rest)) =
      ((scanSign (c :: s)).1, (scanSign (c :: s)).2 ++ rest) := by
    by_cases hplus : c = 0x2B
    · simp [scanSign, hplus]
    · by_cases hminus : c = 0x2D
      · simp [scanSign, hminus]
      · simp [scanSign, hplus, hminus]
  simp only [strtoll, List.cons_append, hc.dropWhile, hspace.dropWhile, hsign,
    takeWhile_append_stop hrest]

/-- The digits of a number of 63 bits are read as that number. -/
theorem strtoll_decimal {n : ℕ} (hn : n < 2 ^ 63) : strtoll (decimal n) = n := by
  have hall := isdigit_decimal n
  obtain ⟨c, s, hcs⟩ := List.exists_cons_of_ne_nil (decimal_ne_nil n)
  have hc : isdigit c = true := hall c (hcs ▸ List.mem_cons_self)
  have hstop : Stops isspace (c :: s) := stops_cons.2 (isspace_of_isdigit c hc)
  have htake : (c :: s).takeWhile isdigit = c :: s := List.takeWhile_eq_self_iff.2 (hcs ▸ hall)
  have hvalue : (ofDigits 10 (c :: s) : ℤ) = n := by rw [← hcs, ofDigits_decimal]
  simp only [strtoll, hcs, hstop.dropWhile, scanSign_digit hc, htake, signed, hvalue,
    Bool.false_eq_true, if_false]
  omega

end Libc
