import PunyGui.Libc.Printf

/-!
# Reading an HTTP/1.1 response

What a client makes of the bytes of one connection that carries one response
and is closed after it.

* `readHead`: the status, the fields and the bytes after the blank line. The
  reader asks for no more than what separates the parts from each other: the
  status may be any integer, a name is what stands before the colon and a value
  what stands after it and a space.
* `readResponse`: the bytes after the blank line are the body, and every field
  `Content-Length` has to give its length.
* `readHead_render`: a head comes back if no part has the bytes that end it.
* `splitHead`: the status and what follows the first blank line, whatever the
  fields are.
* `splitHead_lines_iff`: lines are one head exactly if none of them has a blank line
  in it.
-/

namespace Http

open Text Libc

/-- A response. -/
structure Response where
  status : ℤ
  fields : List (Bytes × Bytes)
  body : Bytes
  deriving DecidableEq

def crlf : Bytes := [0x0D, 0x0A]

/-- The first line, and the bytes after its end. -/
def takeLine : Bytes → Option (Bytes × Bytes)
  | 0x0D :: 0x0A :: rest => some ([], rest)
  | c :: rest => (takeLine rest).map fun (line, rest) => (c :: line, rest)
  | [] => none

/-- `HTTP/1.1` and a space. -/
def version : Bytes := ascii ['H', 'T', 'T', 'P', '/', '1', '.', '1', ' ']

/-- The digits at the start, as a number. -/
def readNat (s : Bytes) : Option (ℕ × Bytes) :=
  if s.takeWhile isdigit = [] then none
  else some (ofDigits 10 (s.takeWhile isdigit), s.dropWhile isdigit)

/-- An integer with or without a minus. -/
def readInt : Bytes → Option (ℤ × Bytes)
  | 0x2D :: s => (readNat s).map fun (n, s) => (-(n : ℤ), s)
  | s => (readNat s).map fun (n, s) => ((n : ℤ), s)

/-- The status of a status line, which a space and the reason follow. -/
def readStatus (line : Bytes) : Option ℤ :=
  if version.isPrefixOf line then
    match readInt (line.drop version.length) with
    | some (status, 0x20 :: _) => some status
    | _ => none
  else none

/-- The name and the value of a field. -/
def readField (line : Bytes) : Option (Bytes × Bytes) :=
  match line.dropWhile (· != 0x3A) with
  | _ :: 0x20 :: value => some (line.takeWhile (· != 0x3A), value)
  | _ => none

/-- At most so many fields, and the bytes after the blank line. -/
def readFields : ℕ → Bytes → Option (List (Bytes × Bytes) × Bytes)
  | 0, _ => none
  | n + 1, s =>
    (takeLine s).bind fun (line, s) =>
      if line = [] then some ([], s)
      else (readField line).bind fun field =>
        (readFields n s).map fun (fields, s) => (field :: fields, s)

/-- The head of a response, with the bytes after it for its body. -/
def readHead (s : Bytes) : Option Response :=
  (takeLine s).bind fun (line, s) =>
    (readStatus line).bind fun status =>
      (readFields (s.length + 1) s).map fun (fields, body) => ⟨status, fields, body⟩

/-- The name of a field in lower case: names are compared without regard to case. -/
def lower (name : Bytes) : Bytes := name.map tolower

/-- `content-length`. -/
def contentLength : Bytes :=
  ascii ['c', 'o', 'n', 't', 'e', 'n', 't', '-', 'l', 'e', 'n', 'g', 't', 'h']

/-- Every `Content-Length` is the length of the body. -/
def Response.LengthsAgree (r : Response) : Prop :=
  ∀ field ∈ r.fields, lower field.1 = contentLength → field.2 = decimal r.body.length

instance (r : Response) : Decidable r.LengthsAgree := List.decidableBAll _ _

/-- A response with nothing missing and nothing left over. -/
def readResponse (s : Bytes) : Option Response :=
  (readHead s).filter fun r => r.LengthsAgree

/-! ## What comes back -/

/-- The bytes have no carriage return and no line feed, so that they end no line. -/
def IsLine (s : Bytes) : Prop := 0x0D ∉ s ∧ 0x0A ∉ s

theorem isLine_append {s t : Bytes} : IsLine (s ++ t) ↔ IsLine s ∧ IsLine t := by
  simp only [IsLine, List.mem_append, not_or]
  exact and_and_and_comm

theorem isLine_cons {c : UInt8} {s : Bytes} :
    IsLine (c :: s) ↔ (c ≠ 0x0D ∧ c ≠ 0x0A) ∧ IsLine s := by
  simp only [IsLine, List.mem_cons, not_or, eq_comm (b := c)]
  exact and_and_and_comm

theorem takeLine_append {line : Bytes} (h : IsLine line) (rest : Bytes) :
    takeLine (line ++ crlf ++ rest) = some (line, rest) := by
  induction line with
  | nil => rfl
  | cons c line ih =>
    obtain ⟨h₁, h₂⟩ := h
    rw [List.mem_cons, not_or] at h₁ h₂
    rw [List.cons_append, List.cons_append, takeLine, ih ⟨h₁.2, h₂.2⟩]
    · rfl
    · rintro _ rfl -
      exact h₁.1 rfl

theorem readNat_append {n : ℕ} {rest : Bytes} (h : Stops isdigit rest) :
    readNat (decimal n ++ rest) = some (n, rest) := by
  rw [readNat, takeWhile_append_all (isdigit_decimal n) h,
    dropWhile_append_all (isdigit_decimal n) h,
    if_neg (decimal_ne_nil n), ofDigits_decimal]

/-- The integers that `printf` writes come back. -/
theorem readInt_append {z : ℤ} {rest : Bytes} (h : Stops isdigit rest) :
    readInt (formatInt z ++ rest) = some (z, rest) := by
  cases z with
  | ofNat n =>
    have hn := readNat_append (n := n) h
    cases hd : decimal n with
    | nil => exact absurd hd (decimal_ne_nil n)
    | cons c l =>
      have hc : c ≠ 0x2D := by
        rintro rfl
        exact absurd (isdigit_decimal n 0x2D (hd ▸ List.mem_cons_self)) (by decide)
      rw [hd] at hn
      rw [formatInt, hd, List.cons_append, readInt, ← List.cons_append, hn]
      · rfl
      · rintro s ⟨⟩
        exact hc rfl
  | negSucc n =>
    rw [formatInt, List.cons_append, readInt, readNat_append h]
    rfl

theorem isLine_decimal (n : ℕ) : IsLine (decimal n) :=
  ⟨fun h => absurd (isdigit_decimal n _ h) (by decide),
    fun h => absurd (isdigit_decimal n _ h) (by decide)⟩

theorem isLine_formatInt (z : ℤ) : IsLine (formatInt z) := by
  cases z with
  | ofNat n => exact isLine_decimal n
  | negSucc n => exact isLine_cons.2 ⟨by decide, isLine_decimal _⟩

/-- A status line. -/
def statusLine (status : ℤ) (reason : Bytes) : Bytes :=
  version ++ formatInt status ++ 0x20 :: reason

theorem isLine_statusLine (status : ℤ) {reason : Bytes} (h : IsLine reason) :
    IsLine (statusLine status reason) := by
  rw [statusLine, isLine_append, isLine_append, isLine_cons]
  exact ⟨⟨⟨by decide, by decide⟩, isLine_formatInt status⟩, by decide, h⟩

theorem readStatus_statusLine (status : ℤ) (reason : Bytes) :
    readStatus (statusLine status reason) = some status := by
  have hdrop : (statusLine status reason).drop version.length =
      formatInt status ++ 0x20 :: reason := by
    rw [statusLine, List.append_assoc, List.drop_left]
  have hpre : version.isPrefixOf (statusLine status reason) = true := by
    rw [statusLine, List.append_assoc, List.isPrefixOf_iff_prefix]
    exact List.prefix_append _ _
  rw [readStatus, if_pos hpre, hdrop, readInt_append (stops_cons.2 rfl)]
  rfl

/-- The line of a field. -/
def fieldLine (field : Bytes × Bytes) : Bytes := field.1 ++ 0x3A :: 0x20 :: field.2

theorem readField_fieldLine {field : Bytes × Bytes} (h : 0x3A ∉ field.1) :
    readField (fieldLine field) = some field := by
  have hall : ∀ c ∈ field.1, (c != 0x3A) = true := by
    intro c hc
    exact bne_iff_ne.2 fun heq => h (heq ▸ hc)
  have hstop : Stops (· != 0x3A) (0x3A :: 0x20 :: field.2) := stops_cons.2 rfl
  rw [readField, fieldLine, dropWhile_append_all hall hstop, takeWhile_append_all hall hstop]
  rfl

/-- A field whose name and value do not have the bytes that end them. -/
structure IsField (field : Bytes × Bytes) : Prop where
  name : IsLine field.1
  colon : 0x3A ∉ field.1
  value : IsLine field.2

theorem IsField.isLine {field : Bytes × Bytes} (h : IsField field) : IsLine (fieldLine field) := by
  rw [fieldLine, isLine_append, isLine_cons, isLine_cons]
  exact ⟨h.name, by decide, by decide, h.value⟩

/-- The lines of fields. -/
def renderFields (fields : List (Bytes × Bytes)) : Bytes :=
  fields.flatMap fun field => fieldLine field ++ crlf

theorem readFields_render {fields : List (Bytes × Bytes)} (h : ∀ field ∈ fields, IsField field)
    (body : Bytes) {n : ℕ} (hn : fields.length < n) :
    readFields n (renderFields fields ++ crlf ++ body) = some (fields, body) := by
  induction fields generalizing n with
  | nil =>
    cases n with
    | zero => cases hn
    | succ n => rfl
  | cons field fields ih =>
    have hfield := h field List.mem_cons_self
    have hne : fieldLine field ≠ [] := by simp [fieldLine]
    have hrest : renderFields (field :: fields) ++ crlf ++ body =
        fieldLine field ++ crlf ++ (renderFields fields ++ crlf ++ body) := by
      simp [renderFields]
    cases n with
    | zero => cases hn
    | succ n =>
      have hrec := ih (fun f hf => h f (List.mem_cons_of_mem _ hf)) (Nat.lt_of_succ_lt_succ hn)
      simp only [readFields, hrest, takeLine_append hfield.isLine, Option.bind_some, if_neg hne,
        readField_fieldLine hfield.colon, hrec, Option.map_some]

theorem length_le_renderFields (fields : List (Bytes × Bytes)) :
    fields.length ≤ (renderFields fields).length := by
  induction fields with
  | nil => exact Nat.le_refl 0
  | cons field fields ih =>
    simp only [renderFields, List.flatMap_cons, List.length_append, List.length_cons] at ih ⊢
    have : crlf.length = 2 := rfl
    omega

/-- A head that is written line by line comes back. -/
theorem readHead_render {status : ℤ} {reason : Bytes} (hreason : IsLine reason)
    {fields : List (Bytes × Bytes)} (h : ∀ field ∈ fields, IsField field) (body : Bytes) :
    readHead (statusLine status reason ++ crlf ++ (renderFields fields ++ crlf ++ body)) =
      some ⟨status, fields, body⟩ := by
  have hlen : fields.length < (renderFields fields ++ crlf ++ body).length + 1 := by
    have := length_le_renderFields fields
    simp only [List.length_append]
    omega
  rw [readHead, takeLine_append (isLine_statusLine status hreason), Option.bind_some]
  simp only [readStatus_statusLine, readFields_render h body hlen]
  rfl

/-! ## Blank lines -/

/-- The bytes after the first blank line; `start` says that a line starts here. -/
def afterBlank : Bool → Bytes → Option Bytes
  | start, 0x0D :: 0x0A :: s => if start then some s else afterBlank true s
  | _, _ :: s => afterBlank false s
  | _, [] => none

/-- There is a blank line among the lines. -/
def HasBlank (lines : Bytes) : Prop := (afterBlank true lines).isSome

/-- The status of the first line, and what follows the first blank line. -/
def splitHead (s : Bytes) : Option (ℤ × Bytes) :=
  (takeLine s).bind fun (line, _) =>
    (readStatus line).bind fun status => (afterBlank true s).map fun body => (status, body)

section Blank

variable {c : UInt8} {d s r : Bytes} {start : Bool}

theorem afterBlank_cons (h : ¬(c = 0x0D ∧ s.head? = some 0x0A)) :
    afterBlank start (c :: s) = afterBlank false s := by
  rw [afterBlank]
  rintro s' rfl rfl
  exact h ⟨rfl, rfl⟩

/-- A blank line among lines that end is one of them, whatever follows. -/
theorem afterBlank_append (start : Bool) (rest : Bytes) : ∀ d : Bytes,
    afterBlank start (d ++ crlf ++ rest) =
      (afterBlank start (d ++ crlf)).elim (afterBlank true rest) fun r => some (r ++ rest) := by
  intro d
  induction hn : d.length using Nat.strong_induction_on generalizing d start with
  | _ n ih =>
    subst hn
    rcases d with - | ⟨c, d⟩
    · cases start <;> rfl
    by_cases h : c = 0x0D ∧ d.head? = some 0x0A
    · -- The end of a line, which is blank if it starts here.
      obtain ⟨rfl, hd⟩ := h
      obtain ⟨d', rfl⟩ := List.head?_eq_some_iff.1 hd
      simp only [List.cons_append, afterBlank]
      cases start
      · exact ih d'.length (by simp only [List.length_cons]; omega) true d' rfl
      · rfl
    · have hhead (t : Bytes) : ¬(c = 0x0D ∧ (d ++ crlf ++ t).head? = some 0x0A) := by
        cases d with
        | nil => exact fun hc => absurd (Option.some.inj hc.2) (by decide)
        | cons x d => exact h
      have hhead' : ¬(c = 0x0D ∧ (d ++ crlf).head? = some 0x0A) := by
        simpa only [List.append_nil] using hhead []
      rw [List.cons_append, List.cons_append, afterBlank_cons (hhead rest), afterBlank_cons hhead']
      exact ih d.length (Nat.lt_succ_self _) false d rfl

theorem afterBlank_eq_none (h : IsLine s) : afterBlank start (s ++ crlf) =
    if s = [] ∧ start = true then some [] else none := by
  induction s generalizing start with
  | nil => cases start <;> rfl
  | cons c s ih =>
    obtain ⟨⟨hc, -⟩, hs⟩ := isLine_cons.1 h
    rw [List.cons_append, afterBlank_cons fun hc' => hc hc'.1, ih hs]
    simp

/-- A line is blank only if it is empty. -/
theorem not_hasBlank (h : IsLine s) (hne : s ≠ []) : ¬HasBlank (s ++ crlf) := by
  rw [HasBlank, afterBlank_eq_none h, if_neg fun hs => hne hs.1]
  exact Bool.false_ne_true

/-- The bytes after the lines follow the first blank line, after none or after some
    of the lines. -/
theorem afterBlank_lines (lines : List Bytes) (rest : Bytes) :
    ((∀ d ∈ lines, ¬HasBlank (d ++ crlf)) →
        afterBlank true (lines.flatMap (· ++ crlf) ++ (crlf ++ rest)) = some rest) ∧
      ((∃ d ∈ lines, HasBlank (d ++ crlf)) →
        ∃ r, afterBlank true (lines.flatMap (· ++ crlf) ++ (crlf ++ rest)) =
          some (r ++ (crlf ++ rest))) := by
  induction lines with
  | nil => exact ⟨fun _ => rfl, fun ⟨_, hd, _⟩ => absurd hd List.not_mem_nil⟩
  | cons d lines ih =>
    rw [List.flatMap_cons, List.append_assoc (d ++ crlf), afterBlank_append]
    cases hd : afterBlank true (d ++ crlf) with
    | some r =>
      have hblank : HasBlank (d ++ crlf) := by rw [HasBlank, hd]; rfl
      refine ⟨fun h => absurd hblank (h d List.mem_cons_self), fun _ => ?_⟩
      exact ⟨r ++ lines.flatMap (· ++ crlf), by rw [List.append_assoc]; rfl⟩
    | none =>
      have hblank : ¬HasBlank (d ++ crlf) := by rw [HasBlank, hd]; exact Bool.false_ne_true
      refine ⟨fun h => ih.1 fun d hd => h d (List.mem_cons_of_mem _ hd), ?_⟩
      rintro ⟨d', hd', hblank'⟩
      rcases List.mem_cons.1 hd' with rfl | hd'
      · exact absurd hblank' hblank
      · exact ih.2 ⟨d', hd', hblank'⟩

/-- What follows the first blank line is what stands after the lines exactly if no
    line has a blank line in it. -/
theorem afterBlank_lines_iff {lines : List Bytes} {rest : Bytes} :
    afterBlank true (lines.flatMap (· ++ crlf) ++ (crlf ++ rest)) = some rest ↔
      ∀ d ∈ lines, ¬HasBlank (d ++ crlf) := by
  refine ⟨fun h => ?_, (afterBlank_lines lines rest).1⟩
  by_contra hblank
  push Not at hblank
  obtain ⟨r, hr⟩ := (afterBlank_lines lines rest).2 hblank
  -- There would be too many bytes.
  have hlen := congrArg List.length (Option.some.inj (h.symm.trans hr))
  have : crlf.length = 2 := rfl
  simp only [List.length_append] at hlen
  omega

/-- A status line and other lines are one head exactly if none of these has a blank line
    in it. -/
theorem splitHead_lines_iff {status : ℤ} {reason : Bytes} (hreason : IsLine reason)
    {lines : List Bytes} {rest : Bytes} :
    splitHead ((statusLine status reason :: lines).flatMap (· ++ crlf) ++ (crlf ++ rest)) =
        some (status, rest) ↔ ∀ d ∈ lines, ¬HasBlank (d ++ crlf) := by
  have hline := isLine_statusLine status hreason
  have hblank : ¬HasBlank (statusLine status reason ++ crlf) :=
    not_hasBlank hline (by simp [statusLine])
  have htake : takeLine ((statusLine status reason :: lines).flatMap (· ++ crlf) ++
      (crlf ++ rest)) =
        some (statusLine status reason, lines.flatMap (· ++ crlf) ++ (crlf ++ rest)) := by
    rw [List.flatMap_cons, List.append_assoc]
    exact takeLine_append hline _
  rw [splitHead, htake, Option.bind_some]
  simp only [readStatus_statusLine, Option.bind_some, Option.map_eq_some_iff, Prod.mk.injEq,
    true_and, exists_eq_right, afterBlank_lines_iff, List.forall_mem_cons]
  exact and_iff_right hblank

end Blank

end Http
