import PunyGui.Text
import PunyGui.Zipper

/-!
# A row of a terminal

What the bytes that are written on a terminal do to the row with the cursor.

* `Row`: the cells before the cursor, and those from the cell of the cursor on.
* `Screen`: the row, and how much of an escape sequence has come.
* `step`, `feed`: what is made of them by one byte, and by several. Nothing is said of a
  byte that is not one of a text or a sequence known here, nor of one that would move the
  cursor out of the row.
* `Shows`: the row has a text, and the cursor behind it.
* `feed_redraw`: a text that is drawn over whatever the row had.
* `Shows.echo`: a byte behind the text makes what drawing them both would.
-/

open Text

/-- The bytes that a terminal prints, one cell each: those of ASCII, but not the control
    characters. -/
structure Charset where
  printable : UInt8 → Bool
  ascii {c : UInt8} (h₀ : 0x20 ≤ c) (h₁ : c < 0x7F) : printable c = true
  control {c : UInt8} (h : c < 0x20) : printable c = false

/-- A blank is printed as well. -/
theorem Charset.of_mem_blanks (cs : Charset) {n : ℕ} {c : UInt8}
    (hc : c ∈ List.replicate n 0x20) : cs.printable c = true := by
  rw [List.eq_of_mem_replicate hc]
  exact cs.ascii (by decide) (by decide)

/-- The cells of a row. The cursor is on one of them. -/
@[ext] structure Row (cs : Charset) where
  cells : Zipper UInt8
  on_cell : cells.after ≠ []
  printable (c : UInt8) (hc : c ∈ cells.whole) : cs.printable c = true

/-- What the next byte belongs to: the text, or an escape sequence after its first byte, or
    one with the parameters so far. -/
inductive Mode
  | text
  | escape
  | control (params : Bytes)

/-- The row with the cursor, and the state of the parser. -/
@[ext] structure Screen (cs : Charset) where
  row : Row cs
  mode : Mode

variable {cs : Charset}

namespace Row

/-- A row with the text `t` and then blanks, the cursor on the first one. -/
def ofText (t : Bytes) (ht : t.all cs.printable = true) (n : ℕ) : Row cs where
  cells := ⟨t, List.replicate (n + 1) 0x20⟩
  on_cell := List.cons_ne_nil _ _
  printable c hc := by
    rcases List.mem_append.1 hc with hc | hc
    · exact List.all_eq_true.1 ht c hc
    · exact cs.of_mem_blanks hc

variable (r : Row cs)

/-- The number of columns. -/
def width : ℕ := r.cells.whole.length

/-- A byte fills the cell of the cursor, which goes on to the next one. -/
def put (c : UInt8) (hc : cs.printable c = true) (h : r.cells.after.tail ≠ []) : Row cs where
  cells := r.cells.delete.insert c
  on_cell := h
  printable b hb := by
    simp only [Zipper.whole, Zipper.insert, Zipper.delete, List.mem_append,
      List.mem_singleton] at hb
    rcases hb with (hb | rfl) | hb
    · exact r.printable b (List.mem_append_left _ hb)
    · exact hc
    · exact r.printable b (List.mem_append_right _ (List.mem_of_mem_tail hb))

/-- The cursor goes to the first column. -/
def home : Row cs where
  cells := r.cells.toStart
  on_cell h := r.on_cell (List.append_eq_nil_iff.1 h).2
  printable := r.printable

/-- The cells from the cursor on become blank. -/
def erase : Row cs where
  cells := ⟨r.cells.before, List.replicate r.cells.after.length 0x20⟩
  on_cell h := r.on_cell (List.length_eq_zero_iff.1 ((List.replicate_eq_nil_iff _).1 h))
  printable b hb := by
    rcases List.mem_append.1 hb with hb | hb
    · exact r.printable b (List.mem_append_left _ hb)
    · exact cs.of_mem_blanks hb

/-- The cursor goes `n` columns to the right. -/
def forward (n : ℕ) (h : n < r.cells.after.length) : Row cs where
  cells := ⟨r.cells.before ++ r.cells.after.take n, r.cells.after.drop n⟩
  on_cell hnil := absurd (List.drop_eq_nil_iff.1 hnil) h.not_ge
  printable b hb := by
    rw [Zipper.whole, List.append_assoc, List.take_append_drop] at hb
    exact r.printable b hb

variable {r}

@[simp] theorem cells_put {c : UInt8} (hc : cs.printable c = true) (h) :
    (r.put c hc h).cells = ⟨r.cells.before ++ [c], r.cells.after.tail⟩ := rfl

@[simp] theorem cells_home : r.home.cells = ⟨[], r.cells.before ++ r.cells.after⟩ := rfl

@[simp] theorem cells_erase :
    r.erase.cells = ⟨r.cells.before, List.replicate r.cells.after.length 0x20⟩ := rfl

@[simp] theorem cells_forward {n : ℕ} (h) : (r.forward n h).cells =
    ⟨r.cells.before ++ r.cells.after.take n, r.cells.after.drop n⟩ := rfl

@[simp] theorem width_put {c : UInt8} (hc : cs.printable c = true) (h) :
    (r.put c hc h).width = r.width := by
  have hpos := List.length_pos_of_ne_nil r.on_cell
  simp only [width, cells_put, Zipper.whole, List.length_append, List.length_singleton,
    List.length_tail]
  omega

@[simp] theorem width_home : r.home.width = r.width := rfl

@[simp] theorem width_erase : r.erase.width = r.width := by
  simp [width, Zipper.whole]

@[simp] theorem width_forward {n : ℕ} (h) : (r.forward n h).width = r.width := by
  simp [width, Zipper.whole]

end Row

namespace Screen

/-- What a byte makes of the screen. -/
def step (s : Screen cs) (c : UInt8) : Option (Screen cs) :=
  match s.mode with
  | .text =>
    if c = 0x0D then some ⟨s.row.home, .text⟩
    else if c = 0x1B then some ⟨s.row, .escape⟩
    else if h : cs.printable c = true ∧ s.row.cells.after.tail ≠ [] then
      some ⟨s.row.put c h.1 h.2, .text⟩
    else none
  | .escape => if c = 0x5B then some ⟨s.row, .control []⟩ else none
  | .control params =>
    if isdigit c then some ⟨s.row, .control (params ++ [c])⟩
    else if c = 0x4B then
      if ofDigits 10 params = 0 then some ⟨s.row.erase, .text⟩ else none
    else if c = 0x43 then
      if h : 1 ≤ ofDigits 10 params ∧ ofDigits 10 params < s.row.cells.after.length then
        some ⟨s.row.forward _ h.2, .text⟩
      else none
    else none

/-- What the bytes of a write make of it. -/
def feed (s : Screen cs) (out : Bytes) : Option (Screen cs) := out.foldlM step s

/-- The row has the text `t` and then blanks, and the cursor is right behind the text. -/
def Shows (s : Screen cs) (t : Bytes) : Prop :=
  s.mode = .text ∧ ∃ n, s.row.cells = ⟨t, List.replicate n 0x20⟩

/-- The sequence that blanks the row from the cursor on. -/
def eraseSeq : Bytes := [0x1B, 0x5B, 0x30, 0x4B]

/-- The sequence that moves the cursor `n` columns to the right. -/
def forwardSeq (n : ℕ) : Bytes := [0x1B, 0x5B] ++ decimal n ++ [0x43]

/-- A text from the first column on, nothing behind it, and the cursor in column `n`. -/
def redrawSeq (t : Bytes) (n : ℕ) : Bytes := [0x0D] ++ t ++ eraseSeq ++ [0x0D] ++ forwardSeq n

variable {s s' : Screen cs} {r : Row cs} {t out out' : Bytes}

/-- No byte changes the number of columns. -/
theorem step_width {c : UInt8} (h : s.step c = some s') : s'.row.width = s.row.width := by
  rw [step] at h
  cases hmode : s.mode with
  | text =>
    simp only [hmode] at h
    split_ifs at h with _ _ hput <;> obtain rfl := Option.some.inj h
    · exact Row.width_home
    · rfl
    · exact Row.width_put hput.1 hput.2
  | escape =>
    simp only [hmode] at h
    split_ifs at h
    obtain rfl := Option.some.inj h
    rfl
  | control params =>
    simp only [hmode] at h
    split_ifs at h with _ _ _ _ hforward <;> obtain rfl := Option.some.inj h
    · rfl
    · exact Row.width_erase
    · exact Row.width_forward hforward.2

theorem feed_width (h : s.feed out = some s') : s'.row.width = s.row.width := by
  induction out generalizing s with
  | nil =>
    obtain rfl := Option.some.inj h
    rfl
  | cons c out ih =>
    obtain ⟨s₁, hstep, hfeed⟩ := Option.bind_eq_some_iff.1 h
    exact (ih hfeed).trans (step_width hstep)

theorem feed_append (h : s.feed out = some s') : s.feed (out ++ out') = s'.feed out' := by
  have hout : out.foldlM step s = some s' := h
  rw [feed, List.foldlM_append, hout]
  rfl

theorem feed_cons {c : UInt8} (h : s.step c = some s') : s.feed (c :: out) = s'.feed out := by
  rw [feed, List.foldlM_cons, h]
  rfl

theorem feed_singleton (s : Screen cs) (c : UInt8) : s.feed [c] = s.step c := by
  rw [feed, List.foldlM_cons]
  exact bind_pure _

theorem step_printable {c : UInt8} (hc : cs.printable c = true)
    (h : r.cells.after.tail ≠ []) : step ⟨r, .text⟩ c = some ⟨r.put c hc h, .text⟩ := by
  have hne : ∀ b : UInt8, b < 0x20 → c ≠ b := fun b hb heq => by
    rw [heq, cs.control hb] at hc
    cases hc
  rw [step]
  simp only
  rw [if_neg (hne _ (by decide)), if_neg (hne _ (by decide)), dif_pos ⟨hc, h⟩]

theorem feed_home (r : Row cs) : feed ⟨r, .text⟩ [0x0D] = some ⟨r.home, .text⟩ :=
  feed_singleton _ _

theorem feed_erase (r : Row cs) : feed ⟨r, .text⟩ eraseSeq = some ⟨r.erase, .text⟩ := rfl

/-- A text fills the cells from the cursor on. -/
theorem feed_text (ht : ∀ c ∈ t, cs.printable c = true) (hlen : t.length < r.cells.after.length) :
    ∃ r', feed ⟨r, .text⟩ t = some ⟨r', .text⟩ ∧
      r'.cells = ⟨r.cells.before ++ t, r.cells.after.drop t.length⟩ := by
  induction t generalizing r with
  | nil => exact ⟨r, rfl, by rw [List.append_nil]; rfl⟩
  | cons c t ih =>
    have htail : r.cells.after.tail.length = r.cells.after.length - 1 := List.length_tail
    rw [List.length_cons] at hlen
    have hnext : r.cells.after.tail ≠ [] := List.ne_nil_of_length_pos (by omega)
    have hput := step_printable (ht c List.mem_cons_self) hnext
    obtain ⟨r', hfeed, hcells⟩ := ih (r := r.put c (ht c List.mem_cons_self) hnext)
      (fun b hb => ht b (List.mem_cons_of_mem _ hb)) (htail ▸ by omega)
    refine ⟨r', ?_, ?_⟩
    · rw [feed_cons hput, hfeed]
    · rw [hcells, Row.cells_put, List.append_assoc, List.drop_tail]
      rfl

theorem feed_digits (ht : ∀ c ∈ t, isdigit c = true) (params : Bytes) :
    feed ⟨r, .control params⟩ t = some ⟨r, .control (params ++ t)⟩ := by
  induction t generalizing params with
  | nil => rw [List.append_nil]; rfl
  | cons c t ih =>
    have hstep : step ⟨r, .control params⟩ c = some ⟨r, .control (params ++ [c])⟩ :=
      if_pos (ht c List.mem_cons_self)
    rw [feed_cons hstep, ih fun b hb => ht b (List.mem_cons_of_mem _ hb), List.append_assoc]
    rfl

theorem feed_forward {n : ℕ} (h₁ : 1 ≤ n) (h : n < r.cells.after.length) :
    feed ⟨r, .text⟩ (forwardSeq n) = some ⟨r.forward n h, .text⟩ := by
  have hstart : feed ⟨r, .text⟩ [0x1B, 0x5B] = some ⟨r, .control []⟩ := rfl
  have hdigits : feed ⟨r, .control []⟩ (decimal n) = some ⟨r, .control (decimal n)⟩ :=
    feed_digits (isdigit_decimal n) []
  rw [forwardSeq, List.append_assoc, feed_append hstart, feed_append hdigits, feed_singleton]
  simp [step, isdigit, ofDigits_decimal, h₁, h]

/-- Whatever the row had, a text is drawn over it. -/
theorem feed_redraw {n : ℕ} (ht : ∀ c ∈ t, cs.printable c = true) (hlen : t.length < r.width)
    (h₁ : 1 ≤ n) (h : n < r.width) : ∃ r', feed ⟨r, .text⟩ (redrawSeq t n) = some ⟨r', .text⟩ ∧
      r'.cells = Zipper.split (t ++ List.replicate (r.width - t.length) 0x20) n := by
  obtain ⟨r₁, hfeed, hcells⟩ := feed_text (r := r.home) ht hlen
  have herased : r₁.erase.home.cells =
      ⟨[], t ++ List.replicate (r.width - t.length) 0x20⟩ := by
    rw [Row.cells_home, Row.cells_erase, hcells, List.length_drop]
    rfl
  have hwidth : n < r₁.erase.home.cells.after.length := by
    rw [herased, List.length_append, List.length_replicate]
    omega
  refine ⟨r₁.erase.home.forward n hwidth, ?_, ?_⟩
  · rw [redrawSeq, List.append_assoc, List.append_assoc, List.append_assoc,
      feed_append (feed_home r), feed_append hfeed, feed_append (feed_erase r₁),
      feed_append (feed_home _), feed_forward h₁]
  · rw [Row.cells_forward, herased]
    rfl

/-- Behind a text, writing a byte makes the same as drawing the text with the byte. -/
theorem Shows.echo (h : s.Shows t) {c : UInt8} (hc : cs.printable c = true)
    (hlen : t.length + 1 < s.row.width) : ∃ s' : Screen cs, s'.Shows (t ++ [c]) ∧
      s.feed [c] = some s' ∧ s.feed (redrawSeq (t ++ [c]) (t ++ [c]).length) = some s' := by
  obtain ⟨r, mode⟩ := s
  obtain ⟨rfl, n, hcells : r.cells = _⟩ := h
  have hwidth : r.width = t.length + n := by
    rw [Row.width, hcells, Zipper.whole, List.length_append, List.length_replicate]
  -- The byte takes the place of one blank, and the cursor that of another one.
  obtain ⟨n, rfl⟩ : ∃ m, n = m + 2 := ⟨n - 2, by simp only at hlen; omega⟩
  have hnext : r.cells.after.tail ≠ [] := by
    rw [hcells]
    exact List.cons_ne_nil _ _
  have hput : (r.put c hc hnext).cells = ⟨t ++ [c], List.replicate (n + 1) 0x20⟩ := by
    rw [Row.cells_put, hcells]
    rfl
  refine ⟨⟨r.put c hc hnext, .text⟩, ⟨rfl, n + 1, hput⟩, ?_, ?_⟩
  · rw [feed_singleton, step_printable hc hnext]
  · have ht : ∀ b ∈ t ++ [c], cs.printable b = true := by
      intro b hb
      rcases List.mem_append.1 hb with hb | hb
      · exact r.printable b (by rw [hcells]; exact List.mem_append_left _ hb)
      · exact List.mem_singleton.1 hb ▸ hc
    have hlength : (t ++ [c]).length = t.length + 1 := List.length_append
    have hfits : (t ++ [c]).length < r.width := hlength ▸ hlen
    obtain ⟨r', hfeed, hcells'⟩ := feed_redraw ht hfits (hlength ▸ Nat.le_add_left ..) hfits
    have hblanks : r.width - (t ++ [c]).length = n + 1 := by omega
    rw [hblanks, Zipper.split_append] at hcells'
    rw [hfeed, Row.ext (hcells'.trans hput.symm)]

end Screen
