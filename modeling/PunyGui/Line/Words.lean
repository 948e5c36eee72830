import PunyGui.Line.Text

/-!
# Words

The keys that move over a word, and those that delete one.

* `Redrawing`: a function that changes the line, and then draws it again.
* `DeletesPassed`, `BackspacesPassed`: what is deleted is what is moved over.
* `words_agree_iff`: to the left it always is, to the right only where the rest of the line
  is all spaces, or has none.
-/

namespace PunyGui.Line

open Text Libc Imp

/-- A function that changes the line, and then draws it again. -/
structure Redrawing (T : Terminal) where
  code : Editor T → Outcome (Editor T)
  /-- What it does before it draws the line. -/
  change : Editor T → Outcome (Editor T)
  code_eq (e : Editor T) : code e = change e >>= fun e => refresh e

variable {T : Terminal} {e : Editor T}

/-- The code of alt-b. -/
def leftWord : Redrawing T where
  code := kleftw
  change e := backWhile isspace e >>= fun e => backWhile (!isspace ·) e
  code_eq _ := (bind_assoc ..).symm

/-- The code of alt-f. -/
def rightWord : Redrawing T where
  code := krightw
  change e := forthWhile (!isspace ·) e >>= fun e => forthWhile isspace e
  code_eq _ := (bind_assoc ..).symm

/-- The code of ctrl-w and alt-backspace. -/
def backspaceWord : Redrawing T where
  code := kbackspacew
  change e := backspaceWhile isspace e >>= fun e => backspaceWhile (!isspace ·) e
  code_eq _ := (bind_assoc ..).symm

/-- The code of alt-d. -/
def deleteWord : Redrawing T where
  code := kdeletew
  change e := deleteWhile isspace e >>= fun e => deleteWhile (!isspace ·) e
  code_eq _ := (bind_assoc ..).symm

/-- The bytes that alt-d removes are those that alt-f moves over, and the cursor stays in its
    place. -/
def DeletesPassed (e : Editor T) : Prop :=
  ∃ e₁ e₂, rightWord.change e = .ok e₁ ∧ deleteWord.change e = .ok e₂ ∧
    Zipper.DropsForth e.text e₁.text e₂.text

/-- The bytes that ctrl-w and alt-backspace remove are those that alt-b moves over, and the
    cursor goes where alt-b puts it. -/
def BackspacesPassed (e : Editor T) : Prop :=
  ∃ e₁ e₂, leftWord.change e = .ok e₁ ∧ backspaceWord.change e = .ok e₂ ∧
    Zipper.DropsBack e.text e₁.text e₂.text

theorem backspacesPassed (h : TextOk e.buf e.len e.pos) : BackspacesPassed e := by
  obtain ⟨e₁, h₁, hmove⟩ := kleftw_loops h
  obtain ⟨e₂, h₂, hremove⟩ := kbackspacew_loops h
  refine ⟨e₁, e₂, hmove, hremove, ?_⟩
  rw [h₁.text_eq, h₂.text_eq]
  exact Zipper.dropsBack_removeBack ..

theorem deletesPassed_iff (h : TextOk e.buf e.len e.pos) : DeletesPassed e ↔
    (∀ c ∈ e.text.after, isspace c = true) ∨ ∀ c ∈ e.text.after, isspace c = false := by
  obtain ⟨e₁, h₁, hmove⟩ := krightw_loops h
  obtain ⟨e₂, h₂, hremove⟩ := kdeletew_loops h
  have hiff : DeletesPassed e ↔ Zipper.DropsForth e.text e₁.text e₂.text := by
    constructor
    · rintro ⟨e₁', e₂', hmove', hremove', hdrops⟩
      obtain rfl := Except.ok.inj (hmove.symm.trans hmove')
      obtain rfl := Except.ok.inj (hremove.symm.trans hremove')
      exact hdrops
    · exact fun hdrops => ⟨e₁, e₂, hmove, hremove, hdrops⟩
  rw [hiff, h₁.text_eq, h₂.text_eq, Zipper.dropsForth_iff, Zipper.dropWhile_comm_iff]

/-- Word deletion agrees with word motion exactly if behind the cursor there are only spaces,
    or only other bytes. -/
theorem words_agree_iff (h : TextOk e.buf e.len e.pos) : DeletesPassed e ∧ BackspacesPassed e ↔
    (∀ c ∈ e.text.after, isspace c = true) ∨ ∀ c ∈ e.text.after, isspace c = false := by
  rw [and_iff_left (backspacesPassed h)]
  exact deletesPassed_iff h

/-- The line `a b`, with the cursor at its start. -/
def twoWords : Editor keyboard := { lineOf (ascii ['a', ' ', 'b']) with pos := 0 }

theorem textOk_twoWords : TextOk twoWords.buf twoWords.len twoWords.pos :=
  (invariant_lineOf (s := ascii ['a', ' ', 'b']) (by decide)).1.moveTo le_rfl (by decide)

theorem words_agree_iff_two : DeletesPassed twoWords ∧ BackspacesPassed twoWords ↔
    (∀ c ∈ twoWords.text.after, isspace c = true) ∨
      ∀ c ∈ twoWords.text.after, isspace c = false :=
  words_agree_iff textOk_twoWords

/-- On `a b`, alt-f moves over `a` and the space, but alt-d removes only `a`. -/
theorem words_disagree : ¬(DeletesPassed twoWords ∧ BackspacesPassed twoWords) := by
  rintro ⟨hdeletes, -⟩
  have htext : twoWords.text.after = ascii ['a', ' ', 'b'] := by decide
  rcases (deletesPassed_iff textOk_twoWords).1 hdeletes with hall | hall
  · rw [htext] at hall
    exact absurd (hall 0x61 (by decide)) (by decide)
  · rw [htext] at hall
    exact absurd (hall 0x20 (by decide)) (by decide)

end PunyGui.Line
