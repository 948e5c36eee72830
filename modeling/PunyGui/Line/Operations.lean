import PunyGui.Line.Command
import PunyGui.Line.Text
import PunyGui.Line.Window

/-!
# Operations on a text

The keys that edit the line, as operations on a text with a cursor.

* `Edit.apply`, `Command.apply`: the operations.
* `Command.edits`: the keys that are such operations.
* `perform_of_silent`, `perform_of_edits`: what the code of such a key does to the text,
  on any terminal.
-/

namespace PunyGui.Line

open Text Libc Imp

/-! ## The operations -/

/-- What a key that edits the line does to the text. -/
def Edit.apply : Edit → Zipper UInt8 → Zipper UInt8
  | home, t => t.toStart
  | left, t => t.left
  | delete, t => t.delete
  | «end», t => t.toEnd
  | right, t => t.right
  | backspace, t => t.backspace
  | kill, t => t.clearAfter
  | killStart, t => t.clearBefore
  | backspaceWord, t => (t.removeBack isspace).removeBack (!isspace ·)
  | leftWord, t => (t.backOver isspace).backOver (!isspace ·)
  | rightWord, t => (t.forthOver (!isspace ·)).forthOver isspace
  | deleteWord, t => (t.removeForth isspace).removeForth (!isspace ·)

/-- What a key does to the text. -/
def Command.apply : Command → Zipper UInt8 → Zipper UInt8
  | char c, t => if t.whole.length < lineMax - 1 then t.insert c else t
  | edit op, t => op.apply t
  | eof, t => t.delete
  | _, t => t

/-- The keys that edit the text, or leave it as it is. The end-of-file key does so on a line
    that is not empty. -/
def Command.edits : Command → Zipper UInt8 → Bool
  | char _, _ | edit _, _ | clear, _ | redraw, _ | nothing, _ => true
  | eof, t => !t.whole.isEmpty
  | _, _ => false

/-- A key at the end of the text that it works on. -/
def Edit.AtLimit : Edit → Zipper UInt8 → Prop
  | left, t | backspace, t => t.before = []
  | right, t | delete, t => t.after = []
  | _, _ => False

/-- A key that does nothing, and does not draw the line again either. -/
def Command.Silent : Command → Zipper UInt8 → Prop
  | char _, t => lineMax - 1 ≤ t.whole.length
  | edit op, t => op.AtLimit t
  | eof, t => t.after = []
  | nothing, _ => True
  | _, _ => False

theorem Edit.apply_of_atLimit {op : Edit} {t : Zipper UInt8} (h : op.AtLimit t) :
    op.apply t = t := by
  obtain ⟨l, r⟩ := t
  cases op <;> cases h <;>
    simp [apply, Zipper.left, Zipper.right, Zipper.backspace, Zipper.delete]

theorem Command.apply_of_silent {c : Command} {t : Zipper UInt8} (h : c.Silent t) :
    c.apply t = t := by
  cases c with
  | char c => exact if_neg (Nat.not_lt.2 h)
  | edit op => exact Edit.apply_of_atLimit h
  | eof => exact (Edit.apply_of_atLimit h : Edit.delete.apply _ = _)
  | _ => rfl

/-- Every operation leaves an empty text empty, but for a byte that is typed. -/
theorem Command.after_apply_empty (c : Command) : (c.apply ⟨[], []⟩).after = [] := by
  cases c with
  | char c => rfl
  | edit op => cases op <;> rfl
  | _ => rfl

variable {T : Terminal} {e : Editor T} (env : Option (List Slots))

/-! ## The code of the keys -/

/-- The code of a key changes the text as the key does, and then draws the line again. -/
theorem Edit.run_eq (h : TextOk e.buf e.len e.pos) {op : Edit} (hop : ¬op.AtLimit e.text) :
    ∃ e', Edited e (op.apply e.text) e' ∧ op.run e = refresh e' := by
  cases op with
  | home => exact khome_eq h
  | left => exact kleft_of_ne h hop
  | delete => exact kdelete_of_ne h hop true
  | «end» => exact kend_eq h
  | right => exact kright_of_ne h hop
  | backspace => exact kbackspace_of_ne h hop true
  | kill => exact kkill_eq h
  | killStart => exact kkillStart_eq h
  | backspaceWord => exact kbackspacew_eq h
  | leftWord => exact kleftw_eq h
  | rightWord => exact krightw_eq h
  | deleteWord => exact kdeletew_eq h

theorem Edit.run_of_atLimit (h : TextOk e.buf e.len e.pos) {op : Edit} (hop : op.AtLimit e.text) :
    op.run e = .ok e := by
  cases op with
  | left => exact kleft_of_eq h hop
  | delete => exact kdelete_of_eq h hop true
  | right => exact kright_of_eq h hop
  | backspace => exact kbackspace_of_eq h hop true
  | _ => cases hop

/-- A key that does nothing. -/
theorem perform_of_silent (h : TextOk e.buf e.len e.pos) {c : Command}
    (hedits : c.edits e.text = true) (hc : c.Silent e.text) :
    perform env c e = .ok (.reading e) := by
  cases c with
  | char c =>
    have hfull : ¬e.len < lineMax - 1 := by
      rw [len_eq_length h]
      have := lineMax_eq
      simp only [Command.Silent] at hc
      omega
    rw [perform, insert_of_full hfull]
    rfl
  | edit op =>
    rw [perform, Edit.run_of_atLimit h hc]
    rfl
  | eof =>
    have hne : e.len ≠ 0 := by
      refine mt (len_eq_zero_iff h).1 fun hnil => ?_
      simp [Command.edits, hnil] at hedits
    rw [perform, if_neg hne, kdelete_of_eq h hc]
    rfl
  | nothing => rfl
  | _ => cases hc

/-- How the line of `e` is drawn: by `refresh`, on an empty screen, or by its last byte
    alone, where it fits on the row. -/
inductive Drawn (e : Editor T) : Outcome (Loop T) → Prop
  | again : Drawn e (goOn (refresh e))
  | cleared (out : Bytes) (hout : out ≠ []) :
    Drawn e (if (T.write e.tty out).1 ≤ 0 then .error .exit
      else goOn (refresh { e with tty := (T.write e.tty out).2 }))
  | short (c : UInt8) (h : ¬Clipped e) :
    Drawn e (.ok (if (T.write e.tty [c]).1 = -1 then
        .returned (-1) { e with tty := (T.write e.tty [c]).2 }
      else .reading { e with tty := (T.write e.tty [c]).2 }))

/-- A byte that there is room for. It is written on its own at the end of a line that is
    shorter than the row. -/
theorem perform_char (h : TextOk e.buf e.len e.pos) (c : UInt8)
    (hlen : e.text.whole.length < lineMax - 1) :
    ∃ e', Edited e (e.text.insert c) e' ∧ Drawn e' (perform env (.char c) e) := by
  obtain ⟨e', he', hinsert⟩ := insert_of_lt h
    (by rw [len_eq_length h]; have := lineMax_eq; omega) c true
  refine ⟨e', he', ?_⟩
  obtain ⟨buf, len, pos, rfl⟩ := he'.frame
  rw [perform, hinsert]
  by_cases hshort : e.len = e.pos ∧ true = true ∧ e.plen + (e.len + 1) < e.cols
  · have hclip : ¬Clipped { e with buf, len, pos } := by
      have h₀ := h.pos_nonneg.trans h.pos_le
      have hlt := hshort.2.2
      simp only [Clipped]
      omega
    rw [if_pos hshort]
    have hdrawn := Drawn.short c hclip
    split_ifs at hdrawn ⊢ <;> exact hdrawn
  · rw [if_neg hshort]
    have hdrawn := Drawn.again (e := { e with buf, len, pos })
    rw [goOn] at hdrawn
    rw [bind_assoc]
    exact hdrawn

/-- The code of any other key changes the text as the key does, and draws it. -/
theorem perform_of_edits (h : TextOk e.buf e.len e.pos) {c : Command}
    (hedits : c.edits e.text = true) (hc : ¬c.Silent e.text) :
    ∃ e', Edited e (c.apply e.text) e' ∧ Drawn e' (perform env c e) := by
  cases c with
  | char c =>
    have hlen : e.text.whole.length < lineMax - 1 := Nat.not_le.1 hc
    rw [Command.apply, if_pos hlen]
    exact perform_char env h c hlen
  | edit op =>
    obtain ⟨e', he', hrun⟩ := Edit.run_eq h hc
    refine ⟨e', he', ?_⟩
    rw [perform, hrun]
    exact .again
  | eof =>
    have hne : e.len ≠ 0 := by
      refine mt (len_eq_zero_iff h).1 fun hnil => ?_
      simp [Command.edits, hnil] at hedits
    obtain ⟨e', he', hdelete⟩ := kdelete_of_ne h hc true
    refine ⟨e', he', ?_⟩
    rw [perform, if_neg hne, hdelete]
    exact .again
  | clear =>
    refine ⟨e, edited_self h, ?_⟩
    have hdrawn := Drawn.cleared (e := e) [0x1B, 0x5B, 0x48, 0x1B, 0x5B, 0x32, 0x4A] (by simp)
    rw [perform, Line.clear]
    dsimp only
    split_ifs at hdrawn ⊢ <;> exact hdrawn
  | redraw => exact ⟨e, edited_self h, .again⟩
  | nothing => exact absurd trivial hc
  | _ => cases hedits

/-- However the line is drawn, the text stays as it is. -/
theorem Drawn.holds {r : Outcome (Loop T)} (h : Drawn e r) : Holds (fun l => ∃ tty,
    l = .reading { e with tty } ∨ l = .returned (-1) { e with tty }) r := by
  cases h with
  | again =>
    refine (holds_refresh e).bind ?_
    rintro _ ⟨tty, rfl⟩
    exact ⟨tty, .inl rfl⟩
  | cleared out hout =>
    split_ifs
    · exact holds_exit
    · refine (holds_refresh _).bind ?_
      rintro _ ⟨tty, rfl⟩
      exact ⟨tty, .inl rfl⟩
  | short c hclip =>
    refine ⟨(T.write e.tty [c]).2, ?_⟩
    split_ifs
    · exact .inr rfl
    · exact .inl rfl

end PunyGui.Line
