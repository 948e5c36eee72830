import PunyGui.Line.Text
import PunyGui.Line.Window
import PunyGui.Screen

/-!
# Echo

A byte at the end of a line that fits on the row is written on its own: the line is not drawn
again.

* `Terminal.Displays`: what is written on the terminal goes to a screen.
* `refreshBytes_eq`: `refresh` draws the prompt and a part of the line over the row.
* `OnScreen`: the screen shows the prompt and the line, with the cursor behind it.
* `insert_echo`: the byte makes the screen that `refresh` would.
-/

namespace PunyGui.Line

open Text Libc Imp

variable {T : Terminal} {e e' : Editor T} {cs : Charset} {screen : T.State → Screen cs}

/-- What is written on the terminal goes to the screen. -/
structure Terminal.Displays (T : Terminal) (screen : T.State → Screen cs) : Prop where
  write_ne (tty : T.State) (out : Bytes) : (T.write tty out).1 ≠ -1
  screen_write {tty : T.State} {out : Bytes} {s : Screen cs}
    (h : (screen tty).feed out = some s) : screen (T.write tty out).2 = s

/-- `refresh` draws the prompt and the part of the line. -/
theorem refreshBytes_eq {w : Window} (hpos : 0 ≤ w.pos + e.plen) :
    refreshBytes e w = Screen.redrawSeq (e.prompt ++ cells e.buf w.offset w.len.toNat)
      (w.pos + e.plen).toNat := by
  obtain ⟨n, hn⟩ := Int.eq_ofNat_of_zero_le hpos
  simp only [refreshBytes, hn, Screen.redrawSeq, Screen.eraseSeq, Screen.forwardSeq, formatInt,
    cells, List.append_assoc, List.cons_append, List.nil_append, Int.toNat_natCast]

/-- The row has the prompt and the line, and the cursor is at the end of the line. -/
structure OnScreen (screen : T.State → Screen cs) (e : Editor T) : Prop where
  line : TextOk e.buf e.len e.pos
  at_end : e.pos = e.len
  plen_eq : e.plen = e.prompt.length
  cols_eq : e.cols = (screen e.tty).row.width
  shows : (screen e.tty).Shows (e.prompt ++ e.text.whole)

/-- A line that ends before the last column is drawn as a whole. -/
theorem refresh_of_fits (hT : T.Displays screen) (h : TextOk e.buf e.len e.pos)
    (hpos : e.pos = e.len) (hplen : e.plen = e.prompt.length) (hfits : e.plen + e.len < e.cols)
    {s : Screen cs} (hs : (screen e.tty).feed (Screen.redrawSeq (e.prompt ++ e.text.whole)
      (e.prompt ++ e.text.whole).length) = some s) :
    ∃ tty, refresh e = .ok { e with tty } ∧ screen tty = s := by
  have hlen := len_eq_length h
  obtain ⟨t, ht⟩ : ∃ t, t = e.prompt ++ e.text.whole := ⟨_, rfl⟩
  rw [← ht] at hs
  have hhidden : hidden e = 0 := by
    rw [hidden]
    omega
  have hwindow : window e = .ok ⟨0, e.len, e.len⟩ := by
    rw [window_eq, hhidden, hpos, Nat.cast_zero, sub_zero, min_eq_left (by omega)]
  have hbytes : refreshBytes e ⟨0, e.len, e.len⟩ = Screen.redrawSeq t t.length := by
    have hcol : (e.len + e.plen).toNat = t.length := by
      rw [ht, List.length_append]
      omega
    rw [refreshBytes_eq (by simp only; omega)]
    simp only
    rw [hcol, hlen, Int.toNat_natCast, (spells_text h).cells_eq, ht]
  refine ⟨(T.write e.tty (Screen.redrawSeq t t.length)).2, ?_, hT.screen_write hs⟩
  rw [refresh_eq_window, hwindow, ok_bind, hbytes, if_neg (hT.write_ne e.tty _)]
  exact if_neg (by simp only; omega)

/-- With a byte more in the line and on the screen, the cursor is again at the end of both. -/
theorem OnScreen.insert (h : OnScreen screen e) {c : UInt8} {e₀ : Editor T}
    (hedit : Edited e (e.text.insert c) e₀) {tty : T.State}
    (hwidth : (screen tty).row.width = (screen e.tty).row.width)
    (hshows : (screen tty).Shows (e.prompt ++ e.text.whole ++ [c])) :
    e₀.text.whole = e.text.whole ++ [c] ∧ e₀.len = e.len + 1 ∧
      OnScreen screen { e₀ with tty } := by
  have hafter : e.text.after = [] := (pos_eq_len_iff h.line).1 h.at_end
  have htext : e₀.text.whole = e.text.whole ++ [c] := by
    rw [hedit.text_eq, Zipper.whole, Zipper.whole, Zipper.insert, hafter, List.append_nil,
      List.append_nil]
  obtain ⟨-, hprompt, hplen, hcols⟩ := hedit.terminal_eq
  refine ⟨htext, ?_, hedit.line, ?_, ?_, ?_, ?_⟩
  · rw [len_eq_length hedit.line, htext, List.length_append, len_eq_length h.line]
    rfl
  · refine (pos_eq_len_iff hedit.line).2 ?_
    rw [hedit.text_eq]
    exact hafter
  · rw [hplen, hprompt, h.plen_eq]
  · rw [hcols, hwidth, h.cols_eq]
  · rw [List.append_assoc, ← htext, ← hprompt] at hshows
    exact hshows

/-- Behind a line that fits on the row, a printable byte of ASCII that is written on its own
    makes the row and the cursor that `refresh` would. -/
theorem insert_echo (hT : T.Displays screen) (h : OnScreen screen e) {c : UInt8}
    (h₀ : 0x20 ≤ c) (h₁ : c < 0x7F) (hroom : e.len < lineMax - 1)
    (hfits : e.plen + (e.len + 1) < e.cols) :
    ∃ e₀ tty, Edited e (e.text.insert c) e₀ ∧
      insert c true e = .ok (0, { e₀ with tty := (T.write e.tty [c]).2 }) ∧
      refresh e₀ = .ok { e₀ with tty } ∧ screen (T.write e.tty [c]).2 = screen tty ∧
      OnScreen screen { e₀ with tty } := by
  have hlen := len_eq_length h.line
  have hplen := h.plen_eq
  have hcols := h.cols_eq
  -- What the byte, and what drawing the line with it, makes of the screen.
  obtain ⟨s, hshows, hbyte, hdraw⟩ := h.shows.echo (cs.ascii h₀ h₁) (by
    rw [List.length_append]
    omega)
  have hecho := hT.screen_write hbyte
  have hwidth := Screen.feed_width hbyte
  -- What the editor does to the line.
  obtain ⟨e₀, hedit, hinsert⟩ := insert_of_lt h.line hroom c true
  rw [if_pos ⟨h.at_end.symm, rfl, hfits⟩, if_neg (hT.write_ne e.tty [c])] at hinsert
  rw [← hecho] at hshows hwidth
  obtain ⟨htext, hlen₀, hscreen⟩ := h.insert hedit hwidth hshows
  obtain ⟨htty, hprompt, hplen₀, hcols₀⟩ := hedit.terminal_eq
  rw [List.append_assoc, ← htext, ← hprompt, ← htty] at hdraw
  obtain ⟨tty, hrefresh, hs⟩ := refresh_of_fits hT hedit.line hscreen.at_end hscreen.plen_eq
    (by rw [hplen₀, hcols₀, hlen₀]; exact hfits) hdraw
  have hsame := hecho.trans hs.symm
  rw [hsame] at hshows hwidth
  exact ⟨e₀, tty, hedit, hinsert, hrefresh, hsame, (h.insert hedit hwidth hshows).2.2⟩

/-- The characters of ASCII. -/
def asciiSet : Charset where
  printable c := 0x20 ≤ c && c < 0x7F
  ascii h₀ h₁ := by rw [decide_eq_true h₀, decide_eq_true h₁, Bool.and_self]
  control h := by rw [decide_eq_false (UInt8.not_le.2 h), Bool.false_and]

/-- A terminal that is a screen. Nothing is typed on it. -/
def display : Terminal where
  State := Screen asciiSet
  read s := (.eof, s)
  write s out := (out.length, (s.feed out).getD s)
  winsize s := some s.row.width
  junk _ := 0

theorem display_displays : display.Displays (fun s => s) where
  write_ne _ _ := by simp only [display]; omega
  screen_write h := congrArg (Option.getD · _) h

/-- On a row of ten columns, the prompt `> ` and the line `hello`. -/
def hello : Editor display :=
  { initial (T := display)
      ⟨.ofText (ascii ['>', ' ', 'h', 'e', 'l', 'l', 'o']) (by decide) 2, .text⟩ with
    buf i := (ascii ['h', 'e', 'l', 'l', 'o']).getD i.toNat 0, len := 5, pos := 5, cols := 10 }

theorem onScreen_hello : OnScreen (T := display) (fun s => s) hello where
  line := ⟨by decide, by decide, by decide, rfl, rfl⟩
  at_end := rfl
  plen_eq := rfl
  cols_eq := rfl
  shows := ⟨rfl, 3, rfl⟩

theorem insert_echo_hello : ∃ e₀ tty, Edited hello (hello.text.insert 0x21) e₀ ∧
    insert 0x21 true hello = .ok (0, { e₀ with tty := (display.write hello.tty [0x21]).2 }) ∧
    refresh e₀ = .ok { e₀ with tty } ∧ (display.write hello.tty [0x21]).2 = tty ∧
    OnScreen (T := display) (fun s => s) { e₀ with tty } :=
  insert_echo display_displays onScreen_hello (by decide) (by decide) (by decide) (by decide)

end PunyGui.Line
