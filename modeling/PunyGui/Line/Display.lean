import PunyGui.Line.Echo
import PunyGui.Line.Navigation

/-!
# What the terminal shows

The row of the terminal on which the line is edited, from key to key.

* `shownPart`, `column`: the part of the line that is shown, and where the cursor is then.
* `Displayed`: the row has the prompt and that part, and the cursor is in that column.
* `refresh_displayed`: `refresh` makes it so, whatever the row had.
* `Watched.perform`: so does every key, however little it writes.
* `rounds_displayed`: it is so before every key of a session.
-/

namespace PunyGui.Line

open Text Libc Imp

variable {T : Terminal} {e e' : Editor T} {cs : Charset} {screen : T.State → Screen cs}
  {p : Bytes}

/-- The part of the line that there is room for behind the prompt. -/
def shownPart (e : Editor T) : Bytes :=
  (e.text.whole.drop (hidden e)).take (e.cols - e.plen).toNat

/-- The column of the cursor. -/
def column (e : Editor T) : ℕ := (e.plen + e.pos - hidden e).toNat

/-- What is to be seen: the prompt and the part of the line. -/
def shownText (e : Editor T) : Bytes := e.prompt ++ shownPart e

/-- The row has it, and nothing behind it, and the cursor is at its place. -/
structure Displayed (screen : T.State → Screen cs) (e : Editor T) : Prop where
  mode : (screen e.tty).mode = .text
  cells : (screen e.tty).row.cells = Zipper.split
    (shownText e ++ List.replicate (e.cols.toNat - (shownText e).length) 0x20) (column e)

/-- The last column is left free: the line ends before it, or is shown up to the cursor. -/
def Spare (e : Editor T) : Prop := e.plen + e.len < e.cols ∨ e.pos = e.len

/-- The strings of the history are printable. -/
def Printed (cs : Charset) (e : Editor T) : Prop :=
  ∀ i s, 0 ≤ i → i < e.historyCount → e.history i = some s → ∀ c ∈ s, cs.printable c = true

/-- A line that can be shown behind the prompt `p`: the bytes are printable, and the prompt is
    shorter than the row, but not empty. -/
structure Showable (screen : T.State → Screen cs) (p : Bytes) (e : Editor T) : Prop where
  invariant : Invariant e
  prompt_eq : e.prompt = p
  plen_eq : e.plen = e.prompt.length
  plen_pos : 0 < e.plen
  plen_lt : e.plen < e.cols
  cols_eq : e.cols = (screen e.tty).row.width
  mode : (screen e.tty).mode = .text
  prompt : ∀ c ∈ e.prompt, cs.printable c = true
  text : ∀ c ∈ e.text.whole, cs.printable c = true
  history : Printed cs e

theorem Showable.setTty (h : Showable screen p e) {tty : T.State}
    (hmode : (screen tty).mode = .text)
    (hwidth : (screen tty).row.width = (screen e.tty).row.width) :
    Showable screen p { e with tty } where
  invariant := h.invariant
  prompt_eq := h.prompt_eq
  plen_eq := h.plen_eq
  plen_pos := h.plen_pos
  plen_lt := h.plen_lt
  cols_eq := h.cols_eq.trans (congrArg Nat.cast hwidth.symm)
  mode := hmode
  prompt := h.prompt
  text := h.text
  history := h.history

/-! ## Drawing the line -/

/-- The part of the line that `refresh` pushes is the one there is room for. -/
theorem cells_window (h : TextOk e.buf e.len e.pos) (hplen : e.plen < e.cols) :
    cells e.buf (hidden e) (min (e.len - hidden e) (e.cols - e.plen)).toNat = shownPart e := by
  have hlen := len_eq_length h
  have h₀ := h.pos_nonneg
  have h₁ := h.pos_le
  have hcells := (spells_text h).cells_eq
  have hhidden : (hidden e : ℤ) ≤ e.len := by
    rw [hidden]
    omega
  have hpart : shownPart e =
      (e.text.whole.drop (hidden e)).take (min (e.len - hidden e) (e.cols - e.plen)).toNat := by
    rw [shownPart]
    refine List.take_eq_take_iff.2 ?_
    rw [List.length_drop]
    omega
  rw [hpart, ← hcells]
  refine List.ext_getElem ?_ fun i hi₁ hi₂ => ?_
  · simp only [length_cells, List.length_take, List.length_drop]
    omega
  · rw [getElem_cells, List.getElem_take, List.getElem_drop, getElem_cells]
    congr 1
    push_cast
    ring

theorem length_shownText (h : TextOk e.buf e.len e.pos) (hplen : e.plen = e.prompt.length) :
    (shownText e).length =
      e.prompt.length + min (e.len - hidden e).toNat (e.cols - e.plen).toNat := by
  have hlen := len_eq_length h
  rw [shownText, List.length_append, shownPart, List.length_take, List.length_drop, hlen]
  omega

/-- The last column is left free exactly if the text that is shown ends before it. -/
theorem spare_iff (h : Showable screen p e) : Spare e ↔ (shownText e).length < e.cols := by
  have h₀ := h.invariant.1.pos_nonneg
  have h₁ := h.invariant.1.pos_le
  have h₂ := h.plen_lt
  have h₃ := h.plen_eq
  rw [length_shownText h.invariant.1 h.plen_eq, Spare, hidden]
  omega

/-- `refresh` draws the line, whatever the row had. -/
theorem refresh_displayed (hT : T.Displays screen) (h : Showable screen p e) (hs : Spare e) :
    ∃ tty, refresh e = .ok { e with tty } ∧ Displayed screen { e with tty } ∧
      Showable screen p { e with tty } := by
  have h₀ := h.invariant.1.pos_nonneg
  have h₁ := h.invariant.1.pos_le
  have hplen := h.plen_pos
  have hlt := h.plen_lt
  have hwidth := h.cols_eq
  have hlength := (spare_iff h).1 hs
  have hclip : ¬Clipped e := by
    rw [Clipped]
    omega
  have hcol : column e < (screen e.tty).row.width ∧ 1 ≤ column e := by
    rw [column, hidden]
    omega
  have hprint : ∀ c ∈ shownText e, cs.printable c = true := by
    intro c hc
    rcases List.mem_append.1 hc with hc | hc
    · exact h.prompt c hc
    · exact h.text c (List.mem_of_mem_drop (List.mem_of_mem_take hc))
  obtain ⟨r', hfeed, hcells⟩ := Screen.feed_redraw (r := (screen e.tty).row) hprint
    (by omega) hcol.2 hcol.1
  have hscreen : screen e.tty = ⟨(screen e.tty).row, .text⟩ := Screen.ext rfl h.mode
  rw [← hscreen] at hfeed
  -- The bytes that are written.
  have hbytes : refreshBytes e ⟨hidden e, min (e.len - hidden e) (e.cols - e.plen),
      e.pos - hidden e⟩ = Screen.redrawSeq (shownText e) (column e) := by
    have hpos : 0 ≤ e.pos - hidden e + e.plen := by
      rw [hidden]
      omega
    rw [refreshBytes_eq hpos]
    simp only
    rw [cells_window h.invariant.1 hlt, shownText, column, add_comm e.plen, add_sub_right_comm]
  have htty := hT.screen_write hfeed
  have hmode := congrArg Screen.mode htty
  refine ⟨(T.write e.tty (Screen.redrawSeq (shownText e) (column e))).2, ?_, ⟨hmode, ?_⟩,
    h.setTty hmode ?_⟩
  · rw [refresh_eq_window, window_eq, ok_bind, if_neg (mt (clipped_iff h₀ h₁).1 hclip), hbytes,
      if_neg (hT.write_ne _ _)]
  · have hcols : e.cols.toNat = (screen e.tty).row.width := by omega
    rw [← hcols] at hcells
    exact (congrArg (fun s => s.row.cells) htty).trans hcells
  · rw [htty]
    exact Screen.feed_width hfeed

/-! ## The keys -/

/-- What is known of the terminal and the prompt goes over to another line. -/
theorem Showable.edited {t : Zipper UInt8} (h : Showable screen p e) (hedit : Edited e t e')
    (ht : ∀ c ∈ t.whole, cs.printable c = true) : Showable screen p e' := by
  have htext := hedit.text_eq
  have hinv := hedit.invariant h.invariant
  obtain ⟨_, _, _, rfl⟩ := hedit.frame
  exact ⟨hinv, h.prompt_eq, h.plen_eq, h.plen_pos, h.plen_lt, h.cols_eq, h.mode, h.prompt,
    htext ▸ ht, h.history⟩

/-- A line that fits on the row is shown as a whole. -/
theorem shown_of_fits (h : Showable screen p e) (hfits : e.plen + e.len < e.cols) :
    shownText e = e.prompt ++ e.text.whole ∧
      column e = (e.prompt ++ e.text.before).length := by
  have hlen := len_eq_length h.invariant.1
  have hpos := pos_eq_length h.invariant.1
  have h₁ := h.invariant.1.pos_le
  have hplen := h.plen_eq
  have hhidden : hidden e = 0 := by
    rw [hidden]
    omega
  constructor
  · rw [shownText, shownPart, hhidden, List.drop_zero, List.take_of_length_le (by omega)]
  · rw [column, hhidden, List.length_append]
    omega

/-- At the end of such a line, the row has the prompt, the line and blanks. -/
theorem displayed_iff_shows (h : Showable screen p e) (hpos : e.pos = e.len)
    (hfits : e.plen + e.len < e.cols) :
    Displayed screen e ↔ (screen e.tty).Shows (e.prompt ++ e.text.whole) := by
  obtain ⟨htext, hcolumn⟩ := shown_of_fits h hfits
  have hwhole : e.text.before = e.text.whole := by
    rw [Zipper.whole, (pos_eq_len_iff h.invariant.1).1 hpos, List.append_nil]
  rw [hwhole] at hcolumn
  constructor
  · intro hd
    have hcells := hd.cells
    rw [htext, hcolumn, Zipper.split_append] at hcells
    exact ⟨hd.mode, _, hcells⟩
  · rintro ⟨hmode, n, hcells⟩
    have hwidth : e.cols.toNat = (e.prompt ++ e.text.whole).length + n := by
      rw [h.cols_eq, Int.toNat_natCast, Row.width, hcells, Zipper.whole, List.length_append,
        List.length_replicate]
    refine ⟨hmode, ?_⟩
    rw [htext, hcolumn, Zipper.split_append, hwidth, Nat.add_sub_cancel_left, hcells]

/-- Where the loop is, the row shows the line, if that leaves the last column free. -/
def Loop.Shown (screen : T.State → Screen cs) (p : Bytes) (l : Loop T) : Prop :=
  Spare l.editor → Showable screen p l.editor ∧ Displayed screen l.editor

/-- A key that draws the line again. -/
theorem holds_goOn_refresh (hT : T.Displays screen) (h : Showable screen p e) :
    Holds (Loop.Shown screen p) (goOn (refresh e)) := by
  by_cases hs : Spare e
  · obtain ⟨tty, hrefresh, hd, h'⟩ := refresh_displayed hT h hs
    rw [hrefresh]
    exact fun _ => ⟨h', hd⟩
  · refine (holds_refresh e).bind ?_
    rintro _ ⟨tty, rfl⟩
    exact fun hs' => absurd hs' hs

variable (env : Option (List Slots))

/-- A byte that is typed is written on its own, or with the line. -/
theorem Showable.perform_char (hT : T.Displays screen) (h : Showable screen p e)
    (hd : Displayed screen e) {c : UInt8} (h₀ : 0x20 ≤ c) (h₁ : c < 0x7F) :
    Holds (Loop.Shown screen p) (perform env (.char c) e) := by
  have hprint := cs.ascii h₀ h₁
  by_cases hroom : e.len < lineMax - 1
  · obtain ⟨e', hedit, hinsert⟩ := insert_of_lt h.invariant.1 hroom c true
    have h' : Showable screen p e' := by
      refine h.edited hedit fun b hb => ?_
      simp only [Zipper.whole, Zipper.insert, List.mem_append, List.mem_singleton] at hb
      rcases hb with (hb | rfl) | hb
      · exact h.text b (List.mem_append_left _ hb)
      · exact hprint
      · exact h.text b (List.mem_append_right _ hb)
    rw [perform, hinsert]
    split_ifs with hecho hwrite
    · exact absurd hwrite (hT.write_ne _ _)
    · intro _
      obtain ⟨hpos, -, hfits⟩ := hecho
      have hon : OnScreen screen e := ⟨h.invariant.1, hpos.symm, h.plen_eq, h.cols_eq,
        (displayed_iff_shows h hpos.symm (by omega)).1 hd⟩
      obtain ⟨s, hs, hfeed, -⟩ := hon.shows.echo hprint (by
        have hlen := len_eq_length h.invariant.1
        have hplen := h.plen_eq
        have hcols := h.cols_eq
        rw [List.length_append]
        omega)
      have hwidth := Screen.feed_width hfeed
      rw [← hT.screen_write hfeed] at hs hwidth
      obtain ⟨-, hlen, hon'⟩ := hon.insert hedit hwidth hs
      obtain ⟨htty, -, hplen, hcols⟩ := hedit.terminal_eq
      have h'' := h'.setTty hs.1 (by rw [hwidth, htty])
      refine ⟨h'', (displayed_iff_shows h'' hon'.at_end ?_).2 hon'.shows⟩
      simp only
      omega
    · have hgoOn := holds_goOn_refresh hT h'
      rw [goOn] at hgoOn
      rw [bind_assoc]
      exact hgoOn
  · rw [perform, insert_of_full hroom]
    exact fun _ => ⟨h, hd⟩

/-- A key that changes the line, or moves the cursor in it. -/
theorem Showable.perform_edit (hT : T.Displays screen) (h : Showable screen p e)
    (hd : Displayed screen e) (op : Edit) :
    Holds (Loop.Shown screen p) (perform env (.edit op) e) := by
  by_cases hop : op.AtLimit e.text
  · rw [perform, Edit.run_of_atLimit h.invariant.1 hop]
    exact fun _ => ⟨h, hd⟩
  · obtain ⟨e', hedit, hrun⟩ := Edit.run_eq h.invariant.1 hop
    rw [perform, hrun]
    refine holds_goOn_refresh hT (h.edited hedit fun b hb => ?_)
    exact h.text b ((op.whole_apply_sublist e.text).subset hb)

/-! ## The history -/

/-- The line is put back, and the string `s` at index `i` takes its place. -/
def recalled (e : Editor T) (i : ℤ) (s : Bytes) : Editor T :=
  { e with
    history := Function.update e.history e.historyi (some e.text.whole)
    historyi := i
    buf := copied e.buf s
    len := s.length
    pos := s.length }

theorem historyEntry_of_eq {i : ℤ} {s : Bytes} (h₀ : 0 ≤ i) (h₁ : i < historyMax)
    (hs : e.history i = some s) : historyEntry e i = .ok s := by
  rw [historyEntry, Imp.load_eq h₀ h₁, ok_bind, hs]
  rfl

/-- A string that is copied to the buffer becomes the line. -/
theorem invariant_recalled (h : Invariant e) (h₀ : 0 ∉ e.text.whole) {i : ℤ} {s : Bytes}
    (hi : IndexOk e.historyCount i) (hs : s.length ≤ lineMax - 1) :
    Invariant (recalled e i s) ∧ (recalled e i s).text = loaded s := by
  obtain ⟨ht, hh, -⟩ := h
  have hlength : e.text.whole.length ≤ lineMax - 1 := Nat.le_pred_of_lt (length_lt ht)
  have hzero := copied_length hs ht.last
  have hlast : copied e.buf s (lineMax - 1) = 0 := copy_last ht.last s
  have htext := textOk_update hlast hs (Int.natCast_nonneg s.length) le_rfl
  rw [Function.update_eq_self_iff.2 hzero.symm] at htext
  exact ⟨⟨htext, hh.update _ ⟨h₀, hlength⟩, hi⟩, (spells_copied hs e.buf).text_eq⟩

/-- A move in the history draws the string that takes the place of the line. -/
theorem historymove_eq (h : Invariant e) (h₀ : 0 ∉ e.text.whole) (delta : ℤ) :
    historymove delta e = .ok e ∨ ∃ i s, historymove delta e = refresh (recalled e i s) ∧
      Invariant (recalled e i s) ∧ (recalled e i s).history i = some s ∧
        (recalled e i s).text = loaded s := by
  obtain ⟨ht, hh, hi⟩ := id h
  rw [historymove]
  split_ifs with hcount
  · right
    obtain ⟨s₀, hs₀, -⟩ := hh.entries _ hi.nonneg hi.lt
    have hlength : e.text.whole.length ≤ lineMax - 1 := Nat.le_pred_of_lt (length_lt ht)
    have hi' := hi.move (e.historyi + delta)
    obtain ⟨s, hs, hs₀', hs'⟩ := (hh.update e.historyi ⟨h₀, hlength⟩).entries _ hi'.nonneg hi'.lt
    obtain ⟨hinv, htext⟩ := invariant_recalled h h₀ hi' hs'
    have hlt : (s.length : ℤ) < lineMax := hinv.1.len_le.trans_lt (by decide)
    have hsame : Function.update (copied e.buf s) s.length 0 = copied e.buf s :=
      Function.update_eq_self_iff.2 (copied_length hs' ht.last).symm
    refine ⟨_, s, ?_, hinv, hs, htext⟩
    rw [historyEntry_of_eq hi.nonneg (hi.lt.trans_le hh.count_le) hs₀, ok_bind, cstring_eq_text ht,
      cString_eq_self_iff.2 h₀, ok_bind, storeHistory_eq hi.nonneg (hi.lt.trans_le hh.count_le),
      ok_bind]
    dsimp only
    rw [historyEntry_of_eq hi'.nonneg (hi'.lt.trans_le hh.count_le) hs, ok_bind,
      strncpy_eq_copied, ok_bind, Editor.cstring, cstring_copied hs' ht.last hs₀', ok_bind,
      store_eq (Int.natCast_nonneg _) hlt, ok_bind]
    simp only [hsame]
    rfl
  · exact .inl rfl

theorem Showable.zero_notMem (h : Showable screen p e) : 0 ∉ e.text.whole := by
  intro h₀
  have hprint := h.text 0 h₀
  rw [cs.control (by decide)] at hprint
  cases hprint

/-- The string that takes the place of the line can be shown as well. -/
theorem Showable.recalled (h : Showable screen p e) {i : ℤ} {s : Bytes}
    (hinv : Invariant (recalled e i s)) (hs : (recalled e i s).history i = some s)
    (htext : (recalled e i s).text = loaded s) : Showable screen p (recalled e i s) := by
  have hput (j : ℤ) (s' : Bytes) (h₀ : 0 ≤ j) (h₁ : j < e.historyCount)
      (hj : Function.update e.history e.historyi (some e.text.whole) j = some s') :
      ∀ c ∈ s', cs.printable c = true := by
    rw [Function.update_apply] at hj
    split_ifs at hj
    · obtain rfl := Option.some.inj hj
      exact h.text
    · exact h.history j s' h₀ h₁ hj
  refine ⟨hinv, h.prompt_eq, h.plen_eq, h.plen_pos, h.plen_lt, h.cols_eq, h.mode, h.prompt, ?_,
    hput⟩
  rw [htext, loaded, Zipper.whole, List.append_nil]
  exact hput i s hinv.2.2.nonneg hinv.2.2.lt hs

/-- A key that moves in the history. -/
theorem Showable.perform_move (hT : T.Displays screen) (h : Showable screen p e)
    (hd : Displayed screen e) (delta : ℤ) :
    Holds (Loop.Shown screen p) (perform env (.move delta) e) := by
  rcases historymove_eq h.invariant h.zero_notMem delta with heq | ⟨i, s, heq, hinv, hs, htext⟩
  · rw [perform, heq]
    exact fun _ => ⟨h, hd⟩
  · rw [perform, heq]
    exact holds_goOn_refresh hT (h.recalled hinv hs htext)

/-- A key that ends the line. -/
theorem Showable.returned (h : Showable screen p e) (hd : Displayed screen e) (code linesBelow : ℤ)
    (sigintFlag : Bool) :
    Loop.Shown screen p (.returned code { e with linesBelow, sigintFlag }) := fun _ =>
  ⟨⟨h.invariant, h.prompt_eq, h.plen_eq, h.plen_pos, h.plen_lt, h.cols_eq, h.mode, h.prompt,
    h.text, h.history⟩, hd.mode, hd.cells⟩

/-- Every key leaves the line on the row, but for those that write more than the line. -/
theorem Showable.perform (hT : T.Displays screen) (h : Showable screen p e)
    (hd : Displayed screen e) {c : Command} (hchar : ∀ b, c = .char b → 0x20 ≤ b ∧ b < 0x7F)
    (hclear : c ≠ .clear) (hcomplete : c ≠ .complete) :
    Holds (Loop.Shown screen p) (perform env c e) := by
  cases c with
  | closed => exact h.returned hd (-1) e.linesBelow e.sigintFlag
  | interrupt => exact h.returned hd (-1) 0 true
  | enter => exact h.returned hd 0 0 e.sigintFlag
  | nothing => exact fun _ => ⟨h, hd⟩
  | eof =>
    by_cases hlen : e.len = 0
    · rw [Line.perform, if_pos hlen]
      exact h.returned hd (-1) 0 e.sigintFlag
    · rw [Line.perform, if_neg hlen]
      exact h.perform_edit env hT hd .delete
  | char b => exact h.perform_char env hT hd (hchar b rfl).1 (hchar b rfl).2
  | edit op => exact h.perform_edit env hT hd op
  | complete => exact absurd rfl hcomplete
  | clear => exact absurd rfl hclear
  | redraw => exact holds_goOn_refresh hT h
  | move delta => exact h.perform_move env hT hd delta

/-! ## Sessions -/

/-- A byte is typed by a key of its own. -/
theorem decode_char {tty : T.State} {c : UInt8} (h : (decode T tty).1 = .char c) :
    0x20 ≤ c ∧ c < 0x7F := by
  rw [decode] at h
  rcases hread : T.read tty with ⟨b | _ | _, tty'⟩
  · rw [hread] at h
    simp only at h
    split_ifs at h
    · exact absurd h (decodeEscape_ne_char tty' c)
    · have hkey : ∀ b, keyCommand b = .char c → 0x20 ≤ c ∧ c < 0x7F := by
        intro b
        fun_cases keyCommand b
        case case18 hprint =>
          intro hb
          cases hb
          exact hprint
        all_goals
          intro hb
          cases hb
      exact hkey b h
  · rw [hread] at h
    cases h
  · rw [hread] at h
    cases h

theorem printed_iff {H : List Bytes} (hH : Lists e.history e.historyCount H) :
    Printed cs e ↔ ∀ s ∈ H, ∀ c ∈ s, cs.printable c = true := by
  constructor
  · intro h s hs
    obtain ⟨i, hi, rfl⟩ := List.getElem_of_mem hs
    refine h i _ (Int.natCast_nonneg i) ?_ (hH.entry hi)
    rw [hH.count_eq]
    exact Int.ofNat_lt.2 hi
  · intro h i s h₀ h₁ hs
    obtain ⟨i, rfl⟩ := Int.eq_ofNat_of_zero_le h₀
    rw [hH.count_eq] at h₁
    have hi : i < H.length := Int.ofNat_lt.1 h₁
    obtain rfl := Option.some.inj ((hH.entry hi).symm.trans hs)
    exact h _ (List.getElem_mem hi)

theorem addhistory_frame (h : addhistory e = .ok e') :
    ∃ history historyCount, e' = { e with history, historyCount } := by
  rw [addhistory] at h
  obtain ⟨s, -, h⟩ := bind_eq_ok.1 h
  split_ifs at h
  · obtain ⟨e₁, hstore, h⟩ := bind_eq_ok.1 h
    obtain ⟨history, -, hstore⟩ := bind_eq_ok.1 hstore
    cases hstore
    obtain ⟨_, hpure, h⟩ := bind_eq_ok.1 h
    cases hpure
    obtain ⟨history', -, h⟩ := bind_eq_ok.1 h
    obtain ⟨history'', -, h⟩ := bind_eq_ok.1 h
    cases h
    exact ⟨_, _, rfl⟩
  · obtain ⟨s', -, h⟩ := bind_eq_ok.1 h
    obtain ⟨_, hpure, h⟩ := bind_eq_ok.1 h
    cases hpure
    obtain ⟨history, -, h⟩ := bind_eq_ok.1 h
    obtain ⟨history', -, h⟩ := bind_eq_ok.1 h
    cases h
    exact ⟨_, _, rfl⟩

theorem lineStart_prompt {l : Loop T} (h : lineStart e = .ok l) : l.editor.prompt = e.prompt := by
  rw [lineStart] at h
  obtain ⟨⟨cols, tty⟩, -, h⟩ := bind_eq_ok.1 h
  obtain ⟨e₁, hstore, h⟩ := bind_eq_ok.1 h
  obtain ⟨e₂, hadd, h⟩ := bind_eq_ok.1 h
  obtain ⟨buf, -, hstore⟩ := bind_eq_ok.1 hstore
  cases hstore
  obtain ⟨history, count, rfl⟩ := addhistory_frame hadd
  cases h
  dsimp only
  split_ifs <;> rfl

/-- An empty row of `w` columns, which is wider than the prompt. -/
structure Blank (screen : T.State → Screen cs) (p : Bytes) (w : ℕ) (e : Editor T) : Prop where
  winsize : T.winsize e.tty = some w
  mode : (screen e.tty).mode = .text
  cells : (screen e.tty).row.cells = ⟨[], List.replicate w 0x20⟩
  prompt_ne : cString p ≠ []
  prompt_lt : (cString p).length < w
  prompt : ∀ c ∈ cString p, cs.printable c = true
  history : Printed cs e

/-- The prompt is written on an empty row. -/
theorem shown_lineStart (hT : T.Displays screen) (h : Idle e) {w : ℕ} (hb : Blank screen p w e) :
    ∃ e', lineStart (beginLine p e) = .ok (.reading e') ∧ Showable screen (cString p) e' ∧
      Displayed screen e' := by
  have hcols : getcols T e.tty = .ok ((w : ℤ), e.tty) := by
    obtain ⟨w, rfl⟩ := Nat.exists_eq_succ_of_ne_zero (Nat.ne_zero_of_lt hb.prompt_lt)
    rw [getcols, hb.winsize]
    rfl
  obtain ⟨H, hH⟩ := exists_lists h.2.1 h.2.2
  obtain ⟨e', hbegun, htty, hstart⟩ := lineStart_eq (e := beginLine p e) h rfl hH hcols
  rw [if_neg (hT.write_ne _ _)] at hstart
  have hprompt : e'.prompt = cString p := lineStart_prompt hstart
  -- What the prompt makes of the row.
  have hwidth : (screen e.tty).row.width = w := by
    rw [Row.width, hb.cells]
    exact List.length_replicate
  obtain ⟨r, hfeed, hcells⟩ := Screen.feed_text (r := (screen e.tty).row) hb.prompt (by
    rw [hb.cells, List.length_replicate]
    exact hb.prompt_lt)
  have hscreen : screen e.tty = ⟨(screen e.tty).row, .text⟩ := Screen.ext rfl hb.mode
  rw [← hscreen] at hfeed
  have hwritten : screen e'.tty = ⟨r, .text⟩ := by
    rw [htty]
    exact hT.screen_write hfeed
  have hplen : e'.plen = (cString p).length := hbegun.plen
  have hpos := List.length_pos_of_ne_nil hb.prompt_ne
  have hshow : Showable screen (cString p) e' := by
    refine ⟨hbegun.invariant, hprompt, ?_, ?_, ?_, ?_, ?_, ?_, ?_, ?_⟩
    · rw [hplen, hprompt]
    · omega
    · rw [hplen, hbegun.cols]
      exact Int.ofNat_lt.2 hb.prompt_lt
    · rw [hbegun.cols, hwritten, ← hwidth, ← Screen.feed_width hfeed]
    · rw [hwritten]
    · rw [hprompt]
      exact hb.prompt
    · rw [hbegun.text]
      exact fun c hc => absurd hc List.not_mem_nil
    · refine (printed_iff hbegun.lists).2 ?_
      intro s hs
      rcases List.mem_cons.1 hs with rfl | hs
      · exact fun c hc => absurd hc List.not_mem_nil
      · exact (printed_iff hH).1 hb.history s (List.mem_of_mem_take hs)
  have hlen : e'.len = 0 := by rw [len_eq_length hbegun.invariant.1, hbegun.text]; rfl
  have hpos : e'.pos = 0 := by rw [pos_eq_length hbegun.invariant.1, hbegun.text]; rfl
  have hfits : e'.plen + e'.len < e'.cols := by rw [hlen, add_zero]; exact hshow.plen_lt
  refine ⟨e', hstart, hshow, (displayed_iff_shows hshow (hpos.trans hlen.symm) hfits).2 ?_⟩
  rw [hprompt, hbegun.text, hwritten]
  refine ⟨rfl, w - (cString p).length, hcells.trans ?_⟩
  rw [hb.cells, List.drop_replicate, List.nil_append]
  exact congrArg (Zipper.mk · _) (List.append_nil _).symm

section Sessions

variable (hread : ∀ tty, screen (T.read tty).2 = screen tty)

include hread

theorem screen_readByte (tty : T.State) : screen (readByte T tty).2 = screen tty := by
  rw [← hread tty, readByte]
  rcases T.read tty with ⟨_ | _ | _, _⟩ <;> rfl

theorem screen_decodeEscape (tty : T.State) : screen (decodeEscape T tty).2 = screen tty := by
  rw [decodeEscape, ← screen_readByte hread tty]
  rcases readByte T tty with ⟨_ | seq₀, tty₀⟩
  · rfl
  simp only
  split_ifs
  · rw [← screen_readByte hread tty₀]
    rcases readByte T tty₀ with ⟨_ | seq₁, tty₁⟩
    · rfl
    simp only
    split_ifs
    · rw [← screen_readByte hread tty₁]
      rcases readByte T tty₁ with ⟨_ | seq₂, tty₂⟩
      · rfl
      · rfl
    · rfl
  · rfl

/-- Reading a key changes nothing on the screen. -/
theorem screen_decode (tty : T.State) : screen (decode T tty).2 = screen tty := by
  rw [decode, ← hread tty]
  rcases T.read tty with ⟨c | _ | _, tty'⟩
  · simp only
    split_ifs
    · exact screen_decodeEscape hread tty'
    · rfl
  · rfl
  · rfl

/-- A round of the loop, with the line on the row. -/
theorem Showable.readKey (hT : T.Displays screen) (h : Showable screen p e)
    (hd : Displayed screen e) (hclear : (decode T e.tty).1 ≠ .clear)
    (hcomplete : (decode T e.tty).1 ≠ .complete) :
    Holds (Loop.Shown screen p) (readKey env e) := by
  have hscreen := screen_decode hread e.tty
  rw [readKey_eq]
  refine (h.setTty ?_ ?_).perform env hT ?_ (fun b => decode_char) hclear hcomplete
  · rw [hscreen, h.mode]
  · rw [hscreen]
  · refine ⟨?_, ?_⟩
    · rw [hscreen, hd.mode]
    · rw [hscreen]
      exact hd.cells

/-- The row with the line on it shows the line before every key of a session, as long as the
    line leaves the last column of the row free. -/
theorem rounds_displayed (hT : T.Displays screen) (h : Idle e) {w : ℕ} (hb : Blank screen p w e)
    {n : ℕ}
    (hkeys : ∀ c ∈ keysRead env (beginLine p e) n, c ≠ .clear ∧ c ≠ .complete)
    (hspare : ∀ m ≤ n, ∀ l, rounds env (beginLine p e) m = .ok l → Spare l.editor) {l : Loop T}
    (hl : rounds env (beginLine p e) n = .ok l) :
    Showable screen (cString p) l.editor ∧ Displayed screen l.editor := by
  induction n generalizing l with
  | zero =>
    obtain ⟨e', hstart, hshown⟩ := shown_lineStart hT h hb
    obtain rfl := Except.ok.inj (hstart.symm.trans hl)
    exact hshown
  | succ n ih =>
    obtain ⟨l₀, hl₀, hround⟩ := bind_eq_ok.1 hl
    simp only [keysRead, hl₀, List.mem_append] at hkeys
    have hshown := ih (fun c hc => hkeys c (.inl hc)) (fun m hm => hspare m (Nat.le_succ_of_le hm))
      hl₀
    cases l₀ with
    | returned code e₀ =>
      cases hround
      exact hshown
    | reading e₀ =>
      obtain ⟨hclear, hcomplete⟩ := hkeys _ (.inr (List.mem_singleton_self _))
      have hstep : Holds (Loop.Shown screen (cString p)) (readKey env e₀) :=
        hshown.1.readKey env hread hT hshown.2 hclear hcomplete
      rw [show readKey env e₀ = .ok l from hround] at hstep
      exact hstep (hspare _ le_rfl l hl)

end Sessions

/-- A screen with a keyboard. -/
def console : Terminal where
  State := Bytes × Screen asciiSet
  read
    | ([], s) => (.eof, ([], s))
    | (c :: cs, s) => (.byte c, (cs, s))
  write s out := (out.length, (s.1, (s.2.feed out).getD s.2))
  winsize s := some s.2.row.width
  junk _ := 0

theorem console_displays : console.Displays Prod.snd where
  write_ne _ _ := by simp only [console]; omega
  screen_write h := congrArg (Option.getD · _) h

theorem screen_console_read (tty : console.State) : (console.read tty).2.2 = tty.2 := by
  obtain ⟨_ | ⟨c, cs⟩, s⟩ := tty
  · rfl
  · rfl

/-- An empty row of ten columns, and keys that are typed. -/
def untouched (keys : Bytes) : Editor console :=
  initial (T := console) (keys, ⟨.ofText [] rfl 9, .text⟩)

theorem blank_untouched (keys : Bytes) :
    Blank (T := console) Prod.snd [0x3E, 0x20] 10 (untouched keys) where
  winsize := rfl
  mode := rfl
  cells := rfl
  prompt_ne := by decide
  prompt_lt := by decide
  prompt := by
    have hp : cString [0x3E, 0x20] = [0x3E, 0x20] := rfl
    simp only [hp, List.forall_mem_cons]
    exact ⟨rfl, rfl, List.forall_mem_nil _⟩
  history i s h₀ h₁ := absurd h₁ (Int.not_lt.2 h₀)

/-- The keys `a`, `b` and ctrl-b. -/
theorem rounds_displayed_console : ∃ l,
    rounds none (beginLine [0x3E, 0x20] (untouched [0x61, 0x62, 0x02])) 3 = .ok l ∧
      Showable (T := console) Prod.snd [0x3E, 0x20] l.editor ∧
        Displayed (T := console) Prod.snd l.editor := by
  obtain ⟨l, hl⟩ : ∃ l, rounds none
      (beginLine [0x3E, 0x20] (untouched [0x61, 0x62, 0x02])) 3 = .ok l := ⟨_, rfl⟩
  refine ⟨l, hl, rounds_displayed none screen_console_read console_displays ?_
    (blank_untouched _) ?_ ?_ hl⟩
  · exact ⟨rfl, ⟨by decide, fun i h₀ h₁ => absurd h₁ (Int.not_lt.2 h₀)⟩, le_rfl⟩
  · have hkeys : keysRead none (beginLine [0x3E, 0x20] (untouched [0x61, 0x62, 0x02])) 3 =
      [.char 0x61, .char 0x62, .edit .left] := rfl
    rw [hkeys]
    simp
  · intro m hm l hl
    have hspare : ((rounds none
        (beginLine [0x3E, 0x20] (untouched [0x61, 0x62, 0x02])) m).toOption.map
          fun l => decide (l.editor.plen + l.editor.len < l.editor.cols)) = some true := by
      interval_cases m <;> rfl
    rw [hl] at hspare
    exact .inl (of_decide_eq_true (Option.some.inj hspare))

end PunyGui.Line
