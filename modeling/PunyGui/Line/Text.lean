import PunyGui.Line.State
import PunyGui.Zipper

/-!
# The text of the line

What the editing functions do to the line, seen as the text before the cursor and
the text after it.

* `Spells`: an array, a length and a cursor spell a text.
* `Edited e t e'`: the globals `e'` are those of `e`, with the text `t`.
* `insert_of_lt`, `kbackspace_of_pos`, ...: what every function does to the text.
-/

namespace PunyGui.Line

open Text Libc Imp

variable {T : Terminal} {e e' : Editor T}

/-- The text before the cursor, and the text after it. -/
def Editor.text (e : Editor T) : Zipper UInt8 :=
  ⟨cells e.buf 0 e.pos.toNat, cells e.buf e.pos (e.len - e.pos).toNat⟩

/-- The array spells the text, and the cursor stands in it. -/
structure Spells (buf : ℤ → UInt8) (len pos : ℤ) (t : Zipper UInt8) : Prop where
  pos_eq : pos = t.before.length
  len_eq : len = t.whole.length
  cells_eq : cells buf 0 t.whole.length = t.whole

section Spells

variable {buf buf' : ℤ → UInt8} {len pos : ℤ} {t : Zipper UInt8} {l r : Bytes}

theorem spells_mk (hpos : pos = l.length) (hlen : len = l.length + r.length)
    (hl : cells buf 0 l.length = l) (hr : cells buf l.length r.length = r) :
    Spells buf len pos ⟨l, r⟩ where
  pos_eq := hpos
  len_eq := by
    rw [hlen, Zipper.whole, List.length_append]
    push_cast
    rfl
  cells_eq := by
    rw [Zipper.whole, List.length_append, cells_add, hl, zero_add, hr]

theorem Spells.length_eq (h : Spells buf len pos t) :
    len = t.before.length + t.after.length := by
  rw [h.len_eq, Zipper.whole, List.length_append]
  push_cast
  rfl

theorem Spells.before_eq (h : Spells buf len pos t) :
    cells buf 0 t.before.length = t.before := by
  have hc := h.cells_eq
  rw [Zipper.whole, List.length_append, cells_add] at hc
  exact (List.append_inj hc length_cells).1

theorem Spells.after_eq (h : Spells buf len pos t) :
    cells buf t.before.length t.after.length = t.after := by
  have hc := h.cells_eq
  rw [Zipper.whole, List.length_append, cells_add, zero_add] at hc
  exact (List.append_inj hc length_cells).2

theorem Spells.text_eq (h : Spells e.buf e.len e.pos t) : e.text = t := by
  rw [Editor.text, h.length_eq, h.pos_eq, Int.toNat_natCast, add_sub_cancel_left,
    Int.toNat_natCast, h.before_eq, h.after_eq]

/-- A line in the buffer spells its text. -/
theorem spells_text (h : TextOk e.buf e.len e.pos) : Spells e.buf e.len e.pos e.text := by
  have h₀ := Int.toNat_of_nonneg h.pos_nonneg
  have h₁ := Int.toNat_of_nonneg (sub_nonneg.2 h.pos_le)
  refine spells_mk ?_ ?_ ?_ ?_
  · rw [length_cells, h₀]
  · rw [length_cells, length_cells, h₀, h₁, add_sub_cancel]
  · rw [length_cells]
  · rw [length_cells, length_cells, h₀]

/-- The cursor goes to another place in the same text. -/
theorem Spells.moveTo (h : Spells buf len pos t) {t' : Zipper UInt8} (ht : t'.whole = t.whole) :
    Spells buf len t'.before.length t' where
  pos_eq := rfl
  len_eq := by rw [ht, h.len_eq]
  cells_eq := by rw [ht, h.cells_eq]

/-- A byte at the end of the line. -/
theorem Spells.append (h : Spells buf len pos t) (hpos : len = pos) (c : UInt8) :
    Spells (Function.update (Function.update buf pos c) (len + 1) 0) (len + 1) (pos + 1)
      (t.insert c) := by
  have hp := h.pos_eq
  have hl := h.length_eq
  refine spells_mk ?_ ?_ ?_ ?_
  · rw [hp, List.length_append]
    rfl
  · rw [hl, List.length_append]
    push_cast [List.length_singleton]
    ring
  · rw [List.length_append, List.length_singleton, cells_concat]
    congr 1
    · refine (cells_congr fun k hk => ?_).trans h.before_eq
      rw [Function.update_of_ne (by omega), Function.update_of_ne (by omega)]
    · rw [Function.update_of_ne (by omega), zero_add, ← hp, Function.update_self]
  · have hr : t.after = [] := List.length_eq_zero_iff.1 (by omega)
    rw [hr]
    rfl

/-- A byte before the cursor, in front of those that are moved on. -/
theorem Spells.insert (h : Spells buf len pos t) (c : UInt8) :
    Spells (Function.update (Function.update (fun i => if pos + 1 ≤ i ∧ i < pos + 1 + (len - pos)
      then buf (i - (pos + 1) + pos) else buf i) pos c) (len + 1) 0) (len + 1) (pos + 1)
      (t.insert c) := by
  have hp := h.pos_eq
  have hl := h.length_eq
  refine spells_mk ?_ ?_ ?_ ?_
  · rw [hp, List.length_append]
    rfl
  · rw [hl, List.length_append]
    push_cast [List.length_singleton]
    ring
  · rw [List.length_append, List.length_singleton, cells_concat]
    congr 1
    · refine (cells_congr fun k hk => ?_).trans h.before_eq
      rw [Function.update_of_ne (by omega), Function.update_of_ne (by omega), if_neg (by omega)]
    · rw [Function.update_of_ne (by omega), zero_add, ← hp, Function.update_self]
  · refine (cells_congr fun k hk => ?_).trans h.after_eq
    rw [List.length_append, List.length_singleton, Function.update_of_ne (by omega),
      Function.update_of_ne (by omega), if_pos (by omega)]
    congr 1
    omega

theorem Spells.backspace (h : Spells buf len pos t) (hpos : 0 < pos) :
    Spells (Function.update (fun i => if pos - 1 ≤ i ∧ i < pos - 1 + (len - pos)
      then buf (i - (pos - 1) + pos) else buf i) (len - 1) 0) (len - 1) (pos - 1)
      t.backspace := by
  have hp := h.pos_eq
  have hl := h.length_eq
  obtain ⟨n, hn⟩ : ∃ n, t.before.length = n + 1 := ⟨t.before.length - 1, by omega⟩
  have hd : t.before.dropLast.length = n := by rw [List.length_dropLast, hn, Nat.add_sub_cancel]
  refine spells_mk (by omega) (by omega) ?_ ?_
  · have hb := h.before_eq
    rw [hn, cells_concat] at hb
    rw [hd]
    refine (cells_congr fun k hk => ?_).trans (by rw [← hb, List.dropLast_concat])
    rw [Function.update_of_ne (by omega), if_neg (by omega)]
  · refine (cells_congr fun k hk => ?_).trans h.after_eq
    rw [hd, Function.update_of_ne (by omega), if_pos (by omega)]
    congr 1
    omega

theorem Spells.delete (h : Spells buf len pos t) (hpos : pos ≠ len) :
    Spells (Function.update (fun i => if pos ≤ i ∧ i < pos + (len - pos)
      then buf (i - pos + (pos + 1)) else buf i) (len - 1) 0) (len - 1) pos t.delete := by
  have hp := h.pos_eq
  have hl := h.length_eq
  obtain ⟨n, hn⟩ : ∃ n, t.after.length = n + 1 := ⟨t.after.length - 1, by omega⟩
  have hd : t.after.tail.length = n := by rw [List.length_tail, hn, Nat.add_sub_cancel]
  refine spells_mk hp (by omega) ?_ ?_
  · refine (cells_congr fun k hk => ?_).trans h.before_eq
    rw [Function.update_of_ne (by omega), if_neg (by omega)]
  · have ha := h.after_eq
    rw [hn, cells_cons] at ha
    rw [hd]
    refine (cells_congr fun k hk => ?_).trans (by rw [← ha, List.tail_cons])
    rw [Function.update_of_ne (by omega), if_pos (by omega)]
    congr 1
    omega

theorem Spells.kill (h : Spells buf len pos t) :
    Spells (Function.update buf pos 0) pos pos t.clearAfter := by
  have hp := h.pos_eq
  refine spells_mk hp (by rw [hp]; simp) ?_ rfl
  refine (cells_congr fun k hk => ?_).trans h.before_eq
  rw [Function.update_of_ne (by omega)]

theorem Spells.killStart (h : Spells buf len pos t) :
    Spells (Function.update (fun i =>
      if 0 ≤ i ∧ i < 0 + (len - pos) then buf (i - 0 + pos) else buf i)
      (len - pos) 0) (len - pos) 0 t.clearBefore := by
  have hp := h.pos_eq
  have hl := h.length_eq
  refine spells_mk rfl (by rw [hl, hp]; simp) rfl ?_
  refine (cells_congr fun k hk => ?_).trans h.after_eq
  rw [List.length_nil, Function.update_of_ne (by omega), if_pos (by omega)]
  congr 1
  omega

/-- The byte before the cursor. -/
theorem Spells.last {c : UInt8} (h : Spells buf len pos ⟨l ++ [c], r⟩) : buf (pos - 1) = c := by
  have hc := h.before_eq
  have hp := h.pos_eq
  simp only [List.length_append, List.length_singleton] at hc hp
  rw [cells_concat] at hc
  have hlast := List.singleton_inj.1 (List.append_inj' hc rfl).2
  rwa [zero_add, show (l.length : ℤ) = pos - 1 by omega] at hlast

/-- The byte at the cursor. -/
theorem Spells.head {c : UInt8} (h : Spells buf len pos ⟨l, c :: r⟩) : buf pos = c := by
  have hc := h.after_eq
  rw [List.length_cons, cells_cons, ← h.pos_eq] at hc
  exact List.head_eq_of_cons_eq hc

end Spells

/-- The globals of `e`, but for the line, which has the text `t`. -/
structure Edited (e : Editor T) (t : Zipper UInt8) (e' : Editor T) : Prop where
  frame : ∃ buf len pos, e' = { e with buf, len, pos }
  line : TextOk e'.buf e'.len e'.pos
  spells : Spells e'.buf e'.len e'.pos t

section Edited

variable {t t' : Zipper UInt8}

theorem Edited.text_eq (h : Edited e t e') : e'.text = t := h.spells.text_eq

theorem edited_self (h : TextOk e.buf e.len e.pos) : Edited e e.text e :=
  ⟨⟨_, _, _, rfl⟩, h, spells_text h⟩

/-- The terminal and the prompt stay as they are. -/
theorem Edited.terminal_eq (h : Edited e t e') :
    e'.tty = e.tty ∧ e'.prompt = e.prompt ∧ e'.plen = e.plen ∧ e'.cols = e.cols := by
  obtain ⟨_, _, _, rfl⟩ := h.frame
  exact ⟨rfl, rfl, rfl, rfl⟩

/-- One change after the other. -/
theorem Edited.trans {e'' : Editor T} (h : Edited e t e') (h' : Edited e' t' e'') :
    Edited e t' e'' where
  frame := by
    obtain ⟨_, _, _, rfl⟩ := h.frame
    obtain ⟨buf, len, pos, rfl⟩ := h'.frame
    exact ⟨buf, len, pos, rfl⟩
  line := h'.line
  spells := h'.spells

/-- The invariant is kept. -/
theorem Edited.invariant (h : Edited e t e') (hi : Invariant e) : Invariant e' := by
  refine ⟨h.line, ?_⟩
  obtain ⟨_, _, _, rfl⟩ := h.frame
  exact hi.2

/-- The cursor moves. -/
theorem Edited.moveTo (h : Edited e t e') (ht : t'.whole = t.whole) {pos : ℤ}
    (hpos : pos = t'.before.length) : Edited e t' { e' with pos } where
  frame := by
    obtain ⟨buf, len, -, rfl⟩ := h.frame
    exact ⟨buf, len, pos, rfl⟩
  line := by
    have hlen := h.spells.len_eq
    rw [← ht, Zipper.whole, List.length_append] at hlen
    exact h.line.moveTo (by simp only; omega) (by simp only; omega)
  spells := hpos ▸ h.spells.moveTo ht

end Edited

/-! ## The editing functions -/

section Functions

variable (h : TextOk e.buf e.len e.pos)

include h

theorem pos_eq_length : e.pos = e.text.before.length := (spells_text h).pos_eq

theorem len_eq_length : e.len = e.text.whole.length := (spells_text h).len_eq

theorem pos_eq_zero_iff : e.pos = 0 ↔ e.text.before = [] := by
  rw [pos_eq_length h, ← List.length_eq_zero_iff]
  omega

theorem pos_eq_len_iff : e.pos = e.len ↔ e.text.after = [] := by
  rw [(spells_text h).length_eq, pos_eq_length h, ← List.length_eq_zero_iff]
  omega

theorem len_eq_zero_iff : e.len = 0 ↔ e.text.whole = [] := by
  rw [len_eq_length h, ← List.length_eq_zero_iff]
  omega

/-- A byte goes before the cursor, as long as the line is shorter than the buffer. A byte at
    the end of a line that fits on the row is written on its own. -/
theorem insert_of_lt (hlen : e.len < lineMax - 1) (c : UInt8) (draw : Bool) :
    ∃ e', Edited e (e.text.insert c) e' ∧ insert c draw e =
      if e.len = e.pos ∧ draw = true ∧ e.plen + (e.len + 1) < e.cols then
        .ok (if (T.write e.tty [c]).1 = -1 then -1 else 0,
          { e' with tty := (T.write e.tty [c]).2 })
      else redraw draw e' >>= fun e' => .ok (0, e') := by
  obtain ⟨h₀, h₁, h₂, -, -⟩ := id h
  have := lineMax_eq
  rw [insert, if_pos hlen]
  by_cases hpos : e.len = e.pos
  · rw [if_pos hpos]
    simp (disch := omega) only [store_eq, ok_bind]
    refine ⟨{ e with buf := _, len := e.len + 1, pos := e.pos + 1 },
      ⟨⟨_, _, _, rfl⟩, h.append hlen hpos c, (spells_text h).append hpos c⟩, ?_⟩
    by_cases hfits : draw = true ∧ e.plen + (e.len + 1) < e.cols
    · rw [if_pos hfits, if_pos (And.intro hpos hfits)]
      rfl
    · have hshort : ¬(e.len = e.pos ∧ draw = true ∧ e.plen + (e.len + 1) < e.cols) :=
        fun hand => hfits hand.2
      rw [if_neg hfits, if_neg hshort]
      rfl
  · have hshort : ¬(e.len = e.pos ∧ draw = true ∧ e.plen + (e.len + 1) < e.cols) :=
      fun hand => hpos hand.1
    rw [if_neg hpos]
    simp (disch := omega) only [memmove_eq, store_eq, ok_bind, if_neg hshort]
    exact ⟨{ e with buf := _, len := e.len + 1, pos := e.pos + 1 },
      ⟨⟨_, _, _, rfl⟩, h.insert hlen c, (spells_text h).insert c⟩, rfl⟩

theorem kleft_of_ne (ht : e.text.before ≠ []) :
    ∃ e', Edited e e.text.left e' ∧ kleft e = refresh e' := by
  have hne : e.pos ≠ 0 := mt (pos_eq_zero_iff h).1 ht
  have hpos := pos_eq_length h
  refine ⟨_, (edited_self h).moveTo Zipper.whole_left ?_, if_pos (by omega)⟩
  rw [Zipper.left, List.length_dropLast]
  omega

theorem kleft_of_eq (ht : e.text.before = []) : kleft e = .ok e :=
  if_neg (by rw [(pos_eq_zero_iff h).2 ht]; decide)

theorem kright_of_ne (ht : e.text.after ≠ []) :
    ∃ e', Edited e e.text.right e' ∧ kright e = refresh e' := by
  obtain ⟨c, r, hr⟩ := List.exists_cons_of_ne_nil ht
  refine ⟨_, (edited_self h).moveTo Zipper.whole_right ?_,
    if_pos (mt (pos_eq_len_iff h).1 ht)⟩
  rw [Zipper.right, hr, List.length_append, pos_eq_length h]
  rfl

theorem kright_of_eq (ht : e.text.after = []) : kright e = .ok e :=
  if_neg (not_not_intro ((pos_eq_len_iff h).2 ht))

theorem khome_eq : ∃ e', Edited e e.text.toStart e' ∧ khome e = refresh e' :=
  ⟨_, (edited_self h).moveTo Zipper.whole_toStart rfl, rfl⟩

theorem kend_eq : ∃ e', Edited e e.text.toEnd e' ∧ kend e = refresh e' :=
  ⟨_, (edited_self h).moveTo Zipper.whole_toEnd (len_eq_length h), rfl⟩

theorem kbackspace_of_ne (ht : e.text.before ≠ []) (draw : Bool) :
    ∃ e', Edited e e.text.backspace e' ∧ kbackspace draw e = redraw draw e' := by
  obtain ⟨h₀, h₁, h₂, -, -⟩ := id h
  have hpos : e.pos ≠ 0 := mt (pos_eq_zero_iff h).1 ht
  have := lineMax_eq
  rw [kbackspace, if_pos (by omega)]
  simp (disch := omega) only [memmove_eq, store_eq, ok_bind]
  exact ⟨{ e with buf := _, len := e.len - 1, pos := e.pos - 1 },
    ⟨⟨_, _, _, rfl⟩, h.backspace (by omega), (spells_text h).backspace (by omega)⟩, rfl⟩

theorem kbackspace_of_eq (ht : e.text.before = []) (draw : Bool) : kbackspace draw e = .ok e :=
  if_neg (by rw [(pos_eq_zero_iff h).2 ht]; decide)

theorem kdelete_of_ne (ht : e.text.after ≠ []) (draw : Bool) :
    ∃ e', Edited e e.text.delete e' ∧ kdelete draw e = redraw draw e' := by
  obtain ⟨h₀, h₁, h₂, -, -⟩ := id h
  have hpos : e.pos ≠ e.len := mt (pos_eq_len_iff h).1 ht
  have := lineMax_eq
  rw [kdelete, if_pos hpos]
  simp (disch := omega) only [memmove_eq, store_eq, ok_bind]
  exact ⟨{ e with buf := _, len := e.len - 1 },
    ⟨⟨_, _, _, rfl⟩, h.delete hpos, (spells_text h).delete hpos⟩, rfl⟩

theorem kdelete_of_eq (ht : e.text.after = []) (draw : Bool) : kdelete draw e = .ok e :=
  if_neg (not_not_intro ((pos_eq_len_iff h).2 ht))

theorem kkill_eq : ∃ e', Edited e e.text.clearAfter e' ∧ kkill e = refresh e' := by
  obtain ⟨h₀, h₁, h₂, -, -⟩ := id h
  have := lineMax_eq
  rw [kkill, store_eq h₀ (by omega), ok_bind]
  exact ⟨{ e with buf := _, len := e.pos },
    ⟨⟨_, _, _, rfl⟩, h.kill, (spells_text h).kill⟩, rfl⟩

theorem kkillStart_eq : ∃ e', Edited e e.text.clearBefore e' ∧ kkillStart e = refresh e' := by
  obtain ⟨h₀, h₁, h₂, -, -⟩ := id h
  have := lineMax_eq
  rw [kkillStart]
  simp (disch := omega) only [memmove_eq, store_eq, ok_bind]
  exact ⟨{ e with buf := _, len := e.len - e.pos, pos := 0 },
    ⟨⟨_, _, _, rfl⟩, h.killStart, (spells_text h).killStart⟩, rfl⟩

omit h in
theorem insert_of_full (hlen : ¬e.len < lineMax - 1) (c : UInt8) (draw : Bool) :
    insert c draw e = .ok (0, e) :=
  if_neg hlen

theorem length_lt : e.text.whole.length < lineMax := by
  have hlen := len_eq_length h
  have hle := h.len_le
  omega

theorem length_before_lt : e.text.before.length < lineMax :=
  (List.sublist_append_left ..).length_le.trans_lt (length_lt h)

theorem length_after_lt : e.text.after.length < lineMax :=
  (List.sublist_append_right ..).length_le.trans_lt (length_lt h)

end Functions

/-! ## The word operations -/

/-- On the way left through the text of `e`, with the bytes `l` still before the cursor, the
    last one first: those it has passed stand after it. -/
def PassedBack (e s : Editor T) (l : Bytes) : Prop :=
  ∃ m, e.text.before = l.reverse ++ m ∧ Edited e ⟨l.reverse, m ++ e.text.after⟩ s

/-- On the way right, with the bytes `l` still after the cursor. -/
def PassedForth (e s : Editor T) (l : Bytes) : Prop :=
  ∃ m, e.text.after = m ++ l ∧ Edited e ⟨e.text.before ++ m, l⟩ s

section Words

variable (h : TextOk e.buf e.len e.pos) (p : UInt8 → Bool)

/-- The byte before the cursor is read. -/
theorem Edited.load_last {l r : Bytes} {c : UInt8} {s : Editor T} (h : Edited e ⟨l ++ [c], r⟩ s) :
    0 < s.pos ∧ s.load (s.pos - 1) = .ok c := by
  have hpos := h.spells.pos_eq
  have hle := h.line.pos_le
  have hlen := h.line.len_le
  have := lineMax_eq
  simp only [List.length_append, List.length_singleton] at hpos
  refine ⟨by omega, ?_⟩
  rw [load_eq (by omega) (by omega), h.spells.last]

/-- The byte at the cursor is read. -/
theorem Edited.load_head {l r : Bytes} {c : UInt8} {s : Editor T} (h : Edited e ⟨l, c :: r⟩ s) :
    s.pos < s.len ∧ s.load s.pos = .ok c := by
  have hpos := h.spells.pos_eq
  have hlen := h.spells.length_eq
  have hle := h.line.len_le
  have := lineMax_eq
  simp only [List.length_cons] at hpos hlen
  refine ⟨by omega, ?_⟩
  rw [load_eq (by omega) (by omega), h.spells.head]

include h

theorem backWhile_eq : ∃ e', Edited e (e.text.backOver p) e' ∧ backWhile p e = .ok e' := by
  have hloop : ∃ s, backWhile p e = .ok s ∧
      PassedBack e s (e.text.before.reverse.dropWhile p) := by
    refine whileLoop_dropWhile ?_ ?_ ?_ ?_
    · rintro s ⟨m, -, hs⟩
      exact if_neg hs.spells.pos_eq.not_gt
    · rintro s c l ⟨m, hm, hs⟩
      rw [List.reverse_cons] at hm hs
      obtain ⟨hpos, hload⟩ := hs.load_last
      refine ⟨?_, _, rfl, c :: m, ?_, hs.moveTo ?_ ?_⟩
      · rw [if_pos hpos, hload]
        rfl
      · rw [hm, List.append_assoc, List.singleton_append]
      · simp [Zipper.whole]
      · simp [hs.spells.pos_eq]
    · refine ⟨[], ?_, ?_⟩
      · rw [List.reverse_reverse, List.append_nil]
      · rw [List.reverse_reverse]
        exact edited_self h
    · rw [List.length_reverse]
      exact length_before_lt h
  obtain ⟨s, hs, m, hm, hedit⟩ := hloop
  have hover : m = e.text.before.rtakeWhile p :=
    List.append_cancel_left (hm.symm.trans List.rdropWhile_append_rtakeWhile.symm)
  rw [hover] at hedit
  exact ⟨s, hedit, hs⟩

/-- A loop that moves the cursor right as long as the byte at it satisfies `p`. -/
theorem moveWhile_eq {cond : Editor T → Outcome Bool}
    (hnil : ∀ s, PassedForth e s [] → cond s = .ok false)
    (hcons : ∀ s c l, PassedForth e s (c :: l) → cond s = .ok (p c)) :
    ∃ e', Edited e (e.text.forthOver p) e' ∧
      whileLoop cond (fun e => pure { e with pos := e.pos + 1 }) lineMax e = .ok e' := by
  have hloop : ∃ s, whileLoop cond (fun e => pure { e with pos := e.pos + 1 }) lineMax e = .ok s ∧
      PassedForth e s (e.text.after.dropWhile p) := by
    refine whileLoop_dropWhile hnil ?_ ?_ ?_
    · intro s c l hpassed
      refine ⟨hcons s c l hpassed, _, rfl, ?_⟩
      obtain ⟨m, hm, hs⟩ := hpassed
      refine ⟨m ++ [c], ?_, hs.moveTo ?_ ?_⟩
      · rw [hm, List.append_assoc, List.singleton_append]
      · simp [Zipper.whole]
      · simp [hs.spells.pos_eq, add_assoc]
    · refine ⟨[], rfl, ?_⟩
      rw [List.append_nil]
      exact edited_self h
    · exact length_after_lt h
  obtain ⟨s, hs, m, hm, hedit⟩ := hloop
  have hover : m = e.text.after.takeWhile p :=
    List.append_cancel_right (hm.symm.trans List.takeWhile_append_dropWhile.symm)
  rw [hover] at hedit
  exact ⟨s, hedit, hs⟩

theorem forthWhile_eq : ∃ e', Edited e (e.text.forthOver p) e' ∧ forthWhile p e = .ok e' := by
  refine moveWhile_eq h p ?_ ?_
  · rintro s ⟨m, -, hs⟩
    refine if_neg (not_not_intro ?_)
    rw [hs.spells.pos_eq, hs.spells.length_eq]
    simp
  · rintro s c l ⟨m, -, hs⟩
    obtain ⟨hpos, hload⟩ := hs.load_head
    rw [if_pos hpos.ne, hload]
    rfl

theorem backspaceWhile_eq :
    ∃ e', Edited e (e.text.removeBack p) e' ∧ backspaceWhile p e = .ok e' := by
  have hloop : ∃ s, backspaceWhile p e = .ok s ∧
      Edited e ⟨(e.text.before.reverse.dropWhile p).reverse, e.text.after⟩ s := by
    refine whileLoop_dropWhile (R := fun s l => Edited e ⟨l.reverse, e.text.after⟩ s) ?_ ?_ ?_ ?_
    · intro s hs
      exact if_neg (not_not_intro hs.spells.pos_eq)
    · intro s c l hs
      rw [List.reverse_cons] at hs
      obtain ⟨hpos, hload⟩ := hs.load_last
      have hne : s.text.before ≠ [] := by simp [hs.text_eq]
      obtain ⟨s', hs', hback⟩ := kbackspace_of_ne hs.line hne false
      refine ⟨?_, s', hback, ?_⟩
      · rw [if_pos hpos.ne', hload]
        rfl
      · rw [hs.text_eq, Zipper.backspace, List.dropLast_concat] at hs'
        exact hs.trans hs'
    · rw [List.reverse_reverse]
      exact edited_self h
    · rw [List.length_reverse]
      exact length_before_lt h
  obtain ⟨s, hs, hedit⟩ := hloop
  exact ⟨s, hedit, hs⟩

theorem deleteWhile_eq :
    ∃ e', Edited e (e.text.removeForth p) e' ∧ deleteWhile p e = .ok e' := by
  have hloop : ∃ s, deleteWhile p e = .ok s ∧
      Edited e ⟨e.text.before, e.text.after.dropWhile p⟩ s := by
    refine whileLoop_dropWhile (R := fun s l => Edited e ⟨e.text.before, l⟩ s) ?_ ?_ ?_ ?_
    · intro s hs
      refine if_neg ?_
      rw [hs.spells.pos_eq, hs.spells.length_eq]
      simp
    · intro s c l hs
      obtain ⟨hpos, hload⟩ := hs.load_head
      have hne : s.text.after ≠ [] := by simp [hs.text_eq]
      obtain ⟨s', hs', hdel⟩ := kdelete_of_ne hs.line hne false
      refine ⟨?_, s', hdel, ?_⟩
      · rw [if_pos hpos, hload]
        rfl
      · rw [hs.text_eq] at hs'
        exact hs.trans hs'
    · exact edited_self h
    · exact length_after_lt h
  obtain ⟨s, hs, hedit⟩ := hloop
  exact ⟨s, hedit, hs⟩

/-- Two loops one after the other. -/
theorem then_eq {f g : Editor T → Outcome (Editor T)} {F G : Zipper UInt8 → Zipper UInt8}
    (hf : ∀ e : Editor T, TextOk e.buf e.len e.pos → ∃ e', Edited e (F e.text) e' ∧ f e = .ok e')
    (hg : ∀ e : Editor T, TextOk e.buf e.len e.pos → ∃ e', Edited e (G e.text) e' ∧ g e = .ok e') :
    ∃ e', Edited e (G (F e.text)) e' ∧ (f e >>= fun e => g e) = .ok e' := by
  obtain ⟨e₁, h₁, hf₁⟩ := hf e h
  obtain ⟨e₂, h₂, hg₂⟩ := hg e₁ h₁.line
  rw [h₁.text_eq] at h₂
  exact ⟨e₂, h₁.trans h₂, by rw [hf₁, ok_bind, hg₂]⟩

theorem kleftw_loops : ∃ e', Edited e ((e.text.backOver isspace).backOver (!isspace ·)) e' ∧
    (backWhile isspace e >>= fun e => backWhile (!isspace ·) e) = .ok e' :=
  then_eq (F := (·.backOver isspace)) (G := (·.backOver (!isspace ·))) h
    (fun _ h => backWhile_eq h _) fun _ h => backWhile_eq h _

theorem krightw_loops : ∃ e', Edited e ((e.text.forthOver (!isspace ·)).forthOver isspace) e' ∧
    (forthWhile (!isspace ·) e >>= fun e => forthWhile isspace e) = .ok e' :=
  then_eq (F := (·.forthOver (!isspace ·))) (G := (·.forthOver isspace)) h
    (fun _ h => forthWhile_eq h _) fun _ h => forthWhile_eq h _

theorem kbackspacew_loops :
    ∃ e', Edited e ((e.text.removeBack isspace).removeBack (!isspace ·)) e' ∧
      (backspaceWhile isspace e >>= fun e => backspaceWhile (!isspace ·) e) = .ok e' :=
  then_eq (F := (·.removeBack isspace)) (G := (·.removeBack (!isspace ·))) h
    (fun _ h => backspaceWhile_eq h _) fun _ h => backspaceWhile_eq h _

theorem kdeletew_loops :
    ∃ e', Edited e ((e.text.removeForth isspace).removeForth (!isspace ·)) e' ∧
      (deleteWhile isspace e >>= fun e => deleteWhile (!isspace ·) e) = .ok e' :=
  then_eq (F := (·.removeForth isspace)) (G := (·.removeForth (!isspace ·))) h
    (fun _ h => deleteWhile_eq h _) fun _ h => deleteWhile_eq h _

omit h in
/-- After its loops, a function draws the line. -/
theorem refresh_of_loops {f g : Editor T → Outcome (Editor T)} {t : Zipper UInt8}
    (h : ∃ e', Edited e t e' ∧ (f e >>= fun e => g e) = .ok e') :
    ∃ e', Edited e t e' ∧ (f e >>= fun e => g e >>= fun e => refresh e) = refresh e' := by
  obtain ⟨e', hedit, hloops⟩ := h
  exact ⟨e', hedit, by rw [← bind_assoc, hloops, ok_bind]⟩

theorem kleftw_eq : ∃ e', Edited e ((e.text.backOver isspace).backOver (!isspace ·)) e' ∧
    kleftw e = refresh e' :=
  refresh_of_loops (kleftw_loops h)

theorem krightw_eq : ∃ e', Edited e ((e.text.forthOver (!isspace ·)).forthOver isspace) e' ∧
    krightw e = refresh e' :=
  refresh_of_loops (krightw_loops h)

theorem kbackspacew_eq :
    ∃ e', Edited e ((e.text.removeBack isspace).removeBack (!isspace ·)) e' ∧
      kbackspacew e = refresh e' :=
  refresh_of_loops (kbackspacew_loops h)

theorem kdeletew_eq :
    ∃ e', Edited e ((e.text.removeForth isspace).removeForth (!isspace ·)) e' ∧
      kdeletew e = refresh e' :=
  refresh_of_loops (kdeletew_loops h)

end Words

/-! ## On the keyboard -/

/-- On the keyboard, a line with the cursor behind it. -/
def lineOf (s : Bytes) : Editor keyboard :=
  { initial (T := keyboard) [] with
    buf i := s.getD i.toNat 0, len := s.length, pos := s.length,
    history := fun _ => some [], historyCount := 1 }

theorem text_lineOf (s : Bytes) : (lineOf s).text = ⟨s, []⟩ := by
  refine Spells.text_eq (spells_mk rfl (by simp [lineOf]) ?_ rfl)
  refine List.ext_getElem (by simp) fun i h₁ h₂ => ?_
  rw [getElem_cells]
  simp [lineOf, h₂]

theorem invariant_lineOf {s : Bytes} (hs : s.length ≤ lineMax - 1) : Invariant (lineOf s) where
  left := by
    refine ⟨Int.natCast_nonneg _, le_rfl, ?_, ?_, ?_⟩
    · simp only [lineOf]
      have := lineMax_eq
      omega
    · simp [lineOf]
    · exact congrArg (Option.getD · 0) (List.getElem?_eq_none hs)
  right := ⟨⟨Int.ofNat_le.2 (by decide : 1 ≤ historyMax),
      fun i _ _ => ⟨[], rfl, List.not_mem_nil, Nat.zero_le _⟩⟩,
    ⟨le_rfl, le_rfl, Int.one_pos⟩⟩

end PunyGui.Line
