import PunyGui.Line.Loop

/-!
# The state of the line editor

The globals of the line editor when it is about to read a key: the cursor is inside the
line, the line is inside the buffer, a zero byte is behind it and in the last cell, and
the history has the line and at most `JANET_HISTORY_MAX` strings in all.

* `TextOk`, `HistoryOk`, `IndexOk`: the parts, as properties of the arrays and counters.
* `Invariant`: all of them, for the globals; `Idle`: what is left of it between calls.
* `TextOk.insert`, `TextOk.delete`, ...: what the editing functions make of the buffer.
* `shiftUp_eq`, `shiftDown_eq`: what the history functions make of the history.
-/

namespace PunyGui.Line

open Text Imp

/-- The line, its end and the cursor. -/
structure TextOk (buf : ℤ → UInt8) (len pos : ℤ) : Prop where
  pos_nonneg : 0 ≤ pos
  pos_le : pos ≤ len
  len_le : len ≤ lineMax - 1
  terminated : buf len = 0
  last : buf (lineMax - 1) = 0

/-- The strings of the history. -/
structure HistoryOk (history : ℤ → Option Bytes) (count : ℤ) : Prop where
  count_le : count ≤ historyMax
  entries (i : ℤ) (h₀ : 0 ≤ i) (h₁ : i < count) :
    ∃ s, history i = some s ∧ 0 ∉ s ∧ s.length ≤ lineMax - 1

/-- The history has the line that is edited and others, and the one shown is one
    of them. -/
structure IndexOk (count i : ℤ) : Prop where
  count_pos : 1 ≤ count
  nonneg : 0 ≤ i
  lt : i < count

variable {T : Terminal} {e : Editor T}

/-- What holds whenever the next key is read. -/
def Invariant (e : Editor T) : Prop :=
  TextOk e.buf e.len e.pos ∧ HistoryOk e.history e.historyCount ∧ IndexOk e.historyCount e.historyi

/-- What holds between the calls. -/
def Idle (e : Editor T) : Prop :=
  e.buf (lineMax - 1) = 0 ∧ HistoryOk e.history e.historyCount ∧ 0 ≤ e.historyCount

/-! ## The text -/

/-- Storing a zero keeps the zeros. -/
theorem update_zero {buf : ℤ → UInt8} {j : ℤ} (h : buf j = 0) (i : ℤ) :
    Function.update buf i 0 j = 0 := by
  rw [Function.update_apply, h, ite_self]

section Text

variable {buf : ℤ → UInt8} {len pos : ℤ} (h : TextOk buf len pos)

include h

theorem TextOk.moveTo {pos' : ℤ} (h₀ : 0 ≤ pos') (h₁ : pos' ≤ len) : TextOk buf len pos' :=
  { h with pos_nonneg := h₀, pos_le := h₁ }

/-- A byte at the end of the line. -/
theorem TextOk.append (hlen : len < lineMax - 1) (hpos : len = pos) (c : UInt8) :
    TextOk (Function.update (Function.update buf pos c) (len + 1) 0) (len + 1) (pos + 1) := by
  obtain ⟨h₀, h₁, h₂, -, h₄⟩ := h
  refine ⟨by omega, by omega, by omega, Function.update_self .., update_zero ?_ _⟩
  rw [Function.update_of_ne (by omega), h₄]

/-- A byte before the cursor, in front of those that are moved on. -/
theorem TextOk.insert (hlen : len < lineMax - 1) (c : UInt8) :
    TextOk (Function.update (Function.update (fun i => if pos + 1 ≤ i ∧ i < pos + 1 + (len - pos)
      then buf (i - (pos + 1) + pos) else buf i) pos c) (len + 1) 0) (len + 1) (pos + 1) := by
  obtain ⟨h₀, h₁, h₂, -, h₄⟩ := h
  refine ⟨by omega, by omega, by omega, Function.update_self .., update_zero ?_ _⟩
  rw [Function.update_of_ne (by omega), if_neg (by omega), h₄]

theorem TextOk.backspace (hpos : 0 < pos) :
    TextOk (Function.update (fun i => if pos - 1 ≤ i ∧ i < pos - 1 + (len - pos)
      then buf (i - (pos - 1) + pos) else buf i) (len - 1) 0) (len - 1) (pos - 1) := by
  obtain ⟨h₀, h₁, h₂, -, h₄⟩ := h
  refine ⟨by omega, by omega, by omega, Function.update_self .., update_zero ?_ _⟩
  rw [if_neg (by omega), h₄]

theorem TextOk.delete (hpos : pos ≠ len) :
    TextOk (Function.update (fun i => if pos ≤ i ∧ i < pos + (len - pos)
      then buf (i - pos + (pos + 1)) else buf i) (len - 1) 0) (len - 1) pos := by
  obtain ⟨h₀, h₁, h₂, -, h₄⟩ := h
  refine ⟨by omega, by omega, by omega, Function.update_self .., update_zero ?_ _⟩
  rw [if_neg (by omega), h₄]

theorem TextOk.kill : TextOk (Function.update buf pos 0) pos pos :=
  ⟨h.pos_nonneg, le_rfl, h.pos_le.trans h.len_le, Function.update_self .., update_zero h.last _⟩

theorem TextOk.killStart :
    TextOk (Function.update (fun i =>
      if 0 ≤ i ∧ i < 0 + (len - pos) then buf (i - 0 + pos) else buf i)
      (len - pos) 0) (len - pos) 0 := by
  obtain ⟨h₀, h₁, h₂, -, h₄⟩ := h
  refine ⟨le_rfl, by omega, by omega, Function.update_self .., update_zero ?_ _⟩
  rw [if_neg (by omega), h₄]

end Text

/-- A string at the start of the buffer, with a zero behind it. -/
theorem textOk_update {buf : ℤ → UInt8} (hlast : buf (lineMax - 1) = 0) {n : ℕ}
    (hn : n ≤ lineMax - 1) {pos : ℤ} (h₀ : 0 ≤ pos) (h₁ : pos ≤ n) :
    TextOk (Function.update buf n 0) n pos where
  pos_nonneg := h₀
  pos_le := h₁
  len_le := by rw [lineMax] at hn ⊢; omega
  terminated := Function.update_self ..
  last := update_zero hlast _

/-! ## Accesses to the buffer -/

theorem lineMax_eq : (lineMax : ℤ) = 1024 := rfl

theorem load_eq {i : ℤ} (h₀ : 0 ≤ i) (h₁ : i < lineMax) : e.load i = .ok (e.buf i) :=
  Imp.load_eq h₀ h₁

theorem store_eq {i : ℤ} (h₀ : 0 ≤ i) (h₁ : i < lineMax) (c : UInt8) :
    e.store i c = .ok { e with buf := Function.update e.buf i c } := by
  rw [Editor.store, Imp.store_eq h₀ h₁]
  rfl

theorem memmove_eq {dst src n : ℤ} (hn : 0 ≤ n) (hd₀ : 0 ≤ dst) (hd₁ : dst + n ≤ lineMax)
    (hs₀ : 0 ≤ src) (hs₁ : src + n ≤ lineMax) : e.memmove dst src n =
      .ok { e with buf := fun i =>
        if dst ≤ i ∧ i < dst + n then e.buf (i - dst + src) else e.buf i } := by
  rw [Editor.memmove, Imp.memmove_eq hn hd₀ hd₁ hs₀ hs₁]
  rfl

/-- The string in the buffer ends before the last cell. -/
theorem holds_cstring (h : e.buf (lineMax - 1) = 0) :
    Holds (fun s => 0 ∉ s ∧ s.length ≤ lineMax - 1) e.cstring :=
  Imp.holds_cstring (Nat.sub_lt (by decide) (by decide)) h

/-! ## The terminal -/

theorem holds_scroll (e : Editor T) : Holds (fun _ => True) (scroll e) := by
  rw [scroll]
  refine holds_whileLoop (fun w : Window => (e.plen + w.pos - e.cols + 1).toNat) ?_ trivial
    (by simp only; omega)
  intro w _ hw
  have := of_decide_eq_true hw
  exact ⟨trivial, by simp only; omega⟩

theorem holds_cut (e : Editor T) (w : Window) : Holds (fun _ => True) (cut e w) := by
  rw [cut]
  refine holds_whileLoop (fun w : Window => (e.plen + w.len - e.cols).toNat) ?_ trivial
    (Nat.lt_succ_self _)
  intro w _ hw
  have := of_decide_eq_true hw
  exact ⟨trivial, by simp only; omega⟩

/-- `refresh` changes nothing but the terminal. -/
theorem holds_refresh (e : Editor T) :
    Holds (fun e' => ∃ tty, e' = { e with tty }) (refresh e) := by
  refine (holds_scroll e).bind fun w _ => (holds_cut e w).bind fun w _ => ?_
  simp only
  split_ifs
  · exact holds_crash
  · exact holds_exit
  · exact ⟨_, rfl⟩

theorem holds_getcols (tty : T.State) : Holds (fun _ => True) (getcols T tty) := by
  rw [getcols]
  split
  · trivial
  · simp only
    split_ifs
    all_goals first | exact holds_exit | trivial

/-- A terminal of 80 columns, whose state is what is still to be read. -/
def keyboard : Terminal where
  State := Bytes
  read
    | [] => (.eof, [])
    | c :: s => (.byte c, s)
  write s out := (out.length, s)
  winsize _ := some 80
  junk _ := 0

/-! ## The history -/

/-- A string that may be in the history. -/
theorem HistoryOk.update {history : ℤ → Option Bytes} {count : ℤ} (h : HistoryOk history count)
    (i : ℤ) {s : Bytes} (hs : 0 ∉ s ∧ s.length ≤ lineMax - 1) :
    HistoryOk (Function.update history i (some s)) count where
  count_le := h.count_le
  entries j h₀ h₁ := by
    rw [Function.update_apply]
    split_ifs
    · exact ⟨s, rfl, hs⟩
    · exact h.entries j h₀ h₁

theorem storeHistory_eq {i : ℤ} (h₀ : 0 ≤ i) (h₁ : i < historyMax) (s : Bytes) :
    storeHistory e i s = .ok { e with history := Function.update e.history i (some s) } := by
  rw [storeHistory, Imp.store_eq h₀ h₁]
  rfl

theorem holds_historyEntry (h : HistoryOk e.history e.historyCount) {i : ℤ} (h₀ : 0 ≤ i)
    (h₁ : i < e.historyCount) : Holds (fun _ => True) (historyEntry e i) := by
  obtain ⟨s, hs, -⟩ := h.entries i h₀ h₁
  rw [historyEntry, Imp.load_eq h₀ (h₁.trans_le h.count_le), ok_bind, hs]
  trivial

/-- An index is moved to the next one of a string. -/
theorem IndexOk.move {count i : ℤ} (h : IndexOk count i) (j : ℤ) :
    IndexOk count (if j < 0 then 0 else if j ≥ count then count - 1 else j) := by
  have := h.count_pos
  refine ⟨this, ?_, ?_⟩
  · split_ifs <;> omega
  · split_ifs <;> omega

/-- Copying a string leaves out the last cell, where the zero stays. -/
theorem copy_last {buf : ℤ → UInt8} (h : buf (lineMax - 1) = 0) (s : Bytes) :
    (fun i : ℤ => if 0 ≤ i ∧ i < (lineMax - 1 : ℕ) then s.getD i.toNat 0 else buf i)
      (lineMax - 1) = 0 :=
  (if_neg (by decide)).trans h

/-- The strings up to cell `k` are moved up by one. -/
theorem shiftUp_eq {α : Type} {k : ℕ} (hk : k < historyMax) (history : ℤ → α) :
    shiftUp k history = .ok fun i => if 1 ≤ i ∧ i ≤ k then history (i - 1) else history i := by
  induction k generalizing history with
  | zero =>
    rw [shiftUp]
    refine congrArg Except.ok (funext fun i => ?_)
    rw [if_neg (by omega)]
  | succ k ih =>
    rw [shiftUp, Imp.load_eq (by omega) (by omega), ok_bind, Imp.store_eq (by omega) (by omega),
      ok_bind, ih (by omega)]
    refine congrArg Except.ok (funext fun i => ?_)
    simp only [Function.update_apply]
    grind

/-- The strings behind cell `k` are moved down by one. -/
theorem shiftDown_eq {α : Type} {n k : ℕ} (hk : k + n < historyMax) (history : ℤ → α) :
    shiftDown n k history = .ok fun i =>
      if k ≤ i ∧ i < k + n then history (i + 1) else history i := by
  induction n generalizing k history with
  | zero =>
    rw [shiftDown]
    refine congrArg Except.ok (funext fun i => ?_)
    rw [if_neg (by omega)]
  | succ n ih =>
    rw [shiftDown, Imp.load_eq (by omega) (by omega), ok_bind, Imp.store_eq (by omega) (by omega),
      ok_bind, ih (by omega)]
    refine congrArg Except.ok (funext fun i => ?_)
    simp only [Function.update_apply]
    grind

end PunyGui.Line
