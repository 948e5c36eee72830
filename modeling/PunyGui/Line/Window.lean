import PunyGui.Line.State

/-!
# The redraw window

`refresh` shows the part of the line that is left of the row behind the prompt.

* `window_eq`: the part that its two loops come to.
* `ValidWindow`: what the part should be.
* `window_valid_iff`: it is that exactly if the prompt is shorter than the row.
* `refresh_of_not_clipped`, `refresh_of_clipped`: whether it is drawn.
-/

namespace PunyGui.Line

open Text Imp

variable {T : Terminal} {e : Editor T}

/-- The part of the line that `refresh` pushes. -/
def window (e : Editor T) : Outcome Window := do
  let w ← scroll e
  cut e w

theorem refresh_eq_window (e : Editor T) : refresh e = window e >>= fun w =>
    if w.len < 0 then .error .crash
    else
      if (T.write e.tty (refreshBytes e w)).1 = -1 then .error .exit
      else .ok { e with tty := (T.write e.tty (refreshBytes e w)).2 } := by
  rw [refresh, window, bind_assoc]
  rfl

/-! ## The two loops -/

/-- Every step of the first loop moves the start on by one. -/
theorem scroll_loop (plen cols : ℤ) {n : ℕ} {w : Window}
    (hn : (plen + w.pos - cols + 1).toNat < n) :
    whileLoop (fun w : Window => (pure (decide (plen + w.pos ≥ cols)) : Outcome Bool))
        (fun w => pure ⟨w.offset + 1, w.len - 1, w.pos - 1⟩) n w =
      .ok ⟨w.offset + (plen + w.pos - cols + 1).toNat, w.len - (plen + w.pos - cols + 1).toNat,
        w.pos - (plen + w.pos - cols + 1).toNat⟩ := by
  induction n generalizing w with
  | zero => exact absurd hn (Nat.not_lt_zero _)
  | succ n ih =>
    by_cases hw : plen + w.pos ≥ cols
    · refine Eq.trans (whileLoop_pure_of_true (decide_eq_true hw)) ?_
      have hstep : (plen + w.pos - cols + 1).toNat = (plen + (w.pos - 1) - cols + 1).toNat + 1 := by
        omega
      rw [ih (by simp only; omega), hstep]
      simp only [Except.ok.injEq, Window.mk.injEq]
      omega
    · refine Eq.trans (whileLoop_pure_of_false (decide_eq_false hw)) ?_
      have hstop : (plen + w.pos - cols + 1).toNat = 0 := by omega
      rw [hstop]
      simp

theorem scroll_eq (e : Editor T) : scroll e =
    .ok ⟨(e.plen + e.pos - e.cols + 1).toNat, e.len - (e.plen + e.pos - e.cols + 1).toNat,
      e.pos - (e.plen + e.pos - e.cols + 1).toNat⟩ := by
  rw [scroll, scroll_loop e.plen e.cols (by simp only; omega), zero_add]

theorem cut_loop (plen cols : ℤ) {n : ℕ} {w : Window} (hn : (plen + w.len - cols).toNat < n) :
    whileLoop (fun w : Window => (pure (decide (plen + w.len > cols)) : Outcome Bool))
        (fun w => pure { w with len := w.len - 1 }) n w =
      .ok { w with len := min w.len (cols - plen) } := by
  induction n generalizing w with
  | zero => exact absurd hn (Nat.not_lt_zero _)
  | succ n ih =>
    by_cases hw : plen + w.len > cols
    · refine Eq.trans (whileLoop_pure_of_true (decide_eq_true hw)) ?_
      rw [ih (by simp only; omega)]
      simp only [Except.ok.injEq, Window.mk.injEq, true_and, and_true]
      omega
    · refine Eq.trans (whileLoop_pure_of_false (decide_eq_false hw)) ?_
      rw [min_eq_left (by omega)]

theorem cut_eq (e : Editor T) (w : Window) :
    cut e w = .ok { w with len := min w.len (e.cols - e.plen) } := by
  rw [cut, cut_loop e.plen e.cols (Nat.lt_succ_self _)]

/-- How many bytes at the start of the line are not shown. -/
def hidden (e : Editor T) : ℕ := (e.plen + e.pos - e.cols + 1).toNat

theorem window_eq (e : Editor T) : window e =
    .ok ⟨hidden e, min (e.len - hidden e) (e.cols - e.plen), e.pos - hidden e⟩ := by
  rw [window, scroll_eq, ok_bind, cut_eq]
  rfl

/-! ## Valid windows -/

/-- The part of the line is a slice of it that has the cursor, and it fits behind a prompt
    that is shorter than the row. -/
structure ValidWindow (e : Editor T) (w : Window) : Prop where
  offset_nonneg : 0 ≤ w.offset
  offset_add_pos : w.offset + w.pos = e.pos
  pos_nonneg : 0 ≤ w.pos
  pos_le : w.pos ≤ w.len
  end_le : w.offset + w.len ≤ e.len
  fits (h : e.plen < e.cols) : e.plen + w.len ≤ e.cols ∧ e.plen + w.pos < e.cols

/-- The window is valid exactly if the prompt is shorter than the row. -/
theorem window_valid_iff (hpos : 0 ≤ e.pos) (hle : e.pos ≤ e.len) :
    (∃ w, window e = .ok w ∧ ValidWindow e w) ↔ e.plen < e.cols := by
  rw [window_eq]
  constructor
  · rintro ⟨w, hw, hvalid⟩
    obtain rfl := Except.ok.inj hw
    have := hvalid.pos_nonneg
    simp only [hidden] at this
    omega
  · intro hlt
    refine ⟨_, rfl, ?_⟩
    constructor <;> simp only [hidden] <;> omega

/-- A line of one byte, behind a prompt of so many, on a row of 80 columns. -/
def prompted (plen : ℤ) : Editor keyboard := { initial (T := keyboard) [] with plen, len := 1 }

theorem window_valid_iff_short :
    (∃ w, window (prompted 2) = .ok w ∧ ValidWindow (prompted 2) w) ↔
      (prompted 2).plen < (prompted 2).cols :=
  window_valid_iff (by decide) (by decide)

/-- Behind a prompt that fills the row, the cursor comes before the part that is shown. -/
theorem window_invalid : ∃ w, window (prompted 80) = .ok w ∧ ¬ValidWindow (prompted 80) w :=
  ⟨_, window_eq _, fun hvalid => absurd hvalid.pos_nonneg (by decide)⟩

/-! ## Redrawing -/

/-- The prompt takes more than the row has, or all of it with the cursor at the end of the
    line: then the length of the part is negative. -/
def Clipped (e : Editor T) : Prop := e.cols < e.plen ∨ e.cols = e.plen ∧ e.pos = e.len

theorem clipped_iff (hpos : 0 ≤ e.pos) (hle : e.pos ≤ e.len) :
    min (e.len - hidden e) (e.cols - e.plen) < 0 ↔ Clipped e := by
  rw [hidden, Clipped]
  omega

theorem refresh_of_clipped (hpos : 0 ≤ e.pos) (hle : e.pos ≤ e.len) (h : Clipped e) :
    refresh e = .error .crash := by
  rw [refresh_eq_window, window_eq, ok_bind]
  exact if_pos ((clipped_iff hpos hle).2 h)

/-- Otherwise `refresh` only writes. -/
theorem refresh_of_not_clipped (hpos : 0 ≤ e.pos) (hle : e.pos ≤ e.len) (h : ¬Clipped e) :
    ∃ out : Bytes, out ≠ [] ∧ refresh e = if (T.write e.tty out).1 = -1 then .error .exit
      else .ok { e with tty := (T.write e.tty out).2 } := by
  rw [refresh_eq_window, window_eq, ok_bind]
  refine ⟨_, ?_, if_neg (mt (clipped_iff hpos hle).1 h)⟩
  simp [refreshBytes]

end PunyGui.Line
