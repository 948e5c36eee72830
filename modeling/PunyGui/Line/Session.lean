import PunyGui.Line.Command
import PunyGui.Line.History

/-!
# Sessions

A call of `janet_line_get` on a terminal: the line is begun, the keys are read one after
the other, and the line is settled.

* `Begun`, `lineStart_eq`: where the first key is read.
* `advance`, `rounds_eq_advance`: the rounds of the loop from there on.
* `endLine_enter`, `endLine_abort`: what the call returns, and leaves behind.
-/

namespace PunyGui.Line

open Text Libc Imp

variable {T : Terminal} {e : Editor T} {env : Option (List Slots)} {H : List Bytes} {s : Bytes}

/-! ## The beginning -/

/-- The globals before the first key, if the history was `H`. -/
structure Begun (e : Editor T) (H : List Bytes) (cols : ℤ) (e' : Editor T) : Prop where
  invariant : Invariant e'
  text : e'.text = ⟨[], []⟩
  lists : Lists e'.history e'.historyCount ([] :: H.take (historyMax - 1))
  historyi : e'.historyi = 0
  plen : e'.plen = e.prompt.length
  cols : e'.cols = cols

/-- The line begins empty, with an empty string in front of the history. -/
theorem lineStart_eq (h : Idle e) (hi : e.historyi = 0)
    (hH : Lists e.history e.historyCount H) {cols : ℤ} {tty : T.State}
    (hcols : getcols T e.tty = .ok (cols, tty)) :
    ∃ e', Begun e H cols e' ∧ e'.tty = (T.write tty e.prompt).2 ∧ lineStart e =
      .ok (if (T.write tty e.prompt).1 = -1 then .returned (-1) e' else .reading e') := by
  obtain ⟨hlast, hh, hcount⟩ := h
  have htext := textOk_update hlast (Nat.zero_le _) le_rfl le_rfl
  have hs : cstring lineMax (Function.update e.buf 0 0) = .ok [] :=
    Imp.cstring_eq (k := 0) (by decide) (Function.update_self ..)
  obtain ⟨history, count, hadd, hlists⟩ := addhistory_eq
    (e := { e with
      tty, cols, len := 0, pos := 0, plen := e.prompt.length, buf := Function.update e.buf 0 0 })
    hs hH (hH.length_le hh)
  refine ⟨{ e with
    tty := (T.write tty e.prompt).2, cols, len := 0, pos := 0, plen := e.prompt.length,
    buf := Function.update e.buf 0 0, history, historyCount := count }, ?_, rfl, ?_⟩
  · have hcount' := hlists.count_eq
    rw [List.length_cons] at hcount'
    refine ⟨⟨htext, hlists.historyOk ?_ ?_, ?_, hi.ge, ?_⟩, rfl, hlists, hi, rfl, rfl⟩
    · rw [List.length_cons, List.length_take]
      exact (Nat.succ_le_succ (Nat.min_le_left _ _)).trans (by decide)
    · refine List.forall_mem_cons.2 ⟨⟨List.not_mem_nil, Nat.zero_le _⟩, fun s hs => ?_⟩
      exact hH.mem hh (List.mem_of_mem_take hs)
    · simp only
      omega
    · simp only
      omega
  · rw [lineStart, hcols, ok_bind]
    dsimp only
    rw [store_eq le_rfl (by decide), ok_bind, hadd, ok_bind]
    rfl

/-! ## The rounds -/

/-- So many more rounds. -/
def advance (env : Option (List Slots)) : ℕ → Loop T → Outcome (Loop T)
  | 0, l => pure l
  | n + 1, l => do
    let l ← round env l
    advance env n l

theorem advance_succ (env : Option (List Slots)) (n : ℕ) (l : Loop T) :
    advance env (n + 1) l = advance env n l >>= round env := by
  induction n generalizing l with
  | zero =>
    rw [advance, advance, pure_bind]
    exact bind_pure _
  | succ n ih =>
    rw [advance, advance, bind_assoc]
    exact congrArg _ (funext ih)

theorem advance_add (env : Option (List Slots)) (n m : ℕ) (l : Loop T) :
    advance env (n + m) l = advance env n l >>= advance env m := by
  induction n generalizing l with
  | zero => rw [Nat.zero_add, advance, pure_bind]
  | succ n ih =>
    rw [Nat.succ_add, advance, advance, bind_assoc]
    exact congrArg _ (funext ih)

theorem rounds_eq_advance (env : Option (List Slots)) (e : Editor T) (n : ℕ) :
    rounds env e n = lineStart e >>= advance env n := by
  induction n with
  | zero => exact (bind_pure _).symm
  | succ n ih =>
    rw [rounds, ih, bind_assoc]
    exact congrArg _ (funext fun l => (advance_succ env n l).symm)

/-- Behind a return, nothing more happens. -/
theorem advance_returned (env : Option (List Slots)) (n : ℕ) (code : ℤ) (e : Editor T) :
    advance env n (.returned code e) = .ok (.returned code e) := by
  induction n with
  | zero => rfl
  | succ n ih => exact ih

/-- An error ends the loop. -/
theorem advance_of_error {l : Loop T} {stop : Imp.Stop} (h : round env l = .error stop) (n : ℕ) :
    advance env (n + 1) l = .error stop := by
  rw [advance, h]
  rfl

/-! ## The end -/

theorem lineBytes_eq (e : Editor T) (h : TextOk e.buf e.len e.pos) :
    (List.range e.len.toNat).map (fun i : ℕ => e.buf i) = e.text.whole := by
  rw [← (spells_text h).cells_eq, ← Int.toNat_natCast e.text.whole.length, ← len_eq_length h,
    cells]
  simp only [zero_add]

/-- A line that is entered is returned with a line feed, and settled in the history. -/
theorem endLine_enter (h : Invariant e) (hH : Lists e.history e.historyCount (s :: H)) :
    ∃ e', endLine (.returned 0 e) = .ok (e.text.whole ++ [0x0A], e') ∧
      Lists e'.history e'.historyCount (settled e.text.whole H) := by
  have h₀ := h.1.pos_nonneg.trans h.1.pos_le
  have h₁ : e.len ≤ lineMax := h.1.len_le.trans (by decide)
  obtain ⟨history, count, hreplace, hlists⟩ := replacehistory_eq h.1 hH (hH.length_le h.2.1)
  refine ⟨{ e with history, historyCount := count }, ?_, hlists⟩
  rw [endLine, if_neg (not_not_intro rfl), if_pos (And.intro h₀ h₁), lineBytes_eq e h.1, hreplace]
  rfl

/-- Otherwise nothing is returned, and the history is left as it is. -/
theorem endLine_abort {code : ℤ} (hcode : code ≠ 0) (e : Editor T) :
    endLine (.returned code e) = .ok ([], e) :=
  if_pos hcode

end PunyGui.Line
