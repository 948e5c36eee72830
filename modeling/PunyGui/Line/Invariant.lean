import PunyGui.Line.Completion
import PunyGui.Line.Operations
import PunyGui.Line.Session

/-!
# The invariant of the line editor

Every key keeps the invariant, and no access leaves an array. For the keys that edit the
line this is what they do to its text, which is known.

* `Invariant.perform`, `Invariant.readKey`: the keys.
* `Idle.janetLineGet`: the calls.
* `line_invariant`: the invariant holds in every round of every call.
-/

namespace PunyGui.Line

open Text Imp

variable {T : Terminal} {e : Editor T} {env : Option (List Slots)}

/-! ## Keys -/

theorem Invariant.refresh (h : Invariant e) : Holds Invariant (refresh e) := by
  refine (holds_refresh e).mono ?_
  rintro _ ⟨tty, rfl⟩
  exact h

/-- The line becomes the string in the buffer. -/
theorem holds_measure (hlast : e.buf (lineMax - 1) = 0) (hh : HistoryOk e.history e.historyCount)
    (hi : IndexOk e.historyCount e.historyi) :
    Holds Invariant (do
      let s ← e.cstring
      let e := { e with pos := s.length, len := s.length }
      let e ← e.store e.len 0
      refresh e) := by
  refine (holds_cstring hlast).bind fun s hs => ?_
  have htext := textOk_update hlast hs.2 (Int.natCast_nonneg s.length) le_rfl
  have hlt : (s.length : ℤ) < lineMax := htext.len_le.trans_lt (by decide)
  dsimp only
  rw [store_eq (Int.natCast_nonneg _) hlt, ok_bind]
  apply Invariant.refresh
  exact ⟨htext, hh, hi⟩

theorem Invariant.historymove (h : Invariant e) (delta : ℤ) :
    Holds Invariant (historymove delta e) := by
  obtain ⟨ht, hh, hi⟩ := h
  rw [Line.historymove]
  split_ifs with hcount
  · refine (holds_historyEntry hh hi.nonneg hi.lt).bind fun _ _ => ?_
    refine (holds_cstring ht.last).bind fun s hs => ?_
    rw [storeHistory_eq hi.nonneg (hi.lt.trans_le hh.count_le), ok_bind]
    have hh' := hh.update e.historyi hs
    have hi' := hi.move (e.historyi + delta)
    refine Holds.bind (holds_historyEntry ?_ hi'.nonneg hi'.lt) ?_
    · exact hh'
    intro s' _
    rw [strncpy_eq (Nat.sub_le _ _), ok_bind]
    exact holds_measure (copy_last ht.last s') hh' hi'
  · exact ⟨ht, hh, hi⟩

/-- The invariant holds before the next key, and behind a return. -/
def Loop.Ok : Loop T → Prop
  | .reading e => Invariant e
  | .returned _ e => Invariant e

/-- A key that edits the line leaves a line. -/
theorem Invariant.perform_of_edits (h : Invariant e) {c : Command}
    (hedits : c.edits e.text = true) : Holds Loop.Ok (perform env c e) := by
  by_cases hc : c.Silent e.text
  · rw [perform_of_silent env h.1 hedits hc]
    exact h
  · obtain ⟨e', he', hdrawn⟩ := Line.perform_of_edits env h.1 hedits hc
    refine hdrawn.holds.mono ?_
    rintro _ ⟨tty, rfl | rfl⟩
    · exact he'.invariant h
    · exact he'.invariant h

theorem Invariant.perform (h : Invariant e) (env : Option (List Slots)) (c : Command) :
    Holds Loop.Ok (perform env c e) := by
  cases c with
  | closed | interrupt | enter => exact h
  | char | edit | clear | redraw | nothing => exact h.perform_of_edits rfl
  | eof =>
    by_cases hlen : e.len = 0
    · rw [Line.perform, if_pos hlen]
      exact h
    · refine h.perform_of_edits ?_
      simpa [Command.edits] using mt (len_eq_zero_iff h.1).2 hlen
  | complete =>
    refine (holds_kshowcomp h.1 env).bind fun e' he' => ?_
    exact (he'.invariant h).refresh.bind fun e h => h
  | move delta => exact (h.historymove delta).bind fun e h => h

theorem Invariant.readKey (h : Invariant e) (env : Option (List Slots)) :
    Holds Loop.Ok (readKey env e) := by
  rw [readKey_eq]
  apply Invariant.perform
  exact h

/-! ## The loop -/

/-- The line is empty at first, and in front of the history. -/
theorem Idle.lineStart (h : Idle e) (hi : e.historyi = 0) : Holds Loop.Ok (lineStart e) := by
  have hholds := holds_getcols e.tty
  obtain ⟨H, hH⟩ := exists_lists h.2.1 h.2.2
  cases hcols : getcols T e.tty with
  | error s =>
    rw [hcols] at hholds
    rw [Line.lineStart, hcols]
    exact hholds
  | ok r =>
    obtain ⟨e', hbegun, -, hstart⟩ := lineStart_eq h hi hH hcols
    rw [hstart]
    split_ifs
    · exact hbegun.invariant
    · exact hbegun.invariant

/-- In every round of the loop. -/
theorem Idle.rounds (h : Idle e) (env : Option (List Slots)) (p : Bytes) (n : ℕ) :
    Holds Loop.Ok (rounds env (beginLine p e) n) := by
  induction n with
  | zero =>
    apply Idle.lineStart
    · exact h
    · rfl
  | succ n ih =>
    refine ih.bind fun l hl => ?_
    cases l with
    | reading e => exact Invariant.readKey hl env
    | returned code e => exact hl

/-! ## Calls -/

theorem Invariant.idle (h : Invariant e) : Idle e :=
  ⟨h.1.last, h.2.1, zero_le_one.trans h.2.2.count_pos⟩

/-- The line that was entered is settled in the history. -/
theorem Invariant.replacehistory (h : Invariant e) : Holds Idle (replacehistory e) := by
  obtain ⟨H, hH⟩ := exists_lists h.2.1 (zero_le_one.trans h.2.2.count_pos)
  have hle := hH.length_le h.2.1
  cases H with
  | nil => exact absurd h.2.2.count_pos (by rw [hH.count_eq]; decide)
  | cons s H =>
    obtain ⟨history, count, hreplace, hlists⟩ := replacehistory_eq h.1 hH hle
    have hlen : (settled e.text.whole H).length ≤ (s :: H).length := by
      rw [settled]
      split_ifs
      · exact Nat.le_succ _
      · exact le_rfl
    have hok : ∀ t ∈ settled e.text.whole H, 0 ∉ t ∧ t.length ≤ lineMax - 1 := by
      intro t ht
      rcases mem_settled ht with rfl | ht
      · refine ⟨zero_notMem_cString _, ?_⟩
        exact (List.takeWhile_prefix _).length_le.trans (Nat.le_pred_of_lt (length_lt h.1))
      · exact hH.mem h.2.1 (List.mem_cons_of_mem s ht)
    rw [hreplace]
    refine ⟨h.1.last, hlists.historyOk (hlen.trans hle) hok, ?_⟩
    rw [hlists.count_eq]
    exact Int.natCast_nonneg _

theorem holds_endLine (h : Invariant e) (code : ℤ) :
    Holds (fun r => Idle r.2) (endLine (.returned code e)) := by
  have h₀ := h.1.pos_nonneg.trans h.1.pos_le
  have h₁ : e.len ≤ lineMax := h.1.len_le.trans (by decide)
  dsimp only [endLine]
  rw [if_pos (And.intro h₀ h₁)]
  split
  · exact h.idle
  · exact h.replacehistory.bind fun e h => h

/-- A call keeps to the arrays, and leaves the buffer and the history as the next one
    needs them. -/
theorem Idle.janetLineGet (h : Idle e) (env : Option (List Slots)) (p : Bytes) (input : Input) :
    janetLineGet env p input e ≠ .error .fault ∧
      ∀ line e', janetLineGet env p input e = .ok (line, e') → Idle e' := by
  cases input with
  | file s =>
    refine ⟨nofun, fun line e' hcall => ?_⟩
    obtain ⟨-, rfl⟩ := Prod.mk.inj (Except.ok.inj hcall)
    exact h
  | terminal n =>
    have hl := h.rounds env p n
    dsimp only [Line.janetLineGet]
    cases hr : Line.rounds env (beginLine p e) n with
    | error s =>
      rw [hr] at hl
      exact ⟨fun hf => hl.1 (Except.error.inj hf), nofun⟩
    | ok l =>
      rw [hr] at hl
      cases l with
      | reading e =>
        -- The user has not entered the line yet.
        exact ⟨nofun, nofun⟩
      | returned code e =>
        have hend := holds_endLine hl code
        refine ⟨fun hf => ?_, fun line e' hcall => ?_⟩
        · rw [show endLine (.returned code e) = _ from hf] at hend
          exact hend.1 rfl
        · rwa [show endLine (.returned code e) = _ from hcall] at hend

theorem Reachable.idle (h : Reachable e) : Idle e := by
  induction h with
  | initial tty => exact ⟨rfl, ⟨Int.natCast_nonneg _, fun i h₀ h₁ => absurd h₁ h₀.not_gt⟩, le_rfl⟩
  | call _ hcall ih => exact (ih.janetLineGet _ _ _).2 _ _ hcall
  | other tty _ ih => exact ih

/-- No call of `janet_line_get` leaves an array. -/
theorem janetLineGet_ne_fault (h : Reachable e) (env : Option (List Slots)) (p : Bytes)
    (input : Input) : janetLineGet env p input e ≠ .error .fault :=
  (h.idle.janetLineGet env p input).1

/-- Whatever the keys, the prompt, the environment and the calls before: no access of
    the loop leaves an array, no loop inside it goes on forever, and the invariant holds
    whenever the next key is read. -/
theorem line_invariant (h : Reachable e) (env : Option (List Slots)) (p : Bytes) (n : ℕ) :
    rounds env (beginLine p e) n ≠ .error .fault ∧
      rounds env (beginLine p e) n ≠ .error .fuel ∧
      ∀ e', rounds env (beginLine p e) n = .ok (.reading e') → Invariant e' := by
  have hl := h.idle.rounds env p n
  refine ⟨fun hf => ?_, fun hf => ?_, fun e' hr => ?_⟩
  · rw [hf] at hl
    exact hl.1 rfl
  · rw [hf] at hl
    exact hl.2 rfl
  · rwa [hr] at hl

theorem line_invariant_keyboard :
    ∃ e, rounds none (beginLine [0x3E] (initial (T := keyboard) [0x61, 0x62])) 2 =
      .ok (.reading e) ∧ Invariant e := by
  have h := line_invariant (.initial (T := keyboard) [0x61, 0x62]) none [0x3E] 2
  exact ⟨_, rfl, h.2.2 _ rfl⟩

end PunyGui.Line
