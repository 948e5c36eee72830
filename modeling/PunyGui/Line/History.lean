import PunyGui.Line.Text

/-!
# The history of the line editor

What the functions of the history do to it, seen as a list of strings, the newest first.

* `Lists`: the array has the strings of a list.
* `addhistory_eq`, `replacehistory_eq`: the line goes in front of the list when it is
  begun, and is settled when it is entered.
-/

namespace PunyGui.Line

open Text Libc Imp

/-- The strings in the array, the newest first. -/
structure Lists (history : ℤ → Option Bytes) (count : ℤ) (H : List Bytes) : Prop where
  count_eq : count = H.length
  entry {i : ℕ} (hi : i < H.length) : history i = some H[i]

variable {T : Terminal} {e : Editor T} {history : ℤ → Option Bytes} {count : ℤ} {H : List Bytes}
  {s : Bytes}

theorem Lists.unique {H' : List Bytes} (h : Lists history count H) (h' : Lists history count H') :
    H = H' := by
  have hlen : H.length = H'.length := Int.ofNat.inj (h.count_eq.symm.trans h'.count_eq)
  refine List.ext_getElem hlen fun i h₁ h₂ => ?_
  exact Option.some.inj ((h.entry h₁).symm.trans (h'.entry h₂))

theorem exists_lists (h : HistoryOk history count) (hcount : 0 ≤ count) :
    ∃ H, Lists history count H := by
  refine ⟨(cells history 0 count.toNat).map (Option.getD · []), ?_, fun {i} hi => ?_⟩
  · rw [List.length_map, length_cells, Int.toNat_of_nonneg hcount]
  · rw [List.length_map, length_cells] at hi
    obtain ⟨s, hs, -⟩ := h.entries i (Int.natCast_nonneg i) (by omega)
    rw [List.getElem_map, getElem_cells, zero_add, hs, Option.getD_some]

/-- What is known of a string of the history. -/
theorem Lists.mem (hH : Lists history count H) (h : HistoryOk history count) (hs : s ∈ H) :
    0 ∉ s ∧ s.length ≤ lineMax - 1 := by
  obtain ⟨i, hi, rfl⟩ := List.getElem_of_mem hs
  obtain ⟨s, hs, hok⟩ := h.entries i (Int.natCast_nonneg i) (by rw [hH.count_eq]; omega)
  rw [hH.entry hi] at hs
  exact Option.some.inj hs ▸ hok

theorem Lists.length_le (hH : Lists history count H) (h : HistoryOk history count) :
    H.length ≤ historyMax := by
  have hle := h.count_le
  rw [hH.count_eq] at hle
  omega

theorem Lists.historyOk (hH : Lists history count H) (hle : H.length ≤ historyMax)
    (hok : ∀ s ∈ H, 0 ∉ s ∧ s.length ≤ lineMax - 1) : HistoryOk history count where
  count_le := by
    rw [hH.count_eq]
    exact Int.ofNat_le.2 hle
  entries i h₀ h₁ := by
    obtain ⟨i, rfl⟩ := Int.eq_ofNat_of_zero_le h₀
    have hi : i < H.length := by
      rw [hH.count_eq] at h₁
      exact Int.ofNat_lt.1 h₁
    exact ⟨H[i], hH.entry hi, hok _ (List.getElem_mem hi)⟩

/-! ## Strings in the buffer -/

/-- The string in the buffer is the text, up to its first zero byte. -/
theorem cstring_eq_text (h : TextOk e.buf e.len e.pos) :
    e.cstring = .ok (cString e.text.whole) := by
  have hlen := len_eq_length h
  have hz := h.terminated
  rw [hlen] at hz
  rw [Editor.cstring, cstring_eq (length_lt h) hz, (spells_text h).cells_eq]

/-! ## The functions -/

theorem historyEntry_eq (hH : Lists e.history e.historyCount H) {i : ℕ} (hi : i < H.length)
    (hle : H.length ≤ historyMax) : historyEntry e i = .ok H[i] := by
  rw [historyEntry, Imp.load_eq (Int.natCast_nonneg i) (by omega), ok_bind, hH.entry hi]
  rfl

/-- A string in front of those that are moved up. -/
theorem Lists.push (hH : Lists history count H) {k : ℕ} (hk : k ≤ H.length) (s : Bytes) :
    Lists (Function.update (fun i => if 1 ≤ i ∧ i ≤ k then history (i - 1) else history i)
      0 (some s)) (k + 1) (s :: H.take k) where
  count_eq := by simp [hk]
  entry {i} hi := by
    rw [List.length_cons, List.length_take, Nat.min_eq_left hk] at hi
    cases i with
    | zero => exact Function.update_self ..
    | succ i =>
      rw [Function.update_of_ne (by omega), if_pos (by omega), List.getElem_cons_succ,
        List.getElem_take, ← hH.entry (by omega)]
      congr 1
      omega

/-- A string that is stored behind those of the list. -/
theorem Lists.update (hH : Lists history count H) {i : ℤ} (hi : H.length ≤ i) (s : Bytes) :
    Lists (Function.update history i (some s)) count H where
  count_eq := hH.count_eq
  entry {j} hj := by
    rw [Function.update_of_ne (by omega), hH.entry hj]

/-- The line goes in front of the history, and the string that was the last one of a full
    history is lost. -/
theorem addhistory_eq (hs : e.cstring = .ok s) (hH : Lists e.history e.historyCount H)
    (hle : H.length ≤ historyMax) : ∃ history count,
      addhistory e = .ok { e with history, historyCount := count } ∧
        Lists history count (s :: H.take (historyMax - 1)) := by
  have hmax : historyMax = 100 := rfl
  have hcount := hH.count_eq
  rw [addhistory, hs, ok_bind]
  split_ifs with hfull
  · -- One more cell is used, which the shift overwrites.
    have hlt : H.length < historyMax := by omega
    have hpush := (hH.update hcount.ge s).push le_rfl s
    rw [List.take_of_length_le le_rfl] at hpush
    rw [List.take_of_length_le (by omega), storeHistory_eq (by omega) hfull, ok_bind]
    simp only [hcount, pure_bind, add_sub_cancel_right, Int.toNat_natCast]
    rw [shiftUp_eq hlt, ok_bind, storeHistory_eq le_rfl (by decide)]
    exact ⟨_, _, rfl, hcount ▸ hpush⟩
  · -- The last string is freed, and the shift goes over its cell.
    have hfull' : e.historyCount = (99 : ℕ) + 1 := by omega
    have hentry := historyEntry_eq hH (i := historyMax - 1) (by omega) hle
    have hpush := hH.push (k := historyMax - 1) (by omega) s
    dsimp only
    rw [show ((historyMax : ℤ) - 1) = (historyMax - 1 : ℕ) from rfl, hentry]
    simp only [ok_bind, hfull', pure_bind, add_sub_cancel_right, Int.toNat_natCast]
    rw [shiftUp_eq (by decide), ok_bind, storeHistory_eq le_rfl (by decide)]
    exact ⟨_, _, rfl, hpush⟩

/-! ## The line that is entered -/

/-- The history once a line is entered, of which the last one had a place in front of `H`. -/
def settled (t : Bytes) (H : List Bytes) : List Bytes :=
  if t = [] ∨ H.head? = some (cString t) then H else cString t :: H

theorem mem_settled {t : Bytes} (hs : s ∈ settled t H) : s = cString t ∨ s ∈ H := by
  rw [settled] at hs
  split_ifs at hs
  · exact .inr hs
  · exact List.mem_cons.1 hs

/-- The first string of the history is left out. -/
theorem Lists.pop (hH : Lists history count (s :: H)) :
    Lists (fun i => if 0 ≤ i ∧ i < (0 : ℕ) + (H.length : ℕ) then history (i + 1) else history i)
      (count - 1) H where
  count_eq := by
    rw [hH.count_eq, List.length_cons]
    push_cast
    ring
  entry {i} hi := by
    rw [if_pos (by omega), ← List.getElem_cons_succ s H i (Nat.succ_lt_succ hi),
      ← hH.entry (Nat.succ_lt_succ hi)]
    push_cast
    rfl

theorem repeatsHistory_eq (h : TextOk e.buf e.len e.pos)
    (hH : Lists e.history e.historyCount (s :: H)) (hle : (s :: H).length ≤ historyMax) :
    repeatsHistory e =
      .ok (decide (e.text.whole = [] ∨ H.head? = some (cString e.text.whole))) := by
  have hcount := hH.count_eq
  rw [repeatsHistory]
  split_ifs with hlen hmany
  · rw [decide_eq_true (.inl ((len_eq_zero_iff h).1 hlen))]
    rfl
  · have hne : e.text.whole ≠ [] := mt (len_eq_zero_iff h).2 hlen
    cases H with
    | nil =>
      rw [hcount] at hmany
      simp at hmany
    | cons s' H =>
      rw [cstring_eq_text h, ok_bind, show (1 : ℤ) = (1 : ℕ) from rfl,
        historyEntry_eq hH (by simp) hle, ok_bind]
      simp [hne, eq_comm]
      rfl
  · have hne : e.text.whole ≠ [] := mt (len_eq_zero_iff h).2 hlen
    cases H with
    | nil => simp [hne]; rfl
    | cons s' H =>
      rw [hcount, List.length_cons, List.length_cons] at hmany
      omega

/-- The line that is entered takes the place of the first string, unless it is empty or
    the one entered before. -/
theorem replacehistory_eq (h : TextOk e.buf e.len e.pos)
    (hH : Lists e.history e.historyCount (s :: H)) (hle : (s :: H).length ≤ historyMax) :
    ∃ history count, replacehistory e = .ok { e with history, historyCount := count } ∧
      Lists history count (settled e.text.whole H) := by
  have hcount := hH.count_eq
  have hentry : historyEntry e 0 = .ok s := historyEntry_eq hH (i := 0) (Nat.succ_pos _) hle
  rw [replacehistory, repeatsHistory_eq h hH hle, ok_bind, settled]
  by_cases hagain : e.text.whole = [] ∨ H.head? = some (cString e.text.whole)
  · rw [if_pos (decide_eq_true hagain), if_pos hagain, hentry, ok_bind]
    have hn : (e.historyCount - 1).toNat = H.length := by
      rw [hcount, List.length_cons]
      omega
    rw [List.length_cons] at hle
    rw [hn, shiftDown_eq (by omega), ok_bind]
    exact ⟨_, _, rfl, hH.pop⟩
  · rw [if_neg (by simp [hagain]), if_neg hagain, cstring_eq_text h, ok_bind, hentry, ok_bind,
      storeHistory_eq le_rfl (by decide)]
    refine ⟨_, _, rfl, hcount, fun {i} hi => ?_⟩
    cases i with
    | zero => exact Function.update_self ..
    | succ i =>
      rw [Function.update_of_ne (by omega)]
      exact hH.entry hi

end PunyGui.Line
