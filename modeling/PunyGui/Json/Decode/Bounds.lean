import PunyGui.Json.Decode.Visits

/-!
# The bounds of the decoder

The decoder ends on every source, whatever it holds, without a look behind the
first zero byte.

* `Agree`: two runs on memories that are the same up to the first zero byte end in
  the same way, at or before it.
* `decodeOne_agree`: all runs of the decoder agree.
* `jsonDecode_bounds`: the read position only moves forward, up to the zero byte, and
  the calls are nested at most one deeper than the recursion guard.
-/

namespace PunyGui

open Binary64 Text Libc JsonText

/-- Two runs end in the same way, on memories that have `q` up to the first zero
    byte, and `t` and `u` behind it: with no fault, and with the pointer at or before
    the zero byte. -/
inductive Agree {α : Type} (q t u : Bytes) :
    Except (Stop × Bytes) (α × Bytes) → Except (Stop × Bytes) (α × Bytes) → Prop
  | ok (x : α) {q' : Bytes} (h : q' <:+ q) :
      Agree q t u (.ok (x, q' ++ 0 :: t)) (.ok (x, q' ++ 0 :: u))
  | error (msg : String) {q' : Bytes} (h : q' <:+ q) :
      Agree q t u (.error (.error msg, q' ++ 0 :: t)) (.error (.error msg, q' ++ 0 :: u))

section Strings

variable {α : Type} {q q' t u : Bytes}

theorem Agree.mono {r r' : Except (Stop × Bytes) (α × Bytes)} (h : Agree q t u r r')
    (hq : q <:+ q') : Agree q' t u r r' := by
  cases h with
  | ok x h => exact .ok x (h.trans hq)
  | error msg h => exact .error msg (h.trans hq)

theorem zero_notMem_suffix (h : q' <:+ q) (h0 : 0 ∉ q) : 0 ∉ q' := fun hq => h0 (h.subset hq)

/-- The same for the functions that do not move the pointer when they fail. -/
def AgreeAt (q t u : Bytes) (r r' : Except Stop (α × Bytes)) : Prop :=
  (∃ msg, r = .error (.error msg) ∧ r' = .error (.error msg)) ∨
    ∃ x q', q' <:+ q ∧ r = .ok (x, q' ++ 0 :: t) ∧ r' = .ok (x, q' ++ 0 :: u)

/-! ## Strings -/

/-- The hexadecimal digits end before the zero byte. -/
theorem decodeUtf16Escape_agree (h0 : 0 ∉ q) (t u : Bytes) :
    (∃ msg, decodeUtf16Escape (q ++ 0 :: t) = .error (.error msg) ∧
      decodeUtf16Escape (q ++ 0 :: u) = .error (.error msg)) ∨
    ∃ n, 4 ≤ q.length ∧ decodeUtf16Escape (q ++ 0 :: t) = .ok n ∧
      decodeUtf16Escape (q ++ 0 :: u) = .ok n := by
  -- With fewer than four bytes left, the zero byte is met where a digit should be.
  rcases q with _ | ⟨a, _ | ⟨b, _ | ⟨c, _ | ⟨d, q⟩⟩⟩⟩ <;>
    simp only [List.mem_cons, not_or, List.not_mem_nil, not_false_eq_true, and_true,
      eq_comm (a := (0 : UInt8))] at h0
  · exact .inl ⟨_, rfl, rfl⟩
  · refine .inl ⟨"unexpected end of source", ?_⟩
    simp [decodeUtf16Escape, deref, bind, Except.bind, h0]
  · refine .inl ⟨"unexpected end of source", ?_⟩
    simp [decodeUtf16Escape, deref, bind, Except.bind, h0]
  · refine .inl ⟨"unexpected end of source", ?_⟩
    simp [decodeUtf16Escape, deref, bind, Except.bind, h0]
  · simp only [decodeUtf16Escape, deref, bind, Except.bind, h0, List.cons_append,
      List.getElem?_cons_zero, List.getElem?_cons_succ, if_false]
    split_ifs with hneg
    · exact .inl ⟨_, rfl, rfl⟩
    · exact .inr ⟨_, by simp, rfl, rfl⟩

/-- The low surrogate that has to follow a high one ends before the zero byte. -/
theorem lowSurrogate_agree (h0 : 0 ∉ q) (t u : Bytes) (f : ℕ → ℕ) :
    let low (p : Bytes) : Except Stop (ℕ × ℕ) := do
      let c₅ ← deref p 0
      if c₅ ≠ 0x5C then .error (.error "expected utf-16 low surrogate pair") else
      let c₆ ← deref p 1
      if c₆ ≠ 0x75 then .error (.error "expected utf-16 low surrogate pair") else
      let lowsur ← decodeUtf16Escape (p.drop 2)
      if lowsur < 0xDC00 ∨ lowsur > 0xDFFF then
        .error (.error "expected utf-16 low surrogate pair")
      else .ok (f lowsur, 11)
    (∃ msg, low (q ++ 0 :: t) = .error (.error msg) ∧ low (q ++ 0 :: u) = .error (.error msg)) ∨
      ∃ n, 6 ≤ q.length ∧ low (q ++ 0 :: t) = .ok (n, 11) ∧ low (q ++ 0 :: u) = .ok (n, 11) := by
  -- The backslash, the `u` and the digits are read one after the other, each only if the
  -- one before it was there.
  rcases q with _ | ⟨a, _ | ⟨b, q⟩⟩ <;>
    simp only [deref, bind, Except.bind, List.nil_append, List.cons_append,
      List.getElem?_cons_zero, List.getElem?_cons_succ, List.drop_succ_cons, List.drop_zero]
  · exact .inl ⟨_, rfl, rfl⟩
  · split_ifs with h₅ h₆
    · exact .inl ⟨_, rfl, rfl⟩
    · exact .inl ⟨_, rfl, rfl⟩
    · exact absurd (by decide) h₆
  · split_ifs
    · exact .inl ⟨_, rfl, rfl⟩
    · exact .inl ⟨_, rfl, rfl⟩
    have h0 : 0 ∉ q := fun hq => h0 (List.mem_cons_of_mem _ (List.mem_cons_of_mem _ hq))
    rcases decodeUtf16Escape_agree h0 t u with ⟨msg, e₁, e₂⟩ | ⟨n, hlen, e₁, e₂⟩ <;>
      simp only [e₁, e₂]
    · exact .inl ⟨msg, rfl, rfl⟩
    split_ifs
    · exact .inl ⟨_, rfl, rfl⟩
    · exact .inr ⟨f n, by simpa using hlen, rfl, rfl⟩

/-- An escape, or two, end before the zero byte. -/
theorem decodeEscape_agree (h0 : 0 ∉ q) (t u : Bytes) :
    (∃ msg, decodeEscape (0x75 :: (q ++ 0 :: t)) = .error (.error msg) ∧
      decodeEscape (0x75 :: (q ++ 0 :: u)) = .error (.error msg)) ∨
    ∃ n k, k ≤ q.length ∧ decodeEscape (0x75 :: (q ++ 0 :: t)) = .ok (n, k + 1) ∧
      decodeEscape (0x75 :: (q ++ 0 :: u)) = .ok (n, k + 1) := by
  have hdrop : ∀ p : Bytes, List.drop 1 (0x75 :: p) = p := fun _ => rfl
  simp only [decodeEscape, hdrop]
  rcases decodeUtf16Escape_agree h0 t u with ⟨msg, e₁, e₂⟩ | ⟨n, hlen, e₁, e₂⟩ <;>
    rw [e₁, e₂]
  · exact .inl ⟨msg, rfl, rfl⟩
  rcases q with _ | ⟨a, _ | ⟨b, _ | ⟨c, _ | ⟨d, q⟩⟩⟩⟩ <;>
    simp only [List.length_cons, List.length_nil] at hlen <;> try omega
  have h0 : 0 ∉ q := fun hq => h0 (by simp [hq])
  dsimp only [bind, Except.bind]
  split_ifs with hlow hhigh
  · exact .inl ⟨_, rfl, rfl⟩
  · rcases lowSurrogate_agree h0 t u fun lowsur =>
        ((n - 0xD800) <<< 10) + (lowsur - 0xDC00) + 0x10000 with ⟨msg, e₁, e₂⟩ | ⟨n, hlen, e₁, e₂⟩
    · exact .inl ⟨msg, e₁, e₂⟩
    · exact .inr ⟨n, 10, by simpa using hlen, e₁, e₂⟩
  · exact .inr ⟨n, 4, by simp, rfl, rfl⟩

/-- A string ends before the zero byte. -/
theorem decodeStringLoop_agree {n m : ℕ} (h0 : 0 ∉ q) (hn : q.length < n) (hm : q.length < m)
    (t u buffer : Bytes) : AgreeAt q t u (decodeStringLoop n (q ++ 0 :: t) buffer)
      (decodeStringLoop m (q ++ 0 :: u) buffer) := by
  induction n generalizing q m buffer with
  | zero => omega
  | succ n ih =>
    obtain ⟨m, rfl⟩ := Nat.exists_eq_succ_of_ne_zero (Nat.ne_of_gt (Nat.zero_lt_of_lt hm))
    rcases q with _ | ⟨b, q⟩
    · exact .inl ⟨_, rfl, rfl⟩
    rw [List.length_cons] at hn hm
    have hq : 0 ∉ q := fun hq => h0 (List.mem_cons_of_mem _ hq)
    -- What is left of the string is read by the next turn.
    have hnext : ∀ q' buffer, q' <:+ q → AgreeAt (b :: q) t u
        (decodeStringLoop n (q' ++ 0 :: t) buffer) (decodeStringLoop m (q' ++ 0 :: u) buffer) := by
      intro q' buffer hs
      have hlen := hs.length_le
      rcases ih (m := m) (zero_notMem_suffix hs hq) (by omega) (by omega) buffer with
        h | ⟨x, q'', h, hx⟩
      · exact .inl h
      · exact .inr ⟨x, q'', (h.trans hs).trans (List.suffix_cons b q), hx⟩
    simp only [decodeStringLoop, deref, bind, Except.bind, List.cons_append,
      List.getElem?_cons_zero, List.getElem?_cons_succ, List.drop_succ_cons, List.drop_zero]
    split_ifs with hquote hlt hbs
    · exact .inr ⟨buffer, q, List.suffix_cons b q, rfl, rfl⟩
    · exact .inl ⟨_, rfl, rfl⟩
    · rcases q with _ | ⟨c, q⟩
      · exact .inl ⟨_, rfl, rfl⟩
      simp only [List.cons_append, List.getElem?_cons_zero, List.drop_succ_cons, List.drop_zero]
      split_ifs with hu
      · subst hu
        have hq' : 0 ∉ q := fun h => hq (List.mem_cons_of_mem _ h)
        rcases decodeEscape_agree hq' t u with ⟨msg, e₁, e₂⟩ | ⟨cp, k, hk, e₁, e₂⟩ <;>
          simp only [e₁, e₂, List.drop_succ_cons]
        · exact .inl ⟨msg, rfl, rfl⟩
        · rw [List.drop_append_of_le_length hk, List.drop_append_of_le_length hk]
          exact hnext _ _ ((List.drop_suffix k q).trans (List.suffix_cons _ q))
      · cases simpleEscape c with
        | none => exact .inl ⟨_, rfl, rfl⟩
        | some b' => exact hnext _ _ (List.suffix_cons c q)
    · exact hnext _ _ (List.suffix_refl q)

theorem decodeString_agree (h0 : 0 ∉ q) (t u : Bytes) :
    AgreeAt q t u (decodeString (q ++ 0 :: t)) (decodeString (q ++ 0 :: u)) :=
  decodeStringLoop_agree h0 (by simp) (by simp) t u []

/-- The scan of a string stops at the zero byte. -/
theorem decodeQuoted_agree (h0 : 0 ∉ q) (t u : Bytes) :
    Agree (0x22 :: q) t u (decodeQuoted (q ++ 0 :: t)) (decodeQuoted (q ++ 0 :: u)) := by
  have hstop : ∀ t, Stops plain (0 :: t) := fun t => stops_cons.2 rfl
  have hsuffix : q.dropWhile plain <:+ q := List.dropWhile_suffix plain
  simp only [decodeQuoted, dropWhile_append_stop (hstop _), takeWhile_append_stop (hstop _)]
  cases hd : q.dropWhile plain with
  | nil => exact .error _ (List.suffix_refl (0x22 :: q))
  | cons c cs =>
    rw [hd] at hsuffix
    simp only [List.cons_append]
    split_ifs with hbs hquote
    · rcases decodeString_agree h0 t u with ⟨msg, e₁, e₂⟩ | ⟨s, q', hs, e₁, e₂⟩ <;>
        simp only [e₁, e₂]
      · exact .error msg (List.suffix_cons 0x22 q)
      · exact .ok _ (hs.trans (List.suffix_cons 0x22 q))
    · exact .error _ (List.suffix_refl (0x22 :: q))
    · exact .ok _ (((List.suffix_cons c cs).trans hsuffix).trans (List.suffix_cons 0x22 q))

/-- An identifier ends before the zero byte. -/
theorem decodeIdent_agree {c : UInt8} {rest : Bytes} (hrest : 0 ∉ rest) (x : Janet) (h0 : 0 ∉ q)
    (t u : Bytes) : Agree (c :: q) t u (decodeIdent (c :: (q ++ 0 :: t)) rest x)
      (decodeIdent (c :: (q ++ 0 :: u)) rest x) := by
  have hexpect : (∃ msg, expectRest rest (q ++ 0 :: t) = .error (.error msg) ∧
      expectRest rest (q ++ 0 :: u) = .error (.error msg)) ∨
      ∃ q', q' <:+ q ∧ expectRest rest (q ++ 0 :: t) = .ok (q' ++ 0 :: t) ∧
        expectRest rest (q ++ 0 :: u) = .ok (q' ++ 0 :: u) := by
    induction rest generalizing q with
    | nil => exact .inr ⟨q, List.suffix_refl q, rfl, rfl⟩
    | cons l rest ih =>
      simp only [List.mem_cons, not_or] at hrest
      rcases q with _ | ⟨b, q⟩
      · -- No letter is the zero byte.
        exact .inl ⟨"bad identifier", by simp [expectRest, deref, bind, Except.bind, hrest.1]⟩
      simp only [expectRest, deref, bind, Except.bind, List.cons_append, List.getElem?_cons_zero,
        List.drop_succ_cons, List.drop_zero]
      split_ifs
      · exact .inl ⟨_, rfl, rfl⟩
      · rcases ih hrest.2 fun h => h0 (List.mem_cons_of_mem _ h) with h | ⟨q', hs, h⟩
        · exact .inl h
        · exact .inr ⟨q', hs.trans (List.suffix_cons b q), h⟩
  simp only [decodeIdent, List.drop_succ_cons, List.drop_zero]
  rcases hexpect with ⟨msg, e₁, e₂⟩ | ⟨q', hs, e₁, e₂⟩ <;> simp only [e₁, e₂]
  · exact .error msg (List.suffix_refl (c :: q))
  · exact .ok x (hs.trans (List.suffix_cons c q))

end Strings

/-! ## Values -/

section Values

variable {rt : Runtime} {q t u : Bytes}

theorem skipwhite_agree (q t : Bytes) : skipwhite (q ++ 0 :: t) = skipwhite q ++ 0 :: t :=
  dropWhile_append_stop (stops_cons.2 rfl) q

/-- `strtod` stops before the zero byte. -/
theorem strtod_agree {c : UInt8} {cs : Bytes} (hc : c = 0x2D ∨ (0x30 ≤ c ∧ c ≤ 0x39)) (t : Bytes) :
    strtod (c :: (cs ++ 0 :: t)) = ((strtod (c :: cs)).1, (strtod (c :: cs)).2 ++ 0 :: t) := by
  have hs : isspace c = false := by rcases hc with rfl | hc <;> grind [isspace]
  exact strtod_append (stops_cons.2 rfl) hs cs

theorem decodeNumber_agree {c : UInt8} {cs : Bytes} (hc : c = 0x2D ∨ (0x30 ≤ c ∧ c ≤ 0x39)) :
    let number (p : Bytes) : Except (Stop × Bytes) (Janet × Bytes) :=
      let (x, e) := strtod p
      if e = p then .error (.error "bad number", p) else .ok (.number x, e)
    Agree (c :: cs) t u (number (c :: (cs ++ 0 :: t))) (number (c :: (cs ++ 0 :: u))) := by
  dsimp only
  rw [strtod_agree hc t, strtod_agree hc u]
  simp only [← List.cons_append, List.append_left_inj]
  split_ifs
  · exact .error _ (List.suffix_refl _)
  · exact .ok _ (strtod_suffix (c :: cs))

theorem zero_notMem_letters : 0 ∉ ascii ['a', 'l', 's', 'e'] ∧ 0 ∉ ascii ['u', 'l', 'l'] ∧
    0 ∉ ascii ['r', 'u', 'e'] := by
  decide

/-- The byte at a pointer that is at or before the zero byte. -/
theorem exists_cons_zero (q t u : Bytes) : ∃ c cs cs', q ++ 0 :: t = c :: cs ∧
    q ++ 0 :: u = c :: cs' ∧
      (c ≠ 0 → ∃ q', q = c :: q' ∧ cs = q' ++ 0 :: t ∧ cs' = q' ++ 0 :: u) := by
  cases q with
  | nil => exact ⟨0, t, u, rfl, rfl, fun h => absurd rfl h⟩
  | cons c q => exact ⟨c, _, _, rfl, rfl, fun _ => ⟨q, rfl, rfl, rfl⟩⟩

/-- After an element or a member comes the closing bracket `b` or a comma. -/
theorem afterItem_agree {q' : Bytes} (hq : q' <:+ q) {b : UInt8} (hb : b ≠ 0) (x : Janet)
    {next next' : Bytes → Except (Stop × Bytes) (Janet × Bytes)}
    (hnext : ∀ r, r <:+ q → r.length + 1 ≤ q'.length →
      Agree q t u (next (r ++ 0 :: t)) (next' (r ++ 0 :: u))) :
    let after (next : Bytes → Except (Stop × Bytes) (Janet × Bytes)) (p : Bytes) :=
      match skipwhite p with
      | [] => .error (.fault, [])
      | c :: cs =>
        if c = b then .ok (x, cs)
        else if c ≠ 0x2C then .error (.error "expected comma", c :: cs)
        else next cs
    Agree q t u (after next (q' ++ 0 :: t)) (after next' (q' ++ 0 :: u)) := by
  have hw := (skipwhite_suffix q').trans hq
  have hlen := (skipwhite_suffix q').length_le
  dsimp only
  rw [skipwhite_agree, skipwhite_agree]
  -- The next byte may be the zero byte: then it is neither of the two.
  obtain ⟨c, cs, cs', e, e', hc⟩ := exists_cons_zero (skipwhite q') t u
  rw [e, e']
  dsimp only
  split_ifs with hend hcomma
  · obtain ⟨r, hr, rfl, rfl⟩ := hc (hend ▸ hb)
    exact .ok x ((List.suffix_cons c r).trans (hr ▸ hw))
  · rw [← e, ← e']
    exact .error _ hw
  · obtain ⟨r, hr, rfl, rfl⟩ := hc (by rw [not_not.1 hcomma]; decide)
    rw [hr] at hw hlen
    exact hnext r ((List.suffix_cons c r).trans hw) hlen

mutual

/-- All runs of the decoder agree, when they have the steps for what is before the
    zero byte. -/
theorem decodeOne_agree : ∀ {n m : ℕ} {q : Bytes} (d : ℕ), 0 ∉ q → 2 * q.length + 1 ≤ n →
    2 * q.length + 1 ≤ m →
    Agree q t u (decodeOne rt n (q ++ 0 :: t) d) (decodeOne rt m (q ++ 0 :: u) d)
  | n + 1, m + 1, q, d, h0, hn, hm => by
    have hsuffix := skipwhite_suffix q
    rw [decodeOne, decodeOne, skipwhite_agree, skipwhite_agree]
    -- The value of `null` is the same in both runs.
    generalize (if d &&& jsonNullToNil ≠ 0 then Janet.nil else nullKeyword) = null
    by_cases hg : d &&& 0xFFFF > rt.recursionGuard
    · rw [if_pos hg, if_pos hg]
      exact .error _ (List.suffix_refl q)
    rw [if_neg hg, if_neg hg]
    cases hs : skipwhite q with
    | nil =>
      -- The zero byte itself is the next byte.
      exact .error _ List.nil_suffix
    | cons c cs =>
      rw [hs] at hsuffix
      have hlen := hsuffix.length_le
      rw [List.length_cons] at hlen
      have hc : c ≠ 0 := fun hc => zero_notMem_suffix hsuffix h0 (by simp [hc])
      have hcs : 0 ∉ cs := zero_notMem_suffix ((List.suffix_cons c cs).trans hsuffix) h0
      simp only [List.cons_append]
      rw [if_neg hc, if_neg hc]
      by_cases hnum : c = 0x2D ∨ (0x30 ≤ c ∧ c ≤ 0x39)
      · rw [if_pos hnum, if_pos hnum]
        exact (decodeNumber_agree hnum).mono hsuffix
      rw [if_neg hnum, if_neg hnum]
      split_ifs with hf hn ht hq ha ho
      · exact (decodeIdent_agree zero_notMem_letters.1 _ hcs t u).mono hsuffix
      · exact (decodeIdent_agree zero_notMem_letters.2.1 _ hcs t u).mono hsuffix
      · exact (decodeIdent_agree zero_notMem_letters.2.2 _ hcs t u).mono hsuffix
      · exact (decodeQuoted_agree hcs t u).mono (hq ▸ hsuffix)
      · rw [skipwhite_agree, skipwhite_agree]
        have hw := skipwhite_suffix cs
        have hwlen := hw.length_le
        exact (decodeElements_agree (n := n) (m := m) d [] (zero_notMem_suffix hw hcs) (by omega)
          (by omega)).mono ((hw.trans (List.suffix_cons c cs)).trans hsuffix)
      · rw [skipwhite_agree, skipwhite_agree]
        have hw := skipwhite_suffix cs
        have hwlen := hw.length_le
        exact (decodeMembers_agree (n := n) (m := m) d _ (zero_notMem_suffix hw hcs) (by omega)
          (by omega)).mono ((hw.trans (List.suffix_cons c cs)).trans hsuffix)
      · exact .error _ hsuffix

theorem decodeElements_agree : ∀ {n m : ℕ} {q : Bytes} (d : ℕ) (array : List Janet), 0 ∉ q →
    2 * q.length + 2 ≤ n → 2 * q.length + 2 ≤ m → Agree q t u
      (decodeElements rt n (q ++ 0 :: t) d array) (decodeElements rt m (q ++ 0 :: u) d array)
  | n + 1, m + 1, q, d, array, h0, hn, hm => by
    have hone := decodeOne_agree (n := n) (m := m) (d + 1) h0
      (Nat.le_of_succ_le_succ hn) (Nat.le_of_succ_le_succ hm)
    obtain ⟨c, cs, cs', e, e', hc⟩ := exists_cons_zero q t u
    rw [e, e'] at hone ⊢
    rw [decodeElements, decodeElements]
    by_cases hend : c = 0x5D
    · rw [if_pos hend, if_pos hend]
      obtain ⟨r, rfl, rfl, rfl⟩ := hc (hend ▸ by decide)
      exact .ok _ (List.suffix_cons c r)
    rw [if_neg hend, if_neg hend]
    generalize decodeOne rt n (c :: cs) (d + 1) = r at hone ⊢
    generalize decodeOne rt m (c :: cs') (d + 1) = r' at hone ⊢
    cases hone with
    | error msg h => exact .error msg h
    | ok x h =>
      have hlen := h.length_le
      exact afterItem_agree h (by decide) _ fun r hr hrlen =>
        (decodeElements_agree (n := n) (m := m) d _ (zero_notMem_suffix hr h0) (by omega)
          (by omega)).mono hr

theorem decodeMembers_agree : ∀ {n m : ℕ} {q : Bytes} (d : ℕ) (table : Slots), 0 ∉ q →
    2 * q.length + 2 ≤ n → 2 * q.length + 2 ≤ m → Agree q t u
      (decodeMembers rt n (q ++ 0 :: t) d table) (decodeMembers rt m (q ++ 0 :: u) d table)
  | n + 1, m + 1, q, d, table, h0, hn, hm => by
    obtain ⟨c, cs, cs', e, e', hc⟩ := exists_cons_zero q t u
    rw [e, e', decodeMembers, decodeMembers]
    by_cases hend : c = 0x7D
    · rw [if_pos hend, if_pos hend]
      obtain ⟨r, rfl, rfl, rfl⟩ := hc (hend ▸ by decide)
      exact .ok _ (List.suffix_cons c r)
    have hw := skipwhite_suffix q
    have hwlen := hw.length_le
    have hkey := decodeOne_agree (n := n) (m := m) (d + 1) (zero_notMem_suffix hw h0) (by omega)
      (by omega)
    rw [if_neg hend, if_neg hend, ← e, ← e', skipwhite_agree, skipwhite_agree]
    obtain ⟨c, cs, cs', e, e', -⟩ := exists_cons_zero (skipwhite q) t u
    rw [e, e'] at hkey ⊢
    dsimp only
    by_cases hquote : c ≠ 0x22
    · rw [if_pos hquote, if_pos hquote, ← e, ← e']
      exact .error _ hw
    rw [if_neg hquote, if_neg hquote]
    -- The key, then the colon and the value: each begins where the one before has ended.
    generalize decodeOne rt n (c :: cs) (d + 1) = r at hkey ⊢
    generalize decodeOne rt m (c :: cs') (d + 1) = r' at hkey ⊢
    cases hkey with
    | error msg h => exact .error msg (h.trans hw)
    | @ok k q₁ h =>
      have hw₁ := ((skipwhite_suffix q₁).trans h).trans hw
      have hlen₁ := hw₁.length_le
      dsimp only
      rw [skipwhite_agree, skipwhite_agree]
      obtain ⟨c, cs, cs', e, e', hc⟩ := exists_cons_zero (skipwhite q₁) t u
      rw [e, e']
      dsimp only
      by_cases hcolon : c ≠ 0x3A
      · rw [if_pos hcolon, if_pos hcolon, ← e, ← e']
        exact .error _ hw₁
      rw [if_neg hcolon, if_neg hcolon]
      obtain ⟨q₂, h₂, rfl, rfl⟩ := hc (by rw [not_not.1 hcolon]; decide)
      rw [h₂] at hw₁ hlen₁
      rw [List.length_cons] at hlen₁
      have hs₂ := (List.suffix_cons c q₂).trans hw₁
      have hval := decodeOne_agree (n := n) (m := m) (d + 1) (zero_notMem_suffix hs₂ h0) (by omega)
        (by omega)
      generalize decodeOne rt n (q₂ ++ 0 :: t) (d + 1) = r at hval ⊢
      generalize decodeOne rt m (q₂ ++ 0 :: u) (d + 1) = r' at hval ⊢
      cases hval with
      | error msg h => exact .error msg (h.trans hs₂)
      | ok x h =>
        have hlen := h.length_le
        exact afterItem_agree (h.trans hs₂) (by decide) _ fun r hr hrlen =>
          (decodeMembers_agree (n := n) (m := m) d _ (zero_notMem_suffix hr h0) (by omega)
            (by omega)).mono hr

end

/-- A run of the decoder has no fault, ends, and moves the pointer forward. -/
theorem Agree.ends {r r' : Except (Stop × Bytes) (Janet × Bytes)} (h : Agree q t u r r') :
    (∃ x q', q' <:+ q ∧ r = .ok (x, q' ++ 0 :: t)) ∨
      ∃ msg q', q' <:+ q ∧ r = .error (.error msg, q' ++ 0 :: t) := by
  cases h with
  | ok x h => exact .inl ⟨x, _, h, rfl⟩
  | error msg h => exact .inr ⟨msg, _, h, rfl⟩

end Values

/-! ## `json/decode` -/

section Source

variable (rt : Runtime) (s : Bytes) (keywords nils : Bool)

/-- The visits of the run that `json/decode` makes. -/
def visits : List Visit :=
  (decodeOneLogged rt (2 * (s ++ [0]).length + 1) (s ++ [0]) (decodeFlags keywords nils)).1

/-- What is behind the first zero byte of the memory. -/
def afterZero : Bytes := (s ++ [0]).drop ((cString s).length + 1)

theorem source_eq : s ++ [0] = cString s ++ 0 :: afterZero s := by
  have hdrop : ∀ s : Bytes,
      s ++ [0] = cString s ++ 0 :: (s ++ [0]).drop ((cString s).length + 1) := by
    intro s
    induction s with
    | nil => rfl
    | cons c s ih =>
      by_cases hc : c = 0
      · subst hc
        rfl
      · rw [cString_cons hc, List.cons_append, List.cons_append, List.length_cons,
          List.drop_succ_cons]
        exact congrArg (c :: ·) ih
  exact hdrop s

end Source

section Source

variable {rt : Runtime} {s : Bytes} {keywords nils : Bool}

theorem within_visits : Within rt (decodeFlags keywords nils) (s ++ [0])
    (decodeOneLogged rt (2 * (s ++ [0]).length + 1) (s ++ [0]) (decodeFlags keywords nils)) :=
  decodeOneLogged_within _ _ (Nat.zero_le _)

variable (rt s keywords nils) in
/-- What is behind the zero byte does not matter to the run of `json/decode`. -/
theorem decodeOne_agree_source (u : Bytes) : Agree (cString s) (afterZero s) u
    (decodeOne rt (2 * (cString s ++ 0 :: afterZero s).length + 1) (cString s ++ 0 :: afterZero s)
      (decodeFlags keywords nils))
    (decodeOne rt (2 * (cString s ++ 0 :: u).length + 1) (cString s ++ 0 :: u)
      (decodeFlags keywords nils)) :=
  decodeOne_agree _ (zero_notMem_cString s) (by simp only [List.length_append]; omega)
    (by simp only [List.length_append]; omega)

variable (rt s keywords nils) in
/-- The run ends at or before the zero byte. -/
theorem finish_visits : ∃ q, q <:+ cString s ∧
    LoggedRun.finish (decodeOneLogged rt (2 * (s ++ [0]).length + 1) (s ++ [0])
      (decodeFlags keywords nils)).2 = q ++ 0 :: afterZero s := by
  have hagree := decodeOne_agree_source rt s keywords nils (afterZero s)
  rw [decodeOneLogged_snd, source_eq s]
  rcases hagree.ends with ⟨x, q, hq, e⟩ | ⟨msg, q, hq, e⟩
  · exact ⟨q, hq, by rw [e]; rfl⟩
  · exact ⟨q, hq, by rw [e]; rfl⟩

/-- What is between two read positions at or before the zero byte is one, too. -/
theorem exists_suffix_of_between {p q r t : Bytes} (hr : r ++ 0 :: t <:+ p)
    (hp : p <:+ q ++ 0 :: t) : ∃ q', q' <:+ q ∧ p = q' ++ 0 :: t := by
  obtain ⟨l, rfl⟩ := hr
  obtain ⟨l', h⟩ := hp
  rw [← List.append_assoc l, ← List.append_assoc l'] at h
  exact ⟨l ++ r, ⟨l', List.append_cancel_right h⟩, (List.append_assoc l r _).symm⟩

/-- The position of a pointer at or before the zero byte. -/
theorem position_eq {p q t : Bytes} :
    (p ++ 0 :: t).length - (q ++ 0 :: t).length = p.length - q.length := by
  simp only [List.length_append]
  omega

/-- What is behind the first zero byte does not matter. -/
theorem jsonDecode_agree :
    (∃ x, jsonDecode rt s keywords nils = .ok x ∧ jsonDecode rt (cString s) keywords nils = .ok x) ∨
      ∃ msg pos, pos ≤ (cString s).length ∧
        jsonDecode rt s keywords nils = .error (.error msg, pos) ∧
        jsonDecode rt (cString s) keywords nils = .error (.error msg, pos) := by
  have hagree := decodeOne_agree_source rt s keywords nils []
  simp only [jsonDecode, source_eq s]
  generalize decodeOne rt _ (cString s ++ 0 :: afterZero s) _ = r at hagree ⊢
  generalize decodeOne rt _ (cString s ++ [0]) _ = r' at hagree ⊢
  cases hagree with
  | @error msg q h =>
    refine .inr ⟨msg, (cString s).length - q.length, Nat.sub_le .., ?_, ?_⟩ <;> dsimp only <;>
      rw [position_eq]
  | @ok x q h =>
    dsimp only
    rw [skipwhite_agree, skipwhite_agree]
    -- A byte other than the zero byte behind the value is one token too many.
    obtain ⟨c, cs, cs', e, e', -⟩ := exists_cons_zero (skipwhite q) (afterZero s) []
    rw [e, e']
    dsimp only
    split_ifs with hend
    · refine .inr ⟨"unexpected extra token", (cString s).length - (skipwhite q).length,
        Nat.sub_le .., ?_, ?_⟩
      · rw [← e, position_eq]
      · rw [← e', position_eq]
    · exact .inl ⟨x, rfl, rfl⟩

end Source

/-- `json/decode` ends, on every source and at every depth, with a value or a message
    whose position is not behind the first zero byte, and does not depend on what is
    behind it. Where the calls of its run begin and end, in order, the read position
    moves forward only, and up to the first zero byte at most, and they are nested one
    deeper than the recursion guard at most. -/
theorem jsonDecode_bounds (rt : Runtime) (s : Bytes) (keywords nils : Bool) :
    (∀ e pos, jsonDecode rt s keywords nils = .error (e, pos) →
      (∃ msg, e = .error msg) ∧ pos ≤ (cString s).length) ∧
    jsonDecode rt s keywords nils = jsonDecode rt (cString s) keywords nils ∧
    (∀ n p d, (decodeOneLogged rt n p d).2 = decodeOne rt n p d) ∧
    (visits rt s keywords nils).Pairwise (fun v v' => v'.pointer <:+ v.pointer) ∧
    ∀ v ∈ visits rt s keywords nils,
      (∃ q, q <:+ cString s ∧ v.pointer = q ++ 0 :: afterZero s) ∧
      ∃ l ≤ rt.recursionGuard + 1, v.depth = decodeFlags keywords nils + l := by
  refine ⟨fun e pos he => ?_, ?_, decodeOneLogged_snd, within_visits.forward, fun v hv => ?_⟩
  · rcases jsonDecode_agree with ⟨x, hx, -⟩ | ⟨msg, pos', hpos, hmsg, -⟩
    · cases he.symm.trans hx
    · cases he.symm.trans hmsg
      exact ⟨⟨msg, rfl⟩, hpos⟩
  · rcases jsonDecode_agree with ⟨x, hx, hx'⟩ | ⟨msg, pos, -, hmsg, hmsg'⟩
    · rw [hx, hx']
    · rw [hmsg, hmsg']
  · -- The run ends at or before the zero byte, so none of its calls has been behind it.
    obtain ⟨q, -, hq⟩ := finish_visits rt s keywords nils
    refine ⟨exists_suffix_of_between (hq ▸ within_visits.ends v hv) ?_, within_visits.nested v hv⟩
    rw [← source_eq s]
    exact within_visits.begins v hv

end PunyGui
