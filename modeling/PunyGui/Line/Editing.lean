import PunyGui.Line.Invariant

/-!
# Editing a text

The keys that edit the line, on a terminal that works.

* `perform_of_works`: whether a key acts as its operation.
* `typeKeys`: a text that is typed.
* `line_editing_iff`: a key acts as its operation, and a call returns the text that was
  typed, unless the line has to be drawn again behind a prompt that fills the row.
-/

namespace PunyGui.Line

open Text Libc Imp

variable {T : Terminal} {e : Editor T} (env : Option (List Slots))

/-! ## Terminals that work -/

section Works

variable {typed : T.State → Bytes} (W : T.Works typed)

include W

theorem Terminal.Works.write_ne (tty : T.State) (out : Bytes) : (T.write tty out).1 ≠ -1 := by
  rw [W.write_count]
  omega

/-- `refresh` draws the line unless it is clipped. -/
theorem Terminal.Works.refresh (h : TextOk e.buf e.len e.pos) :
    (Clipped e → goOn (refresh e) = .error .crash) ∧ (¬Clipped e →
      ∃ tty, typed tty = typed e.tty ∧ goOn (refresh e) = .ok (.reading { e with tty })) := by
  refine ⟨fun hclip => ?_, fun hclip => ?_⟩
  · rw [refresh_of_clipped h.pos_nonneg h.pos_le hclip]
    rfl
  · obtain ⟨out, -, hrefresh⟩ := refresh_of_not_clipped h.pos_nonneg h.pos_le hclip
    refine ⟨_, W.typed_write _ out, ?_⟩
    rw [hrefresh, if_neg (W.write_ne _ out)]
    rfl

theorem Drawn.of_works {r : Outcome (Loop T)} (hr : Drawn e r) (h : TextOk e.buf e.len e.pos) :
    (Clipped e → r = .error .crash) ∧
      (¬Clipped e → ∃ tty, typed tty = typed e.tty ∧ r = .ok (.reading { e with tty })) := by
  cases hr with
  | again => exact W.refresh h
  | cleared out hout =>
    have hpos : ¬(T.write e.tty out).1 ≤ 0 := by
      rw [W.write_count]
      have := List.length_pos_of_ne_nil hout
      omega
    rw [if_neg hpos, ← W.typed_write e.tty out]
    exact W.refresh (e := { e with tty := (T.write e.tty out).2 }) h
  | short c hclip =>
    rw [if_neg (W.write_ne _ [c])]
    exact ⟨fun hclip' => absurd hclip' hclip, fun _ => ⟨_, W.typed_write _ [c], rfl⟩⟩

/-- The line does not have to be drawn again, or it is not clipped then. -/
def Fits (plen cols : ℤ) (c : Command) (t : Zipper UInt8) : Prop :=
  plen < cols ∨ c.Silent t ∨ plen = cols ∧ (c.apply t).after ≠ []

omit W in
theorem not_clipped_iff (h : TextOk e.buf e.len e.pos) :
    ¬Clipped e ↔ e.plen < e.cols ∨ e.plen = e.cols ∧ e.text.after ≠ [] := by
  rw [Clipped, Ne, ← pos_eq_len_iff h]
  omega

/-- A key that edits the line acts as its operation exactly if the line fits. -/
theorem perform_of_works (h : TextOk e.buf e.len e.pos) {c : Command}
    (hedits : c.edits e.text = true) :
    (¬Fits e.plen e.cols c e.text → perform env c e = .error .crash) ∧
      (Fits e.plen e.cols c e.text → ∃ e' tty, Edited e (c.apply e.text) e' ∧
        typed tty = typed e.tty ∧ perform env c e = .ok (.reading { e' with tty })) := by
  by_cases hc : c.Silent e.text
  · refine ⟨fun hfits => absurd (.inr (.inl hc)) hfits, fun _ => ⟨e, e.tty, ?_, rfl, ?_⟩⟩
    · rw [Command.apply_of_silent hc]
      exact edited_self h
    · exact perform_of_silent env h hedits hc
  · obtain ⟨e', he', hdrawn⟩ := perform_of_edits env h hedits hc
    obtain ⟨hcrash, hok⟩ := hdrawn.of_works W he'.line
    have hfits : Fits e.plen e.cols c e.text ↔ ¬Clipped e' := by
      rw [not_clipped_iff he'.line, he'.text_eq, Fits]
      obtain ⟨_, _, _, rfl⟩ := he'.frame
      simp only [hc, false_or]
    rw [hfits, not_not]
    refine ⟨hcrash, fun hclip => ?_⟩
    obtain ⟨tty, htyped, hr⟩ := hok hclip
    refine ⟨e', tty, he', htyped.trans ?_, hr⟩
    obtain ⟨_, _, _, rfl⟩ := he'.frame
    rfl

end Works

/-! ## Typing -/

/-- What the keys that are typed do not change. -/
structure Kept (e e' : Editor T) : Prop where
  history : e'.history = e.history
  historyCount : e'.historyCount = e.historyCount
  historyi : e'.historyi = e.historyi
  plen : e'.plen = e.plen
  cols : e'.cols = e.cols

theorem Kept.refl (e : Editor T) : Kept e e := ⟨rfl, rfl, rfl, rfl, rfl⟩

theorem Kept.trans {e' e'' : Editor T} (h : Kept e e') (h' : Kept e' e'') : Kept e e'' :=
  ⟨h'.history.trans h.history, h'.historyCount.trans h.historyCount,
    h'.historyi.trans h.historyi, h'.plen.trans h.plen, h'.cols.trans h.cols⟩

theorem Edited.kept {t : Zipper UInt8} {e' : Editor T} (h : Edited e t e') (tty : T.State) :
    Kept e { e' with tty } := by
  obtain ⟨_, _, _, rfl⟩ := h.frame
  exact ⟨rfl, rfl, rfl, rfl, rfl⟩

/-- The text after some keys, if all of them edit it. -/
def typeKeys : Zipper UInt8 → List Command → Option (Zipper UInt8)
  | t, [] => some t
  | t, c :: cs => if c.edits t then typeKeys (c.apply t) cs else none

theorem typeKeys_cons {t t' : Zipper UInt8} {c : Command} {cs : List Command}
    (h : typeKeys t (c :: cs) = some t') :
    c.edits t = true ∧ typeKeys (c.apply t) cs = some t' := by
  rw [typeKeys] at h
  split_ifs at h with hc
  exact ⟨hc, h⟩

/-- The bytes are those of the keys. -/
def AreKeys (ks : List Bytes) (cs : List Command) : Prop :=
  List.Forall₂ (fun k c => command k = some c) ks cs

section Typing

variable {typed : T.State → Bytes} (W : T.Works typed) {k rest : Bytes} {c : Command}

include W

/-- The next round, if a key is typed that edits the line. -/
theorem readKey_of_typed (hi : Invariant e) (hk : command k = some c)
    (hedits : c.edits e.text = true) (htyped : typed e.tty = k ++ rest) :
    (¬Fits e.plen e.cols c e.text → readKey env e = .error .crash) ∧
      (Fits e.plen e.cols c e.text → ∃ e', readKey env e = .ok (.reading e') ∧
        e'.text = c.apply e.text ∧ Invariant e' ∧ typed e'.tty = rest ∧ Kept e e') := by
  obtain ⟨tty, hdecode, hrest⟩ := decode_of_typed W hk htyped
  obtain ⟨hcrash, hok⟩ := perform_of_works (e := { e with tty }) env W hi.1 hedits
  rw [readKey_eq, hdecode]
  refine ⟨hcrash, fun hfits => ?_⟩
  obtain ⟨e', tty', he', htyped', hr⟩ := hok hfits
  refine ⟨_, hr, he'.text_eq, he'.invariant hi, htyped'.trans hrest, ?_⟩
  have hkept := he'.kept tty'
  exact ⟨hkept.1, hkept.2, hkept.3, hkept.4, hkept.5⟩

variable {ks : List Bytes} {cs : List Command} {t : Zipper UInt8}

/-- The keys are typed one after the other. -/
theorem advance_of_typed (hks : AreKeys ks cs) (hi : Invariant e)
    (htyped : typed e.tty = ks.flatten ++ rest) (ht : typeKeys e.text cs = some t)
    (hfits : e.plen < e.cols ∨ ∀ c ∈ cs, c.Silent e.text) :
    ∃ e', advance env ks.length (.reading e) = .ok (.reading e') ∧ e'.text = t ∧
      Invariant e' ∧ typed e'.tty = rest ∧ Kept e e' := by
  induction hks generalizing e with
  | nil => exact ⟨e, rfl, Option.some.inj ht, hi, htyped, .refl e⟩
  | @cons k c ks cs hk _ ih =>
    obtain ⟨hedits, ht⟩ := typeKeys_cons ht
    rw [List.flatten_cons, List.append_assoc] at htyped
    have hfit : Fits e.plen e.cols c e.text :=
      hfits.imp_right fun hsilent => .inl (hsilent c List.mem_cons_self)
    obtain ⟨e₁, hread, htext, hi₁, htyped₁, hkept⟩ :=
      (readKey_of_typed env W hi hk hedits htyped).2 hfit
    have hfits₁ : e₁.plen < e₁.cols ∨ ∀ c ∈ cs, c.Silent e₁.text := by
      rw [hkept.plen, hkept.cols, htext]
      refine hfits.imp_right fun hsilent => ?_
      rw [Command.apply_of_silent (hsilent c List.mem_cons_self)]
      exact fun c' hc' => hsilent c' (List.mem_cons_of_mem c hc')
    obtain ⟨e₂, hadv, htext₂, hi₂, htyped₂, hkept₂⟩ :=
      ih hi₁ htyped₁ (htext.symm ▸ ht) hfits₁
    refine ⟨e₂, ?_, htext₂, hi₂, htyped₂, hkept.trans hkept₂⟩
    rw [List.length_cons, advance, show round env (.reading e) = _ from hread, ok_bind, hadv]

/-- Behind a prompt that fills the row, the first key that does anything on the empty line
    ends the program. -/
theorem advance_crash (hks : AreKeys ks cs) (hi : Invariant e)
    (htyped : typed e.tty = ks.flatten ++ rest) (ht : typeKeys e.text cs = some t)
    (hempty : e.text = ⟨[], []⟩) (hplen : ¬e.plen < e.cols)
    (hc : ∃ c ∈ cs, ¬c.Silent ⟨[], []⟩) {n : ℕ} (hn : ks.length ≤ n) :
    advance env n (.reading e) = .error .crash := by
  induction hks generalizing e n with
  | nil =>
    obtain ⟨c, hc, -⟩ := hc
    cases hc
  | @cons k c ks cs hk _ ih =>
    obtain ⟨hedits, ht⟩ := typeKeys_cons ht
    rw [List.flatten_cons, List.append_assoc] at htyped
    obtain ⟨hcrash, hok⟩ := readKey_of_typed env W hi hk hedits htyped
    obtain ⟨n, rfl⟩ := Nat.exists_eq_succ_of_ne_zero (Nat.ne_zero_of_lt hn)
    by_cases hsilent : c.Silent e.text
    · obtain ⟨e₁, hread, htext, hi₁, htyped₁, hkept⟩ := hok (.inr (.inl hsilent))
      rw [Command.apply_of_silent hsilent] at htext ht
      have hrest : ∃ c ∈ cs, ¬c.Silent ⟨[], []⟩ := by
        obtain ⟨c', hc', hloud⟩ := hc
        rcases List.mem_cons.1 hc' with rfl | hc'
        · exact absurd (hempty ▸ hsilent) hloud
        · exact ⟨c', hc', hloud⟩
      rw [advance, show round env (.reading e) = _ from hread, ok_bind]
      exact ih hi₁ htyped₁ (htext.symm ▸ ht) (htext.trans hempty)
        (by rwa [hkept.plen, hkept.cols]) hrest (Nat.le_of_succ_le_succ hn)
    · refine advance_of_error (l := .reading e) (hcrash ?_) n
      rintro (hlt | hs | ⟨-, hafter⟩)
      · exact hplen hlt
      · exact hsilent hs
      · exact hafter (hempty ▸ Command.after_apply_empty c)

/-- The first key, on an empty line that has been begun. -/
theorem exists_begun (h : Idle e) {p : Bytes} {cols : ℤ} {tty : T.State}
    (hcols : getcols T e.tty = .ok (cols, tty)) : ∃ H e', Lists e.history e.historyCount H ∧
      Begun (beginLine p e) H cols e' ∧ typed e'.tty = typed tty ∧
      lineStart (beginLine p e) = .ok (.reading e') := by
  obtain ⟨H, hH⟩ := exists_lists h.2.1 h.2.2
  obtain ⟨e', hbegun, htty, hstart⟩ := lineStart_eq (e := beginLine p e) h rfl hH hcols
  refine ⟨H, e', hH, hbegun, ?_, ?_⟩
  · rw [htty, W.typed_write]
  · rw [hstart, if_neg (W.write_ne _ _)]

variable {p : Bytes} {cols : ℤ} {tty : T.State} {n : ℕ}

/-- A call in which keys are typed that edit the line, and then Enter. -/
theorem janetLineGet_of_typed (h : Idle e) (hcols : getcols T e.tty = .ok (cols, tty))
    (hks : AreKeys ks cs) (htyped : typed tty = ks.flatten ++ 0x0D :: rest)
    (ht : typeKeys ⟨[], []⟩ cs = some t) (hn : ks.length < n)
    (hfits : (cString p).length < cols ∨ ∀ c ∈ cs, c.Silent ⟨[], []⟩) :
    ∃ e', janetLineGet env p (.terminal n) e = .ok (t.whole ++ [0x0A], e') := by
  obtain ⟨H, e₀, hH, hbegun, htyped₀, hstart⟩ := exists_begun (p := p) W h hcols
  rw [← hbegun.text] at ht
  obtain ⟨e₁, hadv, htext, hi, htyped₁, hkept⟩ :=
    advance_of_typed env W hks hbegun.invariant (htyped₀.trans htyped) ht
      (by rw [hbegun.plen, hbegun.cols, hbegun.text]; exact hfits)
  -- One more round reads Enter, and those after it read nothing.
  obtain ⟨tty₁, hdecode, -⟩ := decode_of_typed W (k := [0x0D]) rfl htyped₁
  have hround : round env (.reading e₁) =
      .ok (.returned 0 (clearlines { e₁ with tty := tty₁ })) := by
    rw [round, readKey_eq, hdecode]
    rfl
  obtain ⟨m, rfl⟩ := Nat.exists_eq_add_of_lt hn
  have hrounds : rounds env (beginLine p e) (ks.length + m + 1) =
      .ok (.returned 0 (clearlines { e₁ with tty := tty₁ })) := by
    rw [rounds_eq_advance, hstart, ok_bind, Nat.add_assoc, advance_add, hadv, ok_bind, advance,
      hround, ok_bind, advance_returned]
  have hlists : Lists e₁.history e₁.historyCount ([] :: H.take (historyMax - 1)) := by
    rw [hkept.history, hkept.historyCount]
    exact hbegun.lists
  obtain ⟨e₂, hend, -⟩ :=
    endLine_enter (e := clearlines { e₁ with tty := tty₁ }) hi hlists
  refine ⟨e₂, ?_⟩
  rw [janetLineGet, hrounds, ok_bind, hend, ← htext]
  rfl

/-- Behind a prompt that fills the row, such a call ends the program. -/
theorem janetLineGet_crash (h : Idle e) (hcols : getcols T e.tty = .ok (cols, tty))
    (hks : AreKeys ks cs) (htyped : typed tty = ks.flatten ++ 0x0D :: rest)
    (ht : typeKeys ⟨[], []⟩ cs = some t) (hn : ks.length < n)
    (hfits : ¬((cString p).length < cols ∨ ∀ c ∈ cs, c.Silent ⟨[], []⟩)) :
    janetLineGet env p (.terminal n) e = .error .crash := by
  obtain ⟨H, e₀, hH, hbegun, htyped₀, hstart⟩ := exists_begun (p := p) W h hcols
  rw [← hbegun.text] at ht
  rw [not_or] at hfits
  push Not at hfits
  have hplen : ¬e₀.plen < e₀.cols := by
    rw [hbegun.plen, hbegun.cols]
    exact not_lt.2 hfits.1
  have hadv := advance_crash env W hks hbegun.invariant (htyped₀.trans htyped) ht
    hbegun.text hplen hfits.2 hn.le
  rw [janetLineGet, rounds_eq_advance, hstart, ok_bind, hadv]
  rfl

/-- Every key that edits the line acts on the text as its operation, and a call returns the
    text of the keys before Enter, exactly if the line never has to be drawn again behind a
    prompt that fills the row. -/
theorem line_editing_iff :
    (∀ (e : Editor T) (k : Bytes) (c : Command) (rest : Bytes), Invariant e →
      command k = some c → c.edits e.text = true → typed e.tty = k ++ rest →
      ((∃ e', readKey env e = .ok (.reading e') ∧ e'.text = c.apply e.text ∧ Invariant e' ∧
          typed e'.tty = rest) ↔ Fits e.plen e.cols c e.text)) ∧
      ∀ (e : Editor T) (p : Bytes) (cols : ℤ) (tty : T.State) (ks : List Bytes)
        (cs : List Command) (t : Zipper UInt8) (rest : Bytes) (n : ℕ), Idle e →
        getcols T e.tty = .ok (cols, tty) → AreKeys ks cs →
        typed tty = ks.flatten ++ 0x0D :: rest → typeKeys ⟨[], []⟩ cs = some t →
        ks.length < n →
        ((∃ e', janetLineGet env p (.terminal n) e = .ok (t.whole ++ [0x0A], e')) ↔
          (cString p).length < cols ∨ ∀ c ∈ cs, c.Silent ⟨[], []⟩) := by
  refine ⟨fun e k c rest hi hk hedits htyped => ?_,
    fun e p cols tty ks cs t rest n h hcols hks htyped ht hn => ?_⟩
  · obtain ⟨hcrash, hok⟩ := readKey_of_typed env W hi hk hedits htyped
    constructor
    · rintro ⟨e', hread, -⟩
      by_contra hfits
      cases (hcrash hfits).symm.trans hread
    · intro hfits
      obtain ⟨e', hread, htext, hi', htyped', -⟩ := hok hfits
      exact ⟨e', hread, htext, hi', htyped'⟩
  · constructor
    · rintro ⟨e', hcall⟩
      by_contra hfits
      cases (janetLineGet_crash env W h hcols hks htyped ht hn hfits).symm.trans hcall
    · exact janetLineGet_of_typed env W h hcols hks htyped ht hn

end Typing

/-- On the keyboard, what has been typed is what is still to be read. -/
theorem keyboard_works : keyboard.Works fun s => s where
  read h := by
    subst h
    exact ⟨_, rfl, rfl⟩
  write_count _ _ := rfl
  typed_write _ _ := rfl

/-- An empty line, with an empty string in front of the history. -/
def begun (s : Bytes) : Editor keyboard :=
  { initial (T := keyboard) s with history := fun _ => some [], historyCount := 1 }

theorem invariant_begun (s : Bytes) : Invariant (begun s) :=
  ⟨⟨le_rfl, le_rfl, (by decide : (0 : ℤ) ≤ lineMax - 1), rfl, rfl⟩,
    ⟨(by decide : (1 : ℤ) ≤ historyMax), fun _ _ _ => ⟨[], rfl, List.not_mem_nil, Nat.zero_le _⟩⟩,
    ⟨le_rfl, le_rfl, Int.one_pos⟩⟩

/-- The key `a` on an empty line, and a call that gets `a`, ctrl-b and Enter. -/
theorem line_editing_iff_keyboard :
    ((∃ e', readKey none (begun [0x61]) = .ok (.reading e') ∧ e'.text = ⟨[0x61], []⟩ ∧
          Invariant e' ∧ e'.tty = []) ↔ Fits 2 80 (.char 0x61) ⟨[], []⟩) ∧
      ((∃ e', janetLineGet none [0x3E] (.terminal 3) (initial (T := keyboard) [0x61, 2, 0x0D]) =
          .ok ([0x61, 0x0A], e')) ↔
        (cString [0x3E]).length < (80 : ℤ) ∨
          ∀ c ∈ [Command.char 0x61, .edit .left], c.Silent ⟨[], []⟩) := by
  have h := line_editing_iff none keyboard_works
  refine ⟨h.1 (begun [0x61]) [0x61] (.char 0x61) [] (invariant_begun _) rfl rfl rfl, ?_⟩
  exact h.2 (initial [0x61, 2, 0x0D]) [0x3E] 80 _ [[0x61], [2]] _ ⟨[], [0x61]⟩ [] 3
    (Reachable.initial _).idle rfl (.cons rfl (.cons rfl .nil)) rfl rfl (by decide)

/-- Behind a prompt of 80 bytes, the first byte that is typed ends the program. -/
theorem line_editing_wide_prompt : ¬∃ e', janetLineGet none (List.replicate 80 0x3E) (.terminal 2)
    (initial (T := keyboard) [0x61, 0x0D]) = .ok ([0x61, 0x0A], e') := by
  rintro ⟨e', hcall⟩
  have hfits : ¬((cString (List.replicate 80 0x3E)).length < (80 : ℤ) ∨
      ∀ c ∈ [Command.char 0x61], c.Silent ⟨[], []⟩) := by
    rw [cString_eq_self_iff.2 (by simp)]
    simp [Command.Silent, Zipper.whole, lineMax]
  have hks : AreKeys [[0x61]] [.char 0x61] := .cons rfl .nil
  cases (janetLineGet_crash (n := 2) none keyboard_works (Reachable.initial _).idle rfl hks rfl rfl
    (by decide) hfits).symm.trans hcall

end PunyGui.Line
