import PunyGui.Line.Editing

/-!
# Lines from a terminal and from a file

The same line, entered on a terminal and read from a file.

* `readable`: what is left of a line on a terminal.
* `Agrees`: a call returns the line from both.
* `agrees_iff`: it does so if the line is ASCII and fits the buffer, and the prompt is
  shorter than the row.
-/

namespace PunyGui.Line

open Text Libc Imp

variable {T : Terminal} {e : Editor T} {env : Option (List Slots)} {w : Bytes}

/-- The bytes of a line are no control bytes. -/
def IsText (w : Bytes) : Prop := ∀ c ∈ w, 0x20 ≤ c ∧ c ≠ 0x7F

/-! ## From a file -/

theorem simpleline_append (h : 0x0A ∉ w) (rest : Bytes) :
    simpleline (w ++ 0x0A :: rest) = w ++ [0x0A] := by
  induction w with
  | nil => rfl
  | cons c w ih =>
    rw [List.mem_cons, not_or] at h
    rw [List.cons_append, simpleline, if_neg (Ne.symm h.1), ih h.2]
    rfl

theorem IsText.not_mem (h : IsText w) : 0x0A ∉ w := fun hmem =>
  absurd (h _ hmem).1 (by decide)

/-! ## From a terminal -/

theorem lt_del_iff {c : UInt8} (h : c ≠ 0x7F) : c < 0x7F ↔ c < 0x80 := by
  rw [Ne, ← UInt8.toNat_inj] at h
  rw [UInt8.lt_iff_toNat_lt, UInt8.lt_iff_toNat_lt]
  simp only [UInt8.reduceToNat] at h ⊢
  omega

/-- The command of a byte of a line: bytes that are no ASCII characters have none. -/
theorem keyCommand_of_text {c : UInt8} (h : 0x20 ≤ c ∧ c ≠ 0x7F) :
    keyCommand c = if c < 0x80 then .char c else .nothing := by
  fun_cases keyCommand c
  case case18 hlt => rw [if_pos ((lt_del_iff h.2).1 hlt.2)]
  case case19 hlt => rw [if_neg fun hc => hlt ⟨h.1, (lt_del_iff h.2).2 hc⟩]
  all_goals exact absurd h (by decide)

theorem command_of_text {c : UInt8} (h : 0x20 ≤ c ∧ c ≠ 0x7F) :
    command [c] = some (if c < 0x80 then .char c else .nothing) := by
  have hesc : c ≠ 0x1B := fun hc => absurd h.1 (by rw [hc]; decide)
  rw [← keyCommand_of_text h]
  exact if_neg hesc

/-- The commands of a line. -/
def charCommands (w : Bytes) : List Command :=
  w.map fun c => if c < 0x80 then .char c else .nothing

theorem areKeys_charCommands (h : IsText w) : AreKeys (w.map fun c => [c]) (charCommands w) := by
  rw [AreKeys, charCommands, List.forall₂_map_left_iff, List.forall₂_map_right_iff,
    List.forall₂_same]
  exact fun c hc => command_of_text (h c hc)

/-- What is left of a line behind the text `t`: the ASCII characters, as far as the buffer
    goes. -/
def readable (t w : Bytes) : Bytes :=
  t ++ (w.filter (· < 0x80)).take (lineMax - 1 - t.length)

theorem typeKeys_charCommands (t w : Bytes) :
    typeKeys ⟨t, []⟩ (charCommands w) = some ⟨readable t w, []⟩ := by
  induction w generalizing t with
  | nil => simp [typeKeys, charCommands, readable]
  | cons c w ih =>
    rw [charCommands, List.map_cons, ← charCommands]
    by_cases hc : c < 0x80
    · rw [if_pos hc]
      refine (if_pos rfl).trans ?_
      have hwhole : (⟨t, []⟩ : Zipper UInt8).whole = t := List.append_nil t
      rw [Command.apply, hwhole]
      split_ifs with hlen
      · have hroom : lineMax - 1 - t.length = lineMax - 1 - (t ++ [c]).length + 1 := by
          rw [List.length_append, List.length_singleton]
          omega
        rw [Zipper.insert, ih, readable, readable, List.filter_cons_of_pos (by simpa using hc),
          hroom, List.take_succ_cons, List.append_assoc, List.singleton_append]
      · have hroom : lineMax - 1 - t.length = 0 := by omega
        rw [ih, readable, readable, hroom, List.take_zero, List.take_zero]
    · rw [if_neg hc]
      refine (if_pos rfl).trans ((ih t).trans ?_)
      rw [readable, readable, List.filter_cons_of_neg (by simpa using hc)]

/-! ## Agreement -/

/-- A call returns the line, whether it is entered on the terminal or read from a file. -/
def Agrees (env : Option (List Slots)) (p : Bytes) (n : ℕ) (e : Editor T) (w : Bytes) : Prop :=
  (∃ e', janetLineGet env p (.terminal n) e = .ok (w ++ [0x0A], e')) ∧
    ∃ e', janetLineGet env p (.file (w ++ [0x0A])) e = .ok (w ++ [0x0A], e')

/-- From a file, the line is returned as it is. -/
theorem janetLineGet_file (env : Option (List Slots)) (p : Bytes) (e : Editor T)
    (hw : 0x0A ∉ w) :
    ∃ e', janetLineGet env p (.file (w ++ [0x0A])) e = .ok (w ++ [0x0A], e') := by
  refine ⟨beginLine p e, ?_⟩
  rw [janetLineGet, simpleline_append hw]
  rfl

theorem readable_eq_self_iff :
    readable [] w = w ↔ (∀ c ∈ w, c < 0x80) ∧ w.length ≤ lineMax - 1 := by
  rw [readable, List.nil_append, List.length_nil, Nat.sub_zero]
  constructor
  · intro h
    refine ⟨fun c hc => ?_, ?_⟩
    · rw [← h] at hc
      simpa using (List.mem_filter.1 (List.mem_of_mem_take hc)).2
    · rw [← h, List.length_take]
      exact Nat.min_le_left _ _
  · rintro ⟨hascii, hlen⟩
    rw [List.filter_eq_self.2 (by simpa using hascii), List.take_of_length_le hlen]

theorem silent_charCommands :
    (∀ c ∈ charCommands w, c.Silent ⟨[], []⟩) ↔ ∀ c ∈ w, ¬c < 0x80 := by
  rw [charCommands, List.forall_mem_map]
  refine forall₂_congr fun c _ => ?_
  by_cases hc : c < 0x80
  · simp [hc, Command.Silent, Zipper.whole, lineMax]
  · simp [hc, Command.Silent]

section Agreement

variable {typed : T.State → Bytes} (W : T.Works typed)

include W

/-- The two agree on an empty line; on any other line, they do if it has ASCII characters
    only, and no more than the buffer takes, and the prompt is shorter than the row. -/
theorem agrees_iff (h : Idle e) {p rest : Bytes} {cols : ℤ} {tty : T.State} {n : ℕ}
    (hcols : getcols T e.tty = .ok (cols, tty)) (hw : IsText w)
    (htyped : typed tty = w ++ 0x0D :: rest) (hn : w.length < n) :
    Agrees env p n e w ↔
      w = [] ∨ (∀ c ∈ w, c < 0x80) ∧ w.length ≤ lineMax - 1 ∧ (cString p).length < cols := by
  have hks := areKeys_charCommands hw
  have htyped' : typed tty = (w.map fun c => [c]).flatten ++ 0x0D :: rest := by
    rw [htyped, ← List.flatMap_def, List.flatMap_singleton']
  have hn' : (w.map fun c => [c]).length < n := by rwa [List.length_map]
  have ht := typeKeys_charCommands [] w
  rw [Agrees, and_iff_left (janetLineGet_file env p e hw.not_mem)]
  by_cases hfits : (cString p).length < cols ∨ ∀ c ∈ charCommands w, c.Silent ⟨[], []⟩
  · obtain ⟨e', hcall⟩ := janetLineGet_of_typed env W h hcols hks htyped' ht hn' hfits
    rw [Zipper.whole, List.append_nil] at hcall
    have hreturn : (∃ e', janetLineGet env p (.terminal n) e = .ok (w ++ [0x0A], e')) ↔
        readable [] w = w := by
      rw [hcall]
      constructor
      · rintro ⟨e'', heq⟩
        exact List.append_cancel_right (Prod.mk.inj (Except.ok.inj heq)).1
      · exact fun heq => ⟨e', by rw [heq]⟩
    rw [hreturn, readable_eq_self_iff]
    constructor
    · rintro ⟨hascii, hlen⟩
      rcases hfits with hlt | hsilent
      · exact .inr ⟨hascii, hlen, hlt⟩
      · refine .inl (List.eq_nil_iff_forall_not_mem.2 fun c hc => ?_)
        exact silent_charCommands.1 hsilent c hc (hascii c hc)
    · rintro (rfl | ⟨hascii, hlen, -⟩)
      · exact ⟨by simp, Nat.zero_le _⟩
      · exact ⟨hascii, hlen⟩
  · -- The program ends at the first ASCII character.
    rw [janetLineGet_crash env W h hcols hks htyped' ht hn' hfits]
    refine iff_of_false (fun hcall => ?_) ?_
    · obtain ⟨e', heq⟩ := hcall
      cases heq
    · rintro (rfl | ⟨-, -, hlt⟩)
      · exact hfits (.inr (by simp [charCommands]))
      · exact hfits (.inl hlt)

end Agreement

theorem agrees_iff_letter :
    Agrees none [0x3E] 2 (initial (T := keyboard) [0x61, 0x0D]) [0x61] ↔
      [(0x61 : UInt8)] = [] ∨ (∀ c ∈ [(0x61 : UInt8)], c < 0x80) ∧
        [(0x61 : UInt8)].length ≤ lineMax - 1 ∧ (cString [0x3E]).length < (80 : ℤ) :=
  agrees_iff keyboard_works (Reachable.initial _).idle rfl (by simp [IsText]) rfl (by decide)

/-- The letter `é` is dropped on a terminal. -/
theorem not_agrees_utf8 :
    ¬Agrees none [0x3E] 3 (initial (T := keyboard) [0xC3, 0xA9, 0x0D]) [0xC3, 0xA9] := by
  rintro ⟨⟨e', hcall⟩, -⟩
  have hreturn : ∃ e', janetLineGet none [0x3E] (.terminal 3)
      (initial (T := keyboard) [0xC3, 0xA9, 0x0D]) = .ok ([0x0A], e') := ⟨_, rfl⟩
  obtain ⟨e'', heq⟩ := hreturn
  cases (Prod.mk.inj (Except.ok.inj (heq.symm.trans hcall))).1

end PunyGui.Line
