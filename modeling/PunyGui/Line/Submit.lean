import PunyGui.History
import PunyGui.Line.Completion
import PunyGui.Line.Editing

/-!
# What a session leaves in the history

The history after a session in which no history key is used.

* `holds_perform_kept`: no other key changes the history.
* `lists_of_rounds`: until the line ends, the history is the one it began with.
* `submit_iff`: when a line that is entered is added to the history as it should be.
* `Aborts`, `abort_iff`: when lines that are given up leave the history as it was.
-/

namespace PunyGui.Line

open Text Libc Imp History

variable {T : Terminal} {e e' : Editor T} {env : Option (List Slots)} {H : List Bytes}

/-! ## The keys that leave the history alone -/

/-- The globals, wherever the loop is. -/
def Loop.editor : Loop T → Editor T
  | .reading e => e
  | .returned _ e => e

theorem Completed.kept {t : Zipper UInt8} (h : Completed e t e') : Kept e e' := by
  obtain ⟨_, _, _, _, _, _, rfl⟩ := h.frame
  exact ⟨rfl, rfl, rfl, rfl, rfl⟩

/-- What a key does to the text, completions included. -/
def Command.result (env : Option (List Slots)) : Command → Zipper UInt8 → Zipper UInt8
  | complete, t => completion env t
  | c, t => c.apply t

variable (env) in
/-- No key but the history keys changes the history. -/
theorem holds_perform_kept (h : TextOk e.buf e.len e.pos) {c : Command}
    (hc : ∀ delta, c ≠ .move delta) :
    Holds (fun l => Kept e l.editor ∧ l.editor.text = c.result env e.text) (perform env c e) := by
  by_cases hedits : c.edits e.text = true
  · have hresult : c.result env e.text = c.apply e.text := by
      cases c with
      | complete => cases hedits
      | _ => rfl
    rw [hresult]
    by_cases hsilent : c.Silent e.text
    · rw [perform_of_silent env h hedits hsilent]
      exact ⟨.refl e, (Command.apply_of_silent hsilent).symm⟩
    · obtain ⟨e', he', hdrawn⟩ := perform_of_edits env h hedits hsilent
      refine hdrawn.holds.mono ?_
      rintro l ⟨tty, rfl | rfl⟩
      · exact ⟨he'.kept tty, he'.text_eq⟩
      · exact ⟨he'.kept tty, he'.text_eq⟩
  · cases c with
    | closed | interrupt | enter => exact ⟨⟨rfl, rfl, rfl, rfl, rfl⟩, rfl⟩
    | eof =>
      have hnil : e.text.whole = [] := by simpa [Command.edits] using hedits
      have hafter := (Zipper.whole_eq_nil_iff.1 hnil).2
      rw [perform, if_pos ((len_eq_zero_iff h).2 hnil)]
      refine ⟨⟨rfl, rfl, rfl, rfl, rfl⟩, ?_⟩
      exact (Command.apply_of_silent (c := .eof) hafter).symm
    | complete =>
      refine (holds_kshowcomp h env).bind fun e₁ h₁ => (holds_refresh e₁).bind ?_
      rintro _ ⟨tty, rfl⟩
      have hkept := h₁.kept
      exact ⟨⟨hkept.1, hkept.2, hkept.3, hkept.4, hkept.5⟩, h₁.text_eq⟩
    | move delta => exact absurd rfl (hc delta)
    | char c | edit op | clear | redraw | nothing => exact absurd rfl hedits

variable (env) in
theorem holds_readKey_kept (h : TextOk e.buf e.len e.pos)
    (hc : ∀ delta, (decode T e.tty).1 ≠ .move delta) :
    Holds (fun l => Kept e l.editor ∧ l.editor.text = (decode T e.tty).1.result env e.text)
      (readKey env e) := by
  rw [readKey_eq]
  refine (holds_perform_kept env (e := { e with tty := (decode T e.tty).2 }) h hc).mono ?_
  exact fun l hl => ⟨⟨hl.1.1, hl.1.2, hl.1.3, hl.1.4, hl.1.5⟩, hl.2⟩

/-! ## The rounds of a session -/

section Rounds

variable {p : Bytes} {n : ℕ} {l : Loop T}

theorem Idle.ok_of_rounds (h : Idle e) (hl : Line.rounds env (beginLine p e) n = .ok l) : l.Ok := by
  have hholds := h.rounds env p n
  rwa [hl] at hholds

/-- The line is begun in front of the history. -/
theorem begun_of_lineStart (h : Idle e) (hH : Lists e.history e.historyCount H)
    (hl : lineStart (beginLine p e) = .ok l) :
    ∃ cols, Begun (beginLine p e) H cols l.editor := by
  rw [lineStart] at hl
  obtain ⟨⟨cols, tty⟩, hcols, -⟩ := bind_eq_ok.1 hl
  obtain ⟨e', hbegun, -, hstart⟩ := lineStart_eq (e := beginLine p e) h rfl hH hcols
  rw [← lineStart, hstart] at hl
  obtain rfl := Except.ok.inj hl
  refine ⟨cols, ?_⟩
  split_ifs
  · exact hbegun
  · exact hbegun

/-- Until the line ends, the history stays as it was when it was begun. -/
theorem lists_of_rounds (h : Idle e) (hH : Lists e.history e.historyCount H)
    (hkeys : ∀ delta, .move delta ∉ keysRead env (beginLine p e) n)
    (hl : rounds env (beginLine p e) n = .ok l) :
    Lists l.editor.history l.editor.historyCount ([] :: H.take (historyMax - 1)) := by
  induction n generalizing l with
  | zero =>
    obtain ⟨cols, hbegun⟩ := begun_of_lineStart h hH hl
    exact hbegun.lists
  | succ n ih =>
    obtain ⟨l₀, hl₀, hround⟩ := bind_eq_ok.1 hl
    simp only [keysRead, hl₀, List.mem_append, not_or] at hkeys
    have hlists := ih (fun delta => (hkeys delta).1) hl₀
    cases l₀ with
    | returned code e₀ =>
      obtain rfl := Except.ok.inj hround
      exact hlists
    | reading e₀ =>
      have hinv : Invariant e₀ := h.ok_of_rounds hl₀
      have hkept := holds_readKey_kept env hinv.1 fun delta hc =>
        (hkeys delta).2 (List.mem_singleton.2 hc.symm)
      rw [show readKey env e₀ = .ok l from hround] at hkept
      rw [hkept.1.history, hkept.1.historyCount]
      exact hlists

/-- How a call ends that returns. -/
theorem exists_returned {line : Bytes}
    (hcall : janetLineGet env p (.terminal n) e = .ok (line, e')) : ∃ code e₁,
      rounds env (beginLine p e) n = .ok (.returned code e₁) ∧
        endLine (.returned code e₁) = .ok (line, e') := by
  rw [janetLineGet] at hcall
  obtain ⟨l, hl, hend⟩ := bind_eq_ok.1 hcall
  cases l with
  | reading e₁ => cases hend
  | returned code e₁ => exact ⟨code, e₁, hl, hend⟩

end Rounds

/-! ## Lines that are entered -/

/-- The history that an entered line should leave. -/
def submitted (t : Bytes) (H : List Bytes) : List Bytes :=
  if t = [] ∨ H.head? = some t then H else t :: H.take (historyMax - 1)

/-- The history that an entered line leaves. -/
theorem lists_of_submit (h : Idle e) (hH : Lists e.history e.historyCount H) {p t : Bytes} {n : ℕ}
    (hkeys : ∀ delta, .move delta ∉ keysRead env (beginLine p e) n)
    (hcall : janetLineGet env p (.terminal n) e = .ok (t ++ [0x0A], e')) :
    Lists e'.history e'.historyCount (settled t (H.take (historyMax - 1))) := by
  obtain ⟨code, e₁, hl, hend⟩ := exists_returned hcall
  have hinv : Invariant e₁ := h.ok_of_rounds hl
  by_cases hcode : code = 0
  · subst hcode
    obtain ⟨e₂, hend₂, hlists⟩ := endLine_enter hinv (lists_of_rounds h hH hkeys hl)
    obtain ⟨htext, rfl⟩ := Prod.mk.inj (Except.ok.inj (hend.symm.trans hend₂))
    rw [List.append_cancel_right htext]
    exact hlists
  · rw [endLine_abort hcode] at hend
    obtain ⟨hnil, -⟩ := Prod.mk.inj (Except.ok.inj hend)
    simp at hnil

theorem settled_eq_submitted_iff {t : Bytes} (hle : H.length ≤ historyMax)
    (hH : ∀ s ∈ H, 0 ∉ s) : settled t (H.take (historyMax - 1)) = submitted t H ↔
      0 ∉ t ∧ (H.length < historyMax ∨ t ≠ [] ∧ H.head? ≠ some t) := by
  have hmax : historyMax - 1 = 99 := rfl
  by_cases h₀ : 0 ∈ t
  · -- A zero byte is never in the history.
    refine iff_of_false (fun heq => ?_) fun h => h.1 h₀
    have hsub : submitted t H = t :: H.take (historyMax - 1) := by
      refine if_neg ?_
      rintro (rfl | hhead)
      · cases h₀
      · exact hH t (List.mem_of_head? hhead) h₀
    have hmem : t ∈ settled t (H.take (historyMax - 1)) :=
      heq ▸ hsub ▸ List.mem_cons_self
    rw [settled] at hmem
    split_ifs at hmem
    · exact hH t (List.mem_of_mem_take hmem) h₀
    · rcases List.mem_cons.1 hmem with ht | hmem
      · exact zero_notMem_cString t (ht ▸ h₀)
      · exact hH t (List.mem_of_mem_take hmem) h₀
  · have hhead : (H.take (historyMax - 1)).head? = H.head? := by
      rw [List.head?_take, if_neg (by decide)]
    rw [settled, submitted, cString_eq_self_iff.2 h₀, hhead, and_iff_right h₀]
    by_cases hc : t = [] ∨ H.head? = some t
    · rw [if_pos hc, if_pos hc, List.take_eq_self_iff]
      have hnot : ¬(t ≠ [] ∧ H.head? ≠ some t) := fun h => hc.elim h.1 h.2
      rw [or_iff_left hnot]
      omega
    · rw [if_neg hc, if_neg hc]
      rw [not_or] at hc
      exact iff_of_true rfl (.inr hc)

variable (env) in
/-- A line that is entered is added to the history as it should be exactly if it has no zero
    byte, and either the history was not full or the line is a new one. -/
theorem submit_iff (h : Idle e) (hH : Lists e.history e.historyCount H) {p t : Bytes} {n : ℕ}
    (hkeys : ∀ delta, .move delta ∉ keysRead env (beginLine p e) n)
    (hcall : janetLineGet env p (.terminal n) e = .ok (t ++ [0x0A], e')) :
    Lists e'.history e'.historyCount (submitted t H) ↔
      0 ∉ t ∧ (H.length < historyMax ∨ t ≠ [] ∧ H.head? ≠ some t) := by
  have hlists := lists_of_submit h hH hkeys hcall
  rw [← settled_eq_submitted_iff (hH.length_le h.2.1) fun s hs => (hH.mem h.2.1 hs).1]
  exact ⟨fun h' => hlists.unique h', fun heq => heq ▸ hlists⟩

/-- The globals with a history, between two calls. -/
def remembering (H : List Bytes) (s : Bytes) : Editor keyboard :=
  { initial (T := keyboard) s with history := fun i => H[i.toNat]?, historyCount := H.length }

theorem lists_remembering (H : List Bytes) (s : Bytes) :
    Lists (remembering H s).history (remembering H s).historyCount H where
  count_eq := rfl
  entry hi := List.getElem?_eq_getElem hi

theorem idle_remembering {H : List Bytes} (hle : H.length ≤ historyMax)
    (hok : ∀ s ∈ H, 0 ∉ s ∧ s.length ≤ lineMax - 1) (s : Bytes) : Idle (remembering H s) :=
  ⟨rfl, (lists_remembering H s).historyOk hle hok, Int.natCast_nonneg _⟩

/-- The line `b`, entered again as the newest one of two. -/
theorem submit_iff_letter : ∃ e',
    janetLineGet none [0x3E] (.terminal 2) (remembering [[0x62], [0x61]] [0x62, 0x0D]) =
        .ok ([0x62, 0x0A], e') ∧
      (Lists e'.history e'.historyCount (submitted [0x62] [[0x62], [0x61]]) ↔
        0 ∉ [(0x62 : UInt8)] ∧ (([[0x62], [0x61]] : List Bytes).length < historyMax ∨
          [(0x62 : UInt8)] ≠ [] ∧ ([[0x62], [0x61]] : List Bytes).head? ≠ some [0x62])) := by
  have hidle : Idle (remembering [[0x62], [0x61]] [0x62, 0x0D]) :=
    idle_remembering (by decide) (by decide) _
  obtain ⟨e', hcall⟩ : ∃ e', janetLineGet none [0x3E] (.terminal 2)
      (remembering [[0x62], [0x61]] [0x62, 0x0D]) = .ok ([0x62, 0x0A], e') := ⟨_, rfl⟩
  have hkeys : keysRead none (beginLine [0x3E] (remembering [[0x62], [0x61]] [0x62, 0x0D])) 2 =
    [.char 0x62, .enter] := rfl
  refine ⟨e', hcall, submit_iff none (t := [0x62]) hidle (lists_remembering _ _) ?_ hcall⟩
  rw [hkeys]
  simp

/-- The lines `a0` to `j9`, which make the history full. -/
def hundred : List Bytes :=
  (List.range historyMax).map fun i => [0x61 + UInt8.ofNat (i / 10), 0x30 + UInt8.ofNat (i % 10)]

/-- Enter on an empty line forgets the oldest of them. -/
theorem submit_forgets : ∃ e',
    janetLineGet none [0x3E] (.terminal 1) (remembering hundred [0x0D]) = .ok ([0x0A], e') ∧
      (∀ delta, .move delta ∉ keysRead none (beginLine [0x3E] (remembering hundred [0x0D])) 1) ∧
      ¬Lists e'.history e'.historyCount (submitted [] hundred) := by
  have hok : ∀ s ∈ hundred, 0 ∉ s ∧ s.length ≤ lineMax - 1 := by decide +kernel
  have hidle := idle_remembering (by decide) hok [0x0D]
  obtain ⟨e', hcall⟩ : ∃ e', janetLineGet none [0x3E] (.terminal 1) (remembering hundred [0x0D]) =
      .ok ([0x0A], e') :=
    janetLineGet_of_typed none keyboard_works hidle rfl .nil rfl rfl (by decide) (.inr (by simp))
  have hkeys : ∀ delta,
      .move delta ∉ keysRead none (beginLine [0x3E] (remembering hundred [0x0D])) 1 := by
    obtain ⟨H, e₀, -, -, htyped, hstart⟩ :=
      exists_begun (p := [0x3E]) keyboard_works hidle rfl
    obtain ⟨tty, hdecode, -⟩ := decode_of_typed keyboard_works (k := [0x0D]) rfl htyped
    simp [keysRead, rounds, hstart, Loop.key, hdecode, keyCommand]
  refine ⟨e', hcall, hkeys, fun hlists => ?_⟩
  have hleft := lists_of_submit (t := []) hidle (lists_remembering hundred _) hkeys hcall
  have heq := hleft.unique hlists
  rw [settled_eq_submitted_iff (by decide) fun s hs => (hok s hs).1] at heq
  exact absurd heq.2 (by decide)

/-! ## Lines that are given up -/

/-- A session: the environment and the prompt, and after how many rounds it has ended. -/
structure Sitting where
  env : Option (List Slots)
  prompt : Bytes
  rounds : ℕ

/-- A session without history keys that ends without Enter. The program may use the terminal
    before. -/
def Aborts (e : Editor T) (s : Sitting) (e' : Editor T) : Prop :=
  ∃ tty, (∀ delta, .move delta ∉ keysRead s.env (beginLine s.prompt { e with tty }) s.rounds) ∧
    janetLineGet s.env s.prompt (.terminal s.rounds) { e with tty } = .ok ([], e')

/-- A session that is given up leaves an empty line in the history. -/
theorem lists_of_aborts (h : Idle e) (hH : Lists e.history e.historyCount H) {s : Sitting}
    (hs : Aborts e s e') :
    Idle e' ∧ Lists e'.history e'.historyCount ([] :: H.take (historyMax - 1)) := by
  obtain ⟨tty, hkeys, hcall⟩ := hs
  have htty : Idle { e with tty } := h
  obtain ⟨code, e₁, hl, hend⟩ := exists_returned hcall
  refine ⟨(htty.janetLineGet _ _ _).2 _ _ hcall, ?_⟩
  have hlists := lists_of_rounds (e := { e with tty }) htty hH hkeys hl
  have hcode : code ≠ 0 := by
    rintro rfl
    obtain ⟨e₂, hend₂, -⟩ := endLine_enter (htty.ok_of_rounds hl) hlists
    have hnil := (Prod.mk.inj (Except.ok.inj (hend.symm.trans hend₂))).1
    simp at hnil
  rw [endLine_abort hcode] at hend
  rw [← (Prod.mk.inj (Except.ok.inj hend)).2]
  exact hlists

theorem lists_of_run {l : List Sitting} (h : Idle e) (hH : Lists e.history e.historyCount H)
    (hrun : Run Aborts e l e') :
    Lists e'.history e'.historyCount ((List.replicate l.length [] ++ H).take historyMax) := by
  induction hrun generalizing H with
  | nil =>
    rw [List.length_nil, List.replicate_zero, List.nil_append,
      List.take_of_length_le (hH.length_le h.2.1)]
    exact hH
  | @cons e s e₁ e' l hs _ ih =>
    obtain ⟨h₁, hlists⟩ := lists_of_aborts h hH hs
    have hone : [] :: H.take (historyMax - 1) = ([] :: H).take historyMax := rfl
    have hmore := ih h₁ hlists
    rw [hone, List.take_append, List.take_take, Nat.min_eq_left (Nat.sub_le _ _),
      ← List.take_append, List.append_cons, ← List.replicate_succ'] at hmore
    exact hmore

/-- Putting more of the same in front of a full list shows unless there was nothing else. -/
theorem take_replicate_append_iff {α : Type*} {a : α} {k n : ℕ} {l : List α} (hle : l.length ≤ n) :
    (List.replicate k a ++ l).take n = l ↔ k = 0 ∨ l = List.replicate n a := by
  constructor
  · intro h
    refine or_iff_not_imp_left.2 fun hk => List.eq_replicate_iff.2 ?_
    have hlen := congrArg List.length h
    rw [List.length_take, List.length_append, List.length_replicate] at hlen
    refine ⟨by omega, fun b hb => ?_⟩
    obtain ⟨i, hi, rfl⟩ := List.getElem_of_mem hb
    -- Every element is one of those in front, or equal to one further to the front.
    induction i using Nat.strongRecOn with
    | ind i ih =>
      have hi' : i < ((List.replicate k a ++ l).take n).length := h.symm ▸ hi
      have hget : l[i] = ((List.replicate k a ++ l).take n)[i] := by simp only [h]
      rw [hget, List.getElem_take]
      by_cases hik : i < k
      · rw [List.getElem_append_left (by rwa [List.length_replicate]), List.getElem_replicate]
      · rw [List.getElem_append_right (by rw [List.length_replicate]; omega)]
        simp only [List.length_replicate]
        exact ih (i - k) (by omega) (by omega) (List.getElem_mem _)
  · rintro (rfl | rfl)
    · rw [List.replicate_zero, List.nil_append, List.take_of_length_le hle]
    · rw [List.replicate_append_replicate, List.take_replicate, Nat.min_eq_left]
      omega

/-- Sessions that are given up leave the history as it was exactly if there are none, or if the
    history was full of empty lines. -/
theorem abort_iff {l : List Sitting} (h : Idle e) (hH : Lists e.history e.historyCount H)
    (hrun : Run Aborts e l e') :
    Lists e'.history e'.historyCount H ↔ l = [] ∨ H = List.replicate historyMax [] := by
  have hlists := lists_of_run h hH hrun
  rw [← List.length_eq_zero_iff, ← take_replicate_append_iff (hH.length_le h.2.1)]
  exact ⟨fun h' => hlists.unique h', fun heq => heq ▸ hlists⟩

/-- After the line `a`, ctrl-d at a prompt and the end of the input at the next one. -/
theorem run_aborts_eof : ∃ e', Run Aborts (remembering [[0x61]] [])
    [⟨none, [0x3E], 1⟩, ⟨none, [0x3E], 1⟩] e' := by
  refine ⟨_, .cons ⟨[0x04], fun delta hmem => ?_, rfl⟩
    (.cons ⟨[], fun delta hmem => ?_, rfl⟩ .nil)⟩
  · have hkeys : .move delta ∈ [Command.eof] := hmem
    simp at hkeys
  · have hkeys : .move delta ∈ [Command.closed] := hmem
    simp at hkeys

theorem idle_letter : Idle (remembering [[0x61]] []) := idle_remembering (by decide) (by decide) []

theorem abort_iff_eof : ∃ e', Run Aborts (remembering [[0x61]] [])
    [⟨none, [0x3E], 1⟩, ⟨none, [0x3E], 1⟩] e' ∧
      (Lists e'.history e'.historyCount [[0x61]] ↔
        [(⟨none, [0x3E], 1⟩ : Sitting), ⟨none, [0x3E], 1⟩] = [] ∨
          [[0x61]] = List.replicate historyMax ([] : Bytes)) := by
  obtain ⟨e', hrun⟩ := run_aborts_eof
  exact ⟨e', hrun, abort_iff idle_letter (lists_remembering _ _) hrun⟩

/-- They leave two empty lines in the history. -/
theorem abort_remembers : ∃ e', Run Aborts (remembering [[0x61]] [])
    [⟨none, [0x3E], 1⟩, ⟨none, [0x3E], 1⟩] e' ∧ ¬Lists e'.history e'.historyCount [[0x61]] := by
  obtain ⟨e', hrun⟩ := run_aborts_eof
  refine ⟨e', hrun, fun hlists => ?_⟩
  have hleft := lists_of_run idle_letter (lists_remembering _ _) hrun
  cases hleft.unique hlists

end PunyGui.Line
