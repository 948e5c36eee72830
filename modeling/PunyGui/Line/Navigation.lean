import PunyGui.Drafts
import PunyGui.Line.Submit

/-!
# Moving in the history

In a session, the strings of the history are drafts: the line is a copy of one of them,
and the history keys move from one to another.

* `zero_notMem_result`: the keys put no zero byte into the line.
* `Shows`: the globals show drafts, the one at the index in the line.
* `holds_historymove`, `holds_readKey_shows`: a key does to the globals what its step does
  to the drafts.
* `shows_of_rounds`: so do all keys of a session.
* `history_navigation`: no edit is lost in a session.
-/

namespace PunyGui.Line

open Text Libc Imp

variable {T : Terminal} {e e' : Editor T} {env : Option (List Slots)} {H : List Bytes}

/-! ## Zero bytes -/

/-- No symbol of the environment has a zero byte. -/
def Spellable (env : Option (List Slots)) : Prop :=
  ∀ tables ∈ env, ∀ sym ∈ tables.flatMap symbols, 0 ∉ sym

section Zero

variable {t : Zipper UInt8}

/-- What changes the line, or moves the cursor in it, types no bytes. -/
theorem Edit.whole_apply_sublist (op : Edit) (t : Zipper UInt8) :
    List.Sublist (op.apply t).whole t.whole := by
  cases op with
  | home | «end» | left | right | leftWord | rightWord => simp [apply]
  | delete => exact (List.tail_sublist _).append_left _
  | backspace => exact (List.dropLast_sublist _).append_right _
  | kill => exact (List.nil_sublist _).append_left _
  | killStart => exact (List.nil_sublist _).append_right _
  | backspaceWord =>
    have h₁ := (List.rdropWhile_prefix (!isspace ·) (t.before.rdropWhile isspace)).sublist
    have h₂ := (List.rdropWhile_prefix isspace t.before).sublist
    exact (h₁.trans h₂).append_right _
  | deleteWord =>
    have h₁ := List.dropWhile_sublist (!isspace ·) (l := t.after.dropWhile isspace)
    have h₂ := List.dropWhile_sublist isspace (l := t.after)
    exact (h₁.trans h₂).append_left _

theorem mem_whole_inserted {s : Bytes} {c : UInt8} (h : c ∈ (inserted s t).whole) :
    c ∈ s ∨ c ∈ t.whole := by
  rw [Zipper.whole, inserted, List.mem_append, List.mem_append] at h
  rw [Zipper.whole, List.mem_append]
  rcases h with (h | h) | h
  · exact .inr (.inl h)
  · exact .inl (List.mem_of_mem_take h)
  · exact .inr (.inr h)

theorem zero_notMem_candidates {env : List Slots}
    (hsym : ∀ sym ∈ env.flatMap symbols, 0 ∉ sym) {src m : Bytes} (hm : m ∈ candidates src env) :
    0 ∉ m := by
  rcases List.mem_append.1 (List.mem_filter.1 hm).1 with hm | hm
  · exact hsym m hm
  · have hspecials : ∀ m ∈ specials, 0 ∉ m := by decide
    exact hspecials m hm

theorem zero_notMem_lcp {env : List Slots} (hsym : ∀ sym ∈ env.flatMap symbols, 0 ∉ sym)
    {src : Bytes} (hsrc : 0 ∉ src) : 0 ∉ longestCommonPrefix (findMatches src env) := by
  intro h
  have hlcp := isCompletion_longestCommonPrefix (findMatches src env)
  rcases eq_or_ne (findMatches src env) [] with hnil | hne
  · rw [hlcp.of_nil hnil] at h
    cases h
  · -- It is the start of a candidate.
    obtain ⟨m, hm⟩ := List.exists_mem_of_ne_nil _ hne
    have hcand := (keeps_findMatches hsrc env).subset hm
    exact zero_notMem_candidates hsym hcand ((hlcp.prefix_of_mem hm).subset h)

theorem zero_notMem_completed {env : List Slots} (hsym : ∀ sym ∈ env.flatMap symbols, 0 ∉ sym)
    (ht : 0 ∉ t.whole) : 0 ∉ (completed env t).whole := by
  have ht' : 0 ∉ (t.forthOver isSymbolCharGen).whole := by rwa [Zipper.whole_forthOver]
  rw [completed]
  split_ifs
  · exact ht'
  · intro h
    rcases mem_whole_inserted h with h | h
    · exact zero_notMem_lcp hsym (zero_notMem_symbol _) (List.mem_of_mem_drop h)
    · exact ht' h

theorem zero_notMem_completion (henv : Spellable env) (ht : 0 ∉ t.whole) :
    0 ∉ (completion env t).whole := by
  cases env with
  | none =>
    intro h
    rcases mem_whole_inserted h with h | h
    · exact absurd h (by decide)
    · exact ht h
  | some tables => exact zero_notMem_completed (henv tables rfl) ht

/-- No key puts a zero byte into the line, unless it is one, or completes such a symbol. -/
theorem zero_notMem_result {c : Command} (hchar : c ≠ .char 0)
    (henv : c = .complete → Spellable env) (ht : 0 ∉ t.whole) : 0 ∉ (c.result env t).whole := by
  cases c with
  | complete => exact zero_notMem_completion (henv rfl) ht
  | edit op => exact fun h => ht ((op.whole_apply_sublist t).subset h)
  | eof => exact fun h => ht ((Edit.delete.whole_apply_sublist t).subset h)
  | char c =>
    rw [Command.result, Command.apply]
    · split_ifs
      · have hc : (0 : UInt8) ≠ c := fun h => hchar (by rw [h])
        rw [Zipper.whole, List.mem_append] at ht
        simpa [Zipper.whole, Zipper.insert, hc] using ht
      · exact ht
    · exact fun h => by cases h
  | _ => exact ht

theorem decodeEscape_ne_char (tty : T.State) (c : UInt8) : (decodeEscape T tty).1 ≠ .char c := by
  have hextended (s₁ s₂ : UInt8) : extendedCommand s₁ s₂ ≠ .char c := by
    rw [extendedCommand]
    split_ifs <;> simp
  have hsingle (s₁ : UInt8) : singleCommand s₁ ≠ .char c := by
    rw [singleCommand]
    split_ifs <;> simp
  have halt (s₀ : UInt8) : altCommand s₀ ≠ .char c := by
    rw [altCommand]
    split_ifs <;> simp
  rw [decodeEscape]
  repeat' split
  all_goals simp [hextended, hsingle, halt]

/-- No key is a zero byte. -/
theorem decode_ne_zero (tty : T.State) : (decode T tty).1 ≠ .char 0 := by
  rw [decode]
  rcases T.read tty with ⟨c | _ | _, tty⟩
  · by_cases hc : c = 27
    · simp only [if_pos hc]
      exact decodeEscape_ne_char tty 0
    · simp only [if_neg hc]
      fun_cases keyCommand c
      case case18 hprint =>
        intro heq
        cases heq
        exact absurd hprint.1 (by decide)
      all_goals simp
  · simp
  · simp

end Zero

/-! ## The drafts -/

/-- A string in the line, with the cursor behind it. -/
def loaded (s : Bytes) : Zipper UInt8 := ⟨s, []⟩

/-- The history has the drafts, and the line the copy of the one at the index. -/
structure Shows (e : Editor T) (d : Drafts Bytes (Zipper UInt8)) : Prop where
  slots : Lists e.history e.historyCount d.slots
  index : e.historyi = d.index
  current : e.text = d.current
  /-- A copy with a zero byte would not be put back as a whole. -/
  zero : 0 ∉ d.current.whole

section Move

variable {d : Drafts Bytes (Zipper UInt8)}

theorem Lists.set {history : ℤ → Option Bytes} {count : ℤ} (hH : Lists history count H) {i : ℕ}
    (s : Bytes) : Lists (Function.update history i (some s)) count (H.set i s) where
  count_eq := by rw [hH.count_eq, List.length_set]
  entry {j} hj := by
    rw [List.length_set] at hj
    rw [List.getElem_set, Function.update_apply]
    by_cases hij : i = j
    · rw [if_pos (by rw [hij]), if_pos hij]
    · rw [if_neg (by omega), if_neg hij, hH.entry hj]

/-- The buffer with a string copied to it. -/
def copied (buf : ℤ → UInt8) (s : Bytes) (i : ℤ) : UInt8 :=
  if 0 ≤ i ∧ i < (lineMax - 1 : ℕ) then s.getD i.toNat 0 else buf i

theorem strncpy_eq_copied (buf : ℤ → UInt8) (s : Bytes) :
    strncpy lineMax buf s (lineMax - 1) = .ok (copied buf s) :=
  strncpy_eq (Nat.sub_le _ _) s

section Copied

variable {buf : ℤ → UInt8} {s : Bytes} (hs : s.length ≤ lineMax - 1)

include hs

/-- The zero behind the string is the one in the last cell, if not one that is copied. -/
theorem copied_length (hlast : buf (lineMax - 1) = 0) : copied buf s s.length = 0 := by
  have hmax : lineMax - 1 = 1023 := rfl
  rw [copied]
  split_ifs with hlt
  · simp
  · rw [show (s.length : ℤ) = lineMax - 1 by rw [lineMax_eq]; omega, hlast]

theorem spells_copied (buf : ℤ → UInt8) : Spells (copied buf s) s.length s.length (loaded s) := by
  refine spells_mk rfl (by simp) ?_ rfl
  refine List.ext_getElem (by simp) fun i h₁ h₂ => ?_
  rw [getElem_cells, copied, if_pos (by omega)]
  simp [h₂]

theorem cstring_copied (hlast : buf (lineMax - 1) = 0) (h₀ : 0 ∉ s) :
    cstring lineMax (copied buf s) = .ok s := by
  have hcells := (spells_copied hs buf).before_eq
  rw [loaded] at hcells
  rw [cstring_eq (Nat.lt_of_le_of_lt hs (by decide)) (copied_length hs hlast), hcells,
    cString_eq_self_iff.2 h₀]

end Copied

/-- The second half of `historymove`: the line becomes a string of the history. -/
theorem holds_load (hlast : e.buf (lineMax - 1) = 0) (hH : Lists e.history e.historyCount H)
    (hle : H.length ≤ historyMax) {i : ℕ} (hindex : e.historyi = i) (hi : i < H.length)
    (hs : 0 ∉ H[i] ∧ H[i].length ≤ lineMax - 1) :
    Holds (fun e' => e'.history = e.history ∧ e'.historyCount = e.historyCount ∧
        e'.historyi = (i : ℤ) ∧ e'.text = loaded H[i]) (do
      let s ← historyEntry e e.historyi
      let buf ← strncpy lineMax e.buf s (lineMax - 1)
      let e := { e with buf }
      let s ← e.cstring
      let e := { e with pos := s.length, len := s.length }
      let e ← e.store e.len 0
      refresh e) := by
  have hlt : (H[i].length : ℤ) < lineMax := by
    have hmax : lineMax - 1 = 1023 := rfl
    rw [lineMax_eq]
    omega
  rw [hindex, historyEntry_eq hH hi hle, ok_bind, strncpy_eq_copied, ok_bind]
  dsimp only
  rw [Editor.cstring, cstring_copied hs.2 hlast hs.1, ok_bind, store_eq (Int.natCast_nonneg _) hlt,
    ok_bind]
  refine (holds_refresh _).mono ?_
  rintro _ ⟨tty, rfl⟩
  refine ⟨rfl, rfl, rfl, Spells.text_eq ?_⟩
  have hsame : Function.update (copied e.buf H[i]) H[i].length 0 = copied e.buf H[i] :=
    Function.update_eq_self_iff.2 (copied_length hs.2 hlast).symm
  simp only [hsame]
  exact spells_copied hs.2 e.buf

theorem target_eq (delta : ℤ) {count : ℤ} (hcount : count = d.slots.length) :
    (if (d.index : ℤ) + delta < 0 then 0
      else if (d.index : ℤ) + delta ≥ count then count - 1 else (d.index : ℤ) + delta) =
      d.target delta := by
  have := d.index_lt
  rw [Drafts.target, hcount]
  split_ifs <;> omega

theorem Shows.setTty (hs : Shows e d) (tty : T.State) : Shows { e with tty } d :=
  ⟨hs.slots, hs.index, hs.current, hs.zero⟩

/-- With the line put back, all strings are still such as can be copied to the buffer. -/
theorem Shows.mem_saved (hs : Shows e d) (h : Invariant e) {s : Bytes}
    (hmem : s ∈ d.saved Zipper.whole) : 0 ∉ s ∧ s.length ≤ lineMax - 1 := by
  rcases List.mem_or_eq_of_mem_set hmem with hmem | rfl
  · exact hs.slots.mem h.2.1 hmem
  · exact ⟨hs.zero, Nat.le_pred_of_lt (hs.current ▸ length_lt h.1)⟩

/-- A move of the code is a move of the drafts. -/
theorem holds_historymove (h : Invariant e) (hs : Shows e d) (delta : ℤ) :
    Holds (fun e' => Shows e' (d.move Zipper.whole loaded delta)) (historymove delta e) := by
  have hcount := hs.slots.count_eq
  have hle := hs.slots.length_le h.2.1
  rw [historymove]
  split_ifs with hmany
  · have hlen : 1 < d.slots.length := by omega
    have h₀ : 0 ∉ e.text.whole := hs.current ▸ hs.zero
    have hsaved : Lists (Function.update e.history d.index (some e.text.whole)) e.historyCount
        (d.saved Zipper.whole) := hs.current ▸ hs.slots.set _
    have htarget := d.target_lt Zipper.whole delta
    have hle' : (d.saved Zipper.whole).length ≤ historyMax := by
      rwa [Drafts.saved, List.length_set]
    have hindex : (d.index : ℤ) < historyMax := by have := d.index_lt; omega
    have hok := hs.mem_saved h (List.getElem_mem htarget)
    have hi : (if e.historyi + delta < 0 then 0
        else if e.historyi + delta ≥ e.historyCount then e.historyCount - 1
        else e.historyi + delta) = d.target delta := by
      rw [hs.index]
      exact target_eq delta hcount
    rw [hs.index, historyEntry_eq hs.slots d.index_lt hle, ok_bind, cstring_eq_text h.1,
      cString_eq_self_iff.2 h₀, ok_bind, storeHistory_eq (Int.natCast_nonneg _) hindex, ok_bind]
    simp only [hi]
    refine (holds_load (e := { e with
      history := Function.update e.history d.index (some e.text.whole)
      historyi := d.target delta }) h.1.last hsaved hle' rfl htarget hok).mono ?_
    rintro e' ⟨hhistory, hcount', hindex', htext⟩
    rw [Drafts.move, if_pos hlen]
    refine ⟨?_, hindex', htext, ?_⟩
    · rw [hhistory, hcount']
      exact hsaved
    · rw [loaded, Zipper.whole, List.append_nil]
      exact hok.1
  · rw [Drafts.move_of_le (by omega)]
    exact hs

end Move

/-! ## The keys of a session -/

/-- The step of a key, from the globals after it. -/
def stepOf (c : Command) (e' : Editor T) : Drafts.Step (Zipper UInt8) :=
  match c with
  | .move delta => .move delta
  | _ => .edit e'.text

/-- The steps of the keys that are read in so many rounds. -/
def steps (env : Option (List Slots)) (e : Editor T) : ℕ → List (Drafts.Step (Zipper UInt8))
  | 0 => []
  | n + 1 =>
    match rounds env e n, rounds env e (n + 1) with
    | .ok (.reading e₁), .ok (.reading e₂) => steps env e n ++ [stepOf (decode T e₁.tty).1 e₂]
    | _, _ => steps env e n

/-- The drafts of a session, before the first key. -/
def start (H : List Bytes) : Drafts Bytes (Zipper UInt8) where
  slots := [] :: H.take (historyMax - 1)
  index := 0
  current := ⟨[], []⟩
  index_lt := Nat.succ_pos _

section Session

variable {d : Drafts Bytes (Zipper UInt8)}

theorem stepOf_of_ne {c : Command} (hc : ∀ delta, c ≠ .move delta) (e' : Editor T) :
    stepOf c e' = .edit e'.text := by
  cases c with
  | move delta => exact absurd rfl (hc delta)
  | _ => rfl

variable (env) in
/-- A history key moves to another draft. -/
theorem holds_readKey_move (h : Invariant e) (hs : Shows e d) {delta : ℤ}
    (hmove : (decode T e.tty).1 = .move delta) :
    Holds (fun l => ∃ e', l = .reading e' ∧ Shows e' (d.move Zipper.whole loaded delta))
      (readKey env e) := by
  rw [readKey_eq, hmove, perform]
  refine (holds_historymove (e := { e with tty := (decode T e.tty).2 }) h
    (hs.setTty _) delta).bind ?_
  exact fun e' h' => ⟨e', rfl, h'⟩

variable (env) in
/-- A key does to the globals what its step does to the drafts. -/
theorem holds_readKey_shows (h : Invariant e) (hs : Shows e d)
    (henv : (decode T e.tty).1 = .complete → Spellable env) :
    Holds (fun l => ∀ e', l = .reading e' →
      Shows e' (d.step Zipper.whole loaded (stepOf (decode T e.tty).1 e'))) (readKey env e) := by
  by_cases hmove : ∃ delta, (decode T e.tty).1 = .move delta
  · obtain ⟨delta, hmove⟩ := hmove
    refine (holds_readKey_move env h hs hmove).mono ?_
    rintro _ ⟨e₁, rfl, h₁⟩ _ ⟨⟩
    rw [hmove]
    exact h₁
  · have hc : ∀ delta, (decode T e.tty).1 ≠ .move delta := fun delta heq => hmove ⟨delta, heq⟩
    refine (holds_readKey_kept env h.1 hc).mono ?_
    rintro _ ⟨⟨hhistory, hcount, hindex, -, -⟩, htext⟩ e' rfl
    have h₀ := zero_notMem_result (decode_ne_zero e.tty) henv (hs.current ▸ hs.zero)
    rw [stepOf_of_ne hc]
    refine ⟨?_, hindex.trans hs.index, rfl, ?_⟩
    · rw [show e'.history = _ from hhistory, show e'.historyCount = _ from hcount]
      exact hs.slots
    · rw [show e'.text = _ from htext]
      exact h₀

variable {p : Bytes} {n : ℕ}

/-- The globals show the drafts of the session before every key. -/
theorem shows_of_rounds (h : Idle e) (hH : Lists e.history e.historyCount H)
    (henv : .complete ∈ keysRead env (beginLine p e) n → Spellable env)
    (hl : rounds env (beginLine p e) n = .ok (.reading e')) :
    Shows e' ((start H).run Zipper.whole loaded (steps env (beginLine p e) n)) := by
  induction n generalizing e' with
  | zero =>
    obtain ⟨cols, hbegun⟩ := begun_of_lineStart h hH hl
    exact ⟨hbegun.lists, hbegun.historyi, hbegun.text, List.not_mem_nil⟩
  | succ n ih =>
    obtain ⟨l₀, hl₀, hround⟩ := bind_eq_ok.1 hl
    cases l₀ with
    | returned code e₀ => cases hround
    | reading e₀ =>
      simp only [keysRead, hl₀, List.mem_append, Loop.key, List.mem_singleton] at henv
      have hs := ih (fun hmem => henv (.inl hmem)) hl₀
      have hinv : Invariant e₀ := h.ok_of_rounds hl₀
      have hstep := holds_readKey_shows env hinv hs fun heq => henv (.inr heq.symm)
      rw [show readKey env e₀ = .ok (.reading e') from hround] at hstep
      simp only [steps, hl₀, hl]
      rw [Drafts.run_concat]
      exact hstep e' rfl

variable (env) in
/-- In every session, the line and the history are drafts: every string of the history is the
    one that was left there last, or the one of the beginning, and a move shows the one it goes
    to, with the cursor behind it. With a single string, a move does nothing. -/
theorem history_navigation (h : Idle e) (hH : Lists e.history e.historyCount H)
    (henv : .complete ∈ keysRead env (beginLine p e) n → Spellable env)
    (hl : rounds env (beginLine p e) n = .ok (.reading e')) :
    Shows e' ((start H).run Zipper.whole loaded (steps env (beginLine p e) n)) ∧
      (∀ i, ((start H).run Zipper.whole loaded (steps env (beginLine p e) n)).slots[i]? =
        (start H).content Zipper.whole loaded (steps env (beginLine p e) n) i) ∧
      ∀ delta tty, decode T e'.tty = (.move delta, tty) →
        (H = [] → readKey env e' = .ok (.reading { e' with tty })) ∧
        (H ≠ [] → Holds (fun l => ∃ e'' i, l = .reading e'' ∧
          i = ((start H).run Zipper.whole loaded (steps env (beginLine p e) n)).target delta ∧
          e''.historyi = (i : ℤ) ∧
          some e''.text = ((start H).content Zipper.whole loaded
            (steps env (beginLine p e) n ++ [.move delta]) i).map loaded) (readKey env e')) := by
  have hs := shows_of_rounds h hH henv hl
  have hinv : Invariant e' := h.ok_of_rounds hl
  have hlen : (start H).slots.length = min (historyMax - 1) H.length + 1 := by
    rw [start, List.length_cons, List.length_take]
  refine ⟨hs, Drafts.slots_run, fun delta tty hdecode => ⟨?_, fun hne => ?_⟩⟩
  · rintro rfl
    have hcount := hs.slots.count_eq
    rw [Drafts.length_run] at hcount
    rw [readKey_eq, hdecode, perform, historymove, if_neg]
    · rfl
    · simp only [hcount]
      decide
  · have hmany : 1 < (start H).slots.length := by
      have := List.length_pos_of_ne_nil hne
      rw [hlen]
      have hmax : historyMax - 1 = 99 := rfl
      omega
    refine (holds_readKey_move env hinv hs (congrArg Prod.fst hdecode)).mono ?_
    rintro _ ⟨e₁, rfl, h₁⟩
    refine ⟨e₁, _, rfl, rfl, ?_, ?_⟩
    · rw [h₁.index, Drafts.index_move (by rwa [Drafts.length_run])]
    · rw [h₁.current]
      exact Drafts.current_move hmany delta

end Session

/-- The keys `a`, ctrl-p, `c` and ctrl-n, with the line `b` in the history: `a` comes back. -/
theorem history_navigation_back : ∃ e',
    rounds none (beginLine [0x3E] (remembering [[0x62]] [0x61, 16, 0x63, 14])) 3 =
        .ok (.reading e') ∧
      Holds (fun l => ∃ e'', l = .reading e'' ∧ e''.text = loaded [0x61]) (readKey none e') := by
  have hidle := idle_remembering (H := [[0x62]]) (by decide) (by simp [lineMax])
    [0x61, 16, 0x63, 14]
  have hkeys : keysRead none (beginLine [0x3E] (remembering [[0x62]] [0x61, 16, 0x63, 14])) 3 =
    [.char 0x61, .move 1, .char 0x63] := rfl
  refine ⟨_, rfl, ?_⟩
  have hnav := history_navigation none (n := 3) (p := [0x3E]) hidle
    (lists_remembering _ _) (by rw [hkeys]; simp) rfl
  refine ((hnav.2.2 (-1) [] rfl).2 (by simp)).mono ?_
  rintro _ ⟨e'', i, rfl, rfl, -, htext⟩
  exact ⟨e'', rfl, Option.some.inj htext⟩

end PunyGui.Line
