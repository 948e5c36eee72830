import PunyGui.Line.Matches
import PunyGui.Line.Text

/-!
# What the tab key inserts

What the candidates of a completion have in common, and those of them that are kept.

* `IsCompletion`: the longest common prefix.
* `completed`, `kshowcomp_eq`: what the code of the key does to the text.
* `completion_iff`: it inserts what all candidates have in common unless those it has kept
  have more in common.
-/

namespace PunyGui.Line

open Text Libc Imp

/-! ## What the matches have in common -/

/-- The longest text that all texts start with; of no texts, it is empty. -/
structure IsCompletion (c : Bytes) (M : List Bytes) : Prop where
  of_nil : M = [] → c = []
  prefix_iff (hM : M ≠ []) (q : Bytes) : q <+: c ↔ ∀ m ∈ M, q <+: m

section Completion

variable {q c c' m : Bytes} {l M : List Bytes}

theorem prefix_commonPrefix_iff (a b : Bytes) : q <+: commonPrefix a b ↔ q <+: a ∧ q <+: b := by
  induction a generalizing q b with
  | nil =>
    have hnil : commonPrefix [] b = [] := by simp [commonPrefix]
    rw [hnil]
    exact ⟨fun h => ⟨h, (List.prefix_nil.1 h) ▸ List.nil_prefix⟩, And.left⟩
  | cons x a ih =>
    cases b with
    | nil => exact ⟨fun h => ⟨(List.prefix_nil.1 h) ▸ List.nil_prefix, h⟩, And.right⟩
    | cons y b =>
      rw [commonPrefix]
      cases q with
      | nil => simp
      | cons z q =>
        split_ifs with hxy
        · simp only [List.cons_prefix_cons, ih, hxy]
          exact and_and_left
        · simp only [List.cons_prefix_cons, List.prefix_nil, reduceCtorEq, false_iff]
          rintro ⟨⟨rfl, -⟩, rfl, -⟩
          exact hxy rfl

/-- `longest_common_prefix` does what its name says. -/
theorem isCompletion_longestCommonPrefix (M : List Bytes) :
    IsCompletion (longestCommonPrefix M) M := by
  have hfold (q : Bytes) (l : List Bytes) (m : Bytes) :
      q <+: l.foldl commonPrefix m ↔ q <+: m ∧ ∀ m' ∈ l, q <+: m' := by
    induction l generalizing m with
    | nil => simp
    | cons m' l ih =>
      rw [List.foldl_cons, ih, prefix_commonPrefix_iff, List.forall_mem_cons, and_assoc]
  cases M with
  | nil => exact ⟨fun _ => rfl, fun h => absurd rfl h⟩
  | cons m M =>
    refine ⟨fun h => ?_, fun _ q => ?_⟩
    · cases h
    · rw [longestCommonPrefix, hfold, List.forall_mem_cons, ← and_assoc, and_self_iff]

theorem IsCompletion.prefix_of_mem (h : IsCompletion c M) (hm : m ∈ M) : c <+: m :=
  (h.prefix_iff (List.ne_nil_of_mem hm) c).1 List.prefix_rfl m hm

theorem IsCompletion.unique (h : IsCompletion c M) (h' : IsCompletion c' M) : c = c' := by
  rcases eq_or_ne M [] with hM | hM
  · rw [h.of_nil hM, h'.of_nil hM]
  · have hle : c <+: c' := (h'.prefix_iff hM c).2 fun m hm => h.prefix_of_mem hm
    have hge : c' <+: c := (h.prefix_iff hM c').2 fun m hm => h'.prefix_of_mem hm
    exact hle.eq_of_length (le_antisymm hle.length_le hge.length_le)

theorem IsCompletion.perm (h : IsCompletion c M) (hl : l.Perm M) : IsCompletion c l where
  of_nil hnil := h.of_nil (hnil ▸ hl).nil_eq.symm
  prefix_iff hne q := by
    rw [h.prefix_iff (fun hM => hne (hM ▸ hl).eq_nil)]
    exact forall_congr' fun m => imp_congr_left hl.mem_iff.symm

/-- A text that goes on has a next byte. -/
theorem exists_next (h : c <+: m) (hne : c ≠ m) : ∃ b, c ++ [b] <+: m := by
  obtain ⟨r, rfl⟩ := h
  cases r with
  | nil => exact absurd (List.append_nil c).symm hne
  | cons b r => exact ⟨b, r, by rw [List.append_assoc, List.singleton_append]⟩

/-- Two bytes do not both come next. -/
theorem next_unique {b b' : UInt8} (h : c ++ [b] <+: m) (h' : c ++ [b'] <+: m) : b = b' := by
  have hle := List.prefix_of_prefix_length_le h h' (by simp)
  exact List.singleton_inj.1 ((List.append_right_inj c).1 (hle.eq_of_length (by simp)))

/-- The candidates that are kept are enough to tell what all have in common: all are kept, or
    the common text is one of them, or too few go on with the same byte. Without a zero byte
    in the common text, only those count that go on with the smallest byte. -/
def Told (c : Bytes) (M : List Bytes) : Prop :=
  M.length ≤ matchMax ∨ c ∈ M ∨
    ∀ b, (0 ∉ c → ∀ m ∈ M, ∃ b', b ≤ b' ∧ c ++ [b'] <+: m) →
      M.countP (c ++ [b]).isPrefixOf < matchMax

section Kept

variable (hl : Smallest.Keeps sortKey matchMax l M) (hc : IsCompletion c M)
  (hd : IsCompletion c' l)

include hl hc hd

/-- What all candidates have in common, those that are kept have in common. -/
theorem prefix_of_kept : c <+: c' := by
  have hmem := hl.subset
  obtain ⟨-, -, rest, hperm, -, hfull⟩ := hl
  rcases eq_or_ne M [] with hM | hM
  · rw [hc.of_nil hM]
    exact List.nil_prefix
  · have hne : l ≠ [] := by
      rintro rfl
      have hrest : rest ≠ [] := fun h => hM (h ▸ hperm).nil_eq.symm
      exact absurd (hfull hrest) (by decide)
    exact (hd.prefix_iff hne c).2 fun m hm => hc.prefix_of_mem (hmem hm)

theorem eq_of_told (h : Told c M) : c' = c := by
  have hle := prefix_of_kept hl hc hd
  have hmem := hl.subset
  obtain ⟨-, -, rest, hperm, hrest, hfull⟩ := hl
  have hlen := hperm.length_eq
  rw [List.length_append] at hlen
  by_contra hne
  -- Some candidate is not kept.
  have hne' : rest ≠ [] := by
    rintro rfl
    rw [List.append_nil] at hperm
    exact hne ((hc.perm hperm).unique hd).symm
  have hcap := hfull hne'
  have hpos := List.length_pos_of_ne_nil hne'
  obtain ⟨b, hb⟩ := exists_next hle (Ne.symm hne)
  have hall : ∀ m ∈ l, c ++ [b] <+: m := fun m hm => hb.trans (hd.prefix_of_mem hm)
  obtain ⟨a, ha⟩ := List.exists_mem_of_length_pos (hcap.symm ▸ (by decide : 0 < matchMax))
  have hca := hc.prefix_of_mem (hmem ha)
  -- The common text would be the first candidate, and be kept.
  have hcM : c ∉ M := by
    have hnot : c ∉ l := fun hcl => by
      have := (hall c hcl).length_le
      simp at this
    intro hcM
    have hcrest := (List.mem_append.1 (hperm.mem_iff.2 hcM)).resolve_left hnot
    have hkey := le_antisymm (sortKey_mono hca) (hrest a ha c hcrest)
    exact hnot (eq_of_sortKey_eq hca hkey ▸ ha)
  rcases h with hM | hcM' | hfew
  · omega
  · exact hcM hcM'
  · have hcount : matchMax ≤ M.countP (c ++ [b]).isPrefixOf := by
      rw [← hperm.countP_eq, List.countP_append, List.countP_eq_length.2, hcap]
      · exact Nat.le_add_right _ _
      · exact fun m hm => List.isPrefixOf_iff_prefix.2 (hall m hm)
    refine absurd (hfew b fun h₀ m hm => ?_) (Nat.not_lt.2 hcount)
    obtain ⟨b', hb'⟩ := exists_next (hc.prefix_of_mem hm) fun h => hcM (h ▸ hm)
    refine ⟨b', ?_, hb'⟩
    rcases List.mem_append.1 (hperm.mem_iff.2 hm) with hml | hmr
    · rw [next_unique (hall m hml) hb']
      exact UInt8.le_refl _
    · refine UInt8.not_lt.1 fun hlt => ?_
      exact absurd (sortKey_lt_of_next h₀ hb' (hall a ha) hlt) (not_lt.2 (hrest a ha m hmr))

omit hc in
/-- Otherwise those that are kept go on with the same byte. -/
theorem next_of_not_told (h₀ : 0 ∉ c) (h : ¬Told c M) : ∃ b, c ++ [b] <+: c' := by
  have hmem := hl.subset
  obtain ⟨-, hle, rest, hperm, hrest, hfull⟩ := hl
  have hlen := hperm.length_eq
  rw [List.length_append] at hlen
  simp only [Told, not_or, not_forall, not_lt, not_le] at h
  obtain ⟨hM, -, b, hmin, hcount⟩ := h
  have hcap : l.length = matchMax := by
    refine hfull ?_
    rintro rfl
    rw [List.length_nil] at hlen
    omega
  have hne : l ≠ [] := by
    rintro rfl
    cases hcap
  refine ⟨b, (hd.prefix_iff hne _).2 fun m hm => ?_⟩
  by_contra hnext
  obtain ⟨b', hle, hb'⟩ := hmin h₀ m (hmem hm)
  have hlt : b < b' := UInt8.lt_of_le_of_ne hle fun heq => hnext (heq ▸ hb')
  -- One that goes on with the smallest byte is not kept, as there is no room for all of them.
  have hleft : ∃ x ∈ rest, c ++ [b] <+: x := by
    by_contra hnone
    push Not at hnone
    have hzero : rest.countP (c ++ [b]).isPrefixOf = 0 :=
      List.countP_eq_zero.2 fun x hx => mt List.isPrefixOf_iff_prefix.1 (hnone x hx)
    have hfew : l.countP (c ++ [b]).isPrefixOf < l.length :=
      List.countP_lt_length_iff.2
        ⟨m, hm, Bool.eq_false_iff.2 (mt List.isPrefixOf_iff_prefix.1 hnext)⟩
    rw [← hperm.countP_eq, List.countP_append, hzero] at hcount
    omega
  obtain ⟨x, hx, hbx⟩ := hleft
  exact absurd (sortKey_lt_of_next h₀ hbx hb' hlt) (not_lt.2 (hrest m hm x hx))

end Kept

end Completion

/-! ## The code of the key -/

variable {T : Terminal} {e e' : Editor T} {t : Zipper UInt8}

/-- The globals of `e`, but for the line, which has the text `t`, and for what is shown below
    it. -/
structure Completed (e : Editor T) (t : Zipper UInt8) (e' : Editor T) : Prop where
  frame : ∃ tty buf len pos matchList linesBelow,
    e' = { e with tty, buf, len, pos, matchList, linesBelow }
  line : TextOk e'.buf e'.len e'.pos
  spells : Spells e'.buf e'.len e'.pos t

theorem Completed.text_eq (h : Completed e t e') : e'.text = t := h.spells.text_eq

theorem Edited.completed (h : Edited e t e') : Completed e t e' where
  frame := by
    obtain ⟨buf, len, pos, rfl⟩ := h.frame
    exact ⟨_, buf, len, pos, _, _, rfl⟩
  line := h.line
  spells := h.spells

theorem Completed.invariant (h : Completed e t e') (hi : Invariant e) : Invariant e' := by
  refine ⟨h.line, ?_⟩
  obtain ⟨_, _, _, _, _, _, rfl⟩ := h.frame
  exact hi.2

/-- The text with some bytes before the cursor, as many as there is room for. -/
def inserted (s : Bytes) (t : Zipper UInt8) : Zipper UInt8 :=
  ⟨t.before ++ s.take (lineMax - 1 - t.whole.length), t.after⟩

/-- What the code of the tab key does to the text. -/
def completed (env : List Slots) (t : Zipper UInt8) : Zipper UInt8 :=
  let t := t.forthOver isSymbolCharGen
  let src := t.before.rtakeWhile isSymbolCharGen
  if src = [] then t
  else inserted ((longestCommonPrefix (findMatches src env)).drop src.length) t

/-- The same, with the environment of the program, which may be NULL. -/
def completion : Option (List Slots) → Zipper UInt8 → Zipper UInt8
  | none, t => inserted [0x20, 0x20] t
  | some env, t => completed env t

theorem insertAll_eq (h : TextOk e.buf e.len e.pos) (s : Bytes) :
    ∃ e', Edited e (inserted s e.text) e' ∧ insertAll s e = .ok e' := by
  induction s generalizing e with
  | nil =>
    refine ⟨e, ?_, rfl⟩
    rw [inserted, List.take_nil, List.append_nil]
    exact edited_self h
  | cons c s ih =>
    have hlen := len_eq_length h
    have hmax := lineMax_eq
    rw [insertAll, List.foldlM_cons]
    by_cases hfull : e.len < lineMax - 1
    · obtain ⟨e₁, h₁, hinsert⟩ := insert_of_lt h hfull c false
      rw [if_neg (fun hand => Bool.false_ne_true hand.2.1)] at hinsert
      obtain ⟨e₂, h₂, hall⟩ := ih h₁.line
      refine ⟨e₂, h₁.trans ?_, ?_⟩
      · have hroom : lineMax - 1 - e.text.whole.length =
            lineMax - 1 - (e.text.insert c).whole.length + 1 := by
          simp only [Zipper.whole, Zipper.insert, List.length_append, List.length_singleton] at *
          omega
        rw [h₁.text_eq, inserted] at h₂
        rw [inserted, hroom, List.take_succ_cons]
        simpa [Zipper.insert] using h₂
      · rw [hinsert]
        exact hall
    · obtain ⟨e₂, h₂, hall⟩ := ih h
      refine ⟨e₂, ?_, ?_⟩
      · have hroom : lineMax - 1 - e.text.whole.length = 0 := by omega
        rw [inserted, hroom, List.take_zero] at h₂ ⊢
        exact h₂
      · rw [insert_of_full hfull]
        exact hall

/-- The cursor moves to the end of the symbol. The zero at the end of the line is no
    symbol character. -/
theorem skipSymbol_eq (h : TextOk e.buf e.len e.pos) :
    ∃ e', Edited e (e.text.forthOver isSymbolCharGen) e' ∧
      whileLoop (fun e : Editor T => isSymbolCharGen <$> e.load e.pos)
        (fun e => pure { e with pos := e.pos + 1 }) lineMax e = .ok e' := by
  refine moveWhile_eq h isSymbolCharGen ?_ ?_
  · rintro s ⟨m, -, hs⟩
    have hend : s.pos = s.len := (pos_eq_len_iff hs.line).2 (by rw [hs.text_eq])
    have hlen := hs.line.len_le
    have hmax := lineMax_eq
    rw [load_eq hs.line.pos_nonneg (by omega), hend, hs.line.terminated]
    rfl
  · rintro s c l ⟨m, -, hs⟩
    rw [hs.load_head.2]
    rfl

theorem symprefixBefore_eq {l : Bytes} (hl : cells e.buf 0 l.length = l)
    (hlen : l.length ≤ lineMax) :
    symprefixBefore e l.length = .ok (l.rtakeWhile isSymbolCharGen) := by
  induction l using List.reverseRecOn with
  | nil => rfl
  | append_singleton l c ih =>
    rw [List.length_append, List.length_singleton] at hl hlen ⊢
    rw [cells_concat] at hl
    obtain ⟨hl, hc⟩ := List.append_inj hl length_cells
    have hload : e.load l.length = .ok c := by
      rw [load_eq (Int.natCast_nonneg _) (Int.ofNat_lt.2 hlen), ← List.singleton_inj.1 hc, zero_add]
    rw [symprefixBefore, hload, ok_bind, ih hl (Nat.le_of_succ_le hlen), List.rtakeWhile_concat]
    split_ifs <;> rfl

theorem getSymprefix_eq (h : TextOk e.buf e.len e.pos) :
    getSymprefix e = .ok (e.text.before.rtakeWhile isSymbolCharGen) := by
  have hsymbol := symprefixBefore_eq (spells_text h).before_eq (length_before_lt h).le
  rwa [← Int.toNat_natCast e.text.before.length, ← pos_eq_length h] at hsymbol

/-- The code of the tab key. In the end, it may show the matches. -/
theorem kshowcomp_eq (h : TextOk e.buf e.len e.pos) (env : List Slots) :
    ∃ e', Completed e (completed env e.text) e' ∧ e'.tty = e.tty ∧
      (kshowcomp (some env) e = .ok e' ∨ kshowcomp (some env) e = showMatches e') := by
  obtain ⟨e₁, h₁, hskip⟩ := skipSymbol_eq h
  have hsrc := getSymprefix_eq h₁.line
  rw [kshowcomp, hskip, ok_bind, hsrc, ok_bind, completed, ← h₁.text_eq]
  by_cases hnil : e₁.text.before.rtakeWhile isSymbolCharGen = []
  · refine ⟨e₁, ?_, ?_, .inl ?_⟩
    · rw [if_pos hnil, h₁.text_eq]
      exact h₁.completed
    · obtain ⟨_, _, _, rfl⟩ := h₁.frame
      rfl
    · rw [if_pos (List.length_eq_zero_iff.2 hnil)]
      rfl
  · obtain ⟨e₂, h₂, hinsert⟩ := insertAll_eq
      (e := { e₁ with
        matchList := findMatches (e₁.text.before.rtakeWhile isSymbolCharGen) env }) h₁.line
      ((longestCommonPrefix (findMatches (e₁.text.before.rtakeWhile isSymbolCharGen) env)).drop
        (e₁.text.before.rtakeWhile isSymbolCharGen).length)
    have hlen := mt List.length_eq_zero_iff.1 hnil
    dsimp only
    rw [if_neg hnil, if_neg hlen, hinsert, ok_bind]
    refine ⟨e₂, ⟨?_, h₂.line, h₂.spells⟩, ?_, ?_⟩
    · obtain ⟨_, _, _, rfl⟩ := h₁.frame
      obtain ⟨_, _, _, rfl⟩ := h₂.frame
      exact ⟨_, _, _, _, _, _, rfl⟩
    · obtain ⟨_, _, _, rfl⟩ := h₁.frame
      obtain ⟨_, _, _, rfl⟩ := h₂.frame
      rfl
    · split_ifs
      · exact .inl rfl
      · exact .inr rfl

/-- Showing the matches changes nothing in the line. -/
theorem Completed.showMatches (h : Completed e t e') :
    Holds (Completed e t) (showMatches e') := by
  refine (holds_getcols e'.tty).bind fun r _ => ?_
  obtain ⟨hframe, hline, hspells⟩ := h
  dsimp only
  split
  all_goals
    refine ⟨?_, hline, hspells⟩
    obtain ⟨_, _, _, _, _, _, rfl⟩ := hframe
    exact ⟨_, _, _, _, _, _, rfl⟩

theorem holds_kshowcomp (h : TextOk e.buf e.len e.pos) (env : Option (List Slots)) :
    Holds (Completed e (completion env e.text)) (kshowcomp env e) := by
  cases env with
  | none =>
    obtain ⟨e', he', hret⟩ := insertAll_eq h [0x20, 0x20]
    rw [kshowcomp, hret]
    exact he'.completed
  | some env =>
    obtain ⟨e', he', -, hret | hshow⟩ := kshowcomp_eq h env
    · rw [hret]
      exact he'
    · rw [hshow]
      exact he'.showMatches

theorem kshowcomp_returns (h : TextOk e.buf e.len e.pos) (env : List Slots) {r : ℤ × T.State}
    (hcols : getcols T e.tty = .ok r) : ∃ e', kshowcomp (some env) e = .ok e' := by
  obtain ⟨e', -, htty, hret | hshow⟩ := kshowcomp_eq h env
  · exact ⟨e', hret⟩
  · rw [hshow, showMatches, htty, hcols, ok_bind]
    dsimp only
    split
    · exact ⟨_, rfl⟩
    · exact ⟨_, rfl⟩

theorem text_of_kshowcomp (h : TextOk e.buf e.len e.pos) {env : List Slots}
    (hret : kshowcomp (some env) e = .ok e') : e'.text = completed env e.text := by
  have hholds := holds_kshowcomp h (some env)
  rw [hret] at hholds
  exact hholds.text_eq

/-! ## The result -/

/-- The line goes on with what all candidates have in common. -/
def goesOn (src c : Bytes) (t : Zipper UInt8) : Zipper UInt8 :=
  ⟨t.before ++ c.drop src.length, t.after⟩

theorem prefix_of_mem_candidates {src m : Bytes} {env : List Slots} (hm : m ∈ candidates src env) :
    src <+: m :=
  List.isPrefixOf_iff_prefix.1 (List.mem_filter.1 hm).2

/-- The symbol before the cursor has no zero byte. -/
theorem zero_notMem_symbol (l : Bytes) : 0 ∉ l.rtakeWhile isSymbolCharGen := fun h =>
  absurd (List.mem_rtakeWhile_imp h) (by decide)

/-- The line goes on so exactly if the candidates that are kept tell it, or if it is full
    then. -/
theorem completed_iff {src c : Bytes} (env : List Slots) {t t' : Zipper UInt8}
    (ht : t.forthOver isSymbolCharGen = t') (hsrc : t'.before.rtakeWhile isSymbolCharGen = src)
    (hne : src ≠ []) (hc : IsCompletion c (candidates src env))
    (hroom : (goesOn src c t').whole.length ≤ lineMax - 1) :
    (Told c (candidates src env) ∨ (goesOn src c t').whole.length = lineMax - 1 →
      completed env t = goesOn src c t') ∧
      (0 ∉ c → completed env t = goesOn src c t' →
        Told c (candidates src env) ∨ (goesOn src c t').whole.length = lineMax - 1) := by
  have hkeeps := keeps_findMatches (hsrc ▸ zero_notMem_symbol _) env
  have hd := isCompletion_longestCommonPrefix (findMatches src env)
  have hcd := prefix_of_kept hkeeps hc hd
  have hcompleted : completed env t =
      inserted ((longestCommonPrefix (findMatches src env)).drop src.length) t' := by
    rw [completed, ht, hsrc]
    exact if_neg hne
  rw [hcompleted]
  simp only [goesOn, Zipper.whole, List.length_append, List.length_drop] at hroom ⊢
  refine ⟨?_, fun h₀ heq => ?_⟩
  · rintro (htold | hfull)
    · rw [eq_of_told hkeeps hc hd htold, inserted, List.take_of_length_le]
      rw [Zipper.whole, List.length_append, List.length_drop]
      omega
    · obtain ⟨r, hr⟩ := hcd
      have hexact : lineMax - 1 - t'.whole.length = (c.drop src.length).length := by
        rw [Zipper.whole, List.length_append, List.length_drop]
        omega
      rw [← hr, inserted, hexact, List.drop_append, List.take_left]
  · by_contra hnot
    rw [not_or] at hnot
    -- One byte more would be inserted.
    obtain ⟨b, hb⟩ := next_of_not_told hkeeps hd h₀ hnot.1
    have hM : candidates src env ≠ [] := fun hM => hnot.1 (.inl (by simp [hM]))
    have hle := ((hc.prefix_iff hM src).2 fun m hm => prefix_of_mem_candidates hm).length_le
    have hlong := hb.length_le
    have hlen := congrArg (fun t : Zipper UInt8 => t.before.length) heq
    simp only [inserted, Zipper.whole, List.length_append, List.length_take, List.length_drop,
      List.length_singleton] at hlen hlong
    omega

/-- The code of the tab key inserts what all candidates have in common if the candidates that
    are kept tell it, or if the line is full then. Otherwise it inserts more; only for a common
    text with a zero byte this is left open. It returns unless the width of the terminal
    cannot be asked for. -/
theorem completion_iff {T : Terminal} {e : Editor T} (h : Invariant e) (env : List Slots)
    {src c : Bytes} {t : Zipper UInt8} (ht : e.text.forthOver isSymbolCharGen = t)
    (hsrc : t.before.rtakeWhile isSymbolCharGen = src) (hne : src ≠ [])
    (hc : IsCompletion c (candidates src env))
    (hroom : (goesOn src c t).whole.length ≤ lineMax - 1) :
    Holds (fun e' => Invariant e' ∧
        (Told c (candidates src env) ∨ (goesOn src c t).whole.length = lineMax - 1 →
          e'.text = goesOn src c t) ∧
        (0 ∉ c → e'.text = goesOn src c t →
          Told c (candidates src env) ∨ (goesOn src c t).whole.length = lineMax - 1))
      (kshowcomp (some env) e) ∧
      ∀ r, getcols T e.tty = .ok r → ∃ e', kshowcomp (some env) e = .ok e' := by
  refine ⟨(holds_kshowcomp h.1 (some env)).mono fun e' he' => ⟨he'.invariant h, ?_⟩,
    fun r hcols => kshowcomp_returns h.1 env hcols⟩
  rw [he'.text_eq, completion]
  exact completed_iff env ht hsrc hne hc hroom

/-- An environment with `apple`, whose prototype has `pear`, `apply` and `apple`. -/
def fruits : List Slots :=
  [[['a', 'p', 'p', 'l', 'e']],
    [['p', 'e', 'a', 'r'], ['a', 'p', 'p', 'l', 'y'], ['a', 'p', 'p', 'l', 'e']]].map
      (List.map fun sym => (.symbol (ascii sym), .boolean true))

/-- What the candidates after `ap` have in common is `appl`. -/
theorem completion_iff_fruits : ∃ e',
    kshowcomp (some fruits) (lineOf (ascii ['a', 'p'])) = .ok e' ∧
      e'.text = ⟨ascii ['a', 'p', 'p', 'l'], []⟩ := by
  obtain ⟨hholds, hreturns⟩ := completion_iff (invariant_lineOf (s := ascii ['a', 'p']) (by decide))
    fruits (by rw [text_lineOf]) rfl (by decide)
    (isCompletion_longestCommonPrefix (candidates (ascii ['a', 'p']) fruits)) (by decide)
  obtain ⟨e', he'⟩ := hreturns _ rfl
  rw [he'] at hholds
  exact ⟨e', he', hholds.2.1 (.inl (.inl (by decide)))⟩

/-- 257 symbols that start with `a`, of which one does not go on with another `a`. -/
def crowd : Slots :=
  (((List.range 256).map fun i =>
    [0x61, 0x61, 0x61 + UInt8.ofNat (i / 16), 0x61 + UInt8.ofNat (i % 16)]) ++
      [[0x61, 0x62]]).map fun sym => (.symbol sym, .boolean true)

/-- The last one has no place among the matches, and is excluded. -/
theorem completion_excludes : IsCompletion [0x61] (candidates [0x61] [crowd]) ∧
    [0x61, 0x62] ∈ candidates [0x61] [crowd] ∧
    ∃ e', kshowcomp (some [crowd]) (lineOf [0x61]) = .ok e' ∧
      e'.text ≠ goesOn [0x61] [0x61] ⟨[0x61], []⟩ := by
  have hc := isCompletion_longestCommonPrefix (candidates [0x61] [crowd])
  have hlcp : longestCommonPrefix (candidates [0x61] [crowd]) = [0x61] := by decide +kernel
  rw [hlcp] at hc
  have hM : ∀ m ∈ candidates [0x61] [crowd], 0x61 ≤ m.getD 1 0 ∧ [0x61, m.getD 1 0] <+: m := by
    decide +kernel
  have htold : ¬Told [0x61] (candidates [0x61] [crowd]) := by
    rintro (hfew | hmem | hnext)
    · exact absurd hfew (by decide +kernel)
    · exact absurd hmem (by decide +kernel)
    · exact absurd (hnext 0x61 fun _ m hm => ⟨_, hM m hm⟩) (by decide +kernel)
  have hline : Invariant (lineOf [0x61]) := invariant_lineOf (by decide)
  obtain ⟨e', he'⟩ := kshowcomp_returns hline.1 [crowd] rfl
  refine ⟨hc, by decide +kernel, e', he', fun heq => ?_⟩
  rw [text_of_kshowcomp hline.1 he', text_lineOf] at heq
  rcases (completed_iff [crowd] (by rfl) rfl (by decide) hc (by decide)).2 (by decide) heq
    with h | h
  · exact htold h
  · exact absurd h (by decide)

end PunyGui.Line
