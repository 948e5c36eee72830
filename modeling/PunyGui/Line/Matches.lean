import PunyGui.Line.Complete
import PunyGui.Smallest
import Mathlib.Data.List.Lex
import Mathlib.Data.Prod.Lex

/-!
# The matches of a completion

The candidates of a completion are inserted into a sorted list of at most
`JANET_MATCH_MAX` matches.

* `sortKey`, `compareBytes_lt_iff`, `compareBytes_le_iff`: the order they are sorted by.
* `candidates`: all symbols and names that go on with the symbol before the cursor.
* `keeps_findMatches`: the matches are the smallest candidates.
* `checkMatch_keeps`: so they are after any candidates, in the order of the code.
-/

namespace PunyGui.Line

open Text Libc Imp

/-! ## The order of the matches -/

/-- The candidates are sorted by the strings that C sees, and then by their lengths. -/
def sortKey (a : Bytes) : List ℕ ×ₗ ℕ := toLex ((cString a).map UInt8.toNat, a.length)

section SortKey

variable {a b c m m' : Bytes} {x y : UInt8}

theorem sortKey_lt_iff : sortKey a < sortKey b ↔
    (cString a).map UInt8.toNat < (cString b).map UInt8.toNat ∨
      cString a = cString b ∧ a.length < b.length := by
  rw [sortKey, sortKey, Prod.Lex.toLex_lt_toLex]
  have hinj : Function.Injective (List.map UInt8.toNat) :=
    List.map_injective_iff.2 fun x y h => UInt8.toNat_inj.1 h
  rw [hinj.eq_iff]

theorem sortKey_cons_lt_iff (hx : x ≠ 0) : sortKey (x :: a) < sortKey (x :: b) ↔
    sortKey a < sortKey b := by
  simp only [sortKey_lt_iff, cString_cons hx, List.map_cons, List.cons_lt_cons_iff, lt_irrefl,
    false_or, true_and, List.cons.injEq, List.length_cons, Nat.succ_lt_succ_iff]

/-- Where two bytes differ, they decide. A zero byte ends its string, and is the smallest. -/
theorem sortKey_cons_lt_iff_of_ne (hxy : x ≠ y) : sortKey (x :: a) < sortKey (y :: b) ↔
    x.toNat < y.toNat := by
  rw [sortKey_lt_iff]
  rcases eq_or_ne x 0 with rfl | hx
  · have hy : 0 < y.toNat := Nat.pos_of_ne_zero fun h => hxy (UInt8.toNat_inj.1 h.symm)
    rw [cString_zero_cons, cString_cons hxy.symm]
    simpa using hy
  · rcases eq_or_ne y 0 with rfl | hy
    · rw [cString_zero_cons, cString_cons hx]
      simp
    · rw [cString_cons hx, cString_cons hy]
      simp [List.cons_lt_cons_iff, UInt8.toNat_inj, hxy]

theorem compareBytes_cons_of_ne (hxy : x ≠ y) :
    compareBytes (x :: a) (y :: b) = (x.toNat : ℤ) - y.toNat := by
  have hne : (x.toNat : ℤ) - y.toNat ≠ 0 := by
    rw [Ne, sub_eq_zero, Int.ofNat_inj]
    exact fun h => hxy (UInt8.toNat_inj.1 h)
  simp [compareBytes, strncmp, hxy, hne]

theorem compareBytes_cons (hx : x ≠ 0) :
    compareBytes (x :: a) (x :: b) = compareBytes a b := by
  simp [compareBytes, strncmp, hx]

theorem compareBytes_zero_cons : compareBytes (0 :: a) (0 :: b) < 0 ↔ a.length < b.length := by
  simp only [compareBytes, List.length_cons, Nat.add_min_add_right, strncmp]
  split_ifs <;> simp_all

/-- `compare_bytes` compares by this order. -/
theorem compareBytes_lt_iff (a b : Bytes) : compareBytes a b < 0 ↔ sortKey a < sortKey b := by
  induction a generalizing b with
  | nil =>
    rw [sortKey_lt_iff]
    cases b with
    | nil => simp [compareBytes, strncmp]
    | cons y b =>
      rcases eq_or_ne y 0 with rfl | hy
      · rw [cString_zero_cons]
        simp [compareBytes, strncmp, cString]
      · rw [cString_cons hy]
        simp [compareBytes, strncmp, cString]
  | cons x a ih =>
    cases b with
    | nil =>
      rw [sortKey_lt_iff]
      simp [compareBytes, strncmp, cString]
    | cons y b =>
      rcases eq_or_ne x y with rfl | hxy
      · rcases eq_or_ne x 0 with rfl | hx
        · rw [compareBytes_zero_cons, sortKey_lt_iff, cString_zero_cons, cString_zero_cons]
          simp
        · rw [compareBytes_cons hx, ih, sortKey_cons_lt_iff hx]
      · rw [compareBytes_cons_of_ne hxy, sortKey_cons_lt_iff_of_ne hxy, sub_neg, Int.ofNat_lt]

theorem strncmp_neg (n : ℕ) (a b : Bytes) : strncmp n b a = -strncmp n a b := by
  induction n generalizing a b with
  | zero => rfl
  | succ n ih =>
    cases a with
    | nil => cases b <;> rfl
    | cons x a =>
      cases b with
      | nil => rfl
      | cons y b =>
        rw [strncmp, strncmp]
        by_cases hxy : x = y
        · subst hxy
          rw [if_neg (not_not_intro rfl), if_neg (not_not_intro rfl), ih, apply_ite Neg.neg,
            neg_zero]
        · rw [if_pos hxy, if_pos (Ne.symm hxy), neg_sub]

/-- The other way round, the result has the other sign. -/
theorem compareBytes_neg (a b : Bytes) : compareBytes b a = -compareBytes a b := by
  simp only [compareBytes, min_comm b.length, strncmp_neg _ a b, neg_ne_zero]
  split_ifs <;> omega

theorem compareBytes_le_iff (a b : Bytes) : compareBytes a b ≤ 0 ↔ sortKey a ≤ sortKey b := by
  rw [← not_lt, ← not_lt, ← compareBytes_lt_iff, compareBytes_neg a b, neg_neg_iff_pos]

/-- A text is not behind those that go on from it. -/
theorem sortKey_mono (h : c <+: m) : sortKey c ≤ sortKey m := by
  induction c generalizing m with
  | nil =>
    refine not_lt.1 fun hlt => ?_
    rcases sortKey_lt_iff.1 hlt with hlt | ⟨-, hlt⟩
    · exact List.not_lt_nil _ hlt
    · exact Nat.not_lt_zero _ hlt
  | cons x c ih =>
    obtain ⟨m, rfl, hcm⟩ := List.cons_prefix_iff.1 h
    refine not_lt.1 fun hlt => ?_
    rcases eq_or_ne x 0 with rfl | hx
    · rw [sortKey_lt_iff, cString_zero_cons, cString_zero_cons] at hlt
      have := h.length_le
      rcases hlt with hlt | ⟨-, hlt⟩
      · exact lt_irrefl _ hlt
      · omega
    · exact not_lt.2 (ih hcm) ((sortKey_cons_lt_iff hx).1 hlt)

/-- It has its place to itself among them. -/
theorem eq_of_sortKey_eq (h : c <+: m) (hkey : sortKey c = sortKey m) : c = m :=
  h.eq_of_length (congrArg Prod.snd (toLex_inj.1 hkey))

/-- The next byte decides. -/
theorem sortKey_lt_of_next (hc : 0 ∉ c) (hm : c ++ [x] <+: m) (hm' : c ++ [y] <+: m')
    (hxy : x < y) : sortKey m < sortKey m' := by
  induction c generalizing m m' with
  | nil =>
    obtain ⟨m, rfl⟩ := hm
    obtain ⟨m', rfl⟩ := hm'
    exact (sortKey_cons_lt_iff_of_ne (UInt8.ne_of_lt hxy)).2 hxy
  | cons z c ih =>
    rw [List.mem_cons, not_or] at hc
    obtain ⟨m, rfl, hcm⟩ := List.cons_prefix_iff.1 hm
    obtain ⟨m', rfl, hcm'⟩ := List.cons_prefix_iff.1 hm'
    rw [sortKey_cons_lt_iff (Ne.symm hc.1)]
    exact ih hc.2 hcm hcm'

end SortKey

/-! ## The candidates -/

/-- All symbols and names that start with `src`. -/
def candidates (src : Bytes) (env : List Slots) : List Bytes :=
  (env.flatMap symbols ++ specials).filter src.isPrefixOf

section Candidates

variable {T : Terminal} {src : Bytes}

/-- `strncmp` compares the start of the string, if there is no zero byte in it. -/
theorem strncmp_eq_zero_iff (hsrc : 0 ∉ src) {test : Bytes} (hlen : src.length ≤ test.length) :
    strncmp src.length src test = 0 ↔ src <+: test := by
  induction src generalizing test with
  | nil => simp [strncmp]
  | cons a src ih =>
    rw [List.mem_cons, not_or] at hsrc
    cases test with
    | nil => exact absurd hlen (Nat.not_succ_le_zero _)
    | cons b test =>
      rw [List.length_cons, List.length_cons, Nat.succ_le_succ_iff] at hlen
      rw [List.cons_prefix_cons, List.length_cons, strncmp]
      split_ifs with hne hzero
      · simp [hne, sub_eq_zero, UInt8.toNat_inj]
      · exact absurd hzero.symm hsrc.1
      · rw [ih hsrc.2 hlen, and_iff_right (not_not.1 hne)]

theorem placeMatch_eq (mm : Bytes) (ms : List Bytes) :
    placeMatch mm ms = Smallest.exchange sortKey mm ms := by
  induction ms generalizing mm with
  | nil => rfl
  | cons m ms ih =>
    rw [placeMatch, Smallest.exchange, ih, ih]
    simp only [compareBytes_lt_iff]

/-- The test of `check_match`: the symbol starts with the prefix, as C compares them. -/
def startsWith (src test : Bytes) : Bool :=
  src.length ≤ test.length && strncmp src.length src test == 0

theorem startsWith_eq (hsrc : 0 ∉ src) : startsWith src = src.isPrefixOf := by
  funext test
  rw [Bool.eq_iff_iff, List.isPrefixOf_iff_prefix, startsWith, Bool.and_eq_true, beq_iff_eq,
    decide_eq_true_iff]
  constructor
  · rintro ⟨hlen, hcmp⟩
    exact (strncmp_eq_zero_iff hsrc hlen).1 hcmp
  · exact fun h => ⟨h.length_le, (strncmp_eq_zero_iff hsrc h.length_le).2 h⟩

theorem checkMatch_eq (src : Bytes) (ms : List Bytes) (test : Bytes) :
    checkMatch src ms test =
      if startsWith src test then Smallest.add sortKey matchMax ms test else ms := by
  have hiff : src.length > test.length ∨ strncmp src.length src test ≠ 0 ↔
      ¬startsWith src test = true := by
    rw [startsWith, Bool.and_eq_true, beq_iff_eq, decide_eq_true_iff, not_and_or, not_le]
  rw [checkMatch, placeMatch_eq]
  simp only [hiff, ite_not]
  rfl

theorem foldl_checkMatch_eq (src : Bytes) (tests ms : List Bytes) :
    tests.foldl (checkMatch src) ms =
      (tests.filter (startsWith src)).foldl (Smallest.add sortKey matchMax) ms := by
  have hcheck : checkMatch src = fun ms test =>
      if startsWith src test then Smallest.add sortKey matchMax ms test else ms :=
    funext₂ (checkMatch_eq src)
  rw [List.foldl_filter, hcheck]

/-- The matches are the smallest candidates, as many as there is room for. -/
theorem keeps_findMatches (hsrc : 0 ∉ src) (env : List Slots) :
    Smallest.Keeps sortKey matchMax (findMatches src env) (candidates src env) := by
  rw [findMatches, ← List.foldl_append, foldl_checkMatch_eq, startsWith_eq hsrc]
  exact Smallest.keeps_foldl_add _

/-- All bytes of the prefix are symbol characters. -/
theorem isSymbolCharGen_of_mem {e : Editor T} {n : ℕ} (h : symprefixBefore e n = .ok src) :
    ∀ c ∈ src, isSymbolCharGen c = true := by
  induction n generalizing src with
  | zero =>
    obtain rfl := Except.ok.inj h
    exact fun c hc => absurd hc List.not_mem_nil
  | succ n ih =>
    obtain ⟨c, -, h⟩ := bind_eq_ok.1 h
    split_ifs at h with hc
    · obtain ⟨s, hs, h⟩ := bind_eq_ok.1 h
      obtain rfl := Except.ok.inj h
      exact List.forall_mem_append.2 ⟨ih hs, List.forall_mem_singleton.2 hc⟩
    · obtain rfl := Except.ok.inj h
      exact fun c hc => absurd hc List.not_mem_nil

theorem zero_notMem_of_getSymprefix_eq {e : Editor T} (h : getSymprefix e = .ok src) : 0 ∉ src :=
  fun h₀ => absurd (isSymbolCharGen_of_mem h 0 h₀) (by decide)

/-- The list is sorted, and has the smallest of the candidates, as many as there is room
    for. -/
structure KeepsSmallest (ms M : List Bytes) : Prop where
  sorted : ms.Pairwise fun a b => compareBytes a b ≤ 0
  length_eq : ms.length = min matchMax M.length
  rest : ∃ rest, (ms ++ rest).Perm M ∧ ∀ a ∈ ms, ∀ b ∈ rest, compareBytes a b ≤ 0

theorem keepsSmallest_of_keeps {ms M : List Bytes} (h : Smallest.Keeps sortKey matchMax ms M) :
    KeepsSmallest ms M where
  sorted := h.sorted.imp fun hab => (compareBytes_le_iff _ _).2 hab
  length_eq := h.length_eq
  rest := by
    obtain ⟨rest, hperm, hle, -⟩ := h.rest
    exact ⟨rest, hperm, fun a ha b hb => (compareBytes_le_iff a b).2 (hle a ha b hb)⟩

theorem compareBytes_total (a b : Bytes) : compareBytes a b ≤ 0 ∨ compareBytes b a ≤ 0 := by
  rw [compareBytes_le_iff, compareBytes_le_iff]
  exact le_total _ _

theorem compareBytes_trans {a b c : Bytes} (hab : compareBytes a b ≤ 0)
    (hbc : compareBytes b c ≤ 0) : compareBytes a c ≤ 0 := by
  rw [compareBytes_le_iff] at *
  exact hab.trans hbc

/-- After any candidates, the matches are the smallest of those that start with the prefix.
    For a prefix without a zero byte, such as the line has, the test of the code says this.
    The comparison is a total preorder on all bytes. -/
theorem checkMatch_keeps (src : Bytes) (tests : List Bytes) :
    KeepsSmallest (tests.foldl (checkMatch src) []) (tests.filter (startsWith src)) ∧
      (∀ (T : Terminal) (e : Editor T), getSymprefix e = .ok src → 0 ∉ src) ∧
      (0 ∉ src → ∀ test, startsWith src test = true ↔ src <+: test) ∧
      (∀ a b, compareBytes a b ≤ 0 ∨ compareBytes b a ≤ 0) ∧
      (∀ a b c, compareBytes a b ≤ 0 → compareBytes b c ≤ 0 → compareBytes a c ≤ 0) ∧
      ∀ a b, compareBytes b a = -compareBytes a b := by
  refine ⟨?_, fun T e he => zero_notMem_of_getSymprefix_eq he, fun h₀ test => ?_,
    compareBytes_total, fun a b c => compareBytes_trans, compareBytes_neg⟩
  · rw [foldl_checkMatch_eq]
    exact keepsSmallest_of_keeps (Smallest.keeps_foldl_add _)
  · rw [startsWith_eq h₀, List.isPrefixOf_iff_prefix]

/-- The candidates `do`, `fn` and `def` for the prefix `d`. -/
theorem checkMatch_keeps_letter :
    KeepsSmallest [[0x64, 0x65, 0x66], [0x64, 0x6F]] [[0x64, 0x6F], [0x64, 0x65, 0x66]] ∧
      ∀ test, startsWith [0x64] test = true ↔ [0x64] <+: test := by
  have h := checkMatch_keeps [0x64] [[0x64, 0x6F], [0x66, 0x6E], [0x64, 0x65, 0x66]]
  exact ⟨h.1, h.2.2.1 (by decide)⟩

end Candidates

end PunyGui.Line
