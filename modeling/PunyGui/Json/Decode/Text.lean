import PunyGui.Json.Decode.String
import PunyGui.JsonText.Unique

/-!
# Decoding texts

The decoder reads exactly the lenient texts nested at most as deep as the
recursion guard, each as its value:

* `decodeOne_render`: it reads such a text to its end, as `treeValue`;
* `decodeOne_sound`: what it reads is such a text;
* `jsonDecode_iff`: what `json/decode` accepts, and with what result.
-/

namespace PunyGui

open Binary64 Text Libc JsonText

/-! ## Values of trees -/

section Value

variable (rt : Runtime) (keywords nils : Bool)

/-- The key of a member. -/
def nameKey (name : List Item) : Janet :=
  let s := (stringValue name).getD []
  if keywords then .keyword s else .string s

mutual

/-- The value of a text. -/
def treeValue : Tree → Janet
  | .null => if nils then .nil else nullKeyword
  | .true_ => .boolean true
  | .false_ => .boolean false
  | .number tok => .number (strtod tok).1
  | .string is => .string ((stringValue is).getD [])
  | .emptyArray _ => .array []
  | .array es => .array (elementValues es)
  | .emptyObject _ => .table rt.table
  | .object ms => .table (memberSlots ms rt.table)

def elementValues : Elements → List Janet
  | .last _ t _ _ => [treeValue t]
  | .cons _ t _ es => treeValue t :: elementValues es

/-- The members are put one after the other. -/
def memberSlots : Members → Slots → Slots
  | .last _ name _ _ t _ _, table => rt.tablePut table (nameKey keywords name) (treeValue t)
  | .cons _ name _ _ t _ ms, table =>
    memberSlots ms (rt.tablePut table (nameKey keywords name) (treeValue t))

end

end Value

/-! ## Depth and flags -/

section Flags

variable {keywords nils : Bool} {l : ℕ}

/-- A flag is set if its bit is. -/
theorem and_two_pow_ne_zero (n k : ℕ) : n &&& 2 ^ k ≠ 0 ↔ n / 2 ^ k % 2 = 1 := by
  have hk : (n &&& 2 ^ k).testBit k = decide (n / 2 ^ k % 2 = 1) := by
    rw [Nat.testBit_and, Nat.testBit_two_pow_self, Bool.and_true, Nat.testBit_eq_decide_div_mod_eq]
  refine ⟨fun h => by_contra fun hn => h (Nat.eq_of_testBit_eq fun i => ?_), fun h h0 => ?_⟩
  · rw [Nat.zero_testBit]
    by_cases hi : k = i
    · rw [← hi, hk, decide_eq_false hn]
    · rw [Nat.testBit_and, Nat.testBit_two_pow_of_ne hi, Bool.and_false]
  · rw [h0, Nat.zero_testBit, decide_eq_true h] at hk
    cases hk

/-- The flags leave the low bits to the depth. -/
theorem depth_bits (hl : l < 0x10000) : (decodeFlags keywords nils + l) &&& 0xFFFF = l := by
  rw [show (0xFFFF : ℕ) = 2 ^ 16 - 1 from rfl, Nat.and_two_pow_sub_one_eq_mod]
  cases keywords <;> cases nils <;> simp [decodeFlags, jsonKeywordKey, jsonNullToNil] <;> omega

theorem keywordKey_iff (hl : l < 0x10000) :
    (decodeFlags keywords nils + l) &&& jsonKeywordKey ≠ 0 ↔ keywords = true := by
  rw [show jsonKeywordKey = 2 ^ 16 from rfl, and_two_pow_ne_zero]
  cases keywords <;> cases nils <;> simp [decodeFlags, jsonKeywordKey, jsonNullToNil] <;> omega

theorem nullToNil_iff (hl : l < 0x10000) :
    (decodeFlags keywords nils + l) &&& jsonNullToNil ≠ 0 ↔ nils = true := by
  rw [show jsonNullToNil = 2 ^ 17 from rfl, and_two_pow_ne_zero]
  cases keywords <;> cases nils <;> simp [decodeFlags, jsonKeywordKey, jsonNullToNil] <;> omega

end Flags

/-! ## White space -/

theorem white_eq : ∀ c, white c = isWs c := forall_byte (by decide +kernel)

theorem skipwhite_append {w : Bytes} (hw : Ws w) (p : Bytes) :
    skipwhite (w ++ p) = skipwhite p := by
  have h : w.dropWhile white = [] :=
    List.dropWhile_eq_nil_iff.2 fun c hc => by rw [white_eq, hw c hc]
  rw [skipwhite, List.dropWhile_append, h]
  rfl

theorem skipwhite_cons {c : UInt8} (hc : isWs c = false) (cs : Bytes) :
    skipwhite (c :: cs) = c :: cs :=
  List.dropWhile_cons_of_neg (by rw [white_eq, hc]; decide)

theorem skipwhite_stop {p : Bytes} (hp : Stops isWs p) : skipwhite p = p := by
  cases p with
  | nil => rfl
  | cons c cs => exact skipwhite_cons (stops_cons.1 hp) cs

/-- What is skipped is white space. -/
theorem exists_skipwhite (p : Bytes) : ∃ w, Ws w ∧ p = w ++ skipwhite p :=
  ⟨p.takeWhile white, fun c hc => by rw [← white_eq, of_mem_takeWhile hc],
    (List.takeWhile_append_dropWhile).symm⟩

/-! ## Reading a text -/

theorem lenient_le_loose : lenient.Le loose where
  number _ h := h.1
  string _ h := h.1
  comma _ _ := trivial

section Render

variable {rt : Runtime} {keywords nils : Bool} {l fuel : ℕ} {w r : Bytes}

/-- The recursion guard is not reached. -/
theorem depth_le (hl : l ≤ rt.recursionGuard) :
    ¬(decodeFlags keywords nils + l) &&& 0xFFFF > rt.recursionGuard := by
  have := rt.guard_lt
  rw [depth_bits (by omega)]
  omega

/-- Strings, the names of members among them. -/
theorem decodeOne_string {is : List Item} (hs : IsString is) (hw : Ws w)
    (hl : l ≤ rt.recursionGuard) (r : Bytes) :
    decodeOne rt (fuel + 1) (w ++ 0x22 :: renderItems is (0x22 :: r))
      (decodeFlags keywords nils + l) =
      .ok (.string ((stringValue is).getD []), r) := by
  obtain ⟨v, hv⟩ := Option.isSome_iff_exists.1 hs.2
  rw [decodeOne, if_neg (depth_le hl), skipwhite_append hw, skipwhite_cons (by decide)]
  simp [decodeQuoted_render hs hv, hv]

theorem decodeOne_number {tok : Bytes} (ht : lenient.number tok) (hw : Ws w)
    (hr : Stops isNumberByte r) (hl : l ≤ rt.recursionGuard) :
    decodeOne rt (fuel + 1) (w ++ (tok ++ r)) (decodeFlags keywords nils + l) =
      .ok (.number (strtod tok).1, r) := by
  obtain ⟨ht, hc⟩ := ht
  have hs := strtod_token ht hr
  obtain ⟨c, tok, rfl⟩ := List.exists_cons_of_ne_nil ht.ne_nil
  have hc : c = 0x2D ∨ (0x30 ≤ c ∧ c ≤ 0x39) := by simpa [isdigit] using hc c rfl
  have hws : isWs c = false := by rcases hc with rfl | hc <;> grind [isWs]
  have h0 : c ≠ 0 := by rintro rfl; grind
  have hne : r ≠ c :: tok ++ r := fun h => by
    have := congrArg List.length h
    simp only [List.length_append, List.length_cons] at this
    omega
  rw [decodeOne, if_neg (depth_le hl), skipwhite_append hw, List.cons_append, skipwhite_cons hws]
  rw [List.cons_append] at hs hne
  simp only [if_neg h0, if_pos hc, hs, if_neg hne]

theorem decodeIdent_render (c : UInt8) (rest : Bytes) (x : Janet) (r : Bytes) :
    decodeIdent (c :: (rest ++ r)) rest x = .ok (x, r) := by
  have h : expectRest rest (rest ++ r) = .ok r := by
    induction rest with
    | nil => rfl
    | cons b rest ih => simpa [expectRest, deref, bind, Except.bind] using ih
  simp [decodeIdent, h]

theorem stops_isWs_renderComma (comma : Bool) {b : UInt8} (hb : isWs b = false) (r : Bytes) :
    Stops isWs (renderComma comma (b :: r)) := by
  cases comma
  · exact stops_cons.2 hb
  · exact stops_cons.2 (by decide)

/-- The elements without the white space before them. -/
def trimElements : Elements → Bytes → Bytes
  | .last _ t w₂ comma, r => t.render (w₂ ++ renderComma comma r)
  | .cons _ t w₂ es, r => t.render (w₂ ++ 0x2C :: es.render r)

/-- The members without the white space before them. -/
def trimMembers : Members → Bytes → Bytes
  | .last _ name w₂ w₃ t w₄ comma, r =>
    0x22 :: renderItems name (0x22 :: (w₂ ++ 0x3A :: (w₃ ++ t.render (w₄ ++ renderComma comma r))))
  | .cons _ name w₂ w₃ t w₄ ms, r =>
    0x22 :: renderItems name (0x22 :: (w₂ ++ 0x3A :: (w₃ ++ t.render (w₄ ++ 0x2C :: ms.render r))))

theorem render_eq_trimElements {es : Elements} (h : es.In lenient) (r : Bytes) :
    ∃ w, Ws w ∧ es.render r = w ++ trimElements es r ∧ Stops isWs (trimElements es r) := by
  cases es with
  | last w₁ t w₂ comma =>
    exact ⟨w₁, h.1, rfl, stops_isWs_render (h.2.1.mono lenient_le_loose) _⟩
  | cons w₁ t w₂ es => exact ⟨w₁, h.1, rfl, stops_isWs_render (h.2.1.mono lenient_le_loose) _⟩

theorem render_eq_trimMembers {ms : Members} (h : ms.In lenient) (r : Bytes) :
    ∃ w, Ws w ∧ ms.render r = w ++ trimMembers ms r ∧ Stops isWs (trimMembers ms r) := by
  cases ms with
  | last w₁ => exact ⟨w₁, h.1, rfl, stops_cons.2 (by decide)⟩
  | cons w₁ => exact ⟨w₁, h.1, rfl, stops_cons.2 (by decide)⟩

/-- One turn of the loop over the elements, up to the element. -/
theorem decodeElements_step {p : Bytes} {c : UInt8} {cs : Bytes} (hp : p = c :: cs) (hc : c ≠ 0x5D)
    {depth : ℕ} {x : Janet} {q : Bytes} (h : decodeOne rt fuel p (depth + 1) = .ok (x, q))
    {c' : UInt8} {cs' : Bytes} (hq : skipwhite q = c' :: cs') (acc : List Janet) :
    decodeElements rt (fuel + 1) p depth acc =
      if c' = 0x5D then .ok (.array (acc ++ [x]), cs')
      else if c' ≠ 0x2C then .error (.error "expected comma", c' :: cs')
      else decodeElements rt fuel cs' depth (acc ++ [x]) := by
  subst hp
  rw [decodeElements, if_neg hc]
  simp only [h, hq]

theorem exists_cons_value {t : Tree} (hw : Ws w) (ht : t.In loose) (q : Bytes) :
    ∃ c cs, w ++ t.render q = c :: cs ∧ c ≠ 0x5D := by
  cases w with
  | nil =>
    obtain ⟨c, cs, hp, -, hc, -⟩ := exists_render_cons ht q
    exact ⟨c, cs, hp, hc⟩
  | cons c w =>
    have := hw c List.mem_cons_self
    exact ⟨c, _, rfl, by rintro rfl; cases this⟩

/-- The key put in the table. -/
theorem key_eq (hl : l ≤ rt.recursionGuard) (name : List Item) :
    (if (decodeFlags keywords nils + l) &&& jsonKeywordKey ≠ 0 then
      toKeyword (.string ((stringValue name).getD [])) else .string ((stringValue name).getD [])) =
      nameKey keywords name := by
  have hg := rt.guard_lt
  have hf : (decodeFlags keywords nils + l) &&& jsonKeywordKey ≠ 0 ↔ keywords = true :=
    keywordKey_iff (by omega)
  simp only [hf]
  cases keywords <;> rfl

/-- One turn of the loop over the members, up to the member. -/
theorem decodeMembers_step {w₂ p : Bytes} {name : List Item} (hw : Ws w) (hn : IsString name)
    (hw₂ : Ws w₂) (hl : l + 1 ≤ rt.recursionGuard) {x : Janet} {q : Bytes}
    (h : decodeOne rt (fuel + 1) p (decodeFlags keywords nils + l + 1) = .ok (x, q))
    {c' : UInt8} {cs' : Bytes} (hq : skipwhite q = c' :: cs') (table : Slots) :
    decodeMembers rt (fuel + 2) (w ++ 0x22 :: renderItems name (0x22 :: (w₂ ++ 0x3A :: p)))
        (decodeFlags keywords nils + l) table =
      let table := rt.tablePut table (nameKey keywords name) x
      if c' = 0x7D then .ok (.table table, cs')
      else if c' ≠ 0x2C then .error (.error "expected comma", c' :: cs')
      else decodeMembers rt (fuel + 1) cs' (decodeFlags keywords nils + l) table := by
  have hs : decodeOne rt (fuel + 1) (0x22 :: renderItems name (0x22 :: (w₂ ++ 0x3A :: p)))
      (decodeFlags keywords nils + l + 1) = _ := decodeOne_string (l := l + 1) hn ws_nil hl _
  obtain ⟨c, cs, hp, hc⟩ : ∃ c cs, w ++ 0x22 :: renderItems name (0x22 :: (w₂ ++ 0x3A :: p)) =
      c :: cs ∧ c ≠ 0x7D := by
    cases w with
    | nil => exact ⟨_, _, rfl, by decide⟩
    | cons c w =>
      have := hw c List.mem_cons_self
      exact ⟨c, _, rfl, by rintro rfl; cases this⟩
  rw [hp, decodeMembers, if_neg hc, ← hp, skipwhite_append hw, skipwhite_cons (by decide)]
  simp only [hs, skipwhite_append hw₂, skipwhite_cons (show isWs 0x3A = false by decide), h, hq,
    key_eq (l := l) (Nat.le_of_succ_le hl) name, ne_eq, not_true_eq_false, if_false]

mutual

/-- The decoder reads a lenient text to its end, as its value. -/
theorem decodeOne_render : ∀ {t : Tree} {l fuel : ℕ} {w r : Bytes}, t.In lenient → Ws w →
    Stops isNumberByte r → l + t.height ≤ rt.recursionGuard → 2 * (t.render r).length ≤ fuel →
    decodeOne rt fuel (w ++ t.render r) (decodeFlags keywords nils + l) =
      .ok (treeValue rt keywords nils t, r)
  | t, l, 0, w, r, ht, hw, hr, hl, hf => by
    -- No text is empty, so there is at least one step.
    obtain ⟨c, p, hp, -⟩ := exists_render_cons (ht.mono lenient_le_loose) r
    rw [hp] at hf
    simp at hf
  | .null, l, fuel + 1, w, r, ht, hw, hr, hl, hf => by
    have hl : l ≤ rt.recursionGuard := hl
    have hg := rt.guard_lt
    have hn : (decodeFlags keywords nils + l) &&& jsonNullToNil ≠ 0 ↔ nils = true :=
      nullToNil_iff (by omega)
    rw [decodeOne, if_neg (depth_le hl), skipwhite_append hw, Tree.render,
      skipwhite_cons (by decide)]
    simp only [hn]
    exact decodeIdent_render _ (ascii ['u', 'l', 'l']) _ r
  | .true_, l, fuel + 1, w, r, ht, hw, hr, hl, hf => by
    have hl : l ≤ rt.recursionGuard := hl
    rw [decodeOne, if_neg (depth_le hl), skipwhite_append hw, Tree.render,
      skipwhite_cons (by decide)]
    exact decodeIdent_render _ (ascii ['r', 'u', 'e']) _ r
  | .false_, l, fuel + 1, w, r, ht, hw, hr, hl, hf => by
    have hl : l ≤ rt.recursionGuard := hl
    rw [decodeOne, if_neg (depth_le hl), skipwhite_append hw, Tree.render,
      skipwhite_cons (by decide)]
    exact decodeIdent_render _ (ascii ['a', 'l', 's', 'e']) _ r
  | .number tok, l, fuel + 1, w, r, ht, hw, hr, hl, hf => decodeOne_number ht hw hr hl
  | .string is, l, fuel + 1, w, r, ht, hw, hr, hl, hf => decodeOne_string ht hw hl r
  | .emptyArray w', l, fuel + 2, w, r, ht, hw, hr, hl, hf => by
    have hl : l ≤ rt.recursionGuard := hl
    rw [decodeOne, if_neg (depth_le hl), skipwhite_append hw, Tree.render,
      skipwhite_cons (by decide)]
    show decodeElements rt (fuel + 1) (skipwhite _) _ _ = _
    rw [skipwhite_append ht, skipwhite_cons (by decide)]
    rfl
  | .emptyObject w', l, fuel + 2, w, r, ht, hw, hr, hl, hf => by
    have hl : l ≤ rt.recursionGuard := hl
    rw [decodeOne, if_neg (depth_le hl), skipwhite_append hw, Tree.render,
      skipwhite_cons (by decide)]
    show decodeMembers rt (fuel + 1) (skipwhite _) _ _ = _
    rw [skipwhite_append ht, skipwhite_cons (by decide)]
    rfl
  | .array es, l, fuel + 1, w, r, ht, hw, hr, hl, hf => by
    have hl : l + (es.height + 1) ≤ rt.recursionGuard := hl
    rw [decodeOne, if_neg (depth_le (by omega)), skipwhite_append hw, Tree.render,
      skipwhite_cons (by decide)]
    show decodeElements rt fuel (skipwhite _) _ _ = _
    -- The white space before the first element is skipped here, not by the loop.
    obtain ⟨w', hw', he, hs⟩ := render_eq_trimElements ht (0x5D :: r)
    have hlen := congrArg List.length he
    rw [Tree.render, List.length_cons] at hf
    rw [List.length_append] at hlen
    rw [he, skipwhite_append hw', skipwhite_stop hs]
    exact (decodeElements_render (w := []) ht ws_nil (by omega) (by omega)).trans
      (by rw [List.nil_append]; rfl)
  | .object ms, l, fuel + 1, w, r, ht, hw, hr, hl, hf => by
    have hl : l + (ms.height + 1) ≤ rt.recursionGuard := hl
    rw [decodeOne, if_neg (depth_le (by omega)), skipwhite_append hw, Tree.render,
      skipwhite_cons (by decide)]
    show decodeMembers rt fuel (skipwhite _) _ _ = _
    -- So is that before the first member.
    obtain ⟨w', hw', he, hs⟩ := render_eq_trimMembers ht (0x7D :: r)
    have hlen := congrArg List.length he
    rw [Tree.render, List.length_cons] at hf
    rw [List.length_append] at hlen
    rw [he, skipwhite_append hw', skipwhite_stop hs]
    exact decodeMembers_render (w := []) ht ws_nil (by omega) (by omega)
  | .emptyArray w', l, 1, w, r, ht, hw, hr, hl, hf => by
    simp only [Tree.render, List.length_cons] at hf
    omega
  | .emptyObject w', l, 1, w, r, ht, hw, hr, hl, hf => by
    simp only [Tree.render, List.length_cons] at hf
    omega

theorem decodeElements_render : ∀ {es : Elements} {l fuel : ℕ} {w r : Bytes} {acc : List Janet},
    es.In lenient → Ws w → l + 1 + es.height ≤ rt.recursionGuard →
    2 * (trimElements es (0x5D :: r)).length + 1 ≤ fuel →
    decodeElements rt fuel (w ++ trimElements es (0x5D :: r)) (decodeFlags keywords nils + l) acc =
      .ok (.array (acc ++ elementValues rt keywords nils es), r)
  | es, l, 0, w, r, acc, hes, hw, hl, hf => by omega
  | .last _ t w₂ comma, l, fuel + 1, w, r, acc, ⟨_, ht, hw₂, _⟩, hw, hl, hf => by
    obtain ⟨c, cs, hp, hc⟩ := exists_cons_value hw (ht.mono lenient_le_loose)
      (w₂ ++ renderComma comma (0x5D :: r))
    rw [trimElements] at hf ⊢
    have hone : decodeOne rt fuel _ (decodeFlags keywords nils + l + 1) = _ :=
      decodeOne_render (l := l + 1) ht hw
        (stops_render_comma hw₂ (c := 0x5D) (by decide) comma r) hl (by omega)
    have hlen := (t.suffix_render (w₂ ++ renderComma comma (0x5D :: r))).length_le
    have hq : skipwhite (w₂ ++ renderComma comma (0x5D :: r)) = renderComma comma (0x5D :: r) := by
      rw [skipwhite_append hw₂, skipwhite_stop (stops_isWs_renderComma comma (by decide) r)]
    cases comma with
    | false => rw [decodeElements_step hp hc hone hq, if_pos rfl, elementValues]
    | true =>
      -- A comma after the last element: the loop finds the bracket at its next turn.
      rw [decodeElements_step hp hc hone hq, if_neg (by decide), if_neg (by decide)]
      obtain ⟨fuel, rfl⟩ : ∃ f, fuel = f + 1 :=
        ⟨fuel - 1, by
          simp only [renderComma, if_true, List.length_append, List.length_cons] at hf hlen
          omega⟩
      rfl
  | .cons _ t w₂ es, l, fuel + 1, w, r, acc, ⟨_, ht, hw₂, hes⟩, hw, hl, hf => by
    have hl : l + 1 + max t.height es.height ≤ rt.recursionGuard := hl
    obtain ⟨c, cs, hp, hc⟩ := exists_cons_value hw (ht.mono lenient_le_loose)
      (w₂ ++ 0x2C :: es.render (0x5D :: r))
    rw [trimElements] at hf ⊢
    have hone : decodeOne rt fuel _ (decodeFlags keywords nils + l + 1) = _ :=
      decodeOne_render (l := l + 1) ht hw (stops_comma hw₂ (es.render (0x5D :: r)))
        (by omega) (by omega)
    have hlen := (t.suffix_render (w₂ ++ 0x2C :: es.render (0x5D :: r))).length_le
    have hq : skipwhite (w₂ ++ 0x2C :: es.render (0x5D :: r)) = 0x2C :: es.render (0x5D :: r) := by
      rw [skipwhite_append hw₂, skipwhite_cons (by decide)]
    obtain ⟨w', hw', he, -⟩ := render_eq_trimElements hes (0x5D :: r)
    -- The steps left are enough for what is left of the text.
    have hlen' := congrArg List.length he
    rw [List.length_append, List.length_cons] at hlen
    rw [List.length_append] at hlen'
    rw [decodeElements_step hp hc hone hq, if_neg (by decide), if_neg (by decide), he,
      decodeElements_render hes hw' (by omega) (by omega), List.append_assoc]
    rfl

theorem decodeMembers_render : ∀ {ms : Members} {l fuel : ℕ} {w r : Bytes} {table : Slots},
    ms.In lenient → Ws w → l + 1 + ms.height ≤ rt.recursionGuard →
    2 * (trimMembers ms (0x7D :: r)).length + 1 ≤ fuel →
    decodeMembers rt fuel (w ++ trimMembers ms (0x7D :: r)) (decodeFlags keywords nils + l) table =
      .ok (.table (memberSlots rt keywords nils ms table), r)
  | ms, l, 0, w, r, table, hms, hw, hl, hf => by omega
  | .last _ name w₂ w₃ t w₄ comma, l, fuel + 1, w, r, table, ⟨_, hn, hw₂, hw₃, ht, hw₄, _⟩, hw, hl,
      hf => by
    have hl : l + 1 + t.height ≤ rt.recursionGuard := hl
    have hlen := (t.suffix_render (w₄ ++ renderComma comma (0x7D :: r))).length_le
    have hlen' := length_le_renderItems name
      (0x22 :: (w₂ ++ 0x3A :: (w₃ ++ t.render (w₄ ++ renderComma comma (0x7D :: r)))))
    rw [trimMembers] at hf ⊢
    simp only [List.length_cons, List.length_append] at hf hlen hlen'
    obtain ⟨fuel, rfl⟩ : ∃ f, fuel = f + 1 := ⟨fuel - 1, by omega⟩
    have hone : decodeOne rt (fuel + 1) _ (decodeFlags keywords nils + l + 1) = _ :=
      decodeOne_render (l := l + 1) ht hw₃
        (stops_render_comma hw₄ (c := 0x7D) (by decide) comma r) hl (by omega)
    have hq : skipwhite (w₄ ++ renderComma comma (0x7D :: r)) = renderComma comma (0x7D :: r) := by
      rw [skipwhite_append hw₄, skipwhite_stop (stops_isWs_renderComma comma (by decide) r)]
    cases comma with
    | false =>
      rw [decodeMembers_step hw hn hw₂ (by omega) hone hq]
      rfl
    | true =>
      rw [decodeMembers_step hw hn hw₂ (by omega) hone hq]
      rfl
  | .cons _ name w₂ w₃ t w₄ ms, l, fuel + 1, w, r, table, ⟨_, hn, hw₂, hw₃, ht, hw₄, hms⟩, hw, hl,
      hf => by
    have hl : l + 1 + max t.height ms.height ≤ rt.recursionGuard := hl
    have hlen := (t.suffix_render (w₄ ++ 0x2C :: ms.render (0x7D :: r))).length_le
    have hlen' := length_le_renderItems name
      (0x22 :: (w₂ ++ 0x3A :: (w₃ ++ t.render (w₄ ++ 0x2C :: ms.render (0x7D :: r)))))
    rw [trimMembers] at hf ⊢
    simp only [List.length_cons, List.length_append] at hf hlen hlen'
    obtain ⟨fuel, rfl⟩ : ∃ f, fuel = f + 1 := ⟨fuel - 1, by omega⟩
    -- The value; the key is read by `decodeMembers_step`.
    have hone : decodeOne rt (fuel + 1) _ (decodeFlags keywords nils + l + 1) = _ :=
      decodeOne_render (l := l + 1) ht hw₃ (stops_comma hw₄ (ms.render (0x7D :: r)))
        (by omega) (by omega)
    have hq : skipwhite (w₄ ++ 0x2C :: ms.render (0x7D :: r)) = 0x2C :: ms.render (0x7D :: r) := by
      rw [skipwhite_append hw₄, skipwhite_cons (by decide)]
    obtain ⟨w', hw', he, -⟩ := render_eq_trimMembers hms (0x7D :: r)
    have hlen'' := congrArg List.length he
    rw [List.length_append] at hlen''
    rw [decodeMembers_step hw hn hw₂ (by omega) hone hq, if_neg (by decide), if_neg (by decide), he,
      decodeMembers_render hms hw' (by omega) (by omega)]
    rfl

end

end Render

/-! ## What is read is a text -/

section Sound

variable {rt : Runtime} {keywords nils : Bool} {l fuel : ℕ} {p r : Bytes} {v : Janet}

/-- A pointer moved to a character that continues no number was not within a number. -/
theorem stops_of_skipwhite {c : UInt8} {cs : Bytes} (h : skipwhite p = c :: cs)
    (hc : isNumberByte c = false) : Stops isNumberByte p := by
  obtain ⟨w, hw, hp⟩ := exists_skipwhite p
  rw [hp, h]
  exact hw.stops_append (stops_cons.2 hc)

theorem expectRest_sound {rest : Bytes} (h : expectRest rest p = .ok r) : p = rest ++ r := by
  induction rest generalizing p with
  | nil => cases h; rfl
  | cons b rest ih =>
    cases p with
    | nil => cases h
    | cons c p =>
      simp only [expectRest, deref, List.getElem?_cons_zero, bind, Except.bind, List.drop_succ_cons,
        List.drop_zero] at h
      split_ifs at h with hc
      rw [ih h, not_not.1 hc, List.cons_append]

theorem decodeIdent_sound {c : UInt8} {cs rest : Bytes} {x : Janet}
    (h : decodeIdent (c :: cs) rest x = .ok (v, r)) : cs = rest ++ r ∧ v = x := by
  rw [decodeIdent] at h
  cases he : expectRest rest cs with
  | error e => simp [he] at h
  | ok p' =>
    simp only [List.drop_succ_cons, List.drop_zero, he, Except.ok.injEq, Prod.mk.injEq] at h
    exact ⟨h.2 ▸ expectRest_sound he, h.1.symm⟩

/-- What `strtod` converts is a number, if what comes after does not continue it. -/
theorem strtod_sound {c : UInt8} {cs : Bytes} {x : Double} (hc : c = 0x2D ∨ (0x30 ≤ c ∧ c ≤ 0x39))
    (h : strtod (c :: cs) = (x, r)) (hne : r ≠ c :: cs) (hr : Stops isNumberByte r) :
    ∃ tok, lenient.number tok ∧ c :: cs = tok ++ r ∧ (strtod tok).1 = x := by
  obtain ⟨tok, htok⟩ : r <:+ c :: cs := by simpa [h] using strtod_suffix (c :: cs)
  cases tok with
  | nil => exact absurd htok hne
  | cons b tok =>
    obtain ⟨rfl, -⟩ := List.cons_eq_cons.1 htok
    have hs : isspace b = false := by rcases hc with rfl | hc <;> grind [isspace]
    have ha := strtod_append hr hs tok
    rw [htok, h, Prod.mk.injEq] at ha
    refine ⟨b :: tok, ⟨⟨List.cons_ne_nil _ _, ?_, ?_⟩, ?_⟩, htok.symm, ha.1.symm⟩
    · simpa using hs
    · exact List.self_eq_append_left.1 ha.2
    · simpa [isdigit] using hc

/-- A text is read at depth `l`, up to what is left of the source. -/
def Reads (rt : Runtime) (keywords nils : Bool) (l : ℕ) (p : Bytes) (v : Janet)
    (r : Bytes) : Prop :=
  ∃ w t, Ws w ∧ t.In lenient ∧ p = w ++ t.render r ∧ v = treeValue rt keywords nils t ∧
    l + t.height ≤ rt.recursionGuard

/-- More white space before the elements. -/
def padElements (w : Bytes) : Elements → Elements
  | .last w₁ t w₂ comma => .last (w ++ w₁) t w₂ comma
  | .cons w₁ t w₂ es => .cons (w ++ w₁) t w₂ es

/-- More white space before the members. -/
def padMembers (w : Bytes) : Members → Members
  | .last w₁ name w₂ w₃ t w₄ comma => .last (w ++ w₁) name w₂ w₃ t w₄ comma
  | .cons w₁ name w₂ w₃ t w₄ ms => .cons (w ++ w₁) name w₂ w₃ t w₄ ms

theorem padElements_spec (rt : Runtime) (keywords nils : Bool) {w : Bytes} (hw : Ws w)
    {es : Elements} (h : es.In lenient) (r : Bytes) :
    (padElements w es).In lenient ∧ (padElements w es).render r = w ++ es.render r ∧
      elementValues rt keywords nils (padElements w es) = elementValues rt keywords nils es ∧
      (padElements w es).height = es.height := by
  cases es with
  | last => exact ⟨⟨hw.append h.1, h.2⟩, List.append_assoc .., rfl, rfl⟩
  | cons => exact ⟨⟨hw.append h.1, h.2⟩, List.append_assoc .., rfl, rfl⟩

theorem padMembers_spec (rt : Runtime) (keywords nils : Bool) {w : Bytes} (hw : Ws w)
    {ms : Members} (h : ms.In lenient) (r : Bytes) (table : Slots) :
    (padMembers w ms).In lenient ∧ (padMembers w ms).render r = w ++ ms.render r ∧
      memberSlots rt keywords nils (padMembers w ms) table = memberSlots rt keywords nils ms table ∧
      (padMembers w ms).height = ms.height := by
  cases ms with
  | last => exact ⟨⟨hw.append h.1, h.2⟩, List.append_assoc .., rfl, rfl⟩
  | cons => exact ⟨⟨hw.append h.1, h.2⟩, List.append_assoc .., rfl, rfl⟩

/-- What the loop over the elements reads: nothing, or elements. -/
def ReadsElements (rt : Runtime) (keywords nils : Bool) (l : ℕ) (p : Bytes) (acc : List Janet)
    (v : Janet) (r : Bytes) : Prop :=
  p = 0x5D :: r ∧ v = .array acc ∨
    ∃ es, es.In lenient ∧ p = es.render (0x5D :: r) ∧
      v = .array (acc ++ elementValues rt keywords nils es) ∧ l + 1 + es.height ≤ rt.recursionGuard

/-- What the loop over the members reads: nothing, or members. -/
def ReadsMembers (rt : Runtime) (keywords nils : Bool) (l : ℕ) (p : Bytes) (table : Slots)
    (v : Janet) (r : Bytes) : Prop :=
  p = 0x7D :: r ∧ v = .table table ∨
    ∃ ms, ms.In lenient ∧ p = ms.render (0x7D :: r) ∧
      v = .table (memberSlots rt keywords nils ms table) ∧ l + 1 + ms.height ≤ rt.recursionGuard

/-- The name of a member is read as a string. -/
theorem decodeOne_string_sound {depth : ℕ} {cs : Bytes}
    (h : decodeOne rt fuel (0x22 :: cs) depth = .ok (v, r)) :
    ∃ name, cs = renderItems name (0x22 :: r) ∧ IsString name ∧
      v = .string ((stringValue name).getD []) := by
  cases fuel with
  | zero => cases h
  | succ fuel =>
    rw [decodeOne] at h
    split at h
    · cases h
    rw [skipwhite_cons (by decide)] at h
    obtain ⟨is, s, hcs, his, hv, rfl⟩ :=
      decodeQuoted_sound (show decodeQuoted cs = .ok (v, r) from h)
    exact ⟨is, hcs, his, by rw [hv]; rfl⟩

/-- What a turn of the loop over the elements can do. -/
theorem decodeElements_inv {c : UInt8} {cs : Bytes} {depth : ℕ} {acc : List Janet}
    (h : decodeElements rt (fuel + 1) (c :: cs) depth acc = .ok (v, r)) :
    (c :: cs = 0x5D :: r ∧ v = .array acc) ∨
    ∃ x q, decodeOne rt fuel (c :: cs) (depth + 1) = .ok (x, q) ∧
      ((skipwhite q = 0x5D :: r ∧ v = .array (acc ++ [x])) ∨
      ∃ bs, skipwhite q = 0x2C :: bs ∧
        decodeElements rt fuel bs depth (acc ++ [x]) = .ok (v, r)) := by
  rw [decodeElements] at h
  split_ifs at h with hc
  · cases h
    exact .inl ⟨by rw [hc], rfl⟩
  cases hone : decodeOne rt fuel (c :: cs) (depth + 1) with
  | error e => rw [hone] at h; cases h
  | ok x =>
    simp only [hone] at h
    refine .inr ⟨x.1, x.2, rfl, ?_⟩
    cases hs : skipwhite x.2 with
    | nil => rw [hs] at h; cases h
    | cons b bs =>
      simp only [hs] at h
      split_ifs at h with h₁ h₂
      · cases h
        exact .inl ⟨by rw [h₁], rfl⟩
      · exact .inr ⟨bs, by rw [not_not.1 h₂], h⟩

/-- What a turn of the loop over the members can do. -/
theorem decodeMembers_inv {c : UInt8} {cs : Bytes} {table : Slots} (hl : l ≤ rt.recursionGuard)
    (h : decodeMembers rt (fuel + 1) (c :: cs) (decodeFlags keywords nils + l) table = .ok (v, r)) :
    (c :: cs = 0x7D :: r ∧ v = .table table) ∨
    ∃ w₁ name w₂ p x q, Ws w₁ ∧ IsString name ∧ Ws w₂ ∧
      c :: cs = w₁ ++ 0x22 :: renderItems name (0x22 :: (w₂ ++ 0x3A :: p)) ∧
      decodeOne rt fuel p (decodeFlags keywords nils + l + 1) = .ok (x, q) ∧
      ((skipwhite q = 0x7D :: r ∧ v = .table (rt.tablePut table (nameKey keywords name) x)) ∨
      ∃ bs, skipwhite q = 0x2C :: bs ∧ decodeMembers rt fuel bs (decodeFlags keywords nils + l)
        (rt.tablePut table (nameKey keywords name) x) = .ok (v, r)) := by
  rw [decodeMembers] at h
  by_cases hc : c = 0x7D
  · rw [if_pos hc] at h
    cases h
    exact .inl ⟨by rw [hc], rfl⟩
  rw [if_neg hc] at h
  obtain ⟨w₁, hw₁, hp⟩ := exists_skipwhite (c :: cs)
  cases hs : skipwhite (c :: cs) with
  | nil => rw [hs] at h; cases h
  | cons b bs =>
    simp only [hs] at h
    split at h
    · cases h
    rename_i hq
    cases hkey : decodeOne rt fuel (b :: bs) (decodeFlags keywords nils + l + 1) with
    | error e => rw [hkey] at h; cases h
    | ok y =>
      rw [not_not] at hq
      subst hq
      -- The key is a quoted string, whatever `decodeOne` could read elsewhere.
      obtain ⟨name, rfl, hname, hy⟩ := decodeOne_string_sound hkey
      simp only [hkey, hy, key_eq hl] at h
      obtain ⟨w₂, hw₂, hq⟩ := exists_skipwhite y.2
      cases hs' : skipwhite y.2 with
      | nil => rw [hs'] at h; cases h
      | cons b bs =>
        simp only [hs'] at h
        split at h
        · cases h
        rename_i hcolon
        rw [not_not] at hcolon
        subst hcolon
        cases hone : decodeOne rt fuel bs (decodeFlags keywords nils + l + 1) with
        | error e => rw [hone] at h; cases h
        | ok x =>
          simp only [hone] at h
          refine .inr ⟨w₁, name, w₂, bs, x.1, x.2, hw₁, hname, hw₂, ?_, hone, ?_⟩
          · rw [hp, hs, hq, hs']
          cases hs'' : skipwhite x.2 with
          | nil => rw [hs''] at h; cases h
          | cons b bs =>
            simp only [hs''] at h
            split_ifs at h with h₁ h₂
            · cases h
              exact .inl ⟨by rw [h₁], rfl⟩
            · exact .inr ⟨bs, by rw [not_not.1 h₂], h⟩

mutual

/-- What the decoder reads is a lenient text, and its value. -/
theorem decodeOne_sound : ∀ {fuel l : ℕ} {p r : Bytes} {v : Janet}, l < 0x10000 →
    decodeOne rt fuel p (decodeFlags keywords nils + l) = .ok (v, r) → Stops isNumberByte r →
    Reads rt keywords nils l p v r
  | 0, l, p, r, v, _, h, _ => by cases h
  | fuel + 1, l, p, r, v, hl, h, hr => by
    obtain ⟨w, hw, hp⟩ := exists_skipwhite p
    have hnull : (if (decodeFlags keywords nils + l) &&& jsonNullToNil ≠ 0 then Janet.nil
        else nullKeyword) = treeValue rt keywords nils .null := by
      simp only [nullToNil_iff hl, treeValue]
    rw [decodeOne, depth_bits hl, hnull] at h
    split_ifs at h with hg
    have hg : l ≤ rt.recursionGuard := Nat.not_lt.1 hg
    -- The first byte says which text it is.
    cases hs : skipwhite p with
    | nil => rw [hs] at h; cases h
    | cons c cs =>
      rw [hs] at hp
      simp only [hs] at h
      split_ifs at h with h0 hnum hne hf hn ht hq ha ho
      · rw [Except.ok.injEq, Prod.mk.injEq] at h
        obtain ⟨rfl, rfl⟩ := h
        obtain ⟨tok, htok, hcs, hx⟩ := strtod_sound hnum (Prod.eta _).symm hne hr
        exact ⟨w, .number tok, hw, htok, by rw [hp, Tree.render, ← hcs], by rw [treeValue, hx], hg⟩
      · obtain ⟨rfl, rfl⟩ := decodeIdent_sound h
        exact ⟨w, .false_, hw, trivial, by rw [hp, hf]; rfl, rfl, hg⟩
      · obtain ⟨rfl, rfl⟩ := decodeIdent_sound h
        exact ⟨w, .null, hw, trivial, by rw [hp, hn]; rfl, rfl, hg⟩
      · obtain ⟨rfl, rfl⟩ := decodeIdent_sound h
        exact ⟨w, .true_, hw, trivial, by rw [hp, ht]; rfl, rfl, hg⟩
      · obtain ⟨is, s, rfl, his, hv, rfl⟩ := decodeQuoted_sound h
        exact ⟨w, .string is, hw, his, by rw [hp, hq]; rfl, by rw [treeValue, hv]; rfl, hg⟩
      · -- The white space behind the bracket belongs to the first element.
        obtain ⟨w', hw', hcs⟩ := exists_skipwhite cs
        rcases decodeElements_sound hg h with ⟨he, rfl⟩ | ⟨es, hes, he, rfl, hh⟩
        · exact ⟨w, .emptyArray w', hw, hw', by rw [hp, ha, hcs, he]; rfl, rfl, hg⟩
        · obtain ⟨h₁, h₂, h₃, h₄⟩ :=
            padElements_spec rt keywords nils hw' hes (0x5D :: r)
          refine ⟨w, .array (padElements w' es), hw, h₁, ?_, ?_, ?_⟩
          · rw [hp, ha, hcs, he, Tree.render, h₂]
          · rw [treeValue, h₃, List.nil_append]
          · rw [show (Tree.array (padElements w' es)).height =
              (padElements w' es).height + 1 from rfl, h₄]
            omega
      · obtain ⟨w', hw', hcs⟩ := exists_skipwhite cs
        rcases decodeMembers_sound hg h with ⟨he, rfl⟩ | ⟨ms, hms, he, rfl, hh⟩
        · exact ⟨w, .emptyObject w', hw, hw', by rw [hp, ho, hcs, he]; rfl, rfl, hg⟩
        · obtain ⟨h₁, h₂, h₃, h₄⟩ :=
            padMembers_spec rt keywords nils hw' hms (0x7D :: r) rt.table
          refine ⟨w, .object (padMembers w' ms), hw, h₁, ?_, ?_, ?_⟩
          · rw [hp, ho, hcs, he, Tree.render, h₂]
          · rw [treeValue, h₃]
          · rw [show (Tree.object (padMembers w' ms)).height =
              (padMembers w' ms).height + 1 from rfl, h₄]
            omega

theorem decodeElements_sound : ∀ {fuel l : ℕ} {p r : Bytes} {acc : List Janet} {v : Janet},
    l ≤ rt.recursionGuard →
    decodeElements rt fuel p (decodeFlags keywords nils + l) acc = .ok (v, r) →
    ReadsElements rt keywords nils l p acc v r
  | 0, l, p, r, acc, v, _, h => by cases h
  | fuel + 1, l, [], r, acc, v, _, h => by cases h
  | fuel + 1, l, c :: cs, r, acc, v, hl, h => by
    have hg := rt.guard_lt
    rcases decodeElements_inv h with hend | ⟨x, q, hone, hq⟩
    · exact .inl hend
    obtain ⟨w₂, hw₂, hq₂⟩ := exists_skipwhite q
    -- A number cannot go on where a bracket or a comma comes next.
    have hstop : Stops isNumberByte q := by
      rcases hq with ⟨hs, -⟩ | ⟨bs, hs, -⟩ <;> exact stops_of_skipwhite hs (by decide)
    obtain ⟨w₁, t, hw₁, ht, hp, rfl, hh⟩ := decodeOne_sound (l := l + 1) (by omega) hone hstop
    rw [hp]
    rcases hq with ⟨hs, rfl⟩ | ⟨bs, hs, hrec⟩
    · refine .inr ⟨.last w₁ t w₂ false, ⟨hw₁, ht, hw₂, trivial⟩, ?_, rfl, hh⟩
      rw [hq₂, hs]
      rfl
    rw [hs] at hq₂
    subst hq₂
    rcases decodeElements_sound hl hrec with ⟨rfl, rfl⟩ | ⟨es, hes, rfl, rfl, hh'⟩
    · -- A comma before the closing bracket.
      exact .inr ⟨.last w₁ t w₂ true, ⟨hw₁, ht, hw₂, trivial⟩, rfl, rfl, hh⟩
    · refine .inr ⟨.cons w₁ t w₂ es, ⟨hw₁, ht, hw₂, hes⟩, rfl, by rw [List.append_assoc]; rfl, ?_⟩
      show l + 1 + max t.height es.height ≤ _
      omega

theorem decodeMembers_sound : ∀ {fuel l : ℕ} {p r : Bytes} {table : Slots} {v : Janet},
    l ≤ rt.recursionGuard →
    decodeMembers rt fuel p (decodeFlags keywords nils + l) table = .ok (v, r) →
    ReadsMembers rt keywords nils l p table v r
  | 0, l, p, r, table, v, _, h => by cases h
  | fuel + 1, l, [], r, table, v, _, h => by cases h
  | fuel + 1, l, c :: cs, r, table, v, hl, h => by
    have hg := rt.guard_lt
    rcases decodeMembers_inv hl h with hend | ⟨w₁, name, w₂, p, x, q, hw₁, hn, hw₂, hp, hone, hq⟩
    · exact .inl hend
    obtain ⟨w₄, hw₄, hq₄⟩ := exists_skipwhite q
    have hstop : Stops isNumberByte q := by
      rcases hq with ⟨hs, -⟩ | ⟨bs, hs, -⟩ <;> exact stops_of_skipwhite hs (by decide)
    obtain ⟨w₃, t, hw₃, ht, rfl, rfl, hh⟩ := decodeOne_sound (l := l + 1) (by omega) hone hstop
    rw [hp]
    rcases hq with ⟨hs, rfl⟩ | ⟨bs, hs, hrec⟩
    · refine .inr ⟨.last w₁ name w₂ w₃ t w₄ false, ⟨hw₁, hn, hw₂, hw₃, ht, hw₄, trivial⟩,
        ?_, rfl, hh⟩
      rw [hq₄, hs]
      rfl
    rw [hs] at hq₄
    subst hq₄
    rcases decodeMembers_sound hl hrec with ⟨rfl, rfl⟩ | ⟨ms, hms, rfl, rfl, hh'⟩
    · -- A comma before the closing brace.
      exact .inr ⟨.last w₁ name w₂ w₃ t w₄ true, ⟨hw₁, hn, hw₂, hw₃, ht, hw₄, trivial⟩,
        rfl, rfl, hh⟩
    · refine .inr ⟨.cons w₁ name w₂ w₃ t w₄ ms, ⟨hw₁, hn, hw₂, hw₃, ht, hw₄, hms⟩, rfl, rfl, ?_⟩
      show l + 1 + max t.height ms.height ≤ _
      omega

end

end Sound

/-! ## `json/decode` -/

/-- The source `s` reads as the tree `t`, up to a zero byte: the one after the
    source, or one within it, and then `rest` is left. -/
def ReadsAs (s : Bytes) (t : Tree) (rest : Bytes) : Prop :=
  ∃ w w', Ws w ∧ Ws w' ∧ s ++ [0] = w ++ t.render (w' ++ 0 :: rest)

theorem stops_zero {w : Bytes} (hw : Ws w) (rest : Bytes) : Stops isNumberByte (w ++ 0 :: rest) :=
  hw.stops_append (stops_cons.2 (by decide))

/-- A source reads in one way. -/
theorem ReadsAs.unique {s rest₁ rest₂ : Bytes} {t₁ t₂ : Tree} (h₁ : ReadsAs s t₁ rest₁)
    (h₂ : ReadsAs s t₂ rest₂) (ht₁ : t₁.In loose) (ht₂ : t₂.In loose) :
    t₁ = t₂ ∧ rest₁ = rest₂ := by
  obtain ⟨w₁, w₁', hw₁, hw₁', e₁⟩ := h₁
  obtain ⟨w₂, w₂', hw₂, hw₂', e₂⟩ := h₂
  obtain ⟨-, h⟩ := split_value hw₁ hw₂ ht₁ ht₂ (e₁.symm.trans e₂)
  obtain ⟨ht, hr⟩ := Tree.unique ht₁ ht₂ (stops_zero hw₁' _) (stops_zero hw₂' _) h
  obtain ⟨-, hr⟩ := ws_unique hw₁' hw₂' (stops_cons.2 (by decide)) (stops_cons.2 (by decide)) hr
  exact ⟨ht, (List.cons_eq_cons.1 hr).2⟩

/-- Nothing is left if the source has no zero byte. -/
theorem ReadsAs.rest_eq_nil {s rest : Bytes} {t : Tree} (h : ReadsAs s t rest) (h0 : 0 ∉ s) :
    rest = [] := by
  obtain ⟨w, w', -, -, e⟩ := h
  obtain ⟨q, hq⟩ := Tree.suffix_render t (w' ++ 0 :: rest)
  rw [← hq] at e
  rcases List.eq_nil_or_concat rest with rfl | ⟨rest, b, rfl⟩
  · rfl
  · have hs : s = w ++ (q ++ (w' ++ 0 :: rest)) := by
      have e : s ++ [0] = (w ++ (q ++ (w' ++ 0 :: rest))) ++ [b] := by rw [e]; simp
      exact (List.append_inj' e rfl).1
    exact absurd (by simp [hs]) h0

variable {rt : Runtime} {keywords nils : Bool}

/-- What `json/decode` accepts: the lenient texts up to a zero byte. -/
theorem jsonDecode_iff {s : Bytes} {v : Janet} : jsonDecode rt s keywords nils = .ok v ↔
    ∃ t rest, t.In lenient ∧ t.height ≤ rt.recursionGuard ∧ ReadsAs s t rest ∧
      v = treeValue rt keywords nils t := by
  rw [jsonDecode]
  constructor
  · intro h
    simp only at h
    cases hone :
      decodeOne rt (2 * (s ++ [0]).length + 1) (s ++ [0]) (decodeFlags keywords nils) with
    | error e => rw [hone] at h; cases h
    | ok x =>
      obtain ⟨x, p⟩ := x
      simp only [hone] at h
      cases hs : skipwhite p with
      | nil => rw [hs] at h; cases h
      | cons c cs =>
        simp only [hs] at h
        split_ifs at h with hc
        cases h
        rw [not_not] at hc
        subst hc
        -- Only white space is left before the zero byte.
        obtain ⟨w', hw', hp⟩ := exists_skipwhite p
        obtain ⟨w, t, hw, ht, he, hx, hh⟩ :=
          decodeOne_sound (l := 0) (by decide) hone (stops_of_skipwhite hs (by decide))
        exact ⟨t, cs, ht, by omega, ⟨w, w', hw, hw', by rw [he, hp, hs]⟩, hx⟩
  · rintro ⟨t, rest, ht, hh, ⟨w, w', hw, hw', he⟩, rfl⟩
    -- Two steps for every byte of the source are enough.
    have hlen : (t.render (w' ++ 0 :: rest)).length ≤ (s ++ [0]).length := by
      rw [he, List.length_append]
      omega
    have hone : decodeOne rt (2 * (s ++ [0]).length + 1) (s ++ [0]) (decodeFlags keywords nils) =
        .ok (treeValue rt keywords nils t, w' ++ 0 :: rest) := by
      rw [he]
      exact decodeOne_render (l := 0) ht hw (stops_zero hw' rest) (by omega)
        (by rw [← he]; omega)
    simp only [hone, skipwhite_append hw', skipwhite_cons (show isWs 0 = false by decide), ne_eq,
      not_true_eq_false, if_false]

end PunyGui
