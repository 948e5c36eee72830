import PunyGui.Json.Decode.Grammar
import PunyGui.Json.Encode.Text

/-!
# Decoding what was encoded

The encoder and the decoder together, without a format.

* `jsonDecode_textOf`: when the decoder accepts what the encoder wrote, and with
  what value.
* `reread_eq_content_iff`: the value read back has the content of the one that
  was written exactly if each of its parts has.
-/

namespace PunyGui

open Binary64 Text Libc JsonText

/-! ## The dialect of a written text -/

/-- A part of a value written in the dialect `D`. -/
def WrittenIn (D : Dialect) : Janet → Prop
  | .number x => D.number (formatG17 x)
  | .string s | .symbol s | .keyword s | .buffer s => D.string (stringItems s)
  | _ => True

theorem WrittenIn.mono {D E : Dialect} (h : D.Le E) : ∀ y : Janet, WrittenIn D y → WrittenIn E y
  | .number _, hy => h.number _ hy
  | .string _, hy | .symbol _, hy | .keyword _, hy | .buffer _, hy => h.string _ hy
  | .nil, _ | .boolean _, _ | .array _, _ | .tuple _, _ | .table _, _ | .struct _, _
  | .function _, _ | .cfunction _, _ | .fiber _, _ | .abstract _, _ | .pointer _, _ => trivial

section WrittenIn

variable {D : Dialect} {tab newline : Bytes}

theorem ws_newlineBytes (ht : Ws tab) (hn : Ws newline) (i : ℕ) :
    Ws (Encoder.newlineBytes tab newline i) := by
  rw [Encoder.newlineBytes]
  refine hn.append ?_
  split_ifs
  · exact ws_nil
  · intro c hc
    obtain ⟨l, hl, hc⟩ := List.mem_flatten.1 hc
    rw [(List.mem_replicate.1 hl).2] at hc
    exact ht c hc

theorem ws_afterColon (tab : Bytes) : Ws (afterColon tab) := by
  rw [afterColon]
  split_ifs
  · exact ws_nil
  · simp [Ws, isWs]

/-- The string written for a key. -/
theorem writtenIn_key {k : Janet} {s : Bytes} (h : k.bytes? = some s) :
    k.Forall (WrittenIn D) ↔ D.string (stringItems s) := by
  rw [Janet.forall_of_bytes h]
  cases k <;> simp_all [Janet.bytes?, WrittenIn]

variable (ht : Ws tab) (hn : Ws newline) (hD : D.comma false)

include ht hn hD

set_option linter.unusedSectionVars false in
mutual

/-- A text is in a dialect if its numbers and strings are. -/
theorem textOf_in_iff : ∀ (x : Janet) (i : ℕ), x.Forall Writable →
    ((textOf tab newline i x).In D ↔ x.Forall (WrittenIn D))
  | .nil, _, _ => Iff.rfl
  | .boolean b, _, _ => by cases b <;> exact Iff.rfl
  | .number _, _, _ | .string _, _, _ | .symbol _, _, _ | .keyword _, _, _ | .buffer _, _, _ =>
    Iff.rfl
  | .array xs, i, h | .tuple xs, i, h => by
    have := itemsText_in_iff xs i h.2
    rw [textOf]
    cases hx : itemsText tab newline i xs with
    | none => simpa [hx, Janet.Forall, WrittenIn, Tree.In] using this
    | some es => simpa [hx, Janet.Forall, WrittenIn, Tree.In] using this
  | .table kvs, i, h | .struct kvs, i, h => by
    have := slotsText_in_iff kvs i h.1 h.2
    rw [textOf]
    cases hx : slotsText tab newline i kvs with
    | none => simpa [hx, Janet.Forall, WrittenIn, Tree.In] using this
    | some ms => simpa [hx, Janet.Forall, WrittenIn, Tree.In] using this
  | .function _, _, h | .cfunction _, _, h | .fiber _, _, h | .abstract _, _, h
  | .pointer _, _, h => h.elim

theorem itemsText_in_iff : ∀ (xs : List Janet) (i : ℕ), Janet.ForallItems Writable xs →
    ((∀ es ∈ itemsText tab newline i xs, es.In D) ↔ Janet.ForallItems (WrittenIn D) xs)
  | [], _, _ => by simp [itemsText, Janet.ForallItems]
  | x :: xs, i, ⟨hx, hxs⟩ => by
    have h₁ := textOf_in_iff x (i + 1) hx
    have h₂ := itemsText_in_iff xs i hxs
    rw [itemsText]
    cases hes : itemsText tab newline i xs with
    | none =>
      simp only [hes, Option.mem_def, reduceCtorEq, false_implies, implies_true, true_iff] at h₂
      simp [Elements.In, Janet.ForallItems, h₁, h₂, hD, ws_newlineBytes ht hn]
    | some es =>
      simp only [hes, Option.mem_def, Option.some.injEq, forall_eq'] at h₂
      simp [Elements.In, Janet.ForallItems, h₁, h₂, ws_newlineBytes ht hn]

theorem slotsText_in_iff : ∀ (kvs : List (Janet × Janet)) (i : ℕ),
    (∀ kv ∈ entries kvs, kv.1.bytes?.isSome) → Janet.ForallSlots Writable kvs →
    ((∀ ms ∈ slotsText tab newline i kvs, ms.In D) ↔ Janet.ForallSlots (WrittenIn D) kvs)
  | [], _, _, _ => by simp [slotsText, Janet.ForallSlots]
  | (k, v) :: kvs, i, hk, ⟨hkv, hkvs⟩ => by
    cases hnil : k.isNil with
    | true =>
      have h₂ := slotsText_in_iff kvs i (by simpa [entries, hnil] using hk) hkvs
      simpa [slotsText, Janet.ForallSlots, hnil] using h₂
    | false =>
      obtain ⟨hk₁, hk₂⟩ : k.bytes?.isSome ∧ ∀ kv ∈ entries kvs, kv.1.bytes?.isSome := by
        simpa [entries, hnil] using hk
      obtain ⟨s, hs⟩ := Option.isSome_iff_exists.1 hk₁
      have h₁ := textOf_in_iff v (i + 1) (hkv hnil).2
      have h₂ := slotsText_in_iff kvs i hk₂ hkvs
      have h₃ := writtenIn_key (D := D) hs
      -- Whether there are members after this one decides only about a comma.
      rw [slotsText]
      cases hms : slotsText tab newline i kvs with
      | none =>
        simp only [hms, Option.mem_def, reduceCtorEq, false_implies, implies_true, true_iff] at h₂
        simp [Members.In, Janet.ForallSlots, hnil, hs, h₁, h₂, h₃, hD, ws_newlineBytes ht hn,
          ws_afterColon]
      | some ms =>
        simp only [hms, Option.mem_def, Option.some.injEq, forall_eq'] at h₂
        simp [Members.In, Janet.ForallSlots, hnil, hs, h₁, h₂, h₃, ws_newlineBytes ht hn,
          ws_afterColon, and_assoc]

end

end WrittenIn

/-! ## Nesting -/

section Height

variable (tab newline : Bytes)

mutual

/-- A text is nested as deep as its value. -/
theorem height_textOf : ∀ (x : Janet) (i : ℕ), (textOf tab newline i x).height = x.height
  | .boolean b, _ => by cases b <;> rfl
  | .nil, _ | .number _, _ | .string _, _ | .symbol _, _ | .keyword _, _ | .buffer _, _
  | .function _, _ | .cfunction _, _ | .fiber _, _ | .abstract _, _ | .pointer _, _ => rfl
  | .array xs, i | .tuple xs, i => by
    have := height_itemsText xs i
    rw [textOf, Janet.height, ← this]
    cases itemsText tab newline i xs <;> rfl
  | .table kvs, i | .struct kvs, i => by
    have := height_slotsText kvs i
    rw [textOf, Janet.height, ← this]
    cases slotsText tab newline i kvs <;> rfl

theorem height_itemsText : ∀ (xs : List Janet) (i : ℕ),
    (itemsText tab newline i xs).elim 0 (·.height + 1) = Janet.heightItems xs
  | [], _ => rfl
  | x :: xs, i => by
    have h₁ := height_textOf x (i + 1)
    have h₂ := height_itemsText xs i
    rw [itemsText, Janet.heightItems, ← h₁, ← h₂]
    cases itemsText tab newline i xs with
    | none => simp [Elements.height]
    | some es => simp [Elements.height]

theorem height_slotsText : ∀ (kvs : List (Janet × Janet)) (i : ℕ),
    (slotsText tab newline i kvs).elim 0 (·.height + 1) = Janet.heightSlots kvs
  | [], _ => rfl
  | (k, v) :: kvs, i => by
    have h₁ := height_textOf v (i + 1)
    have h₂ := height_slotsText kvs i
    rw [slotsText, Janet.heightSlots, ← h₁, ← h₂]
    cases k.isNil with
    | true => rfl
    | false => cases slotsText tab newline i kvs <;> simp [Members.height]

end

end Height

/-! ## Acceptance -/

section Accept

variable {rt : Runtime} {x v : Janet}

/-- Whatever the encoder writes for a number is one, in the loosest sense. -/
theorem isToken_formatG17 (y : Double) : IsToken (formatG17 y) := by
  cases y with
  | finite neg i => exact isToken_literal (g17_isJson neg (unitsOf i))
  | inf neg => cases neg <;> exact ⟨by decide, fun c hc => by cases hc; rfl, rfl⟩
  | nan neg => cases neg <;> exact ⟨by decide, fun c hc => by cases hc; rfl, rfl⟩

theorem writtenIn_loose : ∀ y : Janet, WrittenIn loose y
  | .number y => isToken_formatG17 y
  | .string s | .symbol s | .keyword s | .buffer s => fun i hi => (stringItems_spec s i hi).1
  | .nil | .boolean _ | .array _ | .tuple _ | .table _ | .struct _ | .function _ | .cfunction _
  | .fiber _ | .abstract _ | .pointer _ => trivial

/-- A literal starts with a digit, after the sign. -/
theorem exists_digit_render {l : Literal} (h : l.IsJson) :
    ∃ c q, isdigit c = true ∧ l.render = (if l.neg then [0x2D] else []) ++ c :: q := by
  obtain ⟨c, i, hi⟩ := List.exists_cons_of_ne_nil h.int.1
  refine ⟨c, i ++ (Literal.fracBytes l.frac ++ Literal.expBytes l.exp),
    h.int.2 c (hi ▸ List.mem_cons_self), ?_⟩
  rw [Literal.render, Literal.magnitude, hi, List.cons_append]

/-- No literal is the name of an infinity or a NaN. -/
theorem render_ne_letters {l : Literal} (h : l.IsJson) (neg : Bool) {c : UInt8} {q : Bytes}
    (hc : isdigit c = false ∧ c ≠ 0x2D) : (if neg then [0x2D] else []) ++ c :: q ≠ l.render := by
  obtain ⟨d, p, hd, hp⟩ := exists_digit_render h
  rw [hp]
  intro he
  generalize l.neg = m at he
  cases neg <;> cases m <;>
    simp only [if_true, if_false, Bool.false_eq_true, List.cons_append, List.nil_append,
      List.cons.injEq] at he
  · rw [he.1, hd] at hc
    exact absurd hc.1 (by decide)
  · exact hc.2 he.1
  · rw [← he.1] at hd
    cases hd
  · rw [he.2.1, hd] at hc
    exact absurd hc.1 (by decide)

theorem rfc8259_number_iff (y : Double) : rfc8259.number (formatG17 y) ↔ y.IsFinite := by
  cases y with
  | finite neg i => exact iff_of_true ⟨_, g17_isJson neg (unitsOf i), rfl⟩ trivial
  | inf neg =>
    refine iff_of_false ?_ id
    rintro ⟨l, hl, he⟩
    exact render_ne_letters hl neg (by decide) he
  | nan neg =>
    refine iff_of_false ?_ id
    rintro ⟨l, hl, he⟩
    exact render_ne_letters hl neg (by decide) he

/-- The decoder reads a number back if it is finite or has a sign. -/
theorem lenient_number_iff (y : Double) :
    lenient.number (formatG17 y) ↔ y ≠ .inf false ∧ y ≠ .nan false := by
  cases y with
  | finite neg i =>
    exact iff_of_true (lenient_literal (g17_isJson neg (unitsOf i))) (by simp)
  | inf neg =>
    cases neg with
    | false => exact iff_of_false (fun h => absurd (h.2 _ rfl) (by decide)) (by simp)
    | true =>
      exact iff_of_true ⟨isToken_formatG17 _, fun c hc => by cases hc; exact .inl rfl⟩ (by simp)
  | nan neg =>
    cases neg with
    | false => exact iff_of_false (fun h => absurd (h.2 _ rfl) (by decide)) (by simp)
    | true =>
      exact iff_of_true ⟨isToken_formatG17 _, fun c hc => by cases hc; exact .inl rfl⟩ (by simp)

theorem lenient_string_iff (s : Bytes) :
    lenient.string (stringItems s) ↔ Paired (codepoints s).1 := by
  rw [← isSome_stringValue_iff (codepoints_lt s)]
  exact and_iff_right fun i hi => (stringItems_spec s i hi).1

theorem rfc8259_string_iff (s : Bytes) :
    rfc8259.string (stringItems s) ↔ Paired (codepoints s).1 := by
  rw [← lenient_string_iff]
  exact and_iff_left (isUtf8_renderItems (stringItems_spec s))

variable {tab newline : Bytes} (ht : Ws tab) (hn : Ws newline)

include ht hn

/-- When the decoder accepts what was written, and with what value. -/
theorem jsonDecode_textOf {keywords nils : Bool} (hx : x.Forall Writable) :
    jsonDecode rt ((textOf tab newline 0 x).render []) keywords nils = .ok v ↔
      x.Forall (WrittenIn lenient) ∧ x.height ≤ rt.recursionGuard ∧
        v = treeValue rt keywords nils (textOf tab newline 0 x) := by
  have hl : (textOf tab newline 0 x).In loose :=
    (textOf_in_iff ht hn trivial x 0 hx).2 (Janet.forall_of_forall writtenIn_loose x)
  have hr : ReadsAs ((textOf tab newline 0 x).render []) (textOf tab newline 0 x) [] :=
    ⟨[], [], ws_nil, ws_nil, (Tree.render_append _ [] [0]).symm⟩
  rw [jsonDecode_iff, ← textOf_in_iff (D := lenient) ht hn trivial x 0 hx,
    ← height_textOf tab newline x 0]
  constructor
  · rintro ⟨t, rest, ht', hh, hr', rfl⟩
    obtain ⟨rfl, -⟩ := ReadsAs.unique hr' hr (ht'.mono lenient_le_loose) hl
    exact ⟨ht', hh, rfl⟩
  · rintro ⟨h₁, h₂, h₃⟩
    exact ⟨_, [], h₁, h₂, hr, h₃⟩

/-- When what was written is a text of RFC 8259. -/
theorem isRfc8259_textOf (hx : x.Forall Writable) :
    (∃ t, IsRfc8259 ((textOf tab newline 0 x).render []) t) ↔ x.Forall (WrittenIn rfc8259) := by
  have hl : (textOf tab newline 0 x).In loose :=
    (textOf_in_iff ht hn trivial x 0 hx).2 (Janet.forall_of_forall writtenIn_loose x)
  have hr : ReadsAs ((textOf tab newline 0 x).render []) (textOf tab newline 0 x) [] :=
    ⟨[], [], ws_nil, ws_nil, (Tree.render_append _ [] [0]).symm⟩
  rw [← textOf_in_iff (D := rfc8259) ht hn rfl x 0 hx]
  constructor
  · rintro ⟨t, h⟩
    obtain ⟨rfl, -⟩ := ReadsAs.unique h.readsAs hr ((h.1.mono rfc8259_le_lenient).mono
      lenient_le_loose) hl
    exact h.1
  · exact fun h => ⟨_, h, [], [], ws_nil, ws_nil, rfl⟩

end Accept

/-! ## The content read back -/

/-- The atom read back for an atom. -/
def rereadAtom : Janet → Janet
  | .nil => nullKeyword
  | .string s | .symbol s | .keyword s | .buffer s => .string (respell s)
  | x => x

section Content

variable (f : Double → Double)

open Classical in
mutual

/-- The content of what is read back for a value, its numbers seen through `f`. -/
noncomputable def reread : Janet → Deep
  | .number x => .number (f (strtod (formatG17 x)).1)
  | .array xs | .tuple xs => .array (rereadItems xs)
  | .table kvs | .struct kvs => .table (rereadSlots kvs fun _ => none)
  | x => .atom (rereadAtom x)

noncomputable def rereadItems : List Janet → List Deep
  | [] => []
  | x :: xs => reread x :: rereadItems xs

/-- A key that comes back as one that was already there takes its place. -/
noncomputable def rereadSlots : List (Janet × Janet) → (Janet → Option Deep) → Janet → Option Deep
  | [], m => m
  | (k, v) :: kvs, m =>
    if k.isNil then rereadSlots kvs m
    else rereadSlots kvs (Function.update m (rereadAtom k) (some (reread v)))

end

/-- The key read back for a byte sequence. -/
theorem nameKey_stringItems {k : Janet} {s : Bytes} (h : k.bytes? = some s) :
    nameKey false (stringItems s) = rereadAtom k := by
  cases k <;> simp_all [Janet.bytes?, nameKey, rereadAtom, respell]

mutual

/-- The text of a value has the content that is read back. -/
theorem meaning_textOf : ∀ (x : Janet) (i : ℕ), x.Forall Writable →
    meaning f false false (textOf [] [] i x) = reread f x
  | .nil, _, _ | .number _, _, _ | .string _, _, _ | .symbol _, _, _ | .keyword _, _, _
  | .buffer _, _, _ => rfl
  | .boolean b, _, _ => by cases b <;> rfl
  | .array xs, i, h | .tuple xs, i, h => by
    have := meaning_itemsText xs i h.2
    rw [textOf, reread, ← this]
    cases itemsText [] [] i xs <;> rfl
  | .table kvs, i, h | .struct kvs, i, h => by
    have := meaning_slotsText kvs i (fun _ => none) h.1 h.2
    rw [textOf, reread, ← this]
    cases slotsText [] [] i kvs <;> rfl
  | .function _, _, h | .cfunction _, _, h | .fiber _, _, h | .abstract _, _, h
  | .pointer _, _, h => h.elim

theorem meaning_itemsText : ∀ (xs : List Janet) (i : ℕ), Janet.ForallItems Writable xs →
    (itemsText [] [] i xs).elim [] (elementMeanings f false false) = rereadItems f xs
  | [], _, _ => rfl
  | x :: xs, i, ⟨hx, hxs⟩ => by
    have h₁ := meaning_textOf x (i + 1) hx
    have h₂ := meaning_itemsText xs i hxs
    rw [itemsText, rereadItems, ← h₁, ← h₂]
    cases itemsText [] [] i xs <;> simp [elementMeanings]

theorem meaning_slotsText : ∀ (kvs : List (Janet × Janet)) (i : ℕ) (m : Janet → Option Deep),
    (∀ kv ∈ entries kvs, kv.1.bytes?.isSome) → Janet.ForallSlots Writable kvs →
    (slotsText [] [] i kvs).elim m (memberMeanings f false false · m) = rereadSlots f kvs m
  | [], _, _, _, _ => rfl
  | (k, v) :: kvs, i, m, hk, ⟨hkv, hkvs⟩ => by
    rw [slotsText, rereadSlots]
    cases hnil : k.isNil with
    | true => exact meaning_slotsText kvs i m (by simpa [entries, hnil] using hk) hkvs
    | false =>
      obtain ⟨hk₁, hk₂⟩ : k.bytes?.isSome ∧ ∀ kv ∈ entries kvs, kv.1.bytes?.isSome := by
        simpa [entries, hnil] using hk
      obtain ⟨s, hs⟩ := Option.isSome_iff_exists.1 hk₁
      have h₁ := meaning_textOf v (i + 1) (hkv hnil).2
      have h₂ := fun m => meaning_slotsText kvs i m hk₂ hkvs
      simp only [Bool.false_eq_true, if_false, hs, Option.getD_some]
      rw [← h₁, ← h₂]
      cases slotsText [] [] i kvs <;> simp [memberMeanings, nameKey_stringItems hs]

end

end Content

/-! ## Comparing contents -/

section Compare

variable (h : Janet → Janet) (f : Double → Double)

open Classical in
mutual

/-- The content of a value in which atoms and keys are seen through `h`: tuples
    count as arrays, and structs as tables. -/
noncomputable def content : Janet → Deep
  | .number x => .number (f x)
  | .array xs | .tuple xs => .array (contentItems xs)
  | .table kvs | .struct kvs => .table (contentSlots kvs)
  | x => .atom (h x)

noncomputable def contentItems : List Janet → List Deep
  | [] => []
  | x :: xs => content x :: contentItems xs

noncomputable def contentSlots : List (Janet × Janet) → Janet → Option Deep
  | [] => fun _ => none
  | (k, v) :: kvs => fun k' =>
    if k.isNil = false ∧ h k = k' then some (content v) else contentSlots kvs k'

end

/-- The keys of a table are different also when seen through `h`. -/
def KeysDistinct : Janet → Prop
  | .table kvs | .struct kvs => ((entries kvs).map fun kv => h kv.1).Nodup
  | _ => True

/-- A part of a value is read back as what it is seen as. -/
def Returns : Janet → Prop
  | .number x => f (strtod (formatG17 x)).1 = f x
  | .array _ | .tuple _ | .table _ | .struct _ => True
  | x => rereadAtom x = h x

variable {h f}

/-- The map of slots with different keys. -/
theorem contentSlots_eq_some {kvs : Slots} (hd : ((entries kvs).map fun kv => h kv.1).Nodup)
    {k : Janet} {d : Deep} :
    contentSlots h f kvs k = some d ↔ ∃ kv ∈ entries kvs, h kv.1 = k ∧ content h f kv.2 = d := by
  induction kvs with
  | nil => simp [contentSlots, entries]
  | cons kv kvs ih =>
    obtain ⟨k', v'⟩ := kv
    rw [contentSlots]
    cases hn : k'.isNil with
    | true =>
      rw [entries_cons_nil hn] at hd ⊢
      simpa using ih hd
    | false =>
      rw [entries_cons hn, List.map_cons, List.nodup_cons] at hd
      simp only [entries_cons hn, List.mem_cons, exists_eq_or_imp, ← ih hd.2]
      by_cases hk : h k' = k
      · subst hk
        have hnot : contentSlots h f kvs (h k') ≠ some d := by
          rw [ne_eq, ih hd.2]
          rintro ⟨kv, hkv, he, -⟩
          exact hd.1 (List.mem_map.2 ⟨kv, hkv, he⟩)
        simp [hnot]
      · simp [hk]

open Classical in
/-- Whatever a table holds after its slots were read back was there before, or
    comes from one of them. -/
theorem rereadSlots_ne_none {kvs : Slots} {m : Janet → Option Deep} {k : Janet}
    (hk : rereadSlots f kvs m k ≠ none) : m k ≠ none ∨ ∃ kv ∈ entries kvs, rereadAtom kv.1 = k := by
  induction kvs generalizing m with
  | nil => exact .inl hk
  | cons kv kvs ih =>
    obtain ⟨k', v'⟩ := kv
    rw [rereadSlots] at hk
    cases hn : k'.isNil with
    | true =>
      rw [hn, if_pos rfl] at hk
      rw [entries_cons_nil hn]
      exact ih hk
    | false =>
      rw [hn, if_neg (by decide)] at hk
      simp only [entries_cons hn, List.mem_cons, exists_eq_or_imp]
      by_cases he : rereadAtom k' = k
      · exact .inr (.inl he)
      · rcases ih hk with hm | hm
        · rw [Function.update_of_ne (Ne.symm he)] at hm
          exact .inl hm
        · exact .inr (.inr hm)

open Classical in
/-- Reading back slots whose keys come back different. -/
theorem rereadSlots_eq_some {kvs : Slots}
    (hd : ((entries kvs).map fun kv => rereadAtom kv.1).Nodup) {m : Janet → Option Deep} {k : Janet}
    {d : Deep} : rereadSlots f kvs m k = some d ↔
      (∃ kv ∈ entries kvs, rereadAtom kv.1 = k ∧ reread f kv.2 = d) ∨
        (∀ kv ∈ entries kvs, rereadAtom kv.1 ≠ k) ∧ m k = some d := by
  induction kvs generalizing m with
  | nil => simp [rereadSlots, entries]
  | cons kv kvs ih =>
    obtain ⟨k', v'⟩ := kv
    rw [rereadSlots]
    cases hn : k'.isNil with
    | true =>
      rw [entries_cons_nil hn] at hd ⊢
      simpa using ih hd
    | false =>
      rw [entries_cons hn, List.map_cons, List.nodup_cons] at hd
      rw [if_neg (by decide), ih hd.2]
      simp only [entries_cons hn, List.mem_cons, exists_eq_or_imp, forall_eq_or_imp]
      -- The key of this slot is none of those after it, so its value is not replaced.
      by_cases hk : rereadAtom k' = k
      · subst hk
        have hnot : ∀ kv ∈ entries kvs, rereadAtom kv.1 ≠ rereadAtom k' :=
          fun kv hkv he => hd.1 (List.mem_map.2 ⟨kv, hkv, he⟩)
        have hnot' : ¬∃ kv ∈ entries kvs, rereadAtom kv.1 = rereadAtom k' ∧ reread f kv.2 = d :=
          fun ⟨kv, hkv, he, _⟩ => hnot kv hkv he
        simp only [Function.update_self, Option.some.injEq, true_and, ne_eq, not_true_eq_false,
          false_and, or_false, hnot', false_or]
        exact and_iff_right hnot
      · simp only [Function.update_of_ne (Ne.symm hk), hk, false_and, false_or, ne_eq,
          not_false_eq_true, true_and]

theorem rereadAtom_bytes {k : Janet} {s : Bytes} (hk : k.bytes? = some s) :
    rereadAtom k = .string (respell s) := by
  cases k <;> simp_all [Janet.bytes?, rereadAtom]

variable (hh : ∀ k s, k.bytes? = some s → (h k).bytes? = some s)

include hh

/-- Keys that are all read back as some of them are read back as themselves:
    what is read back is well-formed, and writing it once more changes nothing. -/
theorem rereadAtom_of_onto {kvs : Slots} (hb : ∀ kv ∈ entries kvs, kv.1.bytes?.isSome)
    (honto : ∀ kv ∈ entries kvs, ∃ kv' ∈ entries kvs, rereadAtom kv'.1 = h kv.1) :
    ∀ kv ∈ entries kvs, rereadAtom kv.1 = h kv.1 := by
  have hspell : ∀ kv ∈ entries kvs, ∃ s, kv.1.bytes? = some s ∧ h kv.1 = .string s ∧
      ∃ kv' ∈ entries kvs, ∃ s', kv'.1.bytes? = some s' ∧ s = respell s' := by
    intro kv hkv
    obtain ⟨s, hs⟩ := Option.isSome_iff_exists.1 (hb kv hkv)
    obtain ⟨kv', hkv', he⟩ := honto kv hkv
    obtain ⟨s', hs'⟩ := Option.isSome_iff_exists.1 (hb kv' hkv')
    rw [rereadAtom_bytes hs'] at he
    have hbytes := hh kv.1 s hs
    rw [← he] at hbytes
    exact ⟨s, hs, by rw [← he, Option.some.inj hbytes], kv', hkv', s', hs',
      (Option.some.inj hbytes).symm⟩
  intro kv hkv
  obtain ⟨s, hs, hks, kv', hkv', s', hs', rfl⟩ := hspell kv hkv
  obtain ⟨t, ht, -, kv'', hkv'', s'', hs'', rfl⟩ := hspell kv' hkv'
  obtain rfl : respell s'' = s' := Option.some.inj (ht.symm.trans hs')
  rw [rereadAtom_bytes hs, hks, respell_respell (isUtf8_respell s'')]

/-- The map read back for slots is theirs if it is for every one of them. -/
theorem rereadSlots_eq_iff {kvs : Slots} (hb : ∀ kv ∈ entries kvs, kv.1.bytes?.isSome)
    (hd : ((entries kvs).map fun kv => h kv.1).Nodup) :
    (rereadSlots f kvs fun _ => none) = contentSlots h f kvs ↔
      ∀ kv ∈ entries kvs, rereadAtom kv.1 = h kv.1 ∧ reread f kv.2 = content h f kv.2 := by
  have hmap : (∀ kv ∈ entries kvs, rereadAtom kv.1 = h kv.1) →
      ((entries kvs).map fun kv => rereadAtom kv.1).Nodup := by
    intro he
    rwa [List.map_congr_left he]
  constructor
  · intro heq
    -- Every key is among those read back, so all are read back as themselves.
    have hkey : ∀ kv ∈ entries kvs, rereadAtom kv.1 = h kv.1 := by
      refine rereadAtom_of_onto hh hb fun kv hkv => ?_
      have hsome : contentSlots h f kvs (h kv.1) = some (content h f kv.2) :=
        (contentSlots_eq_some hd).2 ⟨kv, hkv, rfl, rfl⟩
      rw [← heq] at hsome
      have hne : rereadSlots f kvs (fun _ => none) (h kv.1) ≠ none := by simp [hsome]
      exact (rereadSlots_ne_none hne).resolve_left (fun hn => hn rfl)
    intro kv hkv
    refine ⟨hkey kv hkv, ?_⟩
    have h₁ : rereadSlots f kvs (fun _ => none) (h kv.1) = some (reread f kv.2) :=
      (rereadSlots_eq_some (hmap hkey)).2 (.inl ⟨kv, hkv, hkey kv hkv, rfl⟩)
    have h₂ : contentSlots h f kvs (h kv.1) = some (content h f kv.2) :=
      (contentSlots_eq_some hd).2 ⟨kv, hkv, rfl, rfl⟩
    rw [heq, h₂] at h₁
    exact (Option.some.inj h₁).symm
  · intro hkv
    funext k
    refine Option.ext fun d => ?_
    rw [rereadSlots_eq_some (hmap fun kv hk => (hkv kv hk).1), contentSlots_eq_some hd]
    simp only [reduceCtorEq, and_false, or_false]
    refine exists_congr fun kv => and_congr_right fun hk => ?_
    rw [(hkv kv hk).1, (hkv kv hk).2]

set_option linter.unusedSectionVars false in
mutual

/-- The content read back is that of the value exactly if every part is read
    back as what it is seen as. -/
theorem reread_eq_content_iff : ∀ x : Janet, x.Forall Writable → x.Forall (KeysDistinct h) →
    (reread f x = content h f x ↔ x.Forall (Returns h f))
  | .number y, _, _ => by simp [reread, content, Janet.Forall, Returns]
  | .nil, _, _ | .boolean _, _, _ | .string _, _, _ | .symbol _, _, _ | .keyword _, _, _
  | .buffer _, _, _ => by simp [reread, content, Janet.Forall, Returns]
  | .array xs, hw, hd | .tuple xs, hw, hd => by
    rw [reread, content, Deep.array.injEq, rereadItems_eq_contentItems_iff xs hw.2 hd.2]
    exact (and_iff_right trivial).symm
  | .table kvs, hw, hd | .struct kvs, hw, hd => by
    rw [reread, content, Deep.table.injEq, rereadSlots_eq_iff hh hw.1 hd.1,
      slots_eq_iff kvs hw.1 hw.2 hd.2]
    exact (and_iff_right trivial).symm
  | .function _, hw, _ | .cfunction _, hw, _ | .fiber _, hw, _ | .abstract _, hw, _
  | .pointer _, hw, _ => hw.elim

theorem rereadItems_eq_contentItems_iff : ∀ xs : List Janet, Janet.ForallItems Writable xs →
    Janet.ForallItems (KeysDistinct h) xs →
    (rereadItems f xs = contentItems h f xs ↔ Janet.ForallItems (Returns h f) xs)
  | [], _, _ => iff_of_true rfl trivial
  | x :: xs, ⟨hw, hws⟩, ⟨hd, hds⟩ => by
    rw [rereadItems, contentItems, List.cons.injEq, reread_eq_content_iff x hw hd,
      rereadItems_eq_contentItems_iff xs hws hds]
    rfl

theorem slots_eq_iff : ∀ kvs : List (Janet × Janet), (∀ kv ∈ entries kvs, kv.1.bytes?.isSome) →
    Janet.ForallSlots Writable kvs → Janet.ForallSlots (KeysDistinct h) kvs →
    ((∀ kv ∈ entries kvs, rereadAtom kv.1 = h kv.1 ∧ reread f kv.2 = content h f kv.2) ↔
      Janet.ForallSlots (Returns h f) kvs)
  | [], _, _, _ => by simp [entries, Janet.ForallSlots]
  | (k, v) :: kvs, hb, ⟨hw, hws⟩, ⟨hd, hds⟩ => by
    cases hn : k.isNil with
    | true =>
      rw [entries_cons_nil hn] at hb ⊢
      rw [slots_eq_iff kvs hb hws hds, Janet.ForallSlots]
      simp [hn]
    | false =>
      rw [entries_cons hn, List.forall_mem_cons] at hb
      rw [entries_cons hn, List.forall_mem_cons, slots_eq_iff kvs hb.2 hws hds,
        reread_eq_content_iff v (hw hn).2 (hd hn).2, Janet.ForallSlots]
      obtain ⟨s, hs⟩ := Option.isSome_iff_exists.1 hb.1
      have hk : k.Forall (Returns h f) ↔ rereadAtom k = h k := by
        rw [Janet.forall_of_bytes hs]
        cases k <;> simp_all [Janet.bytes?, Returns]
      simp [hn, hk]

end

end Compare

end PunyGui
