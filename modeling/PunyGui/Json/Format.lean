import PunyGui.Json.Encode.Append
import PunyGui.Json.RoundTrip

/-!
# The format

Encoding with white space between the tokens, and without.

* `treeValue_textOf`: the value of a text does not depend on its format.
* `jsonEncode_format`: neither does the error of the encoder, nor what the decoder
  makes of its output.
-/

namespace PunyGui

open Binary64 Text Libc JsonText

/-! ## Values -/

section TreeValue

variable (rt : Runtime) (keywords nils : Bool)

/-- The values of elements that may be there. -/
def optionValues (es : Option Elements) : List Janet :=
  es.elim [] (elementValues rt keywords nils)

/-- The slots of members that may be there. -/
def optionSlots (ms : Option Members) (table : Slots) : Slots :=
  ms.elim table fun ms => memberSlots rt keywords nils ms table

variable (tab newline : Bytes)

theorem treeValue_textOf_array (i : ℕ) (xs : List Janet) :
    treeValue rt keywords nils (textOf tab newline i (.array xs)) =
      .array (optionValues rt keywords nils (itemsText tab newline i xs)) := by
  rw [textOf]
  cases itemsText tab newline i xs <;> rfl

theorem treeValue_textOf_table (i : ℕ) (kvs : List (Janet × Janet)) :
    treeValue rt keywords nils (textOf tab newline i (.table kvs)) =
      .table (optionSlots rt keywords nils (slotsText tab newline i kvs) rt.table) := by
  rw [textOf]
  cases slotsText tab newline i kvs <;> rfl

theorem optionValues_cons (i : ℕ) (x : Janet) (xs : List Janet) :
    optionValues rt keywords nils (itemsText tab newline i (x :: xs)) =
      treeValue rt keywords nils (textOf tab newline (i + 1) x) ::
        optionValues rt keywords nils (itemsText tab newline i xs) := by
  rw [itemsText]
  cases itemsText tab newline i xs <;> rfl

theorem optionSlots_cons (i : ℕ) {k : Janet} (hk : k.isNil = false) (v : Janet)
    (kvs : List (Janet × Janet)) (table : Slots) :
    optionSlots rt keywords nils (slotsText tab newline i ((k, v) :: kvs)) table =
      optionSlots rt keywords nils (slotsText tab newline i kvs)
        (rt.tablePut table (nameKey keywords (stringItems (k.bytes?.getD [])))
          (treeValue rt keywords nils (textOf tab newline (i + 1) v))) := by
  rw [slotsText, hk]
  cases slotsText tab newline i kvs <;> rfl

theorem optionSlots_nil (i : ℕ) {k : Janet} (hk : k.isNil = true) (v : Janet)
    (kvs : List (Janet × Janet)) (table : Slots) :
    optionSlots rt keywords nils (slotsText tab newline i ((k, v) :: kvs)) table =
      optionSlots rt keywords nils (slotsText tab newline i kvs) table := by
  rw [slotsText, if_pos hk]

variable (tab' newline' : Bytes)

mutual

/-- A text has the same value in every format, at every level of indentation. -/
theorem treeValue_textOf : ∀ (x : Janet) (i j : ℕ),
    treeValue rt keywords nils (textOf tab newline i x) =
      treeValue rt keywords nils (textOf tab' newline' j x)
  | .boolean b, _, _ => by cases b <;> rfl
  | .nil, _, _ | .number _, _, _ | .string _, _, _ | .symbol _, _, _ | .keyword _, _, _
  | .buffer _, _, _ | .function _, _, _ | .cfunction _, _, _ | .fiber _, _, _
  | .abstract _, _, _ | .pointer _, _, _ => rfl
  | .array xs, i, j | .tuple xs, i, j => by
    have h := treeValue_textOf_array rt keywords nils
    exact ((h tab newline i xs).trans (congrArg _ (optionValues_itemsText xs i j))).trans
      (h tab' newline' j xs).symm
  | .table kvs, i, j | .struct kvs, i, j => by
    have h := treeValue_textOf_table rt keywords nils
    exact ((h tab newline i kvs).trans (congrArg _ (optionSlots_slotsText kvs i j rt.table))).trans
      (h tab' newline' j kvs).symm

theorem optionValues_itemsText : ∀ (xs : List Janet) (i j : ℕ),
    optionValues rt keywords nils (itemsText tab newline i xs) =
      optionValues rt keywords nils (itemsText tab' newline' j xs)
  | [], _, _ => rfl
  | x :: xs, i, j => by
    rw [optionValues_cons, optionValues_cons, treeValue_textOf x (i + 1) (j + 1),
      optionValues_itemsText xs i j]

theorem optionSlots_slotsText : ∀ (kvs : List (Janet × Janet)) (i j : ℕ) (table : Slots),
    optionSlots rt keywords nils (slotsText tab newline i kvs) table =
      optionSlots rt keywords nils (slotsText tab' newline' j kvs) table
  | [], _, _, _ => rfl
  | (k, v) :: kvs, i, j, table => by
    cases hk : k.isNil with
    | true =>
      rw [optionSlots_nil _ _ _ _ _ _ hk, optionSlots_nil _ _ _ _ _ _ hk,
        optionSlots_slotsText kvs i j table]
    | false =>
      rw [optionSlots_cons _ _ _ _ _ _ hk, optionSlots_cons _ _ _ _ _ _ hk,
        treeValue_textOf v (i + 1) (j + 1), optionSlots_slotsText kvs i j]

end

end TreeValue

/-! ## Formats -/

section Format

variable {x : Janet} {tab newline : Option Bytes} {b : Bytes}

theorem ws_formatNewline (hn : ∀ w ∈ newline, Ws w) : Ws (formatNewline tab newline) := by
  rw [formatNewline]
  split_ifs
  · cases newline with
    | none => simp [Ws, isWs]
    | some w => exact hn w rfl
  · exact ws_nil

/-- What the decoder makes of the output, in any format of white space. -/
theorem jsonDecode_jsonEncode_iff {rt : Runtime} {keywords nils : Bool}
    (ht : ∀ w ∈ tab, Ws w) (hn : ∀ w ∈ newline, Ws w) (h : jsonEncode x tab newline [] = .ok b)
    (v : Janet) : jsonDecode rt b keywords nils = .ok v ↔ x.Forall (WrittenIn lenient) ∧
      x.height ≤ rt.recursionGuard ∧ v = treeValue rt keywords nils (textOf [] [] 0 x) := by
  obtain ⟨hw, rfl⟩ := jsonEncode_eq_ok_iff.1 h
  have htab : Ws (tab.getD []) := by
    cases tab with
    | none => exact ws_nil
    | some w => exact ht w rfl
  rw [List.nil_append, jsonDecode_textOf htab (ws_formatNewline hn) hw,
    treeValue_textOf rt keywords nils _ _ [] [] x 0 0]

/-- A format of white space changes neither the error of the encoder, nor, if there is
    none, what the decoder makes of the output. -/
theorem jsonEncode_format (rt : Runtime) (keywords nils : Bool) (x : Janet)
    (ht : ∀ w ∈ tab, Ws w) (hn : ∀ w ∈ newline, Ws w) :
    (∀ err, jsonEncode x tab newline [] = .error err ↔ jsonEncode x none none [] = .error err) ∧
      ∀ b b', jsonEncode x none none [] = .ok b → jsonEncode x tab newline [] = .ok b' →
        ∀ v, jsonDecode rt b' keywords nils = .ok v ↔ jsonDecode rt b keywords nils = .ok v := by
  refine ⟨fun err => ?_, fun b b' h h' v => ?_⟩
  · simp only [jsonEncode]
    rcases failure_cases (failure_encodeOne x _ _) with
      ⟨err', e, e', h, h'⟩ | ⟨e, e', h, h'⟩ <;> rw [h, h']
    exact ⟨nofun, nofun⟩
  · rw [jsonDecode_jsonEncode_iff ht hn h', jsonDecode_jsonEncode_iff (by simp) (by simp) h]

theorem jsonEncode_format_spaces :
    (∀ err, jsonEncode (.array [.nil]) (some [0x20]) (some [0x0A]) [] = .error err ↔
      jsonEncode (.array [.nil]) none none [] = .error err) ∧
    ∀ b b', jsonEncode (.array [.nil]) none none [] = .ok b →
      jsonEncode (.array [.nil]) (some [0x20]) (some [0x0A]) [] = .ok b' →
        ∀ v, jsonDecode .assoc b' false false = .ok v ↔ jsonDecode .assoc b false false = .ok v :=
  jsonEncode_format .assoc false false (.array [.nil]) (by simp [Ws, isWs]) (by simp [Ws, isWs])

end Format

end PunyGui
