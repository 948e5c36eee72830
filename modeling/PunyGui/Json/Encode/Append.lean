import PunyGui.Json.Encode.Text

/-!
# Encoding into a buffer

What `json/encode` does to the buffer that it appends to, also when it fails.

* `jsonEncodeInto`: the buffer in the end, and the error.
* `encodeOne_behind`: the encoder only looks at what it has written itself.
* `failure_encodeOne`: whether it fails, and how, depends on the value alone.
-/

namespace PunyGui

open Binary64 Text Libc JsonText Encoder

/-- What `json/encode` leaves in the buffer, and the error it raises. -/
def jsonEncodeInto (x : Janet) (tab newline : Option Bytes) (buffer : Bytes) :
    Bytes × Option String :=
  let e : Encoder :=
    { buffer, indent := 0, tab := tab.getD [],
      newline := if tab.isSome then newline.getD [0x0D, 0x0A] else [] }
  match encodeOne e x with
  | .error (err, e) => (e.buffer, some err)
  | .ok e => (e.buffer, none)

/-- `json/encode` raises this error, or returns this buffer. -/
theorem jsonEncode_eq_into (x : Janet) (tab newline : Option Bytes) (buffer : Bytes) :
    jsonEncode x tab newline buffer =
      match jsonEncodeInto x tab newline buffer with
      | (b, none) => .ok b
      | (_, some err) => .error err := by
  simp only [jsonEncode, jsonEncodeInto]
  rcases encodeOne _ x with ⟨err, e⟩ | e <;> rfl

/-! ## Errors -/

section Failure

/-- The message of a failed run. -/
def failure : Except (String × Encoder) Encoder → Option String
  | .error (err, _) => some err
  | .ok _ => none

theorem failure_map (f : Encoder → Encoder) (r : Except (String × Encoder) Encoder) :
    failure (r.map f) = failure r := by
  cases r <;> rfl

/-- Two runs that fail in the same way, or not at all. -/
theorem failure_cases {r r' : Except (String × Encoder) Encoder} (h : failure r = failure r') :
    (∃ err e e', r = .error (err, e) ∧ r' = .error (err, e')) ∨
      ∃ e e', r = .ok e ∧ r' = .ok e' := by
  rcases r with ⟨err, e⟩ | e <;> rcases r' with ⟨err', e'⟩ | e' <;> simp only [failure] at h
  · cases h
    exact .inl ⟨err, e, e', rfl, rfl⟩
  · cases h
  · cases h
  · exact .inr ⟨e, e', rfl, rfl⟩

theorem failure_encodeString (s : Bytes) (e e' : Encoder) :
    failure (encodeString e s) = failure (encodeString e' s) := by
  unfold encodeString
  dsimp only
  split_ifs <;> rfl

mutual

/-- Whether the encoder fails, and how, depends neither on the buffer nor on the format. -/
theorem failure_encodeOne : ∀ (x : Janet) (e e' : Encoder),
    failure (encodeOne e x) = failure (encodeOne e' x)
  | .nil, _, _ | .boolean _, _, _ | .number _, _, _ | .function _, _, _ | .cfunction _, _, _
  | .fiber _, _, _ | .abstract _, _, _ | .pointer _, _, _ => rfl
  | .string s, e, e' | .symbol s, e, e' | .keyword s, e, e' | .buffer s, e, e' =>
    failure_encodeString s e e'
  | .array xs, e, e' | .tuple xs, e, e' => by
    rw [encodeOne, encodeOne, failure_map, failure_map]
    exact failure_encodeItems xs _ _
  | .table kvs, e, e' | .struct kvs, e, e' => by
    rw [encodeOne, encodeOne, failure_map, failure_map]
    exact failure_encodeSlots kvs _ _

theorem failure_encodeItems : ∀ (xs : List Janet) (e e' : Encoder),
    failure (encodeItems e xs) = failure (encodeItems e' xs)
  | [], _, _ => rfl
  | x :: xs, e, e' => by
    rw [encodeItems, encodeItems]
    rcases failure_cases (failure_encodeOne x e.encodeNewline e'.encodeNewline) with
      ⟨err, e₁, e₁', h, h'⟩ | ⟨e₁, e₁', h, h'⟩ <;> rw [h, h']
    · rfl
    · exact failure_encodeItems xs _ _

theorem failure_encodeSlots : ∀ (kvs : List (Janet × Janet)) (e e' : Encoder),
    failure (encodeSlots e kvs) = failure (encodeSlots e' kvs)
  | [], _, _ => rfl
  | (k, v) :: kvs, e, e' => by
    rw [encodeSlots, encodeSlots]
    split_ifs
    · exact failure_encodeSlots kvs _ _
    · -- A key that is not made of bytes.
      rfl
    rcases failure_cases (failure_encodeOne k e.encodeNewline e'.encodeNewline) with
      ⟨err, e₁, e₁', h, h'⟩ | ⟨e₁, e₁', h, h'⟩ <;> rw [h, h']
    · rfl
    dsimp only
    rcases failure_cases (failure_encodeOne v (e₁.push (separator e₁.tab))
        (e₁'.push (separator e₁'.tab))) with ⟨err, e₂, e₂', h, h'⟩ | ⟨e₂, e₂', h, h'⟩ <;> rw [h, h']
    · rfl
    · exact failure_encodeSlots kvs _ _

end

end Failure

/-! ## What is in the buffer before -/

namespace Encoder

/-- The encoder with `B` before what it has written. -/
def behind (B : Bytes) (e : Encoder) : Encoder := { e with buffer := B ++ e.buffer }

end Encoder

section Behind

variable (B : Bytes)

/-- A run with `B` before what is written. -/
def runBehind : Except (String × Encoder) Encoder → Except (String × Encoder) Encoder
  | .error (err, e) => .error (err, e.behind B)
  | .ok e => .ok (e.behind B)

@[simp] theorem behind_push (e : Encoder) (b : Bytes) :
    (e.behind B).push b = (e.push b).behind B := by
  simp [Encoder.behind, Encoder.push]

@[simp] theorem behind_encodeNewline (e : Encoder) :
    (e.behind B).encodeNewline = e.encodeNewline.behind B := behind_push B e _

@[simp] theorem behind_enter (e : Encoder) (b : UInt8) :
    (e.behind B).enter b = (e.enter b).behind B := by
  simp [Encoder.enter, Encoder.behind, Encoder.push]

/-- The last byte of the buffer is one that was written, if there is one. -/
theorem behind_leave {e : Encoder} (h : e.buffer ≠ []) (b : UInt8) :
    (e.behind B).leave b = (e.leave b).behind B := by
  have hlast : (B ++ e.buffer).getLast? = e.buffer.getLast? := List.getLast?_append_of_ne_nil B h
  have hdrop : (B ++ e.buffer).dropLast = B ++ e.buffer.dropLast := List.dropLast_append_of_ne_nil h
  simp only [Encoder.leave]
  simp only [Encoder.behind, hlast, hdrop]
  split_ifs
  · simp [Encoder.push, Encoder.encodeNewline]
  · simp [Encoder.push]

theorem behind_encodeString (e : Encoder) (s : Bytes) :
    encodeString (e.behind B) s = runBehind B (encodeString e s) := by
  simp only [encodeString, behind_push]
  split_ifs <;> rfl

/-- Between the brackets, the buffer is not empty. -/
theorem buffer_items_ne_nil {e e' : Encoder} {b : UInt8} {xs : List Janet}
    (h : encodeItems (e.enter b) xs = .ok e') : e'.buffer ≠ [] := by
  have hw := encodeItems_eq xs (e.enter b) e.indent rfl (writable_of_encodeItems xs h)
  rw [WritesItems] at hw
  split at hw
  · cases h.symm.trans hw
    simp [Encoder.enter, Encoder.push]
  · obtain ⟨body, -, hw⟩ := hw
    cases h.symm.trans hw
    simp [Encoder.push]

theorem buffer_slots_ne_nil {e e' : Encoder} {b : UInt8} {kvs : List (Janet × Janet)}
    (h : encodeSlots (e.enter b) kvs = .ok e') : e'.buffer ≠ [] := by
  obtain ⟨hk, hkvs⟩ := writable_of_encodeSlots kvs h
  have hw := encodeSlots_eq kvs (e.enter b) e.indent rfl hk hkvs
  rw [WritesSlots] at hw
  split at hw
  · cases h.symm.trans hw
    simp [Encoder.enter, Encoder.push]
  · obtain ⟨body, -, hw⟩ := hw
    cases h.symm.trans hw
    simp [Encoder.push]

theorem runBehind_map_leave {r : Except (String × Encoder) Encoder} {b : UInt8}
    (h : ∀ e, r = .ok e → e.buffer ≠ []) :
    (runBehind B r).map (·.leave b) = runBehind B (r.map (·.leave b)) := by
  rcases r with ⟨err, e⟩ | e
  · rfl
  · exact congrArg Except.ok (behind_leave B (h e rfl) b)

mutual

/-- What is in the buffer before stays there, and makes no difference. -/
theorem encodeOne_behind : ∀ (x : Janet) (e : Encoder),
    encodeOne (e.behind B) x = runBehind B (encodeOne e x)
  | .nil, e | .number _, e | .boolean _, e => by
    simp [encodeOne, runBehind]
  | .function _, _ | .cfunction _, _ | .fiber _, _ | .abstract _, _ | .pointer _, _ => rfl
  | .string s, e | .symbol s, e | .keyword s, e | .buffer s, e => behind_encodeString B e s
  | .array xs, e | .tuple xs, e => by
    rw [encodeOne, encodeOne, behind_enter, encodeItems_behind xs,
      runBehind_map_leave B fun e' => buffer_items_ne_nil]
  | .table kvs, e | .struct kvs, e => by
    rw [encodeOne, encodeOne, behind_enter, encodeSlots_behind kvs,
      runBehind_map_leave B fun e' => buffer_slots_ne_nil]

theorem encodeItems_behind : ∀ (xs : List Janet) (e : Encoder),
    encodeItems (e.behind B) xs = runBehind B (encodeItems e xs)
  | [], _ => rfl
  | x :: xs, e => by
    rw [encodeItems, encodeItems, behind_encodeNewline, encodeOne_behind x]
    rcases encodeOne e.encodeNewline x with ⟨err, e₁⟩ | e₁
    · rfl
    · exact (congrArg (encodeItems · xs) (behind_push B e₁ _)).trans (encodeItems_behind xs _)

theorem encodeSlots_behind : ∀ (kvs : List (Janet × Janet)) (e : Encoder),
    encodeSlots (e.behind B) kvs = runBehind B (encodeSlots e kvs)
  | [], _ => rfl
  | (k, v) :: kvs, e => by
    rw [encodeSlots, encodeSlots, behind_encodeNewline, encodeOne_behind k]
    split_ifs
    · exact encodeSlots_behind kvs e
    · rfl
    rcases encodeOne e.encodeNewline k with ⟨err, e₁⟩ | e₁
    · rfl
    simp only [runBehind, behind_push, show (e₁.behind B).tab = e₁.tab from rfl,
      encodeOne_behind v]
    rcases encodeOne (e₁.push (separator e₁.tab)) v with ⟨err, e₂⟩ | e₂
    · rfl
    · exact (congrArg (encodeSlots · kvs) (behind_push B e₂ _)).trans (encodeSlots_behind kvs _)

end

end Behind

section Append

variable (x : Janet) (tab newline : Option Bytes) (B : Bytes)

theorem jsonEncodeInto_behind : jsonEncodeInto x tab newline B =
    (B ++ (jsonEncodeInto x tab newline []).1, (jsonEncodeInto x tab newline []).2) := by
  have h := encodeOne_behind B x (Encoder.mk [] 0 (tab.getD [])
    (if tab.isSome then newline.getD [0x0D, 0x0A] else []))
  simp only [Encoder.behind, List.append_nil] at h
  simp only [jsonEncodeInto, h]
  rcases encodeOne _ x with ⟨err, e⟩ | e <;> rfl

/-- `json/encode` appends to a buffer what it writes to a fresh one: all of it when it
    succeeds, and when it raises an error what it had written by then. -/
theorem jsonEncodeInto_append :
    (∃ b, jsonEncode x tab newline [] = .ok b ∧
      jsonEncodeInto x tab newline B = (B ++ b, none)) ∨
    ∃ err b, jsonEncode x tab newline [] = .error err ∧
      jsonEncodeInto x tab newline [] = (b, some err) ∧
      jsonEncodeInto x tab newline B = (B ++ b, some err) := by
  rw [jsonEncodeInto_behind x tab newline B, jsonEncode_eq_into]
  rcases jsonEncodeInto x tab newline [] with ⟨b, - | err⟩
  · exact .inl ⟨b, rfl, rfl⟩
  · exact .inr ⟨err, b, rfl, rfl, rfl⟩

end Append

/-- The bracket of an array stays in the buffer when an element of it has no text. -/
theorem jsonEncodeInto_function :
    jsonEncodeInto (.array [.function 0]) (some []) (some []) [0x2C] =
      ([0x2C, 0x5B], some "type not supported") ∧
      ¬((∃ b, jsonEncode (.array [.function 0]) (some []) (some []) [] = .ok b ∧
          jsonEncodeInto (.array [.function 0]) (some []) (some []) [0x2C] = ([0x2C] ++ b, none)) ∨
        ∃ err, jsonEncodeInto (.array [.function 0]) (some []) (some []) [0x2C] =
          ([0x2C], some err)) := by
  have h : jsonEncodeInto (.array [.function 0]) (some []) (some []) [0x2C] =
      ([0x2C, 0x5B], some "type not supported") := rfl
  refine ⟨h, ?_⟩
  rw [h]
  rintro (⟨b, -, hb⟩ | ⟨err, herr⟩)
  · cases hb
  · cases herr

end PunyGui
