import PunyGui.Line.Editing

/-!
# Escape sequences

The sequences that a terminal sends for its keys, and how they are read.

* `Sequence`: a control sequence, with its parameters, or one of the Home and End keys.
* `Sequence.binding`: what it should do.
* `Sequence.IsShort`: the control sequences with at most one digit.
* `decode_of_isShort`, `decode_of_not_isShort`: how a sequence is read.
* `takenWhole_iff`: the short ones are read as one key, and no others.
-/

namespace PunyGui.Line

open Text Imp

/-- The sequences of keys: `ESC [`, parameters and a final byte, or `ESC O` and a final
    byte. -/
inductive Sequence
  | csi (params : Bytes) (final : UInt8)
  | ss3 (final : UInt8)

namespace Sequence

def bytes : Sequence → Bytes
  | csi params final => 0x1B :: 0x5B :: (params ++ [final])
  | ss3 final => [0x1B, 0x4F, final]

/-- The bytes are those that the standard allows for; of the sequences `ESC O` there are
    those of Home and End. -/
def WellFormed : Sequence → Prop
  | csi params final => (∀ c ∈ params, 0x30 ≤ c ∧ c ≤ 0x3F) ∧ 0x40 ≤ final ∧ final ≤ 0x7E
  | ss3 final => final = 0x48 ∨ final = 0x46

/-- What the key should do: the Home keys do what ctrl-a does, and the End keys what ctrl-e
    does. -/
def binding : Sequence → Command
  | csi [] 0x41 => .move 1
  | csi [] 0x42 => .move (-1)
  | csi [] 0x43 => .edit .right
  | csi [] 0x44 => .edit .left
  | csi [] 0x48 | csi [0x31] 0x7E | ss3 0x48 => keyCommand 1
  | csi [] 0x46 | csi [0x34] 0x7E | ss3 0x46 => keyCommand 5
  | csi [0x33] 0x7E => .edit .delete
  | _ => .nothing

/-- A control sequence without parameters, or with one digit. -/
def IsShort : Sequence → Prop
  | csi [] _ => True
  | csi [c] _ => c ≤ 0x39
  | _ => False

theorem binding_single (final : UInt8) : (csi [] final).binding = singleCommand final := by
  rw [singleCommand]
  split_ifs with h₁ h₂ h₃ h₄ h₅ h₆
  · rw [h₁]
    rfl
  · rw [h₂]
    rfl
  · rw [h₃]
    rfl
  · rw [h₄]
    rfl
  · rw [h₅]
    rfl
  · rw [h₆]
    rfl
  · simp [binding, h₁, h₂, h₃, h₄, h₅, h₆]

theorem binding_extended (c final : UInt8) :
    (csi [c] final).binding = extendedCommand c final := by
  rw [extendedCommand]
  split_ifs with hfinal h₁ h₃ h₄
  · rw [hfinal, h₁]
    rfl
  · rw [hfinal, h₃]
    rfl
  · rw [hfinal, h₄]
    rfl
  · simp [binding, h₁, h₃, h₄]
  · simp [binding, hfinal]

/-- A parameter byte in the place of the final byte does nothing. -/
theorem singleCommand_param {c : UInt8} (hc : c ≤ 0x3F) : singleCommand c = .nothing := by
  have hne (d : UInt8) (hd : 0x3F < d) : c ≠ d := UInt8.ne_of_lt (UInt8.lt_of_le_of_lt hc hd)
  simp [singleCommand, hne]

theorem binding_long (c c' : UInt8) (params : Bytes) (final : UInt8) :
    (csi (c :: c' :: params) final).binding = .nothing := by
  simp [binding]

theorem extendedCommand_param {c c' : UInt8} (hc : c' ≤ 0x3F) :
    extendedCommand c c' = .nothing :=
  if_neg (UInt8.ne_of_lt (UInt8.lt_of_le_of_lt hc (by decide)))

/-- The other sequences are those of Home and End, and such as should do nothing. -/
theorem edits_binding {s : Sequence} (hs : s.WellFormed) (hshort : ¬s.IsShort)
    (t : Zipper UInt8) : s.binding.edits t = true := by
  cases s with
  | ss3 final => rcases hs with rfl | rfl <;> rfl
  | csi params final =>
    rcases params with - | ⟨c, - | ⟨c', params⟩⟩
    · exact absurd trivial hshort
    · have hne (d : UInt8) (hd : d ≤ 0x39) : c ≠ d := fun h => hshort (h ▸ hd)
      rw [binding_extended, extendedCommand, if_neg (hne 0x31 (by decide)),
        if_neg (hne 0x33 (by decide)), if_neg (hne 0x34 (by decide)), ite_self]
      rfl
    · rw [binding_long]
      rfl

end Sequence

variable {T : Terminal} {e : Editor T} {env : Option (List Slots)} {s : Sequence} {rest : Bytes}

/-- The sequence is read as one key: it does what it should, and what is read next is behind
    it. -/
def TakenWhole (env : Option (List Slots)) (typed : T.State → Bytes) (e : Editor T)
    (s : Sequence) (rest : Bytes) : Prop :=
  ∃ tty, typed tty = rest ∧ readKey env e = perform env s.binding { e with tty }

section Escape

variable {typed : T.State → Bytes} (W : T.Works typed)

include W

/-- A short sequence is read to its end, as what it should do. -/
theorem decode_of_isShort (hs : s.WellFormed) (hshort : s.IsShort)
    (htyped : typed e.tty = s.bytes ++ rest) :
    ∃ tty, decode T e.tty = (s.binding, tty) ∧ typed tty = rest := by
  cases s with
  | ss3 final => exact absurd hshort id
  | csi params final =>
    obtain ⟨hparams, hfinal⟩ := hs
    rcases params with - | ⟨c, - | ⟨c', params⟩⟩
    · have hdigit : ¬(0x30 ≤ final ∧ final ≤ 0x39) := fun h =>
        absurd (UInt8.le_trans hfinal.1 h.2) (by decide)
      rw [Sequence.binding_single]
      exact W.decode_single htyped hdigit
    · have hc := hparams c List.mem_cons_self
      rw [Sequence.binding_extended]
      exact W.decode_extended htyped ⟨hc.1, hshort⟩
    · exact absurd hshort id

/-- Of any other sequence the final byte, at least, is left, and what is read does nothing. -/
theorem decode_of_not_isShort (hs : s.WellFormed) (hshort : ¬s.IsShort)
    (htyped : typed e.tty = s.bytes ++ rest) : ∃ left final tty,
      decode T e.tty = (.nothing, tty) ∧ typed tty = left ++ final :: rest := by
  cases s with
  | ss3 final =>
    -- `O` is taken for a key with alt.
    exact ⟨[], final, W.decode_alt htyped (by decide)⟩
  | csi params final =>
    cases params with
    | nil => exact absurd trivial hshort
    | cons c params =>
      obtain ⟨hc, hparams⟩ := List.forall_mem_cons.1 hs.1
      by_cases hdigit : c ≤ 0x39
      · cases params with
        | nil => exact absurd hdigit hshort
        | cons c' params =>
          -- Three bytes are read, of which the last one is another parameter.
          have hc' := (List.forall_mem_cons.1 hparams).1
          refine ⟨params, final, ?_⟩
          rw [← Sequence.extendedCommand_param (c := c) hc'.2]
          refine W.decode_extended (htyped.trans ?_) ⟨hc.1, hdigit⟩
          simp [Sequence.bytes]
      · -- Two bytes are read, of which the second one is a parameter.
        refine ⟨params, final, ?_⟩
        rw [← Sequence.singleCommand_param hc.2]
        refine W.decode_single (htyped.trans ?_) fun h => hdigit h.2
        simp [Sequence.bytes]

/-- A round that does nothing leaves bytes of the sequence to be read. -/
theorem not_takenWhole (hi : Invariant e) (hb : s.binding.edits e.text = true) {tty : T.State}
    {left : Bytes} {final : UInt8} (hdecode : decode T e.tty = (.nothing, tty))
    (hleft : typed tty = left ++ final :: rest) : ¬TakenWhole env typed e s rest := by
  rintro ⟨tty', hrest, hread⟩
  rw [readKey_eq, hdecode] at hread
  obtain ⟨hcrash, hok⟩ := perform_of_works (e := { e with tty := tty' }) env W hi.1 hb
  by_cases hfits : Fits e.plen e.cols s.binding e.text
  · obtain ⟨e₁, tty₁, -, htyped₁, hperform⟩ := hok hfits
    -- The two rounds would end in the same state of the terminal.
    have heq : tty = tty₁ := congrArg Editor.tty
      (Loop.reading.inj (Except.ok.inj (hread.trans hperform)))
    have hlen := congrArg List.length (hleft.symm.trans
      ((congrArg typed heq).trans (htyped₁.trans hrest)))
    rw [List.length_append, List.length_cons] at hlen
    omega
  · cases hread.trans (hcrash hfits)

/-- A sequence of keys is read as one key exactly if it is a control sequence with no
    parameters, or with a single digit. -/
theorem takenWhole_iff (hi : Invariant e) (hs : s.WellFormed)
    (htyped : typed e.tty = s.bytes ++ rest) :
    TakenWhole env typed e s rest ↔ s.IsShort := by
  by_cases hshort : s.IsShort
  · obtain ⟨tty, hdecode, hrest⟩ := decode_of_isShort W hs hshort htyped
    refine iff_of_true ⟨tty, hrest, ?_⟩ hshort
    rw [readKey_eq, hdecode]
  · obtain ⟨left, final, tty, hdecode, hleft⟩ := decode_of_not_isShort W hs hshort htyped
    have hb := Sequence.edits_binding hs hshort e.text
    exact iff_of_false (not_takenWhole W hi hb hdecode hleft) hshort

end Escape

/-- The key Delete, and one more key behind it. -/
theorem takenWhole_iff_delete :
    TakenWhole none (fun s => s) (begun [0x1B, 0x5B, 0x33, 0x7E, 0x61]) (.csi [0x33] 0x7E) [0x61] ↔
      (Sequence.csi [0x33] 0x7E).IsShort :=
  takenWhole_iff keyboard_works (invariant_begun _)
    ⟨fun c hc => by rw [List.mem_singleton.1 hc]; decide, by decide⟩ rfl

/-- The Home key of some keyboards types an `H`. -/
theorem home_types_letter :
    ¬TakenWhole none (fun s => s) (begun [0x1B, 0x4F, 0x48]) (.ss3 0x48) [] ∧
      ∃ e, advance none 2 (.reading (begun [0x1B, 0x4F, 0x48])) = .ok (.reading e) ∧
        e.text = ⟨[0x48], []⟩ := by
  refine ⟨?_, _, rfl, rfl⟩
  have hleft : [(0x48 : UInt8)] = [] ++ [0x48] := rfl
  exact not_takenWhole keyboard_works (invariant_begun _) rfl rfl hleft

end PunyGui.Line
