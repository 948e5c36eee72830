import PunyGui.Line.Loop

/-!
# Keys and commands

The keys of the line editor, apart from what they do: a key is one byte, or an escape
sequence of up to four bytes.

* `Command`: what a key asks for, and `perform`, the code for it.
* `decode`: the key that the next round of the loop reads, from any terminal.
* `readKey_eq`: a round decodes a key and performs its command.
* `command`: the command of the bytes of a key, and `decode_of_typed`, which says that
  these bytes are decoded as the key if they are typed.
* `keysRead`: the keys that have been read in so many rounds.
-/

namespace PunyGui.Line

open Text Libc Imp

/-- What changes the line, or moves the cursor in it. -/
inductive Edit
  | home
  | left
  | delete
  | «end»
  | right
  | backspace
  | kill
  | killStart
  | backspaceWord
  | leftWord
  | rightWord
  | deleteWord
  deriving DecidableEq

/-- What a key asks for. -/
inductive Command
  /-- No key: the input has ended, or cannot be read. -/
  | closed
  | interrupt
  | eof
  | enter
  | char (c : UInt8)
  | edit (op : Edit)
  | complete
  | clear
  | redraw
  | move (delta : ℤ)
  | nothing

variable {T : Terminal}

/-! ## Performing -/

/-- The function that is called. -/
def Edit.run : Edit → Editor T → Outcome (Editor T)
  | home => khome
  | left => kleft
  | delete => kdelete true
  | «end» => kend
  | right => kright
  | backspace => kbackspace true
  | kill => kkill
  | killStart => kkillStart
  | backspaceWord => kbackspacew
  | leftWord => kleftw
  | rightWord => krightw
  | deleteWord => kdeletew

/-- The code for a command. -/
def perform (env : Option (List Slots)) : Command → Editor T → Outcome (Loop T)
  | .closed, e => pure (.returned (-1) e)
  | .interrupt, e => pure (.returned (-1) (clearlines { e with sigintFlag := true }))
  | .eof, e =>
    if e.len = 0 then pure (.returned (-1) (clearlines e))
    else do
      let e ← kdelete true e
      pure (.reading e)
  | .enter, e => pure (.returned 0 (clearlines e))
  | .char c, e => do
    let (res, e) ← insert c true e
    pure (if res ≠ 0 then .returned (-1) e else .reading e)
  | .edit op, e => do
    let e ← op.run e
    pure (.reading e)
  | .complete, e => do
    let e ← kshowcomp env e
    let e ← refresh e
    pure (.reading e)
  | .clear, e => do
    let e ← Line.clear e
    let e ← refresh e
    pure (.reading e)
  | .redraw, e => do
    let e ← refresh e
    pure (.reading e)
  | .move delta, e => do
    let e ← historymove delta e
    pure (.reading e)
  | .nothing, e => pure (.reading e)

/-! ## Decoding -/

/-- The command of a key of one byte. -/
def keyCommand (c : UInt8) : Command :=
  match c with
  | 1 => .edit .home
  | 2 => .edit .left
  | 3 => .interrupt
  | 4 => .eof
  | 5 => .edit .end
  | 6 => .edit .right
  | 127 | 8 => .edit .backspace
  | 9 => .complete
  | 11 => .edit .kill
  | 12 => .clear
  | 13 => .enter
  | 14 => .move (-1)
  | 16 => .move 1
  | 21 => .edit .killStart
  | 23 => .edit .backspaceWord
  | 26 => .redraw
  | c => if 0x20 ≤ c ∧ c < 0x7F then .char c else .nothing

/-- The command of `ESC [`, a digit and a third byte. -/
def extendedCommand (seq₁ seq₂ : UInt8) : Command :=
  if seq₂ = 0x7E then
    if seq₁ = 0x31 then .edit .home
    else if seq₁ = 0x33 then .edit .delete
    else if seq₁ = 0x34 then .edit .end
    else .nothing
  else .nothing

/-- The command of `ESC [` and a byte that is no digit. -/
def singleCommand (seq₁ : UInt8) : Command :=
  if seq₁ = 0x41 then .move 1
  else if seq₁ = 0x42 then .move (-1)
  else if seq₁ = 0x43 then .edit .right
  else if seq₁ = 0x44 then .edit .left
  else if seq₁ = 0x48 then .edit .home
  else if seq₁ = 0x46 then .edit .end
  else .nothing

/-- The command of alt with a key. -/
def altCommand (seq₀ : UInt8) : Command :=
  if seq₀ = 0x64 then .edit .deleteWord
  else if seq₀ = 0x62 then .edit .leftWord
  else if seq₀ = 0x66 then .edit .rightWord
  else if seq₀ = 0x2C then .move historyMax
  else if seq₀ = 0x2E then .move (-historyMax)
  else if seq₀ = 0x7F then .edit .backspaceWord
  else .nothing

/-- A byte of an escape sequence, as `readSeq` reads it. -/
def readByte (T : Terminal) (tty : T.State) : Option UInt8 × T.State :=
  match T.read tty with
  | (.byte c, tty) => (some c, tty)
  | (.eof, tty) => (some (T.junk tty), tty)
  | (.error, tty) => (none, tty)

/-- The rest of an escape sequence. -/
def decodeEscape (T : Terminal) (tty : T.State) : Command × T.State :=
  match readByte T tty with
  | (none, tty) => (.nothing, tty)
  | (some seq₀, tty) =>
    if seq₀ = 0x5B then
      match readByte T tty with
      | (none, tty) => (.nothing, tty)
      | (some seq₁, tty) =>
        if 0x30 ≤ seq₁ ∧ seq₁ ≤ 0x39 then
          match readByte T tty with
          | (none, tty) => (.nothing, tty)
          | (some seq₂, tty) => (extendedCommand seq₁ seq₂, tty)
        else (singleCommand seq₁, tty)
    else (altCommand seq₀, tty)

/-- The key that the next round reads. -/
def decode (T : Terminal) (tty : T.State) : Command × T.State :=
  match T.read tty with
  | (.byte c, tty) => if c = 27 then decodeEscape T tty else (keyCommand c, tty)
  | (_, tty) => (.closed, tty)

section Decode

variable {e : Editor T} {env : Option (List Slots)}

theorem handleKey_eq {c : UInt8} (hc : c ≠ 27) :
    handleKey env c e = perform env (keyCommand c) e := by
  fun_cases keyCommand c
  case case4 =>
    -- The only key that looks at the line.
    by_cases hlen : e.len = 0 <;> simp [handleKey, editKey, perform, hlen]
  all_goals first
    | rfl
    | simp_all [handleKey, editKey, perform]

theorem readSeq_eq (e : Editor T) :
    readSeq e = ((readByte T e.tty).1, { e with tty := (readByte T e.tty).2 }) := by
  rw [readSeq, readByte]
  rcases T.read e.tty with ⟨_ | _ | _, tty⟩ <;> rfl

/-- The rest of a round, behind the code of a key. -/
def goOn (r : Outcome (Editor T)) : Outcome (Loop T) := do
  let e ← r
  pure (.reading e)

theorem singleEscape_eq (seq₁ : UInt8) (e : Editor T) :
    goOn (singleEscape seq₁ e) = perform env (singleCommand seq₁) e := by
  rw [singleEscape, singleCommand]
  split_ifs <;> rfl

theorem altBinding_eq (seq₀ : UInt8) (e : Editor T) :
    goOn (altBinding seq₀ e) = perform env (altCommand seq₀) e := by
  rw [altBinding, altCommand]
  split_ifs <;> rfl

variable (env) in
theorem extendedEscape_eq (seq₁ : UInt8) (e : Editor T) : goOn (extendedEscape seq₁ e) =
    match readByte T e.tty with
    | (none, tty) => perform env .nothing { e with tty }
    | (some seq₂, tty) => perform env (extendedCommand seq₁ seq₂) { e with tty } := by
  rw [extendedEscape, readSeq_eq]
  rcases readByte T e.tty with ⟨_ | seq₂, tty⟩
  · rfl
  · simp only [extendedCommand]
    split_ifs <;> rfl

theorem escape_eq (e : Editor T) : goOn (escape e) =
    perform env (decodeEscape T e.tty).1 { e with tty := (decodeEscape T e.tty).2 } := by
  rw [escape, readSeq_eq, decodeEscape]
  rcases readByte T e.tty with ⟨_ | seq₀, tty⟩
  · rfl
  by_cases h₀ : seq₀ = 0x5B
  · simp only [if_pos h₀, readSeq_eq]
    rcases readByte T tty with ⟨_ | seq₁, tty⟩
    · rfl
    by_cases h₁ : 0x30 ≤ seq₁ ∧ seq₁ ≤ 0x39
    · simp only [if_pos h₁]
      rw [extendedEscape_eq env]
      rcases readByte T tty with ⟨_ | seq₂, tty⟩ <;> rfl
    · -- The first byte is no `O`, so the sequences `ESC O` are out of reach.
      have hO : seq₀ ≠ 0x4F := by rw [h₀]; decide
      simp only [if_neg h₁, if_neg hO]
      exact singleEscape_eq seq₁ _
  · simp only [if_neg h₀]
    exact altBinding_eq seq₀ _

/-- A round decodes a key, and performs its command. -/
theorem readKey_eq (env : Option (List Slots)) (e : Editor T) : readKey env e =
    perform env (decode T e.tty).1 { e with tty := (decode T e.tty).2 } := by
  rw [readKey, decode]
  rcases T.read e.tty with ⟨c | _ | _, tty⟩
  · by_cases hc : c = 27
    · simp only [if_pos hc]
      rw [hc]
      exact escape_eq { e with tty }
    · simp only [if_neg hc]
      exact handleKey_eq hc
  · rfl
  · rfl

end Decode

/-! ## Typed keys -/

/-- The command of the bytes of a key, if they are those of one key. -/
def command : Bytes → Option Command
  | [c] => if c = 0x1B then none else some (keyCommand c)
  | [0x1B, seq₀] => if seq₀ = 0x5B then none else some (altCommand seq₀)
  | [0x1B, 0x5B, seq₁] =>
    if 0x30 ≤ seq₁ ∧ seq₁ ≤ 0x39 then none else some (singleCommand seq₁)
  | [0x1B, 0x5B, seq₁, seq₂] =>
    if 0x30 ≤ seq₁ ∧ seq₁ ≤ 0x39 then some (extendedCommand seq₁ seq₂) else none
  | _ => none

/-- What is assumed of a terminal: what has been typed and not been read is a list of bytes,
    which are read in order; a write takes all it gets, and reads nothing. -/
structure Terminal.Works (T : Terminal) (typed : T.State → Bytes) : Prop where
  read {tty : T.State} {c : UInt8} {s : Bytes} (h : typed tty = c :: s) :
    ∃ tty', T.read tty = (.byte c, tty') ∧ typed tty' = s
  write_count (tty : T.State) (out : Bytes) : (T.write tty out).1 = out.length
  typed_write (tty : T.State) (out : Bytes) : typed (T.write tty out).2 = typed tty

section Typed

variable {typed : T.State → Bytes} (W : T.Works typed) {tty : T.State}

include W

theorem Terminal.Works.readByte {c : UInt8} {s : Bytes} (h : typed tty = c :: s) :
    ∃ tty', Line.readByte T tty = (some c, tty') ∧ typed tty' = s := by
  obtain ⟨tty', hread, htyped⟩ := W.read h
  exact ⟨tty', by rw [Line.readByte, hread], htyped⟩

theorem Terminal.Works.decode_key {c : UInt8} {rest : Bytes} (h : typed tty = c :: rest)
    (hc : c ≠ 0x1B) : ∃ tty', decode T tty = (keyCommand c, tty') ∧ typed tty' = rest := by
  obtain ⟨tty', hread, htyped⟩ := W.read h
  exact ⟨tty', by simp only [decode, hread, if_neg hc], htyped⟩

theorem Terminal.Works.decode_alt {seq₀ : UInt8} {rest : Bytes}
    (h : typed tty = 0x1B :: seq₀ :: rest) (h₀ : seq₀ ≠ 0x5B) :
    ∃ tty', decode T tty = (altCommand seq₀, tty') ∧ typed tty' = rest := by
  obtain ⟨tty₀, hread, h⟩ := W.read h
  obtain ⟨tty₁, hread₁, h⟩ := W.readByte h
  exact ⟨tty₁, by simp [decode, hread, decodeEscape, hread₁, h₀], h⟩

theorem Terminal.Works.decode_single {seq₁ : UInt8} {rest : Bytes}
    (h : typed tty = 0x1B :: 0x5B :: seq₁ :: rest) (h₁ : ¬(0x30 ≤ seq₁ ∧ seq₁ ≤ 0x39)) :
    ∃ tty', decode T tty = (singleCommand seq₁, tty') ∧ typed tty' = rest := by
  obtain ⟨tty₀, hread, h⟩ := W.read h
  obtain ⟨tty₁, hread₁, h⟩ := W.readByte h
  obtain ⟨tty₂, hread₂, h⟩ := W.readByte h
  exact ⟨tty₂, by simp [decode, hread, decodeEscape, hread₁, hread₂, h₁], h⟩

theorem Terminal.Works.decode_extended {seq₁ seq₂ : UInt8} {rest : Bytes}
    (h : typed tty = 0x1B :: 0x5B :: seq₁ :: seq₂ :: rest) (h₁ : 0x30 ≤ seq₁ ∧ seq₁ ≤ 0x39) :
    ∃ tty', decode T tty = (extendedCommand seq₁ seq₂, tty') ∧ typed tty' = rest := by
  obtain ⟨tty₀, hread, h⟩ := W.read h
  obtain ⟨tty₁, hread₁, h⟩ := W.readByte h
  obtain ⟨tty₂, hread₂, h⟩ := W.readByte h
  obtain ⟨tty₃, hread₃, h⟩ := W.readByte h
  exact ⟨tty₃, by simp [decode, hread, decodeEscape, hread₁, hread₂, hread₃, h₁], h⟩

/-- The bytes of a key that are typed are decoded as that key. -/
theorem decode_of_typed {k rest : Bytes} {c : Command} (hk : command k = some c)
    (h : typed tty = k ++ rest) : ∃ tty', decode T tty = (c, tty') ∧ typed tty' = rest := by
  fun_cases command k
  case case1 | case3 => simp [command] at hk
  case case5 h₁ | case8 h₁ => simp [command, h₁] at hk
  case case9 h₁ h₂ h₃ h₄ => simp [command] at hk
  case case2 hb =>
    obtain rfl := Option.some.inj ((if_neg hb).symm.trans hk)
    exact W.decode_key h hb
  case case4 h₀ =>
    obtain rfl := Option.some.inj ((if_neg h₀).symm.trans hk)
    exact W.decode_alt h h₀
  case case6 h₁ =>
    obtain rfl := Option.some.inj ((if_neg h₁).symm.trans hk)
    exact W.decode_single h h₁
  case case7 h₁ =>
    obtain rfl := Option.some.inj ((if_pos h₁).symm.trans hk)
    exact W.decode_extended h h₁

end Typed

/-! ## The keys of a session -/

/-- The key that is read in a round, if it reads one. -/
def Loop.key : Loop T → List Command
  | .reading e => [(decode T e.tty).1]
  | .returned _ _ => []

/-- The keys that are read in so many rounds. -/
def keysRead (env : Option (List Slots)) (e : Editor T) : ℕ → List Command
  | 0 => []
  | n + 1 =>
    match rounds env e n with
    | .ok l => keysRead env e n ++ l.key
    | .error _ => keysRead env e n

end PunyGui.Line
