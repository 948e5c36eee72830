import PunyGui.Line.Complete

/-!
# The loop of the line editor

`line` reads the keys and calls the code of each, until the line is entered or
given up. `janet_line_get` calls it for one line.

* `readKey`: one round of the loop, from one `read` of a key to the next.
* `rounds`: where the loop is after so many rounds.
* `janetLineGet`: a call of `janet_line_get`.
-/

namespace PunyGui.Line

open Text Libc Imp

variable {T : Terminal}

/-- Where the loop of `line` is: about to read the next key, or behind a return. -/
inductive Loop (T : Terminal)
  | reading (e : Editor T)
  | returned (code : ℤ) (e : Editor T)

/-- A byte of an escape sequence: none if `read` fails, and what the memory holds
    at the end of the input. -/
def readSeq (e : Editor T) : Option UInt8 × Editor T :=
  match T.read e.tty with
  | (.byte c, tty) => (some c, { e with tty })
  | (.eof, tty) => (some (T.junk tty), { e with tty })
  | (.error, tty) => (none, { e with tty })

/-- An extended escape sequence: `ESC [`, a digit and a third byte. -/
def extendedEscape (seq₁ : UInt8) (e : Editor T) : Outcome (Editor T) :=
  match readSeq e with
  | (none, e) => pure e
  | (some seq₂, e) =>
    if seq₂ = 0x7E then
      if seq₁ = 0x31 then khome e
      else if seq₁ = 0x33 then kdelete true e
      else if seq₁ = 0x34 then kend e
      else pure e
    else pure e

/-- The sequences `ESC O`. -/
def ss3Escape (e : Editor T) : Outcome (Editor T) :=
  match readSeq e with
  | (none, e) => pure e
  | (some seq₁, e) =>
    if seq₁ = 0x48 then khome e
    else if seq₁ = 0x46 then kend e
    else pure e

/-- The single escape sequences `ESC [`. -/
def singleEscape (seq₁ : UInt8) (e : Editor T) : Outcome (Editor T) :=
  if seq₁ = 0x41 then historymove 1 e
  else if seq₁ = 0x42 then historymove (-1) e
  else if seq₁ = 0x43 then kright e
  else if seq₁ = 0x44 then kleft e
  else if seq₁ = 0x48 then khome e
  else if seq₁ = 0x46 then kend e
  else pure e

/-- The bindings of alt with a key. -/
def altBinding (seq₀ : UInt8) (e : Editor T) : Outcome (Editor T) :=
  if seq₀ = 0x64 then kdeletew e
  else if seq₀ = 0x62 then kleftw e
  else if seq₀ = 0x66 then krightw e
  else if seq₀ = 0x2C then historymove historyMax e
  else if seq₀ = 0x2E then historymove (-historyMax) e
  else if seq₀ = 0x7F then kbackspacew e
  else pure e

/-- The code of the escape key. -/
def escape (e : Editor T) : Outcome (Editor T) :=
  match readSeq e with
  | (none, e) => pure e
  | (some seq₀, e) =>
    if seq₀ = 0x5B then
      match readSeq e with
      | (none, e) => pure e
      | (some seq₁, e) =>
        if 0x30 ≤ seq₁ ∧ seq₁ ≤ 0x39 then extendedEscape seq₁ e
        -- The condition is that of the source, which asks for the first byte again.
        else if seq₀ = 0x4F then ss3Escape e
        else singleEscape seq₁ e
    else altBinding seq₀ e

/-- The code of the keys that edit the line; a key without code does nothing. -/
def editKey (env : Option (List Slots)) (c : UInt8) (e : Editor T) : Outcome (Editor T) :=
  match c with
  | 1 => khome e
  | 2 => kleft e
  | 4 => kdelete true e
  | 5 => kend e
  | 6 => kright e
  | 127 | 8 => kbackspace true e
  | 9 => do
    let e ← kshowcomp env e
    refresh e
  | 11 => kkill e
  | 12 => do
    let e ← clear e
    refresh e
  | 14 => historymove (-1) e
  | 16 => historymove 1 e
  | 21 => kkillStart e
  | 23 => kbackspacew e
  -- The terminal leaves raw mode while the program is stopped.
  | 26 => refresh e
  | 27 => escape e
  | _ => pure e

/-- The switch of `line`. A `char` is signed: the bytes from 0x80 on are negative. -/
def handleKey (env : Option (List Slots)) (c : UInt8) (e : Editor T) : Outcome (Loop T) :=
  if c = 3 then pure (.returned (-1) (clearlines { e with sigintFlag := true }))
  else if c = 4 ∧ e.len = 0 then pure (.returned (-1) (clearlines e))
  else if c = 13 then pure (.returned 0 (clearlines e))
  else if 0x20 ≤ c ∧ c < 0x7F then do
    let (res, e) ← insert c true e
    pure (if res ≠ 0 then .returned (-1) e else .reading e)
  else do
    let e ← editKey env c e
    pure (.reading e)

/-- One round of the loop. -/
def readKey (env : Option (List Slots)) (e : Editor T) : Outcome (Loop T) :=
  match T.read e.tty with
  | (.byte c, tty) => handleKey env c { e with tty }
  | (_, tty) => pure (.returned (-1) { e with tty })

/-- The beginning of `line`, up to the loop. -/
def lineStart (e : Editor T) : Outcome (Loop T) := do
  let (cols, tty) ← getcols T e.tty
  let e := { e with tty, cols, len := 0, pos := 0, plen := e.prompt.length }
  let e ← e.store 0 0
  let e ← addhistory e
  let (res, tty) := T.write e.tty e.prompt
  pure (if res = -1 then .returned (-1) { e with tty } else .reading { e with tty })

/-- One more round, unless the loop has ended. -/
def round (env : Option (List Slots)) : Loop T → Outcome (Loop T)
  | .reading e => readKey env e
  | .returned code e => pure (.returned code e)

/-- `line`, up to so many rounds of its loop. -/
def rounds (env : Option (List Slots)) (e : Editor T) : ℕ → Outcome (Loop T)
  | 0 => lineStart e
  | n + 1 => do
    let l ← rounds env e n
    round env l

/-- `simpleline`: the bytes up to the end of the line. -/
def simpleline : Bytes → Bytes
  | [] => []
  | c :: s => if c = 0x0A then [c] else c :: simpleline s

/-- The globals at the beginning of `janet_line_get`. -/
def beginLine (p : Bytes) (e : Editor T) : Editor T := { e with prompt := cString p, historyi := 0 }

/-- The end of `janet_line_get`, behind `line`: the buffer, and the globals. -/
def endLine : Loop T → Outcome (Bytes × Editor T)
  | .reading _ => throw .fuel
  | .returned code e =>
    if code ≠ 0 then pure ([], e)
    else if 0 ≤ e.len ∧ e.len ≤ lineMax then do
      let line := (List.range e.len.toNat).map fun i : ℕ => e.buf i
      let e ← replacehistory e
      pure (line ++ [0x0A], e)
    else throw .fault

/-- Where `janet_line_get` reads from: a supported terminal in raw mode, on which
    `line` ends within so many rounds, or a file. -/
inductive Input
  | terminal (n : ℕ)
  | file (s : Bytes)

/-- `janet_line_get`. -/
def janetLineGet (env : Option (List Slots)) (p : Bytes) (input : Input) (e : Editor T) :
    Outcome (Bytes × Editor T) :=
  match input with
  | .terminal n => do
    let l ← rounds env (beginLine p e) n
    endLine l
  | .file s => pure (simpleline s, beginLine p e)

/-- The globals at the start of the program. -/
def initial (tty : T.State) : Editor T where
  tty
  prompt := [0x3E, 0x20]
  plen := 2
  cols := 80
  buf _ := 0
  len := 0
  pos := 0
  history _ := none
  historyCount := 0
  historyi := 0
  matchList := []
  linesBelow := 0
  sigintFlag := false

/-- The globals between calls of `janet_line_get`, with any prompts, environments
    and inputs; the program may use the terminal in between. -/
inductive Reachable : Editor T → Prop
  | initial (tty : T.State) : Reachable (initial tty)
  | call {e e' : Editor T} {env : Option (List Slots)} {p line : Bytes} {input : Input}
      (h : Reachable e) (hcall : janetLineGet env p input e = .ok (line, e')) : Reachable e'
  | other {e : Editor T} (tty : T.State) (h : Reachable e) : Reachable { e with tty }

end PunyGui.Line
