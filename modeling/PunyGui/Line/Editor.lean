import PunyGui.Imp
import PunyGui.Libc.Printf

/-!
# The line editor

The line that is edited, and the keys that change it, on a terminal in raw mode.

The global variables are the fields of `Editor`. The array `gbl_buf` and the
array `gbl_history` are functions, and every access of an editing function to
them is checked against their sizes. The functions `read`, `write` and `ioctl`
of the terminal are those of a `Terminal`, of which nothing is assumed; a write
that fails ends the program in `refresh`. An `int` is an integer: the sums of the
code stay in its range unless the prompt comes near the end of it.

What is printed on stderr, below the line, is left out, except for the number of
its lines.
-/

namespace PunyGui.Line

open Text Libc Imp

/-- `JANET_LINE_MAX`. -/
def lineMax : ℕ := 1024

/-- `JANET_MATCH_MAX`. -/
def matchMax : ℕ := 256

/-- `JANET_HISTORY_MAX`. -/
def historyMax : ℕ := 100

/-- The result of `read` for one byte: 1 with the byte, 0 or -1. -/
inductive Read
  | byte (c : UInt8)
  | eof
  | error

/-- A terminal. -/
structure Terminal where
  State : Type
  read : State → Read × State
  /-- `write`, which returns how many bytes it has written, or -1. -/
  write : State → Bytes → ℤ × State
  /-- The number of columns that `ioctl` returns, unless it fails. -/
  winsize : State → Option ℕ
  /-- What an uninitialized byte holds. -/
  junk : State → UInt8

/-- The global variables, and the state of the terminal. -/
structure Editor (T : Terminal) where
  tty : T.State
  prompt : Bytes
  plen : ℤ
  cols : ℤ
  buf : ℤ → UInt8
  len : ℤ
  pos : ℤ
  /-- The strings of `gbl_history`; a pointer to no string is none. -/
  history : ℤ → Option Bytes
  historyCount : ℤ
  historyi : ℤ
  /-- `gbl_matches`, up to `gbl_match_count`. -/
  matchList : List Bytes
  linesBelow : ℤ
  sigintFlag : Bool

variable {T : Terminal}

namespace Editor

/-- `gbl_buf[i]`. -/
def load (e : Editor T) (i : ℤ) : Outcome UInt8 := Imp.load lineMax e.buf i

/-- `gbl_buf[i] = c`. -/
def store (e : Editor T) (i : ℤ) (c : UInt8) : Outcome (Editor T) := do
  let buf ← Imp.store lineMax e.buf i c
  pure { e with buf }

/-- `memmove(gbl_buf + dst, gbl_buf + src, n)`. -/
def memmove (e : Editor T) (dst src n : ℤ) : Outcome (Editor T) := do
  let buf ← Imp.memmove lineMax e.buf dst src n
  pure { e with buf }

/-- The string in `gbl_buf`. -/
def cstring (e : Editor T) : Outcome Bytes := Imp.cstring lineMax e.buf

end Editor

/-! ## The terminal -/

/-- The part of the line that is shown: where it starts, its length, and the
    cursor in it. -/
structure Window where
  offset : ℤ
  len : ℤ
  pos : ℤ

/-- The first loop of `refresh`: the start moves on until the cursor is on screen. -/
def scroll (e : Editor T) : Outcome Window :=
  whileLoop (fun w => pure (decide (e.plen + w.pos ≥ e.cols)))
    (fun w => pure ⟨w.offset + 1, w.len - 1, w.pos - 1⟩)
    ((e.plen + e.pos - e.cols).toNat + 2) ⟨0, e.len, e.pos⟩

/-- The second loop: the end moves back until the rest is on screen. -/
def cut (e : Editor T) (w : Window) : Outcome Window :=
  whileLoop (fun w => pure (decide (e.plen + w.len > e.cols)))
    (fun w => pure { w with len := w.len - 1 }) ((e.plen + w.len - e.cols).toNat + 1) w

/-- The bytes that `refresh` writes, for a length that is not negative. -/
def refreshBytes (e : Editor T) (w : Window) : Bytes :=
  [0x0D] ++ e.prompt ++ ((List.range w.len.toNat).map fun i : ℕ => e.buf (w.offset + i)) ++
    [0x1B, 0x5B, 0x30, 0x4B] ++ [0x0D, 0x1B, 0x5B] ++ formatInt (w.pos + e.plen) ++ [0x43]

/-- `refresh`. A prompt that fills the screen makes the length negative, which
    `janet_buffer_push_bytes` gets as it is. -/
def refresh (e : Editor T) : Outcome (Editor T) := do
  let w ← scroll e
  let w ← cut e w
  if w.len < 0 then throw .crash
  else
    let (res, tty) := T.write e.tty (refreshBytes e w)
    if res = -1 then throw .exit else pure { e with tty }

/-- The loop of `curpos`: the bytes up to the letter `R`, at most so many. -/
def readReport (T : Terminal) : ℕ → T.State → Bytes × T.State
  | 0, tty => ([], tty)
  | n + 1, tty =>
    match T.read tty with
    | (.byte c, tty) =>
      if c = 0x52 then ([], tty)
      else
        let (cs, tty) := readReport T n tty
        (c :: cs, tty)
    | (_, tty) => ([], tty)

/-- `%d` of `sscanf`: the number is read as a `long`, and stored as an `int`. -/
def scanInt (s : Bytes) : Option (ℤ × Bytes) :=
  let (_, digits) := scanSign (s.dropWhile isspace)
  if digits.takeWhile isdigit = [] then none
  else some (Int.bmod (strtoll s) (2 ^ 32), digits.dropWhile isdigit)

/-- The column in a report `ESC [ rows ; cols`, which ends with the first zero byte. -/
def reportCols (report : Bytes) : Option ℤ :=
  match cString report with
  | 0x1B :: 0x5B :: s =>
    match scanInt s with
    | some (_, 0x3B :: s) => (scanInt s).map Prod.fst
    | _ => none
  | _ => none

/-- `curpos`. -/
def curpos (T : Terminal) (tty : T.State) : ℤ × T.State :=
  let (res, tty) := T.write tty [0x1B, 0x5B, 0x36, 0x6E]
  if res ≠ 4 then (-1, tty)
  else
    let (report, tty) := readReport T 31 tty
    ((reportCols report).getD (-1), tty)

/-- `getcols`. -/
def getcols (T : Terminal) (tty : T.State) : Outcome (ℤ × T.State) :=
  match T.winsize tty with
  | some (n + 1) => pure (n + 1, tty)
  | _ =>
    let (start, tty) := curpos T tty
    if start = -1 then pure (80, tty)
    else
      let (res, tty) := T.write tty [0x1B, 0x5B, 0x39, 0x39, 0x39, 0x43]
      if res ≠ 6 then pure (80, tty)
      else
        let (cols, tty) := curpos T tty
        if cols = -1 then pure (80, tty)
        else if cols > start then
          let (res, tty) := T.write tty ([0x1B, 0x5B] ++ formatInt (cols - start) ++ [0x44])
          if res = -1 then throw .exit else pure (cols, tty)
        else pure (cols, tty)

/-- `clear`. -/
def clear (e : Editor T) : Outcome (Editor T) :=
  let (res, tty) := T.write e.tty [0x1B, 0x5B, 0x48, 0x1B, 0x5B, 0x32, 0x4A]
  if res ≤ 0 then throw .exit else pure { e with tty }

/-- `clearlines`. -/
def clearlines (e : Editor T) : Editor T := { e with linesBelow := 0 }

/-! ## Editing -/

/-- `if (draw) refresh();` -/
def redraw (draw : Bool) (e : Editor T) : Outcome (Editor T) := if draw then refresh e else pure e

/-- `insert`. -/
def insert (c : UInt8) (draw : Bool) (e : Editor T) : Outcome (ℤ × Editor T) :=
  if e.len < lineMax - 1 then
    if e.len = e.pos then do
      let e ← e.store e.pos c
      let e := { e with pos := e.pos + 1, len := e.len + 1 }
      let e ← e.store e.len 0
      if draw ∧ e.plen + e.len < e.cols then
        let (res, tty) := T.write e.tty [c]
        pure (if res = -1 then -1 else 0, { e with tty })
      else
        let e ← redraw draw e
        pure (0, e)
    else do
      let e ← e.memmove (e.pos + 1) e.pos (e.len - e.pos)
      let e ← e.store e.pos c
      let e := { e with pos := e.pos + 1, len := e.len + 1 }
      let e ← e.store e.len 0
      let e ← redraw draw e
      pure (0, e)
  else pure (0, e)

/-- `kleft`. -/
def kleft (e : Editor T) : Outcome (Editor T) :=
  if e.pos > 0 then refresh { e with pos := e.pos - 1 } else pure e

/-- `kright`. -/
def kright (e : Editor T) : Outcome (Editor T) :=
  if e.pos ≠ e.len then refresh { e with pos := e.pos + 1 } else pure e

/-- `while (gbl_pos > 0 && p(gbl_buf[gbl_pos - 1])) gbl_pos--;` -/
def backWhile (p : UInt8 → Bool) (e : Editor T) : Outcome (Editor T) :=
  whileLoop (fun e => if e.pos > 0 then p <$> e.load (e.pos - 1) else pure false)
    (fun e => pure { e with pos := e.pos - 1 }) lineMax e

/-- `kleftw`. -/
def kleftw (e : Editor T) : Outcome (Editor T) := do
  let e ← backWhile isspace e
  let e ← backWhile (!isspace ·) e
  refresh e

/-- `while (gbl_pos != gbl_len && p(gbl_buf[gbl_pos])) gbl_pos++;` -/
def forthWhile (p : UInt8 → Bool) (e : Editor T) : Outcome (Editor T) :=
  whileLoop (fun e => if e.pos ≠ e.len then p <$> e.load e.pos else pure false)
    (fun e => pure { e with pos := e.pos + 1 }) lineMax e

/-- `krightw`. -/
def krightw (e : Editor T) : Outcome (Editor T) := do
  let e ← forthWhile (!isspace ·) e
  let e ← forthWhile isspace e
  refresh e

/-- `kbackspace`. -/
def kbackspace (draw : Bool) (e : Editor T) : Outcome (Editor T) :=
  if e.pos > 0 then do
    let e ← e.memmove (e.pos - 1) e.pos (e.len - e.pos)
    let e := { e with pos := e.pos - 1, len := e.len - 1 }
    let e ← e.store e.len 0
    redraw draw e
  else pure e

/-- `kdelete`. -/
def kdelete (draw : Bool) (e : Editor T) : Outcome (Editor T) :=
  if e.pos ≠ e.len then do
    let e ← e.memmove e.pos (e.pos + 1) (e.len - e.pos)
    let e := { e with len := e.len - 1 }
    let e ← e.store e.len 0
    redraw draw e
  else pure e

/-- `while (gbl_pos && p(gbl_buf[gbl_pos - 1])) kbackspace(0);` -/
def backspaceWhile (p : UInt8 → Bool) (e : Editor T) : Outcome (Editor T) :=
  whileLoop (fun e => if e.pos ≠ 0 then p <$> e.load (e.pos - 1) else pure false)
    (kbackspace false) lineMax e

/-- `kbackspacew`. -/
def kbackspacew (e : Editor T) : Outcome (Editor T) := do
  let e ← backspaceWhile isspace e
  let e ← backspaceWhile (!isspace ·) e
  refresh e

/-- `while (gbl_pos < gbl_len && p(gbl_buf[gbl_pos])) kdelete(0);` -/
def deleteWhile (p : UInt8 → Bool) (e : Editor T) : Outcome (Editor T) :=
  whileLoop (fun e => if e.pos < e.len then p <$> e.load e.pos else pure false)
    (kdelete false) lineMax e

/-- `kdeletew`. -/
def kdeletew (e : Editor T) : Outcome (Editor T) := do
  let e ← deleteWhile isspace e
  let e ← deleteWhile (!isspace ·) e
  refresh e

/-- The code of ctrl-k. -/
def kkill (e : Editor T) : Outcome (Editor T) := do
  let e ← e.store e.pos 0
  refresh { e with len := e.pos }

/-- The code of ctrl-u. -/
def kkillStart (e : Editor T) : Outcome (Editor T) := do
  let e ← e.memmove 0 e.pos (e.len - e.pos)
  let e := { e with len := e.len - e.pos }
  let e ← e.store e.len 0
  refresh { e with pos := 0 }

/-- The code of ctrl-a and the Home keys. -/
def khome (e : Editor T) : Outcome (Editor T) := refresh { e with pos := 0 }

/-- The code of ctrl-e and the End keys. -/
def kend (e : Editor T) : Outcome (Editor T) := refresh { e with pos := e.len }

/-! ## History -/

/-- Reading or freeing the string at `gbl_history[i]`, which has to be one. -/
def historyEntry (e : Editor T) (i : ℤ) : Outcome Bytes := do
  match ← Imp.load historyMax e.history i with
  | some s => pure s
  | none => throw .fault

/-- `gbl_history[i] = s`. -/
def storeHistory (e : Editor T) (i : ℤ) (s : Bytes) : Outcome (Editor T) := do
  let history ← Imp.store historyMax e.history i (some s)
  pure { e with history }

/-- `historymove`. -/
def historymove (delta : ℤ) (e : Editor T) : Outcome (Editor T) :=
  if e.historyCount > 1 then do
    let _ ← historyEntry e e.historyi
    let s ← e.cstring
    let e ← storeHistory e e.historyi s
    let i := e.historyi + delta
    let historyi := if i < 0 then 0 else if i ≥ e.historyCount then e.historyCount - 1 else i
    let e := { e with historyi }
    let s ← historyEntry e e.historyi
    let buf ← strncpy lineMax e.buf s (lineMax - 1)
    let e := { e with buf }
    let s ← e.cstring
    let e := { e with pos := s.length, len := s.length }
    let e ← e.store e.len 0
    refresh e
  else pure e

/-- `for (i = k; i > 0; i--) gbl_history[i] = gbl_history[i - 1];` -/
def shiftUp {α : Type} : ℕ → (ℤ → α) → Outcome (ℤ → α)
  | 0, history => pure history
  | k + 1, history => do
    let s ← Imp.load historyMax history k
    let history ← Imp.store historyMax history (k + 1) s
    shiftUp k history

/-- `addhistory`. -/
def addhistory (e : Editor T) : Outcome (Editor T) := do
  let newline ← e.cstring
  let (len, e) ←
    if e.historyCount < historyMax then do
      let e' ← storeHistory e e.historyCount newline
      pure (e.historyCount + 1, { e' with historyCount := e.historyCount + 1 })
    else do
      let _ ← historyEntry e (historyMax - 1)
      pure (e.historyCount, e)
  let history ← shiftUp (len - 1).toNat e.history
  storeHistory { e with history } 0 newline

/-- `for (i = k + 1; i < k + 1 + n; i++) gbl_history[i - 1] = gbl_history[i];` -/
def shiftDown {α : Type} : ℕ → ℕ → (ℤ → α) → Outcome (ℤ → α)
  | 0, _, history => pure history
  | n + 1, k, history => do
    let s ← Imp.load historyMax history (k + 1)
    let history ← Imp.store historyMax history k s
    shiftDown n (k + 1) history

/-- The condition of `replacehistory`: the line is empty, or the one entered before. -/
def repeatsHistory (e : Editor T) : Outcome Bool :=
  if e.len = 0 then pure true
  else if e.historyCount > 1 then do
    let s ← e.cstring
    let s' ← historyEntry e 1
    pure (decide (s = s'))
  else pure false

/-- `replacehistory`. -/
def replacehistory (e : Editor T) : Outcome (Editor T) := do
  if ← repeatsHistory e then
    let _ ← historyEntry e 0
    let history ← shiftDown (e.historyCount - 1).toNat 0 e.history
    pure { e with history, historyCount := e.historyCount - 1 }
  else
    let newline ← e.cstring
    let _ ← historyEntry e 0
    storeHistory e 0 newline

end PunyGui.Line
