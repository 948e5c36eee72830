import PunyGui.Janet
import PunyGui.Line.Editor

/-!
# Completion

`kshowcomp`, the code of the tab key: it collects the symbols that start with the
symbol before the cursor, inserts what they have in common, and counts the lines
on which it shows them.

The environment is the chain of a table and its prototypes, each given by its
slots. Symbols may have any bytes, also zero bytes.
-/

namespace PunyGui.Line

open Text Libc Imp

variable {T : Terminal}

/-- `is_symbol_char_gen`. -/
def isSymbolCharGen (c : UInt8) : Bool :=
  0x80 ≤ c || isalpha c || isdigit c ||
    -- `!`, `$` to `&`, `*`, `+`, `-` to `/`, `:`, `<` to `@`, `^` and `_`.
    c == 0x21 || c == 0x24 || c == 0x25 || c == 0x26 || c == 0x2A || c == 0x2B || c == 0x2D ||
    c == 0x2E || c == 0x2F || c == 0x3A || c == 0x3C || c == 0x3F || c == 0x3D || c == 0x3E ||
    c == 0x40 || c == 0x5E || c == 0x5F

/-- The loop of `get_symprefix`: the symbol characters before cell `n`. -/
def symprefixBefore (e : Editor T) : ℕ → Outcome Bytes
  | 0 => pure []
  | n + 1 => do
    let c ← e.load n
    if isSymbolCharGen c then
      let s ← symprefixBefore e n
      pure (s ++ [c])
    else pure []

/-- `get_symprefix`. -/
def getSymprefix (e : Editor T) : Outcome Bytes := symprefixBefore e e.pos.toNat

/-- `strncmp`, for arrays of at least `n` bytes. -/
def strncmp : ℕ → Bytes → Bytes → ℤ
  | n + 1, a :: as, b :: bs =>
    if a ≠ b then (a.toNat : ℤ) - b.toNat else if a = 0 then 0 else strncmp n as bs
  | _, _, _ => 0

/-- `compare_bytes`. -/
def compareBytes (a b : Bytes) : ℤ :=
  let result := strncmp (min a.length b.length) a b
  if result ≠ 0 then result
  else if a.length < b.length then -1
  else if a.length > b.length then 1
  else 0

/-- The loop of `check_match`: `mm` takes the place of the matches it is smaller
    than, and what is left over in the end is returned with the matches. -/
def placeMatch (mm : Bytes) : List Bytes → Bytes × List Bytes
  | [] => (mm, [])
  | m :: ms =>
    if compareBytes mm m < 0 then
      let (last, ms) := placeMatch m ms
      (last, mm :: ms)
    else
      let (last, ms) := placeMatch mm ms
      (last, m :: ms)

/-- `check_match`. -/
def checkMatch (src : Bytes) (ms : List Bytes) (test : Bytes) : List Bytes :=
  if src.length > test.length ∨ strncmp src.length src test ≠ 0 then ms
  else
    let (last, ms) := placeMatch test ms
    if ms.length = matchMax then ms else ms ++ [last]

/-- The names that `check_specials` checks. -/
def specials : List Bytes :=
  List.map ascii [
    ['b', 'r', 'e', 'a', 'k'],
    ['d', 'e', 'f'],
    ['d', 'o'],
    ['f', 'n'],
    ['i', 'f'],
    ['q', 'u', 'a', 's', 'i', 'q', 'u', 'o', 't', 'e'],
    ['q', 'u', 'o', 't', 'e'],
    ['s', 'e', 't'],
    ['s', 'p', 'l', 'i', 'c', 'e'],
    ['u', 'n', 'q', 'u', 'o', 't', 'e'],
    ['v', 'a', 'r'],
    ['w', 'h', 'i', 'l', 'e']]

/-- The symbols among the keys of a table. -/
def symbols (kvs : Slots) : List Bytes :=
  kvs.filterMap fun kv =>
    match kv.1 with
    | .symbol sym => some sym
    | _ => none

/-- All matches, of the tables in the chain and of `check_specials`. -/
def findMatches (src : Bytes) (env : List Slots) : List Bytes :=
  specials.foldl (checkMatch src) ((env.flatMap symbols).foldl (checkMatch src) [])

/-- The bytes that two views have in common at their start. -/
def commonPrefix : Bytes → Bytes → Bytes
  | a :: as, b :: bs => if a = b then a :: commonPrefix as bs else []
  | _, _ => []

/-- `longest_common_prefix`. -/
def longestCommonPrefix : List Bytes → Bytes
  | [] => []
  | m :: ms => (m :: ms).foldl commonPrefix m

/-- `for (...) insert(c, 0);` -/
def insertAll (s : Bytes) (e : Editor T) : Outcome (Editor T) :=
  s.foldlM (fun e c => do
    let (_, e) ← insert c false e
    pure e) e

/-- How many lines the second pass of `kshowcomp` begins, from a column on. -/
def countLines (cols : ℤ) : ℕ → ℤ → ℤ
  | 0, _ => 0
  | n + 1, current =>
    (if current = 0 then 1 else 0) + countLines cols n (Int.tmod (current + 1) cols)

/-- The end of `kshowcomp`: the matches are shown below the line. -/
def showMatches (e : Editor T) : Outcome (Editor T) := do
  let maxlen := e.matchList.foldl (fun n m => max n m.length) 0
  let (numCols, tty) ← getcols T e.tty
  let e := clearlines { e with tty }
  if e.matchList.length ≥ 2 then
    let cols := Int.tdiv numCols (maxlen + 4)
    let cols := if cols = 0 then 1 else cols
    pure { e with linesBelow := e.linesBelow + countLines cols e.matchList.length 0 }
  else pure e

/-- `kshowcomp`, with the environment `gbl_complete_env`, which may be NULL. -/
def kshowcomp (env : Option (List Slots)) (e : Editor T) : Outcome (Editor T) :=
  match env with
  | none => insertAll [0x20, 0x20] e
  | some tables => do
    let e ← whileLoop (fun e => isSymbolCharGen <$> e.load e.pos)
      (fun e => pure { e with pos := e.pos + 1 }) lineMax e
    let src ← getSymprefix e
    if src.length = 0 then pure e
    else
      let e := { e with matchList := findMatches src tables }
      let lcp := longestCommonPrefix e.matchList
      let e ← insertAll (lcp.drop src.length) e
      if e.linesBelow = 0 ∧ src.length ≠ lcp.length then pure e
      else showMatches e

end PunyGui.Line
