import PunyGui.Blocks
import PunyGui.Line.Navigation

/-!
# The memory of the history

The strings of the history are blocks that `sdup` allocates. Here the array has the pointers
to them, and they are freed as the code does it. A string is read from its block; the values in
the history of the editor go along, and nothing here reads them.

* `Memory`: the blocks, and the pointers of `gbl_history`.
* `Memory.historymove`, `addhistory`, `replacehistory`: the functions, with the memory.
* `Memory.Has`: the blocks are the strings of the history, each at its own pointer.
* `rounds_memory`: with the memory, the keys of a session do what they do without it, and none
  reads or frees what has been freed.
* `memory_of_reachable`: nor does any call; at the end of the program every block is freed.
-/

namespace PunyGui.Line

open Text Libc Imp

variable {T : Terminal}

/-- The blocks, and the pointers of `gbl_history`; a null pointer is none. -/
structure Memory where
  blocks : Blocks Bytes
  history : ℤ → Option ℕ

namespace Memory

/-- `sdup`, as long as `malloc` returns a block. -/
def sdup (m : Memory) (s : Bytes) : Option ℕ × Memory :=
  (some (m.blocks.alloc s).1, { m with blocks := (m.blocks.alloc s).2 })

/-- `free`. -/
def free (m : Memory) : Option ℕ → Outcome Memory
  | none => pure m
  | some p =>
    match m.blocks.free p with
    | some blocks => pure { m with blocks }
    | none => throw .fault

/-- The string at a pointer. -/
def string (m : Memory) (p : Option ℕ) : Outcome Bytes :=
  match p.bind m.blocks.read with
  | some s => pure s
  | none => throw .fault

/-- `free(gbl_history[i])`. -/
def freeEntry (m : Memory) (i : ℤ) : Outcome Memory := do
  let p ← Imp.load historyMax m.history i
  m.free p

/-- The string at `gbl_history[i]`. -/
def entry (m : Memory) (i : ℤ) : Outcome Bytes := do
  let p ← Imp.load historyMax m.history i
  m.string p

/-- `gbl_history[i] = p`. -/
def setEntry (m : Memory) (i : ℤ) (p : Option ℕ) : Outcome Memory := do
  let history ← Imp.store historyMax m.history i p
  pure { m with history }

/-- `historymove`. -/
def historymove (delta : ℤ) (e : Editor T) (m : Memory) : Outcome (Editor T × Memory) :=
  if e.historyCount > 1 then do
    let m ← m.freeEntry e.historyi
    let s ← e.cstring
    let (p, m) := m.sdup s
    let m ← m.setEntry e.historyi p
    let e ← storeHistory e e.historyi s
    let i := e.historyi + delta
    let historyi := if i < 0 then 0 else if i ≥ e.historyCount then e.historyCount - 1 else i
    let e := { e with historyi }
    let s ← m.entry e.historyi
    let buf ← strncpy lineMax e.buf s (lineMax - 1)
    let e := { e with buf }
    let s ← e.cstring
    let e := { e with pos := s.length, len := s.length }
    let e ← e.store e.len 0
    let e ← refresh e
    pure (e, m)
  else pure (e, m)

/-- `addhistory`. -/
def addhistory (e : Editor T) (m : Memory) : Outcome (Editor T × Memory) := do
  let s ← e.cstring
  let (newline, m) := m.sdup s
  let (len, e, m) ←
    if e.historyCount < historyMax then do
      let m ← m.setEntry e.historyCount newline
      let e' ← storeHistory e e.historyCount s
      pure (e.historyCount + 1, { e' with historyCount := e.historyCount + 1 }, m)
    else do
      let m ← m.freeEntry (historyMax - 1)
      pure (e.historyCount, e, m)
  let history ← shiftUp (len - 1).toNat m.history
  let values ← shiftUp (len - 1).toNat e.history
  let m ← setEntry { m with history } 0 newline
  let e ← storeHistory { e with history := values } 0 s
  pure (e, m)

/-- The condition of `replacehistory`. -/
def repeatsHistory (e : Editor T) (m : Memory) : Outcome Bool :=
  if e.len = 0 then pure true
  else if e.historyCount > 1 then do
    let s ← e.cstring
    let s' ← m.entry 1
    pure (decide (s = s'))
  else pure false

/-- `replacehistory`. -/
def replacehistory (e : Editor T) (m : Memory) : Outcome (Editor T × Memory) := do
  if ← m.repeatsHistory e then
    let m ← m.freeEntry 0
    let history ← shiftDown (e.historyCount - 1).toNat 0 m.history
    let values ← shiftDown (e.historyCount - 1).toNat 0 e.history
    pure ({ e with history := values, historyCount := e.historyCount - 1 }, { m with history })
  else
    let s ← e.cstring
    let (newline, m) := m.sdup s
    let m ← m.freeEntry 0
    let m ← m.setEntry 0 newline
    let e ← storeHistory e 0 s
    pure (e, m)

/-- `for (i = k; i < k + n; i++) free(gbl_history[i]);` -/
def freeAll : ℕ → ℕ → Memory → Outcome Memory
  | 0, _, m => pure m
  | n + 1, k, m => do
    let m ← m.freeEntry k
    freeAll n (k + 1) m

/-- What `janet_line_deinit` does to the memory. -/
def janetLineDeinit (e : Editor T) (m : Memory) : Outcome Memory :=
  freeAll e.historyCount.toNat 0 m

/-- The code of a key. -/
def perform (env : Option (List Slots)) (m : Memory) (e : Editor T) :
    Command → Outcome (Loop T × Memory)
  | .move delta => do
    let (e, m) ← historymove delta e m
    pure (.reading e, m)
  | c => do
    let l ← Line.perform env c e
    pure (l, m)

end Memory

/-! ## Runs -/

/-- The beginning of `line`, with the memory. -/
def lineStartMemory (e : Editor T) (m : Memory) : Outcome (Loop T × Memory) := do
  let (cols, tty) ← getcols T e.tty
  let e := { e with tty, cols, len := 0, pos := 0, plen := e.prompt.length }
  let e ← e.store 0 0
  let (e, m) ← m.addhistory e
  let (res, tty) := T.write e.tty e.prompt
  pure (if res = -1 then .returned (-1) { e with tty } else .reading { e with tty }, m)

/-- `line` up to so many rounds of its loop, with the memory. -/
def roundsMemory (env : Option (List Slots)) (e : Editor T) (m : Memory) :
    ℕ → Outcome (Loop T × Memory)
  | 0 => lineStartMemory e m
  | n + 1 => do
    let (l, m) ← roundsMemory env e m n
    match l with
    | .returned code e => pure (.returned code e, m)
    | .reading e =>
      let (c, tty) := decode T e.tty
      m.perform env { e with tty } c

/-- The end of `janet_line_get`, with the memory. -/
def endLineMemory : Loop T → Memory → Outcome ((Bytes × Editor T) × Memory)
  | .reading _, _ => throw .fuel
  | .returned code e, m =>
    if code ≠ 0 then pure (([], e), m)
    else if 0 ≤ e.len ∧ e.len ≤ lineMax then do
      let line := (List.range e.len.toNat).map fun i : ℕ => e.buf i
      let (e, m) ← m.replacehistory e
      pure ((line ++ [0x0A], e), m)
    else throw .fault

/-- `janet_line_get`, with the memory. -/
def janetLineGetMemory (env : Option (List Slots)) (p : Bytes) (input : Input) (e : Editor T)
    (m : Memory) : Outcome ((Bytes × Editor T) × Memory) :=
  match input with
  | .terminal n => do
    let (l, m) ← roundsMemory env (beginLine p e) m n
    endLineMemory l m
  | .file s => pure ((simpleline s, beginLine p e), m)

/-- The globals and the memory between the calls. -/
inductive ReachableMemory : Editor T → Memory → Prop
  | initial (tty : T.State) : ReachableMemory (initial tty) ⟨.empty, fun _ => none⟩
  | call {e e' : Editor T} {m m' : Memory} {env : Option (List Slots)} {p line : Bytes}
      {input : Input} (h : ReachableMemory e m)
      (hcall : janetLineGetMemory env p input e m = .ok ((line, e'), m')) : ReachableMemory e' m'
  | other {e : Editor T} {m : Memory} (tty : T.State) (h : ReachableMemory e m) :
      ReachableMemory { e with tty } m

/-! ## Pointers -/

/-- The array has the addresses of the list. -/
def Points (history : ℤ → Option ℕ) (l : List (ℕ × Bytes)) : Prop :=
  ∀ (i : ℕ) (hi : i < l.length), history i = some l[i].1

section Points

variable {history : ℤ → Option ℕ} {l : List (ℕ × Bytes)} {x : ℕ × Bytes}

theorem Points.set (h : Points history l) (i : ℕ) :
    Points (Function.update history i (some x.1)) (l.set i x) := by
  intro j hj
  rw [List.length_set] at hj
  rw [List.getElem_set, Function.update_apply]
  by_cases hij : i = j
  · rw [if_pos (by rw [hij]), if_pos hij]
  · rw [if_neg (by omega), if_neg hij, h j hj]

/-- A pointer that is stored behind those of the list. -/
theorem Points.update (h : Points history l) {i : ℤ} (hi : l.length ≤ i) (p : Option ℕ) :
    Points (Function.update history i p) l := by
  intro j hj
  rw [Function.update_of_ne (by omega), h j hj]

/-- A pointer in front of those that are moved up. -/
theorem Points.push (h : Points history l) {k : ℕ} (hk : k ≤ l.length) :
    Points (Function.update (fun i => if 1 ≤ i ∧ i ≤ k then history (i - 1) else history i)
      0 (some x.1)) (x :: l.take k) := by
  intro i hi
  rw [List.length_cons, List.length_take, Nat.min_eq_left hk] at hi
  cases i with
  | zero => exact Function.update_self ..
  | succ i =>
    rw [Function.update_of_ne (by omega), if_pos (by omega), List.getElem_cons_succ,
      List.getElem_take, ← h i (by omega)]
    congr 1
    omega

/-- The first pointer is left out. -/
theorem Points.pop (h : Points history (x :: l)) :
    Points (fun i => if 0 ≤ i ∧ i < (0 : ℕ) + (l.length : ℕ) then history (i + 1)
      else history i) l := by
  intro i hi
  dsimp only
  rw [if_pos (by omega), ← List.getElem_cons_succ x l i (Nat.succ_lt_succ hi),
    ← h _ (Nat.succ_lt_succ hi)]
  push_cast
  rfl

end Points

/-! ## The functions of the history -/

/-- The blocks are the strings of the list, and the history has the pointers to them. -/
structure Memory.Has (m : Memory) (l : List (ℕ × Bytes)) : Prop where
  blocks : m.blocks.Has l
  points : Points m.history l

namespace Memory

variable {e : Editor T} {m : Memory} {l : List (ℕ × Bytes)} {s : Bytes}

/-- The string at an index of the history is freed. -/
theorem freeEntry_eq {blocks : Blocks Bytes} {history : ℤ → Option ℕ} (hblocks : blocks.Has l)
    {i : ℤ} (h₀ : 0 ≤ i) (h₁ : i < historyMax) {k : ℕ} (hk : k < l.length)
    (hi : history i = some l[k].1) :
    ∃ blocks', freeEntry ⟨blocks, history⟩ i = .ok ⟨blocks', history⟩ ∧
      blocks'.Has (l.eraseIdx k) := by
  obtain ⟨blocks', hfree, hhas⟩ :=
    (hblocks.perm (List.getElem_cons_eraseIdx_perm hk).symm).free
  refine ⟨blocks', ?_, hhas⟩
  have hfree' : blocks.free l[k].1 = some blocks' := hfree
  rw [freeEntry, Imp.load_eq h₀ h₁, ok_bind]
  dsimp only
  rw [hi, free, hfree']
  rfl

/-- Reading a string of the history. -/
theorem Has.entry_eq (h : m.Has l) {i : ℕ} (hi : i < l.length) (hle : l.length ≤ historyMax) :
    m.entry i = .ok l[i].2 := by
  have hread : m.blocks.read l[i].1 = some l[i].2 := h.blocks.read (List.getElem_mem hi)
  rw [Memory.entry, Imp.load_eq (Int.natCast_nonneg i) (by omega), ok_bind, h.points i hi, string,
    Option.bind_some, hread]
  rfl

theorem setEntry_eq {i : ℤ} (h₀ : 0 ≤ i) (h₁ : i < historyMax) (p : Option ℕ) :
    m.setEntry i p = .ok { m with history := Function.update m.history i p } := by
  rw [setEntry, Imp.store_eq h₀ h₁]
  rfl

/-- The line takes the place of the string at the index, whose block is freed, and becomes
    the string that is read from the block it moves to. -/
theorem Has.historymove (h : m.Has l) (hle : l.length ≤ historyMax)
    (hH : Lists e.history e.historyCount (l.map Prod.snd)) (hmany : 1 < l.length) {i : ℕ}
    (hindex : e.historyi = i) (hi : i < l.length) (hs : e.cstring = .ok s) (delta : ℤ) :
    ∃ m' p, historymove delta e m = (fun e' => (e', m')) <$> Line.historymove delta e ∧
      m'.Has (l.set i (p, s)) := by
  have hcount := hH.count_eq
  rw [List.length_map] at hcount
  obtain ⟨blocks, hfree, hblocks⟩ := freeEntry_eq h.blocks
    (Int.natCast_nonneg i) (by omega) hi (h.points i hi)
  obtain ⟨p, blocks', hp⟩ : ∃ p blocks', blocks.alloc s = (p, blocks') := ⟨_, _, rfl⟩
  have halloc := hblocks.alloc s
  rw [hp] at halloc
  have hhas : Memory.Has ⟨blocks', Function.update m.history i (some p)⟩ (l.set i (p, s)) :=
    ⟨halloc.perm (List.set_perm_cons_eraseIdx hi _).symm, h.points.set i⟩
  -- Where it moves to.
  obtain ⟨j, hj, htarget⟩ : ∃ j : ℕ, j < l.length ∧ (if (i : ℤ) + delta < 0 then 0
      else if (i : ℤ) + delta ≥ e.historyCount then e.historyCount - 1 else (i : ℤ) + delta) =
        j := by
    have hpos := Int.toNat_of_nonneg (a := if (i : ℤ) + delta < 0 then 0
      else if (i : ℤ) + delta ≥ e.historyCount then e.historyCount - 1 else (i : ℤ) + delta)
      (by split_ifs <;> omega)
    refine ⟨_, ?_, hpos.symm⟩
    split_ifs <;> omega
  -- The block there has the string that the history has.
  have hset := hH.set (i := i) s
  rw [show (l.map Prod.snd).set i s = (l.set i (p, s)).map Prod.snd from
    (List.map_set (f := Prod.snd) (a := (p, s))).symm] at hset
  have hlength : (l.set i (p, s)).length = l.length := List.length_set
  have hvalue := historyEntry_eq
    (e := { e with history := Function.update e.history i (some s), historyi := j }) hset (i := j)
    (by rwa [List.length_map, hlength]) (by rwa [List.length_map, hlength])
  rw [List.getElem_map] at hvalue
  have hentry := hhas.entry_eq (i := j) (hlength ▸ hj) (hlength ▸ hle)
  have hold := historyEntry_eq hH (i := i) (by rwa [List.length_map]) (by rwa [List.length_map])
  refine ⟨_, p, ?_, hhas⟩
  rw [Memory.historymove, Line.historymove, if_pos (by omega), if_pos (by omega), hindex, hold,
    ok_bind, show m = ⟨m.blocks, m.history⟩ from rfl, hfree, ok_bind, hs, ok_bind, ok_bind]
  simp only [sdup, hp]
  rw [setEntry_eq (Int.natCast_nonneg i) (by omega), ok_bind,
    storeHistory_eq (Int.natCast_nonneg i) (by omega), ok_bind, ok_bind]
  simp only [hindex, htarget]
  rw [hentry, hvalue, ok_bind, ok_bind]
  simp only [map_eq_pure_bind, bind_assoc]

/-- The line goes in front of the history, and the last string of a full one is freed. -/
theorem Has.addhistory (h : m.Has l) (hle : l.length ≤ historyMax)
    (hH : Lists e.history e.historyCount (l.map Prod.snd)) (hs : e.cstring = .ok s) :
    ∃ m' p, addhistory e m = (fun e' => (e', m')) <$> Line.addhistory e ∧
      m'.Has ((p, s) :: l.take (historyMax - 1)) := by
  have hmax : historyMax = 100 := rfl
  have hcount := hH.count_eq
  rw [List.length_map] at hcount
  obtain ⟨p, blocks, hp⟩ : ∃ p blocks, m.blocks.alloc s = (p, blocks) := ⟨_, _, rfl⟩
  have halloc := h.blocks.alloc s
  rw [hp] at halloc
  rw [Memory.addhistory, Line.addhistory, hs, ok_bind, ok_bind]
  simp only [sdup, hp]
  split_ifs with hfull
  · -- One more cell is used, which the shift overwrites.
    have hlt : l.length < historyMax := by omega
    have htake : l.take (historyMax - 1) = l := List.take_of_length_le (by omega)
    have hpush := (h.points.update le_rfl (some p)).push (x := (p, s)) le_rfl
    rw [List.take_of_length_le le_rfl] at hpush
    rw [setEntry_eq (by omega) hfull, storeHistory_eq (by omega) hfull]
    simp only [ok_bind, hcount, pure_bind, add_sub_cancel_right, Int.toNat_natCast]
    rw [shiftUp_eq hlt, shiftUp_eq hlt]
    simp only [ok_bind]
    rw [setEntry_eq le_rfl (by decide), storeHistory_eq le_rfl (by decide), htake]
    exact ⟨_, p, rfl, halloc, hpush⟩
  · -- The last string is freed, and the shift goes over its cell.
    have hlength : l.length = historyMax - 1 + 1 := by omega
    have hlast := h.points (historyMax - 1) (by omega)
    rw [← List.getElem_cons_succ (p, s) l (historyMax - 1)
      (by rw [List.length_cons]; omega)] at hlast
    obtain ⟨blocks', hfree, hblocks⟩ := freeEntry_eq (i := (historyMax - 1 : ℕ)) halloc
      (Int.natCast_nonneg _) (by decide) (by rw [List.length_cons]; omega) hlast
    rw [List.eraseIdx_cons_succ, List.eraseIdx_eq_take_drop_succ,
      List.drop_eq_nil_of_le hlength.le, List.append_nil] at hblocks
    have hcount' : e.historyCount - 1 = (historyMax - 1 : ℕ) := by omega
    have hold := historyEntry_eq hH (i := historyMax - 1) (by rw [List.length_map]; omega)
      (by rwa [List.length_map])
    rw [show (historyMax - 1 : ℤ) = (historyMax - 1 : ℕ) from rfl, hfree, hold, ok_bind, ok_bind]
    simp only [pure_bind, hcount', Int.toNat_natCast]
    rw [shiftUp_eq (by decide), shiftUp_eq (by decide), ok_bind, ok_bind, ok_bind,
      setEntry_eq le_rfl (by decide), storeHistory_eq le_rfl (by decide)]
    exact ⟨_, p, rfl, hblocks, h.points.push (x := (p, s)) (by omega)⟩

/-- The condition of `replacehistory` reads the string that the history has. -/
theorem Has.repeatsHistory {x : ℕ × Bytes} (h : m.Has (x :: l))
    (hle : (x :: l).length ≤ historyMax)
    (hH : Lists e.history e.historyCount ((x :: l).map Prod.snd)) :
    m.repeatsHistory e = Line.repeatsHistory e := by
  have hcount := hH.count_eq
  rw [List.length_map, List.length_cons] at hcount
  rw [Memory.repeatsHistory, Line.repeatsHistory]
  split_ifs with hlen hmany
  · rfl
  · have hlt : 1 < (x :: l).length := by
      rw [List.length_cons]
      omega
    have hentry := h.entry_eq hlt hle
    have hvalue := historyEntry_eq hH (i := 1) (by rwa [List.length_map]) (by rwa [List.length_map])
    rw [List.getElem_map] at hvalue
    rw [show (1 : ℤ) = (1 : ℕ) from rfl, hentry, hvalue]
  · rfl

/-- The line takes the place of the first string, or that is freed. -/
theorem Has.replacehistory {x : ℕ × Bytes} (h : m.Has (x :: l))
    (hle : (x :: l).length ≤ historyMax)
    (hH : Lists e.history e.historyCount ((x :: l).map Prod.snd)) {again : Bool}
    (hagain : Line.repeatsHistory e = .ok again) (hs : e.cstring = .ok s) :
    ∃ m' p, replacehistory e m = (fun e' => (e', m')) <$> Line.replacehistory e ∧
      m'.Has (if again then l else (p, s) :: l) := by
  have hmax : (0 : ℤ) < historyMax := by decide
  have hfirst := h.points 0 (Nat.succ_pos _)
  have hcount := hH.count_eq
  rw [List.length_map, List.length_cons] at hcount
  have hold := historyEntry_eq hH (i := 0) (Nat.succ_pos _) (by rwa [List.length_map])
  rw [Int.natCast_zero] at hold
  rw [Memory.replacehistory, Line.replacehistory, h.repeatsHistory hle hH, hagain, ok_bind, ok_bind]
  cases again with
  | true =>
    simp only [if_true]
    obtain ⟨blocks, hfree, hblocks⟩ := freeEntry_eq (i := (0 : ℕ)) h.blocks
      le_rfl hmax (Nat.succ_pos _) hfirst
    have hn : (e.historyCount - 1).toNat = l.length := by omega
    rw [List.length_cons] at hle
    rw [hold, show (0 : ℤ) = (0 : ℕ) from rfl, show m = ⟨m.blocks, m.history⟩ from rfl, hfree,
      ok_bind, ok_bind, hn, shiftDown_eq (by omega), shiftDown_eq (by omega)]
    exact ⟨_, 0, rfl, hblocks, h.points.pop⟩
  | false =>
    simp only [Bool.false_eq_true, if_false]
    obtain ⟨p, blocks, hp⟩ : ∃ p blocks, m.blocks.alloc s = (p, blocks) := ⟨_, _, rfl⟩
    have halloc := h.blocks.alloc s
    rw [hp] at halloc
    obtain ⟨blocks', hfree, hblocks⟩ := freeEntry_eq (i := (0 : ℕ))
      (halloc.perm (.swap ..)) le_rfl hmax (Nat.succ_pos _) hfirst
    rw [hs, ok_bind, ok_bind]
    simp only [sdup, hp]
    rw [hold, ok_bind, show (0 : ℤ) = (0 : ℕ) from rfl, hfree, ok_bind,
      setEntry_eq (Int.natCast_nonneg 0) hmax, ok_bind, storeHistory_eq (Int.natCast_nonneg 0) hmax]
    exact ⟨_, p, rfl, hblocks, h.points.set (x := (p, s)) 0⟩

/-- Everything is freed. -/
theorem freeAll_eq {blocks : Blocks Bytes} {history : ℤ → Option ℕ} {k : ℕ} (h : blocks.Has l)
    (hle : k + l.length ≤ historyMax)
    (hpoints : ∀ (i : ℕ) (hi : i < l.length), history (k + i : ℕ) = some l[i].1) :
    ∃ blocks', freeAll l.length k ⟨blocks, history⟩ = .ok ⟨blocks', history⟩ ∧
      blocks'.Has [] := by
  induction l generalizing k blocks with
  | nil => exact ⟨blocks, rfl, h⟩
  | cons x l ih =>
    rw [List.length_cons] at hle
    obtain ⟨blocks₁, hfree, hblocks₁⟩ := freeEntry_eq (i := k) h (Int.natCast_nonneg k) (by omega)
      (Nat.succ_pos _) (hpoints 0 (Nat.succ_pos _))
    obtain ⟨blocks', hall, hblocks⟩ := ih (k := k + 1) hblocks₁ (by omega) fun i hi => by
      rw [Nat.add_right_comm, Nat.add_assoc]
      exact hpoints (i + 1) (Nat.succ_lt_succ hi)
    refine ⟨blocks', ?_, hblocks⟩
    rw [List.length_cons, freeAll, hfree, ok_bind, hall]

end Memory

/-! ## Runs -/

variable {e e' : Editor T} {m m' : Memory} {env : Option (List Slots)} {H : List Bytes}

/-- The blocks are the strings of the history, and nothing else. -/
def Keeps (e : Editor T) (m : Memory) : Prop :=
  ∃ l, m.Has l ∧ Lists e.history e.historyCount (l.map Prod.snd)

/-- The line becomes the string in the buffer. -/
theorem holds_measure_lists (hlast : e.buf (lineMax - 1) = 0)
    (hH : Lists e.history e.historyCount H) :
    Holds (fun e' => Lists e'.history e'.historyCount H) (do
      let s ← e.cstring
      let e := { e with pos := s.length, len := s.length }
      let e ← e.store e.len 0
      refresh e) := by
  refine (holds_cstring hlast).bind fun s hs => ?_
  have hlt : (s.length : ℤ) < lineMax := by
    have hmax : lineMax - 1 = 1023 := rfl
    rw [lineMax_eq]
    omega
  dsimp only
  rw [store_eq (Int.natCast_nonneg _) hlt, ok_bind]
  refine (holds_refresh _).mono ?_
  rintro _ ⟨tty, rfl⟩
  exact hH

/-- A move puts the line back in the history. -/
theorem holds_historymove_lists (h : Invariant e) (hH : Lists e.history e.historyCount H)
    {s : Bytes} (hs : e.cstring = .ok s) {i : ℕ} (hindex : e.historyi = i) (hmany : 1 < H.length)
    (delta : ℤ) :
    Holds (fun e' => Lists e'.history e'.historyCount (H.set i s)) (historymove delta e) := by
  obtain ⟨ht, hh, hi⟩ := h
  have hcount := hH.count_eq
  have hle := hH.length_le hh
  have hlt := hi.lt
  have hi' := hi.move (e.historyi + delta)
  have hok : 0 ∉ s ∧ s.length ≤ lineMax - 1 := by
    have hholds := holds_cstring ht.last
    rwa [hs] at hholds
  have hentry : historyEntry e e.historyi = .ok (H.get ⟨i, by omega⟩) := by
    rw [hindex]
    exact historyEntry_eq hH (by omega) hle
  have hset := hH.set (i := i) s
  rw [← hindex] at hset
  have hh' := hh.update e.historyi hok
  rw [historymove, if_pos (by omega), hentry, ok_bind, hs, ok_bind,
    storeHistory_eq hi.nonneg (hlt.trans_le hh.count_le), ok_bind]
  refine Holds.bind (holds_historyEntry ?_ hi'.nonneg hi'.lt) ?_
  · exact hh'
  intro s' _
  rw [strncpy_eq (Nat.sub_le _ _), ok_bind]
  exact holds_measure_lists (copy_last ht.last s') hset

theorem Keeps.frame (h : Keeps e m) (hhistory : e'.history = e.history)
    (hcount : e'.historyCount = e.historyCount) : Keeps e' m := by
  obtain ⟨l, hm, hH⟩ := h
  exact ⟨l, hm, by rwa [hhistory, hcount]⟩

/-- Code with the memory does what it does without, and leaves a memory with a property. -/
structure Tracks {α : Type} (P : α → Memory → Prop) (r : Outcome (α × Memory)) (r' : Outcome α) :
    Prop where
  fst : Prod.fst <$> r = r'
  mem {a : α} {m : Memory} (h : r = .ok (a, m)) : P a m

theorem Tracks.bind {α β : Type} {P : α → Memory → Prop} {Q : β → Memory → Prop}
    {r : Outcome (α × Memory)} {r' : Outcome α} {f : α × Memory → Outcome (β × Memory)}
    {g : α → Outcome β} (h : Tracks P r r') (hf : ∀ a m, P a m → Tracks Q (f (a, m)) (g a)) :
    Tracks Q (r >>= f) (r' >>= g) := by
  obtain ⟨rfl, hmem⟩ := h
  rcases r with s | ⟨a, m⟩
  · exact ⟨rfl, fun h => by cases h⟩
  · exact hf a m (hmem rfl)

/-- Code that ends as it does without the memory. -/
theorem tracks_ok {α : Type} {P : α → Memory → Prop} {a : α} (h : P a m) :
    Tracks P (.ok (a, m)) (.ok a) := ⟨rfl, fun heq => by cases heq; exact h⟩

/-- Code that comes to the same as without the memory, and then has the memory `m`. -/
theorem tracks_map {α : Type} {P : α → Memory → Prop} {r : Outcome α} (m : Memory)
    (h : Holds (fun a => P a m) r) : Tracks P ((fun a => (a, m)) <$> r) r where
  fst := by cases r <;> rfl
  mem heq := by
    cases r with
    | error s => cases heq
    | ok a =>
      cases heq
      exact h

/-- A part that has nothing to do with the memory. -/
theorem tracks_bind {α β : Type} {Q : β → Memory → Prop} {r : Outcome α}
    {f : α → Outcome (β × Memory)} {g : α → Outcome β}
    (h : ∀ a, r = .ok a → Tracks Q (f a) (g a)) : Tracks Q (r >>= f) (r >>= g) := by
  cases r with
  | error s => exact ⟨rfl, fun heq => by cases heq⟩
  | ok a => exact h a rfl

/-- What holds of the code without the memory. -/
theorem Tracks.and {α : Type} {P : α → Memory → Prop} {Q : α → Prop} {r : Outcome (α × Memory)}
    {r' : Outcome α} (h : Tracks P r r') (hQ : Holds Q r') :
    Tracks (fun a m => Q a ∧ P a m) r r' := by
  refine ⟨h.fst, fun {a m} heq => ⟨?_, h.mem heq⟩⟩
  rw [← h.fst, heq] at hQ
  exact hQ

variable (env) in
/-- The code of a key. -/
theorem Keeps.perform (h : Keeps e m) (hi : Invariant e) (c : Command) :
    Tracks (fun l m' => Keeps l.editor m') (m.perform env e c) (Line.perform env c e) := by
  by_cases hmove : ∃ delta, c = .move delta
  · obtain ⟨delta, rfl⟩ := hmove
    obtain ⟨l, hm, hH⟩ := h
    have hcount := hH.count_eq
    have hle := hH.length_le hi.2.1
    rw [List.length_map] at hcount hle
    refine Tracks.bind (P := fun e' m' => Keeps e' m') ?_ fun e' m' he' => tracks_ok he'
    by_cases hmany : 1 < l.length
    · obtain ⟨i, hindex⟩ := Int.eq_ofNat_of_zero_le hi.2.2.nonneg
      have hlt := hi.2.2.lt
      have hs := cstring_eq_text hi.1
      obtain ⟨m', p, hmem, hm'⟩ := hm.historymove hle hH hmany hindex (by omega) hs delta
      have hlists := holds_historymove_lists hi hH hs hindex (by rwa [List.length_map]) delta
      rw [hmem]
      refine tracks_map m' (hlists.mono fun e' he' => ⟨_, hm', ?_⟩)
      rw [List.map_set]
      exact he'
    · rw [Memory.historymove, historymove, if_neg (by omega), if_neg (by omega)]
      exact tracks_ok ⟨l, hm, hH⟩
  · have hc : ∀ delta, c ≠ .move delta := fun delta heq => hmove ⟨delta, heq⟩
    have heq : m.perform env e c = (fun l => (l, m)) <$> Line.perform env c e := by
      rw [map_eq_pure_bind]
      cases c with
      | move delta => exact absurd rfl (hc delta)
      | _ => rfl
    rw [heq]
    refine tracks_map m ((holds_perform_kept env hi.1 hc).mono fun l hl => ?_)
    exact h.frame hl.1.history hl.1.historyCount

/-- The line goes in front of the history. -/
theorem Keeps.addhistory (h : Keeps e m) (hh : HistoryOk e.history e.historyCount) {s : Bytes}
    (hs : e.cstring = .ok s) :
    Tracks Keeps (Memory.addhistory e m) (Line.addhistory e) := by
  obtain ⟨l, hm, hH⟩ := h
  have hle := hH.length_le hh
  obtain ⟨history, count, hadd, hlists⟩ := addhistory_eq hs hH hle
  rw [List.length_map] at hle
  obtain ⟨m', p, hmem, hm'⟩ := hm.addhistory hle hH hs
  rw [hmem]
  refine tracks_map m' ?_
  rw [hadd]
  refine ⟨_, hm', ?_⟩
  rw [List.map_cons, List.map_take]
  exact hlists

/-- The line that is entered takes the place of the first string, or that is freed. -/
theorem Keeps.replacehistory (h : Keeps e m) (hi : Invariant e) :
    Tracks Keeps (Memory.replacehistory e m) (Line.replacehistory e) := by
  obtain ⟨l, hm, hH⟩ := h
  have hle := hH.length_le hi.2.1
  obtain _ | ⟨x, l⟩ := l
  · have hpos := hi.2.2.count_pos
    rw [hH.count_eq] at hpos
    exact absurd hpos (by decide)
  obtain ⟨history, count, hreplace, hlists⟩ := replacehistory_eq hi.1 hH hle
  have hagain := repeatsHistory_eq hi.1 hH hle
  rw [List.length_map] at hle
  obtain ⟨m', p, hmem, hm'⟩ := hm.replacehistory hle hH hagain (cstring_eq_text hi.1)
  rw [hmem]
  refine tracks_map m' ?_
  rw [hreplace]
  refine ⟨_, hm', ?_⟩
  rw [settled] at hlists
  simp only [decide_eq_true_eq]
  split_ifs at hlists ⊢
  · exact hlists
  · exact hlists

/-- The beginning of a line. -/
theorem Keeps.lineStart (h : Keeps e m) (hh : HistoryOk e.history e.historyCount) :
    Tracks (fun l m' => Keeps l.editor m') (lineStartMemory e m) (Line.lineStart e) := by
  refine tracks_bind fun cols _ => ?_
  have hs : cstring lineMax (Function.update e.buf 0 0) = .ok [] :=
    Imp.cstring_eq (k := 0) (by decide) (Function.update_self ..)
  dsimp only
  rw [store_eq le_rfl (by decide), ok_bind, ok_bind]
  refine Tracks.bind (Keeps.addhistory (h.frame rfl rfl) hh hs) fun e' m' he' => ?_
  dsimp only
  split_ifs
  · exact tracks_ok (he'.frame rfl rfl)
  · exact tracks_ok (he'.frame rfl rfl)

/-- Before every key of a session, and behind the last one. -/
theorem rounds_memory (h : Idle e) (hk : Keeps e m) (env : Option (List Slots)) (p : Bytes)
    (n : ℕ) : Tracks (fun l m' => l.Ok ∧ Keeps l.editor m')
      (roundsMemory env (beginLine p e) m n) (rounds env (beginLine p e) n) := by
  have hok := h.rounds env p
  induction n with
  | zero =>
    have hstart := hok 0
    rw [rounds] at hstart ⊢
    exact (Keeps.lineStart (e := beginLine p e) (hk.frame rfl rfl) h.2.1).and hstart
  | succ n ih =>
    refine Tracks.and (P := fun l m' => Keeps l.editor m') ?_ (hok (n + 1))
    refine ih.bind fun l m' hl => ?_
    cases l with
    | returned code e' => exact tracks_ok hl.2
    | reading e' =>
      rw [round, readKey_eq]
      exact Keeps.perform env (e := { e' with tty := (decode T e'.tty).2 }) hl.2 hl.1 _

/-- The end of a call. -/
theorem endLine_memory (hi : Invariant e) (hk : Keeps e m) (code : ℤ) :
    Tracks (fun r m' => Keeps r.2 m') (endLineMemory (.returned code e) m)
      (endLine (.returned code e)) := by
  rw [endLineMemory, endLine]
  split_ifs
  · exact tracks_ok hk
  · exact (hk.replacehistory hi).bind fun e' m' he' => tracks_ok he'
  · exact ⟨rfl, fun heq => by cases heq⟩

/-- A call does the same with the memory as without. -/
theorem janetLineGet_memory (h : Idle e) (hk : Keeps e m) (env : Option (List Slots)) (p : Bytes)
    (input : Input) : Tracks (fun r m' => Keeps r.2 m') (janetLineGetMemory env p input e m)
      (janetLineGet env p input e) := by
  cases input with
  | file s => exact tracks_ok hk
  | terminal n =>
    refine (rounds_memory h hk env p n).bind fun l m' hl => ?_
    cases l with
    | reading e' => exact ⟨rfl, fun heq => by cases heq⟩
    | returned code e' => exact endLine_memory hl.1 hl.2 code

theorem keeps_initial (tty : T.State) : Keeps (initial tty) ⟨.empty, fun _ => none⟩ :=
  ⟨[], ⟨Blocks.has_empty, fun i hi => absurd hi (Nat.not_lt_zero i)⟩, rfl,
    fun {i} hi => absurd hi (Nat.not_lt_zero i)⟩

theorem ReachableMemory.keeps (h : ReachableMemory e m) : Idle e ∧ Keeps e m := by
  induction h with
  | initial tty => exact ⟨(Reachable.initial tty).idle, keeps_initial tty⟩
  | call _ hcall ih =>
    rename_i env p line input _
    have htracks := janetLineGet_memory ih.1 ih.2 env p input
    refine ⟨?_, htracks.mem hcall⟩
    refine (ih.1.janetLineGet env p input).2 line _ (htracks.fst.symm.trans ?_)
    rw [hcall]
    rfl
  | other tty _ ih => exact ih

/-- No call of the program reads a string of the history that has been freed, or frees one
    again; between the calls the blocks are those strings, and in the end every one is freed. -/
theorem memory_of_reachable (h : ReachableMemory e m) :
    Keeps e m ∧
      (∀ env p input, Prod.fst <$> janetLineGetMemory env p input e m =
        janetLineGet env p input e ∧ janetLineGetMemory env p input e m ≠ .error .fault) ∧
      ∃ m', m.janetLineDeinit e = .ok m' ∧ ∀ q, m'.blocks.content q = none := by
  obtain ⟨hidle, hkeeps⟩ := h.keeps
  refine ⟨hkeeps, fun env p input => ?_, ?_⟩
  · have hfst := (janetLineGet_memory hidle hkeeps env p input).fst
    refine ⟨hfst, fun hfault => (hidle.janetLineGet env p input).1 ?_⟩
    rw [← hfst, hfault]
    rfl
  · obtain ⟨l, hm, hH⟩ := hkeeps
    have hlength := hH.count_eq
    rw [List.length_map] at hlength
    have hle := hidle.2.1.count_le
    have hpoints : ∀ (i : ℕ) (hi : i < l.length), m.history (0 + i : ℕ) = some l[i].1 := by
      intro i hi
      rw [Nat.zero_add]
      exact hm.points i hi
    obtain ⟨blocks, hfree, hblocks⟩ := Memory.freeAll_eq hm.blocks (by omega) hpoints
    refine ⟨⟨blocks, m.history⟩, ?_, Blocks.has_nil_iff.1 hblocks⟩
    rw [Memory.janetLineDeinit, hlength, Int.toNat_natCast]
    exact hfree

/-- After two calls: in the first one the line `a` is entered, and in the second one it is
    brought back from the history. -/
theorem memory_of_reachable_keyboard : ∃ e₁ m₁ e m,
    janetLineGetMemory none [0x3E] (.terminal 2)
      (initial (T := keyboard) [0x61, 0x0D, 0x10, 0x0D]) ⟨.empty, fun _ => none⟩ =
        .ok (([0x61, 0x0A], e₁), m₁) ∧
    janetLineGetMemory none [0x3E] (.terminal 2) e₁ m₁ = .ok (([0x61, 0x0A], e), m) ∧
    Keeps e m ∧
      (∀ env p input, Prod.fst <$> janetLineGetMemory env p input e m =
        janetLineGet env p input e ∧ janetLineGetMemory env p input e m ≠ .error .fault) ∧
      ∃ m', m.janetLineDeinit e = .ok m' ∧ ∀ q, m'.blocks.content q = none := by
  obtain ⟨e₁, m₁, e, m, h₁, h₂⟩ : ∃ e₁ m₁ e m,
      janetLineGetMemory none [0x3E] (.terminal 2)
        (initial (T := keyboard) [0x61, 0x0D, 0x10, 0x0D]) ⟨.empty, fun _ => none⟩ =
          .ok (([0x61, 0x0A], e₁), m₁) ∧
      janetLineGetMemory none [0x3E] (.terminal 2) e₁ m₁ = .ok (([0x61, 0x0A], e), m) :=
    ⟨_, _, _, _, rfl, rfl⟩
  exact ⟨e₁, m₁, e, m, h₁, h₂, memory_of_reachable (.call (.call (.initial _) h₁) h₂)⟩

end PunyGui.Line
