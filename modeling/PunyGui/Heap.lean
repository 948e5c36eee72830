import PunyGui.Blocks
import PunyGui.Imp

/-!
# The heap of C

Blocks of bytes as `malloc`, `realloc` and `free` give them out and take them back. An
access that leaves its block, or is to a block that has been freed, is a fault, and so is
freeing a block twice.

* `Allocator`: a request may be refused, and nothing is known of the bytes of a new block.
  A block is moved whenever it is reallocated.
* `Allocator.Refuses`: one of the requests that were made was refused.
* `malloc`, `realloc`, `free`, `copyIn`, `moveIn`, `copyOut`: the operations.
* `Has`: the blocks on the heap are those of a list.
* `malloc_cases`, `realloc_cases`, `Has.free`, `Has.copyIn`, `Has.moveIn`, `Has.copyOut`:
  what the operations do to the list.
-/

namespace Imp

open Text

/-- A block of so many bytes. -/
structure Block where
  size : ℕ
  cells : ℤ → UInt8

/-- What an allocator decides. -/
structure Allocator where
  /-- It grants the request with a number, for so many bytes. -/
  grants : ℕ → ℕ → Bool
  /-- What the bytes of the block are that is given out for it. -/
  junk : ℕ → ℤ → UInt8
  /-- The number of a pointer. -/
  address : ℕ → UInt64
  /-- No object has more than `PTRDIFF_MAX` bytes. -/
  lt_of_grants {k n : ℕ} : grants k n = true → n < 2 ^ 63

/-- The blocks, and the sizes that were asked for up to now. -/
structure Heap where
  blocks : Blocks Block
  requests : List ℕ

/-- Nothing has been allocated. -/
def Heap.empty : Heap := ⟨Blocks.empty, []⟩

/-- A pointer, which may be NULL. -/
abbrev Pointer := Option ℕ

/-- The number of a pointer, which is 0 for NULL. -/
def Allocator.addressOf (A : Allocator) : Pointer → ℕ
  | none => 0
  | some p => (A.address p).toNat

/-- Of the requests that came after `old`, one was for so many bytes and was refused. -/
def Allocator.Refuses (A : Allocator) (old new : List ℕ) (n : ℕ) : Prop :=
  ∃ k, old.length ≤ k ∧ new[k]? = some n ∧ A.grants k n = false

namespace Heap

variable (A : Allocator) (h : Heap)

/-- `malloc`. -/
def malloc (n : ℕ) : Pointer × Heap :=
  if A.grants h.requests.length n then
    let (p, blocks) := h.blocks.alloc ⟨n, A.junk h.requests.length⟩
    (some p, ⟨blocks, h.requests ++ [n]⟩)
  else (none, { h with requests := h.requests ++ [n] })

/-- `free`. -/
def free : Pointer → Outcome Heap
  | none => pure h
  | some p =>
    match h.blocks.free p with
    | some blocks => pure { h with blocks }
    | none => .error .fault

/-- The block that is to be accessed. -/
def blockAt : Pointer → Outcome (ℕ × Block)
  | none => .error .fault
  | some p =>
    match h.blocks.read p with
    | some b => pure (p, b)
    | none => .error .fault

/-- The block gets other bytes. -/
def setCells (p : ℕ) (b : Block) (cells : ℤ → UInt8) : Outcome Heap :=
  match h.blocks.write p { b with cells } with
  | some blocks => pure { h with blocks }
  | none => .error .fault

/-- The bytes of a block, in front of those that are new. -/
def keepCells (b : Block) (junk : ℤ → UInt8) : ℤ → UInt8 :=
  fun i => if i < b.size then b.cells i else junk i

/-- `realloc`. For no bytes at all the block is freed. -/
def realloc (p : Pointer) (n : ℕ) : Outcome (Pointer × Heap) :=
  if p = none then pure (h.malloc A n)
  else if n = 0 then do pure (none, ← h.free p)
  else do
    let (_, b) ← h.blockAt p
    if A.grants h.requests.length n then do
      let (q, blocks) := h.blocks.alloc ⟨n, keepCells b (A.junk h.requests.length)⟩
      let h ← (⟨blocks, h.requests ++ [n]⟩ : Heap).free p
      pure (some q, h)
    else pure (none, { h with requests := h.requests ++ [n] })

/-- `memcpy` of bytes into a block. -/
def copyIn (p : Pointer) (off : ℕ) (data : Bytes) : Outcome Heap :=
  if data = [] then pure h
  else do
    let (p, b) ← h.blockAt p
    if off + data.length ≤ b.size then
      h.setCells p b fun i =>
        if (off : ℤ) ≤ i ∧ i < off + data.length then data.getD (i - off).toNat 0 else b.cells i
    else .error .fault

/-- `memmove` inside a block. -/
def moveIn (p : Pointer) (dst src n : ℕ) : Outcome Heap :=
  if n = 0 then pure h
  else do
    let (p, b) ← h.blockAt p
    h.setCells p b (← memmove b.size b.cells dst src n)

/-- Bytes that are read from a block. -/
def copyOut (p : Pointer) (off n : ℕ) : Outcome Bytes :=
  if n = 0 then pure []
  else do
    let (_, b) ← h.blockAt p
    if off + n ≤ b.size then pure (cells b.cells off n) else .error .fault

/-- The blocks on the heap are those of the list. -/
def Has (l : List (ℕ × Block)) : Prop := h.blocks.Has l

end Heap

theorem Allocator.refuses_concat {A : Allocator} {old : List ℕ} {n : ℕ}
    (hno : A.grants old.length n = false) : A.Refuses old (old ++ [n]) n :=
  ⟨old.length, le_rfl, List.getElem?_concat_length, hno⟩

theorem Allocator.Refuses.mono {A : Allocator} {old old' new : List ℕ} {n : ℕ}
    (h : A.Refuses old' new n) (hle : old.length ≤ old'.length) : A.Refuses old new n := by
  obtain ⟨k, hk, hget, hno⟩ := h
  exact ⟨k, hle.trans hk, hget, hno⟩

namespace Heap

variable {A : Allocator} {h : Heap} {l l' : List (ℕ × Block)} {p : ℕ} {b : Block} {n : ℕ}

theorem has_empty : empty.Has [] := Blocks.has_empty

theorem Has.perm (hh : h.Has l) (hl : l.Perm l') : h.Has l' := Blocks.Has.perm hh hl

variable (A) in
/-- A request is granted with a new block, or refused. -/
theorem malloc_cases (hh : h.Has l) (n : ℕ) :
    (∃ p c h', h.malloc A n = (some p, h') ∧ h'.Has ((p, ⟨n, c⟩) :: l) ∧ n < 2 ^ 63) ∨
      ∃ h', h.malloc A n = (none, h') ∧ h'.Has l ∧ h'.requests = h.requests ++ [n] ∧
        A.grants h.requests.length n = false := by
  rw [malloc]
  split_ifs with hgrant
  · exact .inl ⟨_, _, _, rfl, Blocks.Has.alloc hh _, A.lt_of_grants hgrant⟩
  · exact .inr ⟨_, rfl, hh, rfl, Bool.eq_false_iff.2 hgrant⟩

theorem Has.free (hh : h.Has ((p, b) :: l)) : ∃ h', h.free (some p) = .ok h' ∧ h'.Has l := by
  obtain ⟨blocks, hfree, hblocks⟩ := Blocks.Has.free hh
  refine ⟨{ h with blocks }, ?_, hblocks⟩
  rw [Heap.free, hfree]
  rfl

theorem Has.blockAt (hh : h.Has ((p, b) :: l)) : h.blockAt (some p) = .ok (p, b) := by
  rw [Heap.blockAt, Blocks.Has.read hh List.mem_cons_self]
  rfl

theorem Has.setCells (hh : h.Has ((p, b) :: l)) (c : ℤ → UInt8) :
    ∃ h', h.setCells p b c = .ok h' ∧ h'.Has ((p, ⟨b.size, c⟩) :: l) := by
  obtain ⟨blocks, hwrite, hblocks⟩ := Blocks.Has.write hh ⟨b.size, c⟩
  refine ⟨{ h with blocks }, ?_, hblocks⟩
  rw [Heap.setCells, hwrite]
  rfl

variable (A) in
/-- A block is reallocated with the bytes that there is still room for, or left alone. -/
theorem realloc_cases (hh : h.Has ((p, b) :: l)) (hn : n ≠ 0) :
    (∃ q c h', h.realloc A (some p) n = .ok (some q, h') ∧ h'.Has ((q, ⟨n, c⟩) :: l) ∧
        (∀ i < (b.size : ℤ), c i = b.cells i) ∧ n < 2 ^ 63) ∨
      ∃ h', h.realloc A (some p) n = .ok (none, h') ∧ h'.Has ((p, b) :: l) ∧
        h'.requests = h.requests ++ [n] ∧ A.grants h.requests.length n = false := by
  rw [realloc, if_neg (Option.some_ne_none p), if_neg hn, hh.blockAt, ok_bind]
  simp only
  split_ifs with hgrant
  · obtain ⟨q, blocks, hq⟩ : ∃ q blocks,
        h.blocks.alloc ⟨n, keepCells b (A.junk h.requests.length)⟩ = (q, blocks) := ⟨_, _, rfl⟩
    have hnew := Blocks.Has.alloc hh ⟨n, keepCells b (A.junk h.requests.length)⟩
    rw [hq] at hnew ⊢
    have halloc : (⟨blocks, h.requests ++ [n]⟩ : Heap).Has
        ((p, b) :: (q, ⟨n, keepCells b (A.junk h.requests.length)⟩) :: l) :=
      Has.perm hnew (List.Perm.swap _ _ _)
    obtain ⟨h', hfree, hh'⟩ := halloc.free
    refine .inl ⟨_, _, h', ?_, hh', fun i hi => if_pos hi, A.lt_of_grants hgrant⟩
    rw [hfree]
    rfl
  · exact .inr ⟨_, rfl, hh, rfl, Bool.eq_false_iff.2 hgrant⟩

theorem Has.realloc_zero (hh : h.Has ((p, b) :: l)) :
    ∃ h', h.realloc A (some p) 0 = .ok (none, h') ∧ h'.Has l := by
  obtain ⟨h', hfree, hh'⟩ := hh.free
  refine ⟨h', ?_, hh'⟩
  rw [realloc, if_neg (Option.some_ne_none p), if_pos rfl, hfree]
  rfl

/-- No block is asked for. -/
theorem requests_of_copyIn {h' : Heap} {q : Pointer} {off : ℕ} {data : Bytes}
    (hcopy : h.copyIn q off data = .ok h') : h'.requests = h.requests := by
  rw [Heap.copyIn] at hcopy
  split_ifs at hcopy
  · cases hcopy
    rfl
  · obtain ⟨⟨q, b⟩, -, hset⟩ := bind_eq_ok.1 hcopy
    dsimp only at hset
    split_ifs at hset
    rw [Heap.setCells] at hset
    split at hset <;> cases hset
    rfl

theorem Has.copyIn (hh : h.Has ((p, b) :: l)) {off : ℕ} {data : Bytes}
    (hle : off + data.length ≤ b.size) : ∃ c h', h.copyIn (some p) off data = .ok h' ∧
      h'.Has ((p, ⟨b.size, c⟩) :: l) ∧ cells c off data.length = data ∧
        ∀ i, i < (off : ℤ) ∨ (off : ℤ) + data.length ≤ i → c i = b.cells i := by
  rw [Heap.copyIn]
  split_ifs with hnil
  · subst hnil
    exact ⟨b.cells, h, rfl, hh, rfl, fun _ _ => rfl⟩
  · rw [hh.blockAt, ok_bind]
    simp only
    rw [if_pos hle]
    obtain ⟨h', hset, hh'⟩ := hh.setCells fun i =>
      if (off : ℤ) ≤ i ∧ i < off + data.length then data.getD (i - off).toNat 0 else b.cells i
    refine ⟨_, h', hset, hh', List.ext_getElem length_cells fun k hk hk' => ?_, fun i hi => ?_⟩
    · rw [getElem_cells hk, if_pos ⟨by omega, by omega⟩]
      simp [hk']
    · exact if_neg fun hand => by omega

theorem Has.moveIn (hh : h.Has ((p, b) :: l)) {dst src : ℕ} (hd : dst + n ≤ b.size)
    (hs : src + n ≤ b.size) : ∃ c h', h.moveIn (some p) dst src n = .ok h' ∧
      h'.Has ((p, ⟨b.size, c⟩) :: l) ∧ cells c dst n = cells b.cells src n ∧
        ∀ i, i < (dst : ℤ) ∨ (dst : ℤ) + n ≤ i → c i = b.cells i := by
  rw [Heap.moveIn]
  split_ifs with hzero
  · subst hzero
    exact ⟨b.cells, h, rfl, hh, rfl, fun _ _ => rfl⟩
  · rw [hh.blockAt, ok_bind]
    simp only
    rw [memmove_eq (Int.natCast_nonneg n) (Int.natCast_nonneg dst) (by exact_mod_cast hd)
      (Int.natCast_nonneg src) (by exact_mod_cast hs), ok_bind]
    obtain ⟨h', hset, hh'⟩ := hh.setCells fun i =>
      if (dst : ℤ) ≤ i ∧ i < dst + n then b.cells (i - dst + src) else b.cells i
    refine ⟨_, h', hset, hh', cells_congr fun k hk => ?_, fun i hi => ?_⟩
    · rw [if_pos ⟨by omega, by omega⟩]
      congr 1
      omega
    · exact if_neg fun hand => by omega

theorem Has.copyOut (hh : h.Has ((p, b) :: l)) {off : ℕ} (hle : off + n ≤ b.size) :
    h.copyOut (some p) off n = .ok (cells b.cells off n) := by
  rw [Heap.copyOut]
  split_ifs with hzero
  · subst hzero
    rfl
  · rw [hh.blockAt, ok_bind]
    exact if_pos hle

end Heap

end Imp
