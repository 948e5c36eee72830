import PunyGui.Text

/-!
# Imperative code

C code as functions that end with an `Outcome`: a result, or the reason why there
is none. An access to an array is checked against the bounds of the array, and a
loop has a bound on its steps.

* `Holds P r`: no access of the code leaves an array, its loops end, and `P` holds
  of the result if it returns. It may also end the program. `Holds.bind` and
  `holds_whileLoop` are the rules for code in sequence and for loops.
* `whileLoop_dropWhile`: the rule for a loop that scans a list, with its result.
* `load`, `store`, `memmove`, `strncpy`, `cstring`: accesses to an array of a
  given size, whose cells are the values of a function.
* `cells`: the values of so many cells.
-/

namespace Imp

open Text

/-- Why code does not return. -/
inductive Stop
  /-- An access outside an array, or through an invalid pointer. -/
  | fault
  /-- The program has ended. -/
  | exit
  /-- A function outside the code got an argument that it may crash on. -/
  | crash
  /-- The bound on the number of steps was reached. -/
  | fuel
  deriving DecidableEq

abbrev Outcome (α : Type) := Except Stop α

variable {α β σ : Type} {P Q : α → Prop} {r : Outcome α}

/-- The code keeps to its arrays and ends, and the property holds if it returns. -/
def Holds (P : α → Prop) : Outcome α → Prop
  | .ok a => P a
  | .error s => s ≠ .fault ∧ s ≠ .fuel

@[simp] theorem holds_exit : Holds P (.error .exit : Outcome α) := ⟨by decide, by decide⟩

@[simp] theorem holds_crash : Holds P (.error .crash : Outcome α) := ⟨by decide, by decide⟩

theorem Holds.mono (h : Holds P r) (hPQ : ∀ a, P a → Q a) : Holds Q r := by
  rcases r with s | a
  · exact h
  · exact hPQ a h

/-- Code in sequence: what holds between the parts is what the first one ensures
    and the second one needs. -/
theorem Holds.bind {f : α → Outcome β} {R : β → Prop} (h : Holds P r)
    (hf : ∀ a, P a → Holds R (f a)) : Holds R (r >>= f) := by
  rcases r with s | a
  · exact h
  · exact hf a h

/-- `while (cond) body`, with a bound on the number of steps. -/
def whileLoop (cond : σ → Outcome Bool) (body : σ → Outcome σ) : ℕ → σ → Outcome σ
  | 0, _ => .error .fuel
  | n + 1, s => do
    if ← cond s then whileLoop cond body n (← body s) else pure s

/-- A loop keeps its invariant and ends if every step keeps it and makes the
    variant smaller. -/
theorem holds_whileLoop {cond : σ → Outcome Bool} {body : σ → Outcome σ} {I : σ → Prop}
    (v : σ → ℕ)
    (hstep : ∀ s, I s →
      Holds (fun b => b = true → Holds (fun s' => I s' ∧ v s' < v s) (body s)) (cond s))
    {n : ℕ} {s : σ} (hI : I s) (hn : v s < n) : Holds I (whileLoop cond body n s) := by
  induction n generalizing s with
  | zero => exact absurd hn (Nat.not_lt_zero _)
  | succ n ih =>
    refine (hstep s hI).bind fun b hb => ?_
    cases b with
    | false => exact hI
    | true =>
      exact (hb rfl).bind fun s' hs' => ih hs'.1 (hs'.2.trans_le (Nat.le_of_lt_succ hn))

theorem ok_bind {α β : Type} (a : α) (f : α → Outcome β) : (.ok a : Outcome α) >>= f = f a := rfl

/-- Code in sequence returns if both parts do. -/
theorem bind_eq_ok {f : α → Outcome β} {b : β} :
    r >>= f = .ok b ↔ ∃ a, r = .ok a ∧ f a = .ok b := by
  cases r with
  | error s => exact iff_of_false nofun (by rintro ⟨a, ⟨⟩, -⟩)
  | ok a =>
    refine ⟨fun h => ⟨a, rfl, h⟩, ?_⟩
    rintro ⟨_, ⟨⟩, h⟩
    exact h

section Loops

variable {cond : σ → Outcome Bool} {body : σ → Outcome σ} {s s' : σ} {n : ℕ}

theorem whileLoop_of_false (hcond : cond s = .ok false) :
    whileLoop cond body (n + 1) s = .ok s := by
  rw [whileLoop, hcond]
  rfl

theorem whileLoop_of_true (hcond : cond s = .ok true) (hbody : body s = .ok s') :
    whileLoop cond body (n + 1) s = whileLoop cond body n s' := by
  rw [whileLoop, hcond, ok_bind, if_pos rfl, hbody, ok_bind]

theorem whileLoop_pure_of_false {c : σ → Bool} {f : σ → σ} (hc : c s = false) :
    whileLoop (fun s => (pure (c s) : Outcome Bool)) (fun s => pure (f s)) (n + 1) s = .ok s :=
  whileLoop_of_false (congrArg Except.ok hc)

theorem whileLoop_pure_of_true {c : σ → Bool} {f : σ → σ} (hc : c s = true) :
    whileLoop (fun s => (pure (c s) : Outcome Bool)) (fun s => pure (f s)) (n + 1) s =
      whileLoop (fun s => (pure (c s) : Outcome Bool)) (fun s => pure (f s)) n (f s) :=
  whileLoop_of_true (congrArg Except.ok hc) rfl

/-- A loop that goes along a list as long as its elements satisfy `p`. -/
theorem whileLoop_dropWhile {R : σ → List α → Prop} {p : α → Bool} {l : List α}
    (hnil : ∀ s, R s [] → cond s = .ok false)
    (hcons : ∀ s a l, R s (a :: l) → cond s = .ok (p a) ∧ ∃ s', body s = .ok s' ∧ R s' l)
    (hR : R s l) (hn : l.length < n) :
    ∃ s', whileLoop cond body n s = .ok s' ∧ R s' (l.dropWhile p) := by
  induction l generalizing s n with
  | nil =>
    obtain ⟨n, rfl⟩ := Nat.exists_eq_succ_of_ne_zero (Nat.ne_zero_of_lt hn)
    exact ⟨s, whileLoop_of_false (hnil s hR), hR⟩
  | cons a l ih =>
    obtain ⟨n, rfl⟩ := Nat.exists_eq_succ_of_ne_zero (Nat.ne_zero_of_lt hn)
    obtain ⟨hcond, s', hbody, hR'⟩ := hcons s a l hR
    cases hp : p a with
    | false =>
      rw [List.dropWhile_cons_of_neg (by simp [hp])]
      exact ⟨s, whileLoop_of_false (hp ▸ hcond), hR⟩
    | true =>
      rw [List.dropWhile_cons_of_pos hp, whileLoop_of_true (hp ▸ hcond) hbody]
      exact ih hR' (Nat.lt_of_succ_lt_succ hn)

end Loops

/-! ## Arrays -/

/-- Reading a cell of an array. -/
def load (size : ℕ) (a : ℤ → α) (i : ℤ) : Outcome α :=
  if 0 ≤ i ∧ i < size then .ok (a i) else .error .fault

/-- Writing a cell. -/
def store (size : ℕ) (a : ℤ → α) (i : ℤ) (x : α) : Outcome (ℤ → α) :=
  if 0 ≤ i ∧ i < size then .ok (Function.update a i x) else .error .fault

/-- `memmove` inside an array. -/
def memmove (size : ℕ) (a : ℤ → α) (dst src n : ℤ) : Outcome (ℤ → α) :=
  if 0 ≤ n ∧ (0 ≤ dst ∧ dst + n ≤ size) ∧ 0 ≤ src ∧ src + n ≤ size then
    .ok fun i => if dst ≤ i ∧ i < dst + n then a (i - dst + src) else a i
  else .error .fault

/-- `strncpy` of a string to the start of an array. -/
def strncpy (size : ℕ) (a : ℤ → UInt8) (s : Bytes) (n : ℕ) : Outcome (ℤ → UInt8) :=
  if n ≤ size then .ok fun i => if 0 ≤ i ∧ i < n then s.getD i.toNat 0 else a i
  else .error .fault

/-- The string that starts at a cell, of which so many cells are left. -/
def cstringFrom (a : ℤ → UInt8) : ℕ → ℤ → Outcome Bytes
  | 0, _ => .error .fault
  | n + 1, i =>
    if a i = 0 then pure []
    else do
      let s ← cstringFrom a n (i + 1)
      pure (a i :: s)

/-- The string at the start of an array. -/
def cstring (size : ℕ) (a : ℤ → UInt8) : Outcome Bytes := cstringFrom a size 0

/-- The values of `n` cells, from cell `i` on. -/
def cells (a : ℤ → α) (i : ℤ) (n : ℕ) : List α := (List.range n).map fun k : ℕ => a (i + k)

variable {size : ℕ} {a : ℤ → α} {i : ℤ}

theorem load_eq (h₀ : 0 ≤ i) (h₁ : i < size) : load size a i = .ok (a i) := if_pos ⟨h₀, h₁⟩

theorem store_eq (h₀ : 0 ≤ i) (h₁ : i < size) (x : α) :
    store size a i x = .ok (Function.update a i x) :=
  if_pos ⟨h₀, h₁⟩

theorem memmove_eq {dst src n : ℤ} (hn : 0 ≤ n) (hd₀ : 0 ≤ dst) (hd₁ : dst + n ≤ size)
    (hs₀ : 0 ≤ src) (hs₁ : src + n ≤ size) : memmove size a dst src n =
      .ok fun i => if dst ≤ i ∧ i < dst + n then a (i - dst + src) else a i :=
  if_pos ⟨hn, ⟨hd₀, hd₁⟩, hs₀, hs₁⟩

theorem strncpy_eq {a : ℤ → UInt8} {n : ℕ} (h : n ≤ size) (s : Bytes) : strncpy size a s n =
    .ok fun i => if 0 ≤ i ∧ i < n then s.getD i.toNat 0 else a i :=
  if_pos h

theorem holds_cstringFrom {a : ℤ → UInt8} {n k : ℕ} (hk : k < n) (hz : a (i + k) = 0) :
    Holds (fun s => 0 ∉ s ∧ s.length ≤ k) (cstringFrom a n i) := by
  induction n generalizing i k with
  | zero => cases hk
  | succ n ih =>
    rw [cstringFrom]
    split_ifs with h
    · exact ⟨List.not_mem_nil, Nat.zero_le k⟩
    · cases k with
      | zero => exact absurd (by simpa using hz) h
      | succ k =>
        have hrec := ih (i := i + 1) (Nat.lt_of_succ_lt_succ hk) (by rw [← hz]; push_cast; ring_nf)
        refine Holds.bind hrec fun s hs => ⟨?_, Nat.succ_le_succ hs.2⟩
        rw [List.mem_cons, not_or]
        exact ⟨Ne.symm h, hs.1⟩

/-- A zero ends the string at the start of an array. -/
theorem holds_cstring {a : ℤ → UInt8} {k : ℕ} (hk : k < size) (hz : a k = 0) :
    Holds (fun s => 0 ∉ s ∧ s.length ≤ k) (cstring size a) :=
  holds_cstringFrom hk (by rwa [zero_add])

/-! ### Parts of an array -/

section Cells

variable {b : ℤ → α} {j : ℤ} {m n : ℕ}

@[simp] theorem length_cells : (cells a i n).length = n := by
  rw [cells, List.length_map, List.length_range]

@[simp] theorem cells_zero : cells a i 0 = [] := rfl

theorem cells_add : cells a i (m + n) = cells a i m ++ cells a (i + m) n := by
  simp only [cells, List.range_add, List.map_append, List.map_map]
  refine congrArg _ (List.map_congr_left fun k _ => ?_)
  simp only [Function.comp_apply]
  push_cast
  rw [add_assoc]

theorem cells_one : cells a i 1 = [a i] := by
  simp [cells]

theorem cells_cons : cells a i (n + 1) = a i :: cells a (i + 1) n := by
  rw [Nat.add_comm, cells_add, cells_one]
  rfl

theorem cells_concat : cells a i (n + 1) = cells a i n ++ [a (i + n)] := by
  rw [cells_add, cells_one]

theorem cells_congr (h : ∀ k : ℕ, k < n → a (i + k) = b (j + k)) : cells a i n = cells b j n :=
  List.map_congr_left fun k hk => h k (List.mem_range.1 hk)

theorem take_cells (h : m ≤ n) : (cells a i n).take m = cells a i m := by
  rw [← Nat.add_sub_cancel' h, cells_add, List.take_left' length_cells]

theorem drop_cells (h : m ≤ n) : (cells a i n).drop m = cells a (i + m) (n - m) := by
  conv_lhs => rw [← Nat.add_sub_cancel' h, cells_add, List.drop_left' length_cells]

theorem getElem_cells {k : ℕ} (hk : k < (cells a i n).length) :
    (cells a i n)[k] = a (i + k) := by
  simp [cells]

end Cells

/-- The string that starts at a cell is what C sees of the cells before a zero. -/
theorem cstringFrom_eq {a : ℤ → UInt8} {n k : ℕ} (hk : k < n) (hz : a (i + k) = 0) :
    cstringFrom a n i = .ok (cString (cells a i k)) := by
  induction n generalizing i k with
  | zero => cases hk
  | succ n ih =>
    rw [cstringFrom]
    cases k with
    | zero =>
      rw [Nat.cast_zero, add_zero] at hz
      exact if_pos hz
    | succ k =>
      have hz' : a (i + 1 + k) = 0 := by rw [← hz]; push_cast; ring_nf
      rw [cells_cons, cString]
      split_ifs with h
      · rw [List.takeWhile_cons_of_neg (by simp [h])]
        rfl
      · rw [List.takeWhile_cons_of_pos (by simp [h]), ih (Nat.lt_of_succ_lt_succ hk) hz']
        rfl

theorem cstring_eq {a : ℤ → UInt8} {k : ℕ} (hk : k < size) (hz : a k = 0) :
    cstring size a = .ok (cString (cells a 0 k)) :=
  cstringFrom_eq hk (by rwa [zero_add])

end Imp
