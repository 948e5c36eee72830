import PunyGui.Circlet.Poll
import PunyGui.Heap

/-!
# The buffers of mongoose

`struct mbuf` and the functions on it, with the blocks that its bytes are in. Elsewhere a
buffer is the list of its bytes, and this is why it may be.

* `Mbuf.insert`, `Mbuf.remove`, `Mbuf.resize`, `Mbuf.trim`, `Mbuf.free`: the functions.
* `Mbuf.recv`, `Mbuf.send`: what reading from the socket and writing to it do to the
  buffers of a connection.
* `Mbuf.Stored`: a mbuf has these bytes, in a block of its own. Each function has a lemma
  that says what it does to them.
* `Mbuf.Stored.queue`, `Mbuf.Stored.mgIfCanSendCb`: a buffer that stores what the server's
  model queues stores what it goes on with.
* `NoRoom`: why a mbuf does not take what is appended to it.
* `mbufRun_accounts`: whatever is done to any number of mbufs on one heap, and whatever
  the allocator refuses, no access is invalid, and no block is lost.
-/

namespace PunyGui.Circlet

open Text Imp Sessions

/-! ## The code -/

/-- `struct mbuf`. -/
structure Mbuf where
  buf : Pointer
  len : ℕ
  size : ℕ

/-- `mbuf_init`, for no bytes. -/
def Mbuf.init : Mbuf := ⟨none, 0, 0⟩

/-- A `size_t`. -/
def sizeT (n : ℕ) : ℕ := n % 2 ^ 64

/-- `MBUF_SIZE_MAX_HEADROOM`, which is `BUFSIZ`. -/
def mbufSizeMaxHeadroom : ℕ := 8192

/-- The size that a block is to have which is too small, with some headroom. The product
    is a floating-point number, whose conversion is undefined if it is too large. -/
def mbufNewSize (minSize : ℕ) : Outcome ℕ :=
  -- It is rounded, by less than `2 ^ 12`, only where it is far more than the headroom.
  let newSize := minSize * 3 / 2
  if newSize + 2 ^ 12 < 2 ^ 64 then
    pure (if newSize - minSize > mbufSizeMaxHeadroom then sizeT (minSize + mbufSizeMaxHeadroom)
      else newSize)
  else .error .fault

section Code

variable (A : Allocator) (h : Heap) (a : Mbuf)

/-- `mbuf_resize`. -/
def Mbuf.resize (newSize : ℕ) : Outcome (Heap × Mbuf) :=
  if newSize > a.size ∨ newSize < a.size ∧ newSize ≥ a.len then do
    let (buf, h) ← h.realloc A a.buf newSize
    if buf = none ∧ newSize ≠ 0 then pure (h, a)
    else pure (h, { a with buf, size := newSize })
  else pure (h, a)

/-- `mbuf_trim`. -/
def Mbuf.trim : Outcome (Heap × Mbuf) := a.resize A h a.len

/-- `mbuf_free`. -/
def Mbuf.free : Outcome (Heap × Mbuf) :=
  if a.buf = none then pure (h, a)
  else do pure (← h.free a.buf, Mbuf.init)

/-- A block that there is room in for more bytes: first with headroom, and if that is
    refused, without. -/
def Mbuf.grow (minSize : ℕ) : Outcome (Pointer × ℕ × Heap) := do
  let newSize ← mbufNewSize minSize
  let (p, h) ← h.realloc A a.buf newSize
  if p = none ∧ newSize ≠ minSize then do
    let (p, h) ← h.realloc A a.buf minSize
    pure (p, minSize, h)
  else pure (p, newSize, h)

/-- The bytes get to their place in the block, and the ones after it make room. -/
def Mbuf.place (p : Pointer) (off : ℕ) (buf : Bytes) : Outcome Heap := do
  -- To append, no byte has to move.
  let h ← h.moveIn p (off + buf.length) off (a.len - off)
  h.copyIn p off buf

/-- `mbuf_insert`. It returns how many bytes were inserted. -/
def Mbuf.insert (off : ℕ) (buf : Bytes) : Outcome (ℕ × Heap × Mbuf) :=
  -- The assertions.
  if ¬(a.len ≤ a.size ∧ off ≤ a.len) then .error .exit
  else if 2 ^ 64 - 1 - A.addressOf a.buf < buf.length then pure (0, h, a)
  else if sizeT (a.len + buf.length) ≤ a.size then do
    let h ← a.place h a.buf off buf
    pure (buf.length, h, { a with len := sizeT (a.len + buf.length) })
  else do
    let (p, newSize, h) ← a.grow A h (sizeT (a.len + buf.length))
    if p = none then pure (0, h, a)
    else do
      let h ← a.place h p off buf
      pure (buf.length, h, ⟨p, sizeT (a.len + buf.length), newSize⟩)

/-- `mbuf_append`. -/
def Mbuf.append (buf : Bytes) : Outcome (ℕ × Heap × Mbuf) := a.insert A h a.len buf

/-- `mbuf_remove`. -/
def Mbuf.remove (n : ℕ) : Outcome (Heap × Mbuf) :=
  if 0 < n ∧ n ≤ a.len then do
    pure (← h.moveIn a.buf 0 n (a.len - n), { a with len := a.len - n })
  else pure (h, a)

/-- `mbuf_clear`. -/
def Mbuf.clear : Mbuf := { a with len := 0 }

/-- Room is made for so many bytes more. -/
def Mbuf.reserve (len : ℕ) : Outcome (Heap × Mbuf) :=
  if a.size < sizeT (a.len + len) then a.resize A h (sizeT (a.len + len)) else pure (h, a)

/-- A pass of the loop of `mg_do_recv`: as many bytes as there is room for are read of
    those that have arrived. -/
def Mbuf.recv (len : ℕ) (arrived : Bytes) : Outcome (Bytes × Heap × Mbuf) := do
  let (h, a) ← a.reserve A h len
  let buf := arrived.take (a.size - a.len)
  let h ← h.copyIn a.buf a.len buf
  pure (buf, h, { a with len := a.len + buf.length })

/-- `mg_if_can_send_cb`, when the socket takes so many bytes at most. -/
def Mbuf.send (n : ℕ) : Outcome (Bytes × Heap × Mbuf) := do
  let buf := (← h.copyOut a.buf 0 (min a.len tcpIoSize)).take n
  if buf = [] then pure ([], h, a)
  else do
    let (h, a) ← a.remove h buf.length
    let (h, a) ← a.trim A h
    pure (buf, h, a)

end Code

/-! ## What a mbuf holds -/

/-- The mbuf has these bytes, and the block that they are in. -/
inductive Mbuf.Owns : Mbuf → Bytes → List (ℕ × Block) → Prop
  | none : Owns Mbuf.init [] []
  | some {p len size : ℕ} {c : ℤ → UInt8} (hlen : len ≤ size) (hsize : size < 2 ^ 63) :
      Owns ⟨some p, len, size⟩ (cells c 0 len) [(p, ⟨size, c⟩)]

/-- The mbuf has these bytes, and its block is on the heap besides others. -/
def Mbuf.Stored (h : Heap) (rest : List (ℕ × Block)) (a : Mbuf) (s : Bytes) : Prop :=
  ∃ l, a.Owns s l ∧ h.Has (l ++ rest)

/-- There is no room for more bytes: a block of just the size that is needed was asked for
    and refused, or the address space ends before the bytes do. -/
def NoRoom (A : Allocator) (old new : List ℕ) (a : Mbuf) (n : ℕ) : Prop :=
  A.Refuses old new (a.len + n) ∨ 2 ^ 64 - 1 - A.addressOf a.buf < n

variable {A : Allocator} {h : Heap} {a : Mbuf} {s : Bytes} {l rest : List (ℕ × Block)}

theorem Mbuf.Owns.length (ha : a.Owns s l) : s.length = a.len := by
  cases ha with
  | none => rfl
  | some => exact length_cells

theorem Mbuf.Owns.len_le (ha : a.Owns s l) : a.len ≤ a.size := by
  cases ha with
  | none => exact Nat.le_refl _
  | some hlen => exact hlen

theorem Mbuf.Owns.size_lt (ha : a.Owns s l) : a.size < 2 ^ 63 := by
  cases ha with
  | none => exact Nat.two_pow_pos 63
  | some _ hsize => exact hsize

theorem Mbuf.Stored.length (ha : a.Stored h rest s) : s.length = a.len := by
  obtain ⟨l, howns, -⟩ := ha
  exact howns.length

theorem sizeT_of_lt {n : ℕ} (hn : n < 2 ^ 64) : sizeT n = n := Nat.mod_eq_of_lt hn

/-- There is room for more bytes in the block that is asked for. -/
theorem mbufNewSize_spec {n : ℕ} (hn : n < 2 ^ 63 + 2 ^ 61) :
    ∃ m, mbufNewSize n = .ok m ∧ n ≤ m := by
  have hlt : n * 3 / 2 + 2 ^ 12 < 2 ^ 64 := by omega
  rw [mbufNewSize]
  simp only [if_pos hlt]
  refine ⟨_, rfl, ?_⟩
  rw [sizeT_of_lt (by rw [mbufSizeMaxHeadroom]; omega)]
  split_ifs <;> omega

/-- A block is reallocated for more bytes, or there is no room. -/
theorem Mbuf.Stored.realloc (ha : a.Stored h rest s) {n : ℕ} (hn : n ≠ 0) (hle : a.len ≤ n) :
    (∃ q h', h.realloc A a.buf n = .ok (some q, h') ∧
        (Mbuf.mk (some q) a.len n).Stored h' rest s) ∨
      ∃ h', h.realloc A a.buf n = .ok (none, h') ∧ a.Stored h' rest s ∧
        h'.requests = h.requests ++ [n] ∧ A.Refuses h.requests h'.requests n := by
  obtain ⟨l, ha, hh⟩ := ha
  cases ha with
  | none =>
    rcases Heap.malloc_cases A hh n with ⟨q, c, h', hm, hh', hlt⟩ | ⟨h', hm, hh', hk, hno⟩
    · exact .inl ⟨q, h', congrArg Except.ok hm, [(q, ⟨n, c⟩)], .some (Nat.zero_le n) hlt, hh'⟩
    · exact .inr ⟨h', congrArg Except.ok hm, ⟨[], .none, hh'⟩, hk,
        hk ▸ Allocator.refuses_concat hno⟩
  | some hlen hsize =>
    rcases Heap.realloc_cases A hh hn with
      ⟨q, c, h', hr, hh', hc, hlt⟩ | ⟨h', hr, hh', hk, hno⟩
    · refine .inl ⟨q, h', hr, [(q, ⟨n, c⟩)], ?_, hh'⟩
      rw [cells_congr (b := c) (j := 0) fun k hk => (hc _ (by simp only; omega)).symm]
      exact .some hle hlt
    · exact .inr ⟨h', hr, ⟨_, .some hlen hsize, hh'⟩, hk, hk ▸ Allocator.refuses_concat hno⟩

/-- The bytes that come after are moved behind the new ones. -/
theorem Mbuf.Stored.place {p len size off : ℕ} {x : Bytes}
    (ha : (Mbuf.mk (some p) len size).Stored h rest s) (hoff : off ≤ len)
    (hroom : len + x.length ≤ size) :
    ∃ h', (Mbuf.mk (some p) len size).place h (some p) off x = .ok h' ∧
      (Mbuf.mk (some p) (len + x.length) size).Stored h' rest (s.take off ++ x ++ s.drop off) := by
  obtain ⟨l, ha, hh⟩ := ha
  cases ha with
  | @some _ _ _ c hlen hsize =>
    have hdst : off + x.length + (len - off) ≤ size := by omega
    have hsrc : off + (len - off) ≤ size := by omega
    have hin : off + x.length ≤ size := by omega
    obtain ⟨c₁, h₁, hmove, hh₁, hmoved, hkept₁⟩ := hh.moveIn hdst hsrc
    obtain ⟨c₂, h₂, hcopy, hh₂, hcopied, hkept₂⟩ := hh₁.copyIn hin
    refine ⟨h₂, ?_, [(p, ⟨size, c₂⟩)], ?_, hh₂⟩
    · rw [Mbuf.place, hmove]
      exact hcopy
    have hbefore : cells c₂ 0 off = cells c 0 off :=
      cells_congr fun k hk => (hkept₂ _ (by omega)).trans (hkept₁ _ (by push_cast; omega))
    have hafter : cells c₂ (off + x.length : ℕ) (len - off) = cells c off (len - off) := by
      rw [← hmoved]
      exact cells_congr fun k hk => hkept₂ _ (by push_cast; omega)
    have hnew : cells c₂ 0 (len + x.length) =
        (cells c 0 len).take off ++ x ++ (cells c 0 len).drop off := by
      rw [show len + x.length = off + x.length + (len - off) by omega, cells_add, cells_add,
        Int.zero_add, Int.zero_add, hbefore, hcopied, hafter, take_cells hoff, drop_cells hoff,
        Int.zero_add]
    rw [← hnew]
    exact .some hroom hsize

/-- A block is found that has room for more bytes, or a block of just the size that is
    needed was refused. -/
theorem Mbuf.Stored.grow (ha : a.Stored h rest s) {n : ℕ} (hn : n < 2 ^ 63 + 2 ^ 61)
    (hsize : a.len < n) :
    (∃ q m h', a.grow A h n = .ok (some q, m, h') ∧ n ≤ m ∧
        (Mbuf.mk (some q) a.len m).Stored h' rest s) ∨
      ∃ m h', a.grow A h n = .ok (none, m, h') ∧ a.Stored h' rest s ∧
        A.Refuses h.requests h'.requests n := by
  obtain ⟨m, hm, hle⟩ := mbufNewSize_spec hn
  rw [Mbuf.grow, hm, ok_bind]
  rcases ha.realloc (A := A) (n := m) (by omega) (by omega) with
    ⟨q, h', hr, ha'⟩ | ⟨h', hr, ha', hk, hno⟩
  · rw [hr]
    exact .inl ⟨q, m, h', rfl, hle, ha'⟩
  rw [hr, ok_bind]
  simp only [true_and]
  split_ifs with heq
  · rcases ha'.realloc (A := A) (n := n) (by omega) hsize.le with
      ⟨q, h'', hr', ha''⟩ | ⟨h'', hr', ha'', -, hno'⟩
    · rw [hr']
      exact .inl ⟨q, n, h'', rfl, Nat.le_refl n, ha''⟩
    · rw [hr']
      have hle : h.requests.length ≤ h'.requests.length := hk ▸ (List.prefix_append _ _).length_le
      exact .inr ⟨n, h'', rfl, ha'', hno'.mono hle⟩
  · exact .inr ⟨m, h', rfl, ha', not_not.1 heq ▸ hno⟩

/-- The bytes are inserted, or nothing has changed and there was no room. -/
theorem Mbuf.Stored.insert (ha : a.Stored h rest s) {off : ℕ} {x : Bytes} (hoff : off ≤ a.len)
    (hx : x.length < 2 ^ 61) :
    (∃ h' a', a.insert A h off x = .ok (x.length, h', a') ∧
        a'.Stored h' rest (s.take off ++ x ++ s.drop off)) ∨
      ∃ h', a.insert A h off x = .ok (0, h', a) ∧ a.Stored h' rest s ∧ 0 < x.length ∧
        NoRoom A h.requests h'.requests a x.length := by
  obtain ⟨l, howns, hh⟩ := id ha
  have hle : a.len ≤ a.size := howns.len_le
  have hlt : a.size < 2 ^ 63 := howns.size_lt
  have hsum : sizeT (a.len + x.length) = a.len + x.length := sizeT_of_lt (by omega)
  rw [Mbuf.insert, if_neg (not_not.2 ⟨hle, hoff⟩), hsum]
  split_ifs with haddr hroom
  · exact .inr ⟨h, rfl, ha, Nat.zero_lt_of_lt haddr, .inr haddr⟩
  · cases howns with
    | none =>
      have hzero : 0 + x.length ≤ 0 := hroom
      obtain rfl : x = [] := List.eq_nil_of_length_eq_zero (by omega)
      obtain rfl : off = 0 := Nat.le_zero.1 hoff
      exact .inl ⟨h, Mbuf.init, rfl, ha⟩
    | some hlen hsize =>
      obtain ⟨h', hplace, ha'⟩ := ha.place hoff hroom
      refine .inl ⟨h', _, ?_, ha'⟩
      rw [hplace]
      rfl
  · have hsize : a.len + x.length < 2 ^ 63 + 2 ^ 61 := by omega
    rcases ha.grow (A := A) hsize (by omega) with
      ⟨q, m, h', hgrow, hle, ha'⟩ | ⟨m, h', hgrow, ha', hno⟩
    · obtain ⟨h'', hplace, ha''⟩ := ha'.place hoff hle
      refine .inl ⟨h'', _, ?_, ha''⟩
      rw [hgrow, ok_bind]
      have hsame : a.place h' (some q) off x =
        (Mbuf.mk (some q) a.len m).place h' (some q) off x := rfl
      simp only [reduceCtorEq, if_false, hsame, hplace]
      rfl
    · refine .inr ⟨h', ?_, ha', by omega, .inl hno⟩
      rw [hgrow]
      rfl

/-- To append is to insert at the end. -/
theorem Mbuf.Stored.append (ha : a.Stored h rest s) {x : Bytes} (hx : x.length < 2 ^ 61) :
    (∃ h' a', a.append A h x = .ok (x.length, h', a') ∧ a'.Stored h' rest (s ++ x)) ∨
      ∃ h', a.append A h x = .ok (0, h', a) ∧ a.Stored h' rest s ∧ 0 < x.length ∧
        NoRoom A h.requests h'.requests a x.length := by
  refine (ha.insert (A := A) (Nat.le_refl a.len) hx).imp_left ?_
  rintro ⟨h', a', hinsert, ha'⟩
  rw [← ha.length, List.take_length, List.drop_length, List.append_nil] at ha'
  exact ⟨h', a', hinsert, ha'⟩

/-- The bytes stay, and the size is at least what was asked for unless this was refused. -/
theorem Mbuf.Stored.resize (ha : a.Stored h rest s) (n : ℕ) :
    ∃ h' a', a.resize A h n = .ok (h', a') ∧ a'.Stored h' rest s ∧
      (n ≤ a'.size ∨ A.Refuses h.requests h'.requests n) := by
  rw [Mbuf.resize]
  split_ifs with hn
  · by_cases hzero : n = 0
    · -- No byte is stored, and the block is freed.
      subst hzero
      obtain ⟨l, howns, hh⟩ := ha
      cases howns with
      | none => exact absurd hn (by simp [init])
      | @some p len size c hlen hsize =>
        obtain rfl : len = 0 := by simp only at hn; omega
        obtain ⟨h', hr, hh'⟩ := hh.realloc_zero (A := A)
        refine ⟨h', Mbuf.init, ?_, ⟨[], .none, hh'⟩, .inl (Nat.zero_le _)⟩
        simp only [hr, ok_bind]
        rfl
    · have hle : a.len ≤ n := by
        obtain ⟨l, howns, -⟩ := ha
        have hle : a.len ≤ a.size := howns.len_le
        omega
      rcases ha.realloc (A := A) hzero hle with ⟨q, h', hr, ha'⟩ | ⟨h', hr, ha', -, hno⟩
      · refine ⟨h', _, ?_, ha', .inl (Nat.le_refl n)⟩
        rw [hr, ok_bind]
        rfl
      · refine ⟨h', a, ?_, ha', .inr hno⟩
        rw [hr, ok_bind]
        exact if_pos ⟨rfl, hzero⟩
  · exact ⟨h, a, rfl, ha, .inl (by omega)⟩

/-- Only the other blocks are left. -/
theorem Mbuf.Stored.free (ha : a.Stored h rest s) :
    ∃ h', a.free h = .ok (h', Mbuf.init) ∧ h'.Has rest := by
  obtain ⟨l, howns, hh⟩ := ha
  cases howns with
  | none => exact ⟨h, rfl, hh⟩
  | some =>
    obtain ⟨h', hfree, hh'⟩ := hh.free
    refine ⟨h', ?_, hh'⟩
    rw [Mbuf.free, if_neg (Option.some_ne_none _), hfree]
    rfl

theorem Mbuf.Stored.clear (ha : a.Stored h rest s) : a.clear.Stored h rest [] := by
  obtain ⟨l, howns, hh⟩ := ha
  cases howns with
  | none => exact ⟨[], .none, hh⟩
  | some _ hsize => exact ⟨_, .some (Nat.zero_le _) hsize, hh⟩

/-- The bytes that stay are moved to the start of the block. -/
theorem Mbuf.Stored.remove (ha : a.Stored h rest s) (n : ℕ) :
    ∃ h' a', a.remove h n = .ok (h', a') ∧ a'.Stored h' rest (mbufRemove s n) := by
  obtain ⟨l, howns, hh⟩ := id ha
  rw [Mbuf.remove, mbufRemove, howns.length]
  split_ifs with hn
  · cases howns with
    | none => exact absurd hn (by simp only [init]; omega)
    | @some p len size c hlen hsize =>
      have hle : n ≤ len := hn.2
      have hdst : 0 + (len - n) ≤ size := by omega
      have hsrc : n + (len - n) ≤ size := by omega
      obtain ⟨c', h', hmove, hh', hmoved, -⟩ := hh.moveIn hdst hsrc
      refine ⟨h', ⟨some p, len - n, size⟩, ?_, [(p, ⟨size, c'⟩)], ?_, hh'⟩
      · rw [hmove]
        rfl
      rw [drop_cells hle, Int.zero_add, ← hmoved]
      exact .some (by omega) hsize
  · exact ⟨h, a, rfl, ha⟩

theorem Mbuf.Stored.reserve (ha : a.Stored h rest s) {n : ℕ} (hn : n < 2 ^ 61) :
    ∃ h' a', a.reserve A h n = .ok (h', a') ∧ a'.Stored h' rest s ∧
      (n ≤ a'.size - a'.len ∨ A.Refuses h.requests h'.requests (a.len + n)) := by
  have hsum : sizeT (a.len + n) = a.len + n := by
    obtain ⟨l, howns, -⟩ := ha
    have hle := howns.len_le
    have hlt := howns.size_lt
    exact sizeT_of_lt (by omega)
  rw [Mbuf.reserve, hsum]
  split_ifs
  · obtain ⟨h', a', hr, ha', hroom⟩ := ha.resize (A := A) (a.len + n)
    have hlen : a'.len = a.len := ha'.length.symm.trans ha.length
    exact ⟨h', a', hr, ha', hroom.imp_left fun hle => by omega⟩
  · exact ⟨h, a, rfl, ha, .inl (by omega)⟩

/-- What is read is the start of what has arrived, and only less than was asked for if a
    block with room for this was refused. -/
theorem Mbuf.Stored.recv (ha : a.Stored h rest s) {n : ℕ} (hn : n < 2 ^ 61) (x : Bytes) :
    ∃ y h' a', a.recv A h n x = .ok (y, h', a') ∧ a'.Stored h' rest (s ++ y) ∧ y <+: x ∧
      (x.take n <+: y ∨ A.Refuses h.requests h'.requests (a.len + n)) := by
  obtain ⟨h₁, a₁, hroom, ha₁, hle⟩ := ha.reserve (A := A) hn
  rw [Mbuf.recv, hroom, ok_bind]
  simp only
  obtain ⟨l, howns, hh⟩ := id ha₁
  generalize hy : x.take (a₁.size - a₁.len) = y
  have hpre : y <+: x := hy ▸ List.take_prefix _ _
  have hlen : y.length ≤ a₁.size - a₁.len := hy ▸ List.length_take_le _ _
  have hall : x.take n <+: y ∨ A.Refuses h.requests h₁.requests (a.len + n) :=
    hle.imp_left fun hle => hy ▸ List.take_prefix_take_left hle
  cases howns with
  | none =>
    obtain rfl : y = [] := List.eq_nil_of_length_eq_zero (Nat.le_zero.1 hlen)
    exact ⟨[], h₁, Mbuf.init, rfl, ha₁, hpre, hall⟩
  | @some p len size c hle hsize =>
    obtain ⟨h₂, hplace, ha₂⟩ := ha₁.place (x := y) (Nat.le_refl len) (by simp only at hlen; omega)
    rw [Mbuf.place, Nat.sub_self] at hplace
    have hcopy : h₁.copyIn (some p) len y = .ok h₂ := hplace
    refine ⟨y, h₂, ⟨some p, len + y.length, size⟩, ?_, ?_, hpre,
      Heap.requests_of_copyIn hcopy ▸ hall⟩
    · rw [hcopy]
      rfl
    · rwa [List.take_of_length_le length_cells.le, List.drop_of_length_le length_cells.le,
        List.append_nil] at ha₂

/-- The start of what is stored is sent, and removed. -/
theorem Mbuf.Stored.send (ha : a.Stored h rest s) (n : ℕ) :
    ∃ h' a', a.send A h n = .ok (s.take (min n (min s.length tcpIoSize)), h', a') ∧
      a'.Stored h' rest (mbufRemove s (min n (min s.length tcpIoSize))) := by
  have hread : h.copyOut a.buf 0 (min a.len tcpIoSize) = .ok (s.take (min s.length tcpIoSize)) := by
    obtain ⟨l, howns, hh⟩ := ha
    rw [howns.length]
    cases howns with
    | none => rfl
    | @some p len size c hle hsize =>
      rw [hh.copyOut (by simp only; omega), take_cells (Nat.min_le_left _ _)]
      rfl
  rw [Mbuf.send, hread, ok_bind]
  simp only [List.take_take]
  generalize hk : min n (min s.length tcpIoSize) = k
  have hle : k ≤ s.length := by omega
  split_ifs with hnil
  · refine ⟨h, a, by rw [hnil]; rfl, ?_⟩
    obtain rfl : k = 0 := by simpa [hle] using congrArg List.length hnil
    exact ha
  · rw [List.length_take_of_le hle]
    obtain ⟨h₁, a₁, hremove, ha₁⟩ := ha.remove k
    obtain ⟨h₂, a₂, htrim, ha₂, -⟩ := ha₁.resize (A := A) a₁.len
    refine ⟨h₂, a₂, ?_, ha₂⟩
    rw [hremove, ok_bind]
    simp only [Mbuf.trim, htrim]
    rfl

/-! ## The buffers of a connection -/

variable {nc : ServerConn}

/-- A reply is queued as the server's model has it, or it is lost since there is no room. -/
theorem Mbuf.Stored.queue (ha : a.Stored h rest nc.sendMbuf) {x : Bytes}
    (hx : x.length < 2 ^ 61) :
    (∃ h' a', a.append A h x = .ok (x.length, h', a') ∧
        a'.Stored h' rest (nc.queue (some x)).sendMbuf) ∨
      ∃ h', a.append A h x = .ok (0, h', a) ∧ a.Stored h' rest nc.sendMbuf ∧ 0 < x.length ∧
        NoRoom A h.requests h'.requests a x.length :=
  ha.append hx

/-- What is sent and what is left are what the server's model has. -/
theorem Mbuf.Stored.mgIfCanSendCb (ha : a.Stored h rest nc.sendMbuf)
    (hopen : nc.http.closeImmediately = false) (n : ℕ) :
    ∃ x h' a', a.send A h n = .ok (x, h', a') ∧ sent (mgIfCanSendCb nc (some n)).1 = x ∧
      a'.Stored h' rest (mgIfCanSendCb nc (some n)).2.sendMbuf := by
  obtain ⟨h', a', hsend, ha'⟩ := ha.send (A := A) n
  refine ⟨_, h', a', hsend, ?_⟩
  cases hbuf : nc.sendMbuf with
  | nil =>
    rw [hbuf] at ha'
    have hsame : Circlet.mgIfCanSendCb nc (some n) = ([], nc) := by
      rw [Circlet.mgIfCanSendCb, hopen, hbuf]
      rfl
    rw [hsame]
    refine ⟨List.take_nil.symm, ?_⟩
    simpa [mbufRemove, hbuf] using ha'
  | cons b bs =>
    rw [hbuf] at ha'
    simp only [Circlet.mgIfCanSendCb, hopen, hbuf]
    exact ⟨List.append_nil _, ha'⟩

/-! ## Runs -/

/-- What the code does with a mbuf. -/
inductive MbufOp
  | append (buf : Bytes)
  | remove (n : ℕ)
  | clear
  | resize (newSize : ℕ)
  | trim
  | recv (len : ℕ) (arrived : Bytes)
  | send (n : ℕ)
  | free

/-- What has come of it. Where room was needed, with the requests before and after it and
    the mbuf as it was before. -/
inductive MbufAction
  | appended (buf : Bytes)
  | refused (old new : List ℕ) (a : Mbuf) (buf : Bytes)
  | removed (n : ℕ)
  | cleared
  | received (old new : List ℕ) (a : Mbuf) (len : ℕ) (arrived buf : Bytes)
  | sent (n : ℕ) (buf : Bytes)

/-- One operation. A mbuf that has been freed is not used any more. -/
def MbufOp.perform (A : Allocator) (h : Heap) (a : Mbuf) :
    MbufOp → Outcome (List MbufAction × Heap × Option Mbuf)
  | .append buf => do
    let (n, h', a') ← a.append A h buf
    pure ([if n = buf.length then .appended buf else .refused h.requests h'.requests a buf], h',
      some a')
  | .remove n => do
    let (h, a) ← a.remove h n
    pure ([.removed n], h, some a)
  | .clear => pure ([.cleared], h, some a.clear)
  | .resize newSize => do
    let (h, a) ← a.resize A h newSize
    pure ([], h, some a)
  | .trim => do
    let (h, a) ← a.trim A h
    pure ([], h, some a)
  | .recv len arrived => do
    let (buf, h', a') ← a.recv A h len arrived
    pure ([.received h.requests h'.requests a len arrived buf], h', some a')
  | .send n => do
    let (buf, h, a) ← a.send A h n
    pure ([.sent n buf], h, some a)
  | .free => do
    let (h, _) ← a.free h
    pure ([], h, none)

/-- The number of bytes that there has to be room for besides those that are stored. -/
def MbufOp.room : MbufOp → ℕ
  | .append buf => buf.length
  | .recv len _ => len
  | _ => 0

/-- The bytes of a mbuf after it. What is sent is the start of them, and where room was
    needed the mbuf had as many. -/
def MbufAction.apply (s : Bytes) : MbufAction → Option Bytes
  | .appended buf => some (s ++ buf)
  | .refused _ _ a _ => if a.len = s.length then some s else none
  | .removed n => some (mbufRemove s n)
  | .cleared => some []
  | .received _ _ a _ _ buf => if a.len = s.length then some (s ++ buf) else none
  | .sent n buf =>
    let n := min n (min s.length tcpIoSize)
    if buf = s.take n then some (mbufRemove s n) else none

/-- Nothing is refused unless there is no room, and no less is read than was asked for
    unless a block of just the size for this was asked for and refused. -/
def MbufAction.Valid (A : Allocator) : MbufAction → Prop
  | .refused old new a buf => NoRoom A old new a buf.length
  | .received old new a len arrived buf =>
    buf <+: arrived ∧ (arrived.take len <+: buf ∨ A.Refuses old new (a.len + len))
  | _ => True

/-- The bytes that are there after what has been done. -/
def contentsOf (acts : List MbufAction) : Option Bytes := acts.foldlM MbufAction.apply []

/-- A mbuf with its bytes, or one that has been freed and has no block. -/
def Owned : Option Mbuf → Bytes → List (ℕ × Block) → Prop
  | some a, s, l => a.Owns s l
  | none, _, l => l = []

/-- What has been done to a mbuf with these bytes, and what has become of it. -/
def Performed (A : Allocator) (rest : List (ℕ × Block)) (s : Bytes)
    (r : List MbufAction × Heap × Option Mbuf) : Prop :=
  ∃ s' l, r.1.foldlM MbufAction.apply s = some s' ∧ (∀ act ∈ r.1, act.Valid A) ∧
    Owned r.2.2 s' l ∧ r.2.1.Has (l ++ rest)

theorem Mbuf.Stored.performed {act : MbufAction} {s' : Bytes} (ha : a.Stored h rest s')
    (hact : act.apply s = some s') (hvalid : act.Valid A) :
    Performed A rest s ([act], h, some a) := by
  obtain ⟨l, howns, hh⟩ := ha
  refine ⟨s', l, ?_, List.forall_mem_singleton.2 hvalid, howns, hh⟩
  rw [List.foldlM_cons, hact]
  rfl

theorem Mbuf.Stored.performed_nil (ha : a.Stored h rest s) :
    Performed A rest s ([], h, some a) := by
  obtain ⟨l, howns, hh⟩ := ha
  exact ⟨s, l, rfl, fun _ hact => absurd hact List.not_mem_nil, howns, hh⟩

/-- No operation faults, and each does to the bytes what it is for. -/
theorem Mbuf.Stored.perform (ha : a.Stored h rest s) {op : MbufOp} (hop : op.room < 2 ^ 61) :
    ∃ r, op.perform A h a = .ok r ∧ Performed A rest s r := by
  have hlen : a.len = s.length := ha.length.symm
  cases op with
  | append x =>
    rcases ha.append (A := A) hop with ⟨h', a', happend, ha'⟩ | ⟨h', happend, ha', hpos, hno⟩
    · refine ⟨([.appended x], h', some a'), ?_, ha'.performed rfl trivial⟩
      rw [MbufOp.perform, happend, ok_bind]
      simp only [if_true]
      rfl
    · refine ⟨([.refused h.requests h'.requests a x], h', some a), ?_,
        ha'.performed (if_pos hlen) hno⟩
      rw [MbufOp.perform, happend, ok_bind]
      simp only [if_neg hpos.ne]
      rfl
  | remove n =>
    obtain ⟨h', a', hremove, ha'⟩ := ha.remove n
    rw [MbufOp.perform, hremove]
    exact ⟨_, rfl, ha'.performed rfl trivial⟩
  | clear => exact ⟨_, rfl, ha.clear.performed rfl trivial⟩
  | resize n =>
    obtain ⟨h', a', hresize, ha', -⟩ := ha.resize (A := A) n
    rw [MbufOp.perform, hresize]
    exact ⟨_, rfl, ha'.performed_nil⟩
  | trim =>
    obtain ⟨h', a', hresize, ha', -⟩ := ha.resize (A := A) a.len
    rw [MbufOp.perform, Mbuf.trim, hresize]
    exact ⟨_, rfl, ha'.performed_nil⟩
  | recv n x =>
    obtain ⟨y, h', a', hrecv, ha', hvalid⟩ := ha.recv (A := A) (n := n) hop x
    rw [MbufOp.perform, hrecv]
    exact ⟨_, rfl, ha'.performed (if_pos hlen) hvalid⟩
  | send n =>
    obtain ⟨h', a', hsend, ha'⟩ := ha.send (A := A) n
    rw [MbufOp.perform, hsend]
    exact ⟨_, rfl, ha'.performed (if_pos rfl) trivial⟩
  | free =>
    obtain ⟨h', hfree, hh'⟩ := ha.free
    rw [MbufOp.perform, hfree]
    exact ⟨_, rfl, s, [], rfl, fun _ hact => absurd hact List.not_mem_nil, rfl, hh'⟩

/-- Mbufs on one heap, each with the operations on it in any order. -/
def mbufRun (A : Allocator) (ts : List (Turn MbufOp)) :
    Outcome (List (ℕ × MbufAction) × System Heap Mbuf) :=
  System.run Mbuf.init (MbufOp.perform A) ⟨Heap.empty, []⟩ ts

/-- The blocks of all mbufs, each of which has the bytes that the operations on it have
    left, are all that is on the heap. -/
structure Accounts (A : Allocator) (tr : List (ℕ × MbufAction)) (y : System Heap Mbuf)
    (ls : List (List (ℕ × Block))) : Prop where
  length : ls.length = y.sessions.length
  has : y.shared.Has ls.flatten
  owned (i : ℕ) (c : Option Mbuf) (l : List (ℕ × Block)) (hc : y.sessions[i]? = some c)
    (hl : ls[i]? = some l) : ∃ s, contentsOf (actionsOf i tr) = some s ∧ Owned c s l
  idle (i : ℕ) (hi : y.sessions.length ≤ i) : actionsOf i tr = []
  valid (act : ℕ × MbufAction) (hact : act ∈ tr) : act.2.Valid A

variable {tr : List (ℕ × MbufAction)} {y : System Heap Mbuf} {ls : List (List (ℕ × Block))}

theorem contentsOf_append {acts acts' : List MbufAction} (hs : contentsOf acts = some s) :
    contentsOf (acts ++ acts') = acts'.foldlM MbufAction.apply s := by
  rw [contentsOf, List.foldlM_append, show acts.foldlM MbufAction.apply [] = some s from hs]
  rfl

theorem accounts_empty : Accounts A [] ⟨Heap.empty, []⟩ [] where
  length := rfl
  has := Heap.has_empty
  owned _ _ _ hc _ := absurd hc (by simp)
  idle _ _ := rfl
  valid _ hact := absurd hact List.not_mem_nil

/-- A new mbuf has no block yet. -/
theorem Accounts.start (hy : Accounts A tr y ls) :
    Accounts A tr { y with sessions := y.sessions ++ [some Mbuf.init] } (ls ++ [[]]) where
  length := by rw [List.length_append, List.length_append, hy.length]; rfl
  has := by
    rw [List.flatten_append, List.flatten_singleton, List.append_nil]
    exact hy.has
  owned i c l hc hl := by
    rcases Nat.lt_trichotomy i y.sessions.length with hlt | rfl | hgt
    · rw [List.getElem?_append_left hlt] at hc
      rw [List.getElem?_append_left (hy.length ▸ hlt)] at hl
      exact hy.owned i c l hc hl
    · rw [List.getElem?_concat_length] at hc
      rw [← hy.length, List.getElem?_concat_length] at hl
      obtain rfl := Option.some.inj hc
      obtain rfl := Option.some.inj hl
      rw [hy.idle _ (Nat.le_refl _)]
      exact ⟨[], rfl, .none⟩
    · rw [List.getElem?_eq_none (by rw [List.length_append]; exact hgt)] at hc
      cases hc
  idle i hi := hy.idle i (by rw [List.length_append] at hi; omega)
  valid := hy.valid

/-- Only one mbuf and its block are concerned. -/
theorem Accounts.turn (hy : Accounts A tr y ls) {i : ℕ} {s : Bytes}
    (hi : y.sessions[i]? = some (some a)) (hs : contentsOf (actionsOf i tr) = some s)
    {r : List MbufAction × Heap × Option Mbuf}
    (hr : Performed A (ls.eraseIdx i).flatten s r) :
    ∃ ls', Accounts A (tr ++ r.1.map (i, ·)) ⟨r.2.1, y.sessions.set i r.2.2⟩ ls' := by
  obtain ⟨s', l', hs', hvalid, howned, hh⟩ := hr
  have hlt : i < y.sessions.length := (List.getElem?_eq_some_iff.1 hi).1
  have hlt' : i < ls.length := hy.length ▸ hlt
  refine ⟨ls.set i l', ?_, ?_, ?_, ?_, ?_⟩
  · rw [List.length_set, List.length_set, hy.length]
  · exact hh.perm (List.set_perm_cons_eraseIdx hlt' l').flatten.symm
  · intro j c l hc hl
    rw [actionsOf_append]
    by_cases hij : i = j
    · subst hij
      rw [List.getElem?_set_self hlt] at hc
      rw [List.getElem?_set_self hlt'] at hl
      obtain rfl := Option.some.inj hc
      obtain rfl := Option.some.inj hl
      rw [actionsOf_self, contentsOf_append hs]
      exact ⟨s', hs', howned⟩
    · rw [List.getElem?_set_ne hij] at hc
      rw [List.getElem?_set_ne hij] at hl
      rw [actionsOf_of_ne hij, List.append_nil]
      exact hy.owned j c l hc hl
  · intro j hj
    rw [List.length_set] at hj
    rw [actionsOf_append, hy.idle j hj, actionsOf_of_ne (by omega)]
    rfl
  · intro act hact
    rcases List.mem_append.1 hact with hold | hnew
    · exact hy.valid act hold
    · obtain ⟨act', hact', rfl⟩ := List.mem_map.1 hnew
      exact hvalid act' hact'

/-- Every turn can be taken. -/
theorem Accounts.step (hy : Accounts A tr y ls) {t : Turn MbufOp}
    (ht : ∀ i op, t = .turn i op → op.room < 2 ^ 61) :
    ∃ tr' y', y.step Mbuf.init (MbufOp.perform A) t = .ok (tr', y') ∧
      ∃ ls', Accounts A (tr ++ tr') y' ls' := by
  cases t with
  | start => exact ⟨[], _, rfl, _, by rw [List.append_nil]; exact hy.start⟩
  | turn i op =>
    rw [System.step]
    split
    · rename_i a hi
      have hlt : i < ls.length := hy.length ▸ (List.getElem?_eq_some_iff.1 hi).1
      obtain ⟨s, hs, howns⟩ := hy.owned i _ _ hi (List.getElem?_eq_getElem hlt)
      have hstored : a.Stored y.shared (ls.eraseIdx i).flatten s :=
        ⟨ls[i], howns, hy.has.perm (List.getElem_cons_eraseIdx_perm hlt).flatten.symm⟩
      obtain ⟨r, hr, hperformed⟩ := hstored.perform (A := A) (ht i op rfl)
      rw [hr]
      exact ⟨_, _, rfl, hy.turn hi hs hperformed⟩
    · exact ⟨[], y, rfl, ls, by rwa [List.append_nil]⟩

/-- If all mbufs have been freed, no block is left. -/
theorem Accounts.has_nil (hy : Accounts A tr y ls) (hall : ∀ c ∈ y.sessions, c = none) :
    y.shared.Has [] := by
  have hnil : ls.flatten = [] := by
    refine List.flatten_eq_nil_iff.2 fun l hl => ?_
    obtain ⟨i, hi, rfl⟩ := List.mem_iff_getElem.1 hl
    have hi' : i < y.sessions.length := hy.length ▸ hi
    obtain ⟨s, -, howned⟩ := hy.owned i _ _ (List.getElem?_eq_getElem hi')
      (List.getElem?_eq_getElem hi)
    rw [hall _ (List.getElem_mem hi')] at howned
    exact howned
  rw [← hnil]
  exact hy.has

/-- Every run of the operations on any number of mbufs, in any order and whatever the
    allocator refuses, goes through: no access leaves its block or is to one that was
    freed, and no block is freed twice. Each mbuf has the bytes that the operations on it
    have left, and its block is no other's; no block is left when all have been freed. -/
theorem mbufRun_accounts {ts : List (Turn MbufOp)}
    (hts : ∀ i op, .turn i op ∈ ts → op.room < 2 ^ 61) :
    ∃ tr y, mbufRun A ts = .ok (tr, y) ∧ (∃ ls, Accounts A tr y ls) ∧
      ((∀ c ∈ y.sessions, c = none) → y.shared.Has []) := by
  obtain ⟨tr, y, hrun, ls, hy⟩ :
      ∃ tr y, mbufRun A ts = .ok (tr, y) ∧ ∃ ls, Accounts A tr y ls := by
    refine exists_run (Q := fun t => ∀ i op, t = .turn i op → op.room < 2 ^ 61)
      ⟨[], accounts_empty⟩ ?_ ?_
    · rintro past y t ⟨ls, hy⟩ ht
      exact hy.step ht
    · rintro t ht i op rfl
      exact hts i op ht
  exact ⟨tr, y, hrun, ⟨ls, hy⟩, hy.has_nil⟩

/-- An allocator that grants blocks of a few bytes only. -/
def smallBlocks : Allocator where
  grants _ n := decide (n < 5)
  junk _ _ := 0xAA
  address p := 4096 * p.toUInt64
  lt_of_grants h := (of_decide_eq_true h).trans (by decide)

/-- Two mbufs. The second of what is appended to the first one is refused. -/
def twoMbufs : List (Turn MbufOp) :=
  [.start, .turn 0 (.append (ascii ['h', 'i'])), .start, .turn 1 (.recv 3 (ascii ['a', 'b', 'c'])),
    .turn 0 (.append (ascii ['h', 'e', 'l', 'l', 'o'])), .turn 0 (.send 1), .turn 1 (.remove 2),
    .turn 1 .trim, .turn 0 .free, .turn 1 .free]

theorem room_lt_twoMbufs (i : ℕ) (op : MbufOp) (h : .turn i op ∈ twoMbufs) :
    op.room < 2 ^ 61 := by
  simp only [twoMbufs, List.mem_cons, List.not_mem_nil, or_false, reduceCtorEq, false_or,
    Turn.turn.injEq] at h
  rcases h with ⟨-, rfl⟩ | ⟨-, rfl⟩ | ⟨-, rfl⟩ | ⟨-, rfl⟩ | ⟨-, rfl⟩ | ⟨-, rfl⟩ | ⟨-, rfl⟩ |
    ⟨-, rfl⟩
  all_goals decide

theorem mbufRun_accounts_twoMbufs : ∃ tr y, mbufRun smallBlocks twoMbufs = .ok (tr, y) ∧
    (∃ ls, Accounts smallBlocks tr y ls) ∧
      ((∀ c ∈ y.sessions, c = none) → y.shared.Has []) :=
  mbufRun_accounts room_lt_twoMbufs

end PunyGui.Circlet
