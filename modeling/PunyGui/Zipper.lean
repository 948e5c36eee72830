import Mathlib.Data.List.DropRight

/-!
# Texts with a cursor

A text is kept as two lists: what is before the cursor, and what is after it.

* `insert`, `backspace`, `delete`, `left`, `right`, ...: one element at a time.
* `backOver p`, `forthOver p`: the cursor moves over the longest run of elements
  next to it that satisfy `p`; `removeBack p`, `removeForth p`: the run is removed.
* `whole`: all elements. Moving the cursor does not change them.
* `DropsBack`, `DropsForth`: what is removed is what the cursor would move over.
-/

/-- What is before and what is after the cursor, both in the order of the text. -/
@[ext] structure Zipper (α : Type*) where
  before : List α
  after : List α
  deriving DecidableEq

namespace Zipper

variable {α : Type*} (t : Zipper α) (p : α → Bool)

/-- The text. -/
def whole : List α := t.before ++ t.after

/-- The text `l`, with the cursor behind its first `n` elements. -/
def split (l : List α) (n : ℕ) : Zipper α := ⟨l.take n, l.drop n⟩

def insert (a : α) : Zipper α := ⟨t.before ++ [a], t.after⟩

def backspace : Zipper α := ⟨t.before.dropLast, t.after⟩

def delete : Zipper α := ⟨t.before, t.after.tail⟩

def clearAfter : Zipper α := ⟨t.before, []⟩

def clearBefore : Zipper α := ⟨[], t.after⟩

def toStart : Zipper α := ⟨[], t.whole⟩

def toEnd : Zipper α := ⟨t.whole, []⟩

def left : Zipper α := ⟨t.before.dropLast, t.before.getLast?.toList ++ t.after⟩

def right : Zipper α := ⟨t.before ++ t.after.head?.toList, t.after.tail⟩

/-- Left over the elements before the cursor that satisfy `p`. -/
def backOver : Zipper α := ⟨t.before.rdropWhile p, t.before.rtakeWhile p ++ t.after⟩

/-- Right over the elements after the cursor that satisfy `p`. -/
def forthOver : Zipper α := ⟨t.before ++ t.after.takeWhile p, t.after.dropWhile p⟩

/-- Without the elements before the cursor that satisfy `p`. -/
def removeBack : Zipper α := ⟨t.before.rdropWhile p, t.after⟩

/-- Without the elements after the cursor that satisfy `p`. -/
def removeForth : Zipper α := ⟨t.before, t.after.dropWhile p⟩

/-- From `t` the cursor moves left to `t₁`, and `t'` is `t` without the elements in between,
    the cursor where they were. -/
def DropsBack (t t₁ t' : Zipper α) : Prop :=
  ∃ l m r, t = ⟨l ++ m, r⟩ ∧ t₁ = ⟨l, m ++ r⟩ ∧ t' = ⟨l, r⟩

/-- The same for a move to the right. -/
def DropsForth (t t₁ t' : Zipper α) : Prop :=
  ∃ l m r, t = ⟨l, m ++ r⟩ ∧ t₁ = ⟨l ++ m, r⟩ ∧ t' = ⟨l, r⟩

/-! ## Moving the cursor -/

variable {t p}

theorem whole_eq_nil_iff : t.whole = [] ↔ t.before = [] ∧ t.after = [] := List.append_eq_nil_iff

theorem split_append (l r : List α) : split (l ++ r) l.length = ⟨l, r⟩ := by
  rw [split, List.take_left, List.drop_left]

@[simp] theorem whole_toStart : t.toStart.whole = t.whole := rfl

@[simp] theorem whole_toEnd : t.toEnd.whole = t.whole := List.append_nil _

theorem dropLast_append_getLast? (l : List α) : l.dropLast ++ l.getLast?.toList = l := by
  rcases List.eq_nil_or_concat l with rfl | ⟨l, a, rfl⟩ <;> simp

@[simp] theorem whole_left : t.left.whole = t.whole := by
  rw [whole, left, ← List.append_assoc, dropLast_append_getLast?]
  rfl

@[simp] theorem whole_right : t.right.whole = t.whole := by
  rw [whole, right, List.append_assoc]
  cases h : t.after <;> simp [whole, h]

@[simp] theorem whole_backOver : (t.backOver p).whole = t.whole := by
  rw [whole, backOver, ← List.append_assoc, List.rdropWhile_append_rtakeWhile]
  rfl

@[simp] theorem whole_forthOver : (t.forthOver p).whole = t.whole := by
  rw [whole, forthOver, List.append_assoc, List.takeWhile_append_dropWhile]
  rfl

/-! ## Moving over runs, and removing them -/

variable {q : α → Bool} (t p q)

/-- Left of the cursor, the runs that are removed are those that are moved over. -/
theorem dropsBack_removeBack :
    DropsBack t ((t.backOver p).backOver q) ((t.removeBack p).removeBack q) := by
  refine ⟨(t.before.rdropWhile p).rdropWhile q,
    (t.before.rdropWhile p).rtakeWhile q ++ t.before.rtakeWhile p, t.after, ?_, ?_, rfl⟩
  · rw [← List.append_assoc, List.rdropWhile_append_rtakeWhile, List.rdropWhile_append_rtakeWhile]
  · rw [backOver, backOver, List.append_assoc]

/-- Right of it, they are if as many elements are left behind them. -/
theorem dropsForth_iff {p' q' : α → Bool} :
    DropsForth t ((t.forthOver p).forthOver q) ((t.removeForth p').removeForth q') ↔
      (t.after.dropWhile p).dropWhile q = (t.after.dropWhile p').dropWhile q' := by
  constructor
  · rintro ⟨l, m, r, -, h₁, h'⟩
    exact (congrArg after h₁).trans (congrArg after h').symm
  · intro h
    refine ⟨t.before, t.after.takeWhile p ++ (t.after.dropWhile p).takeWhile q,
      (t.after.dropWhile p).dropWhile q, ?_, ?_, ?_⟩
    · rw [List.append_assoc, List.takeWhile_append_dropWhile, List.takeWhile_append_dropWhile]
    · rw [forthOver, forthOver, List.append_assoc]
    · rw [removeForth, removeForth, h]

variable {t q}

theorem dropWhile_not_eq_self_iff (l : List α) :
    (l.dropWhile p).dropWhile (!p ·) = l.dropWhile p ↔ ∀ a ∈ l, p a = true := by
  rw [List.dropWhile_eq_self_iff, ← List.dropWhile_eq_nil_iff]
  constructor
  · intro h
    by_contra hne
    have hpos := List.length_pos_of_ne_nil hne
    have hhead := List.dropWhile_get_zero_not p l hpos
    refine h hpos ?_
    simpa using hhead
  · intro h hpos
    rw [h] at hpos
    cases hpos

/-- A run of some elements and one of the others come to the same end in both orders only if
    one of them is all there is. -/
theorem dropWhile_comm_iff (l : List α) :
    (l.dropWhile (!p ·)).dropWhile p = (l.dropWhile p).dropWhile (!p ·) ↔
      (∀ a ∈ l, p a = true) ∨ ∀ a ∈ l, p a = false := by
  cases l with
  | nil => exact iff_of_true rfl (.inl fun _ ha => absurd ha List.not_mem_nil)
  | cons a l =>
    cases ha : p a with
    | true =>
      have hstart : (a :: l).dropWhile (!p ·) = a :: l :=
        List.dropWhile_cons_of_neg (by simp [ha])
      have hother : ¬∀ b ∈ a :: l, p b = false := fun h => by
        rw [h a List.mem_cons_self] at ha
        cases ha
      rw [hstart, eq_comm, dropWhile_not_eq_self_iff, or_iff_left hother]
    | false =>
      have hstart : (a :: l).dropWhile p = a :: l := List.dropWhile_cons_of_neg (by simp [ha])
      have hother : ¬∀ b ∈ a :: l, p b = true := fun h => by
        rw [h a List.mem_cons_self] at ha
        cases ha
      have hself := dropWhile_not_eq_self_iff (!p ·) (a :: l)
      simp only [Bool.not_not, Bool.not_eq_true'] at hself
      rw [hstart, hself, or_iff_right hother]

end Zipper
