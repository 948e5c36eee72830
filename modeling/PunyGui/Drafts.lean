import Mathlib.Data.Int.Notation
import Mathlib.Data.List.Induction

/-!
# Texts with a clamped index

A list of texts, of which one at a time is worked on in a copy. A move puts the copy
back, and takes one of another text; the index stays in the list.

* `Drafts`: the texts, the index, which is one of the list, and the copy.
* `Step`, `run`: edits of the copy, and moves.
* `lastLeft`: the copy that was put back last at an index.
* `slots_run`: every text is the one put back last, or the one of the beginning.
* `current_move`: so is what a move takes a copy of.
-/

/-- A list of texts, the index of one of them, and a copy of it that is worked on. -/
structure Drafts (α β : Type*) where
  slots : List α
  index : ℕ
  current : β
  index_lt : index < slots.length

namespace Drafts

/-- What is done: the copy is changed, or the index is moved. -/
inductive Step (β : Type*)
  | edit (b : β)
  | move (delta : ℤ)

variable {α β : Type*} (save : β → α) (load : α → β) (d : Drafts α β) (l : List (Step β))

/-- The texts, with the copy put back. -/
def saved : List α := d.slots.set d.index (save d.current)

/-- Where a move goes. -/
def target (delta : ℤ) : ℕ := min (d.index + delta).toNat (d.slots.length - 1)

theorem target_lt (delta : ℤ) : d.target delta < (d.saved save).length := by
  have := d.index_lt
  rw [target, saved, List.length_set]
  omega

/-- The copy is put back, and one of another text is taken, if there is another. -/
def move (delta : ℤ) : Drafts α β :=
  if 1 < d.slots.length then
    { slots := d.saved save
      index := d.target delta
      current := load ((d.saved save).get ⟨d.target delta, d.target_lt save delta⟩)
      index_lt := d.target_lt save delta }
  else d

def step : Step β → Drafts α β
  | .edit b => { d with current := b }
  | .move delta => d.move save load delta

def run : Drafts α β := l.foldl (step save load) d

/-- The copy that a step puts back, and where. -/
def leaving : Step β → List (ℕ × β)
  | .edit _ => []
  | .move _ => if 1 < d.slots.length then [(d.index, d.current)] else []

/-- The copies that have been put back, the last one first. -/
def departures : List (Step β) → Drafts α β → List (ℕ × β)
  | [], _ => []
  | s :: l, d => departures l (d.step save load s) ++ d.leaving s

/-- The copy that was put back last at an index. -/
def lastLeft (i : ℕ) : Option β := (departures save load l d).lookup i

/-- The text that was put back last, or the one of the beginning. -/
def content (i : ℕ) : Option α := ((d.lastLeft save load l i).map save).or d.slots[i]?

variable {save load d l}

theorem move_of_le (h : ¬1 < d.slots.length) (delta : ℤ) : d.move save load delta = d := if_neg h

theorem slots_move (h : 1 < d.slots.length) (delta : ℤ) :
    (d.move save load delta).slots = d.saved save := by
  rw [move, if_pos h]

theorem index_move (h : 1 < d.slots.length) (delta : ℤ) :
    (d.move save load delta).index = d.target delta := by
  rw [move, if_pos h]

theorem current_eq_load (h : 1 < d.slots.length) (delta : ℤ) :
    some (d.move save load delta).current =
      ((d.move save load delta).slots[(d.move save load delta).index]?).map load := by
  rw [move, if_pos h]
  simp [target_lt]

theorem run_concat (s : Step β) :
    d.run save load (l ++ [s]) = (d.run save load l).step save load s :=
  List.foldl_append

theorem departures_concat (s : Step β) : departures save load (l ++ [s]) d =
    (d.run save load l).leaving s ++ departures save load l d := by
  induction l generalizing d with
  | nil => exact (List.append_nil _).symm
  | cons a l ih =>
    rw [List.cons_append, departures, ih, departures, List.append_assoc]
    rfl

@[simp] theorem length_step (s : Step β) : (d.step save load s).slots.length = d.slots.length := by
  cases s with
  | edit b => rfl
  | move delta =>
    rw [step, move]
    split_ifs
    · exact List.length_set
    · rfl

@[simp] theorem length_run : (d.run save load l).slots.length = d.slots.length := by
  induction l using List.reverseRecOn with
  | nil => rfl
  | append_singleton l s ih => rw [run_concat, length_step, ih]

/-- One step more. -/
theorem slots_step (s : Step β)
    (h : ∀ i, (d.run save load l).slots[i]? = d.content save load l i) (i : ℕ) :
    ((d.run save load l).step save load s).slots[i]? = d.content save load (l ++ [s]) i := by
  rw [content, lastLeft, departures_concat]
  cases s with
  | edit b => exact h i
  | move delta =>
    rw [step, leaving]
    by_cases hlen : 1 < (d.run save load l).slots.length
    · rw [slots_move hlen, saved, if_pos hlen, List.singleton_append]
      by_cases hi : i = (d.run save load l).index
      · subst hi
        rw [List.getElem?_set_self (d.run save load l).index_lt, List.lookup_cons_self]
        rfl
      · rw [List.getElem?_set_ne (Ne.symm hi), List.lookup_cons, beq_false_of_ne hi]
        exact h i
    · rw [move_of_le hlen, if_neg hlen]
      exact h i

/-- After any steps, every text is the one that was put back last, or the one of the
    beginning. -/
theorem slots_run (i : ℕ) : (d.run save load l).slots[i]? = d.content save load l i := by
  induction l using List.reverseRecOn generalizing i with
  | nil => rfl
  | append_singleton l s ih =>
    rw [run_concat]
    exact slots_step s ih i

/-- After any steps, a move takes a copy of the text that was put back last, or of the one of
    the beginning. -/
theorem current_move (h : 1 < d.slots.length) (delta : ℤ) :
    some ((d.run save load l).move save load delta).current =
      (d.content save load (l ++ [.move delta]) ((d.run save load l).target delta)).map load := by
  have hlen : 1 < (d.run save load l).slots.length := by rwa [length_run]
  rw [current_eq_load hlen, index_move hlen, ← slots_step (.move delta) slots_run]
  rfl

end Drafts
