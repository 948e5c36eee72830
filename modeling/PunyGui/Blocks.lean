import Mathlib.Data.List.Nodup
import Mathlib.Data.List.Perm.Basic
import Mathlib.Logic.Function.Basic

/-!
# Blocks of memory

What has been allocated and not been freed.

* `alloc`, `free`, `read`, `write`: no address is given out twice, so that a block that has
  been freed is known from then on.
* `Has`: the blocks, with what they hold, are those of a list, each one once.
* `Has.alloc`, `Has.free`, `Has.read`, `Has.write`: what the operations do to the list.
-/

/-- The blocks at their addresses. Those from `next` on have not been given out. -/
structure Blocks (α : Type*) where
  next : ℕ
  content : ℕ → Option α
  fresh (p : ℕ) (hp : next ≤ p) : content p = none

namespace Blocks

variable {α : Type*}

/-- Nothing has been allocated. -/
def empty : Blocks α := ⟨0, fun _ => none, fun _ _ => rfl⟩

/-- A new block, and its address. -/
def alloc (b : Blocks α) (a : α) : ℕ × Blocks α where
  fst := b.next
  snd := {
    next := b.next + 1
    content := Function.update b.content b.next (some a)
    fresh := fun p hp => by
      rw [Function.update_of_ne (Nat.ne_of_gt hp)]
      exact b.fresh p (Nat.le_of_succ_le hp) }

/-- The block at an address is freed, if there is one. -/
def free (b : Blocks α) (p : ℕ) : Option (Blocks α) :=
  (b.content p).map fun _ => {
    next := b.next
    content := Function.update b.content p none
    fresh := fun q hq => by
      rw [Function.update_apply, b.fresh q hq, ite_self] }

/-- What the block at an address holds. -/
def read (b : Blocks α) (p : ℕ) : Option α := b.content p

/-- The block at an address, if there is one, gets another content. -/
def write (b : Blocks α) (p : ℕ) (a : α) : Option (Blocks α) :=
  (b.content p).map fun _ => {
    next := b.next
    content := fun q => if q = p then (b.content q).map fun _ => a else b.content q
    fresh := fun q hq => by
      rw [b.fresh q hq, Option.map_none, ite_self] }

/-- The blocks are those of the list. -/
structure Has (b : Blocks α) (l : List (ℕ × α)) : Prop where
  nodup : (l.map Prod.fst).Nodup
  content_iff (p : ℕ) (a : α) : b.content p = some a ↔ (p, a) ∈ l

variable {b b' : Blocks α} {l l' : List (ℕ × α)} {p : ℕ} {a : α}

theorem has_empty : (empty : Blocks α).Has [] where
  nodup := List.nodup_nil
  content_iff _ _ := ⟨fun h => (by cases h), fun h => absurd h List.not_mem_nil⟩

/-- The order of the list does not matter. -/
theorem Has.perm (h : b.Has l) (hl : l.Perm l') : b.Has l' where
  nodup := (hl.map Prod.fst).nodup_iff.1 h.nodup
  content_iff p a := (h.content_iff p a).trans hl.mem_iff

theorem Has.read (h : b.Has l) (hp : (p, a) ∈ l) : b.read p = some a := (h.content_iff p a).2 hp

theorem Has.alloc (h : b.Has l) (a : α) : (b.alloc a).2.Has (((b.alloc a).1, a) :: l) where
  nodup := by
    refine List.nodup_cons.2 ⟨fun hmem => ?_, h.nodup⟩
    obtain ⟨⟨p, a'⟩, hp, heq⟩ := List.mem_map.1 hmem
    have hcontent := (h.content_iff p a').2 hp
    rw [show p = b.next from heq, b.fresh _ (Nat.le_refl _)] at hcontent
    cases hcontent
  content_iff p a' := by
    simp only [Blocks.alloc, Function.update_apply, List.mem_cons, Prod.mk.injEq]
    split_ifs with hp
    · constructor
      · intro heq
        exact .inl ⟨hp, (Option.some.inj heq).symm⟩
      · rintro (⟨-, rfl⟩ | hmem)
        · rfl
        · have hcontent := (h.content_iff p a').2 hmem
          rw [hp, b.fresh _ (Nat.le_refl _)] at hcontent
          cases hcontent
    · rw [h.content_iff]
      exact (or_iff_right fun hand => hp hand.1).symm

/-- A block that is there can be freed, once. -/
theorem Has.free (h : b.Has ((p, a) :: l)) : ∃ b', b.free p = some b' ∧ b'.Has l := by
  have hcontent := h.read List.mem_cons_self
  obtain ⟨hnotMem, hnodup⟩ := List.nodup_cons.1 h.nodup
  refine ⟨_, by rw [Blocks.free, show b.content p = some a from hcontent]; rfl, hnodup, ?_⟩
  intro q a'
  simp only [Function.update_apply]
  split_ifs with hq
  · rw [hq]
    exact ⟨fun heq => (by cases heq), fun hmem => absurd (List.mem_map_of_mem hmem) hnotMem⟩
  · rw [h.content_iff, List.mem_cons, Prod.mk.injEq]
    exact or_iff_right fun hand => hq hand.1

/-- Writing to a block leaves the others alone. -/
theorem Has.write (h : b.Has ((p, a) :: l)) (a' : α) :
    ∃ b', b.write p a' = some b' ∧ b'.Has ((p, a') :: l) := by
  have hcontent : b.content p = some a := h.read List.mem_cons_self
  refine ⟨_, by rw [Blocks.write, hcontent]; rfl, h.nodup, fun q x => ?_⟩
  obtain ⟨hnotMem, -⟩ := List.nodup_cons.1 h.nodup
  simp only [List.mem_cons, Prod.mk.injEq]
  split_ifs with hq
  · subst hq
    rw [hcontent, Option.map_some, Option.some.injEq]
    constructor
    · intro heq
      exact .inl ⟨rfl, heq.symm⟩
    · rintro (⟨-, rfl⟩ | hmem)
      · rfl
      · exact absurd (List.mem_map_of_mem hmem) hnotMem
  · rw [h.content_iff, List.mem_cons, Prod.mk.injEq]
    exact or_congr_left (iff_of_false (fun hand => hq hand.1) fun hand => hq hand.1)

/-- No block is left. -/
theorem has_nil_iff : b.Has [] ↔ ∀ p, b.content p = none := by
  constructor
  · intro h p
    refine Option.eq_none_iff_forall_ne_some.2 fun a heq => ?_
    exact List.not_mem_nil ((h.content_iff p a).1 heq)
  · intro h
    refine ⟨List.nodup_nil, fun p a => ?_⟩
    rw [h p]
    exact ⟨fun heq => (by cases heq), fun hmem => absurd hmem List.not_mem_nil⟩

end Blocks
