import Mathlib.Data.List.Perm.Basic
import Mathlib.Data.List.Induction
import Mathlib.Order.Lattice

/-!
# The smallest elements of a sequence

A sorted list of bounded length that is to have the smallest elements of a sequence. A
new element is inserted by exchanges along the list; once the list is full, what is left
over in the end is dropped.

* `exchange`, `add`: the insertion of an element.
* `Keeps cap l L`: the list `l` has the `cap` smallest elements of `L`.
* `keeps_foldl_add`: it has them whatever the order of the sequence.
-/

namespace Smallest

variable {α β : Type*} [LinearOrder β] (key : α → β) {cap : ℕ} {x : α} {l L : List α}

/-- The element takes the place of the first one that is larger, which is inserted behind it
    in the same way. What is left over is returned with the list. -/
def exchange (x : α) : List α → α × List α
  | [] => (x, [])
  | y :: l =>
    if key x < key y then ((exchange y l).1, x :: (exchange y l).2)
    else ((exchange x l).1, y :: (exchange x l).2)

/-- The list with one more element, unless it is full. -/
def add (cap : ℕ) (l : List α) (x : α) : List α :=
  if (exchange key x l).2.length = cap then (exchange key x l).2
  else (exchange key x l).2 ++ [(exchange key x l).1]

/-- The list is sorted. -/
def Sorted (l : List α) : Prop := l.Pairwise fun a b => key a ≤ key b

/-- The list is sorted and has the smallest elements, as many as it may have. -/
structure Keeps (cap : ℕ) (l L : List α) : Prop where
  sorted : Sorted key l
  length_le : l.length ≤ cap
  rest : ∃ rest, (l ++ rest).Perm L ∧ (∀ a ∈ l, ∀ b ∈ rest, key a ≤ key b) ∧
    (rest ≠ [] → l.length = cap)

theorem exchange_perm (x : α) (l : List α) :
    ((exchange key x l).2 ++ [(exchange key x l).1]).Perm (l ++ [x]) := by
  induction l generalizing x with
  | nil => exact .refl _
  | cons y l ih =>
    rw [exchange]
    split_ifs
    · have hswap : (x :: (l ++ [y])).Perm (y :: (l ++ [x])) := by
        have hx := (List.perm_append_singleton x l).symm.cons y
        have hy := (List.perm_append_singleton y l).cons x
        exact hy.trans ((List.Perm.swap y x l).trans hx)
      exact ((ih y).cons x).trans hswap
    · exact (ih x).cons y

theorem length_exchange (x : α) (l : List α) : (exchange key x l).2.length = l.length := by
  have h := (exchange_perm key x l).length_eq
  simpa using h

variable {key}

theorem sorted_exchange (h : Sorted key l) (x : α) :
    Sorted key ((exchange key x l).2 ++ [(exchange key x l).1]) := by
  induction l generalizing x with
  | nil => exact List.pairwise_singleton _ _
  | cons y l ih =>
    obtain ⟨hy, hl⟩ := List.pairwise_cons.1 h
    rw [exchange]
    split_ifs with hlt
    · refine List.pairwise_cons.2 ⟨fun a ha => ?_, ih hl y⟩
      rcases List.mem_append.1 ((exchange_perm key y l).mem_iff.1 ha) with ha | ha
      · exact hlt.le.trans (hy a ha)
      · rw [List.mem_singleton.1 ha]
        exact hlt.le
    · refine List.pairwise_cons.2 ⟨fun a ha => ?_, ih hl x⟩
      rcases List.mem_append.1 ((exchange_perm key x l).mem_iff.1 ha) with ha | ha
      · exact hy a ha
      · rw [List.mem_singleton.1 ha]
        exact not_lt.1 hlt

/-- What stays in the list is below all that was above the list before. -/
theorem exchange_le (h : Sorted key l) {x a b : α} (hle : ∀ a ∈ l, key a ≤ key b)
    (ha : a ∈ (exchange key x l).2) : key a ≤ key b := by
  have hp := exchange_perm key x l
  obtain ⟨-, -, hlast⟩ := List.pairwise_append.1 (sorted_exchange h x)
  have hmem := hp.mem_iff.1 (List.mem_append_right _ (List.mem_singleton_self _))
  rcases List.mem_append.1 hmem with hmem | hmem
  · exact (hlast a ha _ (List.mem_singleton_self _)).trans (hle _ hmem)
  · -- The new element is left over itself, and the list is as it was.
    rw [List.mem_singleton.1 hmem] at hp
    exact hle a (((List.perm_append_right_iff [x]).1 hp).mem_iff.1 ha)

theorem keeps_nil : Keeps key cap ([] : List α) [] :=
  ⟨.nil, Nat.zero_le _, [], .refl _, fun _ h => absurd h List.not_mem_nil, fun h => absurd rfl h⟩

theorem Keeps.subset (h : Keeps key cap l L) : l ⊆ L := by
  obtain ⟨-, -, rest, hperm, -⟩ := h
  exact fun a ha => hperm.mem_iff.1 (List.mem_append_left _ ha)

theorem Keeps.length_eq (h : Keeps key cap l L) : l.length = min cap L.length := by
  obtain ⟨-, hle, rest, hperm, -, hfull⟩ := h
  have hlen := hperm.length_eq
  rw [List.length_append] at hlen
  cases rest with
  | nil =>
    rw [List.length_nil] at hlen
    omega
  | cons b rest =>
    have hcap := hfull (List.cons_ne_nil b rest)
    omega

/-- One more element. -/
theorem Keeps.add (h : Keeps key cap l L) (x : α) : Keeps key cap (add key cap l x) (L ++ [x]) := by
  obtain ⟨hsorted, hlen, rest, hperm, hle, hfull⟩ := h
  have hs := sorted_exchange hsorted x
  have hp := exchange_perm key x l
  have hl := length_exchange key x l
  rw [Smallest.add]
  split_ifs with hcap
  · -- What is left over joins the rest.
    obtain ⟨hs₁, -, hlast⟩ := List.pairwise_append.1 hs
    refine ⟨hs₁, Nat.le_of_eq hcap, (exchange key x l).1 :: rest, ?_, fun a ha b hb => ?_,
      fun _ => hcap⟩
    · have hmove : (l ++ [x] ++ rest).Perm (l ++ rest ++ [x]) := by
        rw [List.append_assoc, List.append_assoc]
        exact List.perm_append_comm.append_left l
      have hsplit := (hp.append_right rest).trans (hmove.trans (hperm.append_right [x]))
      rwa [List.append_assoc, List.singleton_append] at hsplit
    · rcases List.mem_cons.1 hb with rfl | hb
      · exact hlast a ha _ (List.mem_singleton_self _)
      · exact exchange_le hsorted (fun a ha => hle a ha b hb) ha
  · -- The list was not full, so there is no rest.
    have hrest : rest = [] := by
      by_contra hne
      exact hcap (hl.trans (hfull hne))
    rw [hrest, List.append_nil] at hperm
    refine ⟨hs, ?_, [], ?_, fun _ _ b hb => absurd hb List.not_mem_nil, fun h => absurd rfl h⟩
    · rw [List.length_append, List.length_singleton]
      omega
    · rw [List.append_nil]
      exact hp.trans (hperm.append_right [x])

theorem keeps_foldl_add (L : List α) : Keeps key cap (L.foldl (Smallest.add key cap) []) L := by
  induction L using List.reverseRecOn with
  | nil => exact keeps_nil
  | append_singleton L x ih =>
    rw [List.foldl_append]
    exact ih.add x

end Smallest
