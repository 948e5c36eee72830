import Mathlib.Data.List.Count
import Mathlib.Data.List.Induction

/-!
# Histories

The events of a run, the oldest first, and conditions on when an event may occur.

* `Along P tr`: every event of `tr` satisfies `P`, which also sees the events
  before it.
* `along_concat`: one event more.
* `Along.count_eq_one`: an event that may not occur again occurs once.
* `Run step s l s'`: the events of `l` lead from the state `s` to `s'`.
* `Run.always_iff`: what holds in every state of a run unless one of the events
  breaks it.
-/

namespace History

variable {α : Type*} {P : List α → α → Prop} {tr : List α} {a : α}

/-- Every event satisfies the condition, given the events before it. -/
def Along (P : List α → α → Prop) (tr : List α) : Prop :=
  ∀ past a rest, tr = past ++ a :: rest → P past a

@[simp] theorem along_nil : Along P [] := by
  intro past a rest h
  simp at h

@[simp] theorem along_concat : Along P (tr ++ [a]) ↔ Along P tr ∧ P tr a := by
  constructor
  · refine fun h => ⟨fun past b rest htr => h past b (rest ++ [a]) ?_, h tr a [] rfl⟩
    rw [htr, List.append_assoc, List.cons_append]
  · rintro ⟨h, ha⟩ past b rest htr
    rcases List.eq_nil_or_concat rest with rfl | ⟨rest, c, rfl⟩
    · obtain ⟨rfl, hab⟩ := List.append_inj' htr rfl
      rw [← List.head_eq_of_cons_eq hab]
      exact ha
    · rw [List.concat_eq_append, ← List.cons_append, ← List.append_assoc] at htr
      exact h past b rest (List.append_inj' htr rfl).1

/-- An event that may not occur again occurs once. -/
theorem Along.count_eq_one [DecidableEq α] (h : Along P tr) (hP : ∀ past, P past a → a ∉ past)
    (ha : a ∈ tr) : tr.count a = 1 := by
  induction tr using List.reverseRecOn with
  | nil => cases ha
  | append_singleton tr b ih =>
    rw [along_concat] at h
    rw [List.count_append, List.count_singleton]
    by_cases hba : b = a
    · subst hba
      rw [List.count_eq_zero_of_not_mem (hP tr h.2), beq_self_eq_true, if_pos rfl]
    · have hmem : a ∈ tr := by simpa [Ne.symm hba] using ha
      rw [ih h.1 hmem, beq_eq_false_iff_ne.2 hba]
      rfl

/-! ## Runs -/

section Run

variable {σ : Type*} {step : σ → α → σ → Prop} {s s' : σ} {l l' : List α}

/-- The events lead from one state to the other. -/
inductive Run (step : σ → α → σ → Prop) : σ → List α → σ → Prop
  | nil {s : σ} : Run step s [] s
  | cons {s s₁ s' : σ} {a : α} {l : List α} (h : step s a s₁) (hl : Run step s₁ l s') :
      Run step s (a :: l) s'

theorem run_append_iff : Run step s (l ++ l') s' ↔ ∃ s₁, Run step s l s₁ ∧ Run step s₁ l' s' := by
  induction l generalizing s with
  | nil =>
    refine ⟨fun h => ⟨s, .nil, h⟩, ?_⟩
    rintro ⟨_, ⟨⟩, h⟩
    exact h
  | cons a l ih =>
    constructor
    · rintro (_ | ⟨ha, hl⟩)
      obtain ⟨s₁, h₁, h₂⟩ := ih.1 hl
      exact ⟨s₁, .cons ha h₁, h₂⟩
    · rintro ⟨s₁, _ | ⟨ha, hl⟩, h₂⟩
      exact .cons ha (ih.2 ⟨s₁, hl, h₂⟩)

/-- An invariant that the events keep holds at the end. -/
theorem Run.invariant {I : σ → Prop} (h : Run step s l s')
    (hkeep : ∀ {s a s'}, a ∈ l → I s → step s a s' → I s') (hs : I s) : I s' := by
  induction h with
  | nil => exact hs
  | cons ha _ ih =>
    exact ih (fun hmem => hkeep (List.mem_cons_of_mem _ hmem)) (hkeep List.mem_cons_self hs ha)

/-- Of an invariant `I` that is kept by every event but the bad ones, which break its
    consequence `P`: then `P` holds in every state of a run exactly if no event is bad. -/
theorem Run.always_iff {I P : σ → Prop} {Bad : α → Prop} (hP : ∀ {s}, I s → P s)
    (hkeep : ∀ {s a s'}, I s → step s a s' → ¬Bad a → I s')
    (hbreak : ∀ {s a s'}, P s → step s a s' → Bad a → ¬P s') (hs : I s)
    (h : Run step s l s') :
    (∀ l₁ s₁, l₁ <+: l → Run step s l₁ s₁ → P s₁) ↔ ∀ a ∈ l, ¬Bad a := by
  constructor
  · intro hall a ha hbad
    obtain ⟨past, rest, rfl⟩ := List.append_of_mem ha
    obtain ⟨s₁, h₁, _ | ⟨hstep, -⟩⟩ := run_append_iff.1 h
    have hpast := hall past s₁ (List.prefix_append _ _) h₁
    refine hbreak hpast hstep hbad (hall (past ++ [a]) _ ?_ ?_)
    · exact ⟨rest, by simp⟩
    · exact run_append_iff.2 ⟨s₁, h₁, .cons hstep .nil⟩
  · intro hgood l₁ s₁ hl h₁
    exact hP (h₁.invariant (fun ha hs hstep => hkeep hs hstep (hgood _ (hl.subset ha))) hs)

end Run

end History
