import Mathlib.Data.List.Basic
import PunyGui.Imp

/-!
# Sessions

A server that gives turns to its sessions. Each session has a state of its own, and
all of them share another one. They are started at any time, and end by themselves.

* `System.step`: a session is started, or gets a turn.
* `System.run`: one turn after the other, in any order.
* `actionsOf i tr`: what one session does in a run.
* `run_session`: what the turns of a session keep holds of each of them in every run,
  whatever the others do.
* `run_shared`: what all turns keep holds of the shared state.
* `exists_run`: there is a run if every turn can be taken.
-/

namespace Sessions

open Imp

variable {ω σ ι α : Type}

/-- The shared state, and the sessions that have been started. Some have ended. -/
structure System (ω σ : Type) where
  shared : ω
  sessions : List (Option σ)

/-- A session is started, or an input is for the turn of one of them. -/
inductive Turn (ι : Type)
  | start
  | turn (i : ℕ) (input : ι)

variable (init : σ) (turn : ω → σ → ι → Outcome (List α × ω × Option σ))

/-- One turn, with what the session does in it. -/
def System.step (y : System ω σ) : Turn ι → Outcome (List (ℕ × α) × System ω σ)
  | .start => pure ([], { y with sessions := y.sessions ++ [some init] })
  | .turn i input =>
    match y.sessions[i]? with
    | some (some s) => do
      let (acts, shared, s) ← turn y.shared s input
      pure (acts.map (i, ·), ⟨shared, y.sessions.set i s⟩)
    -- A session that has not been started yet or has ended gets no turn.
    | _ => pure ([], y)

/-- One turn after the other. -/
def System.run (y : System ω σ) : List (Turn ι) → Outcome (List (ℕ × α) × System ω σ)
  | [] => pure ([], y)
  | t :: ts => do
    let (tr, y) ← y.step init turn t
    let (tr', y) ← run y ts
    pure (tr ++ tr', y)

/-- What one of the sessions does. -/
def actionsOf (i : ℕ) (tr : List (ℕ × α)) : List α :=
  (tr.filter fun a => a.1 == i).map Prod.snd

variable {init turn} {w : ω} {y y' : System ω σ} {i j : ℕ} {tr tr' : List (ℕ × α)}
  {ts : List (Turn ι)}

/-! ## What one session does -/

@[simp] theorem actionsOf_append :
    actionsOf i (tr ++ tr') = actionsOf i tr ++ actionsOf i tr' := by
  rw [actionsOf, List.filter_append, List.map_append, actionsOf, actionsOf]

theorem actionsOf_self (acts : List α) : actionsOf i (acts.map (i, ·)) = acts := by
  rw [actionsOf, List.filter_map, List.map_map]
  simp [Function.comp_def]

theorem actionsOf_of_ne (h : j ≠ i) (acts : List α) : actionsOf i (acts.map (j, ·)) = [] := by
  rw [actionsOf, List.filter_map, List.map_map]
  simp [Function.comp_def, h]

theorem mem_of_mem_actionsOf {a : α} (h : a ∈ actionsOf i tr) : a ∈ tr.map Prod.snd := by
  obtain ⟨b, hb, rfl⟩ := List.mem_map.1 h
  exact List.mem_map_of_mem (List.mem_of_mem_filter hb)

/-! ## Runs -/

/-- What a turn does. -/
theorem step_cases {t : Turn ι} (h : y.step init turn t = .ok (tr, y')) :
    (t = .start ∧ tr = [] ∧ y' = { y with sessions := y.sessions ++ [some init] }) ∨
      (∃ i input s acts s', t = .turn i input ∧ y.sessions[i]? = some (some s) ∧
        turn y.shared s input = .ok (acts, y'.shared, s') ∧ tr = acts.map (i, ·) ∧
          y'.sessions = y.sessions.set i s') ∨
      (tr = [] ∧ y' = y) := by
  cases t with
  | start =>
    obtain ⟨rfl, rfl⟩ := Prod.mk.inj (Except.ok.inj h)
    exact .inl ⟨rfl, rfl, rfl⟩
  | turn i input =>
    rw [System.step] at h
    split at h
    · rename_i s hs
      obtain ⟨⟨acts, shared, s'⟩, hturn, h⟩ := bind_eq_ok.1 h
      obtain ⟨rfl, rfl⟩ := Prod.mk.inj (Except.ok.inj h)
      exact .inr (.inl ⟨i, input, s, acts, s', rfl, hs, hturn, rfl, rfl⟩)
    · obtain ⟨rfl, rfl⟩ := Prod.mk.inj (Except.ok.inj h)
      exact .inr (.inr ⟨rfl, rfl⟩)

/-- To prove something of all runs, go through their turns. -/
theorem run_induction {motive : List (ℕ × α) → System ω σ → Prop} (nil : motive [] y)
    (step : ∀ past y₁ t tr y₂, motive past y₁ → y₁.step init turn t = .ok (tr, y₂) →
      motive (past ++ tr) y₂)
    (h : y.run init turn ts = .ok (tr, y')) : motive tr y' := by
  have hgen : ∀ ts past y₁ tr, motive past y₁ → System.run init turn y₁ ts = .ok (tr, y') →
      motive (past ++ tr) y' := by
    intro ts
    induction ts with
    | nil =>
      intro past y₁ tr hpast hrun
      obtain ⟨rfl, rfl⟩ := Prod.mk.inj (Except.ok.inj hrun)
      rwa [List.append_nil]
    | cons t ts ih =>
      intro past y₁ tr hpast hrun
      obtain ⟨⟨tr₁, y₂⟩, hstep, hrun⟩ := bind_eq_ok.1 hrun
      obtain ⟨⟨tr₂, y₃⟩, hrest, hrun⟩ := bind_eq_ok.1 hrun
      obtain ⟨rfl, rfl⟩ := Prod.mk.inj (Except.ok.inj hrun)
      rw [← List.append_assoc]
      exact ih _ _ _ (step past y₁ t tr₁ y₂ hpast hstep) hrest
  exact hgen ts [] y tr nil h

/-- If every turn can be taken and keeps a property, so does every run. -/
theorem exists_run {P : List (ℕ × α) → System ω σ → Prop} {Q : Turn ι → Prop} (nil : P [] y)
    (step : ∀ past y t, P past y → Q t →
      ∃ tr y', y.step init turn t = .ok (tr, y') ∧ P (past ++ tr) y')
    (hts : ∀ t ∈ ts, Q t) : ∃ tr y', y.run init turn ts = .ok (tr, y') ∧ P tr y' := by
  have hgen : ∀ ts past y, P past y → (∀ t ∈ ts, Q t) →
      ∃ tr y', System.run init turn y ts = .ok (tr, y') ∧ P (past ++ tr) y' := by
    intro ts
    induction ts with
    | nil =>
      intro past y hpast _
      exact ⟨[], y, rfl, by rwa [List.append_nil]⟩
    | cons t ts ih =>
      intro past y hpast hts
      obtain ⟨ht, hts⟩ := List.forall_mem_cons.1 hts
      obtain ⟨tr, y₁, hstep, hy₁⟩ := step past y t hpast ht
      obtain ⟨tr', y₂, hrun, hy₂⟩ := ih _ _ hy₁ hts
      refine ⟨tr ++ tr', y₂, ?_, by rwa [← List.append_assoc]⟩
      rw [System.run, hstep, ok_bind]
      simp only [hrun]
      rfl
  exact hgen ts [] y nil hts

/-- What all turns keep of the shared state and of what has been done holds in every
    run. -/
theorem run_shared {Q : List α → ω → Prop} (hinit : Q [] w)
    (hturn : ∀ past w s input acts w' s', Q past w → turn w s input = .ok (acts, w', s') →
      Q (past ++ acts) w')
    (h : System.run init turn ⟨w, []⟩ ts = .ok (tr, y)) : Q (tr.map Prod.snd) y.shared := by
  refine run_induction (motive := fun tr y => Q (tr.map Prod.snd) y.shared) ?_ ?_ h
  · exact hinit
  intro past y₁ t tr y₂ hpast hstep
  rcases step_cases hstep with
    ⟨-, rfl, rfl⟩ | ⟨i, input, s, acts, s', -, -, hs, rfl, -⟩ | ⟨rfl, rfl⟩
  · rwa [List.append_nil]
  · have hmap : (acts.map (i, ·)).map Prod.snd = acts := by
      rw [List.map_map]
      exact List.map_id _
    rw [List.map_append, hmap]
    exact hturn _ _ _ _ _ _ _ hpast hs
  · rwa [List.append_nil]

/-- What the turns of a session keep, of its state and of what it has done, holds of each
    session in every run. -/
theorem run_session {P : List α → Option σ → Prop} (hinit : P [] (some init))
    (hturn : ∀ past w s input acts w' s', P past (some s) →
      turn w s input = .ok (acts, w', s') → P (past ++ acts) s')
    (h : System.run init turn ⟨w, []⟩ ts = .ok (tr, y)) {s : Option σ}
    (hs : y.sessions[i]? = some s) : P (actionsOf i tr) s := by
  have hall : (∀ i, y.sessions.length ≤ i → actionsOf i tr = []) ∧
      ∀ i s, y.sessions[i]? = some s → P (actionsOf i tr) s := by
    refine run_induction (motive := fun tr y =>
      (∀ i, y.sessions.length ≤ i → actionsOf i tr = []) ∧
        ∀ i s, y.sessions[i]? = some s → P (actionsOf i tr) s)
      ⟨fun _ _ => rfl, fun i s hs => by cases hs⟩ ?_ h
    intro past y₁ t tr y₂ ⟨hpast, hP⟩ hstep
    rcases step_cases hstep with
      ⟨-, rfl, rfl⟩ | ⟨j, input, s, acts, s', -, hj, hs, rfl, hy₂⟩ | ⟨rfl, rfl⟩
    · rw [List.append_nil]
      refine ⟨fun i hi => hpast i ?_, fun i s hs => ?_⟩
      · rw [List.length_append] at hi
        omega
      · rcases Nat.lt_or_ge i y₁.sessions.length with hlt | hge
        · rw [List.getElem?_append_left hlt] at hs
          exact hP i s hs
        · -- The session that has been started.
          rw [List.getElem?_append_right hge] at hs
          rw [hpast i hge]
          obtain rfl : s = some init := List.mem_singleton.1 (List.mem_of_getElem? hs)
          exact hinit
    · obtain ⟨hlt, -⟩ := List.getElem?_eq_some_iff.1 hj
      simp only [actionsOf_append, hy₂, List.length_set]
      refine ⟨fun i hi => ?_, fun i s'' hi => ?_⟩
      · rw [hpast i hi, actionsOf_of_ne (by omega), List.append_nil]
      · by_cases hij : j = i
        · subst hij
          rw [List.getElem?_set_self hlt] at hi
          obtain rfl := Option.some.inj hi
          rw [actionsOf_self]
          exact hturn _ _ _ _ _ _ _ (hP j _ hj) hs
        · rw [List.getElem?_set_ne hij] at hi
          rw [actionsOf_of_ne hij, List.append_nil]
          exact hP i s'' hi
    · rw [List.append_nil]
      exact ⟨hpast, hP⟩
  exact hall.2 i s hs

end Sessions
