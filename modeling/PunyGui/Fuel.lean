import Mathlib.Data.Option.Basic
import Mathlib.Order.Nat

/-!
# Bounds on the number of steps

A loop that may run forever is modelled with a bound on its steps: the bounded
loop is a function `f : ℕ → Option α`, which gives `none` while the bound is too
small.

* `Yields f a`: every bound that is large enough gives `a`, that is, the loop
  ends with `a`.
* `Yields.bind_iff`, `yields_succ_iff`: how the results of a loop follow from
  those of its body and of the loops inside it.
* `after next n s`: the state after so many steps of a loop, if it goes on so long.
* `forever_iff`: a loop whose steps make the state smaller or leave it as it is runs
  forever exactly if it comes to a state that a step leaves as it is.
-/

namespace Fuel

variable {α β : Type*} {f : ℕ → Option α} {a b : α}

/-- Every bound that is large enough gives the result. -/
def Yields (f : ℕ → Option α) (a : α) : Prop := ∃ n, ∀ m, n ≤ m → f m = some a

theorem Yields.unique (ha : Yields f a) (hb : Yields f b) : a = b := by
  obtain ⟨n, hn⟩ := ha
  obtain ⟨m, hm⟩ := hb
  have h := (hn (max n m) (le_max_left n m)).symm.trans (hm (max n m) (le_max_right n m))
  exact Option.some.inj h

@[simp] theorem yields_some : Yields (fun _ => some a) b ↔ a = b := by
  constructor
  · rintro ⟨n, hn⟩
    exact Option.some.inj (hn n le_rfl)
  · rintro rfl
    exact ⟨0, fun _ _ => rfl⟩

/-- One step more or less makes no difference. -/
theorem yields_succ_iff : Yields (fun n => f (n + 1)) a ↔ Yields f a := by
  constructor
  · rintro ⟨n, hn⟩
    refine ⟨n + 1, fun m hm => ?_⟩
    cases m with
    | zero => cases hm
    | succ m => exact hn m (Nat.le_of_succ_le_succ hm)
  · rintro ⟨n, hn⟩
    exact ⟨n, fun m hm => hn (m + 1) (Nat.le_succ_of_le hm)⟩

/-- After a computation with a result, only what follows it matters. -/
theorem Yields.bind_iff {g : ℕ → α → Option β} {r : β} (h : Yields f a) :
    Yields (fun n => (f n).bind (g n)) r ↔ Yields (fun n => g n a) r := by
  obtain ⟨n, hn⟩ := h
  have heq : ∀ m, n ≤ m → (f m).bind (g m) = g m a := fun m hm => by rw [hn m hm, Option.bind_some]
  constructor
  · rintro ⟨m, hm⟩
    exact ⟨max n m, fun k hk => (heq k ((le_max_left n m).trans hk)).symm.trans
      (hm k ((le_max_right n m).trans hk))⟩
  · rintro ⟨m, hm⟩
    exact ⟨max n m, fun k hk => (heq k ((le_max_left n m).trans hk)).trans
      (hm k ((le_max_right n m).trans hk))⟩

/-! ## Loops that go on -/

section Steps

variable {σ : Type*} {next : σ → Option σ} {s t : σ} {n : ℕ}

/-- The state after so many steps, each of which gives the state for the next one. -/
def after (next : σ → Option σ) : ℕ → σ → Option σ
  | 0, s => some s
  | n + 1, s => (next s).bind (after next n)

theorem after_succ (h : next s = some t) : after next (n + 1) s = after next n t := by
  rw [after, h, Option.bind_some]

theorem after_add (m : ℕ) (h : after next n s = some t) :
    after next (n + m) s = after next m t := by
  induction n generalizing s with
  | zero =>
    obtain rfl := Option.some.inj h
    rw [Nat.zero_add]
  | succ n ih =>
    obtain ⟨s', hs', h⟩ := Option.bind_eq_some_iff.1 h
    rw [Nat.succ_add, after_succ hs', ih h]

/-- A loop that goes on for some steps has gone on for fewer. -/
theorem after_isSome_mono {m : ℕ} (h : (after next n s).isSome) (hmn : m ≤ n) :
    (after next m s).isSome := by
  induction m generalizing n s with
  | zero => rfl
  | succ m ih =>
    obtain ⟨n, rfl⟩ : ∃ n', n = n' + 1 := ⟨n - 1, by omega⟩
    cases hs : next s with
    | none => simp [after, hs] at h
    | some s' =>
      rw [after_succ hs] at h ⊢
      exact ih h (Nat.le_of_succ_le_succ hmn)

theorem after_of_fixed (h : next t = some t) (n : ℕ) : after next n t = some t := by
  induction n with
  | zero => rfl
  | succ n ih => rw [after_succ h, ih]

/-- A loop whose steps make the state smaller or leave it as it is runs forever
    exactly if it comes to a state that a step leaves as it is. -/
theorem forever_iff (v : σ → ℕ) {I : σ → Prop} (hI : I s)
    (hstep : ∀ s s', I s → next s = some s' → I s' ∧ (v s' < v s ∨ s' = s)) :
    (∀ n, (after next n s).isSome) ↔ ∃ n t, after next n s = some t ∧ next t = some t := by
  constructor
  · intro h
    induction hv : v s using Nat.strong_induction_on generalizing s with
    | h k ih =>
      obtain ⟨s', hs'⟩ : ∃ s', next s = some s' := by
        obtain ⟨t, ht⟩ := Option.isSome_iff_exists.1 (h 1)
        obtain ⟨s', hs', -⟩ := Option.bind_eq_some_iff.1 ht
        exact ⟨s', hs'⟩
      obtain ⟨hI', hlt | rfl⟩ := hstep s s' hI hs'
      · obtain ⟨n, t, hn, ht⟩ := ih (v s') (hv ▸ hlt) hI'
          (fun n => by simpa only [after_succ hs'] using h (n + 1)) rfl
        exact ⟨n + 1, t, (after_succ hs').trans hn, ht⟩
      · exact ⟨0, s', rfl, hs'⟩
  · rintro ⟨n, t, hn, ht⟩ m
    refine after_isSome_mono (n := n + m) ?_ (Nat.le_add_left m n)
    rw [after_add m hn, after_of_fixed ht]
    rfl

end Steps

end Fuel
