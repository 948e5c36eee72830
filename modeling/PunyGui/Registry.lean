import Mathlib.Data.List.Induction
import Mathlib.Data.List.Nodup
import Mathlib.Logic.Function.Basic

/-!
# Registries

A registry maps keys to the values last put for them. Two registries are
compared: one with the keys as they are, and one that sees the keys only
through a projection `p`, as a program does that stores the values under a part
of their key.

* `latest log`: the map after the puts of `log`, the oldest first.
* `coarsen p log`: the same puts, under the projected keys.
* `Faithful p log`: the projected registry has the latest value of every key.
* `faithful_prefix_iff`: it has them all along exactly if every put agrees with
  the values of the other keys of the same projection.
* `assign f log`: the puts into a map that has a value for every key.
* `assign_perm`: if no key is put twice, their order does not matter.
-/

namespace Registry

variable {K L V : Type*}

/-- The puts under the projected keys. -/
def coarsen (p : K → L) (log : List (K × V)) : List (L × V) := log.map (Prod.map p id)

@[simp] theorem coarsen_concat (p : K → L) (log : List (K × V)) (u : K × V) :
    coarsen p (log ++ [u]) = coarsen p log ++ [(p u.1, u.2)] := by
  simp [coarsen, Prod.map]

variable [DecidableEq K] [DecidableEq L]

/-- The values last put for the keys. -/
def latest (log : List (K × V)) : K → Option V :=
  log.foldl (fun m u => Function.update m u.1 (some u.2)) fun _ => none

@[simp] theorem latest_nil (k : K) : latest ([] : List (K × V)) k = none := rfl

@[simp] theorem latest_concat (log : List (K × V)) (u : K × V) (k : K) :
    latest (log ++ [u]) k = if k = u.1 then some u.2 else latest log k := by
  simp [latest, Function.update_apply]

omit [DecidableEq K] in
theorem latest_coarsen_concat (p : K → L) (log : List (K × V)) (u : K × V) (l : L) :
    latest (coarsen p (log ++ [u])) l =
      if l = p u.1 then some u.2 else latest (coarsen p log) l := by
  rw [coarsen_concat, latest_concat]

/-- The projected registry has the latest value of every key. -/
def Faithful (p : K → L) (log : List (K × V)) : Prop :=
  ∀ k v, latest log k = some v → latest (coarsen p log) (p k) = some v

/-- A put has the value that the other keys of its projection have already. -/
def Agrees (p : K → L) (log : List (K × V)) (u : K × V) : Prop :=
  ∀ k v, latest log k = some v → p k = p u.1 → k ≠ u.1 → v = u.2

variable {p : K → L} {log : List (K × V)} {u : K × V}

theorem faithful_nil : Faithful p ([] : List (K × V)) := by simp [Faithful]

/-- A key that was put is put under its projection. -/
theorem latest_coarsen_isSome {k : K} (h : (latest log k).isSome) :
    (latest (coarsen p log) (p k)).isSome := by
  induction log using List.reverseRecOn with
  | nil => cases h
  | append_singleton log u ih =>
    rw [latest_concat] at h
    rw [latest_coarsen_concat]
    split_ifs with hp
    · rfl
    · rw [if_neg fun hk => hp (congrArg p hk)] at h
      exact ih h

/-- One put keeps the projected registry faithful exactly if it agrees. -/
theorem faithful_concat_iff (h : Faithful p log) :
    Faithful p (log ++ [u]) ↔ Agrees p log u := by
  constructor
  · intro h' k v hk hp hne
    have hv := h' k v (by rw [latest_concat, if_neg hne, hk])
    rw [latest_coarsen_concat, if_pos hp, Option.some.injEq] at hv
    exact hv.symm
  · intro ha k v hk
    rw [latest_concat] at hk
    rw [latest_coarsen_concat]
    by_cases hne : k = u.1
    · rw [if_pos hne] at hk
      rwa [if_pos (congrArg p hne)]
    · rw [if_neg hne] at hk
      by_cases hp : p k = p u.1
      · rw [if_pos hp, ha k v hk hp hne]
      · rw [if_neg hp, h k v hk]

/-- For calls that put something each: the projected registry is faithful all
    along exactly if every call agrees with the calls before it. -/
theorem faithful_prefix_iff {R : Type*} (p : K → L) (put : R → K × V) (rs : List R) :
    (∀ l, l <+: rs → Faithful p (l.map put)) ↔
      ∀ l r, l ++ [r] <+: rs → Agrees p (l.map put) (put r) := by
  constructor
  · intro h l r hl
    have h' := h _ hl
    rw [List.map_append] at h'
    exact (faithful_concat_iff (h l ((List.prefix_append l [r]).trans hl))).1 h'
  · intro h l
    induction l using List.reverseRecOn with
    | nil => exact fun _ => faithful_nil
    | append_singleton l r ih =>
      intro hl
      rw [List.map_append]
      exact (faithful_concat_iff (ih ((List.prefix_append l [r]).trans hl))).2 (h l r hl)

/-- A faithful put leaves the projected registry as it was for every other key. -/
theorem coarsen_concat_of_ne (h : Faithful p log) (h' : Faithful p (log ++ [u])) {k : K} {v : V}
    (hk : latest log k = some v) (hne : k ≠ u.1) :
    latest (coarsen p (log ++ [u])) (p k) = latest (coarsen p log) (p k) := by
  rw [h k v hk]
  exact h' k v (by rw [latest_concat, if_neg hne, hk])

/-! ## Total maps -/

/-- The map `f` after the puts of `log`, the oldest first. -/
def assign (f : K → V) (log : List (K × V)) : K → V :=
  log.foldl (fun f u => Function.update f u.1 u.2) f

@[simp] theorem assign_nil (f : K → V) : assign f [] = f := rfl

@[simp] theorem assign_cons (f : K → V) (u : K × V) (log : List (K × V)) :
    assign f (u :: log) = assign (Function.update f u.1 u.2) log := rfl

/-- If no key is put twice, the order of the puts does not matter. -/
theorem assign_perm {log log' : List (K × V)} (h : log.Perm log')
    (hlog : (log.map Prod.fst).Nodup) (f : K → V) : assign f log = assign f log' := by
  refine h.foldl_eq' (fun u hu v hv f => ?_) f
  by_cases huv : u = v
  · rw [huv]
  · exact Function.update_comm (fun he => huv (List.inj_on_of_nodup_map hlog hu hv he)) ..

/-- The values put under the indices from `k` on. -/
theorem assign_zipIdx (f : ℕ → V) (vs : List V) (k j : ℕ) :
    assign f ((vs.zipIdx k).map Prod.swap) j = if k ≤ j then (vs[j - k]?).getD (f j) else f j := by
  induction vs generalizing f k with
  | nil => simp
  | cons v vs ih =>
    rw [List.zipIdx_cons, List.map_cons, assign_cons, ih, Prod.fst_swap, Prod.snd_swap]
    by_cases h : k ≤ j
    · rcases Nat.eq_or_lt_of_le h with rfl | hlt
      · rw [if_neg (Nat.not_succ_le_self k), if_pos (Nat.le_refl k), Nat.sub_self,
          List.getElem?_cons_zero, Option.getD_some, Function.update_self]
      · obtain ⟨i, hi⟩ : ∃ i, j - k = i + 1 := ⟨j - k - 1, by omega⟩
        have hi' : j - (k + 1) = i := by omega
        rw [if_pos (Nat.succ_le_of_lt hlt), if_pos h, hi, hi', List.getElem?_cons_succ,
          Function.update_of_ne (Nat.ne_of_gt hlt)]
    · rw [if_neg h, if_neg fun hle => h (Nat.le_of_succ_le hle)]
      exact Function.update_of_ne (fun he => h (Nat.le_of_eq he.symm)) ..

end Registry
