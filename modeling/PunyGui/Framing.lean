import Mathlib.Data.List.Infix
import Mathlib.Data.Option.Basic

/-!
# Messages in a stream

A receiver keeps what it has not used of a stream in a buffer. Each time a part
of the stream arrives it takes messages off the start of the buffer, until it has
to wait for more or refuses to go on.

* `drain verdict n b`: the messages that are taken off the buffer `b`, at most
  `n` of them, each with what is in the buffer after it.
* `receive verdict n b xs`: the messages taken while the parts `xs` arrive.
* `Lawful verdict`: what a verdict says of a buffer does not depend on what is
  still to arrive.
* `receive_of_drain`: the messages do not depend on the parts in which the stream
  arrives, and what is in the buffer after each of them is what the part that
  completes it has after it.
* `drain_flatten`: a sequence of messages is taken off one by one.
-/

namespace Framing

variable {α ε : Type*}

/-- What a receiver makes of its buffer: it waits for more, refuses to go on, or
    takes a message of some length off its start. -/
inductive Verdict (ε : Type*)
  | more
  | stop (e : ε)
  | done (k : ℕ)

/-- What comes of a buffer: the messages taken off it, each with what follows it
    in the buffer, what is left, and why the receiver has refused to go on. -/
structure Drained (α ε : Type*) where
  taken : List (List α × List α)
  rest : List α
  stopped : Option ε

/-- One message more, in front of the others. -/
def Drained.cons (m s : List α) (d : Drained α ε) : Drained α ε :=
  { d with taken := (m, s) :: d.taken }

/-- The messages taken before, in front of the others. -/
def Drained.after (taken : List (List α × List α)) (d : Drained α ε) : Drained α ε :=
  { d with taken := taken ++ d.taken }

variable (verdict : List α → Verdict ε)

/-- Messages are taken off the buffer, with a bound on their number. -/
def drain : ℕ → List α → Option (Drained α ε)
  | 0, _ => none
  | n + 1, b =>
    match verdict b with
    | .more => some ⟨[], b, none⟩
    | .stop e => some ⟨[], b, some e⟩
    | .done k => (drain n (b.drop k)).map (.cons (b.take k) (b.drop k))

/-- The parts of a stream arrive one by one, until the receiver refuses to go on. -/
def receive (n : ℕ) : List α → List (List α) → Option (Drained α ε)
  | b, [] => some ⟨[], b, none⟩
  | b, x :: xs =>
    (drain verdict n (b ++ x)).bind fun d =>
      if d.stopped.isSome then some d else (receive n d.rest xs).map (.after d.taken)

/-- What a verdict says of a buffer does not depend on what is still to arrive, and
    a message is complete with its last element. -/
structure Lawful : Prop where
  le_length : ∀ {s k}, verdict s = .done k → k ≤ s.length
  done_append : ∀ {s k}, verdict s = .done k → ∀ t, verdict (s ++ t) = .done k
  done_take : ∀ {s k}, verdict s = .done k → verdict (s.take k) = .done k
  stop_append : ∀ {s e}, verdict s = .stop e → ∀ t, verdict (s ++ t) = .stop e

/-- Where the receiver looks for a message: at the start of each of them, and of
    what is left. -/
def Drained.starts (d : Drained α ε) : List (List α) :=
  d.taken.map (fun ms => ms.1 ++ ms.2) ++ [d.rest]

@[simp] theorem Drained.taken_after (taken : List (List α × List α)) (d : Drained α ε) :
    (d.after taken).taken = taken ++ d.taken := rfl

theorem Drained.starts_after (taken : List (List α × List α)) (d : Drained α ε) :
    (d.after taken).starts = taken.map (fun ms => ms.1 ++ ms.2) ++ d.starts := by
  rw [starts, taken_after, List.map_append, List.append_assoc, starts]
  rfl

/-- The verdicts agree at all parts that may be in the buffer. -/
def Agrees (verdict' : List α → Verdict ε) (d : Drained α ε) : Prop :=
  ∀ s ∈ d.starts, ∀ p, p <+: s → verdict' p = verdict p

/-- What has arrived of `s`, the end of the stream, with the part that brings the
    element before it. -/
def heard : List (List α) → List α → List α
  | [], s => s
  | x :: xs, s =>
    if s.length < (x :: xs).flatten.length then heard xs s
    else s.take (s.length - (x :: xs).flatten.length)

variable {verdict} {verdict' : List α → Verdict ε} {n : ℕ} {b p t : List α} {d : Drained α ε}

/-- As long as the end of a message is missing, it is waited for. -/
theorem Lawful.more_of_prefix (hl : Lawful verdict) (h : verdict b = .done b.length)
    (hp : p <+: b) (hne : p ≠ b) : verdict p = .more := by
  obtain ⟨t, rfl⟩ := hp
  cases hv : verdict p with
  | more => rfl
  | stop e =>
    rw [hl.stop_append hv t] at h
    cases h
  | done k =>
    have hk : k = (p ++ t).length := Verdict.done.inj ((hl.done_append hv t).symm.trans h)
    have hle := hl.le_length hv
    rw [hk, List.length_append] at hle
    obtain rfl : t = [] := List.eq_nil_of_length_eq_zero (by omega)
    exact absurd (List.append_nil p).symm hne

/-! ## One buffer -/

theorem drain_more (h : verdict b = .more) : drain verdict (n + 1) b = some ⟨[], b, none⟩ := by
  simp only [drain, h]

theorem drain_stop {e : ε} (h : verdict b = .stop e) :
    drain verdict (n + 1) b = some ⟨[], b, some e⟩ := by
  simp only [drain, h]

theorem drain_done {k : ℕ} (h : verdict b = .done k) :
    drain verdict (n + 1) b = (drain verdict n (b.drop k)).map (.cons (b.take k) (b.drop k)) := by
  simp only [drain, h]

/-- To prove something of all buffers that are drained, go through the verdicts. -/
theorem drain_induction {motive : ℕ → List α → Drained α ε → Prop}
    (more : ∀ n b, verdict b = .more → motive (n + 1) b ⟨[], b, none⟩)
    (stop : ∀ n b e, verdict b = .stop e → motive (n + 1) b ⟨[], b, some e⟩)
    (done : ∀ n b k d, verdict b = .done k → drain verdict n (b.drop k) = some d →
      motive n (b.drop k) d → motive (n + 1) b (d.cons (b.take k) (b.drop k)))
    (h : drain verdict n b = some d) : motive n b d := by
  induction n generalizing b d with
  | zero => cases h
  | succ n ih =>
    cases hv : verdict b with
    | more =>
      rw [drain_more hv] at h
      obtain rfl := Option.some.inj h
      exact more n b hv
    | stop e =>
      rw [drain_stop hv] at h
      obtain rfl := Option.some.inj h
      exact stop n b e hv
    | done k =>
      rw [drain_done hv] at h
      obtain ⟨d', hd', rfl⟩ := Option.map_eq_some_iff.1 h
      exact done n b k d' hv hd' (ih hd')

/-- The receiver stops with a buffer of which it waits for more, or that it refuses. -/
theorem verdict_rest (h : drain verdict n b = some d) :
    verdict d.rest = d.stopped.elim .more .stop :=
  drain_induction (motive := fun _ _ d => verdict d.rest = d.stopped.elim .more .stop)
    (fun _ _ hv => hv) (fun _ _ _ hv => hv) (fun _ _ _ _ _ _ ih => ih) h

theorem drain_mono {m : ℕ} (h : drain verdict n b = some d) (hnm : n ≤ m) :
    drain verdict m b = some d := by
  refine drain_induction (motive := fun n b d => ∀ m, n ≤ m → drain verdict m b = some d)
    (fun n b hv m hm => ?_) (fun n b e hv m hm => ?_) (fun n b k d hv hd ih m hm => ?_) h m hnm
  all_goals obtain ⟨m, rfl⟩ : ∃ m', m = m' + 1 := ⟨m - 1, by omega⟩
  · exact drain_more hv
  · exact drain_stop hv
  · rw [drain_done hv, ih m (by omega), Option.map_some]

/-- The bound is large enough if no message is empty. -/
theorem exists_drain (hl : Lawful verdict) (hpos : ∀ s k, verdict s = .done k → 0 < k)
    (hn : b.length < n) : ∃ d, drain verdict n b = some d := by
  induction n generalizing b with
  | zero => exact absurd hn (Nat.not_lt_zero _)
  | succ n ih =>
    cases hv : verdict b with
    | more => exact ⟨_, drain_more hv⟩
    | stop e => exact ⟨_, drain_stop hv⟩
    | done k =>
      have hlt : (b.drop k).length < n := by
        have hk := hpos b k hv
        have hle := hl.le_length hv
        rw [List.length_drop]
        omega
      obtain ⟨d, hd⟩ := ih hlt
      exact ⟨_, by rw [drain_done hv, hd, Option.map_some]⟩

/-- A message and what follows it are the end of the buffer. -/
theorem suffix_of_mem_taken (h : drain verdict n b = some d) :
    ∀ ms ∈ d.taken, ms.1 ++ ms.2 <:+ b := by
  refine drain_induction (motive := fun _ b d => ∀ ms ∈ d.taken, ms.1 ++ ms.2 <:+ b)
    (fun _ _ _ _ hms => absurd hms List.not_mem_nil)
    (fun _ _ _ _ _ hms => absurd hms List.not_mem_nil)
    (fun n b k d _ _ ih ms hms => ?_) h
  rcases List.mem_cons.1 hms with rfl | hms
  · rw [List.take_append_drop]
  · exact (ih ms hms).trans (List.drop_suffix k b)

/-- The receiver looks at the whole buffer first. -/
theorem mem_starts (h : drain verdict n b = some d) : b ∈ d.starts := by
  refine drain_induction (motive := fun _ b d => b ∈ d.starts)
    (fun _ _ _ => List.mem_singleton_self _) (fun _ _ _ _ => List.mem_singleton_self _)
    (fun n b k d _ _ _ => ?_) h
  rw [Drained.starts, Drained.cons, List.map_cons, List.take_append_drop]
  exact List.mem_cons_self

/-- What is waited for brings the end of every message. -/
theorem length_lt_of_mem_taken (hl : Lawful verdict) (hb : verdict b = .more)
    (h : drain verdict n (b ++ p) = some d) : ∀ ms ∈ d.taken, ms.2.length < p.length := by
  intro ms hms
  cases n with
  | zero => cases h
  | succ n =>
    cases hv : verdict (b ++ p) with
    | more =>
      rw [drain_more hv] at h
      cases h
      exact absurd hms List.not_mem_nil
    | stop e =>
      rw [drain_stop hv] at h
      cases h
      exact absurd hms List.not_mem_nil
    | done k =>
      rw [drain_done hv] at h
      obtain ⟨d', hd', rfl⟩ := Option.map_eq_some_iff.1 h
      -- The first message ends after `b`, which would have been enough for it else.
      have hk : b.length < k := by
        by_contra hk
        have htake := hl.done_take hv
        rw [List.take_append_of_le_length (not_lt.1 hk)] at htake
        have hdone := hl.done_append htake (b.drop k)
        rw [List.take_append_drop, hb] at hdone
        cases hdone
      have hle := hl.le_length hv
      rw [List.length_append] at hle
      have hdrop : ms.2.length ≤ ((b ++ p).drop k).length := by
        rcases List.mem_cons.1 hms with rfl | hms
        · exact le_rfl
        · exact ((List.suffix_append _ _).trans (suffix_of_mem_taken hd' ms hms)).length_le
      rw [List.length_drop, List.length_append] at hdrop
      omega

/-! ## A buffer in two parts -/

/-- What is taken off the first part, if the second one is there already. -/
def withRest (t : List α) (taken : List (List α × List α)) : List (List α × List α) :=
  taken.map fun ms => (ms.1, ms.2 ++ t)

/-- The first part is drained, and what is left of it with the second part. A receiver
    that has refused the first part would have refused both. -/
theorem drain_append (hl : Lawful verdict) (h : drain verdict n (p ++ t) = some d)
    (hagrees : Agrees verdict verdict' d) :
    ∃ d₁, drain verdict n p = some d₁ ∧ drain verdict' n p = some d₁ ∧
      ((∃ e, d₁.stopped = some e ∧ d.taken = withRest t d₁.taken ∧ d.stopped = some e) ∨
        ∃ d₂, d₁.stopped = none ∧ drain verdict n (d₁.rest ++ t) = some d₂ ∧
          d = d₂.after (withRest t d₁.taken)) := by
  induction n generalizing p d with
  | zero => cases h
  | succ n ih =>
    have hp : verdict' p = verdict p := hagrees _ (mem_starts h) p (List.prefix_append p t)
    cases hv : verdict p with
    | more =>
      exact ⟨_, drain_more hv, drain_more (hp.trans hv), .inr ⟨d, rfl, h, rfl⟩⟩
    | stop e =>
      rw [drain_stop (hl.stop_append hv t)] at h
      cases h
      exact ⟨_, drain_stop hv, drain_stop (hp.trans hv), .inl ⟨e, rfl, rfl, rfl⟩⟩
    | done k =>
      have hk := hl.le_length hv
      rw [drain_done (hl.done_append hv t), List.drop_append_of_le_length hk,
        List.take_append_of_le_length hk] at h
      obtain ⟨d', hd', rfl⟩ := Option.map_eq_some_iff.1 h
      obtain ⟨d₁, h₁, h₁', hrest⟩ := ih hd' fun s hs => hagrees s (List.mem_cons_of_mem _ hs)
      refine ⟨d₁.cons (p.take k) (p.drop k), by rw [drain_done hv, h₁, Option.map_some],
        by rw [drain_done (hp.trans hv), h₁', Option.map_some], ?_⟩
      rcases hrest with ⟨e, he, htaken, hstopped⟩ | ⟨d₂, he, h₂, rfl⟩
      · exact .inl ⟨e, he, congrArg _ htaken, hstopped⟩
      · exact .inr ⟨d₂, he, drain_mono h₂ (Nat.le_succ n), rfl⟩

/-! ## The parts of a stream -/

/-- The messages of the whole stream, each with what is in the buffer after it. -/
def arrivals (xs : List (List α)) (d : Drained α ε) : List (List α × List α) :=
  d.taken.map fun ms => (ms.1, heard xs ms.2)

theorem heard_append_flatten (xs : List (List α)) (s : List α) :
    heard xs (s ++ xs.flatten) = s := by
  cases xs with
  | nil => rw [List.flatten_nil, List.append_nil, heard]
  | cons x xs =>
    rw [heard, if_neg (by simp), List.length_append, Nat.add_sub_cancel, List.take_left]

theorem heard_cons {xs : List (List α)} {x s : List α} (h : s.length < (x :: xs).flatten.length) :
    heard (x :: xs) s = heard xs s := by
  rw [heard, if_pos h]

/-- If the end of the stream is longer than all parts, some of it has arrived. -/
theorem heard_ne_nil {xs : List (List α)} {s : List α} (h : xs.flatten.length < s.length) :
    heard xs s ≠ [] := by
  intro hnil
  cases xs with
  | nil =>
    rw [heard] at hnil
    rw [hnil] at h
    cases h
  | cons x xs =>
    have hlen := congrArg List.length hnil
    rw [heard, if_neg (by omega), List.length_take, List.length_nil] at hlen
    omega

/-- Nothing of the end of the stream has arrived exactly if it begins with a part. -/
theorem heard_eq_nil_iff {xs : List (List α)} {s : List α} (hs : s <:+ xs.flatten) :
    heard xs s = [] ↔ ∃ ys zs, xs = ys ++ zs ∧ zs.flatten = s := by
  induction xs with
  | nil =>
    obtain rfl : s = [] := List.suffix_nil.1 hs
    exact iff_of_true rfl ⟨[], [], rfl, rfl⟩
  | cons x xs ih =>
    by_cases hlt : s.length < (x :: xs).flatten.length
    · rw [heard_cons hlt]
      rw [List.flatten_cons] at hs hlt
      -- What begins with a part begins with a later one.
      have htail : (∃ ys zs, x :: xs = ys ++ zs ∧ zs.flatten = s) ↔
          ∃ ys zs, xs = ys ++ zs ∧ zs.flatten = s := by
        constructor
        · rintro ⟨ys, zs, heq, rfl⟩
          cases ys with
          | nil =>
            rw [List.nil_append] at heq
            rw [← heq, List.flatten_cons] at hlt
            exact absurd hlt (lt_irrefl _)
          | cons y ys => exact ⟨ys, zs, (List.cons.inj heq).2, rfl⟩
        · rintro ⟨ys, zs, rfl, rfl⟩
          exact ⟨x :: ys, zs, rfl, rfl⟩
      rw [htail]
      rcases le_or_gt s.length xs.flatten.length with hle | hgt
      · exact ih (List.suffix_of_suffix_length_le hs (List.suffix_append x xs.flatten) hle)
      · refine iff_of_false (heard_ne_nil hgt) ?_
        rintro ⟨ys, zs, rfl, rfl⟩
        rw [List.flatten_append, List.length_append] at hgt
        omega
    · -- All of the stream.
      have hall : s = (x :: xs).flatten := hs.eq_of_length_le (not_lt.1 hlt)
      refine iff_of_true ?_ ⟨[], x :: xs, rfl, hall.symm⟩
      rw [heard, if_neg hlt, hall, Nat.sub_self, List.take_zero]

/-- A message that is taken off what has arrived is followed by the rest of it. -/
theorem arrivals_withRest {xs : List (List α)} {x : List α} {taken : List (List α × List α)}
    (h : ∀ ms ∈ taken, ms.2.length < x.length) :
    ((withRest xs.flatten taken).map fun ms => (ms.1, heard (x :: xs) ms.2)) = taken := by
  rw [withRest, List.map_map]
  refine (List.map_congr_left fun ms hms => ?_).trans (List.map_id _)
  have hlt : (ms.2 ++ xs.flatten).length < (x :: xs).flatten.length := by
    rw [List.flatten_cons, List.length_append, List.length_append]
    exact Nat.add_lt_add_right (h ms hms) _
  rw [Function.comp_apply, heard_cons hlt, heard_append_flatten, id]

/-- The messages do not depend on the parts in which the stream arrives, and what is
    in the buffer after each of them is what has arrived with its last element. -/
theorem receive_of_drain (hl : Lawful verdict) {xs : List (List α)} (hb : verdict b = .more)
    (h : drain verdict n (b ++ xs.flatten) = some d) (hagrees : Agrees verdict verdict' d) :
    ∃ d', receive verdict' n b xs = some d' ∧ d'.taken = arrivals xs d ∧
      d'.stopped = d.stopped ∧ (d.stopped = none → d'.rest = d.rest) := by
  induction xs generalizing b d with
  | nil =>
    rw [List.flatten_nil, List.append_nil] at h
    cases n with
    | zero => cases h
    | succ n =>
      rw [drain_more hb] at h
      cases h
      exact ⟨_, rfl, rfl, rfl, fun _ => rfl⟩
  | cons x xs ih =>
    rw [List.flatten_cons, ← List.append_assoc] at h
    obtain ⟨d₁, h₁, h₁', ⟨e, he, htaken, hstopped⟩ | ⟨d₂, he, h₂, rfl⟩⟩ :=
      drain_append hl h hagrees
    · -- The receiver refuses to go on before the rest arrives.
      refine ⟨d₁, ?_, ?_, he.trans hstopped.symm, fun hd => ?_⟩
      · rw [receive, h₁', Option.bind_some, if_pos (by rw [he]; rfl)]
      · rw [arrivals, htaken, arrivals_withRest (length_lt_of_mem_taken hl hb h₁)]
      · rw [hstopped] at hd
        cases hd
    · have hrest : verdict d₁.rest = .more := by rw [verdict_rest h₁, he]; rfl
      have hagrees₂ : Agrees verdict verdict' d₂ := fun s hs =>
        hagrees s (Drained.starts_after _ d₂ ▸ List.mem_append_right _ hs)
      obtain ⟨d', hd', htaken, hstopped, hopen⟩ := ih hrest h₂ hagrees₂
      refine ⟨d'.after d₁.taken, ?_, ?_, hstopped, hopen⟩
      · rw [receive, h₁', Option.bind_some, if_neg (by rw [he]; exact Bool.false_ne_true), hd',
          Option.map_some]
      · rw [arrivals, Drained.taken_after, Drained.taken_after, List.map_append,
          arrivals_withRest (length_lt_of_mem_taken hl hb h₁), htaken, arrivals]
        refine congrArg _ (List.map_congr_left fun ms hms => ?_)
        have hlt := length_lt_of_mem_taken hl hrest h₂ ms hms
        rw [heard_cons (by rw [List.flatten_cons, List.length_append]; omega)]

/-! ## Sequences of messages -/

/-- Each message, with the ones after it and the rest. -/
def followed : List (List α) → List α → List (List α × List α)
  | [], _ => []
  | m :: ms, t => (m, ms.flatten ++ t) :: followed ms t

theorem map_fst_followed (ms : List (List α)) (t : List α) : (followed ms t).map Prod.fst = ms := by
  induction ms with
  | nil => rfl
  | cons m ms ih => rw [followed, List.map_cons, ih]

theorem mem_of_mem_followed {ms : List (List α)} {t : List α} {m : List α × List α}
    (h : m ∈ followed ms t) : m.1 ∈ ms := by
  have hmem := List.mem_map_of_mem (f := Prod.fst) h
  rwa [map_fst_followed] at hmem

/-- A sequence of messages is taken off one by one. -/
theorem drain_flatten (hl : Lawful verdict) {ms : List (List α)}
    (hms : ∀ m ∈ ms, verdict m = .done m.length) (ht : verdict t = .more) (hn : ms.length < n) :
    drain verdict n (ms.flatten ++ t) = some ⟨followed ms t, t, none⟩ := by
  induction ms generalizing n with
  | nil =>
    obtain ⟨n, rfl⟩ : ∃ n', n = n' + 1 := ⟨n - 1, by omega⟩
    exact drain_more ht
  | cons m ms ih =>
    obtain ⟨n, rfl⟩ : ∃ n', n = n' + 1 := ⟨n - 1, by omega⟩
    have hm := hl.done_append (hms m List.mem_cons_self) (ms.flatten ++ t)
    rw [List.flatten_cons, List.append_assoc, drain_done hm, List.drop_left, List.take_left,
      ih (fun m' hm' => hms m' (List.mem_cons_of_mem _ hm'))
        (Nat.lt_of_succ_lt_succ hn), Option.map_some]
    rfl

end Framing
