import PunyGui.Framing
import PunyGui.Http

/-!
# Reading the responses of a connection

A client that has asked for more than one thing over a connection tells the
responses apart by their `Content-Length`. One without it ends with the connection.

* `readHead_split`: a head is read alike whatever follows it.
* `responseVerdict`: where the first response in a buffer ends.
* `readResponses`: what a client makes of a stream that arrives in parts and ends, with
  what is left of a response that has been cut.
* `readResponses_iff`: it reads whole responses one by one, exactly if each of them but
  the last announces its length.
* `readResponses_prefix`: of a stream that ends anywhere it reads the first ones.
-/

namespace Http

open Text Framing

/-! ## A head and what follows -/

section Split

variable {s body : Bytes}

/-- A line is read alike whatever follows it. -/
theorem takeLine_split {line : Bytes} (h : takeLine s = some (line, body)) :
    ∃ p, s = p ++ body ∧ 2 ≤ p.length ∧ ∀ t, takeLine (p ++ t) = some (line, t) := by
  fun_induction takeLine s generalizing line with
  | case1 rest =>
    obtain ⟨rfl, rfl⟩ := Prod.mk.inj (Option.some.inj h)
    exact ⟨crlf, rfl, le_rfl, fun _ => rfl⟩
  | case2 c rest hne ih =>
    obtain ⟨⟨line', _⟩, hline, heq⟩ := Option.map_eq_some_iff.1 h
    obtain ⟨rfl, rfl⟩ := Prod.mk.inj heq
    obtain ⟨p, rfl, hlen, hp⟩ := ih hline
    refine ⟨c :: p, rfl, by rw [List.length_cons]; omega, fun t => ?_⟩
    obtain ⟨x, p, rfl⟩ := List.exists_cons_of_length_pos (Nat.zero_lt_of_lt hlen)
    rw [List.cons_append, takeLine, hp t]
    · rfl
    · -- The line does not end here, since it does not with what follows in `s`.
      rintro _ rfl hx
      exact hne _ rfl (by rw [List.cons_append, (List.cons.inj hx).1])
  | case3 => cases h

theorem readFields_split {n : ℕ} {fields : List (Bytes × Bytes)}
    (h : readFields n s = some (fields, body)) :
    ∃ p, s = p ++ body ∧ ∀ t m, p.length < m → readFields m (p ++ t) = some (fields, t) := by
  induction n generalizing s fields with
  | zero => cases h
  | succ n ih =>
    obtain ⟨⟨line, s'⟩, hline, hrest⟩ := Option.bind_eq_some_iff.1 h
    obtain ⟨p, rfl, hlen, hp⟩ := takeLine_split hline
    simp only at hrest
    split_ifs at hrest with hnil
    · obtain ⟨rfl, rfl⟩ := Prod.mk.inj (Option.some.inj hrest)
      refine ⟨p, rfl, fun t m hm => ?_⟩
      obtain ⟨m, rfl⟩ := Nat.exists_eq_add_one.2 (Nat.zero_lt_of_lt hm)
      simp only [readFields, hp, Option.bind_some, if_pos hnil]
    · obtain ⟨field, hfield, hrest⟩ := Option.bind_eq_some_iff.1 hrest
      obtain ⟨⟨fields', _⟩, hfields, heq⟩ := Option.map_eq_some_iff.1 hrest
      obtain ⟨rfl, rfl⟩ := Prod.mk.inj heq
      obtain ⟨q, rfl, hq⟩ := ih hfields
      refine ⟨p ++ q, (List.append_assoc _ _ _).symm, fun t m hm => ?_⟩
      rw [List.length_append] at hm
      obtain ⟨m, rfl⟩ := Nat.exists_eq_add_one.2 (Nat.zero_lt_of_lt hm)
      simp only [readFields, List.append_assoc, hp, Option.bind_some, if_neg hnil, hfield,
        hq t m (by omega), Option.map_some]

/-- A head is read alike whatever follows it. -/
theorem readHead_split {r : Response} (h : readHead s = some r) :
    ∃ p, p ≠ [] ∧ s = p ++ r.body ∧ ∀ t, readHead (p ++ t) = some { r with body := t } := by
  obtain ⟨⟨line, s'⟩, hline, h⟩ := Option.bind_eq_some_iff.1 h
  obtain ⟨status, hstatus, h⟩ := Option.bind_eq_some_iff.1 h
  obtain ⟨⟨fields, body⟩, hfields, rfl⟩ := Option.map_eq_some_iff.1 h
  obtain ⟨p, rfl, hlen, hp⟩ := takeLine_split hline
  obtain ⟨q, rfl, hq⟩ := readFields_split hfields
  refine ⟨p ++ q, fun hnil => ?_, (List.append_assoc _ _ _).symm, fun t => ?_⟩
  · rw [(List.append_eq_nil_iff.1 hnil).1] at hlen
    cases hlen
  · have hlt : q.length < (q ++ t).length + 1 := by
      rw [List.length_append]
      omega
    simp only [readHead, List.append_assoc, hp, Option.bind_some, hstatus, hq t _ hlt,
      Option.map_some]

end Split

/-! ## Where a response ends -/

/-- The length that the fields announce for the body. -/
def Response.announced (r : Response) : Option ℕ :=
  (r.fields.find? fun field => lower field.1 == contentLength).bind fun field =>
    (readNat field.2).map Prod.fst

/-- The length of the first response, if its head is there and announces one. -/
def responseEnd (s : Bytes) : Option ℕ :=
  (readHead s).bind fun r => r.announced.map fun n => s.length - r.body.length + n

/-- It is waited for the end of the first response. -/
def responseVerdict (s : Bytes) : Verdict Empty :=
  match responseEnd s with
  | some k => if k ≤ s.length then .done k else .more
  | none => .more

/-- The responses that the end of the connection completes, and what is left of one that
    it cuts. -/
def closing (s : Bytes) : List Response × Bytes :=
  match readHead s with
  | some r => if r.announced.isSome then ([], s) else ([r], [])
  | none => ([], s)

/-- What is read of a stream that arrives in the parts `xs` and ends. -/
def readResponses (xs : List Bytes) : Option (List Response × Bytes) :=
  (receive responseVerdict (xs.flatten.length + 1) [] xs).map fun d =>
    (d.taken.filterMap (fun ms => readHead ms.1) ++ (closing d.rest).1, (closing d.rest).2)

section Verdict

variable {s t m : Bytes} {r : Response} {k : ℕ}

theorem responseEnd_eq (h : readHead s = some r) :
    responseEnd s = r.announced.map fun n => s.length - r.body.length + n := by
  rw [responseEnd, h, Option.bind_some]

theorem responseVerdict_eq_done :
    responseVerdict s = .done k ↔ responseEnd s = some k ∧ k ≤ s.length := by
  rw [responseVerdict]
  cases responseEnd s with
  | none => exact iff_of_false nofun fun h => absurd h.1 (Option.some_ne_none k).symm
  | some k' =>
    simp only [Option.some.injEq]
    split_ifs with hle
    · exact ⟨fun h => ⟨Verdict.done.inj h, Verdict.done.inj h ▸ hle⟩, fun h => h.1 ▸ rfl⟩
    · exact iff_of_false nofun fun h => hle (h.1 ▸ h.2)

theorem responseVerdict_eq_more (h : ∀ k, responseEnd s = some k → s.length < k) :
    responseVerdict s = .more := by
  rw [responseVerdict]
  cases hend : responseEnd s with
  | none => rfl
  | some k => exact if_neg (Nat.not_le.2 (h k hend))

/-- A head, with the bytes of a response after it. -/
theorem exists_of_responseEnd (h : responseEnd s = some k) : ∃ (p : Bytes) (r : Response) (n : ℕ),
    s = p ++ r.body ∧ k = p.length + n ∧ ∀ t, responseEnd (p ++ t) = some k := by
  obtain ⟨r, hr, hk⟩ := Option.bind_eq_some_iff.1 h
  obtain ⟨n, hn, rfl⟩ := Option.map_eq_some_iff.1 hk
  obtain ⟨p, -, hs, hp⟩ := readHead_split hr
  have hlen (t : Bytes) : (p ++ t).length - t.length = p.length := by
    rw [List.length_append, Nat.add_sub_cancel]
  have hlen' : s.length - r.body.length = p.length := by
    rw [hs]
    exact hlen _
  refine ⟨p, r, n, hs, by rw [hlen'], fun t => ?_⟩
  have hann : ({ r with body := t } : Response).announced = some n := hn
  rw [responseEnd_eq (hp t), hann, hlen']
  exact congrArg (fun l => some (l + n)) (hlen t)

theorem lawful_responseVerdict : Lawful responseVerdict where
  le_length h := (responseVerdict_eq_done.1 h).2
  done_append {s k} h t := by
    obtain ⟨hend, hle⟩ := responseVerdict_eq_done.1 h
    obtain ⟨p, r, n, rfl, -, hp⟩ := exists_of_responseEnd hend
    refine responseVerdict_eq_done.2 ⟨by rw [List.append_assoc, hp], hle.trans ?_⟩
    exact (List.prefix_append (p ++ r.body) t).length_le
  done_take {s k} h := by
    obtain ⟨hend, hle⟩ := responseVerdict_eq_done.1 h
    obtain ⟨p, r, n, rfl, hk, hp⟩ := exists_of_responseEnd hend
    refine responseVerdict_eq_done.2 ⟨?_, (List.length_take_of_le hle).ge⟩
    rw [hk, List.take_length_add_append, hp, hk]
  stop_append {_ e} := e.elim

/-- The bytes are the response: none is missing of the body that is announced, and none is
    left over. -/
structure IsWhole (m : Bytes) (r : Response) : Prop where
  head : readHead m = some r
  length : ∀ n, r.announced = some n → r.body.length = n

theorem IsWhole.ne_nil (h : IsWhole m r) : m ≠ [] := by
  rintro rfl
  cases h.head

theorem IsWhole.body_le (h : IsWhole m r) : r.body.length ≤ m.length := by
  obtain ⟨p, -, hp, -⟩ := readHead_split h.head
  rw [hp, List.length_append]
  exact Nat.le_add_left _ _

theorem IsWhole.verdict (h : IsWhole m r) (hann : r.announced.isSome) :
    responseVerdict m = .done m.length := by
  obtain ⟨n, hn⟩ := Option.isSome_iff_exists.1 hann
  have hlen := h.body_le
  rw [h.length n hn] at hlen
  refine responseVerdict_eq_done.2 ⟨?_, le_rfl⟩
  rw [responseEnd_eq h.head, hn, h.length n hn, Option.map_some, Nat.sub_add_cancel hlen]

/-- A response that announces no length takes in all that follows it. -/
theorem IsWhole.append (h : IsWhole m r) (s : Bytes) :
    readHead (m ++ s) = some { r with body := r.body ++ s } := by
  obtain ⟨p, -, hp, hread⟩ := readHead_split h.head
  rw [hp, List.append_assoc, hread]

theorem responseVerdict_unannounced (h : readHead s = some r) (hann : r.announced = none) :
    responseVerdict s = .more := by
  refine responseVerdict_eq_more fun k hk => ?_
  rw [responseEnd_eq h, hann] at hk
  cases hk

/-- A proper start of a response of known length is cut. -/
theorem IsWhole.closing_prefix (h : IsWhole m r) (hann : r.announced.isSome) (hp : t <+: m) :
    closing t = ([], t) := by
  rw [closing]
  cases hread : readHead t with
  | none => rfl
  | some r' =>
    obtain ⟨s, rfl⟩ := hp
    obtain ⟨p, -, ht, hp⟩ := readHead_split hread
    have hhead := hp (r'.body ++ s)
    rw [← List.append_assoc, ← ht, h.head] at hhead
    have hfields : r'.announced = r.announced := by
      rw [Option.some.inj hhead]
      rfl
    exact if_pos (hfields ▸ hann)

end Verdict

/-! ## Streams of responses -/

section Stream

variable {ms : List Bytes} {rs : List Response} {t : Bytes} {xs : List Bytes}

/-- All elements have a value, or there is a first one that has none. -/
theorem all_or_split {α β : Type*} (f : α → Option β) (l : List α) : (∀ x ∈ l, (f x).isSome) ∨
    ∃ pre x post, l = pre ++ x :: post ∧ (∀ y ∈ pre, (f y).isSome) ∧ f x = none := by
  induction l with
  | nil => exact .inl fun x hx => absurd hx List.not_mem_nil
  | cons x l ih =>
    cases hx : f x with
    | none => exact .inr ⟨[], x, l, rfl, fun y hy => absurd hy List.not_mem_nil, hx⟩
    | some y =>
      have hsome : (f x).isSome := by rw [hx]; rfl
      rcases ih with hall | ⟨pre, z, post, rfl, hpre, hz⟩
      · exact .inl (List.forall_mem_cons.2 ⟨hsome, hall⟩)
      · exact .inr ⟨x :: pre, z, post, rfl, List.forall_mem_cons.2 ⟨hsome, hpre⟩, hz⟩

theorem split_forall₂ {α β : Type*} {R : α → β → Prop} {l : List α} {l₁ l₂ : List β}
    (h : List.Forall₂ R l (l₁ ++ l₂)) :
    ∃ k₁ k₂, l = k₁ ++ k₂ ∧ List.Forall₂ R k₁ l₁ ∧ List.Forall₂ R k₂ l₂ :=
  ⟨_, _, (List.take_append_drop _ _).symm, List.forall₂_take_append _ _ _ h,
    List.forall₂_drop_append _ _ _ h⟩

theorem filterMap_readHead (h : List.Forall₂ IsWhole ms rs) : ms.filterMap readHead = rs := by
  induction h with
  | nil => rfl
  | cons hm _ ih => rw [List.filterMap_cons_some hm.head, ih]

theorem length_le_flatten (h : List.Forall₂ IsWhole ms rs) : ms.length ≤ ms.flatten.length := by
  induction h with
  | nil => exact le_rfl
  | cons hm _ ih =>
    have hpos := List.length_pos_iff.2 hm.ne_nil
    rw [List.flatten_cons, List.length_append, List.length_cons]
    omega

/-- Responses that announce their lengths are read one by one. What follows them is read
    when the stream ends, if it is none. -/
theorem readResponses_append (h : List.Forall₂ IsWhole ms rs) (hann : ∀ r ∈ rs, r.announced.isSome)
    (ht : responseVerdict t = .more) (hxs : xs.flatten = ms.flatten ++ t) :
    readResponses xs = some (rs ++ (closing t).1, (closing t).2) := by
  have hdone : ∀ m ∈ ms, responseVerdict m = .done m.length := by
    intro m hm
    obtain ⟨i, hi, rfl⟩ := List.mem_iff_getElem.1 hm
    have hi' : i < rs.length := h.length_eq ▸ hi
    exact (h.get hi hi').verdict (hann _ (List.getElem_mem hi'))
  have hn : ms.length < xs.flatten.length + 1 := by
    have := length_le_flatten h
    rw [hxs, List.length_append]
    omega
  have hdrain := drain_flatten lawful_responseVerdict hdone ht hn
  rw [← hxs] at hdrain
  obtain ⟨d, hd, htaken, -, hrest⟩ := receive_of_drain lawful_responseVerdict rfl
    (b := []) hdrain fun _ _ _ _ => rfl
  have hfst : d.taken.map Prod.fst = ms := by
    rw [htaken, arrivals, List.map_map]
    exact map_fst_followed ms t
  have hread : d.taken.filterMap (fun ms => readHead ms.1) = rs := by
    rw [← filterMap_readHead h, ← hfst, List.filterMap_map]
    rfl
  rw [readResponses, hd, Option.map_some, hread, hrest rfl]

/-- A response that announces no length ends the reading: what follows it is its body. -/
theorem readResponses_unannounced (h : List.Forall₂ IsWhole ms rs)
    (hann : ∀ r ∈ rs, r.announced.isSome) {m : Bytes} {r : Response} (hm : IsWhole m r)
    (hr : r.announced = none) (hxs : xs.flatten = ms.flatten ++ (m ++ t)) :
    readResponses xs = some (rs ++ [{ r with body := r.body ++ t }], []) := by
  have hnone : ({ r with body := r.body ++ t } : Response).announced = none := hr
  rw [readResponses_append h hann (responseVerdict_unannounced (hm.append t) hnone) hxs]
  simp only [closing, hm.append t, hnone]
  rfl

/-- Responses are read as they were written exactly if each of them but the last announces
    its length. -/
theorem readResponses_iff (h : List.Forall₂ IsWhole ms rs) (hxs : xs.flatten = ms.flatten) :
    readResponses xs = some (rs, []) ↔ ∀ r ∈ rs.dropLast, r.announced.isSome := by
  obtain hall | ⟨pre, r, post, rfl, hpre, hr⟩ := all_or_split Response.announced rs
  · refine iff_of_true ?_ fun r hr => hall r (List.mem_of_mem_dropLast hr)
    have hnil : xs.flatten = ms.flatten ++ [] := by rw [hxs, List.append_nil]
    rw [readResponses_append h hall rfl hnil]
    exact congrArg (fun rs => some (rs, [])) (List.append_nil rs)
  · -- The first one that announces no length takes in the ones after it.
    obtain ⟨mpre, mrest, rfl, hmpre, hmrest⟩ := split_forall₂ h
    obtain ⟨m, mpost, hm, hmpost, rfl⟩ := List.forall₂_cons_right_iff.1 hmrest
    have hflat : xs.flatten = mpre.flatten ++ (m ++ mpost.flatten) := by
      rw [hxs, List.flatten_append, List.flatten_cons]
    rw [readResponses_unannounced hmpre hpre hm hr hflat]
    cases post with
    | nil =>
      obtain rfl := List.forall₂_nil_right_iff.1 hmpost
      refine iff_of_true ?_ ?_
      · rw [List.flatten_nil, List.append_nil]
      · rw [List.dropLast_concat]
        exact hpre
    | cons r' post =>
      refine iff_of_false (fun heq => ?_) fun hall => ?_
      · have hlen := congrArg (fun x => x.1.length) (Option.some.inj heq)
        simp at hlen
      · have hmem : r ∈ (pre ++ r :: r' :: post).dropLast := by simp
        have hsome := hall r hmem
        rw [hr] at hsome
        cases hsome

/-- What is there of a stream of parts: some of them, and a proper start of the next. -/
theorem exists_of_prefix_flatten {p : Bytes} (hp : p <+: ms.flatten) :
    ∃ ys zs t, ms = ys ++ zs ∧ p = ys.flatten ++ t ∧
      (t = [] ∨ ∃ m, zs.head? = some m ∧ t <+: m ∧ t ≠ m) := by
  induction ms generalizing p with
  | nil => exact ⟨[], [], p, rfl, rfl, .inl (List.prefix_nil.1 hp)⟩
  | cons m ms ih =>
    rw [List.flatten_cons] at hp
    rcases lt_or_ge p.length m.length with hlt | hle
    · refine ⟨[], m :: ms, p, rfl, rfl, .inr ⟨m, rfl, ?_, fun heq => ?_⟩⟩
      · exact List.prefix_of_prefix_length_le hp (List.prefix_append m _) hlt.le
      · rw [heq] at hlt
        exact lt_irrefl _ hlt
    · obtain ⟨p, rfl⟩ := List.prefix_of_prefix_length_le (List.prefix_append m _) hp hle
      obtain ⟨ys, zs, t, rfl, rfl, ht⟩ := ih ((List.prefix_append_right_inj m).1 hp)
      exact ⟨m :: ys, zs, t, rfl, (List.append_assoc _ _ _).symm, ht⟩

/-- Of a stream that ends anywhere the first responses are read, and all of them of the
    whole stream. -/
theorem readResponses_prefix (h : List.Forall₂ IsWhole ms rs)
    (hann : ∀ r ∈ rs, r.announced.isSome) (hxs : xs.flatten <+: ms.flatten) :
    ∃ rs' t, readResponses xs = some (rs', t) ∧ rs' <+: rs ∧
      (xs.flatten = ms.flatten → rs' = rs ∧ t = []) := by
  obtain ⟨ys, zs, t, rfl, hflat, ht⟩ := exists_of_prefix_flatten hxs
  obtain ⟨rs₁, rs₂, rfl, h₁, h₂⟩ := split_forall₂ h.flip
  replace h₁ := h₁.flip
  replace h₂ := h₂.flip
  have hann₁ : ∀ r ∈ rs₁, r.announced.isSome := fun r hr => hann r (List.mem_append_left _ hr)
  have hcut : responseVerdict t = .more ∧ closing t = ([], t) := by
    rcases ht with rfl | ⟨m, hm, hp, hne⟩
    · exact ⟨rfl, rfl⟩
    · obtain ⟨zs, rfl⟩ := List.head?_eq_some_iff.1 hm
      obtain ⟨r, rs₂, hr, -, rfl⟩ := List.forall₂_cons_left_iff.1 h₂
      have hsome := hann r (List.mem_append_right _ List.mem_cons_self)
      exact ⟨lawful_responseVerdict.more_of_prefix (hr.verdict hsome) hp hne,
        hr.closing_prefix hsome hp⟩
  have hread := readResponses_append h₁ hann₁ hcut.1 hflat
  rw [hcut.2] at hread
  refine ⟨_, _, hread, ?_, fun hall => ?_⟩
  · rw [List.append_nil]
    exact List.prefix_append _ _
  · have hwhole := (readResponses_iff h hall).2 fun r hr => hann r (List.mem_of_mem_dropLast hr)
    exact Prod.mk.inj (Option.some.inj (hread.symm.trans hwhole))

end Stream

end Http
