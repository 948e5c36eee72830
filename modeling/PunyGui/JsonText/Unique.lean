import PunyGui.JsonText

/-!
# A text has one tree

No two trees of the loosest dialect have a common text, also when each is
followed by something else, as long as this does not continue a number:
`Tree.unique`.

The first bytes decide between the kinds of values: a number starts with what
`strtod` converts, no other value does (`strtod_render`), and the other kinds
start with a byte of their own.
-/

namespace JsonText

open Text Libc

/-! ## White space -/

theorem isNumberByte_of_isWs : ∀ c, isWs c = true → isNumberByte c = false :=
  forall_byte (by decide +kernel)

theorem isspace_of_isWs : ∀ c, isWs c = true → isspace c = true :=
  forall_byte (by decide +kernel)

@[simp] theorem ws_nil : Ws [] := by simp [Ws]

theorem Ws.append {v w : Bytes} (hv : Ws v) (hw : Ws w) : Ws (v ++ w) :=
  fun c hc => (List.mem_append.1 hc).elim (hv c) (hw c)

/-- White space is followed by no number byte, if what comes after it is not. -/
theorem Ws.stops_append {w p : Bytes} (hw : Ws w) (hp : Stops isNumberByte p) :
    Stops isNumberByte (w ++ p) := by
  cases w with
  | nil => exact hp
  | cons c w => exact stops_cons.2 (isNumberByte_of_isWs c (hw c List.mem_cons_self))

theorem ws_unique {w₁ w₂ p₁ p₂ : Bytes} (h₁ : Ws w₁) (h₂ : Ws w₂) (s₁ : Stops isWs p₁)
    (s₂ : Stops isWs p₂) (h : w₁ ++ p₁ = w₂ ++ p₂) : w₁ = w₂ ∧ p₁ = p₂ := by
  have hw : w₁ = w₂ := by
    rw [← takeWhile_append_all h₁ s₁, h, takeWhile_append_all h₂ s₂]
  exact ⟨hw, List.append_cancel_left (hw ▸ h)⟩

/-! ## Strings -/

theorem renderItems_unique {is js : List Item} {r q : Bytes} (hi : ∀ i ∈ is, i.Lexical)
    (hj : ∀ j ∈ js, j.Lexical) (h : renderItems is (0x22 :: r) = renderItems js (0x22 :: q)) :
    is = js ∧ r = q := by
  -- Neither a quote nor a backslash is a raw byte, and `\u` is no two-character escape.
  have hq : ∀ {b : UInt8}, (Item.raw b).Lexical → b ≠ 0x22 ∧ b ≠ 0x5C := fun hb => hb.2
  have hu : ¬(Item.esc 0x75).Lexical := by simp [Item.Lexical, unescape]
  induction is generalizing js with
  | nil =>
    rcases js with _ | ⟨_ | _ | _, js⟩
    · simpa using h
    · have := hq (hj _ List.mem_cons_self)
      simp_all [Item.render]
    · simp [Item.render] at h
    · simp [Item.render] at h
  | cons i is ih =>
    have ih := fun {js} => @ih js (fun i hi' => hi i (List.mem_cons_of_mem _ hi'))
    have hi := hi _ List.mem_cons_self
    rcases js with _ | ⟨j, js⟩
    · rcases i with b | c | _
      · have := hq hi
        simp_all [Item.render]
      · simp [Item.render] at h
      · simp [Item.render] at h
    · have ih := @ih js fun j hj' => hj j (List.mem_cons_of_mem _ hj')
      have hj := hj _ List.mem_cons_self
      rcases i with b | c | _ <;> rcases j with b' | c' | _ <;>
        simp only [renderItems_cons, Item.render, List.cons.injEq] at h
      · obtain ⟨rfl, h⟩ := h
        simpa using ih h
      · exact absurd h.1 (hq hi).2
      · exact absurd h.1 (hq hi).2
      · exact absurd h.1.symm (hq hj).2
      · obtain ⟨-, rfl, h⟩ := h
        simpa using ih h
      · exact absurd (h.2.1 ▸ hi) hu
      · exact absurd h.1.symm (hq hj).2
      · exact absurd (h.2.1 ▸ hj) hu
      · obtain ⟨-, -, rfl, rfl, rfl, rfl, h⟩ := h
        simpa using ih h

/-! ## First bytes -/

section Head

variable {t : Tree} {r : Bytes}

/-- `strtod` reads a number to its end. -/
theorem strtod_token {tok : Bytes} (h : IsToken tok) (hr : Stops isNumberByte r) :
    strtod (tok ++ r) = ((strtod tok).1, r) := by
  obtain ⟨c, tok, rfl⟩ := List.exists_cons_of_ne_nil h.ne_nil
  rw [strtod_append hr (h.start c rfl), h.all, List.nil_append]

/-- `strtod` converts nothing of any other value. -/
theorem strtod_render (ht : ∀ tok, t ≠ .number tok) (r : Bytes) :
    (strtod (t.render r)).2 = t.render r := by
  cases t with
  | number tok => exact absurd rfl (ht tok)
  | _ => rfl

/-- Only a number starts as a number. -/
theorem number_of_render {t : Tree} {tok r q : Bytes} (h : IsToken tok) (hr : Stops isNumberByte r)
    (heq : tok ++ r = t.render q) : ∃ tok', t = .number tok' := by
  by_contra hc
  have hs := strtod_render (fun tok' ht => hc ⟨tok', ht⟩) q
  rw [← heq, strtod_token h hr] at hs
  exact h.ne_nil (List.self_eq_append_left.1 hs)

theorem strtod_structural : ∀ c, c = 0x5D ∨ c = 0x7D ∨ c = 0x2C → ∀ p,
    (strtod (c :: p)).2 = c :: p := by
  rintro c (rfl | rfl | rfl) p <;> rfl

/-- A value starts neither with white space nor with a closing bracket or a comma. -/
theorem exists_render_cons (ht : t.In loose) (r : Bytes) : ∃ c p, t.render r = c :: p ∧
    isWs c = false ∧ c ≠ 0x5D ∧ c ≠ 0x7D ∧ c ≠ 0x2C := by
  cases t with
  | number tok =>
    obtain ⟨c, tok', rfl⟩ := List.exists_cons_of_ne_nil ht.ne_nil
    have hc : ¬(c = 0x5D ∨ c = 0x7D ∨ c = 0x2C) := by
      intro hc
      have := ht.all
      rw [strtod_structural c hc] at this
      cases this
    simp only [not_or] at hc
    refine ⟨c, tok' ++ r, rfl, Bool.eq_false_iff.2 fun hw => ?_, hc⟩
    have := ht.start c rfl
    rw [isspace_of_isWs c hw] at this
    cases this
  | _ => exact ⟨_, _, rfl, by decide, by decide, by decide, by decide⟩

/-- The first byte of a value, and zero for a number. -/
def Tree.kind : Tree → UInt8
  | .null => 0x6E
  | .true_ => 0x74
  | .false_ => 0x66
  | .number _ => 0
  | .string _ => 0x22
  | .emptyArray _ | .array _ => 0x5B
  | .emptyObject _ | .object _ => 0x7B

theorem head_render (ht : ∀ tok, t ≠ .number tok) (r : Bytes) :
    (t.render r).head? = some t.kind := by
  cases t with
  | number tok => exact absurd rfl (ht tok)
  | _ => rfl

theorem kind_eq {t₁ t₂ : Tree} {r₁ r₂ : Bytes} (h₁ : t₁.In loose) (h₂ : t₂.In loose)
    (s₁ : Stops isNumberByte r₁) (s₂ : Stops isNumberByte r₂)
    (h : t₁.render r₁ = t₂.render r₂) : t₁.kind = t₂.kind := by
  by_cases n₁ : ∃ tok, t₁ = .number tok
  · obtain ⟨tok, rfl⟩ := n₁
    obtain ⟨tok', rfl⟩ := number_of_render h₁ s₁ h
    rfl
  by_cases n₂ : ∃ tok, t₂ = .number tok
  · obtain ⟨tok, rfl⟩ := n₂
    exact absurd (number_of_render h₂ s₂ h.symm) n₁
  have := head_render (fun tok ht => n₁ ⟨tok, ht⟩) r₁
  rw [h, head_render (fun tok ht => n₂ ⟨tok, ht⟩) r₂] at this
  exact (Option.some.inj this).symm

theorem token_unique {tok₁ tok₂ r₁ r₂ : Bytes} (h₁ : IsToken tok₁) (h₂ : IsToken tok₂)
    (s₁ : Stops isNumberByte r₁) (s₂ : Stops isNumberByte r₂) (h : tok₁ ++ r₁ = tok₂ ++ r₂) :
    tok₁ = tok₂ ∧ r₁ = r₂ := by
  have hr : r₁ = r₂ := by
    have := strtod_token h₁ s₁
    rw [h, strtod_token h₂ s₂] at this
    exact (Prod.ext_iff.1 this).2.symm
  exact ⟨List.append_cancel_right (hr ▸ h), hr⟩

/-- What comes after a value in an array or an object. -/
theorem stops_render_comma {w : Bytes} (hw : Ws w) {c : UInt8} (hc : isNumberByte c = false)
    (comma : Bool) (r : Bytes) : Stops isNumberByte (w ++ renderComma comma (c :: r)) := by
  refine hw.stops_append ?_
  cases comma
  · exact stops_cons.2 hc
  · exact stops_cons.2 (by decide)

theorem stops_comma {w : Bytes} (hw : Ws w) (r : Bytes) : Stops isNumberByte (w ++ 0x2C :: r) :=
  hw.stops_append (stops_cons.2 (by decide))

theorem stops_isWs_render (ht : t.In loose) (r : Bytes) : Stops isWs (t.render r) := by
  obtain ⟨c, p, hp, hc, -⟩ := exists_render_cons ht r
  exact hp ▸ stops_cons.2 hc

end Head

/-! ## Trees -/

/-- Between white space and value, the text splits in one way. -/
theorem split_value {w₁ w₂ r₁ r₂ : Bytes} {t₁ t₂ : Tree} (v₁ : Ws w₁) (v₂ : Ws w₂)
    (h₁ : t₁.In loose) (h₂ : t₂.In loose) (h : w₁ ++ t₁.render r₁ = w₂ ++ t₂.render r₂) :
    w₁ = w₂ ∧ t₁.render r₁ = t₂.render r₂ :=
  ws_unique v₁ v₂ (stops_isWs_render h₁ r₁) (stops_isWs_render h₂ r₂) h

/-- After a value, a comma and a further value differ from the end of the array
    or object `b`. -/
theorem comma_ne {w₁ w₂ p r : Bytes} {comma : Bool} {b : UInt8} (v₁ : Ws w₁) (v₂ : Ws w₂)
    (hb : isWs b = false ∧ b ≠ 0x2C) (hp : ∀ c ∈ p.head?, c ≠ b) :
    w₁ ++ renderComma comma (b :: r) ≠ w₂ ++ 0x2C :: p := by
  intro h
  cases comma
  · obtain ⟨-, h⟩ := ws_unique v₁ v₂ (stops_cons.2 hb.1) (stops_cons.2 (by decide)) h
    exact hb.2 (List.cons_eq_cons.1 h).1
  · obtain ⟨-, h⟩ := ws_unique v₁ v₂ (stops_cons.2 (by decide)) (stops_cons.2 (by decide)) h
    exact hp b (by simp [← (List.cons_eq_cons.1 h).2]) rfl

theorem comma_unique {w₁ w₂ r₁ r₂ : Bytes} {c₁ c₂ : Bool} {b : UInt8} (v₁ : Ws w₁) (v₂ : Ws w₂)
    (hb : isWs b = false ∧ b ≠ 0x2C)
    (h : w₁ ++ renderComma c₁ (b :: r₁) = w₂ ++ renderComma c₂ (b :: r₂)) :
    w₁ = w₂ ∧ c₁ = c₂ ∧ r₁ = r₂ := by
  have hs : ∀ c r, Stops isWs (renderComma c (b :: r)) := by
    rintro (_ | _) r
    · exact stops_cons.2 hb.1
    · exact stops_cons.2 (by decide)
  obtain ⟨rfl, h⟩ := ws_unique v₁ v₂ (hs c₁ r₁) (hs c₂ r₂) h
  cases c₁ <;> cases c₂ <;> simp_all [renderComma]

/-- The text of elements starts with white space or a value. -/
theorem Elements.exists_lead {es : Elements} (h : es.In loose) (r : Bytes) :
    ∃ (w : Bytes) (t : Tree) (q : Bytes), Ws w ∧ t.In loose ∧ es.render r = w ++ t.render q := by
  cases es with
  | last w₁ t w₂ comma => exact ⟨w₁, t, _, h.1, h.2.1, rfl⟩
  | cons w₁ t w₂ es => exact ⟨w₁, t, _, h.1, h.2.1, rfl⟩

/-- The text of members starts with white space or a quote. -/
theorem Members.exists_lead {ms : Members} (h : ms.In loose) (r : Bytes) :
    ∃ w q, Ws w ∧ ms.render r = w ++ 0x22 :: q := by
  cases ms with
  | last => exact ⟨_, _, h.1, rfl⟩
  | cons => exact ⟨_, _, h.1, rfl⟩

theorem Elements.head_ne {es : Elements} (h : es.In loose) (r : Bytes) :
    ∀ c ∈ (es.render r).head?, c ≠ 0x5D := by
  obtain ⟨w, t, q, hw, ht, he⟩ := es.exists_lead h r
  obtain ⟨c, p, hp, -, hc, -⟩ := exists_render_cons ht q
  rw [he, hp]
  cases w with
  | nil => simpa using hc
  | cons b w =>
    have := hw b List.mem_cons_self
    rintro c hc rfl
    simp only [List.cons_append, List.head?_cons, Option.mem_def, Option.some.injEq] at hc
    exact absurd (hc ▸ this) (by decide)

theorem Members.head_ne {ms : Members} (h : ms.In loose) (r : Bytes) :
    ∀ c ∈ (ms.render r).head?, c ≠ 0x7D := by
  obtain ⟨w, q, hw, he⟩ := ms.exists_lead h r
  rw [he]
  cases w with
  | nil => simp
  | cons b w =>
    have := hw b List.mem_cons_self
    rintro c hc rfl
    simp only [List.cons_append, List.head?_cons, Option.mem_def, Option.some.injEq] at hc
    exact absurd (hc ▸ this) (by decide)

theorem emptyArray_ne {w r q : Bytes} {es : Elements} (hw : Ws w) (h : es.In loose) :
    w ++ 0x5D :: r ≠ es.render q := by
  intro heq
  obtain ⟨w', t, q', hw', ht, he⟩ := es.exists_lead h q
  obtain ⟨c, p, hp, -, hc, -⟩ := exists_render_cons ht q'
  rw [he] at heq
  obtain ⟨-, h⟩ := ws_unique hw hw' (stops_cons.2 (by decide)) (stops_isWs_render ht _) heq
  rw [hp] at h
  exact hc (List.cons_eq_cons.1 h).1.symm

theorem emptyObject_ne {w r q : Bytes} {ms : Members} (hw : Ws w) (h : ms.In loose) :
    w ++ 0x7D :: r ≠ ms.render q := by
  intro heq
  obtain ⟨w', q', hw', he⟩ := ms.exists_lead h q
  rw [he] at heq
  obtain ⟨-, h⟩ := ws_unique hw hw' (stops_cons.2 (by decide)) (stops_cons.2 (by decide)) heq
  exact absurd (List.cons_eq_cons.1 h).1 (by decide)

/-- What the text of a member says up to its value. -/
theorem split_member {v₁ v₂ w₁ w₂ x₁ x₂ r₁ r₂ : Bytes} {n₁ n₂ : List Item} {t₁ t₂ : Tree}
    (hv₁ : Ws v₁) (hv₂ : Ws v₂) (hn₁ : ∀ i ∈ n₁, i.Lexical) (hn₂ : ∀ i ∈ n₂, i.Lexical)
    (hw₁ : Ws w₁) (hw₂ : Ws w₂) (hx₁ : Ws x₁) (hx₂ : Ws x₂) (h₁ : t₁.In loose) (h₂ : t₂.In loose)
    (h : v₁ ++ 0x22 :: renderItems n₁ (0x22 :: (w₁ ++ 0x3A :: (x₁ ++ t₁.render r₁))) =
      v₂ ++ 0x22 :: renderItems n₂ (0x22 :: (w₂ ++ 0x3A :: (x₂ ++ t₂.render r₂)))) :
    v₁ = v₂ ∧ n₁ = n₂ ∧ w₁ = w₂ ∧ x₁ = x₂ ∧ t₁.render r₁ = t₂.render r₂ := by
  obtain ⟨hv, h⟩ := ws_unique hv₁ hv₂ (stops_cons.2 (by decide)) (stops_cons.2 (by decide)) h
  obtain ⟨hn, h⟩ := renderItems_unique hn₁ hn₂ (List.cons_eq_cons.1 h).2
  obtain ⟨hw, h⟩ := ws_unique hw₁ hw₂ (stops_cons.2 (by decide)) (stops_cons.2 (by decide)) h
  obtain ⟨hx, h⟩ := split_value hx₁ hx₂ h₁ h₂ (List.cons_eq_cons.1 h).2
  exact ⟨hv, hn, hw, hx, h⟩

mutual

/-- A text has one tree. -/
theorem Tree.unique : ∀ {t₁ t₂ : Tree} {r₁ r₂ : Bytes}, t₁.In loose → t₂.In loose →
    Stops isNumberByte r₁ → Stops isNumberByte r₂ → t₁.render r₁ = t₂.render r₂ →
    t₁ = t₂ ∧ r₁ = r₂
  | t₁, t₂, r₁, r₂, h₁, h₂, s₁, s₂, h => by
    -- The first byte tells the kind; an array may still be empty in one of the trees.
    have hk := kind_eq h₁ h₂ s₁ s₂ h
    cases t₁ with
    | null => cases t₂ <;> simp_all [Tree.kind, Tree.render]
    | true_ => cases t₂ <;> simp_all [Tree.kind, Tree.render]
    | false_ => cases t₂ <;> simp_all [Tree.kind, Tree.render]
    | number tok =>
      cases t₂ <;> simp only [Tree.kind] at hk <;> try cases hk
      simpa using token_unique h₁ h₂ s₁ s₂ h
    | string is =>
      cases t₂ <;> simp only [Tree.kind] at hk <;> try cases hk
      simpa using renderItems_unique h₁ h₂ (List.cons_eq_cons.1 h).2
    | emptyArray w =>
      cases t₂ <;> simp only [Tree.kind] at hk <;> try cases hk
      · obtain ⟨rfl, k⟩ := ws_unique h₁ h₂ (stops_cons.2 (by decide)) (stops_cons.2 (by decide))
          (List.cons_eq_cons.1 h).2
        exact ⟨rfl, (List.cons_eq_cons.1 k).2⟩
      · exact absurd (List.cons_eq_cons.1 h).2 (emptyArray_ne h₁ h₂)
    | array es =>
      cases t₂ <;> simp only [Tree.kind] at hk <;> try cases hk
      · exact absurd (List.cons_eq_cons.1 h).2.symm (emptyArray_ne h₂ h₁)
      · obtain ⟨rfl, hr⟩ := es.unique h₁ h₂ (List.cons_eq_cons.1 h).2
        exact ⟨rfl, hr⟩
    | emptyObject w =>
      cases t₂ <;> simp only [Tree.kind] at hk <;> try cases hk
      · obtain ⟨rfl, k⟩ := ws_unique h₁ h₂ (stops_cons.2 (by decide)) (stops_cons.2 (by decide))
          (List.cons_eq_cons.1 h).2
        exact ⟨rfl, (List.cons_eq_cons.1 k).2⟩
      · exact absurd (List.cons_eq_cons.1 h).2 (emptyObject_ne h₁ h₂)
    | object ms =>
      cases t₂ <;> simp only [Tree.kind] at hk <;> try cases hk
      · exact absurd (List.cons_eq_cons.1 h).2.symm (emptyObject_ne h₂ h₁)
      · obtain ⟨rfl, hr⟩ := ms.unique h₁ h₂ (List.cons_eq_cons.1 h).2
        exact ⟨rfl, hr⟩

theorem Elements.unique : ∀ {es₁ es₂ : Elements} {r₁ r₂ : Bytes}, es₁.In loose → es₂.In loose →
    es₁.render (0x5D :: r₁) = es₂.render (0x5D :: r₂) → es₁ = es₂ ∧ r₁ = r₂
  | .last w₁ t w₂ comma, .last v₁ t' v₂ comma', r₁, r₂, ⟨hw₁, ht, hw₂, _⟩,
      ⟨hv₁, ht', hv₂, _⟩, h => by
    obtain ⟨rfl, k⟩ := split_value hw₁ hv₁ ht ht' h
    obtain ⟨rfl, l⟩ := t.unique ht ht' (stops_render_comma hw₂ (by decide) _ _)
      (stops_render_comma hv₂ (by decide) _ _) k
    obtain ⟨rfl, rfl, rfl⟩ := comma_unique hw₂ hv₂ (by decide) l
    exact ⟨rfl, rfl⟩
  | .last w₁ t w₂ comma, .cons v₁ t' v₂ es', r₁, r₂, ⟨hw₁, ht, hw₂, _⟩,
      ⟨hv₁, ht', hv₂, hes⟩, h => by
    obtain ⟨rfl, k⟩ := split_value hw₁ hv₁ ht ht' h
    obtain ⟨rfl, l⟩ :=
      t.unique ht ht' (stops_render_comma hw₂ (by decide) _ _) (stops_comma hv₂ _) k
    -- After the comma comes the bracket in one, and a value in the other.
    exact absurd l (comma_ne hw₂ hv₂ (by decide) (Elements.head_ne hes _))
  | .cons w₁ t w₂ es, .last v₁ t' v₂ comma, r₁, r₂, ⟨hw₁, ht, hw₂, hes⟩, ⟨hv₁, ht', hv₂, _⟩, h => by
    obtain ⟨rfl, k⟩ := split_value hw₁ hv₁ ht ht' h
    obtain ⟨rfl, l⟩ :=
      t.unique ht ht' (stops_comma hw₂ _) (stops_render_comma hv₂ (by decide) _ _) k
    exact absurd l.symm (comma_ne hv₂ hw₂ (by decide) (Elements.head_ne hes _))
  | .cons w₁ t w₂ es, .cons v₁ t' v₂ es', r₁, r₂, ⟨hw₁, ht, hw₂, hes⟩,
      ⟨hv₁, ht', hv₂, hes'⟩, h => by
    obtain ⟨rfl, k⟩ := split_value hw₁ hv₁ ht ht' h
    obtain ⟨rfl, l⟩ := t.unique ht ht' (stops_comma hw₂ _) (stops_comma hv₂ _) k
    obtain ⟨rfl, m⟩ := ws_unique hw₂ hv₂ (stops_cons.2 (by decide)) (stops_cons.2 (by decide)) l
    obtain ⟨rfl, hr⟩ := es.unique hes hes' (List.cons_eq_cons.1 m).2
    exact ⟨rfl, hr⟩

theorem Members.unique : ∀ {ms₁ ms₂ : Members} {r₁ r₂ : Bytes}, ms₁.In loose → ms₂.In loose →
    ms₁.render (0x7D :: r₁) = ms₂.render (0x7D :: r₂) → ms₁ = ms₂ ∧ r₁ = r₂
  | .last w₁ n w₂ w₃ t w₄ comma, .last v₁ n' v₂ v₃ t' v₄ comma', r₁, r₂,
      ⟨hw₁, hn, hw₂, hw₃, ht, hw₄, _⟩, ⟨hv₁, hn', hv₂, hv₃, ht', hv₄, _⟩, h => by
    obtain ⟨rfl, rfl, rfl, rfl, k⟩ := split_member hw₁ hv₁ hn hn' hw₂ hv₂ hw₃ hv₃ ht ht' h
    obtain ⟨rfl, l⟩ := t.unique ht ht' (stops_render_comma hw₄ (by decide) _ _)
      (stops_render_comma hv₄ (by decide) _ _) k
    obtain ⟨rfl, rfl, rfl⟩ := comma_unique hw₄ hv₄ (by decide) l
    exact ⟨rfl, rfl⟩
  | .last w₁ n w₂ w₃ t w₄ comma, .cons v₁ n' v₂ v₃ t' v₄ ms', r₁, r₂,
      ⟨hw₁, hn, hw₂, hw₃, ht, hw₄, _⟩, ⟨hv₁, hn', hv₂, hv₃, ht', hv₄, hms⟩, h => by
    obtain ⟨rfl, rfl, rfl, rfl, k⟩ := split_member hw₁ hv₁ hn hn' hw₂ hv₂ hw₃ hv₃ ht ht' h
    obtain ⟨rfl, l⟩ :=
      t.unique ht ht' (stops_render_comma hw₄ (by decide) _ _) (stops_comma hv₄ _) k
    exact absurd l (comma_ne hw₄ hv₄ (by decide) (Members.head_ne hms _))
  | .cons w₁ n w₂ w₃ t w₄ ms, .last v₁ n' v₂ v₃ t' v₄ comma, r₁, r₂,
      ⟨hw₁, hn, hw₂, hw₃, ht, hw₄, hms⟩, ⟨hv₁, hn', hv₂, hv₃, ht', hv₄, _⟩, h => by
    obtain ⟨rfl, rfl, rfl, rfl, k⟩ := split_member hw₁ hv₁ hn hn' hw₂ hv₂ hw₃ hv₃ ht ht' h
    obtain ⟨rfl, l⟩ :=
      t.unique ht ht' (stops_comma hw₄ _) (stops_render_comma hv₄ (by decide) _ _) k
    exact absurd l.symm (comma_ne hv₄ hw₄ (by decide) (Members.head_ne hms _))
  | .cons w₁ n w₂ w₃ t w₄ ms, .cons v₁ n' v₂ v₃ t' v₄ ms', r₁, r₂,
      ⟨hw₁, hn, hw₂, hw₃, ht, hw₄, hms⟩, ⟨hv₁, hn', hv₂, hv₃, ht', hv₄, hms'⟩, h => by
    obtain ⟨rfl, rfl, rfl, rfl, k⟩ := split_member hw₁ hv₁ hn hn' hw₂ hv₂ hw₃ hv₃ ht ht' h
    obtain ⟨rfl, l⟩ := t.unique ht ht' (stops_comma hw₄ _) (stops_comma hv₄ _) k
    obtain ⟨rfl, m⟩ := ws_unique hw₄ hv₄ (stops_cons.2 (by decide)) (stops_cons.2 (by decide)) l
    obtain ⟨rfl, hr⟩ := ms.unique hms hms' (List.cons_eq_cons.1 m).2
    exact ⟨rfl, hr⟩

end

end JsonText
