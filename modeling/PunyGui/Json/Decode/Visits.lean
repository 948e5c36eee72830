import PunyGui.Json.Decode.Text

/-!
# The visits of the decoder

A run of the decoder that writes down, for each call and each turn of a loop, the read
position and the depth where it begins and where it ends.

* `decodeOneLogged`: `decodeOne` with its visits; `decodeOneLogged_snd` takes them away
  again.
* `decodeOneLogged_within`: in order, the visits move forward, and none is more than one
  deeper than the recursion guard.
-/

namespace PunyGui

open Binary64 Text Libc JsonText

/-- The read position and the depth where a call begins or ends. -/
structure Visit where
  pointer : Bytes
  depth : ℕ

/-- What a run of the decoder visits, in order, and what it returns. -/
abbrev LoggedRun := List Visit × Except (Stop × Bytes) (Janet × Bytes)

namespace LoggedRun

/-- The read position at the end of a run. -/
def finish : Except (Stop × Bytes) (Janet × Bytes) → Bytes
  | .ok (_, p) => p
  | .error (_, p) => p

/-- The end of a run, with no call before it. -/
def done (r : Except (Stop × Bytes) (Janet × Bytes)) : LoggedRun := ([], r)

/-- A call, at `p` and `depth`: it visits where it begins, what it runs and where it ends. -/
def call (p : Bytes) (depth : ℕ) (r : LoggedRun) : LoggedRun :=
  (⟨p, depth⟩ :: (r.1 ++ [⟨finish r.2, depth⟩]), r.2)

/-- Go on with the value of a run, at the read position it has ended at. -/
def andThen (r : LoggedRun) (f : Janet → Bytes → LoggedRun) : LoggedRun :=
  match r.2 with
  | .error e => (r.1, .error e)
  | .ok (x, p) => (r.1 ++ (f x p).1, (f x p).2)

end LoggedRun

open LoggedRun

section

variable (rt : Runtime)

mutual

/-- `decodeOne` with the visits of its calls. -/
def decodeOneLogged : ℕ → Bytes → ℕ → LoggedRun
  | 0, p, depth => call p depth (.done (.error (.fuel, p)))
  | fuel + 1, p, depth => call p depth <|
    if depth &&& 0xFFFF > rt.recursionGuard then .done (.error (.error "recured too deeply", p))
    else
      match skipwhite p with
      | [] => .done (.error (.fault, []))
      | c :: cs =>
        if c = 0 then .done (.error (.error "unexpected end of source", c :: cs))
        else if c = 0x2D ∨ (0x30 ≤ c ∧ c ≤ 0x39) then
          let (x, e) := strtod (c :: cs)
          .done (if e = c :: cs then .error (.error "bad number", c :: cs)
            else .ok (.number x, e))
        else if c = 0x66 then
          .done (decodeIdent (c :: cs) (ascii ['a', 'l', 's', 'e']) (.boolean false))
        else if c = 0x6E then
          .done (decodeIdent (c :: cs) (ascii ['u', 'l', 'l'])
            (if depth &&& jsonNullToNil ≠ 0 then .nil else nullKeyword))
        else if c = 0x74 then
          .done (decodeIdent (c :: cs) (ascii ['r', 'u', 'e']) (.boolean true))
        else if c = 0x22 then .done (decodeQuoted cs)
        else if c = 0x5B then decodeElementsLogged fuel (skipwhite cs) depth []
        else if c = 0x7B then decodeMembersLogged fuel (skipwhite cs) depth rt.table
        else .done (.error (.error "unexpected character", c :: cs))

/-- The loop over the elements of an array: every turn of it visits. -/
def decodeElementsLogged : ℕ → Bytes → ℕ → List Janet → LoggedRun
  | 0, p, depth, _ => call p depth (.done (.error (.fuel, p)))
  | _ + 1, [], depth, _ => call [] depth (.done (.error (.fault, [])))
  | fuel + 1, c :: cs, depth, array => call (c :: cs) depth <|
    if c = 0x5D then .done (.ok (.array array, cs))
    else
      (decodeOneLogged fuel (c :: cs) (depth + 1)).andThen fun subval p =>
        match skipwhite p with
        | [] => .done (.error (.fault, []))
        | c :: cs =>
          if c = 0x5D then .done (.ok (.array (array ++ [subval]), cs))
          else if c ≠ 0x2C then .done (.error (.error "expected comma", c :: cs))
          else decodeElementsLogged fuel cs depth (array ++ [subval])

/-- The loop over the members of an object: every turn of it visits. -/
def decodeMembersLogged : ℕ → Bytes → ℕ → Slots → LoggedRun
  | 0, p, depth, _ => call p depth (.done (.error (.fuel, p)))
  | _ + 1, [], depth, _ => call [] depth (.done (.error (.fault, [])))
  | fuel + 1, c :: cs, depth, table => call (c :: cs) depth <|
    if c = 0x7D then .done (.ok (.table table, cs))
    else
      match skipwhite (c :: cs) with
      | [] => .done (.error (.fault, []))
      | c :: cs =>
        if c ≠ 0x22 then .done (.error (.error "expected json string", c :: cs))
        else
          (decodeOneLogged fuel (c :: cs) (depth + 1)).andThen fun subkey p =>
            match skipwhite p with
            | [] => .done (.error (.fault, []))
            | c :: cs =>
              if c ≠ 0x3A then .done (.error (.error "expected colon", c :: cs))
              else
                (decodeOneLogged fuel cs (depth + 1)).andThen fun subval p =>
                  let subkey := if depth &&& jsonKeywordKey ≠ 0 then toKeyword subkey else subkey
                  let table := rt.tablePut table subkey subval
                  match skipwhite p with
                  | [] => .done (.error (.fault, []))
                  | c :: cs =>
                    if c = 0x7D then .done (.ok (.table table, cs))
                    else if c ≠ 0x2C then .done (.error (.error "expected comma", c :: cs))
                    else decodeMembersLogged fuel cs depth table

end

end

section Visits

variable {rt : Runtime}

@[simp] theorem LoggedRun.done_snd (r : Except (Stop × Bytes) (Janet × Bytes)) :
    (done r).2 = r := rfl

@[simp] theorem LoggedRun.call_snd (p : Bytes) (d : ℕ) (r : LoggedRun) : (call p d r).2 = r.2 := rfl

theorem LoggedRun.andThen_snd (r : LoggedRun) (f : Janet → Bytes → LoggedRun) :
    (r.andThen f).2 =
      match r.2 with
      | .error e => .error e
      | .ok (x, p) => (f x p).2 := by
  rcases r with ⟨visits, e | ⟨x, p⟩⟩ <;> rfl

mutual

/-- Without the visits, the run is that of `decodeOne`. -/
theorem decodeOneLogged_snd : ∀ n p d, (decodeOneLogged rt n p d).2 = decodeOne rt n p d
  | 0, p, d => by rw [decodeOneLogged, decodeOne]; rfl
  | n + 1, p, d => by
    rw [decodeOneLogged, decodeOne, call_snd]
    by_cases hd : d &&& 0xFFFF > rt.recursionGuard
    · rw [if_pos hd, if_pos hd, done_snd]
    rw [if_neg hd, if_neg hd]
    generalize (if d &&& jsonNullToNil ≠ 0 then Janet.nil else nullKeyword) = null
    rcases skipwhite p with _ | ⟨c, cs⟩
    · rfl
    dsimp only
    split_ifs with h0 hnum hf hn hnil ht hq ha ho
    · rfl
    · rfl
    · rfl
    · rfl
    · rfl
    · rfl
    · rfl
    · exact decodeElementsLogged_snd n _ d []
    · exact decodeMembersLogged_snd n _ d rt.table
    · rfl

theorem decodeElementsLogged_snd : ∀ n p d array,
    (decodeElementsLogged rt n p d array).2 = decodeElements rt n p d array
  | 0, p, d, array => by rw [decodeElementsLogged, decodeElements]; rfl
  | n + 1, [], d, array => by rw [decodeElementsLogged, decodeElements]; rfl
  | n + 1, c :: cs, d, array => by
    rw [decodeElementsLogged, decodeElements, call_snd]
    split_ifs with hc
    · rfl
    rw [andThen_snd, decodeOneLogged_snd]
    rcases decodeOne rt n (c :: cs) (d + 1) with e | ⟨x, p⟩
    · rfl
    dsimp only
    rcases skipwhite p with _ | ⟨b, p'⟩
    · rfl
    dsimp only
    split_ifs with hb hcomma
    · rfl
    · rfl
    · exact decodeElementsLogged_snd n p' d _

theorem decodeMembersLogged_snd : ∀ n p d table,
    (decodeMembersLogged rt n p d table).2 = decodeMembers rt n p d table
  | 0, p, d, table => by rw [decodeMembersLogged, decodeMembers]; rfl
  | n + 1, [], d, table => by rw [decodeMembersLogged, decodeMembers]; rfl
  | n + 1, c :: cs, d, table => by
    rw [decodeMembersLogged, decodeMembers, call_snd]
    by_cases hc : c = 0x7D
    · rw [if_pos hc, if_pos hc, done_snd]
    rw [if_neg hc, if_neg hc]
    rcases skipwhite (c :: cs) with _ | ⟨b, p⟩
    · rfl
    dsimp only
    by_cases hb : b ≠ 0x22
    · rw [if_pos hb, if_pos hb, done_snd]
    rw [if_neg hb, if_neg hb, andThen_snd, decodeOneLogged_snd]
    rcases decodeOne rt n (b :: p) (d + 1) with e | ⟨k, p₁⟩
    · rfl
    dsimp only
    rcases skipwhite p₁ with _ | ⟨b, p₂⟩
    · rfl
    dsimp only
    by_cases hb : b ≠ 0x3A
    · rw [if_pos hb, if_pos hb, done_snd]
    rw [if_neg hb, if_neg hb, andThen_snd, decodeOneLogged_snd]
    rcases decodeOne rt n p₂ (d + 1) with e | ⟨v, p₃⟩
    · rfl
    dsimp only
    generalize (if d &&& jsonKeywordKey ≠ 0 then toKeyword k else k) = key
    rcases skipwhite p₃ with _ | ⟨b, p₄⟩
    · rfl
    dsimp only
    split_ifs with hb hcomma
    · rfl
    · rfl
    · exact decodeMembersLogged_snd n p₄ d _

end

/-! ## The bounds of a run -/

theorem decodeStringLoop_suffix {n : ℕ} {cp buffer s p : Bytes}
    (h : decodeStringLoop n cp buffer = .ok (s, p)) : p <:+ cp := by
  induction n generalizing cp buffer with
  | zero => cases h
  | succ n ih =>
    rcases cp with _ | ⟨b, cp⟩
    · cases h
    -- Every turn goes on behind what it has read.
    have hnext : ∀ {cp' buffer}, cp' <:+ cp → decodeStringLoop n cp' buffer = .ok (s, p) →
        p <:+ b :: cp :=
      fun hs h => ((ih h).trans hs).trans (List.suffix_cons b cp)
    simp only [decodeStringLoop, deref, bind, Except.bind, List.getElem?_cons_zero,
      List.getElem?_cons_succ, List.drop_succ_cons, List.drop_zero] at h
    split_ifs at h with hquote hlt hbs
    · cases h
      exact List.suffix_cons b _
    · rcases cp with _ | ⟨c, cp⟩
      · cases h
      simp only [List.getElem?_cons_zero, List.drop_succ_cons, List.drop_zero] at h
      split_ifs at h with hu
      · rcases he : decodeEscape (c :: cp) with e | ⟨codepoint, k⟩ <;> rw [he] at h
        · cases h
        · exact hnext (List.drop_suffix k _) h
      · rcases he : simpleEscape c with _ | b' <;> rw [he] at h
        · cases h
        · exact hnext (List.suffix_cons c cp) h
    · exact hnext (List.suffix_refl cp) h

theorem decodeQuoted_suffix (p : Bytes) : finish (decodeQuoted p) <:+ 0x22 :: p := by
  have hs := List.suffix_cons 0x22 p
  have hd : p.dropWhile plain <:+ p := List.dropWhile_suffix plain
  simp only [decodeQuoted]
  rcases hp : p.dropWhile plain with _ | ⟨c, cs⟩
  · exact List.suffix_refl _
  dsimp only
  split_ifs with hbs hquote
  · rcases h : decodeString p with e | ⟨s, p'⟩
    · exact hs
    · exact (decodeStringLoop_suffix h).trans hs
  · exact List.suffix_refl _
  · exact ((List.suffix_cons c cs).trans (hp ▸ hd)).trans hs

theorem expectRest_suffix {rest p p' : Bytes} (h : expectRest rest p = .ok p') : p' <:+ p := by
  induction rest generalizing p with
  | nil =>
    cases h
    exact List.suffix_refl _
  | cons l rest ih =>
    rcases p with _ | ⟨b, p⟩
    · cases h
    simp only [expectRest, deref, bind, Except.bind, List.getElem?_cons_zero] at h
    split_ifs at h
    exact (ih h).trans (List.suffix_cons b p)

theorem decodeIdent_suffix (p rest : Bytes) (x : Janet) : finish (decodeIdent p rest x) <:+ p := by
  rw [decodeIdent]
  rcases h : expectRest rest (p.drop 1) with e | p'
  · exact List.suffix_refl p
  · exact (expectRest_suffix h).trans (List.drop_suffix 1 p)

theorem skipwhite_suffix (q : Bytes) : skipwhite q <:+ q := List.dropWhile_suffix white

/-- What holds of a run from `p` on: the read position only moves forward, and no call is
    nested more than one deeper than the guard. -/
structure Within (rt : Runtime) (flags : ℕ) (p : Bytes) (r : LoggedRun) : Prop where
  begins : ∀ v ∈ r.1, v.pointer <:+ p
  forward : r.1.Pairwise fun v v' => v'.pointer <:+ v.pointer
  ends : ∀ v ∈ r.1, finish r.2 <:+ v.pointer
  moves : finish r.2 <:+ p
  nested : ∀ v ∈ r.1, ∃ l ≤ rt.recursionGuard + 1, v.depth = flags + l

namespace Within

variable {flags d : ℕ} {p p' : Bytes} {r : LoggedRun}

theorem done {x : Except (Stop × Bytes) (Janet × Bytes)} (h : finish x <:+ p) :
    Within rt flags p (.done x) where
  begins := fun v hv => by cases hv
  forward := .nil
  ends := fun v hv => by cases hv
  moves := h
  nested := fun v hv => by cases hv

theorem mono (h : Within rt flags p' r) (hp : p' <:+ p) : Within rt flags p r where
  begins := fun v hv => (h.begins v hv).trans hp
  forward := h.forward
  ends := h.ends
  moves := h.moves.trans hp
  nested := h.nested

theorem call {l : ℕ} (h : Within rt flags p r) (hl : l ≤ rt.recursionGuard + 1)
    (hd : d = flags + l) : Within rt flags p (.call p d r) where
  begins := by
    simp only [LoggedRun.call, List.forall_mem_cons, List.forall_mem_append]
    exact ⟨List.suffix_refl p, h.begins, h.moves, fun v hv => by cases hv⟩
  forward := by
    simp only [LoggedRun.call, List.pairwise_cons, List.forall_mem_append, List.forall_mem_cons,
      List.pairwise_append]
    refine ⟨⟨h.begins, h.moves, fun v hv => by cases hv⟩, h.forward, by simp, fun v hv => ?_⟩
    exact ⟨h.ends v hv, fun v hv => by cases hv⟩
  ends := by
    simp only [LoggedRun.call, List.forall_mem_cons, List.forall_mem_append]
    exact ⟨h.moves, h.ends, List.suffix_refl _, fun v hv => by cases hv⟩
  moves := h.moves
  nested := by
    simp only [LoggedRun.call, List.forall_mem_cons, List.forall_mem_append]
    exact ⟨⟨l, hl, hd⟩, h.nested, ⟨l, hl, hd⟩, fun v hv => by cases hv⟩

theorem andThen {f : Janet → Bytes → LoggedRun} (h : Within rt flags p r)
    (hf : ∀ x p', p' <:+ p → Within rt flags p' (f x p')) :
    Within rt flags p (r.andThen f) := by
  rcases r with ⟨visits, e | ⟨x, p'⟩⟩
  · exact h
  have hp' : p' <:+ p := h.moves
  have hx := hf x p' hp'
  exact
    { begins := List.forall_mem_append.2 ⟨h.begins, fun v hv => (hx.begins v hv).trans hp'⟩
      forward := List.pairwise_append.2 ⟨h.forward, hx.forward, fun v hv v' hv' =>
        (hx.begins v' hv').trans (h.ends v hv)⟩
      ends := List.forall_mem_append.2 ⟨fun v hv => hx.moves.trans (h.ends v hv), hx.ends⟩
      moves := hx.moves.trans hp'
      nested := List.forall_mem_append.2 ⟨h.nested, hx.nested⟩ }

end Within

variable {keywords nils : Bool}

theorem depth_le_of_not_gt {l : ℕ} (hl : l ≤ rt.recursionGuard + 1)
    (hd : ¬(decodeFlags keywords nils + l) &&& 0xFFFF > rt.recursionGuard) :
    l ≤ rt.recursionGuard := by
  have := rt.guard_lt
  rw [depth_bits (by omega)] at hd
  omega

/-- After an element or a member comes the closing bracket `b`, or a comma and the next turn. -/
theorem Within.afterItem {flags : ℕ} (p : Bytes) (b : UInt8) (x : Janet) {next : Bytes → LoggedRun}
    (hnext : ∀ p', p' <:+ p → Within rt flags p' (next p')) :
    Within rt flags p
      (match skipwhite p with
        | [] => .done (.error (.fault, []))
        | c :: cs =>
          if c = b then .done (.ok (x, cs))
          else if c ≠ 0x2C then .done (.error (.error "expected comma", c :: cs))
          else next cs) := by
  have hp := skipwhite_suffix p
  rcases hw : skipwhite p with _ | ⟨c, cs⟩ <;> rw [hw] at hp
  · exact .done hp
  have hcs := (List.suffix_cons c cs).trans hp
  dsimp only
  split_ifs
  · exact .done hcs
  · exact .done hp
  · exact (hnext cs hcs).mono hcs

mutual

/-- Every run of the decoder is within the bounds, when it begins at most one deeper than
    the guard. -/
theorem decodeOneLogged_within : ∀ n p {l}, l ≤ rt.recursionGuard + 1 →
    Within rt (decodeFlags keywords nils) p (decodeOneLogged rt n p (decodeFlags keywords nils + l))
  | 0, p, l, hl => by
    rw [decodeOneLogged]
    exact Within.call (.done (List.suffix_refl p)) hl rfl
  | n + 1, p, l, hl => by
    rw [decodeOneLogged]
    refine Within.call ?_ hl rfl
    by_cases hd : (decodeFlags keywords nils + l) &&& 0xFFFF > rt.recursionGuard
    · rw [if_pos hd]
      exact .done (List.suffix_refl p)
    -- Only the calls of the loops pass the test of the recursion guard.
    rw [if_neg hd]
    have hguard := depth_le_of_not_gt hl hd
    generalize (if (decodeFlags keywords nils + l) &&& jsonNullToNil ≠ 0 then Janet.nil
      else nullKeyword) = null
    have hp := skipwhite_suffix p
    rcases hw : skipwhite p with _ | ⟨c, cs⟩ <;> rw [hw] at hp
    · exact .done hp
    have hcs := ((skipwhite_suffix cs).trans (List.suffix_cons c cs)).trans hp
    dsimp only
    split_ifs with h0 hnum hstuck hf hn ht hq ha ho
    · exact .done hp
    · exact .done hp
    · exact .done ((strtod_suffix (c :: cs)).trans hp)
    · exact .done ((decodeIdent_suffix _ _ _).trans hp)
    · exact .done ((decodeIdent_suffix _ _ _).trans hp)
    · exact .done ((decodeIdent_suffix _ _ _).trans hp)
    · exact .done ((decodeQuoted_suffix cs).trans (hq ▸ hp))
    · exact (decodeElementsLogged_within n _ [] hguard).mono hcs
    · exact (decodeMembersLogged_within n _ rt.table hguard).mono hcs
    · exact .done hp

/-- The calls of `decodeOne` from a loop go one deeper. -/
theorem decodeElementsLogged_within : ∀ n p array {l}, l ≤ rt.recursionGuard →
    Within rt (decodeFlags keywords nils) p
      (decodeElementsLogged rt n p (decodeFlags keywords nils + l) array)
  | 0, p, array, l, hl => by
    rw [decodeElementsLogged]
    exact Within.call (.done (List.suffix_refl p)) (Nat.le_succ_of_le hl) rfl
  | n + 1, [], array, l, hl => by
    rw [decodeElementsLogged]
    exact Within.call (.done (List.suffix_refl [])) (Nat.le_succ_of_le hl) rfl
  | n + 1, c :: cs, array, l, hl => by
    rw [decodeElementsLogged]
    refine Within.call ?_ (Nat.le_succ_of_le hl) rfl
    split_ifs with hc
    · exact .done (List.suffix_cons c cs)
    refine (decodeOneLogged_within n (c :: cs) (Nat.succ_le_succ hl)).andThen fun x p _ => ?_
    exact Within.afterItem p 0x5D _ fun p' _ => decodeElementsLogged_within n p' _ hl

theorem decodeMembersLogged_within : ∀ n p table {l}, l ≤ rt.recursionGuard →
    Within rt (decodeFlags keywords nils) p
      (decodeMembersLogged rt n p (decodeFlags keywords nils + l) table)
  | 0, p, table, l, hl => by
    rw [decodeMembersLogged]
    exact Within.call (.done (List.suffix_refl p)) (Nat.le_succ_of_le hl) rfl
  | n + 1, [], table, l, hl => by
    rw [decodeMembersLogged]
    exact Within.call (.done (List.suffix_refl [])) (Nat.le_succ_of_le hl) rfl
  | n + 1, c :: cs, table, l, hl => by
    rw [decodeMembersLogged]
    refine Within.call ?_ (Nat.le_succ_of_le hl) rfl
    by_cases hc : c = 0x7D
    · rw [if_pos hc]
      exact .done (List.suffix_cons c cs)
    rw [if_neg hc]
    have hp := skipwhite_suffix (c :: cs)
    rcases hw : skipwhite (c :: cs) with _ | ⟨b, p⟩ <;> rw [hw] at hp
    · exact .done hp
    dsimp only
    by_cases hb : b ≠ 0x22
    · rw [if_pos hb]
      exact .done hp
    rw [if_neg hb]
    -- The key, then the colon and the value: each begins where the one before has ended.
    refine ((decodeOneLogged_within n (b :: p) (Nat.succ_le_succ hl)).mono hp).andThen
      fun k p₁ _ => ?_
    have hp₁ := skipwhite_suffix p₁
    rcases hw : skipwhite p₁ with _ | ⟨b, p₂⟩ <;> rw [hw] at hp₁
    · exact .done hp₁
    dsimp only
    by_cases hb : b ≠ 0x3A
    · rw [if_pos hb]
      exact .done hp₁
    rw [if_neg hb]
    refine ((decodeOneLogged_within n p₂ (Nat.succ_le_succ hl)).andThen fun v p₃ _ => ?_).mono
      ((List.suffix_cons b p₂).trans hp₁)
    exact Within.afterItem p₃ 0x7D _ fun p' _ => decodeMembersLogged_within n p' _ hl

end

end Visits

end PunyGui
