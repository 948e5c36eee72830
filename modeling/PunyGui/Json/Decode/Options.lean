import PunyGui.Json.Decode.Grammar

/-!
# The options of the decoder

What the options of `json/decode` do to its result.

* `Janet.keywordKeys`, `Janet.nilNulls`: the options, as functions of the plain
  result.
* `deepSlots_put_option`: they commute with the building of a table.
* `jsonDecode_options`: they act in this way at every depth, and do not change
  what is accepted.
-/

namespace PunyGui

open Binary64 Text Libc JsonText

/-! ## The options as functions -/

namespace Janet

/-- The keyword with the bytes of a key. -/
def keywordKey (k : Janet) : Janet := k.bytes?.elim k .keyword

mutual

/-- Every key of a table turned to a keyword, at every depth of a decoded value. -/
def keywordKeys : Janet → Janet
  | .array xs => .array (keywordKeysItems xs)
  | .table kvs => .table (keywordKeysSlots kvs)
  | x => x

def keywordKeysItems : List Janet → List Janet
  | [] => []
  | x :: xs => keywordKeys x :: keywordKeysItems xs

def keywordKeysSlots : List (Janet × Janet) → List (Janet × Janet)
  | [] => []
  | (k, v) :: kvs => (keywordKey k, keywordKeys v) :: keywordKeysSlots kvs

end

mutual

/-- Every `:null` turned to nil, at every depth of a decoded value: a table has no
    entry for it. -/
def nilNulls : Janet → Janet
  | .keyword s => if s = ascii ['n', 'u', 'l', 'l'] then .nil else .keyword s
  | .array xs => .array (nilNullsItems xs)
  | .table kvs => .table (nilNullsSlots kvs)
  | x => x

def nilNullsItems : List Janet → List Janet
  | [] => []
  | x :: xs => nilNulls x :: nilNullsItems xs

def nilNullsSlots : List (Janet × Janet) → List (Janet × Janet)
  | [] => []
  | (k, v) :: kvs =>
    if (nilNulls v).isNil then nilNullsSlots kvs else (k, nilNulls v) :: nilNullsSlots kvs

end

end Janet

section Options

variable (keywords nils : Bool)

/-- The plain result of the decoder, as it is with the options. -/
def withOptions (v : Janet) : Janet :=
  let v := if keywords then v.keywordKeys else v
  if nils then v.nilNulls else v

/-- The key of a slot. -/
def keyOption (k : Janet) : Janet := if keywords then k.keywordKey else k

/-- A slot, which is gone if its value became nil. -/
def slotOption (kv : Janet × Janet) : Option (Janet × Janet) :=
  if nils = true ∧ (withOptions keywords nils kv.2).isNil = true then none
  else some (keyOption keywords kv.1, withOptions keywords nils kv.2)

end Options

section Plain

variable {keywords nils : Bool} {f : Double → Double} {t : Slots} {rt : Runtime}

theorem keywordKeysItems_eq (xs : List Janet) :
    Janet.keywordKeysItems xs = xs.map Janet.keywordKeys := by
  induction xs with
  | nil => rfl
  | cons x xs ih => rw [Janet.keywordKeysItems, ih, List.map_cons]

theorem nilNullsItems_eq (xs : List Janet) : Janet.nilNullsItems xs = xs.map Janet.nilNulls := by
  induction xs with
  | nil => rfl
  | cons x xs ih => rw [Janet.nilNullsItems, ih, List.map_cons]

theorem keywordKeysSlots_eq (kvs : List (Janet × Janet)) :
    Janet.keywordKeysSlots kvs = kvs.map fun kv => (kv.1.keywordKey, kv.2.keywordKeys) := by
  induction kvs with
  | nil => rfl
  | cons kv kvs ih => rw [Janet.keywordKeysSlots, ih, List.map_cons]

theorem nilNullsSlots_eq (kvs : List (Janet × Janet)) : Janet.nilNullsSlots kvs =
    kvs.filterMap fun kv => if kv.2.nilNulls.isNil then none else some (kv.1, kv.2.nilNulls) := by
  induction kvs with
  | nil => rfl
  | cons kv kvs ih =>
    rw [Janet.nilNullsSlots, ih, List.filterMap_cons]
    split_ifs <;> rfl

theorem withOptions_array (xs : List Janet) : withOptions keywords nils (.array xs) =
    .array (xs.map (withOptions keywords nils)) := by
  have hplain : withOptions false false = id := rfl
  cases keywords <;> cases nils <;>
    simp [withOptions, hplain, Janet.keywordKeys, Janet.nilNulls, keywordKeysItems_eq,
      nilNullsItems_eq]

theorem withOptions_table (kvs : List (Janet × Janet)) : withOptions keywords nils (.table kvs) =
    .table (kvs.filterMap (slotOption keywords nils)) := by
  have hkeys : slotOption true false = some ∘ fun kv => (kv.1.keywordKey, kv.2.keywordKeys) := by
    funext kv
    simp [slotOption, keyOption, withOptions]
  have hplain : slotOption false false = some := by
    funext kv
    simp [slotOption, keyOption, withOptions]
  have hnils : slotOption false true = fun kv =>
      if kv.2.nilNulls.isNil then none else some (kv.1, kv.2.nilNulls) := by
    funext kv
    simp [slotOption, keyOption, withOptions]
  have hboth : slotOption true true = fun kv => if kv.2.keywordKeys.nilNulls.isNil then none
      else some (kv.1.keywordKey, kv.2.keywordKeys.nilNulls) := by
    funext kv
    simp [slotOption, keyOption, withOptions]
  -- With both options the keys are turned first, which does not change what is nil.
  cases keywords <;> cases nils
  · rw [hplain, List.filterMap_some]
    rfl
  · exact congrArg _ ((nilNullsSlots_eq kvs).trans (by rw [hnils]))
  · rw [hkeys, List.filterMap_eq_map, ← keywordKeysSlots_eq]
    rfl
  · refine congrArg _ ((nilNullsSlots_eq _).trans ?_)
    rw [keywordKeysSlots_eq, List.filterMap_map, hboth]
    rfl

/-! ## Tables -/

/-- The slots of a plain result: different strings as keys. -/
def Plain (t : Slots) : Prop := WellKeyed t ∧ ∀ kv ∈ entries t, ∃ s, kv.1 = .string s

theorem plain_table : Plain rt.table := ⟨wellKeyed_table, by simp [rt.entries_table]⟩

theorem Plain.put (h : Plain t) (s : Bytes) (v : Janet) : Plain (rt.tablePut t (.string s) v) := by
  refine ⟨wellKeyed_put (isKey_string s) (by simp) h.1, fun kv hkv => ?_⟩
  rcases mem_entries_put (isKey_string s) (by simp) hkv with rfl | hkv
  · exact ⟨s, rfl⟩
  · exact h.2 kv hkv

theorem isNil_keyOption (k : Janet) : (keyOption keywords k).isNil = k.isNil := by
  cases keywords <;> cases k <;> rfl

theorem keyOption_string_inj {s s' : Bytes}
    (h : keyOption keywords (.string s) = keyOption keywords (.string s')) : s = s' := by
  cases keywords <;> simpa [keyOption, Janet.keywordKey, Janet.bytes?] using h

theorem slotOption_eq_some {kv kv' : Janet × Janet} : slotOption keywords nils kv = some kv' ↔
    ¬(nils = true ∧ (withOptions keywords nils kv.2).isNil = true) ∧
      kv' = (keyOption keywords kv.1, withOptions keywords nils kv.2) := by
  rw [slotOption]
  split_ifs with h
  · exact ⟨nofun, fun hn => absurd h hn.1⟩
  · rw [Option.some.injEq, eq_comm]
    exact (and_iff_right h).symm

theorem entries_filterMap (t : Slots) : entries (t.filterMap (slotOption keywords nils)) =
    (entries t).filterMap (slotOption keywords nils) := by
  rw [entries, entries, List.filter_filterMap, List.filterMap_filter]
  refine List.filterMap_congr fun kv _ => ?_
  cases hkv : slotOption keywords nils kv with
  | none => simp
  | some kv' =>
    obtain ⟨-, rfl⟩ := slotOption_eq_some.1 hkv
    rw [Option.filter_some, isNil_keyOption]

theorem Plain.wellKeyed_filterMap (h : Plain t) :
    WellKeyed (t.filterMap (slotOption keywords nils)) := by
  have hsub : ∀ l : Slots, ((l.filterMap (slotOption keywords nils)).map Prod.fst).Sublist
      (l.map fun kv => keyOption keywords kv.1) := by
    intro l
    induction l with
    | nil => exact .slnil
    | cons kv l ih =>
      rw [List.filterMap_cons, List.map_cons]
      cases hkv : slotOption keywords nils kv with
      | none => exact ih.cons _
      | some kv' =>
        rw [(slotOption_eq_some.1 hkv).2]
        exact ih.cons_cons _
  -- Keys may only fall away, and different strings stay different as keywords.
  rw [WellKeyed, entries_filterMap]
  refine (List.Nodup.sublist (hsub _) ?_)
  have hmap : ((entries t).map fun kv => keyOption keywords kv.1) =
      ((entries t).map Prod.fst).map (keyOption keywords) := by
    rw [List.map_map]
    rfl
  rw [hmap]
  refine List.Nodup.map_on ?_ h.1
  simp only [List.mem_map]
  rintro _ ⟨kv, hkv, rfl⟩ _ ⟨kv', hkv', rfl⟩ heq
  obtain ⟨s, hs⟩ := h.2 kv hkv
  obtain ⟨s', hs'⟩ := h.2 kv' hkv'
  rw [hs, hs'] at heq ⊢
  rw [keyOption_string_inj heq]

/-- What a table holds with the options. -/
theorem Plain.deepSlots_eq_some (h : Plain t) {k : Janet} {d : Deep} :
    Janet.deepSlots f (t.filterMap (slotOption keywords nils)) k = some d ↔
      ∃ s v, (.string s, v) ∈ entries t ∧ k = keyOption keywords (.string s) ∧
        ¬(nils = true ∧ (withOptions keywords nils v).isNil = true) ∧
        d = (withOptions keywords nils v).deep f := by
  rw [PunyGui.deepSlots_eq_some h.wellKeyed_filterMap, entries_filterMap]
  simp only [List.mem_filterMap, slotOption_eq_some, Prod.mk.injEq]
  constructor
  · rintro ⟨v', ⟨⟨k', v⟩, hmem, hnil, rfl, rfl⟩, rfl⟩
    obtain ⟨s, rfl⟩ : ∃ s, k' = .string s := h.2 _ hmem
    exact ⟨s, v, hmem, rfl, hnil, rfl⟩
  · rintro ⟨s, v, hmem, rfl, hnil, rfl⟩
    exact ⟨_, ⟨(.string s, v), hmem, hnil, rfl, rfl⟩, rfl⟩

open Classical in
/-- A member put in a table, seen with the options: the last one of a name counts, and
    it removes the entry of the name if it is nil. -/
theorem deepSlots_put_option (h : Plain t) (s : Bytes) {v : Janet} (hv : v ≠ .nil) :
    Janet.deepSlots f ((rt.tablePut t (.string s) v).filterMap (slotOption keywords nils)) =
      Function.update (Janet.deepSlots f (t.filterMap (slotOption keywords nils)))
        (keyOption keywords (.string s))
        (if nils = true ∧ (withOptions keywords nils v).isNil = true then none
          else some ((withOptions keywords nils v).deep f)) := by
  have hmem : ∀ s' v', (.string s', v') ∈ entries (rt.tablePut t (.string s) v) ↔
      s' = s ∧ v' = v ∨ s' ≠ s ∧ (.string s', v') ∈ entries t := by
    intro s' v'
    rw [(rt.entries_put ((isKey_string s _).2 rfl) (by simp) hv).mem_iff, List.mem_cons,
      List.mem_filter, Bool.not_eq_true', ← Bool.not_eq_true, Janet.keyEq_string, Prod.mk.injEq,
      Janet.string.injEq, and_comm (b := _ ∈ entries t)]
  funext k
  refine Option.ext fun d => ?_
  rw [(h.put s v).deepSlots_eq_some]
  -- Under the key itself only the new member counts, elsewhere only the old ones.
  by_cases hk : k = keyOption keywords (.string s)
  · subst hk
    rw [Function.update_self]
    constructor
    · rintro ⟨s', v', hput, hs, hnil, rfl⟩
      obtain rfl := keyOption_string_inj hs
      obtain ⟨-, rfl⟩ : s = s ∧ v' = v := ((hmem s v').1 hput).resolve_right fun hn => hn.1 rfl
      rw [if_neg hnil]
    · intro hd
      split_ifs at hd with hnil
      exact ⟨s, v, (hmem s v).2 (.inl ⟨rfl, rfl⟩), rfl, hnil, (Option.some.inj hd).symm⟩
  · rw [Function.update_of_ne hk, h.deepSlots_eq_some]
    refine exists_congr fun s' => exists_congr fun v' => ?_
    rw [hmem]
    refine and_congr_left fun hs => ⟨fun hput => ?_, fun hput => .inr ⟨?_, hput⟩⟩
    · rcases hput with ⟨rfl, -⟩ | ⟨-, hput⟩
      · exact absurd hs.1 hk
      · exact hput
    · rintro rfl
      exact hk hs.1

end Plain

/-! ## Texts -/

section Texts

variable {keywords nils : Bool} {f : Double → Double} {rt : Runtime}

theorem treeValue_ne_nil (t : Tree) : treeValue rt keywords false t ≠ .nil := by
  rw [Ne, treeValue_eq_nil_iff]
  simp

/-- Only `null` becomes nil. -/
theorem isNil_withOptions (t : Tree) :
    (nils = true ∧ (withOptions keywords nils (treeValue rt false false t)).isNil = true) ↔
      t = .null ∧ nils = true := by
  cases t <;> cases keywords <;> cases nils <;> simp [treeValue, withOptions, Janet.keywordKeys,
    Janet.nilNulls, Janet.isNil, nullKeyword]

theorem deepSlots_table_option :
    Janet.deepSlots f (rt.table.filterMap (slotOption keywords nils)) = fun _ => none := by
  funext k
  refine Option.eq_none_iff_forall_ne_some.2 fun d hd => ?_
  rw [plain_table.deepSlots_eq_some, rt.entries_table] at hd
  simp at hd

open Classical in
/-- A member put in a table, seen with the options. -/
theorem deepSlots_put_member_option (name : List Item) (t : Tree) {table : Slots}
    (h : Plain table) :
    Janet.deepSlots f
      ((rt.tablePut table (nameKey false name) (treeValue rt false false t)).filterMap
        (slotOption keywords nils)) =
      Function.update (Janet.deepSlots f (table.filterMap (slotOption keywords nils)))
        (nameKey keywords name) (if t = .null ∧ nils = true then none
          else some ((withOptions keywords nils (treeValue rt false false t)).deep f)) := by
  have hkey : nameKey keywords name = keyOption keywords (nameKey false name) := by
    cases keywords <;> rfl
  rw [hkey]
  refine (deepSlots_put_option h _ (treeValue_ne_nil t)).trans ?_
  simp only [isNil_withOptions]
  rfl

mutual

/-- The plain value of a text, with the options, has the content that the text has
    with the options. -/
theorem deep_withOptions : ∀ t : Tree,
    (withOptions keywords nils (treeValue rt false false t)).deep f = meaning f keywords nils t
  | .null | .true_ | .false_ | .number _ | .string _ => by cases keywords <;> cases nils <;> rfl
  | .emptyArray _ => by
    rw [treeValue, withOptions_array]
    rfl
  | .array es => by
    rw [treeValue, withOptions_array, Janet.deep, deep_withOptions_elements es, meaning]
  | .emptyObject _ => by
    rw [treeValue, withOptions_table, Janet.deep, deepSlots_table_option, meaning]
  | .object ms => by
    rw [treeValue, withOptions_table, Janet.deep, deep_withOptions_members ms plain_table,
      deepSlots_table_option, meaning]

theorem deep_withOptions_elements : ∀ es : Elements,
    Janet.deepItems f ((elementValues rt false false es).map (withOptions keywords nils)) =
      elementMeanings f keywords nils es
  | .last _ t _ _ => by
    rw [elementValues, List.map_singleton, Janet.deepItems, deep_withOptions t, Janet.deepItems,
      elementMeanings]
  | .cons _ t _ es => by
    rw [elementValues, List.map_cons, Janet.deepItems, deep_withOptions t,
      deep_withOptions_elements es, elementMeanings]

theorem deep_withOptions_members : ∀ (ms : Members) {table : Slots}, Plain table →
    Janet.deepSlots f ((memberSlots rt false false ms table).filterMap (slotOption keywords nils)) =
      memberMeanings f keywords nils ms
        (Janet.deepSlots f (table.filterMap (slotOption keywords nils)))
  | .last _ name _ _ t _ _, table, h => by
    rw [memberSlots, deepSlots_put_member_option name t h, deep_withOptions t, memberMeanings]
  | .cons _ name _ _ t _ ms, table, h => by
    have hput : Plain (rt.tablePut table (nameKey false name) (treeValue rt false false t)) :=
      h.put _ _
    rw [memberSlots, deep_withOptions_members ms hput, deepSlots_put_member_option name t h,
      deep_withOptions t, memberMeanings]

end

end Texts

/-- `json/decode` accepts the same sources with the options as without, and the
    result is the plain one with every key turned to a keyword, and every `:null` to nil. -/
theorem jsonDecode_options (rt : Runtime) (s : Bytes) (keywords nils : Bool) :
    ((∃ v, jsonDecode rt s keywords nils = .ok v) ↔ ∃ v, jsonDecode rt s false false = .ok v) ∧
      ∀ v v', jsonDecode rt s false false = .ok v → jsonDecode rt s keywords nils = .ok v' →
        v'.deep id = (withOptions keywords nils v).deep id := by
  have htree : ∀ {k n : Bool} {v : Janet}, jsonDecode rt s k n = .ok v → ∀ k' n', ∃ t,
      jsonDecode rt s k' n' = .ok (treeValue rt k' n' t) ∧ v = treeValue rt k n t := by
    intro k n v h k' n'
    obtain ⟨t, rest, ht, hh, hr, rfl⟩ := jsonDecode_iff.1 h
    exact ⟨t, jsonDecode_iff.2 ⟨t, rest, ht, hh, hr, rfl⟩, rfl⟩
  refine ⟨⟨?_, ?_⟩, fun v v' h h' => ?_⟩
  · rintro ⟨v, h⟩
    obtain ⟨t, ht, -⟩ := htree h false false
    exact ⟨_, ht⟩
  · rintro ⟨v, h⟩
    obtain ⟨t, ht, -⟩ := htree h keywords nils
    exact ⟨_, ht⟩
  · obtain ⟨t, ht, rfl⟩ := htree h keywords nils
    obtain rfl : v' = treeValue rt keywords nils t := Except.ok.inj (h'.symm.trans ht)
    rw [deep_treeValue, deep_withOptions]

end PunyGui
