import PunyGui.Circlet.Pipeline

/-!
# Well-formed requests

What a client writes: a request line, fields and a body whose length a field
announces.

* `ClientRequest`: a request, with `head` and `render` as it is written.
* `ClientRequest.HasHead`: the parts of its head do not have the bytes that end them.
* `ClientRequest.IsValid`: its body is announced, or it has none.
* `ClientRequest.message`: what is to be handed over for it.
* `mgParseHead_head`: mongoose reads of the head what was written into it.
* `httpVerdict_render`: the request is one message, as far as its framing goes.
-/

namespace PunyGui.Circlet

open Text Libc Http Framing

/-- A request as a client writes it. -/
structure ClientRequest where
  method : Bytes
  target : Bytes
  proto : Bytes
  fields : List (Bytes × Bytes)
  body : Bytes

namespace ClientRequest

variable (r : ClientRequest)

def requestLine : Bytes := r.method ++ 0x20 :: r.target ++ 0x20 :: r.proto

/-- The head, with the empty line at its end. -/
def head : Bytes := r.requestLine ++ crlf ++ (renderFields r.fields ++ crlf)

def render : Bytes := r.head ++ r.body

end ClientRequest

/-- The bytes of words, names and values. -/
def isText (c : UInt8) : Bool := isprint c || 128 ≤ c

/-- A word of the request line. -/
structure IsWord (s : Bytes) : Prop where
  ne_nil : s ≠ []
  text : ∀ c ∈ s, isText c = true
  space : 0x20 ∉ s

/-- A field that is read as it is written. -/
structure IsRequestField (field : Bytes × Bytes) : Prop where
  name : IsWord field.1
  colon : 0x3A ∉ field.1
  ne_nil : field.2 ≠ []
  text : ∀ c ∈ field.2, isText c = true
  first : ∀ c ∈ field.2.head?, c ≠ 0x3A ∧ c ≠ 0x20
  last : ∀ c ∈ field.2.getLast?, c ≠ 0x20

/-- The name starts with `Content-Length`, in any case. -/
def isLengthName (name : Bytes) : Bool := (lower contentLengthName).isPrefixOf (lower name)

/-- The length that the last field of this name announces. -/
def ClientRequest.announced (r : ClientRequest) : Option Bytes :=
  (r.fields.filter fun field => isLengthName field.1).getLast?.map Prod.snd

/-- The length of the body is announced, or there is no body and none is expected. -/
def ClientRequest.Announces (r : ClientRequest) : Prop :=
  match r.announced with
  | some value => value = decimal r.body.length
  | none => r.body = [] ∧ lower r.method ≠ lower put ∧ lower r.method ≠ lower post

/-- A request whose head is read as it is written. -/
structure ClientRequest.HasHead (r : ClientRequest) : Prop where
  method : IsWord r.method
  target : IsWord r.target
  proto : IsWord r.proto
  fields : ∀ field ∈ r.fields, IsRequestField field
  length_fields : r.fields.length ≤ maxHttpHeaders

/-- A request that mongoose can read and hand over. -/
structure ClientRequest.IsValid (r : ClientRequest) : Prop extends r.HasHead where
  announces : r.Announces
  size : r.render.length < 2 ^ 63
  /-- The body is not chunked, and no websocket is asked for. -/
  plain : ∀ field ∈ r.fields,
    lower field.1 ≠ lower transferEncoding ∧ lower field.1 ≠ lower secWebsocketKey

namespace ClientRequest

/-- The message that is handed over for a request, with the bytes that are taken for its
    body. -/
def message (r : ClientRequest) (body : Bytes) : HttpMessage where
  body
  uri := r.target.takeWhile (· != 0x3F)
  queryString := (r.target.dropWhile (· != 0x3F)).tail
  method := r.method
  proto := r.proto
  headers := r.fields

/-- The lengths of which its head tells. -/
def lengths (r : ClientRequest) : Lengths :=
  let ls := r.announced.elim ⟨sizeMax, sizeMax⟩ fun value =>
    ⟨toSize (to64 value), toSize (r.head.length + toSize (to64 value))⟩
  if ls.body = sizeMax ∧ !mgVcasecmp r.method put ∧ !mgVcasecmp r.method post then
    ⟨0, r.head.length⟩
  else ls

/-- What mongoose reads of a request. -/
def parsed (r : ClientRequest) : ParsedMessage where
  lengths := r.lengths
  method := r.method
  uri := r.target.takeWhile (· != 0x3F)
  queryString := (r.target.dropWhile (· != 0x3F)).tail
  proto := r.proto
  headers := r.fields

theorem request_parsed (r : ClientRequest) (body : Bytes) :
    r.parsed.request body = r.message body := rfl

end ClientRequest

/-! ## The end of the head -/

variable {c : UInt8} {s t : Bytes}

theorem isHeadByte_of_isText (h : isText c = true) : isHeadByte c = true := by
  simp only [isText, isHeadByte, Bool.or_eq_true] at h ⊢
  tauto

theorem ne_of_isText (h : isText c = true) : c ≠ 0x0A ∧ c ≠ 0x0D ∧ c ≠ 0 := by
  refine ⟨?_, ?_, ?_⟩ <;> rintro rfl <;> exact absurd h (by decide)

theorem isspace_eq_false (h : isText c = true) (hc : c ≠ 0x20) : isspace c = false := by
  have hall : ∀ c, isText c = true → c ≠ 0x20 → isspace c = false :=
    forall_byte (by decide +kernel)
  exact hall c h hc

theorem isWord_of_all {s : Bytes} (hne : s ≠ [])
    (h : s.all (fun c => isText c && c != 0x20) = true) : IsWord s := by
  have hall := fun c hc => Bool.and_eq_true_iff.1 (List.all_eq_true.1 h c hc)
  exact ⟨hne, fun c hc => (hall c hc).1, fun hmem => absurd (hall _ hmem).2 (by decide)⟩

theorem mgHttpGetRequestLen_text (h : ∀ c ∈ s, isText c = true) (t : Bytes) :
    mgHttpGetRequestLen (s ++ t) = (mgHttpGetRequestLen t).map (· + s.length) := by
  induction s with
  | nil =>
    rw [List.nil_append]
    cases mgHttpGetRequestLen t <;> rfl
  | cons c s ih =>
    have hc := h c List.mem_cons_self
    have hlf := (ne_of_isText hc).1
    rw [List.cons_append, mgHttpGetRequestLen, if_neg (by simp [isHeadByte_of_isText hc]),
      if_neg (fun hh => hlf hh.1), if_neg (fun hh => hlf hh.1),
      ih fun c hc => h c (List.mem_cons_of_mem _ hc)]
    cases mgHttpGetRequestLen t with
    | invalid => rfl
    | unfinished => rfl
    | parsed n => simp [Reading.map, Nat.add_assoc]

/-- A line that is not the last one. -/
theorem mgHttpGetRequestLen_crlf (h : ∃ c ∈ t.head?, isText c = true) :
    mgHttpGetRequestLen (crlf ++ t) = (mgHttpGetRequestLen t).map (· + 2) := by
  obtain ⟨c, hc, htext⟩ := h
  obtain ⟨t, rfl⟩ := List.head?_eq_some_iff.1 hc
  obtain ⟨hlf, hcr, -⟩ := ne_of_isText htext
  have hstep : mgHttpGetRequestLen (0x0A :: c :: t) =
      (mgHttpGetRequestLen (c :: t)).map (· + 1) := by
    rw [mgHttpGetRequestLen.eq_2 0x0A, if_neg (by decide), if_neg (by simpa using hlf),
      if_neg (by simp [crlf, hcr])]
  have hcrlf : mgHttpGetRequestLen (crlf ++ c :: t) =
      (mgHttpGetRequestLen (0x0A :: c :: t)).map (· + 1) := rfl
  rw [hcrlf, hstep]
  cases mgHttpGetRequestLen (c :: t) <;> rfl

theorem mgHttpGetRequestLen_end (t : Bytes) :
    mgHttpGetRequestLen (crlf ++ (crlf ++ t)) = .parsed 4 := rfl

/-- Lines that are not empty are a head, with the empty line after them. -/
theorem mgHttpGetRequestLen_lines {lines : List Bytes}
    (h : ∀ line ∈ lines, line ≠ [] ∧ ∀ c ∈ line, isText c = true) (hne : lines ≠ []) (t : Bytes) :
    mgHttpGetRequestLen (lines.flatMap (· ++ crlf) ++ (crlf ++ t)) =
      .parsed (lines.flatMap (· ++ crlf) ++ crlf).length := by
  have hcrlf : crlf.length = 2 := rfl
  induction lines with
  | nil => exact absurd rfl hne
  | cons line lines ih =>
    have hlines := fun l hl => h l (List.mem_cons_of_mem line hl)
    rw [List.flatMap_cons, List.append_assoc, List.append_assoc,
      mgHttpGetRequestLen_text (h line List.mem_cons_self).2]
    cases hnil : lines with
    | nil =>
      rw [List.flatMap_nil, List.nil_append, mgHttpGetRequestLen_end]
      simp only [Reading.map, List.length_append, hcrlf, List.length_nil]
      congr 1
      omega
    | cons line' lines' =>
      have hhead : ∃ c ∈ (lines.flatMap (· ++ crlf) ++ (crlf ++ t)).head?, isText c = true := by
        have hline' := hlines line' (hnil ▸ List.mem_cons_self)
        obtain ⟨c, s, hs⟩ := List.exists_cons_of_ne_nil hline'.1
        refine ⟨c, ?_, hline'.2 c (hs ▸ List.mem_cons_self)⟩
        rw [hnil, hs]
        rfl
      have hne' : lines ≠ [] := by rw [hnil]; exact List.cons_ne_nil _ _
      rw [← hnil, mgHttpGetRequestLen_crlf hhead, ih hlines hne']
      simp only [Reading.map, List.length_append, hcrlf]
      congr 1
      omega

namespace ClientRequest

variable {r : ClientRequest}

/-- The lines of a request. -/
def lines (r : ClientRequest) : List Bytes := r.requestLine :: r.fields.map fieldLine

theorem head_eq_lines : r.head = r.lines.flatMap (· ++ crlf) ++ crlf := by
  rw [head, lines, List.flatMap_cons, renderFields, List.flatMap_map, List.append_assoc _ _ crlf]

theorem isText_lines (h : r.HasHead) :
    ∀ line ∈ r.lines, line ≠ [] ∧ ∀ c ∈ line, isText c = true := by
  intro line hline
  rcases List.mem_cons.1 hline with rfl | hline
  · refine ⟨by simp [requestLine], fun c hc => ?_⟩
    simp only [requestLine, List.append_assoc, List.cons_append, List.mem_append,
      List.mem_cons] at hc
    rcases hc with hc | rfl | hc | rfl | hc
    · exact h.method.text c hc
    · rfl
    · exact h.target.text c hc
    · rfl
    · exact h.proto.text c hc
  · obtain ⟨field, hfield, rfl⟩ := List.mem_map.1 hline
    have hf := h.fields field hfield
    refine ⟨by simp [fieldLine], fun c hc => ?_⟩
    simp only [fieldLine, List.mem_append, List.mem_cons] at hc
    rcases hc with hc | rfl | rfl | hc
    · exact hf.name.text c hc
    · rfl
    · rfl
    · exact hf.text c hc

/-- The head ends where the first empty line does. -/
theorem isHead_head (h : r.HasHead) : IsHead r.head := by
  have hlen := mgHttpGetRequestLen_lines (isText_lines h) (List.cons_ne_nil _ _) []
  rw [List.append_nil] at hlen
  rw [IsHead, head_eq_lines, hlen]

end ClientRequest

/-! ## The words and the fields -/

/-- A scan takes the bytes before the delimiters, and all delimiters. -/
theorem mgSkip_append {delims word sep rest : Bytes} (hword : ∀ c ∈ word, isDelim delims c = false)
    (hsep : sep.all (isDelim delims) = true) (hne : sep ≠ [])
    (hrest : Stops (isDelim delims) rest) :
    mgSkip delims (word ++ (sep ++ rest)) = (word, rest) := by
  have hword' : ∀ c ∈ word, (!isDelim delims c) = true := fun c hc => by rw [hword c hc]; rfl
  have hstop : Stops (!isDelim delims ·) (sep ++ rest) := by
    obtain ⟨c, s, rfl⟩ := List.exists_cons_of_ne_nil hne
    exact stops_cons.2 (by rw [List.all_eq_true.1 hsep c List.mem_cons_self]; rfl)
  rw [mgSkip, takeWhile_append_all hword' hstop, dropWhile_append_all hword' hstop,
    dropWhile_append_all (List.all_eq_true.1 hsep) hrest]

theorem isDelim_eq_false (hc : c ≠ 0) {delims : Bytes} (h : c ∉ delims) :
    isDelim delims c = false := by
  simp [isDelim, hc, h]

theorem mgNcasecmp_eq {u : Bytes} (h : 0 ∉ u) (s : Bytes) :
    mgNcasecmp s u u.length = (lower u).isPrefixOf (lower s) := by
  induction u generalizing s with
  | nil => cases s <;> rfl
  | cons c u ih =>
    rw [List.mem_cons, not_or] at h
    cases s with
    | nil => rfl
    | cons d s =>
      have hrec := ih h.2 s
      have hzero : tolower d = tolower c → d ≠ 0 := by
        rintro heq rfl
        have hc : ∀ c, tolower c = 0 → c = 0 := forall_byte (by decide +kernel)
        exact h.1 (hc c heq.symm).symm
      rw [List.length_cons, mgNcasecmp, hrec]
      simp only [lower, List.map_cons, List.isPrefixOf]
      by_cases heq : tolower d = tolower c
      · simp [heq, hzero heq]
      · rw [beq_eq_false_iff_ne.2 heq, beq_eq_false_iff_ne.2 (Ne.symm heq)]
        rfl

/-- A byte that is not in the prefix ends the part in which it can be. -/
theorem isPrefixOf_append_cons {u : Bytes} (h : c ∉ u) (l t : Bytes) :
    u.isPrefixOf (l ++ c :: t) = u.isPrefixOf l := by
  induction u generalizing l with
  | nil => cases l <;> rfl
  | cons d u ih =>
    rw [List.mem_cons, not_or] at h
    cases l with
    | nil => simp [List.isPrefixOf, Ne.symm h.1]
    | cons e l => simp [List.isPrefixOf, ih h.2]

/-- The name of a field is compared as far as its colon. -/
theorem mgNcasecmp_field (name rest : Bytes) :
    mgNcasecmp (name ++ 0x3A :: rest) contentLengthName 14 = isLengthName name := by
  have hlen : 14 = contentLengthName.length := rfl
  have hcolon : tolower 0x3A ∉ lower contentLengthName := by decide
  have hlower : lower (name ++ 0x3A :: rest) = lower name ++ tolower 0x3A :: lower rest :=
    List.map_append
  rw [hlen, mgNcasecmp_eq (by decide), hlower, isPrefixOf_append_cons hcolon]
  rfl

/-- What is left after a field: of the last one, `mg_skip` takes the empty line as well. -/
def restFields (fields : List (Bytes × Bytes)) : Bytes :=
  if fields = [] then [] else renderFields fields ++ crlf

/-- The lengths after a field. -/
def announce (len : ℕ) (ls : Lengths) (field : Bytes × Bytes) : Lengths :=
  if isLengthName field.1 then
    ⟨toSize (to64 field.2), toSize (len + toSize (to64 field.2))⟩
  else ls

/-- The end of a line, before what is left. -/
theorem crlf_renderFields (fields : List (Bytes × Bytes)) : ∃ sep : Bytes,
    crlf ++ (renderFields fields ++ crlf) = sep ++ restFields fields ∧ sep ≠ [] ∧ sep ⊆ crlf := by
  have hsub := List.Subset.refl crlf
  rw [restFields]
  split_ifs with h
  · exact ⟨crlf ++ crlf, by rw [h]; rfl, List.cons_ne_nil _ _, List.append_subset.2 ⟨hsub, hsub⟩⟩
  · exact ⟨crlf, rfl, List.cons_ne_nil _ _, hsub⟩

theorem stops_restFields {fields : List (Bytes × Bytes)}
    (h : ∀ field ∈ fields, IsRequestField field) (delims : Bytes)
    (hdelims : delims.any isText = false) : Stops (isDelim delims) (restFields fields) := by
  rw [restFields]
  cases fields with
  | nil => exact stops_nil
  | cons field fields =>
    have hf := (h field List.mem_cons_self).name
    obtain ⟨c, s, hs⟩ := List.exists_cons_of_ne_nil hf.ne_nil
    have hc := hf.text c (hs ▸ List.mem_cons_self)
    have hmem : c ∉ delims := fun hmem => List.any_eq_false.1 hdelims c hmem hc
    rw [if_neg (List.cons_ne_nil _ _), renderFields, List.flatMap_cons, fieldLine, hs]
    exact stops_cons.2 (isDelim_eq_false (ne_of_isText hc).2.2 hmem)

/-- The fields are read one by one. -/
theorem mgHttpParseHeaders_restFields (len : ℕ) {fields : List (Bytes × Bytes)}
    (h : ∀ field ∈ fields, IsRequestField field) {n i : ℕ} (hn : fields.length < n)
    (hi : fields.length ≤ i) (ls : Lengths) :
    mgHttpParseHeaders len n i (restFields fields) ls =
      (fields, fields.foldl (announce len) ls) := by
  induction fields generalizing n i ls with
  | nil =>
    obtain ⟨n, rfl⟩ : ∃ n', n = n' + 1 := ⟨n - 1, by omega⟩
    cases i <;> rfl
  | cons field fields ih =>
    obtain ⟨n, rfl⟩ : ∃ n', n = n' + 1 := ⟨n - 1, by omega⟩
    obtain ⟨i, rfl⟩ : ∃ i', i = i' + 1 := ⟨i - 1, by simp only [List.length_cons] at hi; omega⟩
    have hf := h field List.mem_cons_self
    have hfields := fun f hf => h f (List.mem_cons_of_mem field hf)
    obtain ⟨sep, hsep, hne, hcr⟩ := crlf_renderFields fields
    have hs : restFields (field :: fields) =
        field.1 ++ ([0x3A, 0x20] ++ (field.2 ++ (sep ++ restFields fields))) := by
      rw [← hsep]
      simp [restFields, renderFields, fieldLine]
    have hk : mgSkip (ascii [':', ' ']) (restFields (field :: fields)) =
        (field.1, field.2 ++ (sep ++ restFields fields)) := by
      rw [hs]
      refine mgSkip_append (fun c hc => ?_) (by decide) (List.cons_ne_nil _ _) ?_
      · refine isDelim_eq_false (ne_of_isText (hf.name.text c hc)).2.2 fun hmem => ?_
        rcases List.mem_pair.1 hmem with rfl | rfl
        · exact hf.colon hc
        · exact hf.name.space hc
      · obtain ⟨c, s, hcs⟩ := List.exists_cons_of_ne_nil hf.ne_nil
        have hc := ne_of_isText (hf.text c (hcs ▸ List.mem_cons_self))
        have hfirst := hf.first c (by rw [hcs]; rfl)
        rw [hcs]
        exact stops_cons.2 (isDelim_eq_false hc.2.2 fun hmem =>
          (List.mem_pair.1 hmem).elim hfirst.1 hfirst.2)
    have hv : mgSkip crlf (field.2 ++ (sep ++ restFields fields)) =
        (field.2, restFields fields) := by
      refine mgSkip_append (fun c hc => ?_) (List.all_eq_true.2 fun c hc => ?_) hne
        (stops_restFields hfields crlf (by decide))
      · have htext := ne_of_isText (hf.text c hc)
        exact isDelim_eq_false htext.2.2 fun hmem =>
          (List.mem_pair.1 hmem).elim htext.2.1 htext.1
      · rcases List.mem_pair.1 (hcr hc) with rfl | rfl <;> rfl
    have hdrop : field.2.rdropWhile (· == 0x20) = field.2 := by
      refine List.rdropWhile_eq_self_iff.2 fun hv => ?_
      have hlast := hf.last _ (List.getLast?_eq_some_getLast hv)
      simpa using hlast
    have hspace : Stops isspace field.2 := by
      obtain ⟨c, s, hcs⟩ := List.exists_cons_of_ne_nil hf.ne_nil
      rw [hcs]
      exact stops_cons.2 (isspace_eq_false (hf.text c (hcs ▸ List.mem_cons_self))
        (hf.first c (by rw [hcs]; rfl)).2)
    have hdigit : Stops isdigit (sep ++ restFields fields) := by
      obtain ⟨c, s, rfl⟩ := List.exists_cons_of_ne_nil hne
      refine stops_cons.2 ?_
      rcases List.mem_pair.1 (hcr List.mem_cons_self) with rfl | rfl <;> rfl
    have hname : mgNcasecmp (restFields (field :: fields)) contentLengthName 14 =
        isLengthName field.1 := by
      rw [hs]
      exact mgNcasecmp_field field.1 _
    rw [mgHttpParseHeaders]
    simp only [hk, hv, hdrop]
    rw [if_neg (fun hh => hf.ne_nil hh.2), if_neg (by simp [hf.name.ne_nil, hf.ne_nil]), hname,
      to64, strtoll_append hf.ne_nil hspace hdigit,
      ih hfields (Nat.lt_of_succ_lt_succ hn) (Nat.le_of_succ_le_succ hi)]
    rfl

/-! ## The lengths -/

theorem toSize_of_lt {n : ℕ} (h : n < 2 ^ 64) : toSize n = n := by
  rw [toSize, Int.emod_eq_of_lt (Int.natCast_nonneg n) (by exact_mod_cast h), Int.toNat_natCast]

/-- The last field that announces a length counts. -/
theorem foldl_announce (len : ℕ) (fields : List (Bytes × Bytes)) (ls : Lengths) :
    fields.foldl (announce len) ls =
      ((fields.filter fun field => isLengthName field.1).getLast?.map Prod.snd).elim ls
        fun value => ⟨toSize (to64 value), toSize (len + toSize (to64 value))⟩ := by
  induction fields using List.reverseRecOn with
  | nil => rfl
  | append_singleton fields field ih =>
    rw [List.foldl_append, ih, List.filter_append, List.foldl_cons, List.foldl_nil, announce]
    by_cases hname : isLengthName field.1
    · simp [hname]
    · simp [hname]

namespace ClientRequest

variable {r : ClientRequest}

/-- What is read of the request line. -/
theorem mgSkip_requestLine (h : r.HasHead) :
    r.head.dropWhile isspace = r.head ∧
      ∃ s₁ s₂, mgSkip [0x20] r.head = (r.method, s₁) ∧ mgSkip [0x20] s₁ = (r.target, s₂) ∧
        mgSkip crlf s₂ = (r.proto, restFields r.fields) ∧ s₁.length < r.head.length ∧
          s₂.length < s₁.length := by
  obtain ⟨sep, hsep, hne, hcr⟩ := crlf_renderFields r.fields
  have hhead : r.head = r.method ++ ([0x20] ++ (r.target ++ ([0x20] ++ (r.proto ++
      (sep ++ restFields r.fields))))) := by
    rw [← hsep]
    simp [head, requestLine]
  have hword {s : Bytes} (hs : IsWord s) : ∀ c ∈ s, isDelim [0x20] c = false := fun c hc =>
    isDelim_eq_false (ne_of_isText (hs.text c hc)).2.2 fun hmem =>
      hs.space (List.mem_singleton.1 hmem ▸ hc)
  have hstops {s : Bytes} (hs : IsWord s) (t : Bytes) : Stops (isDelim [0x20]) (s ++ t) := by
    obtain ⟨c, s', rfl⟩ := List.exists_cons_of_ne_nil hs.ne_nil
    exact stops_cons.2 (hword hs c List.mem_cons_self)
  refine ⟨?_, r.target ++ ([0x20] ++ (r.proto ++ (sep ++ restFields r.fields))),
    r.proto ++ (sep ++ restFields r.fields), ?_, ?_, ?_, ?_, ?_⟩
  · obtain ⟨c, s, hcs⟩ := List.exists_cons_of_ne_nil h.method.ne_nil
    have hc : isspace c = false :=
      isspace_eq_false (h.method.text c (hcs ▸ List.mem_cons_self)) fun heq =>
        h.method.space (heq ▸ hcs ▸ List.mem_cons_self)
    rw [hhead, hcs]
    exact (stops_cons.2 hc).dropWhile
  · rw [hhead]
    exact mgSkip_append (hword h.method) (by decide) (List.cons_ne_nil _ _) (hstops h.target _)
  · exact mgSkip_append (hword h.target) (by decide) (List.cons_ne_nil _ _) (hstops h.proto _)
  · refine mgSkip_append (fun c hc => ?_) (List.all_eq_true.2 fun c hc => ?_) hne
      (stops_restFields h.fields crlf (by decide))
    · have htext := ne_of_isText (h.proto.text c hc)
      exact isDelim_eq_false htext.2.2 fun hmem =>
        (List.mem_pair.1 hmem).elim htext.2.1 htext.1
    · rcases List.mem_pair.1 (hcr hc) with rfl | rfl <;> rfl
  · have hpos := List.length_pos_iff.2 h.method.ne_nil
    rw [hhead]
    simp only [List.length_append]
    omega
  · have hpos := List.length_pos_iff.2 h.target.ne_nil
    simp only [List.length_append]
    omega

theorem mgVcasecmp_iff {s t : Bytes} (ht : 0 ∉ t) :
    mgVcasecmp s t = true ↔ lower s = lower t := by
  have hlen (u : Bytes) : (lower u).length = u.length := List.length_map _
  rw [mgVcasecmp, Bool.and_eq_true, beq_iff_eq]
  constructor
  · rintro ⟨hcmp, heq⟩
    rw [heq, min_self, mgNcasecmp_eq ht, List.isPrefixOf_iff_prefix] at hcmp
    exact (hcmp.eq_of_length (by rw [hlen, hlen, heq])).symm
  · intro heq
    have hst : s.length = t.length := by rw [← hlen s, heq, hlen]
    rw [hst, min_self, mgNcasecmp_eq ht, heq, List.isPrefixOf_iff_prefix]
    exact ⟨List.prefix_refl _, rfl⟩

theorem length_lt_restFields (fields : List (Bytes × Bytes)) :
    fields.length < (restFields fields).length + 1 := by
  have hle := length_le_renderFields fields
  rw [restFields]
  split_ifs with h
  · rw [h]
    exact Nat.zero_lt_one
  · rw [List.length_append]
    omega

/-- Mongoose reads of a head what was written into it. -/
theorem mgParseHead_head (h : r.HasHead) : mgParseHead r.head = some r.parsed := by
  obtain ⟨hspace, s₁, s₂, h₁, h₂, h₃, hlt₁, hlt₂⟩ := mgSkip_requestLine h
  have hfields := mgHttpParseHeaders_restFields r.head.length h.fields
    (length_lt_restFields r.fields) h.length_fields ⟨sizeMax, sizeMax⟩
  simp only [mgParseHead, hspace, h₁, h₂, h₃, hfields]
  rw [if_neg (by omega), foldl_announce]
  rfl

/-- A head tells of the body that is written after it. -/
theorem lengths_eq (h : r.IsValid) : r.lengths = ⟨r.body.length, r.render.length⟩ := by
  have hsize := h.size
  have hhead := two_le_of_parsed (isHead_head h.toHasHead)
  rw [render, List.length_append] at hsize ⊢
  rw [lengths]
  have hannounces := h.announces
  rw [Announces] at hannounces
  cases hann : r.announced with
  | some value =>
    rw [hann] at hannounces
    obtain rfl : value = decimal r.body.length := hannounces
    have hbody : toSize r.body.length = r.body.length := toSize_of_lt (by omega)
    have hmessage : toSize (r.head.length + r.body.length : ℕ) =
      r.head.length + r.body.length := toSize_of_lt (by omega)
    have hannounced : to64 (decimal r.body.length) = r.body.length := strtoll_decimal (by omega)
    push_cast at hmessage
    simp only [Option.elim_some, hannounced, hbody, hmessage]
    rw [if_neg]
    rintro ⟨hmax, -⟩
    rw [hmax, sizeMax] at hsize
    omega
  | none =>
    rw [hann] at hannounces
    obtain ⟨hbody, hput, hpost⟩ : r.body = [] ∧ lower r.method ≠ lower put ∧
      lower r.method ≠ lower post := hannounces
    have hput' : mgVcasecmp r.method put = false :=
      Bool.eq_false_iff.2 fun hh => hput ((mgVcasecmp_iff (by decide)).1 hh)
    have hpost' : mgVcasecmp r.method post = false :=
      Bool.eq_false_iff.2 fun hh => hpost ((mgVcasecmp_iff (by decide)).1 hh)
    simp [hput', hpost', hbody]

/-- A request is read as soon as its head is there. -/
theorem mgParseHttp_head (h : r.HasHead) (t : Bytes) :
    mgParseHttp (r.head ++ t) = .parsed (r.head.length, r.parsed) := by
  refine mgParseHttp_eq_parsed.2 ⟨(isHead_head h).append t, ?_⟩
  rw [List.take_left]
  exact mgParseHead_head h

/-- The first field of a name is found, whatever the case of its letters. -/
theorem mgGetHttpHeader_parsed (h : r.HasHead) {name : Bytes} (hname : 0 ∉ name) :
    mgGetHttpHeader r.parsed name =
      (r.fields.find? fun field => lower field.1 == lower name).map Prod.snd := by
  have hall : r.fields.takeWhile (fun field => !field.1.isEmpty) = r.fields :=
    List.takeWhile_eq_self_iff.2 fun field hfield => by simp [(h.fields field hfield).name.ne_nil]
  have hcmp (field : Bytes × Bytes) :
      (field.1.length == name.length && mgNcasecmp field.1 name name.length) =
        (lower field.1 == lower name) := by
    rw [Bool.eq_iff_iff, beq_iff_eq, ← mgVcasecmp_iff hname, mgVcasecmp, Bool.and_eq_true,
      Bool.and_eq_true, and_comm, beq_iff_eq]
    exact and_congr_left fun hlen => by rw [hlen, min_self]
  simp only [mgGetHttpHeader, parsed, hall, hcmp]

theorem isHandshake_parsed (h : r.HasHead)
    (hws : ∀ field ∈ r.fields, lower field.1 ≠ lower secWebsocketKey) :
    r.parsed.isHandshake = false := by
  rw [ParsedMessage.isHandshake, mgGetHttpHeader_parsed h (by decide),
    List.find?_eq_none.2 fun field hfield => by simpa using hws field hfield]
  rfl

theorem isPlain_parsed (h : r.IsValid) : r.parsed.isPlain r.head.length = true := by
  have hte : r.parsed.isChunked = false := by
    rw [ParsedMessage.isChunked, mgGetHttpHeader_parsed h.toHasHead (by decide),
      List.find?_eq_none.2 fun field hfield => by simpa using (h.plain field hfield).1]
    rfl
  have hws := isHandshake_parsed h.toHasHead fun field hfield => (h.plain field hfield).2
  refine ParsedMessage.isPlain_iff.2 ⟨hte, hws, ?_⟩
  rw [parsed, lengths_eq h]
  exact (List.prefix_append r.head r.body).length_le

/-- A request is one message, as far as its framing goes. -/
theorem httpVerdict_render (h : r.IsValid) : httpVerdict r.render = .done r.render.length :=
  httpVerdict_done.2 ⟨_, _, mgParseHttp_head h.toHasHead r.body, isPlain_parsed h,
    by rw [parsed, lengths_eq h], le_rfl⟩

end ClientRequest

end PunyGui.Circlet
