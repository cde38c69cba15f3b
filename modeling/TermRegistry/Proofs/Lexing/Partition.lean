import TermRegistry.Proofs.Lexing.Place

/-!
# Lexing as a partition

Which characters stand between quotes is said by an automaton that goes over a text once. With it
the lexical faults of a text are its own: a `-` outside quotes that no `>` follows, and an opening
quote that none closes. `tokenize_partition` says that the tokens of a text stop at the first such
fault, and that a text without one is partitioned into its slices.

**Arrows.** The `>` is a bare character, and words may begin with it. Behind a `-`, though, it is
the rest of an arrow. So a bare word goes as far as there are bare characters on both sides, except
that it does not reach back into an arrow in front of it (`Slice.IsRun`).
-/

namespace TermRegistry

/-! ### Quotes -/

/-- How a character stands to the quotes in front of it. -/
inductive Quoting
  | outside
  | inside
  /-- Between quotes, behind a backslash that escapes what follows. -/
  | escaped
deriving DecidableEq

namespace Quoting

/-- How the next character stands to the quotes. -/
def next : Quoting → Char → Quoting
  | outside, c => if c = '"' then inside else outside
  | inside, c => if c = '"' then outside else if c = '\\' then escaped else inside
  | escaped, _ => inside

/-- How the character behind some others stands to the quotes. -/
def after (q : Quoting) (cs : List Char) : Quoting := cs.foldl next q

@[simp] theorem after_nil (q : Quoting) : q.after [] = q := rfl

@[simp] theorem after_cons (q : Quoting) (c : Char) (cs : List Char) :
    q.after (c :: cs) = (q.next c).after cs := rfl

theorem after_append (q : Quoting) (cs ds : List Char) :
    q.after (cs ++ ds) = (q.after cs).after ds :=
  List.foldl_append

/-- Without a quote nothing gets between quotes. -/
theorem after_outside {cs : List Char} (h : '"' ∉ cs) : outside.after cs = outside := by
  induction cs with
  | nil => rfl
  | cons c cs ih =>
    have hc : c ≠ '"' := fun hc ↦ h (hc ▸ List.mem_cons_self)
    rw [after_cons, next, if_neg hc, ih fun hcs ↦ h (List.mem_cons_of_mem c hcs)]

/-- An escaped character does not get outside the quotes. -/
theorem after_escaped_ne_outside {c : Char} {cs us : List Char}
    (h : ∀ vs, vs <+: cs → inside.after vs ≠ outside) (hus : us <+: '\\' :: c :: cs) :
    inside.after us ≠ outside := by
  rcases List.prefix_cons_iff.1 hus with rfl | ⟨vs, rfl, hvs⟩
  · nofun
  rcases List.prefix_cons_iff.1 hvs with rfl | ⟨ws, rfl, hws⟩
  · nofun
  · exact h ws hws

end Quoting

namespace Text.Decodes

variable {cs ds : List Char}

/-- What can be decoded stays between the quotes. -/
theorem after_inside (h : Decodes cs ds) : Quoting.inside.after cs = .inside := by
  induction h with
  | nil => rfl
  | plain hquote hescape _ ih =>
    rw [Quoting.after_cons, Quoting.next, if_neg hquote, if_neg hescape, ih]
  | newline _ ih => exact ih
  | tab _ ih => exact ih
  | escaped _ _ _ ih => exact ih

/-- No part of what can be decoded gets outside the quotes. -/
theorem after_ne_outside (h : Decodes cs ds) {us : List Char} (hus : us <+: cs) :
    Quoting.inside.after us ≠ .outside := by
  induction h generalizing us with
  | nil =>
    rw [List.prefix_nil.1 hus]
    nofun
  | plain hquote hescape _ ih =>
    rcases List.prefix_cons_iff.1 hus with rfl | ⟨vs, rfl, hvs⟩
    · nofun
    · rw [Quoting.after_cons, Quoting.next, if_neg hquote, if_neg hescape]
      exact ih hvs
  | newline _ ih => exact Quoting.after_escaped_ne_outside (fun _ ↦ ih) hus
  | tab _ ih => exact Quoting.after_escaped_ne_outside (fun _ ↦ ih) hus
  | escaped _ _ _ ih => exact Quoting.after_escaped_ne_outside (fun _ ↦ ih) hus

end Text.Decodes

/-- Where no quote closes, every quote is escaped. -/
theorem Text.after_ne_inside {cs us vs : List Char} (h : closeQuote cs = none)
    (hcs : cs = us ++ '"' :: vs) : Quoting.inside.after us ≠ .inside := by
  -- By the scan for the closing quote, with the state of quoting beside it. The scan passes a
  -- backslash and what is behind it at once, hence the two characters that are taken off there.
  fun_induction closeQuote cs generalizing us with
  | case1 => simp at hcs
  | case2 => cases h
  | case3 c cs ih =>
    have hnone := Option.map_eq_none_iff.1 h
    cases us with
    | nil => cases hcs
    | cons d us =>
      obtain ⟨rfl, htail⟩ := List.cons_eq_cons.1 hcs
      cases us with
      | nil => decide
      | cons e us =>
        obtain ⟨rfl, hrest⟩ := List.cons_eq_cons.1 htail
        show Quoting.inside.after us ≠ .inside
        exact ih hnone hrest
  | case4 c cs hquote hescape ih =>
    have hnone := Option.map_eq_none_iff.1 h
    cases us with
    | nil =>
      cases hcs
      exact absurd rfl hquote
    | cons d us =>
      obtain ⟨rfl, htail⟩ := List.cons_eq_cons.1 hcs
      have hc : c ≠ '\\' := by
        rintro rfl
        cases cs with
        | nil => simp at htail
        | cons d ds => exact hescape d ds rfl rfl
      rw [Quoting.after_cons, Quoting.next, if_neg hquote, if_neg hc]
      exact ih hnone htail

/-! ### Lexical faults -/

/-- **The lexical faults of a text**, between what is in front of them and the rest: a `-` outside
quotes that no `>` follows, and an opening quote behind which every quote is escaped. -/
inductive Faulty (before : List Char) : List Char → LexicalFault → Prop
  | dash {rest : List Char} (houtside : Quoting.outside.after before = .outside)
      (h : ∀ ds, rest ≠ '>' :: ds) : Faulty before ('-' :: rest) .danglingDash
  | quote {rest : List Char} (houtside : Quoting.outside.after before = .outside)
      (h : ∀ us vs, rest = us ++ '"' :: vs → Quoting.inside.after us ≠ .inside) :
      Faulty before ('"' :: rest) .unclosedQuote

/-- **The first lexical fault of a text.** -/
structure FirstFault (cs before rest : List Char) (fault : LexicalFault) : Prop where
  eq_append : cs = before ++ rest
  faulty : Faulty before rest fault
  first : ∀ us vs other, cs = us ++ vs → Faulty us vs other → before.length ≤ us.length

/-- Outside quotes, the slices of a text stop with a fault where the text has one. -/
theorem stops_iff_faulty {before rest : List Char} {fault : LexicalFault}
    (h : Quoting.outside.after before = .outside) :
    Stops (some fault) rest ↔ Faulty before rest fault := by
  constructor
  · rintro (_ | hdash | hquote)
    · exact .dash h hdash
    · refine .quote h fun us vs hrest ↦ Text.after_ne_inside ?_ hrest
      refine Option.eq_none_iff_forall_ne_some.2 fun split hsplit ↦ ?_
      exact hquote split.1 _ split.2 (Text.decodes_of_closeQuote hsplit)
        (Text.eq_append_of_closeQuote hsplit)
  · rintro (⟨-, hdash⟩ | ⟨-, hquote⟩)
    · exact .dash hdash
    · exact .quote fun body ds rest' hbody hrest ↦ hquote body rest' hrest hbody.after_inside

/-- A fault is at a dash or a quote. -/
theorem Faulty.exists_first {before rest : List Char} {fault : LexicalFault}
    (h : Faulty before rest fault) : ∃ c cs, rest = c :: cs ∧ (c = '-' ∨ c = '"') := by
  cases h with
  | dash => exact ⟨'-', _, rfl, .inl rfl⟩
  | quote => exact ⟨'"', _, rfl, .inr rfl⟩

theorem Faulty.outside {before rest : List Char} {fault : LexicalFault}
    (h : Faulty before rest fault) : Quoting.outside.after before = .outside := by
  cases h <;> assumption

/-! ### Slices and faults -/

/-- There is no fault in an arrow. -/
theorem not_faulty_arrow {before us ws rest : List Char} {c : Char} {fault : LexicalFault}
    (h : us ++ c :: ws = ['-', '>']) : ¬Faulty (before ++ us) (c :: ws ++ rest) fault := by
  intro hfaulty
  cases us with
  | nil =>
    cases h
    cases hfaulty with
    | dash _ h => exact h _ rfl
  | cons d us =>
    -- The `>` is neither a dash nor a quote.
    obtain ⟨rfl, htail⟩ := List.cons_eq_cons.1 h
    have hlast : c ∈ ['>'] := htail ▸ List.mem_append_right us List.mem_cons_self
    rw [List.mem_singleton.1 hlast] at hfaulty
    cases hfaulty

/-- There is no fault in a quoted word. -/
theorem Text.Decodes.not_faulty {body ds before us ws rest : List Char} {c : Char}
    {fault : LexicalFault} (hbody : Decodes body ds)
    (hbefore : Quoting.outside.after before = .outside)
    (h : us ++ c :: ws = '"' :: (body ++ ['"'])) :
    ¬Faulty (before ++ us) (c :: ws ++ rest) fault := by
  intro hfaulty
  cases us with
  | nil =>
    cases h
    cases hfaulty with
    | quote _ hopen =>
      exact hopen body rest (List.append_assoc body ['"'] rest) hbody.after_inside
  | cons d us =>
    obtain ⟨rfl, htail⟩ := List.cons_eq_cons.1 h
    replace htail : us ++ c :: ws = body ++ ['"'] := htail
    have hlength := congrArg List.length htail
    rw [List.length_append, List.length_append, List.length_cons, List.length_singleton] at hlength
    have hus : us <+: body :=
      List.prefix_of_prefix_length_le ⟨_, htail⟩ (List.prefix_append _ _) (by omega)
    have houtside := hfaulty.outside
    rw [Quoting.after_append, hbefore] at houtside
    exact hbody.after_ne_outside hus houtside

namespace Slice.Spelled

variable {s : Slice}

/-- Dashes and quotes are in arrows and quoted words alone. -/
theorem eq_of_mem (h : s.Spelled) {c : Char} (hmem : c ∈ s.source) (hc : c = '-' ∨ c = '"') :
    s.source = ['-', '>'] ∨
      ∃ body ds, Text.Decodes body ds ∧ s.source = '"' :: (body ++ ['"']) := by
  cases h with
  | blank _ h =>
    have hblank := h c hmem
    rcases hc with rfl | rfl <;> cases hblank
  | mark h =>
    rw [← List.mem_singleton.1 hmem] at h
    rcases hc with rfl | rfl <;> cases h
  | arrow => exact .inl rfl
  | quoted h => exact .inr ⟨_, _, h, rfl⟩
  | compose =>
    rcases hc with rfl | rfl <;> cases List.mem_singleton.1 hmem
  | word _ h _ =>
    have hbare := h c hmem
    rcases hc with rfl | rfl <;> cases hbare

/-- Behind a slice the text is outside quotes again. -/
theorem after_outside (h : s.Spelled) : Quoting.outside.after s.source = .outside := by
  by_cases hquote : '"' ∈ s.source
  · rcases h.eq_of_mem hquote (.inr rfl) with hsource | ⟨body, ds, hbody, hsource⟩
    · rw [hsource]
      rfl
    · rw [hsource, Quoting.after_cons, Quoting.after_append]
      show (Quoting.inside.after body).after ['"'] = _
      rw [hbody.after_inside]
      rfl
  · exact Quoting.after_outside hquote

/-- **No slice has a fault in it.** -/
theorem not_faulty (h : s.Spelled) {before us vs rest : List Char} {fault : LexicalFault}
    (hbefore : Quoting.outside.after before = .outside) (hsplit : s.source ++ rest = us ++ vs)
    (hlt : us.length < s.source.length) : ¬Faulty (before ++ us) vs fault := by
  intro hfaulty
  obtain ⟨ws, hsource, rfl⟩ : ∃ ws, s.source = us ++ ws ∧ vs = ws ++ rest := by
    rcases List.append_eq_append_iff.1 hsplit with ⟨ws, rfl, -⟩ | ⟨ws, hsource, hvs⟩
    · rw [List.length_append] at hlt
      omega
    · exact ⟨ws, hsource, hvs⟩
  obtain ⟨c, ws, rfl⟩ : ∃ c cs, ws = c :: cs := by
    refine List.exists_cons_of_ne_nil ?_
    rintro rfl
    rw [hsource, List.append_nil] at hlt
    exact Nat.lt_irrefl _ hlt
  have hc : c = '-' ∨ c = '"' := by
    obtain ⟨_, _, hfirst, hc⟩ := hfaulty.exists_first
    cases hfirst
    exact hc
  have hmem : c ∈ s.source := hsource ▸ List.mem_append_right us List.mem_cons_self
  rcases h.eq_of_mem hmem hc with harrow | ⟨body, ds, hbody, hquoted⟩
  · exact not_faulty_arrow (hsource.symm.trans harrow) hfaulty
  · exact hbody.not_faulty hbefore (hsource.symm.trans hquoted) hfaulty

end Slice.Spelled

/-- **The slices of a text have no fault in them.** -/
theorem Splits.length_le_of_faulty {ss : List Slice} {cs rest before : List Char}
    (h : Splits ss cs rest) (hbefore : Quoting.outside.after before = .outside)
    {us vs : List Char} {fault : LexicalFault} (hcs : cs = us ++ vs)
    (hfaulty : Faulty (before ++ us) vs fault) : (ss.flatMap Slice.source).length ≤ us.length := by
  induction h generalizing before us with
  | nil => exact Nat.zero_le _
  | @cons s ss cs rest hs _ _ ih =>
    rcases Nat.lt_or_ge us.length s.source.length with hlt | hge
    · exact absurd hfaulty (hs.not_faulty hbefore hcs hlt)
    · obtain ⟨ws, rfl⟩ : s.source <+: us :=
        List.prefix_of_prefix_length_le (List.prefix_append _ _) ⟨vs, hcs.symm⟩ hge
      rw [List.append_assoc, List.append_cancel_left_eq] at hcs
      rw [← List.append_assoc] at hfaulty
      have hle := ih (by rw [Quoting.after_append, hbefore, hs.after_outside]) hcs hfaulty
      rw [List.flatMap_cons, List.length_append, List.length_append]
      omega

theorem Splits.after_outside {ss : List Slice} {cs rest : List Char} (h : Splits ss cs rest) :
    Quoting.outside.after (ss.flatMap Slice.source) = .outside := by
  induction h with
  | nil => rfl
  | cons hs _ _ ih => rw [List.flatMap_cons, Quoting.after_append, hs.after_outside, ih]

/-- Where its slices stop with a fault, a text has its first fault. -/
theorem Splits.firstFault {ss : List Slice} {cs rest : List Char} {fault : LexicalFault}
    (h : Splits ss cs rest) (hstops : Stops (some fault) rest) :
    FirstFault cs (ss.flatMap Slice.source) rest fault where
  eq_append := h.eq_append
  faulty := (stops_iff_faulty h.after_outside).1 hstops
  first _ _ _ hcs hfaulty := h.length_le_of_faulty (Quoting.after_nil _) hcs hfaulty

/-- A text that its slices exhaust has no fault. -/
theorem Splits.not_faulty {ss : List Slice} {cs us vs : List Char} {fault : LexicalFault}
    (h : Splits ss cs []) (hcs : cs = us ++ vs) : ¬Faulty us vs fault := by
  intro hfaulty
  have hle := h.length_le_of_faulty (Quoting.after_nil _) hcs hfaulty
  obtain ⟨c, ds, rfl, -⟩ := hfaulty.exists_first
  have hlength := congrArg List.length (h.eq_append.symm.trans hcs)
  rw [List.length_append, List.length_append, List.length_cons, List.length_nil] at hlength
  omega

/-- A text has one first fault at most. -/
theorem FirstFault.unique {cs us vs us' vs' : List Char} {fault fault' : LexicalFault}
    (h : FirstFault cs us vs fault) (h' : FirstFault cs us' vs' fault') :
    us = us' ∧ fault = fault' := by
  have hle := h.first us' vs' fault' h'.eq_append h'.faulty
  have hge := h'.first us vs fault h.eq_append h.faulty
  obtain ⟨rfl, rfl⟩ := List.append_inj (h.eq_append.symm.trans h'.eq_append)
    (Nat.le_antisymm hle hge)
  refine ⟨rfl, ?_⟩
  have hfaulty := h.faulty
  have hfaulty' := h'.faulty
  cases hfaulty <;> cases hfaulty' <;> rfl

/-! ### Bare words -/

namespace Slice

/-- A slice that begins with a bare character. -/
def IsBare (s : Slice) : Prop :=
  ∃ c cs, s.source = c :: cs ∧ Text.isBare c = true

/-- **A maximal run of bare characters** between other slices: neither what is in front of it ends
with a bare character, nor does what is behind it begin with one. An arrow in front is exempt: its
`>` is a bare character, but belongs to the slice of the arrow, and a bare word may follow at
once. -/
structure IsRun (before : List Slice) (s : Slice) (behind : List Slice) : Prop where
  bare : ∀ c ∈ s.source, Text.isBare c = true
  front : ∀ t ∈ before.getLast?, t.token? ≠ some .arrow →
    ∀ c ∈ t.source.getLast?, Text.isBare c = false
  back : ∀ c ∈ (behind.flatMap source).head?, Text.isBare c = false

/-- What begins with a bare character is a bare word. -/
theorem Spelled.bare {s : Slice} (h : s.Spelled) (hbare : s.IsBare) :
    (∀ c ∈ s.source, Text.isBare c = true) ∧
      s.token? = some (if s.source = ['o'] then .compose else .word (String.ofList s.source)) := by
  obtain ⟨c, cs, hsource, hallows⟩ := h.allows
  obtain ⟨c', cs', hsource', hc⟩ := hbare
  rw [hsource] at hsource'
  cases hsource'
  rw [Kind.of_bare hc] at hallows
  rw [hsource]
  refine ⟨hallows.2, hallows.1.trans (congrArg some ?_)⟩
  split
  · next ho => rw [ho]; rfl
  · next ho => exact ofBare_ofList ho

/-- Bare words begin with a bare character. -/
theorem Spelled.isBare {s : Slice} (h : s.Spelled)
    (hword : s.token? = some .compose ∨ ∃ w, s.token? = some (.word w)) : s.IsBare := by
  cases h with
  | compose => exact ⟨'o', [], rfl, by decide⟩
  | word hne h _ =>
    obtain ⟨c, cs, rfl⟩ := List.exists_cons_of_ne_nil hne
    exact ⟨c, cs, rfl, h c List.mem_cons_self⟩
  | mark h =>
    unfold Token.ofMark? at h
    split at h <;> cases h <;> rcases hword with hword | ⟨_, hword⟩ <;> cases hword
  | _ => rcases hword with hword | ⟨_, hword⟩ <;> cases hword

/-- Only bare words and the arrow end with a bare character. -/
theorem Spelled.isBare_last {s : Slice} (h : s.Spelled) {c : Char} (hc : c ∈ s.source.getLast?)
    (hbare : Text.isBare c = true) :
    s.token? = some .arrow ∨ ∀ d ∈ s.source, Text.isBare d = true := by
  cases h with
  | arrow => exact .inl rfl
  | compose => exact .inr isBare_compose
  | word _ h _ => exact .inr h
  | blank _ h =>
    rw [Text.isBare, h c (List.mem_of_mem_getLast? hc)] at hbare
    cases hbare
  | @mark c' _ h =>
    obtain rfl : c' = c := Option.some.inj hc
    rw [Lexed.ofMark?_of_isBare hbare] at h
    cases h
  | quoted h =>
    rw [← List.cons_append, List.getLast?_concat] at hc
    cases hc
    cases hbare

end Slice

/-- **How a slice is read** that stands between others: without a token if it is blank, as a word or
a composition if it is a run of bare characters, and as what its quotes enclose if it is quoted. -/
structure Slice.IsRead (before : List Slice) (s : Slice) (behind : List Slice) : Prop where
  blank : s.token? = none → ∀ c ∈ s.source, Text.isBlank c = true
  bare_iff : s.IsBare ↔ s.token? = some .compose ∨ ∃ word, s.token? = some (.word word)
  run : s.IsBare → IsRun before s behind
  bare : s.IsBare →
    s.token? = some (if s.source = ['o'] then .compose else .word (String.ofList s.source))
  quoted : ∀ word, s.token? = some (.quoted word) →
    ∃ body, s.source = '"' :: (body ++ ['"']) ∧ Text.Decodes body word.toList

theorem Splits.of_append {as bs : List Slice} {cs rest : List Char}
    (h : Splits (as ++ bs) cs rest) : ∃ ds, Splits as cs ds ∧ Splits bs ds rest := by
  induction as generalizing cs with
  | nil => exact ⟨cs, .nil cs, h⟩
  | cons s as ih =>
    cases h with
    | cons hs hlongest h =>
      obtain ⟨ds, has, hbs⟩ := ih h
      exact ⟨ds, .cons hs hlongest has, hbs⟩

/-- **Bare words are maximal runs** of what the arrows leave of the bare characters. -/
theorem Splits.isRun {as bs : List Slice} {s : Slice} {cs : List Char}
    (h : Splits (as ++ s :: bs) cs []) (hs : s.IsBare) : Slice.IsRun as s bs := by
  obtain ⟨ds, has, hbs⟩ := h.of_append
  cases hbs with
  | @cons _ _ ds _ hspelled hlongest hbs =>
    have hbare := (hspelled.bare hs).1
    have hds := hbs.eq_append
    rw [List.append_nil] at hds
    refine ⟨hbare, fun t ht hne c hc ↦ Bool.eq_false_iff.2 fun hcbare ↦ ?_, fun c hc ↦ ?_⟩
    · -- The slice in front would have gone on with this one.
      obtain ⟨as, rfl⟩ := List.getLast?_eq_some_iff.1 ht
      obtain ⟨es, -, hlast⟩ := has.of_append
      cases hlast with
      | cons htspelled htlongest hnil =>
        cases hnil
        obtain ⟨d, tail, hsource, hd⟩ := hs
        rw [hsource] at htlongest
        have htbare := (htspelled.isBare_last hc hcbare).resolve_left hne
        exact Bool.eq_false_iff.1 (htlongest.isBare_false htspelled.source_ne_nil htbare) hd
    · rw [← hds] at hc
      obtain ⟨es, rfl⟩ := List.head?_eq_some_iff.1 hc
      exact hlongest.isBare_false hspelled.source_ne_nil hbare

/-- **Every slice of a text is read for what it is.** -/
theorem Splits.isRead {as bs : List Slice} {s : Slice} {cs : List Char}
    (h : Splits (as ++ s :: bs) cs []) : Slice.IsRead as s bs := by
  have hs := h.spelled (List.mem_append_right as List.mem_cons_self)
  refine ⟨hs.source_blank, ⟨fun hbare ↦ ?_, hs.isBare⟩, h.isRun, fun hbare ↦ (hs.bare hbare).2,
    fun _ ↦ hs.source_quoted⟩
  rw [(hs.bare hbare).2]
  split
  · exact .inl rfl
  · exact .inr ⟨_, rfl⟩

/-! ### Whole texts -/

/-- The tokens of a whole text are those of its slices, or the fault where these stop. -/
theorem tokenize_of_splits {text : String} {ss : List Slice} {rest : List Char}
    {fault? : Option LexicalFault} (hs : Splits ss text.toList rest) (hstops : Stops fault? rest) :
    tokenize text =
      match fault? with
      | some fault => .error (.lexical fault (Position.place (ss.flatMap Slice.source)))
      | none => .ok (ss.filterMap Slice.token?) := by
  rw [tokenize, Lexed.ofString, Lexed.ofChars_of_splits {} hs hstops, Position.after_eq_place]
  cases fault? with
  | some fault => rfl
  | none => exact congrArg _ (Slice.map_token_locate {} ss)

/-- **A text without its tokens has a first fault**, and that fault is the error. -/
theorem tokenize_eq_error (text : String) (error : Error) :
    tokenize text = .error error ↔ ∃ before rest fault,
      FirstFault text.toList before rest fault ∧
        error = .lexical fault (Position.place before) := by
  obtain ⟨ss, rest, fault?, hs, hstops⟩ := exists_splits text.toList
  rw [tokenize_of_splits hs hstops]
  cases fault? with
  | some fault =>
    refine ⟨fun h ↦ ⟨_, _, _, hs.firstFault hstops, (Except.error.inj h).symm⟩, ?_⟩
    rintro ⟨before, rest, fault', hfirst, rfl⟩
    obtain ⟨rfl, rfl⟩ := hfirst.unique (hs.firstFault hstops)
    rfl
  | none =>
    refine ⟨nofun, ?_⟩
    rintro ⟨before, rest', fault, hfirst, -⟩
    cases hstops
    exact absurd hfirst.faulty (hs.not_faulty hfirst.eq_append)

/-- **A text has its tokens if its slices exhaust it.** -/
theorem tokenize_eq_ok (text : String) (ks : List Token) :
    tokenize text = .ok ks ↔
      ∃ ss, Splits ss text.toList [] ∧ ss.filterMap Slice.token? = ks := by
  constructor
  · intro h
    obtain ⟨ss, rest, fault?, hs, hstops⟩ := exists_splits text.toList
    rw [tokenize_of_splits hs hstops] at h
    cases fault? with
    | some fault => cases h
    | none =>
      cases hstops
      exact ⟨ss, hs, Except.ok.inj h⟩
  · rintro ⟨ss, hs, rfl⟩
    exact tokenize_of_splits hs .finished

/-- A text fails to have tokens just when it has a lexical fault. -/
theorem exists_tokenize_eq_error (text : String) :
    (∃ error, tokenize text = .error error) ↔
      ∃ before rest fault, text.toList = before ++ rest ∧ Faulty before rest fault := by
  constructor
  · rintro ⟨error, h⟩
    obtain ⟨before, rest, fault, hfirst, -⟩ := (tokenize_eq_error text error).1 h
    exact ⟨before, rest, fault, hfirst.eq_append, hfirst.faulty⟩
  · rintro ⟨before, rest, fault, htext, hfaulty⟩
    cases h : tokenize text with
    | error error => exact ⟨error, rfl⟩
    | ok ks =>
      obtain ⟨ss, hs, -⟩ := (tokenize_eq_ok text ks).1 h
      exact absurd hfaulty (hs.not_faulty htext)

/-- **Lexing is a lossless partition by longest match.** A text fails to have tokens just when it
has a lexical fault, and then the first one is reported in its place. Otherwise its tokens are those
of slices which follow one another without a gap and are each as long as they can be. Among these
the bare words are the maximal runs of bare characters, where the `>` of an arrow in front does not
count as one (it is part of the arrow's slice, so that `->a` is an arrow and the word `a`). They are
read as compositions if they are an `o` and as they stand otherwise, and a quoted word denotes what
stands between its quotes. -/
theorem tokenize_partition (text : String) :
    ((∃ error, tokenize text = .error error) ↔
      ∃ before rest fault, text.toList = before ++ rest ∧ Faulty before rest fault) ∧
    (∀ error, tokenize text = .error error ↔
      ∃ before rest fault, FirstFault text.toList before rest fault ∧
        error = .lexical fault (Position.place before)) ∧
    (∀ ks, tokenize text = .ok ks ↔
      ∃ ss, Splits ss text.toList [] ∧ ss.filterMap Slice.token? = ks) ∧
    ∀ ss, Splits ss text.toList [] →
      ss.flatMap Slice.source = text.toList ∧
      ∀ as s bs, ss = as ++ s :: bs → Slice.IsRead as s bs := by
  refine ⟨exists_tokenize_eq_error text, tokenize_eq_error text, tokenize_eq_ok text,
    fun ss hs ↦ ⟨?_, ?_⟩⟩
  · rw [hs.eq_append, List.append_nil]
  · rintro as s bs rfl
    exact hs.isRead

end TermRegistry
