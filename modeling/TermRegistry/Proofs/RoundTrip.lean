import TermRegistry.Proofs.WellFormed

/-!
# The exact round trip

The text of a well-formed term is read back as that term, and a term that is read back from its text
is well-formed: writing and reading are inverse to each other exactly on the well-formed terms, and
the parser returns no others.

**Design.** `Term.Written` says that the text of a term spells a phrase for it, once on its own and
once as the last operand of a chain of compositions. There is one lemma for each sort of term, which
builds `Written` from the parts; `written_of_isWellFormed` is the recursion over the term. Nothing
here mentions positions, errors or what is left to read: `Spells` and `Derives` are composed, and
`Term.parse_eq_ok` connects them with the parser at the end.
-/

namespace TermRegistry

namespace Term

/-- **A term is written** as a phrase that denotes it: on its own as a primary other than a bare
word, and at the end of a chain as a value in front of the closing parenthesis. -/
structure Written (t : Term) : Prop where
  primary : ∃ w, Spells (t.renderIn false) w ∧ Derives w (.primary t) ∧ ∀ name, w ≠ [.word name]
  chain : ∃ w, Spells (t.renderIn true) (w ++ [.rightParen]) ∧ Derives w (.value t)

end Term

/-! ### Entries -/

section Entries

open Term

/-- A parameter is written as its name and its value. -/
theorem Entry.parameter_written {e : Entry Term} (he : e.isParameter = true) (h : e.value.Written) :
    ∃ w, Spells (e.label.render e.modifiers ++ e.value.renderIn false) w ∧
      Derives w (.parameter e) := by
  obtain ⟨label, modifiers, t⟩ := e
  obtain ⟨w, hs, hd, -⟩ := h.primary
  rw [isParameter, Bool.and_eq_true] at he
  obtain rfl : modifiers = [] := List.isEmpty_iff.1 he.2
  cases label with
  | positional =>
    rw [Label.render, List.map_nil, String.join_nil, String.empty_append, String.empty_append]
    exact ⟨w, hs, .positional (.single hd)⟩
  | named name =>
    rw [Label.render, List.map_nil, String.join_nil, String.empty_append]
    have hname : Spells (Text.word name ++ "=") [.ofWord name, .equals] :=
      .word name (.punctuation rfl) ⟨'=', [], rfl, by decide⟩
    exact ⟨_, hname.append hs, .named (.single (.text (Token.text?_ofWord name))) (.single hd)⟩
  | typed type name => cases he.1

/-- Parameters are written one after the other, with commas between them. -/
theorem Listing.parameters_written {es : List (Entry Term)} (hes : areParameters es = true)
    (h : ∀ e ∈ es, e.value.Written) :
    ∃ w, Spells (joinParameters (renderEntries es)) w ∧ Derives w (.parameters es) := by
  induction es with
  | nil => exact ⟨[], .empty, .noParameters⟩
  | cons e es ih =>
    rw [areParameters, List.all_cons, Bool.and_eq_true, Bool.and_eq_true, decide_eq_true_iff] at hes
    obtain ⟨⟨he, hall⟩, hu⟩ := hes
    obtain ⟨v, hv, hdv⟩ := Entry.parameter_written he (h e List.mem_cons_self)
    cases es with
    | nil =>
      refine ⟨v, ?_, .lastParameter hdv⟩
      rw [renderEntries, renderEntries, joinParameters, String.intercalate_singleton]
      exact hv
    | cons d es =>
      -- Parameters behind the first one are uniform as all of them are.
      obtain ⟨w, hw, hdw⟩ := ih
        (Bool.and_eq_true_iff.2 ⟨hall, decide_eq_true (hu.mono (List.subset_cons_self _ _))⟩)
        fun e he ↦ h e (List.mem_cons_of_mem _ he)
      refine ⟨v ++ .comma :: w, ?_, .moreParameters hdv hdw hu⟩
      have hcomma : Spells ", " [.comma] := .punctuation rfl
      have hne : renderEntries (d :: es) ≠ [] := List.cons_ne_nil _ _
      rw [renderEntries, joinParameters, String.intercalate_cons_of_ne_nil hne,
        String.append_assoc]
      exact hv.append (hcomma.append hw)

/-- The modifiers of a statement are written as words, each with a blank behind it. -/
theorem Label.modifiers_written (modifiers : List String) :
    Spells (String.join (modifiers.map fun m ↦ Text.word m ++ " "))
      (modifiers.map Token.ofWord) := by
  induction modifiers with
  | nil => exact .empty
  | cons m ms ih =>
    rw [List.map_cons, List.map_cons, String.join_cons]
    have hm : Spells (Text.word m ++ " ") [.ofWord m] :=
      .word m (.punctuation rfl) ⟨' ', [], rfl, by decide⟩
    exact hm.append ih

/-- What stands in front of the value of a statement is written as a heading. -/
theorem Entry.heading_written {e : Entry Term} (he : e.isStatement = true) :
    ∃ w, Spells (e.label.render e.modifiers) w ∧ Heading w e.label e.modifiers := by
  obtain ⟨label, modifiers, t⟩ := e
  rw [isStatement, Bool.and_eq_true, Bool.or_eq_true] at he
  have hname : ∀ name, Spells (Text.word name ++ "=") [.ofWord name, .equals] := fun name ↦
    .word name (.punctuation rfl) ⟨'=', [], rfl, by decide⟩
  cases label with
  | positional => cases he.1
  | named name =>
    obtain rfl : modifiers = [] := List.isEmpty_iff.1 (he.2.resolve_left nofun)
    rw [Label.render, List.map_nil, String.join_nil, String.empty_append]
    exact ⟨_, hname name, .named (Token.text?_ofWord name)⟩
  | typed type name =>
    have htype : Spells (Text.word type ++ " ") [.ofWord type] :=
      .word type (.punctuation rfl) ⟨' ', [], rfl, by decide⟩
    refine ⟨_, (Label.modifiers_written modifiers).append ?_, .typed ?_ (Token.text?_ofWord type)
      (Token.text?_ofWord name)⟩
    · show Spells (Text.word type ++ " " ++ Text.word name ++ "=") _
      rw [String.append_assoc]
      exact htype.append (hname name)
    · rw [List.map_map]
      exact List.map_congr_left fun m _ ↦ Token.text?_ofWord m

/-- Statements are written one after the other, each with a semicolon behind it. -/
theorem Listing.statements_written {es : List (Entry Term)} {separator : String}
    (hsep : Spells separator []) (hes : areStatements es = true) (h : ∀ e ∈ es, e.value.Written) :
    ∃ w, Spells (joinStatements separator (renderEntries es)) w ∧ Derives w (.statements es) := by
  induction es with
  | nil => exact ⟨[], .empty, .noStatements⟩
  | cons e es ih =>
    rw [areStatements, List.all_cons, Bool.and_eq_true] at hes
    obtain ⟨he, hall⟩ := hes
    obtain ⟨u, hu, hdu⟩ := Entry.heading_written he
    obtain ⟨v, hv, hdv, -⟩ := (h e List.mem_cons_self).primary
    obtain ⟨w, hw, hdw⟩ := ih hall fun e he ↦ h e (List.mem_cons_of_mem _ he)
    have hfirst := (hu.append hv).append (Spells.punctuation rfl : Spells ";" [.semicolon])
    cases es with
    | nil =>
      refine ⟨_, ?_, .moreStatements hdu (.single hdv) .noStatements⟩
      rw [joinStatements, renderEntries, renderEntries, List.map_singleton,
        String.intercalate_singleton]
      exact hfirst
    | cons d es =>
      refine ⟨_, ?_, .moreStatements hdu (.single hdv) hdw⟩
      have hne : (renderEntries (d :: es)).map (· ++ ";") ≠ [] := List.cons_ne_nil _ _
      rw [joinStatements, renderEntries, List.map_cons, String.intercalate_cons_of_ne_nil hne,
        List.append_cons]
      have := (hfirst.append hsep).append hw
      rwa [List.append_nil] at this

end Entries

namespace Term

namespace Written

/-- A chain is closed behind a term that is no composition. -/
theorem of_primary {t : Term} (hclose : t.renderIn true = t.renderIn false ++ ")")
    (h : ∃ w, Spells (t.renderIn false) w ∧ Derives w (.primary t) ∧ ∀ name, w ≠ [.word name]) :
    Written t := by
  refine ⟨h, ?_⟩
  obtain ⟨w, hs, hd, -⟩ := h
  exact ⟨w, hclose ▸ hs.append (.punctuation rfl), .single hd⟩

theorem text (s : String) : Written (.text s) :=
  .of_primary rfl ⟨[.quoted s], .quoted s, .text rfl, nofun⟩

theorem reference (name : String) : Written (.reference name) := by
  have hopen : Spells "$\x7b" [.dollar, .leftBrace] := .punctuation rfl
  have hname : Spells (Text.word name ++ "\x7d") [.ofWord name, .rightBrace] :=
    .word name (.punctuation rfl) ⟨'\x7d', [], rfl, by decide⟩
  refine .of_primary rfl ⟨_, ?_, .reference (Token.text?_ofWord name), nofun⟩
  show Spells ("$\x7b" ++ Text.word name ++ "\x7d") _
  rw [String.append_assoc]
  exact hopen.append hname

theorem capture {name : String} (h : Text.isPlainWord name = true) : Written (.capture name) := by
  have hopen : Spells "[" [.leftBracket] := .punctuation rfl
  have hname : Spells (name ++ "]") [.word name, .rightBracket] :=
    .plain h (.punctuation rfl) ⟨']', [], rfl, by decide⟩
  refine .of_primary rfl ⟨_, ?_, .capture name, nofun⟩
  show Spells ("[" ++ name ++ "]") _
  rw [String.append_assoc]
  exact hopen.append hname

/-- Items are written one after the other, with commas between them. -/
theorem items {t : Term} {ts : List Term} (h : ∀ u ∈ t :: ts, Written u) :
    ∃ w, Spells (", ".intercalate (renderAll (t :: ts))) w ∧ Derives w (.items (t :: ts)) ∧
      ∀ name, w ≠ [.word name] := by
  induction ts generalizing t with
  | nil =>
    obtain ⟨w, hs, hd, hne⟩ := (h t List.mem_cons_self).primary
    refine ⟨w, ?_, .item (.single hd), hne⟩
    rw [renderAll, renderAll, String.intercalate_singleton]
    exact hs
  | cons u ts ih =>
    obtain ⟨v, hv, hdv, -⟩ := (h t List.mem_cons_self).primary
    obtain ⟨w, hw, hdw, -⟩ := ih fun u hu ↦ h u (List.mem_cons_of_mem _ hu)
    refine ⟨v ++ .comma :: w, ?_, .moreItems (.single hdv) hdw, fun name hname ↦ ?_⟩
    · have hcomma : Spells ", " [.comma] := .punctuation rfl
      have hne : renderAll (u :: ts) ≠ [] := List.cons_ne_nil _ _
      rw [renderAll, String.intercalate_cons_of_ne_nil hne, String.append_assoc]
      exact hv.append (hcomma.append hw)
    -- There is a comma between the items, and so more than a word.
    · have hcomma : Token.comma ∈ [Token.word name] :=
        hname ▸ List.mem_append_right _ List.mem_cons_self
      cases List.mem_singleton.1 hcomma

theorem array {ts : List Term} (h : ∀ t ∈ ts, Written t) : Written (.array ts) := by
  cases ts with
  | nil => exact .of_primary rfl ⟨_, .punctuation rfl, .emptyArray, nofun⟩
  | cons t ts =>
    obtain ⟨w, hw, hd, hne⟩ := items h
    have hopen : Spells "[" [.leftBracket] := .punctuation rfl
    have hclose : Spells "]" [.rightBracket] := .punctuation rfl
    exact .of_primary rfl ⟨_, (hopen.append hw).append hclose, .array hd hne, nofun⟩

theorem rule {s t : Term} (hs : Written s) (ht : Written t) : Written (.rule s t) := by
  obtain ⟨v, hv, hdv, -⟩ := hs.primary
  obtain ⟨w, hw, hdw, -⟩ := ht.primary
  have hopen : Spells "(" [.leftParen] := .punctuation rfl
  have harrow : Spells ") -> (" [.rightParen, .arrow, .leftParen] := .punctuation rfl
  have hclose : Spells ")" [.rightParen] := .punctuation rfl
  refine .of_primary rfl ⟨_, ?_, .rule (.single hdv) (.single hdw), nofun⟩
  have htokens := (((hopen.append hv).append harrow).append hw).append hclose
  simp only [List.append_assoc, List.cons_append, List.nil_append] at htokens ⊢
  exact htokens

theorem composite {f g : Term} (hf : Written f) (hg : Written g) : Written (.composite f g) := by
  obtain ⟨v, hv, hdv, -⟩ := hf.primary
  obtain ⟨w, hw, hdw⟩ := hg.chain
  have hopen : Spells "(" [.leftParen] := .punctuation rfl
  have hoperands : Spells (f.renderIn false ++ " o " ++ g.renderIn true)
      (v ++ .compose :: w ++ [.rightParen]) := by
    have htokens := (hv.append .compose).append hw
    simp only [List.append_assoc, List.cons_append, List.nil_append] at htokens ⊢
    exact htokens
  have hd : Derives (v ++ .compose :: w) (.value (.composite f g)) := .composition hdv hdw
  refine ⟨⟨_, hopen.append hoperands, .parenthesized hd, nofun⟩, v ++ .compose :: w, ?_, hd⟩
  exact Spells.empty.append hoperands

/-- The internal listing of a call is written in braces behind it. -/
theorem internal {es : List (Entry Term)} (hes : Listing.areStatements es = true)
    (h : ∀ e ∈ es, Written e.value) :
    ∃ w, Spells (renderInternal (some es)) (.leftBrace :: w ++ [.rightBrace]) ∧
      Derives w (.statements es) := by
  cases es with
  | nil =>
    have hbraces : Spells " \x7b \x7d" [.leftBrace, .rightBrace] := .punctuation rfl
    exact ⟨[], hbraces, .noStatements⟩
  | cons e es =>
    have hblank : Spells " " [] := .punctuation rfl
    obtain ⟨w, hw, hd⟩ := Listing.statements_written hblank hes h
    have hopen : Spells " \x7b " [.leftBrace] := .punctuation rfl
    have hclose : Spells " \x7d" [.rightBrace] := .punctuation rfl
    exact ⟨w, (hopen.append hw).append hclose, hd⟩

/-- The parameters of a call that is no composition are written in parentheses behind its name. -/
theorem call {name : String} {es : List (Entry Term)} {inside : Option (List (Entry Term))}
    (hcall : isComposite name es inside = false) (hes : Listing.areParameters es = true)
    (h : ∀ e ∈ es, Written e.value)
    (hinside : ∀ is, inside = some is →
      Listing.areStatements is = true ∧ ∀ e ∈ is, Written e.value) :
    Written (.call name ⟨es, .parameters⟩ inside) := by
  obtain ⟨v, hv, hdv⟩ := Listing.parameters_written hes h
  have hopen : Spells (Text.word name ++ "(") [.ofWord name, .leftParen] :=
    .word name (.punctuation rfl) ⟨'(', [], rfl, by decide⟩
  have hclose : Spells ")" [.rightParen] := .punctuation rfl
  have hhead := (hopen.append hv).append hclose
  -- A call that is no composition is written the same in a chain, which is then closed.
  have hrender : ∀ chain, renderIn chain (.call name ⟨es, .parameters⟩ inside) =
      closeChain chain (Text.word name ++ "(" ++ joinParameters (renderEntries es) ++ ")" ++
        renderInternal inside) := by
    intro chain
    rw [renderIn, hcall]
    rfl
  refine .of_primary (by rw [hrender, hrender]; rfl) ?_
  rw [hrender]
  cases inside with
  | none =>
    have htokens := hhead.append .empty
    rw [List.append_nil] at htokens
    exact ⟨_, htokens, .call (Token.text?_ofWord name) hdv,
      fun _ h ↦ List.cons_ne_nil _ _ (List.cons.inj h).2⟩
  | some is =>
    obtain ⟨his, hwritten⟩ := hinside is rfl
    obtain ⟨w, hw, hdw⟩ := internal his hwritten
    refine ⟨_, ?_, .callWith (Token.text?_ofWord name) hdv hdw,
      fun _ h ↦ List.cons_ne_nil _ _ (List.cons.inj h).2⟩
    have htokens := hhead.append hw
    simp only [List.append_assoc, List.cons_append, List.nil_append] at htokens ⊢
    exact htokens

end Written

/-! ### The round trip -/

/-- A call of parameters that denotes a composition is one. -/
theorem eq_composite {name : String} {es : List (Entry Term)} {inside : Option (List (Entry Term))}
    (hcall : isComposite name es inside = true) (hes : Listing.areParameters es = true) :
    ∃ f g, Term.call name ⟨es, .parameters⟩ inside = composite f g := by
  -- A parameter is told by its name and its value.
  have named : ∀ {e : Entry Term} {n : String}, e.isParameter = true → e.name? = some n →
      e = ⟨.named n, [], e.value⟩ := by
    rintro ⟨label, modifiers, t⟩ n he hn
    rw [Entry.isParameter, Bool.and_eq_true] at he
    obtain rfl : modifiers = [] := List.isEmpty_iff.1 he.2
    cases label with
    | positional => cases hn
    | named name =>
      cases hn
      rfl
    | typed type name => cases he.1
  obtain ⟨rfl, rfl, hnames⟩ := isComposite_iff.1 hcall
  rw [Listing.areParameters, Bool.and_eq_true, List.all_eq_true] at hes
  obtain ⟨d, ds, rfl, hd, hds⟩ := List.map_eq_cons_iff.1 hnames
  obtain ⟨e, rfl, he⟩ := List.map_eq_singleton_iff.1 hds
  refine ⟨d.value, e.value, ?_⟩
  rw [composite, ← named (hes.1 d List.mem_cons_self) hd,
    ← named (hes.1 e (List.mem_cons_of_mem d List.mem_cons_self)) he]

/-- A call is written if the values of its entries are. -/
theorem Written.of_call {name : String} {es : List (Entry Term)}
    {inside : Option (List (Entry Term))} (hes : Listing.areParameters es = true)
    (h : ∀ e ∈ es, Written e.value)
    (hinside : ∀ is, inside = some is →
      Listing.areStatements is = true ∧ ∀ e ∈ is, Written e.value) :
    Written (.call name ⟨es, .parameters⟩ inside) := by
  cases hcall : isComposite name es inside with
  | false => exact .call hcall hes h hinside
  | true =>
    obtain ⟨f, g, hfg⟩ := eq_composite hcall hes
    rw [hfg]
    cases hfg
    exact .composite (h _ List.mem_cons_self) (h _ (List.mem_cons_of_mem _ List.mem_cons_self))

mutual

/-- **Well-formed terms are written** as phrases that denote them. -/
theorem written_of_isWellFormed : (t : Term) → t.isWellFormed = true → Written t
  | text s, _ => .text s
  | reference name, _ => .reference name
  | capture _, h => .capture h
  | array items, h => .array (written_of_allWellFormed items h)
  | listing _, h => nomatch h
  | call _ ⟨es, form⟩ none, h => by
    have hes := written_of_entriesWellFormed es
    rw [isWellFormed, Bool.and_eq_true, Bool.and_eq_true] at h
    obtain ⟨⟨hform, hparameters⟩, hvalues⟩ := h
    obtain rfl := eq_of_beq hform
    exact .of_call hparameters (hes hvalues) nofun
  | call _ ⟨es, form⟩ (some is), h => by
    have hes := written_of_entriesWellFormed es
    have his := written_of_entriesWellFormed is
    simp only [isWellFormed, Bool.and_eq_true] at h
    obtain ⟨⟨⟨⟨hform, hparameters⟩, hvalues⟩, hstatements⟩, hinside⟩ := h
    obtain rfl := eq_of_beq hform
    -- Being well-formed is checked for the internal statements too, which are written behind the
    -- parameters.
    refine .of_call hparameters (hes hvalues) fun js hjs ↦ ?_
    cases hjs
    exact ⟨hstatements, his hinside⟩
  | rule s t, h =>
    have h := Bool.and_eq_true_iff.1 h
    .rule (written_of_isWellFormed s h.1) (written_of_isWellFormed t h.2)

theorem written_of_allWellFormed : (ts : List Term) → allWellFormed ts = true → ∀ t ∈ ts, Written t
  | [], _ => nofun
  | t :: ts, h => by
    have h := Bool.and_eq_true_iff.1 h
    have ht := written_of_isWellFormed t h.1
    have hts := written_of_allWellFormed ts h.2
    intro u hu
    rcases List.mem_cons.1 hu with rfl | hu
    · exact ht
    · exact hts u hu

theorem written_of_entriesWellFormed :
    (es : List (Entry Term)) → entriesWellFormed es = true → ∀ e ∈ es, Written e.value
  | [], _ => nofun
  | ⟨l, ms, t⟩ :: es, h => by
    have h := Bool.and_eq_true_iff.1 h
    have ht := written_of_isWellFormed t h.1
    have hes := written_of_entriesWellFormed es h.2
    intro e he
    rcases List.mem_cons.1 he with rfl | he
    · exact ht
    · exact hes e he

end

/-- **Reading undoes writing on exactly the well-formed terms.** -/
theorem parse_render_eq_ok {t : Term} : parse t.render = .ok t ↔ t.isWellFormed = true := by
  rw [parse_eq_ok]
  refine ⟨fun ⟨_, hd⟩ ↦ hd.isWellFormed (Lexed.all_isPlain _), fun h ↦ ?_⟩
  obtain ⟨w, hs, hd, -⟩ := (written_of_isWellFormed t h).primary
  obtain ⟨hfault, rfl⟩ := hs.ofString
  exact ⟨hfault, .single hd⟩

/-- How a term is written denotes the term. -/
theorem parse_eq_ok_of_render {s : String} {t : Term} (hs : t.render = s)
    (ht : t.isWellFormed = true) : parse s = .ok t :=
  hs ▸ parse_render_eq_ok.2 ht

/-- What a text denotes is well-formed. -/
theorem isWellFormed_of_parse {s : String} {t : Term} (h : parse s = .ok t) :
    t.isWellFormed = true :=
  (parse_eq_ok.1 h).2.isWellFormed (Lexed.all_isPlain s)

end Term

namespace Listing

variable {l : Listing Term}

/-- What a text denotes as statements is a statement list. -/
theorem isStatementList_of_parseStatements {s : String} (h : parseStatements s = .ok l) :
    l.isStatementList = true := by
  obtain ⟨hform, -, hd⟩ := parseStatements_eq_ok.1 h
  have hl := Bool.and_eq_true_iff.1 (hd.isWellFormed (Lexed.all_isPlain s))
  rw [isStatementList, hform, hl.1, hl.2]
  rfl

/-- What a text denotes as parameters is a parameter list. -/
theorem isParameterList_of_parseParameters {s : String} (h : parseParameters s = .ok l) :
    l.isParameterList = true := by
  obtain ⟨hform, -, hd⟩ := parseParameters_eq_ok.1 h
  have hl := Bool.and_eq_true_iff.1 (hd.isWellFormed (Lexed.all_isPlain s))
  rw [isParameterList, hform, hl.1, hl.2]
  rfl

/-- **Reading undoes writing on exactly the statement lists.** -/
theorem parseStatements_render_eq_ok :
    parseStatements l.render = .ok l ↔ l.isStatementList = true := by
  refine ⟨isStatementList_of_parseStatements, fun h ↦ ?_⟩
  obtain ⟨es, form⟩ := l
  rw [isStatementList, Bool.and_eq_true, Bool.and_eq_true, beq_iff_eq] at h
  obtain ⟨⟨rfl, hes⟩, hvalues⟩ := h
  have hnewline : Spells "\n" [] := .punctuation rfl
  obtain ⟨w, hs, hd⟩ :=
    statements_written hnewline hes (Term.written_of_entriesWellFormed es hvalues)
  have hend : Spells (if es.isEmpty then "" else "\n") [] := by
    split
    · exact .empty
    · exact hnewline
  have htokens := hs.append hend
  rw [List.append_nil] at htokens
  obtain ⟨hfault, rfl⟩ := htokens.ofString
  exact parseStatements_eq_ok.2 ⟨rfl, hfault, hd⟩

/-- **Reading undoes writing on exactly the parameter lists.** -/
theorem parseParameters_render_eq_ok :
    parseParameters l.render = .ok l ↔ l.isParameterList = true := by
  refine ⟨isParameterList_of_parseParameters, fun h ↦ ?_⟩
  obtain ⟨es, form⟩ := l
  rw [isParameterList, Bool.and_eq_true, Bool.and_eq_true, beq_iff_eq] at h
  obtain ⟨⟨rfl, hes⟩, hvalues⟩ := h
  obtain ⟨w, hs, hd⟩ := parameters_written hes (Term.written_of_entriesWellFormed es hvalues)
  obtain ⟨hfault, rfl⟩ := hs.ofString
  exact parseParameters_eq_ok.2 ⟨rfl, hfault, hd⟩

end Listing

/-- **The exact round trip.** Each of the three parsers reads what is written of exactly the
well-formed things of its sort, and so of whatever it returns itself. -/
theorem roundTrip :
    (∀ t : Term, Term.parse t.render = .ok t ↔ t.isWellFormed = true) ∧
    (∀ l : Listing Term, Listing.parseStatements l.render = .ok l ↔ l.isStatementList = true) ∧
    (∀ l : Listing Term, Listing.parseParameters l.render = .ok l ↔ l.isParameterList = true) ∧
    (∀ s t, Term.parse s = .ok t → Term.parse t.render = .ok t) ∧
    (∀ s l, Listing.parseStatements s = .ok l → Listing.parseStatements l.render = .ok l) ∧
    (∀ s l, Listing.parseParameters s = .ok l → Listing.parseParameters l.render = .ok l) := by
  refine ⟨fun t ↦ Term.parse_render_eq_ok, fun l ↦ Listing.parseStatements_render_eq_ok,
    fun l ↦ Listing.parseParameters_render_eq_ok, fun s t h ↦ ?_, fun s l h ↦ ?_, fun s l h ↦ ?_⟩
  · exact Term.parse_render_eq_ok.2 (Term.isWellFormed_of_parse h)
  · exact Listing.parseStatements_render_eq_ok.2 (Listing.isStatementList_of_parseStatements h)
  · exact Listing.parseParameters_render_eq_ok.2 (Listing.isParameterList_of_parseParameters h)

/-- A rule from a capture to a composition, the text of which is read back by way of its parts. -/
theorem roundTrip_rule :
    let t : Term := .rule (.call "f" ⟨[⟨.named "x", [], .capture "c"⟩], .parameters⟩ none)
      (.composite (.text "o")
        (.call "g" ⟨[], .parameters⟩ (some [⟨.typed "T" "a b", ["m"], .array []⟩])))
    t.isWellFormed = true ∧ Term.parse t.render = .ok t := by
  intro t
  have ht : t.isWellFormed = true := by decide
  exact ⟨ht, roundTrip.2.2.2.1 t.render t ((roundTrip.1 t).2 ht)⟩

end TermRegistry
