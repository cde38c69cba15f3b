import TermRegistry.CommandLine
import TermRegistry.Proofs.Application.Writing
import TermRegistry.Proofs.Lexing.Place
import TermRegistry.Proofs.Rendering
import TermRegistry.Proofs.RuleSet.Independence

/-!
# Reading back what the command derives

Derived terms are printed one to a line, behind the name of their rule and an equals sign. The terms
are in their canonical text, but the names stand there as they are. So the lines read back as the
statements they are meant for exactly if every name is a plain word: `statements_printed_iff` reads
one line after the other, and `isPlainWord_of_first` says that a name which is not plain is not the
first token of its line, since the characters of a quoted word are more than those it denotes.

For the text of a context, which quotes names where needed, there is no such condition
(`Context.Descended.reads_back`).
-/

namespace TermRegistry

/-! ### What a quoted word is made of -/

namespace Text.Decodes

variable {cs ds : List Char}

/-- A text is not longer than what it is decoded from. -/
theorem length_le (h : Decodes cs ds) : ds.length ≤ cs.length := by
  induction h with
  | nil => exact le_rfl
  | plain _ _ _ ih => exact Nat.succ_le_succ ih
  | _ => simp only [List.length_cons]; omega

/-- Decoding keeps the equals signs. -/
theorem count_equals (h : Decodes cs ds) : ds.count '=' = cs.count '=' := by
  induction h with
  | nil => rfl
  | _ => simp [List.count_cons, *]

/-- A text in front of an equals sign is not read as itself from behind a quote: what it would be
decoded from is no shorter, and so would contain the sign as well, which makes one too many. -/
theorem ne_append {blanks : List Char} (h : Decodes cs ds) (hblanks : '=' ∉ blanks)
    (rest more : List Char) : ds ++ '=' :: rest ≠ blanks ++ '"' :: cs ++ more := by
  intro heq
  have hname : ds ++ ['='] <+: ds ++ '=' :: rest := ⟨rest, by simp⟩
  have hquoted : blanks ++ '"' :: cs <+: ds ++ '=' :: rest := ⟨more, heq.symm⟩
  have hlength : (ds ++ ['=']).length ≤ (blanks ++ '"' :: cs).length := by
    have := h.length_le
    simp only [List.length_append, List.length_cons, List.length_nil]
    omega
  have hpre := List.prefix_of_prefix_length_le hname hquoted hlength
  have hcount := hpre.sublist.count_le '='
  simp [List.count_eq_zero.2 hblanks, h.count_equals] at hcount

end Text.Decodes

/-- **Only plain words are read as themselves in front of an equals sign.** -/
theorem Lexed.isPlainWord_of_first {p : Position} {name : String} {rest : List Char} {t : Located}
    {ts : List Located} (h : (ofChars p (name.toList ++ '=' :: rest)).tokens = t :: ts)
    (ht : t.token.text? = some name) : Text.isPlainWord name = true := by
  cases hk : t.token with
  | word w =>
    rw [hk] at ht
    cases ht
    exact isPlainWord_of_mem (h ▸ List.mem_cons_self) hk
  | quoted w =>
    rw [hk] at ht
    cases ht
    obtain ⟨ss, unread, fault?, hs, hstops⟩ := exists_splits (name.toList ++ '=' :: rest)
    rw [ofChars_of_splits p hs hstops] at h
    have hfirst : (Slice.locate p ss)[0]? = some t := by
      rw [show Slice.locate p ss = t :: ts from h]
      rfl
    obtain ⟨as, s, bs, rfl, hs', hnone, -⟩ := Slice.exists_of_getElem?_locate hfirst
    rw [hk] at hs'
    obtain ⟨body, hsource, hbody⟩ :=
      (hs.spelled (List.mem_append_right as List.mem_cons_self)).source_quoted hs'
    -- In front of the first token there is blank space only. So there is none of the name there,
    -- which begins with a quote then and would have to go on behind the closing one up to the `=`.
    have hblank : '=' ∉ as.flatMap Slice.source := fun hmem ↦ by
      obtain ⟨a, ha, hequals⟩ := List.mem_flatMap.1 hmem
      have hnone := List.filterMap_eq_nil_iff.1 (List.length_eq_zero_iff.1 hnone) a ha
      cases (hs.spelled (List.mem_append_left _ ha)).source_blank hnone '=' hequals
    refine absurd ?_ (hbody.ne_append hblank rest ('"' :: (bs.flatMap Slice.source ++ unread)))
    rw [hs.eq_append, List.flatMap_append, List.flatMap_cons, hsource]
    simp
  | _ =>
    rw [hk] at ht
    cases ht

namespace CommandLine

open Parse Lexed

/-! ### Lines -/

/-- A derived term as it is printed. -/
def line (d : String × Term) : String := d.1 ++ "=" ++ d.2.render ++ ";\n"

/-- What a line is meant for. -/
def statement (d : String × Term) : Entry Term := ⟨.named d.1, [], d.2⟩

/-- A line with a plain name is read off the front of a text. -/
theorem exists_line_tokens {d : String × Term} (hplain : Text.isPlainWord d.1 = true)
    (hd : d.2.isWellFormed = true) (p : Position) (rest : List Char) :
    ∃ ls q w, ofChars p ((line d).toList ++ rest) = (ofChars q rest).prepend ls ∧
      Derives w (.value d.2) ∧
      ls.map (·.token) = [.word d.1, .equals] ++ w ++ [.semicolon] := by
  obtain ⟨w, hw, hderives, -⟩ := (Term.written_of_isWellFormed d.2 hd).primary
  have hheading : Spells (d.1 ++ "=") [.word d.1, .equals] :=
    .plain hplain (.punctuation rfl) ⟨'=', [], rfl, by decide⟩
  have hline : Spells (line d) ([.word d.1, .equals] ++ w ++ [.semicolon]) :=
    (hheading.append hw).append (.punctuation rfl)
  obtain ⟨ls, q, hls, h⟩ := hline p rest
  exact ⟨ls, q, w, h, .single hderives, hls⟩

/-- The first token of a statement with a name and nothing else in front of it. -/
theorem exists_first_of_statements {e : Ending} {ts : List Located} {name : String} {t : Term}
    {es : List (Entry Term)}
    (h : Outcome.statements e ts = .ok (⟨.named name, [], t⟩ :: es, [])) :
    ∃ first rest, ts = first :: rest ∧ first.token.text? = some name := by
  obtain ⟨ls, hts, hls⟩ := Outcome.statements_sound h
  rw [List.append_nil] at hts
  subst hts
  have hheading : ∃ k w, ts.map (·.token) = k :: w ∧ k.text? = some name := by
    generalize ts.map (·.token) = w at hls
    cases hls with
    | lastStatement hu _ =>
      cases hu with
      | named hk => exact ⟨_, _, rfl, hk⟩
    | moreStatements hu _ _ =>
      cases hu with
      | named hk => exact ⟨_, _, rfl, hk⟩
  obtain ⟨k, w, hmap, hk⟩ := hheading
  obtain ⟨first, rest, rfl, rfl, -⟩ := List.map_eq_cons_iff.1 hmap
  exact ⟨first, rest, rfl, hk⟩

/-- **Lines are read as what they are meant for if and only if all names are plain.** -/
theorem statements_printed_iff {derived : List (String × Term)}
    (h : ∀ d ∈ derived, d.2.isWellFormed = true) (p : Position) :
    (ofChars p (String.join (derived.map line)).toList).ending.fault? = none ∧
      Outcome.statements (ofChars p (String.join (derived.map line)).toList).ending
          (ofChars p (String.join (derived.map line)).toList).tokens =
        .ok (derived.map statement, []) ↔
    ∀ d ∈ derived, Text.isPlainWord d.1 = true := by
  induction derived generalizing p with
  | nil =>
    have hnil : ofChars p (String.join (([] : List (String × Term)).map line)).toList =
        ⟨[], p, none⟩ := by
      show ofChars p [] = _
      rw [ofChars]
    rw [hnil]
    exact iff_of_true ⟨rfl, (statements_eq_ok_nil rfl).2 .noStatements⟩ (List.forall_mem_nil _)
  | cons d ds ih =>
    obtain ⟨hd, hds⟩ := List.forall_mem_cons.1 h
    have htext : (String.join ((d :: ds).map line)).toList =
        (line d).toList ++ (String.join (ds.map line)).toList := by
      rw [List.map_cons, String.join_cons, String.toList_append]
    rw [htext, List.forall_mem_cons]
    by_cases hplain : Text.isPlainWord d.1 = true
    · obtain ⟨ls, q, w, hlexed, hderives, hls⟩ := exists_line_tokens hplain hd p _
      rw [hlexed, ← ih hds q, and_iff_right hplain]
      refine and_congr_right fun _ ↦ ?_
      generalize ofChars q (String.join (ds.map line)).toList = lexed
      obtain ⟨ts, e⟩ := lexed
      show Outcome.statements e (ls ++ ts) = _ ↔ _
      rw [Outcome.statements_semicolon (.named rfl) (Outcome.accepted_of_derives hderives) hls,
        map_eq_ok]
      refine ⟨?_, fun hread ↦ ⟨_, hread, rfl⟩⟩
      rintro ⟨⟨es, us⟩, hread, heq⟩
      cases heq
      exact hread
    · -- The first token of what is read is the whole name, so a name that is not plain is not read.
      refine iff_of_false (fun hread ↦ ?_) fun hall ↦ hplain hall.1
      obtain ⟨first, rest, hts, hfirst⟩ := exists_first_of_statements hread.2
      have hline : (line d).toList ++ (String.join (ds.map line)).toList =
          d.1.toList ++ '=' :: ((d.2.render ++ ";\n").toList ++
            (String.join (ds.map line)).toList) := by
        simp [line, String.toList_append]
      rw [hline] at hts
      exact hplain (isPlainWord_of_first hts hfirst)

/-- **What is printed of derived terms reads back if and only if all names are plain.** -/
theorem parse_printedDerived_iff {derived : List (String × Term)}
    (h : ∀ d ∈ derived, d.2.isWellFormed = true) :
    Listing.parseStatements (printedDerived derived .text) =
        .ok ⟨derived.map statement, .statements⟩ ↔
      ∀ d ∈ derived, Text.isPlainWord d.1 = true := by
  rw [Listing.parseStatements_eq_ok, ← statements_printed_iff h {}, and_iff_right rfl]
  refine and_congr_right fun hfault ↦ ?_
  exact (statements_eq_ok_nil hfault).symm

/-! ### Contexts that the command loads -/

/-- Permissive components have no defaults. -/
theorem defaultsParsed_register {f : Factories} (h : f.DefaultsParsed) (family : Namespace)
    (name : String) : (f.register (.permissive family name)).DefaultsParsed := by
  intro p hp schema hschema
  rcases List.mem_append.1 hp with hp | hp
  · exact h p hp schema hschema
  · rw [List.mem_singleton.1 hp] at hschema
    cases hschema

theorem defaultsParsed_withFallback {f : Factories} (h : f.DefaultsParsed) (family : Namespace) :
    (f.withFallback family).DefaultsParsed := by
  rw [Factories.withFallback]
  split <;> exact h

/-- No component that the command makes has a default. -/
theorem Families.defaultsParsed (families : Families) : families.factories.DefaultsParsed := by
  refine List.foldlRecOn _ _ ?_ fun f hf ns _ ↦ defaultsParsed_withFallback hf ns
  refine List.foldlRecOn _ _ (Factories.defaultsParsed_standard []) fun f hf p hp ↦ ?_
  obtain ⟨family, -, hp⟩ := List.mem_flatMap.1 hp
  obtain ⟨name, -, rfl⟩ := List.mem_map.1 hp
  exact defaultsParsed_register hf family.1 name

/-- The context that the command has loaded from the bytes of a file. -/
def loaded (s : Settings) (bytes : ByteArray) : Context :=
  ((Context.empty 0 s.families.factories).loadBytes bytes).context

/-- Bytes are loaded as the text that they encode, or not at all. -/
theorem descended_loaded (s : Settings) (bytes : ByteArray) : (loaded s bytes).Descended := by
  have hempty := Context.Descended.empty 0 s.families.defaultsParsed
  rw [loaded, Context.loadBytes, Listing.parseBytes]
  cases String.fromUTF8? bytes with
  | none => exact hempty
  | some text => exact hempty.load text

/-- What is written of a listing is loaded as its entries. -/
theorem loaded_render (s : Settings) {l : Listing Term} (hl : l.isStatementList = true) :
    loaded s l.render.toUTF8 =
      ((Context.empty 0 s.families.factories).declareAll l.entries).context := by
  have hbytes : String.fromUTF8? l.render.toUTF8 = some l.render :=
    dif_pos (show l.render.toByteArray.IsValidUTF8 from l.render.isValidUTF8)
  rw [loaded, Context.loadBytes, Listing.parseBytes, hbytes]
  show (Context.loadRead _ (Listing.parseStatements l.render)).context = _
  rw [Listing.parseStatements_render_eq_ok.2 hl]
  rfl

/-! ### Deriving -/

variable {ctx : Context} {s : Settings} {ruleSet source stdout : String}

/-- What the command needs to derive something, and what it then prints. -/
theorem derive_eq_ok : derive ctx s ruleSet source = .ok stdout ↔
    ∃ rules kept extra derived, ctx.ruleSet? ruleSet = some rules ∧
      ctx.lookup? source = some kept ∧ s.bindings.mapM binding = .ok extra ∧
      (ctx.applyRules rules kept.toTerm (.ofList extra)).result = .ok derived ∧
      stdout = printedDerived derived s.format := by
  rw [derive]
  cases hrules : ctx.ruleSet? ruleSet with
  | none => exact ⟨nofun, fun ⟨_, _, _, _, h, _⟩ ↦ nomatch h⟩
  | some rules =>
    cases hkept : ctx.lookup? source with
    | none => exact ⟨nofun, fun ⟨_, _, _, _, _, h, _⟩ ↦ nomatch h⟩
    | some kept =>
      refine bind_eq_ok.trans ⟨?_, ?_⟩
      · rintro ⟨extra, hextra, h⟩
        obtain ⟨derived, hderived, h⟩ := bind_eq_ok.1 h
        exact ⟨rules, kept, extra, derived, rfl, rfl, hextra, hderived, (Except.ok.inj h).symm⟩
      · rintro ⟨_, _, extra, derived, hrules', hkept', hextra, hderived, rfl⟩
        cases hrules'
        cases hkept'
        exact ⟨extra, hextra, bind_eq_ok.2 ⟨derived, hderived, rfl⟩⟩

/-- Bindings are texts. -/
theorem isWellFormed_of_bindings {texts : List String} {extra : List (String × Term)}
    (h : texts.mapM binding = .ok extra) : ∀ e ∈ extra, e.2.isWellFormed = true := by
  induction texts generalizing extra with
  | nil =>
    cases h
    nofun
  | cons text texts ih =>
    rw [List.mapM_cons] at h
    obtain ⟨e, he, h⟩ := bind_eq_ok.1 h
    obtain ⟨es, hes, h⟩ := bind_eq_ok.1 h
    cases h
    refine List.forall_mem_cons.2 ⟨?_, ih hes⟩
    rw [binding] at he
    split at he
    · rw [← Except.ok.inj he]
      rfl
    · cases he

/-- **What the rules of a context derive can be written.** -/
theorem isWellFormed_of_applyRules (hctx : ctx.Descended) {rules : RuleSet} {kept : Kept}
    {extra : Binding} {derived : List (String × Term)} (hrules : ctx.ruleSet? ruleSet = some rules)
    (hkept : ctx.lookup? source = some kept) (hextra : extra.Legible)
    (hderived : (ctx.applyRules rules kept.toTerm extra).result = .ok derived) :
    ∀ d ∈ derived, d.2.isWellFormed = true := by
  obtain rfl := Context.eq_derived_of_applyRules hderived
  have hsource := hctx.legible.found _ _ kept (Context.find?_of_lookup? hkept)
  have hwritten : rules.toTerm.isWellFormed = true := by
    obtain ⟨k, hk, hcontent⟩ := Option.bind_eq_some_iff.1 hrules
    have hwritten := hctx.legible.found _ _ k hk
    split at hcontent
    · next rules' hrules' =>
      cases hcontent
      rwa [Kept.toTerm, hrules'] at hwritten
    · cases hcontent
  rintro ⟨name, t⟩ hd
  obtain ⟨rule, hrule, ht⟩ := RuleSet.mem_derived.1 hd
  exact hctx.legible.isWellFormed_of_apply hctx.reachable.coherent
    (RuleSet.isWellFormed_of_mem hwritten (RuleSet.get?_eq_some.1 hrule)) hsource hextra ht

/-- **What the command derives reads back if and only if all rules that yield something have plain
names.** Whatever file was loaded, if the command succeeds in printing as text what a rule set
derives from an entry with some bindings, the derived terms are those of the rule set in ascending
order of their rules' names, and what is printed denotes just the statements that give each term its
name, if each of these names is a plain word, and otherwise does not. -/
theorem output_reads_back_iff (bytes : ByteArray) (hformat : s.format = .text)
    (hruleSet : s.ruleSet? = some ruleSet) (hsource : s.source? = some source)
    (h : output (loaded s bytes) s = .ok stdout) :
    ∃ rules kept extra derived, (loaded s bytes).ruleSet? ruleSet = some rules ∧
      (loaded s bytes).lookup? source = some kept ∧ s.bindings.mapM binding = .ok extra ∧
      ((loaded s bytes).applyRules rules kept.toTerm (.ofList extra)).result = .ok derived ∧
      derived.Pairwise (fun d e ↦ d.1 < e.1) ∧
      (Listing.parseStatements stdout =
          .ok ⟨derived.map fun d ↦ ⟨.named d.1, [], d.2⟩, .statements⟩ ↔
        ∀ d ∈ derived, Text.isPlainWord d.1 = true) := by
  have hderive : derive (loaded s bytes) s ruleSet source = .ok stdout := by
    rw [output, hruleSet, hsource] at h
    exact h
  obtain ⟨rules, kept, extra, derived, hrules, hkept, hextra, hderived, rfl⟩ :=
    derive_eq_ok.1 hderive
  have hwritten := isWellFormed_of_applyRules (descended_loaded s bytes) hrules hkept
    (Binding.legible_ofList (isWellFormed_of_bindings hextra)) hderived
  refine ⟨rules, kept, extra, derived, hrules, hkept, hextra, hderived, ?_, ?_⟩
  · obtain rfl := Context.eq_derived_of_applyRules hderived
    exact RuleSet.derived_sorted rules
  · rw [hformat]
    exact parse_printedDerived_iff hwritten

/-- A file with a rule set `r` of one rule from `x` to `y`, and with a value `s` that is `x`. -/
def ruleFile (rule : String) : Listing Term :=
  ⟨[⟨.typed "rs" "r", [], .call "RuleSet" {}
      (some [⟨.typed "rule" rule, [], .rule (.text "x") (.text "y")⟩])⟩,
    ⟨.typed "value" "s", [], .text "x"⟩], .statements⟩

/-- The settings that ask what the rules of `r` derive from `s`. -/
def ruleSettings : Settings := { ruleSet? := some "r", source? := some "s" }

/-- What the rules of `r` derive from `s` in a context, if it has both. -/
def derived? (ctx : Context) : Option (List (String × Term)) := do
  let rules ← ctx.ruleSet? "r"
  let kept ← ctx.lookup? "s"
  (ctx.applyRules rules kept.toTerm (.ofList [])).result.toOption

/-- A rule with a plain name derives a line that reads back. -/
theorem output_reads_back_iff_plain :
    let ctx := loaded ruleSettings (ruleFile "n").render.toUTF8
    output ctx ruleSettings = .ok "n=\"y\";\n" ∧
      Listing.parseStatements "n=\"y\";\n" =
        .ok ⟨[⟨.named "n", [], .text "y"⟩], .statements⟩ := by
  intro ctx
  have hprints : output ctx ruleSettings = .ok "n=\"y\";\n" ∧
      derived? ctx = some [("n", .text "y")] := by
    rw [show ctx = _ from loaded_render ruleSettings (by decide)]
    decide +kernel
  obtain ⟨rules, kept, extra, derived, hrules, hkept, hextra, hderived, -, hreads⟩ :=
    output_reads_back_iff (ruleFile "n").render.toUTF8 rfl rfl rfl hprints.1
  obtain rfl : [] = extra := Except.ok.inj hextra
  obtain rfl : derived = [("n", .text "y")] := by
    have hsome : derived? ctx = some derived := by
      rw [derived?, hrules, hkept]
      exact congrArg Except.toOption hderived
    exact Option.some.inj (hsome.symm.trans hprints.2)
  exact ⟨hprints.1, hreads.2 (by decide)⟩

/-- **A rule with a blank in its name derives a line that does not read back** as what it is meant
for: the first part of the name is read as a declaration type. -/
theorem not_output_reads_back :
    let ctx := loaded ruleSettings (ruleFile "a b").render.toUTF8
    output ctx ruleSettings = .ok "a b=\"y\";\n" ∧ derived? ctx = some [("a b", .text "y")] ∧
      Listing.parseStatements "a b=\"y\";\n" =
        .ok ⟨[⟨.typed "a" "b", [], .text "y"⟩], .statements⟩ ∧
      Listing.parseStatements "a b=\"y\";\n" ≠
        .ok ⟨[⟨.named "a b", [], .text "y"⟩], .statements⟩ := by
  intro ctx
  have hprints : output ctx ruleSettings = .ok "a b=\"y\";\n" ∧
      derived? ctx = some [("a b", .text "y")] := by
    rw [show ctx = _ from loaded_render ruleSettings (by decide)]
    decide +kernel
  have hreads : Listing.parseStatements "a b=\"y\";\n" =
      .ok ⟨[⟨.typed "a" "b", [], .text "y"⟩], .statements⟩ :=
    Listing.parseStatements_render_eq_ok (l := ⟨[⟨.typed "a" "b", [], .text "y"⟩], .statements⟩).2
      (by decide)
  refine ⟨hprints.1, hprints.2, hreads, ?_⟩
  rw [hreads]
  decide

end CommandLine

end TermRegistry
