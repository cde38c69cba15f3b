import TermRegistry.Proofs.Grammar
import TermRegistry.Proofs.Parsing.Outcome
import TermRegistry.Proofs.Success

/-!
# The parser reads phrases only

What a parsing function takes off the tokens is a phrase of the grammar, with what it denotes. A
function that is called behind the beginning of a phrase yields a phrase together with any such
beginning: `chain` behind a primary, `called` behind a word, `moreItems` behind a value.

The functions call each other, so this is one mutual induction. Its measure is that of the functions
themselves: the number of tokens left, and among calls on the same tokens their nesting.
-/

namespace TermRegistry.Parse.Outcome

variable {e : Ending}

/-- Words in front of a heading, given in reverse, are words of its label. -/
theorem heading_sound {ts rest : List Located} {words : List String} {label : Label}
    {modifiers : List String} (h : heading e words ts = .ok ((label, modifiers), rest)) :
    ∃ ls, ts = ls ++ rest ∧ ∀ ws : List Token, ws.map Token.text? = words.reverse.map some →
      Heading (ws ++ ls.map (·.token)) label modifiers := by
  induction ts generalizing words with
  | nil =>
    obtain ⟨t, vs, hts, -⟩ := eq_cons_of_heading h
    cases hts
  | cons t ts ih =>
    obtain ⟨t, vs, hts, ⟨word, hword⟩ | ⟨hequals, hlabel, rfl⟩⟩ := eq_cons_of_heading h
    · cases hts
      rw [heading_word hword] at h
      obtain ⟨ls, rfl, hls⟩ := ih h
      -- The word is handed on as the last of those in front.
      refine ⟨t :: ls, rfl, fun ws hws ↦ ?_⟩
      have := hls (ws ++ [t.token]) (by
        rw [List.map_append, hws, List.reverse_cons, List.map_append, List.map_singleton,
          List.map_singleton, hword])
      rwa [List.append_assoc] at this
    · cases hts
      refine ⟨[t], rfl, fun ws hws ↦ ?_⟩
      rw [List.map_singleton, hequals]
      cases words with
      | nil => cases hlabel
      | cons name words =>
        cases words with
        | nil =>
          cases hlabel
          obtain ⟨w, rfl, hw⟩ := List.map_eq_singleton_iff.1 hws
          exact .named hw
        | cons type words =>
          cases hlabel
          rw [List.reverse_cons, List.reverse_cons, List.append_assoc, List.map_append] at hws
          obtain ⟨ws, vs, rfl, h₁, h₂⟩ := List.map_eq_append_iff.1 hws
          obtain ⟨v, vs, rfl, h₃, h₄⟩ := List.map_eq_cons_iff.1 h₂
          obtain ⟨w, rfl, h₅⟩ := List.map_eq_singleton_iff.1 h₄
          rw [List.append_assoc]
          exact .typed h₁ h₃ h₅

mutual

/-- **What is read as a value is one.** -/
theorem value_sound {ts rest : List Located} {t : Term} (h : value e ts = .ok (t, rest)) :
    ∃ ls, ts = ls ++ rest ∧ Derives (ls.map (·.token)) (.value t) := by
  rw [value_eq] at h
  obtain ⟨⟨f, us⟩, hf, hc⟩ := bind_eq_ok.1 h
  have hlt : us.length < ts.length := length_lt hf
  obtain ⟨ls, hts, hls⟩ := primary_sound hf
  obtain ⟨ms, hus, hms⟩ := chain_sound hc
  refine ⟨ls ++ ms, by rw [hts, hus, List.append_assoc], ?_⟩
  rw [List.map_append]
  exact hms _ hls
termination_by (ts.length, 1)

/-- What follows a primary makes a value together with it. -/
theorem chain_sound {ts rest : List Located} {first t : Term}
    (h : chain e first ts = .ok (t, rest)) :
    ∃ ls, ts = ls ++ rest ∧ ∀ w, Derives w (.primary first) →
      Derives (w ++ ls.map (·.token)) (.value t) := by
  rw [chain_eq] at h
  obtain ⟨found, hfound, h⟩ := bind_eq_ok.1 h
  cases found with
  | none =>
    cases h
    refine ⟨[], rfl, fun w hw ↦ ?_⟩
    rw [List.map_nil, List.append_nil]
    exact .single hw
  | some us =>
    obtain ⟨⟨g, vs⟩, hg, h⟩ := map_eq_ok.1 h
    cases h
    obtain ⟨p, hts⟩ := eq_cons_of_taking hfound
    have hlt : us.length < ts.length := hts ▸ Nat.lt_succ_self _
    obtain ⟨ls, hus, hls⟩ := value_sound hg
    exact ⟨⟨.compose, p⟩ :: ls, by rw [hts, hus]; rfl, fun w hw ↦ .composition hw hls⟩
termination_by (ts.length, 0)

/-- **What is read as a primary is one.** -/
theorem primary_sound {ts rest : List Located} {t : Term} (h : primary e ts = .ok (t, rest)) :
    ∃ ls, ts = ls ++ rest ∧ Derives (ls.map (·.token)) (.primary t) := by
  cases ts with
  | nil =>
    rw [primary, Parse.primary] at h
    cases h
  | cons k ts =>
    obtain ⟨token, p⟩ := k
    -- By the first token, which tells what kind of primary is read.
    cases token with
    | word s | quoted s =>
      rw [primary_word rfl] at h
      obtain ⟨ls, hts, hls⟩ := called_sound h
      exact ⟨_ :: ls, by rw [hts]; rfl, hls _ rfl⟩
    | dollar =>
      rw [primary_dollar] at h
      obtain ⟨⟨_, us⟩, hus, h⟩ := bind_eq_ok.1 h
      obtain ⟨⟨name, vs⟩, hvs, h⟩ := bind_eq_ok.1 h
      obtain ⟨⟨_, ws⟩, hws, h⟩ := bind_eq_ok.1 h
      cases h
      obtain ⟨q, rfl⟩ := eq_cons_of_expect hus
      obtain ⟨k, hk, rfl⟩ := eq_cons_of_referenceName hvs
      obtain ⟨r, rfl⟩ := eq_cons_of_expect hws
      exact ⟨[⟨.dollar, p⟩, ⟨.leftBrace, q⟩, k, ⟨.rightBrace, r⟩], rfl, .reference hk⟩
    | leftBracket =>
      rw [primary_bracket] at h
      obtain ⟨ls, hts, hls⟩ := bracketed_sound h
      exact ⟨⟨.leftBracket, p⟩ :: ls, by rw [hts]; rfl, hls⟩
    | leftParen =>
      rw [primary_paren] at h
      obtain ⟨⟨s, us⟩, hs, h⟩ := bind_eq_ok.1 h
      obtain ⟨⟨_, vs⟩, hvs, h⟩ := bind_eq_ok.1 h
      have hlt : us.length < ts.length := length_lt hs
      obtain ⟨ls, hts, hls⟩ := value_sound hs
      obtain ⟨q, hus⟩ := eq_cons_of_expect hvs
      have hvlt : vs.length < us.length := hus ▸ Nat.lt_succ_self _
      obtain ⟨ms, hms, hderives⟩ := target_sound h
      exact ⟨⟨.leftParen, p⟩ :: (ls ++ ⟨.rightParen, q⟩ :: ms), by rw [hts, hus, hms]; simp,
        by rw [List.map_cons, List.map_append]; exact hderives _ hls⟩
    | _ =>
      rw [primary, Parse.primary] at h
      cases h
termination_by (ts.length, 0)

/-- What follows a value in parentheses makes a primary together with it. -/
theorem target_sound {ts rest : List Located} {s t : Term} (h : target e s ts = .ok (t, rest)) :
    ∃ ls, ts = ls ++ rest ∧ ∀ w, Derives w (.value s) →
      Derives (.leftParen :: (w ++ .rightParen :: ls.map (·.token))) (.primary t) := by
  rw [target] at h
  obtain ⟨found, hfound, h⟩ := bind_eq_ok.1 h
  cases found with
  | none =>
    cases h
    exact ⟨[], rfl, fun w hw ↦ .parenthesized hw⟩
  | some us =>
    obtain ⟨⟨_, vs⟩, hvs, h⟩ := bind_eq_ok.1 h
    obtain ⟨⟨u, ws⟩, hu, h⟩ := bind_eq_ok.1 h
    obtain ⟨⟨_, xs⟩, hxs, h⟩ := bind_eq_ok.1 h
    cases h
    obtain ⟨p, hts⟩ := eq_cons_of_taking hfound
    obtain ⟨q, hus⟩ := eq_cons_of_expect hvs
    have hlt : vs.length < ts.length := by rw [hts, hus]; exact Nat.lt_add_of_pos_right Nat.two_pos
    obtain ⟨ls, hvs, hls⟩ := value_sound hu
    obtain ⟨r, hws⟩ := eq_cons_of_expect hxs
    refine ⟨⟨.arrow, p⟩ :: ⟨.leftParen, q⟩ :: (ls ++ [⟨.rightParen, r⟩]),
      by rw [hts, hus, hvs, hws]; simp, fun w hw ↦ ?_⟩
    have := Derives.rule hw hls
    simpa using this
termination_by (ts.length, 0)

/-- What follows a word makes a primary together with it. -/
theorem called_sound {ts rest : List Located} {name : String} {t : Term}
    (h : called e name ts = .ok (t, rest)) :
    ∃ ls, ts = ls ++ rest ∧ ∀ k : Token, k.text? = some name →
      Derives (k :: ls.map (·.token)) (.primary t) := by
  rw [called_eq] at h
  obtain ⟨found, hfound, h⟩ := bind_eq_ok.1 h
  cases found with
  | none =>
    cases h
    exact ⟨[], rfl, fun k hk ↦ .text hk⟩
  | some us =>
    obtain ⟨⟨l, vs⟩, hl, h⟩ := bind_eq_ok.1 h
    obtain ⟨⟨_, ws⟩, hws, h⟩ := bind_eq_ok.1 h
    obtain ⟨p, hts⟩ := eq_cons_of_taking hfound
    have hlt : us.length < ts.length := hts ▸ Nat.lt_succ_self _
    obtain ⟨ls, hus, hform, hls⟩ := parameters_sound hl
    obtain ⟨q, hvs⟩ := eq_cons_of_expect hws
    have hwlt : ws.length < ts.length := by
      rw [hts, hus, hvs]
      simp only [List.length_cons, List.length_append]
      omega
    obtain ⟨ms, hms, hderives⟩ := internal_sound h
    refine ⟨⟨.leftParen, p⟩ :: (ls ++ ⟨.rightParen, q⟩ :: ms),
      by rw [hts, hus, hvs, hms]; simp, fun k hk ↦ ?_⟩
    rw [List.map_cons, List.map_append]
    exact hderives k _ hk hform hls
termination_by (ts.length, 0)

/-- What follows the parameters of a call makes a call together with them. -/
theorem internal_sound {ts rest : List Located} {name : String} {l : Listing Term} {t : Term}
    (h : internal e name l ts = .ok (t, rest)) :
    ∃ ls, ts = ls ++ rest ∧ ∀ (k : Token) (w : List Token), k.text? = some name →
      l.form = .parameters → Derives w (.parameters l.entries) →
        Derives (k :: .leftParen :: (w ++ .rightParen :: ls.map (·.token))) (.primary t) := by
  obtain ⟨es, form⟩ := l
  rw [internal] at h
  obtain ⟨found, hfound, h⟩ := bind_eq_ok.1 h
  cases found with
  | none =>
    cases h
    refine ⟨[], rfl, ?_⟩
    rintro k w hk rfl hw
    exact .call hk hw
  | some us =>
    obtain ⟨⟨inside, vs⟩, hinside, h⟩ := bind_eq_ok.1 h
    obtain ⟨⟨_, ws⟩, hws, h⟩ := bind_eq_ok.1 h
    cases h
    obtain ⟨p, hts⟩ := eq_cons_of_taking hfound
    have hlt : us.length < ts.length := hts ▸ Nat.lt_succ_self _
    obtain ⟨ls, hus, hls⟩ := statements_sound hinside
    obtain ⟨q, hvs⟩ := eq_cons_of_expect hws
    refine ⟨⟨.leftBrace, p⟩ :: (ls ++ [⟨.rightBrace, q⟩]), by rw [hts, hus, hvs]; simp, ?_⟩
    rintro k w hk rfl hw
    have := Derives.callWith hk hw hls
    simpa using this
termination_by (ts.length, 0)

/-- What follows an opening bracket makes an array or a capture together with it. -/
theorem bracketed_sound {ts rest : List Located} {t : Term} (h : bracketed e ts = .ok (t, rest)) :
    ∃ ls, ts = ls ++ rest ∧ Derives (.leftBracket :: ls.map (·.token)) (.primary t) := by
  rw [bracketed_eq] at h
  obtain ⟨found, hfound, h⟩ := bind_eq_ok.1 h
  cases found with
  | none => exact captureOrItems_sound h
  | some us =>
    cases h
    obtain ⟨p, rfl⟩ := eq_cons_of_taking hfound
    exact ⟨[⟨.rightBracket, p⟩], rfl, .emptyArray⟩
termination_by (ts.length, 4)

/-- So does what follows a bracket that is not closed at once. -/
theorem captureOrItems_sound {ts rest : List Located} {t : Term}
    (h : captureOrItems e ts = .ok (t, rest)) :
    ∃ ls, ts = ls ++ rest ∧ Derives (.leftBracket :: ls.map (·.token)) (.primary t) := by
  by_cases hfirst : ∃ word p us, ts = ⟨.word word, p⟩ :: us
  · obtain ⟨word, p, us, hts⟩ := hfirst
    rw [hts, captureOrItems_word] at h
    obtain ⟨found, hfound, h⟩ := bind_eq_ok.1 h
    cases found with
    | some vs =>
      cases h
      obtain ⟨q, rfl⟩ := eq_cons_of_taking hfound
      exact ⟨[⟨.word word, p⟩, ⟨.rightBracket, q⟩], hts, .capture word⟩
    | none =>
      obtain ⟨⟨items, ws⟩, hitems, h⟩ := map_eq_ok.1 h
      cases h
      rw [← hts] at hitems
      obtain ⟨ls, q, hls, hderives⟩ := items_sound hitems
      refine ⟨ls ++ [⟨.rightBracket, q⟩], by rw [hls]; simp, ?_⟩
      rw [List.map_append]
      refine .array hderives fun name hname ↦ ?_
      -- a single word would stand right in front of the bracket, and so be a capture
      obtain ⟨w, rfl, -⟩ := List.map_eq_singleton_iff.1 hname
      rw [hls] at hts
      have hus : us = ⟨.rightBracket, q⟩ :: rest := (List.cons.inj hts).2.symm
      rw [hus, taking_cons, if_pos rfl] at hfound
      cases hfound
  · rw [captureOrItems_eq fun word p us hts ↦ hfirst ⟨word, p, us, hts⟩] at h
    obtain ⟨⟨items, ws⟩, hitems, h⟩ := map_eq_ok.1 h
    cases h
    obtain ⟨ls, q, hls, hderives⟩ := items_sound hitems
    refine ⟨ls ++ [⟨.rightBracket, q⟩], by rw [hls]; simp, ?_⟩
    rw [List.map_append]
    refine .array hderives fun name hname ↦ ?_
    obtain ⟨⟨_, p⟩, rfl, rfl⟩ := List.map_eq_singleton_iff.1 hname
    exact hfirst ⟨name, p, _, hls⟩
termination_by (ts.length, 3)

/-- What is read as items is, up to the closing bracket. -/
theorem items_sound {ts rest : List Located} {items : List Term}
    (h : Outcome.items e ts = .ok (items, rest)) :
    ∃ ls p, ts = ls ++ ⟨.rightBracket, p⟩ :: rest ∧ Derives (ls.map (·.token)) (.items items) := by
  rw [Outcome.items] at h
  obtain ⟨⟨t, us⟩, ht, h⟩ := bind_eq_ok.1 h
  obtain ⟨⟨others, vs⟩, hothers, h⟩ := map_eq_ok.1 h
  cases h
  have hlt : us.length < ts.length := length_lt ht
  obtain ⟨ls, hts, hls⟩ := value_sound ht
  obtain ⟨ms, p, hus, hms⟩ := moreItems_sound hothers
  refine ⟨ls ++ ms, p, by rw [hts, hus, List.append_assoc], ?_⟩
  rw [List.map_append]
  exact hms _ _ hls
termination_by (ts.length, 2)

/-- What follows an item makes items together with it. -/
theorem moreItems_sound {ts rest : List Located} {others : List Term}
    (h : moreItems e ts = .ok (others, rest)) :
    ∃ ls p, ts = ls ++ ⟨.rightBracket, p⟩ :: rest ∧ ∀ w t, Derives w (.value t) →
      Derives (w ++ ls.map (·.token)) (.items (t :: others)) := by
  obtain ⟨p, us, hts | hts⟩ := eq_cons_of_moreItems h
  · rw [hts, moreItems_comma] at h
    have hlt : us.length < ts.length := hts ▸ Nat.lt_succ_self _
    obtain ⟨ls, q, hus, hls⟩ := items_sound h
    exact ⟨⟨.comma, p⟩ :: ls, q, by rw [hts, hus]; rfl, fun w t ht ↦ .moreItems ht hls⟩
  · rw [hts, moreItems_close] at h
    cases h
    refine ⟨[], p, hts, fun w t ht ↦ ?_⟩
    rw [List.map_nil, List.append_nil]
    exact .item ht
termination_by (ts.length, 0)

/-- **What is read as parameters is**, none included. -/
theorem parameters_sound {ts rest : List Located} {l : Listing Term}
    (h : parameters e ts = .ok (l, rest)) :
    ∃ ls, ts = ls ++ rest ∧ l.form = .parameters ∧
      Derives (ls.map (·.token)) (.parameters l.entries) := by
  rw [parameters_eq] at h
  obtain ⟨k, -, h⟩ := bind_eq_ok.1 h
  split at h
  · cases h
    exact ⟨[], rfl, rfl, .noParameters⟩
  · obtain ⟨ls, es, hts, rfl, -, -, hls⟩ := moreParameters_sound h rfl (.inl nofun)
    exact ⟨ls, hts, rfl, hls⟩
termination_by (ts.length, 4)

/-- What is read behind some parameters is more of them, and all go together. -/
theorem moreParameters_sound {ts rest : List Located} {before l : Listing Term}
    (h : moreParameters e before ts = .ok (l, rest)) (hform : before.form = .parameters)
    (hu : Listing.Uniform before.entries) :
    ∃ ls es, ts = ls ++ rest ∧ l = ⟨before.entries ++ es, .parameters⟩ ∧
      Listing.Uniform l.entries ∧ es ≠ [] ∧ Derives (ls.map (·.token)) (.parameters es) := by
  rw [moreParameters_eq] at h
  obtain ⟨⟨entry, us⟩, hentry, h⟩ := bind_eq_ok.1 h
  have hlt : us.length < ts.length := length_lt hentry
  obtain ⟨ls, hts, hls⟩ := parameter_sound hentry
  cases hpush : before.push? entry with
  | none =>
    simp only [hpush] at h
    cases h
  | some list =>
    simp only [hpush] at h
    have hlist := Listing.eq_of_push? hpush hls.untyped.1
    rw [hform] at hlist
    have hulist := Listing.push?_uniform hu hpush
    obtain ⟨found, hfound, h⟩ := bind_eq_ok.1 h
    cases found with
    | none =>
      cases h
      exact ⟨ls, [entry], hts, hlist, hulist, List.cons_ne_nil _ _, .lastParameter hls⟩
    | some vs =>
      obtain ⟨p, hus⟩ := eq_cons_of_taking hfound
      have hvlt : vs.length < us.length := hus ▸ Nat.lt_succ_self _
      obtain ⟨ms, es, hvs, hl, hul, hne, hms⟩ := moreParameters_sound h (by rw [hlist]) hulist
      have hentries : l.entries = before.entries ++ entry :: es := by
        rw [hl, hlist, List.append_assoc, List.singleton_append]
      refine ⟨ls ++ ⟨.comma, p⟩ :: ms, entry :: es, by rw [hts, hus, hvs]; simp, ?_, hul,
        List.cons_ne_nil _ _, ?_⟩
      · rw [← hentries, hl]
      -- All labels read so far are uniform together, so those behind this comma are.
      · obtain ⟨d, ds, rfl⟩ := List.exists_cons_of_ne_nil hne
        rw [List.map_append]
        refine .moreParameters hls hms (hul.mono ?_)
        rw [hentries]
        exact List.subset_append_right _ _
termination_by (ts.length, 3)

/-- What is read as a parameter is one. -/
theorem parameter_sound {ts rest : List Located} {entry : Entry Term}
    (h : parameter e ts = .ok (entry, rest)) :
    ∃ ls, ts = ls ++ rest ∧ Derives (ls.map (·.token)) (.parameter entry) := by
  rw [parameter_eq] at h
  obtain ⟨⟨first, us⟩, hfirst, h⟩ := bind_eq_ok.1 h
  obtain ⟨found, hfound, h⟩ := bind_eq_ok.1 h
  have hlt : us.length < ts.length := length_lt hfirst
  obtain ⟨ls, hts, hls⟩ := value_sound hfirst
  cases found with
  | none =>
    cases h
    exact ⟨ls, hts, .positional hls⟩
  | some vs =>
    obtain ⟨p, hus⟩ := eq_cons_of_taking hfound
    have hvlt : vs.length < us.length := hus ▸ Nat.lt_succ_self _
    -- Only a text in front of the equals sign is accepted as a name.
    cases first with
    | text name =>
      obtain ⟨⟨t, ws⟩, ht, h⟩ := map_eq_ok.1 h
      cases h
      obtain ⟨ms, hvs, hms⟩ := value_sound ht
      refine ⟨ls ++ ⟨.equals, p⟩ :: ms, by rw [hts, hus, hvs]; simp, ?_⟩
      rw [List.map_append]
      exact .named hls hms
    | _ => cases h
termination_by (ts.length, 2)

/-- **What is read as statements is.** -/
theorem statements_sound {ts rest : List Located} {es : List (Entry Term)}
    (h : statements e ts = .ok (es, rest)) :
    ∃ ls, ts = ls ++ rest ∧ Derives (ls.map (·.token)) (.statements es) := by
  rw [statements_eq] at h
  obtain ⟨k, -, h⟩ := bind_eq_ok.1 h
  split at h
  · cases h
    exact ⟨[], rfl, .noStatements⟩
  · obtain ⟨⟨⟨label, modifiers⟩, us⟩, hlabel, h⟩ := bind_eq_ok.1 h
    obtain ⟨⟨t, vs⟩, ht, h⟩ := bind_eq_ok.1 h
    have hlt : us.length < ts.length := length_lt hlabel
    have hvlt : vs.length < us.length := length_lt ht
    obtain ⟨ls, hts, hls⟩ := heading_sound hlabel
    have hheading := hls [] rfl
    obtain ⟨ms, hus, hms⟩ := value_sound ht
    simp only [moreStatements] at h
    obtain ⟨found, hfound, h⟩ := bind_eq_ok.1 h
    -- Without a semicolon this was the last statement.
    cases found with
    | none =>
      obtain ⟨k, -, h⟩ := bind_eq_ok.1 h
      split at h
      · cases h
        refine ⟨ls ++ ms, by rw [hts, hus, List.append_assoc], ?_⟩
        rw [List.map_append]
        exact .lastStatement hheading hms
      · cases h
    | some ws =>
      obtain ⟨⟨others, xs⟩, hothers, h⟩ := map_eq_ok.1 h
      cases h
      obtain ⟨p, hvs⟩ := eq_cons_of_taking hfound
      have hwlt : ws.length < vs.length := hvs ▸ Nat.lt_succ_self _
      obtain ⟨os, hws, hos⟩ := statements_sound hothers
      refine ⟨ls ++ ms ++ ⟨.semicolon, p⟩ :: os, by rw [hts, hus, hvs, hws]; simp, ?_⟩
      rw [List.map_append, List.map_append]
      exact .moreStatements hheading hms hos
termination_by (ts.length, 2)

end

end TermRegistry.Parse.Outcome
