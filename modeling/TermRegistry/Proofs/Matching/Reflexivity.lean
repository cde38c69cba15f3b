import TermRegistry.Proofs.Matching.Correctness
import TermRegistry.Proofs.RoundTrip

/-!
# Terms that match themselves

A term is matched with itself part by part, and a reference meets the reference that it is: the
storage is never asked. Two things can go wrong all the same.

* A named entry of the pattern meets the candidate's *first* entry of its name. If a name has two
  values, the second one is matched with the first one, and not with itself.
* A capture and a reference of one name share the one place that a binding has for the name. A
  reference notes itself unless something stands there, but a capture must find itself or nothing.

Without the first, the second decides (`Term.matching_self`): a term matches itself just when each
of its captures stands before all references of the same name.

**Design.** A binding that arises in matching a term with itself holds, for each name, the first
capture or reference of the name that was met. `Matching.Recorded` says this about a computation,
together with when it succeeds. It is handed on from step to step, so the induction on the depth has
one statement to prove for success and failure at once.
-/

namespace TermRegistry

/-! ### Captures and references of one name -/

namespace Term

/-- The name that a capture or a reference takes up in a binding. -/
def mark? : Term → Option String
  | reference name | capture name => some name
  | _ => none

/-- The first capture or reference of a name among some terms. -/
def firstMarkAmong? (ts : List Term) (name : String) : Option Term :=
  ts.find? (·.mark? == some name)

/-- **The first capture or reference of a name** in a term. -/
def firstMark? (t : Term) (name : String) : Option Term := firstMarkAmong? t.exposed name

/-- Whether each capture among some terms stands before all references of its name. -/
def CapturesLeadAmong (ts : List Term) : Prop :=
  ∀ name ∈ ts.filterMap capture?, firstMarkAmong? ts name = some (capture name)

/-- **Captures lead**: each capture stands before all references of the same name. -/
def CapturesLead (t : Term) : Prop := CapturesLeadAmong t.exposed

instance (t : Term) : Decidable t.CapturesLead :=
  inferInstanceAs (Decidable (∀ name ∈ t.exposed.filterMap capture?, _))

/-- **Unambiguous terms**: entries of the same name have the same value wherever a listing is
exposed in the term. -/
def IsUnambiguous (t : Term) : Prop := ∀ u ∈ t.exposed, Listing.Unambiguous u.entries

instance (t : Term) : Decidable t.IsUnambiguous :=
  inferInstanceAs (Decidable (∀ u ∈ t.exposed, _))

section

variable {t u v : Term} {ts us : List Term} {name : String}

theorem mark?_of_isConcrete (h : t.isConcrete = true) : t.mark? = none := by
  cases t with
  | reference | capture => cases h
  | _ => rfl

theorem capture?_of_isConcrete (h : t.isConcrete = true) : t.capture? = none :=
  Option.isNone_iff_eq_none.1 (Bool.and_eq_true_iff.1 h).2

/-- What stands behind a first capture or reference does not change it. -/
theorem firstMarkAmong?_append_of_some (h : firstMarkAmong? ts name = some u) (us : List Term) :
    firstMarkAmong? (ts ++ us) name = some u := by
  rw [firstMarkAmong?, List.find?_append]
  exact (congrArg (Option.or · _) h).trans Option.some_or

/-- One more capture or reference counts for its name, if that had none. -/
theorem firstMarkAmong?_append_mark (h : t.mark? = some name) (n : String) :
    firstMarkAmong? (ts ++ [t]) n =
      if n = name then some ((firstMarkAmong? ts name).getD t) else firstMarkAmong? ts n := by
  rw [firstMarkAmong?, List.find?_append, List.find?_singleton, h]
  by_cases hn : n = name
  · rw [hn, beq_self_eq_true, if_pos rfl, if_pos rfl]
    exact Option.or_some
  · have hne : ¬ (some name == some n) = true := by simpa using Ne.symm hn
    rw [if_neg hne, if_neg hn]
    exact Option.or_none

/-- Further terms without a name of their own do not count. -/
theorem firstMarkAmong?_append_concrete (h : t.isConcrete = true) :
    firstMarkAmong? (ts ++ [t]) name = firstMarkAmong? ts name := by
  rw [firstMarkAmong?, List.find?_append, List.find?_singleton, mark?_of_isConcrete h]
  exact Option.or_none

/-- The names of the captures among some terms. -/
theorem mem_filterMap_capture? : name ∈ ts.filterMap capture? ↔ capture name ∈ ts := by
  rw [List.mem_filterMap]
  constructor
  · rintro ⟨u, hu, hname⟩
    cases u with
    | capture => exact Option.some.inj hname ▸ hu
    | _ => cases hname
  · exact fun h ↦ ⟨capture name, h, rfl⟩

/-- Captures that lead do so in front of further terms. -/
theorem CapturesLeadAmong.of_append (h : CapturesLeadAmong (ts ++ us)) : CapturesLeadAmong ts := by
  intro name hname
  have hmem := mem_filterMap_capture?.1 hname
  have hlead := h name (mem_filterMap_capture?.2 (List.mem_append_left us hmem))
  cases hfirst : firstMarkAmong? ts name with
  | none =>
    -- The capture itself would have been found.
    have := List.find?_eq_none.1 hfirst _ hmem
    simp [mark?] at this
  | some u => rw [← hlead, firstMarkAmong?_append_of_some hfirst]

/-- One more term that is no capture leaves the captures where they lead. -/
theorem capturesLeadAmong_append (h : t.capture? = none) :
    CapturesLeadAmong (ts ++ [t]) ↔ CapturesLeadAmong ts := by
  refine ⟨.of_append, fun hts n hn ↦ ?_⟩
  rcases List.mem_append.1 (mem_filterMap_capture?.1 hn) with hmem | hmem
  · exact firstMarkAmong?_append_of_some (hts n (mem_filterMap_capture?.2 hmem)) _
  · rw [← List.mem_singleton.1 hmem] at h
    cases h

/-- One more capture leads if it is the first of its name, or the name was captured before. -/
theorem capturesLeadAmong_append_capture (hts : CapturesLeadAmong ts) :
    CapturesLeadAmong (ts ++ [capture name]) ↔
      (firstMarkAmong? ts name).getD (capture name) = capture name := by
  have hlast : firstMarkAmong? (ts ++ [capture name]) name =
      some ((firstMarkAmong? ts name).getD (capture name)) :=
    (firstMarkAmong?_append_mark rfl name).trans (if_pos rfl)
  constructor
  · intro h
    have hlead := h name (mem_filterMap_capture?.2 (List.mem_append_right ts List.mem_cons_self))
    exact Option.some.inj (hlast.symm.trans hlead)
  · intro h n hn
    rcases List.mem_append.1 (mem_filterMap_capture?.1 hn) with hmem | hmem
    · exact firstMarkAmong?_append_of_some (hts n (mem_filterMap_capture?.2 hmem)) _
    · cases List.mem_singleton.1 hmem
      exact hlast.trans (congrArg some h)

/-- Of a term that is neither, only what is exposed in its parts counts. -/
theorem capturesLead_iff (h : t.isConcrete = true) :
    t.CapturesLead ↔ CapturesLeadAmong (t.parts.flatMap exposed) := by
  have hfirst (ts : List Term) (name : String) :
      firstMarkAmong? (t :: ts) name = firstMarkAmong? ts name := by
    rw [firstMarkAmong?, List.find?_cons, mark?_of_isConcrete h]
    rfl
  rw [CapturesLead, exposed_eq, CapturesLeadAmong, CapturesLeadAmong,
    List.filterMap_cons_none (capture?_of_isConcrete h)]
  exact forall₂_congr fun name _ ↦ by rw [hfirst]

/-- The parts of an unambiguous term are unambiguous. -/
theorem IsUnambiguous.part (h : t.IsUnambiguous) (hv : v ∈ t.parts) : v.IsUnambiguous :=
  fun u hu ↦ h u (mem_exposed_of_part hv hu)

/-- So are its own entries. -/
theorem IsUnambiguous.entries (h : t.IsUnambiguous) : Listing.Unambiguous t.entries :=
  h t (mem_exposed.2 (.inl rfl))

/-! ### What can be written -/

/-- The parts of a term that can be written can be written. -/
theorem isWellFormed_part (h : t.isWellFormed = true) (hv : v ∈ t.parts) :
    v.isWellFormed = true := by
  have hentries {es : List (Entry Term)} (hes : entriesWellFormed es = true)
      (hv : v ∈ es.map (·.value)) : v.isWellFormed = true := by
    obtain ⟨e, he, rfl⟩ := List.mem_map.1 hv
    rw [entriesWellFormed_eq] at hes
    exact List.all_eq_true.1 hes e he
  cases t with
  | array items =>
    rw [isWellFormed, allWellFormed_eq] at h
    exact List.all_eq_true.1 h v hv
  | listing => cases h
  | call name l internal =>
    cases internal with
    | none =>
      rw [isWellFormed, Bool.and_eq_true] at h
      exact hentries h.2 hv
    | some es =>
      simp only [isWellFormed, Bool.and_eq_true] at h
      exact hentries h.1.1.2 hv
  | rule source target =>
    rw [isWellFormed, Bool.and_eq_true] at h
    rcases List.mem_pair.1 hv with rfl | rfl
    · exact h.1
    · exact h.2
  | text | reference | capture => cases hv

/-- The parameters of a call that can be written are all named or all positional. -/
theorem uniform_of_isWellFormed (h : t.isWellFormed = true) : Listing.Uniform t.entries := by
  cases t with
  | call name l internal =>
    cases internal with
    | none =>
      simp only [isWellFormed, Listing.areParameters, Bool.and_eq_true] at h
      exact of_decide_eq_true h.1.2.2
    | some es =>
      simp only [isWellFormed, Listing.areParameters, Bool.and_eq_true] at h
      exact of_decide_eq_true h.1.1.1.2.2
  | listing => cases h
  | _ => exact .inl (List.forall_mem_nil _)

end

end Term

/-! ### One run -/

namespace Matching

open Term

variable {resolve : String → Option Term} {step : Step} {p c t : Term} {ts us : List Term}
  {b : Binding} {ds : List (Term × Term)} {depth : Nat}

/-- Named entries whose partners are known are matched pair by pair. -/
theorem matchNamed_eq {c : Listing Term} {es : List (Entry Term)}
    (h : c.besideNamed es = some ds) (b : Binding) :
    matchNamed step c es b = matchPairs step ds b := by
  induction es generalizing ds b with
  | nil =>
    cases h
    rfl
  | cons e es ih =>
    obtain ⟨v, rest, hv, hrest, rfl⟩ := Listing.besideNamed_cons_eq_some.1 h
    rw [matchNamed, hv, matchPairs_cons, funext (ih hrest)]
    rfl

/-- Listings whose pairs are known are matched pair by pair, whatever comes out. -/
theorem matchListing_eq {p c : Listing Term} (h : p.pairing c = some ds) (b : Binding) :
    matchListing step p c b = matchPairs step ds b := by
  -- The two definitions ask the same questions in the same order.
  rw [Listing.pairing] at h
  rw [matchListing]
  split at h
  · cases h
  · next hsize =>
    rw [if_neg hsize]
    split at h
    · next hempty =>
      cases h
      exact if_pos hempty
    · next hempty =>
      rw [if_neg hempty]
      split at h
      · cases h
      · next hnamed =>
        rw [if_neg hnamed]
        split at h
        · next hp =>
          rw [if_pos hp]
          exact matchNamed_eq h b
        · next hp =>
          cases h
          rw [if_neg hp]
          exact matchAll_eq step _ _ b

/-- **Shapes whose pairs are known** are matched pair by pair, whatever comes out. -/
theorem matchShape_eq (h : p.pairing c = some ds) (b : Binding) :
    matchShape step p c b = matchPairs step ds b := by
  -- Kind by kind. What is not paired is excluded, so no mismatch is left but those of pairs.
  rw [pairing.eq_def] at h
  split at h
  · split at h
    · next hst =>
      cases h
      exact if_pos hst
    · cases h
  · split at h
    · next hfits =>
      cases h
      exact (if_pos hfits).trans (matchAll_eq step _ _ b)
    · cases h
  · exact matchListing_eq h b
  · split at h
    · next hfg => exact (if_pos hfg).trans (matchListing_eq h b)
    · cases h
  · next s t s' t' =>
    cases h
    exact congrArg _ (funext fun b₁ ↦ (matchPairs_singleton step (t, t') b₁).symm)
  · cases h

/-- **What a binding records** of some terms: for each name the first capture or reference. -/
def Records (b : Binding) (ts : List Term) : Prop := ∀ name, b.get? name = firstMarkAmong? ts name

/-- **The outcome of matching terms with themselves**: a binding that records them where captures
lead, and a mismatch where they do not. -/
inductive Recorded (ts : List Term) : Except Stop Binding → Prop
  | ok {b : Binding} (hts : CapturesLeadAmong ts) (h : Records b ts) : Recorded ts (.ok b)
  | mismatch (hts : ¬ CapturesLeadAmong ts) : Recorded ts (.error .mismatch)

/-- What comes after some terms is recorded with them. -/
theorem Recorded.bind {r : Except Stop Binding} {f : Binding → Except Stop Binding}
    (h : Recorded ts r)
    (hf : ∀ b, CapturesLeadAmong ts → Records b ts → Recorded (ts ++ us) (f b)) :
    Recorded (ts ++ us) (r.bind f) := by
  cases h with
  | ok hts hb => exact hf _ hts hb
  | mismatch hts => exact .mismatch fun h ↦ hts h.of_append

/-- A reference that meets itself is noted. -/
theorem recorded_reference (hts : CapturesLeadAmong ts) (hb : Records b ts) (name : String) :
    Recorded (ts ++ [reference name]) (.ok (b.note name (reference name))) := by
  refine .ok ((capturesLeadAmong_append rfl).2 hts) fun n ↦ ?_
  rw [Binding.get?_note, hb, hb, firstMarkAmong?_append_mark rfl]

/-- A capture that meets itself is bound, unless a reference has taken its name up. -/
theorem recorded_capture (hts : CapturesLeadAmong ts) (hb : Records b ts) (name : String) :
    Recorded (ts ++ [capture name]) (orMismatch (b.bind? name (capture name))) := by
  have hlead : CapturesLeadAmong (ts ++ [capture name]) ↔
      (b.get? name).getD (capture name) = capture name := by
    rw [hb name]
    exact capturesLeadAmong_append_capture hts
  cases hbind : b.bind? name (capture name) with
  | some b' =>
    rcases Binding.bind?_eq_some.1 hbind with ⟨hget, rfl⟩ | ⟨hnone, rfl⟩
    · refine .ok (hlead.2 (by rw [hget, Option.getD_some])) fun n ↦ ?_
      rw [firstMarkAmong?_append_mark rfl, ← hb name, ← hb n, hget]
      split
      · next hn => rw [hn, hget, Option.getD_some]
      · rfl
    · refine .ok (hlead.2 (by rw [hnone, Option.getD_none])) fun n ↦ ?_
      rw [firstMarkAmong?_append_mark rfl, ← hb name, ← hb n, hnone, Option.getD_none]
      exact Binding.get?_insert b name n _
  | none =>
    refine .mismatch fun h ↦ ?_
    have hget := hlead.1 h
    -- If captures lead, the name was bound to the capture, or not at all.
    cases hbound : b.get? name with
    | none =>
      rw [Binding.bind?_eq_some.2 (.inr ⟨hbound, rfl⟩)] at hbind
      cases hbind
    | some u =>
      rw [hbound, Option.getD_some] at hget
      rw [Binding.bind?_eq_some.2 (.inl ⟨hbound.trans (congrArg some hget), rfl⟩)] at hbind
      cases hbind

/-- Terms one after the other are recorded, if each of them is. -/
theorem recorded_matchPairs {vs : List Term}
    (hstep : ∀ v ∈ vs, ∀ ts b, CapturesLeadAmong ts → Records b ts →
      Recorded (ts ++ v.exposed) (step v v b))
    (hts : CapturesLeadAmong ts) (hb : Records b ts) :
    Recorded (ts ++ vs.flatMap exposed) (matchPairs step (vs.map fun v ↦ (v, v)) b) := by
  induction vs generalizing ts b with
  | nil =>
    rw [List.flatMap_nil, List.append_nil]
    exact .ok hts hb
  | cons v vs ih =>
    obtain ⟨hfirst, hrest⟩ := List.forall_mem_cons.1 hstep
    rw [List.map_cons, matchPairs_cons, List.flatMap_cons, ← List.append_assoc]
    exact (hfirst ts b hts hb).bind fun b₁ hts₁ hb₁ ↦ ih hrest hts₁ hb₁

/-- **Matching a term with itself** records what is exposed in it. -/
theorem recorded_matchWithin (hdepth : t.size ≤ depth) (ht : t.IsUnambiguous)
    (hwritten : t.isWellFormed = true) (hts : CapturesLeadAmong ts) (hb : Records b ts) :
    Recorded (ts ++ t.exposed) (matchWithin resolve depth t t b) := by
  induction depth generalizing t ts b with
  | zero => exact absurd t.size_pos hdepth.not_gt
  | succ depth ih =>
    -- A reference or a capture is recorded itself. All else is not, and its parts are, in order.
    cases hconcrete : t.isConcrete with
    | false =>
      cases t with
      | reference name =>
        rw [matchWithin_same]
        exact recorded_reference hts hb name
      | capture name => exact recorded_capture hts hb name
      | _ => cases hconcrete
    | true =>
      have hpairing := pairing_self hconcrete (uniform_of_isWellFormed hwritten) ht.entries
      have hlead := (capturesLeadAmong_append (capture?_of_isConcrete hconcrete)).2 hts
      rw [matchWithin_shape hconcrete (reference?_of_isConcrete hconcrete),
        matchShape_eq hpairing, exposed_eq, List.append_cons]
      refine recorded_matchPairs (fun v hv ts b hts hb ↦ ?_) hlead fun n ↦
        (hb n).trans (firstMarkAmong?_append_concrete hconcrete).symm
      exact ih (Nat.le_of_lt_succ ((size_lt_of_mem_parts hv).trans_le hdepth)) (ht.part hv)
        (isWellFormed_part hwritten hv) hts hb

end Matching

/-! ### Reflexivity -/

/-- **Matching a term with itself.** Take a term that a text denotes, in which entries of one name
have one value. Matching it with itself is never an error, over any storage, and it is a match just
when each capture in it stands before all references of the same name. The binding then holds the
whole term, and under each name the first capture or reference that bears it. -/
theorem Term.matching_self (s : Storage) {text : String} {t : Term} (h : Term.parse text = .ok t)
    (ht : t.IsUnambiguous) :
    ∃ outcome, Term.matching s t t = .ok outcome ∧
      (outcome.isSome = true ↔ t.CapturesLead) ∧
      ∀ b, outcome = some b →
        b.whole? = some t ∧ ∀ name, name ≠ "" → b.get? name = t.firstMark? name := by
  -- Nothing stands in front of the term, and nothing has been recorded.
  have hrun : Matching.Recorded ([] ++ t.exposed)
      (Matching.matchWithin s.resolve (Matching.depthBound s t t) t t {}) :=
    Matching.recorded_matchWithin (Matching.size_le_depthBound s t t) ht (isWellFormed_of_parse h)
      (List.forall_mem_nil _) fun _ ↦ rfl
  rw [List.nil_append] at hrun
  rw [Term.matching]
  generalize Matching.matchWithin s.resolve _ t t {} = r at hrun
  cases hrun with
  | @ok b hlead hb =>
    refine ⟨_, rfl, ⟨fun _ ↦ hlead, fun _ ↦ rfl⟩, fun whole hwhole ↦ ?_⟩
    obtain rfl := Option.some.inj hwhole
    exact ⟨Binding.get?_insert_self b _ t,
      fun name hname ↦ (Binding.get?_insert_of_ne hname).trans (hb name)⟩
  | mismatch hlead =>
    refine ⟨none, rfl, ⟨fun hsome ↦ ?_, fun h ↦ absurd h hlead⟩, fun _ hsome ↦ ?_⟩
    · cases hsome
    · cases hsome

/-- **Matching a term whose parts are paired with themselves** is never an error, and it is a match
just when captures lead in them. -/
theorem Term.matching_of_pairing_self (s : Storage) {p c : Term} {vs : List Term}
    (h : p.pairing c = some (vs.map fun v ↦ (v, v)))
    (hvs : ∀ v ∈ vs, v.isWellFormed = true ∧ v.IsUnambiguous) :
    ∃ outcome, Term.matching s p c = .ok outcome ∧
      (outcome.isSome = true ↔ CapturesLeadAmong (vs.flatMap exposed)) := by
  obtain ⟨hconcrete, hcandidate⟩ := Term.isConcrete_of_pairing h
  have hrun : Matching.Recorded ([] ++ vs.flatMap exposed)
      (Matching.matchWithin s.resolve (Matching.depthBound s p c) p c {}) := by
    rw [Matching.depthBound, Matching.matchWithin_shape hconcrete
      (Term.reference?_of_isConcrete hcandidate), Matching.matchShape_eq h]
    refine Matching.recorded_matchPairs (fun v hv ts b hts hb ↦ ?_) (List.forall_mem_nil _)
      fun _ ↦ rfl
    have hpart := (mem_parts_of_pairing h (List.mem_map_of_mem hv)).1
    have hdepth := (size_lt_of_mem_parts hpart).le.trans (Matching.size_le_mul s p c)
    exact Matching.recorded_matchWithin hdepth (hvs v hv).2 (hvs v hv).1 hts hb
  rw [List.nil_append] at hrun
  rw [Term.matching]
  generalize Matching.matchWithin s.resolve _ p c {} = r at hrun
  cases hrun with
  | ok hlead => exact ⟨_, rfl, fun _ ↦ hlead, fun _ ↦ rfl⟩
  | mismatch hlead =>
    exact ⟨none, rfl, fun hsome ↦ absurd hsome Bool.false_ne_true, fun h ↦ absurd h hlead⟩

/-- A name that is given twice with one value, and a capture in front of a reference of its name. -/
theorem Term.matching_self_repeated :
    ∃ t b, Term.parse "F(a=[n], a=[n], b=$\x7bn\x7d)" = .ok t ∧
      Term.matching {} t t = .ok (some b) ∧ b.whole? = some t ∧
        b.get? "n" = some (.capture "n") := by
  let t : Term := .call "F"
    ⟨[⟨.named "a", [], .capture "n"⟩, ⟨.named "a", [], .capture "n"⟩,
      ⟨.named "b", [], .reference "n"⟩], .parameters⟩ none
  have hparse : Term.parse "F(a=[n], a=[n], b=$\x7bn\x7d)" = .ok t :=
    Term.parse_eq_ok_of_render (by decide +kernel) (by decide)
  obtain ⟨outcome, hrun, hmatch, hbound⟩ := Term.matching_self {} hparse (by decide)
  obtain ⟨b, rfl⟩ := Option.isSome_iff_exists.1 (hmatch.2 (by decide))
  obtain ⟨hwhole, hget⟩ := hbound b rfl
  exact ⟨t, b, hparse, hrun, hwhole, hget "n" (by decide)⟩

/-- **Not every term matches itself**: here a name has two values, and there a reference stands
before the capture of its name. -/
theorem Term.not_matching_self :
    (∃ t, Term.parse "F(a=\"1\", a=\"2\")" = .ok t ∧ Term.matching {} t t = .ok none) ∧
      ∃ t, Term.parse "[$\x7bn\x7d, [n]]" = .ok t ∧ Term.matching {} t t = .ok none := by
  let t : Term := .call "F"
    ⟨[⟨.named "a", [], .text "1"⟩, ⟨.named "a", [], .text "2"⟩], .parameters⟩ none
  let u : Term := .array [.reference "n", .capture "n"]
  exact ⟨⟨t, Term.parse_eq_ok_of_render (by decide +kernel) (by decide), by decide⟩,
    ⟨u, Term.parse_eq_ok_of_render (by decide +kernel) (by decide), by decide⟩⟩

end TermRegistry
