import TermRegistry.Proofs.Parsing.Complete
import TermRegistry.Proofs.Parsing.Sound

/-!
# The parser reads the grammar

A text denotes a term just when it holds no lexical fault and its tokens are a value of the grammar
that denotes the term, and so for statements and parameters. The grammar need not be consulted
twice: whatever a text denotes, it denotes alone, because the parser is a function.
-/

namespace TermRegistry

namespace Lexed

/-- **The tokens of a text are a phrase**, and the text holds no lexical fault. -/
def IsPhrase (lexed : Lexed) (p : Phrase) : Prop :=
  lexed.ending.fault? = none ∧ Derives (lexed.tokens.map (·.token)) p

end Lexed

namespace Parse

open Outcome

variable {e : Ending} {ts : List Located}

/-- Only a text without a fault is used up. -/
theorem finish_eq_ok : finish e ts = .ok () ↔ ts = [] ∧ e.fault? = none := by
  cases ts with
  | nil =>
    rw [finish, peek]
    cases e.fault? with
    | none => exact ⟨fun _ ↦ ⟨rfl, rfl⟩, fun _ ↦ rfl⟩
    | some fault =>
      refine ⟨fun h ↦ ?_, fun h ↦ ?_⟩
      · cases h
      · cases h.2
  | cons t ts =>
    refine ⟨fun h ↦ ?_, fun h ↦ ?_⟩
    · cases h
    · cases h.1

/-- At the end of a text without a fault stands the end of the input. -/
theorem peek_nil (h : e.fault? = none) : peek e [] = .ok .endOfInput := by
  rw [peek, h]
  rfl

/-- The whole of some tokens is read as a value just when they are one. -/
theorem value_eq_ok_nil {t : Term} (h : e.fault? = none) :
    Outcome.value e ts = .ok (t, []) ↔ Derives (ts.map (·.token)) (.value t) := by
  refine ⟨fun ht ↦ ?_, fun hd ↦ ?_⟩
  · obtain ⟨ls, rfl, hls⟩ := value_sound ht
    rwa [List.append_nil]
  · have := accepted_of_derives (e := e) hd ts [] .endOfInput rfl (peek_nil h) rfl
    rwa [List.append_nil] at this

/-- The whole of some tokens is read as statements just when they are some. -/
theorem statements_eq_ok_nil {es : List (Entry Term)} (h : e.fault? = none) :
    Outcome.statements e ts = .ok (es, []) ↔ Derives (ts.map (·.token)) (.statements es) := by
  refine ⟨fun ht ↦ ?_, fun hd ↦ ?_⟩
  · obtain ⟨ls, rfl, hls⟩ := statements_sound ht
    rwa [List.append_nil]
  · have := accepted_of_derives (e := e) hd ts [] .endOfInput rfl (peek_nil h) (.inr rfl)
    rwa [List.append_nil] at this

/-- The whole of some tokens is read as parameters just when they are some. -/
theorem parameters_eq_ok_nil {l : Listing Term} (h : e.fault? = none) :
    Outcome.parameters e ts = .ok (l, []) ↔
      l.form = .parameters ∧ Derives (ts.map (·.token)) (.parameters l.entries) := by
  refine ⟨fun ht ↦ ?_, ?_⟩
  · obtain ⟨ls, rfl, hform, hls⟩ := parameters_sound ht
    rw [List.append_nil]
    exact ⟨hform, hls⟩
  · obtain ⟨es, form⟩ := l
    rintro ⟨rfl, hd⟩
    have hts : Outcome.parameters e (ts ++ []) = .ok (⟨es, .parameters⟩, []) :=
      parameters_of_accepted hd (accepted_of_derives hd) rfl (peek_nil h) (.inr rfl)
    rwa [List.append_nil] at hts

end Parse

namespace Reader

/-- What is read from a text as a whole is read up to its end, where no fault stands. -/
theorem whole_eq_ok {α β : Type} {n : Nat} (e : Ending) (r : Except Error (Parse.Read α n))
    (f : α → β) {b : β} :
    (do
      let (a, reader) ← (do
        let read ← r
        return (f read.result, (⟨read.rest, e⟩ : Reader)))
      reader.finish
      return a) = Except.ok b ↔
        e.fault? = none ∧ ∃ a, Reading.outcome r = .ok (a, []) ∧ f a = b := by
  cases r with
  | error e =>
    refine ⟨nofun, ?_⟩
    rintro ⟨-, a, h, -⟩
    cases h
  | ok read =>
    show (Parse.finish e read.rest).bind (fun _ ↦ .ok (f read.result)) = _ ↔ _
    rw [bind_eq_ok]
    refine ⟨?_, ?_⟩
    · rintro ⟨⟨⟩, hfinish, h⟩
      obtain ⟨hrest, hfault⟩ := Parse.finish_eq_ok.1 hfinish
      exact ⟨hfault, read.result, by rw [← hrest]; rfl, Except.ok.inj h⟩
    · rintro ⟨hfault, a, h, rfl⟩
      obtain ⟨rfl, hrest⟩ := Prod.ext_iff.1 (Except.ok.inj h)
      exact ⟨(), Parse.finish_eq_ok.2 ⟨hrest, hfault⟩, rfl⟩

end Reader

open Parse Reader

section

variable {text : String}

/-- **A text denotes a term** just when its tokens are a value of the grammar. -/
theorem Term.parse_eq_ok {t : Term} :
    Term.parse text = .ok t ↔ (Lexed.ofString text).IsPhrase (.value t) := by
  let lexed := Lexed.ofString text
  refine (whole_eq_ok lexed.ending (Parse.value lexed.ending lexed.tokens) id).trans
    (and_congr_right fun h ↦ ?_)
  rw [← value_eq_ok_nil h]
  exact ⟨fun ⟨a, ha, hat⟩ ↦ hat ▸ ha, fun ht ↦ ⟨t, ht, rfl⟩⟩

/-- **A text denotes statements** just when its tokens are statements of the grammar. -/
theorem Listing.parseStatements_eq_ok {l : Listing Term} :
    Listing.parseStatements text = .ok l ↔
      l.form = .statements ∧ (Lexed.ofString text).IsPhrase (.statements l.entries) := by
  obtain ⟨es, form⟩ := l
  let lexed := Lexed.ofString text
  rw [Lexed.IsPhrase, and_left_comm]
  refine (whole_eq_ok lexed.ending (Parse.statements lexed.ending lexed.tokens)
    fun es ↦ (⟨es, .statements⟩ : Listing Term)).trans (and_congr_right fun h ↦ ?_)
  rw [← statements_eq_ok_nil h]
  refine ⟨?_, ?_⟩
  · rintro ⟨_, h, hl⟩
    cases hl
    exact ⟨rfl, h⟩
  · rintro ⟨rfl, h⟩
    exact ⟨es, h, rfl⟩

/-- **A text denotes parameters** just when its tokens are parameters of the grammar. -/
theorem Listing.parseParameters_eq_ok {l : Listing Term} :
    Listing.parseParameters text = .ok l ↔
      l.form = .parameters ∧ (Lexed.ofString text).IsPhrase (.parameters l.entries) := by
  let lexed := Lexed.ofString text
  rw [Lexed.IsPhrase, and_left_comm]
  refine (whole_eq_ok lexed.ending (Parse.parameters lexed.ending lexed.tokens) id).trans
    (and_congr_right fun h ↦ ?_)
  rw [← parameters_eq_ok_nil h]
  exact ⟨fun ⟨a, ha, hat⟩ ↦ hat ▸ ha, fun ht ↦ ⟨l, ht, rfl⟩⟩

end

end TermRegistry
