import TermRegistry.Proofs.Lexing.Slice
import TermRegistry.Token.Stream
import Mathlib.Data.List.Induction

/-!
# The places of tokens

The position of a character is counted directly: the line from the newlines in front of it, the
column from the characters behind the last of these. `Position.after_eq_place` says that counting
along, character by character, comes to the same, and `Slice.answers_nth` that whatever is handed
out for a text carries the place of its first character.
-/

namespace TermRegistry

/-- **The place behind some characters**: lines and columns count from one, and the column counts
the characters since the last newline. -/
def Position.place (before : List Char) : Position :=
  ⟨1 + before.count '\n', 1 + (before.reverse.takeWhile (· ≠ '\n')).length⟩

/-- Counting along comes to the place. -/
theorem Position.after_eq_place (before : List Char) :
    ({} : Position).after before = place before := by
  induction before using List.reverseRecOn with
  | nil => rfl
  | append_singleton cs c ih =>
    rw [after_append, ih, after_cons, after_nil, next, place, place, List.count_append,
      List.reverse_concat]
    split
    · next hc => simp [hc, Nat.add_assoc]
    · next hc => simp [hc, Nat.add_comm]

/-! ### Taking tokens one after another -/

namespace Lexed

/-- What a reader gets who asks for a token where the tokens have run out. -/
def afterLast (e : Ending) : Except Error Located :=
  match e.fault? with
  | some fault => .error (.lexical fault e.position)
  | none => .ok ⟨.endOfInput, e.position⟩

/-- Past the last token the answer is always the same. -/
theorem nth_nil (e : Ending) (n : Nat) : (⟨[], e⟩ : Lexed).nth n = afterLast e := by
  obtain ⟨p, fault?⟩ := e
  cases fault? with
  | some fault => cases n <;> rfl
  | none =>
    induction n with
    | zero => rfl
    | succ n ih => exact ih

/-- **The tokens are handed out in order.** -/
theorem nth_eq (ts : List Located) (e : Ending) (n : Nat) :
    (⟨ts, e⟩ : Lexed).nth n = (ts[n]?.map .ok).getD (afterLast e) := by
  induction n generalizing ts with
  | zero =>
    cases ts with
    | nil => exact nth_nil e 0
    | cons t ts => rfl
  | succ n ih =>
    cases ts with
    | nil => exact nth_nil e (n + 1)
    | cons t ts => exact ih ts

end Lexed

namespace Slice

/-- The tokens of slices are located in their order. -/
theorem map_token_locate (p : Position) (ss : List Slice) :
    (locate p ss).map (·.token) = ss.filterMap token? := by
  induction ss generalizing p with
  | nil => rfl
  | cons s ss ih =>
    rw [locate, List.map_append, ih, List.filterMap_cons]
    cases s.token? <;> rfl

theorem length_locate (p : Position) (ss : List Slice) :
    (locate p ss).length = (ss.filterMap token?).length := by
  rw [← map_token_locate p, List.length_map]

/-- The slice of a located token. -/
theorem exists_of_getElem?_locate {p : Position} {ss : List Slice} {n : Nat} {t : Located}
    (h : (locate p ss)[n]? = some t) :
    ∃ as s bs, ss = as ++ s :: bs ∧ s.token? = some t.token ∧
      (as.filterMap token?).length = n ∧ t.position = p.after (as.flatMap source) := by
  induction ss generalizing p n with
  | nil => cases h
  | cons s ss ih =>
    rw [locate] at h
    cases hk : s.token? with
    | none =>
      rw [hk] at h
      obtain ⟨as, s', bs, rfl, hs', hn, hp⟩ := ih h
      refine ⟨s :: as, s', bs, rfl, hs', ?_, ?_⟩
      · rw [List.filterMap_cons_none hk, hn]
      · rw [hp, List.flatMap_cons, Position.after_append]
    | some k =>
      rw [hk] at h
      cases n with
      | zero =>
        cases h
        exact ⟨[], s, ss, rfl, hk, rfl, rfl⟩
      | succ n =>
        obtain ⟨as, s', bs, rfl, hs', hn, hp⟩ := ih h
        refine ⟨s :: as, s', bs, rfl, hs', ?_, ?_⟩
        · rw [List.filterMap_cons_some hk, List.length_cons, hn]
        · rw [hp, List.flatMap_cons, Position.after_append]

/-- **What is handed out for a text that is cut into slices**, when a number of tokens have been
taken: the token of a slice in its place; behind the last one the end of the text in its place, or
the lexical fault there. -/
inductive Answers (ss : List Slice) (fault? : Option LexicalFault) :
    Nat → Except Error Located → Prop
  | token {as bs : List Slice} {s : Slice} {k : Token} (hss : ss = as ++ s :: bs)
      (hk : s.token? = some k) :
      Answers ss fault? (as.filterMap token?).length
        (.ok ⟨k, Position.place (as.flatMap source)⟩)
  | finished {n : Nat} (hn : (ss.filterMap token?).length ≤ n) (hfault : fault? = none) :
      Answers ss fault? n (.ok ⟨.endOfInput, Position.place (ss.flatMap source)⟩)
  | fault {n : Nat} {fault : LexicalFault} (hn : (ss.filterMap token?).length ≤ n)
      (hfault : fault? = some fault) :
      Answers ss fault? n (.error (.lexical fault (Position.place (ss.flatMap source))))

/-- The slices of a text say what is handed out for it. -/
theorem answers_nth {ss : List Slice} {cs rest : List Char} {fault? : Option LexicalFault}
    (hs : Splits ss cs rest) (hstops : Stops fault? rest) (n : Nat) :
    Answers ss fault? n ((Lexed.ofChars {} cs).nth n) := by
  rw [Lexed.ofChars_of_splits {} hs hstops, Lexed.nth_eq]
  cases ht : (locate {} ss)[n]? with
  | some t =>
    obtain ⟨as, s, bs, hss, hk, rfl, hp⟩ := exists_of_getElem?_locate ht
    rw [Position.after_eq_place] at hp
    obtain ⟨k, q⟩ := t
    cases hp
    exact .token hss hk
  | none =>
    have hn := List.getElem?_eq_none_iff.1 ht
    rw [length_locate] at hn
    rw [Position.after_eq_place]
    cases fault? with
    | some fault => exact .fault hn rfl
    | none => exact .finished hn rfl

end Slice

/-! ### What is handed out in front of the end -/

/-- The end of the text is no slice. -/
theorem Slice.Spelled.token_ne_endOfInput {s : Slice} (h : s.Spelled) :
    s.token? ≠ some .endOfInput := by
  cases h with
  | mark h =>
    unfold Token.ofMark? at h
    split at h <;> cases h <;> nofun
  | _ => nofun

theorem Splits.spelled {ss : List Slice} {cs rest : List Char} (h : Splits ss cs rest)
    {s : Slice} (hs : s ∈ ss) : s.Spelled := by
  induction h with
  | nil => cases hs
  | cons hspelled _ _ ih =>
    rcases List.mem_cons.1 hs with rfl | hs
    · exact hspelled
    · exact ih hs

/-- The end of the text is no token in it. -/
theorem Lexed.token_ne_endOfInput {p : Position} {cs : List Char} {t : Located}
    (h : t ∈ (ofChars p cs).tokens) : t.token ≠ .endOfInput := by
  obtain ⟨ss, rest, fault?, hs, hstops⟩ := exists_splits cs
  rw [ofChars_of_splits p hs hstops] at h
  have hk := List.mem_map_of_mem (f := (·.token)) h
  rw [Slice.map_token_locate] at hk
  obtain ⟨s, hmem, hs'⟩ := List.mem_filterMap.1 hk
  intro ht
  rw [ht] at hs'
  exact (hs.spelled hmem).token_ne_endOfInput hs'

/-- What is handed out first once some tokens have been taken. -/
theorem Lexed.nth_drop (ts : List Located) (e : Ending) (n : Nat) :
    (⟨ts.drop n, e⟩ : Lexed).nth 0 = (⟨ts, e⟩ : Lexed).nth n := by
  rw [nth_eq, nth_eq, List.getElem?_drop, Nat.add_zero]

end TermRegistry
