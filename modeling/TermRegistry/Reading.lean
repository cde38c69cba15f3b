/-!
# Reading from a list

A reader takes something off the front of a list and says what is left. The proof that less is left
than some bound travels with the result, so that readers can call each other and be seen to end.
-/

namespace TermRegistry

/-- What was read, and what is left behind it: less than `bound`. -/
structure Reading (τ α : Type) (bound : Nat) where
  result : α
  rest : List τ
  shorter : rest.length < bound

/-- What is behind the head of a list is shorter than the list. -/
theorem lt_length_cons {τ : Type} (c : τ) (cs : List τ) : cs.length < (c :: cs).length :=
  Nat.lt_succ_self _

namespace Reading

variable {τ α β : Type} {m n : Nat}

/-- The same under a larger bound. -/
def within (r : Reading τ α m) (h : m ≤ n) : Reading τ α n :=
  ⟨r.result, r.rest, Nat.lt_of_lt_of_le r.shorter h⟩

/-- The same rest behind another result. -/
def replace (r : Reading τ α m) (result : β) : Reading τ β m :=
  ⟨result, r.rest, r.shorter⟩

end Reading

end TermRegistry
