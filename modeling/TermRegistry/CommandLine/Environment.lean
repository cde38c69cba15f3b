/-!
# Environments

The environment gives values to variables. It lists them in the order of their names, each name
once.
-/

namespace TermRegistry

namespace CommandLine

/-- A variable of the environment: its name and its value. -/
abbrev Variable := String × String

namespace Variable

/-- Puts a variable in its place among some that are in the order of their names. It replaces the
one that has its name. -/
def insert (v : Variable) : List Variable → List Variable
  | [] => [v]
  | w :: ws =>
    if v.1 < w.1 then v :: w :: ws
    else if v.1 = w.1 then v :: ws
    else w :: insert v ws

theorem eq_or_mem_of_mem_insert {v u : Variable} {ws : List Variable} (h : u ∈ insert v ws) :
    u = v ∨ u ∈ ws := by
  induction ws with
  | nil => simpa [insert] using h
  | cons w ws ih =>
    rw [insert] at h
    split at h
    · simpa using h
    · split at h
      · exact (List.mem_cons.1 h).imp_right (List.mem_cons_of_mem w)
      · obtain rfl | h := List.mem_cons.1 h
        · exact .inr List.mem_cons_self
        · exact (ih h).imp_right (List.mem_cons_of_mem w)

/-- Variables in the order of their names stay so. -/
theorem pairwise_insert {v : Variable} {ws : List Variable}
    (h : ws.Pairwise fun a b ↦ a.1 < b.1) : (insert v ws).Pairwise fun a b ↦ a.1 < b.1 := by
  induction ws with
  | nil => simp [insert]
  | cons w ws ih =>
    obtain ⟨hw, hws⟩ := List.pairwise_cons.1 h
    rw [insert]
    split
    · rename_i hlt
      refine List.pairwise_cons.2 ⟨fun u hu ↦ ?_, h⟩
      obtain rfl | hu := List.mem_cons.1 hu
      · exact hlt
      · exact String.lt_trans hlt (hw u hu)
    · split
      · rename_i heq
        exact List.pairwise_cons.2 ⟨fun u hu ↦ heq ▸ hw u hu, hws⟩
      · rename_i hlt hne
        refine List.pairwise_cons.2 ⟨fun u hu ↦ ?_, ih hws⟩
        obtain rfl | hu := eq_or_mem_of_mem_insert hu
        · exact String.not_le.1 fun hle ↦ hne (String.le_antisymm hle (String.not_lt.1 hlt))
        · exact hw u hu

end Variable

/-- The variables of an environment. -/
structure Environment where
  toList : List Variable := []
  sorted : toList.Pairwise fun a b ↦ a.1 < b.1 := by simp

namespace Environment

/-- Gives a value to a variable, whether or not it had one. -/
def set (e : Environment) (name value : String) : Environment :=
  ⟨Variable.insert (name, value) e.toList, Variable.pairwise_insert e.sorted⟩

/-- The environment of some variables. Of several values of one name the last one counts. -/
def ofList (vs : List (String × String)) : Environment :=
  vs.foldl (fun e v ↦ e.set v.1 v.2) {}

/-- The value of a variable. -/
def get? (e : Environment) (name : String) : Option String := e.toList.lookup name

end Environment

end CommandLine

end TermRegistry
