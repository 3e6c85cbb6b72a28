/-
Predicates that patterns ask for by name.
-/
import TreeRules.Pattern.Compile

namespace TreeRules

/-- Predicates on texts, by name. -/
structure Predicates where
  /-- The latest one of a name stands first. -/
  entries : List (String × (String → Bool)) := []

namespace Predicates

/-- Adds a predicate; it takes the place of one that had the name before. -/
def insert (ps : Predicates) (name : String) (holds : String → Bool) : Predicates :=
  ⟨(name, holds) :: ps.entries⟩

/-- The predicate of that name. -/
def get? (ps : Predicates) (name : String) : Option (String → Bool) := ps.entries.lookup name

/-- The predicate of that name holds of the text.  An unknown one holds of none. -/
def holds (ps : Predicates) (name text : String) : Bool :=
  match ps.get? name with
  | some holds => holds text
  | none => false

/-- Refuses a pattern that asks for an unknown predicate. -/
def check (ps : Predicates) (p : CompiledPattern) : Except CompileError Unit :=
  match p.predicates.find? fun (name, _) => (ps.get? name).isNone with
  | none => .ok ()
  | some (name, position) => .error (.unknownPredicate name position)

end Predicates

end TreeRules
