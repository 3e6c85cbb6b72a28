/-
Limits on searching and on running rules.
-/
import TreeRules.Json

namespace TreeRules

/-- The limits that a search or a run keeps to. -/
structure Settings where
  /-- How many passes a rule that is run again and again may take. -/
  maxPasses : Nat := 100
  /-- How many matches one search reports. -/
  maxMatches : Nat := 10000
  /-- The largest bound that a quantifier may have. -/
  maxBound : Nat := 1024
  /-- Whether matches may share what they replace. -/
  allowOverlap : Bool := false
  deriving DecidableEq, Repr

namespace Settings

/-- One of the limits. -/
inductive Field where
  | maxPasses
  | maxMatches
  | maxBound
  | allowOverlap
  deriving DecidableEq, Repr

/-- The limits in the order in which a list gives them. -/
def Field.all : List Field := [maxPasses, maxMatches, maxBound, allowOverlap]

/-- The field's name. -/
def Field.name : Field → String
  | maxPasses => "max_passes"
  | maxMatches => "max_matches"
  | maxBound => "max_quantifier_bound"
  | allowOverlap => "allow_overlap"

/-- The field of that name. -/
def Field.ofName? (name : String) : Option Field := Field.all.find? (·.name == name)

/-- A number of at most `bits` bits. -/
def natOfBits? (bits : Nat) (value : Json) : Option Nat :=
  value.nat?.filter (· < Nat.pow 2 bits)

/-- Sets one of the limits; the value must be of the field's kind and in its range. -/
def set? (s : Settings) (field : Field) (value : Json) : Option Settings :=
  match field with
  | .maxPasses => (natOfBits? 64 value).map ({ s with maxPasses := · })
  | .maxMatches => (natOfBits? 64 value).map ({ s with maxMatches := · })
  | .maxBound => (natOfBits? 32 value).map ({ s with maxBound := · })
  | .allowOverlap =>
    match value with
    | .bool b => some { s with allowOverlap := b }
    | _ => none

/-- Sets the members of an object one after another.  Each name must be that of a field, and no
field may be set that is in `seen` or was set before. -/
def setMembers? (s : Settings) (seen : List Field) : List (String × Json) → Option Settings
  | [] => some s
  | (name, value) :: members => do
    let field ← Field.ofName? name
    if seen.contains field then none
    else setMembers? (← s.set? field value) (field :: seen) members

/-- Sets the given fields to the values, in order; there may be fewer values than fields. -/
def setItems? (s : Settings) : List Field → List Json → Option Settings
  | _, [] => some s
  | [], _ :: _ => none
  | field :: fields, value :: values => do setItems? (← s.set? field value) fields values

/-- The limits that a value gives, as an object or as a list; those that it does not give are as
usual. -/
def ofJson? : Json → Option Settings
  | .object members => setMembers? {} [] members
  | .array items => setItems? {} Field.all items
  | _ => none

/-- Reads the limits from a JSON text. -/
def read? (text : String) : Option Settings := do ofJson? (← Json.read text)

end Settings

end TreeRules
