/-
Templates: what a match is replaced by.

A template is a list of nodes.  A node of a template is either new and may have children, or it
stands for nodes of the match: the target, or the nodes bound to a capture.
-/
import TreeRules.Text.Letter
import TreeRules.Text.Quoted

namespace TreeRules

/-- What a node of a template stands for. -/
inductive TemplateHead where
  /-- A new node with that text. -/
  | literal (text : String)
  /-- The nodes bound to that capture; the reference stands at `position`. -/
  | capture (name : String) (position : Nat)
  /-- The match's target. -/
  | target
  deriving DecidableEq, Repr

/-- A node of a template. -/
inductive TemplateNode where
  | node (head : TemplateHead) (children : List TemplateNode)

/-- A template. -/
structure Template where
  roots : List TemplateNode

namespace TemplateNode

/-- What the node stands for. -/
def head : TemplateNode → TemplateHead
  | node head _ => head

/-- The nodes beneath it. -/
def children : TemplateNode → List TemplateNode
  | node _ children => children

/-- The text holds an arrow. -/
def holdsArrow : List Char → Bool
  | '-' :: '>' :: _ => true
  | _ :: cs => holdsArrow cs
  | [] => false

/-- The text can be written without quotes. -/
def isBare (text : String) : Bool :=
  !text.isEmpty && !holdsArrow text.toList && text.toList.all Text.isWordChar

mutual

/-- The node as a template writes it. -/
def text : TemplateNode → String
  | node head children =>
    let head := match head with
      | .literal text => if isBare text then text else Text.quote text
      | .capture name _ => s!"${name}"
      | .target => "$0"
    match children with
    | [] => head
    | [child] => head ++ "/" ++ text child
    | children => head ++ "/(" ++ ", ".intercalate (texts children) ++ ")"

/-- Each node as a template writes it. -/
def texts : List TemplateNode → List String
  | [] => []
  | first :: rest => text first :: texts rest

end

mutual

/-- The references to captures with their positions, in the order of the text. -/
def references : TemplateNode → List (String × Nat)
  | node head children =>
    match head with
    | .capture name position => (name, position) :: referencesOf children
    | _ => referencesOf children

/-- The references to captures in some nodes. -/
def referencesOf : List TemplateNode → List (String × Nat)
  | [] => []
  | first :: rest => references first ++ referencesOf rest

end

end TemplateNode

namespace Template

/-- The template as it is written. -/
def text (t : Template) : String := ", ".intercalate (TemplateNode.texts t.roots)

/-- The references to captures with their positions, in the order of the text. -/
def references (t : Template) : List (String × Nat) := TemplateNode.referencesOf t.roots

/-- The first reference to a name that is not declared, with its position. -/
def undeclared? (t : Template) (declared : List String) : Option (String × Nat) :=
  t.references.find? fun (name, _) => !declared.contains name

end Template

end TreeRules
