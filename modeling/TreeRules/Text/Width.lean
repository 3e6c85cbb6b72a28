/-
Widths of texts in bytes.

Every position that this library reports counts bytes of UTF-8 from the start of the text, so a
caller can cut the text there.  Readers work on lists of characters and carry the position along.
-/

namespace TreeRules.Text

/-- The number of bytes the characters take up. -/
def byteWidth : List Char → Nat
  | [] => 0
  | c :: cs => c.utf8Size + byteWidth cs

@[simp] theorem byteWidth_nil : byteWidth [] = 0 := rfl

@[simp] theorem byteWidth_cons (c : Char) (cs : List Char) :
    byteWidth (c :: cs) = c.utf8Size + byteWidth cs := rfl

@[simp] theorem byteWidth_append (cs ds : List Char) :
    byteWidth (cs ++ ds) = byteWidth cs + byteWidth ds := by
  induction cs with
  | nil => simp
  | cons c cs ih => simp [ih, Nat.add_assoc]

/-- What was taken off the front of a text: what it stands for, the bytes it took up, and the text
after it. -/
structure Taken (α : Type) where
  value : α
  width : Nat
  rest : List Char

/-- The same with one more character in front, which stands for `c` and took up `width` bytes. -/
def Taken.cons (c : Char) (width : Nat) (taken : Taken (List Char)) : Taken (List Char) :=
  { taken with value := c :: taken.value, width := width + taken.width }

/-- A piece of a text together with the position it starts at. -/
structure Placed (α : Type) where
  value : α
  position : Nat

end TreeRules.Text
