/-!
Places in a text: rows and columns for people, byte offsets for spans.
-/
namespace LambdaTyping.Text

/-- Row and column, both counted from 1; a column counts characters. -/
structure Position where
  row : Nat
  col : Nat
  deriving DecidableEq, Inhabited

def Position.text (p : Position) : String := p.row.repr ++ ":" ++ p.col.repr

/-- A place between two characters, with the number of bytes before it. -/
structure Cursor where
  offset : Nat
  pos : Position
  deriving DecidableEq

namespace Cursor

def start : Cursor := ⟨0, ⟨1, 1⟩⟩

def advance (k : Cursor) (c : Char) : Cursor :=
  ⟨k.offset + c.utf8Size,
    if c = '\n' then ⟨k.pos.row + 1, 1⟩ else ⟨k.pos.row, k.pos.col + 1⟩⟩

/-- The place after some characters. -/
def skip (k : Cursor) (cs : List Char) : Cursor := cs.foldl advance k

@[simp] theorem skip_nil (k : Cursor) : k.skip [] = k := rfl
@[simp] theorem skip_cons (k : Cursor) (c : Char) (cs : List Char) :
    k.skip (c :: cs) = (k.advance c).skip cs := rfl
theorem skip_append (k : Cursor) (cs ds : List Char) : k.skip (cs ++ ds) = (k.skip cs).skip ds := by
  simp [skip]

end Cursor

end LambdaTyping.Text
