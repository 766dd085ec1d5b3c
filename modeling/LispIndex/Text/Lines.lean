/-!
Lines of a text: what stands between its line feeds, so that a text without one is a single line.
-/

namespace LispIndex.Text

/-- Lines of the rest of a text, behind those that were found. The line being read is held in
reverse. -/
def linesFrom (found : List (List Char)) (line : List Char) : List Char → List (List Char)
  | [] => (line.reverse :: found).reverse
  | c :: rest =>
    if c = '\n' then linesFrom (line.reverse :: found) [] rest else linesFrom found (c :: line) rest

def lines (text : List Char) : List (List Char) :=
  linesFrom [] [] text

end LispIndex.Text
