/-!
# Lines

A line feed ends a line, and a carriage return right in front of it belongs to the ending. What
follows the last line feed is a line of its own unless it is empty.
-/

namespace FlowGraph.Text

set_option autoImplicit false

def consLine (c : Char) : List (List Char) → List (List Char)
  | [] => [[c]]
  | line :: lines => (c :: line) :: lines

def lines : List Char → List (List Char)
  | [] => []
  | '\n' :: cs => [] :: lines cs
  | '\r' :: '\n' :: cs => [] :: lines cs
  | c :: cs => consLine c (lines cs)

end FlowGraph.Text
