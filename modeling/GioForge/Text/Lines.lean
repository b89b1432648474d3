/-!
Cutting a text into lines. A line feed ends a line, a carriage return directly before it goes with
it, and a line feed at the very end opens no further line.
-/

namespace GioForge.Text

def lines : List Char → List (List Char)
  | [] => []
  | '\n' :: rest => [] :: lines rest
  | '\r' :: '\n' :: rest => [] :: lines rest
  | c :: rest =>
      match lines rest with
      | [] => [[c]]
      | first :: others => (c :: first) :: others

end GioForge.Text
