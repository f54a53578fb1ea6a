/-!
The pieces of a text between the places where a character stands. There is always
one piece, and a piece can be empty.
-/
namespace Gamebook

def pieces (mark : Char) : List Char → List (List Char)
  | [] => [[]]
  | c :: s =>
    match c == mark, pieces mark s with
    | true, all => [] :: all
    | false, first :: others => (c :: first) :: others
    | false, [] => [[c]]

end Gamebook
