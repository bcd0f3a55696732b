namespace SymbolicAlgebra

/-- Puts a character in front of lines that follow it. A line feed begins a line. -/
def putBefore (c : Char) (lines : List (List Char)) : List (List Char) :=
  match c, lines with
  | '\n', lines => [] :: lines
  | c, [] => [[c]]
  | c, line :: rest => (c :: line) :: rest

/-- A carriage return at the end of a line belongs to the line break. -/
def dropReturn (line : List Char) : List Char :=
  if line.getLast? = some '\r' then line.dropLast else line

/-- The lines that a text takes when it is written with a line break after it. -/
def linesOf (text : String) : List String :=
  (text.toList.foldr putBefore [[]]).map fun line => String.ofList (dropReturn line)

end SymbolicAlgebra
