/-
# Lines of a source text

A line ends at a line feed, and a carriage return directly before that line feed belongs
to the line end.  A text that ends with a line feed has no empty last line, and a carriage
return with no line feed after it is part of its line.
-/

namespace GenericIR

/-- The lines of a text, without their line ends. -/
def splitLines : List Char → List (List Char)
  | [] => []
  | '\n' :: rest => [] :: splitLines rest
  | '\r' :: '\n' :: rest => [] :: splitLines rest
  | c :: rest =>
    match splitLines rest with
    | [] => [[c]]
    | line :: lines => (c :: line) :: lines

/-- The line with a given number, where numbers start at one and zero also means the
first line. -/
def sourceLine? (source : String) (number : Nat) : Option String :=
  (splitLines source.toList)[number - 1]?.map String.ofList

end GenericIR
