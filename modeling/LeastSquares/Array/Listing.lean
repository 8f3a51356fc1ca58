import LeastSquares.Array.Tensor

/-!
# Integers as text

An array of integers in brackets, one pair for each row of each axis. All numbers are filled
up from the left to one width. A line that would grow too long goes on below, indented past
the brackets that are open; rows of a matrix stand in lines of their own, and each further
axis puts one more empty line between them.
-/

namespace LeastSquares

/-- The number of characters in a line, its bracket included. -/
def listingWidth : Nat := 75

def withoutTrailingBlanks (s : String) : String :=
  String.ofList (s.toList.reverse.dropWhile (· = ' ')).reverse

/-- Words in lines that begin with an indent and have room for so many characters. A line has
at least one word. -/
def fillLines (indent : String) (room : Nat) (words : List String) : String :=
  let (finished, line) := words.foldl
    (fun (finished, line) word =>
      if line.length + word.length > room && line.length > indent.length then
        (finished ++ withoutTrailingBlanks line ++ "\n", indent ++ word ++ " ")
      else (finished, line ++ word ++ " "))
    ("", indent)
  finished ++ String.ofList (line.toList.take (line.length - 1))

/-- A text in brackets, without the indent that it begins with. -/
def bracketed (indent text : String) : String :=
  "[" ++ String.ofList (text.toList.drop indent.length) ++ "]"

/-- The words of an array in brackets, each axis one character further to the right. -/
def listingRows (indent : String) (width : Nat) : Shape → List String → String
  | [], words => words.headD ""
  | [_], words => bracketed indent (fillLines indent (width - 1) words)
  | n :: rest, words =>
    let portion := Shape.volume rest
    let rows := (List.range n).map fun i =>
      indent ++ listingRows (indent ++ " ") (width - 1) rest
        ((words.drop (i * portion)).take portion)
    bracketed indent (("".pushn '\n' rest.length).intercalate rows)

def listing (words : Tensor String) : String :=
  if words.cells.isEmpty then "[]"
  else
    let width := words.cells.foldl (fun w s => max w s.length) 0
    let padded := words.cells.toList.map fun s => "".pushn ' ' (width - s.length) ++ s
    listingRows " " listingWidth words.shape padded

end LeastSquares
