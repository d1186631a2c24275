import ConfigChain.Path

/-!
The directories on the way from a path up to the root directory, each written as a part of the path
itself. Only the end of the text is taken off, piece by piece: `..` is a piece like any other, so what
comes out is not the way up in the file system.
-/

namespace ConfigChain.Path

/-- Whether a piece stays where it is. -/
def stays (piece : List Char) : Bool := piece = [] || piece = ['.']

/-- What is left of a path, the last piece first, each time its last moving piece is taken off. -/
def shortened : List (List Char) → List (List (List Char))
  | [] => []
  | piece :: outer =>
    if stays piece then shortened outer else outer.dropWhile stays :: shortened outer

/-- The text of an absolute path from its pieces, the last one first. -/
def unreversed (pieces : List (List Char)) : String :=
  if pieces = [] then "/" else String.ofList (link pieces.reverse)

/-- An absolute path as it is written, and the directories that it is written below. -/
def ancestors (p : String) : List String :=
  p :: (shortened (pieces p.toList).reverse).map unreversed

end ConfigChain.Path
