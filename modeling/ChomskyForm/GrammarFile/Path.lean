/-!
# Paths to files

A path is written as steps with slashes between them.  Slashes that follow one another count as one,
and a slash at the end or a step `.` leads nowhere, so a path can be written in several ways.  Only
a `.` in front of all other steps is part of the path: it says where the path begins, as a slash in
front does.
-/

namespace ChomskyForm

/-- A path begins at the root or not, and takes its steps in order. -/
structure Path where
  rooted : Bool
  steps : List (List Char)
deriving DecidableEq

namespace Path

/-- The pieces of a text between its slashes, with the empty ones. -/
def splitSlashes : List Char → List (List Char)
  | [] => [[]]
  | c :: rest =>
    if c = '/' then [] :: splitSlashes rest
    else
      match splitSlashes rest with
      | [] => [[c]]
      | piece :: pieces => (c :: piece) :: pieces

/-- Whether a piece between slashes leads to another place. -/
def isStep (piece : List Char) : Bool := piece ≠ [] && piece ≠ ['.']

/-- The steps among the pieces; a `.` is one if it comes first. -/
def stepsOf : List (List Char) → List (List Char)
  | [] => []
  | first :: rest => [first].filter (· ≠ []) ++ rest.filter isStep

def ofChars (cs : List Char) : Path where
  rooted := cs.head? = some '/'
  steps := stepsOf (splitSlashes cs)

/-- The path that a text is written for. -/
def ofText (text : String) : Path := ofChars text.toList

end Path

end ChomskyForm
