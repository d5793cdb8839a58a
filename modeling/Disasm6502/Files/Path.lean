/-!
Paths and the places they lead to. A place is the list of names that leads there from the working
directory. Above the working directory a place starts with `..`, and the root directory is the
place `["/"]`.
-/

namespace Disasm6502

abbrev Place := List String

namespace Place

/-- The directory a path is relative to. -/
def workingDirectory : Place := []

def root : Place := ["/"]

/-- Where `..` leads. The root is its own parent. -/
def parent (p : Place) : Place :=
  match p.getLast? with
  | none => [".."]
  | some ".." => p ++ [".."]
  | some "/" => p
  | some _ => p.dropLast

/-- Where a name leads from a directory. -/
def enter (p : Place) (name : String) : Place :=
  if name = "" ∨ name = "." then p
  else if name = ".." then p.parent
  else p ++ [name]

/-- A path that leads to the place. -/
def path : Place → String
  | "/" :: rest => "/" ++ "/".intercalate rest
  | p => "/".intercalate p

end Place

namespace Path

/-- Cut at every slash. -/
def cut : List Char → List (List Char)
  | [] => [[]]
  | c :: rest =>
    if c = '/' then [] :: cut rest
    else match cut rest with
      | [] => [[c]]
      | name :: more => (c :: name) :: more

/-- The names between the slashes, empty ones included. -/
def names (path : String) : List String := (cut path.toList).map String.ofList

/-- Where the first name of a path is looked up. -/
def start (path : String) : Place :=
  if path.toList.head? = some '/' then .root else .workingDirectory

/-- The place a path spells out, whatever exists. -/
def place (path : String) : Place := (names path).foldl Place.enter (start path)

/-- A path that ends in a slash can only name a directory. -/
def namesDirectory (path : String) : Bool := path.toList.getLast? = some '/'

/-- The most bytes one name can have. -/
def maxName : Nat := 255

/-- The most bytes a whole path can have. -/
def maxPath : Nat := 4095

end Path

end Disasm6502
