import WordAutomata.Text.Lines

/-!
# Paths

The parts of a path between slashes. Slashes that follow each other count as
one. A single dot leads nowhere, two dots lead up. The extension of a path is
what follows the last dot in its last part, unless the dot is what the part
begins with.

## Main definitions

* `Tool.Path.parts`: The parts of a path.
* `Tool.Path.fileName?`: The last part of a path that leads somewhere.
* `Tool.Path.extension?`: The extension of a path.
-/

namespace WordAutomata

namespace Tool

namespace Path

/-- The parts of a path. -/
def parts (path : String) : List (List Char) := (Text.cut '/' path.toList).filter (· ≠ [])

/-- The last part of a path that leads somewhere, unless it leads up. -/
def fileName? (path : String) : Option (List Char) :=
  ((parts path).filter (· ≠ ['.'])).getLast?.filter (· ≠ ['.', '.'])

/-- What follows the last dot in the name of a file, if anything comes before
    the dot. -/
def extension? (path : String) : Option (List Char) :=
  (fileName? path).bind fun name =>
    let pieces := Text.cut '.' name
    if pieces.dropLast = [] ∨ pieces.dropLast = [[]] then none else pieces.getLast?

/-- Whether a path starts at the root. -/
def isAbsolute (path : String) : Bool := path.toList.head? = some '/'

/-- Whether a path ends in a slash. -/
def endsInSlash (path : String) : Bool := path.toList.getLast? = some '/'

end Path

end Tool

end WordAutomata
