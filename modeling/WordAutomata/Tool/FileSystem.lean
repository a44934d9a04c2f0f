import WordAutomata.Tool.Session
import WordAutomata.Tool.Path

/-!
# File Systems

A file system as a value, and what comes of reading and saving in it. A path
is walked part by part, from the working directory or from the root. All
parts but the last must lead into directories, and the first that does not
decides what is wrong. Only then the last part is looked at.

A session played through in a file system gets its answers from there, and
the clock stands still.

## Main definitions

* `Tool.FileSystem`: What there is at each place, and where one is.
* `Tool.FileSystem.find`, `Tool.FileSystem.put`: Reading and saving.
* `Tool.FileSystem.holding`: A file system with given files at hand.
* `Tool.Session.play`: A session in a file system.
-/

namespace WordAutomata

namespace Tool

/-- What there is at a place. -/
inductive Entry where
  | directory
  | file (contents : List UInt8)
  /-- A device that is empty, and takes what is saved if it has room. -/
  | device (hasRoom : Bool)
deriving DecidableEq

/-- A place in a file system: the names on the way up from there to the root. -/
abbrev Place := List String

/-- What there is at each place, and where one is. -/
structure FileSystem where
  /-- The working directory. -/
  here : Place
  entries : List (Place × Entry)

namespace FileSystem

/-- What there is at a place, if anything. The root is a directory. -/
def entry? (s : FileSystem) (place : Place) : Option Entry :=
  if place = [] then some .directory else s.entries.lookup place

/-- What there is under a name in a directory, if anything. -/
def look (s : FileSystem) (directory : Place) (name : String) : Except FileError (Option Entry) :=
  if 255 < name.utf8ByteSize then .error .nameTooLong else .ok (s.entry? (name :: directory))

/-- The directory that a part of a path leads to from a directory. Nothing is above
    the root, and two dots stay there. -/
def enter (s : FileSystem) (directory : Place) (part : String) : Except FileError Place :=
  if part = "." then .ok directory
  else if part = ".." then .ok directory.tail
  else
    match s.look directory part with
    | .error e => .error e
    | .ok none => .error .notFound
    | .ok (some .directory) => .ok (part :: directory)
    | .ok (some _) => .error .notDirectory

/-- Where a path leads: to a directory, if it ends in dots or at the root, and
    otherwise to a name in a directory. -/
def locate (s : FileSystem) (path : String) : Except FileError (Place × Option String) :=
  if path = "" then .error .notFound
  else if 4095 < path.utf8ByteSize then .error .nameTooLong
  else do
    let parts := (Path.parts path).map String.ofList
    let start := if Path.isAbsolute path then [] else s.here
    let directory ← parts.dropLast.foldlM s.enter start
    match parts.getLast? with
    | some name =>
      if name = "." || name = ".." then return (← s.enter directory name, none)
      else return (directory, some name)
    | none => return (directory, none)

/-- The contents of the file with a path. -/
def find (s : FileSystem) (path : String) : Except FileError (List UInt8) := do
  match ← s.locate path with
  | (_, none) => throw .isDirectory
  | (directory, some name) =>
    match ← s.look directory name with
    | none => throw .notFound
    | some .directory => throw .isDirectory
    | some entry =>
      if Path.endsInSlash path then throw .notDirectory
      match entry with
      | .file contents => return contents
      | _ => return []

/-- The file system with a text saved under a path, in place of what was there. A
    slash at the end asks for a directory, and none is made. -/
def put (s : FileSystem) (path text : String) : Except FileError FileSystem := do
  match ← s.locate path with
  | (_, none) => throw .isDirectory
  | (directory, some name) =>
    if Path.endsInSlash path then throw .isDirectory
    match ← s.look directory name with
    | some .directory => throw .isDirectory
    | some (.device true) => return s
    | some (.device false) => throw .noSpace
    | _ =>
      let place := name :: directory
      let others := s.entries.filter fun (other, _) => other ≠ place
      return { s with entries := (place, .file text.toUTF8.toList) :: others }

/-- The files in the working directory. -/
def files (s : FileSystem) : List (String × List UInt8) :=
  s.entries.filterMap fun
    | (name :: directory, .file contents) =>
      if directory = s.here then some (name, contents) else none
    | _ => none

/-- The directories at the root of most file systems. -/
def rootDirectories : List String :=
  ["bin", "boot", "dev", "etc", "home", "lib", "media", "mnt", "opt", "proc", "root", "run",
    "sbin", "srv", "sys", "tmp", "usr", "var"]

/-- A file system with the given files in the working directory, which is new. The
    name of that directory is empty, so no path can spell it. What is saved as the
    standard output becomes a file like others. -/
def holding (files : List (String × List UInt8)) : FileSystem :=
  let here := ["", "tmp"]
  ⟨here,
    files.map (fun (name, contents) => (name :: here, .file contents)) ++
      (here, .directory) :: rootDirectories.map (fun name => ([name], .directory)) ++
      [(["null", "dev"], .device true), (["zero", "dev"], .device true),
        (["full", "dev"], .device false), (["stdout", "dev"], .file []),
        (["passwd", "etc"], .file [])]⟩

/-- What was saved as the standard output. -/
def savedOutput (s : FileSystem) : List UInt8 :=
  match s.entry? ["stdout", "dev"] with
  | some (.file contents) => contents
  | _ => []

end FileSystem

/-- Plays a session through in a file system, with the clock standing still. -/
def Session.play {α : Type} : Session α → FileSystem → α × FileSystem
  | done a, s => (a, s)
  | read path next, s => (next (s.find path)).play s
  | save path text next, s =>
    match s.put path text with
    | .error e => (next (.error e)).play s
    | .ok s => (next (.ok ())).play s
  | clock next, s => (next ⟨0⟩).play s

end Tool

end WordAutomata
