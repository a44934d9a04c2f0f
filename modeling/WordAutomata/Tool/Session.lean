import WordAutomata.Timing
import WordAutomata.Text.Quoted

/-!
# Sessions

What a command does to the world, as a tree of requests: read a file, save
one, look at the clock, and in the end be done. Each request comes with what
follows for every answer to it. A session is only a plan. It can be performed
on a real file system, or played through in one that is a value.

## Main definitions

* `Tool.FileError`: Why the file system refuses a request.
* `Tool.Session`: A plan of requests.
-/

namespace WordAutomata

namespace Tool

/-- Why the file system refuses a request. -/
structure FileError where
  /-- The number of the error in the operating system. -/
  code : Nat
  kind : String
  message : String
deriving DecidableEq

namespace FileError

def notFound : FileError := ⟨2, "NotFound", "No such file or directory"⟩

def denied : FileError := ⟨13, "PermissionDenied", "Permission denied"⟩

def notDirectory : FileError := ⟨20, "NotADirectory", "Not a directory"⟩

def isDirectory : FileError := ⟨21, "IsADirectory", "Is a directory"⟩

def noSpace : FileError := ⟨28, "StorageFull", "No space left on device"⟩

def nameTooLong : FileError := ⟨36, "InvalidFilename", "File name too long"⟩

/-- The errors that are told apart. -/
def known : List FileError :=
  [notFound, denied, notDirectory, isDirectory, noSpace, nameTooLong]

/-- The error as a report shows it. -/
def report (e : FileError) : String :=
  "Os \x7b code: " ++ describe e.code ++ ", kind: " ++ e.kind ++ ", message: " ++
    Text.quoted e.message ++ " \x7d"

end FileError

/-- A plan of requests that ends with a value. -/
inductive Session (α : Type) where
  /-- Nothing more to request. -/
  | done (a : α)
  /-- Reads the file with a path. -/
  | read (path : String) (next : Except FileError (List UInt8) → Session α)
  /-- Saves a text under a path, in place of what is there. -/
  | save (path text : String) (next : Except FileError Unit → Session α)
  /-- Reads the clock. -/
  | clock (next : Duration → Session α)

namespace Session

variable {α β : Type}

/-- One plan and then another, which depends on the value of the first. -/
def bind : Session α → (α → Session β) → Session β
  | done a, f => f a
  | read path next, f => .read path fun answer => (next answer).bind f
  | save path text next, f => .save path text fun answer => (next answer).bind f
  | clock next, f => .clock fun now => (next now).bind f

instance : Monad Session where
  pure := done
  bind := bind

end Session

end Tool

end WordAutomata
