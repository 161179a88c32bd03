/-!
# Working directories

A working directory as a value: the files in it, and what reading a path relative to it gives.
Reading fails as an operating system makes it fail, which is said by `ReadError`.
-/

namespace MatrixScript

inductive ReadError
  | notFound
  | isDirectory
  | nameTooLong
  | invalidText
  | other (reason : String)
deriving DecidableEq, Repr

def ReadError.message : ReadError → String
  | .notFound => "No such file or directory (os error 2)"
  | .isDirectory => "Is a directory (os error 21)"
  | .nameTooLong => "File name too long (os error 36)"
  | .invalidText => "stream did not contain valid UTF-8"
  | .other reason => reason

structure WorkingDirectory where
  files : List (String × ByteArray) := []

namespace WorkingDirectory

/-- The names on a path, without those that stay in the same directory. -/
def components (path : String) : List String :=
  (path.splitOn "/").filter fun name => name != "" && name != "."

/-- The most bytes that a path and a name on it can have. -/
def pathLimit : Nat := 4095
def nameLimit : Nat := 255

def find? (d : WorkingDirectory) (path : String) : Option ByteArray :=
  (d.files.find? fun file => components file.1 == components path).map (·.2)

/-- Why a path without a file cannot be read.  Names are looked up from left to right, so the first
one decides, after any steps to a parent directory. -/
def absenceError (path : String) : ReadError :=
  if path.isEmpty then .notFound
  else
    match (components path).dropWhile (· == "..") with
    | [] => .isDirectory
    | name :: _ => if name.utf8ByteSize > nameLimit then .nameTooLong else .notFound

def read (d : WorkingDirectory) (path : String) : Except ReadError ByteArray :=
  if path.utf8ByteSize > pathLimit then .error .nameTooLong
  else
    match d.find? path with
    | some bytes => .ok bytes
    | none => .error (absenceError path)

end WorkingDirectory

end MatrixScript
