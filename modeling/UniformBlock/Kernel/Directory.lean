import UniformBlock.Text.Utf8

/-!
# Directories

A `Directory` is a working directory that holds plain files and nothing else.
`Directory.lookup` follows a path from there. Names are separated by slashes;
empty names and `.` stay where they are, `..` leads out of the directory, and a
file has nothing below it, not even an empty name. The directories around the
working directory are known to exist, but not what they hold.
-/

namespace UniformBlock

inductive Obstacle where
  | absent
  | notADirectory
  | nameTooLong
  | nulInName
  | denied
  | other (reason : String)
deriving DecidableEq, Repr

namespace Obstacle

def message : Obstacle → String
  | absent => "No such file or directory (os error 2)"
  | notADirectory => "Not a directory (os error 20)"
  | nameTooLong => "File name too long (os error 36)"
  | nulInName => "file name contained an unexpected NUL byte"
  | denied => "Permission denied (os error 13)"
  | other reason => reason

end Obstacle

/-- What stands at a path: a file with its name and its bytes, a directory, or
nothing that can be read. -/
inductive Entry where
  | file (name : String) (bytes : List UInt8)
  | directory
  | unreadable (obstacle : Obstacle)
deriving DecidableEq, Repr

structure Directory where
  files : List (String × List UInt8)

namespace Directory

def maxNameBytes : Nat := 255

def maxPathBytes : Nat := 4095

/-- The parts of a text between slashes; `part` holds the characters before the
text that belong to its first part, in reverse. -/
def splitNames (part : List Char) : List Char → List (List Char)
  | [] => [part.reverse]
  | c :: cs =>
    if c = '/' then part.reverse :: splitNames [] cs else splitNames (c :: part) cs

def names (path : String) : List String := (splitNames [] path.toList).map String.ofList

/-- Follow names from the working directory, or from one around it. -/
def follow (d : Directory) : (inside : Bool) → List String → Entry
  | _, [] => .directory
  | inside, name :: rest =>
    if name = "" ∨ name = "." then d.follow inside rest
    else if name = ".." then d.follow false rest
    else if maxNameBytes < (Utf8.bytes name).length then .unreadable .nameTooLong
    else
      match if inside then d.files.lookup name else none with
      | none => .unreadable .absent
      | some bytes => if rest = [] then .file name bytes else .unreadable .notADirectory

def lookup (d : Directory) (path : String) : Entry :=
  if path = "" then .unreadable .absent
  else if path.toList.contains '\x00' then .unreadable .nulInName
  else if maxPathBytes < (Utf8.bytes path).length then .unreadable .nameTooLong
  else d.follow (path.toList.head? ≠ some '/') (names path)

end Directory

end UniformBlock
