import Mathlib

/-! # Path texts

The string functions of `vfs.rs`. A `&str` is the list of its UTF-8 bytes: every
function here cuts only at slashes, so the pieces are valid texts again. -/

namespace WovenHat.Vfs

/-- The bytes of a `&str`. -/
abbrev Str := List UInt8

def slash : UInt8 := 47

def ascii (text : List Char) : Str :=
  text.map fun c => c.val.toUInt8

def rootPath : Str := [slash]

/-- `MAX_PATH_SIZE`. -/
def pathCapacity : ℕ := 128

def maxDirName : ℕ := 64

inductive Error where
  | notFound
  | invalidDescriptor
  | invalidPath
  | alreadyExists
  | readOnly
  | full
  | notEmpty
  | io
  deriving DecidableEq, Repr

/-- A path component that `validate_absolute_path` rejects. -/
def badComponent (part : Str) : Bool :=
  part.isEmpty || part == ascii ['.'] || part == ascii ['.', '.'] || part.length > maxDirName

def validateAbsolutePath (path : Str) : Except Error Unit :=
  if path.isEmpty || path.head? != some slash || path.length > pathCapacity then
    .error .invalidPath
  else if path.contains 0 then .error .invalidPath
  else if path != rootPath && (path.tail.splitOn slash).any badComponent then
    .error .invalidPath
  else .ok ()

def stripPrefix (directory path : Str) : Option Str :=
  if directory.isPrefixOf path then some (path.drop directory.length) else none

def descendantSuffix (directory path : Str) : Option Str :=
  (stripPrefix directory path).filter fun suffix => suffix.head? == some slash

/-- `str::rfind` of one byte: the position of its last occurrence. -/
def rfind (byte : UInt8) (path : Str) : Option ℕ :=
  (path.reverse.findIdx? (· == byte)).map fun i => path.length - 1 - i

def parentPath (path : Str) : Option Str :=
  if path = rootPath then none
  else
    let trimmed := path.rdropWhile (· == slash)
    match rfind slash trimmed with
    | some 0 => some rootPath
    | some pos => some (trimmed.take pos)
    | none => none

def immediateChildName (dir child : Str) : Option Str :=
  if child = dir then none
  else if dir = rootPath then
    if child.head? ≠ some slash ∨ child.length < 2 then none
    else if child.tail.contains slash then none
    else some child.tail
  else
    match stripPrefix dir child with
    | none => none
    | some rest =>
      if rest.head? ≠ some slash then none
      else if rest.tail.isEmpty || rest.tail.contains slash then none
      else some rest.tail

end WovenHat.Vfs
