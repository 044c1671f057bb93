/-!
# File errors
-/

namespace MetaAttack

/-- Why a file or directory could not be used. -/
inductive FileError
  /-- A collection of files has none of this name. -/
  | notInCollection
  /-- The file system has nothing of this name. -/
  | notFound
  | alreadyExists
  | notDirectory
  | isDirectory
  /-- A name on the way is longer than the file system allows. -/
  | nameTooLong
  /-- A path holds a zero character, which no name can have. -/
  | zeroInPath
  /-- The bytes of the file are no text. -/
  | notText
deriving DecidableEq, Repr

/-- The cause in words; that of a file system comes with its number there. -/
def FileError.message : FileError → String
  | notInCollection => "entity not found"
  | notFound => "No such file or directory (os error 2)"
  | alreadyExists => "File exists (os error 17)"
  | notDirectory => "Not a directory (os error 20)"
  | isDirectory => "Is a directory (os error 21)"
  | nameTooLong => "File name too long (os error 36)"
  | zeroInPath => "file name contained an unexpected NUL byte"
  | notText => "stream did not contain valid UTF-8"

end MetaAttack
