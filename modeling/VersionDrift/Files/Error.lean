import VersionDrift.Text.Basic

/-!
# Why a file cannot be read

Most causes keep a path from leading anywhere. Only a path that leads somewhere can
lead to a directory or to bytes that are no text.
-/

set_option autoImplicit false

namespace VersionDrift

inductive FileError where
  | notFound
  | notDirectory
  | tooManyLinks
  | nameTooLong
  | nulInPath
  | isDirectory
  | notText
  | failed (reason : Text)
deriving DecidableEq, Repr

namespace FileError

/-- The path leads to nothing. -/
def isLookup : FileError → Bool
  | notFound | notDirectory | tooManyLinks | nameTooLong | nulInPath => true
  | isDirectory | notText | failed _ => false

def message : FileError → Text
  | notFound => "no such file or directory".toList
  | notDirectory => "not a directory".toList
  | tooManyLinks => "too many levels of symbolic links".toList
  | nameTooLong => "file name too long".toList
  | nulInPath => "file name contains a NUL character".toList
  | isDirectory => "is a directory".toList
  | notText => "the file is not valid UTF-8".toList
  | failed reason => reason

end FileError
end VersionDrift
