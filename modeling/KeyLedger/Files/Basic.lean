import KeyLedger.Files.Path

/-!
# Access to files

What the rest of the library asks of a file system, and how it can fail. The operations report
their failures as values, so that a caller decides what a failure means. There are two file
systems: the one of the operating system, and `Disk`, which is a plain value.

## Main definitions

* `IoError` — why an operation failed
* `MonadFiles` — the operations
-/

namespace KeyLedger

/-- Why an operation on files failed. -/
inductive IoError where
  /-- There is nothing at the path. -/
  | notFound
  /-- Something else is at the path already. -/
  | alreadyExists
  /-- A file stands where a directory should. -/
  | notDirectory
  /-- A directory stands where a file should. -/
  | isDirectory
  /-- The path names a directory that cannot be moved or replaced. -/
  | busy
  /-- The disk is full. -/
  | noSpace
  /-- The bytes of the file are not text. -/
  | notText
  /-- Anything else, in the words of the system. -/
  | other (message : String)
deriving DecidableEq, Repr

/-- The words for a failure. -/
def IoError.message : IoError → String
  | .notFound => "No such file or directory (os error 2)"
  | .alreadyExists => "File exists (os error 17)"
  | .notDirectory => "Not a directory (os error 20)"
  | .isDirectory => "Is a directory (os error 21)"
  | .busy => "Device or resource busy (os error 16)"
  | .noSpace => "No space left on device (os error 28)"
  | .notText => "stream did not contain valid UTF-8"
  | .other message => message

/-- An item of a directory. -/
structure DirItem where
  /-- Its name in the directory. -/
  name : String
  /-- Whether it is a regular file. -/
  isFile : Bool
  /-- When it was last modified, in nanoseconds on the timeline. -/
  modified : Int
deriving DecidableEq, Repr

/-- The operations on files. -/
class MonadFiles (m : Type → Type) where
  /-- The text of a file. -/
  readText : Path → m (Except IoError String)
  /-- Replaces the text of a file, which need not exist. A write that fails may have begun. -/
  writeText : Path → String → m (Except IoError Unit)
  /-- Makes a directory and those above it, as far as they do not exist. -/
  createDirs : Path → m (Except IoError Unit)
  /-- Moves a file, replacing a file at the new path. -/
  rename : Path → Path → m (Except IoError Unit)
  /-- Deletes a file. -/
  removeFile : Path → m (Except IoError Unit)
  /-- The items of a directory. -/
  listDir : Path → m (Except IoError (List DirItem))

export MonadFiles (readText writeText createDirs rename removeFile listDir)

end KeyLedger
