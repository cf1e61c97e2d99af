/-!
# Faults of files

The ways in which reading or writing a file fails, with the number that the system
gives each of them.
-/

namespace Workflow.CommandLine

/-- Why a file cannot be read or written. -/
inductive FileFault where
  /-- There is nothing of that name. -/
  | missing
  /-- It is forbidden. -/
  | denied
  /-- A file stands where a folder is needed. -/
  | notFolder
  /-- A folder stands where a file is needed. -/
  | folder
  /-- There is no room. -/
  | noSpace
  /-- The path or one of its names is too long. -/
  | nameTooLong
  deriving DecidableEq, Repr

namespace FileFault

/-- All faults. -/
def all : List FileFault := [.missing, .denied, .notFolder, .folder, .noSpace, .nameTooLong]

/-- The number of a fault. -/
def code : FileFault → Nat
  | .missing => 2
  | .denied => 13
  | .notFolder => 20
  | .folder => 21
  | .noSpace => 28
  | .nameTooLong => 36

/-- What the system says of a fault. -/
def text : FileFault → String
  | .missing => "No such file or directory"
  | .denied => "Permission denied"
  | .notFolder => "Not a directory"
  | .folder => "Is a directory"
  | .noSpace => "No space left on device"
  | .nameTooLong => "File name too long"

/-- The sentence that reports a fault. -/
def message (f : FileFault) : String := s!"{f.text} (os error {f.code})"

/-- The fault with a number. -/
def ofCode? (code : Nat) : Option FileFault := all.find? (·.code == code)

end FileFault

end Workflow.CommandLine
