import DeclStyle.FileTree
import DeclStyle.Log

/-!
# Log files

A log file is opened at a path, which empties it, and is then sent records.  Installing one for the
whole program fails if it cannot be opened, or if messages go to another log already.
-/

namespace DeclStyle

/-- Why a log file cannot be installed. -/
inductive LogError where
  /-- The file cannot be opened for writing. -/
  | io
  /-- Messages go to another log already. -/
  | alreadyInitialized
  deriving DecidableEq, Repr, Inhabited

namespace LogError

/-- The wording of an error that has one. -/
def message? : LogError → Option String
  | io => none
  | alreadyInitialized => some "a logger is already installed"

end LogError

namespace LogFile

/-- Checks that a log file can be opened at a path. -/
def check (t : FileTree) (p : Path) : Except LogError Unit :=
  if t.isWritable p then .ok () else .error .io

/-- The error of installing a log file at a path while messages go to another log already. -/
def installError (t : FileTree) (p : Path) : LogError :=
  match check t p with
  | .ok _ => .alreadyInitialized
  | .error e => e

end LogFile

end DeclStyle
