import DeclStyle.Config.StyleConfig
import DeclStyle.FileTree

/-!
# Configuration files

A configuration is read from a given file, or from the first configuration file found in a directory
or one of the directories above it.  The directory to start from need not exist.
-/

namespace DeclStyle.StyleConfig

/-- The name of configuration files. -/
def fileName : String := ".ordo.toml"

/-- Reads the configuration in the file at a path. -/
def load (t : FileTree) (p : Path) : Except ConfigError StyleConfig :=
  match t.readText? p with
  | none => .error .io
  | some text =>
    match parse? text with
    | some c => .ok c
    | none => .error .parse

/-- The first configuration file upward of a directory. -/
def find? (t : FileTree) (directory : Path) : Option Path :=
  (directory.upward.map (·.child fileName)).find? fun p => (t.lookup? p).isSome

/-- Reads the first configuration file upward of a directory, if there is one. -/
def loadFrom (t : FileTree) (directory : Path) :
    Except ConfigError (Option (StyleConfig × Path)) :=
  match find? t directory with
  | none => .ok none
  | some p => (load t p).map fun c => some (c, p)

end DeclStyle.StyleConfig
