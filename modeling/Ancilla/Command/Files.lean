/-!
Files as a command line refers to them. A path leads from the working directory or, if it starts
with a slash, from the root of the tree; each step is taken in turn, and the first that fails says
why.
-/

namespace Ancilla.Command

inductive FileError
  | missing
  | notDirectory
  | isDirectory
  | longName
  deriving DecidableEq, Repr

def FileError.message : FileError → String
  | missing => "No such file or directory (os error 2)"
  | notDirectory => "Not a directory (os error 20)"
  | isDirectory => "Is a directory (os error 21)"
  | longName => "File name too long (os error 36)"

inductive FileTree
  | file (text : String)
  | directory (entries : List (String × FileTree))

structure Place where
  here : FileTree
  above : List FileTree := []

namespace Place

def root (p : Place) : Place := ⟨p.above.getLast?.getD p.here, []⟩

def nameLimit : Nat := 255

def pathLimit : Nat := 4095

def follow (p : Place) (step : String) : Except FileError Place :=
  match p.here with
  | .file _ => .error .notDirectory
  | .directory entries =>
    if step = "" ∨ step = "." then .ok p
    else if step = ".." then
      match p.above with
      -- the root is above itself
      | [] => .ok p
      | t :: rest => .ok ⟨t, rest⟩
    else if nameLimit < step.utf8ByteSize then .error .longName
    else
      match entries.lookup step with
      | some t => .ok ⟨t, p.here :: p.above⟩
      | none => .error .missing

def read (p : Place) (path : String) : Except FileError String := do
  if path = "" then throw .missing
  if pathLimit < path.utf8ByteSize then throw .longName
  let start := if path.startsWith "/" then p.root else p
  match (← (path.splitOn "/").foldlM follow start).here with
  | .file text => return text
  | .directory _ => throw .isDirectory

def usualNames : List String :=
  ["bin", "etc", "home", "lib", "opt", "proc", "root", "run", "sys", "usr", "var"]

def working (files : List (String × String)) : Place :=
  let temporary := FileTree.directory []
  let device := FileTree.directory [("null", .file "")]
  let top := FileTree.directory
    (("tmp", temporary) :: ("dev", device) :: usualNames.map fun name => (name, .directory []))
  ⟨.directory (files.map fun (name, text) => (name, .file text)), [temporary, top]⟩

end Place
end Ancilla.Command
