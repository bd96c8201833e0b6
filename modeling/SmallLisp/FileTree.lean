import SmallLisp.Disk
import SmallLisp.Table

/-!
# File trees

A working directory as a tree, and what reading a path in it gives. What lies outside of the
working directory is not known, and counts as directories without entries.
-/

namespace SmallLisp

/-- A file, or a directory with its entries. -/
inductive FileTree where
  | file (bytes : List UInt8)
  | directory (entries : List (String × FileTree))

namespace FileTree

def empty : FileTree := directory []

def entries : FileTree → Table FileTree
  | file _ => []
  | directory entries => entries

/-! ### Building -/

/-- A tree with something else at a path, whose directories are made where they are missing. -/
def alter (change : FileTree → FileTree) : List String → FileTree → FileTree
  | [], tree => change tree
  | name :: names, tree =>
    let child := (tree.entries.get? name).getD empty
    directory (tree.entries.insert name (alter change names child))

def components (path : String) : List String := path.splitOn "/"

def addFile (tree : FileTree) (path : String) (bytes : List UInt8) : FileTree :=
  tree.alter (fun _ => file bytes) (components path)

def addDirectory (tree : FileTree) (path : String) : FileTree :=
  tree.alter (fun child => directory child.entries) (components path)

/-! ### Reading -/

/-- The longest name of a directory entry, in bytes. -/
def longestName : Nat := 255

/-- The longest path, in bytes. -/
def longestPath : Nat := 4095

/-- Follows names from `tree`, the innermost of the directories that were entered. -/
def walk (tree : FileTree) (above : List FileTree) : List String → Except FileFault FileTree
  | [] => .ok tree
  | name :: names =>
    match tree with
    | file _ => .error .notDirectory
    | directory entries =>
      if name = "" || name = "." then walk tree above names
      else if name = ".." then walk (above.headD empty) above.tail names
      else if longestName < name.utf8ByteSize then .error .nameTooLong
      else
        match Table.get? entries name with
        | some child => walk child (tree :: above) names
        | none => .error .notFound

/-- The bytes of the file of a path, seen from the working directory. -/
def read (tree : FileTree) (path : String) : Except FileFault (List UInt8) := do
  if path.toList.contains '\x00' then .error .nulInPath
  else if path.isEmpty then .error .notFound
  else if longestPath < path.utf8ByteSize then .error .nameTooLong
  else
    -- Of the directories outside of the tree nothing is known, also of the outermost one.
    let origin := if path.toList.head? = some '/' then empty else tree
    match ← origin.walk [] (components path) with
    | file bytes => return bytes
    | directory _ => .error .isDirectory

def disk (tree : FileTree) : Disk := ⟨fun path => some (tree.read path)⟩

end FileTree

end SmallLisp
