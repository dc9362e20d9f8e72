import ErbLayout.Command.Shell
import ErbLayout.CommandLine.Run
/-!
The program. It takes up the files that a run may look at, lets the run go over them, and writes
back those that it changed.
-/

namespace ErbLayout.CommandLine

open Files

/-- How deep directories are taken up. -/
def maxDepth : Nat := 64

/-- What stands on the disk at an entry of a directory. -/
def takeUp : Nat → IO.FS.DirEntry → IO Node
  | 0, _ => return .directory []
  | depth + 1, e => do
    match (← e.path.symlinkMetadata).type with
    | .dir =>
      let mut found : Entries := []
      for child in ← e.path.readDir do
        found := found.set child.fileName.toList (← takeUp depth child)
      return .directory found
    | .symlink => return .link (← IO.FS.realPath e.path).toString.toList
    | _ => return .file (← IO.FS.readBinFile e.path).toList

/-- Adds what stands on the disk at a location, if anything does. -/
def addFrom (root : IO.FS.DirEntry) (tree : Node) (l : Location) : IO Node := do
  let e := { root with fileName := String.ofList l.text }
  if ← e.path.pathExists then return tree.put l (← takeUp maxDepth e) else return tree

/-- The files below the directory of the run, those above it that concern every directory, and those
that the operands name. -/
def snapshot (args : List Argument) : IO Workspace := do
  let root : IO.FS.DirEntry := ⟨← IO.currentDir, "."⟩
  let location : Location := splitNames root.root.toString.toList
  let above := (Location.ancestors location).flatMap fun l =>
    (Discovery.ignoreName :: Config.names).map fun n => l ++ [n]
  let files := match parse args with
    | .ok o => o.output :: o.files
    | .error _ => []
  let empty : Workspace := ⟨.directory [], location⟩
  let named := files.filterMap fun f => (empty.resolve (Pathname.ofText f)).toOption
  let outside := named.filter fun l => !location.isPrefixOf l && !l.isPrefixOf location
  let tree ← (above ++ outside ++ [location]).foldlM (addFrom root) empty.tree
  return { empty with tree }

/-- Writes a file, which takes its place in one step. -/
def writeBack (l : Location) (n : Node) : IO Unit := do
  match n with
  | .file content =>
    let place := String.ofList l.text
    let partialPlace := place ++ String.ofList Workspace.partialSuffix
    IO.FS.createDirAll (String.ofList (Location.text l.dropLast))
    IO.FS.writeBinFile partialPlace ⟨content.toArray⟩
    IO.FS.rename partialPlace place
  | _ => return ()

/-- Writes what differs between two states of the files. -/
def writeChanges (before after : Node) : IO Unit :=
  after.leaves.forM fun (l, n) =>
    match n, before.get? l with
    | .file new, some (.file old) => if new == old then return () else writeBack l n
    | _, _ => writeBack l n

/-- Above the most names that a run can ask for. -/
def nameLimit : Nat := 0x10000000000000000

/-- Names for placeholders, counted up from a number. -/
def namesFrom (first : Nat) : Placeholder.Names :=
  ⟨fun n => BitVec.ofNat 128 (first + n), 0, nameLimit⟩

def usage : String := "usage: " ++ String.ofList toolName ++ " [options] [files ...]\n"

end ErbLayout.CommandLine

open ErbLayout CommandLine in
def main (args : List String) : IO UInt32 := do
  let args := args.map String.toList
  let workspace ← snapshot args
  let input ← if args.contains Batch.marker then (← IO.getStdin).readBinToEnd else pure .empty
  let first ← IO.rand 0 nameLimit
  let world : World :=
    { workspace, input := input.toList, names := namesFrom first, host := Command.builtin }
  let outcome := world.run args
  writeChanges workspace.tree outcome.workspace.tree
  IO.print (String.ofList outcome.output)
  IO.eprint (String.ofList outcome.errors)
  match outcome.ending with
  | .status n => return UInt32.ofNat n
  | .refused .help =>
    IO.print usage
    return UInt32.ofNat Refusal.help.status
  | .refused .misuse =>
    IO.eprint usage
    return UInt32.ofNat Refusal.misuse.status
  | .failed e =>
    IO.eprint (String.ofList (lineOf e.message))
    return 1
