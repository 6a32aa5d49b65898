import Arboretum.Archive.Filing

/-!
# The command

Reads the working directory, archives it and prints the summary.  Everything decided is decided in
`Arboretum.Archive`; here files are only read and the text written.  Names come as texts here, so
there are no stray places.
-/

namespace Arboretum

/-- The entries of a host directory that an archive can take: files within the size limit, links to
such files, and directories.  What cannot be read is left out. -/
partial def loadDirectory (entries : List IO.FS.DirEntry) : IO (Forest DiskLeaf) :=
  entries.foldlM (fun forest entry => do
    try
      let shown ← entry.path.symlinkMetadata
      let meant ← entry.path.metadata
      match shown.type, meant.type with
      | .dir, _ =>
        let inside ← loadDirectory (← entry.path.readDir).toList
        return forest.put entry.fileName (.folder inside)
      | _, .file =>
        if meant.byteSize.toNat ≤ Archive.sizeLimit then
          let data ← IO.FS.readBinFile entry.path
          return forest.put entry.fileName (.leaf (.file data))
        else return forest
      | _, _ => return forest
    catch _ => return forest) .empty

/-- A disk with one directory and what is in it, which is the working directory. -/
def diskOf (directory : String) (inside : Forest DiskLeaf) : Disk :=
  let names := Archive.namesOn directory
  ⟨names.foldr (fun name inside => .folder name inside .empty) inside, names⟩

end Arboretum

/-- Archives the working directory and prints the summary. -/
def main : IO UInt32 := do
  let here ← IO.currentDir
  let inside ← Arboretum.loadDirectory (← here.readDir).toList
  let directory := here.toString
  let database := directory ++ "/omnifs_repo.db"
  let world := Arboretum.World.initial (Arboretum.diskOf directory inside)
  match Arboretum.Archive.archive directory database [] world with
  | (.ok summary, _) =>
    IO.print (summary.text directory database)
    return 0
  | (.error f, _) =>
    IO.eprintln (f.label ++ ": " ++ f.message)
    return 1
