import Arboretum.Pattern.Segment
import Arboretum.Store.Identity
import Arboretum.Text.Quoted

/-!
# Faults

Everything that can go wrong, by its cause.  Three kinds of fault meet here: those of single
stores (a file missing, a directory not empty, a refusal of the host), those of the library itself
(a flawed pattern, a cancelled run, a missing ability, the void store), and the **wrapped** fault:
a run over a store passes the library's own faults on as they are and reports any other fault of
the store together with the operation, the store and the path.
-/

namespace Arboretum

/-! ## 1. Refusals of the host -/

/-- Why the host refuses a call on its disk. -/
inductive HostRefusal where
  | noEntry
  | busy
  | exists
  | notDirectory
  | isDirectory
  | invalid
  | nameTooLong
  | notEmpty
  | linkLoop
deriving DecidableEq, Repr

namespace HostRefusal

/-- The host's number for the refusal. -/
def number : HostRefusal → Nat
  | .noEntry => 2
  | .busy => 16
  | .exists => 17
  | .notDirectory => 20
  | .isDirectory => 21
  | .invalid => 22
  | .nameTooLong => 36
  | .notEmpty => 39
  | .linkLoop => 40

/-- The host's words for the refusal. -/
def text : HostRefusal → String
  | .noEntry => "No such file or directory"
  | .busy => "Device or resource busy"
  | .exists => "File exists"
  | .notDirectory => "Not a directory"
  | .isDirectory => "Is a directory"
  | .invalid => "Invalid argument"
  | .nameTooLong => "File name too long"
  | .notEmpty => "Directory not empty"
  | .linkLoop => "Too many levels of symbolic links"

end HostRefusal

/-! ## 2. Faults -/

/-- A fault, by its cause. -/
inductive Fault where
  /-- the root can be neither written, made nor removed -/
  | rootDirectory (path : String)
  /-- the directory that should hold the entry is missing -/
  | parentMissing (path : String)
  /-- a file stands where a directory is needed -/
  | notDirectory (path : String)
  /-- the directory to list is missing -/
  | directoryMissing (path : String)
  /-- the file to read is missing -/
  | fileMissing (path : String)
  /-- a directory stands where a file is needed -/
  | isDirectory (path : String)
  /-- the entry to make is there already -/
  | alreadyExists (path : String)
  /-- the entry to remove is missing -/
  | entryMissing (path : String)
  /-- the directory to remove has entries -/
  | notEmpty (path : String)
  /-- the host refuses a call for a path -/
  | host (refusal : HostRefusal) (path : String)
  /-- a fault from outside the library, by its label and text -/
  | foreign (label text : String)
  /-- no address of a database is given -/
  | noDatabaseAddress
  /-- a text is no pattern -/
  | invalidPattern (text : String) (flaw : Pattern.Flaw)
  /-- an operation on the void store -/
  | voidStore (operation : Operation) (store : Store) (path : String)
  /-- an operation of a store failed during a run -/
  | storeCall (operation : Operation) (store : Store) (path : String) (cause : Fault)
  /-- the run was cancelled -/
  | cancelled (reason : String)
  /-- the directory that a walk should start from is missing -/
  | baseMissing (uri : String)
  /-- the place to remove or to copy is missing -/
  | placeMissing (uri : String)
  /-- a walk should start from a file -/
  | directoryExpected (uri : String)
  /-- the store, by its label, lacks an ability -/
  | unsupported (label : String) (ability : Ability)
deriving DecidableEq, Repr

namespace Fault

/-- The class of a fault, as reports label it. -/
def label : Fault → String
  | .rootDirectory _ => "FileExistsError"
  | .parentMissing _ => "FileNotFoundError"
  | .notDirectory _ => "NotADirectoryError"
  | .directoryMissing _ => "FileNotFoundError"
  | .fileMissing _ => "FileNotFoundError"
  | .isDirectory _ => "IsADirectoryError"
  | .alreadyExists _ => "FileExistsError"
  | .entryMissing _ => "FileNotFoundError"
  | .notEmpty _ => "OSError"
  | .host .noEntry _ => "FileNotFoundError"
  | .host .exists _ => "FileExistsError"
  | .host .notDirectory _ => "NotADirectoryError"
  | .host .isDirectory _ => "IsADirectoryError"
  | .host _ _ => "OSError"
  | .foreign label _ => label
  | .noDatabaseAddress => "ValueError"
  | .invalidPattern _ _ => "InvalidPatternError"
  | .voidStore _ _ _ => "InvalidBackendError"
  | .storeCall _ _ _ _ => "BackendError"
  | .cancelled _ => "CancellationError"
  | .baseMissing _ => "PathNotFoundError"
  | .placeMissing _ => "PathNotFoundError"
  | .directoryExpected _ => "DirectoryExpectedError"
  | .unsupported _ _ => "CapabilityNotSupportedError"

/-- **The wording of a fault.** -/
def message : Fault → String
  | .rootDirectory path => "Root directory: " ++ path
  | .parentMissing path => "Parent directory not found: " ++ path
  | .notDirectory path => "Not a directory: " ++ path
  | .directoryMissing path => "Directory not found: " ++ path
  | .fileMissing path => "File not found: " ++ path
  | .isDirectory path => "Is a directory: " ++ path
  | .alreadyExists path => "Already exists: " ++ path
  | .entryMissing path => "Not found: " ++ path
  | .notEmpty path => "Directory not empty: " ++ path
  | .host refusal path =>
    "[Errno " ++ toString refusal.number ++ "] " ++ refusal.text ++ ": " ++ Text.quote path
  | .foreign _ text => text
  | .noDatabaseAddress =>
    "No database URL provided. Pass url= or set the OMNIFS_DATABASE_URL environment variable."
  | .invalidPattern text flaw =>
    "Invalid glob pattern " ++ Text.quote text ++ ": " ++ flaw.message
  | .voidStore operation _ _ => operation.name ++ " not possible on the invalid file system"
  | .storeCall operation store path cause =>
    operation.name ++ " failed for " ++ store.mount ++ path ++ ": " ++ cause.message
  | .cancelled reason => reason
  | .baseMissing uri => "Directory not found: " ++ uri
  | .placeMissing uri => "Not found: " ++ uri
  | .directoryExpected uri => "Not a directory: " ++ uri
  | .unsupported label ability => label ++ " does not support " ++ ability.activity

/-- **The fault is one of the library's own**, which a run passes on as it is. -/
def isOwn : Fault → Bool
  | .invalidPattern _ _ | .voidStore _ _ _ | .storeCall _ _ _ _ | .cancelled _ | .baseMissing _
  | .placeMissing _ | .directoryExpected _ | .unsupported _ _ => true
  | _ => false

/-- The fault as a run reports it: its own as they are, others wrapped. -/
def reported (operation : Operation) (store : Store) (path : String) (f : Fault) : Fault :=
  if f.isOwn then f else .storeCall operation store path f

/-- **Whatever a store does, a run reports one of the library's own faults.** -/
theorem isOwn_reported (operation : Operation) (store : Store) (path : String) (f : Fault) :
    (f.reported operation store path).isOwn = true := by
  unfold reported
  split
  · assumption
  · rfl

end Fault

end Arboretum
