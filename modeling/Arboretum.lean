import Arboretum.Address
import Arboretum.Archive.Collect
import Arboretum.Archive.Filing
import Arboretum.Archive.Shelf
import Arboretum.Archive.Stray
import Arboretum.Archive.Summary
import Arboretum.Copying
import Arboretum.Entry
import Arboretum.Fault
import Arboretum.Forest
import Arboretum.Glob
import Arboretum.Handle
import Arboretum.Listing
import Arboretum.Main
import Arboretum.Path.Host
import Arboretum.Path.Lexical
import Arboretum.Path.Virtual
import Arboretum.Pattern.Basic
import Arboretum.Pattern.Item
import Arboretum.Pattern.Like
import Arboretum.Pattern.Regex
import Arboretum.Pattern.Segment
import Arboretum.Pattern.Shell
import Arboretum.Proofs.Archive.Collected
import Arboretum.Proofs.Archive.Exact
import Arboretum.Proofs.Archive.Found
import Arboretum.Proofs.Archive.Stored
import Arboretum.Proofs.Conduct
import Arboretum.Proofs.Copying.Ending
import Arboretum.Proofs.Copying.Exact
import Arboretum.Proofs.Glob.Capturing
import Arboretum.Proofs.Glob.Conduct
import Arboretum.Proofs.Glob.Exact
import Arboretum.Proofs.Glob.Expansion
import Arboretum.Proofs.Glob.Hinting
import Arboretum.Proofs.Glob.Lazy
import Arboretum.Proofs.Glob.Reference
import Arboretum.Proofs.Glob.Resuming
import Arboretum.Proofs.Glob.Rooted
import Arboretum.Proofs.Glob.Shortcut
import Arboretum.Proofs.Glob.Stages
import Arboretum.Proofs.Listing.Bounded
import Arboretum.Proofs.Path.Back
import Arboretum.Proofs.Path.Clean
import Arboretum.Proofs.Path.Descent
import Arboretum.Proofs.Path.Fields
import Arboretum.Proofs.Path.Host
import Arboretum.Proofs.Path.Parts
import Arboretum.Proofs.Path.Rejoining
import Arboretum.Proofs.Path.Stack
import Arboretum.Proofs.Pattern.Accepting
import Arboretum.Proofs.Pattern.Expression
import Arboretum.Proofs.Pattern.Grammar
import Arboretum.Proofs.Pattern.Like
import Arboretum.Proofs.Pattern.Meaning
import Arboretum.Proofs.Pattern.Reading
import Arboretum.Proofs.Pattern.Rooted
import Arboretum.Proofs.Pattern.Shell
import Arboretum.Proofs.Registry.Canonical
import Arboretum.Proofs.Registry.Histories
import Arboretum.Proofs.Registry.Home
import Arboretum.Proofs.Registry.Naming
import Arboretum.Proofs.Registry.Places
import Arboretum.Proofs.Registry.Routing
import Arboretum.Proofs.Removal.Disk
import Arboretum.Proofs.Removal.Exact
import Arboretum.Proofs.Removal.Frame
import Arboretum.Proofs.Signals.Deriving
import Arboretum.Proofs.Store.Building
import Arboretum.Proofs.Store.Changing
import Arboretum.Proofs.Store.Following
import Arboretum.Proofs.Store.Further
import Arboretum.Proofs.Store.Growing
import Arboretum.Proofs.Store.Hints
import Arboretum.Proofs.Store.LeadingBack
import Arboretum.Proofs.Store.Listed
import Arboretum.Proofs.Store.Losing
import Arboretum.Proofs.Store.Memory
import Arboretum.Proofs.Store.Refinement
import Arboretum.Proofs.Store.Rows
import Arboretum.Proofs.Store.Spaces
import Arboretum.Proofs.Store.Table
import Arboretum.Proofs.Store.Writing
import Arboretum.Proofs.Traversal.Along
import Arboretum.Proofs.Traversal.Course
import Arboretum.Proofs.Traversal.Diary
import Arboretum.Proofs.Traversal.Ending
import Arboretum.Proofs.Traversal.Listings
import Arboretum.Proofs.Traversal.Protocol
import Arboretum.Proofs.Traversal.Recording
import Arboretum.Proofs.Traversal.Resuming
import Arboretum.Proofs.Traversal.Revealing
import Arboretum.Proofs.Traversal.Steps
import Arboretum.Proofs.Traversal.Taking
import Arboretum.Proofs.Tree.Forest
import Arboretum.Proofs.Tree.Outline
import Arboretum.Proofs.Tree.Rising
import Arboretum.Proofs.Tree.Subtrees
import Arboretum.Proofs.Tree.View
import Arboretum.Proofs.Walk.Conduct
import Arboretum.Proofs.Walk.Ending
import Arboretum.Proofs.Walk.Exact
import Arboretum.Proofs.Walk.Looking
import Arboretum.Proofs.Walk.Meddling
import Arboretum.Proofs.Walk.Reference
import Arboretum.Registry
import Arboretum.Removal
import Arboretum.Signals
import Arboretum.Store.Call
import Arboretum.Store.Change
import Arboretum.Store.Disk
import Arboretum.Store.Identity
import Arboretum.Store.Memory
import Arboretum.Store.Storage
import Arboretum.Store.Table
import Arboretum.Text.Blank
import Arboretum.Text.Printable
import Arboretum.Text.Quoted
import Arboretum.Traversal.Basic
import Arboretum.Traversal.Run
import Arboretum.Walk
import Arboretum.World
