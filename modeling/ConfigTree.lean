import ConfigTree.Scheme
import ConfigTree.Hash.Hex
import ConfigTree.Hash.Json
import ConfigTree.Path.Json
import ConfigTree.Json.Inspect
import ConfigTree.Tree.Text
import ConfigTree.Diff
import ConfigTree.Registry.Run
import ConfigTree.Registry.Log
import ConfigTree.Main
import ConfigTree.Tree.Ordered
import ConfigTree.Proofs.Content
import ConfigTree.Proofs.Nodes
import ConfigTree.Proofs.Reachable
import ConfigTree.Proofs.Integrity
import ConfigTree.Proofs.Canonical
import ConfigTree.Proofs.Diff
import ConfigTree.Proofs.Bookkeeping
import ConfigTree.Proofs.Notifications
import ConfigTree.Proofs.Detection
import ConfigTree.Proofs.Insertion
import ConfigTree.Proofs.Assignments
import ConfigTree.Proofs.Comparison
import ConfigTree.Proofs.Course
import ConfigTree.Proofs.Dispatch
import ConfigTree.Proofs.Queues
import ConfigTree.Proofs.Lockstep
import ConfigTree.Proofs.Streams
import ConfigTree.Proofs.Entries
import ConfigTree.Proofs.Placing
import ConfigTree.Proofs.Movement
import ConfigTree.Proofs.Sharing
import ConfigTree.Proofs.Rerooting
import ConfigTree.Proofs.Removal
import ConfigTree.Proofs.Rebuilding
import ConfigTree.Proofs.CommandLines
import ConfigTree.Proofs.Listing
import ConfigTree.Proofs.Registrations
import ConfigTree.Proofs.Undoing
import ConfigTree.Proofs.EntryLists
import ConfigTree.Proofs.StringLiterals
import ConfigTree.Proofs.TextValues
import ConfigTree.Proofs.Numerals
import ConfigTree.Proofs.ValueTexts
import ConfigTree.Proofs.Dumps
import ConfigTree.Proofs.SerialForms
import ConfigTree.Proofs.DistinctTexts
import ConfigTree.Proofs.BinaryForms
import ConfigTree.Proofs.JsonValues
import ConfigTree.Proofs.Overtaking
import ConfigTree.Proofs.FirstFaults
import ConfigTree.Proofs.HexTexts
import ConfigTree.Proofs.DottedPaths
import ConfigTree.Proofs.Failures
import ConfigTree.Proofs.Grammar
import ConfigTree.Proofs.SettingsTexts
import ConfigTree.Proofs.Digests
import ConfigTree.Proofs.NodeBytes
import ConfigTree.Proofs.ChildEdits
import ConfigTree.Proofs.Releases
