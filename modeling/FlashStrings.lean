import FlashStrings.Main
import FlashStrings.Proofs.Invocation.Segments
import FlashStrings.Proofs.Invocation.Pieces
import FlashStrings.Proofs.Literal.PlainText
import FlashStrings.Proofs.Invocation.Texts
import FlashStrings.Proofs.Merge.Order
import FlashStrings.Proofs.Run.References
import FlashStrings.Proofs.Merge.Shortcut
import FlashStrings.Proofs.Source.Continuation
import FlashStrings.Proofs.Run.Regenerate
import FlashStrings.Proofs.Run.Rounds
import FlashStrings.Proofs.IndexedDatabase.Saved
import FlashStrings.Proofs.Emit.Tables
import FlashStrings.Proofs.Emit.Header
import FlashStrings.Proofs.Command.ExitStatus
import FlashStrings.Proofs.FileTree.Interrupted
import FlashStrings.Proofs.Run.Interrupted
import FlashStrings.Proofs.Run.Settled
import FlashStrings.Proofs.Invocation.Clauses
import FlashStrings.Proofs.Run.Pasted
import FlashStrings.Proofs.Source.Forwarding
import FlashStrings.Proofs.Run.Literals
import FlashStrings.Proofs.Emit.StaticNames
import FlashStrings.Proofs.IndexedDatabase.Rejection
import FlashStrings.Proofs.ByteScan.Locations
import FlashStrings.Proofs.Invocation.Grouping
import FlashStrings.Proofs.ByteScan.Open
import FlashStrings.Proofs.Source.Composed
import FlashStrings.Proofs.Source.Blanked
import FlashStrings.Proofs.Config.Literals
import FlashStrings.Proofs.IndexedDatabase.Repeated
import FlashStrings.Proofs.Source.Wrapped
import FlashStrings.Proofs.IndexedDatabase.Normal
import FlashStrings.Proofs.IndexedDatabase.Members
import FlashStrings.Proofs.Run.Sources
import FlashStrings.Proofs.Run.Compact
import FlashStrings.Proofs.IndexedDatabase.Named
import FlashStrings.Proofs.Query.Found
import FlashStrings.Proofs.ByteScan.Split
