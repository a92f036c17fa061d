import QueryMarkup.Main
import QueryMarkup.Proofs.Tree.Nesting
import QueryMarkup.Reactive.Network
import QueryMarkup.Tree.Verify
import QueryMarkup.Proofs.Tree.Arranged
import QueryMarkup.Proofs.Tree.Splice
import QueryMarkup.Proofs.Tree.Keeping
import QueryMarkup.Proofs.Tree.Showing
import QueryMarkup.Proofs.Tree.Slots
import QueryMarkup.Proofs.Tree.FullEntry
import QueryMarkup.Proofs.Tree.Placing
import QueryMarkup.Proofs.Tree.Sound
import QueryMarkup.Proofs.Document.Runs
import QueryMarkup.Proofs.Tree.Verified
import QueryMarkup.Proofs.Document.Soundness
import QueryMarkup.Proofs.Tree.Current
import QueryMarkup.Proofs.Tree.Telling
import QueryMarkup.Proofs.Tree.Writing
import QueryMarkup.Proofs.Tree.Wiring
import QueryMarkup.Proofs.Tree.Rewiring
import QueryMarkup.Proofs.Tree.Upkeep
import QueryMarkup.Proofs.Tree.Schemaless
import QueryMarkup.Proofs.Document.Recomputed
import QueryMarkup.Proofs.Markup.Items
import QueryMarkup.Proofs.Tree.Entries
import QueryMarkup.Proofs.Document.Reports
import QueryMarkup.Proofs.Document.Tags
import QueryMarkup.Proofs.Document.Filling
import QueryMarkup.Proofs.Document.Mirror
import QueryMarkup.Proofs.Document.Faithful
import QueryMarkup.Proofs.Document.Assigned
import QueryMarkup.Proofs.Document.Authored
import QueryMarkup.Proofs.Document.Chunks
import QueryMarkup.Proofs.Document.Drawing
import QueryMarkup.Proofs.Document.Rereading
import QueryMarkup.Proofs.Document.Writable
import QueryMarkup.Proofs.Document.RoundTrip
import QueryMarkup.Proofs.Document.Recovery
import QueryMarkup.Proofs.Document.Settling
import QueryMarkup.Proofs.Document.Formatting
import QueryMarkup.Proofs.Tree.Proper
import QueryMarkup.Proofs.Diagnostic.Suppression
import QueryMarkup.Proofs.Sync.Reading
import QueryMarkup.Proofs.Sync.Pending
import QueryMarkup.Proofs.Document.Headed
import QueryMarkup.Proofs.Sync.Quiet
import QueryMarkup.Proofs.Document.Revision
import QueryMarkup.Proofs.Sync.Lasting
import QueryMarkup.Proofs.Sync.Exclusion
import QueryMarkup.Proofs.Sync.Debounce
import QueryMarkup.Proofs.Tree.Anchored
import QueryMarkup.Proofs.Document.Anchoring
import QueryMarkup.Proofs.Document.Marks
import QueryMarkup.Proofs.Sync.Anchors
import QueryMarkup.Proofs.Validation.Desk
import QueryMarkup.Proofs.Tree.Docket
import QueryMarkup.Proofs.Tree.Watching
import QueryMarkup.Proofs.Tree.Asking
import QueryMarkup.Proofs.Tree.Filing
import QueryMarkup.Proofs.Document.Replies
import QueryMarkup.Proofs.Document.Standing
import QueryMarkup.Proofs.Document.Handing
import QueryMarkup.Proofs.Document.Agreement
import QueryMarkup.Proofs.Document.Findings
import QueryMarkup.Proofs.Tree.Preorder
import QueryMarkup.Proofs.Markup.Content
import QueryMarkup.Proofs.Markup.Places
import QueryMarkup.Proofs.Document.Wellformed
import QueryMarkup.Proofs.Document.Canonical
import QueryMarkup.Proofs.Markup.Tiling
import QueryMarkup.Proofs.Tree.Past
import QueryMarkup.Proofs.Tree.Behind
import QueryMarkup.Proofs.Tree.Enrolled
import QueryMarkup.Proofs.Document.Afresh
import QueryMarkup.Proofs.Document.Elements
import QueryMarkup.Proofs.Document.Placed
import QueryMarkup.Proofs.Document.Refusals
import QueryMarkup.Proofs.Document.Tolerance
import QueryMarkup.Proofs.Tree.Lineage
import QueryMarkup.Proofs.Tree.Recount
import QueryMarkup.Proofs.Tree.Admission
import QueryMarkup.Proofs.Tree.Departure
import QueryMarkup.Proofs.Tree.Planting
import QueryMarkup.Proofs.Document.Folding
import QueryMarkup.Proofs.Document.Growth
import QueryMarkup.Proofs.Document.Pruning
import QueryMarkup.Proofs.Document.Exchange
import QueryMarkup.Proofs.Diagnostic.Cover
import QueryMarkup.Proofs.Document.Printing
import QueryMarkup.Proofs.Markup.Brackets
import QueryMarkup.Proofs.Document.Matching
import QueryMarkup.Proofs.Tree.InPlace
import QueryMarkup.Proofs.Document.Refused
import QueryMarkup.Proofs.Text.Grammar
import QueryMarkup.Proofs.Markup.Embedding
import QueryMarkup.Proofs.Reactive.Cascade
import QueryMarkup.Proofs.Reactive.Deriving
import QueryMarkup.Proofs.Reactive.Freshness
import QueryMarkup.Proofs.Markup.Frame
import QueryMarkup.Proofs.Document.Determined
import QueryMarkup.Proofs.Document.FrameReader
import QueryMarkup.Proofs.Document.Labels
import QueryMarkup.Proofs.Document.Containment
import QueryMarkup.Proofs.Tree.Lookup
import QueryMarkup.Proofs.Tree.Audience
import QueryMarkup.Proofs.Tree.Listeners
import QueryMarkup.Proofs.Document.Subscriptions
import QueryMarkup.Proofs.Tree.Tally
import QueryMarkup.Proofs.Tree.Rechecking
import QueryMarkup.Proofs.Tree.Demanding
import QueryMarkup.Proofs.Tree.Lasting
import QueryMarkup.Proofs.Document.Rechecks
import QueryMarkup.Proofs.Document.Naming
import QueryMarkup.Proofs.Document.Chronicle
import QueryMarkup.Proofs.Document.Collection
import QueryMarkup.Proofs.Document.Queries
import QueryMarkup.Proofs.Tree.Visits
import QueryMarkup.Proofs.Tree.Endless
import QueryMarkup.Proofs.Tree.Orderly
import QueryMarkup.Proofs.Diagnostic.Lines
import QueryMarkup.Proofs.Document.Messages
import QueryMarkup.Proofs.Document.Breaks
import QueryMarkup.Proofs.Text.Position
