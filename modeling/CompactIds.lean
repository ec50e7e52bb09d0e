import CompactIds.Json.Wire
import CompactIds.Peer.Action
import CompactIds.Peer.Conversion
import CompactIds.Proofs.Index
import CompactIds.Proofs.Registry
import CompactIds.Proofs.Chain
import CompactIds.Proofs.Spans
import CompactIds.Proofs.Growth
import CompactIds.Proofs.Primitives
import CompactIds.Proofs.Finalize
import CompactIds.Proofs.Runs
import CompactIds.Proofs.Peer
import CompactIds.Proofs.Loading
import CompactIds.Proofs.WellFormed
import CompactIds.Proofs.Codec
import CompactIds.Proofs.Rebuild
import CompactIds.Proofs.Restore
import CompactIds.Proofs.Tails
import CompactIds.Proofs.HonestRuns
import CompactIds.Proofs.Blocks
import CompactIds.Proofs.Convergence
import CompactIds.Proofs.Lookup
import CompactIds.Proofs.Extends
import CompactIds.Proofs.Generated
import CompactIds.Proofs.OpIds
import CompactIds.Proofs.Positions
import CompactIds.Proofs.OwnIds
import CompactIds.Proofs.Meaning
import CompactIds.Proofs.Compression
import CompactIds.Proofs.Reservations
import CompactIds.Proofs.Neighbours
import CompactIds.Proofs.Permanence
import CompactIds.Proofs.Assignment
import CompactIds.Proofs.Canonical
import CompactIds.Proofs.Shares
import CompactIds.Proofs.Decode
import CompactIds.Proofs.Tables
import CompactIds.Proofs.Acceptance
import CompactIds.Proofs.Alike
import CompactIds.Proofs.Joining
import CompactIds.Proofs.Minting
import CompactIds.Proofs.Saving
import CompactIds.Proofs.Network
import CompactIds.Proofs.Words.Checked
import CompactIds.Proofs.Words.Cluster
import CompactIds.Proofs.Words.Registry
import CompactIds.Proofs.Words.Finalize
import CompactIds.Proofs.Attempts
import CompactIds.Proofs.Verdicts
import CompactIds.Proofs.Words.Peer
import CompactIds.Proofs.Words.Snapshot
import CompactIds.Proofs.Words.Contained
import CompactIds.Proofs.Locating
import CompactIds.Proofs.Eager
import CompactIds.Proofs.Delimited
import CompactIds.Proofs.Gaps
import CompactIds.Proofs.Counterparts
import CompactIds.Proofs.Numbering
import CompactIds.Proofs.Digits
import CompactIds.Proofs.StableText
import CompactIds.Proofs.Json.Tokens
import CompactIds.Proofs.Json.Lossless
import CompactIds.Proofs.Additions
