import CodeCache.Cache.Revive
import CodeCache.Cache.Save
import CodeCache.Code.Assembler
import CodeCache.Host.World
import CodeCache.Inspection.Cache
import CodeCache.Main
import CodeCache.Proofs.Metadata.Resolution
import CodeCache.Proofs.Bytes.Reading
import CodeCache.Proofs.Tag.Reading
import CodeCache.Proofs.Selection.Checked
import CodeCache.Proofs.Metadata.Storage
import CodeCache.Proofs.Cache.History
import CodeCache.Proofs.Cache.Justified
import CodeCache.Proofs.Store.Storage
import CodeCache.Proofs.Store.FileStorage
import CodeCache.Proofs.Store.Building
import CodeCache.Proofs.Tag.Storage
import CodeCache.Proofs.Assumption.Storage
import CodeCache.Proofs.Code.Storage
import CodeCache.Proofs.Blob.Layout
import CodeCache.Proofs.Blob.Emitting
import CodeCache.Proofs.Host.Counterparts
import CodeCache.Proofs.Blob.Resolving
import CodeCache.Proofs.Code.Program
import CodeCache.Proofs.Code.Twins
import CodeCache.Proofs.Blob.Replaying
import CodeCache.Proofs.Host.Worlds
import CodeCache.Proofs.Host.Changes
import CodeCache.Proofs.Blob.RoundTrip
import CodeCache.Proofs.Blob.Contents
import CodeCache.Proofs.Store.Blocks
import CodeCache.Proofs.Store.Tables
import CodeCache.Proofs.Store.Adding
import CodeCache.Proofs.Store.Rows
import CodeCache.Proofs.Alike
import CodeCache.Proofs.Blob.Matching
import CodeCache.Proofs.Blob.Equivalence
import CodeCache.Proofs.Merge.Reindexing
import CodeCache.Proofs.Merge.Rewriting
import CodeCache.Proofs.Merge.Copying
import CodeCache.Proofs.FileTree
import CodeCache.Proofs.Bytes.Texts
import CodeCache.Proofs.Metadata.Loading
import CodeCache.Proofs.Blob.Parsing
import CodeCache.Proofs.Work
import CodeCache.Proofs.Blob.Images
import CodeCache.Proofs.Store.Chains
import CodeCache.Proofs.Store.Finding
import CodeCache.Proofs.Cache.Attempts
import CodeCache.Proofs.Cache.Loading
import CodeCache.Proofs.Metadata.Interning
import CodeCache.Proofs.Selection.Steady
import CodeCache.Proofs.Selection.Visiting
import CodeCache.Proofs.Selection.Choosing
import CodeCache.Proofs.Cache.Undisturbed
import CodeCache.Proofs.Cache.FallThrough
import CodeCache.Proofs.Merge.Ranking
import CodeCache.Proofs.Merge.Collecting
import CodeCache.Proofs.Merge.Keeping
import CodeCache.Proofs.Merge.Filling
import CodeCache.Proofs.Merge.Output
import CodeCache.Proofs.Store.Reloading
import CodeCache.Proofs.Cache.Saving
import CodeCache.Proofs.Merge.Preserving
import CodeCache.Proofs.Cache.Merging
import CodeCache.Proofs.Cache.PassedOver
import CodeCache.Proofs.Cache.Repeating
import CodeCache.Proofs.Store.Listing
import CodeCache.Proofs.Cache.SavedFiles
import CodeCache.Proofs.Store.Interleaving
import CodeCache.Proofs.Store.Growing
import CodeCache.Proofs.Blob.Encodable
import CodeCache.Proofs.Cache.SavedVersions
import CodeCache.Proofs.Tag.Room
import CodeCache.Proofs.Merge.Aligning
import CodeCache.Proofs.Merge.Planning
import CodeCache.Proofs.Merge.Skipping
import CodeCache.Proofs.Merge.Surviving
import CodeCache.Proofs.Merge.Weighing
import CodeCache.Proofs.Cache.Planning
import CodeCache.Proofs.Cache.Tolerating
import CodeCache.Proofs.Cache.Covering
import CodeCache.Proofs.Selection.Policies
import CodeCache.Proofs.Metadata.Histories
import CodeCache.Proofs.Assumption.Interchanging
import CodeCache.Proofs.Merge.StandingIn
import CodeCache.Proofs.Merge.Reducing
import CodeCache.Proofs.Assumption.Decisions
import CodeCache.Proofs.Merge.Counting
import CodeCache.Proofs.Merge.Referring
import CodeCache.Proofs.Merge.Sharing
import CodeCache.Proofs.Host.Loading
import CodeCache.Proofs.Assumption.Subtree
import CodeCache.Proofs.Assumption.Violating
import CodeCache.Proofs.Assumption.Outgrown
import CodeCache.Proofs.Assumption.Dispatching
import CodeCache.Proofs.Blob.Faults
import CodeCache.Proofs.Blob.Lockstep
import CodeCache.Proofs.Blob.Readback
import CodeCache.Proofs.Store.Indexing
import CodeCache.Proofs.Tag.Passing
import CodeCache.Proofs.Cache.Skipped
import CodeCache.Proofs.Store.Fingerprints
import CodeCache.Proofs.Merge.Grouping
import CodeCache.Proofs.Host.Addresses
import CodeCache.Proofs.Metadata.Handles
import CodeCache.Proofs.Bytes.Bounds
import CodeCache.Proofs.Store.Walks
import CodeCache.Proofs.Store.Machine
import CodeCache.Proofs.Blob.Access
import CodeCache.Proofs.Blob.Malformed
import CodeCache.Proofs.Options.Signs
import CodeCache.Proofs.Assumption.Listing
import CodeCache.Proofs.Bytes.Slots
import CodeCache.Proofs.Blob.Patching
import CodeCache.Proofs.Merge.Inlining
import CodeCache.Proofs.Assumption.Walking
import CodeCache.Proofs.Merge.Remapping
import CodeCache.Proofs.Blob.Estimating
