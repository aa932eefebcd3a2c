import UmbraDB.Lib.Runs
import UmbraDB.Lib.RowStore
import UmbraDB.Lib.Batches
import UmbraDB.Lib.Fallible
import UmbraDB.Lib.OnConflict
import UmbraDB.Lib.Referential
import UmbraDB.Lib.Transducers
import UmbraDB.Js.Text
import UmbraDB.Kv.Rows
import UmbraDB.Kv.System
import UmbraDB.Kv.Replay
import UmbraDB.Kv.Invariant
import UmbraDB.Kv.History
import UmbraDB.Kv.Linear
import UmbraDB.Kv.Conflict
import UmbraDB.Ckpt.Rows
import UmbraDB.Ckpt.RoundTrip
import UmbraDB.Ckpt.Tamper
import UmbraDB.Ckpt.Prune
import UmbraDB.Ckpt.System
import UmbraDB.Ckpt.Grace
import UmbraDB.Ckpt.Advance
import UmbraDB.Ckpt.Sequence
import UmbraDB.Ths.Entry
import UmbraDB.Tx.Statements
import UmbraDB.Tx.Handle
import UmbraDB.Tx.Errors
import UmbraDB.Tx.Faults
import UmbraDB.Lease.System
import UmbraDB.Lease.Exclusion
import UmbraDB.Lease.Hygiene
import UmbraDB.Lease.Contention
import UmbraDB.Lease.Reserve
import UmbraDB.Lib.Trees
import UmbraDB.Js.Numerals
import UmbraDB.Js.Number
import UmbraDB.Js.Decimal
import UmbraDB.Js.Utf8
import UmbraDB.Js.Json
import UmbraDB.Js.NumberText
import UmbraDB.Js.Date
import UmbraDB.Ths.Content
import UmbraDB.Lib.Keyed
import UmbraDB.Lib.Allocator
import UmbraDB.Lib.UniqueIndex
import UmbraDB.Lib.InsertOnly
import UmbraDB.Ths.Storage
import UmbraDB.Ths.Refine
import UmbraDB.Ths.Codec
import UmbraDB.Ths.Concurrent
import UmbraDB.Ths.Orders
import UmbraDB.Ths.Serial
import UmbraDB.Archive.Blocks
import UmbraDB.Archive.Canonical
import UmbraDB.Archive.Sync
import UmbraDB.Archive.CrossCheck
import UmbraDB.Archive.Cursor
import UmbraDB.Archive.Observations
import UmbraDB.Migrate.Runner
import UmbraDB.Migrate.Prefix
import UmbraDB.Migrate.Resume
import UmbraDB.Archive.Rollover
import UmbraDB.Archive.Preserve
import UmbraDB.Archive.Bundle
import UmbraDB.Archive.Retry
import UmbraDB.Archive.Roles
import UmbraDB.Archive.Completeness
import UmbraDB.Wallet.Envelope
import UmbraDB.Wallet.Store
import UmbraDB.Boundary.Calls
import UmbraDB.Boundary.Sound
import UmbraDB.Lib.WorkList
import UmbraDB.Lib.TreeMeasures
import UmbraDB.Lib.LikePattern
import UmbraDB.Lib.Paging
import UmbraDB.Lib.Pieces
import UmbraDB.Lib.SortedTrees
import UmbraDB.Lib.Triples
import UmbraDB.Js.UrlQuery
import UmbraDB.Boundary.Values
import UmbraDB.Boundary.ListKeys
import UmbraDB.Ckpt.Batching
import UmbraDB.Ckpt.History
import UmbraDB.Ckpt.Paging
import UmbraDB.Client.Dsn
import UmbraDB.Migrate.Cleanup
import UmbraDB.Archive.CanonicalJson
import UmbraDB.Archive.Heights
import UmbraDB.Lib.Upserts
import UmbraDB.Lib.RangeScan
import UmbraDB.Watermarks.System
import UmbraDB.Archive.VerifierKeys
import UmbraDB.Archive.Reads
import UmbraDB.Archive.Mirror
import UmbraDB.Lib.Transcripts
import UmbraDB.Ckpt.Wallets
import UmbraDB.Lib.Schedules
import UmbraDB.Archive.Progress
import UmbraDB.Boundary.Streaming
import UmbraDB.Lib.ErrorObjects
import UmbraDB.Lease.Bracket
import UmbraDB.Lib.Groups
import UmbraDB.Archive.Replay
import UmbraDB.Archive.Watermarks
import UmbraDB.Lease.Progress
