import L2State.Lib.SortedMap
import L2State.Lib.Bytes
import L2State.Lib.Except
import L2State.Lib.Rlp
import L2State.Lib.RlpValue
import L2State.Lib.Interleave
import L2State.Lib.Process
import L2State.Lib.Contract
import L2State.Lib.Pipeline
import L2State.Lib.Unique
import L2State.Lib.System
import L2State.Lib.Ring
import L2State.Lib.PrefixRange
import L2State.Lib.Framing
import L2State.Lib.JsonPieces
import L2State.Lib.JsonTokens
import L2State.Lib.JsonDecoder
import L2State.Lib.Succeeds
import L2State.Lib.Stateful
import L2State.Geth.Types
import L2State.Geth.Trie
import L2State.Geth.Reference
import L2State.Bundle.Manifest
import L2State.Geth.Rawdb
import L2State.Bundle.Account
import L2State.State.Visitor
import L2State.State.Traverser
import L2State.State.Groups
import L2State.State.TraverserSpec
import L2State.State.StorageStream
import L2State.State.StorageStreamSpec
import L2State.Bundle.Consumer
import L2State.Bundle.ConsumerSpec
import L2State.Bundle.Canonical
import L2State.Bundle.Writer
import L2State.Bundle.Scanner
import L2State.Bundle.Export
import L2State.Bundle.RoundTrip
import L2State.Bundle.Close
import L2State.Migrate.DirectWriter
import L2State.Migrate.Burst
import L2State.Migrate.BurstSpec
import L2State.Migrate.Partition
import L2State.Migrate.PartitionSpec
import L2State.Publish.AtomicDir
import L2State.Ovm.Index
import L2State.Ovm.Balances
import L2State.Ovm.Reader
import L2State.Ovm.BalancePipeline
import L2State.Ovm.Patch
import L2State.Ovm.PatchLoop
import L2State.Ovm.Storage
import L2State.Ovm.Tempdb
import L2State.Ovm.Audit
import L2State.Ovm.Transform
import L2State.Ovm.Conversion
import L2State.Ovm.Conservation
import L2State.Ovm.AllocInput
import L2State.Ovm.AllocReader
import L2State.Ovm.StrictJson
import L2State.Ovm.AuditFields
import L2State.Ovm.AuditDecode
import L2State.Ovm.Witness
import L2State.Ovm.WitnessLines
import L2State.Ovm.Alloc
import L2State.Ovm.Duplicates
import L2State.Ovm.Ownership
import L2State.Ovm.Strings
import L2State.Ovm.Ancient
import L2State.Ovm.Receipts
import L2State.Prune.Pipeline
import L2State.Prune.PipelineSpec
import L2State.Prune.Walk
import L2State.Prune.Scan
import L2State.Prune.Delete
import L2State.Prune.Keep
import L2State.Prune.Collect
import L2State.Prune.Traversal
import L2State.Prune.Remnant
import L2State.Ovm.History
