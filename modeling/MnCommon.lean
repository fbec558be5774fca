import MnCommon.Memory.Heap
import MnCommon.Memory.Chain
import MnCommon.Memory.LinkedTree
import MnCommon.Trees.Zipper
import MnCommon.Trees.Search
import MnCommon.Trees.RedBlack
import MnCommon.Rbt.Model
import MnCommon.Rbt.Shape
import MnCommon.Rbt.InsertFixup
import MnCommon.Rbt.Insert
import MnCommon.Rbt.RemoveFixup
import MnCommon.Rbt.Remove
import MnCommon.Rbt.Map
import MnCommon.Rbt.InsertBalance
import MnCommon.Rbt.RemoveBalance
import MnCommon.Btrie.Order
import MnCommon.Btrie.Shape
import MnCommon.Memory.Segment
import MnCommon.Memory.Run
import MnCommon.Bytestream.Model
import MnCommon.Bytestream.Buffer
import MnCommon.Bytestream.Transfer
import MnCommon.Bytestream.Cursors
import MnCommon.Bytestream.Append
import MnCommon.Bytestream.Lines
import MnCommon.Bytestream.Resume
import MnCommon.Bytestream.MemorySource
import MnCommon.Vbytestream.Model
import MnCommon.Vbytestream.Layout
import MnCommon.Vbytestream.Nprintf
import MnCommon.Vbytestream.Append
import MnCommon.Vbytestream.Write
import MnCommon.Vbytestream.Agreement
import MnCommon.Vbytestream.Send
import MnCommon.Vbytestream.Read
import MnCommon.Mpool.Model
import MnCommon.Mpool.Layout
import MnCommon.Mpool.Blocks
import MnCommon.Mpool.Containment
import MnCommon.Trees.HeapOrder
import MnCommon.Mnheap.Model
import MnCommon.Mnheap.Order
import MnCommon.Mnheap.Queue
import MnCommon.Mnheap.Search
import MnCommon.Memory.Lifecycle
import MnCommon.Arrays.Model
import MnCommon.Arrays.Calls
import MnCommon.Arrays.Lifecycle
import MnCommon.Arrays.GetSafe
import MnCommon.Arrays.Reserve
import MnCommon.Arrays.Index
import MnCommon.IndexedList.Model
import MnCommon.IndexedList.Entries
import MnCommon.IndexedList.Growth
import MnCommon.IndexedList.Lengths
import MnCommon.IndexedList.Runs
import MnCommon.IndexedList.Failures
import MnCommon.Memory.Records
import MnCommon.Memdebug.Model
import MnCommon.Memdebug.Accounting
import MnCommon.Hash.Model
import MnCommon.Hash.Layout
import MnCommon.Hash.Chains
import MnCommon.Hash.Unlink
import MnCommon.Hash.Shadowing
import MnCommon.Hash.Rehash
import MnCommon.Hash.Cleanup
import MnCommon.Hash.Steps
import MnCommon.Hash.BackLinks
import MnCommon.Hash.Ledger
import MnCommon.Hash.Deletion
import MnCommon.Hash.Iterator
import MnCommon.Hash.Counting
import MnCommon.Hash.Sets
import MnCommon.Hash.SetAlgebra
import MnCommon.Trees.Travel
import MnCommon.Tries.Patricia
import MnCommon.Pbtrie.Model
import MnCommon.Pbtrie.Masks
import MnCommon.Pbtrie.Layout
import MnCommon.Pbtrie.Walk
import MnCommon.Pbtrie.Updates
import MnCommon.Pbtrie.Map
import MnCommon.Grammars.Json
import MnCommon.Grammars.Unique
import MnCommon.Grammars.Rfc7159
import MnCommon.Grammars.Spelling
import MnCommon.Grammars.Units
import MnCommon.JsonParser.Model
import MnCommon.JsonParser.Scan
import MnCommon.JsonParser.Events
import MnCommon.JsonParser.Reading
import MnCommon.JsonParser.Sound
import MnCommon.JsonParser.Accept
import MnCommon.JsonParser.Fidelity
import MnCommon.JsonParser.Machine
import MnCommon.JsonParser.Reader
import MnCommon.JsonParser.Calls
import MnCommon.JsonParser.Walk
import MnCommon.JsonParser.Compare
import MnCommon.JsonParser.Record
import MnCommon.JsonParser.Nesting
import MnCommon.JsonParser.Propagation
import MnCommon.JsonParser.UserData
import MnCommon.JsonParser.Resumption
import MnCommon.JsonParser.Reset
import MnCommon.JsonParser.Hints
import MnCommon.Bytes.Escape
import MnCommon.Jparse.Model
import MnCommon.Jparse.Chunks
import MnCommon.Jparse.Progress
import MnCommon.Jparse.Scan
import MnCommon.Jparse.Lexemes
import MnCommon.Jparse.Alternatives
import MnCommon.Jparse.Operations
import MnCommon.Jparse.Integers
import MnCommon.Jparse.Items
import MnCommon.Jparse.Accept
import MnCommon.Jparse.Sound
import MnCommon.Jparse.Counts
import MnCommon.Jparse.Types
import MnCommon.Jparse.Pairs
import MnCommon.Jparse.Weights
import MnCommon.Jparse.Outcomes
import MnCommon.Jparse.Bounds
import MnCommon.Jparse.Restore
import MnCommon.Jparse.Context
import MnCommon.Jparse.Reuse
import MnCommon.JsonWriter.Model
import MnCommon.JsonWriter.Writers
import MnCommon.JsonWriter.Objects
import MnCommon.JsonWriter.RoundTrip
import MnCommon.Memory.Strand
import MnCommon.Queues.Model
import MnCommon.Queues.Dtqueue
import MnCommon.Queues.Lined
import MnCommon.Queues.Calls
import MnCommon.Queues.Recycle
import MnCommon.Queues.Stqueue
import MnCommon.Bytes.Fasthash
import MnCommon.Sketches.CountMin
import MnCommon.Sketches.Model
import MnCommon.Sketches.Counters
import MnCommon.Traversedir.Model
import MnCommon.Traversedir.Stop
import MnCommon.Hash.Sweep
import MnCommon.PropertySet.Model
import MnCommon.PropertySet.Wheel
import MnCommon.PropertySet.Pop
import MnCommon.PropertySet.TopK
import MnCommon.PropertySet.Runs
import MnCommon.Memory.Records
import MnCommon.Bytes.Base64
import MnCommon.ByteStrings.Model
import MnCommon.ByteStrings.Calls
import MnCommon.ByteStrings.Cache
import MnCommon.ByteStrings.JsonEscape
import MnCommon.Radix.Words
import MnCommon.ByteStrings.Compare
import MnCommon.Radix.Sextets
import MnCommon.ByteStrings.UrlEncode
import MnCommon.Base64.Model
import MnCommon.Base64.Codec
import MnCommon.Base64.RoundTrip
import MnCommon.Base64.Decoders
import MnCommon.ByteStrings.Base64
import MnCommon.ByteStrings.Bytewise
import MnCommon.ByteStrings.Decode
import MnCommon.Substrings.First
import MnCommon.ByteStrings.Search
import MnCommon.ByteStrings.Split
import MnCommon.Ring.Model
import MnCommon.Ring.Walk
import MnCommon.JsonParser.TypeHint
import MnCommon.Bytestream.RawAppend
import MnCommon.Jparse.Termination
import MnCommon.Hash.Leaks
import MnCommon.Hash.Members
import MnCommon.JsonWriter.Documents
import MnCommon.Btrie.Fini
import MnCommon.Memory.References
import MnCommon.Vbytestream.Sharing
import MnCommon.Arrays.Iterators
import MnCommon.Mnheap.Refinement
import MnCommon.Bytestream.Relay
import MnCommon.Texts.Table
import MnCommon.Dumpm.Model
import MnCommon.Dumpm.ReadBack
import MnCommon.Memdebug.Flows
