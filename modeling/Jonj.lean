import Jonj.Lib.DoublyLinked
import Jonj.Lib.OrderedMap
import Jonj.Hash.Basic
import Jonj.Hash.Invariant
import Jonj.Hash.Links
import Jonj.Hash.Lookup
import Jonj.Hash.Refinement
import Jonj.Hash.Operations
import Jonj.Hash.Transfer
import Jonj.Hash.World
import Jonj.Hash.Reindex
import Jonj.Lib.TrialDeletion.Graph
import Jonj.Lib.TrialDeletion.Mark
import Jonj.Lib.TrialDeletion.Scan
import Jonj.Gc.Basic
import Jonj.Gc.Graph
import Jonj.Gc.Mark
import Jonj.Gc.Collect
import Jonj.Gc.Scan
import Jonj.Gc.Buffer
import Jonj.Gc.Roots
import Jonj.Gc.Passes
import Jonj.Gc.Safety
import Jonj.Gc.Machine
import Jonj.Gc.Link
import Jonj.Gc.WellFormed
import Jonj.Gc.Reentry
import Jonj.Opcodes.Basic
import Jonj.Opcodes.NopRemoval
import Jonj.Lib.SlashPath
import Jonj.Basedir.Tree
import Jonj.Basedir.Basic
import Jonj.Basedir.Resolve
import Jonj.Basedir.Check
import Jonj.Basedir.Tightening
import Jonj.Lib.Decimal
import Jonj.Serialize.Basic
import Jonj.Serialize.Writer
import Jonj.Serialize.Reader
import Jonj.Serialize.Scan
import Jonj.Serialize.RoundTrip
import Jonj.Session.Basic
import Jonj.Session.RoundTrip
import Jonj.Lib.Chunks
import Jonj.Serialize.Slots
import Jonj.Serialize.Document
import Jonj.Serialize.ReadDocument
import Jonj.Serialize.Numbering
import Jonj.Serialize.References
import Jonj.Serialize.Termination
import Jonj.Lib.HeapOrder
import Jonj.Spl.Heap
import Jonj.Fcgi.Hash
import Jonj.Fcgi.Refinement
import Jonj.Fcgi.Params
import Jonj.Fcgi.Environment
import Jonj.Lib.QuotedText
import Jonj.Mysqlnd.Charset
import Jonj.Mysqlnd.Literal
import Jonj.Mysqlnd.StrayLead
import Jonj.Lib.Splice
import Jonj.Streams.Basic
import Jonj.Streams.Devices
import Jonj.Streams.Synced
import Jonj.Streams.Refinement
import Jonj.Streams.FailedSeek
import Jonj.Streams.Temp
import Jonj.Hash.Symtable
import Jonj.Operators.NumericString
import Jonj.Lib.Loop
import Jonj.Lib.Rearrangement
import Jonj.Qsort.Basic
import Jonj.Qsort.Partition
import Jonj.Qsort.Sorted
import Jonj.Qsort.Bytes
import Jonj.Alloc.FreeList
import Jonj.Alloc.Tree
import Jonj.Alloc.TreeOps
import Jonj.Alloc.Buckets
import Jonj.Alloc.Search
import Jonj.Alloc.Operations
import Jonj.Opcodes.Finally
import Jonj.Serialize.Numbers
import Jonj.Serialize.Pointer
import Jonj.Serialize.PointerBounds
import Jonj.Output.FlushAll
import Jonj.Output.Calls
import Jonj.Streams.ReadFilters
import Jonj.Streams.Records
import Jonj.Streams.FilterFlush
import Jonj.Streams.Lines
import Jonj.SmartStr
import Jonj.Variables.Post
import Jonj.Variables.Form
import Jonj.Url.Parse
import Jonj.Rfc1867.Words
import Jonj.Digest.Joaat
import Jonj.QuotPrint.Encode
import Jonj.QuotPrint.Decode
import Jonj.Spl.Dllist
import Jonj.Standard.Unpack
