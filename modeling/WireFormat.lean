import WireFormat.CodePointReader
import WireFormat.LengthRange
import WireFormat.Sink
import WireFormat.Written
import WireFormat.BigEndian
import WireFormat.Leaf
import WireFormat.Codec.Basic
import WireFormat.Codec.Decode
import WireFormat.Codec.Encode
import WireFormat.Codec.Build
import WireFormat.Codec.Counted
import WireFormat.Codec.Whole
import WireFormat.Proofs.Action
import WireFormat.Proofs.Streams
import WireFormat.Proofs.Charset.Encoding
import WireFormat.Proofs.Charset.Reading
import WireFormat.Proofs.Chunking
import WireFormat.Proofs.CountedReading
import WireFormat.Proofs.Records
import WireFormat.Proofs.CutMessages
import WireFormat.Proofs.WriteBack
import WireFormat.Proofs.Repetition
import WireFormat.Proofs.TaggedRecords
import WireFormat.Proofs.TaggedProgress
import WireFormat.Proofs.ListsToEnd
import WireFormat.Proofs.ListTurns
import WireFormat.Proofs.BoundedRepetitions
import WireFormat.Proofs.Confinement
import WireFormat.Proofs.SizeArithmetic
import WireFormat.Proofs.FixedSizes
import WireFormat.Proofs.Reports
import WireFormat.Proofs.ReportSums
import WireFormat.Proofs.FramedRecursion
import WireFormat.Proofs.Trees
import WireFormat.Proofs.Charset.Representable
import WireFormat.Proofs.Charset.UnitRuns
import WireFormat.Proofs.BoundedSinks
import WireFormat.Proofs.Hereditary
import WireFormat.Proofs.LazyReferences
import WireFormat.Proofs.LooksAtSizes
import WireFormat.Proofs.FieldPaths
import WireFormat.Proofs.Unions
import WireFormat.Proofs.GuardedReads
import WireFormat.Proofs.FailedReads
import WireFormat.Proofs.ConsecutiveReads
import WireFormat.Proofs.Verdicts
import WireFormat.Proofs.Varint.Words
import WireFormat.Proofs.Varint.Signed
import WireFormat.Proofs.DigitFields
import WireFormat.Proofs.PaddedFields
import WireFormat.Proofs.LengthLimits
import WireFormat.Proofs.IsolatedFrames
import WireFormat.Proofs.FailedWrites
