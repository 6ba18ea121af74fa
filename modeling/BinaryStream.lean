import BinaryStream.Cell
import BinaryStream.Layout.Accessor
import BinaryStream.ByteCursor.Command
import BinaryStream.ByteCursor.Logged
import BinaryStream.BitCopy
import BinaryStream.ByteRegion
import BinaryStream.Document
import BinaryStream.ZeroCount
import BinaryStream.Proofs.BitList
import BinaryStream.Proofs.BitBuffer
import BinaryStream.Proofs.ByteCursor.Window
import BinaryStream.Proofs.ByteCursor.Reads
import BinaryStream.Proofs.ByteCursor.Views
import BinaryStream.Proofs.ByteCursor.Safety
import BinaryStream.Proofs.ByteCursor.Clamping
import BinaryStream.Proofs.ByteCursor.Arrays
import BinaryStream.Proofs.ByteCursor.Lines
import BinaryStream.Proofs.ByteCursor.Strings
import BinaryStream.Proofs.BitCursor.Tape
import BinaryStream.Proofs.BitCursor.Reachable
import BinaryStream.Proofs.BitRoundTrip
import BinaryStream.Proofs.ByteNumber
import BinaryStream.Proofs.SignExtension
import BinaryStream.Proofs.Scalar
import BinaryStream.Proofs.ByteCursor.Chain
import BinaryStream.Proofs.ScalarRoundTrip
import BinaryStream.Proofs.ByteCursor.Tape
import BinaryStream.Proofs.BitCopy
import BinaryStream.Proofs.Isolation
import BinaryStream.Proofs.BitSource
import BinaryStream.Proofs.BitSink
import BinaryStream.Proofs.BitTransfer
import BinaryStream.Proofs.ByteRegion
import BinaryStream.Proofs.ByteBuffer
import BinaryStream.Proofs.Write
import BinaryStream.Proofs.Writers
import BinaryStream.Proofs.LastWrite
import BinaryStream.Proofs.Patches
import BinaryStream.Proofs.BigEndian
import BinaryStream.Proofs.Transparency
import BinaryStream.Proofs.ChunkList
import BinaryStream.Proofs.ChunkDocument
import BinaryStream.Proofs.Positional
import BinaryStream.Proofs.Accessors
import BinaryStream.Proofs.Cell
import BinaryStream.Proofs.ZeroCount
import BinaryStream.Proofs.FieldLoops
import BinaryStream.Proofs.Tracing
import BinaryStream.Proofs.Reports
import BinaryStream.Proofs.CopyReports
import BinaryStream.Proofs.Endpoints
