import ByteRecord.Main
import ByteRecord.Cursor.Operation
import ByteRecord.FixedLayout
import ByteRecord.Proofs.FixedLayout.Writing
import ByteRecord.Proofs.RoundTrip.Decoded
import ByteRecord.Proofs.RoundTrip.Encoded
import ByteRecord.Proofs.RoundTrip.Reread
import ByteRecord.Proofs.RoundTrip.Reduced
import ByteRecord.Proofs.RoundTrip.Attainable
import ByteRecord.Proofs.Scope.Soundness
import ByteRecord.Proofs.Decode.Locality
import ByteRecord.Proofs.Decode.Bulk
import ByteRecord.Proofs.Decode.Relocation
import ByteRecord.Proofs.Decode.Remainder
import ByteRecord.Proofs.Decode.Counting
import ByteRecord.Proofs.Decode.Truncation
import ByteRecord.Proofs.Decode.Filtering
import ByteRecord.Proofs.Decode.DemandFree
import ByteRecord.Proofs.Decimal.Digits
import ByteRecord.Proofs.Decimal.Magnitude
import ByteRecord.Proofs.Decimal.MachineWords
import ByteRecord.Proofs.Tag.References
import ByteRecord.Proofs.Tag.Rereading
import ByteRecord.Proofs.Tag.Grammar
import ByteRecord.Proofs.Octets.Utf8
import ByteRecord.Proofs.Length.Plain
import ByteRecord.Proofs.Length.Arithmetic
import ByteRecord.Proofs.Length.Counts
import ByteRecord.Proofs.Length.Fields
import ByteRecord.Proofs.Schema.Describing
import ByteRecord.Proofs.Cursor.Decoding
import ByteRecord.Proofs.Cursor.Choice
import ByteRecord.Proofs.Cursor.Record
import ByteRecord.Proofs.Cursor.Refinement
import ByteRecord.Proofs.Cursor.Growth
import ByteRecord.Proofs.Cursor.Orders
import ByteRecord.Proofs.Encode.Acceptance
import ByteRecord.Proofs.Encode.Splicing
import ByteRecord.Proofs.Encode.Rearranging
import ByteRecord.Proofs.CommandLine.Runs
