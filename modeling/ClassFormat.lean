import ClassFormat.Bytes.Scalar
import ClassFormat.ClassFile.Codec
import ClassFormat.Validation.Validate
import ClassFormat.Proofs.Bytes.FixedWidth
import ClassFormat.Proofs.Bytes.Scalar
import ClassFormat.Proofs.Bytes.Reads
import ClassFormat.Proofs.Bytes.Refusals
import ClassFormat.Proofs.Bytes.Emits
import ClassFormat.Proofs.Bytes.Lengths
import ClassFormat.Proofs.Bytes.Sinks
import ClassFormat.Proofs.Bytes.Streams
import ClassFormat.Proofs.Text.ModifiedUtf8
import ClassFormat.Proofs.Text.Flaws
import ClassFormat.Proofs.Pool.WellFormed
import ClassFormat.Proofs.Constant.Codec
import ClassFormat.Proofs.Constant.Equality
import ClassFormat.Proofs.Pool.Codec
import ClassFormat.Proofs.Pool.Runs
import ClassFormat.Proofs.Pool.History
import ClassFormat.Proofs.Pool.Deduplication
import ClassFormat.Proofs.Pool.Filling
import ClassFormat.Proofs.Pool.Normalized
import ClassFormat.Proofs.Pool.Replacement
import ClassFormat.Proofs.ClassFile.Codec
import ClassFormat.Proofs.ClassFile.RoundTrip
import ClassFormat.Proofs.ClassFile.Refusals
import ClassFormat.Proofs.ClassFile.Streams
import ClassFormat.Proofs.ClassFile.Causes
import ClassFormat.Proofs.ClassFile.Lengths
import ClassFormat.Proofs.ClassFile.Buffers
import ClassFormat.Proofs.ClassFile.Replacement
import ClassFormat.Proofs.Flags.Sets
import ClassFormat.Proofs.Rules.Thresholds
import ClassFormat.Proofs.Validation.Valid
import ClassFormat.Proofs.Validation.Verdict
import ClassFormat.Proofs.Validation.Reemission
import ClassFormat.Proofs.Validation.ReferenceGraph
import ClassFormat.Proofs.Validation.HandleTargets
import ClassFormat.Proofs.Validation.VersionChange
import ClassFormat.Proofs.Validation.Reports
import ClassFormat.Proofs.Rules.KnownFlags
import ClassFormat.Proofs.Validation.Outline
import ClassFormat.Proofs.Validation.Renumbering
import ClassFormat.Proofs.Validation.CrossReferences
import ClassFormat.Proofs.Validation.Insertion
import ClassFormat.Proofs.Validation.Combinations
import ClassFormat.Proofs.Validation.Diagnosis
import ClassFormat.Proofs.Validation.Windows
