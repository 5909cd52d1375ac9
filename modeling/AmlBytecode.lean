import AmlBytecode.Item
import AmlBytecode.Sweep
import AmlBytecode.Proofs.ByteMapInversion
import AmlBytecode.Proofs.OpcodeLanguage
import AmlBytecode.Proofs.ItemReading
import AmlBytecode.Proofs.SessionTransitions
import AmlBytecode.Proofs.StreamRoundTrip
import AmlBytecode.Proofs.CheckedReads
import AmlBytecode.Proofs.SilentSteps
import AmlBytecode.Proofs.SessionBounds
import AmlBytecode.Proofs.SweepTiling
import AmlBytecode.Proofs.SweepProgress
import AmlBytecode.Proofs.TermSweep
import AmlBytecode.Proofs.Embedding
import AmlBytecode.Proofs.SweepConcatenation
import AmlBytecode.Proofs.SessionEmbedding
import AmlBytecode.Proofs.CutStreams
import AmlBytecode.Proofs.DescriptorLookups
import AmlBytecode.Proofs.PrintedForms
import AmlBytecode.Proofs.SessionTranscript
import AmlBytecode.Proofs.TerminatedStrings
import AmlBytecode.Proofs.ImmediateNumbers
import AmlBytecode.Proofs.PackedSignatures
import AmlBytecode.Proofs.ByteMapPartition
import AmlBytecode.Proofs.PrintedDescriptors
