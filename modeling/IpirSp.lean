import IpirSp.Negacyclic.Ring
import IpirSp.Negacyclic.Automorphism
import IpirSp.Negacyclic.Exponents
import IpirSp.Negacyclic.Evaluation
import IpirSp.KeySwitch.Cascade
import IpirSp.SpiralRs.Poly
import IpirSp.SpiralRs.Automorph
import IpirSp.SpiralRs.Reference
import IpirSp.Inspiring.Params
import IpirSp.Inspiring.Automorph
import IpirSp.Inspiring.ModInverse
import IpirSp.Inspiring.Lwe
import IpirSp.Inspiring.KeySwitching
import IpirSp.Inspiring.Collapse
import IpirSp.Loops.Calls
import IpirSp.Loops.Writes
import IpirSp.Loops.Reduce
import IpirSp.Inspiring.Aggregate
import IpirSp.Inspiring.BodyCollapse
import IpirSp.Inspiring.Preprocess
import IpirSp.Inspiring.Trace
import IpirSp.Inspiring.Phase
import IpirSp.Inspiring.Intermediate
import IpirSp.Inspiring.Tables
import IpirSp.Inspiring.TraceOperator
import IpirSp.Inspiring.Agreement
import IpirSp.Loops.Pairs
import IpirSp.Fft.BitReversal
import IpirSp.Fft.Radix2
import IpirSp.Loops.Scatter
import IpirSp.Negacyclic.Integer
import IpirSp.Crt.Garner
import IpirSp.Reinspiring.Params
import IpirSp.Reinspiring.LiftNtt
import IpirSp.Reinspiring.Coefficients
import IpirSp.Reinspiring.Matrix
import IpirSp.MachineWord.Wrapping
import IpirSp.Reinspiring.Compile
import IpirSp.MachineWord.Dot
import IpirSp.Reinspiring.NativeMatrix
import IpirSp.Reinspiring.Pack
import IpirSp.Reinspiring.Refinement
import IpirSp.Inspiring.PreprocessReuse
import IpirSp.Reinspiring.CompileNaive
import IpirSp.Reinspiring.LiftPublic
import IpirSp.Reinspiring.NativeParams
import IpirSp.Reinspiring.AggregateMasks
import IpirSp.Gadget.Balanced
import IpirSp.Inspiring.SignedDigits
import IpirSp.Inspiring.Usable
import IpirSp.Inspiring.MappedPrepared
import IpirSp.Inspiring.Prepared
import IpirSp.Inspiring.PreparedCodec
import IpirSp.Codec.LittleEndian
import IpirSp.Reinspiring.Decompose
import IpirSp.Reinspiring.MixedDigits
import IpirSp.Reinspiring.NativeSetup
import IpirSp.Reinspiring.NativeBuild
import IpirSp.Reinspiring.NativeTrace
import IpirSp.Reinspiring.SlotOrder
import IpirSp.Reinspiring.NativePack
import IpirSp.Codec.Cursor
import IpirSp.Codec.Canonical
import IpirSp.Codec.Lockstep
import IpirSp.NativeClient.Profile
import IpirSp.Reinspiring.NativeArtefact
import IpirSp.Reinspiring.PreparedNative
import IpirSp.Codec.BitStream
import IpirSp.NativeClient.Bits
import IpirSp.Rounding.Cyclic
import IpirSp.Loops.Stateful
import IpirSp.Reinspiring.NativeSecret
import IpirSp.NativeClient.Wire
import IpirSp.Reinspiring.NativeDecoder
import IpirSp.NativeClient.Request
import IpirSp.NativeServer.Parse
import IpirSp.NativeClient.Published
import IpirSp.NativeClient.Decode
import IpirSp.Codec.Sections
import IpirSp.NativeClient.SetupId
import IpirSp.NativeClient.PublishedCodec
import IpirSp.NativeClient.Builder
import IpirSp.Loops.Iterator
import IpirSp.NullifierPir.Encoding
import IpirSp.NullifierPir.Snapshot
import IpirSp.NullifierPir.WordAccess
import IpirSp.Sampling.Rejection
import IpirSp.SimplePir.Sampling
import IpirSp.SimplePir.Serialize
import IpirSp.Rounding.Moduli
import IpirSp.SimplePir.QueryBytes
import IpirSp.SimplePir.ModulusSwitch
import IpirSp.Loops.Tiles
import IpirSp.SimplePir.Ingest
import IpirSp.SimplePir.Hint
import IpirSp.MachineWord.Overflow
import IpirSp.Loops.Windows
import IpirSp.SimplePirKernel.Backend
import IpirSp.SimplePirKernel.Chunked
import IpirSp.SimplePirKernel.Avx512
import IpirSp.Simt.Phase
import IpirSp.SimplePirKernel.Cuda
import IpirSp.SimplePirKernel.CudaKernel
import IpirSp.MachineWord.Vector
import IpirSp.SimplePir.Selection
import IpirSp.SimplePir.FirstDimension
import IpirSp.Reinspiring.NativeKernel
import IpirSp.Reinspiring.NativeStorage
import IpirSp.MachineWord.ByteDot
import IpirSp.Reinspiring.PreparedQuery
import IpirSp.Reinspiring.PreparedDot
import IpirSp.Reinspiring.NativeHosts
import IpirSp.NativeServer.Build
import IpirSp.NativeServer.Respond
import IpirSp.SimplePir.Retrieval
import IpirSp.NullifierPir.Backend
import IpirSp.NullifierPir.QueryRow
import IpirSp.Negacyclic.TraceDivision
import IpirSp.Reinspiring.KeyBodies
import IpirSp.Reinspiring.NativePhase
import IpirSp.Reinspiring.NoiseBound
import IpirSp.Reinspiring.NativeSelection
import IpirSp.NativeServer.Pack
import IpirSp.NativeServer.Published
import IpirSp.NativeServer.Retrieval
import IpirSp.SimplePir.Reusable
import IpirSp.SimplePir.Residual
import IpirSp.SimplePir.SlotRetrieval
