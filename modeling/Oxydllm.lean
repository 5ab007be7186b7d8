import Oxydllm.Lib.JsonText
import Oxydllm.Lib.JsonValue
import Oxydllm.Lib.Mask
import Oxydllm.Lib.Tracks
import Oxydllm.Lib.PathSteps
import Oxydllm.Lib.Grouping
import Oxydllm.Constrain.Machine
import Oxydllm.Constrain.Steps
import Oxydllm.Constrain.Sound
import Oxydllm.Constrain.Trace
import Oxydllm.Constrain.Complete
import Oxydllm.Constrain.Schema
import Oxydllm.Constrain.Shape
import Oxydllm.Constrain.Faithful
import Oxydllm.Constrain.Guide
import Oxydllm.Constrain.Walk
import Oxydllm.Constrain.Stop
import Oxydllm.Constrain.Progress
import Oxydllm.Constrain.Bytes
import Oxydllm.Kv.PrefixCache
import Oxydllm.Kv.PrefixSound
import Oxydllm.Kv.Ledger
import Oxydllm.Kv.Promised
import Oxydllm.Kv.PromptRows
import Oxydllm.Kv.Speculative
import Oxydllm.Kv.SpecExact
import Oxydllm.Serve.Answered
import Oxydllm.Serve.KvBudget
import Oxydllm.Serve.StopScan
import Oxydllm.Serve.IncrementalDecode
import Oxydllm.Constrain.Validate
import Oxydllm.Constrain.Lenient
import Oxydllm.Serve.Ceiling
import Oxydllm.Serve.Transcript
import Oxydllm.Kv.Arrival
import Oxydllm.Lib.Decoder
import Oxydllm.Gguf.Header
import Oxydllm.Gguf.RoundTrip
import Oxydllm.Gguf.Probe
import Oxydllm.Serve.ToolCalls
import Oxydllm.Kv.ChunkPlanner
import Oxydllm.Kv.ContigPool
import Oxydllm.Kv.StepBudget
import Oxydllm.Serve.StopBytes
import Oxydllm.Kv.FlatPool
import Oxydllm.Hub.Download
import Oxydllm.Hub.ModelDir
import Oxydllm.Hub.Pull
import Oxydllm.Models.Loader
import Oxydllm.Models.Contained
import Oxydllm.Models.Listing
import Oxydllm.Models.Tree
import Oxydllm.Models.Listed
import Oxydllm.Models.Search
import Oxydllm.Models.SelfResolving
import Oxydllm.Lib.Buckets
import Oxydllm.Moe.Dispatch
import Oxydllm.Sampling.TopK
import Oxydllm.Sampling.TopP
import Oxydllm.Lib.RowMajor
import Oxydllm.Quant.Awq
import Oxydllm.Quant.Compressed
import Oxydllm.Quant.Concat
import Oxydllm.Moe.ExpertCache
import Oxydllm.Kv.CacheCounts
import Oxydllm.Serve.ForcedCall
import Oxydllm.Lib.Traverse
import Oxydllm.Serve.KvRetry
import Oxydllm.Constrain.GuideArray
import Oxydllm.Constrain.InStep
import Oxydllm.Lib.Interning
import Oxydllm.Models.Rope
import Oxydllm.Lib.Overflow
import Oxydllm.Gguf.Ranges
import Oxydllm.Hub.Truncated
import Oxydllm.Lib.NdArray
import Oxydllm.Weights.ScaleInv
import Oxydllm.Weights.Fused
import Oxydllm.Weights.FusedExact
import Oxydllm.Lib.Tally
import Oxydllm.Sampling.Penalty
import Oxydllm.Sampling.Sample
import Oxydllm.Sampling.Drawn
import Oxydllm.Lib.Extrema
import Oxydllm.Quant.Rtn
import Oxydllm.Kv.WindowKept
import Oxydllm.Attn.Window
import Oxydllm.Lib.Scan
import Oxydllm.Lib.UnitLower
import Oxydllm.Gdn.Chunk
import Oxydllm.Gdn.ChunkExact
import Oxydllm.Gdn.Layer
import Oxydllm.Gdn.Segment
import Oxydllm.Gdn.Uncut
import Oxydllm.Lib.Loop
import Oxydllm.Gguf.Depermute
import Oxydllm.Lib.Bisect
import Oxydllm.KvQuant.Nearest
import Oxydllm.KvQuant.Quantizer
import Oxydllm.Lib.Butterfly
import Oxydllm.KvQuant.Rotation
import Oxydllm.Lib.BitStream
import Oxydllm.KvQuant.Packing
import Oxydllm.KvQuant.KeyLayout
import Oxydllm.Hub.Variants
import Oxydllm.Hub.Unambiguous
import Oxydllm.Lib.InOrder
import Oxydllm.Serve.Formatters
import Oxydllm.Serve.NoneLost
import Oxydllm.Serve.Lost
import Oxydllm.Lib.FanIn
import Oxydllm.Serve.Completion
import Oxydllm.Serve.Streamed
import Oxydllm.Serve.StreamRun
import Oxydllm.Serve.Reassembled
import Oxydllm.Serve.StreamedAnswer
import Oxydllm.Serve.ToolStream
import Oxydllm.Serve.StreamCut
import Oxydllm.Kv.Forward
import Oxydllm.Kv.EngineStep
import Oxydllm.Kv.Solo
import Oxydllm.Kv.StepForward
import Oxydllm.Kv.Autoregress
import Oxydllm.Moe.Layer
import Oxydllm.Lib.Runs
import Oxydllm.Serve.Template
import Oxydllm.Lib.Barrier
import Oxydllm.Lib.Cached
import Oxydllm.Quant.Gptq
import Oxydllm.Quant.Kernels
import Oxydllm.Quant.Gemv
import Oxydllm.Quant.PackedLinear
import Oxydllm.Quant.ExactProduct
