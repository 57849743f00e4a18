import SglangLite.Kv.Longest
import SglangLite.Kv.Copy
import SglangLite.Paged.Reclaim
import SglangLite.Paged.Sharing
import SglangLite.Text.Burst
import SglangLite.Loop.Ranks
import SglangLite.Hybrid.Isolation
import SglangLite.Sched.Placement
import SglangLite.Sched.Lifecycle
import SglangLite.Loop.Frames
import SglangLite.Loop.Faults
import SglangLite.Loop.Reuse
import SglangLite.Loop.Shutdown
import SglangLite.Control.Admission
import SglangLite.Hybrid.Clear
import SglangLite.Hybrid.Balance
import SglangLite.Loop.Worker
import SglangLite.Loop.Drain
import SglangLite.Loop.Residue
import SglangLite.Paged.Greedy
import SglangLite.Hybrid.DualPool
import SglangLite.Hybrid.Staging
import SglangLite.Hybrid.PagePrimary
import SglangLite.Sched.Formation
import SglangLite.Kv.Depth
import SglangLite.Kv.RoundTrip
import SglangLite.Decode.Replay
import SglangLite.Loop.Client
import SglangLite.Kv.Packed
import SglangLite.Hybrid.SparseMla
import SglangLite.Control.Sse
import SglangLite.Hybrid.Moe
import SglangLite.Control.Sampling
import SglangLite.Control.Models
import SglangLite.Control.Seeds
import SglangLite.Hybrid.PrefixMap
import SglangLite.Hybrid.Network
import SglangLite.Hybrid.Generate
import SglangLite.Chat.Reply
import SglangLite.Chat.Cut
import SglangLite.Chat.Merge
