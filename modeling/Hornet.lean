import Hornet.Lib.Fold
import Hornet.Lib.Dfs
import Hornet.Lib.BackEdges
import Hornet.Lib.Group
import Hornet.Lib.Patch
import Hornet.Lib.Relate
import Hornet.Lib.Dict
import Hornet.Lib.ByteMap
import Hornet.Smt.Term
import Hornet.Bpf.Isa
import Hornet.Bpf.Cfg
import Hornet.Bpf.Graph
import Hornet.Bpf.FlowGraph
import Hornet.Track.Block
import Hornet.Track.Effects
import Hornet.Track.Alu
import Hornet.Track.Tracker
import Hornet.Track.Join
import Hornet.Track.Nullity
import Hornet.Track.Guards
import Hornet.Arith.Lowering
import Hornet.Arith.Cells
import Hornet.Arith.Folding
import Hornet.Arith.Refine
import Hornet.Arith.Jumps
import Hornet.Arith.PtrDiff
import Hornet.Arith.Bounds
import Hornet.Arith.NullTest
import Hornet.Arith.Adjust
import Hornet.Track.Agree
import Hornet.Track.AgreeStep
import Hornet.Verify.Prune
import Hornet.Verify.Slice
import Hornet.Verify.Forward
import Hornet.Verify.Edges
import Hornet.Verify.Phi
import Hornet.Verify.Merge
import Hornet.Load.Object
import Hornet.Load.Globals
import Hornet.Load.Maps
import Hornet.Bpf.Layout
import Hornet.Load.Entry
import Hornet.Load.Link
import Hornet.Verify.Spec
import Hornet.Verify.Checker
import Hornet.Track.Run
import Hornet.Track.Sized
import Hornet.Track.MemoryKept
import Hornet.Track.VarOff
import Hornet.Track.Stack
import Hornet.Track.Update
import Hornet.Track.MapRefine
import Hornet.Track.BssBytes
import Hornet.Track.LookupHit
import Hornet.Verify.Widths
import Hornet.Verify.Order
import Hornet.Verify.Live
import Hornet.Track.Frame
import Hornet.Track.MemoryRun
import Hornet.Verify.Reach
import Hornet.Verify.PathRun
import Hornet.Verify.Path
import Hornet.Verify.Witness
import Hornet.Verify.Packet
import Hornet.Verify.NullPhi
import Hornet.Track.Built
import Hornet.Report.Facts
import Hornet.Load.Rodata
import Hornet.Lib.Json
import Hornet.Verify.SpecParse
import Hornet.Verify.SpecNotes
import Hornet.Track.Nested
import Hornet.Verify.Constants
import Hornet.Report.Returns
import Hornet.Verify.ReachReport
import Hornet.Lib.PyText
import Hornet.Load.TailFlag
import Hornet.Load.Btf
import Hornet.Verify.Alias
import Hornet.Verify.SpecLower
import Hornet.Verify.Literals
import Hornet.Lib.Hex
import Hornet.Track.Residue
import Hornet.Verify.ByteOrder
import Hornet.Lib.Reject
import Hornet.Verify.SpecErrors
import Hornet.Verify.SpecReadable
import Hornet.Lib.Succeeds
import Hornet.Verify.SpecComplete
import Hornet.Lib.Saturate
import Hornet.Verify.Regions
import Hornet.Verify.Slicing
import Hornet.Verify.SlicedMemory
import Hornet.Verify.SlicedWalk
import Hornet.Verify.SlicedChecks
import Hornet.Verify.Shared
import Hornet.Verify.PathConditions
import Hornet.Verify.Verdicts
import Hornet.Verify.ReturnValues
import Hornet.Load.Text
import Hornet.Verify.Input
import Hornet.Track.Equality
import Hornet.Lib.Overwrite
import Hornet.Track.Log
import Hornet.Verify.Executed
import Hornet.Verify.LastWrite
import Hornet.Verify.Select
import Hornet.Report.Scaffold
import Hornet.Report.Accepted
import Hornet.Verify.SpecLowered
import Hornet.Lib.Extend
import Hornet.Track.Extend
import Hornet.Verify.Limit
import Hornet.Verify.MapAfter
import Hornet.Verify.EntryAfter
