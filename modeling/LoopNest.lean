import LoopNest.Declaration
import LoopNest.Action.Json
import LoopNest.Schedule.Session
import LoopNest.Main
import LoopNest.Proofs.Nest.Views
import LoopNest.Proofs.Nest.Meeting
import LoopNest.Proofs.Json.Record
import LoopNest.Proofs.Description.Exact
import LoopNest.Proofs.Action.Usable
import LoopNest.Proofs.Action.Success
import LoopNest.Proofs.Action.Levels
import LoopNest.Proofs.Action.Order
import LoopNest.Proofs.Action.Fusion
import LoopNest.Proofs.Action.Rebind
import LoopNest.Proofs.Action.Twice
import LoopNest.Proofs.Action.Apart
import LoopNest.Proofs.Schedule.Growth
import LoopNest.Proofs.Schedule.Calls
import LoopNest.Proofs.Schedule.Atomic
import LoopNest.Proofs.Schedule.Draft
import LoopNest.Proofs.Schedule.Batch
import LoopNest.Proofs.Schedule.Gate
import LoopNest.Proofs.Nest.Between
import LoopNest.Proofs.Action.Tiled
import LoopNest.Proofs.Action.Exchanged
import LoopNest.Proofs.Action.TileCount
import LoopNest.Proofs.Action.Arrangement
import LoopNest.Proofs.Action.Merged
import LoopNest.Proofs.Action.Undone
import LoopNest.Proofs.Action.Independent
import LoopNest.Proofs.Action.Program
import LoopNest.Proofs.Action.Rerender
import LoopNest.Proofs.Action.Capture
import LoopNest.Proofs.Nest.BreadthFirst
import LoopNest.Proofs.Description.Rearranged
import LoopNest.Proofs.Declaration.Stepwise
import LoopNest.Proofs.Action.Param
import LoopNest.Proofs.Action.Positional
import LoopNest.Proofs.Bound
import LoopNest.Proofs.Action.Naming
import LoopNest.Proofs.Outline.Paths
import LoopNest.Proofs.Outline.Checks
import LoopNest.Proofs.Word
import LoopNest.Action.Checked
import LoopNest.Proofs.Action.Checked
