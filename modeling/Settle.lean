import Settle.Call
import Settle.Commit
import Settle.Declaration
import Settle.Demo
import Settle.Diagnostics
import Settle.Digest
import Settle.Dirty
import Settle.Double
import Settle.Engine
import Settle.Engine.Act
import Settle.Engine.Flush
import Settle.Error
import Settle.Event
import Settle.Executor
import Settle.Formula
import Settle.Formula.Record
import Settle.Gallery
import Settle.Graph.Cache
import Settle.Graph.Compile
import Settle.Graph.Kahn
import Settle.Graph.Order
import Settle.Graph.PathTable
import Settle.Graph.Registry
import Settle.Graph.Search
import Settle.Graph.Step
import Settle.Host
import Settle.Instance
import Settle.Instance.Apply
import Settle.Key
import Settle.Lane
import Settle.Link
import Settle.Main
import Settle.Pass.Decide
import Settle.Pass.Patch
import Settle.Pass.Summary
import Settle.Pass.Sweep
import Settle.Path
import Settle.Path.Location
import Settle.Path.Record
import Settle.Plan.BitSet
import Settle.Plan.Cache
import Settle.Plan.Flat
import Settle.Plan.Reach
import Settle.Plan.Scratch
import Settle.Plan.Wiring
import Settle.Policy
import Settle.Policy.Concurrency
import Settle.Policy.Convergence
import Settle.Policy.Lanes
import Settle.Policy.Layer
import Settle.Proofs.Acyclic
import Settle.Proofs.Agreement
import Settle.Proofs.Arrangement
import Settle.Proofs.Backlog
import Settle.Proofs.BitSet
import Settle.Proofs.Bounds
import Settle.Proofs.Budget
import Settle.Proofs.Carry
import Settle.Proofs.Confluence
import Settle.Proofs.Copies
import Settle.Proofs.Debounce
import Settle.Proofs.Declared
import Settle.Proofs.Dirty
import Settle.Proofs.Dispatch
import Settle.Proofs.Drafts
import Settle.Proofs.Encoding
import Settle.Proofs.Executor
import Settle.Proofs.Failure
import Settle.Proofs.FirstUnit
import Settle.Proofs.Fixpoint
import Settle.Proofs.Flat
import Settle.Proofs.Forward
import Settle.Proofs.Gathering
import Settle.Proofs.Grammar
import Settle.Proofs.Graph
import Settle.Proofs.GraphCache
import Settle.Proofs.History
import Settle.Proofs.Hosted
import Settle.Proofs.Instance
import Settle.Proofs.Kahn
import Settle.Proofs.Levels
import Settle.Proofs.LinkCycle
import Settle.Proofs.Links
import Settle.Proofs.LocationText
import Settle.Proofs.Marking
import Settle.Proofs.Marks
import Settle.Proofs.Members
import Settle.Proofs.Numbering
import Settle.Proofs.Overwrite
import Settle.Proofs.Path
import Settle.Proofs.PathTable
import Settle.Proofs.PathText
import Settle.Proofs.Pending
import Settle.Proofs.Places
import Settle.Proofs.PlanCache
import Settle.Proofs.Precedence
import Settle.Proofs.Ran
import Settle.Proofs.Reach
import Settle.Proofs.Recency
import Settle.Proofs.Registry
import Settle.Proofs.Reshape
import Settle.Proofs.Resolve
import Settle.Proofs.Resume
import Settle.Proofs.Rollback
import Settle.Proofs.Scratch
import Settle.Proofs.Settled
import Settle.Proofs.Silence
import Settle.Proofs.Sorting
import Settle.Proofs.Spelling
import Settle.Proofs.State
import Settle.Proofs.Story
import Settle.Proofs.Sweep
import Settle.Proofs.Switch
import Settle.Proofs.Tick
import Settle.Proofs.Told
import Settle.Proofs.Tracing
import Settle.Proofs.Tracked
import Settle.Proofs.Tried
import Settle.Proofs.Turns
import Settle.Proofs.Unit
import Settle.Proofs.Unsigned
import Settle.Proofs.Watcher
import Settle.Proofs.Wiring
import Settle.Proofs.Work
import Settle.Report
import Settle.Script
import Settle.State
import Settle.Store
import Settle.Text.Listed
import Settle.Text.Unseen
import Settle.Tick
import Settle.Transaction
import Settle.Value
import Settle.Value.Record
import Settle.Value.Text
import Settle.View
import Settle.Watcher
