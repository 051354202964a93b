import TreeScript.Binding
import TreeScript.Callable
import TreeScript.CommandLine
import TreeScript.Decimal.Shortest
import TreeScript.Decimal.Text
import TreeScript.Error
import TreeScript.Eval.Call
import TreeScript.Eval.Field
import TreeScript.Eval.Flow
import TreeScript.Eval.Function
import TreeScript.Eval.Native
import TreeScript.Eval.Path
import TreeScript.Eval.Task
import TreeScript.Eval.Visit
import TreeScript.Heap.Basic
import TreeScript.Heap.Equality
import TreeScript.Heap.Sketch
import TreeScript.Heap.Text
import TreeScript.Json.Basic
import TreeScript.Json.Printer
import TreeScript.Json.Reader
import TreeScript.Json.Record
import TreeScript.Json.Token
import TreeScript.Main
import TreeScript.Native.Basic
import TreeScript.Native.Coercion
import TreeScript.Native.Core
import TreeScript.Native.Routine
import TreeScript.Operation
import TreeScript.Operator
import TreeScript.Overload
import TreeScript.Path
import TreeScript.Pieces
import TreeScript.Program
import TreeScript.Proofs.Eval.Beside
import TreeScript.Proofs.Eval.Expression
import TreeScript.Proofs.Eval.Mirror
import TreeScript.Proofs.Eval.Signals
import TreeScript.Proofs.Scope.CallMarkers
import TreeScript.Proofs.Scope.Crew
import TreeScript.Proofs.Scope.Evolution
import TreeScript.Proofs.Scope.Markers
import TreeScript.Proofs.Scope.Orderly
import TreeScript.Proofs.Scope.Removal
import TreeScript.Proofs.Scope.Unmarked
import TreeScript.Proofs.Scope.WellFormed
import TreeScript.Proofs.Step
import TreeScript.Proofs.Table
import TreeScript.Proofs.Tree.Descendants
import TreeScript.Registry
import TreeScript.Scope.Lookup
import TreeScript.Scope.Tree
import TreeScript.ScriptFunction
import TreeScript.Span
import TreeScript.State
import TreeScript.Step
import TreeScript.Symbols
import TreeScript.Table
import TreeScript.Task
import TreeScript.Thread
import TreeScript.Tree.Decode
import TreeScript.Tree.Encode
import TreeScript.Tree.Node
import TreeScript.Value
import TreeScript.ValueType
import TreeScript.Variable
import TreeScript.World
import TreeScript.Proofs.Following
import TreeScript.Proofs.Pairing.Basic
import TreeScript.Proofs.Native
import TreeScript.Proofs.Pairing.Laws
import TreeScript.Proofs.Pairing.Path
import TreeScript.Proofs.Pairing.Call
import TreeScript.Proofs.Pairing.Visit
import TreeScript.Proofs.Pairing.Task
import TreeScript.Proofs.Scope.Paired
import TreeScript.Proofs.Scope.Places
import TreeScript.Proofs.Scope.Tidy
import TreeScript.Proofs.Pairing.Scopes
import TreeScript.Proofs.Pairing.Shared
import TreeScript.Proofs.Host
import TreeScript.Proofs.Store
import TreeScript.Proofs.Balance
import TreeScript.Proofs.Leftovers
import TreeScript.Proofs.Await.Prepare
import TreeScript.Proofs.Await.Body
import TreeScript.Proofs.Await.Task
import TreeScript.Proofs.Await.Call
import TreeScript.Proofs.Ensures
import TreeScript.Proofs.Identified
import TreeScript.Proofs.Unplaced
import TreeScript.Proofs.Scope.Edit
import TreeScript.Proofs.Scope.Teardown
import TreeScript.Proofs.Regime.Basic
import TreeScript.Proofs.Aside
import TreeScript.Proofs.Regime.Call
import TreeScript.Proofs.Regime.Visit
import TreeScript.Proofs.Regime.Host
import TreeScript.Proofs.Regime.Program
import TreeScript.Proofs.Positions
import TreeScript.Proofs.Scope.Leveled
import TreeScript.Proofs.Scoping
import TreeScript.Proofs.Boundary
import TreeScript.Proofs.Stock.Basic
import TreeScript.Proofs.Stock.Path
import TreeScript.Proofs.Stock.Call
import TreeScript.Proofs.Stock.Visit
import TreeScript.Proofs.Wording
import TreeScript.Proofs.Hostless
import TreeScript.Proofs.TypedCalls
import TreeScript.Proofs.Scope.Tally
import TreeScript.Proofs.Workers
import TreeScript.Proofs.Completion
import TreeScript.Proofs.Path.Text
import TreeScript.Proofs.Path.Resolution
import TreeScript.Proofs.Path.Marks
import TreeScript.Proofs.Scope.Nearest
import TreeScript.Proofs.Path.Slots
import TreeScript.Proofs.Path.RoundTrip
import TreeScript.Proofs.Binding.Filling
import TreeScript.Proofs.Binding.Rule
import TreeScript.Proofs.Binding.Agreement
import TreeScript.Proofs.Scope.Visibility
import TreeScript.Proofs.Scope.Inheritance
import TreeScript.Proofs.Scope.Deferral
import TreeScript.Proofs.Overload.Resolution
import TreeScript.Proofs.Overload.Exactness
import TreeScript.Proofs.Overload.Indexing
import TreeScript.Proofs.Path.Grammar
import TreeScript.Proofs.Registry.Names
import TreeScript.Proofs.Heap.Equality
import TreeScript.Proofs.Tree.Preorder
import TreeScript.Proofs.Json.Layout
import TreeScript.Proofs.Json.Reading
import TreeScript.Proofs.Tree.Admission
import TreeScript.Proofs.Json.Record
import TreeScript.Proofs.Tree.Rendering
import TreeScript.Proofs.Scope.InPlace
import TreeScript.Proofs.Field.Reading
import TreeScript.Proofs.Field.Writing
import TreeScript.Proofs.Preparation.Order
import TreeScript.Proofs.Preparation.Once
import TreeScript.Proofs.Arithmetic
import TreeScript.Proofs.Coercion
import TreeScript.Proofs.Json.Quoting
import TreeScript.Proofs.ResultBlock
