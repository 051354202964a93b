import TreeScript.Eval.Visit
import TreeScript.Tree.Decode

/-!
# Programs

A program is a syntax tree whose outermost node is a program node and whose nodes have different
ids. It runs in the outermost scope, and what it leaves there is there for the next program.
-/

namespace TreeScript

namespace Node

/-- The first node of a list whose id occurs before it. -/
def repeated? (seen : KeySet Nat) : List Node → Option Node
  | [] => none
  | n :: rest => if seen.contains n.id then some n else repeated? (KeySet.add seen n.id) rest

/-- Whether a node is a program node. -/
def isProgram (n : Node) : Bool :=
  match n.kind with
  | .program _ => true
  | _ => false

end Node

namespace Program

/-- Checks that a tree is a program. -/
def check (n : Node) : Except Error Node :=
  if n.isProgram then
    match Node.repeated? ∅ n.descendants with
    | none => .ok n
    | some twice => .error ((Error.of (.nodeIdRepeated twice.id)).located twice.span)
  else .error ((Error.of .programExpected).located n.span)

/-- The program that a text holds. -/
def parse (text : String) : Except Error Node :=
  match Node.read? text with
  | none => .error (.of .treeNotDecoded)
  | some n => check n

end Program

namespace Engine

/-- Visits a node. -/
def visit (engine : Engine) : Visit := Eval.visit engine Eval.patience

/-- Evaluates a node in a scope. -/
def evaluate (engine : Engine) (scope : ScopeId) (n : Node) : Eval Value :=
  engine.visit.evaluate scope n

/-- Runs a program. -/
def run (engine : Engine) (program : Node) : Eval Value := engine.evaluate ScopeTree.root program

/-- Carries out the tasks that have not ended, as far as possible. -/
def settle (engine : Engine) : Eval Unit := Eval.settle engine.visit

end Engine

end TreeScript
