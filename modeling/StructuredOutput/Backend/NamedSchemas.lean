import StructuredOutput.Backend.Kind
import StructuredOutput.Schema

/-!
The named schemas that a schema reaches: how often each occurs and which are referred to. They
are visited from the root on, the children of a node before its next sibling.
-/

namespace StructuredOutput

namespace Schema

mutual

/-- The number of nodes of a schema. -/
def size : Schema → Nat
  | array item _ => item.size + 1
  | object _ _ properties => sizeProperties properties + 1
  | union _ _ alternatives => sizeAll alternatives + 1
  | _ => 1

def sizeProperties : List (Property Schema) → Nat
  | [] => 0
  | ⟨_, s, _, _⟩ :: ps => s.size + sizeProperties ps

def sizeAll : List Schema → Nat
  | [] => 0
  | s :: ss => s.size + sizeAll ss

end

/-- The schemas inside a named schema. -/
def children : Schema → List Schema
  | object _ _ properties => properties.map (·.schema)
  | union _ _ alternatives => alternatives
  | _ => []

end Schema

namespace SchemaGraph

/-- The node that a reference stands for. -/
def resolve? (g : SchemaGraph) (name : String) : Option Schema := Entries.get? g.table name

/-- The number of nodes of a schema and of its table. -/
def size (g : SchemaGraph) : Nat := g.table.foldl (fun n e => n + e.2.size) g.root.size

end SchemaGraph

/-- The named schemas met so far. -/
structure NamedSchemas where
  schemas : List (String × Schema)
  occurrences : List (String × Nat)
  referenced : List String

namespace NamedSchemas

def none : NamedSchemas := ⟨[], [], []⟩

/-- How often a name occurs. -/
def count (n : NamedSchemas) (name : String) : Nat := (Entries.get? n.occurrences name).getD 0

/-- The names that recur or are referred to, in the order in which they are met. -/
def shared (n : NamedSchemas) : List String :=
  (n.schemas.map (·.1)).filter fun name => 1 < n.count name || n.referenced.contains name

/-- Counts a named schema and yields what is inside it, when it is met for the first time. Another
schema must not have its name. -/
def meet (n : NamedSchemas) (name : String) (s : Schema) :
    Except ProjectionFault (NamedSchemas × List Schema) :=
  let n := { n with occurrences := Entries.put n.occurrences name (n.count name + 1) }
  match Entries.get? n.schemas name with
  | .none => .ok ({ n with schemas := n.schemas ++ [(name, s)] }, s.children)
  | some known => if known.same s then .ok (n, []) else .error (.sharedName name)

/-- Visits a node and yields the nodes to visit next. -/
def visit (g : SchemaGraph) (n : NamedSchemas) (s : Schema) :
    Except ProjectionFault (NamedSchemas × List Schema) :=
  match s with
  | .object name _ _ => n.meet name s
  | .union name _ _ => n.meet name s
  | .array item _ => .ok (n, [item])
  | .ref name =>
    let n := { n with
      referenced := if n.referenced.contains name then n.referenced else n.referenced ++ [name] }
    if (Entries.get? n.schemas name).isSome then .ok (n, [])
    else
      match g.resolve? name with
      | some node => .ok (n, [node])
      | .none => .error (.dangling name)
  | _ => .ok (n, [])

/-- Visits nodes until none is pending, at most `fuel` of them. -/
def visitAll (g : SchemaGraph) : (fuel : Nat) → NamedSchemas → List Schema →
    Except ProjectionFault NamedSchemas
  | 0, n, _ => .ok n
  | _ + 1, n, [] => .ok n
  | fuel + 1, n, s :: pending => do
    let (n, next) ← n.visit g s
    visitAll g fuel n (next ++ pending)

/-- The named schemas that a schema reaches. A node is visited once as a part of the schema or of
its table, and at most once more for each reference. -/
def collect (g : SchemaGraph) : Except ProjectionFault NamedSchemas :=
  visitAll g (2 * g.size + 2) none [g.root]

end NamedSchemas

end StructuredOutput
