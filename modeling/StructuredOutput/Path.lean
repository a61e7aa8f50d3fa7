import StructuredOutput.Text.Digit

/-!
Where a node stands in a content tree: the name of the root and the steps that lead down from it.
-/

namespace StructuredOutput

open Text

/-- A step from a node to one of its children. -/
inductive Step where
  | key (name : String)
  | index (i : Nat)
  deriving DecidableEq

/-- The steps from a root to a node. -/
structure Path where
  root : String
  steps : List Step
  deriving DecidableEq

/-- A step as it is written in a path. -/
def Step.text : Step → String
  | .key name => "." ++ name
  | .index i => "[" ++ String.ofList (decimal i) ++ "]"

namespace Path

/-- The root of a content tree. -/
def top : Path := ⟨"$", []⟩

/-- The child under a key. -/
def key (p : Path) (name : String) : Path := { p with steps := p.steps ++ [.key name] }

/-- The child at an index. -/
def index (p : Path) (i : Nat) : Path := { p with steps := p.steps ++ [.index i] }

/-- The written form of a path. -/
def text (p : Path) : String := p.root ++ String.join (p.steps.map Step.text)

end Path

end StructuredOutput
