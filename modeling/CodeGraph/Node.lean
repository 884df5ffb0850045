import CodeGraph.Property
import CodeGraph.Text.Decimal
import Std.Data.TreeMap

/-!
# Nodes

A node of a code property graph has an id, a kind and properties.  The id is a
64-bit number that stays with the node for its whole life, wherever the node is
stored.  The kind is the schema label of the node together with the fields that
every node of that label has.

A node that is only planned has no id yet.  An edit script names it by a key of
its own.
-/

namespace CodeGraph

/-- The id of a node. -/
structure NodeId where
  /-- The number. -/
  value : UInt64
  deriving DecidableEq, Inhabited

namespace NodeId

/-- The decimal text of an id. -/
def text (id : NodeId) : String := Text.natText id.value.toNat

/-- Ids are ordered by their numbers. -/
instance : Ord NodeId := ⟨fun a b => compare a.value b.value⟩

instance : Std.TransOrd NodeId :=
  inferInstanceAs (Std.TransCmp (compareOn NodeId.value))

instance : Std.LawfulEqOrd NodeId where
  eq_of_compare {a b} h := by
    cases a
    cases b
    congr 1
    exact Std.LawfulEqOrd.eq_of_compare h

end NodeId

/-- The name of a node inside an edit script, before the node has an id. -/
structure NewKey where
  /-- The number. -/
  value : UInt32
  deriving DecidableEq, Inhabited

/-- The text of a key. -/
def NewKey.text (key : NewKey) : String := "new#" ++ Text.natText key.value.toNat

/-- The kind of a node. -/
inductive NodeKind where
  /-- A method, which is also the entry of its control flow. -/
  | method (name fullName : String)
  /-- A formal parameter, at a position counted from zero. -/
  | parameter (name : String) (order : UInt32)
  /-- A call, which may be the call of an operator. -/
  | call (name code : String)
  /-- A reference to a variable. -/
  | identifier (name : String) (argumentIndex : UInt32)
  /-- A constant. -/
  | literal (code : String) (argumentIndex : UInt32)
  /-- The header of a branch or a loop. -/
  | controlStructure (code : String)
  /-- A return statement. -/
  | ret (code : String)
  /-- The formal return point of a method, which is the exit of its control flow. -/
  | methodReturn
  /-- A block of statements. -/
  | block
  /-- A local variable. -/
  | loc (name : String)
  /-- Anything else, under the label it was reported with. -/
  | unknown (name : String)
  deriving DecidableEq, Inhabited

namespace NodeKind

/-- The schema label of a kind. -/
def label : NodeKind → String
  | .method _ _ => "METHOD"
  | .parameter _ _ => "METHOD_PARAMETER_IN"
  | .call _ _ => "CALL"
  | .identifier _ _ => "IDENTIFIER"
  | .literal _ _ => "LITERAL"
  | .controlStructure _ => "CONTROL_STRUCTURE"
  | .ret _ => "RETURN"
  | .methodReturn => "METHOD_RETURN"
  | .block => "BLOCK"
  | .loc _ => "LOCAL"
  | .unknown _ => "UNKNOWN"

/-- Whether nodes of a kind take part in control flow. -/
def isControlFlow : NodeKind → Bool
  | .method _ _ | .call _ _ | .identifier _ _ | .literal _ _ | .controlStructure _ | .ret _
  | .methodReturn => true
  | _ => false

/-- The position of an argument among the arguments of its call. -/
def argumentIndex? : NodeKind → Option UInt32
  | .identifier _ i | .literal _ i => some i
  | _ => none

/-- Whether a kind is that of a method. -/
def isMethod : NodeKind → Bool
  | .method _ _ => true
  | _ => false

/-- Whether a kind is that of a formal return point. -/
def isMethodReturn : NodeKind → Bool
  | .methodReturn => true
  | _ => false

/-- The name of the call that stands for an assignment. -/
def assignment : String := "<operator>.assignment"

end NodeKind

/-- A node. -/
structure Node where
  /-- The id of the node. -/
  id : NodeId
  /-- Its kind. -/
  kind : NodeKind
  /-- Its properties. -/
  properties : Properties := {}
  deriving DecidableEq, Inhabited

end CodeGraph
