import CodeGraph.Graph.Query
import CodeGraph.Codec.Node
import CodeGraph.Codec.Edge
import CodeGraph.Json.Parse
import CodeGraph.Json.Render

/-!
# Graph files

A graph is stored as a record of its slots and the allocator's next id.  Nodes
are listed without the vacant slots between them, whose numbers are listed
apart.  Edges are listed slot by slot as triples of two node slots and the edge,
with `null` for a vacant slot.  Vacant slots at the end are not stored.

A text is refused when a vacant slot is not in ascending order or beyond the
end, and when an edge ends at a slot that is vacant or not there.  Two nodes
with the same id are not refused.  When a graph is loaded its edges count as
added in the order of their slots.

One fault is told apart from all others: a *gap*.  It is a vacant slot that is
in order and not beyond the end, but too far on for the nodes that are left to
fill the slots before it.  A gap breaks an assertion, so it is a crash.  It is met
as soon as the slots have been read, whatever comes after them in the text.
-/

namespace CodeGraph.Graph

open Json (Origin Field)

/-! ## Writing -/

/-- An edge slot as JSON. -/
def cellToJson : Option Arc → Json
  | some a => .arr [.int a.src, .int a.dst, a.edge.toJson]
  | none => .null

/-- The slots as JSON. -/
def slotsToJson (g : Graph) : Json :=
  .obj [("nodes", .arr (g.allNodes.map Node.toJson)),
    ("node_holes", .arr ((Slots.vacant g.nodes.used).map fun i : Nat => .int i)),
    ("edge_property", .str "directed"),
    ("edges", .arr (g.arcs.used.map cellToJson))]

/-- A graph as JSON. -/
def toJson (g : Graph) : Json :=
  .obj [("graph", g.slotsToJson), ("next_id", Json.ofUInt64 g.nextId)]

/-- The text of a graph file. -/
def toText (g : Graph) : String := g.toJson.pretty

/-- The text of a graph without blanks. -/
def toCompactText (g : Graph) : String := g.toJson.compact

/-! ## Reading -/

/-- A slot number. -/
def slotOfJson? (j : Json) : Option Nat := (Json.uint32? j).map UInt32.toNat

/-- The edge slot of a JSON value. -/
def cellOfJson? (o : Origin) : Json → Option (Option Arc)
  | .null => some none
  | .arr [src, dst, edge] =>
    match o.enter with
    | some o =>
      match slotOfJson? src, slotOfJson? dst, Edge.ofJson? o edge with
      | some src, some dst, some edge => some (some ⟨src, dst, edge⟩)
      | _, _, _ => none
    | none => none
  | _ => none

/-- The graph of a row of nodes and a row of edges, if both ends of every edge are there. -/
def ofCells? (nodes : List (Option Node)) (arcs : List (Option Arc)) (nextId : UInt64) :
    Option Graph :=
  let nodes := Slots.ofCells nodes
  let arcs := Slots.ofCells arcs
  if arcs.elements.all fun a => (nodes.get? a.src).isSome && (nodes.get? a.dst).isSome then
    some
      { nodes, arcs, nextId
        recent := (arcs.toList.map Prod.fst).reverse
        index := nodes.toList.foldl (fun m (i, n) => m.insert n.id i) {} }
  else none

/-- The fields of the stored slots. -/
def slotFields : List Field :=
  [⟨"nodes", .required⟩, ⟨"node_holes", .defaulted⟩, ⟨"edge_property", .required⟩,
    ⟨"edges", .required⟩]

/-- What is stored of the slots of a graph. -/
structure StoredSlots where
  /-- The nodes, without the vacant slots between them. -/
  nodes : List Node
  /-- The vacant node slots. -/
  holes : List Nat
  /-- The edge cells. -/
  arcs : List (Option Arc)

/-- The stored slots of a JSON value. -/
def storedOfJson? (o : Origin) (j : Json) : Option StoredSlots :=
  match Json.record? o slotFields j with
  | some (o, [some nodes, holes, some property, some edges]) =>
    match Json.list? o Node.ofJson? nodes,
        (match holes with
          | some holes => Json.list? o (fun _ => slotOfJson?) holes
          | none => some []),
        Json.plain? o ["directed"] property,
        Json.list? o cellOfJson? edges with
    | some nodes, some holes, some _, some arcs => some ⟨nodes, holes, arcs⟩
    | _, _, _, _ => none
  | _ => none

/-- The node cells and edge cells of a JSON value. -/
def slotsOfJson? (o : Origin) (j : Json) : Option (List (Option Node) × List (Option Arc)) :=
  match storedOfJson? o j with
  | some s => (Slots.spread 0 s.holes s.nodes).map (·, s.arcs)
  | none => none

/-- The graph of a JSON value. -/
def ofJson? (o : Origin) (j : Json) : Option Graph :=
  match Json.record? o [⟨"graph", .required⟩, ⟨"next_id", .required⟩] j with
  | some (o, [some slots, some next]) =>
    match slotsOfJson? o slots, Json.uint64? next with
    | some (nodes, arcs), some nextId => ofCells? nodes arcs nextId
    | _, _ => none
  | _ => none

/-- The graph of a text. -/
def ofText? (s : String) : Option Graph := (Json.ofString? s).bind (ofJson? .top)

/-! ## Gaps -/

/-- Whether a vacant slot leaves a gap, where `pos` is the first slot that is
not filled yet, `left` the number of nodes that are left and `total` the number
of slots. -/
def leavesGap (pos left total : Nat) : List Nat → Bool
  | [] => false
  | hole :: holes =>
    if hole < pos ∨ total ≤ hole then false
    else if left < hole - pos then true
    else leavesGap (hole + 1) (left - (hole - pos)) total holes

/-- Whether there is a gap in the slots of a JSON value. -/
def gapInSlots (o : Origin) (j : Json) : Bool :=
  match storedOfJson? o j with
  | some s => leavesGap 0 s.nodes.length (s.nodes.length + s.holes.length) s.holes
  | none => false

/-- The value at the start of some tokens. -/
def valueAt? (ts : List Json.Token) : Option (Json × List Json.Token) :=
  Json.value? (2 * ts.length + 2) ts

/-- Whether there is a gap in the slots among the members of a graph, which are
read one after the other.  `counted` says whether the next id was among them. -/
def gapInMembers (o : Origin) : Nat → Bool → List Json.Token → Bool
  | fuel + 1, counted, .str (some key) :: .colon :: rest =>
    match valueAt? rest with
    | none => false
    | some (j, rest) =>
      if key = "graph" then gapInSlots o j
      else
        let isNext := key = "next_id"
        match rest with
        | .comma :: rest =>
          if isNext && (counted || (Json.uint64? j).isNone) then false
          else gapInMembers o fuel (counted || isNext) rest
        | _ => false
  | _, _, _ => false

/-- Whether a gap is met when a text is read. -/
def gapIn (s : String) : Bool :=
  match Origin.top.enter, Json.Token.scanStart (Text.symbolsOfString s) with
  | some o, .objOpen :: rest => gapInMembers o rest.length false rest
  | some o, .arrOpen :: rest => ((valueAt? rest).map fun (j, _) => gapInSlots o j).getD false
  | _, _ => false

/-- Why a text is not read as a graph. -/
inductive TextFault where
  /-- It is no text of a graph. -/
  | malformed
  /-- There is a gap in its slots. -/
  | gap
  deriving DecidableEq

/-- The graph of a text, or the fault for which it is refused. -/
def read (s : String) : Except TextFault Graph :=
  match ofText? s with
  | some g => .ok g
  | none => .error (if gapIn s then .gap else .malformed)

end CodeGraph.Graph
