import CodeGraph.Proofs.Diff.Restore
import CodeGraph.Proofs.Graph.Reload
import Mathlib

/-!
# Scripts from disjoint pools commute

A recorded change only adds to a view: a node, an edge or the value of a property
(`Addition`).  What it adds does not depend on the graph where ids come from a pool,
since the pool and the ids created so far say what every reference stands for
(`Binding`).  So to apply such a script is to resolve its changes and to make the
additions one after the other (`Progress.Carries.applyAll`).

Additions that do not meet can be made in either order (`Addition.on_comm`), and so can
lists of them.  Where two pools have no id in common, the additions of two scripts can
meet only at nodes that both name by id, in a property that both write.
-/

namespace CodeGraph

/-! ## Additions -/

/-- What a recorded change adds to a view. -/
inductive Addition where
  | node (id : NodeId) (n : NodeView)
  | edge (e : EdgeView)
  /-- The value of a property, made from the one before. -/
  | property (id : NodeId) (key : String) (value : Option PropertyValue → Option PropertyValue)

namespace View

/-- The view with one more edge. -/
def withEdge (v : View) (e : EdgeView) : View := { v with edges := e ::ₘ v.edges }

variable {v : View} {i j : NodeId} {m n : Option NodeView} {e f : EdgeView}

@[simp]
theorem node_withEdge : (v.withEdge e).node = v.node := rfl

theorem put_withEdge : (v.withEdge e).put i n = (v.put i n).withEdge e := rfl

theorem withEdge_comm : (v.withEdge e).withEdge f = (v.withEdge f).withEdge e :=
  congrArg (View.mk v.node) (Multiset.cons_swap f e v.edges)

theorem node_put_of_ne (h : j ≠ i) : (v.put i n).node j = v.node j := Function.update_of_ne h _ _

theorem put_comm (h : i ≠ j) : (v.put i m).put j n = (v.put j n).put i m := by
  have hnode := Function.update_comm h m n v.node
  exact congrArg (fun node => View.mk node v.edges) hnode

/-- Both ends of an edge are there. -/
def HasEnds (v : View) (e : EdgeView) : Prop := (v.node e.src).isSome ∧ (v.node e.dst).isSome

instance (v : View) (e : EdgeView) : Decidable (v.HasEnds e) :=
  inferInstanceAs (Decidable ((v.node e.src).isSome = true ∧ (v.node e.dst).isSome = true))

theorem hasEnds_withEdge : (v.withEdge e).HasEnds f ↔ v.HasEnds f := Iff.rfl

theorem hasEnds_put_of_ne (hs : e.src ≠ i) (hd : e.dst ≠ i) :
    (v.put i n).HasEnds e ↔ v.HasEnds e := by
  rw [HasEnds, HasEnds, node_put_of_ne hs, node_put_of_ne hd]

/-- A node that is there stays there, whatever it becomes. -/
theorem hasEnds_put {old new : NodeView} (h : v.node i = some old) :
    (v.put i (some new)).HasEnds e ↔ v.HasEnds e := by
  have hsome : ∀ j, ((v.put i (some new)).node j).isSome = (v.node j).isSome := by
    intro j
    rcases eq_or_ne j i with rfl | hne
    · rw [node_put_self, h, Option.isSome_some, Option.isSome_some]
    · rw [node_put_of_ne hne]
  rw [HasEnds, HasEnds, hsome, hsome]

end View

namespace Addition

/-- The view with an addition, where it can be made. -/
def on (x : Addition) (v : View) : Option View :=
  match x with
  | .node id n => if (v.node id).isSome then none else some (v.put id (some n))
  | .edge e =>
    if v.HasEnds e then some (v.withEdge e) else none
  | .property id key value =>
    (v.node id).bind fun n => (value (n.properties key)).map fun new =>
      v.put id (some { n with properties := Function.update n.properties key (some new) })

/-- The view with additions one after the other. -/
def onAll (xs : List Addition) (v : View) : Option View := xs.foldlM (fun v x => x.on v) v

/-- Two additions do not meet: neither makes a node that the other makes or needs, and they
do not write the same property. -/
def Apart : Addition → Addition → Prop
  | .node i _, .node j _ => i ≠ j
  | .node i _, .edge e | .edge e, .node i _ => e.src ≠ i ∧ e.dst ≠ i
  | .node i _, .property j _ _ | .property j _ _, .node i _ => i ≠ j
  | .property i k _, .property j l _ => i ≠ j ∨ k ≠ l
  | .edge _, .edge _ | .edge _, .property _ _ _ | .property _ _ _, .edge _ => True

section Comm

variable {i j : NodeId} {n m : NodeView} {e f : EdgeView} {k l : String}
  {value other : Option PropertyValue → Option PropertyValue} {v : View}

theorem on_node_node (h : i ≠ j) :
    ((node i n).on v).bind (node j m).on = ((node j m).on v).bind (node i n).on := by
  cases hi : v.node i <;> cases hj : v.node j <;>
    simp [on, hi, hj, View.node_put_of_ne h, View.node_put_of_ne h.symm, View.put_comm h]

theorem on_node_edge (hs : e.src ≠ i) (hd : e.dst ≠ i) :
    ((node i n).on v).bind (edge e).on = ((edge e).on v).bind (node i n).on := by
  cases hi : v.node i <;> by_cases he : v.HasEnds e <;>
    simp [on, hi, he, View.hasEnds_put_of_ne hs hd, View.put_withEdge]

theorem on_node_property (h : i ≠ j) :
    ((node i n).on v).bind (property j k value).on =
      ((property j k value).on v).bind (node i n).on := by
  cases hj : v.node j with
  | none => cases hi : v.node i <;> simp [on, hi, hj, View.node_put_of_ne h.symm]
  | some m =>
    cases hi : v.node i <;> cases hx : value (m.properties k) <;>
      simp [on, hi, hj, hx, View.node_put_of_ne h, View.node_put_of_ne h.symm, View.put_comm h]

theorem on_edge_edge : ((edge e).on v).bind (edge f).on = ((edge f).on v).bind (edge e).on := by
  by_cases he : v.HasEnds e <;> by_cases hf : v.HasEnds f <;>
    simp [on, he, hf, View.hasEnds_withEdge, View.withEdge_comm (e := e)]

theorem on_edge_property :
    ((edge e).on v).bind (property j k value).on =
      ((property j k value).on v).bind (edge e).on := by
  cases hj : v.node j with
  | none => by_cases he : v.HasEnds e <;> simp [on, he, hj]
  | some n =>
    cases hx : value (n.properties k) <;> by_cases he : v.HasEnds e <;>
      simp [on, he, hj, hx, View.hasEnds_put hj, View.put_withEdge]

theorem on_property_property (h : i ≠ j ∨ k ≠ l) :
    ((property i k value).on v).bind (property j l other).on =
      ((property j l other).on v).bind (property i k value).on := by
  rcases eq_or_ne i j with rfl | hne
  · -- the two write the same node, under other names
    have hkl : k ≠ l := h.resolve_left (fun hii => hii rfl)
    cases hi : v.node i with
    | none => simp [on, hi]
    | some n =>
      cases hx : value (n.properties k) <;> cases hy : other (n.properties l) <;>
        simp [on, hi, hx, hy, Function.update_of_ne hkl, Function.update_of_ne hkl.symm,
          Function.update_comm hkl]
  · cases hi : v.node i with
    | none =>
      cases hj : v.node j with
      | none => simp [on, hi, hj]
      | some m =>
        cases hy : other (m.properties l) <;> simp [on, hi, hj, hy, View.node_put_of_ne hne]
    | some n =>
      cases hj : v.node j with
      | none =>
        cases hx : value (n.properties k) <;> simp [on, hi, hj, hx, View.node_put_of_ne hne.symm]
      | some m =>
        cases hx : value (n.properties k) <;> cases hy : other (m.properties l) <;>
          simp [on, hi, hj, hx, hy, View.node_put_of_ne hne, View.node_put_of_ne hne.symm,
            View.put_comm hne]

end Comm

/-- Additions that do not meet can be made in either order. -/
theorem on_comm {x y : Addition} (h : x.Apart y) (v : View) :
    (x.on v).bind y.on = (y.on v).bind x.on := by
  cases x with
  | node i n =>
    cases y with
    | node j m => exact on_node_node h
    | edge e => exact on_node_edge h.1 h.2
    | property j k value => exact on_node_property h
  | edge e =>
    cases y with
    | node i n => exact (on_node_edge h.1 h.2).symm
    | edge f => exact on_edge_edge
    | property j k value => exact on_edge_property
  | property j k value =>
    cases y with
    | node i n => exact (on_node_property h).symm
    | edge e => exact on_edge_property.symm
    | property i l other => exact on_property_property h

theorem onAll_cons (x : Addition) (xs : List Addition) (v : View) :
    onAll (x :: xs) v = (x.on v).bind (onAll xs) := List.foldlM_cons

/-- An addition that meets none of a list can be made before or after them. -/
theorem on_onAll_comm {x : Addition} {ys : List Addition} (h : ∀ y ∈ ys, x.Apart y) (v : View) :
    (x.on v).bind (onAll ys) = (onAll ys v).bind x.on := by
  induction ys generalizing v with
  | nil => exact Option.bind_fun_some (x.on v)
  | cons y ys ih =>
    obtain ⟨hy, hys⟩ := List.forall_mem_cons.mp h
    calc (x.on v).bind (onAll (y :: ys))
        = ((x.on v).bind y.on).bind (onAll ys) := by
          rw [Option.bind_assoc]
          exact congrArg _ (funext (onAll_cons y ys))
      _ = ((y.on v).bind x.on).bind (onAll ys) := by rw [on_comm hy]
      _ = (y.on v).bind fun w => (onAll ys w).bind x.on := by
          rw [Option.bind_assoc]
          exact congrArg _ (funext (ih hys))
      _ = (onAll (y :: ys) v).bind x.on := by rw [onAll_cons, Option.bind_assoc]

/-- Lists of additions that do not meet can be made in either order. -/
theorem onAll_comm {xs ys : List Addition} (h : ∀ x ∈ xs, ∀ y ∈ ys, x.Apart y) (v : View) :
    (onAll xs v).bind (onAll ys) = (onAll ys v).bind (onAll xs) := by
  induction xs generalizing v with
  | nil => exact (Option.bind_fun_some (onAll ys v)).symm
  | cons x xs ih =>
    obtain ⟨hx, hxs⟩ := List.forall_mem_cons.mp h
    calc (onAll (x :: xs) v).bind (onAll ys)
        = (x.on v).bind fun w => (onAll xs w).bind (onAll ys) := by
          rw [onAll_cons, Option.bind_assoc]
      _ = ((x.on v).bind (onAll ys)).bind (onAll xs) := by
          rw [Option.bind_assoc]
          exact congrArg _ (funext (ih hxs))
      _ = ((onAll ys v).bind x.on).bind (onAll xs) := by rw [on_onAll_comm hx]
      _ = (onAll ys v).bind (onAll (x :: xs)) := by
          rw [Option.bind_assoc]
          exact congrArg _ (funext fun w => (onAll_cons x xs w).symm)

end Addition

/-! ## Changes resolved -/

/-- The ids that a script has to draw from, and those created so far by key. -/
structure Binding where
  pool : KeyPool
  created : Std.TreeMap UInt32 NodeId := {}

namespace Binding

/-- The id that a reference stands for. -/
def id? (b : Binding) : NodeRef → Option NodeId
  | .existing id => some id
  | .new key => b.created[key.value]?

/-- What a recorded change adds, and the binding after it. -/
def resolve (b : Binding) : Change → Option (Addition × Binding)
  | .createNode key kind properties =>
    match b.pool.next with
    | .ok (id, pool) =>
      some (.node id ⟨kind, properties.get?⟩, ⟨pool, b.created.insert key.value id⟩)
    | .error _ => none
  | .createEdge src dst edge => do
    let src ← b.id? src
    let dst ← b.id? dst
    return (.edge (Link.view ⟨src, dst, edge⟩), b)
  | .setProperty node key value => do
    let id ← b.id? node
    return (.property id key fun _ => some value, b)
  | .addProperty node key value => do
    let id ← b.id? node
    return (.property id key fun old =>
      (View.listed? old).map fun items => .list (items ++ [value]), b)
  | _ => none

/-- What recorded changes add one after the other, and the binding after them. -/
def resolveAll (b : Binding) : List Change → Option (List Addition × Binding)
  | [] => some ([], b)
  | c :: cs => do
    let (x, b) ← b.resolve c
    let (xs, b) ← b.resolveAll cs
    return (x :: xs, b)

/-- The view with the addition of a change, and the binding after it. -/
def step (b : Binding) (c : Change) (v : View) : Option (Binding × View) :=
  (b.resolve c).bind fun (x, b) => (x.on v).map fun w => (b, w)

/-- The view with the additions of changes, and the binding after them. -/
def run (b : Binding) (cs : List Change) (v : View) : Option (Binding × View) :=
  (b.resolveAll cs).bind fun (xs, b) => (Addition.onAll xs v).map fun w => (b, w)

theorem run_eq_some_iff {b b' : Binding} {cs : List Change} {v w : View} :
    b.run cs v = some (b', w) ↔
      ∃ xs, b.resolveAll cs = some (xs, b') ∧ Addition.onAll xs v = some w := by
  simp [run, Option.bind_eq_some_iff]

theorem run_cons (b : Binding) (c : Change) (cs : List Change) (v : View) :
    b.run (c :: cs) v = (b.step c v).bind fun (b, w) => b.run cs w := by
  rw [run, resolveAll, step]
  cases b.resolve c with
  | none => rfl
  | some r =>
    obtain ⟨x, b⟩ := r
    dsimp only [Option.bind_eq_bind, Option.bind_some]
    cases hx : x.on v with
    | none =>
      cases b.resolveAll cs with
      | none => rfl
      | some r => simp [Addition.onAll_cons, hx]
    | some w =>
      rw [Option.map_some, Option.bind_some, run]
      cases b.resolveAll cs with
      | none => rfl
      | some r => simp [Addition.onAll_cons, hx]

end Binding

/-- An operation on a graph succeeds just where one on the view does, with a result that is
related. -/
inductive Follows {α β : Type} (R : α → β → Prop) : Except GraphError α → Option β → Prop where
  | failed (e : GraphError) : Follows R (.error e) none
  | done {a : α} {b : β} (h : R a b) : Follows R (.ok a) (some b)

namespace Follows

variable {α β γ δ : Type} {R : α → β → Prop} {S : γ → δ → Prop} {x : Except GraphError α}
  {y : Option β}

theorem cases (h : Follows R x y) :
    (∃ e, x = .error e ∧ y = none) ∨ ∃ a b, x = .ok a ∧ y = some b ∧ R a b := by
  cases h with
  | failed e => exact .inl ⟨e, rfl, rfl⟩
  | done hab => exact .inr ⟨_, _, rfl, rfl, hab⟩

theorem bind {f : α → Except GraphError γ} {k : β → Option δ} (h : Follows R x y)
    (hf : ∀ a b, R a b → Follows S (f a) (k b)) : Follows S (x >>= f) (y.bind k) := by
  cases h with
  | failed e => exact .failed e
  | done hab => exact hf _ _ hab

/-- What is done with the result does not fail. -/
theorem map {T : γ → β → Prop} {f : α → Except GraphError γ} (h : Follows R x y)
    (hf : ∀ a b, R a b → ∃ c, f a = .ok c ∧ T c b) : Follows T (x >>= f) y := by
  cases h with
  | failed e => exact .failed e
  | done hab =>
    obtain ⟨c, hc, hcb⟩ := hf _ _ hab
    change Follows T (f _) _
    rw [hc]
    exact .done hcb

end Follows

namespace Graph

/-- A well-formed graph of a view. -/
structure Realizes (g : Graph) (v : View) : Prop where
  wellFormed : g.WellFormed
  view_eq : g.view = v

variable {g : Graph} {v : View}

namespace Realizes

theorem insertNode (hg : g.Realizes v) (n : Node) :
    Follows Realizes (g.insertNode n) ((Addition.node n.id n.view).on v) := by
  obtain ⟨hwf, rfl⟩ := hg
  cases hn : g.node? n.id with
  | none =>
    obtain ⟨g', hok, hs⟩ := hwf.shows_insertNode hn
    have hnone : g.view.node n.id = none := Option.map_eq_none_iff.mpr hn
    rw [hok, Addition.on, hnone]
    exact .done ⟨hs.wellFormed, hs.view_put⟩
  | some m =>
    rw [hwf.insertNode_error hn, Addition.on, view_node_of_node? hn]
    exact .failed _

theorem addEdge (hg : g.Realizes v) (src dst : NodeId) (edge : Edge) :
    Follows Realizes (g.addEdge src dst edge)
      ((Addition.edge (Link.view ⟨src, dst, edge⟩)).on v) := by
  obtain ⟨hwf, rfl⟩ := hg
  rw [Addition.on]
  split_ifs with hends
  · obtain ⟨_, hs⟩ : ∃ n, g.node? src = some n := exists_node?_of_view hends.1
    obtain ⟨_, hd⟩ : ∃ n, g.node? dst = some n := exists_node?_of_view hends.2
    obtain ⟨g', hok, hshows⟩ := hwf.shows_addEdge hs hd edge
    rw [hok]
    exact .done ⟨hshows.wellFormed, hshows.view_eq⟩
  · cases hok : g.addEdge src dst edge with
    | error e => exact .failed e
    | ok g' =>
      obtain ⟨hs, hd, _⟩ := hwf.shows_of_addEdge hok
      exact absurd ⟨Option.isSome_map.trans hs, Option.isSome_map.trans hd⟩ hends

theorem updateProperties (hg : g.Realizes v) (id : NodeId) (key : String)
    {f : Properties → Except GraphError Properties}
    {value : Option PropertyValue → Option PropertyValue}
    (hf : ∀ p, Follows (fun q new => q.get? = Function.update p.get? key (some new)) (f p)
      (value (p.get? key))) :
    Follows (fun a w => Realizes a.2 w) (g.updateProperties id key f)
      ((Addition.property id key value).on v) := by
  obtain ⟨hwf, rfl⟩ := hg
  cases hn : g.node? id with
  | none =>
    have hnone : g.view.node id = none := Option.map_eq_none_iff.mpr hn
    rw [hwf.updateProperties_error hn, Addition.on, hnone]
    exact .failed _
  | some n =>
    have hon : (Addition.property id key value).on g.view =
        (value (n.properties.get? key)).map fun new => g.view.put id
          (some ⟨n.kind, Function.update n.properties.get? key (some new)⟩) := by
      rw [Addition.on, view_node_of_node? hn]
      rfl
    rw [hon]
    obtain ⟨e, hp, hx⟩ | ⟨p, new, hp, hx, hget⟩ := (hf n.properties).cases
    · rw [hwf.updateProperties_refused hn key hp, hx]
      exact .failed e
    · obtain ⟨g', hok, hs⟩ := hwf.shows_updateProperties hn key hp
      have hview : g'.view = g.view.put id (some ⟨n.kind, p.get?⟩) := hs.view_put
      rw [hok, hx]
      exact .done ⟨hs.wellFormed, by rw [hview, hget]⟩

theorem setProperty (hg : g.Realizes v) (id : NodeId) (key : String) (value : PropertyValue) :
    Follows (fun a w => Realizes a.2 w) (g.setProperty id key value)
      ((Addition.property id key fun _ => some value).on v) :=
  hg.updateProperties id key fun p => .done (p.get?_insert key value)

theorem appendProperty (hg : g.Realizes v) (id : NodeId) (key : String) (value : PropertyValue) :
    Follows (fun a w => Realizes a.2 w) (g.appendProperty id key value)
      ((Addition.property id key fun old =>
        (View.listed? old).map fun items => .list (items ++ [value])).on v) := by
  refine hg.updateProperties id key fun p => ?_
  cases hlist : View.listed? (p.get? key) with
  | some items =>
    rw [appended_eq hlist]
    exact .done (p.get?_insert key _)
  | none =>
    cases hp : appended id key value p with
    | error e => exact .failed e
    | ok q =>
      obtain ⟨items, hsome, _⟩ := listed?_of_appended hp
      rw [hlist] at hsome
      cases hsome

end Realizes

end Graph

/-! ## Applications by additions -/

namespace Progress

/-- An application has come to a view, with a pool and the ids created so far. -/
structure Carries (p : Progress) (b : Binding) (v : View) : Prop where
  graph : p.graph.Realizes v
  pool : p.pool = some b.pool
  created : p.created = b.created

/-- An application went on just where the additions could be made, and came to their view. -/
inductive Reached : Progress × Option GraphError → Option (Binding × View) → Prop where
  | failed {p : Progress} {e : GraphError} : Reached (p, some e) none
  | done {p : Progress} {b : Binding} {v : View} (h : Carries p b v) :
      Reached (p, none) (some (b, v))

variable {p : Progress} {b : Binding} {v : View} {c : Change}

namespace Carries

theorem commit (h : Carries p b v) {r : Except GraphError (Graph × List Change)} {w : Option View}
    (hr : Follows (fun a w => a.1.Realizes w) r w) :
    Reached (p.commit r) (w.map fun w => (b, w)) := by
  cases hr with
  | failed e => exact .failed
  | done hgraph => exact .done ⟨hgraph, h.pool, h.created⟩

theorem resolve (h : Carries p b v) (ref : NodeRef) : Follows Eq (p.resolve ref) (b.id? ref) := by
  cases ref with
  | existing id => exact .done rfl
  | new key =>
    rw [Progress.resolve, Binding.id?, h.created]
    cases b.created[key.value]? with
    | none => exact .failed _
    | some id => exact .done rfl

theorem createNode (h : Carries p b v) (key : NewKey) (kind : NodeKind) (properties : Properties) :
    Reached (p.createNode key kind properties) (b.step (.createNode key kind properties) v) := by
  rw [Progress.createNode, Binding.step, Binding.resolve]
  cases hnext : b.pool.next with
  | error e =>
    have hdraw : p.draw = .error e := by simp only [Progress.draw, h.pool, hnext]
    rw [hdraw]
    exact .failed
  | ok drawn =>
    obtain ⟨id, pool⟩ := drawn
    have hdraw : p.draw = .ok (id, { p with pool := some pool }) := by
      simp only [Progress.draw, h.pool, hnext]
    rw [hdraw]
    dsimp only [Option.bind_some]
    obtain ⟨e, hp, hx⟩ | ⟨g, w, hp, hx, hg⟩ := (h.graph.insertNode ⟨id, kind, properties⟩).cases
    · have hx : (Addition.node id ⟨kind, properties.get?⟩).on v = none := hx
      rw [hp, hx]
      exact .failed
    · have hx : (Addition.node id ⟨kind, properties.get?⟩).on v = some w := hx
      rw [hp, hx]
      exact .done ⟨hg, rfl, congrArg (·.insert key.value id) h.created⟩

/-- A recorded change makes its addition. -/
theorem apply (h : Carries p b v) (hc : c.isRecorded) : Reached (p.apply c) (b.step c v) := by
  cases c with
  | createNode key kind properties => exact h.createNode key kind properties
  | createEdge src dst edge =>
    have hstep : b.step (.createEdge src dst edge) v = ((b.id? src).bind fun src =>
        (b.id? dst).bind fun dst => (Addition.edge (Link.view ⟨src, dst, edge⟩)).on v).map
          fun w => (b, w) := by
      rw [Binding.step, Binding.resolve]
      cases b.id? src with
      | none => rfl
      | some src => cases b.id? dst <;> rfl
    rw [hstep]
    refine h.commit ((h.resolve src).bind ?_)
    rintro src _ rfl
    refine (h.resolve dst).bind ?_
    rintro dst _ rfl
    exact (h.graph.addEdge src dst edge).map fun g w hg => ⟨_, rfl, hg⟩
  | setProperty node key value =>
    have hstep : b.step (.setProperty node key value) v = ((b.id? node).bind fun id =>
        (Addition.property id key fun _ => some value).on v).map fun w => (b, w) := by
      rw [Binding.step, Binding.resolve]
      cases b.id? node <;> rfl
    rw [hstep]
    refine h.commit ((h.resolve node).bind ?_)
    rintro id _ rfl
    exact (h.graph.setProperty id key value).map fun a w hg => ⟨_, rfl, hg⟩
  | addProperty node key value =>
    have hstep : b.step (.addProperty node key value) v = ((b.id? node).bind fun id =>
        (Addition.property id key fun old =>
          (View.listed? old).map fun items => .list (items ++ [value])).on v).map
          fun w => (b, w) := by
      rw [Binding.step, Binding.resolve]
      cases b.id? node <;> rfl
    rw [hstep]
    refine h.commit ((h.resolve node).bind ?_)
    rintro id _ rfl
    exact (h.graph.appendProperty id key value).map fun a w hg => ⟨_, rfl, hg⟩
  | removeNode node => cases hc
  | removeEdge src dst edge => cases hc
  | restoreProperty node key value => cases hc
  | restoreNode node => cases hc

/-- A recorded script makes its additions one after the other. -/
theorem applyAll (h : Carries p b v) {cs : List Change} (hcs : ∀ c ∈ cs, c.isRecorded) :
    Reached (p.applyAll cs) (b.run cs v) := by
  induction cs generalizing p b v with
  | nil => exact .done h
  | cons c cs ih =>
    obtain ⟨hc, hcs⟩ := List.forall_mem_cons.mp hcs
    have hstep := h.apply hc
    rw [Progress.applyAll, Binding.run_cons]
    generalize p.apply c = made, b.step c v = added at hstep
    cases hstep with
    | failed => exact .failed
    | done h' => exact ih h' hcs

end Carries

end Progress

/-! ## Scripts that do not meet -/

/-- An id is in the range of a pool. -/
def KeyPool.Owns (p : KeyPool) (id : NodeId) : Prop := p.start ≤ id.value ∧ id.value < p.stop

instance (p : KeyPool) (id : NodeId) : Decidable (p.Owns id) :=
  inferInstanceAs (Decidable (p.start ≤ id.value ∧ id.value < p.stop))

theorem KeyPool.owns_of_next {p p' : KeyPool} {id : NodeId} (h : p.next = .ok (id, p')) :
    p.Owns id ∧ p'.start = p.start ∧ p'.stop = p.stop := by
  unfold next at h
  split at h
  · cases h
  · split at h
    next hlt =>
      cases h
      exact ⟨⟨p.start_le, hlt⟩, rfl, rfl⟩
    next => cases h

/-- The id that a reference names a node by. -/
def NodeRef.existing? : NodeRef → Option NodeId
  | .existing id => some id
  | .new _ => none

/-- The ids that a recorded change names nodes by. -/
def Change.existing : Change → List NodeId
  | .createEdge src dst _ => src.existing?.toList ++ dst.existing?.toList
  | .setProperty node _ _ | .addProperty node _ _ => node.existing?.toList
  | _ => []

/-- The property that a recorded change writes, of a node that it names by id. -/
def Change.written : Change → List (NodeId × String)
  | .setProperty node key _ | .addProperty node key _ =>
    node.existing?.toList.map fun id => (id, key)
  | _ => []

namespace Diff

/-- The ids that a recorded script names nodes by. -/
def existing (d : Diff) : List NodeId := d.changes.flatMap Change.existing

/-- The properties that a recorded script writes, of nodes that it names by id. -/
def written (d : Diff) : List (NodeId × String) := d.changes.flatMap Change.written

/-- Two scripts with a pool each do not meet: the pools have no id in common, neither script
names a node by an id of the other's pool, and no property of a node is written by both. -/
structure Separate (d₁ : Diff) (p₁ : KeyPool) (d₂ : Diff) (p₂ : KeyPool) : Prop where
  pools : ∀ id, p₁.Owns id → ¬ p₂.Owns id
  left : ∀ id ∈ d₁.existing, ¬ p₂.Owns id
  right : ∀ id ∈ d₂.existing, ¬ p₁.Owns id
  written : ∀ w ∈ d₁.written, w ∉ d₂.written

variable {d d₁ d₂ : Diff} {p p₁ p₂ : KeyPool}

theorem Separate.symm (h : Separate d₁ p₁ d₂ p₂) : Separate d₂ p₂ d₁ p₁ where
  pools id h₂ h₁ := h.pools id h₁ h₂
  left := h.right
  right := h.left
  written w h₂ h₁ := h.written w h₁ h₂

/-- An addition of a script that draws from a pool. -/
def Adds (d : Diff) (p : KeyPool) : Addition → Prop
  | .node id _ => p.Owns id
  | .edge e => (p.Owns e.src ∨ e.src ∈ d.existing) ∧ (p.Owns e.dst ∨ e.dst ∈ d.existing)
  | .property id key _ => p.Owns id ∨ id ∈ d.existing ∧ (id, key) ∈ d.written

/-- A node of the one pool is neither in the other nor named by the other script. -/
theorem Separate.ne (h : Separate d₁ p₁ d₂ p₂) {i j : NodeId} (hi : p₁.Owns i)
    (hj : p₂.Owns j ∨ j ∈ d₂.existing) : j ≠ i := by
  rintro rfl
  exact hj.elim (h.pools j hi) fun hj => h.right j hj hi

theorem Separate.apart (h : Separate d₁ p₁ d₂ p₂) {x y : Addition} (hx : d₁.Adds p₁ x)
    (hy : d₂.Adds p₂ y) : x.Apart y := by
  cases x with
  | node i n =>
    cases y with
    | node j m => exact (h.ne hx (.inl hy)).symm
    | edge e => exact ⟨h.ne hx hy.1, h.ne hx hy.2⟩
    | property j k value => exact (h.ne hx (hy.imp_right And.left)).symm
  | edge e =>
    cases y with
    | node j m => exact ⟨h.symm.ne hy hx.1, h.symm.ne hy hx.2⟩
    | edge f => trivial
    | property j k value => trivial
  | property i k value =>
    cases y with
    | node j m => exact (h.symm.ne hy (hx.imp_right And.left)).symm
    | edge f => trivial
    | property j l other =>
      rcases hx with hx | ⟨hi, hwrites⟩
      · exact .inl (h.ne hx (hy.imp_right And.left)).symm
      · rcases hy with hy | ⟨_, hwrites'⟩
        · exact .inl (h.symm.ne hy (.inr hi))
        · refine not_and_or.mp ?_
          rintro ⟨rfl, rfl⟩
          exact h.written _ hwrites hwrites'

end Diff

namespace Binding

/-- A binding of a script that draws from a pool: ids come from the range of the pool. -/
structure Within (b : Binding) (p : KeyPool) : Prop where
  start : b.pool.start = p.start
  stop : b.pool.stop = p.stop
  owns : ∀ (key : UInt32) id, b.created[key]? = some id → p.Owns id

theorem within_start (p : KeyPool) : Within ⟨p, {}⟩ p where
  start := rfl
  stop := rfl
  owns key id hid := by
    rw [Std.TreeMap.getElem?_emptyc] at hid
    cases hid

variable {b b' : Binding} {p : KeyPool} {d : Diff} {c : Change} {x : Addition}

theorem Within.id? (h : b.Within p) {ref : NodeRef} {id : NodeId} (hid : b.id? ref = some id) :
    p.Owns id ∨ id ∈ ref.existing?.toList := by
  cases ref with
  | existing i =>
    cases hid
    exact .inr (List.mem_singleton.mpr rfl)
  | new key => exact .inl (h.owns key.value id hid)

theorem Within.createNode (h : b.Within p) {key : NewKey} {id : NodeId} {pool : KeyPool}
    (hnext : b.pool.next = .ok (id, pool)) :
    p.Owns id ∧ Within ⟨pool, b.created.insert key.value id⟩ p := by
  obtain ⟨howns, hstart, hstop⟩ := KeyPool.owns_of_next hnext
  rw [KeyPool.Owns, h.start, h.stop] at howns
  refine ⟨howns, hstart.trans h.start, hstop.trans h.stop, fun key' id' hid' => ?_⟩
  rw [Std.TreeMap.getElem?_insert] at hid'
  split at hid'
  next =>
    cases hid'
    exact howns
  next => exact h.owns key' id' hid'

theorem Within.resolve (h : b.Within p) (hc : c ∈ d.changes) (hx : b.resolve c = some (x, b')) :
    d.Adds p x ∧ b'.Within p := by
  have hexisting : ∀ id ∈ c.existing, id ∈ d.existing :=
    fun id hid => List.mem_flatMap.mpr ⟨c, hc, hid⟩
  have hwritten : ∀ w ∈ c.written, w ∈ d.written :=
    fun w hw => List.mem_flatMap.mpr ⟨c, hc, hw⟩
  cases c with
  | createNode key kind properties =>
    rw [Binding.resolve] at hx
    cases hnext : b.pool.next with
    | error e =>
      rw [hnext] at hx
      cases hx
    | ok drawn =>
      rw [hnext] at hx
      cases hx
      exact h.createNode hnext
  | createEdge src dst edge =>
    obtain ⟨s, hs, hx⟩ := Option.bind_eq_some_iff.mp hx
    obtain ⟨t, ht, hx⟩ := Option.bind_eq_some_iff.mp hx
    cases hx
    refine ⟨⟨(h.id? hs).imp_right fun hs => ?_, (h.id? ht).imp_right fun ht => ?_⟩, h⟩
    · exact hexisting s (List.mem_append_left _ hs)
    · exact hexisting t (List.mem_append_right _ ht)
  | setProperty node key value =>
    obtain ⟨id, hid, hx⟩ := Option.bind_eq_some_iff.mp hx
    cases hx
    refine ⟨(h.id? hid).imp_right fun hid => ⟨hexisting id hid, ?_⟩, h⟩
    exact hwritten _ (List.mem_map_of_mem hid)
  | addProperty node key value =>
    obtain ⟨id, hid, hx⟩ := Option.bind_eq_some_iff.mp hx
    cases hx
    refine ⟨(h.id? hid).imp_right fun hid => ⟨hexisting id hid, ?_⟩, h⟩
    exact hwritten _ (List.mem_map_of_mem hid)
  | removeNode node => cases hx
  | removeEdge src dst edge => cases hx
  | restoreProperty node key value => cases hx
  | restoreNode node => cases hx

theorem Within.resolveAll (h : b.Within p) {cs : List Change} (hcs : ∀ c ∈ cs, c ∈ d.changes)
    {xs : List Addition} (hxs : b.resolveAll cs = some (xs, b')) : ∀ x ∈ xs, d.Adds p x := by
  induction cs generalizing b xs with
  | nil =>
    cases hxs
    exact List.forall_mem_nil _
  | cons c cs ih =>
    obtain ⟨hc, hcs⟩ := List.forall_mem_cons.mp hcs
    obtain ⟨⟨x, b₁⟩, hx, hxs⟩ := Option.bind_eq_some_iff.mp hxs
    obtain ⟨⟨xs, b₂⟩, hrest, hxs⟩ := Option.bind_eq_some_iff.mp hxs
    cases hxs
    obtain ⟨hadds, h₁⟩ := h.resolve hc hx
    exact List.forall_mem_cons.mpr ⟨hadds, ih h₁ hcs hrest⟩

/-- Scripts that do not meet come to the same view in either order, or to none. -/
theorem run_comm {d₁ d₂ : Diff} {p₁ p₂ : KeyPool} (h : Diff.Separate d₁ p₁ d₂ p₂) {b₁ b₂ : Binding}
    {v v₁ w : View} (h₁ : run ⟨p₁, {}⟩ d₁.changes v = some (b₁, v₁))
    (h₂ : run ⟨p₂, {}⟩ d₂.changes v₁ = some (b₂, w)) :
    ∃ v₂, run ⟨p₂, {}⟩ d₂.changes v = some (b₂, v₂) ∧
      run ⟨p₁, {}⟩ d₁.changes v₂ = some (b₁, w) := by
  obtain ⟨xs, hxs, hv₁⟩ := run_eq_some_iff.mp h₁
  obtain ⟨ys, hys, hw⟩ := run_eq_some_iff.mp h₂
  have hx := (within_start p₁).resolveAll (fun _ hc => hc) hxs
  have hy := (within_start p₂).resolveAll (fun _ hc => hc) hys
  have hcomm := Addition.onAll_comm (fun x hxm y hym => h.apart (hx x hxm) (hy y hym)) v
  rw [hv₁, Option.bind_some, hw] at hcomm
  obtain ⟨v₂, hv₂, hw⟩ := Option.bind_eq_some_iff.mp hcomm.symm
  exact ⟨v₂, run_eq_some_iff.mpr ⟨ys, hys, hv₂⟩, run_eq_some_iff.mpr ⟨xs, hxs, hw⟩⟩

end Binding

namespace Graph

variable {g : Graph} {d : Diff} {p : KeyPool} {withInverse : Bool} {a : Applied} {b : Binding}
  {v : View}

theorem WellFormed.reached (hg : g.WellFormed) (hd : d.Recorded) (p : KeyPool) :
    Progress.Reached (Progress.applyAll { graph := g, pool := some p } d.changes)
      (Binding.run ⟨p, {}⟩ d.changes g.view) :=
  Progress.Carries.applyAll ⟨⟨hg, rfl⟩, rfl, rfl⟩ hd

/-- A recorded script that succeeds comes to the view of its additions. -/
theorem WellFormed.run_of_apply (hg : g.WellFormed) (hd : d.Recorded)
    (h : (g.apply d (some p) withInverse).result = .ok a) :
    ∃ b v, Binding.run ⟨p, {}⟩ d.changes g.view = some (b, v) ∧ a.created = b.created ∧
      (g.apply d (some p) withInverse).graph.Realizes v := by
  obtain ⟨q, hall, hgraph, rfl⟩ := apply_eq_ok h
  have hreached := hg.reached hd p
  rw [hall] at hreached
  generalize Binding.run ⟨p, {}⟩ d.changes g.view = outcome at hreached
  cases hreached with
  | done hcarries => exact ⟨_, _, rfl, hcarries.created, hgraph ▸ hcarries.graph⟩

/-- Where the additions of a recorded script can be made, the script succeeds. -/
theorem WellFormed.apply_of_run (hg : g.WellFormed) (hd : d.Recorded) (withInverse : Bool)
    (h : Binding.run ⟨p, {}⟩ d.changes g.view = some (b, v)) :
    ∃ a, (g.apply d (some p) withInverse).result = .ok a ∧ a.created = b.created ∧
      (g.apply d (some p) withInverse).graph.Realizes v := by
  have hreached := hg.reached hd p
  rw [h] at hreached
  cases hall : Progress.applyAll { graph := g, pool := some p } d.changes with
  | mk q error =>
    rw [hall] at hreached
    cases hreached with
    | done hcarries =>
      rw [apply_of_applyAll_none hall]
      exact ⟨_, rfl, hcarries.created, hcarries.graph⟩

/-- Two scripts succeed one after the other, each with its own pool, and end in a graph. -/
structure AppliedInTurn (g : Graph) (d₁ : Diff) (p₁ : KeyPool) (d₂ : Diff) (p₂ : KeyPool)
    (withInverse : Bool) (a₁ a₂ : Applied) (h : Graph) : Prop where
  first : (g.apply d₁ (some p₁) withInverse).result = .ok a₁
  second : ((g.apply d₁ (some p₁) withInverse).graph.apply d₂ (some p₂) withInverse).result =
    .ok a₂
  graph : ((g.apply d₁ (some p₁) withInverse).graph.apply d₂ (some p₂) withInverse).graph = h

variable {d₁ d₂ : Diff} {p₁ p₂ : KeyPool} {a₁ a₂ : Applied} {h : Graph}

theorem AppliedInTurn.swap (hg : g.WellFormed) (hd₁ : d₁.Recorded) (hd₂ : d₂.Recorded)
    (hsep : Diff.Separate d₁ p₁ d₂ p₂)
    (happlied : AppliedInTurn g d₁ p₁ d₂ p₂ withInverse a₁ a₂ h) :
    ∃ b₂ b₁ h', AppliedInTurn g d₂ p₂ d₁ p₁ withInverse b₂ b₁ h' ∧
      a₁.created = b₁.created ∧ a₂.created = b₂.created ∧ h.content = h'.content := by
  obtain ⟨c₁, v₁, hrun₁, hcreated₁, hg₁⟩ := hg.run_of_apply hd₁ happlied.first
  obtain ⟨c₂, w, hrun₂, hcreated₂, hh⟩ := hg₁.wellFormed.run_of_apply hd₂ happlied.second
  rw [hg₁.view_eq] at hrun₂
  obtain ⟨v₂, hrun₂', hrun₁'⟩ := Binding.run_comm hsep hrun₁ hrun₂
  obtain ⟨b₂, hb₂, hcreated₂', hg₂⟩ := hg.apply_of_run hd₂ withInverse hrun₂'
  rw [← hg₂.view_eq] at hrun₁'
  obtain ⟨b₁, hb₁, hcreated₁', hh'⟩ := hg₂.wellFormed.apply_of_run hd₁ withInverse hrun₁'
  rw [happlied.graph] at hh
  refine ⟨b₂, b₁, _, ⟨hb₂, hb₁, rfl⟩, hcreated₁.trans hcreated₁'.symm,
    hcreated₂.trans hcreated₂'.symm, ?_⟩
  exact content_eq_of_view_eq hh.wellFormed hh'.wellFormed (hh.view_eq.trans hh'.view_eq.symm)

/-- Two recorded scripts that do not meet succeed in either order or in none, with the same
ids for the nodes that they create and the same content in the end. -/
theorem applied_in_either_order (hg : g.WellFormed) (hd₁ : d₁.Recorded) (hd₂ : d₂.Recorded)
    (hsep : Diff.Separate d₁ p₁ d₂ p₂) (withInverse : Bool) :
    ((∃ a₁ a₂ h, AppliedInTurn g d₁ p₁ d₂ p₂ withInverse a₁ a₂ h) ↔
      ∃ b₂ b₁ h', AppliedInTurn g d₂ p₂ d₁ p₁ withInverse b₂ b₁ h') ∧
    ∀ a₁ a₂ h b₁ b₂ h', AppliedInTurn g d₁ p₁ d₂ p₂ withInverse a₁ a₂ h →
      AppliedInTurn g d₂ p₂ d₁ p₁ withInverse b₂ b₁ h' →
      a₁.newNodeIds = b₁.newNodeIds ∧ a₂.newNodeIds = b₂.newNodeIds ∧ h.content = h'.content := by
  refine ⟨⟨?_, ?_⟩, ?_⟩
  · rintro ⟨a₁, a₂, h, happlied⟩
    obtain ⟨b₂, b₁, h', happlied', _⟩ := happlied.swap hg hd₁ hd₂ hsep
    exact ⟨b₂, b₁, h', happlied'⟩
  · rintro ⟨b₂, b₁, h', happlied⟩
    obtain ⟨a₁, a₂, h, happlied', _⟩ := happlied.swap hg hd₂ hd₁ hsep.symm
    exact ⟨a₁, a₂, h, happlied'⟩
  · intro a₁ a₂ h b₁ b₂ h' happlied hother
    obtain ⟨c₂, c₁, k, hswapped, hcreated₁, hcreated₂, hcontent⟩ :=
      happlied.swap hg hd₁ hd₂ hsep
    cases hswapped.first.symm.trans hother.first
    cases hswapped.second.symm.trans hother.second
    cases hswapped.graph.symm.trans hother.graph
    rw [Applied.newNodeIds, Applied.newNodeIds, hcreated₁, Applied.newNodeIds, Applied.newNodeIds,
      hcreated₂]
    exact ⟨rfl, rfl, hcontent⟩

/-- A method and its block, both with a list of tags. -/
def tagged : List Operation :=
  [.addNode (.method "f" "f") {}, .addNode .block {}, .addEdge ⟨1⟩ ⟨2⟩ ⟨.ast, {}⟩,
    .appendProperty ⟨1⟩ "tags" (.str "a"), .appendProperty ⟨2⟩ "tags" (.str "b")]

/-- A block is put into the method, which gets a tag.  The pool has handed out two ids before. -/
def tagMethod : Diff where
  changes := [.createNode ⟨0⟩ .block {}, .createEdge (.existing ⟨1⟩) (.new ⟨0⟩) ⟨.ast, {}⟩,
    .addProperty (.existing ⟨1⟩) "tags" (.str "c"), .addProperty (.new ⟨0⟩) "tags" (.str "d"),
    .setProperty (.existing ⟨2⟩) "line" (.int 1)]

def tagMethodPool : KeyPool := ⟨100, 200, 102, by decide, by decide⟩

/-- Another block is put into the method, and its first block gets a tag. -/
def tagBlock : Diff where
  changes := [.addProperty (.existing ⟨2⟩) "tags" (.str "e"), .createNode ⟨0⟩ .block {},
    .createNode ⟨1⟩ .methodReturn {}, .createEdge (.existing ⟨1⟩) (.new ⟨0⟩) ⟨.ast, {}⟩,
    .createEdge (.new ⟨0⟩) (.new ⟨1⟩) ⟨.cfg, {}⟩, .setProperty (.existing ⟨1⟩) "line" (.int 2)]

def tagBlockPool : KeyPool := ⟨200, 300, 200, by decide, by decide⟩

theorem separate_tagMethod_tagBlock :
    Diff.Separate tagMethod tagMethodPool tagBlock tagBlockPool where
  pools id h₁ h₂ := UInt64.not_lt.mpr h₂.1 h₁.2
  left := by decide
  right := by decide
  written := by decide

theorem tagMethod_tagBlock_in_either_order : ∃ a₁ a₂ h b₁ b₂ h',
    AppliedInTurn (built tagged) tagMethod tagMethodPool tagBlock tagBlockPool false a₁ a₂ h ∧
    AppliedInTurn (built tagged) tagBlock tagBlockPool tagMethod tagMethodPool false b₂ b₁ h' ∧
    a₁.newNodeIds = [⟨102⟩] ∧ a₂.newNodeIds = [⟨200⟩, ⟨201⟩] ∧
    a₁.newNodeIds = b₁.newNodeIds ∧ a₂.newNodeIds = b₂.newNodeIds ∧ h.content = h'.content := by
  have hwf : (built tagged).WellFormed := wellFormed_built _
  have horder :=
    applied_in_either_order hwf (by decide) (by decide) separate_tagMethod_tagBlock false
  have hfirst : ((built tagged).apply tagMethod (some tagMethodPool) false).result.map
      Applied.newNodeIds = .ok [⟨102⟩] := by cbv
  have hsecond : (((built tagged).apply tagMethod (some tagMethodPool) false).graph.apply tagBlock
      (some tagBlockPool) false).result.map Applied.newNodeIds = .ok [⟨200⟩, ⟨201⟩] := by cbv
  obtain ⟨a₁, ha₁, hids₁⟩ := map_eq_ok hfirst
  obtain ⟨a₂, ha₂, hids₂⟩ := map_eq_ok hsecond
  have happlied : AppliedInTurn (built tagged) tagMethod tagMethodPool tagBlock tagBlockPool false
      a₁ a₂ _ := ⟨ha₁, ha₂, rfl⟩
  obtain ⟨b₂, b₁, h', hother⟩ := horder.1.mp ⟨a₁, a₂, _, happlied⟩
  exact ⟨a₁, a₂, _, b₁, b₂, h', happlied, hother, hids₁, hids₂,
    horder.2 a₁ a₂ _ b₁ b₂ h' happlied hother⟩

end Graph

end CodeGraph
