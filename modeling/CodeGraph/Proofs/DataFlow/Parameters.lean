import CodeGraph.Proofs.DataFlow.FlowGraph
import CodeGraph.Proofs.Graph.Reload
import Mathlib

/-!
# Parameters of a flow graph

A flow graph has one place for every node of its method, but counts the parameters of the method
once for every syntax edge that leads to one.  A parameter with several such edges makes the chain
of parameters longer than there are parameters, and it goes on over the nodes of the body.  When
these do not suffice either, there is no flow graph.

`Graph.methodNodes` says which nodes have a place, and in which order.  Its length decides whether
there is a flow graph, and what is listed as parameters is a part of it (`ofMethod_outcome`).
-/

namespace CodeGraph

/-! ## Repetitions -/

theorem eraseDups_of_nodup {α : Type} [BEq α] [LawfulBEq α] {as : List α} (h : as.Nodup) :
    as.eraseDups = as := by
  induction as with
  | nil => rfl
  | cons a as ih =>
    obtain ⟨ha, has⟩ := List.nodup_cons.mp h
    have hkeep : (as.filter fun b => !b == a) = as := by
      refine List.filter_eq_self.mpr fun b hb => ?_
      have hne : b ≠ a := fun heq => ha (heq ▸ hb)
      simpa using hne
    rw [List.eraseDups_cons, hkeep, ih has]

theorem eraseDups_concat_of_notMem {α : Type} [BEq α] [LawfulBEq α] {as : List α} {a : α}
    (h : a ∉ as) : (as ++ [a]).eraseDups = as.eraseDups ++ [a] := by
  rw [List.eraseDups_append]
  simp [List.removeAll, h, List.eraseDups_cons]

/-- As many different elements as there are in a list are all of it. -/
theorem nodup_of_subset_of_length_le {α : Type} [DecidableEq α] {as bs : List α} (hbs : bs.Nodup)
    (hsub : bs ⊆ as) (hlength : as.length ≤ bs.length) : as.Nodup :=
  ((List.subperm_of_subset hbs hsub).perm_of_length_le hlength).nodup_iff.mp hbs

namespace Graph

variable {g : Graph} {method exit id : NodeId}

/-! ## Nodes of a method -/

theorem kind_of_parameter? {order : UInt32} {k : NodeId} (h : g.parameter? id = some (order, k)) :
    k = id ∧ ∃ name, g.kind? id = some (.parameter name order) := by
  unfold parameter? at h
  split at h
  · rename_i hkind
    cases h
    exact ⟨rfl, _, hkind⟩
  · cases h

/-- The parameters of a method are its children of that kind, one for every edge. -/
theorem perm_parametersOf (g : Graph) (method : NodeId) : (g.parametersOf method).Perm
    ((g.outNeighbors method .ast).filter fun id => (g.parameter? id).isSome) := by
  have hsorted := (List.mergeSort_perm ((g.outNeighbors method .ast).filterMap g.parameter?)
    fun a b => a.1 ≤ b.1).map Prod.snd
  have hchildren : ((g.outNeighbors method .ast).filterMap g.parameter?).map Prod.snd =
      (g.outNeighbors method .ast).filter fun id => (g.parameter? id).isSome := by
    rw [List.map_filterMap, ← List.filterMap_eq_filter]
    refine List.filterMap_congr fun id _ => ?_
    cases hid : g.parameter? id with
    | none => simp [Option.guard, hid]
    | some p => simp [Option.guard, hid, (kind_of_parameter? (k := p.2) hid).1]
  rw [← hchildren]
  exact hsorted

theorem mem_parametersOf : id ∈ g.parametersOf method ↔
    id ∈ g.outNeighbors method .ast ∧ (g.parameter? id).isSome = true := by
  rw [(g.perm_parametersOf method).mem_iff, List.mem_filter]

/-- Parameters are repeated where edges are. -/
theorem nodup_parametersOf_iff : (g.parametersOf method).Nodup ↔
    ∀ id, (g.parameter? id).isSome = true → (g.outNeighbors method .ast).count id ≤ 1 := by
  rw [(g.perm_parametersOf method).nodup_iff, List.nodup_iff_count_le_one]
  refine forall_congr' fun id => ?_
  by_cases hid : (g.parameter? id).isSome = true
  · have hcount := List.count_filter (p := fun id => (g.parameter? id).isSome)
      (l := g.outNeighbors method .ast) hid
    rw [hcount]
    exact ⟨fun h _ => h, fun h => h hid⟩
  · have hcount : ((g.outNeighbors method .ast).filter fun id => (g.parameter? id).isSome).count id
        = 0 := List.count_eq_zero.mpr fun hmem => hid (List.mem_filter.mp hmem).2
    rw [hcount]
    exact ⟨fun _ h => absurd h hid, fun _ => Nat.zero_le 1⟩

theorem notMem_parametersOf {p : NodeKind → Bool}
    (hp : ∀ name order, p (.parameter name order) = false) (hid : (g.kind? id).any p = true)
    (method : NodeId) : id ∉ g.parametersOf method := by
  intro hmem
  obtain ⟨parameter, hparameter⟩ := Option.isSome_iff_exists.mp (mem_parametersOf.mp hmem).2
  obtain ⟨_, name, hkind⟩ := kind_of_parameter? hparameter
  rw [hkind, Option.any_some, hp] at hid
  cases hid

theorem isMethodReturn_of_methodReturn? (he : g.methodReturn? method = some exit) :
    (g.kind? exit).any NodeKind.isMethodReturn = true :=
  List.find?_some (p := fun id => (g.kind? id).any NodeKind.isMethodReturn) he

theorem ne_of_methodReturn? (hm : (g.kind? method).any NodeKind.isMethod = true)
    (he : g.methodReturn? method = some exit) : exit ≠ method := by
  rintro rfl
  have hexit := isMethodReturn_of_methodReturn? he
  cases hkind : g.kind? exit with
  | none => simp [hkind] at hm
  | some kind =>
    rw [hkind] at hm hexit
    cases kind with
    | method => cases hexit
    | _ => cases hm

/-- The nodes of the body of a method, without its parameters. -/
def bodyNodes (g : Graph) (method exit : NodeId) : List NodeId :=
  ((g.reversePostOrder method).filter fun id =>
    id ≠ method && id ≠ exit && id ∉ g.parametersOf method).eraseDups

/-- The nodes of a method: the method, each parameter once, the rest of the body, the exit. -/
def methodNodes (g : Graph) (method exit : NodeId) : List NodeId :=
  method :: ((g.parametersOf method).eraseDups ++ g.bodyNodes method exit ++ [exit])

end Graph

namespace DataFlow.FlowGraph

/-! ## Outcomes -/

/-- A traversal succeeds if it does at every element. -/
theorem mapM_eq_ok {ε α β : Type} {f : α → Except ε β} :
    ∀ {as : List α}, (∀ a ∈ as, ∃ b, f a = .ok b) → ∃ bs, as.mapM f = .ok bs
  | [], _ => ⟨[], rfl⟩
  | a :: as, h => by
    obtain ⟨b, hb⟩ := h a List.mem_cons_self
    obtain ⟨bs, hbs⟩ := mapM_eq_ok fun a ha => h a (List.mem_cons_of_mem _ ha)
    rw [List.mapM_cons, hb, hbs]
    exact ⟨b :: bs, rfl⟩

namespace Layout

variable {l : Layout} {i : Nat} {node : NodeId} {g : Graph} {method exit : NodeId}

/-- Leaving out repetitions makes a difference only among the parameters and in the body. -/
theorem nodes_ofMethod (hm : (g.kind? method).any NodeKind.isMethod = true)
    (he : g.methodReturn? method = some exit) :
    (Layout.ofMethod g method exit).nodes = g.methodNodes method exit := by
  have hmethod := Graph.notMem_parametersOf (fun _ _ => rfl) hm method
  have hexit := Graph.notMem_parametersOf (fun _ _ => rfl)
    (Graph.isMethodReturn_of_methodReturn? he) method
  have hne := Graph.ne_of_methodReturn? hm he
  have hparams : (method :: g.parametersOf method).eraseDups =
      method :: (g.parametersOf method).eraseDups := by
    have hkeep : ((g.parametersOf method).filter fun id => !id == method) =
        g.parametersOf method := by
      refine List.filter_eq_self.mpr fun id hid => ?_
      have hother : id ≠ method := fun heq => hmethod (heq ▸ hid)
      simpa using hother
    rw [List.eraseDups_cons, hkeep]
  have hbody : (((g.reversePostOrder method).filter fun id => id ≠ method && id ≠ exit).removeAll
      (method :: g.parametersOf method)).eraseDups = g.bodyNodes method exit := by
    rw [List.removeAll, List.filter_filter, Graph.bodyNodes]
    congr 2
    funext id
    by_cases hid : id = method <;> simp [hid, Bool.and_comm]
  have hlast : exit ∉ method :: g.parametersOf method ++
      (g.reversePostOrder method).filter fun id => id ≠ method && id ≠ exit := by
    simp [hne, hexit]
  rw [ofMethod, eraseDups_concat_of_notMem hlast, List.eraseDups_append, hparams, hbody]
  rfl

theorem position_of_lt (h : i < l.nodes.length) : ∃ js, l.position i = .ok js := by
  rw [position, List.getElem?_eq_getElem h]
  exact ⟨_, rfl⟩

theorem position_of_le (h : l.nodes.length ≤ i) : l.position i = .error (.outOfRange i) := by
  rw [position, List.getElem?_eq_none h]

/-- Before the last parameter the next position follows. -/
theorem successors_of_lt (h : i < l.paramCount) : l.successors i node = l.position (i + 1) := by
  rw [successors]
  cases i with
  | zero => simp only [role_zero, if_pos h]
  | succ i =>
    rw [role_of_le (Nat.succ_ne_zero i) (Nat.le_of_lt h)]
    exact if_pos h

theorem successors_of_le (h : l.paramCount ≤ i) : ∃ js, l.successors i node = .ok js := by
  rw [successors]
  cases hrole : l.role i node with
  | entry =>
    have hi : i = 0 := by_contra fun hi => role_ne_entry hi hrole
    exact ⟨_, if_neg (by omega)⟩
  | param k =>
    have hle : i ≤ l.paramCount := by_contra fun hle => role_ne_param (Nat.not_le.mp hle) hrole
    have hi : i ≠ 0 := by
      rintro rfl
      rw [role_zero] at hrole
      cases hrole
    rw [role_of_le hi hle] at hrole
    cases hrole
    exact ⟨_, if_neg (by omega)⟩
  | ret | statement | exit | isolated => exact ⟨_, rfl⟩

theorem firstPredecessors_of_lt (h : l.paramCount < l.nodes.length) :
    ∃ js, l.firstPredecessors node = .ok js := by
  rw [firstPredecessors, List.getElem?_eq_getElem h]
  exact ⟨_, rfl⟩

theorem predecessors_of_lt (h : l.paramCount < l.nodes.length) (hi : i < l.nodes.length) :
    ∃ js, l.predecessors i node = .ok js := by
  rw [predecessors]
  cases l.role i node with
  | isolated => exact ⟨_, rfl⟩
  | param k =>
    cases k with
    | zero => exact ⟨_, rfl⟩
    | succ k => exact position_of_lt (by omega)
  | entry | ret | statement | exit =>
    by_cases hfirst : 0 < l.paramCount ∧ some node = l.first
    · simp only [if_pos hfirst]
      exact firstPredecessors_of_lt h
    · exact ⟨_, if_neg hfirst⟩

/-! ### Tables -/

theorem table_eq_ok {row : Nat → NodeId → Except FlowError (List Nat)}
    (h : ∀ i node, i < l.nodes.length → ∃ js, row i node = .ok js) :
    ∃ rows, l.table row = .ok rows := by
  refine mapM_eq_ok fun ni hni => h ni.2 ni.1 ?_
  exact List.snd_lt_of_mem_zipIdx hni

/-- If only the last row is missing, its error is that of the table. -/
theorem table_eq_error {row : Nat → NodeId → Except FlowError (List Nat)} {e : FlowError}
    {init : List NodeId} {last : NodeId} (hnodes : l.nodes = init ++ [last])
    (hinit : ∀ i node, i < init.length → ∃ js, row i node = .ok js)
    (hlast : row init.length last = .error e) : l.table row = .error e := by
  obtain ⟨rows, hrows⟩ : ∃ rows, (init.zipIdx.mapM fun ni => row ni.2 ni.1) = .ok rows :=
    mapM_eq_ok fun ni hni => hinit ni.2 ni.1 (List.snd_lt_of_mem_zipIdx hni)
  have hlength : [last].zipIdx (0 + init.length) = [(last, init.length)] := by simp
  rw [table, hnodes, List.zipIdx_append, hlength, List.mapM_append, hrows, List.mapM_cons]
  simp only [hlast]
  rfl

/-- More parameters than positions: the chain of parameters runs out at the last position. -/
theorem table_successors_eq_error (hne : l.nodes ≠ []) (h : l.nodes.length ≤ l.paramCount) :
    l.table l.successors = .error (.outOfRange l.nodes.length) := by
  obtain ⟨init, last, hnodes⟩ := (List.eq_nil_or_concat' l.nodes).resolve_left hne
  have hlength : l.nodes.length = init.length + 1 := by simp [hnodes]
  refine table_eq_error hnodes (fun i node hi => ?_) ?_
  · rw [successors_of_lt (by omega)]
    exact position_of_lt (by omega)
  · rw [successors_of_lt (by omega), position_of_le (by omega), hlength]

theorem table_successors_eq_ok (h : l.paramCount < l.nodes.length) :
    ∃ rows, l.table l.successors = .ok rows := by
  refine table_eq_ok fun i node _ => ?_
  rcases Nat.lt_or_ge i l.paramCount with hi | hi
  · rw [successors_of_lt hi]
    exact position_of_lt (by omega)
  · exact successors_of_le hi

theorem table_predecessors_eq_ok (h : l.paramCount < l.nodes.length) :
    ∃ rows, l.table l.predecessors = .ok rows :=
  table_eq_ok fun _ _ => predecessors_of_lt h

end Layout

section Outcome

variable {g : Graph} {method exit : NodeId} {fg : FlowGraph}

theorem ofMethod_of_isMethod_eq_false (hm : (g.kind? method).any NodeKind.isMethod = false) :
    ofMethod g method = .error (.notAMethod method) := by
  rw [ofMethod, hm]
  rfl

theorem ofMethod_of_methodReturn?_eq_none (hm : (g.kind? method).any NodeKind.isMethod = true)
    (he : g.methodReturn? method = none) :
    ofMethod g method = .error (.missingMethodReturn method) := by
  rw [ofMethod, hm, he]
  rfl

theorem ofMethod_of_length_le (hm : (g.kind? method).any NodeKind.isMethod = true)
    (he : g.methodReturn? method = some exit)
    (h : (g.methodNodes method exit).length ≤ (g.parametersOf method).length) :
    ofMethod g method = .error (.outOfRange (g.methodNodes method exit).length) := by
  have hnodes := Layout.nodes_ofMethod hm he
  have htable := Layout.table_successors_eq_error (l := Layout.ofMethod g method exit)
    (by simp [hnodes, Graph.methodNodes]) (by rw [hnodes]; exact h)
  rw [ofMethod, hm, he, ← hnodes]
  simp only [htable]
  rfl

theorem ofMethod_of_lt_length (hm : (g.kind? method).any NodeKind.isMethod = true)
    (he : g.methodReturn? method = some exit)
    (h : (g.parametersOf method).length < (g.methodNodes method exit).length) :
    ∃ fg, ofMethod g method = .ok fg ∧ fg.nodes.toList = g.methodNodes method exit ∧
      fg.paramCount = (g.parametersOf method).length := by
  have hnodes := Layout.nodes_ofMethod hm he
  have hlt : (Layout.ofMethod g method exit).paramCount <
      (Layout.ofMethod g method exit).nodes.length := by rw [hnodes]; exact h
  obtain ⟨succs, hsuccs⟩ := Layout.table_successors_eq_ok hlt
  obtain ⟨preds, hpreds⟩ := Layout.table_predecessors_eq_ok hlt
  rw [ofMethod, hm, he]
  simp only [hsuccs, hpreds]
  exact ⟨_, rfl, hnodes, rfl⟩

/-! ## What is listed as parameters -/

theorem length_eraseDups_le {α : Type} [DecidableEq α] (as : List α) :
    as.eraseDups.length ≤ as.length :=
  (List.subperm_of_subset (nodup_eraseDups as) fun _ => List.mem_eraseDups.mp).length_le

theorem length_lt_of_nodup (h : (g.parametersOf method).Nodup) :
    (g.parametersOf method).length < (g.methodNodes method exit).length := by
  rw [Graph.methodNodes, eraseDups_of_nodup h]
  simp only [List.length_cons, List.length_append]
  omega

section Listed

variable (hnodes : fg.nodes.toList = g.methodNodes method exit)
  (hcount : fg.paramCount = (g.parametersOf method).length)

include hnodes

/-- First the parameters, then the body, as far as the count goes. -/
theorem params_eq : fg.params =
    ((g.parametersOf method).eraseDups ++ (g.bodyNodes method exit ++ [exit])).take
      fg.paramCount := by
  rw [params, hnodes, Graph.methodNodes, List.drop_one, List.tail_cons, List.append_assoc]

theorem length_params (hlt : fg.paramCount < fg.size) : fg.params.length = fg.paramCount := by
  have hsize : fg.size = (g.methodNodes method exit).length := by
    rw [← hnodes, Array.length_toList]
    rfl
  rw [hsize, Graph.methodNodes, List.length_cons, List.append_assoc] at hlt
  rw [params_eq hnodes, List.length_take]
  omega

include hcount

theorem eraseDups_isPrefix_params : (g.parametersOf method).eraseDups <+: fg.params := by
  rw [params_eq hnodes, List.prefix_take_iff, hcount]
  exact ⟨List.prefix_append _ _, length_eraseDups_le _⟩

theorem params_of_nodup (h : (g.parametersOf method).Nodup) :
    fg.params = g.parametersOf method := by
  rw [params_eq hnodes, eraseDups_of_nodup h, hcount, List.take_left]

/-- Only parameters are listed if none is repeated, and then in no other case. -/
theorem params_subset_iff (hlt : fg.paramCount < fg.size) (hnodup : fg.nodes.toList.Nodup) :
    (∀ id ∈ fg.params, id ∈ g.parametersOf method) ↔ (g.parametersOf method).Nodup := by
  constructor
  · intro hsub
    have hparams : fg.params.Nodup := hnodup.sublist
      ((List.take_sublist _ _).trans (List.drop_sublist _ _))
    refine nodup_of_subset_of_length_le hparams hsub ?_
    rw [length_params hnodes hlt, hcount]
  · intro h id hid
    rwa [params_of_nodup hnodes hcount h] at hid

end Listed

end Outcome

/-- What comes of asking for the flow graph of a node.  It is refused because the node is no
method, because the method has no exit, or because the parameters, counted once for every syntax
edge, are as many as the nodes of the method or more.  In any other case there is a flow graph.
The positions of its parameters are in range, and the parameters are listed first, but nothing else
is listed exactly if none of them has two edges. -/
theorem ofMethod_outcome (g : Graph) (method : NodeId) :
    ((g.parametersOf method).Nodup ↔
      ∀ id, (g.parameter? id).isSome = true → (g.outNeighbors method .ast).count id ≤ 1) ∧
    (((g.kind? method).any NodeKind.isMethod = false ∧
        ofMethod g method = .error (.notAMethod method)) ∨
      ((g.kind? method).any NodeKind.isMethod = true ∧ g.methodReturn? method = none ∧
        ofMethod g method = .error (.missingMethodReturn method)) ∨
      ((g.kind? method).any NodeKind.isMethod = true ∧
        ∃ exit, g.methodReturn? method = some exit ∧
          (((g.methodNodes method exit).length ≤ (g.parametersOf method).length ∧
              ¬ (g.parametersOf method).Nodup ∧
              ofMethod g method = .error (.outOfRange (g.methodNodes method exit).length)) ∨
            ((g.parametersOf method).length < (g.methodNodes method exit).length ∧
              ∃ fg, ofMethod g method = .ok fg ∧
                fg.nodes.toList = g.methodNodes method exit ∧
                fg.paramCount < fg.size ∧ fg.params.length = fg.paramCount ∧
                (g.parametersOf method).eraseDups <+: fg.params ∧
                ((∀ id ∈ fg.params, id ∈ g.parametersOf method) ↔
                  (g.parametersOf method).Nodup) ∧
                ((g.parametersOf method).Nodup → fg.params = g.parametersOf method))))) := by
  refine ⟨Graph.nodup_parametersOf_iff, ?_⟩
  cases hm : (g.kind? method).any NodeKind.isMethod with
  | false => exact .inl ⟨rfl, ofMethod_of_isMethod_eq_false hm⟩
  | true =>
    refine .inr ?_
    cases he : g.methodReturn? method with
    | none => exact .inl ⟨rfl, rfl, ofMethod_of_methodReturn?_eq_none hm he⟩
    | some exit =>
      refine .inr ⟨rfl, exit, rfl, ?_⟩
      rcases Nat.lt_or_ge (g.parametersOf method).length (g.methodNodes method exit).length
        with hlt | hle
      · obtain ⟨fg, hok, hnodes, hcount⟩ := ofMethod_of_lt_length hm he hlt
        have hrange : fg.paramCount < fg.size := by
          rw [hcount, size, ← Array.length_toList, hnodes]
          exact hlt
        obtain ⟨l, hbuilt⟩ := built_of_ofMethod hok
        exact .inr ⟨hlt, fg, hok, hnodes, hrange, length_params hnodes hrange,
          eraseDups_isPrefix_params hnodes hcount,
          params_subset_iff hnodes hcount hrange hbuilt.nodup_nodes,
          params_of_nodup hnodes hcount⟩
      · exact .inl ⟨hle, fun hnodup => Nat.not_lt.mpr hle (length_lt_of_nodup hnodup),
          ofMethod_of_length_le hm he hle⟩

/-- A method with one parameter, to which some number of syntax edges lead. -/
def parallel (edges : Nat) : List Operation :=
  [.addNode (.method "f" "f") {}, .addNode .methodReturn {}, .addNode (.parameter "x" 0) {},
    .addEdge ⟨1⟩ ⟨2⟩ ⟨.ast, {}⟩] ++ List.replicate edges (.addEdge ⟨1⟩ ⟨3⟩ ⟨.ast, {}⟩)

/-- With two edges the exit is listed as a parameter, and with three there is no flow graph. -/
theorem parallel_outOfRange :
    (ofMethod (Graph.built (parallel 2)) ⟨1⟩).map params = .ok [⟨3⟩, ⟨2⟩] ∧
    (Graph.built (parallel 3)).parametersOf ⟨1⟩ = [⟨3⟩, ⟨3⟩, ⟨3⟩] ∧
    ofMethod (Graph.built (parallel 3)) ⟨1⟩ = .error (.outOfRange 3) := by
  refine ⟨?_, ?_, ?_⟩ <;> cbv

end DataFlow.FlowGraph

end CodeGraph
