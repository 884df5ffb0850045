import CodeGraph.Proofs.Diff.Assignment
import CodeGraph.Proofs.Graph.Action
import CodeGraph.Proofs.Pass.Outcome
import Mathlib

/-!
# Ids of the allocator are fresh

The allocator of a graph looks for a free id from its cursor on and puts the cursor behind it.  The
cursor never goes back.  Ids come into a graph below it and above it, through pools, scripts and
overlays, and they leave it when nodes are removed or a script is taken back.  None of this moves
the cursor, so it is enough to know what one operation does to it (`Graph.perform_of_asks`,
`Graph.perform_of_not_asks`).

So the ids that the allocator hands out along a run increase, whatever else is done to the graph
(`Graph.handedOut_increasing`).  The numbers end with the last of 64 bits.  There the allocator
crashes instead of beginning again at zero, so the ids increase up to the end.
-/

namespace CodeGraph

namespace Operation

/-- Whether an operation asks the allocator for an id. -/
def asks : Operation → Bool
  | .allocate | .addNode _ _ => true
  | _ => false

/-- The id of an answer, which only an operation gives that asks the allocator. -/
def handed? : Except GraphError Answer → Option NodeId
  | .ok (.id id) => some id
  | _ => none

end Operation

namespace Graph

/-- The ids that the allocator hands out in a run of operations, in their order. -/
def handedOut (g : Graph) (ops : List Operation) : List NodeId :=
  (Operation.run perform g ops).1.filterMap Operation.handed?

variable {g : Graph} {op : Operation} {ops : List Operation} {id : NodeId}

/-! ## One operation -/

/-- An operation that asks the allocator gets the first of the ids that are left, and the cursor is
put behind it.  With none left it crashes. -/
theorem perform_of_asks (hop : op.asks = true) :
    (g.supply = [] ∧ g.perform op = .error .overflow) ∨
      ∃ id rest, g.supply = id :: rest ∧ g.perform op = .ok (.id id, g.after op) ∧
        (g.after op).nextId = id.value + 1 := by
  cases hsupply : g.supply with
  | nil =>
    have hcrash := allocate_of_supply_nil hsupply
    refine .inl ⟨rfl, ?_⟩
    cases op with
    | allocate => rw [perform, hcrash]; rfl
    | addNode kind properties => rw [perform, addNode, hcrash]; rfl
    | _ => cases hop
  | cons id rest =>
    have hid := allocate_of_supply hsupply
    refine .inr ⟨id, rest, rfl, ?_⟩
    cases op with
    | allocate => rw [after, perform, hid]; exact ⟨rfl, rfl⟩
    | addNode kind properties => rw [after, perform, addNode, hid]; exact ⟨rfl, rfl⟩
    | _ => cases hop

theorem handed?_of_ok {a : Answer} {h : Graph} (hop : op.asks = false)
    (hok : g.perform op = .ok (a, h)) : Operation.handed? (.ok a) = none ∧ h.nextId = g.nextId := by
  cases op with
  | allocate => cases hop
  | addNode kind properties => cases hop
  | insertNode node =>
    obtain ⟨h, hinsert, heq⟩ := map_eq_ok hok
    cases heq
    exact ⟨rfl, nextId_insertNode hinsert⟩
  | removeNode id =>
    obtain ⟨r, hremove, heq⟩ := map_eq_ok hok
    cases heq
    exact ⟨rfl, nextId_removeNode hremove⟩
  | setProperty id key value =>
    obtain ⟨r, hset, heq⟩ := map_eq_ok hok
    cases heq
    exact ⟨rfl, nextId_updateProperties hset⟩
  | appendProperty id key value =>
    obtain ⟨r, happend, heq⟩ := map_eq_ok hok
    cases heq
    exact ⟨rfl, nextId_updateProperties happend⟩
  | removeProperty id key =>
    obtain ⟨r, hremove, heq⟩ := map_eq_ok hok
    cases heq
    exact ⟨rfl, nextId_updateProperties hremove⟩
  | addEdge src dst edge =>
    obtain ⟨h, hadd, heq⟩ := map_eq_ok hok
    cases heq
    exact ⟨rfl, nextId_addEdge hadd⟩
  | removeEdge src dst edge =>
    obtain ⟨r, hremove, heq⟩ := map_eq_ok hok
    cases heq
    exact ⟨rfl, nextId_removeEdge hremove⟩

/-- An operation that does not ask the allocator is given no id and leaves the cursor where it
is. -/
theorem perform_of_not_asks (hop : op.asks = false) :
    Operation.handed? ((g.perform op).map Prod.fst) = none ∧ (g.after op).nextId = g.nextId := by
  cases hok : g.perform op with
  | error e => exact ⟨rfl, congrArg nextId (after_of_error hok)⟩
  | ok result =>
    rw [after_of_ok hok]
    exact handed?_of_ok hop hok

/-! ## Runs of operations -/

theorem handedOut_cons (g : Graph) (op : Operation) (ops : List Operation) :
    g.handedOut (op :: ops) =
      (Operation.handed? ((g.perform op).map Prod.fst)).toList ++ (g.after op).handedOut ops := by
  have hanswers : (Operation.run perform g (op :: ops)).1 =
      (g.perform op).map Prod.fst :: (Operation.run perform (g.after op) ops).1 := by
    rw [Operation.run, after]
    cases g.perform op <;> rfl
  rw [handedOut, hanswers, List.filterMap_cons]
  cases Operation.handed? ((g.perform op).map Prod.fst) <;> rfl

theorem handedOut_append (g : Graph) (xs ys : List Operation) :
    g.handedOut (xs ++ ys) = g.handedOut xs ++ (xs.foldl after g).handedOut ys := by
  induction xs generalizing g with
  | nil => rfl
  | cons x xs ih => rw [List.cons_append, handedOut_cons, handedOut_cons, ih, List.append_assoc,
      List.foldl_cons]

/-- The ids that the allocator hands out are from the cursor on and increase. -/
theorem handedOut_increasing (g : Graph) (ops : List Operation) :
    (∀ id ∈ g.handedOut ops, g.nextId.toNat ≤ id.value.toNat) ∧
      (g.handedOut ops).Pairwise fun x y => x.value < y.value := by
  induction ops generalizing g with
  | nil => exact ⟨List.forall_mem_nil _, .nil⟩
  | cons op ops ih =>
    obtain ⟨hlater, hincreasing⟩ := ih (g.after op)
    rw [handedOut_cons]
    cases hop : op.asks with
    | false =>
      obtain ⟨hnone, hnext⟩ := perform_of_not_asks (g := g) hop
      rw [hnext] at hlater
      rw [hnone]
      exact ⟨hlater, hincreasing⟩
    | true =>
      obtain ⟨_, hperform⟩ | ⟨id, rest, hsupply, hperform, hnext⟩ := perform_of_asks (g := g) hop
      · rw [after_of_error hperform] at hlater hincreasing ⊢
        rw [hperform]
        exact ⟨hlater, hincreasing⟩
      · obtain ⟨hle, hlt, _⟩ := mem_supply.mp (hsupply ▸ List.mem_cons_self : id ∈ g.supply)
        -- the cursor is behind this id, and all later ones are from there on
        rw [hnext, toNat_succ hlt] at hlater
        rw [hperform]
        refine ⟨List.forall_mem_cons.mpr ⟨hle, fun later hmem => ?_⟩,
          List.pairwise_cons.mpr ⟨fun later hmem => ?_, hincreasing⟩⟩
        · have := hlater later hmem
          omega
        · exact UInt64.lt_iff_toNat_lt.mpr (hlater later hmem)

/-- An id is not in the graph when it is handed out. -/
theorem contains_of_handed {h : Graph} (hok : g.perform op = .ok (.id id, h)) :
    g.contains id = false := by
  cases hop : op.asks with
  | false => cases (handed?_of_ok hop hok).1
  | true =>
    obtain ⟨_, hperform⟩ | ⟨first, rest, hsupply, hperform, _⟩ := perform_of_asks (g := g) hop
    · rw [hok] at hperform
      cases hperform
    · rw [hok] at hperform
      cases hperform
      exact (mem_supply.mp (hsupply ▸ List.mem_cons_self)).2.2

end Graph

/-! ## Scripts without a pool -/

namespace Progress

variable {p p' : Progress} {c : Change} {cs rest : List Change} {n : UInt32} {id : NodeId}

/-- A script that draws its ids from the allocator can create a node as long as an id is left. -/
theorem snd_createNode (hpool : p.pool = none) (key : NewKey) (kind : NodeKind)
    (properties : Properties) : (p.createNode key kind properties).2 =
      if p.graph.supply = [] then some .overflow else none := by
  cases hsupply : p.graph.supply with
  | nil =>
    have hdraw : p.draw = .error .overflow := by
      simp only [draw, hpool, Graph.allocate_of_supply_nil hsupply]
    rw [createNode, hdraw]
    rfl
  | cons id rest =>
    have hfree : p.graph.contains id = false :=
      (Graph.mem_supply.mp (hsupply ▸ List.mem_cons_self)).2.2
    have hdraw : p.draw =
        .ok (id, { p with graph := { p.graph with nextId := id.value + 1 } }) := by
      simp only [draw, hpool, Graph.allocate_of_supply hsupply]
    have hinsert : ({ p.graph with nextId := id.value + 1 } : Graph).insertNode
        ⟨id, kind, properties⟩ = .ok (Graph.place _ ⟨id, kind, properties⟩) :=
      if_neg (Bool.eq_false_iff.mp hfree)
    simp only [createNode, hdraw, hinsert, reduceCtorEq, if_false]
    rfl

theorem pool_apply_eq_none (hpool : p.pool = none) (c : Change) : (p.apply c).1.pool = none := by
  rw [← Option.not_isSome_iff_eq_none, isSome_pool_apply, hpool]
  exact Bool.false_ne_true

theorem pool_applyAll_eq_none (hpool : p.pool = none) (cs : List Change) :
    (p.applyAll cs).1.pool = none := by
  rw [← Option.not_isSome_iff_eq_none, isSome_pool_applyAll, hpool]
  exact Bool.false_ne_true

theorem created_commit (p : Progress) (r : Except GraphError (Graph × List Change)) :
    (p.commit r).1.created = p.created := by
  cases r <;> rfl

theorem handedOut_of_apply (hpool : p.pool = none) (hid : (p.apply c).1.created[n]? = some id) :
    p.created[n]? = some id ∨ id ∈ p.graph.handedOut (p.operations c) := by
  cases c with
  | createNode key kind properties =>
    rw [apply, createNode] at hid
    cases hdraw : p.draw with
    | error e =>
      rw [hdraw] at hid
      exact .inl hid
    | ok drawn =>
      obtain ⟨first, p₁⟩ := drawn
      obtain ⟨-, ⟨rest, hsupply⟩, rfl⟩ | ⟨pool, _, hsome, _⟩ := draw_cases hdraw
      · have hallocate := Graph.allocate_of_supply hsupply
        have hhanded :
            first ∈ p.graph.handedOut (p.operations (.createNode key kind properties)) := by
          simp only [operations, hpool, hallocate]
          rw [Graph.handedOut_cons, Graph.perform, hallocate]
          exact List.mem_append_left _ (List.mem_singleton_self _)
        simp only [hdraw] at hid
        split at hid
        · exact .inl hid
        · simp only [created_commit, Std.TreeMap.getElem?_insert] at hid
          split at hid
          · cases hid
            exact .inr hhanded
          · exact .inl hid
      · rw [hpool] at hsome
        cases hsome
  | createEdge | setProperty | addProperty | removeNode | removeEdge | restoreProperty
  | restoreNode => exact .inl (created_commit p _ ▸ hid)

/-- An id that a script has given to a node was handed out to it. -/
theorem handedOut_of_applyAll (hpool : p.pool = none)
    (hid : (p.applyAll cs).1.created[n]? = some id) :
    p.created[n]? = some id ∨ id ∈ p.graph.handedOut (p.operationsAll cs) := by
  induction cs generalizing p with
  | nil => exact .inl hid
  | cons c cs ih =>
    have hgraph := p.foldl_operations c
    have hpool₁ := pool_apply_eq_none hpool c
    have hstep : (p.apply c).1.created[n]? = some id → _ := handedOut_of_apply hpool
    rw [operationsAll, Graph.handedOut_append, List.mem_append, hgraph, ← or_assoc]
    rw [applyAll] at hid
    cases happly : p.apply c with
    | mk p₁ error =>
      rw [happly] at hid hpool₁ hstep
      cases error with
      | some e => exact .inl (hstep hid)
      | none => exact (ih hpool₁ hid).imp_left hstep

end Progress

/-! ## Runs of actions -/

namespace Graph

theorem mem_handedOut_of_apply {g : Graph} {d : Diff} {withInverse : Bool} {a : Applied}
    {key : NewKey} {id : NodeId} (h : (g.apply d none withInverse).result = .ok a)
    (hid : a.nodeId? key = some id) : id ∈ g.handedOut (g.scriptOperations d none) := by
  obtain ⟨p, hp, -, rfl⟩ := apply_eq_ok h
  have hcreated : (Progress.applyAll { graph := g, pool := none } d.changes).1.created[key.value]? =
      some id := by
    rw [hp]
    exact hid
  rw [scriptOperations, handedOut_append]
  obtain hstart | hscript := Progress.handedOut_of_applyAll rfl hcreated
  · rw [Std.TreeMap.getElem?_emptyc] at hstart
    cases hstart
  · exact List.mem_append_left _ hscript

/-- What is known of the ids that the allocator hands out along a run of actions. -/
structure HandsOutFresh (as : List Action) : Prop where
  /-- The operations behind the actions lead to the graph that the actions leave. -/
  built_trace : built (empty.trace as) = as.foldl act empty
  increasing : (empty.handedOut (empty.trace as)).Pairwise fun x y => x.value < y.value
  nodup : (empty.handedOut (empty.trace as)).Nodup
  /-- An id is not in the graph when it is handed out. -/
  absent : ∀ before op rest id h, empty.trace as = before ++ op :: rest →
    (built before).perform op = .ok (.id id, h) → (built before).contains id = false
  /-- A script that draws its ids from the allocator can create every node that it gets to, as long
  as the allocator has an id left.  Otherwise there is a crash. -/
  created : ∀ earlier later d withInverse, as = earlier ++ .apply d none withInverse :: later →
    ∀ cs key kind properties rest p, d.changes = cs ++ .createNode key kind properties :: rest →
      Progress.applyAll { graph := earlier.foldl act empty, pool := none } cs = (p, none) →
      (p.createNode key kind properties).2 =
        if p.graph.supply = [] then some .overflow else none
  /-- The ids that such a script gives to its nodes were handed out to it, and never before. -/
  assigned : ∀ earlier later d withInverse a, as = earlier ++ .apply d none withInverse :: later →
    ((earlier.foldl act empty).apply d none withInverse).result = .ok a →
    ∀ key id, a.nodeId? key = some id →
      id ∈ empty.handedOut (empty.trace as) ∧ id ∉ empty.handedOut (empty.trace earlier)

theorem handed_out_fresh (as : List Action) : HandsOutFresh as := by
  have hincreasing := (empty.handedOut_increasing (empty.trace as)).2
  have hnodup : (empty.handedOut (empty.trace as)).Nodup := by
    refine hincreasing.imp fun {x y} hlt heq => ?_
    exact UInt64.lt_irrefl _ (heq ▸ hlt)
  have hbuilt : ∀ ops, built ops = ops.foldl after empty := run_perform_snd empty
  have htrace : ∀ earlier a later, empty.trace (earlier ++ a :: later) = empty.trace earlier ++
      ((earlier.foldl act empty).operations a ++
        ((earlier.foldl act empty).act a).trace later) := fun earlier a later =>
    trace_append empty earlier (a :: later)
  refine ⟨?_, hincreasing, hnodup, ?_, ?_, ?_⟩
  · rw [hbuilt, foldl_trace]
  · intro before op rest id h _ hok
    rw [hbuilt] at hok ⊢
    exact contains_of_handed hok
  · intro earlier later d withInverse _ cs key kind properties rest p _ hp
    have hpool := Progress.pool_applyAll_eq_none
      (p := { graph := earlier.foldl act empty, pool := none }) rfl cs
    rw [hp] at hpool
    exact Progress.snd_createNode hpool key kind properties
  · rintro earlier later d withInverse a rfl hok key id hid
    rw [htrace, handedOut_append, foldl_trace] at hnodup ⊢
    obtain ⟨-, -, hdisjoint⟩ := List.nodup_append.mp hnodup
    rw [handedOut_append] at hdisjoint ⊢
    have hscript := mem_handedOut_of_apply hok hid
    exact ⟨List.mem_append_right _ (List.mem_append_left _ hscript), fun hearlier =>
      hdisjoint id hearlier id (List.mem_append_left _ hscript) rfl⟩

/-- Ids come and go: a node is put above the cursor, a node is removed, a script is taken back, and
ids come from a pool and from an overlay. -/
def comingAndGoing : List Action :=
  [.operation (.addNode (.method "f" "f") {}), .operation (.insertNode ⟨⟨3⟩, .block, {}⟩),
    .operation (.removeNode ⟨1⟩),
    .apply ⟨[.createNode ⟨0⟩ .block {}, .removeNode ⟨9⟩]⟩ none true,
    .apply ⟨[.createNode ⟨0⟩ .block {}]⟩ (some ⟨9, 13, 11, by decide, by decide⟩) false,
    .replay ⟨[.addNode ⟨4⟩ .block {}]⟩, .build "main" [.parameter "x", .ret none] true,
    .apply ⟨[.createNode ⟨0⟩ .block {}]⟩ none false, .operation .allocate]

example : empty.handedOut (empty.trace comingAndGoing) =
    [⟨1⟩, ⟨2⟩, ⟨5⟩, ⟨6⟩, ⟨7⟩, ⟨8⟩, ⟨9⟩, ⟨10⟩, ⟨12⟩] := by decide +kernel

end Graph

end CodeGraph
