import CodeGraph.Proofs.DataFlow.StraightLine
import CodeGraph.Proofs.MethodBuilder.Agreement
import CodeGraph.Proofs.Pass.Completion
import Mathlib

/-!
# Straight-line code from end to end

A builder that is never told to jump appends each statement after the one before it.  `Threaded`
says so of a method under construction: its control flow is the row of its statements, and the last
of them leads to the exit or will do so when the method is finished.  A parameter keeps this, and a
statement makes the row one longer.

The method that comes out runs straight.  So its positions are in the order of the calls, one place
further on because of the entry, and what is defined and used there is what the calls say.  The
edges that the pass records are thus known from the calls (`Laid.records_iff`).
-/

namespace CodeGraph

open DataFlow (FlowGraph ReachingDefs)
open DataFlow.FlowGraph (RunsStraight)
open DataFlow.ReachingDefs (LastDefinition)

namespace Graph.Grows

variable {g h : Graph} {nodes : List Node} {links : List Link} {id : NodeId}

/-- Control flows along the edges that were there and along the new ones. -/
theorem flowsTo_iff (hg : g.WellFormed) (hgh : g.Grows h nodes links) {x y : NodeId} :
    h.FlowsTo x y ↔ g.FlowsTo x y ∨ ∃ l ∈ links, l.src = x ∧ l.dst = y ∧ l.edge.kind = .cfg := by
  simp only [FlowsTo, hgh.wellFormed.perm_allLinks.mem_iff, hg.perm_allLinks.mem_iff, hgh.links_eq,
    List.mem_append, List.mem_reverse, or_and_right, exists_or]
  exact or_comm

/-- A kind that no new node has is found where it was. -/
theorem any_kind?_of_forall {p : NodeKind → Bool} (hg : g.WellFormed) (hgh : g.Grows h nodes links)
    (hnew : ∀ n ∈ nodes, p n.kind = false) (hid : (h.kind? id).any p = true) :
    (g.kind? id).any p = true := by
  obtain ⟨n, hn⟩ := Option.isSome_iff_exists.mp (isSome_node?_of_kind? hid)
  rw [kind?, hn, Option.map_some, Option.any_some] at hid
  rcases (hgh.node?_iff hg).mp hn with ⟨hmem, _⟩ | hold
  · rw [hnew n hmem] at hid
    cases hid
  · rwa [kind?, hold, Option.map_some, Option.any_some]

end Graph.Grows

theorem Graph.WellFormed.methods_eq_singleton {g : Graph} {method : NodeId} (hg : g.WellFormed)
    (hmethods : ∀ id, (g.kind? id).any NodeKind.isMethod = true ↔ id = method) :
    g.methods = [method] := by
  rw [← List.perm_singleton, List.perm_ext_iff_of_nodup hg.nodup_methods (List.nodup_singleton _)]
  intro id
  rw [hg.mem_methods, hmethods, List.mem_singleton]

namespace MethodBuilder

variable {g h : Graph} {b : MethodBuilder} {s t : Script} {c : Step} {shape : Shape}
  {id : NodeId} {name : String} {body : List NodeId} {left : Bool}

/-! ## Statements in a row -/

/-- A method under construction whose statements follow one another.  It may have been left after
its last statement. -/
structure Threaded (b : MethodBuilder) (body : List NodeId) (left : Bool) : Prop where
  nodup : (b.method :: b.methodReturn :: body).Nodup
  cursor : (b.method :: body).getLast? = some b.cursor
  flowsTo_iff : ∀ x y, b.graph.FlowsTo x y ↔
    Adjacent (b.method :: body) x y ∨ left = true ∧ x = b.cursor ∧ y = b.methodReturn
  /-- Control leaves the last statement, or will do so. -/
  leaves : left = true ∨ b.fallsThrough = true ↔ body ≠ []
  isStatement : ∀ x ∈ body, (b.graph.kind? x).any NodeKind.isStatement = true
  returns : ∀ x ∈ body, ∀ code, b.graph.kind? x = some (.ret code) → left = true ∧ x = b.cursor

theorem Step.isStatement_of_shape? (hshape : c.shape? = some shape) :
    shape.kind.isStatement = true ∧ ∀ code, shape.kind = .ret code → shape.returns = true := by
  cases c with
  | ret var => cases var <;> cases hshape <;> exact ⟨rfl, fun _ _ => rfl⟩
  | assignment | call | control => cases hshape; exact ⟨rfl, fun _ hkind => by cases hkind⟩
  | _ => cases hshape

/-- Control flows from the cursor to a statement, and from there to the exit if it returns. -/
theorem exists_cfg_statementLinks {node x y : NodeId} {args : List Node} :
    (∃ l ∈ b.statementLinks shape node args, l.src = x ∧ l.dst = y ∧ l.edge.kind = .cfg) ↔
      b.cursor = x ∧ y = node ∨ shape.returns = true ∧ x = node ∧ y = b.methodReturn := by
  simp only [statementLinks, List.cons_append, List.mem_cons, List.mem_append, mem_argumentLinks]
  constructor
  · rintro ⟨l, rfl | rfl | ⟨arg, _, rfl | rfl⟩ | hret, rfl, rfl, hcfg⟩
    · cases hcfg
    · exact Or.inl ⟨rfl, rfl⟩
    · cases hcfg
    · cases hcfg
    · split at hret
      · next hreturns =>
        rw [List.mem_singleton.mp hret]
        exact Or.inr ⟨hreturns, rfl, rfl⟩
      · cases hret
  · rintro (⟨rfl, rfl⟩ | ⟨hreturns, rfl, rfl⟩)
    · exact ⟨_, Or.inr (Or.inl rfl), rfl, rfl, rfl⟩
    · refine ⟨.plain x b.methodReturn .cfg, Or.inr (Or.inr (Or.inr ?_)), rfl, rfl, rfl⟩
      rw [if_pos hreturns]
      exact List.mem_singleton_self _

namespace Threaded

theorem kind?_eq {nodes : List Node} {links : List Link} (ht : Threaded b body left)
    (hg : b.graph.WellFormed) (hgrows : b.graph.Grows h nodes links) {x : NodeId} (hx : x ∈ body) :
    h.kind? x = b.graph.kind? x :=
  hgrows.kind?_eq hg (Graph.isSome_node?_of_kind? (ht.isStatement x hx))

theorem parameter (hs : s.builder.Ready) (ht : Threaded s.builder body left)
    (hdoes : s.Does (.parameter name) t) :
    ∃ id, t.mades = s.mades ++ [.node id] ∧ t.builder.params = s.builder.params ++ [id] ∧
      Threaded t.builder body left := by
  cases hdoes with
  | statement hshape => cases hshape
  | parameter hgrows =>
    refine ⟨_, rfl, rfl, ht.nodup, ht.cursor, fun x y => ?_, ht.leaves, fun x hx => ?_,
      fun x hx code hkind => ?_⟩
    · refine (hgrows.flowsTo_iff hs.wellFormed).trans ((or_iff_left ?_).trans (ht.flowsTo_iff x y))
      simp [Link.plain]
    · exact (ht.kind?_eq hs.wellFormed hgrows hx).symm ▸ ht.isStatement x hx
    · exact ht.returns x hx code ((ht.kind?_eq hs.wellFormed hgrows hx).symm.trans hkind)

/-- A statement comes after the last one. -/
theorem append {node : NodeId} {args : List Node} (hb : b.Ready) (ht : Threaded b body false)
    (hshape : c.shape? = some shape)
    (hgrows : b.graph.Grows h (⟨node, shape.kind, {}⟩ :: args) (b.statementLinks shape node args)) :
    Threaded { b with graph := h, cursor := node, fallsThrough := !shape.returns } (body ++ [node])
      shape.returns := by
  have hg := hb.wellFormed
  obtain ⟨hstatement, hreturns⟩ := Step.isStatement_of_shape? hshape
  have hkind : h.kind? node = some shape.kind := hgrows.kind?_of_mem hg List.mem_cons_self
  have hnew : ∀ x, (b.graph.node? x).isSome → x ≠ node := by
    rintro x hx rfl
    rw [hgrows.node?_eq_none hg List.mem_cons_self] at hx
    cases hx
  have hfresh : node ∉ b.method :: b.methodReturn :: body := by
    simp only [List.mem_cons, not_or]
    exact ⟨(hnew _ hb.method).symm, (hnew _ hb.methodReturn).symm, fun hx =>
      hnew node (Graph.isSome_node?_of_kind? (ht.isStatement node hx)) rfl⟩
  exact {
    nodup := by
      dsimp only
      rw [← List.cons_append, ← List.cons_append]
      exact List.concat_eq_append ▸ ht.nodup.concat hfresh
    cursor := by
      dsimp only
      rw [← List.cons_append, List.getLast?_concat]
    flowsTo_iff := by
      intro x y
      dsimp only
      rw [hgrows.flowsTo_iff hg, ht.flowsTo_iff, exists_cfg_statementLinks, ← List.cons_append,
        adjacent_concat, ht.cursor]
      simp only [Bool.false_eq_true, false_and, or_false, Option.some.injEq, or_assoc]
    leaves := by
      cases shape.returns <;> simp
    isStatement := by
      intro x hx
      rcases List.mem_append.mp hx with hx | hx
      · exact (ht.kind?_eq hg hgrows hx).symm ▸ ht.isStatement x hx
      · dsimp only
        rw [List.mem_singleton.mp hx, hkind]
        exact hstatement
    returns := by
      intro x hx code hcode
      rcases List.mem_append.mp hx with hx | hx
      · have hold := ht.returns x hx code ((ht.kind?_eq hg hgrows hx).symm.trans hcode)
        exact absurd hold.1 Bool.false_ne_true
      · obtain rfl := List.mem_singleton.mp hx
        exact ⟨hreturns code (Option.some.inj (hkind.symm.trans hcode)), rfl⟩ }

theorem statement (hs : s.builder.Ready) (ht : Threaded s.builder body false)
    (hshape : c.shape? = some shape) (hdoes : s.Does c t) :
    ∃ id, t.mades = s.mades ++ [.node id] ∧ t.builder.params = s.builder.params ∧
      Threaded t.builder (body ++ [id]) shape.returns := by
  cases hdoes with
  | parameter => cases hshape
  | moveTo => cases hshape
  | link => cases hshape
  | statement hsame _ hgrows =>
    obtain rfl := Option.some.inj (hshape.symm.trans hsame)
    exact ⟨_, rfl, rfl, ht.append hs hshape hgrows⟩

theorem parameters {names : List String} (hs : s.builder.Ready)
    (ht : Threaded s.builder body left) (hall : s.DoesAll (names.map .parameter) t) :
    t.builder.Ready ∧ ∃ ids, ids.length = names.length ∧ t.mades = s.mades ++ ids.map .node ∧
      t.builder.params = s.builder.params ++ ids ∧ Threaded t.builder body left := by
  induction names generalizing s with
  | nil =>
    cases hall
    exact ⟨hs, [], rfl, (List.append_nil _).symm, (List.append_nil _).symm, ht⟩
  | cons name names ih =>
    cases hall with
    | @cons _ u _ _ _ hdoes hrest =>
      obtain ⟨id, hmade, hparams, hu⟩ := ht.parameter hs hdoes
      obtain ⟨hready, ids, hlength, hmades, hmore, hthreaded⟩ := ih (hdoes.ready hs) hu hrest
      refine ⟨hready, id :: ids, by rw [List.length_cons, List.length_cons, hlength], ?_, ?_,
        hthreaded⟩
      · rw [hmades, hmade, List.append_assoc]
        rfl
      · rw [hmore, hparams, List.append_assoc]
        rfl

theorem statements {calls : List Step} (hs : s.builder.Ready) (ht : Threaded s.builder body false)
    (hcalls : ∀ c ∈ calls, ∃ shape, c.shape? = some shape ∧ shape.returns = false)
    (hall : s.DoesAll calls t) :
    t.builder.Ready ∧ ∃ ids, ids.length = calls.length ∧ t.mades = s.mades ++ ids.map .node ∧
      t.builder.params = s.builder.params ∧ Threaded t.builder (body ++ ids) false := by
  induction calls generalizing s body with
  | nil =>
    cases hall
    exact ⟨hs, [], rfl, (List.append_nil _).symm, rfl, (List.append_nil body).symm ▸ ht⟩
  | cons c calls ih =>
    obtain ⟨⟨shape, hshape, hreturns⟩, hmore⟩ := List.forall_mem_cons.mp hcalls
    cases hall with
    | @cons _ u _ _ _ hdoes hrest =>
      obtain ⟨id, hmade, hparams, hu⟩ := ht.statement hs hshape hdoes
      rw [hreturns] at hu
      obtain ⟨hready, ids, hlength, hmades, hsame, hthreaded⟩ :=
        ih (hdoes.ready hs) hu hmore hrest
      refine ⟨hready, id :: ids, by rw [List.length_cons, List.length_cons, hlength], ?_,
        hsame.trans hparams, ?_⟩
      · rw [hmades, hmade, List.append_assoc]
        rfl
      · rwa [List.append_assoc] at hthreaded

/-- When the method is finished, its last statement leads to the exit. -/
theorem flowsTo_iff_of_finish (ht : Threaded b body left) (hg : b.graph.WellFormed)
    (hgrows : b.graph.Grows h []
      (if b.fallsThrough then [.plain b.cursor b.methodReturn .cfg] else [])) (x y : NodeId) :
    h.FlowsTo x y ↔ body ≠ [] ∧ Adjacent (FlowGraph.line b.method b.methodReturn body) x y := by
  have hlast : (∃ l ∈ (if b.fallsThrough then [Link.plain b.cursor b.methodReturn .cfg] else []),
      l.src = x ∧ l.dst = y ∧ l.edge.kind = .cfg) ↔
      b.fallsThrough = true ∧ x = b.cursor ∧ y = b.methodReturn := by
    cases b.fallsThrough <;> simp [Link.plain, eq_comm]
  have hinner : Adjacent (b.method :: body) x y → left = true ∨ b.fallsThrough = true := by
    rintro ⟨k, _, hy⟩
    refine ht.leaves.mpr ?_
    rintro rfl
    cases hy
  rw [hgrows.flowsTo_iff hg, ht.flowsTo_iff, hlast, FlowGraph.line, ← List.cons_append,
    adjacent_concat, ht.cursor, ← ht.leaves, Option.some.injEq, eq_comm (a := b.cursor), or_assoc,
    ← or_and_right, and_or_left, and_iff_right_of_imp hinner]

end Threaded

theorem Begun.threaded (hb : Begun g name b) (hg : g.WellFormed) (hroom : 3 ≤ g.supply.length)
    (hnone : ∀ x y, ¬ g.FlowsTo x y) : Threaded b [] false := by
  obtain ⟨method, block, exit, h, hnew, hgrows⟩ := exists_new hg hroom name
  rw [hb.new_eq] at hnew
  cases hnew
  have hkind := fun n hn => hgrows.kind?_of_mem hg (n := n) hn
  simp only [List.forall_mem_cons] at hkind
  obtain ⟨hmethod, _, hexit, _⟩ := hkind
  have hne : method ≠ exit := by
    rintro rfl
    rw [hmethod] at hexit
    cases hexit
  have halone : ∀ x y, ¬ Adjacent [method] x y := by
    rintro x y ⟨k, _, hy⟩
    cases hy
  exact {
    nodup := by simpa using hne
    cursor := rfl
    flowsTo_iff := by
      intro x y
      dsimp only
      rw [hgrows.flowsTo_iff hg]
      simp [hnone, halone, Link.plain]
    leaves := by simp
    isStatement := fun x hx => absurd hx List.not_mem_nil
    returns := fun x hx => absurd hx List.not_mem_nil }

/-! ## The only method -/

theorem Step.isMethod_of_shape? (hshape : c.shape? = some shape) :
    ∀ kind ∈ shape.kind :: shape.arguments, kind.isMethod = false := by
  have hidentifiers : ∀ i names, ∀ kind ∈ identifiersFrom i names, kind.isMethod = false := by
    intro i names kind hkind
    obtain ⟨name, j, rfl, _⟩ := mem_identifiersFrom hkind
    rfl
  rw [List.forall_mem_cons]
  cases c with
  | assignment target sources =>
    cases hshape
    refine ⟨rfl, List.forall_mem_cons.mpr ⟨rfl, ?_⟩⟩
    split
    · exact List.forall_mem_singleton.mpr rfl
    · exact hidentifiers 2 sources
  | call name args =>
    cases hshape
    exact ⟨rfl, hidentifiers 1 args⟩
  | control code =>
    cases hshape
    exact ⟨rfl, fun _ hkind => absurd hkind List.not_mem_nil⟩
  | ret var =>
    cases var with
    | none => cases hshape; exact ⟨rfl, fun _ hkind => absurd hkind List.not_mem_nil⟩
    | some var => cases hshape; exact ⟨rfl, List.forall_mem_singleton.mpr rfl⟩
  | _ => cases hshape

/-- No call makes a method. -/
theorem Script.Does.isMethod (hs : s.builder.Ready) (hdoes : s.Does c t)
    (hid : (t.builder.graph.kind? id).any NodeKind.isMethod = true) :
    (s.builder.graph.kind? id).any NodeKind.isMethod = true := by
  cases hdoes with
  | parameter hgrows =>
    exact hgrows.any_kind?_of_forall hs.wellFormed (List.forall_mem_singleton.mpr rfl) hid
  | statement hshape hargs hgrows =>
    have hkinds := List.forall_mem_cons.mp (Step.isMethod_of_shape? hshape)
    refine hgrows.any_kind?_of_forall hs.wellFormed (List.forall_mem_cons.mpr ⟨hkinds.1, ?_⟩) hid
    intro n hn
    exact hkinds.2 n.kind (hargs ▸ List.mem_map_of_mem hn)
  | moveTo => exact hid
  | link _ _ hgrows =>
    exact hgrows.any_kind?_of_forall hs.wellFormed (fun _ hn => absurd hn List.not_mem_nil) hid

theorem Script.DoesAll.isMethod {calls : List Step} (hall : s.DoesAll calls t)
    (hs : s.builder.Ready)
    (hid : (t.builder.graph.kind? id).any NodeKind.isMethod = true) :
    (s.builder.graph.kind? id).any NodeKind.isMethod = true := by
  induction hall with
  | nil => exact hid
  | cons hdoes _ ih => exact hdoes.isMethod hs (ih (hdoes.ready hs) hid)

theorem Script.DoesAll.method_eq {calls : List Step} (hall : s.DoesAll calls t) :
    t.builder.method = s.builder.method := by
  induction hall with
  | nil => rfl
  | cons hdoes _ ih => exact ih.trans hdoes.builder_eq.1

theorem Begun.eq_method (hb : Begun g name b) (hg : g.WellFormed) (hroom : 3 ≤ g.supply.length)
    (hnone : ∀ id, (g.kind? id).any NodeKind.isMethod = false)
    (hid : (b.graph.kind? id).any NodeKind.isMethod = true) : id = b.method := by
  obtain ⟨method, block, exit, h, hnew, hgrows⟩ := exists_new hg hroom name
  rw [hb.new_eq] at hnew
  cases hnew
  dsimp only at hid ⊢
  obtain ⟨n, hn⟩ := Option.isSome_iff_exists.mp (Graph.isSome_node?_of_kind? hid)
  rcases (hgrows.node?_iff hg).mp hn with ⟨hmem, rfl⟩ | hold
  · rw [hgrows.kind?_of_mem hg hmem, Option.any_some] at hid
    simp only [List.mem_cons, List.not_mem_nil, or_false] at hmem
    rcases hmem with rfl | rfl | rfl
    · rfl
    · cases hid
    · cases hid
  · have hmethod := hnone id
    rw [← hgrows.kind?_eq hg (Option.isSome_of_eq_some hold), hid] at hmethod
    cases hmethod

/-! ## Straight-line code -/

/-- A statement that is followed by the next one. -/
inductive Statement where
  | assignment (target : String) (sources : List String)
  /-- A call that does not pass itself off as an assignment. -/
  | call (name : String) (args : List String) (plain : name ≠ NodeKind.assignment)

/-- The call to a builder that makes a statement. -/
def Statement.step : Statement → Step
  | .assignment target sources => .assignment target sources
  | .call name args _ => .call name args

/-- A method with parameters, statements, and possibly a return statement at its end. -/
structure StraightLine where
  params : List String
  body : List Statement
  ret : Option (Option String) := none

/-- The variable that a call to a builder defines. -/
def Step.defines? : Step → Option String
  | .parameter name => some name
  | .assignment target _ => some target
  | _ => none

/-- The variables that a call to a builder reads. -/
def Step.reads : Step → List String
  | .assignment _ sources => sources
  | .call _ args => args
  | .ret var => var.toList
  | _ => []

/-- The variable that one of some calls defines. -/
def definedBy (calls : List Step) (k : Nat) : Option String := calls[k]?.bind Step.defines?

/-- The variables that one of some calls reads. -/
def readBy (calls : List Step) (k : Nat) : List String := (calls[k]?.map Step.reads).getD []

theorem lt_of_definedBy {calls : List Step} {k : Nat} {v : String}
    (h : definedBy calls k = some v) : k < calls.length := by
  obtain ⟨c, hc, _⟩ := Option.bind_eq_some_iff.mp h
  exact (List.getElem?_eq_some_iff.mp hc).1

theorem lt_of_readBy {calls : List Step} {k : Nat} {v : String} (h : v ∈ readBy calls k) :
    k < calls.length := by
  by_contra hk
  rw [readBy, List.getElem?_eq_none (Nat.not_lt.mp hk)] at h
  cases h

namespace StraightLine

variable {p : StraightLine}

/-- The calls to a builder that make the statements. -/
def statements (p : StraightLine) : List Step :=
  p.body.map Statement.step ++ (p.ret.map Step.ret).toList

/-- The calls to a builder that make a method. -/
def calls (p : StraightLine) : List Step := p.params.map Step.parameter ++ p.statements

theorem mem_calls : c ∈ p.calls ↔ (∃ name ∈ p.params, c = .parameter name) ∨
    (∃ statement ∈ p.body, c = statement.step) ∨ ∃ var, p.ret = some var ∧ c = .ret var := by
  simp only [calls, statements, List.mem_append, List.mem_map, Option.mem_toList,
    Option.map_eq_some_iff, eq_comm (b := c)]

theorem places_of_mem_calls (hc : c ∈ p.calls) : c.places = [] := by
  rcases mem_calls.mp hc with ⟨name, _, rfl⟩ | ⟨statement, _, rfl⟩ | ⟨var, _, rfl⟩
  · rfl
  · cases statement <;> rfl
  · rfl

theorem reported?_of_mem_calls (hc : c ∈ p.calls) : c.reported? = some (c.defines?, c.reads) := by
  rcases mem_calls.mp hc with ⟨name, _, rfl⟩ | ⟨statement, _, rfl⟩ | ⟨var, _, rfl⟩
  · rfl
  · cases statement with
    | assignment target sources => rfl
    | call name args plain => exact if_neg plain
  · rfl

theorem shape?_of_mem_body {statement : Statement} :
    ∃ shape, statement.step.shape? = some shape ∧ shape.returns = false := by
  cases statement <;> exact ⟨_, rfl, rfl⟩

/-- The calls make parameters and then statements that follow one another. -/
theorem exists_threaded (hs : s.builder.Ready) (ht : Threaded s.builder [] false)
    (hall : s.DoesAll p.calls t) : ∃ params body left, params.length = p.params.length ∧
      t.mades = s.mades ++ (params ++ body).map .node ∧
      t.builder.params = s.builder.params ++ params ∧ Threaded t.builder body left := by
  obtain ⟨u, hparams, hrest⟩ := hall.of_append
  obtain ⟨w, hbody, hret⟩ := hrest.of_append
  obtain ⟨hu, params, hlength, hmades, hdeclared, htu⟩ := ht.parameters hs hparams
  have hshapes : ∀ c ∈ p.body.map Statement.step,
      ∃ shape, c.shape? = some shape ∧ shape.returns = false := by
    rw [List.forall_mem_map]
    exact fun _ _ => shape?_of_mem_body
  obtain ⟨hw, body, _, hmore, hsame, htw⟩ := htu.statements hu hshapes hbody
  rw [List.nil_append] at htw
  rw [hmades, List.append_assoc, ← List.map_append] at hmore
  cases hvar : p.ret with
  | none =>
    rw [hvar] at hret
    cases hret
    exact ⟨params, body, false, hlength, hmore, hsame.trans hdeclared, htw⟩
  | some var =>
    rw [hvar] at hret
    cases hret with
    | cons hdoes hnil =>
      cases hnil
      obtain ⟨shape, hshape⟩ : ∃ shape, (Step.ret var).shape? = some shape := by
        cases var <;> exact ⟨_, rfl⟩
      obtain ⟨id, hmade, hlast, htt⟩ := htw.statement hw hshape hdoes
      refine ⟨params, body ++ [id], shape.returns, hlength, ?_, (hlast.trans hsame).trans hdeclared,
        htt⟩
      rw [hmade, hmore, List.append_assoc, ← List.map_singleton, ← List.map_append,
        List.append_assoc]

end StraightLine

theorem targetsExist_of_places {calls : List Step} (h : ∀ c ∈ calls, c.places = []) :
    s.targetsExist calls = true := by
  induction calls generalizing s with
  | nil => rfl
  | cons c calls ih =>
    obtain ⟨hc, hcalls⟩ := List.forall_mem_cons.mp h
    rw [Script.targetsExist, hc, ih hcalls]
    rfl

/-- What was built runs straight. -/
theorem Threaded.runsStraight {calls : List Step} (ht : Threaded b body left)
    (hg : b.graph.WellFormed)
    (hgrows : b.graph.Grows h []
      (if b.fallsThrough then [.plain b.cursor b.methodReturn .cfg] else []))
    {mades : List Made} (hl : Laid name calls ⟨{ b with graph := h }, mades⟩)
    (hroom : b.params.length ≤ UInt32.size) : RunsStraight h b.method b.methodReturn body where
  isMethod := by
    rw [hl.method]
    rfl
  methodReturn? := hl.methodReturn?_eq
  nodup := by
    have hperm : (b.method :: b.methodReturn :: body).Perm
        (FlowGraph.line b.method b.methodReturn body) :=
      (List.perm_append_singleton _ _).symm.cons _
    exact hperm.nodup_iff.mp ht.nodup
  flowsTo_iff := ht.flowsTo_iff_of_finish hg hgrows
  nodup_params := hl.parametersOf_eq hroom ▸ hl.nodup_params hroom
  apart := by
    intro x hparam hmem
    rw [List.mem_cons, List.mem_append, List.mem_singleton] at hmem
    rcases hmem with rfl | hx | rfl
    · exact Graph.notMem_parametersOf (p := NodeKind.isMethod) (fun _ _ => rfl)
        (by rw [hl.method]; rfl) _ hparam
    · exact Graph.notMem_parametersOf (p := NodeKind.isStatement) (fun _ _ => rfl)
        ((ht.kind?_eq hg hgrows hx).symm ▸ ht.isStatement x hx) _ hparam
    · exact Graph.notMem_parametersOf (p := NodeKind.isMethodReturn) (fun _ _ => rfl)
        (by rw [hl.methodReturn]; rfl) _ hparam
  isStatement x hx := (ht.kind?_eq hg hgrows hx).symm ▸ ht.isStatement x hx
  returns x hx code hkind := by
    obtain ⟨_, rfl⟩ := ht.returns x hx code ((ht.kind?_eq hg hgrows hx).symm.trans hkind)
    have hcursor := ht.cursor
    cases body with
    | nil => cases hx
    | cons first body => rwa [List.getLast?_cons_cons] at hcursor

/-! ## From end to end -/

namespace Laid

variable {r : ReachingDefs} {calls : List Step} {ids : List NodeId} (hl : Laid name calls s)
  (hr : ReachingDefs.ofMethod s.builder.graph s.builder.method = .ok r)
  (hmades : s.mades = ids.map .node)
  (hnodes : r.graph.nodes.toList = s.builder.method :: (ids ++ [s.builder.methodReturn]))

include hl hmades in
theorem length_ids : ids.length = calls.length := by
  rw [← hl.length_mades, hmades, List.length_map]

include hnodes in
theorem node?_succ (k : Nat) :
    r.graph.node? (k + 1) = (ids ++ [s.builder.methodReturn])[k]? := by
  rw [FlowGraph.node?, ← Array.getElem?_toList, hnodes, List.getElem?_cons_succ]

include hl hr hnodes

/-- Nothing is defined or used at the entry. -/
theorem at_zero : r.definedAt? 0 = none ∧ r.usedAt 0 = [] := by
  have hnode : r.graph.node? 0 = some s.builder.method := by
    rw [FlowGraph.node?, ← Array.getElem?_toList, hnodes]
    rfl
  obtain ⟨hdefined, hused⟩ := ReachingDefs.at_eq_of_ofMethod hr 0
  rw [hdefined, hused, hnode]
  simp [ReachingDefs.definition?, ReachingDefs.usesOf, hl.method]

include hmades

/-- The analysis finds at the positions what the calls say, one place further on. -/
theorem at_succ (hreported : ∀ c ∈ calls, c.reported? = some (c.defines?, c.reads))
    (hroom : (calls.map Step.nodeCount).sum ≤ UInt32.size) (k : Nat) :
    r.definedAt? (k + 1) = definedBy calls k ∧ r.usedAt (k + 1) = readBy calls k := by
  have hnode := node?_succ hnodes k
  have hlength := hl.length_ids hmades
  cases hc : calls[k]? with
  | some c =>
    have hk : k < ids.length := hlength ▸ (List.getElem?_eq_some_iff.mp hc).1
    obtain ⟨id, hid, hat⟩ := hl.reports hr hc ((nodeCount_le_sum hc).trans hroom)
      (hreported c (List.mem_of_getElem? hc))
    have hthere : ids[k]? = some id := by
      rw [hmades, List.getElem?_map, Option.map_eq_some_iff] at hid
      obtain ⟨id', hid', heq⟩ := hid
      rw [hid', Made.node.inj heq]
    obtain ⟨hdefined, hused⟩ := hat (k + 1) (by
      rw [hnode, List.getElem?_append_left hk, hthere])
    rw [hdefined, hused, definedBy, readBy, hc]
    exact ⟨rfl, rfl⟩
  | none =>
    -- the exit, or no position at all
    have hk := List.getElem?_eq_none_iff.mp hc
    obtain ⟨hdefined, hused⟩ := ReachingDefs.at_eq_of_ofMethod hr (k + 1)
    rw [hnode, List.getElem?_append_right (hlength ▸ hk)] at hdefined hused
    rw [hdefined, hused, definedBy, readBy, hc]
    cases k - ids.length with
    | zero => simp [ReachingDefs.definition?, ReachingDefs.usesOf, hl.methodReturn]
    | succ n => simp

/-- The recorded edges lead from the last definition of a variable to a statement that reads it. -/
theorem records_iff (hg : s.builder.graph.WellFormed)
    (hs : RunsStraight s.builder.graph s.builder.method s.builder.methodReturn body)
    (hreported : ∀ c ∈ calls, c.reported? = some (c.defines?, c.reads))
    (hroom : (calls.map Step.nodeCount).sum ≤ UInt32.size) {l : Link} :
    r.Records l ↔ ∃ d u v, v ∈ readBy calls u ∧ LastDefinition (definedBy calls) v d u ∧
      ids[d]? = some l.src ∧ ids[u]? = some l.dst ∧
      l.edge = ⟨.reachingDef, Properties.empty.insert "variable" (.str v)⟩ := by
  obtain ⟨hdefined, hused⟩ := hl.at_zero hr hnodes
  have hat := hl.at_succ hr hmades hnodes hreported hroom
  have hflow : ∀ d u v, r.Flow (d + 1) (u + 1) v ↔
      v ∈ readBy calls u ∧ LastDefinition (definedBy calls) v d u := by
    intro d u v
    rw [ReachingDefs.flow_iff hg hs hr, ReachingDefs.lastDefinition_succ, (hat u).2,
      funext fun k => (hat k).1]
  have hnode : ∀ k < calls.length, r.graph.node? (k + 1) = ids[k]? := by
    intro k hk
    rw [node?_succ hnodes, List.getElem?_append_left (hl.length_ids hmades ▸ hk)]
  constructor
  · rintro ⟨d, u, v, hreaches, hsrc, hdst, hedge⟩
    -- the entry defines and uses nothing, so both positions are those of calls
    cases d with
    | zero => exact absurd (hdefined.symm.trans hreaches.defined) (Option.some_ne_none v).symm
    | succ d =>
      cases u with
      | zero => exact absurd (hused ▸ hreaches.used) List.not_mem_nil
      | succ u =>
        obtain ⟨hread, hlast⟩ := (hflow d u v).mp hreaches
        rw [hnode d (lt_of_definedBy hlast.defined)] at hsrc
        rw [hnode u (lt_of_readBy hread)] at hdst
        exact ⟨d, u, v, hread, hlast, hsrc, hdst, hedge⟩
  · rintro ⟨d, u, v, hread, hlast, hsrc, hdst, hedge⟩
    refine ⟨d + 1, u + 1, v, (hflow d u v).mpr ⟨hread, hlast⟩, ?_, ?_, hedge⟩
    · rw [hnode d (lt_of_definedBy hlast.defined), hsrc]
    · rw [hnode u (lt_of_readBy hread), hdst]

end Laid

theorem not_flowsTo_empty (x y : NodeId) : ¬ (∅ : Graph).FlowsTo x y := by
  have hlinks : (∅ : Graph).allLinks = [] := rfl
  rintro ⟨l, hl, _⟩
  rw [hlinks] at hl
  cases hl

/-- The calls of straight-line code that is built on an empty graph make a method that runs
straight, and no other. -/
theorem StraightLine.exists_runsStraight (p : StraightLine) (name : String)
    (hroom : 3 + (p.calls.map Step.nodeCount).sum ≤ UInt32.size) :
    ∃ s h params body, (build ∅ name p.calls).outcome = .ok s ∧
      s.builder.finish = (.ok ⟨s.builder.method, params, s.builder.methodReturn⟩, h) ∧
      s.mades = (params ++ body).map .node ∧ params.length = p.params.length ∧
      h.WellFormed ∧ Laid name p.calls ⟨{ s.builder with graph := h }, s.mades⟩ ∧
      h.parametersOf s.builder.method = params ∧
      RunsStraight h s.builder.method s.builder.methodReturn body ∧
      h.methods = [s.builder.method] := by
  have hg : (∅ : Graph).WellFormed := Graph.wellFormed_empty
  have hids : 3 + (p.calls.map Step.nodeCount).sum ≤ (∅ : Graph).supply.length :=
    hroom.trans (Nat.le_trans (by decide) Graph.le_length_supply_empty)
  have hnew : 3 ≤ (∅ : Graph).supply.length := (Nat.le_add_right 3 _).trans hids
  obtain ⟨b, hb⟩ := exists_begun hg hnew name
  have hthere : Script.targetsExist { builder := b } p.calls = true :=
    targetsExist_of_places fun c hc => p.places_of_mem_calls hc
  obtain ⟨s, hbuild, hall, hready, _, hlaid⟩ := hb.exists_laid hids hthere
  have hthreaded := hb.threaded hg hnew not_flowsTo_empty
  obtain ⟨params, body, left, hlength, hmades, hparams, ht⟩ :=
    exists_threaded (s := { builder := b }) hb.ready hthreaded hall
  obtain ⟨h, hfinish, hlast⟩ := exists_finish hready
  have hdone := hlaid.of_cfg hready.wellFormed hlast
    (by cases s.builder.fallsThrough <;> simp [Link.plain])
  have hnumbers : s.builder.params.length ≤ UInt32.size := by
    have hle := hlaid.length_params_le
    omega
  have hs := ht.runsStraight hready.wellFormed hlast hdone hnumbers
  have honly : ∀ id, (h.kind? id).any NodeKind.isMethod = true ↔ id = s.builder.method := by
    refine fun id => ⟨fun hid => ?_, fun hid => hid ▸ hs.isMethod⟩
    have hbefore := hlast.any_kind?_of_forall hready.wellFormed
      (fun _ hn => absurd hn List.not_mem_nil) hid
    rw [hall.method_eq]
    exact hb.eq_method hg hnew (fun _ => rfl) (hall.isMethod hb.ready hbefore)
  rw [← hb.laid.declared] at hparams
  have hsame : s.builder.params = params := hparams
  rw [hsame] at hfinish
  exact ⟨s, h, params, body, hbuild, hfinish, hmades, hlength, hlast.wellFormed, hdone,
    (hdone.parametersOf_eq hnumbers).trans hsame, hs, hlast.wellFormed.methods_eq_singleton honly⟩

/-- Straight-line code that is built on an empty graph.  The flow graph lists the method, the
parameters and statements in the order in which they were made, and the exit.  The pass comes to its
end and adds one edge for each statement and each variable that it reads, from the last parameter or
assignment before the statement that defines the variable, where there is one.  It adds no other
edge.  Slots are numbered by 32 bits. -/
theorem StraightLine.records_last_definitions (p : StraightLine) (name : String)
    (hroom : 3 + (p.calls.map Step.nodeCount).sum ≤ UInt32.size) :
    ∃ (s : Script) (handle : MethodHandle) (h : Graph) (ids : List NodeId) (fg : FlowGraph)
        (summary : Summary) (added : List Link),
      (build ∅ name p.calls).outcome = .ok s ∧ s.builder.finish = (.ok handle, h) ∧
      s.mades = ids.map .node ∧ ids.length = p.calls.length ∧
      handle.params = ids.take p.params.length ∧
      FlowGraph.ofMethod h handle.method = .ok fg ∧
      fg.nodes.toList = [handle.method] ++ ids ++ [handle.methodReturn] ∧ fg.nodes.toList.Nodup ∧
      (reachingDefsPass.runOn h).ending = .finished summary ∧
      h.Extends (reachingDefsPass.runOn h).graph added ∧ added.Nodup ∧
      ∀ l, l ∈ added ↔ ∃ d u v, v ∈ readBy p.calls u ∧ LastDefinition (definedBy p.calls) v d u ∧
        ids[d]? = some l.src ∧ ids[u]? = some l.dst ∧
        l.edge = ⟨.reachingDef, Properties.empty.insert "variable" (.str v)⟩ := by
  obtain ⟨s, h, params, body, hbuild, hfinish, hmades, hlength, hg, hlaid, hparams, hs, hmethods⟩ :=
    p.exists_runsStraight name hroom
  have hnumbers := hlaid.length_params_le
  obtain ⟨r, hr, _⟩ := hlaid.exists_ofMethod (by omega)
  obtain ⟨hfg, _, _⟩ := ReachingDefs.eq_of_ofMethod hr
  obtain ⟨l, hbuilt⟩ := FlowGraph.built_of_ofMethod hfg
  have hnodes : r.graph.nodes.toList =
      s.builder.method :: (params ++ body ++ [s.builder.methodReturn]) := by
    rw [hbuilt.nodes, hs.nodes_eq hbuilt hg, hparams, List.append_assoc]
  have hok : ∀ method ∈ h.methods, ∃ r, ReachingDefs.ofMethod h method = .ok r := by
    rw [hmethods]
    exact List.forall_mem_singleton.mpr ⟨r, hr⟩
  obtain ⟨summary, hfinished, hextends⟩ := runOn_reachingDefsPass hg hok
  rw [hmethods, List.flatMap_singleton] at hextends
  refine ⟨s, _, h, params ++ body, r.graph, summary, recordedLinks h s.builder.method, hbuild,
    hfinish, hmades, hlaid.length_ids hmades, ?_, hfg, hnodes, hbuilt.nodup_nodes, hfinished,
    hextends, nodup_recordedLinks _ _, fun l => ?_⟩
  · rw [← hlength, List.take_left]
  · rw [mem_recordedLinks hr]
    exact hlaid.records_iff hr hmades hnodes hg hs (fun c hc => p.reported?_of_mem_calls hc)
      (by omega)

/-- A parameter that hides another, an assignment that reads its own target, and a variable that
nothing defines. -/
def shadowing : StraightLine where
  params := ["a", "a"]
  body := [.assignment "x" ["a", "b"], .assignment "x" ["x"], .call "f" ["x", "a", "x"] (by decide)]
  ret := some (some "x")

/-- The second parameter reaches the first statement, and the first parameter reaches nothing. -/
theorem shadowing_records :
    3 + (shadowing.calls.map Step.nodeCount).sum ≤ UInt32.size ∧
    ∃ (s : Script) (handle : MethodHandle) (h : Graph) (ids : List NodeId) (added : List Link),
      (build ∅ "m" shadowing.calls).outcome = .ok s ∧ s.builder.finish = (.ok handle, h) ∧
      s.mades = ids.map .node ∧ h.Extends (reachingDefsPass.runOn h).graph added ∧
      (∃ l ∈ added, ids[1]? = some l.src ∧ ids[2]? = some l.dst ∧
        l.edge = ⟨.reachingDef, Properties.empty.insert "variable" (.str "a")⟩) ∧
      ∀ l ∈ added, ids[0]? ≠ some l.src := by
  have hroom : 3 + (shadowing.calls.map Step.nodeCount).sum ≤ UInt32.size := by decide
  obtain ⟨s, handle, h, ids, fg, _, added, hbuild, hfinish, hmades, hlength, _, _, hnodes, hnodup,
    _, hextends, _, hadded⟩ := shadowing.records_last_definitions "m" hroom
  have hids : ids.length = 6 := hlength
  refine ⟨hroom, s, handle, h, ids, added, hbuild, hfinish, hmades, hextends, ?_, ?_⟩
  · have hsrc := List.getElem?_eq_getElem (show 1 < ids.length by omega)
    have hdst := List.getElem?_eq_getElem (show 2 < ids.length by omega)
    have hlast : LastDefinition (definedBy shadowing.calls) "a" 1 2 :=
      ⟨by decide, rfl, fun m h1 h2 => by omega⟩
    exact ⟨⟨ids[1], ids[2], _⟩, (hadded _).mpr ⟨1, 2, "a", by decide, hlast, hsrc, hdst, rfl⟩, hsrc,
      hdst, rfl⟩
  · intro l hl hsrc
    obtain ⟨d, u, v, hread, hlast, hd, _⟩ := (hadded l).mp hl
    have hdistinct : ids.Nodup := by
      rw [hnodes] at hnodup
      exact hnodup.of_append_left.of_append_right
    obtain rfl : d = 0 :=
      (List.getElem?_inj (List.getElem?_eq_some_iff.mp hd).1 hdistinct).mp (hd.trans hsrc.symm)
    have hv : v = "a" := (Option.some.inj hlast.defined).symm
    have hu : u = 1 := by
      have hlt := hlast.lt
      by_contra hne
      exact hlast.last 1 (by decide) (by omega) (hv ▸ rfl)
    subst hu
    cases hread

end MethodBuilder

end CodeGraph
