import CodeGraph.Proofs.MethodBuilder.Agreement
import Mathlib

/-!
# Ways out of a method

Control flow comes to the exit of a method from its return statements, over links that are made on
purpose, and from the statement that is under the cursor when the method is finished.  The last
happens only if that statement falls through.

A builder does not keep this for each statement.  It keeps it for the statement that was appended
last, and a cursor that is moved takes the answer along to a statement that it may not fit.  So what
decides about the edge at the end is the statement appended last (`fallsOff`), whatever the cursor
is at (`position`).

`Tracks` says what a builder knows after some calls in terms of these calls.  One call keeps it, and
so do all.
-/

namespace CodeGraph.MethodBuilder

variable {s t : Script} {c : Step} {past calls : List Step} {made : Made} {mades more : List Made}
  {shape : Shape} {node src dst entry exit : NodeId} {place : Place} {g h : Graph}
  {nodes : List Node} {links : List Link} {name : String}

/-! ## What the calls say -/

/-- Whether the last statement that was appended is not a return. -/
def fallsOff (calls : List Step) : Bool :=
  (calls.filterMap Step.shape?).getLast?.any fun shape => !shape.returns

/-- The node that a call leaves under the cursor, if it appends a statement or moves the cursor. -/
def arrival? (mades : List Made) : Step × Made → Option NodeId
  | (.moveTo place, _) => (place.resolve mades).toOption
  | (c, .node id) => c.shape?.map fun _ => id
  | _ => none

/-- The statement under the cursor: the last one that was appended or moved to, and the entry before
there is one. -/
def position (calls : List Step) (mades : List Made) (entry : NodeId) : NodeId :=
  ((calls.zip mades).filterMap (arrival? mades)).getLast?.getD entry

/-- Whether a node is one of the return statements. -/
def IsReturn (calls : List Step) (mades : List Made) (node : NodeId) : Prop :=
  ∃ var, (Step.ret var, Made.node node) ∈ calls.zip mades

/-- Whether one of the links leads from a node to another. -/
def IsLinked (calls : List Step) (mades : List Made) (src dst : NodeId) : Prop :=
  ∃ a b, Step.link a b ∈ calls ∧ a.resolve mades = .ok src ∧ b.resolve mades = .ok dst

theorem fallsOff_concat (past : List Step) (c : Step) :
    fallsOff (past ++ [c]) = (c.shape?.map fun shape => !shape.returns).getD (fallsOff past) := by
  rw [fallsOff, List.filterMap_append]
  cases hc : c.shape? with
  | none => simp [hc, fallsOff]
  | some shape => simp [hc]

/-- A place that names a node keeps naming it. -/
theorem resolve_append (h : place.resolve mades = .ok node) :
    place.resolve (mades ++ more) = .ok node := by
  cases place with
  | known id => exact h
  | made step =>
    cases hstep : mades[step]? with
    | none =>
      simp only [Place.resolve, hstep] at h
      cases h
    | some made =>
      have hlt := (List.getElem?_eq_some_iff.mp hstep).1
      rw [← h, Place.resolve, Place.resolve, List.getElem?_append_left hlt]

/-- The places that the calls name are there. -/
def Resolved (past : List Step) (mades : List Made) : Prop :=
  ∀ c ∈ past, ∀ place ∈ c.places, ∃ id, place.resolve mades = .ok id

theorem Resolved.resolve_eq (hr : Resolved past mades) (hc : c ∈ past) (hp : place ∈ c.places) :
    place.resolve (mades ++ more) = place.resolve mades := by
  obtain ⟨id, hid⟩ := hr c hc place hp
  rw [hid, resolve_append hid]

theorem position_concat (hr : Resolved past mades) (hlength : mades.length = past.length)
    (entry : NodeId) : position (past ++ [c]) (mades ++ [made]) entry =
      (arrival? (mades ++ [made]) (c, made)).getD (position past mades entry) := by
  have hpast : (past.zip mades).filterMap (arrival? (mades ++ [made])) =
      (past.zip mades).filterMap (arrival? mades) := by
    refine List.filterMap_congr ?_
    rintro ⟨d, m⟩ hmem
    have hd := (List.of_mem_zip hmem).1
    cases d with
    | moveTo place => exact congrArg Except.toOption (hr.resolve_eq hd List.mem_cons_self)
    | _ => cases m <;> rfl
  rw [position, List.zip_append hlength.symm, List.filterMap_append, hpast]
  cases hc : arrival? (mades ++ [made]) (c, made) <;> simp [hc, position]

theorem isReturn_concat (hlength : mades.length = past.length) :
    IsReturn (past ++ [c]) (mades ++ [made]) node ↔
      IsReturn past mades node ∨ ∃ var, c = .ret var ∧ made = .node node := by
  simp only [IsReturn, List.zip_append hlength.symm, List.zip_cons_cons, List.zip_nil_right,
    List.mem_append, List.mem_singleton, Prod.mk.injEq, exists_or, eq_comm]

theorem isLinked_concat (hr : Resolved past mades) :
    IsLinked (past ++ [c]) (mades ++ [made]) src dst ↔
      IsLinked past mades src dst ∨ ∃ a b, c = .link a b ∧
        a.resolve (mades ++ [made]) = .ok src ∧ b.resolve (mades ++ [made]) = .ok dst := by
  simp only [IsLinked, List.mem_append, List.mem_singleton, or_and_right, exists_or,
    eq_comm (b := c)]
  refine or_congr_left (exists_congr fun a => exists_congr fun b => and_congr_right fun hmem => ?_)
  rw [hr.resolve_eq hmem List.mem_cons_self,
    hr.resolve_eq hmem (List.mem_cons_of_mem _ List.mem_cons_self)]

theorem arrival?_of_shape? (h : c.shape? = some shape) (mades : List Made) (node : NodeId) :
    arrival? mades (c, .node node) = some node := by
  cases c with
  | moveTo place => cases h
  | _ => simp only [arrival?, h, Option.map_some]

theorem returns_iff (h : c.shape? = some shape) : shape.returns = true ↔ ∃ var, c = .ret var := by
  cases c with
  | ret var => cases var <;> cases h <;> simp
  | assignment target sources => cases h; simp
  | call name args => cases h; simp
  | control code => cases h; simp
  | _ => cases h

/-! ## What the builder does -/

/-- What comes after a node is what did before, and what new control flow leads to. -/
theorem mem_successors_grows (hg : g.WellFormed) (hgh : g.Grows h nodes links) :
    dst ∈ h.successors src ↔ dst ∈ g.successors src ∨
      ∃ l ∈ links, l.src = src ∧ l.edge.kind = .cfg ∧ l.dst = dst := by
  rw [Graph.successors, hgh.outNeighbors_eq hg, List.mem_append, Graph.successors]
  simp only [List.mem_map, List.mem_filter, decide_eq_true_eq, and_assoc]

/-- Of the edges that come with a statement only that of a return leads to the exit. -/
theorem exists_statementLinks_iff {b : MethodBuilder} {args : List Node}
    (hne : node ≠ b.methodReturn) :
    (∃ l ∈ b.statementLinks shape node args,
      l.src = src ∧ l.edge.kind = .cfg ∧ l.dst = b.methodReturn) ↔
    shape.returns = true ∧ node = src := by
  simp only [statementLinks, List.cons_append, List.mem_cons, List.mem_append, mem_argumentLinks]
  constructor
  · rintro ⟨l, rfl | rfl | ⟨arg, _, rfl | rfl⟩ | hret, hsrc, hkind, hdst⟩
    · cases hkind
    · exact absurd hdst hne
    · cases hkind
    · cases hkind
    · split at hret
      next hreturns =>
        rw [List.mem_singleton.mp hret] at hsrc
        exact ⟨hreturns, hsrc⟩
      next => cases hret
  · rintro ⟨hreturns, rfl⟩
    refine ⟨.plain node b.methodReturn .cfg, Or.inr (Or.inr (Or.inr ?_)), rfl, rfl, rfl⟩
    rw [if_pos hreturns]
    exact List.mem_cons_self

/-- What a builder knows, in terms of the calls so far. -/
structure Tracks (past : List Step) (s : Script) : Prop where
  length_mades : s.mades.length = past.length
  resolved : Resolved past s.mades
  cursor : s.builder.cursor = position past s.mades s.builder.method
  /-- The flag is that of the last statement and not that of the one under the cursor. -/
  fallsThrough : s.builder.fallsThrough = fallsOff past
  exit : ∀ node, s.builder.methodReturn ∈ s.builder.graph.successors node ↔
    IsReturn past s.mades node ∨ IsLinked past s.mades node s.builder.methodReturn

namespace Tracks

theorem resolved_concat (ht : Tracks past s) (hc : ∀ place ∈ c.places, ∃ id,
    place.resolve s.mades = .ok id) : Resolved (past ++ [c]) (s.mades ++ [made]) := by
  intro d hd place hplace
  rcases List.mem_append.mp hd with hd | hd
  · obtain ⟨id, hid⟩ := ht.resolved d hd place hplace
    exact ⟨id, resolve_append hid⟩
  · rw [List.mem_singleton.mp hd] at hplace
    obtain ⟨id, hid⟩ := hc place hplace
    exact ⟨id, resolve_append hid⟩

theorem does (hs : s.builder.Ready) (hdoes : s.Does c t) (ht : Tracks past s) :
    Tracks (past ++ [c]) t := by
  have hg := hs.wellFormed
  have hlength : ∀ made, (s.mades ++ [made]).length = (past ++ [c]).length := by
    intro made
    rw [List.length_append, List.length_append, ht.length_mades]
    rfl
  cases hdoes with
  | parameter hgrows =>
    refine ⟨hlength _, ht.resolved_concat (by simp [Step.places]), ?_, ?_, fun node => ?_⟩
    · rw [Script.note, position_concat ht.resolved ht.length_mades, ht.cursor]
      rfl
    · rw [fallsOff_concat]
      exact ht.fallsThrough
    · rw [Script.note, mem_successors_grows hg hgrows, ht.exit, isReturn_concat ht.length_mades,
        isLinked_concat ht.resolved]
      simp [Link.plain]
  | @statement _ shape made args h hshape hargs hgrows =>
    have hne : made ≠ s.builder.methodReturn := by
      rintro rfl
      have hnew := hgrows.node?_eq_none hg List.mem_cons_self
      have hexit := hs.methodReturn
      rw [hnew] at hexit
      cases hexit
    have hplaces : c.places = [] := by
      cases c with
      | moveTo place => cases hshape
      | link a b => cases hshape
      | _ => rfl
    refine ⟨hlength _, ht.resolved_concat (by simp [hplaces]), ?_, ?_, fun node => ?_⟩
    · rw [Script.note, position_concat ht.resolved ht.length_mades, arrival?_of_shape? hshape]
      rfl
    · rw [fallsOff_concat, hshape]
      rfl
    · have hlink : ∀ a b, c ≠ .link a b := by
        rintro a b rfl
        cases hshape
      rw [Script.note, mem_successors_grows hg hgrows, ht.exit, exists_statementLinks_iff hne,
        returns_iff hshape, isReturn_concat ht.length_mades, isLinked_concat ht.resolved]
      simp only [hlink, false_and, exists_false, or_false, exists_and_right, Made.node.injEq]
      exact or_right_comm
  | @moveTo place target hresolve _ =>
    refine ⟨hlength _, ht.resolved_concat (by simp [Step.places, hresolve]), ?_, ?_, fun node => ?_⟩
    · rw [Script.note, position_concat ht.resolved ht.length_mades, arrival?,
        resolve_append hresolve]
      rfl
    · rw [fallsOff_concat]
      exact ht.fallsThrough
    · rw [Script.note, isReturn_concat ht.length_mades, isLinked_concat ht.resolved]
      simpa using ht.exit node
  | @link a b source target h hsource htarget hgrows =>
    refine ⟨hlength _, ht.resolved_concat (by simp [Step.places, hsource, htarget]), ?_, ?_,
      fun node => ?_⟩
    · rw [Script.note, position_concat ht.resolved ht.length_mades, ht.cursor]
      rfl
    · rw [fallsOff_concat]
      exact ht.fallsThrough
    · rw [Script.note, mem_successors_grows hg hgrows, ht.exit, isReturn_concat ht.length_mades,
        isLinked_concat ht.resolved]
      simp [Link.plain, resolve_append hsource, resolve_append htarget, or_assoc]

end Tracks

/-- Nothing comes to the exit of a method without statements. -/
theorem Begun.tracks {b : MethodBuilder} (hb : Begun g name b) (hg : g.WellFormed)
    (hroom : 3 ≤ g.supply.length) : Tracks [] { builder := b } := by
  obtain ⟨method, block, exit, h, hnew, hgrows⟩ := exists_new hg hroom name
  rw [hb.new_eq] at hnew
  cases hnew
  refine ⟨rfl, by simp [Resolved], rfl, rfl, fun node => ?_⟩
  have hfresh := hgrows.node?_eq_none hg
    (List.mem_cons_of_mem _ (List.mem_cons_of_mem _ List.mem_cons_self))
  have hold : exit ∉ g.successors node := by
    intro hmem
    rw [Graph.successors, hg.reflects.outNeighbors] at hmem
    obtain ⟨l, hl, rfl⟩ := List.mem_map.mp hmem
    have hlink : l ∈ g.links := List.mem_reverse.mp (List.mem_filter.mp hl).1
    have hend := (hg.ends_of_mem_links hlink).2
    rw [hfresh] at hend
    cases hend
  dsimp only
  rw [mem_successors_grows hg hgrows]
  simp [hold, Link.plain, IsReturn, IsLinked]

/-- Where the calls to a builder can be made, the exit of the finished method comes after exactly
these nodes: the statement under the cursor, provided that the statement appended last is not a
return, the return statements, and the nodes that are linked to it. -/
theorem exit_follows_iff (hg : g.WellFormed)
    (hids : 3 + (calls.map Step.nodeCount).sum ≤ g.supply.length)
    (hthere : targetsExist g name calls = true) :
    ∃ s handle h, (build g name calls).outcome = .ok s ∧ s.builder.finish = (.ok handle, h) ∧
      ∀ node, handle.methodReturn ∈ h.successors node ↔
        fallsOff calls = true ∧ node = position calls s.mades handle.method ∨
          IsReturn calls s.mades node ∨ IsLinked calls s.mades node handle.methodReturn := by
  obtain ⟨b, hb⟩ := exists_begun hg (by omega) name
  obtain ⟨s, hbuild, hall, hready, _, _⟩ :=
    hb.exists_laid hids (hb.targetsExist_eq calls ▸ hthere)
  obtain ⟨_, ht⟩ := hall.induction (P := Tracks) (fun hs hdoes ht => ht.does hs hdoes) hb.ready
    (hb.tracks hg (by omega))
  obtain ⟨h, hfinish, hlast⟩ := exists_finish hready
  refine ⟨s, _, h, hbuild, hfinish, fun node => ?_⟩
  have hcursor := ht.cursor
  rw [List.nil_append] at ht hcursor
  rw [mem_successors_grows hready.wellFormed hlast, ht.exit, ht.fallsThrough, or_comm]
  refine or_congr_left ?_
  cases fallsOff calls <;> simp [Link.plain, hcursor, eq_comm]

/-- What a script that was made has for a value. -/
theorem Building.eq_of_outcome {b : Building} {α : Type} {f : Script → α} {x : α}
    (hmade : b.outcome = .ok s) (hx : b.outcome.toOption.map f = some x) : f s = x := by
  rw [hmade] at hx
  exact Option.some.inj hx

/-- A condition with a call in one branch and a return in the other.  The cursor comes back to the
condition twice, the first time before a statement that falls through. -/
def bothBranches : List Step :=
  [.parameter "x", .control "if (x)", .ret (some "x"), .moveTo (.made 1), .call "f" ["x"],
    .moveTo (.made 1), .link (.made 1) (.known ⟨3⟩)]

/-- All three ways out are taken: the condition is under the cursor at the end, node 6 is a return
statement, and the condition is linked to the exit as well. -/
theorem bothBranches_exit :
    (∅ : Graph).WellFormed ∧
    3 + (bothBranches.map Step.nodeCount).sum ≤ (∅ : Graph).supply.length ∧
    targetsExist ∅ "f" bothBranches = true ∧
    ∃ s handle h, (build ∅ "f" bothBranches).outcome = .ok s ∧
      s.builder.finish = (.ok handle, h) ∧
      (∀ node, handle.methodReturn ∈ h.successors node ↔
        fallsOff bothBranches = true ∧ node = position bothBranches s.mades handle.method ∨
          IsReturn bothBranches s.mades node ∨
          IsLinked bothBranches s.mades node handle.methodReturn) ∧
      fallsOff bothBranches = true ∧ position bothBranches s.mades handle.method = ⟨5⟩ ∧
      IsReturn bothBranches s.mades ⟨6⟩ ∧
      IsLinked bothBranches s.mades ⟨5⟩ handle.methodReturn := by
  have hids : 3 + (bothBranches.map Step.nodeCount).sum ≤ (∅ : Graph).supply.length :=
    Nat.le_trans (by decide) Graph.le_length_supply_empty
  have hthere : targetsExist ∅ "f" bothBranches = true := by decide +kernel
  obtain ⟨s, handle, h, hbuild, hfinish, hexit⟩ :=
    exit_follows_iff Graph.wellFormed_empty hids hthere
  have hhandle : s.builder.finish.1 = .ok ⟨⟨1⟩, [⟨4⟩], ⟨3⟩⟩ :=
    Building.eq_of_outcome (f := fun s => s.builder.finish.1) hbuild (by decide +kernel)
  rw [hfinish] at hhandle
  cases hhandle
  have hcondition : s.mades[1]? = some (.node ⟨5⟩) :=
    Building.eq_of_outcome (f := fun s => s.mades[1]?) hbuild rfl
  have hreturn : s.mades[2]? = some (.node ⟨6⟩) :=
    Building.eq_of_outcome (f := fun s => s.mades[2]?) hbuild rfl
  have hposition : position bothBranches s.mades ⟨1⟩ = ⟨5⟩ :=
    Building.eq_of_outcome (f := fun s => position bothBranches s.mades ⟨1⟩) hbuild
      (by decide +kernel)
  refine ⟨Graph.wellFormed_empty, hids, hthere, s, _, h, hbuild, hfinish, hexit, rfl, hposition,
    ⟨some "x", List.mem_of_getElem? (List.getElem?_zip_eq_some.mpr ⟨rfl, hreturn⟩)⟩,
    ⟨.made 1, .known ⟨3⟩, by simp [bothBranches], ?_, rfl⟩⟩
  rw [Place.resolve, hcondition]

/-- A condition with a return in one branch, where the other branch is left to the end of the
method. -/
def guardClause : List Step := [.control "if (x)", .ret none, .moveTo (.made 0)]

/-- The cursor is at the condition, which is never connected to the exit. -/
theorem guardClause_stays_open : ∃ s handle h,
    (build ∅ "f" guardClause).outcome = .ok s ∧ s.builder.finish = (.ok handle, h) ∧
    s.mades[0]? = some (.node ⟨4⟩) ∧ position guardClause s.mades handle.method = ⟨4⟩ ∧
    h.successors ⟨4⟩ = [⟨5⟩] ∧ handle.methodReturn ∉ h.successors ⟨4⟩ := by
  have hok : (build ∅ "f" guardClause).outcome.toOption.isSome = true := by decide +kernel
  obtain ⟨s, hs⟩ := Option.isSome_iff_exists.mp hok
  have hbuild : (build ∅ "f" guardClause).outcome = .ok s := by
    generalize (build ∅ "f" guardClause).outcome = outcome at hs
    cases outcome with
    | error halt => cases hs
    | ok made => exact congrArg Except.ok (Option.some.inj hs)
  have hhandle : s.builder.finish.1 = .ok ⟨⟨1⟩, [], ⟨3⟩⟩ :=
    Building.eq_of_outcome (f := fun s => s.builder.finish.1) hbuild (by decide +kernel)
  have hsuccessors : s.builder.finish.2.successors ⟨4⟩ = [⟨5⟩] :=
    Building.eq_of_outcome (f := fun s => s.builder.finish.2.successors ⟨4⟩) hbuild
      (by decide +kernel)
  refine ⟨s, _, _, hbuild, Prod.ext hhandle rfl, ?_, ?_, hsuccessors, ?_⟩
  · exact Building.eq_of_outcome (f := fun s => s.mades[0]?) hbuild rfl
  · exact Building.eq_of_outcome (f := fun s => position guardClause s.mades ⟨1⟩) hbuild
      (by decide +kernel)
  · rw [hsuccessors]
    decide

end CodeGraph.MethodBuilder
