import CodeGraph.Proofs.DataFlow.Visits
import CodeGraph.Proofs.Pass.DefUse
import Mathlib

/-!
# Methods without branches

In a method without branches control flows from the method to its first statement, from each
statement to the next, and from the last one to the exit (`RunsStraight`).  Then reverse post-order
is the order of the statements, for no other order of them follows every edge.

Every position before the exit has the position before it as its only predecessor.  So a path goes
through all positions between its ends, and the definition that reaches a use is the last one before
it.
-/

namespace CodeGraph

/-! ## Neighbours in a list -/

section Lists

variable {α : Type} {as bs : List α} {a b c : α} {R : α → α → Prop}

/-- The second element comes right after the first. -/
def Adjacent (as : List α) (a b : α) : Prop := ∃ k : Nat, as[k]? = some a ∧ as[k + 1]? = some b

theorem adjacent_concat :
    Adjacent (as ++ [c]) a b ↔ Adjacent as a b ∨ as.getLast? = some a ∧ b = c := by
  constructor
  · rintro ⟨k, ha, hb⟩
    have hk : k < as.length := by simpa using (List.getElem?_eq_some_iff.mp hb).1
    rw [List.getElem?_append_left hk] at ha
    rcases Nat.lt_or_ge (k + 1) as.length with hlt | hge
    · rw [List.getElem?_append_left hlt] at hb
      exact Or.inl ⟨k, ha, hb⟩
    · obtain rfl : k = as.length - 1 := by omega
      rw [show as.length - 1 + 1 = as.length by omega, List.getElem?_concat_length,
        Option.some.injEq] at hb
      rw [List.getLast?_eq_getElem?]
      exact Or.inr ⟨ha, hb.symm⟩
  · rintro (⟨k, ha, hb⟩ | ⟨ha, rfl⟩)
    · have hlt := (List.getElem?_eq_some_iff.mp hb).1
      exact ⟨k, by rw [List.getElem?_append_left (Nat.lt_of_succ_lt hlt), ha],
        by rw [List.getElem?_append_left hlt, hb]⟩
    · rw [List.getLast?_eq_getElem?] at ha
      have hlt := (List.getElem?_eq_some_iff.mp ha).1
      refine ⟨as.length - 1, by rw [List.getElem?_append_left hlt, ha], ?_⟩
      rw [show as.length - 1 + 1 = as.length by omega, List.getElem?_concat_length]

theorem exists_of_isChain_cons (h : (b :: bs).IsChain R) (ha : a ∈ bs) : ∃ c ∈ b :: bs, R c a := by
  induction bs generalizing b with
  | nil => cases ha
  | cons d bs ih =>
    rw [List.isChain_cons_cons] at h
    rcases List.mem_cons.mp ha with rfl | ha
    · exact ⟨b, List.mem_cons_self, h.1⟩
    · obtain ⟨c, hc, hca⟩ := ih h.2 ha
      exact ⟨c, List.mem_cons_of_mem b hc, hca⟩

/-- There is one order in which every step of a chain leads forward. -/
theorem eq_of_isChain (hirrefl : ∀ a, ¬ R a a) (hperm : as.Perm bs) (hchain : bs.IsChain R)
    (hback : as.Pairwise fun a b => ¬ R b a) : as = bs := by
  induction bs generalizing as with
  | nil => exact hperm.eq_nil
  | cons b bs ih =>
    cases as with
    | nil => exact absurd hperm.symm.eq_nil (List.cons_ne_nil b bs)
    | cons a as =>
      rw [List.pairwise_cons] at hback
      -- the first element has none before it, and all but `b` have one
      obtain rfl : a = b := by
        by_contra hne
        have ha : a ∈ bs := (List.mem_cons.mp (hperm.subset List.mem_cons_self)).resolve_left hne
        obtain ⟨c, hc, hca⟩ := exists_of_isChain_cons hchain ha
        rcases List.mem_cons.mp (hperm.symm.subset hc) with rfl | hc
        · exact hirrefl c hca
        · exact hback.1 c hc hca
      rw [ih hperm.cons_inv hchain.of_cons hback.2]

end Lists

namespace DataFlow

namespace FlowGraph

/-! ## The shape of a method -/

/-- A method, its statements and its exit. -/
abbrev line (method exit : NodeId) (body : List NodeId) : List NodeId := method :: (body ++ [exit])

/-- Control flows through the statements of a method in their order. -/
structure RunsStraight (g : Graph) (method exit : NodeId) (body : List NodeId) : Prop where
  isMethod : (g.kind? method).any NodeKind.isMethod = true
  methodReturn? : g.methodReturn? method = some exit
  nodup : (line method exit body).Nodup
  /-- Nothing leads to the exit where there is no statement. -/
  flowsTo_iff : ∀ x y, g.FlowsTo x y ↔ body ≠ [] ∧ Adjacent (line method exit body) x y
  nodup_params : (g.parametersOf method).Nodup
  apart : ∀ x ∈ g.parametersOf method, x ∉ line method exit body
  isStatement : ∀ x ∈ body, (g.kind? x).any NodeKind.isStatement = true
  /-- A return statement is the last one. -/
  returns : ∀ x ∈ body, ∀ code, g.kind? x = some (.ret code) → body.getLast? = some x

namespace RunsStraight

variable {g : Graph} {method exit x y : NodeId} {body : List NodeId} {i j k : Nat}

section Shape

variable (hs : RunsStraight g method exit body)

include hs

theorem eq_of_getElem? (hi : (line method exit body)[i]? = some x)
    (hj : (line method exit body)[j]? = some x) : i = j :=
  (List.getElem?_inj (List.getElem?_eq_some_iff.mp hi).1 hs.nodup).mp (hi.trans hj.symm)

/-- Control flows to the next place only. -/
theorem getElem?_of_flowsTo (hflow : g.FlowsTo x y) (hx : (line method exit body)[i]? = some x) :
    (line method exit body)[i + 1]? = some y := by
  obtain ⟨_, k, hk, hy⟩ := (hs.flowsTo_iff x y).mp hflow
  rwa [hs.eq_of_getElem? hx hk]

theorem mem_of_flowsTo (hflow : g.FlowsTo x y) :
    x ∈ line method exit body ∧ y ∈ line method exit body := by
  obtain ⟨_, k, hx, hy⟩ := (hs.flowsTo_iff x y).mp hflow
  exact ⟨List.mem_of_getElem? hx, List.mem_of_getElem? hy⟩

theorem lt_of_transGen (h : Relation.TransGen g.FlowsTo x y) : ∃ i j : Nat, i < j ∧
    (line method exit body)[i]? = some x ∧ (line method exit body)[j]? = some y := by
  induction h with
  | single hflow =>
    obtain ⟨_, k, hx, hy⟩ := (hs.flowsTo_iff _ _).mp hflow
    exact ⟨k, k + 1, Nat.lt_succ_self k, hx, hy⟩
  | tail _ hflow ih =>
    obtain ⟨i, j, hlt, hx, hy⟩ := ih
    exact ⟨i, j + 1, Nat.lt_succ_of_lt hlt, hx, hs.getElem?_of_flowsTo hflow hy⟩

theorem acyclic : ¬ Relation.TransGen g.FlowsTo x x := by
  intro h
  obtain ⟨i, j, hlt, hi, hj⟩ := hs.lt_of_transGen h
  exact hlt.ne (hs.eq_of_getElem? hi hj)

theorem flowsOneWay : FlowsOneWay g method exit where
  nodup_params := hs.nodup_params
  untouched x hx y := ⟨fun hflow => hs.apart x hx (hs.mem_of_flowsTo hflow).1,
    fun hflow => hs.apart x hx (hs.mem_of_flowsTo hflow).2⟩
  acyclic _ _ := hs.acyclic
  ends y hflow := by
    have hlast : (line method exit body)[body.length + 1]? = some exit := by simp
    have hnext := (List.getElem?_eq_some_iff.mp (hs.getElem?_of_flowsTo hflow hlast)).1
    simp at hnext

/-- Control reaches the statements, and the exit if there are any. -/
theorem reaches_iff : g.Reaches method x ↔ x = method ∨ body ≠ [] ∧ x ∈ body ++ [exit] := by
  constructor
  · intro hreach
    rcases Relation.ReflTransGen.cases_tail hreach with rfl | ⟨w, _, hflow⟩
    · exact Or.inl rfl
    · rw [or_iff_not_imp_left]
      intro hne
      have hmem := (hs.mem_of_flowsTo hflow).2
      exact ⟨((hs.flowsTo_iff w x).mp hflow).1, (List.mem_cons.mp hmem).resolve_left hne⟩
  · rintro (rfl | ⟨hbody, hx⟩)
    · exact .refl
    · have hplace : ∀ (k : Nat) z, (line method exit body)[k]? = some z → g.Reaches method z := by
        intro k
        induction k with
        | zero =>
          intro z hz
          cases hz
          exact .refl
        | succ k ih =>
          intro z hz
          have hk := Nat.lt_of_succ_lt (List.getElem?_eq_some_iff.mp hz).1
          have hbefore := List.getElem?_eq_getElem hk
          exact (ih _ hbefore).tail ((hs.flowsTo_iff _ z).mpr ⟨hbody, k, hbefore, hz⟩)
      obtain ⟨k, hk⟩ := List.mem_iff_getElem?.mp (List.mem_cons_of_mem method hx)
      exact hplace k x hk

/-- A return statement is a statement of the method. -/
theorem mem_body_of_ret {code : String} (hreach : g.Reaches method x)
    (hkind : g.kind? x = some (.ret code)) : x ∈ body := by
  rcases hs.reaches_iff.mp hreach with rfl | ⟨_, hmem⟩
  · have hmethod := hs.isMethod
    rw [hkind] at hmethod
    cases hmethod
  · rcases List.mem_append.mp hmem with hbody | hlast
    · exact hbody
    · rw [List.mem_singleton.mp hlast, Graph.kind?_of_methodReturn? hs.methodReturn?] at hkind
      cases hkind

theorem wellShaped : WellShaped g method exit where
  nodup_params := hs.nodup_params
  untouched := hs.flowsOneWay.untouched
  isStatement x hreach hmethod hexit := by
    obtain ⟨_, hmem⟩ := (hs.reaches_iff.mp hreach).resolve_left hmethod
    rcases List.mem_append.mp hmem with hbody | hlast
    · exact hs.isStatement x hbody
    · exact absurd (List.mem_singleton.mp hlast) hexit
  returns x code hreach hkind := by
    have hbody := hs.mem_body_of_ret hreach hkind
    have hpos := List.length_pos_of_mem hbody
    have hx : (line method exit body)[body.length]? = some x := by
      have hlast := hs.returns x hbody code hkind
      rw [List.getLast?_eq_getElem?] at hlast
      rw [show body.length = body.length - 1 + 1 by omega, List.getElem?_cons_succ,
        List.getElem?_append_left (by omega), hlast]
    have hexit : (line method exit body)[body.length + 1]? = some exit := by simp
    refine ⟨⟨exit, (hs.flowsTo_iff x exit).mpr ⟨List.ne_nil_of_mem hbody, _, hx, hexit⟩⟩, ?_⟩
    intro y hflow
    exact Option.some.inj ((hs.getElem?_of_flowsTo hflow hx).symm.trans hexit)
  single _ := by
    have hnodup := hs.nodup
    cases body with
    | nil =>
      refine ⟨method, by simpa using hnodup, fun y hflow => ?_⟩
      exact absurd rfl ((hs.flowsTo_iff method y).mp hflow).1
    | cons first body =>
      refine ⟨first, fun heq => by simp [heq] at hnodup, fun y hflow => ?_⟩
      exact (Option.some.inj (hs.getElem?_of_flowsTo hflow (i := 0) rfl)).symm

theorem isChain_body : body.IsChain g.FlowsTo := by
  rw [List.isChain_iff_getElem]
  intro k hk
  refine (hs.flowsTo_iff _ _).mpr ⟨List.ne_nil_of_length_pos (by omega), k + 1, ?_, ?_⟩
  · rw [List.getElem?_cons_succ, List.getElem?_append_left (by omega), List.getElem?_eq_getElem]
  · rw [List.getElem?_cons_succ, List.getElem?_append_left hk, List.getElem?_eq_getElem]

end Shape

/-! ## Positions -/

section Positions

variable {fg : FlowGraph} {l : Layout} (hs : RunsStraight g method exit body)
  (h : Built g method fg l) (hg : g.WellFormed)

include hs h

theorem exit_eq : l.exit = exit :=
  Option.some.inj (h.exit_eq.symm.trans hs.methodReturn?)

include hg

/-- The walk finds the statements. -/
theorem mem_filter_reversePostOrder :
    x ∈ ((g.reversePostOrder method).filter fun id =>
      id ≠ method ∧ id ≠ exit ∧ id ∉ g.parametersOf method) ↔ x ∈ body := by
  obtain ⟨slot, hslot⟩ := Graph.exists_slot_of_kind? h.isMethod
  simp only [List.mem_filter, hg.mem_reversePostOrder_iff hslot, hs.reaches_iff, List.mem_append,
    List.mem_singleton, decide_eq_true_eq]
  constructor
  · rintro ⟨rfl | ⟨_, hbody | rfl⟩, hmethod, hexit, _⟩
    · exact absurd rfl hmethod
    · exact hbody
    · exact absurd rfl hexit
  · intro hbody
    have hnodup := hs.nodup
    rw [line, List.nodup_cons, List.mem_append, List.nodup_append] at hnodup
    refine ⟨Or.inr ⟨List.ne_nil_of_mem hbody, Or.inl hbody⟩, ?_, ?_, ?_⟩
    · rintro rfl
      exact hnodup.1 (Or.inl hbody)
    · exact hnodup.2.2.2 x hbody exit (List.mem_singleton_self exit)
    · exact fun hparam => hs.apart x hparam
        (List.mem_cons_of_mem _ (List.mem_append_left _ hbody))

/-- The positions are in the order of the program. -/
theorem nodes_eq : l.nodes = method :: (g.parametersOf method ++ (body ++ [exit])) := by
  have hexit := hs.exit_eq h
  have hpairwise := h.pairwise_nodes hg (hexit.symm ▸ hs.flowsOneWay)
  have hnodup := h.nodup_layout
  rw [h.nodes_eq hg hs.nodup_params, hexit, List.append_assoc] at hpairwise hnodup ⊢
  have hsublist : ∀ walked : List NodeId,
      walked.Sublist (method :: (g.parametersOf method ++ (walked ++ [exit]))) := fun walked =>
    ((List.sublist_append_left walked [exit]).trans (List.sublist_append_right _ _)).cons method
  have hbody : body.Nodup :=
    hs.nodup.sublist ((List.sublist_append_left body [exit]).cons method)
  rw [eq_of_isChain (R := g.FlowsTo) (fun x hx => hs.acyclic (.single hx)) ?_ hs.isChain_body
    (hpairwise.sublist (hsublist _))]
  exact (List.perm_ext_iff_of_nodup (hnodup.sublist (hsublist _)) hbody).mpr fun x =>
    hs.mem_filter_reversePostOrder h hg

/-- After the parameters the positions follow the line. -/
theorem getElem?_nodes (k : Nat) :
    l.nodes[l.paramCount + (k + 1)]? = (line method exit body)[k + 1]? := by
  rw [hs.nodes_eq h hg, h.paramCount_eq, ← Nat.add_assoc, List.getElem?_cons_succ,
    List.getElem?_cons_succ, List.getElem?_append_right (Nat.le_add_right _ k),
    Nat.add_sub_cancel_left]

theorem standsFor_iff (hx : (line method exit body)[k]? = some x) :
    l.StandsFor i x ↔ i = l.paramCount + k := by
  unfold Layout.StandsFor
  rw [h.method_eq]
  split
  · next heq =>
    subst heq
    rw [hs.eq_of_getElem? hx (j := 0) rfl, Nat.add_zero]
  · next hne =>
    cases k with
    | zero => exact absurd (Option.some.inj hx).symm hne
    | succ k =>
      rw [← hs.getElem?_nodes h hg] at hx
      exact ⟨fun hi => h.eq_of_getElem? hi hx, fun hi => hi ▸ hx⟩

theorem length_nodes : l.nodes.length = l.paramCount + body.length + 2 := by
  rw [hs.nodes_eq h hg, h.paramCount_eq]
  simp [Nat.add_assoc]

/-- Control flows from each position to the next, but not to the exit if there is no statement. -/
theorem follows_iff : l.Follows i j ↔ j = i + 1 ∧ (j + 1 < l.nodes.length ∨
    body ≠ [] ∧ j + 1 = l.nodes.length) := by
  have hlength := hs.length_nodes h hg
  unfold Layout.Follows
  simp only [h.graph_eq, hs.flowsTo_iff]
  constructor
  · rintro (⟨hi, rfl⟩ | ⟨x, y, ⟨hbody, k, hx, hy⟩, hi, hj⟩)
    · exact ⟨rfl, by omega⟩
    · rw [hs.standsFor_iff h hg hx] at hi
      rw [← hs.getElem?_nodes h hg] at hy
      obtain rfl := h.eq_of_getElem? hj hy
      have hlt := (List.getElem?_eq_some_iff.mp hy).1
      refine ⟨by omega, ?_⟩
      rcases Nat.lt_or_ge (l.paramCount + (k + 1) + 1) l.nodes.length with hlt' | hge
      · exact Or.inl hlt'
      · exact Or.inr ⟨hbody, by omega⟩
  · rintro ⟨rfl, hj⟩
    rcases Nat.lt_or_ge i l.paramCount with hi | hi
    · exact Or.inl ⟨hi, rfl⟩
    · obtain ⟨k, rfl⟩ := Nat.exists_eq_add_of_le hi
      have hbody : body ≠ [] := by
        rcases hj with hj | hj
        · exact List.ne_nil_of_length_pos (by omega)
        · exact hj.1
      have hk : k + 1 < (line method exit body).length := by
        simp
        omega
      have hx := List.getElem?_eq_getElem (Nat.lt_of_succ_lt hk)
      have hy := List.getElem?_eq_getElem hk
      refine Or.inr ⟨_, _, ⟨hbody, k, hx, hy⟩, (hs.standsFor_iff h hg hx).mpr rfl, ?_⟩
      rw [Nat.add_assoc, hs.getElem?_nodes h hg, hy]

end Positions

end RunsStraight

end FlowGraph

/-! ## The last definition -/

namespace ReachingDefs

open FlowGraph (RunsStraight)

variable {g : Graph} {method exit : NodeId} {body : List NodeId} {r : ReachingDefs} {v : String}
  {d u : Nat}

/-- The facts before a position are the definitions from which a path leads there. -/
theorem mem_factsBefore_iff (hr : ofMethod g method = .ok r) (hconv : r.graph.Converse)
    (hd : r.definedAt? d = some v) : d ∈ r.factsBefore u ↔ Reaches r v d u := by
  have hfacts : r.factsBefore u = (r.problem.run r.bound).input.getD u ∅ :=
    congrFun (Problem.inputOf_solution (settled_of_converse hconv)) u
  rw [hfacts]
  exact mem_input_run_iff hr hconv hd

/-- Where each position has the one before it as its only predecessor, a path goes through all
positions between its ends. -/
theorem reaches_iff_forall {n : Nat} (hpred : ∀ i j, j < n → (i ∈ r.graph.pred j ↔ j = i + 1))
    (hu : u < n) : Reaches r v d u ↔ d < u ∧ ∀ m, d < m → m < u → r.definedAt? m ≠ some v := by
  constructor
  · intro hreach
    induction hreach with
    | edge hd _ =>
      rw [hpred _ _ hu] at hd
      exact ⟨by omega, fun m hdm hmu => by omega⟩
    | @step w u _ hclear hw _ ih =>
      rw [hpred _ _ hu] at hw
      obtain ⟨hlt, hbetween⟩ := ih (by omega)
      refine ⟨by omega, fun m hdm hmu => ?_⟩
      rcases Nat.lt_or_ge m w with hmw | hmw
      · exact hbetween m hdm hmw
      · rwa [show m = w by omega]
  · rintro ⟨hlt, hbetween⟩
    induction u, hlt using Nat.le_induction with
    | base => exact .edge ((hpred d _ hu).mpr rfl) (Nat.succ_ne_zero d)
    | succ u hle ih =>
      have hreach := ih (by omega) fun m hdm hmu => hbetween m hdm (by omega)
      exact .step hreach (hbetween u hle (Nat.lt_succ_self u)) ((hpred u _ hu).mpr rfl)
        (Nat.succ_ne_zero u)

/-- The last definition of a variable before a use of it. -/
structure LastDefinition (defines : Nat → Option String) (v : String) (d u : Nat) : Prop where
  lt : d < u
  defined : defines d = some v
  last : ∀ m, d < m → m < u → defines m ≠ some v

theorem lastDefinition_succ {defines : Nat → Option String} :
    LastDefinition defines v (d + 1) (u + 1) ↔ LastDefinition (fun k => defines (k + 1)) v d u := by
  constructor
  · rintro ⟨hlt, hdefined, hlast⟩
    exact ⟨by omega, hdefined, fun m hdm hmu => hlast (m + 1) (by omega) (by omega)⟩
  · rintro ⟨hlt, hdefined, hlast⟩
    refine ⟨by omega, hdefined, fun m hdm hmu => ?_⟩
    obtain ⟨k, rfl⟩ : ∃ k, m = k + 1 := ⟨m - 1, by omega⟩
    exact hlast k (by omega) (by omega)

/-- Nothing is used at the exit. -/
theorem lt_of_mem_usedAt (hg : g.WellFormed) (hr : ofMethod g method = .ok r)
    (hparams : (g.parametersOf method).Nodup) (hv : v ∈ r.usedAt u) : u + 1 < r.graph.size := by
  obtain ⟨hfg, _, huses⟩ := eq_of_ofMethod hr
  obtain ⟨l, h⟩ := FlowGraph.built_of_ofMethod hfg
  have hsize : r.uses.size = r.graph.size := by rw [huses, Array.size_map]; rfl
  have hu : u < r.graph.size := by
    by_contra hge
    simp [usedAt, hsize, Nat.not_lt.mp hge] at hv
  have hne : u ≠ r.graph.exit := by
    rintro rfl
    rw [usedAt_eq huses (h.node?_exit hg hparams), usesOf,
      Graph.kind?_of_methodReturn? h.exit_eq] at hv
    cases hv
  rw [FlowGraph.exit] at hne
  omega

/-- In a method without branches, a definition reaches a use if no other comes between them. -/
theorem flow_iff (hg : g.WellFormed) (hs : RunsStraight g method exit body)
    (hr : ofMethod g method = .ok r) :
    r.Flow d u v ↔ v ∈ r.usedAt u ∧ LastDefinition r.definedAt? v d u := by
  obtain ⟨hfg, _, _⟩ := eq_of_ofMethod hr
  obtain ⟨l, h⟩ := FlowGraph.built_of_ofMethod hfg
  have hshape : FlowGraph.WellShaped g method l.exit := hs.exit_eq h ▸ hs.wellShaped
  have hconv : r.graph.Converse := fun i j => by
    rw [h.mem_succ_iff_follows hg hshape, h.mem_pred_iff_follows hg hshape]
  have hpred : ∀ i j, j < r.graph.size - 1 → (i ∈ r.graph.pred j ↔ j = i + 1) := by
    intro i j hj
    rw [h.mem_pred_iff_follows hg hshape, hs.follows_iff h hg]
    rw [h.size_eq] at hj
    exact and_iff_left (Or.inl (by omega))
  have hreaches : v ∈ r.usedAt u → r.definedAt? d = some v →
      (d ∈ r.factsBefore u ↔ d < u ∧ ∀ m, d < m → m < u → r.definedAt? m ≠ some v) := by
    intro hv hd
    have hu := lt_of_mem_usedAt hg hr hs.nodup_params hv
    rw [mem_factsBefore_iff hr hconv hd, reaches_iff_forall hpred (by omega)]
  constructor
  · rintro ⟨hv, hbefore, hd⟩
    obtain ⟨hlt, hlast⟩ := (hreaches hv hd).mp hbefore
    exact ⟨hv, hlt, hd, hlast⟩
  · rintro ⟨hv, hlt, hd, hlast⟩
    exact ⟨hv, (hreaches hv hd).mpr ⟨hlt, hlast⟩, hd⟩

end ReachingDefs

end DataFlow

end CodeGraph
