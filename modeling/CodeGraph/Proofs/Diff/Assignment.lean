import CodeGraph.ControlFlow
import CodeGraph.Proofs.Diff.Cursor
import CodeGraph.Proofs.Diff.Overlay
import CodeGraph.Proofs.KeyPool
import Mathlib

/-!
# The ids of new nodes

A script that was recorded numbers its new nodes from zero on, in the order in which they were
recorded.  When it is applied, each of them gets an id at its turn.  Edges and properties that are
recorded in between draw no id and change no kind, whatever nodes they refer to.  So a script that
is applied creates its nodes one after the other (`Progress.Assigns`), and key, id and kind belong
together by their position.

Which ids these are depends on where they are drawn.  A pool counts on from its cursor.  The
allocator takes the smallest ids that are free, from its cursor on (`Graph.freeIds`).
-/

namespace CodeGraph

/-! ## Keys -/

namespace Edit

/-- The kind of the node that an edit creates. -/
def kind? : Edit → Option NodeKind
  | .node kind _ => some kind
  | .edge .. | .set .. | .add .. => none

/-- The kinds of the nodes that edits create, in their order. -/
def kinds (es : List Edit) : List NodeKind := es.filterMap kind?

/-- The change that an edit is recorded as, where `key` names the node that it creates. -/
def change (key : NewKey) : Edit → Change
  | .node kind properties => .createNode key kind properties
  | .edge src dst e => .createEdge src dst e
  | .set ref key value => .setProperty ref key value
  | .add ref key value => .addProperty ref key value

/-- The changes that edits are recorded as, where the nodes that they create are numbered from `n`
on. -/
def changesFrom : Nat → List Edit → List Change
  | _, [] => []
  | n, e :: es => e.change ⟨UInt32.ofNat n⟩ :: changesFrom (n + e.kind?.toList.length) es

theorem kinds_cons (e : Edit) (es : List Edit) : kinds (e :: es) = e.kind?.toList ++ kinds es := by
  cases he : e.kind? <;> simp [kinds, he]

end Edit

namespace DiffBuilder

variable {b b' : DiffBuilder} {n : Nat} {e : Edit} {es : List Edit} {ref : Option NodeRef}
  {refs : List NodeRef}

theorem addNode_eq_ok {kind : NodeKind} {properties : Properties} {ref : NodeRef}
    (hb : b.nextKey.toNat = n) (h : b.addNode kind properties = .ok (ref, b')) :
    ref = .new ⟨UInt32.ofNat n⟩ ∧
      b'.changes.toList = b.changes.toList ++ [.createNode ⟨UInt32.ofNat n⟩ kind properties] ∧
      b'.nextKey.toNat = n + 1 := by
  obtain ⟨nextKey, hnext, h⟩ := Progress.bind_eq_ok h
  cases h
  have hkey : b.nextKey = UInt32.ofNat n := by rw [← hb, UInt32.ofNat_toNat]
  refine ⟨by rw [hkey], by rw [← hkey]; exact Array.toList_push, ?_⟩
  -- the key has a successor, so it is not the last one
  rw [successor] at hnext
  split at hnext
  · cases hnext
  · next hne =>
    cases hnext
    have hlt := b.nextKey.toNat_lt_size
    have hmod : (b.nextKey + 1).toNat = (n + 1) % UInt32.size := by
      rw [UInt32.toNat_add, hb]
      rfl
    have hpos : (b.nextKey + 1).toNat ≠ 0 := fun hzero => hne (UInt32.toNat_inj.mp hzero)
    rw [hmod] at hpos ⊢
    refine Nat.mod_eq_of_lt (Nat.lt_of_le_of_ne (by omega) fun hlast => ?_)
    rw [hlast, Nat.mod_self] at hpos
    exact hpos rfl

/-- What recording one edit does, where new nodes were numbered up to `n`. -/
theorem record_eq_ok (hb : b.nextKey.toNat = n) (h : b.record e = .ok (ref, b')) :
    ref = e.kind?.map (fun _ => .new ⟨UInt32.ofNat n⟩) ∧
      b'.changes.toList = b.changes.toList ++ [e.change ⟨UInt32.ofNat n⟩] ∧
      b'.nextKey.toNat = n + e.kind?.toList.length := by
  cases e with
  | node kind properties =>
    obtain ⟨⟨ref, b₁⟩, hadd, h⟩ := Progress.bind_eq_ok h
    cases h
    obtain ⟨href, hchanges, hnext⟩ := addNode_eq_ok hb hadd
    exact ⟨congrArg some href, hchanges, hnext⟩
  | edge src dst edge =>
    cases h
    exact ⟨rfl, Array.toList_push, hb⟩
  | set node key value =>
    cases h
    exact ⟨rfl, Array.toList_push, hb⟩
  | add node key value =>
    cases h
    exact ⟨rfl, Array.toList_push, hb⟩

/-- The references and the changes that are recorded, by the numbers of the new nodes.  There is a
key for each of them. -/
theorem recordAll_eq_ok (hb : b.nextKey.toNat = n) (h : b.recordAll es = .ok (refs, b')) :
    refs = (List.range' n (Edit.kinds es).length).map (fun i => .new ⟨UInt32.ofNat i⟩) ∧
      b'.changes.toList = b.changes.toList ++ Edit.changesFrom n es ∧
      n + (Edit.kinds es).length < UInt32.size := by
  induction es generalizing b n refs with
  | nil =>
    cases h
    exact ⟨rfl, (List.append_nil _).symm, hb ▸ UInt32.toNat_lt_size _⟩
  | cons e es ih =>
    obtain ⟨⟨ref, b₁⟩, hrecord, h⟩ := Progress.bind_eq_ok h
    obtain ⟨⟨rest, b₂⟩, hrest, h⟩ := Progress.bind_eq_ok h
    cases h
    obtain ⟨rfl, hchange, hnext⟩ := record_eq_ok hb hrecord
    obtain ⟨rfl, hchanges, hkeys⟩ := ih hnext hrest
    rw [Edit.changesFrom, Edit.kinds_cons, List.length_append]
    refine ⟨?_, ?_, by omega⟩
    · rw [← List.range'_append_1, List.map_append]
      cases e.kind? <;> rfl
    · rw [hchanges, hchange, List.append_assoc, List.singleton_append]

theorem changes_build (h : ({} : DiffBuilder).recordAll es = .ok (refs, b)) :
    b.build.changes = Edit.changesFrom 0 es :=
  (recordAll_eq_ok rfl h).2.1

theorem exists_recordAll {d : Diff} (h : Diff.ofEdits es = .ok d) : ∃ refs b,
    ({} : DiffBuilder).recordAll es = .ok (refs, b) ∧ d = b.build := by
  obtain ⟨⟨refs, b⟩, hrecord, rfl⟩ := Graph.map_eq_ok h
  exact ⟨refs, b, hrecord, rfl⟩

end DiffBuilder

/-! ## One edit -/

namespace Progress

variable {p p' p₁ : Progress} {n : Nat} {e : Edit} {es : List Edit} {id : NodeId}
  {ids : List NodeId} {kind : NodeKind}

/-- An edit that creates no node moves no cursor and changes no kind. -/
structure Keeps (p p' : Progress) : Prop where
  wellFormed : p'.graph.WellFormed
  contains_eq : p'.graph.contains = p.graph.contains
  kind?_eq : p'.graph.kind? = p.graph.kind?
  nextId : p'.graph.nextId = p.graph.nextId
  pool : p'.pool = p.pool
  created : p'.created = p.created

theorem Keeps.supply_eq (h : Keeps p p') : p'.graph.supply = p.graph.supply := by
  rw [Graph.supply, Graph.supply, h.contains_eq, h.nextId]

/-- An edit that creates a node draws an id for it and lets the key `n` name it. -/
structure Creates (p p' : Progress) (n : Nat) (kind : NodeKind) (id : NodeId) : Prop where
  wellFormed : p'.graph.WellFormed
  new : p.graph.contains id = false
  contains_eq : p'.graph.contains = Function.update p.graph.contains id true
  kind?_eq : p'.graph.kind? = Function.update p.graph.kind? id (some kind)
  created : p'.created = p.created.insert (UInt32.ofNat n) id
  drawn : (p.pool = none ∧ p'.pool = none ∧ (∃ rest, p.graph.supply = id :: rest) ∧
      p'.graph.nextId = id.value + 1) ∨
    ∃ pool pool', p.pool = some pool ∧ pool.next = .ok (id, pool') ∧ p'.pool = some pool'

theorem creates_of_createNode (hp : p.graph.WellFormed) {properties : Properties}
    (h : p.createNode ⟨UInt32.ofNat n⟩ kind properties = (p', none)) :
    ∃ id, Creates p p' n kind id := by
  obtain ⟨id, p₁, g, hdraw, hinsert, rfl⟩ := createNode_eq_none h
  have hnext := Graph.nextId_insertNode hinsert
  have hp₁ := (draw_eq_ok hp hdraw).1
  obtain ⟨hnew, hshows⟩ := hp₁.shows_of_insertNode hinsert
  -- the allocator moves on and the pool does, but no node changes before the new one is put in
  have hnode : p₁.graph.node? = p.graph.node? := by
    obtain ⟨_, _, rfl⟩ | ⟨_, _, _, _, rfl⟩ := draw_cases hdraw
    · exact (hp.shows_withNextId _).node?_eq
    · rfl
  have hnode' := hshows.node?_eq
  rw [hnode] at hnew hnode'
  refine ⟨id, hshows.wellFormed, ?_, ?_, ?_, ?_, ?_⟩
  · rw [hp.contains_eq, hnew]
    rfl
  · funext id'
    rw [hshows.wellFormed.contains_eq, hnode', Function.update_apply, Function.update_apply,
      hp.contains_eq]
    split <;> rfl
  · funext id'
    rw [Graph.kind?, hnode', Function.update_apply, Function.update_apply]
    split <;> rfl
  · rw [(draw_eq_ok hp hdraw).2.2.1]
  · obtain ⟨hpool, hsupply, rfl⟩ | ⟨pool, pool', hpool, hdrawn, rfl⟩ := draw_cases hdraw
    · exact .inl ⟨hpool, hpool, hsupply, hnext⟩
    · exact .inr ⟨pool, pool', hpool, hdrawn, rfl⟩

/-- Properties are no part of a kind. -/
theorem kind?_eq_of_update {g g' : Graph} {m : Node} {properties : Properties}
    (hm : g.node? id = some m)
    (hnode : g'.node? = Function.update g.node? id (some { m with properties })) :
    g'.kind? = g.kind? := by
  funext id'
  rw [Graph.kind?, Graph.kind?, hnode, Function.update_apply]
  split
  · subst id'
    rw [hm]
    rfl
  · rfl

theorem keeps_of_commit (hp : p.graph.WellFormed) {r : Except GraphError (Graph × List Change)}
    (h : p.commit r = (p', none)) (hr : ∀ g us, r = .ok (g, us) →
      g.WellFormed ∧ g.nextId = p.graph.nextId ∧ g.kind? = p.graph.kind?) : Keeps p p' := by
  obtain ⟨g, us, hok, rfl⟩ := commit_eq_none h
  obtain ⟨hg, hnext, hkind⟩ := hr g us hok
  refine ⟨hg, funext fun id => ?_, hkind, hnext, rfl, rfl⟩
  -- an id is taken exactly if there is a kind under it
  have hsome : (g.kind? id).isSome = (p.graph.kind? id).isSome := by rw [hkind]
  rwa [Graph.kind?, Graph.kind?, Option.isSome_map, Option.isSome_map, ← hg.contains_eq,
    ← hp.contains_eq] at hsome

theorem keeps_of_apply (hp : p.graph.WellFormed) {key : NewKey} (he : e.kind? = none)
    (h : p.apply (e.change key) = (p', none)) : Keeps p p' := by
  cases e with
  | node kind properties => cases he
  | edge src dst edge =>
    refine keeps_of_commit hp h fun g us hok => ?_
    obtain ⟨src, _, hok⟩ := bind_eq_ok hok
    obtain ⟨dst, _, hok⟩ := bind_eq_ok hok
    obtain ⟨g, hadd, hok⟩ := bind_eq_ok hok
    cases hok
    obtain ⟨_, _, hshows⟩ := hp.shows_of_addEdge hadd
    refine ⟨hshows.wellFormed, Graph.nextId_addEdge hadd, funext fun id => ?_⟩
    rw [Graph.kind?, Graph.kind?, hshows.node?_eq]
  | set node key value =>
    refine keeps_of_commit hp h fun g us hok => ?_
    obtain ⟨node, _, hok⟩ := bind_eq_ok hok
    obtain ⟨⟨previous, g⟩, hset, hok⟩ := bind_eq_ok hok
    cases hok
    obtain ⟨m, _, hm, _, _, hshows⟩ := hp.shows_of_updateProperties hset
    exact ⟨hshows.wellFormed, Graph.nextId_updateProperties hset,
      kind?_eq_of_update hm hshows.node?_eq⟩
  | add node key value =>
    refine keeps_of_commit hp h fun g us hok => ?_
    obtain ⟨node, _, hok⟩ := bind_eq_ok hok
    obtain ⟨⟨previous, g⟩, hadd, hok⟩ := bind_eq_ok hok
    cases hok
    obtain ⟨m, _, hm, _, _, hshows⟩ := hp.shows_of_updateProperties hadd
    exact ⟨hshows.wellFormed, Graph.nextId_updateProperties hadd,
      kind?_eq_of_update hm hshows.node?_eq⟩

/-! ## A script -/

/-- The edits of a script are made one after the other, and `ids` are the ids of the nodes that they
create, where the keys count from `n` on. -/
inductive Assigns : Progress → Nat → List Edit → List NodeId → Progress → Prop where
  | nil {p : Progress} {n : Nat} : Assigns p n [] [] p
  | node {p p₁ p' : Progress} {n : Nat} {kind : NodeKind} {properties : Properties}
      {es : List Edit} {id : NodeId} {ids : List NodeId} (hcreates : Creates p p₁ n kind id)
      (hrest : Assigns p₁ (n + 1) es ids p') :
      Assigns p n (.node kind properties :: es) (id :: ids) p'
  | other {p p₁ p' : Progress} {n : Nat} {e : Edit} {es : List Edit} {ids : List NodeId}
      (he : e.kind? = none) (hkeeps : Keeps p p₁) (hrest : Assigns p₁ n es ids p') :
      Assigns p n (e :: es) ids p'

theorem exists_assigns (hp : p.graph.WellFormed)
    (h : p.applyAll (Edit.changesFrom n es) = (p', none)) : ∃ ids, Assigns p n es ids p' := by
  induction es generalizing p n with
  | nil =>
    cases h
    exact ⟨[], .nil⟩
  | cons e es ih =>
    obtain ⟨p₁, happly, hrest⟩ := applyAll_cons_eq_none h
    cases he : e.kind? with
    | none =>
      have hkeeps := keeps_of_apply hp he happly
      rw [he] at hrest
      obtain ⟨ids, hids⟩ := ih hkeeps.wellFormed hrest
      exact ⟨ids, .other he hkeeps hids⟩
    | some kind =>
      cases e with
      | node kind properties =>
        obtain ⟨id, hcreates⟩ := creates_of_createNode hp happly
        obtain ⟨ids, hids⟩ := ih hcreates.wellFormed hrest
        exact ⟨id :: ids, .node hcreates hids⟩
      | edge src dst edge => cases he
      | set node key value => cases he
      | add node key value => cases he

namespace Assigns

theorem length_eq (h : Assigns p n es ids p') : ids.length = (Edit.kinds es).length := by
  induction h with
  | nil => rfl
  | node _ _ ih => simp [Edit.kinds_cons, Edit.kind?, ih, Nat.add_comm]
  | other he _ _ ih => simp [Edit.kinds_cons, he, ih]

/-- A node that is there keeps its kind. -/
theorem kind? (h : Assigns p n es ids p') (hid : p.graph.contains id = true) :
    p'.graph.kind? id = p.graph.kind? id := by
  induction h with
  | nil => rfl
  | node hcreates _ ih =>
    have hne : id ≠ _ := fun heq => Bool.noConfusion ((heq ▸ hid).symm.trans hcreates.new)
    rw [ih (by rw [hcreates.contains_eq, Function.update_of_ne hne, hid]), hcreates.kind?_eq,
      Function.update_of_ne hne]
  | other _ hkeeps _ ih => rw [ih (hkeeps.contains_eq ▸ hid), hkeeps.kind?_eq]

/-- Each new node has the kind that it was recorded with. -/
theorem map_kind? (h : Assigns p n es ids p') :
    ids.map p'.graph.kind? = (Edit.kinds es).map some := by
  induction h with
  | nil => rfl
  | node hcreates hrest ih =>
    have hthere := hrest.kind? (by rw [hcreates.contains_eq, Function.update_self])
    rw [List.map_cons, ih, hthere, hcreates.kind?_eq, Function.update_self, Edit.kinds_cons]
    rfl
  | other he _ _ ih =>
    rw [ih, Edit.kinds_cons, he]
    rfl

/-- No new id was there before. -/
theorem contains_eq_false (h : Assigns p n es ids p') :
    ∀ id ∈ ids, p.graph.contains id = false := by
  induction h with
  | nil => exact List.forall_mem_nil _
  | node hcreates _ ih =>
    refine List.forall_mem_cons.mpr ⟨hcreates.new, fun id hid => ?_⟩
    have hlater := ih id hid
    rw [hcreates.contains_eq, Function.update_apply] at hlater
    split at hlater
    · cases hlater
    · exact hlater
  | other _ hkeeps _ ih => exact hkeeps.contains_eq ▸ ih

/-- The keys name the new ids one by one. -/
theorem getElem?_created (h : Assigns p n es ids p') (hkeys : n + ids.length ≤ UInt32.size)
    (key : UInt32) : p'.created[key]? =
      if n ≤ key.toNat ∧ key.toNat < n + ids.length then ids[key.toNat - n]?
      else p.created[key]? := by
  induction h with
  | nil => rw [if_neg (by rw [List.length_nil]; omega)]
  | @node p p₁ p' n kind properties es id ids hcreates _ ih =>
    rw [List.length_cons] at hkeys ⊢
    have hn : (UInt32.ofNat n).toNat = n := UInt32.toNat_ofNat_of_lt' (by omega)
    rw [ih (by omega), hcreates.created, Std.TreeMap.getElem?_insert]
    -- the key of this node is below those of the rest of the script, which do not wrap around
    by_cases heq : key = UInt32.ofNat n
    · subst key
      rw [if_neg (by omega), if_pos Std.ReflCmp.compare_self, if_pos (by omega), hn, Nat.sub_self]
      rfl
    · have hne : key.toNat ≠ n := fun h => heq (by rw [← h, UInt32.ofNat_toNat])
      have hcmp : ¬ compare (UInt32.ofNat n) key = .eq := fun h =>
        heq (Std.LawfulEqOrd.eq_of_compare h).symm
      rw [if_neg hcmp]
      by_cases hin : n + 1 ≤ key.toNat ∧ key.toNat < n + 1 + ids.length
      · have hsub : key.toNat - n = key.toNat - (n + 1) + 1 := by omega
        rw [if_pos hin, if_pos (by omega), hsub, List.getElem?_cons_succ]
      · rw [if_neg hin, if_neg (by omega)]
  | other _ hkeeps _ ih => rw [ih hkeys, hkeeps.created]

theorem getElem?_created_start (h : Assigns p 0 es ids p') (hp : p.created = {})
    (hkeys : ids.length ≤ UInt32.size) (key : UInt32) : p'.created[key]? = ids[key.toNat]? := by
  rw [h.getElem?_created (by omega), hp]
  by_cases hkey : key.toNat < ids.length
  · rw [if_pos (by omega), Nat.sub_zero]
  · rw [if_neg (by omega), List.getElem?_eq_none (by omega)]
    exact Std.TreeMap.getElem?_emptyc

/-- A pool counts on from its cursor. -/
theorem of_pool (h : Assigns p n es ids p') {pool : KeyPool} (hpool : p.pool = some pool) :
    ids.map (fun id => id.value.toNat) = List.range' pool.cursor.toNat ids.length ∧
      ∃ pool', p'.pool = some pool' ∧ pool'.start = pool.start ∧ pool'.stop = pool.stop ∧
        pool'.cursor.toNat = pool.cursor.toNat + ids.length := by
  induction h generalizing pool with
  | nil => exact ⟨rfl, pool, hpool, rfl, rfl, rfl⟩
  | node hcreates _ ih =>
    obtain ⟨hnone, _⟩ | ⟨pool₀, pool₁, hsome, hnext, hpool₁⟩ := hcreates.drawn
    · cases hnone.symm.trans hpool
    · cases hsome.symm.trans hpool
      obtain ⟨_, pool₂, hnext₂, hstart, hstop, hcursor⟩ | ⟨_, herror⟩ := pool.next_cases
      · cases hnext.symm.trans hnext₂
        obtain ⟨hids, pool', hpool', hstart', hstop', hcursor'⟩ := ih hpool₁
        refine ⟨?_, pool', hpool', hstart'.trans hstart, hstop'.trans hstop, ?_⟩
        · rw [List.map_cons, hids, hcursor, List.length_cons, List.range'_succ]
        · rw [hcursor', hcursor, List.length_cons]
          omega
      · cases hnext.symm.trans herror
  | other _ hkeeps _ ih => exact ih (hkeeps.pool.trans hpool)

/-- The allocator hands out the ids that it has left in their order. -/
theorem of_allocator (h : Assigns p n es ids p') (hpool : p.pool = none) :
    ids <+: p.graph.supply := by
  induction h with
  | nil => exact List.nil_prefix
  | @node p p₁ p' n kind properties es id ids hcreates hrest ih =>
    obtain ⟨_, hpool₁, ⟨rest, hsupply⟩, hnext⟩ | ⟨_, _, hsome, _⟩ := hcreates.drawn
    · have hleft : p₁.graph.supply = rest := by
        refine Graph.supply_of_passed hsupply hnext fun later hlater => ?_
        have hne : later ≠ id := fun heq => UInt64.lt_irrefl _ (heq ▸ hlater)
        rw [hcreates.contains_eq, Function.update_of_ne hne]
      rw [hsupply, List.cons_prefix_cons]
      exact ⟨rfl, hleft ▸ ih hpool₁⟩
    · cases hpool.symm.trans hsome
  | other _ hkeeps _ ih => exact hkeeps.supply_eq ▸ ih (hkeeps.pool.trans hpool)

end Assigns

end Progress

/-! ## What an application reports -/

namespace Applied

variable {a : Applied} {ids : List NodeId} {i : Nat}

theorem nodeId?_ofNat (hsize : ids.length ≤ UInt32.size)
    (hcreated : ∀ key : UInt32, a.created[key]? = ids[key.toNat]?) (hi : i < ids.length) :
    a.nodeId? ⟨UInt32.ofNat i⟩ = ids[i]? := by
  rw [nodeId?, hcreated, UInt32.toNat_ofNat_of_lt' (by omega)]

theorem map_resolve?_range (hsize : ids.length ≤ UInt32.size)
    (hcreated : ∀ key : UInt32, a.created[key]? = ids[key.toNat]?) :
    (List.range ids.length).map (a.resolve? ∘ fun i => .new ⟨UInt32.ofNat i⟩) = ids.map some := by
  refine List.ext_getElem (by simp) fun i hi _ => ?_
  rw [List.length_map, List.length_range] at hi
  rw [List.getElem_map, List.getElem_map, List.getElem_range]
  exact (nodeId?_ofNat hsize hcreated hi).trans (List.getElem?_eq_getElem hi)

/-- Keys that count from zero on list the ids that they name in their order. -/
theorem newNodeIds_eq (hsize : ids.length ≤ UInt32.size)
    (hcreated : ∀ key : UInt32, a.created[key]? = ids[key.toNat]?) : a.newNodeIds = ids := by
  obtain ⟨entries, hentries⟩ :
    ∃ entries, entries = ids.mapIdx fun i id => (UInt32.ofNat i, id) := ⟨_, rfl⟩
  have hkey : ∀ i < ids.length, (UInt32.ofNat i).toNat = i := fun i hi =>
    UInt32.toNat_ofNat_of_lt' (by omega)
  have hordered : entries.Pairwise fun x y => compare x.1 y.1 = .lt := by
    rw [hentries, List.pairwise_iff_getElem]
    intro i j hi hj hij
    rw [List.length_mapIdx] at hi hj
    rw [List.getElem_mapIdx, List.getElem_mapIdx, Std.compare_eq_lt, UInt32.lt_iff_toNat_lt,
      hkey i hi, hkey j hj]
    exact hij
  have hmem : ∀ entry, entry ∈ a.created.toList ↔ entry ∈ entries := by
    rintro ⟨key, id⟩
    rw [Std.TreeMap.mem_toList_iff_getElem?_eq_some, hcreated, hentries, List.mem_mapIdx,
      List.getElem?_eq_some_iff]
    constructor
    · rintro ⟨hlt, rfl⟩
      exact ⟨key.toNat, hlt, by rw [UInt32.ofNat_toNat]⟩
    · rintro ⟨i, hi, heq⟩
      cases heq
      simp only [hkey i hi]
      exact ⟨hi, trivial⟩
  have : Std.Antisymm fun x y : UInt32 × NodeId => compare x.1 y.1 = .lt := by
    refine ⟨fun x y hxy hyx => ?_⟩
    rw [Std.OrientedOrd.eq_swap (a := x.1), hyx] at hxy
    cases hxy
  have : Std.Irrefl fun x y : UInt32 × NodeId => compare x.1 y.1 = .lt := by
    refine ⟨fun x hx => ?_⟩
    rw [Std.ReflOrd.compare_self] at hx
    cases hx
  have hlist := Std.TreeMap.ordered_keys_toList.eq_of_mem_iff hordered hmem
  rw [newNodeIds, hlist, hentries]
  exact List.ext_getElem (by simp) fun i _ _ => by simp

end Applied

namespace Graph

variable {g : Graph} {es : List Edit} {refs : List NodeRef} {b : DiffBuilder}
  {pool : Option KeyPool} {withInverse : Bool} {a : Applied}

/-- The ids of the nodes that recorded edits created, where `refs` are the references that the
builder handed out: what the application of the edits to `g` reports of the ids, and which ones they
are. -/
structure Assignment (g : Graph) (es : List Edit) (refs : List NodeRef) (pool : Option KeyPool)
    (after : Application) (a : Applied) : Prop where
  length_eq : a.newNodeIds.length = (Edit.kinds es).length
  /-- The builder handed out the keys from zero on, -/
  refs_eq : refs = (List.range (Edit.kinds es).length).map fun i => .new ⟨UInt32.ofNat i⟩
  /-- each of which names the id at its position, -/
  nodeId? : ∀ i < (Edit.kinds es).length, a.nodeId? ⟨UInt32.ofNat i⟩ = a.newNodeIds[i]?
  /-- and so do the references. -/
  resolve? : refs.map a.resolve? = a.newNodeIds.map some
  new : ∀ id ∈ a.newNodeIds, g.contains id = false
  kinds : a.newNodeIds.map after.graph.kind? = (Edit.kinds es).map some
  /-- Ids of a pool follow each other from its cursor on. -/
  of_pool : ∀ c, pool = some c →
    a.newNodeIds.map (fun id => id.value.toNat) =
        List.range' c.cursor.toNat (Edit.kinds es).length ∧
      ∃ c', after.pool = some c' ∧ c'.start = c.start ∧ c'.stop = c.stop ∧
        c'.cursor.toNat = c.cursor.toNat + (Edit.kinds es).length
  /-- Ids of the allocator are the smallest that are free from its cursor on, in ascending order. -/
  of_allocator : pool = none → a.newNodeIds = g.freeIds.take (Edit.kinds es).length

/-- When a recorded script is applied, the new nodes get their ids in the order in which they were
recorded. -/
theorem ids_in_recorded_order (hg : g.WellFormed)
    (hrecord : ({} : DiffBuilder).recordAll es = .ok (refs, b))
    (h : (g.apply b.build pool withInverse).result = .ok a) :
    Assignment g es refs pool (g.apply b.build pool withInverse) a := by
  obtain ⟨p, hall, _, ha⟩ := apply_eq_ok h
  rw [apply_of_applyAll_none hall]
  obtain ⟨hrefs, _, hkeys⟩ := DiffBuilder.recordAll_eq_ok (n := 0) rfl hrecord
  rw [DiffBuilder.changes_build hrecord] at hall
  obtain ⟨ids, hids⟩ := Progress.exists_assigns hg hall
  have hlength := hids.length_eq
  have hsize : ids.length ≤ UInt32.size := by omega
  have hcreated : ∀ key : UInt32, a.created[key]? = ids[key.toNat]? := by
    rw [ha]
    exact hids.getElem?_created_start rfl hsize
  obtain rfl : a.newNodeIds = ids := Applied.newNodeIds_eq hsize hcreated
  rw [← List.range_eq_range'] at hrefs
  refine ⟨hlength, hrefs, ?_, ?_, hids.contains_eq_false, hids.map_kind?, ?_, ?_⟩
  · intro i hi
    exact Applied.nodeId?_ofNat hsize hcreated (hlength ▸ hi)
  · rw [hrefs, ← hlength, List.map_map]
    exact Applied.map_resolve?_range hsize hcreated
  · rintro c rfl
    rw [← hlength]
    exact hids.of_pool rfl
  · rintro rfl
    rw [← hlength]
    exact List.prefix_iff_eq_take.mp ((hids.of_allocator rfl).trans g.supply_prefix_freeIds)

/-- A method, and nodes that were put under ids which the allocator has not reached. -/
def sparse : List Operation :=
  [.addNode (.method "f" "f") {}, .insertNode ⟨⟨3⟩, .block, {}⟩,
    .insertNode ⟨⟨4⟩, .methodReturn, {}⟩]

/-- A call and a return are put into a new block, and edges and properties refer to them before all
of them are recorded. -/
def fillBlock : List Edit :=
  [.node .block {}, .edge (.existing ⟨1⟩) (.new ⟨0⟩) ⟨.ast, {}⟩, .node (.call "g" "g()") {},
    .edge (.new ⟨0⟩) (.new ⟨1⟩) ⟨.ast, {}⟩, .set (.new ⟨0⟩) "line" (.int 1),
    .add (.new ⟨1⟩) "tags" (.str "a"), .node (.ret "return") {},
    .edge (.new ⟨1⟩) (.new ⟨2⟩) ⟨.cfg, {}⟩]

/-- A pool that has handed out an id before and has just enough of them. -/
def fillBlockPool : KeyPool := ⟨10, 14, 11, by decide, by decide⟩

theorem fillBlock_ids : ∃ refs d a b,
    ({} : DiffBuilder).recordAll fillBlock = .ok (refs, d) ∧
    ((built sparse).apply d.build none false).result = .ok a ∧
    ((built sparse).apply d.build (some fillBlockPool) false).result = .ok b ∧
    a.newNodeIds = [⟨2⟩, ⟨5⟩, ⟨6⟩] ∧ b.newNodeIds = [⟨11⟩, ⟨12⟩, ⟨13⟩] ∧
    Assignment (built sparse) fillBlock refs none ((built sparse).apply d.build none false) a ∧
    Assignment (built sparse) fillBlock refs (some fillBlockPool)
      ((built sparse).apply d.build (some fillBlockPool) false) b := by
  have hwf : (built sparse).WellFormed := wellFormed_built _
  have hok : (({} : DiffBuilder).recordAll fillBlock).isOk = true := by decide +kernel
  cases hrecord : ({} : DiffBuilder).recordAll fillBlock with
  | error e =>
    rw [hrecord] at hok
    cases hok
  | ok recorded =>
    obtain ⟨refs, d⟩ := recorded
    have hd : d.build = ⟨Edit.changesFrom 0 fillBlock⟩ :=
      congrArg Diff.mk (DiffBuilder.changes_build hrecord)
    have hfirst : ((built sparse).apply d.build none false).result.map
        Applied.newNodeIds = .ok [⟨2⟩, ⟨5⟩, ⟨6⟩] := by
      rw [hd]
      cbv
    have hsecond : ((built sparse).apply d.build (some fillBlockPool) false).result.map
        Applied.newNodeIds = .ok [⟨11⟩, ⟨12⟩, ⟨13⟩] := by
      rw [hd]
      cbv
    obtain ⟨a, ha, hids⟩ := map_eq_ok hfirst
    obtain ⟨b, hb, hids'⟩ := map_eq_ok hsecond
    exact ⟨refs, d, a, b, rfl, ha, hb, hids, hids', ids_in_recorded_order hwf hrecord ha,
      ids_in_recorded_order hwf hrecord hb⟩

end Graph

end CodeGraph
