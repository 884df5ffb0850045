import CodeGraph.Store.Basic
import CodeGraph.Proofs.Codec.Graph
import CodeGraph.Proofs.Diff.Overlay

/-!
# What a store keeps

Overlays are only ever added to a store.  `add_eq_ok` says all that adding one can
do, in a store of either kind.  So an overlay is got back as it was added, what
could be got before can still be got, and the names are listed in their order.

`replay` reads overlays of a store and replays them onto a graph one after the
other.  What it does is a matter of views (`Replays`), and is not changed by overlays
that are added later.  `Records` is about the base graph and all overlays after it.
-/

namespace CodeGraph.Store

variable {s s' : Store} {name other : String} {bytes data : ByteArray}

/-! ## Overlays -/

/-- What adding an overlay did that succeeded. -/
theorem add_eq_ok (h : s.add name bytes = .ok s') :
    (∃ m : MemoryStore, s = .memory m ∧ (∀ o ∈ m.overlays, o.1 ≠ name) ∧
      s' = .memory { m with overlays := m.overlays ++ [(name, bytes)] }) ∨
    ∃ (d : Database) (t : Tables) (size : Nat), s = .database d ∧ d.tables = some t ∧
      (∀ r ∈ t.rows, r.name ≠ name) ∧
      s' = .database { d with tables := some { t with
        rows := t.rows ++ [⟨name, bytes, size, Digest.contentHash bytes⟩] } } := by
  cases s with
  | memory m =>
    refine .inl ⟨m, rfl, ?_⟩
    simp only [add, MemoryStore.add] at h
    split at h
    · cases h
    · next hnew =>
      cases h
      exact ⟨fun o ho hname => hnew (List.any_eq_true.mpr ⟨o, ho, by simpa using hname⟩), rfl⟩
  | database d =>
    refine .inr ?_
    simp only [add, Database.add] at h
    cases hread : Overlay.ofBytes bytes with
    | error e => rw [hread] at h; cases h
    | ok overlay =>
      cases ht : d.tables with
      | none => simp only [hread, Database.read, ht] at h; cases h
      | some t =>
        simp only [hread, Database.read, ht, bind, Except.bind] at h
        split at h
        · cases h
        · next hnew =>
          cases h
          exact ⟨d, t, overlay.size, rfl, ht, by simpa using hnew, rfl⟩
  | locked d =>
    simp only [add] at h
    cases hadd : d.add name bytes with
    | error e => rw [hadd] at h; cases h
    | ok d' => rw [hadd] at h; cases h

/-- An overlay is got back as it was added. -/
theorem get_of_add (h : s.add name bytes = .ok s') : s'.get name = .ok bytes := by
  rcases add_eq_ok h with ⟨m, _, hnew, rfl⟩ | ⟨d, t, size, _, _, hnew, rfl⟩
  · have hnone : m.overlays.find? (fun o => o.1 = name) = none := by simpa using hnew
    simp [get, MemoryStore.get, List.find?_append, hnone]
  · have hnone : t.rows.find? (fun r => r.name = name) = none := by simpa using hnew
    simp [get, Database.get, Database.read, List.find?_append, hnone, bind, Except.bind, pure,
      Except.pure]

/-- What could be got before an overlay was added can still be got. -/
theorem get_of_add_of_get (h : s.add name bytes = .ok s') (hget : s.get other = .ok data) :
    s'.get other = .ok data := by
  rcases add_eq_ok h with ⟨m, rfl, _, rfl⟩ | ⟨d, t, size, rfl, ht, _, rfl⟩
  · simp only [get, MemoryStore.get] at hget ⊢
    cases hfind : m.overlays.find? (fun o => o.1 = other) with
    | none => rw [hfind] at hget; cases hget
    | some o =>
      rw [hfind] at hget
      simpa [List.find?_append, hfind] using hget
  · simp only [get, Database.get, Database.read, ht, bind, Except.bind] at hget ⊢
    cases hfind : t.rows.find? (fun r => r.name = other) with
    | none => rw [hfind] at hget; cases hget
    | some r =>
      rw [hfind] at hget
      simpa [List.find?_append, hfind] using hget

/-- An overlay that is added is listed last. -/
theorem names_of_add (h : s.add name bytes = .ok s') {names : List String}
    (hnames : s.names = .ok names) : s'.names = .ok (names ++ [name]) := by
  rcases add_eq_ok h with ⟨m, rfl, _, rfl⟩ | ⟨d, t, size, rfl, ht, _, rfl⟩
  · cases hnames
    simp [Store.names, MemoryStore.names]
  · simp only [Store.names, Database.names, Database.read, ht, bind, Except.bind] at hnames ⊢
    cases hnames
    rw [List.map_append]
    rfl

/-- Whatever came of asking for an overlay that is listed still comes of it. -/
theorem get_of_add_of_mem (h : s.add name bytes = .ok s') {names : List String}
    (hnames : s.names = .ok names) (hother : other ∈ names) : s'.get other = s.get other := by
  rcases add_eq_ok h with ⟨m, rfl, _, rfl⟩ | ⟨d, t, size, rfl, ht, _, rfl⟩
  · cases hnames
    obtain ⟨o, ho, hname⟩ := List.mem_map.mp hother
    have hsome : (m.overlays.find? fun o => o.1 = other).isSome :=
      List.find?_isSome.mpr ⟨o, ho, by simpa using hname⟩
    simp only [get, MemoryStore.get, List.find?_append, Option.or_of_isSome hsome]
  · simp only [Store.names, Database.names, Database.read, ht, bind, Except.bind] at hnames
    cases hnames
    obtain ⟨r, hr, hname⟩ := List.mem_map.mp hother
    have hsome : (t.rows.find? fun r => r.name = other).isSome :=
      List.find?_isSome.mpr ⟨r, hr, by simpa using hname⟩
    simp only [get, Database.get, Database.read, ht, bind, Except.bind, List.find?_append,
      Option.or_of_isSome hsome]

theorem exists_names_of_add (h : s.add name bytes = .ok s') : ∃ names, s.names = .ok names := by
  rcases add_eq_ok h with ⟨m, rfl, _, _⟩ | ⟨d, t, size, rfl, ht, _, _⟩
  · exact ⟨_, rfl⟩
  · simp only [Store.names, Database.names, Database.read, ht]
    exact ⟨_, rfl⟩

/-! ## The base graph -/

theorem loadBase_of_add (h : s.add name bytes = .ok s') : s'.loadBase = s.loadBase := by
  rcases add_eq_ok h with ⟨m, rfl, _, rfl⟩ | ⟨d, t, size, rfl, ht, _, rfl⟩
  · rfl
  · simp only [loadBase, Database.loadBase, Database.read, ht]
    rfl

/-- Overlays were added to a store: they are listed after those that were there, and are got as
they were added.  Whatever comes of asking for the base graph and for the overlays that were there
is as before. -/
structure Grown (s : Store) (added : List (String × ByteArray)) (s' : Store) : Prop where
  names_eq : s'.names = s.names.map (· ++ added.map Prod.fst)
  get_added : ∀ e ∈ added, s'.get e.1 = .ok e.2
  get_listed : ∀ names, s.names = .ok names → ∀ name ∈ names, s'.get name = s.get name
  loadBase_eq : s'.loadBase = s.loadBase

theorem Grown.refl (s : Store) : s.Grown [] s where
  names_eq := by cases s.names <;> simp [Except.map]
  get_added := by simp
  get_listed := fun _ _ _ _ => rfl
  loadBase_eq := rfl

theorem Grown.add {s₀ : Store} {added : List (String × ByteArray)} (hs : s₀.Grown added s)
    (h : s.add name bytes = .ok s') : s₀.Grown (added ++ [(name, bytes)]) s' := by
  obtain ⟨names, hnames⟩ := exists_names_of_add h
  obtain ⟨first, hfirst, hsplit⟩ : ∃ first, s₀.names = .ok first ∧
      first ++ added.map Prod.fst = names := by
    have hmap := hs.names_eq.symm.trans hnames
    cases hfirst : s₀.names with
    | error e =>
      rw [hfirst] at hmap
      cases hmap
    | ok first =>
      rw [hfirst] at hmap
      exact ⟨first, rfl, Except.ok.inj hmap⟩
  refine ⟨?_, ?_, ?_, (loadBase_of_add h).trans hs.loadBase_eq⟩
  · rw [names_of_add h hnames, hfirst, ← hsplit]
    simp [Except.map]
  · intro e he
    rcases List.mem_append.mp he with he | he
    · exact get_of_add_of_get h (hs.get_added e he)
    · cases List.mem_singleton.mp he
      exact get_of_add h
  · intro listed hlisted other hother
    cases hfirst.symm.trans hlisted
    have hmem : other ∈ names := hsplit ▸ List.mem_append_left _ hother
    exact (get_of_add_of_mem h hnames hmem).trans (hs.get_listed _ hfirst other hother)

/-- What saving a base graph did that succeeded. -/
theorem saveBase_eq_ok {g : Graph} (h : s.saveBase g = .ok s') :
    (∃ m : MemoryStore, s = .memory m ∧ s' = .memory { m with base := some g.toCompactText }) ∨
    ∃ (d : Database) (t : Tables), s = .database d ∧ d.tables = some t ∧
      s' = .database { d with tables := some { t with base := some g.toCompactText } } := by
  cases s with
  | memory m =>
    cases h
    exact .inl ⟨m, rfl, rfl⟩
  | database d =>
    cases ht : d.tables with
    | none => simp only [saveBase, Database.saveBase, Database.read, ht] at h; cases h
    | some t =>
      simp only [saveBase, Database.saveBase, Database.read, ht] at h
      cases h
      exact .inr ⟨d, t, rfl, ht, rfl⟩
  | locked d =>
    simp only [saveBase] at h
    cases hsave : d.saveBase g with
    | error e => rw [hsave] at h; cases h
    | ok d' => rw [hsave] at h; cases h

/-- A base graph is loaded from the text that was saved. -/
theorem loadBase_of_saveBase {g : Graph} (h : s.saveBase g = .ok s') :
    s'.loadBase = (baseOfText g.toCompactText).map some := by
  rcases saveBase_eq_ok h with ⟨m, _, rfl⟩ | ⟨d, t, _, _, rfl⟩
  · rfl
  · rfl

theorem names_of_saveBase {g : Graph} (h : s.saveBase g = .ok s') : s'.names = s.names := by
  rcases saveBase_eq_ok h with ⟨m, rfl, rfl⟩ | ⟨d, t, rfl, ht, rfl⟩
  · rfl
  · simp only [names, Database.names, Database.read, ht]
    rfl

theorem names_of_isEmpty (h : s.isEmpty = .ok true) : s.names = .ok [] := by
  have hdatabase : ∀ {d : Database}, d.isEmpty = .ok true → d.names = .ok [] := by
    intro d hd
    cases ht : d.tables with
    | none => simp only [Database.isEmpty, Database.read, ht] at hd; cases hd
    | some t =>
      simp [Database.isEmpty, Database.names, Database.read, ht, bind, Except.bind, pure,
        Except.pure] at hd ⊢
      exact hd.2
  cases s with
  | memory m =>
    simp [isEmpty, MemoryStore.isEmpty] at h
    simp [names, MemoryStore.names, h.2]
  | database d => exact hdatabase h
  | locked d => exact hdatabase h

/-! ## Replaying -/

/-- Overlays of a store replayed onto a graph, one after the other. -/
def replay (s : Store) (g : Graph) : List String → Except StoreError Graph
  | [] => .ok g
  | name :: names => do
    let overlay ← Overlay.ofBytes (← s.get name)
    match overlay.applyTo g with
    | (g, none) => s.replay g names
    | (_, some e) => .error e

theorem replay_cons_of_eq {o : Overlay} {g g' : Graph} (hget : s.get name = .ok bytes)
    (hread : Overlay.ofBytes bytes = .ok o) (happly : o.applyTo g = (g', none))
    (names : List String) : s.replay g (name :: names) = s.replay g' names := by
  simp only [replay, hget, bind, Except.bind, hread, happly]

/-- What replaying an overlay did before those after it were replayed. -/
theorem replay_cons_eq_ok {g g' : Graph} {names : List String}
    (h : s.replay g (name :: names) = .ok g') : ∃ bytes o g₁,
    s.get name = .ok bytes ∧ Overlay.ofBytes bytes = .ok o ∧ o.applyTo g = (g₁, none) ∧
      s.replay g₁ names = .ok g' := by
  cases hget : s.get name with
  | error e => simp only [replay, hget] at h; cases h
  | ok bytes =>
    cases hread : Overlay.ofBytes bytes with
    | error e => simp only [replay, hget, bind, Except.bind, hread] at h; cases h
    | ok o =>
      cases happly : o.applyTo g with
      | mk g₁ error =>
        cases error with
        | some e => simp only [replay, hget, bind, Except.bind, hread, happly] at h; cases h
        | none =>
          rw [replay_cons_of_eq hget hread happly] at h
          exact ⟨bytes, o, g₁, rfl, hread, happly, h⟩

theorem replay_append {g g₁ : Graph} {ns : List String} (h : s.replay g ns = .ok g₁)
    (ms : List String) : s.replay g (ns ++ ms) = s.replay g₁ ms := by
  induction ns generalizing g with
  | nil =>
    cases h
    rfl
  | cons n ns ih =>
    obtain ⟨bytes, o, g₂, hget, hread, happly, hrest⟩ := replay_cons_eq_ok h
    rw [List.cons_append, replay_cons_of_eq hget hread happly]
    exact ih hrest

/-- What was replayed before an overlay was added is replayed in the same way. -/
theorem replay_of_add (h : s.add name bytes = .ok s') {g g' : Graph} {names : List String}
    (hreplay : s.replay g names = .ok g') : s'.replay g names = .ok g' := by
  induction names generalizing g with
  | nil => exact hreplay
  | cons n names ih =>
    obtain ⟨data, o, g₁, hget, hread, happly, hrest⟩ := replay_cons_eq_ok hreplay
    rw [replay_cons_of_eq (get_of_add_of_get h hget) hread happly]
    exact ih hrest

/-- Replaying overlays leads from every graph of one view to a graph of another. -/
def Replays (s : Store) (names : List String) (v w : View) : Prop :=
  ∀ g : Graph, g.WellFormed → g.view = v →
    ∃ g', s.replay g names = .ok g' ∧ g'.WellFormed ∧ g'.view = w

variable {ns ms : List String} {u v w : View}

theorem replays_nil (s : Store) (v : View) : s.Replays [] v v :=
  fun g hg hview => ⟨g, rfl, hg, hview⟩

theorem Replays.append (hns : s.Replays ns u v) (hms : s.Replays ms v w) :
    s.Replays (ns ++ ms) u w := by
  intro g hg hview
  obtain ⟨g₁, hreplay, hg₁, hview₁⟩ := hns g hg hview
  obtain ⟨g', hreplay', hg', hview'⟩ := hms g₁ hg₁ hview₁
  refine ⟨g', ?_, hg', hview'⟩
  rw [replay_append hreplay]
  exact hreplay'

theorem Replays.of_add (hns : s.Replays ns u v) (h : s.add name bytes = .ok s') :
    s'.Replays ns u v := by
  intro g hg hview
  obtain ⟨g', hreplay, hg', hview'⟩ := hns g hg hview
  exact ⟨g', replay_of_add h hreplay, hg', hview'⟩

/-- An overlay that was added is replayed with its effect. -/
theorem replays_of_add {o : Overlay} (h : s.add name o.toBytes = .ok s')
    (hdepth : ∀ x ∈ o.toDiff.values, x.depth ≤ 122) (heffects : View.Effects o.toDiff.changes v w) :
    s'.Replays [name] v w := by
  rintro g hg rfl
  obtain ⟨g', happly, hg', hview⟩ := Overlay.applyTo_of_effects hg heffects
  have hreplay := replay_cons_of_eq (get_of_add h) (Overlay.ofBytes_toBytes hdepth) happly []
  exact ⟨g', hreplay, hg', hview⟩

/-- The base graph, and all overlays replayed onto it in their order, lead to a view. -/
structure Records (s : Store) (base : Graph) (v : View) : Prop where
  loadBase_eq : s.loadBase = .ok (some base)
  replays : ∃ names, s.names = .ok names ∧ s.Replays names base.view v

theorem Records.add {base : Graph} {o : Overlay} (hs : s.Records base v)
    (h : s.add name o.toBytes = .ok s') (hdepth : ∀ x ∈ o.toDiff.values, x.depth ≤ 122)
    (heffects : View.Effects o.toDiff.changes v w) : s'.Records base w := by
  obtain ⟨names, hnames, hreplays⟩ := hs.replays
  refine ⟨(loadBase_of_add h).trans hs.loadBase_eq, names ++ [name], names_of_add h hnames, ?_⟩
  exact (hreplays.of_add h).append (replays_of_add h hdepth heffects)

/-- A store that was empty before a base graph was saved has a graph of the same view. -/
theorem records_of_saveBase {g : Graph} (hempty : s.isEmpty = .ok true) (hg : g.WellFormed)
    (hsize : g.nodes.cells.size ≤ UInt32.size) (hdepth : ∀ x ∈ g.values, x.depth ≤ 121)
    (h : s.saveBase g = .ok s') : ∃ base, base.WellFormed ∧ s'.Records base g.view := by
  obtain ⟨base, hread, hbase, hview⟩ := hg.read_toCompactText hsize hdepth
  refine ⟨base, hbase, ?_, [], ?_, hview ▸ replays_nil s' base.view⟩
  · rw [loadBase_of_saveBase h, baseOfText, hread]
    rfl
  · rw [names_of_saveBase h, names_of_isEmpty hempty]

end CodeGraph.Store
