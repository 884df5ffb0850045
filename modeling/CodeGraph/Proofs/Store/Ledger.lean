import CodeGraph.Proofs.Codec.Depth
import CodeGraph.Proofs.Store
import Mathlib

/-!
# Stores and a plain ledger

A *ledger* is what a store keeps, without texts, rows and hashes: the base graph
that was saved last, and the overlays in the order in which they were added, no
two of them of one name.  On a ledger every call is a line or two (`Ledger.call`).

A store of either kind is the image of a ledger (`toMemory`, `toDatabase`).  A call
to the image is answered as by the ledger, and leaves the image of the ledger
afterwards.  The two kinds differ in what they take: a database refuses bytes that
are not those of an overlay, a store in memory takes any.

Both kinds keep a base graph as a text.  What they give back is the graph with the
same elements in its slots (`Graph.reloaded`).  A graph that is too deep for a text is
saved all the same, and from then on cannot be loaded (`restoredBase`).

A ledger only grows.  So its answers can be told from the calls made before, without
any state (`StoreCall.answer`).
-/

namespace CodeGraph

/-! ## Calls -/

/-- Commands handled one after the other: the answers, and the state afterwards. -/
def serve {σ κ α : Type} (handle : σ → κ → α × σ) (s : σ) : List κ → List α × σ
  | [] => ([], s)
  | c :: cs =>
    ((handle s c).1 :: (serve handle (handle s c).2 cs).1, (serve handle (handle s c).2 cs).2)

section Serve

variable {σ τ κ α : Type} {handle handle' : σ → κ → α × σ}

theorem serve_append (s : σ) (cs ds : List κ) : serve handle s (cs ++ ds) =
    ((serve handle s cs).1 ++ (serve handle (serve handle s cs).2 ds).1,
      (serve handle (serve handle s cs).2 ds).2) := by
  induction cs generalizing s with
  | nil => rfl
  | cons c cs ih => simp only [List.cons_append, serve, ih]

theorem serve_concat (s : σ) (cs : List κ) (c : κ) :
    (serve handle s (cs ++ [c])).2 = (handle (serve handle s cs).2 c).2 := by
  rw [serve_append]
  rfl

/-- Handlers that agree on the commands at hand. -/
theorem serve_congr {cs : List κ} (h : ∀ c ∈ cs, ∀ s, handle s c = handle' s c) (s : σ) :
    serve handle s cs = serve handle' s cs := by
  induction cs generalizing s with
  | nil => rfl
  | cons c cs ih =>
    simp only [serve, h c List.mem_cons_self]
    rw [ih fun c hc => h c (List.mem_cons_of_mem _ hc)]

/-- What holds of one command on the images of states holds of a run, as long as the states and the
commands are good ones. -/
theorem serve_image {f : σ → τ} {serveImage : τ → κ → α × τ} {Keeps : σ → Prop} {Good : κ → Prop}
    (hkeeps : ∀ s c, Keeps s → Good c → Keeps (handle s c).2)
    (himage : ∀ s c, Keeps s → serveImage (f s) c = ((handle s c).1, f (handle s c).2)) {s : σ}
    (hs : Keeps s) {cs : List κ} (hcs : ∀ c ∈ cs, Good c) :
    serve serveImage (f s) cs = ((serve handle s cs).1, f (serve handle s cs).2) := by
  induction cs generalizing s with
  | nil => rfl
  | cons c cs ih =>
    obtain ⟨hc, hcs⟩ := List.forall_mem_cons.mp hcs
    simp only [serve, himage s c hs, ih (hkeeps s c hs hc) hcs]

/-- What one command keeps is kept by a run. -/
theorem serve_induction (Keeps : List κ → σ → Prop)
    (hstep : ∀ before c s, Keeps before s → Keeps (before ++ [c]) (handle s c).2) {s : σ}
    (hs : Keeps [] s) (cs : List κ) : Keeps cs (serve handle s cs).2 := by
  induction cs using List.reverseRecOn with
  | nil => exact hs
  | append_singleton cs c ih =>
    rw [serve_concat]
    exact hstep cs c _ ih

end Serve

/-- A call to a store. -/
inductive StoreCall where
  /-- A base graph is saved. -/
  | saveBase (g : Graph)
  /-- The base graph is asked for. -/
  | loadBase
  /-- An overlay is added. -/
  | add (name : String) (bytes : ByteArray)
  /-- The bytes of an overlay are asked for. -/
  | get (name : String)
  /-- The names of all overlays are asked for. -/
  | names
  /-- It is asked whether nothing was stored. -/
  | isEmpty

/-- What a call returns. -/
inductive StoreReply where
  | done
  | base (g : Option Graph)
  | bytes (bytes : ByteArray)
  | names (names : List String)
  | truth (b : Bool)

/-- A change that may fail.  Then the state is the one before. -/
def commit {σ : Type} (s : σ) : Except StoreError σ → Except StoreError StoreReply × σ
  | .ok s' => (.ok .done, s')
  | .error e => (.error e, s)

/-- A call to a store in memory. -/
def MemoryStore.call (s : MemoryStore) : StoreCall → Except StoreError StoreReply × MemoryStore
  | .saveBase g => (.ok .done, s.saveBase g)
  | .loadBase => (s.loadBase.map .base, s)
  | .add name bytes => commit s (s.add name bytes)
  | .get name => ((s.get name).map .bytes, s)
  | .names => (.ok (.names s.names), s)
  | .isEmpty => (.ok (.truth s.isEmpty), s)

/-- A call to a database. -/
def Database.call (d : Database) : StoreCall → Except StoreError StoreReply × Database
  | .saveBase g => commit d (d.saveBase g)
  | .loadBase => (d.loadBase.map .base, d)
  | .add name bytes => commit d (d.add name bytes)
  | .get name => ((d.get name).map .bytes, d)
  | .names => (d.names.map .names, d)
  | .isEmpty => (d.isEmpty.map .truth, d)

/-- A graph as it can come about, by operations or from a file: it is consistent, and its slots are
numbered by 32 bits. -/
structure Graph.Storable (g : Graph) : Prop where
  consistent : g.Consistent
  size_le : g.nodes.cells.size ≤ UInt32.size

theorem baseOfText_toCompactText {g : Graph} (hg : g.Storable) : baseOfText g.toCompactText =
    if g.isShallow then .ok g.reloaded else .error .serialization := by
  have hread : Graph.read g.toCompactText = _ := hg.consistent.read_render hg.size_le .compact
  rw [baseOfText, hread]
  cases g.isShallow <;> rfl

/-- Whether a call brings no base graph but one as it can come about. -/
def StoreCall.Brings : StoreCall → Prop
  | .saveBase g => g.Storable
  | _ => True

/-! ## Rows of a database -/

theorem Overlay.ofBytes_eq_error {bytes : ByteArray} {e : StoreError}
    (h : ofBytes bytes = .error e) : e = .serialization := by
  unfold ofBytes at h
  split at h
  · cases h
  · cases h
    rfl

/-- Whether bytes are those of an overlay. -/
def Overlay.reads (bytes : ByteArray) : Bool := (ofBytes bytes).isOk

theorem Overlay.reads_eq_true_iff {bytes : ByteArray} :
    reads bytes = true ↔ ∃ o, ofBytes bytes = .ok o := by
  rw [reads]
  cases ofBytes bytes with
  | error e => simp [Except.isOk, Except.toBool]
  | ok o => simp [Except.isOk, Except.toBool]

namespace Database

/-- The row under a name. -/
def row? (d : Database) (name : String) : Option OverlayRow :=
  d.tables.bind fun t => t.rows.find? fun r => r.name = name

variable {d : Database} {t : Tables} {name : String} {bytes : ByteArray} {o : Overlay}
  {r : OverlayRow}

theorem get_of_row?_eq_none (ht : d.tables = some t) (h : d.row? name = none) :
    d.get name = .error (.overlayNotFound name) := by
  rw [row?, ht, Option.bind_some] at h
  simp only [get, read, ht, bind, Except.bind, h]
  rfl

theorem get_of_row? (h : d.row? name = some r) : d.get name =
    if Digest.contentHash r.data = r.contentHash then .ok r.data else .error (.integrity name) := by
  obtain ⟨t, ht, hfind⟩ := Option.bind_eq_some_iff.mp h
  simp only [get, read, ht, bind, Except.bind, hfind]
  rfl

/-- Bytes that are not those of an overlay are refused before anything else. -/
theorem add_of_refused (h : Overlay.reads bytes = false) :
    d.add name bytes = .error .serialization := by
  cases hread : Overlay.ofBytes bytes with
  | error e =>
    rw [add, hread, Overlay.ofBytes_eq_error hread]
    rfl
  | ok o =>
    rw [Overlay.reads, hread] at h
    cases h

theorem add_of_row? (hread : Overlay.ofBytes bytes = .ok o) (h : d.row? name = some r) :
    d.add name bytes = .error (.duplicateOverlay name) := by
  obtain ⟨t, ht, hfind⟩ := Option.bind_eq_some_iff.mp h
  have hany : (t.rows.any fun r => r.name = name) = true :=
    List.any_eq_true.mpr ⟨r, List.mem_of_find?_eq_some hfind, by simpa using List.find?_some hfind⟩
  simp only [add, hread, read, ht, bind, Except.bind, hany]
  rfl

theorem add_of_row?_eq_none (ht : d.tables = some t) (hread : Overlay.ofBytes bytes = .ok o)
    (h : d.row? name = none) : d.add name bytes = .ok { d with tables := some { t with
      rows := t.rows ++ [⟨name, bytes, o.size, Digest.contentHash bytes⟩] } } := by
  rw [row?, ht, Option.bind_some] at h
  have hany : (t.rows.any fun r => r.name = name) = false := by
    rw [List.any_eq_false]
    exact List.find?_eq_none.mp h
  simp only [add, hread, read, ht, bind, Except.bind, hany]
  rfl

end Database

/-! ## The ledger -/

/-- What is kept by a store. -/
structure Ledger where
  /-- The base graph. -/
  base : Option Graph := none
  /-- The overlays, oldest first. -/
  overlays : List (String × ByteArray) := []
  /-- No two overlays have one name. -/
  nodup : (overlays.map Prod.fst).Nodup := by exact List.nodup_nil

/-- What comes of asking for a base graph.  Its elements come back in their slots, and its edges
count as added in the order of these.  A graph that is too deep does not come back. -/
def restoredBase : Option Graph → Except StoreError StoreReply
  | none => .ok (.base none)
  | some g => if g.isShallow then .ok (.base (some g.reloaded)) else .error .serialization

/-- What comes of asking for an overlay. -/
def foundBytes (name : String) : Option ByteArray → Except StoreError StoreReply
  | none => .error (.overlayNotFound name)
  | some bytes => .ok (.bytes bytes)

namespace Ledger

/-- The names of the overlays. -/
def names (l : Ledger) : List String := l.overlays.map Prod.fst

/-- The ledger with one more overlay. -/
def push (l : Ledger) (name : String) (bytes : ByteArray) (hnew : name ∉ l.names) : Ledger where
  base := l.base
  overlays := l.overlays ++ [(name, bytes)]
  nodup := by
    rw [List.map_append, List.nodup_append]
    refine ⟨l.nodup, List.nodup_singleton name, ?_⟩
    rintro a ha b hb rfl
    cases List.mem_singleton.mp hb
    exact hnew ha

/-- A call to a ledger that takes some bytes and no others. -/
def call (takes : ByteArray → Bool) (l : Ledger) :
    StoreCall → Except StoreError StoreReply × Ledger
  | .saveBase g => (.ok .done, { l with base := some g })
  | .loadBase => (restoredBase l.base, l)
  | .add name bytes =>
    if takes bytes then
      if h : name ∈ l.names then (.error (.duplicateOverlay name), l)
      else (.ok .done, l.push name bytes h)
    else (.error .serialization, l)
  | .get name => (foundBytes name (l.overlays.lookup name), l)
  | .names => (.ok (.names l.names), l)
  | .isEmpty => (.ok (.truth (l.base.isNone && l.overlays.isEmpty)), l)

variable {takes : ByteArray → Bool} {l : Ledger} {name : String} {bytes : ByteArray}

theorem call_add_of_mem (htakes : takes bytes = true) (h : name ∈ l.names) :
    l.call takes (.add name bytes) = (.error (.duplicateOverlay name), l) := by
  rw [call, if_pos htakes, dif_pos h]

theorem call_add_of_not_mem (htakes : takes bytes = true) (h : name ∉ l.names) :
    l.call takes (.add name bytes) = (.ok .done, l.push name bytes h) := by
  rw [call, if_pos htakes, dif_neg h]

theorem call_add_of_refused (htakes : takes bytes = false) :
    l.call takes (.add name bytes) = (.error .serialization, l) := by
  rw [call, if_neg (by simp [htakes])]

/-! ## Stores as images of a ledger -/

/-- The store in memory that keeps a ledger. -/
def toMemory (l : Ledger) : MemoryStore := ⟨l.base.map Graph.toCompactText, l.overlays⟩

/-- The row of an overlay. -/
def rowOf (o : String × ByteArray) : OverlayRow :=
  ⟨o.1, o.2, ((Overlay.ofBytes o.2).toOption.map Overlay.size).getD 0, Digest.contentHash o.2⟩

/-- The database that keeps a ledger. -/
def toDatabase (l : Ledger) : Database where
  tables := some ⟨l.base.map Graph.toCompactText, l.overlays.map rowOf⟩

/-- The first overlay of a name has the bytes that are looked up under it. -/
theorem map_find?_eq_lookup (os : List (String × ByteArray)) (name : String) :
    (os.find? fun o => o.1 = name).map Prod.snd = os.lookup name := by
  induction os with
  | nil => rfl
  | cons o os ih =>
    rw [List.find?_cons, List.lookup_cons]
    by_cases h : o.1 = name
    · simp [h]
    · have hne : (name == o.1) = false := beq_false_of_ne fun heq => h heq.symm
      simp only [h, decide_false, hne, ih]

theorem lookup_eq_none_iff : l.overlays.lookup name = none ↔ name ∉ l.names := by
  rw [List.lookup_eq_none_iff]
  constructor
  · intro h hmem
    obtain ⟨o, ho, rfl⟩ := List.mem_map.mp hmem
    exact absurd rfl (bne_iff_ne.mp (h o ho))
  · intro h o ho
    exact bne_iff_ne.mpr fun hname => h (hname ▸ List.mem_map_of_mem ho)

/-- The base graph of a ledger is one as it can come about. -/
def Holds (l : Ledger) : Prop := ∀ g, l.base = some g → g.Storable

theorem Holds.call (hl : l.Holds) {c : StoreCall} (hc : c.Brings) : (l.call takes c).2.Holds := by
  cases c with
  | saveBase g =>
    rintro _ ⟨⟩
    exact hc
  | add name bytes =>
    cases htakes : takes bytes with
    | false => rwa [call_add_of_refused htakes]
    | true =>
      by_cases hname : name ∈ l.names
      · rwa [call_add_of_mem htakes hname]
      · rwa [call_add_of_not_mem htakes hname]
  | loadBase => exact hl
  | get name => exact hl
  | names => exact hl
  | isEmpty => exact hl

theorem call_toMemory (hl : l.Holds) (c : StoreCall) :
    l.toMemory.call c = ((l.call (fun _ => true) c).1, (l.call (fun _ => true) c).2.toMemory) := by
  cases c with
  | saveBase g => rfl
  | loadBase =>
    refine congrArg (·, l.toMemory) ?_
    simp only [MemoryStore.loadBase, toMemory, call]
    cases hbase : l.base with
    | none => rfl
    | some g =>
      simp only [Option.map_some, restoredBase, baseOfText_toCompactText (hl g hbase)]
      cases g.isShallow <;> rfl
  | add name bytes =>
    have hadd : l.toMemory.add name bytes = if name ∈ l.names then .error (.duplicateOverlay name)
        else .ok { l.toMemory with overlays := l.overlays ++ [(name, bytes)] } := by
      have hany : (l.overlays.any fun o => o.1 = name) = decide (name ∈ l.names) := by
        rw [Bool.eq_iff_iff, List.any_eq_true, decide_eq_true_iff, names, List.mem_map]
        simp only [decide_eq_true_iff]
      simp only [MemoryStore.add, toMemory, hany, decide_eq_true_iff]
    by_cases h : name ∈ l.names
    · rw [call_add_of_mem rfl h, MemoryStore.call, hadd, if_pos h]
      rfl
    · rw [call_add_of_not_mem rfl h, MemoryStore.call, hadd, if_neg h]
      rfl
  | get name =>
    refine congrArg (·, l.toMemory) ?_
    simp only [MemoryStore.get, toMemory, call, ← map_find?_eq_lookup]
    cases l.overlays.find? fun o => o.1 = name <;> rfl
  | names => rfl
  | isEmpty => simp [MemoryStore.call, MemoryStore.isEmpty, call, toMemory]

theorem row?_toDatabase (l : Ledger) (name : String) :
    l.toDatabase.row? name = (l.overlays.lookup name).map fun bytes => rowOf (name, bytes) := by
  have hfind : l.toDatabase.row? name = (l.overlays.find? fun o => o.1 = name).map rowOf :=
    List.find?_map
  rw [hfind, ← map_find?_eq_lookup]
  cases h : l.overlays.find? fun o => o.1 = name with
  | none => rfl
  | some o =>
    have hname : o.1 = name := by simpa using List.find?_some h
    rw [← hname]
    rfl

theorem call_toDatabase (hl : l.Holds) (c : StoreCall) :
    l.toDatabase.call c =
      ((l.call Overlay.reads c).1, (l.call Overlay.reads c).2.toDatabase) := by
  cases c with
  | saveBase g => rfl
  | loadBase =>
    refine congrArg (·, l.toDatabase) ?_
    simp only [Database.loadBase, Database.read, toDatabase, call, bind, Except.bind]
    cases hbase : l.base with
    | none => rfl
    | some g =>
      simp only [Option.map_some, restoredBase, baseOfText_toCompactText (hl g hbase)]
      cases g.isShallow <;> rfl
  | add name bytes =>
    cases hread : Overlay.ofBytes bytes with
    | error e =>
      have hrefused : Overlay.reads bytes = false := by rw [Overlay.reads, hread]; rfl
      rw [call_add_of_refused hrefused, Database.call, Database.add_of_refused hrefused]
      rfl
    | ok o =>
      have htakes := Overlay.reads_eq_true_iff.mpr ⟨o, hread⟩
      cases hlookup : l.overlays.lookup name with
      | some earlier =>
        have h : name ∈ l.names := by
          by_contra h
          rw [lookup_eq_none_iff.mpr h] at hlookup
          cases hlookup
        have hrow : l.toDatabase.row? name = some (rowOf (name, earlier)) := by
          rw [row?_toDatabase, hlookup]; rfl
        rw [call_add_of_mem htakes h, Database.call, Database.add_of_row? hread hrow]
        rfl
      | none =>
        have h : name ∉ l.names := lookup_eq_none_iff.mp hlookup
        have hrow : l.toDatabase.row? name = none := by rw [row?_toDatabase, hlookup]; rfl
        rw [call_add_of_not_mem htakes h, Database.call,
          Database.add_of_row?_eq_none rfl hread hrow]
        simp [commit, toDatabase, push, rowOf, hread, Except.toOption]
  | get name =>
    refine congrArg (·, l.toDatabase) ?_
    simp only [call]
    cases hlookup : l.overlays.lookup name with
    | none =>
      have hrow : l.toDatabase.row? name = none := by rw [row?_toDatabase, hlookup]; rfl
      rw [Database.get_of_row?_eq_none rfl hrow]
      rfl
    | some bytes =>
      have hrow : l.toDatabase.row? name = some (rowOf (name, bytes)) := by
        rw [row?_toDatabase, hlookup]; rfl
      rw [Database.get_of_row? hrow, if_pos (by rfl)]
      rfl
  | names =>
    refine congrArg (·, l.toDatabase) ?_
    simp [Database.names, Database.read, toDatabase, call, bind, Except.bind, pure, Except.pure,
      Except.map, rowOf, names, Function.comp_def]
  | isEmpty =>
    refine congrArg (·, l.toDatabase) ?_
    simp [Database.isEmpty, Database.read, toDatabase, call, bind, Except.bind, pure, Except.pure,
      Except.map]

end Ledger

/-! ## Answers told from the calls before -/

namespace StoreCall

/-- The base graph that a call saves. -/
def saved? : StoreCall → Option Graph
  | .saveBase g => some g
  | _ => none

/-- The overlay that a call adds, if its bytes are taken. -/
def added? (takes : ByteArray → Bool) : StoreCall → Option (String × ByteArray)
  | .add name bytes => if takes bytes then some (name, bytes) else none
  | _ => none

/-- The base graphs that calls saved, in their order. -/
def saves (calls : List StoreCall) : List Graph := calls.filterMap saved?

/-- The overlays that calls added or tried to add again, in their order. -/
def adds (takes : ByteArray → Bool) (calls : List StoreCall) : List (String × ByteArray) :=
  calls.filterMap (added? takes)

/-- The answer to a call after other calls.  An overlay has the bytes that were added first, and
names are listed as they first came up. -/
def answer (takes : ByteArray → Bool) (before : List StoreCall) :
    StoreCall → Except StoreError StoreReply
  | .saveBase _ => .ok .done
  | .loadBase => restoredBase (saves before).getLast?
  | .add name bytes =>
    if takes bytes then
      if name ∈ (adds takes before).map Prod.fst then .error (.duplicateOverlay name)
      else .ok .done
    else .error .serialization
  | .get name => foundBytes name ((adds takes before).lookup name)
  | .names => .ok (.names ((adds takes before).map Prod.fst).eraseDups)
  | .isEmpty => .ok (.truth ((saves before).isEmpty && (adds takes before).isEmpty))

/-- The answers to calls made one after the other, after other calls. -/
def answersFrom (takes : ByteArray → Bool) (before : List StoreCall) :
    List StoreCall → List (Except StoreError StoreReply)
  | [] => []
  | c :: calls => answer takes before c :: answersFrom takes (before ++ [c]) calls

end StoreCall

namespace Ledger

open StoreCall

variable {takes : ByteArray → Bool} {l : Ledger} {calls : List StoreCall}

/-- A ledger holds what some calls have left in it. -/
structure Recalls (takes : ByteArray → Bool) (calls : List StoreCall) (l : Ledger) : Prop where
  base : l.base = (saves calls).getLast?
  names : l.names = ((adds takes calls).map Prod.fst).eraseDups
  lookup : ∀ name, l.overlays.lookup name = (adds takes calls).lookup name

theorem recalls_empty (takes : ByteArray → Bool) : Recalls takes [] {} :=
  ⟨rfl, rfl, fun _ => rfl⟩

/-- A call that saves and adds nothing leaves nothing. -/
theorem Recalls.concat (h : Recalls takes calls l) {c : StoreCall} (hsaved : c.saved? = none)
    (hadded : c.added? takes = none) : Recalls takes (calls ++ [c]) l := by
  have hsaves : saves (calls ++ [c]) = saves calls := by simp [saves, hsaved]
  have hadds : adds takes (calls ++ [c]) = adds takes calls := by simp [adds, hadded]
  exact ⟨hsaves ▸ h.base, hadds ▸ h.names, hadds ▸ h.lookup⟩

theorem eraseDups_concat (names : List String) (name : String) : (names ++ [name]).eraseDups =
    if name ∈ names then names.eraseDups else names.eraseDups ++ [name] := by
  rw [List.eraseDups_append]
  by_cases h : name ∈ names <;> simp [List.removeAll, h, List.eraseDups_cons]

theorem Recalls.mem_names (h : Recalls takes calls l) {name : String} :
    name ∈ l.names ↔ name ∈ (adds takes calls).map Prod.fst := by
  rw [h.names, List.mem_eraseDups]

theorem Recalls.call (h : Recalls takes calls l) (c : StoreCall) :
    Recalls takes (calls ++ [c]) (l.call takes c).2 := by
  cases c with
  | saveBase g =>
    have hadds : adds takes (calls ++ [.saveBase g]) = adds takes calls := by
      simp [adds, added?]
    exact ⟨by simp [Ledger.call, saves, saved?], hadds ▸ h.names, hadds ▸ h.lookup⟩
  | add name bytes =>
    cases htakes : takes bytes with
    | false =>
      rw [call_add_of_refused htakes]
      exact h.concat rfl (by simp [added?, htakes])
    | true =>
      have hsaves : saves (calls ++ [.add name bytes]) = saves calls := by simp [saves, saved?]
      have hadds : adds takes (calls ++ [.add name bytes]) =
          adds takes calls ++ [(name, bytes)] := by
        simp [adds, added?, htakes]
      by_cases hname : name ∈ l.names
      · rw [call_add_of_mem htakes hname]
        refine ⟨hsaves ▸ h.base, ?_, fun other => ?_⟩
        · rw [hadds, List.map_append, List.map_singleton, eraseDups_concat,
            if_pos (h.mem_names.mp hname), h.names]
        · rw [hadds, List.lookup_append, ← h.lookup]
          cases hother : l.overlays.lookup other with
          | some earlier => rfl
          | none =>
            have hne : (other == name) = false :=
              beq_false_of_ne fun heq => lookup_eq_none_iff.mp hother (heq ▸ hname)
            simp [List.lookup_cons, hne]
      · rw [call_add_of_not_mem htakes hname]
        refine ⟨hsaves ▸ h.base, ?_, fun other => ?_⟩
        · rw [hadds, List.map_append, List.map_singleton, eraseDups_concat,
            if_neg (h.mem_names.not.mp hname), ← h.names]
          simp [Ledger.names, push]
        · rw [hadds, List.lookup_append, ← h.lookup, push, List.lookup_append]
  | loadBase => exact h.concat rfl rfl
  | get name => exact h.concat rfl rfl
  | names => exact h.concat rfl rfl
  | isEmpty => exact h.concat rfl rfl

/-- The answers of a ledger are told from the calls it recalls. -/
theorem Recalls.call_fst (h : Recalls takes calls l) (c : StoreCall) :
    (l.call takes c).1 = answer takes calls c := by
  cases c with
  | saveBase g => rfl
  | loadBase => rw [Ledger.call, answer, h.base]
  | add name bytes =>
    cases htakes : takes bytes with
    | false => rw [call_add_of_refused htakes, answer, if_neg (by simp [htakes])]
    | true =>
      rw [answer, if_pos htakes]
      by_cases hname : name ∈ l.names
      · rw [call_add_of_mem htakes hname, if_pos (h.mem_names.mp hname)]
      · rw [call_add_of_not_mem htakes hname, if_neg (h.mem_names.not.mp hname)]
  | get name => rw [Ledger.call, answer, h.lookup]
  | names => rw [Ledger.call, answer, h.names]
  | isEmpty =>
    have hbase : l.base.isNone = (saves calls).isEmpty := by
      rw [h.base, Bool.eq_iff_iff, Option.isNone_iff_eq_none, List.getLast?_eq_none_iff,
        List.isEmpty_iff]
    have hoverlays : l.overlays.isEmpty = (adds takes calls).isEmpty := by
      have hnames : l.names = [] ↔ (adds takes calls).map Prod.fst = [] := by
        simp only [List.eq_nil_iff_forall_not_mem, h.mem_names]
      rw [Ledger.names, List.map_eq_nil_iff, List.map_eq_nil_iff] at hnames
      rw [Bool.eq_iff_iff, List.isEmpty_iff, List.isEmpty_iff, hnames]
    rw [Ledger.call, answer, hbase, hoverlays]

theorem Recalls.serve_fst (h : Recalls takes calls l) (more : List StoreCall) :
    (serve (Ledger.call takes) l more).1 = answersFrom takes calls more := by
  induction more generalizing calls l with
  | nil => rfl
  | cons c more ih => rw [serve, answersFrom, h.call_fst, ih (h.call c)]

theorem call_snd_of_error {e : StoreError} {c : StoreCall} (h : (l.call takes c).1 = .error e) :
    (l.call takes c).2 = l := by
  cases c with
  | saveBase g => cases h
  | add name bytes =>
    cases htakes : takes bytes with
    | false => rw [call_add_of_refused htakes]
    | true =>
      by_cases hname : name ∈ l.names
      · rw [call_add_of_mem htakes hname]
      · rw [call_add_of_not_mem htakes hname] at h
        cases h
  | loadBase => rfl
  | get name => rfl
  | names => rfl
  | isEmpty => rfl

/-- The ledger after some calls. -/
def after (takes : ByteArray → Bool) (calls : List StoreCall) : Ledger :=
  (serve (Ledger.call takes) {} calls).2

theorem recalls_after (takes : ByteArray → Bool) (calls : List StoreCall) :
    Recalls takes calls (after takes calls) :=
  serve_induction (Recalls takes) (fun _ c _ h => h.call c) (recalls_empty takes) calls

theorem takes_of_call (h : ∀ o ∈ l.overlays, takes o.2 = true) (c : StoreCall) :
    ∀ o ∈ (l.call takes c).2.overlays, takes o.2 = true := by
  cases c with
  | add name bytes =>
    cases htakes : takes bytes with
    | false => rwa [call_add_of_refused htakes]
    | true =>
      by_cases hname : name ∈ l.names
      · rwa [call_add_of_mem htakes hname]
      · rw [call_add_of_not_mem htakes hname]
        intro o ho
        rcases List.mem_append.mp ho with ho | ho
        · exact h o ho
        · cases List.mem_singleton.mp ho
          exact htakes
  | saveBase g => exact h
  | loadBase => exact h
  | get name => exact h
  | names => exact h
  | isEmpty => exact h

/-- All overlays of a ledger have bytes that it takes. -/
theorem takes_of_mem_after : ∀ o ∈ (after takes calls).overlays, takes o.2 = true :=
  serve_induction (fun _ (l : Ledger) => ∀ o ∈ l.overlays, takes o.2 = true)
    (fun _ c _ h => takes_of_call h c) (fun _ ho => absurd ho List.not_mem_nil) calls

/-- Bytes that can be got once are got for ever. -/
theorem lookup_after_append {name : String} {bytes : ByteArray}
    (h : (after takes calls).overlays.lookup name = some bytes) (more : List StoreCall) :
    (after takes (calls ++ more)).overlays.lookup name = some bytes := by
  rw [(recalls_after takes calls).lookup] at h
  rw [(recalls_after takes _).lookup, adds, List.filterMap_append, List.lookup_append, ← adds, h]
  rfl

end Ledger

/-- What is listed of an overlay: its name, the number of its entries and the hash of its bytes. -/
def OverlayInfo.Describes (i : OverlayInfo) (o : String × ByteArray) : Prop :=
  ∃ overlay, Overlay.ofBytes o.2 = .ok overlay ∧ i = ⟨o.1, overlay.size, Digest.contentHash o.2⟩

namespace Ledger

theorem infos_toDatabase (l : Ledger) (h : ∀ o ∈ l.overlays, Overlay.reads o.2 = true) :
    ∃ infos, l.toDatabase.infos = .ok infos ∧ infos.Forall₂ OverlayInfo.Describes l.overlays := by
  refine ⟨(l.overlays.map rowOf).map fun r => ⟨r.name, r.entryCount, r.contentHash⟩, rfl, ?_⟩
  rw [List.map_map, List.forall₂_map_left_iff, List.forall₂_same]
  intro o ho
  obtain ⟨overlay, hread⟩ := Overlay.reads_eq_true_iff.mp (h o ho)
  exact ⟨overlay, hread, by simp [rowOf, hread, Except.toOption]⟩

theorem holds_empty : Holds {} := fun _ h => by cases h

theorem serve_toDatabase {calls : List StoreCall} (hcalls : ∀ c ∈ calls, c.Brings) :
    serve Database.call {} calls =
      ((serve (Ledger.call Overlay.reads) {} calls).1, (after Overlay.reads calls).toDatabase) :=
  serve_image (f := toDatabase) (fun _ _ hl hc => Holds.call hl hc)
    (fun _ c hl => call_toDatabase hl c) holds_empty hcalls

theorem serve_toMemory {calls : List StoreCall} (hcalls : ∀ c ∈ calls, c.Brings) :
    serve MemoryStore.call {} calls =
      ((serve (Ledger.call fun _ => true) {} calls).1, (after (fun _ => true) calls).toMemory) :=
  serve_image (f := toMemory) (fun _ _ hl hc => Holds.call hl hc)
    (fun _ c hl => call_toMemory hl c) holds_empty hcalls

end Ledger

/-- What is known of both kinds of stores, from the ledger of the same calls. -/
structure AnswersAsLedger (calls : List StoreCall) : Prop where
  /-- A database gives the answers of the ledger and keeps what it keeps. -/
  database : serve Database.call {} calls =
    ((serve (Ledger.call Overlay.reads) {} calls).1, (Ledger.after Overlay.reads calls).toDatabase)
  /-- So does a store in memory, where all bytes that are added are those of overlays. -/
  memory : (∀ name bytes, .add name bytes ∈ calls → Overlay.reads bytes = true) →
    serve MemoryStore.call {} calls =
      ((serve (Ledger.call Overlay.reads) {} calls).1, (Ledger.after Overlay.reads calls).toMemory)
  /-- The answers are those told from the calls before. -/
  told : (serve (Ledger.call Overlay.reads) {} calls).1 =
    StoreCall.answersFrom Overlay.reads [] calls
  /-- A call that fails changes nothing. -/
  unchanged : ∀ c e, ((Ledger.after Overlay.reads calls).call Overlay.reads c).1 = .error e →
    ((Ledger.after Overlay.reads calls).call Overlay.reads c).2 = Ledger.after Overlay.reads calls
  /-- A database refuses bytes that are not those of an overlay, and stays as it is. -/
  refused : ∀ name bytes, Overlay.reads bytes = false →
    (Ledger.after Overlay.reads calls).toDatabase.call (.add name bytes) =
      (.error .serialization, (Ledger.after Overlay.reads calls).toDatabase)
  /-- Bytes that were stored are never changed. -/
  lasting : ∀ name bytes more,
    (Ledger.after Overlay.reads calls).overlays.lookup name = some bytes →
    (Ledger.after Overlay.reads (calls ++ more)).overlays.lookup name = some bytes
  /-- The overlays are listed with the numbers of their entries and their hashes. -/
  infos : ∃ infos, (Ledger.after Overlay.reads calls).toDatabase.infos = .ok infos ∧
    infos.Forall₂ OverlayInfo.Describes (Ledger.after Overlay.reads calls).overlays
  /-- A base graph that is given back has the content of the one that was saved, the same elements
  in its slots, and the same id to hand out next. -/
  base : ∀ g, (Ledger.after Overlay.reads calls).base = some g →
    g.reloaded.content = g.content ∧ g.reloaded.SameSlots g ∧ g.reloaded.nextId = g.nextId

theorem stores_answer_as_ledger (calls : List StoreCall)
    (hbase : ∀ g, .saveBase g ∈ calls → g.Storable) : AnswersAsLedger calls := by
  have hbrings : ∀ c ∈ calls, c.Brings := by
    intro c hc
    cases c with
    | saveBase g => exact hbase g hc
    | _ => exact trivial
  refine
    { database := Ledger.serve_toDatabase hbrings
      memory := fun hreads => ?_
      told := (Ledger.recalls_empty Overlay.reads).serve_fst calls
      unchanged := fun _ _ => Ledger.call_snd_of_error
      refused := fun name bytes hrefused => ?_
      lasting := fun _ _ more h => Ledger.lookup_after_append h more
      infos := (Ledger.after Overlay.reads calls).infos_toDatabase Ledger.takes_of_mem_after
      base := fun g _ => ⟨g.sameSlots_reloaded.content_eq, g.sameSlots_reloaded, rfl⟩ }
  · -- where nothing is refused, a ledger that takes everything does the same
    have hsame : ∀ c ∈ calls, ∀ l : Ledger, l.call Overlay.reads c = l.call (fun _ => true) c := by
      intro c hc l
      cases c with
      | add name bytes => rw [Ledger.call, Ledger.call, hreads name bytes hc]
      | saveBase g => rfl
      | loadBase => rfl
      | get name => rfl
      | names => rfl
      | isEmpty => rfl
    rw [Ledger.after, serve_congr hsame {}]
    exact Ledger.serve_toMemory hbrings
  · rw [Database.call, Database.add_of_refused hrefused]
    rfl

/-- A name that clashes between two base graphs, and a name that was never added. -/
def clash : List StoreCall :=
  [.add "b" "[[]]".toUTF8, .add "a" "[[ ]]".toUTF8, .saveBase .empty, .add "b" "[ []]".toUTF8,
    .saveBase (Graph.empty.place ⟨⟨7⟩, .block, {}⟩), .get "b", .get "c",
    .names, .loadBase, .isEmpty]

theorem clash_answered_alike :
    (∀ g, .saveBase g ∈ clash → g.Storable) ∧
    (∀ name bytes, .add name bytes ∈ clash → Overlay.reads bytes = true) ∧
    (serve MemoryStore.call {} clash).1 = (serve Database.call {} clash).1 ∧
    (serve Database.call {} clash).1.map Except.isOk =
      [true, true, true, false, true, true, false, true, true, true] ∧
    (serve Database.call {} clash).2.add "b" "[ []]".toUTF8 = .error (.duplicateOverlay "b") ∧
    (serve Database.call {} clash).2.names = .ok ["b", "a"] ∧
    (serve Database.call {} clash).2.isEmpty = .ok false := by
  have hbase : ∀ g, .saveBase g ∈ clash → g.Storable := by
    intro g h
    simp only [clash, List.mem_cons, StoreCall.saveBase.injEq, reduceCtorEq, List.not_mem_nil,
      or_false, false_or] at h
    rcases h with rfl | rfl
    · exact ⟨Graph.consistent_empty, by decide⟩
    · exact ⟨Graph.consistent_empty.place _, by decide⟩
  have hreads : ∀ name bytes, .add name bytes ∈ clash → Overlay.reads bytes = true := by
    intro name bytes h
    simp only [clash, List.mem_cons, StoreCall.add.injEq, reduceCtorEq, List.not_mem_nil, or_false,
      false_or] at h
    rcases h with ⟨_, rfl⟩ | ⟨_, rfl⟩ | ⟨_, rfl⟩ <;> decide +kernel
  refine ⟨hbase, hreads, ?_, by decide +kernel, by decide +kernel, by decide +kernel,
    by decide +kernel⟩
  have hanswers := stores_answer_as_ledger clash hbase
  rw [hanswers.memory hreads, hanswers.database]

/-- Lists inside each other, `n + 1` of them. -/
def nested : Nat → PropertyValue
  | 0 => .list []
  | n + 1 => .list [nested n]

/-- A graph of one node with 123 lists inside each other, which is one more than a text can have
there. -/
def tooDeep : Graph := Graph.empty.place ⟨⟨1⟩, .block, .ofList [("x", nested 122)]⟩

/-- The graph is saved in both kinds of stores, and then it cannot be loaded. -/
theorem tooDeep_is_lost : tooDeep.Storable ∧
    (serve Database.call {} [.saveBase tooDeep, .loadBase]).1 =
      [.ok .done, .error .serialization] ∧
    (serve MemoryStore.call {} [.saveBase tooDeep, .loadBase]).1 =
      [.ok .done, .error .serialization] := by
  have hstorable : tooDeep.Storable := ⟨Graph.consistent_empty.place _, by decide +kernel⟩
  have hdeep : tooDeep.isShallow = false := by decide +kernel
  have hbrings : ∀ c ∈ [StoreCall.saveBase tooDeep, .loadBase], c.Brings :=
    List.forall_mem_cons.mpr ⟨hstorable, List.forall_mem_singleton.mpr trivial⟩
  have hanswers : ∀ takes, (serve (Ledger.call takes) {} [.saveBase tooDeep, .loadBase]).1 =
      [.ok .done, .error .serialization] := by
    intro takes
    simp only [serve, Ledger.call, restoredBase, hdeep]
    rfl
  exact ⟨hstorable, by rw [Ledger.serve_toDatabase hbrings, hanswers],
    by rw [Ledger.serve_toMemory hbrings, hanswers]⟩

end CodeGraph
