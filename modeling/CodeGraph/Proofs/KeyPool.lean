import CodeGraph.Proofs.Diff.Commute
import Mathlib

/-!
# Pools that share a range

`KeyPool.split` cuts a range into pools.  Where it cuts is said by natural numbers (`cutAt`), and
the 64-bit numbers that it computes on the way are these numbers (`SplitExact`).  That the pools
follow each other, do not meet and leave nothing out is then a matter of the cuts alone.

Any number of clients may ask any of the pools.  A call is a single step, so all that the clients do
is one list of calls, in the order in which they take effect (`serve`).  A pool does not know its
clients: its answer to a call depends on how often it was asked before (`answerAt`).
-/

namespace CodeGraph.KeyPool

variable {start stop parts : UInt64} {p q : KeyPool} {i j : Nat}

/-! ## Cutting a range -/

/-- The number of ids of every part but the last. -/
def width (start stop parts : UInt64) : Nat := (stop.toNat - start.toNat) / parts.toNat

/-- Where part `i` begins and the part before it ends. -/
def cutAt (start stop parts : UInt64) (i : Nat) : Nat :=
  if i = parts.toNat then stop.toNat else start.toNat + i * width start stop parts

/-- The numbers that are computed for part `i` are too small to wrap around. -/
structure SplitExact (start stop parts i : UInt64) : Prop where
  sub : start.toNat + (stop - start).toNat = stop.toNat
  div : ((stop - start) / parts).toNat = width start stop parts
  mul : (i * ((stop - start) / parts)).toNat = i.toNat * width start stop parts
  lo : (start + i * ((stop - start) / parts)).toNat =
    start.toNat + i.toNat * width start stop parts
  succ : (i + 1).toNat = i.toNat + 1
  /-- The end is computed for every part but the last. -/
  hi : i + 1 ≠ parts →
    (start + i * ((stop - start) / parts) + (stop - start) / parts).toNat =
      start.toNat + i.toNat * width start stop parts + width start stop parts

theorem mul_width_le (hi : i ≤ parts.toNat) :
    i * width start stop parts ≤ stop.toNat - start.toNat :=
  (Nat.mul_le_mul_right _ hi).trans (Nat.mul_div_le _ _)

theorem splitExact (hle : start ≤ stop) {i : UInt64} (hi : i < parts) :
    SplitExact start stop parts i := by
  rw [UInt64.le_iff_toNat_le] at hle
  rw [UInt64.lt_iff_toNat_lt] at hi
  have hstop := stop.toNat_lt
  have hparts := parts.toNat_lt
  have hone : (1 : UInt64).toNat = 1 := rfl
  have hsub : (stop - start).toNat = stop.toNat - start.toNat := UInt64.toNat_sub_of_le _ _ hle
  have hdiv : ((stop - start) / parts).toNat = width start stop parts := by
    rw [UInt64.toNat_div, hsub, width]
  have hbelow : i.toNat * width start stop parts ≤ stop.toNat - start.toNat :=
    mul_width_le hi.le
  have habove : (i.toNat + 1) * width start stop parts ≤ stop.toNat - start.toNat :=
    mul_width_le hi
  rw [Nat.add_mul, Nat.one_mul] at habove
  have hmul : (i * ((stop - start) / parts)).toNat = i.toNat * width start stop parts := by
    rw [UInt64.toNat_mul, hdiv, Nat.mod_eq_of_lt (by omega)]
  have hlo : (start + i * ((stop - start) / parts)).toNat =
      start.toNat + i.toNat * width start stop parts := by
    rw [UInt64.toNat_add, hmul, Nat.mod_eq_of_lt (by omega)]
  refine ⟨by omega, hdiv, hmul, hlo, ?_, fun _ => ?_⟩
  · rw [UInt64.toNat_add, hone, Nat.mod_eq_of_lt (by omega)]
  · rw [UInt64.toNat_add, hlo, hdiv, Nat.mod_eq_of_lt (by omega)]

theorem cutAt_zero (start stop : UInt64) (hparts : 0 < parts) :
    cutAt start stop parts 0 = start.toNat := by
  have hne : 0 ≠ parts.toNat := Nat.ne_of_lt (UInt64.lt_iff_toNat_lt.mp hparts)
  rw [cutAt, if_neg hne, Nat.zero_mul, Nat.add_zero]

theorem cutAt_parts (start stop parts : UInt64) :
    cutAt start stop parts parts.toNat = stop.toNat :=
  if_pos rfl

/-- No part ends before it begins. -/
theorem cutAt_le_succ (hle : start ≤ stop) (hi : i < parts.toNat) :
    cutAt start stop parts i ≤ cutAt start stop parts (i + 1) := by
  rw [UInt64.le_iff_toNat_le] at hle
  have hbelow : i * width start stop parts ≤ stop.toNat - start.toNat := mul_width_le hi.le
  rw [cutAt, if_neg (Nat.ne_of_lt hi), cutAt]
  split
  · omega
  · rw [Nat.add_mul]
    omega

theorem cutAt_mono (hle : start ≤ stop) (hij : i ≤ j) (hj : j ≤ parts.toNat) :
    cutAt start stop parts i ≤ cutAt start stop parts j := by
  induction j, hij using Nat.le_induction with
  | base => exact Nat.le_refl _
  | succ j hij ih => exact (ih (Nat.le_of_succ_le hj)).trans (cutAt_le_succ hle hj)

/-- A number between two cuts is in one of the parts between them. -/
theorem exists_between_cuts {n m : Nat} (hlo : cutAt start stop parts 0 ≤ n)
    (hhi : n < cutAt start stop parts m) :
    ∃ i < m, cutAt start stop parts i ≤ n ∧ n < cutAt start stop parts (i + 1) := by
  induction m with
  | zero => omega
  | succ m ih =>
    by_cases hm : n < cutAt start stop parts m
    · obtain ⟨i, hi, hin⟩ := ih hm
      exact ⟨i, Nat.lt_succ_of_lt hi, hin⟩
    · exact ⟨m, Nat.lt_succ_self m, Nat.le_of_not_lt hm, hhi⟩

/-- The bounds of a part are two cuts that follow each other. -/
theorem toNat_partBounds (hle : start ≤ stop) (hi : i < parts.toNat) :
    (partBounds start stop ((stop - start) / parts) parts (UInt64.ofNat i)).1.toNat =
        cutAt start stop parts i ∧
      (partBounds start stop ((stop - start) / parts) parts (UInt64.ofNat i)).2.toNat =
        cutAt start stop parts (i + 1) := by
  have hnat : (UInt64.ofNat i).toNat = i :=
    UInt64.toNat_ofNat_of_lt' (hi.trans parts.toNat_lt)
  have hexact : SplitExact start stop parts (UInt64.ofNat i) :=
    splitExact hle (by rwa [UInt64.lt_iff_toNat_lt, hnat])
  have hlast : UInt64.ofNat i + 1 = parts ↔ i + 1 = parts.toNat := by
    rw [← UInt64.toNat_inj, hexact.succ, hnat]
  constructor
  · rw [cutAt, if_neg (Nat.ne_of_lt hi)]
    exact hexact.lo.trans (by rw [hnat])
  · rw [cutAt]
    dsimp only [partBounds]
    by_cases hend : i + 1 = parts.toNat
    · rw [if_pos (hlast.mpr hend), if_pos hend]
    · rw [if_neg (mt hlast.mp hend), if_neg hend, hexact.hi (mt hlast.mp hend), hnat]
      ring

/-- The pools into which a range is cut. -/
structure Cuts (start stop parts : UInt64) (pools : List KeyPool) : Prop where
  length_eq : pools.length = parts.toNat
  exact : ∀ i < parts, SplitExact start stop parts i
  /-- All parts are of one width, and the last takes the rest. -/
  bounds : ∀ i p, pools[i]? = some p →
    p.start.toNat = cutAt start stop parts i ∧ p.stop.toNat = cutAt start stop parts (i + 1)
  /-- Nothing was handed out. -/
  fresh : ∀ p ∈ pools, p.cursor = p.start
  head : ∃ p, pools.head? = some p ∧ p.start = start
  last : ∃ p, pools.getLast? = some p ∧ p.stop = stop
  contiguous : pools.IsChain fun p q => p.stop = q.start
  disjoint : pools.Pairwise fun p q => p.stop ≤ q.start ∧ ∀ id, ¬ (p.Owns id ∧ q.Owns id)
  covers : ∀ id : NodeId, (start ≤ id.value ∧ id.value < stop) ↔ ∃ p ∈ pools, p.Owns id

/-! ## The pools of a split -/

/-- The pool of part `i`. -/
def part (start stop parts : UInt64) (i : Nat) : Except GraphError KeyPool :=
  new (partBounds start stop ((stop - start) / parts) parts (UInt64.ofNat i)).1
    (partBounds start stop ((stop - start) / parts) parts (UInt64.ofNat i)).2

theorem split_eq (hle : start ≤ stop) (hparts : 0 < parts) :
    split start stop parts = (List.range parts.toNat).mapM (part start stop parts) := by
  have hnot : ¬ (parts = 0 ∨ stop < start) := by
    rintro (rfl | hlt)
    · exact UInt64.lt_irrefl 0 hparts
    · exact UInt64.not_lt.mpr hle hlt
  rw [split, if_neg hnot]
  rfl

/-- A part is a new pool between two cuts that follow each other. -/
theorem exists_part (hle : start ≤ stop) (hi : i < parts.toNat) :
    ∃ p, part start stop parts i = .ok p ∧ p.cursor = p.start ∧
      p.start.toNat = cutAt start stop parts i ∧ p.stop.toNat = cutAt start stop parts (i + 1) := by
  obtain ⟨hlo, hhi⟩ := toNat_partBounds hle hi
  have hlohi := cutAt_le_succ hle hi
  rw [← hlo, ← hhi, ← UInt64.le_iff_toNat_le] at hlohi
  rw [part, new, dif_pos hlohi]
  exact ⟨_, rfl, rfl, hlo, hhi⟩

theorem exists_mapM {α β : Type} {f : α → Except GraphError β} {as : List α}
    (h : ∀ a ∈ as, ∃ b, f a = .ok b) :
    ∃ bs, as.mapM f = .ok bs ∧ List.Forall₂ (fun a b => f a = .ok b) as bs := by
  induction as with
  | nil => exact ⟨[], rfl, .nil⟩
  | cons a as ih =>
    obtain ⟨⟨b, hb⟩, has⟩ := List.forall_mem_cons.mp h
    obtain ⟨bs, hbs, hall⟩ := ih has
    refine ⟨b :: bs, ?_, .cons hb hall⟩
    rw [List.mapM_cons, hb, hbs]
    rfl

theorem exists_split (hle : start ≤ stop) (hparts : 0 < parts) :
    ∃ pools, split start stop parts = .ok pools ∧ pools.length = parts.toNat ∧
      ∀ i p, pools[i]? = some p → p.cursor = p.start ∧
        p.start.toNat = cutAt start stop parts i ∧
        p.stop.toNat = cutAt start stop parts (i + 1) := by
  have hparts' : ∀ i ∈ List.range parts.toNat, ∃ p, part start stop parts i = .ok p := by
    intro i hi
    obtain ⟨p, hp, _⟩ := exists_part hle (List.mem_range.mp hi)
    exact ⟨p, hp⟩
  obtain ⟨pools, hpools, hall⟩ := exists_mapM hparts'
  have hlength : pools.length = parts.toNat := by rw [← hall.length_eq, List.length_range]
  refine ⟨pools, (split_eq hle hparts).trans hpools, hlength, fun i p hp => ?_⟩
  obtain ⟨hi, rfl⟩ := List.getElem?_eq_some_iff.mp hp
  have hpart := hall.get (hall.length_eq ▸ hi) hi
  simp only [List.get_eq_getElem, List.getElem_range] at hpart
  obtain ⟨q, hq, hbounds⟩ := exists_part hle (hlength ▸ hi)
  cases hpart.symm.trans hq
  exact hbounds

theorem disjoint_of_le (h : p.stop ≤ q.start) (id : NodeId) : ¬ (p.Owns id ∧ q.Owns id) := by
  rintro ⟨⟨_, hp⟩, ⟨hq, _⟩⟩
  exact UInt64.lt_irrefl _ (UInt64.lt_of_lt_of_le hp (UInt64.le_trans h hq))

/-- What is known of the cuts is known of the pools between them. -/
theorem cuts_of_bounds {pools : List KeyPool} (hle : start ≤ stop) (hparts : 0 < parts)
    (hlength : pools.length = parts.toNat)
    (hpools : ∀ i p, pools[i]? = some p → p.cursor = p.start ∧
      p.start.toNat = cutAt start stop parts i ∧ p.stop.toNat = cutAt start stop parts (i + 1)) :
    Cuts start stop parts pools := by
  have hpos : 0 < parts.toNat := UInt64.lt_iff_toNat_lt.mp hparts
  have hat : ∀ i (hi : i < pools.length), pools[i]? = some pools[i] :=
    fun i hi => List.getElem?_eq_getElem hi
  refine {
    length_eq := hlength
    exact := fun i hi => splitExact hle hi
    bounds := fun i p hp => (hpools i p hp).2
    fresh := ?fresh
    head := ?head
    last := ?last
    contiguous := ?contiguous
    disjoint := ?disjoint
    covers := ?covers }
  case fresh =>
    intro p hp
    obtain ⟨i, hi, rfl⟩ := List.getElem_of_mem hp
    exact (hpools i _ (hat i hi)).1
  case head =>
    obtain ⟨_, hstart, _⟩ := hpools 0 _ (hat 0 (hlength ▸ hpos))
    refine ⟨_, List.head?_eq_getElem?.trans (hat 0 (hlength ▸ hpos)), UInt64.toNat_inj.mp ?_⟩
    rw [hstart, cutAt_zero start stop hparts]
  case last =>
    have hlast : pools.length - 1 < pools.length := by omega
    obtain ⟨_, _, hstop⟩ := hpools _ _ (hat _ hlast)
    refine ⟨_, List.getLast?_eq_getElem?.trans (hat _ hlast), UInt64.toNat_inj.mp ?_⟩
    rw [hstop, Nat.sub_add_cancel (by omega), hlength, cutAt_parts]
  case contiguous =>
    refine List.isChain_iff_getElem.mpr fun i hi => UInt64.toNat_inj.mp ?_
    rw [(hpools i _ (hat i (by omega))).2.2, (hpools (i + 1) _ (hat (i + 1) hi)).2.1]
  case disjoint =>
    refine List.pairwise_iff_getElem.mpr fun i j hi hj hij => ?_
    have hordered : pools[i].stop ≤ pools[j].start := by
      rw [UInt64.le_iff_toNat_le, (hpools i _ (hat i hi)).2.2, (hpools j _ (hat j hj)).2.1]
      exact cutAt_mono hle hij (hlength ▸ hj.le)
    exact ⟨hordered, disjoint_of_le hordered⟩
  case covers =>
    intro id
    simp only [Owns, UInt64.le_iff_toNat_le, UInt64.lt_iff_toNat_lt]
    rw [← cutAt_zero start stop hparts, ← cutAt_parts start stop parts]
    constructor
    · rintro ⟨hlo, hhi⟩
      obtain ⟨i, hi, hin⟩ := exists_between_cuts hlo hhi
      obtain ⟨_, hstart, hstop⟩ := hpools i _ (hat i (hlength ▸ hi))
      exact ⟨_, List.getElem_mem (hlength ▸ hi), hstart ▸ hin.1, hstop ▸ hin.2⟩
    · rintro ⟨p, hp, hlo, hhi⟩
      obtain ⟨i, hi, rfl⟩ := List.getElem_of_mem hp
      obtain ⟨_, hstart, hstop⟩ := hpools i _ (hat i hi)
      rw [hlength] at hi
      exact ⟨(cutAt_mono hle (Nat.zero_le i) hi.le).trans (hstart ▸ hlo),
        (hstop ▸ hhi).trans_le (cutAt_mono hle hi (Nat.le_refl _))⟩

/-! ## One call -/

/-- What comes of a call to a pool that has handed out every id of its range.  A pool that ends with
the last number crashes. -/
def refusal (p : KeyPool) : GraphError :=
  if p.stop.toNat + 1 < UInt64.size then .keyPoolExhausted p.start p.stop else .overflow

/-- What a call to a pool does. -/
theorem next_cases (p : KeyPool) :
    (p.cursor.toNat < p.stop.toNat ∧ ∃ p', p.next = .ok (⟨p.cursor⟩, p') ∧ p'.start = p.start ∧
      p'.stop = p.stop ∧ p'.cursor.toNat = p.cursor.toNat + 1) ∨
    (p.cursor = p.stop ∧ p.next = .error p.refusal) := by
  have hstop := p.stop.toNat_lt_size
  by_cases hlt : p.cursor < p.stop
  · have hnat := UInt64.lt_iff_toNat_lt.mp hlt
    rw [next, successor_of_lt (by omega)]
    dsimp only
    rw [dif_pos hlt]
    exact .inl ⟨hnat, _, rfl, rfl, rfl, toNat_succ_of_lt hlt⟩
  · have heq := UInt64.le_antisymm p.le_stop (UInt64.not_lt.mp hlt)
    refine .inr ⟨heq, ?_⟩
    have hnat := congrArg UInt64.toNat heq
    by_cases hsucc : p.stop.toNat + 1 < UInt64.size
    · rw [next, refusal, if_pos hsucc, successor_of_lt (by omega)]
      dsimp only
      rw [dif_neg hlt]
    · rw [next, refusal, if_neg hsucc, successor_of_last (by omega)]

/-- The answer to a call, and the pool afterwards. -/
def ask (p : KeyPool) : Except GraphError NodeId × KeyPool :=
  match p.next with
  | .ok (id, p) => (.ok id, p)
  | .error e => (.error e, p)

/-- The answer to the call that comes after `k` others: the next id as long as there is one. -/
def answerAt (p : KeyPool) (k : Nat) : Except GraphError NodeId :=
  if p.cursor.toNat + k < p.stop.toNat then .ok ⟨UInt64.ofNat (p.cursor.toNat + k)⟩
  else .error p.refusal

theorem ask_fst (p : KeyPool) : p.ask.1 = p.answerAt 0 := by
  obtain ⟨hlt, p', hnext, _⟩ | ⟨heq, hnext⟩ := p.next_cases
  · simp [ask, answerAt, hnext, hlt]
  · simp [ask, answerAt, hnext, heq]

/-- A call keeps the range of a pool and moves its cursor by one, unless it is at the end. -/
theorem ask_snd (p : KeyPool) : p.ask.2.start = p.start ∧ p.ask.2.stop = p.stop ∧
    p.ask.2.cursor.toNat = min (p.cursor.toNat + 1) p.stop.toNat := by
  obtain ⟨hlt, p', hnext, hstart, hstop, hcursor⟩ | ⟨heq, hnext⟩ := p.next_cases
  · simp only [ask, hnext, hstart, hstop, hcursor]
    exact ⟨trivial, trivial, by omega⟩
  · simp only [ask, hnext, heq]
    exact ⟨trivial, trivial, by omega⟩

theorem answerAt_ask (p : KeyPool) (k : Nat) : p.ask.2.answerAt k = p.answerAt (k + 1) := by
  obtain ⟨hstart, hstop, hcursor⟩ := p.ask_snd
  have hle := UInt64.le_iff_toNat_le.mp p.le_stop
  rw [answerAt, answerAt, refusal, refusal, hstart, hstop, hcursor]
  by_cases hlt : p.cursor.toNat + (k + 1) < p.stop.toNat
  · have hmin : min (p.cursor.toNat + 1) p.stop.toNat + k = p.cursor.toNat + (k + 1) := by omega
    rw [hmin]
  · rw [if_neg (by omega), if_neg hlt]

/-! ## Calls of many clients to many pools -/

/-- A call of a client to one of `n` pools. -/
structure Call (Client : Type) (n : Nat) where
  /-- Who calls. -/
  client : Client
  /-- The pool that is asked. -/
  pool : Fin n

/-- A call with its answer. -/
structure Reply (Client : Type) (n : Nat) extends Call Client n where
  /-- The answer. -/
  answer : Except GraphError NodeId

section Serve

variable {Client : Type} {n : Nat}

/-- Calls answered one after the other, and the pools afterwards. -/
def serve (pools : Fin n → KeyPool) :
    List (Call Client n) → List (Reply Client n) × (Fin n → KeyPool)
  | [] => ([], pools)
  | c :: calls =>
    let (answer, p) := (pools c.pool).ask
    let (replies, pools) := serve (Function.update pools c.pool p) calls
    (⟨c, answer⟩ :: replies, pools)

variable {pools : Fin n → KeyPool}

theorem serve_cons (pools : Fin n → KeyPool) (c : Call Client n) (calls : List (Call Client n)) :
    serve pools (c :: calls) =
      (⟨c, (pools c.pool).ask.1⟩ ::
        (serve (Function.update pools c.pool (pools c.pool).ask.2) calls).1,
        (serve (Function.update pools c.pool (pools c.pool).ask.2) calls).2) := rfl

/-- Every call is answered. -/
theorem map_toCall_serve (pools : Fin n → KeyPool) (calls : List (Call Client n)) :
    (serve pools calls).1.map Reply.toCall = calls := by
  induction calls generalizing pools with
  | nil => rfl
  | cons c calls ih => rw [serve_cons, List.map_cons, ih]

/-- The answers of a pool, whoever asked, are those that it gives to as many calls. -/
theorem answers_serve (pools : Fin n → KeyPool) (calls : List (Call Client n)) (i : Fin n) :
    ((serve pools calls).1.filter (·.pool = i)).map Reply.answer =
      (List.range (calls.countP (·.pool = i))).map (pools i).answerAt := by
  induction calls generalizing pools with
  | nil => rfl
  | cons c calls ih =>
    rw [serve_cons, List.countP_cons, List.filter_cons]
    by_cases hi : c.pool = i
    · subst hi
      simp only [decide_true, if_true, List.map_cons, ih, Function.update_self, ask_fst,
        List.range_succ_eq_map, List.map_map]
      exact congrArg _ (List.map_congr_left fun k _ => answerAt_ask _ k)
    · simp only [hi, decide_false, Bool.false_eq_true, if_false, Nat.add_zero, ih,
        Function.update_of_ne (Ne.symm hi)]

/-- A pool moves its cursor by the number of calls to it, up to the end of its range. -/
theorem pool_serve (pools : Fin n → KeyPool) (calls : List (Call Client n)) (i : Fin n) :
    ((serve pools calls).2 i).start = (pools i).start ∧
      ((serve pools calls).2 i).stop = (pools i).stop ∧
      ((serve pools calls).2 i).cursor.toNat =
        min ((pools i).cursor.toNat + calls.countP (·.pool = i)) (pools i).stop.toNat := by
  induction calls generalizing pools with
  | nil =>
    have hle := UInt64.le_iff_toNat_le.mp (pools i).le_stop
    refine ⟨rfl, rfl, ?_⟩
    rw [List.countP_nil, Nat.add_zero, Nat.min_eq_left hle]
    rfl
  | cons c calls ih =>
    obtain ⟨hstart, hstop, hcursor⟩ := ih (Function.update pools c.pool (pools c.pool).ask.2)
    rw [serve_cons, hstart, hstop, hcursor, List.countP_cons]
    by_cases hi : c.pool = i
    · subst hi
      obtain ⟨hstart, hstop, hcursor⟩ := (pools c.pool).ask_snd
      rw [Function.update_self, hstart, hstop, hcursor, if_pos (decide_eq_true rfl)]
      exact ⟨rfl, rfl, by omega⟩
    · rw [Function.update_of_ne (Ne.symm hi)]
      simp [hi]

/-- An id that is handed out was not handed out before and is in the range of its pool. -/
theorem bounds_of_reply {calls : List (Call Client n)} {r : Reply Client n} {id : NodeId}
    (hr : r ∈ (serve pools calls).1) (hid : r.answer = .ok id) :
    (pools r.pool).cursor ≤ id.value ∧ id.value < (pools r.pool).stop := by
  have hmem : r.answer ∈ ((serve pools calls).1.filter (·.pool = r.pool)).map Reply.answer :=
    List.mem_map_of_mem (List.mem_filter.mpr ⟨hr, decide_eq_true rfl⟩)
  rw [answers_serve, hid] at hmem
  obtain ⟨k, _, hk⟩ := List.mem_map.mp hmem
  rw [answerAt] at hk
  split at hk
  next hlt =>
    cases hk
    have hsize := (pools r.pool).stop.toNat_lt_size
    rw [UInt64.le_iff_toNat_le, UInt64.lt_iff_toNat_lt, UInt64.toNat_ofNat_of_lt' (by omega)]
    exact ⟨Nat.le_add_right _ _, hlt⟩
  next => cases hk

/-- The ids that are handed out, in their order. -/
def handedOut (replies : List (Reply Client n)) : List NodeId :=
  replies.filterMap fun r => r.answer.toOption

theorem mem_handedOut {replies : List (Reply Client n)} {id : NodeId} :
    id ∈ handedOut replies ↔ ∃ r ∈ replies, r.answer = .ok id := by
  simp only [handedOut, List.mem_filterMap]
  refine exists_congr fun r => and_congr_right fun _ => ?_
  cases r.answer <;> simp [Except.toOption]

/-- Pools that have no id in common never hand out one twice. -/
theorem nodup_handedOut (hdisjoint : ∀ i j, i ≠ j → ∀ id, ¬ ((pools i).Owns id ∧ (pools j).Owns id))
    (calls : List (Call Client n)) : (handedOut (serve pools calls).1).Nodup := by
  induction calls generalizing pools with
  | nil => exact List.nodup_nil
  | cons c calls ih =>
    obtain ⟨hstart, hstop, hcursor⟩ := (pools c.pool).ask_snd
    have howns : ∀ i id, (Function.update pools c.pool (pools c.pool).ask.2 i).Owns id ↔
        (pools i).Owns id := by
      intro i id
      by_cases hi : i = c.pool
      · subst hi
        rw [Function.update_self, Owns, Owns, hstart, hstop]
      · rw [Function.update_of_ne hi]
    have hrest : (handedOut
        (serve (Function.update pools c.pool (pools c.pool).ask.2) calls).1).Nodup :=
      ih (by simpa only [howns] using hdisjoint)
    rw [serve_cons, handedOut, List.filterMap_cons]
    cases hask : (pools c.pool).ask.1 with
    | error e => exact hrest
    | ok id =>
      refine List.nodup_cons.mpr ⟨fun hmem => ?_, hrest⟩
      obtain ⟨r, hr, hid⟩ := mem_handedOut.mp hmem
      have hlater := bounds_of_reply hr hid
      rw [ask_fst, answerAt, Nat.add_zero] at hask
      split at hask
      next hlt =>
        cases hask
        rw [UInt64.ofNat_toNat] at hlater
        by_cases hpool : r.pool = c.pool
        -- the same pool has moved on
        · rw [hpool, Function.update_self, UInt64.le_iff_toNat_le, hcursor] at hlater
          dsimp only at hlater
          omega
        -- another pool does not have this id
        · refine hdisjoint _ _ hpool ⟨(pools c.pool).cursor⟩ ⟨(howns _ _).mp ⟨?_, hlater.2⟩,
            (pools c.pool).start_le, UInt64.lt_iff_toNat_lt.mpr hlt⟩
          exact UInt64.le_trans (start_le _) hlater.1
      next => cases hask

/-- A pool hands out the first ids of its range, as many as it is asked for and has. -/
theorem length_handedOut (pools : Fin n → KeyPool) (calls : List (Call Client n)) (i : Fin n) :
    (handedOut ((serve pools calls).1.filter (·.pool = i))).length =
      min (calls.countP (·.pool = i)) ((pools i).stop.toNat - (pools i).cursor.toNat) := by
  have hmap : handedOut ((serve pools calls).1.filter (·.pool = i)) =
      ((List.range (calls.countP (·.pool = i))).map (pools i).answerAt).filterMap
        Except.toOption := by
    rw [← answers_serve, List.filterMap_map]
    rfl
  rw [hmap, List.filterMap_map]
  induction calls.countP (·.pool = i) with
  | zero => simp
  | succ m ih =>
    rw [List.range_succ, List.filterMap_append, List.length_append, ih]
    by_cases hm : (pools i).cursor.toNat + m < (pools i).stop.toNat
    · simp only [List.filterMap_cons, List.filterMap_nil, Function.comp_apply, answerAt, if_pos hm,
        Except.toOption, List.length_singleton]
      omega
    · simp only [List.filterMap_cons, List.filterMap_nil, Function.comp_apply, answerAt, if_neg hm,
        Except.toOption, List.length_nil]
      omega

/-- What becomes of pools, none of which has handed out an id, when they are called. -/
structure Shared (pools : Fin n → KeyPool) (calls : List (Call Client n)) : Prop where
  /-- Every call is answered. -/
  replies : (serve pools calls).1.map Reply.toCall = calls
  nodup : (handedOut (serve pools calls).1).Nodup
  owns : ∀ r ∈ (serve pools calls).1, ∀ id, r.answer = .ok id → (pools r.pool).Owns id
  /-- A pool hands out its range from the first id to the last, and from then on it refuses. -/
  answers : ∀ i, ((serve pools calls).1.filter (·.pool = i)).map Reply.answer =
    (List.range (calls.countP (·.pool = i))).map fun k =>
      if k < (pools i).stop.toNat - (pools i).start.toNat then
        .ok ⟨UInt64.ofNat ((pools i).start.toNat + k)⟩
      else .error (pools i).refusal
  /-- What is left and what was handed out make up the range. -/
  remaining : ∀ i, ((serve pools calls).2 i).remaining.toNat +
    (handedOut ((serve pools calls).1.filter (·.pool = i))).length =
      (pools i).stop.toNat - (pools i).start.toNat
  /-- A call that is refused looks at the number after the cursor too. -/
  succ : ∀ i, (pools i).stop.toNat + 1 < UInt64.size →
    (((serve pools calls).2 i).cursor + 1).toNat = ((serve pools calls).2 i).cursor.toNat + 1

theorem shared (hfresh : ∀ i, (pools i).cursor = (pools i).start)
    (hdisjoint : ∀ i j, i ≠ j → ∀ id, ¬ ((pools i).Owns id ∧ (pools j).Owns id))
    (calls : List (Call Client n)) : Shared pools calls where
  replies := map_toCall_serve pools calls
  nodup := nodup_handedOut hdisjoint calls
  owns r hr id hid := by
    have hbounds := bounds_of_reply hr hid
    rwa [hfresh] at hbounds
  answers i := by
    rw [answers_serve]
    refine List.map_congr_left fun k _ => ?_
    rw [answerAt, hfresh]
    exact if_congr (by omega) rfl rfl
  remaining i := by
    obtain ⟨_, hstop, hcursor⟩ := pool_serve pools calls i
    have hle : ((serve pools calls).2 i).cursor.toNat ≤ ((serve pools calls).2 i).stop.toNat :=
      UInt64.le_iff_toNat_le.mp (le_stop _)
    rw [KeyPool.remaining, UInt64.toNat_sub_of_le _ _ hle, length_handedOut, hstop, hcursor,
      hfresh]
    omega
  succ i hlt := by
    obtain ⟨_, _, hcursor⟩ := pool_serve pools calls i
    have hone : (1 : UInt64).toNat = 1 := rfl
    rw [UInt64.toNat_add, hone, Nat.mod_eq_of_lt]
    change _ < UInt64.size
    omega

end Serve

/-- A range can be cut into any number of pools.  No number wraps around, the pools follow each
other without gaps and without meeting, and whatever clients ask of them, in whatever order, no id
is handed out twice. -/
theorem split_shares_out (hle : start ≤ stop) (hparts : 0 < parts) :
    ∃ pools, split start stop parts = .ok pools ∧ Cuts start stop parts pools ∧
      ∀ (Client : Type) (calls : List (Call Client pools.length)), Shared pools.get calls := by
  obtain ⟨pools, hsplit, hlength, hpools⟩ := exists_split hle hparts
  have hcuts := cuts_of_bounds hle hparts hlength hpools
  refine ⟨pools, hsplit, hcuts, fun Client calls => shared ?_ ?_ calls⟩
  · exact fun i => hcuts.fresh _ (List.get_mem pools i)
  · intro i j hij id
    rcases Fin.lt_or_lt_of_ne hij with hlt | hlt
    · exact (List.pairwise_iff_get.mp hcuts.disjoint i j hlt).2 id
    · exact fun hboth => (List.pairwise_iff_get.mp hcuts.disjoint j i hlt).2 id hboth.symm

/-- The last ids below the greatest, in pools of three, three and four. -/
theorem lastIds_shared_out :
    (18446744073709551604 : UInt64) ≤ 18446744073709551614 ∧ (0 : UInt64) < 3 ∧
    ∃ pools, split 18446744073709551604 18446744073709551614 3 = .ok pools ∧
      pools.map (fun p => (p.start, p.stop)) =
        [(18446744073709551604, 18446744073709551607), (18446744073709551607, 18446744073709551610),
          (18446744073709551610, 18446744073709551614)] ∧
      Cuts 18446744073709551604 18446744073709551614 3 pools ∧
      ∀ (Client : Type) (calls : List (Call Client pools.length)), Shared pools.get calls := by
  have hle : (18446744073709551604 : UInt64) ≤ 18446744073709551614 := by decide
  obtain ⟨pools, hsplit, hcuts, hshared⟩ := split_shares_out hle (show (0 : UInt64) < 3 by decide)
  have hbounds : (split 18446744073709551604 18446744073709551614 3).toOption.map
      (·.map fun p => (p.start, p.stop)) =
      some [(18446744073709551604, 18446744073709551607),
        (18446744073709551607, 18446744073709551610),
        (18446744073709551610, 18446744073709551614)] := by decide +kernel
  rw [hsplit] at hbounds
  exact ⟨hle, by decide, pools, hsplit, Option.some.inj hbounds, hcuts, hshared⟩

end CodeGraph.KeyPool
