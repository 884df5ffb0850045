import CodeGraph.Graph.Error

/-!
# Key pools

A key pool owns the ids from `start` up to but not including `stop` and hands
them out in ascending order.  Edit scripts that are bound to disjoint pools
never compete for an id.

The cursor of a pool stays between its bounds.  `split` divides a range into
contiguous pools of equal width, where the last one takes the rest.
-/

namespace CodeGraph

/-- A range of ids that are handed out one by one. -/
structure KeyPool where
  /-- The first id. -/
  start : UInt64
  /-- The id after the last. -/
  stop : UInt64
  /-- The next id to be handed out. -/
  cursor : UInt64
  /-- The cursor is not before the start. -/
  start_le : start ≤ cursor
  /-- The cursor is not after the end. -/
  le_stop : cursor ≤ stop
  deriving DecidableEq

namespace KeyPool

/-- The pool over a range, with nothing handed out. -/
def new (start stop : UInt64) : Except GraphError KeyPool :=
  if h : start ≤ stop then .ok ⟨start, stop, start, UInt64.le_refl start, h⟩
  else .error (.invalidKeyPool start stop)

/-- A number below another can be counted on. -/
theorem toNat_succ_of_lt {n m : UInt64} (h : n < m) : (n + 1).toNat = n.toNat + 1 := by
  have hlt := UInt64.lt_iff_toNat_lt.mp h
  have hm := m.toNat_lt
  have hone : (1 : UInt64).toNat = 1 := rfl
  rw [UInt64.toNat_add, hone]
  omega

/-- The pool without its next id. -/
def advance (p : KeyPool) (h : p.cursor < p.stop) : KeyPool :=
  { p with
    cursor := p.cursor + 1
    start_le := by
      have hs := UInt64.le_iff_toNat_le.mp p.start_le
      rw [UInt64.le_iff_toNat_le, toNat_succ_of_lt h]
      omega
    le_stop := by
      rw [UInt64.le_iff_toNat_le, toNat_succ_of_lt h]
      exact UInt64.lt_iff_toNat_lt.mp h }

/-- The next id, and the pool without it.  A pool counts on from its cursor before
it looks whether there is an id left. -/
def next (p : KeyPool) : Except GraphError (NodeId × KeyPool) :=
  match successor p.cursor with
  | .error e => .error e
  | .ok _ =>
    if h : p.cursor < p.stop then .ok (⟨p.cursor⟩, p.advance h)
    else .error (.keyPoolExhausted p.start p.stop)

/-- How many ids are left. -/
def remaining (p : KeyPool) : UInt64 := p.stop - p.cursor

/-- The bounds of part `i` of a range that is cut into `parts` of `width` ids. -/
def partBounds (start stop width parts i : UInt64) : UInt64 × UInt64 :=
  let lo := start + i * width
  (lo, if i + 1 = parts then stop else lo + width)

/-- A range divided into contiguous pools.  The last one takes what the others leave. -/
def split (start stop parts : UInt64) : Except GraphError (List KeyPool) :=
  if parts = 0 ∨ stop < start then .error (.invalidKeyPool start stop)
  else
    let width := (stop - start) / parts
    (List.range parts.toNat).mapM fun i =>
      let (lo, hi) := partBounds start stop width parts (UInt64.ofNat i)
      KeyPool.new lo hi

end KeyPool

end CodeGraph
