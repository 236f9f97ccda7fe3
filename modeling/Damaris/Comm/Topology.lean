import Mathlib.Tactic
import Damaris.Lib.CombiningTree

/-!
# The communication tree of a reactor

`MPI2Reactor::Init` arranges the ranks of its communicator in a tree of the
given radix: rank `p` opens channels to the children `radix * p + i` that exist
and to the parent `(p - 1) / radix`. Rank 0 leads the communicator and is its
own parent. Ranks are unbounded naturals below `size`; the source computes them
in `int`, and no number that it comes to is above `radix * size`.
-/
namespace Damaris.Comm

/-- What `MPI2Reactor::New` checks before it returns a reactor: `Init` is not
called for a radix that is not positive, and a communicator is not empty. -/
structure Topology where
  size : ℕ
  radix : ℕ
  size_pos : 0 < size
  radix_pos : 0 < radix

namespace Topology

variable (c : Topology)

abbrev Rank := Fin c.size

/-- The endpoint of `leader_`. -/
def leader : c.Rank := ⟨0, c.size_pos⟩

/-- The endpoint of `parent_`: rank 0 is its own parent. -/
def parent (p : c.Rank) : c.Rank :=
  if p.val ≠ 0 then ⟨(p.val - 1) / c.radix, by have := Nat.div_le_self (p.val - 1) c.radix; omega⟩
  else c.leader

/-- The keys of `children_`, in the order in which the map is walked. -/
def children (p : c.Rank) : List c.Rank :=
  (List.range' 1 c.radix).filterMap fun i =>
    let k := c.radix * p.val + i
    if h : k < c.size then some ⟨k, h⟩ else none

theorem mem_children_iff_key {p q : c.Rank} :
    q ∈ c.children p ↔ ∃ i, 1 ≤ i ∧ i ≤ c.radix ∧ q.val = c.radix * p.val + i := by
  simp only [children, List.mem_filterMap, List.mem_range'_1, Option.dite_none_right_eq_some,
    Option.some.injEq]
  constructor
  · rintro ⟨i, ⟨hpos, hlt⟩, hk, rfl⟩
    exact ⟨i, hpos, by omega, rfl⟩
  · rintro ⟨i, hpos, hle, hq⟩
    exact ⟨i, ⟨hpos, by omega⟩, hq ▸ q.isLt, Fin.ext hq.symm⟩

theorem mem_children {p q : c.Rank} :
    q ∈ c.children p ↔ q ≠ c.leader ∧ c.parent q = p := by
  have hr := c.radix_pos
  have hcomm := Nat.mul_comm p.val c.radix
  have hiff : q ∈ c.children p ↔ c.radix * p.val < q.val ∧ q.val ≤ c.radix * p.val + c.radix := by
    rw [mem_children_iff_key]
    constructor
    · rintro ⟨i, hpos, hle, hq⟩
      omega
    · rintro ⟨h1, h2⟩
      exact ⟨q.val - c.radix * p.val, by omega, by omega, by omega⟩
  rw [hiff]
  constructor
  · rintro ⟨h1, h2⟩
    have hq : q.val ≠ 0 := by omega
    refine ⟨fun he => hq (congrArg Fin.val he), ?_⟩
    rw [parent, if_pos hq]
    apply Fin.ext
    show (q.val - 1) / c.radix = p.val
    rw [Nat.div_eq_iff hr]
    constructor <;> omega
  · rintro ⟨hne, hp⟩
    have hq : q.val ≠ 0 := fun he => hne (Fin.ext he)
    rw [parent, if_pos hq] at hp
    have hdiv : (q.val - 1) / c.radix = p.val := congrArg Fin.val hp
    rw [Nat.div_eq_iff hr] at hdiv
    constructor <;> omega

theorem children_nodup (p : c.Rank) : (c.children p).Nodup := by
  refine List.Nodup.filterMap ?_ List.nodup_range'
  intro i j q hi hj
  simp only [Option.mem_def, Option.dite_none_right_eq_some, Option.some.injEq] at hi hj
  obtain ⟨_, rfl⟩ := hi
  obtain ⟨_, hj⟩ := hj
  have := congrArg Fin.val hj
  simp only at this
  omega

theorem parent_lt {p : c.Rank} (hp : p ≠ c.leader) : (c.parent p).val < p.val := by
  have h0 : p.val ≠ 0 := fun h => hp (Fin.ext h)
  rw [parent, if_pos h0]
  have := Nat.div_le_self (p.val - 1) c.radix
  show (p.val - 1) / c.radix < p.val
  omega

@[simp] theorem parent_leader : c.parent c.leader = c.leader := by
  simp [parent, leader]

/-- The tree spans the communicator: every other rank is the child of exactly
its parent, and walking up ends at rank 0. -/
def tree : ParentTree c.Rank where
  root := c.leader
  parent := c.parent
  children p := (c.children p).toFinset
  mem_children := by simp [mem_children]
  depth p := p.val
  height := c.size
  depth_parent := c.parent_lt
  depth_le p := p.isLt.le

@[simp] theorem mem_tree_children {p q : c.Rank} : q ∈ c.tree.children p ↔ q ∈ c.children p :=
  List.mem_toFinset

theorem card_tree_children (p : c.Rank) : (c.tree.children p).card = (c.children p).length :=
  List.toFinset_card_of_nodup (c.children_nodup p)

/-! ## The spanning tree -/

/-- The keys and the parents are those of the formulas, and one tree. -/
structure Spanning : Prop where
  key : ∀ p q : c.Rank, q ∈ c.children p ↔ ∃ i, 1 ≤ i ∧ i ≤ c.radix ∧ q.val = c.radix * p.val + i
  parent : ∀ p : c.Rank, p ≠ c.leader → (c.parent p).val = (p.val - 1) / c.radix
  /-- Every number that the loop over the children computes. -/
  within : ∀ (p : c.Rank), ∀ i ≤ c.radix, c.radix * p.val + i ≤ c.radix * c.size
  inverse : ∀ p q : c.Rank, q ∈ c.children p ↔ q ≠ c.leader ∧ c.parent q = p
  once : ∀ p : c.Rank, (c.children p).Nodup
  unique : ∀ q : c.Rank, q ≠ c.leader → ∃! p, q ∈ c.children p
  root : ∀ p : c.Rank, c.leader ∉ c.children p
  reaches : ∀ p : c.Rank, ∃ n ≤ p.val, c.parent^[n] p = c.leader

end Topology
end Damaris.Comm
