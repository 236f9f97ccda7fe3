import Mathlib.Tactic
import Mathlib.Algebra.BigOperators.Group.Finset.Basic
import Mathlib.Algebra.Order.BigOperators.Group.Finset
import Damaris.Lib.StepSystem

/-!
# The combining-tree barrier

Every node of a rooted tree enters a round once; a node whose own entry and all
of whose children's contributions are in contributes to its parent, and the
root starts a wave of releases that travels down again. Only counters appear
here: who sends what, and over which channels, is left to the program that
refines this machine.
-/

/-- A rooted tree of bounded depth, given by its parent and children maps. -/
structure ParentTree (ι : Type*) where
  root : ι
  parent : ι → ι
  children : ι → Finset ι
  mem_children : ∀ {c p}, c ∈ children p ↔ c ≠ root ∧ parent c = p
  depth : ι → ℕ
  height : ℕ
  depth_parent : ∀ {c}, c ≠ root → depth (parent c) < depth c
  depth_le : ∀ p, depth p ≤ height

namespace ParentTree

variable {ι : Type*} (T : ParentTree ι)

/-- What holds at the root and passes from a parent to its children holds everywhere. -/
theorem top_down {P : ι → Prop} (hroot : P T.root) (hchild : ∀ c, c ≠ T.root → P (T.parent c) → P c)
    (p : ι) : P p := by
  induction h : T.depth p using Nat.strong_induction_on generalizing p with
  | h d ih =>
    by_cases hp : p = T.root
    · rw [hp]
      exact hroot
    · exact hchild p hp (ih _ (h ▸ T.depth_parent hp) _ rfl)

/-- What passes from all children to their parent holds everywhere. -/
theorem bottom_up {P : ι → Prop} (hparent : ∀ p, (∀ c ∈ T.children p, P c) → P p) (p : ι) : P p := by
  induction h : T.height - T.depth p using Nat.strong_induction_on generalizing p with
  | h d ih =>
    refine hparent p fun c hc => ih (T.height - T.depth c) ?_ c rfl
    obtain ⟨hne, rfl⟩ := T.mem_children.mp hc
    have := T.depth_parent hne
    have := T.depth_le c
    omega

theorem parent_ne {c : ι} (hc : c ≠ T.root) : T.parent c ≠ c := by
  intro h
  have := T.depth_parent hc
  rw [h] at this
  exact lt_irrefl _ this

/-- Walking up ends at the root, after no more steps than the node is deep. -/
theorem exists_iterate_parent (p : ι) : ∃ n ≤ T.depth p, T.parent^[n] p = T.root := by
  refine T.top_down (P := fun p => ∃ n ≤ T.depth p, T.parent^[n] p = T.root)
    ⟨0, Nat.zero_le _, rfl⟩ (fun c hc ⟨n, hn, hroot⟩ => ?_) p
  exact ⟨n + 1, lt_of_le_of_lt hn (T.depth_parent hc), by rw [Function.iterate_succ_apply, hroot]⟩

theorem existsUnique_parent {c : ι} (hc : c ≠ T.root) : ∃! p, c ∈ T.children p :=
  ⟨T.parent c, T.mem_children.mpr ⟨hc, rfl⟩, fun _ h => (T.mem_children.mp h).2.symm⟩

theorem self_notMem_children (p : ι) : p ∉ T.children p := by
  intro h
  obtain ⟨hne, hp⟩ := T.mem_children.mp h
  exact T.parent_ne hne hp

end ParentTree

namespace CombiningTree

/-- The counters of one node. `up` counts contributions on their way to the
parent, `wave` releases on their way from it (at the root: from itself). -/
@[ext] structure Node where
  waiting : Bool
  count : ℕ
  up : ℕ
  wave : ℕ
  released : ℕ
  deriving DecidableEq

abbrev State (ι : Type*) := ι → Node

inductive Action (ι : Type*)
  | enter (p : ι)
  | gather (c : ι)
  | release (p : ι)
  deriving DecidableEq

variable {ι : Type*} (T : ParentTree ι)

def initial : State ι := fun _ => ⟨false, 0, 0, 0, 0⟩

/-- A node is full when it has been entered and every child has contributed. -/
def Full (p : ι) (n : Node) : Prop := n.count = (T.children p).card + 1

instance (p : ι) (n : Node) : Decidable (Full T p n) :=
  inferInstanceAs (Decidable (n.count = (T.children p).card + 1))

/-- One if the node has contributed to the round its parent is in and that
contribution has arrived, zero otherwise. -/
def contributed (p : ι) (n : Node) : ℕ := (if Full T p n then 1 else 0) - (n.up + n.wave)

/-- The counting invariant: nothing is contributed twice, and every counter is
the sum of what it has been sent. -/
structure Balanced (s : State ι) : Prop where
  rounds : ∀ c, c ≠ T.root → (s (T.parent c)).released = (s c).released + (s c).wave
  once : ∀ p, (s p).up + (s p).wave ≤ if Full T p (s p) then 1 else 0
  root_up : (s T.root).up = 0
  root_wave : Full T T.root (s T.root) → (s T.root).wave = 1
  counted : ∀ p, (s p).count =
    (if (s p).waiting then 1 else 0) + ∑ c ∈ T.children p, contributed T c (s c)

theorem contributed_le_one (p : ι) (n : Node) : contributed T p n ≤ 1 := by
  unfold contributed
  split <;> omega

theorem contributed_eq_one {p : ι} {n : Node} :
    contributed T p n = 1 ↔ Full T p n ∧ n.up = 0 ∧ n.wave = 0 := by
  unfold contributed
  by_cases h : Full T p n
  · simp only [h, if_true, true_and]
    omega
  · simp [h]

theorem balanced_initial : Balanced T (initial : State ι) := by
  have hne : ∀ p : ι, ¬ Full T p ⟨false, 0, 0, 0, 0⟩ := fun p => by simp [Full]
  refine ⟨?_, ?_, ?_, ?_, ?_⟩ <;> simp [initial, contributed, hne]

variable {T} {s s' : State ι}

namespace Balanced

theorem full_iff (h : Balanced T s) (p : ι) :
    Full T p (s p) ↔ (s p).waiting = true ∧ ∀ c ∈ T.children p, contributed T c (s c) = 1 := by
  have hcount := h.counted p
  have hle : ∑ c ∈ T.children p, contributed T c (s c) ≤ (T.children p).card := by
    simpa using Finset.sum_le_card_nsmul (T.children p) _ 1
      (fun c _ => contributed_le_one T c (s c))
  constructor
  · intro hf
    unfold Full at hf
    have hw : (s p).waiting = true := by
      by_contra hw
      simp only [hw, if_false] at hcount
      omega
    refine ⟨hw, fun c hc => ?_⟩
    by_contra hne
    have hlt : ∑ c ∈ T.children p, contributed T c (s c) < ∑ c ∈ T.children p, 1 := by
      refine Finset.sum_lt_sum (fun c _ => contributed_le_one T c (s c)) ⟨c, hc, ?_⟩
      have := contributed_le_one T c (s c)
      omega
    simp only [hw, if_true] at hcount
    simp only [Finset.sum_const, smul_eq_mul, mul_one] at hlt
    omega
  · rintro ⟨hw, hall⟩
    rw [Finset.sum_congr rfl hall] at hcount
    simp only [hw, if_true, Finset.sum_const, smul_eq_mul, mul_one] at hcount
    unfold Full
    omega

theorem not_full (h : Balanced T s) {p : ι} (hw : (s p).waiting = false) : ¬ Full T p (s p) := by
  intro hf
  have := ((h.full_iff p).mp hf).1
  simp [hw] at this

/-- A message between a node and its parent is the only one, of a round that is complete below. -/
theorem full_of_message (h : Balanced T s) {p : ι} (hm : (s p).up + (s p).wave ≠ 0) :
    Full T p (s p) ∧ (s p).up + (s p).wave = 1 := by
  have ho := h.once p
  by_cases hf : Full T p (s p)
  · simp only [hf, if_true] at ho
    exact ⟨hf, by omega⟩
  · simp only [hf, if_false] at ho
    omega

/-- A release reaches only nodes whose round is complete. -/
theorem full_of_wave (h : Balanced T s) {p : ι} (hw : (s p).wave ≠ 0) :
    Full T p (s p) ∧ (s p).up = 0 ∧ (s p).wave = 1 := by
  obtain ⟨hf, hone⟩ := h.full_of_message (p := p) (by omega)
  exact ⟨hf, by omega, by omega⟩

theorem full_of_up (h : Balanced T s) {p : ι} (hu : (s p).up ≠ 0) :
    Full T p (s p) ∧ (s p).up = 1 ∧ (s p).wave = 0 := by
  obtain ⟨hf, hone⟩ := h.full_of_message (p := p) (by omega)
  exact ⟨hf, by omega, by omega⟩

/-- Every node is in the root's round, or one release behind it and full. -/
theorem round_cases (h : Balanced T s) (p : ι) :
    (s T.root).released = (s p).released ∨
      ((s T.root).released = (s p).released + 1 ∧ Full T p (s p)) := by
  refine T.top_down (P := fun p => (s T.root).released = (s p).released ∨
    ((s T.root).released = (s p).released + 1 ∧ Full T p (s p))) (.inl rfl) (fun c hc ih => ?_) p
  have hr := h.rounds c hc
  by_cases hw : (s c).wave = 0
  · rcases ih with ih | ⟨ih, hfull⟩
    · exact .inl (by omega)
    · -- the parent is full, so this child's contribution is in
      have hone := ((h.full_iff _).mp hfull).2 c (T.mem_children.mpr ⟨hc, rfl⟩)
      exact .inr ⟨by omega, ((contributed_eq_one T).mp hone).1⟩
  · obtain ⟨hf, _, hw1⟩ := h.full_of_wave hw
    rcases ih with ih | ⟨ih, hfull⟩
    · exact .inr ⟨by omega, hf⟩
    · have hone := ((h.full_iff _).mp hfull).2 c (T.mem_children.mpr ⟨hc, rfl⟩)
      exact absurd ((contributed_eq_one T).mp hone).2.2 hw

/-- The barrier: no node is released more often than any node has entered. -/
theorem barrier (h : Balanced T s) (p q : ι) :
    (s p).released ≤ (s q).released + if (s q).waiting then 1 else 0 := by
  have hp : (s p).released ≤ (s T.root).released := by
    rcases h.round_cases p with hp | ⟨hp, _⟩ <;> omega
  rcases h.round_cases q with hq | ⟨hq, hfull⟩
  · omega
  · have hw := ((h.full_iff q).mp hfull).1
    simp only [hw, if_true]
    omega

/-- With nothing in flight all nodes have been released equally often. -/
theorem released_eq (h : Balanced T s) (hq : ∀ p, (s p).up = 0 ∧ (s p).wave = 0) (p : ι) :
    (s p).released = (s T.root).released := by
  refine T.top_down (P := fun p => (s p).released = (s T.root).released) rfl
    (fun c hc ih => ?_) p
  have hr := h.rounds c hc
  have hw := (hq c).2
  omega

/-- With nothing in flight some node has not entered the current round. -/
theorem exists_not_waiting (h : Balanced T s) (hq : ∀ p, (s p).up = 0 ∧ (s p).wave = 0) :
    ∃ p, (s p).waiting = false := by
  by_contra hall
  simp only [not_exists, Bool.not_eq_false] at hall
  have hfull : ∀ p, Full T p (s p) := T.bottom_up fun p ih =>
    (h.full_iff p).mpr ⟨hall p, fun c hc => (contributed_eq_one T).mpr ⟨ih c hc, hq c⟩⟩
  have hone := h.root_wave (hfull T.root)
  have hzero := (hq T.root).2
  omega

theorem idle (h : Balanced T s) {p : ι} (hf : ¬ Full T p (s p)) :
    (s p).up = 0 ∧ (s p).wave = 0 := by
  have ho := h.once p
  simp only [hf, if_false] at ho
  omega

end Balanced

theorem contributed_of_not_full {p : ι} {n : Node} (hf : ¬ Full T p n) :
    contributed T p n = 0 := by
  simp [contributed, hf]

/-! ## Releases -/

/-- What releasing does at each node: the node's own counters restart, its children are sent a
release, and nothing else changes. -/
structure Released (T : ParentTree ι) (s s' : State ι) (p : ι) : Prop where
  self : s' p =
    { s p with waiting := false, count := 0, wave := (s p).wave - 1, released := (s p).released + 1 }
  child : ∀ c ∈ T.children p, s' c = { s c with wave := (s c).wave + 1 }
  other : ∀ x, x ≠ p → x ∉ T.children p → s' x = s x

namespace Released

variable {p : ι} (r : Released T s s' p)

include r

theorem not_full : ¬ Full T p (s' p) := by
  rw [r.self]
  simp [Full]

/-- A child that is sent a release contributes nothing any more. -/
theorem contributed_child {c : ι} (hc : c ∈ T.children p) : contributed T c (s' c) = 0 := by
  have hle : ∀ k : ℕ,
      (if k = (T.children c).card + 1 then 1 else 0) - ((s c).up + ((s c).wave + 1)) = 0 := by
    intro k
    split <;> omega
  rw [r.child c hc]
  exact hle (s c).count

theorem contributed_other (h : Balanced T s) (hw : (s p).wave ≠ 0) {x : ι} (hx : x ∉ T.children p) :
    contributed T x (s' x) = contributed T x (s x) := by
  obtain ⟨hfull, -, hwave⟩ := h.full_of_wave hw
  by_cases hxp : x = p
  · rw [hxp, contributed_of_not_full r.not_full]
    simp [contributed, hfull, hwave]
  · rw [r.other x hxp hx]

theorem rounds (h : Balanced T s) (hw : (s p).wave ≠ 0) {x : ι} (hx : x ≠ T.root) :
    (s' (T.parent x)).released = (s' x).released + (s' x).wave := by
  have hround := h.rounds x hx
  by_cases hxc : x ∈ T.children p
  · obtain ⟨-, hpar⟩ := T.mem_children.mp hxc
    have hfull := ((h.full_iff p).mp (h.full_of_wave hw).1).2
    have hidle := ((contributed_eq_one T).mp (hfull x hxc)).2.2
    rw [hpar, r.self, r.child x hxc]
    rw [hpar] at hround
    dsimp only
    omega
  · have hpar : T.parent x ≠ p := fun he => hxc (T.mem_children.mpr ⟨hx, he⟩)
    have hparent : (s' (T.parent x)).released = (s (T.parent x)).released := by
      by_cases hm : T.parent x ∈ T.children p
      · rw [r.child _ hm]
      · rw [r.other _ hpar hm]
    rw [hparent, hround]
    by_cases hxp : x = p
    · rw [hxp, r.self]
      dsimp only
      omega
    · rw [r.other x hxp hxc]

theorem once (h : Balanced T s) (hw : (s p).wave ≠ 0) (x : ι) :
    (s' x).up + (s' x).wave ≤ if Full T x (s' x) then 1 else 0 := by
  obtain ⟨hfull, hup, hwave⟩ := h.full_of_wave hw
  by_cases hxp : x = p
  · rw [hxp, if_neg r.not_full, r.self]
    dsimp only
    omega
  · by_cases hxc : x ∈ T.children p
    · have hkids := ((h.full_iff p).mp hfull).2
      obtain ⟨hf, hu, h0⟩ := (contributed_eq_one T).mp (hkids x hxc)
      have hf' : Full T x { s x with wave := (s x).wave + 1 } := hf
      rw [r.child x hxc, if_pos hf']
      dsimp only
      omega
    · rw [r.other x hxp hxc]
      exact h.once x

theorem counted (h : Balanced T s) (hw : (s p).wave ≠ 0) (x : ι) :
    (s' x).count = (if (s' x).waiting then 1 else 0) + ∑ c ∈ T.children x, contributed T c (s' c) := by
  by_cases hxp : x = p
  · subst hxp
    rw [Finset.sum_congr rfl fun c hc => r.contributed_child hc, r.self]
    simp
  · have hsum : ∑ c ∈ T.children x, contributed T c (s' c) =
        ∑ c ∈ T.children x, contributed T c (s c) := by
      refine Finset.sum_congr rfl fun c hc => r.contributed_other h hw fun hcp => ?_
      exact hxp ((T.mem_children.mp hc).2.symm.trans (T.mem_children.mp hcp).2)
    rw [hsum]
    by_cases hxc : x ∈ T.children p
    · rw [r.child x hxc]
      exact h.counted x
    · rw [r.other x hxp hxc]
      exact h.counted x

theorem balanced (h : Balanced T s) (hw : (s p).wave ≠ 0) : Balanced T s' := by
  have hroot : T.root ∉ T.children p := fun hm => (T.mem_children.mp hm).1 rfl
  refine ⟨fun x hx => r.rounds h hw hx, r.once h hw, ?_, fun hf => ?_, r.counted h hw⟩
  · by_cases hr : T.root = p
    · rw [hr, r.self]
      exact (h.full_of_wave hw).2.1
    · rw [r.other _ hr hroot]
      exact h.root_up
  · by_cases hr : T.root = p
    · rw [hr] at hf
      exact absurd hf r.not_full
    · rw [r.other _ hr hroot] at hf ⊢
      exact h.root_wave hf

end Released

/-! ## Steps -/

variable [DecidableEq ι] (T)

/-- A node that has just become full contributes to its parent, the root to itself. -/
def settle (p : ι) (n : Node) : Node :=
  if Full T p n then
    if p = T.root then { n with wave := n.wave + 1 } else { n with up := n.up + 1 }
  else n

def step (s : State ι) : Action ι → Option (State ι)
  | .enter p =>
    if (s p).waiting then none
    else some (Function.update s p
      (settle T p { s p with waiting := true, count := (s p).count + 1 }))
  | .gather c =>
    if c = T.root ∨ (s c).up = 0 then none
    else
      let q := T.parent c
      some (Function.update (Function.update s c { s c with up := (s c).up - 1 }) q
        (settle T q { s q with count := (s q).count + 1 }))
  | .release p =>
    if (s p).wave = 0 then none
    else some fun q =>
      if q = p then
        { s p with waiting := false, count := 0, wave := (s p).wave - 1, released := (s p).released + 1 }
      else if q ∈ T.children p then { s q with wave := (s q).wave + 1 }
      else s q

@[simp] theorem settle_waiting (p : ι) (n : Node) : (settle T p n).waiting = n.waiting := by
  unfold settle
  split_ifs <;> rfl

@[simp] theorem settle_count (p : ι) (n : Node) : (settle T p n).count = n.count := by
  unfold settle
  split_ifs <;> rfl

@[simp] theorem settle_released (p : ι) (n : Node) : (settle T p n).released = n.released := by
  unfold settle
  split_ifs <;> rfl

@[simp] theorem full_settle (p : ι) (n : Node) : Full T p (settle T p n) ↔ Full T p n := by
  simp [Full]

theorem settle_wave_of_ne {p : ι} (hp : p ≠ T.root) (n : Node) : (settle T p n).wave = n.wave := by
  unfold settle
  split_ifs <;> rfl

theorem settle_up_root {p : ι} (hp : p = T.root) (n : Node) : (settle T p n).up = n.up := by
  unfold settle
  split_ifs <;> rfl

theorem settle_wave_root {p : ι} (hp : p = T.root) {n : Node} (hn : Full T p n) :
    (settle T p n).wave = n.wave + 1 := by
  unfold settle
  rw [if_pos hn, if_pos hp]

/-- Settling a node with nothing in flight sends exactly what being full asks for. -/
theorem settle_sends {p : ι} {n : Node} (hn : n.up = 0 ∧ n.wave = 0) :
    (settle T p n).up + (settle T p n).wave = if Full T p n then 1 else 0 := by
  unfold settle
  split_ifs <;> simp [hn.1, hn.2]

theorem contributed_settle {p : ι} {n : Node} (hn : n.up = 0 ∧ n.wave = 0) :
    contributed T p (settle T p n) = 0 := by
  unfold contributed
  rw [settle_sends T hn]
  simp

variable {T}

/-- Where one idle node settles and the others send nothing more, the invariant is a
matter of the counts. -/
theorem Balanced.of_settled (h : Balanced T s) {q : ι} {n : Node} (hidle : (s q).wave = 0)
    (hn : n.up = 0 ∧ n.wave = 0) (hq : s' q = settle T q n)
    (hreleased : ∀ x, (s' x).released = (s x).released)
    (hwave : ∀ x, x ≠ q → (s' x).wave = (s x).wave)
    (honce : ∀ x, x ≠ q → (s' x).up + (s' x).wave ≤ if Full T x (s' x) then 1 else 0)
    (hroot : T.root ≠ q → s' T.root = s T.root)
    (hcounted : ∀ x, (s' x).count =
      (if (s' x).waiting then 1 else 0) + ∑ c ∈ T.children x, contributed T c (s' c)) :
    Balanced T s' where
  rounds c hc := by
    rw [hreleased, hreleased, h.rounds c hc]
    by_cases hcq : c = q
    · subst hcq
      rw [hq, settle_wave_of_ne T hc, hn.2, hidle]
    · rw [hwave c hcq]
  once x := by
    by_cases hx : x = q
    · rw [hx, hq, settle_sends T hn]
      simp only [full_settle, le_refl]
    · exact honce x hx
  root_up := by
    by_cases hr : T.root = q
    · rw [hr, hq, settle_up_root T hr.symm]
      exact hn.1
    · rw [hroot hr]
      exact h.root_up
  root_wave hf := by
    by_cases hr : T.root = q
    · rw [hr, hq, full_settle] at hf
      rw [hr, hq, settle_wave_root T hr.symm hf, hn.2]
    · rw [hroot hr] at hf ⊢
      exact h.root_wave hf
  counted := hcounted

/-- Entering: the node's own contribution is counted and, if it was the last
one missing, sent on at once, so its parent sees no change yet. -/
theorem Balanced.enter (h : Balanced T s) {p : ι} (hw : (s p).waiting = false) :
    Balanced T (Function.update s p
      (settle T p { s p with waiting := true, count := (s p).count + 1 })) := by
  have hnf := h.not_full hw
  have hidle := h.idle hnf
  have hzero := contributed_of_not_full hnf
  set n : Node := { s p with waiting := true, count := (s p).count + 1 } with hn
  have hnidle : n.up = 0 ∧ n.wave = 0 := hidle
  have hcontrib : ∀ c, contributed T c (Function.update s p (settle T p n) c) =
      contributed T c (s c) := by
    intro c
    by_cases hc : c = p
    · subst hc
      rw [Function.update_self, contributed_settle T hnidle, hzero]
    · rw [Function.update_of_ne hc]
  have hother : ∀ x, x ≠ p → Function.update s p (settle T p n) x = s x :=
    fun x hx => Function.update_of_ne hx _ _
  refine h.of_settled hidle.2 hnidle (Function.update_self ..) (fun x => ?_)
    (fun x hx => by rw [hother x hx]) (fun x hx => by rw [hother x hx]; exact h.once x)
    (hother T.root) fun x => ?_
  · by_cases hx : x = p
    · subst hx
      simp [hn]
    · rw [hother x hx]
  · rw [Finset.sum_congr rfl fun c _ => hcontrib c]
    by_cases hx : x = p
    · subst hx
      have hc := h.counted x
      rw [Function.update_self]
      simp only [hw, Bool.false_eq_true, if_false, settle_count, settle_waiting, hn, if_true] at hc ⊢
      omega
    · rw [hother x hx]
      exact h.counted x

/-- Where one node comes to contribute, its parent has one more contribution and no other
node has. -/
theorem sum_contributed_add_one {c : ι} (hc : c ≠ T.root) (hbefore : contributed T c (s c) = 0)
    (hafter : contributed T c (s' c) = 1)
    (hother : ∀ y, y ≠ c → contributed T y (s' y) = contributed T y (s y)) (x : ι) :
    ∑ y ∈ T.children x, contributed T y (s' y) =
      (∑ y ∈ T.children x, contributed T y (s y)) + if x = T.parent c then 1 else 0 := by
  by_cases hx : x = T.parent c
  · have hmem : c ∈ T.children x := T.mem_children.mpr ⟨hc, hx.symm⟩
    rw [if_pos hx, ← Finset.add_sum_erase _ _ hmem, ← Finset.add_sum_erase _ _ hmem, hbefore, hafter,
      Finset.sum_congr rfl fun y hy => hother y (Finset.ne_of_mem_erase hy)]
    omega
  · rw [if_neg hx, add_zero]
    refine Finset.sum_congr rfl fun y hy => hother y ?_
    rintro rfl
    exact hx (T.mem_children.mp hy).2.symm

/-- Gathering moves one contribution from the child's channel into the parent's count. -/
theorem Balanced.gather (h : Balanced T s) {c : ι} (hc : c ≠ T.root) (hu : (s c).up ≠ 0) :
    Balanced T (Function.update (Function.update s c { s c with up := (s c).up - 1 }) (T.parent c)
      (settle T (T.parent c) { s (T.parent c) with count := (s (T.parent c)).count + 1 })) := by
  obtain ⟨hfull, hup, hwave⟩ := h.full_of_up hu
  set q := T.parent c with hq
  have hmem : c ∈ T.children q := T.mem_children.mpr ⟨hc, rfl⟩
  have hqc : q ≠ c := T.parent_ne hc
  -- the parent still waits for this child, so it is not full
  have hqnf : ¬ Full T q (s q) := by
    intro hf
    have hone := ((h.full_iff q).mp hf).2 c hmem
    exact hu ((contributed_eq_one T).mp hone).2.1
  have hqidle := h.idle hqnf
  set m : Node := { s c with up := (s c).up - 1 } with hm
  set n : Node := { s q with count := (s q).count + 1 } with hn
  have hnidle : n.up = 0 ∧ n.wave = 0 := hqidle
  set s' := Function.update (Function.update s c m) q (settle T q n) with hs'
  have hs'q : s' q = settle T q n := by rw [hs', Function.update_self]
  have hs'c : s' c = m := by rw [hs', Function.update_of_ne hqc.symm, Function.update_self]
  have hs'o : ∀ x, x ≠ q → x ≠ c → s' x = s x := by
    intro x hxq hxc
    rw [hs', Function.update_of_ne hxq, Function.update_of_ne hxc]
  have hmfull : Full T c m := hfull
  have hmone : contributed T c m = 1 := (contributed_eq_one T).mpr ⟨hmfull, by simp [hm, hup], hwave⟩
  have hzero : contributed T c (s c) = 0 := by
    simp [contributed, hfull, hup]
  have hcontrib : ∀ x, x ≠ c → contributed T x (s' x) = contributed T x (s x) := by
    intro x hxc
    by_cases hxq : x = q
    · rw [hxq, hs'q, contributed_settle T hnidle, contributed_of_not_full hqnf]
    · rw [hs'o x hxq hxc]
  refine h.of_settled hqidle.2 hnidle hs'q (fun x => ?_) (fun x hxq => ?_) (fun x hxq => ?_)
    (fun hr => hs'o _ hr (Ne.symm hc)) fun x => ?_
  · by_cases hxq : x = q
    · rw [hxq, hs'q]
      simp [hn]
    · by_cases hxc : x = c
      · rw [hxc, hs'c]
      · rw [hs'o x hxq hxc]
  · by_cases hxc : x = c
    · rw [hxc, hs'c]
    · rw [hs'o x hxq hxc]
  · by_cases hxc : x = c
    · rw [hxc, hs'c]
      have hle : m.up + m.wave ≤ 1 := by
        simp only [hm]
        omega
      rwa [if_pos hmfull]
    · rw [hs'o x hxq hxc]
      exact h.once x
  · have hcount := h.counted x
    have hsum := sum_contributed_add_one hc hzero (by rw [hs'c, hmone]) hcontrib x
    by_cases hxq : x = q
    · rw [hxq] at hcount hsum ⊢
      rw [hs'q, hsum, if_pos hq, settle_count, settle_waiting]
      simp only [hn]
      omega
    · rw [hsum, if_neg hxq, add_zero]
      by_cases hxc : x = c
      · subst hxc
        rw [hs'c]
        exact hcount
      · rw [hs'o x hxq hxc]
        exact hcount

/-- Releasing takes the round down: the node's counters restart and each of
its children, all of which are full, is sent a release. -/
theorem Balanced.release (h : Balanced T s) {p : ι} (hw : (s p).wave ≠ 0) :
    Balanced T (fun q =>
      if q = p then
        { s p with waiting := false, count := 0, wave := (s p).wave - 1, released := (s p).released + 1 }
      else if q ∈ T.children p then { s q with wave := (s q).wave + 1 }
      else s q) := by
  refine Released.balanced (p := p) ⟨by simp, ?_, ?_⟩ h hw
  · intro c hc
    have hne : c ≠ p := fun he => T.self_notMem_children p (he ▸ hc)
    simp [hne, hc]
  · intro x hx hc
    simp [hx, hc]

theorem Balanced.step (h : Balanced T s) {a : Action ι} (hs : step T s a = some s') :
    Balanced T s' := by
  cases a with
  | enter p =>
    simp only [CombiningTree.step] at hs
    split_ifs at hs with hw
    obtain rfl := Option.some.inj hs
    exact h.enter (by simpa using hw)
  | gather c =>
    simp only [CombiningTree.step] at hs
    split_ifs at hs with hc
    obtain rfl := Option.some.inj hs
    exact h.gather (fun he => hc (.inl he)) (fun he => hc (.inr he))
  | release p =>
    simp only [CombiningTree.step] at hs
    split_ifs at hs with hw
    obtain rfl := Option.some.inj hs
    exact h.release hw

/-- How often a node has entered: the rounds it was released from, and the one it is in. -/
def entries (n : Node) : ℕ := n.released + if n.waiting then 1 else 0

/-- Only entering changes how often a node has entered. -/
theorem Balanced.entries_step (h : Balanced T s) {a : Action ι} (hs : CombiningTree.step T s a = some s')
    (q : ι) : entries (s' q) = entries (s q) + if a = .enter q then 1 else 0 := by
  cases a with
  | enter p =>
    simp only [CombiningTree.step] at hs
    split_ifs at hs with hw
    obtain rfl := Option.some.inj hs
    by_cases hq : q = p
    · subst hq
      simp [entries, hw]
    · simp [hq, Ne.symm hq]
  | gather c =>
    simp only [CombiningTree.step] at hs
    split_ifs at hs with hc
    obtain rfl := Option.some.inj hs
    by_cases hq : q = T.parent c
    · subst hq
      simp [entries]
    · by_cases hqc : q = c
      · subst hqc
        simp [entries, hq]
      · simp [hq, hqc]
  | release p =>
    simp only [CombiningTree.step] at hs
    split_ifs at hs with hw
    obtain rfl := Option.some.inj hs
    have hwait := ((h.full_iff p).mp (h.full_of_wave hw).1).1
    by_cases hq : q = p
    · subst hq
      simp [entries, hwait]
    · by_cases hc : q ∈ T.children p <;> simp [entries, hq, hc]

/-! ## Termination -/

/-- What a node in a round still waits for: that its contribution is gathered,
and its release. -/
def owed (T : ParentTree ι) (p : ι) (n : Node) : ℕ :=
  if n.waiting then (if Full T p n ∧ n.up = 0 then 1 else 2) else 0

omit [DecidableEq ι] in
theorem owed_le_two (p : ι) (n : Node) : owed T p n ≤ 2 := by
  unfold owed
  split_ifs <;> omega

/-- Counting one more contribution, and settling, gives a node that is not full nothing more to
wait for. -/
theorem owed_settle_le {p : ι} {n n' : Node} (hf : ¬ Full T p n) (hw : n'.waiting = n.waiting) :
    owed T p (settle T p n') ≤ owed T p n := by
  have hn : owed T p n = if n.waiting then 2 else 0 := by
    have hnot : ¬ (Full T p n ∧ n.up = 0) := fun h => hf h.1
    simp only [owed, hnot, if_false]
  rw [hn, ← hw, ← settle_waiting T p n', owed]
  split_ifs <;> omega

/-- A step that is no entry leaves no node with more to wait for, and one with less. -/
theorem Balanced.owed_step (h : Balanced T s) {a : Action ι} (ha : ∀ p, a ≠ .enter p)
    (hs : CombiningTree.step T s a = some s') :
    (∀ q, owed T q (s' q) ≤ owed T q (s q)) ∧ ∃ q, owed T q (s' q) < owed T q (s q) := by
  cases a with
  | enter p => exact absurd rfl (ha p)
  | gather c =>
    simp only [CombiningTree.step] at hs
    split_ifs at hs with hc
    obtain rfl := Option.some.inj hs
    obtain ⟨hroot, hup⟩ := not_or.mp hc
    obtain ⟨hfull, hone, hwave⟩ := h.full_of_up hup
    have hne : T.parent c ≠ c := T.parent_ne hroot
    -- the parent still lacks this contribution
    have hparent : ¬ Full T (T.parent c) (s (T.parent c)) := by
      intro hf
      have hin := ((h.full_iff _).mp hf).2 c (T.mem_children.mpr ⟨hroot, rfl⟩)
      exact hup ((contributed_eq_one T).mp hin).2.1
    have hself : owed T c { s c with up := (s c).up - 1 } < owed T c (s c) := by
      have hwait : (s c).waiting = true := ((h.full_iff c).mp hfull).1
      have hfull' : Full T c { s c with up := (s c).up - 1 } := hfull
      have hafter : owed T c { s c with up := (s c).up - 1 } = 1 := by
        rw [owed, if_pos hwait, if_pos ⟨hfull', by dsimp only; omega⟩]
      have hbefore : owed T c (s c) = 2 := by
        rw [owed, if_pos hwait, if_neg (fun hx => hup hx.2)]
      omega
    refine ⟨fun q => ?_, c, ?_⟩
    · by_cases hq : q = T.parent c
      · subst hq
        rw [Function.update_self]
        exact owed_settle_le hparent rfl
      · rw [Function.update_of_ne hq]
        by_cases hqc : q = c
        · subst hqc
          rw [Function.update_self]
          exact hself.le
        · rw [Function.update_of_ne hqc]
    · rw [Function.update_of_ne hne.symm, Function.update_self]
      exact hself
  | release p =>
    simp only [CombiningTree.step] at hs
    split_ifs at hs with hw
    obtain rfl := Option.some.inj hs
    obtain ⟨hfull, -, -⟩ := h.full_of_wave hw
    have hwait : (s p).waiting = true := ((h.full_iff p).mp hfull).1
    refine ⟨fun q => ?_, p, ?_⟩
    · dsimp only
      by_cases hq : q = p
      · rw [if_pos hq]
        exact Nat.zero_le _
      · rw [if_neg hq]
        by_cases hc : q ∈ T.children p
        · rw [if_pos hc]
          exact le_rfl
        · rw [if_neg hc]
    · dsimp only
      rw [if_pos rfl]
      show 0 < owed T p (s p)
      rw [owed, if_pos hwait]
      split_ifs <;> omega

/-- With every step that is no entry, there is less to wait for. -/
theorem Balanced.sum_owed_lt [Fintype ι] (h : Balanced T s) {a : Action ι} (ha : ∀ p, a ≠ .enter p)
    (hs : CombiningTree.step T s a = some s') :
    ∑ q, owed T q (s' q) < ∑ q, owed T q (s q) := by
  obtain ⟨hle, q, hlt⟩ := h.owed_step ha hs
  exact Finset.sum_lt_sum (fun q _ => hle q) ⟨q, Finset.mem_univ q, hlt⟩

/-- Entering gives only the node that enters something to wait for. -/
theorem sum_owed_enter_le [Fintype ι] {p : ι} (hs : CombiningTree.step T s (.enter p) = some s') :
    ∑ q, owed T q (s' q) ≤ ∑ q, owed T q (s q) + 2 := by
  simp only [CombiningTree.step] at hs
  split_ifs at hs
  obtain rfl := Option.some.inj hs
  rw [← Finset.add_sum_erase _ _ (Finset.mem_univ p), ← Finset.add_sum_erase _ _ (Finset.mem_univ p)]
  have hothers : ∀ q ∈ Finset.univ.erase p, owed T q (Function.update s p (settle T p
      { s p with waiting := true, count := (s p).count + 1 }) q) = owed T q (s q) := by
    intro q hq
    rw [Function.update_of_ne (Finset.ne_of_mem_erase hq)]
  rw [Finset.sum_congr rfl hothers]
  refine le_trans (Nat.add_le_add_right (owed_le_two p _) _) ?_
  omega

end CombiningTree
