import Damaris.Buffer.RefCount

/-!
# Several handles are destroyed

What is left of a heap when handles end one after the other, and which regions are handed back.
-/
set_option linter.unusedSectionVars false

namespace Damaris.Buffer.Heap

variable {ι R : Type*} [DecidableEq ι] [DecidableEq R] {h m h' : Heap ι R}

theorem owns_unlink (o : ι) : (h.unlink o).owns = h.owns := by
  unfold unlink
  split
  · rfl
  · dsimp only
    split_ifs <;> rfl

/-- What two steps hand back, where handles only go away. -/
theorem Releases.trans (hc : h.Counted) (h₁ : h.Releases m) (h₂ : m.Releases h')
    (hm : ∀ o g c, m.Holds o g c → h.Holds o g c) (hm' : ∀ o g c, h'.Holds o g c → m.Holds o g c)
    (howns : m.owns = h.owns) : h.Releases h' := by
  have hempty : ∀ g, m.linked g = ∅ → h'.linked g = ∅ := by
    intro g hg
    by_contra hne
    obtain ⟨o, ho⟩ := Finset.nonempty_iff_ne_empty.mpr hne
    obtain ⟨c, hoc⟩ := mem_linked.mp ho
    exact linked_ne_empty (hm' o g c hoc) hg
  intro g
  constructor
  · rintro ⟨⟨o, c, ho, hown⟩, hlast⟩
    by_cases hmid : m.linked g = ∅
    · have hnone : ¬ ∃ o c, m.Holds o g c ∧ m.owns c = true :=
        fun ⟨o', c', ho', _⟩ => linked_ne_empty ho' hmid
      rw [(h₂ g).2 fun hall => hnone hall.1, (h₁ g).1 ⟨⟨o, c, ho, hown⟩, hmid⟩]
    · obtain ⟨o', ho'⟩ := Finset.nonempty_iff_ne_empty.mpr hmid
      obtain ⟨c', hoc'⟩ := mem_linked.mp ho'
      obtain rfl : c = c' := (hc.same ho (hm _ _ _ hoc')).mp rfl
      rw [(h₂ g).1 ⟨⟨o', c, hoc', howns ▸ hown⟩, hlast⟩, (h₁ g).2 fun hall => hmid hall.2]
  · intro hnot
    have hfirst : ¬ ((∃ o c, h.Holds o g c ∧ h.owns c = true) ∧ m.linked g = ∅) :=
      fun hall => hnot ⟨hall.1, hempty g hall.2⟩
    have hsecond : ¬ ((∃ o c, m.Holds o g c ∧ m.owns c = true) ∧ h'.linked g = ∅) :=
      fun ⟨⟨o, c, ho, hown⟩, hlast⟩ => hnot ⟨⟨o, c, hm _ _ _ ho, howns ▸ hown⟩, hlast⟩
    rw [(h₂ g).2 hsecond, (h₁ g).2 hfirst]

theorem Releases.refl (h : Heap ι R) : h.Releases h := by
  refine .keep rfl ?_
  rintro g ⟨o, c, ho, -⟩
  exact linked_ne_empty ho

/-- What is left when some handles are destroyed. -/
structure Destroyed (h h' : Heap ι R) (os : List ι) : Prop where
  counted : h'.Counted
  live : ∀ o, o ∈ h'.live ↔ o ∈ h.live ∧ o ∉ os
  holds : ∀ o g c, h'.Holds o g c ↔ h.Holds o g c ∧ o ∉ os
  owns : h'.owns = h.owns
  releases : h.Releases h'

theorem destroy_destroyed (hc : h.Counted) {o : ι} (ho : o ∈ h.live) :
    h.Destroyed ((h.unlink o).remove o) [o] := by
  obtain ⟨hcounted, hreleases⟩ := destroy_spec hc ho
  refine ⟨hcounted, fun x => ?_, fun x g c => ?_, owns_unlink o, hreleases⟩
  · rw [remove, mem_live_unlink, Finset.mem_erase, List.mem_singleton]
    tauto
  · rw [holds_remove, List.mem_singleton]
    by_cases hx : x = o
    · simp [hx]
    · rw [holds_unlink_of_ne hx]

/-- Handles are destroyed one after the other. -/
theorem run_destroy {os : List ι} (hnodup : os.Nodup) (hc : h.Counted)
    (hlive : ∀ o ∈ os, o ∈ h.live) :
    ∃ h', StepSystem.run step h (os.map .destroy) = some h' ∧ h.Destroyed h' os := by
  induction os generalizing h with
  | nil => exact ⟨h, rfl, hc, by simp, by simp, rfl, .refl h⟩
  | cons o os ih =>
    obtain ⟨hnot, hnodup⟩ := List.nodup_cons.mp hnodup
    have ho : o ∈ h.live := hlive o List.mem_cons_self
    have hfirst := destroy_destroyed hc ho
    have hrest : ∀ x ∈ os, x ∈ ((h.unlink o).remove o).live := by
      intro x hx
      rw [hfirst.live, List.mem_singleton]
      exact ⟨hlive x (List.mem_cons_of_mem _ hx), fun he => hnot (he ▸ hx)⟩
    obtain ⟨h', hrun, hd⟩ := ih hnodup hfirst.counted hrest
    have hholds : ∀ x g c, h'.Holds x g c ↔ h.Holds x g c ∧ x ∉ o :: os := by
      intro x g c
      rw [hd.holds, hfirst.holds, List.mem_singleton, List.mem_cons]
      tauto
    refine ⟨h', StepSystem.run_cons_eq_some.mpr ⟨_, if_pos ho, hrun⟩, hd.counted, fun x => ?_, hholds,
      hd.owns.trans hfirst.owns, ?_⟩
    · rw [hd.live, hfirst.live, List.mem_singleton, List.mem_cons]
      tauto
    · exact .trans hc hfirst.releases hd.releases (fun x g c hx => ((hfirst.holds x g c).mp hx).1)
        (fun x g c hx => ((hd.holds x g c).mp hx).1) hfirst.owns

theorem live_swap (o d : ι) : (h.swap o d).live = h.live := by
  unfold swap
  split
  · rfl
  · split
    · exact mem_live_unlink o
    · rfl

/-- Only its own destruction ends a handle. -/
theorem live_of_step {a : Operation ι R} (hs : h.step a = some h') {o : ι} (ho : o ∈ h.live)
    (hnot : a ≠ .destroy o) : o ∈ h'.live := by
  unfold step at hs
  split_ifs at hs
  cases a with
  | default x =>
    obtain rfl := Option.some.inj hs
    exact Finset.mem_insert_of_mem ho
  | construct x address size =>
    obtain rfl := Option.some.inj hs
    exact Finset.mem_insert_of_mem ho
  | copy x d =>
    obtain rfl := Option.some.inj hs
    rw [live_swap]
    exact Finset.mem_insert_of_mem ho
  | assign x d =>
    obtain rfl := Option.some.inj hs
    rwa [live_swap]
  | link x address size =>
    obtain rfl := Option.some.inj hs
    show o ∈ (h.unlink x).live
    rwa [mem_live_unlink]
  | unlink x =>
    obtain rfl := Option.some.inj hs
    rwa [mem_live_unlink]
  | lose x =>
    obtain ⟨c, -, rfl⟩ := Option.map_eq_some_iff.mp hs
    exact ho
  | gain x =>
    obtain ⟨c, -, rfl⟩ := Option.map_eq_some_iff.mp hs
    exact ho
  | destroy x =>
    obtain rfl := Option.some.inj hs
    rw [remove, mem_live_unlink]
    exact Finset.mem_erase.mpr ⟨fun he => hnot (by rw [he]), ho⟩

end Damaris.Buffer.Heap
