import Damaris.Buffer.BlockingLoop
import Damaris.Data.BlockIndex

/-!
# Requests that cannot be met

What is free, what is on its way back and what is handed out add up, for each block of a segment,
to what the block had in the beginning. A request for more never succeeds; the loop of a blocking
allocation ignores that `WaitAvailable` says so, and goes on for ever.
-/
set_option linter.unusedSectionVars false

namespace Damaris.Buffer

/-- What a process is giving back to a block. -/
def Pc.returning {more : ℕ} (x : Pc more) (b : Fin (more + 1)) : ℕ :=
  match x with
  | .deallocLock b' amount | .deallocating b' amount => if b' = b then amount else 0
  | _ => 0

namespace SharedMemorySegment

variable {more : ℕ} {P : Type*} [DecidableEq P] [Fintype P] {s s' : SharedMemorySegment more P} {p : P}
  {b : Fin (more + 1)}

/-- What is free in a block, or about to be. -/
def available (s : SharedMemorySegment more P) (b : Fin (more + 1)) : ℕ :=
  s.free b + ∑ p, (s.pc p).returning b

theorem sum_update (pc : P → Pc more) (p : P) (x : Pc more) (b : Fin (more + 1)) :
    ∑ q, (Function.update pc p x q).returning b + (pc p).returning b =
      ∑ q, (pc q).returning b + x.returning b := by
  have hrest : ∑ q ∈ Finset.univ.erase p, (Function.update pc p x q).returning b =
      ∑ q ∈ Finset.univ.erase p, (pc q).returning b :=
    Finset.sum_congr rfl fun q hq => by rw [Function.update_of_ne (Finset.ne_of_mem_erase hq)]
  rw [← Finset.add_sum_erase _ _ (Finset.mem_univ p), hrest, Function.update_self,
    ← Finset.add_sum_erase _ (fun q => (pc q).returning b) (Finset.mem_univ p)]
  ring

/-- A process that has the same on its way back as before. -/
theorem available_update {x : Pc more} (hfree : s'.free = s.free)
    (hpc : s'.pc = Function.update s.pc p x) (hx : x.returning b = (s.pc p).returning b) :
    s'.available b = s.available b := by
  have hsum := sum_update s.pc p x b
  unfold available
  rw [hfree, hpc]
  omega

theorem returning_notifyAll {b' : Fin (more + 1)} (q : P) :
    ((s.notifyAll b').pc q).returning b = (s.pc q).returning b := by
  simp only [notifyAll]
  split
  · next hq =>
    rw [hq]
    split_ifs <;> rfl
  · rfl

theorem available_acquire {b' : Fin (more + 1)} {x : Pc more} (h : s.acquire b' p x = some s')
    (hx : x.returning b = (s.pc p).returning b) : s'.available b = s.available b := by
  have hpc := pc_of_acquire h
  unfold acquire at h
  split_ifs at h
  obtain rfl := Option.some.inj h
  exact available_update rfl hpc hx

theorem available_advance (h : s.advance p = some s') : s'.available b = s.available b := by
  unfold advance at h
  cases hp : s.pc p with
  | idle => simp [hp] at h
  | blocked size => simp [hp] at h
  | waitLock size =>
    rw [hp] at h
    exact available_acquire h (by rw [hp]; rfl)
  | woken size =>
    rw [hp] at h
    exact available_acquire h (by rw [hp]; rfl)
  | deallocLock b' amount =>
    rw [hp] at h
    exact available_acquire h (by rw [hp]; rfl)
  | deallocating b' amount =>
    rw [hp] at h
    obtain rfl := Option.some.inj h
    have hsum := sum_update s.pc p (.notifying b') b
    have hbefore : (s.pc p).returning b = if b' = b then amount else 0 := by rw [hp]; rfl
    have hafter : (Pc.notifying b' : Pc more).returning b = 0 := rfl
    have hfree : Function.update s.free b' (s.free b' + amount) b =
        s.free b + if b' = b then amount else 0 := by
      by_cases hb : b' = b
      · subst hb
        rw [Function.update_self, if_pos rfl]
      · rw [Function.update_of_ne (Ne.symm hb), if_neg hb]
        rfl
    change Function.update s.free b' (s.free b' + amount) b +
      ∑ q, (Function.update s.pc p (.notifying b') q).returning b = s.available b
    rw [hfree, available]
    omega
  | notifying b' =>
    rw [hp] at h
    obtain rfl := Option.some.inj h
    have hnotified : (s.notifyAll b').available b = s.available b := by
      unfold available
      simp only [returning_notifyAll]
      rfl
    rw [← hnotified]
    refine available_update rfl rfl ?_
    rw [returning_notifyAll, hp]
    rfl
  | leaving b' =>
    rw [hp] at h
    obtain rfl := Option.some.inj h
    exact available_update rfl rfl (by rw [hp]; rfl)
  | scanning size i m =>
    simp only [hp] at h
    by_cases hi : i < more + 1
    · rw [dif_pos hi] at h
      obtain rfl := Option.some.inj h
      exact available_update rfl rfl (by rw [hp]; rfl)
    · rw [dif_neg hi] at h
      by_cases hsize : size > m
      · rw [if_pos hsize] at h
        obtain rfl := Option.some.inj h
        exact available_update rfl rfl (by rw [hp]; rfl)
      · rw [if_neg hsize] at h
        obtain rfl := Option.some.inj h
        exact available_update rfl rfl (by rw [hp]; rfl)

/-- Only an allocation and a call of `Deallocate` change what is available. -/
theorem available_step {max : ℕ} {a : ShmAction more P} (h : s.step max a = some s')
    (halloc : ∀ p b amount, a ≠ .allocate p b amount)
    (hdealloc : ∀ p b amount, a ≠ .deallocate p b amount) : s'.available b = s.available b := by
  cases a with
  | allocate p b amount => exact absurd rfl (halloc p b amount)
  | deallocate p b amount => exact absurd rfl (hdealloc p b amount)
  | waitAvailable p size =>
    simp only [step] at h
    split_ifs at h with hidle
    · obtain rfl := Option.some.inj h
      rfl
    · obtain rfl := Option.some.inj h
      exact available_update rfl rfl (by rw [hidle]; rfl)
  | advance p => exact available_advance h
  | spurious p =>
    simp only [step] at h
    split at h
    · next size hp =>
      obtain rfl := Option.some.inj h
      exact available_update rfl rfl (by rw [hp]; rfl)
    · exact absurd h.symm (Option.some_ne_none s')

theorem available_allocate {max : ℕ} {b' : Fin (more + 1)} {amount : ℕ}
    (h : s.step max (.allocate p b' amount) = some s') :
    s'.available b + (if b' = b then amount else 0) = s.available b ∧ amount ≤ s.free b' := by
  simp only [step] at h
  split_ifs at h with hfits
  obtain rfl := Option.some.inj h
  refine ⟨?_, hfits.2⟩
  change Function.update s.free b' (s.free b' - amount) b + ∑ q, (s.pc q).returning b + _ = _
  unfold available
  by_cases hb : b' = b
  · subst hb
    rw [Function.update_self, if_pos rfl]
    omega
  · rw [Function.update_of_ne (Ne.symm hb), if_neg hb]
    rfl

theorem available_deallocate {max : ℕ} {b' : Fin (more + 1)} {amount : ℕ}
    (h : s.step max (.deallocate p b' amount) = some s') :
    s'.available b = s.available b + if b' = b then amount else 0 := by
  simp only [step] at h
  split_ifs at h with hidle
  obtain rfl := Option.some.inj h
  have hsum := sum_update s.pc p (.deallocLock b' amount) b
  have hbefore : (s.pc p).returning b = 0 := by rw [hidle]; rfl
  have hafter : (Pc.deallocLock b' amount).returning b = if b' = b then amount else 0 := rfl
  change s.free b + ∑ q, (Function.update s.pc p (.deallocLock b' amount) q).returning b = _
  unfold available
  omega

end SharedMemorySegment

namespace Writers

variable {more max : ℕ} {P : Type*} [DecidableEq P] [Fintype P] {s s' : Writers more P}
  {a : WriterAction more P} {free : Fin (more + 1) → ℕ}

/-- What is handed out of a block. -/
def handed (regions : List (Region more)) (b : Fin (more + 1)) : ℕ :=
  (regions.map fun r => if r.1 = b then r.2 else 0).sum

theorem handed_erase {regions : List (Region more)} {r : Region more} (hr : r ∈ regions)
    (b : Fin (more + 1)) :
    handed regions b = (if r.1 = b then r.2 else 0) + handed (regions.erase r) b :=
  ((List.perm_cons_erase hr).map _).sum_eq

/-- Nothing of a block is lost, or there twice. -/
def Balanced (free : Fin (more + 1) → ℕ) (s : Writers more P) : Prop :=
  ∀ b, s.segment.available b + handed s.regions b = free b

theorem balanced_initial : (initial free : Writers more P).Balanced free := by
  intro b
  simp [initial, SharedMemorySegment.create, SharedMemorySegment.available, handed, Pc.returning]

theorem Balanced.allocate (h : s.Balanced free) {p : P} {size : ℕ} {ds : Option (Region more)}
    (hs : s.allocate max p size ds = some s') : s'.Balanced free := by
  cases ds with
  | none =>
    obtain rfl := Option.some.inj hs
    exact h
  | some r =>
    simp only [Writers.allocate] at hs
    split_ifs at hs
    obtain ⟨segment, hsegment, rfl⟩ := Option.map_eq_some_iff.mp hs
    intro b
    have hb := (SharedMemorySegment.available_allocate (b := b) hsegment).1
    have hold := h b
    simp only [handed, List.map_cons, List.sum_cons] at hold ⊢
    omega

theorem Balanced.step (h : s.Balanced free) (hs : s.step max a = some s') : s'.Balanced free := by
  have hsegment : ∀ {act : ShmAction more P} {segment : SharedMemorySegment more P},
      s.segment.step max act = some segment → (∀ p b amount, act ≠ .allocate p b amount) →
      (∀ p b amount, act ≠ .deallocate p b amount) →
      ∀ b, segment.available b + handed s.regions b = free b := fun hact h₁ h₂ b => by
    rw [SharedMemorySegment.available_step hact h₁ h₂]
    exact h b
  cases step_cases hs with
  | call hp hidle => exact h
  | request hp hallocate =>
    have hnew := h.allocate hallocate
    exact hnew
  | wait hp hact => exact hsegment hact (fun _ _ _ => by simp) fun _ _ _ => by simp
  | test hp hidle => exact h
  | leave hp => exact h
  | take hp hallocate => exact h.allocate hallocate
  | give hp hr hact =>
    intro b
    have hb := SharedMemorySegment.available_deallocate (b := b) hact
    have herase := handed_erase hr b
    have hold := h b
    simp only
    omega
  | advance hact => exact hsegment hact (fun _ _ _ => by simp) fun _ _ _ => by simp
  | spurious hact => exact hsegment hact (fun _ _ _ => by simp) fun _ _ _ => by simp

/-- A request for more than a block has ever had fails. -/
theorem Balanced.refuses (h : s.Balanced free) {p : P} {size : ℕ} (hlarge : ∀ b, free b < size)
    {ds : Option (Region more)} (hs : s.allocate max p size ds = some s') : ds = none ∧ s' = s := by
  cases ds with
  | none => exact ⟨rfl, (Option.some.inj hs).symm⟩
  | some r =>
    simp only [Writers.allocate] at hs
    split_ifs at hs with hsize
    obtain ⟨segment, hsegment, -⟩ := Option.map_eq_some_iff.mp hs
    have hfits := (SharedMemorySegment.available_allocate (b := r.1) hsegment).2
    have hle : s.segment.free r.1 ≤ free r.1 := by
      have := h r.1
      unfold SharedMemorySegment.available at this
      omega
    have := hlarge r.1
    omega

/-! ## The loop does not end -/

/-- The process is in the loop, and not in a call of the segment's. -/
def Looping (p : P) (n : ℕ) (s : Writers more P) : Prop :=
  (s.loop p = .first n ∨ s.loop p = .retry n ∨ s.loop p = .wait n none ∨ s.loop p = .waiting n none) ∧
    s.segment.pc p = .idle

theorem idle_of_step {s s' : SharedMemorySegment more P} {p : P} {a : ShmAction more P}
    (h : s.step max a = some s') (hp : s.pc p = .idle)
    (hwait : ∀ size, a = .waitAvailable p size → max < size)
    (hdealloc : ∀ b amount, a ≠ .deallocate p b amount) : s'.pc p = .idle := by
  cases a with
  | allocate q b amount =>
    simp only [SharedMemorySegment.step] at h
    split_ifs at h
    obtain rfl := Option.some.inj h
    exact hp
  | waitAvailable q size =>
    simp only [SharedMemorySegment.step] at h
    split_ifs at h with hidle hsize
    · obtain rfl := Option.some.inj h
      exact hp
    · have hqp : p ≠ q := by
        rintro rfl
        exact hsize (hwait size rfl)
      obtain rfl := Option.some.inj h
      exact (Function.update_of_ne hqp _ _).trans hp
  | deallocate q b amount =>
    simp only [SharedMemorySegment.step] at h
    split_ifs at h
    have hqp : p ≠ q := by
      rintro rfl
      exact hdealloc b amount rfl
    obtain rfl := Option.some.inj h
    exact (Function.update_of_ne hqp _ _).trans hp
  | advance q =>
    have hqp : p ≠ q := by
      rintro rfl
      simp [SharedMemorySegment.step, SharedMemorySegment.advance, hp] at h
    rcases SharedMemorySegment.advance_pc h with ⟨x, hpc, -, -⟩ | ⟨b, -, hpc⟩
    · rw [hpc, Function.update_of_ne hqp, hp]
    · rw [hpc, Function.update_of_ne hqp]
      simp only [SharedMemorySegment.notifyAll, hp]
  | spurious q =>
    simp only [SharedMemorySegment.step] at h
    split at h
    · next size hq =>
      have hqp : p ≠ q := by
        rintro rfl
        rw [hp] at hq
        simp at hq
      obtain rfl := Option.some.inj h
      exact (Function.update_of_ne hqp _ _).trans hp
    · exact absurd h.symm (Option.some_ne_none s')

theorem Looping.congr {p : P} {n : ℕ} (h : s.Looping p n) (hloop : s'.loop p = s.loop p)
    (hpc : s'.segment.pc p = .idle) : s'.Looping p n := by
  unfold Looping
  rw [hloop]
  exact ⟨h.1, hpc⟩

theorem Looping.setLoop {p q : P} {n : ℕ} (h : s.Looping p n) (hqp : q ≠ p) (x : Loop more) :
    (s.setLoop q x).Looping p n :=
  h.congr (Function.update_of_ne hqp.symm _ _) h.2

/-- The process itself goes round the loop. -/
theorem looping_setLoop {p : P} {n : ℕ} {x : Loop more} (hx : x = .first n ∨ x = .retry n ∨
    x = .wait n none ∨ x = .waiting n none) (hidle : s.segment.pc p = .idle) :
    (s.setLoop p x).Looping p n := by
  refine ⟨?_, hidle⟩
  have hset : (s.setLoop p x).loop p = x := Function.update_self ..
  rwa [hset]

theorem loopOf_none {n : ℕ} (hn : 0 < n) : loopOf n (none : Option (Region more)) = .retry n :=
  if_pos hn.ne

theorem Looping.ne {p q : P} {n : ℕ} (h : s.Looping p n) {x : Loop more} (hq : s.loop q = x)
    (hx : ∀ m ds, x ≠ .first m ∧ x ≠ .retry m ∧ x ≠ .wait m ds ∧ x ≠ .waiting m ds) : q ≠ p := by
  rintro rfl
  obtain ⟨h₁, h₂, h₃, h₄⟩ := hx n none
  obtain ⟨hloop | hloop | hloop | hloop, -⟩ := h
  · exact h₁ (hq.symm.trans hloop)
  · exact h₂ (hq.symm.trans hloop)
  · exact h₃ (hq.symm.trans hloop)
  · exact h₄ (hq.symm.trans hloop)

/-- Where the process is says which size it asks for, and that it has got nothing. -/
theorem Looping.place {p : P} {n size : ℕ} (h : s.Looping p n) (ds : Option (Region more)) :
    (s.loop p = .first size ∨ s.loop p = .retry size → size = n) ∧
      (s.loop p = .wait size ds ∨ s.loop p = .waiting size ds → size = n ∧ ds = none) := by
  obtain ⟨hloop | hloop | hloop | hloop, -⟩ := h <;> rw [hloop] <;> constructor <;>
    rintro (he | he) <;> cases he <;> simp

/-- A request of the process itself fails, and it goes on to wait. -/
theorem Looping.request {p q : P} {n size : ℕ} {x : Loop more} {s₁ : Writers more P}
    {ds : Option (Region more)} (h : s.Looping p n) (hb : s.Balanced free) (hfree : ∀ b, free b < n)
    (hq : s.loop q = .first size ∧ x = loopOf size ds ∨ s.loop q = .retry size ∧ x = .wait size ds)
    (hallocate : s.allocate max q size ds = some s₁) : (s₁.setLoop q x).Looping p n := by
  have hn : 0 < n := Nat.zero_lt_of_lt (hfree 0)
  obtain ⟨hkeep, hpc⟩ := allocate_keeps hallocate
  by_cases hqp : q = p
  · subst hqp
    rcases hq with ⟨hq, rfl⟩ | ⟨hq, rfl⟩
    · obtain rfl : size = n := (h.place ds).1 (.inl hq)
      obtain ⟨rfl, rfl⟩ := hb.refuses hfree hallocate
      exact looping_setLoop (.inr (.inl (loopOf_none hn))) h.2
    · obtain rfl : size = n := (h.place ds).1 (.inr hq)
      obtain ⟨rfl, rfl⟩ := hb.refuses hfree hallocate
      exact looping_setLoop (.inr (.inr (.inl rfl))) h.2
  · exact (h.congr (by rw [hkeep]) (by rw [hpc, h.2])).setLoop hqp x

/-- `WaitAvailable` sends the process itself away at once. -/
theorem Looping.wait {p q : P} {n size : ℕ} {ds : Option (Region more)}
    {segment : SharedMemorySegment more P} (h : s.Looping p n) (hmax : max < n)
    (hq : s.loop q = .wait size ds)
    (hsegment : s.segment.step max (.waitAvailable q size) = some segment) :
    ({ s with segment := segment }.setLoop q (.waiting size ds)).Looping p n := by
  by_cases hqp : q = p
  · subst hqp
    obtain ⟨rfl, rfl⟩ : size = n ∧ ds = none := (h.place ds).2 (.inl hq)
    refine looping_setLoop (.inr (.inr (.inr rfl))) (idle_of_step hsegment h.2 ?_ ?_)
    · intro size he
      obtain ⟨-, rfl⟩ := ShmAction.waitAvailable.inj he
      exact hmax
    · intro b amount he
      simp at he
  · have hidle : segment.pc p = .idle := by
      refine idle_of_step hsegment h.2 (fun size he => ?_) fun b amount he => ?_
      · exact absurd (ShmAction.waitAvailable.inj he).1 hqp
      · simp at he
    have hsame : ({ s with segment := segment } : Writers more P).Looping p n := h.congr rfl hidle
    exact hsame.setLoop hqp _

/-- The process itself does not leave the loop where its region is missing. -/
theorem Looping.test {p q : P} {n size : ℕ} {ds : Option (Region more)} (h : s.Looping p n)
    (hn : 0 < n) (hq : s.loop q = .waiting size ds) :
    (s.setLoop q (loopOf size ds)).Looping p n := by
  by_cases hqp : q = p
  · subst hqp
    obtain ⟨rfl, rfl⟩ : size = n ∧ ds = none := (h.place ds).2 (.inr hq)
    exact looping_setLoop (.inr (.inl (loopOf_none hn))) h.2
  · exact h.setLoop hqp _

/-- Nothing that any process does takes it out of the loop. -/
theorem Looping.step {p : P} {n : ℕ} (h : s.Looping p n) (hb : s.Balanced free)
    (hfree : ∀ b, free b < n) (hmax : max < n) (hs : s.step max a = some s') : s'.Looping p n := by
  cases step_cases hs with
  | call hq hidle => exact h.setLoop (h.ne hq fun _ _ => by simp) _
  | request hq hallocate => exact h.request hb hfree hq hallocate
  | wait hq hsegment => exact h.wait hmax hq hsegment
  | test hq hidle => exact h.test (Nat.zero_lt_of_lt hmax) hq
  | leave hq => exact h.setLoop (h.ne hq fun _ _ => by simp) _
  | take hq hallocate =>
    obtain ⟨hloop, hpc⟩ := allocate_keeps hallocate
    exact h.congr (by rw [hloop]) (by rw [hpc, h.2])
  | give hq hr hsegment =>
    refine h.congr rfl (idle_of_step hsegment h.2 (fun size he => by simp at he) fun b amount he => ?_)
    exact h.ne hq (fun _ _ => by simp) (ShmAction.deallocate.inj he).1
  | advance hsegment =>
    exact h.congr rfl (idle_of_step hsegment h.2 (fun size he => by simp at he)
      fun b amount he => by simp at he)
  | spurious hsegment =>
    exact h.congr rfl (idle_of_step hsegment h.2 (fun size he => by simp at he)
      fun b amount he => by simp at he)

/-- There is always a next step. -/
theorem Looping.goesOn {p : P} {n : ℕ} (h : s.Looping p n) (hmax : max < n) :
    (s.step max (.request p none)).isSome ∨ (s.step max (.wait p)).isSome ∨
      (s.step max (.test p)).isSome := by
  obtain ⟨hloop | hloop | hloop | hloop, hidle⟩ := h
  · exact .inl (by simp [Writers.step, hloop, Writers.allocate])
  · exact .inl (by simp [Writers.step, hloop, Writers.allocate])
  · exact .inr (.inl (by simp [Writers.step, hloop, SharedMemorySegment.step, hidle, hmax]))
  · exact .inr (.inr (by simp [Writers.step, hloop, hidle]))

theorem looping_run (hfree : ∀ b, free b ≤ max) {acts : List (WriterAction more P)} {p : P} {n : ℕ}
    (hb : s.Balanced free) (hn : max < n)
    (hr : StepSystem.run (step max) s (.call p (some n) :: acts) = some s') : s'.Looping p n := by
  obtain ⟨s₁, hcall, hrest⟩ := StepSystem.run_cons_eq_some.mp hr
  have hb₁ := hb.step hcall
  have hloop : s₁.Looping p n := by
    simp only [Writers.step] at hcall
    split_ifs at hcall with hp
    obtain rfl := Option.some.inj hcall
    exact looping_setLoop (.inl rfl) hp.2
  have hlarge : ∀ b, free b < n := fun b => (hfree b).trans_lt hn
  exact (StepSystem.run_invariant (I := fun s => s.Looping p n ∧ s.Balanced free)
    (fun s a s' hI hs => ⟨hI.1.step hI.2 hlarge hn hs, hI.2.step hs⟩) ⟨hloop, hb₁⟩ hrest).1

theorem Looping.not_returned {p : P} {n : ℕ} (h : s.Looping p n)
    (result : Option (Option (Region more))) : s.loop p ≠ .returned result := fun he =>
  h.ne he (fun _ _ => by simp) rfl

end Writers
end Damaris.Buffer

namespace Damaris.Data.Variable

variable {D : Type*} {v : Variable D} {source iteration bid : ℤ} {fill finish : Block D → Block D}
  {size : Block D → ℕ}

/-- The size of the request that `Allocate`, `AllocateAligned` or `AllocateFixedSize` makes,
with a buffer or without one; `none` if it returns the null block before. -/
def requestOf (v : Variable D) (hasBuffer : Bool) (source iteration bid : ℤ)
    (fill : Block D → Block D) (size : Block D → ℕ) : Option ℕ :=
  if hasBuffer = false ∨ (v.getBlock source (v.normalise iteration) bid).isSome then none
  else some (size (fill (Block.new source (v.normalise iteration) bid v.layout)))

theorem allocateWith_of_requestOf {hasBuffer : Bool}
    (h : v.requestOf hasBuffer source iteration bid fill size = none)
    (answer : ℕ → Option (Option D)) :
    v.allocateWith (if hasBuffer then some answer else none) source iteration bid fill size finish =
      (v, none) := by
  unfold requestOf at h
  split_ifs at h with hnone
  rcases hnone with rfl | htaken
  · rfl
  · cases hasBuffer with
    | false => rfl
    | true =>
      unfold allocateWith
      exact if_pos htaken

end Damaris.Data.Variable

namespace Damaris.Buffer.Writers

variable {more : ℕ} {P : Type*} [DecidableEq P] [Fintype P]

open Data in
/-- A blocking allocation of more than the maximum returns, with the null block and
the index as it was, if and only if it returns before its first request. Once in the loop it stays
there, whatever the processes do, and always has a next step. -/
theorem unsatisfiable_returns_iff {max : ℕ} {free : Fin (more + 1) → ℕ} (hfree : ∀ b, free b ≤ max)
    {acts : List (WriterAction more P)} {s : Writers more P}
    (hr : StepSystem.run (step max) (initial free) acts = some s) {p : P} (hp : s.loop p = .outside)
    (hidle : s.segment.pc p = .idle) (v : Variable (Region more)) (hasBuffer : Bool)
    (source iteration bid : ℤ) (fill finish : Block (Region more) → Block (Region more))
    (size : Block (Region more) → ℕ)
    (hlarge : ∀ n, v.requestOf hasBuffer source iteration bid fill size = some n → max < n) :
    ((∃ acts' t result, StepSystem.run (step max) s
          (.call p (v.requestOf hasBuffer source iteration bid fill size) :: acts') = some t ∧
        t.loop p = .returned result ∧
        v.allocateWith (if hasBuffer then some fun _ => result else none) source iteration bid fill
          size finish = (v, none)) ↔
      v.requestOf hasBuffer source iteration bid fill size = none) ∧
    ∀ n, v.requestOf hasBuffer source iteration bid fill size = some n → ∀ acts' t,
      StepSystem.run (step max) s (.call p (some n) :: acts') = some t →
        (∀ result, t.loop p ≠ .returned result) ∧
        ((t.step max (.request p none)).isSome ∨ (t.step max (.wait p)).isSome ∨
          (t.step max (.test p)).isSome) := by
  have hb : s.Balanced free :=
    StepSystem.run_invariant (fun _ _ _ => Balanced.step) balanced_initial hr
  have hnever : ∀ n, v.requestOf hasBuffer source iteration bid fill size = some n → ∀ acts' t,
      StepSystem.run (step max) s (.call p (some n) :: acts') = some t → t.Looping p n :=
    fun n hn acts' t ht => looping_run hfree hb (hlarge n hn) ht
  refine ⟨⟨?_, fun hnone => ?_⟩, fun n hn acts' t ht => ?_⟩
  · rintro ⟨acts', t, result, ht, hreturned, -⟩
    cases hn : v.requestOf hasBuffer source iteration bid fill size with
    | none => rfl
    | some n =>
      rw [hn] at ht
      exact absurd hreturned ((hnever n hn acts' t ht).not_returned result)
  · have hcall : s.step max (.call p none) = some (s.setLoop p (.returned none)) :=
      if_pos ⟨hp, hidle⟩
    rw [hnone]
    refine ⟨[], _, none, StepSystem.run_singleton hcall, Function.update_self .., ?_⟩
    exact Variable.allocateWith_of_requestOf hnone _
  · have hloop := hnever n hn acts' t ht
    exact ⟨hloop.not_returned, hloop.goesOn (hlarge n hn)⟩

/-- A variable of eleven bytes. -/
def elevenBytes : Data.Variable (Region 0) := .new true ⟨1, [⟨11, 11, (0, 0)⟩]⟩

theorem requestOf_elevenBytes : elevenBytes.requestOf true 0 0 0 id
    (fun _ => elevenBytes.layout.requiredMemory) = some 11 := by
  decide

theorem unsatisfiable_returns_elevenBytes :
    ((∃ acts' t result, StepSystem.run (step 10) (initial fun _ => 10 : Writers 0 (Fin 1))
          (.call 0 (elevenBytes.requestOf true 0 0 0 id fun _ => elevenBytes.layout.requiredMemory) ::
            acts') = some t ∧
        t.loop 0 = .returned result ∧
        elevenBytes.allocateWith (if true then some fun _ => result else none) 0 0 0 id
          (fun _ => elevenBytes.layout.requiredMemory) elevenBytes.place = (elevenBytes, none)) ↔
      elevenBytes.requestOf true 0 0 0 id (fun _ => elevenBytes.layout.requiredMemory) = none) :=
  (unsatisfiable_returns_iff (fun _ => le_rfl) (StepSystem.run_nil _) rfl rfl elevenBytes true 0 0 0
    id elevenBytes.place _ fun n hn => by
      obtain rfl := Option.some.inj (requestOf_elevenBytes.symm.trans hn)
      decide).1

/-- A segment of ten bytes, of which all are free: a call for eleven never returns. -/
theorem eleven_of_ten : ¬ ∃ acts t result,
    StepSystem.run (step 10) (initial fun _ => 10 : Writers 0 (Fin 1))
      (.call 0 (elevenBytes.requestOf true 0 0 0 id fun _ => elevenBytes.layout.requiredMemory) ::
        acts) = some t ∧ t.loop 0 = .returned result := by
  rintro ⟨acts, t, result, ht, hreturned⟩
  rw [requestOf_elevenBytes] at ht
  have hloop := looping_run (fun _ => le_rfl) balanced_initial (by decide) ht
  exact hloop.not_returned result hreturned

end Damaris.Buffer.Writers
