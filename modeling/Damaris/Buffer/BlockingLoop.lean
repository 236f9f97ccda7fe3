import Damaris.Lib.StepSystem
import Damaris.Buffer.SharedMemorySegment

/-!
# The loop of a blocking allocation

`Allocate`, `AllocateFixedSize` and `AllocateAligned` of a variable, with `blocking` set: after a
first request that fails, a loop of a request and a call of `WaitAvailable`. The call follows the
request whatever this has returned. The segment is shared with processes that allocate
and give back as they like; a request may fail even where there is memory.
-/
set_option linter.unusedSectionVars false

namespace Damaris.Buffer

/-- A region: its block, and what it takes there. -/
abbrev Region (more : ℕ) := Fin (more + 1) × ℕ

/-- Where a process is in its call. `ds` is what its last request has returned, unlinked
if it failed; a call returns the null block, or one with its dataspace. -/
inductive Loop (more : ℕ)
  | outside
  | first (size : ℕ)
  | retry (size : ℕ)
  | wait (size : ℕ) (ds : Option (Region more))
  | waiting (size : ℕ) (ds : Option (Region more))
  | returned (result : Option (Option (Region more)))
  deriving DecidableEq

/-- `GetSize` of what a request for `size` bytes has returned. -/
def getSize {more : ℕ} (size : ℕ) (ds : Option (Region more)) : ℕ :=
  match ds with
  | none => 0
  | some _ => size

/-- The processes that share a segment. `regions` are handed out and not on their way back. -/
structure Writers (more : ℕ) (P : Type*) where
  segment : SharedMemorySegment more P
  loop : P → Loop more
  regions : List (Region more)

/-- `call` enters one of the three functions: with the size of its request, if it makes one.
`take` and `give` are what a process does outside of these. -/
inductive WriterAction (more : ℕ) (P : Type*)
  | call (p : P) (size : Option ℕ)
  | request (p : P) (ds : Option (Region more))
  | wait (p : P)
  | test (p : P)
  | leave (p : P)
  | take (p : P) (r : Region more)
  | give (p : P) (r : Region more)
  | advance (p : P)
  | spurious (p : P)

namespace Writers

variable {more : ℕ} {P : Type*} [DecidableEq P]

def initial (free : Fin (more + 1) → ℕ) : Writers more P := ⟨.create free, fun _ => .outside, []⟩

def setLoop (s : Writers more P) (p : P) (x : Loop more) : Writers more P :=
  { s with loop := Function.update s.loop p x }

/-- A request for `size` bytes. A region may take more than that. -/
def allocate (max : ℕ) (s : Writers more P) (p : P) (size : ℕ) :
    Option (Region more) → Option (Writers more P)
  | none => some s
  | some r =>
    if size ≤ r.2 then
      (s.segment.step max (.allocate p r.1 r.2)).map fun segment =>
        { s with segment := segment, regions := r :: s.regions }
    else none

/-- The condition of the loop, and what follows. -/
def loopOf (size : ℕ) (ds : Option (Region more)) : Loop more :=
  if getSize size ds ≠ size then .retry size else .returned (some ds)

def step (max : ℕ) (s : Writers more P) : WriterAction more P → Option (Writers more P)
  | .call p size =>
    if s.loop p = .outside ∧ s.segment.pc p = .idle then
      some (s.setLoop p (match size with
        | none => .returned none
        | some n => .first n))
    else none
  | .request p ds =>
    match s.loop p with
    | .first size => (s.allocate max p size ds).map fun s => s.setLoop p (loopOf size ds)
    | .retry size => (s.allocate max p size ds).map fun s => s.setLoop p (.wait size ds)
    | _ => none
  | .wait p =>
    match s.loop p with
    | .wait size ds =>
      (s.segment.step max (.waitAvailable p size)).map fun segment =>
        { s with segment := segment }.setLoop p (.waiting size ds)
    | _ => none
  | .test p =>
    match s.loop p with
    | .waiting size ds =>
      if s.segment.pc p = .idle then some (s.setLoop p (loopOf size ds)) else none
    | _ => none
  | .leave p =>
    match s.loop p with
    | .returned _ => some (s.setLoop p .outside)
    | _ => none
  | .take p r => if s.loop p = .outside then s.allocate max p 0 (some r) else none
  | .give p r =>
    if s.loop p = .outside ∧ r ∈ s.regions then
      (s.segment.step max (.deallocate p r.1 r.2)).map fun segment =>
        { s with segment := segment, regions := s.regions.erase r }
    else none
  | .advance p =>
    (s.segment.step max (.advance p)).map fun segment => { s with segment := segment }
  | .spurious p =>
    (s.segment.step max (.spurious p)).map fun segment => { s with segment := segment }

/-- No process sleeps in `WaitAvailable` that has got its region. -/
def NeverBlockedHolding (s : Writers more P) : Prop :=
  ∀ p size r n, s.loop p = .waiting size (some r) → s.segment.pc p ≠ .blocked n

/-- The process, or the one that it waits for in front of block 0's lock, has a step to take. -/
def GoesOn (max : ℕ) (s : Writers more P) (p : P) : Prop :=
  (s.step max (.test p)).isSome ∨
    ∃ q, (q = p ∨ s.segment.lock ⟨0, Nat.succ_pos more⟩ = some q) ∧ (s.step max (.advance q)).isSome

/-- The condition on a step: a process that has got its region finds as much memory free
once more, when it tests for it in `WaitAvailable`. -/
def FindsRoom (s : Writers more P) : WriterAction more P → Prop
  | .advance p => ∀ size r n i m, s.loop p = .waiting size (some r) →
      s.segment.pc p = .scanning n i m → more < i → n ≤ m
  | _ => True

end Writers

/-! ## Who sleeps -/

/-- A process that gives no memory back. -/
def Pc.InWait {more : ℕ} (x : Pc more) : Prop :=
  match x with
  | .idle | .waitLock _ | .scanning _ _ _ | .blocked _ | .woken _ => True
  | _ => False

namespace SharedMemorySegment

variable {more : ℕ} {P : Type*} [DecidableEq P] {s s' : SharedMemorySegment more P} {p q : P}

theorem pc_of_acquire {b : Fin (more + 1)} {x : Pc more} (h : s.acquire b p x = some s') :
    s'.pc = Function.update s.pc p x := by
  unfold acquire at h
  split_ifs at h
  obtain rfl := Option.some.inj h
  rfl

/-- What the next statement does to the processes. -/
theorem advance_pc (h : s.advance p = some s') :
    (∃ x, s'.pc = Function.update s.pc p x ∧ ((s.pc p).InWait → x.InWait) ∧
      ∀ n, x = .blocked n → ∃ i m, s.pc p = .scanning n i m ∧ more < i ∧ m < n) ∨
    ∃ b, s.pc p = .notifying b ∧ s'.pc = Function.update (s.notifyAll b).pc p (.leaving b) := by
  unfold advance at h
  cases hp : s.pc p with
  | idle => simp [hp] at h
  | blocked size => simp [hp] at h
  | waitLock size =>
    rw [hp] at h
    exact .inl ⟨_, pc_of_acquire h, by simp [Pc.InWait], fun n hn => by simp at hn⟩
  | woken size =>
    rw [hp] at h
    exact .inl ⟨_, pc_of_acquire h, by simp [Pc.InWait], fun n hn => by simp at hn⟩
  | deallocLock b amount =>
    rw [hp] at h
    exact .inl ⟨_, pc_of_acquire h, by simp [Pc.InWait], fun n hn => by simp at hn⟩
  | deallocating b amount =>
    rw [hp] at h
    obtain rfl := Option.some.inj h
    exact .inl ⟨_, rfl, by simp [Pc.InWait], fun n hn => by simp at hn⟩
  | notifying b =>
    rw [hp] at h
    obtain rfl := Option.some.inj h
    exact .inr ⟨b, rfl, rfl⟩
  | leaving b =>
    rw [hp] at h
    obtain rfl := Option.some.inj h
    exact .inl ⟨_, rfl, by simp [Pc.InWait], fun n hn => by simp at hn⟩
  | scanning size i m =>
    simp only [hp] at h
    by_cases hi : i < more + 1
    · rw [dif_pos hi] at h
      obtain rfl := Option.some.inj h
      exact .inl ⟨_, rfl, by simp [Pc.InWait], fun n hn => by simp at hn⟩
    · rw [dif_neg hi] at h
      by_cases hsize : size > m
      · rw [if_pos hsize] at h
        obtain rfl := Option.some.inj h
        refine .inl ⟨_, rfl, by simp [Pc.InWait], fun n hn => ?_⟩
        obtain rfl := Pc.blocked.inj hn
        exact ⟨i, m, rfl, by omega, hsize⟩
      · rw [if_neg hsize] at h
        obtain rfl := Option.some.inj h
        exact .inl ⟨_, rfl, by simp [Pc.InWait], fun n hn => by simp at hn⟩

/-- A process sleeps after a step because it did before, or because it has just found too little. -/
theorem blocked_of_advance (h : s.advance p = some s') {n : ℕ} (hq : s'.pc q = .blocked n) :
    s.pc q = .blocked n ∨ q = p ∧ ∃ i m, s.pc p = .scanning n i m ∧ more < i ∧ m < n := by
  by_cases hqp : q = p
  · subst hqp
    rcases advance_pc h with ⟨x, hpc, -, hx⟩ | ⟨b, -, hpc⟩
    · rw [hpc, Function.update_self] at hq
      exact .inr ⟨rfl, hx n hq⟩
    · rw [hpc, Function.update_self] at hq
      simp at hq
  · refine .inl ?_
    rcases advance_pc h with ⟨x, hpc, -, -⟩ | ⟨b, -, hpc⟩
    · rwa [hpc, Function.update_of_ne hqp] at hq
    · rw [hpc, Function.update_of_ne hqp] at hq
      simp only [notifyAll] at hq
      split at hq
      · next hsleep =>
        split_ifs at hq
        rwa [hsleep]
      · exact hq

theorem blocked_of_update {x : Pc more} (hpc : s'.pc = Function.update s.pc p x)
    (hx : ∀ n, x ≠ .blocked n) {n : ℕ} (hq : s'.pc q = .blocked n) : s.pc q = .blocked n := by
  rw [hpc] at hq
  by_cases hqp : q = p
  · subst hqp
    rw [Function.update_self] at hq
    exact absurd hq (hx n)
  · rwa [Function.update_of_ne hqp] at hq

theorem blocked_of_step {max : ℕ} {a : ShmAction more P} (h : s.step max a = some s') {n : ℕ}
    (hq : s'.pc q = .blocked n) : s.pc q = .blocked n ∨ a = .advance q ∧
      ∃ i m, s.pc q = .scanning n i m ∧ more < i ∧ m < n := by
  cases a with
  | allocate p b amount =>
    simp only [step] at h
    split_ifs at h
    obtain rfl := Option.some.inj h
    exact .inl hq
  | waitAvailable p size =>
    simp only [step] at h
    split_ifs at h
    · obtain rfl := Option.some.inj h
      exact .inl hq
    · obtain rfl := Option.some.inj h
      exact .inl (blocked_of_update rfl (fun n => by simp) hq)
  | deallocate p b amount =>
    simp only [step] at h
    split_ifs at h
    obtain rfl := Option.some.inj h
    exact .inl (blocked_of_update rfl (fun n => by simp) hq)
  | advance p =>
    rcases blocked_of_advance h hq with hold | ⟨rfl, hnew⟩
    · exact .inl hold
    · exact .inr ⟨rfl, hnew⟩
  | spurious p =>
    simp only [step] at h
    split at h
    · obtain rfl := Option.some.inj h
      exact .inl (blocked_of_update rfl (fun n => by simp) hq)
    · exact absurd h.symm (Option.some_ne_none s')

theorem inWait_of_update {x : Pc more} (hpc : s'.pc = Function.update s.pc p x)
    (hx : q = p → x.InWait) (hq : (s.pc q).InWait) : (s'.pc q).InWait := by
  rw [hpc]
  by_cases hqp : q = p
  · subst hqp
    rw [Function.update_self]
    exact hx rfl
  · rwa [Function.update_of_ne hqp]

/-- Only `Deallocate` takes a process out of there. -/
theorem inWait_step {max : ℕ} {a : ShmAction more P} (h : s.step max a = some s')
    (ha : ∀ b amount, a ≠ .deallocate q b amount) (hq : (s.pc q).InWait) : (s'.pc q).InWait := by
  cases a with
  | allocate p b amount =>
    simp only [step] at h
    split_ifs at h
    obtain rfl := Option.some.inj h
    exact hq
  | waitAvailable p size =>
    simp only [step] at h
    split_ifs at h
    · obtain rfl := Option.some.inj h
      exact hq
    · obtain rfl := Option.some.inj h
      exact inWait_of_update rfl (fun _ => trivial) hq
  | deallocate p b amount =>
    simp only [step] at h
    split_ifs at h
    obtain rfl := Option.some.inj h
    exact inWait_of_update rfl (fun hqp => absurd (hqp ▸ rfl) (ha b amount)) hq
  | advance p =>
    rcases advance_pc h with ⟨x, hpc, hx, -⟩ | ⟨b, hp, hpc⟩
    · exact inWait_of_update hpc (fun hqp => hx (hqp ▸ hq)) hq
    · have hqp : q ≠ p := by
        rintro rfl
        rw [hp] at hq
        exact hq
      rw [hpc, Function.update_of_ne hqp]
      simp only [notifyAll]
      split
      · split_ifs <;> trivial
      · exact hq
  | spurious p =>
    simp only [step] at h
    split at h
    · obtain rfl := Option.some.inj h
      exact inWait_of_update rfl (fun _ => trivial) hq
    · exact absurd h.symm (Option.some_ne_none s')

/-- Between two statements, who has a lock waits for nothing. -/
theorem advance_isSome {b : Fin (more + 1)} (h : (s.pc p).Holds b) : (s.advance p).isSome := by
  unfold advance
  cases hp : s.pc p with
  | scanning size i m =>
    simp only
    split_ifs <;> rfl
  | deallocating b amount => rfl
  | notifying b => rfl
  | leaving b => rfl
  | _ =>
    rw [hp] at h
    exact h.elim

/-- Who has a lock is inside. -/
def Locked (s : SharedMemorySegment more P) : Prop :=
  ∀ b q, s.lock b = some q → (s.pc q).Holds b

theorem Locked.update {x : Pc more} (h : s.Locked) (hpc : s'.pc = Function.update s.pc p x)
    (hlock : ∀ b q, s'.lock b = some q → s.lock b = some q ∧ (q = p → x.Holds b) ∨
      q = p ∧ x.Holds b) : s'.Locked := by
  intro b q hq
  rw [hpc]
  by_cases hqp : q = p
  · subst hqp
    rw [Function.update_self]
    exact (hlock b q hq).elim (fun hold => hold.2 rfl) fun hnew => hnew.2
  · rw [Function.update_of_ne hqp]
    exact (hlock b q hq).elim (fun hold => h b q hold.1) fun hnew => absurd hnew.1 hqp

theorem Locked.acquire (h : s.Locked) {b : Fin (more + 1)} {x : Pc more}
    (ha : s.acquire b p x = some s') (hx : x.Holds b) (hp : ∀ b', ¬ (s.pc p).Holds b') :
    s'.Locked := by
  unfold SharedMemorySegment.acquire at ha
  split_ifs at ha
  obtain rfl := Option.some.inj ha
  refine h.update rfl fun b' q hq => ?_
  change Function.update s.lock b (some p) b' = some q at hq
  by_cases hb : b' = b
  · subst hb
    rw [Function.update_self] at hq
    exact .inr ⟨(Option.some.inj hq).symm, hx⟩
  · rw [Function.update_of_ne hb] at hq
    refine .inl ⟨hq, fun hqp => ?_⟩
    subst hqp
    exact absurd (h b' q hq) (hp b')

theorem Locked.release (h : s.Locked) {b : Fin (more + 1)} {x : Pc more}
    (hp : ∀ b', (s.pc p).Holds b' → b' = b) : ((s.release b).setPc p x).Locked := by
  refine h.update rfl fun b' q hq => ?_
  change Function.update s.lock b none b' = some q at hq
  have hb : b' ≠ b := by
    rintro rfl
    rw [Function.update_self] at hq
    exact absurd hq.symm (Option.some_ne_none q)
  rw [Function.update_of_ne hb] at hq
  refine .inl ⟨hq, fun hqp => ?_⟩
  subst hqp
  exact absurd (hp b' (h b' q hq)) hb

/-- A process that keeps the locks it has. -/
theorem Locked.stay (h : s.Locked) {x : Pc more} (hx : ∀ b, (s.pc p).Holds b → x.Holds b) :
    (s.setPc p x).Locked :=
  h.update rfl fun b q hq => .inl ⟨hq, fun hqp => hx b (hqp ▸ h b q hq)⟩

theorem holds_notifyAll {b b' : Fin (more + 1)} :
    ((s.notifyAll b).pc q).Holds b' ↔ (s.pc q).Holds b' := by
  simp only [notifyAll]
  cases s.pc q with
  | blocked size =>
    by_cases hb : b = 0
    · simp [hb, Pc.Holds]
    · simp [hb, Pc.Holds]
  | _ => rfl

theorem Locked.advance (h : s.Locked) (ha : s.advance p = some s') : s'.Locked := by
  unfold SharedMemorySegment.advance at ha
  cases hp : s.pc p with
  | idle => simp [hp] at ha
  | blocked size => simp [hp] at ha
  | waitLock size =>
    rw [hp] at ha
    exact h.acquire ha rfl fun b' => by rw [hp]; exact fun hb' => hb'
  | woken size =>
    rw [hp] at ha
    exact h.acquire ha rfl fun b' => by rw [hp]; exact fun hb' => hb'
  | deallocLock b amount =>
    rw [hp] at ha
    exact h.acquire ha rfl fun b' => by rw [hp]; exact fun hb' => hb'
  | deallocating b amount =>
    rw [hp] at ha
    obtain rfl := Option.some.inj ha
    exact Locked.stay (s := s.setFree b (s.free b + amount)) h fun b' hb' => by
      have hb' : (s.pc p).Holds b' := hb'
      rw [hp] at hb'
      exact hb'
  | notifying b =>
    rw [hp] at ha
    obtain rfl := Option.some.inj ha
    have hnotified : (s.notifyAll b).Locked := fun b' q hq => holds_notifyAll.mpr (h b' q hq)
    exact hnotified.stay fun b' hb' => by
      rw [holds_notifyAll, hp] at hb'
      exact hb'
  | leaving b =>
    rw [hp] at ha
    obtain rfl := Option.some.inj ha
    exact h.release fun b' hb' => by
      rw [hp] at hb'
      exact hb'
  | scanning size i m =>
    simp only [hp] at ha
    have hzero : ∀ b', (s.pc p).Holds b' → b' = 0 := fun b' hb' => by
      rw [hp] at hb'
      exact hb'
    by_cases hi : i < more + 1
    · rw [dif_pos hi] at ha
      obtain rfl := Option.some.inj ha
      exact h.stay hzero
    · rw [dif_neg hi] at ha
      by_cases hsize : size > m
      · rw [if_pos hsize] at ha
        obtain rfl := Option.some.inj ha
        exact h.release hzero
      · rw [if_neg hsize] at ha
        obtain rfl := Option.some.inj ha
        exact h.release hzero

theorem Locked.step (h : s.Locked) {max : ℕ} {a : ShmAction more P} (ha : s.step max a = some s') :
    s'.Locked := by
  cases a with
  | allocate p b amount =>
    simp only [SharedMemorySegment.step] at ha
    split_ifs at ha
    obtain rfl := Option.some.inj ha
    exact h
  | waitAvailable p size =>
    simp only [SharedMemorySegment.step] at ha
    split_ifs at ha with hidle
    · obtain rfl := Option.some.inj ha
      exact h
    · obtain rfl := Option.some.inj ha
      exact h.stay fun b hb => by
        rw [hidle] at hb
        exact hb.elim
  | deallocate p b amount =>
    simp only [SharedMemorySegment.step] at ha
    split_ifs at ha with hidle
    obtain rfl := Option.some.inj ha
    exact h.stay fun b' hb' => by
      rw [hidle] at hb'
      exact hb'.elim
  | advance p => exact h.advance ha
  | spurious p =>
    simp only [SharedMemorySegment.step] at ha
    split at ha
    · next size hp =>
      obtain rfl := Option.some.inj ha
      exact h.stay fun b hb => by
        rw [hp] at hb
        exact hb.elim
    · exact absurd ha.symm (Option.some_ne_none s')

end SharedMemorySegment

namespace Writers

variable {more max : ℕ} {P : Type*} [DecidableEq P] {s s' : Writers more P} {a : WriterAction more P}

/-- What a step does, and where its process has to be for it. -/
inductive Stepped (max : ℕ) (s : Writers more P) : WriterAction more P → Writers more P → Prop
  | call {p : P} {size : Option ℕ} (hp : s.loop p = .outside) (hidle : s.segment.pc p = .idle) :
      Stepped max s (.call p size) (s.setLoop p (size.elim (.returned none) .first))
  | request {p : P} {ds : Option (Region more)} {size : ℕ} {x : Loop more} {s₁ : Writers more P}
      (hp : s.loop p = .first size ∧ x = loopOf size ds ∨ s.loop p = .retry size ∧ x = .wait size ds)
      (hallocate : s.allocate max p size ds = some s₁) :
      Stepped max s (.request p ds) (s₁.setLoop p x)
  | wait {p : P} {size : ℕ} {ds : Option (Region more)} {segment : SharedMemorySegment more P}
      (hp : s.loop p = .wait size ds)
      (hsegment : s.segment.step max (.waitAvailable p size) = some segment) :
      Stepped max s (.wait p) ({ s with segment := segment }.setLoop p (.waiting size ds))
  | test {p : P} {size : ℕ} {ds : Option (Region more)} (hp : s.loop p = .waiting size ds)
      (hidle : s.segment.pc p = .idle) : Stepped max s (.test p) (s.setLoop p (loopOf size ds))
  | leave {p : P} {result : Option (Option (Region more))} (hp : s.loop p = .returned result) :
      Stepped max s (.leave p) (s.setLoop p .outside)
  | take {p : P} {r : Region more} {s₁ : Writers more P} (hp : s.loop p = .outside)
      (hallocate : s.allocate max p 0 (some r) = some s₁) : Stepped max s (.take p r) s₁
  | give {p : P} {r : Region more} {segment : SharedMemorySegment more P} (hp : s.loop p = .outside)
      (hr : r ∈ s.regions) (hsegment : s.segment.step max (.deallocate p r.1 r.2) = some segment) :
      Stepped max s (.give p r) { s with segment := segment, regions := s.regions.erase r }
  | advance {p : P} {segment : SharedMemorySegment more P}
      (hsegment : s.segment.step max (.advance p) = some segment) :
      Stepped max s (.advance p) { s with segment := segment }
  | spurious {p : P} {segment : SharedMemorySegment more P}
      (hsegment : s.segment.step max (.spurious p) = some segment) :
      Stepped max s (.spurious p) { s with segment := segment }

theorem step_cases (hs : s.step max a = some s') : Stepped max s a s' := by
  cases a with
  | call p size =>
    simp only [step] at hs
    split_ifs at hs with hp
    obtain rfl := Option.some.inj hs
    cases size <;> exact .call hp.1 hp.2
  | request p ds =>
    simp only [step] at hs
    split at hs
    · next size hp =>
      obtain ⟨s₁, hallocate, rfl⟩ := Option.map_eq_some_iff.mp hs
      exact .request (.inl ⟨hp, rfl⟩) hallocate
    · next size hp =>
      obtain ⟨s₁, hallocate, rfl⟩ := Option.map_eq_some_iff.mp hs
      exact .request (.inr ⟨hp, rfl⟩) hallocate
    · exact absurd hs.symm (Option.some_ne_none s')
  | wait p =>
    simp only [step] at hs
    split at hs
    · next size ds hp =>
      obtain ⟨segment, hsegment, rfl⟩ := Option.map_eq_some_iff.mp hs
      exact .wait hp hsegment
    · exact absurd hs.symm (Option.some_ne_none s')
  | test p =>
    simp only [step] at hs
    split at hs
    · next size ds hp =>
      split_ifs at hs with hidle
      obtain rfl := Option.some.inj hs
      exact .test hp hidle
    · exact absurd hs.symm (Option.some_ne_none s')
  | leave p =>
    simp only [step] at hs
    split at hs
    · next result hp =>
      obtain rfl := Option.some.inj hs
      exact .leave hp
    · exact absurd hs.symm (Option.some_ne_none s')
  | take p r =>
    simp only [step] at hs
    split_ifs at hs with hp
    exact .take hp hs
  | give p r =>
    simp only [step] at hs
    split_ifs at hs with hp
    obtain ⟨segment, hsegment, rfl⟩ := Option.map_eq_some_iff.mp hs
    exact .give hp.1 hp.2 hsegment
  | advance p =>
    obtain ⟨segment, hsegment, rfl⟩ := Option.map_eq_some_iff.mp hs
    exact .advance hsegment
  | spurious p =>
    obtain ⟨segment, hsegment, rfl⟩ := Option.map_eq_some_iff.mp hs
    exact .spurious hsegment

theorem allocate_keeps {p : P} {size : ℕ} {ds : Option (Region more)}
    (h : s.allocate max p size ds = some s') : s'.loop = s.loop ∧ s'.segment.pc = s.segment.pc := by
  cases ds with
  | none =>
    obtain rfl := Option.some.inj h
    exact ⟨rfl, rfl⟩
  | some r =>
    simp only [allocate] at h
    split_ifs at h
    obtain ⟨segment, hsegment, rfl⟩ := Option.map_eq_some_iff.mp h
    simp only [SharedMemorySegment.step] at hsegment
    split_ifs at hsegment
    obtain rfl := Option.some.inj hsegment
    exact ⟨rfl, rfl⟩

theorem loopOf_ne_waiting (size : ℕ) (ds : Option (Region more)) (n : ℕ) (ds' : Option (Region more)) :
    loopOf size ds ≠ .waiting n ds' := by
  unfold loopOf
  split_ifs <;> simp

/-- A step that moves one process to a place outside `WaitAvailable`. -/
theorem not_waiting_of_update {p q : P} {x : Loop more} (hloop : s'.loop = Function.update s.loop p x)
    (hx : ∀ n ds, x ≠ .waiting n ds) {size : ℕ} {ds : Option (Region more)}
    (hq : s'.loop q = .waiting size ds) : s.loop q = .waiting size ds := by
  rw [hloop] at hq
  by_cases hqp : q = p
  · subst hqp
    rw [Function.update_self] at hq
    exact absurd hq (hx size ds)
  · rwa [Function.update_of_ne hqp] at hq

/-- A process that has its region sleeps after a step because it did before, or because it
has just found too little. -/
theorem blocked_of_step (hs : s.step max a = some s') {q : P} {size n : ℕ} {r : Region more}
    (hloop : s'.loop q = .waiting size (some r)) (hpc : s'.segment.pc q = .blocked n) :
    s.loop q = .waiting size (some r) ∧ (s.segment.pc q = .blocked n ∨ a = .advance q ∧
      ∃ i m, s.segment.pc q = .scanning n i m ∧ more < i ∧ m < n) := by
  cases step_cases hs with
  | @call p size' hp hidle =>
    refine ⟨not_waiting_of_update rfl (fun n ds => ?_) hloop, .inl hpc⟩
    cases size' <;> simp
  | @request p ds size' x s₁ hp hallocate =>
    obtain ⟨hkeep, hpckeep⟩ := allocate_keeps hallocate
    have hx : ∀ n ds, x ≠ .waiting n ds := by
      rcases hp with ⟨-, rfl⟩ | ⟨-, rfl⟩
      · exact loopOf_ne_waiting size' ds
      · simp
    exact ⟨hkeep ▸ not_waiting_of_update rfl hx hloop, .inl (hpckeep ▸ hpc)⟩
  | @wait p size' ds segment hp hsegment =>
    have hold := (SharedMemorySegment.blocked_of_step hsegment hpc).resolve_right fun h => by
      simp at h
    have hidle : s.segment.pc p = .idle := by
      simp only [SharedMemorySegment.step] at hsegment
      split_ifs at hsegment with hidle <;> exact hidle
    have hqp : q ≠ p := by
      rintro rfl
      rw [hidle] at hold
      simp at hold
    refine ⟨?_, .inl hold⟩
    simpa only [setLoop, Function.update_of_ne hqp] using hloop
  | test hp hidle => exact ⟨not_waiting_of_update rfl (loopOf_ne_waiting _ _) hloop, .inl hpc⟩
  | leave hp => exact ⟨not_waiting_of_update rfl (fun n ds => by simp) hloop, .inl hpc⟩
  | take hp hallocate =>
    obtain ⟨hkeep, hpckeep⟩ := allocate_keeps hallocate
    exact ⟨hkeep ▸ hloop, .inl (hpckeep ▸ hpc)⟩
  | give hp hr hsegment =>
    exact ⟨hloop, .inl ((SharedMemorySegment.blocked_of_step hsegment hpc).resolve_right fun h => by
      simp at h)⟩
  | advance hsegment =>
    refine ⟨hloop, ?_⟩
    rcases SharedMemorySegment.blocked_of_step hsegment hpc with hold | ⟨he, hnew⟩
    · exact .inl hold
    · obtain rfl := ShmAction.advance.inj he
      exact .inr ⟨rfl, hnew⟩
  | spurious hsegment =>
    exact ⟨hloop, .inl ((SharedMemorySegment.blocked_of_step hsegment hpc).resolve_right fun h => by
      simp at h)⟩

theorem neverBlocked_step (h : s.NeverBlockedHolding) (hg : s.FindsRoom a)
    (hs : s.step max a = some s') : s'.NeverBlockedHolding := by
  intro q size r n hloop hpc
  obtain ⟨hold, hsleep | ⟨rfl, i, m, hscan, hi, hm⟩⟩ := blocked_of_step hs hloop hpc
  · exact h q size r n hold hsleep
  · exact absurd (hg size r n i m hold hscan hi) hm.not_ge

theorem findsRoom_of_neverBlocked (h : ∀ s', s.step max a = some s' → s'.NeverBlockedHolding) :
    s.FindsRoom a := by
  cases a with
  | advance p =>
    intro size r n i m hloop hscan hi
    by_contra hm
    have hstep : s.step max (.advance p) = some { s with
        segment := (s.segment.release 0).setPc p (.blocked n) } := by
      simp only [step, SharedMemorySegment.step, SharedMemorySegment.advance, hscan]
      rw [dif_neg (by omega), if_pos (not_le.mp hm)]
      rfl
    exact h _ hstep p size r n hloop (Function.update_self ..)
  | _ => trivial

/-! ## Who can go on -/

/-- Locks are held by who is inside, and a process in the loop gives no memory back. -/
structure Inv (s : Writers more P) : Prop where
  locked : s.segment.Locked
  inside : ∀ p, s.loop p ≠ .outside → (s.segment.pc p).InWait

theorem inv_initial (free : Fin (more + 1) → ℕ) : (initial free : Writers more P).Inv :=
  ⟨fun _ q hq => absurd hq.symm (Option.some_ne_none q), fun _ hp => absurd rfl hp⟩

theorem Inv.setLoop (h : s.Inv) {p : P} {x : Loop more} (hp : x ≠ .outside → (s.segment.pc p).InWait) :
    (s.setLoop p x).Inv := by
  refine ⟨h.locked, fun q hq => ?_⟩
  by_cases hqp : q = p
  · subst hqp
    exact hp fun hx => hq ((Function.update_self ..).trans hx)
  · refine h.inside q ?_
    simpa only [Writers.setLoop, Function.update_of_ne hqp] using hq

theorem Inv.allocate (h : s.Inv) {p : P} {size : ℕ} {ds : Option (Region more)}
    (hs : s.allocate max p size ds = some s') : s'.Inv := by
  obtain ⟨hloop, hpc⟩ := allocate_keeps hs
  refine ⟨?_, fun q hq => ?_⟩
  · cases ds with
    | none =>
      obtain rfl := Option.some.inj hs
      exact h.locked
    | some r =>
      simp only [Writers.allocate] at hs
      split_ifs at hs
      obtain ⟨segment, hsegment, rfl⟩ := Option.map_eq_some_iff.mp hs
      exact h.locked.step hsegment
  · rw [hloop] at hq
    rw [hpc]
    exact h.inside q hq

theorem Inv.segment (h : s.Inv) {b : ShmAction more P} {segment : SharedMemorySegment more P}
    (hs : s.segment.step max b = some segment)
    (hb : ∀ q i amount, b = .deallocate q i amount → s.loop q = .outside) (regions : List (Region more)) :
    ({ s with segment := segment, regions := regions } : Writers more P).Inv :=
  ⟨h.locked.step hs, fun q hq => SharedMemorySegment.inWait_step hs
    (fun i amount hb' => hq (hb q i amount hb')) (h.inside q hq)⟩

theorem Inv.step (h : s.Inv) (hs : s.step max a = some s') : s'.Inv := by
  cases step_cases hs with
  | call hp hidle => exact h.setLoop fun _ => by rw [hidle]; trivial
  | @request p ds size x s₁ hp hallocate =>
    have hinside := (h.allocate hallocate).inside p
    rw [(allocate_keeps hallocate).1] at hinside
    refine (h.allocate hallocate).setLoop fun _ => hinside ?_
    rcases hp with ⟨hp, -⟩ | ⟨hp, -⟩ <;> simp [hp]
  | @wait p size ds segment hp hsegment =>
    have hinv := h.segment hsegment (fun q i amount hb => by simp at hb) s.regions
    exact hinv.setLoop fun _ => hinv.inside p (by rw [hp]; simp)
  | test hp hidle => exact h.setLoop fun _ => by rw [hidle]; trivial
  | leave hp => exact h.setLoop fun hne => absurd rfl hne
  | take hp hallocate => exact h.allocate hallocate
  | give hp hr hsegment =>
    refine h.segment hsegment (fun q i amount hb => ?_) _
    obtain ⟨rfl, -, -⟩ := ShmAction.deallocate.inj hb
    exact hp
  | advance hsegment => exact h.segment hsegment (fun q i amount hb => by simp at hb) s.regions
  | spurious hsegment => exact h.segment hsegment (fun q i amount hb => by simp at hb) s.regions

/-- Who does not sleep goes on, if need be after the one who has the lock. -/
theorem Inv.goesOn (h : s.Inv) {p : P} {size : ℕ} {ds : Option (Region more)}
    (hp : s.loop p = .waiting size ds) (hawake : ∀ n, s.segment.pc p ≠ .blocked n) :
    s.GoesOn max p := by
  have hadvance : ∀ {q}, (s.segment.advance q).isSome → (s.step max (.advance q)).isSome :=
    fun hq => (Option.isSome_map ..).trans hq
  -- the lock of block 0 is free, or its holder is between two statements
  have hlock : ∀ x, s.segment.advance p = s.segment.acquire 0 p x → s.GoesOn max p := by
    intro x hx
    cases hlock : s.segment.lock 0 with
    | none =>
      refine .inr ⟨p, .inl rfl, hadvance ?_⟩
      rw [hx, SharedMemorySegment.acquire, if_pos hlock]
      rfl
    | some q =>
      exact .inr ⟨q, .inr hlock, hadvance (SharedMemorySegment.advance_isSome (h.locked 0 q hlock))⟩
  have hinside := h.inside p (by rw [hp]; simp)
  cases hpc : s.segment.pc p with
  | idle =>
    refine .inl ?_
    simp only [Writers.step, hp, if_pos hpc]
    rfl
  | waitLock n => exact hlock (.scanning n 0 0) (by simp only [SharedMemorySegment.advance, hpc])
  | woken n => exact hlock (.scanning n 0 0) (by simp only [SharedMemorySegment.advance, hpc])
  | scanning n i m =>
    refine .inr ⟨p, .inl rfl, hadvance (SharedMemorySegment.advance_isSome (b := 0) ?_)⟩
    rw [hpc]
    rfl
  | blocked n => exact absurd hpc (hawake n)
  | _ =>
    rw [hpc] at hinside
    exact hinside.elim

/-- No process sleeps that has got its region exactly in the runs in which each finds room for as
much once more. In any run, who has its region and does not sleep can go on. -/
theorem neverBlockedHolding_iff (max : ℕ) (free : Fin (more + 1) → ℕ)
    (acts : List (WriterAction more P)) :
    (StepSystem.Always (step max) NeverBlockedHolding (initial free) acts ↔
      StepSystem.Guarded (step max) FindsRoom (initial free) acts) ∧
    ∀ s, StepSystem.run (step max) (initial free) acts = some s → ∀ p size r,
      s.loop p = .waiting size (some r) → (∀ n, s.segment.pc p ≠ .blocked n) → s.GoesOn max p := by
  constructor
  · exact StepSystem.always_iff_guarded (I := NeverBlockedHolding)
      (fun s a s' hI hg hs => neverBlocked_step hI hg hs) (fun s hI => hI)
      (fun s a _ h => findsRoom_of_neverBlocked h) fun p size r n hp => by simp [initial] at hp
  · intro s hr p size r hp hawake
    have hinv : s.Inv := StepSystem.run_invariant (fun _ _ _ => Inv.step) (inv_initial free) hr
    exact hinv.goesOn hp hawake

/-- A process gets the ten bytes that another has given back, and sleeps until there are ten more. -/
theorem sleeps_with_region : (StepSystem.run (step 10) (initial fun _ => 10 : Writers 0 (Fin 2))
      [.take 1 (0, 10), .call 0 (some 10), .request 0 none, .give 1 (0, 10), .advance 1, .advance 1,
        .advance 1, .advance 1, .request 0 (some (0, 10)), .wait 0, .advance 0, .advance 0,
        .advance 0]).map (fun s => (s.loop 0, s.segment.pc 0)) =
    some (.waiting 10 (some (0, 10)), .blocked 10) := by
  decide

end Writers
end Damaris.Buffer
