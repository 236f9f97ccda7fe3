import Mathlib.Tactic
import Damaris.Lib.StepSystem
import Damaris.Buffer.SharedMemorySegment

/-!
# Lost wake-ups

The waiter's test and its going to sleep happen under block 0's lock, so a
`Deallocate` of block 0 cannot slip in between. One of another block can, and
its notification reaches nobody.
-/
set_option linter.unusedSectionVars false

namespace Damaris.Buffer

namespace SharedMemorySegment

variable {more : ℕ} {P : Type*} [DecidableEq P] {s s' : SharedMemorySegment more P}

/-- The locks are held by who is inside, and a waiter that has looked at block 0
has seen no less than what is free there now. -/
structure Inv (s : SharedMemorySegment more P) : Prop where
  locks : ∀ p b, (s.pc p).Holds b → s.lock b = some p
  seen : ∀ p size i m, s.pc p = .scanning size i m → 0 < i → s.free 0 ≤ m
  awake : s.NoLostWakeup

theorem inv_create (free : Fin (more + 1) → ℕ) : (create free : SharedMemorySegment more P).Inv := by
  refine ⟨fun p b h => ?_, fun p size i m h => ?_, fun p size h => ?_⟩
  · exact absurd h (by simp [create, Pc.Holds])
  · exact absurd h (by simp [create])
  · exact absurd h (by simp [create])

theorem le_getFreeMemory {size : ℕ} : size ≤ s.getFreeMemory ↔ ∃ b, size ≤ s.free b := by
  constructor
  · intro h
    obtain ⟨b, -, hb⟩ := Finset.exists_mem_eq_sup Finset.univ ⟨0, Finset.mem_univ _⟩ s.free
    exact ⟨b, h.trans hb.le⟩
  · rintro ⟨b, hb⟩
    exact hb.trans (Finset.le_sup (Finset.mem_univ b))

theorem Inv.exclusive (h : s.Inv) {p q : P} {b : Fin (more + 1)} (hp : (s.pc p).Holds b)
    (hq : (s.pc q).Holds b) : p = q :=
  Option.some.inj ((h.locks p b hp).symm.trans (h.locks q b hq))

section

variable {p : P} {x : Pc more}

/-- When one process moves on, the others still hold their locks, and it holds its own. -/
theorem locks_update (hpc : s'.pc = Function.update s.pc p x)
    (hself : ∀ b, x.Holds b → s'.lock b = some p)
    (hother : ∀ q ≠ p, ∀ b, (s.pc q).Holds b → s'.lock b = some q) :
    ∀ q b, (s'.pc q).Holds b → s'.lock b = some q := by
  rw [hpc]
  exact (Function.forall_update_iff s.pc fun q y => ∀ b, y.Holds b → s'.lock b = some q).mpr
    ⟨hself, hother⟩

theorem seen_update (hpc : s'.pc = Function.update s.pc p x) {n : ℕ}
    (hself : ∀ size i m, x = .scanning size i m → 0 < i → n ≤ m)
    (hother : ∀ q ≠ p, ∀ size i m, s.pc q = .scanning size i m → 0 < i → n ≤ m) :
    ∀ q size i m, s'.pc q = .scanning size i m → 0 < i → n ≤ m := by
  rw [hpc]
  exact (Function.forall_update_iff s.pc fun _ y =>
    ∀ size i m, y = .scanning size i m → 0 < i → n ≤ m).mpr ⟨hself, hother⟩

end

/-- A step of one process that neither frees memory, nor sleeps, nor notifies. -/
theorem Inv.frame (h : s.Inv) {p : P} {x : Pc more} (hpc : s'.pc = Function.update s.pc p x)
    (hfree : s'.free = s.free) (hself : ∀ b, x.Holds b → s'.lock b = some p)
    (hother : ∀ q ≠ p, ∀ b, (s.pc q).Holds b → s'.lock b = some q)
    (hscan : ∀ size i m, x = .scanning size i m → 0 < i → s.free 0 ≤ m)
    (hblocked : ∀ size, x ≠ .blocked size) (hnotify : s.pc p ≠ .notifying 0) : s'.Inv := by
  refine ⟨locks_update hpc hself hother, ?_, fun q size hq hsize => ?_⟩
  · rw [hfree]
    exact seen_update hpc hscan fun q _ => h.seen q
  · rw [hpc] at hq
    have hqp : q ≠ p := by
      rintro rfl
      rw [Function.update_self] at hq
      exact hblocked size hq
    rw [Function.update_of_ne hqp] at hq
    obtain ⟨r, hr⟩ := h.awake q size hq (by rwa [getFreeMemory, ← hfree])
    have hrp : r ≠ p := by
      rintro rfl
      exact hnotify hr
    exact ⟨r, by rw [hpc, Function.update_of_ne hrp, hr]⟩

/-- Taking a free lock. -/
theorem Inv.acquire (h : s.Inv) {p : P} {b : Fin (more + 1)} {x : Pc more}
    (ha : s.acquire b p x = some s') (hx : ∀ b', x.Holds b' → b' = b)
    (hscan : ∀ size i m, x = .scanning size i m → i = 0) (hblocked : ∀ size, x ≠ .blocked size)
    (hnotify : s.pc p ≠ .notifying 0) : s'.Inv := by
  unfold SharedMemorySegment.acquire at ha
  split_ifs at ha with hlock
  obtain rfl := Option.some.inj ha
  refine h.frame (p := p) (x := x) rfl rfl (fun b' hb' => ?_) (fun q hq b' hb' => ?_)
    (fun size i m he hi => absurd (hscan size i m he) hi.ne') hblocked hnotify
  · rw [hx b' hb']
    exact Function.update_self _ _ _
  · have hold := h.locks q b' hb'
    have hne : b' ≠ b := by
      rintro rfl
      rw [hlock] at hold
      exact absurd hold nofun
    exact (Function.update_of_ne hne _ _).trans hold

/-- Giving a lock back. -/
theorem Inv.release (h : s.Inv) {p : P} {b : Fin (more + 1)} (hp : (s.pc p).Holds b)
    (hnotify : s.pc p ≠ .notifying 0) : ((s.release b).setPc p .idle).Inv := by
  refine h.frame (p := p) (x := .idle) rfl rfl (fun b' hb' => hb'.elim) (fun q hq b' hb' => ?_)
    (fun _ _ _ he => nomatch he) (fun _ he => nomatch he) hnotify
  have hne : b' ≠ b := by
    rintro rfl
    exact hq (h.exclusive hb' hp)
  exact (Function.update_of_ne hne _ _).trans (h.locks q b' hb')

/-- After the step no wake-up is lost. -/
def Wakes (max : ℕ) (s : SharedMemorySegment more P) (a : ShmAction more P) : Prop :=
  ∀ s', s.step max a = some s' → s'.NoLostWakeup

theorem Inv.allocate (h : s.Inv) (b : Fin (more + 1)) (amount : ℕ) :
    (s.setFree b (s.free b - amount)).Inv := by
  have hle : ∀ b', (s.setFree b (s.free b - amount)).free b' ≤ s.free b' := by
    intro b'
    by_cases hb : b' = b
    · subst hb
      exact (Function.update_self b' _ s.free).le.trans (Nat.sub_le _ _)
    · exact (Function.update_of_ne hb _ s.free).le
  refine ⟨h.locks, fun p size i m hp hi => (hle 0).trans (h.seen p size i m hp hi),
    fun p size hp hsize => h.awake p size hp ?_⟩
  obtain ⟨b', hb'⟩ := le_getFreeMemory.mp hsize
  exact le_getFreeMemory.mpr ⟨b', hb'.trans (hle b')⟩

/-- A waiter that found too little goes to sleep. -/
theorem sleep_spec (h : s.Inv) {p : P} {size i m : ℕ} (hp : s.pc p = .scanning size i m)
    (hi : more < i) (hm : size > m) :
    let s' := (s.release 0).setPc p (.blocked size)
    (s'.NoLostWakeup ↔ ∀ b, b ≠ 0 → s.free b < size) ∧ (s'.NoLostWakeup → s'.Inv) := by
  intro s'
  have hpc : s'.pc = Function.update s.pc p (.blocked size) := rfl
  have hheld : (s.pc p).Holds 0 := by
    rw [hp]
    rfl
  have hfree₀ : s.free 0 < size := (h.seen p size i m hp (Nat.zero_lt_of_lt hi)).trans_lt hm
  have hquiet : ∀ r, s.pc r ≠ .notifying 0 := by
    intro r hr
    have hrheld : (s.pc r).Holds 0 := by
      rw [hr]
      rfl
    obtain rfl := h.exclusive hrheld hheld
    rw [hp] at hr
    exact absurd hr nofun
  refine ⟨⟨fun hawake b hb => ?_, fun hother => ?_⟩, fun hawake =>
    ⟨locks_update hpc (fun b hb => hb.elim) fun q hqp b hq => ?_,
      seen_update hpc (fun _ _ _ hx => by cases hx) fun q _ => h.seen q, hawake⟩⟩
  · by_contra hlt
    obtain ⟨r, hr⟩ := hawake p size (by rw [hpc, Function.update_self])
      (le_getFreeMemory.mpr ⟨b, not_lt.mp hlt⟩)
    rw [hpc] at hr
    by_cases hrp : r = p
    · subst hrp
      rw [Function.update_self] at hr
      exact absurd hr nofun
    · rw [Function.update_of_ne hrp] at hr
      exact hquiet r hr
  · intro q size' hq hsize
    rw [hpc] at hq
    by_cases hqp : q = p
    · subst hqp
      rw [Function.update_self, Pc.blocked.injEq] at hq
      subst hq
      obtain ⟨b, hb⟩ := le_getFreeMemory.mp hsize
      by_cases hb0 : b = 0
      · subst hb0
        exact absurd hb (not_le.mpr hfree₀)
      · exact absurd hb (not_le.mpr (hother b hb0))
    · rw [Function.update_of_ne hqp] at hq
      obtain ⟨r, hr⟩ := h.awake q size' hq hsize
      exact absurd hr (hquiet r)
  · have hne : b ≠ 0 := by
      rintro rfl
      exact hqp (h.exclusive hq hheld)
    exact (Function.update_of_ne hne _ _).trans (h.locks q b hq)

/-- A block gets memory back. -/
theorem deallocate_spec (h : s.Inv) {p : P} {b : Fin (more + 1)} {amount : ℕ}
    (hp : s.pc p = .deallocating b amount) :
    let s' := (s.setFree b (s.free b + amount)).setPc p (.notifying b)
    (s'.NoLostWakeup ↔ (b ≠ 0 → ∀ q size, s.pc q = .blocked size → size ≤ s.free b + amount →
      ∃ r, s.pc r = .notifying 0)) ∧ (s'.NoLostWakeup → s'.Inv) := by
  intro s'
  have hpc : s'.pc = Function.update s.pc p (.notifying b) := rfl
  have hheld : (s.pc p).Holds b := by
    rw [hp]
    rfl
  have hfree : s'.free = Function.update s.free b (s.free b + amount) := rfl
  have hne : ∀ {q x}, s.pc q = x → (∀ b' n, x ≠ .deallocating b' n) → q ≠ p := by
    rintro q x hq hx rfl
    exact hx b amount (hq.symm.trans hp)
  refine ⟨⟨fun hawake hb q size hq hsize => ?_, fun hheard q size hq hsize => ?_⟩,
    fun hawake => ⟨locks_update hpc (fun b' hb' => ?_) fun q _ => h.locks q,
      seen_update hpc (fun _ _ _ hx => by cases hx) fun q hqp size i m hq hi => ?_, hawake⟩⟩
  · have hqp := hne hq nofun
    obtain ⟨r, hr⟩ := hawake q size (by rw [hpc, Function.update_of_ne hqp, hq])
      (le_getFreeMemory.mpr ⟨b, by rw [hfree, Function.update_self]; exact hsize⟩)
    rw [hpc] at hr
    by_cases hrp : r = p
    · subst hrp
      rw [Function.update_self, Pc.notifying.injEq] at hr
      exact absurd hr hb
    · rw [Function.update_of_ne hrp] at hr
      exact ⟨r, hr⟩
  · by_cases hb : b = 0
    · subst hb
      exact ⟨p, by rw [hpc, Function.update_self]⟩
    · have hqp : q ≠ p := by
        rintro rfl
        rw [hpc, Function.update_self] at hq
        exact absurd hq nofun
      rw [hpc, Function.update_of_ne hqp] at hq
      have hpending : ∃ r, s.pc r = .notifying 0 := by
        obtain ⟨b', hb'⟩ := le_getFreeMemory.mp hsize
        by_cases hbb : b' = b
        · subst hbb
          rw [hfree, Function.update_self] at hb'
          exact hheard hb q size hq hb'
        · rw [hfree, Function.update_of_ne hbb] at hb'
          exact h.awake q size hq (le_getFreeMemory.mpr ⟨b', hb'⟩)
      obtain ⟨r, hr⟩ := hpending
      exact ⟨r, by rw [hpc, Function.update_of_ne (hne hr nofun), hr]⟩
  · obtain rfl : b' = b := hb'
    exact h.locks p b' hheld
  · -- whoever scans holds block 0's lock, so it is not block 0 that is written
    have hb : (0 : Fin (more + 1)) ≠ b := by
      rintro rfl
      exact hqp (h.exclusive (b := 0) (by rw [hq]; rfl) hheld)
    rw [hfree, Function.update_of_ne hb]
    exact h.seen q size i m hq hi

/-- The notification: block 0's wakes every waiter, another one's nobody. -/
theorem notify_spec (h : s.Inv) {p : P} {b : Fin (more + 1)} (hp : s.pc p = .notifying b) :
    ((s.notifyAll b).setPc p (.leaving b)).Inv := by
  set s' := (s.notifyAll b).setPc p (.leaving b) with hs'
  have hheld : (s.pc p).Holds b := by
    rw [hp]
    rfl
  have hother : ∀ q ≠ p, s'.pc q = (s.notifyAll b).pc q := fun q hq => Function.update_of_ne hq _ _
  have hself : s'.pc p = .leaving b := Function.update_self _ _ _
  have hkeep : ∀ q, (∀ size, s.pc q ≠ .blocked size) → (s.notifyAll b).pc q = s.pc q := by
    intro q hq
    cases he : s.pc q with
    | blocked size => exact absurd he (hq size)
    | _ => simp only [notifyAll, he]
  have hblocked : ∀ q size, (s.notifyAll b).pc q = .blocked size → b ≠ 0 ∧ s.pc q = .blocked size := by
    intro q size hq
    simp only [notifyAll] at hq
    split at hq
    · next size' he =>
      split_ifs at hq with hb
      exact ⟨hb, he.trans hq⟩
    · next hne => exact absurd hq (hne size)
  refine ⟨locks_update (s := s.notifyAll b) rfl (fun b' hb' => ?_) fun q _ b' hq => ?_,
    seen_update (s := s.notifyAll b) rfl (fun _ _ _ hx => by cases hx) fun q _ size i m hq hi => ?_,
    fun q size hq hsize => ?_⟩
  · obtain rfl : b' = b := hb'
    exact h.locks p b' hheld
  · by_cases hbl : ∃ size, s.pc q = .blocked size
    · obtain ⟨size, hbl⟩ := hbl
      simp only [notifyAll, hbl] at hq
      split_ifs at hq <;> exact hq.elim
    · rw [hkeep q fun size he => hbl ⟨size, he⟩] at hq
      exact h.locks q b' hq
  · have hbl : ∀ size', s.pc q ≠ .blocked size' := by
      intro size' he
      simp only [notifyAll, he] at hq
      split_ifs at hq
    rw [hkeep q hbl] at hq
    exact h.seen q size i m hq hi
  · have hqp : q ≠ p := by
      rintro rfl
      rw [hself] at hq
      exact absurd hq nofun
    rw [hother q hqp] at hq
    obtain ⟨hb, hold⟩ := hblocked q size hq
    obtain ⟨r, hr⟩ := h.awake q size hold hsize
    have hrp : r ≠ p := by
      rintro rfl
      rw [hp, Pc.notifying.injEq] at hr
      exact hb hr
    refine ⟨r, ?_⟩
    rw [hother r hrp, hkeep r fun size' he => by rw [he] at hr; exact absurd hr nofun, hr]

/-! ## Whole runs -/

/-- One step of a process in a call: it keeps the invariant, or loses a wake-up. -/
theorem advance_spec (h : s.Inv) {p : P} (ha : s.advance p = some s') :
    (s'.NoLostWakeup ↔ s.Heard (.advance p)) ∧ (s'.NoLostWakeup → s'.Inv) := by
  -- all but two of the statements are harmless
  have hsafe : s'.Inv → s.Heard (.advance p) →
      (s'.NoLostWakeup ↔ s.Heard (.advance p)) ∧ (s'.NoLostWakeup → s'.Inv) := fun hinv hheard =>
    ⟨⟨fun _ => hheard, fun _ => hinv.awake⟩, fun _ => hinv⟩
  unfold advance at ha
  cases hp : s.pc p with
  | idle => simp [hp] at ha
  | blocked size => simp [hp] at ha
  | waitLock size =>
    simp only [hp] at ha
    refine hsafe (h.acquire ha (fun _ hb => hb) (fun _ _ _ he => ?_) (fun _ => nofun)
      (by rw [hp]; exact nofun)) (by simp [Heard, hp])
    exact (Pc.scanning.inj he).2.1.symm
  | woken size =>
    simp only [hp] at ha
    refine hsafe (h.acquire ha (fun _ hb => hb) (fun _ _ _ he => ?_) (fun _ => nofun)
      (by rw [hp]; exact nofun)) (by simp [Heard, hp])
    exact (Pc.scanning.inj he).2.1.symm
  | deallocLock b amount =>
    simp only [hp] at ha
    exact hsafe (h.acquire ha (fun _ hb => hb) (fun _ _ _ => nofun) (fun _ => nofun)
      (by rw [hp]; exact nofun)) (by simp [Heard, hp])
  | deallocating b amount =>
    simp only [hp] at ha
    obtain rfl := Option.some.inj ha
    have hspec := deallocate_spec h hp
    simpa only [Heard, hp] using hspec
  | notifying b =>
    simp only [hp] at ha
    obtain rfl := Option.some.inj ha
    exact hsafe (notify_spec h hp) (by simp [Heard, hp])
  | leaving b =>
    simp only [hp] at ha
    obtain rfl := Option.some.inj ha
    exact hsafe (h.release (p := p) (b := b) (by rw [hp]; rfl) (by rw [hp]; exact nofun))
      (by simp [Heard, hp])
  | scanning size i m =>
    have hheld : (s.pc p).Holds 0 := by
      rw [hp]
      rfl
    simp only [hp] at ha
    by_cases hi : i < more + 1
    · rw [dif_pos hi] at ha
      obtain rfl := Option.some.inj ha
      refine hsafe (h.frame (p := p) rfl rfl (fun b hb => ?_) (fun q _ b => h.locks q b)
        (fun size' i' m' he hi' => ?_) (fun _ => nofun) (by rw [hp]; exact nofun)) ?_
      · obtain rfl : b = 0 := hb
        exact h.locks p 0 hheld
      · obtain ⟨-, rfl, rfl⟩ := Pc.scanning.inj he
        by_cases hi0 : i = 0
        · subst hi0
          have hfin : (⟨0, hi⟩ : Fin (more + 1)) = 0 := rfl
          rw [hfin]
          split <;> omega
        · have hseen := h.seen p size i m hp (Nat.pos_of_ne_zero hi0)
          split <;> omega
      · simp only [Heard, hp]
        exact fun hlt => absurd hi (by omega)
    · rw [dif_neg hi] at ha
      by_cases hm : size > m
      · rw [if_pos hm] at ha
        obtain rfl := Option.some.inj ha
        obtain ⟨hiff, hinv⟩ := sleep_spec h hp (by omega) hm
        refine ⟨hiff.trans ?_, hinv⟩
        simp only [Heard, hp]
        exact ⟨fun hall _ _ => hall, fun hall => hall (by omega) hm⟩
      · rw [if_neg hm] at ha
        obtain rfl := Option.some.inj ha
        refine hsafe (h.release hheld (by rw [hp]; exact nofun)) ?_
        simp only [Heard, hp]
        exact fun _ hgt => absurd hgt hm

theorem step_spec (h : s.Inv) {max : ℕ} {a : ShmAction more P} (ha : s.step max a = some s') :
    (s'.NoLostWakeup ↔ s.Heard a) ∧ (s'.NoLostWakeup → s'.Inv) := by
  have hsafe : s'.Inv → s.Heard a → (s'.NoLostWakeup ↔ s.Heard a) ∧ (s'.NoLostWakeup → s'.Inv) :=
    fun hinv hheard => ⟨⟨fun _ => hheard, fun _ => hinv.awake⟩, fun _ => hinv⟩
  cases a with
  | allocate p b amount =>
    simp only [step] at ha
    split_ifs at ha
    obtain rfl := Option.some.inj ha
    exact hsafe (h.allocate b amount) trivial
  | waitAvailable p size =>
    simp only [step] at ha
    split_ifs at ha with hp
    · obtain rfl := Option.some.inj ha
      exact hsafe h trivial
    · obtain rfl := Option.some.inj ha
      exact hsafe (h.frame (p := p) rfl rfl (fun _ hb => hb.elim) (fun q _ b => h.locks q b)
        (fun _ _ _ => nofun) (fun _ => nofun) (by rw [hp]; exact nofun)) trivial
  | deallocate p b amount =>
    simp only [step] at ha
    split_ifs at ha with hp
    obtain rfl := Option.some.inj ha
    exact hsafe (h.frame (p := p) rfl rfl (fun _ hb => hb.elim) (fun q _ b => h.locks q b)
      (fun _ _ _ => nofun) (fun _ => nofun) (by rw [hp]; exact nofun)) trivial
  | advance p => exact advance_spec h ha
  | spurious p =>
    cases hp : s.pc p with
    | blocked size =>
      simp only [step, hp] at ha
      obtain rfl := Option.some.inj ha
      exact hsafe (h.frame (p := p) rfl rfl (fun _ hb => hb.elim) (fun q _ b => h.locks q b)
        (fun _ _ _ => nofun) (fun _ => nofun) (by rw [hp]; exact nofun)) trivial
    | _ => simp [step, hp] at ha

/-- A step loses no wake-up exactly when it is heard. A label that cannot be
taken loses none either. -/
theorem wakes_iff (h : s.Inv) {max : ℕ} (a : ShmAction more P) :
    s.Wakes max a ↔ ((s.step max a).isSome → s.Heard a) := by
  constructor
  · intro hw hsome
    obtain ⟨s', hs'⟩ := Option.isSome_iff_exists.mp hsome
    exact (step_spec h hs').1.mp (hw s' hs')
  · intro hh s' hs'
    exact (step_spec h hs').1.mpr (hh (by rw [hs']; rfl))

/-- Over every run of any number of processes on a segment of any number of
blocks, no wake-up is lost if and only if every step that is taken is heard. -/
theorem noLostWakeup_iff (max : ℕ) (free : Fin (more + 1) → ℕ) (as : List (ShmAction more P)) :
    StepSystem.Guarded (step max) (Wakes max) (create free) as ↔
      StepSystem.Guarded (step max) (fun s a => (s.step max a).isSome → s.Heard a)
        (create free) as := by
  refine StepSystem.guarded_iff (I := Inv) (fun s a s' h hheard hs => ?_)
    (fun s a h => wakes_iff h a) (inv_create free)
  obtain ⟨hiff, hinv⟩ := step_spec h hs
  exact hinv (hiff.mpr (hheard (by rw [hs]; rfl)))

/-- A plain segment has one block only, so it never loses a wake-up. -/
theorem single_noLostWakeup (max : ℕ) (free : Fin 1 → ℕ) {as : List (ShmAction 0 P)}
    {s : SharedMemorySegment 0 P}
    (hr : StepSystem.run (step max) (create free) as = some s) : s.NoLostWakeup := by
  have hinv : s.Inv := by
    refine StepSystem.run_invariant (I := Inv) (fun s a s' h hs => ?_) (inv_create free) hr
    obtain ⟨hiff, hinv⟩ := step_spec h hs
    refine hinv (hiff.mpr ?_)
    have hone : ∀ b : Fin (0 + 1), b = 0 := fun b => Fin.ext (Nat.lt_one_iff.mp b.isLt)
    cases a with
    | advance p =>
      cases hp : s.pc p <;> simp only [Heard, hp]
      · exact fun _ _ b hb => absurd (hone b) hb
      · exact fun hb => absurd (hone _) hb
    | _ => trivial
  exact hinv.awake

/-- Two blocks of ten bytes, both taken. One process waits for five; another gives
back block 1, and the waiter is not told. -/
theorem second_block_wakes_nobody : ¬ ∀ (max : ℕ) (free : Fin 2 → ℕ) (as : List (ShmAction 1 Bool)),
    StepSystem.Guarded (step max) (Wakes max) (create free) as := by
  intro hall
  have hlost := ((((((((((hall 10 (fun _ => 10)
    [.allocate true 0 10, .allocate true 1 10, .waitAvailable false 5, .advance false,
      .advance false, .advance false, .advance false, .deallocate true 1 10, .advance true,
      .advance true]).2 _ rfl).2 _ rfl).2 _ rfl).2 _ rfl).2 _ rfl).2 _ rfl).2 _ rfl).2 _ rfl).2
    _ rfl).1 _ rfl
  obtain ⟨q, hq⟩ := hlost false 5 rfl (by decide)
  cases q
  · exact absurd hq (by decide)
  · exact absurd hq (by decide)

end SharedMemorySegment
end Damaris.Buffer
