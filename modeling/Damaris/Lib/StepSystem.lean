import Mathlib.Tactic

/-!
# Labelled step machines

A machine is a partial step function `step : σ → α → Option σ`. The label
carries every choice of the environment (who moves, which message arrives), and
`none` says that the label is not enabled, or that taking it has no defined
result. Safety facts are proved once per step and lifted to whole runs here.
-/
namespace StepSystem

variable {σ τ α β : Type*}

/-- Takes the labels from left to right; `none` once one is not enabled. -/
def run (step : σ → α → Option σ) : σ → List α → Option σ
  | s, [] => some s
  | s, a :: as => (step s a).bind fun s' => run step s' as

/-- Every label of the list is taken in a state where `G` allows it. -/
def Guarded (step : σ → α → Option σ) (G : σ → α → Prop) : σ → List α → Prop
  | _, [] => True
  | s, a :: as => G s a ∧ ∀ s', step s a = some s' → Guarded step G s' as

/-- The property holds in every state of the run. -/
def Always (step : σ → α → Option σ) (P : σ → Prop) : σ → List α → Prop
  | s, [] => P s
  | s, a :: as => P s ∧ ∀ s', step s a = some s' → Always step P s' as

variable {step : σ → α → Option σ}

instance decidableGuarded {G : σ → α → Prop} [∀ s a, Decidable (G s a)] :
    (s : σ) → (as : List α) → Decidable (Guarded step G s as)
  | _, [] => .isTrue trivial
  | s, a :: as =>
    match h : step s a with
    | none => decidable_of_iff (G s a) ⟨fun hG => ⟨hG, fun s' hs' => by simp [h] at hs'⟩, And.left⟩
    | some s' =>
      have : Decidable (Guarded step G s' as) := decidableGuarded s' as
      decidable_of_iff (G s a ∧ Guarded step G s' as)
        (and_congr_right' (by simp only [h, Option.some.injEq, forall_eq']))

instance decidableAlways {P : σ → Prop} [∀ s, Decidable (P s)] :
    (s : σ) → (as : List α) → Decidable (Always step P s as)
  | s, [] => inferInstanceAs (Decidable (P s))
  | s, a :: as =>
    match h : step s a with
    | none => decidable_of_iff (P s) ⟨fun hP => ⟨hP, fun s' hs' => by simp [h] at hs'⟩, And.left⟩
    | some s' =>
      have : Decidable (Always step P s' as) := decidableAlways s' as
      decidable_of_iff (P s ∧ Always step P s' as)
        (and_congr_right' (by simp only [h, Option.some.injEq, forall_eq']))

@[simp] theorem run_nil (s : σ) : run step s [] = some s := rfl

@[simp] theorem guarded_nil (G : σ → α → Prop) (s : σ) : Guarded step G s [] := trivial

theorem run_cons_eq_some {s t : σ} {a : α} {as : List α} :
    run step s (a :: as) = some t ↔ ∃ s', step s a = some s' ∧ run step s' as = some t := by
  simp [run, Option.bind_eq_some_iff]

theorem run_singleton {s t : σ} {a : α} (h : step s a = some t) : run step s [a] = some t := by
  simp [run, h]

/-- What every allowed step preserves, every allowed run preserves. -/
theorem guarded_invariant {I : σ → Prop} {G : σ → α → Prop}
    (hstep : ∀ s a s', I s → G s a → step s a = some s' → I s') {s t : σ} {as : List α}
    (hs : I s) (hg : Guarded step G s as) (hr : run step s as = some t) : I t := by
  induction as generalizing s with
  | nil =>
    obtain rfl : s = t := Option.some.inj hr
    exact hs
  | cons a as ih =>
    obtain ⟨s', hs', hr'⟩ := run_cons_eq_some.mp hr
    exact ih (hstep s a s' hs hg.1 hs') (hg.2 s' hs') hr'

/-- A condition on the labels alone joins one on the steps. -/
theorem Guarded.and_of_forall_mem {G : σ → α → Prop} {P : α → Prop} {s : σ} {as : List α}
    (hg : Guarded step G s as) (h : ∀ a ∈ as, P a) : Guarded step (fun s a => G s a ∧ P a) s as := by
  induction as generalizing s with
  | nil => trivial
  | cons a as ih =>
    exact ⟨⟨hg.1, h a List.mem_cons_self⟩,
      fun s' hs' => ih (hg.2 s' hs') fun b hb => h b (List.mem_cons_of_mem a hb)⟩

/-- Where every allowed step leaves less work, the work bounds the length of a run. -/
theorem length_add_work_le {I : σ → Prop} {G : σ → α → Prop} {work : σ → ℕ}
    (hstep : ∀ s a s', I s → G s a → step s a = some s' → I s' ∧ work s' < work s) {s t : σ}
    {as : List α} (hs : I s) (hg : Guarded step G s as) (hr : run step s as = some t) :
    as.length + work t ≤ work s := by
  induction as generalizing s with
  | nil =>
    obtain rfl : s = t := Option.some.inj hr
    rw [List.length_nil, Nat.zero_add]
  | cons a as ih =>
    obtain ⟨s', hs', hr'⟩ := run_cons_eq_some.mp hr
    obtain ⟨hI, hlt⟩ := hstep s a s' hs hg.1 hs'
    have hrest := ih hI (hg.2 s' hs') hr'
    rw [List.length_cons]
    omega

theorem guarded_of_forall {G : σ → α → Prop} (h : ∀ s a, G s a) {s : σ} {as : List α} :
    Guarded step G s as := by
  induction as generalizing s with
  | nil => trivial
  | cons a as ih => exact ⟨h s a, fun _ _ => ih⟩

/-- The unrestricted case: an inductive invariant holds at the end of every run. -/
theorem run_invariant {I : σ → Prop} (hstep : ∀ s a s', I s → step s a = some s' → I s')
    {s t : σ} {as : List α} (hs : I s) (hr : run step s as = some t) : I t :=
  guarded_invariant (G := fun _ _ => True) (fun s a s' h _ => hstep s a s' h) hs
    (guarded_of_forall fun _ _ => trivial) hr

theorem Guarded.mono {G H : σ → α → Prop} (h : ∀ s a, G s a → H s a) {s : σ} {as : List α}
    (hg : Guarded step G s as) : Guarded step H s as := by
  induction as generalizing s with
  | nil => trivial
  | cons a as ih => exact ⟨h s a hg.1, fun s' hs' => ih (hg.2 s' hs')⟩

/-- Two conditions on steps that agree wherever the invariant holds agree on
runs, when one of them is enough to keep the invariant. -/
theorem guarded_iff {I : σ → Prop} {G H : σ → α → Prop}
    (hstep : ∀ s a s', I s → G s a → step s a = some s' → I s')
    (hiff : ∀ s a, I s → (H s a ↔ G s a)) {s : σ} {as : List α} (hs : I s) :
    Guarded step H s as ↔ Guarded step G s as := by
  induction as generalizing s with
  | nil => simp
  | cons a as ih =>
    constructor
    · rintro ⟨ha, hrest⟩
      have hG : G s a := (hiff s a hs).mp ha
      exact ⟨hG, fun s' hs' => (ih (hstep s a s' hs hG hs')).mp (hrest s' hs')⟩
    · rintro ⟨hG, hrest⟩
      exact ⟨(hiff s a hs).mpr hG, fun s' hs' => (ih (hstep s a s' hs hG hs')).mpr (hrest s' hs')⟩

/-- A run ends in a good state exactly when every step of it was allowed: one
that is not allowed leads to a bad state, and a bad state stays bad. -/
theorem run_iff_guarded {I P : σ → Prop} {G : σ → α → Prop}
    (hstep : ∀ s a s', I s → G s a → step s a = some s' → I s') (hgood : ∀ s, I s → P s)
    (hbad : ∀ s a s', I s → ¬ G s a → step s a = some s' → ¬ P s')
    (hstay : ∀ s a s', step s a = some s' → ¬ P s → ¬ P s') {s t : σ} {as : List α} (hs : I s)
    (hr : run step s as = some t) : P t ↔ Guarded step G s as := by
  induction as generalizing s with
  | nil =>
    obtain rfl : s = t := Option.some.inj hr
    exact iff_of_true (hgood s hs) trivial
  | cons a as ih =>
    obtain ⟨s', hs', hr'⟩ := run_cons_eq_some.mp hr
    by_cases hG : G s a
    · rw [ih (hstep s a s' hs hG hs') hr']
      constructor
      · intro hg
        refine ⟨hG, fun s'' hs'' => ?_⟩
        obtain rfl := Option.some.inj (hs'.symm.trans hs'')
        exact hg
      · intro hg
        exact hg.2 s' hs'
    · have hnot : ¬ P t :=
        run_invariant (fun s a s' hs hstep => hstay s a s' hstep hs) (hbad s a s' hs hG hs') hr'
      exact iff_of_false hnot fun hg => hG hg.1

theorem Always.head {P : σ → Prop} {s : σ} {as : List α} (h : Always step P s as) : P s := by
  cases as with
  | nil => exact h
  | cons a as => exact h.1

theorem Always.last {P : σ → Prop} {s t : σ} {as : List α} (h : Always step P s as)
    (hr : run step s as = some t) : P t := by
  induction as generalizing s with
  | nil =>
    obtain rfl : s = t := Option.some.inj hr
    exact h
  | cons a as ih =>
    obtain ⟨s', hs', hr'⟩ := run_cons_eq_some.mp hr
    exact ih (h.2 s' hs') hr'

/-- In an allowed run another condition is met too, where the invariant gives it. -/
theorem Guarded.imp {I : σ → Prop} {G H : σ → α → Prop}
    (hstep : ∀ s a s', I s → G s a → step s a = some s' → I s')
    (himp : ∀ s a, I s → G s a → H s a) {s : σ} {as : List α} (hs : I s)
    (hg : Guarded step G s as) : Guarded step H s as := by
  induction as generalizing s with
  | nil => trivial
  | cons a as ih =>
    exact ⟨himp s a hs hg.1, fun s' hs' => ih (hstep s a s' hs hg.1 hs') (hg.2 s' hs')⟩

/-- What the invariant gives, it gives in every state of an allowed run. -/
theorem Guarded.always {I P : σ → Prop} {G : σ → α → Prop}
    (hstep : ∀ s a s', I s → G s a → step s a = some s' → I s') (hgood : ∀ s, I s → P s) {s : σ}
    {as : List α} (hs : I s) (hg : Guarded step G s as) : Always step P s as := by
  induction as generalizing s with
  | nil => exact hgood s hs
  | cons a as ih =>
    exact ⟨hgood s hs, fun s' hs' => ih (hstep s a s' hs hg.1 hs') (hg.2 s' hs')⟩

/-- A property that the next state has only by an allowed step holds in exactly
the allowed runs. -/
theorem always_iff_guarded {I P : σ → Prop} {G : σ → α → Prop}
    (hstep : ∀ s a s', I s → G s a → step s a = some s' → I s') (hgood : ∀ s, I s → P s)
    (hneed : ∀ s a, I s → (∀ s', step s a = some s' → P s') → G s a) {s : σ} {as : List α}
    (hs : I s) : Always step P s as ↔ Guarded step G s as := by
  refine ⟨fun h => ?_, Guarded.always hstep hgood hs⟩
  induction as generalizing s with
  | nil => trivial
  | cons a as ih =>
    have hG : G s a := hneed s a hs fun s' hs' => (h.2 s' hs').head
    exact ⟨hG, fun s' hs' => ih (hstep s a s' hs hG hs') (h.2 s' hs')⟩

/-- A step that is not allowed may do its harm later: it leaves a doomed state,
and a run that keeps the property can leave a doomed state by no step. -/
theorem Always.guarded {J P D : σ → Prop} {G : σ → α → Prop}
    (hstep : ∀ s a s', J s → step s a = some s' → J s')
    (hbad : ∀ s a s', J s → P s → ¬ G s a → step s a = some s' → P s' → D s')
    (hstay : ∀ s a s', J s → D s → step s a = some s' → P s' → D s') {s t : σ} {as : List α}
    (hs : J s) (ha : Always step P s as) (hr : run step s as = some t) (ht : ¬ D t) :
    Guarded step G s as ∧ ¬ D s := by
  induction as generalizing s with
  | nil =>
    obtain rfl : s = t := Option.some.inj hr
    exact ⟨trivial, ht⟩
  | cons a as ih =>
    obtain ⟨s', hs', hr'⟩ := run_cons_eq_some.mp hr
    obtain ⟨hg, hd⟩ := ih (hstep s a s' hs hs') (ha.2 s' hs') hr'
    have hP' : P s' := (ha.2 s' hs').head
    refine ⟨⟨?_, fun s'' hs'' => ?_⟩, fun hD => hd (hstay s a s' hs hD hs' hP')⟩
    · by_contra hG
      exact hd (hbad s a s' hs ha.1 hG hs' hP')
    · obtain rfl := Option.some.inj (hs'.symm.trans hs'')
      exact hg

end StepSystem
