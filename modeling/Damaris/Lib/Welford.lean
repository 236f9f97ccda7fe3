import Mathlib.Tactic

/-!
# Moments in one pass

Count, mean and squared deviations of a sequence are kept up to date value by value. In exact
arithmetic they are the ones of the definitions, whatever the order of the values.
-/
namespace Welford

variable {K : Type*} [Field K]

@[ext] structure Moments (K : Type*) where
  count : ℕ
  mean : K
  m2 : K

namespace Moments

def zero : Moments K := ⟨0, 0, 0⟩

def push (m : Moments K) (x : K) : Moments K :=
  let delta := x - m.mean
  let mean := m.mean + delta / (m.count + 1 : ℕ)
  ⟨m.count + 1, mean, m.m2 + delta * (x - mean)⟩

def ofList (xs : List K) : Moments K := xs.foldl push zero

/-- The moments by their definitions. -/
def exact (xs : List K) : Moments K :=
  ⟨xs.length, xs.sum / xs.length, (xs.map fun x => (x - xs.sum / xs.length) ^ 2).sum⟩

/-- The same without a division, which is what one value more preserves. -/
structure Tracks (m : Moments K) (xs : List K) : Prop where
  count_eq : m.count = xs.length
  mean_eq : (m.count : K) * m.mean = xs.sum
  m2_eq : m.m2 = (xs.map fun x => x ^ 2).sum - m.count * m.mean ^ 2

variable {m : Moments K} {xs ys : List K} {x : K}

theorem tracks_zero : Tracks (zero : Moments K) [] := by
  constructor <;> simp [zero]

/-- The squared deviations from any value, expanded. -/
theorem sum_sq_sub (xs : List K) (c : K) : (xs.map fun x => (x - c) ^ 2).sum =
    (xs.map fun x => x ^ 2).sum - 2 * c * xs.sum + xs.length * c ^ 2 := by
  induction xs with
  | nil => simp
  | cons x xs ih =>
    simp only [List.map_cons, List.sum_cons, ih, List.length_cons, Nat.cast_succ]
    ring

theorem exact_perm (h : xs.Perm ys) : exact xs = exact ys := by
  simp only [exact, h.length_eq, h.sum_eq, (h.map _).sum_eq]

variable [CharZero K]

theorem Tracks.push (h : Tracks m xs) (x : K) : Tracks (m.push x) (xs ++ [x]) := by
  have hne : ((m.count + 1 : ℕ) : K) ≠ 0 := Nat.cast_ne_zero.mpr m.count.succ_ne_zero
  have hmean : ((m.count + 1 : ℕ) : K) * (m.push x).mean = m.count * m.mean + x := by
    simp only [Moments.push, mul_add, mul_div_cancel₀ _ hne]
    push_cast
    ring
  refine ⟨by simp [Moments.push, h.count_eq], ?_, ?_⟩
  · rw [List.sum_append, List.sum_singleton, ← h.mean_eq]
    exact hmean
  · -- the new deviation is `(x - mean) * (x - mean')`, and `hmean` relates the two means
    have hold : m.m2 = (xs.map fun x => x ^ 2).sum - m.count * m.mean ^ 2 := h.m2_eq
    have hm2 : (m.push x).m2 = m.m2 + (x - m.mean) * (x - (m.push x).mean) := rfl
    have hcount : (m.push x).count = m.count + 1 := rfl
    rw [hm2, hold, hcount, List.map_append, List.sum_append, List.map_singleton,
      List.sum_singleton]
    push_cast at hmean ⊢
    linear_combination ((m.push x).mean + m.mean) * hmean

theorem tracks_ofList (xs : List K) : Tracks (ofList xs) xs := by
  induction xs using List.reverseRecOn with
  | nil => exact tracks_zero
  | append_singleton xs x ih =>
    rw [ofList, List.foldl_append]
    exact ih.push x

/-- One pass gives the moments of the definitions. -/
theorem ofList_eq_exact (xs : List K) : ofList xs = exact xs := by
  obtain rfl | hne := eq_or_ne xs []
  · simp [ofList, exact, zero]
  obtain ⟨hcount, hmean, hm2⟩ := tracks_ofList xs
  have hlen : (xs.length : K) ≠ 0 := Nat.cast_ne_zero.mpr (List.length_pos_iff.mpr hne).ne'
  rw [hcount] at hmean hm2
  have hdiv : (ofList xs).mean = xs.sum / xs.length := by
    rw [eq_div_iff hlen, mul_comm]
    exact hmean
  have hdev : (ofList xs).m2 = (xs.map fun x => (x - xs.sum / xs.length) ^ 2).sum := by
    rw [sum_sq_sub, ← hdiv, hm2, ← hmean]
    ring
  exact Moments.ext hcount hdiv hdev

end Moments

end Welford
