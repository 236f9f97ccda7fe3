import Mathlib.Tactic

/-!
# Boxes in row-major order

The points of a box are listed with the last coordinate fastest, and a list of as many values
is indexed by them. What lies inside margins is a smaller box at an offset. A transfer copies
the values at some points of one box to points of another, one after the other.
-/
namespace RowMajor

variable {α : Type}

/-- All points of a box. -/
def points : List ℕ → List (List ℕ)
  | [] => [[]]
  | n :: dims => (List.range n).flatMap fun i => (points dims).map (i :: ·)

/-- Where a point comes in that order. -/
def index : List ℕ → List ℕ → ℕ
  | _ :: dims, i :: p => i * dims.prod + index dims p
  | _, _ => 0

/-- The points of a box at an offset. -/
def slab (offset count : List ℕ) : List (List ℕ) :=
  (points count).map (List.zipWith (· + ·) offset)

/-- The point keeps clear of the margins. -/
def inside : List ℕ → List (ℕ × ℕ) → List ℕ → Bool
  | n :: dims, g :: gs, i :: p => g.1 ≤ i && i + g.2 < n && inside dims gs p
  | _, _, _ => true

@[simp] theorem length_points (dims : List ℕ) : (points dims).length = dims.prod := by
  induction dims with
  | nil => rfl
  | cons n dims ih => simp [points, List.length_flatMap, ih]

@[simp] theorem length_slab (offset count : List ℕ) : (slab offset count).length = count.prod := by
  rw [slab, List.length_map, length_points]

theorem slab_cons (o n : ℕ) (offset count : List ℕ) :
    slab (o :: offset) (n :: count) =
      (List.range n).flatMap fun i => (slab offset count).map ((o + i) :: ·) := by
  rw [slab, points, List.map_flatMap]
  congr 1
  funext i
  rw [slab, List.map_map, List.map_map]
  rfl

/-- The order of the points is that of their indices. -/
theorem map_index_points (dims : List ℕ) : (points dims).map (index dims) = List.range dims.prod := by
  induction dims with
  | nil => rfl
  | cons n dims ih =>
    have hrow : ∀ i, ((points dims).map (i :: ·)).map (index (n :: dims)) =
        (List.range dims.prod).map (i * dims.prod + ·) := by
      intro i
      rw [← ih, List.map_map, List.map_map]
      rfl
    rw [points, List.map_flatMap, List.prod_cons]
    simp only [hrow]
    clear hrow ih
    induction n with
    | zero => simp
    | succ n ihn =>
      rw [List.range_succ, List.flatMap_append, ihn, Nat.succ_mul, List.range_add]
      simp

theorem index_of_getElem? {dims : List ℕ} {k : ℕ} {p : List ℕ} (h : (points dims)[k]? = some p) :
    index dims p = k := by
  have hlt : k < dims.prod := by
    rw [← length_points]
    exact (List.getElem?_eq_some_iff.mp h).1
  have hmap := congrArg (fun l => l[k]?) (map_index_points dims)
  simpa [h, List.getElem?_range hlt] using hmap

theorem nodup_points (dims : List ℕ) : (points dims).Nodup := by
  have h : ((points dims).map (index dims)).Nodup := map_index_points dims ▸ List.nodup_range
  exact h.of_map _

theorem index_lt {dims p : List ℕ} (h : p ∈ points dims) : index dims p < dims.prod := by
  obtain ⟨k, hk⟩ := List.mem_iff_getElem?.mp h
  rw [index_of_getElem? hk, ← length_points]
  exact (List.getElem?_eq_some_iff.mp hk).1

/-- Points of a box that differ have different indices. -/
theorem nodup_map_index {dims : List ℕ} {ps : List (List ℕ)} (hps : ps.Nodup)
    (hmem : ∀ p ∈ ps, p ∈ points dims) : (ps.map (index dims)).Nodup := by
  refine (List.nodup_map_iff_inj_on hps).mpr ?_
  intro p hp q hq heq
  obtain ⟨k, hk⟩ := List.mem_iff_getElem?.mp (hmem p hp)
  obtain ⟨l, hl⟩ := List.mem_iff_getElem?.mp (hmem q hq)
  rw [index_of_getElem? hk, index_of_getElem? hl] at heq
  subst heq
  exact Option.some.inj (hk.symm.trans hl)

theorem length_of_mem_points {dims p : List ℕ} (h : p ∈ points dims) : p.length = dims.length := by
  induction dims generalizing p with
  | nil => rw [List.mem_singleton.mp h]
  | cons n dims ih =>
    obtain ⟨i, -, hmem⟩ := List.mem_flatMap.mp h
    obtain ⟨q, hq, rfl⟩ := List.mem_map.mp hmem
    rw [List.length_cons, List.length_cons, ih hq]

theorem singleton_mem_points {n x : ℕ} : [x] ∈ points [n] ↔ x < n := by
  simp [points]

theorem cons_mem_points {n i : ℕ} {dims p : List ℕ} :
    i :: p ∈ points (n :: dims) ↔ i < n ∧ p ∈ points dims := by
  simp [points]

/-! ### Strides -/

/-- How far steps of these widths lead to a point. -/
def offset : List ℕ → List ℕ → ℕ
  | w :: ws, i :: p => w * i + offset ws p
  | _, _ => 0

/-- The widths of the steps between items of a size. -/
def strides (size : ℕ) : List ℕ → List ℕ
  | [] => []
  | _ :: dims => size * dims.prod :: strides size dims

@[simp] theorem length_strides (size : ℕ) (dims : List ℕ) :
    (strides size dims).length = dims.length := by
  induction dims with
  | nil => rfl
  | cons n dims ih => rw [strides, List.length_cons, List.length_cons, ih]

theorem offset_strides (size : ℕ) {dims p : List ℕ} (h : p ∈ points dims) :
    offset (strides size dims) p = size * index dims p := by
  induction dims generalizing p with
  | nil => rfl
  | cons n dims ih =>
    obtain ⟨i, -, hmem⟩ := List.mem_flatMap.mp h
    obtain ⟨q, hq, rfl⟩ := List.mem_map.mp hmem
    rw [strides, offset, index, ih hq]
    ring

/-- The widths agree along every dimension with a second place. -/
def Agree : List ℕ → List ℕ → List ℕ → Prop
  | n :: dims, w :: ws, v :: vs => (1 < n → w = v) ∧ Agree dims ws vs
  | _, _, _ => True

theorem origin_mem_points {dims : List ℕ} (hpos : ∀ n ∈ dims, 0 < n) :
    dims.map (fun _ => 0) ∈ points dims := by
  induction dims with
  | nil => simp [points]
  | cons n dims ih =>
    rw [List.map_cons, cons_mem_points]
    exact ⟨hpos n List.mem_cons_self, ih fun m hm => hpos m (List.mem_cons_of_mem _ hm)⟩

theorem offset_origin (ws dims : List ℕ) : offset ws (dims.map fun _ => 0) = 0 := by
  induction ws generalizing dims with
  | nil => rfl
  | cons w ws ih =>
    cases dims with
    | nil => rfl
    | cons n dims => rw [List.map_cons, offset, ih, Nat.mul_zero]

/-- Steps of two kinds lead to the same places exactly when their widths agree. -/
theorem offset_eq_iff {dims ws vs : List ℕ} (hpos : ∀ n ∈ dims, 0 < n) (hws : ws.length = dims.length)
    (hvs : vs.length = dims.length) :
    (∀ p ∈ points dims, offset ws p = offset vs p) ↔ Agree dims ws vs := by
  induction dims generalizing ws vs with
  | nil => simp [Agree, List.length_eq_zero_iff.mp hws, List.length_eq_zero_iff.mp hvs]
  | cons n dims ih =>
    obtain ⟨w, ws, rfl⟩ := List.exists_cons_of_length_eq_add_one hws
    obtain ⟨v, vs, rfl⟩ := List.exists_cons_of_length_eq_add_one hvs
    have hn : 0 < n := hpos n List.mem_cons_self
    have hdims : ∀ m ∈ dims, 0 < m := fun m hm => hpos m (List.mem_cons_of_mem _ hm)
    rw [Agree, ← ih hdims (Nat.succ.inj hws) (Nat.succ.inj hvs)]
    constructor
    · intro h
      refine ⟨fun hlt => ?_, fun p hp => ?_⟩
      · have hone := h (1 :: dims.map fun _ => 0) (cons_mem_points.mpr ⟨hlt, origin_mem_points hdims⟩)
        rw [offset, offset, offset_origin, offset_origin] at hone
        simpa using hone
      · have hzero := h (0 :: p) (cons_mem_points.mpr ⟨hn, hp⟩)
        simpa [offset] using hzero
    · rintro ⟨hhead, htail⟩ p hp
      obtain ⟨i, hi, hmem⟩ := List.mem_flatMap.mp hp
      obtain ⟨q, hq, rfl⟩ := List.mem_map.mp hmem
      have hin : i < n := List.mem_range.mp hi
      rw [offset, offset, htail q hq]
      cases i with
      | zero => rfl
      | succ i => rw [hhead (by omega)]

/-! ### Margins -/

theorem filter_range {n a b : ℕ} (h : a + b ≤ n) :
    ((List.range n).filter fun i => a ≤ i && i + b < n) = (List.range (n - a - b)).map (a + ·) := by
  obtain ⟨m, rfl⟩ : ∃ m, n = a + (m + b) := ⟨n - a - b, by omega⟩
  have hm : a + (m + b) - a - b = m := by omega
  have hbelow : (List.range a).filter (fun i => a ≤ i && i + b < a + (m + b)) = [] := by
    rw [List.filter_eq_nil_iff]
    intro i hi
    have hlt := List.mem_range.mp hi
    simp
    omega
  have hinside : ((List.range m).map (a + ·)).filter (fun i => a ≤ i && i + b < a + (m + b)) =
      (List.range m).map (a + ·) := by
    rw [List.filter_eq_self]
    intro i hi
    obtain ⟨j, hj, rfl⟩ := List.mem_map.mp hi
    have hlt := List.mem_range.mp hj
    simp
    omega
  have habove : (((List.range b).map (m + ·)).map (a + ·)).filter
      (fun i => a ≤ i && i + b < a + (m + b)) = [] := by
    rw [List.filter_eq_nil_iff]
    intro i hi
    simp only [List.map_map, List.mem_map, Function.comp_apply] at hi
    obtain ⟨j, -, rfl⟩ := hi
    simp
    omega
  rw [hm, List.range_add, List.range_add, List.map_append, List.filter_append, List.filter_append,
    hbelow, hinside, habove, List.nil_append, List.append_nil]

theorem flatMap_ite {β : Type} (l : List β) (p : β → Bool) (f : β → List α) :
    (l.flatMap fun b => if p b then f b else []) = (l.filter p).flatMap f := by
  induction l with
  | nil => rfl
  | cons b l ih =>
    rw [List.flatMap_cons, ih]
    by_cases hb : p b = true
    · rw [if_pos hb, List.filter_cons_of_pos hb, List.flatMap_cons]
    · rw [if_neg hb, List.filter_cons_of_neg hb, List.nil_append]

/-- What lies inside the margins is a smaller box, at the offset of the lower ones. -/
theorem filter_inside {dims : List ℕ} {gs : List (ℕ × ℕ)}
    (h : List.Forall₂ (fun n g => g.1 + g.2 ≤ n) dims gs) :
    (points dims).filter (inside dims gs) =
      slab (gs.map Prod.fst) (List.zipWith (fun n g => n - g.1 - g.2) dims gs) := by
  induction h with
  | nil => rfl
  | @cons n g dims gs hfit _ ih =>
    have hrow : ∀ i, ((points dims).map (i :: ·)).filter (inside (n :: dims) (g :: gs)) =
        if g.1 ≤ i && i + g.2 < n then (slab (gs.map Prod.fst)
          (List.zipWith (fun n g => n - g.1 - g.2) dims gs)).map (i :: ·) else [] := by
      intro i
      rw [List.filter_map, ← ih]
      by_cases hi : (g.1 ≤ i && i + g.2 < n) = true
      · rw [if_pos hi]
        congr 2
        funext p
        simp only [Function.comp_apply, inside, hi, Bool.true_and]
      · rw [if_neg hi, List.map_eq_nil_iff, List.filter_eq_nil_iff]
        intro p _
        simp only [Function.comp_apply, inside, hi, Bool.false_and, Bool.false_eq_true, not_false_iff]
    rw [points, List.filter_flatMap]
    simp only [hrow]
    rw [flatMap_ite, filter_range hfit, List.flatMap_map, List.map_cons, List.zipWith_cons_cons,
      slab_cons]

theorem length_inside {dims : List ℕ} {gs : List (ℕ × ℕ)}
    (h : List.Forall₂ (fun n g => g.1 + g.2 ≤ n) dims gs) :
    ((points dims).filter (inside dims gs)).length =
      (List.zipWith (fun n g => n - g.1 - g.2) dims gs).prod := by
  rw [filter_inside h, length_slab]

/-- Margins take nothing off a box only when there are none, or the box is empty. -/
theorem prod_margins_eq_iff {dims : List ℕ} {gs : List (ℕ × ℕ)}
    (h : List.Forall₂ (fun n g => g.1 + g.2 ≤ n) dims gs) :
    (List.zipWith (fun n g => n - g.1 - g.2) dims gs).prod = dims.prod ↔
      0 ∈ dims ∨ ∀ g ∈ gs, g = (0, 0) := by
  have hle : ∀ {dims : List ℕ} {gs : List (ℕ × ℕ)}, List.Forall₂ (fun n g => g.1 + g.2 ≤ n) dims gs →
      (List.zipWith (fun n g => n - g.1 - g.2) dims gs).prod ≤ dims.prod := by
    intro dims gs h
    induction h with
    | nil => exact le_rfl
    | cons _ _ ih =>
      rw [List.zipWith_cons_cons, List.prod_cons, List.prod_cons]
      exact Nat.mul_le_mul (by omega) ih
  induction h with
  | nil => simp
  | @cons n g dims gs hfit hrest ih =>
    have hrow := hle hrest
    rw [List.zipWith_cons_cons, List.prod_cons, List.prod_cons, List.mem_cons, List.forall_mem_cons]
    constructor
    · intro heq
      by_cases hzero : 0 ∈ n :: dims
      · exact .inl (List.mem_cons.mp hzero)
      · rw [List.mem_cons, not_or] at hzero
        have hn : 0 < n := Nat.pos_of_ne_zero (Ne.symm hzero.1)
        have hprod : 0 < dims.prod := Nat.pos_of_ne_zero (mt List.prod_eq_zero_iff.mp hzero.2)
        have hrest_eq : (List.zipWith (fun n g => n - g.1 - g.2) dims gs).prod = dims.prod := by
          refine le_antisymm hrow (Nat.le_of_mul_le_mul_left ?_ hn)
          rw [← heq]
          exact Nat.mul_le_mul_right _ (by omega)
        have hg : n - g.1 - g.2 = n := by
          rw [hrest_eq] at heq
          exact Nat.eq_of_mul_eq_mul_right hprod heq
        refine .inr ⟨Prod.ext (by dsimp; omega) (by dsimp; omega), ?_⟩
        exact (ih.mp hrest_eq).resolve_left hzero.2
    · rintro ((hn | hzero) | ⟨rfl, hnone⟩)
      · rw [← hn, Nat.zero_sub, Nat.zero_sub, Nat.zero_mul, Nat.zero_mul]
      · rw [ih.mpr (.inl hzero), List.prod_eq_zero_iff.mpr hzero, Nat.mul_zero, Nat.mul_zero]
      · rw [ih.mpr (.inr hnone), Nat.sub_zero, Nat.sub_zero]

theorem inside_of_none {dims : List ℕ} {gs : List (ℕ × ℕ)} (hgs : ∀ g ∈ gs, g = (0, 0)) {p : List ℕ}
    (hp : p ∈ points dims) : inside dims gs p = true := by
  induction dims generalizing gs p with
  | nil => rfl
  | cons n dims ih =>
    cases gs with
    | nil => rfl
    | cons g gs =>
      obtain ⟨i, hi, hmem⟩ := List.mem_flatMap.mp hp
      obtain ⟨q, hq, rfl⟩ := List.mem_map.mp hmem
      have hlt := List.mem_range.mp hi
      rw [List.forall_mem_cons] at hgs
      rw [inside, ih hgs.2 hq, hgs.1]
      simpa using hlt

theorem slab_of_none {offset count : List ℕ} (hlen : offset.length = count.length)
    (hoffset : ∀ o ∈ offset, o = 0) : slab offset count = points count := by
  induction offset generalizing count with
  | nil =>
    rw [List.length_eq_zero_iff.mp hlen.symm]
    rfl
  | cons o offset ih =>
    obtain ⟨n, count, rfl⟩ := List.exists_cons_of_length_eq_add_one hlen.symm
    rw [List.forall_mem_cons] at hoffset
    rw [slab_cons, ih (by simpa using hlen) hoffset.2, hoffset.1, points]
    simp only [Nat.zero_add]

/-- The values at the points inside the margins, in order. -/
def itemsInside (dims : List ℕ) (gs : List (ℕ × ℕ)) (data : List α) : List α :=
  (((points dims).zip data).filter fun e => inside dims gs e.1).map Prod.snd

theorem length_itemsInside {dims : List ℕ} {gs : List (ℕ × ℕ)} {data : List α}
    (h : List.Forall₂ (fun n g => g.1 + g.2 ≤ n) dims gs) (hdata : data.length = dims.prod) :
    (itemsInside dims gs data).length = (List.zipWith (fun n g => n - g.1 - g.2) dims gs).prod := by
  have hfst : ((points dims).zip data).map Prod.fst = points dims :=
    List.map_fst_zip (by rw [length_points, hdata])
  have hfilter : (((points dims).zip data).filter fun e => inside dims gs e.1).map Prod.fst =
      (points dims).filter (inside dims gs) := by
    conv_rhs => rw [← hfst]
    rw [List.filter_map]
    rfl
  rw [← length_inside h, ← hfilter, itemsInside, List.length_map, List.length_map]

theorem itemsInside_of_none {dims : List ℕ} {gs : List (ℕ × ℕ)} {data : List α}
    (hgs : ∀ g ∈ gs, g = (0, 0)) (hdata : data.length = dims.prod) :
    itemsInside dims gs data = data := by
  have hall : ((points dims).zip data).filter (fun e => inside dims gs e.1) =
      (points dims).zip data := by
    rw [List.filter_eq_self]
    rintro ⟨p, a⟩ he
    exact inside_of_none hgs (List.of_mem_zip he).1
  rw [itemsInside, hall, List.map_snd_zip (by rw [length_points, hdata])]

/-! ### Transfers -/

/-- Copies the values at the first indices to the second ones, in order. -/
def transfer (src dst : List ℕ) (data d : List α) : List α :=
  (src.zip dst).foldl (fun d e => (data[e.1]?).elim d fun a => d.set e.2 a) d

@[simp] theorem length_transfer (src dst : List ℕ) (data d : List α) :
    (transfer src dst data d).length = d.length := by
  unfold transfer
  induction src.zip dst generalizing d with
  | nil => rfl
  | cons e es ih =>
    rw [List.foldl_cons, ih]
    cases data[e.1]? <;> simp

theorem transfer_cons (i j : ℕ) (src dst : List ℕ) (data d : List α) :
    transfer (i :: src) (j :: dst) data d =
      transfer src dst data ((data[i]?).elim d fun a => d.set j a) := rfl

theorem transfer_of_notMem {src dst : List ℕ} {data d : List α} {j : ℕ} (h : j ∉ dst) :
    (transfer src dst data d)[j]? = d[j]? := by
  induction src generalizing dst d with
  | nil => rfl
  | cons i src ih =>
    cases dst with
    | nil => rfl
    | cons j' dst =>
      rw [List.mem_cons, not_or] at h
      rw [transfer_cons, ih h.2]
      cases data[i]? with
      | none => rfl
      | some a => exact List.getElem?_set_ne (Ne.symm h.1)

/-- When no index comes twice, each holds afterwards what was sent there. -/
theorem getElem?_transfer {src dst : List ℕ} {data d : List α} (hdst : dst.Nodup) {k i j : ℕ}
    (hi : src[k]? = some i) (hj : dst[k]? = some j) (hdata : i < data.length) (hd : j < d.length) :
    (transfer src dst data d)[j]? = data[i]? := by
  induction src generalizing dst d k with
  | nil => simp at hi
  | cons i' src ih =>
    cases dst with
    | nil => simp at hj
    | cons j' dst =>
      rw [List.nodup_cons] at hdst
      rw [transfer_cons]
      cases k with
      | zero =>
        rw [List.getElem?_cons_zero, Option.some.injEq] at hi hj
        subst hi hj
        rw [transfer_of_notMem hdst.1, List.getElem?_eq_getElem hdata, Option.elim_some,
          List.getElem?_set_self hd]
      | succ k =>
        refine ih hdst.2 hi hj ?_
        cases data[i']? <;> simpa using hd

end RowMajor
