import Damaris.Lib.NestedReader
import Damaris.Lib.Supersteps
import Damaris.Scripts.PassData

/-!
# Dask arrays of all servers' blocks

Every server runs the same script. `return_dask_array` gathers the lists of blocks on the first server,
publishes each server's blocks under a name of its own, and has the first server evaluate the text that
refers to them all. A name says which server and which iteration it is of, but not which variable: the
first variable of an iteration takes it.
-/
namespace Damaris.DaskArray

open Data DaskLayout NestedList Numeral PyAction Supersteps

/-! ## The text, as Python evaluates it -/

/-- The text behind what is expected. -/
def expect : List Char → List Char → Option (List Char)
  | [], s => some s
  | c :: cs, d :: s => if c = d then expect cs s else none
  | _ :: _, [] => none

/-- What stands before the next quote. -/
def readPlain (s : List Char) : PlainString :=
  ⟨s.takeWhile fun c => decide (c ∉ "'\\\n".toList), fun c hc =>
    of_decide_eq_true (List.all_eq_true.mp List.all_takeWhile c hc)⟩

/-- A published array by its two names. -/
def readRef (client : Name) (s : List Char) : Option ((PlainString × PlainString) × List Char) := do
  let s ← expect (client.chars ++ ".datasets['".toList) s
  let pubName := readPlain s
  let s ← expect "']['".toList (s.drop pubName.chars.length)
  let key := readPlain s
  let s ← expect "']".toList (s.drop key.chars.length)
  some ((pubName, key), s)

/-- The nested list that `exec` assigns to `data`. -/
def readData (client : Name) (s : List Char) : Option (Nested (PlainString × PlainString)) :=
  (expect "data = ".toList s).bind (readAll (readRef client))

theorem expect_append (cs s : List Char) : expect cs (cs ++ s) = some s := by
  induction cs with
  | nil => rfl
  | cons c cs ih => rw [List.cons_append, expect, if_pos rfl, ih]

theorem readPlain_append (p : PlainString) {q : List Char}
    (hq : ∃ c s, q = c :: s ∧ c ∈ "'\\\n".toList) : readPlain (p.chars ++ q) = p := by
  obtain ⟨c, s, rfl, hc⟩ := hq
  have htake : (p.chars ++ c :: s).takeWhile (fun c => decide (c ∉ "'\\\n".toList)) = p.chars := by
    rw [List.takeWhile_append_of_pos fun d hd => decide_eq_true (p.plain d hd),
      List.takeWhile_cons_of_neg (by simpa using not_not_intro hc), List.append_nil]
  obtain ⟨chars, plain⟩ := p
  simp only [readPlain, htake]

theorem readRef_fullStr (client : Name) (x : PlainString × PlainString) (rest : List Char) :
    readRef client (fullStr client x ++ rest) = some (x, rest) := by
  have htext : fullStr client x ++ rest = (client.chars ++ ".datasets['".toList) ++
      (x.1.chars ++ ("']['".toList ++ (x.2.chars ++ ("']".toList ++ rest)))) := by
    simp only [fullStr, List.append_assoc]
  have hquote : ∀ {cs : List Char} (s : List Char), cs.head? = "'".toList.head? →
      ∃ c t, cs ++ s = c :: t ∧ c ∈ "'\\\n".toList := by
    intro cs s hcs
    cases cs with
    | nil => cases hcs
    | cons c cs =>
      obtain rfl := Option.some.inj hcs
      exact ⟨_, _, rfl, by decide⟩
  rw [readRef, htext, expect_append, Option.bind_eq_bind, Option.bind_some,
    readPlain_append x.1 (hquote _ (by decide))]
  simp only [List.drop_left, expect_append, Option.bind_some]
  rw [readPlain_append x.2 (hquote _ (by decide)), List.drop_left, expect_append, Option.bind_some]

theorem reads_fullStr (client : Name) : Reads (readRef client) (fullStr client) := by
  refine ⟨readRef_fullStr client, fun x => ?_⟩
  obtain ⟨c, cs, hcs⟩ := List.exists_cons_of_ne_nil client.nonempty
  have hword := client.word c (hcs ▸ List.mem_cons_self)
  have hne : ∀ d : Char, ¬ (d.isAlphanum ∨ d = '_') → c ≠ d := fun d hd heq => hd (heq ▸ hword)
  refine ⟨c, _, by rw [fullStr, hcs]; rfl, hne '[' (by decide), hne ']' (by decide), ?_⟩
  have hblank := hne ' ' (by decide)
  have hline := hne '\n' (by decide)
  have htab := hne '\t' (by decide)
  have hreturn := hne '\r' (by decide)
  simp [isBlank, hblank, hline, htab, hreturn]

/-- Python makes of the text what it was written for. -/
theorem readData_of_parsesAs {client : Name} {s : List Char}
    {x : Nested (PlainString × PlainString)} (h : ParsesAs client s x) :
    readData client s = some x := by
  obtain ⟨t, rfl, ht⟩ := h
  rw [readData, expect_append, Option.bind_some, readAll_of_writes (reads_fullStr client) ht]

/-! ## The function -/

variable {D : Type} {n : ℕ}

/-- The datasets that are published, by name. -/
abbrev Datasets (D : Type) := List Char → Option (NumpyData D)

/-- What a call ends with. `keyError` is caught, and printed; `raised` ends the script. -/
inductive Outcome (D : Type)
  | none
  | keyError
  | raised
  | array (data : Nested (NdArray D))

/-- What a server still does in its scripts; `none` where its behaviour is undefined. -/
abbrev Server (D : Type) := Program (Datasets D) (List Item) (Option (List (Outcome D)))

/-- `client.datasets[name] = data`, which a dataset of that name makes fail. -/
def publish (name : List Char) (data : NumpyData D) (s : Datasets D) : Datasets D :=
  if (s name).isSome then s else Function.update s name (some data)

/-- `client.datasets[pub_name][key]`. -/
def lookup (s : Datasets D) (x : PlainString × PlainString) : Option (NdArray D) :=
  (s x.1.chars).bind fun data => data x.2.chars

mutual

/-- The nested list with its values, which are looked up from left to right. -/
def fetch : Nested (PlainString × PlainString) → (Nested (NdArray D) → Server D) → Server D →
    Server D
  | .leaf x, next, keyError => .op id fun s =>
    match lookup s x with
    | some a => next (.leaf a)
    | none => keyError
  | .list xs, next, keyError => fetchAll xs (fun ys => next (.list ys)) keyError

def fetchAll : List (Nested (PlainString × PlainString)) → (List (Nested (NdArray D)) → Server D) →
    Server D → Server D
  | [], next, _ => next []
  | x :: xs, next, keyError =>
    fetch x (fun y => fetchAll xs (fun ys => next (y :: ys)) keyError) keyError

end

/-- What rank 0 does behind the last barrier. -/
def build (gathered : Option (List (List Item))) (next : Outcome D → Server D) : Server D :=
  match gathered with
  | none => next .none
  | some lists =>
    match returnDaskBlockLayout (mylistSorted lists.flatten) clientName with
    | none => next .raised
    | some daskStr =>
      match readData clientName daskStr with
      | none => next .raised
      | some x => fetch x (fun data => next (.array data)) (next .keyError)

variable (str : VariableDict D → List Char)

/-- `str(return_iteration(DamarisData))`; a variable of the name would be in its place. -/
def iterationStr : Entry D → List Char
  | .iteration iteration => text iteration
  | .dict d => str d

/-- `return_dask_array`. -/
def returnDaskArray (rank : ℤ) (magic : ℕ) (dict : IterationDict D) (varname : String)
    (next : Outcome D → Server D) : Server D :=
  match dict "iteration" with
  | none => next .keyError
  | some iteration =>
    match dict varname with
    | none => next .keyError
    | some (.iteration _) => next .raised
    | some (.dict d) =>
      let pubName := 'S' :: text rank ++ '_' :: 'I' :: iterationStr str iteration ++ '_' :: text magic
      .gather d.sortList fun mylist =>
      .barrier <|
      .op (publish pubName d.numpyData) fun s =>
        if (s pubName).isSome then next .keyError
        else .barrier (build mylist next)

/-- What a script does after a call: an exception that is not caught ends it. -/
def proceed (rest : (List (Outcome D) → Server D) → Server D) (next : List (Outcome D) → Server D) :
    Outcome D → Server D
  | .raised => next [.raised]
  | o => rest fun os => next (o :: os)

/-- A script that calls the function for these variables. -/
def runScript (rank : ℤ) (magic : ℕ) (dict : IterationDict D) :
    List String → (List (Outcome D) → Server D) → Server D
  | [], next => next []
  | varname :: calls, next =>
    returnDaskArray str rank magic dict varname (proceed (runScript rank magic dict calls) next)

/-- A run of a script at the end of an iteration. The variables are the same on all servers, their
blocks are each server's own. -/
structure Job (n : ℕ) (D : Type) where
  iteration : ℤ
  vars : Fin n → List (ScriptVariable D)
  calls : List String
  uniform : ∀ i j, (vars i).map (fun v => (v.name, v.var.timeVarying)) =
    (vars j).map fun v => (v.name, v.var.timeVarying)

/-- A server's jobs, one after the other. -/
def server (magic : ℕ) (i : Fin n) : List (Job n D) → List (Outcome D) → Server D
  | [], outcomes => .done (some outcomes)
  | job :: jobs, outcomes =>
    match passDataToPython i.val job.iteration magic (job.vars i) with
    | none => .done none
    | some dict =>
      runScript str i.val magic dict job.calls fun os => server magic i jobs (outcomes ++ os)

/-! ## One call -/

theorem daskPub_injective (iteration : ℤ) (magic : ℕ) :
    Function.Injective fun i : Fin n => (daskPub i.val iteration magic).chars := by
  intro i j h
  exact Fin.ext (Int.ofNat_inj.mp (daskPub_inj h).1)

theorem publish_of_isSome {name : List Char} {data : NumpyData D} {s : Datasets D}
    (h : (s name).isSome) : publish name data s = s := if_pos h

theorem publish_of_none {name : List Char} {data : NumpyData D} {s : Datasets D}
    (h : s name = none) : publish name data s = Function.update s name (some data) := by
  rw [publish, if_neg (by simp [h])]

theorem owns_publish {name : List Char} {data : NumpyData D} {next : Datasets D → Server D}
    (hquiet : ∀ s, (next s).Quiet) (hnext : ∀ s s', s name = s' name → next s = next s') :
    Owns name (Program.op (publish name data) next) := by
  refine ⟨fun s k hk => ?_, fun s s' h => ⟨?_, hnext s s' h⟩, fun s => (hquiet s).owns⟩
  · unfold publish
    split_ifs
    · rfl
    · exact Function.update_of_ne hk ..
  · unfold publish
    rw [h]
    split_ifs
    · exact h
    · rw [Function.update_self, Function.update_self]

section

variable {name : Fin n → List Char} {data : Fin n → NumpyData D} {s : Datasets D}

/-- The servers' datasets, published one after the other. -/
def publishAll (name : Fin n → List Char) (data : Fin n → NumpyData D) (s : Datasets D) :
    Datasets D :=
  (List.finRange n).foldl (fun s i => publish (name i) (data i) s) s

theorem publishAll_of_isSome (h : ∀ i, (s (name i)).isSome) : publishAll name data s = s := by
  have hlist : ∀ l : List (Fin n), l.foldl (fun s i => publish (name i) (data i) s) s = s := by
    intro l
    induction l with
    | nil => rfl
    | cons i l ih => rw [List.foldl_cons, publish_of_isSome (h i), ih]
  exact hlist _

theorem foldl_publish (hinj : Function.Injective name) {l : List (Fin n)} (hnodup : l.Nodup)
    (hfree : ∀ i ∈ l, s (name i) = none) :
    (∀ i ∈ l, l.foldl (fun s i => publish (name i) (data i) s) s (name i) = some (data i)) ∧
      ∀ k, (∀ i ∈ l, k ≠ name i) → l.foldl (fun s i => publish (name i) (data i) s) s k = s k := by
  induction l generalizing s with
  | nil => exact ⟨by simp, fun _ _ => rfl⟩
  | cons i l ih =>
    obtain ⟨hi, hnodup⟩ := List.nodup_cons.mp hnodup
    obtain ⟨hfreei, hfree⟩ := List.forall_mem_cons.mp hfree
    have hne : ∀ j ∈ l, name j ≠ name i := fun j hj => hinj.ne fun h => hi (h ▸ hj)
    have hrest := ih (s := publish (name i) (data i) s) hnodup fun j hj => by
      rw [publish_of_none hfreei, Function.update_of_ne (hne j hj), hfree j hj]
    rw [publish_of_none hfreei] at hrest
    simp only [List.foldl_cons, publish_of_none hfreei]
    refine ⟨fun j hj => ?_, fun k hk => ?_⟩
    · rcases List.mem_cons.mp hj with rfl | hj
      · rw [hrest.2 _ fun j' hj' => (hne j' hj').symm, Function.update_self]
      · exact hrest.1 j hj
    · obtain ⟨hki, hk⟩ := List.forall_mem_cons.mp hk
      rw [hrest.2 k hk, Function.update_of_ne hki]

theorem publishAll_self (data : Fin n → NumpyData D) (hinj : Function.Injective name)
    (hfree : ∀ i, s (name i) = none) (i : Fin n) : publishAll name data s (name i) = some (data i) :=
  (foldl_publish hinj (List.nodup_finRange n) fun i _ => hfree i).1 i (List.mem_finRange i)

theorem publishAll_of_ne (hinj : Function.Injective name) (hfree : ∀ i, s (name i) = none)
    {k : List Char} (hk : ∀ i, k ≠ name i) : publishAll name data s k = s k :=
  (foldl_publish hinj (List.nodup_finRange n) fun i _ => hfree i).2 k fun i _ => hk i

end

/-- The values are those that the datasets have under the names. -/
theorem runs_fetch {s : Datasets D} {axes : List (List ℤ)} {f : List ℤ → PlainString × PlainString}
    {a : List ℤ → NdArray D} (h : ∀ p ∈ grid axes, lookup s (f p) = some (a p))
    (next : Nested (NdArray D) → Server D) (keyError : Server D) :
    ∃ k, Runs (fetch (arrange axes f) next keyError) s k (next (arrange axes a)) s := by
  induction axes generalizing f a next with
  | nil =>
    have hlookup := h [] (List.mem_singleton_self _)
    refine ⟨1, ?_⟩
    rw [arrange, arrange, fetch]
    refine .op ?_
    rw [hlookup]
    exact .refl _ _
  | cons axis axes ih =>
    have hall : ∀ (l : List ℤ) (next : List (Nested (NdArray D)) → Server D), (∀ x ∈ l, x ∈ axis) →
        ∃ k, Runs (fetchAll (l.map fun x => arrange axes fun p => f (x :: p)) next keyError) s k
          (next (l.map fun x => arrange axes fun p => a (x :: p))) s := by
      intro l
      induction l with
      | nil => exact fun next _ => ⟨0, .refl _ _⟩
      | cons x l ihl =>
        intro next hl
        obtain ⟨hx, hl⟩ := List.forall_mem_cons.mp hl
        have hpoints : ∀ p ∈ grid axes, lookup s (f (x :: p)) = some (a (x :: p)) := fun p hp =>
          h (x :: p) (List.mem_flatMap.mpr ⟨x, hx, List.mem_map.mpr ⟨p, hp, rfl⟩⟩)
        obtain ⟨k, hk⟩ := ih hpoints fun y => fetchAll
          (l.map fun x => arrange axes fun p => f (x :: p)) (fun ys => next (y :: ys)) keyError
        obtain ⟨k', hk'⟩ := ihl (fun ys => next (arrange axes (fun p => a (x :: p)) :: ys)) hl
        exact ⟨k + k', hk.trans hk'⟩
    obtain ⟨k, hk⟩ := hall axis (fun ys => next (.list ys)) fun x hx => hx
    exact ⟨k, hk⟩

section

variable {str : VariableDict D → List Char} {magic : ℕ} {iteration : ℤ} {varname : String}
  {dict : Fin n → IterationDict D} {d : Fin n → VariableDict D} {next : Fin n → Outcome D → Server D}
  {s : Datasets D} {t : State n (Datasets D) (List Item) (Option (List (Outcome D)))} {m : ℕ}

/-- Servers that call the function for a variable that is not there. -/
theorem returnDaskArray_absent {dict : IterationDict D} {next : Outcome D → Server D} (rank : ℤ)
    (hit : dict "iteration" = some (.iteration iteration)) (hname : dict varname = none) :
    returnDaskArray str rank magic dict varname next = next .keyError := by
  rw [returnDaskArray, hit, hname]

/-- The calls up to where the datasets are published, or found to be there. -/
theorem orderly_publish (hn : n ≠ 0) (hquiet : ∀ i o, (next i o).Quiet)
    (hit : ∀ i, dict i "iteration" = some (.iteration iteration))
    (hname : ∀ i, dict i varname = some (.dict (d i)))
    (hrest : Orderly ⟨publishAll (fun i => (daskPub i.val iteration magic).chars)
        (fun i => (d i).numpyData) s,
      fun i => if (s (daskPub i.val iteration magic).chars).isSome then next i .keyError
        else .barrier (build
          (if i.val = 0 then some (List.ofFn fun j => (d j).sortList) else none) (next i))⟩ m t) :
    ∃ k, Orderly ⟨s, fun i => returnDaskArray str i.val magic (dict i) varname (next i)⟩ k t := by
  have hcall : ∀ i, returnDaskArray str i.val magic (dict i) varname (next i) =
      .gather (d i).sortList fun mylist => .barrier <|
        .op (publish (daskPub i.val iteration magic).chars (d i).numpyData) fun s =>
          if (s (daskPub i.val iteration magic).chars).isSome then next i .keyError
          else .barrier (build mylist (next i)) := by
    intro i
    rw [returnDaskArray, hit i]
    simp only [hname i]
    rfl
  refine ⟨_, .gather (step_gather_eq_some.mpr ⟨hn, _, _, hcall, rfl⟩)
    (.barrier (step_barrier_eq_some.mpr ⟨hn, _, fun i => rfl, rfl⟩) (.round ?_ (fun i => rfl) hrest))⟩
  refine independent_of_owns (daskPub_injective iteration magic) fun i => ?_
  refine owns_publish (fun s => ?_) fun s s' h => by rw [h]
  by_cases hs : (s (daskPub i.val iteration magic).chars).isSome
  · rw [if_pos hs]
    exact hquiet i _
  · rw [if_neg hs]
    trivial

/-- An earlier call has taken the name. -/
theorem orderly_published (hn : n ≠ 0) (hquiet : ∀ i o, (next i o).Quiet)
    (hit : ∀ i, dict i "iteration" = some (.iteration iteration))
    (hname : ∀ i, dict i varname = some (.dict (d i)))
    (hthere : ∀ i : Fin n, (s (daskPub i.val iteration magic).chars).isSome)
    (hrest : Orderly ⟨s, fun i => next i .keyError⟩ m t) :
    ∃ k, Orderly ⟨s, fun i => returnDaskArray str i.val magic (dict i) varname (next i)⟩ k t := by
  refine orderly_publish hn hquiet hit hname (m := m) ?_
  rw [publishAll_of_isSome hthere]
  simpa only [hthere, if_true] using hrest

/-- The name is free, and the text refers to the arrays by the names that they are published
under. -/
theorem orderly_fresh (hn : n ≠ 0) (hquiet : ∀ i o, (next i o).Quiet)
    (hit : ∀ i, dict i "iteration" = some (.iteration iteration))
    (hname : ∀ i, dict i varname = some (.dict (d i)))
    (hfree : ∀ i : Fin n, s (daskPub i.val iteration magic).chars = none)
    {axes : List (List ℤ)} {f : List ℤ → PlainString × PlainString} {a : List ℤ → NdArray D}
    (hlays : LaysOut clientName (List.ofFn fun j => (d j).sortList).flatten (arrange axes f))
    (hlookup : ∀ p ∈ grid axes, lookup (publishAll (fun i => (daskPub i.val iteration magic).chars)
      (fun i => (d i).numpyData) s) (f p) = some (a p))
    (hrest : Orderly ⟨publishAll (fun i => (daskPub i.val iteration magic).chars)
        (fun i => (d i).numpyData) s,
      fun i => next i (if i.val = 0 then .array (arrange axes a) else .none)⟩ m t) :
    ∃ k, Orderly ⟨s, fun i => returnDaskArray str i.val magic (dict i) varname (next i)⟩ k t := by
  have hroot : 0 < n := Nat.pos_of_ne_zero hn
  obtain ⟨text, htext, hparses, -⟩ := hlays
  obtain ⟨k, hk⟩ := runs_fetch hlookup (fun data => next ⟨0, hroot⟩ (.array data))
    (next ⟨0, hroot⟩ .keyError)
  refine orderly_publish hn hquiet hit hname (m := k + m + 1) ?_
  simp only [hfree, Option.isSome_none, Bool.false_eq_true, if_false]
  refine .barrier (step_barrier_eq_some.mpr ⟨hn, _, fun i => rfl, rfl⟩) ?_
  refine .alone (i := ⟨0, hroot⟩) (q := next ⟨0, hroot⟩ (.array (arrange axes a)))
    (y := publishAll (fun i => (daskPub i.val iteration magic).chars) (fun i => (d i).numpyData) s)
    (fun j hj => ?_) ?_ ?_
  · have hj0 : j.val ≠ 0 := fun h => hj (Fin.ext h)
    simp only [if_neg hj0]
    exact hquiet j _
  · simp only [if_true, build, htext, readData_of_parsesAs hparses]
    exact hk
  · convert hrest using 2
    funext i
    by_cases hi : i.val = 0
    · obtain rfl : i = ⟨0, hroot⟩ := Fin.ext hi
      simp
    · have hne : i ≠ ⟨0, hroot⟩ := fun h => hi (congrArg Fin.val h)
      rw [Function.update_of_ne hne]
      simp only [if_neg hi]
      rfl

end

end Damaris.DaskArray
