import Damaris.Lib.Numeral
import Damaris.Storage.IterationIsEmpty

/-!
# The names of files and datasets

An output goes to a file that is named after the simulation, the iteration and, in the mode that
writes a file for each core, the server. A block's dataset is named after its variable and the
client. What a name stands for can be read back from it; the datasets of a file are in each other's
way only where the names of variables are.
-/
namespace Damaris

open Data Numeral

namespace HDF5Store

inductive FileMode
  | FilePerCore
  | FilePerNode
  | Collective
  | CollectiveTest
  deriving DecidableEq, Repr

/-- What `ReadKeyValues` sets, less `xdmfMode_`, which nothing reads. -/
structure Options where
  fileMode : FileMode
  path : String
  deriving DecidableEq

/-- One round of the loop in `ReadKeyValues`, and whether it goes on. -/
def readKeyValue (o : Options) (key value : String) : Options × Bool :=
  if key = "FileMode" then
    if value = "FilePerCore" then ({ o with fileMode := .FilePerCore }, true)
    else if value = "FilePerNode" then ({ o with fileMode := .FilePerNode }, false)
    else if value = "Collective" then ({ o with fileMode := .Collective }, true)
    else if value = "CollectiveTest" then ({ o with fileMode := .CollectiveTest }, true)
    else (o, false)
  else if key = "XDMFMode" then
    (o, value = "NoIteration" ∨ value = "FirstIteration" ∨ value = "EveryIteration")
  else if key = "FilesPath" then ({ o with path := value }, true)
  else (o, true)

def readKeyValues (o : Options) : List (String × String) → Options × Bool
  | [] => (o, true)
  | (key, value) :: rest =>
    match readKeyValue o key value with
    | (o, true) => readKeyValues o rest
    | (o, false) => (o, false)

/-- The constructor; a bad value is an `ERROR` in the log. -/
def options (option : List (String × String)) : Options :=
  (readKeyValues ⟨.FilePerCore, ""⟩ option).1

/-- `GetOutputFileName`. -/
def getOutputFileName (o : Options) (baseName : String) (iteration processId : ℤ) : String :=
  match o.fileMode with
  | .FilePerCore =>
    o.path ++ baseName ++ "_It" ++ toString iteration ++ "_Pr" ++ toString processId ++ ".h5"
  | .Collective | .CollectiveTest => o.path ++ baseName ++ "_It" ++ toString iteration ++ ".h5"
  | .FilePerNode => ""

/-- `GetVariableFullName`. -/
def getVariableFullName {D : Type*} (mode : FileMode) (numDomains : ℤ) (name : String)
    (b : Option (Block D)) : String :=
  match b with
  | none => name
  | some b =>
    if mode = .Collective ∨ mode = .CollectiveTest then name
    else if numDomains = 1 then name ++ "/P" ++ toString b.source
    else name ++ "/P" ++ toString b.source ++ "/B" ++ toString b.id

/-! ## Files -/

/-- The modes that share one file between the servers. -/
def FileMode.shared (m : FileMode) : Bool := m = .Collective ∨ m = .CollectiveTest

theorem toList_perCore {o : Options} (h : o.fileMode = .FilePerCore) (base : String) (it pr : ℤ) :
    (getOutputFileName o base it pr).toList =
      (((o.path.toList ++ base.toList ++ ['_', 'I']) ++ 't' :: text it) ++ ['_', 'P']) ++
        'r' :: text pr ++ ".h5".toList := by
  simp [getOutputFileName, h, text, List.append_assoc]

theorem toList_shared {o : Options} (h : o.fileMode.shared) (base : String) (it pr : ℤ) :
    (getOutputFileName o base it pr).toList =
      ((o.path.toList ++ base.toList ++ ['_', 'I']) ++ 't' :: text it) ++ ".h5".toList := by
  cases hm : o.fileMode <;> simp [hm, FileMode.shared] at h <;>
    simp [getOutputFileName, hm, text, List.append_assoc]

theorem perCore_of_not_shared {m : FileMode} (h : m ≠ .FilePerNode) (hs : m.shared = false) :
    m = .FilePerCore := by
  cases m with
  | FilePerCore => rfl
  | FilePerNode => exact absurd rfl h
  | Collective => cases hs
  | CollectiveTest => cases hs

/-- The iteration is read back from the front of a name, and the path. -/
theorem front_inj {path path' : String} (base : String) {it it' : ℤ}
    (h : path.toList ++ base.toList ++ ['_', 'I'] ++ 't' :: text it =
      path'.toList ++ base.toList ++ ['_', 'I'] ++ 't' :: text it') : path = path' ∧ it = it' := by
  obtain ⟨hfront, -, hit⟩ := append_text_inj rfl rfl h
  have hpath := List.append_cancel_right (List.append_cancel_right hfront)
  exact ⟨String.toList_inj.mp hpath, hit⟩

/-- Two outputs of a simulation name the same file only if they are of stores with the same path,
for the same iteration, and of one server, or of all servers together. -/
theorem getOutputFileName_eq_iff {o o' : Options} (h : o.fileMode ≠ .FilePerNode)
    (h' : o'.fileMode ≠ .FilePerNode) (base : String) (it pr it' pr' : ℤ) :
    getOutputFileName o base it pr = getOutputFileName o' base it' pr' ↔
      o.fileMode.shared = o'.fileMode.shared ∧ o.path = o'.path ∧ it = it' ∧
        (o.fileMode.shared = false → pr = pr') := by
  rw [← String.toList_inj]
  cases hs : o.fileMode.shared with
  | false =>
    rw [toList_perCore (perCore_of_not_shared h hs)]
    cases hs' : o'.fileMode.shared with
    | false =>
      rw [toList_perCore (perCore_of_not_shared h' hs')]
      constructor
      · intro heq
        obtain ⟨hfront, -, hpr⟩ := append_text_inj rfl rfl (List.append_cancel_right heq)
        obtain ⟨hpath, hit⟩ := front_inj base (List.append_cancel_right hfront)
        exact ⟨rfl, hpath, hit, fun _ => hpr⟩
      · intro heq
        obtain ⟨-, hpath, hit, hpr⟩ := heq
        rw [hpath, hit, hpr rfl]
    | true =>
      rw [toList_shared hs']
      refine iff_of_false (fun heq => ?_) (fun heq => nomatch heq.1)
      -- a server's number follows an `r`, an iteration a `t`
      obtain ⟨-, hsep, -⟩ := append_text_inj rfl rfl (List.append_cancel_right heq)
      exact absurd hsep (by decide)
  | true =>
    rw [toList_shared hs]
    cases hs' : o'.fileMode.shared with
    | false =>
      rw [toList_perCore (perCore_of_not_shared h' hs')]
      refine iff_of_false (fun heq => ?_) (fun heq => nomatch heq.1)
      obtain ⟨-, hsep, -⟩ := append_text_inj rfl rfl (List.append_cancel_right heq)
      exact absurd hsep (by decide)
    | true =>
      rw [toList_shared hs']
      constructor
      · intro heq
        obtain ⟨hpath, hit⟩ := front_inj base (List.append_cancel_right heq)
        exact ⟨rfl, hpath, hit, nofun⟩
      · intro heq
        obtain ⟨-, hpath, hit, -⟩ := heq
        rw [hpath, hit]

/-! ## Datasets -/

/-- The links that lead from the root of a file to an object. HDF5 takes several slashes for one,
and a dot for the group that it stands in. -/
def components (name : String) : List (List Char) :=
  (name.toList.splitOnP (· = '/')).filter fun c => decide (c ≠ [] ∧ c ≠ ['.'])

/-- One of two objects stands where the other one does, or would need it to be a group. -/
def Clash (a b : String) : Prop := components a <+: components b ∨ components b <+: components a

instance (a b : String) : Decidable (Clash a b) := inferInstanceAs (Decidable (_ ∨ _))

/-- `H5Dcreate`, which makes the groups that are missing: it fails, and an error is logged, where
the name is in the way of a dataset of the file. -/
def createDataset {α : Type*} (file : List (String × α)) (d : String × α) : List (String × α) :=
  if ∃ x ∈ file, Clash x.1 d.1 then file else file ++ [d]

variable {D : Type*}

/-- What `OutputPerCore` creates in turn: a dataset for each block. -/
def datasets (numDomains : ℤ) (vars : List (String × Variable D)) (iteration : ℤ) :
    List (String × Block D) :=
  (vars.filter fun v => v.2.writtenIn iteration).flatMap fun v =>
    (v.2.blocksByIteration iteration).map fun b =>
      (getVariableFullName .FilePerCore numDomains v.1 (some b), b)

/-- The datasets of the file that `OutputPerCore` has created. -/
def fileOf (numDomains : ℤ) (vars : List (String × Variable D)) (iteration : ℤ) :
    List (String × Block D) :=
  (datasets numDomains vars iteration).foldl createDataset []

theorem datasets_eq (numDomains : ℤ) (vars : List (String × Variable D)) (iteration : ℤ) :
    datasets numDomains vars iteration = vars.flatMap fun v => (v.2.written iteration).map fun b =>
      (getVariableFullName .FilePerCore numDomains v.1 (some b), b) := by
  unfold datasets
  induction vars with
  | nil => rfl
  | cons v vars ih =>
    rw [List.flatMap_cons, ← ih, List.filter_cons, Variable.written]
    split_ifs
    · rw [List.flatMap_cons]
    · rfl

/-- The blocks are those of `outputPerCore`, in its order. -/
theorem outputPerCore_eq_datasets {S V : Type} (h : Hdf5 S V) (numDomains : ℤ)
    (vars : List (String × Variable (List V))) (iteration : ℤ) :
    (outputPerCore h (vars.map Prod.snd) iteration).map (fun x => x.2.1) =
      (datasets numDomains vars iteration).map Prod.snd := by
  simp only [outputPerCore, datasets, List.map_flatMap, List.map_map, List.filter_map,
    List.flatMap_map, Function.comp_def]

/-! ## Every block has its dataset -/

theorem length_foldl_createDataset_le {α : Type*} (ds file : List (String × α)) :
    (ds.foldl createDataset file).length ≤ file.length + ds.length := by
  induction ds generalizing file with
  | nil => exact le_rfl
  | cons d ds ih =>
    have hcreate : (createDataset file d).length ≤ file.length + 1 := by
      unfold createDataset
      split_ifs <;> simp
    have hrest := ih (createDataset file d)
    rw [List.foldl_cons, List.length_cons]
    omega

/-- All datasets are created if and only if no two of them clash. -/
theorem foldl_createDataset_eq_iff {α : Type*} (ds file : List (String × α)) :
    ds.foldl createDataset file = file ++ ds ↔
      (∀ x ∈ file, ∀ d ∈ ds, ¬ Clash x.1 d.1) ∧ ds.Pairwise fun x d => ¬ Clash x.1 d.1 := by
  induction ds generalizing file with
  | nil => simp
  | cons d ds ih =>
    rw [List.foldl_cons, createDataset, List.pairwise_cons]
    split_ifs with hclash
    · obtain ⟨x, hx, hxd⟩ := hclash
      refine iff_of_false (fun heq => ?_) (fun h => h.1 x hx d List.mem_cons_self hxd)
      have hlen := length_foldl_createDataset_le ds file
      rw [heq, List.length_append, List.length_cons] at hlen
      omega
    · have hfree : ∀ x ∈ file, ¬ Clash x.1 d.1 := fun x hx hxd => hclash ⟨x, hx, hxd⟩
      have hsplit : file ++ d :: ds = (file ++ [d]) ++ ds := by simp
      rw [hsplit, ih]
      constructor
      · intro h
        refine ⟨fun x hx e he => ?_, fun e he => ?_, h.2⟩
        · rcases List.mem_cons.mp he with rfl | he
          · exact hfree x hx
          · exact h.1 x (List.mem_append_left _ hx) e he
        · exact h.1 d (List.mem_append_right _ (List.mem_singleton_self d)) e he
      · intro h
        refine ⟨fun x hx e he => ?_, h.2.2⟩
        rcases List.mem_append.mp hx with hx | hx
        · exact h.1 x hx e (List.mem_cons_of_mem d he)
        · rw [List.mem_singleton.mp hx]
          exact h.2.1 e he

theorem components_append (a b : String) : components (a ++ "/" ++ b) = components a ++ components b := by
  have hlist : (a ++ "/" ++ b).toList = a.toList ++ '/' :: b.toList := by
    simp
  rw [components, hlist, List.splitOnP_append_cons _ _ (by decide), List.filter_append]
  rfl

/-- A letter with a number behind it is one link. -/
theorem components_letter {l : String} {c : Char} (hl : l.toList = [c]) (hslash : c ≠ '/') (hdot : c ≠ '.')
    (i : ℤ) : components (l ++ toString i) = [c :: text i] := by
  have hlist : (l ++ toString i).toList = c :: text i := by
    rw [String.toList_append, hl]
    rfl
  have hnone : ∀ x ∈ c :: text i, decide (x = '/') = false := by
    intro x hx
    rw [decide_eq_false_iff_not]
    rintro rfl
    rcases List.mem_cons.mp hx with hc | hx
    · exact hslash hc.symm
    · have hnumeric := isNumeric_of_mem hx
      exact absurd hnumeric (by decide)
  rw [components, hlist, List.splitOnP_eq_singleton hnone, List.filter_singleton]
  simp [hdot]

/-- Where the dataset of a block stands below its variable. -/
def place (numDomains : ℤ) (b : Block D) : List (List Char) :=
  if numDomains = 1 then ['P' :: text b.source] else ['P' :: text b.source, 'B' :: text b.id]

theorem components_fullName (numDomains : ℤ) (name : String) (b : Block D) :
    components (getVariableFullName .FilePerCore numDomains name (some b)) =
      components name ++ place numDomains b := by
  have hp : name ++ "/P" ++ toString b.source = name ++ "/" ++ ("P" ++ toString b.source) := by
    exact String.toList_inj.mp (by simp)
  have hsource := components_letter (l := "P") (c := 'P') rfl (by decide) (by decide) b.source
  have hmode : ¬ (FileMode.FilePerCore = .Collective ∨ FileMode.FilePerCore = .CollectiveTest) := by
    decide
  simp only [getVariableFullName, hmode, if_false, place]
  split_ifs
  · rw [hp, components_append, hsource]
  · have hb : name ++ "/P" ++ toString b.source ++ "/B" ++ toString b.id =
        name ++ "/" ++ ("P" ++ toString b.source) ++ "/" ++ ("B" ++ toString b.id) := by
      exact String.toList_inj.mp (by simp)
    have hid := components_letter (l := "B") (c := 'B') rfl (by decide) (by decide) b.id
    rw [hb, components_append, components_append, hsource, hid, List.append_assoc]
    rfl

theorem place_eq_iff {numDomains : ℤ} {b b' : Block D} : place numDomains b = place numDomains b' ↔
    b.source = b'.source ∧ (numDomains ≠ 1 → b.id = b'.id) := by
  unfold place
  split_ifs with h
  · simp [text_injective.eq_iff, h]
  · simp [text_injective.eq_iff, h]

/-- One dataset is in the way of another one if they stand at one place below one name, or if the
name of the other's variable leads through it. -/
theorem prefix_fullName_iff (numDomains : ℤ) (c c' : List (List Char)) (b b' : Block D) :
    c ++ place numDomains b <+: c' ++ place numDomains b' ↔
      c = c' ∧ place numDomains b = place numDomains b' ∨ c ++ place numDomains b <+: c' := by
  have hlen : (place numDomains b).length = (place numDomains b').length := by
    unfold place
    split_ifs <;> rfl
  have hequal : c ++ place numDomains b = c' ++ place numDomains b' ↔
      c = c' ∧ place numDomains b = place numDomains b' :=
    ⟨fun h => List.append_inj' h hlen, fun h => by rw [h.1, h.2]⟩
  rw [← hequal]
  unfold place
  split_ifs with h
  · rw [List.prefix_concat_iff]
  · have hsplit : c' ++ ['P' :: text b'.source, 'B' :: text b'.id] =
        (c' ++ ['P' :: text b'.source]) ++ ['B' :: text b'.id] := by simp
    rw [hsplit, List.prefix_concat_iff, List.prefix_concat_iff]
    have hnot : c ++ ['P' :: text b.source, 'B' :: text b.id] ≠ c' ++ ['P' :: text b'.source] := by
      intro heq
      have hlast := congrArg List.getLast? heq
      simp at hlast
    simp [hnot]

theorem clash_fullName_iff (numDomains : ℤ) (name name' : String) (b b' : Block D) :
    Clash (getVariableFullName .FilePerCore numDomains name (some b))
        (getVariableFullName .FilePerCore numDomains name' (some b')) ↔
      components name = components name' ∧ place numDomains b = place numDomains b' ∨
        components name ++ place numDomains b <+: components name' ∨
          components name' ++ place numDomains b' <+: components name := by
  rw [Clash, components_fullName, components_fullName, prefix_fullName_iff, prefix_fullName_iff]
  constructor
  · rintro ((h | h) | (⟨hname, hplace⟩ | h))
    · exact .inl h
    · exact .inr (.inl h)
    · exact .inl ⟨hname.symm, hplace.symm⟩
    · exact .inr (.inr h)
  · rintro (h | h | h)
    · exact .inl (.inl h)
    · exact .inl (.inr h)
    · exact .inr (.inr h)

/-- No name leads through a dataset below itself. -/
theorem append_place_not_le (numDomains : ℤ) (c : List (List Char)) (b : Block D) :
    ¬ c ++ place numDomains b <+: c := by
  intro h
  have hlen := h.length_le
  have hpos : 0 < (place numDomains b).length := by
    unfold place
    split_ifs <;> simp
  rw [List.length_append] at hlen
  omega

/-- The datasets of an iteration are out of each other's way: those of one variable, where only the
client stands in their names, those of variables with one name for HDF5, and those of variables
whose names lead through the dataset of another one. -/
structure Separate (numDomains : ℤ) (vars : List (String × Variable D)) (iteration : ℤ) : Prop where
  sources : numDomains = 1 → ∀ v ∈ vars, ((v.2.written iteration).map Block.source).Nodup
  names : vars.Pairwise fun v w => components v.1 = components w.1 →
    ∀ b ∈ v.2.written iteration, ∀ b' ∈ w.2.written iteration,
      ¬ (b.source = b'.source ∧ (numDomains ≠ 1 → b.id = b'.id))
  through : ∀ v ∈ vars, ∀ w ∈ vars, w.2.written iteration ≠ [] → ∀ b ∈ v.2.written iteration,
    ¬ components (getVariableFullName .FilePerCore numDomains v.1 (some b)) <+: components w.1

/-- The index keeps the blocks of an iteration apart by client and number. -/
theorem written_pairwise (v : Variable D) (iteration : ℤ) :
    (v.written iteration).Pairwise fun b b' => ¬ (b.source = b'.source ∧ b.id = b'.id) := by
  unfold Variable.written
  split_ifs
  · have hkeys := List.pairwise_map.mp v.blocks.nodup
    refine (hkeys.filter fun b => decide (b.iteration = iteration)).imp_of_mem ?_
    intro b b' hb hb' hne h
    have hi : b.iteration = iteration := of_decide_eq_true (List.mem_filter.mp hb).2
    have hi' : b'.iteration = iteration := of_decide_eq_true (List.mem_filter.mp hb').2
    exact hne (by rw [Block.key, Block.key, h.1, h.2, hi, hi'])
  · exact .nil

theorem pairwise_place_iff (numDomains : ℤ) (v : Variable D) (iteration : ℤ) :
    ((v.written iteration).Pairwise fun b b' => place numDomains b ≠ place numDomains b') ↔
      (numDomains = 1 → ((v.written iteration).map Block.source).Nodup) := by
  rw [List.Nodup, List.pairwise_map]
  by_cases h : numDomains = 1
  · have hplace : ∀ b b' : Block D, place numDomains b ≠ place numDomains b' ↔ b.source ≠ b'.source := by
      intro b b'
      rw [ne_eq, place_eq_iff]
      simp [h]
    simp only [hplace]
    exact ⟨fun hs _ => hs, fun hs => hs h⟩
  · refine iff_of_true ((written_pairwise v iteration).imp ?_) (fun h1 => absurd h1 h)
    intro b b' hne heq
    obtain ⟨hsource, hid⟩ := place_eq_iff.mp heq
    exact hne ⟨hsource, hid h⟩

theorem Separate.pairwise {numDomains : ℤ} {vars : List (String × Variable D)} {iteration : ℤ}
    (h : Separate numDomains vars iteration) :
    (datasets numDomains vars iteration).Pairwise fun x d => ¬ Clash x.1 d.1 := by
  rw [datasets_eq, List.pairwise_flatMap]
  simp only [List.pairwise_map, clash_fullName_iff, List.mem_map, forall_exists_index, and_imp,
    forall_apply_eq_imp_iff₂]
  refine ⟨fun v hv => ?_, h.names.imp_of_mem ?_⟩
  · refine ((pairwise_place_iff numDomains v.2 iteration).mpr fun hone => h.sources hone v hv).imp ?_
    intro b b' hne hclash
    rcases hclash with ⟨-, heq⟩ | hthrough | hthrough
    · exact hne heq
    · exact append_place_not_le _ _ _ hthrough
    · exact append_place_not_le _ _ _ hthrough
  · intro v w hv hw hnames b hb b' hb' hclash
    rcases hclash with ⟨hname, heq⟩ | hthrough | hthrough
    · exact hnames hname b hb b' hb' (place_eq_iff.mp heq)
    · rw [← components_fullName] at hthrough
      exact h.through v hv w hw (List.ne_nil_of_mem hb') b hb hthrough
    · rw [← components_fullName] at hthrough
      exact h.through w hw v hv (List.ne_nil_of_mem hb) b' hb' hthrough

theorem separate_of_pairwise {numDomains : ℤ} {vars : List (String × Variable D)} {iteration : ℤ}
    (h : (datasets numDomains vars iteration).Pairwise fun x d => ¬ Clash x.1 d.1) :
    Separate numDomains vars iteration := by
  rw [datasets_eq, List.pairwise_flatMap] at h
  simp only [List.pairwise_map, clash_fullName_iff, List.mem_map, forall_exists_index, and_imp,
    forall_apply_eq_imp_iff₂] at h
  obtain ⟨hwithin, hacross⟩ := h
  refine ⟨fun hone v hv => ?_, ?_, ?_⟩
  · refine (pairwise_place_iff numDomains v.2 iteration).mp ((hwithin v hv).imp ?_) hone
    intro b b' hnot heq
    exact hnot (.inl ⟨trivial, heq⟩)
  · refine hacross.imp ?_
    intro v w hvw hname b hb b' hb' heq
    exact hvw b hb b' hb' (.inl ⟨hname, place_eq_iff.mpr heq⟩)
  · have hall : vars.Pairwise fun v w => ∀ b ∈ v.2.written iteration, ∀ b' ∈ w.2.written iteration,
        ¬ components v.1 ++ place numDomains b <+: components w.1 ∧
          ¬ components w.1 ++ place numDomains b' <+: components v.1 := by
      refine hacross.imp ?_
      intro v w hvw b hb b' hb'
      exact ⟨fun h => hvw b hb b' hb' (.inr (.inl h)), fun h => hvw b hb b' hb' (.inr (.inr h))⟩
    have hflip := hall.imp fun {v w} hvw b hb b' hb' => (hvw b' hb' b hb).symm
    intro v hv w hw hne b hb
    obtain ⟨b', hb'⟩ := List.exists_mem_of_ne_nil _ hne
    rw [components_fullName]
    refine (hall.forall_of_forall_of_flip ?_ hflip hv hw b hb b' hb').1
    intro v hv b hb b' hb'
    exact ⟨append_place_not_le _ _ _, append_place_not_le _ _ _⟩

theorem fileOf_eq_datasets (numDomains : ℤ) (vars : List (String × Variable D)) (iteration : ℤ) :
    fileOf numDomains vars iteration = datasets numDomains vars iteration ↔
      (datasets numDomains vars iteration).Pairwise fun x d => ¬ Clash x.1 d.1 := by
  have hnil : datasets numDomains vars iteration = [] ++ datasets numDomains vars iteration := rfl
  rw [fileOf]
  conv_lhs => rhs; rw [hnil]
  rw [foldl_createDataset_eq_iff]
  exact and_iff_right (by simp)

/-- Names of variables that keep all datasets apart, whatever blocks there are. -/
structure DistinctNames (names : List String) : Prop where
  apart : names.Pairwise fun a b => components a ≠ components b
  through : ∀ a ∈ names, ∀ b ∈ names, ∀ source : ℤ, ¬ components a ++ ['P' :: text source] <+: components b

/-- With a single domain the clients write no block but that with number 0. -/
theorem separate_of_distinctNames {numDomains : ℤ} {vars : List (String × Variable D)} {iteration : ℤ}
    (hnames : DistinctNames (vars.map Prod.fst))
    (hids : numDomains = 1 → ∀ v ∈ vars, ∀ b ∈ v.2.written iteration, b.id = 0) :
    Separate numDomains vars iteration := by
  refine ⟨fun hone v hv => ?_, ?_, fun v hv w hw _ b _ hthrough => ?_⟩
  · rw [List.Nodup, List.pairwise_map]
    refine (written_pairwise v.2 iteration).imp_of_mem ?_
    intro b b' hb hb' hne hsource
    exact hne ⟨hsource, (hids hone v hv b hb).trans (hids hone v hv b' hb').symm⟩
  · refine (List.pairwise_map.mp hnames.apart).imp ?_
    intro v w hne heq
    exact absurd heq hne
  · rw [components_fullName] at hthrough
    refine hnames.through v.1 (List.mem_map_of_mem hv) w.1 (List.mem_map_of_mem hw) b.source
      (List.IsPrefix.trans ?_ hthrough)
    unfold place
    split_ifs
    · exact List.prefix_rfl
    · exact ⟨['B' :: text b.id], by simp⟩

end HDF5Store
end Damaris
