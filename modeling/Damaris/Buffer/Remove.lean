import Damaris.Util.Manager

/-!
# Creating and removing shared memory

`SharedMemorySegment::Create` makes one object of the system for each block of a buffer, and
`Remove` is to remove them. What the system does besides is not part of the model: whether it
grants the memory is up to it, and the contents of the segments play no role.
-/
namespace Damaris.SharedMemory

/-- `model::ShmType`. -/
inductive ShmType
  | posix
  | sysv
  deriving DecidableEq

/-- What `Create` and `Remove` read of `model::Buffer`. -/
structure Model where
  name : String
  type : ShmType
  blocks : UInt32

/-- The system: the key that `ftok` derives from a path and a project, `none` without such a file,
and the names for which memory is refused. -/
structure System (K : Type) where
  ftok : String → ℕ → Option K
  refuses : String → Bool

/-- An object of shared memory, as the system finds it. -/
inductive Object (K : Type)
  | posix (name : String)
  | sysv (key : K)
  deriving DecidableEq

/-- The objects of the system, and `BufferManager`. -/
structure Host (K : Type) where
  posix : Finset String
  sysv : Finset K
  manager : Manager Unit String

variable {K : Type}

def Host.Has (h : Host K) : Object K → Prop
  | .posix name => name ∈ h.posix
  | .sysv key => key ∈ h.sysv

/-- The name of a block of several. -/
def blockName (name : String) (k : ℕ) : String := name ++ "_" ++ toString k

/-- `BufferManager::Add`. -/
def Host.add (h : Host K) (name : String) : Host K :=
  { h with manager := (h.manager.add (some ((), name))).1 }

/-- `BufferManager::Search` and `Delete`. -/
def Host.forget (h : Host K) (name : String) : Host K :=
  { h with manager := h.manager.delete ((h.manager.search name).map Managed.name) }

variable [DecidableEq K]

/-- `Create` of one block, for either type: `none` for a null pointer. -/
def createBlock (os : System K) (type : ShmType) (h : Host K) (name : String) : Option (Host K) :=
  match type with
  | .posix =>
    if name ∈ h.posix ∨ os.refuses name then none
    else some (Host.add { h with posix := insert name h.posix } name)
  | .sysv =>
    match os.ftok name 1 with
    | none => none
    | some key =>
      if key ∈ h.sysv ∨ os.refuses name then none
      else some (Host.add { h with sysv := insert key h.sysv } name)

/-- `CreateMultiBlock`: no vector has a negative length. -/
def createMultiBlock (os : System K) (h : Host K) (m : Model) : Option (Host K) :=
  let count := Data.toInt m.blocks.toNat
  if count < 0 then none
  else (List.range count.toNat).foldlM
    (fun h i => createBlock os m.type h (blockName m.name i)) h

/-- `Create`. -/
def create (os : System K) (h : Host K) (m : Model) : Option (Host K) :=
  if m.blocks > 1 then (createMultiBlock os h m).map fun h => h.add m.name
  else createBlock os m.type h m.name

/-- `shared_memory_object::remove`. -/
def removeName (h : Host K) (name : String) : Host K × Bool :=
  if name ∈ h.posix then ({ h with posix := h.posix.erase name }, true) else (h, false)

/-- `shmget` of an existing segment, and `xsi_shared_memory::remove` of what it returns. -/
def removeKey (h : Host K) (key : K) : Host K × Bool :=
  if key ∈ h.sysv then ({ h with sysv := h.sysv.erase key }, true) else (h, false)

/-- `Remove` of one block, for either type. -/
def removeBlock (os : System K) (type : ShmType) (h : Host K) (name : String) : Host K × Bool :=
  let h := h.forget name
  match type with
  | .posix => removeName h name
  | .sysv =>
    match os.ftok name 0 with
    | none => (h, false)
    | some key => removeKey h key

/-- The loop over the blocks: `remove` is not called any more when `res` is true. -/
def removeNames : List String → Host K → Bool → Host K × Bool
  | [], h, res => (h, res)
  | name :: names, h, res =>
    if res then removeNames names h true
    else removeNames names (removeName h name).1 (removeName h name).2

/-- The same with keys, where a missing file ends it. -/
def removeKeys (os : System K) : List String → Host K → Bool → Host K × Bool
  | [], h, res => (h, res)
  | name :: names, h, res =>
    match os.ftok name 0 with
    | none => (h, false)
    | some key =>
      if res then removeKeys os names h true
      else removeKeys os names (removeKey h key).1 (removeKey h key).2

/-- The names of the blocks. -/
def blockNames (m : Model) : List String :=
  (List.range (Data.toInt m.blocks.toNat).toNat).map (blockName m.name)

/-- `RemoveMultiBlock`. -/
def removeMultiBlock (os : System K) (h : Host K) (m : Model) : Host K × Bool :=
  match m.type with
  | .posix => removeNames (blockNames m) h false
  | .sysv => removeKeys os (blockNames m) h false

/-- `Remove`. -/
def remove (os : System K) (h : Host K) (m : Model) : Host K × Bool :=
  if m.blocks > 1 then removeMultiBlock os (h.forget m.name) m
  else removeBlock os m.type h m.name

/-- The names under which `Create` makes blocks. -/
def names (m : Model) : List String := if m.blocks > 1 then blockNames m else [m.name]

/-- The object that is made for a name. -/
def object (os : System K) (type : ShmType) (name : String) : Option (Object K) :=
  match type with
  | .posix => some (.posix name)
  | .sysv => (os.ftok name 1).map .sysv

/-- The objects that `Create` makes for a model. -/
def made (os : System K) (m : Model) : List (Object K) := (names m).filterMap (object os m.type)

/-- Nothing is left of what `Create` made, and the answer says whether that is so. -/
def RemovesAll (os : System K) (h : Host K) (m : Model) : Prop :=
  (∀ o ∈ made os m, ¬ (remove os h m).1.Has o) ∧
    ((remove os h m).2 = true ↔ ∀ o ∈ made os m, ¬ (remove os h m).1.Has o)

/-- Keys of different projects differ. -/
def KeysDiffer (os : System K) : Prop :=
  ∀ p q k k', os.ftok p 0 = some k → os.ftok q 1 = some k' → k ≠ k'

/-! ## What is made -/

variable {os : System K} {h h' : Host K} {m : Model} {type : ShmType}

omit [DecidableEq K] in
theorem has_add (h : Host K) (name : String) (o : Object K) : (h.add name).Has o ↔ h.Has o := by
  cases o <;> rfl

/-- A block that is made adds one object, which was not there. -/
theorem createBlock_spec {name : String} (hc : createBlock os type h name = some h') :
    ∃ o, object os type name = some o ∧ ¬ h.Has o ∧ ∀ o', h'.Has o' ↔ h.Has o' ∨ o' = o := by
  cases type with
  | posix =>
    rw [createBlock] at hc
    split_ifs at hc with hname
    obtain rfl := Option.some.inj hc
    refine ⟨.posix name, rfl, fun hhas => hname (.inl hhas), fun o' => ?_⟩
    rw [has_add]
    cases o' with
    | posix n => simp [Host.Has, or_comm]
    | sysv k => simp [Host.Has]
  | sysv =>
    cases hkey : os.ftok name 1 with
    | none => simp [createBlock, hkey] at hc
    | some key =>
      simp only [createBlock, hkey] at hc
      split_ifs at hc with hname
      obtain rfl := Option.some.inj hc
      refine ⟨.sysv key, by simp [object, hkey], fun hhas => hname (.inl hhas), fun o' => ?_⟩
      rw [has_add]
      cases o' with
      | posix n => simp [Host.Has]
      | sysv k => simp [Host.Has, or_comm]

/-- Blocks that are made one after the other. -/
theorem createBlocks_spec {names : List String}
    (hc : names.foldlM (createBlock os type) h = some h') :
    (∀ o, h'.Has o ↔ h.Has o ∨ o ∈ names.filterMap (object os type)) ∧
      (∀ o ∈ names.filterMap (object os type), ¬ h.Has o) ∧
      (names.filterMap (object os type)).Nodup ∧ ∀ name ∈ names, object os type name ≠ none := by
  induction names generalizing h with
  | nil =>
    obtain rfl : h = h' := Option.some.inj hc
    simp
  | cons name names ih =>
    rw [List.foldlM_cons] at hc
    obtain ⟨h₁, hc₁, hc⟩ := Option.bind_eq_some_iff.mp hc
    obtain ⟨o, hobject, hnot, hhas₁⟩ := createBlock_spec hc₁
    obtain ⟨hhas, hfree, hnodup, hsome⟩ := ih hc
    rw [List.filterMap_cons_some hobject]
    refine ⟨fun o' => ?_, ?_, ?_, ?_⟩
    · rw [hhas, hhas₁, List.mem_cons, or_assoc]
    · intro o' ho'
      rcases List.mem_cons.mp ho' with rfl | ho'
      · exact hnot
      · exact fun hold => hfree o' ho' ((hhas₁ o').mpr (.inl hold))
    · refine List.nodup_cons.mpr ⟨fun hmem => ?_, hnodup⟩
      exact hfree o hmem ((hhas₁ o).mpr (.inr rfl))
    · intro n hn
      rcases List.mem_cons.mp hn with rfl | hn
      · rw [hobject]
        exact Option.some_ne_none o
      · exact hsome n hn

theorem create_blocks (hc : create os h m = some h') :
    ∃ h₁, (names m).foldlM (createBlock os m.type) h = some h₁ ∧ ∀ o, h'.Has o ↔ h₁.Has o := by
  unfold create at hc
  split_ifs at hc with hblocks
  · obtain ⟨h₁, hmulti, rfl⟩ := Option.map_eq_some_iff.mp hc
    refine ⟨h₁, ?_, has_add h₁ m.name⟩
    rw [names, if_pos hblocks, blockNames, List.foldlM_map]
    unfold createMultiBlock at hmulti
    dsimp only at hmulti
    split_ifs at hmulti
    exact hmulti
  · refine ⟨h', ?_, fun _ => Iff.rfl⟩
    rw [names, if_neg hblocks, List.foldlM_cons, hc]
    rfl

/-- `Create` makes these objects, none of which was there, and nothing else. -/
theorem create_spec (hc : create os h m = some h') :
    (∀ o, h'.Has o ↔ h.Has o ∨ o ∈ made os m) ∧ (made os m).Nodup ∧
      ∀ name ∈ names m, object os m.type name ≠ none := by
  obtain ⟨h₁, hblocks, hhas⟩ := create_blocks hc
  obtain ⟨hhas₁, -, hnodup, hsome⟩ := createBlocks_spec hblocks
  exact ⟨fun o => (hhas o).trans (hhas₁ o), hnodup, hsome⟩

/-- A buffer of several blocks that could be made has two at least. -/
theorem blockNames_of_create (hc : create os h m = some h') (hblocks : m.blocks > 1) :
    ∃ rest, blockNames m = blockName m.name 0 :: blockName m.name 1 :: rest := by
  have htwo : 1 < m.blocks.toNat := UInt32.lt_iff_toNat_lt.mp hblocks
  have hcount : ¬ Data.toInt m.blocks.toNat < 0 := by
    intro hneg
    rw [create, if_pos hblocks, createMultiBlock, if_pos hneg] at hc
    cases hc
  have hlt := m.blocks.toNat_lt
  obtain ⟨n, hn⟩ : ∃ n, (Data.toInt m.blocks.toNat).toNat = n + 2 := by
    refine ⟨m.blocks.toNat - 2, ?_⟩
    rw [Data.toInt, Int.bmod_def] at hcount ⊢
    split_ifs at hcount ⊢ <;> omega
  refine ⟨(List.range n).map fun k => blockName m.name (k + 2), ?_⟩
  rw [blockNames, hn, List.range_succ_eq_map, List.range_succ_eq_map]
  simp [Function.comp_def]

/-! ## What is removed -/

omit [DecidableEq K] in
theorem removeNames_true (names : List String) (h : Host K) :
    removeNames names h true = (h, true) := by
  induction names with
  | nil => rfl
  | cons name names ih => rw [removeNames, if_pos rfl, ih]

theorem removeKey_keeps {key key' : K} (hne : key ≠ key') (h : Host K) :
    key' ∈ (removeKey h key).1.sysv ↔ key' ∈ h.sysv := by
  unfold removeKey
  split_ifs
  · simp [hne.symm]
  · rfl

/-- Only segments with keys of project 0 are removed. -/
theorem removeKeys_keeps {key : K} (hkey : ∀ name, os.ftok name 0 ≠ some key) (names : List String)
    (h : Host K) (res : Bool) : key ∈ (removeKeys os names h res).1.sysv ↔ key ∈ h.sysv := by
  induction names generalizing h res with
  | nil => rfl
  | cons name names ih =>
    rw [removeKeys]
    cases hk : os.ftok name 0 with
    | none => rfl
    | some k =>
      have hne : k ≠ key := by
        rintro rfl
        exact hkey name hk
      dsimp only
      split_ifs
      · exact ih h true
      · rw [ih, removeKey_keeps hne]

theorem remove_keeps_sysv (hsysv : m.type = .sysv) {key : K}
    (hkey : ∀ name, os.ftok name 0 ≠ some key) : key ∈ (remove os h m).1.sysv ↔ key ∈ h.sysv := by
  unfold remove
  split_ifs
  · simp only [removeMultiBlock, hsysv]
    rw [removeKeys_keeps hkey]
    rfl
  · simp only [removeBlock, hsysv]
    cases hk : os.ftok m.name 0 with
    | none => rfl
    | some k =>
      have hne : k ≠ key := by
        rintro rfl
        exact hkey m.name hk
      dsimp only
      rw [removeKey_keeps hne]
      rfl

theorem remove_posix_one (hposix : m.type = .posix) (hblocks : ¬ m.blocks > 1)
    (hthere : m.name ∈ h.posix) :
    (remove os h m).1.posix = h.posix.erase m.name ∧ (remove os h m).2 = true := by
  have hforget : m.name ∈ (h.forget m.name).posix := hthere
  rw [remove, if_neg hblocks]
  simp only [removeBlock, hposix, removeName, if_pos hforget]
  exact ⟨rfl, trivial⟩

/-- Of several blocks, the first one is removed. -/
theorem remove_posix_several (hposix : m.type = .posix) (hblocks : m.blocks > 1) {n₀ : String}
    {rest : List String} (hnames : blockNames m = n₀ :: rest) (hthere : n₀ ∈ h.posix) :
    (remove os h m).1.posix = h.posix.erase n₀ := by
  have hforget : n₀ ∈ (h.forget m.name).posix := hthere
  rw [remove, if_pos hblocks, removeMultiBlock, hposix]
  simp only [hnames, removeNames, Bool.false_eq_true, if_false, removeName, if_pos hforget,
    removeNames_true]
  rfl

/-! ## What is left -/

theorem exists_name {h₀ h₁ : Host K} (hc : create os h₀ m = some h₁) : ∃ name, name ∈ names m := by
  by_cases hblocks : m.blocks > 1
  · obtain ⟨rest, hnames⟩ := blockNames_of_create hc hblocks
    exact ⟨blockName m.name 0, by simp [names, hblocks, hnames]⟩
  · exact ⟨m.name, by simp [names, hblocks]⟩

/-- Of a segment of the System V kind something is always left: its keys are not those that the
removal asks for. -/
theorem posix_of_gone (hkeys : KeysDiffer os) {h₀ h₁ : Host K} (hc : create os h₀ m = some h₁)
    (hthere : ∀ o ∈ made os m, h.Has o) (hgone : ∀ o ∈ made os m, ¬ (remove os h m).1.Has o) :
    m.type = .posix := by
  cases htype : m.type with
  | posix => rfl
  | sysv =>
    obtain ⟨name, hname⟩ := exists_name hc
    obtain ⟨o, ho⟩ := Option.ne_none_iff_exists'.mp ((create_spec hc).2.2 name hname)
    have hmade : o ∈ made os m := List.mem_filterMap.mpr ⟨name, hname, ho⟩
    simp only [object, htype] at ho
    obtain ⟨key, hkey, rfl⟩ := Option.map_eq_some_iff.mp ho
    have hother : ∀ p, os.ftok p 0 ≠ some key := fun p hp => hkeys p name key key hp hkey rfl
    exact absurd ((remove_keeps_sysv htype hother).mpr (hthere _ hmade)) (hgone _ hmade)

/-- Of a segment of several blocks the second is left. -/
theorem second_left (hposix : m.type = .posix) (hblocks : m.blocks > 1) {h₀ h₁ : Host K}
    (hc : create os h₀ m = some h₁) (hthere : ∀ o ∈ made os m, h.Has o) :
    ∃ o ∈ made os m, (remove os h m).1.Has o := by
  obtain ⟨rest, hnames⟩ := blockNames_of_create hc hblocks
  have hmade : made os m = .posix (blockName m.name 0) :: .posix (blockName m.name 1) ::
      rest.filterMap (object os m.type) := by
    simp [made, names, hblocks, hnames, hposix, object]
  have hnodup := (create_spec hc).2.1
  rw [hmade] at hnodup hthere ⊢
  have hne : blockName m.name 1 ≠ blockName m.name 0 := by
    intro heq
    rw [heq] at hnodup
    exact (List.nodup_cons.mp hnodup).1 List.mem_cons_self
  have hfirst : blockName m.name 0 ∈ h.posix := hthere (.posix _) List.mem_cons_self
  have hsecond : blockName m.name 1 ∈ h.posix :=
    hthere (.posix _) (List.mem_cons_of_mem _ List.mem_cons_self)
  refine ⟨.posix (blockName m.name 1), List.mem_cons_of_mem _ List.mem_cons_self, ?_⟩
  show blockName m.name 1 ∈ (remove os h m).1.posix
  rw [remove_posix_several hposix hblocks hnames hfirst]
  exact Finset.mem_erase.mpr ⟨hne, hsecond⟩

theorem removesAll_of_one (hposix : m.type = .posix) (hblocks : ¬ m.blocks > 1)
    (hthere : ∀ o ∈ made os m, h.Has o) : RemovesAll os h m := by
  have hmade : made os m = [.posix m.name] := by simp [made, names, hblocks, hposix, object]
  have hthere' : m.name ∈ h.posix := hthere (.posix m.name) (by simp [hmade])
  obtain ⟨hremoved, hanswer⟩ := remove_posix_one hposix hblocks hthere'
  have hgone : ∀ o ∈ made os m, ¬ (remove os h m).1.Has o := by
    intro o ho
    rw [hmade] at ho
    rw [List.mem_singleton.mp ho]
    show m.name ∉ (remove os h m).1.posix
    rw [hremoved]
    exact Finset.notMem_erase m.name h.posix
  exact ⟨hgone, iff_of_true hanswer hgone⟩

/-- All of it is removed exactly when it is of the POSIX kind, and of one block. -/
theorem removesAll_iff (hkeys : KeysDiffer os) {h₀ h₁ : Host K} (hc : create os h₀ m = some h₁)
    (hthere : ∀ o ∈ made os m, h.Has o) :
    RemovesAll os h m ↔ m.type = .posix ∧ ¬ m.blocks > 1 := by
  constructor
  · rintro ⟨hgone, -⟩
    have hposix := posix_of_gone hkeys hc hthere hgone
    refine ⟨hposix, fun hblocks => ?_⟩
    obtain ⟨o, ho, hleft⟩ := second_left hposix hblocks hc hthere
    exact hgone o ho hleft
  · rintro ⟨hposix, hblocks⟩
    exact removesAll_of_one hposix hblocks hthere

/-- Keys as the C library makes them: the project in front of what identifies the file. -/
def system : System ℕ where
  ftok path project := some (2 ^ 24 * project + path.length % 2 ^ 24)
  refuses _ := false

theorem system_keysDiffer : KeysDiffer system := by
  intro p q k k' hk hk'
  obtain rfl := Option.some.inj hk
  obtain rfl := Option.some.inj hk'
  omega

def idle : Host ℕ := ⟨∅, ∅, Manager.empty⟩

theorem removesAll_one : ∃ h, create system idle ⟨"damaris", .posix, 1⟩ = some h ∧
    RemovesAll system h ⟨"damaris", .posix, 1⟩ := by
  obtain ⟨h, hc⟩ : ∃ h, create system idle ⟨"damaris", .posix, 1⟩ = some h :=
    Option.isSome_iff_exists.mp (by decide +kernel)
  exact ⟨_, hc, (removesAll_iff system_keysDiffer hc
    fun o ho => ((create_spec hc).1 o).mpr (.inr ho)).mpr ⟨rfl, by decide⟩⟩

/-- Two blocks are made, one of them is removed, and the answer is `true`. -/
theorem second_block_left : ¬ ∀ (m : Model) (h : Host ℕ), create system idle m = some h →
    RemovesAll system h m := by
  intro hall
  obtain ⟨h, hc⟩ : ∃ h, create system idle ⟨"damaris", .posix, 2⟩ = some h :=
    Option.isSome_iff_exists.mp (by decide +kernel)
  have hleft : ∀ h ∈ create system idle ⟨"damaris", .posix, 2⟩,
      "damaris_1" ∈ (remove system h ⟨"damaris", .posix, 2⟩).1.posix := by decide +kernel
  have hgone := (hall _ h hc).1 (.posix "damaris_1") (by decide +kernel)
  exact hgone (hleft h hc)

end Damaris.SharedMemory
