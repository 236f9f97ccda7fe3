import Damaris.Data.Parameter
import Damaris.Lib.Numeral
import Damaris.Python.DaskLayout
import Damaris.Scripts.PyAction

/-!
# What a script finds

At the end of an iteration `PassDataToPython` makes a dictionary of the variables of a script. A
variable's blocks become arrays of NumPy, under keys made of a block's source and id, and are listed
with their offsets and with the name under which the server will publish the arrays.
-/
namespace Damaris

open Data Numeral DaskLayout

namespace PyAction

variable {D : Type}

/-- A variable that is selected for the script. -/
structure ScriptVariable (D : Type) where
  name : String
  type : ModelType
  var : Variable D

/-- What NumPy is told about the memory of a block. -/
structure NdArray (D : Type) where
  dtype : CppType
  shape : List ℤ
  strides : List ℕ
  data : Option D
  deriving DecidableEq

/-- `GetNumPyType`, and which instance `ReturnNpNdarray` calls; other types print an error, and the
functions end without a value. -/
def getNumPyType : ModelType → Option CppType
  | .int_ | .integer => some .int
  | .float_ | .real => some .float
  | .double_ => some .double
  | .long_ => some .long
  | .short_ => some .short
  | .char_ | .character => some .char
  | .label | .string | .undefined => none

def getTypeString : ModelType → String
  | .int_ | .integer => "_int"
  | .float_ | .real => "_float"
  | .double_ => "_double"
  | .long_ => "_longint"
  | .short_ => "_short"
  | .char_ | .character => "_char"
  | .label | .string | .undefined => ""

/-- `ReturnNpNdarray` on the extents and the memory of a block. -/
def returnNpNdarray (type : ModelType) (blockDimension : ℕ) (b : Block D) : Option (NdArray D) :=
  (getNumPyType type).bind fun T =>
    (returnNpNdarrayTyped T.size blockDimension (localDims b blockDimension)).map fun r =>
      ⟨T, r.1, r.2, b.dataspace⟩

/-! ## Names -/

theorem plain_of_mem_text {i : ℤ} {c : Char} (h : c ∈ text i) : c ∉ "'\\\n".toList := by
  have hnone : ("'\\\n".toList.all fun c => !isNumeric c) = true := by decide
  intro hc
  have hnot := List.all_eq_true.mp hnone c hc
  rw [isNumeric_of_mem h] at hnot
  cases hnot

/-- `S_I_dask_pub`. -/
def daskPub (processId iteration : ℤ) (magic : ℕ) : PlainString where
  chars := 'S' :: text processId ++ '_' :: 'I' :: text iteration ++ '_' :: text magic
  plain := by
    intro c hc
    simp only [List.cons_append, List.append_assoc, List.mem_cons, List.mem_append] at hc
    rcases hc with rfl | hc | rfl | rfl | hc | rfl | hc
    · decide
    · exact plain_of_mem_text hc
    · decide
    · decide
    · exact plain_of_mem_text hc
    · decide
    · exact plain_of_mem_text hc

/-- `P_B_key`. -/
def blockKey (b : Block D) : PlainString where
  chars := 'P' :: text b.source ++ '_' :: 'B' :: text b.id
  plain := by
    intro c hc
    simp only [List.cons_append, List.mem_cons, List.mem_append] at hc
    rcases hc with rfl | hc | rfl | rfl | hc
    · decide
    · exact plain_of_mem_text hc
    · decide
    · decide
    · exact plain_of_mem_text hc

/-- A name stands for one server and one iteration. -/
theorem daskPub_inj {processId processId' iteration iteration' : ℤ} {magic magic' : ℕ}
    (h : (daskPub processId iteration magic).chars = (daskPub processId' iteration' magic').chars) :
    processId = processId' ∧ iteration = iteration' := by
  obtain ⟨hfront, -, -⟩ := append_text_inj (c := '_') (d := '_') rfl rfl h
  have hsplit : ∀ i j : ℤ, 'S' :: text i ++ '_' :: 'I' :: text j =
      ('S' :: text i ++ ['_']) ++ 'I' :: text j := by simp
  rw [hsplit, hsplit] at hfront
  obtain ⟨hserver, -, hiteration⟩ := append_text_inj rfl rfl hfront
  have htext := (List.cons.inj (List.append_cancel_right hserver)).2
  exact ⟨text_injective htext, hiteration⟩

theorem blockKey_inj {b b' : Block D} (h : (blockKey b).chars = (blockKey b').chars) :
    b.source = b'.source ∧ b.id = b'.id := by
  have hsplit : ∀ b : Block D, (blockKey b).chars =
      ('P' :: text b.source ++ ['_']) ++ 'B' :: text b.id := by simp [blockKey]
  rw [hsplit, hsplit] at h
  obtain ⟨hsource, -, hid⟩ := append_text_inj rfl rfl h
  exact ⟨text_injective (List.cons.inj (List.append_cancel_right hsource)).2, hid⟩

/-! ## The dictionary -/

/-- `variable_data`. -/
abbrev NumpyData (D : Type) := List Char → Option (NdArray D)

/-- `damaris_variable_dict`. -/
structure VariableDict (D : Type) where
  numpyData : NumpyData D
  sortList : List Item
  typeString : String

/-- What `iteration_dict` has under a key. -/
inductive Entry (D : Type)
  | iteration (iteration : ℤ)
  | dict (dict : VariableDict D)

abbrev IterationDict (D : Type) := String → Option (Entry D)

/-- `block_offset`. -/
def blockOffset (blockDimension : ℕ) (b : Block D) : List ℤ :=
  (List.range blockDimension).map b.startIndex

/-- One round of the loop over the blocks. -/
def passBlock (daskPub : PlainString) (type : ModelType) (blockDimension : ℕ)
    (acc : NumpyData D × List Item) (b : Block D) : Option (NumpyData D × List Item) :=
  (returnNpNdarray type blockDimension b).map fun array =>
    (Function.update acc.1 (blockKey b).chars (some array),
      acc.2 ++ [⟨daskPub, blockKey b, blockOffset blockDimension b⟩])

/-- The dictionary of one variable. -/
def passVariable (daskPub : PlainString) (iteration : ℤ) (v : ScriptVariable D) :
    Option (VariableDict D) :=
  ((v.var.blocksByIteration iteration).foldlM
    (passBlock daskPub v.type v.var.layout.dimensions) (fun _ => none, [])).map fun acc =>
      ⟨acc.1, acc.2, getTypeString v.type⟩

/-- One round of the loop over the variables. -/
def passRound (daskPub : PlainString) (iteration : ℤ) (dict : IterationDict D)
    (v : ScriptVariable D) : Option (IterationDict D) :=
  if v.var.writtenIn iteration then
    (passVariable daskPub iteration v).map fun d => Function.update dict v.name (some (.dict d))
  else some dict

/-- `PassDataToPython` up to where the script runs: `iteration_dict`, or `none` where the behaviour is
undefined. -/
def passDataToPython (processId iteration : ℤ) (magic : ℕ) (vars : List (ScriptVariable D)) :
    Option (IterationDict D) :=
  vars.foldlM (passRound (daskPub processId iteration magic) iteration)
    (Function.update (fun _ => none) "iteration" (some (.iteration iteration)))

/-! ## What is in it -/

/-- Blocks, if there are any, are of a numeric type and in as many dimensions as are written out. -/
def Passable (iteration : ℤ) (v : ScriptVariable D) : Prop :=
  v.var.blocksByIteration iteration ≠ [] →
    (getNumPyType v.type).isSome ∧ v.var.layout.dimensions ∈ [1, 3, 4, 5]

theorem returnNpNdarray_isSome {type : ModelType} {dim : ℕ} (htype : (getNumPyType type).isSome)
    (hdim : dim ∈ [1, 3, 4, 5]) (b : Block D) : (returnNpNdarray type dim b).isSome := by
  obtain ⟨T, hT⟩ := Option.isSome_iff_exists.mp htype
  have hentry : ∀ i, i < dim → ∃ x, entry (localDims b dim) i = some x := by
    intro i hi
    have hlen : i < (localDims b dim).length := by simpa [localDims] using hi
    exact ⟨_, by rw [entry, List.getElem?_eq_getElem hlen, Option.map_some]⟩
  rw [returnNpNdarray, hT, Option.bind_some, Option.isSome_map]
  simp only [List.mem_cons, List.not_mem_nil, or_false] at hdim
  rcases hdim with rfl | rfl | rfl | rfl
  · obtain ⟨x0, h0⟩ := hentry 0 (by decide)
    simp [returnNpNdarrayTyped, h0]
  · obtain ⟨x0, h0⟩ := hentry 0 (by decide)
    obtain ⟨x1, h1⟩ := hentry 1 (by decide)
    obtain ⟨x2, h2⟩ := hentry 2 (by decide)
    simp [returnNpNdarrayTyped, h0, h1, h2]
  · obtain ⟨x0, h0⟩ := hentry 0 (by decide)
    obtain ⟨x1, h1⟩ := hentry 1 (by decide)
    obtain ⟨x2, h2⟩ := hentry 2 (by decide)
    obtain ⟨x3, h3⟩ := hentry 3 (by decide)
    simp [returnNpNdarrayTyped, h0, h1, h2, h3]
  · obtain ⟨x0, h0⟩ := hentry 0 (by decide)
    obtain ⟨x1, h1⟩ := hentry 1 (by decide)
    obtain ⟨x2, h2⟩ := hentry 2 (by decide)
    obtain ⟨x3, h3⟩ := hentry 3 (by decide)
    obtain ⟨x4, h4⟩ := hentry 4 (by decide)
    simp [returnNpNdarrayTyped, h0, h1, h2, h3, h4]

theorem foldlM_passBlock {pub : PlainString} {type : ModelType} {dim : ℕ} {bs : List (Block D)}
    (hpass : ∀ b ∈ bs, (returnNpNdarray type dim b).isSome)
    (hkeys : (bs.map fun b => (blockKey b).chars).Nodup) (acc : NumpyData D × List Item) :
    ∃ data, bs.foldlM (passBlock pub type dim) acc =
        some (data, acc.2 ++ bs.map fun b => ⟨pub, blockKey b, blockOffset dim b⟩) ∧
      (∀ b ∈ bs, data (blockKey b).chars = returnNpNdarray type dim b) ∧
        ∀ k, (∀ b ∈ bs, (blockKey b).chars ≠ k) → data k = acc.1 k := by
  induction bs generalizing acc with
  | nil => exact ⟨acc.1, by simp, by simp, fun _ _ => rfl⟩
  | cons b bs ih =>
    obtain ⟨hb, hpass⟩ := List.forall_mem_cons.mp hpass
    obtain ⟨hnot, hkeys⟩ := List.nodup_cons.mp hkeys
    obtain ⟨array, harray⟩ := Option.isSome_iff_exists.mp hb
    have hstep : passBlock pub type dim acc b =
        some (Function.update acc.1 (blockKey b).chars (some array),
          acc.2 ++ [⟨pub, blockKey b, blockOffset dim b⟩]) := by
      rw [passBlock, harray, Option.map_some]
    obtain ⟨data, hdata, hin, hout⟩ := ih hpass hkeys _
    refine ⟨data, ?_, ?_, ?_⟩
    · rw [List.foldlM_cons, hstep, Option.bind_eq_bind, Option.bind_some, hdata]
      simp
    · intro c hc
      rcases List.mem_cons.mp hc with rfl | hc
      · rw [hout _ fun c' hc' heq => hnot (List.mem_map.mpr ⟨c', hc', heq⟩), harray]
        exact Function.update_self ..
      · exact hin c hc
    · intro k hk
      obtain ⟨hbk, hk⟩ := List.forall_mem_cons.mp hk
      rw [hout k hk]
      exact Function.update_of_ne hbk.symm ..

/-- Blocks of one variable and iteration differ in their sources or ids, and so in their keys. -/
theorem nodup_blockKey (v : Variable D) (iteration : ℤ) :
    ((v.blocksByIteration iteration).map fun b => (blockKey b).chars).Nodup := by
  have hnodup : (v.blocks.elems.filter fun b => b.iteration = iteration).Pairwise
      fun b b' => b.key ≠ b'.key :=
    (List.pairwise_map.mp v.blocks.nodup).sublist List.filter_sublist
  rw [List.Nodup, List.pairwise_map]
  refine hnodup.imp_of_mem fun {b b'} hb hb' hne heq => ?_
  obtain ⟨hsource, hid⟩ := blockKey_inj heq
  have hit := of_decide_eq_true (List.mem_filter.mp hb).2
  have hit' := of_decide_eq_true (List.mem_filter.mp hb').2
  exact hne (by rw [Block.key, Block.key, hsource, hid, hit, hit'])

/-- The arrays of all blocks, and the list of them. -/
theorem passVariable_eq (pub : PlainString) {iteration : ℤ} {v : ScriptVariable D}
    (h : Passable iteration v) : ∃ d, passVariable pub iteration v = some d ∧
      d.sortList = (v.var.blocksByIteration iteration).map (fun b =>
        ⟨pub, blockKey b, blockOffset v.var.layout.dimensions b⟩) ∧
      ∀ b ∈ v.var.blocksByIteration iteration, d.numpyData (blockKey b).chars =
        returnNpNdarray v.type v.var.layout.dimensions b := by
  have hpass : ∀ b ∈ v.var.blocksByIteration iteration,
      (returnNpNdarray v.type v.var.layout.dimensions b).isSome := by
    intro b hb
    obtain ⟨htype, hdim⟩ := h (List.ne_nil_of_mem hb)
    exact returnNpNdarray_isSome htype hdim b
  obtain ⟨data, hdata, hin, -⟩ :=
    foldlM_passBlock hpass (nodup_blockKey v.var iteration) (fun _ => none, [])
  refine ⟨⟨data, _, _⟩, by rw [passVariable, hdata, Option.map_some], ?_, hin⟩
  rw [List.nil_append]

/-- The variable that a name stands for: the last one that is there in the iteration. -/
def lookUp (vars : List (ScriptVariable D)) (iteration : ℤ) (name : String) :
    Option (ScriptVariable D) :=
  vars.reverse.find? fun v => decide (v.name = name) && v.var.writtenIn iteration

theorem writtenIn_of_lookUp {vars : List (ScriptVariable D)} {iteration : ℤ} {name : String}
    {v : ScriptVariable D} (h : lookUp vars iteration name = some v) :
    v ∈ vars ∧ v.var.writtenIn iteration := by
  have hfound : (decide (v.name = name) && v.var.writtenIn iteration) = true := (List.find?_some h :)
  exact ⟨List.mem_reverse.mp (List.mem_of_find?_eq_some h), (Bool.and_eq_true_iff.mp hfound).2⟩

/-- The dictionary has an entry for each variable that is there, and the number of the iteration. -/
theorem passDataToPython_eq (processId : ℤ) (magic : ℕ) {iteration : ℤ}
    {vars : List (ScriptVariable D)}
    (hpass : ∀ v ∈ vars, v.var.writtenIn iteration → Passable iteration v)
    (hname : ∀ v ∈ vars, v.name ≠ "iteration") :
    ∃ dict, passDataToPython processId iteration magic vars = some dict ∧
      dict "iteration" = some (.iteration iteration) ∧
      ∀ name, name ≠ "iteration" → dict name = (lookUp vars iteration name).bind fun v =>
        (passVariable (daskPub processId iteration magic) iteration v).map .dict := by
  induction vars using List.reverseRecOn with
  | nil =>
    refine ⟨_, rfl, Function.update_self .., fun name hne => ?_⟩
    rw [Function.update_of_ne hne]
    rfl
  | append_singleton vars v ih =>
    obtain ⟨dict, hdict, hiteration, hvars⟩ := ih (fun w hw => hpass w (List.mem_append_left _ hw))
      fun w hw => hname w (List.mem_append_left _ hw)
    have hv : v ∈ vars ++ [v] := by simp
    have hround : passDataToPython processId iteration magic (vars ++ [v]) =
        passRound (daskPub processId iteration magic) iteration dict v := by
      rw [passDataToPython, List.foldlM_append]
      rw [passDataToPython] at hdict
      rw [hdict]
      simp
    have hlook : ∀ name, lookUp (vars ++ [v]) iteration name =
        if v.name = name ∧ v.var.writtenIn iteration then some v else lookUp vars iteration name := by
      intro name
      rw [lookUp, List.reverse_append, List.reverse_singleton, List.singleton_append, List.find?_cons]
      by_cases hb : v.name = name ∧ v.var.writtenIn iteration
      · simp [hb]
      · rw [if_neg hb]
        have hfalse : (decide (v.name = name) && v.var.writtenIn iteration) = false := by
          simpa using hb
        rw [hfalse, lookUp]
    rw [hround, passRound]
    cases hw : v.var.writtenIn iteration with
    | false =>
      refine ⟨dict, by simp, hiteration, fun name hne => ?_⟩
      rw [hlook, if_neg (by simp [hw]), hvars name hne]
    | true =>
      obtain ⟨d, hd, -, -⟩ := passVariable_eq (daskPub processId iteration magic)
        (hpass v hv hw)
      refine ⟨Function.update dict v.name (some (.dict d)), by simp [hd], ?_, fun name hne => ?_⟩
      · rw [Function.update_of_ne (hname v hv).symm, hiteration]
      · rw [hlook]
        by_cases hn : v.name = name
        · subst hn
          rw [Function.update_self, if_pos ⟨rfl, hw⟩, Option.bind_some, hd, Option.map_some]
        · rw [Function.update_of_ne (Ne.symm hn), if_neg (fun h => hn h.1), hvars name hne]

end PyAction
end Damaris
