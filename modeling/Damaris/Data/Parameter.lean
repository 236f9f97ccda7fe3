import Damaris.Lib.Bytes

/-!
# The storage of a parameter

A parameter keeps the bytes of its value behind a pointer. They are read and written as a value of a
C++ type, which has to fit the type in the model, or as plain bytes. The two Fortran names for the
numbers are understood there, the one for the character is not.
-/
namespace Damaris.Data
open Bytes

/-- `model::Type`. -/
inductive ModelType
  | short_ | int_ | integer | long_ | float_ | real | double_ | char_ | character
  | string | label | undefined
  deriving DecidableEq, Repr

/-- A `-1` for the size is the largest `size_t`. -/
def typeSize : ModelType → ℕ
  | .short_ => 2
  | .int_ | .integer => 4
  | .long_ => 8
  | .float_ | .real => 4
  | .double_ => 8
  | .char_ | .character => 1
  | .label | .string => 2 ^ 64 - 1
  | .undefined => 0

/-- The types that the templates are used with. -/
inductive CppType
  | short | int | long | float | double | char
  deriving DecidableEq, Repr

/-- `sizeof`. -/
def CppType.size : CppType → ℕ
  | .short => 2
  | .int => 4
  | .long => 8
  | .float => 4
  | .double => 8
  | .char => 1

def typeFromCpp : CppType → ModelType
  | .int => .int_
  | .long => .long_
  | .short => .short_
  | .double => .double_
  | .float => .float_
  | .char => .char_

/-- A value is what its bits are, for floating-point numbers too. -/
abbrev CppValue (T : CppType) := BitVec (8 * T.size)

def CppValue.bytes {T : CppType} (v : CppValue T) : List UInt8 := encode T.size v.toNat

structure ParameterModel where
  name : String
  type : ModelType
  value : String

/-- What copying memory can run into. -/
inductive MemoryFault
  | null
  | overrun
  deriving DecidableEq

/-- `none` in `value_` is the null pointer. -/
structure Parameter where
  model : ParameterModel
  name_ : String
  value_ : Option (List UInt8)

namespace Parameter

def getType (p : Parameter) : ModelType := p.model.type

/-- The type that the templates compare with. -/
def thisType (p : Parameter) : ModelType :=
  match p.getType with
  | .integer => .int_
  | .real => .float_
  | t => t

def store (bytes : List UInt8) (p : Parameter) : Parameter := { p with value_ := some bytes }

@[simp] theorem value_store (bytes : List UInt8) (p : Parameter) :
    (p.store bytes).value_ = some bytes := rfl

@[simp] theorem getType_store (bytes : List UInt8) (p : Parameter) :
    (p.store bytes).getType = p.getType := rfl

@[simp] theorem thisType_store (bytes : List UInt8) (p : Parameter) :
    (p.store bytes).thisType = p.thisType := rfl

/-- The buffer after the call; its length is the size that is given. -/
def toBuffer (b : List UInt8) (p : Parameter) : Except MemoryFault (List UInt8) :=
  match p.value_ with
  | none => .error .null
  | some v => (memcpy b v (min (typeSize p.getType) b.length)).elim (.error .overrun) .ok

/-- What was `malloc`ed has no known bytes before they are copied. The observers that are told of the
change do not belong to the storage. -/
def fromBuffer (b : List UInt8) (p : Parameter) : Except MemoryFault Parameter :=
  let s := min (typeSize p.getType) b.length
  match p.value_ with
  | none => .ok (p.store (b.take s))
  | some v => (memcpy v b s).elim (.error .overrun) fun v' => .ok (p.store v')

/-- `t` is the local variable, whatever it holds at first. -/
def getValue {T : CppType} (t : CppValue T) (p : Parameter) : Except MemoryFault (CppValue T) :=
  if typeFromCpp T ≠ p.thisType then .ok t
  else (p.toBuffer t.bytes).map fun b => BitVec.ofNat _ (decode b)

def setValue {T : CppType} (v : CppValue T) (p : Parameter) : Except MemoryFault Parameter :=
  if typeFromCpp T ≠ p.thisType then .ok p
  else p.fromBuffer v.bytes

/-- The constructor. -/
def construct {T : CppType} (mdl : ParameterModel) (v : CppValue T) :
    Except MemoryFault Parameter :=
  setValue v ⟨mdl, mdl.name, none⟩

/-- The C++ type that `New` reads the value as; `none` in the default case of its `switch`. -/
def newType : ModelType → Option CppType
  | .short_ => some .short
  | .int_ => some .int
  | .integer => some .int
  | .long_ => some .long
  | .float_ => some .float
  | .real => some .float
  | .double_ => some .double
  | .char_ => some .char
  | .character => some .char
  | .string | .label | .undefined => none

-- `boost::lexical_cast`, with `none` for a `bad_lexical_cast`
variable (lexicalCast : (T : CppType) → String → Option (CppValue T))

/-- `New`; `none` is the null pointer. -/
def new (mdl : ParameterModel) : Except MemoryFault (Option Parameter) :=
  match newType mdl.type with
  | none => .ok none
  | some T =>
    match lexicalCast T mdl.value with
    | none => .ok none
    | some v => (construct mdl v).map some

end Parameter

/-- The calls that write to a parameter. -/
inductive ParameterCall
  | setValue (T : CppType) (v : CppValue T)
  | fromBuffer (b : List UInt8)

namespace Parameter

def call (p : Parameter) : ParameterCall → Except MemoryFault Parameter
  | .setValue _ v => p.setValue v
  | .fromBuffer b => p.fromBuffer b

def run (p : Parameter) (calls : List ParameterCall) : Except MemoryFault Parameter :=
  calls.foldlM call p

/-- A value that is set comes back, and plain bytes replace the first of those that are stored. -/
structure Keeps (T : CppType) (p : Parameter) : Prop where
  getValue_setValue : ∀ v t : CppValue T, ∃ p', p.setValue v = .ok p' ∧ p'.getValue t = .ok v
  fromBuffer : ∀ b : List UInt8, ∃ p' stored stored', p.fromBuffer b = .ok p' ∧
    p.value_ = some stored ∧ p'.value_ = some stored' ∧
    stored'.take (min b.length (typeSize p.getType)) =
      b.take (min b.length (typeSize p.getType)) ∧
    stored'.drop (min b.length (typeSize p.getType)) =
      stored.drop (min b.length (typeSize p.getType))

/-- The new parameter holds its value, and keeps doing so however it is written. -/
def RoundTrip (lexicalCast : (T : CppType) → String → Option (CppValue T)) (mdl : ParameterModel)
    {T : CppType} (v : CppValue T) : Prop :=
  ∃ p, new lexicalCast mdl = .ok (some p) ∧ p.value_.isSome ∧
    (∀ b : List UInt8, b.length = typeSize mdl.type → p.toBuffer b = .ok v.bytes) ∧
    ∀ calls, ∃ p', p.run calls = .ok p' ∧ p'.Keeps T

variable {T : CppType} {p p' : Parameter} {v t : CppValue T} {b stored : List UInt8}

@[simp] theorem length_bytes (v : CppValue T) : v.bytes.length = T.size := length_encode ..

theorem ofNat_decode_bytes (v : CppValue T) : BitVec.ofNat _ (decode v.bytes) = v :=
  ofNat_decode_encode v

/-! ## The types -/

/-- Of what `New` accepts, only the Fortran character is not read as the type it is compared with. -/
theorem typeFromCpp_eq_iff (h : newType p.getType = some T) :
    typeFromCpp T = p.thisType ↔ p.getType ≠ .character := by
  unfold thisType
  generalize p.getType = type at h ⊢
  cases type <;> cases h <;> decide

theorem typeSize_eq {type : ModelType} (h : newType type = some T) : typeSize type = T.size := by
  cases type <;> cases h <;> rfl

/-! ## The bytes -/

/-- Enough memory for the type. -/
def Sized (p : Parameter) : Prop :=
  ∃ stored, p.value_ = some stored ∧ stored.length = typeSize p.getType

theorem toBuffer_eq (hp : p.value_ = some stored) (hlen : stored.length = typeSize p.getType)
    (hb : b.length = typeSize p.getType) : p.toBuffer b = .ok stored := by
  have hcopy : memcpy b stored b.length = some stored := memcpy_all (hb.trans hlen.symm)
  simp [toBuffer, hp, ← hb, hcopy]

theorem fromBuffer_eq (hp : p.value_ = some stored) (hlen : stored.length = typeSize p.getType)
    (b : List UInt8) : p.fromBuffer b = .ok (p.store
      (b.take (min b.length (typeSize p.getType)) ++
        stored.drop (min b.length (typeSize p.getType)))) := by
  have hcopy : memcpy stored b (min b.length (typeSize p.getType)) = _ :=
    memcpy_of_le (hlen ▸ Nat.min_le_right ..) (Nat.min_le_left ..)
  simp [fromBuffer, hp, Nat.min_comm (typeSize p.getType), hcopy]

/-- A buffer of the size of the type replaces everything. -/
theorem fromBuffer_all (hp : p.value_ = some stored) (hlen : stored.length = typeSize p.getType)
    (hb : b.length = typeSize p.getType) : p.fromBuffer b = .ok (p.store b) := by
  have hdrop : stored.drop b.length = [] := List.drop_eq_nil_of_le (hlen.trans hb.symm).le
  rw [fromBuffer_eq hp hlen, ← hb, min_self, List.take_length, hdrop, List.append_nil]

theorem fromBuffer_sized (h : p.Sized) (b : List UInt8) :
    ∃ p', p.fromBuffer b = .ok p' ∧ p'.Sized ∧ p'.model = p.model := by
  obtain ⟨stored, hp, hlen⟩ := h
  refine ⟨_, fromBuffer_eq hp hlen b, ⟨_, rfl, ?_⟩, rfl⟩
  rw [List.length_append, List.length_take, List.length_drop, hlen, getType_store]
  omega

theorem setValue_sized (h : p.Sized) (v : CppValue T) :
    ∃ p', p.setValue v = .ok p' ∧ p'.Sized ∧ p'.model = p.model := by
  unfold setValue
  split
  · exact ⟨p, rfl, h, rfl⟩
  · exact fromBuffer_sized h v.bytes

theorem run_sized (h : p.Sized) (calls : List ParameterCall) :
    ∃ p', p.run calls = .ok p' ∧ p'.Sized ∧ p'.model = p.model := by
  induction calls generalizing p with
  | nil => exact ⟨p, rfl, h, rfl⟩
  | cons c calls ih =>
    obtain ⟨p₁, hcall, hsized, hmodel⟩ :
        ∃ p₁, p.call c = .ok p₁ ∧ p₁.Sized ∧ p₁.model = p.model := by
      cases c with
      | setValue T v => exact setValue_sized h v
      | fromBuffer b => exact fromBuffer_sized h b
    obtain ⟨p', hrun, hsized', hmodel'⟩ := ih hsized
    refine ⟨p', ?_, hsized', hmodel'.trans hmodel⟩
    rw [run, List.foldlM_cons, hcall]
    exact hrun

theorem Sized.keeps (h : p.Sized) (hT : newType p.getType = some T)
    (hne : p.getType ≠ .character) : p.Keeps T := by
  obtain ⟨stored, hp, hlen⟩ := h
  constructor
  · intro v t
    have hfit : typeFromCpp T = p.thisType := (typeFromCpp_eq_iff hT).mpr hne
    have hsize (w : CppValue T) : w.bytes.length = typeSize p.getType := by
      rw [length_bytes, typeSize_eq hT]
    have hget : (p.store v.bytes).toBuffer t.bytes = .ok v.bytes :=
      toBuffer_eq rfl (hsize v) (hsize t)
    refine ⟨p.store v.bytes, ?_, ?_⟩
    · rw [setValue, if_neg (not_not_intro hfit), fromBuffer_all hp hlen (hsize v)]
    · rw [getValue, thisType_store, if_neg (not_not_intro hfit), hget]
      exact congrArg Except.ok (ofNat_decode_bytes v)
  · intro b
    refine ⟨_, stored, _, fromBuffer_eq hp hlen b, hp, rfl, ?_, ?_⟩
    · exact List.take_left' (by simp)
    · exact List.drop_left' (by simp)

/-! ## New parameters -/

section New

variable {lexicalCast : (T : CppType) → String → Option (CppValue T)} {mdl : ParameterModel}

/-- The value of a Fortran character is refused in the constructor. -/
theorem new_eq (hT : newType mdl.type = some T) (hv : lexicalCast T mdl.value = some v) :
    new lexicalCast mdl = .ok (some ⟨mdl, mdl.name,
      if mdl.type = .character then none else some v.bytes⟩) := by
  have hfit := typeFromCpp_eq_iff (p := ⟨mdl, mdl.name, none⟩) hT
  have hsize : v.bytes.length = typeSize mdl.type := by rw [length_bytes, typeSize_eq hT]
  rw [new, hT]
  simp only [hv, construct, setValue]
  by_cases hne : mdl.type = .character
  · rw [if_pos (mt hfit.mp (not_not_intro hne)), if_pos hne]
    rfl
  · have htake : v.bytes.take (min (typeSize mdl.type) v.bytes.length) = v.bytes := by
      rw [hsize, min_self, ← hsize, List.take_length]
    rw [if_neg (not_not_intro (hfit.mpr hne)), if_neg hne]
    simp only [fromBuffer, getType, htake]
    rfl

/-- The storage does what it says for every type that `New` accepts but the Fortran character. -/
theorem roundTrip_iff_ne_character (hT : newType mdl.type = some T)
    (hv : lexicalCast T mdl.value = some v) :
    RoundTrip lexicalCast mdl v ↔ mdl.type ≠ .character := by
  have hnew := new_eq hT hv
  constructor
  · rintro ⟨p, hp, hsome, -⟩ hchar
    rw [hnew, if_pos hchar] at hp
    cases hp
    cases hsome
  · intro hne
    rw [if_neg hne] at hnew
    have hsize : v.bytes.length = typeSize mdl.type := by rw [length_bytes, typeSize_eq hT]
    refine ⟨⟨mdl, mdl.name, some v.bytes⟩, hnew, rfl, fun b hb => ?_, fun calls => ?_⟩
    · exact toBuffer_eq rfl hsize hb
    · obtain ⟨p', hrun, hsized, hmodel⟩ :=
        run_sized (p := ⟨mdl, mdl.name, some v.bytes⟩) ⟨v.bytes, rfl, hsize⟩ calls
      have htype : p'.getType = mdl.type := congrArg ParameterModel.type hmodel
      exact ⟨p', hrun, hsized.keeps (htype ▸ hT) (htype ▸ hne)⟩

/-- A cast that takes one character. -/
def oneChar : (T : CppType) → String → Option (CppValue T)
  | .char, s =>
    match s.toList with
    | [c] => some (BitVec.ofNat _ c.toNat)
    | _ => none
  | _, _ => none

theorem roundTrip_char : RoundTrip oneChar ⟨"c", .char_, "a"⟩ (97 : CppValue .char) :=
  (roundTrip_iff_ne_character rfl rfl).mpr (by decide)

theorem not_roundTrip_character :
    newType .character = some .char ∧ oneChar .char "a" = some 97 ∧
      ¬ RoundTrip oneChar ⟨"c", .character, "a"⟩ (97 : CppValue .char) := by
  refine ⟨rfl, rfl, ?_⟩
  rintro ⟨p, hp, hsome, -⟩
  cases hp
  cases hsome

end New

end Parameter

end Damaris.Data
