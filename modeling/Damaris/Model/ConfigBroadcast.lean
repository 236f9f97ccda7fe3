import Mathlib.Data.List.TakeWhile
import Damaris.Data.Block
import Damaris.Lib.BcastProgram

/-!
# Broadcasting the configuration

Rank 0 opens the configuration file and broadcasts its length and then its bytes. `BcastXML` makes
the configuration from them at once, `ReadAndBroadcastXMLFromFile` keeps them as a string.
-/
namespace Damaris.Model
open Data BcastProgram

/-- An `MPI_Bcast` by its datatype and count. -/
inductive Call
  | int
  | bytes (count : ℤ)
  deriving DecidableEq

inductive Payload
  | int (i : ℤ)
  | bytes (b : List UInt8)

/-- What a rank ends with. A failure is a null pointer or `false`; a configuration string is on its
way out of bounds where it is undefined. -/
inductive Report
  | failure
  | exit
  | throws
  | success (config : List UInt8)
  | undefined
  deriving DecidableEq

abbrev Rank := Program Call Payload Report

/-- A success is one with exactly the bytes of the file. -/
def Report.Good (file : Option (List UInt8)) : Report → Prop
  | success config => file = some config
  | undefined => False
  | failure | exit | throws => True

/-- The file's length in an `int`. -/
def length (bytes : List UInt8) : ℤ := toInt bytes.length

/-- What `read` puts into a buffer of the length. -/
def contents (bytes : List UInt8) : List UInt8 := bytes.take (length bytes).toNat

/-- The buffer, an exception where its length is negative, and the broadcast of its bytes, which
are those of the root. -/
def bcastBuffer (length : ℤ) (buffer : List UInt8) (report : List UInt8 → Report) : Rank :=
  if length < 0 then .done .throws
  else .bcast (.bytes length) (.bytes buffer) fun
    | .bytes buffer => .done (report buffer)
    | .int _ => .done .undefined

section BcastXML

-- Whether the bytes are a configuration.
variable (parses : List UInt8 → Bool)

/-- The end of `BcastXML`, which exits where the parser throws. -/
def simulation (content : List UInt8) : Report :=
  if parses content then .success content else .exit

/-- `BcastXML` on rank 0. -/
def bcastXMLRoot : Option (List UInt8) → Rank
  | none => .done .failure
  | some bytes => .bcast .int (.int (length bytes)) fun _ =>
      bcastBuffer (length bytes) (contents bytes) (simulation parses)

/-- `BcastXML` on the other ranks. -/
def bcastXMLRank : Rank :=
  .bcast .int (.int 0) fun
    | .int length => bcastBuffer length [] (simulation parses)
    | .bytes _ => .done .undefined

end BcastXML

/-- `assign` of a `char*`, which reads up to the first null byte, in the buffer or past it. -/
def assign (buffer : List UInt8) : Report :=
  if 0 ∈ buffer then .success (buffer.takeWhile (· ≠ 0)) else .undefined

/-- `ReadAndBroadcastXMLFromFile` on rank 0. -/
def readAndBroadcastRoot : Option (List UInt8) → Rank
  | none => .bcast .int (.int 0) fun _ => .done .failure
  | some bytes => .bcast .int (.int (length bytes)) fun _ =>
      bcastBuffer (length bytes) (contents bytes) assign

/-- `ReadAndBroadcastXMLFromFile` on the other ranks. -/
def readAndBroadcastRank : Rank :=
  .bcast .int (.int 0) fun
    | .int length => if 0 < length then bcastBuffer length [] assign else .done .failure
    | .bytes _ => .done .undefined

/-! ## The buffer -/

variable {parses : List UInt8 → Bool} {bytes buffer : List UInt8} {l : ℤ}
  {report : List UInt8 → Report}

theorem contents_eq_iff (h : 0 ≤ length bytes) : contents bytes = bytes ↔ bytes.length < 2 ^ 31 := by
  rw [contents, List.take_eq_self_iff]
  rw [length, toInt, Int.bmod_def] at h ⊢
  omega

/-- The length is the one of the root everywhere. -/
theorem agrees_int {own : ℤ} {k k' : Payload → Rank} :
    Agrees (.bcast .int (.int l) k) (.bcast .int (.int own) k') ↔
      Agrees (k (.int l)) (k' (.int l)) :=
  ⟨fun h => h.2, fun h => ⟨rfl, h⟩⟩

theorem bcastBuffer_agrees (l : ℤ) (buffer : List UInt8) (report : List UInt8 → Report) :
    Agrees (bcastBuffer l buffer report) (bcastBuffer l [] report) := by
  rw [bcastBuffer, bcastBuffer]
  split_ifs
  · rfl
  · exact ⟨rfl, rfl⟩

theorem bcastBuffer_result (h : 0 ≤ l) : (bcastBuffer l buffer report).result = report buffer := by
  rw [bcastBuffer, if_neg (not_lt.mpr h)]
  rfl

theorem bcastBuffer_of_neg (h : l < 0) : bcastBuffer l buffer report = .done .throws :=
  if_pos h

/-! ## `BcastXML` -/

theorem simulation_good_iff {content : List UInt8} :
    (simulation parses content).Good (some bytes) ↔ (parses content → content = bytes) := by
  rw [simulation]
  cases parses content with
  | true => exact ⟨fun h _ => (Option.some.inj h).symm, fun h => congrArg some (h rfl).symm⟩
  | false => exact iff_of_true trivial (fun h => by cases h)

theorem bcastXML_good_iff : (bcastXMLRoot parses (some bytes)).result.Good (some bytes) ↔
    (0 ≤ length bytes → parses (contents bytes) → bytes.length < 2 ^ 31) := by
  rw [bcastXMLRoot, Program.result]
  obtain h | h := lt_or_ge (length bytes) 0
  · rw [bcastBuffer_of_neg h]
    exact iff_of_true trivial (fun hge => absurd h (not_lt.mpr hge))
  · rw [bcastBuffer_result h, simulation_good_iff, contents_eq_iff h]
    exact ⟨fun hgood _ => hgood, fun hgood => hgood h⟩

theorem bcastXML_agrees (parses : List UInt8 → Bool) (bytes : List UInt8) :
    Agrees (bcastXMLRoot parses (some bytes)) (bcastXMLRank parses) := by
  rw [bcastXMLRoot, bcastXMLRank, agrees_int]
  generalize length bytes = l
  exact bcastBuffer_agrees _ _ _

/-! ## `ReadAndBroadcastXMLFromFile` -/

/-- A string that ends at a null byte of the file lacks that byte. -/
theorem assign_not_good (bytes : List UInt8) :
    ¬ (assign (contents bytes)).Good (some bytes) := by
  rw [assign]
  split_ifs with h
  · intro hgood
    have heq : bytes = (contents bytes).takeWhile (· ≠ 0) := Option.some.inj hgood
    have hmem : (0 : UInt8) ∈ bytes := List.mem_of_mem_take h
    rw [heq] at hmem
    have hne := List.mem_takeWhile_imp hmem
    rw [decide_eq_true_iff] at hne
    exact hne rfl
  · exact id

/-- A negative length is an exception on the root and a failure on the others. -/
theorem readAndBroadcast_not_agrees (h : length bytes < 0) :
    ¬ Agrees (readAndBroadcastRoot (some bytes)) readAndBroadcastRank := by
  rw [readAndBroadcastRoot, readAndBroadcastRank, agrees_int]
  dsimp only
  rw [bcastBuffer_of_neg h, if_neg (not_lt.mpr h.le)]
  intro hagrees
  cases hagrees

theorem readAndBroadcast_good_iff :
    (readAndBroadcastRoot (some bytes)).result.Good (some bytes) ↔ length bytes < 0 := by
  rw [readAndBroadcastRoot, Program.result]
  obtain h | h := lt_or_ge (length bytes) 0
  · rw [bcastBuffer_of_neg h]
    exact iff_of_true trivial h
  · rw [bcastBuffer_result h]
    exact iff_of_false (assign_not_good bytes) (not_lt.mpr h)

/-- `BcastXML` settles exactly if the file opens, where there is another rank than the root, and
a configuration is not one of the first bytes of a longer file, whose length does not fit into an
`int`. `ReadAndBroadcastXMLFromFile` settles exactly if the file does not open, or there is no
other rank and the `int` is negative. -/
theorem broadcasts_settle_iff (parses : List UInt8 → Bool) (file : Option (List UInt8))
    (others : ℕ) :
    (Settles (bcastXMLRoot parses file) (bcastXMLRank parses) (others + 1) (Report.Good file) ↔
      (file = none → others = 0) ∧ ∀ bytes, file = some bytes → 0 ≤ length bytes →
        parses (contents bytes) → bytes.length < 2 ^ 31) ∧
    (Settles (readAndBroadcastRoot file) readAndBroadcastRank (others + 1) (Report.Good file) ↔
      file = none ∨ others = 0 ∧ ∃ bytes, file = some bytes ∧ length bytes < 0) := by
  rw [settles_iff, settles_iff]
  cases file with
  | none =>
    refine ⟨⟨?_, ?_⟩, iff_of_true ⟨trivial, .inr ⟨rfl, rfl⟩⟩ (.inl rfl)⟩
    · rintro ⟨-, hzero | hagrees⟩
      · exact ⟨fun _ => hzero, fun _ h => by cases h⟩
      · exact hagrees.elim
    · rintro ⟨hzero, -⟩
      exact ⟨trivial, .inl (hzero rfl)⟩
  | some bytes =>
    rw [bcastXML_good_iff, readAndBroadcast_good_iff]
    constructor
    · constructor
      · rintro ⟨hgood, -⟩
        refine ⟨fun h => (by cases h), fun b h => ?_⟩
        obtain rfl := Option.some.inj h
        exact hgood
      · rintro ⟨-, hgood⟩
        exact ⟨hgood bytes rfl, .inr (bcastXML_agrees parses bytes)⟩
    · constructor
      · rintro ⟨hneg, hagrees⟩
        exact .inr ⟨hagrees.resolve_right (readAndBroadcast_not_agrees hneg), bytes, rfl, hneg⟩
      · rintro (h | ⟨hzero, b, hb, hneg⟩)
        · cases h
        · obtain rfl := Option.some.inj hb
          exact ⟨hneg, .inl hzero⟩

/-- Two ranks and a file that does not open, and one rank and the file `<a/>`. -/
theorem broadcasts_not_settle :
    ¬ Settles (bcastXMLRoot (fun _ => true) none) (bcastXMLRank fun _ => true) 2
        (Report.Good none) ∧
      ¬ Settles (readAndBroadcastRoot (some [60, 97, 47, 62])) readAndBroadcastRank 1
        (Report.Good (some [60, 97, 47, 62])) := by
  rw [settles_iff _ _ 1, settles_iff _ _ 0, readAndBroadcast_good_iff]
  constructor
  · rintro ⟨-, hone | hagrees⟩
    · exact one_ne_zero hone
    · exact hagrees
  · rintro ⟨hneg, -⟩
    exact absurd hneg (by decide)

end Damaris.Model
