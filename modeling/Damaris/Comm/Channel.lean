import Mathlib.Tactic
import Mathlib.Data.List.ReduceOption
import Damaris.Lib.StepSystem

/-!
# Copying sends of a `Channel`

The counter of a channel's pending sends, the copies that it makes, and the requests of its reactor. A
`PollOne` inside a send may run a callback that sends again, so the sends in progress are a stack.
Which requests have completed is for MPI to say, and so is the length that it reports for a send.
-/
namespace Damaris.Comm

/-- The constants of a channel; the endpoint is `none` for `MPI_ANY_SOURCE`. -/
structure Channel where
  endpoint : Option ℕ
  maxAsync : ℤ

/-- A copied buffer, and the number of bytes it was made with. -/
structure Copied where
  buffer : ℕ
  count : ℕ
  deriving DecidableEq

/-- What a send returns. -/
inductive Code
  | ok
  | channelError
  | reactorNotFound
  | mpiError
  deriving DecidableEq

/-- `Reactor::RemoveRequest`: the last request takes the place of the removed one. -/
def removeRequest {α : Type*} (requests : List α) (index : ℕ) : List α :=
  match requests.getLast? with
  | none => requests
  | some last =>
    if index < requests.length then (requests.set index last).dropLast else requests

theorem removeRequest_perm {α : Type*} {requests : List α} {index : ℕ} {a : α}
    (h : requests[index]? = some a) : (a :: removeRequest requests index).Perm requests := by
  obtain ⟨hlt, ha⟩ := List.getElem?_eq_some_iff.mp h
  obtain ⟨ys, z, rfl⟩ : ∃ ys z, requests = ys ++ [z] := by
    obtain rfl | ⟨ys, z, rfl⟩ := requests.eq_nil_or_concat'
    · exact absurd hlt (Nat.not_lt_zero _)
    · exact ⟨ys, z, rfl⟩
  have hdef : removeRequest (ys ++ [z]) index = ((ys ++ [z]).set index z).dropLast := by
    simp only [removeRequest, List.getLast?_concat, if_pos hlt]
  rw [hdef]
  by_cases hi : index < ys.length
  · rw [List.set_append_left _ _ hi, List.dropLast_concat]
    rw [List.getElem_append_left hi] at ha
    have hset := (List.set_perm_cons_eraseIdx hi z).cons a
    have hget := (List.getElem_cons_eraseIdx_perm hi).cons z
    rw [ha] at hget
    have hlast := (List.perm_append_singleton z ys).symm
    exact hset.trans ((List.Perm.swap z a _).trans (hget.trans hlast))
  · obtain rfl : index = ys.length := by
      rw [List.length_append, List.length_singleton] at hlt
      omega
    rw [List.getElem_concat_length rfl] at ha
    subst ha
    rw [List.set_append_right _ _ le_rfl, Nat.sub_self, List.set_cons_zero, List.dropLast_concat]
    exact (List.perm_append_singleton z ys).symm

namespace Channel

/-- The channel's counter, its sends in progress with the innermost first, the reactor's requests
(`none` is one with another callback), and the buffers that were allocated and freed. -/
structure State where
  asyncCount : ℤ
  running : List Copied
  requests : List (Option Copied)
  allocated : ℕ
  freed : List ℕ

/-- What becomes of `MPI_Isend` and the test right after it. -/
inductive Isend
  | failed
  | completed
  | pending
  deriving DecidableEq

inductive Label
  | send (count : ℕ) (reactor : Bool)
  | poll (index : ℕ) (len : ℤ)
  | leave (isend : Isend)
  | bind

namespace State

def initial : State := ⟨0, [], [], 0, []⟩

/-- `DefaultAsyncSendCallback`, for a buffer that is not null. -/
def callback (s : State) (buffer : ℕ) (count : ℤ) : State :=
  { s with
    freed := if count ≠ 0 then buffer :: s.freed else s.freed
    asyncCount := s.asyncCount - 1 }

/-- The sends that the reactor has a request for. -/
def outstanding (s : State) : List Copied := s.requests.reduceOption

/-- The sends that were started and have not come to an end. -/
def pending (s : State) : List Copied := s.running ++ s.outstanding

/-- A copying `SimpleAsyncSend` before it polls for the first time. -/
def send (c : Channel) (s : State) (count : ℕ) (reactor : Bool) : State × Option Code :=
  let s' := { s with asyncCount := s.asyncCount + 1, allocated := s.allocated + 1 }
  if c.maxAsync = 0 then (s', some .channelError)
  else if !reactor then (s', some .reactorNotFound)
  else ({ s' with running := ⟨s.allocated, count⟩ :: s.running }, none)

/-- `PollOne` with this request completed. -/
def poll (s : State) (index : ℕ) (len : ℤ) : Option State :=
  s.requests[index]?.map fun request =>
    let s' := { s with requests := removeRequest s.requests index }
    match request with
    | none => s'
    | some copied => s'.callback copied.buffer len

/-- The innermost `SimpleAsyncSend` from the end of its loop. -/
def leave (c : Channel) (s : State) (isend : Isend) : Option (State × Option Code) :=
  match s.running with
  | [] => none
  | copied :: rest =>
    let s' := { s with running := rest }
    if c.maxAsync ≤ s.asyncCount then none
    else if c.endpoint = none then some (s', some .channelError)
    else
      match isend with
      | .failed => some (s', some .mpiError)
      | .completed => some (s'.callback copied.buffer copied.count, some .ok)
      | .pending => some ({ s' with requests := s.requests ++ [some copied] }, some .ok)

/-- A step, with what a send that it ends returns. -/
def call (c : Channel) (s : State) : Label → Option (State × Option Code)
  | .send count reactor => some (s.send c count reactor)
  | .poll index len => (s.poll index len).map fun s' => (s', none)
  | .leave isend => s.leave c isend
  | .bind => some ({ s with requests := s.requests ++ [none] }, none)

def step (c : Channel) (s : State) (a : Label) : Option State := (s.call c a).map Prod.fst

/-- What the counter and the copies promise. -/
structure Exact (c : Channel) (s : State) : Prop where
  counted : s.asyncCount = s.pending.length
  freed : ∀ b < s.allocated, s.freed.count b = if b ∈ s.pending.map Copied.buffer then 0 else 1
  bounded : s.asyncCount ≤ c.maxAsync

/-- The condition on a step: there is room before a send is made, and nothing fails; a buffer that
is sent has bytes, and MPI reports bytes for it. -/
def Meets (c : Channel) (s : State) : Label → Prop
  | .send _ reactor => reactor = true ∧ s.asyncCount < c.maxAsync
  | .poll index len => ∀ copied, s.requests[index]? = some (some copied) → len ≠ 0
  | .leave isend => ∀ copied rest, s.running = copied :: rest → s.asyncCount < c.maxAsync →
      c.endpoint ≠ none ∧ isend ≠ .failed ∧ (isend = .completed → copied.count ≠ 0)
  | .bind => True

/-! ## Runs -/

/-- The promise, with what keeps buffers apart. -/
structure Sound (c : Channel) (s : State) : Prop where
  counted : s.asyncCount = s.pending.length
  bounded : s.asyncCount ≤ c.maxAsync
  nodup : (s.pending.map Copied.buffer).Nodup
  old : ∀ b ∈ s.pending.map Copied.buffer, b < s.allocated
  freed : ∀ b, s.freed.count b = if b < s.allocated ∧ b ∉ s.pending.map Copied.buffer then 1 else 0

variable {c : Channel} {s s' : State}

theorem Sound.exact (h : s.Sound c) : s.Exact c := by
  refine ⟨h.counted, fun b hb => ?_, h.bounded⟩
  rw [h.freed]
  by_cases hmem : b ∈ s.pending.map Copied.buffer
  · rw [if_neg fun hall => hall.2 hmem, if_pos hmem]
  · rw [if_pos ⟨hb, hmem⟩, if_neg hmem]

theorem sound_initial (hmax : 0 ≤ c.maxAsync) : initial.Sound c :=
  ⟨rfl, hmax, List.nodup_nil, fun _ hb => absurd hb List.not_mem_nil, fun b => by simp [initial]⟩

/-- The same sends are pending. -/
theorem Sound.perm (h : s.Sound c) (hperm : s'.pending.Perm s.pending)
    (hcount : s'.asyncCount = s.asyncCount) (halloc : s'.allocated = s.allocated)
    (hfreed : s'.freed = s.freed) : s'.Sound c := by
  have hbuffers := hperm.map Copied.buffer
  refine ⟨?_, ?_, hbuffers.nodup_iff.mpr h.nodup, fun b hb => ?_, fun b => ?_⟩
  · rw [hcount, h.counted, hperm.length_eq]
  · rw [hcount]
    exact h.bounded
  · rw [halloc]
    exact h.old b (hbuffers.mem_iff.mp hb)
  · rw [hfreed, h.freed, halloc]
    simp only [hbuffers.mem_iff]

@[simp] theorem pending_callback (buffer : ℕ) (count : ℤ) :
    (s.callback buffer count).pending = s.pending := rfl

@[simp] theorem asyncCount_callback (buffer : ℕ) (count : ℤ) :
    (s.callback buffer count).asyncCount = s.asyncCount - 1 := rfl

@[simp] theorem allocated_callback (buffer : ℕ) (count : ℤ) :
    (s.callback buffer count).allocated = s.allocated := rfl

@[simp] theorem freed_callback (buffer : ℕ) (count : ℤ) :
    (s.callback buffer count).freed = if count ≠ 0 then buffer :: s.freed else s.freed := rfl

/-- One of them ends in the callback. -/
theorem Sound.complete (h : s.Sound c) {m : State} {copied : Copied} {count : ℤ} (hcount : count ≠ 0)
    (hperm : (copied :: m.pending).Perm s.pending) (hasync : m.asyncCount = s.asyncCount)
    (halloc : m.allocated = s.allocated) (hfreed : m.freed = s.freed) :
    (m.callback copied.buffer count).Sound c := by
  have hbuffers := hperm.map Copied.buffer
  rw [List.map_cons] at hbuffers
  obtain ⟨hnot, hnodup⟩ := List.nodup_cons.mp (hbuffers.nodup_iff.mpr h.nodup)
  have hlen := hperm.length_eq
  rw [List.length_cons] at hlen
  have hcounted := h.counted
  have hbounded := h.bounded
  refine ⟨?_, ?_, hnodup, fun b hb => ?_, fun b => ?_⟩
  · rw [asyncCount_callback, pending_callback, hasync]
    omega
  · rw [asyncCount_callback, hasync]
    omega
  · rw [allocated_callback, halloc]
    exact h.old b (hbuffers.mem_iff.mp (List.mem_cons_of_mem _ hb))
  · have hmem : b ∈ s.pending.map Copied.buffer ↔
        b = copied.buffer ∨ b ∈ m.pending.map Copied.buffer := by
      rw [← hbuffers.mem_iff, List.mem_cons]
    rw [freed_callback, if_pos hcount, allocated_callback, pending_callback, hfreed, halloc,
      List.count_cons, h.freed]
    simp only [hmem]
    by_cases hb : b = copied.buffer
    · subst hb
      have hold := h.old copied.buffer (hbuffers.mem_iff.mp List.mem_cons_self)
      simp [hold, hnot]
    · simp [hb, Ne.symm hb]

/-- A new one is made, with a new buffer. -/
theorem Sound.begin (h : s.Sound c) (hroom : s.asyncCount < c.maxAsync) (count : ℕ) :
    Sound c { s with
      asyncCount := s.asyncCount + 1
      allocated := s.allocated + 1
      running := ⟨s.allocated, count⟩ :: s.running } := by
  have hfresh : s.allocated ∉ s.pending.map Copied.buffer :=
    fun hmem => lt_irrefl _ (h.old _ hmem)
  refine ⟨?_, hroom, List.nodup_cons.mpr ⟨hfresh, h.nodup⟩, fun b hb => ?_, fun b => ?_⟩
  · have hcounted := h.counted
    show s.asyncCount + 1 = ((_ :: s.pending : List Copied).length : ℤ)
    rw [List.length_cons]
    omega
  · rcases List.mem_cons.mp hb with rfl | hb
    · exact Nat.lt_succ_self _
    · exact (h.old b hb).trans (Nat.lt_succ_self _)
  · have hmem : b ∈ List.map Copied.buffer (⟨s.allocated, count⟩ :: s.pending) ↔
        b = s.allocated ∨ b ∈ s.pending.map Copied.buffer := List.mem_cons
    refine (h.freed b).trans ?_
    refine if_congr ?_ rfl rfl
    refine Iff.trans ?_ (and_congr_right' (not_congr hmem)).symm
    rw [not_or]
    constructor
    · rintro ⟨hlt, hnot⟩
      exact ⟨hlt.trans (Nat.lt_succ_self _), hlt.ne, hnot⟩
    · rintro ⟨hle, hne, hnot⟩
      exact ⟨lt_of_le_of_ne (Nat.lt_succ_iff.mp hle) hne, hnot⟩

/-! ### One step -/

theorem pending_removeRequest {index : ℕ} {request : Option Copied}
    (h : s.requests[index]? = some request) :
    (request.toList ++ pending { s with requests := removeRequest s.requests index }).Perm
      s.pending := by
  have hperm := (removeRequest_perm h).filterMap id
  cases request with
  | none => exact hperm.append_left s.running
  | some copied =>
    refine List.Perm.trans ?_ (hperm.append_left s.running)
    show (copied :: (s.running ++ (removeRequest s.requests index).reduceOption)).Perm _
    exact List.perm_middle.symm

theorem pending_append (s : State) (copied : Copied) (rest : List Copied) :
    (copied :: pending { s with running := rest }).Perm
      (pending { s with running := rest, requests := s.requests ++ [some copied] }) := by
  have hout : (s.requests ++ [some copied]).reduceOption = s.outstanding ++ [copied] := by
    rw [List.reduceOption_append]
    rfl
  simp only [pending, outstanding, hout, ← List.append_assoc]
  exact (List.perm_append_singleton copied _).symm

/-- The ways in which a send comes out of its loop. -/
theorem leave_cases {isend : Isend} {code : Option Code} (h : s.leave c isend = some (s', code)) :
    ∃ copied rest, s.running = copied :: rest ∧ s.asyncCount < c.maxAsync ∧
      ((c.endpoint = none ∨ isend = .failed) ∧ s' = { s with running := rest } ∨
        isend = .completed ∧ s' = callback { s with running := rest } copied.buffer copied.count ∨
        isend = .pending ∧
          s' = { s with running := rest, requests := s.requests ++ [some copied] }) := by
  unfold leave at h
  cases hrunning : s.running with
  | nil => simp [hrunning] at h
  | cons copied rest =>
    simp only [hrunning] at h
    refine ⟨copied, rest, rfl, ?_⟩
    split_ifs at h with hfull hany
    · exact ⟨not_le.mp hfull, .inl ⟨.inl hany, congrArg Prod.fst (Option.some.inj h).symm⟩⟩
    · refine ⟨not_le.mp hfull, ?_⟩
      cases isend with
      | failed => exact .inl ⟨.inr rfl, congrArg Prod.fst (Option.some.inj h).symm⟩
      | completed => exact .inr (.inl ⟨rfl, congrArg Prod.fst (Option.some.inj h).symm⟩)
      | pending => exact .inr (.inr ⟨rfl, congrArg Prod.fst (Option.some.inj h).symm⟩)

theorem pending_cons {copied : Copied} {rest : List Copied} (h : s.running = copied :: rest) :
    copied :: pending { s with running := rest } = s.pending := by
  simp only [pending, h, List.cons_append]
  rfl

theorem step_sound {a : Label} (h : s.Sound c) (ha : s.Meets c a) (hstep : s.step c a = some s') :
    s'.Sound c := by
  obtain ⟨⟨t, code⟩, hcall, rfl⟩ := Option.map_eq_some_iff.mp hstep
  cases a with
  | send count reactor =>
    obtain ⟨rfl, hroom⟩ := ha
    have hcounted := h.counted
    have hmax : c.maxAsync ≠ 0 := by omega
    simp only [call, send, if_neg hmax] at hcall
    obtain rfl := congrArg Prod.fst (Option.some.inj hcall)
    exact h.begin hroom count
  | poll index len =>
    obtain ⟨m, hpoll, hm⟩ := Option.map_eq_some_iff.mp hcall
    obtain rfl := congrArg Prod.fst hm
    obtain ⟨request, hrequest, rfl⟩ := Option.map_eq_some_iff.mp hpoll
    have hperm := pending_removeRequest hrequest
    cases request with
    | none => exact h.perm hperm rfl rfl rfl
    | some copied => exact h.complete (ha copied hrequest) hperm rfl rfl rfl
  | leave isend =>
    obtain ⟨copied, rest, hrunning, hroom, hcases⟩ := leave_cases hcall
    obtain ⟨hany, hfailed, hbytes⟩ := ha copied rest hrunning hroom
    have hpending := pending_cons hrunning
    rcases hcases with ⟨hbad, -⟩ | ⟨hisend, rfl⟩ | ⟨-, rfl⟩
    · exact absurd hbad (not_or.mpr ⟨hany, hfailed⟩)
    · have hcount : (copied.count : ℤ) ≠ 0 := Int.natCast_ne_zero.mpr (hbytes hisend)
      exact h.complete hcount (.of_eq hpending) rfl rfl rfl
    · exact h.perm ((s.pending_append copied rest).symm.trans (.of_eq hpending)) rfl rfl rfl
  | bind =>
    obtain rfl := congrArg Prod.fst (Option.some.inj hcall)
    refine h.perm ?_ rfl rfl rfl
    simp [pending, outstanding, List.reduceOption_append]

/-! ### The condition is needed -/

/-- The counter cannot be right when a send has ended and the counter is as before. -/
theorem not_exact_of_kept (h : s.Sound c) {n : ℤ} (hn : s'.asyncCount = s.asyncCount + n)
    (hpending : (s'.pending.length : ℤ) ≠ s.pending.length + n) : ¬ s'.Exact c := by
  intro hexact
  have hcounted := hexact.counted
  have hcounted' := h.counted
  omega

/-- The copies cannot be right when a send has ended and its buffer is left. -/
theorem not_exact_of_leak (h : s.Sound c) {copied : Copied}
    (hperm : (copied :: s'.pending).Perm s.pending) (halloc : s'.allocated = s.allocated)
    (hfreed : s'.freed = s.freed) : ¬ s'.Exact c := by
  intro hexact
  have hbuffers := hperm.map Copied.buffer
  rw [List.map_cons] at hbuffers
  have hmem : copied.buffer ∈ s.pending.map Copied.buffer :=
    hbuffers.mem_iff.mp List.mem_cons_self
  have hnot := (List.nodup_cons.mp (hbuffers.nodup_iff.mpr h.nodup)).1
  have hfreed' := hexact.freed copied.buffer (halloc ▸ h.old _ hmem)
  rw [hfreed, h.freed, if_neg fun hall => hall.2 hmem, if_neg hnot] at hfreed'
  exact absurd hfreed' (by decide)

theorem meets_send {count : ℕ} {reactor : Bool} (h : s.Sound c)
    (hsend : (s.send c count reactor).1.Exact c) : s.Meets c (.send count reactor) := by
  have hlength : (s.pending.length : ℤ) ≠ s.pending.length + 1 := by omega
  unfold send at hsend
  dsimp only at hsend
  split_ifs at hsend with hmax hreactor
  · exact absurd hsend (not_exact_of_kept h rfl hlength)
  · exact absurd hsend (not_exact_of_kept h rfl hlength)
  · refine ⟨by simpa using hreactor, ?_⟩
    have hbounded := hsend.bounded
    exact Int.lt_of_add_one_le hbounded

theorem meets_poll {index : ℕ} {len : ℤ} (h : s.Sound c)
    (hpoll : ∀ s', s.poll index len = some s' → s'.Exact c) : s.Meets c (.poll index len) := by
  intro copied hrequest hzero
  have hleak : ¬ Exact c
      (callback { s with requests := removeRequest s.requests index } copied.buffer len) := by
    refine not_exact_of_leak h (pending_removeRequest hrequest) rfl ?_
    rw [freed_callback, if_neg (not_not.mpr hzero)]
  exact hleak (hpoll _ (by rw [poll, hrequest]; rfl))

theorem meets_leave {isend : Isend} (h : s.Sound c)
    (hleave : ∀ s' code, s.leave c isend = some (s', code) → s'.Exact c) :
    s.Meets c (.leave isend) := by
  intro copied rest hrunning hroom
  have hpending := pending_cons hrunning
  have hroom' : ¬ c.maxAsync ≤ s.asyncCount := not_le.mpr hroom
  have hkept : ¬ Exact c { s with running := rest } := by
    refine not_exact_of_kept h (add_zero _).symm ?_
    rw [← hpending, List.length_cons]
    omega
  have hany : c.endpoint ≠ none := by
    intro hany
    exact hkept (hleave _ (some .channelError) (by simp [leave, hrunning, hroom', hany]))
  refine ⟨hany, ?_, ?_⟩
  · rintro rfl
    exact hkept (hleave _ (some .mpiError) (by simp [leave, hrunning, hroom', hany]))
  · rintro rfl hzero
    have hleak : ¬ Exact c (callback { s with running := rest } copied.buffer copied.count) := by
      refine not_exact_of_leak h (.of_eq hpending) rfl ?_
      rw [freed_callback, if_neg (not_not.mpr (Int.natCast_eq_zero.mpr hzero))]
    exact hleak (hleave _ (some .ok) (by simp [leave, hrunning, hroom', hany]))

theorem meets_of_exact {a : Label} (h : s.Sound c)
    (hexact : ∀ s', s.step c a = some s' → s'.Exact c) : s.Meets c a := by
  cases a with
  | send count reactor => exact meets_send h (hexact _ rfl)
  | poll index len =>
    refine meets_poll h fun s' hpoll => hexact s' ?_
    rw [step, call, hpoll]
    rfl
  | leave isend =>
    refine meets_leave h fun s' code hleave => hexact s' ?_
    rw [step, call, hleave]
    rfl
  | bind => trivial

/-- The counter and the copies are right in every state of a run if and only if the channel's limit is
not negative and every step meets the condition. -/
theorem always_exact_iff (c : Channel) (as : List Label) :
    StepSystem.Always (step c) (Exact c) initial as ↔
      0 ≤ c.maxAsync ∧ StepSystem.Guarded (step c) (Meets c) initial as := by
  by_cases hmax : 0 ≤ c.maxAsync
  · rw [and_iff_right hmax]
    exact StepSystem.always_iff_guarded (fun _ _ _ h ha hstep => step_sound h ha hstep)
      (fun _ h => h.exact) (fun _ _ h hexact => meets_of_exact h hexact) (sound_initial hmax)
  · exact iff_of_false (fun halways => hmax halways.head.bounded) fun hall => hmax hall.1

/-- A send to no one in particular is refused after it was counted, and its copy is lost. -/
theorem refused_send_counted : ¬ ∀ (c : Channel) (as : List Label),
    StepSystem.Always (step c) (Exact c) initial as := by
  intro hall
  have hend := ((hall ⟨none, 2⟩ [.send 4 true, .leave .pending]).2 _ rfl).2 _ rfl
  exact absurd hend.counted (by decide)

end State
end Channel
end Damaris.Comm
