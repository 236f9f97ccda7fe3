import Damaris.Comm.Channel

/-!
# The request table of a `Reactor`

A request, its callback and its buffer stand at one index of three vectors. A request that MPI
reports is taken out of them before its callback runs, and the callback may do anything that other
code may do with the reactor. Which request is reported, and how its message was received, is for
MPI to say.
-/
namespace Damaris.Comm

variable {R C B : Type*}

/-- What `BindRequest` is given. -/
structure Binding (R C B : Type*) where
  request : R
  callback : Option C
  buffer : B
  deriving DecidableEq

/-- What MPI says of a message that was received. -/
structure Status where
  source : ℤ
  tag : ℤ
  len : ℤ
  deriving DecidableEq

/-- A callback that is invoked, and its arguments. -/
structure Invocation (C B : Type*) where
  callback : C
  status : Status
  buffer : B
  deriving DecidableEq

/-- The callback of a binding is invoked with the buffer of that binding. -/
def Binding.invocation (b : Binding R C B) (status : Status) : Option (Invocation C B) :=
  b.callback.map fun cb => ⟨cb, status, b.buffer⟩

structure Reactor (R C B : Type*) where
  requests : List R
  extCallbacks : List (Option C)
  buffers : List B
  deriving DecidableEq

/-- `v[index] = v[count-1]` and `v.resize(count-1)`: `none` is an access outside of `v`. -/
def moveLast {α : Type*} (count index : ℕ) (v : List α) : Option (List α) :=
  match v[count - 1]? with
  | none => none
  | some last => if index < v.length then some ((v.set index last).take (count - 1)) else none

theorem moveLast_map {α β : Type*} (f : α → β) (count index : ℕ) (v : List α) :
    moveLast count index (v.map f) = (moveLast count index v).map (List.map f) := by
  unfold moveLast
  rw [List.getElem?_map]
  cases v[count - 1]? with
  | none => rfl
  | some last =>
    simp only [Option.map_some, List.length_map]
    split_ifs
    · rw [Option.map_some, ← List.map_set, List.map_take]
    · rfl

theorem moveLast_eq {α : Type*} {index : ℕ} {v : List α} (h : index < v.length) :
    moveLast v.length index v = some (removeRequest v index) := by
  rw [moveLast, removeRequest, ← List.getLast?_eq_getElem?]
  cases hlast : v.getLast? with
  | none =>
    rw [List.getLast?_eq_none_iff.mp hlast] at h
    exact absurd h (Nat.not_lt_zero _)
  | some last =>
    simp only [if_pos h, List.dropLast_eq_take, List.length_set]

namespace Reactor

def initial : Reactor R C B := ⟨[], [], []⟩

def bindRequest (r : Reactor R C B) (b : Binding R C B) : Reactor R C B :=
  ⟨r.requests ++ [b.request], r.extCallbacks ++ [b.callback], r.buffers ++ [b.buffer]⟩

/-- `RemoveRequest`, with what it returns; `none` is an access outside of a vector. -/
def removeRequest (r : Reactor R C B) (index : ℕ) : Option (Reactor R C B × Bool) :=
  if r.requests.length ≤ index then some (r, false)
  else
    let count := r.requests.length
    match moveLast count index r.requests, moveLast count index r.extCallbacks,
        moveLast count index r.buffers with
    | some requests, some extCallbacks, some buffers => some (⟨requests, extCallbacks, buffers⟩, true)
    | _, _, _ => none

/-- What follows a report of MPI, up to the invocation. -/
def complete (r : Reactor R C B) (index : ℕ) (status : Status) :
    Option (Reactor R C B × Option (Invocation C B)) :=
  match r.extCallbacks[index]?, r.buffers[index]? with
  | some cb, some buf =>
    -- MPI has made the request null, which `removeRequest` overwrites or cuts off
    (r.removeRequest index).map fun out => (out.1, cb.map fun cb => ⟨cb, status, buf⟩)
  | _, _ => none

/-- `PollOne` up to the invocation, with what it returns. `MPI_Testany` answers none or one of the
requests. -/
def pollOne (r : Reactor R C B) (testany : Option (ℕ × Status)) :
    Option (Reactor R C B × Option (Invocation C B) × ℤ) :=
  if r.requests.length = 0 then some (r, none, 0)
  else
    match testany with
    | none => some (r, none, 0)
    | some (index, status) => (r.complete index status).map fun out => (out.1, out.2, 1)

/-- `RunOne` up to the invocation. `MPI_Waitany` answers one of the requests or an error. -/
def runOne (r : Reactor R C B) (waitany : Option (ℕ × Status)) :
    Option (Reactor R C B × Option (Invocation C B)) :=
  if r.requests.length = 0 then some (r, none)
  else
    match waitany with
    | none => some (r, none)
    | some (index, status) => r.complete index status

/-- What is done with a reactor. The body is what the callback does if one is invoked. -/
inductive Op (R C B : Type*)
  | bindRequest (b : Binding R C B)
  | removeRequest (index : ℕ)
  | pollOne (testany : Option (ℕ × Status)) (body : List (Op R C B))
  | runOne (waitany : Option (ℕ × Status)) (body : List (Op R C B))

/-- The reactor and its history: the bindings in their order, the requests that `RemoveRequest` was
called for, those that MPI reported, and the invocations. -/
structure State (R C B : Type*) where
  reactor : Reactor R C B
  bound : List (Binding R C B)
  removed : List R
  reported : List (R × Status)
  invoked : List (Invocation C B)
  deriving DecidableEq

namespace State

def initial : State R C B := ⟨.initial, [], [], [], []⟩

def bind (s : State R C B) (b : Binding R C B) : State R C B :=
  { s with reactor := s.reactor.bindRequest b, bound := s.bound ++ [b] }

def remove (s : State R C B) (index : ℕ) : Option (State R C B) :=
  (s.reactor.removeRequest index).map fun out =>
    { s with reactor := out.1, removed := s.removed ++ (s.reactor.requests[index]?).toList }

/-- After a report, and the invocation that it led to. -/
def advance (s : State R C B) (report : Option (ℕ × Status)) (r : Reactor R C B)
    (invocation : Option (Invocation C B)) : State R C B :=
  { s with
    reactor := r
    reported := s.reported ++ report.toList.flatMap fun a =>
      (s.reactor.requests[a.1]?).toList.map fun request => (request, a.2)
    invoked := s.invoked ++ invocation.toList }

end State

mutual

/-- One operation with all that its callback does. -/
def exec : Op R C B → State R C B → Option (State R C B)
  | .bindRequest b, s => some (s.bind b)
  | .removeRequest index, s => s.remove index
  | .pollOne testany body, s =>
    match s.reactor.pollOne testany with
    | none => none
    | some (r, none, _) => some (s.advance testany r none)
    | some (r, some invocation, _) => execAll body (s.advance testany r (some invocation))
  | .runOne waitany body, s =>
    match s.reactor.runOne waitany with
    | none => none
    | some (r, none) => some (s.advance waitany r none)
    | some (r, some invocation) => execAll body (s.advance waitany r (some invocation))

def execAll : List (Op R C B) → State R C B → Option (State R C B)
  | [], s => some s
  | op :: ops, s => (exec op s).bind (execAll ops)

end

/-! ## What the vectors hold -/

/-- The indices of the three vectors are those of a list of bindings. -/
structure Holds (r : Reactor R C B) (table : List (Binding R C B)) : Prop where
  requests : r.requests = table.map Binding.request
  extCallbacks : r.extCallbacks = table.map Binding.callback
  buffers : r.buffers = table.map Binding.buffer

variable {r r' : Reactor R C B} {table : List (Binding R C B)} {b : Binding R C B} {index : ℕ}

theorem Holds.bindRequest (h : r.Holds table) (b : Binding R C B) :
    (r.bindRequest b).Holds (table ++ [b]) := by
  constructor
  · rw [Reactor.bindRequest, h.requests, List.map_append]
    rfl
  · rw [Reactor.bindRequest, h.extCallbacks, List.map_append]
    rfl
  · rw [Reactor.bindRequest, h.buffers, List.map_append]
    rfl

theorem Holds.length_eq (h : r.Holds table) : r.requests.length = table.length := by
  rw [h.requests, List.length_map]

theorem Holds.removeRequest_of_le (h : r.Holds table) (hle : table.length ≤ index) :
    r.removeRequest index = some (r, false) := by
  rw [removeRequest, if_pos (h.length_eq ▸ hle)]

/-- The three vectors lose the parts of one binding. -/
theorem Holds.removeRequest (h : r.Holds table) (hlt : index < table.length) :
    ∃ r', r.removeRequest index = some (r', true) ∧ r'.Holds (Comm.removeRequest table index) := by
  refine ⟨⟨(Comm.removeRequest table index).map Binding.request,
    (Comm.removeRequest table index).map Binding.callback,
    (Comm.removeRequest table index).map Binding.buffer⟩, ?_, rfl, rfl, rfl⟩
  have hnot : ¬ r.requests.length ≤ index := by
    rw [h.length_eq]
    omega
  rw [Reactor.removeRequest, if_neg hnot]
  simp only [h.requests, h.extCallbacks, h.buffers, List.length_map, moveLast_map, moveLast_eq hlt,
    Option.map_some]

theorem Holds.complete (h : r.Holds table) (hb : table[index]? = some b) (status : Status) :
    ∃ r', r.complete index status = some (r', b.invocation status) ∧
      r'.Holds (Comm.removeRequest table index) := by
  obtain ⟨hlt, -⟩ := List.getElem?_eq_some_iff.mp hb
  obtain ⟨r', hremove, hholds⟩ := h.removeRequest hlt
  refine ⟨r', ?_, hholds⟩
  rw [Reactor.complete, h.extCallbacks, h.buffers, List.getElem?_map, List.getElem?_map, hb]
  dsimp only [Option.map_some]
  rw [hremove]
  rfl

theorem Holds.complete_of_le (h : r.Holds table) (hle : table.length ≤ index) (status : Status) :
    r.complete index status = none := by
  rw [Reactor.complete, h.extCallbacks, List.getElem?_map, List.getElem?_eq_none hle]
  rfl

theorem runOne_eq (r : Reactor R C B) (waitany : Option (ℕ × Status)) :
    r.runOne waitany = (r.pollOne waitany).map fun out => (out.1, out.2.1) := by
  unfold runOne pollOne
  split_ifs
  · rfl
  · cases waitany with
    | none => rfl
    | some a =>
      dsimp only
      rw [Option.map_map]
      exact Option.map_id'.symm

/-- Either nothing is reported, or it is the request of one of the bindings. -/
theorem Holds.pollOne_cases (h : r.Holds table) {report : Option (ℕ × Status)}
    {invocation : Option (Invocation C B)} {n : ℤ}
    (hpoll : r.pollOne report = some (r', invocation, n)) :
    (r' = r ∧ invocation = none ∧ (report = none ∨ table = [])) ∨
      ∃ index status b, report = some (index, status) ∧ table[index]? = some b ∧
        r'.Holds (Comm.removeRequest table index) ∧ invocation = b.invocation status := by
  unfold pollOne at hpoll
  split_ifs at hpoll with hempty
  · cases hpoll
    rw [h.length_eq] at hempty
    exact .inl ⟨rfl, rfl, .inr (List.eq_nil_of_length_eq_zero hempty)⟩
  · cases report with
    | none =>
      cases hpoll
      exact .inl ⟨rfl, rfl, .inl rfl⟩
    | some a =>
      obtain ⟨index, status⟩ := a
      obtain ⟨out, hcomplete, hout⟩ := Option.map_eq_some_iff.mp hpoll
      by_cases hlt : index < table.length
      · have hb := List.getElem?_eq_getElem hlt
        obtain ⟨r'', hcomplete', hholds⟩ := h.complete hb status
        rw [hcomplete'] at hcomplete
        cases hcomplete
        cases hout
        exact .inr ⟨index, status, _, rfl, hb, hholds, rfl⟩
      · rw [h.complete_of_le (Nat.le_of_not_lt hlt)] at hcomplete
        cases hcomplete

/-! ## Runs -/

namespace State

/-- Each binding is in the table, or was reported, or was removed; what was invoked are the callbacks
of the reported ones in their order. -/
structure Account (s : State R C B) (table : List (Binding R C B))
    (completed : List (Binding R C B × Status)) (dropped : List (Binding R C B)) : Prop where
  holds : s.reactor.Holds table
  bound : (table ++ completed.map Prod.fst ++ dropped).Perm s.bound
  removed : s.removed = dropped.map Binding.request
  reported : s.reported = completed.map fun a => (a.1.request, a.2)
  invoked : s.invoked = completed.filterMap fun a => a.1.invocation a.2

def Accounted (s : State R C B) : Prop :=
  ∃ table completed dropped, s.Account table completed dropped

variable {s s' : State R C B}

theorem accounted_initial : (initial : State R C B).Accounted :=
  ⟨[], [], [], ⟨rfl, rfl, rfl⟩, .nil, rfl, rfl, rfl⟩

theorem Accounted.bind (h : s.Accounted) (b : Binding R C B) : (s.bind b).Accounted := by
  obtain ⟨table, completed, dropped, h⟩ := h
  refine ⟨table ++ [b], completed, dropped, h.holds.bindRequest b, ?_, h.removed, h.reported,
    h.invoked⟩
  have hlast : (table ++ [b] ++ completed.map Prod.fst ++ dropped).Perm
      (b :: (table ++ completed.map Prod.fst ++ dropped)) := by
    rw [List.append_assoc, List.append_assoc, List.append_assoc]
    exact List.perm_middle
  exact hlast.trans ((h.bound.cons b).trans (List.perm_append_singleton b s.bound).symm)

theorem Accounted.remove (h : s.Accounted) {index : ℕ} (hremove : s.remove index = some s') :
    s'.Accounted := by
  obtain ⟨table, completed, dropped, h⟩ := h
  obtain ⟨out, hout, rfl⟩ := Option.map_eq_some_iff.mp hremove
  by_cases hlt : index < table.length
  · obtain ⟨r', heq, hholds⟩ := h.holds.removeRequest hlt
    rw [heq] at hout
    cases hout
    have hb := List.getElem?_eq_getElem hlt
    refine ⟨_, completed, dropped ++ [table[index]], hholds, ?_, ?_, h.reported, h.invoked⟩
    · rw [← List.append_assoc]
      refine (List.perm_append_singleton _ _).trans (.trans ?_ h.bound)
      exact ((removeRequest_perm hb).append_right _).append_right _
    · rw [List.map_append, ← h.removed, h.holds.requests, List.getElem?_map, hb]
      rfl
  · have hle := Nat.le_of_not_lt hlt
    rw [h.holds.removeRequest_of_le hle] at hout
    cases hout
    rw [h.holds.requests, List.getElem?_map, List.getElem?_eq_none hle]
    refine ⟨table, completed, dropped, h.holds, h.bound, ?_, h.reported, h.invoked⟩
    exact (List.append_nil _).trans h.removed

theorem Accounted.advance (h : s.Accounted) {report : Option (ℕ × Status)} {r : Reactor R C B}
    {invocation : Option (Invocation C B)} {n : ℤ}
    (hpoll : s.reactor.pollOne report = some (r, invocation, n)) :
    (s.advance report r invocation).Accounted := by
  obtain ⟨table, completed, dropped, h⟩ := h
  obtain ⟨rfl, rfl, hnothing⟩ | ⟨index, status, b, rfl, hb, hholds, rfl⟩ :=
    h.holds.pollOne_cases hpoll
  · have hreport : (report.toList.flatMap fun a =>
        (s.reactor.requests[a.1]?).toList.map fun request => (request, a.2)) = [] := by
      obtain rfl | rfl := hnothing
      · rfl
      · rw [h.holds.requests]
        simp
    refine ⟨table, completed, dropped, h.holds, h.bound, h.removed, ?_, ?_⟩
    · exact (congrArg _ hreport).trans ((List.append_nil _).trans h.reported)
    · exact (List.append_nil _).trans h.invoked
  · refine ⟨_, completed ++ [(b, status)], dropped, hholds, ?_, h.removed, ?_, ?_⟩
    · have hmove : (Comm.removeRequest table index ++ (completed ++ [(b, status)]).map Prod.fst ++
          dropped).Perm
            (b :: Comm.removeRequest table index ++ completed.map Prod.fst ++ dropped) := by
        rw [List.map_append, ← List.append_assoc]
        exact (List.perm_append_singleton _ _).append_right _
      refine hmove.trans (.trans ?_ h.bound)
      exact ((removeRequest_perm hb).append_right _).append_right _
    · simp [State.advance, h.reported, h.holds.requests, hb]
    · have hone : [(b, status)].filterMap (fun a => a.1.invocation a.2) =
          (b.invocation status).toList := by
        rw [List.filterMap_cons]
        cases b.invocation status <;> rfl
      rw [List.filterMap_append, ← h.invoked, hone]
      rfl

end State

mutual

/-- By recursion on the operation, with the body of its callback. -/
theorem exec_accounted (op : Op R C B) {s s' : State R C B} (h : s.Accounted)
    (hexec : exec op s = some s') : s'.Accounted := by
  match op with
  | .bindRequest b =>
    rw [exec] at hexec
    cases hexec
    exact h.bind b
  | .removeRequest index =>
    rw [exec] at hexec
    exact h.remove hexec
  | .pollOne testany body =>
    rw [exec] at hexec
    split at hexec
    · cases hexec
    · next r n hpoll =>
      cases hexec
      exact h.advance hpoll
    · next r invocation n hpoll => exact execAll_accounted body (h.advance hpoll) hexec
  | .runOne waitany body =>
    rw [exec, runOne_eq] at hexec
    cases hpoll : s.reactor.pollOne waitany with
    | none =>
      rw [hpoll] at hexec
      cases hexec
    | some out =>
      obtain ⟨r, invocation, n⟩ := out
      rw [hpoll] at hexec
      cases invocation with
      | none =>
        cases hexec
        exact h.advance hpoll
      | some invocation => exact execAll_accounted body (h.advance hpoll) hexec

theorem execAll_accounted (ops : List (Op R C B)) {s s' : State R C B} (h : s.Accounted)
    (hexec : execAll ops s = some s') : s'.Accounted := by
  match ops with
  | [] =>
    rw [execAll] at hexec
    cases hexec
    exact h
  | op :: ops =>
    rw [execAll] at hexec
    obtain ⟨s₁, hop, hops⟩ := Option.bind_eq_some_iff.mp hexec
    exact execAll_accounted ops (exec_accounted op h hop) hops

end

/-- An index in the table loses the binding that is there and no other, an index beyond it none. -/
def RemovesExactly (r : Reactor R C B) (index : ℕ) : Prop :=
  ∀ table, r.Holds table →
    (table.length ≤ index → r.removeRequest index = some (r, false)) ∧
      ∀ b, table[index]? = some b → ∃ r' rest, r.removeRequest index = some (r', true) ∧
        r'.Holds rest ∧ (b :: rest).Perm table

/-- The vectors are of one length, what was bound is accounted for, a removal takes one binding away,
and no access of a poll is outside of a vector. -/
structure Sound (s : State R C B) : Prop where
  extCallbacks : s.reactor.extCallbacks.length = s.reactor.requests.length
  buffers : s.reactor.buffers.length = s.reactor.requests.length
  accounted : s.Accounted
  removes : ∀ index, s.reactor.RemovesExactly index
  inside : ∀ index < s.reactor.requests.length, ∀ status,
    (s.reactor.complete index status).isSome = true

theorem removesExactly (r : Reactor R C B) (index : ℕ) : r.RemovesExactly index := by
  refine fun table h => ⟨h.removeRequest_of_le, fun b hb => ?_⟩
  obtain ⟨hlt, -⟩ := List.getElem?_eq_some_iff.mp hb
  obtain ⟨r', hremove, hholds⟩ := h.removeRequest hlt
  exact ⟨r', _, hremove, hholds, removeRequest_perm hb⟩

theorem State.Accounted.sound {s : State R C B} (h : s.Accounted) : Sound s := by
  obtain ⟨table, completed, dropped, ha⟩ := h
  refine ⟨?_, ?_, ⟨table, completed, dropped, ha⟩, removesExactly s.reactor, ?_⟩
  · rw [ha.holds.extCallbacks, ha.holds.requests, List.length_map, List.length_map]
  · rw [ha.holds.buffers, ha.holds.requests, List.length_map, List.length_map]
  · intro index hlt status
    rw [ha.holds.length_eq] at hlt
    obtain ⟨r', heq, -⟩ := ha.holds.complete (List.getElem?_eq_getElem hlt) status
    rw [heq]
    rfl

/-- Whatever is done with a reactor, and whatever its callbacks do, the table stays sound. -/
theorem sound_run (ops : List (Op R C B)) {s : State R C B}
    (h : execAll ops .initial = some s) : Sound s :=
  (execAll_accounted ops State.accounted_initial h).sound

/-- The callback of the request 10 binds the request 12, which is removed before it completes. -/
def rebinding : List (Op ℕ ℕ ℕ) :=
  [.bindRequest ⟨10, some 100, 1⟩, .bindRequest ⟨11, some 101, 2⟩,
    .pollOne (some (0, ⟨0, 1, 4⟩)) [.bindRequest ⟨12, some 100, 3⟩, .pollOne none []],
    .removeRequest 1, .runOne (some (0, ⟨1, 1, 8⟩)) []]

theorem sound_rebinding : ∃ s : State ℕ ℕ ℕ, execAll rebinding .initial = some s ∧
    s.removed = [12] ∧ s.invoked = [⟨100, ⟨0, 1, 4⟩, 1⟩, ⟨101, ⟨1, 1, 8⟩, 2⟩] ∧ Sound s :=
  ⟨_, rfl, rfl, rfl, sound_run rebinding rfl⟩

end Reactor
end Damaris.Comm
