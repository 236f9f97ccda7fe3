import Damaris.Env.Environment
import Damaris.Data.ScopedNames

/-!
# The domains that VisIt is shown

Block `j` of client `c` is shown to VisIt as the domain `c * n + j`, where every client has `n`
domains. Two functions list the domains of a server, for as many clients as each counts, and the
call-backs for meshes and variables take a domain apart again.
-/
namespace Damaris.Visit
open Data Env

/-- Whether the allocations of VisIt succeed. -/
structure Allocations where
  domainList : Bool
  variableData : Bool

/-- What `VisIt_DomainList_setDomains` is given. -/
structure DomainList where
  total : ℤ
  count : ℤ
  domains : List ℤ
  deriving DecidableEq

/-- The result of an `int` operation that does not overflow. -/
def IsInt (x : ℤ) : Prop := -2 ^ 31 ≤ x ∧ x < 2 ^ 31

instance (x : ℤ) : Decidable (IsInt x) := inferInstanceAs (Decidable (_ ∧ _))

/-- The inner loop. -/
def fillClient (blocksPerClient : ℤ) (client : ℕ) : Option (List ℤ) :=
  (List.range blocksPerClient.toNat).mapM fun j : ℕ =>
    if IsInt (client * blocksPerClient) ∧ IsInt (client * blocksPerClient + j) then
      some (client * blocksPerClient + j)
    else none

/-- The outer loop, which walks along the list of clients; `none` is a step past its end, or an
overflow. -/
def fill (blocksPerClient : ℤ) : ℕ → List ℕ → Option (List ℤ)
  | 0, _ => some []
  | _ + 1, [] => none
  | i + 1, client :: it =>
    (fillClient blocksPerClient client).bind fun row =>
      (fill blocksPerClient i it).map fun rest => row ++ rest

variable (v : Allocations) (s : Setup) (clients : List ℕ) (domainsPerClient : BitVec 32)

/-- `CountTotalClients`, where there are servers or each client serves itself. -/
def countTotalClients : ℕ :=
  if 0 < s.nodes then s.coresPerNode * s.clientsPerNode
  else if 0 < s.cores then s.numberOfNodes * s.clientsPerNode
  else 0

/-- What both functions do with the number of clients; `some none` is a failure of VisIt. The
number of domains, an `unsigned int`, is kept in an `int`. -/
def domainList (nbrLocalClients : ℕ) : Option (Option DomainList) :=
  if ¬ v.domainList then some none
  else if ¬ IsInt (nbrLocalClients * domainsPerClient.toInt) then none
  else if ¬ IsInt (countTotalClients s * domainsPerClient.toInt) then none
  else (fill domainsPerClient.toInt nbrLocalClients clients).map fun domains =>
    if v.variableData then
      some ⟨countTotalClients s * domainsPerClient.toInt, nbrLocalClients * domainsPerClient.toInt,
        domains⟩
    else none

/-- The clients that `ExposeVisItDomainList` counts. -/
def nbrLocalClients : ℕ := if s.serversPerNode ≠ 0 then s.clientsPerNode else 1

/-- `Variable::ExposeVisItDomainList`. -/
def exposeVisItDomainList : Option (Option DomainList) :=
  domainList v s clients domainsPerClient (nbrLocalClients s)

/-- `VisItListener::GetDomainList`. -/
def getDomainList : Option (Option DomainList) :=
  domainList v s clients domainsPerClient clients.length

/-- What `GetMesh` and `GetVariable` do with a domain. -/
def exposeDomain {M H : Type} (search : Name → Option M) (exposeVisItData : M → ℤ → ℤ → ℤ → H)
    (iteration domain : ℤ) (name : Name) : Option H :=
  (search name).map fun m =>
    exposeVisItData m (domain.tdiv domainsPerClient.toInt) iteration
      (domain.tmod domainsPerClient.toInt)

def getMesh {M H : Type} (search : Name → Option M) (exposeVisItData : M → ℤ → ℤ → ℤ → H)
    (iteration domain : ℤ) (name : Name) : Option H :=
  exposeDomain domainsPerClient search exposeVisItData iteration domain name

def getVariable {V H : Type} (search : Name → Option V) (exposeVisItData : V → ℤ → ℤ → ℤ → H)
    (iteration domain : ℤ) (name : Name) : Option H :=
  exposeDomain domainsPerClient search exposeVisItData iteration domain name

/-- The domains of these clients, in order. -/
def domainsOf : List ℤ :=
  clients.flatMap fun c =>
    (List.range domainsPerClient.toNat).map fun j => ((c * domainsPerClient.toNat + j : ℕ) : ℤ)

/-- Both functions give this list of all domains, and each domain is taken apart again. -/
structure Agree (d : DomainList) : Prop where
  exposed : exposeVisItDomainList v s clients domainsPerClient = some (some d)
  listed : getDomainList v s clients domainsPerClient = some (some d)
  domains : d.domains = domainsOf clients domainsPerClient
  count : d.count = d.domains.length
  mesh : ∀ c ∈ clients, ∀ j < domainsPerClient.toNat, ∀ (M H : Type) (search : Name → Option M)
    (expose : M → ℤ → ℤ → ℤ → H) (iteration : ℤ) (name : Name),
    getMesh domainsPerClient search expose iteration ((c * domainsPerClient.toNat + j : ℕ) : ℤ) name =
      (search name).map fun m => expose m c iteration j
  field : ∀ c ∈ clients, ∀ j < domainsPerClient.toNat, ∀ (V H : Type)
    (search : Name → Option V) (expose : V → ℤ → ℤ → ℤ → H) (iteration : ℤ) (name : Name),
    getVariable domainsPerClient search expose iteration ((c * domainsPerClient.toNat + j : ℕ) : ℤ)
      name = (search name).map fun x => expose x c iteration j

/-- The products and domains are `int`. -/
structure FitsInt : Prop where
  count : clients.length * domainsPerClient.toNat < 2 ^ 31
  total : countTotalClients s * domainsPerClient.toNat < 2 ^ 31
  domains : ∀ c ∈ clients, c * domainsPerClient.toNat + (domainsPerClient.toNat - 1) < 2 ^ 31

/-! ## The loops -/

theorem mapM_ite {α β : Type*} (p : α → Prop) [DecidablePred p] (f : α → β) (l : List α) :
    (l.mapM fun a => if p a then some (f a) else none) =
      if ∀ a ∈ l, p a then some (l.map f) else none := by
  induction l with
  | nil => simp
  | cons a l ih =>
    rw [List.mapM_cons, ih]
    by_cases ha : p a
    · by_cases hl : ∀ b ∈ l, p b
      · rw [if_pos ha, if_pos hl, if_pos (List.forall_mem_cons.mpr ⟨ha, hl⟩)]
        rfl
      · rw [if_pos ha, if_neg hl, if_neg fun h => hl (List.forall_mem_cons.mp h).2]
        rfl
    · rw [if_neg ha, if_neg fun h => ha (List.forall_mem_cons.mp h).1]
      rfl

variable {s clients domainsPerClient}

/-- The domains of one client. -/
def row (n client : ℕ) : List ℤ := (List.range n).map fun j => ((client * n + j : ℕ) : ℤ)

theorem length_row (n client : ℕ) : (row n client).length = n := by
  rw [row, List.length_map, List.length_range]

theorem fillClient_eq {n : ℕ} (hn : 0 < n) (client : ℕ) : fillClient n client =
    if client * n + (n - 1) < 2 ^ 31 then some (row n client) else none := by
  have hrow : row n client = (List.range n).map fun j : ℕ => (client * n + j : ℤ) :=
    List.map_congr_left fun j _ => by push_cast; rfl
  have hfits : (∀ j ∈ List.range n, IsInt (client * n) ∧ IsInt (client * n + j)) ↔
      client * n + (n - 1) < 2 ^ 31 := by
    simp only [IsInt]
    constructor
    · intro h
      obtain ⟨-, -, hlt⟩ := h (n - 1) (List.mem_range.mpr (by omega))
      push_cast [Nat.cast_sub hn] at hlt
      zify [hn]
      omega
    · intro hlt j hj
      have hj := List.mem_range.mp hj
      have hcast : (client : ℤ) * n = ((client * n : ℕ) : ℤ) := by push_cast; rfl
      rw [hcast]
      omega
  rw [fillClient, Int.toNat_natCast, mapM_ite, ← hrow]
  simp only [hfits]

theorem fill_eq_some_iff {n : ℕ} (hn : 0 < n) {count : ℕ} {domains : List ℤ} :
    fill n count clients = some domains ↔ count ≤ clients.length ∧
      (∀ c ∈ clients.take count, c * n + (n - 1) < 2 ^ 31) ∧
      (clients.take count).flatMap (row n) = domains := by
  induction count generalizing clients domains with
  | zero => simp [fill]
  | succ count ih =>
    cases clients with
    | nil => simp [fill]
    | cons client it =>
      rw [fill, fillClient_eq hn, List.take_succ_cons, List.forall_mem_cons, List.flatMap_cons]
      split_ifs with hfits
      · rw [Option.bind_some, Option.map_eq_some_iff]
        simp only [ih, List.length_cons, Nat.add_le_add_iff_right, hfits, true_and]
        constructor
        · rintro ⟨rest, ⟨hle, hall, rfl⟩, rfl⟩
          exact ⟨hle, hall, rfl⟩
        · rintro ⟨hle, hall, rfl⟩
          exact ⟨_, ⟨hle, hall, rfl⟩, rfl⟩
      · constructor
        · intro h
          cases h
        · rintro ⟨-, ⟨hfits', -⟩, -⟩
          exact absurd hfits' hfits

/-- Without domains there is nothing to fill in. -/
theorem fill_of_nonpos {b : ℤ} (hb : b ≤ 0) {count : ℕ} {domains : List ℤ}
    (h : fill b count clients = some domains) : domains = [] := by
  induction count generalizing clients domains with
  | zero => exact (Option.some.inj h).symm
  | succ count ih =>
    cases clients with
    | nil => cases h
    | cons client it =>
      have hrow : fillClient b client = some [] := by
        rw [fillClient, Int.toNat_of_nonpos hb]
        rfl
      rw [fill, hrow] at h
      obtain ⟨rest, hrest, rfl⟩ := Option.map_eq_some_iff.mp h
      exact ih hrest

theorem length_flatMap_row (n : ℕ) (cs : List ℕ) : (cs.flatMap (row n)).length = cs.length * n := by
  simp [List.length_flatMap, length_row]

theorem domainsOf_eq :
    domainsOf clients domainsPerClient = clients.flatMap (row domainsPerClient.toNat) := rfl

/-! ## When the lists agree -/

theorem isInt_mul {a b : ℕ} (h : a * b < 2 ^ 31) : IsInt (a * b) := by
  have hcast : (a : ℤ) * b = ((a * b : ℕ) : ℤ) := by push_cast; rfl
  rw [hcast, IsInt]
  omega

theorem domainList_eq_some {v : Allocations} {d : DomainList} {nbr : ℕ}
    (h : domainList v s clients domainsPerClient nbr = some (some d)) :
    IsInt (nbr * domainsPerClient.toInt) ∧ IsInt (countTotalClients s * domainsPerClient.toInt) ∧
      fill domainsPerClient.toInt nbr clients = some d.domains := by
  unfold domainList at h
  split_ifs at h with halloc hcount htotal halloc'
  · obtain ⟨domains, hfill, heq⟩ := Option.map_eq_some_iff.mp h
    cases heq
    exact ⟨hcount, htotal, hfill⟩
  · obtain ⟨domains, -, heq⟩ := Option.map_eq_some_iff.mp h
    cases heq
  · cases h

theorem nbrLocalClients_pos (hs : s.Placed ∨ s.serversPerNode = 0) : 0 < nbrLocalClients s := by
  unfold nbrLocalClients
  split_ifs with hservers
  · have hper := Setup.clients_per_server_pos (hs.resolve_right hservers)
    exact Nat.pos_of_ne_zero fun hzero => by simp [hzero] at hper
  · exact Nat.one_pos

theorem toInt_domainsPerClient (hlt : domainsPerClient.toNat < 2 ^ 31) :
    domainsPerClient.toInt = domainsPerClient.toNat :=
  BitVec.toInt_eq_toNat_of_lt (by omega)

/-- A domain is taken apart into the client and the block that it was made of. -/
theorem exposeDomain_eq (hlt : domainsPerClient.toNat < 2 ^ 31) {M H : Type}
    (search : Name → Option M) (expose : M → ℤ → ℤ → ℤ → H) (iteration : ℤ) (name : Name) (c : ℕ)
    {j : ℕ} (hj : j < domainsPerClient.toNat) :
    exposeDomain domainsPerClient search expose iteration
      ((c * domainsPerClient.toNat + j : ℕ) : ℤ) name =
        (search name).map fun m => expose m c iteration j := by
  have hint := toInt_domainsPerClient hlt
  have hdiv : (c * domainsPerClient.toNat + j) / domainsPerClient.toNat = c := by
    rw [Nat.mul_comm, Nat.mul_add_div (by omega), Nat.div_eq_of_lt hj, Nat.add_zero]
  have hmod : (c * domainsPerClient.toNat + j) % domainsPerClient.toNat = j := by
    rw [Nat.mul_comm, Nat.mul_add_mod, Nat.mod_eq_of_lt hj]
  rw [exposeDomain, hint, ← Int.ofNat_tdiv, ← Int.ofNat_tmod, hdiv, hmod]

/-- A negative number of domains would make an empty list. -/
theorem lt_of_domainList {v : Allocations} {d : DomainList} {nbr : ℕ} (hnbr : 0 < nbr)
    (hn : 0 < domainsPerClient.toNat)
    (h : domainList v s clients domainsPerClient nbr = some (some d))
    (hdomains : d.domains = domainsOf clients domainsPerClient) :
    domainsPerClient.toNat < 2 ^ 31 := by
  obtain ⟨-, -, hfill⟩ := domainList_eq_some h
  by_contra hge
  have hneg : domainsPerClient.toInt ≤ 0 := by
    rw [BitVec.toInt_eq_toNat_cond, if_neg (by omega)]
    have hlt := domainsPerClient.isLt
    omega
  rw [domainsOf_eq, fill_of_nonpos hneg hfill] at hdomains
  have hlen := congrArg List.length hdomains
  rw [List.length_nil, length_flatMap_row] at hlen
  have hnil : clients = [] := List.eq_nil_of_length_eq_zero
    ((Nat.mul_eq_zero.mp hlen.symm).resolve_right (by omega))
  obtain ⟨count, hcount⟩ := Nat.exists_eq_succ_of_ne_zero hnbr.ne'
  rw [hnil, hcount] at hfill
  cases hfill

theorem getDomainList_of_fits {v : Allocations} (hv : v.domainList ∧ v.variableData)
    (hn : 0 < domainsPerClient.toNat) (hlt : domainsPerClient.toNat < 2 ^ 31)
    (hfits : FitsInt s clients domainsPerClient) :
    getDomainList v s clients domainsPerClient =
      some (some ⟨countTotalClients s * domainsPerClient.toInt,
        clients.length * domainsPerClient.toInt,
        clients.flatMap (row domainsPerClient.toNat)⟩) := by
  have hint := toInt_domainsPerClient hlt
  have hfill : fill domainsPerClient.toInt clients.length clients =
      some (clients.flatMap (row domainsPerClient.toNat)) := by
    rw [hint, fill_eq_some_iff hn, List.take_length]
    exact ⟨le_rfl, hfits.domains, rfl⟩
  have hcount : IsInt (clients.length * domainsPerClient.toInt) := hint ▸ isInt_mul hfits.count
  have htotal : IsInt (countTotalClients s * domainsPerClient.toInt) :=
    hint ▸ isInt_mul hfits.total
  rw [getDomainList, domainList, if_neg (not_not.mpr hv.1), if_neg (not_not.mpr hcount),
    if_neg (not_not.mpr htotal), hfill, Option.map_some, if_pos hv.2]

/-- The two lists agree exactly if the server knows as many clients as `ExposeVisItDomainList`
counts, and all domains are `int`. -/
theorem domain_lists_iff {v : Allocations} (hv : v.domainList ∧ v.variableData)
    (hs : s.Placed ∨ s.serversPerNode = 0) (hn : 0 < domainsPerClient.toNat) :
    (∃ d, Agree v s clients domainsPerClient d) ↔
      clients.length = nbrLocalClients s ∧ FitsInt s clients domainsPerClient := by
  have hpos := nbrLocalClients_pos hs
  constructor
  · rintro ⟨d, h⟩
    have hlt := lt_of_domainList hpos hn h.exposed h.domains
    obtain ⟨-, -, hexposed⟩ := domainList_eq_some h.exposed
    obtain ⟨hcount, htotal, hlisted⟩ := domainList_eq_some h.listed
    rw [toInt_domainsPerClient hlt] at hexposed hlisted hcount htotal
    obtain ⟨hle, -, htake⟩ := (fill_eq_some_iff hn).mp hexposed
    obtain ⟨-, hall, -⟩ := (fill_eq_some_iff hn).mp hlisted
    have hlen := congrArg List.length (htake.trans h.domains)
    rw [domainsOf_eq, length_flatMap_row, length_flatMap_row, List.length_take,
      min_eq_left hle] at hlen
    rw [List.take_length] at hall
    refine ⟨(Nat.eq_of_mul_eq_mul_right hn hlen).symm, ?_, ?_, hall⟩
    · exact_mod_cast hcount.2
    · exact_mod_cast htotal.2
  · rintro ⟨hlen, hfits⟩
    have hlt : domainsPerClient.toNat < 2 ^ 31 := by
      have hle := Nat.le_mul_of_pos_left domainsPerClient.toNat (hlen ▸ hpos)
      have hcount := hfits.count
      omega
    have hlist := getDomainList_of_fits hv hn hlt hfits
    refine ⟨_, ?_, hlist, rfl, ?_, ?_, ?_⟩
    · rw [exposeVisItDomainList, ← hlen]
      exact hlist
    · rw [length_flatMap_row, toInt_domainsPerClient hlt]
      push_cast
      rfl
    · intro c _ j hj M H search expose iteration name
      exact exposeDomain_eq hlt search expose iteration name c hj
    · intro c _ j hj V H search expose iteration name
      exact exposeDomain_eq hlt search expose iteration name c hj

/-- One server for a node of three clients, which it all knows. -/
theorem domain_lists_three : ∃ d, Agree ⟨true, true⟩ ⟨1, 4, 0, 1⟩ [0, 1, 2] 2 d :=
  (domain_lists_iff ⟨rfl, rfl⟩ (.inl (by decide)) (by decide)).mpr
    ⟨rfl, by decide, by decide, by decide⟩

/-- Two servers on a node of four clients: each knows two. -/
theorem domain_lists_differ : ¬ ∀ (v : Allocations) (s : Setup) (clients : List ℕ)
    (domainsPerClient : BitVec 32), v.domainList ∧ v.variableData → s.Placed →
    0 < domainsPerClient.toNat → clients.length = s.clientsPerNode / s.serversPerNode →
    FitsInt s clients domainsPerClient → ∃ d, Agree v s clients domainsPerClient d := by
  intro h
  obtain ⟨d, hagree⟩ := h ⟨true, true⟩ ⟨1, 6, 0, 2⟩ [0, 1] 1 ⟨rfl, rfl⟩ (by decide) (by decide) rfl
    ⟨by decide, by decide, by decide⟩
  have hnone : exposeVisItDomainList ⟨true, true⟩ ⟨1, 6, 0, 2⟩ [0, 1] 1 = none := by rfl
  have hexposed := hagree.exposed
  rw [hnone] at hexposed
  cases hexposed

/-- A server that knows all its clients knows as many as `ExposeVisItDomainList` counts only where
it is the only server of the node. -/
theorem length_eq_nbrLocalClients_iff (hs : s.Placed) {q : s.Process} {channels : List s.Channel}
    (hq : Setup.init q = some (.server channels)) (hlen : clients.length = channels.length) :
    clients.length = nbrLocalClients s ↔ s.serversPerNode = 1 := by
  have hpos := Setup.serversPerNode_pos hs
  have hper := Setup.clients_per_server_pos hs
  rw [hlen, ((Setup.init_partition hs).server hq).1, nbrLocalClients, if_pos hpos.ne']
  constructor
  · intro heq
    have hdiv := Nat.div_mul_le_self s.clientsPerNode s.serversPerNode
    rw [heq] at hdiv hper
    exact le_antisymm (Nat.le_of_mul_le_mul_left (by omega) hper) hpos
  · intro hone
    rw [hone, Nat.div_one]

end Damaris.Visit
