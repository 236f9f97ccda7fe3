import Mathlib.Tactic
import Mathlib.Logic.Equiv.Fin.Basic

/-!
# Clients and servers

`Environment::Init` decides from a process's rank whether it is a client or a server, and opens
its channels: a client one to its server, a server one to each of its clients. The two sides
compute the mapping apart, in the communicator of the node where cores are dedicated and in the
global one, ordered by node, where nodes are. Sizes and ranks fit an `int`; a difference that is not
positive in the source is 0 here.
-/
namespace Damaris.Env

/-- The machine, and `architecture().dedicated()` of the model. -/
structure Setup where
  numberOfNodes : ℕ
  coresPerNode : ℕ
  nodes : ℕ
  cores : ℕ

namespace Setup

/-- A process, by its node and its rank in `_nodeComm_`. -/
structure Process (s : Setup) where
  node : Fin s.numberOfNodes
  rankInNode : Fin s.coresPerNode
  deriving DecidableEq

inductive Communicator (s : Setup)
  | nodeComm (node : Fin s.numberOfNodes)
  | globalComm

variable {s : Setup}

/-- The rank in `_globalComm_`, whose ranks are ordered by node. -/
def Process.rank (p : s.Process) : ℕ := p.node * s.coresPerNode + p.rankInNode

theorem Process.rank_lt (p : s.Process) : p.rank < s.numberOfNodes * s.coresPerNode := by
  have hnode := Nat.mul_le_mul_right s.coresPerNode p.node.isLt
  have hcore := p.rankInNode.isLt
  rw [Nat.succ_mul] at hnode
  rw [rank]
  omega

namespace Communicator

def size : s.Communicator → ℕ
  | nodeComm _ => s.coresPerNode
  | globalComm => s.numberOfNodes * s.coresPerNode

/-- The process of a rank. -/
def process : (c : s.Communicator) → (r : ℕ) → r < c.size → s.Process
  | nodeComm node, r, h => ⟨node, r, h⟩
  | globalComm, r, h =>
    have hcore : 0 < s.coresPerNode := Nat.pos_of_ne_zero fun h0 => by simp [size, h0] at h
    ⟨⟨r / s.coresPerNode, (Nat.div_lt_iff_lt_mul hcore).mpr h⟩,
      ⟨r % s.coresPerNode, Nat.mod_lt r hcore⟩⟩

theorem process_nodeComm {node : Fin s.numberOfNodes} {r : ℕ} (h : r < (nodeComm node).size)
    (p : s.Process) : (nodeComm node).process r h = p ↔ p.node = node ∧ r = p.rankInNode := by
  obtain ⟨i, j⟩ := p
  simp only [process, Process.mk.injEq, Fin.ext_iff]
  exact and_congr_left fun _ => eq_comm

theorem process_globalComm {r : ℕ} (h : r < (globalComm (s := s)).size) (p : s.Process) :
    globalComm.process r h = p ↔ r = p.rank := by
  obtain ⟨i, j⟩ := p
  have hcore : 0 < s.coresPerNode := Nat.zero_lt_of_lt j.isLt
  simp only [process, Process.mk.injEq, Process.rank, Fin.ext_iff]
  constructor
  · rintro ⟨hdiv, hmod⟩
    rw [← hdiv, ← hmod]
    exact (Nat.div_add_mod' _ _).symm
  · rintro rfl
    rw [Nat.mul_comm]
    refine ⟨?_, ?_⟩
    · rw [Nat.mul_add_div hcore, Nat.div_eq_of_lt j.isLt, Nat.add_zero]
    · rw [Nat.mul_add_mod, Nat.mod_eq_of_lt j.isLt]

end Communicator

/-- A channel, which `Channel::New` opens to a rank of the communicator only. -/
structure Channel (s : Setup) where
  comm : s.Communicator
  endpoint : ℕ
  endpoint_lt : endpoint < comm.size

namespace Channel

/-- `Channel::New`. -/
def new (comm : s.Communicator) (endpoint : ℕ) : Option s.Channel :=
  if h : endpoint < comm.size then some ⟨comm, endpoint, h⟩ else none

/-- The process at the other end. -/
def remote (ch : s.Channel) : s.Process := ch.comm.process ch.endpoint ch.endpoint_lt

end Channel

/-- What a process has opened. -/
inductive Role (s : Setup)
  | client (channel2server : Option s.Channel)
  | server (clients : List s.Channel)
  | standalone

/-- `Server::AddChannelToClient`, which reads the endpoint before it tests the channel. -/
def addChannelToClient (clients : List s.Channel) (ch : Option s.Channel) :
    Option (List s.Channel) :=
  ch.map fun ch =>
    if clients.any fun c => c.endpoint == ch.endpoint then clients else clients ++ [ch]

/-- The loop of a server over the clients that it computes. -/
def addChannels (comm : s.Communicator) (cID : ℕ → ℕ) (count : ℕ) : Option (List s.Channel) :=
  (List.range count).foldlM
    (fun clients k => addChannelToClient clients (Channel.new comm (cID k))) []

/-- `Environment::InitDedicatedCores`; `none` is `MPI_Abort`. -/
def initDedicatedCores (p : s.Process) : Option s.Role :=
  let dcpn := s.cores
  let clientsPerNode := s.coresPerNode - dcpn
  if clientsPerNode = 0 then none
  else if clientsPerNode % dcpn ≠ 0 then none
  else if p.rankInNode < clientsPerNode then
    let servID := clientsPerNode + p.rankInNode / (clientsPerNode / dcpn)
    some (.client (Channel.new (.nodeComm p.node) servID))
  else
    (addChannels (.nodeComm p.node)
      (fun k => (p.rankInNode - clientsPerNode) * (clientsPerNode / dcpn) + k)
      (clientsPerNode / dcpn)).map .server

/-- `Environment::InitDedicatedNodes`; `none` is `MPI_Abort`. -/
def initDedicatedNodes (p : s.Process) : Option s.Role :=
  let dn := s.nodes
  let ratio := (s.numberOfNodes - dn) / dn
  if s.numberOfNodes - dn = 0 then none
  else if (s.numberOfNodes - dn) % dn ≠ 0 then none
  else if p.rank ≥ dn * s.coresPerNode then
    let servID := (p.rank - dn * s.coresPerNode) / ratio
    some (.client (Channel.new .globalComm servID))
  else
    (addChannels .globalComm (fun k => p.rank * ratio + k + dn * s.coresPerNode) ratio).map .server

/-- The end of `Environment::Init`. -/
def init (p : s.Process) : Option s.Role :=
  if 0 < s.nodes then initDedicatedNodes p
  else if 0 < s.cores then initDedicatedCores p
  else some .standalone

/-- `ClientsPerNode()` with servers: where nodes are dedicated it counts nodes. -/
def clientsPerNode (s : Setup) : ℕ :=
  if 0 < s.nodes then s.numberOfNodes - s.nodes else s.coresPerNode - s.cores

/-- `_serversPerNode_`. -/
def serversPerNode (s : Setup) : ℕ := if 0 < s.nodes then s.nodes else s.cores

/-- `_lastIteration_`, and the static counter of `StartNextIteration`. -/
structure Iterations where
  lastIteration : ℕ
  locks : ℕ

/-- `Environment::StartNextIteration` once initialised; `isClient` is `IsClient()`. -/
def startNextIteration (s : Setup) (isClient : Bool) (it : Iterations) : Iterations × Bool :=
  if s.serversPerNode = 0 ∨ isClient then ({ it with lastIteration := it.lastIteration + 1 }, true)
  else if it.locks + 1 = s.clientsPerNode / s.serversPerNode then
    (⟨it.lastIteration + 1, 0⟩, true)
  else ({ it with locks := it.locks + 1 }, false)

/-- A mapping of clients to servers: a client opens a channel to one server and stands once in that
server's list and in no other, every rank that is computed exists and has the role it is taken
for, and every server has `perServer` clients. -/
structure Partition (init : s.Process → Option s.Role) (perServer : ℕ) : Prop where
  role : ∀ p, (∃ ch, init p = some (.client (some ch))) ∨ ∃ clients, init p = some (.server clients)
  client : ∀ {p ch}, init p = some (.client (some ch)) →
    ∃ clients, init ch.remote = some (.server clients)
  server : ∀ {q clients}, init q = some (.server clients) → clients.length = perServer ∧
    ∀ c ∈ clients, ∃ ch, init c.remote = some (.client (some ch))
  count : ∀ {p ch q clients}, init p = some (.client (some ch)) →
    init q = some (.server clients) →
    (clients.map Channel.remote).count p = if ch.remote = q then 1 else 0

theorem addChannels_eq {comm : s.Communicator} {cID : ℕ → ℕ} (hinj : Function.Injective cID) :
    ∀ count, (∀ k < count, cID k < comm.size) → ∃ clients, addChannels comm cID count = some clients ∧
      (∀ ch ∈ clients, ch.comm = comm) ∧
      clients.map Channel.endpoint = (List.range count).map cID := by
  intro count
  induction count with
  | zero => exact fun _ => ⟨[], rfl, by simp, rfl⟩
  | succ n ih =>
    intro hlt
    obtain ⟨clients, heq, hcomm, hends⟩ := ih fun k hk => hlt k (hk.trans n.lt_succ_self)
    let ch : s.Channel := ⟨comm, cID n, hlt n n.lt_succ_self⟩
    have hnew : Channel.new comm (cID n) = some ch := dif_pos (hlt n n.lt_succ_self)
    have hfresh : ∀ c ∈ clients, ¬ c.endpoint = ch.endpoint := by
      intro c hc heq
      have hmem : c.endpoint ∈ (List.range n).map cID := hends ▸ List.mem_map_of_mem hc
      obtain ⟨k, hk, hck⟩ := List.mem_map.mp hmem
      have hkn : k = n := hinj (hck.trans heq)
      exact absurd (List.mem_range.mp hk) (by omega)
    refine ⟨clients ++ [ch], ?_, ?_, ?_⟩
    · rw [addChannels] at heq ⊢
      rw [List.range_succ, List.foldlM_append, heq]
      simpa [addChannelToClient, hnew] using hfresh
    · intro c hc
      obtain hc | hc := List.mem_append.mp hc
      · exact hcomm c hc
      · rw [List.mem_singleton.mp hc]
    · rw [List.map_append, hends, List.range_succ, List.map_append]
      rfl

theorem count_block {per base i : ℕ} (hper : 0 < per) (hbase : base ≤ i) (j : ℕ) :
    ((List.range per).map fun k => base + (j * per + k)).count i =
      if (i - base) / per = j then 1 else 0 := by
  have hnodup : ((List.range per).map fun k => base + (j * per + k)).Nodup :=
    List.nodup_range.map fun a b hab => by simpa using hab
  rw [hnodup.count]
  refine if_congr ?_ rfl rfl
  rw [List.mem_map, Nat.div_eq_iff hper]
  constructor
  · rintro ⟨k, hk, rfl⟩
    have hk := List.mem_range.mp hk
    exact ⟨by omega, by omega⟩
  · rintro ⟨hlow, hhigh⟩
    exact ⟨i - base - j * per, List.mem_range.mpr (by omega), by omega⟩

/-- Ranks of a communicator in which each of `servers` servers has `per` clients: the clients stand
from `clientBase` on, block by block, and the servers from `serverBase` on. -/
structure Blocks (s : Setup) where
  comm : s.Process → s.Communicator
  rank : s.Process → ℕ
  clientBase : ℕ
  serverBase : ℕ
  per : ℕ
  servers : ℕ
  per_pos : 0 < per
  process_eq : ∀ q e h p, (comm q).process e h = p ↔ comm p = comm q ∧ e = rank p
  cover : ∀ p, ¬ (clientBase ≤ rank p ∧ rank p < clientBase + servers * per) ↔
    serverBase ≤ rank p ∧ rank p < serverBase + servers
  client_lt : ∀ q, clientBase + servers * per ≤ (comm q).size
  server_lt : ∀ q, serverBase + servers ≤ (comm q).size

namespace Blocks

variable (b : Blocks s)

def IsClient (p : s.Process) : Prop :=
  b.clientBase ≤ b.rank p ∧ b.rank p < b.clientBase + b.servers * b.per

instance (p : s.Process) : Decidable (b.IsClient p) := inferInstanceAs (Decidable (_ ∧ _))

/-- The channels of a process in such a communicator. -/
def init (p : s.Process) : Option s.Role :=
  if b.IsClient p then
    some (.client (Channel.new (b.comm p) (b.serverBase + (b.rank p - b.clientBase) / b.per)))
  else
    (addChannels (b.comm p) (fun k => b.clientBase + ((b.rank p - b.serverBase) * b.per + k))
      b.per).map .server

variable {b}

/-- Which of the channels lead to a process. -/
theorem remote_eq_iff {q : s.Process} {c : s.Channel} (hc : c.comm = b.comm q) (p : s.Process) :
    c.remote = p ↔ b.comm p = b.comm q ∧ c.endpoint = b.rank p := by
  obtain ⟨comm, endpoint, hlt⟩ := c
  obtain rfl : comm = b.comm q := hc
  exact b.process_eq q endpoint hlt p

theorem index_lt {p : s.Process} (hp : b.IsClient p) :
    (b.rank p - b.clientBase) / b.per < b.servers := by
  obtain ⟨hlow, hhigh⟩ := hp
  exact (Nat.div_lt_iff_lt_mul b.per_pos).mpr (by omega)

theorem cID_lt {q : s.Process} (hq : ¬ b.IsClient q) {k : ℕ} (hk : k < b.per) :
    (b.rank q - b.serverBase) * b.per + k < b.servers * b.per := by
  obtain ⟨hlow, hhigh⟩ := (b.cover q).mp hq
  have hmul : (b.rank q - b.serverBase + 1) * b.per ≤ b.servers * b.per :=
    Nat.mul_le_mul_right b.per (by omega)
  rw [Nat.succ_mul] at hmul
  omega

/-- The channel of a client. -/
theorem init_client {p : s.Process} (hp : b.IsClient p) :
    ∃ ch, b.init p = some (.client (some ch)) ∧
      ∀ q, ch.remote = q ↔ b.comm q = b.comm p ∧
        b.serverBase + (b.rank p - b.clientBase) / b.per = b.rank q := by
  have hlt : b.serverBase + (b.rank p - b.clientBase) / b.per < (b.comm p).size := by
    have hindex := index_lt hp
    have hsize := b.server_lt p
    omega
  refine ⟨⟨_, _, hlt⟩, ?_, fun q => b.process_eq p _ hlt q⟩
  rw [init, if_pos hp, Channel.new, dif_pos hlt]

/-- The channels of a server. -/
theorem init_server {q : s.Process} (hq : ¬ b.IsClient q) :
    ∃ clients, b.init q = some (.server clients) ∧ (∀ ch ∈ clients, ch.comm = b.comm q) ∧
      clients.map Channel.endpoint = (List.range b.per).map
        fun k => b.clientBase + ((b.rank q - b.serverBase) * b.per + k) := by
  have hinj : Function.Injective fun k => b.clientBase + ((b.rank q - b.serverBase) * b.per + k) :=
    fun i j hij => by simpa using hij
  have hlt : ∀ k < b.per,
      b.clientBase + ((b.rank q - b.serverBase) * b.per + k) < (b.comm q).size := by
    intro k hk
    have hcID := cID_lt hq hk
    have hsize := b.client_lt q
    omega
  obtain ⟨clients, heq, hrest⟩ := addChannels_eq hinj b.per hlt
  refine ⟨clients, ?_, hrest⟩
  rw [init, if_neg hq, heq, Option.map_some]

theorem isClient_of_init {p : s.Process} {ch : Option s.Channel} (h : b.init p = some (.client ch)) :
    b.IsClient p := by
  by_contra hp
  obtain ⟨clients, heq, -, -⟩ := init_server hp
  rw [heq] at h
  cases h

theorem not_isClient_of_init {q : s.Process} {clients : List s.Channel}
    (h : b.init q = some (.server clients)) : ¬ b.IsClient q := by
  intro hq
  obtain ⟨ch, heq, -⟩ := init_client hq
  rw [heq] at h
  cases h

theorem client_of_init {p : s.Process} {ch : s.Channel} (h : b.init p = some (.client (some ch))) :
    b.IsClient p ∧ ∀ q, ch.remote = q ↔ b.comm q = b.comm p ∧
      b.serverBase + (b.rank p - b.clientBase) / b.per = b.rank q := by
  have hp := isClient_of_init h
  obtain ⟨ch', heq, hremote⟩ := init_client hp
  rw [h] at heq
  cases heq
  exact ⟨hp, hremote⟩

theorem server_of_init {q : s.Process} {clients : List s.Channel}
    (h : b.init q = some (.server clients)) : ¬ b.IsClient q ∧
      (∀ ch ∈ clients, ch.comm = b.comm q) ∧
        clients.map Channel.endpoint = (List.range b.per).map
          fun k => b.clientBase + ((b.rank q - b.serverBase) * b.per + k) := by
  have hq := not_isClient_of_init h
  obtain ⟨clients', heq, hrest⟩ := init_server hq
  rw [h] at heq
  cases heq
  exact ⟨hq, hrest⟩

theorem count_remote {p q : s.Process} {clients : List s.Channel}
    (hcomm : ∀ c ∈ clients, c.comm = b.comm q) (hsame : b.comm p = b.comm q) :
    (clients.map Channel.remote).count p = (clients.map Channel.endpoint).count (b.rank p) := by
  rw [List.count_eq_countP, List.count_eq_countP, List.countP_map, List.countP_map]
  refine List.countP_congr fun c hc => ?_
  simp only [Function.comp_apply, beq_iff_eq]
  exact (remote_eq_iff (hcomm c hc) p).trans (and_iff_right hsame)

/-- A server has a channel to each client whose channel leads to it, and to no other process. -/
theorem count_of_init {p q : s.Process} {ch : s.Channel} {clients : List s.Channel}
    (hclient : b.init p = some (.client (some ch))) (hserver : b.init q = some (.server clients)) :
    (clients.map Channel.remote).count p = if ch.remote = q then 1 else 0 := by
  obtain ⟨hp, hremote⟩ := client_of_init hclient
  obtain ⟨hq, hcomm, hends⟩ := server_of_init hserver
  obtain ⟨hbase, -⟩ := (b.cover q).mp hq
  by_cases hsame : b.comm p = b.comm q
  · rw [count_remote hcomm hsame, hends, count_block b.per_pos hp.1]
    refine if_congr ?_ rfl rfl
    rw [hremote q]
    generalize (b.rank p - b.clientBase) / b.per = index
    constructor
    · rintro rfl
      exact ⟨hsame.symm, by omega⟩
    · rintro ⟨-, hrank⟩
      omega
  · rw [if_neg fun he => hsame ((hremote q).mp he).1.symm, List.count_eq_zero]
    intro hmem
    obtain ⟨c, hc, hcp⟩ := List.mem_map.mp hmem
    exact hsame ((remote_eq_iff (hcomm c hc) p).mp hcp).1

theorem partition (b : Blocks s) : Partition b.init b.per where
  role p := by
    by_cases hp : b.IsClient p
    · obtain ⟨ch, heq, -⟩ := init_client hp
      exact .inl ⟨ch, heq⟩
    · obtain ⟨clients, heq, -, -⟩ := init_server hp
      exact .inr ⟨clients, heq⟩
  client {p ch} hinit := by
    obtain ⟨hp, hremote⟩ := client_of_init hinit
    obtain ⟨-, hrank⟩ := (hremote ch.remote).mp rfl
    have hindex := index_lt hp
    have hq : ¬ b.IsClient ch.remote := by
      rw [IsClient, b.cover, ← hrank]
      exact ⟨Nat.le_add_right _ _, Nat.add_lt_add_left hindex _⟩
    obtain ⟨clients, heq, -, -⟩ := init_server hq
    exact ⟨clients, heq⟩
  server {q clients} hinit := by
    obtain ⟨hq, hcomm, hends⟩ := server_of_init hinit
    refine ⟨by simpa using congrArg List.length hends, fun c hc => ?_⟩
    have hmem := hends ▸ List.mem_map_of_mem (f := Channel.endpoint) hc
    obtain ⟨k, hk, hend⟩ := List.mem_map.mp hmem
    have hcID := cID_lt hq (List.mem_range.mp hk)
    have hrank := ((remote_eq_iff (hcomm c hc) c.remote).mp rfl).2
    have hp : b.IsClient c.remote := by
      rw [IsClient, ← hrank]
      omega
    obtain ⟨ch, heq, -⟩ := init_client hp
    exact ⟨ch, heq⟩
  count := count_of_init

end Blocks

/-- The nodes' own communicators, where cores are dedicated. -/
def coresBlocks (s : Setup) (hpos : 0 < s.cores) (hlt : s.cores < s.coresPerNode)
    (hdvd : s.cores ∣ s.coresPerNode - s.cores) : Blocks s where
  comm p := .nodeComm p.node
  rank p := p.rankInNode
  clientBase := 0
  serverBase := s.coresPerNode - s.cores
  per := (s.coresPerNode - s.cores) / s.cores
  servers := s.cores
  per_pos := Nat.div_pos (Nat.le_of_dvd (Nat.sub_pos_of_lt hlt) hdvd) hpos
  process_eq q e h p := by
    rw [Communicator.process_nodeComm h p, Communicator.nodeComm.injEq]
  cover p := by
    rw [Nat.mul_div_cancel' hdvd]
    have hrank := p.rankInNode.isLt
    omega
  client_lt q := by
    rw [Nat.mul_div_cancel' hdvd, Nat.zero_add]
    exact Nat.sub_le _ _
  server_lt q := (Nat.sub_add_cancel hlt.le).le

theorem initDedicatedCores_eq {hpos : 0 < s.cores} {hlt : s.cores < s.coresPerNode}
    {hdvd : s.cores ∣ s.coresPerNode - s.cores} :
    initDedicatedCores = (s.coresBlocks hpos hlt hdvd).init := by
  funext p
  have hclients : s.coresPerNode - s.cores ≠ 0 := (Nat.sub_pos_of_lt hlt).ne'
  have hisClient : (s.coresBlocks hpos hlt hdvd).IsClient p ↔
      p.rankInNode < s.coresPerNode - s.cores := by
    simp only [Blocks.IsClient, coresBlocks, Nat.mul_div_cancel' hdvd]
    omega
  simp only [initDedicatedCores, Blocks.init, if_neg hclients,
    if_neg (not_not.mpr (Nat.mod_eq_zero_of_dvd hdvd)), hisClient]
  simp only [coresBlocks, Nat.sub_zero, Nat.zero_add]

theorem clientRanks_eq (hlt : s.nodes < s.numberOfNodes)
    (hdvd : s.nodes ∣ s.numberOfNodes - s.nodes) :
    s.nodes * s.coresPerNode +
      s.nodes * s.coresPerNode * ((s.numberOfNodes - s.nodes) / s.nodes) =
      s.numberOfNodes * s.coresPerNode := by
  rw [Nat.mul_right_comm, Nat.mul_div_cancel' hdvd, ← Nat.add_mul, Nat.add_sub_cancel' hlt.le]

/-- The ordered global communicator, where nodes are dedicated: the servers come first. -/
def nodesBlocks (s : Setup) (hpos : 0 < s.nodes) (hlt : s.nodes < s.numberOfNodes)
    (hdvd : s.nodes ∣ s.numberOfNodes - s.nodes) : Blocks s where
  comm _ := .globalComm
  rank p := p.rank
  clientBase := s.nodes * s.coresPerNode
  serverBase := 0
  per := (s.numberOfNodes - s.nodes) / s.nodes
  servers := s.nodes * s.coresPerNode
  per_pos := Nat.div_pos (Nat.le_of_dvd (Nat.sub_pos_of_lt hlt) hdvd) hpos
  process_eq q e h p := by
    rw [Communicator.process_globalComm h p, and_iff_right rfl]
  cover p := by
    have hrank := p.rank_lt
    have hall := clientRanks_eq hlt hdvd
    omega
  client_lt q := (clientRanks_eq hlt hdvd).le
  server_lt q := by
    rw [Nat.zero_add]
    exact Nat.mul_le_mul_right _ hlt.le

theorem initDedicatedNodes_eq {hpos : 0 < s.nodes} {hlt : s.nodes < s.numberOfNodes}
    {hdvd : s.nodes ∣ s.numberOfNodes - s.nodes} :
    initDedicatedNodes = (s.nodesBlocks hpos hlt hdvd).init := by
  funext p
  have hclients : s.numberOfNodes - s.nodes ≠ 0 := (Nat.sub_pos_of_lt hlt).ne'
  have hisClient : (s.nodesBlocks hpos hlt hdvd).IsClient p ↔
      p.rank ≥ s.nodes * s.coresPerNode := by
    have hrank := p.rank_lt
    have hall := clientRanks_eq hlt hdvd
    simp only [Blocks.IsClient, nodesBlocks]
    omega
  have hcID : ∀ ratio k, p.rank * ratio + k + s.nodes * s.coresPerNode =
      s.nodes * s.coresPerNode + (p.rank * ratio + k) := fun ratio k => Nat.add_comm _ _
  simp only [initDedicatedNodes, Blocks.init, if_neg hclients,
    if_neg (not_not.mpr (Nat.mod_eq_zero_of_dvd hdvd)), hisClient]
  simp only [nodesBlocks, Nat.sub_zero, Nat.zero_add, hcID]

/-- What the two initialisations ask for, that no process aborts: the dedicated cores, or else the
dedicated nodes, leave some for the clients and divide these. -/
def Placed (s : Setup) : Prop :=
  if 0 < s.nodes then s.nodes < s.numberOfNodes ∧ s.nodes ∣ s.numberOfNodes - s.nodes
  else 0 < s.cores ∧ s.cores < s.coresPerNode ∧ s.cores ∣ s.coresPerNode - s.cores

instance : DecidablePred Placed := fun s => by
  unfold Placed
  infer_instance

theorem serversPerNode_pos (h : s.Placed) : 0 < s.serversPerNode := by
  by_cases hnodes : 0 < s.nodes
  · rwa [serversPerNode, if_pos hnodes]
  · rw [Placed, if_neg hnodes] at h
    rw [serversPerNode, if_neg hnodes]
    exact h.1

theorem clients_per_server_pos (h : s.Placed) : 0 < s.clientsPerNode / s.serversPerNode := by
  refine Nat.div_pos ?_ (serversPerNode_pos h)
  by_cases hnodes : 0 < s.nodes
  · rw [Placed, if_pos hnodes] at h
    rw [clientsPerNode, serversPerNode, if_pos hnodes, if_pos hnodes]
    exact Nat.le_of_dvd (Nat.sub_pos_of_lt h.1) h.2
  · rw [Placed, if_neg hnodes] at h
    rw [clientsPerNode, serversPerNode, if_neg hnodes, if_neg hnodes]
    exact Nat.le_of_dvd (Nat.sub_pos_of_lt h.2.1) h.2.2

theorem init_partition (h : s.Placed) :
    Partition (init (s := s)) (s.clientsPerNode / s.serversPerNode) := by
  by_cases hnodes : 0 < s.nodes
  · rw [Placed, if_pos hnodes] at h
    obtain ⟨hlt, hdvd⟩ := h
    have hinit : init (s := s) = (s.nodesBlocks hnodes hlt hdvd).init := by
      rw [← initDedicatedNodes_eq]
      funext p
      exact if_pos hnodes
    rw [hinit, clientsPerNode, serversPerNode, if_pos hnodes, if_pos hnodes]
    exact (s.nodesBlocks hnodes hlt hdvd).partition
  · rw [Placed, if_neg hnodes] at h
    obtain ⟨hpos, hlt, hdvd⟩ := h
    have hinit : init (s := s) = (s.coresBlocks hpos hlt hdvd).init := by
      rw [← initDedicatedCores_eq]
      funext p
      rw [init, if_neg hnodes, if_pos hpos]
    rw [hinit, clientsPerNode, serversPerNode, if_neg hnodes, if_neg hnodes]
    exact (s.coresBlocks hpos hlt hdvd).partition

/-- One call of `StartNextIteration` on a server. -/
theorem startNextIteration_server (h : s.Placed) {last n : ℕ} :
    (s.startNextIteration false ⟨last + n / (s.clientsPerNode / s.serversPerNode),
      n % (s.clientsPerNode / s.serversPerNode)⟩).1 =
      ⟨last + (n + 1) / (s.clientsPerNode / s.serversPerNode),
        (n + 1) % (s.clientsPerNode / s.serversPerNode)⟩ := by
  have hserver : ¬ (s.serversPerNode = 0 ∨ false = true) := by
    have hpos := serversPerNode_pos h
    simp only [Bool.false_eq_true, or_false]
    omega
  have hpos := clients_per_server_pos h
  simp only [startNextIteration, if_neg hserver]
  generalize s.clientsPerNode / s.serversPerNode = waits at hpos ⊢
  have hn : n + 1 = waits * (n / waits) + (n % waits + 1) := by
    have hdivmod := Nat.div_add_mod n waits
    omega
  have hlt := Nat.mod_lt n hpos
  rw [hn, Nat.mul_add_div hpos, Nat.mul_add_mod]
  by_cases hlast : n % waits + 1 = waits
  · rw [if_pos hlast, hlast, Nat.div_self hpos, Nat.mod_self, Nat.add_assoc]
  · have hnext : n % waits + 1 < waits := by omega
    rw [if_neg hlast, Nat.div_eq_of_lt hnext, Nat.mod_eq_of_lt hnext]
    rfl

theorem startNextIteration_iterate (h : s.Placed) (last n : ℕ) :
    (fun it => (s.startNextIteration false it).1)^[n] ⟨last, 0⟩ =
      ⟨last + n / (s.clientsPerNode / s.serversPerNode),
        n % (s.clientsPerNode / s.serversPerNode)⟩ := by
  induction n with
  | zero => simp
  | succ n ih =>
    rw [Function.iterate_succ_apply', ih]
    exact startNextIteration_server h

theorem clients_partition (s : Setup) (h : s.Placed) :
    Partition (init (s := s)) (s.clientsPerNode / s.serversPerNode) ∧
      ∀ q clients, init (s := s) q = some (.server clients) → ∀ last n,
        (fun it => (s.startNextIteration false it).1)^[n] ⟨last, 0⟩ =
          ⟨last + n / clients.length, n % clients.length⟩ := by
  have hpartition := init_partition h
  refine ⟨hpartition, fun q clients hq last n => ?_⟩
  rw [(hpartition.server hq).1]
  exact startNextIteration_iterate h last n

/-- Two nodes of eight cores, two of which are dedicated. -/
theorem clients_partition_two : Placed ⟨2, 8, 0, 2⟩ ∧
    Partition (init (s := ⟨2, 8, 0, 2⟩)) 3 :=
  ⟨by decide, (clients_partition ⟨2, 8, 0, 2⟩ (by decide)).1⟩

end Setup

end Damaris.Env
