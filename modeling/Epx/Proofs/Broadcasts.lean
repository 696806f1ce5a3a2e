import Epx.Io

/-!
# Whom the broadcasts reach

The quorum array starts out zeroed, and `update_quorum` writes to a slot only when the latencies of
two of its entries differ, or, for slot 0, after reading in front of the array. So it stays zeroed.
-/

namespace Epx

/-- The quorum arrays of a node, whatever the connections are when it updates them. -/
inductive Quorum : List ℕ → Prop
  | zero : Quorum (List.replicate N 0)
  | update {quorum quorum' : List ℕ} {ns : List Connection} (h : Quorum quorum)
      (hu : updateQuorum quorum ns = some quorum') : Quorum quorum'

/-- Each other replica once, and the node itself never. -/
def Once (nodeId : ℕ) (targets : List ℕ) : Prop :=
  nodeId ∉ targets ∧ ∀ k < N, k ≠ nodeId → targets.count k = 1

instance (nodeId : ℕ) (targets : List ℕ) : Decidable (Once nodeId targets) :=
  inferInstanceAs (Decidable (_ ∧ _))

/-- Every broadcast reaches each other replica once. -/
structure ReachesPeers (nodeId : ℕ) (quorum : List ℕ) : Prop where
  prepare : Once nodeId (broadcastPrepare nodeId)
  preAccept : Once nodeId (broadcastPreAccept quorum)
  tryPreAccept : Once nodeId broadcastTryPreAccept
  commit : Once nodeId (broadcastCommit quorum)

section Zero

variable {ns : List Connection} {c : Connection}

theorem zeroed_get {qi q : ℕ} (h : (List.replicate N 0)[qi]? = some q) : q = 0 :=
  List.eq_of_mem_replicate (List.mem_of_getElem? h)

/-- No latency is above and below that of one connection. -/
theorem closer_zeroed {qi : ℕ} {b : Bool} (h : closer ns c (List.replicate N 0) qi = some b) :
    b = false := by
  unfold closer at h
  obtain ⟨q, hq, h⟩ := Option.bind_eq_some_iff.1 h
  obtain ⟨i, hi, hiq⟩ := Option.bind_eq_some_iff.1 hq
  rw [zeroed_get hi] at hiq
  split_ifs at h with hlt
  · cases qi with
    | zero => cases h
    | succ qi =>
      obtain ⟨p, hp, rfl⟩ := Option.map_eq_some_iff.1 h
      obtain ⟨j, hj, hp⟩ := Option.bind_eq_some_iff.1 hp
      rw [zeroed_get hj, hiq] at hp
      cases hp
      exact decide_eq_false (by omega)
  · exact (Option.some.inj h).symm

theorem slotLoop_zeroed {qis quorum' : List ℕ}
    (h : slotLoop ns c qis (List.replicate N 0) = some quorum') :
    quorum' = List.replicate N 0 := by
  induction qis with
  | nil => exact (Option.some.inj h).symm
  | cons qi qis ih =>
    obtain ⟨b, hb, h⟩ := Option.bind_eq_some_iff.1 h
    rw [closer_zeroed hb] at h
    exact ih h

theorem quorumLoop_zeroed {cs : List Connection} {quorum' : List ℕ}
    (h : quorumLoop ns cs (List.replicate N 0) = some quorum') : quorum' = List.replicate N 0 := by
  induction cs with
  | nil => exact (Option.some.inj h).symm
  | cons c cs ih =>
    unfold quorumLoop at h
    split_ifs at h with hs
    · exact ih h
    · obtain ⟨q, hq, h⟩ := Option.bind_eq_some_iff.1 h
      rw [slotLoop_zeroed hq] at h
      exact ih h

theorem Quorum.zeroed {quorum : List ℕ} (h : Quorum quorum) : quorum = List.replicate N 0 := by
  induction h with
  | zero => rfl
  | update _ hu ih =>
    rw [ih] at hu
    exact quorumLoop_zeroed hu

end Zero

section Targets

variable {nodeId : ℕ} {quorum : List ℕ}

theorem prepare_once (h : nodeId < N) : Once nodeId (broadcastPrepare nodeId) := by
  revert nodeId
  decide

/-- `broadcast_try_pre_accept` leaves out the last replica. -/
theorem tryPreAccept_once_iff (h : nodeId < N) :
    Once nodeId broadcastTryPreAccept ↔ nodeId = N - 1 := by
  revert nodeId
  decide

/-- `broadcast_pre_accept` enqueues twice at replica 0. -/
theorem preAccept_not_once (h : Quorum quorum) : ¬ Once nodeId (broadcastPreAccept quorum) := by
  rw [h.zeroed]
  rintro ⟨hself, hpeer⟩
  have hn : nodeId ≠ 0 := fun h => hself (by rw [h]; decide)
  exact absurd (hpeer 0 (by decide) hn.symm) (by decide)

/-- `broadcast_commit` enqueues once more than there are peers. -/
theorem commit_not_once (h : Quorum quorum) : ¬ Once nodeId (broadcastCommit quorum) := by
  rw [h.zeroed]
  rintro ⟨hself, hpeer⟩
  have hn : nodeId ≠ 0 := fun h => hself (by rw [h]; decide)
  exact absurd (hpeer 0 (by decide) hn.symm) (by decide)

/-- No node reaches its peers, whatever the connections have been. -/
theorem peers_missed (h : Quorum quorum) : ¬ ReachesPeers nodeId quorum :=
  fun hr => commit_not_once h hr.commit

end Targets

theorem peers_missed_alive : ∃ quorum ns, updateQuorum (List.replicate N 0) ns = some quorum
    ∧ (∀ c ∈ ns, c.status = .alive) ∧ ¬ ReachesPeers 2 quorum := by
  have hu : updateQuorum (List.replicate N 0) [⟨.alive, 0, 0⟩, ⟨.alive, 1, 7⟩, ⟨.alive, 2, 9⟩]
      = some (List.replicate N 0) := by decide
  exact ⟨_, _, hu, by decide, peers_missed (.update .zero hu)⟩

theorem firstNode_misses : ¬ ∀ nodeId quorum, nodeId < N → Quorum quorum →
    ReachesPeers nodeId quorum := by
  intro h
  exact absurd (h 0 _ (by decide) .zero).preAccept (by decide)

/-- The connections `update_quorum` goes through. -/
def Table (ns : List Connection) : Prop :=
  ns.length = N ∧ ((ns.filter fun c => c.status = .alive).map Connection.xreplicaId).Nodup
    ∧ ∀ c ∈ ns, c.status = .alive → c.xreplicaId < N

/-- `update_quorum` stays within its arrays, and leaves distinct replicas, the connected ones from
the nearest on. -/
def KeepsQuorum (ns : List Connection) (quorum : List ℕ) : Prop :=
  ∃ quorum', updateQuorum quorum ns = some quorum' ∧ quorum'.Nodup ∧ (∀ k ∈ quorum', k < N)
    ∧ quorum'.Pairwise fun j k => ∀ c ∈ ns, ∀ d ∈ ns, c.status = .alive → c.xreplicaId = j →
      d.status = .alive → d.xreplicaId = k → c.latency ≤ d.latency

section Keeps

variable {ns : List Connection} {quorum : List ℕ}

/-- The slots after the first are not written while the array is zeroed. -/
theorem slotLoop_zeroed_of_le {c z : Connection} {qis : List ℕ} (hz : ns[0]? = some z)
    (hc : z.latency ≤ c.latency) (hq : ∀ qi ∈ qis, qi < N) :
    slotLoop ns c qis (List.replicate N 0) = some (List.replicate N 0) := by
  induction qis with
  | nil => rfl
  | cons qi qis ih =>
    rw [List.forall_mem_cons] at hq
    have hb : closer ns c (List.replicate N 0) qi = some false := by
      have hqi : (List.replicate N 0)[qi]? = some 0 := by
        rw [List.getElem?_replicate, if_pos hq.1]
      unfold closer
      rw [hqi, Option.bind_some, hz, Option.bind_some, if_neg (not_lt.2 hc)]
    unfold slotLoop
    rw [hb]
    exact ih hq.2

/-- Slot 0 is compared with what is in front of the array. -/
theorem slotLoop_zeroed_of_lt {c z : Connection} (hz : ns[0]? = some z)
    (hc : c.latency < z.latency) : slotLoop ns c (List.range N) (List.replicate N 0) = none := by
  have hb : closer ns c (List.replicate N 0) 0 = none := by
    unfold closer
    rw [show (List.replicate N 0)[0]? = some 0 from rfl, Option.bind_some, hz, Option.bind_some,
      if_pos hc]
  rw [show List.range N = 0 :: [1, 2] from rfl, slotLoop, hb]
  rfl

/-- `update_quorum` leaves the array zeroed, or reads in front of it where a connected replica is
nearer than the first. -/
theorem updateQuorum_zeroed {z : Connection} (hz : ns[0]? = some z) :
    updateQuorum (List.replicate N 0) ns =
      if ∃ c ∈ ns.take N, c.status = .alive ∧ c.latency < z.latency then none
      else some (List.replicate N 0) := by
  unfold updateQuorum
  induction ns.take N with
  | nil => rfl
  | cons c cs ih =>
    rw [quorumLoop]
    simp only [List.exists_mem_cons_iff]
    by_cases hs : c.status = .alive
    · rw [if_neg (not_not.2 hs)]
      by_cases hc : c.latency < z.latency
      · rw [slotLoop_zeroed_of_lt hz hc, if_pos (.inl ⟨hs, hc⟩)]
        rfl
      · rw [slotLoop_zeroed_of_le hz (not_lt.1 hc) fun qi hq => List.mem_range.1 hq,
          Option.bind_some, ih]
        simp only [hc, and_false, false_or]
    · rw [if_pos hs, ih]
      simp only [hs, false_and, false_or]

/-- No call keeps a valid quorum: the array it leaves is the zeroed one. -/
theorem quorum_not_kept (h : Quorum quorum) : ¬ KeepsQuorum ns quorum := by
  rintro ⟨quorum', hu, hd, -, -⟩
  rw [(Quorum.update h hu).zeroed] at hd
  exact absurd hd (by decide)

end Keeps

/-- Replica 1 farther away than replica 0: nothing is read in front of the array, or written. -/
theorem quorum_not_kept_near :
    ¬ KeepsQuorum [⟨.alive, 0, 5⟩, ⟨.alive, 1, 7⟩, ⟨.dead, 0, 0⟩] (List.replicate N 0) :=
  quorum_not_kept .zero

/-- With replica 1 nearer than replica 0, `update_quorum` reads in front of the array. -/
theorem quorum_read_in_front :
    updateQuorum (List.replicate N 0) [⟨.alive, 0, 9⟩, ⟨.alive, 1, 7⟩, ⟨.alive, 2, 8⟩] = none
      ∧ ¬ ∀ ns quorum, Table ns → Quorum quorum → KeepsQuorum ns quorum := by
  refine ⟨by decide, fun h => ?_⟩
  obtain ⟨quorum', hu, -⟩ := h [⟨.alive, 0, 9⟩, ⟨.alive, 1, 7⟩, ⟨.alive, 2, 8⟩] _
    ⟨rfl, by decide, by decide⟩ .zero
  have hn : updateQuorum (List.replicate N 0)
      [⟨.alive, 0, 9⟩, ⟨.alive, 1, 7⟩, ⟨.alive, 2, 8⟩] = none := by decide
  rw [hn] at hu
  cases hu

end Epx
