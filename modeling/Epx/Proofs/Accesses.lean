import Epx.Access
import Epx.Proofs.Acts
import Epx.Proofs.Broadcasts
import Epx.Proofs.Schedules

/-!
# The accesses of `step` that can be out of range

Every entry `step` touches has a number below `N` but for four: the replica id of the message, the
sender where it is answered, the sender where a nack to `TRY_PRE_ACCEPT` is marked, and the replica
`deferred` gives for the message.
-/

namespace Epx

variable {T : RangeTree} {r : Replica} {i : Instance} {m : Message}

/-- Each instance is in the index of its key, under its key. -/
def Replica.Keyed (r : Replica) : Prop := ∀ id i, r.find id = some i → i.key = id

theorem Replica.Keyed.copy (h : r.Keyed) (id : InstanceId) : (r.copy id).key = id := by
  unfold Replica.copy
  cases hf : r.find id with
  | none => rfl
  | some i => exact h id i hf

section Conditions

variable (T r i m)

/-- The handler comes to an answer to the sender. -/
def AnswersSender : Prop :=
  match m.type with
  | .preAccept => (i.status = .preAccepted ∨ i.status = .none) ∧ (m.ballot < i.ballot
      ∨ (sdForCommand T (r.put i) m.command (some i.key) ⟨0, i.deps⟩).isSome)
  | .accept => ¬ i.Decided
  | .prepare => True
  | .tryPreAccept => m.ballot < i.ballot
      ∨ (findConflict T (r.put i) i m.command m.seq m.deps).isSome
  | _ => False

/-- `try_pre_accept_reply` counts the message as a nack of no higher a ballot. -/
def CountsNack (lt : LeaderTracker) : Prop :=
  m.type = .tryPreAcceptReply ∧ i.lt = some lt ∧ lt.recoveryStatus = .tryPreAccepting
    ∧ lt.ri.status ≠ .none ∧ m.nack ≠ 0 ∧ m.ballot ≤ i.ballot

/-- The nack is marked in `quorum` for its sender. -/
def MarksSender : Prop := ∃ lt, CountsNack i m lt ∧ m.conflict.id = m.id

/-- The nack comes to the test of `deferred`, after a restart of phase 1 where its conflict is
committed. -/
def ReadsDeferred : Prop :=
  ∃ lt, CountsNack i m lt ∧ m.conflict.id ≠ m.id ∧ lt.quorum.count 0 = N / 2
    ∧ (State.committed.bits ≤ m.conflict.status.bits →
      (phase1 T (r.put i) { i with lt := some lt.tryNacked.settled } m).isSome)

end Conditions

theorem eachIndex_inRange : ∀ a ∈ eachIndex, a.InRange := by decide

theorem eachQuorum_inRange : ∀ a ∈ eachQuorum, a.InRange := by decide

theorem deferAccesses_inRange_iff {nq : ℕ} :
    (∀ a ∈ deferAccesses r nq m, a.InRange)
      ↔ (nq = N / 2 → ∀ k, r.dh (dhKey m.id) = some k → k < N) := by
  unfold deferAccesses
  split_ifs with hq
  · cases r.dh (dhKey m.id) with
    | none => simp
    | some k =>
      simp only [List.forall_mem_cons, hq, Option.some.injEq, forall_const]
      constructor
      · rintro ⟨hk, -⟩ k' rfl
        exact hk
      · intro h
        exact ⟨h k rfl, eachIndex_inRange⟩
  · exact iff_of_true (fun _ h => absurd h List.not_mem_nil) fun h => absurd h hq

theorem phase1_id {q : Instance × Message} (h : phase1 T r i m = some q) : q.2.id = i.key := by
  obtain ⟨j, lt, s, -, -, -, rfl⟩ := phase1_eq h
  rfl

/-- The entries of a restart by the nack branch. -/
theorem nackAccesses_restart {lt : LeaderTracker} (hb : ¬ i.ballot < m.ballot)
    (hr : m.Restarts lt) :
    nackAccesses T r i lt m = eachQuorum ++ (eachIndex
      ++ (phase1 T r { i with lt := some lt.tryNacked.settled } m).elim []
        fun q => deferAccesses r (lt.quorum.count 0) q.2) := by
  unfold nackAccesses LeaderTracker.tryNacked LeaderTracker.settled
  rw [if_neg hb, if_neg hr.1]
  dsimp only
  rw [if_pos hr.2]
  generalize phase1 T r _ m = o
  cases o <;> rfl

/-- The entries of the nack branch where it does not restart. -/
theorem nackAccesses_defer {lt : LeaderTracker} (hb : ¬ i.ballot < m.ballot)
    (he : m.conflict.id ≠ m.id) (hr : ¬ m.Restarts lt) :
    nackAccesses T r i lt m = eachQuorum ++ deferAccesses r (lt.quorum.count 0) m := by
  unfold nackAccesses
  rw [if_neg hb, if_neg he]
  dsimp only
  rw [if_neg fun h => hr ⟨he, h⟩]

/-- A nack counted by `try_pre_accept_reply` is marked in range, and read from `deferred` in
range. -/
theorem nackAccesses_inRange_iff {lt : LeaderTracker} (hk : i.key = m.id)
    (hid : m.id.replicaId < N) (hc : CountsNack i m lt) :
    (∀ a ∈ nackAccesses T (r.put i) i lt m, a.InRange)
      ↔ (m.conflict.id = m.id → m.sender < N)
        ∧ (m.conflict.id ≠ m.id → lt.quorum.count 0 = N / 2
          → (State.committed.bits ≤ m.conflict.status.bits →
            (phase1 T (r.put i) { i with lt := some lt.tryNacked.settled } m).isSome)
          → ∀ k, r.dh (dhKey m.id) = some k → k < N) := by
  have hb : ¬ i.ballot < m.ballot := not_lt.2 hc.2.2.2.2.2
  by_cases he : m.conflict.id = m.id
  · unfold nackAccesses
    rw [if_neg hb, if_pos he]
    simp only [he, List.forall_mem_cons, ne_eq, not_true_eq_false, false_imp_iff, and_true,
      forall_const]
    exact ⟨fun h => h.1, fun h => ⟨h, hid, fun _ h => absurd h List.not_mem_nil⟩⟩
  by_cases hr : m.Restarts lt
  · rw [nackAccesses_restart hb hr]
    simp only [List.forall_mem_append, he, ne_eq, not_false_eq_true, false_imp_iff, true_and,
      forall_const, and_iff_right eachQuorum_inRange, and_iff_right eachIndex_inRange]
    have hcm : lt.quorum.count 0 = N / 2 → State.committed.bits ≤ m.conflict.status.bits :=
      fun hq => hr.2.resolve_right hq.not_gt
    cases hp : phase1 T (r.put i) { i with lt := some lt.tryNacked.settled } m with
    | none =>
      refine iff_of_true (fun _ h => absurd h List.not_mem_nil) fun hq h => ?_
      exact absurd (h (hcm hq)) Bool.false_ne_true
    | some q =>
      have hqid : q.2.id = m.id := (phase1_id hp).trans hk
      simp only [Option.elim_some, deferAccesses_inRange_iff, hqid, Option.isSome_some,
        implies_true, forall_const]
      rfl
  · rw [nackAccesses_defer hb he hr]
    simp only [List.forall_mem_append, he, ne_eq, not_false_eq_true, false_imp_iff, true_and,
      forall_const, and_iff_right eachQuorum_inRange, deferAccesses_inRange_iff]
    refine forall_congr' fun hq => ?_
    have hcm : ¬ State.committed.bits ≤ m.conflict.status.bits := fun h => hr ⟨he, .inl h⟩
    simp only [hcm, false_imp_iff, forall_const]
    rfl

theorem triedAccesses_inRange_iff (ht : m.type = .tryPreAcceptReply) (hk : i.key = m.id)
    (hid : m.id.replicaId < N) :
    (∀ a ∈ triedAccesses T (r.put i) i m, a.InRange)
      ↔ (MarksSender i m → m.sender < N)
        ∧ (ReadsDeferred T r i m → ∀ k, r.dh (dhKey m.id) = some k → k < N) := by
  have hvoid : (∀ lt, ¬ CountsNack i m lt) → ((MarksSender i m → m.sender < N)
      ∧ (ReadsDeferred T r i m → ∀ k, r.dh (dhKey m.id) = some k → k < N)) := fun hn =>
    ⟨fun ⟨lt, hc, _⟩ => absurd hc (hn lt), fun ⟨lt, hc, _⟩ => absurd hc (hn lt)⟩
  unfold triedAccesses
  cases hlt : i.lt with
  | none =>
    refine iff_of_true (fun _ h => absurd h List.not_mem_nil) (hvoid fun lt hc => ?_)
    cases hlt.symm.trans hc.2.1
  | some lt =>
    simp only
    split_ifs with hg
    · refine iff_of_true (fun _ h => absurd h List.not_mem_nil) (hvoid fun lt' hc => ?_)
      obtain ⟨-, hlt', hr, hs, hn, -⟩ := hc
      cases hlt.symm.trans hlt'
      rcases hg with h | h | h
      exacts [h hr, hs h, hn h]
    · simp only [not_or, not_not] at hg
      by_cases hb : m.ballot ≤ i.ballot
      · have hc : CountsNack i m lt := ⟨ht, hlt, hg.1, hg.2.1, hg.2.2, hb⟩
        have huniq : ∀ lt', CountsNack i m lt' → lt' = lt := fun lt' hc' =>
          Option.some.inj (hc'.2.1.symm.trans hlt)
        rw [nackAccesses_inRange_iff hk hid hc]
        refine and_congr ⟨fun h ⟨_, _, he⟩ => h he, fun h he => h ⟨lt, hc, he⟩⟩ ⟨?_, ?_⟩
        · rintro h ⟨lt', hc', he, hq, hp⟩
          cases huniq lt' hc'
          exact h he hq hp
        · exact fun h he hq hp => h ⟨lt, hc, he, hq, hp⟩
      · refine iff_of_true ?_ (hvoid fun lt' hc => hb hc.2.2.2.2.2)
        unfold nackAccesses
        rw [if_pos (not_le.1 hb)]
        exact fun _ h => absurd h List.not_mem_nil

/-- The handler's own accesses, the sending apart. -/
theorem handlerAccesses_inRange_iff (hr : r.id < N) (hk : i.key = m.id)
    (hid : m.id.replicaId < N) :
    (∀ a ∈ handlerAccesses T (r.put i) i m, a.InRange)
      ↔ (MarksSender i m → m.sender < N)
        ∧ (ReadsDeferred T r i m → ∀ k, r.dh (dhKey m.id) = some k → k < N) := by
  by_cases ht : m.type = .tryPreAcceptReply
  · unfold handlerAccesses
    rw [ht]
    exact triedAccesses_inRange_iff ht hk hid
  · refine iff_of_true ?_ ⟨fun ⟨lt, hc, _⟩ => absurd hc.1 ht, fun ⟨lt, hc, _⟩ => absurd hc.1 ht⟩
    unfold handlerAccesses
    cases hm : m.type <;> simp only
    case tryPreAcceptReply => exact absurd hm ht
    case phase1 | preAccept | accept | tryPreAccept => exact eachIndex_inRange
    case prepareReply =>
      unfold preparedAccesses
      rw [List.forall_mem_cons, List.forall_mem_cons, List.forall_mem_append]
      exact ⟨hid, hr, eachIndex_inRange, eachQuorum_inRange⟩
    all_goals exact fun _ h => absurd h List.not_mem_nil

section Sends

variable {i' : Instance} {io : List Message} {quorum : List ℕ}

theorem prepareLoop_lt {nodeId s q : ℕ} : ∀ k ∈ prepareLoop nodeId s q, k < N := by
  induction s generalizing q with
  | zero => exact fun _ h => absurd h List.not_mem_nil
  | succ s ih =>
    unfold prepareLoop
    split_ifs
    · exact fun _ h => absurd h List.not_mem_nil
    · exact List.forall_mem_cons.2 ⟨Nat.mod_lt _ (by decide), ih⟩

/-- A broadcast stays within the nodes. -/
theorem ioReader_lt {nodeId : ℕ} (hq : Quorum quorum) {x : Message} (hb : x.type.Broadcast) :
    ∀ k ∈ ioReader nodeId quorum x, k < N := by
  rw [hq.zeroed]
  unfold ioReader
  rcases hb with h | h | h | h | h <;> rw [h] <;> dsimp only
  · exact prepareLoop_lt
  all_goals decide

/-- A message that is not broadcast goes to its sender. -/
theorem ioReader_cases (nodeId : ℕ) (quorum : List ℕ) (x : Message) :
    x.type.Broadcast ∨ ioReader nodeId quorum x = [x.sender] := by
  unfold ioReader MessageType.Broadcast
  cases x.type <;> simp

/-- What a handler sends is broadcast, or an answer to the sender. -/
theorem Act.answers (h : Act T r i (.step m) i' io) :
    ∀ x ∈ io, x.type.Broadcast ∨ (AnswersSender T r i m ∧ x.sender = m.sender) := by
  cases h with
  | preAcceptNack ht hst hb => simp [AnswersSender, ht, hst, hb]
  | preAcceptReply ht hst _ hs | preAcceptOk ht hst _ hs => simp [AnswersSender, ht, hst, hs]
  | acceptNack ht hd | acceptStore ht hd => simp [AnswersSender, ht, hd]
  | prepareNack ht | preparePromise ht => simp [AnswersSender, ht]
  | tryNack ht hb =>
    rcases hb with hb | ⟨-, x, hx⟩
    · simp [AnswersSender, ht, hb]
    · simp [AnswersSender, ht, hx]
  | tryStore ht _ hf => simp [AnswersSender, ht, hf]
  | _ => simp [MessageType.Broadcast, recoverMsg, phase1Msg]

theorem handler_answers {e : Effect} (h : progress T (r.put i) i m = some e) :
    ∀ x ∈ e.io, x.type.Broadcast ∨ (AnswersSender T r i m ∧ x.sender = m.sender) := by
  by_cases ht : m.type = .phase1
  · unfold progress at h
    rw [ht] at h
    obtain ⟨j, lt, s, -, -, -, rfl⟩ := restart_eq h
    exact fun x hx => .inl (List.mem_singleton.1 hx ▸ .inr (.inr (.inl rfl)))
  · exact (progress_act ht h).answers

/-- A handler that comes to an answer sends one. -/
theorem AnswersSender.sends (h : AnswersSender T r i m) :
    ∃ e x, progress T (r.put i) i m = some e ∧ x ∈ e.io ∧ ¬ x.type.Broadcast
      ∧ x.sender = m.sender := by
  have hne : ∀ {x : Message}, (x.type = .preAcceptReply ∨ x.type = .preAcceptOk
      ∨ x.type = .acceptReply ∨ x.type = .prepareReply ∨ x.type = .tryPreAcceptReply)
      → ¬ x.type.Broadcast := by
    intro x hx
    rcases hx with hx | hx | hx | hx | hx <;> rw [hx] <;> decide
  unfold AnswersSender at h
  unfold progress
  cases ht : m.type <;> rw [ht] at h <;> dsimp only at h ⊢
  case preAccept =>
    obtain ⟨hst, hs⟩ := h
    have h₁ : ¬ isState i.status [.committed, .accepted] = true := by
      rcases hst with hst | hst <;> rw [hst] <;> decide
    have h₂ : ¬ (!isState i.status [.preAccepted, .none]) = true := by
      rcases hst with hst | hst <;> rw [hst] <;> decide
    obtain ⟨e, he⟩ : ∃ e, preAccept T (r.put i) i m = some e := by
      unfold preAccept
      rw [if_neg h₁, if_neg h₂]
      by_cases hb : m.ballot < i.ballot
      · exact ⟨_, if_pos hb⟩
      · obtain ⟨s, hs⟩ := Option.isSome_iff_exists.1 (hs.resolve_left hb)
        rw [if_neg hb, hs]
        exact ⟨_, rfl⟩
    rcases preAccept_cases he with ⟨hn, -⟩ | ⟨-, -, rfl⟩ | ⟨-, -, s, -, rfl | ⟨-, -, -, -, rfl⟩⟩
    · exact absurd hst hn
    · exact ⟨_, _, he, List.mem_singleton.2 rfl, hne (.inl rfl), rfl⟩
    · exact ⟨_, _, he, List.mem_singleton.2 rfl, hne (.inl rfl), rfl⟩
    · exact ⟨_, _, he, List.mem_singleton.2 rfl, hne (.inr (.inl rfl)), rfl⟩
  case accept =>
    rcases accept_cases (r.put i) i m with ⟨hd, -⟩ | ⟨-, -, he⟩ | ⟨-, -, he⟩
    · exact absurd hd h
    all_goals
      rw [he]
      exact ⟨_, _, rfl, List.mem_singleton.2 rfl, hne (.inr (.inr (.inl rfl))), rfl⟩
  case prepare =>
    rcases prepare_cases (r.put i) i m with ⟨-, he⟩ | ⟨-, he⟩ <;> rw [he]
    all_goals exact ⟨_, _, rfl, List.mem_singleton.2 rfl, hne (.inr (.inr (.inr (.inl rfl)))), rfl⟩
  case tryPreAccept =>
    unfold tryPreAccept
    by_cases hb : m.ballot < i.ballot
    · rw [if_pos hb]
      exact ⟨_, _, rfl, List.mem_singleton.2 rfl, hne (.inr (.inr (.inr (.inr rfl)))), rfl⟩
    · obtain ⟨⟨conflict, command⟩, hf⟩ := Option.isSome_iff_exists.1 (h.resolve_left hb)
      rw [if_neg hb, hf]
      cases conflict
      all_goals
        exact ⟨_, _, rfl, List.mem_singleton.2 rfl, hne (.inr (.inr (.inr (.inr rfl)))), rfl⟩

/-- The sends of a handler are in range unless it answers a sender that is not a node. -/
theorem sendAccesses_inRange_iff (hq : Quorum quorum) :
    (∀ a ∈ sendAccesses r.id quorum (progress T (r.put i) i m), a.InRange)
      ↔ (AnswersSender T r i m → m.sender < N) := by
  constructor
  · intro h ha
    obtain ⟨e, x, he, hx, hb, hs⟩ := ha.sends
    have hio := (ioReader_cases r.id quorum x).resolve_left hb
    have hmem : Access.chanNode x.sender ∈ sendAccesses r.id quorum (some e) :=
      List.mem_map_of_mem (List.mem_flatMap.2 ⟨x, hx, by rw [hio]; exact List.mem_singleton.2 rfl⟩)
    rw [he] at h
    exact hs ▸ h _ hmem
  · intro h
    cases he : progress T (r.put i) i m with
    | none => exact fun _ ha => absurd ha List.not_mem_nil
    | some e =>
      intro a ha
      obtain ⟨k, hk, rfl⟩ := List.mem_map.1 ha
      obtain ⟨x, hx, hk⟩ := List.mem_flatMap.1 hk
      rcases handler_answers he x hx with hb | ⟨ha, hs⟩
      · exact ioReader_lt hq hb k hk
      · rcases ioReader_cases r.id quorum x with hb | hio
        · exact ioReader_lt hq hb k hk
        · rw [hio, List.mem_singleton] at hk
          exact (hk.trans hs) ▸ h ha

end Sends

/-- The message keeps `step` within the arrays. -/
structure Confined (T : RangeTree) (r : Replica) (m : Message) : Prop where
  replica : m.id.replicaId < N
  sender : AnswersSender T r (r.copy m.id) m ∨ MarksSender (r.copy m.id) m → m.sender < N
  deferred : ReadsDeferred T r (r.copy m.id) m → ∀ k, r.dh (dhKey m.id) = some k → k < N

/-- `step` stays within the arrays exactly where it rejects the message, or the replica ids it goes
by are those of replicas. -/
theorem step_inRange_iff {quorum : List ℕ} (hr : r.id < N) (hk : r.Keyed) (hq : Quorum quorum) :
    (r.handle T (.step m) = .rejected ∨ ∀ a ∈ stepAccesses T r quorum m, a.InRange)
      ↔ m.id.instanceId = 0 ∨ Confined T r m := by
  by_cases h0 : m.id.instanceId = 0
  · exact iff_of_true (.inl (if_pos h0)) (.inl h0)
  have hrej : r.handle T (.step m) ≠ .rejected := by
    intro h
    unfold Replica.handle at h
    dsimp only at h
    rw [if_neg h0] at h
    split_ifs at h
    unfold Outcome.of at h
    split at h <;> cases h
  rw [or_iff_right hrej, or_iff_right h0]
  unfold stepAccesses
  rw [if_neg h0]
  by_cases hid : m.id.replicaId < N
  · have hin : (Access.index m.id.replicaId).InRange := hid
    rw [if_neg (not_le.2 hid), List.forall_mem_cons, and_iff_right hin]
    dsimp only
    rw [List.forall_mem_append, handlerAccesses_inRange_iff hr (hk.copy m.id) hid,
      sendAccesses_inRange_iff hq]
    constructor
    · rintro ⟨⟨hm, hd⟩, ha⟩
      exact ⟨hid, fun h => h.elim ha hm, hd⟩
    · rintro ⟨-, hs, hd⟩
      exact ⟨⟨fun h => hs (.inr h), hd⟩, fun h => hs (.inl h)⟩
  · refine iff_of_false (fun h => ?_) fun h => hid h.replica
    exact hid (List.forall_mem_cons.1 h).1

/-- A `PREPARE` of replica 2. -/
def prepareOf (id : InstanceId) : Message :=
  { zeroMessage with id, ballot := 18, sender := 2 }

theorem step_inRange_prepare :
    (newReplica 1).handle listTree (.step (prepareOf ⟨2, 1⟩)) = .rejected
      ∨ ∀ a ∈ stepAccesses listTree (newReplica 1) (List.replicate N 0) (prepareOf ⟨2, 1⟩),
        a.InRange :=
  (step_inRange_iff (show 1 < 3 by decide) (fun _ _ h => by cases h) .zero).2 (.inr
    { replica := show 2 < 3 by decide
      sender := fun _ => show 2 < 3 by decide
      deferred := fun ⟨_, hc, _⟩ => by cases hc.1 })

/-- An instance of replica 3 is looked up past the index array. -/
theorem step_past_index : ¬ ∀ r quorum m, r.id < N → r.Keyed → Quorum quorum →
    m.id.replicaId < 65536 →
    r.handle listTree (.step m) = .rejected
      ∨ ∀ a ∈ stepAccesses listTree r quorum m, a.InRange := by
  intro h
  rcases h (newReplica 1) _ (prepareOf ⟨3, 1⟩) (show 1 < 3 by decide) (fun _ _ h => by cases h)
    .zero (show 3 < 65536 by decide) with hr | ha
  · cases hr
  · exact absurd (ha (.index 3) (List.mem_cons_self ..)) (by decide)

end Epx
