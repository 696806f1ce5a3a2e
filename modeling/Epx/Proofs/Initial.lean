import Epx.Proofs.Schedules

/-!
# The initial ballots

As long as no ballot comes round to an initial one again, what is proposed at an initial ballot is
proposed by the instance's leader, and a copy with a tracker at an initial ballot is the leader's.
-/

namespace Epx

open Log

/-- A replica that raises a ballot is not in its last round, and a nack to `TRY_PRE_ACCEPT` that it
acts on is above the initial ballots. -/
def Unwrapped (i : Instance) : Event → Prop
  | .timeout _ _ => i.timer = some .slowPath → i.ballot < 240
  | .step m =>
    match m.type, i.lt with
    | .preAcceptReply, some _ =>
      i.status = .preAccepted ∧ i.ballot = m.ballot ∧ m.nack ≠ 0 → i.ballot < 240
    | .acceptReply, some _ =>
      i.status = .accepted ∧ i.ballot = m.ballot ∧ m.nack ≠ 0 → i.ballot < 240
    | .tryPreAcceptReply, some lt =>
      lt.recoveryStatus = .tryPreAccepting ∧ lt.ri.status ≠ .none ∧ m.nack ≠ 0 →
        isInitialBallot m.ballot = false ∧ (i.ballot < m.ballot → m.ballot < 240)
    | _, _ => True
  | _ => True

instance (i : Instance) (ev : Event) : Decidable (Unwrapped i ev) := by
  unfold Unwrapped
  exact match ev with
  | .propose _ | .checkpoint _ | .timeout _ _ | .execute _ => inferInstance
  | .step m => by
    dsimp only
    exact match m.type, i.lt with
    | .preAcceptReply, none | .preAcceptReply, some _ | .acceptReply, none | .acceptReply, some _
    | .tryPreAcceptReply, none | .tryPreAcceptReply, some _ => inferInstance
    | .phase1, _ | .preAccept, _ | .preAcceptOk, _ | .accept, _ | .commit, _ | .prepare, _
    | .prepareReply, _ | .tryPreAccept, _ | .execute, _ => inferInstance

/-- Whom a message at an initial ballot comes from or goes to. -/
def Message.AtInitial (m : Message) : Prop :=
  match m.type with
  | .preAccept | .accept => m.sender = m.id.replicaId
  | .preAcceptOk => m.dest = m.id.replicaId
  | .preAcceptReply => m.nack = 0 → m.dest = m.id.replicaId
  | .tryPreAcceptReply => m.nack ≠ 0
  | .prepare | .tryPreAccept => False
  | _ => True

structure Message.Rooted (m : Message) : Prop where
  initial : isInitialBallot m.ballot = true → m.AtInitial
  ok : m.type = .preAcceptOk → isInitialBallot m.ballot = true
  apart : ¬ m.type.Broadcast → m.sender ≠ m.dest

structure Instance.Rooted (k : ℕ) (i : Instance) : Prop where
  leads : i.lt.isSome → isInitialBallot i.ballot = true → i.key.replicaId = k
  armed : i.timer = some .fastPath → i.lt.isSome
  recovering : ∀ lt, i.lt = some lt → lt.recoveryStatus ≠ .none → isInitialBallot i.ballot = false
  blank : i.status = .none → i.deps = .zero

theorem initial_of_le {a b : ℕ} (h : a ≤ b) (hb : isInitialBallot b = true) :
    isInitialBallot a = true := by
  rw [isInitialBallot_iff] at *
  omega

theorem not_initial_of_le {a b : ℕ} (h : a ≤ b) (ha : isInitialBallot a = false) :
    isInitialBallot b = false := by
  by_contra hb
  rw [initial_of_le h (by simpa using hb)] at ha
  cases ha

theorem largerBallot_not_initial {b k : ℕ} (hk : k < N) (hb : b < 240) :
    isInitialBallot (largerBallot b k) = false := by
  have hk : k < 16 := by unfold N at hk; omega
  by_contra h
  rw [Bool.not_eq_false, isInitialBallot_iff, largerBallot_eq _ hk] at h
  omega

namespace Message.Rooted

variable {m : Message}

theorem request (h : m.Rooted) (ht : m.type = .preAccept ∨ m.type = .accept)
    (hb : isInitialBallot m.ballot = true) : m.sender = m.id.replicaId := by
  have := h.initial hb
  rcases ht with ht | ht <;> simpa only [AtInitial, ht] using this

theorem answer (h : m.Rooted)
    (ht : m.type = .preAcceptOk ∨ (m.type = .preAcceptReply ∧ m.nack = 0))
    (hb : isInitialBallot m.ballot = true) : m.dest = m.id.replicaId := by
  have := h.initial hb
  rcases ht with ht | ⟨ht, hn⟩
  · simpa only [AtInitial, ht] using this
  · simp only [AtInitial, ht] at this
    exact this hn

theorem above (h : m.Rooted) (ht : m.type = .prepare ∨ m.type = .tryPreAccept
      ∨ (m.type = .tryPreAcceptReply ∧ m.nack = 0)) : isInitialBallot m.ballot = false := by
  by_contra hb
  have := h.initial (by simpa using hb)
  rcases ht with ht | ht | ⟨ht, hn⟩ <;> simp only [AtInitial, ht] at this
  exact this hn

theorem of_broadcast (hb : m.type.Broadcast)
    (h : isInitialBallot m.ballot = true → m.AtInitial) : m.Rooted :=
  ⟨h, fun ht => by rw [ht] at hb; simp [MessageType.Broadcast] at hb, fun hn => absurd hb hn⟩

theorem of_reply (ht : m.type ≠ .preAcceptOk) (hne : m.sender ≠ m.dest)
    (h : isInitialBallot m.ballot = true → m.AtInitial) : m.Rooted :=
  ⟨h, fun h => absurd h ht, fun _ => hne⟩

/-- A message above the initial ballots. -/
theorem of_above (ht : m.type ≠ .preAcceptOk) (hb : isInitialBallot m.ballot = false)
    (hne : ¬ m.type.Broadcast → m.sender ≠ m.dest) : m.Rooted :=
  ⟨fun h => absurd (hb.symm.trans h) nofun, fun h => absurd h ht, hne⟩

end Message.Rooted

theorem Instance.Rooted.of_le {k : ℕ} {i i' : Instance} (h : i.Rooted k) (hk : i'.key = i.key)
    (hb : i.ballot ≤ i'.ballot) (hl : i'.lt.isSome → i.lt.isSome)
    (hr : ∀ lt', i'.lt = some lt' → lt'.recoveryStatus ≠ .none →
      ∃ lt, i.lt = some lt ∧ lt.recoveryStatus ≠ .none)
    (ht : i'.timer = some .fastPath → i'.lt.isSome) (hs : i'.status = .none → i'.deps = .zero) :
    i'.Rooted k where
  leads hlt hi := hk ▸ h.leads (hl hlt) (initial_of_le hb hi)
  armed := ht
  recovering lt' hlt' hrec := by
    obtain ⟨lt, hlt, hrec⟩ := hr lt' hlt' hrec
    exact not_initial_of_le hb (h.recovering lt hlt hrec)
  blank := hs

/-- A copy above the initial ballots. -/
theorem Instance.Rooted.of_above {k : ℕ} {i : Instance} (hb : isInitialBallot i.ballot = false)
    (ht : i.timer = some .fastPath → i.lt.isSome) (hs : i.status = .none → i.deps = .zero) :
    i.Rooted k where
  leads _ h := by rw [hb] at h; cases h
  armed := ht
  recovering _ _ _ := hb
  blank := hs

section Step

variable {T : RangeTree} {older : List Record} {k : ℕ} {ev : Event} {r : Replica}
  {i i' : Instance} {io : List Message} {m : Message} {lt : LeaderTracker}

theorem Unwrapped.nacked (h : Unwrapped i (.step m))
    (ht : (m.type = .preAcceptReply ∧ i.status = .preAccepted)
      ∨ (m.type = .acceptReply ∧ i.status = .accepted))
    (hlt : i.lt = some lt) (hb : i.ballot = m.ballot) (hn : m.nack ≠ 0) : i.ballot < 240 := by
  rcases ht with ⟨ht, hs⟩ | ⟨ht, hs⟩ <;> simp only [Unwrapped, ht, hlt] at h <;>
    exact h ⟨hs, hb, hn⟩

theorem Unwrapped.tried (h : Unwrapped i (.step m)) (ht : m.type = .tryPreAcceptReply)
    (hlt : i.lt = some lt) (hr : lt.recoveryStatus = .tryPreAccepting)
    (hs : lt.ri.status ≠ .none) (hn : m.nack ≠ 0) :
    isInitialBallot m.ballot = false ∧ (i.ballot < m.ballot → m.ballot < 240) := by
  simp only [Unwrapped, ht, hlt] at h
  exact h ⟨hr, hs, hn⟩

theorem rooted_step (ht : Happens T older ⟨k, ev, r, i, i', io.map (envelope k)⟩)
    (hc : Unwrapped i ev) (hm : ∀ p ∈ older, ∀ m ∈ p.sent, m.Rooted) (hi : i.Rooted k)
    (ha : Act T r i ev i' io) : i'.Rooted k ∧ ∀ m ∈ io, (envelope k m).Rooted := by
  have hk : k < N := ht.who_lt
  have hrid : r.id = k := ht.who_eq
  have hv : ∀ m, ev = .step m → m.Rooted := fun m hev => by
    obtain ⟨⟨p, hp, hpm⟩, -⟩ := ht.source m hev
    exact hm p hp m hpm
  have hkey : ∀ m, ev = .step m → i.key = m.id := fun m hev => (ht.step_key hev).1
  -- an answer goes to another replica than the one that gives it
  have hne : ∀ m, ev = .step m → m.type.Broadcast → k ≠ m.sender := fun m hev hb =>
    (ht.foreign hev hb).symm
  have hdest : ∀ m, ev = .step m → ¬ m.type.Broadcast → m.dest = k := fun m hev hb =>
    ht.dest hev hb
  cases ha with
  | propose hlt =>
    simp only [List.forall_mem_singleton]
    have ho : i = r.ownInstance := ht.located.2
    have hkk : i.key.replicaId = k := by rw [ho]; exact hrid
    refine ⟨⟨fun _ _ => hkk, fun _ => rfl, ?_, (by rintro ⟨⟩)⟩, .of_broadcast ?_ fun _ => hkk.symm⟩
    · rintro _ ⟨⟩ h
      rw [ho] at hlt
      cases hlt
      exact absurd rfl h
    · simp [MessageType.Broadcast, envelope, phase1Msg]
  | checkpoint =>
    simp only [List.forall_mem_singleton]
    have ho : i = r.ownInstance := ht.located.2
    have hkk : i.key.replicaId = k := by rw [ho]; exact hrid
    refine ⟨⟨fun _ _ => hkk, fun _ => by rw [ho]; rfl, ?_, (by rintro ⟨⟩)⟩,
      .of_broadcast ?_ fun _ => hkk.symm⟩
    · intro lt hlt h
      rw [ho] at hlt
      cases hlt
      exact absurd rfl h
    · simp [MessageType.Broadcast, envelope]
  | slowTimeout htm =>
    simp only [List.forall_mem_singleton]
    have hb : isInitialBallot (largerBallot i.ballot r.id) = false :=
      largerBallot_not_initial (hrid ▸ hk) (hc htm)
    exact ⟨.of_above hb (by rintro ⟨⟩) hi.blank,
      .of_above (by rintro ⟨⟩) hb (by simp [MessageType.Broadcast, envelope, recoverMsg])⟩
  | nackRecover hty hlt hbm hn =>
    simp only [List.forall_mem_singleton]
    have hb : isInitialBallot (largerBallot i.ballot r.id) = false :=
      largerBallot_not_initial (hrid ▸ hk) (hc.nacked hty hlt hbm hn)
    exact ⟨.of_above hb (by rintro ⟨⟩) hi.blank,
      .of_above (by rintro ⟨⟩) hb (by simp [MessageType.Broadcast, envelope, recoverMsg])⟩
  | fastTimeout htm =>
    simp only [List.forall_mem_singleton]
    exact ⟨hi.of_le rfl le_rfl id (fun lt hlt h => ⟨lt, hlt, h⟩) (by rintro ⟨⟩) hi.blank,
      .of_broadcast (by simp [MessageType.Broadcast, envelope])
        fun h => (hi.leads (hi.armed htm) h).symm⟩
  | execute =>
    exact ⟨hi.of_le rfl le_rfl id (fun lt hlt h => ⟨lt, hlt, h⟩) hi.armed (by rintro ⟨⟩), by simp⟩
  | ignore => exact ⟨hi, by simp⟩
  | @preAcceptNack m hty =>
    simp only [List.forall_mem_singleton]
    exact ⟨hi, .of_reply (by rintro ⟨⟩) (hne m rfl (by simp [MessageType.Broadcast, hty]))
      fun _ h => absurd h (by simp [envelope])⟩
  | @preAcceptReply m s hty _ hb =>
    simp only [List.forall_mem_singleton]
    refine ⟨hi.of_le rfl hb id (fun lt hlt h => ⟨lt, hlt, h⟩) hi.armed ?_, ?_⟩
    · intro h
      simp only [preAcceptInst] at h
      split_ifs at h
    · exact .of_reply (by rintro ⟨⟩) (hne m rfl (by simp [MessageType.Broadcast, hty]))
        fun h _ => (hv m rfl).request (.inl hty) h
  | @preAcceptOk m s hty _ hb _ _ _ _ hib =>
    simp only [List.forall_mem_singleton]
    refine ⟨hi.of_le rfl hb id (fun lt hlt h => ⟨lt, hlt, h⟩) hi.armed ?_, ?_⟩
    · intro h
      simp only [preAcceptInst] at h
      split_ifs at h
    · exact ⟨fun h => (hv m rfl).request (.inl hty) h, fun _ => hib,
        fun _ => hne m rfl (by simp [MessageType.Broadcast, hty])⟩
  | okCommit hty hlt | replyCommit hty hlt | acceptedCommit hty hlt | preparedCommit hty hlt =>
    simp only [List.forall_mem_singleton]
    refine ⟨hi.of_le rfl le_rfl (fun _ => by rw [hlt]; rfl) ?_ (by rintro ⟨⟩) (by rintro ⟨⟩),
      .of_broadcast (by simp [MessageType.Broadcast, envelope]) fun _ => trivial⟩
    rintro _ ⟨⟩ h
    exact ⟨_, hlt, h⟩
  | @okAccept m lt hty hlt =>
    simp only [List.forall_mem_singleton]
    refine ⟨hi.of_le rfl le_rfl (fun _ => by rw [hlt]; rfl) ?_ (fun _ => rfl) (by rintro ⟨⟩),
      .of_broadcast (by simp [MessageType.Broadcast, envelope]) fun h => ?_⟩
    · rintro _ ⟨⟩ h
      exact ⟨_, hlt, h⟩
    · have := (hv m rfl).answer (.inl hty) h
      rwa [hdest m rfl (by simp [MessageType.Broadcast, hty])] at this
  | @replyAccept m lt hty hlt _ _ hn =>
    simp only [List.forall_mem_singleton]
    refine ⟨hi.of_le rfl le_rfl (fun _ => by rw [hlt]; rfl) ?_ (fun _ => rfl) (by rintro ⟨⟩),
      .of_broadcast (by simp [MessageType.Broadcast, envelope]) fun h => ?_⟩
    · rintro _ ⟨⟩ h
      exact ⟨_, hlt, h⟩
    · have := (hv m rfl).answer (.inr ⟨hty, hn⟩) h
      rwa [hdest m rfl (by simp [MessageType.Broadcast, hty])] at this
  | okCount hty hlt | nackCount hty hlt | acceptedCount hty hlt | preparedNack hty hlt
  | triedCount hty hlt =>
    refine ⟨hi.of_le rfl le_rfl (fun _ => by rw [hlt]; rfl) ?_ (fun _ => rfl) hi.blank, by simp⟩
    rintro _ ⟨⟩ h
    exact ⟨_, hlt, h⟩
  | replyCount hty hlt hst =>
    refine ⟨hi.of_le rfl le_rfl (fun _ => by rw [hlt]; rfl) ?_ (fun _ => rfl)
      fun h => absurd (hst.symm.trans h) (by rintro ⟨⟩), by simp⟩
    rintro _ ⟨⟩ h
    exact ⟨_, hlt, h⟩
  | @acceptNack m hty =>
    simp only [List.forall_mem_singleton]
    exact ⟨hi, .of_reply (by rintro ⟨⟩) (hne m rfl (by simp [MessageType.Broadcast, hty]))
      fun _ => trivial⟩
  | @acceptStore m hty _ hb =>
    simp only [List.forall_mem_singleton]
    exact ⟨hi.of_le rfl hb id (fun lt hlt h => ⟨lt, hlt, h⟩) hi.armed (by rintro ⟨⟩),
      .of_reply (by rintro ⟨⟩) (hne m rfl (by simp [MessageType.Broadcast, hty])) fun _ => trivial⟩
  | @prepareNack m hty =>
    simp only [List.forall_mem_singleton]
    exact ⟨hi, .of_reply (by rintro ⟨⟩) (hne m rfl (by simp [MessageType.Broadcast, hty]))
      fun _ => trivial⟩
  | @preparePromise m hty =>
    simp only [List.forall_mem_singleton]
    exact ⟨.of_above ((hv m rfl).above (.inl hty)) hi.armed hi.blank,
      .of_reply (by rintro ⟨⟩) (hne m rfl (by simp [MessageType.Broadcast, hty])) fun _ => trivial⟩
  | @preparedCount m lt hty hlt =>
    refine ⟨hi.of_le rfl le_rfl (fun _ => by rw [hlt]; rfl) ?_ (fun _ => rfl) hi.blank, by simp⟩
    rintro _ ⟨⟩ h
    exact ⟨_, hlt, by rwa [tally_recoveryStatus] at h⟩
  | preparedNoop hty hlt hr | preparedAdopt hty hlt hr =>
    simp only [List.forall_mem_singleton]
    have hb := hi.recovering _ hlt (by rw [hr]; rintro ⟨⟩)
    exact ⟨.of_above hb (fun _ => rfl) (by rintro ⟨⟩),
      .of_above (by rintro ⟨⟩) hb (by simp [MessageType.Broadcast, envelope])⟩
  | preparedRestart hty hlt hr =>
    simp only [List.forall_mem_singleton]
    have hb := hi.recovering _ hlt (by rw [hr]; rintro ⟨⟩)
    exact ⟨.of_above hb (fun _ => rfl) (by rintro ⟨⟩),
      .of_above (by rintro ⟨⟩) hb (by simp [MessageType.Broadcast, envelope, phase1Msg])⟩
  | preparedTryOwn hty hlt hr =>
    simp only [List.forall_mem_singleton]
    have hb := hi.recovering _ hlt (by rw [hr]; rintro ⟨⟩)
    exact ⟨.of_above hb (fun _ => rfl) hi.blank,
      .of_above (by rintro ⟨⟩) hb (by simp [MessageType.Broadcast, envelope])⟩
  | preparedTry hty hlt hr =>
    simp only [List.forall_mem_singleton]
    have hb := hi.recovering _ hlt (by rw [hr]; rintro ⟨⟩)
    exact ⟨.of_above hb (fun _ => rfl) (by rintro ⟨⟩),
      .of_above (by rintro ⟨⟩) hb (by simp [MessageType.Broadcast, envelope])⟩
  | @tryNack m c f hty =>
    simp only [List.forall_mem_singleton]
    exact ⟨hi, .of_reply (by rintro ⟨⟩) (hne m rfl (by simp [MessageType.Broadcast, hty]))
      fun _ => show 1 ≠ 0 by omega⟩
  | @tryStore m c hty hb =>
    simp only [List.forall_mem_singleton]
    have hbm := (hv m rfl).above (.inr (.inl hty))
    exact ⟨.of_above hbm hi.armed (by rintro ⟨⟩), .of_above (by rintro ⟨⟩) hbm
      fun _ => hne m rfl (by simp [MessageType.Broadcast, hty])⟩
  | triedRaise hty hlt hr hs hn hb =>
    simp only [List.forall_mem_singleton]
    have hbm := largerBallot_not_initial (hrid ▸ hk) ((hc.tried hty hlt hr hs hn).2 hb)
    exact ⟨.of_above hbm (fun _ => rfl) hi.blank,
      .of_above (by rintro ⟨⟩) hbm (by simp [MessageType.Broadcast, envelope])⟩
  | triedPrepare hty hlt hr hs hn =>
    simp only [List.forall_mem_singleton]
    refine ⟨hi.of_le rfl le_rfl (fun _ => by rw [hlt]; rfl) ?_ (fun _ => rfl) hi.blank,
      .of_above (by rintro ⟨⟩) (hc.tried hty hlt hr hs hn).1
        (by simp [MessageType.Broadcast, envelope])⟩
    rintro _ ⟨⟩ h
    exact ⟨_, hlt, h⟩
  | triedDefer hty hlt hr hs hn _ htm =>
    refine ⟨hi.of_le rfl le_rfl (fun _ => by rw [hlt]; rfl) ?_ (fun _ => rfl) hi.blank, by simp⟩
    rintro _ ⟨⟩ h
    exact ⟨_, hlt, h⟩
  | @triedRestart m lt c b s tm hty hlt hr hs hn hb hcb =>
    simp only [List.forall_mem_singleton]
    have hbm := (hc.tried hty hlt hr hs hn).1
    have hb : isInitialBallot b = false := by
      rcases hcb with ⟨-, rfl⟩ | ⟨-, rfl⟩
      · exact hbm
      · exact not_initial_of_le hb hbm
    exact ⟨.of_above hb (fun _ => rfl) (by rintro ⟨⟩),
      .of_above (by rintro ⟨⟩) hb (by simp [MessageType.Broadcast, envelope, phase1Msg])⟩
  | triedRestartTwice hty hlt hr hs hn =>
    have hbm := (hc.tried hty hlt hr hs hn).1
    simp only [List.forall_mem_cons, List.not_mem_nil, false_imp_iff, implies_true, and_true]
    exact ⟨.of_above hbm (fun _ => rfl) (by rintro ⟨⟩),
      .of_above (by rintro ⟨⟩) hbm (by simp [MessageType.Broadcast, envelope, phase1Msg]),
      .of_above (by rintro ⟨⟩) hbm (by simp [MessageType.Broadcast, envelope, phase1Msg])⟩
  | @triedAccept m lt hty hlt _ _ hn =>
    simp only [List.forall_mem_singleton]
    refine ⟨hi.of_le rfl le_rfl (fun _ => by rw [hlt]; rfl) ?_ (fun _ => rfl) (by rintro ⟨⟩),
      .of_above (by rintro ⟨⟩) ((hv m rfl).above (.inr (.inr ⟨hty, hn⟩)))
        (by simp [MessageType.Broadcast, envelope])⟩
    rintro _ ⟨⟩ h
    exact absurd rfl h
  | commit =>
    exact ⟨hi.of_le rfl le_rfl id (fun lt hlt h => ⟨lt, hlt, h⟩) (by rintro ⟨⟩) (by rintro ⟨⟩),
      by simp⟩

end Step

theorem rooted_made {T : RangeTree} {older : List Record} {t : Record} (ht : Happens T older t)
    (hb : t.before = t.pre.ownInstance
      ∨ t.before = { newInstance t.before.key with timer := some .slowPath }) :
    t.before.Rooted t.who := by
  rcases hb with hb | hb
  · have hk : t.before.key.replicaId = t.who := by rw [hb]; exact ht.who_eq
    refine ⟨fun _ _ => hk, ?_, ?_, ?_⟩ <;> rw [hb]
    · nofun
    · rintro _ ⟨⟩ h
      exact absurd rfl h
    · exact fun _ => rfl
  · rw [hb]
    exact ⟨nofun, nofun, nofun, fun _ => rfl⟩

/-- The record handles a rooted instance, and a rooted message. -/
structure Record.Rooted (t : Record) : Prop where
  before : t.before.Rooted t.who
  msg : ∀ m, t.event = .step m → m.Rooted

theorem Instance.Rooted.above {i : Instance} {k : ℕ} (h : i.Rooted k) {lt : LeaderTracker}
    (hlt : i.lt = some lt) (hr : lt.recoveryStatus ≠ .none) : ¬ isInitialBallot i.ballot = true := by
  rw [h.recovering lt hlt hr]
  nofun

/-- The leader does not meet the request of another at an initial ballot. -/
theorem Record.Rooted.lone {T : RangeTree} {older : List Record} {t : Record} (h : t.Rooted)
    (ht : Happens T older t) {m : Message} (hev : t.event = .step m)
    (hty : m.type = .preAccept ∨ m.type = .accept) (hb : t.before.ballot ≤ m.ballot)
    (hib : isInitialBallot m.ballot = true) (lt : LeaderTracker) : t.before.lt ≠ some lt := by
  intro hlt
  have h₁ := h.before.leads (by rw [hlt]; rfl) (initial_of_le hb hib)
  have h₂ := (h.msg m hev).request hty hib
  have h₃ := ht.foreign hev (by rcases hty with h | h <;> simp [MessageType.Broadcast, h])
  rw [(ht.step_key hev).1] at h₁
  exact h₃ (h₂.trans h₁)

/-- In a log whose ballots do not wrap, every copy and every message is rooted. -/
theorem rooted_of_grown {T : RangeTree} {C : List Record → Record → Prop}
    (hC : ∀ {older t}, C older t → Unwrapped t.before t.event) {log : List Record}
    (h : Grown (fun older t => Happens T older t ∧ C older t) log) :
    (∀ k id i, Last log k id i → i.Rooted k) ∧ ∀ p ∈ log, ∀ m ∈ p.sent, m.Rooted :=
  run_rule (I := fun _ k i => i.Rooted k) (M := fun _ m => m.Rooted) (fun _ h _ => h) (fun h => h)
    (fun _ ht _ _ hb => rooted_made ht hb)
    (fun _ ht hc _ hm hi ha => rooted_step ht (hC hc) hm hi ha) h

/-- In a log whose ballots do not wrap, every record is rooted. -/
theorem grown_rooted {T : RangeTree} {C : List Record → Record → Prop}
    (hC : ∀ {older t}, C older t → Unwrapped t.before t.event) {log : List Record}
    (h : Grown (fun older t => Happens T older t ∧ C older t) log) :
    Grown (fun older t => Happens T older t ∧ C older t ∧ t.Rooted) log := by
  refine h.imp fun {t older} hg _ ⟨ht, hc⟩ => ⟨ht, hc, ?_⟩
  obtain ⟨hcopy, hmsg⟩ := rooted_of_grown hC hg
  refine ⟨?_, fun m hev => ?_⟩
  · rcases ht.before with hl | ⟨-, hb⟩
    · exact hcopy _ _ _ hl
    · exact rooted_made ht hb
  · obtain ⟨⟨p, hp, hpm⟩, -⟩ := ht.source m hev
    exact hmsg p hp m hpm

end Epx
