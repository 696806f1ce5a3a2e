import Epx.Proofs.Schedules

/-!
# Promise before propose

A ballot above the initial ones belongs to the replica in its low four bits. `Licensed` keeps the
replicas to their own ballots and the answers they act on to the ballot they ask at; then whoever
proposes at such a ballot had it promised.
-/

namespace Epx

open Log

/-- The record accepts a `PREPARE` of `id` at ballot `b` and answers it without a nack. -/
def Record.Promises (t : Record) (id : InstanceId) (b : ℕ) : Prop :=
  match t.event with
  | .step m =>
    m.type = .prepare ∧ m.id = id ∧ m.ballot = b ∧ m.nack = 0
      ∧ t.before.ballot ≤ b ∧ t.after.ballot = b
  | _ => False

instance (t : Record) (id : InstanceId) (b : ℕ) : Decidable (t.Promises id b) := by
  unfold Record.Promises
  exact match t.event with
  | .propose _ | .checkpoint _ | .timeout _ _ | .step _ | .execute _ => inferInstance

/-- `N / 2` replicas other than `k` have promised the ballot, if it is not an initial one. -/
def Promised (log : List Record) (id : InstanceId) (b k : ℕ) : Prop :=
  isInitialBallot b = true ∨ ∃ qs : List ℕ, qs.Nodup ∧ N / 2 ≤ qs.length
    ∧ ∀ q ∈ qs, q < N ∧ q ≠ k ∧ ∃ p ∈ log, p.who = q ∧ p.Promises id b

/-- `PRE_ACCEPT`, `TRY_PRE_ACCEPT` or `ACCEPT`. -/
def MessageType.Proposal (t : MessageType) : Prop :=
  t = .preAccept ∨ t = .tryPreAccept ∨ t = .accept

instance (t : MessageType) : Decidable t.Proposal := inferInstanceAs (Decidable (_ ∨ _))

/-- Every proposal of the record is at an initial ballot or at one promised before. -/
def Record.Backed (older : List Record) (t : Record) : Prop :=
  ∀ m ∈ t.sent, m.type.Proposal → Promised older m.id m.ballot t.who

/-- The ballot is an initial one or replica `k`'s. -/
def Own (k b : ℕ) : Prop := isInitialBallot b = true ∨ replicaFromBallot b = k

instance (k b : ℕ) : Decidable (Own k b) := inferInstanceAs (Decidable (_ ∨ _))

/-- Clients' requests are at an initial ballot; an answer to `PREPARE` or a nack to `TRY_PRE_ACCEPT`
that replica `k` acts on is at the ballot of its copy, the nack and a fast-path timer find it at a
ballot of its own. -/
def Licensed (k : ℕ) (i : Instance) : Event → Prop
  | .propose m => isInitialBallot m.ballot = true
  | .timeout _ _ => i.timer = some .fastPath → Own k i.ballot
  | .step m =>
    match m.type, i.lt with
    | .prepareReply, some lt =>
      lt.recoveryStatus = .preparing ∧ m.nack = 0 ∧ ¬ m.Final → m.ballot = i.ballot
    | .tryPreAcceptReply, some lt =>
      lt.recoveryStatus = .tryPreAccepting ∧ lt.ri.status ≠ .none ∧ m.nack ≠ 0 →
        m.ballot = i.ballot ∧ Own k i.ballot
    | _, _ => True
  | _ => True

instance (k : ℕ) (i : Instance) (ev : Event) : Decidable (Licensed k i ev) := by
  unfold Licensed
  exact match ev with
  | .propose _ | .checkpoint _ | .timeout _ _ | .execute _ => inferInstance
  | .step m => by
    dsimp only
    exact match m.type, i.lt with
    | .prepareReply, none | .prepareReply, some _ | .tryPreAcceptReply, none
    | .tryPreAcceptReply, some _ => inferInstance
    | .phase1, _ | .preAccept, _ | .preAcceptOk, _ | .preAcceptReply, _ | .accept, _
    | .acceptReply, _ | .commit, _ | .prepare, _ | .tryPreAccept, _ | .execute, _ => inferInstance

theorem Promised.cons {log : List Record} {id : InstanceId} {b k : ℕ} (h : Promised log id b k)
    (t : Record) : Promised (t :: log) id b k := by
  refine h.imp_right ?_
  rintro ⟨qs, hn, hl, hq⟩
  refine ⟨qs, hn, hl, fun q hqs => ?_⟩
  obtain ⟨h₁, h₂, p, hp, h₃⟩ := hq q hqs
  exact ⟨h₁, h₂, p, List.mem_cons_of_mem t hp, h₃⟩

/-- A record of replica `k` itself makes no difference to what others promised it. -/
theorem Promised.of_cons {log : List Record} {id : InstanceId} {b : ℕ} {t : Record}
    (h : Promised (t :: log) id b t.who) : Promised log id b t.who := by
  refine h.imp_right ?_
  rintro ⟨qs, hn, hl, hq⟩
  refine ⟨qs, hn, hl, fun q hqs => ?_⟩
  obtain ⟨h₁, h₂, p, hp, h₃, h₄⟩ := hq q hqs
  rcases List.mem_cons.1 hp with rfl | hp
  · exact absurd h₃.symm h₂
  · exact ⟨h₁, h₂, p, hp, h₃, h₄⟩

theorem Promised.of_one {log : List Record} {id : InstanceId} {b k q : ℕ} (hq : q < N) (hk : q ≠ k)
    (hp : ∃ p ∈ log, p.who = q ∧ p.Promises id b) : Promised log id b k :=
  .inr ⟨[q], by simp, by simp [half_N], by simpa using ⟨hq, hk, hp⟩⟩

/-- A ballot of two replicas is an initial one. -/
theorem Own.initial {j k b : ℕ} (h₁ : Own j b) (h₂ : Own k b) (hjk : j ≠ k) :
    isInitialBallot b = true := by
  rcases h₁ with h₁ | h₁
  · exact h₁
  rcases h₂ with h₂ | h₂
  · exact h₂
  · exact absurd (h₁.symm.trans h₂) hjk

/-- A positive answer to a request of its `dest`. -/
def Message.Positive (m : Message) : Prop :=
  m.nack = 0
    ∧ (m.type = .preAcceptReply ∨ m.type = .tryPreAcceptReply ∨ m.type = .prepareReply)

/-- What a message in the network tells of promised ballots: a request is at a ballot of its
sender's, a proposal at a promised one, and so is a positive answer for the replica it goes to. -/
structure Vouched (log : List Record) (m : Message) : Prop where
  own : m.type.Proposal ∨ m.type = .prepare → Own m.sender m.ballot
  proposal : m.type.Proposal → Promised log m.id m.ballot m.sender
  ok : m.type = .preAcceptOk → isInitialBallot m.ballot = true
  answer : m.Positive → Own m.dest m.ballot ∧ Promised log m.id m.ballot m.dest

namespace Vouched

variable {log : List Record} {m : Message}

theorem cons (h : Vouched log m) (t : Record) : Vouched (t :: log) m where
  own := h.own
  proposal hp := (h.proposal hp).cons t
  ok := h.ok
  answer hp := (h.answer hp).imp_right (·.cons t)

theorem of_proposal (ht : m.type.Proposal) (ho : Own m.sender m.ballot)
    (hp : Promised log m.id m.ballot m.sender) : Vouched log m where
  own _ := ho
  proposal _ := hp
  ok h := by rw [h] at ht; simp [MessageType.Proposal] at ht
  answer h := by
    rcases h.2 with h | h | h <;> · rw [h] at ht; simp [MessageType.Proposal] at ht

theorem of_prepare (ht : m.type = .prepare) (ho : Own m.sender m.ballot) : Vouched log m where
  own _ := ho
  proposal h := by rw [ht] at h; simp [MessageType.Proposal] at h
  ok h := by rw [ht] at h; cases h
  answer h := by rw [Message.Positive, ht] at h; simp at h

theorem of_answer (ht : m.type = .preAcceptReply ∨ m.type = .tryPreAcceptReply
      ∨ m.type = .prepareReply)
    (h : m.nack = 0 → Own m.dest m.ballot ∧ Promised log m.id m.ballot m.dest) :
    Vouched log m where
  own hp := by rcases ht with ht | ht | ht <;> simp [ht, MessageType.Proposal] at hp
  proposal hp := by rcases ht with ht | ht | ht <;> simp [ht, MessageType.Proposal] at hp
  ok hp := by rcases ht with ht | ht | ht <;> simp [ht] at hp
  answer hp := h hp.1

theorem of_ok (ht : m.type = .preAcceptOk) (h : isInitialBallot m.ballot = true) :
    Vouched log m where
  own hp := by simp [ht, MessageType.Proposal] at hp
  proposal hp := by simp [ht, MessageType.Proposal] at hp
  ok _ := h
  answer hp := by rw [Message.Positive, ht] at hp; simp at hp

theorem of_silent (ht : m.type = .acceptReply ∨ m.type = .commit) : Vouched log m where
  own hp := by rcases ht with ht | ht <;> simp [ht, MessageType.Proposal] at hp
  proposal hp := by rcases ht with ht | ht <;> simp [ht, MessageType.Proposal] at hp
  ok hp := by rcases ht with ht | ht <;> simp [ht] at hp
  answer hp := by rcases ht with ht | ht <;> simp [Message.Positive, ht] at hp

end Vouched

/-- A copy that waits for answers to `TRY_PRE_ACCEPT` or for its fast-path timer at a ballot of its
replica's had that ballot promised. -/
structure Entitled (log : List Record) (k : ℕ) (i : Instance) : Prop where
  trying : ∀ lt, i.lt = some lt → lt.recoveryStatus = .tryPreAccepting → Own k i.ballot →
    Promised log i.key i.ballot k
  timed : i.timer = some .fastPath → Own k i.ballot → Promised log i.key i.ballot k

theorem Entitled.cons {log : List Record} {k : ℕ} {i : Instance} (h : Entitled log k i)
    (t : Record) : Entitled (t :: log) k i :=
  ⟨fun lt hlt hr ho => (h.trying lt hlt hr ho).cons t, fun ht ho => (h.timed ht ho).cons t⟩

/-- A copy with neither is entitled to anything. -/
theorem Entitled.of_idle {log : List Record} {k : ℕ} {i : Instance}
    (h₁ : ∀ lt, i.lt = some lt → lt.recoveryStatus ≠ .tryPreAccepting)
    (h₂ : i.timer ≠ some .fastPath) : Entitled log k i :=
  ⟨fun lt hlt hr => absurd hr (h₁ lt hlt), fun ht => absurd ht h₂⟩

/-- A copy at a promised ballot is. -/
theorem Entitled.of_promised {log : List Record} {k : ℕ} {i : Instance}
    (h : Own k i.ballot → Promised log i.key i.ballot k) : Entitled log k i :=
  ⟨fun _ _ _ => h, fun _ => h⟩

/-- The ballot of another replica's request is no reason to propose. -/
theorem Entitled.of_foreign {log : List Record} {j k : ℕ} {i : Instance} (hj : Own j i.ballot)
    (hjk : j ≠ k) : Entitled log k i :=
  .of_promised fun hk => .inl (hj.initial hk hjk)

/-- A copy at the ballot of `i` that waits for no more than `i` does is entitled where `i` is. -/
theorem Entitled.of_same {log : List Record} {k : ℕ} {i i' : Instance} (h : Entitled log k i)
    (hk : i'.key = i.key) (hb : i'.ballot = i.ballot)
    (hl : ∀ lt', i'.lt = some lt' → lt'.recoveryStatus = .tryPreAccepting →
      ∃ lt, i.lt = some lt ∧ lt.recoveryStatus = .tryPreAccepting)
    (ht : i'.timer = some .fastPath → i.timer = some .fastPath) : Entitled log k i' := by
  constructor
  · intro lt' hlt' hr ho
    obtain ⟨lt, hlt, hr⟩ := hl lt' hlt' hr
    rw [hk, hb]
    exact h.trying lt hlt hr (hb ▸ ho)
  · intro htm ho
    rw [hk, hb]
    exact h.timed (ht htm) (hb ▸ ho)

section Step

variable {T : RangeTree} {older : List Record} {k : ℕ} {ev : Event} {r : Replica}
  {i i' : Instance} {io : List Message} {m : Message} {lt : LeaderTracker}

theorem Licensed.prepared (h : Licensed k i (.step m)) (ht : m.type = .prepareReply)
    (hlt : i.lt = some lt) (hr : lt.recoveryStatus = .preparing) (hn : m.nack = 0)
    (hf : ¬ m.Final) : m.ballot = i.ballot := by
  simp only [Licensed, ht, hlt] at h
  exact h ⟨hr, hn, hf⟩

theorem Licensed.tried (h : Licensed k i (.step m)) (ht : m.type = .tryPreAcceptReply)
    (hlt : i.lt = some lt) (hr : lt.recoveryStatus = .tryPreAccepting)
    (hs : lt.ri.status ≠ .none) (hn : m.nack ≠ 0) : m.ballot = i.ballot ∧ Own k i.ballot := by
  simp only [Licensed, ht, hlt] at h
  exact h ⟨hr, hs, hn⟩

/-- One event: the copy stays entitled, what is sent is vouched for. -/
theorem entitled_step (ht : Happens T older ⟨k, ev, r, i, i', io.map (envelope k)⟩)
    (hc : Licensed k i ev) (hm : ∀ p ∈ older, ∀ m ∈ p.sent, Vouched older m)
    (hi : Entitled older k i) (ha : Act T r i ev i' io) :
    Entitled (⟨k, ev, r, i, i', io.map (envelope k)⟩ :: older) k i'
      ∧ ∀ m ∈ io, Vouched (⟨k, ev, r, i, i', io.map (envelope k)⟩ :: older) (envelope k m) := by
  have hk : k < N := ht.who_lt
  have hr : r.id = k := ht.who_eq
  have hv : ∀ m, ev = .step m → Vouched older m := fun m hev => by
    obtain ⟨⟨p, hp, hpm⟩, -⟩ := ht.source m hev
    exact hm p hp m hpm
  have hkey : ∀ m, ev = .step m → i.key = m.id := fun m hev => (ht.step_key hev).1
  have hforeign : ∀ m, ev = .step m → m.type.Proposal ∨ m.type = .prepare →
      Own m.sender m.ballot ∧ m.sender ≠ k := fun m hev hty =>
    ⟨(hv m hev).own hty, ht.foreign hev (by
      rcases hty with (h | h | h) | h <;> simp [MessageType.Broadcast, h])⟩
  have hanswer : ∀ m, ev = .step m → m.Positive →
      Own k m.ballot ∧ Promised older m.id m.ballot k := fun m hev hty => by
    have : m.dest = k := ht.dest hev (by
      rcases hty.2 with h | h | h <;> simp [MessageType.Broadcast, h])
    exact this ▸ (hv m hev).answer hty
  set t : Record := ⟨k, ev, r, i, i', io.map (envelope k)⟩ with htdef
  have hi := hi.cons t
  have lower : Own k (largerBallot i.ballot r.id) := .inr (by
    rw [hr]; exact replicaFromBallot_largerBallot hk _)
  cases ha with
  | propose =>
    simp only [List.forall_mem_singleton]
    exact ⟨.of_promised fun _ => .inl hc, .of_proposal (.inl rfl) (.inl hc) (.inl hc)⟩
  | checkpoint =>
    have hb : isInitialBallot i.ballot = true := by
      have : i = r.ownInstance := ht.located.2
      rw [this]
      exact (by decide : isInitialBallot 0 = true)
    simp only [List.forall_mem_singleton]
    exact ⟨.of_promised fun _ => .inl hb, .of_proposal (.inl rfl) (.inl hb) (.inl hb)⟩
  | slowTimeout | nackRecover =>
    simp only [List.forall_mem_singleton]
    refine ⟨.of_idle ?_ (by simp [recoverInst]), .of_prepare rfl lower⟩
    rintro _ ⟨⟩
    simp [recoverTracker_preparing]
  | fastTimeout htm =>
    simp only [List.forall_mem_singleton]
    refine ⟨hi.of_same rfl rfl (fun lt hlt hr => ⟨lt, hlt, hr⟩) (by simp), ?_⟩
    exact .of_proposal (.inr (.inr rfl)) (hc htm) (hi.timed htm (hc htm))
  | execute =>
    exact ⟨hi.of_same rfl rfl (fun lt hlt hr => ⟨lt, hlt, hr⟩) id, by simp⟩
  | ignore => exact ⟨hi, by simp⟩
  | preAcceptNack =>
    simp only [List.forall_mem_singleton]
    exact ⟨hi, .of_answer (.inl rfl) fun h => absurd h (by simp [envelope])⟩
  | @preAcceptReply m s hty =>
    simp only [List.forall_mem_singleton]
    obtain ⟨ho, hne⟩ := hforeign m rfl (.inl (.inl hty))
    exact ⟨.of_foreign ho hne, .of_answer (.inl rfl) fun _ =>
      ⟨ho, ((hv m rfl).proposal (.inl hty)).cons t⟩⟩
  | @preAcceptOk m s hty _ _ _ _ _ _ hib =>
    simp only [List.forall_mem_singleton]
    obtain ⟨ho, hne⟩ := hforeign m rfl (.inl (.inl hty))
    exact ⟨.of_foreign ho hne, .of_ok rfl hib⟩
  | okCommit hty hlt | replyCommit hty hlt | acceptedCommit hty hlt | preparedCommit hty hlt =>
    simp only [List.forall_mem_singleton]
    refine ⟨hi.of_same rfl rfl ?_ (by simp), .of_silent (.inr rfl)⟩
    rintro _ ⟨⟩ h
    exact ⟨_, hlt, h⟩
  | @okAccept m lt hty hlt =>
    simp only [List.forall_mem_singleton]
    have hb := (hv m rfl).ok hty
    refine ⟨hi.of_same rfl rfl ?_ id, .of_proposal (.inr (.inr rfl)) (.inl hb) (.inl hb)⟩
    rintro _ ⟨⟩ h
    exact ⟨_, hlt, h⟩
  | okCount hty hlt | nackCount hty hlt | replyCount hty hlt | acceptedCount hty hlt
  | preparedNack hty hlt | triedCount hty hlt =>
    refine ⟨hi.of_same rfl rfl ?_ id, by simp⟩
    rintro _ ⟨⟩ h
    exact ⟨_, hlt, h⟩
  | @replyAccept m lt hty hlt _ _ hn =>
    simp only [List.forall_mem_singleton]
    obtain ⟨ho, hp⟩ := hanswer m rfl ⟨hn, .inl hty⟩
    refine ⟨hi.of_same rfl rfl ?_ id, .of_proposal (.inr (.inr rfl)) ho (hp.cons t)⟩
    rintro _ ⟨⟩ h
    exact ⟨_, hlt, h⟩
  | acceptNack =>
    simp only [List.forall_mem_singleton]
    exact ⟨hi, .of_silent (.inl rfl)⟩
  | @acceptStore m hty =>
    simp only [List.forall_mem_singleton]
    obtain ⟨ho, hne⟩ := hforeign m rfl (.inl (.inr (.inr hty)))
    exact ⟨.of_foreign ho hne, .of_silent (.inl rfl)⟩
  | prepareNack =>
    simp only [List.forall_mem_singleton]
    exact ⟨hi, .of_answer (.inr (.inr rfl)) fun h => absurd h (by simp [envelope])⟩
  | @preparePromise m hty hb =>
    simp only [List.forall_mem_singleton]
    obtain ⟨ho, hne⟩ := hforeign m rfl (.inr hty)
    refine ⟨.of_foreign ho hne, .of_answer (.inr (.inr rfl)) fun hn => ⟨ho, ?_⟩⟩
    exact .of_one hk hne.symm ⟨t, by simp, rfl, hty, rfl, rfl, hn, hb, rfl⟩
  | @preparedCount m lt hty hlt =>
    refine ⟨hi.of_same rfl rfl ?_ id, by simp⟩
    rintro _ ⟨⟩ h
    exact ⟨_, hlt, by rwa [tally_recoveryStatus] at h⟩
  | @preparedNoop m lt lt' hty hlt hrec hn hf | @preparedAdopt m lt lt' hty hlt hrec hn hf =>
    simp only [List.forall_mem_singleton]
    obtain ⟨ho, hp⟩ := hanswer m rfl ⟨hn, .inr (.inr hty)⟩
    rw [hc.prepared hty hlt hrec hn hf] at ho hp
    refine ⟨hi.of_same rfl rfl ?_ id, .of_proposal (.inr (.inr rfl)) ho (hp.cons t)⟩
    rintro _ ⟨⟩ h
    cases h
  | @preparedRestart m lt lt' lt'' c s hty hlt hrec hn hf =>
    simp only [List.forall_mem_singleton]
    obtain ⟨ho, hp⟩ := hanswer m rfl ⟨hn, .inr (.inr hty)⟩
    rw [hc.prepared hty hlt hrec hn hf, ← hkey m rfl] at hp
    rw [hc.prepared hty hlt hrec hn hf] at ho
    exact ⟨.of_promised fun _ => hp.cons t, .of_proposal (.inl rfl) ho (hp.cons t)⟩
  | @preparedTryOwn m lt lt' c hty hlt hrec hn hf | @preparedTry m lt lt' c hty hlt hrec hn hf =>
    simp only [List.forall_mem_singleton]
    obtain ⟨ho, hp⟩ := hanswer m rfl ⟨hn, .inr (.inr hty)⟩
    rw [hc.prepared hty hlt hrec hn hf] at ho hp
    refine ⟨.of_promised fun _ => ?_, .of_proposal (.inr (.inl rfl)) ho (hp.cons t)⟩
    have := hkey m rfl
    rw [← this] at hp
    exact hp.cons t
  | tryNack =>
    simp only [List.forall_mem_singleton]
    exact ⟨hi, .of_answer (.inr (.inl rfl)) fun h => absurd h (by simp [envelope])⟩
  | @tryStore m c hty =>
    simp only [List.forall_mem_singleton]
    obtain ⟨ho, hne⟩ := hforeign m rfl (.inl (.inr (.inl hty)))
    exact ⟨.of_foreign ho hne, .of_answer (.inr (.inl rfl)) fun _ =>
      ⟨ho, ((hv m rfl).proposal (.inr (.inl hty))).cons t⟩⟩
  | triedRaise hty hlt hrec hs hn hb =>
    obtain ⟨hbm, -⟩ := hc.tried hty hlt hrec hs hn
    omega
  | triedPrepare hty hlt hrec hs hn =>
    simp only [List.forall_mem_singleton]
    obtain ⟨hbm, ho⟩ := hc.tried hty hlt hrec hs hn
    refine ⟨hi.of_same rfl rfl ?_ id, .of_prepare rfl (show Own k _ from hbm ▸ ho)⟩
    rintro _ ⟨⟩ h
    exact ⟨_, hlt, h⟩
  | triedDefer hty hlt _ _ _ _ htm =>
    refine ⟨hi.of_same rfl rfl ?_ ?_, by simp⟩
    · rintro _ ⟨⟩ h
      exact ⟨_, hlt, h⟩
    · rcases htm with rfl | rfl <;> simp
  | @triedRestart m lt c b s tm hty hlt hrec hs hn _ hcb =>
    simp only [List.forall_mem_singleton]
    obtain ⟨hbm, ho⟩ := hc.tried hty hlt hrec hs hn
    have hb : b = i.ballot := by rcases hcb with ⟨-, rfl⟩ | ⟨-, rfl⟩ <;> simp [hbm]
    subst hb
    have hp := hi.trying lt hlt hrec ho
    exact ⟨.of_promised fun _ => hp, .of_proposal (.inl rfl) ho hp⟩
  | @triedRestartTwice m lt s s' tm hty hlt hrec hs hn =>
    obtain ⟨hbm, ho⟩ := hc.tried hty hlt hrec hs hn
    have hp := hi.trying lt hlt hrec ho
    rw [← hbm] at ho hp
    simp only [List.forall_mem_cons, List.not_mem_nil, false_imp_iff, implies_true, and_true]
    exact ⟨.of_promised fun _ => hp, .of_proposal (.inl rfl) ho hp, .of_proposal (.inl rfl) ho hp⟩
  | @triedAccept m lt hty hlt _ _ hn =>
    simp only [List.forall_mem_singleton]
    obtain ⟨ho, hp⟩ := hanswer m rfl ⟨hn, .inr (.inl hty)⟩
    refine ⟨hi.of_same rfl rfl ?_ id, .of_proposal (.inr (.inr rfl)) ho (hp.cons t)⟩
    rintro _ ⟨⟩ h
    cases h
  | commit => exact ⟨hi.of_same rfl rfl (fun lt hlt hr => ⟨lt, hlt, hr⟩) (by simp), by simp⟩

end Step

theorem entitled_made {older : List Record} {t : Record}
    (hb : t.before = t.pre.ownInstance
      ∨ t.before = { newInstance t.before.key with timer := some .slowPath }) :
    Entitled older t.who t.before := by
  rcases hb with hb | hb <;> rw [hb]
  · refine .of_idle ?_ (by simp [Replica.ownInstance, newInstance])
    rintro _ ⟨⟩
    simp [newTracker]
  · exact .of_idle (by simp [newInstance]) (by simp)

/-- In a log whose events are all licensed, every copy is entitled and every message vouched for. -/
theorem vouched_of_grown {T : RangeTree} {C : List Record → Record → Prop}
    (hC : ∀ {older t}, C older t → Licensed t.who t.before t.event) {log : List Record}
    (h : Grown (fun older t => Happens T older t ∧ C older t) log) :
    (∀ k id i, Last log k id i → Entitled log k i) ∧ ∀ p ∈ log, ∀ m ∈ p.sent, Vouched log m :=
  run_rule (fun _ h _ => h.cons _) (fun h => h.cons _) (fun _ _ _ _ hb => entitled_made hb)
    (fun _ ht hc _ hm hi ha => entitled_step ht (hC hc) hm hi ha) h

/-- In a run whose events are all licensed, every proposal at a ballot that is not initial comes
after `N / 2` other replicas have promised the ballot. -/
theorem promise_before_propose {T : RangeTree} {w : World} (h : Run T w)
    (hc : ∀ t ∈ w.log, Licensed t.who t.before t.event) {newer older : List Record} {t : Record}
    (hl : w.log = newer ++ t :: older) : t.Backed older := by
  have hg := hl ▸ h.grown.1.and hc
  obtain ⟨ht, -⟩ := hg.entry
  obtain ⟨-, hvouched⟩ := vouched_of_grown (fun h => h) hg.of_append
  intro m hm hty
  have hv := (hvouched t (by simp) m hm).proposal hty
  obtain ⟨io, -, hs⟩ := ht.acts
  rw [hs] at hm
  obtain ⟨m, -, rfl⟩ := List.mem_map.1 hm
  exact hv.of_cons

/-- Replica 1 has pre-accepted replica 0's instance, hears nothing more and recovers it with
replica 2. -/
def recovery : List Move :=
  [proposeAt 0 [49, 48] [50, 48], deliverAt 1 .preAccept ⟨0, 1⟩, timeoutAt 1 ⟨0, 1⟩,
    deliverAt 2 .prepare ⟨0, 1⟩, deliverAt 1 .prepareReply ⟨0, 1⟩]

theorem promise_before_propose_recovery : ∃ w newer t older, Run listTree w
    ∧ w.log = newer ++ t :: older ∧ t.Backed older
    ∧ ∃ m ∈ t.sent, m.type.Proposal ∧ isInitialBallot m.ballot = false := by
  obtain ⟨w, hr, hc, t, ht, hm⟩ := @exists_run recovery
    (fun w => (∀ t ∈ w.log, Licensed t.who t.before t.event)
      ∧ ∃ t ∈ w.log, ∃ m ∈ t.sent, m.type.Proposal ∧ isInitialBallot m.ballot = false) _
    (by decide +kernel)
  obtain ⟨newer, older, hl⟩ := List.append_of_mem ht
  exact ⟨w, newer, t, older, hr, hl, promise_before_propose hr hc hl, hm⟩

/-- Replica 1 starts over at a larger ballot before the answer to its first `PREPARE` arrives. -/
def staleReply : List Move :=
  [proposeAt 0 [49, 48] [50, 48], deliverAt 1 .preAccept ⟨0, 1⟩, timeoutAt 1 ⟨0, 1⟩,
    deliverAt 2 .prepare ⟨0, 1⟩, timeoutAt 1 ⟨0, 1⟩, deliverAt 1 .prepareReply ⟨0, 1⟩]

theorem staleReply_not_backed : ¬ ∀ w, Run listTree w → ∀ newer t older,
    w.log = newer ++ t :: older → t.Backed older := by
  intro h
  obtain ⟨w, hr, t, ht, m, hm, hty, hb, hn⟩ := @exists_run staleReply
    (fun w => ∃ t ∈ w.log.head?, ∃ m ∈ t.sent, m.type.Proposal ∧ isInitialBallot m.ballot = false
      ∧ ∀ p ∈ w.log.tail, ¬ p.Promises m.id m.ballot) _ (by decide +kernel)
  have hl : w.log = [] ++ t :: w.log.tail := by
    rw [List.nil_append, List.eq_cons_of_mem_head? ht]
    rfl
  rcases h w hr [] t _ hl m hm hty with hi | ⟨qs, -, hlen, hq⟩
  · rw [hi] at hb
    cases hb
  · obtain ⟨q, hqs⟩ := List.exists_mem_of_length_pos (lt_of_lt_of_le (by decide) hlen)
    obtain ⟨-, -, p, hp, -, hpp⟩ := hq q hqs
    exact hn p hp hpp

end Epx
