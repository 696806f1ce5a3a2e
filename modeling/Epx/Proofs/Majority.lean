import Epx.Proofs.FastPath

/-!
# ACCEPT at an initial ballot

An `ACCEPT` at an initial ballot is an answer sent on, or the leader's copy after it has merged one.
So what it proposes covers what a replica that pre-accepted the instance computed, as long as the
fast-path timer waits for that answer and nothing is lost on the way.
-/

namespace Epx

open Log

/-- The record pre-accepts the instance. -/
def Record.PreAccepts (t : Record) (id : InstanceId) : Prop :=
  match t.event with
  | .step m =>
    m.type = .preAccept ∧ m.id = id ∧ t.before.ballot ≤ m.ballot
      ∧ (t.before.status = .none ∨ t.before.status = .preAccepted)
      ∧ (t.after.status = .preAccepted ∨ t.after.status = .preAcceptedEq)
  | _ => False

instance (t : Record) (id : InstanceId) : Decidable (t.PreAccepts id) := by
  unfold Record.PreAccepts
  exact match t.event with
  | .propose _ | .checkpoint _ | .timeout _ _ | .step _ | .execute _ => inferInstance

/-- Replica `q` has pre-accepted the instance with no larger seq and no other dependency. -/
def Covers (log : List Record) (id : InstanceId) (seq : ℕ) (deps : Deps) (q : ℕ) : Prop :=
  ∃ p ∈ log, p.who = q ∧ p.PreAccepts id ∧ p.after.seq ≤ seq
    ∧ ∀ id, p.after.deps.Has id → deps.Has id

/-- Every `ACCEPT` the record sends at an initial ballot covers what `N / 2` other replicas have
computed when they pre-accepted the instance. -/
def Record.Majority (older : List Record) (t : Record) : Prop :=
  ∀ m ∈ t.sent, m.type = .accept → isInitialBallot m.ballot = true →
    ∃ qs : List ℕ, qs.Nodup ∧ N / 2 ≤ qs.length
      ∧ ∀ q ∈ qs, q < N ∧ q ≠ t.who ∧ Covers older m.id m.seq m.deps q

/-- `checkpoint` sends the seq 0 of its instance; at an initial ballot a pre-accepted copy meets a
second `PRE_ACCEPT` only if that lists the stored dependencies, the leader has room for the
dependencies of an answer, and its fast-path timer goes off after the answers it needs. -/
def Waiting (i : Instance) : Event → Prop
  | .checkpoint m => m.seq = 0
  | .timeout _ _ =>
    i.timer = some .fastPath ∧ isInitialBallot i.ballot = true →
      ∃ lt ∈ i.lt, N / 2 ≤ lt.preAcceptOks
  | .step m =>
    match m.type, i.lt with
    | .preAccept, _ =>
      i.status = .preAccepted ∧ i.ballot ≤ m.ballot ∧ isInitialBallot m.ballot = true →
        ∀ d ∈ i.deps.entries, m.deps.Has d.id
    | .preAcceptReply, some _ =>
      i.status = .preAccepted ∧ i.ballot = m.ballot ∧ isInitialBallot m.ballot = true
          ∧ m.nack = 0 →
        (i.deps.allIds m.deps).length ≤ maxDeps
    | _, _ => True
  | _ => True

instance (i : Instance) (ev : Event) : Decidable (Waiting i ev) := by
  unfold Waiting
  exact match ev with
  | .propose _ | .checkpoint _ | .timeout _ _ | .execute _ => inferInstance
  | .step m => by
    dsimp only
    exact match m.type, i.lt with
    | .preAcceptReply, none | .preAcceptReply, some _ => inferInstance
    | .phase1, _ | .preAccept, _ | .preAcceptOk, _ | .accept, _ | .acceptReply, _ | .commit, _
    | .prepare, _ | .prepareReply, _ | .tryPreAccept, _ | .tryPreAcceptReply, _ | .execute, _ =>
      inferInstance

theorem Covers.cons {log : List Record} {id : InstanceId} {seq : ℕ} {deps : Deps} {q : ℕ}
    (h : Covers log id seq deps q) (t : Record) : Covers (t :: log) id seq deps q := by
  obtain ⟨p, hp, h⟩ := h
  exact ⟨p, List.mem_cons_of_mem t hp, h⟩

theorem Covers.mono {log : List Record} {id : InstanceId} {seq seq' : ℕ} {deps deps' : Deps}
    {q : ℕ} (h : Covers log id seq deps q) (hs : seq ≤ seq')
    (hd : ∀ id, deps.Has id → deps'.Has id) : Covers log id seq' deps' q := by
  obtain ⟨p, hp, hw, hpa, hps, hpd⟩ := h
  exact ⟨p, hp, hw, hpa, hps.trans hs, fun id h => hd id (hpd id h)⟩

/-- A positive pre-accept answer at an initial ballot covers what its sender computed. -/
def Message.Covering (log : List Record) (m : Message) : Prop :=
  m.type = .preAcceptOk ∨ (m.type = .preAcceptReply ∧ m.nack = 0) →
    isInitialBallot m.ballot = true → Covers log m.id m.seq m.deps m.sender

/-- A leader that waits for its fast-path timer at an initial ballot with an answer counted covers
what another replica computed. -/
def Instance.Covering (log : List Record) (k : ℕ) (i : Instance) : Prop :=
  i.timer = some .fastPath → isInitialBallot i.ballot = true →
    ∀ lt, i.lt = some lt → lt.preAcceptOks ≠ 0 →
      ∃ q, q < N ∧ q ≠ k ∧ Covers log i.key i.seq i.deps q

/-- What an `ACCEPT` at an initial ballot is made of: the copy whose fast-path timer goes off, or the
answer that decides. -/
theorem Act.accepts {T : RangeTree} {r : Replica} {i i' : Instance} {ev : Event}
    {io : List Message} {a : Message} {k : ℕ} (h : Act T r i ev i' io) (hi : i.Rooted k)
    (hm : ∀ m, ev = .step m → m.Rooted) (ha : a ∈ io) (hty : a.type = .accept)
    (hib : isInitialBallot a.ballot = true) :
    (∃ id m, ev = .timeout id m ∧ i.timer = some .fastPath
        ∧ a = { messageFromInstance m i with type := .accept })
      ∨ ∃ m, ev = .step m ∧ (m.type = .preAcceptOk ∨ (m.type = .preAcceptReply ∧ m.nack = 0))
        ∧ a = { m with type := .accept } := by
  cases h with
  | fastTimeout htm =>
    rw [List.mem_singleton] at ha
    exact .inl ⟨_, _, rfl, htm, ha⟩
  | okAccept ht =>
    rw [List.mem_singleton] at ha
    exact .inr ⟨_, rfl, .inl ht, ha⟩
  | replyAccept ht _ _ _ hn =>
    rw [List.mem_singleton] at ha
    exact .inr ⟨_, rfl, .inr ⟨ht, hn⟩, ha⟩
  | preparedNoop _ hlt hr | preparedAdopt _ hlt hr =>
    rw [List.mem_singleton] at ha
    subst ha
    have := hi.recovering _ hlt (by rw [hr]; nofun)
    exact absurd (this.symm.trans hib) nofun
  | triedAccept ht _ _ _ hn =>
    rw [List.mem_singleton] at ha
    subst ha
    have := (hm _ rfl).above (.inr (.inr ⟨ht, hn⟩))
    exact absurd (this.symm.trans hib) nofun
  | execute | ignore | okCount | nackCount | replyCount | acceptedCount | preparedNack
  | preparedCount | triedDefer | triedCount | commit => simp at ha
  | triedRestartTwice =>
    simp only [List.mem_cons, List.not_mem_nil, or_false] at ha
    rcases ha with rfl | rfl <;> cases hty
  | _ =>
    rw [List.mem_singleton] at ha
    subst ha
    cases hty

section Step

variable {T : RangeTree} {older : List Record} {k : ℕ} {ev : Event} {r : Replica}
  {i i' : Instance} {io : List Message} {m : Message} {lt : LeaderTracker}

theorem covering_sent (ht : Happens T older ⟨k, ev, r, i, i', io.map (envelope k)⟩)
    (hc : Waiting i ev) (hr : Record.Rooted ⟨k, ev, r, i, i', io.map (envelope k)⟩)
    (ha : Act T r i ev i' io) :
    ∀ m ∈ io, (envelope k m).Covering (⟨k, ev, r, i, i', io.map (envelope k)⟩ :: older) := by
  have hroot : i.Rooted k := hr.before
  cases ha with
  | preAcceptNack =>
    simp only [List.forall_mem_singleton]
    rintro (h | ⟨-, h⟩)
    · cases h
    · cases h
  | @preAcceptReply m s hty hst hb hs =>
    simp only [List.forall_mem_singleton]
    intro _ hib
    refine ⟨_, List.mem_cons_self, rfl, ⟨hty, rfl, hb, hst.symm, ?_⟩, le_rfl, fun _ h => h⟩
    simp only [preAcceptInst]
    split_ifs <;> simp
  | @preAcceptOk m s hty hst hb hs hseq hu _ hib =>
    simp only [List.forall_mem_singleton]
    intro _ _
    refine ⟨_, List.mem_cons_self, rfl, ⟨hty, rfl, hb, hst.symm, ?_⟩, hseq.le, fun id h => ?_⟩
    · simp only [preAcceptInst]
      split_ifs
      simp
    · -- nothing was added to what was stored, which the message lists
      have hd : (preAcceptInst i m s).deps = i.deps := sdForCommand_deps hs hu
      have h : i.deps.Has id := hd ▸ h
      rcases hst with hst | hst
      · simp only [Waiting, hty] at hc
        obtain ⟨d, hdm, rfl⟩ := h
        exact hc ⟨hst, hb, hib⟩ d hdm
      · rw [hroot.blank hst] at h
        exact absurd h (Deps.not_has_zero id)
  | execute | ignore | okCount | nackCount | replyCount | acceptedCount | preparedNack
  | preparedCount | triedDefer | triedCount | commit => simp
  | triedRestartTwice =>
    simp only [List.forall_mem_cons, List.not_mem_nil, false_imp_iff, implies_true, and_true]
    exact ⟨fun h => absurd h (by simp [envelope, phase1Msg]),
      fun h => absurd h (by simp [envelope, phase1Msg])⟩
  | _ =>
    simp only [List.forall_mem_singleton]
    exact fun h => absurd h (by simp [envelope, phase1Msg, recoverMsg])

/-- What a pre-accept answer at the leader's start ballot answers: the copy covers it. -/
theorem answer_covered (hg : Grown (Happens T) older)
    (ht : Happens T older ⟨k, ev, r, i, i', io.map (envelope k)⟩)
    (hcheck : ∀ p ∈ older, ∀ m, p.event = .checkpoint m → m.seq = 0) (hev : ev = .step m)
    (hop : Opening older k i lt) {p : Record} {a : Message} (hp : p ∈ older) (ho : p.event.Assigns)
    (ha : a ∈ p.sent) (hid : a.id = m.id) (has : a.sender = m.dest)
    (hnb : ¬ m.type.Broadcast) : a.seq ≤ i.seq ∧ a.deps = i.deps := by
  obtain ⟨hkey, -, h₀⟩ := ht.step_key hev
  have hkey : i.key = m.id := hkey
  have hdest : m.dest = k := ht.dest hev hnb
  obtain ⟨p', hp', hw', ho', hk', -, -, -, hsent'⟩ := hop.opened
  obtain ⟨_, _, -, -, hph⟩ := hg.of_mem hp
  have hpp : p = p' := by
    refine opens_unique hg hp hp' ho ho' ?_ ?_ ?_
    · rw [hw', ← hdest, ← has, hph.sender ha]
    · rw [hk', hph.key, ← hph.sent_id ha, hid, hkey]
    · rw [hph.key, ← hph.sent_id ha, hid]
      exact h₀
  subst hpp
  obtain ⟨had, ⟨has, -⟩ | ⟨-, m', hm', has⟩⟩ := hsent' a ha
  · exact ⟨has.le, had⟩
  · rw [has, hcheck p hp m' hm']
    exact ⟨Nat.zero_le _, had⟩

theorem covering_step (hg : Grown (Happens T) older)
    (ht : Happens T older ⟨k, ev, r, i, i', io.map (envelope k)⟩) (hu : Unwrapped i ev)
    (hc : Waiting i ev) (hr : Record.Rooted ⟨k, ev, r, i, i', io.map (envelope k)⟩)
    (hcheck : ∀ p ∈ older, ∀ m, p.event = .checkpoint m → m.seq = 0)
    (hopen : i.AtStart → ∀ lt, i.lt = some lt → Opening older k i lt)
    (hopened : ∀ p ∈ older, ∀ m ∈ p.sent, m.Opened older)
    (hm : ∀ p ∈ older, ∀ m ∈ p.sent, m.Covering older) (hi : i.Covering older k)
    (ha : Act T r i ev i' io) :
    i'.Covering (⟨k, ev, r, i, i', io.map (envelope k)⟩ :: older) k := by
  have hk : k < N := ht.who_lt
  have hrid : r.id = k := ht.who_eq
  have hroot : i.Rooted k := hr.before
  set t : Record := ⟨k, ev, r, i, i', io.map (envelope k)⟩ with htdef
  have same : i'.key = i.key → i'.seq = i.seq → i'.deps = i.deps → i.ballot ≤ i'.ballot →
      i'.timer = i.timer → (∀ lt', i'.lt = some lt' → ∃ lt, i.lt = some lt
        ∧ lt'.preAcceptOks = lt.preAcceptOks) → i'.Covering (t :: older) k := by
    intro hk hs hd hb htm hl hf hib lt' hlt' hne
    obtain ⟨lt, hlt, he⟩ := hl lt' hlt'
    obtain ⟨q, hq, hqk, hcov⟩ := hi (htm ▸ hf) (initial_of_le hb hib) lt hlt (he ▸ hne)
    rw [hk, hs, hd]
    exact ⟨q, hq, hqk, hcov.cons t⟩
  -- an answer counted, from another replica
  have answered : ∀ m, ev = .step m →
      m.type = .preAcceptOk ∨ (m.type = .preAcceptReply ∧ m.nack = 0) →
      isInitialBallot m.ballot = true →
      m.sender < N ∧ m.sender ≠ k ∧ Covers older m.id m.seq m.deps m.sender ∧ m.Opened older := by
    intro m hev hty hib
    have hnb : ¬ m.type.Broadcast := by
      rcases hty with h | ⟨h, -⟩ <;> simp [MessageType.Broadcast, h]
    obtain ⟨⟨p, hp, hpm⟩, -⟩ := ht.source m hev
    obtain ⟨_, _, -, -, hph⟩ := hg.of_mem hp
    have hne := (hr.msg m hev).apart hnb
    rw [ht.dest hev hnb] at hne
    exact ⟨hph.sender hpm ▸ hph.who_lt, hne, hm p hp m hpm hty hib, hopened p hp m hpm⟩
  cases ha with
  | propose hlt =>
    rintro - - _ ⟨⟩ hne
    have ho : i = r.ownInstance := ht.located.2
    rw [ho] at hlt
    cases hlt
    exact absurd rfl hne
  | checkpoint =>
    intro _ _ lt hlt hne
    have ho : i = r.ownInstance := ht.located.2
    rw [ho] at hlt
    cases hlt
    exact absurd rfl hne
  | slowTimeout | nackRecover | fastTimeout | okCommit | replyCommit | acceptedCommit
  | preparedCommit | commit => exact (by rintro ⟨⟩)
  | execute | ignore | preAcceptNack | acceptNack | prepareNack | tryNack =>
    exact same rfl rfl rfl le_rfl rfl fun lt hlt => ⟨lt, hlt, rfl⟩
  | @preAcceptReply m s hty _ hb | @preAcceptOk m s hty _ hb =>
    intro _ hib lt hlt
    exact absurd hlt (hr.lone ht rfl (.inl hty) hb hib lt)
  | @acceptStore m hty _ hb =>
    intro _ hib lt hlt
    exact absurd hlt (hr.lone ht rfl (.inr hty) hb hib lt)
  | @okAccept m lt hty hlt hst hib =>
    rintro - - _ ⟨⟩ -
    have hs : i.AtStart := ⟨(ht.step_key rfl).1 ▸ (ht.step_key rfl).2.2, hst, hib⟩
    obtain ⟨hq, hqk, hcov, hopm⟩ := answered m rfl (.inl hty) ((hr.msg m rfl).ok hty)
    obtain ⟨p, hp, ho, a, ha, -, hid, has, hseq, hdeps⟩ := hopm.ok hty
    obtain ⟨h₁, h₂⟩ := answer_covered hg ht hcheck rfl (hopen hs lt hlt) hp ho ha hid has
      (by simp [MessageType.Broadcast, hty])
    have hkey : i.key = m.id := (ht.step_key rfl).1
    refine ⟨m.sender, hq, hqk, ?_⟩
    show Covers _ i.key i.seq i.deps m.sender
    rw [hkey]
    exact (hcov.mono (hseq ▸ h₁) (by rw [hdeps, h₂]; exact fun _ h => h)).cons t
  | okCount hty hlt hst hib hn =>
    have hs : i.AtStart := ⟨(ht.step_key rfl).1 ▸ (ht.step_key rfl).2.2, hst, hib⟩
    exact absurd (hopen hs _ hlt).decides hn
  | @replyAccept m lt hty hlt hst hb hm =>
    rintro - hib _ ⟨⟩ -
    have hib : isInitialBallot i.ballot = true := hib
    obtain ⟨hq, hqk, hcov, -⟩ := answered m rfl (.inr ⟨hty, hm⟩) (hb ▸ hib)
    have hkey : i.key = m.id := (ht.step_key rfl).1
    have hroom : (i.deps.allIds m.deps).length ≤ maxDeps := by
      simp only [Waiting, hty, hlt] at hc
      exact hc ⟨hst, hb, hb ▸ hib, hm⟩
    refine ⟨m.sender, hq, hqk, ?_⟩
    show Covers _ i.key (max i.seq m.seq) (i.deps.merge m.deps.slots).1 m.sender
    rw [hkey]
    exact (hcov.mono (le_max_right _ _) fun id h => Deps.has_merge hroom h).cons t
  | replyCount hty hlt hst hb hm hn =>
    intro _ hib
    have hs : i.AtStart := ⟨(ht.step_key rfl).1 ▸ (ht.step_key rfl).2.2, hst, hib⟩
    exact absurd (hopen hs _ hlt).decides hn
  | nackCount hty hlt | acceptedCount hty hlt =>
    refine same rfl rfl rfl le_rfl rfl ?_
    rintro _ ⟨⟩
    exact ⟨_, hlt, rfl⟩
  | @preparePromise m hty =>
    intro _ hib
    exact absurd (((hr.msg m rfl).above (.inl hty)).symm.trans hib) (by rintro ⟨⟩)
  | preparedNack hty hlt hrec | preparedCount hty hlt hrec | preparedNoop hty hlt hrec
  | preparedAdopt hty hlt hrec | preparedRestart hty hlt hrec | preparedTryOwn hty hlt hrec
  | preparedTry hty hlt hrec | triedPrepare hty hlt hrec | triedDefer hty hlt hrec
  | triedAccept hty hlt hrec | triedCount hty hlt hrec =>
    intro _ hib
    exact absurd hib (hroot.above hlt (by rw [hrec]; rintro ⟨⟩))
  | @tryStore m c hty =>
    intro _ hib
    exact absurd (((hr.msg m rfl).above (.inr (.inl hty))).symm.trans hib) (by rintro ⟨⟩)
  | triedRaise hty hlt hrec hs hn hb =>
    intro _ hib
    have := largerBallot_not_initial (hrid ▸ hk) ((hu.tried hty hlt hrec hs hn).2 hb)
    exact absurd (this.symm.trans hib) (by rintro ⟨⟩)
  | @triedRestart m lt c b s tm hty hlt hrec hs hn hb hcb =>
    intro _ hib
    have hbm := (hu.tried hty hlt hrec hs hn).1
    have hb : isInitialBallot b = false := by
      rcases hcb with ⟨-, rfl⟩ | ⟨-, rfl⟩
      · exact hbm
      · exact not_initial_of_le hb hbm
    exact absurd (hb.symm.trans hib) (by rintro ⟨⟩)
  | triedRestartTwice hty hlt hrec hs hn =>
    intro _ hib
    exact absurd ((hu.tried hty hlt hrec hs hn).1.symm.trans hib) (by rintro ⟨⟩)

end Step

theorem Instance.Covering.cons {log : List Record} {k : ℕ} {i : Instance} (h : i.Covering log k)
    (t : Record) : i.Covering (t :: log) k := by
  intro hf hib lt hlt hne
  obtain ⟨q, hq, hqk, hcov⟩ := h hf hib lt hlt hne
  exact ⟨q, hq, hqk, hcov.cons t⟩

/-- In a log whose fast-path timers wait: what the copies and answers at initial ballots cover. -/
theorem grown_covering {T : RangeTree} {C : List Record → Record → Prop}
    (hC : ∀ {older t}, C older t → Unwrapped t.before t.event ∧ Waiting t.before t.event)
    {log : List Record} (h : Grown (fun older t => Happens T older t ∧ C older t) log) :
    (∀ k id i, Last log k id i → i.Covering log k)
      ∧ ∀ p ∈ log, ∀ m ∈ p.sent, m.Covering log := by
  refine run_rule (C := fun older t => C older t ∧ t.Rooted)
    (I := fun log k i => i.Covering log k) (M := fun log m => m.Covering log) ?_ ?_ ?_ ?_
    (grown_rooted (fun h => (hC h).1) h)
  · intro older t k i _ hi _
    exact hi.cons t
  · intro older t m hm hty hib
    exact (hm hty hib).cons t
  · rintro older t - - - - (hb | hb) hf <;> rw [hb] at hf <;> cases hf
  · intro older k ev r i i' io hg ht hc _ hm hi ha
    obtain ⟨hopen, hopened⟩ := grown_opening (fun h => (hC h.1).1) hg
    refine ⟨?_, covering_sent ht (hC hc.1).2 hc.2 ha⟩
    refine covering_step (hg.imp fun _ _ h => h.1) ht (hC hc.1).1 (hC hc.1).2 hc.2 ?_ ?_ hopened hm
      hi ha
    · intro p hp m hm
      obtain ⟨_, _, -, -, -, hcp, -⟩ := hg.of_mem hp
      have := (hC hcp).2
      rwa [hm] at this
    · intro hs lt hlt
      rcases ht.before with hl | ⟨-, hb | hb⟩
      · exact hopen _ _ _ hl hs lt hlt
      · rw [show i = _ from hb] at hs
        exact absurd hs.2.1 nofun
      · rw [show i = _ from hb] at hs
        exact absurd hs.2.1 nofun

/-- In a run whose ballots do not wrap and whose fast-path timers wait for an answer, every `ACCEPT`
at an initial ballot covers what a majority computed. -/
theorem accept_majority {T : RangeTree} {w : World} (h : Run T w)
    (hc : ∀ t ∈ w.log, Unwrapped t.before t.event ∧ Waiting t.before t.event)
    {newer older : List Record} {t : Record} (hl : w.log = newer ++ t :: older) :
    t.Majority older := by
  have hg := (hl ▸ h.grown.1.and hc).of_append
  obtain ⟨ht, hu, hw⟩ := hg.head
  obtain ⟨-, -, hr⟩ := (grown_rooted (fun h => h.1) hg).head
  obtain ⟨hcopy, hmsg⟩ := grown_covering (fun h => h) hg.tail
  intro a ha hty hib
  obtain ⟨io, hact, hs⟩ := ht.acts
  rw [hs] at ha
  obtain ⟨a, hmem, rfl⟩ := List.mem_map.1 ha
  rcases hact.accepts hr.before hr.msg hmem hty hib with ⟨id, m, hev, htm, rfl⟩ | ⟨m, hev, hm, rfl⟩
  · -- the timer has waited for an answer, and the copy covers one
    rw [hev] at hw
    have hib : isInitialBallot t.before.ballot = true := hib
    obtain ⟨lt, hlt, hn⟩ := hw ⟨htm, hib⟩
    have hlast : Last older t.who t.before.key t.before := by
      rcases ht.before with hb | ⟨-, hb | hb⟩
      · exact hb
      · rw [hb] at htm
        cases htm
      · rw [hb] at htm
        cases htm
    rw [half_N] at hn
    obtain ⟨q, hq, hqk, hcov⟩ := hcopy _ _ _ hlast htm hib lt hlt (by omega)
    refine ⟨[q], by simp, by simp [half_N], ?_⟩
    simp only [List.forall_mem_singleton]
    exact ⟨hq, hqk, hcov⟩
  · -- an answer sent on covers what its sender computed
    have hnb : ¬ m.type.Broadcast := by
      rcases hm with h | ⟨h, -⟩ <;> simp [MessageType.Broadcast, h]
    obtain ⟨⟨p, hp, hpm⟩, -⟩ := ht.source m hev
    obtain ⟨_, _, -, -, hph, -⟩ := hg.tail.of_mem hp
    have hne := (hr.msg m hev).apart hnb
    rw [ht.dest hev hnb] at hne
    refine ⟨[m.sender], by simp, by simp [half_N], ?_⟩
    simp only [List.forall_mem_singleton]
    exact ⟨hph.sender hpm ▸ hph.who_lt, hne, hmsg p hp m hpm hm hib⟩

/-- A write that meets one the follower has, proposed by the follower. -/
def oneDependency : List Move :=
  [proposeAt 1 [49, 48] [50, 48], proposeAt 0 [49, 48] [50, 48], deliverAt 1 .preAccept ⟨0, 1⟩,
    deliverAt 0 .preAcceptReply ⟨0, 1⟩]

theorem accept_majority_dependency : ∃ w newer t older, Run listTree w
    ∧ w.log = newer ++ t :: older ∧ t.Majority older
    ∧ ∃ m ∈ t.sent, m.type = .accept ∧ isInitialBallot m.ballot = true := by
  obtain ⟨w, hr, hc, t, ht, hm⟩ := @exists_run oneDependency
    (fun w => (∀ t ∈ w.log, Unwrapped t.before t.event ∧ Waiting t.before t.event)
      ∧ ∃ t ∈ w.log, ∃ m ∈ t.sent, m.type = .accept ∧ isInitialBallot m.ballot = true) _
    (by decide +kernel)
  obtain ⟨newer, older, hl⟩ := List.append_of_mem ht
  exact ⟨w, newer, t, older, hr, hl, accept_majority hr hc hl, hm⟩

/-- The fast-path timer of a write goes off before any replica has answered. -/
def impatient : List Move := [proposeAt 0 [49, 48] [50, 48], timeoutAt 0 ⟨0, 1⟩]

theorem impatient_no_majority : ¬ ∀ w, Run listTree w → ∀ newer t older,
    w.log = newer ++ t :: older → t.Majority older := by
  intro h
  obtain ⟨w, hr, t, ht, m, hm, hty, hib, hn⟩ := @exists_run impatient
    (fun w => ∃ t ∈ w.log.head?, ∃ m ∈ t.sent, m.type = .accept ∧ isInitialBallot m.ballot = true
      ∧ ∀ p ∈ w.log.tail, ¬ p.PreAccepts m.id) _ (by decide +kernel)
  have hl : w.log = [] ++ t :: w.log.tail := by
    rw [List.nil_append, List.eq_cons_of_mem_head? ht]
    rfl
  obtain ⟨qs, -, hlen, hq⟩ := h w hr [] t _ hl m hm hty hib
  obtain ⟨q, hqs⟩ := List.exists_mem_of_length_pos (lt_of_lt_of_le (by decide) hlen)
  obtain ⟨-, -, p, hp, -, hpa, -⟩ := hq q hqs
  exact hn p hp hpa

end Epx
