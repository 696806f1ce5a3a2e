import Epx.Proofs.Owners
import Epx.Proofs.Proposals

/-!
# Slow-path commits

A replica proposes at a ballot of its own, and once it has sent an `ACCEPT` there its copy keeps the
values of that `ACCEPT` until it is decided or the ballot is raised. So the values an `ACCEPT_REPLY`
gives back are the copy's.
-/

namespace Epx

open Log

/-- The record stores what an `ACCEPT` of `id` at ballot `b` asks for. -/
def Record.Stores (t : Record) (id : InstanceId) (b : ℕ) : Prop :=
  match t.event with
  | .step m =>
    m.type = .accept ∧ m.id = id ∧ m.ballot = b ∧ t.after.status = .accepted ∧ t.after.ballot = b
  | _ => False

instance (t : Record) (id : InstanceId) (b : ℕ) : Decidable (t.Stores id b) := by
  unfold Record.Stores
  exact match t.event with
  | .propose _ | .checkpoint _ | .timeout _ _ | .step _ | .execute _ => inferInstance

/-- `accept_reply` commits. -/
def Record.SlowCommits (t : Record) : Prop :=
  t.before.status = .accepted ∧ t.after.status = .committed
    ∧ match t.event with
      | .step m => m.type = .acceptReply
      | _ => False

instance (t : Record) : Decidable t.SlowCommits := by
  unfold Record.SlowCommits
  exact match t.event with
  | .propose _ | .checkpoint _ | .timeout _ _ | .step _ | .execute _ => inferInstance

/-- `N / 2` other replicas have stored, as `ACCEPTED` at the ballot of the record's copy, the
command, the seq and the dependency ids it has. -/
def Record.SlowSound (older : List Record) (t : Record) : Prop :=
  ∃ qs : List ℕ, qs.Nodup ∧ N / 2 ≤ qs.length ∧ ∀ q ∈ qs, q < N ∧ q ≠ t.who
    ∧ ∃ p ∈ older, p.who = q ∧ p.Stores t.after.key t.after.ballot
      ∧ p.after.command = t.after.command ∧ p.after.seq = t.after.seq
      ∧ p.after.deps.SameIds t.after.deps

/-- An `ACCEPT` is stored over a copy that has its command, an answer to `PREPARE` is acted on only
while the record is as `recover` or an answer left it, and every event but an `ACCEPT_REPLY`
matches. -/
def Storing (i : Instance) : Event → Prop
  | .step m =>
    match m.type, i.lt with
    | .acceptReply, _ => True
    | .accept, _ => ¬ i.Decided ∧ i.ballot ≤ m.ballot → m.command = i.command
    | .prepareReply, some lt =>
      (lt.recoveryStatus = .preparing ∧ m.nack = 0 ∧ ¬ m.Final ∧ lt.ri.status = .none →
        i.status = .none) ∧ Matching i (.step m)
    | _, _ => Matching i (.step m)
  | ev => Matching i ev

instance (i : Instance) (ev : Event) : Decidable (Storing i ev) := by
  unfold Storing
  exact match ev with
  | .propose _ | .checkpoint _ | .timeout _ _ | .execute _ => inferInstance
  | .step m => by
    dsimp only
    exact match m.type, i.lt with
    | .prepareReply, none | .prepareReply, some _ => inferInstance
    | .phase1, _ | .preAccept, _ | .preAcceptOk, _ | .preAcceptReply, _ | .accept, _
    | .acceptReply, _ | .commit, _ | .prepare, _ | .tryPreAccept, _ | .tryPreAcceptReply, _
    | .execute, _ => inferInstance

/-- The replica expects no answer that would make it propose at its ballot once more. -/
def Instance.Idle (i : Instance) : Prop :=
  i.status ≠ .none ∧ ∀ lt, i.lt = some lt → lt.recoveryStatus ≠ .tryPreAccepting
    ∧ (lt.recoveryStatus = .preparing → lt.ri.status = .none)

/-- The message has the command, seq and dependencies of the copy, which is accepted. -/
def Message.Holds (a : Message) (i : Instance) : Prop :=
  i.status = .accepted ∧ a.command = i.command ∧ a.seq = i.seq ∧ a.deps = i.deps

/-- The copy keeps what the replica has proposed with the message. -/
def Message.Stands (a : Message) (i : Instance) : Prop :=
  i.Idle ∧ (a.type = .accept → i.Decided ∨ a.Holds i)

/-- Replica `k` has sent the `PRE_ACCEPT` or `ACCEPT` of the instance. -/
def Proposed (log : List Record) (k : ℕ) (id : InstanceId) (a : Message) : Prop :=
  Sent log k a ∧ a.id = id ∧ (a.type = .preAccept ∨ a.type = .accept)

/-- Where replica `k`'s copy is with what the replica has proposed. -/
structure Instance.Bound (log : List Record) (k : ℕ) (i : Instance) : Prop where
  below : ∀ a, Proposed log k i.key a → a.ballot ≤ i.ballot
  stands : ∀ a, Proposed log k i.key a → a.ballot = i.ballot → a.Stands i
  armed : i.timer = some .fastPath → i.Idle

/-- Which requests an answer answers. -/
structure Message.Echoes (log : List Record) (m : Message) : Prop where
  reply : m.type = .preAcceptReply → m.nack = 0 →
    ∃ a, Sent log m.dest a ∧ a.type = .preAccept ∧ a.id = m.id ∧ a.ballot = m.ballot
  accepted : m.type = .acceptReply → m.nack = 0 →
    (∃ a, Sent log m.dest a ∧ a.type = .accept ∧ a.id = m.id ∧ a.ballot = m.ballot
      ∧ a.command = m.command ∧ a.seq = m.seq ∧ a.deps = m.deps)
    ∧ ∃ p ∈ log, p.who = m.sender ∧ p.Stores m.id m.ballot
      ∧ p.after.command = m.command ∧ p.after.seq = m.seq ∧ p.after.deps = m.deps

theorem Message.Echoes.cons {log : List Record} {m : Message} (h : m.Echoes log) (t : Record) :
    m.Echoes (t :: log) where
  reply ht hn := by
    obtain ⟨a, ha, h⟩ := h.reply ht hn
    exact ⟨a, ha.cons t, h⟩
  accepted ht hn := by
    obtain ⟨⟨a, ha, h⟩, p, hp, h'⟩ := h.accepted ht hn
    exact ⟨⟨a, ha.cons t, h⟩, p, List.mem_cons_of_mem t hp, h'⟩

theorem Message.Echoes.of_other {log : List Record} {m : Message}
    (h : m.type = .preAcceptReply ∨ m.type = .acceptReply → m.nack ≠ 0) : m.Echoes log :=
  ⟨fun ht hn => absurd hn (h (.inl ht)), fun ht hn => absurd hn (h (.inr ht))⟩

theorem Instance.Bound.cons {log : List Record} {k : ℕ} {i : Instance} (h : i.Bound log k)
    {t : Record} (ht : t.who = k → ∀ a ∈ t.sent, a.id ≠ i.key) : i.Bound (t :: log) k := by
  have older : ∀ a, Proposed (t :: log) k i.key a → Proposed log k i.key a := by
    rintro a ⟨ha, hid, hty⟩
    rcases sent_cons.1 ha with ⟨hw, ha⟩ | ha
    · exact absurd hid (ht hw a ha)
    · exact ⟨ha, hid, hty⟩
  exact ⟨fun a ha => h.below a (older a ha), fun a ha => h.stands a (older a ha), h.armed⟩

section Step

variable {T : RangeTree} {older : List Record} {k : ℕ} {ev : Event} {r : Replica}
  {i i' : Instance} {io : List Message} {m : Message} {lt : LeaderTracker}

namespace Instance.Bound

/-- What has to be shown of the copy after an event, where its ballot has not fallen: of what the
event sends, and of what was sent before at the new ballot. -/
theorem step (h : i.Bound older k) (hk : i'.key = i.key) (hb : i.ballot ≤ i'.ballot)
    (hnew : ∀ a ∈ io, a.type = .preAccept ∨ a.type = .accept → a.ballot = i'.ballot ∧ i'.Idle
      ∧ (a.type = .accept → a.Holds i'))
    (hold : ∀ a, Proposed older k i.key a → a.ballot = i'.ballot → a.Stands i')
    (harm : i'.timer = some .fastPath → i'.Idle) :
    i'.Bound (⟨k, ev, r, i, i', io.map (envelope k)⟩ :: older) k := by
  have split : ∀ a, Proposed (⟨k, ev, r, i, i', io.map (envelope k)⟩ :: older) k i'.key a →
      (a.ballot = i'.ballot ∧ a.Stands i') ∨ Proposed older k i.key a := by
    rintro a ⟨ha, hid, hty⟩
    rcases sent_cons.1 ha with ⟨-, ha⟩ | ha
    · obtain ⟨b, hb, rfl⟩ := List.mem_map.1 ha
      obtain ⟨h₁, h₂, h₃⟩ := hnew b hb hty
      exact .inl ⟨h₁, h₂, fun ht => .inr (h₃ ht)⟩
    · exact .inr ⟨ha, hid.trans hk, hty⟩
  refine ⟨fun a ha => ?_, fun a ha hab => ?_, harm⟩
  · rcases split a ha with ⟨h₁, -⟩ | ha
    · exact h₁.le
    · exact (h.below a ha).trans hb
  · rcases split a ha with ⟨-, h₂⟩ | ha
    · exact h₂
    · exact hold a ha hab

theorem keep (h : i.Bound older k) (hb : i'.ballot = i.ballot) (hidle : i.Idle → i'.Idle)
    (hdec : i.Decided → i'.Decided)
    (hacc : i.status = .accepted → i'.Decided ∨ (i'.status = .accepted ∧ i'.command = i.command
      ∧ i'.seq = i.seq ∧ i'.deps = i.deps)) :
    ∀ a, Proposed older k i.key a → a.ballot = i'.ballot → a.Stands i' := by
  intro a ha hab
  obtain ⟨h₁, h₂⟩ := h.stands a ha (hab.trans hb)
  refine ⟨hidle h₁, fun hta => ?_⟩
  rcases h₂ hta with hd | ⟨hs, h₁, h₂, h₃⟩
  · exact .inl (hdec hd)
  · rcases hacc hs with hd | ⟨hs', h₁', h₂', h₃'⟩
    · exact .inl hd
    · exact .inr ⟨hs', h₁.trans h₁'.symm, h₂.trans h₂'.symm, h₃.trans h₃'.symm⟩

/-- At a new ballot nothing has been proposed. -/
theorem raised (h : i.Bound older k) (hb : i.ballot < i'.ballot) :
    ∀ a, Proposed older k i.key a → a.ballot = i'.ballot → a.Stands i' := by
  intro a ha hab
  have := h.below a ha
  omega

/-- Nor has it at the ballot of a copy that is not idle. -/
theorem busy (h : i.Bound older k) (hi : ¬ i.Idle) (hb : i'.ballot = i.ballot) :
    ∀ a, Proposed older k i.key a → a.ballot = i'.ballot → a.Stands i' :=
  fun a ha hab => absurd (h.stands a ha (hab.trans hb)).1 hi

end Instance.Bound

theorem Instance.Idle.of_same (h : i.Idle) (hs : i'.status ≠ .none)
    (hl : ∀ lt', i'.lt = some lt' → ∃ lt, i.lt = some lt ∧ lt'.recoveryStatus = lt.recoveryStatus
      ∧ lt'.ri.status = lt.ri.status) : i'.Idle := by
  refine ⟨hs, fun lt' hlt' => ?_⟩
  obtain ⟨lt, hlt, hr, hri⟩ := hl lt' hlt'
  rw [hr, hri]
  exact h.2 lt hlt

theorem Instance.Idle.of_eq (h : i.Idle) (hs : i'.status ≠ .none) (hl : i'.lt = i.lt) :
    i'.Idle := h.of_same hs fun lt hlt => ⟨lt, hl ▸ hlt, rfl, rfl⟩

/-- A copy with a tracker that is not recovering. -/
theorem Instance.Idle.of_settled (hs : i.status ≠ .none)
    (hl : ∀ lt, i.lt = some lt → lt.recoveryStatus = .none) : i.Idle := by
  refine ⟨hs, fun lt hlt => ?_⟩
  rw [hl lt hlt]
  exact ⟨nofun, nofun⟩

theorem Storing.matching (h : Storing i (.step m)) (h₁ : m.type ≠ .acceptReply)
    (h₂ : m.type ≠ .accept) : Matching i (.step m) := by
  simp only [Storing] at h
  split at h
  · exact absurd ‹_› h₁
  · exact absurd ‹_› h₂
  · exact h.2
  · exact h

theorem Storing.command (h : Storing i (.step m)) (ht : m.type = .accept) (hd : ¬ i.Decided)
    (hb : i.ballot ≤ m.ballot) : m.command = i.command := by
  simp only [Storing, ht] at h
  exact h ⟨hd, hb⟩

/-- A replica that is idle at its ballot acts on no answer to `PREPARE`. -/
theorem Storing.not_idle (h : Storing i (.step m)) (ht : m.type = .prepareReply)
    (hlt : i.lt = some lt) (hr : lt.recoveryStatus = .preparing) (hn : m.nack = 0)
    (hf : ¬ m.Final) : ¬ i.Idle := by
  intro hi
  simp only [Storing, ht, hlt] at h
  exact hi.1 (h.1 ⟨hr, hn, hf, (hi.2 lt hlt).2 hr⟩)

theorem bound_step {C : List Record → Record → Prop} (hC : ∀ {older t}, C older t →
      Unwrapped t.before t.event ∧ Licensed t.who t.before t.event)
    (hg : Grown (fun older t => Happens T older t ∧ C older t) older)
    (ht : Happens T older ⟨k, ev, r, i, i', io.map (envelope k)⟩)
    (hc : C older ⟨k, ev, r, i, i', io.map (envelope k)⟩) (hst : Storing i ev)
    (hfr : Record.Fresh ⟨k, ev, r, i, i', io.map (envelope k)⟩)
    (hr : Record.Rooted ⟨k, ev, r, i, i', io.map (envelope k)⟩)
    (hm : ∀ p ∈ older, ∀ m ∈ p.sent, m.Echoes older) (hi : i.Bound older k)
    (ha : Act T r i ev i' io) :
    i'.Bound (⟨k, ev, r, i, i', io.map (envelope k)⟩ :: older) k := by
  have hk : r.id < N := by rw [show r.id = k from ht.who_eq]; exact ht.who_lt
  obtain ⟨hu, hl⟩ : Unwrapped i ev ∧ Licensed k i ev := hC hc
  have hb' : i.ballot ≤ i'.ballot := ballot_le ht hu hl ha
  have hroot : i.Rooted k := hr.before
  have hkey : ∀ m, ev = .step m → i.key = m.id := fun m hev => (ht.step_key hev).1
  -- nothing has been sent about an instance the event makes
  have made : i = r.ownInstance ∧ r.find i.key = none → ∀ a, ¬ Proposed older k i.key a := by
    rintro ⟨-, hmade⟩ a ⟨⟨p, hp, hw, ha⟩, hid, -⟩
    obtain ⟨_, _, -, -, hph, -⟩ := hg.of_mem hp
    exact ht.fresh hfr hmade p hp hw (by rw [hph.key, ← hph.sent_id ha]; exact hid)
  -- the replica has not proposed at the ballot of another's request
  have foreign : ∀ m, ev = .step m → m.type.Request → ∀ a, Proposed older k i.key a →
      a.ballot ≠ m.ballot := by
    rintro m hev hty a ⟨ha, hid, hta⟩
    refine foreign_ballot hC hg ht hev hty ha (.inl ?_) (hid.trans (ht.step_key hev).1)
    exact hta.imp id .inr
  cases ha with
  | @propose m s lt hlt =>
    have hidle : (phase1Inst i m lt s).Idle := by
      refine .of_settled (by rintro ⟨⟩) ?_
      rintro _ ⟨⟩
      rw [show i = r.ownInstance from ht.located.2] at hlt
      cases hlt
      rfl
    refine hi.step rfl hb' ?_ (fun a ha => absurd ha (made ⟨ht.located.2, ht.located.1⟩ a))
      fun _ => hidle
    exact List.forall_mem_singleton.2 fun _ => ⟨rfl, hidle, (by rintro ⟨⟩)⟩
  | @checkpoint m deps =>
    have hidle : Instance.Idle
        { i with deps, status := .preAccepted, timer := some .fastPath } := by
      refine .of_settled (by rintro ⟨⟩) ?_
      intro lt hlt
      rw [show i = r.ownInstance from ht.located.2] at hlt
      cases hlt
      rfl
    refine hi.step rfl hb' ?_ (fun a ha => absurd ha (made ⟨ht.located.2, ht.located.1⟩ a))
      fun _ => hidle
    exact List.forall_mem_singleton.2 fun _ => ⟨rfl, hidle, (by rintro ⟨⟩)⟩
  | slowTimeout htm =>
    exact hi.step rfl hb' (by simp [recoverMsg]) (hi.raised (lt_largerBallot hk (hu htm)))
      (by rintro ⟨⟩)
  | nackRecover hty hlt hb hn =>
    exact hi.step rfl hb' (by simp [recoverMsg])
      (hi.raised (lt_largerBallot hk (hu.nacked hty hlt hb hn))) (by rintro ⟨⟩)
  | fastTimeout htm =>
    have hs : i.status = .accepted := hst htm
    have hidle : Instance.Idle { i with timer := some .slowPath } :=
      (hi.armed htm).of_eq (hi.armed htm).1 rfl
    refine hi.step rfl hb' ?_ (hi.keep rfl (fun _ => hidle) id fun hs => .inr ⟨hs, rfl, rfl, rfl⟩)
      (by rintro ⟨⟩)
    exact List.forall_mem_singleton.2 fun _ => ⟨rfl, hidle, fun _ => ⟨hs, rfl, rfl, rfl⟩⟩
  | execute =>
    exact hi.step rfl hb' (by simp) (hi.keep rfl (fun h => h.of_eq (by rintro ⟨⟩) rfl)
      (fun _ => .inr rfl) fun _ => .inl (.inr rfl)) fun h => (hi.armed h).of_eq (by rintro ⟨⟩) rfl
  | ignore | preAcceptNack | acceptNack | prepareNack | tryNack =>
    exact hi.step rfl hb' (by simp)
      (hi.keep rfl id id fun hs => .inr ⟨hs, rfl, rfl, rfl⟩) hi.armed
  | @preAcceptReply m s hty | @preAcceptOk m s hty =>
    refine hi.step rfl hb' (by simp)
      (fun a ha hab => absurd hab (foreign m rfl (.inl (.inl hty)) a ha)) fun h => ?_
    refine (hi.armed h).of_eq ?_ rfl
    simp only [preAcceptInst]
    split_ifs <;> rintro ⟨⟩
  | acceptStore hty =>
    exact hi.step rfl hb' (by simp)
      (fun a ha hab => absurd hab (foreign _ rfl (.inl (.inr (.inr hty))) a ha))
      fun h => (hi.armed h).of_eq (by rintro ⟨⟩) rfl
  | tryStore hty =>
    exact hi.step rfl hb' (by simp)
      (fun a ha hab => absurd hab (foreign _ rfl (.inl (.inr (.inl hty))) a ha))
      fun h => (hi.armed h).of_eq (by rintro ⟨⟩) rfl
  | preparePromise hty =>
    exact hi.step rfl hb' (by simp)
      (fun a ha hab => absurd hab (foreign _ rfl (.inr hty) a ha))
      fun h => (hi.armed h).of_eq (hi.armed h).1 rfl
  | okCommit hty hlt | replyCommit hty hlt | acceptedCommit hty hlt | preparedCommit hty hlt =>
    refine hi.step rfl hb' (by simp) (hi.keep rfl (fun h => h.of_same (by rintro ⟨⟩) ?_)
      (fun _ => .inl rfl) fun _ => .inl (.inl rfl)) (by rintro ⟨⟩)
    rintro _ ⟨⟩
    exact ⟨_, hlt, rfl, rfl⟩
  | commit =>
    exact hi.step rfl hb' (by simp) (hi.keep rfl (fun h => h.of_eq (by rintro ⟨⟩) rfl)
      (fun _ => .inl rfl) fun _ => .inl (.inl rfl)) (by rintro ⟨⟩)
  | @okAccept m lt hty hlt hs hib =>
    have hrec : lt.recoveryStatus = .none := by
      by_contra h
      rw [hroot.recovering lt hlt h] at hib
      cases hib
    have hidle : Instance.Idle { i with lt := some lt.preAcceptOk, status := .accepted } := by
      refine .of_settled (by rintro ⟨⟩) ?_
      rintro _ ⟨⟩
      exact hrec
    obtain ⟨h₁, h₂, h₃, h₄⟩ := (hst.matching (by simp [hty]) (by simp [hty])).ok hty hlt hs hib
    refine hi.step rfl hb' ?_ (hi.keep rfl (fun _ => hidle) (fun h => absurd hs ?_)
      fun h => absurd hs ?_) fun _ => hidle
    · exact List.forall_mem_singleton.2 fun _ => ⟨h₃, hidle, fun _ => ⟨rfl, h₁, h₂, h₄⟩⟩
    · rcases h with h | h <;> rw [h] <;> rintro ⟨⟩
    · rw [h]
      rintro ⟨⟩
  | @replyAccept m lt hty hlt hs hb hn =>
    have hidle : Instance.Idle { mergeReply i m lt with status := .accepted } := by
      obtain ⟨⟨p, hp, hpm⟩, -⟩ := ht.source m rfl
      obtain ⟨a, ha, hta, hid, hab⟩ := (hm p hp m hpm).reply hty hn
      rw [ht.dest rfl (by simp [MessageType.Broadcast, hty])] at ha
      have := hi.stands a ⟨ha, hid.trans (hkey m rfl).symm, .inl hta⟩ (hab.trans hb.symm)
      refine this.1.of_same (by rintro ⟨⟩) ?_
      rintro _ ⟨⟩
      exact ⟨lt, hlt, rfl, rfl⟩
    obtain ⟨h₁, h₂, h₃, h₄⟩ :=
      (hst.matching (by simp [hty]) (by simp [hty])).reply hty hlt hs hb hn
    refine hi.step rfl hb' ?_ (hi.keep rfl (fun _ => hidle) (fun h => absurd hs ?_)
      fun h => absurd hs ?_) fun _ => hidle
    · exact List.forall_mem_singleton.2 fun _ => ⟨h₃, hidle, fun _ => ⟨rfl, h₁, h₂, h₄⟩⟩
    · rcases h with h | h <;> rw [h] <;> rintro ⟨⟩
    · rw [h]
      rintro ⟨⟩
  | okCount hty hlt | nackCount hty hlt | acceptedCount hty hlt | preparedNack hty hlt =>
    refine hi.step rfl hb' (by simp) (hi.keep rfl (fun h => h.of_same h.1 ?_) id
      fun hs => .inr ⟨hs, rfl, rfl, rfl⟩) fun h => (hi.armed h).of_same (hi.armed h).1 ?_
    all_goals
      rintro _ ⟨⟩
      exact ⟨_, hlt, rfl, rfl⟩
  | @replyCount m lt hty hlt hs =>
    have same : ∀ lt', (mergeReply i m lt).lt = some lt' → ∃ lt, i.lt = some lt
        ∧ lt'.recoveryStatus = lt.recoveryStatus ∧ lt'.ri.status = lt.ri.status := by
      rintro _ ⟨⟩
      exact ⟨_, hlt, rfl, rfl⟩
    exact hi.step rfl hb' (by simp)
      (hi.keep rfl (fun h => h.of_same h.1 same) id fun h => absurd (hs.symm.trans h) (by rintro ⟨⟩))
      fun h => (hi.armed h).of_same (hi.armed h).1 same
  | @preparedCount m lt hty hlt hrec hn hf =>
    have hbusy := hst.not_idle hty hlt hrec hn hf
    exact hi.step rfl hb' (by simp) (hi.busy hbusy rfl) fun h => absurd (hi.armed h) hbusy
  | @preparedNoop m lt lt' hty hlt hrec hn hf hlt' hs =>
    subst hlt'
    have hbusy := hst.not_idle hty hlt hrec hn hf
    have hidle : Instance.Idle
        { i with
          lt := some (tallyReply i lt.prepareOk m).settled, status := .accepted
          deps := noop (r.put i) m.id } := by
      refine .of_settled (by rintro ⟨⟩) ?_
      rintro _ ⟨⟩
      rfl
    obtain ⟨h₁, h₂⟩ :=
      (hst.matching (by simp [hty]) (by simp [hty])).noop hty hlt hrec hn hf hs
    refine hi.step rfl hb' ?_ (hi.busy hbusy rfl) fun _ => hidle
    exact List.forall_mem_singleton.2 fun _ => ⟨rfl, hidle, fun _ => ⟨rfl, h₁.symm, h₂, rfl⟩⟩
  | @preparedAdopt m lt lt' hty hlt hrec hn hf hlt' ha =>
    subst hlt'
    have hbusy := hst.not_idle hty hlt hrec hn hf
    have hidle : Instance.Idle
        { i with
          command := (tallyReply i lt.prepareOk m).ri.command
          seq := (tallyReply i lt.prepareOk m).ri.seq
          deps := (tallyReply i lt.prepareOk m).ri.deps, status := .accepted
          lt := some (tallyReply i lt.prepareOk m).settled } := by
      refine .of_settled (by rintro ⟨⟩) ?_
      rintro _ ⟨⟩
      rfl
    have h₁ := (hst.matching (by simp [hty]) (by simp [hty])).adopt hty hlt hrec hn hf ha
    refine hi.step rfl hb' ?_ (hi.busy hbusy rfl) fun _ => hidle
    exact List.forall_mem_singleton.2 fun _ => ⟨rfl, hidle, fun _ => ⟨rfl, h₁, rfl, rfl⟩⟩
  | @preparedRestart m lt lt' lt'' c s hty hlt hrec hn hf hlt' _ _ hlt'' =>
    subst hlt'
    have hbusy := hst.not_idle hty hlt hrec hn hf
    have hidle : (phase1Inst i { m with command := c, ballot := i.ballot } lt'' s).Idle := by
      refine ⟨(by rintro ⟨⟩), ?_⟩
      rintro _ ⟨⟩
      refine ⟨?_, fun _ => rfl⟩
      rcases hlt'' with ⟨rfl, -⟩ | ⟨rfl, -⟩
      · rintro ⟨⟩
      · have : (tallyReply i lt.prepareOk m).recoveryStatus = .preparing :=
          (tally_recoveryStatus _ _ _).trans hrec
        simp [LeaderTracker.tryStart, this]
    refine hi.step rfl hb' ?_ (hi.busy hbusy rfl) fun _ => hidle
    exact List.forall_mem_singleton.2 fun _ => ⟨rfl, hidle, (by rintro ⟨⟩)⟩
  | preparedTryOwn hty hlt hrec hn hf | preparedTry hty hlt hrec hn hf =>
    have hbusy := hst.not_idle hty hlt hrec hn hf
    exact hi.step rfl hb' (by simp) (hi.busy hbusy rfl) fun h => absurd (hi.armed h) hbusy
  | triedRaise hty hlt hrec hs hn hb =>
    obtain ⟨hbm, -⟩ := hl.tried hty hlt hrec hs hn
    omega
  | triedPrepare hty hlt hrec | triedCount hty hlt hrec =>
    have hbusy : ¬ i.Idle := fun h => (h.2 _ hlt).1 hrec
    exact hi.step rfl hb' (by simp) (hi.busy hbusy rfl) fun h => absurd (hi.armed h) hbusy
  | triedDefer hty hlt hrec _ _ _ htm =>
    have hbusy : ¬ i.Idle := fun h => (h.2 _ hlt).1 hrec
    refine hi.step rfl hb' (by simp) (hi.busy hbusy rfl) fun h => ?_
    rcases htm with rfl | rfl
    · exact absurd (hi.armed h) hbusy
    · cases h
  | @triedRestart m lt c b s tm hty hlt hrec hs hn _ hcb =>
    have hbusy : ¬ i.Idle := fun h => (h.2 _ hlt).1 hrec
    have hb : b = i.ballot := by
      rcases hcb with ⟨-, rfl⟩ | ⟨-, rfl⟩
      · exact (hl.tried hty hlt hrec hs hn).1
      · rfl
    have hidle : Instance.Idle
        { phase1Inst i { m with command := c, ballot := b } lt.tryNacked.settled s with
          timer := tm } := by
      refine .of_settled (by rintro ⟨⟩) ?_
      rintro _ ⟨⟩
      rfl
    refine hi.step rfl hb' ?_ (hi.busy hbusy hb) fun _ => hidle
    exact List.forall_mem_singleton.2 fun _ => ⟨rfl, hidle, (by rintro ⟨⟩)⟩
  | @triedRestartTwice m lt s s' tm hty hlt hrec hs hn =>
    have hbusy : ¬ i.Idle := fun h => (h.2 _ hlt).1 hrec
    have hidle : Instance.Idle
        { phase1Inst i { m with command := lt.ri.command } lt.tryNacked.settled s' with
          timer := tm } := by
      refine .of_settled (by rintro ⟨⟩) ?_
      rintro _ ⟨⟩
      rfl
    refine hi.step rfl hb' ?_ (hi.busy hbusy (hl.tried hty hlt hrec hs hn).1) fun _ => hidle
    simp only [List.forall_mem_cons, List.not_mem_nil, false_imp_iff, implies_true, and_true]
    exact ⟨fun _ => ⟨rfl, hidle, (by rintro ⟨⟩)⟩, fun _ => ⟨rfl, hidle, (by rintro ⟨⟩)⟩⟩
  | @triedAccept m lt hty hlt hrec hs hn =>
    have hbusy : ¬ i.Idle := fun h => (h.2 _ hlt).1 hrec
    have hidle : Instance.Idle
        { i with
          command := lt.ri.command, deps := lt.ri.deps, seq := lt.ri.seq, status := .accepted
          lt := some { lt.tryOk with acceptOks := 0, recoveryStatus := .none } } := by
      refine .of_settled (by rintro ⟨⟩) ?_
      rintro _ ⟨⟩
      rfl
    have hbm := ((hst.matching (by simp [hty]) (by simp [hty])).tried hty hlt hrec hs).1 hn
    refine hi.step rfl hb' ?_ (hi.busy hbusy rfl) fun _ => hidle
    exact List.forall_mem_singleton.2 fun _ => ⟨hbm, hidle, fun _ => ⟨rfl, rfl, rfl, rfl⟩⟩

theorem echoes_step {C : List Record → Record → Prop}
    (hg : Grown (fun older t => Happens T older t ∧ C older t) older)
    (ht : Happens T older ⟨k, ev, r, i, i', io.map (envelope k)⟩) (hst : Storing i ev)
    (ha : Act T r i ev i' io) :
    ∀ m ∈ io, (envelope k m).Echoes (⟨k, ev, r, i, i', io.map (envelope k)⟩ :: older) := by
  -- the request came from its sender
  have asked : ∀ m, ev = .step m → Sent older m.sender m := by
    intro m hev
    obtain ⟨⟨p, hp, hpm⟩, -⟩ := ht.source m hev
    obtain ⟨_, _, -, -, hph, -⟩ := hg.of_mem hp
    exact ⟨p, hp, (hph.sender hpm).symm, hpm⟩
  cases ha with
  | execute | ignore | okCount | nackCount | replyCount | acceptedCount | preparedNack
  | preparedCount | triedDefer | triedCount | commit => simp
  | preAcceptNack =>
    exact List.forall_mem_singleton.2 (.of_other fun _ => by simp [envelope])
  | acceptNack =>
    exact List.forall_mem_singleton.2 (.of_other fun _ => by simp [envelope])
  | @preAcceptReply m s hty =>
    refine List.forall_mem_singleton.2 ⟨fun _ _ => ?_, (by rintro ⟨⟩)⟩
    exact ⟨m, (asked m rfl).cons _, hty, rfl, rfl⟩
  | @acceptStore m hty hd hb =>
    refine List.forall_mem_singleton.2 ⟨(by rintro ⟨⟩), fun _ _ => ⟨?_, ?_⟩⟩
    · exact ⟨m, (asked m rfl).cons _, hty, rfl, rfl, rfl, rfl, rfl⟩
    · refine ⟨_, List.mem_cons_self, rfl, ⟨hty, rfl, rfl, rfl, rfl⟩, ?_, rfl, rfl⟩
      exact (hst.command hty hd hb).symm
  | triedRestartTwice =>
    simp only [List.forall_mem_cons, List.not_mem_nil, false_imp_iff, implies_true, and_true]
    exact ⟨.of_other (by simp [envelope, phase1Msg]), .of_other (by simp [envelope, phase1Msg])⟩
  | _ =>
    exact List.forall_mem_singleton.2 (.of_other (by simp [envelope, phase1Msg, recoverMsg]))

end Step

/-- The events of a run whose slow-path commits are sound. -/
def Record.Orderly (t : Record) : Prop :=
  Unwrapped t.before t.event ∧ Licensed t.who t.before t.event ∧ Storing t.before t.event ∧ t.Fresh

instance (t : Record) : Decidable t.Orderly := inferInstanceAs (Decidable (_ ∧ _))

theorem bound_made {T : RangeTree} {S : List Record → Record → Prop} {older : List Record}
    {t : Record} (hg : Grown (fun older t => Happens T older t ∧ S older t) older)
    (ht : Happens T older t) (hfr : t.Fresh) (hmade : t.Made)
    (hb : t.before = t.pre.ownInstance
      ∨ t.before = { newInstance t.before.key with timer := some .slowPath }) :
    t.before.Bound older t.who := by
  have none : ∀ a, ¬ Proposed older t.who t.before.key a := by
    rintro a ⟨⟨p, hp, hw, ha⟩, hid, -⟩
    obtain ⟨_, _, -, -, hph, -⟩ := hg.of_mem hp
    exact ht.fresh hfr hmade p hp hw (by rw [hph.key, ← hph.sent_id ha, hid])
  refine ⟨fun a ha => absurd ha (none a), fun a ha => absurd ha (none a), ?_⟩
  rcases hb with hb | hb <;> rw [hb] <;> nofun

/-- In a log of orderly records: where the copies are with what was proposed, and which requests the
answers answer. -/
theorem grown_bound {T : RangeTree} {C : List Record → Record → Prop}
    (hC : ∀ {older t}, C older t → t.Orderly) {log : List Record}
    (h : Grown (fun older t => Happens T older t ∧ C older t) log) :
    (∀ k id i, Last log k id i → i.Bound log k) ∧ ∀ p ∈ log, ∀ m ∈ p.sent, m.Echoes log := by
  refine run_rule (C := fun older t => C older t ∧ t.Rooted) (I := fun log k i => i.Bound log k)
    (M := fun log m => m.Echoes log) ?_ (fun h => h.cons _) ?_ ?_
    (grown_rooted (fun h => (hC h).1) h)
  · intro older t k i ht hi hne
    refine hi.cons fun hw a ha hid => hne ⟨hw, ?_⟩
    rw [ht.key, ← ht.sent_id ha, hid]
  · intro older t hg ht hc hmade hb
    exact bound_made hg ht (hC hc.1).2.2.2 hmade hb
  · intro older k ev r i i' io hg ht hc _ hm hi ha
    obtain ⟨-, -, hst, hfr⟩ := hC hc.1
    refine ⟨bound_step (fun h => ?_) hg ht hc hst hfr hc.2 hm hi ha, echoes_step hg ht hst ha⟩
    obtain ⟨hu, hl, -⟩ := hC h.1
    exact ⟨hu, hl⟩

/-- How `accept_reply` commits. -/
theorem Act.slow_commit {T : RangeTree} {r : Replica} {i i' : Instance} {io : List Message}
    {m : Message} (ha : Act T r i (.step m) i' io) (hs : i.status = .accepted)
    (hs' : i'.status = .committed) (ht : m.type = .acceptReply) :
    i.ballot = m.ballot ∧ m.nack = 0
      ∧ ∃ lt, i' = { i with lt := some lt, status := .committed, timer := none } := by
  cases ha with
  | acceptedCommit _ _ _ hb hn => exact ⟨hb, hn, _, rfl⟩
  | preAcceptReply hty | preAcceptOk hty | okCommit hty | okAccept hty | okCount hty
  | replyCommit hty | replyAccept hty | replyCount hty | acceptStore hty | preparePromise hty
  | preparedNack hty | preparedCommit hty | preparedCount hty | preparedNoop hty
  | preparedAdopt hty | preparedRestart hty | preparedTryOwn hty | preparedTry hty | tryStore hty
  | triedRaise hty | triedPrepare hty | triedDefer hty | triedRestart hty | triedRestartTwice hty
  | triedAccept hty | triedCount hty | commit hty => exact absurd (ht.symm.trans hty) nofun
  | _ => exact absurd (hs.symm.trans hs') nofun

/-- A slow-path commit: the answer, the `ACCEPT` it answers and the copy that was stored for it have
the values of the copy committed, at its ballot. -/
structure SlowAnswer (older : List Record) (t : Record) (m : Message) : Prop where
  event : t.event = .step m
  value : m.value = t.after.value
  sent : ∃ a, Sent older t.who a ∧ a.type = .accept ∧ a.id = t.after.key
    ∧ a.ballot = t.after.ballot ∧ a.value = t.after.value
  stored : ∃ q ∈ older, q.who < N ∧ q.who ≠ t.who ∧ q.Stores t.after.key t.after.ballot
    ∧ q.after.value = t.after.value

theorem slow_answer {T : RangeTree} {C : List Record → Record → Prop}
    (hC : ∀ {older t}, C older t → t.Orderly) {older : List Record}
    (hg : Grown (fun older t => Happens T older t ∧ C older t) older) {t : Record}
    (ht : Happens T older t) (hr : t.Rooted) (hs : t.SlowCommits) :
    ∃ m, SlowAnswer older t m := by
  obtain ⟨hcopy, hmsg⟩ := grown_bound hC hg
  obtain ⟨hst, hst', hty⟩ := hs
  obtain ⟨m, hev, hty⟩ : ∃ m, t.event = .step m ∧ m.type = .acceptReply := by
    cases hev : t.event <;> rw [hev] at hty <;> try exact hty.elim
    exact ⟨_, rfl, hty⟩
  have hlast := ht.last_of_status (by rw [hst]; rintro ⟨⟩)
  obtain ⟨hkey, -, -⟩ := ht.step_key hev
  have hnb : ¬ m.type.Broadcast := by simp [MessageType.Broadcast, hty]
  have hdest := ht.dest hev hnb
  obtain ⟨io, ha, -⟩ := ht.acts
  rw [hev] at ha
  obtain ⟨hb, hn, lt, hafter⟩ := ha.slow_commit hst hst' hty
  obtain ⟨⟨p, hp, hpm⟩, -⟩ := ht.source m hev
  obtain ⟨⟨a, hsent, hta, hid, hab, hcmd, hseq, hdeps⟩, q, hq, hwho, hqs, hqc, hqq, hqd⟩ :=
    (hmsg p hp m hpm).accepted hty hn
  -- the copy still holds what its `ACCEPT` at this ballot asked for
  have hstands := (hcopy _ _ _ hlast).stands a
    ⟨hdest ▸ hsent, hid.trans hkey.symm, .inr hta⟩ (hab.trans hb.symm)
  rcases hstands.2 hta with hd | ⟨-, h₁, h₂, h₃⟩
  · exact absurd hst (by rcases hd with hd | hd <;> rw [hd] <;> rintro ⟨⟩)
  have hne := (hr.msg m hev).apart hnb
  rw [hdest] at hne
  obtain ⟨_, _, -, -, hqh, -⟩ := hg.of_mem hq
  have hav : a.value = t.after.value := by
    rw [hafter]
    exact Prod.ext h₁ (Prod.ext h₂ h₃)
  have hma : m.value = a.value := Prod.ext hcmd.symm (Prod.ext hseq.symm hdeps.symm)
  have hkb : m.id = t.after.key ∧ m.ballot = t.after.ballot := by
    rw [hafter]
    exact ⟨hkey.symm, hb.symm⟩
  refine ⟨m, hev, hma.trans hav, ⟨a, hdest ▸ hsent, hta, hid.trans hkb.1, hab.trans hkb.2, hav⟩,
    q, hq, hqh.who_lt, hwho ▸ hne, hkb.1 ▸ hkb.2 ▸ hqs, ?_⟩
  exact (Prod.ext hqc (Prod.ext hqq hqd) : q.after.value = m.value).trans (hma.trans hav)

/-- In a run of orderly events, every slow-path commit is sound. -/
theorem slow_path_sound {T : RangeTree} {w : World} (h : Run T w) (hc : ∀ t ∈ w.log, t.Orderly)
    {newer older : List Record} {t : Record} (hl : w.log = newer ++ t :: older)
    (hs : t.SlowCommits) : t.SlowSound older := by
  have hg := (hl ▸ h.grown.1.and hc).of_append
  obtain ⟨ht, ho⟩ := hg.head
  obtain ⟨-, -, hr⟩ := (grown_rooted (fun h => h.1) hg).head
  obtain ⟨m, -, -, -, q, hq, hlt, hne, hqs, hqv⟩ := slow_answer (fun h => h) hg.tail ht hr hs
  simp only [Instance.value, Prod.mk.injEq] at hqv
  refine ⟨[q.who], by simp, by simp [half_N], ?_⟩
  simp only [List.forall_mem_singleton]
  exact ⟨hlt, hne, q, hq, rfl, hqs, hqv.1, hqv.2.1, hqv.2.2 ▸ .refl _⟩

/-- A write that meets one the follower has is accepted by the follower. -/
def slowCommit : List Move :=
  [proposeAt 1 [49, 48] [50, 48], proposeAt 0 [49, 48] [50, 48], deliverAt 1 .preAccept ⟨0, 1⟩,
    deliverAt 0 .preAcceptReply ⟨0, 1⟩, deliverAt 1 .accept ⟨0, 1⟩,
    deliverAt 0 .acceptReply ⟨0, 1⟩]

theorem slow_path_sound_slowCommit : ∃ w newer t older, Run listTree w
    ∧ w.log = newer ++ t :: older ∧ t.SlowCommits ∧ t.SlowSound older := by
  obtain ⟨w, hr, hc, t, ht, hs⟩ := @exists_run slowCommit
    (fun w => (∀ t ∈ w.log, t.Orderly) ∧ ∃ t ∈ w.log, t.SlowCommits) _ (by decide +kernel)
  obtain ⟨newer, older, hl⟩ := List.append_of_mem ht
  exact ⟨w, newer, t, older, hr, hl, hs, slow_path_sound hr hc hl hs⟩

/-- The `ACCEPT` is stored by the replica the `PRE_ACCEPT` has not reached, which has no command. -/
def bareAccept : List Move :=
  [proposeAt 1 [49, 48] [50, 48], proposeAt 0 [49, 48] [50, 48], deliverAt 1 .preAccept ⟨0, 1⟩,
    deliverAt 0 .preAcceptReply ⟨0, 1⟩, deliverAt 2 .accept ⟨0, 1⟩,
    deliverAt 0 .acceptReply ⟨0, 1⟩]

theorem bareAccept_unsound : ¬ ∀ w, Run listTree w → ∀ newer t older,
    w.log = newer ++ t :: older → t.SlowCommits → t.SlowSound older := by
  intro h
  obtain ⟨w, hr, t, ht, hs, hn⟩ := @exists_run bareAccept
    (fun w => ∃ t ∈ w.log.head?, t.SlowCommits
      ∧ ∀ p ∈ w.log.tail, ¬ (p.Stores t.after.key t.after.ballot
        ∧ p.after.command = t.after.command)) _ (by decide +kernel)
  have hl : w.log = [] ++ t :: w.log.tail := by
    rw [List.nil_append, List.eq_cons_of_mem_head? ht]
    rfl
  obtain ⟨qs, -, hlen, hq⟩ := h w hr [] t _ hl hs
  obtain ⟨q, hqs⟩ := List.exists_mem_of_length_pos (lt_of_lt_of_le (by decide) hlen)
  obtain ⟨-, -, p, hp, -, hps, hpc, -⟩ := hq q hqs
  exact hn p hp ⟨hps, hpc⟩

end Epx
