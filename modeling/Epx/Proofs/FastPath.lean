import Epx.Proofs.Initial
import Epx.Proofs.Scan

/-!
# Fast-path commits

The leader's copy, pre-accepted at an initial ballot, is what its proposal left, and it has counted
no answer yet: the first one it counts decides. So an answer that commits it must repeat the
proposal, as long as a larger seq in an answer comes with something that clears `equal`.
-/

namespace Epx

open Log

/-- The record counts the message as a positive pre-accept answer. -/
def Record.Counts (t : Record) (m : Message) : Prop :=
  t.event = .step m ∧ (m.type = .preAcceptOk ∨ (m.type = .preAcceptReply ∧ m.nack = 0))
    ∧ ∃ lt lt', t.before.lt = some lt ∧ t.after.lt = some lt'
      ∧ lt'.preAcceptOks ≠ lt.preAcceptOks

/-- A leader that commits from `PRE_ACCEPTED` at an initial ballot has proposed the instance; every
positive answer it has counted repeats the seq and the dependency ids of its `PRE_ACCEPT`; it has
counted answers of `N / 2` replicas; and every dependency it commits is committed. -/
def Record.FastSound (older : List Record) (t : Record) : Prop :=
  ∃ p ∈ older, p.who = t.who ∧ p.event.Assigns ∧ ∃ a ∈ p.sent, a.type = .preAccept ∧ a.id = t.after.key
    ∧ (∀ c ∈ t :: older, c.who = t.who → c.after.key = t.after.key → ∀ m, c.Counts m →
        m.seq = a.seq ∧ m.deps.SameIds a.deps)
    ∧ (∃ qs : List ℕ, qs.Nodup ∧ N / 2 ≤ qs.length ∧ ∀ q ∈ qs, q < N ∧ q ≠ t.who
        ∧ ∃ c ∈ t :: older, c.who = t.who ∧ c.after.key = t.after.key
          ∧ ∃ m, c.Counts m ∧ ∃ s ∈ older, s.who = q ∧ m ∈ s.sent)
    ∧ ∀ d ∈ t.after.deps.entries, d.committed ≠ 0

/-- The record commits an instance pre-accepted at an initial ballot on a pre-accept answer. -/
def Record.FastCommits (t : Record) : Prop :=
  t.before.status = .preAccepted ∧ isInitialBallot t.before.ballot = true
    ∧ t.after.status = .committed
    ∧ match t.event with
      | .step m => m.type = .preAcceptOk ∨ m.type = .preAcceptReply
      | _ => False

instance (t : Record) : Decidable t.FastCommits := by
  unfold Record.FastCommits
  exact match t.event with
  | .propose _ | .checkpoint _ | .timeout _ _ | .step _ | .execute _ => inferInstance

/-- An answer with a larger seq changes a dependency too, or finds one that is not committed. -/
def Steady (i : Instance) : Event → Prop
  | .step m =>
    match m.type, i.lt with
    | .preAcceptReply, some _ =>
      i.status = .preAccepted ∧ i.ballot = m.ballot ∧ isInitialBallot m.ballot = true
          ∧ m.nack = 0 ∧ i.seq < m.seq →
        hasUncommittedDeps i = true ∨ ∃ d ∈ m.deps.slots, (i.deps.update d).2 ≠ 0
    | _, _ => True
  | _ => True

instance (i : Instance) (ev : Event) : Decidable (Steady i ev) := by
  unfold Steady
  exact match ev with
  | .propose _ | .checkpoint _ | .timeout _ _ | .execute _ => inferInstance
  | .step m => by
    dsimp only
    exact match m.type, i.lt with
    | .preAcceptReply, none | .preAcceptReply, some _ => inferInstance
    | .phase1, _ | .preAccept, _ | .preAcceptOk, _ | .accept, _ | .acceptReply, _ | .commit, _
    | .prepare, _ | .prepareReply, _ | .tryPreAccept, _ | .tryPreAcceptReply, _ | .execute, _ =>
      inferInstance

/-- What the leader's copy owes to the record that proposed it. -/
structure Opening (log : List Record) (k : ℕ) (i : Instance) (lt : LeaderTracker) : Prop where
  opened : ∃ p ∈ log, p.who = k ∧ p.event.Assigns ∧ p.after.key = i.key ∧ p.after.seq = i.seq
    ∧ p.after.deps = i.deps ∧ p.after.command = i.command
    ∧ ∀ a ∈ p.sent, a.deps = i.deps ∧ ((a.seq = i.seq ∧ a.command = i.command)
      ∨ (lt.equal = 0 ∧ ∃ m, p.event = .checkpoint m ∧ a.seq = m.seq))
  equal : lt.equal ≠ 0 → lt.equal = 1 ∧ i.deps = .zero
  uncounted : lt.preAcceptOks = 0
  first : ∀ p ∈ log, p.who = k → p.after.key = i.key → ∀ m, ¬ p.Counts m

/-- The copy is pre-accepted at an initial ballot. -/
def Instance.AtStart (i : Instance) : Prop :=
  i.key.instanceId ≠ 0 ∧ i.status = .preAccepted ∧ isInitialBallot i.ballot = true

/-- What a pre-accept message at an initial ballot owes to the record that proposed its instance. -/
structure Message.Opened (log : List Record) (m : Message) : Prop where
  request : m.type = .preAccept → isInitialBallot m.ballot = true →
    ∃ p ∈ log, p.event.Assigns ∧ m ∈ p.sent
  ok : m.type = .preAcceptOk → ∃ p ∈ log, p.event.Assigns ∧ ∃ a ∈ p.sent, a.type = .preAccept
    ∧ a.id = m.id ∧ a.sender = m.dest ∧ m.seq = a.seq ∧ m.deps = a.deps
  reply : m.type = .preAcceptReply → m.nack = 0 → isInitialBallot m.ballot = true →
    ∃ p ∈ log, p.event.Assigns ∧ ∃ a ∈ p.sent, a.type = .preAccept
      ∧ a.id = m.id ∧ a.sender = m.dest ∧ a.seq ≤ m.seq

theorem Message.Opened.cons {log : List Record} {m : Message} (h : m.Opened log) (t : Record) :
    m.Opened (t :: log) where
  request ht hb := by
    obtain ⟨p, hp, h⟩ := h.request ht hb
    exact ⟨p, List.mem_cons_of_mem t hp, h⟩
  ok ht := by
    obtain ⟨p, hp, h⟩ := h.ok ht
    exact ⟨p, List.mem_cons_of_mem t hp, h⟩
  reply ht hn hb := by
    obtain ⟨p, hp, h⟩ := h.reply ht hn hb
    exact ⟨p, List.mem_cons_of_mem t hp, h⟩

/-- A message of another type. -/
theorem Message.Opened.of_other {log : List Record} {m : Message} (h₁ : m.type ≠ .preAccept)
    (h₂ : m.type ≠ .preAcceptOk) (h₃ : m.type = .preAcceptReply → m.nack ≠ 0) : m.Opened log :=
  ⟨fun h => absurd h h₁, fun h => absurd h h₂, fun h hn => absurd hn (h₃ h)⟩

theorem Message.Opened.of_above {log : List Record} {m : Message} (h : m.type ≠ .preAcceptOk)
    (hb : isInitialBallot m.ballot = false) : m.Opened log :=
  ⟨fun _ hi => absurd (hb.symm.trans hi) nofun, fun hok => absurd hok h,
    fun _ _ hi => absurd (hb.symm.trans hi) nofun⟩

/-- Another record about another copy changes nothing; nor does one that counts no answer and
leaves what the copy owes. -/
theorem Opening.of_same {log : List Record} {k : ℕ} {i i' : Instance} {lt lt' : LeaderTracker}
    {t : Record} (h : Opening log k i lt) (hk : i'.key = i.key) (hs : i'.seq = i.seq)
    (hd : i'.deps = i.deps) (hc : i'.command = i.command) (he : lt'.equal = lt.equal)
    (hu : lt'.preAcceptOks = lt.preAcceptOks)
    (ht : t.who = k → t.after.key = i.key → ∀ m, ¬ t.Counts m) :
    Opening (t :: log) k i' lt' where
  opened := by
    obtain ⟨p, hp, h⟩ := h.opened
    rw [hk, hs, hd, hc, he]
    exact ⟨p, List.mem_cons_of_mem t hp, h⟩
  equal := by rw [he, hd]; exact h.equal
  uncounted := hu ▸ h.uncounted
  first := by
    rw [hk]
    simp only [List.forall_mem_cons]
    exact ⟨ht, h.first⟩

/-- The first answer decides. -/
theorem Opening.decides {log : List Record} {k : ℕ} {i : Instance} {lt : LeaderTracker}
    (h : Opening log k i lt) : N / 2 ≤ lt.preAcceptOk.preAcceptOks := by
  simp [LeaderTracker.preAcceptOk, h.uncounted, half_N, u8]

/-- Two records that propose one instance are one. -/
theorem opens_unique {T : RangeTree} {log : List Record} (h : Grown (Happens T) log) {p q : Record}
    (hp : p ∈ log) (hq : q ∈ log) (hpo : p.event.Assigns) (hqo : q.event.Assigns) (hw : p.who = q.who)
    (hk : p.after.key = q.after.key) (h₀ : p.after.key.instanceId ≠ 0) : p = q := by
  induction h with
  | nil => simp at hp
  | cons h ht ih =>
    rcases List.mem_cons.1 hp with rfl | hp' <;> rcases List.mem_cons.1 hq with rfl | hq'
    · rfl
    · exact absurd ⟨hw.symm, hk.symm⟩ (fresh_id h ht hpo h₀ q hq')
    · exact absurd ⟨hw, hk⟩ (fresh_id h ht hqo (hk ▸ h₀) p hp')
    · exact ih hp' hq'

theorem u8_succ_ne (n : ℕ) : u8 (n + 1) ≠ n := by
  unfold u8
  omega

section Step

variable {T : RangeTree} {older : List Record} {k : ℕ} {ev : Event} {r : Replica}
  {i i' : Instance} {io : List Message} {m : Message} {lt : LeaderTracker}

/-- The copy at a start ballot after one event. -/
theorem opening_step (hg : Grown (Happens T) older)
    (ht : Happens T older ⟨k, ev, r, i, i', io.map (envelope k)⟩) (hc : Unwrapped i ev)
    (hr : Record.Rooted ⟨k, ev, r, i, i', io.map (envelope k)⟩)
    (hi : i.AtStart → ∀ lt, i.lt = some lt → Opening older k i lt) (ha : Act T r i ev i' io) :
    i'.AtStart → ∀ lt, i'.lt = some lt →
      Opening (⟨k, ev, r, i, i', io.map (envelope k)⟩ :: older) k i' lt := by
  have hk : k < N := ht.who_lt
  have hrid : r.id = k := ht.who_eq
  have hroot : i.Rooted k := hr.before
  set t : Record := ⟨k, ev, r, i, i', io.map (envelope k)⟩ with htdef
  -- an event that counts no answer and leaves what the copy owes
  have same : ∀ {lt' : LeaderTracker}, i'.lt = some lt' → i'.AtStart → i.status = .preAccepted →
      i.ballot ≤ i'.ballot → i'.key = i.key → i'.seq = i.seq → i'.deps = i.deps →
      i'.command = i.command → (∃ lt, i.lt = some lt ∧ lt'.equal = lt.equal
        ∧ lt'.preAcceptOks = lt.preAcceptOks) → Opening (t :: older) k i' lt' := by
    intro lt' hlt' hs hst hb hk hsq hd hcm ⟨lt, hlt, he, hu⟩
    have hs' : i.AtStart := ⟨hk ▸ hs.1, hst, initial_of_le hb hs.2.2⟩
    refine (hi hs' lt hlt).of_same hk hsq hd hcm he hu fun _ _ m hm => ?_
    obtain ⟨-, -, lt₁, lt₂, h₁, h₂, hne⟩ := hm
    have h₁ : i.lt = some lt₁ := h₁
    have h₂ : i'.lt = some lt₂ := h₂
    rw [hlt] at h₁
    rw [hlt'] at h₂
    cases h₁
    cases h₂
    exact hne hu
  cases ha with
  | propose hlt hj hscan =>
    rintro hs _ ⟨⟩
    have ho : i = r.ownInstance := ht.located.2
    refine ⟨⟨t, by simp, rfl, trivial, rfl, rfl, rfl, rfl, ?_⟩, ?_, ?_, ?_⟩
    · simp only [t, List.map_cons, List.map_nil, List.forall_mem_singleton]
      exact ⟨rfl, .inl ⟨rfl, rfl⟩⟩
    · intro he
      simp only at he
      split_ifs at he with hu
      · exact ⟨by simp [hu], sdForCommand_deps hscan hu⟩
      · exact absurd rfl he
    · rw [ho] at hlt
      cases hlt
      rfl
    · simp only [List.forall_mem_cons]
      refine ⟨fun _ _ m hcm => ?_, fun p hp hw hpk => ?_⟩
      · cases hcm.1
      · exact absurd ⟨hw, hpk⟩ (fresh_id hg ht trivial hs.1 p hp)
  | checkpoint hd =>
    intro hs lt hlt
    have ho : i = r.ownInstance := ht.located.2
    rw [ho] at hlt
    cases hlt
    refine ⟨⟨t, by simp, rfl, trivial, rfl, rfl, rfl, rfl, ?_⟩, fun he => absurd rfl he, rfl, ?_⟩
    · simp only [t, List.map_cons, List.map_nil, List.forall_mem_singleton]
      exact ⟨rfl, .inr ⟨rfl, _, rfl, rfl⟩⟩
    · simp only [List.forall_mem_cons]
      refine ⟨fun _ _ m hcm => ?_, fun p hp hw hpk => ?_⟩
      · cases hcm.1
      · exact absurd ⟨hw, hpk⟩ (fresh_id hg ht trivial hs.1 p hp)
  | slowTimeout htm =>
    intro hs
    have := largerBallot_not_initial (hrid ▸ hk) (hc htm)
    exact absurd (this.symm.trans hs.2.2) nofun
  | nackRecover hty hlt hb hn =>
    intro hs
    have := largerBallot_not_initial (hrid ▸ hk) (hc.nacked hty hlt hb hn)
    exact absurd (this.symm.trans hs.2.2) nofun
  | fastTimeout =>
    intro hs lt hlt
    exact same hlt hs hs.2.1 le_rfl rfl rfl rfl rfl ⟨lt, hlt, rfl, rfl⟩
  | ignore | preAcceptNack | acceptNack | prepareNack | tryNack =>
    intro hs lt hlt
    exact same hlt hs hs.2.1 le_rfl rfl rfl rfl rfl ⟨lt, hlt, rfl, rfl⟩
  | @preAcceptReply m s hty _ hb =>
    intro hs lt hlt
    exact absurd hlt (hr.lone ht rfl (.inl hty) hb hs.2.2 lt)
  | @preAcceptOk m s hty _ hb _ _ _ _ hib =>
    intro hs lt hlt
    exact absurd hlt (hr.lone ht rfl (.inl hty) hb hib lt)
  | execute | okCommit | okAccept | replyCommit | replyAccept | acceptStore | acceptedCommit
  | preparedCommit | preparedNoop | preparedAdopt | triedAccept | commit =>
    intro hs
    exact absurd hs.2.1 nofun
  | okCount hty hlt hst hib hn =>
    intro hs
    exact absurd (hi ⟨hs.1, hst, hib⟩ _ hlt).decides hn
  | replyCount hty hlt hst _ _ hn =>
    intro hs
    exact absurd (hi ⟨hs.1, hst, hs.2.2⟩ _ hlt).decides hn
  | nackCount hty hlt =>
    rintro hs _ ⟨⟩
    exact same rfl hs hs.2.1 le_rfl rfl rfl rfl rfl ⟨_, hlt, rfl, rfl⟩
  | acceptedCount hty hlt hst =>
    intro hs
    exact absurd (hst.symm.trans hs.2.1) nofun
  | @preparePromise m hty =>
    intro hs
    exact absurd (((hr.msg m rfl).above (.inl hty)).symm.trans hs.2.2) nofun
  | preparedNack hty hlt hrec | preparedCount hty hlt hrec | preparedRestart hty hlt hrec
  | preparedTryOwn hty hlt hrec | preparedTry hty hlt hrec =>
    intro hs
    exact absurd hs.2.2 (hroot.above hlt (by rw [hrec]; nofun))
  | @tryStore m c hty =>
    intro hs
    exact absurd (((hr.msg m rfl).above (.inr (.inl hty))).symm.trans hs.2.2) nofun
  | triedRaise hty hlt hrec hs hn hb =>
    intro hs'
    have := largerBallot_not_initial (hrid ▸ hk) ((hc.tried hty hlt hrec hs hn).2 hb)
    exact absurd (this.symm.trans hs'.2.2) nofun
  | triedPrepare hty hlt hrec | triedDefer hty hlt hrec | triedCount hty hlt hrec =>
    intro hs
    exact absurd hs.2.2 (hroot.above hlt (by rw [hrec]; nofun))
  | @triedRestart m lt c b s tm hty hlt hrec hs hn hb hcb =>
    intro hs'
    have hbm := (hc.tried hty hlt hrec hs hn).1
    have hb : isInitialBallot b = false := by
      rcases hcb with ⟨-, rfl⟩ | ⟨-, rfl⟩
      · exact hbm
      · exact not_initial_of_le hb hbm
    exact absurd (hb.symm.trans hs'.2.2) nofun
  | triedRestartTwice hty hlt hrec hs hn =>
    intro hs'
    exact absurd ((hc.tried hty hlt hrec hs hn).1.symm.trans hs'.2.2) nofun

theorem opened_step (ht : Happens T older ⟨k, ev, r, i, i', io.map (envelope k)⟩)
    (hc : Unwrapped i ev) (hr : Record.Rooted ⟨k, ev, r, i, i', io.map (envelope k)⟩)
    (hm : ∀ p ∈ older, ∀ m ∈ p.sent, m.Opened older) (ha : Act T r i ev i' io) :
    ∀ m ∈ io, (envelope k m).Opened (⟨k, ev, r, i, i', io.map (envelope k)⟩ :: older) := by
  have hroot : i.Rooted k := hr.before
  have hv : ∀ m, ev = .step m → m.Opened older := fun m hev => by
    obtain ⟨⟨p, hp, hpm⟩, -⟩ := ht.source m hev
    exact hm p hp m hpm
  cases ha with
  | propose | checkpoint =>
    simp only [List.forall_mem_singleton]
    exact ⟨fun _ _ => ⟨_, List.mem_cons_self, trivial, by simp⟩, (by rintro ⟨⟩), (by rintro ⟨⟩)⟩
  | preAcceptNack =>
    simp only [List.forall_mem_singleton]
    exact .of_other (by rintro ⟨⟩) (by rintro ⟨⟩) fun _ => by simp [envelope]
  | @preAcceptReply m s hty =>
    simp only [List.forall_mem_singleton]
    refine ⟨(by rintro ⟨⟩), (by rintro ⟨⟩), fun _ _ hb => ?_⟩
    obtain ⟨p, hp, ho, hpm⟩ := (hv m rfl).request hty hb
    exact ⟨p, List.mem_cons_of_mem _ hp, ho, m, hpm, hty, rfl, rfl, le_max_left _ _⟩
  | @preAcceptOk m s hty _ _ _ _ _ _ hib =>
    simp only [List.forall_mem_singleton]
    refine ⟨(by rintro ⟨⟩), fun _ => ?_, (by rintro ⟨⟩)⟩
    obtain ⟨p, hp, ho, hpm⟩ := (hv m rfl).request hty hib
    exact ⟨p, List.mem_cons_of_mem _ hp, ho, m, hpm, hty, rfl, rfl, rfl, rfl⟩
  | preparedRestart hty hlt hrec =>
    simp only [List.forall_mem_singleton]
    exact .of_above (by rintro ⟨⟩) (hroot.recovering _ hlt (by rw [hrec]; rintro ⟨⟩))
  | @triedRestart m lt c b s tm hty hlt hrec hs hn hb hcb =>
    simp only [List.forall_mem_singleton]
    have hbm := (hc.tried hty hlt hrec hs hn).1
    refine .of_above (by rintro ⟨⟩) ?_
    rcases hcb with ⟨-, rfl⟩ | ⟨-, rfl⟩
    · exact hbm
    · exact not_initial_of_le hb hbm
  | triedRestartTwice hty hlt hrec hs hn =>
    have hbm := (hc.tried hty hlt hrec hs hn).1
    simp only [List.forall_mem_cons, List.not_mem_nil, false_imp_iff, implies_true, and_true]
    exact ⟨.of_above (by rintro ⟨⟩) hbm, .of_above (by rintro ⟨⟩) hbm⟩
  | execute | ignore | okCount | nackCount | replyCount | acceptedCount | preparedNack
  | preparedCount | triedDefer | triedCount | commit => simp
  | _ =>
    simp only [List.forall_mem_singleton]
    exact .of_other (by rintro ⟨⟩) (by rintro ⟨⟩) (by rintro ⟨⟩)

end Step

/-- In a log whose ballots do not wrap: what the copies and messages owe to the proposals. -/
theorem grown_opening {T : RangeTree} {C : List Record → Record → Prop}
    (hC : ∀ {older t}, C older t → Unwrapped t.before t.event) {log : List Record}
    (h : Grown (fun older t => Happens T older t ∧ C older t) log) :
    (∀ k id i, Last log k id i → i.AtStart → ∀ lt, i.lt = some lt → Opening log k i lt)
      ∧ ∀ p ∈ log, ∀ m ∈ p.sent, m.Opened log := by
  refine run_rule (C := fun older t => C older t ∧ t.Rooted)
    (I := fun log k i => i.AtStart → ∀ lt, i.lt = some lt → Opening log k i lt)
    (M := fun log m => m.Opened log) ?_ (fun h => h.cons _) ?_ ?_ (grown_rooted hC h)
  · intro older t k i _ hi hne hs lt hlt
    exact (hi hs lt hlt).of_same rfl rfl rfl rfl rfl rfl fun h₁ h₂ => absurd ⟨h₁, h₂⟩ hne
  · rintro older t - - - - (hb | hb) hs
    · rw [hb] at hs
      exact absurd hs.2.1 nofun
    · rw [hb] at hs
      exact absurd hs.2.1 nofun
  · intro older k ev r i i' io hg ht hc _ hm hi ha
    exact ⟨opening_step (hg.imp fun _ _ h => h.1) ht (hC hc.1) hc.2 hi ha,
      opened_step ht (hC hc.1) hc.2 hm ha⟩

/-- `equal` is left at 1 by a reply that changes nothing, and, where the seq does not grow, only if
it was 1 before. -/
theorem foldEqual_ne_zero {equal seq mseq changes : ℕ} (h : foldEqual equal seq mseq changes ≠ 0)
    (hc : changes ≤ maxDeps) (he : equal ≠ 0 → equal = 1) :
    changes = 0 ∧ (mseq ≤ seq → equal = 1) := by
  unfold foldEqual at h
  unfold maxDeps at hc
  rw [ite_ne_right_iff] at h
  have h := h.1
  unfold u8 at h
  split_ifs at h with hlt
  · exact ⟨by omega, fun hle => by omega⟩
  · by_cases hz : equal = 0
    · omega
    · have := he hz
      exact ⟨by omega, fun _ => this⟩

/-- A merge into a zeroed array that changes nothing merged nothing. -/
theorem entries_of_merge_zero {deps : Deps} (h : (Deps.zero.merge deps.slots).2 = 0) :
    deps = .zero := by
  refine Deps.ext_entries ?_
  rw [Deps.entries_zero, List.eq_nil_iff_forall_not_mem]
  intro d hd
  have hfull := deps.entries_ok.full d hd
  rw [Deps.merge_slots] at h
  have := (Deps.merge_eq_zero _ h).2 d hd
  rw [Deps.update_zero hfull] at this
  cases this

/-- How a pre-accept answer commits. -/
theorem Act.fast_commit {T : RangeTree} {r : Replica} {i i' : Instance} {io : List Message}
    {m : Message} (ha : Act T r i (.step m) i' io) (hs : i.status = .preAccepted)
    (hs' : i'.status = .committed) (hm : m.type = .preAcceptOk ∨ m.type = .preAcceptReply) :
    ∃ lt, i.lt = some lt
      ∧ ((m.type = .preAcceptOk ∧ lt.equal ≠ 0
          ∧ i' = { i with lt := some lt.preAcceptOk, status := .committed, timer := none })
        ∨ (m.type = .preAcceptReply ∧ m.nack = 0 ∧ i.ballot = m.ballot
          ∧ foldEqual lt.equal i.seq m.seq (i.deps.merge m.deps.slots).2 ≠ 0
          ∧ hasUncommittedDeps (mergeReply i m lt) = false
          ∧ i' = { mergeReply i m lt with status := .committed, timer := none })) := by
  cases ha with
  | okCommit ht hlt _ _ _ he => exact ⟨_, hlt, .inl ⟨ht, he, rfl⟩⟩
  | replyCommit ht hlt _ hb hn _ he _ hd _ => exact ⟨_, hlt, .inr ⟨ht, hn, hb, he, hd, rfl⟩⟩
  | preparedCommit ht | commit ht => simp [ht] at hm
  | acceptedCommit _ _ hst => exact absurd (hs.symm.trans hst) (by rintro ⟨⟩)
  | preAcceptReply | preAcceptOk =>
    simp only [preAcceptInst] at hs'
    split_ifs at hs'
  | ignore | preAcceptNack | okCount | nackCount | nackRecover | replyCount | acceptNack
  | acceptedCount | prepareNack | preparePromise | preparedNack | preparedCount | preparedTryOwn
  | tryNack | triedRaise | triedPrepare | triedDefer | triedCount =>
    exact absurd (hs.symm.trans hs') (by rintro ⟨⟩)
  | _ => exact absurd hs' (by rintro ⟨⟩)

/-- The record commits on the answer `m`, which repeats what the copy has held since it was proposed
without dependencies. -/
structure FastAnswer (older : List Record) (t : Record) (m : Message) (lt : LeaderTracker) :
    Prop where
  event : t.event = .step m
  answers : m.type = .preAcceptOk
    ∨ (m.type = .preAcceptReply ∧ m.nack = 0 ∧ t.before.ballot = m.ballot)
  tracker : t.before.lt = some lt
  start : t.before.AtStart
  opening : Opening older t.who t.before lt
  equal : lt.equal ≠ 0
  seq : m.seq = t.before.seq
  deps : m.deps = .zero
  after : ∃ lt', lt'.preAcceptOks ≠ lt.preAcceptOks
    ∧ t.after = { t.before with lt := some lt', status := .committed, timer := none }

namespace FastAnswer

variable {older : List Record} {t : Record} {m : Message} {lt : LeaderTracker}

theorem unanswered (h : FastAnswer older t m lt) : ¬ m.type.Broadcast := by
  rcases h.answers with ht | ⟨ht, -⟩ <;> simp [MessageType.Broadcast, ht]

theorem zero (h : FastAnswer older t m lt) : t.before.deps = .zero := (h.opening.equal h.equal).2

/-- What was proposed is what the answer repeats. -/
theorem proposal (h : FastAnswer older t m lt) : ∃ p ∈ older, p.who = t.who ∧ p.event.Assigns
    ∧ p.after.key = t.before.key ∧ p.after.seq = t.before.seq ∧ p.after.deps = t.before.deps
    ∧ p.after.command = t.before.command
    ∧ ∀ a ∈ p.sent, a.deps = t.before.deps ∧ a.seq = t.before.seq
      ∧ a.command = t.before.command := by
  obtain ⟨p, hp, hw, ho, hk, hs, hd, hc, hsent⟩ := h.opening.opened
  refine ⟨p, hp, hw, ho, hk, hs, hd, hc, fun a ha => ?_⟩
  obtain ⟨had, h' | ⟨h', -⟩⟩ := hsent a ha
  · exact ⟨had, h'⟩
  · exact absurd h' h.equal

theorem counts (h : FastAnswer older t m lt) : t.Counts m := by
  obtain ⟨lt', hne, ha⟩ := h.after
  exact ⟨h.event, h.answers.imp_right fun h => ⟨h.1, h.2.1⟩, lt, lt', h.tracker, by rw [ha], hne⟩

end FastAnswer

/-- The proposal that a counted answer answers. -/
theorem exists_answered {T : RangeTree} {C : List Record → Record → Prop}
    (hC : ∀ {older t}, C older t → Unwrapped t.before t.event) {older : List Record}
    (hg : Grown (fun older t => Happens T older t ∧ C older t) older) {t : Record}
    (ht : Happens T older t) {m : Message} (hev : t.event = .step m)
    (hty : m.type = .preAcceptOk
      ∨ (m.type = .preAcceptReply ∧ m.nack = 0 ∧ isInitialBallot m.ballot = true)) :
    ∃ p ∈ older, p.who = t.who ∧ p.event.Assigns ∧ p.after.key = t.before.key
      ∧ ∃ a ∈ p.sent, a.type = .preAccept ∧ a.id = m.id ∧ a.seq ≤ m.seq
        ∧ (m.type = .preAcceptOk → m.seq = a.seq ∧ m.deps = a.deps) := by
  obtain ⟨-, hmsg⟩ := grown_opening hC hg
  obtain ⟨⟨s, hs, hsm⟩, -⟩ := ht.source m hev
  have hnb : ¬ m.type.Broadcast := by
    rcases hty with h | ⟨h, -⟩ <;> simp [MessageType.Broadcast, h]
  have named : ∀ {p a}, p ∈ older → a ∈ p.sent → a.id = m.id → a.sender = m.dest →
      p.who = t.who ∧ p.after.key = t.before.key := by
    intro p a hp ha hid hd
    obtain ⟨_, _, -, -, hph, -⟩ := hg.of_mem hp
    refine ⟨(hph.sender ha).symm.trans (hd.trans (ht.dest hev hnb)), ?_⟩
    rw [hph.key, ← hph.sent_id ha, hid, (ht.step_key hev).1]
  rcases hty with hty | ⟨hty, hn, hb⟩
  · obtain ⟨p, hp, ho, a, ha, hat, hid, has, hv⟩ := (hmsg s hs m hsm).ok hty
    obtain ⟨hw, hk⟩ := named hp ha hid has
    exact ⟨p, hp, hw, ho, hk, a, ha, hat, hid, hv.1.ge, fun _ => hv⟩
  · obtain ⟨p, hp, ho, a, ha, hat, hid, has, hle⟩ := (hmsg s hs m hsm).reply hty hn hb
    obtain ⟨hw, hk⟩ := named hp ha hid has
    exact ⟨p, hp, hw, ho, hk, a, ha, hat, hid, hle, fun h => absurd (hty.symm.trans h) (by simp)⟩

/-- How a fast-path commit comes about where ballots do not wrap and answers with a larger seq change
a dependency too. -/
theorem fast_answer {T : RangeTree} {C : List Record → Record → Prop}
    (hC : ∀ {older t}, C older t → Unwrapped t.before t.event) {older : List Record}
    (hg : Grown (fun older t => Happens T older t ∧ C older t) older) {t : Record}
    (ht : Happens T older t) (hsteady : Steady t.before t.event) (hf : t.FastCommits) :
    ∃ m lt, FastAnswer older t m lt := by
  obtain ⟨hcopy, -⟩ := grown_opening hC hg
  obtain ⟨hst, hib, hst', hty⟩ := hf
  have hlast := ht.last_of_status (by rw [hst]; nofun)
  obtain ⟨m, hev, hty⟩ : ∃ m, t.event = .step m
      ∧ (m.type = .preAcceptOk ∨ m.type = .preAcceptReply) := by
    cases hev : t.event <;> rw [hev] at hty <;> try exact hty.elim
    exact ⟨_, rfl, hty⟩
  have hstart : t.before.AtStart := ⟨(ht.step_key hev).1 ▸ (ht.step_key hev).2.2, hst, hib⟩
  obtain ⟨io, ha, -⟩ := ht.acts
  rw [hev] at ha
  obtain ⟨lt, hlt, hcase⟩ := ha.fast_commit hst hst' hty
  have hop := hcopy _ _ _ hlast hstart lt hlt
  have hty : m.type = .preAcceptOk
      ∨ (m.type = .preAcceptReply ∧ m.nack = 0 ∧ isInitialBallot m.ballot = true) :=
    hcase.imp And.left fun h => ⟨h.1, h.2.1, (congrArg isInitialBallot h.2.2.1).symm.trans hib⟩
  -- the answer is one to the copy's proposal
  obtain ⟨p, hp, hw, ho, hk, a, ha, -, -, hle, hok⟩ := exists_answered hC hg ht hev hty
  obtain ⟨p', hp', hw', ho', hk', -, -, -, hsent⟩ := hop.opened
  have hpp : p = p' := by
    refine opens_unique (hg.imp fun _ _ h => h.1) hp hp' ho ho' (hw.trans hw'.symm)
      (hk.trans hk'.symm) ?_
    rw [hk]
    exact hstart.1
  subst hpp
  obtain ⟨had, has⟩ := hsent a ha
  rcases hcase with ⟨hty, he, hafter⟩ | ⟨hty, hn, hb, he, hd, hafter⟩
  · have has := (has.resolve_right fun h => he h.1).1
    obtain ⟨hseq, hdeps⟩ := hok hty
    exact ⟨m, lt, hev, .inl hty, hlt, hstart, hop, he, hseq.trans has,
      hdeps.trans (had.trans (hop.equal he).2), _, u8_succ_ne _, hafter⟩
  · obtain ⟨hch, heq⟩ := foldEqual_ne_zero he
      ((Deps.merge_le_length _ _).trans_eq m.deps.size) fun h => (hop.equal h).1
    obtain ⟨hmerge, hnone⟩ := Deps.merge_eq_zero _ hch
    have hseq : m.seq ≤ t.before.seq := by
      by_contra hgt
      simp only [hev, Steady, hty, hlt] at hsteady
      rcases hsteady ⟨hst, hb, hb ▸ hib, hn, by omega⟩ with hu | ⟨d, hd, hne⟩
      · have : hasUncommittedDeps (mergeReply t.before m lt) = hasUncommittedDeps t.before := by
          simp [hasUncommittedDeps, mergeReply, hmerge]
        rw [this, hu] at hd
        cases hd
      · exact hne (hnone d hd)
    have he : lt.equal ≠ 0 := by rw [heq hseq]; omega
    have has := (has.resolve_right fun h => he h.1).1
    have hzero := (hop.equal he).2
    refine ⟨m, lt, hev, .inr ⟨hty, hn, hb⟩, hlt, hstart, hop, he, by omega,
      entries_of_merge_zero (hzero ▸ hch), { lt.preAcceptOk with
        equal := foldEqual lt.equal t.before.seq m.seq (t.before.deps.merge m.deps.slots).2 },
      u8_succ_ne lt.preAcceptOks, ?_⟩
    rw [hafter]
    simp only [mergeReply, hmerge, max_eq_left hseq]

/-- In a run whose ballots do not wrap and whose answers with a larger seq change a dependency too,
every fast-path commit is sound. -/
theorem fast_path_sound {T : RangeTree} {w : World} (h : Run T w)
    (hc : ∀ t ∈ w.log, Unwrapped t.before t.event ∧ Steady t.before t.event)
    {newer older : List Record} {t : Record} (hl : w.log = newer ++ t :: older)
    (hf : t.FastCommits) : t.FastSound older := by
  have hg := (hl ▸ h.grown.1.and hc).of_append
  obtain ⟨ht, -, hsteady⟩ := hg.head
  obtain ⟨-, -, hr⟩ := (grown_rooted (fun h => h.1) hg).head
  obtain ⟨m, lt, hm⟩ := fast_answer (fun h => h.1) hg.tail ht hsteady hf
  obtain ⟨p, hp, hw, ho, hk, a, ha, hat, hid, -⟩ :=
    exists_answered (fun h => h.1) hg.tail ht hm.event
      (hm.answers.imp_right fun h => ⟨h.1, h.2.1,
        (congrArg isInitialBallot h.2.2).symm.trans hm.start.2.2⟩)
  obtain ⟨p', hp', hw', ho', hk', -, -, -, hsent⟩ := hm.proposal
  have hpp : p = p' := by
    refine opens_unique (hg.tail.imp fun _ _ h => h.1) hp hp' ho ho' (hw.trans hw'.symm)
      (hk.trans hk'.symm) ?_
    rw [hk]
    exact hm.start.1
  subst hpp
  obtain ⟨had, has, -⟩ := hsent a ha
  obtain ⟨hkey, -, -⟩ := ht.step_key hm.event
  obtain ⟨⟨s, hs, hsm⟩, -⟩ := ht.source m hm.event
  obtain ⟨_, _, -, -, hsh, -⟩ := hg.tail.of_mem hs
  have hsender : s.who = m.sender := (hsh.sender hsm).symm
  obtain ⟨lt', -, hafter⟩ := hm.after
  refine ⟨p, hp, hw, ho, a, ha, hat, ?_, fun c hc hcw hck m' hm' => ?_, ?_, ?_⟩
  · rw [hid, ht.key, hkey]
  · -- it is the only answer counted
    rcases List.mem_cons.1 hc with rfl | hc
    · have := hm.event.symm.trans hm'.1
      cases this
      exact ⟨hm.seq.trans has.symm, by rw [hm.deps, had, hm.zero]; exact .refl _⟩
    · exact absurd hm' (hm.opening.first c hc hcw (by rw [hck, ht.key]) m')
  · refine ⟨[m.sender], by simp, by simp [half_N], ?_⟩
    simp only [List.forall_mem_singleton]
    have hne := (hr.msg m hm.event).apart hm.unanswered
    rw [ht.dest hm.event hm.unanswered] at hne
    exact ⟨hsender ▸ hsh.who_lt, hne, t, by simp, rfl, rfl, m, hm.counts, s, hs, hsender, hsm⟩
  · have hd : t.after.deps = .zero := by rw [hafter]; exact hm.zero
    rw [hd, Deps.entries_zero]
    simp

theorem fast_path_sound_fastCommit : ∃ w newer t older, Run listTree w
    ∧ w.log = newer ++ t :: older ∧ t.FastCommits ∧ t.FastSound older := by
  obtain ⟨w, hr, hc, t, ht, hf⟩ := @exists_run fastCommit
    (fun w => (∀ t ∈ w.log, Unwrapped t.before t.event ∧ Steady t.before t.event)
      ∧ ∃ t ∈ w.log, t.FastCommits) _ (by decide +kernel)
  obtain ⟨newer, older, hl⟩ := List.append_of_mem ht
  exact ⟨w, newer, t, older, hr, hl, hf, fast_path_sound hr hc hl hf⟩

/-- Replica 1 has the first write of replica 0 with a larger seq than the one replica 0 commits it
with, and so answers its second write with a larger seq and no new dependency. -/
def largerSeq : List Move :=
  [proposeAt 1 [51, 48] [52, 48], proposeAt 0 [49, 48] [51, 53], deliverAt 1 .preAccept ⟨0, 1⟩,
    deliverAt 2 .preAccept ⟨0, 1⟩, deliverAt 0 .preAcceptOk ⟨0, 1⟩, proposeAt 0 [49, 48] [50, 48],
    deliverAt 1 .preAccept ⟨0, 2⟩, deliverAt 0 .preAcceptReply ⟨0, 2⟩]

theorem largerSeq_unsound : ¬ ∀ w, Run listTree w → ∀ newer t older,
    w.log = newer ++ t :: older → t.FastCommits → t.FastSound older := by
  intro h
  obtain ⟨w, hr, t, ht, hf, m, hm, hty, lt, hlt, lt', hlt', hne, hseq⟩ := @exists_run largerSeq
    (fun w => ∃ t ∈ w.log.head?, t.FastCommits ∧ ∃ m ∈ t.message,
      (m.type = .preAcceptOk ∨ (m.type = .preAcceptReply ∧ m.nack = 0))
        ∧ ∃ lt ∈ t.before.lt, ∃ lt' ∈ t.after.lt, lt'.preAcceptOks ≠ lt.preAcceptOks
        ∧ ∀ p ∈ w.log.tail, ∀ a ∈ p.sent, a.type = .preAccept → a.id = t.after.key →
          m.seq ≠ a.seq) _ (by decide +kernel)
  have hl : w.log = [] ++ t :: w.log.tail := by
    rw [List.nil_append, List.eq_cons_of_mem_head? ht]
    rfl
  obtain ⟨p, hp, -, -, a, ha, hat, hid, hall, -⟩ := h w hr [] t _ hl hf
  have hcount : t.Counts m := ⟨Record.mem_message.1 hm, hty, lt, lt', hlt, hlt', hne⟩
  exact hseq p hp a ha hat hid (hall t (by simp) rfl rfl m hcount).1

end Epx
