import Epx.Proofs.Chosen
import Epx.Proofs.Recovery

/-!
# Agreement on what is committed

Every committed copy has the values of a commit of the fast path or of the slow path. With one of
the fast path all others of the instance agree, and two of the slow path have the value that was
offered at the lower of their ballots.
-/

namespace Epx

open Log Ballots

/-- The events of a run in which the replicas agree: fast-path commits are safe from recoveries,
what is sent is what the copies have, no status steps back and recoveries adopt the newest value. -/
def Record.Concordant (T : RangeTree) (older : List Record) (t : Record) : Prop :=
  t.Preserves T ∧ Storing t.before t.event ∧ Guarded t.before t.event ∧ t.Ranked older

instance (T : RangeTree) (older : List Record) (t : Record) : Decidable (t.Concordant T older) :=
  inferInstanceAs (Decidable (_ ∧ _))

/-- The leader or a replica that proposes after a recovery has committed the value. -/
def Decreed (log : List Record) (id : InstanceId) (v : Value) : Prop :=
  ∃ c ∈ log, c.after.key = id ∧ c.after.value = v ∧ (c.FastCommits ∨ c.SlowCommits)

/-- The message says that the instance is committed. -/
def Message.Announces (m : Message) : Prop :=
  m.type = .commit ∨ (m.type = .prepareReply ∧ m.nack = 0 ∧ m.Final)

theorem Decreed.cons {log : List Record} {id : InstanceId} {v : Value} (h : Decreed log id v)
    (t : Record) : Decreed (t :: log) id v := by
  obtain ⟨c, hc, h⟩ := h
  exact ⟨c, List.mem_cons_of_mem t hc, h⟩

section Run

variable {T : RangeTree} {W log older : List Record} {t : Record} {k : ℕ} {ev : Event}
  {r : Replica} {i i' : Instance} {io : List Message} {id : InstanceId} {b : ℕ}

theorem Record.Concordant.orderly (h : t.Concordant T older) : t.Orderly :=
  ⟨h.1.1, h.1.2.1, h.2.1, h.1.2.2.2.1⟩

/-- A replica that stores what an `ACCEPT` asks for holds it. -/
theorem Record.Stores.held (ht : Happens T older t) (hc : t.Concordant T older) (hw : t ∈ W)
    (h : t.Stores id b) : Held W t.who id b := by
  unfold Record.Stores at h
  cases hev : t.event with
  | step m =>
    rw [hev] at h
    obtain ⟨hty, rfl, hmb, hs, hb⟩ := h
    refine ⟨t, hw, rfl, ht.key.trans (ht.step_key hev).1, hb, hs, ?_⟩
    unfold Record.Accepts
    rw [hev]
    obtain ⟨io, ha, -⟩ := ht.acts
    have hon := (ha.onward ht.located hc.2.2.1).1
    have hle := ht.ballot_le hc.1.1 hc.1.2.1
    refine .inl ⟨hty, fun hd => ?_, by omega⟩
    have hr := decided_iff.1 hd
    rw [hs, show State.accepted.rank = 2 from rfl] at hon
    omega
  | propose m | checkpoint m | timeout id m | execute id =>
    rw [hev] at h
    exact h.elim

/-- What a slow-path commit commits was offered at its ballot, and two replicas hold it. -/
theorem slow_settled
    (hg : Grown (fun older t => Happens T older t ∧ t.Concordant T older) W) (ht : t ∈ W)
    (hs : t.SlowCommits) : Offered W t.after.key t.after.ballot t.after.value
      ∧ Repeats (Offered W t.after.key) t.after.ballot := by
  obtain ⟨newer, older, hW⟩ := List.append_of_mem ht
  obtain ⟨hgo, hh, -⟩ := hg.cut hW
  obtain ⟨-, -, -, hr⟩ := (grown_rooted (fun h => h.1.1) hg).cut hW
  have hmem : ∀ {u}, u ∈ older → u ∈ W := fun hu => by
    rw [hW]
    exact List.mem_append_right newer (List.mem_cons_of_mem t hu)
  obtain ⟨m, -, -, ⟨a, ⟨p, hp, hpw, hpa⟩, hta, hid, hab, hav⟩, q, hq, -, hne, hqs, hqv⟩ :=
    slow_answer (C := fun older t => t.Concordant T older) (fun h => h.orderly) hgo hh hr hs
  obtain ⟨_, _, -, -, hph, -⟩ := hgo.of_mem hp
  obtain ⟨_, _, -, -, hqh, hqc⟩ := hgo.of_mem hq
  have held : Held W t.who t.after.key t.after.ballot := by
    have h := (grown_earned (fun h => h.orderly) hg p (hmem hp) a hpa).held hta
    rwa [hph.sender hpa, hpw, hid, hab] at h
  refine ⟨⟨t.who, a, ⟨p, hmem hp, hpw, hpa⟩, hta, hid, hab, hav⟩, ?_⟩
  exact repeats_of_held (fun h => ⟨h.orderly, h.2.2.1, h.2.2.2⟩) hg held
    (hqs.held hqh hqc (hmem hq)) hne.symm

theorem decreed_step
    (hg : Grown (fun older t => Happens T older t ∧ t.Concordant T older) older)
    (ht : Happens T older ⟨k, ev, r, i, i', io.map (envelope k)⟩)
    (hc : Record.Concordant T older ⟨k, ev, r, i, i', io.map (envelope k)⟩)
    (hw : Record.Rooted ⟨k, ev, r, i, i', io.map (envelope k)⟩)
    (hh : ∀ id ∈ r.handed, ∃ p ∈ older, p.who = k ∧ p.after.key = id ∧ p.after.status = .committed)
    (hm : ∀ p ∈ older, ∀ m ∈ p.sent, m.Announces → Decreed older m.id m.value)
    (hi : i.Decided → Decreed older i.key i.value) (ha : Act T r i ev i' io) :
    (i'.Decided → Decreed (⟨k, ev, r, i, i', io.map (envelope k)⟩ :: older) i'.key i'.value)
      ∧ ∀ m ∈ io, (envelope k m).Announces →
        Decreed (⟨k, ev, r, i, i', io.map (envelope k)⟩ :: older) m.id m.value := by
  have hst : Storing i ev := hc.2.1
  have hv : ∀ m, ev = .step m → m.Announces → Decreed older i.key m.value := fun m hev hma => by
    obtain ⟨⟨p, hp, hpm⟩, -⟩ := ht.source m hev
    exact (ht.step_key hev).1 ▸ hm p hp m hpm hma
  set t : Record := ⟨k, ev, r, i, i', io.map (envelope k)⟩ with htdef
  have silent : (∀ m ∈ io, m.type ≠ .commit ∧ m.type ≠ .prepareReply) → ∀ m ∈ io,
      (envelope k m).Announces → Decreed (t :: older) m.id m.value := by
    intro h m hmem hma
    rcases hma with hty | ⟨hty, -⟩
    · exact absurd hty (h m hmem).1
    · exact absurd hty (h m hmem).2
  have keep : i'.status = i.status → i'.value = i.value → i'.Decided →
      Decreed (t :: older) i'.key i'.value := by
    intro hs hval hd
    unfold Instance.Decided at hd
    rw [hs] at hd
    rw [ha.key, hval]
    exact (hi hd).cons t
  have undecided : (i'.status = .preAccepted ∨ i'.status = .preAcceptedEq
      ∨ i'.status = .accepted) → i'.Decided → Decreed (t :: older) i'.key i'.value := by
    intro hs hd
    unfold Instance.Decided at hd
    rcases hs with hs | hs | hs <;> rw [hs] at hd <;> rcases hd with hd | hd <;> cases hd
  have commits : i'.status = .committed → t.FastCommits ∨ t.SlowCommits →
      (∀ m ∈ io, m.value = i'.value) →
      (i'.Decided → Decreed (t :: older) i'.key i'.value)
        ∧ ∀ m ∈ io, (envelope k m).Announces → Decreed (t :: older) m.id m.value := by
    intro hs hfs hio
    have hd : Decreed (t :: older) i'.key i'.value := ⟨t, List.mem_cons_self, rfl, rfl, hfs⟩
    refine ⟨fun _ => hd, fun m hmem _ => ?_⟩
    rw [hio m hmem, ha.sent_id (fun m hm => (ht.step_key hm).1) m hmem, ← ha.key]
    exact hd
  have carries : ∀ m ∈ io, m.type = .commit → Matching i ev → m.value = i'.value := by
    intro m hmem hty hmat
    obtain ⟨h, -⟩ := @Act.faithful T r i i' ev io 0 ha hmat (envelope 0 m)
      (List.mem_map_of_mem hmem)
    obtain ⟨h₁, h₂, -, h₃⟩ := h (.inr (.inr hty))
    exact Prod.ext h₁ (Prod.ext h₂ h₃)
  cases ha with
  | okCommit hty hlt hs hib =>
    refine commits rfl (.inl ⟨hs, hib, rfl, .inl hty⟩) (List.forall_mem_singleton.2 ?_)
    exact carries _ (List.mem_singleton_self _) rfl
      (hst.matching (by simp [hty]) (by simp [hty]))
  | replyCommit hty hlt hs _ _ _ _ hib =>
    refine commits rfl (.inl ⟨hs, hib, rfl, .inr hty⟩) (List.forall_mem_singleton.2 ?_)
    exact carries _ (List.mem_singleton_self _) rfl
      (hst.matching (by simp [hty]) (by simp [hty]))
  | @acceptedCommit m lt c hty hlt hs hb hn =>
    have hslow : t.SlowCommits := ⟨hs, rfl, hty⟩
    refine commits rfl (.inr hslow) (List.forall_mem_singleton.2 ?_)
    obtain ⟨m', hev, hval, -⟩ := slow_answer (fun h => h.orderly) hg ht hw hslow
    cases hev
    exact hval
  | @preparedCommit m lt c hty hlt hr hn hf =>
    have hd := (hv m rfl (.inr ⟨hty, hn, hf⟩)).cons t
    exact ⟨fun _ => hd, List.forall_mem_singleton.2 fun _ => (ht.step_key rfl).1 ▸ hd⟩
  | @commit m hty =>
    have hcm : m.command = i.command := hc.1.2.2.2.2.committed hty
    refine ⟨fun _ => ?_, by simp⟩
    have hval : m.value = (i.command, m.seq, m.deps) := Prod.ext hcm rfl
    show Decreed (t :: older) i.key (i.command, m.seq, m.deps)
    rw [← hval]
    exact (hv m rfl (.inl hty)).cons t
  | @execute id hid =>
    refine ⟨fun _ => ?_, by simp⟩
    -- what is executed was committed before
    obtain ⟨p, hp, hpw, hpk, hps⟩ := hh id hid
    have hlast : Last older k id i := ht.found id i ht.located
    have hle := grown_rank (fun h => ⟨h.2.2.1, h.orderly.2.2.2⟩) hg hlast p hp hpw
      (hpk.trans hlast.key.symm)
    rw [hps, show State.committed.rank = 3 from rfl] at hle
    exact (hi (decided_iff.2 hle)).cons t
  | @preparePromise m hty hb =>
    refine ⟨keep rfl rfl, List.forall_mem_singleton.2 ?_⟩
    rintro (h | ⟨-, -, hf⟩)
    · cases h
    · exact (ht.step_key rfl).1 ▸ (hi hf).cons t
  | prepareNack =>
    refine ⟨keep rfl rfl, List.forall_mem_singleton.2 ?_⟩
    rintro (h | ⟨-, hn, -⟩)
    · cases h
    · cases hn
  | preAcceptReply | preAcceptOk =>
    refine ⟨undecided ?_, silent (by simp)⟩
    simp only [preAcceptInst]
    split_ifs <;> simp
  | replyCount _ _ hs => exact ⟨undecided (.inl hs), silent (by simp)⟩
  | preparedTryOwn hty hlt hr hn hf hl _ hna =>
    subst hl
    have hrank : i.status.rank < 2 := hc.2.2.1.below hty hlt hr hn hf hna
    refine ⟨fun hd => ?_, silent (by simp)⟩
    have hd := decided_iff.1 (show i.Decided from hd)
    omega
  | propose | checkpoint | okAccept | replyAccept | acceptStore | preparedNoop | preparedAdopt
  | preparedRestart | preparedTry | tryStore | triedRestart | triedRestartTwice | triedAccept =>
    exact ⟨undecided (by simp [phase1Inst]), silent (by simp [phase1Msg])⟩
  | _ => exact ⟨keep rfl rfl, silent (by simp [recoverMsg])⟩

/-- In the log of a run of concordant events every decided copy has the values of a commit. -/
theorem grown_decreed
    (hg : Grown (fun older t => Happens T older t ∧ t.Concordant T older) log)
    (hh : Grown (fun older t => ∀ id ∈ t.pre.handed,
      ∃ p ∈ older, p.who = t.who ∧ p.after.key = id ∧ p.after.status = .committed) log)
    (hl : Last log k id i) (hd : i.Decided) : Decreed log id i.value := by
  have h := (run_rule (C := fun older t => (t.Concordant T older ∧ ∀ id ∈ t.pre.handed,
      ∃ p ∈ older, p.who = t.who ∧ p.after.key = id ∧ p.after.status = .committed) ∧ t.Rooted)
    (I := fun log _ i => i.Decided → Decreed log i.key i.value)
    (M := fun log m => m.Announces → Decreed log m.id m.value) ?_ ?_ ?_ ?_
    (grown_rooted (fun h => h.1.1.1) ((hg.both hh).imp fun _ _ h => ⟨h.1.1, h.1.2, h.2⟩))).1
    k id i hl hd
  · obtain rfl := hl.key
    exact h
  · exact fun _ hi _ hd => (hi hd).cons _
  · exact fun hm ha => (hm ha).cons _
  · rintro older t - - - - (hb | hb) hd <;> rw [hb] at hd <;> rcases hd with hd | hd <;> cases hd
  · intro older k ev r i i' io hg ht hc _ hm hi ha
    exact decreed_step (hg.imp fun _ _ h => ⟨h.1, h.2.1.1⟩) ht hc.1.1 hc.2 hc.1.2 hm hi ha

end Run

/-- In a run of concordant events no two replicas have an instance committed or executed with other
values. -/
theorem commits_agree {T : RangeTree} {w : World} (h : Run T w)
    (hc : Grown (fun older t => t.Concordant T older) w.log) {j k : ℕ} {id : InstanceId}
    {x y : Instance} (hx : (w.replica j).find id = some x) (hy : (w.replica k).find id = some y)
    (hdx : x.Decided) (hdy : y.Decided) : x.Agrees y := by
  obtain ⟨hg, hw⟩ := h.grown
  have hg := hg.both hc
  have hp : ∀ t ∈ w.log, t.Preserves T := by
    intro t ht
    obtain ⟨_, _, -, -, h⟩ := hc.of_mem ht
    exact h.1
  obtain ⟨c, hcw, rfl, hcx, hcc⟩ := grown_decreed hg h.grown_handed (hw.last j id x hx) hdx
  obtain ⟨d, hdw, hdk, hdy, hdd⟩ := grown_decreed hg h.grown_handed (hw.last k _ y hy) hdy
  refine Instance.agrees_of_value ?_
  rw [← hcx, ← hdy]
  have committed : ∀ {t : Record}, t.FastCommits ∨ t.SlowCommits → t.after.status = .committed := by
    rintro t (h | h)
    · exact h.2.2.1
    · exact h.2.1
  rcases hcc with hf | hs
  · exact (fast_commit_value (h.within hp) hcw hf hdw hdk (.inr (committed hdd))).symm
  rcases hdd with hf | hs'
  · exact fast_commit_value (h.within hp) hdw hf hcw hdk.symm (.inr (committed (.inr hs)))
  · obtain ⟨ho, hr⟩ := slow_settled hg hcw hs
    obtain ⟨ho', hr'⟩ := slow_settled hg hdw hs'
    rw [hdk] at ho' hr'
    exact (offered_unique (fun h => h.orderly) hg).agree hr hr' ho ho'

theorem commits_agree_keptCommit : ∃ w, Run listTree w
    ∧ ∃ x ∈ (w.replica 0).find ⟨0, 1⟩, ∃ y ∈ (w.replica 2).find ⟨0, 1⟩,
      x.Decided ∧ y.Decided ∧ x.Agrees y := by
  obtain ⟨w, hr, hc, x, hx, y, hy, hdx, hdy⟩ := @exists_run keptCommit
    (fun w => Grown (fun older t => t.Concordant listTree older) w.log
      ∧ ∃ x ∈ (w.replica 0).find ⟨0, 1⟩, ∃ y ∈ (w.replica 2).find ⟨0, 1⟩,
        x.Decided ∧ y.Decided) _ (by decide +kernel)
  exact ⟨w, hr, x, hx, y, hy, hdx, hdy, commits_agree hr hc hx hy hdx hdy⟩

/-- The replica that starts over commits in its turn. -/
def ownVoteCommits : List Move :=
  ownVote ++ [deliverAt 2 .accept ⟨0, 1⟩, deliverAt 1 .acceptReply ⟨0, 1⟩]

theorem ownVote_disagrees : ¬ ∀ w, Run listTree w → ∀ j k id, ∀ x ∈ (w.replica j).find id,
    ∀ y ∈ (w.replica k).find id, x.Decided → y.Decided → x.Agrees y := by
  intro h
  obtain ⟨w, hr, x, hx, y, hy, hdx, hdy, hne⟩ := @exists_run ownVoteCommits
    (fun w => ∃ x ∈ (w.replica 0).find ⟨0, 1⟩, ∃ y ∈ (w.replica 1).find ⟨0, 1⟩,
      x.Decided ∧ y.Decided ∧ x.seq ≠ y.seq) _ (by decide +kernel)
  exact hne (h w hr 0 1 _ x hx y hy hdx hdy).2.1

end Epx
