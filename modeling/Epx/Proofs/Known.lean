import Epx.Proofs.Accesses
import Epx.Proofs.Arrays
import Epx.Proofs.FreshIds

/-!
# What dependencies name

An array is made of the entries of other arrays about the same instance and of the keys of the other
instances registered. So a dependency names an instance that some replica has proposed before, and
never the instance that it is a dependency of.
-/

namespace Epx

open Log

/-- Every id in the array has the property. -/
def Deps.Names (S : InstanceId → Prop) (deps : Deps) : Prop := ∀ id, deps.Has id → S id

section Names

variable {T : RangeTree} {S S' : InstanceId → Prop} {deps a b : Deps} {d : Dependency} {r : Replica}

theorem Deps.Names.mono (h : deps.Names S) (hS : ∀ id, S id → S' id) : deps.Names S' :=
  fun id hid => hS id (h id hid)

theorem names_zero : Deps.zero.Names S := fun id h => absurd h (Deps.not_has_zero id)

theorem Deps.Names.update (h : deps.Names S) (hd : d.Empty ∨ S d.id) :
    (deps.update d).1.Names S := by
  intro id hid
  rcases Deps.has_update hid with hid | ⟨hne, rfl⟩
  · exact h id hid
  · exact hd.resolve_left hne

theorem Deps.Names.slot (h : deps.Names S) (hd : d ∈ deps.slots) : d.Empty ∨ S d.id := by
  by_cases he : d.Empty
  · exact .inl he
  · exact .inr (h d.id ⟨d, List.mem_filter.2 ⟨hd, by simpa using he⟩, rfl⟩)

theorem Deps.Names.merges : ∀ {ds : List Dependency} {deps : Deps}, deps.Names S →
    (∀ d ∈ ds, d.Empty ∨ S d.id) → (deps.merge ds).1.Names S
  | [], deps, h, _ => h
  | d :: ds, deps, h, hds => by
    simp only [List.forall_mem_cons] at hds
    show ((deps.update d).1.merge ds).1.Names S
    exact merges (h.update hds.1) hds.2

theorem Deps.Names.merge (ha : a.Names S) (hb : b.Names S) : (a.merge b.slots).1.Names S :=
  ha.merges fun _ hd => hb.slot hd

/-- The dependency on an instance whose id has the property, or is 0. -/
def Allowed (S : InstanceId → Prop) (d : Dependency) : Prop := d.Empty ∨ S d.id

theorem Deps.Names.scan {key : InstanceId} (hr : r.Lends (Allowed S) key) {cmd : Option Command}
    {s : ℕ × Option Command × Probe} (h : deps.Names S)
    (hs : sdForCommand T r cmd (some key) ⟨0, deps⟩ = some s) : s.2.2.deps.Names S :=
  sdForCommand_rule (P := fun p => p.deps.Names S)
    (fun k _ ti hti hne _ hp => hp.update (hr k ti hti fun he => hne (he ▸ rfl))) hs h

theorem Deps.Names.barriers {ks : List ℕ} {deps' : Deps} (h : deps.Names S)
    (hr : ∀ k x ti rest, (r.index k).entries = x :: ti :: rest → Allowed S ti.dependency)
    (hb : barrierLoop r ks deps = some deps') : deps'.Names S := by
  induction ks generalizing deps with
  | nil =>
    cases hb
    exact h
  | cons k ks ih =>
    obtain ⟨d, hd, hb⟩ := Option.bind_eq_some_iff.1 hb
    refine ih ?_ hb
    unfold barrierDep at hd
    split at hd
    · rename_i x ti rest hx
      cases hd
      exact h.update (hr k x ti rest hx)
    · cases hd

theorem names_noop {id : InstanceId} (hr : r.Lends (Allowed S) id) : (noop r id).Names S := by
  unfold Epx.noop noopDep
  split
  · rename_i x ti rest hx
    have hsub := List.dropWhile_suffix (l := (r.index id.replicaId).entries)
      fun x => decide (x.key.instanceId ≠ id.instanceId)
    rw [hx] at hsub
    refine names_zero.update (hr _ ti (hsub.subset (by simp)) fun he => ?_)
    -- the index is ordered by id, and the entry ahead has this one already
    have hxid : x.key.instanceId = id.instanceId := by
      have := List.head?_dropWhile_not
        (fun x : Instance => decide (x.key.instanceId ≠ id.instanceId))
        (r.index id.replicaId).entries
      rw [hx] at this
      simpa using this
    have hlt := (List.pairwise_cons.1 ((r.index id.replicaId).ordered.sublist hsub.sublist)).1 ti
      (by simp)
    rw [he, hxid] at hlt
    exact lt_irrefl _ hlt
  · exact names_zero

end Names

/-- `barrier` passes over the instance that the checkpoint has just registered: it has the largest id
of its index, or the counter has wrapped to 0 and its dependency is empty. -/
theorem barrier_allowed {S : InstanceId → Prop} {r : Replica} (hk : r.Keyed)
    (hmax : r.maxLocal < 2 ^ 64) (hr : r.Lends (Allowed S) r.ownInstance.key) {k : ℕ}
    {x ti : Instance} {rest : List Instance}
    (hx : ((r.put r.ownInstance).index k).entries = x :: ti :: rest) : Allowed S ti.dependency := by
  have hti : ti ∈ ((r.put r.ownInstance).index k).entries := by simp [hx]
  have keyed : ∀ y ∈ (r.index k).entries, r.find ⟨k, y.key.instanceId⟩ = some y := fun y hy =>
    ((r.index k).find_eq_some_iff _ _).2 ⟨hy, rfl⟩
  by_cases hid : ti.key = r.ownInstance.key
  · left
    have hkid : k = r.id := by
      by_contra hne
      simp only [Replica.put] at hti
      rw [Function.update_of_ne (show k ≠ r.ownInstance.key.replicaId from hne)] at hti
      have := congrArg InstanceId.replicaId (hk _ _ (keyed ti hti))
      rw [hid] at this
      exact hne this.symm
    have hlt : r.ownInstance.key.instanceId < x.key.instanceId := by
      have := ((r.put r.ownInstance).index k).ordered
      rw [hx] at this
      rw [← hid]
      exact (List.pairwise_cons.1 this).1 ti (by simp)
    have hxr : x ∈ (r.index k).entries := by
      rcases Replica.mem_put (show x ∈ ((r.put r.ownInstance).index k).entries by simp [hx]) with
        rfl | hxr
      · exact absurd hlt (lt_irrefl _)
      · exact hxr
    have hle : x.key.instanceId ≤ r.maxLocal :=
      @Replica.le_maxLocal r ⟨k, x.key.instanceId⟩ x (keyed x hxr) hkid
    have hown : r.ownInstance.key.instanceId = (r.maxLocal + 1) % 2 ^ 64 := rfl
    show ti.key.instanceId = 0
    rw [hid]
    omega
  · exact hr k ti ((Replica.mem_put hti).resolve_left fun he => hid (he ▸ rfl)) hid

section Step

variable {T : RangeTree} {S : InstanceId → Prop} {r : Replica} {i i' : Instance} {ev : Event}
  {io : List Message}

/-- An event takes the ids it puts into arrays from the copy, the message, and the other instances
registered. -/
theorem Act.names (ha : Act T r i ev i' io) (hl : Located r i ev) (hk : r.Keyed)
    (hmax : r.maxLocal < 2 ^ 64) (hr : r.Lends (Allowed S) i.key)
    (hm : ∀ m, ev = .step m → i.key = m.id ∧ m.deps.Names S)
    (hi : i.Arrays (Deps.Names S)) :
    i'.Arrays (Deps.Names S) ∧ ∀ m ∈ io, m.deps.Names S := by
  have hput : (r.put i).Lends (Allowed S) i.key := hr.put rfl
  have scan : ∀ {j : Instance} {c s}, j.key = i.key →
      sdForCommand T ((r.put i).put j) c (some i.key) ⟨0, .zero⟩ = some s →
      s.2.2.deps.Names S := fun hj hs => names_zero.scan (hput.put hj) hs
  have tally : ∀ {m lt}, ev = .step m → i.lt = some lt →
      (tallyReply i lt.prepareOk m).ri.deps.Names S := by
    intro m lt hev hlt
    rcases tally_cases i lt.prepareOk m with ⟨-, b, l, he, -⟩ | ⟨-, c, l, he, -⟩ <;> rw [he]
    · exact (hm m hev).2
    · exact hi.2 lt hlt
  have recovered : ∀ {j : Instance}, j.deps = i.deps → ∀ x, some (recoverTracker r j) = some x →
      x.ri.deps.Names S := by
    rintro j hj x ⟨⟩
    show j.deps.Names S
    rw [hj]
    exact hi.1
  -- a tracker with the record's array as it was, or as the reply leaves it
  have kept : ∀ {lt lt' : LeaderTracker}, i.lt = some lt → lt'.ri.deps = lt.ri.deps →
      ∀ x, some lt' = some x → x.ri.deps.Names S := by
    rintro lt lt' hlt he x ⟨⟩
    rw [he]
    exact hi.2 lt hlt
  have tallied : ∀ {m lt} {lt' : LeaderTracker}, ev = .step m → i.lt = some lt →
      lt'.ri.deps = (tallyReply i lt.prepareOk m).ri.deps →
      ∀ x, some lt' = some x → x.ri.deps.Names S := by
    rintro m lt lt' hev hlt he x ⟨⟩
    rw [he]
    exact tally hev hlt
  cases ha with
  | propose hlt hj hs =>
    exact ⟨⟨scan hj hs, kept hlt rfl⟩, List.forall_mem_singleton.2 (scan hj hs)⟩
  | checkpoint hd =>
    obtain ⟨-, rfl⟩ := hl
    have hdeps := names_zero.barriers (fun k x ti rest hx => barrier_allowed hk hmax hr hx) hd
    exact ⟨⟨hdeps, hi.2⟩, List.forall_mem_singleton.2 hdeps⟩
  | slowTimeout => exact ⟨⟨hi.1, recovered rfl⟩, List.forall_mem_singleton.2 names_zero⟩
  | fastTimeout => exact ⟨hi, List.forall_mem_singleton.2 hi.1⟩
  | execute | ignore => exact ⟨hi, by simp⟩
  | preAcceptNack | preparePromise => exact ⟨hi, List.forall_mem_singleton.2 hi.1⟩
  | preAcceptReply _ _ _ hs =>
    exact ⟨⟨hi.1.scan hput hs, hi.2⟩, List.forall_mem_singleton.2 (hi.1.scan hput hs)⟩
  | @preAcceptOk m _ _ _ _ hs =>
    exact ⟨⟨hi.1.scan hput hs, hi.2⟩, List.forall_mem_singleton.2 (hm m rfl).2⟩
  | @okCommit m lt c _ hlt | @okAccept m lt _ hlt | @acceptedCommit m lt c _ hlt =>
    exact ⟨⟨hi.1, kept hlt rfl⟩, List.forall_mem_singleton.2 (hm m rfl).2⟩
  | okCount _ hlt | nackCount _ hlt | acceptedCount _ hlt | preparedNack _ hlt | triedDefer _ hlt
  | triedCount _ hlt =>
    exact ⟨⟨hi.1, kept hlt rfl⟩, by simp⟩
  | @nackRecover m => exact ⟨⟨hi.1, recovered rfl⟩, List.forall_mem_singleton.2 (hm m rfl).2⟩
  | @replyCommit m lt c _ hlt | @replyAccept m lt _ hlt =>
    exact ⟨⟨hi.1.merge (hm m rfl).2, kept hlt rfl⟩, List.forall_mem_singleton.2 (hm m rfl).2⟩
  | @replyCount m lt _ hlt => exact ⟨⟨hi.1.merge (hm m rfl).2, kept hlt rfl⟩, by simp⟩
  | @acceptNack m | @prepareNack m | @tryNack m =>
    exact ⟨hi, List.forall_mem_singleton.2 (hm m rfl).2⟩
  | @acceptStore m | @tryStore m =>
    exact ⟨⟨(hm m rfl).2, hi.2⟩, List.forall_mem_singleton.2 (hm m rfl).2⟩
  | @preparedCommit m lt c _ hlt =>
    exact ⟨⟨(hm m rfl).2, kept hlt rfl⟩, List.forall_mem_singleton.2 (hm m rfl).2⟩
  | preparedCount _ hlt => exact ⟨⟨hi.1, tallied rfl hlt rfl⟩, by simp⟩
  | @preparedNoop m lt lt' _ hlt _ _ _ he =>
    subst he
    have hn : (Epx.noop (r.put i) m.id).Names S := names_noop ((hm m rfl).1 ▸ hput)
    exact ⟨⟨hn, tallied rfl hlt rfl⟩, List.forall_mem_singleton.2 hn⟩
  | preparedAdopt _ hlt _ _ _ he =>
    subst he
    exact ⟨⟨tally rfl hlt, tallied rfl hlt rfl⟩, List.forall_mem_singleton.2 (tally rfl hlt)⟩
  | preparedRestart _ hlt _ _ _ he _ _ hlt'' hj hs =>
    subst he
    refine ⟨⟨scan hj hs, ?_⟩, List.forall_mem_singleton.2 (scan hj hs)⟩
    rcases hlt'' with ⟨rfl, -⟩ | ⟨rfl, -⟩ <;> exact tallied rfl hlt rfl
  | preparedTryOwn _ hlt _ _ _ he =>
    subst he
    exact ⟨⟨hi.1, tallied rfl hlt rfl⟩, List.forall_mem_singleton.2 hi.1⟩
  | preparedTry _ hlt _ _ _ he =>
    subst he
    exact ⟨⟨tally rfl hlt, tallied rfl hlt rfl⟩, List.forall_mem_singleton.2 (tally rfl hlt)⟩
  | @triedRaise m lt _ hlt | @triedPrepare m lt _ _ hlt =>
    exact ⟨⟨hi.1, kept hlt rfl⟩, List.forall_mem_singleton.2 (hm m rfl).2⟩
  | triedRestart _ hlt _ _ _ _ _ hj hs =>
    exact ⟨⟨scan hj hs, kept hlt rfl⟩, List.forall_mem_singleton.2 (scan hj hs)⟩
  | triedRestartTwice _ hlt _ _ _ _ hj hj' hs hs' =>
    refine ⟨⟨scan hj' hs', kept hlt rfl⟩, ?_⟩
    simp only [List.forall_mem_cons, List.not_mem_nil, false_imp_iff, implies_true, and_true]
    exact ⟨scan hj hs, scan hj' hs'⟩
  | @triedAccept m lt _ hlt =>
    exact ⟨⟨hi.2 lt hlt, kept hlt rfl⟩, List.forall_mem_singleton.2 (hi.2 lt hlt)⟩
  | @commit m => exact ⟨⟨(hm m rfl).2, hi.2⟩, by simp⟩

end Step

/-- The id was given to a proposal or a checkpoint of the replica it names. -/
def Issued (log : List Record) (id : InstanceId) : Prop :=
  ∃ o ∈ log, o.event.Assigns ∧ o.after.key = id ∧ o.who = id.replicaId

/-- The id is that of another instance, which has been proposed. -/
def OtherIssued (log : List Record) (key id : InstanceId) : Prop := id ≠ key ∧ Issued log id

theorem OtherIssued.cons {log : List Record} {key id : InstanceId} (h : OtherIssued log key id)
    (t : Record) : OtherIssued (t :: log) key id := by
  obtain ⟨hne, o, ho, h⟩ := h
  exact ⟨hne, o, List.mem_cons_of_mem t ho, h⟩

section Runs

variable {T : RangeTree} {older : List Record} {t : Record}

theorem Happens.keyed (h : Happens T older t) : t.pre.Keyed := fun _ _ hf => (h.found _ _ hf).key

theorem Happens.maxLocal_lt (h : Happens T older t) (hg : Grown (Happens T) older) :
    t.pre.maxLocal < 2 ^ 64 := by
  rcases t.pre.exists_maxLocal with h₀ | ⟨i, hi⟩
  · rw [h₀]
    norm_num
  · obtain ⟨q, hq, -, hqk, -⟩ := (h.found _ i hi).exists_mem
    have := key_lt hg q hq
    rwa [hqk] at this

/-- The instances registered have been proposed. -/
theorem Happens.lends (h : Happens T older t) (hg : Grown (Happens T) older) :
    t.pre.Lends (Allowed (OtherIssued older t.before.key)) t.before.key := by
  intro k ti hti hne
  have hf : t.pre.find ⟨k, ti.key.instanceId⟩ = some ti :=
    ((t.pre.index k).find_eq_some_iff _ _).2 ⟨hti, rfl⟩
  obtain ⟨p, hp, -, hpk, -⟩ := (h.found _ _ hf).exists_mem
  obtain ⟨o, ho, hop, hok, how⟩ := exists_assigns hg hp
  rw [hpk, ← h.keyed _ _ hf] at hok how
  exact .inr ⟨hne, o, ho, hop, hok, how⟩

/-- What the arrays of a log name. -/
theorem grown_names {log : List Record} (hg : Grown (Happens T) log) :
    (∀ k id i, Last log k id i → i.Arrays (Deps.Names (OtherIssued log i.key)))
      ∧ ∀ p ∈ log, ∀ m ∈ p.sent, m.deps.Names (OtherIssued log m.id) := by
  have arrays : ∀ {log : List Record} {key : InstanceId} {i : Instance} (t : Record),
      i.Arrays (Deps.Names (OtherIssued log key)) →
      i.Arrays (Deps.Names (OtherIssued (t :: log) key)) := fun t hi =>
    ⟨hi.1.mono fun _ h => h.cons t, fun lt hlt => (hi.2 lt hlt).mono fun _ h => h.cons t⟩
  refine run_rule (T := T) (C := fun _ _ => True)
    (I := fun log _ i => i.Arrays (Deps.Names (OtherIssued log i.key)))
    (M := fun log m => m.deps.Names (OtherIssued log m.id))
    (fun _ hi _ => arrays _ hi)
    (fun hm => hm.mono fun _ h => h.cons _)
    (fun _ _ _ _ hb => by
      rcases hb with hb | hb <;> rw [hb] <;>
        refine ⟨names_zero, fun lt hlt => ?_⟩ <;> cases hlt
      exact names_zero)
    (fun {older k ev r i i' io} hg ht _ _ hm hi ha => by
      have hg : Grown (Happens T) older := hg.imp fun _ _ h => h.1
      obtain ⟨hi', hio⟩ := ha.names ht.located ht.keyed (ht.maxLocal_lt hg) (ht.lends hg)
        (fun m hev => by
          obtain ⟨⟨p, hp, hpm⟩, -⟩ := ht.source m hev
          have hid : i.key = m.id := (ht.step_key hev).1
          exact ⟨hid, hid ▸ hm p hp m hpm⟩) hi
      refine ⟨ha.key ▸ arrays _ hi', fun m hmem => ?_⟩
      have hid : (envelope k m).id = i.key := ht.sent_id (List.mem_map_of_mem hmem)
      rw [hid]
      exact (hio m hmem).mono fun _ h => h.cons _)
    (hg.imp fun _ _ ht => ⟨ht, trivial⟩)

/-- In every run, each dependency of a copy, of a recovery record and of a message is on another
instance, which the replica its id names has proposed. -/
theorem dependencies_issued {w : World} (h : Run T w) :
    (∀ k id i, (w.replica k).find id = some i →
      i.Arrays fun deps => ∀ d, deps.Has d → d ≠ id ∧ Issued w.log d)
      ∧ ∀ m ∈ w.sent, ∀ d, m.deps.Has d → d ≠ m.id ∧ Issued w.log d := by
  obtain ⟨hlog, hw⟩ := h.grown
  obtain ⟨hcopy, hsent⟩ := grown_names hlog
  refine ⟨fun k id i hi => ?_, fun m hm => ?_⟩
  · have hl := hw.last k id i hi
    exact hl.key ▸ hcopy k id i hl
  · obtain ⟨p, hp, hpm⟩ := mem_sent.1 hm
    exact hsent p hp m hpm

end Runs

/-- The message about a second write depends on the first. -/
theorem dependencies_issued_second : ∃ w m, Run listTree w ∧ m ∈ w.sent ∧ m.deps.Has ⟨0, 1⟩
    ∧ ⟨0, 1⟩ ≠ m.id ∧ Issued w.log ⟨0, 1⟩ := by
  obtain ⟨w, hr, m, hm, hd⟩ := @exists_run
    [proposeAt 0 [49, 48] [50, 48], proposeAt 0 [49, 48] [50, 48]]
    (fun w => ∃ m ∈ w.sent, m.deps.Has ⟨0, 1⟩) _ (by decide +kernel)
  obtain ⟨hne, hi⟩ := (dependencies_issued hr).2 m hm _ hd
  exact ⟨w, m, hr, hm, hd, hne, hi⟩

end Epx
