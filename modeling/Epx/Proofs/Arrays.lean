import Epx.Proofs.Scan
import Epx.Proofs.Schedules

/-!
# The dependency arrays of a run

Every array of a run comes from a zeroed one by `update_deps`, with the entries of other arrays and
with what `add_dep` makes of a registered instance; otherwise arrays are only copied. `ArrayLaw` is
what a property of arrays needs for that, and `arrays_of_run` the induction. A committed flag is set
by `add_dep` on an instance that is committed then, and the form of an array is kept by
`update_deps`.
-/

namespace Epx

open Log

/-- The dependency that `add_dep` makes of an instance. -/
def Instance.dependency (i : Instance) : Dependency := ⟨i.key, if isCommitted i then 1 else 0⟩

/-- `P` holds of the zeroed array and is kept by `update_deps` with dependencies that `Q` holds of:
those of other such arrays and of the instances in a replica's indexes, and any without a flag. -/
structure ArrayLaw (T : RangeTree) (P : List Record → Deps → Prop)
    (Q : List Record → Dependency → Prop) : Prop where
  zero : ∀ log, P log .zero
  update : ∀ {log deps d}, P log deps → Q log d → P log (deps.update d).1
  slots : ∀ {log deps}, P log deps → ∀ d ∈ deps.slots, Q log d
  entry : ∀ {older t}, Happens T older t → ∀ k, ∀ ti ∈ (t.pre.index k).entries,
    Q older ti.dependency
  unflagged : ∀ log id, Q log ⟨id, 0⟩
  cons : ∀ {log deps} (t : Record), P log deps → P (t :: log) deps

section Scan

variable {T : RangeTree} {P : List Record → Deps → Prop} {Q : List Record → Dependency → Prop}
  {log : List Record} {r : Replica}

theorem ArrayLaw.merge (hl : ArrayLaw T P Q) : ∀ {ds : List Dependency} {deps : Deps},
    P log deps → (∀ d ∈ ds, Q log d) → P log (deps.merge ds).1
  | [], deps, h, _ => h
  | d :: ds, deps, h, hds => by
    simp only [List.forall_mem_cons] at hds
    show P log ((deps.update d).1.merge ds).1
    exact hl.merge (hl.update h hds.1) hds.2

/-- `Q` holds of the dependencies on the instances in the indexes, that of `skip` apart. -/
def Replica.Lends (Q : Dependency → Prop) (skip : InstanceId) (r : Replica) : Prop :=
  ∀ k, ∀ ti ∈ (r.index k).entries, ti.key ≠ skip → Q ti.dependency

theorem Replica.Lends.put {D : Dependency → Prop} {skip : InstanceId} (h : r.Lends D skip)
    {i : Instance} (hi : i.key = skip) : (r.put i).Lends D skip := by
  intro k ti hti hne
  rcases Replica.mem_put hti with rfl | hti
  · exact absurd hi hne
  · exact h k ti hti hne

theorem ArrayLaw.scan (hl : ArrayLaw T P Q) {key : InstanceId} (hr : r.Lends (Q log) key)
    {cmd : Option Command} {deps : Deps} {s : ℕ × Option Command × Probe} (h : P log deps)
    (hs : sdForCommand T r cmd (some key) ⟨0, deps⟩ = some s) : P log s.2.2.deps :=
  sdForCommand_rule (P := fun p => P log p.deps)
    (fun k _ ti hti hne _ hp => hl.update hp (hr k ti hti fun he => hne (he ▸ rfl))) hs h

theorem ArrayLaw.barrier (hl : ArrayLaw T P Q)
    (hr : ∀ k, ∀ ti ∈ (r.index k).entries, Q log ti.dependency) :
    ∀ {ks : List ℕ} {deps deps' : Deps}, barrierLoop r ks deps = some deps' → P log deps →
      P log deps'
  | [], deps, deps', h, hd => by
    cases h
    exact hd
  | k :: ks, deps, deps', h, hd => by
    obtain ⟨d, hb, h⟩ := Option.bind_eq_some_iff.1 h
    refine hl.barrier hr h ?_
    unfold barrierDep at hb
    split at hb
    · rename_i x ti rest hx
      cases hb
      exact hl.update hd (hr k ti (by simp [hx]))
    · cases hb

theorem ArrayLaw.noop (hl : ArrayLaw T P Q) {id : InstanceId} (hr : r.Lends (Q log) id) :
    P log (noop r id) := by
  unfold Epx.noop noopDep
  split
  · rename_i x ti rest hx
    have hsub := List.dropWhile_suffix (l := (r.index id.replicaId).entries)
      fun x => decide (x.key.instanceId ≠ id.instanceId)
    rw [hx] at hsub
    refine hl.update (hl.zero log) (hr _ ti (hsub.subset (by simp)) fun he => ?_)
    -- the entry before the one with the id is another one
    have hxid : x.key.instanceId = id.instanceId := by
      have := List.head?_dropWhile_not
        (fun x : Instance => decide (x.key.instanceId ≠ id.instanceId))
        (r.index id.replicaId).entries
      rw [hx] at this
      simpa using this
    have ho := (r.index id.replicaId).ordered.sublist hsub.sublist
    have hlt := (List.pairwise_cons.1 ho).1 ti (by simp)
    rw [he, hxid] at hlt
    exact lt_irrefl _ hlt
  · exact hl.zero log

end Scan

/-- `P` holds of the copy's array and of that of its recovery record. -/
def Instance.Arrays (P : Deps → Prop) (i : Instance) : Prop :=
  P i.deps ∧ ∀ lt, i.lt = some lt → P lt.ri.deps

section Step

variable {T : RangeTree} {P : List Record → Deps → Prop} {Q : List Record → Dependency → Prop}
  {older : List Record} {k : ℕ} {ev : Event} {r : Replica} {i i' : Instance} {io : List Message}

/-- An event takes the arrays it writes and sends from the copy, the message, and the indexes. -/
theorem ArrayLaw.step (hl : ArrayLaw T P Q)
    (ht : Happens T older ⟨k, ev, r, i, i', io.map (envelope k)⟩)
    (hm : ∀ m, ev = .step m → P older m.deps) (hi : i.Arrays (P older)) (ha : Act T r i ev i' io) :
    i'.Arrays (P older) ∧ ∀ m ∈ io, P older m.deps := by
  have hput : (r.put i).Lends (Q older) i.key :=
    Replica.Lends.put (fun k ti hti _ => hl.entry ht k ti hti) rfl
  have scan : ∀ {j : Instance} {c s}, j.key = i.key →
      sdForCommand T ((r.put i).put j) c (some i.key) ⟨0, .zero⟩ = some s →
      P older s.2.2.deps := fun hj hs => hl.scan (hput.put hj) (hl.zero older) hs
  have tally : ∀ {m lt}, ev = .step m → i.lt = some lt →
      P older (tallyReply i lt.prepareOk m).ri.deps := by
    intro m lt hev hlt
    rcases tally_cases i lt.prepareOk m with ⟨-, b, l, he, -⟩ | ⟨-, c, l, he, -⟩ <;> rw [he]
    · exact hm m hev
    · exact hi.2 lt hlt
  -- the recovery record of the tracker left
  have recovered : ∀ {j : Instance}, j.deps = i.deps → ∀ x, some (recoverTracker r j) = some x →
      P older x.ri.deps := by
    rintro j hj x ⟨⟩
    show P older j.deps
    rw [hj]
    exact hi.1
  have kept : ∀ {lt lt' : LeaderTracker}, i.lt = some lt → lt'.ri.deps = lt.ri.deps →
      ∀ x, some lt' = some x → P older x.ri.deps := by
    rintro lt lt' hlt he x ⟨⟩
    rw [he]
    exact hi.2 lt hlt
  have tallied : ∀ {m lt} {lt' : LeaderTracker}, ev = .step m → i.lt = some lt →
      lt'.ri.deps = (tallyReply i lt.prepareOk m).ri.deps →
      ∀ x, some lt' = some x → P older x.ri.deps := by
    rintro m lt lt' hev hlt he x ⟨⟩
    rw [he]
    exact tally hev hlt
  cases ha with
  | propose hlt hj hs =>
    exact ⟨⟨scan hj hs, kept hlt rfl⟩, List.forall_mem_singleton.2 (scan hj hs)⟩
  | @checkpoint m deps hd =>
    have hown : i = r.ownInstance := ht.located.2
    have hdeps : P older deps := by
      refine hl.barrier (fun k ti hti => ?_) hd (hl.zero older)
      rcases Replica.mem_put hti with rfl | hti
      · rw [hown]
        exact hl.unflagged older _
      · exact hl.entry ht k ti hti
    exact ⟨⟨hdeps, hi.2⟩, List.forall_mem_singleton.2 hdeps⟩
  | slowTimeout => exact ⟨⟨hi.1, recovered rfl⟩, List.forall_mem_singleton.2 (hl.zero older)⟩
  | fastTimeout => exact ⟨hi, List.forall_mem_singleton.2 hi.1⟩
  | execute | ignore => exact ⟨hi, by simp⟩
  | preAcceptNack | preparePromise => exact ⟨hi, List.forall_mem_singleton.2 hi.1⟩
  | preAcceptReply _ _ _ hs =>
    exact ⟨⟨hl.scan hput hi.1 hs, hi.2⟩, List.forall_mem_singleton.2 (hl.scan hput hi.1 hs)⟩
  | @preAcceptOk m _ _ _ _ hs =>
    exact ⟨⟨hl.scan hput hi.1 hs, hi.2⟩, List.forall_mem_singleton.2 (hm m rfl)⟩
  | @okCommit m lt c _ hlt | @okAccept m lt _ hlt | @acceptedCommit m lt c _ hlt =>
    exact ⟨⟨hi.1, kept hlt rfl⟩, List.forall_mem_singleton.2 (hm m rfl)⟩
  | okCount _ hlt | nackCount _ hlt | acceptedCount _ hlt | preparedNack _ hlt | triedDefer _ hlt
  | triedCount _ hlt =>
    exact ⟨⟨hi.1, kept hlt rfl⟩, by simp⟩
  | @nackRecover m => exact ⟨⟨hi.1, recovered rfl⟩, List.forall_mem_singleton.2 (hm m rfl)⟩
  | @replyCommit m lt c _ hlt | @replyAccept m lt _ hlt =>
    exact ⟨⟨hl.merge hi.1 (hl.slots (hm m rfl)), kept hlt rfl⟩,
      List.forall_mem_singleton.2 (hm m rfl)⟩
  | @replyCount m lt _ hlt =>
    exact ⟨⟨hl.merge hi.1 (hl.slots (hm m rfl)), kept hlt rfl⟩, by simp⟩
  | @acceptNack m | @prepareNack m | @tryNack m =>
    exact ⟨hi, List.forall_mem_singleton.2 (hm m rfl)⟩
  | @acceptStore m | @tryStore m =>
    exact ⟨⟨hm m rfl, hi.2⟩, List.forall_mem_singleton.2 (hm m rfl)⟩
  | @preparedCommit m lt c _ hlt =>
    exact ⟨⟨hm m rfl, kept hlt rfl⟩, List.forall_mem_singleton.2 (hm m rfl)⟩
  | preparedCount _ hlt => exact ⟨⟨hi.1, tallied rfl hlt rfl⟩, by simp⟩
  | @preparedNoop m lt lt' _ hlt _ _ _ he =>
    subst he
    have hn : P older (Epx.noop (r.put i) m.id) := hl.noop ((ht.step_key rfl).1 ▸ hput)
    exact ⟨⟨hn, tallied rfl hlt rfl⟩, List.forall_mem_singleton.2 hn⟩
  | preparedAdopt _ hlt _ _ _ he =>
    subst he
    exact ⟨⟨tally rfl hlt, tallied rfl hlt rfl⟩, List.forall_mem_singleton.2 (tally rfl hlt)⟩
  | preparedRestart _ hlt _ _ _ he _ _ hlt'' hj hs =>
    subst he
    refine ⟨⟨scan hj hs, ?_⟩, List.forall_mem_singleton.2 (scan hj hs)⟩
    rcases hlt'' with ⟨rfl, -⟩ | ⟨rfl, -⟩ <;> exact tallied rfl hlt rfl
  | preparedTryOwn _ hlt _ _ _ he =>
    subst he
    exact ⟨⟨hi.1, tallied rfl hlt rfl⟩, List.forall_mem_singleton.2 hi.1⟩
  | preparedTry _ hlt _ _ _ he =>
    subst he
    exact ⟨⟨tally rfl hlt, tallied rfl hlt rfl⟩, List.forall_mem_singleton.2 (tally rfl hlt)⟩
  | @triedRaise m lt _ hlt | @triedPrepare m lt _ _ hlt =>
    exact ⟨⟨hi.1, kept hlt rfl⟩, List.forall_mem_singleton.2 (hm m rfl)⟩
  | triedRestart _ hlt _ _ _ _ _ hj hs =>
    exact ⟨⟨scan hj hs, kept hlt rfl⟩, List.forall_mem_singleton.2 (scan hj hs)⟩
  | triedRestartTwice _ hlt _ _ _ _ hj hj' hs hs' =>
    refine ⟨⟨scan hj' hs', kept hlt rfl⟩, ?_⟩
    simp only [List.forall_mem_cons, List.not_mem_nil, false_imp_iff, implies_true, and_true]
    exact ⟨scan hj hs, scan hj' hs'⟩
  | @triedAccept m lt _ hlt =>
    exact ⟨⟨hi.2 lt hlt, kept hlt rfl⟩, List.forall_mem_singleton.2 (hi.2 lt hlt)⟩
  | @commit m => exact ⟨⟨hm m rfl, hi.2⟩, by simp⟩

/-- The property of arrays, of every array of a run. -/
theorem arrays_of_run (hl : ArrayLaw T P Q) {w : World} (h : Run T w) :
    (∀ k id i, (w.replica k).find id = some i → i.Arrays (P w.log))
      ∧ ∀ m ∈ w.sent, P w.log m.deps := by
  have cons : ∀ {log : List Record} {i : Instance} (t : Record), i.Arrays (P log) →
      i.Arrays (P (t :: log)) := fun t hi => ⟨hl.cons t hi.1, fun lt hlt => hl.cons t (hi.2 lt hlt)⟩
  obtain ⟨hlog, hw⟩ := h.grown
  have hrun := run_rule (T := T) (C := fun _ _ => True) (I := fun log _ i => i.Arrays (P log))
    (M := fun log m => P log m.deps)
    (fun _ hi _ => cons _ hi)
    (fun hm => hl.cons _ hm)
    (fun _ _ _ _ hb => by
      rcases hb with hb | hb <;> rw [hb] <;>
        refine ⟨hl.zero _, fun lt hlt => ?_⟩ <;> cases hlt
      exact hl.zero _)
    (fun _ ht _ _ hm hi ha => by
      obtain ⟨hi', hio⟩ := hl.step ht
        (fun m hev => by
          obtain ⟨⟨p, hp, hpm⟩, -⟩ := ht.source m hev
          exact hm p hp m hpm) hi ha
      exact ⟨cons _ hi', fun m hmem => hl.cons _ (hio m hmem)⟩)
    (hlog.imp fun _ _ ht => ⟨ht, trivial⟩)
  refine ⟨fun k id i hi => hrun.1 k id i (hw.last k id i hi), fun m hm => ?_⟩
  obtain ⟨p, hp, hpm⟩ := mem_sent.1 hm
  exact hrun.2 p hp m hpm

end Step

section Flags

/-- Some replica's copy of the instance has been `COMMITTED` or `EXECUTED`. -/
def WasDecided (log : List Record) (id : InstanceId) : Prop :=
  ∃ t ∈ log, t.after.key = id ∧ t.after.Decided

/-- The dependency has no committed flag, or its instance has been committed. -/
def Dependency.Honest (log : List Record) (d : Dependency) : Prop :=
  d.committed ≠ 0 → WasDecided log d.id

/-- The flags of the array are true. -/
def Deps.Flagged (log : List Record) (deps : Deps) : Prop := ∀ d ∈ deps.entries, d.Honest log

variable {log : List Record} {deps : Deps}

theorem isCommitted_iff {i : Instance} : isCommitted i = true ↔ i.Decided := by
  unfold isCommitted Instance.Decided
  cases i.status <;> decide

theorem Deps.Flagged.update (h : deps.Flagged log) {d : Dependency} (hd : d.Honest log) :
    (deps.update d).1.Flagged log := by
  by_cases he : d.Empty
  · rwa [deps.update_empty he]
  rcases deps.update_cases he with ⟨hi, x, lo, hx, hid, hu, -⟩ | ⟨-, hu⟩
  · intro y hy hc
    rw [hu] at hy
    simp only [List.mem_append, List.mem_cons] at hy
    rcases hy with hy | rfl | hy
    · exact h y (by simp [hx, hy]) hc
    · by_cases hxc : x.committed = 0
      · have : d.committed ≠ 0 := by
          simp only [hxc] at hc
          omega
        exact hid ▸ hd this
      · exact h x (by simp [hx]) hxc
    · exact h y (by simp [hx, hy]) hc
  rcases hu with ⟨-, -, hu⟩ | ⟨-, -, hu, -⟩ | ⟨hi, x, lo, hx, -, -, hu, -⟩
  · rwa [hu]
  · intro y hy
    rw [hu] at hy
    rcases List.mem_append.1 hy with hy | hy
    · exact h y hy
    · rwa [List.mem_singleton.1 hy]
  · intro y hy
    rw [hu] at hy
    simp only [List.mem_append, List.mem_cons] at hy
    rcases hy with hy | rfl | hy
    · exact h y (by simp [hx, hy])
    · exact hd
    · exact h y (by rw [hx]; exact List.mem_append_right _ (List.mem_of_mem_dropLast hy))

/-- The empty slots have no flag. -/
theorem Deps.Flagged.slots (h : deps.Flagged log) : ∀ d ∈ deps.slots, d.Honest log := by
  intro d hd
  obtain ⟨n, hs, -⟩ := deps.exists_entries
  rw [hs] at hd
  rcases List.mem_append.1 hd with hd | hd
  · exact h d hd
  · rw [List.eq_of_mem_replicate hd]
    exact fun hc => absurd rfl hc

theorem WasDecided.cons {id : InstanceId} (h : WasDecided log id) (t : Record) :
    WasDecided (t :: log) id := by
  obtain ⟨p, hp, h⟩ := h
  exact ⟨p, List.mem_cons_of_mem t hp, h⟩

theorem flagLaw (T : RangeTree) :
    ArrayLaw T (fun log deps => deps.Flagged log) fun log d => d.Honest log where
  zero log := by simp [Deps.Flagged, Deps.entries_zero]
  update h hd := Deps.Flagged.update h hd
  slots h := Deps.Flagged.slots h
  entry {older t} ht k ti hti hc := by
    have hf : t.pre.find ⟨k, ti.key.instanceId⟩ = some ti :=
      (InstanceIndex.find_eq_some_iff _ _ _).2 ⟨hti, rfl⟩
    obtain ⟨p, hp, -, -, rfl⟩ := (ht.found _ _ hf).exists_mem
    refine ⟨p, hp, rfl, isCommitted_iff.1 ?_⟩
    by_contra hn
    simp [Instance.dependency, hn] at hc
  unflagged log id hc := absurd rfl hc
  cons t h d hd hc := (h d hd hc).cons t

end Flags

/-- In every run, whatever instance a copy, a recovery record or a message sent has a committed flag
for, some replica has had a committed copy of. -/
theorem flags_truthful {T : RangeTree} {w : World} (h : Run T w) :
    (∀ k id i, (w.replica k).find id = some i → i.deps.Flagged w.log
        ∧ ∀ lt, i.lt = some lt → lt.ri.deps.Flagged w.log)
      ∧ ∀ m ∈ w.sent, m.deps.Flagged w.log := arrays_of_run (flagLaw T) h

/-- A second write depends on the first, which has been committed. -/
theorem flags_truthful_second : ∃ w m, Run listTree w ∧ m ∈ w.sent
    ∧ (∃ d ∈ m.deps.entries, d.id = ⟨0, 1⟩ ∧ d.committed = 1) ∧ WasDecided w.log ⟨0, 1⟩ := by
  obtain ⟨w, hr, m, hm, d, hd, hid, hc⟩ := @exists_run
    (fastCommit ++ [proposeAt 0 [49, 48] [50, 48]])
    (fun w => ∃ m ∈ w.sent, ∃ d ∈ m.deps.entries, d.id = ⟨0, 1⟩ ∧ d.committed = 1) _
    (by decide +kernel)
  refine ⟨w, m, hr, hm, ⟨d, hd, hid, hc⟩, ?_⟩
  exact hid ▸ (flags_truthful hr).2 m hm d hd (by omega)

section Form

/-- What `update_deps` makes of a zeroed array. -/
inductive Built : List Dependency → Prop
  | zeroed : Built (zeros maxDeps)
  | update {xs} (h : Built xs) (d : Dependency) : Built (updateSlots xs d).1

/-- Larger instance ids first, nothing behind an empty slot, and no id twice. -/
structure WellFormed (xs : List Dependency) : Prop where
  size : xs.length = maxDeps
  sorted : xs.Pairwise fun a b => b.id.instanceId ≤ a.id.instanceId
  dense : xs.Pairwise fun a b => a.Empty → b.Empty
  nodup : ((xs.filter fun d => ¬ d.Empty).map Dependency.id).Nodup

theorem Built.packed {xs : List Dependency} (h : Built xs) : xs.length = maxDeps ∧ Packed xs := by
  induction h with
  | zeroed => exact ⟨length_zeros _, packed_zeros _⟩
  | update _ d ih => exact ⟨(length_updateSlots _ d).trans ih.1, packed_updateSlots ih.2 d⟩

theorem Built.wellFormed {xs : List Dependency} (h : Built xs) : WellFormed xs := by
  obtain ⟨hs, ds, n, rfl, hd⟩ := h.packed
  have hz : ∀ d ∈ zeros n, d.id.instanceId = 0 := fun d hd => empty_of_mem_zeros hd
  refine ⟨hs, ?_, ?_, by rw [Deps.entries_append hd.full]; exact hd.nodup⟩
  · refine List.pairwise_append.2 ⟨hd.sorted, ?_, fun a _ b hb => ?_⟩
    · exact List.pairwise_of_forall_mem_list fun a _ b hb => by rw [hz b hb]; exact Nat.zero_le _
    · rw [hz b hb]
      exact Nat.zero_le _
  · refine List.pairwise_append.2 ⟨?_, ?_, fun a _ b hb _ => hz b hb⟩
    · exact List.pairwise_of_forall_mem_list fun a ha _ _ he => absurd he (hd.full a ha)
    · exact List.pairwise_of_forall_mem_list fun _ _ b hb _ => hz b hb

theorem builtLaw (T : RangeTree) :
    ArrayLaw T (fun _ deps => Built deps.slots) fun _ _ => True where
  zero _ := .zeroed
  update h _ := .update h _
  slots _ _ _ := trivial
  entry _ _ _ _ := trivial
  unflagged _ _ := trivial
  cons _ h := h

end Form

/-- In every run, the arrays of the copies, of their recovery records and of the messages sent are
well formed. -/
theorem arrays_wellFormed {T : RangeTree} {w : World} (h : Run T w) :
    (∀ k id i, (w.replica k).find id = some i → WellFormed i.deps.slots
        ∧ ∀ lt, i.lt = some lt → WellFormed lt.ri.deps.slots)
      ∧ ∀ m ∈ w.sent, WellFormed m.deps.slots := by
  obtain ⟨hi, hm⟩ := arrays_of_run (builtLaw T) h
  exact ⟨fun k id i hf => ⟨(hi k id i hf).1.wellFormed, fun lt hlt =>
    ((hi k id i hf).2 lt hlt).wellFormed⟩, fun m hmem => (hm m hmem).wellFormed⟩

/-- The last of three writes depends on the other two. -/
theorem arrays_wellFormed_three : ∃ w m, Run listTree w ∧ m ∈ w.sent
    ∧ m.deps.entries.length = 2 ∧ WellFormed m.deps.slots := by
  obtain ⟨w, hr, m, hm, hd⟩ := @exists_run
    [proposeAt 0 [49, 48] [50, 48], deliverAt 1 .preAccept ⟨0, 1⟩, proposeAt 1 [49, 48] [49, 57],
      deliverAt 2 .preAccept ⟨1, 1⟩, deliverAt 2 .preAccept ⟨0, 1⟩, proposeAt 2 [49, 48] [50, 48]]
    (fun w => ∃ m ∈ w.sent, m.deps.entries.length = 2) _ (by decide +kernel)
  exact ⟨w, m, hr, hm, hd, (arrays_wellFormed hr).2 m hm⟩

/-- The array of a client's request, or of the memory a message is allocated on, is not read. -/
theorem handle_foreign (T : RangeTree) (r : Replica) (m : Message) (deps : Deps) :
    r.handle T (.propose { m with deps }) = r.handle T (.propose m)
      ∧ r.handle T (.checkpoint { m with deps }) = r.handle T (.checkpoint m)
      ∧ ∀ id, r.handle T (.timeout id { m with deps }) = r.handle T (.timeout id m) :=
  ⟨rfl, rfl, fun _ => rfl⟩

end Epx
