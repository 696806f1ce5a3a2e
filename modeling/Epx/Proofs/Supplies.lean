import Epx.Proofs.Absences
import Epx.Proofs.Accesses

/-!
# Commands and trackers that are missing

`step` makes an instance for an id it does not know, and only `PRE_ACCEPT` and a `TRY_PRE_ACCEPT`
without a conflict give it a command; `checkpoint` makes one that is never given any. A scan that
meets such an instance reads through the absent command. In runs without them every instance and
every message has a command, and who has sent a request has a tracker.
-/

namespace Epx

open Log

/-- A status that the handlers give an instance. -/
def State.Stored (s : State) : Prop := s ≠ .none ∧ s ≠ .preparing ∧ s ≠ .tryPreAccepting

structure Instance.Supplied (i : Instance) : Prop where
  command : i.command ≠ none
  status : i.status.Stored
  timer : i.timer = some .fastPath → i.lt ≠ none
  tracker : ∀ lt, i.lt = some lt → lt.Supplied

structure Message.Supplied (m : Message) : Prop where
  command : m.command ≠ none
  status : m.type = .prepareReply → m.nack = 0 → m.instanceStatus.Stored

structure Effect.Supplied (e : Effect) : Prop where
  inst : e.inst.Supplied
  cleared : e.cleared = false
  sent : ∀ m ∈ e.io, m.Supplied ∧ (m.type.Broadcast → e.inst.lt ≠ none)

/-- What makes an instance with a command, where there is none yet: a client's request that has one,
`PRE_ACCEPT`, or a `TRY_PRE_ACCEPT` that meets no conflict. -/
def Provided (T : RangeTree) (r : Replica) (i : Instance) : Event → Prop
  | .propose m => m.command ≠ none
  | .checkpoint _ => False
  | .step m => r.find m.id = none → m.type = .preAccept ∨ (m.type = .tryPreAccept
      ∧ (findConflict T (r.put i) i m.command m.seq m.deps).all fun q => q.1.isNone)
  | _ => True

instance (T : RangeTree) (r : Replica) (i : Instance) (ev : Event) :
    Decidable (Provided T r i ev) := by
  unfold Provided
  exact match ev with
  | .propose _ | .checkpoint _ | .timeout _ _ | .step _ | .execute _ => inferInstance

/-- A client's request has a command. -/
def Event.HasCommand : Event → Prop
  | .propose m => m.command ≠ none
  | _ => True

instance (ev : Event) : Decidable ev.HasCommand := by
  unfold Event.HasCommand
  exact match ev with
  | .propose _ | .checkpoint _ | .timeout _ _ | .step _ | .execute _ => inferInstance

section Supply

variable {T : RangeTree} {r : Replica} {i : Instance} {m m' : Message} {lt : LeaderTracker}
  {e : Effect}

theorem supplied_quiet (hi : i.Supplied) : (quiet r i).Supplied :=
  ⟨hi, rfl, fun _ h => absurd h List.not_mem_nil⟩

theorem supplied_sending (hi : i.Supplied) (hm : m.Supplied) (hb : m.type.Broadcast → i.lt ≠ none) :
    (sending r i m).Supplied := by
  refine ⟨hi, rfl, fun x hx => ?_⟩
  obtain rfl := List.mem_singleton.1 hx
  exact ⟨hm, hb⟩

theorem supplied_answer (hi : i.Supplied) (hm : m.Supplied) (hb : ¬ m.type.Broadcast) :
    (sending r i m).Supplied := supplied_sending hi hm fun h => absurd h hb

theorem Instance.Supplied.tracked (hi : i.Supplied) (h : lt.Supplied) :
    Instance.Supplied { i with lt := some lt } :=
  ⟨hi.command, hi.status, fun _ => nofun, fun _ hl => Option.some.inj hl ▸ h⟩

theorem Instance.Supplied.tallied (hi : i.Supplied) (h : (tallyReply i lt m).Supplied) :
    (tallyInst i lt m).Supplied :=
  ⟨hi.command, hi.status, fun _ => nofun, fun _ hl => Option.some.inj hl ▸ h⟩

theorem Instance.Supplied.scanned (hi : i.Supplied) {c : Option Command} (hc : c ≠ none) :
    (i.scanned c).Supplied :=
  ⟨scanned_command (P := (· ≠ none)) hi.command hc, hi.status, hi.timer, hi.tracker⟩

theorem Instance.Supplied.stored (hi : i.Supplied) {s : State} (hs : s.Stored) :
    Instance.Supplied { i with status := s } := ⟨hi.command, hs, hi.timer, hi.tracker⟩

/-- The record counts for a recovery under way. -/
theorem LeaderTracker.Supplied.of_command (h : lt.ri.command ≠ none) : lt.Supplied := fun _ => h

theorem phase1_supplied {q : Instance × Message} (h : phase1 T r i m = some q)
    (hlt : ∀ lt, i.lt = some lt → lt.Supplied) (hm : m.command ≠ none) :
    q.1.Supplied ∧ q.1.lt ≠ none ∧ q.2.Supplied := by
  obtain ⟨j, lt, s, -, hl, hs, rfl⟩ := phase1_eq h
  have hc := sdLoop_isSome hm hs
  refine ⟨⟨hc, ⟨nofun, nofun, nofun⟩, fun _ => nofun, fun lt' hlt' => ?_⟩, nofun, hc, nofun⟩
  cases hlt'
  exact hlt lt hl

theorem restart_supplied (h : restart T r i m = some e) (hlt : ∀ lt, i.lt = some lt → lt.Supplied)
    (hm : m.command ≠ none) : e.Supplied := by
  obtain ⟨q, hq, rfl⟩ := Option.map_eq_some_iff.1 h
  obtain ⟨h₁, h₂, h₃⟩ := phase1_supplied hq hlt hm
  exact supplied_sending h₁ h₃ fun _ => h₂

theorem doCommit_supplied (h : doCommit r i m = some e) (hi : i.Supplied) (hlt : i.lt ≠ none)
    (hm : m.command ≠ none) : e.Supplied := by
  obtain ⟨c, -, rfl⟩ := doCommit_eq h
  refine ⟨⟨hi.command, ⟨nofun, nofun, nofun⟩, nofun, hi.tracker⟩, rfl, fun x hx => ?_⟩
  obtain rfl := List.mem_singleton.1 hx
  exact ⟨⟨hm, nofun⟩, fun _ => hlt⟩

theorem recover_supplied (hi : i.Supplied) : (recover r i m).Supplied := by
  rw [recover_eq]
  refine supplied_sending ⟨hi.command, hi.status, nofun, fun lt hlt => ?_⟩ ⟨hi.command, nofun⟩
    fun _ => nofun
  cases hlt
  exact .of_command hi.command

theorem nackReply_supplied (hi : i.Supplied) (hlt : i.lt = some lt) :
    (nackReply r i lt m).Supplied := by
  have hn : LeaderTracker.Supplied (lt.nack m) := hi.tracker lt hlt
  rcases nackReply_cases (r := r) (i := i) (m := m) lt with ⟨-, h⟩ | ⟨-, h⟩ <;> rw [h]
  · exact recover_supplied (hi.tracked hn)
  · exact supplied_quiet (hi.tracked hn)

/-- On a new instance, `PRE_ACCEPT` is not refused. -/
theorem preAccept_supplied (h : preAccept T r i m = some e)
    (hi : i.Supplied ∨ i = { newInstance i.key with timer := some .slowPath })
    (hm : m.command ≠ none) : e.Supplied := by
  have htr : ∀ lt, i.lt = some lt → lt.Supplied := by
    rcases hi with hi | hi
    · exact hi.tracker
    · rw [hi]
      exact nofun
  have htm : i.timer = some .fastPath → i.lt ≠ none := by
    rcases hi with hi | hi
    · exact hi.timer
    · rw [hi]
      exact nofun
  have inst : ∀ {s}, sdForCommand T r m.command (some i.key) ⟨0, i.deps⟩ = some s →
      (preAcceptInst i m s).Supplied := by
    intro s hs
    refine ⟨sdLoop_isSome hm hs, ?_, htm, htr⟩
    unfold preAcceptInst
    dsimp only
    split_ifs <;> exact ⟨nofun, nofun, nofun⟩
  have hcl : ∀ {s}, sdForCommand T r m.command (some i.key) ⟨0, i.deps⟩ = some s →
      s.2.1.isNone = false := fun hs =>
    Option.isNone_eq_false_iff.2 (Option.isSome_iff_ne_none.2 (sdLoop_isSome hm hs))
  rcases preAccept_cases h with ⟨hst, rfl⟩ | ⟨hst, hb, rfl⟩ | ⟨hst, hb, s, hs, rfl | ⟨-, -, -, -, rfl⟩⟩
  · refine supplied_quiet (hi.resolve_right fun hi => hst ?_)
    rw [hi]
    exact .inr rfl
  · have hi := hi.resolve_right fun hi => by
      rw [hi] at hb
      exact Nat.not_lt_zero _ hb
    exact supplied_answer hi ⟨hi.command, nofun⟩ (by decide : ¬ MessageType.Broadcast .preAcceptReply)
  · rw [hcl hs]
    exact supplied_answer (inst hs) ⟨sdLoop_isSome hm hs, nofun⟩
      (by decide : ¬ MessageType.Broadcast .preAcceptReply)
  · rw [hcl hs]
    exact supplied_answer (inst hs) ⟨sdLoop_isSome hm hs, nofun⟩
      (by decide : ¬ MessageType.Broadcast .preAcceptOk)

theorem preAcceptOk_supplied (h : preAcceptOk r i m = some e) (hi : i.Supplied)
    (hm : m.command ≠ none) : e.Supplied := by
  rcases preAcceptOk_cases h with rfl | ⟨lt, hlt, -, -, ⟨-, -, -, hc⟩ | ⟨-, rfl⟩ | ⟨-, rfl⟩⟩
  · exact supplied_quiet hi
  all_goals have ht : Instance.Supplied { i with lt := some lt.preAcceptOk } :=
    hi.tracked (hi.tracker lt hlt : LeaderTracker.Supplied _)
  · exact doCommit_supplied hc ht nofun hm
  · exact supplied_sending (ht.stored ⟨nofun, nofun, nofun⟩) ⟨hm, nofun⟩ fun _ => nofun
  · exact supplied_quiet ht

theorem preAcceptReply_supplied (h : preAcceptReply r i m = some e) (hi : i.Supplied)
    (hm : m.command ≠ none) : e.Supplied := by
  rcases preAcceptReply_cases h with
    rfl | ⟨lt, hlt, -, -, ⟨-, rfl⟩ | ⟨-, ⟨-, -, -, -, hc⟩ | ⟨-, rfl⟩ | ⟨-, rfl⟩⟩⟩
  · exact supplied_quiet hi
  · exact nackReply_supplied hi hlt
  all_goals
    have ht : (mergeReply i m lt).Supplied := ⟨hi.command, hi.status, fun _ => nofun, by
      rintro _ ⟨⟩
      exact hi.tracker lt hlt⟩
  · exact doCommit_supplied hc ht nofun hm
  · exact supplied_sending (ht.stored ⟨nofun, nofun, nofun⟩) ⟨hm, nofun⟩ fun _ => nofun
  · exact supplied_quiet ht

theorem accept_supplied (hi : i.Supplied) (hm : m.command ≠ none) : (accept r i m).Supplied := by
  rcases accept_cases r i m with ⟨-, h⟩ | ⟨-, -, h⟩ | ⟨-, -, h⟩ <;> rw [h]
  · exact supplied_quiet hi
  · exact supplied_answer hi ⟨hm, nofun⟩ (by decide : ¬ MessageType.Broadcast .acceptReply)
  · rw [Option.isNone_eq_false_iff.2 (Option.isSome_iff_ne_none.2 hm)]
    exact supplied_answer ⟨hi.command, ⟨nofun, nofun, nofun⟩, hi.timer, hi.tracker⟩ ⟨hm, nofun⟩
      (by decide : ¬ MessageType.Broadcast .acceptReply)

theorem acceptReply_supplied (h : acceptReply r i m = some e) (hi : i.Supplied)
    (hm : m.command ≠ none) : e.Supplied := by
  rcases acceptReply_cases h with rfl | ⟨lt, hlt, -, -, ⟨-, rfl⟩ | ⟨-, -, hc⟩ | ⟨-, rfl⟩⟩
  · exact supplied_quiet hi
  · exact nackReply_supplied hi hlt
  all_goals have ht : Instance.Supplied { i with lt := some lt.acceptOk } :=
    hi.tracked (hi.tracker lt hlt : LeaderTracker.Supplied _)
  · exact doCommit_supplied hc ht nofun hm
  · exact supplied_quiet ht

theorem prepare_supplied (hi : i.Supplied) (hm : m.command ≠ none) : (prepare r i m).Supplied := by
  rcases prepare_cases r i m with ⟨-, h⟩ | ⟨-, h⟩ <;> rw [h]
  · exact supplied_answer hi ⟨hm, nofun⟩ (by decide : ¬ MessageType.Broadcast .prepareReply)
  · exact supplied_answer ⟨hi.command, hi.status, hi.timer, hi.tracker⟩
      ⟨hi.command, fun _ _ => hi.status⟩ (by decide : ¬ MessageType.Broadcast .prepareReply)

/-- After a reply that is not final there is a record to go on with. -/
theorem tally_status (hm : m.instanceStatus.Stored) (hf : ¬ m.Final) :
    (tallyReply i lt m).ri.status ≠ .none := by
  rcases tally_cases i lt m with ⟨-, b, l, he, -⟩ | ⟨hk, c, l, he, -⟩ <;> rw [he]
  · exact hm.1
  · intro hs
    refine hk ?_
    have hs : lt.ri.status = .none := hs
    unfold Message.Final at hf
    unfold Message.Taken
    obtain ⟨h₁, h₂, h₃⟩ := hm
    rw [hs]
    cases hi : m.instanceStatus <;> simp_all [State.bits]

theorem decidePrepared_supplied (h : decidePrepared T r i lt m = some e) (hi : i.Supplied)
    (hm : m.command ≠ none) (hc : lt.ri.command ≠ none) (hs : lt.ri.status ≠ .none) :
    e.Supplied := by
  have some_eq : ∀ {lt' : LeaderTracker}, lt'.ri.command ≠ none →
      ∀ lt, some lt' = some lt → lt.Supplied := fun h _ hl => Option.some.inj hl ▸ .of_command h
  rcases decidePrepared_cases h with
    ⟨hn, -⟩ | ⟨-, rfl⟩ | ⟨-, -, -, -, conflict, c, hp, h⟩ | ⟨-, -, -, h⟩
  · exact absurd hn hs
  · exact supplied_sending ⟨hc, ⟨nofun, nofun, nofun⟩, fun _ => nofun, some_eq hc⟩ ⟨hm, nofun⟩
      fun _ => nofun
  · have hcmd : c ≠ none := pacLoop_isSome hc hp
    rcases h with ⟨-, -, -, h⟩ | ⟨-, -, -, rfl⟩ | ⟨-, rfl⟩
    · exact restart_supplied h (some_eq hcmd) hcmd
    · exact supplied_sending ((hi.scanned hcmd).tracked (.of_command hcmd))
        ⟨(hi.scanned hcmd).command, nofun⟩ fun _ => nofun
    · exact supplied_sending ⟨hcmd, ⟨nofun, nofun, nofun⟩, fun _ => nofun, some_eq hcmd⟩
        ⟨hcmd, nofun⟩ fun _ => nofun
  · exact restart_supplied h (some_eq hc) hc

theorem prepareReply_supplied (h : prepareReply T r i m = some e) (hi : i.Supplied)
    (hm : m.Supplied) (ht : m.type = .prepareReply) : e.Supplied := by
  rcases prepareReply_cases h with
    rfl | ⟨lt, hlt, hr, ⟨-, rfl⟩ | ⟨-, hf, hc⟩ | ⟨-, -, -, rfl⟩ | ⟨hn, hf, hd⟩⟩
  · exact supplied_quiet hi
  · exact supplied_quiet (hi.tracked fun hr => hi.tracker lt hlt hr)
  · refine doCommit_supplied hc ⟨hm.command, hi.status, fun _ => nofun, fun _ hl => ?_⟩ nofun
      hm.command
    cases hl
    exact fun hr => hi.tracker lt hlt hr
  all_goals
    have hri : (tallyReply i lt.prepareOk m).ri.command ≠ none :=
      tally_command (hi.tracker lt hlt) hr hm.command
  · exact supplied_quiet (hi.tallied (.of_command hri))
  · exact decidePrepared_supplied hd (hi.tallied (.of_command hri)) hm.command hri
      (tally_status (hm.status ht hn) hf)

/-- A new instance is given a command by a `TRY_PRE_ACCEPT` that meets no conflict. -/
theorem tryPreAccept_supplied (h : tryPreAccept T r i m = some e)
    (hi : i.Supplied ∨ (i = { newInstance i.key with timer := some .slowPath }
      ∧ (findConflict T r i m.command m.seq m.deps).all fun q => q.1.isNone))
    (hm : m.command ≠ none) : e.Supplied := by
  have htr : ∀ lt, i.lt = some lt → lt.Supplied := by
    rcases hi with hi | ⟨hi, -⟩
    · exact hi.tracker
    · rw [hi]
      exact nofun
  have htm : i.timer = some .fastPath → i.lt ≠ none := by
    rcases hi with hi | ⟨hi, -⟩
    · exact hi.timer
    · rw [hi]
      exact nofun
  rcases tryPreAccept_cases h with ⟨hb, rfl⟩ | ⟨-, conflict, c, hf, ⟨f, rfl, rfl⟩ | ⟨rfl, rfl⟩⟩
  · have hi := hi.resolve_right fun ⟨hi, _⟩ => by
      rw [hi] at hb
      exact Nat.not_lt_zero _ hb
    exact supplied_answer hi ⟨hm, nofun⟩ (by decide : ¬ MessageType.Broadcast .tryPreAcceptReply)
  all_goals have hc := findConflict_isSome hm hf
  · have hi := hi.resolve_right fun ⟨_, hi⟩ => by
      rw [hf] at hi
      cases hi
    exact supplied_answer hi ⟨hc, nofun⟩ (by decide : ¬ MessageType.Broadcast .tryPreAcceptReply)
  · exact supplied_answer ⟨hc, ⟨nofun, nofun, nofun⟩, htm, htr⟩ ⟨hc, nofun⟩
      (by decide : ¬ MessageType.Broadcast .tryPreAcceptReply)

theorem deferConflict_supplied {nq : ℕ} {ri : RecoveryInstance} {io : List Message}
    (h : deferConflict T r i lt nq ri m io = some e) (hi : i.Supplied) (hlt : i.lt ≠ none)
    (hio : ∀ x ∈ io, x.Supplied) (hri : ri.command ≠ none) : e.Supplied := by
  have hcl : e.cleared = false := by
    unfold deferConflict at h
    obtain ⟨q, -, rfl⟩ := Option.map_eq_some_iff.1 h
    dsimp only
    split_ifs <;> rfl
  have timed : ∀ {i' : Instance} {tm}, i'.Supplied → i'.lt ≠ none →
      Instance.Supplied { i' with timer := tm } := fun hi' hlt' =>
    ⟨hi'.command, hi'.status, fun _ => hlt', hi'.tracker⟩
  obtain ⟨i', io', tm, hinst, rfl, -, ⟨rfl, hio'⟩ | ⟨q, hp, rfl, hio'⟩⟩ := deferConflict_cases h
  · refine ⟨hinst ▸ timed hi hlt, hcl, fun x hx => ⟨hio x (hio' ▸ hx), fun _ => ?_⟩⟩
    rw [hinst]
    exact hlt
  · have idle : ∀ lt', i.lt.map (fun lt => { lt with recoveryStatus := .none }) = some lt' →
        lt'.Supplied := by
      intro lt' hl
      obtain ⟨lt, -, rfl⟩ := Option.map_eq_some_iff.1 hl
      rintro (h | h) <;> cases h
    obtain ⟨hq, hql, hqm⟩ := phase1_supplied hp idle hri
    refine ⟨hinst ▸ timed hq hql, hcl, fun x hx => ⟨?_, fun _ => ?_⟩⟩
    · rw [hio'] at hx
      rcases List.mem_append.1 hx with hx | hx
      · exact hio x hx
      · exact List.mem_singleton.1 hx ▸ hqm
    · rw [hinst]
      exact hql

theorem tryPreAcceptReply_supplied (h : tryPreAcceptReply T r i m = some e) (hi : i.Supplied)
    (hm : m.command ≠ none) : e.Supplied := by
  rcases tryPreAcceptReply_cases h with rfl | ⟨lt, hlt, hr, -, ⟨-, hc⟩ | ⟨-, rfl⟩ | ⟨-, rfl⟩⟩
  · exact supplied_quiet hi
  all_goals have hri : lt.ri.command ≠ none := hi.tracker lt hlt (.inr hr)
  · have kept : ∀ {lt' : LeaderTracker}, lt'.ri = lt.ri →
        Instance.Supplied { i with lt := some lt' } := fun h =>
      hi.tracked (.of_command (by rw [h]; exact hri))
    rcases tryNack_cases hc with ⟨-, rfl⟩ | ⟨-, ⟨q, rfl⟩ | ⟨nq, hd⟩ | ⟨-, q, nq, hp, hd⟩⟩
    · have hk : Instance.Supplied { i with lt := some { lt with nacks := u8 (lt.nacks + 1) } } :=
        kept rfl
      exact supplied_sending ⟨hk.command, hk.status, hk.timer, hk.tracker⟩ ⟨hm, nofun⟩
        fun _ => nofun
    · exact supplied_sending (kept rfl) ⟨hm, nofun⟩ fun _ => nofun
    · exact deferConflict_supplied hd (kept rfl) nofun (fun _ h => absurd h List.not_mem_nil) hri
    · obtain ⟨hq, hql, hqm⟩ := phase1_supplied hp
        (fun _ hl => Option.some.inj hl ▸ .of_command hri) hm
      exact deferConflict_supplied hd hq hql (fun x hx => List.mem_singleton.1 hx ▸ hqm) hri
  · exact supplied_sending ⟨hri, ⟨nofun, nofun, nofun⟩, fun _ => nofun,
      fun _ hl => Option.some.inj hl ▸ .of_command hri⟩ ⟨hri, nofun⟩ fun _ => nofun
  · exact supplied_quiet (hi.tracked (.of_command hri))

theorem commit_supplied (hi : i.Supplied) : (commit r i m).Supplied :=
  ⟨⟨hi.command, ⟨nofun, nofun, nofun⟩, nofun, hi.tracker⟩, rfl, fun _ h => absurd h List.not_mem_nil⟩

/-- A handler leaves an instance with a command, and sends messages with one. -/
theorem progress_supplied (h : progress T (r.put i) i m = some e)
    (hi : i.Supplied ∨ i = { newInstance i.key with timer := some .slowPath })
    (hp : ¬ i.Supplied → m.type = .preAccept ∨ (m.type = .tryPreAccept
      ∧ (findConflict T (r.put i) i m.command m.seq m.deps).all fun q => q.1.isNone))
    (hm : m.Supplied) (ht : m.type ≠ .phase1) : e.Supplied := by
  by_cases hs : i.Supplied
  · unfold progress at h
    split at h <;> rename_i hmt
    · exact absurd hmt ht
    · exact preAccept_supplied h (.inl hs) hm.command
    · exact preAcceptReply_supplied h hs hm.command
    · cases h
      exact accept_supplied hs hm.command
    · cases h
      exact commit_supplied hs
    · exact acceptReply_supplied h hs hm.command
    · exact preAcceptOk_supplied h hs hm.command
    · cases h
      exact prepare_supplied hs hm.command
    · exact prepareReply_supplied h hs hm hmt
    · exact tryPreAccept_supplied h (.inl hs) hm.command
    · exact tryPreAcceptReply_supplied h hs hm.command
    · cases h
      exact supplied_quiet hs
  · rcases hp hs with hmt | ⟨hmt, hf⟩ <;> rw [progress, hmt] at h
    · exact preAccept_supplied h hi hm.command
    · exact tryPreAccept_supplied h (hi.imp_right fun hi => ⟨hi, hf⟩) hm.command

/-- A tracker is not given up. -/
theorem Act.tracker {i' : Instance} {ev : Event} {io : List Message} (h : Act T r i ev i' io)
    (hi : i.lt ≠ none) : i'.lt ≠ none := by
  cases h
  all_goals first | exact hi | exact nofun

/-- What is not broadcast answers a request. -/
theorem Act.answers_request {i' : Instance} {ev : Event} {io : List Message}
    (h : Act T r i ev i' io) : ∀ x ∈ io, x.type.Broadcast
      ∨ ∃ m, ev = .step m ∧ m.type.Broadcast ∧ x.sender = m.sender := by
  cases ev with
  | step m =>
    refine fun x hx => (h.answers x hx).imp_right fun ⟨ha, hs⟩ => ⟨m, rfl, ?_, hs⟩
    unfold AnswersSender at ha
    cases ht : m.type <;> rw [ht] at ha <;> first | decide | exact ha.elim
  | propose | checkpoint | timeout | execute =>
    cases h <;> simp [MessageType.Broadcast, phase1Msg, recoverMsg]

/-- Without `clear`, the effect adds its instance and drops none. -/
theorem find_apply_of_kept {id : InstanceId} (h : e.cleared = false) :
    (r.apply e).find id = if id = e.inst.key then some e.inst else r.find id := by
  unfold Replica.apply
  simp only [h, Bool.false_eq_true, if_false]
  exact r.find_put e.inst id

end Supply

/-- The replica a message comes back to: its sender, or the one it answers. -/
def Message.home (m : Message) : ℕ := if m.type.Broadcast then m.sender else m.dest

theorem home_envelope (k : ℕ) (m : Message) :
    (envelope k m).home = if m.type.Broadcast then k else m.sender := rfl

/-- Every instance and every message has its command, and who a message comes back to has a
tracker. -/
structure World.Supplied (w : World) : Prop where
  copy : ∀ k id i, (w.replica k).find id = some i → i.Supplied
  sent : ∀ m ∈ w.sent, m.Supplied
  tracked : ∀ m ∈ w.sent, ∃ i, (w.replica m.home).find m.id = some i ∧ i.lt ≠ none

section World

variable {T : RangeTree} {w w' : World} {k : ℕ} {ev : Event}

theorem World.Supplied.init : World.init.Supplied where
  copy k id i h := by
    simp [World.init, newReplica, Replica.find, InstanceIndex.find, InstanceIndex.empty] at h
  sent m h := by simp [World.init, World.sent] at h
  tracked m h := by simp [World.init, World.sent] at h

/-- Who a message can be delivered to. -/
theorem Message.Reaches.home {m : Message} (h : m.Reaches k) (hb : ¬ m.type.Broadcast) :
    m.home = k := by
  unfold Message.Reaches at h
  unfold Message.home
  rw [if_neg hb] at h ⊢
  exact h.symm

/-- The effect of an event in a supplied world. -/
theorem World.Supplied.effect (hw : w.Supplied) (hr : Run T w) (hen : w.Enabled k ev)
    {i : Instance} {e : Effect} (h : (w.replica k).handle T ev = .handled i e)
    (hp : Provided T (w.replica k) i ev) : e.Supplied := by
  cases ev with
  | propose m =>
    unfold Replica.handle at h
    dsimp only at h
    split_ifs at h with hf
    cases hc : restart T ((w.replica k).put (w.replica k).ownInstance) (w.replica k).ownInstance m
      <;> rw [hc] at h <;> cases h
    refine restart_supplied hc (fun lt hl => ?_) hp
    cases hl
    rintro (h | h) <;> cases h
  | checkpoint m => exact hp.elim
  | timeout id m =>
    obtain ⟨hf, ⟨ht, rfl⟩ | ⟨ht, rfl⟩⟩ := timeout_cases h
    all_goals have hi := hw.copy k id i hf
    · exact recover_supplied ⟨hi.command, hi.status, (by rintro ⟨⟩), hi.tracker⟩
    · exact supplied_sending ⟨hi.command, hi.status, (by rintro ⟨⟩), hi.tracker⟩
        ⟨hi.command, (by rintro ⟨⟩)⟩ fun _ => hi.timer ht
  | step m =>
    obtain ⟨⟨hl, -, -⟩, hpr⟩ := step_progress h
    have ht := type_ne_of_sent hr.grown.1 (mem_sent.1 hen.1)
    have hfound : i.Supplied ∨ ((w.replica k).find m.id = none
        ∧ i = { newInstance i.key with timer := some .slowPath }) := by
      rw [hl, Replica.copy]
      cases hf : (w.replica k).find m.id with
      | none => exact .inr ⟨rfl, rfl⟩
      | some j => exact .inl (hw.copy k m.id j hf)
    refine progress_supplied hpr (hfound.imp_right And.right) (fun hn => ?_) (hw.sent m hen.1) ht
    exact hp (hfound.resolve_left hn).1
  | execute id =>
    unfold Replica.handle at h
    dsimp only at h
    split at h
    · cases h
    · rename_i j hf
      split_ifs at h
      cases h
      have hi := hw.copy k id i hf
      exact supplied_quiet (hi.stored ⟨(by rintro ⟨⟩), (by rintro ⟨⟩), (by rintro ⟨⟩)⟩)

theorem World.Supplied.next (hw : w.Supplied) (hr : Run T w) (hn : w.next T k ev = some w')
    (hp : ∀ t ∈ w'.log, Provided T t.pre t.before t.event) : w'.Supplied := by
  have ht := (Run.next hr hn).grown.1
  obtain ⟨-, hen, i, e, hh, rfl⟩ := next_eq hn
  have ht := ht.head
  have he : e.Supplied := hw.effect hr hen hh (hp _ List.mem_cons_self)
  obtain ⟨hl, ha⟩ := handle_act
    (fun m hm => type_ne_of_sent hr.grown.1 (mem_sent.1 (hm ▸ hen : w.Enabled k (.step m)).1)) hh
  have kept : ∀ {j id}, (∃ x, (w.replica j).find id = some x ∧ x.lt ≠ none) →
      ∃ x, (Function.update w.replica k ((w.replica k).apply e) j).find id = some x
        ∧ x.lt ≠ none := by
    rintro j id ⟨x, hx, hlt⟩
    by_cases hj : j = k
    · subst hj
      rw [Function.update_self, find_apply_of_kept he.cleared]
      split_ifs with hid
      · rw [hid, ha.key] at hx
        have hix : i = x := ht.before_eq hx
        exact ⟨_, rfl, ha.tracker (hix ▸ hlt)⟩
      · exact ⟨x, hx, hlt⟩
    · rw [Function.update_of_ne hj]
      exact ⟨x, hx, hlt⟩
  have hsent : ∀ {m}, m ∈ e.io.map (envelope k) ++ w.sent →
      (∃ x ∈ e.io, m = envelope k x) ∨ m ∈ w.sent := by
    intro m hm
    rcases List.mem_append.1 hm with hm | hm
    · obtain ⟨x, hx, rfl⟩ := List.mem_map.1 hm
      exact .inl ⟨x, hx, rfl⟩
    · exact .inr hm
  constructor
  · intro j id x hx
    by_cases hj : j = k
    · subst hj
      simp only [Function.update_self] at hx
      rcases find_apply hx with ⟨-, rfl⟩ | ⟨-, hx⟩
      · exact he.inst
      · exact hw.copy j id x hx
    · simp only [Function.update_of_ne hj] at hx
      exact hw.copy j id x hx
  · intro m hm
    rcases hsent hm with ⟨x, hx, rfl⟩ | hm
    · have hs := (he.sent x hx).1
      exact ⟨hs.command, hs.status⟩
    · exact hw.sent m hm
  · intro m hm
    rcases hsent hm with ⟨x, hx, rfl⟩ | hm
    · have hid : x.id = i.key := ht.sent_id (m := envelope k x) (List.mem_map_of_mem hx)
      rw [home_envelope]
      by_cases hb : x.type.Broadcast
      · rw [if_pos hb]
        refine ⟨e.inst, ?_, (he.sent x hx).2 hb⟩
        show (Function.update w.replica k _ k).find x.id = some e.inst
        rw [Function.update_self, find_apply_of_kept he.cleared, if_pos (hid.trans ha.key.symm)]
      · rw [if_neg hb]
        obtain ⟨m, rfl, hmb, hs⟩ := (ha.answers_request x hx).resolve_left hb
        have := hw.tracked m hen.1
        unfold Message.home at this
        rw [if_pos hmb] at this
        rw [← hs, ← (ht.step_key rfl).1, ← hid] at this
        exact kept this
    · exact kept (hw.tracked m hm)

/-- In a run of events that provide a command wherever there is none, nothing lacks one. -/
theorem Run.supplied (h : Run T w) (hp : ∀ t ∈ w.log, Provided T t.pre t.before t.event) :
    w.Supplied := by
  induction h with
  | init => exact .init
  | @next w w' k ev h hn ih =>
    have hw : w.Supplied := ih fun t ht => hp t (by
      obtain ⟨-, -, i, e, -, rfl⟩ := next_eq hn
      exact List.mem_cons_of_mem _ ht)
    exact hw.next h hn hp

/-- In such a run, no event that can come next reads through an absent command or tracker. -/
theorem nothing_absent (h : Run T w) (hp : ∀ t ∈ w.log, Provided T t.pre t.before t.event)
    (hen : w.Enabled k ev) (hc : ev.HasCommand) : (w.replica k).readsAbsent T ev = false := by
  have hw := h.supplied hp
  have hr : ∀ id, (w.replica k).Commanded id := by
    intro id j ti hti _
    have hf : (w.replica k).find ⟨j, ti.key.instanceId⟩ = some ti :=
      ((w.replica k).index j).find_eq_some_iff _ _ |>.2 ⟨hti, rfl⟩
    exact (hw.copy k _ ti hf).command
  cases ev with
  | propose m =>
    unfold Replica.readsAbsent
    dsimp only
    rw [phase1_present ((hr _).put rfl) hc (Option.some_ne_none newTracker), Bool.and_false]
  | step m =>
    unfold Replica.readsAbsent
    dsimp only
    split_ifs with hid
    · rfl
    have hkey : ((w.replica k).copy m.id).key = m.id :=
      Replica.Keyed.copy (fun _ _ hi => h.key hi) m.id
    have found : ¬ m.type.Broadcast → ∃ i, (w.replica k).copy m.id = i ∧ i.Supplied ∧ i.lt ≠ none := by
      intro hb
      obtain ⟨i, hi, hlt⟩ := hw.tracked m hen.1
      rw [hen.2.home hb] at hi
      refine ⟨i, ?_, hw.copy k _ i hi, hlt⟩
      rw [Replica.copy, hi]
      rfl
    refine progress_present (hr _ |>.put rfl) (fun hb => ?_) (fun hb => ?_) (fun lt hlt => ?_)
      (hw.sent m hen.1).command (type_ne_of_sent h.grown.1 (mem_sent.1 hen.1))
    · obtain ⟨i, hi, hs, -⟩ := found hb
      exact hi ▸ hs.command
    · obtain ⟨i, hi, -, hlt⟩ := found hb
      exact hi ▸ hlt
    · unfold Replica.copy at hlt
      cases hf : (w.replica k).find m.id with
      | none =>
        rw [hf] at hlt
        cases hlt
      | some i =>
        rw [hf] at hlt
        exact (hw.copy k _ i hf).tracker lt hlt
  | checkpoint | timeout | execute => rfl

end World

/-- After a commit on the fast path, replica 1 can take a write that meets it. -/
theorem nothing_absent_fastCommit : ∃ w, Run listTree w ∧ w.log.length = 3
    ∧ (w.replica 1).readsAbsent listTree (.propose (request (writeOf [49, 48] [50, 48]))) = false := by
  obtain ⟨w, hr, hp, hl⟩ := @exists_run fastCommit
    (fun w => (∀ t ∈ w.log, Provided listTree t.pre t.before t.event) ∧ w.log.length = 3) _
    (by decide +kernel)
  exact ⟨w, hr, hl, nothing_absent hr hp trivial (by decide)⟩

/-- Replica 2 is told of the commit and has never seen the command. Its next proposal scans the index
of replica 0. -/
def unknownCommit : List Move := fastCommit ++ [deliverAt 2 .commit ⟨0, 1⟩]

theorem unknownCommit_absent : ¬ ∀ w, Run listTree w → (∀ t ∈ w.log, t.event.HasCommand) →
    ∀ k ev, w.Enabled k ev → ev.HasCommand → (w.replica k).readsAbsent listTree ev = false := by
  intro h
  obtain ⟨w, hr, hc, ha⟩ := @exists_run unknownCommit
    (fun w => (∀ t ∈ w.log, t.event.HasCommand)
      ∧ (w.replica 2).readsAbsent listTree (.propose (request (writeOf [51, 48] [52, 48]))) = true)
    _ (by decide +kernel)
  have := h w hr hc 2 (.propose (request (writeOf [51, 48] [52, 48]))) trivial (by decide)
  rw [ha] at this
  cases this

end Epx
