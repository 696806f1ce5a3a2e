import Epx.Proofs.FreshIds
import Epx.Proofs.Widening

/-!
# Where commands come from

A scan may widen the spans of the command it is given and changes nothing else of it. Handlers copy
commands between the instance, its recovery record and the message, all about one id. So every
command found under an id is the one the id was proposed with, its spans widened or not.
-/

namespace Epx

open Log

/-- `P` holds of no command, and is kept when spans are widened. -/
structure CommandLaw (P : Option Command → Prop) : Prop where
  none : P none
  stable : Stable P

/-- `P` holds of the copy's command and of its recovery record's. -/
structure Instance.Carries (P : Option Command → Prop) (i : Instance) : Prop where
  command : P i.command
  record : ∀ lt, i.lt = some lt → P lt.ri.command

/-- `P` holds of what the handler leaves and of what it sends. -/
structure Effect.Carries (P : Option Command → Prop) (e : Effect) : Prop where
  inst : e.inst.Carries P
  sent : ∀ m ∈ e.io, P m.command

section Handlers

variable {T : RangeTree} {P : Option Command → Prop} {r : Replica} {i : Instance} {m : Message}
  {lt : LeaderTracker} {e : Effect}

theorem carries_quiet (hi : i.Carries P) : (quiet r i).Carries P :=
  ⟨hi, fun _ h => absurd h List.not_mem_nil⟩

theorem carries_sending (hi : i.Carries P) (hm : P m.command) : (sending r i m).Carries P :=
  ⟨hi, fun _ hx => List.mem_singleton.1 hx ▸ hm⟩

/-- The copy under another tracker. -/
theorem Instance.Carries.tracked (hi : i.Carries P) (h : P lt.ri.command) :
    Instance.Carries P { i with lt := some lt } :=
  ⟨hi.command, fun _ hl => Option.some.inj hl ▸ h⟩

theorem phase1_carries (hP : CommandLaw P) {q : Instance × Message} (h : phase1 T r i m = some q)
    (hi : i.Carries P) (hm : P m.command) : q.1.Carries P ∧ P q.2.command := by
  obtain ⟨j, lt, s, -, hl, hs, rfl⟩ := phase1_eq h
  have hc : P s.2.1 := sdLoop_command hP.stable hs hm
  exact ⟨⟨hc, fun lt' hlt' => by
    cases hlt'
    exact hi.record lt hl⟩, hc⟩

theorem restart_carries (hP : CommandLaw P) (h : restart T r i m = some e) (hi : i.Carries P)
    (hm : P m.command) : e.Carries P := by
  obtain ⟨q, hq, rfl⟩ := Option.map_eq_some_iff.1 h
  obtain ⟨h₁, h₂⟩ := phase1_carries hP hq hi hm
  exact carries_sending h₁ h₂

theorem doCommit_carries (h : doCommit r i m = some e) (hi : i.Carries P) (hm : P m.command) :
    e.Carries P := by
  obtain ⟨c, -, rfl⟩ := doCommit_eq h
  exact ⟨⟨hi.command, hi.record⟩, fun _ hx => List.mem_singleton.1 hx ▸ hm⟩

theorem recover_carries (hi : i.Carries P) : (recover r i m).Carries P := by
  rw [recover_eq]
  refine carries_sending ⟨hi.command, fun lt hlt => ?_⟩ hi.command
  cases hlt
  exact hi.command

theorem nackReply_carries (hi : i.Carries P) (hlt : i.lt = some lt) :
    (nackReply r i lt m).Carries P := by
  have hn : Instance.Carries P { i with lt := some (lt.nack m) } := hi.tracked (hi.record lt hlt)
  rcases nackReply_cases (r := r) (i := i) (m := m) lt with ⟨-, h⟩ | ⟨-, h⟩ <;> rw [h]
  · exact recover_carries hn
  · exact carries_quiet hn

theorem preAccept_carries (hP : CommandLaw P) (h : preAccept T r i m = some e) (hi : i.Carries P)
    (hm : P m.command) : e.Carries P := by
  rcases preAccept_cases h with ⟨-, rfl⟩ | ⟨-, -, rfl⟩ | ⟨-, -, s, hs, h⟩
  · exact carries_quiet hi
  · exact carries_sending hi hi.command
  have hc : P s.2.1 := sdLoop_command hP.stable hs hm
  rcases h with rfl | ⟨-, -, -, -, rfl⟩ <;>
    exact ⟨⟨hc, hi.record⟩, fun _ hx => List.mem_singleton.1 hx ▸ hc⟩

theorem preAcceptOk_carries (h : preAcceptOk r i m = some e) (hi : i.Carries P)
    (hm : P m.command) : e.Carries P := by
  rcases preAcceptOk_cases h with rfl | ⟨lt, hlt, -, -, h⟩
  · exact carries_quiet hi
  have ht : Instance.Carries P { i with lt := some lt.preAcceptOk } :=
    hi.tracked (hi.record lt hlt)
  rcases h with ⟨-, -, -, hc⟩ | ⟨-, rfl⟩ | ⟨-, rfl⟩
  · exact doCommit_carries hc ht hm
  · exact carries_sending ⟨ht.command, ht.record⟩ hm
  · exact carries_quiet ht

theorem preAcceptReply_carries (h : preAcceptReply r i m = some e) (hi : i.Carries P)
    (hm : P m.command) : e.Carries P := by
  rcases preAcceptReply_cases h with rfl | ⟨lt, hlt, -, -, h⟩
  · exact carries_quiet hi
  have ht : (mergeReply i m lt).Carries P := ⟨hi.command, fun lt' hl => by
    cases hl
    exact hi.record lt hlt⟩
  rcases h with ⟨-, rfl⟩ | ⟨-, ⟨-, -, -, -, hc⟩ | ⟨-, rfl⟩ | ⟨-, rfl⟩⟩
  · exact nackReply_carries hi hlt
  · exact doCommit_carries hc ht hm
  · exact carries_sending ⟨ht.command, ht.record⟩ hm
  · exact carries_quiet ht

theorem accept_carries (hi : i.Carries P) (hm : P m.command) : (accept r i m).Carries P := by
  rcases accept_cases r i m with ⟨-, h⟩ | ⟨-, -, h⟩ | ⟨-, -, h⟩ <;> rw [h]
  · exact carries_quiet hi
  · exact carries_sending hi hm
  · exact ⟨⟨hi.command, hi.record⟩, fun _ hx => List.mem_singleton.1 hx ▸ hm⟩

theorem acceptReply_carries (h : acceptReply r i m = some e) (hi : i.Carries P)
    (hm : P m.command) : e.Carries P := by
  rcases acceptReply_cases h with rfl | ⟨lt, hlt, -, -, h⟩
  · exact carries_quiet hi
  have ht : Instance.Carries P { i with lt := some lt.acceptOk } := hi.tracked (hi.record lt hlt)
  rcases h with ⟨-, rfl⟩ | ⟨-, -, hc⟩ | ⟨-, rfl⟩
  · exact nackReply_carries hi hlt
  · exact doCommit_carries hc ht hm
  · exact carries_quiet ht

theorem prepare_carries (hi : i.Carries P) (hm : P m.command) : (prepare r i m).Carries P := by
  rcases prepare_cases r i m with ⟨-, h⟩ | ⟨-, h⟩ <;> rw [h]
  · exact carries_sending hi hm
  · exact carries_sending ⟨hi.command, hi.record⟩ hi.command

theorem tally_carries (hlt : P lt.ri.command) (hm : P m.command) :
    P (tallyReply i lt m).ri.command := by
  rcases tally_cases i lt m with ⟨-, b, l, he, -⟩ | ⟨-, c, l, he, -⟩ <;> rw [he]
  · exact hm
  · exact hlt

theorem decidePrepared_carries (hP : CommandLaw P) (h : decidePrepared T r i lt m = some e)
    (hi : i.Carries P) (hlt : P lt.ri.command) (hm : P m.command) : e.Carries P := by
  rcases decidePrepared_cases h with
    ⟨-, rfl⟩ | ⟨-, rfl⟩ | ⟨-, -, -, -, conflict, c, hp, h⟩ | ⟨-, -, -, h⟩
  · exact carries_sending ⟨hi.command, fun _ hl => Option.some.inj hl ▸ hlt⟩ hP.none
  · exact carries_sending ⟨hlt, fun _ hl => Option.some.inj hl ▸ hlt⟩ hm
  · have hc : P c := pacLoop_command hP.stable hp hlt
    rcases h with ⟨-, -, -, h⟩ | ⟨-, -, -, rfl⟩ | ⟨-, rfl⟩
    · exact restart_carries hP h ⟨scanned_command hi.command hc, fun _ hl => Option.some.inj hl ▸ hc⟩
        hc
    · exact carries_sending
        ⟨scanned_command hi.command hc, fun _ hl => Option.some.inj hl ▸ hc⟩
        (scanned_command hi.command hc)
    · exact carries_sending ⟨hc, fun _ hl => Option.some.inj hl ▸ hc⟩ hc
  · exact restart_carries hP h ⟨hi.command, fun _ hl => Option.some.inj hl ▸ hlt⟩ hlt

theorem prepareReply_carries (hP : CommandLaw P) (h : prepareReply T r i m = some e)
    (hi : i.Carries P) (hm : P m.command) : e.Carries P := by
  rcases prepareReply_cases h with rfl | ⟨lt, hlt, -, h⟩
  · exact carries_quiet hi
  have hri : P lt.ri.command := hi.record lt hlt
  have ht : P (tallyReply i lt.prepareOk m).ri.command := tally_carries hri hm
  rcases h with ⟨-, rfl⟩ | ⟨-, -, hc⟩ | ⟨-, -, -, rfl⟩ | ⟨-, -, hd⟩
  · exact carries_quiet (hi.tracked hri)
  · exact doCommit_carries hc ⟨hm, fun _ hl => Option.some.inj hl ▸ hri⟩ hm
  · exact carries_quiet ⟨hi.command, fun _ hl => Option.some.inj hl ▸ ht⟩
  · exact decidePrepared_carries hP hd ⟨hi.command, fun _ hl => Option.some.inj hl ▸ ht⟩ ht hm

theorem tryPreAccept_carries (hP : CommandLaw P) (h : tryPreAccept T r i m = some e)
    (hi : i.Carries P) (hm : P m.command) : e.Carries P := by
  rcases tryPreAccept_cases h with ⟨-, rfl⟩ | ⟨-, conflict, c, hf, h⟩
  · exact carries_sending hi hm
  have hc : P c := findConflict_command hP.stable hf hm
  rcases h with ⟨f, -, rfl⟩ | ⟨-, rfl⟩
  · exact carries_sending hi hc
  · exact carries_sending ⟨hc, hi.record⟩ hc

theorem deferConflict_carries (hP : CommandLaw P) {nq : ℕ} {ri : RecoveryInstance}
    {io : List Message} (h : deferConflict T r i lt nq ri m io = some e) (hi : i.Carries P)
    (hio : ∀ x ∈ io, P x.command) (hri : P ri.command) : e.Carries P := by
  obtain ⟨i', io', tm, hinst, rfl, -, ⟨rfl, hio'⟩ | ⟨q, hp, rfl, hio'⟩⟩ := deferConflict_cases h
  · exact ⟨hinst ▸ ⟨hi.command, hi.record⟩, fun x hx => hio x (hio' ▸ hx)⟩
  · have hj : Instance.Carries P
        { i with lt := i.lt.map fun lt => { lt with recoveryStatus := .none } } := by
      refine ⟨hi.command, fun lt' hl => ?_⟩
      obtain ⟨lt, hlt, rfl⟩ := Option.map_eq_some_iff.1 hl
      exact hi.record lt hlt
    obtain ⟨hq, hqm⟩ := phase1_carries hP hp hj hri
    refine ⟨hinst ▸ ⟨hq.command, hq.record⟩, fun x hx => ?_⟩
    rw [hio'] at hx
    rcases List.mem_append.1 hx with hx | hx
    · exact hio x hx
    · exact List.mem_singleton.1 hx ▸ hqm

theorem tryPreAcceptReply_carries (hP : CommandLaw P) (h : tryPreAcceptReply T r i m = some e)
    (hi : i.Carries P) (hm : P m.command) : e.Carries P := by
  rcases tryPreAcceptReply_cases h with rfl | ⟨lt, hlt, -, -, h⟩
  · exact carries_quiet hi
  have hri : P lt.ri.command := hi.record lt hlt
  rcases h with ⟨-, hc⟩ | ⟨-, rfl⟩ | ⟨-, rfl⟩
  · rcases tryNack_cases hc with ⟨-, rfl⟩ | ⟨-, ⟨q, rfl⟩ | ⟨nq, hd⟩ | ⟨-, q, nq, hp, hd⟩⟩
    · exact carries_sending ⟨hi.command, fun _ hl => Option.some.inj hl ▸ hri⟩ hm
    · exact carries_sending ⟨hi.command, fun _ hl => Option.some.inj hl ▸ hri⟩ hm
    · exact deferConflict_carries hP hd ⟨hi.command, fun _ hl => Option.some.inj hl ▸ hri⟩
        (fun _ h => absurd h List.not_mem_nil) hri
    · obtain ⟨hq, hqm⟩ := phase1_carries hP hp
        ⟨hi.command, fun _ hl => Option.some.inj hl ▸ hri⟩ hm
      exact deferConflict_carries hP hd hq (fun x hx => List.mem_singleton.1 hx ▸ hqm) hri
  · exact carries_sending ⟨hri, fun _ hl => Option.some.inj hl ▸ hri⟩ hri
  · exact carries_quiet (hi.tracked hri)

/-- A handler copies commands and widens them. -/
theorem progress_carries (hP : CommandLaw P) (h : progress T r i m = some e) (hi : i.Carries P)
    (hm : P m.command) : e.Carries P := by
  unfold progress at h
  split at h
  · exact restart_carries hP h hi hm
  · exact preAccept_carries hP h hi hm
  · exact preAcceptReply_carries h hi hm
  · cases h
    exact accept_carries hi hm
  · cases h
    exact ⟨⟨hi.command, hi.record⟩, fun _ hx => absurd hx List.not_mem_nil⟩
  · exact acceptReply_carries h hi hm
  · exact preAcceptOk_carries h hi hm
  · cases h
    exact prepare_carries hi hm
  · exact prepareReply_carries hP h hi hm
  · exact tryPreAccept_carries hP h hi hm
  · exact tryPreAcceptReply_carries hP h hi hm
  · cases h
    exact carries_quiet hi

end Handlers

/-- The command of the message the event is given. -/
def Event.command : Event → Option Command
  | .propose m | .checkpoint m | .step m => m.command
  | .timeout _ _ | .execute _ => none

/-- What an event leaves and sends has the commands of the copy and of its message, widened. -/
theorem handle_carries {T : RangeTree} {P : Option Command → Prop} {r : Replica} {i : Instance}
    {e : Effect} {ev : Event} (hP : CommandLaw P) (h : r.handle T ev = .handled i e)
    (hi : i.Carries P) (hm : P ev.command) : e.Carries P := by
  cases ev with
  | propose m =>
    unfold Replica.handle at h
    dsimp only at h
    split_ifs at h with hf
    cases hc : restart T (r.put r.ownInstance) r.ownInstance m <;> rw [hc] at h <;> cases h
    exact restart_carries hP hc hi hm
  | checkpoint m =>
    unfold Replica.handle at h
    dsimp only at h
    split_ifs at h with hf
    cases hc : r.checkpointEffect r.ownInstance m <;> rw [hc] at h <;> cases h
    obtain ⟨deps, -, rfl⟩ := Option.map_eq_some_iff.1 hc
    exact carries_sending ⟨hi.command, hi.record⟩ hm
  | timeout id m =>
    obtain ⟨-, ⟨-, rfl⟩ | ⟨-, rfl⟩⟩ := timeout_cases h
    · exact recover_carries ⟨hi.command, hi.record⟩
    · exact carries_sending ⟨hi.command, hi.record⟩ hi.command
  | step m => exact progress_carries hP (step_progress h).2 hi hm
  | execute id =>
    unfold Replica.handle at h
    dsimp only at h
    split at h
    · cases h
    · split_ifs at h
      cases h
      exact carries_quiet ⟨hi.command, hi.record⟩

/-- The command, if there is one, is the one a proposal or checkpoint gave the id, widened. -/
def Origin (log : List Record) (id : InstanceId) (c : Option Command) : Prop :=
  ∀ d, c = some d → ∃ t ∈ log, t.event.Assigns ∧ t.who = id.replicaId ∧ t.after.key = id
    ∧ ∃ c₀, t.event.command = some c₀ ∧ c₀.Widens d

theorem originLaw (log : List Record) (id : InstanceId) : CommandLaw (Origin log id) where
  none := by rintro d ⟨⟩
  stable := by
    rintro c d hcd h _ ⟨⟩
    obtain ⟨t, ht, ho, hw, hk, c₀, hc₀, hwd⟩ := h c rfl
    exact ⟨t, ht, ho, hw, hk, c₀, hc₀, hwd.trans hcd⟩

theorem Origin.cons {log : List Record} {id : InstanceId} {c : Option Command}
    (h : Origin log id c) (t : Record) : Origin (t :: log) id c := by
  intro d hd
  obtain ⟨o, ho, h⟩ := h d hd
  exact ⟨o, List.mem_cons_of_mem t ho, h⟩

theorem Instance.Carries.mono {P Q : Option Command → Prop} {i : Instance} (h : i.Carries P)
    (hPQ : ∀ c, P c → Q c) : i.Carries Q :=
  ⟨hPQ _ h.command, fun lt hlt => hPQ _ (h.record lt hlt)⟩

/-- In every run, the command of each copy, recovery record and message is the one its id was
proposed with, by the replica the id names, with its spans widened or not. -/
theorem commands_proposed {T : RangeTree} {w : World} (h : Run T w) :
    (∀ k id i, (w.replica k).find id = some i → i.Carries (Origin w.log id))
      ∧ ∀ m ∈ w.sent, Origin w.log m.id m.command := by
  obtain ⟨hlog, hw⟩ := h.grown
  have hrun := run_rule (T := T) (C := fun _ _ => True)
    (I := fun log _ i => i.Carries (Origin log i.key)) (M := fun log m => Origin log m.id m.command)
    (fun _ hi _ => hi.mono fun _ hc => hc.cons _)
    (fun hm => hm.cons _)
    (fun _ _ _ _ hb => by
      rcases hb with hb | hb <;> rw [hb] <;>
        exact ⟨(originLaw _ _).none, fun lt hlt => by cases hlt <;> exact (originLaw _ _).none⟩)
    (fun {older k ev r i i' io} _ ht _ _ hm hi ha => by
      obtain ⟨e, he, rfl, hs⟩ := ht.handled
      have hk : e.inst.key = i.key := ha.key
      set t : Record := ⟨k, ev, r, i, e.inst, io.map (envelope k)⟩ with htdef
      have hev : Origin (t :: older) i.key ev.command := by
        intro d hd
        cases hev : ev with
        | propose m | checkpoint m =>
          have ho : t.event.Assigns := by simp [Event.Assigns, htdef, hev]
          exact ⟨t, List.mem_cons_self, ho, (ht.assigns_before ho).2.symm, hk, d, hd, .refl d⟩
        | step m =>
          obtain ⟨⟨p, hp, hpm⟩, -⟩ := ht.source m hev
          have := hm p hp m hpm
          rw [← (ht.step_key hev).1] at this
          exact this.cons t d (by rw [hev] at hd; exact hd)
        | timeout | execute =>
          rw [hev] at hd
          cases hd
      have hc : e.Carries (Origin (t :: older) i.key) :=
        handle_carries (originLaw _ _) he (hi.mono fun _ hc => hc.cons t) hev
      refine ⟨hk ▸ hc.inst, fun m hmem => ?_⟩
      have hid : (envelope k m).id = i.key := ht.sent_id (List.mem_map_of_mem hmem)
      have hms : envelope k m ∈ e.io.map (envelope k) := hs ▸ List.mem_map_of_mem hmem
      obtain ⟨x, hx, hxm⟩ := List.mem_map.1 hms
      have := hc.sent x hx
      rw [hid, ← hxm]
      exact this)
    (hlog.imp fun _ _ ht => ⟨ht, trivial⟩)
  refine ⟨fun k id i hi => ?_, fun m hm => ?_⟩
  · have hl := hw.last k id i hi
    exact hl.key ▸ hrun.1 k id i hl
  · obtain ⟨p, hp, hpm⟩ := mem_sent.1 hm
    exact hrun.2 p hp m hpm

/-- The follower of a commit on the fast path has the client's command. -/
theorem commands_proposed_follower : ∃ w i c, Run listTree w
    ∧ (w.replica 1).find ⟨0, 1⟩ = some i ∧ i.command = some c
    ∧ ∃ t ∈ w.log, t.event.Assigns ∧ t.who = 0 ∧ ∃ c₀, t.event.command = some c₀ ∧ c₀.Widens c := by
  obtain ⟨w, hr, hf⟩ := @exists_run fastCommit
    (fun w => ((w.replica 1).find ⟨0, 1⟩).any fun i => i.command.isSome) _ (by decide +kernel)
  obtain ⟨i, hi, hc⟩ := (Option.any_eq_true _ _).1 hf
  obtain ⟨c, hc⟩ := Option.isSome_iff_exists.1 hc
  obtain ⟨t, ht, ho, hw, -, h⟩ := ((commands_proposed hr).1 1 _ i hi).command c hc
  exact ⟨w, i, c, hr, hi, hc, t, ht, ho, hw, h⟩

end Epx
