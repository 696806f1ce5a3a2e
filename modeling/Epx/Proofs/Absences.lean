import Epx.Absent
import Epx.Proofs.Acts
import Epx.Proofs.Misses

/-!
# Where nothing absent is read

An event that reads through an absent command or tracker has no defined outcome. No handler comes to
such a read where the registered instances and the message have a command, and an answer meets an
instance with a tracker.
-/

namespace Epx

section Undefined

variable {T : RangeTree} {r : Replica} {i : Instance} {m : Message}

theorem interferes_of_absent {c₁ c₂ : Option Command} (h : interferesAbsent c₁ c₂ = true) :
    interferes c₁ c₂ = none := by
  rcases c₁ with _ | a <;> rcases c₂ with _ | b
  · rfl
  · rfl
  · unfold interferesAbsent at h
    unfold interferes
    dsimp only at h ⊢
    rw [if_neg]
    rintro ⟨hw, hs⟩
    simp [hw, hs] at h
  · cases h

theorem walk_undefined {ignore : Option InstanceId} : ∀ {xs : List Instance} {rt : T.Tree}
    {mseq : ℕ} {cmd : Option Command} {p : Probe}, walkAbsent T ignore xs rt cmd = true →
      seqDepsLoop T ignore xs rt mseq cmd p = none
  | [], _, _, _, _, h => by cases h
  | ti :: rest, rt, mseq, cmd, p, h => by
    rw [walkAbsent] at h
    rw [seqDepsLoop]
    split_ifs at h ⊢ with h₁ h₂ h₃
    · exact walk_undefined h
    · rw [interferes_of_absent h₃]
    rcases hin : interferes ti.command cmd with _ | _ | ⟨s, ss⟩ <;> rw [hin] at h
    · exact walk_undefined h
    clear hin h₃
    generalize ti.command = tc at h ⊢
    rcases tc with _ | tc <;> rcases cmd with _ | c <;> try rfl
    dsimp only at h ⊢
    by_cases hw : tc.writing = .write
    · rw [if_pos hw] at h ⊢
      simp only [Bool.and_eq_true, Bool.not_eq_true'] at h
      rw [if_neg (Bool.eq_false_iff.1 h.1)]
      exact walk_undefined h.2
    · rw [if_neg hw] at h ⊢
      split_ifs <;> exact walk_undefined h

theorem scan_undefined {cmd : Option Command} {ignore : Option InstanceId} {p : Probe}
    (h : scanAbsent T r cmd ignore p = true) : sdForCommand T r cmd ignore p = none := by
  unfold scanAbsent at h
  obtain ⟨k, hk, h⟩ := List.any_eq_true.1 h
  obtain ⟨q, hq, h⟩ := (Option.any_eq_true _ _).1 h
  by_contra hn
  obtain ⟨s, hs⟩ := Option.ne_none_iff_exists'.1 hn
  obtain ⟨q', hq', hw⟩ := sdLoop_index hs k (List.mem_range.1 hk)
  cases hq.symm.trans hq'
  unfold seqDepsForCommand at hw
  rw [walk_undefined h] at hw
  cases hw

theorem conflict_undefined {seq : ℕ} {deps : List Dependency} : ∀ {xs : List Entry} {rt : T.Tree}
    {c : Option Command}, conflictAbsent T i seq deps xs rt c = true →
      conflictLoop T i seq deps xs rt c = none
  | [], _, _, h => by cases h
  | ti :: rest, rt, c, h => by
    rw [conflictAbsent] at h
    rw [conflictLoop]
    split_ifs at h ⊢ with h₁ h₂ h₃ h₄ h₅
    · exact conflict_undefined h
    · exact conflict_undefined h
    · exact conflict_undefined h
    · rw [interferes_of_absent h₅]
    rcases hin : interferes ti.command c with _ | _ | ⟨s, ss⟩ <;> rw [hin] at h
    · exact conflict_undefined h
    clear hin h₃ h₅
    generalize ti.command = tc at h ⊢
    rcases tc with _ | tc <;> rcases c with _ | cmd <;> try rfl
    dsimp only at h ⊢
    by_cases hw : tc.writing = .write
    · rw [if_pos hw] at h ⊢
      simp only [Bool.and_eq_true, Bool.not_eq_true'] at h
      rw [if_neg (Bool.eq_false_iff.1 h.1.1), if_neg (Bool.eq_false_iff.1 h.1.2)]
      exact conflict_undefined h.2
    · rw [if_neg hw] at h ⊢
      simp only [Bool.and_eq_true, Bool.not_eq_true'] at h
      rw [if_neg (Bool.eq_false_iff.1 h.1)]
      exact conflict_undefined h.2

theorem pacLoop_append {rows : ℕ → List Entry} {own : Bool} {seq : ℕ} {deps : List Dependency} :
    ∀ {ks ls : List ℕ} {c : Option Command},
      pacLoop T rows i own seq deps (ks ++ ls) c = match pacLoop T rows i own seq deps ks c with
        | some (none, c) => pacLoop T rows i own seq deps ls c
        | q => q
  | [], _, _ => rfl
  | k :: ks, ls, c => by
    rw [List.cons_append, pacLoop, pacLoop]
    rcases preAcceptConflict T (sharing i own c (rows k)) i c seq deps with _ | ⟨_ | t, c⟩
    · rfl
    · exact pacLoop_append
    · rfl

theorem pac_undefined {rows : ℕ → List Entry} {own : Bool} {c : Option Command} {seq : ℕ}
    {deps : List Dependency} (h : pacAbsent T rows i own c seq deps = true) :
    pacConflict T rows i own c seq deps = none := by
  unfold pacAbsent at h
  obtain ⟨k, hk, h⟩ := List.any_eq_true.1 h
  obtain ⟨⟨t, c'⟩, hq, h⟩ := (Option.any_eq_true _ _).1 h
  simp only [Bool.and_eq_true, Option.isNone_iff_eq_none] at h
  obtain ⟨rfl, h⟩ := h
  have hrange : List.range N = List.range k ++ k :: (List.range N).drop (k + 1) := by
    have hk := List.mem_range.1 hk
    have hlen : k < (List.range N).length := by rwa [List.length_range]
    conv_lhs => rw [← List.take_append_drop k (List.range N)]
    rw [List.drop_eq_getElem_cons hlen, List.getElem_range, List.take_range, min_eq_left hk.le]
  unfold pacConflict
  rw [hrange, pacLoop_append, hq]
  dsimp only
  rw [pacLoop]
  unfold preAcceptConflict
  rw [conflict_undefined h]

theorem findConflict_undefined {c : Option Command} {seq : ℕ} {deps : Deps}
    (h : findConflictAbsent T r i c seq deps = true) : findConflict T r i c seq deps = none := by
  unfold findConflictAbsent at h
  unfold findConflict
  split_ifs at h ⊢
  exact pac_undefined h

theorem phase1_undefined (h : phase1Absent T r i m = true) : phase1 T r i m = none := by
  unfold phase1Absent at h
  unfold phase1
  dsimp only at h ⊢
  rcases Bool.or_eq_true_iff.1 h with h | h
  · rw [scan_undefined h]
  · have hlt : (instanceReset i).lt = none := by simpa using (Bool.and_eq_true_iff.1 h).2
    rw [hlt]
    split
    · rename_i hn
      cases hn
    · rfl

theorem restart_undefined (h : phase1Absent T r i m = true) : restart T r i m = none := by
  unfold restart
  rw [phase1_undefined h]
  rfl

theorem doCommit_undefined (h : i.command.isNone = true) : doCommit r i m = none := by
  unfold doCommit
  rw [Option.isNone_iff_eq_none.1 h]
  rfl

theorem preAccept_undefined (h : preAcceptAbsent T r i m = true) : preAccept T r i m = none := by
  unfold preAcceptAbsent at h
  simp only [Bool.and_eq_true, Bool.not_eq_true', decide_eq_false_iff_not] at h
  obtain ⟨⟨hst, hb⟩, h⟩ := h
  have hst' : isState i.status [.committed, .accepted] = false := by
    rcases List.mem_pair.1 (isState_iff.1 hst) with hs | hs <;> rw [hs] <;> rfl
  unfold preAccept
  rw [if_neg (Bool.eq_false_iff.1 hst'), if_neg (by rw [hst]; decide), if_neg hb, scan_undefined h]

theorem preAcceptOk_undefined (h : preAcceptOkAbsent i = true) : preAcceptOk r i m = none := by
  unfold preAcceptOkAbsent at h
  simp only [Bool.and_eq_true] at h
  obtain ⟨⟨hst, hb⟩, h⟩ := h
  unfold preAcceptOk
  rw [if_neg (by rw [hst, hb]; decide)]
  rcases hlt : i.lt with _ | lt <;> rw [hlt] at h
  obtain ⟨hc, hn⟩ := Bool.and_eq_true_iff.1 h
  exact (if_pos (of_decide_eq_true hc)).trans (doCommit_undefined hn)

theorem preAcceptReply_undefined (h : preAcceptReplyAbsent i m = true) :
    preAcceptReply r i m = none := by
  unfold preAcceptReplyAbsent at h
  simp only [Bool.and_eq_true, decide_eq_true_eq] at h
  obtain ⟨⟨hst, hb⟩, h⟩ := h
  unfold preAcceptReply
  rw [if_neg (by rw [hst, hb]; simp)]
  rcases hlt : i.lt with _ | lt <;> rw [hlt] at h
  obtain ⟨hc, hn⟩ := Bool.and_eq_true_iff.1 h
  obtain ⟨hm, ho, he, hi, hd⟩ := of_decide_eq_true hc
  refine (if_neg (not_not.2 hm)).trans ?_
  exact (if_pos ⟨ho, he, hi, hd⟩).trans (doCommit_undefined hn)

theorem acceptReply_undefined (h : acceptReplyAbsent i m = true) : acceptReply r i m = none := by
  unfold acceptReplyAbsent at h
  simp only [Bool.and_eq_true, decide_eq_true_eq] at h
  obtain ⟨⟨hst, hb⟩, h⟩ := h
  unfold acceptReply
  rw [if_neg (by rw [hst, hb]; simp)]
  rcases hlt : i.lt with _ | lt <;> rw [hlt] at h
  obtain ⟨hc, hn⟩ := Bool.and_eq_true_iff.1 h
  obtain ⟨hm, ho⟩ := of_decide_eq_true hc
  dsimp only
  rw [if_neg (not_not.2 hm), if_pos ho]
  exact doCommit_undefined hn

theorem decidePrepared_undefined {lt : LeaderTracker} (h : decidePreparedAbsent T r i lt m = true) :
    decidePrepared T r i lt m = none := by
  unfold decidePreparedAbsent at h
  unfold decidePrepared
  dsimp only at h ⊢
  split_ifs at h ⊢
  · rcases Bool.or_eq_true_iff.1 h with h | h
    · rw [pac_undefined h]
    · split at h
      · rename_i hp
        obtain ⟨hc, h⟩ := Bool.and_eq_true_iff.1 h
        rw [hp]
        dsimp only
        rw [if_pos (of_decide_eq_true hc)]
        exact restart_undefined h
      · cases h
  · exact restart_undefined h

theorem prepareReply_undefined (h : prepareReplyAbsent T r i m = true) :
    prepareReply T r i m = none := by
  unfold prepareReplyAbsent at h
  unfold prepareReply
  rcases hlt : i.lt with _ | lt <;> rw [hlt] at h
  · cases h
  dsimp only at h ⊢
  split_ifs at h with h₁ h₂ h₃
  all_goals
    rw [not_or, not_not, not_not] at h₁
    rw [if_neg (not_not.2 h₁.1), if_neg (not_not.2 h₁.2)]
  · rw [if_pos h₂]
    exact doCommit_undefined h
  · rw [if_neg h₂, if_neg h₃]
    exact decidePrepared_undefined h

theorem tryPreAccept_undefined (h : tryPreAcceptAbsent T r i m = true) :
    tryPreAccept T r i m = none := by
  unfold tryPreAcceptAbsent at h
  simp only [Bool.and_eq_true, Bool.not_eq_true', decide_eq_false_iff_not] at h
  unfold tryPreAccept
  rw [if_neg h.1, findConflict_undefined h.2]

theorem defer_undefined {lt : LeaderTracker} {nq : ℕ} {ri : RecoveryInstance} {io : List Message}
    (h : deferAbsent T r i lt nq ri m = true) : deferConflict T r i lt nq ri m io = none := by
  unfold deferAbsent at h
  simp only [Bool.and_eq_true, decide_eq_true_eq] at h
  unfold deferConflict
  dsimp only
  rw [if_pos h.1, phase1_undefined h.2]
  rfl

theorem tryNack_undefined {lt : LeaderTracker} (h : tryNackAbsent T r i lt m = true) :
    tryNack T r i lt m = none := by
  unfold tryNackAbsent at h
  unfold tryNack
  dsimp only at h ⊢
  split_ifs at h ⊢
  · rcases Bool.or_eq_true_iff.1 h with h | h
    · rw [phase1_undefined h]
    · obtain ⟨q, hq, h⟩ := (Option.any_eq_true _ _).1 h
      rw [hq]
      exact defer_undefined h
  · exact defer_undefined h

theorem tryPreAcceptReply_undefined (h : tryPreAcceptReplyAbsent T r i m = true) :
    tryPreAcceptReply T r i m = none := by
  unfold tryPreAcceptReplyAbsent at h
  unfold tryPreAcceptReply
  rcases hlt : i.lt with _ | lt <;> rw [hlt] at h
  · cases h
  dsimp only at h ⊢
  split_ifs at h ⊢
  exact tryNack_undefined h

/-- An event that reads through an absent command or tracker has no defined outcome. -/
theorem handle_undefined {ev : Event} (h : r.readsAbsent T ev = true) :
    r.handle T ev = .undefined := by
  have hof : ∀ {i m}, progressAbsent T (r.put i) i m = true →
      Outcome.of i (progress T (r.put i) i m) = .undefined := by
    intro i m h
    have hp : progress T (r.put i) i m = none := by
      unfold progressAbsent at h
      unfold progress
      cases ht : m.type <;> rw [ht] at h <;> dsimp only at h ⊢
      case phase1 => exact restart_undefined h
      case preAccept => exact preAccept_undefined h
      case preAcceptOk => exact preAcceptOk_undefined h
      case preAcceptReply => exact preAcceptReply_undefined h
      case acceptReply => exact acceptReply_undefined h
      case prepareReply => exact prepareReply_undefined h
      case tryPreAccept => exact tryPreAccept_undefined h
      case tryPreAcceptReply => exact tryPreAcceptReply_undefined h
      all_goals cases h
    rw [hp]
    rfl
  cases ev with
  | propose m =>
    obtain ⟨hf, h⟩ := Bool.and_eq_true_iff.1 h
    unfold Replica.handle
    dsimp only
    rw [if_neg (by rw [Option.isNone_iff_eq_none.1 hf]; decide), restart_undefined h]
    rfl
  | step m =>
    unfold Replica.readsAbsent at h
    dsimp only at h
    split_ifs at h with hid
    rw [not_or] at hid
    unfold Replica.handle
    dsimp only
    rw [if_neg hid.1, if_neg hid.2]
    exact hof h
  | checkpoint | timeout | execute => cases h

end Undefined

/-- Every registered instance but `id` has a command. -/
def Replica.Commanded (r : Replica) (id : InstanceId) : Prop :=
  ∀ k, ∀ ti ∈ (r.index k).entries, ti.key ≠ id → ti.command ≠ none

/-- A recovery under way has a command in its record. -/
def LeaderTracker.Supplied (lt : LeaderTracker) : Prop :=
  lt.recoveryStatus = .preparing ∨ lt.recoveryStatus = .tryPreAccepting → lt.ri.command ≠ none

section Present

variable {T : RangeTree} {r : Replica} {i j : Instance} {m : Message} {lt : LeaderTracker}

theorem Replica.Commanded.put {id : InstanceId} (h : r.Commanded id) (hj : j.key = id) :
    (r.put j).Commanded id := by
  intro k ti hti hne
  unfold Replica.put at hti
  by_cases hk : k = j.key.replicaId
  · subst hk
    simp only [Function.update_self] at hti
    rcases InstanceIndex.mem_setEntry hti with rfl | hti
    · exact absurd hj hne
    · exact h _ ti hti hne
  · simp only [Function.update_of_ne hk] at hti
    exact h k ti hti hne

theorem walk_present {ignore : Option InstanceId} : ∀ {xs : List Instance} {rt : T.Tree}
    {c : Command}, (∀ ti ∈ xs, ignore ≠ some ti.key → ti.command ≠ none) →
      walkAbsent T ignore xs rt (some c) = false
  | [], _, _, _ => rfl
  | ti :: rest, rt, c, h => by
    rw [List.forall_mem_cons] at h
    rw [walkAbsent]
    split_ifs with h₁ h₂ h₃
    · exact walk_present h.2
    · rfl
    · obtain ⟨tc, htc⟩ := Option.ne_none_iff_exists'.1 (h.1 h₁)
      rw [htc] at h₃
      cases h₃
    rcases hin : interferes ti.command (some c) with _ | _ | ⟨s, ss⟩
    · rfl
    · exact walk_present h.2
    obtain ⟨tc, htc, -⟩ := interferes_cons hin
    rw [htc]
    dsimp only
    split_ifs
    · rw [walk_present h.2, Bool.and_false]
    · exact walk_present h.2

theorem seqDepsLoop_isSome {ignore : Option InstanceId} : ∀ {xs : List Instance} {rt : T.Tree}
    {mseq : ℕ} {c : Command} {p : Probe} {q : ℕ × Option Command × Probe},
    seqDepsLoop T ignore xs rt mseq (some c) p = some q → q.2.1 ≠ none
  | [], _, _, _, _, _, h => by
    cases h
    exact nofun
  | ti :: rest, rt, mseq, c, p, q, h => by
    rcases walk_cases h with ⟨-, ⟨n, h⟩, -⟩ | ⟨-, -, hq, -⟩ | ⟨-, tc, -, -, -, ⟨n, h⟩, -⟩
      | ⟨-, tc, l, -, -, -, -, ⟨-, ⟨n, h⟩, -⟩ | ⟨-, hq, -⟩⟩
    · exact seqDepsLoop_isSome h
    · rw [hq]
      exact nofun
    · exact seqDepsLoop_isSome h
    · exact seqDepsLoop_isSome h
    · rw [hq]
      exact nofun

theorem sdLoop_isSome {ignore : Option InstanceId} {cmd : Option Command} {p : Probe}
    (hc : cmd ≠ none) : ∀ {n : ℕ} {q : ℕ × Option Command × Probe},
    sdLoop T r ignore n cmd p = some q → q.2.1 ≠ none
  | 0, _, h => by
    cases h
    exact hc
  | n + 1, q, h => by
    rw [sdLoop] at h
    split at h
    · cases h
    · rename_i mseq c p' hq
      obtain ⟨q', hq', rfl⟩ := Option.map_eq_some_iff.1 h
      obtain ⟨d, rfl⟩ := Option.ne_none_iff_exists'.1 (sdLoop_isSome hc hq)
      show q'.2.1 ≠ none
      exact seqDepsLoop_isSome hq'

theorem scan_present {id : InstanceId} {cmd : Option Command} {p : Probe} (hr : r.Commanded id)
    (hc : cmd ≠ none) : scanAbsent T r cmd (some id) p = false := by
  unfold scanAbsent
  refine List.any_eq_false.2 fun k _ => ?_
  rw [Bool.not_eq_true, Option.any_eq_false]
  intro q hq
  obtain ⟨c, hqc⟩ := Option.ne_none_iff_exists'.1 (sdLoop_isSome hc hq)
  rw [hqc]
  refine walk_present fun ti hti hne => hr k ti hti fun h => hne ?_
  rw [h]

theorem conflict_present {seq : ℕ} {deps : List Dependency} : ∀ {xs : List Entry} {rt : T.Tree}
    {c : Command}, conflictAbsent T i seq deps xs rt (some c) = false
  | [], _, _ => rfl
  | ti :: rest, rt, c => by
    rw [conflictAbsent]
    split_ifs with h₁ h₂ h₃ h₄ h₅
    · rfl
    · exact conflict_present
    · exact conflict_present
    · exact conflict_present
    · obtain ⟨tc, htc⟩ := Option.ne_none_iff_exists'.1 h₃
      rw [htc] at h₅
      cases h₅
    rcases hin : interferes ti.command (some c) with _ | _ | ⟨s, ss⟩
    · rfl
    · exact conflict_present
    obtain ⟨tc, htc, -⟩ := interferes_cons hin
    rw [htc]
    dsimp only
    split_ifs <;> rw [conflict_present, Bool.and_false]

theorem conflictLoop_isSome {seq : ℕ} {deps : List Dependency} {xs : List Entry} {rt : T.Tree}
    {c : Command} {q : Option Entry × Option Command}
    (h : conflictLoop T i seq deps xs rt (some c) = some q) : q.2 ≠ none := by
  induction xs generalizing rt c with
  | nil =>
    cases h
    exact Option.some_ne_none _
  | cons ti rest ih =>
    rw [conflictLoop] at h
    split_ifs at h
    · cases h
      exact Option.some_ne_none _
    · exact ih h
    · exact ih h
    · exact ih h
    rcases hin : interferes ti.command (some c) with _ | _ | ⟨s, ss⟩ <;> rw [hin] at h
    · cases h
    · exact ih h
    obtain ⟨tc, htc, -⟩ := interferes_cons hin
    rw [htc] at h
    dsimp only at h
    split_ifs at h
    · cases h
      exact Option.some_ne_none _
    · cases h
      exact Option.some_ne_none _
    · exact ih h
    · cases h
      exact Option.some_ne_none _
    · exact ih h

theorem pacLoop_isSome {rows : ℕ → List Entry} {own : Bool} {seq : ℕ} {deps : List Dependency} :
    ∀ {ks : List ℕ} {c : Option Command} {q : Option Entry × Option Command}, c ≠ none →
      pacLoop T rows i own seq deps ks c = some q → q.2 ≠ none
  | [], _, _, hc, h => by
    cases h
    exact hc
  | k :: ks, c, q, hc, h => by
    obtain ⟨c, rfl⟩ := Option.ne_none_iff_exists'.1 hc
    rw [pacLoop] at h
    split at h
    · cases h
    · rename_i hp
      cases h
      exact conflictLoop_isSome hp
    · rename_i hp
      exact pacLoop_isSome (conflictLoop_isSome hp) h

theorem findConflict_isSome {c : Option Command} {seq : ℕ} {deps : Deps}
    {q : Option Entry × Option Command} (hc : c ≠ none)
    (h : findConflict T r i c seq deps = some q) : q.2 ≠ none := by
  unfold findConflict at h
  split_ifs at h
  · cases h
    exact hc
  · cases h
    exact hc
  · exact pacLoop_isSome hc h

theorem pac_present {rows : ℕ → List Entry} {own : Bool} {c : Option Command} {seq : ℕ}
    {deps : List Dependency} (hc : c ≠ none) : pacAbsent T rows i own c seq deps = false := by
  unfold pacAbsent
  refine List.any_eq_false.2 fun k _ => ?_
  rw [Bool.not_eq_true, Option.any_eq_false]
  intro q hq
  obtain ⟨d, hqd⟩ := Option.ne_none_iff_exists'.1 (pacLoop_isSome hc hq)
  rw [hqd, conflict_present, Bool.and_false]

theorem phase1_present (hr : r.Commanded i.key) (hc : m.command ≠ none) (hlt : i.lt ≠ none) :
    phase1Absent T r i m = false := by
  have hlt' : (instanceReset i).lt.isNone = false := by
    obtain ⟨lt, h⟩ := Option.ne_none_iff_exists'.1 hlt
    unfold instanceReset
    rw [h]
    rfl
  have hr' : (r.put { instanceReset i with timer := none }).Commanded i.key := hr.put rfl
  unfold phase1Absent
  dsimp only
  rw [hlt', Bool.and_false, Bool.or_false]
  exact scan_present hr' hc

/-- The record keeps a command, or takes the reply's. -/
theorem tally_command (hlt : lt.Supplied) (hr : lt.recoveryStatus = .preparing)
    (hm : m.command ≠ none) : (tallyReply i lt m).ri.command ≠ none := by
  rcases tally_cases i lt m with ⟨-, b, l, he, -⟩ | ⟨-, c, l, he, -⟩ <;> rw [he]
  · exact hm
  · exact hlt (.inl hr)

theorem decidePrepared_present (hr : r.Commanded i.key) (hc : lt.ri.command ≠ none) :
    decidePreparedAbsent T r i lt m = false := by
  unfold decidePreparedAbsent
  dsimp only
  split_ifs
  · rfl
  · rfl
  · rw [pac_present hc, Bool.false_or]
    split
    · rename_i conflict command hp
      have hc' : command ≠ none := pacLoop_isSome hc hp
      have hr' : r.Commanded (i.scanned command).key := hr
      rw [phase1_present (i := { i.scanned command with lt := some _ }) hr' hc' nofun,
        Bool.and_false]
    · rfl
  · exact phase1_present (i := { i with lt := some _ }) hr hc nofun

/-- With commands in the replica and in the message, and with a tracker where an answer comes in,
the handlers read through none that is absent. -/
theorem progress_present (hr : r.Commanded i.key) (hi : ¬ m.type.Broadcast → i.command ≠ none)
    (hlt : ¬ m.type.Broadcast → i.lt ≠ none) (hs : ∀ lt, i.lt = some lt → lt.Supplied)
    (hm : m.command ≠ none) (ht : m.type ≠ .phase1) : progressAbsent T r i m = false := by
  have answer : ∀ {t}, m.type = t → ¬ t.Broadcast →
      (∃ lt, i.lt = some lt) ∧ i.command.isNone = false := by
    rintro t rfl hb
    refine ⟨Option.ne_none_iff_exists'.1 (hlt hb), ?_⟩
    exact Option.isNone_eq_false_iff.2 (Option.isSome_iff_ne_none.2 (hi hb))
  unfold progressAbsent
  cases hmt : m.type <;> dsimp only
  case phase1 => exact absurd hmt ht
  case preAccept =>
    unfold preAcceptAbsent
    rw [scan_present hr hm, Bool.and_false]
  case tryPreAccept =>
    unfold tryPreAcceptAbsent findConflictAbsent
    split_ifs <;> simp only [pac_present hm, Bool.and_false]
  case preAcceptOk =>
    obtain ⟨⟨lt, hlt⟩, hc⟩ := answer hmt (by decide)
    unfold preAcceptOkAbsent
    rw [hlt, hc]
    simp only [Bool.and_false]
  case preAcceptReply =>
    obtain ⟨⟨lt, hlt⟩, hc⟩ := answer hmt (by decide)
    unfold preAcceptReplyAbsent
    rw [hlt, hc]
    simp only [Bool.and_false]
  case acceptReply =>
    obtain ⟨⟨lt, hlt⟩, hc⟩ := answer hmt (by decide)
    unfold acceptReplyAbsent
    rw [hlt, hc]
    simp only [Bool.and_false]
  case prepareReply =>
    unfold prepareReplyAbsent
    split
    · rfl
    rename_i lt hlt
    have hlts : LeaderTracker.Supplied { lt with prepareOks := u8 (lt.prepareOks + 1) } := hs lt hlt
    dsimp only
    split_ifs with h₁ h₂ h₃
    · rfl
    · exact Option.isNone_eq_false_iff.2 (Option.isSome_iff_ne_none.2 hm)
    · rfl
    · rw [not_or, not_not] at h₁
      exact decidePrepared_present (i := tallyInst i _ m) hr (tally_command hlts h₁.1 hm)
  case tryPreAcceptReply =>
    unfold tryPreAcceptReplyAbsent
    split
    · rfl
    rename_i lt hlt
    split_ifs with h₁ h₂
    · rfl
    · rw [not_or, not_not] at h₁
      have hri : lt.ri.command ≠ none := hs lt hlt (.inr h₁.1)
      have defer : ∀ {i' : Instance} {lt' nq} {m' : Message}, i'.key = i.key → i'.lt ≠ none →
          deferAbsent T r i' lt' nq lt.ri m' = false := by
        intro i' lt' nq m' hk hlt'
        unfold deferAbsent
        rw [phase1_present (hk ▸ hr) hri (by simpa using hlt'), Bool.and_false]
      unfold tryNackAbsent
      dsimp only
      split_ifs
      · rfl
      · rfl
      · rw [phase1_present (i := { i with lt := some _ }) hr hm nofun, Bool.false_or,
          Option.any_eq_false]
        intro q hq
        obtain ⟨j, lt', s, -, -, -, rfl⟩ := phase1_eq hq
        exact defer rfl nofun
      · exact defer rfl nofun
    · rfl

end Present

end Epx
