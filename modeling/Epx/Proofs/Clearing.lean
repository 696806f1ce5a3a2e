import Epx.Execute
import Epx.Proofs.FreshIds
import Epx.Proofs.Schedules
import Epx.Proofs.Supplies

/-!
# What `clear` leaves behind

`clear` takes executed instances out of the indexes, and `find_instance` cannot tell their ids from
ids never seen. An instance that is executed at a replica was committed there for a message, and a
message of that kind can come again: so every removal shows, and clearing is invisible in the runs
that remove nothing.
-/

namespace Epx

open Log

namespace World

/-- Replica `k` has written `EXECUTED` to its copy of the instance. -/
def WasExecuted (w : World) (k : ℕ) (id : InstanceId) : Prop :=
  ∃ t ∈ w.log, t.who = k ∧ t.after.key = id ∧ t.after.status = .executed

/-- Replica `k` has had the instance in its index, and has it no more. -/
def Removed (w : World) (k : ℕ) (id : InstanceId) : Prop :=
  (∃ t ∈ w.log, t.who = k ∧ t.after.key = id) ∧ (w.replica k).find id = none

/-- The dependency is not on an instance of the component. -/
def Outside (vs : Vertices) (comp : List InstanceId) (d : Dependency) : Prop :=
  ¬ d.Empty ∧ ∀ v, vs.get d.id = some v → v ∉ comp

/-- The component is committed and its dependencies outside have all been executed, but one of them
has been removed. -/
structure HeldBack (w : World) (k : ℕ) (vs : Vertices) (comp : List InstanceId) : Prop where
  committed : ∀ v ∈ comp, ∃ i, (w.replica k).find v = some i ∧ i.status = .committed
  executed : ∀ v ∈ comp, ∀ d ∈ (w.replica k).depsOf v, Outside vs comp d → w.WasExecuted k d.id
  gone : ∃ v ∈ comp, ∃ d ∈ (w.replica k).depsOf v, Outside vs comp d ∧ w.Removed k d.id

/-- No component is held back for want of a dependency that was removed, and no message that can be
delivered is for an instance that was. -/
structure Invisible (w : World) : Prop where
  executor : ∀ k vs comp, ¬ w.HeldBack k vs comp
  step : ∀ k m, w.Enabled k (.step m) → ¬ w.Removed k m.id

end World

theorem allReady_ne {α : Type} {ready : α → Option Bool} : ∀ {xs : List α} {x : α}, x ∈ xs →
    ready x ≠ some true → allReady ready xs ≠ some true
  | y :: ys, x, hx, hr => by
    unfold allReady
    cases hy : ready y with
    | none => exact nofun
    | some b =>
      cases b with
      | false => exact nofun
      | true =>
        rcases List.mem_cons.1 hx with rfl | hx
        · exact absurd hy hr
        · exact allReady_ne hx hr

/-- `execute_scc` does not execute a component that is held back. -/
theorem World.HeldBack.not_ready {w : World} {k : ℕ} {vs : Vertices} {comp : List InstanceId}
    (h : w.HeldBack k vs comp) : sccReady (w.replica k) vs comp ≠ some true := by
  obtain ⟨v, hv, d, hd, ⟨he, hout⟩, -, hnone⟩ := h.gone
  refine allReady_ne hv (allReady_ne hd ?_)
  have hin : (vs.get d.id).any (fun v => decide (v ∈ comp)) = false := by
    cases hg : vs.get d.id with
    | none => rfl
    | some u => exact decide_eq_false (hout u hg)
  unfold depReady Replica.hasExecuted
  rw [if_neg he, if_neg (Bool.eq_false_iff.1 hin), hnone]
  split_ifs <;> exact nofun

/-- `step` takes up an instance that was removed as one never seen. -/
theorem World.Removed.copy {w : World} {k : ℕ} {id : InstanceId} (h : w.Removed k id) :
    (w.replica k).copy id = { newInstance id with timer := some .slowPath } := by
  unfold Replica.copy
  rw [h.2]
  rfl

/-- The handler calls `clear`. -/
def CallsClear (i : Instance) : Event → Prop
  | .step m => m.command = none ∧ i.ballot ≤ m.ballot
      ∧ ((m.type = .preAccept ∧ (i.status = .preAccepted ∨ i.status = .none))
        ∨ (m.type = .accept ∧ ¬ i.Decided))
  | _ => False

instance (i : Instance) (ev : Event) : Decidable (CallsClear i ev) := by
  unfold CallsClear
  exact match ev with
  | .propose _ | .checkpoint _ | .timeout _ _ | .step _ | .execute _ => inferInstance

/-- The index starts with two executed instances, of which `clear_index` removes the first. -/
def InstanceIndex.Clearable (index : InstanceIndex) : Prop :=
  (index.entries.reverse.map fun x => isState x.status [.executed]).take 2 = [true, true]

instance (index : InstanceIndex) : Decidable index.Clearable := inferInstanceAs (Decidable (_ = _))

/-- The handler calls `clear`, with an index that starts with two executed instances. -/
def Removes (r : Replica) (i : Instance) (ev : Event) : Prop :=
  CallsClear i ev ∧ ∃ k < N, ((r.put i).index k).Clearable

instance (r : Replica) (i : Instance) (ev : Event) : Decidable (Removes r i ev) :=
  inferInstanceAs (Decidable (_ ∧ _))

namespace InstanceIndex

variable {index : InstanceIndex}

theorem dropExecuted_of_not {xs : List Instance}
    (h : (xs.map fun x => isState x.status [.executed]).take 2 ≠ [true, true]) :
    dropExecuted xs = xs := by
  match xs with
  | [] => rfl
  | [_] => rfl
  | x :: y :: rest =>
    unfold dropExecuted
    rw [if_neg]
    rintro ⟨hx, hy⟩
    exact h (by simp [isState, hx, hy])

theorem clear_of_not (h : ¬ index.Clearable) : index.clear = index := by
  unfold clear
  congr 1
  rw [dropExecuted_of_not h, List.reverse_reverse]

/-- The smallest of the executed instances goes. -/
theorem Clearable.removes (h : index.Clearable) :
    ∃ x ∈ index.entries, x.status = .executed ∧ index.clear.find x.key.instanceId = none := by
  unfold Clearable at h
  rcases hx : index.entries.reverse with _ | ⟨x, _ | ⟨y, rest⟩⟩ <;> rw [hx] at h
  · exact absurd (congrArg List.length h) (by decide)
  · exact absurd (congrArg List.length h) (by simp)
  · simp only [List.map_cons, List.take_succ_cons, List.take_zero, List.cons.injEq, isState_iff,
      List.mem_singleton, and_true] at h
    refine ⟨x, List.mem_reverse.1 (hx ▸ List.mem_cons_self), h.1, ?_⟩
    by_contra hf
    obtain ⟨z, hz⟩ := Option.ne_none_iff_exists'.1 hf
    obtain ⟨hz, hzx⟩ := (index.clear.find_eq_some_iff _ _).1 hz
    have hmem : z ∈ y :: rest := by
      have hz := List.mem_reverse.1 hz
      rw [hx, dropExecuted, if_pos h] at hz
      exact (dropExecuted_sublist _).subset hz
    have hord := index.ordered
    rw [← List.reverse_reverse index.entries, hx, List.pairwise_reverse] at hord
    exact absurd hzx.symm (List.rel_of_pairwise_cons hord hmem).ne

/-- Two instances with one id and neither executed stand in each other's place. -/
theorem setEntry_executed {i j : Instance} (hk : i.key.instanceId = j.key.instanceId)
    (hi : i.status ≠ .executed) (hj : j.status ≠ .executed) : ∀ xs : List Instance,
    (setEntry i xs).map (fun x => isState x.status [.executed])
      = (setEntry j xs).map fun x => isState x.status [.executed]
  | [] => by simp [setEntry, isState, hi, hj]
  | x :: xs => by
    have ih := setEntry_executed hk hi hj xs
    unfold setEntry
    rw [hk]
    split_ifs
    · simp [isState, hi, hj]
    · simp [isState, hi, hj]
    · rw [List.map_cons, List.map_cons, ih]

theorem clearable_set {i j : Instance} (hk : i.key.instanceId = j.key.instanceId)
    (hi : i.status ≠ .executed) (hj : j.status ≠ .executed) :
    (index.set i).Clearable ↔ (index.set j).Clearable := by
  unfold Clearable set
  rw [List.map_reverse, List.map_reverse, setEntry_executed hk hi hj]

end InstanceIndex

section Cleared

variable {T : RangeTree} {r : Replica} {i : Instance} {m : Message} {lt : LeaderTracker}
  {e : Effect} {ev : Event}

theorem seqDepsLoop_isNone {ignore : Option InstanceId} : ∀ {xs : List Instance} {rt : T.Tree}
    {mseq : ℕ} {p : Probe} {q : ℕ × Option Command × Probe},
    seqDepsLoop T ignore xs rt mseq none p = some q → q.2.1 = none
  | [], _, _, _, _, h => by
    cases h
    rfl
  | ti :: rest, rt, mseq, p, q, h => by
    rw [seqDepsLoop] at h
    split_ifs at h
    · exact seqDepsLoop_isNone h
    · cases h
      rfl
    · split at h
      · cases h
      · exact seqDepsLoop_isNone h
      · split at h
        · rename_i hc
          cases hc
        · cases h

theorem sdLoop_isNone {ignore : Option InstanceId} {p : Probe} :
    ∀ {n : ℕ} {q : ℕ × Option Command × Probe},
    sdLoop T r ignore n none p = some q → q.2.1 = none
  | 0, _, h => by
    cases h
    rfl
  | n + 1, q, h => by
    rw [sdLoop] at h
    split at h
    · cases h
    · rename_i mseq c p' hq
      obtain ⟨q', hq', rfl⟩ := Option.map_eq_some_iff.1 h
      have hc : c = none := sdLoop_isNone hq
      show q'.2.1 = none
      exact seqDepsLoop_isNone (hc ▸ hq')

/-- `clear` is not called, and the executor only for an instance just committed. -/
def Effect.Kept (e : Effect) : Prop :=
  e.cleared = false ∧ (e.exec = true → e.inst.status = .committed)

theorem doCommit_kept (h : doCommit r i m = some e) : e.Kept := by
  obtain ⟨c, -, rfl⟩ := doCommit_eq h
  exact ⟨rfl, fun _ => rfl⟩

theorem restart_kept (h : restart T r i m = some e) : e.Kept := by
  obtain ⟨q, -, rfl⟩ := Option.map_eq_some_iff.1 h
  exact ⟨rfl, nofun⟩

theorem nackReply_kept : (nackReply r i lt m).Kept := by
  rcases nackReply_cases (r := r) (i := i) (m := m) lt with ⟨-, h⟩ | ⟨-, h⟩ <;> rw [h]
  · rw [recover_eq]
    exact ⟨rfl, nofun⟩
  · exact ⟨rfl, nofun⟩

theorem preAcceptOk_kept (h : preAcceptOk r i m = some e) : e.Kept := by
  rcases preAcceptOk_cases h with rfl | ⟨lt, -, -, -, ⟨-, -, -, hc⟩ | ⟨-, rfl⟩ | ⟨-, rfl⟩⟩
  · exact ⟨rfl, nofun⟩
  · exact doCommit_kept hc
  · exact ⟨rfl, nofun⟩
  · exact ⟨rfl, nofun⟩

theorem preAcceptReply_kept (h : preAcceptReply r i m = some e) : e.Kept := by
  rcases preAcceptReply_cases h with
    rfl | ⟨lt, -, -, -, ⟨-, rfl⟩ | ⟨-, ⟨-, -, -, -, hc⟩ | ⟨-, rfl⟩ | ⟨-, rfl⟩⟩⟩
  · exact ⟨rfl, nofun⟩
  · exact nackReply_kept
  · exact doCommit_kept hc
  · exact ⟨rfl, nofun⟩
  · exact ⟨rfl, nofun⟩

theorem acceptReply_kept (h : acceptReply r i m = some e) : e.Kept := by
  rcases acceptReply_cases h with rfl | ⟨lt, -, -, -, ⟨-, rfl⟩ | ⟨-, -, hc⟩ | ⟨-, rfl⟩⟩
  · exact ⟨rfl, nofun⟩
  · exact nackReply_kept
  · exact doCommit_kept hc
  · exact ⟨rfl, nofun⟩

theorem prepareReply_kept (h : prepareReply T r i m = some e) : e.Kept := by
  rcases prepareReply_cases h with
    rfl | ⟨lt, -, -, ⟨-, rfl⟩ | ⟨-, -, hc⟩ | ⟨-, -, -, rfl⟩ | ⟨-, -, hd⟩⟩
  · exact ⟨rfl, nofun⟩
  · exact ⟨rfl, nofun⟩
  · exact doCommit_kept hc
  · exact ⟨rfl, nofun⟩
  rcases decidePrepared_cases hd with
    ⟨-, rfl⟩ | ⟨-, rfl⟩ | ⟨-, -, -, -, conflict, c, -, h⟩ | ⟨-, -, -, h⟩
  · exact ⟨rfl, nofun⟩
  · exact ⟨rfl, nofun⟩
  · rcases h with ⟨-, -, -, h⟩ | ⟨-, -, -, rfl⟩ | ⟨-, rfl⟩
    · exact restart_kept h
    · exact ⟨rfl, nofun⟩
    · exact ⟨rfl, nofun⟩
  · exact restart_kept h

theorem tryPreAccept_kept (h : tryPreAccept T r i m = some e) : e.Kept := by
  rcases tryPreAccept_cases h with ⟨-, rfl⟩ | ⟨-, -, -, -, ⟨-, -, rfl⟩ | ⟨-, rfl⟩⟩ <;>
    exact ⟨rfl, nofun⟩

theorem deferConflict_kept {nq : ℕ} {ri : RecoveryInstance} {io : List Message}
    (h : deferConflict T r i lt nq ri m io = some e) : e.Kept := by
  unfold deferConflict at h
  obtain ⟨q, -, rfl⟩ := Option.map_eq_some_iff.1 h
  dsimp only
  split_ifs <;> exact ⟨rfl, nofun⟩

theorem tryPreAcceptReply_kept (h : tryPreAcceptReply T r i m = some e) : e.Kept := by
  rcases tryPreAcceptReply_cases h with rfl | ⟨lt, -, -, -, ⟨-, hc⟩ | ⟨-, rfl⟩ | ⟨-, rfl⟩⟩
  · exact ⟨rfl, nofun⟩
  · rcases tryNack_cases hc with ⟨-, rfl⟩ | ⟨-, ⟨q, rfl⟩ | ⟨nq, hd⟩ | ⟨-, q, nq, -, hd⟩⟩
    · exact ⟨rfl, nofun⟩
    · exact ⟨rfl, nofun⟩
    · exact deferConflict_kept hd
    · exact deferConflict_kept hd
  · exact ⟨rfl, nofun⟩
  · exact ⟨rfl, nofun⟩

theorem preAccept_clears (h : preAccept T r i m = some e) : e.cleared = true
    ↔ m.command = none ∧ i.ballot ≤ m.ballot ∧ (i.status = .preAccepted ∨ i.status = .none) := by
  have scanned : ∀ {s}, sdForCommand T r m.command (some i.key) ⟨0, i.deps⟩ = some s →
      (s.2.1.isNone = true ↔ m.command = none) := by
    intro s hs
    rw [Option.isNone_iff_eq_none]
    refine ⟨fun h => ?_, fun h => ?_⟩
    · by_contra hm
      exact sdLoop_isSome hm hs h
    · rw [h] at hs
      exact sdLoop_isNone hs
  rcases preAccept_cases h with ⟨hst, rfl⟩ | ⟨-, hb, rfl⟩ | ⟨hst, hb, s, hs, rfl | ⟨-, -, -, -, rfl⟩⟩
  · exact iff_of_false nofun fun h => hst h.2.2
  · exact iff_of_false nofun fun h => Nat.not_lt.2 h.2.1 hb
  · exact (scanned hs).trans ⟨fun h => ⟨h, hb, hst⟩, And.left⟩
  · exact (scanned hs).trans ⟨fun h => ⟨h, hb, hst⟩, And.left⟩

theorem accept_clears : (accept r i m).cleared = true
    ↔ m.command = none ∧ i.ballot ≤ m.ballot ∧ ¬ i.Decided := by
  rcases accept_cases r i m with ⟨hd, h⟩ | ⟨-, hb, h⟩ | ⟨hd, hb, h⟩ <;> rw [h]
  · exact iff_of_false nofun fun h => h.2.2 hd
  · exact iff_of_false nofun fun h => Nat.not_lt.2 h.2.1 hb
  · exact Option.isNone_iff_eq_none.trans ⟨fun h => ⟨h, hb, hd⟩, And.left⟩

theorem progress_clears (h : progress T r i m = some e) :
    e.cleared = true ↔ CallsClear i (.step m) := by
  have kept : e.cleared = false → m.type ≠ .preAccept → m.type ≠ .accept →
      (e.cleared = true ↔ CallsClear i (.step m)) := by
    intro hc hp ha
    rw [hc]
    refine iff_of_false (by rintro ⟨⟩) ?_
    rintro ⟨-, -, ⟨h, -⟩ | ⟨h, -⟩⟩
    · exact hp h
    · exact ha h
  unfold progress at h
  cases ht : m.type <;> rw [ht] at h kept <;> dsimp only at h
  case preAccept => simp [preAccept_clears h, CallsClear, ht]
  case accept =>
    cases h
    simp [accept_clears, CallsClear, ht]
  all_goals refine kept ?_ (by rintro ⟨⟩) (by rintro ⟨⟩)
  case phase1 => exact (restart_kept h).1
  case preAcceptOk => exact (preAcceptOk_kept h).1
  case preAcceptReply => exact (preAcceptReply_kept h).1
  case acceptReply => exact (acceptReply_kept h).1
  case prepareReply => exact (prepareReply_kept h).1
  case tryPreAccept => exact (tryPreAccept_kept h).1
  case tryPreAcceptReply => exact (tryPreAcceptReply_kept h).1
  case prepare =>
    cases h
    rcases prepare_cases r i m with ⟨-, h⟩ | ⟨-, h⟩ <;> rw [h] <;> rfl
  all_goals
    cases h
    rfl

/-- The executor is called for an instance just committed. -/
theorem progress_exec (h : progress T r i m = some e) (hx : e.exec = true) :
    e.inst.status = .committed := by
  unfold progress at h
  cases ht : m.type <;> rw [ht] at h <;> dsimp only at h
  case preAccept =>
    rcases preAccept_cases h with ⟨-, rfl⟩ | ⟨-, -, rfl⟩ | ⟨-, -, s, -, rfl | ⟨-, -, -, -, rfl⟩⟩ <;>
      cases hx
  case accept =>
    cases h
    rcases accept_cases r i m with ⟨-, h⟩ | ⟨-, -, h⟩ | ⟨-, -, h⟩ <;> rw [h] at hx <;> cases hx
  case phase1 => exact (restart_kept h).2 hx
  case preAcceptOk => exact (preAcceptOk_kept h).2 hx
  case preAcceptReply => exact (preAcceptReply_kept h).2 hx
  case acceptReply => exact (acceptReply_kept h).2 hx
  case prepareReply => exact (prepareReply_kept h).2 hx
  case tryPreAccept => exact (tryPreAccept_kept h).2 hx
  case tryPreAcceptReply => exact (tryPreAcceptReply_kept h).2 hx
  case prepare =>
    cases h
    rcases prepare_cases r i m with ⟨-, h⟩ | ⟨-, h⟩ <;> rw [h] at hx <;> cases hx
  case commit =>
    cases h
    rfl
  case execute =>
    cases h
    cases hx

/-- Only a message has the executor called, or `clear`. -/
theorem handle_other (h : r.handle T ev = .handled i e) (hev : ∀ m, ev ≠ .step m) :
    e.exec = false ∧ e.cleared = false := by
  cases ev with
  | step m => exact absurd rfl (hev m)
  | propose m =>
    unfold Replica.handle at h
    dsimp only at h
    split_ifs at h
    cases hc : restart T (r.put r.ownInstance) r.ownInstance m <;> rw [hc] at h <;> cases h
    obtain ⟨q, -, rfl⟩ := Option.map_eq_some_iff.1 hc
    exact ⟨rfl, rfl⟩
  | checkpoint m =>
    unfold Replica.handle at h
    dsimp only at h
    split_ifs at h
    cases hc : r.checkpointEffect r.ownInstance m <;> rw [hc] at h <;> cases h
    obtain ⟨deps, -, rfl⟩ := Option.map_eq_some_iff.1 hc
    exact ⟨rfl, rfl⟩
  | timeout id m =>
    obtain ⟨-, ⟨-, rfl⟩ | ⟨-, rfl⟩⟩ := timeout_cases h <;> exact ⟨rfl, rfl⟩
  | execute id =>
    unfold Replica.handle at h
    dsimp only at h
    split at h
    · cases h
    · split_ifs at h
      cases h
      exact ⟨rfl, rfl⟩

theorem handle_clears (h : r.handle T ev = .handled i e) : e.cleared = true ↔ CallsClear i ev := by
  cases ev with
  | step m => exact progress_clears (step_progress h).2
  | _ =>
    rw [(handle_other h (by rintro _ ⟨⟩)).2]
    exact iff_of_false Bool.false_ne_true id

end Cleared

/-- A run with the property in every state reached. -/
inductive Throughout (T : RangeTree) (P : World → Prop) : World → Prop
  | init (h : P .init) : Throughout T P .init
  | next {w w' : World} {k : ℕ} {ev : Event} (h : Throughout T P w) (hn : w.next T k ev = some w')
      (hp : P w') : Throughout T P w'

section World

variable {T : RangeTree} {w w' : World} {k : ℕ} {ev : Event}

theorem Throughout.run {P : World → Prop} (h : Throughout T P w) : Run T w := by
  induction h with
  | init => exact .init
  | next _ hn _ ih => exact .next ih hn

theorem mem_handed_apply {r : Replica} {e : Effect} {id : InstanceId}
    (h : id ∈ (r.apply e).handed) : (e.exec = true ∧ id = e.inst.key) ∨ id ∈ r.handed := by
  unfold Replica.apply at h
  have hc : (if e.cleared then (r.put e.inst).clear else r.put e.inst).handed = r.handed := by
    split_ifs <;> rfl
  simp only [hc] at h
  split_ifs at h with he
  · rcases List.mem_cons.1 h with rfl | h
    · exact .inl ⟨he, rfl⟩
    · exact .inr h
  · exact .inr h

/-- An instance handed to the executor was committed for a message that can come again. -/
theorem Run.handed_reaches (h : Run T w) : ∀ k, ∀ id ∈ (w.replica k).handed,
    ∃ m ∈ w.sent, m.id = id ∧ m.Reaches k := by
  induction h with
  | init => exact fun k id hid => absurd hid List.not_mem_nil
  | @next w w' j ev h hn ih =>
    obtain ⟨t, hlog, -, hev, ht, -⟩ := h.next_cases hn
    have lift : ∀ {k id}, (∃ m ∈ w.sent, m.id = id ∧ m.Reaches k) →
        ∃ m ∈ w'.sent, m.id = id ∧ m.Reaches k := by
      rintro k id ⟨m, hm, hid⟩
      obtain ⟨p, hp, hm⟩ := mem_sent.1 hm
      exact ⟨m, mem_sent.2 ⟨p, hlog ▸ List.mem_cons_of_mem t hp, hm⟩, hid⟩
    obtain ⟨-, hen, i, e, hh, rfl⟩ := next_eq hn
    cases hlog
    intro k id hid
    refine lift ?_
    by_cases hk : k = j
    · subst hk
      dsimp only at hid
      rw [Function.update_self] at hid
      rcases mem_handed_apply hid with ⟨hx, rfl⟩ | hid
      · cases ev with
        | step m => exact ⟨m, hen.1, (ht.key.trans (ht.step_key rfl).1).symm, hen.2⟩
        | _ =>
          rw [(handle_other hh (by rintro _ ⟨⟩)).1] at hx
          cases hx
      · exact ih k id hid
    · dsimp only at hid
      rw [Function.update_of_ne hk] at hid
      exact ih k id hid

/-- What was handed to the executor was committed. -/
theorem Run.handed_committed (h : Run T w) : ∀ k, ∀ id ∈ (w.replica k).handed,
    ∃ t ∈ w.log, t.who = k ∧ t.after.key = id ∧ t.after.status = .committed := by
  induction h with
  | init => exact fun k id hid => absurd hid List.not_mem_nil
  | @next w w' j ev h hn ih =>
    obtain ⟨-, -, i, e, hh, rfl⟩ := next_eq hn
    intro k id hid
    dsimp only at hid ⊢
    have lift : (∃ t ∈ w.log, t.who = k ∧ t.after.key = id ∧ t.after.status = .committed) →
        ∃ t ∈ (⟨j, ev, w.replica j, i, e.inst, e.io.map (envelope j)⟩ : Record) :: w.log,
          t.who = k ∧ t.after.key = id ∧ t.after.status = .committed := by
      rintro ⟨t, ht, h⟩
      exact ⟨t, List.mem_cons_of_mem _ ht, h⟩
    by_cases hk : k = j
    · subst hk
      rw [Function.update_self] at hid
      rcases mem_handed_apply hid with ⟨hx, rfl⟩ | hid
      · refine ⟨_, List.mem_cons_self, rfl, rfl, ?_⟩
        cases ev with
        | step m => exact progress_exec (step_progress hh).2 hx
        | _ =>
          rw [(handle_other hh (by rintro _ ⟨⟩)).1] at hx
          cases hx
      · exact lift (ih k id hid)
    · rw [Function.update_of_ne hk] at hid
      exact lift (ih k id hid)

/-- What a replica has handed to the executor when a record is added was committed by an earlier
one. -/
theorem Run.grown_handed (h : Run T w) : Log.Grown (fun older t => ∀ id ∈ t.pre.handed,
    ∃ p ∈ older, p.who = t.who ∧ p.after.key = id ∧ p.after.status = .committed) w.log := by
  induction h with
  | init => exact .nil
  | @next w w' j ev h hn ih =>
    obtain ⟨-, -, i, e, -, rfl⟩ := next_eq hn
    exact .cons ih (h.handed_committed j)

/-- Clearing is invisible as long as nothing has been removed. -/
theorem Run.invisible_iff (h : Run T w) : w.Invisible ↔ ∀ k id, ¬ w.Removed k id := by
  refine ⟨fun hi k id hr => ?_, fun hr => ⟨fun k vs comp hb => ?_, fun k m _ => hr k m.id⟩⟩
  · have hid : id ∈ (w.replica k).handed := by
      obtain ⟨⟨t, ht, hk, rfl⟩, hnone⟩ := hr
      exact h.grown.2.dropped k t ht hk hnone
    obtain ⟨m, hm, rfl, hreach⟩ := h.handed_reaches k id hid
    exact hi.step k m ⟨hm, hreach⟩ hr
  · obtain ⟨v, -, d, -, -, hd⟩ := hb.gone
    exact hr k d.id hd

/-- The index of a registered instance is that of one of the `N` replicas. -/
theorem Run.replicaId_lt (h : Run T w) {t : Record} (ht : t ∈ w.log) :
    t.after.key.replicaId < N := by
  obtain ⟨o, ho, -, hok, how⟩ := exists_assigns h.grown.1 ht
  obtain ⟨_, _, -, -, hoh⟩ := h.grown.1.of_mem ho
  exact how ▸ hoh.who_lt

theorem CallsClear.before {i : Instance} (h : CallsClear i ev) : i.status ≠ .executed := by
  cases ev with
  | step m =>
    rcases h.2.2 with ⟨-, h | h⟩ | ⟨-, h⟩
    · rw [h]
      exact nofun
    · rw [h]
      exact nofun
    · exact fun hs => h (.inr hs)
  | _ => exact h.elim

/-- The instance handled is not one that goes. -/
theorem CallsClear.unexecuted {r : Replica} {i i' : Instance} {io : List Message}
    (h : CallsClear i ev) (ha : Act T r i ev i' io) : i'.status ≠ .executed := by
  intro hs
  rcases ha.executed hs with hs | ⟨id, -, hev⟩
  · exact h.before hs
  · rw [hev] at h
    exact h

theorem CallsClear.after {older : List Record} {t : Record} (h : CallsClear t.before t.event)
    (ht : Happens T older t) : t.after.status ≠ .executed := by
  obtain ⟨io, ha, -⟩ := ht.acts
  exact h.unexecuted ha

/-- What `clear` does is the same before the handler has written the instance and after. -/
theorem clearable_put {r : Replica} {i j : Instance} (hk : i.key = j.key)
    (hi : i.status ≠ .executed) (hj : j.status ≠ .executed) (l : ℕ) :
    ((r.put i).index l).Clearable ↔ ((r.put j).index l).Clearable := by
  unfold Replica.put
  dsimp only
  rw [hk]
  by_cases hl : l = j.key.replicaId
  · rw [hl, Function.update_self, Function.update_self]
    exact InstanceIndex.clearable_set (congrArg _ hk) hi hj
  · rw [Function.update_of_ne hl, Function.update_of_ne hl]

theorem find_apply_of_cleared {r : Replica} {e : Effect} (h : e.cleared = true) (id : InstanceId) :
    (r.apply e).find id = (((r.put e.inst).index id.replicaId).clear).find id.instanceId := by
  unfold Replica.apply
  simp only [h, if_true]
  rfl

/-- `clear` removes nothing where no index starts with two executed instances. -/
theorem find_apply_of_kept_or {r : Replica} {e : Effect} {id : InstanceId}
    (h : e.cleared = true → ¬ ((r.put e.inst).index id.replicaId).Clearable) :
    (r.apply e).find id = (r.put e.inst).find id := by
  by_cases hc : e.cleared = true
  · rw [find_apply_of_cleared hc, InstanceIndex.clear_of_not (h hc)]
    rfl
  · rw [find_apply_of_kept (Bool.eq_false_iff.2 hc), Replica.find_put]

/-- What an event removes was executed before it. -/
theorem Run.removes (h : Run T w) (hn : w.next T k ev = some w') {t : Record}
    (ht : w'.log = t :: w.log) (hr : Removes t.pre t.before t.event) :
    ∃ id, w'.Removed k id := by
  have h' : Run T w' := .next h hn
  obtain ⟨-, -, i, e, hh, rfl⟩ := next_eq hn
  cases ht
  obtain ⟨hc, l, -, hl⟩ := hr
  have hx := h'.grown.1.head
  have he : e.inst.status ≠ .executed := hc.after hx
  obtain ⟨x, hmem, hxs, hnone⟩ := ((clearable_put hx.key.symm hc.before he l).1 hl).removes
  have hf : ((w.replica k).put e.inst).find ⟨l, x.key.instanceId⟩ = some x :=
    (InstanceIndex.find_eq_some_iff _ _ _).2 ⟨hmem, rfl⟩
  rw [Replica.find_put] at hf
  split_ifs at hf with hid
  · cases hf
    exact absurd hxs he
  obtain ⟨p, hp, hpk, hpid, -⟩ := (h.grown.2.last _ _ _ hf).exists_mem
  refine ⟨⟨l, x.key.instanceId⟩, ⟨p, List.mem_cons_of_mem _ hp, hpk, hpid⟩, ?_⟩
  dsimp only
  rw [Function.update_self, find_apply_of_cleared ((handle_clears hh).2 hc)]
  exact hnone

/-- An event that makes `clear` remove nothing leaves everything registered. -/
theorem Run.removed_before (h : Run T w) (hn : w.next T k ev = some w') {t : Record}
    (ht : w'.log = t :: w.log) (hr : ¬ Removes t.pre t.before t.event) {j : ℕ} {id : InstanceId}
    (hj : w'.Removed j id) : w.Removed j id := by
  have h' : Run T w' := .next h hn
  obtain ⟨hk, -, i, e, hh, rfl⟩ := next_eq hn
  cases ht
  obtain ⟨⟨p, hp, hpj, rfl⟩, hnone⟩ := hj
  have hN := h'.replicaId_lt hp
  dsimp only at hp hnone hr
  by_cases hjk : j = k
  · subst hjk
    have hx := h'.grown.1.head
    rw [Function.update_self, find_apply_of_kept_or, Replica.find_put] at hnone
    · split_ifs at hnone with hid
      rcases List.mem_cons.1 hp with rfl | hp
      · exact absurd rfl hid
      · exact ⟨⟨p, hp, hpj, rfl⟩, hnone⟩
    · intro hc hl
      have hc := (handle_clears hh).1 hc
      exact hr ⟨hc, _, hN, (clearable_put hx.key.symm hc.before (hc.after hx) _).2 hl⟩
  · rw [Function.update_of_ne hjk] at hnone
    rcases List.mem_cons.1 hp with rfl | hp
    · exact absurd hpj.symm hjk
    · exact ⟨⟨p, hp, hpj, rfl⟩, hnone⟩

/-- Clearing is invisible all through a run if and only if none of its events makes `clear` remove
an instance. -/
theorem clearing_invisible : Throughout T World.Invisible w
    ↔ Run T w ∧ ∀ t ∈ w.log, ¬ Removes t.pre t.before t.event := by
  constructor
  · intro h
    refine ⟨h.run, ?_⟩
    induction h with
    | init => exact fun t ht => absurd ht List.not_mem_nil
    | @next w w' k ev h hn hp ih =>
      obtain ⟨t, ht, -⟩ := h.run.next_cases hn
      rw [ht]
      refine List.forall_mem_cons.2 ⟨fun hr => ?_, ih⟩
      obtain ⟨id, hid⟩ := h.run.removes hn ht hr
      exact ((h.run.next hn).invisible_iff.1 hp) k id hid
  · rintro ⟨h, hlog⟩
    suffices hs : Throughout T World.Invisible w ∧ ∀ k id, ¬ w.Removed k id from hs.1
    induction h with
    | init =>
      have hr : ∀ k id, ¬ World.init.Removed k id := fun k id ⟨⟨t, ht, _⟩, _⟩ =>
        absurd ht List.not_mem_nil
      exact ⟨.init ((Run.init (T := T)).invisible_iff.2 hr), hr⟩
    | @next w w' k ev h hn ih =>
      obtain ⟨t, ht, -⟩ := h.next_cases hn
      rw [ht] at hlog
      obtain ⟨hr, hlog⟩ := List.forall_mem_cons.1 hlog
      obtain ⟨hth, hw⟩ := ih hlog
      have hw' : ∀ j id, ¬ w'.Removed j id := fun j id hj =>
        hw j id (h.removed_before hn ht hr hj)
      exact ⟨.next hth hn ((h.next hn).invisible_iff.2 hw'), hw'⟩

end World

/-- Two instances are executed at replica 1, a third is taken over by replica 2 as a no-op, whose
`ACCEPT` carries no command. -/
def sweep : List Move :=
  [proposeAt 0 [49] [50], deliverAt 2 .preAccept ⟨0, 1⟩, deliverAt 0 .preAcceptOk ⟨0, 1⟩,
    deliverAt 1 .commit ⟨0, 1⟩, (1, fun _ => .execute ⟨0, 1⟩),
    proposeAt 0 [51] [52], deliverAt 2 .preAccept ⟨0, 2⟩, deliverAt 0 .preAcceptOk ⟨0, 2⟩,
    deliverAt 1 .commit ⟨0, 2⟩, (1, fun _ => .execute ⟨0, 2⟩),
    proposeAt 0 [53] [54], timeoutAt 0 ⟨0, 3⟩, timeoutAt 0 ⟨0, 3⟩,
    deliverAt 2 .prepare ⟨0, 3⟩, timeoutAt 2 ⟨0, 3⟩, deliverAt 1 .prepare ⟨0, 3⟩,
    deliverAt 2 .prepareReply ⟨0, 3⟩, deliverAt 1 .accept ⟨0, 3⟩]

/-- The first `PRE_ACCEPT` comes to replica 1 only now, for an instance executed and removed. -/
theorem removed_met : ¬ ∀ w, Run listTree w → w.Invisible := by
  intro h
  obtain ⟨w, hw, ⟨m, hm, hid, hreach⟩, hlog, hnone⟩ := @exists_run sweep (fun w =>
    (∃ m ∈ w.sent, m.id = ⟨0, 1⟩ ∧ m.Reaches 1)
      ∧ (∃ t ∈ w.log, t.who = 1 ∧ t.after.key = ⟨0, 1⟩)
      ∧ ((w.replica 1).find ⟨0, 1⟩).isNone) _ (by decide +kernel)
  exact (h w hw).step 1 m ⟨hm, hreach⟩ (hid ▸ ⟨hlog, Option.isNone_iff_eq_none.1 hnone⟩)

end Epx
