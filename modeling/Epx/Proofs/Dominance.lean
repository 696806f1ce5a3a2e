import Epx.Proofs.Handlers
import Epx.Proofs.Misses
import Epx.Proofs.Schedules

/-!
# The seq of an instance is above its dependencies

Whatever the span tree answers, a scan adds registered instances only, none of them the one to ignore
or executed, and the seq it returns has been raised to that of each. Past the additions of an index
the seq of the scan only grows, so the bound holds wherever a walk ends.
-/

namespace Epx

variable {T : RangeTree} {r : Replica} {i : Instance} {m : Message} {ignore : Option InstanceId}

/-- The scan `q` that started from the probe `p` made its additions, in turn, and each is of a
registered instance, neither ignored nor executed, with a seq no larger than the one returned. -/
structure Dominated (r : Replica) (ignore : Option InstanceId) (p : Probe)
    (q : ℕ × Option Command × Probe) (adds : List Instance) : Prop where
  probe : q.2.2 = adds.foldl Probe.add p
  new : ∀ id, q.2.2.deps.Has id → p.deps.Has id ∨ ∃ ti ∈ adds, ti.key = id
  registered : ∀ ti ∈ adds, ∃ k < N, ti ∈ (r.index k).entries
  sound : ∀ ti ∈ adds, ignore ≠ some ti.key ∧ ti.status ≠ .executed
  seq : ∀ ti ∈ adds, ti.seq ≤ q.1

section Scan

/-- The walk of an index makes its additions, and none of an entry with a seq above its own. -/
structure WalkAdds (ignore : Option InstanceId) (xs adds : List Instance) (mseq : ℕ) (p : Probe)
    (q : ℕ × Option Command × Probe) : Prop where
  probe : q.2.2 = adds.foldl Probe.add p
  grows : mseq ≤ q.1
  sound : ∀ ti ∈ adds, ti ∈ xs ∧ (ignore ≠ some ti.key ∧ ti.status ≠ .executed) ∧ ti.seq ≤ q.1

variable {ti : Instance} {xs adds : List Instance} {mseq : ℕ} {p : Probe}
  {q : ℕ × Option Command × Probe}

theorem WalkAdds.nil (cmd : Option Command) : WalkAdds ignore xs [] mseq p (mseq, cmd, p) :=
  ⟨rfl, le_rfl, fun _ h => absurd h List.not_mem_nil⟩

theorem WalkAdds.skip (h : WalkAdds ignore xs adds mseq p q) {n : ℕ} (hn : n ≤ mseq) :
    WalkAdds ignore (ti :: xs) adds n p q where
  probe := h.probe
  grows := hn.trans h.grows
  sound x hx := ⟨List.mem_cons_of_mem _ (h.sound x hx).1, (h.sound x hx).2⟩

theorem WalkAdds.cons (hi : ignore ≠ some ti.key) (he : ti.status ≠ .executed)
    (h : WalkAdds ignore xs adds (max mseq ti.seq) (p.add ti) q) :
    WalkAdds ignore (ti :: xs) (ti :: adds) mseq p q where
  probe := h.probe
  grows := (le_max_left _ _).trans h.grows
  sound := List.forall_mem_cons.2
    ⟨⟨List.mem_cons_self, ⟨hi, he⟩, (le_max_right _ _).trans h.grows⟩,
      fun x hx => ⟨List.mem_cons_of_mem _ (h.sound x hx).1, (h.sound x hx).2⟩⟩

/-- The seq is raised at each addition, and taken back by no exit. -/
theorem seqDepsLoop_walkAdds : ∀ {xs : List Instance} {rt : T.Tree} {mseq : ℕ}
    {cmd : Option Command} {p : Probe} {q : ℕ × Option Command × Probe},
    seqDepsLoop T ignore xs rt mseq cmd p = some q →
      WalkAdds ignore xs (addsLoop T ignore xs rt cmd) mseq p q
  | [], _, _, cmd, _, _, h => by
    cases h
    exact .nil cmd
  | ti :: rest, rt, mseq, cmd, p, q, h => by
    rw [seqDepsLoop] at h
    rw [addsLoop]
    split_ifs at h ⊢ with hi he
    · exact (seqDepsLoop_walkAdds h).skip le_rfl
    · cases h
      exact .nil cmd
    have he : ti.status ≠ .executed := fun hs => he (by simp [isState, hs])
    rcases hin : interferes ti.command cmd with _ | _ | ⟨s, ss⟩ <;> rw [hin] at h
    · cases h
    · exact (seqDepsLoop_walkAdds h).skip le_rfl
    dsimp only at h ⊢
    cases htc : ti.command with
    | none =>
      rw [htc] at h
      cases h
    | some tc =>
      cases cmd with
      | none =>
        rw [htc] at h
        cases h
      | some c =>
        rw [htc] at h
        dsimp only at h ⊢
        by_cases hw : tc.writing = .write
        · rw [if_pos hw] at h ⊢
          generalize spanLoop T rt ((s :: ss).take tc.spans.length) c.spans = l at h ⊢
          obtain ⟨rt', spans, add, covered⟩ := l
          cases covered with
          | true =>
            cases h
            cases add with
            | true => exact .cons hi he (.nil _)
            | false => exact (WalkAdds.nil _).skip (le_max_left _ _)
          | false =>
            cases add with
            | true => exact .cons hi he (seqDepsLoop_walkAdds h)
            | false => exact (seqDepsLoop_walkAdds h).skip (le_max_left _ _)
        · rw [if_neg hw] at h ⊢
          split_ifs at h ⊢
          · exact .cons hi he (seqDepsLoop_walkAdds h)
          · exact (seqDepsLoop_walkAdds h).skip (le_max_left _ _)

/-- The additions of the first `n` walks. -/
theorem sdLoop_walkAdds {cmd : Option Command} : ∀ {n : ℕ} {q : ℕ × Option Command × Probe},
    sdLoop T r ignore n cmd p = some q →
      q.2.2 = (scanAdds T r ignore cmd p n).foldl Probe.add p
        ∧ ∀ ti ∈ scanAdds T r ignore cmd p n, (∃ k < n, ti ∈ (r.index k).entries)
          ∧ (ignore ≠ some ti.key ∧ ti.status ≠ .executed) ∧ ti.seq ≤ q.1
  | 0, _, h => by
    cases h
    exact ⟨rfl, fun _ h => absurd h List.not_mem_nil⟩
  | n + 1, q, h => by
    rw [sdLoop] at h
    split at h
    · cases h
    rename_i mseq c p' hq
    obtain ⟨q', hq', rfl⟩ := Option.map_eq_some_iff.1 h
    obtain ⟨hprobe, hadds⟩ := sdLoop_walkAdds hq
    have hwalk := seqDepsLoop_walkAdds hq'
    have hn : scanAdds T r ignore cmd p (n + 1) = scanAdds T r ignore cmd p n
        ++ addsLoop T ignore (r.index n).entries T.init c := by
      unfold scanAdds
      rw [List.range_succ, List.flatMap_append, List.flatMap_singleton, indexAdds, hq]
    rw [hn]
    refine ⟨?_, fun ti hti => ?_⟩
    · rw [List.foldl_append, ← hprobe]
      exact hwalk.probe
    · rcases List.mem_append.1 hti with hti | hti
      · obtain ⟨⟨k, hk, hm⟩, hs, hle⟩ := hadds ti hti
        exact ⟨⟨k, by omega, hm⟩, hs, hle.trans (le_max_left _ _)⟩
      · obtain ⟨hm, hs, hle⟩ := hwalk.sound ti hti
        exact ⟨⟨n, n.lt_succ_self, hm⟩, hs, hle.trans (le_max_right _ _)⟩

/-- Additions put in the ids of the instances added, and no others. -/
theorem has_foldl_add {id : InstanceId} : ∀ {adds : List Instance} {p : Probe},
    (adds.foldl Probe.add p).deps.Has id → p.deps.Has id ∨ ∃ ti ∈ adds, ti.key = id
  | [], _, h => .inl h
  | x :: adds, p, h => by
    have h : (adds.foldl Probe.add (p.add x)).deps.Has id := h
    rcases has_foldl_add h with h | ⟨ti, hti, hid⟩
    · refine (Deps.has_update h).imp_right fun ⟨_, hid⟩ => ?_
      exact ⟨x, List.mem_cons_self, hid.symm⟩
    · exact .inr ⟨ti, List.mem_cons_of_mem _ hti, hid⟩

theorem sdForCommand_dominated {cmd : Option Command}
    (h : sdForCommand T r cmd ignore p = some q) :
    Dominated r ignore p q (scanAdds T r ignore cmd p N) := by
  obtain ⟨hprobe, hadds⟩ := sdLoop_walkAdds h
  exact ⟨hprobe, fun id hid => has_foldl_add (hprobe ▸ hid), fun ti hti => (hadds ti hti).1,
    fun ti hti => (hadds ti hti).2.1, fun ti hti => (hadds ti hti).2.2⟩

/-- With no registered seq the largest `uint64_t`, the next seq is above those of the additions. -/
theorem Dominated.lt_succ {cmd : Option Command} (h : sdForCommand T r cmd ignore p = some q)
    (hmax : ∀ k < N, ∀ x ∈ (r.index k).entries, ignore ≠ some x.key → x.seq < 2 ^ 64 - 1) :
    ∀ ti ∈ scanAdds T r ignore cmd p N, ti.seq < u64 (q.1 + 1) := by
  have hq : q.1 < 2 ^ 64 - 1 := by
    refine sdLoop_bound (P := fun n _ => n < 2 ^ 64 - 1) (fun k hk x hx hi _ n _ hn => ?_) h
      (by norm_num)
    exact ⟨max_lt hn (hmax k hk x hx hi), max_lt hn (hmax k hk x hx hi)⟩
  intro ti hti
  have hle := (sdForCommand_dominated h).seq ti hti
  unfold u64
  rw [Nat.mod_eq_of_lt (by omega)]
  omega

end Scan

/-- No registered instance has the largest seq there is. -/
def Replica.SeqsBounded (r : Replica) : Prop :=
  ∀ k < N, ∀ x ∈ (r.index k).entries, x.seq < 2 ^ 64 - 1

/-- The replica as `phase1` has it when it scans: `i` is reset. -/
def Replica.resetAt (r : Replica) (i : Instance) : Replica :=
  r.put { instanceReset i with timer := none }

theorem phase1_dominates {q : Instance × Message} (hmax : r.SeqsBounded)
    (h : phase1 T r i m = some q) :
    ∀ ti ∈ scanAdds T (r.resetAt i) (some i.key) m.command ⟨0, .zero⟩ N, ti.seq < q.1.seq := by
  unfold phase1 at h
  dsimp only at h
  split at h
  · rename_i mseq command p lt hs hlt
    cases h
    refine Dominated.lt_succ hs fun k hk x hx hne => ?_
    rcases Replica.mem_put hx with rfl | hx
    · exact absurd rfl hne
    · exact hmax k hk x hx
  · cases h

theorem preAccept_dominates {e : Effect} (hmax : r.SeqsBounded)
    (hst : i.status = .preAccepted ∨ i.status = .none) (hb : i.ballot ≤ m.ballot)
    (h : preAccept T r i m = some e) :
    ∀ ti ∈ scanAdds T r (some i.key) m.command ⟨0, i.deps⟩ N, ti.seq < e.inst.seq := by
  rcases preAccept_cases h with ⟨hn, -⟩ | ⟨-, hlt, -⟩ | ⟨-, -, s, hs, he⟩
  · exact absurd hst hn
  · omega
  have hseq : e.inst.seq = max m.seq (u64 (s.1 + 1)) := by
    rcases he with rfl | ⟨-, -, -, -, rfl⟩ <;> rfl
  intro ti hti
  rw [hseq]
  exact (Dominated.lt_succ hs (fun k hk x hx _ => hmax k hk x hx) ti hti).trans_le
    (le_max_right _ _)

/-- Every scan finds registered instances that are neither executed nor the one to ignore and
returns a seq no smaller than theirs, so that `phase1` and `pre_accept` store a larger one. -/
theorem deps_dominated :
    (∀ ignore cmd p q, sdForCommand T r cmd ignore p = some q →
      Dominated r ignore p q (scanAdds T r ignore cmd p N))
    ∧ (r.SeqsBounded → ∀ i m,
      (∀ q, phase1 T r i m = some q →
        ∀ ti ∈ scanAdds T (r.resetAt i) (some i.key) m.command ⟨0, .zero⟩ N, ti.seq < q.1.seq)
      ∧ ∀ e, (i.status = .preAccepted ∨ i.status = .none) → i.ballot ≤ m.ballot →
        preAccept T r i m = some e →
          ∀ ti ∈ scanAdds T r (some i.key) m.command ⟨0, i.deps⟩ N, ti.seq < e.inst.seq) :=
  ⟨fun _ _ _ _ h => sdForCommand_dominated h, fun hmax _ _ =>
    ⟨fun _ h => phase1_dominates hmax h, fun _ hst hb h => preAccept_dominates hmax hst hb h⟩⟩

instance (r : Replica) : Decidable r.SeqsBounded :=
  inferInstanceAs (Decidable (∀ k < N, ∀ x ∈ (r.index k).entries, x.seq < 2 ^ 64 - 1))

/-- Another replica's write of the key that replica 0 has proposed to write. -/
def rival : Instance := { newInstance ⟨1, 1⟩ with lt := some newTracker }

theorem deps_dominated_rival : ∃ w, Run listTree w
    ∧ (∃ q, sdForCommand listTree (w.replica 0) (some (writeOf [97] [97])) (some rival.key)
        ⟨0, .zero⟩ = some q
      ∧ Dominated (w.replica 0) (some rival.key) ⟨0, .zero⟩ q
        (scanAdds listTree (w.replica 0) (some rival.key) (some (writeOf [97] [97])) ⟨0, .zero⟩ N))
    ∧ (scanAdds listTree ((w.replica 0).resetAt rival) (some rival.key)
        (some (writeOf [97] [97])) ⟨0, .zero⟩ N).map Instance.key = [⟨0, 1⟩]
    ∧ (∃ q, phase1 listTree (w.replica 0) rival (request (writeOf [97] [97])) = some q
      ∧ ∀ ti ∈ scanAdds listTree ((w.replica 0).resetAt rival) (some rival.key)
        (some (writeOf [97] [97])) ⟨0, .zero⟩ N, ti.seq < q.1.seq)
    ∧ ∃ e, preAccept listTree (w.replica 0) rival (request (writeOf [97] [97])) = some e
      ∧ ∀ ti ∈ scanAdds listTree (w.replica 0) (some rival.key) (some (writeOf [97] [97]))
        ⟨0, .zero⟩ N, ti.seq < e.inst.seq := by
  obtain ⟨w, hr, hs, hadds, hp, hpa, hmax⟩ := @exists_run [proposeAt 0 [97] [97]] (fun w =>
    (sdForCommand listTree (w.replica 0) (some (writeOf [97] [97])) (some rival.key)
        ⟨0, .zero⟩).isSome = true
      ∧ (scanAdds listTree ((w.replica 0).resetAt rival) (some rival.key)
          (some (writeOf [97] [97])) ⟨0, .zero⟩ N).map Instance.key = [⟨0, 1⟩]
      ∧ (phase1 listTree (w.replica 0) rival (request (writeOf [97] [97]))).isSome = true
      ∧ (preAccept listTree (w.replica 0) rival (request (writeOf [97] [97]))).isSome = true
      ∧ (w.replica 0).SeqsBounded) _ (by decide +kernel)
  obtain ⟨s, hs⟩ := Option.isSome_iff_exists.1 hs
  obtain ⟨q, hq⟩ := Option.isSome_iff_exists.1 hp
  obtain ⟨e, he⟩ := Option.isSome_iff_exists.1 hpa
  obtain ⟨hscan, hstored⟩ := @deps_dominated listTree (w.replica 0)
  obtain ⟨hp1, hpre⟩ := hstored hmax rival (request (writeOf [97] [97]))
  exact ⟨w, hr, ⟨s, hs, hscan _ _ _ _ hs⟩, hadds, ⟨q, hq, hp1 q hq⟩, e, he,
    hpre e (.inr rfl) (Nat.zero_le _) he⟩

end Epx
