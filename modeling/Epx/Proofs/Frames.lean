import Epx.Proofs.Clearing

/-!
# What a step leaves alone

A handler writes the instance of its message and nothing else in the indexes; the scans and the
search for a conflict only read there. `clear` takes out executed instances that have another
executed one after them, with nothing unexecuted up to that one.
-/

namespace Epx

variable {T : RangeTree} {r : Replica} {i : Instance} {m : Message} {e : Effect}

namespace InstanceIndex

/-- The executed instances that the index starts with, the smallest id first. -/
def leadingRun (index : InstanceIndex) : List Instance :=
  index.entries.reverse.takeWhile fun x => x.status = .executed

variable {index : InstanceIndex} {x : Instance}

/-- `clear_index` takes out the leading run but for its last. -/
theorem dropExecuted_append : ∀ xs : List Instance,
    (xs.takeWhile fun x => x.status = .executed).dropLast ++ dropExecuted xs = xs
  | [] => rfl
  | [x] => by
    by_cases hx : x.status = .executed <;> simp [dropExecuted, hx]
  | x :: y :: rest => by
    have ih := dropExecuted_append (y :: rest)
    by_cases hx : x.status = .executed
    · by_cases hy : y.status = .executed
      · simp only [List.takeWhile_cons, hx, hy, decide_true, if_true] at ih ⊢
        rw [List.dropLast_cons_cons, List.cons_append, dropExecuted, if_pos ⟨hx, hy⟩, ih]
      · simp [dropExecuted, hx, hy]
    · simp [dropExecuted, hx]

theorem mem_leadingRun_of_cleared (hx : index.find x.key.instanceId = some x)
    (hc : index.clear.find x.key.instanceId = none) : x ∈ index.leadingRun.dropLast := by
  have hmem : x ∈ index.entries.reverse := List.mem_reverse.2 ((index.find_eq_some_iff _ _).1 hx).1
  rw [← dropExecuted_append index.entries.reverse] at hmem
  refine (List.mem_append.1 hmem).resolve_right fun hdrop => ?_
  have hf : index.clear.find x.key.instanceId = some x :=
    (index.clear.find_eq_some_iff _ _).2 ⟨List.mem_reverse.2 hdrop, rfl⟩
  rw [hc] at hf
  cases hf

theorem leadingRun_ascending :
    index.leadingRun.Pairwise fun a b => a.key.instanceId < b.key.instanceId :=
  (List.pairwise_reverse.2 index.ordered).sublist (List.takeWhile_sublist _)

/-- An instance is in the leading run if everything up to it is executed. -/
theorem mem_leadingRun_iff : x ∈ index.leadingRun ↔ x ∈ index.entries
    ∧ ∀ z ∈ index.entries, z.key.instanceId ≤ x.key.instanceId → z.status = .executed := by
  have hsplit : index.leadingRun ++ index.entries.reverse.dropWhile (fun x => x.status = .executed)
      = index.entries.reverse := List.takeWhile_append_dropWhile
  have hhead := List.head?_dropWhile_not (fun x : Instance => decide (x.status = .executed))
    index.entries.reverse
  generalize (index.entries.reverse.dropWhile fun x => x.status = .executed) = rest
    at hsplit hhead
  have hord := List.pairwise_reverse.2 index.ordered
  rw [← hsplit, List.pairwise_append] at hord
  obtain ⟨-, hrest, hcross⟩ := hord
  have hmem : ∀ {z}, z ∈ index.entries ↔ z ∈ index.leadingRun ∨ z ∈ rest := by
    intro z
    rw [← List.mem_append, hsplit, List.mem_reverse]
  constructor
  · intro hx
    refine ⟨hmem.2 (.inl hx), fun z hz hle => ?_⟩
    rcases hmem.1 hz with hz | hz
    · simpa using List.mem_takeWhile_imp hz
    · exact absurd (hcross x hx z hz) (not_lt.2 hle)
  · rintro ⟨hx, hall⟩
    refine (hmem.1 hx).resolve_right fun hxr => ?_
    -- the first behind the run is not executed, and no larger than `x`
    rcases rest with _ | ⟨y, rest⟩
    · exact absurd hxr List.not_mem_nil
    have hy := hall y (hmem.2 (.inr List.mem_cons_self)) <| by
      rcases List.mem_cons.1 hxr with rfl | hxr
      · exact le_rfl
      · exact (List.rel_of_pairwise_cons hrest hxr).le
    simp [hy] at hhead

/-- The last of an ascending list is the one with nothing above it. -/
theorem mem_dropLast_iff {l : List Instance}
    (h : l.Pairwise fun a b => a.key.instanceId < b.key.instanceId) :
    x ∈ l.dropLast ↔ x ∈ l ∧ ∃ y ∈ l, x.key.instanceId < y.key.instanceId := by
  rcases l.eq_nil_or_concat with rfl | ⟨l, z, rfl⟩
  · simp
  rw [List.concat_eq_append, List.pairwise_append] at h
  obtain ⟨-, -, hz⟩ := h
  simp only [List.concat_eq_append, List.dropLast_concat, List.mem_append, List.mem_singleton]
  constructor
  · intro hx
    exact ⟨.inl hx, z, .inr rfl, hz x hx z (List.mem_singleton_self z)⟩
  · rintro ⟨hx | rfl, y, hy, hlt⟩
    · exact hx
    · rcases hy with hy | rfl
      · exact absurd (hz y hy x (List.mem_singleton_self x)) hlt.not_gt
      · exact absurd hlt (lt_irrefl _)

theorem mem_set_of_ne (hx : x ∈ index.entries) (hne : x.key.instanceId ≠ i.key.instanceId) :
    x ∈ (index.set i).entries := by
  have hf := index.find_set i x.key.instanceId
  rw [if_neg hne, (index.find_eq_some_iff _ _).2 ⟨hx, rfl⟩] at hf
  exact (((index.set i).find_eq_some_iff _ _).1 hf).1

theorem self_mem_set (i : Instance) : i ∈ (index.set i).entries := by
  have hf := index.find_set i i.key.instanceId
  rw [if_pos rfl] at hf
  exact (((index.set i).find_eq_some_iff _ _).1 hf).1

/-- An instance that is not executed lengthens no leading run. -/
theorem mem_leadingRun_of_set (hi : i.status ≠ .executed) (h : x ∈ (index.set i).leadingRun) :
    x ∈ index.leadingRun := by
  obtain ⟨hx, hall⟩ := mem_leadingRun_iff.1 h
  have hlt : x.key.instanceId < i.key.instanceId :=
    not_le.1 fun hle => hi (hall i (self_mem_set i) hle)
  refine mem_leadingRun_iff.2 ⟨(mem_setEntry hx).resolve_left ?_, fun z hz hle => ?_⟩
  · rintro rfl
    exact lt_irrefl _ hlt
  · exact hall z (mem_set_of_ne hz (by omega)) hle

theorem mem_dropLast_of_set (hi : i.status ≠ .executed)
    (h : x ∈ (index.set i).leadingRun.dropLast) : x ∈ index.leadingRun.dropLast := by
  obtain ⟨hx, y, hy, hlt⟩ := (mem_dropLast_iff leadingRun_ascending).1 h
  exact (mem_dropLast_iff leadingRun_ascending).2
    ⟨mem_leadingRun_of_set hi hx, y, mem_leadingRun_of_set hi hy, hlt⟩

end InstanceIndex

/-- What the replica `r'` has registered is what `r` has, and `id` at most, but for executed instances
of the leading runs, the last of a run apart. Under an id other than `id` it has the instance that
`r` has. -/
structure Framed (r r' : Replica) (id : InstanceId) : Prop where
  added : ∀ j, r'.find j ≠ none → r.find j ≠ none ∨ j = id
  removed : ∀ j x, r.find j = some x → r'.find j = none →
    x.status = .executed ∧ x ∈ (r.index j.replicaId).leadingRun.dropLast
  kept : ∀ j x x', r.find j = some x → r'.find j = some x' → j ≠ id → x' = x

/-- `step`: the replica and the answer, -1 before anything is looked up. -/
def Replica.step (T : RangeTree) (r : Replica) (m : Message) : Option (Replica × ℤ) :=
  match r.handle T (.step m) with
  | .undefined => none
  | .rejected => some (r, -1)
  | .handled _ e => some (r.apply e, 0)

section Step

theorem progress_key (h : progress T (r.put i) i m = some e) (hm : i.key = m.id) :
    e.inst.key = m.id := by
  by_cases ht : m.type = .phase1
  · unfold progress at h
    rw [ht] at h
    obtain ⟨j, lt, s, hj, -, -, rfl⟩ := restart_eq h
    exact hm
  · exact (progress_act ht h).key.trans hm

theorem find_put_of_ne {j : InstanceId} (h : j ≠ i.key) : (r.put i).find j = r.find j := by
  rw [Replica.find_put, if_neg h]

/-- What `clear` takes out once `i`, not executed, has been written. -/
theorem mem_leadingRun_of_put {x : Instance} {j : InstanceId} (hi : i.status ≠ .executed)
    (hx : (r.put i).find j = some x) (hc : ((r.put i).index j.replicaId).clear.find j.instanceId
      = none) : x ∈ (r.index j.replicaId).leadingRun.dropLast := by
  have hid : x.key.instanceId = j.instanceId := ((InstanceIndex.find_eq_some_iff _ _ _).1 hx).2
  rw [← hid] at hc
  have hmem := InstanceIndex.mem_leadingRun_of_cleared (hid ▸ hx) hc
  by_cases hk : j.replicaId = i.key.replicaId
  · rw [hk] at hmem ⊢
    rw [Replica.put] at hmem
    dsimp only at hmem
    rw [Function.update_self] at hmem
    exact InstanceIndex.mem_dropLast_of_set hi hmem
  · rw [Replica.put] at hmem
    dsimp only at hmem
    rwa [Function.update_of_ne hk] at hmem

/-- What an effect removes goes by `clear`. -/
theorem removed_leading {x : Instance} {j : InstanceId}
    (hi : e.cleared = true → e.inst.status ≠ .executed) (hx : r.find j = some x)
    (hn : (r.apply e).find j = none) :
    x.status = .executed ∧ x ∈ (r.index j.replicaId).leadingRun.dropLast := by
  by_cases hc : e.cleared = true
  · rcases find_apply_none hn with ⟨-, hnone⟩ | ⟨y, hy, ⟨-, rfl⟩ | ⟨hne, hf⟩⟩
    · rw [hx] at hnone
      cases hnone
    · exact absurd hy (hi hc)
    · cases hx.symm.trans hf
      exact ⟨hy, mem_leadingRun_of_put (hi hc) ((find_put_of_ne hne).trans hx)
        ((find_apply_of_cleared hc j).symm.trans hn)⟩
  · rw [find_apply_of_kept (Bool.eq_false_iff.2 hc)] at hn
    split_ifs at hn
    rw [hx] at hn
    cases hn

theorem handled_framed (hk : ∀ j x, r.find j = some x → x.key = j)
    (h : r.handle T (.step m) = .handled i e) : Framed r (r.apply e) m.id := by
  obtain ⟨⟨hi, -, -⟩, hp⟩ := step_progress h
  have hkey : i.key = m.id := by
    rw [hi, Replica.copy]
    cases hf : r.find m.id with
    | none => rfl
    | some x => exact hk m.id x hf
  have hown := progress_key hp hkey
  have hclear : e.cleared = true → e.inst.status ≠ .executed := by
    intro hc
    have hcalls := (handle_clears h).1 hc
    refine hcalls.unexecuted (progress_act (fun ht => ?_) hp)
    rcases hcalls.2.2 with ⟨ht', -⟩ | ⟨ht', -⟩ <;> rw [ht] at ht' <;> cases ht'
  refine ⟨fun j hj => ?_, fun j x hx hn => removed_leading hclear hx hn, fun j x x' hx hx' hj => ?_⟩
  · obtain ⟨x, hx⟩ := Option.ne_none_iff_exists'.1 hj
    rcases find_apply hx with ⟨hid, -⟩ | ⟨-, hf⟩
    · exact .inr (hid.trans hown)
    · exact .inl (by rw [hf]; exact Option.some_ne_none x)
  · rcases find_apply hx' with ⟨hid, -⟩ | ⟨-, hf⟩
    · exact absurd (hid.trans hown) hj
    · exact Option.some.inj (hf.symm.trans hx)

end Step

/-- In every reachable state, a step that answers -1 leaves the replica as it was, and any other
leaves the instances other than the message's as they were, but for executed ones that `clear` takes
out. -/
theorem step_frame {w : World} {k : ℕ} {r' : Replica} {a : ℤ} (h : Run T w)
    (hs : (w.replica k).step T m = some (r', a)) :
    (a = -1 → r' = w.replica k) ∧ (a ≠ -1 → Framed (w.replica k) r' m.id) := by
  unfold Replica.step at hs
  split at hs
  · cases hs
  · cases hs
    exact ⟨fun _ => rfl, fun ha => absurd rfl ha⟩
  · rename_i i e hh
    cases hs
    exact ⟨fun ha => absurd ha (by decide), fun _ => handled_framed (fun _ _ => h.key) hh⟩

/-- An `ACCEPT` of a no-op. -/
def noopAccept : Message := { zeroMessage with type := .accept, id := ⟨0, 3⟩ }

/-- The first ten moves of `sweep` leave replica 1 with two executed instances, and the no-op has
the first of them removed. -/
theorem step_frame_sweep : ∃ w r', Run listTree w
    ∧ (w.replica 1).step listTree noopAccept = some (r', 0)
    ∧ (w.replica 1).find ⟨0, 1⟩ ≠ none ∧ r'.find ⟨0, 1⟩ = none
    ∧ Framed (w.replica 1) r' ⟨0, 3⟩ := by
  obtain ⟨w, hw, hs, hfind⟩ := @exists_run (sweep.take 10) (fun w =>
    ((w.replica 1).step listTree noopAccept).any
        (fun p => p.2 = 0 ∧ (p.1.find ⟨0, 1⟩).isNone) = true
      ∧ ((w.replica 1).find ⟨0, 1⟩).isSome = true) _ (by decide +kernel)
  obtain ⟨⟨r', a⟩, hs, hp⟩ := (Option.any_eq_true _ _).1 hs
  simp only [decide_eq_true_eq] at hp
  obtain ⟨rfl, hnone⟩ := hp
  exact ⟨w, r', hw, hs, Option.isSome_iff_ne_none.1 hfind, Option.isNone_iff_eq_none.1 hnone,
    (step_frame hw hs).2 (by decide)⟩

end Epx
