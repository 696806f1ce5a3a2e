import Epx.Proofs.Dominance

/-!
# When PRE_ACCEPT_OK is agreement

`pre_accept` starts from the dependencies of its own copy and adds what its scan finds. Those of the
message it does not look at, so they are stored where the replica knows of them anyway, and the
answer is right where the replica would have changed nothing of its own.
-/

namespace Epx

variable {T : RangeTree} {r : Replica} {i : Instance} {m : Message} {e : Effect}

/-- The dependency is in the array, or the array is full of ones no older. -/
def Deps.Keeps (deps : Deps) (id : InstanceId) : Prop :=
  deps.Has id
    ∨ (deps.entries.length = maxDeps ∧ ∀ d ∈ deps.entries, id.instanceId ≤ d.id.instanceId)

instance (deps : Deps) (id : InstanceId) : Decidable (deps.Keeps id) :=
  inferInstanceAs (Decidable (_ ∨ _))

/-- The effect of `pre_accept` agrees with the message: it keeps the message's dependencies and a
seq no smaller, and where it answers `PRE_ACCEPT_OK` or marks them equal they are the message's. -/
structure Agreement (m : Message) (e : Effect) : Prop where
  included : ∀ d ∈ m.deps.entries, e.inst.deps.Keeps d.id
  seq : m.seq ≤ e.inst.seq
  equal : (∃ a ∈ e.io, a.type = .preAcceptOk) ∨ e.inst.status = .preAcceptedEq →
    e.inst.seq = m.seq ∧ e.inst.deps.SameIds m.deps

section Known

variable (T r i m)

/-- The instances that the scan of `pre_accept` finds. -/
def found : List Instance := scanAdds T r (some i.key) m.command ⟨0, i.deps⟩ N

/-- The copy depends on the instance, or the scan finds it. -/
def Knows (id : InstanceId) : Prop := i.deps.Has id ∨ ∃ ti ∈ found T r i m, ti.key = id

/-- Every dependency of the message is known, or as many that are no older as an array holds. -/
def KnowsDeps : Prop :=
  ∀ d ∈ m.deps.entries, Knows T r i m d.id ∨ ∃ ids : List InstanceId, ids.Nodup
    ∧ ids.length = maxDeps
    ∧ ∀ id ∈ ids, Knows T r i m id ∧ d.id.instanceId ≤ id.instanceId

/-- If nothing that the scan finds changes the copy's dependencies, they are the message's and the
seq found is smaller. -/
def MatchesAlready : Prop :=
  (∀ ti ∈ found T r i m, (addDep i.deps ti).2 = 0) → i.deps.SameIds m.deps
    ∧ ∀ q, sdForCommand T r m.command (some i.key) ⟨0, i.deps⟩ = some q → u64 (q.1 + 1) ≤ m.seq

end Known

/-- The array takes the instance in without pushing an entry out while it has an empty slot. -/
def Deps.Fits (deps : Deps) (ti : Instance) : Prop :=
  deps.Has ti.key ∨ (∀ d ∈ deps.entries, ti.key.instanceId ≤ d.id.instanceId)
    ∨ deps.entries.length = maxDeps

/-- The instances are taken in one after the other, each so. -/
def Deps.FitsAll : Deps → List Instance → Prop
  | _, [] => True
  | deps, ti :: adds => deps.Fits ti ∧ (addDep deps ti).1.FitsAll adds

section Keeping

variable {deps : Deps} {ti : Instance} {id : InstanceId} {adds : List Instance} {p : Probe}

theorem Deps.Keeps.congr {a b : Deps} (h : a.Keeps id)
    (he : b.entries.map Dependency.id = a.entries.map Dependency.id) : b.Keeps id := by
  unfold Deps.Keeps at h ⊢
  rw [Deps.has_iff] at h ⊢
  rw [he]
  refine h.imp_right fun ⟨hlen, hle⟩ => ⟨?_, fun d hd => ?_⟩
  · rw [← hlen, ← List.length_map (f := Dependency.id), he, List.length_map]
  · have hd : d.id ∈ a.entries.map Dependency.id := he ▸ List.mem_map_of_mem hd
    obtain ⟨x, hx, hid⟩ := List.mem_map.1 hd
    exact hid ▸ hle x hx

/-- A new entry in front of smaller ones takes the last one's place. -/
theorem Deps.Keeps.push {hi lo : List Dependency} {x d : Dependency} {a b : Deps}
    (h : a.Keeps id) (hfull : a.entries.length = maxDeps) (ha : a.entries = hi ++ x :: lo)
    (hd : x.id.instanceId < d.id.instanceId)
    (hb : b.entries = hi ++ d :: (x :: lo).dropLast) : b.Keeps id := by
  have hne : (x :: lo) ≠ [] := List.cons_ne_nil x lo
  have hlen : b.entries.length = maxDeps := by
    rw [← hfull, ha, hb]
    simp
  have hsub : ∀ y ∈ b.entries, y = d ∨ y ∈ a.entries := by
    intro y hy
    rw [hb] at hy
    rw [ha]
    rcases List.mem_append.1 hy with hy | hy
    · exact .inr (List.mem_append_left _ hy)
    · exact (List.mem_cons.1 hy).imp_right fun hy =>
        List.mem_append_right _ (List.dropLast_subset _ hy)
  rcases h with ⟨y, hy, rfl⟩ | ⟨-, hle⟩
  · rw [ha, ← List.dropLast_append_getLast hne] at hy
    rcases List.mem_append.1 hy with hy | hy
    · exact .inl ⟨y, hb ▸ List.mem_append_left _ hy, rfl⟩
    rcases List.mem_append.1 hy with hy | hy
    · exact .inl ⟨y, hb ▸ List.mem_append_right _ (List.mem_cons_of_mem _ hy), rfl⟩
    -- the entry pushed out is the smallest of a full array
    cases List.mem_singleton.1 hy
    have hsorted := a.entries_ok.sorted
    rw [ha, ← List.dropLast_append_getLast hne, ← List.append_assoc] at hsorted
    have hlast := (List.pairwise_append.1 hsorted).2.2
    have hle : ∀ z ∈ a.entries, ((x :: lo).getLast hne).id.instanceId ≤ z.id.instanceId := by
      intro z hz
      rw [ha, ← List.dropLast_append_getLast hne, ← List.append_assoc] at hz
      rcases List.mem_append.1 hz with hz | hz
      · exact hlast z hz _ (List.mem_singleton_self _)
      · rw [List.mem_singleton.1 hz]
    refine .inr ⟨hlen, fun z hz => ?_⟩
    rcases hsub z hz with rfl | hz
    · exact (hle x (ha ▸ List.mem_append_right _ List.mem_cons_self)).trans hd.le
    · exact hle z hz
  · refine .inr ⟨hlen, fun z hz => ?_⟩
    rcases hsub z hz with rfl | hz
    · exact (hle x (ha ▸ List.mem_append_right _ List.mem_cons_self)).trans hd.le
    · exact hle z hz

/-- What an array keeps, and what is put in, it keeps where the addition fits. -/
theorem Deps.Fits.keeps (hf : deps.Fits ti)
    (h : deps.Keeps id ∨ (id = ti.key ∧ id.instanceId ≠ 0)) : (addDep deps ti).1.Keeps id := by
  unfold addDep
  generalize hd' : (⟨ti.key, if isCommitted ti then 1 else 0⟩ : Dependency) = d
  have hid : d.id = ti.key := by rw [← hd']
  by_cases hd : d.Empty
  · rw [deps.update_empty hd]
    refine h.resolve_right fun ⟨hid', h₀⟩ => h₀ ?_
    rw [hid', ← hid]
    exact hd
  rcases deps.update_cases hd with ⟨hi, y, lo, he, hy, hu, -⟩ | ⟨hn, ⟨hlen, hle, hu⟩
    | ⟨hlen, hle, hu, -⟩ | ⟨hi, y, lo, he, -, hlt, hu, -⟩⟩
  · have hids : (deps.update d).1.entries.map Dependency.id = deps.entries.map Dependency.id := by
      rw [hu, he]
      simp
    rcases h with h | ⟨rfl, -⟩
    · exact h.congr hids
    · refine .inl ?_
      rw [Deps.has_iff, hids, he, ← hid, ← hy]
      simp
  · rw [hu]
    rcases h with h | ⟨rfl, -⟩
    · exact h
    · exact .inr ⟨hlen, fun x hx => hid ▸ hle x hx⟩
  · refine .inl ?_
    rw [Deps.has_iff, hu, List.map_append]
    rcases h with h | ⟨rfl, -⟩
    · refine List.mem_append_left _ (Deps.has_iff.1 (h.resolve_right fun h => ?_))
      exact hlen.ne h.1
    · rw [← hid]
      exact List.mem_append_right _ (List.mem_singleton_self _)
  · rcases h with h | ⟨rfl, -⟩
    · have hfull : deps.entries.length = maxDeps := by
        rcases hf with hf | hf | hf
        · exact absurd (hid ▸ hf) hn
        · have := hf y (he ▸ List.mem_append_right _ List.mem_cons_self)
          have := hlt y List.mem_cons_self
          rw [hid] at this
          omega
        · exact hf
      exact h.push hfull he (hlt y List.mem_cons_self) hu
    · exact .inl ⟨d, hu ▸ List.mem_append_right _ List.mem_cons_self, hid⟩

theorem Deps.FitsAll.keeps : ∀ {adds : List Instance} {p : Probe}, p.deps.FitsAll adds →
    (p.deps.Keeps id ∨ (id.instanceId ≠ 0 ∧ ∃ ti ∈ adds, ti.key = id)) →
      (adds.foldl Probe.add p).deps.Keeps id
  | [], p, _, h => h.resolve_right fun ⟨_, ti, hti, _⟩ => absurd hti List.not_mem_nil
  | x :: adds, p, hf, h => by
    refine FitsAll.keeps (p := p.add x) hf.2 ?_
    rcases h with h | ⟨h₀, ti, hti, hid⟩
    · exact .inl (hf.1.keeps (.inl h))
    · rcases List.mem_cons.1 hti with rfl | hti
      · exact .inl (hf.1.keeps (.inr ⟨hid.symm, h₀⟩))
      · exact .inr ⟨h₀, ti, hti, hid⟩

theorem Probe.grows_foldl : ∀ (adds : List Instance) (p : Probe), p.Grows (adds.foldl Probe.add p)
  | [], p => .refl p
  | x :: adds, p => (p.grows_add x).trans (grows_foldl adds (p.add x))

/-- Additions count no change just when none of them changes the array. -/
theorem updated_eq_iff : ∀ {adds : List Instance} {p : Probe},
    (adds.foldl Probe.add p).updated = p.updated ↔ ∀ ti ∈ adds, (addDep p.deps ti).2 = 0
  | [], p => iff_of_true rfl fun _ h => absurd h List.not_mem_nil
  | x :: adds, p => by
    have hgrow := (Probe.grows_foldl adds (p.add x)).1
    have hadd : (p.add x).updated = p.updated + (addDep p.deps x).2 := rfl
    have hsame : (addDep p.deps x).2 = 0 → (p.add x).deps = p.deps := fun h =>
      Deps.update_eq_zero h
    rw [List.forall_mem_cons]
    constructor
    · intro h
      have h : (adds.foldl Probe.add (p.add x)).updated = p.updated := h
      have h₀ : (addDep p.deps x).2 = 0 := by omega
      refine ⟨h₀, ?_⟩
      rw [← hsame h₀]
      exact updated_eq_iff.1 (by omega)
    · rintro ⟨h₀, h⟩
      rw [← hsame h₀] at h
      have h := updated_eq_iff.2 h
      exact h.trans (by omega)

end Keeping

section Handler

variable {q : ℕ × Option Command × Probe}

/-- What is stored is known. -/
theorem knows_of_has (hq : sdForCommand T r m.command (some i.key) ⟨0, i.deps⟩ = some q)
    {id : InstanceId} (h : q.2.2.deps.Has id) : Knows T r i m id :=
  (sdForCommand_dominated hq).new id h

theorem knowsDeps_of_keeps (hq : sdForCommand T r m.command (some i.key) ⟨0, i.deps⟩ = some q)
    (h : ∀ d ∈ m.deps.entries, q.2.2.deps.Keeps d.id) : KnowsDeps T r i m := by
  intro d hd
  rcases h d hd with h | ⟨hlen, hle⟩
  · exact .inl (knows_of_has hq h)
  · refine .inr ⟨q.2.2.deps.entries.map Dependency.id, q.2.2.deps.entries_ok.nodup,
      (List.length_map _).trans hlen, fun id hid => ?_⟩
    obtain ⟨x, hx, rfl⟩ := List.mem_map.1 hid
    exact ⟨knows_of_has hq ⟨x, hx, rfl⟩, hle x hx⟩

/-- Where every addition fits, what is known is kept. -/
theorem keeps_of_knows (hq : sdForCommand T r m.command (some i.key) ⟨0, i.deps⟩ = some q)
    (hf : i.deps.FitsAll (found T r i m)) {id : InstanceId} (h₀ : id.instanceId ≠ 0)
    (h : Knows T r i m id) : q.2.2.deps.Keeps id := by
  rw [(sdForCommand_dominated hq).probe]
  exact Deps.FitsAll.keeps (p := ⟨0, i.deps⟩) hf (h.imp .inl fun h => ⟨h₀, h⟩)

theorem keeps_of_knowsDeps (hq : sdForCommand T r m.command (some i.key) ⟨0, i.deps⟩ = some q)
    (hf : i.deps.FitsAll (found T r i m)) (h : KnowsDeps T r i m) :
    ∀ d ∈ m.deps.entries, q.2.2.deps.Keeps d.id := by
  intro d hd
  have hd₀ : d.id.instanceId ≠ 0 := m.deps.entries_ok.full d hd
  rcases h d hd with h | ⟨ids, hnodup, hlen, hids⟩
  · exact keeps_of_knows hq hf hd₀ h
  by_cases hall : ∀ id ∈ ids, q.2.2.deps.Has id
  · -- the ids known fill the array
    have hsub : ids ⊆ q.2.2.deps.entries.map Dependency.id := fun id hid =>
      Deps.has_iff.1 (hall id hid)
    have hperm : ids.Perm (q.2.2.deps.entries.map Dependency.id) := by
      refine (hnodup.subperm hsub).perm_of_length_le ?_
      rw [hlen, List.length_map]
      exact q.2.2.deps.length_entries
    refine .inr ⟨?_, fun x hx => ?_⟩
    · rw [← hlen, hperm.length_eq, List.length_map]
    · exact (hids x.id (hperm.mem_iff.2 (List.mem_map_of_mem hx))).2
  · push Not at hall
    obtain ⟨id, hid, hn⟩ := hall
    obtain ⟨hk, hle⟩ := hids id hid
    have h₀ : id.instanceId ≠ 0 := fun h => hd₀ (by omega)
    obtain ⟨hfull, hmin⟩ := (keeps_of_knows hq hf h₀ hk).resolve_left hn
    exact .inr ⟨hfull, fun x hx => hle.trans (hmin x hx)⟩

/-- What `pre_accept` stores and answers, past its guards. -/
theorem preAccept_stores (hst : i.status = .preAccepted ∨ i.status = .none)
    (hb : i.ballot ≤ m.ballot) (h : preAccept T r i m = some e) :
    ∃ q, sdForCommand T r m.command (some i.key) ⟨0, i.deps⟩ = some q
      ∧ e.inst = preAcceptInst i m q
      ∧ ((∃ a ∈ e.io, a.type = .preAcceptOk) → q.2.2.updated = 0) := by
  rcases preAccept_cases h with ⟨hn, -⟩ | ⟨-, hlt, -⟩ | ⟨-, -, q, hq, rfl | ⟨-, hu, -, -, rfl⟩⟩
  · exact absurd hst hn
  · omega
  · refine ⟨q, hq, rfl, ?_⟩
    rintro ⟨a, ha, ht⟩
    cases List.mem_singleton.1 ha
    cases ht
  · exact ⟨q, hq, rfl, fun _ => hu⟩

/-- `pre_accept` agrees with the message where the replica knows of its dependencies and, if nothing
it finds changes its own, they match already; and nowhere else. -/
theorem preAccept_agrees (hst : i.status = .preAccepted ∨ i.status = .none)
    (hb : i.ballot ≤ m.ballot) (h : preAccept T r i m = some e) :
    (KnowsDeps T r i m → i.deps.FitsAll (found T r i m) → MatchesAlready T r i m → Agreement m e)
      ∧ (Agreement m e → KnowsDeps T r i m ∧ MatchesAlready T r i m) := by
  obtain ⟨q, hq, he, hio⟩ := preAccept_stores hst hb h
  have hdeps : e.inst.deps = q.2.2.deps := by rw [he]; rfl
  have hseq : e.inst.seq = max m.seq (u64 (q.1 + 1)) := by rw [he]; rfl
  have hprobe : q.2.2 = (found T r i m).foldl Probe.add ⟨0, i.deps⟩ :=
    (sdForCommand_dominated hq).probe
  have hquiet : q.2.2.updated = 0 ↔ ∀ ti ∈ found T r i m, (addDep i.deps ti).2 = 0 := by
    rw [hprobe]
    exact updated_eq_iff (p := ⟨0, i.deps⟩)
  have heq : e.inst.status = .preAcceptedEq ↔ q.2.2.updated = 0 := by
    rw [he]
    unfold preAcceptInst
    dsimp only
    split_ifs with hu <;> simp [hu]
  constructor
  · intro hknow hfit hmatch
    refine ⟨fun d hd => ?_, hseq ▸ le_max_left _ _, fun hans => ?_⟩
    · rw [hdeps]
      exact keeps_of_knowsDeps hq hfit hknow d hd
    · have hu : q.2.2.updated = 0 := hans.elim hio heq.1
      obtain ⟨hids, hle⟩ := hmatch (hquiet.1 hu)
      rw [hseq, hdeps, sdForCommand_deps hq hu]
      exact ⟨max_eq_left (hle q hq), hids⟩
  · rintro ⟨hin, -, hequal⟩
    refine ⟨knowsDeps_of_keeps hq fun d hd => hdeps ▸ hin d hd, fun hnone => ?_⟩
    have hu := hquiet.2 hnone
    obtain ⟨hs, hids⟩ := hequal (.inr (heq.2 hu))
    rw [hdeps, sdForCommand_deps hq hu] at hids
    refine ⟨hids, fun q' hq' => ?_⟩
    cases hq.symm.trans hq'
    rw [hseq] at hs
    exact max_eq_left_iff.1 hs

end Handler

/-- What the delivery of the message at replica `k` comes to in `pre_accept`. -/
def World.preAcceptAt (w : World) (k : ℕ) (m : Message) : Option Effect :=
  preAccept listTree ((w.replica k).put ((w.replica k).copy m.id)) ((w.replica k).copy m.id) m

/-- Two writes of one key proposed at replica 0, the second of which depends on the first. -/
def twoWrites : List Move := [proposeAt 0 [97] [97], proposeAt 0 [97] [97]]

theorem preAccept_agrees_second : ∃ w, Run listTree w ∧ ∃ m ∈ w.sent, ∃ e,
    w.preAcceptAt 1 m = some e ∧ m.deps.entries ≠ [] ∧ Agreement m e := by
  obtain ⟨w, hr, m, hm, hst, hdeps, hb, hfound, hne, hids, he⟩ := @exists_run
    (twoWrites ++ [deliverAt 1 .preAccept ⟨0, 1⟩])
    (fun w => ∃ m ∈ w.sent, ((w.replica 1).copy m.id).status = .none
      ∧ ((w.replica 1).copy m.id).deps = .zero ∧ ((w.replica 1).copy m.id).ballot ≤ m.ballot
      ∧ (found listTree ((w.replica 1).put ((w.replica 1).copy m.id)) ((w.replica 1).copy m.id)
        m).map Instance.key = [⟨0, 1⟩]
      ∧ m.deps.entries ≠ [] ∧ m.deps.entries.map Dependency.id = [⟨0, 1⟩]
      ∧ (w.preAcceptAt 1 m).isSome = true) _ (by decide +kernel)
  obtain ⟨e, he⟩ := Option.isSome_iff_exists.1 he
  obtain ⟨x, hx, hkey⟩ := List.map_eq_singleton_iff.1 hfound
  refine ⟨w, hr, m, hm, e, he, hne, (preAccept_agrees (.inr hst) hb he).1 ?_ ?_ ?_⟩
  · intro d hd
    have hd : d.id ∈ m.deps.entries.map Dependency.id := List.mem_map_of_mem hd
    rw [hids, ← hfound] at hd
    exact .inl (.inr (List.mem_map.1 hd))
  · rw [hx, hdeps]
    exact ⟨.inr (.inl fun d hd => absurd hd (by simp)), trivial⟩
  · -- the first write is new to the follower's copy of the second
    intro hnone
    have h₀ := hnone x (hx ▸ List.mem_singleton_self x)
    have hne : ¬ Dependency.Empty ⟨x.key, if isCommitted x then 1 else 0⟩ := by
      rw [hkey]
      exact Nat.one_ne_zero
    rw [hdeps, addDep, Deps.update_zero hne] at h₀
    exact absurd h₀ Nat.one_ne_zero

/-- A follower that has not seen the first write answers `PRE_ACCEPT_OK` to the second, and stores
no dependency. -/
theorem ok_without_deps : ∃ w, Run listTree w ∧ ∃ m ∈ w.sent, ∃ e,
    ((w.replica 1).copy m.id).status = .none ∧ ((w.replica 1).copy m.id).ballot ≤ m.ballot
      ∧ w.preAcceptAt 1 m = some e ∧ (∃ a ∈ e.io, a.type = .preAcceptOk) ∧ ¬ Agreement m e := by
  obtain ⟨w, hr, m, hm, hst, hb, hids, he⟩ := @exists_run twoWrites
    (fun w => ∃ m ∈ w.sent, ((w.replica 1).copy m.id).status = .none
      ∧ ((w.replica 1).copy m.id).ballot ≤ m.ballot
      ∧ m.deps.Has ⟨0, 1⟩
      ∧ (w.preAcceptAt 1 m).any (fun e => (∃ a ∈ e.io, a.type = .preAcceptOk)
        ∧ ¬ e.inst.deps.Has ⟨0, 1⟩) = true) _ (by decide +kernel)
  obtain ⟨e, he, hp⟩ := (Option.any_eq_true _ _).1 he
  simp only [decide_eq_true_eq] at hp
  obtain ⟨hok, hn⟩ := hp
  exact ⟨w, hr, m, hm, e, hst, hb, he, hok, fun h => hn (((h.equal (.inl hok)).2 _).2 hids)⟩

end Epx
