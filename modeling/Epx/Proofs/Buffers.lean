import Epx.Proofs.Executor

/-!
# The executor's buffers

`visit` writes the components it finds to `sccs[MAX_DEPS]`, and their members to `nodes[MAX_DEPS]`,
without a bound. What a pass finds are the dependency cycles of the instances that wait, with the
one just received; an instance that waits for one that is never executed stays for good.
-/

namespace Epx

/-- The instance has just been received, or waits for one that has not been. -/
def Replica.Waits (r : Replica) (ids : List InstanceId) (id v : InstanceId) : Prop :=
  v = id ∨ v ∈ ids ∧ ¬ r.Ready ids v

/-- No more than eight of the instances that wait when `id` comes after `ids` are in different
dependency cycles, and no more than eight in one. -/
structure Roomy (r : Replica) (ids : List InstanceId) (id : InstanceId) : Prop where
  cycles : ∀ l : List InstanceId, (∀ v ∈ l, r.Waits ids id v) →
    (l.Pairwise fun u v => ¬ (r.Path (id :: ids) u v ∧ r.Path (id :: ids) v u)) →
    l.length ≤ maxDeps
  members : ∀ l : List InstanceId, l.Nodup → (∀ v ∈ l, r.Waits ids id v) →
    (∀ u ∈ l, ∀ v ∈ l, r.Path (id :: ids) u v) → l.length ≤ maxDeps

/-- The passes over the instances, the last one first, stay within the buffers as long as those
before did. -/
def PassesFit (r : Replica) (ids : List InstanceId) : Prop :=
  ∀ id l, id :: l <:+ ids → ∀ p vs, Fed Fits r l p → vs.ids.Perm (p.vertices.addNode id).1.ids →
    (p.vertices.addNode id).2 = true → Fits p.replica vs

section Pass

variable {r : Replica} {ids : List InstanceId} {id u v : InstanceId} {p : Pass} {vs : Vertices}

/-- An instance on the way to one that waited before is in the map. -/
theorem Unexecuted.path_map (h : Unexecuted r (id :: ids))
    (hvs : ∀ w, w ∈ vs.ids ↔ r.Waits ids id w) {z : InstanceId} (hz : z ∈ ids ∧ ¬ r.Ready ids z)
    (hp : r.Path (id :: ids) u v) (hvz : r.Path (id :: ids) v z) : r.Path vs.ids u v := by
  refine hp.restrict fun w hw _ hwv => (hvs w).2 ?_
  refine (List.mem_cons.1 hw).imp_right fun hwi => ⟨hwi, fun hr => hz.2 ?_⟩
  exact hr.path (h.path_ready hr (hwv.trans hvz))

/-- Two instances of the map are in one cycle of it when they are among all received. -/
theorem Unexecuted.cycle_iff (h : Unexecuted r (id :: ids))
    (hvs : ∀ w, w ∈ vs.ids ↔ r.Waits ids id w) (hu : u ∈ vs.ids) (hv : v ∈ vs.ids) :
    r.Path vs.ids u v ∧ r.Path vs.ids v u
      ↔ r.Path (id :: ids) u v ∧ r.Path (id :: ids) v u := by
  have hsub : vs.ids ⊆ id :: ids := fun w hw =>
    List.mem_cons.2 (((hvs w).1 hw).imp_right And.left)
  refine ⟨fun ⟨huv, hvu⟩ => ⟨huv.mono hsub, hvu.mono hsub⟩, fun ⟨huv, hvu⟩ => ?_⟩
  by_cases hne : u = v
  · subst hne
    exact ⟨.refl, .refl⟩
  -- one of the two waited before
  have hwait : ∃ z, (z ∈ ids ∧ ¬ r.Ready ids z) ∧ r.Path (id :: ids) u z ∧
      r.Path (id :: ids) v z := by
    rcases (hvs u).1 hu with rfl | hu'
    · rcases (hvs v).1 hv with rfl | hv'
      · exact absurd rfl hne
      · exact ⟨v, hv', huv, .refl⟩
    · exact ⟨u, hu', .refl, hvu⟩
  obtain ⟨z, hz, huz, hvz⟩ := hwait
  exact ⟨h.path_map hvs hz huv hvz, h.path_map hvs hz hvu huz⟩

/-- A pass stays within the buffers when the instances that wait make no more than eight cycles,
none with more than eight members. -/
theorem Pass.After.fits_iff (ha : p.After r ids) (h : Unexecuted r (id :: ids))
    (hvs : ∀ w, w ∈ vs.ids ↔ r.Waits ids id w) : Fits p.replica vs ↔ Roomy r ids id := by
  have hsub : vs.ids ⊆ id :: ids := fun w hw =>
    List.mem_cons.2 (((hvs w).1 hw).imp_right And.left)
  have hreg := ha.marked.registered (h.toRegistered.mono hsub)
  obtain ⟨s, hs⟩ := exists_strongConnect vs p.replica.depsOf
  have hc := components_of_strongConnect hs
  have hfits : Fits p.replica vs ↔
      s.sccs.length ≤ maxDeps ∧ ∀ comp ∈ s.sccs, comp.length ≤ maxDeps := by
    unfold Fits
    rw [hs]
    simp
  have hlinked : ∀ u ∈ vs.ids, ∀ v, vs.Linked p.replica.depsOf u v ↔ r.Path vs.ids u v :=
    fun u hu v => by rw [hreg.linked_iff hu, ha.marked.path]
  have hcycle : ∀ u ∈ vs.ids, ∀ v ∈ vs.ids,
      (vs.Linked p.replica.depsOf u v ∧ vs.Linked p.replica.depsOf v u ↔
        r.Path (id :: ids) u v ∧ r.Path (id :: ids) v u) := fun u hu v hv => by
    rw [hlinked u hu, hlinked v hv, h.cycle_iff hvs hu hv]
  have hmap : ∀ l : List InstanceId, l ⊆ vs.ids ↔ ∀ v ∈ l, r.Waits ids id v := fun l =>
    forall₂_congr fun v _ => hvs v
  rw [hfits, hc.length_le_iff, hc.forall_length_le_iff]
  constructor
  · intro ⟨hcyc, hmem⟩
    refine ⟨fun l hl hp => ?_, fun l hn hl hp => ?_⟩
    · have hl := (hmap l).2 hl
      exact hcyc l hl (hp.imp_of_mem fun hu hv hn he => hn ((hcycle _ (hl hu) _ (hl hv)).1 he))
    · have hl := (hmap l).2 hl
      exact hmem l hn hl fun u hu v hv =>
        ((hcycle u (hl hu) v (hl hv)).2 ⟨hp u hu v hv, hp v hv u hu⟩).1
  · intro hr
    refine ⟨fun l hl hp => ?_, fun l hn hl hp => ?_⟩
    · exact hr.cycles l ((hmap l).1 hl)
        (hp.imp_of_mem fun hu hv hn he => hn ((hcycle _ (hl hu) _ (hl hv)).2 he))
    · exact hr.members l hn ((hmap l).1 hl) fun u hu v hv =>
        ((hcycle u (hl hu) v (hl hv)).1 ⟨hp u hu v hv, hp v hv u hu⟩).1

end Pass

section Run

variable {r : Replica} {ids : List InstanceId}

/-- As long as the passes stay within the buffers, the executor can go on. -/
theorem PassesFit.run (h : Unexecuted r ids) (hf : PassesFit r ids) : ∃ p, Fed Fits r ids p := by
  induction ids with
  | nil => exact ⟨_, .start⟩
  | cons id l ih =>
    have hl := h.mono (List.subset_cons_self id l)
    obtain ⟨p, hp⟩ := ih hl fun x k hk => hf x k (hk.trans (List.suffix_cons id l))
    obtain ⟨p', hp'⟩ := (hp.after hl).exists_receive h (.refl (p.vertices.addNode id).1.ids)
    exact ⟨p', .receive hp (.refl _) (hf id l List.suffix_rfl p _ hp (.refl _)) hp'⟩

/-- The passes over a sequence of instances stay within the buffers just when, whenever one comes
that does not wait already, the instances that wait then make no more than eight cycles, none with
more than eight members. -/
theorem buffers_suffice (h : Unexecuted r ids) : PassesFit r ids ↔
    ∀ id l, id :: l <:+ ids → (id ∈ l → r.Ready l id) → Roomy r l id := by
  constructor
  · intro hf id l hl hnew
    have hu := h.mono hl.subset
    obtain ⟨p, hp⟩ := PassesFit.run (hu.mono (List.subset_cons_self id l)) fun x k hk =>
      hf x k (hk.trans ((List.suffix_cons id l).trans hl))
    have ha := hp.after (hu.mono (List.subset_cons_self id l))
    refine (ha.fits_iff hu (ha.mem_map hu (.refl _))).1 (hf id l hl p _ hp (.refl _) ?_)
    rw [Vertices.addNode_new (ha.keyed hu), ha.waiting]
    exact fun hw => hw.2 (hnew hw.1)
  · intro hr id l hl p vs hp hvs hnew
    have hu := h.mono hl.subset
    have ha := hp.after (hu.mono (List.subset_cons_self id l))
    rw [Vertices.addNode_new (ha.keyed hu), ha.waiting, not_and, not_not] at hnew
    exact (ha.fits_iff hu (ha.mem_map hu hvs)).2 (hr id l hl hnew)

/-- Where all that waits is among eight instances, there is room. -/
theorem Roomy.of_subset {id : InstanceId} {c l : List InstanceId} (hc : c.length ≤ maxDeps)
    (hsub : ∀ v, r.Waits l id v → v ∈ c) : Roomy r l id := by
  have hroom : ∀ k : List InstanceId, k.Nodup → (∀ v ∈ k, r.Waits l id v) → k.length ≤ maxDeps :=
    fun k hn hk => (List.subperm_of_subset hn fun v hv => hsub v (hk v hv)).length_le.trans hc
  refine ⟨fun k hk hp => hroom k (hp.imp fun hn he => hn ?_) hk, fun k hn hk _ => hroom k hn hk⟩
  subst he
  exact ⟨.refl, .refl⟩

end Run

theorem buffers_suffice_cycle : PassesFit twoAndTwo [⟨2, 2⟩, ⟨2, 1⟩, ⟨0, 1⟩, ⟨1, 1⟩] :=
  (buffers_suffice ⟨⟨by decide +kernel, by decide +kernel, by decide +kernel, by decide +kernel⟩,
    by decide +kernel⟩).2 fun id l hl _ => .of_subset (hl.length_le.trans (by decide)) fun v hv =>
      List.mem_cons.2 (hv.imp_right And.left)

/-- A run in which each pass meets the new node first. -/
def feed (r : Replica) : List InstanceId → Option Pass
  | [] => some ⟨r, .empty, []⟩
  | id :: ids => (feed r ids).bind fun p =>
    if (p.vertices.addNode id).2 = true → Fits p.replica (p.vertices.addNode id).1
    then p.receive id (p.vertices.addNode id).1 else none

theorem fed_of_feed {r : Replica} : ∀ {ids : List InstanceId} {p : Pass}, feed r ids = some p →
    Fed Fits r ids p
  | [], p, h => by
    cases h
    exact .start
  | id :: ids, p', h => by
    obtain ⟨p, hp, h⟩ := Option.bind_eq_some_iff.1 h
    split_ifs at h with hfit
    exact .receive (fed_of_feed hp) (.refl _) hfit h

/-- Nine instances of replica 0 that depend on one of replica 1. -/
def blocked : List InstanceId := (List.range 9).reverse.map fun n => ⟨0, n + 1⟩

theorem blocked_outgrows :
    ¬ PassesFit (holding (blocked.map fun id => committedOn id 1 [⟨1, 1⟩])) blocked := by
  intro hf
  have hrun : (feed (holding (blocked.map fun id => committedOn id 1 [⟨1, 1⟩]))
      blocked.tail).any (fun p => (p.vertices.addNode ⟨0, 9⟩).2 = true
        ∧ ¬ Fits p.replica (p.vertices.addNode ⟨0, 9⟩).1) = true := by decide +kernel
  obtain ⟨p, hp, hout⟩ := (Option.any_eq_true _ _).1 hrun
  obtain ⟨hnew, hout⟩ := of_decide_eq_true hout
  exact hout (hf ⟨0, 9⟩ blocked.tail List.suffix_rfl p _ (fed_of_feed hp) (.refl _) hnew)

end Epx
