import Epx.Lib.First
import Epx.Proofs.EarlyExits
import Epx.Proofs.ReadOnly

/-!
# The conflicts `TRY_PRE_ACCEPT` finds

`pre_accept_conflict` starts at the entry of an index that has `i`'s instance id, whichever index it
is, and ends at the first `EXECUTED` entry or behind a write span that encloses the whole command. It
returns the first candidate it comes to, `i` itself among them, and it takes the first entry of a
list for a replica to be the largest.
-/

namespace Epx

open First

/-- The largest instance id the list has for the replica, or 0 where it has none. -/
def largestId (replicaId : ℕ) (slots : List Dependency) : ℕ :=
  (slots.filter fun d => d.id.replicaId = replicaId).foldr (fun d n => max d.id.instanceId n) 0

section Conflict

variable (i : Instance) (seq : ℕ) (deps : List Dependency) (c : Command)

/-- `t` stands against `c`, `seq` and `deps` for the instance `i`. -/
structure Conflicting (t : Entry) : Prop where
  other : t.key ≠ i.key
  live : t.status ≠ .executed
  interferes : ∃ tc, t.command = some tc ∧ Interfere tc c
  unlisted : ∀ d ∈ deps, d.id ≠ t.key
  unaware : largestId i.key.replicaId t.deps < i.key.instanceId
  unordered : largestId t.key.replicaId deps < t.key.instanceId
    ∨ t.key.instanceId < largestId t.key.replicaId deps ∧ seq ≤ t.seq
      ∧ (t.key.replicaId ≠ i.key.replicaId ∨ State.preAcceptedEq.bits < t.status.bits)

/-- Newer writes of the index, none of them conflicting, cover the command. -/
def Shadowed (index : List Entry) (t : Entry) : Prop :=
  ∀ k ∈ c.keys, ∃ y ∈ index, t.key.instanceId < y.key.instanceId ∧ ¬ Conflicting i seq deps c y
    ∧ ∃ yc, y.command = some yc ∧ yc.writing = .write ∧ k ∈ yc.keys

/-- `t` is registered and stands against the command, and is not disregarded for the newer writes of
its index. -/
def Real (rows : ℕ → List Entry) (t : Entry) : Prop :=
  Conflicting i seq deps c t ∧ ∃ k < N, t ∈ rows k ∧ ¬ Shadowed i seq deps c (rows k) t

/-- What `pre_accept_conflict` asks of a conflict but for the tree. -/
structure Candidate (t : Entry) : Prop where
  live : t.status ≠ .executed
  walked : ¬ PassedOver i deps t
  used : uses c t.command ≠ []
  conflict : isDepConflict t seq deps i.key.replicaId = true

/-- The walk of an index does not end at the entry, unless it is returned: it is not `EXECUTED`, and
it puts no span to the tree that encloses the command. -/
def WalksOn (y : Entry) : Prop :=
  y.status ≠ .executed
    ∧ (¬ PassedOver i deps y → ∀ s, some s ∈ uses c y.command → ¬ EnclosesAll s c.spans)

/-- Behind the entries ahead, the walk comes to the candidate `t` if none of them is returned. -/
def Reached (ahead : List Entry) (t : Entry) : Prop :=
  (∀ y ∈ ahead, WalksOn i deps c y) ∧ Candidate i seq deps c t

/-- `t` is reached behind the entries ahead in the index. -/
def ReachedIn (index ahead : List Entry) (t : Entry) : Prop :=
  (∃ behind, walked i index = ahead ++ t :: behind) ∧ Reached i seq deps c ahead t

/-- No entry of the index is reached. -/
def Unreached (index : List Entry) : Prop := ∀ ahead t, ¬ ReachedIn i seq deps c index ahead t

/-- The tree is as it should be in each walk that `pac_conflict` comes to. -/
def WalksKept (rows : ℕ → List Entry) : Prop :=
  ∀ k < N, (∀ j < k, Unreached i seq deps c (rows j)) →
    Kept c.spans (conflictUses i seq deps c (walked i (rows k)))

/-- If some entry is a real conflict, one is reached; and what is reached is one, or comes behind one
that is reached, in its index or in an index before. -/
def RealFirst (rows : ℕ → List Entry) : Prop :=
  ((∃ t, Real i seq deps c rows t) →
      ∃ k < N, ∃ ahead t, ReachedIn i seq deps c (rows k) ahead t ∧ Real i seq deps c rows t)
    ∧ ∀ k < N, ∀ ahead t, ReachedIn i seq deps c (rows k) ahead t →
      Real i seq deps c rows t
        ∨ (∃ pre e post, ahead = pre ++ e :: post ∧ Reached i seq deps c pre e
            ∧ Real i seq deps c rows e)
        ∨ ∃ j < k, ∃ pre e, ReachedIn i seq deps c (rows j) pre e ∧ Real i seq deps c rows e

end Conflict

section Lists

variable {i : Instance} {seq : ℕ} {deps : List Dependency} {c : Command} {t : Entry} {replicaId : ℕ}

theorem largestId_cons (d : Dependency) (ds : List Dependency) : largestId replicaId (d :: ds)
    = if d.id.replicaId = replicaId then max d.id.instanceId (largestId replicaId ds)
      else largestId replicaId ds := by
  unfold largestId
  split_ifs with h
  · rw [List.filter_cons_of_pos (by simpa using h), List.foldr_cons]
  · rw [List.filter_cons_of_neg (by simpa using h)]

theorem largestId_le {n : ℕ} : ∀ {ds : List Dependency},
    (∀ d ∈ ds, d.id.instanceId ≤ n) → largestId replicaId ds ≤ n
  | [], _ => n.zero_le
  | d :: ds, h => by
    rw [List.forall_mem_cons] at h
    rw [largestId_cons]
    split_ifs
    · exact max_le h.1 (largestId_le h.2)
    · exact largestId_le h.2

/-- In a sorted list the first entry for a replica is the largest. -/
theorem ltDepReplica_eq : ∀ {ds : List Dependency},
    ds.Pairwise (fun a b => b.id.instanceId ≤ a.id.instanceId) →
      ltDepReplica replicaId ds = largestId replicaId ds
  | [], _ => rfl
  | d :: ds, h => by
    obtain ⟨hd, hs⟩ := List.pairwise_cons.1 h
    rw [largestId_cons]
    unfold ltDepReplica
    split_ifs with hr
    · rw [List.find?_cons_of_pos (by simpa using hr), max_eq_left (largestId_le hd)]
      rfl
    · rw [List.find?_cons_of_neg (by simpa using hr)]
      exact ltDepReplica_eq hs

theorem uses_interfere {cmd : Option Command} (h : uses c cmd ≠ []) :
    ∃ tc, cmd = some tc ∧ Interfere tc c := by
  rcases cmd with _ | tc
  · exact absurd rfl h
  have meet : ∀ {s}, s ∈ overlapSparse tc.spans c.spans →
      tc.writing = .write ∨ c.writing = .write → ∃ tc', some tc = some tc' ∧ Interfere tc' c := by
    intro s hs hw
    obtain ⟨hs, u, hu, ho⟩ := mem_overlapSparse.1 hs
    exact ⟨tc, rfl, hw, s, hs, u, hu, ho⟩
  unfold uses at h
  dsimp only at h
  split_ifs at h with hw hr
  · obtain ⟨s, hs⟩ := List.exists_mem_of_ne_nil _ fun hn => h (List.map_eq_nil_iff.2 hn)
    exact meet (List.mem_of_mem_take ((List.takeWhile_sublist _).subset hs)) (.inl hw)
  · obtain ⟨s, hs⟩ := List.exists_mem_of_ne_nil _ hr.2
    exact meet hs (.inr hr.1)
  · exact absurd rfl h

/-- With sorted lists, a candidate other than `i` stands against the command. -/
theorem Candidate.conflicting (h : Candidate i seq deps c t) (hne : t.key ≠ i.key)
    (hs : deps.Pairwise fun a b => b.id.instanceId ≤ a.id.instanceId)
    (ht : t.deps.Pairwise fun a b => b.id.instanceId ≤ a.id.instanceId) :
    Conflicting i seq deps c t where
  other := hne
  live := h.live
  interferes := uses_interfere h.used
  unlisted d hd hid := h.walked (.inl (List.any_eq_true.2 ⟨d, hd, decide_eq_true hid⟩))
  unaware := ltDepReplica_eq ht ▸ not_le.1 fun hle => h.walked (.inr (.inr hle))
  unordered := by
    have hc := h.conflict
    unfold isDepConflict at hc
    rw [ltDepReplica_eq hs] at hc
    simpa only [Bool.or_eq_true, Bool.and_eq_true, decide_eq_true_eq, and_assoc] using hc

end Lists

section Walk

variable {T : RangeTree} {H : TreeLaw T} {i : Instance} {seq : ℕ} {deps : List Dependency}
  {c : Command} {t ti : Entry} {rest : List Entry} {q : Option Entry × Option Command}

theorem reached_cons {ahead : List Entry} : Reached i seq deps c (ti :: ahead) t
    ↔ WalksOn i deps c ti ∧ Reached i seq deps c ahead t := by
  unfold Reached
  rw [List.forall_mem_cons, and_assoc]

/-- Where the walk ends at an entry that is no candidate, it comes to none behind it. -/
theorem not_firstAt_closed (hc : ¬ Candidate i seq deps c ti) (ho : ¬ WalksOn i deps c ti) :
    ¬ FirstAt (Reached i seq deps c) (ti :: rest) t := by
  intro hf
  rcases firstAt_cons.1 hf with ⟨hr, -⟩ | ⟨-, ahead, -, -, hr, -⟩
  · exact hc hr.2
  · exact ho (reached_cons.1 hr).1

/-- Where it passes one that is no candidate, the first of the rest is the first. -/
theorem firstAt_open (hc : ¬ Candidate i seq deps c ti) (ho : WalksOn i deps c ti) :
    FirstAt (Reached i seq deps c) (ti :: rest) t ↔ FirstAt (Reached i seq deps c) rest t := by
  have heq : (fun ahead => Reached i seq deps c (ti :: ahead)) = Reached i seq deps c := by
    funext ahead u
    exact propext (reached_cons.trans (and_iff_right ho))
  rw [firstAt_cons, heq, or_iff_right fun h => hc h.1.2, and_iff_right fun h => hc h.2]

/-- An entry that is a candidate is the first. -/
theorem firstAt_candidate (hc : Candidate i seq deps c ti) :
    FirstAt (Reached i seq deps c) (ti :: rest) t ↔ some ti = some t := by
  have hr : Reached i seq deps c [] ti := ⟨fun _ h => absurd h List.not_mem_nil, hc⟩
  rw [firstAt_cons, or_iff_left fun h => h.1 hr, and_iff_right hr, Option.some_inj, eq_comm]

/-- With no use of the tree left, there is no candidate the walk comes to. -/
theorem not_firstAt_unused : ∀ {xs : List Entry}, conflictUses i seq deps c xs = [] →
    ¬ FirstAt (Reached i seq deps c) xs t
  | [], _ => firstAt_nil
  | ti :: rest, hu => by
    by_cases he : ti.status = .executed
    · exact not_firstAt_closed (fun h => h.live he) fun h => h.1 he
    by_cases hp : PassedOver i deps ti
    · rw [conflictUses, if_neg he, if_pos hp] at hu
      rw [firstAt_open (fun h => h.walked hp) ⟨he, fun h => absurd hp h⟩]
      exact not_firstAt_unused hu
    · rw [conflictUses_eq_nil he hp] at hu
      have ho : WalksOn i deps c ti := by
        refine ⟨he, fun _ s hs => ?_⟩
        rw [hu.1] at hs
        exact absurd hs List.not_mem_nil
      rw [firstAt_open (fun h => h.used hu.1) ho]
      exact not_firstAt_unused hu.2

/-- From an empty tree, the walk returns the first candidate it comes to; where it comes to none, the
command is as it was. -/
theorem conflictLoop_first : ∀ {xs : List Entry} {rt : T.Tree}, H.stored rt = ∅ →
    Kept c.spans (conflictUses i seq deps c xs) →
      conflictLoop T i seq deps xs rt (some c) = some q →
        (∀ t, q.1 = some t ↔ FirstAt (Reached i seq deps c) xs t) ∧ (q.1 = none → q.2 = some c)
  | [], _, _, _, h => by
    cases h
    exact ⟨fun t => iff_of_false (by rintro ⟨⟩) firstAt_nil, fun _ => rfl⟩
  | ti :: rest, rt, hrt, hk, h => by
    have ends : ¬ Candidate i seq deps c ti → ¬ WalksOn i deps c ti → q = (none, some c) →
        (∀ t, q.1 = some t ↔ FirstAt (Reached i seq deps c) (ti :: rest) t)
          ∧ (q.1 = none → q.2 = some c) := by
      rintro hn ho rfl
      exact ⟨fun t => iff_of_false (by rintro ⟨⟩) (not_firstAt_closed hn ho), fun _ => rfl⟩
    have goes : ∀ {rt' : T.Tree}, H.stored rt' = ∅ → Kept c.spans (conflictUses i seq deps c rest) →
        ¬ Candidate i seq deps c ti → WalksOn i deps c ti →
        conflictLoop T i seq deps rest rt' (some c) = some q →
          (∀ t, q.1 = some t ↔ FirstAt (Reached i seq deps c) (ti :: rest) t)
            ∧ (q.1 = none → q.2 = some c) := by
      intro rt' hrt' hk hn ho h
      have ih := conflictLoop_first hrt' hk h
      exact ⟨fun t => (ih.1 t).trans (firstAt_open hn ho).symm, ih.2⟩
    rcases conflict_cases h with ⟨he, hq, -⟩ | ⟨he, hp, h, -⟩
      | ⟨⟨he, hp⟩, tc, htc, hr, ⟨hw, hov⟩, hgo⟩ | ⟨⟨he, hp⟩, tc, l, htc, hw, -, hl, hgo⟩
    · exact ends (fun h => h.live he) (fun h => h.1 he) hq
    · rw [conflictUses_pass he hp] at hk
      have hno : PassedOver i deps ti ∨ uses c ti.command = [] := hp.imp_right uses_quiet
      refine goes hrt hk (fun h => hno.elim h.walked h.used) ⟨he, fun hp' s hs => ?_⟩ h
      rw [hno.resolve_left hp'] at hs
      exact absurd hs List.not_mem_nil
    · have hu : uses c ti.command = [none] := htc ▸ uses_read hr hw hov
      have hcand : isDepConflict ti seq deps i.key.replicaId = true → Candidate i seq deps c ti :=
        fun hd => ⟨he, hp, hu ▸ List.cons_ne_nil _ _, hd⟩
      rw [conflictUses_cons he hp, hu] at hk
      rcases hgo with ⟨⟨-, hd⟩, rfl, -⟩ | ⟨hn, h, -⟩
      · exact ⟨fun t => (firstAt_candidate (hcand hd)).symm, by rintro ⟨⟩⟩
      · have hnd : ¬ isDepConflict ti seq deps i.key.replicaId = true := fun hd =>
          hn ⟨readDependency_empty H hrt, hd⟩
        rw [if_neg fun hd => hnd hd.2] at hk
        refine goes hrt hk (fun h => hnd h.conflict) ⟨he, fun _ s hs => ?_⟩ h
        rw [hu] at hs
        cases List.mem_singleton.1 hs
    · have hu : uses c ti.command = _ := htc ▸ uses_write hw
      have hout := @spanLoop_outcome T H ((overlapSparse tc.spans c.spans).take tc.spans.length)
        c.spans [] rt hrt spanKeys_nil
      rw [← hl] at hout
      clear hl
      rw [conflictUses_cons he hp, hu] at hk
      generalize nonempty ((overlapSparse tc.spans c.spans).take tc.spans.length) = puts at *
      have hmem : ∀ {s}, some s ∈ uses c ti.command ↔ s ∈ puts := by
        intro s
        rw [hu, List.mem_map]
        exact ⟨fun ⟨_, hs, h⟩ => Option.some.inj h ▸ hs, fun hs => ⟨s, hs, rfl⟩⟩
      have hne : uses c ti.command ≠ [] ↔ puts ≠ [] := hu ▸ not_congr List.map_eq_nil_iff
      -- what the entry adds decides whether it is a candidate
      have hcand : (l.2.2.1 = true ↔ puts ≠ []) → (Candidate i seq deps c ti
          ↔ l.2.2.1 = true ∧ isDepConflict ti seq deps i.key.replicaId = true) := fun ha =>
        ⟨fun h => ⟨ha.2 (hne.1 h.used), h.conflict⟩, fun h => ⟨he, hp, hne.2 (ha.1 h.1), h.2⟩⟩
      have hnot : ¬ (l.2.2.1 = true ∧ isDepConflict ti seq deps i.key.replicaId = true) →
          (l.2.2.1 = true ↔ puts ≠ []) →
            Kept c.spans (puts.map some ++ conflictUses i seq deps c rest) := by
        intro hn ha
        rwa [if_neg fun hd => hn ⟨ha.2 fun h => hd.1 (h ▸ rfl), hd.2⟩] at hk
      cases hout with
      | covered hs hc hx ha hcov hin _ =>
        obtain ⟨s, hsp, hsc⟩ := hin
        have hap : l.2.2.1 = true ↔ puts ≠ [] := iff_of_true ha (List.ne_nil_of_mem hsp)
        rcases hgo with ⟨hend, rfl, -⟩ | ⟨hn, ⟨-, hq, -⟩ | ⟨hcov', -⟩⟩
        · exact ⟨fun t => (firstAt_candidate ((hcand hap).2 hend)).symm, by rintro ⟨⟩⟩
        · rw [hc] at hq
          exact ends (fun h => hn ((hcand hap).1 h)) (fun h => h.2 hp s (hmem.2 hsp) hsc) hq
        · rw [hcov] at hcov'
          cases hcov'
      | free hs hc hx hap hcov hno hrt' _ hkept =>
        rcases hgo with ⟨hend, rfl, -⟩ | ⟨hn, ⟨hcov', -⟩ | ⟨-, h, -⟩⟩
        · exact ⟨fun t => (firstAt_candidate ((hcand hap).2 hend)).symm, by rintro ⟨⟩⟩
        · rw [hcov] at hcov'
          cases hcov'
        · rw [hc] at h
          exact goes hrt' ((hkept _).1 (hnot hn hap)) (fun h => hn ((hcand hap).1 h))
            ⟨he, fun _ s hs => hno s (hmem.1 hs)⟩ h
      | held hs hc hx ha hcov _ hkept =>
        have hap : l.2.2.1 = true ↔ puts ≠ [] := iff_of_true ha (puts_ne_nil hkept)
        rcases hgo with ⟨hend, rfl, -⟩ | ⟨hn, ⟨hcov', -⟩ | ⟨-, h, -⟩⟩
        · exact ⟨fun t => (firstAt_candidate ((hcand hap).2 hend)).symm, by rintro ⟨⟩⟩
        · rw [hcov] at hcov'
          cases hcov'
        · have hrest := (hkept _).1 (hnot hn hap)
          rw [hc] at h
          obtain ⟨-, rfl⟩ := conflict_unused hrest h
          refine ⟨fun t => iff_of_false (by rintro ⟨⟩) fun hf => ?_, fun _ => rfl⟩
          rcases firstAt_cons.1 hf with ⟨hr, -⟩ | ⟨-, ahead, behind, hxs, hr, -⟩
          · exact hn ((hcand hap).1 hr.2)
          · obtain ⟨u, hu⟩ := exists_firstAt (reached_cons.1 hr).2 behind
            exact not_firstAt_unused hrest (hxs ▸ hu)
      | broken _ hkept => exact absurd hk (hkept _)

theorem unreached_iff {index : List Entry} : Unreached i seq deps c index
    ↔ ∀ t, ¬ FirstAt (Reached i seq deps c) (walked i index) t := by
  constructor
  · rintro h t ⟨ahead, behind, hxs, hr, -⟩
    exact h ahead t ⟨⟨behind, hxs⟩, hr⟩
  · rintro h ahead t ⟨⟨behind, hxs⟩, hr⟩
    obtain ⟨u, hu⟩ := exists_firstAt hr behind
    exact h u (hxs ▸ hu)

/-- The walk of an index. -/
theorem preAcceptConflict_first (H : TreeLaw T) {index : List Entry}
    (hk : Kept c.spans (conflictUses i seq deps c (walked i index)))
    (h : preAcceptConflict T index i (some c) seq deps = some q) :
    (∀ t, q.1 = some t ↔ FirstAt (Reached i seq deps c) (walked i index) t)
      ∧ (q.1 = none → q.2 = some c) := conflictLoop_first H.stored_init hk h

end Walk

section Rows

variable {T : RangeTree} {i : Instance} {seq : ℕ} {deps : List Dependency} {c : Command}
  {t : Entry} {rows : ℕ → List Entry} {own : Bool} {q : Option Entry × Option Command}

/-- The indexes as `pac_conflict` finds them, where the command may be the one of `i`. -/
def sharedRows (rows : ℕ → List Entry) (i : Instance) (own : Bool) (c : Command) (k : ℕ) :
    List Entry := sharing i own (some c) (rows k)

/-- `t` is the first of its index to be reached, in the first index with one. -/
def FirstReached (i : Instance) (seq : ℕ) (deps : List Dependency) (c : Command)
    (rows : ℕ → List Entry) (t : Entry) : Prop :=
  ∃ k < N, (∀ j < k, Unreached i seq deps c (rows j))
    ∧ FirstAt (Reached i seq deps c) (walked i (rows k)) t

/-- The walks of the indexes from `m` on, where none before reaches an entry. -/
theorem pacLoop_first (H : TreeLaw T) : ∀ {n m : ℕ},
    (∀ k < m + n, (∀ j < k, Unreached i seq deps c (sharedRows rows i own c j)) →
      Kept c.spans (conflictUses i seq deps c (walked i (sharedRows rows i own c k)))) →
    (∀ j < m, Unreached i seq deps c (sharedRows rows i own c j)) →
      pacLoop T rows i own seq deps (List.range' m n) (some c) = some q →
        ∀ t, q.1 = some t
          ↔ ∃ k < m + n, (∀ j < k, Unreached i seq deps c (sharedRows rows i own c j))
            ∧ FirstAt (Reached i seq deps c) (walked i (sharedRows rows i own c k)) t
  | 0, m, _, hm, h, t => by
    cases h
    refine iff_of_false (by rintro ⟨⟩) ?_
    rintro ⟨k, hk, -, hf⟩
    exact unreached_iff.1 (hm k hk) t hf
  | n + 1, m, hw, hm, h, t => by
    have hlt : m < m + (n + 1) := by omega
    rw [List.range'_succ, pacLoop] at h
    rcases hpc : preAcceptConflict T (sharing i own (some c) (rows m)) i (some c) seq deps with
      _ | ⟨_ | t', c'⟩
    · rw [hpc] at h
      cases h
    · obtain ⟨hnone, hcmd⟩ := preAcceptConflict_first H (hw m hlt hm) hpc
      rw [hpc] at h
      obtain rfl : c' = some c := hcmd rfl
      have hm' : ∀ j < m + 1, Unreached i seq deps c (sharedRows rows i own c j) := by
        intro j hj
        rcases Nat.lt_succ_iff_lt_or_eq.1 hj with hj | rfl
        · exact hm j hj
        · exact unreached_iff.2 fun u hu => by cases (hnone u).2 hu
      have heq : m + 1 + n = m + (n + 1) := by omega
      have hgo := @pacLoop_first H n (m + 1) (heq ▸ hw) hm' h t
      rwa [heq] at hgo
    · have hf := ((preAcceptConflict_first H (hw m hlt hm) hpc).1 t').1 rfl
      rw [hpc] at h
      cases h
      constructor
      · rintro ⟨⟩
        exact ⟨m, hlt, hm, hf⟩
      · rintro ⟨k, hk, hj, hft⟩
        rcases lt_trichotomy k m with hkm | rfl | hkm
        · exact absurd hft (unreached_iff.1 (hm k hkm) t)
        · rw [hf.unique hft]
        · exact absurd hf (unreached_iff.1 (hj m hkm) t')

theorem FirstReached.reached (h : FirstReached i seq deps c rows t) :
    ∃ k < N, ∃ ahead, ReachedIn i seq deps c (rows k) ahead t := by
  obtain ⟨k, hk, -, ahead, behind, hxs, hr, -⟩ := h
  exact ⟨k, hk, ahead, ⟨behind, hxs⟩, hr⟩

/-- Where an entry is reached, one is the first, in no later index. -/
theorem exists_firstReached {k : ℕ} {ahead : List Entry}
    (h : ReachedIn i seq deps c (rows k) ahead t) :
    ∃ j ≤ k, (∀ l < j, Unreached i seq deps c (rows l))
      ∧ ∃ u, FirstAt (Reached i seq deps c) (walked i (rows j)) u := by
  have hex : ∃ j, ∃ u, FirstAt (Reached i seq deps c) (walked i (rows j)) u := by
    obtain ⟨⟨behind, hxs⟩, hr⟩ := h
    exact ⟨k, hxs ▸ exists_firstAt hr _⟩
  have hle : ¬ ∀ u, ¬ FirstAt (Reached i seq deps c) (walked i (rows k)) u := fun hn =>
    unreached_iff.2 hn ahead t h
  classical
  refine ⟨Nat.find hex, Nat.find_min' hex (not_forall_not.1 hle), fun l hl => ?_, Nat.find_spec hex⟩
  exact unreached_iff.2 (not_exists.1 (Nat.find_min hex hl))

/-- The first entry to be reached is a real conflict exactly where each entry reached is one or comes
behind one. -/
theorem firstReached_iff {R : Entry → Prop} : (∀ t, FirstReached i seq deps c rows t → R t)
    ↔ ∀ k < N, ∀ ahead t, ReachedIn i seq deps c (rows k) ahead t →
      R t ∨ (∃ pre e post, ahead = pre ++ e :: post ∧ Reached i seq deps c pre e ∧ R e)
        ∨ ∃ j < k, ∃ pre e, ReachedIn i seq deps c (rows j) pre e ∧ R e := by
  constructor
  · intro h k hk ahead t hr
    obtain ⟨j, hjk, hno, u, hu⟩ := exists_firstReached hr
    rcases lt_or_eq_of_le hjk with hlt | rfl
    · have hru := h u ⟨j, hlt.trans hk, hno, hu⟩
      obtain ⟨pre, post, hxs, hpu, -⟩ := hu
      exact .inr (.inr ⟨j, hlt, pre, u, ⟨⟨post, hxs⟩, hpu⟩, hru⟩)
    · have hfirst : ∀ v, FirstAt (Reached i seq deps c) (walked i (rows j)) v → R v :=
        fun v hv => h v ⟨j, hk, hno, hv⟩
      obtain ⟨⟨behind, hxs⟩, hr⟩ := hr
      exact (forall_firstAt.1 hfirst ahead t behind hxs hr).imp_right .inl
  · rintro h t ⟨k, hk, hno, ahead, behind, hxs, hr, hfirst⟩
    rcases h k hk ahead t ⟨⟨behind, hxs⟩, hr⟩ with hreal | ⟨pre, e, post, hahead, hpe, -⟩
      | ⟨j, hj, pre, e, hre, -⟩
    · exact hreal
    · exact absurd hpe (hfirst pre e post hahead)
    · exact absurd hre (hno j hj pre e)

end Rows

/-- A write from `b` to `c`, the first instance of replica 1. -/
def otherWrite : Instance :=
  { newInstance ⟨1, 1⟩ with
    status := .preAccepted, command := some ⟨[⟨[98], [99]⟩], 0, .write⟩ }

/-- A replica with the write in index 1 and the instance in index 0. -/
def twoRows (n : ℕ) : Replica := ((newReplica 0).put otherWrite).put (newInstance ⟨0, n⟩)

theorem mem_twoRows {n k : ℕ} {t : Entry} (h : t ∈ (twoRows n).rows k) :
    t = (newInstance ⟨0, n⟩).entry ∨ t = otherWrite.entry := by
  obtain ⟨x, hx, rfl⟩ := List.mem_map.1 h
  rcases Replica.mem_put hx with rfl | hx
  · exact .inl rfl
  · rcases Replica.mem_put hx with rfl | hx
    · exact .inr rfl
    · exact absurd hx List.not_mem_nil

/-- The command from `b` to `b`. -/
def writeB : Command := ⟨[⟨[98], [98]⟩], 0, .write⟩

theorem otherWrite_real {n : ℕ} (hn : 0 < n) :
    Real (newInstance ⟨0, n⟩) 0 [] writeB (twoRows n).rows otherWrite.entry := by
  constructor
  · have hc : Candidate (newInstance ⟨0, n⟩) 0 [] writeB otherWrite.entry := by
      refine ⟨by decide, ?_, by decide, show isDepConflict otherWrite.entry 0 [] 0 = true by decide⟩
      rintro (h | h | h)
      · cases h
      · cases h
      · exact absurd h (not_le.2 hn)
    exact hc.conflicting (by rintro ⟨⟩) .nil (by decide)
  · refine ⟨1, by decide, List.mem_singleton_self _, fun hs => ?_⟩
    obtain ⟨y, hy, hlt, -⟩ := hs [98] ⟨_, List.mem_singleton_self _, le_rfl, le_rfl⟩
    obtain rfl : y = otherWrite.entry := List.mem_singleton.1 hy
    exact absurd hlt (lt_irrefl 1)

/-- A write from `b` to `c`, the second instance of replica 1. -/
def laterWrite : Instance :=
  { newInstance ⟨1, 2⟩ with
    status := .preAccepted, command := some ⟨[⟨[98], [99]⟩], 0, .write⟩ }

end Epx
