import Epx.Proofs.Misses

/-!
# When the coverage test is read-only

A scan puts each write span it takes up to its tree, and the spans of the command after it. The
command is left as it was, and the tree covers the keys of the spans put to it, exactly where the
first span encloses the command, or none is put and the tree used after one that is left there.
-/

namespace Epx

/-- The uses of the tree by `seq_deps_for_command`, down to the first `EXECUTED` entry. -/
def scanUses (ignore : Option InstanceId) (c : Command) : List Instance → List (Option Span)
  | [] => []
  | ti :: rest =>
    if ignore = some ti.key then scanUses ignore c rest
    else if ti.status = .executed then []
    else uses c ti.command ++ scanUses ignore c rest

/-- The entries that `pre_accept_conflict` can come to. -/
def walked (i : Instance) (index : List Entry) : List Entry :=
  index.dropWhile fun x => x.key.instanceId ≠ i.key.instanceId

/-- The entries that `pre_accept_conflict` passes over. -/
def PassedOver (i : Instance) (deps : List Dependency) (ti : Entry) : Prop :=
  hasKey ti.key deps = true ∨ ti.command = none
    ∨ i.key.instanceId ≤ ltDepReplica i.key.replicaId ti.deps

instance (i : Instance) (deps : List Dependency) (ti : Entry) : Decidable (PassedOver i deps ti) :=
  inferInstanceAs (Decidable (_ ∨ _))

/-- The uses of the tree by `pre_accept_conflict`, down to the first `EXECUTED` entry or the first
that uses it and that `is_dep_conflict` holds of. -/
def conflictUses (i : Instance) (seq : ℕ) (deps : List Dependency) (c : Command) :
    List Entry → List (Option Span)
  | [] => []
  | ti :: rest =>
    if ti.status = .executed then []
    else if PassedOver i deps ti then conflictUses i seq deps c rest
    else if uses c ti.command ≠ [] ∧ isDepConflict ti seq deps i.key.replicaId = true then
      uses c ti.command
    else uses c ti.command ++ conflictUses i seq deps c rest

/-- The first span put to the tree encloses the spans of the command, or meets none of them without
enclosing it and is the last use of the tree; or it is an inverted one, which has no keys, and the
first span it meets without enclosing it encloses it and takes it out of the tree. -/
def Kept (spans : List Span) : List (Option Span) → Prop
  | [] => True
  | none :: us => Kept spans us
  | some s :: us =>
    EnclosesAll s spans ∨ (¬ ∃ t ∈ spans, Clips s t) ∧ us = []
      ∨ (∃ t ∈ spans, Clips s t) ∧ ¬ s.Valid ∧ widen s spans = spans ∧ Kept spans us

section Trace

variable (T : RangeTree)

/-- What `pre_accept_conflict` does with its tree. -/
def conflictTrace (i : Instance) (seq : ℕ) (deps : List Dependency) :
    List Entry → T.Tree → Option Command → List (Point T)
  | [], _, _ => []
  | ti :: rest, rt, c =>
    if isState ti.status [.executed] then []
    else if hasKey ti.key deps then conflictTrace i seq deps rest rt c
    else if ti.command = none then conflictTrace i seq deps rest rt c
    else if i.key.instanceId ≤ ltDepReplica i.key.replicaId ti.deps then
      conflictTrace i seq deps rest rt c
    else
      match interferes ti.command c with
      | none => []
      | some [] => conflictTrace i seq deps rest rt c
      | some (s :: ss) =>
        match ti.command, c with
        | some tc, some cmd =>
          if tc.writing = .write then
            let cspan := (s :: ss).take tc.spans.length
            let (rt', spans, add, covered) := spanLoop T rt cspan cmd.spans
            spanTrace T rt cspan cmd.spans
              ++ if add && isDepConflict ti seq deps i.key.replicaId then []
                else if covered then []
                else conflictTrace i seq deps rest rt' (some { cmd with spans })
          else .use rt
            :: if readDependency T rt cmd && isDepConflict ti seq deps i.key.replicaId then []
              else conflictTrace i seq deps rest rt c
        | _, _ => []

variable {T} (H : TreeLaw T)

/-- The ranges stored cover the keys of the spans, no more and no less. -/
def CoversKeys (rt : T.Tree) (ss : List Span) : Prop :=
  {k | ∃ d ∈ H.stored rt, k ∈ d.keys} = spanKeys ss

/-- At every point of the scan the tree covers the keys of the spans put to it so far: where it is
used, and after each of the command's spans put to it. -/
def Exact : List Span → List (Point T) → Prop
  | _, [] => True
  | ss, .use rt :: trace => CoversKeys H rt ss ∧ Exact ss trace
  | ss, .put s rt spans :: trace =>
    (∀ p, p <+: spans → CoversKeys H (coverLoop T rt p).1 (ss ++ [s])) ∧ Exact (ss ++ [s]) trace

/-- The spans put to the tree. -/
def putSpans : List (Point T) → List Span
  | [] => []
  | .use _ :: trace => putSpans trace
  | .put s _ _ :: trace => s :: putSpans trace

/-- A scan for `c` goes to its tree only where it holds no span of a block it has left, leaves the
command as it is, and has the tree cover what has been put to it. -/
structure ReadOnly (c : Command) (trace : List (Point T)) (cmd : Option Command) : Prop where
  inScope : Scoped H trace
  command : cmd = some c
  covers : Exact H [] trace

end Trace

section Points

variable {T : RangeTree} {H : TreeLaw T} {rt : T.Tree} {s : Span} {ss cspan spans : List Span}
  {trace trace' : List (Point T)}

theorem spanKeys_nil : spanKeys [] = ∅ :=
  Set.eq_empty_of_forall_notMem fun _ ⟨_, h, _⟩ => absurd h List.not_mem_nil

theorem spanKeys_append (ss us : List Span) : spanKeys (ss ++ us) = spanKeys ss ∪ spanKeys us := by
  ext k
  constructor
  · rintro ⟨s, hs, hk⟩
    rcases List.mem_append.1 hs with hs | hs
    · exact .inl ⟨s, hs, hk⟩
    · exact .inr ⟨s, hs, hk⟩
  · rintro (⟨s, hs, hk⟩ | ⟨s, hs, hk⟩)
    · exact ⟨s, List.mem_append_left _ hs, hk⟩
    · exact ⟨s, List.mem_append_right _ hs, hk⟩

theorem spanKeys_singleton (s : Span) : spanKeys [s] = s.keys := by
  ext k
  constructor
  · rintro ⟨t, ht, hk⟩
    exact List.mem_singleton.1 ht ▸ hk
  · exact fun hk => ⟨s, List.mem_singleton_self s, hk⟩

/-- An inverted span has no keys. -/
theorem keys_eq_empty (h : ¬ s.Valid) : s.keys = ∅ :=
  Set.eq_empty_of_forall_notMem fun _ hk => h (Span.valid_iff.2 (hk.1.trans hk.2))

theorem Span.Valid.startKey_mem (h : s.Valid) : s.startKey ∈ s.keys := ⟨le_rfl, Span.valid_iff.1 h⟩

theorem coversKeys_empty (h : H.stored rt = ∅) : CoversKeys H rt ss ↔ spanKeys ss = ∅ := by
  have he : {k | ∃ d ∈ H.stored rt, k ∈ d.keys} = (∅ : Set Key) := by
    rw [h]
    exact Set.eq_empty_of_forall_notMem fun _ ⟨_, hd, _⟩ => hd
  unfold CoversKeys
  rw [he, eq_comm]

/-- A tree that holds the last span covers what was put to it, where those before have no keys. -/
theorem coversKeys_single (h : H.stored rt = {s}) (hss : spanKeys ss = ∅) :
    CoversKeys H rt (ss ++ [s]) := by
  unfold CoversKeys
  rw [h, spanKeys_append, hss, Set.empty_union, spanKeys_singleton]
  ext k
  exact ⟨fun ⟨d, hd, hk⟩ => hd ▸ hk, fun hk => ⟨s, rfl, hk⟩⟩

theorem exact_append : ∀ {trace : List (Point T)} {ss : List Span},
    Exact H ss (trace ++ trace') ↔ Exact H ss trace ∧ Exact H (ss ++ putSpans trace) trace'
  | [], ss => by
    rw [List.nil_append]
    refine ⟨fun h => ⟨trivial, ?_⟩, fun h => ?_⟩
    · show Exact H (ss ++ []) trace'
      rwa [List.append_nil]
    · rw [← List.append_nil ss]
      exact h.2
  | .use rt :: trace, ss => by
    show CoversKeys H rt ss ∧ Exact H ss (trace ++ trace')
      ↔ (CoversKeys H rt ss ∧ Exact H ss trace) ∧ Exact H (ss ++ putSpans trace) trace'
    rw [exact_append, and_assoc]
  | .put s rt spans :: trace, ss => by
    show _ ∧ Exact H (ss ++ [s]) (trace ++ trace')
      ↔ (_ ∧ Exact H (ss ++ [s]) trace) ∧ Exact H (ss ++ (s :: putSpans trace)) trace'
    rw [exact_append, and_assoc, List.append_assoc, List.singleton_append]

theorem widens_widen : ∀ spans : List Span,
    List.Forall₂ (fun t u => encloses u t = true) spans (widen s spans)
  | [] => .nil
  | t :: ts => by
    rw [widen]
    split_ifs
    · exact .cons (encloses_hull t s) (widened_spans_refl ts)
    · exact .cons (encloses_refl t) (widens_widen ts)

/-- What comes of a loop over spans to put to an empty tree, with keyless spans put before: a span
that encloses the command ends it, each is taken out again, the last is left there, or the tree is
used after one is left, a key is lost or the command is changed. -/
inductive LoopOutcome (H : TreeLaw T) (spans ss puts : List Span) (trace : List (Point T))
    (l : T.Tree × List Span × Bool × Bool) : Prop
  | covered (hs : Scoped H trace) (hc : l.2.1 = spans) (hx : Exact H ss trace)
      (ha : l.2.2.1 = true) (hcov : l.2.2.2 = true) (hin : ∃ s ∈ puts, EnclosesAll s spans)
      (hk : ∀ us, Kept spans (puts.map some ++ us))
  | free (hs : Scoped H trace) (hc : l.2.1 = spans) (hx : Exact H ss trace)
      (ha : l.2.2.1 = true ↔ puts ≠ []) (hcov : l.2.2.2 = false)
      (hout : ∀ s ∈ puts, ¬ EnclosesAll s spans) (hrt : H.stored l.1 = ∅)
      (hput : spanKeys (ss ++ putSpans trace) = ∅)
      (hk : ∀ us, Kept spans (puts.map some ++ us) ↔ Kept spans us)
  | held (hs : Scoped H trace) (hc : l.2.1 = spans) (hx : Exact H ss trace)
      (ha : l.2.2.1 = true) (hcov : l.2.2.2 = false) (hrt : H.stored l.1 ≠ ∅)
      (hk : ∀ us, Kept spans (puts.map some ++ us) ↔ us = [])
  | broken (hb : ¬ (Scoped H trace ∧ l.2.1 = spans ∧ Exact H ss trace))
      (hk : ∀ us, ¬ Kept spans (puts.map some ++ us))

/-- An inverted span taken out of the tree again leaves what comes of the rest of the loop. -/
theorem LoopOutcome.after {puts : List Span} {l : T.Tree × List Span × Bool × Bool}
    (h : LoopOutcome H spans (ss ++ [s]) puts trace l) (hs : H.stored rt = ∅) (hss : spanKeys ss = ∅)
    (hx : ∀ p, p <+: spans → CoversKeys H (coverLoop T (T.insert rt s) p).1 (ss ++ [s]))
    (hv : ¬ s.Valid) (hcl : ∃ t ∈ spans, Clips s t) (hw : widen s spans = spans) :
    LoopOutcome H spans ss (s :: puts) (.use rt :: .put s (T.insert rt s) spans :: trace)
      (l.1, l.2.1, true, l.2.2.2) := by
  have hscoped : Scoped H (.use rt :: .put s (T.insert rt s) spans :: trace) ↔ Scoped H trace := by
    rw [scoped_use, scoped_put, and_iff_right hs]
  have hexact : Exact H ss (.use rt :: .put s (T.insert rt s) spans :: trace)
      ↔ Exact H (ss ++ [s]) trace :=
    (and_iff_right ((coversKeys_empty hs).2 hss)).trans (and_iff_right hx)
  have hnc : ¬ EnclosesAll s spans := not_enclosesAll hcl
  have hkept : ∀ us, Kept spans ((s :: puts).map some ++ us)
      ↔ Kept spans (puts.map some ++ us) := by
    intro us
    show EnclosesAll s spans ∨ _ ∨ _ ↔ _
    rw [or_iff_right hnc, or_iff_right fun h => h.1 hcl]
    exact ⟨fun h => h.2.2.2, fun h => ⟨hcl, hv, hw, h⟩⟩
  cases h with
  | covered hs hc hx ha hcov hin hk =>
    obtain ⟨u, hu, huc⟩ := hin
    exact .covered (hscoped.2 hs) hc (hexact.2 hx) rfl hcov ⟨u, List.mem_cons_of_mem s hu, huc⟩
      fun us => (hkept us).2 (hk us)
  | free hs hc hx ha hcov hout hrt hput hk =>
    refine .free (hscoped.2 hs) hc (hexact.2 hx) (iff_of_true rfl (List.cons_ne_nil s puts)) hcov
      (List.forall_mem_cons.2 ⟨hnc, hout⟩) hrt ?_ fun us => (hkept us).trans (hk us)
    rw [List.append_assoc] at hput
    exact hput
  | held hs hc hx ha hcov hrt hk =>
    exact .held (hscoped.2 hs) hc (hexact.2 hx) rfl hcov hrt fun us => (hkept us).trans (hk us)
  | broken hb hk =>
    exact .broken (fun h => hb ⟨hscoped.1 h.1, h.2.1, hexact.1 h.2.2⟩)
      fun us h => hk us ((hkept us).1 h)

theorem coverLoop_upto (h : H.stored rt = {s}) (hss : spanKeys ss = ∅)
    (hcl : (¬ ∃ t ∈ spans, Clips s t) ∨ ¬ s.Valid) :
    ∀ p, p <+: spans → CoversKeys H (coverLoop T rt p).1 (ss ++ [s]) := by
  intro p hp
  by_cases hc : ∃ t ∈ p, Clips s t
  · -- an inverted span has no keys to lose
    have hv : ¬ s.Valid := by
      refine hcl.resolve_left fun hn => hn ?_
      obtain ⟨t, ht, h⟩ := hc
      exact ⟨t, hp.subset ht, h⟩
    rw [coversKeys_empty (coverLoop_clips H h hc).1, spanKeys_append, hss, spanKeys_singleton,
      keys_eq_empty hv, Set.union_empty]
  have hrt : (coverLoop T rt p).1 = rt := by
    by_cases ha : EnclosesAll s p
    · rw [coverLoop_enclosesAll H h ha]
    · rw [coverLoop_apart H h hc ha]
  rw [hrt]
  exact coversKeys_single h hss

theorem outcome_unused (hrt : H.stored rt = ∅) (hss : spanKeys ss = ∅) :
    LoopOutcome H spans ss [] [] (rt, spans, false, false) := by
  refine .free (scoped_nil H) rfl trivial (iff_of_false Bool.false_ne_true fun h => h rfl) rfl
    (fun _ h => absurd h List.not_mem_nil) hrt ?_ fun _ => Iff.rfl
  show spanKeys (ss ++ []) = ∅
  rwa [List.append_nil]

theorem spanLoop_outcome : ∀ {cspan spans ss : List Span} {rt : T.Tree}, H.stored rt = ∅ →
    spanKeys ss = ∅ → LoopOutcome H spans ss (nonempty cspan) (spanTrace T rt cspan spans)
      (spanLoop T rt cspan spans)
  | [], _, _, _, hrt, hss => outcome_unused hrt hss
  | s :: cspan, spans, ss, rt, hrt, hss => by
    by_cases he : emptyRange s = true
    · obtain ⟨hl, ht⟩ := @spanLoop_unused T rt (s :: cspan) spans (nonempty_empty he)
      rw [nonempty_empty he, hl, ht]
      exact outcome_unused hrt hss
    rw [nonempty_cons he]
    have hst := H.stored_insert hrt s
    have huse : CoversKeys H rt ss := (coversKeys_empty hrt).2 hss
    have kept : ∀ us, Kept spans ((s :: nonempty cspan).map some ++ us)
        ↔ EnclosesAll s spans ∨ (¬ ∃ t ∈ spans, Clips s t) ∧ (nonempty cspan).map some ++ us = []
          ∨ (∃ t ∈ spans, Clips s t) ∧ ¬ s.Valid ∧ widen s spans = spans
            ∧ Kept spans ((nonempty cspan).map some ++ us) := fun _ => Iff.rfl
    rcases put_cases H hrt (Bool.not_eq_true _ ▸ he) cspan spans with
      ⟨hc, hl, ht⟩ | ⟨rt', spans', hstep, hl, ht⟩
    · rw [hl, ht]
      have hncl : ¬ ∃ t ∈ spans, Clips s t := fun hcl => not_enclosesAll hcl hc
      exact .covered ((scoped_use H).2 ⟨hrt, (scoped_put H).2 (scoped_nil H)⟩) rfl
        ⟨huse, coverLoop_upto hst hss (.inl hncl), trivial⟩ rfl rfl
        ⟨s, List.mem_cons_self, hc⟩ fun us => (kept us).2 (.inl hc)
    rw [hl, ht]
    rcases hstep with ⟨hcl, hrt', rfl⟩ | ⟨hcl, hnc, hrt', rfl⟩
    · have hnc : ¬ EnclosesAll s spans := not_enclosesAll hcl
      by_cases hv : s.Valid
      · refine .broken ?_ fun us h => ?_
        · rintro ⟨-, -, -, hp, -⟩
          have hall := hp spans List.prefix_rfl
          rw [coversKeys_empty (coverLoop_clips H hst hcl).1, spanKeys_append, hss,
            spanKeys_singleton, Set.empty_union] at hall
          have hmem := hv.startKey_mem
          rw [hall] at hmem
          exact hmem
        · rcases (kept us).1 h with h | h | h
          · exact hnc h
          · exact h.1 hcl
          · exact h.2.1 hv
      by_cases hw : widen s spans = spans
      · rw [hw]
        have hss' : spanKeys (ss ++ [s]) = ∅ := by
          rw [spanKeys_append, hss, spanKeys_singleton, keys_eq_empty hv, Set.union_empty]
        exact (spanLoop_outcome hrt' hss').after hrt hss
          (coverLoop_upto hst hss (.inr hv)) hv hcl hw
      · refine .broken ?_ fun us h => ?_
        · rintro ⟨-, hsp, -⟩
          have hback := spanLoop_widens cspan rt' (widen s spans)
          rw [hsp] at hback
          exact hw (widened_spans_antisymm hback (widens_widen spans))
        · rcases (kept us).1 h with h | h | h
          · exact hnc h
          · exact h.1 hcl
          · exact hw h.2.2.1
    · by_cases hn : nonempty cspan = []
      · obtain ⟨hl', ht'⟩ := @spanLoop_unused T rt' cspan spans' hn
        rw [hl', ht', hn]
        refine .held ((scoped_use H).2 ⟨hrt, (scoped_put H).2 (scoped_nil H)⟩) rfl
          ⟨huse, coverLoop_upto hst hss (.inl hcl), trivial⟩ rfl rfl hrt' fun us => ?_
        rw [hn] at kept
        rw [kept us, or_iff_right hnc, or_iff_left fun h => hcl h.1, and_iff_right hcl]
        exact Iff.rfl
      · obtain ⟨tr, htr⟩ := @spanTrace_used T rt' cspan spans' hn
        rw [htr]
        refine .broken (fun h => ?_) fun us h => ?_
        · exact hrt' ((scoped_use H).1 ((scoped_put H).1 ((scoped_use H).1 h.1).2)).1
        · rcases (kept us).1 h with h | h | h
          · exact hnc h
          · exact hn (List.map_eq_nil_iff.1 (List.append_eq_nil_iff.1 h.2).1)
          · exact hcl h.1

/-- Spans that nothing may follow are not none. -/
theorem puts_ne_nil {puts : List Span} (hk : ∀ us, Kept spans (puts.map some ++ us) ↔ us = []) :
    puts ≠ [] := by
  rintro rfl
  exact List.cons_ne_nil none [] ((hk [none]).1 trivial)

/-- Behind a span left in the tree, all stays well exactly where the tree is not used again. -/
theorem held_iff {p : Prop} {us : List (Option Span)} (hs : Scoped H trace) (hx : Exact H ss trace)
    (hrt : H.stored rt ≠ ∅) (hnil : us = [] → trace' = [] ∧ p)
    (hcons : us ≠ [] → ∃ tr, trace' = .use rt :: tr) :
    Scoped H (trace ++ trace') ∧ p ∧ Exact H ss (trace ++ trace') ↔ us = [] := by
  by_cases hu : us = []
  · obtain ⟨htr, hp⟩ := hnil hu
    rw [htr, List.append_nil]
    exact iff_of_true ⟨hs, hp, hx⟩ hu
  · obtain ⟨tr, htr⟩ := hcons hu
    rw [htr, scoped_append, scoped_use]
    exact iff_of_false (fun h => hrt h.1.2.1) hu

/-- Where a loop has broken something, it stays so at the end of the scan. -/
theorem broken_end {c : Command} {cmd : Option Command}
    (hb : ¬ (Scoped H trace ∧ spans = c.spans ∧ Exact H ss trace))
    (hq : cmd = some { c with spans }) :
    ¬ (Scoped H trace ∧ cmd = some c ∧ Exact H ss trace) := by
  rintro ⟨hs, hc, hx⟩
  exact hb ⟨hs, congrArg Command.spans (Option.some.inj (hq.symm.trans hc)), hx⟩

end Points

section Scan

variable {T : RangeTree} {H : TreeLaw T} {rt : T.Tree} {ss : List Span} {c : Command}

/-- Widened, a command does not become what it was. -/
theorem stable_widens (c : Command) : Stable fun cmd => ∃ d, cmd = some d ∧ c.Widens d := by
  rintro d e he ⟨_, ⟨⟩, h⟩
  exact ⟨e, rfl, h.trans he⟩

theorem eq_of_widens_back (hs : List.Forall₂ (fun t u => encloses u t = true) c.spans ss)
    (h : ∃ d, some c = some d ∧ Command.Widens { c with spans := ss } d) : ss = c.spans := by
  obtain ⟨_, ⟨⟩, h⟩ := h
  exact widened_spans_antisymm h.spans hs

section SeqDeps

variable {ignore : Option InstanceId} {q : ℕ × Option Command × Probe}

theorem seqDeps_unused : ∀ {xs : List Instance} {mseq : ℕ} {p : Probe},
    scanUses ignore c xs = [] → seqDepsLoop T ignore xs rt mseq (some c) p = some q →
      seqDepsTrace T ignore xs rt (some c) = [] ∧ q.2.1 = some c
  | [], _, _, _, h => by
    cases h
    exact ⟨rfl, rfl⟩
  | ti :: rest, mseq, p, hu, h => by
    rw [scanUses] at hu
    rcases walk_cases h with ⟨hp, ⟨n, h⟩, -, htr⟩ | ⟨-, -, hq, -, htr⟩
      | ⟨⟨hi, he⟩, tc, htc, hr, ⟨hw, ho⟩, -⟩
      | ⟨⟨hi, he⟩, tc, l, htc, hw, -, hl, hgo⟩
    · rw [htr]
      rcases hp with hp | ⟨he, hp⟩
      · rw [if_pos hp] at hu
        exact seqDeps_unused hu h
      · split_ifs at hu
        · exact seqDeps_unused hu h
        · exact seqDeps_unused (List.append_eq_nil_iff.1 hu).2 h
    · exact ⟨htr, congrArg Prod.fst hq⟩
    · rw [if_neg hi, if_neg he, htc, uses_read hr hw ho] at hu
      cases hu
    · rw [if_neg hi, if_neg he, htc, uses_write hw] at hu
      obtain ⟨hn, hu⟩ := List.append_eq_nil_iff.1 hu
      obtain ⟨hl', htr'⟩ := @spanLoop_unused T rt _ c.spans (List.map_eq_nil_iff.1 hn)
      rw [hl'] at hl
      subst hl
      rcases hgo with ⟨-, ⟨n, h⟩, -, htr⟩ | ⟨hc, -⟩
      · rw [htr, htr', List.nil_append]
        exact seqDeps_unused hu h
      · cases hc

theorem seqDeps_used : ∀ {xs : List Instance} {mseq : ℕ} {p : Probe},
    scanUses ignore c xs ≠ [] → seqDepsLoop T ignore xs rt mseq (some c) p = some q →
      ∃ tr, seqDepsTrace T ignore xs rt (some c) = .use rt :: tr
  | [], _, _, hu, _ => absurd rfl hu
  | ti :: rest, mseq, p, hu, h => by
    rw [scanUses] at hu
    rcases walk_cases h with ⟨hp, ⟨n, h⟩, -, htr⟩ | ⟨hi, he, -⟩ | ⟨-, tc, -, -, -, -, -, htr⟩
      | ⟨⟨hi, he⟩, tc, l, htc, hw, -, hl, hgo⟩
    · rw [htr]
      refine seqDeps_used (fun hn => hu ?_) h
      rcases hp with hp | ⟨he, hp⟩
      · rw [if_pos hp, hn]
      · rw [if_neg he, uses_quiet hp, hn, List.nil_append, ite_self]
    · rw [if_neg hi, if_pos he] at hu
      exact absurd rfl hu
    · exact ⟨_, htr⟩
    · rw [if_neg hi, if_neg he, htc, uses_write hw] at hu
      by_cases hn : nonempty ((overlapSparse tc.spans c.spans).take tc.spans.length) = []
      · obtain ⟨hl', htr'⟩ := @spanLoop_unused T rt _ c.spans hn
        rw [hl'] at hl
        subst hl
        rw [hn, List.map_nil, List.nil_append] at hu
        rcases hgo with ⟨-, ⟨n, h⟩, -, htr⟩ | ⟨hc, -⟩
        · rw [htr, htr', List.nil_append]
          exact seqDeps_used hu h
        · cases hc
      · obtain ⟨tr, htr'⟩ := @spanTrace_used T rt _ c.spans hn
        rcases hgo with ⟨-, -, -, htr⟩ | ⟨-, -, -, htr⟩ <;> rw [htr, htr']
        · exact ⟨_, rfl⟩
        · exact ⟨_, rfl⟩

/-- From an empty tree, with keyless spans put before. -/
theorem seqDeps_readOnly : ∀ {xs : List Instance} {rt : T.Tree} {ss : List Span} {mseq : ℕ}
    {p : Probe}, H.stored rt = ∅ → spanKeys ss = ∅ →
      seqDepsLoop T ignore xs rt mseq (some c) p = some q →
        (Scoped H (seqDepsTrace T ignore xs rt (some c)) ∧ q.2.1 = some c
            ∧ Exact H ss (seqDepsTrace T ignore xs rt (some c))
          ↔ Kept c.spans (scanUses ignore c xs))
  | [], _, _, _, _, _, _, h => by
    cases h
    exact iff_of_true ⟨scoped_nil H, rfl, trivial⟩ trivial
  | ti :: rest, rt, ss, mseq, p, hrt, hss, h => by
    rw [scanUses]
    rcases walk_cases h with ⟨hp, ⟨n, h⟩, -, htr⟩ | ⟨hi, he, hq, -, htr⟩
      | ⟨⟨hi, he⟩, tc, htc, hr, ⟨hw, ho⟩, ⟨n, h⟩, -, htr⟩
      | ⟨⟨hi, he⟩, tc, l, htc, hw, -, hl, hgo⟩
    · rw [htr, seqDeps_readOnly hrt hss h]
      rcases hp with hp | ⟨he, hp⟩
      · rw [if_pos hp]
      · rw [if_neg he, uses_quiet hp, List.nil_append, ite_self]
    · rw [htr, hq, if_neg hi, if_pos he]
      exact iff_of_true ⟨scoped_nil H, rfl, trivial⟩ trivial
    · rw [if_neg hi, if_neg he, htc, uses_read hr hw ho, htr, scoped_use, and_iff_right hrt]
      show _ ∧ _ ∧ CoversKeys H rt ss ∧ _ ↔ Kept c.spans (scanUses ignore c rest)
      rw [and_iff_right ((coversKeys_empty hrt).2 hss)]
      exact seqDeps_readOnly hrt hss h
    · rw [if_neg hi, if_neg he, htc, uses_write hw]
      have hout := @spanLoop_outcome T H ((overlapSparse tc.spans c.spans).take tc.spans.length)
        c.spans ss rt hrt hss
      rw [← hl] at hout
      have hwid := spanLoop_widens ((overlapSparse tc.spans c.spans).take tc.spans.length) rt
        c.spans
      rw [← hl] at hwid
      have hback : ∀ {n p'}, seqDepsLoop T ignore rest l.1 n (some { c with spans := l.2.1 }) p'
          = some q → q.2.1 = some c → l.2.1 = c.spans := by
        intro n p' h hq
        refine eq_of_widens_back hwid (hq ▸ ?_)
        exact seqDepsLoop_command (stable_widens _) h ⟨_, rfl, .refl _⟩
      clear hl
      cases hout with
      | covered hs hc hx _ hcov _ hk =>
        rcases hgo with ⟨hcov', -⟩ | ⟨-, hq, -, htr⟩
        · rw [hcov] at hcov'
          cases hcov'
        · rw [htr, hq, hc]
          exact iff_of_true ⟨hs, rfl, hx⟩ (hk _)
      | free hs hc hx _ hcov _ hrt' hput hk =>
        rcases hgo with ⟨-, ⟨n, h⟩, -, htr⟩ | ⟨hcov', -⟩
        · rw [hc] at h htr
          rw [htr, scoped_append, exact_append, and_iff_right hs, and_iff_right hx, hk]
          exact seqDeps_readOnly hrt' hput h
        · rw [hcov] at hcov'
          cases hcov'
      | held hs hc hx _ hcov hrt' hk =>
        rcases hgo with ⟨-, ⟨n, h⟩, -, htr⟩ | ⟨hcov', -⟩
        · rw [hc] at h htr
          rw [htr, hk]
          exact held_iff hs hx hrt' (fun hu => seqDeps_unused hu h) fun hu => seqDeps_used hu h
        · rw [hcov] at hcov'
          cases hcov'
      | broken hb hk =>
        refine iff_of_false ?_ (hk _)
        rcases hgo with ⟨-, ⟨n, h⟩, -, htr⟩ | ⟨-, hq, -, htr⟩ <;> rw [htr]
        · rw [scoped_append, exact_append]
          exact fun hr => hb ⟨hr.1.1, hback h hr.2.1, hr.2.2.1⟩
        · exact broken_end hb (congrArg Prod.fst hq)

end SeqDeps

section Conflict

variable {i : Instance} {seq : ℕ} {deps : List Dependency} {ti : Entry} {rest : List Entry}
  {q : Option Entry × Option Command}

/-- What the walk of `pre_accept_conflict` does at an entry: it ends there, passes over it, asks the
tree about a read, or puts the spans of a write to the tree. -/
theorem conflict_cases (h : conflictLoop T i seq deps (ti :: rest) rt (some c) = some q) :
    (ti.status = .executed ∧ q = (none, some c)
      ∧ conflictTrace T i seq deps (ti :: rest) rt (some c) = [])
    ∨ (ti.status ≠ .executed
      ∧ (PassedOver i deps ti ∨ interferes ti.command (some c) = some [])
      ∧ conflictLoop T i seq deps rest rt (some c) = some q
      ∧ conflictTrace T i seq deps (ti :: rest) rt (some c)
        = conflictTrace T i seq deps rest rt (some c))
    ∨ ((ti.status ≠ .executed ∧ ¬ PassedOver i deps ti)
      ∧ ∃ tc, ti.command = some tc ∧ tc.writing = .read
      ∧ (c.writing = .write ∧ overlapSparse tc.spans c.spans ≠ [])
      ∧ ((readDependency T rt c = true ∧ isDepConflict ti seq deps i.key.replicaId = true)
          ∧ q = (some ti, some c)
          ∧ conflictTrace T i seq deps (ti :: rest) rt (some c) = [.use rt]
        ∨ ¬ (readDependency T rt c = true ∧ isDepConflict ti seq deps i.key.replicaId = true)
          ∧ conflictLoop T i seq deps rest rt (some c) = some q
          ∧ conflictTrace T i seq deps (ti :: rest) rt (some c)
            = .use rt :: conflictTrace T i seq deps rest rt (some c)))
    ∨ ((ti.status ≠ .executed ∧ ¬ PassedOver i deps ti)
      ∧ ∃ tc l, ti.command = some tc ∧ tc.writing = .write
      ∧ overlapSparse tc.spans c.spans ≠ []
      ∧ l = spanLoop T rt ((overlapSparse tc.spans c.spans).take tc.spans.length) c.spans
      ∧ ((l.2.2.1 = true ∧ isDepConflict ti seq deps i.key.replicaId = true)
          ∧ q = (some ti, some { c with spans := l.2.1 })
          ∧ conflictTrace T i seq deps (ti :: rest) rt (some c)
            = spanTrace T rt ((overlapSparse tc.spans c.spans).take tc.spans.length) c.spans
        ∨ ¬ (l.2.2.1 = true ∧ isDepConflict ti seq deps i.key.replicaId = true)
          ∧ (l.2.2.2 = true ∧ q = (none, some { c with spans := l.2.1 })
              ∧ conflictTrace T i seq deps (ti :: rest) rt (some c)
                = spanTrace T rt ((overlapSparse tc.spans c.spans).take tc.spans.length) c.spans
            ∨ l.2.2.2 = false
              ∧ conflictLoop T i seq deps rest l.1 (some { c with spans := l.2.1 }) = some q
              ∧ conflictTrace T i seq deps (ti :: rest) rt (some c)
                = spanTrace T rt ((overlapSparse tc.spans c.spans).take tc.spans.length) c.spans
                  ++ conflictTrace T i seq deps rest l.1 (some { c with spans := l.2.1 })))) := by
  rw [conflictLoop] at h
  rw [conflictTrace]
  by_cases he : ti.status = .executed
  · have hst : isState ti.status [.executed] = true := by simp [isState, he]
    rw [if_pos hst] at h
    rw [if_pos hst]
    exact .inl ⟨he, (Option.some.inj h).symm, rfl⟩
  have hst : ¬ isState ti.status [.executed] = true := by simp [isState, he]
  rw [if_neg hst] at h
  rw [if_neg hst]
  by_cases hp : PassedOver i deps ti
  · have hpass : ∀ {α : Type} {a b : α}, (if hasKey ti.key deps = true then a
        else if ti.command = none then a
        else if i.key.instanceId ≤ ltDepReplica i.key.replicaId ti.deps then a else b) = a := by
      intro α a b
      rcases hp with hp | hp | hp
      · rw [if_pos hp]
      · rw [if_pos hp, ite_self]
      · rw [if_pos hp, ite_self, ite_self]
    rw [hpass] at h
    rw [hpass]
    exact .inr (.inl ⟨he, .inl hp, h, rfl⟩)
  obtain ⟨h₁, h₂, h₃⟩ : ¬ hasKey ti.key deps = true ∧ ti.command ≠ none
      ∧ ¬ i.key.instanceId ≤ ltDepReplica i.key.replicaId ti.deps := by
    unfold PassedOver at hp
    push Not at hp
    exact ⟨hp.1, hp.2.1, not_le.2 hp.2.2⟩
  rw [if_neg h₁, if_neg h₂, if_neg h₃] at h
  rw [if_neg h₁, if_neg h₂, if_neg h₃]
  rcases hin : interferes ti.command (some c) with _ | _ | ⟨s, cs⟩
  · rw [hin] at h
    cases h
  · rw [hin] at h
    exact .inr (.inl ⟨he, .inr rfl, h, rfl⟩)
  obtain ⟨tc, htc, hwr, hov⟩ := interferes_cons hin
  have hne : overlapSparse tc.spans c.spans ≠ [] := hov ▸ List.cons_ne_nil _ _
  rw [hin, htc] at h
  dsimp only at h ⊢
  rw [htc]
  dsimp only
  by_cases hw : tc.writing = .write
  · rw [if_pos hw, hov] at h
    rw [if_pos hw, hov]
    refine .inr (.inr (.inr ⟨⟨he, hp⟩, tc, _, rfl, hw, hne, rfl, ?_⟩))
    set l := spanLoop T rt ((overlapSparse tc.spans c.spans).take tc.spans.length) c.spans
    by_cases hend : (l.2.2.1 && isDepConflict ti seq deps i.key.replicaId) = true
    · rw [if_pos hend] at h ⊢
      exact .inl ⟨Bool.and_eq_true_iff.1 hend, (Option.some.inj h).symm, List.append_nil _⟩
    rw [if_neg hend] at h ⊢
    rw [Bool.and_eq_true] at hend
    refine .inr ⟨hend, ?_⟩
    cases hc : l.2.2.2 with
    | false =>
      rw [if_neg (Bool.eq_false_iff.1 hc)] at h
      exact .inr ⟨rfl, h, rfl⟩
    | true =>
      rw [if_pos hc] at h
      exact .inl ⟨rfl, (Option.some.inj h).symm, List.append_nil _⟩
  · have hr : tc.writing = .read := by cases hr : tc.writing <;> simp_all
    rw [if_neg hw] at h
    rw [if_neg hw]
    refine .inr (.inr (.inl ⟨⟨he, hp⟩, tc, rfl, hr, ⟨hwr.resolve_left hw, hne⟩, ?_⟩))
    by_cases hend : (readDependency T rt c && isDepConflict ti seq deps i.key.replicaId) = true
    · rw [if_pos hend] at h ⊢
      exact .inl ⟨Bool.and_eq_true_iff.1 hend, (Option.some.inj h).symm, rfl⟩
    · rw [if_neg hend] at h ⊢
      rw [Bool.and_eq_true] at hend
      exact .inr ⟨hend, h, rfl⟩

theorem conflictUses_pass (he : ti.status ≠ .executed)
    (hp : PassedOver i deps ti ∨ interferes ti.command (some c) = some []) :
    conflictUses i seq deps c (ti :: rest) = conflictUses i seq deps c rest := by
  rw [conflictUses, if_neg he]
  by_cases hp' : PassedOver i deps ti
  · rw [if_pos hp']
  · rw [if_neg hp', uses_quiet (hp.resolve_left hp'), if_neg fun h => h.1 rfl, List.nil_append]

theorem conflictUses_cons (he : ti.status ≠ .executed) (hp : ¬ PassedOver i deps ti) :
    conflictUses i seq deps c (ti :: rest)
      = uses c ti.command
        ++ if uses c ti.command ≠ [] ∧ isDepConflict ti seq deps i.key.replicaId = true then []
          else conflictUses i seq deps c rest := by
  rw [conflictUses, if_neg he, if_neg hp]
  split_ifs
  · exact (List.append_nil _).symm
  · rfl

theorem conflictUses_eq_nil (he : ti.status ≠ .executed) (hp : ¬ PassedOver i deps ti) :
    conflictUses i seq deps c (ti :: rest) = []
      ↔ uses c ti.command = [] ∧ conflictUses i seq deps c rest = [] := by
  rw [conflictUses_cons he hp, List.append_eq_nil_iff]
  refine and_congr_right fun hu => ?_
  rw [if_neg fun h => h.1 hu]

theorem conflict_unused : ∀ {xs : List Entry},
    conflictUses i seq deps c xs = [] → conflictLoop T i seq deps xs rt (some c) = some q →
      conflictTrace T i seq deps xs rt (some c) = [] ∧ q = (none, some c)
  | [], _, h => by
    cases h
    exact ⟨rfl, rfl⟩
  | ti :: rest, hu, h => by
    rcases conflict_cases h with ⟨-, hq, htr⟩ | ⟨he, hp, h, htr⟩
      | ⟨⟨he, hp⟩, tc, htc, hr, ⟨hw, ho⟩, -⟩ | ⟨⟨he, hp⟩, tc, l, htc, hw, -, hl, hgo⟩
    · exact ⟨htr, hq⟩
    · rw [conflictUses_pass he hp] at hu
      rw [htr]
      exact conflict_unused hu h
    · rw [conflictUses_eq_nil he hp, htc, uses_read hr hw ho] at hu
      cases hu.1
    · rw [conflictUses_eq_nil he hp, htc, uses_write hw] at hu
      obtain ⟨hl', htr'⟩ := @spanLoop_unused T rt _ c.spans (List.map_eq_nil_iff.1 hu.1)
      rw [hl'] at hl
      subst hl
      rcases hgo with ⟨⟨ha, -⟩, -⟩ | ⟨-, ⟨hc, -⟩ | ⟨-, h, htr⟩⟩
      · cases ha
      · cases hc
      · rw [htr, htr', List.nil_append]
        exact conflict_unused hu.2 h

theorem conflict_used : ∀ {xs : List Entry},
    conflictUses i seq deps c xs ≠ [] → conflictLoop T i seq deps xs rt (some c) = some q →
      ∃ tr, conflictTrace T i seq deps xs rt (some c) = .use rt :: tr
  | [], hu, _ => absurd rfl hu
  | ti :: rest, hu, h => by
    rcases conflict_cases h with ⟨he, -⟩ | ⟨he, hp, h, htr⟩
      | ⟨-, tc, -, -, -, ⟨-, -, htr⟩ | ⟨-, -, htr⟩⟩ | ⟨⟨he, hp⟩, tc, l, htc, hw, -, hl, hgo⟩
    · rw [conflictUses, if_pos he] at hu
      exact absurd rfl hu
    · rw [conflictUses_pass he hp] at hu
      rw [htr]
      exact conflict_used hu h
    · exact ⟨_, htr⟩
    · exact ⟨_, htr⟩
    · rw [Ne, conflictUses_eq_nil he hp, htc, uses_write hw, List.map_eq_nil_iff] at hu
      by_cases hn : nonempty ((overlapSparse tc.spans c.spans).take tc.spans.length) = []
      · obtain ⟨hl', htr'⟩ := @spanLoop_unused T rt _ c.spans hn
        rw [hl'] at hl
        subst hl
        rcases hgo with ⟨⟨ha, -⟩, -⟩ | ⟨-, ⟨hc, -⟩ | ⟨-, h, htr⟩⟩
        · cases ha
        · cases hc
        · rw [htr, htr', List.nil_append]
          exact conflict_used (fun hr => hu ⟨hn, hr⟩) h
      · obtain ⟨tr, htr'⟩ := @spanTrace_used T rt _ c.spans hn
        rcases hgo with ⟨-, -, htr⟩ | ⟨-, ⟨-, -, htr⟩ | ⟨-, -, htr⟩⟩ <;> rw [htr, htr']
        · exact ⟨_, rfl⟩
        · exact ⟨_, rfl⟩
        · exact ⟨_, rfl⟩

/-- `seqDeps_readOnly` for the walk of `pre_accept_conflict`. -/
theorem conflict_readOnly : ∀ {xs : List Entry} {rt : T.Tree} {ss : List Span},
    H.stored rt = ∅ → spanKeys ss = ∅ → conflictLoop T i seq deps xs rt (some c) = some q →
      (Scoped H (conflictTrace T i seq deps xs rt (some c)) ∧ q.2 = some c
          ∧ Exact H ss (conflictTrace T i seq deps xs rt (some c))
        ↔ Kept c.spans (conflictUses i seq deps c xs))
  | [], _, _, _, _, h => by
    cases h
    exact iff_of_true ⟨scoped_nil H, rfl, trivial⟩ trivial
  | ti :: rest, rt, ss, hrt, hss, h => by
    have huse : CoversKeys H rt ss := (coversKeys_empty hrt).2 hss
    rcases conflict_cases h with ⟨he, hq, htr⟩ | ⟨he, hp, h, htr⟩
      | ⟨⟨he, hp⟩, tc, htc, hr, ⟨hw, ho⟩, hgo⟩ | ⟨⟨he, hp⟩, tc, l, htc, hw, -, hl, hgo⟩
    · rw [htr, hq, conflictUses, if_pos he]
      exact iff_of_true ⟨scoped_nil H, rfl, trivial⟩ trivial
    · rw [htr, conflictUses_pass he hp]
      exact conflict_readOnly hrt hss h
    · rw [conflictUses_cons he hp, htc, uses_read hr hw ho]
      rcases hgo with ⟨⟨-, hd⟩, hq, htr⟩ | ⟨hn, h, htr⟩
      · rw [htr, hq, if_pos ⟨List.cons_ne_nil _ _, hd⟩]
        exact iff_of_true ⟨(scoped_use H).2 ⟨hrt, scoped_nil H⟩, rfl, huse, trivial⟩ trivial
      · rw [htr, if_neg fun hd => hn ⟨readDependency_empty H hrt, hd.2⟩, scoped_use,
          and_iff_right hrt]
        show _ ∧ _ ∧ CoversKeys H rt ss ∧ _ ↔ Kept c.spans (conflictUses i seq deps c rest)
        rw [and_iff_right huse]
        exact conflict_readOnly hrt hss h
    · rw [conflictUses_cons he hp, htc, uses_write hw]
      have hout := @spanLoop_outcome T H ((overlapSparse tc.spans c.spans).take tc.spans.length)
        c.spans ss rt hrt hss
      rw [← hl] at hout
      have hwid := spanLoop_widens ((overlapSparse tc.spans c.spans).take tc.spans.length) rt
        c.spans
      rw [← hl] at hwid
      clear hl
      generalize nonempty ((overlapSparse tc.spans c.spans).take tc.spans.length) = puts at *
      cases hout with
      | covered hs hc hx ha hcov _ hk =>
        rcases hgo with ⟨hend, hq, htr⟩ | ⟨hn, ⟨-, hq, htr⟩ | ⟨hcov', -⟩⟩
        · rw [htr, hq, hc]
          exact iff_of_true ⟨hs, rfl, hx⟩ (hk _)
        · rw [htr, hq, hc]
          exact iff_of_true ⟨hs, rfl, hx⟩ (hk _)
        · rw [hcov] at hcov'
          cases hcov'
      | free hs hc hx ha hcov _ hrt' hput hk =>
        have hput' : puts.map some ≠ [] ↔ l.2.2.1 = true :=
          (not_congr List.map_eq_nil_iff).trans ha.symm
        rcases hgo with ⟨hend, hq, htr⟩ | ⟨hn, ⟨hcov', -⟩ | ⟨-, h, htr⟩⟩
        · rw [htr, hq, hc, if_pos ⟨hput'.2 hend.1, hend.2⟩]
          exact iff_of_true ⟨hs, rfl, hx⟩ ((hk []).2 trivial)
        · rw [hcov] at hcov'
          cases hcov'
        · rw [hc] at h htr
          rw [htr, if_neg fun hd => hn ⟨hput'.1 hd.1, hd.2⟩, scoped_append, exact_append,
            and_iff_right hs, and_iff_right hx, hk]
          exact conflict_readOnly hrt' hput h
      | held hs hc hx ha hcov hrt' hk =>
        have hne : puts.map some ≠ [] := fun h => puts_ne_nil hk (List.map_eq_nil_iff.1 h)
        rcases hgo with ⟨hend, hq, htr⟩ | ⟨hn, ⟨hcov', -⟩ | ⟨-, h, htr⟩⟩
        · rw [htr, hq, hc, if_pos ⟨hne, hend.2⟩]
          exact iff_of_true ⟨hs, rfl, hx⟩ ((hk []).2 rfl)
        · rw [hcov] at hcov'
          cases hcov'
        · rw [hc] at h htr
          rw [htr, if_neg fun hd => hn ⟨ha, hd.2⟩, hk]
          exact held_iff hs hx hrt'
            (fun hu => (conflict_unused hu h).imp_right (congrArg Prod.snd))
            fun hu => conflict_used hu h
      | broken hb hk =>
        refine iff_of_false ?_ (hk _)
        rcases hgo with ⟨-, hq, htr⟩ | ⟨-, ⟨-, hq, htr⟩ | ⟨-, h, htr⟩⟩ <;> rw [htr]
        · exact broken_end hb (congrArg Prod.snd hq)
        · exact broken_end hb (congrArg Prod.snd hq)
        · rw [scoped_append, exact_append]
          rintro ⟨⟨hs, -⟩, hq, hx, -⟩
          refine hb ⟨hs, eq_of_widens_back hwid (hq ▸ ?_), hx⟩
          exact conflictLoop_command (stable_widens _) h ⟨_, rfl, .refl _⟩

end Conflict

/-- The scans are read-only exactly where each use of the tree leaves it empty, or is the last. -/
theorem scans_readOnly (H : TreeLaw T) (c : Command) :
    (∀ index ignore p q, seqDepsForCommand T index (some c) ignore p = some q →
      (ReadOnly H c (seqDepsTrace T ignore index.entries T.init (some c)) q.2.1
        ↔ Kept c.spans (scanUses ignore c index.entries)))
    ∧ ∀ index i seq deps q, preAcceptConflict T index i (some c) seq deps = some q →
      (ReadOnly H c (conflictTrace T i seq deps (walked i index) T.init (some c)) q.2
        ↔ Kept c.spans (conflictUses i seq deps c (walked i index))) := by
  constructor
  · intro index ignore p q h
    refine Iff.trans ?_ (seqDeps_readOnly H.stored_init spanKeys_nil h)
    exact ⟨fun ⟨hs, hc, hx⟩ => ⟨hs, hc, hx⟩, fun ⟨hs, hc, hx⟩ => ⟨hs, hc, hx⟩⟩
  · intro index i seq deps q h
    refine Iff.trans ?_ (conflict_readOnly H.stored_init spanKeys_nil h)
    exact ⟨fun ⟨hs, hc, hx⟩ => ⟨hs, hc, hx⟩, fun ⟨hs, hc, hx⟩ => ⟨hs, hc, hx⟩⟩

end Scan

/-- A write from `b` to `c`. -/
def writeBC : Instance :=
  { newInstance ⟨0, 1⟩ with
    status := .preAccepted, command := some ⟨[⟨[98], [99]⟩], 0, .write⟩ }

/-- Both scans leave a command within what is written as it is. -/
theorem scans_readOnly_within :
    (∃ q, seqDepsForCommand listTree (.set .empty writeBC) (some ⟨[⟨[98], [98]⟩], 0, .write⟩) none
        ⟨0, .zero⟩ = some q
      ∧ ReadOnly listTree_law ⟨[⟨[98], [98]⟩], 0, .write⟩
        (seqDepsTrace listTree none [writeBC] [] (some ⟨[⟨[98], [98]⟩], 0, .write⟩)) q.2.1)
    ∧ ∃ q, preAcceptConflict listTree [writeBC.entry] writeBC
        (some ⟨[⟨[98], [98]⟩], 0, .write⟩) 0 [] = some q
      ∧ ReadOnly listTree_law ⟨[⟨[98], [98]⟩], 0, .write⟩
        (conflictTrace listTree writeBC 0 [] (walked writeBC [writeBC.entry]) []
          (some ⟨[⟨[98], [98]⟩], 0, .write⟩)) q.2 := by
  have hk : Kept [⟨[98], [98]⟩] [some ⟨[98], [99]⟩] := .inl (by decide)
  have hall := scans_readOnly listTree_law ⟨[⟨[98], [98]⟩], 0, .write⟩
  constructor
  · obtain ⟨q, hq⟩ := Option.isSome_iff_exists.1 (show (seqDepsForCommand listTree
      (.set .empty writeBC) (some ⟨[⟨[98], [98]⟩], 0, .write⟩) none ⟨0, .zero⟩).isSome = true by
        decide)
    exact ⟨q, hq, (hall.1 _ none _ q hq).2 hk⟩
  · obtain ⟨q, hq⟩ := Option.isSome_iff_exists.1 (show (preAcceptConflict listTree
      [writeBC.entry] writeBC (some ⟨[⟨[98], [98]⟩], 0, .write⟩) 0 []).isSome = true by decide)
    exact ⟨q, hq, (hall.2 _ writeBC 0 [] q hq).2 hk⟩

/-- A command from `a` to `b` comes back from a write from `b` to `c` as one from `a` to `c`. -/
theorem overlap_widens :
    (seqDepsForCommand listTree (.set .empty writeBC) (some ⟨[⟨[97], [98]⟩], 0, .write⟩) none
        ⟨0, .zero⟩).map (fun q => q.2.1) = some (some ⟨[⟨[97], [99]⟩], 0, .write⟩)
      ∧ (preAcceptConflict listTree [writeBC.entry] writeBC
        (some ⟨[⟨[97], [98]⟩], 0, .write⟩) 0 []).map Prod.snd
          = some (some ⟨[⟨[97], [99]⟩], 0, .write⟩) := by
  decide

end Epx
