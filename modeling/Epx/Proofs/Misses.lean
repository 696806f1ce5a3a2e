import Epx.Proofs.Coverage
import Epx.Proofs.Scan

/-!
# What the dependency scan misses

The walk ends at the first executed entry, and takes an overlap that starts with the empty key for
the end of its buffer. Where the tree is empty whenever the walk comes to it, all else that interferes
is added, or a write ahead encloses the whole command.
-/

namespace Epx

/-- The command after the uses of a tree down to the first `EXECUTED` entry or the first span that
encloses it; `none` if one comes to the tree while that holds a span of a block that has been left. -/
def afterScan (ignore : Option InstanceId) : Stand → List Instance → Command → Option Command
  | _, [], c => some c
  | st, ti :: rest, c =>
    if ignore = some ti.key then afterScan ignore st rest c
    else if ti.status = .executed then some c
    else (afterUses st (uses c ti.command) c.spans).bind fun q =>
      if q.1 = .ended then some { c with spans := q.2 }
      else afterScan ignore q.1 rest { c with spans := q.2 }

/-- The command after the first `n` indexes, each with a tree of its own. -/
def afterIndexes (r : Replica) (ignore : Option InstanceId) (cmd : Command) : ℕ → Option Command
  | 0 => some cmd
  | n + 1 => (afterIndexes r ignore cmd n).bind (afterScan ignore .free (r.index n).entries)

/-- No span put for the command is left in a tree that is used again. -/
def LeavesNone (r : Replica) (ignore : Option InstanceId) (cmd : Command) : Prop :=
  (afterIndexes r ignore cmd N).isSome = true

instance (r : Replica) (ignore : Option InstanceId) (cmd : Command) :
    Decidable (LeavesNone r ignore cmd) := inferInstanceAs (Decidable (_ = _))

section Trace

variable (T : RangeTree)

/-- The entries `seq_deps_for_command` calls `add_dep` on. -/
def addsLoop (ignore : Option InstanceId) : List Instance → T.Tree → Option Command → List Instance
  | [], _, _ => []
  | ti :: rest, rt, cmd =>
    if ignore = some ti.key then addsLoop ignore rest rt cmd
    else if isState ti.status [.executed] then []
    else
      match interferes ti.command cmd with
      | none => []
      | some [] => addsLoop ignore rest rt cmd
      | some (s :: ss) =>
        match ti.command, cmd with
        | some tc, some c =>
          if tc.writing = .write then
            let (rt, spans, add, covered) := spanLoop T rt ((s :: ss).take tc.spans.length) c.spans
            (if add then [ti] else [])
              ++ if covered then [] else addsLoop ignore rest rt (some { c with spans })
          else if readDependency T rt c then ti :: addsLoop ignore rest rt cmd
          else addsLoop ignore rest rt cmd
        | _, _ => []

/-- What `seq_deps_for_command` does with its tree. -/
def seqDepsTrace (ignore : Option InstanceId) :
    List Instance → T.Tree → Option Command → List (Point T)
  | [], _, _ => []
  | ti :: rest, rt, cmd =>
    if ignore = some ti.key then seqDepsTrace ignore rest rt cmd
    else if isState ti.status [.executed] then []
    else
      match interferes ti.command cmd with
      | none => []
      | some [] => seqDepsTrace ignore rest rt cmd
      | some (s :: ss) =>
        match ti.command, cmd with
        | some tc, some c =>
          if tc.writing = .write then
            let cspan := (s :: ss).take tc.spans.length
            let (rt', spans, _, covered) := spanLoop T rt cspan c.spans
            spanTrace T rt cspan c.spans
              ++ if covered then [] else seqDepsTrace ignore rest rt' (some { c with spans })
          else .use rt :: seqDepsTrace ignore rest rt cmd
        | _, _ => []

/-- The entries of index `k` that `sd_for_command` calls `add_dep` on. -/
def indexAdds (r : Replica) (ignore : Option InstanceId) (cmd : Option Command) (p : Probe)
    (k : ℕ) : List Instance :=
  match sdLoop T r ignore k cmd p with
  | none => []
  | some (_, cmd, _) => addsLoop T ignore (r.index k).entries T.init cmd

/-- What `sd_for_command` does with the tree of index `k`. -/
def indexTrace (r : Replica) (ignore : Option InstanceId) (cmd : Option Command) (p : Probe)
    (k : ℕ) : List (Point T) :=
  match sdLoop T r ignore k cmd p with
  | none => []
  | some (_, cmd, _) => seqDepsTrace T ignore (r.index k).entries T.init cmd

variable {T}

/-- `sd_for_command` never comes to a tree that holds a span of a block it has left. -/
def ScopedScan (H : TreeLaw T) (r : Replica) (ignore : Option InstanceId) (cmd : Command)
    (p : Probe) : Prop := ∀ k < N, Scoped H (indexTrace T r ignore (some cmd) p k)

section Walk

variable {ignore : Option InstanceId} {ti : Instance} {rest : List Instance} {rt : T.Tree}
  {mseq : ℕ} {c : Command} {p : Probe} {q : ℕ × Option Command × Probe}

theorem interferes_cons {a : Option Command} {s : Span} {ss : List Span}
    (h : interferes a (some c) = some (s :: ss)) :
    ∃ tc, a = some tc ∧ (tc.writing = .write ∨ c.writing = .write)
      ∧ s :: ss = overlapSparse tc.spans c.spans := by
  cases a with
  | none => cases h
  | some tc =>
    unfold interferes at h
    dsimp only at h
    split_ifs at h with hw
    · unfold fillSparse at h
      split_ifs at h
      exact ⟨tc, rfl, hw, (Option.some.inj h).symm⟩
    · cases Option.some.inj h

/-- What the walk does at an entry, if it comes to an end: it passes over it, stops there, asks the
tree about a read, or puts the spans of a write to the tree. -/
theorem walk_cases (h : seqDepsLoop T ignore (ti :: rest) rt mseq (some c) p = some q) :
    ((ignore = some ti.key
        ∨ ti.status ≠ .executed ∧ interferes ti.command (some c) = some [])
      ∧ (∃ n, seqDepsLoop T ignore rest rt n (some c) p = some q)
      ∧ addsLoop T ignore (ti :: rest) rt (some c) = addsLoop T ignore rest rt (some c)
      ∧ seqDepsTrace T ignore (ti :: rest) rt (some c) = seqDepsTrace T ignore rest rt (some c))
    ∨ (ignore ≠ some ti.key ∧ ti.status = .executed ∧ q.2 = (some c, p)
      ∧ addsLoop T ignore (ti :: rest) rt (some c) = []
      ∧ seqDepsTrace T ignore (ti :: rest) rt (some c) = [])
    ∨ ((ignore ≠ some ti.key ∧ ti.status ≠ .executed)
      ∧ ∃ tc, ti.command = some tc ∧ tc.writing = .read
      ∧ (c.writing = .write ∧ overlapSparse tc.spans c.spans ≠ [])
      ∧ (∃ n, seqDepsLoop T ignore rest rt n (some c)
        (if readDependency T rt c then p.add ti else p) = some q)
      ∧ addsLoop T ignore (ti :: rest) rt (some c) = (if readDependency T rt c then [ti] else [])
        ++ addsLoop T ignore rest rt (some c)
      ∧ seqDepsTrace T ignore (ti :: rest) rt (some c)
        = .use rt :: seqDepsTrace T ignore rest rt (some c))
    ∨ ((ignore ≠ some ti.key ∧ ti.status ≠ .executed)
      ∧ ∃ tc l, ti.command = some tc ∧ tc.writing = .write
      ∧ overlapSparse tc.spans c.spans ≠ []
      ∧ l = spanLoop T rt ((overlapSparse tc.spans c.spans).take tc.spans.length) c.spans
      ∧ ((l.2.2.2 = false
          ∧ (∃ n, seqDepsLoop T ignore rest l.1 n (some { c with spans := l.2.1 })
            (if l.2.2.1 then p.add ti else p) = some q)
          ∧ addsLoop T ignore (ti :: rest) rt (some c) = (if l.2.2.1 then [ti] else [])
            ++ addsLoop T ignore rest l.1 (some { c with spans := l.2.1 })
          ∧ seqDepsTrace T ignore (ti :: rest) rt (some c)
            = spanTrace T rt ((overlapSparse tc.spans c.spans).take tc.spans.length) c.spans
              ++ seqDepsTrace T ignore rest l.1 (some { c with spans := l.2.1 }))
        ∨ (l.2.2.2 = true
          ∧ q.2 = (some { c with spans := l.2.1 }, if l.2.2.1 then p.add ti else p)
          ∧ addsLoop T ignore (ti :: rest) rt (some c) = (if l.2.2.1 then [ti] else [])
          ∧ seqDepsTrace T ignore (ti :: rest) rt (some c)
            = spanTrace T rt ((overlapSparse tc.spans c.spans).take tc.spans.length) c.spans))) := by
  rw [seqDepsLoop] at h
  rw [addsLoop, seqDepsTrace]
  by_cases hi : ignore = some ti.key
  · rw [if_pos hi] at h
    rw [if_pos hi, if_pos hi]
    exact .inl ⟨.inl hi, ⟨_, h⟩, rfl, rfl⟩
  rw [if_neg hi] at h
  rw [if_neg hi, if_neg hi]
  by_cases he : ti.status = .executed
  · have hst : isState ti.status [.executed] = true := by simp [isState, he]
    rw [if_pos hst] at h
    rw [if_pos hst, if_pos hst]
    cases h
    exact .inr (.inl ⟨hi, he, rfl, rfl, rfl⟩)
  have hst : ¬ isState ti.status [.executed] = true := by simp [isState, he]
  rw [if_neg hst] at h
  rw [if_neg hst, if_neg hst]
  rcases hin : interferes ti.command (some c) with _ | _ | ⟨s, ss⟩
  · rw [hin] at h
    cases h
  · rw [hin] at h
    exact .inl ⟨.inr ⟨he, rfl⟩, ⟨_, h⟩, rfl, rfl⟩
  obtain ⟨tc, htc, hwr, hov⟩ := interferes_cons hin
  have hne : overlapSparse tc.spans c.spans ≠ [] := hov ▸ List.cons_ne_nil _ _
  rw [hin, htc] at h
  dsimp only at h ⊢
  rw [htc]
  dsimp only
  by_cases hw : tc.writing = .write
  · rw [if_pos hw] at h ⊢
    rw [if_pos hw, hov]
    rw [hov] at h
    refine .inr (.inr (.inr ⟨⟨hi, he⟩, tc, _, rfl, hw, hne, rfl, ?_⟩))
    cases hc : (spanLoop T rt ((overlapSparse tc.spans c.spans).take tc.spans.length)
      c.spans).2.2.2 with
    | true =>
      rw [if_pos hc] at h
      exact .inr ⟨rfl, (congrArg Prod.snd (Option.some.inj h)).symm, List.append_nil _,
        List.append_nil _⟩
    | false =>
      rw [if_neg (Bool.eq_false_iff.1 hc)] at h
      exact .inl ⟨rfl, ⟨max mseq ti.seq, h⟩, rfl, rfl⟩
  · rw [if_neg hw] at h ⊢
    rw [if_neg hw]
    have hr : tc.writing = .read := by cases hwr : tc.writing <;> simp_all
    refine .inr (.inr (.inl ⟨⟨hi, he⟩, tc, rfl, hr, ⟨hwr.resolve_left hw, hne⟩, ?_⟩))
    by_cases hrd : readDependency T rt c = true
    · rw [if_pos hrd] at h
      rw [if_pos hrd, if_pos hrd, if_pos hrd]
      exact ⟨⟨_, h⟩, rfl, rfl⟩
    · rw [if_neg hrd] at h
      rw [if_neg hrd, if_neg hrd, if_neg hrd]
      exact ⟨⟨_, h⟩, rfl, rfl⟩

/-- `afterScan` tells whether the walk of an index comes to no tree with a span left there, and the
command it ends with. -/
theorem seqDeps_foretold {H : TreeLaw T} : ∀ {xs : List Instance} {rt : T.Tree} {st : Stand}
    {c : Command} {mseq : ℕ} {p : Probe}, Stands H rt st →
      seqDepsLoop T ignore xs rt mseq (some c) p = some q →
        Foretells H (seqDepsTrace T ignore xs rt (some c)) (fun d => q.2.1 = some d)
          (afterScan ignore st xs c)
  | [], _, _, _, _, _, _, h => by
    cases h
    exact ⟨scoped_nil H, rfl⟩
  | ti :: rest, rt, st, c, mseq, p, hst, h => by
    have hne : ∀ {rt' : T.Tree} {st' : Stand}, Stands H rt' st' → st' ≠ .ended := by
      rintro rt' _ h rfl
      exact h
    rw [afterScan]
    rcases walk_cases h with ⟨hp, ⟨n, h⟩, -, htr⟩ | ⟨hi, he, hq, -, htr⟩
      | ⟨⟨hi, he⟩, tc, htc, hr, ⟨hw, ho⟩, ⟨n, h⟩, -, htr⟩
      | ⟨⟨hi, he⟩, tc, l, htc, hw, -, hl, hgo⟩
    · rw [htr]
      rcases hp with hp | ⟨he, hp⟩
      · rw [if_pos hp]
        exact seqDeps_foretold hst h
      · rw [if_neg he, uses_quiet hp, afterUses, Option.bind_some, if_neg (hne hst), ite_self]
        exact seqDeps_foretold hst h
    · rw [if_neg hi, if_pos he, htr]
      exact ⟨scoped_nil H, congrArg Prod.fst hq⟩
    · rw [if_neg hi, if_neg he, htc, uses_read hr hw ho, htr]
      cases st with
      | ended => exact hst.elim
      | held => exact fun hs => hst ((scoped_use H).1 hs).1
      | free =>
        rw [afterUses, afterUses, Option.bind_some, if_neg (hne hst)]
        exact (seqDeps_foretold hst h).imp ((scoped_use H).trans (and_iff_right hst))
          fun _ hd => hd
    · rw [if_neg hi, if_neg he, htc, uses_write hw]
      have hout := @spanLoop_foretold T H ((overlapSparse tc.spans c.spans).take tc.spans.length)
        c.spans rt st hst
      rw [← hl] at hout
      rcases hgo with ⟨hcov, ⟨n, h⟩, -, htr⟩ | ⟨hcov, hq, -, htr⟩
      · rw [htr]
        refine hout.bind ?_
        rintro a ⟨ha, ⟨hcov', -⟩ | ⟨-, hsta⟩⟩
        · rw [hcov] at hcov'
          cases hcov'
        · rw [if_neg (hne hsta), ← ha]
          exact seqDeps_foretold hsta h
      · rw [htr, ← List.append_nil (spanTrace T rt _ c.spans)]
        refine hout.bind ?_
        rintro a ⟨ha, ⟨-, hend⟩ | ⟨hcov', -⟩⟩
        · rw [if_pos hend, ← ha]
          exact ⟨scoped_nil H, congrArg Prod.fst hq⟩
        · rw [hcov] at hcov'
          cases hcov'

end Walk

theorem mem_overlapSparse {as bs : List Span} {s : Span} :
    s ∈ overlapSparse as bs ↔ s ∈ as ∧ ∃ t ∈ bs, overlaps s t = true := by
  simp only [overlapSparse, List.mem_flatMap, List.mem_map, List.mem_filter]
  constructor
  · rintro ⟨a, ha, t, ⟨ht, ho⟩, rfl⟩
    exact ⟨ha, t, ht, ho⟩
  · rintro ⟨hs, t, ht, ho⟩
    exact ⟨s, hs, t, ⟨ht, ho⟩, rfl⟩

/-- The keys from the start key to the end key. -/
def Span.keys (s : Span) : Set Key :=
  Set.preimage Key.rank (Set.Icc s.startKey.rank s.endKey.rank)

/-- The keys of the spans. -/
def spanKeys (ss : List Span) : Set Key := {k | ∃ s ∈ ss, k ∈ s.keys}

/-- The keys of the command's spans. -/
def Command.keys (c : Command) : Set Key := spanKeys c.spans

theorem keys_subset {s t : Span} (h : encloses s t = true) : t.keys ⊆ s.keys :=
  Set.preimage_mono (Set.Icc_subset_Icc (encloses_iff.1 h).1 (encloses_iff.1 h).2)

/-- Spans with a key in common meet. -/
theorem overlaps_of_keys {s t : Span} {k : Key} (hs : k ∈ s.keys) (ht : k ∈ t.keys) :
    overlaps s t = true := overlaps_iff.2 ⟨hs.1.trans ht.2, ht.1.trans hs.2⟩

section Widens

variable {c d xc : Command}

theorem exists_enclosing {ss ts : List Span}
    (h : List.Forall₂ (fun s t => encloses t s = true) ss ts) {s : Span} (hs : s ∈ ss) :
    ∃ t ∈ ts, encloses t s = true := by
  induction h with
  | nil => exact absurd hs List.not_mem_nil
  | cons h _ ih =>
    rcases List.mem_cons.1 hs with rfl | hs
    · exact ⟨_, List.mem_cons_self, h⟩
    · obtain ⟨t, ht, he⟩ := ih hs
      exact ⟨t, List.mem_cons_of_mem _ ht, he⟩

/-- What interferes with a command interferes with it widened. -/
theorem Interfere.widens (hi : Interfere xc c) (h : c.Widens d) : Interfere xc d := by
  obtain ⟨hw, s, hs, t, ht, ho⟩ := hi
  obtain ⟨u, hu, he⟩ := exists_enclosing h.spans ht
  refine ⟨hw.imp_right h.writing.trans, s, hs, u, hu, ?_⟩
  rw [overlaps_comm] at ho ⊢
  exact overlaps_mono he ho

/-- A span that covers the command widened has its keys. -/
theorem keys_of_enclosesAll {s : Span} (h : c.Widens d) (hs : EnclosesAll s d.spans) :
    c.keys ⊆ s.keys := by
  rintro k ⟨t, ht, hk⟩
  obtain ⟨u, hu, he⟩ := exists_enclosing h.spans ht
  exact keys_subset (encloses_trans (hs u hu) he) hk

end Widens

section Loops

variable {ignore : Option InstanceId}

/-- The walk of a scan comes to what it adds. -/
theorem addsLoop_reached : ∀ {xs : List Instance} {rt : T.Tree} {mseq : ℕ} {c : Command}
    {p : Probe} {q : ℕ × Option Command × Probe} {x : Instance},
    seqDepsLoop T ignore xs rt mseq (some c) p = some q → x ∈ addsLoop T ignore xs rt (some c) →
      (ignore ≠ some x.key ∧ x.status ≠ .executed) ∧ ∃ front back, xs = front ++ x :: back
        ∧ ∀ y ∈ front, ignore ≠ some y.key → y.status ≠ .executed
  | [], _, _, _, _, _, _, _, hx => absurd hx List.not_mem_nil
  | ti :: rest, rt, mseq, c, p, q, x, h, hx => by
    -- an entry that does not end the walk goes in front
    have later : ∀ {rt' n c' p'}, (ignore ≠ some ti.key → ti.status ≠ .executed) →
        seqDepsLoop T ignore rest rt' n (some c') p' = some q →
          x ∈ addsLoop T ignore rest rt' (some c') →
            (ignore ≠ some x.key ∧ x.status ≠ .executed) ∧ ∃ front back,
              ti :: rest = front ++ x :: back
                ∧ ∀ y ∈ front, ignore ≠ some y.key → y.status ≠ .executed := by
      intro rt' n c' p' hti h hx
      obtain ⟨hl, front, back, rfl, hf⟩ := addsLoop_reached h hx
      exact ⟨hl, ti :: front, back, rfl, List.forall_mem_cons.2 ⟨hti, hf⟩⟩
    have here : ∀ {b : Bool} {ys : List Instance}, ignore ≠ some ti.key ∧ ti.status ≠ .executed →
        x ∈ (if b then [ti] else []) ++ ys →
          ((ignore ≠ some x.key ∧ x.status ≠ .executed) ∧ ∃ front back,
            ti :: rest = front ++ x :: back
              ∧ ∀ y ∈ front, ignore ≠ some y.key → y.status ≠ .executed) ∨ x ∈ ys := by
      intro b ys hl hx
      refine (List.mem_append.1 hx).imp_left fun hx => ?_
      split_ifs at hx
      · obtain rfl := List.mem_singleton.1 hx
        exact ⟨hl, [], rest, rfl, fun _ hy => absurd hy List.not_mem_nil⟩
      · exact absurd hx List.not_mem_nil
    rcases walk_cases h with ⟨hpass, ⟨n, h⟩, ha, -⟩ | ⟨-, -, -, ha, -⟩
      | ⟨hl, tc, -, -, -, ⟨n, h⟩, ha, -⟩
      | ⟨hl, tc, l, -, -, -, -, ⟨-, ⟨n, h⟩, ha, -⟩ | ⟨-, -, ha, -⟩⟩ <;> rw [ha] at hx
    · exact later (fun hi => (hpass.resolve_left hi).1) h hx
    · exact absurd hx List.not_mem_nil
    · exact (here hl hx).elim id (later (fun _ => hl.2) h)
    · exact (here hl hx).elim id (later (fun _ => hl.2) h)
    · rw [← List.append_nil (if l.2.2.1 then [ti] else [])] at hx
      exact (here hl hx).elim id fun hx => absurd hx List.not_mem_nil

end Loops

section Seen

variable {ignore : Option InstanceId} {x : Instance} {cmd xc : Command} {back : List Instance}
  (H : TreeLaw T)

/-- Where the loop over the overlaps of a write ends early, one of them covers the command. -/
theorem spanLoop_covered {cspan spans : List Span} {rt : T.Tree}
    (hs : Scoped H (spanTrace T rt cspan spans)) (hc : (spanLoop T rt cspan spans).2.2.2 = true) :
    (spanLoop T rt cspan spans).2.2.1 = true
      ∧ ∃ s ∈ cspan, EnclosesAll s (spanLoop T rt cspan spans).2.1 := by
  induction cspan generalizing rt spans with
  | nil => cases hc
  | cons s cspan ih =>
    by_cases he : emptyRange s = true
    · rw [spanLoop, if_pos he] at hc
      cases hc
    have he := Bool.eq_false_iff.2 he
    have hrt : H.stored rt = ∅ := by
      rw [spanTrace, if_neg (Bool.eq_false_iff.1 he)] at hs
      exact ((scoped_use H).1 hs).1
    rcases put_cases H hrt he cspan spans with
      ⟨hcov, hl, -⟩ | ⟨rt', spans', -, hl, ht⟩ <;> rw [hl]
    · exact ⟨rfl, s, List.mem_cons_self, hcov⟩
    · rw [ht, scoped_use, scoped_put] at hs
      rw [hl] at hc
      obtain ⟨-, u, hu, hcu⟩ := ih hs.2 hc
      exact ⟨rfl, u, List.mem_cons_of_mem s hu, hcu⟩

/-- An entry that interferes is added to an empty tree, unless it is a write of which a span starts
with the empty key. -/
theorem adds_here {rt : T.Tree} {c : Command} {mseq : ℕ} {p : Probe}
    {q : ℕ × Option Command × Probe} (hi : ignore ≠ some x.key) (he : x.status ≠ .executed)
    (hxc : x.command = some xc) (hint : Interfere xc c)
    (hk : xc.writing = .write → ∀ s ∈ xc.spans, emptyRange s = false)
    (hs : Scoped H (seqDepsTrace T ignore (x :: back) rt (some c)))
    (h : seqDepsLoop T ignore (x :: back) rt mseq (some c) p = some q) :
    x ∈ addsLoop T ignore (x :: back) rt (some c) := by
  have hne : overlapSparse xc.spans c.spans ≠ [] := by
    obtain ⟨-, s, hs, t, ht, ho⟩ := hint
    exact List.ne_nil_of_mem (mem_overlapSparse.2 ⟨hs, t, ht, ho⟩)
  rcases walk_cases h with ⟨hpass, -⟩ | ⟨-, hex, -⟩ | ⟨-, tc, -, -, -, -, ha, htr⟩
    | ⟨-, tc, l, htc, hw, -, hl, hgo⟩
  · obtain ⟨-, hq⟩ := hpass.resolve_left hi
    rw [hxc, interferes, if_pos hint.1] at hq
    unfold fillSparse at hq
    split_ifs at hq
    exact absurd (Option.some.inj hq) hne
  · exact absurd hex he
  · rw [htr, scoped_use] at hs
    rw [ha, if_pos (readDependency_empty H hs.1)]
    exact List.mem_cons_self
  · cases hxc.symm.trans htc
    obtain ⟨s, ss, hov⟩ := List.exists_cons_of_ne_nil hne
    have hsx : s ∈ xc.spans := (mem_overlapSparse.1 (hov ▸ List.mem_cons_self)).1
    obtain ⟨n, hn⟩ := Nat.exists_eq_succ_of_ne_zero (List.length_pos_of_mem hsx).ne'
    have hse := hk hw s hsx
    rw [hov, hn, List.take_succ_cons] at hl hgo
    have hadd : l.2.2.1 = true := by
      have hrt : H.stored rt = ∅ := by
        have hsc : Scoped H (spanTrace T rt (s :: List.take n ss) c.spans) := by
          rcases hgo with ⟨-, -, -, ht⟩ | ⟨-, -, -, ht⟩ <;> rw [ht] at hs
          · exact ((scoped_append H).1 hs).1
          · exact hs
        rw [spanTrace, if_neg (Bool.eq_false_iff.1 hse)] at hsc
        exact ((scoped_use H).1 hsc).1
      rw [hl]
      rcases put_cases H hrt hse (List.take n ss) c.spans with
        ⟨-, he, -⟩ | ⟨_, _, -, he, -⟩ <;> rw [he]
    rcases hgo with ⟨-, -, ha, -⟩ | ⟨-, -, ha, -⟩ <;> rw [ha, if_pos hadd]
    · exact List.mem_cons_self
    · exact List.mem_cons_self

/-- Behind entries that do not end the walk, an entry is added, or one ahead of it is a write that
has all keys of the command. -/
theorem adds_behind (hi : ignore ≠ some x.key) (he : x.status ≠ .executed)
    (hxc : x.command = some xc) (hint : Interfere xc cmd)
    (hk : xc.writing = .write → ∀ s ∈ xc.spans, emptyRange s = false) :
    ∀ {front : List Instance} {rt : T.Tree} {c : Command} {mseq : ℕ} {p : Probe}
      {q : ℕ × Option Command × Probe},
      (∀ y ∈ front, ignore ≠ some y.key → y.status ≠ .executed) → cmd.Widens c →
        Scoped H (seqDepsTrace T ignore (front ++ x :: back) rt (some c)) →
          seqDepsLoop T ignore (front ++ x :: back) rt mseq (some c) p = some q →
            x ∈ addsLoop T ignore (front ++ x :: back) rt (some c)
              ∨ ∃ w ∈ front, w ∈ addsLoop T ignore (front ++ x :: back) rt (some c)
                ∧ ∃ wc, w.command = some wc ∧ wc.writing = .write ∧ cmd.keys ⊆ wc.keys
  | [], rt, c, mseq, p, q, _, hc, hs, h => .inl (adds_here H hi he hxc (hint.widens hc) hk hs h)
  | y :: front, rt, c, mseq, p, q, hf, hc, hs, h => by
    rw [List.forall_mem_cons] at hf
    rw [List.cons_append] at h hs ⊢
    -- what the walk adds behind `y`
    have later : ∀ {rt' n c' p' ys}, cmd.Widens c' →
        Scoped H (seqDepsTrace T ignore (front ++ x :: back) rt' (some c')) →
          seqDepsLoop T ignore (front ++ x :: back) rt' n (some c') p' = some q →
            x ∈ ys ++ addsLoop T ignore (front ++ x :: back) rt' (some c')
              ∨ ∃ w ∈ y :: front, w ∈ ys ++ addsLoop T ignore (front ++ x :: back) rt' (some c')
                ∧ ∃ wc, w.command = some wc ∧ wc.writing = .write ∧ cmd.keys ⊆ wc.keys := by
      intro rt' n c' p' ys hc' hs' h'
      refine (adds_behind hi he hxc hint hk hf.2 hc' hs' h').imp (List.mem_append_right _) ?_
      rintro ⟨w, hw, ha, hwc⟩
      exact ⟨w, List.mem_cons_of_mem y hw, List.mem_append_right _ ha, hwc⟩
    rcases walk_cases h with ⟨-, ⟨n, h⟩, ha, ht⟩ | ⟨hiy, hex, -⟩ | ⟨-, tc, -, -, -, ⟨n, h⟩, ha, ht⟩
      | ⟨-, tc, l, htc, hw, -, hl, ⟨-, ⟨n, h⟩, ha, ht⟩ | ⟨hcov, -, ha, ht⟩⟩
    · rw [ht] at hs
      rw [ha, ← List.nil_append (addsLoop T ignore (front ++ x :: back) rt (some c))]
      exact later hc hs h
    · exact absurd hex (hf.1 hiy)
    · rw [ht, scoped_use] at hs
      rw [ha]
      exact later hc hs.2 h
    · rw [ht, scoped_append] at hs
      rw [ha]
      exact later (hc.trans ⟨rfl, rfl, hl ▸ spanLoop_widens _ rt c.spans⟩) hs.2 h
    · rw [ht] at hs
      rw [hl] at hcov
      obtain ⟨hadd, s, hst, hcs⟩ := spanLoop_covered H hs hcov
      have hsub : cmd.keys ⊆ s.keys := by
        refine keys_of_enclosesAll (hc.trans ⟨rfl, rfl, ?_⟩) (d := { c with spans := l.2.1 }) ?_
        · exact hl ▸ spanLoop_widens _ rt c.spans
        · rwa [hl]
      have hstc : s ∈ tc.spans := (mem_overlapSparse.1 (List.mem_of_mem_take hst)).1
      rw [← hl] at hadd
      rw [ha, if_pos hadd]
      refine .inr ⟨y, List.mem_cons_self, List.mem_cons_self, tc, htc, hw, fun k hk => ?_⟩
      exact ⟨s, hstc, hsub hk⟩

end Seen

section Index

variable {index : InstanceIndex} {ignore : Option InstanceId} {x : Instance} {cmd c xc : Command}

/-- An entry with a larger id that the scan does not ignore. -/
def Ahead (index : InstanceIndex) (ignore : Option InstanceId) (x y : Instance) : Prop :=
  y ∈ index.entries ∧ x.key.instanceId < y.key.instanceId ∧ ignore ≠ some y.key

/-- The walk comes to `x`, a command `xc`, unless it ends early, and does not take it for nothing: no
entry ahead is executed, and no span of a write starts with the empty key. -/
structure Seen (index : InstanceIndex) (ignore : Option InstanceId) (x : Instance)
    (xc : Command) : Prop where
  reached : ∀ y, Ahead index ignore x y → y.status ≠ .executed
  keyed : xc.writing = .write → ∀ s ∈ xc.spans, emptyRange s = false

/-- `x` is seen, or each key that it shares with the command is in a write ahead of it that is. -/
def Shown (index : InstanceIndex) (ignore : Option InstanceId) (cmd : Command) (x : Instance)
    (xc : Command) : Prop :=
  Seen index ignore x xc ∨ ∀ key ∈ xc.keys ∩ cmd.keys, ∃ w wc, Ahead index ignore x w
    ∧ w.status ≠ .executed ∧ w.command = some wc ∧ wc.writing = .write ∧ key ∈ wc.keys
    ∧ Seen index ignore w wc

/-- No write of the index has a span that starts with the empty key. -/
def Keyed (index : InstanceIndex) : Prop :=
  ∀ y ∈ index.entries, ∀ tc, y.command = some tc → tc.writing = .write →
    ∀ s ∈ tc.spans, emptyRange s = false

/-- An entry splits the index into those ahead of it, with larger ids, and those behind. -/
theorem ahead_iff {front back : List Instance} (h : index.entries = front ++ x :: back)
    {y : Instance} : y ∈ front ↔ y ∈ index.entries ∧ x.key.instanceId < y.key.instanceId := by
  have hp := index.ordered
  rw [h, List.pairwise_append, List.pairwise_cons] at hp
  obtain ⟨-, ⟨hback, -⟩, hfront⟩ := hp
  rw [h, List.mem_append, List.mem_cons]
  constructor
  · exact fun hy => ⟨.inl hy, hfront y hy x List.mem_cons_self⟩
  · rintro ⟨hy | rfl | hy, hlt⟩
    · exact hy
    · exact absurd hlt (lt_irrefl _)
    · exact absurd (hback y hy) (not_lt.2 hlt.le)

/-- The walk over an index adds an entry that is seen, or a write ahead of it with all keys of the
command. -/
theorem Seen.added (H : TreeLaw T) {mseq : ℕ} {p : Probe} {q : ℕ × Option Command × Probe}
    (hs : Seen index ignore x xc) (hx : x ∈ index.entries) (hi : ignore ≠ some x.key)
    (he : x.status ≠ .executed) (hxc : x.command = some xc) (hint : Interfere xc cmd)
    (hc : cmd.Widens c) (htr : Scoped H (seqDepsTrace T ignore index.entries T.init (some c)))
    (h : seqDepsLoop T ignore index.entries T.init mseq (some c) p = some q) :
    x ∈ addsLoop T ignore index.entries T.init (some c)
      ∨ ∃ w ∈ addsLoop T ignore index.entries T.init (some c),
        x.key.instanceId < w.key.instanceId
          ∧ ∃ wc, w.command = some wc ∧ wc.writing = .write ∧ cmd.keys ⊆ wc.keys := by
  obtain ⟨front, back, hsplit⟩ := List.append_of_mem hx
  have hfront : ∀ y ∈ front, ignore ≠ some y.key → y.status ≠ .executed := fun y hy hiy =>
    hs.reached y ⟨((ahead_iff hsplit).1 hy).1, ((ahead_iff hsplit).1 hy).2, hiy⟩
  have hlt : ∀ w ∈ front, x.key.instanceId < w.key.instanceId := fun w hw =>
    ((ahead_iff hsplit).1 hw).2
  rw [hsplit] at h htr ⊢
  refine (adds_behind H hi he hxc hint hs.keyed hfront hc htr h).imp_right ?_
  rintro ⟨w, hw, ha, hwc⟩
  exact ⟨w, ha, hlt w hw, hwc⟩

/-- What the walk adds, where no write has a span that starts with the empty key, is seen. -/
theorem seen_of_added {mseq : ℕ} {p : Probe} {q : ℕ × Option Command × Probe}
    (hk : Keyed index) (hxc : x.command = some xc)
    (h : seqDepsLoop T ignore index.entries T.init mseq (some c) p = some q)
    (hx : x ∈ addsLoop T ignore index.entries T.init (some c)) :
    x ∈ index.entries ∧ (ignore ≠ some x.key ∧ x.status ≠ .executed) ∧ Seen index ignore x xc := by
  obtain ⟨hl, front, back, hsplit, hf⟩ := addsLoop_reached h hx
  have hmem : x ∈ index.entries := by simp [hsplit]
  refine ⟨hmem, hl, ?_, hk x hmem xc hxc⟩
  rintro y ⟨hy, hlt, hiy⟩
  exact hf y ((ahead_iff hsplit).2 ⟨hy, hlt⟩) hiy

end Index

section Replica

variable {r : Replica} {ignore : Option InstanceId} {cmd : Command} {p : Probe}
  {q : ℕ × Option Command × Probe}

/-- A scan that comes to an end has walked each index. -/
theorem sdLoop_index {c : Option Command} : ∀ {n : ℕ} {q : ℕ × Option Command × Probe},
    sdLoop T r ignore n c p = some q → ∀ k < n, ∃ s, sdLoop T r ignore k c p = some s
      ∧ (seqDepsForCommand T (r.index k) s.2.1 ignore s.2.2).isSome = true
  | 0, _, _, _, hk => absurd hk (Nat.not_lt_zero _)
  | n + 1, q, h, k, hk => by
    rw [sdLoop] at h
    split at h
    · cases h
    · rename_i mseq c p' hq
      obtain ⟨q', hq', rfl⟩ := Option.map_eq_some_iff.1 h
      rcases Nat.lt_succ_iff_lt_or_eq.1 hk with hk | rfl
      · exact sdLoop_index hq k hk
      · exact ⟨_, hq, Option.isSome_of_mem hq'⟩

/-- The walk of an index: the command as the indexes before it left it, and what it adds. -/
theorem sdForCommand_index (h : sdForCommand T r (some cmd) ignore p = some q) {k : ℕ}
    (hk : k < N) : ∃ d p' s, cmd.Widens d
      ∧ seqDepsLoop T ignore (r.index k).entries T.init 0 (some d) p' = some s
      ∧ indexAdds T r ignore (some cmd) p k = addsLoop T ignore (r.index k).entries T.init (some d)
      ∧ indexTrace T r ignore (some cmd) p k
        = seqDepsTrace T ignore (r.index k).entries T.init (some d) := by
  obtain ⟨⟨mseq, c, p'⟩, hsd, hseq⟩ := sdLoop_index h k hk
  obtain ⟨d, rfl, hd⟩ : ∃ d, c = some d ∧ cmd.Widens d := by
    refine sdLoop_command (P := fun c => ∃ d, c = some d ∧ cmd.Widens d) ?_ hsd ⟨cmd, rfl, .refl _⟩
    rintro c d hcd ⟨_, ⟨⟩, hc⟩
    exact ⟨d, rfl, hc.trans hcd⟩
  obtain ⟨s, hs⟩ := Option.isSome_iff_exists.1 hseq
  refine ⟨d, p', s, hd, hs, ?_, ?_⟩
  · unfold indexAdds
    rw [hsd]
  · unfold indexTrace
    rw [hsd]

/-- `afterIndexes` tells whether the scan comes to no tree with a span left there, and the command
it ends with. -/
theorem sdLoop_foretold {H : TreeLaw T} : ∀ {n : ℕ} {q : ℕ × Option Command × Probe},
    sdLoop T r ignore n (some cmd) p = some q →
      Foretells H ((List.range n).flatMap (indexTrace T r ignore (some cmd) p))
        (fun d => q.2.1 = some d) (afterIndexes r ignore cmd n)
  | 0, _, h => by
    cases h
    exact ⟨scoped_nil H, rfl⟩
  | n + 1, q, h => by
    rw [sdLoop] at h
    split at h
    · cases h
    rename_i mseq c p' hq
    obtain ⟨q', hq', rfl⟩ := Option.map_eq_some_iff.1 h
    rw [List.range_succ, List.flatMap_append, List.flatMap_singleton, afterIndexes]
    refine (sdLoop_foretold hq).bind fun d hd => ?_
    obtain rfl : c = some d := hd
    rw [indexTrace, hq]
    have hfree : Stands H T.init .free := H.stored_init
    exact seqDeps_foretold hfree (q := q') hq'

/-- The trees are never used with a span of a block that has been left exactly where none is left in
a tree that is used again. -/
theorem leavesNone_iff (H : TreeLaw T) (h : sdForCommand T r (some cmd) ignore p = some q) :
    LeavesNone r ignore cmd ↔ ScopedScan H r ignore cmd p := by
  refine Iff.trans (Foretells.isSome_iff (H := H) (sdLoop_foretold h)) ?_
  unfold ScopedScan Scoped
  simp only [List.mem_flatMap, List.mem_range]
  exact ⟨fun hs k hk rt hm => hs rt ⟨k, hk, hm⟩, fun hs rt ⟨k, hk, hm⟩ => hs k hk rt hm⟩

/-- The entries `sd_for_command` calls `add_dep` on. -/
def scanAdds (T : RangeTree) (r : Replica) (ignore : Option InstanceId) (cmd : Option Command)
    (p : Probe) (n : ℕ) : List Instance := (List.range n).flatMap (indexAdds T r ignore cmd p)

/-- `sd_for_command` adds `x`, or, in the same index, writes with larger ids that have the key. -/
def Caught (T : RangeTree) (r : Replica) (ignore : Option InstanceId) (cmd : Command) (p : Probe)
    (k : ℕ) (x : Instance) (xc : Command) : Prop :=
  x ∈ indexAdds T r ignore (some cmd) p k ∨ ∀ key ∈ xc.keys ∩ cmd.keys,
    ∃ w ∈ indexAdds T r ignore (some cmd) p k, x.key.instanceId < w.key.instanceId
      ∧ ∃ wc, w.command = some wc ∧ wc.writing = .write ∧ key ∈ wc.keys

end Replica

end Trace

/-- A read of `c`. -/
def readC : Instance :=
  { newInstance ⟨0, 1⟩ with
    status := .preAccepted, command := some ⟨[⟨[99], [99]⟩], 0, .read⟩ }

/-- A write of `a`, the next instance of the same replica. -/
def writeA : Instance :=
  { newInstance ⟨0, 2⟩ with
    status := .preAccepted, command := some ⟨[⟨[97], [97]⟩], 0, .write⟩ }

/-- A replica that has met both. -/
def mixed : Replica := ((newReplica 1).put readC).put writeA

theorem mixed_ahead {y : Instance} (h : Ahead (mixed.index 0) none readC y) : y = writeA := by
  have hm : y ∈ [writeA, readC] := h.1
  rcases List.mem_pair.1 hm with rfl | rfl
  · rfl
  · exact absurd h.2.1 (lt_irrefl _)

/-- A write of `a` behind an executed write of `b`. -/
def overtaken : Replica :=
  ((newReplica 1).put
    { newInstance ⟨0, 1⟩ with
      status := .preAccepted, command := some ⟨[⟨[97], [97]⟩], 0, .write⟩ }).put
    { newInstance ⟨0, 2⟩ with
      status := .executed, command := some ⟨[⟨[98], [98]⟩], 0, .write⟩ }

end Epx
