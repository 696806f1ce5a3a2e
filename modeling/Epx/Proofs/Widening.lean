import Epx.Proofs.Keys
import Epx.Replica

/-!
# What a scan does to the command

`merge` widens a span to the hull of the two where it meets a stored one, and the coverage test
calls it with the command's own spans. So a scan may widen the spans of the command it is given, and
changes nothing else of it, whatever the tree holds.
-/

namespace Epx

/-- The span as `merge` leaves it after one stored span. -/
def hull (s c : Span) : Span where
  startKey := if strcmp s.startKey c.startKey = .gt then c.startKey else s.startKey
  endKey := if strcmp s.endKey c.endKey = .lt then c.endKey else s.endKey

section Hull

variable {r s t c : Span}

theorem hull_startKey (s c : Span) :
    (hull s c).startKey.rank = min s.startKey.rank c.startKey.rank := by
  unfold hull
  dsimp only
  split_ifs with h
  · exact (min_eq_right (strcmp_gt_iff.1 h).le).symm
  · exact (min_eq_left (strcmp_ne_gt_iff.1 h)).symm

theorem hull_endKey (s c : Span) :
    (hull s c).endKey.rank = max s.endKey.rank c.endKey.rank := by
  unfold hull
  dsimp only
  split_ifs with h
  · exact (max_eq_right (strcmp_lt_iff.1 h).le).symm
  · exact (max_eq_left (strcmp_ne_lt_iff.1 h)).symm

theorem encloses_hull (s c : Span) : encloses (hull s c) s = true :=
  encloses_iff.2 ⟨(hull_startKey s c).trans_le (min_le_left _ _),
    (le_max_left _ _).trans_eq (hull_endKey s c).symm⟩

theorem encloses_hull_right (s c : Span) : encloses (hull s c) c = true :=
  encloses_iff.2 ⟨(hull_startKey s c).trans_le (min_le_right _ _),
    (le_max_right _ _).trans_eq (hull_endKey s c).symm⟩

theorem encloses_trans (h₁ : encloses r s = true) (h₂ : encloses s t = true) :
    encloses r t = true := by
  rw [encloses_iff] at *
  exact ⟨h₁.1.trans h₂.1, h₂.2.trans h₁.2⟩

/-- A span that encloses the other is left as it is, and no other span is. -/
theorem hull_eq_iff : hull s c = s ↔ encloses s c = true := by
  constructor
  · intro h
    have := encloses_hull_right s c
    rwa [h] at this
  · intro h
    obtain ⟨h₁, h₂⟩ := encloses_iff.1 h
    unfold hull
    rw [if_neg (strcmp_ne_gt_iff.2 h₁), if_neg (strcmp_ne_lt_iff.2 h₂)]

/-- What meets a span meets what encloses it. -/
theorem overlaps_mono (h : encloses s t = true) (ho : overlaps t c = true) :
    overlaps s c = true := by
  rw [encloses_iff] at h
  rw [overlaps_iff] at *
  exact ⟨h.1.trans ho.1, ho.2.trans h.2⟩

end Hull

/-- `d` is `c` with its spans widened. -/
structure Command.Widens (c d : Command) : Prop where
  id : d.id = c.id
  writing : d.writing = c.writing
  spans : List.Forall₂ (fun s t => encloses t s = true) c.spans d.spans

theorem widened_spans_refl (ss : List Span) :
    List.Forall₂ (fun s t => encloses t s = true) ss ss :=
  List.forall₂_same.2 fun s _ => encloses_refl s

theorem widened_spans_trans : ∀ {xs ys zs : List Span},
    List.Forall₂ (fun s t => encloses t s = true) xs ys →
    List.Forall₂ (fun s t => encloses t s = true) ys zs →
    List.Forall₂ (fun s t => encloses t s = true) xs zs
  | _, _, _, .nil, .nil => .nil
  | _, _, _, .cons h₁ hs₁, .cons h₂ hs₂ => .cons (encloses_trans h₂ h₁) (widened_spans_trans hs₁ hs₂)

/-- Spans that enclose each other are one. -/
theorem encloses_antisymm {s t : Span} (h : encloses s t = true) (h' : encloses t s = true) :
    s = t := by
  rw [encloses_iff] at h h'
  obtain ⟨a, b⟩ := s
  obtain ⟨a', b'⟩ := t
  have ha : a = a' := rank_injective (le_antisymm h.1 h'.1)
  have hb : b = b' := rank_injective (le_antisymm h'.2 h.2)
  rw [ha, hb]

theorem widened_spans_antisymm : ∀ {xs ys : List Span},
    List.Forall₂ (fun s t => encloses t s = true) xs ys →
    List.Forall₂ (fun s t => encloses t s = true) ys xs → xs = ys
  | _, _, .nil, .nil => rfl
  | _, _, .cons h hs, .cons h' hs' =>
    congrArg₂ List.cons (encloses_antisymm h' h) (widened_spans_antisymm hs hs')

theorem Command.Widens.refl (c : Command) : c.Widens c := ⟨rfl, rfl, widened_spans_refl _⟩

theorem Command.Widens.trans {c d e : Command} (h : c.Widens d) (h' : d.Widens e) : c.Widens e :=
  ⟨h'.id.trans h.id, h'.writing.trans h.writing, widened_spans_trans h.spans h'.spans⟩

/-- What holds of a command holds of it when its spans are widened. -/
def Stable (P : Option Command → Prop) : Prop := ∀ c d : Command, c.Widens d → P (some c) → P (some d)

section Scan

variable {T : RangeTree} {P : Option Command → Prop} {r : Replica} {ignore : Option InstanceId}

theorem merge_cons {rt : T.Tree} {s c : Span} {l : List Span} (h : overlaps s c = true) :
    merge T rt s (c :: l) = merge T (T.delete rt c) (hull s c) l := by
  unfold merge
  rw [List.foldl_cons, if_pos h]
  rfl

theorem encloses_merge : ∀ (l : List Span) (rt : T.Tree) (s : Span),
    encloses (merge T rt s l).2 s = true
  | [], _, s => encloses_refl s
  | c :: l, rt, s => by
    by_cases h : overlaps s c = true
    · rw [merge_cons h]
      exact encloses_trans (encloses_merge l _ _) (encloses_hull s c)
    · have hm : merge T rt s (c :: l) = merge T rt s l := by
        unfold merge
        rw [List.foldl_cons, if_neg h]
      rw [hm]
      exact encloses_merge l rt s

theorem coverLoop_widens : ∀ (ss : List Span) (rt : T.Tree),
    List.Forall₂ (fun s t => encloses t s = true) ss (coverLoop T rt ss).2.1
  | [], _ => .nil
  | s :: ss, rt => by
    rw [coverLoop]
    split
    · exact .cons (encloses_refl s) (coverLoop_widens ss rt)
    · rename_i rt' s' hg
      obtain ⟨l, -, hl⟩ := Option.map_eq_some_iff.1 hg
      refine .cons ?_ (coverLoop_widens ss rt')
      have := encloses_merge l rt s
      rwa [hl] at this

theorem spanLoop_widens : ∀ (cspan : List Span) (rt : T.Tree) (ss : List Span),
    List.Forall₂ (fun s t => encloses t s = true) ss (spanLoop T rt cspan ss).2.1
  | [], _, ss => widened_spans_refl ss
  | s :: cspan, rt, ss => by
    rw [spanLoop]
    split_ifs
    · exact widened_spans_refl ss
    split
    · exact spanLoop_widens cspan rt ss
    · rename_i rt' nsp _
      have hc := coverLoop_widens ss (T.insert rt' nsp)
      dsimp only
      split_ifs
      · exact hc
      · exact widened_spans_trans hc (spanLoop_widens cspan _ _)

/-- A scan keeps what widening keeps. -/
theorem seqDepsLoop_command (hP : Stable P) : ∀ {xs : List Instance} {rt : T.Tree} {mseq : ℕ}
    {cmd : Option Command} {p : Probe} {s : ℕ × Option Command × Probe},
    seqDepsLoop T ignore xs rt mseq cmd p = some s → P cmd → P s.2.1
  | [], _, _, _, _, _, h, hc => by
    cases h
    exact hc
  | ti :: rest, rt, mseq, cmd, p, s, h, hc => by
    simp only [seqDepsLoop] at h
    split_ifs at h
    · exact seqDepsLoop_command hP h hc
    · cases h
      exact hc
    split at h
    · cases h
    · exact seqDepsLoop_command hP h hc
    split at h
    · rename_i tc c _ _
      have hw : ∀ ss, P (some { c with spans := (spanLoop T rt ss c.spans).2.1 }) := fun ss =>
        hP c _ ⟨rfl, rfl, spanLoop_widens ss rt c.spans⟩ hc
      split_ifs at h
      · cases h
        exact hw _
      · cases h
        exact hw _
      · exact seqDepsLoop_command hP h (hw _)
      · exact seqDepsLoop_command hP h (hw _)
      · exact seqDepsLoop_command hP h hc
      · exact seqDepsLoop_command hP h hc
    · cases h

theorem sdLoop_command (hP : Stable P) : ∀ {n : ℕ} {cmd : Option Command} {p : Probe}
    {s : ℕ × Option Command × Probe}, sdLoop T r ignore n cmd p = some s → P cmd → P s.2.1
  | 0, _, _, _, h, hc => by
    cases h
    exact hc
  | n + 1, cmd, p, s, h, hc => by
    simp only [sdLoop] at h
    split at h
    · cases h
    · rename_i hq
      obtain ⟨q, hq', rfl⟩ := Option.map_eq_some_iff.1 h
      exact seqDepsLoop_command (s := q) hP hq' (sdLoop_command hP hq hc)

theorem conflictLoop_command (hP : Stable P) {i : Instance} {seq : ℕ} {deps : List Dependency} :
    ∀ {xs : List Entry} {rt : T.Tree} {c : Option Command} {q : Option Entry × Option Command},
    conflictLoop T i seq deps xs rt c = some q → P c → P q.2
  | [], _, _, _, h, hc => by
    cases h
    exact hc
  | ti :: rest, rt, c, q, h, hc => by
    simp only [conflictLoop] at h
    split_ifs at h
    · cases h
      exact hc
    · exact conflictLoop_command hP h hc
    · exact conflictLoop_command hP h hc
    · exact conflictLoop_command hP h hc
    split at h
    · cases h
    · exact conflictLoop_command hP h hc
    split at h
    · rename_i tc cmd _ _
      have hw : ∀ ss, P (some { cmd with spans := (spanLoop T rt ss cmd.spans).2.1 }) := fun ss =>
        hP cmd _ ⟨rfl, rfl, spanLoop_widens ss rt cmd.spans⟩ hc
      split_ifs at h
      · cases h
        exact hw _
      · cases h
        exact hw _
      · exact conflictLoop_command hP h (hw _)
      · cases h
        exact hc
      · exact conflictLoop_command hP h hc
    · cases h

theorem pacLoop_command (hP : Stable P) {rows : ℕ → List Entry} {i : Instance} {own : Bool}
    {seq : ℕ} {deps : List Dependency} : ∀ {ks : List ℕ} {c : Option Command}
    {q : Option Entry × Option Command},
    pacLoop T rows i own seq deps ks c = some q → P c → P q.2
  | [], _, _, h, hc => by
    cases h
    exact hc
  | k :: ks, c, q, h, hc => by
    rw [pacLoop] at h
    split at h
    · cases h
    · rename_i hp
      cases h
      exact conflictLoop_command hP hp hc
    · rename_i hp
      exact pacLoop_command hP h (conflictLoop_command hP hp hc)

theorem findConflict_command (hP : Stable P) {i : Instance} {c : Option Command} {seq : ℕ}
    {deps : Deps} {q : Option Entry × Option Command}
    (h : findConflict T r i c seq deps = some q) (hc : P c) : P q.2 := by
  unfold findConflict at h
  split_ifs at h
  · cases h
    exact hc
  · cases h
    exact hc
  · exact pacLoop_command hP h hc

end Scan

end Epx
