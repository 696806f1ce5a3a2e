import Epx.Proofs.Misses

/-!
# The spans that interferes reports

The loop writes a span of the first command once for each span of the second that it meets, and
does not look at the end of the buffer. So a span that meets two is reported twice.
-/

namespace Epx

section Counts

variable {as bs : List Span}

theorem overlapSparse_cons (a : Span) (as bs : List Span) :
    overlapSparse (a :: as) bs
      = List.replicate (bs.countP (overlaps a)) a ++ overlapSparse as bs := by
  unfold overlapSparse
  rw [List.flatMap_cons, List.map_const', List.countP_eq_length_filter]

theorem length_overlapSparse_cons (a : Span) (as bs : List Span) :
    (overlapSparse (a :: as) bs).length
      = bs.countP (overlaps a) + (overlapSparse as bs).length := by
  rw [overlapSparse_cons, List.length_append, List.length_replicate]

/-- A further span of the second command is written once for each span that meets it. -/
theorem length_overlapSparse_cons_right (a : Span) (as bs : List Span) :
    (overlapSparse bs (a :: as)).length
      = bs.countP (overlaps a) + (overlapSparse bs as).length := by
  induction bs with
  | nil => rfl
  | cons b bs ih =>
    rw [length_overlapSparse_cons, length_overlapSparse_cons, ih, List.countP_cons,
      List.countP_cons, overlaps_comm b a]
    omega

/-- As many spans are written the one way as the other. -/
theorem length_overlapSparse_comm (as bs : List Span) :
    (overlapSparse as bs).length = (overlapSparse bs as).length := by
  induction as with
  | nil =>
    induction bs with
    | nil => rfl
    | cons b bs ih => rw [length_overlapSparse_cons, ← ih, List.countP_nil]; rfl
  | cons a as ih => rw [length_overlapSparse_cons, length_overlapSparse_cons_right, ih]

/-- The spans that meet one of `bs`, each of them once. -/
def meeting (as bs : List Span) : List Span := as.filter fun s => bs.any (overlaps s)

theorem meeting_cons (a : Span) (as bs : List Span) :
    meeting (a :: as) bs = List.replicate (min 1 (bs.countP (overlaps a))) a ++ meeting as bs := by
  unfold meeting
  rw [List.filter_cons]
  split_ifs with h
  · have hpos : 0 < bs.countP (overlaps a) := List.countP_pos_iff.2 (List.any_eq_true.1 h)
    rw [min_eq_left hpos]
    rfl
  · have hz : bs.countP (overlaps a) = 0 := List.countP_eq_zero.2 fun b hb ho =>
      h (List.any_eq_true.2 ⟨b, hb, ho⟩)
    rw [hz, min_eq_right zero_le_one]
    rfl

theorem length_meeting_le (as bs : List Span) :
    (meeting as bs).length ≤ (overlapSparse as bs).length := by
  induction as with
  | nil => exact le_rfl
  | cons a as ih =>
    rw [meeting_cons, length_overlapSparse_cons, List.length_append, List.length_replicate]
    exact add_le_add (min_le_right _ _) ih

/-- What is written is the spans that meet one of `bs` just when none of them meets two. -/
theorem overlapSparse_eq_meeting_iff :
    overlapSparse as bs = meeting as bs ↔ ∀ s ∈ as, bs.countP (overlaps s) ≤ 1 := by
  induction as with
  | nil => exact iff_of_true rfl fun s hs => absurd hs List.not_mem_nil
  | cons a as ih =>
    rw [List.forall_mem_cons, ← ih]
    constructor
    · intro h
      have hlen := congrArg List.length h
      have hle := length_meeting_le as bs
      rw [meeting_cons, length_overlapSparse_cons, List.length_append,
        List.length_replicate] at hlen
      have hone : bs.countP (overlaps a) ≤ 1 := by omega
      rw [overlapSparse_cons, meeting_cons, min_eq_right hone] at h
      exact ⟨hone, List.append_cancel_left h⟩
    · rintro ⟨hone, h⟩
      rw [overlapSparse_cons, meeting_cons, min_eq_right hone, h]

theorem overlapSparse_eq_nil_iff : overlapSparse as bs = [] ↔ meeting as bs = [] := by
  rw [List.eq_nil_iff_forall_not_mem, List.eq_nil_iff_forall_not_mem]
  refine forall_congr' fun s => not_congr ?_
  rw [mem_overlapSparse, meeting, List.mem_filter, List.any_eq_true]

end Counts

section Commands

variable {c₁ c₂ : Command}

/-- One of the two writes, and a key lies in a span of both. -/
def Clash (c₁ c₂ : Command) : Prop :=
  (c₁.writing = .write ∨ c₂.writing = .write) ∧ ∃ k, k ∈ c₁.keys ∧ k ∈ c₂.keys

/-- Spans that are not inverted meet in the larger of their start keys. -/
theorem overlaps_iff_keys {s t : Span} (hs : s.Valid) (ht : t.Valid) :
    overlaps s t = true ↔ ∃ k, k ∈ s.keys ∧ k ∈ t.keys := by
  refine ⟨fun h => ?_, fun ⟨k, hk, hk'⟩ => overlaps_of_keys hk hk'⟩
  obtain ⟨h₁, h₂⟩ := overlaps_iff.1 h
  rcases le_total s.startKey.rank t.startKey.rank with hle | hle
  · exact ⟨t.startKey, ⟨hle, h₂⟩, le_rfl, Span.valid_iff.1 ht⟩
  · exact ⟨s.startKey, ⟨le_rfl, Span.valid_iff.1 hs⟩, hle, h₁⟩

theorem meeting_ne_nil_iff (h₁ : ∀ s ∈ c₁.spans, s.Valid) (h₂ : ∀ s ∈ c₂.spans, s.Valid) :
    meeting c₁.spans c₂.spans ≠ [] ↔ ∃ k, k ∈ c₁.keys ∧ k ∈ c₂.keys := by
  constructor
  · intro h
    obtain ⟨s, hs⟩ := List.exists_mem_of_ne_nil _ h
    obtain ⟨hs, ho⟩ := List.mem_filter.1 hs
    obtain ⟨t, ht, ho⟩ := List.any_eq_true.1 ho
    obtain ⟨k, hks, hkt⟩ := (overlaps_iff_keys (h₁ s hs) (h₂ t ht)).1 ho
    exact ⟨k, ⟨s, hs, hks⟩, t, ht, hkt⟩
  · rintro ⟨k, ⟨s, hs, hks⟩, t, ht, hkt⟩
    refine List.ne_nil_of_mem (List.mem_filter.2 ⟨hs, List.any_eq_true.2 ⟨t, ht, ?_⟩⟩)
    exact overlaps_of_keys hks hkt

/-- `interferes` answers in either order whether the two clash, within its buffer, and when it does
has written the spans of `c₁` that meet one of `c₂`, each of them once. -/
def ReportsExactly (c₁ c₂ : Command) : Prop :=
  ∃ out out', interferes (some c₁) (some c₂) = some out ∧ interferes (some c₂) (some c₁) = some out'
    ∧ (out ≠ [] ↔ Clash c₁ c₂) ∧ (out ≠ [] ↔ out' ≠ [])
    ∧ (out ≠ [] → out = meeting c₁.spans c₂.spans)

theorem interferes_of_write (hw : c₁.writing = .write ∨ c₂.writing = .write) :
    interferes (some c₁) (some c₂) = fillSparse c₁.spans c₂.spans := if_pos hw

theorem interferes_of_read (hw : ¬ (c₁.writing = .write ∨ c₂.writing = .write)) :
    interferes (some c₁) (some c₂) = some [] := if_neg hw

theorem fillSparse_eq_some_iff {as bs out : List Span} :
    fillSparse as bs = some out
      ↔ (overlapSparse as bs).length ≤ txSize ∧ overlapSparse as bs = out := by
  unfold fillSparse
  split_ifs with h
  · rw [Option.some.injEq, and_iff_right h]
  · exact iff_of_false (by rintro ⟨⟩) fun hl => h hl.1

/-- `interferes` is exact on commands with spans that are not inverted just when neither writes or
no span of the first meets two of the second. -/
theorem interferes_exact_iff (h₁ : ∀ s ∈ c₁.spans, s.Valid) (h₂ : ∀ s ∈ c₂.spans, s.Valid)
    (hlen : c₁.spans.length ≤ txSize) :
    ReportsExactly c₁ c₂ ↔ (c₁.writing = .write ∨ c₂.writing = .write →
      ∀ s ∈ c₁.spans, c₂.spans.countP (overlaps s) ≤ 1) := by
  by_cases hw : c₁.writing = .write ∨ c₂.writing = .write
  · rw [forall_prop_of_true hw, ← overlapSparse_eq_meeting_iff]
    constructor
    · rintro ⟨out, _, hout, -, -, -, heq⟩
      rw [interferes_of_write hw, fillSparse_eq_some_iff] at hout
      obtain ⟨-, rfl⟩ := hout
      by_cases hne : overlapSparse c₁.spans c₂.spans = []
      · rw [hne, overlapSparse_eq_nil_iff.1 hne]
      · exact heq hne
    · intro heq
      have hfit : (overlapSparse c₁.spans c₂.spans).length ≤ txSize := by
        rw [heq]
        exact (List.length_filter_le _ _).trans hlen
      have hback := length_overlapSparse_comm c₁.spans c₂.spans
      refine ⟨_, _, (interferes_of_write hw).trans (fillSparse_eq_some_iff.2 ⟨hfit, rfl⟩),
        (interferes_of_write hw.symm).trans (fillSparse_eq_some_iff.2 ⟨hback ▸ hfit, rfl⟩), ?_, ?_,
        fun _ => heq⟩
      · rw [heq, meeting_ne_nil_iff h₁ h₂, Clash, and_iff_right hw]
      · rw [ne_eq, ne_eq, ← List.length_eq_zero_iff, ← List.length_eq_zero_iff, hback]
  · refine iff_of_true ⟨[], [], interferes_of_read hw, interferes_of_read fun h => hw h.symm, ?_,
      Iff.rfl, fun h => absurd rfl h⟩ fun h => absurd h hw
    exact iff_of_false (fun h => h rfl) fun h => hw h.1

/-- A write of `a` and of `c` against a read from `a` to `b`. -/
theorem interferes_exact_pair :
    ReportsExactly ⟨[⟨[97], [97]⟩, ⟨[99], [99]⟩], 0, .write⟩ ⟨[⟨[97], [98]⟩], 1, .read⟩ :=
  (interferes_exact_iff (by decide) (by decide) (by decide)).2 fun _ => by decide

/-- A write from `a` to `c` is reported twice against a read of `a` and of `b`, to a caller that
reads one span back. With 11 spans that each meet 10, the buffer ends before the loop does. -/
theorem interferes_repeats :
    ¬ ReportsExactly ⟨[⟨[97], [99]⟩], 0, .write⟩ ⟨[⟨[97], [97]⟩, ⟨[98], [98]⟩], 1, .read⟩
      ∧ interferes (some ⟨[⟨[97], [99]⟩], 0, .write⟩)
          (some ⟨[⟨[97], [97]⟩, ⟨[98], [98]⟩], 1, .read⟩) = some [⟨[97], [99]⟩, ⟨[97], [99]⟩]
      ∧ interferes (some ⟨List.replicate 11 ⟨[97], [97]⟩, 0, .write⟩)
          (some ⟨List.replicate 10 ⟨[97], [97]⟩, 1, .read⟩) = none := by
  refine ⟨?_, by decide, by decide⟩
  rintro ⟨out, _, hout, -, -, -, heq⟩
  obtain rfl : [⟨[97], [99]⟩, ⟨[97], [99]⟩] = out := by
    rw [← Option.some.injEq, ← hout]
    decide
  exact absurd (heq (by decide)) (by decide)

end Commands

end Epx
