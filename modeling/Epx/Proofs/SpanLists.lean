import Epx.Clients
import Epx.Index

/-!
# Span trees as lists

The trees of `llrb-interval` for concrete runs: what is stored in a list, refused where a stored span
encloses it, one span for a start key deleted at a time.
-/

namespace Epx

section Lists

variable {σ : Type} (span : σ → Span)

/-- The stored spans that a span meets, unless one encloses it. -/
def listGroup (t : List σ) (s : Span) : Option (List σ) :=
  if t.any fun c => encloses (span c) s then none else some (t.filter fun c => overlaps s (span c))

/-- The list without what has the start key. -/
def listDelete (t : List σ) (c : σ) : List σ :=
  t.filter fun d => (span d).startKey ≠ (span c).startKey

variable {span}

theorem listGroup_none {t : List σ} {s : Span} :
    listGroup span t s = none ↔ ∃ c ∈ t, encloses (span c) s = true := by
  simp [listGroup]

theorem listGroup_some {t l : List σ} {s : Span} (h : listGroup span t s = some l) :
    l = t.filter fun c => overlaps s (span c) := by
  unfold listGroup at h
  split_ifs at h
  exact (Option.some.inj h).symm

end Lists

/-- The span tree of the scans. A list does not change when a block is left. -/
def listTree : RangeTree where
  Tree := List Span
  init := []
  insert := fun t s => s :: t
  delete := listDelete id
  overlaps := fun t s => t.any (overlaps s)
  group := listGroup id
  leave := id

/-- The span index of the clients. -/
def listIndex : ClientIndex where
  Tree := List RegisteredSpan
  init := []
  stored := id
  insert := fun t c => c :: t
  delete := listDelete RegisteredSpan.span
  group := listGroup RegisteredSpan.span

end Epx
