import Epx.Basic

/-!
# Commands and their interference

`command.c`. A command's spans are the first `tx_size` entries of its `spans` array, so `tx_size`
is the length of the list. Reading through an absent command is `none`, and so is a write past the
`TX_SIZE` spans the caller's buffer holds.
-/

namespace Epx

/-- The bytes of a key before its terminator. -/
abbrev Key := List UInt8

/-- `strcmp`. -/
def strcmp : Key → Key → Ordering
  | [], [] => .eq
  | [], _ :: _ => .lt
  | _ :: _, [] => .gt
  | a :: as, b :: bs => if a < b then .lt else if b < a then .gt else strcmp as bs

/-- `enum io_t`. -/
inductive IoT
  | read
  | write
  deriving DecidableEq, Repr

/-- `struct span`. -/
structure Span where
  startKey : Key
  endKey : Key
  deriving DecidableEq, Repr

/-- `struct command`. -/
structure Command where
  spans : List Span
  id : ℕ
  writing : IoT
  deriving DecidableEq, Repr

/-- `overlaps`. -/
def overlaps (s₁ s₂ : Span) : Bool :=
  strcmp s₁.startKey s₂.endKey != .gt && strcmp s₁.endKey s₂.startKey != .lt

/-- `empty_range`. -/
def emptyRange (s : Span) : Bool := s.startKey.isEmpty

/-- `encloses`. -/
def encloses (s₁ s₂ : Span) : Bool :=
  strcmp s₁.startKey s₂.startKey != .gt && strcmp s₁.endKey s₂.endKey != .lt

/-- What `overlap_sparse` writes to its buffer: a span of `c₁` once for each span of `c₂` it
meets. -/
def overlapSparse (c₁ c₂ : List Span) : List Span :=
  c₁.flatMap fun s => (c₂.filter (overlaps s)).map fun _ => s

/-- `overlap_sparse`, into a buffer of `txSize` spans. -/
def fillSparse (c₁ c₂ : List Span) : Option (List Span) :=
  if (overlapSparse c₁ c₂).length ≤ txSize then some (overlapSparse c₁ c₂) else none

/-- `interferes`: the spans written to the buffer, none of them when it answers 0. -/
def interferes (c₁ c₂ : Option Command) : Option (List Span) :=
  match c₁, c₂ with
  | none, _ => none
  | some a, some b =>
    if a.writing = .write ∨ b.writing = .write then fillSparse a.spans b.spans else some []
  | some a, none => if a.writing = .write ∧ a.spans = [] then some [] else none

/-- One of the two writes, and a span of one meets a span of the other. -/
def Interfere (a b : Command) : Prop :=
  (a.writing = .write ∨ b.writing = .write) ∧ ∃ s ∈ a.spans, ∃ t ∈ b.spans, overlaps s t

instance (a b : Command) : Decidable (Interfere a b) := inferInstanceAs (Decidable (_ ∧ _))

theorem strcmp_swap : ∀ a b : Key, (strcmp a b).swap = strcmp b a
  | [], [] => rfl
  | [], _ :: _ => rfl
  | _ :: _, [] => rfl
  | a :: as, b :: bs => by
    have ih := strcmp_swap as bs
    simp only [strcmp]
    by_cases h₁ : a < b
    · have h₂ : ¬ b < a := by
        rw [UInt8.lt_iff_toNat_lt] at h₁ ⊢
        omega
      simp [h₁, h₂]
    · by_cases h₂ : b < a
      · simp [h₁, h₂]
      · simpa [h₁, h₂] using ih

theorem overlaps_comm (s t : Span) : overlaps s t = overlaps t s := by
  have h₁ := strcmp_swap s.startKey t.endKey
  have h₂ := strcmp_swap s.endKey t.startKey
  simp only [overlaps, ← h₁, ← h₂]
  cases strcmp s.startKey t.endKey <;> cases strcmp s.endKey t.startKey <;> rfl

theorem Interfere.symm {a b : Command} (h : Interfere a b) : Interfere b a := by
  obtain ⟨hw, s, hs, t, ht, ho⟩ := h
  exact ⟨hw.symm, t, ht, s, hs, overlaps_comm s t ▸ ho⟩

end Epx
