import Epx.Clients
import Epx.Lib.Log
import Epx.Proofs.Keys
import Epx.Proofs.SpanLists

/-!
# Which watches are kept

A client is listed where its span meets no stored one, the slots on the stack being free, and where
the stored span that encloses its span lists it already. Otherwise it is not listed, or the clients
of the spans merged are written to every free slot.
-/

namespace Epx

/-- What `register_client` relies on of the interval library. -/
structure ClientIndex.Lawful (L : ClientIndex) : Prop where
  stored_init : L.stored L.init = []
  stored_insert {ci c} (h : ∀ d ∈ L.stored ci, d.span.startKey ≠ c.span.startKey) :
    (L.stored (L.insert ci c)).Perm (c :: L.stored ci)
  stored_delete {ci c} : (L.stored (L.delete ci c)).Perm
    ((L.stored ci).filter fun d => d.span.startKey ≠ c.span.startKey)
  group_none {ci sp} : L.group ci sp = none ↔ ∃ c ∈ L.stored ci, encloses c.span sp
  group_some {ci sp cg} (h : L.group ci sp = some cg) :
    cg.Perm ((L.stored ci).filter fun c => overlaps sp c.span)

section Watches

variable (L : ClientIndex)

/-- The client is listed once in a stored span that covers the span it registered. -/
def Registration.Listed (ci : L.Tree) (c : Registration) : Prop :=
  ∃ d ∈ L.stored ci, encloses d.span c.span ∧ ∃! i, d.clients i = c.client

/-- Each registered client is listed once for its span, and no client is listed for a span that
nothing it registered meets. -/
structure WatchesKept (calls : List Registration) : Prop where
  listed : ∀ c ∈ calls, c.Listed L (registerAll L calls)
  meant : ∀ d ∈ L.stored (registerAll L calls), ∀ i, (d.clients i).expires ≠ 0 →
    ∃ c ∈ calls, c.client = d.clients i ∧ overlaps c.span d.span

/-- The call finds the client listed already, or stores a span of its own. -/
def Registrable (older : List Registration) (c : Registration) : Prop :=
  c.Listed L (registerAll L older)
    ∨ (c.span.Valid ∧ (∀ d ∈ L.stored (registerAll L older), ¬ overlaps c.span d.span)
      ∧ ∀ i ≠ firstSlot, (c.mem i).expires = 0)

variable {L} {ci : L.Tree} {mem : Slots} {sp : Span} {client : Client} {calls : List Registration}

theorem registerClient_enclosed (hL : L.Lawful)
    (h : ∃ d ∈ L.stored ci, encloses d.span sp) : registerClient L ci mem sp client = ci := by
  unfold registerClient
  rw [hL.group_none.2 h]

/-- A span that meets no other is stored with the client in its first slot. -/
theorem registerClient_fresh (hL : L.Lawful) (hs : sp.Valid)
    (hv : ∀ d ∈ L.stored ci, d.span.Valid) (hm : ∀ d ∈ L.stored ci, ¬ overlaps sp d.span) :
    (L.stored (registerClient L ci mem sp client)).Perm
      (⟨sp, Function.update mem firstSlot client⟩ :: L.stored ci) := by
  have hne : L.group ci sp ≠ none := by
    intro h
    obtain ⟨d, hd, he⟩ := hL.group_none.1 h
    exact hm d hd (hs.overlaps_of_encloses he)
  obtain ⟨cg, hg⟩ := Option.ne_none_iff_exists'.1 hne
  have hcg : cg = [] := by
    have hf : ((L.stored ci).filter fun c => overlaps sp c.span) = [] :=
      List.filter_eq_nil_iff.2 hm
    have := hL.group_some hg
    rw [hf] at this
    exact this.eq_nil
  have hkey : ∀ d ∈ L.stored ci, d.span.startKey ≠ sp.startKey := by
    intro d hd he
    have hvd := Span.valid_iff.1 (hv d hd)
    refine hm d hd (overlaps_iff.2 ⟨he ▸ hvd, he ▸ ?_⟩)
    exact he ▸ Span.valid_iff.1 hs
  unfold registerClient
  rw [hg, hcg]
  simp only [mergeClients, List.foldl_nil, Function.update_idem]
  exact hL.stored_insert hkey

/-- Where the slots on the stack are free, only the first is taken afterwards. -/
theorem eq_firstSlot (hfree : ∀ i ≠ firstSlot, (mem i).expires = 0) {i : Fin maxClients}
    (hi : (Function.update mem firstSlot client i).expires ≠ 0) : i = firstSlot := by
  by_contra hne
  rw [Function.update_of_ne hne] at hi
  exact hi (hfree i hne)

/-- The stored spans are not inverted. -/
theorem stored_valid (hL : L.Lawful) (h : Log.Grown (Registrable L) calls) :
    ∀ d ∈ L.stored (registerAll L calls), d.span.Valid := by
  induction h with
  | nil =>
    unfold registerAll
    rw [hL.stored_init]
    exact fun _ h => absurd h List.not_mem_nil
  | cons _ ht ih =>
    unfold registerAll
    rcases ht with ⟨d, hd, he, -⟩ | ⟨hs, hm, -⟩
    · rw [registerClient_enclosed hL ⟨d, hd, he⟩]
      exact ih
    · intro d hd
      rcases List.mem_cons.1 ((registerClient_fresh hL hs ih hm).mem_iff.1 hd) with rfl | hd
      · exact hs
      · exact ih d hd

/-- Calls that each find the client listed, or store a span of their own, keep all watches. -/
theorem watches_kept (hL : L.Lawful) (h : Log.Grown (Registrable L) calls) :
    WatchesKept L calls := by
  induction h with
  | nil =>
    refine ⟨fun _ h => absurd h List.not_mem_nil, ?_⟩
    unfold registerAll
    rw [hL.stored_init]
    exact fun _ h => absurd h List.not_mem_nil
  | @cons c older hg ht ih =>
    have hold : ∀ d ∈ L.stored (registerAll L older), ∀ i, (d.clients i).expires ≠ 0 →
        ∃ b ∈ c :: older, b.client = d.clients i ∧ overlaps b.span d.span := by
      intro d hd i hi
      obtain ⟨b, hb, h⟩ := ih.meant d hd i hi
      exact ⟨b, List.mem_cons_of_mem _ hb, h⟩
    rcases ht with hl | ⟨hs, hm, hfree⟩
    · have heq : registerAll L (c :: older) = registerAll L older := by
        obtain ⟨d, hd, he, -⟩ := hl
        exact registerClient_enclosed hL ⟨d, hd, he⟩
      refine ⟨?_, heq ▸ hold⟩
      rw [heq]
      exact List.forall_mem_cons.2 ⟨hl, ih.listed⟩
    · have hp : (L.stored (registerAll L (c :: older))).Perm _ :=
        registerClient_fresh hL hs (stored_valid hL hg) hm
      have hself : Function.update c.mem firstSlot c.client firstSlot = c.client :=
        Function.update_self ..
      constructor
      · refine List.forall_mem_cons.2 ⟨?_, fun b hb => ?_⟩
        · refine ⟨_, hp.mem_iff.2 List.mem_cons_self, encloses_refl _, firstSlot, hself, ?_⟩
          intro i hi
          exact eq_firstSlot hfree ((congrArg Client.expires hi).trans_ne c.expires_ne)
        · obtain ⟨d, hd, h⟩ := ih.listed b hb
          exact ⟨d, hp.mem_iff.2 (List.mem_cons_of_mem _ hd), h⟩
      · intro d hd i hi
        rcases List.mem_cons.1 (hp.mem_iff.1 hd) with rfl | hd
        · obtain rfl := eq_firstSlot hfree hi
          exact ⟨c, List.mem_cons_self, hself.symm, hs.overlaps_self⟩
        · exact hold d hd i hi

end Watches

section Samples

theorem listIndex_lawful : listIndex.Lawful where
  stored_init := rfl
  stored_insert _ := .rfl
  stored_delete := .rfl
  group_none := listGroup_none
  group_some h := .of_eq (listGroup_some h)

/-- A client of its own for each channel, watching a span, on zeroed memory. -/
def watch (chan : ℕ) (sp : Span) : Registration where
  mem := fun _ => ⟨0, 0⟩
  span := sp
  client := ⟨chan, 90⟩
  expires_ne := show (90 : ℤ) ≠ 0 by decide

theorem watches_kept_disjoint :
    WatchesKept listIndex [watch 2 ⟨[99], [100]⟩, watch 1 ⟨[97], [98]⟩] := by
  refine watches_kept listIndex_lawful (.cons (.cons .nil (.inr ?_)) (.inr ?_))
  · exact ⟨by decide, by decide, fun _ _ => rfl⟩
  · exact ⟨by decide, by decide, fun _ _ => rfl⟩

/-- A client whose span a stored one encloses is not listed. -/
theorem enclosed_watch_lost : ¬ ∀ calls, WatchesKept listIndex calls := by
  intro h
  obtain ⟨d, hd, -, i, hi, -⟩ :=
    (h [watch 2 ⟨[98], [99]⟩, watch 1 ⟨[97], [100]⟩]).listed _ List.mem_cons_self
  have hnone : ∀ d ∈ listIndex.stored
      (registerAll listIndex [watch 2 ⟨[98], [99]⟩, watch 1 ⟨[97], [100]⟩]),
      ∀ i, d.clients i ≠ ⟨2, 90⟩ := by decide
  exact hnone d hd i hi

end Samples

end Epx
