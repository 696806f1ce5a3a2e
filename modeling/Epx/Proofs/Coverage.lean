import Epx.Proofs.SpanLists
import Epx.Proofs.Widening

/-!
# The span tree of a scan

What a scan puts to its tree is a variable of the block that puts it, so the tree may be used after
that block only if it is empty again. In such a scan the tree holds one span at a time, and the loop
over the command's spans ends in one of three ways: the span encloses all of them, or the first that
it clips takes it in and out of the tree, or it clips none and is left there.
-/

namespace Epx

/-- What the scans rely on of the interval library, in terms of the spans stored in a tree. Where a
block is left, an empty tree is the same as before, and one that holds a span is not empty; nothing
else is known of it. -/
structure TreeLaw (T : RangeTree) where
  stored : T.Tree → Set Span
  stored_init : stored T.init = ∅
  stored_insert {rt : T.Tree} (h : stored rt = ∅) (s : Span) : stored (T.insert rt s) = {s}
  stored_delete (rt : T.Tree) (s : Span) : stored (T.delete rt s) ⊆ stored rt \ {s}
  overlaps_iff (rt : T.Tree) (s : Span) :
    T.overlaps rt s = true ↔ ∃ c ∈ stored rt, overlaps s c = true
  group_none (rt : T.Tree) (s : Span) :
    T.group rt s = none ↔ ∃ c ∈ stored rt, encloses c s = true
  group_some {rt : T.Tree} {s : Span} {l : List Span} (h : T.group rt s = some l) (c : Span) :
    c ∈ l ↔ c ∈ stored rt ∧ overlaps s c = true
  leave_empty {rt : T.Tree} (h : stored rt = ∅) : T.leave rt = rt
  leave_held {rt : T.Tree} (h : stored (T.leave rt) = ∅) : stored rt = ∅

/-- The span encloses each of the others. -/
def EnclosesAll (s : Span) (spans : List Span) : Prop := ∀ t ∈ spans, encloses s t = true

/-- `s` meets `t` and does not enclose it. -/
def Clips (s t : Span) : Prop := overlaps t s = true ∧ ¬ encloses s t = true

instance (s : Span) (spans : List Span) : Decidable (EnclosesAll s spans) :=
  inferInstanceAs (Decidable (∀ t ∈ spans, encloses s t = true))

instance (s t : Span) : Decidable (Clips s t) := inferInstanceAs (Decidable (_ ∧ _))

/-- A span that clips one of the others does not enclose them all. -/
theorem not_enclosesAll {s : Span} {spans : List Span} (h : ∃ t ∈ spans, Clips s t) :
    ¬ EnclosesAll s spans := by
  obtain ⟨t, ht, -, hn⟩ := h
  exact fun hc => hn (hc t ht)

/-- The spans of a command after they have been put to a tree that holds `s` alone. -/
def widen (s : Span) : List Span → List Span
  | [] => []
  | t :: ts => if Clips s t then hull t s :: ts else t :: widen s ts

/-- The spans up to the first empty one. -/
def nonempty (cspan : List Span) : List Span := cspan.takeWhile fun s => !emptyRange s

/-- What a scan for `c` does with its tree at an entry: it puts the spans of a write that meet the
command, up to the first empty one, or it asks the tree about a read. -/
def uses (c : Command) : Option Command → List (Option Span)
  | none => []
  | some tc =>
    if tc.writing = .write then
      (nonempty ((overlapSparse tc.spans c.spans).take tc.spans.length)).map some
    else if c.writing = .write ∧ overlapSparse tc.spans c.spans ≠ [] then [none]
    else []

/-- How a scan stands with its tree, from outside the blocks: nothing is in it, it holds a span of a
block that has been left, or the scan has ended. -/
inductive Stand
  | free
  | held
  | ended
  deriving DecidableEq

/-- How a scan stands after uses of its tree, and the command's spans then; `none` if it goes to the
tree while that holds a span of a block it has left. -/
def afterUses : Stand → List (Option Span) → List Span → Option (Stand × List Span)
  | st, [], spans => some (st, spans)
  | .free, none :: us, spans => afterUses .free us spans
  | .free, some s :: us, spans =>
    if EnclosesAll s spans then some (.ended, spans)
    else if ∃ t ∈ spans, Clips s t then afterUses .free us (widen s spans)
    else afterUses .held us spans
  | .held, _ :: _, _ => none
  | .ended, _ :: _, spans => some (.ended, spans)

/-- What a scan does with its tree: it goes to it from outside the block of a span it has put there,
or puts a span, with the tree then and the spans of the command put to it in the same block. -/
inductive Point (T : RangeTree)
  | use (rt : T.Tree)
  | put (s : Span) (rt : T.Tree) (spans : List Span)

/-- What the loop over the interfering spans does with the tree. -/
def spanTrace (T : RangeTree) : T.Tree → List Span → List Span → List (Point T)
  | _, [], _ => []
  | rt, s :: cspan, spans =>
    if emptyRange s then []
    else
      .use rt :: match groupAdd T rt s with
        | none => spanTrace T rt cspan spans
        | some (rt', nsp) =>
          let (rt, spans', covered) := coverLoop T (T.insert rt' nsp) spans
          .put nsp (T.insert rt' nsp) spans
            :: if covered then [] else spanTrace T (T.leave rt) cspan spans'

section Trees

variable {T : RangeTree} (H : TreeLaw T) {rt : T.Tree} {s t : Span} {ss cspan spans : List Span}
  {trace trace' : List (Point T)}

/-- Each time the scan comes to its tree from outside a block, it holds nothing. -/
def Scoped (trace : List (Point T)) : Prop := ∀ rt, .use rt ∈ trace → H.stored rt = ∅

theorem scoped_nil : Scoped H ([] : List (Point T)) := fun _ h => absurd h List.not_mem_nil

theorem scoped_append : Scoped H (trace ++ trace') ↔ Scoped H trace ∧ Scoped H trace' := by
  unfold Scoped
  simp only [List.mem_append]
  exact ⟨fun h => ⟨fun rt hm => h rt (.inl hm), fun rt hm => h rt (.inr hm)⟩,
    fun h rt hm => hm.elim (h.1 rt) (h.2 rt)⟩

theorem scoped_use : Scoped H (.use rt :: trace) ↔ H.stored rt = ∅ ∧ Scoped H trace := by
  unfold Scoped
  simp only [List.mem_cons, Point.use.injEq]
  exact ⟨fun h => ⟨h rt (.inl rfl), fun rt hm => h rt (.inr hm)⟩,
    fun h rt hm => hm.elim (fun he => he ▸ h.1) (h.2 rt)⟩

theorem scoped_put : Scoped H (.put s rt spans :: trace) ↔ Scoped H trace := by
  unfold Scoped
  simp

theorem groupAdd_none : groupAdd T rt s = none ↔ ∃ c ∈ H.stored rt, encloses c s = true := by
  unfold groupAdd
  rw [Option.map_eq_none_iff, H.group_none]

theorem merge_stored : ∀ {l : List Span} {rt : T.Tree} {t : Span},
    H.stored (merge T rt t l).1 ⊆ H.stored rt
  | [], _, _ => subset_rfl
  | c :: l, rt, t => by
    by_cases h : overlaps t c = true
    · rw [merge_cons h]
      exact merge_stored.trans fun d hd => (H.stored_delete rt c hd).1
    · have hm : merge T rt t (c :: l) = merge T rt t l := by
        unfold merge
        rw [List.foldl_cons, if_neg h]
      rw [hm]
      exact merge_stored

/-- A span that encloses the stored one is left as it is. -/
theorem merge_again : ∀ {l : List Span} {rt : T.Tree} {t : Span}, (∀ c ∈ l, c = s) →
    encloses t s = true → overlaps t s = true → (merge T rt t l).2 = t
  | [], _, _, _, _, _ => rfl
  | c :: l, rt, t, hl, he, ho => by
    rw [List.forall_mem_cons] at hl
    rw [merge_cons (hl.1 ▸ ho), hull_eq_iff.2 (hl.1 ▸ he)]
    exact merge_again hl.2 he ho

theorem groupAdd_empty (h : H.stored rt = ∅) : groupAdd T rt s = some (rt, s) := by
  have hne : T.group rt s ≠ none := by
    intro hn
    obtain ⟨c, hc, -⟩ := (H.group_none rt s).1 hn
    exact (h ▸ hc : c ∈ (∅ : Set Span))
  obtain ⟨l, hl⟩ := Option.ne_none_iff_exists'.1 hne
  have hnil : l = [] := List.eq_nil_iff_forall_not_mem.2 fun c hc =>
    (h ▸ ((H.group_some hl c).1 hc).1 : c ∈ (∅ : Set Span))
  unfold groupAdd
  rw [hl, hnil]
  rfl

/-- A span that the only stored one clips takes it in, and out of the tree. -/
theorem groupAdd_clips (h : H.stored rt = {s}) (hc : Clips s t) :
    ∃ rt', groupAdd T rt t = some (rt', hull t s) ∧ H.stored rt' = ∅ := by
  have hne : T.group rt t ≠ none := by
    intro hn
    obtain ⟨c, hcs, he⟩ := (H.group_none rt t).1 hn
    rw [h] at hcs
    exact hc.2 (hcs ▸ he)
  obtain ⟨l, hl⟩ := Option.ne_none_iff_exists'.1 hne
  have hmem := H.group_some hl
  have hls : ∀ c ∈ l, c = s := fun c hcl => (h ▸ ((hmem c).1 hcl).1 : c ∈ ({s} : Set Span))
  obtain ⟨d, l', rfl⟩ := List.exists_cons_of_ne_nil
    (List.ne_nil_of_mem ((hmem s).2 ⟨h ▸ rfl, hc.1⟩))
  rw [List.forall_mem_cons] at hls
  obtain ⟨rfl, hl'⟩ := hls
  have ho : overlaps (hull t d) d = true := overlaps_mono (encloses_hull t d) hc.1
  have hm : merge T rt t (d :: l') = merge T (T.delete rt d) (hull t d) l' := merge_cons hc.1
  refine ⟨(merge T (T.delete rt d) (hull t d) l').1, ?_, ?_⟩
  · unfold groupAdd
    rw [hl, Option.map_some, hm]
    exact congrArg some (Prod.ext rfl (merge_again hl' (encloses_hull_right t d) ho))
  · refine Set.subset_empty_iff.1 ((merge_stored H).trans fun c hcd => ?_)
    have hd := H.stored_delete rt d hcd
    rw [h] at hd
    exact hd.2 hd.1

/-- A span that meets nothing stored leaves the tree as it is. -/
theorem groupAdd_apart (h : H.stored rt = {s}) (hc : ¬ Clips s t) (he : ¬ encloses s t = true) :
    groupAdd T rt t = some (rt, t) := by
  have hne : T.group rt t ≠ none := by
    intro hn
    obtain ⟨c, hcs, hce⟩ := (H.group_none rt t).1 hn
    rw [h] at hcs
    exact he (hcs ▸ hce)
  obtain ⟨l, hl⟩ := Option.ne_none_iff_exists'.1 hne
  have hnil : l = [] := List.eq_nil_iff_forall_not_mem.2 fun c hcl => by
    obtain ⟨hcs, ho⟩ := (H.group_some hl c).1 hcl
    rw [h] at hcs
    exact hc ⟨hcs ▸ ho, he⟩
  unfold groupAdd
  rw [hl, hnil]
  rfl

theorem coverLoop_empty (h : H.stored rt = ∅) : ∀ ss : List Span,
    coverLoop T rt ss = (rt, ss, ss.isEmpty)
  | [] => rfl
  | s :: ss => by
    rw [coverLoop, groupAdd_empty H h]
    dsimp only
    rw [coverLoop_empty h ss]
    rfl

theorem coverLoop_enclosesAll (h : H.stored rt = {s}) : ∀ {ss : List Span}, EnclosesAll s ss →
    coverLoop T rt ss = (rt, ss, true)
  | [], _ => rfl
  | t :: ss, hc => by
    unfold EnclosesAll at hc
    rw [List.forall_mem_cons] at hc
    rw [coverLoop, (groupAdd_none H).2 ⟨s, h ▸ rfl, hc.1⟩]
    dsimp only
    rw [coverLoop_enclosesAll h hc.2]

theorem coverLoop_clips (h : H.stored rt = {s}) : ∀ {ss : List Span}, (∃ t ∈ ss, Clips s t) →
    H.stored (coverLoop T rt ss).1 = ∅ ∧ (coverLoop T rt ss).2 = (widen s ss, false)
  | [], ⟨_, ht, _⟩ => absurd ht List.not_mem_nil
  | t :: ss, hc => by
    rw [coverLoop, widen]
    by_cases ht : Clips s t
    · obtain ⟨rt', hg, hrt⟩ := groupAdd_clips H h ht
      rw [hg, if_pos ht]
      dsimp only
      rw [coverLoop_empty H hrt]
      exact ⟨hrt, rfl⟩
    · have ih := coverLoop_clips h ((List.exists_mem_cons_iff ..).1 hc |>.resolve_left ht)
      rw [if_neg ht]
      by_cases he : encloses s t = true
      · rw [(groupAdd_none H).2 ⟨s, h ▸ rfl, he⟩]
        dsimp only
        rw [ih.2]
        exact ⟨ih.1, rfl⟩
      · rw [groupAdd_apart H h ht he]
        dsimp only
        rw [ih.2]
        exact ⟨ih.1, rfl⟩

theorem coverLoop_apart (h : H.stored rt = {s}) : ∀ {ss : List Span}, (¬ ∃ t ∈ ss, Clips s t) →
    ¬ EnclosesAll s ss → coverLoop T rt ss = (rt, ss, false)
  | [], _, hn => absurd (fun _ ht => absurd ht List.not_mem_nil) hn
  | t :: ss, hc, hn => by
    rw [List.exists_mem_cons_iff, not_or] at hc
    rw [coverLoop]
    by_cases he : encloses s t = true
    · have hn' : ¬ EnclosesAll s ss := fun hs => hn (List.forall_mem_cons.2 ⟨he, hs⟩)
      rw [(groupAdd_none H).2 ⟨s, h ▸ rfl, he⟩]
      dsimp only
      rw [coverLoop_apart h hc.2 hn']
    · rw [groupAdd_apart H h hc.1 he]
      dsimp only
      by_cases hs : EnclosesAll s ss
      · rw [coverLoop_enclosesAll H h hs]
      · rw [coverLoop_apart h hc.2 hs]

/-- An empty tree does not cover a read. -/
theorem readDependency_empty {c : Command} (h : H.stored rt = ∅) : readDependency T rt c = true := by
  unfold readDependency
  rw [Bool.not_eq_true', List.any_eq_false]
  intro s _ ho
  obtain ⟨d, hd, -⟩ := (H.overlaps_iff rt s).1 ho
  exact (h ▸ hd : d ∈ (∅ : Set Span))

/-- What the loop does with a span it puts to an empty tree, and what is left of the loop. -/
theorem put_cases (h : H.stored rt = ∅) (he : emptyRange s = false) (cspan spans : List Span) :
    (EnclosesAll s spans
        ∧ spanLoop T rt (s :: cspan) spans = (T.insert rt s, spans, true, true)
        ∧ spanTrace T rt (s :: cspan) spans = [.use rt, .put s (T.insert rt s) spans])
      ∨ ∃ rt' spans', ((∃ t ∈ spans, Clips s t) ∧ H.stored rt' = ∅ ∧ spans' = widen s spans
            ∨ (¬ ∃ t ∈ spans, Clips s t) ∧ ¬ EnclosesAll s spans ∧ H.stored rt' ≠ ∅ ∧ spans' = spans)
        ∧ spanLoop T rt (s :: cspan) spans = ((spanLoop T rt' cspan spans').1,
            (spanLoop T rt' cspan spans').2.1, true, (spanLoop T rt' cspan spans').2.2.2)
        ∧ spanTrace T rt (s :: cspan) spans
          = .use rt :: .put s (T.insert rt s) spans :: spanTrace T rt' cspan spans' := by
  have hs := H.stored_insert h s
  have he' := Bool.eq_false_iff.1 he
  rw [spanLoop, spanTrace, if_neg he', if_neg he', groupAdd_empty H h]
  dsimp only
  by_cases hcl : ∃ t ∈ spans, Clips s t
  · obtain ⟨hst, hr⟩ := coverLoop_clips H hs hcl
    refine .inr ⟨_, widen s spans, .inl ⟨hcl, hst, rfl⟩, ?_⟩
    rw [H.leave_empty hst, congrArg Prod.fst hr, congrArg Prod.snd hr]
    exact ⟨rfl, rfl⟩
  by_cases hc : EnclosesAll s spans
  · rw [coverLoop_enclosesAll H hs hc]
    exact .inl ⟨hc, rfl, rfl⟩
  · rw [coverLoop_apart H hs hcl hc]
    refine .inr ⟨_, spans, .inr ⟨hcl, hc, fun hl => ?_, rfl⟩, rfl, rfl⟩
    exact Set.singleton_ne_empty s (hs.symm.trans (H.leave_held hl))

theorem nonempty_cons (h : ¬ emptyRange s = true) :
    nonempty (s :: cspan) = s :: nonempty cspan := by
  unfold nonempty
  rw [List.takeWhile_cons_of_pos (by simpa using h)]

theorem nonempty_empty (h : emptyRange s = true) : nonempty (s :: cspan) = [] := by
  unfold nonempty
  rw [List.takeWhile_cons_of_neg (by simpa using h)]

/-- With no span to put, the loop does nothing. -/
theorem spanLoop_unused (h : nonempty cspan = []) :
    spanLoop T rt cspan spans = (rt, spans, false, false) ∧ spanTrace T rt cspan spans = [] := by
  cases cspan with
  | nil => exact ⟨rfl, rfl⟩
  | cons s cspan =>
    by_cases he : emptyRange s = true
    · rw [spanLoop, spanTrace, if_pos he, if_pos he]
      exact ⟨rfl, rfl⟩
    · rw [nonempty_cons he] at h
      cases h

/-- With one, it goes to the tree first. -/
theorem spanTrace_used (h : nonempty cspan ≠ []) :
    ∃ tr, spanTrace T rt cspan spans = .use rt :: tr := by
  cases cspan with
  | nil => exact absurd rfl h
  | cons s cspan =>
    by_cases he : emptyRange s = true
    · exact absurd (nonempty_empty he) h
    · rw [spanTrace, if_neg he]
      exact ⟨_, rfl⟩

/-- The tree of a scan that stands so. -/
def Stands (rt : T.Tree) : Stand → Prop
  | .free => H.stored rt = ∅
  | .held => H.stored rt ≠ ∅
  | .ended => False

/-- The answer tells whether the scan comes to no tree with a span of a block it has left, and if so
how it ends. -/
def Foretells {α : Type} (trace : List (Point T)) (ends : α → Prop) : Option α → Prop
  | none => ¬ Scoped H trace
  | some a => Scoped H trace ∧ ends a

/-- How a loop over the interfering spans leaves the command's spans and the tree. -/
def EndsAs (l : T.Tree × List Span × Bool × Bool) (q : Stand × List Span) : Prop :=
  l.2.1 = q.2 ∧ (l.2.2.2 = true ∧ q.1 = .ended ∨ l.2.2.2 = false ∧ Stands H l.1 q.1)

variable {H} {α : Type} {ends ends' : α → Prop} {o : Option α} {st : Stand}

theorem Foretells.imp (h : Foretells H trace ends o) (hs : Scoped H trace' ↔ Scoped H trace)
    (he : ∀ a, ends a → ends' a) : Foretells H trace' ends' o := by
  cases o with
  | none => exact fun ht => h (hs.1 ht)
  | some a => exact ⟨hs.2 h.1, he a h.2⟩

theorem Foretells.isSome_iff (h : Foretells H trace ends o) : o.isSome = true ↔ Scoped H trace := by
  cases o with
  | none => exact iff_of_false Bool.false_ne_true h
  | some a => exact iff_of_true rfl h.1

theorem Foretells.bind {β : Type} {ends' : β → Prop} {f : α → Option β}
    (h : Foretells H trace ends o) (hf : ∀ a, ends a → Foretells H trace' ends' (f a)) :
    Foretells H (trace ++ trace') ends' (o.bind f) := by
  cases o with
  | none => exact fun hs => h ((scoped_append H).1 hs).1
  | some a =>
    exact (hf a h.2).imp ((scoped_append H).trans (and_iff_right h.1)) fun _ hb => hb

theorem foretold_unused (h : Stands H rt st) :
    Foretells H [] (EndsAs H (rt, spans, false, false)) (afterUses st [] spans) := by
  rw [afterUses]
  exact ⟨scoped_nil H, rfl, .inr ⟨rfl, h⟩⟩

/-- `afterUses` tells how the loop over the interfering spans ends. -/
theorem spanLoop_foretold : ∀ {cspan spans : List Span} {rt : T.Tree} {st : Stand},
    Stands H rt st → Foretells H (spanTrace T rt cspan spans)
      (EndsAs H (spanLoop T rt cspan spans)) (afterUses st ((nonempty cspan).map some) spans)
  | [], _, _, _, h => foretold_unused h
  | s :: cspan, spans, rt, st, h => by
    by_cases he : emptyRange s = true
    · obtain ⟨hl, ht⟩ := @spanLoop_unused T rt (s :: cspan) spans (nonempty_empty he)
      rw [nonempty_empty he, hl, ht]
      exact foretold_unused h
    rw [nonempty_cons he, List.map_cons]
    cases st with
    | ended => exact h.elim
    | held =>
      obtain ⟨tr, htr⟩ := @spanTrace_used T rt (s :: cspan) spans
        (nonempty_cons he ▸ List.cons_ne_nil _ _)
      rw [afterUses, htr]
      exact fun hs => h ((scoped_use H).1 hs).1
    | free =>
      have hsc : ∀ {tr : List (Point T)},
          Scoped H (.use rt :: .put s (T.insert rt s) spans :: tr) ↔ Scoped H tr := by
        intro tr
        rw [scoped_use, scoped_put]
        exact and_iff_right h
      rw [afterUses]
      rcases put_cases H h (Bool.eq_false_iff.2 he) cspan spans with
        ⟨hc, hl, ht⟩ | ⟨rt', spans', hstep, hl, ht⟩
      · rw [if_pos hc, hl, ht]
        exact ⟨hsc.2 (scoped_nil H), rfl, .inl ⟨rfl, rfl⟩⟩
      rw [hl, ht]
      rcases hstep with ⟨hcl, hrt', rfl⟩ | ⟨hcl, hnc, hrt', rfl⟩
      · rw [if_neg (not_enclosesAll hcl), if_pos hcl]
        exact (spanLoop_foretold (show Stands H rt' .free from hrt')).imp hsc fun _ hq => hq
      · rw [if_neg hnc, if_neg hcl]
        exact (spanLoop_foretold (show Stands H rt' .held from hrt')).imp hsc fun _ hq => hq

end Trees

section Uses

variable {c : Command} {ti : Instance} {tc : Command} {cmd : Option Command}

theorem uses_quiet (h : interferes cmd (some c) = some []) : uses c cmd = [] := by
  rcases cmd with _ | tc
  · rfl
  unfold interferes at h
  unfold uses
  dsimp only at h ⊢
  by_cases hw : tc.writing = .write
  · rw [if_pos (.inl hw)] at h
    unfold fillSparse at h
    split_ifs at h
    rw [if_pos hw, Option.some.inj h, List.take_nil]
    rfl
  · rw [if_neg hw]
    refine if_neg fun hc => ?_
    rw [if_pos (.inr hc.1)] at h
    unfold fillSparse at h
    split_ifs at h
    exact hc.2 (Option.some.inj h)

theorem uses_write (h : tc.writing = .write) : uses c (some tc)
    = (nonempty ((overlapSparse tc.spans c.spans).take tc.spans.length)).map some := if_pos h

theorem uses_read (h : tc.writing = .read) (hw : c.writing = .write)
    (ho : overlapSparse tc.spans c.spans ≠ []) : uses c (some tc) = [none] := by
  unfold uses
  dsimp only
  rw [if_neg (by rw [h]; rintro ⟨⟩), if_pos ⟨hw, ho⟩]

end Uses

/-- A list of spans meets the law. -/
def listTree_law : TreeLaw listTree where
  stored t := {s | s ∈ (show List Span from t)}
  stored_init := Set.eq_empty_of_forall_notMem fun _ h => absurd h List.not_mem_nil
  stored_insert {rt} h s := by
    have hnil : (show List Span from rt) = [] :=
      List.eq_nil_iff_forall_not_mem.2 fun c hc => (h ▸ hc : c ∈ (∅ : Set Span))
    ext c
    show c ∈ s :: (show List Span from rt) ↔ c = s
    rw [hnil]
    exact List.mem_singleton
  stored_delete _ s c hc := by
    have := List.mem_filter.1 hc
    refine ⟨this.1, fun hcs => ?_⟩
    exact absurd (congrArg Span.startKey hcs) (of_decide_eq_true this.2)
  overlaps_iff _ _ := List.any_eq_true
  group_none _ _ := listGroup_none
  group_some h c := by
    rw [listGroup_some h]
    exact List.mem_filter
  leave_empty _ := rfl
  leave_held h := h

end Epx
