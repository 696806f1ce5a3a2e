import Epx.Instance

/-!
# The instance index and its scans

`index.c`. An index holds its instances with the largest instance id first, as `LLRB_MAX` and
`LLRB_PREV` walk them. The interval tree of `llrb-interval` that a scan fills with spans is a
parameter: `overlaps` is `LLRB_RANGE_OVERLAPS`, and `group` is the outcome of
`LLRB_RANGE_GROUP_ADD`, `none` where it returns 0 and otherwise the spans it calls `merge` with.
-/

namespace Epx

/-- `struct instance_index`. -/
structure InstanceIndex where
  entries : List Instance
  ordered : entries.Pairwise fun a b => b.key.instanceId < a.key.instanceId

namespace InstanceIndex

/-- `LLRB_INIT`. -/
def empty : InstanceIndex := ⟨[], .nil⟩

/-- `LLRB_FIND`, which compares instance ids. -/
def find (index : InstanceIndex) (n : ℕ) : Option Instance :=
  index.entries.find? fun i => i.key.instanceId = n

/-- `i` at its place, in the place of an entry with its instance id. -/
def setEntry (i : Instance) : List Instance → List Instance
  | [] => [i]
  | x :: xs =>
    if x.key.instanceId < i.key.instanceId then i :: x :: xs
    else if x.key.instanceId = i.key.instanceId then i :: xs
    else x :: setEntry i xs

theorem mem_setEntry {i x : Instance} : ∀ {xs : List Instance}, x ∈ setEntry i xs → x = i ∨ x ∈ xs
  | [], h => by simpa [setEntry] using h
  | y :: ys, h => by
    simp only [setEntry] at h
    split_ifs at h <;> simp only [List.mem_cons] at h ⊢
    · tauto
    · tauto
    · rcases h with h | h
      · tauto
      · rcases mem_setEntry h with h | h <;> tauto

theorem setEntry_ordered (i : Instance) : ∀ {xs : List Instance},
    xs.Pairwise (fun a b => b.key.instanceId < a.key.instanceId) →
      (setEntry i xs).Pairwise fun a b => b.key.instanceId < a.key.instanceId
  | [], _ => by simp [setEntry]
  | x :: xs, h => by
    obtain ⟨hx, hxs⟩ := List.pairwise_cons.1 h
    simp only [setEntry]
    split_ifs with h₁ h₂
    · refine List.pairwise_cons.2 ⟨fun b hb => ?_, h⟩
      rcases List.mem_cons.1 hb with rfl | hb
      · exact h₁
      · exact (hx b hb).trans h₁
    · exact List.pairwise_cons.2 ⟨fun b hb => h₂ ▸ hx b hb, hxs⟩
    · refine List.pairwise_cons.2 ⟨fun b hb => ?_, setEntry_ordered i hxs⟩
      rcases mem_setEntry hb with rfl | hb
      · omega
      · exact hx b hb

/-- The index with `i` registered, or its entry rewritten. -/
def set (index : InstanceIndex) (i : Instance) : InstanceIndex :=
  ⟨setEntry i index.entries, setEntry_ordered i index.ordered⟩

theorem find_setEntry (i : Instance) (n : ℕ) : ∀ xs : List Instance,
    (setEntry i xs).find? (fun x => x.key.instanceId = n)
      = if n = i.key.instanceId then some i else xs.find? fun x => x.key.instanceId = n
  | [] => by
    by_cases h : n = i.key.instanceId
    · simp [setEntry, h]
    · simp [setEntry, h, Ne.symm h]
  | x :: xs => by
    have ih := find_setEntry i n xs
    simp only [setEntry]
    by_cases h : n = i.key.instanceId
    · rw [if_pos h] at ih ⊢
      split_ifs with h₁ h₂
      · simp [h]
      · simp [h]
      · simpa [h, h₂] using ih
    · rw [if_neg h] at ih ⊢
      have h' := Ne.symm h
      split_ifs with h₁ h₂
      · simp [h']
      · simp [h', h₂]
      · simp only [List.find?_cons, ih]

theorem find_set (index : InstanceIndex) (i : Instance) (n : ℕ) :
    (index.set i).find n = if n = i.key.instanceId then some i else index.find n :=
  find_setEntry i n index.entries

/-- `clear_index`: of the leading run of `EXECUTED` entries, smallest first, all but the last go. -/
def dropExecuted : List Instance → List Instance
  | x :: y :: rest =>
    if x.status = .executed ∧ y.status = .executed then dropExecuted (y :: rest) else x :: y :: rest
  | xs => xs

theorem dropExecuted_sublist : ∀ xs : List Instance, (dropExecuted xs).Sublist xs
  | [] => by simp [dropExecuted]
  | [x] => by simp [dropExecuted]
  | x :: y :: rest => by
    simp only [dropExecuted]
    split_ifs
    · exact (dropExecuted_sublist (y :: rest)).trans (List.sublist_cons_self _ _)
    · exact List.Sublist.refl _

theorem mem_dropExecuted {i : Instance} (hi : i.status ≠ .executed) :
    ∀ {xs : List Instance}, i ∈ xs → i ∈ dropExecuted xs
  | [], h => by simp at h
  | [x], h => by simpa [dropExecuted] using h
  | x :: y :: rest, h => by
    simp only [dropExecuted]
    split_ifs with he
    · rcases List.mem_cons.1 h with rfl | h
      · exact absurd he.1 hi
      · exact mem_dropExecuted hi h
    · exact h

/-- An entry is found under its instance id, and under no other. -/
theorem find_eq_some_iff (index : InstanceIndex) (n : ℕ) (i : Instance) :
    index.find n = some i ↔ i ∈ index.entries ∧ i.key.instanceId = n := by
  obtain ⟨xs, hxs⟩ := index
  simp only [find]
  induction xs with
  | nil => simp
  | cons x xs ih =>
    obtain ⟨hx, hxs'⟩ := List.pairwise_cons.1 hxs
    by_cases h : x.key.instanceId = n
    · simp only [List.find?_cons, h, decide_true, Option.some.injEq, List.mem_cons]
      refine ⟨fun he => ⟨.inl he.symm, he ▸ h⟩, fun ⟨hi, hn⟩ => ?_⟩
      rcases hi with rfl | hi
      · rfl
      · have := hx i hi
        omega
    · simp only [List.find?_cons, h, decide_false, ih hxs', List.mem_cons]
      refine ⟨fun ⟨hi, hn⟩ => ⟨.inr hi, hn⟩, fun ⟨hi, hn⟩ => ⟨?_, hn⟩⟩
      rcases hi with rfl | hi
      · exact absurd hn h
      · exact hi

/-- `clear_index`. -/
def clear (index : InstanceIndex) : InstanceIndex where
  entries := (dropExecuted index.entries.reverse).reverse
  ordered := by
    have h := (dropExecuted_sublist index.entries.reverse).reverse
    rw [List.reverse_reverse] at h
    exact List.Pairwise.sublist h index.ordered

theorem find_clear {index : InstanceIndex} {n : ℕ} {i : Instance}
    (h : index.clear.find n = some i) : index.find n = some i := by
  rw [find_eq_some_iff] at h ⊢
  refine ⟨?_, h.2⟩
  have := (dropExecuted_sublist index.entries.reverse).subset (List.mem_reverse.1 h.1)
  exact List.mem_reverse.1 this

theorem find_clear_of_ne {index : InstanceIndex} {n : ℕ} {i : Instance} (hi : i.status ≠ .executed)
    (h : index.find n = some i) : index.clear.find n = some i := by
  rw [find_eq_some_iff] at h ⊢
  exact ⟨List.mem_reverse.2 (mem_dropExecuted hi (List.mem_reverse.2 h.1)), h.2⟩

end InstanceIndex

/-- The span tree of `llrb-interval`. The spans in it are variables of a block of the scans; what
becomes of the tree when that block is left, `leave`, is open where it holds one. -/
structure RangeTree where
  Tree : Type
  init : Tree
  insert : Tree → Span → Tree
  delete : Tree → Span → Tree
  overlaps : Tree → Span → Bool
  group : Tree → Span → Option (List Span)
  leave : Tree → Tree

/-- `struct seq_deps_probe`. -/
structure Probe where
  updated : ℕ
  deps : Deps

/-- `probe->updated += add_dep(probe->deps, ti)`. -/
def Probe.add (p : Probe) (ti : Instance) : Probe :=
  ⟨p.updated + (addDep p.deps ti).2, (addDep p.deps ti).1⟩

/-- What `pre_accept_conflict` reads of an instance. Its dependencies may be in any order. -/
structure Entry where
  key : InstanceId
  status : State
  command : Option Command
  seq : ℕ
  deps : List Dependency
  deriving DecidableEq

/-- The instance as the scan reads it. -/
def Instance.entry (i : Instance) : Entry := ⟨i.key, i.status, i.command, i.seq, i.deps.slots⟩

section Scan

variable (T : RangeTree)

/-- `merge`: the span takes in the stored spans it meets, which leave the tree. -/
def merge (rt : T.Tree) (toMerge : Span) (sll : List Span) : T.Tree × Span :=
  sll.foldl (fun p c =>
    if overlaps p.2 c then
      (T.delete p.1 c,
        { startKey := if strcmp p.2.startKey c.startKey = .gt then c.startKey else p.2.startKey
          endKey := if strcmp p.2.endKey c.endKey = .lt then c.endKey else p.2.endKey })
    else p) (rt, toMerge)

/-- `LLRB_RANGE_GROUP_ADD(span_tree, rt, span, ml, merge)`, `none` where it returns 0. -/
def groupAdd (rt : T.Tree) (s : Span) : Option (T.Tree × Span) :=
  (T.group rt s).map (merge T rt s)

/-- `read_dependency`. -/
def readDependency (rt : T.Tree) (cmd : Command) : Bool := !cmd.spans.any (T.overlaps rt)

/-- The loop over the command's own spans: the tree, the spans as `merge` leaves them, and
`covered`, that no call returned non-zero. -/
def coverLoop : T.Tree → List Span → T.Tree × List Span × Bool
  | rt, [] => (rt, [], true)
  | rt, s :: ss =>
    match groupAdd T rt s with
    | none => ((coverLoop rt ss).1, s :: (coverLoop rt ss).2.1, (coverLoop rt ss).2.2)
    | some (rt', s') => ((coverLoop rt' ss).1, s' :: (coverLoop rt' ss).2.1, false)

/-- The loop over the spans `interferes` wrote, up to the first empty one: the tree, the command's
spans, `add` and `covered`. The tree holds `nsp` by its address. -/
def spanLoop : T.Tree → List Span → List Span → T.Tree × List Span × Bool × Bool
  | rt, [], spans => (rt, spans, false, false)
  | rt, s :: cspan, spans =>
    if emptyRange s then (rt, spans, false, false)
    else
      match groupAdd T rt s with
      | none => spanLoop rt cspan spans
      | some (rt', nsp) =>
        let (rt, spans, covered) := coverLoop T (T.insert rt' nsp) spans
        if covered then (rt, spans, true, true)
        else
          -- `nsp` goes out of scope
          let (rt, spans, _, covered) := spanLoop (T.leave rt) cspan spans
          (rt, spans, true, covered)

/-- The walk of `seq_deps_for_command` over the entries left, largest id first. -/
def seqDepsLoop (ignore : Option InstanceId) :
    List Instance → T.Tree → ℕ → Option Command → Probe → Option (ℕ × Option Command × Probe)
  | [], _, mseq, cmd, p => some (mseq, cmd, p)
  | ti :: rest, rt, mseq, cmd, p =>
    if ignore = some ti.key then seqDepsLoop ignore rest rt mseq cmd p
    else if isState ti.status [.executed] then some (mseq, cmd, p)
    else
      match interferes ti.command cmd with
      | none => none
      | some [] => seqDepsLoop ignore rest rt mseq cmd p
      | some (s :: ss) =>
        match ti.command, cmd with
        | some tc, some c =>
          if tc.writing = .write then
            let (rt, spans, add, covered) := spanLoop T rt ((s :: ss).take tc.spans.length) c.spans
            let p := if add then p.add ti else p
            if covered then some (max mseq ti.seq, some { c with spans }, p)
            else seqDepsLoop ignore rest rt (max mseq ti.seq) (some { c with spans }) p
          else if readDependency T rt c then
            seqDepsLoop ignore rest rt (max mseq ti.seq) cmd (p.add ti)
          else seqDepsLoop ignore rest rt (max mseq ti.seq) cmd p
        | _, _ => none

/-- `seq_deps_for_command`: the largest seq met, the command as the scan leaves it, the probe. -/
def seqDepsForCommand (index : InstanceIndex) (cmd : Option Command) (ignore : Option InstanceId)
    (p : Probe) : Option (ℕ × Option Command × Probe) :=
  seqDepsLoop T ignore index.entries T.init 0 cmd p

/-- `is_dep_conflict`. -/
def isDepConflict (ti : Entry) (seq : ℕ) (deps : List Dependency) (replicaId : ℕ) : Bool :=
  let ltInstance := ltDepReplica ti.key.replicaId deps
  decide (ltInstance < ti.key.instanceId) ||
    (decide (ti.key.instanceId < ltInstance) && decide (seq ≤ ti.seq) &&
      (decide (ti.key.replicaId ≠ replicaId) || decide (State.preAcceptedEq.bits < ti.status.bits)))

/-- The walk of `pre_accept_conflict` over the entries left: the conflict and the command as the
scan leaves it. -/
def conflictLoop (i : Instance) (seq : ℕ) (deps : List Dependency) :
    List Entry → T.Tree → Option Command → Option (Option Entry × Option Command)
  | [], _, c => some (none, c)
  | ti :: rest, rt, c =>
    if isState ti.status [.executed] then some (none, c)
    else if hasKey ti.key deps then conflictLoop i seq deps rest rt c
    else if ti.command = none then conflictLoop i seq deps rest rt c
    else if i.key.instanceId ≤ ltDepReplica i.key.replicaId ti.deps then
      conflictLoop i seq deps rest rt c
    else
      match interferes ti.command c with
      | none => none
      | some [] => conflictLoop i seq deps rest rt c
      | some (s :: ss) =>
        match ti.command, c with
        | some tc, some cmd =>
          if tc.writing = .write then
            let (rt, spans, add, covered) := spanLoop T rt ((s :: ss).take tc.spans.length) cmd.spans
            if add && isDepConflict ti seq deps i.key.replicaId then
              some (some ti, some { cmd with spans })
            else if covered then some (none, some { cmd with spans })
            else conflictLoop i seq deps rest rt (some { cmd with spans })
          else if readDependency T rt cmd && isDepConflict ti seq deps i.key.replicaId then
            some (some ti, c)
          else conflictLoop i seq deps rest rt c
        | _, _ => none

/-- `pre_accept_conflict`, from the entry of the index that has `i`'s instance id. -/
def preAcceptConflict (index : List Entry) (i : Instance) (c : Option Command) (seq : ℕ)
    (deps : List Dependency) : Option (Option Entry × Option Command) :=
  conflictLoop T i seq deps
    (index.dropWhile fun x => x.key.instanceId ≠ i.key.instanceId) T.init c

end Scan

/-- `barrier_dep`: the entry before the largest, which has to be there. -/
def barrierDep (index : InstanceIndex) (deps : Deps) : Option Deps :=
  match index.entries with
  | _ :: dep :: _ => some (addDep deps dep).1
  | _ => none

/-- `noop_dep`: the entry before the one with the id. -/
def noopDep (index : InstanceIndex) (id : InstanceId) : Deps :=
  match (index.entries.dropWhile fun x => x.key.instanceId ≠ id.instanceId) with
  | _ :: dep :: _ => (addDep .zero dep).1
  | _ => .zero

end Epx
