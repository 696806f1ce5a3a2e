import Epx.Lib.Search

/-!
# Tarjan's algorithm

The algorithm on the graph of a successor function, by recursion on fuel. `visit_spec` says what a
visit does, `strongConnect_spec` what the whole search does.
-/

namespace Tarjan

variable {α : Type*} [DecidableEq α]

namespace Search

variable (s : Search α) (n : α)

/-- `n` gets the next number and goes on the stack. -/
def enter : Search α where
  index := Function.update s.index n (some s.next)
  lowLink := Function.update s.lowLink n s.next
  onStack := Function.update s.onStack n true
  stack := n :: s.stack
  sccs := s.sccs
  next := s.next + 1

/-- The low link of `n` becomes `i` where that is smaller. -/
def lower (i : ℕ) : Search α :=
  { s with lowLink := Function.update s.lowLink n (min (s.lowLink n) i) }

/-- The stack down to `n`, and what is below. -/
def popTo : List α → List α × List α
  | [] => ([], [])
  | x :: xs => if x = n then ([x], xs) else (x :: (popTo xs).1, (popTo xs).2)

/-- The component of `n` leaves the stack. -/
def close : Search α :=
  { s with
    onStack := fun v => if v ∈ (popTo n s.stack).1 then false else s.onStack v
    stack := (popTo n s.stack).2
    sccs := s.sccs ++ [(popTo n s.stack).1] }

end Search

/-- The loop over the successors of `n`. -/
def visitDeps (visit : α → Search α → Option (Search α)) (n : α) :
    List α → Search α → Option (Search α)
  | [], s => some s
  | tn :: rest, s =>
    match s.index tn with
    | none => (visit tn s).bind fun s => visitDeps visit n rest (s.lower n (s.lowLink tn))
    | some i =>
      if s.onStack tn then visitDeps visit n rest (s.lower n i) else visitDeps visit n rest s

/-- Visit `n`; `none` when the fuel runs out. -/
def visit (succ : α → List α) : ℕ → α → Search α → Option (Search α)
  | 0, _, _ => none
  | fuel + 1, n, s =>
    (visitDeps (visit succ fuel) n (succ n) (s.enter n)).map fun s =>
      if s.lowLink n = s.num n then s.close n else s

/-- Visit the vertices of a list that are not visited yet. -/
def visitAll (succ : α → List α) (fuel : ℕ) : List α → Search α → Option (Search α)
  | [], s => some s
  | v :: vs, s =>
    match s.index v with
    | none => (visit succ fuel v s).bind (visitAll succ fuel vs)
    | some _ => visitAll succ fuel vs s

/-- The search of all vertices. -/
def strongConnect (succ : α → List α) (vs : List α) : Option (Search α) :=
  visitAll succ vs.length vs .init

section Search

variable {succ : α → List α} {vs gs : List α} {n : α} {s s₀ s₁ s₂ : Search α}

theorem popTo_append {new : List α} (rest : List α) (h : n ∉ new) :
    Search.popTo n (new ++ n :: rest) = (new ++ [n], rest) := by
  induction new with
  | nil => simp [Search.popTo]
  | cons x new ih =>
    simp only [List.mem_cons, not_or] at h
    simp [Search.popTo, Ne.symm h.1, ih h.2]

/-- A change of the low link of a vertex visited since. -/
theorem Extends.lower (h : Extends s₀ s₁) (hn : s₀.index n = none) (i : ℕ) :
    Extends s₀ (s₁.lower n i) where
  index := h.index
  fresh := h.fresh
  lowLink v hv := by
    have hne : v ≠ n := by
      rintro rfl
      rw [hn] at hv
      cases hv
    show Function.update s₁.lowLink n _ v = s₀.lowLink v
    rw [Function.update_of_ne hne]
    exact h.lowLink v hv
  stack := h.stack
  next := h.next

@[simp] theorem enter_self (s : Search α) (n : α) : (s.enter n).index n = some s.next :=
  Function.update_self ..

theorem enter_of_ne {v : α} (h : v ≠ n) : (s.enter n).index v = s.index v :=
  Function.update_of_ne h ..

theorem Extends.enter (hn : s.index n = none) : Extends s (s.enter n) where
  index v i h := by
    have hne : v ≠ n := by
      rintro rfl
      rw [hn] at h
      cases h
    rwa [enter_of_ne hne]
  fresh v i h h' := by
    by_cases hv : v = n
    · rw [hv, enter_self] at h'
      cases h'
      exact le_rfl
    · rw [enter_of_ne hv, h] at h'
      cases h'
  lowLink v h := by
    have hne : v ≠ n := by
      rintro rfl
      rw [hn] at h
      cases h
    exact Function.update_of_ne hne _ _
  stack := ⟨[n], rfl, by simpa using hn⟩
  next := Nat.le_succ _

theorem Inv.lower (h : Inv succ vs gs s) (n : α) (i : ℕ) : Inv succ vs gs (s.lower n i) where
  bound := h.bound
  order := h.order
  onStack := h.onStack
  visited := h.visited
  apart := h.apart
  known := h.known
  gray := h.gray
  down := h.down
  up := h.up
  black := h.black
  popped := h.popped
  found := h.found

/-- Pushing a vertex that all vertices being visited reach. -/
theorem Inv.enter (h : Inv succ vs gs s) (hn : s.index n = none) (hv : n ∈ vs)
    (hr : ∀ g ∈ gs, Reach succ g n) : Inv succ vs (n :: gs) (s.enter n) := by
  have hnot : ∀ v ∈ s.stack, v ≠ n := by
    rintro v hvs rfl
    have := h.isSome_of_mem hvs
    rw [hn] at this
    cases this
  have hnum : ∀ v ∈ s.stack, (s.enter n).num v = s.num v := fun v hv => by
    rw [Search.num, enter_of_ne (hnot v hv), Search.num]
  have hnumn : (s.enter n).num n = s.next := num_of_index (enter_self s n)
  have reach : ∀ y ∈ s.stack, Reach succ y n := fun y hy => by
    obtain ⟨g, hg, -, hyg⟩ := h.up y hy
    exact hyg.trans (hr g hg)
  exact
    { bound := fun v i hi => by
        by_cases hvn : v = n
        · rw [hvn, enter_self] at hi
          cases hi
          exact Nat.lt_succ_self _
        · rw [enter_of_ne hvn] at hi
          exact (h.bound v i hi).trans (Nat.lt_succ_self _)
      order := by
        refine List.pairwise_cons.2 ⟨fun v hv => ?_, h.order.imp_of_mem fun ha hb hlt => ?_⟩
        · rw [hnum v hv, hnumn]
          exact h.num_lt hv
        · rwa [hnum _ ha, hnum _ hb]
      onStack := fun v => by
        by_cases hvn : v = n
        · subst hvn
          simp [Search.enter]
        · simp [Search.enter, hvn, h.onStack v]
      visited := fun v => by
        by_cases hvn : v = n
        · subst hvn
          simp [Search.enter]
        · rw [enter_of_ne hvn, h.visited v]
          simp [Search.enter, hvn]
      apart := fun v hv hf => by
        rcases List.mem_cons.1 hv with rfl | hv
        · have := (h.visited v).2 (.inr hf)
          rw [hn] at this
          cases this
        · exact h.apart v hv hf
      known := fun v hs => by
        by_cases hvn : v = n
        · rwa [hvn]
        · rw [enter_of_ne hvn] at hs
          exact h.known v hs
      gray := fun g hg => by
        rcases List.mem_cons.1 hg with rfl | hg
        · exact List.mem_cons_self
        · exact List.mem_cons_of_mem _ (h.gray g hg)
      down := fun x hx y hy hle => by
        rcases List.mem_cons.1 hy with hyn | hy'
        · rw [hyn]
          rcases List.mem_cons.1 hx with hxn | hx'
          · rw [hxn]
            exact .refl
          · exact reach x hx'
        rcases List.mem_cons.1 hx with hxn | hx'
        · rw [hxn, hnumn, hnum y hy'] at hle
          exact absurd (h.num_lt hy') (not_lt.2 hle)
        · rw [hnum x hx', hnum y hy'] at hle
          exact h.down x hx' y hy' hle
      up := fun y hy => by
        rcases List.mem_cons.1 hy with rfl | hy
        · exact ⟨y, List.mem_cons_self, le_rfl, .refl⟩
        · obtain ⟨g, hg, hle, hyg⟩ := h.up y hy
          refine ⟨g, List.mem_cons_of_mem _ hg, ?_, hyg⟩
          rwa [hnum y hy, hnum g (h.gray g hg)]
      black := fun v hv hng w hw => by
        simp only [List.mem_cons, not_or] at hng
        rcases List.mem_cons.1 hv with rfl | hv
        · exact absurd rfl hng.1
        · obtain ⟨i, hi⟩ := Option.isSome_iff_exists.1 (h.black v hv hng.2 w hw)
          rw [(Extends.enter hn).index w i hi]
          rfl
      popped := fun c hc => (h.popped c hc).imp_of_mem fun ha hb hlt => by
        have hseen : ∀ v ∈ c, (s.index v).isSome := fun v hv =>
          (h.visited v).2 (.inr (List.mem_flatten.2 ⟨c, hc, hv⟩))
        rwa [(Extends.enter hn).num (hseen _ ha), (Extends.enter hn).num (hseen _ hb)]
      found := h.found }

@[simp] theorem lower_self (s : Search α) (n : α) (i : ℕ) :
    (s.lower n i).lowLink n = min (s.lowLink n) i := Function.update_self ..

namespace Scanning

variable {pre : List α} {tn : α} {i : ℕ}

theorem start (h₀ : Inv succ vs gs s₀) (hn : s₀.index n = none) (hv : n ∈ vs)
    (hr : ∀ g ∈ gs, Reach succ g n) : Scanning succ vs gs n s₀ [] (s₀.enter n) where
  inv := h₀.enter hn hv hr
  ext := .enter hn
  stack := ⟨[], rfl⟩
  self := enter_self s₀ n
  seen := by simp
  le := (Function.update_self ..).le
  low := .inl (Function.update_self ..)
  cross x hx hxn hne := by
    rcases List.mem_cons.1 hx with rfl | hx
    · exact absurd rfl hne
    · have := h₀.isSome_of_mem hx
      rw [hxn] at this
      cases this
  direct := by simp

/-- A successor on the stack. -/
theorem back (h : Scanning succ vs gs n s₀ pre s) (h₀ : Inv succ vs gs s₀)
    (hn : s₀.index n = none) (he : tn ∈ succ n) (hi : s.index tn = some i)
    (ht : tn ∈ s.stack) : Scanning succ vs gs n s₀ (pre ++ [tn]) (s.lower n i) where
  inv := h.inv.lower n i
  ext := h.ext.lower hn i
  stack := h.stack
  self := h.self
  seen w hw := by
    rcases List.mem_append.1 hw with hw | hw
    · exact h.seen w hw
    · rw [List.mem_singleton.1 hw]
      exact Option.isSome_of_mem hi
  le := by
    rw [lower_self]
    exact (min_le_left _ _).trans h.le
  low := by
    rw [lower_self]
    rcases le_total (s.lowLink n) i with hle | hle
    · rw [min_eq_left hle]
      exact h.low
    · rw [min_eq_right hle]
      rcases h.below_or ht with hb | hb
      · refine .inr ⟨tn, hb, ?_, .single he⟩
        rw [← (h.num_eq h₀ hb).1, num_of_index hi]
      · rw [num_of_index hi] at hb
        exact .inl (le_antisymm (hle.trans h.le) hb)
  cross x hx hxn hne w hw hws := by
    rw [lower_self]
    exact (min_le_left _ _).trans (h.cross x hx hxn hne w hw hws)
  direct w hw hws := by
    rw [lower_self]
    rcases List.mem_append.1 hw with hw | hw
    · exact (min_le_left _ _).trans (h.direct w hw hws)
    · rw [List.mem_singleton.1 hw] at hws ⊢
      rw [← (h.num_eq h₀ hws).1, num_of_index hi]
      exact min_le_right _ _

/-- A successor that has just been visited. -/
theorem child (h : Scanning succ vs gs n s₀ pre s) (h₀ : Inv succ vs gs s₀)
    (hn : s₀.index n = none) (he : tn ∈ succ n) (ht : s.index tn = none)
    (hc : Visited succ vs (n :: gs) tn s s₁) :
    Scanning succ vs gs n s₀ (pre ++ [tn]) (s₁.lower n (s₁.lowLink tn)) := by
  have hself : (s.index n).isSome := Option.isSome_of_mem h.self
  have hlow : s₁.lowLink n = s.lowLink n := hc.ext.lowLink n hself
  -- the stack of the child's search, above that of this one
  obtain ⟨newer, hsn, hnewer⟩ := hc.ext.stack
  obtain ⟨new, hs⟩ := h.stack
  have old : ∀ {v}, s.index v = none → s₀.index v = none := fun {v} hv => by
    cases hi : s₀.index v with
    | none => rfl
    | some i =>
      rw [h.ext.index v i hi] at hv
      cases hv
  exact
    { inv := hc.inv.lower n _
      ext := (h.ext.trans hc.ext).lower hn _
      stack := ⟨newer ++ new, by
        show s₁.stack = _
        rw [hsn, hs, List.append_assoc]⟩
      self := hc.ext.index n _ h.self
      seen := fun w hw => by
        rcases List.mem_append.1 hw with hw | hw
        · obtain ⟨i, hi⟩ := Option.isSome_iff_exists.1 (h.seen w hw)
          exact Option.isSome_of_mem (hc.ext.index w i hi)
        · rw [List.mem_singleton.1 hw]
          exact hc.seen
      le := by
        rw [lower_self, hlow]
        exact (min_le_left _ _).trans h.le
      low := by
        rw [lower_self, hlow]
        rcases le_total (s.lowLink n) (s₁.lowLink tn) with hle | hle
        · rw [min_eq_left hle]
          exact h.low
        rw [min_eq_right hle]
        -- a low link below that of `n` is the number of a vertex below `n`
        have hge : s₀.next ≤ s₁.lowLink tn → s₁.lowLink tn = s₀.next := fun hg =>
          le_antisymm (hle.trans h.le) hg
        rcases hc.low with hl | ⟨y, hy, hyn, hr⟩
        · refine .inl (hge ?_)
          obtain ⟨i, hi⟩ := Option.isSome_iff_exists.1 hc.seen
          rw [← hl, num_of_index hi]
          exact h.ext.next.trans (hc.ext.fresh tn i ht hi)
        · rcases h.below_or hy with hb | hb
          · exact .inr ⟨y, hb, by rw [← (h.num_eq h₀ hb).1, hyn], .head he hr⟩
          · exact .inl (hge (hyn ▸ hb))
      cross := fun x hx hxn hne w hw hws => by
        rw [lower_self, hlow]
        have hws' := h.mem_stack hws
        have hx : x ∈ newer ++ s.stack := hsn ▸ hx
        rcases List.mem_append.1 hx with hx' | hx'
        · have := hc.cross x (hsn ▸ hx) (hnewer x hx') w hw hws'
          rw [(h.num_eq h₀ hws).1] at this
          exact (min_le_right _ _).trans this
        · exact (min_le_left _ _).trans (h.cross x hx' hxn hne w hw hws)
      direct := fun w hw hws => by
        rw [lower_self, hlow]
        rcases List.mem_append.1 hw with hw | hw
        · exact (min_le_left _ _).trans (h.direct w hw hws)
        · rw [List.mem_singleton.1 hw] at hws
          have := h.inv.isSome_of_mem (h.mem_stack hws)
          rw [ht] at this
          cases this }

/-- The visit ends with the component of `n`. -/
theorem close (h : Scanning succ vs gs n s₀ (succ n) s) (h₀ : Inv succ vs gs s₀)
    (hn : s₀.index n = none) (heq : s.lowLink n = s.num n) :
    Visited succ vs gs n s₀ (s.close n) := by
  obtain ⟨new, hs⟩ := h.stack
  have hnd := h.inv.nodup
  rw [hs] at hnd
  obtain ⟨hnnew, hnold, hdis⟩ : n ∉ new ∧ n ∉ s₀.stack ∧ ∀ v ∈ new, v ∉ s₀.stack := by
    have := List.nodup_append.1 hnd
    refine ⟨fun hv => this.2.2 n hv n (by simp) rfl, (List.nodup_cons.1 this.2.1).1,
      fun v hv hv' => this.2.2 v hv v (by simp [hv']) rfl⟩
  have hpop : Search.popTo n s.stack = (new ++ [n], s₀.stack) := by rw [hs, popTo_append _ hnnew]
  have hmem : ∀ {v}, v ∈ s.stack ↔ v ∈ new ++ [n] ∨ v ∈ s₀.stack := fun {v} => by simp [hs, or_assoc]
  have hold : ∀ {v}, v ∈ new ++ [n] → v ∉ s₀.stack := fun {v} hv => by
    rcases List.mem_append.1 hv with hv | hv
    · exact hdis v hv
    · rwa [List.mem_singleton.1 hv]
  have happ : ∀ {v}, v ∈ new ++ [n] → v ∉ s.sccs.flatten := fun {v} hv =>
    h.inv.apart v (hmem.2 (.inl hv))
  -- no edge leaves the component but to those found before
  have closed : ∀ x ∈ new ++ [n], ∀ w ∈ succ x, w ∈ new ++ [n] ∨ w ∈ s.sccs.flatten := by
    intro x hx w hw
    have hlink : w ∈ s₀.stack → s.lowLink n ≤ s₀.num w := fun hws => by
      rcases List.mem_append.1 hx with hx' | hx'
      · exact h.cross x (hmem.2 (.inl hx)) (h.new_index hs x hx')
          (fun he => hnnew (he ▸ hx')) w hw hws
      · rw [List.mem_singleton.1 hx'] at hw
        exact h.direct w hw hws
    have hseen : (s.index w).isSome := by
      rcases List.mem_append.1 hx with hx' | hx'
      · refine h.inv.black x (hmem.2 (.inl hx)) (fun hg => ?_) w hw
        rcases List.mem_cons.1 hg with rfl | hg
        · exact hnnew hx'
        · exact hold hx (h₀.gray x hg)
      · rw [List.mem_singleton.1 hx'] at hw
        exact h.seen w hw
    rcases (h.inv.visited w).1 hseen with hws | hws
    · rcases hmem.1 hws with hws | hws
      · exact .inl hws
      · have h₁ := hlink hws
        have h₂ := h₀.num_lt hws
        rw [heq, h.num_self] at h₁
        omega
    · exact .inr hws
  have closed' : ∀ {x w}, x ∈ new ++ [n] → Reach succ x w → w ∈ new ++ [n] ∨ w ∈ s.sccs.flatten := by
    intro x w hx hr
    induction hr with
    | refl => exact .inl hx
    | tail _ hw ih =>
      rcases ih with ih | ih
      · exact closed _ ih _ hw
      · exact .inr (h.inv.found.closed ih hw)
  have hdown : ∀ {v}, v ∈ new ++ [n] → Reach succ n v := fun {v} hv => by
    refine h.inv.down n (h.inv.gray n List.mem_cons_self) v (hmem.2 (.inl hv)) ?_
    rcases List.mem_append.1 hv with hv | hv
    · exact ((h.inv.num_split hs).1 v hv).le
    · rw [List.mem_singleton.1 hv]
  have hup : ∀ {v}, v ∈ new ++ [n] → Reach succ v n := fun {v} hv => by
    obtain ⟨g, hg, -, hr⟩ := h.inv.up v (hmem.2 (.inl hv))
    rcases List.mem_cons.1 hg with rfl | hg
    · exact hr
    have hgs := h₀.gray g hg
    rcases closed' hv hr with hc | hc
    · exact absurd hgs (hold hc)
    · exact absurd hc (h.inv.apart g (hmem.2 (.inr hgs)))
  have hfound : Found succ (s.sccs ++ [new ++ [n]]) := by
    refine h.inv.found.append (by simp) ?_ (fun v hv => happ hv) (fun v hv w => ⟨fun hw => ?_, ?_⟩)
      closed
    · have := hnd.sublist (List.Sublist.append_left (l := new)
        (List.Sublist.cons_cons n (List.nil_sublist s₀.stack)))
      exact this
    · exact ⟨(hup hv).trans (hdown hw), (hup hw).trans (hdown hv)⟩
    · rintro ⟨hvw, hwv⟩
      exact (closed' hv hvw).resolve_right fun hw => happ hv (h.inv.found.reach hw hwv)
  have hstack : (s.close n).stack = s₀.stack := by rw [Search.close, hpop]
  have hsccs : (s.close n).sccs = s.sccs ++ [new ++ [n]] := by rw [Search.close, hpop]
  have hnum : ∀ v ∈ s₀.stack, s.num v < s.num n := (h.inv.num_split hs).2
  refine
    { inv :=
        { bound := h.inv.bound
          order := by
            rw [hstack]
            have := h.inv.order
            rw [hs, List.pairwise_append, List.pairwise_cons] at this
            exact this.2.1.2
          onStack := fun v => ?_
          visited := fun v => ?_
          apart := fun v hv => ?_
          known := h.inv.known
          gray := fun g hg => hstack ▸ h₀.gray g hg
          down := fun x hx y hy => ?_
          up := fun y hy => ?_
          black := fun v hv hvg => ?_
          popped := fun c hc => by
            rw [hsccs, List.mem_append, List.mem_singleton] at hc
            rcases hc with hc | rfl
            · exact h.inv.popped c hc
            · refine h.inv.order.sublist (hs ▸ ?_)
              exact List.Sublist.append_left (List.Sublist.cons_cons n (List.nil_sublist _)) new
          found := hsccs ▸ hfound }
      ext := { h.ext with stack := ⟨[], hstack, by simp⟩ }
      self := h.self
      low := .inl heq.symm
      cross := fun x hx hxn => ?_ }
  · rw [hstack]
    show (if v ∈ (Search.popTo n s.stack).1 then false else s.onStack v) = true ↔ _
    rw [hpop]
    split_ifs with hv
    · simpa using hold hv
    · rw [h.inv.onStack v, hmem]
      simp only [hv, false_or]
  · rw [hstack, hsccs]
    show (s.index v).isSome ↔ _
    rw [h.inv.visited v, hmem]
    simp only [List.flatten_append, List.flatten_singleton, List.mem_append (s := s.sccs.flatten)]
    tauto
  · rw [hstack] at hv
    rw [hsccs]
    simp only [List.flatten_append, List.flatten_singleton, List.mem_append (s := s.sccs.flatten),
      not_or]
    exact ⟨h.inv.apart v (hmem.2 (.inr hv)), fun hc => hold hc hv⟩
  · rw [hstack] at hx hy
    exact h.inv.down x (h.mem_stack hx) y (h.mem_stack hy)
  · rw [hstack] at hy
    obtain ⟨g, hg, hle, hr⟩ := h.inv.up y (h.mem_stack hy)
    rcases List.mem_cons.1 hg with rfl | hg
    · exact absurd (hnum y hy) (not_lt.2 hle)
    · exact ⟨g, hg, hle, hr⟩
  · rw [hstack] at hv
    refine h.inv.black v (h.mem_stack hv) fun hg => ?_
    rcases List.mem_cons.1 hg with rfl | hg
    · exact hnold hv
    · exact hvg hg
  · rw [hstack] at hx
    have := h₀.isSome_of_mem hx
    rw [hxn] at this
    cases this

end Scanning

/-- How many vertices are not visited. -/
def unseen (vs : List α) (s : Search α) : ℕ := (vs.toFinset.filter fun v => s.index v = none).card

theorem Extends.unseen_le (h : Extends s s₁) : unseen vs s₁ ≤ unseen vs s := by
  refine Finset.card_le_card fun v hv => ?_
  simp only [Finset.mem_filter] at hv ⊢
  refine ⟨hv.1, ?_⟩
  cases hi : s.index v with
  | none => rfl
  | some i =>
    rw [h.index v i hi] at hv
    exact absurd hv.2 (by simp)

theorem unseen_enter (hn : s.index n = none) (hv : n ∈ vs) :
    unseen vs (s.enter n) < unseen vs s := by
  refine Finset.card_lt_card ((Finset.ssubset_iff_of_subset fun v hv => ?_).2 ⟨n, ?_, ?_⟩)
  · simp only [Finset.mem_filter] at hv ⊢
    by_cases hvn : v = n
    · rw [hvn, enter_self] at hv
      exact absurd hv.2 (by simp)
    · rwa [enter_of_ne hvn] at hv
  · simpa [hn] using hv
  · simp

theorem unseen_pos (hn : s.index n = none) (hv : n ∈ vs) : 0 < unseen vs s :=
  (Nat.zero_le _).trans_lt (unseen_enter hn hv)

/-- The loop over the successors, from what one visit does. -/
theorem visitDeps_spec (hs : ∀ v ∈ vs, ∀ w ∈ succ v, w ∈ vs)
    {visit : α → Search α → Option (Search α)} {fuel : ℕ}
    (ih : ∀ {gs tn s}, Inv succ vs gs s → s.index tn = none → tn ∈ vs →
      (∀ g ∈ gs, Reach succ g tn) → unseen vs s ≤ fuel →
      ∃ s', visit tn s = some s' ∧ Visited succ vs gs tn s s')
    (h₀ : Inv succ vs gs s₀) (hn : s₀.index n = none) (hv : n ∈ vs)
    (hr : ∀ g ∈ gs, Reach succ g n) :
    ∀ {rest pre : List α} {s : Search α}, succ n = pre ++ rest →
      Scanning succ vs gs n s₀ pre s → unseen vs s ≤ fuel →
      ∃ s', visitDeps visit n rest s = some s' ∧ Scanning succ vs gs n s₀ (succ n) s'
  | [], pre, s, he, h, _ => by
    rw [List.append_nil] at he
    exact ⟨s, rfl, he ▸ h⟩
  | tn :: rest, pre, s, he, h, hf => by
    have hmem : tn ∈ succ n := by simp [he]
    have he' : succ n = (pre ++ [tn]) ++ rest := by simp [he]
    simp only [visitDeps]
    cases hi : s.index tn with
    | none =>
      have hreach : ∀ g ∈ n :: gs, Reach succ g tn := fun g hg => by
        rcases List.mem_cons.1 hg with rfl | hg
        · exact .single hmem
        · exact (hr g hg).tail hmem
      obtain ⟨s₁, hs₁, hc⟩ := ih h.inv hi (hs n hv tn hmem) hreach hf
      simp only [hs₁, Option.bind_some]
      exact visitDeps_spec hs ih h₀ hn hv hr he' (h.child h₀ hn hmem hi hc)
        (hc.ext.unseen_le.trans hf)
    | some i =>
      simp only
      split_ifs with ho
      · have ht := (h.inv.onStack tn).1 ho
        exact visitDeps_spec hs ih h₀ hn hv hr he' (h.back h₀ hn hmem hi ht) hf
      · exact visitDeps_spec hs ih h₀ hn hv hr he'
          (h.skip hi fun ht => ho ((h.inv.onStack tn).2 ht)) hf

/-- A visit with as much fuel as there are vertices left ends, and does what `Visited` says. -/
theorem visit_spec (hs : ∀ v ∈ vs, ∀ w ∈ succ v, w ∈ vs) : ∀ {fuel : ℕ} {gs : List α} {n : α}
    {s : Search α}, Inv succ vs gs s → s.index n = none → n ∈ vs → (∀ g ∈ gs, Reach succ g n) →
      unseen vs s ≤ fuel → ∃ s', visit succ fuel n s = some s' ∧ Visited succ vs gs n s s'
  | 0, gs, n, s, h, hn, hv, hr, hf => absurd (unseen_pos hn hv) (by omega)
  | fuel + 1, gs, n, s, h, hn, hv, hr, hf => by
    have hf' : unseen vs (s.enter n) ≤ fuel := by
      have := unseen_enter hn hv
      omega
    obtain ⟨s₁, hs₁, hsc⟩ := visitDeps_spec hs (visit_spec hs) h hn hv hr (List.nil_append _).symm
      (.start h hn hv hr) hf'
    simp only [visit, hs₁, Option.map_some]
    split_ifs with hl
    · exact ⟨_, rfl, hsc.close h hn hl⟩
    · exact ⟨_, rfl, hsc.stay h hn hl⟩

theorem visitAll_spec (hs : ∀ v ∈ vs, ∀ w ∈ succ v, w ∈ vs) {fuel : ℕ} :
    ∀ {ws : List α} {s : Search α}, (∀ v ∈ ws, v ∈ vs) → Inv succ vs [] s → unseen vs s ≤ fuel →
      ∃ s', visitAll succ fuel ws s = some s' ∧ Inv succ vs [] s' ∧ Extends s s'
        ∧ ∀ v ∈ ws, (s'.index v).isSome
  | [], s, _, h, _ => ⟨s, rfl, h, .refl s, by simp⟩
  | v :: ws, s, hw, h, hf => by
    simp only [List.forall_mem_cons] at hw
    simp only [visitAll]
    cases hi : s.index v with
    | none =>
      obtain ⟨s₁, hs₁, hv⟩ := visit_spec hs h hi hw.1 (by simp) hf
      obtain ⟨s₂, hs₂, h₂, hx, hall⟩ := visitAll_spec hs hw.2 hv.inv (hv.ext.unseen_le.trans hf)
      simp only [hs₁, Option.bind_some]
      obtain ⟨i, hi⟩ := Option.isSome_iff_exists.1 hv.seen
      exact ⟨s₂, hs₂, h₂, hv.ext.trans hx,
        List.forall_mem_cons.2 ⟨Option.isSome_of_mem (hx.index v i hi), hall⟩⟩
    | some i =>
      obtain ⟨s₂, hs₂, h₂, hx, hall⟩ := visitAll_spec hs hw.2 h hf
      exact ⟨s₂, hs₂, h₂, hx, List.forall_mem_cons.2 ⟨Option.isSome_of_mem (hx.index v i hi), hall⟩⟩

/-- The search ends with an empty stack and every vertex in one of the components found. -/
theorem strongConnect_spec (hs : ∀ v ∈ vs, ∀ w ∈ succ v, w ∈ vs) :
    ∃ s, strongConnect succ vs = some s ∧ s.stack = [] ∧ Found succ s.sccs
      ∧ ∀ v, v ∈ s.sccs.flatten ↔ v ∈ vs := by
  have hf : unseen vs (.init : Search α) ≤ vs.length :=
    (Finset.card_le_card (Finset.filter_subset _ _)).trans (List.toFinset_card_le vs)
  obtain ⟨s, he, h, -, hall⟩ := visitAll_spec hs (fun v hv => hv) (.init succ vs) hf
  have hst : s.stack = [] := by
    refine List.eq_nil_iff_forall_not_mem.2 fun v hv => ?_
    obtain ⟨g, hg, -⟩ := h.up v hv
    simp at hg
  have hvis : ∀ v, (s.index v).isSome ↔ v ∈ s.sccs.flatten := fun v => by
    rw [h.visited v, hst]
    simp
  exact ⟨s, he, hst, h.found, fun v => ⟨fun hv => h.known v ((hvis v).2 hv),
    fun hv => (hvis v).1 (hall v hv)⟩⟩

/-- The first vertex of the list is the last one of its component. -/
theorem strongConnect_last {v : α} {ws : List α} {c : List α} (hvs : vs = v :: ws)
    (hs : ∀ v ∈ vs, ∀ w ∈ succ v, w ∈ vs) (h : strongConnect succ vs = some s) (hc : c ∈ s.sccs)
    (hv : v ∈ c) : ∃ xs, c = xs ++ [v] := by
  have hf : unseen vs (.init : Search α) ≤ vs.length :=
    (Finset.card_le_card (Finset.filter_subset _ _)).trans (List.toFinset_card_le vs)
  have hvv : v ∈ vs := by simp [hvs]
  obtain ⟨s₁, hs₁, hvis⟩ := visit_spec hs (.init succ vs) rfl hvv (by simp) hf
  have hws : ∀ w ∈ ws, w ∈ vs := fun w hw => by simp [hvs, hw]
  obtain ⟨s₂, hs₂, hinv, hx, -⟩ := visitAll_spec hs hws hvis.inv (hvis.ext.unseen_le.trans hf)
  have he : strongConnect succ vs = some s₂ := by
    have : visitAll succ vs.length (v :: ws) .init = some s₂ := by
      simp only [visitAll, Search.init]
      exact hs₁ ▸ hs₂
    rwa [← hvs] at this
  rw [h, Option.some.injEq] at he
  subst he
  -- it has the smallest number
  have hnum : s.num v = 0 := num_of_index (hx.index v 0 hvis.self)
  obtain ⟨xs, ys, rfl⟩ := List.append_of_mem hv
  have hp := (List.pairwise_append.1 (hinv.popped _ hc)).2.1
  cases ys with
  | nil => exact ⟨xs, rfl⟩
  | cons y ys =>
    have := (List.pairwise_cons.1 hp).1 y List.mem_cons_self
    omega

end Search

end Tarjan
