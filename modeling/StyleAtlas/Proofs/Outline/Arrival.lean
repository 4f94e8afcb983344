import Mathlib.Data.Finset.Max
import StyleAtlas.Proofs.Outline.Backfill

/-!
# Roots that arrive out of order

Located roots may come in any order.  One that starts past the place where it would be closed stays
pending, and the ends of settled roots are cut back to the starts of later arrivals.  Both look at
some of the roots only: a pending root is closed without a look at the settled ones, and cutting
back goes no further than the first root that ends in time.  So a root can reach past the next
start.  This module says exactly in which orders no root does.

Main results:

- Theorem `Builder.Flat.stopOf_closeBefore`: what the arrival of a root does to the ends of the
  others.
- Definition `Builder.Arrived`, Theorem `Builder.Arrived.run`: what is known of all ends in a run.
- Definition `Roots.Orderly`: the orders of arrival in which all ends are right.
- Theorem `Outline.runsToNextStart_iff_orderly`: every root runs to the next start exactly in
  these orders.
-/

namespace StyleAtlas
namespace Builder

open Forest

/-! ## Roots only -/

/-- All nodes are roots, and no container is open. -/
structure Flat (b : Builder) : Prop where
  stack : b.stack = []
  depth : ∀ id, b.nodes.depthOf id = 0
  parent : ∀ id, b.nodes.parentOf id = none

/-- There are no nodes and no open containers at first. -/
theorem Flat.init (source : Source) : (Builder.init source).Flat :=
  ⟨rfl, fun _ => rfl, fun _ => rfl⟩

/-- Only the skeleton and the open containers bear on whether all nodes are roots. -/
theorem Flat.of_skeleton {b b' : Builder} (h : b.Flat) (hstack : b'.stack = b.stack)
    (hnodes : b'.nodes.skeleton = b.nodes.skeleton) : b'.Flat where
  stack := hstack.trans h.stack
  depth := by
    intro id
    rw [← depthOf_skeleton, hnodes, depthOf_skeleton, h.depth]
  parent := by
    intro id
    rw [← parentOf_skeleton, hnodes, parentOf_skeleton, h.parent]

section Flat

variable {b : Builder}

/-- The next node is a root. -/
theorem Flat.depth_eq (h : b.Flat) : b.depth = 0 := by
  simp [Builder.depth, h.stack]

/-- No container is open. -/
theorem Flat.current_eq (h : b.Flat) : b.current = none := by
  simp [current, h.stack]

/-- A root is its own ancestor at the outermost depth. -/
theorem Flat.ancestorAt (h : b.Flat) (id : Nat) : b.nodes.ancestorAt 0 id = some id := by
  simp [Forest.ancestorAt, h.depth id, climb]

/-- All pending nodes are roots. -/
theorem Flat.pendingAt (h : b.Flat) : b.pendingAt 0 = b.pending := by
  rw [Builder.pendingAt, List.filter_eq_self]
  intro id _
  simpa using h.depth id

/-- The roots are all nodes. -/
theorem Flat.under (h : b.Flat) : b.nodes.under none = List.range b.nodes.length := by
  have hall : ∀ n ∈ b.nodes.zipIdx, decide (n.1.parent = none) = true := by
    intro n hn
    have hparent := h.parent n.2
    rw [Forest.parentOf, List.mem_zipIdx_iff_getElem?.mp hn] at hparent
    simpa using hparent
  rw [Forest.under, List.filter_eq_self.mpr hall, List.zipIdx_map_snd, List.range_eq_range']

/-- The start of a located root is its place. -/
theorem Flat.startFor (h : b.Flat) (tag : Tag) (p : Position) :
    b.startFor (tag.payload p) = b.source.clamp p := by
  simp [Builder.startFor, Tag.payload, floor, h.current_eq]

/-- A root that comes closes all branches and cuts back all roots that reach past it. -/
theorem Flat.closeBefore (h : b.Flat) (tag : Tag) (p : Position) :
    b.closeBefore (tag.payload p) =
      (b.resolvePending 0 (b.source.clamp p)).trim none (b.source.clamp p) := by
  have hclose : b.closeBefore (tag.payload p) =
      (b.resolvePending b.depth (b.startFor (tag.payload p))).trim b.current
        (b.startFor (tag.payload p)) := rfl
  rw [hclose, h.startFor, h.depth_eq, h.current_eq]

/-- An arrival adds a root. -/
theorem Flat.visit (h : b.Flat) (kind : Kind) (payload : Payload) :
    (b.visit kind payload).Flat := by
  have hskeleton := skeleton_visit b kind payload
  rw [h.depth_eq, h.current_eq] at hskeleton
  constructor
  · rw [visit_stack, h.stack]
  · intro id
    rw [← depthOf_skeleton, hskeleton]
    rcases Nat.lt_trichotomy id b.nodes.skeleton.length with hlt | rfl | hgt
    · rw [depthOf_append hlt, depthOf_skeleton, h.depth]
    · exact depthOf_append_length _ _
    · rw [depthOf, List.getElem?_eq_none (by simp at hgt ⊢; omega)]
  · intro id
    rw [← parentOf_skeleton, hskeleton]
    rcases Nat.lt_trichotomy id b.nodes.skeleton.length with hlt | rfl | hgt
    · rw [parentOf_append hlt, parentOf_skeleton, h.parent]
    · exact parentOf_append_length _ _
    · rw [parentOf, List.getElem?_eq_none (by simp at hgt ⊢; omega)]
      rfl

/-- A pending root is closed unless it starts past the boundary. -/
theorem Flat.settledEnd (h : b.Flat) {id : Nat} (hid : id ∈ b.pending) (boundary : Nat) :
    b.settledEnd 0 boundary id =
      if boundary < b.nodes.startOf id then none else some (b.branchEnd 0 boundary id) := by
  simp [Builder.settledEnd, endFor, hid, h.ancestorAt, h.depth id, Text.closingEnd]

/-- A pending root is closed at the boundary or at the start of a pending root, whichever comes
first behind its start. -/
theorem Flat.branchEnd_cases (h : b.Flat) {id : Nat} (hid : id ∈ b.pending) (boundary : Nat) :
    (b.branchEnd 0 boundary id = boundary ∨
        ∃ m ∈ b.pending, b.nodes.startOf id < b.nodes.startOf m ∧
          b.branchEnd 0 boundary id = b.nodes.startOf m) ∧
      b.branchEnd 0 boundary id ≤ boundary ∧
      ∀ m ∈ b.pending, b.nodes.startOf id < b.nodes.startOf m →
        b.branchEnd 0 boundary id ≤ b.nodes.startOf m := by
  rw [branchEnd, h.pendingAt, if_pos hid]
  cases hmin : ((b.pending.map b.nodes.startOf).filter (b.nodes.startOf id < ·)).min? with
  | none =>
      refine ⟨Or.inl rfl, le_rfl, ?_⟩
      intro m hm hlt
      rw [List.min?_eq_none_iff, List.filter_eq_nil_iff] at hmin
      exact absurd (by simpa using hlt) (hmin _ (List.mem_map_of_mem hm))
  | some next =>
      rw [List.min?_eq_some_iff] at hmin
      obtain ⟨hmem, hleast⟩ := hmin
      rw [List.mem_filter, List.mem_map] at hmem
      obtain ⟨⟨m, hm, rfl⟩, hlt⟩ := hmem
      refine ⟨?_, Nat.min_le_right _ _, ?_⟩
      · rcases Nat.le_total (b.nodes.startOf m) boundary with hle | hle
        · exact Or.inr ⟨m, hm, by simpa using hlt, Nat.min_eq_left hle⟩
        · exact Or.inl (Nat.min_eq_right hle)
      · intro k hk hk'
        have hk'' := hleast _ (List.mem_filter.mpr ⟨List.mem_map_of_mem hk, by simpa using hk'⟩)
        exact (Nat.min_le_left _ _).trans hk''

end Flat

/-! ## The arrival of a root -/

/-- Whether cutting back to a place stops at a root: it is settled there already, or about to be. -/
def Blocks (b : Builder) (place id : Nat) : Prop :=
  match b.nodes.stopOf id with
  | some stop => stop ≤ place
  | none => b.nodes.startOf id < place

/-- What a descending walk reaches before it fails. -/
theorem mem_takeWhile_reverse_range {n id : Nat} {p : Nat → Bool} :
    id ∈ (List.range n).reverse.takeWhile p ↔ id < n ∧ ∀ m, id ≤ m → m < n → p m = true := by
  induction n with
  | zero => simp
  | succ n ih =>
      rw [List.range_succ, List.reverse_append, List.reverse_singleton, List.singleton_append]
      by_cases hn : p n = true
      · rw [List.takeWhile_cons_of_pos hn, List.mem_cons, ih]
        constructor
        · rintro (rfl | ⟨hlt, hall⟩)
          · refine ⟨Nat.lt_succ_self _, ?_⟩
            intro m hle hlt
            rwa [show m = id by omega]
          · refine ⟨by omega, ?_⟩
            intro m hle hlt'
            rcases Nat.lt_succ_iff_lt_or_eq.mp hlt' with hm | rfl
            · exact hall m hle hm
            · exact hn
        · rintro ⟨hlt, hall⟩
          rcases Nat.lt_succ_iff_lt_or_eq.mp hlt with hid | rfl
          · exact Or.inr ⟨hid, fun m hle hm => hall m hle (by omega)⟩
          · exact Or.inl rfl
      · rw [List.takeWhile_cons_of_neg hn]
        constructor
        · simp
        · rintro ⟨hlt, hall⟩
          exact absurd (hall n (by omega) (by omega)) hn

section Arrival

variable {b : Builder}

/-- The roots that are cut back to a place: settled ones that start before it, with no root from
there on that ends in time. -/
theorem Flat.mem_reachingPast (h : b.Flat) {place id : Nat} :
    id ∈ b.reachingPast none place ↔
      id < b.nodes.length ∧
        (∀ m, id ≤ m → m < b.nodes.length → ∀ stop, b.nodes.stopOf m = some stop → place < stop) ∧
        (∃ stop, b.nodes.stopOf id = some stop) ∧ b.nodes.startOf id < place := by
  rw [reachingPast, List.mem_filter, h.under, mem_takeWhile_reverse_range]
  simp only [Bool.and_eq_true, Option.isSome_iff_exists, decide_eq_true_eq, and_assoc]
  refine and_congr_right fun _ => and_congr ?_ Iff.rfl
  refine forall_congr' fun m => imp_congr_right fun _ => imp_congr_right fun _ => ?_
  cases b.nodes.stopOf m <;> simp

/-- Cutting back to a place moves the ends of the roots that it reaches there. -/
theorem Flat.stopOf_trim (h : b.Flat) (place : Nat) {id : Nat} (hid : id < b.nodes.length) :
    (b.trim none place).nodes.stopOf id =
      match b.nodes.stopOf id with
      | some stop =>
          if id ∈ b.reachingPast none place then some place else some stop
      | none => none := by
  have hcut : b.isCut none place id = decide (id ∈ b.reachingPast none place) := by
    rw [isCut, h.depth_eq, h.ancestorAt]
  rw [Builder.stopOf_trim, hcut]
  cases hstop : b.nodes.stopOf id with
  | none => rfl
  | some stop =>
      dsimp only
      by_cases hmem : id ∈ b.reachingPast none place
      · obtain ⟨-, hwalk, -, hstart⟩ := h.mem_reachingPast.mp hmem
        have hlt := hwalk id le_rfl hid stop hstop
        simp [hmem, hlt, Nat.max_eq_right hstart.le]
      · simp [hmem]

/-- Closing pending roots at a place. -/
theorem Flat.stopOf_resolvePending (h : b.Flat) (hexact : b.PendingExact) (place : Nat) {id : Nat}
    (hid : id < b.nodes.length) :
    (b.resolvePending 0 place).nodes.stopOf id =
      match b.nodes.stopOf id with
      | some stop => some stop
      | none => if place < b.nodes.startOf id then none else some (b.branchEnd 0 place id) := by
  rw [Builder.stopOf_resolvePending b 0 place hid]
  cases hstop : b.nodes.stopOf id with
  | none =>
      have hpending : id ∈ b.pending := (hexact id).mpr ⟨hid, hstop⟩
      rw [h.settledEnd hpending]
      by_cases hlt : place < b.nodes.startOf id
      · simp [hlt]
      · have hle : b.nodes.startOf id ≤ b.branchEnd 0 place id := by
          rcases (h.branchEnd_cases hpending place).1 with heq | ⟨m, -, hm, heq⟩
          · omega
          · omega
        simp [hlt, Nat.max_eq_right hle]
  | some stop =>
      have hpending : id ∉ b.pending := by
        intro hmem
        rw [((hexact id).mp hmem).2] at hstop
        simp at hstop
      simp [Builder.settledEnd, hpending]

/-- Once the pending roots are closed at a place, the roots that do not end in time are those that
do not stop the walk. -/
theorem Flat.not_blocks_iff (h : b.Flat) (hexact : b.PendingExact) {place id : Nat}
    (hid : id < b.nodes.length) (hne : b.nodes.startOf id ≠ place) :
    (∀ stop, (b.resolvePending 0 place).nodes.stopOf id = some stop → place < stop) ↔
      ¬b.Blocks place id := by
  rw [h.stopOf_resolvePending hexact place hid, Blocks]
  cases hstop : b.nodes.stopOf id with
  | some stop => simp
  | none =>
      have hpending : id ∈ b.pending := (hexact id).mpr ⟨hid, hstop⟩
      have hle := (h.branchEnd_cases hpending place).2.1
      by_cases hlt : place < b.nodes.startOf id
      · simp [hlt]
        omega
      · simp [hlt]
        omega

/-- The roots that an arrival cuts back. -/
theorem Flat.mem_reachingPast_resolvePending (h : b.Flat) (hexact : b.PendingExact) {place : Nat}
    (hfresh : ∀ id, id < b.nodes.length → b.nodes.startOf id ≠ place) {id : Nat}
    (hid : id < b.nodes.length) :
    id ∈ (b.resolvePending 0 place).reachingPast none place ↔
      (∀ m, id ≤ m → m < b.nodes.length → ¬b.Blocks place m) ∧
        (∃ stop, (b.resolvePending 0 place).nodes.stopOf id = some stop) ∧
        b.nodes.startOf id < place := by
  have hflat : (b.resolvePending 0 place).Flat :=
    h.of_skeleton rfl (skeleton_resolvePending b 0 place)
  rw [hflat.mem_reachingPast, length_resolvePending, startOf_resolvePending]
  constructor
  · rintro ⟨-, hwalk, hrest⟩
    refine ⟨?_, hrest⟩
    intro m hle hm
    exact (h.not_blocks_iff hexact hm (hfresh m hm)).mp (hwalk m hle hm)
  · rintro ⟨hwalk, hrest⟩
    refine ⟨hid, ?_, hrest⟩
    intro m hle hm
    exact (h.not_blocks_iff hexact hm (hfresh m hm)).mpr (hwalk m hle hm)

/-- What the arrival of a root does to the ends of the others.  Pending roots before it are closed.
Settled ones before it are cut back to it, unless one of those from there on ends in time or is just
being closed. -/
theorem Flat.stopOf_closeBefore (h : b.Flat) (hexact : b.PendingExact) {place : Nat}
    (hfresh : ∀ id, id < b.nodes.length → b.nodes.startOf id ≠ place) {id : Nat}
    (hid : id < b.nodes.length) :
    (((b.resolvePending 0 place).trim none place).nodes.stopOf id = none ∧
        b.nodes.stopOf id = none ∧ place < b.nodes.startOf id) ∨
      (((b.resolvePending 0 place).trim none place).nodes.stopOf id =
          some (b.branchEnd 0 place id) ∧
        b.nodes.stopOf id = none ∧ b.nodes.startOf id < place) ∨
      (((b.resolvePending 0 place).trim none place).nodes.stopOf id = some place ∧
        (∃ stop, b.nodes.stopOf id = some stop) ∧ b.nodes.startOf id < place ∧
        ∀ m, id ≤ m → m < b.nodes.length → ¬b.Blocks place m) ∨
      ∃ stop, ((b.resolvePending 0 place).trim none place).nodes.stopOf id = some stop ∧
        b.nodes.stopOf id = some stop ∧
        (b.nodes.startOf id < place → ∃ m, id ≤ m ∧ m < b.nodes.length ∧ b.Blocks place m) := by
  have hflat : (b.resolvePending 0 place).Flat :=
    h.of_skeleton rfl (skeleton_resolvePending b 0 place)
  have hmem := h.mem_reachingPast_resolvePending hexact hfresh hid
  rw [hflat.stopOf_trim place ((length_resolvePending b 0 place).symm ▸ hid)]
  rw [h.stopOf_resolvePending hexact place hid] at hmem ⊢
  have hne := hfresh id hid
  cases hstop : b.nodes.stopOf id with
  | none =>
      rw [hstop] at hmem
      by_cases hlt : place < b.nodes.startOf id
      · exact Or.inl ⟨by simp [hlt], rfl, hlt⟩
      · have hself : b.Blocks place id := by
          simp only [Blocks, hstop]
          omega
        have hnot : id ∉ (b.resolvePending 0 place).reachingPast none place := by
          intro hin
          exact (hmem.mp hin).1 id le_rfl hid hself
        exact Or.inr (Or.inl ⟨by simp [hlt, hnot], rfl, by omega⟩)
  | some stop =>
      rw [hstop] at hmem
      by_cases hin : id ∈ (b.resolvePending 0 place).reachingPast none place
      · obtain ⟨hwalk, -, hstart⟩ := hmem.mp hin
        exact Or.inr (Or.inr (Or.inl ⟨by simp [hin], ⟨stop, rfl⟩, hstart, hwalk⟩))
      · refine Or.inr (Or.inr (Or.inr ⟨stop, by simp [hin], rfl, ?_⟩))
        intro hstart
        by_contra hnone
        refine hin (hmem.mpr ⟨?_, ⟨stop, rfl⟩, hstart⟩)
        intro m hle hm hblock
        exact hnone ⟨m, hle, hm, hblock⟩

end Arrival

/-! ## What is known of an end -/

section Known

variable {start : Nat → Nat} {n i stop stop' : Nat}

/-- An end of root `i` of `n` that is the start of another root: of one that came later, or of an
earlier one with nothing past it in between. -/
def Meets (start : Nat → Nat) (n i stop : Nat) : Prop :=
  ∃ m, m < n ∧ stop = start m ∧ start i < start m ∧
    (i < m ∨ ∀ l, m < l → l < i → start l < start m)

/-- What holds an end of root `i` of `n`, and what does not: it lies at or before the start of an
earlier root with nothing past it in between, of the first later root past `i`, and of a later root
before all those in between.  It is not the start of a later root that was kept from it. -/
structure Confined (start : Nat → Nat) (n i stop : Nat) : Prop where
  before : ∀ m, m < i → start i < start m → (∀ l, m < l → l < i → start l < start m) →
    stop ≤ start m
  next : ∀ j, i < j → j < n → start i < start j → (∀ l, i < l → l < j → start l < start i) →
    stop ≤ start j
  passed : ∀ j, i < j → j < n → start i < start j → (∀ l, i < l → l < j → start j < start l) →
    stop ≤ start j
  missed : ∀ j z d, i < z → z < d → d < j → j < n → start z < start i → start i < start j →
    start j < start d → (∀ l, i < l → l < z → start l < start i) → stop ≠ start j

/-- An end that meets the start of a root still does so when one more root comes. -/
theorem Meets.succ (h : Meets start n i stop) : Meets start (n + 1) i stop := by
  obtain ⟨m, hm, hrest⟩ := h
  exact ⟨m, by omega, hrest⟩

/-- An end that meets the start of a root lies past the start of its own root. -/
theorem Meets.lt (h : Meets start n i stop) : start i < stop := by
  obtain ⟨m, -, heq, hlt, -⟩ := h
  omega

/-- An end that is a start among `n` roots is not the start of a new one. -/
theorem Meets.ne (h : Meets start n i stop) (hfresh : ∀ i, i < n → start i ≠ start n) :
    stop ≠ start n := by
  obtain ⟨m, hm, heq, -⟩ := h
  rw [heq]
  exact hfresh m hm

/-- An end that holds among `n` roots holds with a new one that it lies before, if need be. -/
theorem Confined.succ (h : Confined start n i stop)
    (hnext : start i < start n → (∀ l, i < l → l < n → start l < start i) → stop ≤ start n)
    (hpassed : start i < start n → (∀ l, i < l → l < n → start n < start l) → stop ≤ start n)
    (hmissed : stop = start n → ∀ z d, i < z → z < d → d < n → start z < start i →
      start n < start d → (∀ l, i < l → l < z → start l < start i) → False) :
    Confined start (n + 1) i stop where
  before := h.before
  next := by
    intro j hij hj hlt hall
    rcases Nat.lt_succ_iff_lt_or_eq.mp hj with hj | rfl
    · exact h.next j hij hj hlt hall
    · exact hnext hlt hall
  passed := by
    intro j hij hj hlt hall
    rcases Nat.lt_succ_iff_lt_or_eq.mp hj with hj | rfl
    · exact h.passed j hij hj hlt hall
    · exact hpassed hlt hall
  missed := by
    intro j z d hiz hzd hdj hj hz hlt hd hall
    rcases Nat.lt_succ_iff_lt_or_eq.mp hj with hj | rfl
    · exact h.missed j z d hiz hzd hdj hj hz hlt hd hall
    · intro heq
      exact hmissed heq z d hiz hzd hdj hz hd hall

/-- A new end at or before one that holds, which is no start of the roots. -/
theorem Confined.cut (h : Confined start n i stop) (hle : stop' ≤ stop)
    (hfresh : ∀ j, j < n → start j ≠ stop') : Confined start n i stop' where
  before m hm hlt hall := hle.trans (h.before m hm hlt hall)
  next j hij hj hlt hall := hle.trans (h.next j hij hj hlt hall)
  passed j hij hj hlt hall := hle.trans (h.passed j hij hj hlt hall)
  missed j _ _ _ _ _ hj _ _ _ _ := (hfresh j hj).symm

end Known

/-- All roots that came so far, with their starts given by number.  Pending are those past all
later ones. -/
structure Arrived (b : Builder) (start : Nat → Nat) : Prop where
  flat : b.Flat
  pendingExact : b.PendingExact
  startOf : ∀ i, i < b.nodes.length → b.nodes.startOf i = start i
  pending : ∀ i, i < b.nodes.length →
    (b.nodes.stopOf i = none ↔ ∀ j, i < j → j < b.nodes.length → start j < start i)
  settled : ∀ i stop, b.nodes.stopOf i = some stop →
    Meets start b.nodes.length i stop ∧ Confined start b.nodes.length i stop

section Arrived

variable {start : Nat → Nat} {b : Builder}

/-- At first no root has arrived. -/
theorem Arrived.init (start : Nat → Nat) (source : Source) :
    (Builder.init source).Arrived start where
  flat := Flat.init source
  pendingExact := PendingExact.init source
  startOf := by simp [Builder.init]
  pending := by simp [Builder.init]
  settled := by
    intro i stop h
    exact absurd (lt_length_of_stopOf h) (by simp [Builder.init])

/-- A root with nothing past it behind it is pending. -/
theorem Arrived.mem_pending_iff (h : b.Arrived start) {i : Nat} :
    i ∈ b.pending ↔
      i < b.nodes.length ∧ ∀ j, i < j → j < b.nodes.length → start j < start i := by
  rw [h.pendingExact i]
  exact and_congr_right fun hi => h.pending i hi

/-- The end that a pending root gets. -/
theorem Arrived.branchEnd (h : b.Arrived start) {i : Nat} (hi : i ∈ b.pending) (place : Nat) :
    (b.branchEnd 0 place i = place ∨ Meets start b.nodes.length i (b.branchEnd 0 place i)) ∧
      b.branchEnd 0 place i ≤ place ∧
      Confined start b.nodes.length i (b.branchEnd 0 place i) := by
  obtain ⟨hlt, hlast⟩ := h.mem_pending_iff.mp hi
  obtain ⟨hcases, hle, hleast⟩ := h.flat.branchEnd_cases hi place
  refine ⟨?_, hle, ?_⟩
  · rcases hcases with heq | ⟨m, hm, hstart, heq⟩
    · exact Or.inl heq
    · obtain ⟨hmlt, hmlast⟩ := h.mem_pending_iff.mp hm
      rw [h.startOf i hlt, h.startOf m hmlt] at hstart
      rw [h.startOf m hmlt] at heq
      refine Or.inr ⟨m, hmlt, heq, hstart, Or.inr ?_⟩
      intro l hml hli
      exact hmlast l hml (by omega)
  · -- No later root lies past a pending one, so only earlier ones matter.
    constructor
    · intro m hmi hstart hall
      have hm : m ∈ b.pending := by
        refine h.mem_pending_iff.mpr ⟨by omega, ?_⟩
        intro j hmj hj
        rcases Nat.lt_trichotomy j i with hji | rfl | hij
        · exact hall j hmj hji
        · exact hstart
        · exact (hlast j hij hj).trans hstart
      have := hleast m hm (by rwa [h.startOf i hlt, h.startOf m (by omega)])
      rwa [h.startOf m (by omega)] at this
    · intro j hij hj hstart
      exact absurd (hlast j hij hj) (by omega)
    · intro j hij hj hstart
      exact absurd (hlast j hij hj) (by omega)
    · intro j z d hiz hzd hdj hj hz hstart
      exact absurd (hlast j (by omega) hj) (by omega)

/-- A root with a new start starts where no other root does. -/
theorem Arrived.startOf_ne (h : b.Arrived start)
    (hfresh : ∀ i, i < b.nodes.length → start i ≠ start b.nodes.length) (i : Nat)
    (hi : i < b.nodes.length) : b.nodes.startOf i ≠ start b.nodes.length := by
  rw [h.startOf i hi]
  exact hfresh i hi

/-- The pending roots after an arrival. -/
theorem Arrived.pending_visit (h : b.Arrived start)
    (hfresh : ∀ i, i < b.nodes.length → start i ≠ start b.nodes.length) {i : Nat}
    (hi : i < b.nodes.length) :
    ((b.resolvePending 0 (start b.nodes.length)).trim none (start b.nodes.length)).nodes.stopOf i =
        none ↔
      ∀ j, i < j → j < b.nodes.length + 1 → start j < start i := by
  have hcases := h.flat.stopOf_closeBefore h.pendingExact (h.startOf_ne hfresh) hi
  rw [h.startOf i hi] at hcases
  have hbefore : (∀ j, i < j → j < b.nodes.length + 1 → start j < start i) ↔
      b.nodes.stopOf i = none ∧ start b.nodes.length < start i := by
    rw [h.pending i hi]
    constructor
    · intro hall
      exact ⟨fun j hij hj => hall j hij (by omega), hall _ hi (by omega)⟩
    · rintro ⟨hall, hlast⟩ j hij hj
      rcases Nat.lt_succ_iff_lt_or_eq.mp hj with hj | rfl
      · exact hall j hij hj
      · exact hlast
  rw [hbefore]
  rcases hcases with ⟨hnew, hold, hlt⟩ | ⟨hnew, hold, hlt⟩ | ⟨hnew, ⟨stop, hold⟩, -⟩ |
    ⟨stop, hnew, hold, -⟩
  · simp [hnew, hold, hlt]
  · simp [hnew, hlt.le]
  · simp [hnew, hold]
  · simp [hnew, hold]

/-- A settled end that an arrival leaves alone still holds. -/
theorem Arrived.confined_of_blocked (h : b.Arrived start)
    (hfresh : ∀ i, i < b.nodes.length → start i ≠ start b.nodes.length) {i stop : Nat}
    (hstop : b.nodes.stopOf i = some stop)
    (hblocked : start i < start b.nodes.length →
      ∃ m, i ≤ m ∧ m < b.nodes.length ∧ b.Blocks (start b.nodes.length) m) :
    Confined start (b.nodes.length + 1) i stop := by
  have hi : i < b.nodes.length := lt_length_of_stopOf hstop
  obtain ⟨hmeets, hconfined⟩ := h.settled i stop hstop
  apply hconfined.succ
  · intro _ hall
    rw [(h.pending i hi).mpr hall] at hstop
    simp at hstop
  · intro hlt hall
    obtain ⟨m, him, hm, hblocks⟩ := hblocked hlt
    rcases him.eq_or_lt with rfl | him
    · simpa [Blocks, hstop] using hblocks
    · -- A root past the new one does not end before it.
      have hpast := hall m him hm
      unfold Blocks at hblocks
      split at hblocks
      · rename_i stop' hstop'
        have := (h.settled m stop' hstop').1.lt
        omega
      · rw [h.startOf m hm] at hblocks
        omega
  · intro heq
    exact absurd heq (hmeets.ne hfresh)

/-- A settled end that is cut back holds. -/
theorem Arrived.confined_of_cut (h : b.Arrived start)
    (hfresh : ∀ i, i < b.nodes.length → start i ≠ start b.nodes.length) {i stop : Nat}
    (hstop : b.nodes.stopOf i = some stop) (hlt : start i < start b.nodes.length)
    (hwalk : ∀ m, i ≤ m → m < b.nodes.length → ¬b.Blocks (start b.nodes.length) m) :
    Confined start (b.nodes.length + 1) i (start b.nodes.length) := by
  have hi : i < b.nodes.length := lt_length_of_stopOf hstop
  have hle : start b.nodes.length ≤ stop := by
    have := hwalk i le_rfl hi
    simp only [Blocks, hstop] at this
    omega
  refine ((h.settled i stop hstop).2.cut hle hfresh).succ (fun _ _ => le_rfl) (fun _ _ => le_rfl) ?_
  intro _ z d hiz hzd hd hz hpast hall
  -- The root before this one ends in time and stops the walk.
  refine hwalk z hiz.le (by omega) ?_
  cases hstop' : b.nodes.stopOf z with
  | none =>
      have := (h.pending z (by omega)).mp hstop' d hzd hd
      omega
  | some stop' =>
      have := (h.settled z stop' hstop').2.before i hiz hz hall
      simp only [Blocks, hstop']
      omega

/-- What is known of the ends after an arrival. -/
theorem Arrived.settled_visit (h : b.Arrived start)
    (hfresh : ∀ i, i < b.nodes.length → start i ≠ start b.nodes.length) {i stop : Nat}
    (hi : i < b.nodes.length)
    (hstop : ((b.resolvePending 0 (start b.nodes.length)).trim none
      (start b.nodes.length)).nodes.stopOf i = some stop) :
    Meets start (b.nodes.length + 1) i stop ∧ Confined start (b.nodes.length + 1) i stop := by
  have hcases := h.flat.stopOf_closeBefore h.pendingExact (h.startOf_ne hfresh) hi
  rw [hstop, h.startOf i hi] at hcases
  have hmeets : start i < start b.nodes.length →
      Meets start (b.nodes.length + 1) i (start b.nodes.length) := fun hlt =>
    ⟨b.nodes.length, Nat.lt_succ_self _, rfl, hlt, Or.inl hi⟩
  rcases hcases with ⟨hnew, -⟩ | ⟨hnew, hold, hlt⟩ | ⟨hnew, ⟨old, hold⟩, hlt, hwalk⟩ |
    ⟨old, hnew, hold, hblocked⟩
  · simp at hnew
  · have hpending : i ∈ b.pending := (h.pendingExact i).mpr ⟨hi, hold⟩
    obtain ⟨horigin, hle, hconfined⟩ := h.branchEnd hpending (start b.nodes.length)
    rw [Option.some.injEq] at hnew
    rw [← hnew] at horigin hle hconfined
    constructor
    · rcases horigin with heq | hold
      · rw [heq]
        exact hmeets hlt
      · exact hold.succ
    · refine hconfined.succ (fun _ _ => hle) (fun _ _ => hle) ?_
      intro _ z d hiz hzd hd _ hpast _
      have := (h.mem_pending_iff.mp hpending).2 d (by omega) hd
      omega
  · rw [Option.some.injEq] at hnew
    rw [hnew]
    exact ⟨hmeets hlt, h.confined_of_cut hfresh hold hlt hwalk⟩
  · rw [Option.some.injEq] at hnew
    rw [hnew]
    exact ⟨(h.settled i old hold).1.succ, h.confined_of_blocked hfresh hold hblocked⟩

/-- An arrival keeps what is known. -/
theorem Arrived.visit (h : b.Arrived start) (tag : Tag) {p : Position}
    (hstart : b.source.clamp p = start b.nodes.length)
    (hfresh : ∀ i, i < b.nodes.length → start i ≠ start b.nodes.length) :
    (b.visit tag.kind (tag.payload p)).Arrived start := by
  have hlength := length_visit b tag.kind (tag.payload p)
  have hskeleton := skeleton_visit b tag.kind (tag.payload p)
  rw [h.flat.startFor, hstart, h.flat.depth_eq, h.flat.current_eq] at hskeleton
  have hold : ∀ i, i < b.nodes.length → (b.visit tag.kind (tag.payload p)).nodes.stopOf i =
      ((b.resolvePending 0 (start b.nodes.length)).trim none
        (start b.nodes.length)).nodes.stopOf i := by
    intro i hi
    rw [visit_eq, append, stopOf_append (by simpa using hi), h.flat.closeBefore, hstart]
  have hnew : (b.visit tag.kind (tag.payload p)).nodes.stopOf b.nodes.length = none := by
    rw [visit_eq, append, ← length_closeBefore b (tag.payload p), stopOf_append_length]
  constructor
  · exact h.flat.visit tag.kind (tag.payload p)
  · exact h.pendingExact.visit tag.kind (tag.payload p)
  · intro i hi
    rw [hlength] at hi
    rw [← startOf_skeleton, hskeleton]
    rcases Nat.lt_succ_iff_lt_or_eq.mp hi with hi | rfl
    · rw [startOf_append (by simpa using hi), startOf_skeleton, h.startOf i hi]
    · rw [← length_skeleton, startOf_append_length]
  · intro i hi
    rw [hlength] at hi ⊢
    rcases Nat.lt_succ_iff_lt_or_eq.mp hi with hi | rfl
    · rw [hold i hi, h.pending_visit hfresh hi]
    · rw [hnew]
      refine iff_of_true rfl ?_
      intro j hij hj
      omega
  · intro i stop hstop
    have hi := lt_length_of_stopOf hstop
    rw [hlength] at hi ⊢
    rcases Nat.lt_succ_iff_lt_or_eq.mp hi with hi | rfl
    · exact h.settled_visit hfresh hi (hold i hi ▸ hstop)
    · rw [hnew] at hstop
      simp at hstop

/-- What is known of the ends in a finished outline. -/
theorem Arrived.finish (h : b.Arrived start)
    (hbound : ∀ i, i < b.nodes.length → start i ≤ b.source.size) {i : Nat}
    (hi : i < b.nodes.length) :
    ∃ stop, b.finish.extentOf i = some ⟨start i, stop⟩ ∧
      (stop = b.source.size ∨ Meets start b.nodes.length i stop) ∧
      Confined start b.nodes.length i stop := by
  have hnodes : b.finish.nodes = (b.resolvePending 0 b.source.size).nodes := rfl
  have hclosed := h.flat.stopOf_resolvePending h.pendingExact b.source.size hi
  have hstart : b.finish.nodes.startOf i = start i := by
    rw [hnodes, startOf_resolvePending, h.startOf i hi]
  rw [← hnodes] at hclosed
  cases hstop : b.nodes.stopOf i with
  | some stop =>
      rw [hstop] at hclosed
      obtain ⟨hmeets, hconfined⟩ := h.settled i stop hstop
      exact ⟨stop, hstart ▸ Outline.extentOf_eq hclosed, Or.inr hmeets, hconfined⟩
  | none =>
      have hpending : i ∈ b.pending := (h.pendingExact i).mpr ⟨hi, hstop⟩
      have hle : ¬b.source.size < b.nodes.startOf i := by
        rw [h.startOf i hi]
        exact Nat.not_lt.mpr (hbound i hi)
      simp only [hstop, if_neg hle] at hclosed
      obtain ⟨horigin, -, hconfined⟩ := h.branchEnd hpending b.source.size
      exact ⟨_, hstart ▸ Outline.extentOf_eq hclosed, horigin, hconfined⟩

end Arrived
end Builder

/-! ## Orders of arrival -/

/-- A root that is announced at a position. -/
structure Sighting where
  tag : Tag
  position : Position

/-- The event of a root. -/
def Sighting.event (x : Sighting) : Event :=
  .leaf x.tag.kind (x.tag.payload x.position)

/-- The start of a root in a source. -/
def Sighting.start (s : Source) (x : Sighting) : Nat :=
  s.clamp x.position

/-- A run of arrivals at distinct starts is accepted, and keeps what is known. -/
theorem Builder.Arrived.run {start : Nat → Nat} {b : Builder} (h : b.Arrived start)
    (seen : List Sighting)
    (hstarts : ∀ k x, seen[k]? = some x → x.start b.source = start (b.nodes.length + k))
    (hdistinct : ∀ i j, i < j → j < b.nodes.length + seen.length → start i ≠ start j) :
    ∃ b', b.run (seen.map Sighting.event) = .ok b' ∧ b'.Arrived start ∧
      b'.nodes.length = b.nodes.length + seen.length := by
  induction seen generalizing b with
  | nil => exact ⟨b, rfl, h, rfl⟩
  | cons x seen ih =>
      have hx : b.source.clamp x.position = start b.nodes.length := hstarts 0 x rfl
      have hvisit := h.visit x.tag hx fun i hi => hdistinct i _ hi (by simp)
      have hlength := length_visit b x.tag.kind (x.tag.payload x.position)
      have hstarts' : ∀ k y, seen[k]? = some y →
          y.start (b.visit x.tag.kind (x.tag.payload x.position)).source =
            start ((b.visit x.tag.kind (x.tag.payload x.position)).nodes.length + k) := by
        intro k y hy
        rw [visit_source, hlength, hstarts (k + 1) y hy]
        congr 1
        omega
      obtain ⟨b', hrun, harrived, hsize⟩ := ih hvisit hstarts' (by
        intro i j hij hj
        rw [hlength] at hj
        exact hdistinct i j hij (by simp; omega))
      refine ⟨b', ?_, harrived, ?_⟩
      · rw [List.map_cons, Sighting.event, run_leaf, hrun]
      · rw [hsize, hlength, List.length_cons]
        omega

namespace Roots

/-- The start of a root, by the number of its arrival. -/
def startAt (starts : List Nat) (i : Nat) : Nat :=
  starts[i]?.getD 0

/-- The least of the starts past a place; the size of the text where there is none. -/
def nextStart (size : Nat) (starts : List Nat) (place : Nat) : Nat :=
  ((starts.filter (place < ·)).min?).getD size

/-- Once a root past another one has come, none before that other one comes. -/
def NoReturn (starts : List Nat) : Prop :=
  ∀ k < starts.length, ∀ j < k, ∀ i < j, startAt starts i < startAt starts j →
    startAt starts i ≤ startAt starts k

/-- Of four arrivals in a row the first and the last start next to each other, and between them
come one before both and then one past both. -/
def Detour (starts : List Nat) (i j k l : Nat) : Prop :=
  startAt starts j < startAt starts i ∧ startAt starts i < startAt starts l ∧
    startAt starts l < startAt starts k ∧
    ∀ w ∈ starts, w ≤ startAt starts i ∨ startAt starts l ≤ w

/-- No four arrivals make a detour. -/
def NoDetour (starts : List Nat) : Prop :=
  ∀ l < starts.length, ∀ k < l, ∀ j < k, ∀ i < j, ¬Detour starts i j k l

/-- The orders of arrival in which every root runs to the next start. -/
def Orderly (starts : List Nat) : Prop :=
  NoReturn starts ∧ NoDetour starts

instance (starts : List Nat) : Decidable (NoReturn starts) :=
  inferInstanceAs (Decidable (∀ k < starts.length, ∀ j < k, ∀ i < j, _))

instance (starts : List Nat) (i j k l : Nat) : Decidable (Detour starts i j k l) :=
  inferInstanceAs (Decidable (_ ∧ _ ∧ _ ∧ ∀ w ∈ starts, _))

instance (starts : List Nat) : Decidable (NoDetour starts) :=
  inferInstanceAs (Decidable (∀ l < starts.length, ∀ k < l, ∀ j < k, ∀ i < j, _))

instance (starts : List Nat) : Decidable (Orderly starts) :=
  inferInstanceAs (Decidable (_ ∧ _))

section Starts

variable {size : Nat} {starts : List Nat}

/-- The start of a root is one of the starts. -/
theorem startAt_mem {i : Nat} (hi : i < starts.length) : startAt starts i ∈ starts := by
  simp [startAt, hi]

/-- The start of a root is the one with its number. -/
theorem startAt_eq {i place : Nat} (h : starts[i]? = some place) : startAt starts i = place := by
  simp [startAt, h]

/-- Every one of the starts is that of a root. -/
theorem exists_startAt {place : Nat} (h : place ∈ starts) :
    ∃ i, i < starts.length ∧ startAt starts i = place := by
  obtain ⟨i, hi, rfl⟩ := List.mem_iff_getElem.mp h
  exact ⟨i, hi, by simp [startAt, hi]⟩

/-- Roots that arrive at different places have different starts. -/
theorem startAt_ne (h : starts.Nodup) {i j : Nat} (hij : i < j) (hj : j < starts.length) :
    startAt starts i ≠ startAt starts j := by
  have hi : i < starts.length := hij.trans hj
  intro heq
  simp only [startAt, List.getElem?_eq_getElem hi, List.getElem?_eq_getElem hj,
    Option.getD_some] at heq
  have := (h.getElem_inj_iff).mp heq
  omega

/-- A root is known by its start. -/
theorem startAt_inj (h : starts.Nodup) {i j : Nat} (hi : i < starts.length)
    (hj : j < starts.length) (heq : startAt starts i = startAt starts j) : i = j := by
  rcases Nat.lt_trichotomy i j with hlt | rfl | hgt
  · exact absurd heq (startAt_ne h hlt hj)
  · rfl
  · exact absurd heq.symm (startAt_ne h hgt hi)

/-- The next start is one of the starts, or there is none. -/
theorem nextStart_cases (size : Nat) (starts : List Nat) (place : Nat) :
    (nextStart size starts place = size ∧ ∀ y ∈ starts, y ≤ place) ∨
      (nextStart size starts place ∈ starts ∧ place < nextStart size starts place ∧
        ∀ y ∈ starts, place < y → nextStart size starts place ≤ y) := by
  unfold nextStart
  cases hmin : (starts.filter (place < ·)).min? with
  | none =>
      rw [List.min?_eq_none_iff, List.filter_eq_nil_iff] at hmin
      exact Or.inl ⟨rfl, fun y hy => by simpa using hmin y hy⟩
  | some next =>
      rw [List.min?_eq_some_iff] at hmin
      obtain ⟨hmem, hleast⟩ := hmin
      rw [List.mem_filter] at hmem
      refine Or.inr ⟨hmem.1, by simpa using hmem.2, ?_⟩
      intro y hy hlt
      exact hleast y (List.mem_filter.mpr ⟨hy, by simpa using hlt⟩)

/-- The next start is not past any start past the place. -/
theorem nextStart_le {place y : Nat} (hy : y ∈ starts) (hlt : place < y) :
    nextStart size starts place ≤ y := by
  rcases nextStart_cases size starts place with ⟨-, hnone⟩ | ⟨-, -, hleast⟩
  · exact absurd (hnone y hy) (by omega)
  · exact hleast y hy hlt

end Starts

/-! ## Right ends -/

section Ends

open Builder

variable {size : Nat} {starts : List Nat}

/-- No root ends before the next start. -/
theorem nextStart_le_stop (hbound : ∀ y ∈ starts, y ≤ size) {i stop : Nat}
    (horigin : stop = size ∨ Meets (startAt starts) starts.length i stop) :
    nextStart size starts (startAt starts i) ≤ stop := by
  rcases horigin with rfl | ⟨m, hm, rfl, hlt, -⟩
  · rcases nextStart_cases stop starts (startAt starts i) with ⟨heq, -⟩ | ⟨hmem, -⟩
    · exact heq.le
    · exact hbound _ hmem
  · exact nextStart_le (startAt_mem hm) hlt

/-- In an orderly arrival every root ends at the start of the root next behind it. -/
theorem stop_le_of_orderly (horderly : Orderly starts) (hdistinct : starts.Nodup) {i stop y : Nat}
    (hi : i < starts.length) (hconfined : Confined (startAt starts) starts.length i stop)
    (hy : y < starts.length) (hlt : startAt starts i < startAt starts y)
    (hleast : ∀ w ∈ starts, startAt starts i < w → startAt starts y ≤ w) :
    stop ≤ startAt starts y := by
  obtain ⟨hreturn, hdetour⟩ := horderly
  rcases Nat.lt_trichotomy y i with hyi | rfl | hiy
  · apply hconfined.before y hyi hlt
    intro l hyl hli
    have hle : ¬startAt starts y < startAt starts l := by
      intro hpast
      have := hreturn i hi l hli y hyl hpast
      omega
    have hne := startAt_ne hdistinct hyl (hli.trans hi)
    omega
  · omega
  · by_cases hpast : ∃ d, i < d ∧ d < y ∧ startAt starts i < startAt starts d
    · obtain ⟨d, hid, hdy, hd⟩ := hpast
      by_cases hbelow : ∃ z, i < z ∧ z < y ∧ startAt starts z < startAt starts i
      · -- One before and one past both came in between, in one order or the other.
        obtain ⟨z, hiz, hzy, hz⟩ := hbelow
        rcases Nat.lt_trichotomy z d with hzd | rfl | hdz
        · have hle := hleast _ (startAt_mem (hdy.trans hy)) hd
          have hne := startAt_ne hdistinct hdy hy
          refine absurd ?_ (hdetour y hy d hdy z hzd i hiz)
          refine ⟨hz, hlt, by omega, ?_⟩
          intro w hw
          rcases Nat.lt_or_ge (startAt starts i) w with hiw | hwi
          · exact Or.inr (hleast w hw hiw)
          · exact Or.inl hwi
        · omega
        · have := hreturn z (hzy.trans hy) d hdz i hid hd
          omega
      · apply hconfined.passed y hiy hy hlt
        intro l hil hly
        have hne := startAt_ne hdistinct hil (hly.trans hy)
        have hil' : startAt starts i < startAt starts l := by
          by_contra hnot
          exact hbelow ⟨l, hil, hly, by omega⟩
        have hle := hleast _ (startAt_mem (hly.trans hy)) hil'
        have hne' := startAt_ne hdistinct hly hy
        omega
    · apply hconfined.next y hiy hy hlt
      intro l hil hly
      have hne := startAt_ne hdistinct hil (hly.trans hy)
      by_contra hnot
      exact hpast ⟨l, hil, hly, by omega⟩

/-- In an orderly arrival every root runs to the next start. -/
theorem stop_eq_nextStart (horderly : Orderly starts) (hdistinct : starts.Nodup)
    (hbound : ∀ y ∈ starts, y ≤ size) {i stop : Nat} (hi : i < starts.length)
    (horigin : stop = size ∨ Meets (startAt starts) starts.length i stop)
    (hconfined : Confined (startAt starts) starts.length i stop) :
    stop = nextStart size starts (startAt starts i) := by
  apply Nat.le_antisymm _ (nextStart_le_stop hbound horigin)
  rcases nextStart_cases size starts (startAt starts i) with ⟨heq, hnone⟩ | ⟨hmem, hlt, hleast⟩
  · rcases horigin with rfl | ⟨m, hm, -, hlt, -⟩
    · exact heq.ge
    · exact absurd (hnone _ (startAt_mem hm)) (by omega)
  · obtain ⟨y, hy, heq⟩ := exists_startAt hmem
    rw [← heq] at hlt hleast ⊢
    exact stop_le_of_orderly horderly hdistinct hi hconfined hy hlt hleast

/-- When every root runs to the next start, none comes back before one that another came past. -/
theorem noReturn_of_stops (hdistinct : starts.Nodup) (hbound : ∀ y ∈ starts, y ≤ size)
    {stop : Nat → Nat}
    (horigin : ∀ i, i < starts.length →
      stop i = size ∨ Meets (startAt starts) starts.length i (stop i))
    (hright : ∀ i, i < starts.length → stop i = nextStart size starts (startAt starts i)) :
    NoReturn starts := by
  intro k hk j hj i hi hpast
  by_contra hreturn
  -- The last start before root `i` that comes after root `j` has its next start before root `j`.
  let late := (Finset.range starts.length).filter fun m =>
    j < m ∧ startAt starts m < startAt starts i
  have hlate : ∀ {m}, m ∈ late ↔
      m < starts.length ∧ j < m ∧ startAt starts m < startAt starts i := by
    simp [late]
  obtain ⟨x, hx, hmax⟩ := late.exists_max_image (startAt starts) ⟨k, hlate.mpr ⟨hk, hj, by omega⟩⟩
  obtain ⟨hxn, hjx, hxi⟩ := hlate.mp hx
  have hile : startAt starts i ∈ starts := startAt_mem (by omega)
  have hjmem : startAt starts j ∈ starts := startAt_mem (by omega)
  rcases nextStart_cases size starts (startAt starts x) with ⟨-, hnone⟩ | ⟨hmem, hlt, hleast⟩
  · exact absurd (hnone _ hile) (by omega)
  obtain ⟨y, hy, heq⟩ := exists_startAt hmem
  rw [← heq] at hlt hleast
  have hyi := hleast _ hile hxi
  have hyj : y < j := by
    by_contra hnot
    have hne : y ≠ j := by
      rintro rfl
      omega
    have hstrict : startAt starts i ≠ startAt starts y := startAt_ne hdistinct (by omega) hy
    have := hmax y (hlate.mpr ⟨hy, by omega, by omega⟩)
    omega
  have hstop := hright x hxn
  rw [← heq] at hstop
  rcases horigin x hxn with hsize | ⟨m, hm, hstart, -, hseen⟩
  · have := hbound _ hjmem
    omega
  · have hmy : m = y := startAt_inj hdistinct hm hy (by omega)
    subst hmy
    rcases hseen with hafter | hbetween
    · omega
    · have := hbetween j hyj hjx
      omega

/-- When every root runs to the next start, no arrivals make a detour. -/
theorem noDetour_of_stops (hdistinct : starts.Nodup) (hreturn : NoReturn starts)
    {stop : Nat → Nat}
    (hconfined : ∀ i, i < starts.length →
      Confined (startAt starts) starts.length i (stop i))
    (hright : ∀ i, i < starts.length → stop i = nextStart size starts (startAt starts i)) :
    NoDetour starts := by
  rintro l hl k hk j hj i hi ⟨hji, hil, hlk, hnone⟩
  have hin : i < starts.length := by omega
  refine (hconfined i hin).missed l j k hi hj hk hl hji hil hlk ?_ ?_
  · intro m him hmj
    by_contra hnot
    have hne := startAt_ne hdistinct him (by omega)
    have := hreturn j (by omega) m hmj i him (by omega)
    omega
  · rw [hright i hin]
    rcases nextStart_cases size starts (startAt starts i) with ⟨-, hlast⟩ | ⟨hmem, hlt, hleast⟩
    · exact absurd (hlast _ (startAt_mem hl)) (by omega)
    · have hle := hleast _ (startAt_mem hl) hil
      rcases hnone _ hmem with hlow | hhigh
      · omega
      · omega

end Ends

end Roots

namespace Outline

open Roots Builder

/-- Every root runs from its own start to the next one. -/
def RunsToNextStart (o : Outline) (size : Nat) (starts : List Nat) : Prop :=
  ∀ i x, starts[i]? = some x → o.extentOf i = some ⟨x, nextStart size starts x⟩

/-- Roots at distinct starts make an outline in any order, and something is known of each end. -/
theorem exists_stops (s : Source) {seen : List Sighting} {starts : List Nat}
    (hstarts : starts = seen.map (Sighting.start s)) (hdistinct : starts.Nodup)
    (hbound : ∀ y ∈ starts, y ≤ s.size) :
    ∃ o, Outline.ofEvents s (seen.map Sighting.event) = .ok o ∧ o.size = starts.length ∧
      ∃ stop : Nat → Nat, ∀ i, i < starts.length →
        o.extentOf i = some ⟨startAt starts i, stop i⟩ ∧
        (stop i = s.size ∨ Meets (startAt starts) starts.length i (stop i)) ∧
        Confined (startAt starts) starts.length i (stop i) := by
  have hlength : starts.length = seen.length := by simp [hstarts]
  obtain ⟨b, hrun, harrived, hsize⟩ := (Arrived.init (startAt starts) s).run seen
    (by
      intro k x hx
      simp [Builder.init, startAt, hstarts, hx])
    (by
      intro i j hij hj
      exact startAt_ne hdistinct hij (by simpa [Builder.init, hlength] using hj))
  have hsource : b.source = s := source_run hrun
  have hnodes : b.nodes.length = starts.length := by simpa [Builder.init, hlength] using hsize
  have hknown : ∀ i, i < starts.length → ∃ stop, _ := fun i hi =>
    harrived.finish
      (by
        intro j hj
        rw [hsource]
        exact hbound _ (startAt_mem (hnodes ▸ hj)))
      (hnodes.symm ▸ hi)
  rw [hnodes, hsource] at hknown
  choose! stop hstop using hknown
  refine ⟨b.finish, ?_, (length_resolvePending b 0 b.source.size).trans hnodes, stop, hstop⟩
  rw [Outline.ofEvents, hrun]
  rfl

/-- Roots that run to the next start lie apart. -/
theorem RunsToNextStart.apart {o : Outline} {size : Nat} {starts : List Nat}
    (h : o.RunsToNextStart size starts) (hsize : o.size = starts.length)
    (hdistinct : starts.Nodup) {i j : Nat} {x y : Extent} (hne : i ≠ j)
    (hx : o.extentOf i = some x) (hy : o.extentOf j = some y) : x.apart y = true := by
  have hi : i < starts.length := hsize ▸ lt_length_of_extentOf hx
  have hj : j < starts.length := hsize ▸ lt_length_of_extentOf hy
  have hxi := h i (startAt starts i) (by simp [startAt, hi])
  have hyj := h j (startAt starts j) (by simp [startAt, hj])
  rw [hx, Option.some.injEq] at hxi
  rw [hy, Option.some.injEq] at hyj
  rw [hxi, hyj]
  rcases Nat.lt_trichotomy (startAt starts i) (startAt starts j) with hlt | heq | hgt
  · simp [Extent.apart, nextStart_le (startAt_mem hj) hlt]
  · exact absurd (startAt_inj hdistinct hi hj heq) hne
  · simp [Extent.apart, nextStart_le (startAt_mem hi) hgt]

/-- Every root runs to the next start exactly in an orderly arrival.  Located roots at distinct
starts make an outline in any order of arrival.  Each of them runs from its own start to the next
one, and the last to the end of the text, if and only if no root comes back before another one that
was passed, and no arrivals make a detour; and then the roots lie apart. -/
theorem runsToNextStart_iff_orderly (s : Source) (seen : List Sighting)
    (hdistinct : (seen.map (Sighting.start s)).Nodup) :
    ∃ o, Outline.ofEvents s (seen.map Sighting.event) = .ok o ∧
      (o.RunsToNextStart s.size (seen.map (Sighting.start s)) ↔
        Orderly (seen.map (Sighting.start s))) ∧
      (Orderly (seen.map (Sighting.start s)) → ∀ i j x y, i ≠ j → o.extentOf i = some x →
        o.extentOf j = some y → x.apart y = true) := by
  generalize hstarts : seen.map (Sighting.start s) = starts at hdistinct ⊢
  have hbound : ∀ y ∈ starts, y ≤ s.size := by
    intro y hy
    rw [← hstarts] at hy
    obtain ⟨x, -, rfl⟩ := List.mem_map.mp hy
    exact Source.clamp_le_size s x.position
  obtain ⟨o, ho, hsize, stop, hstop⟩ := exists_stops s hstarts.symm hdistinct hbound
  have hruns : Orderly starts → o.RunsToNextStart s.size starts := by
    intro horderly i x hx
    have hi : i < starts.length := (List.getElem?_eq_some_iff.mp hx).1
    obtain ⟨hextent, horigin, hconfined⟩ := hstop i hi
    rw [hextent, stop_eq_nextStart horderly hdistinct hbound hi horigin hconfined, startAt_eq hx]
  refine ⟨o, ho, ⟨?_, hruns⟩, ?_⟩
  · intro h
    have hright : ∀ i, i < starts.length →
        stop i = nextStart s.size starts (startAt starts i) := by
      intro i hi
      have hextent := h i (startAt starts i) (by simp [startAt, hi])
      rw [(hstop i hi).1] at hextent
      exact congrArg Extent.stop (Option.some.inj hextent)
    have hreturn := noReturn_of_stops hdistinct hbound (fun i hi => (hstop i hi).2.1) hright
    exact ⟨hreturn, noDetour_of_stops hdistinct hreturn (fun i hi => (hstop i hi).2.2) hright⟩
  · intro horderly i j x y hne hx hy
    exact (hruns horderly).apart hsize hdistinct hne hx hy

/-- Three roots of which the last comes back before the two others. -/
def returningRoots : List Sighting :=
  [5, 8, 2].map fun column => ⟨⟨.rule, "", none, .engine⟩, ⟨0, column⟩⟩

/-- A root that comes back before two others runs into the first of them. -/
theorem not_runsToNextStart_returningRoots :
    ∃ o, Outline.ofEvents ⟨"abcdefghijkl".toList⟩ (returningRoots.map Sighting.event) = .ok o ∧
      o.extentOf 0 = some ⟨5, 8⟩ ∧ o.extentOf 2 = some ⟨2, 8⟩ ∧
      ¬o.RunsToNextStart 12 [5, 8, 2] := by
  obtain ⟨o, ho, hiff, -⟩ := runsToNextStart_iff_orderly ⟨"abcdefghijkl".toList⟩ returningRoots
    (by decide)
  refine ⟨o, ho, ?_, ?_, ?_⟩
  · exact (congrArg (fun r => r.toOption.bind fun o => o.extentOf 0) ho).symm
  · exact (congrArg (fun r => r.toOption.bind fun o => o.extentOf 2) ho).symm
  · intro hruns
    exact absurd (hiff.mp hruns) (by decide)

end Outline
end StyleAtlas
