import StyleAtlas.Proofs.Outline.Ends
import StyleAtlas.Proofs.Outline.Visit
import StyleAtlas.Proofs.Text.Lines

/-!
# Ends filled in later

The builder keeps pending nodes and settles their ends when later nodes close their branches.
When located offsets never go back, this comes to the closed form that reads each extent off the
list of visits.  The invariant of a run is that form for the visits so far, with the end missing
where no visit has closed the node.  It implies that pending nodes of one depth share one start
and that no settled end lies past the last located offset, so that no branch ends early and
nothing is ever cut back.

Main results:

- Definition `Builder.Backfilled`: the invariant.
- Theorem `Builder.Backfilled.visit`: a visit keeps it.
- Theorem `Builder.Backfilled.run`: a run keeps it.
- Theorem `Outline.extentOf_eq_visit_extent`: the extents of a finished outline in closed form.
-/

namespace StyleAtlas
namespace Builder

open Forest Visit

/-- Every node has the start that the visits up to it give, and the end that the visits after it
have settled. -/
structure Backfilled (b : Builder) (seen : List Visit) : Prop where
  length : b.nodes.length = seen.length
  depth : ∀ before v later, seen = before ++ v :: later →
    b.nodes.depthOf before.length = v.depth
  start : ∀ before v later, seen = before ++ v :: later →
    b.nodes.startOf before.length = lastOffset (before ++ [v]) v.depth
  stop : ∀ before v later, seen = before ++ v :: later →
    b.nodes.stopOf before.length = (next? later v.depth).map fun next =>
      max (lastOffset (before ++ [v]) v.depth)
        (Text.closingEnd b.source.chars next.1 (v.depth - next.2))

/-- Nothing is visited and nothing built at first. -/
theorem Backfilled.init (source : Source) : (Builder.init source).Backfilled [] where
  length := rfl
  depth := by simp
  start := by simp
  stop := by simp

/-! ## What the invariant implies -/

section Bounds

variable {b : Builder} {seen : List Visit} {bound : Nat}

/-- No node starts past the located offsets. -/
theorem Backfilled.startOf_le (h : b.Backfilled seen)
    (hbound : ∀ v ∈ seen, ∀ x, v.offset = some x → x ≤ bound) (id : Nat) :
    b.nodes.startOf id ≤ bound := by
  by_cases hid : id < b.nodes.length
  · rw [h.length] at hid
    obtain ⟨before, v, later, hsplit, rfl⟩ := exists_split hid
    rw [h.start before v later hsplit]
    apply lastOffset_le
    intro w hw
    refine hbound w ?_
    rw [hsplit, List.append_cons]
    exact List.mem_append_left later hw
  · simp [startOf, List.getElem?_eq_none (Nat.le_of_not_lt hid)]

/-- No settled end lies past the located offsets. -/
theorem Backfilled.stopOf_le (h : b.Backfilled seen)
    (hbound : ∀ v ∈ seen, ∀ x, v.offset = some x → x ≤ bound) {id stop : Nat}
    (hstop : b.nodes.stopOf id = some stop) : stop ≤ bound := by
  have hid := lt_length_of_stopOf hstop
  rw [h.length] at hid
  obtain ⟨before, v, later, hsplit, rfl⟩ := exists_split hid
  have hstart := h.startOf_le hbound before.length
  rw [h.start before v later hsplit] at hstart
  rw [h.stop before v later hsplit, Option.map_eq_some_iff] at hstop
  obtain ⟨next, hnext, rfl⟩ := hstop
  obtain ⟨first, w, rest, hlater, -, hw, -⟩ := next?_eq_some hnext
  have hoffset : next.1 ≤ bound :=
    hbound w (by simp [hsplit, hlater]) next.1 (offset_of_within? hw).2
  have hclosing : Text.closingEnd b.source.chars next.1 (v.depth - next.2) ≤ next.1 := by
    rw [Text.closingEnd_eq_iterate]
    exact Text.iterate_stepBack_le _ _ _
  omega

/-- A pending node starts at the last located offset of its depth: pending nodes of one depth
share one start. -/
theorem Backfilled.startOf_pending (h : b.Backfilled seen) (hpending : b.PendingExact) {id : Nat}
    (hid : id ∈ b.pending) : b.nodes.startOf id = lastOffset seen (b.nodes.depthOf id) := by
  obtain ⟨hlt, hstop⟩ := (hpending id).mp hid
  rw [h.length] at hlt
  obtain ⟨before, v, later, hsplit, rfl⟩ := exists_split hlt
  rw [h.stop before v later hsplit, Option.map_eq_none_iff, next?_eq_none_iff] at hstop
  rw [h.start before v later hsplit, h.depth before v later hsplit, hsplit,
    ← lastOffset_append hstop]
  simp

/-- Closing branches at a boundary past all offsets gives each pending node from the depth down
the walk back from the boundary itself. -/
theorem Backfilled.settledEnd_eq (h : b.Backfilled seen) (hpending : b.PendingExact)
    (hbound : ∀ v ∈ seen, ∀ x, v.offset = some x → x ≤ bound) (depth id : Nat) :
    b.settledEnd depth bound id =
      if id ∈ b.pending ∧ depth ≤ b.nodes.depthOf id then
        some (Text.closingEnd b.source.chars bound (b.nodes.depthOf id - depth))
      else none := by
  -- Heads share one start, so none of them cuts a branch short.
  have hbranch : ∀ head, b.branchEnd depth bound head = bound := by
    intro head
    unfold branchEnd
    dsimp only
    split
    · rename_i hhead
      have hnone : (((b.pendingAt depth).map b.nodes.startOf).filter
          (b.nodes.startOf head < ·)) = [] := by
        rw [List.filter_eq_nil_iff]
        intro start hstart
        obtain ⟨other, hother, rfl⟩ := List.mem_map.mp hstart
        simp only [pendingAt, List.mem_filter, decide_eq_true_eq] at hhead hother
        rw [h.startOf_pending hpending hhead.1, h.startOf_pending hpending hother.1, hhead.2,
          hother.2]
        simp
      rw [hnone]
      rfl
    · rfl
  unfold settledEnd
  split
  · unfold endFor
    dsimp only
    cases b.nodes.ancestorAt depth id with
    | none => rfl
    | some head =>
        have hle : ¬bound < b.nodes.startOf head := Nat.not_lt.mpr (h.startOf_le hbound head)
        simp only [hle, if_false, hbranch]
  · rfl

/-- Closing branches at a boundary past all offsets settles no end past it. -/
theorem Backfilled.stopOf_resolvePending_le (h : b.Backfilled seen) (hpending : b.PendingExact)
    (hbound : ∀ v ∈ seen, ∀ x, v.offset = some x → x ≤ bound) (depth : Nat) {id stop : Nat}
    (hstop : (b.resolvePending depth bound).nodes.stopOf id = some stop) : stop ≤ bound := by
  have hid := lt_length_of_stopOf hstop
  rw [length_resolvePending] at hid
  rw [Builder.stopOf_resolvePending b depth bound hid, h.settledEnd_eq hpending hbound] at hstop
  split_ifs at hstop
  · have hstart := h.startOf_le hbound id
    have hclosing := Text.iterate_stepBack_le b.source.chars (b.nodes.depthOf id - depth) bound
    rw [← Text.closingEnd_eq_iterate] at hclosing
    simp only [Option.some.injEq] at hstop
    omega
  · exact h.stopOf_le hbound hstop

/-- Closing branches at a boundary past all offsets settles the ends that a located visit at the
boundary settles in closed form. -/
theorem Backfilled.stopOf_resolvePending (h : b.Backfilled seen) (hpending : b.PendingExact)
    (hbound : ∀ v ∈ seen, ∀ x, v.offset = some x → x ≤ bound) (depth : Nat)
    {before later : List Visit} {v : Visit} (hsplit : seen = before ++ v :: later) :
    (b.resolvePending depth bound).nodes.stopOf before.length =
      (next? (later ++ [⟨depth, some bound⟩]) v.depth).map fun next =>
        max (lastOffset (before ++ [v]) v.depth)
          (Text.closingEnd b.source.chars next.1 (v.depth - next.2)) := by
  have hid : before.length < b.nodes.length := by
    rw [h.length, hsplit]
    simp
  have hstop := h.stop before v later hsplit
  have hmem := hpending before.length
  rw [Builder.stopOf_resolvePending b depth bound hid, h.settledEnd_eq hpending hbound,
    h.depth before v later hsplit, h.start before v later hsplit, next?_append]
  cases hnext : next? later v.depth with
  | some next =>
      rw [hnext] at hstop
      have hsettled : before.length ∉ b.pending := by simp [hmem, hstop]
      simp [hsettled, hstop]
  | none =>
      rw [hnext] at hstop
      have hopen : before.length ∈ b.pending := hmem.mpr ⟨hid, hstop⟩
      by_cases hdepth : depth ≤ v.depth
      · simp [hopen, hdepth, next?, within?]
      · simp [hopen, hstop, hdepth, next?, within?]

end Bounds

/-! ## Starts of new nodes -/

section Starts

variable {b : Builder} {seen : List Visit}

/-- The parent of a new node starts no later than the last located offset. -/
theorem Backfilled.floor_le (h : b.Backfilled seen) (hshape : b.Shaped) (hasc : Ascending seen) :
    b.floor ≤ lastOffset seen b.depth := by
  unfold floor
  cases hcurrent : b.current with
  | none => simp
  | some parent =>
      have hlt := hshape.stack_lt parent (List.mem_of_mem_head? hcurrent)
      rw [h.length] at hlt
      obtain ⟨before, v, later, hsplit, rfl⟩ := exists_split hlt
      have hdepth := hshape.depthOf_current hcurrent
      rw [h.depth before v later hsplit] at hdepth
      have hall : seen = (before ++ [v]) ++ later := by simpa using hsplit
      dsimp only
      rw [h.start before v later hsplit, hall]
      rw [hall] at hasc
      exact lastOffset_mono hasc (by omega)

/-- A node of a depth is pending while no located visit at that depth or above follows it. -/
theorem Backfilled.depth_ne (h : b.Backfilled seen) (hpending : b.PendingExact) {depth : Nat}
    (hnone : b.pendingAt depth = []) {before later : List Visit} {v : Visit}
    (hsplit : seen = before ++ v :: later) (hlater : ∀ w ∈ later, w.within? depth = none) :
    v.depth ≠ depth := by
  rintro rfl
  have hid : before.length < b.nodes.length := by
    rw [h.length, hsplit]
    simp
  have hstop : b.nodes.stopOf before.length = none := by
    rw [h.stop before v later hsplit, next?_eq_none_iff.mpr hlater, Option.map_none]
  have hmem : before.length ∈ b.pendingAt v.depth := by
    simp only [pendingAt, List.mem_filter, decide_eq_true_eq]
    exact ⟨(hpending before.length).mpr ⟨hid, hstop⟩, h.depth before v later hsplit⟩
  rw [hnone] at hmem
  simp at hmem

/-- Where no node of the depth is pending, the parent starts at the last located offset. -/
theorem Backfilled.startOf_current (h : b.Backfilled seen) (hshape : b.Shaped)
    (hpending : b.PendingExact) (hnone : b.pendingAt b.depth = []) {parent : Nat}
    (hcurrent : b.current = some parent) :
    b.nodes.startOf parent = lastOffset seen b.depth := by
  have hmem : parent ∈ b.stack := List.mem_of_mem_head? hcurrent
  have hlt := hshape.stack_lt parent hmem
  have hdepth := hshape.depthOf_current hcurrent
  have hdeeper := hshape.stack_later parent hmem
  rw [h.length] at hlt
  obtain ⟨before, v, later, hsplit, rfl⟩ := exists_split hlt
  rw [h.depth before v later hsplit] at hdepth hdeeper
  -- What follows the parent lies deeper than it.
  have hlater : ∀ w ∈ later, w.within? v.depth = none := by
    intro w hw
    obtain ⟨first, rest, hfirst⟩ := List.append_of_mem hw
    have hw' : seen = (before ++ v :: first) ++ w :: rest := by simp [hsplit, hfirst]
    have hlt : (before ++ v :: first).length < b.nodes.length := by
      rw [h.length, hw']
      simp
    have := hdeeper _ (by simp) hlt
    rw [h.depth _ w rest hw'] at this
    simp [within?, Nat.not_le.mpr this]
  have hparent : lastOffset seen v.depth = lastOffset (before ++ [v]) v.depth := by
    rw [hsplit, List.append_cons, lastOffset_append hlater]
  rw [h.start before v later hsplit, ← hparent, hdepth]
  -- The last located visit at the depth or above cannot be at the depth itself.
  rcases lastOffset_cases seen (v.depth + 1) with ⟨hno, hzero⟩ |
    ⟨first, w, rest, hw, hwithin, hrest⟩
  · rw [hzero]
    exact lastOffset_eq_zero fun w hw => within?_eq_none_of_le (Nat.le_succ v.depth) (hno w hw)
  · have hne := h.depth_ne hpending hnone hw (by rwa [hdepth])
    obtain ⟨hle, hoffset⟩ := offset_of_within? hwithin
    have hwithin' : w.within? v.depth = some (lastOffset seen (v.depth + 1)) := by
      rw [← hoffset]
      exact if_pos (by omega)
    have hrest' : ∀ u ∈ rest, u.within? v.depth = none :=
      fun u hu => within?_eq_none_of_le (Nat.le_succ v.depth) (hrest u hu)
    conv_lhs => rw [hw, List.append_cons, lastOffset_append hrest', lastOffset_concat hwithin']

/-- Where no root is pending, no root was located. -/
theorem Backfilled.within?_zero_eq_none (h : b.Backfilled seen) (hpending : b.PendingExact)
    (hnone : b.pendingAt 0 = []) : ∀ v ∈ seen, v.within? 0 = none := by
  rcases lastOffset_cases seen 0 with ⟨hno, -⟩ | ⟨before, v, later, hsplit, hv, hlater⟩
  · exact hno
  · have hle := (offset_of_within? hv).1
    exact absurd (Nat.le_zero.mp hle) (h.depth_ne hpending hnone hsplit hlater)

/-- Roots start at zero while none is located. -/
theorem Backfilled.startOf_root (h : b.Backfilled seen) (hshape : b.Shaped)
    (hno : ∀ v ∈ seen, v.within? 0 = none) {id : Nat} (hid : id < b.nodes.length)
    (hparent : b.nodes.parentOf id = none) : b.nodes.startOf id = 0 := by
  have hdepth := hshape.root_depth id hid hparent
  rw [h.length] at hid
  obtain ⟨before, v, later, hsplit, rfl⟩ := exists_split hid
  rw [h.depth before v later hsplit] at hdepth
  rw [h.start before v later hsplit, hdepth]
  apply lastOffset_eq_zero
  intro w hw
  refine hno w ?_
  rw [hsplit, List.append_cons]
  exact List.mem_append_left later hw

/-- A node that was not located starts at the last located offset at its depth or above. -/
theorem Backfilled.inheritedStart_eq (h : b.Backfilled seen) (hshape : b.Shaped)
    (hpending : b.PendingExact) : b.inheritedStart = lastOffset seen b.depth := by
  unfold inheritedStart
  cases hsibling : (b.pendingAt b.depth).getLast? with
  | some sibling =>
      have hmem := List.mem_of_getLast? hsibling
      simp only [pendingAt, List.mem_filter, decide_eq_true_eq] at hmem
      dsimp only
      rw [h.startOf_pending hpending hmem.1, hmem.2]
  | none =>
      have hnone := List.getLast?_eq_none_iff.mp hsibling
      cases hcurrent : b.current with
      | some parent => exact h.startOf_current hshape hpending hnone hcurrent
      | none =>
          have hdepth : b.depth = 0 := by
            rw [Builder.depth, List.head?_eq_none_iff.mp hcurrent, List.length_nil]
          rw [hdepth] at hnone ⊢
          have hno := h.within?_zero_eq_none hpending hnone
          rw [lastOffset_eq_zero hno]
          dsimp only
          cases hroot : (b.nodes.under none).getLast? with
          | none => rfl
          | some root =>
              obtain ⟨hlt, hparent⟩ := mem_under.mp (List.mem_of_getLast? hroot)
              exact h.startOf_root hshape hno hlt hparent

/-- A new node starts at the last located offset at its depth or above, its own included. -/
theorem Backfilled.startFor_eq (h : b.Backfilled seen) (hshape : b.Shaped)
    (hpending : b.PendingExact) (payload : Payload)
    (hasc : Ascending (seen ++ [⟨b.depth, payload.offset b.source⟩])) :
    b.startFor payload =
      lastOffset (seen ++ [⟨b.depth, payload.offset b.source⟩]) b.depth := by
  have hfloor := h.floor_le hshape hasc.left
  unfold startFor
  cases hlocation : payload.location with
  | none =>
      have hoffset : payload.offset b.source = none := by simp [Payload.offset, hlocation]
      rw [hoffset, lastOffset_append (by simp [within?])]
      dsimp only
      rw [h.inheritedStart_eq hshape hpending]
      omega
  | some location =>
      have hoffset : payload.offset b.source = some (b.source.clamp location.position) := by
        simp [Payload.offset, hlocation]
      have hwithin : within? b.depth ⟨b.depth, payload.offset b.source⟩ =
          some (b.source.clamp location.position) := by
        simp [within?, hoffset]
      have hgrow := lastOffset_mono hasc (Nat.le_refl b.depth)
      rw [lastOffset_concat hwithin] at hgrow ⊢
      dsimp only
      omega

end Starts

/-! ## A visit keeps the invariant -/

section Steps

variable {b : Builder} {seen : List Visit}

/-- Closing branches before a new node settles the ends that its visit settles in closed form. -/
theorem Backfilled.stopOf_closeBefore (h : b.Backfilled seen) (hshape : b.Shaped)
    (hpending : b.PendingExact) (payload : Payload)
    (hasc : Ascending (seen ++ [⟨b.depth, payload.offset b.source⟩]))
    {before later : List Visit} {v : Visit} (hsplit : seen = before ++ v :: later) :
    (b.closeBefore payload).nodes.stopOf before.length =
      (next? (later ++ [⟨b.depth, payload.offset b.source⟩]) v.depth).map fun next =>
        max (lastOffset (before ++ [v]) v.depth)
          (Text.closingEnd b.source.chars next.1 (v.depth - next.2)) := by
  have hstart := h.startFor_eq hshape hpending payload hasc
  unfold closeBefore
  cases hlocation : payload.location with
  | none =>
      have hoffset : payload.offset b.source = none := by simp [Payload.offset, hlocation]
      rw [hoffset, next?_append, h.stop before v later hsplit]
      simp [next?, within?]
  | some location =>
      have hoffset : payload.offset b.source = some (b.source.clamp location.position) := by
        simp [Payload.offset, hlocation]
      have hwithin : within? b.depth ⟨b.depth, some (b.source.clamp location.position)⟩ =
          some (b.source.clamp location.position) := by
        simp [within?]
      rw [hoffset] at hstart hasc ⊢
      rw [lastOffset_concat hwithin] at hstart
      have hbound : ∀ w ∈ seen, ∀ x, w.offset = some x → x ≤ b.startFor payload := by
        intro w hw x hx
        rw [hstart]
        exact hasc.le_of_mem hw hx (List.mem_singleton_self _) rfl
      dsimp only
      -- All ends that are settled by now lie at or before the new start, so none is cut back.
      rw [trim_eq_self fun id stop => h.stopOf_resolvePending_le hpending hbound b.depth,
        h.stopOf_resolvePending hpending hbound b.depth hsplit, hstart]

/-- A visit keeps the invariant. -/
theorem Backfilled.visit (h : b.Backfilled seen) (hshape : b.Shaped) (hpending : b.PendingExact)
    (kind : Kind) (payload : Payload)
    (hasc : Ascending (seen ++ [⟨b.depth, payload.offset b.source⟩])) :
    (b.visit kind payload).Backfilled (seen ++ [⟨b.depth, payload.offset b.source⟩]) := by
  have hskeleton := skeleton_visit b kind payload
  have hold : ∀ before v later, seen = before ++ v :: later →
      before.length < b.nodes.skeleton.length := by
    intro before v later hsplit
    rw [length_skeleton, h.length, hsplit]
    simp
  constructor
  · simp [h.length]
  · intro before v later hsplit
    rw [← depthOf_skeleton, hskeleton]
    rcases split_concat hsplit with ⟨rfl, rfl, rfl⟩ | ⟨rest, rfl, hseen⟩
    · rw [← h.length, ← length_skeleton, depthOf_append_length]
    · rw [depthOf_append (hold before v rest hseen), depthOf_skeleton, h.depth before v rest hseen]
  · intro before v later hsplit
    rw [← startOf_skeleton, hskeleton]
    rcases split_concat hsplit with ⟨rfl, rfl, rfl⟩ | ⟨rest, rfl, hseen⟩
    · rw [← h.length, ← length_skeleton, startOf_append_length]
      exact h.startFor_eq hshape hpending payload hasc
    · rw [startOf_append (hold before v rest hseen), startOf_skeleton, h.start before v rest hseen]
  · intro before v later hsplit
    rw [visit_source, visit_eq, append]
    rcases split_concat hsplit with ⟨rfl, rfl, rfl⟩ | ⟨rest, rfl, hseen⟩
    · rw [← h.length, ← length_closeBefore b payload, stopOf_append_length]
      simp [next?]
    · have hlt := hold before v rest hseen
      rw [length_skeleton, ← length_closeBefore b payload] at hlt
      rw [stopOf_append hlt, h.stopOf_closeBefore hshape hpending payload hasc hseen]

/-- An accepted event keeps the invariant: what it visits is added to the visits. -/
theorem Backfilled.push {b' : Builder} (h : b.Backfilled seen) (hshape : b.Shaped)
    (hpending : b.PendingExact) {event : Event} {events : List Event} {id : Nat}
    (hpush : b.push event = .ok (id, b'))
    (hasc : Ascending (seen ++ ofEvents b.source b.depth (event :: events))) :
    ∃ visited, b'.Backfilled (seen ++ visited) ∧
      seen ++ ofEvents b.source b.depth (event :: events) =
        (seen ++ visited) ++ ofEvents b'.source b'.depth events := by
  rcases push_cases hpush with ⟨kind, payload, rfl, -, rfl⟩ | ⟨kind, payload, rfl, rfl⟩ |
    ⟨kind, top, rest, rfl, hstack, rfl⟩
  · rw [ofEvents, List.append_cons] at hasc
    have hvisit := h.visit hshape hpending kind payload hasc.left
    refine ⟨_, ⟨hvisit.length, hvisit.depth, hvisit.start, hvisit.stop⟩, ?_⟩
    simp [ofEvents, Builder.depth]
  · rw [ofEvents, List.append_cons] at hasc
    refine ⟨_, h.visit hshape hpending kind payload hasc.left, ?_⟩
    simp [ofEvents, Builder.depth]
  · refine ⟨[], ?_, ?_⟩
    · rw [List.append_nil]
      exact ⟨h.length, h.depth, h.start, h.stop⟩
    · simp [ofEvents, Builder.depth, hstack]

/-- A run keeps the invariant. -/
theorem Backfilled.run {b' : Builder} {events : List Event} (h : b.Backfilled seen)
    (hshape : b.Shaped) (hpending : b.PendingExact) (hrun : b.run events = .ok b')
    (hasc : Ascending (seen ++ ofEvents b.source b.depth events)) :
    b'.Backfilled (seen ++ ofEvents b.source b.depth events) := by
  induction events generalizing b seen with
  | nil =>
      simp only [Builder.run, List.foldlM_nil] at hrun
      cases hrun
      simpa [ofEvents] using h
  | cons event events ih =>
      obtain ⟨id, mid, hpush, hrest⟩ := run_cons hrun
      obtain ⟨visited, hmid, hvisits⟩ := h.push hshape hpending hpush hasc
      rw [hvisits] at hasc ⊢
      exact ih hmid (hshape.push hpush) (hpending.push hpush) hrest hasc

end Steps

end Builder

/-! ## Finished outlines -/

namespace Outline

open Visit

/-- The nodes of an outline have the depths of the visits, and the extents in closed form. -/
structure Traces (o : Outline) (s : Source) (visits : List Visit) : Prop where
  size : o.size = visits.length
  depth : ∀ before v later, visits = before ++ v :: later →
    o.nodes.depthOf before.length = v.depth
  extent : ∀ before v later, visits = before ++ v :: later →
    o.extentOf before.length = some (Visit.extent s before v later)

end Outline

/-- Closing what is still pending at the end of the text completes the closed form. -/
theorem Builder.Backfilled.finish {b : Builder} {seen : List Visit} (h : b.Backfilled seen)
    (hpending : b.PendingExact)
    (hbound : ∀ v ∈ seen, ∀ x, v.offset = some x → x ≤ b.source.size) :
    b.finish.Traces b.source seen := by
  have hnodes : b.finish.nodes = (b.resolvePending 0 b.source.size).nodes := rfl
  constructor
  · rw [Outline.size, hnodes, Builder.length_resolvePending, h.length]
  · intro before v later hsplit
    rw [hnodes, Builder.depthOf_resolvePending, h.depth before v later hsplit]
  · intro before v later hsplit
    have hstop := h.stopOf_resolvePending hpending hbound 0 hsplit
    rw [Visit.next?_append] at hstop
    have hclosing := Visit.closing_eq_closingEnd b.source later v.depth
    cases hnext : Visit.next? later v.depth with
    | some next =>
        rw [hnext] at hstop hclosing
        rw [Outline.extentOf_eq (hnodes ▸ hstop), hnodes, Builder.startOf_resolvePending,
          h.start before v later hsplit, Visit.extent, hclosing]
    | none =>
        rw [hnext] at hstop hclosing
        have hlast : Visit.next? [⟨0, some b.source.size⟩] v.depth = some (b.source.size, 0) := by
          simp [Visit.next?, Visit.within?]
        rw [hlast] at hstop
        rw [Outline.extentOf_eq (hnodes ▸ hstop), hnodes, Builder.startOf_resolvePending,
          h.start before v later hsplit, Visit.extent, hclosing]
        rfl

/-- Located offsets are offsets of the text. -/
theorem Visit.offset_le_size {s : Source} {depth : Nat} {events : List Event} {v : Visit}
    (hv : v ∈ Visit.ofEvents s depth events) {offset : Nat} (h : v.offset = some offset) :
    offset ≤ s.size := by
  have hpayload : ∀ payload : Payload, payload.offset s = some offset → offset ≤ s.size := by
    intro payload hoffset
    obtain ⟨location, -, rfl⟩ := Option.map_eq_some_iff.mp hoffset
    exact s.clamp_le_size _
  induction events generalizing depth with
  | nil => simp [ofEvents] at hv
  | cons event events ih =>
      cases event with
      | enter kind payload =>
          rcases List.mem_cons.mp hv with rfl | hv
          · exact hpayload payload h
          · exact ih hv
      | leaf kind payload =>
          rcases List.mem_cons.mp hv with rfl | hv
          · exact hpayload payload h
          · exact ih hv
      | exit kind => exact ih hv

namespace Outline

open Visit

variable {s : Source} {events : List Event} {o : Outline}

/-- The outline of a stream whose offsets ascend traces its visits. -/
theorem traces_of_ofEvents (h : Outline.ofEvents s events = .ok o)
    (hasc : Ascending (Visit.ofEvents s 0 events)) : o.Traces s (Visit.ofEvents s 0 events) := by
  obtain ⟨b, hrun, rfl⟩ := exists_run_of_ofEvents h
  have hbackfilled := (Builder.Backfilled.init s).run (Builder.Shaped.init s)
    (Builder.PendingExact.init s) hrun hasc
  have hpending := (Builder.PendingExact.init s).run hrun
  have hsource : b.source = s := Builder.source_run hrun
  have hfinish := hbackfilled.finish hpending (by
    intro v hv x hx
    rw [hsource]
    exact offset_le_size hv hx)
  rwa [hsource] at hfinish

/-- The extents of a finished outline in closed form.  Whenever located offsets never go back,
the outline has one node for each visit, and a node runs from the last located offset at its depth
or above to where the walk back from the next located offset at its depth or above leads. -/
theorem extentOf_eq_visit_extent (h : Outline.ofEvents s events = .ok o)
    (hasc : Ascending (Visit.ofEvents s 0 events)) :
    o.size = (Visit.ofEvents s 0 events).length ∧
      ∀ before v later, Visit.ofEvents s 0 events = before ++ v :: later →
        o.nodes.depthOf before.length = v.depth ∧
          o.extentOf before.length = some (Visit.extent s before v later) := by
  have htraces := traces_of_ofEvents h hasc
  refine ⟨htraces.size, ?_⟩
  intro before v later hsplit
  exact ⟨htraces.depth before v later hsplit, htraces.extent before v later hsplit⟩

/-- Two containers that stay open, the inner one not located, around a leaf. -/
def openContainers : List Event :=
  [.enter .rule (.seenAt 0 0), .enter .declaration .unseen, .leaf .color (.seenAt 0 7)]

/-- The walk back from the end of the text steps over one visible character for each of the two
levels above the leaf. -/
theorem extentOf_eq_visit_extent_openContainers :
    ∃ o, Outline.ofEvents ⟨"a ( b: é ))".toList⟩ openContainers = .ok o ∧
      Ascending (Visit.ofEvents ⟨"a ( b: é ))".toList⟩ 0 openContainers) ∧
      o.nodes.depthOf 2 = 2 ∧ o.extentOf 2 = some ⟨7, 9⟩ := by
  have hasc : Ascending (Visit.ofEvents ⟨"a ( b: é ))".toList⟩ 0 openContainers) := by decide
  refine ⟨_, rfl, hasc, ?_⟩
  exact (extentOf_eq_visit_extent rfl hasc).2 [⟨0, some 0⟩, ⟨1, none⟩] ⟨2, some 7⟩ [] rfl

end Outline
end StyleAtlas
