import StyleAtlas.Proofs.Outline.Ends
import StyleAtlas.Proofs.Text.Boundary

/-!
# Starts and ends are places of the text

Events may be fed in any order and with any places, and some of them are refused.  A refused event
leaves the builder as it was, so whatever accepted events keep holds after every stream.  One such
property is that all starts and settled ends are boundaries of the text, that no node ends before
its start, and that none starts before its parent.  Since no start lies past the end of the text,
nothing is left pending when a builder is finished.

Main results:

- Definitions `Builder.feed`, `Builder.feedAll`: streams of which some events may be refused.
- Theorem `Builder.feedAll_induction`: what accepted events keep holds after every stream.
- Definition `Builder.Grounded`, Theorem `Builder.Grounded.feedAll`: the invariant.
- Theorem `Builder.exists_stopOf_finish`: a finished outline has no pending node.
-/

namespace StyleAtlas
namespace Builder

open Forest Text

/-! ## Streams with refused events -/

/-- Feed an event; one that is refused leaves the builder as it was. -/
def feed (b : Builder) (event : Event) : Builder :=
  match b.push event with
  | .ok answer => answer.2
  | .error _ => b

/-- Feed a stream of events, of which some may be refused. -/
def feedAll (b : Builder) (events : List Event) : Builder :=
  events.foldl feed b

@[simp]
theorem feedAll_nil (b : Builder) : b.feedAll [] = b :=
  rfl

/-- The first event of a stream is fed first. -/
@[simp]
theorem feedAll_cons (b : Builder) (event : Event) (events : List Event) :
    b.feedAll (event :: events) = (b.feed event).feedAll events :=
  rfl

/-- The last event of a stream is fed last. -/
@[simp]
theorem feedAll_concat (b : Builder) (events : List Event) (event : Event) :
    b.feedAll (events ++ [event]) = (b.feedAll events).feed event := by
  simp [feedAll]

/-- An event is refused, or leads to the builder that it is accepted with. -/
theorem feed_cases (b : Builder) (event : Event) :
    b.feed event = b ∨ ∃ id, b.push event = .ok (id, b.feed event) := by
  unfold feed
  cases hpush : b.push event with
  | error e => exact Or.inl rfl
  | ok answer => exact Or.inr ⟨answer.1, rfl⟩

/-- What accepted events keep holds after every stream. -/
theorem feedAll_induction {P : Builder → Prop}
    (hpush : ∀ b b' event id, P b → b.push event = .ok (id, b') → P b') {b : Builder} (h : P b)
    (events : List Event) : P (b.feedAll events) := by
  induction events generalizing b with
  | nil => exact h
  | cons event events ih =>
      apply ih
      rcases feed_cases b event with hsame | ⟨id, hfed⟩
      · rwa [hsame]
      · exact hpush b _ event id h hfed

/-- A stream that is accepted as a whole is fed event by event. -/
theorem feedAll_of_run {b b' : Builder} {events : List Event} (h : b.run events = .ok b') :
    b.feedAll events = b' := by
  induction events generalizing b with
  | nil =>
      simp only [run, List.foldlM_nil] at h
      cases h
      rfl
  | cons event events ih =>
      obtain ⟨id, mid, hpush, hrest⟩ := run_cons h
      rw [feedAll_cons, feed, hpush]
      exact ih hrest

/-- A stream of events leaves the source. -/
@[simp]
theorem source_feedAll (b : Builder) (events : List Event) :
    (b.feedAll events).source = b.source := by
  refine feedAll_induction (P := fun b' => b'.source = b.source) ?_ rfl events
  intro b₁ b₂ event id hsource hpush
  rcases push_cases hpush with ⟨kind, payload, -, -, rfl⟩ | ⟨kind, payload, -, rfl⟩ |
    ⟨kind, top, rest, -, -, rfl⟩
  · rw [← hsource]
    exact visit_source b₁ kind payload
  · rw [visit_source, hsource]
  · exact hsource

/-- A stream of events keeps the shape, whichever of its events are refused. -/
theorem Shaped.feedAll {b : Builder} (h : b.Shaped) (events : List Event) :
    (b.feedAll events).Shaped :=
  feedAll_induction (fun _ _ _ _ h hpush => Shaped.push h hpush) h events

/-- A stream of events keeps exactly the nodes without an end pending. -/
theorem PendingExact.feedAll {b : Builder} (h : b.PendingExact) (events : List Event) :
    (b.feedAll events).PendingExact :=
  feedAll_induction (fun _ _ _ _ h hpush => PendingExact.push h hpush) h events

/-! ## The invariant -/

/-- Starts and settled ends are boundaries of the text, no node ends before its start, and none
starts before its parent. -/
structure Grounded (b : Builder) : Prop where
  start : ∀ id, isBoundary b.source.chars (b.nodes.startOf id) = true
  stop : ∀ id stop, b.nodes.stopOf id = some stop → isBoundary b.source.chars stop = true
  ordered : ∀ id stop, b.nodes.stopOf id = some stop → b.nodes.startOf id ≤ stop
  above : ∀ id parent, b.nodes.parentOf id = some parent →
    b.nodes.startOf parent ≤ b.nodes.startOf id

/-- There are no places at first. -/
theorem Grounded.init (source : Source) : (Builder.init source).Grounded where
  start := by simp [Builder.init, startOf]
  stop := by simp [Builder.init, stopOf]
  ordered := by simp [Builder.init, stopOf]
  above := by simp [Builder.init, parentOf]

section Steps

variable {b : Builder}

/-- A change of ends keeps the invariant where the new ends are boundaries past their starts. -/
theorem Grounded.of_skeleton {b' : Builder} (h : b.Grounded) (hsource : b'.source = b.source)
    (hskeleton : b'.nodes.skeleton = b.nodes.skeleton)
    (hstop : ∀ id stop, b'.nodes.stopOf id = some stop →
      isBoundary b.source.chars stop = true ∧ b.nodes.startOf id ≤ stop) : b'.Grounded := by
  have hstart : ∀ id, b'.nodes.startOf id = b.nodes.startOf id := by
    intro id
    rw [← startOf_skeleton, hskeleton, startOf_skeleton]
  constructor
  · intro id
    rw [hsource, hstart]
    exact h.start id
  · intro id stop hid
    rw [hsource]
    exact (hstop id stop hid).1
  · intro id stop hid
    rw [hstart]
    exact (hstop id stop hid).2
  · intro id parent hparent
    rw [← parentOf_skeleton, hskeleton, parentOf_skeleton] at hparent
    rw [hstart, hstart]
    exact h.above id parent hparent

/-- A branch closes at a boundary when it is closed at one. -/
theorem Grounded.isBoundary_branchEnd (h : b.Grounded) {boundary : Nat}
    (hboundary : isBoundary b.source.chars boundary = true) (depth head : Nat) :
    isBoundary b.source.chars (b.branchEnd depth boundary head) = true := by
  unfold branchEnd
  dsimp only
  split
  · cases hnext : (((b.pendingAt depth).map b.nodes.startOf).filter
        (b.nodes.startOf head < ·)).min? with
    | none => exact hboundary
    | some next =>
        -- The least larger start is the start of some pending node.
        have hmem := (List.mem_filter.mp (List.min?_mem hnext)).1
        obtain ⟨other, -, rfl⟩ := List.mem_map.mp hmem
        exact isBoundary_min (h.start other) hboundary
  · exact hboundary

/-- The ends that closing branches at a boundary settles are boundaries. -/
theorem Grounded.isBoundary_settledEnd (h : b.Grounded) {depth boundary id stop : Nat}
    (hboundary : isBoundary b.source.chars boundary = true)
    (hstop : b.settledEnd depth boundary id = some stop) :
    isBoundary b.source.chars stop = true := by
  unfold settledEnd at hstop
  split at hstop
  · unfold endFor at hstop
    dsimp only at hstop
    split at hstop
    · rw [← Option.some.inj hstop]
      exact isBoundary_closingEnd hboundary _
    · split at hstop
      · simp at hstop
      · rw [← Option.some.inj hstop]
        exact isBoundary_closingEnd (h.isBoundary_branchEnd hboundary _ _) _
  · simp at hstop

/-- Branches that close at a boundary of the text end at boundaries. -/
theorem Grounded.resolvePending (h : b.Grounded) {boundary : Nat}
    (hboundary : isBoundary b.source.chars boundary = true) (depth : Nat) :
    (b.resolvePending depth boundary).Grounded := by
  refine Grounded.of_skeleton h rfl (skeleton_resolvePending b depth boundary) ?_
  intro id stop hid
  have hlt := lt_length_of_stopOf hid
  rw [length_resolvePending] at hlt
  rw [stopOf_resolvePending b depth boundary hlt] at hid
  cases hsettled : b.settledEnd depth boundary id with
  | none =>
      rw [hsettled] at hid
      exact ⟨h.stop id stop hid, h.ordered id stop hid⟩
  | some settled =>
      rw [hsettled] at hid
      obtain rfl := Option.some.inj hid
      exact ⟨isBoundary_max (h.start id) (h.isBoundary_settledEnd hboundary hsettled),
        Nat.le_max_left _ _⟩

/-- Nodes that are cut back to a boundary of the text end there. -/
theorem Grounded.trim (h : b.Grounded) {place : Nat}
    (hplace : isBoundary b.source.chars place = true) (parent : Option Nat) :
    (b.trim parent place).Grounded := by
  refine Grounded.of_skeleton h rfl (skeleton_trim b parent place) ?_
  intro id stop hid
  rw [stopOf_trim] at hid
  cases hold : b.nodes.stopOf id with
  | none => simp [hold] at hid
  | some old =>
      rw [hold] at hid
      dsimp only at hid
      split at hid
      · obtain rfl := Option.some.inj hid
        exact ⟨isBoundary_max (h.start id) hplace, Nat.le_max_left _ _⟩
      · obtain rfl := Option.some.inj hid
        exact ⟨h.stop id old hold, h.ordered id old hold⟩

/-- The least start of a new node is a boundary. -/
theorem Grounded.isBoundary_floor (h : b.Grounded) :
    isBoundary b.source.chars b.floor = true := by
  unfold floor
  cases b.current with
  | none => simp
  | some parent => exact h.start parent

/-- The start that a node inherits is a boundary. -/
theorem Grounded.isBoundary_inheritedStart (h : b.Grounded) :
    isBoundary b.source.chars b.inheritedStart = true := by
  unfold inheritedStart
  cases (b.pendingAt b.depth).getLast? with
  | some sibling => exact h.start sibling
  | none =>
      cases b.current with
      | some parent => exact h.start parent
      | none =>
          dsimp only
          cases (b.nodes.under none).getLast? with
          | some root => exact h.start root
          | none => simp

/-- A new node starts at a boundary, wherever it was seen. -/
theorem Grounded.isBoundary_startFor (h : b.Grounded) (payload : Payload) :
    isBoundary b.source.chars (b.startFor payload) = true := by
  unfold startFor
  cases payload.location with
  | some location => exact isBoundary_max (b.source.isBoundary_clamp _) h.isBoundary_floor
  | none => exact isBoundary_max h.isBoundary_inheritedStart h.isBoundary_floor

/-- A new node starts no earlier than its parent. -/
theorem floor_le_startFor (b : Builder) (payload : Payload) :
    b.floor ≤ b.startFor payload := by
  unfold startFor
  cases payload.location <;> exact Nat.le_max_right _ _

/-- Closing the branches before a new node gives boundaries as ends. -/
theorem Grounded.closeBefore (h : b.Grounded) (payload : Payload) :
    (b.closeBefore payload).Grounded := by
  have hstart := h.isBoundary_startFor payload
  unfold Builder.closeBefore
  cases payload.location with
  | none => exact h
  | some location => exact (h.resolvePending hstart b.depth).trim hstart b.current

/-- A new node may start at any boundary from the start of its parent on. -/
theorem Grounded.append (h : b.Grounded) (hshape : b.Shaped) (kind : Kind) (payload : Payload)
    {start : Nat} (hstart : isBoundary b.source.chars start = true) (hfloor : b.floor ≤ start) :
    (b.append kind payload start).Grounded := by
  have hold : ∀ id, id < b.nodes.length →
      (b.append kind payload start).nodes.startOf id = b.nodes.startOf id :=
    fun id hid => startOf_append hid _
  have hnew : (b.append kind payload start).nodes.startOf b.nodes.length = start :=
    startOf_append_length _ _
  have hlength : (b.append kind payload start).nodes.length = b.nodes.length + 1 := by
    simp [Builder.append]
  have hstop : ∀ id stop, (b.append kind payload start).nodes.stopOf id = some stop →
      id < b.nodes.length ∧ b.nodes.stopOf id = some stop := by
    intro id stop hid
    have hlt := lt_length_of_stopOf hid
    rcases Nat.lt_or_ge id b.nodes.length with hid' | hid'
    · exact ⟨hid', by rwa [← stopOf_append hid']⟩
    · obtain rfl : id = b.nodes.length := by omega
      simp [Builder.append] at hid
  constructor
  · intro id
    rcases Nat.lt_trichotomy id b.nodes.length with hlt | rfl | hgt
    · rw [hold id hlt]
      exact h.start id
    · rwa [hnew]
    · have hnone : (b.append kind payload start).nodes[id]? = none :=
        List.getElem?_eq_none (by omega)
      simp [startOf, hnone]
  · intro id stop hid
    exact h.stop id stop (hstop id stop hid).2
  · intro id stop hid
    obtain ⟨hlt, hid⟩ := hstop id stop hid
    rw [hold id hlt]
    exact h.ordered id stop hid
  · intro id parent hparent
    have hlt := lt_length_of_parentOf hparent
    rcases Nat.lt_or_ge id b.nodes.length with hid | hid
    · have hparent' : b.nodes.parentOf id = some parent := by
        rwa [← parentOf_append hid]
      rw [hold id hid, hold parent (Nat.lt_trans (hshape.encloses id parent hparent').lt hid)]
      exact h.above id parent hparent'
    · -- The new node lies in the innermost open container, whose start is the floor.
      obtain rfl : id = b.nodes.length := by omega
      have hcurrent : b.current = some parent := by
        rwa [Builder.append, parentOf_append_length] at hparent
      have hparentLt := hshape.stack_lt parent (List.mem_of_mem_head? hcurrent)
      rw [hnew, hold parent hparentLt]
      simpa [floor, hcurrent] using hfloor

/-- A visit keeps all places at boundaries. -/
theorem Grounded.visit (h : b.Grounded) (hshape : b.Shaped) (kind : Kind) (payload : Payload) :
    (b.visit kind payload).Grounded := by
  rw [visit_eq]
  apply (h.closeBefore payload).append
  · exact hshape.of_skeleton (skeleton_closeBefore b payload) (closeBefore_stack b payload)
  · rw [closeBefore_source]
    exact h.isBoundary_startFor payload
  · have hfloor : (b.closeBefore payload).floor = b.floor := by
      simp only [floor, current, closeBefore_stack]
      cases b.stack.head? with
      | none => rfl
      | some parent =>
          dsimp only
          rw [← startOf_skeleton, skeleton_closeBefore, startOf_skeleton]
    rw [hfloor]
    exact floor_le_startFor b payload

/-- An accepted event keeps the invariant. -/
theorem Grounded.push {b' : Builder} (h : b.Grounded) (hshape : b.Shaped) {event : Event}
    {id : Nat} (hpush : b.push event = .ok (id, b')) : b'.Grounded := by
  rcases push_cases hpush with ⟨kind, payload, -, -, rfl⟩ | ⟨kind, payload, -, rfl⟩ |
    ⟨kind, top, rest, -, -, rfl⟩
  · have hvisit := h.visit hshape kind payload
    exact ⟨hvisit.start, hvisit.stop, hvisit.ordered, hvisit.above⟩
  · exact h.visit hshape kind payload
  · exact ⟨h.start, h.stop, h.ordered, h.above⟩

end Steps

/-- After every stream, starts and ends are places of the text. -/
theorem Grounded.feedAll {b : Builder} (h : b.Grounded) (hshape : b.Shaped)
    (events : List Event) : (b.feedAll events).Grounded := by
  refine (feedAll_induction (P := fun b => b.Shaped ∧ b.Grounded) ?_ ⟨hshape, h⟩ events).2
  intro b₁ b₂ event id ⟨hshape, hgrounded⟩ hpush
  exact ⟨hshape.push hpush, hgrounded.push hshape hpush⟩

/-! ## Finished builders -/

/-- No start lies past the end of the text. -/
theorem Grounded.startOf_le_size {b : Builder} (h : b.Grounded) (id : Nat) :
    b.nodes.startOf id ≤ b.source.size :=
  le_byteSize_of_isBoundary (h.start id)

/-- Closing what is pending at the end of the text keeps all places at boundaries. -/
theorem Grounded.finish {b : Builder} (h : b.Grounded) :
    (b.resolvePending 0 b.source.size).Grounded :=
  h.resolvePending b.source.isBoundary_size 0

/-- A finished outline has no pending node: closing all branches at the end of the text passes by
none, since none starts past it. -/
theorem exists_stopOf_finish {b : Builder} (h : b.Grounded) (hpending : b.PendingExact) {id : Nat}
    (hid : id < b.nodes.length) : ∃ stop, b.finish.nodes.stopOf id = some stop := by
  have hnodes : b.finish.nodes = (b.resolvePending 0 b.source.size).nodes := rfl
  rw [hnodes, stopOf_resolvePending b 0 b.source.size hid]
  cases hsettled : b.settledEnd 0 b.source.size id with
  | some stop => exact ⟨_, rfl⟩
  | none =>
      cases hstop : b.nodes.stopOf id with
      | some stop => exact ⟨stop, rfl⟩
      | none =>
          exfalso
          have hmem : id ∈ b.pending := (hpending id).mpr ⟨hid, hstop⟩
          simp only [settledEnd, hmem, Nat.zero_le, and_self, if_true, endFor] at hsettled
          split at hsettled
          · simp at hsettled
          · rename_i head hhead
            simp [Nat.not_lt.mpr (h.startOf_le_size head)] at hsettled

end Builder
end StyleAtlas
