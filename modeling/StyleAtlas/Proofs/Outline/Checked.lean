import StyleAtlas.Proofs.Outline.Grounded
import StyleAtlas.Proofs.Outline.Indexed

/-!
# The checked builder

A builder that stores positions has to convert every start and every end as soon as it is known,
and each of these conversions may fail in the middle of a change.  The checked builder makes all of
them: its actions are refused where a place has no position, and leave the builder as it is at that
moment.  In no state that a stream of events can lead to does a conversion fail, so the checked
builder does what the plain one does, whatever events it is fed: it refuses an event only where
kinds do not fit, and then changes nothing, and it always comes to an outline with an index.

Main results:

- Definitions `Builder.Action`, `Builder.Checked.push`, `Builder.Checked.finish`: the checked
  builder.
- Theorem `Builder.Checked.on_settleEach`: settling ends that have positions.
- Theorems `Builder.Checked.push_eq`, `Builder.Checked.run_eq`, `Builder.Checked.finish_eq`: the
  checked builder does what the plain one does.
- Theorem `Builder.never_fails_on_places`: what every stream of events leads to.
-/

namespace StyleAtlas
namespace Builder

open Forest Text

/-! ## Actions -/

/-- An action on a builder that may be refused part of the way: it has an outcome, and leaves a
builder in either case. -/
abbrev Action := ExceptT OutlineError (StateM Builder)

namespace Action

/-- The outcome of an action on a builder, and the builder that it leaves. -/
def on {α : Type} (action : Action α) (b : Builder) : Except OutlineError α × Builder :=
  action.run.run b

/-- A conversion of places as an action, which changes nothing. -/
def convert {α : Type} : Except TextError α → Action α
  | .ok a => pure a
  | .error cause => throw (.index (.text cause))

/-- An operation that gives a new builder as an action: refused, it leaves the builder as it was. -/
def ofPlain {α : Type} (b : Builder) :
    Except OutlineError (α × Builder) → Except OutlineError α × Builder
  | .ok answer => (.ok answer.1, answer.2)
  | .error e => (.error e, b)

variable {α β : Type}

@[simp]
theorem on_pure (a : α) (b : Builder) : (pure a : Action α).on b = (.ok a, b) :=
  rfl

@[simp]
theorem on_set (b' b : Builder) : (set b' : Action PUnit).on b = (.ok ⟨⟩, b') :=
  rfl

@[simp]
theorem on_modify (f : Builder → Builder) (b : Builder) :
    (modify f : Action PUnit).on b = (.ok ⟨⟩, f b) :=
  rfl

/-- What follows an action that is not refused acts on the builder that it leaves. -/
theorem on_bind {action : Action α} {b b' : Builder} {a : α} (h : action.on b = (.ok a, b'))
    (next : α → Action β) : (action >>= next).on b = (next a).on b' := by
  have hrun : action.run.run b = (.ok a, b') := h
  simp only [on, ExceptT.run_bind, StateT.run_bind, hrun]
  rfl

@[simp]
theorem on_get_bind (next : Builder → Action α) (b : Builder) :
    (get >>= next).on b = (next b).on b :=
  rfl

end Action

/-! ## Settling and adding nodes -/

namespace Checked

open Builder.Action

/-- Settle the end of a node, never before its start.  Both ends must have positions. -/
def settle (id stop : Nat) : Action Unit := do
  let b ← get
  let _ ← convert (b.source.rangeOf ⟨b.nodes.startOf id, max (b.nodes.startOf id) stop⟩)
  set { b with
    nodes := b.nodes.modify id fun n => n.close stop
    pending := b.pending.filter (· ≠ id) }

/-- Settle those of some nodes that are given an end, one after the other. -/
def settleEach (ends : Nat → Option Nat) : List Nat → Action Unit
  | [] => pure ()
  | id :: ids =>
      match ends id with
      | some stop => do
          settle id stop
          settleEach ends ids
      | none => settleEach ends ids

/-- Close all branches from a depth down at a boundary. -/
def resolvePending (depth boundary : Nat) : Action Unit := do
  let b ← get
  settleEach (b.settledEnd depth boundary) (List.range b.nodes.length)

/-- Cut the siblings that reach past a place back to it, with all that lies below them. -/
def trim (parent : Option Nat) (place : Nat) : Action Unit := do
  let b ← get
  let ends id := (b.nodes.stopOf id).bind fun stop =>
    if place < stop && b.isCut parent place id then some place else none
  settleEach ends (List.range b.nodes.length)

/-- Close the branches before a new node, if it is located, and cut back the siblings that reach
past it. -/
def closeBefore (payload : Payload) : Action Unit :=
  match payload.location with
  | none => pure ()
  | some _ => do
      let b ← get
      resolvePending b.depth (b.startFor payload)
      trim b.current (b.startFor payload)

/-- Add a node, whose start must have a position. -/
def visit (kind : Kind) (payload : Payload) : Action Nat := do
  let b ← get
  closeBefore payload
  let _ ← convert (b.source.positionOf (b.startFor payload))
  modify fun closed => closed.append kind payload (b.startFor payload)
  return b.nodeCount

/-- Feed one event. -/
def push : Event → Action Nat
  | .enter kind payload =>
      if kind.isContainer then do
        let id ← visit kind payload
        modify fun b => { b with stack := id :: b.stack }
        return id
      else throw (.notContainer kind)
  | .leaf kind payload => visit kind payload
  | .exit kind => do
      let b ← get
      match b.exit kind with
      | .ok (top, b') => do
          set b'
          return top
      | .error e => throw e

/-- The builder that a stream of events leaves, whatever the outcomes of the events. -/
def feedAll (b : Builder) (events : List Event) : Builder :=
  events.foldl (fun b event => ((push event).on b).2) b

/-- Feed events until one is refused. -/
def run : List Event → Action Unit
  | [] => pure ()
  | event :: events => do
      let _ ← push event
      run events

/-- Close what is still pending at the end of the text. -/
def finish : Action Outline := do
  let b ← get
  resolvePending 0 b.source.size
  let b ← get
  return ⟨b.source, b.nodes⟩

end Checked

/-! ## Settling several ends at once -/

/-- The builder with the given ends settled. -/
def withEnds (b : Builder) (ends : Nat → Option Nat) : Builder :=
  { b with
    nodes := b.nodes.mapIdx fun id n =>
      match ends id with
      | some stop => n.close stop
      | none => n
    pending := b.pending.filter fun id => (ends id).isNone }

/-- Settling ends closes the nodes that are given one. -/
theorem getElem?_withEnds (b : Builder) (ends : Nat → Option Nat) (id : Nat) :
    (b.withEnds ends).nodes[id]? = b.nodes[id]?.map fun n =>
      match ends id with
      | some stop => n.close stop
      | none => n :=
  List.getElem?_mapIdx

/-- Settling ends leaves the starts. -/
@[simp]
theorem startOf_withEnds (b : Builder) (ends : Nat → Option Nat) (id : Nat) :
    (b.withEnds ends).nodes.startOf id = b.nodes.startOf id := by
  unfold startOf
  rw [getElem?_withEnds]
  cases b.nodes[id]? with
  | none => rfl
  | some n => cases ends id <;> rfl

/-- Builders are equal when all their parts are. -/
@[ext]
theorem ext {b b' : Builder} (hsource : b.source = b'.source) (hnodes : b.nodes = b'.nodes)
    (hstack : b.stack = b'.stack) (hpending : b.pending = b'.pending) : b = b' := by
  cases b
  cases b'
  simp_all

/-- Where no end is given, nothing changes. -/
theorem withEnds_none (b : Builder) : (b.withEnds fun _ => none) = b := by
  ext1
  · rfl
  · apply List.ext_getElem?
    intro id
    rw [getElem?_withEnds, Option.map_id']
  · rfl
  · simp [withEnds]

/-- Of two ends that are given to a node one after the other the second one counts. -/
theorem withEnds_withEnds (b : Builder) (first second : Nat → Option Nat) :
    (b.withEnds first).withEnds second = b.withEnds fun id => (second id).or (first id) := by
  ext1
  · rfl
  · apply List.ext_getElem?
    intro id
    rw [getElem?_withEnds, getElem?_withEnds, getElem?_withEnds, Option.map_map]
    congr 1
    funext n
    cases second id <;> cases first id <;> rfl
  · rfl
  · simp only [withEnds, List.filter_filter]
    refine List.filter_congr fun id _ => ?_
    cases second id <;> cases first id <;> rfl

/-- Cutting back settles ends of nodes that are settled already, so none of them was pending. -/
theorem trim_eq_withEnds {b : Builder} (h : b.PendingExact) (parent : Option Nat) (place : Nat) :
    b.trim parent place = b.withEnds fun id => (b.nodes.stopOf id).bind fun stop =>
      if place < stop && b.isCut parent place id then some place else none := by
  ext1
  · rfl
  · apply List.ext_getElem?
    intro id
    rw [getElem?_trim, getElem?_withEnds, stopOf]
    cases b.nodes[id]? with
    | none => rfl
    | some n =>
        cases hstop : n.stop with
        | none => simp [hstop]
        | some stop =>
            simp only [Option.map_some, Option.bind_some, hstop]
            split <;> rfl
  · rfl
  · symm
    apply List.filter_eq_self.mpr
    intro id hid
    simp [((h id).mp hid).2]

namespace Checked

open Builder.Action

section Conversions

variable {b : Builder}

/-- A conversion that succeeds changes nothing. -/
theorem on_convert_bind {α β : Type} {x : Except TextError α} {a : α} (h : x = .ok a)
    (next : α → Action β) (b : Builder) : (convert x >>= next).on b = (next a).on b := by
  subst h
  rfl

/-- Settling an end that has a position. -/
theorem on_settle {id stop : Nat}
    (h : ∃ r, b.source.rangeOf ⟨b.nodes.startOf id, max (b.nodes.startOf id) stop⟩ = .ok r) :
    (settle id stop).on b =
      (.ok (), b.withEnds fun other => if other = id then some stop else none) := by
  obtain ⟨r, hr⟩ := h
  have hnodes : (b.nodes.modify id fun n => n.close stop) =
      (b.withEnds fun other => if other = id then some stop else none).nodes := by
    apply List.ext_getElem?
    intro other
    rw [List.getElem?_modify, getElem?_withEnds]
    by_cases hid : id = other
    · simp [hid]
    · simp [hid, Ne.symm hid]
  have hpending : b.pending.filter (· ≠ id) =
      (b.withEnds fun other => if other = id then some stop else none).pending := by
    refine List.filter_congr fun other _ => ?_
    by_cases hid : other = id <;> simp [hid]
  unfold settle
  rw [on_get_bind, on_convert_bind hr, on_set, hnodes, hpending]
  rfl

/-- Settling ends that have positions settles them all. -/
theorem on_settleEach {ends : Nat → Option Nat} {ids : List Nat}
    (h : ∀ id ∈ ids, ∀ stop, ends id = some stop →
      ∃ r, b.source.rangeOf ⟨b.nodes.startOf id, max (b.nodes.startOf id) stop⟩ = .ok r) :
    (settleEach ends ids).on b =
      (.ok (), b.withEnds fun id => if id ∈ ids then ends id else none) := by
  induction ids generalizing b with
  | nil => simp [settleEach, withEnds_none]
  | cons id ids ih =>
      have hids : ∀ other ∈ ids, ∀ stop, ends other = some stop → ∃ r, b.source.rangeOf
          ⟨b.nodes.startOf other, max (b.nodes.startOf other) stop⟩ = .ok r :=
        fun other hother => h other (List.mem_cons_of_mem _ hother)
      unfold settleEach
      cases hend : ends id with
      | none =>
          dsimp only
          rw [ih hids]
          congr 2
          funext other
          by_cases hother : other = id
          · simp [hother, hend]
          · simp [hother]
      | some stop =>
          dsimp only
          rw [on_bind (on_settle (h id List.mem_cons_self stop hend)), ih, withEnds_withEnds]
          · congr 2
            funext other
            by_cases hother : other = id
            · by_cases hmem : id ∈ ids <;> simp [hother, hend, hmem]
            · simp [hother]
          · intro other hother stop' hstop'
            rw [startOf_withEnds]
            exact hids other hother stop' hstop'

/-- Settling the ends of nodes, where all of them have positions. -/
theorem on_settleEach_range {ends : Nat → Option Nat}
    (hends : ∀ id, b.nodes.length ≤ id → ends id = none)
    (h : ∀ id stop, ends id = some stop →
      ∃ r, b.source.rangeOf ⟨b.nodes.startOf id, max (b.nodes.startOf id) stop⟩ = .ok r) :
    (settleEach ends (List.range b.nodes.length)).on b = (.ok (), b.withEnds ends) := by
  rw [on_settleEach fun id _ => h id]
  congr 2
  funext id
  by_cases hid : id < b.nodes.length
  · simp [hid]
  · simp [hid, hends id (Nat.le_of_not_lt hid)]

/-- The ends that a node may be given have positions, when they are boundaries. -/
theorem exists_rangeOf_max (h : b.Grounded) {stop : Nat}
    (hstop : isBoundary b.source.chars stop = true) (id : Nat) :
    ∃ r, b.source.rangeOf ⟨b.nodes.startOf id, max (b.nodes.startOf id) stop⟩ = .ok r := by
  obtain ⟨r, hr, -⟩ := Source.exists_rangeOf (x := ⟨b.nodes.startOf id, _⟩) (h.start id)
    (isBoundary_max (h.start id) hstop) (Nat.le_max_left _ _)
  exact ⟨r, hr⟩

/-! ## The checked builder does what the plain one does -/

/-- Closing branches at a boundary is never refused. -/
theorem resolvePending_eq (h : b.Grounded) (hpending : b.PendingExact) {boundary : Nat}
    (hboundary : isBoundary b.source.chars boundary = true) (depth : Nat) :
    (resolvePending depth boundary).on b = (.ok (), b.resolvePending depth boundary) := by
  unfold resolvePending
  rw [on_get_bind, on_settleEach_range]
  · rfl
  · intro id hid
    have hnot : id ∉ b.pending := fun hmem => by
      have := ((hpending id).mp hmem).1
      omega
    simp [settledEnd, hnot]
  · intro id stop hstop
    exact exists_rangeOf_max h (h.isBoundary_settledEnd hboundary hstop) id

/-- Cutting siblings back to a boundary is never refused. -/
theorem trim_eq (h : b.Grounded) (hpending : b.PendingExact) {place : Nat}
    (hplace : isBoundary b.source.chars place = true) (parent : Option Nat) :
    (trim parent place).on b = (.ok (), b.trim parent place) := by
  unfold trim
  rw [on_get_bind, on_settleEach_range, trim_eq_withEnds hpending]
  · intro id hid
    simp [stopOf, List.getElem?_eq_none hid]
  · intro id stop hstop
    obtain ⟨old, -, hif⟩ := Option.bind_eq_some_iff.mp hstop
    split at hif
    · obtain rfl := Option.some.inj hif
      exact exists_rangeOf_max h hplace id
    · simp at hif

/-- Closing the branches before a new node is never refused. -/
theorem closeBefore_eq (h : b.Grounded) (hpending : b.PendingExact) (payload : Payload) :
    (closeBefore payload).on b = (.ok (), b.closeBefore payload) := by
  have hstart := h.isBoundary_startFor payload
  unfold closeBefore Builder.closeBefore
  cases payload.location with
  | none => rfl
  | some location =>
      have hresolved := h.resolvePending hstart b.depth
      have hexact := hpending.resolvePending b.depth (b.startFor payload)
      dsimp only
      rw [on_get_bind, on_bind (resolvePending_eq h hpending hstart b.depth),
        trim_eq hresolved hexact hstart]

/-- A visit is never refused. -/
theorem visit_eq (h : b.Grounded) (hpending : b.PendingExact) (kind : Kind) (payload : Payload) :
    (visit kind payload).on b = (.ok b.nodeCount, b.visit kind payload) := by
  obtain ⟨p, hp, -⟩ := Source.exists_positionOf (h.isBoundary_startFor payload)
  unfold visit
  rw [on_get_bind, on_bind (closeBefore_eq h hpending payload), on_convert_bind hp,
    on_bind (on_modify _ _), on_pure, Builder.visit_eq]

/-- Fed an event, the checked builder gives the answer of the plain one, and goes on to the same
state; an event that is refused leaves it as it was. -/
theorem push_eq (h : b.Grounded) (hpending : b.PendingExact) (event : Event) :
    (push event).on b = ofPlain b (b.push event) := by
  cases event with
  | enter kind payload =>
      simp only [push, Builder.push, enter]
      cases kind.isContainer with
      | false => rfl
      | true =>
          simp only [if_true]
          rw [on_bind (visit_eq h hpending kind payload), on_bind (on_modify _ _), on_pure]
          simp only [ofPlain, visit_stack]
  | leaf kind payload =>
      unfold push
      rw [visit_eq h hpending kind payload]
      rfl
  | exit kind =>
      simp only [push, Builder.push]
      rw [on_get_bind]
      cases b.exit kind <;> rfl

/-- Closing what is pending at the end of the text is never refused. -/
theorem finish_eq (h : b.Grounded) (hpending : b.PendingExact) :
    finish.on b = (.ok b.finish, b.resolvePending 0 b.source.size) := by
  unfold finish
  rw [on_get_bind, on_bind (resolvePending_eq h hpending b.source.isBoundary_size 0),
    on_get_bind, on_pure]
  rfl

end Conversions

/-- The checked builder goes through the states of the plain one. -/
theorem feedAll_eq {b : Builder} (hshape : b.Shaped) (h : b.Grounded) (hpending : b.PendingExact)
    (events : List Event) : feedAll b events = b.feedAll events := by
  induction events generalizing b with
  | nil => rfl
  | cons event events ih =>
      have hstep : ((push event).on b).2 = b.feed event := by
        rw [push_eq h hpending, feed]
        cases b.push event <;> rfl
      have hnext : feedAll b (event :: events) = feedAll (b.feed event) events := by
        rw [← hstep]
        rfl
      rw [hnext, feedAll_cons]
      rcases feed_cases b event with hsame | ⟨id, hpush⟩
      · rw [hsame]
        exact ih hshape h hpending
      · exact ih (hshape.push hpush) (h.push hshape hpush) (hpending.push hpush)

/-- The checked builder accepts the streams that the plain one accepts, and is left in the same
state. -/
theorem run_eq {b b' : Builder} (hshape : b.Shaped) (h : b.Grounded) (hpending : b.PendingExact)
    {events : List Event} (hrun : b.run events = .ok b') :
    (run events).on b = (.ok (), b') := by
  induction events generalizing b with
  | nil =>
      simp only [Builder.run, List.foldlM_nil] at hrun
      cases hrun
      rfl
  | cons event events ih =>
      obtain ⟨id, mid, hpush, hrest⟩ := run_cons hrun
      have hstep : (push event).on b = (.ok id, mid) := by
        rw [push_eq h hpending, hpush]
        rfl
      rw [run, on_bind hstep]
      exact ih (hshape.push hpush) (h.push hshape hpush) (hpending.push hpush) hrest

end Checked

/-! ## What every stream of events leads to -/

/-- The checked builder does what the plain one does, refuses events for their kinds only, changes
nothing when it refuses one, and can always be finished. -/
structure RefusesKindsOnly (b : Builder) : Prop where
  push_eq : ∀ event, (Checked.push event).on b = Action.ofPlain b (b.push event)
  enter_refused : ∀ kind payload e b', (Checked.push (.enter kind payload)).on b = (.error e, b') ↔
    kind.isContainer = false ∧ e = .notContainer kind ∧ b' = b
  leaf_accepted : ∀ kind payload,
    ∃ b', (Checked.push (.leaf kind payload)).on b = (.ok b.nodeCount, b')
  exit_refused : ∀ kind e b', (Checked.push (.exit kind)).on b = (.error e, b') ↔
    b' = b ∧ ((b.stack = [] ∧ e = .unbalancedExit none kind) ∨
      ∃ top rest n, b.stack = top :: rest ∧ b.nodes[top]? = some n ∧ n.kind ≠ kind ∧
        e = .unbalancedExit (some n.kind) kind)
  finish_accepted : ∃ b', Checked.finish.on b = (.ok b.finish, b')

/-- A builder in the shape that all runs keep refuses events for their kinds only. -/
theorem refusesKindsOnly {b : Builder} (hshape : b.Shaped) (h : b.Grounded)
    (hpending : b.PendingExact) : b.RefusesKindsOnly where
  push_eq := Checked.push_eq h hpending
  enter_refused := by
    intro kind payload e b'
    rw [Checked.push_eq h hpending, push, enter]
    cases kind.isContainer with
    | true => simp [Action.ofPlain]
    | false =>
        simp only [Action.ofPlain, Bool.false_eq_true, if_false, Prod.mk.injEq,
          Except.error.injEq, true_and]
        exact and_congr eq_comm eq_comm
  leaf_accepted := by
    intro kind payload
    exact ⟨_, Checked.push_eq h hpending _⟩
  exit_refused := by
    intro kind e b'
    rw [Checked.push_eq h hpending, push, exit]
    cases hstack : b.stack with
    | nil =>
        simp only [Action.ofPlain, Prod.mk.injEq, Except.error.injEq]
        grind
    | cons top rest =>
        have htop : top < b.nodes.length := hshape.stack_lt top (by simp [hstack])
        have hnode : b.nodes[top]? = some b.nodes[top] := List.getElem?_eq_getElem htop
        by_cases hkind : b.nodes[top].kind = kind
        · simp only [hnode, hkind, if_true, Action.ofPlain]
          grind
        · simp only [hnode, hkind, if_false, Action.ofPlain, Prod.mk.injEq, Except.error.injEq]
          grind
  finish_accepted := ⟨_, Checked.finish_eq h hpending⟩

end Builder

/-- The node is settled, its range lies in the text between two characters and is not reversed, and
it does not start before its parent. -/
def Outline.Grounds (o : Outline) (id : Nat) : Prop :=
  ∃ x r, o.extentOf id = some x ∧ o.rangeOf id = some r ∧ o.source.extentOf r = .ok x ∧
    x.start ≤ x.stop ∧ x.stop ≤ o.source.size ∧
    Text.isBoundary o.source.chars x.start = true ∧ Text.isBoundary o.source.chars x.stop = true ∧
    ∀ parent, o.nodes.parentOf id = some parent →
      ∃ y, o.extentOf parent = some y ∧ y.start ≤ x.start

namespace Builder

open Forest

section Finished

variable {b : Builder}

/-- The nodes of a finished outline are settled and come after their parents. -/
theorem finish_settled (hshape : b.Shaped) (h : b.Grounded) (hpending : b.PendingExact) :
    b.finish.nodes.Settled where
  stop := by
    intro id hid
    rw [finish, length_resolvePending] at hid
    exact exists_stopOf_finish h hpending hid
  parent_lt := by
    intro id parent hparent
    have hshape' : (b.resolvePending 0 b.source.size).Shaped :=
      hshape.of_skeleton (skeleton_resolvePending b 0 b.source.size) rfl
    exact (hshape'.encloses id parent hparent).lt

/-- Every node of a finished outline is settled in the text. -/
theorem finish_grounds (hshape : b.Shaped) (h : b.Grounded) (hpending : b.PendingExact) {id : Nat}
    (hid : id < b.finish.size) : b.finish.Grounds id := by
  have hsettled := finish_settled hshape h hpending
  have hfinish : (b.resolvePending 0 b.source.size).Grounded := h.finish
  obtain ⟨stop, hstop⟩ := hsettled.stop id hid
  have hstart := hfinish.start id
  have hboundary := hfinish.stop id stop hstop
  have hordered := hfinish.ordered id stop hstop
  obtain ⟨r, hrange, hback⟩ := Source.exists_rangeOf (s := b.finish.source)
    (x := ⟨b.finish.nodes.startOf id, stop⟩) hstart hboundary hordered
  refine ⟨_, r, Outline.extentOf_eq hstop, ?_, hback, hordered,
    Text.le_byteSize_of_isBoundary hboundary, hstart, hboundary, ?_⟩
  · rw [Outline.rangeOf, Outline.extentOf_eq hstop, Option.bind_some, hrange]
    rfl
  · intro parent hparent
    have hlt := Nat.lt_trans (hsettled.parent_lt id parent hparent) hid
    obtain ⟨stop', hstop'⟩ := hsettled.stop parent hlt
    exact ⟨_, Outline.extentOf_eq hstop', hfinish.above id parent hparent⟩

/-- A finished outline can be indexed, by extents and by positions, and the index agrees with
it. -/
theorem exists_index_finish (hshape : b.Shaped) (h : b.Grounded) (hpending : b.PendingExact) :
    ∃ index, b.finish.indexRanges = .ok index ∧ b.finish.index = .ok index ∧
      index.Mirrors b.finish := by
  have hsettled := finish_settled hshape h hpending
  refine ⟨b.finish.nodes.mirror, ?_, Outline.index_eq hsettled, Outline.mirrors hsettled⟩
  rw [Outline.indexRanges_eq, Outline.index_eq hsettled]
  intro id x hx
  obtain ⟨y, r, hy, hr, hback, -⟩ :=
    finish_grounds hshape h hpending (Outline.lt_length_of_extentOf hx)
  obtain rfl : x = y := Option.some.inj (hx.symm.trans hy)
  rw [Outline.rangeOf, hx, Option.bind_some] at hr
  cases hrange : b.finish.source.rangeOf x with
  | error e => simp [hrange, Except.toOption] at hr
  | ok r' =>
      obtain rfl : r' = r := by simpa [hrange, Except.toOption] using hr
      exact ⟨r', rfl, hback⟩

end Finished

/-- What every stream of events leads to, wherever its nodes are said to be and whatever it opens
and closes.  The checked builder goes through the states of the plain one.  It refuses an event only
for its kind, and then changes nothing.  It can be finished, every node of the outline is settled in
the text, and the outline can be indexed by an index that agrees with it. -/
theorem never_fails_on_places (s : Source) (events : List Event) :
    let b := Checked.feedAll (Builder.init s) events
    b = (Builder.init s).feedAll events ∧ b.RefusesKindsOnly ∧
      b.finish.source = s ∧ b.finish.size = b.nodeCount ∧
      (∀ id, id < b.finish.size → b.finish.Grounds id) ∧
      ∃ index, b.finish.indexRanges = .ok index ∧ b.finish.index = .ok index ∧
        index.Mirrors b.finish := by
  have hstates := Checked.feedAll_eq (Shaped.init s) (Grounded.init s) (PendingExact.init s) events
  have hshape := (Shaped.init s).feedAll events
  have hgrounded := (Grounded.init s).feedAll (Shaped.init s) events
  have hpending := (PendingExact.init s).feedAll events
  dsimp only
  rw [hstates]
  refine ⟨rfl, refusesKindsOnly hshape hgrounded hpending, source_feedAll _ events,
    length_resolvePending _ _ _, ?_, exists_index_finish hshape hgrounded hpending⟩
  intro id hid
  exact finish_grounds hshape hgrounded hpending hid

end Builder
end StyleAtlas
