import StyleAtlas.Proofs.Outline.Shape

/-!
# What a step does to ends

The two ways in which the end of a node changes, described node by node: closing branches settles
the end of pending nodes, and cutting back moves settled ends to a place.

Main results:

- Theorems `Builder.stopOf_resolvePending` and `Builder.stopOf_trim`: the end of a node after
  each of the two.
- Theorem `Builder.trim_eq_self`: nothing is cut back where no end lies past the place.
- Definition `Builder.PendingExact`, Theorem `Builder.PendingExact.run`: in every run the pending
  nodes are those whose ends are not settled.
-/

namespace StyleAtlas
namespace Builder

open Forest

/-! ## Links are not touched -/

/-- Closing branches adds no node. -/
@[simp]
theorem length_resolvePending (b : Builder) (depth boundary : Nat) :
    (b.resolvePending depth boundary).nodes.length = b.nodes.length := by
  simp [resolvePending]

/-- Closing branches leaves the starts. -/
@[simp]
theorem startOf_resolvePending (b : Builder) (depth boundary id : Nat) :
    (b.resolvePending depth boundary).nodes.startOf id = b.nodes.startOf id := by
  rw [← startOf_skeleton, skeleton_resolvePending, startOf_skeleton]

/-- Closing branches leaves the depths. -/
@[simp]
theorem depthOf_resolvePending (b : Builder) (depth boundary id : Nat) :
    (b.resolvePending depth boundary).nodes.depthOf id = b.nodes.depthOf id := by
  rw [← depthOf_skeleton, skeleton_resolvePending, depthOf_skeleton]

/-- Closing branches leaves the parents. -/
@[simp]
theorem parentOf_resolvePending (b : Builder) (depth boundary id : Nat) :
    (b.resolvePending depth boundary).nodes.parentOf id = b.nodes.parentOf id := by
  rw [← parentOf_skeleton, skeleton_resolvePending, parentOf_skeleton]

/-- Cutting siblings back adds no node. -/
@[simp]
theorem length_trim (b : Builder) (parent : Option Nat) (place : Nat) :
    (b.trim parent place).nodes.length = b.nodes.length := by
  simp [trim]

/-- Cutting siblings back leaves the depths. -/
@[simp]
theorem depthOf_trim (b : Builder) (parent : Option Nat) (place id : Nat) :
    (b.trim parent place).nodes.depthOf id = b.nodes.depthOf id := by
  rw [← depthOf_skeleton, skeleton_trim, depthOf_skeleton]

/-- Cutting siblings back leaves the parents. -/
@[simp]
theorem parentOf_trim (b : Builder) (parent : Option Nat) (place id : Nat) :
    (b.trim parent place).nodes.parentOf id = b.nodes.parentOf id := by
  rw [← parentOf_skeleton, skeleton_trim, parentOf_skeleton]

/-! ## Ends after a step -/

/-- Closing branches settles the nodes that get an end, and leaves all others as they are. -/
theorem getElem?_resolvePending (b : Builder) (depth boundary id : Nat) :
    (b.resolvePending depth boundary).nodes[id]? =
      b.nodes[id]?.map fun n =>
        match b.settledEnd depth boundary id with
        | some stop => n.close stop
        | none => n :=
  List.getElem?_mapIdx

/-- Closing branches settles the nodes that it gives an end to, and leaves the others. -/
theorem stopOf_resolvePending (b : Builder) (depth boundary : Nat) {id : Nat}
    (hid : id < b.nodes.length) :
    (b.resolvePending depth boundary).nodes.stopOf id =
      match b.settledEnd depth boundary id with
      | some stop => some (max (b.nodes.startOf id) stop)
      | none => b.nodes.stopOf id := by
  have hnode : b.nodes[id]? = some b.nodes[id] := List.getElem?_eq_getElem hid
  unfold stopOf startOf
  rw [getElem?_resolvePending, hnode]
  cases b.settledEnd depth boundary id <;> rfl

/-- The nodes without an end are pending still when branches are closed. -/
theorem mem_pending_resolvePending {b : Builder} {depth boundary id : Nat} :
    id ∈ (b.resolvePending depth boundary).pending ↔
      id ∈ b.pending ∧ b.settledEnd depth boundary id = none := by
  simp [resolvePending]

/-- Whether cutting the siblings under a parent back to a place reaches a node. -/
def isCut (b : Builder) (parent : Option Nat) (place id : Nat) : Bool :=
  match b.nodes.ancestorAt b.depth id with
  | some head => decide (head ∈ b.reachingPast parent place)
  | none => false

/-- Cutting siblings back closes, at the place, the nodes that it reaches and that end past it. -/
theorem getElem?_trim (b : Builder) (parent : Option Nat) (place id : Nat) :
    (b.trim parent place).nodes[id]? =
      b.nodes[id]?.map fun n =>
        match n.stop with
        | some stop => if place < stop && b.isCut parent place id then n.close place else n
        | none => n :=
  List.getElem?_mapIdx

/-- Cutting back moves the settled ends past the place that it reaches, and leaves the others. -/
theorem stopOf_trim (b : Builder) (parent : Option Nat) (place id : Nat) :
    (b.trim parent place).nodes.stopOf id =
      match b.nodes.stopOf id with
      | some stop =>
          if place < stop && b.isCut parent place id then some (max (b.nodes.startOf id) place)
          else some stop
      | none => none := by
  unfold stopOf startOf
  rw [getElem?_trim]
  cases b.nodes[id]? with
  | none => rfl
  | some n =>
      cases hstop : n.stop with
      | none => simp [hstop]
      | some stop =>
          simp only [Option.map_some, Option.bind_some, hstop]
          split
          · rfl
          · exact hstop

/-- Cutting back settles no end. -/
theorem stopOf_trim_eq_none_iff (b : Builder) (parent : Option Nat) (place id : Nat) :
    (b.trim parent place).nodes.stopOf id = none ↔ b.nodes.stopOf id = none := by
  rw [stopOf_trim]
  cases b.nodes.stopOf id with
  | none => simp
  | some stop =>
      dsimp only
      split <;> simp

/-- Nothing is cut back where no end lies past the place. -/
theorem trim_eq_self {b : Builder} {place : Nat}
    (h : ∀ id stop, b.nodes.stopOf id = some stop → stop ≤ place) (parent : Option Nat) :
    b.trim parent place = b := by
  have hnodes : (b.trim parent place).nodes = b.nodes := by
    apply List.ext_getElem?
    intro id
    rw [getElem?_trim]
    cases hnode : b.nodes[id]? with
    | none => rfl
    | some n =>
        cases hstop : n.stop with
        | none => simp [hstop]
        | some stop =>
            have hle : ¬place < stop := Nat.not_lt.mpr (h id stop (by simp [stopOf, hnode, hstop]))
            simp [hstop, hle]
  have hsame : b.trim parent place = { b with nodes := (b.trim parent place).nodes } := rfl
  rw [hsame, hnodes]

/-! ## Pending nodes -/

/-- The pending nodes are those whose ends are not settled. -/
def PendingExact (b : Builder) : Prop :=
  ∀ id, id ∈ b.pending ↔ id < b.nodes.length ∧ b.nodes.stopOf id = none

/-- No node is pending at first, and none is settled. -/
theorem PendingExact.init (source : Source) : (Builder.init source).PendingExact := by
  simp [PendingExact, Builder.init]

/-- Closing branches keeps exactly the nodes without an end pending. -/
theorem PendingExact.resolvePending {b : Builder} (h : b.PendingExact) (depth boundary : Nat) :
    (b.resolvePending depth boundary).PendingExact := by
  intro id
  rw [mem_pending_resolvePending, h id, length_resolvePending]
  by_cases hid : id < b.nodes.length
  · rw [stopOf_resolvePending b depth boundary hid]
    cases b.settledEnd depth boundary id <;> simp
  · simp [hid]

/-- Cutting siblings back leaves the pending nodes. -/
theorem PendingExact.trim {b : Builder} (h : b.PendingExact) (parent : Option Nat)
    (place : Nat) : (b.trim parent place).PendingExact := by
  intro id
  have hpending : (b.trim parent place).pending = b.pending := rfl
  rw [hpending, h id, length_trim, stopOf_trim_eq_none_iff]

/-- A new node is pending. -/
theorem PendingExact.append {b : Builder} (h : b.PendingExact) (kind : Kind) (payload : Payload)
    (start : Nat) : (b.append kind payload start).PendingExact := by
  intro id
  simp only [Builder.append, List.mem_append, List.mem_singleton, h id, List.length_append,
    List.length_singleton]
  rcases Nat.lt_trichotomy id b.nodes.length with hlt | rfl | hgt
  · rw [stopOf_append hlt]
    simp [hlt, Nat.ne_of_lt hlt, Nat.lt_succ_of_lt hlt]
  · simp
  · simp [Nat.not_lt_of_gt hgt, Nat.ne_of_gt hgt]
    omega

/-- Closing the branches before a new node keeps exactly the nodes without an end pending. -/
theorem PendingExact.closeBefore {b : Builder} (h : b.PendingExact) (payload : Payload) :
    (b.closeBefore payload).PendingExact := by
  unfold Builder.closeBefore
  split
  · exact (h.resolvePending _ _).trim _ _
  · exact h

/-- A visit keeps exactly the nodes without an end pending. -/
theorem PendingExact.visit {b : Builder} (h : b.PendingExact) (kind : Kind) (payload : Payload) :
    (b.visit kind payload).PendingExact := by
  rw [visit_eq]
  exact (h.closeBefore payload).append kind payload _

/-- An accepted event keeps the pending nodes exact. -/
theorem PendingExact.push {b b' : Builder} (h : b.PendingExact) {event : Event} {id : Nat}
    (hpush : b.push event = .ok (id, b')) : b'.PendingExact := by
  rcases push_cases hpush with ⟨kind, payload, -, -, rfl⟩ | ⟨kind, payload, -, rfl⟩ |
    ⟨kind, top, rest, -, -, rfl⟩
  · exact h.visit kind payload
  · exact h.visit kind payload
  · exact h

/-- In every run the pending nodes are those whose ends are not settled. -/
theorem PendingExact.run {b b' : Builder} {events : List Event} (h : b.PendingExact)
    (hrun : b.run events = .ok b') : b'.PendingExact := by
  induction events generalizing b with
  | nil =>
      simp only [Builder.run, List.foldlM_nil] at hrun
      cases hrun
      exact h
  | cons event events ih =>
      obtain ⟨id, mid, hpush, hrest⟩ := run_cons hrun
      exact ih (h.push hpush) hrest

end Builder
end StyleAtlas
