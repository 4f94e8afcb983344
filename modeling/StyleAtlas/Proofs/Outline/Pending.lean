import StyleAtlas.Proofs.Outline.Grounded

/-!
# Pending nodes hang together

A node stays pending while anything below it may still come, and when branches close out of source
order it may stay pending longer than nodes around it in the stream.  But it is never settled before
the nodes below it: closing branches decides about a branch by its head, so it settles a branch from
the closing depth down or leaves it as a whole.  Hence the open containers are pending, the nodes
around a pending node are pending, and every pending node has a pending head at each depth above it.

Main results:

- Theorem `Builder.endFor_eq_none_iff`: which nodes closing branches leaves pending.
- Definition `Builder.PendingLinked`, Theorem `Builder.PendingLinked.feedAll`: the invariant.
- Theorem `Builder.PendingLinked.exists_head`: pending nodes have pending heads.
- Theorem `Builder.PendingLinked.ancestors`: the nodes around a pending node are pending.
-/

namespace StyleAtlas

/-! ## Heads -/

namespace Forest

/-- A node that lies at a depth is its own head there. -/
theorem ancestorAt_depthOf (nodes : Forest) (id : Nat) :
    nodes.ancestorAt (nodes.depthOf id) id = some id := by
  simp [ancestorAt, climb]

/-- A node shares its heads with its parent. -/
theorem Encloses.ancestorAt_eq {nodes : Forest} {id parent : Nat}
    (h : nodes.Encloses parent id) (hparent : nodes.parentOf id = some parent) {depth : Nat}
    (hdepth : depth ≤ nodes.depthOf parent) :
    nodes.ancestorAt depth id = nodes.ancestorAt depth parent := by
  have hid := h.depth_eq
  have hsteps : nodes.depthOf id - depth = nodes.depthOf parent - depth + 1 := by omega
  rw [ancestorAt, ancestorAt, if_neg (by omega), if_neg (by omega), hsteps, climb, hparent,
    Option.bind_some]

end Forest

namespace Builder

open Forest

/-! ## What stays pending -/

/-- Closing branches leaves a node pending exactly if the head of its branch starts past the
boundary. -/
theorem endFor_eq_none_iff {b : Builder} {depth boundary id : Nat} :
    b.endFor depth boundary id = none ↔
      ∃ head, b.nodes.ancestorAt depth id = some head ∧ boundary < b.nodes.startOf head := by
  unfold endFor
  cases b.nodes.ancestorAt depth id with
  | none => simp
  | some head =>
      by_cases hlt : boundary < b.nodes.startOf head
      · simp [hlt]
      · simp [hlt]

/-- Closing branches leaves nodes above the depth alone. -/
theorem settledEnd_of_lt {b : Builder} {depth boundary id : Nat}
    (hdepth : b.nodes.depthOf id < depth) : b.settledEnd depth boundary id = none := by
  simp [settledEnd, Nat.not_le.mpr hdepth]

/-- Closing branches leaves the parent of a node pending that it leaves pending itself. -/
theorem settledEnd_parent {b : Builder} (h : b.Shaped) {depth boundary id parent : Nat}
    (hid : id ∈ b.pending) (hparent : b.nodes.parentOf id = some parent)
    (hnone : b.settledEnd depth boundary id = none) :
    b.settledEnd depth boundary parent = none := by
  have hencloses := h.encloses id parent hparent
  have hdepth := hencloses.depth_eq
  rcases Nat.lt_or_ge (b.nodes.depthOf parent) depth with hlt | hle
  · exact settledEnd_of_lt hlt
  · -- Both belong to the branch of one head, which starts past the boundary.
    rw [settledEnd, if_pos ⟨hid, by omega⟩, endFor_eq_none_iff,
      hencloses.ancestorAt_eq hparent hle, ← endFor_eq_none_iff] at hnone
    rw [settledEnd, hnone, ite_self]

/-! ## The invariant -/

/-- The pending nodes are listed in the order of their creation, the open containers are among
them, and so is the parent of each of them. -/
structure PendingLinked (b : Builder) : Prop where
  ascending : b.pending.Pairwise (· < ·)
  opened : ∀ id ∈ b.stack, id ∈ b.pending
  parent : ∀ id parent, id ∈ b.pending → b.nodes.parentOf id = some parent → parent ∈ b.pending

/-- Nothing is pending and nothing open at first. -/
theorem PendingLinked.init (source : Source) : (Builder.init source).PendingLinked where
  ascending := .nil
  opened := by simp [Builder.init]
  parent := by simp [Builder.init]

section Steps

variable {b : Builder}

/-- Branches below the open containers may close. -/
theorem PendingLinked.resolvePending (h : b.PendingLinked) (hshape : b.Shaped) {depth : Nat}
    (hdepth : b.depth ≤ depth) (boundary : Nat) :
    (b.resolvePending depth boundary).PendingLinked := by
  constructor
  · exact h.ascending.filter _
  · intro id hid
    have habove := hshape.depthOf_lt_depth hid
    exact mem_pending_resolvePending.mpr ⟨h.opened id hid, settledEnd_of_lt (by omega)⟩
  · intro id parent hid hparent
    rw [parentOf_resolvePending] at hparent
    rcases mem_pending_resolvePending.mp hid with ⟨hmem, hnone⟩
    exact mem_pending_resolvePending.mpr
      ⟨h.parent id parent hmem hparent, settledEnd_parent hshape hmem hparent hnone⟩

/-- Cutting siblings back leaves the pending nodes. -/
theorem PendingLinked.trim (h : b.PendingLinked) (parent : Option Nat) (place : Nat) :
    (b.trim parent place).PendingLinked := by
  refine ⟨h.ascending, h.opened, ?_⟩
  intro id parent' hid hparent
  rw [parentOf_trim] at hparent
  exact h.parent id parent' hid hparent

/-- A new node is pending, and so is the innermost open container, in which it lies. -/
theorem PendingLinked.append (h : b.PendingLinked) (hexact : b.PendingExact) (kind : Kind)
    (payload : Payload) (start : Nat) : (b.append kind payload start).PendingLinked := by
  have hlt : ∀ id ∈ b.pending, id < b.nodes.length := fun id hid => ((hexact id).mp hid).1
  constructor
  · refine List.pairwise_append.mpr ⟨h.ascending, List.pairwise_singleton _ _, ?_⟩
    intro id hid new hnew
    rw [List.mem_singleton.mp hnew]
    exact hlt id hid
  · intro id hid
    exact List.mem_append_left _ (h.opened id hid)
  · intro id parent hid hparent
    apply List.mem_append_left
    rcases List.mem_append.mp hid with hid | hid
    · rw [Builder.append, parentOf_append (hlt id hid)] at hparent
      exact h.parent id parent hid hparent
    · rw [List.mem_singleton.mp hid, Builder.append, parentOf_append_length] at hparent
      exact h.opened parent (List.mem_of_mem_head? hparent)

/-- The branches before a new node may close. -/
theorem PendingLinked.closeBefore (h : b.PendingLinked) (hshape : b.Shaped) (payload : Payload) :
    (b.closeBefore payload).PendingLinked := by
  unfold Builder.closeBefore
  split
  · exact (h.resolvePending hshape (Nat.le_refl _) _).trim _ _
  · exact h

/-- A new node is pending behind the others, below its parent. -/
theorem PendingLinked.visit (h : b.PendingLinked) (hshape : b.Shaped) (hexact : b.PendingExact)
    (kind : Kind) (payload : Payload) : (b.visit kind payload).PendingLinked := by
  rw [visit_eq]
  exact (h.closeBefore hshape payload).append (hexact.closeBefore payload) kind payload _

/-- An accepted event keeps the invariant: a container is opened when it was just added. -/
theorem PendingLinked.push {b' : Builder} (h : b.PendingLinked) (hshape : b.Shaped)
    (hexact : b.PendingExact) {event : Event} {id : Nat} (hpush : b.push event = .ok (id, b')) :
    b'.PendingLinked := by
  rcases push_cases hpush with ⟨kind, payload, -, -, rfl⟩ | ⟨kind, payload, -, rfl⟩ |
    ⟨kind, top, rest, -, hstack, rfl⟩
  · have hvisit := h.visit hshape hexact kind payload
    refine ⟨hvisit.ascending, ?_, hvisit.parent⟩
    intro id hid
    rcases List.mem_cons.mp hid with rfl | hid
    · rw [visit_eq]
      simp [Builder.append]
    · exact hvisit.opened id (by simpa using hid)
  · exact h.visit hshape hexact kind payload
  · refine ⟨h.ascending, ?_, h.parent⟩
    intro id hid
    exact h.opened id (by simp [hstack, show id ∈ rest from hid])

end Steps

/-- After every stream the pending nodes hang together. -/
theorem PendingLinked.feedAll {b : Builder} (h : b.PendingLinked) (hshape : b.Shaped)
    (hexact : b.PendingExact) (events : List Event) : (b.feedAll events).PendingLinked := by
  refine (feedAll_induction (P := fun b => b.Shaped ∧ b.PendingExact ∧ b.PendingLinked) ?_
    ⟨hshape, hexact, h⟩ events).2.2
  rintro b₁ b₂ event id ⟨hshape, hexact, h⟩ hpush
  exact ⟨hshape.push hpush, hexact.push hpush, h.push hshape hexact hpush⟩

/-! ## What the invariant implies -/

section Above

variable {b : Builder}

/-- A pending node has a pending head at each depth above it. -/
theorem PendingLinked.exists_head (h : b.PendingLinked) (hshape : b.Shaped)
    (hexact : b.PendingExact) {depth id : Nat} (hid : id ∈ b.pending)
    (hdepth : depth ≤ b.nodes.depthOf id) :
    ∃ head, b.nodes.ancestorAt depth id = some head ∧ head ∈ b.pendingAt depth := by
  -- The induction climbs from the node to its parent until it comes to the depth.
  induction hsteps : b.nodes.depthOf id - depth generalizing id with
  | zero =>
      obtain rfl : depth = b.nodes.depthOf id := by omega
      exact ⟨id, ancestorAt_depthOf b.nodes id, by simp [pendingAt, hid]⟩
  | succ steps ih =>
      have hlt := ((hexact id).mp hid).1
      rcases hshape.exists_encloses hlt (by omega) with ⟨parent, hencloses⟩
      have hparent := (hshape.parentOf_eq_some_iff hlt).mpr hencloses
      have heq := hencloses.depth_eq
      rw [hencloses.ancestorAt_eq hparent (by omega)]
      exact ih (h.parent id parent hid hparent) (by omega) (by omega)

/-- All nodes around a pending node are pending. -/
theorem PendingLinked.ancestors (h : b.PendingLinked) (hshape : b.Shaped)
    (hexact : b.PendingExact) {id other : Nat} (hid : id ∈ b.pending)
    (hother : other ∈ b.nodes.ancestors id) : other ∈ b.pending := by
  induction id using Nat.strongRecOn with
  | ind id ih =>
      rw [ancestors_eq hshape.parentsFirst ((hexact id).mp hid).1] at hother
      cases hparent : b.nodes.parentOf id with
      | none => simp [hparent] at hother
      | some parent =>
          have hmem := h.parent id parent hid hparent
          rw [hparent] at hother
          rcases List.mem_cons.mp hother with rfl | hother
          · exact hmem
          · exact ih parent (hshape.parentsFirst id parent hparent) hmem hother

end Above

end Builder
end StyleAtlas
