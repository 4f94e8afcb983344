import Mathlib.Data.List.Basic
import StyleAtlas.Outline.Builder
import StyleAtlas.Proofs.Links

/-!
# The shape of an outline under construction

Settling ends and cutting siblings back change nothing but the ends of nodes.  What never changes
after the creation of a node is its skeleton, and the links of an outline are functions of it.
From this follows, for every run of events, how the numbers of the nodes, their depths and their
parents belong together: a node comes after its parent, lies one level below it, and all nodes
between the two lie deeper than the parent.

Main results:

- Theorem `Builder.skeleton_visit`: a visit appends one node and leaves the skeleton of the others.
- Definition `Forest.Encloses`: the parent relation, read off depths alone.
- Definition `Builder.Shaped`, Theorem `Builder.Shaped.run`: the shape that all runs keep.
- Theorem `Builder.Shaped.parentOf_eq_some_iff`: parent links are exactly the enclosing nodes.
-/

namespace StyleAtlas

/-! ## Skeletons -/

/-- The node as it was created, its end not settled. -/
def Node.reopen (n : Node) : Node :=
  { n with stop := none }

namespace Forest

/-- The nodes as they were created. -/
def skeleton (nodes : Forest) : Forest :=
  nodes.map Node.reopen

/-- There is one skeleton for each node. -/
@[simp]
theorem length_skeleton (nodes : Forest) : nodes.skeleton.length = nodes.length := by
  simp [skeleton]

/-- The skeleton of a node stands at its number. -/
theorem getElem?_skeleton (nodes : Forest) (id : Nat) :
    nodes.skeleton[id]? = nodes[id]?.map Node.reopen := by
  simp [skeleton]

/-- The skeleton has the starts. -/
@[simp]
theorem startOf_skeleton (nodes : Forest) (id : Nat) :
    nodes.skeleton.startOf id = nodes.startOf id := by
  unfold startOf
  rw [getElem?_skeleton]
  cases nodes[id]? <;> rfl

/-- The skeleton has the depths. -/
@[simp]
theorem depthOf_skeleton (nodes : Forest) (id : Nat) :
    nodes.skeleton.depthOf id = nodes.depthOf id := by
  unfold depthOf
  rw [getElem?_skeleton]
  cases nodes[id]? <;> rfl

/-- The skeleton has the parents. -/
@[simp]
theorem parentOf_skeleton (nodes : Forest) (id : Nat) :
    nodes.skeleton.parentOf id = nodes.parentOf id := by
  unfold parentOf
  rw [getElem?_skeleton]
  cases nodes[id]? <;> rfl

/-- A change of ends only leaves the skeleton. -/
theorem skeleton_mapIdx {nodes : Forest} {f : Nat → Node → Node}
    (h : ∀ id n, (f id n).reopen = n.reopen) : skeleton (nodes.mapIdx f) = nodes.skeleton := by
  apply List.ext_getElem?
  intro id
  rw [getElem?_skeleton, getElem?_skeleton, List.getElem?_mapIdx]
  cases nodes[id]? <;> simp [h]

/-! ## New nodes -/

/-- Nodes that come later leave the starts of the others. -/
theorem startOf_append {nodes : Forest} {id : Nat} (h : id < nodes.length) (later : Forest) :
    startOf (nodes ++ later) id = nodes.startOf id := by
  simp [startOf, List.getElem?_append_left h]

/-- Nodes that come later leave the depths of the others. -/
theorem depthOf_append {nodes : Forest} {id : Nat} (h : id < nodes.length) (later : Forest) :
    depthOf (nodes ++ later) id = nodes.depthOf id := by
  simp [depthOf, List.getElem?_append_left h]

/-- Nodes that come later leave the parents of the others. -/
theorem parentOf_append {nodes : Forest} {id : Nat} (h : id < nodes.length) (later : Forest) :
    parentOf (nodes ++ later) id = nodes.parentOf id := by
  simp [parentOf, List.getElem?_append_left h]

/-- Nodes that come later leave the ends of the others. -/
theorem stopOf_append {nodes : Forest} {id : Nat} (h : id < nodes.length) (later : Forest) :
    stopOf (nodes ++ later) id = nodes.stopOf id := by
  simp [stopOf, List.getElem?_append_left h]

/-- The start of a new node is its own. -/
@[simp]
theorem startOf_append_length (nodes : Forest) (n : Node) :
    startOf (nodes ++ [n]) nodes.length = n.start := by
  simp [startOf]

/-- The depth of a new node is its own. -/
@[simp]
theorem depthOf_append_length (nodes : Forest) (n : Node) :
    depthOf (nodes ++ [n]) nodes.length = n.depth := by
  simp [depthOf]

/-- The parent of a new node is its own. -/
@[simp]
theorem parentOf_append_length (nodes : Forest) (n : Node) :
    parentOf (nodes ++ [n]) nodes.length = n.parent := by
  simp [parentOf]

/-- The end of a new node is its own. -/
@[simp]
theorem stopOf_append_length (nodes : Forest) (n : Node) :
    stopOf (nodes ++ [n]) nodes.length = n.stop := by
  simp [stopOf]

/-- Only nodes have parents. -/
theorem lt_length_of_parentOf {nodes : Forest} {id parent : Nat}
    (h : nodes.parentOf id = some parent) : id < nodes.length := by
  by_contra hlt
  rw [parentOf, List.getElem?_eq_none (Nat.le_of_not_lt hlt)] at h
  simp at h

/-- Only nodes have ends. -/
theorem lt_length_of_stopOf {nodes : Forest} {id stop : Nat} (h : nodes.stopOf id = some stop) :
    id < nodes.length := by
  by_contra hlt
  rw [stopOf, List.getElem?_eq_none (Nat.le_of_not_lt hlt)] at h
  simp at h

/-- The children of a node, and the roots, are the nodes that name it. -/
theorem mem_under {nodes : Forest} {parent : Option Nat} {id : Nat} :
    id ∈ nodes.under parent ↔ id < nodes.length ∧ nodes.parentOf id = parent := by
  rw [under_eq_indicesOf]
  exact mem_indicesOf_map

/-! ## Enclosing nodes -/

/-- The parent relation read off depths: `outer` is the last node before `inner` that lies one
level above it, and no node between them lies as far up. -/
structure Encloses (nodes : Forest) (outer inner : Nat) : Prop where
  lt : outer < inner
  depth_eq : nodes.depthOf inner = nodes.depthOf outer + 1
  between : ∀ id, outer < id → id < inner → nodes.depthOf outer < nodes.depthOf id

/-- A node is enclosed by one node at most. -/
theorem Encloses.unique {nodes : Forest} {outer outer' inner : Nat}
    (h : nodes.Encloses outer inner) (h' : nodes.Encloses outer' inner) : outer = outer' := by
  have hdepth := h.depth_eq
  have hdepth' := h'.depth_eq
  rcases Nat.lt_trichotomy outer outer' with hlt | heq | hgt
  · have := h.between outer' hlt h'.lt
    omega
  · exact heq
  · have := h'.between outer hgt h.lt
    omega

/-- New nodes enclose none of those before. -/
theorem encloses_append {nodes : Forest} {outer inner : Nat} (hinner : inner < nodes.length)
    (later : Forest) : Encloses (nodes ++ later) outer inner ↔ nodes.Encloses outer inner := by
  constructor
  · rintro ⟨hlt, hdepth, hbetween⟩
    rw [depthOf_append hinner, depthOf_append (Nat.lt_trans hlt hinner)] at hdepth
    refine ⟨hlt, hdepth, ?_⟩
    intro id houter hid
    have := hbetween id houter hid
    rwa [depthOf_append (Nat.lt_trans hid hinner), depthOf_append (Nat.lt_trans hlt hinner)] at this
  · rintro ⟨hlt, hdepth, hbetween⟩
    refine ⟨hlt, ?_, ?_⟩
    · rw [depthOf_append hinner, depthOf_append (Nat.lt_trans hlt hinner), hdepth]
    · intro id houter hid
      rw [depthOf_append (Nat.lt_trans hid hinner), depthOf_append (Nat.lt_trans hlt hinner)]
      exact hbetween id houter hid

/-- Which node encloses which is a matter of the skeleton. -/
@[simp]
theorem encloses_skeleton {nodes : Forest} {outer inner : Nat} :
    nodes.skeleton.Encloses outer inner ↔ nodes.Encloses outer inner := by
  constructor
  · rintro ⟨hlt, hdepth, hbetween⟩
    exact ⟨hlt, by simpa using hdepth, by simpa using hbetween⟩
  · rintro ⟨hlt, hdepth, hbetween⟩
    exact ⟨hlt, by simpa using hdepth, by simpa using hbetween⟩

/-! ## The way up -/

/-- Parents come before their children. -/
def ParentsFirst (nodes : Forest) : Prop :=
  ∀ id parent, nodes.parentOf id = some parent → parent < id

/-- The way up from a node is a matter of the parent links at or below its number, and enough fuel
is as good as more. -/
theorem ancestorsUpTo_congr {nodes nodes' : Forest} (hfirst : nodes.ParentsFirst)
    {id fuel fuel' : Nat} (hlinks : ∀ i ≤ id, nodes'.parentOf i = nodes.parentOf i)
    (hfuel : id ≤ fuel) (hfuel' : id ≤ fuel') :
    nodes'.ancestorsUpTo fuel' id = nodes.ancestorsUpTo fuel id := by
  have hzero : nodes.parentOf 0 = none := by
    cases hparent : nodes.parentOf 0 with
    | none => rfl
    | some parent => exact absurd (hfirst 0 parent hparent) (Nat.not_lt_zero parent)
  induction fuel generalizing id fuel' with
  | zero =>
      obtain rfl : id = 0 := by omega
      cases fuel' with
      | zero => rfl
      | succ fuel' => simp [ancestorsUpTo, hlinks, hzero]
  | succ fuel ih =>
      cases fuel' with
      | zero =>
          obtain rfl : id = 0 := by omega
          simp [ancestorsUpTo, hzero]
      | succ fuel' =>
          rw [ancestorsUpTo, ancestorsUpTo, hlinks id (Nat.le_refl id)]
          cases hparent : nodes.parentOf id with
          | none => rfl
          | some parent =>
              have hlt := hfirst id parent hparent
              have hrest : nodes'.ancestorsUpTo fuel' parent = nodes.ancestorsUpTo fuel parent :=
                ih (fun i hi => hlinks i (by omega)) (by omega) (by omega)
              simp only [hrest]

/-- The nodes around a node are its parent and the nodes around that. -/
theorem ancestors_eq {nodes : Forest} (hfirst : nodes.ParentsFirst) {id : Nat}
    (hid : id < nodes.length) :
    nodes.ancestors id =
      match nodes.parentOf id with
      | some parent => parent :: nodes.ancestors parent
      | none => [] := by
  have hmore : nodes.ancestors id = nodes.ancestorsUpTo (nodes.length + 1) id :=
    ancestorsUpTo_congr hfirst (fun _ _ => rfl) (by omega) (by omega)
  rw [hmore, ancestorsUpTo]
  rfl

/-- Ancestors come before a node. -/
theorem lt_of_mem_ancestorsUpTo {nodes : Forest} (hfirst : nodes.ParentsFirst)
    {fuel id other : Nat} (h : other ∈ nodes.ancestorsUpTo fuel id) : other < id := by
  induction fuel generalizing id with
  | zero => simp [ancestorsUpTo] at h
  | succ fuel ih =>
      rw [ancestorsUpTo] at h
      cases hparent : nodes.parentOf id with
      | none => simp [hparent] at h
      | some parent =>
          have hlt := hfirst id parent hparent
          rw [hparent] at h
          rcases List.mem_cons.mp h with rfl | h
          · exact hlt
          · exact Nat.lt_trans (ih h) hlt

end Forest

/-! ## Steps of the builder -/

namespace Builder

open Forest

/-- Closing branches leaves the skeleton. -/
theorem skeleton_resolvePending (b : Builder) (depth boundary : Nat) :
    (b.resolvePending depth boundary).nodes.skeleton = b.nodes.skeleton := by
  apply skeleton_mapIdx
  intro id n
  split <;> rfl

/-- Cutting siblings back leaves the skeleton. -/
theorem skeleton_trim (b : Builder) (parent : Option Nat) (place : Nat) :
    (b.trim parent place).nodes.skeleton = b.nodes.skeleton := by
  apply skeleton_mapIdx
  intro id n
  split
  · split <;> rfl
  · rfl

/-- The start that a new node gets. -/
def startFor (b : Builder) (payload : Payload) : Nat :=
  match payload.location with
  | some location => max (b.source.clamp location.position) b.floor
  | none => max b.inheritedStart b.floor

/-- The builder once a new node has closed the branches before it. -/
def closeBefore (b : Builder) (payload : Payload) : Builder :=
  match payload.location with
  | some _ =>
      (b.resolvePending b.depth (b.startFor payload)).trim b.current (b.startFor payload)
  | none => b

/-- A visit closes branches, then appends a node. -/
theorem visit_eq (b : Builder) (kind : Kind) (payload : Payload) :
    b.visit kind payload = (b.closeBefore payload).append kind payload (b.startFor payload) := by
  unfold visit closeBefore startFor
  cases payload.location <;> rfl

/-- Closing branches before a node leaves the source. -/
@[simp]
theorem closeBefore_source (b : Builder) (payload : Payload) :
    (b.closeBefore payload).source = b.source := by
  unfold closeBefore
  split <;> rfl

/-- Closing branches before a node leaves the open containers. -/
@[simp]
theorem closeBefore_stack (b : Builder) (payload : Payload) :
    (b.closeBefore payload).stack = b.stack := by
  unfold closeBefore
  split <;> rfl

/-- Closing branches before a node leaves the skeleton. -/
theorem skeleton_closeBefore (b : Builder) (payload : Payload) :
    (b.closeBefore payload).nodes.skeleton = b.nodes.skeleton := by
  unfold closeBefore
  split
  · rw [skeleton_trim, skeleton_resolvePending]
  · rfl

/-- Closing branches before a node adds none. -/
@[simp]
theorem length_closeBefore (b : Builder) (payload : Payload) :
    (b.closeBefore payload).nodes.length = b.nodes.length := by
  rw [← length_skeleton, skeleton_closeBefore, length_skeleton]

/-- A visit leaves the source. -/
@[simp]
theorem visit_source (b : Builder) (kind : Kind) (payload : Payload) :
    (b.visit kind payload).source = b.source := by
  rw [visit_eq]
  exact closeBefore_source b payload

/-- A visit leaves the open containers. -/
@[simp]
theorem visit_stack (b : Builder) (kind : Kind) (payload : Payload) :
    (b.visit kind payload).stack = b.stack := by
  rw [visit_eq]
  exact closeBefore_stack b payload

/-- A visit appends one node and leaves the skeleton of the others. -/
theorem skeleton_visit (b : Builder) (kind : Kind) (payload : Payload) :
    (b.visit kind payload).nodes.skeleton =
      b.nodes.skeleton ++ [⟨kind, payload, b.depth, b.current, b.startFor payload, none⟩] := by
  rw [visit_eq]
  simp only [append, depth, current, closeBefore_stack]
  rw [← skeleton_closeBefore b payload]
  simp [skeleton, Node.reopen]

/-- A visit adds one node. -/
@[simp]
theorem length_visit (b : Builder) (kind : Kind) (payload : Payload) :
    (b.visit kind payload).nodes.length = b.nodes.length + 1 := by
  rw [← length_skeleton, skeleton_visit]
  simp

/-- The new node lies at the depth of the builder. -/
theorem depthOf_visit_length (b : Builder) (kind : Kind) (payload : Payload) :
    (b.visit kind payload).nodes.depthOf b.nodes.length = b.depth := by
  rw [← depthOf_skeleton, skeleton_visit, ← length_skeleton, depthOf_append_length]

/-! ## The shape that all runs keep -/

/-- How numbers, depths and parents belong together.  A node without a parent lies at depth zero,
a parent encloses its children, and the open containers enclose each other and all that comes. -/
structure Shaped (b : Builder) : Prop where
  root_depth : ∀ id, id < b.nodes.length → b.nodes.parentOf id = none → b.nodes.depthOf id = 0
  encloses : ∀ id parent, b.nodes.parentOf id = some parent → b.nodes.Encloses parent id
  stack_lt : ∀ id ∈ b.stack, id < b.nodes.length
  stack_depth : ∀ inner id outer, b.stack = inner ++ id :: outer →
    b.nodes.depthOf id = outer.length
  stack_later : ∀ id ∈ b.stack, ∀ later, id < later → later < b.nodes.length →
    b.nodes.depthOf id < b.nodes.depthOf later

/-- Nothing is built and nothing open at first. -/
theorem Shaped.init (source : Source) : (Builder.init source).Shaped where
  root_depth := by simp [Builder.init]
  encloses := by
    intro id parent h
    exact absurd (lt_length_of_parentOf h) (by simp [Builder.init])
  stack_lt := by simp [Builder.init]
  stack_depth := by simp [Builder.init]
  stack_later := by simp [Builder.init]

/-- Open containers lie above the next node. -/
theorem Shaped.depthOf_lt_depth {b : Builder} (h : b.Shaped) {id : Nat} (hid : id ∈ b.stack) :
    b.nodes.depthOf id < b.depth := by
  obtain ⟨inner, outer, hstack⟩ := List.append_of_mem hid
  rw [h.stack_depth inner id outer hstack, depth, hstack]
  simp
  omega

/-- The innermost open container lies just above the next node. -/
theorem Shaped.depthOf_current {b : Builder} (h : b.Shaped) {parent : Nat}
    (hcurrent : b.current = some parent) : b.depth = b.nodes.depthOf parent + 1 := by
  obtain ⟨outer, hstack⟩ := List.head?_eq_some_iff.mp hcurrent
  rw [h.stack_depth [] parent outer hstack, depth, hstack, List.length_cons]

/-- A visit keeps the shape: the new node lies in the innermost open container. -/
theorem Shaped.visit {b : Builder} (h : b.Shaped) (kind : Kind) (payload : Payload) :
    (b.visit kind payload).Shaped := by
  -- The shape is a matter of the skeleton, to which a visit appends one node.
  have hskeleton := skeleton_visit b kind payload
  have hlength := length_visit b kind payload
  have hdepth : ∀ id < b.nodes.length,
      (b.visit kind payload).nodes.depthOf id = b.nodes.depthOf id := by
    intro id hid
    rw [← depthOf_skeleton, hskeleton, depthOf_append (by simpa using hid), depthOf_skeleton]
  have hparent : ∀ id < b.nodes.length,
      (b.visit kind payload).nodes.parentOf id = b.nodes.parentOf id := by
    intro id hid
    rw [← parentOf_skeleton, hskeleton, parentOf_append (by simpa using hid), parentOf_skeleton]
  have hnewDepth := depthOf_visit_length b kind payload
  have hnewParent : (b.visit kind payload).nodes.parentOf b.nodes.length = b.current := by
    rw [← parentOf_skeleton, hskeleton, ← length_skeleton, parentOf_append_length]
  have hold : ∀ id < (b.visit kind payload).nodes.length,
      id < b.nodes.length ∨ id = b.nodes.length := by
    intro id hid
    omega
  constructor
  · intro id hid hroot
    rcases hold id hid with hlt | rfl
    · rw [hdepth id hlt]
      exact h.root_depth id hlt (by rw [← hparent id hlt, hroot])
    · rw [hnewDepth, depth, List.length_eq_zero_iff, ← List.head?_eq_none_iff]
      exact hnewParent.symm.trans hroot
  · intro id parent hid
    rcases hold id (lt_length_of_parentOf hid) with hlt | rfl
    · rw [← encloses_skeleton, hskeleton, encloses_append (by simpa using hlt), encloses_skeleton]
      exact h.encloses id parent (by rw [← hparent id hlt, hid])
    · have hcurrent : b.current = some parent := hnewParent.symm.trans hid
      have hmem : parent ∈ b.stack := List.mem_of_mem_head? hcurrent
      have hparentLt := h.stack_lt parent hmem
      refine ⟨hparentLt, ?_, ?_⟩
      · rw [hnewDepth, hdepth parent hparentLt, h.depthOf_current hcurrent]
      · intro later hlater hlt
        rw [hdepth parent hparentLt, hdepth later hlt]
        exact h.stack_later parent hmem later hlater hlt
  · intro id hid
    have := h.stack_lt id (by simpa using hid)
    omega
  · intro inner id outer hstack
    rw [visit_stack] at hstack
    rw [hdepth id (h.stack_lt id (by simp [hstack]))]
    exact h.stack_depth inner id outer hstack
  · intro id hid later hlater hlt
    rw [visit_stack] at hid
    have hidLt := h.stack_lt id hid
    rcases hold later hlt with hold | rfl
    · rw [hdepth id hidLt, hdepth later hold]
      exact h.stack_later id hid later hlater hold
    · rw [hdepth id hidLt, hnewDepth]
      exact h.depthOf_lt_depth hid

/-- The shape is a matter of the skeleton and of the open containers. -/
theorem Shaped.of_skeleton {b b' : Builder} (h : b.Shaped)
    (hskeleton : b'.nodes.skeleton = b.nodes.skeleton) (hstack : b'.stack = b.stack) :
    b'.Shaped := by
  have hlength : b'.nodes.length = b.nodes.length := by
    rw [← length_skeleton, hskeleton, length_skeleton]
  have hdepth : ∀ id, b'.nodes.depthOf id = b.nodes.depthOf id := by
    intro id
    rw [← depthOf_skeleton, hskeleton, depthOf_skeleton]
  have hparent : ∀ id, b'.nodes.parentOf id = b.nodes.parentOf id := by
    intro id
    rw [← parentOf_skeleton, hskeleton, parentOf_skeleton]
  constructor
  · simpa only [hlength, hdepth, hparent] using h.root_depth
  · intro id parent hid
    rw [← encloses_skeleton, hskeleton, encloses_skeleton]
    exact h.encloses id parent (by rw [← hparent, hid])
  · simpa only [hlength, hstack] using h.stack_lt
  · simpa only [hdepth, hstack] using h.stack_depth
  · simpa only [hlength, hdepth, hstack] using h.stack_later

/-- Opening the node that was just added keeps the shape. -/
theorem Shaped.open {b : Builder} (h : b.Shaped) {id : Nat} (hlast : id + 1 = b.nodes.length)
    (hdepth : b.nodes.depthOf id = b.depth) : Shaped { b with stack := id :: b.stack } where
  root_depth := h.root_depth
  encloses := h.encloses
  stack_lt := by
    intro other hother
    rcases List.mem_cons.mp hother with rfl | hother
    · show other < b.nodes.length
      omega
    · exact h.stack_lt other hother
  stack_depth := by
    intro inner other outer hstack
    cases inner with
    | nil =>
        obtain ⟨rfl, rfl⟩ : id = other ∧ b.stack = outer := by simpa using hstack
        exact hdepth
    | cons first inner =>
        obtain ⟨-, hrest⟩ : id = first ∧ b.stack = inner ++ other :: outer := by
          simpa using hstack
        exact h.stack_depth inner other outer hrest
  stack_later := by
    intro other hother later hlater hlt
    rcases List.mem_cons.mp hother with rfl | hother
    · have : later < b.nodes.length := hlt
      omega
    · exact h.stack_later other hother later hlater hlt

/-- Closing the innermost container keeps the shape. -/
theorem Shaped.close {b : Builder} (h : b.Shaped) {top : Nat} {rest : List Nat}
    (hstack : b.stack = top :: rest) : Shaped { b with stack := rest } where
  root_depth := h.root_depth
  encloses := h.encloses
  stack_lt := fun id hid => h.stack_lt id (by simp [hstack, show id ∈ rest from hid])
  stack_depth := by
    intro inner id outer hrest
    refine h.stack_depth (top :: inner) id outer ?_
    rw [hstack, show rest = inner ++ id :: outer from hrest, List.cons_append]
  stack_later := fun id hid => h.stack_later id (by simp [hstack, show id ∈ rest from hid])

/-! ## Accepted events -/

/-- What an accepted event does: it visits a node, which it may open, or closes the innermost
container. -/
theorem push_cases {b b' : Builder} {event : Event} {id : Nat}
    (h : b.push event = .ok (id, b')) :
    (∃ kind payload, event = .enter kind payload ∧ kind.isContainer = true ∧
      b' = { b.visit kind payload with stack := b.nodes.length :: b.stack }) ∨
    (∃ kind payload, event = .leaf kind payload ∧ b' = b.visit kind payload) ∨
    (∃ kind top rest, event = .exit kind ∧ b.stack = top :: rest ∧
      b' = { b with stack := rest }) := by
  cases event with
  | enter kind payload =>
      simp only [push, enter] at h
      split at h
      · rename_i hkind
        simp only [Except.ok.injEq, Prod.mk.injEq] at h
        exact Or.inl ⟨kind, payload, rfl, hkind, h.2.symm⟩
      · cases h
  | leaf kind payload =>
      simp only [push, leaf, Except.ok.injEq, Prod.mk.injEq] at h
      exact Or.inr (Or.inl ⟨kind, payload, rfl, h.2.symm⟩)
  | exit kind =>
      simp only [push, exit] at h
      split at h
      · cases h
      · rename_i top rest hstack
        split at h
        · split at h
          · simp only [Except.ok.injEq, Prod.mk.injEq] at h
            exact Or.inr (Or.inr ⟨kind, top, rest, rfl, hstack, h.2.symm⟩)
          · cases h
        · cases h

/-- An accepted event keeps the shape. -/
theorem Shaped.push {b b' : Builder} (h : b.Shaped) {event : Event} {id : Nat}
    (hpush : b.push event = .ok (id, b')) : b'.Shaped := by
  rcases push_cases hpush with ⟨kind, payload, -, -, rfl⟩ | ⟨kind, payload, -, rfl⟩ |
    ⟨kind, top, rest, -, hstack, rfl⟩
  · have hlast := (length_visit b kind payload).symm
    have hdepth : (b.visit kind payload).nodes.depthOf b.nodes.length =
        (b.visit kind payload).depth := by
      rw [depthOf_visit_length, depth, depth, visit_stack]
    have hopen := (h.visit kind payload).open hlast hdepth
    rwa [visit_stack] at hopen
  · exact h.visit kind payload
  · exact h.close hstack

/-! ## Runs, event by event -/

/-- Runs may follow one another. -/
theorem run_append {b mid b' : Builder} {events later : List Event}
    (h : b.run events = .ok mid) (hlater : mid.run later = .ok b') :
    b.run (events ++ later) = .ok b' := by
  unfold run at *
  rw [List.foldlM_append, h]
  exact hlater

/-- A leaf is visited. -/
theorem run_leaf (b : Builder) (kind : Kind) (payload : Payload) (events : List Event) :
    b.run (.leaf kind payload :: events) = (b.visit kind payload).run events := by
  simp only [run, List.foldlM_cons, push, leaf]
  rfl

/-- A container that is entered is visited, and is innermost from then on. -/
theorem run_enter (b : Builder) {kind : Kind} (hkind : kind.isContainer = true)
    (payload : Payload) (events : List Event) :
    b.run (.enter kind payload :: events) =
      run { b.visit kind payload with stack := b.nodes.length :: b.stack } events := by
  simp only [run, List.foldlM_cons, push, enter, hkind, if_true]
  rfl

/-- Leaving the innermost container makes the one around it innermost. -/
theorem run_exit {b : Builder} {top : Nat} {rest : List Nat} {n : Node} {kind : Kind}
    (hstack : b.stack = top :: rest) (hnode : b.nodes[top]? = some n) (hkind : n.kind = kind)
    (events : List Event) :
    b.run (.exit kind :: events) = run { b with stack := rest } events := by
  simp only [run, List.foldlM_cons, push, exit, hstack, hnode, hkind, if_true]
  rfl

/-- The first event of an accepted stream is accepted, and so is the rest after it. -/
theorem run_cons {b b' : Builder} {event : Event} {events : List Event}
    (h : b.run (event :: events) = .ok b') :
    ∃ id mid, b.push event = .ok (id, mid) ∧ mid.run events = .ok b' := by
  simp only [run, List.foldlM_cons] at h
  cases hpush : b.push event with
  | error e =>
      rw [hpush] at h
      cases h
  | ok answer =>
      rw [hpush] at h
      exact ⟨answer.1, answer.2, rfl, h⟩

/-- A run keeps the source. -/
theorem source_run {b b' : Builder} {events : List Event} (hrun : b.run events = .ok b') :
    b'.source = b.source := by
  induction events generalizing b with
  | nil =>
      simp only [run, List.foldlM_nil] at hrun
      cases hrun
      rfl
  | cons event events ih =>
      obtain ⟨id, mid, hpush, hrest⟩ := run_cons hrun
      rw [ih hrest]
      rcases push_cases hpush with ⟨kind, payload, -, -, rfl⟩ | ⟨kind, payload, -, rfl⟩ |
        ⟨kind, top, rest, -, -, rfl⟩
      · exact visit_source b kind payload
      · exact visit_source b kind payload
      · rfl

/-- All runs keep the shape. -/
theorem Shaped.run {b b' : Builder} {events : List Event} (h : b.Shaped)
    (hrun : b.run events = .ok b') : b'.Shaped := by
  induction events generalizing b with
  | nil =>
      simp only [Builder.run, List.foldlM_nil] at hrun
      cases hrun
      exact h
  | cons event events ih =>
      obtain ⟨id, mid, hpush, hrest⟩ := run_cons hrun
      exact ih (h.push hpush) hrest

/-- Parents are exactly the enclosing nodes. -/
theorem Shaped.parentOf_eq_some_iff {b : Builder} (h : b.Shaped) {id parent : Nat}
    (hid : id < b.nodes.length) :
    b.nodes.parentOf id = some parent ↔ b.nodes.Encloses parent id := by
  constructor
  · exact h.encloses id parent
  · intro hencloses
    cases hparent : b.nodes.parentOf id with
    | none =>
        have hroot := h.root_depth id hid hparent
        have hdepth := hencloses.depth_eq
        omega
    | some parent' =>
        rw [(h.encloses id parent' hparent).unique hencloses]

/-- Nodes below the roots are enclosed. -/
theorem Shaped.exists_encloses {b : Builder} (h : b.Shaped) {id : Nat}
    (hid : id < b.nodes.length) (hdepth : b.nodes.depthOf id ≠ 0) :
    ∃ parent, b.nodes.Encloses parent id := by
  cases hparent : b.nodes.parentOf id with
  | none => exact absurd (h.root_depth id hid hparent) hdepth
  | some parent => exact ⟨parent, h.encloses id parent hparent⟩

/-- In the shape that all runs keep, parents come before their children. -/
theorem Shaped.parentsFirst {b : Builder} (h : b.Shaped) : b.nodes.ParentsFirst :=
  fun id parent hparent => (h.encloses id parent hparent).lt

end Builder

/-! ## Finished outlines -/

namespace Outline

/-- The extent of a settled node runs from its start to its end. -/
theorem extentOf_eq {o : Outline} {id stop : Nat} (h : o.nodes.stopOf id = some stop) :
    o.extentOf id = some ⟨o.nodes.startOf id, stop⟩ := by
  obtain ⟨n, hn, hstop⟩ := Option.bind_eq_some_iff.mp h
  simp [extentOf, node?, Node.extent?, Forest.startOf, hn, hstop]

/-- Only nodes have extents. -/
theorem lt_length_of_extentOf {o : Outline} {id : Nat} {x : Extent}
    (h : o.extentOf id = some x) : id < o.nodes.length := by
  obtain ⟨n, hn, -⟩ := Option.bind_eq_some_iff.mp h
  exact (List.getElem?_eq_some_iff.mp hn).1

/-- An outline is finished from the state that its events lead to. -/
theorem exists_run_of_ofEvents {s : Source} {events : List Event} {o : Outline}
    (h : Outline.ofEvents s events = .ok o) :
    ∃ b, (Builder.init s).run events = .ok b ∧ o = b.finish := by
  unfold Outline.ofEvents at h
  cases hrun : (Builder.init s).run events with
  | error e =>
      rw [hrun] at h
      cases h
  | ok b =>
      rw [hrun] at h
      cases h
      exact ⟨b, rfl, rfl⟩

/-- A finished outline has the shape that all runs keep. -/
theorem exists_shaped_of_ofEvents {s : Source} {events : List Event} {o : Outline}
    (h : Outline.ofEvents s events = .ok o) : ∃ b : Builder, b.Shaped ∧ o.nodes = b.nodes := by
  obtain ⟨b, hrun, rfl⟩ := exists_run_of_ofEvents h
  refine ⟨b.resolvePending 0 b.source.size, ?_, rfl⟩
  exact ((Builder.Shaped.init s).run hrun).of_skeleton (Builder.skeleton_resolvePending b 0 _) rfl

end Outline
end StyleAtlas
