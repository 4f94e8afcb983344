import StyleAtlas.Proofs.Outline.Preorder

/-!
# Links kept event by event

A table of nodes in which every link is written down: the parent and the children of a node, its
neighbours among its siblings, and the list of roots.  An event writes several of them at once, in
the new node, in its parent or the list of roots, and in the sibling before it.  Whatever the events
are, and whichever of them are refused, the links of the table stay those that an outline reads off
the parents of its nodes, and they form a forest in pre-order.

Main results:

- Definition `LinkTable`, with `LinkTable.visit` and `LinkTable.feed`: the table and its events.
- Theorem `Forest.linksOf_concat`: what a new node changes in the links of the others.
- Theorem `LinkTable.Records.feedAll`: the table agrees with the builder along every stream.
- Theorem `Outline.links_form_preorder_forest`: the links of a finished outline.
-/

namespace StyleAtlas

/-! ## The table -/

/-- A node with all its links. -/
structure LinkedNode where
  kind : Kind
  depth : Nat
  parent : Option Nat
  prev : Option Nat
  next : Option Nat
  children : List Nat
deriving DecidableEq

/-- Nodes in creation order with their links, the roots, and the open containers with the innermost
first. -/
structure LinkTable where
  nodes : List LinkedNode
  roots : List Nat
  stack : List Nat
deriving DecidableEq

namespace LinkTable

/-- No node yet. -/
def empty : LinkTable :=
  ⟨[], [], []⟩

/-- The list that the children of a node, or the roots, are kept in. -/
def siblings (t : LinkTable) : Option Nat → List Nat
  | some parent => (t.nodes[parent]?.map LinkedNode.children).getD []
  | none => t.roots

/-- Add a number to the list of children of a node, or to the roots. -/
def join (t : LinkTable) (parent : Option Nat) (id : Nat) : LinkTable :=
  match parent with
  | some parent =>
      { t with
        nodes := t.nodes.modify parent fun n => { n with children := n.children ++ [id] } }
  | none => { t with roots := t.roots ++ [id] }

/-- Let a number follow a node among its siblings, if there is one before it. -/
def follow (t : LinkTable) (prev : Option Nat) (id : Nat) : LinkTable :=
  match prev with
  | some prev => { t with nodes := t.nodes.modify prev fun n => { n with next := some id } }
  | none => t

/-- Add a node to the innermost open container, or as a root, behind its last sibling. -/
def visit (t : LinkTable) (kind : Kind) : LinkTable :=
  let id := t.nodes.length
  let parent := t.stack.head?
  let prev := (t.siblings parent).getLast?
  let linked := (t.join parent id).follow prev id
  { linked with nodes := linked.nodes ++ [⟨kind, t.stack.length, parent, prev, none, []⟩] }

/-- Feed an event; one that is refused leaves the table as it was. -/
def feed (t : LinkTable) : Event → LinkTable
  | .enter kind _ =>
      if kind.isContainer then { t.visit kind with stack := t.nodes.length :: t.stack } else t
  | .leaf kind _ => t.visit kind
  | .exit kind =>
      match t.stack with
      | [] => t
      | top :: rest =>
          if t.nodes[top]?.map LinkedNode.kind = some kind then { t with stack := rest } else t

/-- Feed a stream of events, of which some may be refused. -/
def feedAll (t : LinkTable) (events : List Event) : LinkTable :=
  events.foldl feed t

/-- Joining a list of links changes the children of one node. -/
theorem getElem?_join (t : LinkTable) (parent : Option Nat) (id other : Nat) :
    (t.join parent id).nodes[other]? = t.nodes[other]?.map fun n =>
      if parent = some other then { n with children := n.children ++ [id] } else n := by
  cases parent with
  | none => simp [join]
  | some parent =>
      by_cases hsame : parent = other <;> simp [join, hsame]

/-- Following a node changes the next sibling of that node. -/
theorem getElem?_follow (t : LinkTable) (prev : Option Nat) (id other : Nat) :
    (t.follow prev id).nodes[other]? = t.nodes[other]?.map fun n =>
      if prev = some other then { n with next := some id } else n := by
  cases prev with
  | none => simp [follow]
  | some prev =>
      by_cases hsame : prev = other <;> simp [follow, hsame]

/-- Linking a node adds none. -/
@[simp]
theorem length_linked (t : LinkTable) (parent prev : Option Nat) (id : Nat) :
    ((t.join parent id).follow prev id).nodes.length = t.nodes.length := by
  cases parent <;> cases prev <;> simp [join, follow]

/-- A visit leaves the open containers. -/
@[simp]
theorem stack_visit (t : LinkTable) (kind : Kind) : (t.visit kind).stack = t.stack := by
  have hlinked : ∀ parent prev id, ((t.join parent id).follow prev id).stack = t.stack := by
    intro parent prev id
    cases parent <;> cases prev <;> rfl
  exact hlinked _ _ _

/-- Where no container is open, a visit adds a root. -/
theorem roots_visit (t : LinkTable) (kind : Kind) :
    (t.visit kind).roots =
      t.roots ++ if t.stack.head? = none then [t.nodes.length] else [] := by
  have hlinked : ∀ parent prev id, ((t.join parent id).follow prev id).roots =
      t.roots ++ if parent = none then [id] else [] := by
    intro parent prev id
    cases parent <;> cases prev <;> simp [join, follow]
  exact hlinked _ _ _

/-- A visit changes the node before the new one and the parent, and adds the new one. -/
theorem getElem?_visit (t : LinkTable) (kind : Kind) {id : Nat} (hid : id < t.nodes.length) :
    (t.visit kind).nodes[id]? = t.nodes[id]?.map fun l =>
      { l with
        next := if (t.siblings t.stack.head?).getLast? = some id then some t.nodes.length
          else l.next
        children := if t.stack.head? = some id then l.children ++ [t.nodes.length]
          else l.children } := by
  unfold visit
  rw [List.getElem?_append_left (by simpa using hid), getElem?_follow, getElem?_join,
    Option.map_map]
  congr 1
  funext l
  simp only [Function.comp_apply]
  split <;> split <;> rfl

/-- The new node lies in the innermost open container, behind its last child. -/
theorem getElem?_visit_length (t : LinkTable) (kind : Kind) :
    (t.visit kind).nodes[t.nodes.length]? =
      some ⟨kind, t.stack.length, t.stack.head?, (t.siblings t.stack.head?).getLast?, none,
        []⟩ := by
  unfold visit
  rw [List.getElem?_append_right (by simp)]
  simp

/-- A visit adds one node. -/
@[simp]
theorem length_visit (t : LinkTable) (kind : Kind) :
    (t.visit kind).nodes.length = t.nodes.length + 1 := by
  simp [visit]

end LinkTable

/-! ## Links that are read off the parents -/

namespace Forest

/-- A node of an outline with the links that are read off the parents. -/
def linksOf (nodes : Forest) (id : Nat) : Option LinkedNode :=
  nodes[id]?.map fun n =>
    ⟨n.kind, n.depth, n.parent, nodes.before id, nodes.after id, nodes.under (some id)⟩

/-- The links of a node are those with which it was created. -/
theorem linksOf_skeleton (nodes : Forest) (id : Nat) :
    nodes.skeleton.linksOf id = nodes.linksOf id := by
  have hbefore : nodes.skeleton.before id = nodes.before id := by
    rw [before, before, parentOf_skeleton, under_skeleton]
  have hafter : nodes.skeleton.after id = nodes.after id := by
    rw [after, after, parentOf_skeleton, under_skeleton]
  rw [linksOf, linksOf, getElem?_skeleton, hbefore, hafter, under_skeleton]
  cases nodes[id]? <;> rfl

/-- What a new node changes in the links of another one: the last sibling before it gets it as a
neighbour, and its parent gets it as a child. -/
theorem linksOf_concat {nodes : Forest} {id : Nat} (hid : id < nodes.length) (n : Node) :
    linksOf (nodes ++ [n]) id = (nodes.linksOf id).map fun l =>
      { l with
        next := if (nodes.under n.parent).getLast? = some id then some nodes.length else l.next
        children := if n.parent = some id then l.children ++ [nodes.length] else l.children } := by
  rcases List.append_of_mem (mem_under.mpr ⟨hid, rfl⟩ : id ∈ nodes.under (nodes.parentOf id)) with
    ⟨front, back, hsplit⟩
  have hparent : parentOf (nodes ++ [n]) id = nodes.parentOf id := parentOf_append hid [n]
  have hsplit' : under (nodes ++ [n]) (parentOf (nodes ++ [n]) id) =
      front ++ id :: (back ++ if n.parent = nodes.parentOf id then [nodes.length] else []) := by
    rw [hparent, under_concat, hsplit, List.append_assoc, List.cons_append]
  have hold := neighbours_under hsplit
  have hnew := neighbours_under hsplit'
  have hnext : after (nodes ++ [n]) id =
      if (nodes.under n.parent).getLast? = some id then some nodes.length else nodes.after id := by
    rw [hnew.2, hold.2]
    by_cases hsibling : n.parent = nodes.parentOf id
    · rw [hsibling, hsplit, if_pos rfl]
      cases back with
      | nil => simp
      | cons next back =>
          -- The list ascends, so the node is not its last one where others follow it.
          have hsorted := pairwise_under nodes (nodes.parentOf id)
          rw [hsplit, List.pairwise_append, List.pairwise_cons] at hsorted
          have hlast : (front ++ id :: next :: back).getLast? ≠ some id := by
            intro hlast
            rw [List.getLast?_append_cons, List.getLast?_cons_cons] at hlast
            exact Nat.lt_irrefl id (hsorted.2.1.1 id (List.mem_of_getLast? hlast))
          rw [if_neg hlast]
          rfl
    · have hother : (nodes.under n.parent).getLast? ≠ some id := by
        intro hlast
        exact hsibling (mem_under.mp (List.mem_of_getLast? hlast)).2.symm
      rw [if_neg hsibling, if_neg hother, List.append_nil]
  have hchildren : under (nodes ++ [n]) (some id) =
      if n.parent = some id then nodes.under (some id) ++ [nodes.length]
      else nodes.under (some id) := by
    rw [under_concat]
    split <;> simp
  rw [linksOf, linksOf, List.getElem?_append_left hid, hnew.1, ← hold.1, hnext, hchildren,
    Option.map_map]
  rfl

/-- The links of a new node: it stands behind the last sibling, and has no children. -/
theorem linksOf_concat_length {nodes : Forest} {n : Node}
    (hfirst : ParentsFirst (nodes ++ [n])) :
    linksOf (nodes ++ [n]) nodes.length =
      some ⟨n.kind, n.depth, n.parent, (nodes.under n.parent).getLast?, none, []⟩ := by
  have hsplit : under (nodes ++ [n]) (parentOf (nodes ++ [n]) nodes.length) =
      nodes.under n.parent ++ nodes.length :: [] := by
    rw [parentOf_append_length, under_concat, if_pos rfl]
  have hnew := neighbours_under hsplit
  have hchildren : under (nodes ++ [n]) (some nodes.length) = [] := by
    rw [List.eq_nil_iff_forall_not_mem]
    intro child hchild
    rcases mem_under.mp hchild with ⟨hlt, hparent⟩
    have := hfirst child nodes.length hparent
    rw [List.length_append, List.length_singleton] at hlt
    omega
  rw [linksOf, hnew.1, hnew.2, hchildren]
  simp

end Forest

/-! ## The table agrees with the builder -/

namespace LinkTable

open Forest

/-- The links of the table are those that are read off the parents of some nodes. -/
structure Agrees (t : LinkTable) (nodes : Forest) : Prop where
  getElem?_eq : ∀ id, t.nodes[id]? = nodes.linksOf id
  roots_eq : t.roots = nodes.under none

/-- The table agrees with a builder, and has the same containers open. -/
structure Records (t : LinkTable) (b : Builder) : Prop extends t.Agrees b.nodes where
  stack_eq : t.stack = b.stack

variable {t : LinkTable} {b : Builder}

/-- The table has as many nodes as the outline. -/
theorem Agrees.length_eq {nodes : Forest} (h : t.Agrees nodes) :
    t.nodes.length = nodes.length := by
  apply Nat.le_antisymm
  · apply List.getElem?_eq_none_iff.mp
    rw [h.getElem?_eq, linksOf, List.getElem?_eq_none le_rfl]
    rfl
  · apply List.getElem?_eq_none_iff.mp
    have hnone := h.getElem?_eq t.nodes.length
    rw [List.getElem?_eq_none le_rfl, linksOf] at hnone
    exact Option.map_eq_none_iff.mp hnone.symm

/-- The lists of the table are those that are read off the parents. -/
theorem Agrees.siblings_eq {nodes : Forest} (h : t.Agrees nodes) {parent : Option Nat}
    (hparent : ∀ id, parent = some id → id < nodes.length) :
    t.siblings parent = nodes.under parent := by
  cases parent with
  | none => exact h.roots_eq
  | some id => simp [siblings, h.getElem?_eq, linksOf, List.getElem?_eq_getElem (hparent id rfl)]

/-- A visit writes the links that the new node has in the outline. -/
theorem Records.visit (h : t.Records b) (hshape : b.Shaped) (kind : Kind) (payload : Payload) :
    (t.visit kind).Records (b.visit kind payload) := by
  have hlength := h.length_eq
  have hsiblings : t.siblings t.stack.head? = b.nodes.under b.current := by
    rw [h.stack_eq]
    exact h.siblings_eq fun id hid => hshape.stack_lt id (List.mem_of_mem_head? hid)
  have hskeleton := Builder.skeleton_visit b kind payload
  refine ⟨⟨?_, ?_⟩, ?_⟩
  · intro id
    rw [← linksOf_skeleton, hskeleton]
    rcases Nat.lt_trichotomy id b.nodes.length with hlt | rfl | hgt
    · rw [linksOf_concat (by simpa using hlt), getElem?_visit t kind (hlength ▸ hlt), hsiblings,
        h.getElem?_eq, linksOf_skeleton, under_skeleton, length_skeleton, h.stack_eq, hlength]
      rfl
    · have hfirst : (b.visit kind payload).nodes.skeleton.ParentsFirst := by
        intro child parent hparent
        rw [parentOf_skeleton] at hparent
        exact (hshape.visit kind payload).parentsFirst child parent hparent
      rw [hskeleton] at hfirst
      have hnew := getElem?_visit_length t kind
      rw [hsiblings, hlength, h.stack_eq] at hnew
      rw [hnew, ← length_skeleton b.nodes, linksOf_concat_length hfirst, under_skeleton]
      rfl
    · rw [List.getElem?_eq_none (by simp; omega), linksOf, List.getElem?_eq_none (by simp; omega)]
      rfl
  · rw [roots_visit, h.roots_eq, h.stack_eq, hlength]
    exact (Builder.under_visit b kind payload none).symm
  · rw [stack_visit, Builder.visit_stack, h.stack_eq]

/-- The empty table records nothing built. -/
theorem Records.empty (source : Source) : LinkTable.empty.Records (Builder.init source) :=
  ⟨⟨fun _ => rfl, rfl⟩, rfl⟩

/-- An event is accepted or refused by both, and does the same to the links. -/
theorem Records.feed (h : t.Records b) (hshape : b.Shaped) (event : Event) :
    (t.feed event).Records (b.feed event) := by
  cases event with
  | enter kind payload =>
      by_cases hkind : kind.isContainer = true
      · have hvisit := h.visit hshape kind payload
        simp only [LinkTable.feed, Builder.feed, Builder.push, Builder.enter, hkind, if_true]
        refine ⟨⟨hvisit.getElem?_eq, hvisit.roots_eq⟩, ?_⟩
        rw [h.stack_eq, h.length_eq]
        rfl
      · simpa [LinkTable.feed, Builder.feed, Builder.push, Builder.enter, hkind] using h
  | leaf kind payload => exact h.visit hshape kind payload
  | exit kind =>
      simp only [LinkTable.feed, Builder.feed, Builder.push, Builder.exit, h.stack_eq]
      cases hstack : b.stack with
      | nil => exact h
      | cons top rest =>
          -- The innermost container is a node, and has the same kind in the table.
          have htop : top < b.nodes.length := hshape.stack_lt top (by simp [hstack])
          have hnode := List.getElem?_eq_getElem htop
          simp only [h.getElem?_eq, linksOf, hnode, Option.map_some, Option.some.injEq]
          by_cases hkind : b.nodes[top].kind = kind
          · rw [if_pos hkind, if_pos hkind]
            exact ⟨⟨h.getElem?_eq, h.roots_eq⟩, rfl⟩
          · rw [if_neg hkind, if_neg hkind]
            exact h

/-- The table agrees with the builder along every stream. -/
theorem Records.feedAll (h : t.Records b) (hshape : b.Shaped) (events : List Event) :
    (t.feedAll events).Records (b.feedAll events) := by
  induction events generalizing t b with
  | nil => exact h
  | cons event events ih =>
      have hnext : (b.feed event).Shaped := hshape.feedAll [event]
      exact ih (h.feed hshape event) hnext

/-- Settling ends leaves the links. -/
theorem Agrees.finish (h : t.Agrees b.nodes) : t.Agrees b.finish.nodes := by
  refine ⟨fun id => ?_, ?_⟩
  · rw [h.getElem?_eq, ← linksOf_skeleton, ← linksOf_skeleton b.finish.nodes, Builder.finish,
      Builder.skeleton_resolvePending]
  · rw [h.roots_eq, Builder.under_finish]

end LinkTable

/-! ## Finished outlines -/

namespace Outline

open Forest

/-- How a node is linked to the others: it stands once in the list of children of its parent, or
once in the list of roots, and in no other list; it lies one level below its parent; its neighbours
are those of that list; it is a container if it has children; and the way up from it goes from
parent to parent, takes as many steps as the node lies deep, and ends in a root. -/
structure LinkedAt (o : Outline) (id : Nat) : Prop where
  listed : ∀ parent, (o.childrenOf parent).count id =
    if o.nodes.parentOf id = some parent then 1 else 0
  rooted : o.roots.count id = if o.nodes.parentOf id = none then 1 else 0
  root_depth : o.nodes.parentOf id = none → o.nodes.depthOf id = 0
  child_depth : ∀ parent, o.nodes.parentOf id = some parent →
    o.nodes.depthOf id = o.nodes.depthOf parent + 1
  neighbours : ∀ front back, o.nodes.under (o.nodes.parentOf id) = front ++ id :: back →
    o.nodes.before id = front.getLast? ∧ o.nodes.after id = back.head?
  container : o.childrenOf id ≠ [] → ∃ n, o.node? id = some n ∧ n.kind.isContainer = true
  ancestors_length : (o.ancestorsOf id).length = o.nodes.depthOf id
  ancestors_chain :
    (id :: o.ancestorsOf id).IsChain fun lower upper => o.nodes.parentOf lower = some upper
  ancestors_end : ∃ root ∈ o.roots, (id :: o.ancestorsOf id).getLast? = some root

/-- The nodes of every run are linked as they should be. -/
theorem linkedAt {b : Builder} (hshape : b.Shaped) (hcontained : b.Contained) {o : Outline}
    (ho : o.nodes = b.nodes) {id : Nat} (hid : id < o.size) : o.LinkedAt id := by
  have hlt : id < b.nodes.length := ho ▸ hid
  have hclimb := hshape.ancestors_climb hlt
  constructor
  · exact fun parent => count_under o.nodes hid (some parent)
  · exact count_under o.nodes hid none
  · rw [ho]
    exact hshape.root_depth id hlt
  · rw [ho]
    exact fun parent hparent => (hshape.encloses id parent hparent).depth_eq
  · exact fun front back hsplit => neighbours_under hsplit
  · intro hchildren
    rcases List.exists_mem_of_ne_nil _ hchildren with ⟨child, hchild⟩
    rw [childrenOf, ho] at hchild
    have hcontainer := hcontained.parent child id (mem_under.mp hchild).2
    rw [node?, ho]
    rcases hnode : b.nodes[id]? with _ | n
    · simp [Builder.isContainerAt, hnode] at hcontainer
    · exact ⟨n, rfl, by simpa [Builder.isContainerAt, hnode] using hcontainer⟩
  · rw [ancestorsOf, ho]
    exact hshape.length_ancestors hlt
  · rw [ancestorsOf, ho]
    exact hclimb.1
  · rw [ancestorsOf, roots, ho]
    exact hclimb.2

/-- The links of a finished outline, whatever the events were and whichever of them were refused.
They are those of the table that is kept event by event; walking the roots and then the lists of
children meets the nodes in the order of their numbers; and every node is linked as it should be. -/
theorem links_form_preorder_forest (s : Source) (events : List Event) :
    let o := ((Builder.init s).feedAll events).finish
    (LinkTable.empty.feedAll events).Agrees o.nodes ∧
      Walked o.childrenOf o.roots (List.range o.size) ∧ ∀ id, id < o.size → o.LinkedAt id := by
  have hshape := (Builder.Shaped.init s).feedAll events
  have hcontained := (Builder.Contained.init s).feedAll events
  have hrecords := (LinkTable.Records.empty s).feedAll (Builder.Shaped.init s) events
  generalize (Builder.init s).feedAll events = b at hshape hcontained hrecords
  intro o
  have hskeleton : o.nodes.skeleton = b.nodes.skeleton := Builder.skeleton_resolvePending b 0 _
  have hfinished : Builder.Shaped { b with nodes := o.nodes } := hshape.of_skeleton hskeleton rfl
  have howned : Builder.Contained { b with nodes := o.nodes } :=
    hcontained.of_skeleton hskeleton rfl
  exact ⟨hrecords.finish, hfinished.walked, fun id hid => linkedAt hfinished howned rfl hid⟩

end Outline
end StyleAtlas
