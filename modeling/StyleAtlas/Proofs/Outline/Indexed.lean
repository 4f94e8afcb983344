import Mathlib.Data.List.Induction
import StyleAtlas.Proofs.Outline.Shape

/-!
# The range index of a settled outline

Where all nodes are settled and come after their parents, an outline can be indexed, and the index
repeats its links: the entry of a node stands at the number of the node.

Main results:

- Definition `Forest.Settled`: the condition.
- Theorem `Outline.index_eq`: the index of such an outline.
- Definition `RangeIndex.Mirrors`, Theorem `Outline.mirrors`: the index agrees with the outline on
  numbers, extents, parents, children and roots.
- Theorem `Outline.indexRanges_eq`: indexing by positions gives the same.
-/

namespace StyleAtlas

/-! ## Settled nodes -/

/-- All nodes are settled, and come after their parents. -/
structure Forest.Settled (nodes : Forest) : Prop where
  stop : ∀ id, id < nodes.length → ∃ stop, nodes.stopOf id = some stop
  parent_lt : ∀ id parent, nodes.parentOf id = some parent → parent < id

/-- The entry of a settled node: its number as the key, its extent and its parent. -/
def Node.entry (id : Nat) (n : Node) : IndexEntry Nat :=
  ⟨id, ⟨n.start, n.stop.getD n.start⟩, n.parent⟩

/-- The index whose entries repeat the nodes. -/
def Forest.mirror (nodes : Forest) : RangeIndex Nat :=
  ⟨nodes.mapIdx Node.entry⟩

namespace Forest

variable {nodes : Forest}

/-- The entry of a node stands at its number. -/
theorem getElem?_mirror (nodes : Forest) (id : Nat) :
    nodes.mirror.entries[id]? = nodes[id]?.map (Node.entry id) :=
  List.getElem?_mapIdx

/-- There is one entry for each node. -/
@[simp]
theorem size_mirror (nodes : Forest) : nodes.mirror.size = nodes.length := by
  simp [mirror, RangeIndex.size]

/-- Every key stands at its own ordinal. -/
theorem keyAt_mirror {id : Nat} (h : id < nodes.length) : nodes.mirror.keyAt id = some id := by
  rw [RangeIndex.keyAt, getElem?_mirror, List.getElem?_eq_getElem h]
  rfl

/-- The ordinal of a node is its number. -/
theorem indexOf_mirror {id : Nat} (h : id < nodes.length) :
    nodes.mirror.indexOf id = some id := by
  unfold RangeIndex.indexOf
  rw [List.findIdx?_eq_some_iff_getElem]
  refine ⟨by simpa [mirror] using h, by simp [mirror, Node.entry], ?_⟩
  intro earlier hlt
  simp only [mirror, List.getElem_mapIdx, Node.entry, decide_eq_true_eq]
  omega

/-- What is not a node has no ordinal. -/
theorem indexOf_mirror_eq_none {id : Nat} (h : nodes.length ≤ id) :
    nodes.mirror.indexOf id = none := by
  unfold RangeIndex.indexOf
  rw [List.findIdx?_eq_none_iff]
  intro entry hentry
  obtain ⟨earlier, hlt, rfl⟩ := List.mem_mapIdx.mp hentry
  have hne : (Node.entry earlier nodes[earlier]).key ≠ id := by
    simp only [Node.entry]
    omega
  rwa [decide_eq_false_iff_not]

/-- The entry of a key is that of the node with this number. -/
theorem entryOf_mirror (nodes : Forest) (id : Nat) :
    nodes.mirror.entryOf id = nodes[id]?.map (Node.entry id) := by
  unfold RangeIndex.entryOf
  rcases Nat.lt_or_ge id nodes.length with hid | hid
  · have hentry : nodes.mirror.entries[id]? = some (Node.entry id nodes[id]) := by
      rw [getElem?_mirror, List.getElem?_eq_getElem hid, Option.map_some]
    rw [List.getElem?_eq_getElem hid, Option.map_some, List.find?_eq_some_iff_getElem]
    obtain ⟨hlt, heq⟩ := List.getElem?_eq_some_iff.mp hentry
    refine ⟨by simp [Node.entry], id, hlt, heq, ?_⟩
    intro earlier hearlier
    simp only [mirror, List.getElem_mapIdx, Node.entry, Bool.not_eq_true',
      decide_eq_false_iff_not]
    omega
  · rw [List.getElem?_eq_none hid, Option.map_none, List.find?_eq_none]
    intro entry hentry
    obtain ⟨earlier, hlt, rfl⟩ := List.mem_mapIdx.mp hentry
    have hne : (Node.entry earlier nodes[earlier]).key ≠ id := by
      simp only [Node.entry]
      omega
    rwa [decide_eq_true_eq]

/-- The index repeats the children and the roots. -/
theorem under_mirror (nodes : Forest) (parent : Option Nat) :
    nodes.mirror.under parent = nodes.under parent := by
  rw [RangeIndex.under_eq_indicesOf, under_eq_indicesOf]
  congr 1
  apply List.ext_getElem?
  intro id
  rw [List.getElem?_map, getElem?_mirror, List.getElem?_map, Option.map_map]
  rfl

/-- The members of a list of links are nodes, whose keys are their numbers. -/
theorem filterMap_keyAt_under (nodes : Forest) (parent : Option Nat) :
    (nodes.mirror.under parent).filterMap nodes.mirror.keyAt = nodes.under parent := by
  rw [under_mirror]
  have hkeys : ∀ id ∈ nodes.under parent, nodes.mirror.keyAt id = some id :=
    fun id hid => keyAt_mirror (mem_under.mp hid).1
  rw [List.filterMap_congr hkeys, List.filterMap_some]

/-- Adding the next node to the index of those before it extends the index by its entry. -/
theorem push_mirror (nodes : Forest) {n : Node} {stop : Nat} (hstop : n.stop = some stop)
    (hparent : ∀ parent, n.parent = some parent → parent < nodes.length) :
    nodes.mirror.push nodes.length n.parent ⟨n.start, stop⟩ =
      .ok (nodes.length, mirror (nodes ++ [n])) := by
  have hlink : n.parent.bind nodes.mirror.indexOf = n.parent := by
    cases hp : n.parent with
    | none => rfl
    | some parent => exact indexOf_mirror (hparent parent hp)
  simp only [RangeIndex.push, indexOf_mirror_eq_none (Nat.le_refl nodes.length), size_mirror,
    hlink]
  simp [mirror, List.mapIdx_append, Node.entry, hstop]

/-- The first of some settled nodes are settled. -/
theorem Settled.left {later : Forest} (h : Settled (nodes ++ later)) : nodes.Settled where
  stop := by
    intro id hid
    obtain ⟨stop, hstop⟩ := h.stop id (by simp; omega)
    exact ⟨stop, by rwa [stopOf_append hid] at hstop⟩
  parent_lt := by
    intro id parent hparent
    apply h.parent_lt id parent
    rwa [parentOf_append (lt_length_of_parentOf hparent)]

/-- Indexing settled nodes one after the other never fails, and gives the index that repeats
them. -/
theorem Settled.foldlM_indexNode (h : nodes.Settled) :
    nodes.zipIdx.foldlM Outline.indexNode RangeIndex.empty = .ok nodes.mirror := by
  induction nodes using List.reverseRecOn with
  | nil => rfl
  | append_singleton nodes n ih =>
      have hlast : nodes.length < (nodes ++ [n]).length := by simp
      obtain ⟨stop, hstop⟩ := h.stop nodes.length hlast
      rw [stopOf_append_length] at hstop
      have hparent : ∀ parent, n.parent = some parent → parent < nodes.length := by
        intro parent hp
        exact h.parent_lt nodes.length parent (by rw [parentOf_append_length, hp])
      rw [List.zipIdx_append, List.foldlM_append, ih h.left]
      have hpush := push_mirror nodes hstop hparent
      simp only [List.zipIdx_cons, List.zipIdx_nil, List.foldlM_cons, List.foldlM_nil, bind,
        Except.bind, Outline.indexNode, Node.extent?, hstop, Option.map_some, Nat.zero_add, hpush]
      rfl

end Forest

/-! ## The index of an outline -/

/-- The index agrees with the outline: the entry of a node stands at the number of the node, with
its extent, its parent and its children, and the roots are the same. -/
structure RangeIndex.Mirrors (index : RangeIndex Nat) (o : Outline) : Prop where
  size : index.size = o.size
  keyAt : ∀ id, id < o.size → index.keyAt id = some id
  indexOf : ∀ id, id < o.size → index.indexOf id = some id
  extentOf : ∀ id, index.extentOf id = o.extentOf id
  parentOf : ∀ id, index.parentOf id = o.nodes.parentOf id
  childrenOf : ∀ id, index.childrenOf id = o.childrenOf id
  roots : index.roots = o.roots

namespace Outline

open Forest

variable {o : Outline}

/-- An outline of settled nodes can be indexed. -/
theorem index_eq (h : o.nodes.Settled) : o.index = .ok o.nodes.mirror :=
  h.foldlM_indexNode

/-- The index of an outline of settled nodes agrees with it. -/
theorem mirrors (h : o.nodes.Settled) : o.nodes.mirror.Mirrors o where
  size := size_mirror o.nodes
  keyAt := fun id hid => keyAt_mirror hid
  indexOf := fun id hid => indexOf_mirror hid
  extentOf := by
    intro id
    rw [RangeIndex.extentOf, entryOf_mirror, extentOf, node?]
    cases hnode : o.nodes[id]? with
    | none => rfl
    | some n =>
        have hid := (List.getElem?_eq_some_iff.mp hnode).1
        obtain ⟨stop, hstop⟩ := h.stop id hid
        rw [stopOf, hnode, Option.bind_some] at hstop
        simp [Node.entry, Node.extent?, hstop]
  parentOf := by
    intro id
    rw [RangeIndex.parentOf, entryOf_mirror, Forest.parentOf]
    cases hnode : o.nodes[id]? with
    | none => rfl
    | some n =>
        cases hparent : n.parent with
        | none => simp [Node.entry, hparent]
        | some parent =>
            have hid := (List.getElem?_eq_some_iff.mp hnode).1
            have hlt := h.parent_lt id parent (by rw [Forest.parentOf, hnode, Option.bind_some,
              hparent])
            simp [Node.entry, hparent, keyAt_mirror (Nat.lt_trans hlt hid)]
  childrenOf := by
    intro id
    rw [RangeIndex.childrenOf, childrenOf]
    rcases Nat.lt_or_ge id o.nodes.length with hid | hid
    · rw [indexOf_mirror hid]
      exact filterMap_keyAt_under o.nodes (some id)
    · -- Nodes name earlier parents only, so a number past the last node has no children.
      rw [indexOf_mirror_eq_none hid]
      symm
      rw [List.eq_nil_iff_forall_not_mem]
      intro child hchild
      obtain ⟨hlt, hparent⟩ := mem_under.mp hchild
      have := h.parent_lt child id hparent
      omega
  roots := filterMap_keyAt_under o.nodes none

/-! ## Indexing by positions -/

/-- Add a node to an index by the positions of its ends, if its end is settled. -/
def indexRange (o : Outline) (index : RangeIndex Nat) (numbered : Node × Nat) :
    Except IndexError (RangeIndex Nat) :=
  match o.rangeOf numbered.2 with
  | none => .ok index
  | some r => (index.pushRange o.source numbered.2 numbered.1.parent r).map Prod.snd

/-- The range index of all settled nodes, each added by its range of positions, which is converted
back to offsets strictly. -/
def indexRanges (o : Outline) : Except IndexError (RangeIndex Nat) :=
  o.nodes.zipIdx.foldlM o.indexRange RangeIndex.empty

/-- Folds of steps that agree on the members of a list agree on the list. -/
theorem foldlM_congr_mem {α β ε : Type} {f g : β → α → Except ε β} {xs : List α}
    (h : ∀ b, ∀ a ∈ xs, f b a = g b a) (b : β) : xs.foldlM f b = xs.foldlM g b := by
  induction xs generalizing b with
  | nil => rfl
  | cons a xs ih =>
      rw [List.foldlM_cons, List.foldlM_cons, h b a List.mem_cons_self]
      congr 1
      funext b'
      exact ih (fun b a ha => h b a (List.mem_cons_of_mem _ ha)) b'

/-- Where the extents of all nodes have positions that convert back, indexing by positions is
indexing by extents. -/
theorem indexRanges_eq (h : ∀ id x, o.extentOf id = some x →
    ∃ r, o.source.rangeOf x = .ok r ∧ o.source.extentOf r = .ok x) :
    o.indexRanges = o.index := by
  unfold indexRanges index
  refine foldlM_congr_mem ?_ RangeIndex.empty
  intro index numbered hmem
  have hnode := List.mem_zipIdx_iff_getElem?.mp hmem
  unfold indexRange indexNode
  cases hextent : numbered.1.extent? with
  | none => simp [rangeOf, extentOf, node?, hnode, hextent]
  | some x =>
      have hx : o.extentOf numbered.2 = some x := by simp [extentOf, node?, hnode, hextent]
      obtain ⟨r, hrange, hback⟩ := h numbered.2 x hx
      simp [rangeOf, hx, hrange, Except.toOption, RangeIndex.pushRange, hback]

end Outline
end StyleAtlas
