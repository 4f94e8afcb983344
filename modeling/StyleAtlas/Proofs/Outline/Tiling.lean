import StyleAtlas.Proofs.Index.Search
import StyleAtlas.Proofs.Outline.Checked
import StyleAtlas.Proofs.Outline.Visit

/-!
# Roots that tile the text

When every root is located and roots come in the order of their places, they tile the text from the
first of them on, whatever happens inside them.  What is visited below a root closes branches and
cuts back siblings from its own depth down, so it leaves the ends of roots alone.  A root ends where
the next one starts, and the last one at the end of the text.  So a lookup by offset finds a node
everywhere in the tiled part.

Main results:

- Theorem `Builder.stopOf_closeBefore_of_lt`: what is visited deeper leaves an end alone.
- Definition `Builder.Tiled`, Theorem `Builder.Tiled.feedAll`: the roots of a builder tile the text
  up to the last of them.
- Theorem `Outline.rootsTile_of_rootsInOrder`: the roots of a finished outline tile the text, and
  the lookups that find nothing are exactly those outside of it.
-/

namespace StyleAtlas

/-! ## Lists of links -/

namespace Forest

/-- Lists of links are a matter of the skeleton. -/
theorem under_skeleton (nodes : Forest) (parent : Option Nat) :
    nodes.skeleton.under parent = nodes.under parent := by
  rw [under_eq_indicesOf, under_eq_indicesOf, skeleton, List.map_map]
  rfl

/-- A new node is added to the list of links that it belongs to. -/
theorem under_concat (nodes : Forest) (n : Node) (parent : Option Nat) :
    under (nodes ++ [n]) parent =
      nodes.under parent ++ if n.parent = parent then [nodes.length] else [] := by
  rw [under_eq_indicesOf, under_eq_indicesOf, List.map_append, List.map_singleton,
    indicesOf_concat, List.length_map]

/-- The offset at which a node was seen. -/
def seenAt (s : Source) (nodes : Forest) (id : Nat) : Option Nat :=
  nodes[id]?.bind fun n => n.payload.offset s

/-- Where a node was seen is a matter of the skeleton. -/
theorem seenAt_skeleton (s : Source) (nodes : Forest) (id : Nat) :
    seenAt s nodes.skeleton id = seenAt s nodes id := by
  unfold seenAt
  rw [getElem?_skeleton]
  cases nodes[id]? <;> rfl

/-- All roots are located, and come in the order of their offsets. -/
structure RootsInOrder (s : Source) (nodes : Forest) : Prop where
  located : ∀ root ∈ nodes.under none, ∃ offset, seenAt s nodes root = some offset
  ascending : (nodes.under none).Pairwise fun root later =>
    ∀ x y, seenAt s nodes root = some x → seenAt s nodes later = some y → x ≤ y

/-- Whether roots are in order is a matter of the skeleton. -/
theorem RootsInOrder.of_skeleton {s : Source} {nodes nodes' : Forest} (h : RootsInOrder s nodes)
    (hskeleton : nodes'.skeleton = nodes.skeleton) : RootsInOrder s nodes' := by
  have hunder : nodes'.under none = nodes.under none := by
    rw [← under_skeleton, hskeleton, under_skeleton]
  have hseen : ∀ id, seenAt s nodes' id = seenAt s nodes id := by
    intro id
    rw [← seenAt_skeleton, hskeleton, seenAt_skeleton]
  constructor
  · simpa only [hunder, hseen] using h.located
  · simpa only [hunder, hseen] using h.ascending

/-- The nodes before a new one are in order when all are. -/
theorem RootsInOrder.left {s : Source} {nodes : Forest} {n : Node}
    (h : RootsInOrder s (nodes ++ [n])) : RootsInOrder s nodes := by
  have hseen : ∀ id ∈ nodes.under none, seenAt s (nodes ++ [n]) id = seenAt s nodes id := by
    intro id hid
    rw [seenAt, List.getElem?_append_left (mem_under.mp hid).1, seenAt]
  have hmem : ∀ id ∈ nodes.under none, id ∈ under (nodes ++ [n]) none := by
    intro id hid
    rw [under_concat]
    exact List.mem_append_left _ hid
  constructor
  · intro root hroot
    rw [← hseen root hroot]
    exact h.located root (hmem root hroot)
  · have hall := h.ascending
    rw [under_concat] at hall
    refine (List.pairwise_append.mp hall).1.imp_of_mem ?_
    intro root later hroot hlater hle
    rwa [hseen root hroot, hseen later hlater] at hle

end Forest

namespace Builder

open Forest

/-! ## What is visited deeper leaves an end alone -/

section Deeper

variable {b : Builder} {id : Nat}

/-- Closing branches further down leaves the end of a node. -/
theorem stopOf_resolvePending_of_lt {depth : Nat} (hdepth : b.nodes.depthOf id < depth)
    (boundary : Nat) : (b.resolvePending depth boundary).nodes.stopOf id = b.nodes.stopOf id := by
  have hnone : b.settledEnd depth boundary id = none := by
    simp [settledEnd, Nat.not_le.mpr hdepth]
  unfold stopOf
  rw [getElem?_resolvePending, hnone]
  cases b.nodes[id]? <;> rfl

/-- Cutting siblings back further down leaves the end of a node. -/
theorem stopOf_trim_of_lt (hdepth : b.nodes.depthOf id < b.depth) (parent : Option Nat)
    (place : Nat) : (b.trim parent place).nodes.stopOf id = b.nodes.stopOf id := by
  have hcut : b.isCut parent place id = false := by
    simp [isCut, ancestorAt, hdepth]
  rw [stopOf_trim]
  cases b.nodes.stopOf id <;> simp [hcut]

/-- A node that comes deeper leaves the end of a node alone. -/
theorem stopOf_closeBefore_of_lt (hdepth : b.nodes.depthOf id < b.depth) (payload : Payload) :
    (b.closeBefore payload).nodes.stopOf id = b.nodes.stopOf id := by
  unfold closeBefore
  cases payload.location with
  | none => rfl
  | some location =>
      have hdepth' : (b.resolvePending b.depth (b.startFor payload)).nodes.depthOf id <
          (b.resolvePending b.depth (b.startFor payload)).depth := by
        rwa [depthOf_resolvePending]
      rw [stopOf_trim_of_lt hdepth', stopOf_resolvePending_of_lt hdepth]

end Deeper

/-! ## Roots of a builder -/

/-- The roots start where they were seen, in ascending order; each of them ends where the next one
starts, and the last one is pending. -/
structure Tiled (b : Builder) : Prop where
  start : ∀ root ∈ b.nodes.under none, seenAt b.source b.nodes root = some (b.nodes.startOf root)
  ascending : (b.nodes.under none).Pairwise fun root later =>
    b.nodes.startOf root ≤ b.nodes.startOf later
  between : ∀ before root next later, b.nodes.under none = before ++ root :: next :: later →
    b.nodes.stopOf root = some (b.nodes.startOf next)
  last : ∀ before root, b.nodes.under none = before ++ [root] → b.nodes.stopOf root = none

/-- There are no roots at first. -/
theorem Tiled.init (source : Source) : (Builder.init source).Tiled := by
  have hunder : (Builder.init source).nodes.under none = [] := rfl
  constructor <;> simp [hunder]

section Roots

variable {b : Builder}

/-- Roots lie at depth zero. -/
theorem Shaped.depthOf_root (h : b.Shaped) {root : Nat} (hroot : root ∈ b.nodes.under none) :
    b.nodes.depthOf root = 0 := by
  obtain ⟨hlt, hparent⟩ := mem_under.mp hroot
  exact h.root_depth root hlt hparent

/-- A root that is not the last one ends at the start of a root. -/
theorem Tiled.stopOf_cases (h : b.Tiled) {root : Nat} (hroot : root ∈ b.nodes.under none) :
    (∃ before, b.nodes.under none = before ++ [root]) ∨
      ∃ next ∈ b.nodes.under none, b.nodes.stopOf root = some (b.nodes.startOf next) := by
  obtain ⟨before, later, hsplit⟩ := List.append_of_mem hroot
  cases later with
  | nil => exact Or.inl ⟨before, hsplit⟩
  | cons next later =>
      exact Or.inr ⟨next, by simp [hsplit], h.between before root next later hsplit⟩

/-- The last root is the only one that is pending. -/
theorem Tiled.mem_pendingAt_zero (h : b.Tiled) (hshape : b.Shaped) (hpending : b.PendingExact)
    {before : List Nat} {root other : Nat} (hlast : b.nodes.under none = before ++ [root])
    (hother : other ∈ b.pendingAt 0) : other = root := by
  simp only [pendingAt, List.mem_filter, decide_eq_true_eq] at hother
  obtain ⟨hlt, hstop⟩ := (hpending other).mp hother.1
  have hroot : other ∈ b.nodes.under none := by
    refine mem_under.mpr ⟨hlt, ?_⟩
    cases hparent : b.nodes.parentOf other with
    | none => rfl
    | some parent =>
        have := (hshape.encloses other parent hparent).depth_eq
        omega
  rcases h.stopOf_cases hroot with ⟨before', hlast'⟩ | ⟨next, -, hnext⟩
  · exact (List.append_inj' (hlast'.symm.trans hlast) rfl).2 |> List.singleton_inj.mp
  · rw [hstop] at hnext
    simp at hnext

/-- Closing all branches at a boundary past the starts of all roots closes the last root there, and
leaves the others. -/
theorem Tiled.stopOf_resolvePending_zero (h : b.Tiled) (hshape : b.Shaped)
    (hpending : b.PendingExact) {boundary root : Nat}
    (hbound : ∀ root ∈ b.nodes.under none, b.nodes.startOf root ≤ boundary)
    (hroot : root ∈ b.nodes.under none) :
    (b.resolvePending 0 boundary).nodes.stopOf root =
      some ((b.nodes.stopOf root).getD boundary) := by
  have hlt := (mem_under.mp hroot).1
  rw [stopOf_resolvePending b 0 boundary hlt]
  rcases h.stopOf_cases hroot with ⟨before, hlast⟩ | ⟨next, -, hnext⟩
  · have hstop := h.last before root hlast
    have hmem : root ∈ b.pending := (hpending root).mpr ⟨hlt, hstop⟩
    have hdepth := hshape.depthOf_root hroot
    -- No other root is pending, so none cuts the branch of the last one short.
    have hbranch : b.branchEnd 0 boundary root = boundary := by
      have hnone :
          ((b.pendingAt 0).map b.nodes.startOf).filter (b.nodes.startOf root < ·) = [] := by
        rw [List.filter_eq_nil_iff]
        intro start hstart
        obtain ⟨other, hother, rfl⟩ := List.mem_map.mp hstart
        rw [h.mem_pendingAt_zero hshape hpending hlast hother]
        simp
      unfold branchEnd
      simp [hnone]
    have hsettled : b.settledEnd 0 boundary root = some boundary := by
      simp [settledEnd, endFor, hmem, ancestorAt, hdepth, climb, hbranch, Text.closingEnd,
        Nat.not_lt.mpr (hbound root hroot)]
    rw [hsettled, hstop]
    simp [Nat.max_eq_right (hbound root hroot)]
  · have hmem : root ∉ b.pending := by
      intro hmem
      rw [((hpending root).mp hmem).2] at hnext
      simp at hnext
    simp [settledEnd, hmem, hnext]

/-! ## Visits -/

section Links

variable (b : Builder) (kind : Kind) (payload : Payload)

/-- A visit adds one node to the list of the innermost open container, or to the roots. -/
theorem under_visit (parent : Option Nat) :
    (b.visit kind payload).nodes.under parent =
      b.nodes.under parent ++ if b.current = parent then [b.nodes.length] else [] := by
  rw [← under_skeleton, skeleton_visit, under_concat, under_skeleton, length_skeleton]

/-- A visit leaves the starts of the other nodes. -/
theorem startOf_visit {id : Nat} (hid : id < b.nodes.length) :
    (b.visit kind payload).nodes.startOf id = b.nodes.startOf id := by
  rw [← startOf_skeleton, skeleton_visit, startOf_append (by simpa using hid), startOf_skeleton]

/-- The new node starts where its payload and the open containers say. -/
theorem startOf_visit_length :
    (b.visit kind payload).nodes.startOf b.nodes.length = b.startFor payload := by
  rw [← startOf_skeleton, skeleton_visit, ← length_skeleton, startOf_append_length]

/-- A visit leaves where the other nodes were seen. -/
theorem seenAt_visit (s : Source) {id : Nat} (hid : id < b.nodes.length) :
    seenAt s (b.visit kind payload).nodes id = seenAt s b.nodes id := by
  rw [← seenAt_skeleton, skeleton_visit, seenAt, List.getElem?_append_left (by simpa using hid),
    ← seenAt, seenAt_skeleton]

/-- The new node was seen where its payload says. -/
theorem seenAt_visit_length (s : Source) :
    seenAt s (b.visit kind payload).nodes b.nodes.length = payload.offset s := by
  rw [← seenAt_skeleton, skeleton_visit, ← length_skeleton]
  simp [seenAt]

/-- A visit changes ends only by closing branches before the new node. -/
theorem stopOf_visit {id : Nat} (hid : id < b.nodes.length) :
    (b.visit kind payload).nodes.stopOf id = (b.closeBefore payload).nodes.stopOf id := by
  rw [visit_eq]
  exact stopOf_append (by simpa using hid) _

/-- The end of the new node is not settled. -/
theorem stopOf_visit_length : (b.visit kind payload).nodes.stopOf b.nodes.length = none := by
  rw [visit_eq, append, ← length_closeBefore b payload, stopOf_append_length]

end Links

/-- A visit below a root leaves the roots alone. -/
theorem Tiled.visit_below (h : b.Tiled) (hshape : b.Shaped) {parent : Nat}
    (hcurrent : b.current = some parent) (kind : Kind) (payload : Payload) :
    (b.visit kind payload).Tiled := by
  have hdepth := hshape.depthOf_current hcurrent
  have hunder : (b.visit kind payload).nodes.under none = b.nodes.under none := by
    simp [under_visit, hcurrent]
  have hstart : ∀ root ∈ b.nodes.under none,
      (b.visit kind payload).nodes.startOf root = b.nodes.startOf root :=
    fun root hroot => startOf_visit b kind payload (mem_under.mp hroot).1
  have hstop : ∀ root ∈ b.nodes.under none,
      (b.visit kind payload).nodes.stopOf root = b.nodes.stopOf root := by
    intro root hroot
    rw [stopOf_visit b kind payload (mem_under.mp hroot).1, stopOf_closeBefore_of_lt]
    rw [hshape.depthOf_root hroot]
    omega
  constructor
  · intro root hroot
    rw [hunder] at hroot
    rw [visit_source, seenAt_visit b kind payload _ (mem_under.mp hroot).1, hstart root hroot]
    exact h.start root hroot
  · rw [hunder]
    refine h.ascending.imp_of_mem ?_
    intro root later hroot hlater hle
    rwa [hstart root hroot, hstart later hlater]
  · intro before root next later hsplit
    rw [hunder] at hsplit
    rw [hstop root (by simp [hsplit]), hstart next (by simp [hsplit])]
    exact h.between before root next later hsplit
  · intro before root hsplit
    rw [hunder] at hsplit
    rw [hstop root (by simp [hsplit])]
    exact h.last before root hsplit

/-- Between the roots, a new node starts where it was seen. -/
theorem startFor_of_root (hcurrent : b.current = none) {payload : Payload} {offset : Nat}
    (hoffset : payload.offset b.source = some offset) : b.startFor payload = offset := by
  obtain ⟨location, hlocation, rfl⟩ := Option.map_eq_some_iff.mp hoffset
  simp [startFor, hlocation, floor, hcurrent]

/-- A root that comes past all starts of roots closes the last one at its own start, and leaves the
others. -/
theorem Tiled.stopOf_closeBefore (h : b.Tiled) (hshape : b.Shaped) (hpending : b.PendingExact)
    (hcurrent : b.current = none) {payload : Payload} {offset root : Nat}
    (hoffset : payload.offset b.source = some offset)
    (hbound : ∀ root ∈ b.nodes.under none, b.nodes.startOf root ≤ offset)
    (hroot : root ∈ b.nodes.under none) :
    (b.closeBefore payload).nodes.stopOf root = some ((b.nodes.stopOf root).getD offset) := by
  have hdepth : b.depth = 0 := by
    rw [depth, List.length_eq_zero_iff, ← List.head?_eq_none_iff]
    exact hcurrent
  have hresolved := h.stopOf_resolvePending_zero hshape hpending hbound hroot
  -- No root ends past the new start, so none is cut back.
  have hle : (b.nodes.stopOf root).getD offset ≤ offset := by
    rcases h.stopOf_cases hroot with ⟨before, hlast⟩ | ⟨next, hmem, hnext⟩
    · simp [h.last before root hlast]
    · simpa [hnext] using hbound next hmem
  obtain ⟨location, hlocation, -⟩ := Option.map_eq_some_iff.mp hoffset
  simp only [closeBefore, hlocation, startFor_of_root hcurrent hoffset, hdepth]
  rw [stopOf_trim, hresolved]
  simp [Nat.not_lt.mpr hle]

/-- A visit of a root past all starts of roots extends the tiling by one root. -/
theorem Tiled.visit_root (h : b.Tiled) (hshape : b.Shaped) (hpending : b.PendingExact)
    (hcurrent : b.current = none) (kind : Kind) {payload : Payload} {offset : Nat}
    (hoffset : payload.offset b.source = some offset)
    (hbound : ∀ root ∈ b.nodes.under none, b.nodes.startOf root ≤ offset) :
    (b.visit kind payload).Tiled := by
  have hunder : (b.visit kind payload).nodes.under none =
      b.nodes.under none ++ [b.nodes.length] := by
    simp [under_visit, hcurrent]
  have hnewStart : (b.visit kind payload).nodes.startOf b.nodes.length = offset := by
    rw [startOf_visit_length, startFor_of_root hcurrent hoffset]
  have hstart : ∀ root ∈ b.nodes.under none,
      (b.visit kind payload).nodes.startOf root = b.nodes.startOf root :=
    fun root hroot => startOf_visit b kind payload (mem_under.mp hroot).1
  have hstop : ∀ root ∈ b.nodes.under none,
      (b.visit kind payload).nodes.stopOf root = some ((b.nodes.stopOf root).getD offset) := by
    intro root hroot
    rw [stopOf_visit b kind payload (mem_under.mp hroot).1]
    exact h.stopOf_closeBefore hshape hpending hcurrent hoffset hbound hroot
  constructor
  · intro root hroot
    rw [hunder, List.mem_append, List.mem_singleton] at hroot
    rcases hroot with hroot | rfl
    · rw [visit_source, seenAt_visit b kind payload _ (mem_under.mp hroot).1, hstart root hroot]
      exact h.start root hroot
    · rw [visit_source, seenAt_visit_length, hnewStart, hoffset]
  · rw [hunder, List.pairwise_append]
    refine ⟨?_, List.pairwise_singleton _ _, ?_⟩
    · refine h.ascending.imp_of_mem ?_
      intro root later hroot hlater hle
      rwa [hstart root hroot, hstart later hlater]
    · intro root hroot later hlater
      rw [List.mem_singleton.mp hlater, hstart root hroot, hnewStart]
      exact hbound root hroot
  · intro before root next later hsplit
    rw [hunder] at hsplit
    rcases List.eq_nil_or_concat later with rfl | ⟨rest, new, rfl⟩
    · -- The new root comes right after the one that was last.
      have hsplit' : b.nodes.under none ++ [b.nodes.length] = (before ++ [root]) ++ [next] := by
        simpa using hsplit
      obtain ⟨hroots, hnew⟩ := List.append_inj' hsplit' rfl
      obtain rfl := List.singleton_inj.mp hnew
      rw [hstop root (by simp [hroots]), h.last before root hroots, hnewStart]
      rfl
    · have hsplit' : b.nodes.under none ++ [b.nodes.length] =
          (before ++ root :: next :: rest) ++ [new] := by
        simpa using hsplit
      obtain ⟨hroots, -⟩ := List.append_inj' hsplit' rfl
      rw [hstop root (by simp [hroots]), hstart next (by simp [hroots]),
        h.between before root next rest hroots]
      rfl
  · intro before root hsplit
    rw [hunder] at hsplit
    obtain ⟨-, hnew⟩ := List.append_inj' hsplit rfl
    obtain rfl := List.singleton_inj.mp hnew
    exact stopOf_visit_length b kind payload

/-- A visit keeps the text tiled, be it of a root in order or of a node further down. -/
theorem Tiled.visit (h : b.Tiled) (hshape : b.Shaped) (hpending : b.PendingExact) (kind : Kind)
    (payload : Payload) (horder : RootsInOrder b.source (b.visit kind payload).nodes) :
    (b.visit kind payload).Tiled := by
  cases hcurrent : b.current with
  | some parent => exact h.visit_below hshape hcurrent kind payload
  | none =>
      have hunder : (b.visit kind payload).nodes.under none =
          b.nodes.under none ++ [b.nodes.length] := by
        simp [under_visit, hcurrent]
      obtain ⟨offset, hoffset⟩ := horder.located b.nodes.length (by simp [hunder])
      rw [seenAt_visit_length] at hoffset
      refine h.visit_root hshape hpending hcurrent kind hoffset ?_
      intro root hroot
      have hasc := horder.ascending
      rw [hunder, List.pairwise_append] at hasc
      refine hasc.2.2 root hroot b.nodes.length (by simp) _ offset ?_ ?_
      · rw [seenAt_visit b kind payload _ (mem_under.mp hroot).1]
        exact h.start root hroot
      · rw [seenAt_visit_length, hoffset]

/-- The roots that were there before a visit are in order when those after it are. -/
theorem rootsInOrder_of_visit {s : Source} {kind : Kind} {payload : Payload}
    (horder : RootsInOrder s (b.visit kind payload).nodes) : RootsInOrder s b.nodes := by
  have hskeleton : RootsInOrder s (b.nodes.skeleton ++
      [⟨kind, payload, b.depth, b.current, b.startFor payload, none⟩]) := by
    refine horder.of_skeleton ?_
    rw [← skeleton_visit]
    simp [skeleton, Node.reopen]
  refine hskeleton.left.of_skeleton ?_
  simp [skeleton, Node.reopen]

/-! ## Streams -/

/-- Streams whose roots come in order keep the tiling. -/
theorem Tiled.feedAll (h : b.Tiled) (hshape : b.Shaped) (hpending : b.PendingExact)
    (events : List Event) (horder : RootsInOrder b.source (b.feedAll events).nodes) :
    (b.feedAll events).Tiled := by
  -- From the end of the stream: order passes from a state to the one before it.
  induction events using List.reverseRecOn with
  | nil => exact h
  | append_singleton events event ih =>
      rw [feedAll_concat] at horder ⊢
      rcases feed_cases (b.feedAll events) event with hsame | ⟨id, hpush⟩
      · rw [hsame] at horder ⊢
        exact ih horder
      · have hshape' := hshape.feedAll events
        have hpending' := hpending.feedAll events
        rcases push_cases hpush with ⟨kind, payload, -, -, hfed⟩ | ⟨kind, payload, -, hfed⟩ |
          ⟨kind, top, rest, -, -, hfed⟩
        · rw [hfed] at horder ⊢
          have htiled := (ih (rootsInOrder_of_visit horder)).visit hshape' hpending' kind payload
            (by simpa using horder)
          exact ⟨htiled.start, htiled.ascending, htiled.between, htiled.last⟩
        · rw [hfed] at horder ⊢
          exact (ih (rootsInOrder_of_visit horder)).visit hshape' hpending' kind payload
            (by simpa using horder)
        · rw [hfed] at horder ⊢
          have htiled := ih horder
          exact ⟨htiled.start, htiled.ascending, htiled.between, htiled.last⟩

end Roots
end Builder

/-! ## Finished outlines -/

namespace Outline

open Forest

/-- Each root ends where the next one starts, and the last one at the end of the text. -/
structure RootsTile (o : Outline) : Prop where
  between : ∀ before root next later, o.roots = before ++ root :: next :: later →
    ∃ x y, o.extentOf root = some x ∧ o.extentOf next = some y ∧ x.stop = y.start
  last : ∀ before root, o.roots = before ++ [root] →
    ∃ x, o.extentOf root = some x ∧ x.stop = o.source.size

/-- In a list of roots that tile the text from some root on, one contains each offset from there
on. -/
theorem RootsTile.exists_contains {o : Outline} (h : o.RootsTile) {before later : List Nat}
    {root : Nat} (hroots : o.roots = before ++ root :: later) {x : Extent}
    (hx : o.extentOf root = some x) {offset : Nat} (hstart : x.start ≤ offset)
    (hsize : offset < o.source.size) :
    ∃ root ∈ o.roots, ∃ x, o.extentOf root = some x ∧ x.contains offset = true := by
  induction later generalizing before root x with
  | nil =>
      obtain ⟨x', hx', hstop⟩ := h.last before root hroots
      obtain rfl : x = x' := Option.some.inj (hx.symm.trans hx')
      exact ⟨root, by simp [hroots], x, hx, by simp [Extent.contains]; omega⟩
  | cons next later ih =>
      rcases Nat.lt_or_ge offset x.stop with hlt | hge
      · exact ⟨root, by simp [hroots], x, hx, by simp [Extent.contains]; omega⟩
      · obtain ⟨x', y, hx', hy, hmeet⟩ := h.between before root next later hroots
        obtain rfl : x = x' := Option.some.inj (hx.symm.trans hx')
        have hroots' : o.roots = (before ++ [root]) ++ next :: later := by simp [hroots]
        exact ih hroots' hy (by omega)

end Outline

namespace Builder

open Forest

section Finished

variable {b : Builder}

/-- Finishing leaves the lists of links. -/
theorem under_finish (b : Builder) (parent : Option Nat) :
    b.finish.nodes.under parent = b.nodes.under parent := by
  rw [← under_skeleton, ← under_skeleton b.nodes, finish, skeleton_resolvePending]

/-- Finishing leaves the starts. -/
theorem startOf_finish (b : Builder) (id : Nat) :
    b.finish.nodes.startOf id = b.nodes.startOf id :=
  startOf_resolvePending b 0 b.source.size id

/-- Finishing closes the last root at the end of the text, and leaves the others. -/
theorem Tiled.extentOf_finish (h : b.Tiled) (hshape : b.Shaped) (hpending : b.PendingExact)
    (hgrounded : b.Grounded) {root : Nat} (hroot : root ∈ b.nodes.under none) :
    b.finish.extentOf root =
      some ⟨b.nodes.startOf root, (b.nodes.stopOf root).getD b.source.size⟩ := by
  have hstop := h.stopOf_resolvePending_zero hshape hpending
    (fun root _ => hgrounded.startOf_le_size root) hroot
  rw [Outline.extentOf_eq hstop, startOf_finish]

/-- Finishing ends the last root at the end of the text. -/
theorem Tiled.finish (h : b.Tiled) (hshape : b.Shaped) (hpending : b.PendingExact)
    (hgrounded : b.Grounded) : b.finish.RootsTile := by
  constructor
  · intro before root next later hsplit
    rw [Outline.roots, under_finish] at hsplit
    refine ⟨_, _, h.extentOf_finish hshape hpending hgrounded (by simp [hsplit]),
      h.extentOf_finish hshape hpending hgrounded (by simp [hsplit]), ?_⟩
    rw [h.between before root next later hsplit]
    rfl
  · intro before root hsplit
    rw [Outline.roots, under_finish] at hsplit
    refine ⟨_, h.extentOf_finish hshape hpending hgrounded (by simp [hsplit]), ?_⟩
    rw [h.last before root hsplit]
    rfl

/-- No root starts before the first one. -/
theorem Tiled.startOf_head_le (h : b.Tiled) {first root : Nat}
    (hfirst : (b.nodes.under none).head? = some first) (hroot : root ∈ b.nodes.under none) :
    b.nodes.startOf first ≤ b.nodes.startOf root := by
  have hasc := h.ascending
  obtain ⟨later, hroots⟩ := List.head?_eq_some_iff.mp hfirst
  rw [hroots] at hasc hroot
  rcases List.mem_cons.mp hroot with rfl | hroot
  · exact Nat.le_refl _
  · exact (List.pairwise_cons.mp hasc).1 root hroot

/-- The roots of a finished outline contain no offset before the first of them, and none past the
end of the text. -/
theorem Tiled.not_contains (h : b.Tiled) (hshape : b.Shaped) (hpending : b.PendingExact)
    (hgrounded : b.Grounded) {root offset : Nat} {x : Extent}
    (hroot : root ∈ b.finish.roots) (hx : b.finish.extentOf root = some x)
    (houtside : (∃ first y, b.finish.roots.head? = some first ∧
      b.finish.extentOf first = some y ∧ offset < y.start) ∨ b.source.size ≤ offset) :
    x.contains offset = false := by
  rcases houtside with ⟨first, y, hfirst, hy, hlt⟩ | hge
  · -- Starts ascend, so the offset lies before all roots.
    rw [Outline.roots, under_finish] at hfirst hroot
    have hle := h.startOf_head_le hfirst hroot
    rw [h.extentOf_finish hshape hpending hgrounded hroot] at hx
    rw [h.extentOf_finish hshape hpending hgrounded (List.mem_of_mem_head? hfirst)] at hy
    obtain rfl := Option.some.inj hx
    obtain rfl := Option.some.inj hy
    dsimp only at hlt
    simp only [Extent.contains, Bool.and_eq_false_iff, decide_eq_false_iff_not]
    omega
  · obtain ⟨z, -, hz, -, -, -, hstop, -⟩ :=
      finish_grounds hshape hgrounded hpending (Outline.lt_length_of_extentOf hx)
    obtain rfl : x = z := Option.some.inj (hx.symm.trans hz)
    have hle : x.stop ≤ b.source.size := hstop
    simp only [Extent.contains, Bool.and_eq_false_iff, decide_eq_false_iff_not]
    omega

end Finished
end Builder

namespace Outline

open Forest Builder

/-- The extent of a settled node is that of its entry. -/
theorem extentAt_mirror {o : Outline} {id : Nat} {x : Extent} (h : o.extentOf id = some x) :
    o.nodes.mirror.extentAt id = x := by
  obtain ⟨n, hn, hx⟩ := Option.bind_eq_some_iff.mp h
  obtain ⟨stop, hstop, rfl⟩ := Option.map_eq_some_iff.mp hx
  rw [node?] at hn
  simp [RangeIndex.extentAt, getElem?_mirror, hn, Node.entry, hstop]

/-- A lookup by offset finds nothing only where no root contains the offset. -/
theorem nodeAt_mirror_eq_none_iff {o : Outline} (h : o.nodes.Settled) (offset : Nat) :
    o.nodes.mirror.nodeAt offset = none ↔
      ∀ root ∈ o.roots, ∀ x, o.extentOf root = some x → x.contains offset = false := by
  rw [RangeIndex.nodeAt_eq_none_iff, under_mirror]
  constructor
  · intro hnone root hroot x hx
    rw [← extentAt_mirror hx]
    exact hnone root hroot
  · intro hnone root hroot
    obtain ⟨stop, hstop⟩ := h.stop root (mem_under.mp hroot).1
    rw [extentAt_mirror (extentOf_eq hstop)]
    exact hnone root hroot _ (extentOf_eq hstop)

/-- Where roots tile the text, a lookup by offset finds nothing exactly where there is no root,
before the first root, and past the end of the text. -/
theorem nodeAt_mirror_eq_none_iff_of_tiled {b : Builder} (h : b.Tiled) (hshape : b.Shaped)
    (hpending : b.PendingExact) (hgrounded : b.Grounded) (offset : Nat) :
    b.finish.nodes.mirror.nodeAt offset = none ↔
      b.finish.roots = [] ∨
      (∃ first x, b.finish.roots.head? = some first ∧ b.finish.extentOf first = some x ∧
        offset < x.start) ∨
      b.source.size ≤ offset := by
  have htile : b.finish.RootsTile := h.finish hshape hpending hgrounded
  have hsettled : b.finish.nodes.Settled := finish_settled hshape hgrounded hpending
  rw [nodeAt_mirror_eq_none_iff hsettled]
  constructor
  · intro hnone
    cases hroots : b.finish.roots with
    | nil => exact Or.inl rfl
    | cons first later =>
        obtain ⟨stop, hstop⟩ := hsettled.stop first (mem_under.mp (hroots ▸ List.mem_cons_self)).1
        rcases Nat.lt_or_ge offset (b.finish.nodes.startOf first) with hlt | hge
        · exact Or.inr (Or.inl ⟨first, _, rfl, extentOf_eq hstop, hlt⟩)
        · refine Or.inr (Or.inr (Nat.le_of_not_lt ?_))
          intro hlt
          obtain ⟨root, hroot, x, hx, hcontains⟩ := htile.exists_contains
            (show b.finish.roots = [] ++ first :: later from hroots) (extentOf_eq hstop) hge hlt
          rw [hnone root hroot x hx] at hcontains
          simp at hcontains
  · intro houtside root hroot x hx
    rcases houtside with hnil | houtside
    · simp [hnil] at hroot
    · exact h.not_contains hshape hpending hgrounded hroot hx houtside

/-- The roots of a stream are tiled where they are located and come in order. -/
theorem tiled_of_rootsInOrder {s : Source} {events : List Event}
    (horder : RootsInOrder s ((Builder.init s).feedAll events).finish.nodes) :
    ((Builder.init s).feedAll events).Tiled := by
  refine (Tiled.init s).feedAll (Shaped.init s) (PendingExact.init s) events ?_
  exact horder.of_skeleton (skeleton_resolvePending _ _ _).symm

/-- Roots that are located and come in order tile the text, whatever comes below them; and a lookup
by offset finds nothing exactly where there is no root, before the first root, and past the end of
the text. -/
theorem rootsTile_of_rootsInOrder (s : Source) (events : List Event)
    (horder : RootsInOrder s ((Builder.init s).feedAll events).finish.nodes) :
    let o := ((Builder.init s).feedAll events).finish
    o.RootsTile ∧ ∃ index, o.index = .ok index ∧ ∀ offset,
      index.nodeAt offset = none ↔
        o.roots = [] ∨
        (∃ first x, o.roots.head? = some first ∧ o.extentOf first = some x ∧ offset < x.start) ∨
        s.size ≤ offset := by
  have hshape := (Shaped.init s).feedAll events
  have hgrounded := (Grounded.init s).feedAll (Shaped.init s) events
  have hpending := (PendingExact.init s).feedAll events
  have hsource : ((Builder.init s).feedAll events).source = s := source_feedAll _ events
  have htiled := tiled_of_rootsInOrder horder
  generalize (Builder.init s).feedAll events = b at hshape hgrounded hpending hsource htiled
  subst hsource
  intro o
  have hsettled : o.nodes.Settled := finish_settled hshape hgrounded hpending
  refine ⟨htiled.finish hshape hpending hgrounded, o.nodes.mirror, index_eq hsettled, ?_⟩
  intro offset
  exact nodeAt_mirror_eq_none_iff_of_tiled htiled hshape hpending hgrounded offset

/-- Two roots in order.  Below them, nodes come back before their parent, reach past the end of the
text or are not located, and the second root is never closed. -/
def unrulyRules : List Event :=
  [.enter .rule (.seenAt 0 1), .leaf .color (.seenAt 0 6), .leaf .color (.seenAt 0 0),
    .enter .declaration .unseen, .leaf .url (.seenAt 7 7), .exit .declaration, .exit .rule,
    .enter .rule (.seenAt 0 4), .leaf .color (.seenAt 0 2), .leaf .color .unseen]

/-- The two roots tile the text from the first of them on, whatever happens below them. -/
theorem rootsTile_unrulyRules :
    let o := ((Builder.init ⟨"a(b)c(d)".toList⟩).feedAll unrulyRules).finish
    o.roots = [0, 5] ∧ o.RootsTile ∧ o.extentOf 0 = some ⟨1, 4⟩ ∧ o.extentOf 5 = some ⟨4, 8⟩ ∧
      ∃ index, o.index = .ok index ∧ index.nodeAt 0 = none ∧ index.nodeAt 8 = none := by
  intro o
  have hroots : o.nodes.under none = [0, 5] := by decide
  have hfirst : seenAt o.source o.nodes 0 = some 1 := by decide
  have hsecond : seenAt o.source o.nodes 5 = some 4 := by decide
  have horder : RootsInOrder o.source o.nodes := by
    constructor <;> simp [hroots, hfirst, hsecond]
  obtain ⟨htile, index, hindex, hlookup⟩ := rootsTile_of_rootsInOrder _ unrulyRules horder
  refine ⟨hroots, htile, by decide, by decide, index, hindex, ?_, ?_⟩
  · rw [hlookup]
    exact Or.inr (Or.inl ⟨0, ⟨1, 4⟩, by decide, by decide, by decide⟩)
  · rw [hlookup]
    exact Or.inr (Or.inr (by decide))

end Outline
end StyleAtlas
