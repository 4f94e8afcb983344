import StyleAtlas.Proofs.Sheet.Listings
import StyleAtlas.Proofs.Text.Boundary

/-!
# Trees and their indexes

The index of a tree keeps the shape of the tree, whatever spans its nodes have.  A node is named by
the child numbers on the way to it, as an address, and the number of an address counts the nodes
that come before it in pre-order.  A walk that keeps the nodes still to come on a stack meets the
nodes under these numbers.  In the index a node hangs under the nearest node on its address that has
a span, so what has none is passed over, at any depth.

Main results:

- Theorem `Sheet.walked_eq`: the walk with a stack meets the nodes in pre-order.
- Definitions `Sheet.Node.at?`, `Sheet.Node.number`: the node at an address, and its number.
- Definition `Sheet.Node.Nearest`: the nearest address above that has a span.
- Theorem `Sheet.getElem?_listings`: what is listed under the number of an address.
- Theorem `Sheet.Node.existsUnique_number`: every number is that of one address.
- Theorem `SheetIndex.exists_build_mirrors`: every tree is indexed, and its index mirrors it.
-/

namespace StyleAtlas
namespace Sheet

/-! ## Walking with a stack -/

/-- One step of a walk: the node on top of the stack makes way for its children, of which the first
comes to lie on top. -/
def walkStep : List Node → Option (Node × List Node)
  | [] => none
  | node :: stack => some (node, node.children ++ stack)

/-- The node that a walk meets after a number of others. -/
def walked : Nat → List Node → Option Node
  | 0, stack => (walkStep stack).map Prod.fst
  | k + 1, stack => (walkStep stack).bind fun step => walked k step.2

/-- A walk meets the nodes of the trees on its stack in pre-order. -/
theorem walked_eq (k : Nat) (stack : List Node) :
    walked k stack = (Node.preorderAll stack)[k]? := by
  induction k generalizing stack with
  | zero =>
      cases stack with
      | nil => rfl
      | cons node stack => cases node; rfl
  | succ k ih =>
      cases stack with
      | nil => rfl
      | cons node stack =>
          have hpreorder : Node.preorderAll (node :: stack) =
              node :: Node.preorderAll (node.children ++ stack) := by
            cases node
            simp [Node.preorderAll, Node.preorder, Node.children, Node.preorderAll_append]
          rw [hpreorder, List.getElem?_cons_succ, ← ih]
          rfl

namespace Node

/-! ## Addresses -/

/-- The node at an address, which gives the number of a child at every level. -/
def at? (node : Node) : List Nat → Option Node
  | [] => some node
  | i :: path => node.children[i]?.bind fun child => child.at? path

/-- How many nodes come before an address in pre-order. -/
def number (node : Node) : List Nat → Nat
  | [] => 0
  | i :: path =>
      1 + (preorderAll (node.children.take i)).length +
        (node.children[i]?.map fun child => child.number path).getD 0

/-- Whether the node at an address has a span. -/
def SpannedAt (node : Node) (path : List Nat) : Prop :=
  ∃ target, node.at? path = some target ∧ target.span.isSome = true

/-- The second address is properly above the first, and its node has a span. -/
def Around (node : Node) (path outer : List Nat) : Prop :=
  outer <+: path ∧ outer ≠ path ∧ node.SpannedAt outer

/-- The second address is the nearest of those above the first one whose nodes have spans. -/
def Nearest (node : Node) (path outer : List Nat) : Prop :=
  node.Around path outer ∧ ∀ other, node.Around path other → other <+: outer

variable {node child target : Node} {i : Nat} {path outer : List Nat}

/-- An address goes on from the child that it names first. -/
theorem at?_cons (hchild : node.children[i]? = some child) (path : List Nat) :
    node.at? (i :: path) = child.at? path := by
  rw [at?, hchild, Option.bind_some]

/-- A node comes behind its parent, the earlier siblings of its branch and what comes before it in
that branch. -/
theorem number_cons (hchild : node.children[i]? = some child) (path : List Nat) :
    node.number (i :: path) = 1 + (preorderAll (node.children.take i)).length +
      child.number path := by
  rw [number, hchild]
  rfl

/-- Nothing is above the top. -/
theorem not_around_nil : ¬node.Around [] outer :=
  fun h => h.2.1 (List.prefix_nil.mp h.1)

/-- Above an address in a child are the node itself and what is above it in the child. -/
theorem around_cons_iff (hchild : node.children[i]? = some child) :
    node.Around (i :: path) outer ↔ (outer = [] ∧ node.span.isSome = true) ∨
      ∃ rest, outer = i :: rest ∧ child.Around path rest := by
  cases outer with
  | nil => simp [Around, SpannedAt, at?]
  | cons j rest =>
      constructor
      · rintro ⟨habove, hne, target, htarget, hspan⟩
        obtain ⟨rfl, hrest⟩ := List.cons_prefix_cons.mp habove
        rw [at?_cons hchild] at htarget
        exact Or.inr ⟨rest, rfl, hrest, fun heq => hne (heq ▸ rfl), target, htarget, hspan⟩
      · rintro (⟨hnil, -⟩ | ⟨rest, heq, habove, hne, target, htarget, hspan⟩)
        · simp at hnil
        · obtain ⟨rfl, rfl⟩ := List.cons.inj heq
          refine ⟨List.cons_prefix_cons.mpr ⟨rfl, habove⟩, fun heq => hne (List.cons.inj heq).2, ?_⟩
          exact ⟨target, (at?_cons hchild rest).trans htarget, hspan⟩

/-- The nearest address above in a child is the nearest one above. -/
theorem Nearest.cons (hchild : node.children[i]? = some child) (h : child.Nearest path outer) :
    node.Nearest (i :: path) (i :: outer) := by
  refine ⟨(around_cons_iff hchild).mpr (Or.inr ⟨outer, rfl, h.1⟩), ?_⟩
  intro other hother
  rcases (around_cons_iff hchild).mp hother with ⟨rfl, -⟩ | ⟨rest, rfl, hrest⟩
  · exact List.nil_prefix
  · exact List.cons_prefix_cons.mpr ⟨rfl, h.2 rest hrest⟩

/-- A node with a span is the nearest one above what has none above it in the child. -/
theorem nearest_nil (hchild : node.children[i]? = some child) (hspan : node.span.isSome = true)
    (hnone : ∀ outer, ¬child.Around path outer) : node.Nearest (i :: path) [] := by
  refine ⟨(around_cons_iff hchild).mpr (Or.inl ⟨rfl, hspan⟩), ?_⟩
  intro other hother
  rcases (around_cons_iff hchild).mp hother with ⟨rfl, -⟩ | ⟨rest, -, hrest⟩
  · exact List.nil_prefix
  · exact absurd hrest (hnone rest)

/-! ## Numbers of addresses -/

/-- A tree has one node more than there are below its root. -/
theorem length_preorder (node : Node) :
    node.preorder.length = 1 + (preorderAll node.children).length := by
  cases node
  simp [preorder, children, Nat.add_comm]

/-- The nodes of a child come between those of the children before it and of those behind it. -/
theorem length_preorderAll_take_succ {nodes : List Node} (hchild : nodes[i]? = some child) :
    (preorderAll (nodes.take (i + 1))).length =
      (preorderAll (nodes.take i)).length + child.preorder.length := by
  rw [List.take_add_one, hchild, Option.toList_some, preorderAll_append, List.length_append]
  simp [preorderAll]

/-- More trees have no fewer nodes. -/
theorem length_preorderAll_take_mono (nodes : List Node) {i j : Nat} (h : i ≤ j) :
    (preorderAll (nodes.take i)).length ≤ (preorderAll (nodes.take j)).length := by
  rw [← Nat.add_sub_cancel' h, List.take_add, preorderAll_append, List.length_append]
  exact Nat.le_add_right _ _

/-- Numbers of addresses are less than the number of nodes. -/
theorem number_lt (h : node.at? path = some target) : node.number path < node.preorder.length := by
  induction path generalizing node with
  | nil =>
      rw [number, length_preorder]
      omega
  | cons i path ih =>
      rcases Option.bind_eq_some_iff.mp h with ⟨child, hchild, hrest⟩
      have hlt := ih hrest
      have htake := length_preorderAll_take_succ hchild
      have hlast : i + 1 ≤ node.children.length := (List.getElem?_eq_some_iff.mp hchild).1
      have hmono := length_preorderAll_take_mono node.children hlast
      rw [List.take_length] at hmono
      rw [number_cons hchild, length_preorder]
      omega

/-- Addresses in different children have different numbers, those in the earlier child less. -/
theorem number_lt_of_lt {i j : Nat} {p q : List Nat} (hp : node.at? (i :: p) = some child)
    (hq : node.at? (j :: q) = some target) (hlt : i < j) :
    node.number (i :: p) < node.number (j :: q) := by
  rcases Option.bind_eq_some_iff.mp hp with ⟨first, hfirst, hp⟩
  rcases Option.bind_eq_some_iff.mp hq with ⟨second, hsecond, -⟩
  have hnumber := number_lt hp
  have htake := length_preorderAll_take_succ hfirst
  have hmono := length_preorderAll_take_mono node.children (i := i + 1) hlt
  rw [number_cons hfirst, number_cons hsecond]
  omega

/-- No two nodes have the same number. -/
theorem number_injective {p q : List Nat} (hp : node.at? p = some child)
    (hq : node.at? q = some target) (h : node.number p = node.number q) : p = q := by
  induction p generalizing node q with
  | nil =>
      cases q with
      | nil => rfl
      | cons j q => simp only [number] at h; omega
  | cons i p ih =>
      cases q with
      | nil => simp only [number] at h; omega
      | cons j q =>
          rcases Nat.lt_trichotomy i j with hlt | rfl | hlt
          · exact absurd h (Nat.ne_of_lt (number_lt_of_lt hp hq hlt))
          · rcases Option.bind_eq_some_iff.mp hp with ⟨next, hnext, hp⟩
            rw [at?_cons hnext] at hq
            rw [number_cons hnext, number_cons hnext] at h
            rw [ih hp hq (Nat.add_left_cancel h)]
          · exact absurd h.symm (Nat.ne_of_lt (number_lt_of_lt hq hp hlt))

mutual

/-- Every number that is less than the number of nodes is that of an address. -/
theorem exists_number (node : Node) {k : Nat} (h : k < node.preorder.length) :
    ∃ path target, node.at? path = some target ∧ node.number path = k := by
  cases node with
  | mk content span children =>
      cases k with
      | zero => exact ⟨[], _, rfl, rfl⟩
      | succ k =>
          have hk : k < (preorderAll children).length := by simpa [preorder] using h
          rcases exists_number_all children hk with ⟨i, child, path, target, hchild, htarget, rfl⟩
          have hchild' : (mk content span children).children[i]? = some child := hchild
          refine ⟨i :: path, target, (at?_cons hchild' path).trans htarget, ?_⟩
          have hnumber : (mk content span children).number (i :: path) =
              1 + (preorderAll (children.take i)).length + child.number path :=
            number_cons hchild' path
          omega

/-- Every number below the number of nodes of some trees is that of an address in one of them. -/
theorem exists_number_all (nodes : List Node) {k : Nat} (h : k < (preorderAll nodes).length) :
    ∃ i child path target, nodes[i]? = some child ∧ child.at? path = some target ∧
      (preorderAll (nodes.take i)).length + child.number path = k := by
  cases nodes with
  | nil => simp [preorderAll] at h
  | cons node nodes =>
      by_cases hfirst : k < node.preorder.length
      · rcases exists_number node hfirst with ⟨path, target, htarget, hk⟩
        exact ⟨0, node, path, target, rfl, htarget, by simpa [preorderAll] using hk⟩
      · have hrest : k - node.preorder.length < (preorderAll nodes).length := by
          rw [preorderAll, List.length_append] at h
          omega
        rcases exists_number_all nodes hrest with ⟨i, child, path, target, hchild, htarget, hk⟩
        refine ⟨i + 1, child, path, target, hchild, htarget, ?_⟩
        rw [List.take_succ_cons, preorderAll, List.length_append]
        omega

end

/-- Every number that is less than the number of nodes is that of exactly one address. -/
theorem existsUnique_number {k : Nat} (h : k < node.preorder.length) :
    ∃! path, (∃ target, node.at? path = some target) ∧ node.number path = k := by
  rcases exists_number node h with ⟨path, target, htarget, hk⟩
  refine ⟨path, ⟨⟨target, htarget⟩, hk⟩, ?_⟩
  rintro other ⟨⟨target', htarget'⟩, hother⟩
  exact number_injective htarget' htarget (hother.trans hk.symm)

end Node

/-! ## What is listed at an address -/

/-- The listings of a tree stand among those of the trees around it. -/
theorem getElem?_listAll {ordinal i k : Nat} {parent anchor : Option Nat} {nodes : List Node}
    {node : Node} {listing : Listing} (hnode : nodes[i]? = some node)
    (h : (node.listings (ordinal + (Node.preorderAll (nodes.take i)).length) parent anchor)[k]? =
      some listing) :
    (listAll ordinal parent anchor nodes)[(Node.preorderAll (nodes.take i)).length + k]? =
      some listing := by
  induction nodes generalizing ordinal i with
  | nil => simp at hnode
  | cons first nodes ih =>
      have hlength : (first.listings ordinal parent anchor).length = first.preorder.length := by
        rw [← map_node_listings ordinal parent anchor first, List.length_map]
      rw [listAll]
      cases i with
      | zero =>
          obtain rfl : first = node := by simpa using hnode
          have hlt : k < (first.listings ordinal parent anchor).length :=
            (List.getElem?_eq_some_iff.mp h).1
          simp only [List.take_zero, Node.preorderAll, List.length_nil, Nat.zero_add]
          rw [List.getElem?_append_left hlt]
          exact h
      | succ i =>
          rw [List.take_succ_cons, Node.preorderAll, List.length_append] at h ⊢
          rw [← hlength, ← Nat.add_assoc] at h
          rw [List.getElem?_append_right (by omega), ← hlength, Nat.add_assoc,
            Nat.add_sub_cancel_left]
          exact ih hnode h

/-- Under the number of an address its node is listed, with the number of the nearest address above
that has a span, or with what comes from outside if there is none. -/
theorem getElem?_listings (ordinal : Nat) (parent anchor : Option Nat) {node target : Node}
    {path : List Nat} (h : node.at? path = some target) :
    ∃ listing, (node.listings ordinal parent anchor)[node.number path]? = some listing ∧
      listing.node = target ∧
      ((∃ outer, node.Nearest path outer ∧ listing.anchor = some (ordinal + node.number outer)) ∨
        (∀ outer, ¬node.Around path outer) ∧ listing.anchor = anchor) := by
  induction path generalizing node ordinal parent anchor with
  | nil =>
      obtain rfl : node = target := Option.some.inj h
      cases node with
      | mk content span children =>
          exact ⟨_, rfl, rfl, Or.inr ⟨fun outer => Node.not_around_nil, rfl⟩⟩
  | cons i path ih =>
      rcases Option.bind_eq_some_iff.mp h with ⟨child, hchild, hrest⟩
      rcases ih (ordinal + 1 + (Node.preorderAll (node.children.take i)).length) (some ordinal)
        (if node.span.isSome then some ordinal else anchor) hrest with
        ⟨listing, hlisting, hnode, hanchor⟩
      refine ⟨listing, ?_, hnode, ?_⟩
      · rw [Node.number_cons hchild]
        cases node with
        | mk content span children =>
            rw [Node.listings, Nat.add_assoc, Nat.add_comm 1, List.getElem?_cons_succ]
            exact getElem?_listAll hchild hlisting
      · rcases hanchor with ⟨outer, hnearest, hanchor⟩ | ⟨hnone, hanchor⟩
        · refine Or.inl ⟨i :: outer, hnearest.cons hchild, ?_⟩
          rw [hanchor, Node.number_cons hchild]
          congr 1
          omega
        · -- Nothing between the node and the address has a span, so it depends on the node itself.
          cases hspan : node.span.isSome with
          | true =>
              rw [hspan, if_pos rfl] at hanchor
              exact Or.inl ⟨[], Node.nearest_nil hchild hspan hnone, hanchor⟩
          | false =>
              rw [hspan, if_neg Bool.false_ne_true] at hanchor
              refine Or.inr ⟨fun outer houter => ?_, hanchor⟩
              rcases (Node.around_cons_iff hchild).mp houter with ⟨-, hsome⟩ | ⟨rest, -, hrest⟩
              · rw [hspan] at hsome
                simp at hsome
              · exact hnone rest hrest

/-! ## Extents of spans -/

/-- An extent of a text that is not reversed, and that starts and stops between characters. -/
def Fits (source : Source) (x : Extent) : Prop :=
  x.start ≤ x.stop ∧ x.stop ≤ source.size ∧ Text.isBoundary source.chars x.start = true ∧
    Text.isBoundary source.chars x.stop = true

/-- Whatever points a span names, its extent fits the text. -/
theorem fits_extent (source : Source) (span : Span) : Fits source (span.extent source) := by
  have hstart := source.isBoundary_clamp span.first.position
  have hstop : Text.isBoundary source.chars (span.extent source).stop = true :=
    Text.isBoundary_max ?_ hstart
  · exact ⟨Nat.le_max_right _ _, Text.le_byteSize_of_isBoundary hstop, hstart, hstop⟩
  rcases Text.isBoundary_iff.mp (source.isBoundary_clamp span.last.position) with
    ⟨front, back, hsplit, hsize⟩
  rw [hsplit, ← hsize, Text.charsFrom_byteSize]
  cases back with
  | nil => exact Text.isBoundary_byteSize front []
  | cons c back => simpa using Text.isBoundary_byteSize (front ++ [c]) back

end Sheet

namespace SheetIndex

open Sheet

/-- Whether the node with a number has a span. -/
def hasSpan (s : SheetIndex) (ordinal : Nat) : Bool :=
  (s.node? ordinal).any fun node => node.span.isSome

/-! ## The index of a tree -/

namespace Complete

variable {s : SheetIndex} {ordinal : Nat} {listing : Listing} {span : Span}

/-- The keys of an index are the numbers of the nodes that have a span. -/
theorem keys_eq (h : s.Complete) :
    s.index.entries.map IndexEntry.key = (List.range s.size).filter s.hasSpan := by
  have hnumbers : List.range s.size = s.listings.zipIdx.map Prod.snd := by
    rw [List.zipIdx_map_snd, List.range_eq_range', size]
  have hspanned : s.listings.zipIdx.filter (s.hasSpan ∘ Prod.snd) =
      s.listings.zipIdx.filter fun x => x.1.node.span.isSome := by
    refine List.filter_congr fun x hx => ?_
    rw [Function.comp_apply, hasSpan, node?, List.mem_zipIdx_iff_getElem?.mp hx]
    rfl
  rw [hnumbers, List.filter_map, hspanned, h]
  induction s.listings.zipIdx with
  | nil => rfl
  | cons x xs ih => cases hspan : x.1.node.span <;> simp [Listing.entry?, hspan, ih]

/-- The nodes around which no other has a span are the roots of the index. -/
theorem mem_roots_iff (h : s.Complete) (hlisting : s.listings[ordinal]? = some listing)
    (hspan : listing.node.span = some span)
    (hanchor : ∀ a ∈ listing.anchor, (s.extentOf a).isSome = true) :
    ordinal ∈ s.index.roots ↔ listing.anchor = none := by
  have hentry := h.entryOf_eq ordinal
  simp only [hlisting, Option.bind_some, Listing.entry?, hspan, Option.map_some] at hentry
  rcases RangeIndex.exists_keyAt_of_entryOf hentry with ⟨i, hkey, hi⟩
  have hlink : s.index.linkAt i = listing.anchor.bind s.index.indexOf := by
    rw [RangeIndex.linkAt, hi, Option.bind_some]
  have hparent := h.parentOf_eq hlisting hspan hanchor
  rw [h.distinct.mem_roots_iff hkey]
  constructor
  · intro hroot
    rw [← hparent, h.distinct.parentOf_eq hkey, hroot, Option.bind_none]
  · intro hnone
    rw [hlink, hnone, Option.bind_none]

end Complete

/-- An index mirrors a tree.  Its nodes are those that a walk meets, in the order in which it meets
them, and so under the numbers of their addresses.  Its entries are the nodes that have a span, in
the same order, each with the extent of its span, which fits the text.  An entry hangs under the
nearest address above that has a span, and is a root if there is none. -/
structure Mirrors (s : SheetIndex) (root : Sheet.Node) : Prop where
  node?_eq : ∀ k, s.node? k = walked k [root]
  address : ∀ k < s.size, ∃! path, (∃ node, root.at? path = some node) ∧ root.number path = k
  node?_number : ∀ path node, root.at? path = some node → s.node? (root.number path) = some node
  keys_eq : s.index.entries.map IndexEntry.key = (List.range s.size).filter s.hasSpan
  extentOf_eq : ∀ k, s.extentOf k = (s.node? k).bind (Sheet.Node.extent? s.source)
  fits : ∀ entry ∈ s.index.entries, Fits s.source entry.extent
  parent : ∀ path, root.SpannedAt path →
    (∃ outer, root.Nearest path outer ∧
      s.index.parentOf (root.number path) = some (root.number outer) ∧
      root.number path ∉ s.index.roots) ∨
    (∀ outer, ¬root.Around path outer) ∧ s.index.parentOf (root.number path) = none ∧
      root.number path ∈ s.index.roots

/-- A complete index over the listings of a tree mirrors it. -/
theorem Complete.mirrors {s : SheetIndex} {root : Sheet.Node} (h : s.Complete)
    (hlistings : s.listings = root.listings 0 none none) : s.Mirrors root := by
  have hnodes : s.listings.map Listing.node = root.preorder := by
    rw [hlistings, map_node_listings]
  have hnode : ∀ k, s.node? k = root.preorder[k]? := fun k => by
    rw [node?, ← List.getElem?_map, hnodes]
  have hsize : s.size = root.preorder.length := by
    rw [size, ← hnodes, List.length_map]
  have hextent : ∀ k, s.extentOf k = (s.node? k).bind (Sheet.Node.extent? s.source) := fun k => by
    rw [h.extentOf_eq, node?, Option.bind_map]
    rfl
  have haddress : ∀ path node, root.at? path = some node → ∃ listing,
      s.listings[root.number path]? = some listing ∧ listing.node = node ∧
      ((∃ outer, root.Nearest path outer ∧ listing.anchor = some (root.number outer)) ∨
        (∀ outer, ¬root.Around path outer) ∧ listing.anchor = none) := fun path node hpath => by
    rw [hlistings]
    simpa using getElem?_listings 0 none none hpath
  have hnumber : ∀ path node, root.at? path = some node →
      s.node? (root.number path) = some node := fun path node hpath => by
    rcases haddress path node hpath with ⟨listing, hlisting, rfl, -⟩
    rw [node?, hlisting, Option.map_some]
  refine ⟨?_, ?_, hnumber, h.keys_eq, hextent, ?_, ?_⟩
  · intro k
    rw [hnode, walked_eq, Sheet.Node.preorderAll, Sheet.Node.preorderAll, List.append_nil]
  · intro k hk
    exact Sheet.Node.existsUnique_number (hsize ▸ hk)
  · intro entry hentry
    rw [h, List.mem_filterMap] at hentry
    rcases hentry with ⟨x, -, hx⟩
    rcases Option.map_eq_some_iff.mp hx with ⟨span, -, rfl⟩
    exact fits_extent s.source span
  · rintro path ⟨node, hpath, hspan⟩
    rcases haddress path node hpath with ⟨listing, hlisting, rfl, hanchor⟩
    rcases Option.isSome_iff_exists.mp hspan with ⟨span, hspan⟩
    rcases hanchor with ⟨outer, hnearest, hanchor⟩ | ⟨hnone, hanchor⟩
    · have hindexed : ∀ a ∈ listing.anchor, (s.extentOf a).isSome = true := by
        intro a ha
        obtain rfl : root.number outer = a := Option.some.inj (hanchor.symm.trans ha)
        rcases hnearest.1.2.2 with ⟨target, htarget, hsome⟩
        simpa [hextent, hnumber outer target htarget, Sheet.Node.extent?] using hsome
      refine Or.inl ⟨outer, hnearest, ?_, ?_⟩
      · rw [h.parentOf_eq hlisting hspan hindexed, hanchor]
      · rw [h.mem_roots_iff hlisting hspan hindexed, hanchor]
        simp
    · have hindexed : ∀ a ∈ listing.anchor, (s.extentOf a).isSome = true := by
        rw [hanchor]
        simp
      refine Or.inr ⟨hnone, ?_, ?_⟩
      · rw [h.parentOf_eq hlisting hspan hindexed, hanchor]
      · rw [h.mem_roots_iff hlisting hspan hindexed, hanchor]

/-- Every tree is indexed, whatever spans its nodes have, and its index mirrors it. -/
theorem exists_build_mirrors (source : Source) (root : Sheet.Node) :
    ∃ s, build source root = .ok s ∧ s.source = source ∧ s.Mirrors root := by
  rcases exists_build source root with ⟨s, hbuild, hsource, hlistings, hcomplete⟩
  exact ⟨s, hbuild, hsource, hcomplete.mirrors hlistings⟩

end SheetIndex
end StyleAtlas
