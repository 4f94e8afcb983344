import StyleAtlas.Proofs.Sheet.Listings
import StyleAtlas.Proofs.Sheet.Seating

/-!
# The index of a sheet

Every text that is read can be indexed.  All nodes below the root are in the index, with the extents
of the parts that they were read from; the index is laminar, so lookups by offset are exact; and the
places that the reader counted are those that the source looks up.

Main results:

- Theorems `Sheet.Seated.bounds`, `Sheet.Seated.links`, `Sheet.Seated.ordered`: how the nodes that
  are seated in a text nest when they are numbered.
- Definition `SheetIndex.Nested`: children lie between the braces of their parents, and siblings are
  in order and apart.
- Theorem `SheetIndex.build_is_laminar`: the index of a sheet nests, and its lookups are exact.
- Theorem `SheetIndex.build_agrees_with_text`: the spans, extents and texts of a sheet belong
  together.
-/

namespace StyleAtlas
namespace Sheet

open Text

/-! ## Numbered nodes -/

/-- An extent lies between the braces of a part of the source: the part is a header and a body
between braces, and the extent lies in the body. -/
def InBraces (source : Source) (inner outer : Extent) : Prop :=
  ∃ header body, source.sliceOffsets outer = .ok (header ++ '{' :: (body ++ ['}'])) ∧
    outer.start + byteSize header < inner.start ∧ inner.stop < outer.stop

/-- The first node lies between the braces of the second. -/
def Within (source : Source) (inner outer : Node) : Prop :=
  ∀ x ∈ inner.extent? source, ∀ y ∈ outer.extent? source, InBraces source x y

/-- The first node ends before the second starts. -/
def Ahead (source : Source) (first second : Node) : Prop :=
  ∀ x ∈ first.extent? source, ∀ y ∈ second.extent? source, x.stop ≤ y.start

variable {source : Source} {lower upper : Nat} {nodes : List Node}

/-- Nodes lie one in the other where their extents do. -/
theorem Within.of_extents {inner outer : Node} {x y : Extent} (hx : inner.extent? source = some x)
    (hy : outer.extent? source = some y) (h : InBraces source x y) : Within source inner outer := by
  intro x' hx' y' hy'
  rw [hx] at hx'
  rw [hy] at hy'
  rwa [← Option.some.inj hx', ← Option.some.inj hy']

/-- A node is ahead of another where its extent is. -/
theorem Ahead.of_extents {first second : Node} {x y : Extent} (hx : first.extent? source = some x)
    (hy : second.extent? source = some y) (h : x.stop ≤ y.start) : Ahead source first second := by
  intro x' hx' y' hy'
  rw [hx] at hx'
  rw [hy] at hy'
  rwa [← Option.some.inj hx', ← Option.some.inj hy']

/-- The extent of a node whose span reads a part is that of the part. -/
theorem Span.Reads.extent?_eq {span : Span} {before part after : List Char} {content : Content}
    {children : List Node} (h : span.Reads source before part after) :
    (Node.mk content (some span) children).extent? source =
      some ⟨byteSize before, byteSize before + byteSize part⟩ := by
  rw [Node.extent?, Node.span, Option.map_some, h.extent_eq]

/-- What lies in the body of a part that a span reads lies between its braces. -/
theorem Span.Reads.inBraces {span : Span} {before part after : List Char} {opening closing : Nat}
    {x : Extent} (h : span.Reads source before part after)
    (hbraced : Braced part (byteSize before) opening closing) (hstart : opening ≤ x.start)
    (hstop : x.stop ≤ closing) :
    InBraces source x ⟨byteSize before, byteSize before + byteSize part⟩ := by
  have hbounds := hbraced.bounds
  rcases hbraced with ⟨header, body, hpart, hopening, -⟩
  refine ⟨header, body, ?_, ?_, ?_⟩
  · rw [Source.sliceOffsets_byteSize h.split, hpart]
  · change byteSize before + byteSize header < x.start
    omega
  · change x.stop < byteSize before + byteSize part
    omega

/-- Seated nodes, and all below them, have extents between the ends of their seat. -/
theorem Seated.bounds (h : Seated source lower upper nodes) :
    ∀ node ∈ Node.preorderAll nodes, ∃ x, node.extent? source = some x ∧
      lower ≤ x.start ∧ x.start < x.stop ∧ x.stop ≤ upper := by
  induction h with
  | nil => simp [Node.preorderAll]
  | cons hreads hlower hupper hbraced _ _ ihchildren ihnodes =>
      have hsize := hreads.byteSize_pos
      intro node hnode
      simp only [Node.preorderAll, Node.preorder, List.cons_append, List.mem_cons,
        List.mem_append] at hnode
      rcases hnode with rfl | hnode | hnode
      · exact ⟨_, hreads.extent?_eq, by simp; omega⟩
      · rcases ihchildren node hnode with ⟨x, hx, hstart, hlt, hstop⟩
        rcases hbraced with rfl | hbraced
        · simp [Node.preorderAll] at hnode
        · have hbounds := hbraced.bounds
          exact ⟨x, hx, by omega⟩
      · rcases ihnodes node hnode with ⟨x, hx, hstart, hlt, hstop⟩
        exact ⟨x, hx, by omega⟩

/-- Listed nodes are nodes of the trees. -/
theorem node_mem_preorderAll {ordinal number : Nat} {parent anchor : Option Nat}
    {x : Listing × Nat} (h : x ∈ (listAll ordinal parent anchor nodes).zipIdx number) :
    x.1.node ∈ Node.preorderAll nodes := by
  rw [← map_node_listAll ordinal parent anchor]
  exact List.mem_map_of_mem (List.fst_mem_of_mem_zipIdx h)

/-- Numbered nodes of a seated forest are at its top, or lie between the braces of an earlier one,
which is their parent and has a span. -/
theorem Seated.links (h : Seated source lower upper nodes) (ordinal : Nat)
    (parent anchor : Option Nat) :
    ∀ x ∈ (listAll ordinal parent anchor nodes).zipIdx ordinal,
      (x.1.parent = parent ∧ x.1.anchor = anchor) ∨
        ∃ y ∈ (listAll ordinal parent anchor nodes).zipIdx ordinal, y.2 < x.2 ∧
          x.1.parent = some y.2 ∧ x.1.anchor = some y.2 ∧ Within source x.1.node y.1.node := by
  induction h generalizing ordinal parent anchor with
  | nil => simp [listAll]
  | @cons lower upper opening closing content span children nodes before part after hreads _ _
      hbraced hchildren _ ihchildren ihnodes =>
      rw [zipIdx_listAll_cons, zipIdx_listings]
      intro x hx
      rcases List.mem_append.mp hx with hx | hx
      · rcases List.mem_cons.mp hx with rfl | hx
        · exact Or.inl ⟨rfl, rfl⟩
        · refine Or.inr ?_
          have hafter := List.le_snd_of_mem_zipIdx hx
          rcases ihchildren _ _ _ x hx with ⟨hparent, hanchor⟩ | ⟨y, hy, hlinks⟩
          · -- The children hang under the node itself, and lie between its braces.
            refine ⟨_, List.mem_append_left _ List.mem_cons_self, hafter, hparent,
              by simpa using hanchor, ?_⟩
            rcases hbraced with rfl | hbraced
            · simp [listAll] at hx
            · rcases hchildren.bounds _ (node_mem_preorderAll hx) with ⟨y, hy, hstart, -, hstop⟩
              exact Within.of_extents hy hreads.extent?_eq (hreads.inBraces hbraced hstart hstop)
          · exact ⟨y, List.mem_append_left _ (List.mem_cons_of_mem _ hy), hlinks⟩
      · rcases ihnodes _ parent anchor x hx with htop | ⟨y, hy, hlinks⟩
        · exact Or.inl htop
        · exact Or.inr ⟨y, List.mem_append_right _ hy, hlinks⟩

/-- Numbered nodes of a seated forest that have the same parent are in order and apart. -/
theorem Seated.ordered (h : Seated source lower upper nodes) {ordinal : Nat} {parent : Option Nat}
    (anchor : Option Nat) (hparent : ∀ p ∈ parent, p < ordinal) :
    ((listAll ordinal parent anchor nodes).zipIdx ordinal).Pairwise fun x y =>
      x.1.parent = y.1.parent → Ahead source x.1.node y.1.node := by
  induction h generalizing ordinal parent anchor with
  | nil => simp [listAll]
  | @cons lower upper opening closing content span children nodes before part after hreads _ _
      hbraced hchildren hnodes ihchildren ihnodes =>
      rw [zipIdx_listAll_cons, zipIdx_listings, List.pairwise_append, List.pairwise_cons]
      refine ⟨⟨?_, ?_⟩, ?_, ?_⟩
      · -- What lies below a node has a parent with at least its number, and the node has not.
        intro y hy hsame
        have hbelow : ∃ p, y.1.parent = some p ∧ ordinal ≤ p := by
          rcases hchildren.links _ _ _ y hy with ⟨hparent', -⟩ | ⟨z, hz, -, hparent', -⟩
          · exact ⟨ordinal, hparent', Nat.le_refl _⟩
          · exact ⟨z.2, hparent', Nat.le_of_succ_le (List.le_snd_of_mem_zipIdx hz)⟩
        rcases hbelow with ⟨p, hp, hle⟩
        have hlt := hparent p (hsame.trans hp)
        omega
      · exact ihchildren _ (by simp)
      · apply ihnodes
        intro p hp
        have := hparent p hp
        omega
      · intro x hx y hy _
        rcases hnodes.bounds _ (node_mem_preorderAll hy) with ⟨z, hz, hstart, -⟩
        rcases List.mem_cons.mp hx with rfl | hx
        · exact Ahead.of_extents hreads.extent?_eq hz hstart
        · rcases hchildren.bounds _ (node_mem_preorderAll hx) with ⟨w, hw, -, -, hstop⟩
          rcases hbraced with rfl | hbraced
          · simp [listAll] at hx
          · have hbounds := hbraced.bounds
            exact Ahead.of_extents hw hz (by omega)

end Sheet

namespace SheetIndex

open Sheet

/-! ## The index of seated nodes -/

/-- The index of a root over nodes that are seated in the source. -/
structure OfSheet (s : SheetIndex) (nodes : List Sheet.Node) : Prop where
  complete : s.Complete
  listings_eq : s.listings = (Sheet.Node.mk .root none nodes).listings 0 none none
  seated : Seated s.source 0 s.source.size nodes

/-- The nodes below the root of a sheet, with their numbers and links. -/
abbrev numbered (nodes : List Sheet.Node) : List (Listing × Nat) :=
  (listAll 1 (some 0) none nodes).zipIdx 1

/-- The number of the parent of a node in its tree. -/
def parentIn (s : SheetIndex) (ordinal : Nat) : Option Nat :=
  s.listings[ordinal]?.bind Listing.parent

namespace OfSheet

variable {s : SheetIndex} {nodes : List Sheet.Node} {k : Nat} {listing : Listing}

/-- The root is numbered zero, and all other nodes come behind it. -/
theorem zipIdx_eq (h : s.OfSheet nodes) :
    s.listings.zipIdx = (⟨.mk .root none nodes, none, none⟩, 0) :: numbered nodes := by
  rw [h.listings_eq, zipIdx_listings]
  rfl

/-- The first node is the root. -/
theorem getElem?_zero (h : s.OfSheet nodes) :
    s.listings[0]? = some ⟨.mk .root none nodes, none, none⟩ := by
  rw [h.listings_eq]
  rfl

/-- All nodes but the first lie below the root. -/
theorem getElem?_pos (h : s.OfSheet nodes) (hk : 0 < k) :
    s.listings[k]? = some listing ↔ (listing, k) ∈ numbered nodes := by
  have hmem := List.mem_zipIdx_iff_getElem? (x := (listing, k)) (l := s.listings)
  rw [← hmem, h.zipIdx_eq, List.mem_cons]
  constructor
  · rintro (heq | hx)
    · have hzero : k = 0 := congrArg Prod.snd heq
      omega
    · exact hx
  · exact Or.inr

/-- The root has no extent. -/
theorem extentOf_zero (h : s.OfSheet nodes) : s.extentOf 0 = none := by
  rw [h.complete.extentOf_eq, h.getElem?_zero]
  rfl

/-- The nodes below the root have other numbers than the root. -/
theorem pos_of_mem (hx : (listing, k) ∈ numbered nodes) : 0 < k :=
  List.le_snd_of_mem_zipIdx hx

/-- The extent of a node below the root is that of its span. -/
theorem extentOf_eq (h : s.OfSheet nodes) (hx : (listing, k) ∈ numbered nodes) :
    s.extentOf k = listing.node.extent? s.source := by
  rw [h.complete.extentOf_eq, (h.getElem?_pos (pos_of_mem hx)).mpr hx, Option.bind_some]

/-- The parent of a node below the root is the one that it is listed with. -/
theorem parentIn_eq (h : s.OfSheet nodes) (hx : (listing, k) ∈ numbered nodes) :
    s.parentIn k = listing.parent := by
  rw [parentIn, (h.getElem?_pos (pos_of_mem hx)).mpr hx, Option.bind_some]

/-- What is indexed is a node below the root. -/
theorem exists_of_extentOf (h : s.OfSheet nodes) {x : Extent} (hx : s.extentOf k = some x) :
    ∃ listing, (listing, k) ∈ numbered nodes ∧ listing.node.extent? s.source = some x := by
  have hk : 0 < k := by
    apply Nat.pos_of_ne_zero
    rintro rfl
    rw [h.extentOf_zero] at hx
    simp at hx
  rw [h.complete.extentOf_eq] at hx
  rcases Option.bind_eq_some_iff.mp hx with ⟨listing, hlisting, hextent⟩
  exact ⟨listing, (h.getElem?_pos hk).mp hlisting, hextent⟩

/-- Nodes at the top have no parent in the index, and all others have theirs. -/
theorem links (h : s.OfSheet nodes) (hx : (listing, k) ∈ numbered nodes) :
    (listing.parent = some 0 ∧ listing.anchor = none) ∨
      ∃ y ∈ numbered nodes, listing.parent = some y.2 ∧ listing.anchor = some y.2 ∧ y.2 < k ∧
        Within s.source listing.node y.1.node := by
  rcases h.seated.links 1 (some 0) none _ hx with htop | ⟨y, hy, hlt, hparent, hanchor, hwithin⟩
  · exact Or.inl htop
  · exact Or.inr ⟨y, hy, hparent, hanchor, hlt, hwithin⟩

/-- The parent of a node is the nearest node around it that has a span, or else the root. -/
theorem parent_eq (h : s.OfSheet nodes) (hx : (listing, k) ∈ numbered nodes) :
    listing.parent = some (listing.anchor.getD 0) := by
  rcases h.links hx with ⟨hparent, hanchor⟩ | ⟨y, -, hparent, hanchor, -⟩
  · rw [hparent, hanchor, Option.getD_none]
  · rw [hparent, hanchor, Option.getD_some]

/-- All nodes below the root have extents, which are not empty. -/
theorem exists_extent (h : s.OfSheet nodes) (hx : (listing, k) ∈ numbered nodes) :
    ∃ x, s.extentOf k = some x ∧ x.start < x.stop := by
  rcases h.seated.bounds _ (node_mem_preorderAll hx) with ⟨x, hextent, -, hlt, -⟩
  exact ⟨x, by rw [h.extentOf_eq hx, hextent], hlt⟩

/-- A node is indexed under the nearest node around it that has a span. -/
theorem parentOf_of_mem (h : s.OfSheet nodes) (hx : (listing, k) ∈ numbered nodes) :
    s.index.parentOf k = listing.anchor := by
  rcases h.seated.reads_of_mem _ (node_mem_preorderAll hx) with ⟨span, -, -, -, hspan, -⟩
  apply h.complete.parentOf_eq ((h.getElem?_pos (pos_of_mem hx)).mpr hx) hspan
  intro a ha
  rcases h.links hx with ⟨-, hanchor⟩ | ⟨y, hy, -, hanchor, -⟩
  · simp [hanchor] at ha
  · obtain rfl : y.2 = a := by simpa [hanchor] using ha
    rcases h.exists_extent hy with ⟨x, hx, -⟩
    simp [hx]

/-- The parent of a node in the index is its parent in the tree, but for the root. -/
theorem parentOf_eq (h : s.OfSheet nodes) (k : Nat) :
    s.index.parentOf k = (s.parentIn k).filter fun j => 0 < j := by
  by_cases hx : ∃ listing, (listing, k) ∈ numbered nodes
  · rcases hx with ⟨listing, hx⟩
    rw [h.parentOf_of_mem hx, h.parentIn_eq hx]
    rcases h.links hx with ⟨hparent, hanchor⟩ | ⟨y, hy, hparent, hanchor, -⟩
    · rw [hparent, hanchor]
      rfl
    · rw [hparent, hanchor, Option.filter_some_pos]
      simpa using pos_of_mem hy
  · have hnone : ∀ listing, s.listings[k]? = some listing →
        listing = ⟨.mk .root none nodes, none, none⟩ := by
      intro listing hlisting
      rcases Nat.eq_zero_or_pos k with rfl | hk
      · rw [h.getElem?_zero] at hlisting
        exact (Option.some.inj hlisting).symm
      · exact absurd ⟨listing, (h.getElem?_pos hk).mp hlisting⟩ hx
    have hparent : s.parentIn k = none := by
      rw [parentIn, Option.bind_eq_none_iff]
      intro listing hlisting
      rw [hnone listing hlisting]
    rw [hparent, h.complete.parentOf_eq_none, Option.filter_none]
    intro listing hlisting
    rw [hnone listing hlisting]
    rfl

end OfSheet

/-! ## Sheets that nest -/

/-- All nodes but the root are indexed, under their parents in the tree; children lie between the
braces of their parents; and nodes with the same parent, or without one, are in order and apart. -/
structure Nested (s : SheetIndex) : Prop where
  indexed : ∀ k, 0 < k → k < s.size → ∃ x, s.extentOf k = some x ∧ x.start < x.stop
  parent : ∀ k, s.index.parentOf k = (s.parentIn k).filter fun j => 0 < j
  inside : ∀ {k j x y}, s.index.parentOf k = some j → s.extentOf k = some x →
    s.extentOf j = some y → j < k ∧ InBraces s.source x y
  ordered : ∀ {k j x y}, k < j → s.index.parentOf k = s.index.parentOf j → s.extentOf k = some x →
    s.extentOf j = some y → x.stop ≤ y.start

/-- The order of numbered items is that of their numbers. -/
theorem pairwise_of_mem_zipIdx {α : Type} {R : α × Nat → α × Nat → Prop} {xs : List α} {n : Nat}
    (h : (xs.zipIdx n).Pairwise R) {x y : α × Nat} (hx : x ∈ xs.zipIdx n) (hy : y ∈ xs.zipIdx n)
    (hlt : x.2 < y.2) : R x y := by
  induction xs generalizing n with
  | nil => simp at hx
  | cons a xs ih =>
      rw [List.zipIdx_cons] at h hx hy
      rcases List.pairwise_cons.mp h with ⟨hfirst, hrest⟩
      rcases List.mem_cons.mp hy with rfl | hy
      · rcases List.mem_cons.mp hx with rfl | hx
        · omega
        · have hle := List.le_snd_of_mem_zipIdx hx
          simp at hlt
          omega
      · rcases List.mem_cons.mp hx with rfl | hx
        · exact hfirst y hy
        · exact ih hrest hx hy

/-- The nodes of a sheet that was read are nested. -/
theorem OfSheet.nested {s : SheetIndex} {nodes : List Sheet.Node} (h : s.OfSheet nodes) :
    s.Nested where
  indexed := by
    intro k hk hlt
    have hlisting := List.getElem?_eq_getElem (show k < s.listings.length from hlt)
    exact h.exists_extent ((h.getElem?_pos hk).mp hlisting)
  parent := h.parentOf_eq
  inside := by
    intro k j x y hparent hx hy
    rcases h.exists_of_extentOf hx with ⟨listing, hmem, hextent⟩
    rw [h.parentOf_of_mem hmem] at hparent
    rcases h.links hmem with ⟨-, hanchor⟩ | ⟨outer, houter, -, hanchor, hlt, hwithin⟩
    · simp [hanchor] at hparent
    · obtain rfl : outer.2 = j := by simpa [hanchor] using hparent
      rw [h.extentOf_eq houter] at hy
      exact ⟨hlt, hwithin x hextent y hy⟩
  ordered := by
    intro k j x y hlt hparent hx hy
    rcases h.exists_of_extentOf hx with ⟨first, hfirst, hextent⟩
    rcases h.exists_of_extentOf hy with ⟨second, hsecond, hextent'⟩
    rw [h.parentOf_of_mem hfirst, h.parentOf_of_mem hsecond] at hparent
    have hsame : first.parent = second.parent := by
      rw [h.parent_eq hfirst, h.parent_eq hsecond, hparent]
    have hbefore : ∀ p ∈ some 0, p < 1 := by simp
    have hpairwise := h.seated.ordered none hbefore
    exact pairwise_of_mem_zipIdx hpairwise hfirst hsecond hlt hsame x hextent y hextent'

/-- A parent link leads to an entry, and is read off by key. -/
theorem Complete.exists_parentOf {s : SheetIndex} (h : s.Complete) {i j : Nat}
    (hlink : s.index.linkAt i = some j) :
    ∃ k parent, s.index.keyAt i = some k ∧ s.index.keyAt j = some parent ∧
      s.index.parentOf k = some parent := by
  rcases RangeIndex.exists_keyAt (RangeIndex.lt_size_of_linkAt hlink) with ⟨k, hk⟩
  rcases Option.bind_eq_some_iff.mp hlink with ⟨entry, hentry, hparent⟩
  have hmem : entry ∈ s.index.entries := List.mem_of_getElem? hentry
  rw [h, List.mem_filterMap] at hmem
  rcases hmem with ⟨x, -, hx⟩
  rcases Option.map_eq_some_iff.mp hx with ⟨span, -, rfl⟩
  rcases Option.bind_eq_some_iff.mp hparent with ⟨parent, -, hindex⟩
  have hj := RangeIndex.keyAt_of_indexOf hindex
  exact ⟨k, parent, hk, hj, by rw [h.distinct.parentOf_eq hk, hlink, Option.bind_some, hj]⟩

/-- Keys are in the order of their ordinals. -/
theorem Complete.lt_of_keyAt {s : SheetIndex} (h : s.Complete) {i j k l : Nat}
    (hi : s.index.keyAt i = some k) (hj : s.index.keyAt j = some l) (hlt : l < k) : j < i := by
  rcases Option.map_eq_some_iff.mp hi with ⟨entry, hentry, rfl⟩
  rcases Option.map_eq_some_iff.mp hj with ⟨entry', hentry', rfl⟩
  rcases List.getElem?_eq_some_iff.mp hentry with ⟨hi', rfl⟩
  rcases List.getElem?_eq_some_iff.mp hentry' with ⟨hj', rfl⟩
  apply Nat.lt_of_not_le
  intro hle
  rcases Nat.eq_or_lt_of_le hle with rfl | hlt'
  · omega
  · have hgt := List.pairwise_iff_getElem.mp h.sorted i j hi' hj' hlt'
    omega

/-- In a sheet that nests the index is laminar. -/
theorem Nested.laminar {s : SheetIndex} (h : s.Nested) (hcomplete : s.Complete) :
    s.index.Laminar := by
  have hinside : ∀ {i j}, s.index.linkAt i = some j →
      j < i ∧ (s.index.extentAt j).covers (s.index.extentAt i) = true := by
    intro i j hlink
    rcases hcomplete.exists_parentOf hlink with ⟨k, parent, hk, hj, hparent⟩
    have hextents := h.inside hparent (hcomplete.distinct.extentOf_eq hk)
      (hcomplete.distinct.extentOf_eq hj)
    refine ⟨hcomplete.lt_of_keyAt hk hj hextents.1, ?_⟩
    rcases hextents.2 with ⟨header, body, -, hstart, hstop⟩
    simp only [Extent.covers, Bool.and_eq_true, decide_eq_true_eq]
    omega
  -- Of two entries under one parent, the one with the smaller key ends before the other starts.
  have hapart : ∀ {i j k l offset}, s.index.keyAt i = some k → s.index.keyAt j = some l → k < l →
      s.index.linkAt i = s.index.linkAt j → s.index.Holds i offset → ¬s.index.Holds j offset := by
    intro i j k l offset hk hl hlt hlink hi hj
    have hparent : s.index.parentOf k = s.index.parentOf l := by
      rw [hcomplete.distinct.parentOf_eq hk, hcomplete.distinct.parentOf_eq hl, hlink]
    have hle := h.ordered hlt hparent (hcomplete.distinct.extentOf_eq hk)
      (hcomplete.distinct.extentOf_eq hl)
    simp only [RangeIndex.Holds, Extent.contains, Bool.and_eq_true, decide_eq_true_eq] at hi hj
    omega
  refine ⟨fun hlink => (hinside hlink).1, fun hlink => (hinside hlink).2, ?_⟩
  intro i j offset hlink hi hj
  rcases RangeIndex.exists_keyAt hi.lt_size with ⟨k, hk⟩
  rcases RangeIndex.exists_keyAt hj.lt_size with ⟨l, hl⟩
  rcases Nat.lt_trichotomy k l with hlt | rfl | hlt
  · exact absurd hj (hapart hk hl hlt hlink hi)
  · have hsame := hcomplete.distinct.indexOf_eq hk
    rw [hcomplete.distinct.indexOf_eq hl] at hsame
    exact (Option.some.inj hsame).symm
  · exact absurd hi (hapart hl hk hlt hlink.symm hj)

/-- The links of the index are those of the tree: an entry without a parent is a node at the top. -/
theorem OfSheet.parentIn_of_keyAt {s : SheetIndex} {nodes : List Sheet.Node} (h : s.OfSheet nodes)
    {i k : Nat} (hi : s.index.keyAt i = some k) :
    s.parentIn k = some (((s.index.linkAt i).bind s.index.keyAt).getD 0) := by
  rcases h.exists_of_extentOf (h.complete.distinct.extentOf_eq hi) with ⟨listing, hmem, -⟩
  rw [h.parentIn_eq hmem, h.parent_eq hmem, ← h.parentOf_of_mem hmem,
    h.complete.distinct.parentOf_eq hi]

/-- No node is found only where no node at the top lies around the offset. -/
theorem OfSheet.deepestAt_eq_none_iff {s : SheetIndex} {nodes : List Sheet.Node}
    (h : s.OfSheet nodes) (offset : Nat) :
    s.deepestAt offset = none ↔ ∀ k, s.parentIn k = some 0 → ¬s.index.HoldsKey k offset := by
  have hlaminar := h.nested.laminar h.complete
  have hlinks : ∀ i j, s.index.linkAt i = some j → j < s.index.size := fun i j hlink =>
    Nat.lt_trans (hlaminar.parent_lt hlink) (RangeIndex.lt_size_of_linkAt hlink)
  rw [deepestAt, h.complete.distinct.deepestAt_eq_none_iff hlinks]
  constructor
  · intro hroots k htop
    apply hroots k
    rw [h.nested.parent, htop]
    rfl
  · intro htops k hparent hholds
    rcases hholds.exists_keyAt with ⟨i, hi⟩
    apply htops k _ hholds
    rw [h.parentIn_of_keyAt hi, ← h.complete.distinct.parentOf_eq hi, hparent, Option.getD_none]

/-! ## Sheets that are read -/

/-- A text that is read can be indexed over itself. -/
theorem exists_build_of_parse {text : List Char} {root : Sheet.Node} (h : parse text = .ok root) :
    ∃ s nodes, build ⟨text⟩ root = .ok s ∧ s.source = ⟨text⟩ ∧
      s.listings.map Listing.node = root.preorder ∧ s.OfSheet nodes := by
  rcases exists_parseForest_of_parse h with ⟨nodes, hforest, rfl⟩
  rcases exists_build ⟨text⟩ (.mk .root none nodes) with
    ⟨s, hbuild, hsource, hlistings, hcomplete⟩
  refine ⟨s, nodes, hbuild, hsource, ?_, hcomplete, hlistings, ?_⟩
  · rw [hlistings, map_node_listings]
  · rw [hsource]
    exact seated_of_parseForest hforest

/-- The index of a text that is read is laminar, and its lookups are exact: the deepest node around
an offset is the only innermost one, the nodes around the offset are it and its ancestors, and there
is none only where no node at the top lies around the offset. -/
theorem build_is_laminar {text : List Char} {root : Sheet.Node} (h : parse text = .ok root) :
    ∃ s, build ⟨text⟩ root = .ok s ∧ s.listings.map Listing.node = root.preorder ∧ s.Nested ∧
      ∀ offset,
        (∀ k, s.deepestAt offset = some k ↔ s.index.Innermost k offset) ∧
        (∀ k, s.deepestAt offset = some k →
          ∀ j, s.index.HoldsKey j offset ↔ s.index.AboveKey k j) ∧
        (s.deepestAt offset = none ↔
          ∀ k, s.parentIn k = some 0 → ¬s.index.HoldsKey k offset) := by
  rcases exists_build_of_parse h with ⟨s, nodes, hbuild, -, hnodes, hsheet⟩
  have hnested := hsheet.nested
  have hlaminar := hnested.laminar hsheet.complete
  have hdistinct := hsheet.complete.distinct
  refine ⟨s, hbuild, hnodes, hnested, fun offset => ⟨?_, ?_, ?_⟩⟩
  · exact fun k => hlaminar.deepestAt_eq_some_iff hdistinct
  · exact fun k hk j => hlaminar.holdsKey_iff_aboveKey hdistinct hk
  · exact hsheet.deepestAt_eq_none_iff offset

/-- A rule with two declarations, one of them with a letter of two bytes and a line feed behind
it. -/
def twoDeclarations : List Char :=
  ['a', '{', 'b', ':', 'é', ';', '\n', 'd', ':', 'e', ' ', '}']

/-- The letter of two bytes lies in the second declaration, and in the rule around it. -/
theorem build_is_laminar_twoDeclarations :
    ∃ root s, parse twoDeclarations = .ok root ∧ build ⟨twoDeclarations⟩ root = .ok s ∧ s.Nested ∧
      s.deepestAt 10 = some 3 ∧ ∀ j, s.index.HoldsKey j 10 ↔ s.index.AboveKey 3 j := by
  have hparse : ∃ root, parse twoDeclarations = .ok root := ⟨_, rfl⟩
  rcases hparse with ⟨root, hparse⟩
  rcases build_is_laminar hparse with ⟨s, hbuild, -, hnested, hlookup⟩
  have hdeepest : s.deepestAt 10 = some 3 := by
    obtain rfl := Except.ok.inj hparse
    rw [← Except.ok.inj hbuild]
    rfl
  exact ⟨root, s, hparse, hbuild, hnested, hdeepest, (hlookup 10).2.1 3 hdeepest⟩

/-- In the index of a text that is read, every node below the root has a span between two visible
characters, whose places are those of the text; its extent reaches from the first of them to the end
of the last, and its text is what stands there. -/
theorem build_agrees_with_text {text : List Char} {root : Sheet.Node} (h : parse text = .ok root) :
    ∃ s, build ⟨text⟩ root = .ok s ∧ s.listings.map Listing.node = root.preorder ∧
      ∀ k node, 0 < k → s.node? k = some node → ∃ span first last,
        node.span = some span ∧ span.first.Marks ⟨text⟩ first ∧ span.last.Marks ⟨text⟩ last ∧
        s.extentOf k = some ⟨span.first.offset, span.last.offset + last.utf8Size⟩ ∧
        ∃ before part after, text = before ++ part ++ after ∧
          Text.byteSize before = span.first.offset ∧
          Text.byteSize (before ++ part) = span.last.offset + last.utf8Size ∧
          s.textOf k = some part := by
  rcases exists_build_of_parse h with ⟨s, nodes, hbuild, hsource, hnodes, hsheet⟩
  refine ⟨s, hbuild, hnodes, ?_⟩
  intro k node hk hnode
  rcases Option.map_eq_some_iff.mp hnode with ⟨listing, hlisting, rfl⟩
  have hmem := (hsheet.getElem?_pos hk).mp hlisting
  rcases hsheet.seated.reads_of_mem _ (node_mem_preorderAll hmem) with
    ⟨span, before, part, after, hspan, hreads⟩
  have hextent : s.extentOf k =
      some ⟨Text.byteSize before, Text.byteSize before + Text.byteSize part⟩ := by
    rw [hsheet.extentOf_eq hmem, Sheet.Node.extent?, hspan, Option.map_some, hreads.extent_eq]
  have htext : s.textOf k = some part := by
    rw [textOf, hextent, Option.bind_some, Source.sliceOffsets_byteSize hreads.split]
    rfl
  rw [hsource] at hreads
  rcases hreads.exists_marks with ⟨first, last, hfirst, hlast, hend⟩
  refine ⟨span, first, last, hspan, hfirst, hlast, ?_, before, part, after, hreads.split,
    hreads.first_offset.symm, hend, htext⟩
  rw [hextent, hreads.first_offset, ← hend, Text.byteSize_append]

/-- The second declaration has the text that its span reads. -/
theorem build_agrees_with_text_twoDeclarations :
    ∃ root s, parse twoDeclarations = .ok root ∧ build ⟨twoDeclarations⟩ root = .ok s ∧
      ∃ node span last, s.node? 3 = some node ∧ node.span = some span ∧
        span.last.Marks ⟨twoDeclarations⟩ last ∧
        s.extentOf 3 = some ⟨span.first.offset, span.last.offset + last.utf8Size⟩ ∧
        s.textOf 3 = some ['d', ':', 'e'] := by
  have hparse : ∃ root, parse twoDeclarations = .ok root := ⟨_, rfl⟩
  rcases hparse with ⟨root, hparse⟩
  rcases build_agrees_with_text hparse with ⟨s, hbuild, -, hnodes⟩
  have hnode : ∃ node, s.node? 3 = some node ∧ s.textOf 3 = some ['d', ':', 'e'] := by
    obtain rfl := Except.ok.inj hparse
    rw [← Except.ok.inj hbuild]
    exact ⟨_, rfl, rfl⟩
  rcases hnode with ⟨node, hnode, htext⟩
  rcases hnodes 3 node (by decide) hnode with ⟨span, first, last, hspan, -, hlast, hextent, -⟩
  exact ⟨root, s, hparse, hbuild, node, span, last, hnode, hspan, hlast, hextent, htext⟩

end SheetIndex
end StyleAtlas
