import StyleAtlas.Proofs.Index.Laminar
import StyleAtlas.Sheet.Index

/-!
# Indexing a tree

Any tree of nodes can be indexed, whatever spans its nodes have.  The numbers of its nodes are
their places in pre-order, each node that has a span is indexed under its number, and its entry
hangs under the nearest node around it that has one.

Main results:

- Theorem `Sheet.map_node_listings`: the nodes are listed in pre-order.
- Theorem `Sheet.anchor_lt`: the nearest node with a span comes before.
- Definition `SheetIndex.Complete`, Theorem `SheetIndex.exists_build`: a tree is indexed, and which
  entries its index has.
- Theorems `SheetIndex.Complete.extentOf_eq`, `SheetIndex.Complete.parentOf_eq`: the extents and the
  parents that the index gives.
-/

namespace StyleAtlas
namespace Sheet

/-! ## Listings -/

mutual

/-- The nodes of a tree are listed in pre-order. -/
theorem map_node_listings (ordinal : Nat) (parent anchor : Option Nat) (node : Node) :
    (node.listings ordinal parent anchor).map Listing.node = node.preorder := by
  cases node with
  | mk content span children =>
      simp [Node.listings, Node.preorder, map_node_listAll]

/-- The nodes are listed in pre-order. -/
theorem map_node_listAll (ordinal : Nat) (parent anchor : Option Nat) (nodes : List Node) :
    (listAll ordinal parent anchor nodes).map Listing.node = Node.preorderAll nodes := by
  cases nodes with
  | nil => rfl
  | cons node nodes =>
      simp [listAll, Node.preorderAll, map_node_listings, map_node_listAll]

end

/-- The listing of a tree is that of its root and then those below, numbered one after the other. -/
theorem zipIdx_listings (ordinal : Nat) (parent anchor : Option Nat) (content : Content)
    (span : Option Span) (children : List Node) :
    ((Node.mk content span children).listings ordinal parent anchor).zipIdx ordinal =
      (⟨.mk content span children, parent, anchor⟩, ordinal) ::
        (listAll (ordinal + 1) (some ordinal) (if span.isSome then some ordinal else anchor)
          children).zipIdx (ordinal + 1) := by
  rw [Node.listings, List.zipIdx_cons]

/-- The listing of some trees is that of the first and then those of the others, numbered one after
the other. -/
theorem zipIdx_listAll_cons (ordinal : Nat) (parent anchor : Option Nat) (node : Node)
    (nodes : List Node) :
    (listAll ordinal parent anchor (node :: nodes)).zipIdx ordinal =
      (node.listings ordinal parent anchor).zipIdx ordinal ++
        (listAll (ordinal + (node.listings ordinal parent anchor).length) parent anchor
          nodes).zipIdx (ordinal + (node.listings ordinal parent anchor).length) := by
  rw [listAll, List.zipIdx_append]

mutual

/-- The nearest node around a node that has a span comes before it. -/
theorem anchor_lt {ordinal : Nat} {parent anchor : Option Nat} (node : Node)
    (hanchor : ∀ a ∈ anchor, a < ordinal) :
    ∀ x ∈ (node.listings ordinal parent anchor).zipIdx ordinal, ∀ a ∈ x.1.anchor, a < x.2 := by
  cases node with
  | mk content span children =>
      rw [zipIdx_listings]
      refine List.forall_mem_cons.mpr ⟨hanchor, anchor_lt_all children ?_⟩
      intro a ha
      split at ha
      · obtain rfl : ordinal = a := by simpa using ha
        omega
      · have := hanchor a ha
        omega

/-- The nearest node with a span around a node has a smaller number. -/
theorem anchor_lt_all {ordinal : Nat} {parent anchor : Option Nat} (nodes : List Node)
    (hanchor : ∀ a ∈ anchor, a < ordinal) :
    ∀ x ∈ (listAll ordinal parent anchor nodes).zipIdx ordinal, ∀ a ∈ x.1.anchor, a < x.2 := by
  cases nodes with
  | nil => simp [listAll]
  | cons node nodes =>
      rw [zipIdx_listAll_cons]
      refine List.forall_mem_append.mpr ⟨anchor_lt node hanchor, anchor_lt_all nodes ?_⟩
      intro a ha
      have := hanchor a ha
      omega

end

/-! ## The entries of an index -/

/-- The extent of a node in a source. -/
def Node.extent? (source : Source) (node : Node) : Option Extent :=
  node.span.map (Span.extent source)

/-- The entry of a numbered node in an index, if the node has a span. -/
def Listing.entry? (source : Source) (index : RangeIndex Nat) (numbered : Listing × Nat) :
    Option (IndexEntry Nat) :=
  numbered.1.node.span.map fun span =>
    ⟨numbered.2, span.extent source, numbered.1.anchor.bind index.indexOf⟩

/-- Entries with other keys behind those of an index leave the ordinal of a key. -/
theorem indexOf_append {entries later : List (IndexEntry Nat)} {key : Nat}
    (h : ∀ entry ∈ later, entry.key ≠ key) :
    RangeIndex.indexOf ⟨entries ++ later⟩ key = RangeIndex.indexOf ⟨entries⟩ key := by
  have hlater : later.findIdx? (fun entry => decide (entry.key = key)) = none := by
    simpa [List.findIdx?_eq_none_iff] using h
  simp [RangeIndex.indexOf, List.findIdx?_append, hlater]

/-- The entries of nodes that are numbered from an ordinal on have no smaller keys. -/
theorem le_key_of_mem_entries {source : Source} {index : RangeIndex Nat} {listings : List Listing}
    {ordinal : Nat} {entry : IndexEntry Nat}
    (h : entry ∈ (listings.zipIdx ordinal).filterMap (Listing.entry? source index)) :
    ordinal ≤ entry.key := by
  rcases List.mem_filterMap.mp h with ⟨x, hx, hentry⟩
  rcases Option.map_eq_some_iff.mp hentry with ⟨span, -, rfl⟩
  exact List.le_snd_of_mem_zipIdx hx

/-- A key past all keys of an index has no ordinal. -/
theorem indexOf_eq_none {index : RangeIndex Nat} {key : Nat}
    (h : ∀ entry ∈ index.entries, entry.key < key) : index.indexOf key = none := by
  rw [RangeIndex.indexOf, List.findIdx?_eq_none_iff]
  intro entry hentry
  have := h entry hentry
  simp
  omega

/-- Indexing numbered nodes in order never fails, and adds the entries of those that have a span. -/
theorem foldlM_indexListing (source : Source) (listings : List Listing) {ordinal : Nat}
    {index : RangeIndex Nat} (hkeys : ∀ entry ∈ index.entries, entry.key < ordinal)
    (hanchor : ∀ x ∈ listings.zipIdx ordinal, ∀ a ∈ x.1.anchor, a < x.2) :
    ∃ final, (listings.zipIdx ordinal).foldlM (indexListing source) index = .ok final ∧
      final.entries =
        index.entries ++ (listings.zipIdx ordinal).filterMap (Listing.entry? source final) := by
  induction listings generalizing ordinal index with
  | nil => exact ⟨index, rfl, by simp⟩
  | cons listing listings ih =>
      rw [List.zipIdx_cons] at hanchor ⊢
      rcases List.forall_mem_cons.mp hanchor with ⟨hfirst, hrest⟩
      cases hspan : listing.node.span with
      | none =>
          have hkeys' : ∀ entry ∈ index.entries, entry.key < ordinal + 1 := fun entry hentry =>
            Nat.lt_succ_of_lt (hkeys entry hentry)
          rcases ih hkeys' hrest with ⟨final, hfold, hentries⟩
          refine ⟨final, ?_, ?_⟩
          · rw [List.foldlM_cons, indexListing, hspan]
            exact hfold
          · rw [List.filterMap_cons_none (by simp [Listing.entry?, hspan]), hentries]
      | some span =>
          have hpush : indexListing source index (listing, ordinal) = .ok ⟨index.entries ++
              [⟨ordinal, span.extent source, listing.anchor.bind index.indexOf⟩]⟩ := by
            simp [indexListing, hspan, RangeIndex.push, indexOf_eq_none hkeys, Except.map]
          have hkeys' : ∀ entry ∈ index.entries ++
              [⟨ordinal, span.extent source, listing.anchor.bind index.indexOf⟩],
              entry.key < ordinal + 1 := by
            refine List.forall_mem_append.mpr ⟨fun entry hentry => ?_, by simp⟩
            exact Nat.lt_succ_of_lt (hkeys entry hentry)
          rcases ih hkeys' hrest with ⟨final, hfold, hentries⟩
          -- The parent was looked up before the later entries came, which have greater keys.
          have hlink : listing.anchor.bind index.indexOf = listing.anchor.bind final.indexOf := by
            cases hanchor' : listing.anchor with
            | none => rfl
            | some a =>
                have hlt : a < ordinal := hfirst a hanchor'
                have hfinal : final = ⟨index.entries ++ ([⟨ordinal, span.extent source,
                    listing.anchor.bind index.indexOf⟩] ++
                    (listings.zipIdx (ordinal + 1)).filterMap (Listing.entry? source final))⟩ := by
                  rw [← List.append_assoc, ← hentries]
                have hlater : ∀ entry ∈ [⟨ordinal, span.extent source,
                    listing.anchor.bind index.indexOf⟩] ++
                    (listings.zipIdx (ordinal + 1)).filterMap (Listing.entry? source final),
                    entry.key ≠ a := by
                  refine List.forall_mem_append.mpr ⟨by simp; omega, fun entry hentry => ?_⟩
                  have := le_key_of_mem_entries hentry
                  omega
                rw [Option.bind_some, Option.bind_some, hfinal, indexOf_append hlater]
          refine ⟨final, ?_, ?_⟩
          · rw [List.foldlM_cons, hpush]
            exact hfold
          · have hentry : Listing.entry? source final (listing, ordinal) =
                some ⟨ordinal, span.extent source, listing.anchor.bind final.indexOf⟩ := by
              simp [Listing.entry?, hspan]
            rw [List.filterMap_cons_some hentry, ← hlink, hentries, List.append_assoc,
              List.singleton_append]

end Sheet

namespace SheetIndex

open Sheet

/-- The entries of an index are those of the listed nodes that have a span. -/
def Complete (s : SheetIndex) : Prop :=
  s.index.entries = s.listings.zipIdx.filterMap (Listing.entry? s.source s.index)

/-- Any tree can be indexed. -/
theorem exists_build (source : Source) (root : Sheet.Node) :
    ∃ s, build source root = .ok s ∧ s.source = source ∧
      s.listings = root.listings 0 none none ∧ s.Complete := by
  have hanchor : ∀ x ∈ (root.listings 0 none none).zipIdx 0, ∀ a ∈ x.1.anchor, a < x.2 :=
    anchor_lt root (by simp)
  have hkeys : ∀ entry ∈ (RangeIndex.empty : RangeIndex Nat).entries, entry.key < 0 := by
    simp [RangeIndex.empty]
  rcases foldlM_indexListing source _ hkeys hanchor with ⟨index, hfold, hentries⟩
  refine ⟨⟨source, root.listings 0 none none, index⟩, ?_, rfl, rfl, ?_⟩
  · simp only [build, hfold]
  · simpa [Complete, RangeIndex.empty] using hentries

namespace Complete

variable {s : SheetIndex} {ordinal : Nat} {listing : Listing} {span : Span}

/-- The keys of an index are in ascending order. -/
theorem sorted (h : s.Complete) : s.index.entries.Pairwise fun a b => a.key < b.key := by
  have hnumbers : s.listings.zipIdx.Pairwise fun x y => x.2 < y.2 := by
    rw [← List.pairwise_map (f := Prod.snd) (R := fun m n => m < n), List.zipIdx_map_snd]
    exact List.pairwise_lt_range'
  rw [h, List.pairwise_filterMap]
  refine hnumbers.imp ?_
  intro x y hlt a ha b hb
  rcases Option.map_eq_some_iff.mp ha with ⟨-, -, rfl⟩
  rcases Option.map_eq_some_iff.mp hb with ⟨-, -, rfl⟩
  exact hlt

/-- No node is indexed twice. -/
theorem distinct (h : s.Complete) : s.index.Distinct :=
  h.sorted.imp fun hlt => Nat.ne_of_lt hlt

/-- The entry of a number is that of the node with this number. -/
theorem entryOf_eq (h : s.Complete) (ordinal : Nat) :
    s.index.entryOf ordinal =
      s.listings[ordinal]?.bind fun listing =>
        Listing.entry? s.source s.index (listing, ordinal) := by
  cases hentry : s.listings[ordinal]?.bind fun listing =>
      Listing.entry? s.source s.index (listing, ordinal) with
  | some entry =>
      rcases Option.bind_eq_some_iff.mp hentry with ⟨listing, hlisting, hentry⟩
      have hmem : entry ∈ s.index.entries := by
        rw [h, List.mem_filterMap]
        exact ⟨(listing, ordinal), List.mem_zipIdx_iff_getElem?.mpr hlisting, hentry⟩
      have hkey : entry.key = ordinal := by
        rcases Option.map_eq_some_iff.mp hentry with ⟨span, -, rfl⟩
        rfl
      rcases List.getElem?_of_mem hmem with ⟨i, hi⟩
      rw [← hkey]
      exact h.distinct.entryOf_eq hi
  | none =>
      rw [RangeIndex.entryOf, List.find?_eq_none]
      intro entry hmem hkey
      rw [h, List.mem_filterMap] at hmem
      rcases hmem with ⟨⟨listing, number⟩, hx, hx'⟩
      rcases Option.map_eq_some_iff.mp hx' with ⟨span, hspan, rfl⟩
      obtain rfl : number = ordinal := by simpa using hkey
      have hlisting := List.mem_zipIdx_iff_getElem?.mp hx
      rw [hlisting, Option.bind_some, hx'] at hentry
      simp at hentry

/-- The extent of a node is that of its span. -/
theorem extentOf_eq (h : s.Complete) (ordinal : Nat) :
    s.extentOf ordinal =
      s.listings[ordinal]?.bind fun listing => listing.node.extent? s.source := by
  rw [extentOf, RangeIndex.extentOf, h.entryOf_eq]
  cases s.listings[ordinal]? with
  | none => rfl
  | some listing =>
      simp only [Option.bind_some, Listing.entry?, Option.map_map]
      rfl

/-- A node without a span has no parent in the index. -/
theorem parentOf_eq_none (h : s.Complete)
    (hspan : ∀ listing, s.listings[ordinal]? = some listing → listing.node.span = none) :
    s.index.parentOf ordinal = none := by
  have hentry : s.index.entryOf ordinal = none := by
    rw [h.entryOf_eq, Option.bind_eq_none_iff]
    intro listing hlisting
    rw [Listing.entry?, hspan listing hlisting, Option.map_none]
  simp [RangeIndex.parentOf, hentry]

/-- The parent of a node in the index is the nearest node around it that has a span. -/
theorem parentOf_eq (h : s.Complete) (hlisting : s.listings[ordinal]? = some listing)
    (hspan : listing.node.span = some span)
    (hanchor : ∀ a ∈ listing.anchor, (s.extentOf a).isSome = true) :
    s.index.parentOf ordinal = listing.anchor := by
  have hparent : s.index.parentOf ordinal =
      (listing.anchor.bind s.index.indexOf).bind s.index.keyAt := by
    simp [RangeIndex.parentOf, h.entryOf_eq, hlisting, Listing.entry?, hspan]
  rw [hparent]
  cases hanchor' : listing.anchor with
  | none => rfl
  | some a =>
      rcases Option.isSome_iff_exists.mp (hanchor a hanchor') with ⟨x, hx⟩
      rcases Option.map_eq_some_iff.mp hx with ⟨entry, hentry, -⟩
      rcases RangeIndex.exists_keyAt_of_entryOf hentry with ⟨i, hi, -⟩
      rw [Option.bind_some, h.distinct.indexOf_eq hi, Option.bind_some, hi]

end Complete
end SheetIndex
end StyleAtlas
