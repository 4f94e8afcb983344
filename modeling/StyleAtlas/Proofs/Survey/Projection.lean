import StyleAtlas.Proofs.Engine.Faithful
import StyleAtlas.Proofs.Index.Lookup
import StyleAtlas.Proofs.Outline.Tiling
import StyleAtlas.Proofs.Sheet.Indexed
import StyleAtlas.Survey.Basic

/-!
# Projection lands where it should

A survey carries a node from one tree to the other by looking up its probe there.  In the outline
the roots tile the text, so a node of the sheet is carried somewhere unless it comes before all of
them; in the sheet only the nodes at the top decide.  Either way the answer is a root or a child of
one, and lies around the probe.

Main results:

- Theorem `Extent.probe_eq`: the probe of an extent that is not empty.
- Definition `Survey.BeforeRoots`: the offsets that the outline leaves out in front.
- Theorem `Builder.of_nodeAt_mirror`: what a lookup in a finished outline answers.
- Theorem `SheetIndex.OfSheet.of_nodeAt`: what a lookup in a sheet answers.
- Theorem `Survey.projection_lands`: where both projections lead.
-/

namespace StyleAtlas

open Sheet

/-- The probe of an extent that is not empty is one past its start, or its only offset. -/
theorem Extent.probe_eq {x : Extent} (h : x.start < x.stop) :
    x.probe = min (x.start + 1) (x.stop - 1) := by
  have hempty : x.isEmpty = false := by
    simpa [isEmpty] using h
  simp [probe, hempty]

/-- The offset that an extent is probed at lies in it. -/
theorem Extent.contains_min {x : Extent} (h : x.start < x.stop) :
    x.contains (min (x.start + 1) (x.stop - 1)) = true := by
  rw [← probe_eq h]
  exact contains_probe (by simpa [isEmpty] using h)

/-! ## Lookup in a finished outline -/

namespace Builder

open Forest

/-- The index of an outline has the parent links of its nodes. -/
theorem linkAt_mirror (nodes : Forest) (id : Nat) : nodes.mirror.linkAt id = nodes.parentOf id := by
  rw [RangeIndex.linkAt, getElem?_mirror, parentOf]
  cases nodes[id]? <;> rfl

/-- A lookup in a finished outline answers a node at depth one at most, around the offset. -/
theorem of_nodeAt_mirror {b : Builder} (hshape : b.Shaped) (hgrounded : b.Grounded)
    (hpending : b.PendingExact) {offset id : Nat}
    (h : b.finish.nodes.mirror.nodeAt offset = some id) :
    ∃ n x, b.finish.node? id = some n ∧ n.depth ≤ 1 ∧ b.finish.extentOf id = some x ∧
      x.contains offset = true := by
  rcases RangeIndex.of_nodeAt_eq_some h with ⟨i, hkey, hholds, hlinks⟩
  have hi : i < b.finish.nodes.length := by simpa using hholds.lt_size
  obtain rfl : i = id := by simpa [keyAt_mirror hi] using hkey
  have hshape' : (b.resolvePending 0 b.source.size).Shaped :=
    hshape.of_skeleton (skeleton_resolvePending b 0 b.source.size) rfl
  rcases (finish_settled hshape hgrounded hpending).stop i hi with ⟨stop, hstop⟩
  refine ⟨b.finish.nodes[i], _, List.getElem?_eq_getElem hi, ?_, Outline.extentOf_eq hstop, ?_⟩
  · have hdepth : b.finish.nodes.depthOf i = b.finish.nodes[i].depth := by
      simp [depthOf, List.getElem?_eq_getElem hi]
    rw [← hdepth]
    simp only [linkAt_mirror] at hlinks
    rcases hlinks with hroot | ⟨root, hparent, hroot⟩
    · have hzero : b.finish.nodes.depthOf i = 0 := hshape'.root_depth i hi hroot
      omega
    · have hencloses := hshape'.encloses i root hparent
      have hlt := Nat.lt_trans hencloses.lt hi
      have hzero : b.finish.nodes.depthOf root = 0 := hshape'.root_depth root hlt hroot
      have hone : b.finish.nodes.depthOf i = b.finish.nodes.depthOf root + 1 := hencloses.depth_eq
      omega
  · rw [← Outline.extentAt_mirror (Outline.extentOf_eq hstop)]
    exact hholds

end Builder

/-! ## Lookup in a sheet -/

/-- A lookup in a sheet answers a node around the offset, at the top or directly below it. -/
theorem SheetIndex.OfSheet.of_nodeAt {s : SheetIndex} {nodes : List Sheet.Node}
    (h : s.OfSheet nodes) {offset k : Nat} (hk : s.nodeAt offset = some k) :
    s.index.HoldsKey k offset ∧
      (s.parentIn k = some 0 ∨ ∃ j, s.parentIn k = some j ∧ s.parentIn j = some 0) := by
  rcases RangeIndex.of_nodeAt_eq_some hk with ⟨i, hi, hholds, hlinks⟩
  refine ⟨(h.complete.distinct.holdsKey_iff hi).mpr hholds, ?_⟩
  rcases hlinks with hroot | ⟨root, hlink, hroot⟩
  · refine Or.inl ?_
    rw [h.parentIn_of_keyAt hi, hroot, Option.bind_none, Option.getD_none]
  · rcases h.complete.exists_parentOf hlink with ⟨-, j, -, hj, -⟩
    refine Or.inr ⟨j, ?_, ?_⟩
    · rw [h.parentIn_of_keyAt hi, hlink, Option.bind_some, hj, Option.getD_some]
    · rw [h.parentIn_of_keyAt hj, hroot, Option.bind_none, Option.getD_none]

/-- The nodes below the root of a sheet have extents in its source that are not empty. -/
theorem SheetIndex.OfSheet.exists_bounds {s : SheetIndex} {nodes : List Sheet.Node}
    (h : s.OfSheet nodes) {k : Nat} (hk : 0 < k) (hlt : k < s.size) :
    ∃ x, s.extentOf k = some x ∧ x.start < x.stop ∧ x.stop ≤ s.source.size := by
  have hlisting := List.getElem?_eq_getElem (show k < s.listings.length from hlt)
  have hmem := (h.getElem?_pos hk).mp hlisting
  rcases h.seated.bounds _ (node_mem_preorderAll hmem) with ⟨x, hx, -, hnonempty, hsize⟩
  exact ⟨x, by rw [h.extentOf_eq hmem, hx], hnonempty, hsize⟩

/-! ## Both projections -/

namespace Survey

open Forest

/-- The outline has no root, or the offset comes before the first of them. -/
def BeforeRoots (v : Survey) (offset : Nat) : Prop :=
  v.analysis.outline.roots = [] ∨
    ∃ first x, v.analysis.outline.roots.head? = some first ∧ v.outlineExtent first = some x ∧
      offset < x.start

/-- A survey of a text that is read succeeds, whatever the engine reports on it, and holds a
finished outline with the index that repeats it, and the sheet of the text. -/
theorem exists_run {text : List Char} {root : Sheet.Node} (h : Sheet.parse text = .ok root)
    (scanning : Bool) (callbacks : List Callback) (printed : String) :
    ∃ v b sheet nodes, run ⟨text⟩ ⟨scanning, true⟩ (.accepted callbacks printed) = .ok v ∧
      b = (Builder.init ⟨text⟩).feedAll (Callback.events ⟨⟨text⟩, scanning⟩ callbacks) ∧
      v.analysis.outline = b.finish ∧ v.analysis.index = b.finish.nodes.mirror ∧
      v.sheet = some sheet ∧
      sheet.source = ⟨text⟩ ∧ sheet.listings.map Listing.node = root.preorder ∧
      sheet.OfSheet nodes := by
  rcases Callback.exists_outline ⟨text⟩ scanning callbacks with
    ⟨b, index, -, hrun, -, -, -, -, hindex, -, -, hsettled⟩
  obtain rfl : b.finish.nodes.mirror = index :=
    Except.ok.inj ((Outline.index_eq hsettled).symm.trans hindex)
  rcases SheetIndex.exists_build_of_parse h with ⟨sheet, nodes, hbuild, hsource, hnodes, hsheet⟩
  refine ⟨⟨⟨b.finish, b.finish.nodes.mirror, printed⟩, some sheet⟩, b, sheet, nodes, ?_,
    (Builder.feedAll_of_run hrun).symm, rfl, rfl, rfl, hsource, hnodes, hsheet⟩
  simp [run, readSheet, Callback.analysis_eq hrun hindex printed, h, hbuild, bind, Except.bind,
    Except.mapError, pure, Except.pure]

/-- A node of the sheet that is not empty is carried to what the outline has at its probe. -/
theorem toOutline_eq {v : Survey} {k : Nat} {x : Extent} (hx : v.sheetExtent k = some x)
    (hnonempty : x.start < x.stop) :
    v.toOutline k = v.analysis.index.nodeAt (min (x.start + 1) (x.stop - 1)) := by
  simp [toOutline, hx, RangeIndex.project, Extent.probe_eq hnonempty]

/-- A node of the outline that is not empty is carried to what the sheet has at its probe. -/
theorem toSheet_eq {v : Survey} {sheet : SheetIndex} {id : Nat} {x : Extent}
    (hsheet : v.sheet = some sheet) (hx : v.outlineExtent id = some x)
    (hnonempty : x.start < x.stop) :
    v.toSheet id = sheet.nodeAt (min (x.start + 1) (x.stop - 1)) := by
  simp [toSheet, hsheet, hx, RangeIndex.project, Extent.probe_eq hnonempty, SheetIndex.nodeAt]

/-- Where the roots of an outline tile the text, a lookup inside the text fails only before them. -/
theorem nodeAt_eq_none_iff_beforeRoots {b : Builder} (hshape : b.Shaped) (hgrounded : b.Grounded)
    (hpending : b.PendingExact) (htiled : b.Tiled) {offset : Nat} (hoffset : offset < b.source.size)
    {v : Survey} (houtline : v.analysis.outline = b.finish)
    (hindex : v.analysis.index = b.finish.nodes.mirror) :
    v.analysis.index.nodeAt offset = none ↔ v.BeforeRoots offset := by
  have hmirrors := Outline.mirrors (Builder.finish_settled hshape hgrounded hpending)
  have hextent : ∀ first, v.outlineExtent first = b.finish.extentOf first := fun first => by
    rw [outlineExtent, hindex, hmirrors.extentOf]
  rw [hindex, Outline.nodeAt_mirror_eq_none_iff_of_tiled htiled hshape hpending hgrounded,
    BeforeRoots, houtline]
  simp only [hextent, Nat.not_le.mpr hoffset, or_false]

/-- Whatever the engine reports on a text that is read, there is a survey of it.  Where the roots of
its outline are located and come in order, a node of the sheet is carried to the outline unless
there is no root or its probe comes before the first of them, and then to a node around the probe at
depth one at most.  A node of the outline that is not empty is carried to the sheet unless no node
at the top lies around its probe, and then to a node around the probe, at the top or directly
below. -/
theorem projection_lands {text : List Char} {root : Sheet.Node} (h : Sheet.parse text = .ok root)
    (scanning : Bool) (callbacks : List Callback) (printed : String) :
    ∃ v sheet, run ⟨text⟩ ⟨scanning, true⟩ (.accepted callbacks printed) = .ok v ∧
      v.sheet = some sheet ∧ sheet.listings.map Listing.node = root.preorder ∧
      (RootsInOrder ⟨text⟩ v.analysis.outline.nodes → ∀ k, 0 < k → k < sheet.size →
        ∃ x, v.sheetExtent k = some x ∧ x.contains (min (x.start + 1) (x.stop - 1)) = true ∧
          (v.toOutline k = none ↔ v.BeforeRoots (min (x.start + 1) (x.stop - 1))) ∧
          ∀ id, v.toOutline k = some id → ∃ n y, v.analysis.outline.node? id = some n ∧
            n.depth ≤ 1 ∧ v.outlineExtent id = some y ∧
            y.contains (min (x.start + 1) (x.stop - 1)) = true) ∧
      ∀ id x, v.outlineExtent id = some x → x.start < x.stop →
        (v.toSheet id = none ↔ ∀ k, sheet.parentIn k = some 0 →
          ¬sheet.index.HoldsKey k (min (x.start + 1) (x.stop - 1))) ∧
        ∀ k, v.toSheet id = some k →
          sheet.index.HoldsKey k (min (x.start + 1) (x.stop - 1)) ∧
          (sheet.parentIn k = some 0 ∨
            ∃ j, sheet.parentIn k = some j ∧ sheet.parentIn j = some 0) := by
  rcases exists_run h scanning callbacks printed with
    ⟨v, b, sheet, nodes, hrun, hb, houtline, hindex, hv, hsource, hnodes, hsheet⟩
  have hshape : b.Shaped := hb ▸ (Builder.Shaped.init _).feedAll _
  have hgrounded : b.Grounded := hb ▸ (Builder.Grounded.init _).feedAll (Builder.Shaped.init _) _
  have hpending : b.PendingExact := hb ▸ (Builder.PendingExact.init _).feedAll _
  refine ⟨v, sheet, hrun, hv, hnodes, ?_, ?_⟩
  · intro horder k hk hlt
    have htiled : b.Tiled := by
      rw [houtline, hb] at horder
      exact hb ▸ Outline.tiled_of_rootsInOrder horder
    rcases hsheet.exists_bounds hk hlt with ⟨x, hextent, hnonempty, hsize⟩
    have hx : v.sheetExtent k = some x := by rw [sheetExtent, hv, Option.bind_some, hextent]
    have hsize' : b.source.size = sheet.source.size := by
      rw [hb, Builder.source_feedAll, hsource]
      rfl
    refine ⟨x, hx, Extent.contains_min hnonempty, ?_, ?_⟩
    · rw [toOutline_eq hx hnonempty]
      exact nodeAt_eq_none_iff_beforeRoots hshape hgrounded hpending htiled (by omega) houtline
        hindex
    · intro id hid
      rw [toOutline_eq hx hnonempty, hindex] at hid
      rcases Builder.of_nodeAt_mirror hshape hgrounded hpending hid with ⟨n, y, hn, hdepth, hy, hin⟩
      have hmirrors := Outline.mirrors (Builder.finish_settled hshape hgrounded hpending)
      refine ⟨n, y, by rw [houtline, hn], hdepth, ?_, hin⟩
      rw [outlineExtent, hindex, hmirrors.extentOf, hy]
  · intro id x hx hnonempty
    rw [toSheet_eq hv hx hnonempty]
    refine ⟨?_, fun k hk => hsheet.of_nodeAt hk⟩
    rw [SheetIndex.nodeAt, RangeIndex.nodeAt_eq_none_iff_deepestAt]
    exact hsheet.deepestAt_eq_none_iff _

/-- A remark in front of two rules with a declaration each. -/
def remarkAndRules : List Char :=
  ['/', '*', '*', '/', 'a', '{', 'b', ':', 'c', '}', ' ', 'd', '{', 'e', ':', 'f', '}']

/-- What the engine reports on the two rules. -/
def twoRules : List Callback :=
  [.rule .style (some ⟨0, 5⟩) [.block [] [.item (.property "b") []]],
    .rule .style (some ⟨0, 12⟩) [.block [] [.item (.property "e") []]]]

/-- Behind a remark that the outline lacks, the second rule is found from either side. -/
theorem projection_lands_remarkAndRules :
    ∃ v sheet, run ⟨remarkAndRules⟩ ⟨true, true⟩ (.accepted twoRules "") = .ok v ∧
      v.sheet = some sheet ∧ RootsInOrder ⟨remarkAndRules⟩ v.analysis.outline.nodes ∧
      v.toOutline 1 = none ∧ v.BeforeRoots 1 ∧ v.toOutline 3 = some 1 ∧ v.toSheet 1 = some 3 ∧
      sheet.index.HoldsKey 3 7 := by
  have hparse : ∃ root, Sheet.parse remarkAndRules = .ok root := ⟨_, rfl⟩
  rcases hparse with ⟨root, hparse⟩
  rcases projection_lands hparse true twoRules "" with
    ⟨v, sheet, hrun, hsheet, -, houtline, hback⟩
  -- Each fact is read off the run by itself, so that one small answer is evaluated at a time.
  have hread : ∀ {α : Type} (f : Survey → α) (a : α),
      (run ⟨remarkAndRules⟩ ⟨true, true⟩ (.accepted twoRules "")).map f = .ok a → f v = a := by
    intro α f a hmap
    rw [hrun] at hmap
    exact Except.ok.inj hmap
  have hroots := hread (fun v => v.analysis.outline.nodes.under none) [0, 2] rfl
  have hfirst := hread (fun v => seenAt ⟨remarkAndRules⟩ v.analysis.outline.nodes 0) (some 4) rfl
  have hsecond := hread (fun v => seenAt ⟨remarkAndRules⟩ v.analysis.outline.nodes 2) (some 11) rfl
  have hremark := hread (fun v => v.sheetExtent 1) (some ⟨0, 4⟩) rfl
  have hsize := hread (fun v => v.sheet.map SheetIndex.size) (some 6) rfl
  have hlost := hread (fun v => v.toOutline 1) none rfl
  have hcarried := hread (fun v => v.toOutline 3) (some 1) rfl
  have hextent := hread (fun v => v.outlineExtent 1) (some ⟨6, 9⟩) rfl
  have hreturned := hread (fun v => v.toSheet 1) (some 3) rfl
  have horder : RootsInOrder ⟨remarkAndRules⟩ v.analysis.outline.nodes := by
    constructor <;> simp_all
  have hsize' : sheet.size = 6 := by simpa [hsheet] using hsize
  rcases houtline horder 1 (by omega) (by omega) with ⟨x, hx, -, hnone, -⟩
  obtain rfl : x = ⟨0, 4⟩ := Option.some.inj (hx.symm.trans hremark)
  have hholds := ((hback 1 _ hextent (by decide)).2 3 hreturned).1
  exact ⟨v, sheet, hrun, hsheet, horder, hlost, hnone.mp hlost, hcarried, hreturned, hholds⟩

end Survey
end StyleAtlas
