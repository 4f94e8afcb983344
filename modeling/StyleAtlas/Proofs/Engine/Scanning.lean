import StyleAtlas.Proofs.Engine.Faithful

/-!
# Searching for places changes places and order only

The outlines of a stylesheet that are built with and without searching the source realize the same
plan.  So they have the same nodes at the same depths below the same labels; they differ by how the
declarations are ordered in blocks that have important ones, and are the same where there are none.

Main results:

- Definition `Outline.profiles`: what an outline shows of its nodes and of what lies around them.
- Theorem `Outline.Realizes.perm_profiles`: the profiles of an outline are those of its plan.
- Definition `Outline.SameTree`, Theorem `Outline.SameTree.of_sketch`: outlines that differ by
  places only.
- Theorem `Callback.scanning_reorders_declarations_only`: the outlines with and without searching.
-/

namespace StyleAtlas

open Plan

/-! ## Profiles -/

/-- What an outline shows of a node and of what lies around it: its caption, its depth, and the
labels of the nodes around it, the nearest first. -/
structure Profile where
  caption : Caption
  depth : Nat
  path : List String
deriving DecidableEq

namespace Plan

/-- What a plan shows of a node and of what lies around it. -/
def Site.profile {p : Plan} (site : p.Site) : Profile :=
  ⟨site.caption, site.ancestors.length, site.ancestors.map fun outer => outer.caption.label⟩

/-- The sites around a site are the nearest one and those around it. -/
theorem Site.ancestors_of_parent {p : Plan} {site outer : p.Site} (h : site.parent = some outer) :
    site.ancestors = outer :: outer.ancestors := by
  induction site with
  | here => simp [parent, ancestors] at h
  | inside site ih =>
      simp only [parent, ancestors] at h ⊢
      cases hparent : site.parent with
      | none =>
          have hroot : site.ancestors = [] := List.head?_eq_none_iff.mp hparent
          rw [hroot] at h ⊢
          obtain rfl : here = outer := by simpa using h
          rfl
      | some inner =>
          have houter := ih hparent
          rw [houter] at h ⊢
          obtain rfl : inside inner = outer := by simpa using h
          rfl
  | later site ih =>
      simp only [parent, ancestors] at h ⊢
      cases hparent : site.parent with
      | none =>
          rw [List.head?_eq_none_iff.mp hparent] at h
          simp at h
      | some inner =>
          have houter := ih hparent
          rw [houter] at h ⊢
          obtain rfl : later inner = outer := by simpa using h
          rfl

/-- All sites in creation order. -/
def sites : (p : Plan) → List p.Site
  | nil => []
  | node _ parts rest => .here :: (parts.sites.map .inside ++ rest.sites.map .later)

/-- Every site is listed. -/
theorem mem_sites {p : Plan} (site : p.Site) : site ∈ p.sites := by
  induction site with
  | here => exact List.mem_cons_self
  | inside site ih =>
      exact List.mem_cons_of_mem _ (List.mem_append_left _ (List.mem_map_of_mem ih))
  | later site ih =>
      exact List.mem_cons_of_mem _ (List.mem_append_right _ (List.mem_map_of_mem ih))

/-- No site is listed twice. -/
theorem nodup_sites (p : Plan) : p.sites.Nodup := by
  induction p with
  | nil => exact List.nodup_nil
  | node caption parts rest ihParts ihRest =>
      refine List.nodup_cons.mpr ⟨by simp, List.nodup_append.mpr ⟨?_, ?_, ?_⟩⟩
      · exact ihParts.map fun site other h => Site.inside.inj h
      · exact ihRest.map fun site other h => Site.later.inj h
      · simp

end Plan

namespace Outline

/-- The label of a node. -/
def labelOf (o : Outline) (id : Nat) : Option String :=
  (o.node? id).map fun n => n.payload.label

/-- What an outline shows of the node with a number. -/
def profileOf (o : Outline) (id : Nat) : Option Profile :=
  (o.node? id).map fun n => ⟨n.caption, n.depth, (o.ancestorsOf id).filterMap o.labelOf⟩

/-- The profiles of all nodes, in creation order. -/
def profiles (o : Outline) : List Profile :=
  (List.range o.size).filterMap o.profileOf

namespace Realizes

variable {o : Outline} {p : Plan} {number : p.Site → Nat}

/-- The node of a site has its label. -/
theorem labelOf (h : o.Realizes p number) (site : p.Site) :
    o.labelOf (number site) = some site.caption.label := by
  obtain ⟨n, hn, hcaption⟩ := Option.map_eq_some_iff.mp (h.caption site)
  rw [Outline.labelOf, hn, ← hcaption]
  rfl

/-- Going up from the node of a site leads over the nodes of the sites around it. -/
theorem ancestorsUpTo (h : o.Realizes p number)
    (hparent : ∀ id parent, o.nodes.parentOf id = some parent → parent < id) {fuel : Nat}
    {site : p.Site} (hfuel : number site ≤ fuel) :
    o.nodes.ancestorsUpTo fuel (number site) = site.ancestors.map number := by
  -- Each step leads to a smaller number, so the fuel lasts.
  induction fuel generalizing site with
  | zero =>
      cases hsite : site.parent with
      | none =>
          rw [List.head?_eq_none_iff.mp hsite]
          rfl
      | some outer =>
          have hlt := hparent (number site) (number outer) (by rw [h.parent, hsite]; rfl)
          omega
  | succ fuel ih =>
      rw [Forest.ancestorsUpTo, h.parent]
      cases hsite : site.parent with
      | none =>
          rw [List.head?_eq_none_iff.mp hsite]
          rfl
      | some outer =>
          have hlt := hparent (number site) (number outer) (by rw [h.parent, hsite]; rfl)
          have hrest : o.nodes.ancestorsUpTo fuel (number outer) = outer.ancestors.map number :=
            ih (by omega)
          rw [Site.ancestors_of_parent hsite, List.map_cons, ← hrest]
          rfl

/-- The node of a site has its profile. -/
theorem profileOf (h : o.Realizes p number) (hsettled : o.nodes.Settled) (site : p.Site) :
    o.profileOf (number site) = some site.profile := by
  obtain ⟨n, hn, hcaption⟩ := Option.map_eq_some_iff.mp (h.caption site)
  have hlt : number site < o.nodes.length := (h.range _).mpr ⟨site, rfl⟩
  have hdepth : n.depth = site.ancestors.length := by
    rw [← h.depth site, Forest.depthOf, show o.nodes[number site]? = some n from hn]
  have hancestors : o.ancestorsOf (number site) = site.ancestors.map number :=
    h.ancestorsUpTo hsettled.parent_lt (Nat.le_of_lt hlt)
  rw [Outline.profileOf, hn, Option.map_some, hcaption, hdepth, hancestors, List.filterMap_map,
    Site.profile]
  have hlabels : (o.labelOf ∘ number) = fun outer => some outer.caption.label :=
    funext h.labelOf
  rw [hlabels, List.filterMap_eq_map']

/-- The profiles of an outline are those of the sites of its plan. -/
theorem perm_profiles (h : o.Realizes p number) (hsettled : o.nodes.Settled) :
    o.profiles.Perm (p.sites.map Site.profile) := by
  have hperm : (p.sites.map number).Perm (List.range o.size) := by
    refine (List.perm_ext_iff_of_nodup (p.nodup_sites.map h.injective) List.nodup_range).mpr ?_
    intro id
    rw [List.mem_range, h.range]
    simp [mem_sites]
  have hprofiles : (p.sites.map number).filterMap o.profileOf = p.sites.map Site.profile := by
    rw [List.filterMap_map, ← List.filterMap_eq_map']
    exact List.filterMap_congr fun site _ => h.profileOf hsettled site
  rw [← hprofiles]
  exact (hperm.filterMap o.profileOf).symm

end Realizes

/-! ## Outlines that differ by places only -/

/-- The outlines have the same sequence of nodes, with the same kinds, labels, details, depths and
parents, and the same links between them. -/
structure SameTree (o o' : Outline) : Prop where
  sketch : o.nodes.sketch = o'.nodes.sketch
  roots : o.roots = o'.roots
  children : ∀ id, o.childrenOf id = o'.childrenOf id
  parent : ∀ id, o.nodes.parentOf id = o'.nodes.parentOf id
  before : ∀ id, o.nodes.before id = o'.nodes.before id
  after : ∀ id, o.nodes.after id = o'.nodes.after id

/-- Outlines that say the same of their nodes have the same tree. -/
theorem SameTree.of_sketch {o o' : Outline} (h : o.nodes.sketch = o'.nodes.sketch) :
    o.SameTree o' := by
  have hlinks : o.nodes.map Node.parent = o'.nodes.map Node.parent := by
    have hparents := congrArg (List.map Sketch.parent) h
    rwa [Forest.sketch, Forest.sketch, List.map_map, List.map_map] at hparents
  have hunder : ∀ parent, o.nodes.under parent = o'.nodes.under parent := by
    intro parent
    rw [Forest.under_eq_indicesOf, hlinks, Forest.under_eq_indicesOf]
  have hparent : ∀ id, o.nodes.parentOf id = o'.nodes.parentOf id := by
    have hjoin : ∀ (nodes : Forest) (id : Nat),
        nodes.parentOf id = (nodes.map Node.parent)[id]?.join := by
      intro nodes id
      rw [Forest.parentOf, List.getElem?_map]
      cases nodes[id]? <;> rfl
    intro id
    rw [hjoin, hlinks, ← hjoin]
  refine ⟨h, hunder none, fun id => hunder (some id), hparent, ?_, ?_⟩
  · intro id
    rw [Forest.before, hparent, hunder, Forest.before]
  · intro id
    rw [Forest.after, hparent, hunder, Forest.after]

end Outline

/-! ## With and without searching -/

namespace Callback

/-- The plan up to the order of declarations that an analysis realizes, with its outline. -/
theorem exists_analysis (source : Source) (scanning : Bool) (callbacks : List Callback)
    (printed : String) :
    ∃ a ps, Analysis.run source scanning (.accepted callbacks printed) = .ok a ∧
      ArrangedEach scanning callbacks ps ∧
      a.outline.nodes.sketch = (join ps).sketch 0 none 0 ∧
      a.outline.profiles.Perm ((planAll callbacks).sites.map Site.profile) := by
  obtain ⟨b, index, ps, hrun, -, -, -, -, hindex, hps, hsketch, hsettled⟩ :=
    exists_outline source scanning callbacks
  obtain ⟨number, hnumber⟩ := Outline.exists_realizes hsketch (ArrangedEach.alike callbacks hps)
  exact ⟨_, ps, analysis_eq hrun hindex printed, hps, hsketch, hnumber.perm_profiles hsettled⟩

/-- Searching the source for places changes places and the order of declarations only.  With and
without it there are outlines with the same profiles up to order.  Without it the outline is that of
the plan of the callbacks, with important declarations first.  With it the outline is that of the
plan up to the order of declarations, where the two lists of a block with important declarations are
interleaved.  Where no block has important declarations, the two outlines are the same but for
places. -/
theorem scanning_reorders_declarations_only (source : Source) (callbacks : List Callback)
    (printed : String) :
    ∃ on off, Analysis.run source true (.accepted callbacks printed) = .ok on ∧
      Analysis.run source false (.accepted callbacks printed) = .ok off ∧
      on.outline.profiles.Perm off.outline.profiles ∧
      off.outline.nodes.sketch = (planAll callbacks).sketch 0 none 0 ∧
      (∃ ps, ArrangedEach true callbacks ps ∧
        on.outline.nodes.sketch = (join ps).sketch 0 none 0) ∧
      (lacksImportantEach callbacks = true → on.outline.SameTree off.outline) := by
  obtain ⟨on, ps, hon, hps, hsketchOn, hprofilesOn⟩ :=
    exists_analysis source true callbacks printed
  obtain ⟨off, qs, hoff, hqs, hsketchOff, hprofilesOff⟩ :=
    exists_analysis source false callbacks printed
  rw [ArrangedEach.eq_planEach callbacks (Or.inl rfl) hqs] at hsketchOff
  refine ⟨on, off, hon, hoff, hprofilesOn.trans hprofilesOff.symm, hsketchOff,
    ⟨ps, hps, hsketchOn⟩, ?_⟩
  intro hlacks
  apply Outline.SameTree.of_sketch
  rw [hsketchOn, ArrangedEach.eq_planEach callbacks (Or.inr hlacks) hps, hsketchOff]

/-- A rule around a media rule, with normal declarations on both sides of it. -/
def plainRule : List Callback :=
  [.rule .style (some ⟨0, 1⟩)
    [.block [] [.item (.property "color") [.item (.color "Rgba" none) []]],
      .rule .media none [.value [.item (.mediaQuery "Screen" none) []]],
      .rule .nestedDeclarations none [.block [] [.item (.property "top") []]]]]

/-- Without important declarations, searching the source makes no difference for two rules. -/
theorem sameTree_plainRule :
    lacksImportantEach plainRule = true ∧
      ∃ on off, Analysis.run ⟨"a(color:b;top:c)".toList⟩ true (.accepted plainRule "") = .ok on ∧
        Analysis.run ⟨"a(color:b;top:c)".toList⟩ false (.accepted plainRule "") = .ok off ∧
        on.outline.SameTree off.outline := by
  have hlacks : lacksImportantEach plainRule = true := by decide
  obtain ⟨on, off, hon, hoff, -, -, -, hsame⟩ :=
    scanning_reorders_declarations_only ⟨"a(color:b;top:c)".toList⟩ plainRule ""
  exact ⟨hlacks, on, off, hon, hoff, hsame hlacks⟩

end Callback
end StyleAtlas
