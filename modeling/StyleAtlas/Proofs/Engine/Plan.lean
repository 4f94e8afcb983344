import Mathlib.Data.List.Perm.Basic
import Mathlib.Logic.Equiv.Basic
import StyleAtlas.Proofs.Outline.Shape

/-!
# Plans of outlines

A plan is a forest of captions: what an outline shall show and how its nodes shall nest, without
places.  The sites of a plan are its nodes.  A plan can be written down as the nodes of an outline
in creation order; and plans that differ by the order of siblings only have the same sites, with the
same captions and the same sites around them.

Main results:

- Definitions `Plan`, `Plan.Site`, `Plan.Site.ancestors`: plans, their nodes, and the way up.
- Definition `Plan.Alike`, Theorem `Plan.Alike.exists_equiv`: plans with the same trees in another
  order have the same sites.
- Theorem `Plan.alike_join_of_perm`: the order in which plans are joined does not matter to this.
- Definition `Outline.Realizes`, Theorem `Outline.exists_realizes`: an outline that is written down
  from a plan has one node for each site.
-/

namespace StyleAtlas

/-! ## What is shown of nodes -/

/-- What a node shows, wherever it lies. -/
structure Caption where
  kind : Kind
  label : String
  detail : Option String
deriving DecidableEq

/-- What an outline says of a node beside its place in the text. -/
structure Sketch where
  caption : Caption
  depth : Nat
  parent : Option Nat
deriving DecidableEq

/-- What a node shows. -/
def Node.caption (n : Node) : Caption :=
  ⟨n.kind, n.payload.label, n.payload.detail⟩

/-- What a node shows, with its depth and its parent. -/
def Node.sketch (n : Node) : Sketch :=
  ⟨n.caption, n.depth, n.parent⟩

/-- What an outline says of its nodes, in creation order. -/
def Forest.sketch (nodes : Forest) : List Sketch :=
  nodes.map Node.sketch

/-- What the nodes of an outline show does not depend on their ends. -/
theorem Forest.sketch_skeleton (nodes : Forest) : nodes.skeleton.sketch = nodes.sketch := by
  rw [Forest.skeleton, Forest.sketch, List.map_map]
  rfl

/-- There is one sketch for each node. -/
@[simp]
theorem Forest.length_sketch (nodes : Forest) : nodes.sketch.length = nodes.length := by
  simp [Forest.sketch]

/-! ## Plans -/

/-- A forest of captions: the first tree, with its parts, and the trees after it. -/
inductive Plan where
  | nil
  | node (caption : Caption) (parts rest : Plan)

namespace Plan

/-- The trees of one plan, then those of another. -/
def append : Plan → Plan → Plan
  | nil, q => q
  | node caption parts rest, q => node caption parts (rest.append q)

/-- Plans are appended tree by tree. -/
instance : Append Plan :=
  ⟨append⟩

@[simp]
theorem nil_append (p : Plan) : nil ++ p = p :=
  rfl

@[simp]
theorem node_append (caption : Caption) (parts rest p : Plan) :
    node caption parts rest ++ p = node caption parts (rest ++ p) :=
  rfl

@[simp]
theorem append_nil (p : Plan) : p ++ nil = p := by
  induction p with
  | nil => rfl
  | node caption parts rest _ ih => rw [node_append, ih]

/-- Plans may be appended in any grouping. -/
theorem append_assoc (p q r : Plan) : p ++ q ++ r = p ++ (q ++ r) := by
  induction p with
  | nil => rfl
  | node caption parts rest _ ih => rw [node_append, node_append, node_append, ih]

/-- The trees of some plans, one plan after the other. -/
def join : List Plan → Plan
  | [] => nil
  | p :: ps => p ++ join ps

/-- Plans that are joined in two groups are appended. -/
theorem join_append (ps qs : List Plan) : join (ps ++ qs) = join ps ++ join qs := by
  induction ps with
  | nil => rfl
  | cons p ps ih => rw [List.cons_append, join, ih, join, append_assoc]

/-- The number of nodes. -/
def size : Plan → Nat
  | nil => 0
  | node _ parts rest => 1 + parts.size + rest.size

/-- The nodes in creation order when they are numbered from `id` and lie in `parent` at `depth`. -/
def sketch : (id : Nat) → (parent : Option Nat) → (depth : Nat) → Plan → List Sketch
  | _, _, _, nil => []
  | id, parent, depth, node caption parts rest =>
      ⟨caption, depth, parent⟩ ::
        (parts.sketch (id + 1) (some id) (depth + 1) ++
          rest.sketch (id + 1 + parts.size) parent depth)

/-- A plan has as many sketches as nodes. -/
@[simp]
theorem length_sketch (p : Plan) (id : Nat) (parent : Option Nat) (depth : Nat) :
    (p.sketch id parent depth).length = p.size := by
  induction p generalizing id parent depth with
  | nil => rfl
  | node caption parts rest ihParts ihRest =>
      simp only [sketch, size, List.length_cons, List.length_append, ihParts, ihRest]
      omega

/-! ## Sites -/

/-- A node of a plan: the root of its first tree, a node further in, or one of a later tree. -/
inductive Site : Plan → Type where
  | here {caption : Caption} {parts rest : Plan} : Site (node caption parts rest)
  | inside {caption : Caption} {parts rest : Plan} (site : Site parts) :
      Site (node caption parts rest)
  | later {caption : Caption} {parts rest : Plan} (site : Site rest) :
      Site (node caption parts rest)

namespace Site

/-- The caption of a node. -/
def caption : {p : Plan} → p.Site → Caption
  | .node caption _ _, here => caption
  | _, inside site => site.caption
  | _, later site => site.caption

/-- The nodes around a node, the nearest first. -/
def ancestors : {p : Plan} → p.Site → List p.Site
  | _, here => []
  | _, inside site => site.ancestors.map inside ++ [here]
  | _, later site => site.ancestors.map later

/-- The nearest node around a node. -/
def parent {p : Plan} (site : p.Site) : Option p.Site :=
  site.ancestors.head?

/-- The number of a node in creation order. -/
def number : {p : Plan} → p.Site → Nat
  | _, here => 0
  | _, inside site => 1 + site.number
  | .node _ parts _, later site => 1 + parts.size + site.number

/-- Nodes are numbered below the size of their plan. -/
theorem number_lt_size {p : Plan} (site : p.Site) : site.number < p.size := by
  induction site with
  | here => simp only [number, size]; omega
  | inside site ih => simp only [number, size]; omega
  | later site ih => simp only [number, size]; omega

/-- Different nodes have different numbers. -/
theorem number_injective {p : Plan} : Function.Injective (number : p.Site → Nat) := by
  intro site other h
  induction site with
  | here =>
      cases other with
      | here => rfl
      | inside other => simp only [number] at h; omega
      | later other => simp only [number] at h; omega
  | inside site ih =>
      have hlt := site.number_lt_size
      cases other with
      | here => simp only [number] at h; omega
      | inside other => exact congrArg inside (ih (by simp only [number] at h; omega))
      | later other => simp only [number] at h; omega
  | later site ih =>
      cases other with
      | here => simp only [number] at h; omega
      | inside other =>
          have hlt := other.number_lt_size
          simp only [number] at h
          omega
      | later other => exact congrArg later (ih (by simp only [number] at h; omega))

/-- Every number up to the size of the plan belongs to a node. -/
theorem exists_number_eq {p : Plan} {id : Nat} (h : id < p.size) :
    ∃ site : p.Site, site.number = id := by
  induction p generalizing id with
  | nil => simp [size] at h
  | node caption parts rest ihParts ihRest =>
      simp only [size] at h
      rcases Nat.eq_zero_or_pos id with rfl | hpos
      · exact ⟨here, rfl⟩
      · rcases Nat.lt_or_ge id (1 + parts.size) with hlt | hge
        · obtain ⟨site, hsite⟩ := ihParts (show id - 1 < parts.size by omega)
          exact ⟨inside site, by simp only [number]; omega⟩
        · obtain ⟨site, hsite⟩ := ihRest (show id - (1 + parts.size) < rest.size by omega)
          exact ⟨later site, by simp only [number]; omega⟩

end Site

/-- The sketch of a site has its caption, lies as deep as there are sites around it, and names the
nearest of them. -/
theorem getElem?_sketch {p : Plan} (site : p.Site) (id : Nat) (parent : Option Nat)
    (depth : Nat) :
    (p.sketch id parent depth)[site.number]? =
      some ⟨site.caption, depth + site.ancestors.length,
        (site.parent.map fun outer => id + outer.number).or parent⟩ := by
  induction site generalizing id parent depth with
  | here => simp [Site.number, sketch, Site.caption, Site.ancestors, Site.parent]
  | inside site ih =>
      have hlt := site.number_lt_size
      simp only [Site.number, sketch, Nat.add_comm 1, List.getElem?_cons_succ]
      rw [List.getElem?_append_left (by simpa using hlt), ih]
      simp only [Site.caption, Site.parent, Site.ancestors, List.length_append, List.length_map,
        List.length_singleton]
      cases site.ancestors with
      | nil => simp [Site.number]
      | cons outer _ => simp [Site.number, Nat.add_comm 1, Nat.add_assoc]
  | @later caption parts rest site ih =>
      have hnumber : 1 + parts.size + site.number = (parts.size + site.number) + 1 := by omega
      simp only [Site.number, sketch, hnumber, List.getElem?_cons_succ]
      rw [List.getElem?_append_right (by simp), length_sketch, Nat.add_sub_cancel_left, ih]
      simp only [Site.caption, Site.parent, Site.ancestors, List.length_map]
      cases site.ancestors with
      | nil => simp
      | cons outer _ => simp [Site.number, Nat.add_assoc]

/-! ## Plans that differ by the order of siblings -/

/-- The plans have the same trees in another order, at all levels. -/
inductive Alike : Plan → Plan → Prop where
  | nil : Alike nil nil
  | node {parts parts' rest rest' : Plan} (caption : Caption) (hparts : Alike parts parts')
      (hrest : Alike rest rest') : Alike (node caption parts rest) (node caption parts' rest')
  | swap (caption caption' : Caption) (parts parts' rest : Plan) :
      Alike (node caption parts (node caption' parts' rest))
        (node caption' parts' (node caption parts rest))
  | trans {p q r : Plan} (h : Alike p q) (h' : Alike q r) : Alike p r

namespace Alike

variable {p p' q q' : Plan}

/-- A plan is like itself. -/
theorem refl (p : Plan) : Alike p p := by
  induction p with
  | nil => exact nil
  | node caption parts rest ihParts ihRest => exact node caption ihParts ihRest

/-- Alike plans may stand before the same trees. -/
theorem append_right (h : Alike p p') (q : Plan) : Alike (p ++ q) (p' ++ q) := by
  induction h with
  | nil => exact refl q
  | node caption hparts _ _ ih => exact node caption hparts ih
  | swap caption caption' parts parts' rest => exact swap caption caption' parts parts' _
  | trans _ _ ih ih' => exact trans ih ih'

/-- Alike plans may stand behind the same trees. -/
theorem append_left (p : Plan) (h : Alike q q') : Alike (p ++ q) (p ++ q') := by
  induction p with
  | nil => exact h
  | node caption parts rest _ ih => exact node caption (refl parts) ih

/-- Alike plans may stand one after the other. -/
theorem append (h : Alike p p') (h' : Alike q q') : Alike (p ++ q) (p' ++ q') :=
  trans (append_right h q) (append_left p' h')

/-- A tree may be moved over any number of trees. -/
theorem node_middle (caption : Caption) (parts p rest : Plan) :
    Alike (.node caption parts (p ++ rest)) (p ++ .node caption parts rest) := by
  induction p with
  | nil => exact refl _
  | node caption' parts' p _ ih =>
      exact trans (swap caption caption' parts parts' (p ++ rest)) (node caption' (refl parts') ih)

/-- The order of two plans does not matter. -/
theorem append_comm (p q : Plan) : Alike (p ++ q) (q ++ p) := by
  induction p with
  | nil =>
      rw [nil_append, append_nil]
      exact refl q
  | node caption parts rest _ ih =>
      exact trans (node caption (refl parts) ih) (node_middle caption parts q rest)

/-! ### Sites of such plans -/

/-- Maps of the sites of the parts and of the rest make a map of the sites of a node. -/
def mapNode {caption : Caption} {parts parts' rest rest' : Plan}
    (f : parts.Site → parts'.Site) (g : rest.Site → rest'.Site) :
    (Plan.node caption parts rest).Site → (Plan.node caption parts' rest').Site
  | .here => .here
  | .inside site => .inside (f site)
  | .later site => .later (g site)

/-- The sites of two trees, with the trees in the other order. -/
def swapNodes {caption caption' : Caption} {parts parts' rest : Plan} :
    (Plan.node caption parts (.node caption' parts' rest)).Site →
      (Plan.node caption' parts' (.node caption parts rest)).Site
  | .here => .later .here
  | .inside site => .later (.inside site)
  | .later .here => .here
  | .later (.inside site) => .inside site
  | .later (.later site) => .later (.later site)

/-- Plans with the same trees in another order have the same sites, with the same captions and the
same sites around them. -/
theorem exists_equiv (h : Alike p q) :
    ∃ e : p.Site ≃ q.Site, ∀ site, (e site).caption = site.caption ∧
      (e site).ancestors = site.ancestors.map e := by
  induction h with
  | nil => exact ⟨Equiv.refl _, by simp⟩
  | @node parts parts' rest rest' caption _ _ ihParts ihRest =>
      obtain ⟨e, he⟩ := ihParts
      obtain ⟨f, hf⟩ := ihRest
      refine ⟨⟨mapNode e f, mapNode e.symm f.symm, ?_, ?_⟩, ?_⟩
      · intro site
        cases site <;> simp [mapNode]
      · intro site
        cases site <;> simp [mapNode]
      · intro site
        cases site with
        | here => exact ⟨rfl, rfl⟩
        | inside site =>
            refine ⟨(he site).1, ?_⟩
            simp only [Equiv.coe_fn_mk, mapNode, Site.ancestors, (he site).2, List.map_append,
              List.map_map, List.map_cons, List.map_nil]
            rfl
        | later site =>
            refine ⟨(hf site).1, ?_⟩
            simp only [Equiv.coe_fn_mk, mapNode, Site.ancestors, (hf site).2, List.map_map]
            rfl
  | swap caption caption' parts parts' rest =>
      refine ⟨⟨swapNodes, swapNodes, ?_, ?_⟩, ?_⟩
      · rintro (_ | site | _ | site | site) <;> rfl
      · rintro (_ | site | _ | site | site) <;> rfl
      · rintro (_ | site | _ | site | site)
        · exact ⟨rfl, rfl⟩
        · exact ⟨rfl, by simp [swapNodes, Site.ancestors]⟩
        · exact ⟨rfl, rfl⟩
        · exact ⟨rfl, by simp [swapNodes, Site.ancestors]⟩
        · exact ⟨rfl, by simp [swapNodes, Site.ancestors]⟩
  | trans _ _ ih ih' =>
      obtain ⟨e, he⟩ := ih
      obtain ⟨f, hf⟩ := ih'
      refine ⟨e.trans f, ?_⟩
      intro site
      rw [Equiv.trans_apply]
      refine ⟨(hf _).1.trans (he site).1, ?_⟩
      rw [(hf _).2, (he site).2, List.map_map]
      rfl

end Alike

/-- Plans may be joined in any order. -/
theorem alike_join_of_perm {ps qs : List Plan} (h : ps.Perm qs) : Alike (join ps) (join qs) := by
  induction h with
  | nil => exact Alike.nil
  | cons p _ ih => exact ih.append_left p
  | swap p q ps =>
      simp only [join]
      rw [← append_assoc, ← append_assoc]
      exact (Alike.append_comm q p).append_right (join ps)
  | trans _ _ ih ih' => exact ih.trans ih'

end Plan

/-! ## Outlines of plans -/

namespace Outline

open Plan

/-- The numbers tell which node of an outline belongs to which site of a plan: every node belongs to
exactly one site, shows its caption, lies as deep as there are sites around it, and its parent
belongs to the nearest of them. -/
structure Realizes (o : Outline) (p : Plan) (number : p.Site → Nat) : Prop where
  injective : Function.Injective number
  range : ∀ id, id < o.size ↔ ∃ site, number site = id
  caption : ∀ site, (o.node? (number site)).map Node.caption = some site.caption
  depth : ∀ site, o.nodes.depthOf (number site) = site.ancestors.length
  parent : ∀ site, o.nodes.parentOf (number site) = site.parent.map number

/-- An outline that is written down from a plan has one node for each site of it, and of every plan
with the same trees in another order. -/
theorem exists_realizes {o : Outline} {p q : Plan} (hsketch : o.nodes.sketch = q.sketch 0 none 0)
    (halike : Alike p q) : ∃ number, o.Realizes p number := by
  obtain ⟨e, he⟩ := halike.exists_equiv
  have hsize : o.size = q.size := by
    rw [Outline.size, ← Forest.length_sketch, hsketch, Plan.length_sketch]
  have hnode : ∀ site : q.Site, ∃ n, o.nodes[site.number]? = some n ∧ n.sketch =
      ⟨site.caption, site.ancestors.length, site.parent.map Site.number⟩ := by
    intro site
    have hget := getElem?_sketch site 0 none 0
    rw [← hsketch, Forest.sketch, List.getElem?_map] at hget
    obtain ⟨n, hn, hsite⟩ := Option.map_eq_some_iff.mp hget
    exact ⟨n, hn, by simpa using hsite⟩
  refine ⟨fun site => (e site).number, ?_, ?_, ?_, ?_, ?_⟩
  · exact Site.number_injective.comp e.injective
  · intro id
    rw [hsize]
    constructor
    · intro hid
      obtain ⟨site, hsite⟩ := Site.exists_number_eq hid
      exact ⟨e.symm site, by rw [Equiv.apply_symm_apply, hsite]⟩
    · rintro ⟨site, rfl⟩
      exact (e site).number_lt_size
  · intro site
    obtain ⟨n, hn, hsite⟩ := hnode (e site)
    rw [node?, hn, Option.map_some, show n.caption = _ from congrArg Sketch.caption hsite,
      (he site).1]
  · intro site
    obtain ⟨n, hn, hsite⟩ := hnode (e site)
    rw [Forest.depthOf, hn]
    have hdepth : n.depth = (e site).ancestors.length := congrArg Sketch.depth hsite
    simpa [(he site).2] using hdepth
  · intro site
    obtain ⟨n, hn, hsite⟩ := hnode (e site)
    have hparent : n.parent = (e site).parent.map Site.number := congrArg Sketch.parent hsite
    rw [Forest.parentOf, hn, Option.bind_some, hparent, Site.parent, (he site).2, Site.parent]
    cases site.ancestors <;> rfl

end Outline
end StyleAtlas
