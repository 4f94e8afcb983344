import Mathlib.Data.List.Count
import Mathlib.Data.List.Range
import StyleAtlas.Proofs.Outline.Tiling

/-!
# The pre-order of an outline

The links of an outline are read off the parents of its nodes.  Here they are walked: from the roots
down through the lists of children, which meets the nodes in the order of their numbers, and from a
node up through its parents, which takes as many steps as the node lies deep.  Both follow from the
shape that all runs keep.

Main results:

- Definition `Walked`, Theorem `Builder.Shaped.walked`: a walk through the lists of children.
- Theorem `Forest.neighbours_under`: the siblings next to a node.
- Theorems `Builder.Shaped.length_ancestors` and `Builder.Shaped.ancestors_climb`: the way up.
- Definition `Builder.Contained`, Theorem `Builder.Contained.feedAll`: only containers own children.
-/

namespace StyleAtlas

/-- Walking some nodes one after the other, each followed by a walk of its children, meets the nodes
of the second list in their order. -/
inductive Walked (children : Nat → List Nat) : List Nat → List Nat → Prop where
  | nil : Walked children [] []
  | cons {id : Nat} {siblings below later : List Nat} (hbelow : Walked children (children id) below)
      (hlater : Walked children siblings later) :
      Walked children (id :: siblings) (id :: (below ++ later))

namespace Forest

/-! ## Lists of links -/

/-- The children of a node are the numbers of the nodes that name it, in ascending order. -/
theorem under_eq_filter (nodes : Forest) (parent : Option Nat) :
    nodes.under parent =
      (List.range nodes.length).filter fun id => nodes.parentOf id = parent := by
  induction nodes using List.reverseRecOn with
  | nil => rfl
  | append_singleton nodes n ih =>
      have hbefore : (List.range nodes.length).filter
          (fun id => parentOf (nodes ++ [n]) id = parent) = under nodes parent := by
        rw [ih]
        apply List.filter_congr
        intro id hid
        rw [parentOf_append (List.mem_range.mp hid)]
      rw [under_concat, List.length_append, List.length_singleton, List.range_succ,
        List.filter_append, hbefore]
      by_cases hparent : n.parent = parent <;> simp [hparent]

/-- The children of a node ascend. -/
theorem pairwise_under (nodes : Forest) (parent : Option Nat) :
    (nodes.under parent).Pairwise (· < ·) := by
  rw [under_eq_indicesOf]
  exact pairwise_indicesOf _ parent

/-- A node stands once in the list that it belongs to, and in no other list. -/
theorem count_under (nodes : Forest) {id : Nat} (hid : id < nodes.length) (parent : Option Nat) :
    (nodes.under parent).count id = if nodes.parentOf id = parent then 1 else 0 := by
  rw [under_eq_indicesOf]
  exact count_indicesOf_map hid parent

/-- The neighbours of a node are those that stand beside it in its list. -/
theorem neighbours_under {nodes : Forest} {id : Nat} {front back : List Nat}
    (h : nodes.under (nodes.parentOf id) = front ++ id :: back) :
    nodes.before id = front.getLast? ∧ nodes.after id = back.head? := by
  have hsorted := pairwise_under nodes (nodes.parentOf id)
  rw [h, List.pairwise_append, List.pairwise_cons] at hsorted
  rcases hsorted with ⟨-, ⟨hback, -⟩, hfront⟩
  constructor
  · have hkept : front.filter (· < id) = front :=
      List.filter_eq_self.mpr fun x hx => by simpa using hfront x hx id (by simp)
    have hdropped : back.filter (· < id) = [] :=
      List.filter_eq_nil_iff.mpr fun x hx => by simpa using (hback x hx).le
    rw [before, h, List.filter_append, hkept, List.filter_cons_of_neg (by simp), hdropped,
      List.append_nil]
  · have hnone : front.find? (id < ·) = none :=
      List.find?_eq_none.mpr fun x hx => by simpa using (hfront x hx id (by simp)).le
    rw [after, h, List.find?_append, hnone, Option.none_or, List.find?_cons_of_neg (by simp)]
    cases back with
    | nil => rfl
    | cons next back => simp [hback next (by simp)]

end Forest

namespace Builder

open Forest

/-! ## The walk down -/

/-- The numbers of the nodes of a depth between two numbers. -/
def levelBetween (nodes : Forest) (depth lower upper : Nat) : List Nat :=
  (List.range' lower (upper - lower)).filter fun id => nodes.depthOf id = depth

/-- Where the branch of a node ends: what comes before lies deeper. -/
theorem exists_branch_end (nodes : Forest) (depth : Nat) {lower upper : Nat} (h : lower < upper) :
    ∃ stop, lower < stop ∧ stop ≤ upper ∧
      (∀ id, lower < id → id < stop → depth < nodes.depthOf id) ∧
      (stop < upper → nodes.depthOf stop ≤ depth) := by
  induction upper, h using Nat.le_induction with
  | base => exact ⟨lower + 1, by omega, by omega, by intro id; omega, by omega⟩
  | succ upper hle ih =>
      rcases ih with ⟨stop, hlower, hupper, hdeep, hstop⟩
      by_cases hend : stop = upper ∧ depth < nodes.depthOf upper
      · refine ⟨upper + 1, by omega, by omega, ?_, by omega⟩
        intro id hid hlt
        by_cases hsame : id = upper
        · exact hsame ▸ hend.2
        · exact hdeep id hid (by omega)
      · refine ⟨stop, hlower, by omega, hdeep, ?_⟩
        intro _
        by_cases hsame : stop = upper
        · subst hsame
          simpa using hend
        · exact hstop (by omega)

/-- There are no nodes of a level among deeper ones. -/
theorem levelBetween_eq_nil {nodes : Forest} {depth lower upper : Nat}
    (h : ∀ id, lower ≤ id → id < upper → depth < nodes.depthOf id) :
    levelBetween nodes depth lower upper = [] := by
  apply List.filter_eq_nil_iff.mpr
  intro id hid
  have hbounds := List.mem_range'_1.mp hid
  have hdeep := h id hbounds.1 (by omega)
  simp only [decide_eq_true_eq]
  omega

/-- The numbers between two bounds may be split at one of them. -/
theorem range'_split {lower stop upper : Nat} (hlower : lower ≤ stop) (hupper : stop ≤ upper) :
    List.range' lower (upper - lower) =
      List.range' lower (stop - lower) ++ List.range' stop (upper - stop) := by
  have hstop : lower + (stop - lower) = stop := by omega
  have hlength : upper - lower = (stop - lower) + (upper - stop) := by omega
  rw [hlength, ← List.range'_append_1, hstop]

/-- The first node of a level is followed by those behind its branch. -/
theorem levelBetween_cons {nodes : Forest} {depth lower stop upper : Nat} (hlower : lower < stop)
    (hupper : stop ≤ upper) (hfirst : nodes.depthOf lower = depth)
    (hdeep : ∀ id, lower < id → id < stop → depth < nodes.depthOf id) :
    levelBetween nodes depth lower upper = lower :: levelBetween nodes depth stop upper := by
  have hbranch : levelBetween nodes depth (lower + 1) stop = [] :=
    levelBetween_eq_nil fun id hid hlt => hdeep id hid hlt
  have hone : upper - lower = (upper - (lower + 1)) + 1 := by omega
  unfold levelBetween at hbranch ⊢
  rw [hone, List.range'_succ, List.filter_cons_of_pos (by simpa using hfirst),
    range'_split hlower hupper, List.filter_append, hbranch, List.nil_append]

section Shaped

variable {b : Builder}

/-- A node that lies deeper than the one just before it is the first child of that one. -/
theorem Shaped.encloses_succ (h : b.Shaped) {id : Nat} (hid : id + 1 < b.nodes.length)
    (hdeep : b.nodes.depthOf id < b.nodes.depthOf (id + 1)) : b.nodes.Encloses id (id + 1) := by
  rcases h.exists_encloses hid (by omega) with ⟨parent, hparent⟩
  have hlt := hparent.lt
  have hdepth := hparent.depth_eq
  rcases Nat.lt_or_eq_of_le (Nat.le_of_lt_succ hlt) with hbefore | rfl
  · have := hparent.between id hbefore (by omega)
    omega
  · exact hparent

/-- The children of a node are the nodes of the next level in its branch. -/
theorem Shaped.under_eq_levelBetween (h : b.Shaped) {id stop : Nat} (hid : id < stop)
    (hstop : stop ≤ b.nodes.length)
    (hdeep : ∀ other, id < other → other < stop → b.nodes.depthOf id < b.nodes.depthOf other)
    (hend : stop < b.nodes.length → b.nodes.depthOf stop ≤ b.nodes.depthOf id) :
    b.nodes.under (some id) = levelBetween b.nodes (b.nodes.depthOf id + 1) (id + 1) stop := by
  have hbefore : (List.range' 0 (id + 1)).filter (fun other => b.nodes.parentOf other = some id)
      = [] := by
    apply List.filter_eq_nil_iff.mpr
    intro other hother
    have hbounds := List.mem_range'_1.mp hother
    simp only [decide_eq_true_eq]
    intro hparent
    have := h.parentsFirst other id hparent
    omega
  have hbehind : (List.range' stop (b.nodes.length - stop)).filter
      (fun other => b.nodes.parentOf other = some id) = [] := by
    apply List.filter_eq_nil_iff.mpr
    intro other hother
    have hbounds := List.mem_range'_1.mp hother
    have hlevel := hend (by omega)
    simp only [decide_eq_true_eq]
    intro hparent
    have hencloses := h.encloses other id hparent
    rcases Nat.lt_or_eq_of_le hbounds.1 with hlater | rfl
    · have := hencloses.between stop hid hlater
      omega
    · have := hencloses.depth_eq
      omega
  have hinside : (List.range' (id + 1) (stop - (id + 1))).filter
      (fun other => b.nodes.parentOf other = some id) =
        levelBetween b.nodes (b.nodes.depthOf id + 1) (id + 1) stop := by
    apply List.filter_congr
    intro other hother
    have hbounds := List.mem_range'_1.mp hother
    simp only [decide_eq_decide]
    rw [h.parentOf_eq_some_iff (by omega)]
    constructor
    · exact fun hencloses => hencloses.depth_eq
    · intro hdepth
      exact ⟨by omega, hdepth, fun between hlower hupper => hdeep between hlower (by omega)⟩
  have hall : List.range b.nodes.length = List.range' 0 (id + 1) ++
      (List.range' (id + 1) (stop - (id + 1)) ++
        List.range' stop (b.nodes.length - stop)) := by
    have hlength : id + 1 ≤ b.nodes.length := by omega
    rw [List.range_eq_range', ← range'_split hid hstop]
    exact range'_split (Nat.zero_le _) hlength
  rw [under_eq_filter, hall, List.filter_append, List.filter_append, hbefore, hinside, hbehind,
    List.nil_append, List.append_nil]

/-- Walking the nodes of a level meets them and all that lies below them in the order of their
numbers, where nothing between the first of them and the end lies further up. -/
theorem Shaped.walked_levelBetween (h : b.Shaped) {depth lower upper : Nat}
    (hupper : upper ≤ b.nodes.length)
    (hdeep : ∀ id, lower ≤ id → id < upper → depth ≤ b.nodes.depthOf id)
    (hfirst : lower < upper → b.nodes.depthOf lower = depth)
    (hend : upper < b.nodes.length → b.nodes.depthOf upper ≤ depth) :
    Walked (fun id => b.nodes.under (some id)) (levelBetween b.nodes depth lower upper)
      (List.range' lower (upper - lower)) := by
  induction hsize : upper - lower using Nat.strong_induction_on
    generalizing depth lower upper with
  | _ size ih =>
    subst hsize
    by_cases hlt : lower < upper
    · rcases exists_branch_end b.nodes depth hlt with
        ⟨stop, hlower, hstop, hbranch, hback⟩
      have hdepth := hfirst hlt
      have hbehind : stop < b.nodes.length → b.nodes.depthOf stop ≤ depth := by
        intro hlength
        rcases Nat.lt_or_eq_of_le hstop with hlt' | rfl
        · exact hback hlt'
        · exact hend hlength
      -- The branch of the first node ends at `stop`: its children are walked up to there, and its
      -- siblings from there on.
      have hbelow : Walked (fun id => b.nodes.under (some id)) (b.nodes.under (some lower))
          (List.range' (lower + 1) (stop - (lower + 1))) := by
        rw [h.under_eq_levelBetween hlower (by omega) (by simpa [hdepth] using hbranch)
          (by simpa [hdepth] using hbehind), hdepth]
        refine ih (stop - (lower + 1)) (by omega) (by omega) (fun id hid hid' => ?_) ?_ ?_ rfl
        · exact hbranch id hid hid'
        · intro hnext
          have hdeeper := hbranch (lower + 1) (by omega) hnext
          have hchild : b.nodes.Encloses lower (lower + 1) :=
            h.encloses_succ (by omega) (by omega)
          rw [hchild.depth_eq, hdepth]
        · intro hlength
          exact Nat.le_succ_of_le (hbehind hlength)
      have hlater : Walked (fun id => b.nodes.under (some id))
          (levelBetween b.nodes depth stop upper) (List.range' stop (upper - stop)) := by
        refine ih (upper - stop) (by omega) hupper (fun id hid hid' => ?_) ?_ hend rfl
        · exact hdeep id (by omega) hid'
        · intro hlt'
          exact Nat.le_antisymm (hback hlt') (hdeep stop (by omega) hlt')
      have hone : upper - lower = (upper - (lower + 1)) + 1 := by omega
      rw [levelBetween_cons hlower hstop hdepth hbranch, hone, List.range'_succ,
        range'_split hlower hstop]
      exact .cons hbelow hlater
    · have hnil : upper - lower = 0 := by omega
      rw [levelBetween, hnil]
      exact .nil

/-- Walking the roots and the lists of children meets all nodes in the order of their numbers. -/
theorem Shaped.walked (h : b.Shaped) :
    Walked (fun id => b.nodes.under (some id)) (b.nodes.under none)
      (List.range b.nodes.length) := by
  have hroots : b.nodes.under none = levelBetween b.nodes 0 0 b.nodes.length := by
    rw [under_eq_filter, levelBetween, Nat.sub_zero, List.range_eq_range']
    apply List.filter_congr
    intro id hid
    have hid' : id < b.nodes.length := by simpa using hid
    simp only [decide_eq_decide]
    constructor
    · exact h.root_depth id hid'
    · intro hdepth
      by_contra hparent
      rcases Option.ne_none_iff_exists'.mp hparent with ⟨parent, hparent⟩
      have := (h.encloses id parent hparent).depth_eq
      omega
  rw [hroots, List.range_eq_range']
  refine h.walked_levelBetween le_rfl (fun id _ _ => Nat.zero_le _) ?_ (by omega)
  intro hpos
  apply h.root_depth 0 hpos
  by_contra hparent
  rcases Option.ne_none_iff_exists'.mp hparent with ⟨parent, hparent⟩
  exact Nat.not_lt_zero parent (h.parentsFirst 0 parent hparent)

/-! ## The way up -/

/-- A node lies as deep as it has ancestors. -/
theorem Shaped.length_ancestors (h : b.Shaped) {id : Nat} (hid : id < b.nodes.length) :
    (b.nodes.ancestors id).length = b.nodes.depthOf id := by
  induction id using Nat.strong_induction_on with
  | _ id ih =>
    rw [ancestors_eq h.parentsFirst hid]
    cases hparent : b.nodes.parentOf id with
    | none => exact (h.root_depth id hid hparent).symm
    | some parent =>
        have hlt := h.parentsFirst id parent hparent
        rw [(h.encloses id parent hparent).depth_eq, ← ih parent hlt (Nat.lt_trans hlt hid)]
        rfl

/-- The way up from a node goes from parent to parent and ends in a root. -/
theorem Shaped.ancestors_climb (h : b.Shaped) {id : Nat} (hid : id < b.nodes.length) :
    (id :: b.nodes.ancestors id).IsChain (fun lower upper => b.nodes.parentOf lower = some upper) ∧
      ∃ root ∈ b.nodes.under none, (id :: b.nodes.ancestors id).getLast? = some root := by
  induction id using Nat.strong_induction_on with
  | _ id ih =>
    rw [ancestors_eq h.parentsFirst hid]
    cases hparent : b.nodes.parentOf id with
    | none => exact ⟨.singleton id, id, mem_under.mpr ⟨hid, hparent⟩, rfl⟩
    | some parent =>
        have hlt := h.parentsFirst id parent hparent
        rcases ih parent hlt (Nat.lt_trans hlt hid) with ⟨hchain, root, hroot, hlast⟩
        refine ⟨.cons_cons hparent hchain, root, hroot, ?_⟩
        rw [List.getLast?_cons_cons]
        exact hlast

end Shaped

/-! ## Containers -/

/-- Whether there is a container with a number. -/
def isContainerAt (nodes : Forest) (id : Nat) : Bool :=
  nodes[id]?.any fun n => n.kind.isContainer

/-- Whether there is a container is a matter of the skeleton. -/
theorem isContainerAt_skeleton (nodes : Forest) (id : Nat) :
    isContainerAt nodes.skeleton id = isContainerAt nodes id := by
  rw [isContainerAt, getElem?_skeleton, isContainerAt]
  cases nodes[id]? <;> rfl

/-- Only containers are open, and only containers own children. -/
structure Contained (b : Builder) : Prop where
  stack : ∀ id ∈ b.stack, isContainerAt b.nodes id = true
  parent : ∀ id parent, b.nodes.parentOf id = some parent → isContainerAt b.nodes parent = true

/-- Nothing is open at first. -/
theorem Contained.init (source : Source) : (Builder.init source).Contained where
  stack := by simp [Builder.init]
  parent := by simp [Builder.init, parentOf]

/-- Which nodes are containers is a matter of the skeleton. -/
theorem Contained.of_skeleton {b b' : Builder} (h : b.Contained)
    (hskeleton : b'.nodes.skeleton = b.nodes.skeleton) (hstack : b'.stack = b.stack) :
    b'.Contained where
  stack := by
    intro id hid
    rw [← isContainerAt_skeleton, hskeleton, isContainerAt_skeleton]
    exact h.stack id (hstack ▸ hid)
  parent := by
    intro id parent hparent
    rw [← parentOf_skeleton, hskeleton, parentOf_skeleton] at hparent
    rw [← isContainerAt_skeleton, hskeleton, isContainerAt_skeleton]
    exact h.parent id parent hparent

/-- A container is still one after a visit. -/
theorem isContainerAt_visit {b : Builder} {id : Nat} (h : isContainerAt b.nodes id = true)
    (kind : Kind) (payload : Payload) : isContainerAt (b.visit kind payload).nodes id = true := by
  rw [← isContainerAt_skeleton] at h
  rw [← isContainerAt_skeleton, skeleton_visit, isContainerAt]
  rcases hnode : b.nodes.skeleton[id]? with _ | n
  · simp [isContainerAt, hnode] at h
  · have hid := (List.getElem?_eq_some_iff.mp hnode).1
    rw [isContainerAt, hnode] at h
    rw [List.getElem?_append_left hid, hnode]
    exact h

/-- A container that is visited is one. -/
theorem isContainerAt_visit_length (b : Builder) {kind : Kind} (hkind : kind.isContainer = true)
    (payload : Payload) :
    isContainerAt (b.visit kind payload).nodes b.nodes.length = true := by
  rw [← isContainerAt_skeleton, skeleton_visit, isContainerAt, ← length_skeleton]
  simpa using hkind

/-- A visit adds a child to an open container, or a root. -/
theorem Contained.visit {b : Builder} (h : b.Contained) (kind : Kind) (payload : Payload) :
    (b.visit kind payload).Contained where
  stack := by
    intro id hid
    rw [visit_stack] at hid
    exact isContainerAt_visit (h.stack id hid) kind payload
  parent := by
    intro id parent hparent
    have hid := lt_length_of_parentOf hparent
    rw [← parentOf_skeleton, skeleton_visit] at hparent
    apply isContainerAt_visit
    by_cases hold : id < b.nodes.length
    · rw [parentOf_append (by simpa using hold), parentOf_skeleton] at hparent
      exact h.parent id parent hparent
    · obtain rfl : id = b.nodes.skeleton.length := by
        rw [length_visit] at hid
        rw [length_skeleton]
        omega
      rw [parentOf_append_length] at hparent
      exact h.stack parent (List.mem_of_mem_head? hparent)

/-- Events that are accepted open containers only. -/
theorem Contained.push {b b' : Builder} {event : Event} {id : Nat} (h : b.Contained)
    (hpush : b.push event = .ok (id, b')) : b'.Contained := by
  rcases push_cases hpush with ⟨kind, payload, -, hkind, rfl⟩ | ⟨kind, payload, -, rfl⟩ |
    ⟨kind, top, rest, -, hstack, rfl⟩
  · refine ⟨?_, (h.visit kind payload).parent⟩
    intro other hother
    rcases List.mem_cons.mp hother with rfl | hother
    · exact isContainerAt_visit_length b hkind payload
    · exact isContainerAt_visit (h.stack other hother) kind payload
  · exact h.visit kind payload
  · refine ⟨fun other hother => h.stack other ?_, h.parent⟩
    rw [hstack]
    exact List.mem_cons_of_mem top hother

/-- After every stream only containers own children. -/
theorem Contained.feedAll {b : Builder} (h : b.Contained) (events : List Event) :
    (b.feedAll events).Contained :=
  feedAll_induction (fun _ _ _ _ h hpush => Contained.push h hpush) h events

end Builder
end StyleAtlas
