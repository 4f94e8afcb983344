import Mathlib.Data.List.Forall2
import Mathlib.Data.List.Induction
import StyleAtlas.Engine.Walk
import StyleAtlas.Proofs.Engine.Plan
import StyleAtlas.Proofs.Hint.SourceOrder

/-!
# What a walk reports

The plan of a forest of callbacks has one node for each callback that makes a node, below the
nearest such callback around it.  A walk spells out this plan event by event.  Where the source is
searched it may take the declarations of a block in another order, but only in blocks with important
declarations, and only by interleaving the two lists in another way; it leaves the windows of the
scanner as it found them.

Main results:

- Definition `Callback.plan`: the plan of a callback, with important declarations first.
- Definition `Callback.Arranged`: the plans that a walk of a callback may spell out.
- Theorems `Callback.Arranged.eq_plan`, `Callback.Arranged.alike`: when there is only one such plan,
  and that all of them have the same trees.
- Definition `Spells`: the events that walk over a plan.
- Theorem `Callback.walk_follows`: every walk spells out such a plan.
-/

namespace StyleAtlas

open Plan

/-! ## Plans of callbacks -/

/-- The plan of a rule with the plan of its parts.  Declarations that follow a nested rule make no
node for themselves. -/
def RuleType.plan (type : RuleType) (parts : Plan) : Plan :=
  if type = .nestedDeclarations then parts else .node ⟨.rule, type.label, none⟩ parts .nil

/-- The plan of a value with the plan of its parts, which are reported only where the node of the
value may have children. -/
def Subject.plan (subject : Subject) (parts : Plan) : Plan :=
  .node ⟨subject.kind, subject.label, subject.detail⟩
    (if subject.kind.isContainer then parts else .nil) .nil

namespace Callback

mutual

/-- The plan of a callback: one node for each callback that makes a node, below the nearest such
callback around it.  The important declarations of a block come first. -/
def plan : Callback → Plan
  | rule type _ children => type.plan (join (planEach children))
  | block important normal => join (planEach important ++ planEach normal)
  | value children => join (planEach children)
  | item subject children => subject.plan (join (planEach children))

/-- The plans of some callbacks. -/
def planEach : List Callback → List Plan
  | [] => []
  | c :: cs => plan c :: planEach cs

end

mutual

/-- Whether no block has important declarations. -/
def lacksImportant : Callback → Bool
  | rule _ _ children => lacksImportantEach children
  | block important normal => important.isEmpty && lacksImportantEach normal
  | value children => lacksImportantEach children
  | item _ children => lacksImportantEach children

/-- Whether no block of some callbacks has important declarations. -/
def lacksImportantEach : List Callback → Bool
  | [] => true
  | c :: cs => lacksImportant c && lacksImportantEach cs

end

mutual

/-- The plan is that of a callback up to the order of declarations.  Only where the source is
searched and a block has important declarations may its two lists be interleaved; everywhere else
the important declarations come first. -/
def Arranged (scanning : Bool) : Callback → Plan → Prop
  | rule type _ children, p => ∃ ps, ArrangedEach scanning children ps ∧ p = type.plan (join ps)
  | block important normal, p =>
      ∃ ps qs rs, ArrangedEach scanning important ps ∧ ArrangedEach scanning normal qs ∧
        p = join rs ∧
        if scanning && !important.isEmpty then Interleaved ps qs rs else rs = ps ++ qs
  | value children, p => ∃ ps, ArrangedEach scanning children ps ∧ p = join ps
  | item subject children, p =>
      ∃ ps, ArrangedEach scanning children ps ∧ p = subject.plan (join ps)

/-- The plans are those of some callbacks, one by one. -/
def ArrangedEach (scanning : Bool) : List Callback → List Plan → Prop
  | [], ps => ps = []
  | c :: cs, ps => ∃ q qs, Arranged scanning c q ∧ ArrangedEach scanning cs qs ∧ ps = q :: qs

end

/-! ### One plan only -/

mutual

/-- Where the source is not searched, or no block has important declarations, a callback has one
plan only. -/
theorem Arranged.eq_plan {scanning : Bool} :
    (c : Callback) → scanning = false ∨ c.lacksImportant = true → {p : Plan} →
      Arranged scanning c p → p = c.plan
  | rule type place children, hplain, p, h => by
      obtain ⟨ps, hps, rfl⟩ := h
      rw [plan, ArrangedEach.eq_planEach children hplain hps]
  | block important normal, hplain, p, h => by
      obtain ⟨ps, qs, rs, hps, hqs, rfl, horder⟩ := h
      have hfirst : (scanning && !important.isEmpty) = false := by
        rcases hplain with hplain | hplain
        · simp [hplain]
        · simp only [lacksImportant, Bool.and_eq_true] at hplain
          simp [hplain.1]
      simp only [hfirst, Bool.false_eq_true, if_false] at horder
      have himportant : scanning = false ∨ lacksImportantEach important = true := by
        rcases hplain with hplain | hplain
        · exact Or.inl hplain
        · simp only [lacksImportant, Bool.and_eq_true, List.isEmpty_iff] at hplain
          exact Or.inr (by rw [hplain.1]; rfl)
      have hnormal : scanning = false ∨ lacksImportantEach normal = true := by
        refine hplain.imp_right fun hplain => ?_
        simp only [lacksImportant, Bool.and_eq_true] at hplain
        exact hplain.2
      rw [plan, horder, ArrangedEach.eq_planEach important himportant hps,
        ArrangedEach.eq_planEach normal hnormal hqs]
  | value children, hplain, p, h => by
      obtain ⟨ps, hps, rfl⟩ := h
      rw [plan, ArrangedEach.eq_planEach children hplain hps]
  | item subject children, hplain, p, h => by
      obtain ⟨ps, hps, rfl⟩ := h
      rw [plan, ArrangedEach.eq_planEach children hplain hps]

/-- Some callbacks have only their plans as arrangements, where nothing is interleaved. -/
theorem ArrangedEach.eq_planEach {scanning : Bool} :
    (cs : List Callback) → scanning = false ∨ lacksImportantEach cs = true → {ps : List Plan} →
      ArrangedEach scanning cs ps → ps = planEach cs
  | [], _, ps, h => h
  | c :: cs, hplain, ps, h => by
      obtain ⟨q, qs, hq, hqs, rfl⟩ := h
      have hboth : (scanning = false ∨ c.lacksImportant = true) ∧
          (scanning = false ∨ lacksImportantEach cs = true) := by
        simp only [lacksImportantEach, Bool.and_eq_true] at hplain
        exact ⟨hplain.imp_right And.left, hplain.imp_right And.right⟩
      rw [planEach, Arranged.eq_plan c hboth.1 hq, ArrangedEach.eq_planEach cs hboth.2 hqs]

end

/-! ### The same trees -/

/-- A rule around alike plans of its parts makes alike plans. -/
theorem alike_rulePlan (type : RuleType) {p q : Plan} (h : Alike p q) :
    Alike (type.plan p) (type.plan q) := by
  unfold RuleType.plan
  split
  · exact h
  · exact .node _ h .nil

/-- A value around alike plans of its parts makes alike plans. -/
theorem alike_subjectPlan (subject : Subject) {p q : Plan} (h : Alike p q) :
    Alike (subject.plan p) (subject.plan q) := by
  unfold Subject.plan
  refine .node _ ?_ .nil
  split
  · exact h
  · exact .nil

mutual

/-- The plan of a callback up to the order of declarations has the trees of its plan. -/
theorem Arranged.alike {scanning : Bool} :
    (c : Callback) → {p : Plan} → Arranged scanning c p → Alike c.plan p
  | rule type place children, p, h => by
      obtain ⟨ps, hps, rfl⟩ := h
      exact alike_rulePlan type (ArrangedEach.alike children hps)
  | block important normal, p, h => by
      obtain ⟨ps, qs, rs, hps, hqs, rfl, horder⟩ := h
      have hperm : (ps ++ qs).Perm rs := by
        split at horder
        · exact horder.perm.symm
        · exact List.Perm.of_eq horder.symm
      have hboth : Alike (block important normal).plan (join (ps ++ qs)) := by
        rw [plan, join_append, join_append]
        exact (ArrangedEach.alike important hps).append (ArrangedEach.alike normal hqs)
      exact hboth.trans (alike_join_of_perm hperm)
  | value children, p, h => by
      obtain ⟨ps, hps, rfl⟩ := h
      exact ArrangedEach.alike children hps
  | item subject children, p, h => by
      obtain ⟨ps, hps, rfl⟩ := h
      exact alike_subjectPlan subject (ArrangedEach.alike children hps)

/-- Every arrangement of some callbacks is their plan, up to the order of trees. -/
theorem ArrangedEach.alike {scanning : Bool} :
    (cs : List Callback) → {ps : List Plan} → ArrangedEach scanning cs ps →
      Alike (join (planEach cs)) (join ps)
  | [], ps, h => by
      rw [show ps = [] from h]
      exact .nil
  | c :: cs, ps, h => by
      obtain ⟨q, qs, hq, hqs, rfl⟩ := h
      exact (Arranged.alike c hq).append (ArrangedEach.alike cs hqs)

end

end Callback

/-! ## Events that walk over a plan -/

/-- The events walk over the plan in depth-first order: they announce a node with its caption, at
any place or none, and enter and leave those that may have children. -/
inductive Spells : List Event → Plan → Prop where
  | nil : Spells [] .nil
  | leaf {events : List Event} {rest : Plan} (kind : Kind) (payload : Payload)
      (hrest : Spells events rest) :
      Spells (.leaf kind payload :: events)
        (.node ⟨kind, payload.label, payload.detail⟩ .nil rest)
  | container {inner outer : List Event} {parts rest : Plan} (kind : Kind) (payload : Payload)
      (hkind : kind.isContainer = true) (hparts : Spells inner parts)
      (hrest : Spells outer rest) :
      Spells (.enter kind payload :: (inner ++ .exit kind :: outer))
        (.node ⟨kind, payload.label, payload.detail⟩ parts rest)

/-- Events that spell out two plans spell them out one after the other. -/
theorem Spells.append {events later : List Event} {p q : Plan} (h : Spells events p)
    (hlater : Spells later q) : Spells (events ++ later) (p ++ q) := by
  induction h with
  | nil => exact hlater
  | leaf kind payload _ ih => exact .leaf kind payload ih
  | container kind payload hkind hparts _ _ ih =>
      simpa using Spells.container kind payload hkind hparts ih

/-! ## Walks -/

/-- The walk spells out one of the given plans, and leaves the windows of the scanner. -/
def Walk.Follows (w : Walk) (plans : Plan → Prop) : Prop :=
  ∀ s, ∃ p, plans p ∧ Spells (w s).1 p ∧ (w s).2.windows = s.windows

namespace WalkContext

variable (ctx : WalkContext) {plans : Plan → Prop}

/-- A search leaves the windows of the scanner. -/
theorem windows_scan (signature : Option Signature) (s : Scanner) :
    (ctx.scan signature s).2.windows = s.windows := by
  unfold scan
  cases signature with
  | none => rfl
  | some signature =>
      dsimp only
      split
      · unfold Scanner.find
        split <;> rfl
      · rfl

/-- A rule opens one window and closes it again. -/
theorem follows_walkRule {inner : Walk} (h : inner.Follows plans) (type : RuleType)
    (place : Option Place) :
    (ctx.walkRule type place inner).Follows fun p => ∃ q, plans q ∧ p = type.plan q := by
  intro s
  unfold walkRule RuleType.plan
  split
  · obtain ⟨p, hp, hspells, hwindows⟩ := h s
    exact ⟨p, ⟨p, hp, rfl⟩, hspells, hwindows⟩
  · -- Whatever window is opened, it is the one that is closed.
    have hclosed : ∀ (opened : Scanner) (location : Option Location),
        opened.windows.tail = s.windows →
        ∃ p, (∃ q, plans q ∧ p = .node ⟨.rule, type.label, none⟩ q .nil) ∧
          Spells (.enter .rule ⟨type.label, none, location⟩ ::
            (inner opened).1 ++ [.exit .rule]) p ∧
          (inner opened).2.closeBlock.windows = s.windows := by
      intro opened location htail
      obtain ⟨p, hp, hspells, hwindows⟩ := h opened
      refine ⟨_, ⟨p, hp, rfl⟩, Spells.container _ _ rfl hspells .nil, ?_⟩
      rw [Scanner.closeBlock, hwindows, htail]
    dsimp only
    cases ((if type.isLocated then place else none).bind ctx.position?).bind
        fun p => (ctx.source.offsetOf p).toOption with
    | some offset => exact hclosed _ _ rfl
    | none => exact hclosed _ _ rfl

/-- The walk of a node follows the plans of the node around those of its parts. -/
theorem follows_walkItem {inner : Walk} (h : inner.Follows plans) (subject : Subject) :
    (ctx.walkItem subject inner).Follows fun p => ∃ q, plans q ∧ p = subject.plan q := by
  intro s
  have hscan := windows_scan ctx subject.signature? s
  obtain ⟨p, hp, hspells, hwindows⟩ := h (ctx.scan subject.signature? s).2
  refine ⟨_, ⟨p, hp, rfl⟩, ?_⟩
  unfold walkItem Subject.plan
  dsimp only
  split
  · rename_i hkind
    exact ⟨Spells.container _ _ hkind hspells .nil, hwindows.trans hscan⟩
  · exact ⟨Spells.leaf _ _ .nil, hscan⟩

end WalkContext

namespace Callback

variable {ctx : WalkContext}

/-- The walks follow the callbacks, one by one. -/
abbrev FollowEach (ctx : WalkContext) (ws : List Walk) (cs : List Callback) : Prop :=
  List.Forall₂ (fun w c => w.Follows (Arranged ctx.scanning c)) ws cs

/-- Walks one after the other spell out one plan after the other. -/
theorem FollowEach.sequence {ws : List Walk} {cs : List Callback} (h : FollowEach ctx ws cs) :
    (Walk.sequence ws).Follows fun p =>
      ∃ ps, ArrangedEach ctx.scanning cs ps ∧ p = join ps := by
  induction h with
  | nil => exact fun s => ⟨.nil, ⟨[], rfl, rfl⟩, .nil, rfl⟩
  | cons hw _ ih =>
      intro s
      obtain ⟨p, hp, hspells, hwindows⟩ := hw s
      obtain ⟨_, ⟨ps, hps, rfl⟩, hrest, hwindows'⟩ := ih (_ : Scanner)
      exact ⟨_, ⟨p :: ps, ⟨p, ps, hp, hps, rfl⟩, rfl⟩, hspells.append hrest,
        hwindows'.trans hwindows⟩

/-- Interleaved walks spell out interleaved plans. -/
theorem sequence_of_interleaved {us vs ws : List Walk} (h : Interleaved us vs ws)
    {cs ds : List Callback} (hus : FollowEach ctx us cs) (hvs : FollowEach ctx vs ds) :
    (Walk.sequence ws).Follows fun p =>
      ∃ ps qs rs, ArrangedEach ctx.scanning cs ps ∧ ArrangedEach ctx.scanning ds qs ∧
        p = join rs ∧ Interleaved ps qs rs := by
  induction h generalizing cs ds with
  | nil =>
      cases hus
      cases hvs
      exact fun s => ⟨.nil, ⟨[], [], [], rfl, rfl, rfl, .nil⟩, .nil, rfl⟩
  | left u _ ih =>
      cases hus with
      | cons hu hus =>
          intro s
          obtain ⟨p, hp, hspells, hwindows⟩ := hu s
          obtain ⟨_, ⟨ps, qs, rs, hps, hqs, rfl, horder⟩, hrest, hwindows'⟩ := ih hus hvs (u s).2
          exact ⟨_, ⟨p :: ps, qs, p :: rs, ⟨p, ps, hp, hps, rfl⟩, hqs, rfl, .left p horder⟩,
            hspells.append hrest, hwindows'.trans hwindows⟩
  | right v _ ih =>
      cases hvs with
      | cons hv hvs =>
          intro s
          obtain ⟨q, hq, hspells, hwindows⟩ := hv s
          obtain ⟨_, ⟨ps, qs, rs, hps, hqs, rfl, horder⟩, hrest, hwindows'⟩ := ih hus hvs (v s).2
          exact ⟨_, ⟨ps, q :: qs, q :: rs, hps, ⟨q, qs, hq, hqs, rfl⟩, rfl, .right q horder⟩,
            hspells.append hrest, hwindows'.trans hwindows⟩

/-! ### Blocks -/

/-- Picking all indices of a list, in order, gives the list. -/
theorem filterMap_getElem?_range {α β : Type} (f : α → β) (xs : List α) :
    ((List.range xs.length).filterMap fun index => xs[index]?.map f) = xs.map f := by
  induction xs using List.reverseRecOn with
  | nil => rfl
  | append_singleton xs x ih =>
      rw [List.length_append, List.length_singleton, List.range_succ, List.filterMap_append,
        List.map_append, ← ih]
      congr 1
      · refine List.filterMap_congr ?_
        intro index hindex
        rw [List.getElem?_append_left (List.mem_range.mp hindex)]
      · simp

/-- The walks of a block in source order interleave those of its two lists. -/
theorem interleaved_walkBlock (source : Source) (s : Scanner)
    (important normal : List (List Char × Walk)) :
    Interleaved (important.map Prod.snd) (normal.map Prod.snd)
      ((s.sourceOrder source (normal.map Prod.fst) (important.map Prod.fst)).filterMap
        fun slot => (if slot.important then important else normal)[slot.index]?.map Prod.snd) := by
  have horder := ((Scanner.interleaved_sourceOrder s source (normal.map Prod.fst)
    (important.map Prod.fst)).symm.filterMap
      fun slot => (if slot.important then important else normal)[slot.index]?.map Prod.snd)
  simpa [Scanner.slots, List.filterMap_map, Function.comp_def, filterMap_getElem?_range] using
    horder

/-- A sequence of walks goes through the first of them before the others. -/
theorem sequence_append (us vs : List Walk) (s : Scanner) :
    Walk.sequence (us ++ vs) s =
      ((Walk.sequence us s).1 ++ (Walk.sequence vs (Walk.sequence us s).2).1,
        (Walk.sequence vs (Walk.sequence us s).2).2) := by
  induction us generalizing s with
  | nil => rfl
  | cons u us ih => simp [Walk.sequence, ih]

/-- The walk of a block follows an arrangement of its two lists of declarations. -/
theorem follows_walkBlock {important normal : List Callback} {us vs : List Walk}
    (hus : FollowEach ctx us important) (hvs : FollowEach ctx vs normal) :
    (ctx.walkBlock ((important.map declaredName).zip us)
      ((normal.map declaredName).zip vs)).Follows
        (Arranged ctx.scanning (block important normal)) := by
  have husnd : ((important.map declaredName).zip us).map Prod.snd = us := by
    rw [List.map_snd_zip]
    simp [hus.length_eq]
  have hvsnd : ((normal.map declaredName).zip vs).map Prod.snd = vs := by
    rw [List.map_snd_zip]
    simp [hvs.length_eq]
  have hempty : ((important.map declaredName).zip us).isEmpty = important.isEmpty := by
    rw [← List.isEmpty_map (f := Prod.snd), husnd]
    cases hus <;> rfl
  intro s
  unfold WalkContext.walkBlock
  rw [hempty]
  split
  · rename_i hscanning
    have horder := interleaved_walkBlock ctx.source s ((important.map declaredName).zip us)
      ((normal.map declaredName).zip vs)
    rw [husnd, hvsnd] at horder
    obtain ⟨_, ⟨ps, qs, rs, hps, hqs, rfl, hrs⟩, hspells⟩ :=
      sequence_of_interleaved horder hus hvs s
    exact ⟨_, ⟨ps, qs, rs, hps, hqs, rfl, by rwa [if_pos hscanning]⟩, hspells⟩
  · rename_i hscanning
    rw [List.map_append, husnd, hvsnd, sequence_append]
    obtain ⟨_, ⟨ps, hps, rfl⟩, hspells, hwindows⟩ := FollowEach.sequence hus s
    obtain ⟨_, ⟨qs, hqs, rfl⟩, hspells', hwindows'⟩ :=
      FollowEach.sequence hvs (Walk.sequence us s).2
    refine ⟨_, ⟨ps, qs, ps ++ qs, hps, hqs, rfl, by rw [if_neg hscanning]⟩, ?_,
      hwindows'.trans hwindows⟩
    rw [join_append]
    exact hspells.append hspells'

mutual

/-- A walk spells out the plan of its callback, up to the order of declarations. -/
theorem walk_follows (ctx : WalkContext) :
    (c : Callback) → (walk ctx c).Follows (Arranged ctx.scanning c)
  | rule type place children => by
      intro s
      obtain ⟨_, ⟨_, ⟨ps, hps, rfl⟩, rfl⟩, h⟩ :=
        ctx.follows_walkRule (walkEach_follow ctx children).sequence type place s
      exact ⟨_, ⟨ps, hps, rfl⟩, h⟩
  | block important normal =>
      follows_walkBlock (walkEach_follow ctx important) (walkEach_follow ctx normal)
  | value children => (walkEach_follow ctx children).sequence
  | item subject children => by
      intro s
      obtain ⟨_, ⟨_, ⟨ps, hps, rfl⟩, rfl⟩, h⟩ :=
        ctx.follows_walkItem (walkEach_follow ctx children).sequence subject s
      exact ⟨_, ⟨ps, hps, rfl⟩, h⟩

/-- The walks of some callbacks follow them, one by one. -/
theorem walkEach_follow (ctx : WalkContext) :
    (cs : List Callback) → FollowEach ctx (walkEach ctx cs) cs
  | [] => .nil
  | c :: cs => .cons (walk_follows ctx c) (walkEach_follow ctx cs)

end

end Callback
end StyleAtlas
