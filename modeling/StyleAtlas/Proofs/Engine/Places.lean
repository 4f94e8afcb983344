import StyleAtlas.Proofs.Engine.Faithful
import StyleAtlas.Proofs.Hint.Occurrence

/-!
# Places that were searched for are genuine

The walk over the reports of the engine searches the source for declarations and calls, inside the
windows of the rules that it is in.  What it finds stands there as the node says, behind the start
of the innermost located rule around the node and before the end of every located rule around it.
The scanner knows the rules by its windows, the events by how they nest, and the outline by its
parent links; the same list of rule starts is followed through all three.

Main results:

- Definition `GenuineAt`: what is said of the place of a node.
- Definition `Scanner.Watches`: the window of a scanner lies in the rules around it.
- Definition `Truthful`, Theorem `Callback.walk_truthful`: events whose places are genuine.
- Definition `Builder.Attested`, Theorem `Builder.Attested.run`: nodes whose places are genuine.
- Theorem `Callback.scanned_places_are_genuine`: all places of an analysis that were searched for.
-/

namespace StyleAtlas

open Text

/-! ## Genuine places -/

/-- What a node looks like in the source, where it can be told from its kind and its label. -/
def Kind.signature? (label : String) : Kind → Option Signature
  | .declaration => some (.property label.toList)
  | .function => some (.call label.toList)
  | .customVariable => some (.call ['v', 'a', 'r'])
  | .environmentVariable => some (.call ['e', 'n', 'v'])
  | .url => some (.call ['u', 'r', 'l'])
  | _ => none

/-- What a value looks like is told by the kind and the label of its node alone. -/
theorem Subject.signature?_eq (subject : Subject) :
    subject.signature? = subject.kind.signature? subject.label := by
  cases subject <;> rfl

/-- The place of a node inside located rules with the given starts, the innermost first: it lies
behind the start of the innermost rule and before the end of each rule, and the node stands there
with its name and what follows it. -/
structure GenuineAt (source : Source) (rules : List Nat) (kind : Kind) (label : String)
    (offset : Nat) : Prop where
  le : ∀ start ∈ rules.head?, start ≤ offset
  lt : ∀ start ∈ rules, offset < Hint.blockEnd source start
  stands : ∃ signature, kind.signature? label = some signature ∧ signature.StandsAt source offset

namespace Payload

/-- The start of a located rule. -/
def ruleStart? (source : Source) (kind : Kind) (payload : Payload) : Option Nat :=
  if kind = .rule then payload.location.map fun l => source.clamp l.position else none

/-- If the place of the node was searched for, it is genuine. -/
def Genuine (source : Source) (rules : List Nat) (kind : Kind) (payload : Payload) : Prop :=
  ∀ p, payload.location = some ⟨p, .scanned⟩ →
    ∃ offset, source.offsetOf p = .ok offset ∧
      GenuineAt source rules kind payload.label offset

/-- A place that the engine reported need not be searched for. -/
theorem genuine_of_ne_scanned {source : Source} {rules : List Nat} {kind : Kind}
    {payload : Payload} (h : ∀ l ∈ payload.location, l.origin = .engine) :
    payload.Genuine source rules kind := by
  intro p hp
  have horigin := h _ hp
  simp at horigin

end Payload

/-! ## Windows and rules -/

/-- The window of the scanner lies in the located rules with the given starts, the innermost
first. -/
structure Scanner.Watches (s : Scanner) (source : Source) (rules : List Nat) : Prop where
  boundary : isBoundary source.chars (s.window source).floor = true
  floor : ∀ start ∈ rules.head?, start ≤ (s.window source).floor
  ceiling : ∀ start ∈ rules, (s.window source).ceiling ≤ Hint.blockEnd source start
  unwatched : s.windows = [] → rules = []

namespace Scanner.Watches

variable {s : Scanner} {source : Source} {rules : List Nat}

/-- A fresh scanner watches the whole source, around no rule. -/
theorem init (source : Source) : Scanner.init.Watches source [] where
  boundary := isBoundary_zero _
  floor := by simp
  ceiling := by simp
  unwatched := fun _ => rfl

/-- What a scanner watches is a matter of its windows. -/
theorem of_windows {s' : Scanner} (h : s.Watches source rules) (hwindows : s'.windows = s.windows) :
    s'.Watches source rules := by
  have hwindow : s'.window source = s.window source := by rw [window, window, hwindows]
  refine ⟨?_, ?_, ?_, ?_⟩
  · rw [hwindow]
    exact h.boundary
  · rw [hwindow]
    exact h.floor
  · rw [hwindow]
    exact h.ceiling
  · rw [hwindows]
    exact h.unwatched

/-- Opening the block of a located rule puts that rule innermost. -/
theorem openBlock (h : s.Watches source rules) {start : Nat}
    (hstart : isBoundary source.chars start = true) :
    (s.openBlock source start).Watches source (start :: rules) := by
  refine ⟨hstart, by simp [Scanner.openBlock, window], ?_, by simp [Scanner.openBlock]⟩
  intro other hother
  have hceiling := h.ceiling other
  have hunwatched := h.unwatched
  cases hwindows : s.windows with
  | nil =>
      rw [hunwatched hwindows] at hother
      rw [List.mem_singleton.mp hother]
      simp [Scanner.openBlock, window, hwindows]
  | cons outer windows =>
      simp only [window, hwindows, List.headD_cons] at hceiling
      simp only [Scanner.openBlock, window, hwindows, List.headD_cons]
      rcases List.mem_cons.mp hother with rfl | hother
      · exact Nat.min_le_left _ _
      · exact Nat.le_trans (Nat.min_le_right _ _) (hceiling hother)

/-- Opening the block of a rule without a place leaves the rules that are watched. -/
theorem inheritBlock (h : s.Watches source rules) :
    (s.inheritBlock source).Watches source rules where
  boundary := h.boundary
  floor := h.floor
  ceiling := h.ceiling
  unwatched := by simp [Scanner.inheritBlock]

end Scanner.Watches

/-- What a search finds is genuine. -/
theorem WalkContext.genuine_scan (ctx : WalkContext) {s : Scanner} {rules : List Nat}
    (h : s.Watches ctx.source rules) (subject : Subject) :
    Payload.Genuine ctx.source rules subject.kind
      ⟨subject.label, subject.detail, (ctx.scan subject.signature? s).1⟩ := by
  intro p hp
  unfold scan at hp
  split at hp
  · simp at hp
  · rename_i signature hsignature
    split at hp
    · simp only [Option.bind_eq_some_iff, Option.map_eq_some_iff] at hp
      rcases hp with ⟨offset, hfind, position, hposition, hlocation⟩
      obtain rfl : position = p := by simpa using hlocation
      rcases Scanner.exists_mem_of_find hfind with ⟨m, hm, rfl⟩
      have hstands := Hint.standsIn_of_mem_occurrences hm
      -- The place lies between two characters, so its position leads back to it.
      rcases Source.exists_positionOf hstands.stands.isBoundary with ⟨q, hq, hoffset⟩
      rw [hq] at hposition
      obtain rfl : q = position := by simpa [Except.toOption] using hposition
      refine ⟨m.start, hoffset, ?_, ?_, ?_⟩
      · intro start hstart
        exact Nat.le_trans (h.floor start hstart) hstands.floor_le
      · intro start hstart
        exact Nat.lt_of_lt_of_le hstands.lt_ceiling (h.ceiling start hstart)
      · exact ⟨signature, by rw [← subject.signature?_eq, hsignature], hstands.stands⟩
    · simp at hp

/-! ## Events -/

/-- The events announce nodes at genuine places only, inside located rules with the given
starts. -/
inductive Truthful (source : Source) : List Nat → List Event → Prop where
  | nil {rules : List Nat} : Truthful source rules []
  | leaf {rules : List Nat} {kind : Kind} {payload : Payload} {events : List Event}
      (hpayload : payload.Genuine source rules kind) (hevents : Truthful source rules events) :
      Truthful source rules (.leaf kind payload :: events)
  | container {rules : List Nat} {kind : Kind} {payload : Payload} {inner outer : List Event}
      (hpayload : payload.Genuine source rules kind)
      (hinner : Truthful source ((payload.ruleStart? source kind).toList ++ rules) inner)
      (houter : Truthful source rules outer) :
      Truthful source rules (.enter kind payload :: (inner ++ .exit kind :: outer))

/-- Truthful events may follow one another. -/
theorem Truthful.append {source : Source} {rules : List Nat} {events later : List Event}
    (h : Truthful source rules events) (hlater : Truthful source rules later) :
    Truthful source rules (events ++ later) := by
  induction h with
  | nil => exact hlater
  | leaf hpayload _ ih => exact .leaf hpayload (ih hlater)
  | container hpayload hinner _ _ ih =>
      simpa using Truthful.container hpayload hinner (ih hlater)

/-- The walk makes truthful events, whatever rules the scanner watches, and leaves its windows. -/
structure Walk.Truthful (source : Source) (w : Walk) : Prop where
  events : ∀ s rules, s.Watches source rules → StyleAtlas.Truthful source rules (w s).1
  windows : ∀ s, (w s).2.windows = s.windows

/-- A sequence of truthful walks is truthful. -/
theorem Walk.Truthful.sequence {source : Source} {ws : List Walk}
    (h : ∀ w ∈ ws, w.Truthful source) : (Walk.sequence ws).Truthful source := by
  induction ws with
  | nil => exact ⟨fun _ _ _ => .nil, fun _ => rfl⟩
  | cons w ws ih =>
      have hw := h w List.mem_cons_self
      have hws := ih fun w hw => h w (List.mem_cons_of_mem _ hw)
      constructor
      · intro s rules hs
        exact (hw.events s rules hs).append
          (hws.events _ rules (hs.of_windows (hw.windows s)))
      · intro s
        exact (hws.windows _).trans (hw.windows s)

namespace WalkContext

variable (ctx : WalkContext)

/-- A place of the engine on an existing line can be converted strictly. -/
theorem exists_offsetOf_position? {place : Place} {p : Position}
    (h : ctx.position? place = some p) : ∃ offset, ctx.source.offsetOf p = .ok offset := by
  unfold position? at h
  split at h
  · rename_i column hcolumn
    obtain rfl := Option.some.inj h
    exact Source.exists_offsetOf_byteColumn hcolumn
  · simp at h

/-- The walk of a rule around a truthful walk of its parts makes truthful events. -/
theorem events_walkRule {inner : Walk} (h : inner.Truthful ctx.source) (type : RuleType)
    (place : Option Place) {s : Scanner} {rules : List Nat} (hs : s.Watches ctx.source rules) :
    Truthful ctx.source rules (ctx.walkRule type place inner s).1 := by
  unfold walkRule
  split
  · exact h.events s rules hs
  · dsimp only
    refine .container (Payload.genuine_of_ne_scanned ?_) ?_ .nil
    · intro l hl
      rcases Option.map_eq_some_iff.mp hl with ⟨p, -, rfl⟩
      rfl
    · apply h.events
      cases hposition : (if type.isLocated then place else none).bind ctx.position? with
      | none => simpa [Payload.ruleStart?] using hs.inheritBlock
      | some p =>
          rcases Option.bind_eq_some_iff.mp hposition with ⟨place, -, hp⟩
          rcases ctx.exists_offsetOf_position? hp with ⟨offset, hoffset⟩
          rcases Source.isBoundary_of_offsetOf hoffset with ⟨hboundary, hclamp⟩
          simpa [Payload.ruleStart?, hoffset, Except.toOption, hclamp] using hs.openBlock hboundary

/-- The walk of a node around a truthful walk of its parts makes truthful events. -/
theorem events_walkItem {inner : Walk} (h : inner.Truthful ctx.source) (subject : Subject)
    {s : Scanner} {rules : List Nat} (hs : s.Watches ctx.source rules) :
    Truthful ctx.source rules (ctx.walkItem subject inner s).1 := by
  have hscan := hs.of_windows (ctx.windows_scan subject.signature? s)
  have hrule : subject.kind ≠ .rule := by cases subject <;> simp [Subject.kind]
  unfold walkItem
  dsimp only
  split
  · refine .container (ctx.genuine_scan hs subject) ?_ .nil
    simpa [Payload.ruleStart?, hrule] using h.events _ rules hscan
  · exact .leaf (ctx.genuine_scan hs subject) .nil

/-- Whatever order the declarations of a block are walked in, each walk is one of the given
ones. -/
theorem events_walkBlock {important normal : List (List Char × Walk)}
    (h : ∀ w ∈ (important ++ normal).map Prod.snd, w.Truthful ctx.source) {s : Scanner}
    {rules : List Nat} (hs : s.Watches ctx.source rules) :
    Truthful ctx.source rules (ctx.walkBlock important normal s).1 := by
  have hall : ∀ ws : List Walk, (∀ w ∈ ws, w ∈ (important ++ normal).map Prod.snd) →
      Truthful ctx.source rules (Walk.sequence ws s).1 := by
    intro ws hws
    exact (Walk.Truthful.sequence fun w hw => h w (hws w hw)).events s rules hs
  unfold walkBlock
  split
  · apply hall
    intro w hw
    rcases List.mem_filterMap.mp hw with ⟨slot, -, hslot⟩
    rcases Option.map_eq_some_iff.mp hslot with ⟨named, hnamed, rfl⟩
    apply List.mem_map_of_mem
    rw [List.mem_append]
    split at hnamed
    · exact Or.inl (List.mem_of_getElem? hnamed)
    · exact Or.inr (List.mem_of_getElem? hnamed)
  · exact hall _ fun w hw => hw

end WalkContext

namespace Callback

/-- A walk leaves the windows of the scanner as it found them. -/
theorem windows_walk (ctx : WalkContext) (c : Callback) (s : Scanner) :
    (walk ctx c s).2.windows = s.windows := by
  rcases walk_follows ctx c s with ⟨_, -, -, hwindows⟩
  exact hwindows

mutual

/-- The walk of a callback makes truthful events. -/
theorem walk_truthful (ctx : WalkContext) : (c : Callback) → (walk ctx c).Truthful ctx.source
  | rule type place children =>
      ⟨fun _ _ hs => ctx.events_walkRule (.sequence (walkEach_truthful ctx children)) type place hs,
        windows_walk ctx _⟩
  | block important normal => by
      refine ⟨fun s rules hs => ctx.events_walkBlock ?_ hs, windows_walk ctx _⟩
      intro w hw
      rcases List.mem_map.mp hw with ⟨named, hnamed, rfl⟩
      rcases List.mem_append.mp hnamed with hnamed | hnamed
      · exact walkEach_truthful ctx important _ (List.of_mem_zip hnamed).2
      · exact walkEach_truthful ctx normal _ (List.of_mem_zip hnamed).2
  | value children => .sequence (walkEach_truthful ctx children)
  | item subject children =>
      ⟨fun _ _ hs => ctx.events_walkItem (.sequence (walkEach_truthful ctx children)) subject hs,
        windows_walk ctx _⟩

/-- The walks of some callbacks are truthful. -/
theorem walkEach_truthful (ctx : WalkContext) :
    (cs : List Callback) → ∀ w ∈ walkEach ctx cs, w.Truthful ctx.source
  | [], w, hw => by simp [walkEach] at hw
  | c :: cs, w, hw => by
      rw [walkEach, List.mem_cons] at hw
      rcases hw with rfl | hw
      · exact walk_truthful ctx c
      · exact walkEach_truthful ctx cs w hw

end

end Callback

/-! ## Ancestors -/

namespace Forest

/-- The start of a located rule. -/
def ruleStart? (nodes : Forest) (source : Source) (id : Nat) : Option Nat :=
  nodes[id]?.bind fun n => n.payload.ruleStart? source n.kind

/-- Kind and payload of a node are read off its skeleton. -/
theorem ruleStart?_skeleton (nodes : Forest) (source : Source) (id : Nat) :
    nodes.skeleton.ruleStart? source id = nodes.ruleStart? source id := by
  rw [ruleStart?, getElem?_skeleton, ruleStart?]
  cases nodes[id]? <;> rfl

/-- The starts of the located rules around a node, the innermost first. -/
def rulesAround (nodes : Forest) (source : Source) (id : Nat) : List Nat :=
  (nodes.ancestors id).filterMap (nodes.ruleStart? source)

/-- If the node was searched for, its place is genuine. -/
def Attests (nodes : Forest) (source : Source) (id : Nat) : Prop :=
  ∀ n : Node, nodes[id]? = some n →
    n.payload.Genuine source (nodes.rulesAround source id) n.kind

/-- The nodes are as they were, but for their ends, and others may have come behind them. -/
def Extends (nodes' nodes : Forest) : Prop :=
  ∃ later, nodes'.skeleton = nodes.skeleton ++ later

namespace Extends

variable {nodes nodes' nodes'' : Forest}

/-- Extending nodes twice extends them. -/
theorem trans (h : nodes''.Extends nodes') (h' : nodes'.Extends nodes) : nodes''.Extends nodes := by
  rcases h with ⟨later, hlater⟩
  rcases h' with ⟨later', hlater'⟩
  exact ⟨later' ++ later, by rw [hlater, hlater', List.append_assoc]⟩

/-- Nodes that are extended keep their skeletons. -/
theorem getElem?_skeleton (h : nodes'.Extends nodes) {id : Nat} (hid : id < nodes.length) :
    nodes'.skeleton[id]? = nodes.skeleton[id]? := by
  rcases h with ⟨later, hlater⟩
  rw [hlater, List.getElem?_append_left (by simpa using hid)]

/-- Nodes that are extended keep their parents. -/
theorem parentOf (h : nodes'.Extends nodes) {id : Nat} (hid : id < nodes.length) :
    nodes'.parentOf id = nodes.parentOf id := by
  rw [← parentOf_skeleton, Forest.parentOf, h.getElem?_skeleton hid, ← Forest.parentOf,
    parentOf_skeleton]

/-- Nodes that are extended keep the starts of their rules. -/
theorem ruleStart? (h : nodes'.Extends nodes) (source : Source) {id : Nat}
    (hid : id < nodes.length) : nodes'.ruleStart? source id = nodes.ruleStart? source id := by
  rw [← ruleStart?_skeleton, Forest.ruleStart?, h.getElem?_skeleton hid, ← Forest.ruleStart?,
    ruleStart?_skeleton]

/-- Nodes that are extended keep the nodes around them. -/
theorem ancestors (h : nodes'.Extends nodes) (hfirst : nodes.ParentsFirst) {id : Nat}
    (hid : id < nodes.length) : nodes'.ancestors id = nodes.ancestors id := by
  have hlength : nodes.length ≤ nodes'.length := by
    rcases h with ⟨later, hlater⟩
    have hlength := congrArg List.length hlater
    simp at hlength
    omega
  exact ancestorsUpTo_congr hfirst (fun i hi => h.parentOf (by omega)) (by omega) (by omega)

/-- Nodes that are extended keep the rules around them. -/
theorem rulesAround (h : nodes'.Extends nodes) (hfirst : nodes.ParentsFirst) (source : Source)
    {id : Nat} (hid : id < nodes.length) :
    nodes'.rulesAround source id = nodes.rulesAround source id := by
  rw [Forest.rulesAround, h.ancestors hfirst hid]
  refine List.filterMap_congr ?_
  intro other hother
  exact h.ruleStart? source (Nat.lt_trans (lt_of_mem_ancestorsUpTo hfirst hother) hid)

/-- A node that is attested stays so. -/
theorem attests (h : nodes'.Extends nodes) (hfirst : nodes.ParentsFirst) {source : Source}
    {id : Nat} (hid : id < nodes.length) (hattests : nodes.Attests source id) :
    nodes'.Attests source id := by
  intro n hn
  have hskeleton := h.getElem?_skeleton hid
  rw [Forest.getElem?_skeleton, Forest.getElem?_skeleton, hn, Option.map_some] at hskeleton
  rcases Option.map_eq_some_iff.mp hskeleton.symm with ⟨n', hn', hreopen⟩
  have hkind : n'.reopen.kind = n.reopen.kind := congrArg Node.kind hreopen
  have hpayload : n'.reopen.payload = n.reopen.payload := congrArg Node.payload hreopen
  have hgenuine := hattests n' hn'
  rw [h.rulesAround hfirst source hid]
  rwa [show n'.payload = n.payload from hpayload, show n'.kind = n.kind from hkind] at hgenuine

end Extends
end Forest

/-! ## Nodes -/

namespace Builder

open Forest

/-- The starts of the located rules that are open, the innermost first. -/
def openRules (b : Builder) : List Nat :=
  b.stack.filterMap (b.nodes.ruleStart? b.source)

/-- Every node that was searched for has a genuine place, and the open containers are the innermost
one and those around it. -/
structure Attested (b : Builder) : Prop where
  attests : ∀ id, id < b.nodes.length → b.nodes.Attests b.source id
  stack : ∀ top rest, b.stack = top :: rest → b.nodes.ancestors top = rest

/-- Nothing was searched for in an outline without nodes. -/
theorem Attested.init (source : Source) : (Builder.init source).Attested where
  attests := by simp [Builder.init]
  stack := by simp [Builder.init]

/-- A visit extends the nodes. -/
theorem extends_visit (b : Builder) (kind : Kind) (payload : Payload) :
    (b.visit kind payload).nodes.Extends b.nodes :=
  ⟨_, skeleton_visit b kind payload⟩

/-- The open rules stay the same where only nodes are added. -/
theorem openRules_of_extends {b b' : Builder} (h : b.Shaped) (hsource : b'.source = b.source)
    (hstack : b'.stack = b.stack) (hextends : b'.nodes.Extends b.nodes) :
    b'.openRules = b.openRules := by
  rw [openRules, hstack, hsource]
  refine List.filterMap_congr ?_
  intro id hid
  exact hextends.ruleStart? b.source (h.stack_lt id hid)

/-- A visit opens no rule. -/
theorem openRules_visit {b : Builder} (h : b.Shaped) (kind : Kind) (payload : Payload) :
    (b.visit kind payload).openRules = b.openRules :=
  openRules_of_extends h (visit_source b kind payload) (visit_stack b kind payload)
    (extends_visit b kind payload)

/-- A located rule that is entered is the innermost open one. -/
theorem openRules_enter {b : Builder} (h : b.Shaped) (kind : Kind) (payload : Payload) :
    openRules { b.visit kind payload with stack := b.nodes.length :: b.stack } =
      (payload.ruleStart? b.source kind).toList ++ b.openRules := by
  have hnew : (b.visit kind payload).nodes.ruleStart? b.source b.nodes.length =
      payload.ruleStart? b.source kind := by
    rw [← ruleStart?_skeleton, skeleton_visit, ← length_skeleton, ruleStart?]
    simp
  have hrules := openRules_visit h kind payload
  rw [openRules, visit_stack, visit_source] at hrules
  simp only [openRules, visit_source]
  rw [List.filterMap_cons, hnew, hrules]
  cases payload.ruleStart? b.source kind <;> rfl

/-- The new node lies in the open containers. -/
theorem Attested.ancestors_visit {b : Builder} (h : b.Attested) (hshape : b.Shaped) (kind : Kind)
    (payload : Payload) :
    (b.visit kind payload).nodes.ancestors b.nodes.length = b.stack := by
  have hparent : (b.visit kind payload).nodes.parentOf b.nodes.length = b.current := by
    rw [← parentOf_skeleton, skeleton_visit, ← length_skeleton, parentOf_append_length]
  rw [ancestors_eq (hshape.visit kind payload).parentsFirst (by simp), hparent, current]
  cases hstack : b.stack with
  | nil => rfl
  | cons top rest =>
      have htop : top < b.nodes.length := hshape.stack_lt top (by simp [hstack])
      simp only [List.head?_cons, (extends_visit b kind payload).ancestors hshape.parentsFirst htop,
        h.stack top rest hstack]

/-- A visit of a node at a genuine place keeps all places genuine. -/
theorem Attested.visit {b : Builder} (h : b.Attested) (hshape : b.Shaped) {kind : Kind}
    {payload : Payload} (hpayload : payload.Genuine b.source b.openRules kind) :
    (b.visit kind payload).Attested := by
  have hextends := extends_visit b kind payload
  constructor
  · intro id hid
    rw [length_visit] at hid
    rw [visit_source]
    rcases Nat.lt_succ_iff_lt_or_eq.mp hid with hid | rfl
    · exact hextends.attests hshape.parentsFirst hid (h.attests id hid)
    · intro n hn
      have hnew : (b.visit kind payload).nodes.skeleton[b.nodes.length]? = some n.reopen := by
        rw [Forest.getElem?_skeleton, hn, Option.map_some]
      rw [skeleton_visit, ← length_skeleton, List.getElem?_append_right (Nat.le_refl _),
        Nat.sub_self, List.getElem?_cons_zero, Option.some.injEq] at hnew
      have hkind : kind = n.kind := congrArg Node.kind hnew
      have hsame : payload = n.payload := congrArg Node.payload hnew
      have hrules := openRules_visit hshape kind payload
      rw [openRules, visit_stack, visit_source] at hrules
      rw [rulesAround, h.ancestors_visit hshape, hrules, ← hkind, ← hsame]
      exact hpayload
  · intro top rest hstack
    rw [visit_stack] at hstack
    rw [hextends.ancestors hshape.parentsFirst (hshape.stack_lt top (by simp [hstack]))]
    exact h.stack top rest hstack

/-- A container at a genuine place may open. -/
theorem Attested.enter {b : Builder} (h : b.Attested) (hshape : b.Shaped) {kind : Kind}
    {payload : Payload} (hpayload : payload.Genuine b.source b.openRules kind) :
    Attested { b.visit kind payload with stack := b.nodes.length :: b.stack } where
  attests := (h.visit hshape hpayload).attests
  stack := by
    intro top rest hstack
    obtain ⟨rfl, rfl⟩ : b.nodes.length = top ∧ b.stack = rest := by simpa using hstack
    exact h.ancestors_visit hshape kind payload

/-- The innermost container may close. -/
theorem Attested.exit {b : Builder} (h : b.Attested) (hshape : b.Shaped) {top : Nat}
    {rest : List Nat} (hstack : b.stack = top :: rest) : Attested { b with stack := rest } where
  attests := h.attests
  stack := by
    intro next outer hrest
    have htop : top < b.nodes.length := hshape.stack_lt top (by simp [hstack])
    have haround := h.stack top rest hstack
    rw [show rest = next :: outer from hrest, ancestors_eq hshape.parentsFirst htop] at haround
    cases hparent : b.nodes.parentOf top with
    | none => simp [hparent] at haround
    | some parent =>
        rw [hparent] at haround
        obtain ⟨rfl, houter⟩ : parent = next ∧ b.nodes.ancestors parent = outer := by
          simpa using haround
        exact houter

/-- A run over two sequences of events comes by the end of the first. -/
theorem exists_run_of_append {b b' : Builder} {events later : List Event}
    (h : b.run (events ++ later) = .ok b') :
    ∃ mid, b.run events = .ok mid ∧ mid.run later = .ok b' := by
  unfold run at h
  rw [List.foldlM_append] at h
  cases hrun : b.run events with
  | error e =>
      unfold run at hrun
      rw [hrun] at h
      cases h
  | ok mid =>
      unfold run at hrun
      rw [hrun] at h
      exact ⟨mid, rfl, h⟩

/-- A container that opens is visited, and is innermost from then on. -/
theorem enter_eq_of_push {b b' : Builder} {kind : Kind} {payload : Payload} {id : Nat}
    (h : b.push (.enter kind payload) = .ok (id, b')) :
    b' = { b.visit kind payload with stack := b.nodes.length :: b.stack } := by
  rcases push_cases h with ⟨_, _, hevent, -, hstate⟩ | ⟨_, _, hevent, -⟩ | ⟨_, _, _, hevent, -⟩
  · cases hevent
    exact hstate
  · cases hevent
  · cases hevent

/-- A container that closes was innermost, and the one around it is again. -/
theorem exit_eq_of_push {b b' : Builder} {kind : Kind} {top id : Nat} {rest : List Nat}
    (hstack : b.stack = top :: rest) (h : b.push (.exit kind) = .ok (id, b')) :
    b' = { b with stack := rest } := by
  rcases push_cases h with ⟨_, _, hevent, -⟩ | ⟨_, _, hevent, -⟩ | ⟨_, _, _, _, hpopped, hstate⟩
  · cases hevent
  · cases hevent
  · rw [hstack] at hpopped
    rw [hstate, (List.cons.inj hpopped).2]

/-- Truthful events keep all places genuine, and leave the open containers as they were. -/
theorem Attested.run {source : Source} {rules : List Nat} {events : List Event}
    (hevents : Truthful source rules events) {b b' : Builder} (h : b.Attested)
    (hshape : b.Shaped) (hsource : b.source = source) (hrules : b.openRules = rules)
    (hrun : b.run events = .ok b') :
    b'.Attested ∧ b'.stack = b.stack ∧ b'.nodes.Extends b.nodes := by
  induction hevents generalizing b b' with
  | nil =>
      obtain rfl : b = b' := by simpa [Builder.run, pure, Except.pure] using hrun
      exact ⟨h, rfl, [], by simp⟩
  | @leaf rules kind payload events hpayload _ ih =>
      subst hsource hrules
      rw [run_leaf] at hrun
      rcases ih (h.visit hshape hpayload) (hshape.visit kind payload) (visit_source b kind payload)
        (openRules_visit hshape kind payload) hrun with ⟨hdone, hstack, hextends⟩
      exact ⟨hdone, by rw [hstack, visit_stack], hextends.trans (extends_visit b kind payload)⟩
  | @container rules kind payload inner outer hpayload _ _ ihInner ihOuter =>
      subst hsource hrules
      rcases run_cons hrun with ⟨id, opened, hpush, hrest⟩
      obtain rfl := enter_eq_of_push hpush
      rcases exists_run_of_append hrest with ⟨mid, hinner, houter⟩
      have hopened := hshape.push hpush
      rcases ihInner (h.enter hshape hpayload) hopened (visit_source b kind payload)
        (openRules_enter hshape kind payload) hinner with ⟨hmid, hstack, hextends⟩
      rcases run_cons houter with ⟨id', closed, hpush', hlater⟩
      obtain rfl := exit_eq_of_push hstack hpush'
      have hmidShape := hopened.run hinner
      have hsource : mid.source = b.source :=
        (source_run hinner).trans (visit_source b kind payload)
      have hgrown := hextends.trans (extends_visit b kind payload)
      rcases ihOuter (hmid.exit hmidShape hstack) (hmidShape.push hpush') hsource
        (openRules_of_extends hshape hsource rfl hgrown) hlater with ⟨hdone, hstack', hextends'⟩
      exact ⟨hdone, hstack', hextends'.trans hgrown⟩

/-- Settling what is pending keeps all places genuine. -/
theorem Attested.finish {b : Builder} (h : b.Attested) (hshape : b.Shaped) {id : Nat}
    (hid : id < b.finish.nodes.length) : b.finish.nodes.Attests b.source id := by
  have hskeleton : b.finish.nodes.skeleton = b.nodes.skeleton :=
    skeleton_resolvePending b 0 b.source.size
  have hlength : b.finish.nodes.length = b.nodes.length := by
    rw [← length_skeleton, hskeleton, length_skeleton]
  have hextends : b.finish.nodes.Extends b.nodes := ⟨[], by rw [hskeleton, List.append_nil]⟩
  rw [hlength] at hid
  exact hextends.attests hshape.parentsFirst hid (h.attests id hid)

end Builder

/-! ## All places of an analysis -/

/-- The starts of the located rules around a node, the innermost first. -/
def Outline.rulesAround (o : Outline) (id : Nat) : List Nat :=
  o.nodes.rulesAround o.source id

namespace Callback

/-- Whatever the engine reports on a stylesheet that it has read, where the source is searched every
place that was found is genuine: it converts to an offset, which lies behind the start of the
innermost located rule around the node and before the end of every located rule around it; and
there a whole name of the source starts, which is that of the node and is followed by what the kind
of the node asks for. -/
theorem scanned_places_are_genuine (source : Source) (callbacks : List Callback)
    (printed : String) :
    ∃ a, Analysis.run source true (.accepted callbacks printed) = .ok a ∧
      ∀ id n p, a.outline.node? id = some n → n.payload.location = some ⟨p, .scanned⟩ →
        ∃ offset, source.offsetOf p = .ok offset ∧
          GenuineAt source (a.outline.rulesAround id) n.kind n.payload.label offset := by
  rcases exists_outline source true callbacks with ⟨b, index, ps, hrun, -, -, -, -, hindex, -⟩
  refine ⟨_, analysis_eq hrun hindex printed, ?_⟩
  intro id n p hn hp
  have htruthful : Truthful source [] (events ⟨source, true⟩ callbacks) :=
    (Walk.Truthful.sequence (walkEach_truthful ⟨source, true⟩ callbacks)).events Scanner.init []
      (Scanner.Watches.init source)
  have hshape := Builder.Shaped.init source
  have hattested := ((Builder.Attested.init source).run htruthful hshape rfl rfl hrun).1
  have hsource : b.source = source := Builder.source_run hrun
  have hattests := hattested.finish (hshape.run hrun) (List.getElem?_eq_some_iff.mp hn).1
  rw [hsource] at hattests
  have hgenuine := hattests n hn p hp
  rwa [← hsource] at hgenuine ⊢

/-- A declaration behind a vendor mark, with a call as its value, in a rule in a media rule. -/
def nestedDeclaration : List Callback :=
  [.rule .media (some ⟨0, 1⟩)
    [.rule .style (some ⟨0, 10⟩)
      [.block [] [.item (.property "top") [.item (.function "calc" 1) []]]]]]

/-- The text of the declaration and the rules around it. -/
def nestedSource : Source :=
  ⟨"@media x\x7bb\x7b-ms-TOP/**/:calc(1)\x7d\x7d".toList⟩

/-- The declaration in the nested rule stands behind the starts of both rules around it. -/
theorem scanned_places_are_genuine_nestedDeclaration :
    ∃ a n, Analysis.run nestedSource true (.accepted nestedDeclaration "") = .ok a ∧
      a.outline.node? 2 = some n ∧ n.payload.location = some ⟨⟨0, 11⟩, .scanned⟩ ∧
      ∃ offset, nestedSource.offsetOf ⟨0, 11⟩ = .ok offset ∧
        GenuineAt nestedSource [9, 0] .declaration "top" offset := by
  rcases scanned_places_are_genuine nestedSource nestedDeclaration "" with ⟨a, hrun, hall⟩
  have hread : (Analysis.run nestedSource true (.accepted nestedDeclaration "")).map
      (fun a => (a.outline.node? 2, a.outline.rulesAround 2)) =
      .ok (some ⟨.declaration, ⟨"top", none, some ⟨⟨0, 11⟩, .scanned⟩⟩, 2, some 1, 11, some 30⟩,
        [9, 0]) := rfl
  rw [hrun] at hread
  rcases Prod.mk.inj (Except.ok.inj hread) with ⟨hnode, hrules⟩
  refine ⟨a, _, hrun, hnode, rfl, ?_⟩
  have hgenuine := hall 2 _ _ hnode rfl
  rwa [hrules] at hgenuine

end Callback
end StyleAtlas
