import StyleAtlas.Proofs.Outline.Nesting

/-!
# Documents closed by delimiters

In a document whose containers are all closed by a delimiter, ends need not be reported: walking
back recovers them from the starts alone.  A document is a list of items with blanks before,
between and after them; an item is a text, or a header with items behind it and one closing
character.

Main results:

- Definition `Items`: documents, with their text, their events and their marks.
- Theorem `Items.run_events`: the events of a document are accepted, and give the tree of its
  items.
- Theorem `Items.closes`: every node closes where the document says.
- Theorem `Items.outline_recovers`: the outline of a document has exactly the extents of its
  items.
-/

namespace StyleAtlas

/-! ## Documents -/

/-- A text that starts and ends with a visible character. -/
structure Word where
  chars : List Char
  ne_nil : chars ≠ []
  head_visible : Text.isBlank (chars.head ne_nil) = false
  last_visible : Text.isBlank (chars.getLast ne_nil) = false

/-- Nothing is trimmed behind a word. -/
theorem Word.trimEnd_append (word : Word) (cs : List Char) :
    Text.trimEnd (cs ++ word.chars) = cs ++ word.chars := by
  rw [← List.dropLast_concat_getLast word.ne_nil, ← List.append_assoc]
  exact Text.trimEnd_concat _ word.last_visible

/-- A visible character that closes a container. -/
structure Delimiter where
  char : Char
  visible : Text.isBlank char = false

/-- The position of an offset of the source. -/
def Source.place (s : Source) (offset : Nat) : Position :=
  (s.positionOf offset).toOption.getD s.endPosition

/-- A list of items with blanks before, between and after them: a leaf is a text, and a container
is a header, the items in it and a closing delimiter. -/
inductive Items where
  | done (gap : Gap)
  | leaf (gap : Gap) (tag : Tag) (word : Word) (rest : Items)
  | container (gap : Gap) (tag : Tag) (isContainer : tag.kind.isContainer = true) (header : Word)
      (body : Items) (delimiter : Delimiter) (rest : Items)

/-- What a document says of an item: where it stands in the tree, the ends of its own text, and
where its next sibling starts. -/
structure Mark where
  kind : Kind
  depth : Nat
  parent : Option Nat
  start : Nat
  stop : Nat
  next : Option Nat

namespace Items

open Text

/-- The text of the items. -/
def text : Items → List Char
  | done gap => gap.chars
  | leaf gap _ word rest => gap.chars ++ word.chars ++ rest.text
  | container gap _ _ header body delimiter rest =>
      gap.chars ++ header.chars ++ body.text ++ delimiter.char :: rest.text

/-- The number of items at all depths. -/
def count : Items → Nat
  | done _ => 0
  | leaf _ _ _ rest => 1 + rest.count
  | container _ _ _ _ body _ rest => 1 + body.count + rest.count

/-- The start of the first item, when the text of the items stands at an offset. -/
def firstStart? (offset : Nat) : Items → Option Nat
  | done _ => none
  | leaf gap _ _ _ => some (offset + byteSize gap.chars)
  | container gap _ _ _ _ _ _ => some (offset + byteSize gap.chars)

/-- The marks of the items in the order of their starts, when they are numbered from `id`, lie in
`parent` at `depth`, and their text stands at `offset`. -/
def marks : (id : Nat) → (parent : Option Nat) → (depth offset : Nat) → Items → List Mark
  | _, _, _, _, done _ => []
  | id, parent, depth, offset, leaf gap tag word rest =>
      let start := offset + byteSize gap.chars
      let stop := start + byteSize word.chars
      ⟨tag.kind, depth, parent, start, stop, rest.firstStart? stop⟩ ::
        rest.marks (id + 1) parent depth stop
  | id, parent, depth, offset, container gap tag _ header body delimiter rest =>
      let start := offset + byteSize gap.chars
      let inner := start + byteSize header.chars
      let stop := inner + byteSize body.text + delimiter.char.utf8Size
      ⟨tag.kind, depth, parent, start, stop, rest.firstStart? stop⟩ ::
        (body.marks (id + 1) (some id) (depth + 1) inner ++
          rest.marks (id + 1 + body.count) parent depth stop)

/-- The events of a walk over the items, each located at its start. -/
def events (s : Source) : (offset : Nat) → Items → List Event
  | _, done _ => []
  | offset, leaf gap tag word rest =>
      let start := offset + byteSize gap.chars
      .leaf tag.kind (tag.payload (s.place start)) :: rest.events s (start + byteSize word.chars)
  | offset, container gap tag _ header body delimiter rest =>
      let start := offset + byteSize gap.chars
      let inner := start + byteSize header.chars
      .enter tag.kind (tag.payload (s.place start)) ::
        (body.events s inner ++
          .exit tag.kind ::
            rest.events s (inner + byteSize body.text + delimiter.char.utf8Size))

/-- The document as a source. -/
def source (items : Items) : Source :=
  ⟨items.text⟩

/-- There is one mark for each item. -/
@[simp]
theorem length_marks (items : Items) (id : Nat) (parent : Option Nat) (depth offset : Nat) :
    (items.marks id parent depth offset).length = items.count := by
  induction items generalizing id parent depth offset with
  | done gap => rfl
  | leaf gap tag word rest ih => simp [marks, count, ih, Nat.add_comm]
  | container gap tag isContainer header body delimiter rest ihBody ihRest =>
      simp [marks, count, ihBody, ihRest]
      omega

end Items

/-! ## The tree of a document -/

/-- How a node is linked into the tree. -/
def Node.link (n : Node) : Kind × Nat × Option Nat :=
  (n.kind, n.depth, n.parent)

/-- How an item is linked into the tree. -/
def Mark.link (m : Mark) : Kind × Nat × Option Nat :=
  (m.kind, m.depth, m.parent)

namespace Builder

/-- The links of nodes are those with which they were created. -/
theorem map_link_skeleton (nodes : Forest) :
    nodes.skeleton.map Node.link = nodes.map Node.link := by
  simp [Forest.skeleton, Node.link, Node.reopen]

/-- A visit adds one node to the tree. -/
theorem map_link_visit (b : Builder) (kind : Kind) (payload : Payload) :
    (b.visit kind payload).nodes.map Node.link =
      b.nodes.map Node.link ++ [(kind, b.depth, b.current)] := by
  rw [← map_link_skeleton, skeleton_visit, List.map_append, map_link_skeleton]
  rfl

end Builder

namespace Items

open Text

/-- The events of a document are accepted, leave the open containers as they were, and add the
tree of its items. -/
theorem run_events (items : Items) (s : Source) (offset : Nat) (b : Builder) :
    ∃ b', b.run (items.events s offset) = .ok b' ∧ b'.stack = b.stack ∧
      b'.nodes.map Node.link = b.nodes.map Node.link ++
        (items.marks b.nodes.length b.current b.depth offset).map Mark.link := by
  induction items generalizing offset b with
  | done gap => exact ⟨b, rfl, rfl, by simp [marks]⟩
  | leaf gap tag word rest ih =>
      obtain ⟨b', hrun, hstack, hlinks⟩ :=
        ih (offset + byteSize gap.chars + byteSize word.chars)
          (b.visit tag.kind (tag.payload (s.place (offset + byteSize gap.chars))))
      refine ⟨b', ?_, ?_, ?_⟩
      · rw [events, Builder.run_leaf, hrun]
      · rw [hstack, Builder.visit_stack]
      · rw [hlinks, Builder.map_link_visit, Builder.length_visit]
        simp [marks, Mark.link, Builder.current, Builder.depth]
  | container gap tag isContainer header body delimiter rest ihBody ihRest =>
      let payload := tag.payload (s.place (offset + byteSize gap.chars))
      let inner := offset + byteSize gap.chars + byteSize header.chars
      let opened : Builder :=
        { b.visit tag.kind payload with stack := b.nodes.length :: b.stack }
      have hopened : opened.nodes.map Node.link =
          b.nodes.map Node.link ++ [(tag.kind, b.depth, b.current)] :=
        Builder.map_link_visit b tag.kind payload
      have hopenedLength : opened.nodes.length = b.nodes.length + 1 :=
        Builder.length_visit b tag.kind payload
      obtain ⟨filled, hbody, hfilledStack, hfilled⟩ := ihBody inner opened
      rw [hopened, hopenedLength] at hfilled
      -- The container is still there when its closing delimiter comes.
      obtain ⟨n, hnode, hlink⟩ : ∃ n, filled.nodes[b.nodes.length]? = some n ∧
          n.link = (tag.kind, b.depth, b.current) := by
        rw [← Option.map_eq_some_iff, ← List.getElem?_map, hfilled]
        simp
      have hkind : n.kind = tag.kind := congrArg Prod.fst hlink
      have hfilledLength : filled.nodes.length = b.nodes.length + 1 + body.count := by
        have := congrArg List.length hfilled
        simp at this
        omega
      let closed : Builder := { filled with stack := b.stack }
      obtain ⟨b', hrest, hstack, hlinks⟩ :=
        ihRest (inner + byteSize body.text + delimiter.char.utf8Size) closed
      refine ⟨b', ?_, hstack, ?_⟩
      · rw [events, Builder.run_enter b isContainer]
        refine Builder.run_append hbody ?_
        rw [Builder.run_exit hfilledStack hnode hkind]
        exact hrest
      · have hclosedNodes : closed.nodes = filled.nodes := rfl
        rw [hlinks, hclosedNodes, hfilled, hfilledLength]
        have hcurrent : opened.current = some b.nodes.length := rfl
        have hdepth : opened.depth = b.depth + 1 := rfl
        have hclosedCurrent : closed.current = b.current := rfl
        have hclosedDepth : closed.depth = b.depth := rfl
        rw [hcurrent, hdepth, hclosedCurrent, hclosedDepth]
        simp [marks, Mark.link, inner]

end Items

/-! ## The visits of a document -/

/-- The position of a place between two characters leads back to that place. -/
theorem Source.clamp_place {s : Source} {cs ds : List Char} (h : s.chars = cs ++ ds) :
    s.clamp (s.place (Text.byteSize cs)) = Text.byteSize cs := by
  have hle : ¬s.size < Text.byteSize cs := by simp [Source.size, h]
  have hposition : s.positionOf (Text.byteSize cs) =
      .ok (Text.positionIn s.lines 0 (Text.byteSize cs)) := by
    simp [Source.positionOf, hle]
  rw [Source.place, hposition]
  exact Source.clamp_positionOf h hposition

/-- The visit of an item. -/
def Mark.visit (m : Mark) : Visit :=
  ⟨m.depth, some m.start⟩

/-- A node that is announced at the place of an offset was seen at the offset. -/
theorem Tag.offset_payload {s : Source} {cs ds : List Char} (h : s.chars = cs ++ ds) (tag : Tag) :
    (tag.payload (s.place (Text.byteSize cs))).offset s = some (Text.byteSize cs) := by
  simp [Tag.payload, Payload.offset, Source.clamp_place h]

namespace Items

open Text

section Cuts

variable {s : Source} {cs ds : List Char} {gap : Gap} {tag : Tag} {word header : Word}
  {isContainer : tag.kind.isContainer = true} {body rest : Items} {delimiter : Delimiter}

/-- Where the items behind a leaf stand. -/
theorem chars_behind_leaf (h : s.chars = cs ++ (leaf gap tag word rest).text ++ ds) :
    s.chars = (cs ++ gap.chars ++ word.chars) ++ rest.text ++ ds := by
  simp [h, text]

/-- Where the items in a container stand. -/
theorem chars_in_container
    (h : s.chars = cs ++ (container gap tag isContainer header body delimiter rest).text ++ ds) :
    s.chars = (cs ++ gap.chars ++ header.chars) ++ body.text ++
      (delimiter.char :: rest.text ++ ds) := by
  simp [h, text]

/-- Where the items behind a container stand. -/
theorem chars_behind_container
    (h : s.chars = cs ++ (container gap tag isContainer header body delimiter rest).text ++ ds) :
    s.chars = (cs ++ gap.chars ++ header.chars ++ body.text ++ [delimiter.char]) ++ rest.text ++
      ds := by
  simp [h, text]

end Cuts

/-- The events of a document visit its items at their starts. -/
theorem visits_events (items : Items) {s : Source} {cs ds : List Char}
    (h : s.chars = cs ++ items.text ++ ds) (id : Nat) (parent : Option Nat) (depth : Nat)
    (later : List Event) :
    Visit.ofEvents s depth (items.events s (byteSize cs) ++ later) =
      (items.marks id parent depth (byteSize cs)).map Mark.visit ++
        Visit.ofEvents s depth later := by
  induction items generalizing cs ds id parent depth later with
  | done gap => simp [events, marks]
  | leaf gap tag word rest ih =>
      have hstart : s.chars = (cs ++ gap.chars) ++ (word.chars ++ rest.text ++ ds) := by
        simp [h, text]
      have hoffset := tag.offset_payload hstart
      have hrest := ih (chars_behind_leaf h) (id + 1) parent depth later
      simp only [byteSize_append] at hoffset hrest
      simp only [events, marks, List.cons_append, Visit.ofEvents, List.map_cons, hoffset, hrest]
      rfl
  | container gap tag isContainer header body delimiter rest ihBody ihRest =>
      have hstart : s.chars = (cs ++ gap.chars) ++
          (header.chars ++ body.text ++ delimiter.char :: rest.text ++ ds) := by
        simp [h, text]
      have hoffset := tag.offset_payload hstart
      have hrest := ihRest (chars_behind_container h) (id + 1 + body.count) parent depth later
      have hbody := ihBody (chars_in_container h) (id + 1) (some id) (depth + 1)
      simp only [byteSize_append, byteSize_cons, byteSize_nil, Nat.add_zero] at hoffset hrest hbody
      simp only [events, marks, List.cons_append, List.append_assoc, Visit.ofEvents, List.map_cons,
        List.map_append, hoffset, hbody, hrest, Nat.add_sub_cancel]
      rfl

/-! ## Order of the items -/

/-- Items lie in the text of the document, at its depth or deeper. -/
theorem bounds_of_mem_marks (items : Items) {id : Nat} {parent : Option Nat} {depth offset : Nat}
    {m : Mark} (hm : m ∈ items.marks id parent depth offset) :
    offset ≤ m.start ∧ m.start ≤ m.stop ∧ m.stop ≤ offset + byteSize items.text ∧
      depth ≤ m.depth := by
  induction items generalizing id parent depth offset with
  | done gap => simp [marks] at hm
  | leaf gap tag word rest ih =>
      simp only [marks, List.mem_cons] at hm
      simp only [text, byteSize_append]
      rcases hm with rfl | hm
      · dsimp only
        omega
      · have := ih hm
        omega
  | container gap tag isContainer header body delimiter rest ihBody ihRest =>
      simp only [marks, List.mem_cons, List.mem_append] at hm
      simp only [text, byteSize_append, byteSize_cons]
      rcases hm with rfl | hm | hm
      · dsimp only
        omega
      · have := ihBody hm
        omega
      · have := ihRest hm
        omega

/-- The items come in the order of their starts. -/
theorem marks_pairwise (items : Items) (id : Nat) (parent : Option Nat) (depth offset : Nat) :
    (items.marks id parent depth offset).Pairwise fun m m' => m.start ≤ m'.start := by
  induction items generalizing id parent depth offset with
  | done gap => simp [marks]
  | leaf gap tag word rest ih =>
      simp only [marks, List.pairwise_cons]
      refine ⟨?_, ih _ _ _ _⟩
      intro m hm
      have := rest.bounds_of_mem_marks hm
      omega
  | container gap tag isContainer header body delimiter rest ihBody ihRest =>
      simp only [marks, List.pairwise_cons, List.pairwise_append, List.mem_append]
      refine ⟨?_, ihBody _ _ _ _, ihRest _ _ _ _, ?_⟩
      · rintro m (hm | hm)
        · have := body.bounds_of_mem_marks hm
          omega
        · have := rest.bounds_of_mem_marks hm
          omega
      · intro m hm m' hm'
        have := body.bounds_of_mem_marks hm
        have := rest.bounds_of_mem_marks hm'
        omega

/-- Behind items of a depth, or in their place, nothing starts deeper. -/
theorem head_depth_le (items : Items) (id : Nat) (parent : Option Nat) {depth : Nat}
    (offset : Nat) {tail : List Mark} (htail : ∀ t ∈ tail.head?, t.depth ≤ depth) :
    ∀ t ∈ (items.marks id parent depth offset ++ tail).head?, t.depth ≤ depth := by
  cases items with
  | done gap => simpa [marks] using htail
  | leaf gap tag word rest => simp [marks]
  | container gap tag isContainer header body delimiter rest => simp [marks]

/-- What lies deeper right behind an item starts in its text. -/
def Inside : List Mark → Prop
  | [] => True
  | m :: later =>
      (∀ w ∈ later.takeWhile fun w => m.depth < w.depth, w.start ≤ m.stop) ∧ Inside later

/-- Nothing lies deeper in front of an item that does not. -/
theorem takeWhile_eq_nil {depth : Nat} {later : List Mark}
    (h : ∀ t ∈ later.head?, t.depth ≤ depth) :
    (later.takeWhile fun w => depth < w.depth) = [] := by
  cases later with
  | nil => rfl
  | cons t later =>
      have hle : t.depth ≤ depth := h t rfl
      exact List.takeWhile_cons_of_neg (by simpa using hle)

/-- All items start in the texts of the items around them. -/
theorem inside (items : Items) (id : Nat) (parent : Option Nat) {depth : Nat} (offset : Nat)
    {tail : List Mark} (htail : Inside tail) (hhead : ∀ t ∈ tail.head?, t.depth ≤ depth) :
    Inside (items.marks id parent depth offset ++ tail) := by
  induction items generalizing id parent depth offset tail with
  | done gap => simpa [marks] using htail
  | leaf gap tag word rest ih =>
      simp only [marks, List.cons_append, Inside]
      refine ⟨?_, ih _ _ _ htail hhead⟩
      rw [takeWhile_eq_nil (rest.head_depth_le _ _ _ hhead)]
      simp
  | container gap tag isContainer header body delimiter rest ihBody ihRest =>
      have hrest := rest.head_depth_le (id + 1 + body.count) parent (offset + byteSize gap.chars +
        byteSize header.chars + byteSize body.text + delimiter.char.utf8Size) hhead
      simp only [marks, List.cons_append, List.append_assoc, Inside]
      refine ⟨?_, ihBody _ _ _ (ihRest _ _ _ htail hhead) fun t ht => (hrest t ht).trans ?_⟩
      · rw [List.takeWhile_append_of_pos, takeWhile_eq_nil hrest, List.append_nil]
        · intro w hw
          have := body.bounds_of_mem_marks hw
          omega
        · intro w hw
          have := body.bounds_of_mem_marks hw
          simp
          omega
      · omega

end Items

/-! ## Where items close -/

/-- Where the node of an item ends: at the start of its next sibling, at the end of the document
for the last root, and at the end of its own text for every other last child. -/
def Mark.ending (size : Nat) (m : Mark) : Nat :=
  match m.next with
  | some next => next
  | none => if m.depth = 0 then size else m.stop

namespace Items

open Text Visit

/-- Every item closes where its node ends, by what is visited after it. -/
def Closes (s : Source) : List Mark → Prop
  | [] => True
  | m :: later =>
      closing s (later.map Mark.visit) m.depth = m.ending s.size ∧ Closes s later

/-- One level further in is one step further back, when what follows lies further out. -/
theorem closing_tail_succ (s : Source) {depth : Nat} {tail : List Mark}
    (h : ∀ t ∈ tail.head?, t.depth ≤ depth) :
    closing s (tail.map Mark.visit) (depth + 1) =
      stepBack s.chars (closing s (tail.map Mark.visit) depth) := by
  cases tail with
  | nil =>
      simp only [List.map_nil, closing, next?, List.findSome?_nil]
      rw [Function.iterate_succ_apply']
  | cons t tail =>
      have hle : t.depth ≤ depth := h t rfl
      have hnext : ∀ k, t.depth ≤ k →
          next? ((t :: tail).map Mark.visit) k = some (t.start, t.depth) := by
        intro k hk
        simp [next?, Mark.visit, within?, hk]
      have hlevels : depth + 1 - t.depth = (depth - t.depth) + 1 := by omega
      rw [closing, closing, hnext depth hle, hnext (depth + 1) (by omega)]
      dsimp only
      rw [hlevels, Function.iterate_succ_apply']

/-- Right in front of an item, its depth closes at its start. -/
theorem closing_front (s : Source) {items : Items} {id : Nat} {parent : Option Nat}
    {depth offset start : Nat} (h : items.firstStart? offset = some start) (tail : List Mark) :
    closing s ((items.marks id parent depth offset ++ tail).map Mark.visit) depth = start := by
  cases items with
  | done gap => simp [firstStart?] at h
  | leaf gap tag word rest =>
      simp only [firstStart?, Option.some.injEq] at h
      simp [marks, closing, next?, Mark.visit, within?, h]
  | container gap tag isContainer header body delimiter rest =>
      simp only [firstStart?, Option.some.injEq] at h
      simp [marks, closing, next?, Mark.visit, within?, h]

/-- Where the last of the items closes: at the end of the text for roots, else at the last visible
character before the delimiter of the container around them. -/
def LastCloses (s : Source) (depth : Nat) (upTo : List Char) (tail : List Mark) : Prop :=
  closing s (tail.map Mark.visit) depth =
    if depth = 0 then s.size else byteSize (trimEnd upTo)

/-- An item closes at the start of what follows, or where the last item closes. -/
theorem closing_behind {s : Source} {rest : Items} (id : Nat) (parent : Option Nat)
    {cs : List Char} (hcs : trimEnd cs = cs) {depth : Nat} {tail : List Mark}
    (hlast : LastCloses s depth (cs ++ rest.text) tail) :
    closing s ((rest.marks id parent depth (byteSize cs) ++ tail).map Mark.visit) depth =
      match rest.firstStart? (byteSize cs) with
      | some next => next
      | none => if depth = 0 then s.size else byteSize cs := by
  cases hfirst : rest.firstStart? (byteSize cs) with
  | some next => exact closing_front s hfirst tail
  | none =>
      cases rest with
      | done gap =>
          have htrim : trimEnd (cs ++ gap.chars) = cs := by
            rw [trimEnd_append_blank cs gap.blank, hcs]
          simpa [LastCloses, marks, text, htrim] using hlast
      | leaf gap tag word rest => simp [firstStart?] at hfirst
      | container gap tag isContainer header body delimiter rest => simp [firstStart?] at hfirst

/-- A step back from a place with at most blanks between it and a delimiter before it. -/
theorem stepBack_behind {s : Source} {cs gap : List Char} (delimiter : Delimiter)
    (ds : List Char) {place : Nat} (hgap : ∀ c ∈ gap, isBlank c = true)
    (h : s.chars = cs ++ delimiter.char :: gap ++ ds)
    (hplace : place = byteSize (cs ++ delimiter.char :: gap)) :
    stepBack s.chars place = byteSize (trimEnd cs) := by
  rw [h, hplace, stepBack_past_delimiter delimiter.visible hgap]

/-- The items in a container close at the last visible character before its delimiter. -/
theorem closing_inside {s : Source} {rest : Items} (id : Nat) (parent : Option Nat)
    {cs ds : List Char} {delimiter : Delimiter}
    (h : s.chars = (cs ++ [delimiter.char]) ++ rest.text ++ ds) {depth : Nat} {tail : List Mark}
    (hhead : ∀ t ∈ tail.head?, t.depth ≤ depth) (hroot : depth = 0 → ds = [])
    (hlast : LastCloses s depth ((cs ++ [delimiter.char]) ++ rest.text) tail) :
    closing s
        ((rest.marks id parent depth (byteSize (cs ++ [delimiter.char])) ++ tail).map Mark.visit)
        (depth + 1) =
      byteSize (trimEnd cs) := by
  rw [closing_tail_succ s (rest.head_depth_le id parent _ hhead)]
  cases rest with
  | done gap =>
      have hclosing : closing s (tail.map Mark.visit) depth =
          if depth = 0 then s.size else byteSize (trimEnd (cs ++ [delimiter.char] ++ gap.chars)) :=
        hlast
      simp only [marks, List.nil_append, hclosing]
      split
      · rename_i hzero
        refine stepBack_behind delimiter [] gap.blank ?_ ?_
        · simp [h, text, hroot hzero]
        · simp [Source.size, h, text, hroot hzero]
      · refine stepBack_behind delimiter (gap.chars ++ ds) (List.forall_mem_nil _) ?_ ?_
        · simp [h, text]
        · rw [trimEnd_append_blank _ gap.blank, trimEnd_concat cs delimiter.visible]
  | leaf gap tag word rest =>
      rw [closing_front s rfl tail]
      refine stepBack_behind delimiter (word.chars ++ rest.text ++ ds) gap.blank ?_ ?_
      · simp [h, text]
      · simp [Nat.add_assoc]
  | container gap tag isContainer header body closer rest =>
      rw [closing_front s rfl tail]
      refine stepBack_behind delimiter (header.chars ++ body.text ++ closer.char :: rest.text ++ ds)
        gap.blank ?_ ?_
      · simp [h, text]
      · simp [Nat.add_assoc]

/-- What lies deeper does not close an item. -/
theorem closing_over (s : Source) {inner : List Mark} {depth : Nat}
    (h : ∀ m ∈ inner, depth < m.depth) (later : List Mark) :
    closing s ((inner ++ later).map Mark.visit) depth = closing s (later.map Mark.visit) depth := by
  have hnone : next? (inner.map Mark.visit) depth = none := by
    rw [next?_eq_none_iff]
    intro v hv
    obtain ⟨m, hm, rfl⟩ := List.mem_map.mp hv
    exact if_neg (Nat.not_le.mpr (h m hm))
  rw [closing, closing, List.map_append, next?_append, hnone, Option.none_or]

/-- Every item closes where its node ends.  The induction carries where the last item closes: a
container hands it to the items behind it unchanged, and to the items in it moved to the last
visible character before its delimiter. -/
theorem closes (items : Items) {s : Source} {cs ds : List Char}
    (h : s.chars = cs ++ items.text ++ ds) (id : Nat) (parent : Option Nat) {depth : Nat}
    {tail : List Mark} (hhead : ∀ t ∈ tail.head?, t.depth ≤ depth) (hroot : depth = 0 → ds = [])
    (hlast : LastCloses s depth (cs ++ items.text) tail) (htail : Closes s tail) :
    Closes s (items.marks id parent depth (byteSize cs) ++ tail) := by
  induction items generalizing cs ds id parent depth tail with
  | done gap => simpa [marks] using htail
  | leaf gap tag word rest ih =>
      have hrest := chars_behind_leaf h
      have hlast' : LastCloses s depth ((cs ++ gap.chars ++ word.chars) ++ rest.text) tail := by
        simpa [text] using hlast
      have hself := closing_behind (id + 1) parent (word.trimEnd_append (cs ++ gap.chars)) hlast'
      have hlater := ih hrest (id + 1) parent hhead hroot hlast' htail
      simp only [byteSize_append] at hself hlater
      exact ⟨hself, hlater⟩
  | container gap tag isContainer header body delimiter rest ihBody ihRest =>
      have hbody := chars_in_container h
      have hrest := chars_behind_container h
      have hlast' : LastCloses s depth
          ((cs ++ gap.chars ++ header.chars ++ body.text ++ [delimiter.char]) ++ rest.text)
          tail := by
        simpa [text] using hlast
      have hself := closing_behind (id + 1 + body.count) parent
        (trimEnd_concat (cs ++ gap.chars ++ header.chars ++ body.text) delimiter.visible) hlast'
      have hinside := closing_inside (id + 1 + body.count) parent hrest hhead hroot hlast'
      have hbehind := rest.head_depth_le (id + 1 + body.count) parent
        (byteSize (cs ++ gap.chars ++ header.chars ++ body.text ++ [delimiter.char])) hhead
      have hlater := ihBody hbody (id + 1) (some id) (fun t ht => (hbehind t ht).trans (by omega))
        (by simp) hinside (ihRest hrest (id + 1 + body.count) parent hhead hroot hlast' htail)
      simp only [byteSize_append, byteSize_cons, byteSize_nil, Nat.add_zero] at hself hlater
      simp only [marks, List.cons_append, List.append_assoc]
      refine ⟨?_, hlater⟩
      rw [closing_over s fun m hm => (body.bounds_of_mem_marks hm).2.2.2]
      exact hself

/-! ## The outline of a document -/

/-- Items start in their text. -/
theorem le_firstStart? {items : Items} {offset start : Nat}
    (h : items.firstStart? offset = some start) : offset ≤ start := by
  cases items with
  | done gap => simp [firstStart?] at h
  | leaf gap tag word rest =>
      simp only [firstStart?, Option.some.injEq] at h
      omega
  | container gap tag isContainer header body delimiter rest =>
      simp only [firstStart?, Option.some.injEq] at h
      omega

/-- The node of an item ends no earlier than the text of the item. -/
theorem stop_le_ending (items : Items) {id : Nat} {parent : Option Nat} {depth offset size : Nat}
    (hsize : offset + byteSize items.text ≤ size) {m : Mark}
    (hm : m ∈ items.marks id parent depth offset) : m.stop ≤ m.ending size := by
  -- An item ends in the document, and its next sibling starts behind it.
  have hnext : ∀ next, m.next = some next → m.stop ≤ next := by
    clear hsize
    induction items generalizing id parent depth offset with
    | done gap => simp [marks] at hm
    | leaf gap tag word rest ih =>
        simp only [marks, List.mem_cons] at hm
        rcases hm with rfl | hm
        · exact fun next hnext => le_firstStart? hnext
        · exact ih hm
    | container gap tag isContainer header body delimiter rest ihBody ihRest =>
        simp only [marks, List.mem_cons, List.mem_append] at hm
        rcases hm with rfl | hm | hm
        · exact fun next hnext => le_firstStart? hnext
        · exact ihBody hm
        · exact ihRest hm
  have hbounds := items.bounds_of_mem_marks hm
  unfold Mark.ending
  split
  · rename_i next hsome
    exact hnext next hsome
  · split <;> omega

/-- The visits behind an item close its node where it ends. -/
theorem Closes.split {s : Source} {before later : List Mark} {m : Mark}
    (h : Closes s (before ++ m :: later)) :
    closing s (later.map Mark.visit) m.depth = m.ending s.size := by
  induction before with
  | nil => exact h.1
  | cons t before ih => exact ih h.2

/-- What lies deeper behind an item, with nothing else in between, starts in its text. -/
theorem Inside.split {before mid later : List Mark} {m w : Mark}
    (h : Inside (before ++ m :: (mid ++ w :: later))) (hmid : ∀ u ∈ mid, m.depth < u.depth)
    (hw : m.depth < w.depth) : w.start ≤ m.stop := by
  induction before with
  | nil =>
      refine h.1 w ?_
      have hdeep : ∀ u ∈ mid ++ [w], decide (m.depth < u.depth) = true := by
        intro u hu
        rcases List.mem_append.mp hu with hu | hu
        · simpa using hmid u hu
        · simpa [List.mem_singleton.mp hu] using hw
      rw [List.append_cons, List.takeWhile_append_of_pos hdeep]
      simp
  | cons t before ih => exact ih h.2

/-- The items of a whole document. -/
def document (doc : Items) : List Mark :=
  doc.marks 0 none 0 0

/-- The visits of a document are those of its items. -/
theorem visits_document (doc : Items) :
    Visit.ofEvents doc.source 0 (doc.events doc.source 0) = doc.document.map Mark.visit := by
  have hchars : doc.source.chars = [] ++ doc.text ++ [] := by simp [source]
  simpa [document, Visit.ofEvents] using doc.visits_events hchars 0 none 0 []

/-- The offsets of a document ascend. -/
theorem ascending_document (doc : Items) : Ascending (doc.document.map Mark.visit) := by
  have hoffsets : (doc.document.map Mark.visit).filterMap Visit.offset =
      doc.document.map Mark.start := by
    rw [List.filterMap_map, ← List.filterMap_eq_map]
    rfl
  rw [Ascending, hoffsets, List.pairwise_map]
  exact doc.marks_pairwise 0 none 0 0

/-- The items of a document close where their nodes end. -/
theorem closes_document (doc : Items) : Closes doc.source doc.document := by
  have hchars : doc.source.chars = [] ++ doc.text ++ [] := by simp [source]
  have hlast : LastCloses doc.source 0 ([] ++ doc.text) [] := rfl
  simpa [document] using
    doc.closes hchars 0 none (by simp) (fun _ => rfl) hlast trivial

/-- What lies deeper in a document starts in the text of the item around it. -/
theorem inside_document (doc : Items) : Inside doc.document := by
  simpa [document] using doc.inside 0 none 0 (show Inside [] from trivial) (by simp)

/-- The closed form of the extents, on the visits of a document. -/
theorem extent_document (doc : Items) {before later : List Mark} {m : Mark}
    (h : doc.document = before ++ m :: later) :
    Visit.extent doc.source (before.map Mark.visit) m.visit (later.map Mark.visit) =
      ⟨m.start, m.ending doc.source.size⟩ := by
  have hcloses := doc.closes_document
  rw [h] at hcloses
  have hmem : m ∈ doc.marks 0 none 0 0 := by
    change m ∈ doc.document
    rw [h]
    simp
  have hstart : lastOffset (before.map Mark.visit ++ [m.visit]) m.visit.depth = m.start :=
    lastOffset_concat (if_pos le_rfl)
  have hclosing : closing doc.source (later.map Mark.visit) m.visit.depth =
      m.ending doc.source.size := hcloses.split
  have hstop : m.stop ≤ m.ending doc.source.size :=
    doc.stop_le_ending (by simp [source, Source.size]) hmem
  have hbounds := doc.bounds_of_mem_marks hmem
  rw [extent, hstart, hclosing, max_eq_right (by omega)]

/-- The events of a document build an outline with the tree of its items. -/
theorem exists_outline (doc : Items) :
    ∃ o, Outline.ofEvents doc.source (doc.events doc.source 0) = .ok o ∧
      o.nodes.map Node.link = doc.document.map Mark.link := by
  obtain ⟨b, hrun, -, hlinks⟩ := doc.run_events doc.source 0 (Builder.init doc.source)
  refine ⟨b.finish, ?_, ?_⟩
  · rw [Outline.ofEvents, hrun]
    rfl
  · have hnodes : b.finish.nodes = (b.resolvePending 0 b.source.size).nodes := rfl
    rw [hnodes, ← Builder.map_link_skeleton, Builder.skeleton_resolvePending,
      Builder.map_link_skeleton, hlinks]
    rfl

section Outline

variable {doc : Items} {o : Outline}

/-- An outline of a document carries the closed form of its extents. -/
theorem traces_document (ho : Outline.ofEvents doc.source (doc.events doc.source 0) = .ok o) :
    o.Traces doc.source (doc.document.map Mark.visit) := by
  have hasc := doc.ascending_document
  rw [← visits_document] at hasc ⊢
  exact Outline.traces_of_ofEvents ho hasc

/-- The extent of an item runs from its start to where its node ends. -/
theorem extentOf_document
    (ho : Outline.ofEvents doc.source (doc.events doc.source 0) = .ok o) {i : Nat} {m : Mark}
    (hm : doc.document[i]? = some m) :
    o.extentOf i = some ⟨m.start, m.ending doc.source.size⟩ := by
  obtain ⟨hi, rfl⟩ := List.getElem?_eq_some_iff.mp hm
  have hsplit : doc.document = doc.document.take i ++ doc.document[i] ::
      doc.document.drop (i + 1) := by
    simp
  have hvisits := congrArg (List.map Mark.visit) hsplit
  rw [List.map_append, List.map_cons] at hvisits
  have hextent := (traces_document ho).extent _ _ _ hvisits
  rw [extent_document doc hsplit] at hextent
  simpa [Nat.min_eq_left hi.le] using hextent

/-- Every item starts before the node around it ends. -/
theorem startsInside_document
    (ho : Outline.ofEvents doc.source (doc.events doc.source 0) = .ok o) :
    StartsInside doc.source (doc.document.map Mark.visit) o.nodes := by
  have hcarries := (traces_document ho).carries ho
  intro outer inner hinner hencloses
  have hchild := hencloses.depth_eq
  have hbetween := hencloses.between
  simp only [hcarries.depth] at hchild hbetween
  obtain ⟨before, v, mid, w, later, hsplit, rfl, rfl⟩ := exists_split_two hencloses.lt hinner
  have hw : doc.document.map Mark.visit = (before ++ v :: mid) ++ w :: later := by
    simpa using hsplit
  rw [depthAt_split hsplit] at hchild hbetween
  rw [depthAt_split hw] at hchild
  rw [extentAt_split hsplit, extentAt_split hw]
  have hdeep := depth_lt_of_mem hsplit hbetween
  -- Each visit is that of an item.
  obtain ⟨before, fromOuter, hdoc, rfl, hfromOuter⟩ := List.map_eq_append_iff.mp hsplit
  obtain ⟨m, behind, rfl, rfl, hbehind⟩ := List.map_eq_cons_iff.mp hfromOuter
  obtain ⟨mid, fromInner, rfl, rfl, hfromInner⟩ := List.map_eq_append_iff.mp hbehind
  obtain ⟨n, later, rfl, rfl, rfl⟩ := List.map_eq_cons_iff.mp hfromInner
  have hmem : m ∈ doc.document := by
    rw [hdoc]
    simp
  have hdocInner : doc.document = (before ++ m :: mid) ++ n :: later := by simpa using hdoc
  have houterExtent := doc.extent_document hdoc
  have hinnerExtent := doc.extent_document hdocInner
  simp only [List.map_append, List.map_cons] at houterExtent hinnerExtent
  rw [houterExtent, hinnerExtent]
  have hinside := doc.inside_document
  rw [hdoc] at hinside
  have hstart : n.start ≤ m.stop := by
    apply hinside.split
    · intro u hu
      exact hdeep u.visit (List.mem_map_of_mem hu)
    · exact Nat.lt_of_lt_of_eq (Nat.lt_succ_self _) hchild.symm
  exact hstart.trans (doc.stop_le_ending (by simp [source, Source.size]) hmem)

/-- Items in one container, and items in none, have one depth. -/
theorem depthAt_eq_of_siblings
    (ho : Outline.ofEvents doc.source (doc.events doc.source 0) = .ok o) {i j : Nat}
    (hi : i < o.size) (hj : j < o.size) (hparent : o.nodes.parentOf i = o.nodes.parentOf j) :
    depthAt (doc.document.map Mark.visit) i = depthAt (doc.document.map Mark.visit) j := by
  have htraces := traces_document ho
  have hcarries := htraces.carries ho
  simp only [← hcarries.depth]
  have hroot : ∀ {id}, id < o.size → o.nodes.parentOf id = none → o.nodes.depthOf id = 0 := by
    intro id hid hnone
    by_contra hdepth
    obtain ⟨outer, hencloses⟩ := hcarries.exists_encloses id (htraces.size ▸ hid) hdepth
    rw [(Outline.parentOf_eq_some_iff ho hid).mpr hencloses] at hnone
    simp at hnone
  cases hpi : o.nodes.parentOf i with
  | none => rw [hroot hi hpi, hroot hj (hparent ▸ hpi)]
  | some outer =>
      have hdi := ((Outline.parentOf_eq_some_iff ho hi).mp hpi).depth_eq
      have hdj := ((Outline.parentOf_eq_some_iff ho hj).mp (hparent ▸ hpi)).depth_eq
      omega

/-- Of two siblings the first ends before the second starts. -/
theorem stop_le_start_of_siblings
    (ho : Outline.ofEvents doc.source (doc.events doc.source 0) = .ok o) {i j : Nat} (hij : i < j)
    (hj : j < o.size) (hparent : o.nodes.parentOf i = o.nodes.parentOf j) :
    (extentAt doc.source (doc.document.map Mark.visit) i).stop ≤
      (extentAt doc.source (doc.document.map Mark.visit) j).start := by
  have hdepth := depthAt_eq_of_siblings ho (hij.trans hj) hj hparent
  have hlength := (traces_document ho).size
  refine stop_le_start_of_not_quiet doc.ascending_document hij (by omega) hdepth ?_
  intro hquiet
  have hlt : j < doc.document.length := by simpa [hlength] using hj
  have hj' : (doc.document.map Mark.visit)[j]? = some doc.document[j].visit := by simp [hlt]
  have hnone := hquiet j _ hij le_rfl hj'
  rw [hdepth, depthAt, hj'] at hnone
  simp [within?, Mark.visit] at hnone

end Outline

/-- The outline of a document has exactly the extents of its items.  The events of a document are
accepted, and the outline has one node for each item, linked as the items are.  An item with a
next sibling ends at the start of that sibling, the last root at the end of the text, and every
other last item at the end of its own text.  So parents cover their children, and siblings lie
apart. -/
theorem outline_recovers (doc : Items) :
    ∃ o, Outline.ofEvents doc.source (doc.events doc.source 0) = .ok o ∧
      o.nodes.map Node.link = doc.document.map Mark.link ∧
      (∀ i m, doc.document[i]? = some m →
        o.extentOf i = some ⟨m.start, m.ending doc.source.size⟩) ∧
      (∀ inner outer, o.nodes.parentOf inner = some outer →
        ∃ x y, o.extentOf outer = some x ∧ o.extentOf inner = some y ∧ x.covers y = true) ∧
      ∀ i j x y, i ≠ j → o.nodes.parentOf i = o.nodes.parentOf j → o.extentOf i = some x →
        o.extentOf j = some y → x.apart y = true := by
  obtain ⟨o, ho, hlinks⟩ := doc.exists_outline
  have htraces := traces_document ho
  have hnested := (htraces.wellNested_iff ho doc.ascending_document).mpr (startsInside_document ho)
  refine ⟨o, ho, hlinks, fun i m hm => extentOf_document ho hm, hnested.covers, ?_⟩
  intro i j x y hne hparent hx hy
  have hi : i < o.size := Outline.lt_length_of_extentOf hx
  have hj : j < o.size := Outline.lt_length_of_extentOf hy
  rw [htraces.extentOf_eq (htraces.size ▸ hi), Option.some.injEq] at hx
  rw [htraces.extentOf_eq (htraces.size ▸ hj), Option.some.injEq] at hy
  rw [← hx, ← hy]
  rcases Nat.lt_or_gt_of_ne hne with hlt | hgt
  · simp [Extent.apart, stop_le_start_of_siblings ho hlt hj hparent]
  · simp [Extent.apart, stop_le_start_of_siblings ho hgt hi hparent.symm]

end Items
end StyleAtlas
