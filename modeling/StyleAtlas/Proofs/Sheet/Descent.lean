import StyleAtlas.Proofs.Sheet.Iteration

/-!
# Reading by descent

A sheet can be read in one pass, without pieces and without a stack: the nodes of a block are read
in a loop, and an item with a block reads the nodes of that block in turn.  Nothing in the text
bounds this recursion beforehand.  It ends because each iteration moves the cursor, and a block is
read behind the brace that opens it; so the descent has an answer for every text, and the answer is
that of the two passes.

Main definitions:

- `Sheet.Cursor.iterate`, `Sheet.Cursor.readContents`, `Sheet.Cursor.readBlock`: the descent.
- `Sheet.Cursor.parse`: the tree of a text.
- `Sheet.Cursor.Calls`: one block read inside another.

Main results:

- Theorems `Sheet.Cursor.Stands.readContents` and `Sheet.Cursor.Stands.iterate`: the descent answers
  from every place between two characters.
- Theorem `Sheet.Cursor.parse_eq`: reading by descent agrees with reading in two passes.
- Theorem `Sheet.descent_progresses`: iterations and calls move on, and all cuts are in the text.
-/

namespace StyleAtlas
namespace Sheet

open Text (byteSize isBoundary)
open Token (lex)

namespace Cursor

variable (text : List Char)

/-! ## The descent -/

mutual

/-- One iteration over the items of a block with the given brace, or of the text: there are no more
of them, or an item was read, with its node if it has one. -/
def iterate (brace : Option Point) (cursor : Cursor) :
    Option (Except SheetError (Cursor ⊕ (Option Node × Cursor))) := do
  match ← cursor.readNext text brace with
  | .error error => some (.error error)
  | .ok (.done stop) => some (.ok (.inl stop))
  | .ok (.next node behind) => some (.ok (.inr (node, behind)))
  | .ok (.block content start opening) =>
      match ← opening |>.readBlock content start with
      | .error error => some (.error error)
      | .ok (node, behind) => some (.ok (.inr (some node, behind)))
partial_fixpoint

/-- The nodes of a block with the given brace, or of the text, behind those that were read. -/
def readContents (brace : Option Point) (cursor : Cursor) (nodes : List Node) :
    Option (Except SheetError (List Node × Cursor)) := do
  match ← cursor |>.iterate brace with
  | .error error => some (.error error)
  | .ok (.inl stop) => some (.ok (nodes, stop))
  | .ok (.inr (node, behind)) => behind |>.readContents brace (nodes ++ node.toList)
partial_fixpoint

/-- The block whose brace is at a cursor, as the body of what its header says. -/
def readBlock (content : Content) (start : Point) (opening : Cursor) :
    Option (Except SheetError (Node × Cursor)) := do
  let inside ← opening.advance text
  match ← inside |>.readContents (some opening.point) [] with
  | .error error => some (.error error)
  | .ok (nodes, closing) =>
      let behind ← closing.advance text
      some (.ok (.mk content (behind.spanSince start) nodes, behind))
partial_fixpoint

end

/-- The tree of a text. -/
def parse : Option (Except SheetError Node) := do
  match ← readContents text none start [] with
  | .error error => some (.error error)
  | .ok (nodes, _) => some (.ok (.mk .root none nodes))

/-! ## What the descent answers -/

variable {text} {brace : Option Point} {cursor : Cursor} {nodes : List Node}
  {rest back : List Char}

/-- What an iteration comes to where the block inside, if there is one, was read. -/
def stepOver : Cursor ⊕ (Option Node × Cursor) → Step
  | .inl stop => .done stop
  | .inr (node, behind) => .next node behind

/-- What comes of the nodes of a block with the given brace, or of the text, behind those that were
read: the assembly of the rest fails, or it goes on with all nodes in front of what ends the
block. -/
inductive Contents (brace : Option Point) (cursor : Cursor) (nodes : List Node) :
    List Char → Except SheetError (List Node × Cursor) → Prop where
  | fault {rest : List Char} {error : SheetError}
      (hfault : ∀ frames, frames.head?.map Frame.brace = brace →
        assembleFrom frames nodes.reverse cursor.point rest = .error error) :
      Contents brace cursor nodes rest (.error error)
  | done (part back : List Char) (all : List Node) (hends : back.head? = brace.map fun _ => '}')
      (hall : ∀ frames, assembleFrom frames nodes.reverse cursor.point (part ++ back) =
        assembleFrom frames all.reverse (cursor.point.advance part) back) :
      Contents brace cursor nodes (part ++ back) (.ok (all, cursor.pastAll part))

/-- What comes of a block behind its brace: the assembly of the rest fails, or it goes on behind the
closing brace with one more node. -/
inductive Blocks (start : Point) (header : List Char) (opening : Cursor) :
    List Char → Except SheetError (Node × Cursor) → Prop where
  | fault {rest : List Char} {error : SheetError}
      (hfault : ∀ frames done, assembleFrom (⟨start, header, opening.point, done⟩ :: frames) []
        (opening.point.next '{') rest = .error error) :
      Blocks start header opening rest (.error error)
  | closed (inner back : List Char) (node : Node)
      (hnode : ∀ frames done, assembleFrom (⟨start, header, opening.point, done⟩ :: frames) []
          (opening.point.next '{') (inner ++ '}' :: back) =
        assembleFrom frames (node :: done)
          (((opening.point.next '{').advance inner).next '}') back) :
      Blocks start header opening (inner ++ '}' :: back)
        (.ok (node, ((opening.past '{').pastAll inner).past '}'))

/-- A closing brace completes the innermost block. -/
theorem assembleFrom_cons_closing (frame : Frame) (frames : List Frame) (done : List Node)
    (p : Point) (back : List Char) :
    assembleFrom (frame :: frames) done p ('}' :: back) =
      assembleFrom frames
        (blockNode frame.start frame.header p done.reverse :: frame.before) (p.next '}') back := by
  rw [assembleFrom_closing, assemble]
  rfl

/-- A block is read if what is inside is read. -/
theorem Stands.readBlock {opening : Cursor} {start : Point} {header : List Char}
    (h : Stands text opening ('{' :: back)) (hstart : start.offset ≤ opening.point.offset)
    (hinside : ∃ answer,
      readContents text (some opening.point) (opening.past '{') [] = some answer ∧
        Contents (some opening.point) (opening.past '{') [] back answer) :
    ∃ answer, readBlock text (.ofHeader header) start opening = some answer ∧
      Blocks start header opening back answer := by
  rcases hinside with ⟨answer, hanswer, hcontents⟩
  have hpast := h.past
  cases hcontents with
  | @fault rest error hfault =>
      refine ⟨.error error, ?_, .fault fun frames done => hfault _ rfl⟩
      rw [Cursor.readBlock, h.advance, Option.bind_eq_bind, Option.bind_some, hanswer]
      rfl
  | done part behind all hends hall =>
      obtain ⟨others, rfl⟩ := List.head?_eq_some_iff.mp hends
      have hclosing := hpast.pastAll.advance
      have hspan : (((opening.past '{').pastAll part).past '}').spanSince start =
          some ⟨start, (opening.point.next '{').advance part⟩ := by
        have hle : start.offset ≤ ((opening.past '{').pastAll part).point.offset := by
          simp
          omega
        rw [spanSince_past (by decide) hle, point_pastAll, point_past]
      refine ⟨_, ?_, .closed part others (blockNode start header
        ((opening.point.next '{').advance part) all) fun frames done => ?_⟩
      · rw [Cursor.readBlock, h.advance, Option.bind_eq_bind, Option.bind_some, hanswer]
        simp only [Option.bind_eq_bind, Option.bind_some, hclosing, hspan]
        rfl
      · have hclosed := hall (⟨start, header, opening.point, done⟩ :: frames)
        rw [assembleFrom_cons_closing, List.reverse_reverse] at hclosed
        exact hclosed

/-- What comes of a block comes of the iteration that reads its header. -/
theorem Blocks.comes {part header : List Char} {start : Point}
    {answer : Except SheetError (Node × Cursor)}
    (h : Blocks start header (cursor.pastAll part) back answer)
    (hblock : ∀ frames done, assembleFrom frames done cursor.point (part ++ '{' :: back) =
      assembleFrom (⟨start, header, cursor.point.advance part, done⟩ :: frames) []
        ((cursor.point.advance part).next '{') back) :
    Comes brace cursor (part ++ '{' :: back)
      (answer.map fun read => .next (some read.1) read.2) := by
  simp only [← point_pastAll] at hblock
  cases h with
  | fault hfault =>
      exact .fault fun frames done _ => (hblock frames done).trans (hfault frames done)
  | closed inner others node hnode =>
      have hrest : part ++ '{' :: (inner ++ '}' :: others) =
          (part ++ '{' :: (inner ++ ['}'])) ++ others := by simp
      have hbehind : (((cursor.pastAll part).past '{').pastAll inner).past '}' =
          cursor.pastAll (part ++ '{' :: (inner ++ ['}'])) := by simp [pastAll_append]
      simp only [Except.map, hbehind, hrest]
      refine .next _ others (some node) (by simp) fun frames done => ?_
      rw [← hrest, hblock, hnode, ← point_pastAll, ← hbehind]
      simp

/-- An iteration answers if what is inside any block behind the cursor is read. -/
theorem Stands.iterate_of (h : Stands text cursor rest) (brace : Option Point)
    (hinside : ∀ (brace : Point) (inside : Cursor) back, back.length < rest.length →
      Stands text inside back →
      ∃ answer, readContents text (some brace) inside [] = some answer ∧
        Contents (some brace) inside [] back answer) :
    ∃ answer, iterate text brace cursor = some answer ∧
      Comes brace cursor rest (answer.map stepOver) := by
  rcases h.readNext brace with ⟨step, hstep, hcomes⟩
  rw [Cursor.iterate, hstep]
  cases hcomes with
  | @fault rest error hfault => exact ⟨.error error, rfl, .fault hfault⟩
  | done part back hends hsame => exact ⟨.ok (.inl _), rfl, .done part back hends hsame⟩
  | next part back node hne hnode =>
      exact ⟨.ok (.inr (node, _)), rfl, .next part back node hne hnode⟩
  | block part back header start hstart hblock =>
      have hopening : Stands text (cursor.pastAll part) ('{' :: back) := h.pastAll
      rw [← point_pastAll] at hstart
      rcases hopening.readBlock hstart (hinside _ _ back (by simp; omega) hopening.past) with
        ⟨answer, hanswer, hblocks⟩
      have hread : Comes brace cursor (part ++ '{' :: back) _ := hblocks.comes hblock
      simp only [Option.bind_eq_bind, Option.bind_some, hanswer]
      rcases answer with error | ⟨node, behind⟩
      · exact ⟨.error error, rfl, hread⟩
      · exact ⟨.ok (.inr (some node, behind)), rfl, hread⟩

/-- An item that was read may stand in front of what comes of the nodes behind it. -/
theorem Contents.item_append {part : List Char} {node : Option Node}
    {answer : Except SheetError (List Node × Cursor)}
    (h : Contents brace (cursor.pastAll part) (nodes ++ node.toList) back answer)
    (hnode : ∀ frames done, assembleFrom frames done cursor.point (part ++ back) =
      assembleFrom frames (node.toList ++ done) (cursor.point.advance part) back) :
    Contents brace cursor nodes (part ++ back) answer := by
  have hreverse : (nodes ++ node.toList).reverse = node.toList ++ nodes.reverse := by
    cases node <;> simp
  have hstep := fun frames => hnode frames nodes.reverse
  simp only [← hreverse, ← point_pastAll] at hstep
  cases h with
  | fault hfault => exact .fault fun frames hbrace => (hstep frames).trans (hfault frames hbrace)
  | done inner others all hends hall =>
      rw [← pastAll_append, ← List.append_assoc]
      refine .done _ others all hends fun frames => ?_
      rw [List.append_assoc, hstep, hall, point_pastAll, Point.advance_append]

/-- The nodes of a block, or of the text, are read from every place between two characters. -/
theorem Stands.readContents (h : Stands text cursor rest) (brace : Option Point)
    (nodes : List Node) :
    ∃ answer, readContents text brace cursor nodes = some answer ∧
      Contents brace cursor nodes rest answer := by
  -- Blocks inside and items behind both have less text left, so one induction serves both.
  induction hlength : rest.length using Nat.strong_induction_on
    generalizing cursor rest brace nodes with
  | _ length ih =>
    subst hlength
    rcases h.iterate_of brace fun brace inside back hlt hinside =>
      ih back.length hlt hinside (some brace) [] rfl with ⟨answer, hanswer, hcomes⟩
    rw [Cursor.readContents, hanswer, Option.bind_eq_bind, Option.bind_some]
    rcases answer with error | (stop | ⟨node, behind⟩)
    · cases hcomes with
      | fault hfault =>
          exact ⟨.error error, rfl, .fault fun frames hbrace => hfault frames nodes.reverse hbrace⟩
    · cases hcomes with
      | done part back hends hsame =>
          exact ⟨.ok (nodes, _), rfl, .done part back nodes hends fun frames =>
            hsame frames nodes.reverse⟩
    · cases hcomes with
      | next part back node hne hnode =>
          have hpos := List.length_pos_iff.mpr hne
          rcases ih back.length (by simp; omega) h.pastAll brace (nodes ++ node.toList) rfl with
            ⟨answer, hread, hcontents⟩
          exact ⟨answer, hread, hcontents.item_append hnode⟩

/-- An iteration answers from every place between two characters, blocks inside included. -/
theorem Stands.iterate (h : Stands text cursor rest) (brace : Option Point) :
    ∃ answer, iterate text brace cursor = some answer ∧
      Comes brace cursor rest (answer.map stepOver) :=
  h.iterate_of brace fun brace _ _ _ hinside => hinside.readContents (some brace) []

/-- Reading by descent agrees with reading in two passes, whatever the text. -/
theorem parse_eq (text : List Char) : parse text = some (Sheet.parse text) := by
  rcases (stands_start text).readContents none [] with ⟨answer, hanswer, hcontents⟩
  have hforest : parseForest text = assembleFrom [] [] start.point text := rfl
  rw [parse, hanswer, Sheet.parse, hforest]
  cases hcontents with
  | fault hfault =>
      have herror := hfault [] rfl
      rw [List.reverse_nil] at herror
      rw [herror]
      rfl
  | done part back all hends hall =>
      obtain rfl : back = [] := by simpa using hends
      have hread := hall []
      have hend : assembleFrom [] all.reverse (start.point.advance part) [] =
          .ok all.reverse.reverse := rfl
      rw [List.reverse_nil] at hread
      rw [hread, hend, List.reverse_reverse]
      rfl

/-! ## Progress -/

/-- An iteration that goes on does so behind a part of the text that is not empty. -/
theorem Stands.eq_pastAll_of_iterate (h : Stands text cursor rest) {node : Option Node}
    {behind : Cursor}
    (hiterate : Cursor.iterate text brace cursor = some (.ok (.inr (node, behind)))) :
    ∃ part back, part ≠ [] ∧ rest = part ++ back ∧ behind = cursor.pastAll part := by
  rcases h.iterate brace with ⟨answer, hanswer, hcomes⟩
  obtain rfl := Option.some.inj (hiterate.symm.trans hanswer)
  cases hcomes with
  | next part back node hne hnode => exact ⟨part, back, hne, rfl, rfl⟩

/-- An iteration that comes to a block has come to its brace. -/
theorem Stands.eq_pastAll_of_readNext (h : Stands text cursor rest) {content : Content}
    {start : Point} {opening : Cursor}
    (hread : cursor.readNext text brace = some (.ok (.block content start opening))) :
    ∃ part back, rest = part ++ '{' :: back ∧ opening = cursor.pastAll part := by
  rcases h.readNext brace with ⟨answer, hanswer, hcomes⟩
  obtain rfl := Option.some.inj (hread.symm.trans hanswer)
  cases hcomes with
  | block part back header start hstart hblock => exact ⟨part, back, rfl, rfl⟩

/-- The places at which the iterations of a loop start: the first one, and those behind the items
that are read. -/
inductive Visits (text : List Char) (brace : Option Point) (first : Cursor) : Cursor → Prop where
  | start : Visits text brace first first
  | next {head behind : Cursor} {node : Option Node} (hhead : Visits text brace first head)
      (hiterate : iterate text brace head = some (.ok (.inr (node, behind)))) :
      Visits text brace first behind

/-- The block whose brace is at `outer` reads a block whose brace is at `inner`, as one of its
items. -/
def Calls (text : List Char) (outer inner : Cursor) : Prop :=
  ∃ inside head content start, outer.advance text = some inside ∧
    Visits text (some outer.point) inside head ∧
    head.readNext text (some outer.point) = some (.ok (.block content start inner))

/-- A loop comes to places behind its first one only. -/
theorem Visits.exists_pastAll {first head : Cursor} (h : Visits text brace first head)
    (hfirst : Stands text first rest) :
    ∃ part back, rest = part ++ back ∧ head = first.pastAll part := by
  induction h with
  | start => exact ⟨[], rest, rfl, rfl⟩
  | @next head behind node hhead hiterate ih =>
      rcases ih with ⟨part, back, rfl, rfl⟩
      rcases hfirst.pastAll.eq_pastAll_of_iterate hiterate with ⟨more, others, -, rfl, rfl⟩
      exact ⟨part ++ more, others, by simp, by rw [pastAll_append]⟩

/-- A block inside another starts behind the brace of the other. -/
theorem Calls.exists_pastAll {outer inner : Cursor} (h : Calls text outer inner)
    (houter : Stands text outer rest) :
    ∃ part back, part ≠ [] ∧ rest = part ++ '{' :: back ∧ inner = outer.pastAll part := by
  rcases h with ⟨inside, head, content, start, hadvance, hvisits, hread⟩
  cases rest with
  | nil =>
      obtain rfl := Option.some.inj (houter.advance_end.symm.trans hadvance)
      rcases hvisits.exists_pastAll houter with ⟨part, back, hrest, rfl⟩
      obtain ⟨rfl, rfl⟩ := List.append_eq_nil_iff.mp hrest.symm
      rcases houter.eq_pastAll_of_readNext hread with ⟨more, others, hnil, -⟩
      simp at hnil
  | cons c cs =>
      obtain rfl := Option.some.inj (houter.advance.symm.trans hadvance)
      rcases hvisits.exists_pastAll houter.past with ⟨part, back, rfl, rfl⟩
      rcases houter.past.pastAll.eq_pastAll_of_readNext hread with ⟨more, others, rfl, rfl⟩
      exact ⟨c :: (part ++ more), others, by simp, by simp, by simp [pastAll_append]⟩

end Cursor

open Cursor in
/-- What keeps the descent through a text going: all cuts are inside the text and between two
characters, each iteration ends the loop or moves the cursor on, and each block inside another is
read from a later place on.  So there is an answer, which is that of the two passes. -/
structure Progresses (text : List Char) : Prop where
  /-- A comment is cut out between its delimiters. -/
  comment : ∀ cursor : Cursor, isBoundary text cursor.point.offset = true →
    cursor.startsWith? text ['/', '*'] = some true → ∃ answer, cursor.readComment text = some answer
  /-- An at-rule is cut out behind its name. -/
  atRule : ∀ cursor : Cursor, isBoundary text cursor.point.offset = true →
    cursor.current? text = some (some '@') → ∃ answer, cursor.readAtRule text = some answer
  /-- A rule or declaration is cut out, and cut at its colon and its important mark. -/
  item : ∀ cursor : Cursor, isBoundary text cursor.point.offset = true →
    ∃ answer, cursor.readItem text = some answer
  /-- A value is cut at its important mark. -/
  important : ∀ value, splitImportant? value = some (splitImportant value)
  /-- An iteration answers, and goes on at a later place between two characters, if it does. -/
  iteration : ∀ (brace : Option Point) (cursor : Cursor),
    isBoundary text cursor.point.offset = true →
      ∃ answer, iterate text brace cursor = some answer ∧
        ∀ node behind, answer = .ok (.inr (node, behind)) →
          cursor.point.offset < behind.point.offset ∧ behind.point.offset ≤ byteSize text ∧
            isBoundary text behind.point.offset = true
  /-- A block inside another is read from a later place on. -/
  call : ∀ outer inner : Cursor, isBoundary text outer.point.offset = true →
    Calls text outer inner →
      outer.point.offset < inner.point.offset ∧ isBoundary text inner.point.offset = true
  /-- The descent answers. -/
  answer : Cursor.parse text = some (parse text)

open Cursor in
/-- The descent makes progress through every text, well formed or not. -/
theorem descent_progresses (text : List Char) : Progresses text where
  comment := by
    intro cursor hcursor hopens
    rcases exists_stands hcursor with ⟨rest, h⟩
    rw [h.startsWith?, Option.some.injEq, List.isPrefixOf_iff_prefix] at hopens
    obtain ⟨cs, rfl⟩ := hopens
    rcases h.readComment none with ⟨answer, hanswer, -⟩
    exact ⟨answer, hanswer⟩
  atRule := by
    intro cursor hcursor hkeyword
    rcases exists_stands hcursor with ⟨rest, h⟩
    rw [h.current?, Option.some.injEq] at hkeyword
    obtain ⟨cs, rfl⟩ := List.head?_eq_some_iff.mp hkeyword
    rcases h.readAtRule with ⟨found, -, hread⟩
    exact ⟨_, hread⟩
  item := by
    intro cursor hcursor
    rcases exists_stands hcursor with ⟨rest, h⟩
    rcases h.exists_readItem with ⟨found, -, hread⟩
    exact ⟨_, hread⟩
  important := splitImportant?_eq
  iteration := by
    intro brace cursor hcursor
    rcases exists_stands hcursor with ⟨rest, h⟩
    rcases h.iterate brace with ⟨answer, hanswer, -⟩
    refine ⟨answer, hanswer, ?_⟩
    rintro node behind rfl
    rcases h.eq_pastAll_of_iterate hanswer with ⟨part, back, hne, rfl, rfl⟩
    have hboundary := h.pastAll.isBoundary
    exact ⟨offset_lt_pastAll hne, Text.le_byteSize_of_isBoundary hboundary, hboundary⟩
  call := by
    intro outer inner houter hcalls
    rcases exists_stands houter with ⟨rest, h⟩
    rcases hcalls.exists_pastAll h with ⟨part, back, hne, rfl, rfl⟩
    exact ⟨offset_lt_pastAll hne, h.pastAll.isBoundary⟩
  answer := Cursor.parse_eq text

/-- A block in a block. -/
def nestedBlocks : List Char :=
  ['a', '{', 'b', '{', '}', '}']

open Cursor in
/-- The outer block, whose brace is behind one character, calls the inner one. -/
theorem calls_nestedBlocks :
    Calls nestedBlocks (start.pastAll ['a']) (start.pastAll ['a', '{', 'b']) := by
  let inside := start.pastAll ['a', '{']
  have hblanks : inside.skipBlanks nestedBlocks = some inside := loop_answer rfl
  have hfind : inside.findTerminator nestedBlocks = some (.ok (3, some '{')) :=
    (loop_next rfl).trans (loop_answer rfl)
  have hstop : inside.advanceTo nestedBlocks 3 = some (start.pastAll ['a', '{', 'b']) :=
    (loop_next rfl).trans (loop_answer rfl)
  refine ⟨inside, inside, .rule ['b'], inside.point, rfl, .start, ?_⟩
  have hitem : inside.readVisible nestedBlocks (some (start.pastAll ['a']).point) =
      inside.readItem nestedBlocks := rfl
  rw [readNext, hblanks, Option.bind_eq_bind, Option.bind_some, hitem, readItem, hfind]
  simp only [Option.bind_eq_bind, Option.bind_some, hstop]
  rfl

open Cursor in
/-- The inner block is read from a later place on. -/
theorem descent_progresses_nestedBlocks :
    Calls nestedBlocks (start.pastAll ['a']) (start.pastAll ['a', '{', 'b']) ∧
      (start.pastAll ['a']).point.offset < (start.pastAll ['a', '{', 'b']).point.offset :=
  ⟨calls_nestedBlocks,
    ((descent_progresses nestedBlocks).call _ _ (by decide) calls_nestedBlocks).1⟩

end Sheet
end StyleAtlas
