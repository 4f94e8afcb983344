import Mathlib.Data.List.DropRight
import StyleAtlas.Proofs.Sheet.Points
import StyleAtlas.Sheet.Parser

/-!
# Sheets behind other text

What other text in front of a sheet changes: its lines and offsets move by those of the text in
front, and its columns move on the first line only.  Each stage of reading keeps to this, so the
pieces of the tokens are the same pieces elsewhere, and so are the nodes and the errors that come of
them, whatever was read before.

Main results:

- Definition `Sheet.Point.shift`: a place of a text behind another text.
- Theorem `Sheet.Point.shift_origin`: shifting is counting on from the end of the text in front.
- Theorem `Sheet.pieces_shift`: the pieces of shifted tokens.
- Theorem `Sheet.assemble_shift`: what shifted pieces make behind nodes that were read before.
-/

namespace StyleAtlas

open Text

/-! ## Places -/

namespace Sheet

namespace Point

/-- A place of a text when other text stands in front of it: on the first line, its column moves by
the last line of the text in front. -/
def shift (front : List Char) (p : Point) : Point :=
  ⟨p.line + front.count '\n',
    if p.line = 1 then p.column + byteSize (front.rtakeWhile (· ≠ '\n')) else p.column,
    p.offset + byteSize front⟩

variable (front : List Char) {p : Point}

/-- Lines that are counted from one go on being so. -/
theorem line_next_pos (h : 0 < p.line) (c : Char) : 0 < (p.next c).line := by
  unfold next
  split
  · exact Nat.succ_pos _
  · exact h

/-- Lines that are counted from one go on being so behind some characters. -/
theorem line_advance_pos (h : 0 < p.line) (cs : List Char) : 0 < (p.advance cs).line := by
  induction cs generalizing p with
  | nil => exact h
  | cons c cs ih => exact ih (line_next_pos h c)

/-- Shifting and counting on may be exchanged, since no place is on a line before the first. -/
theorem shift_next (h : 0 < p.line) (c : Char) :
    (p.next c).shift front = (p.shift front).next c := by
  by_cases hc : c = '\n'
  · -- Behind a line feed the first line is left, and the column is not moved.
    have hlater : p.line ≠ 0 := by omega
    simp [shift, next, hc, hlater]
    omega
  · by_cases hline : p.line = 1
    · simp [shift, next, hc, hline]
      omega
    · simp [shift, next, hc, hline]
      omega

/-- Shifting a place and moving on from it go together. -/
theorem shift_advance (h : 0 < p.line) (cs : List Char) :
    (p.advance cs).shift front = (p.shift front).advance cs := by
  induction cs generalizing p with
  | nil => rfl
  | cons c cs ih => rw [advance_cons, advance_cons, ih (line_next_pos h c), shift_next front h]

/-- The start of a text behind another one is the end of that one. -/
theorem shift_origin : origin.shift front = origin.advance front := by
  induction front using List.reverseRecOn with
  | nil => rfl
  | append_singleton front c ih =>
      rw [advance_append, ← ih, advance_cons, advance_nil]
      by_cases hc : c = '\n'
      · subst hc
        rw [shift, List.rtakeWhile_concat_neg _ _ _ (by simp)]
        simp [shift, next, origin, Nat.add_assoc]
      · rw [shift, List.rtakeWhile_concat_pos _ _ _ (by simp [hc])]
        simp [shift, next, origin, hc, Nat.add_assoc]

/-- The last visible character of a text is shifted with the text. -/
theorem lastVisible?_shift (h : 0 < p.line) (cs : List Char) :
    (p.shift front).lastVisible? cs = (p.lastVisible? cs).map (shift front) := by
  induction cs generalizing p with
  | nil => rfl
  | cons c cs ih =>
      rw [lastVisible?, lastVisible?, ← shift_next front h, ih (line_next_pos h c)]
      cases (p.next c).lastVisible? cs with
      | some last => rfl
      | none =>
          by_cases hc : isBlank c = true
          · simp [hc]
          · simp [hc]

end Point

/-- A span of a text when other text stands in front of it. -/
def Span.shift (front : List Char) (span : Span) : Span :=
  ⟨span.first.shift front, span.last.shift front⟩

/-- The span of a text is shifted with the text. -/
theorem Span.over?_shift (front : List Char) {start : Point} (h : 0 < start.line) (cs : List Char) :
    Span.over? (start.shift front) cs = (Span.over? start cs).map (Span.shift front) := by
  rw [Span.over?, Span.over?, Point.lastVisible?_shift front h, Option.map_map, Option.map_map]
  rfl

end Sheet

/-- An error about a text when other text stands in front of it. -/
def SheetError.shift (front : List Char) : SheetError → SheetError
  | .unclosedBlock brace => .unclosedBlock (brace.shift front)
  | .unclosedComment start => .unclosedComment (start.shift front)
  | .unclosedString start => .unclosedString (start.shift front)
  | .unexpectedClose brace => .unexpectedClose (brace.shift front)
  | .index cause => .index cause

namespace Sheet

/-! ## Pieces -/

/-- An open item when other text stands in front of all of it. -/
def Item.shift (front : List Char) (item : Item) : Item :=
  { item with start := item.start.shift front }

/-- A piece when other text stands in front of it. -/
def Piece.shift (front : List Char) : Piece → Piece
  | .comment start text => .comment (start.shift front) text
  | .opening start header brace => .opening (start.shift front) header (brace.shift front)
  | .statement start text semicolon =>
      .statement (start.shift front) text (semicolon.map (Point.shift front))
  | .closing brace => .closing (brace.shift front)
  | .fault error => .fault (error.shift front)

section Pieces

variable (front : List Char)

/-- An item reads a token in the same way when other text stands in front. -/
theorem feed_shift (item : Item) (p : Point) (t : Token) :
    (item.shift front).feed (p.shift front) t =
      Prod.map (List.map (Piece.shift front)) (Option.map (Item.shift front)) (item.feed p t) := by
  cases t with
  | char c =>
      have hparens : (item.shift front).parens = item.parens := rfl
      simp only [Item.feed, hparens]
      split_ifs <;> rfl
  | quoted content closed => rfl
  | comment content closed => rfl

/-- One token makes the same pieces and leaves the same item open elsewhere. -/
theorem step_shift (p : Point) (item : Option Item) (t : Token) :
    step (p.shift front) (item.map (Item.shift front)) t =
      Prod.map (List.map (Piece.shift front)) (Option.map (Item.shift front)) (step p item t) := by
  cases item with
  | some item => exact feed_shift front item p t
  | none =>
      cases t with
      | char c =>
          simp only [step, between, Option.map_none]
          split_ifs
          · rfl
          · rfl
          · exact feed_shift front (Item.begin p) p (.char c)
      | quoted content closed => rfl
      | comment content closed => rfl

/-- A token that does not end is an error at its shifted place. -/
theorem fault?_shift (p : Point) (t : Token) :
    fault? (p.shift front) t = (fault? p t).map (SheetError.shift front) := by
  cases t with
  | char c => rfl
  | quoted content closed => cases closed <;> rfl
  | comment content closed => cases closed <;> rfl

/-- The pieces of tokens that stand behind other text are their pieces, shifted. -/
theorem pieces_shift {p : Point} (h : 0 < p.line) (item : Option Item) (ts : List Token) :
    pieces (p.shift front) (item.map (Item.shift front)) ts =
      (pieces p item ts).map (Piece.shift front) := by
  induction ts generalizing p item with
  | nil => cases item <;> rfl
  | cons t ts ih =>
      rw [pieces, pieces, fault?_shift, step_shift, ← Point.shift_advance front h]
      cases fault? p t with
      | some error => rfl
      | none =>
          simp only [Option.map_none, Prod.map_fst, Prod.map_snd]
          rw [ih (Point.line_advance_pos h t.text), List.map_append]

end Pieces

/-- A piece that is read from a place on starts on a line that is counted from one. -/
def Piece.Counted : Piece → Prop
  | .comment start _ => 0 < start.line
  | .statement start _ _ => 0 < start.line
  | _ => True

/-- The pieces that a token completes start where it stands, or where the item starts. -/
theorem counted_step {p : Point} (hp : 0 < p.line) {item : Option Item}
    (hitem : ∀ i ∈ item, 0 < i.start.line) (t : Token) :
    (∀ piece ∈ (step p item t).1, piece.Counted) ∧
      ∀ i ∈ (step p item t).2, 0 < i.start.line := by
  have hfeed : ∀ i : Item, 0 < i.start.line →
      (∀ piece ∈ (i.feed p t).1, piece.Counted) ∧ ∀ j ∈ (i.feed p t).2, 0 < j.start.line := by
    intro i hi
    cases t with
    | char c =>
        simp only [Item.feed]
        split_ifs <;> simp [Piece.Counted, hi, Item.extendChar]
    | quoted content closed => simp [Item.feed, Item.extend, hi]
    | comment content closed => simp [Item.feed, Item.extend, hi]
  cases item with
  | some item => exact hfeed item (hitem item rfl)
  | none =>
      cases t with
      | char c =>
          simp only [step, between]
          split_ifs
          · simp
          · simp [Piece.Counted]
          · exact hfeed (Item.begin p) hp
      | quoted content closed => exact hfeed (Item.begin p) hp
      | comment content closed => simp [step, between, Piece.Counted, hp]

/-- All pieces start on lines that are counted from one. -/
theorem counted_pieces {p : Point} (hp : 0 < p.line) {item : Option Item}
    (hitem : ∀ i ∈ item, 0 < i.start.line) (ts : List Token) :
    ∀ piece ∈ pieces p item ts, piece.Counted := by
  induction ts generalizing p item with
  | nil =>
      cases item with
      | none => simp [pieces]
      | some item => simpa [pieces, Piece.Counted] using hitem
  | cons t ts ih =>
      rcases counted_step hp hitem t with ⟨hpieces, hnext⟩
      rw [pieces]
      cases fault? p t with
      | some error => simp [Piece.Counted]
      | none => exact List.forall_mem_append.mpr ⟨hpieces, ih (Point.line_advance_pos hp _) hnext⟩

/-! ## Nodes -/

namespace Node

mutual

/-- A node of a text when other text stands in front of it: its span moves, and so do those below
it. -/
def shift (front : List Char) : Node → Node
  | mk content span children => mk content (span.map (Span.shift front)) (shiftAll front children)

/-- Nodes of a text when other text stands in front of it. -/
def shiftAll (front : List Char) : List Node → List Node
  | [] => []
  | n :: ns => shift front n :: shiftAll front ns

end

/-- Nodes are shifted one by one. -/
theorem shiftAll_eq_map (front : List Char) (nodes : List Node) :
    shiftAll front nodes = nodes.map (shift front) := by
  induction nodes with
  | nil => rfl
  | cons n ns ih => rw [shiftAll, ih, List.map_cons]

end Node

section Nodes

variable (front : List Char)

/-- The node of a comment is shifted with it. -/
theorem commentNode_shift {start : Point} (h : 0 < start.line) (text : List Char) :
    commentNode (start.shift front) text = (commentNode start text).shift front := by
  rw [commentNode, commentNode, Node.shift, Span.over?_shift front h]
  rfl

/-- The node of a statement is shifted with it. -/
theorem statementNode?_shift {start : Point} (h : 0 < start.line) (text : List Char)
    (semicolon : Option Point) :
    statementNode? (start.shift front) text (semicolon.map (Point.shift front)) =
      (statementNode? start text semicolon).map (Node.shift front) := by
  unfold statementNode?
  cases Content.ofStatement? text with
  | none => rfl
  | some content =>
      cases semicolon with
      | some last => rfl
      | none =>
          simp only [Option.map_some, Option.map_none, Span.over?_shift front h]
          rfl

/-- The node of a block is shifted with it. -/
theorem blockNode_shift (start : Point) (header : List Char) (closing : Point)
    (children : List Node) :
    blockNode (start.shift front) header (closing.shift front) (children.map (Node.shift front)) =
      (blockNode start header closing children).shift front := by
  rw [blockNode, blockNode, Node.shift, Node.shiftAll_eq_map]
  rfl

end Nodes

/-! ## Assembly -/

/-- Open blocks and finished nodes, the last one first, when other text stands in front of all of
them that was read as `earlier`: at the top, these nodes were finished before. -/
inductive Follows (front : List Char) (earlier : List Node) :
    List Frame → List Node → List Frame → List Node → Prop where
  | top (done : List Node) :
      Follows front earlier [] done [] (done.map (Node.shift front) ++ earlier)
  | inner {frame : Frame} {outer outer' : List Frame} {before : List Node} (done : List Node)
      (houter : Follows front earlier outer frame.before outer' before) :
      Follows front earlier (frame :: outer) done
        (⟨frame.start.shift front, frame.header, frame.brace.shift front, before⟩ :: outer')
        (done.map (Node.shift front))

/-- A node that is finished in both follows, shifted. -/
theorem Follows.cons {front : List Char} {earlier done done' : List Node}
    {frames frames' : List Frame} (h : Follows front earlier frames done frames' done')
    (node : Node) :
    Follows front earlier frames (node :: done) frames' (node.shift front :: done') := by
  cases h with
  | top => exact .top (node :: done)
  | inner _ houter => exact .inner (node :: done) houter

/-- Shifted pieces make the shifted forest behind what was read before, or the shifted error. -/
theorem assemble_shift {front : List Char} {earlier done done' : List Node}
    {frames frames' : List Frame} (h : Follows front earlier frames done frames' done')
    {ps : List Piece} (hps : ∀ piece ∈ ps, piece.Counted) :
    assemble frames' done' (ps.map (Piece.shift front)) =
      match assemble frames done ps with
      | .ok nodes => .ok (earlier.reverse ++ Node.shiftAll front nodes)
      | .error error => .error (error.shift front) := by
  -- What was read before stays at the bottom: only a brace that closes all blocks comes back to it.
  induction ps generalizing frames done frames' done' with
  | nil =>
      cases h with
      | top => simp [assemble, Node.shiftAll_eq_map]
      | inner _ houter => rfl
  | cons piece ps ih =>
      rcases List.forall_mem_cons.mp hps with ⟨hpiece, hrest⟩
      cases piece with
      | fault error => simp only [List.map_cons, Piece.shift, assemble]
      | comment start text =>
          simp only [List.map_cons, Piece.shift, assemble, commentNode_shift front hpiece]
          exact ih (h.cons _) hrest
      | opening start header brace =>
          simp only [List.map_cons, Piece.shift, assemble]
          have hopen : Follows front earlier (⟨start, header, brace, done⟩ :: frames) [] _ _ :=
            .inner [] h
          exact ih hopen hrest
      | statement start text semicolon =>
          simp only [List.map_cons, Piece.shift, assemble, statementNode?_shift front hpiece]
          cases statementNode? start text semicolon with
          | none => exact ih h hrest
          | some node => exact ih (h.cons node) hrest
      | closing brace =>
          cases h with
          | top => rfl
          | @inner frame outer outer' before _ houter =>
              simp only [List.map_cons, Piece.shift, assemble, ← List.map_reverse, blockNode_shift]
              exact ih (houter.cons _) hrest

end Sheet
end StyleAtlas
