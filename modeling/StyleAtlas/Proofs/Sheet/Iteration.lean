import StyleAtlas.Proofs.Sheet.Items

/-!
# Iterations over items

A reader of the items of a block goes round a loop.  An iteration skips blanks and looks at one
character to tell a comment, an at-rule and another item, or that there is none.  It answers
whatever comes next, and what it answers is told in the terms of the pieces of a sheet and their
assembly: it is about the next piece.

Main definitions:

- `Sheet.Cursor.readNext`: one iteration, up to the brace of a block.

Main results:

- Definition `Sheet.Cursor.Comes`: what comes of an iteration.
- Theorem `Sheet.Cursor.Finds.comes`: what comes of an item.
- Theorem `Sheet.Cursor.Stands.readNext`: an iteration answers.
-/

namespace StyleAtlas
namespace Sheet

open Text (byteSize isBlank)
open Token (lex textOf)

namespace Cursor

variable (text : List Char)

/-- An iteration behind the blanks that it skips. -/
def readVisible (brace : Option Point) (cursor : Cursor) : Option (Except SheetError Step) := do
  match ← cursor.current? text with
  | none =>
      match brace with
      | some brace => some (.error (.unclosedBlock brace))
      | none => some (.ok (.done cursor))
  | some c =>
      if c = '}' then
        match brace with
        | some _ => some (.ok (.done cursor))
        | none => some (.error (.unexpectedClose cursor.point))
      else if c = ';' then (cursor.advance text).map fun behind => .ok (.next none behind)
      else if ← cursor.startsWith? text ['/', '*'] then cursor.readComment text
      else if c = '@' then cursor.readAtRule text
      else cursor.readItem text

/-- One iteration over the items of a block with the given brace, or of the text, up to the brace of
a block inside. -/
def readNext (brace : Option Point) (cursor : Cursor) : Option (Except SheetError Step) := do
  let first ← cursor.skipBlanks text
  first.readVisible text brace

/-! ## What comes of an iteration -/

variable {text} {cursor : Cursor} {cs rest written back : List Char} {c : Char}
  {found : Except SheetError (List Char × List Char)}

/-- The forest that the rest of a text makes from a place on, inside the given blocks. -/
def assembleFrom (frames : List Frame) (done : List Node) (p : Point) (rest : List Char) :
    Except SheetError (List Node) :=
  assemble frames done (pieces p none (lex .spanning rest))

/-- What comes of an iteration inside a block with the given brace, or at the top, in front of the
rest of the text: the assembly of this rest fails, or it stops in front of what ends the block, or
it goes on behind a part with one more node or none, or it goes on inside another block. -/
inductive Comes (brace : Option Point) (cursor : Cursor) :
    List Char → Except SheetError Step → Prop where
  | fault {rest : List Char} {error : SheetError}
      (hfault : ∀ frames done, frames.head?.map Frame.brace = brace →
        assembleFrom frames done cursor.point rest = .error error) :
      Comes brace cursor rest (.error error)
  | done (part back : List Char) (hends : back.head? = brace.map fun _ => '}')
      (hsame : ∀ frames done, assembleFrom frames done cursor.point (part ++ back) =
        assembleFrom frames done (cursor.point.advance part) back) :
      Comes brace cursor (part ++ back) (.ok (.done (cursor.pastAll part)))
  | next (part back : List Char) (node : Option Node) (hne : part ≠ [])
      (hnode : ∀ frames done, assembleFrom frames done cursor.point (part ++ back) =
        assembleFrom frames (node.toList ++ done) (cursor.point.advance part) back) :
      Comes brace cursor (part ++ back) (.ok (.next node (cursor.pastAll part)))
  | block (part back header : List Char) (start : Point)
      (hstart : start.offset ≤ (cursor.point.advance part).offset)
      (hblock : ∀ frames done, assembleFrom frames done cursor.point (part ++ '{' :: back) =
        assembleFrom (⟨start, header, cursor.point.advance part, done⟩ :: frames) []
          ((cursor.point.advance part).next '{') back) :
      Comes brace cursor (part ++ '{' :: back)
        (.ok (.block (.ofHeader header) start (cursor.pastAll part)))

/-- Blanks and semicolons between items are skipped. -/
theorem assembleFrom_skip (hc : isBlank c = true ∨ c = ';') (frames : List Frame)
    (done : List Node) (p : Point) (cs : List Char) :
    assembleFrom frames done p (c :: cs) = assembleFrom frames done (p.next c) cs := by
  have hinert : Token.isInert c = true := by
    rcases hc with hblank | rfl
    · exact Token.isInert_of_isBlank hblank
    · rfl
  simp only [assembleFrom, Token.lex_cons .spanning hinert, pieces, fault?, step, between,
    if_pos hc, List.nil_append]
  rfl

/-- Blanks make no nodes. -/
theorem assembleFrom_blanks {blanks : List Char} (h : ∀ c ∈ blanks, isBlank c = true)
    (frames : List Frame) (done : List Node) (p : Point) (rest : List Char) :
    assembleFrom frames done p (blanks ++ rest) =
      assembleFrom frames done (p.advance blanks) rest := by
  induction blanks generalizing p with
  | nil => rfl
  | cons c blanks ih =>
      rw [List.cons_append, assembleFrom_skip (Or.inl (h c List.mem_cons_self)),
        ih fun d hd => h d (List.mem_cons_of_mem c hd), Point.advance_cons]

/-- A closing brace between items is a piece of its own. -/
theorem assembleFrom_closing (frames : List Frame) (done : List Node) (p : Point)
    (back : List Char) :
    assembleFrom frames done p ('}' :: back) =
      assemble frames done (.closing p :: pieces (p.next '}') none (lex .spanning back)) := by
  rw [assembleFrom, Token.lex_cons .spanning rfl, pieces]
  simp only [fault?, step, between_closing]
  rfl

/-- Blanks may stand in front of what comes of an iteration. -/
theorem Comes.blanks_append {brace : Option Point} {blanks : List Char}
    {answer : Except SheetError Step} (hblanks : ∀ c ∈ blanks, isBlank c = true)
    (h : Comes brace (cursor.pastAll blanks) rest answer) :
    Comes brace cursor (blanks ++ rest) answer := by
  have hskip := fun frames done => assembleFrom_blanks hblanks frames done cursor.point
  cases h with
  | fault hfault =>
      refine .fault fun frames done hbrace => ?_
      rw [hskip, ← point_pastAll, hfault frames done hbrace]
  | done part back hends hsame =>
      rw [← pastAll_append, ← List.append_assoc]
      refine .done _ back hends fun frames done => ?_
      rw [List.append_assoc, hskip, ← point_pastAll, hsame, point_pastAll, Point.advance_append]
  | next part back node hne hnode =>
      rw [← pastAll_append, ← List.append_assoc]
      refine .next _ back node (by simp [hne]) fun frames done => ?_
      rw [List.append_assoc, hskip, ← point_pastAll, hnode, point_pastAll, Point.advance_append]
  | block part back header start hstart hblock =>
      rw [← pastAll_append, ← List.append_assoc]
      rw [point_pastAll, ← Point.advance_append] at hstart
      refine .block _ back header start hstart fun frames done => ?_
      rw [List.append_assoc, hskip, ← point_pastAll, hblock, point_pastAll, Point.advance_append]

/-- Between its delimiters, a comment at a cursor can be cut out. -/
theorem Stands.slice?_comment {body : List Char}
    (h : Stands text cursor ('/' :: '*' :: (body ++ ['*', '/']) ++ back)) :
    Text.slice? text (cursor.point.offset + 2)
      ((cursor.pastAll ('/' :: '*' :: (body ++ ['*', '/']))).point.offset - 2) = some body := by
  have hslash : '/'.utf8Size = 1 := by decide
  have hstar : '*'.utf8Size = 1 := by decide
  have hopened : Stands text cursor (['/', '*'] ++ (body ++ (['*', '/'] ++ back))) := by
    rwa [← List.append_assoc body]
  have hcut := hopened.pastAll.slice?
  have hinside : (cursor.pastAll ['/', '*']).point.offset = cursor.point.offset + 2 := by
    simp [hslash, hstar]
  have hbehind : (cursor.pastAll ('/' :: '*' :: (body ++ ['*', '/']))).point.offset - 2 =
      cursor.point.offset + 2 + byteSize body := by
    simp [hslash, hstar]
    omega
  rwa [hinside, ← hbehind] at hcut

/-- The node of a comment, from the part between its delimiters. -/
theorem mk_comment_pastAll (cursor : Cursor) (body : List Char) :
    Node.mk (.comment (Text.trim body))
      ((cursor.pastAll ('/' :: '*' :: (body ++ ['*', '/']))).spanSince cursor.point) [] =
        commentNode cursor.point ('/' :: '*' :: (body ++ ['*', '/'])) := by
  have htext : commentText ('/' :: '*' :: (body ++ ['*', '/'])) = Text.trim body := by
    simp [commentText]
  rw [commentNode, htext, spanSince_pastAll (by decide)]

/-- The comment at a cursor is read with what stands between its delimiters. -/
theorem Stands.readComment (h : Stands text cursor ('/' :: '*' :: cs)) (brace : Option Point) :
    ∃ answer, cursor.readComment text = some answer ∧
      Comes brace cursor ('/' :: '*' :: cs) answer := by
  rcases h.skipComment with ⟨skipped, hskip, hskips⟩
  generalize '/' :: '*' :: cs = rest at h hskips ⊢
  cases hskips with
  | @unclosed rest error hlex herror =>
      refine ⟨.error error, by simp [Cursor.readComment, hskip], .fault fun frames done _ => ?_⟩
      simp [assembleFrom, hlex, pieces, herror, assemble]
  | closed content back hlex =>
      obtain ⟨body, rfl, -⟩ : Text.IsComment content :=
        (Token.proper_lex .spanning (content ++ back)).delimited (.comment content true)
          (by simp [hlex]) rfl
      have hsize : ¬(cursor.pastAll ('/' :: '*' :: (body ++ ['*', '/']))).point.offset < 2 := by
        have hslash := '/'.utf8Size_pos
        have hstar := '*'.utf8Size_pos
        simp
        omega
      refine ⟨_, ?_, .next _ back
        (some (commentNode cursor.point ('/' :: '*' :: (body ++ ['*', '/']))))
        (List.cons_ne_nil _ _) fun frames done => ?_⟩
      · simp only [Cursor.readComment, hskip, Option.bind_eq_bind, Option.bind_some, if_neg hsize,
          h.slice?_comment, mk_comment_pastAll]
      · -- The lexer takes the comment as one token, which makes one piece.
        simp only [assembleFrom, hlex, pieces, fault?, step, between, if_true,
          List.singleton_append, assemble]
        rfl

/-- A text that starts visibly, and not with what is read between items, begins an item. -/
theorem exists_begins (hblank : isBlank c = false) (hskip : c ≠ ';' ∧ c ≠ '}')
    (hcomment : ¬['/', '*'] <+: c :: cs) :
    ∃ t ts, lex .spanning (c :: cs) = t :: ts ∧ begins t = true := by
  have hproper := Token.proper_lex .spanning (c :: cs)
  have htext : textOf (lex .spanning (c :: cs)) = c :: cs := Token.flatMap_text_lex .spanning _
  generalize lex .spanning (c :: cs) = ts at hproper htext
  cases hproper with
  | nil => simp at htext
  | @char d ts _ _ =>
      obtain rfl : d = c := (List.cons.inj htext).1
      exact ⟨_, ts, rfl, by simp [begins, hblank, hskip]⟩
  | quoted body _ _ => exact ⟨_, _, rfl, rfl⟩
  | brokenString body _ _ => exact ⟨_, _, rfl, rfl⟩
  | openString body _ => exact ⟨_, _, rfl, rfl⟩
  | @comment content ts hcontent _ =>
      rcases hcontent with ⟨body, rfl, -⟩
      refine absurd ⟨body ++ ['*', '/'] ++ textOf ts, ?_⟩ hcomment
      rw [← htext]
      simp [Token.text]
  | openComment body =>
      refine absurd ⟨body, ?_⟩ hcomment
      rw [← htext]
      simp [Token.text]

/-- The front part of an item is an item, unless it is empty. -/
theorem eq_nil_or_isItem {ts inner us : List Token} {stop : Nat} (h : ts = inner ++ us)
    (hts : ∃ t rest, ts = t :: rest ∧ begins t = true) (hinner : Inside 0 inner stop) :
    inner = [] ∨ IsItem inner stop := by
  cases inner with
  | nil => exact Or.inl rfl
  | cons t inner =>
      rcases hts with ⟨u, rest, rfl, hu⟩
      obtain rfl : u = t := (List.cons.inj h).1
      exact Or.inr ⟨⟨u, inner, rfl, hu⟩, hinner⟩

/-- The pieces of an item that ends in a token that is left open. -/
theorem pieces_fault {inner : List Token} {t : Token} {stop : Nat} {error : SheetError} {p : Point}
    (h : inner = [] ∨ IsItem inner stop)
    (herror : fault? (p.advance (textOf inner)) t = some error) :
    pieces p none (inner ++ [t]) = [.fault error] := by
  rcases h with rfl | hitem
  · rw [textOf, List.flatMap_nil, Point.advance_nil] at herror
    rw [List.nil_append, pieces]
    simp [herror]
  · rcases hitem.exists_pieces p [t] with ⟨next, -, -, -, hpieces⟩
    rw [hpieces, pieces]
    simp [herror]

/-- The statement that an item makes at the end of the text or of the block around it. -/
theorem map_mk_pastAll (hvisible : ∀ c ∈ written.head?, isBlank c = false) :
    (Content.ofStatement? written).map (fun content =>
      Node.mk content ((cursor.pastAll written).spanSince cursor.point) []) =
        statementNode? cursor.point written none := by
  cases written with
  | nil => rfl
  | cons c cs =>
      rw [spanSince_pastAll (hvisible c rfl)]
      rfl

/-- The statement that an item makes at a semicolon. -/
theorem map_mk_past_semicolon (cursor : Cursor) (written : List Char) :
    (Content.ofStatement? written).map (fun content =>
      Node.mk content (((cursor.pastAll written).past ';').spanSince cursor.point) []) =
        statementNode? cursor.point written (some (cursor.point.advance written)) := by
  rw [spanSince_past (by decide) (by simp), point_pastAll]
  rfl

/-- A statement adds its node, if it has one. -/
theorem assemble_statement_toList (frames : List Frame) (done : List Node) (start : Point)
    (text : List Char) (semicolon : Option Point) (rest : List Piece) :
    assemble frames done (.statement start text semicolon :: rest) =
      assemble frames ((statementNode? start text semicolon).toList ++ done) rest := by
  rw [assemble_statement]
  cases statementNode? start text semicolon <;> rfl

section Items

variable {brace : Option Point} {inner : List Token}

/-- An item at the end of the text makes its node, if it has one. -/
theorem comes_last {stop : Nat} (hitem : IsItem (lex .spanning rest) stop) (hne : rest ≠ []) :
    Comes brace cursor rest
      (.ok (.next (statementNode? cursor.point rest none) (cursor.pastAll rest))) := by
  have htext : textOf (lex .spanning rest) = rest := Token.flatMap_text_lex .spanning _
  have hnext : Comes brace cursor (rest ++ []) _ :=
    .next rest [] (statementNode? cursor.point rest none) hne fun frames done => by
      rw [List.append_nil, assembleFrom, hitem.pieces_last, assemble_statement_toList, htext]
      rfl
  rwa [List.append_nil] at hnext

/-- An item in front of an opening brace opens a block. -/
theorem comes_opening (hitem : inner = [] ∨ IsItem inner 0)
    (hlex : lex .spanning (textOf inner ++ '{' :: back) =
      inner ++ .char '{' :: lex .spanning back) :
    Comes brace cursor (textOf inner ++ '{' :: back)
      (.ok (.block (.ofHeader (textOf inner)) cursor.point (cursor.pastAll (textOf inner)))) := by
  refine .block (textOf inner) back (textOf inner) cursor.point (by simp) fun frames done => ?_
  rw [assembleFrom, hlex, pieces_header hitem, assemble]
  rfl

/-- An item in front of a semicolon makes its node, if it has one, and takes the semicolon. -/
theorem comes_semicolon (hitem : IsItem inner 0)
    (hlex : lex .spanning (textOf inner ++ ';' :: back) =
      inner ++ .char ';' :: lex .spanning back) :
    Comes brace cursor (textOf inner ++ ';' :: back)
      (.ok (.next
        (statementNode? cursor.point (textOf inner) (some (cursor.point.advance (textOf inner))))
        ((cursor.pastAll (textOf inner)).past ';'))) := by
  have hnext : Comes brace cursor (textOf inner ++ [';'] ++ back) _ :=
    .next (textOf inner ++ [';']) back (statementNode? cursor.point (textOf inner)
      (some (cursor.point.advance (textOf inner)))) (by simp) fun frames done => by
        rw [List.append_assoc, List.singleton_append, assembleFrom, hlex,
          hitem.pieces_terminator rfl, ending_semicolon, List.singleton_append,
          assemble_statement_toList, Point.advance_append]
        rfl
  rwa [List.append_assoc, List.singleton_append, pastAll_append] at hnext

/-- An item in front of a closing brace makes its node, if it has one, and leaves the brace. -/
theorem comes_closing (hitem : IsItem inner 0) (hne : textOf inner ≠ [])
    (hlex : lex .spanning (textOf inner ++ '}' :: back) =
      inner ++ .char '}' :: lex .spanning back) :
    Comes brace cursor (textOf inner ++ '}' :: back)
      (.ok (.next (statementNode? cursor.point (textOf inner) none)
        (cursor.pastAll (textOf inner)))) := by
  refine .next (textOf inner) ('}' :: back) _ hne fun frames done => ?_
  rw [assembleFrom, hlex, hitem.pieces_terminator rfl, ending_closing, List.cons_append,
    assemble_statement_toList, assembleFrom_closing]
  rfl

/-- At its terminator an item comes to its statement, or to the block that it heads. -/
theorem Finds.comes (h : Finds cursor.point 0 (c :: cs) found) (hblank : isBlank c = false)
    (hskip : c ≠ ';' ∧ c ≠ '}') (hcomment : ¬['/', '*'] <+: c :: cs) :
    Comes brace cursor (c :: cs) (stepFound cursor found) := by
  have hbegins := exists_begins hblank hskip hcomment
  rcases found with error | ⟨written, behind⟩
  · cases h with
    | fault inner hlex hinner herror =>
        refine .fault fun frames done _ => ?_
        have hitem := eq_nil_or_isItem hlex hbegins hinner
        rw [assembleFrom, hlex, pieces_fault hitem herror, assemble]
  have hjoined := h.eq_append
  have hvisible : ∀ d ∈ written.head?, isBlank d = false := by
    intro d hd
    obtain ⟨others, rfl⟩ := List.head?_eq_some_iff.mp hd
    obtain rfl : c = d := (List.cons.inj hjoined).1
    exact hblank
  have hstatement : _ = statementNode? cursor.point written none := map_mk_pastAll hvisible
  cases h with
  | last hinner =>
      have hlast : Comes brace cursor (c :: cs) _ := comes_last ⟨hbegins, hinner⟩ (by simp)
      rw [← hstatement] at hlast
      exact hlast
  | ends inner d back hlex hinner hd =>
      have hitem := eq_nil_or_isItem hlex hbegins hinner
      -- Only an opening brace may stand where the item would begin.
      have hne : d ≠ '{' → textOf inner ≠ [] := by
        intro hbrace hnil
        rw [hnil] at hjoined
        obtain rfl : c = d := (List.cons.inj hjoined).1
        simp [isTerminator, hskip, hbrace] at hd
      have hwhole : d ≠ '{' → IsItem inner 0 := fun hbrace =>
        hitem.resolve_left fun hnil => hne hbrace (by rw [hnil, textOf, List.flatMap_nil])
      rw [hjoined] at hlex ⊢
      simp only [isTerminator, Bool.or_eq_true, beq_iff_eq] at hd
      rcases hd with (rfl | rfl) | rfl
      · exact comes_opening hitem hlex
      · have hsemicolon : Comes brace cursor _ _ := comes_semicolon (hwhole (by decide)) hlex
        rw [← map_mk_past_semicolon] at hsemicolon
        exact hsemicolon
      · have hclosing : Comes brace cursor _ _ :=
          comes_closing (hwhole (by decide)) (hne (by decide)) hlex
        rw [← hstatement] at hclosing
        exact hclosing

end Items

/-- At the end of the text, the text is read, or a block is left open. -/
theorem Stands.readVisible_nil (h : Stands text cursor []) (brace : Option Point) :
    ∃ answer, cursor.readVisible text brace = some answer ∧ Comes brace cursor [] answer := by
  cases brace with
  | none =>
      refine ⟨.ok (.done cursor), by simp [Cursor.readVisible, h.current?], ?_⟩
      exact .done [] [] rfl fun _ _ => rfl
  | some brace =>
      refine ⟨.error (.unclosedBlock brace), by simp [Cursor.readVisible, h.current?], ?_⟩
      refine .fault fun frames done hbrace => ?_
      obtain ⟨frame, hframe, rfl⟩ := Option.map_eq_some_iff.mp hbrace
      obtain ⟨outer, rfl⟩ := List.head?_eq_some_iff.mp hframe
      rfl

/-- At a closing brace, a block is read, or there is none that it closes. -/
theorem Stands.readVisible_closing (h : Stands text cursor ('}' :: cs)) (brace : Option Point) :
    ∃ answer, cursor.readVisible text brace = some answer ∧
      Comes brace cursor ('}' :: cs) answer := by
  cases brace with
  | some brace =>
      refine ⟨.ok (.done cursor), by simp [Cursor.readVisible, h.current?], ?_⟩
      exact .done [] ('}' :: cs) rfl fun _ _ => rfl
  | none =>
      refine ⟨.error (.unexpectedClose cursor.point), by simp [Cursor.readVisible, h.current?], ?_⟩
      refine .fault fun frames done hbrace => ?_
      obtain rfl : frames = [] := by simpa using hbrace
      rw [assembleFrom_closing, assemble]

/-- Where no blank comes next, an iteration answers. -/
theorem Stands.readVisible (h : Stands text cursor rest)
    (hvisible : ∀ c ∈ rest.head?, isBlank c = false) (brace : Option Point) :
    ∃ answer, cursor.readVisible text brace = some answer ∧ Comes brace cursor rest answer := by
  cases rest with
  | nil => exact h.readVisible_nil brace
  | cons c cs =>
      by_cases hclosing : c = '}'
      · subst hclosing
        exact h.readVisible_closing brace
      by_cases hsemicolon : c = ';'
      · subst hsemicolon
        refine ⟨.ok (.next none (cursor.past ';')), ?_, ?_⟩
        · simp [Cursor.readVisible, h.current?, h.advance]
        · exact .next [';'] cs none (by simp) fun frames done =>
            assembleFrom_skip (Or.inr rfl) frames done cursor.point cs
      by_cases hcomment : ['/', '*'].isPrefixOf (c :: cs) = true
      · obtain ⟨others, hothers⟩ := List.isPrefixOf_iff_prefix.mp hcomment
        rw [← hothers] at h ⊢
        rcases h.readComment brace with ⟨answer, hanswer, hcomes⟩
        exact ⟨answer, by simp [Cursor.readVisible, h.current?, h.startsWith?, hanswer], hcomes⟩
      have hprefix : ¬['/', '*'] <+: c :: cs := fun hopens =>
        hcomment (List.isPrefixOf_iff_prefix.mpr hopens)
      by_cases hkeyword : c = '@'
      · subst hkeyword
        rcases h.readAtRule with ⟨found, hfinds, hread⟩
        refine ⟨_, ?_, hfinds.comes (hvisible _ rfl) ⟨hsemicolon, hclosing⟩ hprefix⟩
        simp [Cursor.readVisible, h.current?, h.startsWith?, hread]
      · rcases h.readItem (by simpa using hkeyword) with ⟨found, hfinds, hread⟩
        refine ⟨_, ?_, hfinds.comes (hvisible _ rfl) ⟨hsemicolon, hclosing⟩ hprefix⟩
        simp [Cursor.readVisible, h.current?, h.startsWith?, hclosing, hsemicolon, hcomment,
          hkeyword, hread]

/-- An iteration answers, whatever comes next. -/
theorem Stands.readNext (h : Stands text cursor rest) (brace : Option Point) :
    ∃ answer, cursor.readNext text brace = some answer ∧ Comes brace cursor rest answer := by
  have hblanks : ∀ c ∈ rest.takeWhile isBlank, isBlank c = true := fun c hc =>
    List.mem_takeWhile_imp hc
  have hvisible : ∀ c ∈ (rest.dropWhile isBlank).head?, isBlank c = false := by
    intro c hc
    have hhead := List.head?_dropWhile_not isBlank rest
    rw [Option.mem_def.mp hc] at hhead
    simpa using hhead
  have hfirst : Stands text (cursor.pastAll (rest.takeWhile isBlank)) (rest.dropWhile isBlank) := by
    apply Stands.pastAll
    rwa [List.takeWhile_append_dropWhile]
  rcases hfirst.readVisible hvisible brace with ⟨answer, hanswer, hcomes⟩
  refine ⟨answer, ?_, ?_⟩
  · rw [Cursor.readNext, h.skipBlanks]
    exact hanswer
  · have hall := hcomes.blanks_append hblanks
    rwa [List.takeWhile_append_dropWhile] at hall

end Cursor
end Sheet
end StyleAtlas
