import StyleAtlas.Proofs.Sheet.Cursor
import StyleAtlas.Proofs.Sheet.Rendering

/-!
# Items at a cursor

An item is read in three steps.  A search from the cursor on finds the terminator, which strings,
comments and parentheses hide; the text up to it is cut out, and cut again at its marks; and the
cursor moves to the terminator.  What was found decides what the item is, in the same words as for
the pieces of a sheet.

Main definitions:

- `Sheet.Cursor.findTerminator`: the search for the end of an item.
- `Sheet.splitImportant?`, `Sheet.declaration?`: cuts at marks.
- `Sheet.Cursor.readComment`, `Sheet.Cursor.readAtRule`, `Sheet.Cursor.readItem`: one item, up to
  the brace of its block.

Main results:

- Definition `Sheet.Cursor.Finds`, Theorem `Sheet.Cursor.Stands.findTerminator`: the search answers,
  with what ends the item.
- Theorem `Sheet.splitImportant?_eq`: the important mark is cut off where there is one.
- Theorems `Sheet.Cursor.Stands.readItem` and `Sheet.Cursor.Stands.readAtRule`: items are read up to
  what was found.
-/

namespace StyleAtlas
namespace Sheet

open Text (byteSize isBlank)
open Token (lex lexFrom textOf)

namespace Cursor

variable {text : List Char} {cursor : Cursor} {back : List Char}

/-! ## Terminators -/

/-- The search for a terminator behind a token that was skipped. -/
def searchBehind (parens : Nat) :
    Except SheetError Cursor → (Cursor × Nat) ⊕ Except SheetError (Nat × Option Char)
  | .error error => .inr (.error error)
  | .ok next => .inl (next, parens)

variable (text) in
/-- One token of an item, with some open parentheses before it: a terminator outside of them ends
the search, and so do the end of the text and a token that is left open. -/
def terminatorRound (s : Cursor × Nat) :
    Option ((Cursor × Nat) ⊕ Except SheetError (Nat × Option Char)) := do
  match ← s.1.current? text with
  | none => some (.inr (.ok (s.1.point.offset, none)))
  | some c =>
      if Token.isQuote c then (s.1.skipString text).map (searchBehind s.2)
      else if ← s.1.startsWith? text ['/', '*'] then (s.1.skipComment text).map (searchBehind s.2)
      else if s.2 = 0 ∧ isTerminator c then some (.inr (.ok (s.1.point.offset, some c)))
      else (s.1.advance text).map fun next => .inl (next, parensBehind s.2 c)

variable (text) in
/-- The offset of the terminator of the item at a cursor, and which one it is. -/
def findTerminator (cursor : Cursor) : Option (Except SheetError (Nat × Option Char)) :=
  loop (terminatorRound text) (cursor, 0)

/-- How an item goes on from a place with some open parentheses: it meets a string or comment that
is left open, or it is the first of two parts, where the second is empty at the end of the text and
starts with the terminator otherwise. -/
inductive Finds (p : Point) (parens : Nat) (rest : List Char) :
    Except SheetError (List Char × List Char) → Prop where
  | fault (inner : List Token) {t : Token} {stop : Nat} {error : SheetError}
      (hlex : lex .spanning rest = inner ++ [t]) (hinner : Inside parens inner stop)
      (herror : fault? (p.advance (textOf inner)) t = some error) :
      Finds p parens rest (.error error)
  | last {stop : Nat} (hinner : Inside parens (lex .spanning rest) stop) :
      Finds p parens rest (.ok (rest, []))
  | ends (inner : List Token) (c : Char) (back : List Char)
      (hlex : lex .spanning rest = inner ++ .char c :: lex .spanning back)
      (hinner : Inside parens inner 0) (hc : isTerminator c = true) :
      Finds p parens rest (.ok (textOf inner, c :: back))

/-- What is found behind some text is found with the text in front. -/
def foundBehind (front : List Char) (found : Except SheetError (List Char × List Char)) :
    Except SheetError (List Char × List Char) :=
  found.map fun parts => (front ++ parts.1, parts.2)

/-- What is found at a cursor, as an offset and a terminator. -/
def foundAt (cursor : Cursor) (found : Except SheetError (List Char × List Char)) :
    Except SheetError (Nat × Option Char) :=
  found.map fun parts => (cursor.point.offset + byteSize parts.1, parts.2.head?)

/-- What is found behind some text is found in front of it, further on. -/
theorem foundAt_pastAll (cursor : Cursor) (front : List Char)
    (found : Except SheetError (List Char × List Char)) :
    foundAt (cursor.pastAll front) found = foundAt cursor (foundBehind front found) := by
  cases found <;> simp [foundAt, foundBehind, Except.map, Nat.add_assoc]

variable {p : Point} {parens parens' : Nat} {rest : List Char}
  {found : Except SheetError (List Char × List Char)}

/-- A token inside the item may stand in front of what is found. -/
theorem Finds.cons (t : Token) (h : Finds (p.advance t.text) parens' back found)
    (hlex : lex .spanning (t.text ++ back) = t :: lex .spanning back)
    (hinside : ∀ us stop, Inside parens' us stop → Inside parens (t :: us) stop) :
    Finds p parens (t.text ++ back) (foundBehind t.text found) := by
  cases h with
  | fault inner hrest hinner herror =>
      refine .fault (t :: inner) (by rw [hlex, hrest, List.cons_append]) (hinside _ _ hinner) ?_
      rwa [← Point.advance_append] at herror
  | last hinner => exact .last (by rw [hlex]; exact hinside _ _ hinner)
  | ends inner c behind hrest hinner hc =>
      have hsplit : lex .spanning (t.text ++ back) =
          (t :: inner) ++ .char c :: lex .spanning behind := by rw [hlex, hrest, List.cons_append]
      exact .ends (t :: inner) c behind hsplit (hinside _ _ hinner) hc

/-- The two parts that are found are the whole. -/
theorem Finds.eq_append {written : List Char} (h : Finds p parens rest (.ok (written, back))) :
    rest = written ++ back := by
  cases h with
  | last hinner => rw [List.append_nil]
  | ends inner c behind hlex hinner hc =>
      have htext : ∀ cs, textOf (lex .spanning cs) = cs := Token.flatMap_text_lex .spanning
      have hjoined : textOf (lex .spanning rest) =
          textOf inner ++ c :: textOf (lex .spanning behind) := by
        rw [hlex, textOf, List.flatMap_append, List.flatMap_cons]
        rfl
      rwa [htext, htext] at hjoined

/-- A string or comment is left open inside the item, or stands in front of what is found behind
it. -/
theorem Skips.loop_terminatorRound {token : List Char → Bool → Token}
    {skipped : Except SheetError Cursor} (h : Skips token cursor rest skipped)
    (hround : terminatorRound text (cursor, parens) = some (searchBehind parens skipped))
    (htext : ∀ content closed, (token content closed).text = content)
    (hinside : ∀ content us stop, Inside parens us stop →
      Inside parens (token content true :: us) stop)
    (hback : ∀ content back, content ≠ [] → rest = content ++ back →
      ∃ found, loop (terminatorRound text) (cursor.pastAll content, parens) =
          some (foundAt (cursor.pastAll content) found) ∧
        Finds (cursor.point.advance content) parens back found) :
    ∃ found, loop (terminatorRound text) (cursor, parens) = some (foundAt cursor found) ∧
      Finds cursor.point parens rest found := by
  cases h with
  | @unclosed rest error hlex herror =>
      exact ⟨.error error, loop_answer hround, .fault [] hlex (.nil parens) herror⟩
  | closed content back hlex =>
      have hne : content ≠ [] := by
        rintro rfl
        simpa using congrArg List.length hlex
      rcases hback content back hne rfl with ⟨found, hanswer, hfinds⟩
      refine ⟨foundBehind content found, ?_, ?_⟩
      · rw [← foundAt_pastAll, ← hanswer]
        exact loop_next hround
      · have hcons : Finds cursor.point parens ((token content true).text ++ back)
            (foundBehind (token content true).text found) :=
          Finds.cons _ (by rwa [htext]) (by rwa [htext]) (hinside content)
        rwa [htext] at hcons

/-- The search answers, whatever comes next. -/
theorem Stands.loop_terminatorRound (h : Stands text cursor rest) (parens : Nat) :
    ∃ found, loop (terminatorRound text) (cursor, parens) = some (foundAt cursor found) ∧
      Finds cursor.point parens rest found := by
  -- Every round that goes on has passed over some text, so the induction is on what is left.
  induction hlength : rest.length using Nat.strong_induction_on
    generalizing cursor rest parens with
  | _ length ih =>
    subst hlength
    have hbehind : ∀ parens' content back, content ≠ [] → rest = content ++ back →
        ∃ found, loop (terminatorRound text) (cursor.pastAll content, parens') =
            some (foundAt (cursor.pastAll content) found) ∧
          Finds (cursor.point.advance content) parens' back found := by
      rintro parens' content back hne rfl
      have hpos := List.length_pos_iff.mpr hne
      rw [← point_pastAll]
      exact ih back.length (by simp; omega) h.pastAll parens' rfl
    cases rest with
    | nil =>
        refine ⟨.ok ([], []), loop_answer ?_, .last (.nil parens)⟩
        simp [terminatorRound, h.current?, foundAt, Except.map]
    | cons c cs =>
        by_cases hquote : Token.isQuote c = true
        · rcases h.skipString hquote with ⟨skipped, hskip, hskips⟩
          exact hskips.loop_terminatorRound
            (by simp [terminatorRound, h.current?, hquote, hskip]) (fun _ _ => rfl)
            (fun content us stop => .quoted content) (hbehind parens)
        by_cases hopens : ['/', '*'].isPrefixOf (c :: cs) = true
        · rcases List.isPrefixOf_iff_prefix.mp hopens with ⟨others, hothers⟩
          rw [← hothers] at h hbehind ⊢
          rcases h.skipComment with ⟨skipped, hskip, hskips⟩
          refine hskips.loop_terminatorRound ?_ (fun _ _ => rfl)
            (fun content us stop => .comment content) (hbehind parens)
          have hslash : Token.isQuote '/' = false := by decide
          simp [terminatorRound, h.current?, h.startsWith?, hslash, hskip]
        have hlex : lex .spanning (c :: cs) = .char c :: lex .spanning cs := by
          rw [lex, lexFrom, if_neg hquote, lex]
          rintro others rfl rfl
          exact hopens rfl
        by_cases hends : parens = 0 ∧ isTerminator c = true
        · obtain ⟨rfl, hc⟩ := hends
          refine ⟨.ok ([], c :: cs), loop_answer ?_, .ends [] c cs hlex (.nil 0) hc⟩
          simp [terminatorRound, h.current?, h.startsWith?, hquote, hopens, hc, foundAt, Except.map]
        · rcases hbehind (parensBehind parens c) [c] cs (by simp) rfl with
            ⟨found, hanswer, hfinds⟩
          refine ⟨foundBehind [c] found, ?_, hfinds.cons (.char c) hlex fun us stop => .char ?_⟩
          · rw [← foundAt_pastAll, ← hanswer]
            exact loop_next (by
              simp [terminatorRound, h.current?, h.startsWith?, hquote, hopens, hends, h.advance])
          · simpa using hends

/-- A search for a terminator answers from every place between two characters. -/
theorem Stands.findTerminator (h : Stands text cursor rest) :
    ∃ found, cursor.findTerminator text = some (foundAt cursor found) ∧
      Finds cursor.point 0 rest found :=
  h.loop_terminatorRound 0

end Cursor

/-! ## Marks -/

/-- The offset of the first `mark` in a text. -/
def firstOffset? (mark : Char) (cs : List Char) : Option Nat :=
  (splitFirst? mark cs).map fun parts => byteSize parts.1

/-- The offset of the last `mark` in a text. -/
def lastOffset? (mark : Char) (cs : List Char) : Option Nat :=
  (splitLast? mark cs).map fun parts => byteSize parts.1

/-- A value without its important mark, and whether it had one, cut at the offset of the mark. -/
def splitImportant? (value : List Char) : Option (List Char × Bool) :=
  match lastOffset? '!' value with
  | none => some (value, false)
  | some bang => do
      let after ← Text.sliceFrom? value (bang + 1)
      if Text.equalsIgnoringCase (Text.trim after) importantWord then
        let before ← Text.sliceTo? value bang
        some (Text.trimEnd before, true)
      else some (value, false)

/-- The declaration that a text makes with its first colon, cut at the offset of the colon. -/
def declaration? (written : List Char) : Option (Option Content) :=
  match firstOffset? ':' written with
  | none => some none
  | some colon => do
      let property ← Text.sliceTo? written colon
      let behind ← Text.sliceFrom? written (colon + 1)
      let value ← splitImportant? (Text.trim behind)
      some (some (.declaration (Text.trim property) value.1 value.2))

/-- Behind a mark of one byte a text can be cut. -/
theorem sliceFrom?_mark {mark : Char} (hmark : mark.utf8Size = 1) (front back : List Char) :
    Text.sliceFrom? (front ++ mark :: back) (byteSize front + 1) = some back := by
  have hcut := Text.sliceFrom?_byteSize (front ++ [mark]) back
  simpa [hmark] using hcut

/-- Cutting a value at the offset of its mark is splitting it there. -/
theorem splitImportant?_eq (value : List Char) :
    splitImportant? value = some (splitImportant value) := by
  rw [splitImportant?, splitImportant, lastOffset?]
  cases hsplit : splitLast? '!' value with
  | none => rfl
  | some parts =>
      have hbang : '!'.utf8Size = 1 := by decide
      obtain rfl := eq_append_of_splitLast? hsplit
      simp only [Option.map_some, sliceFrom?_mark hbang, Text.sliceTo?_byteSize,
        Option.bind_eq_bind, Option.bind_some]
      split <;> rfl

/-- What a text says as a declaration, if it has a colon. -/
def Content.declared? (written : List Char) : Option Content :=
  (splitFirst? ':' written).map fun parts =>
    let value := splitImportant (Text.trim parts.2)
    .declaration (Text.trim parts.1) value.1 value.2

/-- Cutting a declaration at the offset of its colon is splitting it there. -/
theorem declaration?_eq (written : List Char) :
    declaration? written = some (Content.declared? written) := by
  rw [declaration?, firstOffset?, Content.declared?]
  cases hsplit : splitFirst? ':' written with
  | none => rfl
  | some parts =>
      have hcolon : ':'.utf8Size = 1 := by decide
      obtain ⟨rfl, -⟩ := eq_append_of_splitFirst? hsplit
      simp only [Option.map_some, sliceFrom?_mark hcolon, Text.sliceTo?_byteSize,
        splitImportant?_eq, Option.bind_eq_bind, Option.bind_some]

/-- A header that does not start with `@` is that of a rule. -/
theorem Content.ofHeader_of_ne {written : List Char} (h : ∀ rest, written ≠ '@' :: rest) :
    ofHeader written = .rule (Text.trim written) := by
  rw [ofHeader]
  exact h

/-- A statement that does not start with `@` is a declaration, or nothing. -/
theorem Content.ofStatement?_of_ne {written : List Char} (h : ∀ rest, written ≠ '@' :: rest) :
    ofStatement? written = declared? written := by
  rw [ofStatement?, declared?]
  exact h

namespace Cursor

variable (text : List Char)

/-! ## Items -/

/-- What one iteration over the items of a block comes to. -/
inductive Step where
  /-- No item is left: the block or the text ends at the cursor. -/
  | done (cursor : Cursor)
  /-- An item was read, with its node if it has one. -/
  | next (node : Option Node) (cursor : Cursor)
  /-- The header of a block was read, whose brace is at the cursor. -/
  | block (content : Content) (start : Point) (cursor : Cursor)

/-- Read the comment at a cursor. -/
def readComment (cursor : Cursor) : Option (Except SheetError Step) := do
  match ← cursor.skipComment text with
  | .error error => some (.error error)
  | .ok behind =>
      if behind.point.offset < 2 then none
      else do
        let body ← Text.slice? text (cursor.point.offset + 2) (behind.point.offset - 2)
        some (.ok (.next
          (some (.mk (.comment (Text.trim body)) (behind.spanSince cursor.point) [])) behind))

/-- The end of an item at its terminator: it opens a block with what its header says, or it is a
statement, of which a semicolon belongs to the item. -/
def endItem (start : Point) (header : Content) (statement : Option (Option Content))
    (cursor : Cursor) (terminator : Option Char) : Option Step :=
  if terminator = some '{' then some (.block header start cursor)
  else do
    let content ← statement
    let behind ← if terminator = some ';' then cursor.advance text else some cursor
    some (.next (content.map fun content => .mk content (behind.spanSince start) []) behind)

/-- Read the at-rule at a cursor. -/
def readAtRule (cursor : Cursor) : Option (Except SheetError Step) := do
  let behindAt ← cursor.advance text
  let (named, name) ← behindAt.readKeyword text
  match ← named.findTerminator text with
  | .error error => some (.error error)
  | .ok (stop, terminator) => do
      let params ← Text.slice? text named.point.offset stop
      let behind ← named.advanceTo text stop
      let content := .atRule name (Text.trim params)
      (endItem text cursor.point content (some (some content)) behind terminator).map .ok

/-- Read the rule or declaration at a cursor. -/
def readItem (cursor : Cursor) : Option (Except SheetError Step) := do
  match ← cursor.findTerminator text with
  | .error error => some (.error error)
  | .ok (stop, terminator) => do
      let written ← Text.slice? text cursor.point.offset stop
      let behind ← cursor.advanceTo text stop
      (endItem text cursor.point (.rule (Text.trim written)) (declaration? written) behind
        terminator).map .ok

/-! ## Items at their terminators -/

variable {text} {cursor : Cursor} {cs rest written back : List Char} {c : Char}
  {found : Except SheetError (List Char × List Char)}

/-- The cursor behind an item, to which a semicolon belongs. -/
def pastSemicolon (cursor : Cursor) (terminator : Option Char) : Cursor :=
  if terminator = some ';' then cursor.past ';' else cursor

/-- What an item comes to at its terminator. -/
def itemStep (start : Point) (header : Content) (statement : Option Content) (cursor : Cursor)
    (terminator : Option Char) : Step :=
  if terminator = some '{' then .block header start cursor
  else
    let behind := cursor.pastSemicolon terminator
    .next (statement.map fun content => .mk content (behind.spanSince start) []) behind

/-- What the item at a cursor comes to, of which the search has found the end. -/
def stepFound (cursor : Cursor) (found : Except SheetError (List Char × List Char)) :
    Except SheetError Step :=
  found.map fun parts =>
    itemStep cursor.point (.ofHeader parts.1) (Content.ofStatement? parts.1)
      (cursor.pastAll parts.1) parts.2.head?

/-- The end of an item can be read wherever its terminator was found. -/
theorem Stands.endItem (h : Stands text cursor back) (start : Point) (header : Content)
    (statement : Option Content) :
    endItem text start header (some statement) cursor back.head? =
      some (itemStep start header statement cursor back.head?) := by
  unfold Cursor.endItem itemStep pastSemicolon
  split
  · rfl
  · by_cases hsemicolon : back.head? = some ';'
    · obtain ⟨cs, rfl⟩ := List.head?_eq_some_iff.mp hsemicolon
      simp [h.advance]
    · simp [hsemicolon]

/-- Whatever comes next, an item can be cut out up to its end. -/
theorem Stands.exists_readItem (h : Stands text cursor rest) :
    ∃ found, Finds cursor.point 0 rest found ∧
      cursor.readItem text = some (found.map fun parts =>
        itemStep cursor.point (.rule (Text.trim parts.1)) (Content.declared? parts.1)
          (cursor.pastAll parts.1) parts.2.head?) := by
  rcases h.findTerminator with ⟨found, hanswer, hfinds⟩
  refine ⟨found, hfinds, ?_⟩
  rcases found with error | ⟨written, back⟩
  · simp [readItem, hanswer, foundAt, Except.map]
  · obtain rfl := hfinds.eq_append
    simp [readItem, hanswer, foundAt, Except.map, h.slice?, h.advanceTo, declaration?_eq,
      h.pastAll.endItem]

/-- A rule or declaration can be read from every place where no at-rule starts. -/
theorem Stands.readItem (h : Stands text cursor rest) (hkeyword : rest.head? ≠ some '@') :
    ∃ found, Finds cursor.point 0 rest found ∧
      cursor.readItem text = some (stepFound cursor found) := by
  rcases h.exists_readItem with ⟨found, hfinds, hread⟩
  refine ⟨found, hfinds, hread.trans ?_⟩
  rcases found with error | ⟨written, back⟩
  · rfl
  · have hhead : ∀ others, written ≠ '@' :: others := by
      rintro others rfl
      exact hkeyword (by rw [hfinds.eq_append]; rfl)
    simp [stepFound, Except.map, Content.ofHeader_of_ne hhead, Content.ofStatement?_of_ne hhead]

/-- Ordinary characters may stand in front of what is found. -/
theorem Finds.chars_append {p : Point} {front : List Char}
    (hfront : ∀ c ∈ front, isOrdinary c = true) (h : Finds (p.advance front) 0 rest found) :
    Finds p 0 (front ++ rest) (foundBehind front found) := by
  induction front generalizing p with
  | nil => cases found <;> exact h
  | cons c front ih =>
      have hc := hfront c List.mem_cons_self
      simp only [isOrdinary, Bool.and_eq_true, Bool.not_eq_true', Bool.or_eq_false_iff,
        beq_eq_false_iff_ne] at hc
      have hparens : parensBehind 0 c = 0 := by rw [parensBehind, if_neg hc.2.1.1, if_neg hc.2.1.2]
      have hrest : Finds (p.next c) 0 (front ++ rest) (foundBehind front found) :=
        ih (fun d hd => hfront d (List.mem_cons_of_mem c hd)) h
      have hcons : Finds p 0 (c :: (front ++ rest)) (foundBehind [c] (foundBehind front found)) :=
        hrest.cons (.char c) (Token.lex_cons .spanning hc.1 _) fun us stop hus =>
          .char (fun _ => hc.2.2) (hparens.symm ▸ hus)
      cases found <;> exact hcons

/-- The name of an at-rule is told from the text up to its end as from all of the text. -/
theorem atRuleOf_keyword {more : List Char} (h : cs.dropWhile isKeywordChar = written ++ more) :
    atRuleOf (cs.takeWhile isKeywordChar ++ written) =
      .atRule (cs.takeWhile isKeywordChar) (Text.trim written) := by
  have hname : ∀ c ∈ cs.takeWhile isKeywordChar, isKeywordChar c = true := fun c hc =>
    List.mem_takeWhile_imp hc
  rw [atRuleOf, List.takeWhile_append_of_pos hname, List.dropWhile_append_of_pos hname]
  cases written with
  | nil => rw [List.takeWhile_nil, List.dropWhile_nil, List.append_nil]
  | cons d written =>
      have hhead := List.head?_dropWhile_not isKeywordChar cs
      rw [h, List.cons_append, List.head?_cons] at hhead
      have hd : ¬isKeywordChar d = true := by simpa using hhead
      rw [List.takeWhile_cons_of_neg hd, List.dropWhile_cons_of_neg hd, List.append_nil]

/-- An at-rule can be read from every place where one starts. -/
theorem Stands.readAtRule (h : Stands text cursor ('@' :: cs)) :
    ∃ found, Finds cursor.point 0 ('@' :: cs) found ∧
      cursor.readAtRule text = some (stepFound cursor found) := by
  have hsplit : cs.takeWhile isKeywordChar ++ cs.dropWhile isKeywordChar = cs :=
    List.takeWhile_append_dropWhile
  have hname : Stands text (cursor.past '@')
      (cs.takeWhile isKeywordChar ++ cs.dropWhile isKeywordChar) := by
    rw [hsplit]
    exact h.past
  rcases hname.pastAll.findTerminator with ⟨found, hanswer, hfinds⟩
  refine ⟨foundBehind ('@' :: cs.takeWhile isKeywordChar) found, ?_, ?_⟩
  · have hordinary : ∀ c ∈ '@' :: cs.takeWhile isKeywordChar, isOrdinary c = true :=
      List.forall_mem_cons.mpr ⟨by decide, fun c hc =>
        isOrdinary_of_isKeywordChar (List.mem_takeWhile_imp hc)⟩
    rw [point_pastAll] at hfinds
    have hall := Finds.chars_append hordinary hfinds
    rwa [List.cons_append, hsplit] at hall
  · simp only [Cursor.readAtRule, h.advance, h.past.readKeyword, hanswer, Option.bind_eq_bind,
      Option.bind_some]
    rcases found with error | ⟨written, back⟩
    · rfl
    · have hback := hfinds.eq_append
      have hparams := hname.pastAll
      rw [hback] at hparams
      simp only [foundAt, Except.map, hparams.slice?, hparams.advanceTo, hparams.pastAll.endItem,
        Option.bind_some, Option.map_some]
      rw [← pastAll_append, ← atRuleOf_keyword hback]
      rfl

end Cursor
end Sheet
end StyleAtlas
