import StyleAtlas.Proofs.Sheet.Layout

/-!
# Sheets as a pushdown language

Whether a text is a sheet, and the error where it is none, can be told in one pass over its
characters, with a stack of open braces and nothing else that grows.  The scan here knows neither
tokens nor nodes; the reader of sheets gives the same verdict on every text.

Main results:

- Definition `Sheet.Scan.run`: the scan.
- Definition `Sheet.Scan.Outcome.verdict`: how it may end, as the answer of a reader.
- Theorem `Sheet.parse_agrees_with_scan`: reading a sheet gives the verdict of the scan.
-/

namespace StyleAtlas
namespace Sheet
namespace Scan

open Text (byteSize)

/-! ## The scan -/

/-- Where a scan stands: the offsets of the open braces with the innermost first, whether it is
inside an item, and the number of parentheses that are open there. -/
structure State where
  braces : List Nat
  inItem : Bool
  parens : Nat
deriving DecidableEq, Repr

/-- What a scan is skipping: nothing, a comment, or a string with its quote; each from the offset of
its opening on. -/
inductive Skipping where
  | nothing
  | comment (start : Nat)
  | string (quote : Char) (start : Nat)
deriving DecidableEq, Repr

/-- How a scan may end: at the end of the text with some braces open, inside a comment or a string,
or at a brace that closes nothing. -/
inductive Outcome where
  | ended (braces : List Nat)
  | unclosedComment (start : Nat)
  | unclosedString (start : Nat)
  | unexpectedClose (brace : Nat)
deriving DecidableEq, Repr

namespace State

/-- Inside an item; between items a new one begins. -/
def enter (s : State) : State :=
  if s.inItem then s else ⟨s.braces, true, 0⟩

/-- Behind a closing brace, where one is open. -/
def close? (s : State) : Option State :=
  match s.braces with
  | [] => none
  | _ :: outer => some ⟨outer, false, 0⟩

/-- A character inside an item. -/
def inside? (s : State) (offset : Nat) (c : Char) : Option State :=
  if s.parens = 0 ∧ c = '{' then some ⟨offset :: s.braces, false, 0⟩
  else if s.parens = 0 ∧ c = ';' then some ⟨s.braces, false, 0⟩
  else if s.parens = 0 ∧ c = '}' then s.close?
  else if c = '(' then some { s with parens := s.parens + 1 }
  else if c = ')' then some { s with parens := s.parens - 1 }
  else some s

/-- A character outside strings and comments; there is no next state at a brace that closes
nothing. -/
def next? (s : State) (offset : Nat) (c : Char) : Option State :=
  if s.inItem then s.inside? offset c
  else if Text.isBlank c ∨ c = ';' then some s
  else if c = '}' then s.close?
  else s.enter.inside? offset c

end State

/-- Scan a text from an offset on. -/
def run : State → Skipping → (offset : Nat) → List Char → Outcome
  | s, .nothing, _, [] => .ended s.braces
  | s, .nothing, offset, '/' :: '*' :: cs => run s (.comment offset) (offset + 2) cs
  | s, .nothing, offset, c :: cs =>
      if c = '\x22' ∨ c = '\x27' then run s.enter (.string c offset) (offset + c.utf8Size) cs
      else
        match s.next? offset c with
        | some next => run next .nothing (offset + c.utf8Size) cs
        | none => .unexpectedClose offset
  | _, .comment start, _, [] => .unclosedComment start
  | s, .comment _, offset, '*' :: '/' :: cs => run s .nothing (offset + 2) cs
  | s, .comment start, offset, c :: cs => run s (.comment start) (offset + c.utf8Size) cs
  | _, .string _ start, _, [] => .unclosedString start
  | s, .string quote start, offset, '\\' :: c :: cs =>
      run s (.string quote start) (offset + 1 + c.utf8Size) cs
  | s, .string quote start, offset, c :: cs =>
      if c = quote then run s .nothing (offset + c.utf8Size) cs
      else run s (.string quote start) (offset + c.utf8Size) cs

/-- Scan a whole text. -/
def ofText (text : List Char) : Outcome :=
  run ⟨[], false, 0⟩ .nothing 0 text

/-- The answer of a reader on a text that the scan ends on like this: a text is accepted when no
brace is open at its end, and an error names the place of the opening that is never closed, or of
the brace that closes nothing. -/
def Outcome.verdict (source : Source) : Outcome → Except SheetError Unit
  | .ended [] => .ok ()
  | .ended (brace :: _) => .error (.unclosedBlock (source.pointAt brace))
  | .unclosedComment start => .error (.unclosedComment (source.pointAt start))
  | .unclosedString start => .error (.unclosedString (source.pointAt start))
  | .unexpectedClose brace => .error (.unexpectedClose (source.pointAt brace))

/-! ## The reader follows the scan -/

/-- The state of a scan where a reader has these open blocks and this open item. -/
def stateOf (frames : List Frame) (item : Option Item) : State :=
  ⟨frames.map fun frame => frame.brace.offset, item.isSome, (item.map Item.parens).getD 0⟩

/-- The braces of open blocks are places of the source. -/
def Located (source : Source) (frames : List Frame) : Prop :=
  ∀ frame ∈ frames, frame.brace = source.pointAt frame.brace.offset

/-- Assembling some pieces keeps to a scan: it leads to the blocks and the item of the state that
the scan goes to, or it refuses the brace at an offset where the scan does. -/
def Keeps (source : Source) (frames : List Frame) (done : List Node) (offset : Nat)
    (next : Option State) (pieces : List Piece × Option Item) : Prop :=
  ∀ rest, (∃ frames' done', Located source frames' ∧ next = some (stateOf frames' pieces.2) ∧
      assemble frames done (pieces.1 ++ rest) = assemble frames' done' rest) ∨
    (next = none ∧
      assemble frames done (pieces.1 ++ rest) = .error (.unexpectedClose (source.pointAt offset)))

variable {source : Source} {frames : List Frame}

/-- A closing brace keeps to the scan: it ends the innermost block, or both refuse it. -/
theorem keeps_closing (done : List Node) (item : Option Item) (offset : Nat)
    (hframes : Located source frames) :
    Keeps source frames done offset (stateOf frames item).close?
      ([.closing (source.pointAt offset)], none) := by
  intro rest
  cases frames with
  | nil => exact Or.inr ⟨rfl, rfl⟩
  | cons frame outer =>
      refine Or.inl ⟨outer,
        blockNode frame.start frame.header (source.pointAt offset) done.reverse :: frame.before,
        (List.forall_mem_cons.mp hframes).2, rfl, ?_⟩
      simp only [List.singleton_append, assemble]

/-- A character that does not end an item at most counts as a parenthesis. -/
theorem State.inside?_of_open {s : State} {c : Char} (offset : Nat)
    (hc : s.parens = 0 → isTerminator c = false) :
    s.inside? offset c = some { s with parens := parensBehind s.parens c } := by
  have hends : ∀ d, isTerminator d = true → ¬(s.parens = 0 ∧ c = d) := by
    rintro d hd ⟨hparens, rfl⟩
    simp [hc hparens] at hd
  unfold inside? parensBehind
  rw [if_neg (hends '{' rfl), if_neg (hends ';' rfl), if_neg (hends '}' rfl)]
  split
  · rfl
  · split <;> rfl

/-- A character inside an item. -/
theorem keeps_feed (done : List Node) (item : Item) (offset : Nat) (c : Char)
    (hframes : Located source frames) :
    Keeps source frames done offset ((stateOf frames (some item)).inside? offset c)
      (item.feed (source.pointAt offset) (.char c)) := by
  intro rest
  by_cases hopen : item.parens = 0 → isTerminator c = false
  · rw [Item.feed_char _ hopen]
    exact Or.inl ⟨frames, done, hframes, State.inside?_of_open offset hopen, rfl⟩
  · rw [Classical.not_imp, Bool.not_eq_false] at hopen
    rw [Item.feed_terminator _ hopen.1 hopen.2]
    have hc := hopen.2
    simp only [isTerminator, Bool.or_eq_true, beq_iff_eq] at hc
    rcases hc with (rfl | rfl) | rfl
    · refine Or.inl ⟨⟨item.start, item.text, source.pointAt offset, done⟩ :: frames, [], ?_, ?_, ?_⟩
      · exact List.forall_mem_cons.mpr ⟨rfl, hframes⟩
      · simp [State.inside?, stateOf, hopen.1, Source.pointAt]
      · simp [ending, assemble]
    · refine Or.inl ⟨frames, (statementNode? item.start item.text
        (some (source.pointAt offset))).toList.reverse ++ done, hframes, ?_, ?_⟩
      · simp [State.inside?, stateOf, hopen.1]
      · rw [ending_semicolon]
        exact assemble_statement _ _ _ _ _ _
    · have hclose : (stateOf frames (some item)).inside? offset '}' =
          (stateOf frames (some item)).close? := by
        simp [State.inside?, stateOf, hopen.1]
      rw [ending_closing, hclose]
      simp only [List.cons_append, assemble_statement]
      exact keeps_closing _ _ offset hframes rest

/-- A character outside strings and comments. -/
theorem keeps_char (done : List Node) (item : Option Item) (offset : Nat) (c : Char)
    (hframes : Located source frames) :
    Keeps source frames done offset ((stateOf frames item).next? offset c)
      (step (source.pointAt offset) item (.char c)) := by
  cases item with
  | some item => exact keeps_feed done item offset c hframes
  | none =>
      unfold State.next?
      rw [if_neg (by simp [stateOf]), step, between]
      by_cases hskip : Text.isBlank c = true ∨ c = ';'
      · rw [if_pos hskip, if_pos hskip]
        exact fun rest => Or.inl ⟨frames, done, hframes, rfl, rfl⟩
      · rw [if_neg hskip, if_neg hskip]
        by_cases hclose : c = '}'
        · rw [if_pos hclose, if_pos hclose]
          exact keeps_closing done none offset hframes
        · rw [if_neg hclose, if_neg hclose]
          exact keeps_feed done (Item.begin (source.pointAt offset)) offset c hframes

/-- A string that is closed leaves an item open. -/
theorem keeps_quoted (done : List Node) (item : Option Item) (offset : Nat) (content : List Char)
    (hframes : Located source frames) :
    Keeps source frames done offset (some (stateOf frames item).enter)
      (step (source.pointAt offset) item (.quoted content true)) := by
  intro rest
  cases item with
  | some item => exact Or.inl ⟨frames, done, hframes, rfl, rfl⟩
  | none => exact Or.inl ⟨frames, done, hframes, rfl, rfl⟩

/-- A comment that is closed leaves the state as it is. -/
theorem keeps_comment (done : List Node) (item : Option Item) (offset : Nat) (content : List Char)
    (hframes : Located source frames) :
    Keeps source frames done offset (some (stateOf frames item))
      (step (source.pointAt offset) item (.comment content true)) := by
  intro rest
  cases item with
  | some item => exact Or.inl ⟨frames, done, hframes, rfl, rfl⟩
  | none =>
      refine Or.inl ⟨frames, commentNode (source.pointAt offset) content :: done, hframes, rfl, ?_⟩
      simp only [step, between, List.singleton_append, assemble]

/-- At the end of a text the innermost open block is at fault. -/
theorem assemble_end (done : List Node) (item : Option Item) (p : Point)
    (hframes : Located source frames) :
    (assemble frames done (pieces p item [])).map (fun _ => ()) =
      (Outcome.ended (stateOf frames item).braces).verdict source := by
  have hlast : ∃ done', assemble frames done (pieces p item []) = assemble frames done' [] := by
    cases item with
    | none => exact ⟨done, rfl⟩
    | some item => exact ⟨_, assemble_statement frames done item.start item.text none []⟩
  rcases hlast with ⟨done', hend⟩
  rw [hend]
  cases frames with
  | nil => rfl
  | cons frame outer =>
      have hbrace := (List.forall_mem_cons.mp hframes).1
      change Except.error (SheetError.unclosedBlock frame.brace) =
        Except.error (SheetError.unclosedBlock (source.pointAt frame.brace.offset))
      rw [← hbrace]

/-- What a scan skips while a token is open that started at an offset. -/
def skippingOf (start : Nat) : Token.Mode → Skipping
  | .plain => .nothing
  | .inComment _ => .comment start
  | .inString quote _ => .string quote start

/-- The state of a scan while a token is open: a string belongs to an item from its quote on. -/
def stateIn (frames : List Frame) (item : Option Item) : Token.Mode → State
  | .inString _ _ => (stateOf frames item).enter
  | _ => stateOf frames item

/-- A token that is closed: what follows it gives the verdict of the scan from the state that the
scan goes to. -/
theorem Keeps.verdict {done : List Node} {item : Option Item} {t : Token} {ts : List Token}
    {before after : List Char} {next : Option State}
    (h : Keeps source frames done (byteSize before) next
      (step (source.pointAt (byteSize before)) item t))
    (outcome : State → Outcome) (hclosed : ∀ p, fault? p t = none)
    (hsplit : source.chars = before ++ t.text ++ after)
    (hrest : ∀ frames' done' item', Located source frames' →
      (assemble frames' done' (pieces (source.pointAt (byteSize (before ++ t.text))) item' ts)).map
        (fun _ => ()) = (outcome (stateOf frames' item')).verdict source) :
    (assemble frames done (pieces (source.pointAt (byteSize before)) item (t :: ts))).map
        (fun _ => ()) =
      (match next with
        | some state => outcome state
        | none => .unexpectedClose (byteSize before)).verdict source := by
  simp only [pieces, hclosed, Source.advance_pointAt hsplit]
  rcases h (pieces (source.pointAt (byteSize (before ++ t.text)))
      (step (source.pointAt (byteSize before)) item t).2 ts) with
    ⟨frames', done', hframes', rfl, hassemble⟩ | ⟨rfl, hassemble⟩
  · rw [hassemble]
    exact hrest frames' done' _ hframes'
  · rw [hassemble]
    rfl

/-- From any place on, and inside any blocks, reading the rest of a text gives the verdict of the
scan. -/
theorem assemble_lexFrom (mode : Token.Mode) (cs : List Char) (done : List Node)
    (item : Option Item) {before : List Char} {offset : Nat} (hframes : Located source frames)
    (hsplit : source.chars = before ++ mode.text ++ cs)
    (hoffset : offset = byteSize (before ++ mode.text)) :
    (assemble frames done
        (pieces (source.pointAt (byteSize before)) item (Token.lexFrom .spanning mode cs))).map
        (fun _ => ()) =
      (run (stateIn frames item mode) (skippingOf (byteSize before) mode) offset cs).verdict
        source := by
  generalize hquoting : Quoting.spanning = quoting
  -- The cases are those of the lexer; where a token is open, the reader waits for its end.
  fun_induction Token.lexFrom quoting mode cs generalizing frames done item before offset with
  | case1 => exact assemble_end done item _ hframes
  | case2 cs ih =>
      obtain rfl : offset = byteSize before := by simpa [Token.Mode.text] using hoffset
      have hsize : '/'.utf8Size + '*'.utf8Size = 2 := by decide
      simp only [stateIn, skippingOf, run]
      apply ih done item hframes
      · simpa [Token.Mode.text] using hsplit
      · simp [Token.Mode.text, hsize]
  | case3 c cs hstart hquote ih =>
      have hquote' : c = '\x22' ∨ c = '\x27' := by simpa [Token.isQuote] using hquote
      obtain rfl : offset = byteSize before := by simpa [Token.Mode.text] using hoffset
      simp only [stateIn, skippingOf]
      rw [run, if_pos hquote']
      · apply ih done item hframes
        · simpa [Token.Mode.text] using hsplit
        · simp [Token.Mode.text]
      · exact hstart
  | case4 c cs hstart hquote ih =>
      have hquote' : ¬(c = '\x22' ∨ c = '\x27') := by simpa [Token.isQuote] using hquote
      obtain rfl : offset = byteSize before := by simpa [Token.Mode.text] using hoffset
      simp only [stateIn, skippingOf]
      rw [run, if_neg hquote']
      · apply (keeps_char done item (byteSize before) c hframes).verdict
          (fun state => run state .nothing (byteSize before + c.utf8Size) cs) (fun _ => rfl)
        · simpa [Token.Mode.text, Token.text] using hsplit
        · intro frames' done' item' hframes'
          apply ih done' item' hframes'
          · simpa [Token.Mode.text, Token.text] using hsplit
          · simp [Token.Mode.text, Token.text]
      · exact hstart
  | case5 read => simp [pieces, fault?, assemble, skippingOf, run, Outcome.verdict, Except.map]
  | case6 read cs ih =>
      have hsize : '*'.utf8Size + '/'.utf8Size = 2 := by decide
      simp only [stateIn, skippingOf, run]
      apply (keeps_comment done item (byteSize before) _ hframes).verdict
        (fun state => run state .nothing (offset + 2) cs) (fun _ => rfl)
      · simpa [Token.Mode.text, Token.text] using hsplit
      · intro frames' done' item' hframes'
        apply ih done' item' hframes'
        · simpa [Token.Mode.text, Token.text] using hsplit
        · simp [hoffset, Token.Mode.text, Token.text, Nat.add_assoc, hsize]
  | case7 read c cs hopen ih =>
      simp only [stateIn, skippingOf]
      rw [run]
      · apply ih done item hframes
        · simpa [Token.Mode.text] using hsplit
        · simp [hoffset, Token.Mode.text, Nat.add_assoc]
      · exact hopen
  | case8 quote read =>
      simp [pieces, fault?, assemble, skippingOf, run, Outcome.verdict, Except.map]
  | case9 quote read c cs ih =>
      have hsize : '\\'.utf8Size = 1 := by decide
      simp only [stateIn, skippingOf, run]
      apply ih done item hframes
      · simpa [Token.Mode.text] using hsplit
      · simp [hoffset, Token.Mode.text, Nat.add_assoc, hsize]
  | case10 read c cs hescape ih =>
      simp only [stateIn, skippingOf]
      rw [run, if_pos rfl]
      · apply (keeps_quoted done item (byteSize before) _ hframes).verdict
          (fun state => run state .nothing (offset + c.utf8Size) cs) (fun _ => rfl)
        · simpa [Token.Mode.text, Token.text] using hsplit
        · intro frames' done' item' hframes'
          apply ih done' item' hframes'
          · simpa [Token.Mode.text, Token.text] using hsplit
          · simp [hoffset, Token.Mode.text, Token.text, Nat.add_assoc]
      · exact hescape
  | case11 quote read c cs _ _ hbreak ih => simp [← hquoting] at hbreak
  | case12 quote read c cs hescape hquote _ ih =>
      simp only [stateIn, skippingOf]
      rw [run, if_neg hquote]
      · apply ih done item hframes
        · simpa [Token.Mode.text] using hsplit
        · simp [hoffset, Token.Mode.text, Nat.add_assoc]
      · exact hescape

end Scan

/-- Reading a sheet gives the verdict of the scan: the text is accepted exactly where the scan ends
without open braces, and refused with the same error at the same place otherwise. -/
theorem parse_agrees_with_scan (text : List Char) :
    (parse text).map (fun _ => ()) = (Scan.ofText text).verdict ⟨text⟩ := by
  have horigin : Point.origin = Source.pointAt ⟨text⟩ (Text.byteSize []) :=
    Source.advance_origin (List.nil_append text).symm
  have hforest : (parse text).map (fun _ => ()) = (parseForest text).map (fun _ => ()) := by
    unfold parse
    cases parseForest text <;> rfl
  rw [hforest, parseForest, horigin]
  apply Scan.assemble_lexFrom .plain text [] none
  · simp [Scan.Located]
  · simp [Token.Mode.text]
  · simp [Token.Mode.text]

end Sheet
end StyleAtlas
