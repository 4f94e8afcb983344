import StyleAtlas.Proofs.Sheet.Points
import StyleAtlas.Proofs.Text.Tokens
import StyleAtlas.Sheet.Parser

/-!
# The grammar of sheets

What a sheet that is read says about its tokens: they are a sequence of skipped tokens, comments,
statements, and blocks with such a sequence between their braces.  The reader finds this structure
without looking ahead, with a stack of open blocks; the grammar names it, with the node that each
part gives, so that whatever holds of all sheets follows by induction on the grammar.

Main results:

- Definition `Sheet.Inside`: the tokens of an item, which hide braces and semicolons.
- Definition `Sheet.Laid`: tokens that are laid out as nodes.
- Definition `Sheet.Proceeds`, Theorem `Sheet.proceeds_pieces`: what comes of an open item.
- Theorem `Sheet.laid_of_parseForest`: the tokens of a sheet are laid out as its nodes.
- Theorem `Sheet.parseForest_eq_ok_iff`: and tokens that are laid out as nodes are read as them.
-/

namespace StyleAtlas
namespace Sheet

open Token (textOf)

/-! ## Items -/

/-- The characters that end an item outside parentheses. -/
def isTerminator (c : Char) : Bool :=
  c == '{' || c == ';' || c == '}'

/-- The number of open parentheses behind a character. -/
def parensBehind (parens : Nat) (c : Char) : Nat :=
  if c = '(' then parens + 1 else if c = ')' then parens - 1 else parens

/-- Tokens inside an item, with the numbers of open parentheses before and behind them: strings and
comments are closed, and what would end the item stands in parentheses. -/
inductive Inside : Nat → List Token → Nat → Prop where
  | nil (parens : Nat) : Inside parens [] parens
  | char {parens stop : Nat} {c : Char} {ts : List Token}
      (hc : parens = 0 → isTerminator c = false) (hts : Inside (parensBehind parens c) ts stop) :
      Inside parens (.char c :: ts) stop
  | quoted {parens stop : Nat} {ts : List Token} (content : List Char)
      (hts : Inside parens ts stop) : Inside parens (.quoted content true :: ts) stop
  | comment {parens stop : Nat} {ts : List Token} (content : List Char)
      (hts : Inside parens ts stop) : Inside parens (.comment content true :: ts) stop

/-- Nothing is left open inside an item. -/
theorem Inside.isClosed {start stop : Nat} {ts : List Token} (h : Inside start ts stop) :
    ∀ t ∈ ts, t.isClosed = true := by
  induction h with
  | nil parens => simp
  | char _ _ ih => exact List.forall_mem_cons.mpr ⟨rfl, ih⟩
  | quoted content _ ih => exact List.forall_mem_cons.mpr ⟨rfl, ih⟩
  | comment content _ ih => exact List.forall_mem_cons.mpr ⟨rfl, ih⟩

/-- Whether a token begins an item. -/
def begins : Token → Bool
  | .char c => !(Text.isBlank c || c == ';' || c == '}')
  | .quoted _ _ => true
  | .comment _ _ => false

/-- The tokens of an item, with the number of parentheses that it leaves open. -/
structure IsItem (ts : List Token) (parens : Nat) : Prop where
  begins : ∃ t rest, ts = t :: rest ∧ begins t = true
  inside : Inside 0 ts parens

/-- A header leaves no parentheses open. -/
theorem inside_header {header : List Token} (h : header = [] ∨ IsItem header 0) :
    Inside 0 header 0 := by
  rcases h with rfl | hitem
  · exact .nil 0
  · exact hitem.inside

/-! ## The grammar -/

/-- The tokens from a place on are laid out as nodes; in a `nested` sequence the last item leaves no
parenthesis open, since a brace ends it. -/
inductive Laid : (nested : Bool) → Point → List Token → List Node → Prop where
  | nil (nested : Bool) (p : Point) : Laid nested p [] []
  | skip {nested : Bool} {p : Point} {c : Char} {ts : List Token} {nodes : List Node}
      (hc : Text.isBlank c = true ∨ c = ';') (hts : Laid nested (p.next c) ts nodes) :
      Laid nested p (.char c :: ts) nodes
  | comment {nested : Bool} {p : Point} {content : List Char} {ts : List Token}
      {nodes : List Node} (hts : Laid nested (p.advance content) ts nodes) :
      Laid nested p (.comment content true :: ts) (commentNode p content :: nodes)
  | statement {nested : Bool} {p semicolon : Point} {item ts : List Token} {nodes : List Node}
      (hitem : IsItem item 0) (hsemicolon : semicolon = p.advance (textOf item))
      (hts : Laid nested (semicolon.next ';') ts nodes) :
      Laid nested p (item ++ .char ';' :: ts)
        ((statementNode? p (textOf item) (some semicolon)).toList ++ nodes)
  | last {nested : Bool} {p : Point} {item : List Token} {parens : Nat}
      (hitem : IsItem item parens) (hparens : nested = true → parens = 0) :
      Laid nested p item (statementNode? p (textOf item) none).toList
  | block {nested : Bool} {p brace closing : Point} {header inner ts : List Token}
      {children nodes : List Node} (hheader : header = [] ∨ IsItem header 0)
      (hbrace : brace = p.advance (textOf header))
      (hinner : Laid true (brace.next '{') inner children)
      (hclosing : closing = (brace.next '{').advance (textOf inner))
      (hts : Laid nested (closing.next '}') ts nodes) :
      Laid nested p (header ++ .char '{' :: (inner ++ .char '}' :: ts))
        (blockNode p (textOf header) closing children :: nodes)

/-- Sequences of nodes leave no string and no comment open. -/
theorem Laid.isClosed {nested : Bool} {p : Point} {ts : List Token} {nodes : List Node}
    (h : Laid nested p ts nodes) : ∀ t ∈ ts, t.isClosed = true := by
  induction h with
  | nil nested p => simp
  | skip hc hts ih => exact List.forall_mem_cons.mpr ⟨rfl, ih⟩
  | comment hts ih => exact List.forall_mem_cons.mpr ⟨rfl, ih⟩
  | statement hitem hsemicolon hts ih =>
      exact List.forall_mem_append.mpr ⟨hitem.inside.isClosed, List.forall_mem_cons.mpr ⟨rfl, ih⟩⟩
  | last hitem hparens => exact hitem.inside.isClosed
  | @block nested p brace closing header inner ts children nodes hheader hbrace hinner hclosing hts
      ihinner ih =>
      refine List.forall_mem_append.mpr ⟨(inside_header hheader).isClosed, ?_⟩
      refine List.forall_mem_cons.mpr ⟨rfl, List.forall_mem_append.mpr ⟨ihinner, ?_⟩⟩
      exact List.forall_mem_cons.mpr ⟨rfl, ih⟩

/-! ## Pieces of an item -/

/-- The pieces that end an item at a terminator. -/
def ending (start : Point) (text : List Char) (p : Point) (c : Char) : List Piece :=
  if c = '{' then [.opening start text p]
  else if c = ';' then [.statement start text (some p)]
  else [.statement start text none, .closing p]

/-- A semicolon ends a statement, and belongs to it. -/
theorem ending_semicolon (start : Point) (text : List Char) (p : Point) :
    ending start text p ';' = [.statement start text (some p)] := by
  simp [ending]

/-- A closing brace ends a statement, and then the block around it. -/
theorem ending_closing (start : Point) (text : List Char) (p : Point) :
    ending start text p '}' = [.statement start text none, .closing p] := by
  simp [ending]

/-- A terminator outside parentheses ends an item. -/
theorem Item.feed_terminator {item : Item} {c : Char} (p : Point) (hparens : item.parens = 0)
    (hc : isTerminator c = true) :
    item.feed p (.char c) = (ending item.start item.text p c, none) := by
  simp only [isTerminator, Bool.or_eq_true, beq_iff_eq] at hc
  rcases hc with (rfl | rfl) | rfl <;> simp [feed, ending, hparens]

/-- Any other character belongs to the item. -/
theorem Item.feed_char {item : Item} {c : Char} (p : Point)
    (hc : item.parens = 0 → isTerminator c = false) :
    item.feed p (.char c) = ([], some (item.extendChar c)) := by
  by_cases hparens : item.parens = 0
  · have hother := hc hparens
    simp only [isTerminator, Bool.or_eq_false_iff, beq_eq_false_iff_ne] at hother
    simp [feed, hother]
  · simp [feed, hparens]

/-- The text of an item grows by what extends it. -/
@[simp]
theorem Item.text_extend (item : Item) (cs : List Char) :
    (item.extend cs).text = item.text ++ cs := by
  simp [text, extend]

/-- The text of an item grows by one character. -/
@[simp]
theorem Item.text_extendChar (item : Item) (c : Char) :
    (item.extendChar c).text = item.text ++ [c] := by
  simp [text, extendChar]

/-- What comes of an item that is open: it meets a string or comment that does not end, it goes on
to the end of the text, or it ends at a terminator. -/
inductive Proceeds (p : Point) (item : Item) : List Token → List Piece → Prop where
  | fault {ts : List Token} (error : SheetError) : Proceeds p item ts [.fault error]
  | last {ts : List Token} {parens : Nat} (hts : Inside item.parens ts parens) :
      Proceeds p item ts [.statement item.start (item.text ++ textOf ts) none]
  | ends {inner : List Token} {c : Char} (rest : List Token) (hinner : Inside item.parens inner 0)
      (hc : isTerminator c = true) :
      Proceeds p item (inner ++ .char c :: rest)
        (ending item.start (item.text ++ textOf inner) (p.advance (textOf inner)) c ++
          pieces ((p.advance (textOf inner)).next c) none rest)

/-- A token that leaves an item open may stand in front of what comes of it. -/
theorem Proceeds.cons {p : Point} {item next : Item} {t : Token} {ts : List Token}
    {ps : List Piece} (h : Proceeds (p.advance t.text) next ts ps)
    (hstart : next.start = item.start) (htext : next.text = item.text ++ t.text)
    (hinside : ∀ us stop, Inside next.parens us stop → Inside item.parens (t :: us) stop) :
    Proceeds p item (t :: ts) ps := by
  cases h with
  | fault error => exact .fault error
  | last hts =>
      have hlast := Proceeds.last (p := p) (hinside _ _ hts)
      simpa [hstart, htext] using hlast
  | ends rest hinner hc =>
      have hends := Proceeds.ends (p := p) rest (hinside _ _ hinner) hc
      simpa [hstart, htext, Point.advance_append] using hends

/-- The pieces of an open item are those of one of the three cases. -/
theorem proceeds_pieces (p : Point) (item : Item) (ts : List Token) :
    Proceeds p item ts (pieces p (some item) ts) := by
  induction ts generalizing p item with
  | nil =>
      have hlast := Proceeds.last (p := p) (Inside.nil item.parens)
      simpa [pieces] using hlast
  | cons t ts ih =>
      cases t with
      | char c =>
          by_cases hopen : item.parens = 0 → isTerminator c = false
          · simp only [pieces, fault?, step, Item.feed_char p hopen, List.nil_append]
            exact (ih _ _).cons rfl (by simp [Token.text]) fun us stop hus => .char hopen hus
          · rw [Classical.not_imp, Bool.not_eq_false] at hopen
            have hinner : Inside item.parens [] 0 := hopen.1 ▸ .nil _
            have hends := Proceeds.ends (p := p) ts hinner hopen.2
            simpa [pieces, fault?, step, Item.feed_terminator p hopen.1 hopen.2, Token.text]
              using hends
      | quoted content closed =>
          cases closed with
          | false => exact .fault (.unclosedString p)
          | true =>
              simp only [pieces, fault?, step, Item.feed, if_true, List.nil_append]
              exact (ih _ _).cons rfl (by simp [Token.text]) fun us stop hus => .quoted content hus
      | comment content closed =>
          cases closed with
          | false => exact .fault (.unclosedComment p)
          | true =>
              simp only [pieces, fault?, step, Item.feed, if_true, List.nil_append]
              exact (ih _ _).cons rfl (by simp [Token.text]) fun us stop hus => .comment content hus

/-- A closing brace between items ends a block. -/
theorem between_closing (p : Point) : between p (.char '}') = ([.closing p], none) := by
  have hblank : Text.isBlank '}' = false := by decide
  simp [between, hblank]

/-- Between items, a token that begins an item is read as its first. -/
theorem pieces_begins {t : Token} (ht : begins t = true) (p : Point) (ts : List Token) :
    pieces p none (t :: ts) = pieces p (some (Item.begin p)) (t :: ts) := by
  cases t with
  | char c =>
      simp only [begins, Bool.not_eq_true', Bool.or_eq_false_iff, beq_eq_false_iff_ne] at ht
      simp [pieces, fault?, step, between, ht]
  | quoted content closed => simp [pieces, fault?, step, between]
  | comment content closed => simp [begins] at ht

/-! ## Assembly -/

/-- A statement adds its node, if it has one. -/
theorem assemble_statement (frames : List Frame) (done : List Node) (start : Point)
    (text : List Char) (semicolon : Option Point) (rest : List Piece) :
    assemble frames done (.statement start text semicolon :: rest) =
      assemble frames ((statementNode? start text semicolon).toList.reverse ++ done) rest := by
  rw [assemble]
  cases statementNode? start text semicolon <;> rfl

/-- The tokens that are left complete the open blocks: up to the closing brace of the innermost one
they are laid out as its last nodes, and so on outwards, which gives the whole forest. -/
def Completes : List Frame → List Node → Point → List Token → List Node → Prop
  | [], done, p, ts, forest => ∃ nodes, Laid false p ts nodes ∧ forest = done.reverse ++ nodes
  | frame :: outer, done, p, ts, forest =>
      ∃ inner rest nodes closing, ts = inner ++ .char '}' :: rest ∧ Laid true p inner nodes ∧
        closing = p.advance (textOf inner) ∧
        Completes outer
          (blockNode frame.start frame.header closing (done.reverse ++ nodes) :: frame.before)
          (closing.next '}') rest forest

section Completes

variable {frames : List Frame} {done forest : List Node} {p : Point} {ts : List Token}

/-- Tokens that are laid out in front of any others may stand in front of the tokens that complete
the open blocks. -/
theorem Completes.prepend {q : Point} {new : List Node} {front : List Token}
    (hfront : ∀ nested us nodes, Laid nested q us nodes →
      Laid nested p (front ++ us) (new ++ nodes))
    (hq : q = p.advance (textOf front)) (h : Completes frames (new.reverse ++ done) q ts forest) :
    Completes frames done p (front ++ ts) forest := by
  cases frames with
  | nil =>
      rcases h with ⟨nodes, hnodes, rfl⟩
      exact ⟨new ++ nodes, hfront _ _ _ hnodes, by simp⟩
  | cons frame outer =>
      rcases h with ⟨inner, rest, nodes, closing, rfl, hinner, hclosing, houter⟩
      refine ⟨front ++ inner, rest, new ++ nodes, closing, by simp, hfront _ _ _ hinner, ?_, ?_⟩
      · rw [hclosing, hq, ← Point.advance_append, ← List.flatMap_append]
      · simpa using houter

/-- A blank or a semicolon in front changes nothing. -/
theorem Completes.skip {c : Char} (hc : Text.isBlank c = true ∨ c = ';')
    (h : Completes frames done (p.next c) ts forest) :
    Completes frames done p (.char c :: ts) forest := by
  have hfront : ∀ nested us nodes, Laid nested (p.next c) us nodes →
      Laid nested p ([.char c] ++ us) ([] ++ nodes) := fun _ _ _ hus => .skip hc hus
  exact Completes.prepend hfront rfl h

/-- A comment in front makes a node before the others. -/
theorem Completes.comment {content : List Char}
    (h : Completes frames (commentNode p content :: done) (p.advance content) ts forest) :
    Completes frames done p (.comment content true :: ts) forest := by
  have hfront : ∀ nested us nodes, Laid nested (p.advance content) us nodes →
      Laid nested p ([.comment content true] ++ us) ([commentNode p content] ++ nodes) :=
    fun _ _ _ hus => .comment hus
  exact Completes.prepend hfront (by simp [Token.text]) h

/-- A statement in front makes its node, if it has one, before the others. -/
theorem Completes.statement {item : List Token} (hitem : IsItem item 0)
    (h : Completes frames
      ((statementNode? p (textOf item) (some (p.advance (textOf item)))).toList.reverse ++ done)
      ((p.advance (textOf item)).next ';') ts forest) :
    Completes frames done p (item ++ .char ';' :: ts) forest := by
  have hfront : ∀ nested us nodes, Laid nested ((p.advance (textOf item)).next ';') us nodes →
      Laid nested p ((item ++ [.char ';']) ++ us)
        ((statementNode? p (textOf item) (some (p.advance (textOf item)))).toList ++ nodes) := by
    intro nested us nodes hus
    simpa using Laid.statement hitem rfl hus
  have hwhole := Completes.prepend hfront (by simp [Point.advance_append, Token.text]) h
  simpa using hwhole

/-- The block that opens here is completed first, and stands in front of what is left then. -/
theorem Completes.block {header : List Token} (hheader : header = [] ∨ IsItem header 0)
    (h : Completes (⟨p, textOf header, p.advance (textOf header), done⟩ :: frames) []
      ((p.advance (textOf header)).next '{') ts forest) :
    Completes frames done p (header ++ .char '{' :: ts) forest := by
  rcases h with ⟨inner, after, children, closing, rfl, hinner, hclosing, houter⟩
  have hfront : ∀ nested us nodes, Laid nested (closing.next '}') us nodes →
      Laid nested p ((header ++ .char '{' :: (inner ++ [.char '}'])) ++ us)
        ([blockNode p (textOf header) closing children] ++ nodes) := by
    intro nested us nodes hus
    simpa using Laid.block hheader rfl hinner hclosing hus
  have hwhole := Completes.prepend hfront
    (by simp [hclosing, Point.advance_append, Token.text]) houter
  simpa using hwhole

/-- A closing brace behind the last nodes of the innermost block. -/
theorem Completes.close {frame : Frame} {nodes : List Node} {inner : List Token}
    (hinner : Laid true p inner nodes)
    (h : Completes frames
      (blockNode frame.start frame.header (p.advance (textOf inner)) (nodes.reverse ++ done).reverse
        :: frame.before)
      ((p.advance (textOf inner)).next '}') ts forest) :
    Completes (frame :: frames) done p (inner ++ .char '}' :: ts) forest :=
  ⟨inner, ts, nodes, _, rfl, hinner, rfl, by simpa using h⟩

end Completes

/-- When an item ends, the block that it opens, the statement that it makes, or the block that it
closes is laid out in front of the rest. -/
theorem completes_of_ending {frames : List Frame} {done : List Node} {p : Point}
    {item : List Token} {c : Char} {rest : List Token} {forest : List Node}
    (hitem : (item = [] ∧ c = '{') ∨ IsItem item 0) (hc : isTerminator c = true)
    (ih : ∀ frames done q, assemble frames done (pieces q none rest) = .ok forest →
      Completes frames done q rest forest)
    (h : assemble frames done (ending p (textOf item) (p.advance (textOf item)) c ++
      pieces ((p.advance (textOf item)).next c) none rest) = .ok forest) :
    Completes frames done p (item ++ .char c :: rest) forest := by
  by_cases hopen : c = '{'
  · subst hopen
    apply Completes.block (hitem.imp_left And.left)
    apply ih
    simpa [ending, assemble] using h
  · have hwhole : IsItem item 0 := hitem.resolve_left fun hempty => hopen hempty.2
    simp only [isTerminator, Bool.or_eq_true, beq_iff_eq, hopen, false_or] at hc
    rcases hc with rfl | rfl
    · apply Completes.statement hwhole
      apply ih
      rwa [ending_semicolon, List.singleton_append, assemble_statement] at h
    · rw [ending_closing, List.cons_append, assemble_statement, List.singleton_append] at h
      cases frames with
      | nil => simp [assemble] at h
      | cons frame outer =>
          apply Completes.close (.last hwhole fun _ => rfl)
          apply ih
          simpa [assemble] using h

/-- An item and the tokens behind it complete the open blocks if the tokens behind it do. -/
theorem completes_of_proceeds {frames : List Frame} {done : List Node} {p : Point}
    {ts : List Token} {ps : List Piece} {forest : List Node}
    (hps : Proceeds p (Item.begin p) ts ps) (hts : ∃ t rest, ts = t :: rest ∧ begins t = true)
    (ih : ∀ front t rest, ts = front ++ t :: rest →
      ∀ frames done q, assemble frames done (pieces q none rest) = .ok forest →
        Completes frames done q rest forest)
    (h : assemble frames done ps = .ok forest) : Completes frames done p ts forest := by
  cases hps with
  | fault error => simp [assemble] at h
  | last hinside =>
      rw [assemble_statement] at h
      cases frames with
      | nil =>
          refine ⟨_, Laid.last ⟨hts, hinside⟩ (by simp), ?_⟩
          simpa [assemble, Item.begin, Item.text] using h.symm
      | cons frame outer => simp [assemble] at h
  | @ends inner c rest hinner hc =>
      apply completes_of_ending _ hc (ih inner (.char c) rest rfl)
      · simpa [Item.begin, Item.text] using h
      · rcases hts with ⟨t, others, hcons, hbegins⟩
        cases inner with
        | nil =>
            obtain rfl : t = .char c := by simpa using congrArg List.head? hcons.symm
            simp only [begins, Bool.not_eq_true', Bool.or_eq_false_iff, beq_eq_false_iff_ne]
              at hbegins
            exact Or.inl ⟨rfl, by simpa [isTerminator, hbegins] using hc⟩
        | cons first inner =>
            obtain rfl : first = t := by simpa using congrArg List.head? hcons
            exact Or.inr ⟨⟨first, inner, rfl, hbegins⟩, hinner⟩

/-- Assembling the pieces of some tokens succeeds only if the tokens complete the open blocks. -/
theorem completes_of_assemble {frames : List Frame} {done : List Node} {p : Point}
    {ts : List Token} {forest : List Node}
    (h : assemble frames done (pieces p none ts) = .ok forest) :
    Completes frames done p ts forest := by
  induction hlength : ts.length using Nat.strong_induction_on generalizing frames done p ts with
  | _ length ih =>
    subst hlength
    -- An item takes several tokens at once, so the induction is on the number of tokens left.
    have hshorter : ∀ front t (rest : List Token), ts = front ++ t :: rest →
        ∀ frames done q, assemble frames done (pieces q none rest) = .ok forest →
          Completes frames done q rest forest := by
      rintro front t rest rfl frames done q hrest
      exact ih rest.length (by simp; omega) hrest rfl
    cases ts with
    | nil =>
        cases frames with
        | nil => exact ⟨[], .nil _ _, by simpa [pieces, assemble] using h.symm⟩
        | cons frame outer => simp [pieces, assemble] at h
    | cons t ts =>
        have hnext := hshorter [] t ts rfl
        by_cases hbegins : begins t = true
        · rw [pieces_begins hbegins] at h
          exact completes_of_proceeds (proceeds_pieces _ _ _) ⟨t, ts, rfl, hbegins⟩ hshorter h
        · cases t with
          | quoted content closed => simp [begins] at hbegins
          | comment content closed =>
              cases closed with
              | false => simp [pieces, fault?, assemble] at h
              | true =>
                  apply Completes.comment
                  apply hnext
                  simpa [pieces, fault?, step, between, assemble, Token.text] using h
          | char c =>
              simp only [begins, Bool.not_eq_true, Bool.not_eq_false', Bool.or_eq_true,
                beq_iff_eq] at hbegins
              rcases hbegins with hskip | rfl
              · apply Completes.skip hskip
                apply hnext
                simpa [pieces, fault?, step, between, hskip, Token.text] using h
              · cases frames with
                | nil => simp [pieces, fault?, step, between_closing, assemble] at h
                | cons frame outer =>
                    apply Completes.close (.nil _ _)
                    apply hnext
                    simpa [pieces, fault?, step, between_closing, assemble, Token.text] using h

/-- The tokens of a sheet are laid out as its nodes. -/
theorem laid_of_parseForest {text : List Char} {forest : List Node}
    (h : parseForest text = .ok forest) :
    Laid false Point.origin (Token.lex .spanning text) forest := by
  rcases completes_of_assemble h with ⟨nodes, hnodes, rfl⟩
  exact hnodes

/-! ## Whatever is laid out is read -/

/-- Tokens inside an item leave it open, with their text behind what was read of it. -/
theorem exists_pieces_inside (item : Item) {inner : List Token} {stop : Nat}
    (h : Inside item.parens inner stop) (p : Point) (rest : List Token) :
    ∃ next : Item, next.start = item.start ∧ next.text = item.text ++ textOf inner ∧
      next.parens = stop ∧
      pieces p (some item) (inner ++ rest) =
        pieces (p.advance (textOf inner)) (some next) rest := by
  generalize hparens : item.parens = parens at h
  induction h generalizing item p with
  | nil parens => exact ⟨item, rfl, by simp, hparens, rfl⟩
  | @char parens stop c ts hc hts ih =>
      have hbehind : (item.extendChar c).parens = parensBehind parens c := by
        simp [Item.extendChar, parensBehind, hparens]
      rcases ih (item.extendChar c) (p.next c) hbehind with
        ⟨next, hstart, htext, hstop, hpieces⟩
      refine ⟨next, hstart, by simp [htext, Token.text], hstop, ?_⟩
      simp only [List.cons_append, pieces, fault?, step, Item.feed_char p (hparens ▸ hc)]
      simpa [Token.text] using hpieces
  | quoted content hts ih =>
      rcases ih (item.extend content) (p.advance content) hparens with
        ⟨next, hstart, htext, hstop, hpieces⟩
      refine ⟨next, hstart, by simp [htext, Token.text], hstop, ?_⟩
      simpa [pieces, fault?, step, Item.feed, Token.text, Point.advance_append] using hpieces
  | comment content hts ih =>
      rcases ih (item.extend content) (p.advance content) hparens with
        ⟨next, hstart, htext, hstop, hpieces⟩
      refine ⟨next, hstart, by simp [htext, Token.text], hstop, ?_⟩
      simpa [pieces, fault?, step, Item.feed, Token.text, Point.advance_append] using hpieces

/-- Between items, an item is read to its end. -/
theorem IsItem.exists_pieces {item : List Token} {parens : Nat} (h : IsItem item parens)
    (p : Point) (rest : List Token) :
    ∃ next : Item, next.start = p ∧ next.text = textOf item ∧ next.parens = parens ∧
      pieces p none (item ++ rest) = pieces (p.advance (textOf item)) (some next) rest := by
  rcases exists_pieces_inside (Item.begin p) h.inside p rest with
    ⟨next, hstart, htext, hparens, hpieces⟩
  refine ⟨next, hstart, by simpa [Item.begin, Item.text] using htext, hparens, ?_⟩
  rcases h.begins with ⟨t, others, rfl, ht⟩
  rw [← hpieces, List.cons_append, pieces_begins ht]

/-- The pieces of an item up to its terminator. -/
theorem IsItem.pieces_terminator {item : List Token} (h : IsItem item 0) {c : Char}
    (hc : isTerminator c = true) (p : Point) (rest : List Token) :
    pieces p none (item ++ .char c :: rest) =
      ending p (textOf item) (p.advance (textOf item)) c ++
        pieces ((p.advance (textOf item)).next c) none rest := by
  rcases h.exists_pieces p (.char c :: rest) with ⟨next, hstart, htext, hparens, hpieces⟩
  rw [hpieces, pieces, fault?, step, Item.feed_terminator _ hparens hc, hstart, htext]
  rfl

/-- An item at the end of the text is one statement. -/
theorem IsItem.pieces_last {item : List Token} {parens : Nat} (h : IsItem item parens) (p : Point) :
    pieces p none item = [.statement p (textOf item) none] := by
  rcases h.exists_pieces p [] with ⟨next, hstart, htext, -, hpieces⟩
  rw [← List.append_nil item, hpieces, List.append_nil, pieces, hstart, htext]

/-- A header in front of a brace opens a block. -/
theorem pieces_header {header : List Token} (h : header = [] ∨ IsItem header 0) (p : Point)
    (rest : List Token) :
    pieces p none (header ++ .char '{' :: rest) =
      .opening p (textOf header) (p.advance (textOf header)) ::
        pieces ((p.advance (textOf header)).next '{') none rest := by
  rcases h with rfl | hitem
  · have hbegins : begins (.char '{') = true := by decide
    rw [List.nil_append, pieces_begins hbegins]
    rfl
  · rw [hitem.pieces_terminator rfl, ending, if_pos rfl, List.singleton_append]

/-- Tokens that are laid out add their nodes, whatever blocks are open, at the end of the text and,
in a `nested` sequence, in front of a closing brace. -/
theorem Laid.assemble_pieces {nested : Bool} {p : Point} {ts : List Token} {nodes : List Node}
    (h : Laid nested p ts nodes) (frames : List Frame) (done : List Node) {rest : List Token}
    (hrest : rest = [] ∨ nested = true ∧ ∃ others, rest = .char '}' :: others) :
    assemble frames done (pieces p none (ts ++ rest)) =
      assemble frames (nodes.reverse ++ done) (pieces (p.advance (textOf ts)) none rest) := by
  induction h generalizing frames done rest with
  | nil nested p => rfl
  | @skip nested p c ts nodes hc hts ih =>
      simp only [List.cons_append, pieces, fault?, step, between, if_pos hc, List.nil_append]
      simpa [Token.text] using ih frames done hrest
  | @comment nested p content ts nodes hts ih =>
      simp only [List.cons_append, pieces, fault?, step, between, if_true, List.nil_append,
        assemble]
      simpa [Token.text, Point.advance_append] using
        ih frames (commentNode p content :: done) hrest
  | @statement nested p semicolon item ts nodes hitem hsemicolon hts ih =>
      rw [List.append_assoc, List.cons_append, hitem.pieces_terminator rfl, ending_semicolon,
        List.singleton_append, assemble_statement, ← hsemicolon, ih _ _ hrest]
      simp [Point.advance_append, hsemicolon, Token.text]
  | @last nested p item parens hitem hparens =>
      rcases hrest with rfl | ⟨hnested, others, rfl⟩
      · rw [List.append_nil, hitem.pieces_last, assemble_statement]
        simp [pieces]
      · obtain rfl := hparens hnested
        rw [hitem.pieces_terminator rfl, ending_closing, List.cons_append, assemble_statement]
        simp only [pieces, fault?, step, between_closing]
        rfl
  | @block nested p brace closing header inner ts children nodes hheader hbrace hinner hclosing hts
      ihinner ih =>
      rw [List.append_assoc, List.cons_append, List.append_assoc, List.cons_append,
        pieces_header hheader, ← hbrace, assemble, ihinner _ _ (Or.inr ⟨rfl, _, rfl⟩), ← hclosing]
      simp only [pieces, fault?, step, between_closing, List.singleton_append, assemble]
      simp only [Token.text, Point.advance_cons, Point.advance_nil]
      rw [ih _ _ hrest]
      simp [Point.advance_append, hclosing, hbrace, Token.text]

/-- What is read of a text is a root over the nodes of its text. -/
theorem exists_parseForest_of_parse {text : List Char} {root : Node} (h : parse text = .ok root) :
    ∃ forest, parseForest text = .ok forest ∧ root = .mk .root none forest := by
  rcases hforest : parseForest text with error | forest
  · simp [parse, hforest, Except.map] at h
  · exact ⟨forest, rfl, by simpa [parse, hforest, Except.map] using h.symm⟩

/-- A text is read as some nodes exactly if its tokens are laid out as them. -/
theorem parseForest_eq_ok_iff {text : List Char} {forest : List Node} :
    parseForest text = .ok forest ↔
      Laid false Point.origin (Token.lex .spanning text) forest := by
  refine ⟨laid_of_parseForest, fun h => ?_⟩
  have hread := h.assemble_pieces [] [] (Or.inl rfl)
  simpa [parseForest, pieces, assemble] using hread

end Sheet
end StyleAtlas
