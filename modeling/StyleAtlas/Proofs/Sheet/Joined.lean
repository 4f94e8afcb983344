import StyleAtlas.Proofs.Sheet.Fields
import StyleAtlas.Proofs.Sheet.Indexed
import StyleAtlas.Proofs.Sheet.Shifted
import StyleAtlas.Proofs.Text.Lexing

/-!
# Sheets one behind the other

Reading a sheet looks ahead to the ends of its items only, so a sheet that ends in a rule is read
the same way whatever follows, and what follows is read as if it stood alone.  The nodes of two such
sheets are the nodes of the first and, at their shifted places, those of the second; and what is
wrong with the second is wrong with both together.

Main results:

- Definition `Sheet.Complete`: tokens that are read the same way whatever follows.
- Theorem `Sheet.Laid.complete_or_openEnded`: tokens that are laid out as nodes are complete, or end
  in an item that what follows would extend.
- Definition `Sheet.EndsInRule`: the last node of a sheet is a rule, and blanks follow it.
- Theorem `Sheet.parse_append_of_endsInRule`: sheets behind one that ends in a rule.
-/

namespace StyleAtlas
namespace Sheet

open Text
open Token (textOf)

/-! ## Tokens that are complete -/

/-- Tokens that are read as some nodes whatever follows them, and that do not end in a slash, with
which a comment might start. -/
structure Complete (p : Point) (ts : List Token) (nodes : List Node) : Prop where
  read : ∀ frames done us, assemble frames done (pieces p none (ts ++ us)) =
    assemble frames (nodes.reverse ++ done) (pieces (p.advance (textOf ts)) none us)
  seam : ts.getLast? ≠ some (.char '/')

namespace Complete

variable {p : Point}

/-- No tokens are complete, without nodes. -/
theorem nil (p : Point) : Complete p [] [] :=
  ⟨fun _ _ _ => rfl, by simp⟩

/-- Complete tokens may follow one another. -/
theorem append {ts us : List Token} {nodes nodes' : List Node} (hts : Complete p ts nodes)
    (hus : Complete (p.advance (textOf ts)) us nodes') :
    Complete p (ts ++ us) (nodes ++ nodes') := by
  refine ⟨fun frames done vs => ?_, ?_⟩
  · rw [List.append_assoc, hts.read, hus.read]
    simp [Point.advance_append]
  · cases us using List.reverseRecOn with
    | nil => simpa using hts.seam
    | append_singleton us t => simpa using hus.seam

/-- A blank or a semicolon is complete, without a node. -/
theorem skip {c : Char} (hc : isBlank c = true ∨ c = ';') : Complete p [.char c] [] := by
  refine ⟨fun frames done us => ?_, ?_⟩
  · simp [pieces, fault?, step, between, hc, Token.text]
  · rintro h
    obtain rfl : c = '/' := by simpa using h
    revert hc
    decide

/-- A comment that is closed is complete. -/
theorem comment (content : List Char) :
    Complete p [.comment content true] [commentNode p content] := by
  refine ⟨fun frames done us => ?_, by simp⟩
  simp [pieces, fault?, step, between, assemble, Token.text]

/-- An item with its semicolon is complete. -/
theorem statement {item : List Token} (hitem : IsItem item 0) :
    Complete p (item ++ [.char ';'])
      (statementNode? p (textOf item) (some (p.advance (textOf item)))).toList := by
  refine ⟨fun frames done us => ?_, by simp⟩
  rw [List.append_assoc, List.singleton_append, hitem.pieces_terminator rfl, ending_semicolon,
    List.singleton_append, assemble_statement]
  simp [Point.advance_append, Token.text]

/-- A block with both of its braces is complete. -/
theorem block {header inner : List Token} {children : List Node}
    (hheader : header = [] ∨ IsItem header 0)
    (hinner : Laid true ((p.advance (textOf header)).next '{') inner children) :
    Complete p (header ++ .char '{' :: (inner ++ [.char '}']))
      [blockNode p (textOf header)
        (((p.advance (textOf header)).next '{').advance (textOf inner)) children] := by
  refine ⟨fun frames done us => ?_, by simp [List.getLast?_cons]⟩
  simp only [List.append_assoc, List.cons_append, List.nil_append]
  rw [pieces_header hheader, assemble, hinner.assemble_pieces _ _ (Or.inr ⟨rfl, us, rfl⟩)]
  simp [pieces, fault?, step, between_closing, assemble, Point.advance_append, Token.text]

end Complete

/-- Tokens that are laid out as nodes and end in an item, which what follows would extend. -/
def OpenEnded (nested : Bool) (p : Point) (ts : List Token) (nodes : List Node) : Prop :=
  ∃ front item parens earlier, ts = front ++ item ∧ IsItem item parens ∧
    Laid nested p front earlier ∧
    nodes = earlier ++ (statementNode? (p.advance (textOf front)) (textOf item) none).toList

/-- Complete tokens may stand in front of others. -/
theorem Complete.or_openEnded {nested : Bool} {p q : Point} {front ts : List Token}
    {new nodes : List Node} (hfront : Complete p front new) (hq : q = p.advance (textOf front))
    (hlaid : ∀ us others, Laid nested q us others → Laid nested p (front ++ us) (new ++ others))
    (h : Complete q ts nodes ∨ OpenEnded nested q ts nodes) :
    Complete p (front ++ ts) (new ++ nodes) ∨ OpenEnded nested p (front ++ ts) (new ++ nodes) := by
  rcases h with hts | ⟨inner, item, parens, earlier, rfl, hitem, hinner, rfl⟩
  · exact Or.inl (hfront.append (hq ▸ hts))
  · refine Or.inr ⟨front ++ inner, item, parens, new ++ earlier, by simp, hitem, ?_, ?_⟩
    · exact hlaid _ _ hinner
    · simp [hq, Point.advance_append]

/-- Tokens that are laid out as nodes are complete, or end in an item. -/
theorem Laid.complete_or_openEnded {nested : Bool} {p : Point} {ts : List Token}
    {nodes : List Node} (h : Laid nested p ts nodes) :
    Complete p ts nodes ∨ OpenEnded nested p ts nodes := by
  induction h with
  | nil nested p => exact Or.inl (.nil p)
  | skip hc _ ih =>
      exact (Complete.skip hc).or_openEnded (by simp [Token.text]) (fun _ _ hus => .skip hc hus) ih
  | @comment nested p content ts nodes _ ih =>
      exact (Complete.comment content).or_openEnded (by simp [Token.text])
        (fun _ _ hus => .comment hus) ih
  | @statement nested p semicolon item ts nodes hitem hsemicolon _ ih =>
      subst hsemicolon
      have hwhole := (Complete.statement (p := p) hitem).or_openEnded
        (by simp [Point.advance_append, Token.text])
        (fun us others hus => by simpa using Laid.statement hitem rfl hus) ih
      simpa using hwhole
  | @last nested p item parens hitem _ =>
      exact Or.inr ⟨[], item, parens, [], rfl, hitem, .nil _ _, rfl⟩
  | @block nested p brace closing header inner ts children nodes hheader hbrace hinner hclosing _
      _ ih =>
      subst hbrace hclosing
      have hwhole := (Complete.block hheader hinner).or_openEnded
        (by simp [Point.advance_append, Token.text])
        (fun us others hus => by simpa using Laid.block hheader rfl hinner rfl hus) ih
      simpa using hwhole

/-! ## Sheets that end in a rule -/

/-- The last node at the top of a sheet is a rule, and nothing but blanks follows the last character
of its span. -/
def EndsInRule (text : List Char) (root : Node) : Prop :=
  ∃ earlier selector span children,
    root.children = earlier ++ [.mk (.rule selector) (some span) children] ∧
    ∀ c ∈ (charsFrom text span.last.offset).tail, isBlank c = true

/-- What stands behind the seat of some nodes stands behind each of them. -/
theorem Seated.exists_gap {source : Source} {lower : Nat} {front back : List Char}
    {nodes : List Node} (h : Seated source lower (byteSize front) nodes)
    (hsplit : source.chars = front ++ back) :
    ∀ node ∈ Node.preorderAll nodes, ∃ span gap, node.span = some span ∧
      (charsFrom source.chars span.last.offset).tail = gap ++ back := by
  intro node hnode
  rcases h.reads_of_mem node hnode with ⟨span, before, part, after, hspan, hreads⟩
  rcases h.bounds node hnode with ⟨x, hextent, -, -, hstop⟩
  have hend : byteSize (before ++ part) ≤ byteSize front := by
    rw [Node.extent?, hspan, Option.map_some, hreads.extent_eq, Option.some.injEq] at hextent
    rw [byteSize_append]
    rwa [← hextent] at hstop
  have htail : (charsFrom source.chars span.last.offset).tail = after := by
    rcases hreads.last_eq with ⟨init, c, rfl, -, hlast⟩
    have hchars : source.chars = (before ++ init) ++ c :: after := by simp [hreads.split]
    rw [hlast, Source.pointAt, hchars, charsFrom_byteSize, List.tail_cons]
  have hboth : (before ++ part) ++ after = front ++ back := hreads.split.symm.trans hsplit
  -- The text is cut behind the node and behind the seat, and the second cut is not the earlier one.
  rcases List.append_eq_append_iff.mp hboth with ⟨gap, -, hafter⟩ | ⟨excess, hexcess, hback⟩
  · exact ⟨span, gap, hspan, htail.trans hafter⟩
  · cases excess with
    | nil => exact ⟨span, [], hspan, htail.trans hback.symm⟩
    | cons c excess =>
        have hpos := c.utf8Size_pos
        rw [hexcess, byteSize_append, byteSize_cons] at hend
        omega

/-- A sheet that ends in a rule does not end in an item: an item is no rule, and does not start with
a blank. -/
theorem OpenEnded.not_endsInRule {text : List Char} {nodes : List Node}
    (h : OpenEnded false Point.origin (Token.lex .spanning text) nodes) :
    ¬EndsInRule text (.mk .root none nodes) := by
  rintro ⟨others, selector, span, children, hrule, hblank⟩
  rcases h with ⟨front, item, parens, earlier, htokens, hitem, hfront, rfl⟩
  have hdelimited := (Token.proper_lex .spanning text).delimited
  rw [htokens, List.forall_mem_append] at hdelimited
  have htext : text = textOf front ++ textOf item := by
    rw [← List.flatMap_append, ← htokens, Token.flatMap_text_lex]
  cases hnode : statementNode? (Point.origin.advance (textOf front)) (textOf item) none with
  | some node =>
      obtain rfl : node = .mk (.rule selector) (some span) children := by
        simpa [hnode, Node.children] using congrArg List.getLast? hrule
      have hmem : .mk (.rule selector) (some span) children ∈ Node.preorderAll
          (statementNode? (Point.origin.advance (textOf front)) (textOf item) none).toList := by
        simp [hnode, Node.preorderAll, Node.preorder]
      exact content_ne_rule hmem selector rfl
  | none =>
      -- The item says nothing, so the rule stands in front of it, and blanks are not all that
      -- follows the rule.
      have hseated : Seated ⟨text⟩ (byteSize []) (byteSize (textOf front)) earlier :=
        hfront.seated hdelimited.1 htext (Source.advance_origin (List.nil_append text).symm)
          (by simp)
      obtain rfl : earlier = others ++ [.mk (.rule selector) (some span) children] := by
        simpa [hnode, Node.children] using hrule
      rcases hseated.exists_gap htext (.mk (.rule selector) (some span) children)
          (by simp [Node.preorderAll_append, Node.preorderAll, Node.preorder]) with
        ⟨span', gap, hspan, htail⟩
      obtain rfl : span = span' := Option.some.inj hspan
      rcases hitem.visible hdelimited.2 with ⟨c, cs, hvisible, hc⟩
      have hcblank := hblank c (by simp [htail, hvisible])
      rw [hc] at hcblank
      exact absurd hcblank (by decide)

/-- The nodes of a text behind complete tokens, or the error in it. -/
theorem Complete.parseForest_append {front : List Char} {forest : List Node}
    (h : Complete Point.origin (Token.lex .spanning front) forest)
    (hclosed : ∀ t ∈ Token.lex .spanning front, t.isClosed = true) (back : List Char) :
    parseForest (front ++ back) =
      match parseForest back with
      | .ok nodes => .ok (forest ++ Node.shiftAll front nodes)
      | .error error => .error (error.shift front) := by
  have horigin : 0 < Point.origin.line := Nat.one_pos
  have hpieces : pieces (Point.origin.advance front) none (Token.lex .spanning back) =
      (pieces Point.origin none (Token.lex .spanning back)).map (Piece.shift front) := by
    rw [← Point.shift_origin]
    exact pieces_shift front horigin none _
  have hcounted : ∀ piece ∈ pieces Point.origin none (Token.lex .spanning back), piece.Counted :=
    counted_pieces horigin (by simp) _
  have hfollows : Follows front forest.reverse [] [] [] (forest.reverse ++ []) := by
    rw [List.append_nil]
    exact .top []
  rw [parseForest, Token.lex_append .spanning hclosed h.seam, h.read, textOf,
    Token.flatMap_text_lex, hpieces, assemble_shift hfollows hcounted, List.reverse_reverse]
  rfl

/-- What is read behind a sheet that ends in a rule: the nodes of that sheet and those of what
follows it, or the error in what follows it, at the shifted places. -/
theorem parse_append_of_endsInRule {front : List Char} {root : Node}
    (hparse : parse front = .ok root) (hends : EndsInRule front root) (back : List Char) :
    parse (front ++ back) =
      match parse back with
      | .ok rest => .ok (.mk .root none (root.children ++ Node.shiftAll front rest.children))
      | .error error => .error (error.shift front) := by
  rcases exists_parseForest_of_parse hparse with ⟨forest, hforest, rfl⟩
  have hlaid := laid_of_parseForest hforest
  have hcomplete := hlaid.complete_or_openEnded.resolve_right fun hopen =>
    hopen.not_endsInRule hends
  rw [parse, parse, hcomplete.parseForest_append hlaid.isClosed]
  cases parseForest back with
  | ok nodes => rfl
  | error error => rfl

/-- A rule, a line feed and a space. -/
def spacedRule : List Char :=
  ['a', '{', '}', '\n', ' ']

/-- Behind the spaced rule another rule can be read, and a closing brace is refused where it stands.
-/
theorem parse_append_of_endsInRule_spacedRule :
    ∃ root, parse spacedRule = .ok root ∧ EndsInRule spacedRule root ∧
      parse (spacedRule ++ ['*', '{', '}']) = .ok (.mk .root none (root.children ++
        [.mk (.rule ['*']) (some ⟨⟨2, 2, 5⟩, ⟨2, 4, 7⟩⟩) []])) ∧
      parse (spacedRule ++ ['}']) = .error (.unexpectedClose ⟨2, 2, 5⟩) := by
  have hparse : parse spacedRule =
      .ok (.mk .root none [.mk (.rule ['a']) (some ⟨⟨1, 1, 0⟩, ⟨1, 3, 2⟩⟩) []]) := rfl
  have hends : EndsInRule spacedRule
      (.mk .root none [.mk (.rule ['a']) (some ⟨⟨1, 1, 0⟩, ⟨1, 3, 2⟩⟩) []]) :=
    ⟨[], ['a'], ⟨⟨1, 1, 0⟩, ⟨1, 3, 2⟩⟩, [], rfl, List.all_eq_true.mp rfl⟩
  exact ⟨_, hparse, hends, parse_append_of_endsInRule hparse hends ['*', '{', '}'],
    parse_append_of_endsInRule hparse hends ['}']⟩

end Sheet
end StyleAtlas
