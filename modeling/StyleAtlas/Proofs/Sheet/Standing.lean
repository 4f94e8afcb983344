import StyleAtlas.Proofs.Sheet.Fields
import StyleAtlas.Proofs.Sheet.Layout
import StyleAtlas.Proofs.Text.Lexing

/-!
# Where the nodes of a sheet stand

Every node of a sheet, however deep it lies, is read from some of its tokens, which stand in front
of all that follows in the sheet.  What follows matters to a reader that starts at the node and does
not know the blocks around it: a statement without a semicolon has a closing brace behind it, or the
end of the text.

Main results:

- Definition `Token.Whole`: the tokens of a text that leaves nothing open.
- Definition `Sheet.HeadedBy`: tokens that start with those of a node.
- Theorem `Sheet.Laid.standsAmong`: every node of a sequence stands in front of the tokens from
  there on.
- Theorem `Sheet.standsAmong_of_parse`: the same of the nodes of a sheet.
-/

namespace StyleAtlas

/-! ## Tokens of a text that leaves nothing open -/

namespace Token

/-- Tokens as they are read from their text, with nothing left open. -/
structure Whole (ts : List Token) : Prop where
  lexed : lex .spanning (textOf ts) = ts
  closed : ∀ t ∈ ts, t.isClosed = true

/-- Both parts of whole tokens are whole. -/
theorem Whole.of_append {ts us : List Token} (h : Whole (ts ++ us)) : Whole ts ∧ Whole us := by
  rcases List.forall_mem_append.mp h.closed with ⟨hts, hus⟩
  rcases lex_textOf h.lexed hts with ⟨hlexed, hlexed'⟩
  exact ⟨⟨hlexed, hts⟩, ⟨hlexed', hus⟩⟩

/-- Whole tokens are so without the first of them. -/
theorem Whole.of_cons {t : Token} {ts : List Token} (h : Whole (t :: ts)) : Whole ts :=
  (show Whole ([t] ++ ts) from h).of_append.2

/-- Each of some whole tokens stands between its delimiters. -/
theorem Whole.delimited {ts : List Token} (h : Whole ts) : ∀ t ∈ ts, t.Delimited := by
  have hproper := proper_lex .spanning (textOf ts)
  rw [h.lexed] at hproper
  exact hproper.delimited

end Token

namespace Sheet

open Token (textOf)

/-! ## Nodes in front of tokens -/

/-- Tokens from a place on start with those of a node: a comment, a statement with its semicolon, a
statement that a closing brace or the end of the text ends, or a block with its braces. -/
inductive HeadedBy (p : Point) : List Token → Node → Prop where
  | comment (content : List Char) (rest : List Token) :
      HeadedBy p (.comment content true :: rest) (commentNode p content)
  | statement {item : List Token} {node : Node} (hitem : IsItem item 0)
      (hnode : statementNode? p (textOf item) (some (p.advance (textOf item))) = some node)
      (rest : List Token) : HeadedBy p (item ++ .char ';' :: rest) node
  | last {item rest : List Token} {parens : Nat} {node : Node} (hitem : IsItem item parens)
      (hnode : statementNode? p (textOf item) none = some node)
      (hrest : rest = [] ∨ parens = 0 ∧ ∃ others, rest = .char '}' :: others) :
      HeadedBy p (item ++ rest) node
  | block {header inner : List Token} {children : List Node}
      (hheader : header = [] ∨ IsItem header 0)
      (hinner : Laid true ((p.advance (textOf header)).next '{') inner children)
      (rest : List Token) :
      HeadedBy p (header ++ .char '{' :: (inner ++ .char '}' :: rest))
        (blockNode p (textOf header) (((p.advance (textOf header)).next '{').advance (textOf inner))
          children)

/-- A node stands among tokens that start at a place: from some of them on they start with it. -/
def StandsAmong (p : Point) (ts : List Token) (node : Node) : Prop :=
  ∃ before back, ts = before ++ back ∧ HeadedBy (p.advance (textOf before)) back node

/-- A node stands among tokens that start with its own. -/
theorem HeadedBy.standsAmong {p : Point} {ts : List Token} {node : Node} (h : HeadedBy p ts node) :
    StandsAmong p ts node :=
  ⟨[], ts, rfl, h⟩

/-- More tokens may stand in front. -/
theorem StandsAmong.prepend {p q : Point} {ts : List Token} {node : Node}
    (h : StandsAmong q ts node) (front : List Token) (hq : q = p.advance (textOf front)) :
    StandsAmong p (front ++ ts) node := by
  rcases h with ⟨before, back, rfl, hback⟩
  refine ⟨front ++ before, back, by simp, ?_⟩
  simpa [hq, Point.advance_append] using hback

/-- The nodes of a sequence, and all below them, stand among its tokens and those behind it. -/
theorem Laid.standsAmong {nested : Bool} {p : Point} {ts rest : List Token} {nodes : List Node}
    (h : Laid nested p ts nodes)
    (hrest : rest = [] ∨ nested = true ∧ ∃ others, rest = .char '}' :: others) {node : Node}
    (hnode : node ∈ Node.preorderAll nodes) : StandsAmong p (ts ++ rest) node := by
  induction h generalizing rest with
  | nil nested p => simp [Node.preorderAll] at hnode
  | @skip nested p c ts nodes hc hts ih =>
      exact (ih hrest hnode).prepend [.char c] (by simp [Token.text])
  | @comment nested p content ts nodes hts ih =>
      rw [Node.preorderAll, List.mem_append, commentNode, Node.preorder, Node.preorderAll,
        List.mem_singleton] at hnode
      rcases hnode with rfl | hnode
      · exact (HeadedBy.comment content (ts ++ rest)).standsAmong
      · exact (ih hrest hnode).prepend [.comment content true] (by simp [Token.text])
  | @statement nested p semicolon item ts nodes hitem hsemicolon hts ih =>
      subst hsemicolon
      rw [Node.preorderAll_append, List.mem_append] at hnode
      rw [List.append_assoc, List.cons_append]
      rcases hnode with hnode | hnode
      · have hfound := statementNode?_eq_some_of_mem hnode
        exact (HeadedBy.statement hitem hfound (ts ++ rest)).standsAmong
      · have hstands := (ih hrest hnode).prepend (p := p) (item ++ [.char ';'])
          (by simp [Point.advance_append, Token.text])
        simpa using hstands
  | @last nested p item parens hitem hparens =>
      have hfound := statementNode?_eq_some_of_mem hnode
      refine (HeadedBy.last hitem hfound ?_).standsAmong
      exact hrest.imp_right fun hbrace => ⟨hparens hbrace.1, hbrace.2⟩
  | @block nested p brace closing header inner ts children nodes hheader hbrace hinner hclosing hts
      ihinner ih =>
      subst hbrace hclosing
      simp only [List.append_assoc, List.cons_append]
      rw [Node.preorderAll, List.mem_append, blockNode, Node.preorder, List.mem_cons] at hnode
      rcases hnode with (rfl | hnode) | hnode
      · exact (HeadedBy.block hheader hinner (ts ++ rest)).standsAmong
      · -- The closing brace of the block ends its last statement.
        have hclose : Token.char '}' :: (ts ++ rest) = [] ∨
            true = true ∧ ∃ others, Token.char '}' :: (ts ++ rest) = .char '}' :: others :=
          Or.inr ⟨rfl, _, rfl⟩
        have hstands := (ihinner hclose hnode).prepend (p := p) (header ++ [.char '{'])
          (by simp [Point.advance_append, Token.text])
        simpa using hstands
      · have hstands := (ih hrest hnode).prepend (p := p)
          (header ++ .char '{' :: (inner ++ [.char '}']))
          (by simp [Point.advance_append, Token.text])
        simpa using hstands

/-- A node of a sheet lies below its root, if it is not the root itself. -/
theorem mem_preorderAll_of_parse {text : List Char} {root node : Node} (h : parse text = .ok root)
    (hnode : node ∈ root.preorder) (hroot : node.content ≠ .root) :
    node ∈ Node.preorderAll root.children := by
  rcases exists_parseForest_of_parse h with ⟨forest, -, rfl⟩
  rw [Node.preorder, List.mem_cons] at hnode
  rcases hnode with rfl | hbelow
  · exact absurd rfl hroot
  · exact hbelow

/-- The nodes of a sheet below its root stand among its tokens, which leave nothing open. -/
theorem standsAmong_of_parse {text : List Char} {root : Node} (h : parse text = .ok root) :
    Token.Whole (Token.lex .spanning text) ∧ ∀ node ∈ Node.preorderAll root.children,
      StandsAmong Point.origin (Token.lex .spanning text) node := by
  rcases exists_parseForest_of_parse h with ⟨forest, hforest, rfl⟩
  have hlaid := laid_of_parseForest hforest
  have htext : textOf (Token.lex .spanning text) = text := Token.flatMap_text_lex .spanning text
  refine ⟨⟨by rw [htext], hlaid.isClosed⟩, fun node hnode => ?_⟩
  simpa using hlaid.standsAmong (Or.inl rfl) hnode

end Sheet
end StyleAtlas
