import StyleAtlas.Proofs.Hint.Segments
import StyleAtlas.Proofs.Sheet.Fields
import StyleAtlas.Proofs.Text.Lexing

/-!
# Searches find the declarations of a sheet

A scanner that searches a rule for its properties one after the other finds the declarations that
reading the sheet gives for that rule, each at its start.  The two look at the text in different
ways: the scanner counts braces and looks for names with a colon behind them, while the reader cuts
items at semicolons and braces.

Main results:

- Definition `Sheet.ParensClosed`: no parenthesis is open at a brace.
- Definition `Sheet.Content.Searchable`: what the nodes of a rule may say.
- Theorem `Sheet.Laid.ruleAt`: where a rule stands among the tokens of a sheet.
- Theorem `Scanner.Ahead.find_item`: the declaration of an item is found.
- Theorem `Scanner.openBlock_findsAll`: all declarations of a rule are found where they start.
-/

namespace StyleAtlas

open Text
open Token (textOf lex)

namespace Sheet

/-! ## Parentheses and braces -/

/-- Every parenthesis among some tokens is closed before the next brace, if there is one, where
`parens` are open in front of them. -/
def ParensClosed : (parens : Nat) → List Token → Prop
  | _, [] => True
  | parens, .char c :: ts =>
      (c = '{' ∨ c = '}' → parens = 0) ∧ ParensClosed (parensBehind parens c) ts
  | parens, .quoted _ _ :: ts => ParensClosed parens ts
  | parens, .comment _ _ :: ts => ParensClosed parens ts

/-- Whether all parentheses are closed is decided token by token. -/
def decideParensClosed : (parens : Nat) → (ts : List Token) → Decidable (ParensClosed parens ts)
  | _, [] => inferInstanceAs (Decidable True)
  | parens, .char c :: ts =>
      @instDecidableAnd (c = '{' ∨ c = '}' → parens = 0) _ _ (decideParensClosed _ ts)
  | parens, .quoted _ _ :: ts => decideParensClosed parens ts
  | parens, .comment _ _ :: ts => decideParensClosed parens ts

instance (parens : Nat) : DecidablePred (ParensClosed parens) :=
  decideParensClosed parens

/-- Then the tokens of an item have no braces. -/
theorem Inside.parensClosed {start stop : Nat} {item rest : List Token}
    (h : Inside start item stop) (hparens : ParensClosed start (item ++ rest)) :
    (∀ t ∈ item, t.isBrace = false) ∧ ParensClosed stop rest := by
  induction h with
  | nil parens => exact ⟨by simp, hparens⟩
  | @char parens stop c ts hc _ ih =>
      rcases ih hparens.2 with ⟨hbrace, hrest⟩
      refine ⟨List.forall_mem_cons.mpr ⟨Token.isBrace_char.mpr ⟨?_, ?_⟩, hbrace⟩, hrest⟩
      · rintro rfl
        exact absurd (hc (hparens.1 (Or.inl rfl))) (by decide)
      · rintro rfl
        exact absurd (hc (hparens.1 (Or.inr rfl))) (by decide)
  | quoted content _ ih =>
      exact ⟨List.forall_mem_cons.mpr ⟨rfl, (ih hparens).1⟩, (ih hparens).2⟩
  | comment content _ ih =>
      exact ⟨List.forall_mem_cons.mpr ⟨rfl, (ih hparens).1⟩, (ih hparens).2⟩

/-- A character that is no parenthesis leaves all parentheses closed. -/
theorem ParensClosed.tail_char {c : Char} (hc : c ≠ '(') (hc' : c ≠ ')') {ts : List Token}
    (h : ParensClosed 0 (.char c :: ts)) : ParensClosed 0 ts := by
  have htail := h.2
  rwa [parensBehind, if_neg hc, if_neg hc'] at htail

/-- A blank or a semicolon leaves all parentheses closed. -/
theorem ParensClosed.tail_skip {c : Char} (hc : isBlank c = true ∨ c = ';') {ts : List Token}
    (h : ParensClosed 0 (.char c :: ts)) : ParensClosed 0 ts := by
  apply h.tail_char
  · rintro rfl
    exact absurd hc (by decide)
  · rintro rfl
    exact absurd hc (by decide)

/-- Behind a sequence of nodes no parenthesis is open. -/
theorem Laid.parensClosed {nested : Bool} {p : Point} {ts rest : List Token} {nodes : List Node}
    (h : Laid nested p ts nodes) (hrest : nested = false → rest = [])
    (hparens : ParensClosed 0 (ts ++ rest)) : ParensClosed 0 rest := by
  induction h generalizing rest with
  | nil nested p => exact hparens
  | @skip nested p c ts nodes hc hts ih =>
      exact ih hrest (hparens.tail_skip hc)
  | comment hts ih => exact ih hrest hparens
  | @statement nested p semicolon item ts nodes hitem hsemicolon hts ih =>
      rw [List.append_assoc] at hparens
      have hbehind := (hitem.inside.parensClosed hparens).2
      exact ih hrest (hbehind.tail_char (by decide) (by decide))
  | @last nested p item parens hitem hparens' =>
      have hbehind := (hitem.inside.parensClosed hparens).2
      cases nested with
      | false =>
          rw [hrest rfl]
          trivial
      | true => rwa [hparens' rfl] at hbehind
  | @block nested p brace closing header inner ts children nodes hheader hbrace hinner hclosing hts
      ihinner ih =>
      simp only [List.append_assoc, List.cons_append] at hparens
      have hbehind := ((inside_header hheader).parensClosed hparens).2
      have hclose := ihinner (by simp) (hbehind.tail_char (by decide) (by decide))
      exact ih hrest (hclose.tail_char (by decide) (by decide))

/-! ## Rules among the tokens of a sheet -/

/-- A rule stands among some tokens: there are its header and what it has between its braces, and
no parenthesis is open at a brace from there on. -/
def RuleAt (p : Point) (ts : List Token) (node : Node) : Prop :=
  ∃ before header inner after closing,
    ts = before ++ (header ++ .char '{' :: (inner ++ .char '}' :: after)) ∧
    node.span = some ⟨p.advance (textOf before), closing⟩ ∧ Inside 0 header 0 ∧
    ParensClosed 0 (header ++ .char '{' :: (inner ++ .char '}' :: after)) ∧
    Laid true (((p.advance (textOf before)).advance (textOf header)).next '{') inner node.children

/-- A rule among some tokens stands among them with others in front, too. -/
theorem RuleAt.prepend {p q : Point} {ts : List Token} {node : Node} (h : RuleAt q ts node)
    (front : List Token) (hq : q = p.advance (textOf front)) : RuleAt p (front ++ ts) node := by
  rcases h with ⟨before, header, inner, after, closing, rfl, hspan, hheader, hparens, hinner⟩
  refine ⟨front ++ before, header, inner, after, closing, by simp, ?_, hheader, hparens, ?_⟩
  · simpa [hq, Point.advance_append] using hspan
  · simpa [hq, Point.advance_append] using hinner

/-- A rule of a sheet stands among its tokens. -/
theorem Laid.ruleAt {nested : Bool} {p : Point} {ts rest : List Token} {nodes : List Node}
    (h : Laid nested p ts nodes) (hrest : nested = false → rest = [])
    (hparens : ParensClosed 0 (ts ++ rest)) {node : Node} (hnode : node ∈ Node.preorderAll nodes)
    {selector : List Char} (hrule : node.content = .rule selector) :
    RuleAt p (ts ++ rest) node := by
  induction h generalizing rest with
  | nil nested p => simp [Node.preorderAll] at hnode
  | @skip nested p c ts nodes hc hts ih =>
      have hfound := ih hrest (hparens.tail_skip hc) hnode
      exact hfound.prepend [.char c] (by simp [Token.text])
  | @comment nested p content ts nodes hts ih =>
      rw [Node.preorderAll, List.mem_append, commentNode, Node.preorder, Node.preorderAll,
        List.mem_singleton] at hnode
      rcases hnode with rfl | hnode
      · simp [Node.content] at hrule
      · have hfound := ih hrest hparens hnode
        exact hfound.prepend [.comment content true] (by simp [Token.text])
  | @statement nested p semicolon item ts nodes hitem hsemicolon hts ih =>
      rw [Node.preorderAll_append, List.mem_append] at hnode
      rcases hnode with hnode | hnode
      · exact absurd hrule (content_ne_rule hnode selector)
      · rw [List.append_assoc] at hparens ⊢
        have hbehind := (hitem.inside.parensClosed hparens).2
        have hfound := ih hrest (hbehind.tail_char (by decide) (by decide)) hnode
        have hwhole := hfound.prepend (p := p) (item ++ [.char ';'])
          (by simp [hsemicolon, Point.advance_append, Token.text])
        simpa using hwhole
  | @last nested p item parens hitem hparens' => exact absurd hrule (content_ne_rule hnode selector)
  | @block nested p brace closing header inner ts children nodes hheader hbrace hinner hclosing hts
      ihinner ih =>
      simp only [List.append_assoc, List.cons_append] at hparens ⊢
      have hbehind := ((inside_header hheader).parensClosed hparens).2
      have hopen := hbehind.tail_char (by decide) (by decide)
      have hclose := (hinner.parensClosed (by simp) hopen).tail_char (by decide) (by decide)
      rw [Node.preorderAll, List.mem_append, blockNode, Node.preorder, List.mem_cons] at hnode
      rcases hnode with (rfl | hnode) | hnode
      · exact ⟨[], header, inner, ts ++ rest, closing, rfl, rfl, inside_header hheader, hparens,
          by simpa [hbrace, Node.children] using hinner⟩
      · have hfound := ihinner (by simp) hopen hnode
        have hwhole := hfound.prepend (p := p) (header ++ [.char '{'])
          (by simp [hbrace, Point.advance_append, Token.text])
        simpa using hwhole
      · have hfound := ih hrest hclose hnode
        have hwhole := hfound.prepend (p := p) (header ++ .char '{' :: (inner ++ [.char '}']))
          (by simp [hclosing, hbrace, Point.advance_append, Token.text])
        simpa using hwhole

/-! ## Declarations among the tokens of a rule -/

/-- What a node of a rule may say so that its declarations are searched for one after the other: a
comment, or a declaration whose property is a name, and whose value has no colon outside strings and
comments. -/
def Content.Searchable : Content → Prop
  | .comment _ => True
  | .declaration property value _ =>
      property ≠ [] ∧ property.all Hint.isNameChar = true ∧ .char ':' ∉ lex .spanning value
  | _ => False

instance : DecidablePred Content.Searchable
  | .root => inferInstanceAs (Decidable False)
  | .comment _ => inferInstanceAs (Decidable True)
  | .declaration property value _ =>
      inferInstanceAs (Decidable (property ≠ [] ∧ property.all Hint.isNameChar = true ∧
        .char ':' ∉ lex .spanning value))
  | .rule _ => inferInstanceAs (Decidable False)
  | .atRule _ _ => inferInstanceAs (Decidable False)

/-- A character of ASCII that is no vertical tabulator. -/
def IsPlain (c : Char) : Prop :=
  c.toNat < 128 ∧ c ≠ '\x0b'

instance : DecidablePred IsPlain := fun c =>
  inferInstanceAs (Decidable (c.toNat < 128 ∧ c ≠ '\x0b'))

/-- A plain character that is blank is a plain blank. -/
theorem IsPlain.isPlainBlank {c : Char} (h : IsPlain c) (hc : isBlank c = true) :
    isPlainBlank c = true := by
  have hne : c.toNat ≠ 11 := fun h11 => h.2 (Char.toNat_inj.mp h11)
  have hlt := h.1
  simp only [isBlank, Bool.or_eq_true, Bool.and_eq_true, decide_eq_true_eq, beq_iff_eq] at hc
  simp only [Text.isPlainBlank, Bool.or_eq_true, beq_iff_eq]
  omega

/-- Tokens without braces, as they are read from a text of plain characters, that leave nothing
open. -/
structure Flat (ts : List Token) : Prop where
  lexed : lex .spanning (textOf ts) = ts
  closed : ∀ t ∈ ts, t.isClosed = true
  plain : ∀ c ∈ textOf ts, IsPlain c
  not_brace : ∀ t ∈ ts, t.isBrace = false

/-- Both parts of flat tokens are flat. -/
theorem Flat.of_append {ts us : List Token} (h : Flat (ts ++ us)) : Flat ts ∧ Flat us := by
  have hclosed := List.forall_mem_append.mp h.closed
  have hbrace := List.forall_mem_append.mp h.not_brace
  have hlexed := Token.lex_textOf h.lexed hclosed.1
  have hplain : ∀ c ∈ textOf ts ++ textOf us, IsPlain c := by simpa using h.plain
  rw [List.forall_mem_append] at hplain
  exact ⟨⟨hlexed.1, hclosed.1, hplain.1, hbrace.1⟩, ⟨hlexed.2, hclosed.2, hplain.2, hbrace.2⟩⟩

/-- The first of some flat tokens is flat, and so are the others. -/
theorem Flat.of_cons {t : Token} {ts : List Token} (h : Flat (t :: ts)) : Flat [t] ∧ Flat ts :=
  (show Flat ([t] ++ ts) from h).of_append

/-- Tokens without braces of a text of plain characters. -/
theorem Flat.of_lex {text : List Char} {front ts back : List Token}
    (h : lex .spanning text = front ++ (ts ++ back))
    (hclosed : ∀ t ∈ front ++ (ts ++ back), t.isClosed = true) (hplain : ∀ c ∈ text, IsPlain c)
    (hbrace : ∀ t ∈ ts, t.isBrace = false) : Flat ts := by
  simp only [List.forall_mem_append] at hclosed
  have hlexed := (Token.lex_textOf h hclosed.1).2
  refine ⟨(Token.lex_textOf hlexed hclosed.2.1).1, hclosed.2.1, fun c hc => hplain c ?_, hbrace⟩
  have htext := Token.flatMap_text_lex .spanning text
  rw [h, List.flatMap_append, List.flatMap_append] at htext
  rw [← htext]
  exact List.mem_append_right _ (List.mem_append_left _ hc)

/-- What stands behind a value opens nothing and has no colon. -/
theorem IsMarking.isInert {c : Char} (h : IsMarking c) : Token.isInert c = true ∧ c ≠ ':' := by
  rcases h with h | rfl | h
  · refine ⟨Token.isInert_of_isBlank h, ?_⟩
    rintro rfl
    exact absurd h (by decide)
  · decide
  · refine ⟨Token.isInert_of (P := fun c => c.toLower ∈ importantWord) (by decide) h, ?_⟩
    rintro rfl
    exact absurd h (by decide)

/-- The tokens behind the colon of a declaration are those of its value, between characters that
may stand behind a value. -/
theorem forall_mem_lex_of_value {P : Token → Prop} {after : List Char}
    (hclosed : ∀ t ∈ lex .spanning after, t.isClosed = true)
    (hmarking : ∀ c, IsMarking c → P (.char c))
    (hvalue : ∀ t ∈ lex .spanning (splitImportant (trim after)).1, P t) :
    ∀ t ∈ lex .spanning after, P t := by
  rcases exists_eq_splitImportant after with ⟨gap, rest, hafter, hgap, hrest⟩
  generalize (splitImportant (trim after)).1 = value at hafter hvalue
  subst hafter
  have hinert : ∀ c ∈ gap, Token.isInert c = true :=
    fun c hc => Token.isInert_of_isBlank (hgap c hc)
  rw [Token.lex_chars_append .spanning hinert] at hclosed ⊢
  rw [Token.lex_append_chars (fun c hc => (hrest c hc).isInert.1)
    fun t ht => hclosed t (List.mem_append_right _ ht)]
  simp only [List.forall_mem_append, List.forall_mem_map]
  exact ⟨fun c hc => hmarking c (Or.inl (hgap c hc)), hvalue,
    fun c hc => hmarking c (hrest c hc)⟩

/-- Behind the colon of a declaration there is no other one. -/
theorem colon_not_mem_lex {after : List Char}
    (hclosed : ∀ t ∈ lex .spanning after, t.isClosed = true)
    (hvalue : .char ':' ∉ lex .spanning (splitImportant (trim after)).1) :
    .char ':' ∉ lex .spanning after := by
  intro hmem
  refine forall_mem_lex_of_value (P := (· ≠ .char ':')) hclosed ?_ ?_ _ hmem rfl
  · intro c hc hcolon
    exact hc.isInert.2 (Token.char.inj hcolon)
  · rintro t ht rfl
    exact hvalue ht

/-- The tokens of a declaration are its head, up to the colon, and tokens without a colon. -/
theorem IsItem.exists_declarationHead {item : List Token} (hitem : IsItem item 0)
    (hflat : Flat item) {before after : List Char} (htext : textOf item = before ++ ':' :: after)
    (hname : ∀ c ∈ trim before, Hint.isNameChar c = true)
    (hvalue : .char ':' ∉ lex .spanning (splitImportant (trim after)).1) :
    ∃ gap rest, item = Hint.declarationHead (trim before) gap ++ rest ∧
      (∀ c ∈ gap, isPlainBlank c = true) ∧ .char ':' ∉ rest := by
  rcases exists_eq_trim before with ⟨front, gap, hbefore, hfront, hgap⟩
  -- Items start visibly, so that nothing is trimmed in front.
  have hnil : front = [] := by
    cases front with
    | nil => rfl
    | cons c front =>
        have hc : isBlank c = true := hfront c (by simp)
        have hlex := hflat.lexed
        rw [htext, hbefore, List.cons_append, List.cons_append,
          Token.lex_cons .spanning (Token.isInert_of_isBlank hc)] at hlex
        rcases hitem.begins with ⟨t, others, hcons, ht⟩
        rw [← hlex] at hcons
        obtain rfl := (List.cons.inj hcons).1
        simp [Sheet.begins, hc] at ht
  rw [hnil, List.nil_append] at hbefore
  have hgap' : ∀ c ∈ gap, isPlainBlank c = true := by
    intro c hc
    have hmem : c ∈ textOf item := by
      rw [htext, hbefore]
      simp [hc]
    exact (hflat.plain c hmem).isPlainBlank (hgap c hc)
  have hinert : ∀ c ∈ trim before ++ gap, Token.isInert c = true :=
    List.forall_mem_append.mpr ⟨fun c hc => Hint.isInert_of_isNameChar (hname c hc),
      fun c hc => Token.isInert_of_isBlank (hgap c hc)⟩
  have hsplit : item = Hint.declarationHead (trim before) gap ++ lex .spanning after := by
    rw [← hflat.lexed, htext]
    nth_rewrite 1 [hbefore]
    rw [Token.lex_chars_append .spanning hinert, Token.lex_cons .spanning (by decide)]
    simp [Hint.declarationHead]
  refine ⟨gap, lex .spanning after, hsplit, hgap', colon_not_mem_lex ?_ hvalue⟩
  intro t ht
  exact hflat.closed t (hsplit ▸ List.mem_append_right _ ht)

/-- Nothing that a header says is searched for. -/
theorem not_searchable_ofHeader (header : List Char) :
    ¬(Content.ofHeader header).Searchable := by
  unfold Content.ofHeader
  split <;> exact id

/-- A rule in which declarations are searched for has no blocks inside. -/
theorem Laid.not_isBrace {nested : Bool} {p : Point} {ts rest : List Token} {nodes : List Node}
    (h : Laid nested p ts nodes) (hsearch : ∀ node ∈ nodes, node.content.Searchable)
    (hparens : ParensClosed 0 (ts ++ rest)) : ∀ t ∈ ts, t.isBrace = false := by
  induction h with
  | nil nested p => simp
  | @skip nested p c ts nodes hc hts ih =>
      refine List.forall_mem_cons.mpr ⟨Token.isBrace_char.mpr ⟨?_, ?_⟩,
        ih hsearch (hparens.tail_skip hc)⟩
      · rintro rfl
        exact absurd hc (by decide)
      · rintro rfl
        exact absurd hc (by decide)
  | comment hts ih =>
      exact List.forall_mem_cons.mpr ⟨rfl, ih (List.forall_mem_cons.mp hsearch).2 hparens⟩
  | @statement nested p semicolon item ts nodes hitem hsemicolon hts ih =>
      rw [List.append_assoc] at hparens
      rcases hitem.inside.parensClosed hparens with ⟨hbrace, hbehind⟩
      refine List.forall_mem_append.mpr ⟨hbrace, List.forall_mem_cons.mpr ⟨by decide, ?_⟩⟩
      exact ih (List.forall_mem_append.mp hsearch).2 (hbehind.tail_char (by decide) (by decide))
  | last hitem hparens' => exact (hitem.inside.parensClosed hparens).1
  | @block nested p brace closing header inner ts children nodes hheader hbrace hinner hclosing hts
      ihinner ih =>
      exact (not_searchable_ofHeader _ (List.forall_mem_cons.mp hsearch).1).elim

/-- The declarations among some nodes: their properties and the offsets at which they start. -/
def declared (nodes : List Node) : List (List Char × Option Nat) :=
  nodes.filterMap fun node =>
    match node.content with
    | .declaration property _ _ => some (property, node.span.map fun span => span.first.offset)
    | _ => none

/-- A statement that says something starts where its text does. -/
theorem exists_statementNode? {text : List Char} {content : Content}
    (h : Content.ofStatement? text = some content) (hcolon : ':' ∈ text) (p : Point)
    (semicolon : Option Point) :
    ∃ span, statementNode? p text semicolon = some (.mk content (some span) []) ∧
      span.first = p := by
  cases semicolon with
  | some last => exact ⟨⟨p, last⟩, by simp [statementNode?, h], rfl⟩
  | none =>
      rcases Point.lastVisible?_cases p text with ⟨-, hblank⟩ | ⟨init, c, blanks, -, -, -, hlast⟩
      · exact absurd (hblank ':' hcolon) (by decide)
      · exact ⟨⟨p, p.advance init⟩, by simp [statementNode?, h, Span.over?, hlast], rfl⟩

end Sheet

/-! ## Searching for the declarations of a rule -/

namespace Scanner

open Sheet

/-- Search for some signatures one after the other. -/
def findEach (source : Source) : Scanner → List Signature → List (Option Nat)
  | _, [] => []
  | s, signature :: signatures =>
      (s.find source signature).1 :: findEach source (s.find source signature).2 signatures

/-- A scanner that searches for the declarations among some nodes one after the other finds each of
them at its start. -/
def FindsAll (source : Source) (s : Scanner) (nodes : List Sheet.Node) : Prop :=
  none ∉ (declared nodes).map Prod.snd ∧
    s.findEach source ((declared nodes).map fun d => .property d.1) =
      (declared nodes).map Prod.snd

variable {source : Source} {s : Scanner}

/-- A scanner that searches for nothing finds all of it. -/
theorem FindsAll.nil : s.FindsAll source [] :=
  ⟨by simp [declared], rfl⟩

/-- A comment is not searched for. -/
theorem FindsAll.comment {nodes : List Sheet.Node} (p : Point) (content : List Char)
    (h : s.FindsAll source nodes) : s.FindsAll source (commentNode p content :: nodes) :=
  h

/-- A declaration that is found at its start may come before others that are found. -/
theorem FindsAll.declaration {next : Scanner} {nodes : List Sheet.Node} {property value : List Char}
    {important : Bool} {span : Span}
    (hfind : s.find source (.property property) = (some span.first.offset, next))
    (h : next.FindsAll source nodes) :
    s.FindsAll source (.mk (.declaration property value important) (some span) [] :: nodes) := by
  have hdeclared : declared (.mk (.declaration property value important) (some span) [] :: nodes) =
      (property, some span.first.offset) :: declared nodes := rfl
  refine ⟨by simpa [hdeclared] using h.1, ?_⟩
  simp only [hdeclared, List.map_cons, findEach, hfind, h.2]

/-- An item directly inside a block: its declaration is found, if it has one, and what is left of it
has no colon. -/
theorem Ahead.find_item {p : Point} {item ts : List Token} {semicolon : Option Point}
    (hitem : IsItem item 0) (hflat : Flat item)
    (hsearch : ∀ node ∈ (statementNode? p (textOf item) semicolon).toList,
      node.content.Searchable)
    (h : s.Ahead source p.offset (item ++ ts)) (hceiling : p.offset < (s.window source).ceiling) :
    ∃ (next : Scanner) (offset : Nat) (rest : List Token),
      next.window source = s.window source ∧ next.Ahead source offset (rest ++ ts) ∧
      offset + byteSize (textOf rest) = p.offset + byteSize (textOf item) ∧
      .char ':' ∉ rest ∧ (∀ t ∈ rest, t.isBrace = false) ∧
      ∀ nodes, next.FindsAll source nodes →
        s.FindsAll source ((statementNode? p (textOf item) semicolon).toList ++ nodes) := by
  have hbrace := hflat.not_brace
  rcases Content.ofStatement?_cases (textOf item) with
    ⟨hnone, hcolon⟩ | ⟨rest, -, hsome⟩ | ⟨before, after, htext, -, hsome⟩
  · refine ⟨s, p.offset, item, rfl, h, rfl, fun hmem => hcolon ?_, hbrace, fun nodes hnodes => ?_⟩
    · exact List.mem_flatMap_of_mem hmem (by simp [Token.text])
    · simpa [statementNode?, hnone] using hnodes
  · simp only [statementNode?, hsome, Option.map_some, Option.toList_some] at hsearch
    exact (hsearch _ (List.mem_singleton_self _)).elim
  · have hmem : ':' ∈ textOf item := by simp [htext]
    rcases exists_statementNode? hsome hmem p semicolon with ⟨span, hnode, hspan⟩
    rw [hnode, Option.toList_some] at hsearch ⊢
    rcases hsearch _ (List.mem_singleton_self _) with ⟨hne, hall, hvalue⟩
    have hname := List.all_eq_true.mp hall
    rcases hitem.exists_declarationHead hflat htext hname hvalue with
      ⟨gap, rest, hsplit, hgap, hrest⟩
    rw [hsplit, List.append_assoc] at h
    rw [hsplit] at hbrace
    rcases h.find hne hname hgap (fun t ht => hbrace t (List.mem_append_left _ ht)) hceiling with
      ⟨next, hfind, hwindow, hahead⟩
    refine ⟨next, _, rest, hwindow, hahead, ?_, hrest,
      fun t ht => hbrace t (List.mem_append_right _ ht), fun nodes hnodes => ?_⟩
    · conv_rhs => rw [hsplit]
      simp [Nat.add_assoc]
    · rw [← hspan] at hfind
      exact FindsAll.declaration hfind hnodes

/-- The declarations directly inside a block are all found. -/
theorem Ahead.findsAll {nested : Bool} {p : Point} {inner after : List Token}
    {nodes : List Sheet.Node} (hlaid : Laid nested p inner nodes) (hnested : nested = true)
    (hflat : Flat inner) (hsearch : ∀ node ∈ nodes, node.content.Searchable)
    (h : s.Ahead source p.offset (inner ++ after))
    (hceiling : p.offset + byteSize (textOf inner) < (s.window source).ceiling) :
    s.FindsAll source nodes := by
  -- The cases are those of the grammar; what is passed over is quiet, up to the next declaration.
  induction hlaid generalizing s with
  | nil nested p => exact .nil
  | @skip nested p c ts nodes hc hts ih =>
      rcases hflat.of_cons with ⟨hfirst, hrest⟩
      have hname : Hint.isNameChar c = false := by
        rcases hc with hblank | rfl
        · have hplain := hfirst.plain c (by simp [Token.text])
          exact Hint.isNameChar_of_isPlainBlank (hplain.isPlainBlank hblank)
        · decide
      have hquiet := Ahead.quiet [.char c] h (.char hname (hfirst.not_brace _ (by simp)))
      refine ih hnested hrest hsearch (by simpa [Token.text] using hquiet) ?_
      simpa [Token.text, Nat.add_assoc] using hceiling
  | @comment nested p content ts nodes hts ih =>
      rcases hflat.of_cons with ⟨-, hrest⟩
      have hquiet := Ahead.quiet [.comment content true] h (.comment content true)
      refine .comment p content (ih hnested hrest (List.forall_mem_cons.mp hsearch).2
        (by simpa [Token.text] using hquiet) ?_)
      simpa [Token.text, Nat.add_assoc] using hceiling
  | @statement nested p semicolon item ts nodes hitem hsemicolon hts ih =>
      rcases hflat.of_append with ⟨hfirst, hsecond⟩
      rw [List.forall_mem_append] at hsearch
      rw [List.append_assoc] at h
      simp only [List.flatMap_append, List.flatMap_cons, byteSize_append] at hceiling
      rcases h.find_item hitem hfirst hsearch.1 (by omega) with
        ⟨next, offset, rest, hwindow, hahead, hoffset, hcolon, hbrace, hall⟩
      have hplace : offset + byteSize (textOf (rest ++ [.char ';'])) =
          (semicolon.next ';').offset := by
        simp [hsemicolon, Token.text, ← hoffset, Nat.add_assoc]
      have hquiet := Ahead.quiet (rest ++ [.char ';']) (by simpa using hahead)
        (.statement hcolon hbrace)
      rw [hplace] at hquiet
      apply hall
      refine ih hnested hsecond.of_cons.2 hsearch.2 hquiet ?_
      simpa [hwindow, hsemicolon, Token.text, Nat.add_assoc] using hceiling
  | @last nested p item parens hitem hparens =>
      obtain rfl := hparens hnested
      rcases h.find_item hitem hflat hsearch (by omega) with ⟨next, -, -, -, -, -, -, -, hall⟩
      simpa using hall [] .nil
  | @block nested p brace closing header inner ts children nodes hheader hbrace hinner hclosing hts
      ihinner ih =>
      exact (not_searchable_ofHeader _ (List.forall_mem_cons.mp hsearch).1).elim

/-- The tokens of a text from some of them on are the same for a scanner, where no string has a line
feed. -/
theorem tokensFrom_textOf {text : List Char} {before block : List Token}
    (htokens : lex .spanning text = before ++ block) (hclosed : ∀ t ∈ before, t.isClosed = true)
    (hfeed : ∀ content closed, .quoted content closed ∈ lex .spanning text → '\n' ∉ content) :
    Source.tokensFrom ⟨text⟩ .singleLine (byteSize (textOf before)) =
      Placed.ofTokens (byteSize (textOf before)) block := by
  have hsplit : text = textOf before ++ textOf block := by
    rw [← List.flatMap_append, ← htokens, Token.flatMap_text_lex]
  have hlexed := (Token.lex_textOf htokens hclosed).2
  rw [Source.tokensFrom_byteSize hsplit, Token.lex_singleLine, hlexed]
  intro content closed hmem
  rw [hlexed] at hmem
  exact hfeed content closed (htokens ▸ List.mem_append_right _ hmem)

/-- A rule that stands among the tokens of a text. -/
theorem findsAll_of_ruleAt {text : List Char} {rule : Sheet.Node}
    (h : RuleAt Point.origin (lex .spanning text) rule)
    (hclosed : ∀ t ∈ lex .spanning text, t.isClosed = true) (hplain : ∀ c ∈ text, IsPlain c)
    (hfeed : ∀ content closed, .quoted content closed ∈ lex .spanning text → '\n' ∉ content)
    (hsearch : ∀ child ∈ rule.children, child.content.Searchable) :
    ∃ span, rule.span = some span ∧
      (init.openBlock ⟨text⟩ span.first.offset).FindsAll ⟨text⟩ rule.children := by
  rcases h with ⟨before, header, inner, after, closing, htokens, hspan, hheader, hparens, hinner⟩
  have hstart : (Point.origin.advance (textOf before)).offset = byteSize (textOf before) := by
    simp [Point.origin]
  rw [htokens] at hclosed
  have hfrom := tokensFrom_textOf htokens (List.forall_mem_append.mp hclosed).1 hfeed
  rcases hheader.parensClosed hparens with ⟨hbrace, hbehind⟩
  have hopen := hbehind.tail_char (by decide) (by decide)
  have hbrace' := hinner.not_isBrace hsearch hopen
  have hflat : Flat inner := by
    have hfront : before ++ (header ++ .char '{' :: (inner ++ .char '}' :: after)) =
        (before ++ header ++ [.char '{']) ++ (inner ++ .char '}' :: after) := by simp
    rw [hfront] at htokens hclosed
    exact .of_lex htokens hclosed hplain hbrace'
  have hend := Hint.blockEnd_rule hfrom hheader (List.forall_mem_append.mpr ⟨hbrace, hbrace'⟩)
  have hahead := ahead_openBlock hfrom hbrace
  have hplace : byteSize (textOf before) + byteSize (textOf header) + 1 =
      (((Point.origin.advance (textOf before)).advance (textOf header)).next '{').offset := by
    have hopening : '{'.utf8Size = 1 := by decide
    rw [Point.offset_next, Point.offset_advance, hstart, hopening]
  rw [hplace] at hahead hend
  refine ⟨_, hspan, ?_⟩
  rw [hstart]
  refine hahead.findsAll hinner rfl hflat hsearch ?_
  change _ < Hint.blockEnd _ _
  omega

/-- In a sheet of plain characters in which no string has a line feed and no parenthesis is open at
a brace, a scanner that enters a rule finds all its declarations, each of them at its start. -/
theorem openBlock_findsAll {text : List Char} {root : Sheet.Node} (hplain : ∀ c ∈ text, IsPlain c)
    (h : parse text = .ok root)
    (hfeed : ∀ content closed, .quoted content closed ∈ lex .spanning text → '\n' ∉ content)
    (hparens : ParensClosed 0 (lex .spanning text)) {rule : Sheet.Node}
    (hrule : rule ∈ root.preorder) {selector : List Char}
    (hselector : rule.content = .rule selector)
    (hsearch : ∀ child ∈ rule.children, child.content.Searchable) :
    ∃ span, rule.span = some span ∧
      (init.openBlock ⟨text⟩ span.first.offset).FindsAll ⟨text⟩ rule.children := by
  rcases hforest : parseForest text with error | forest
  · simp [parse, hforest, Except.map] at h
  obtain rfl : Sheet.Node.mk .root none forest = root := by
    simpa [parse, hforest, Except.map] using h
  have hlaid := laid_of_parseForest hforest
  have hbelow : rule ∈ Sheet.Node.preorderAll forest := by
    rw [Sheet.Node.preorder, List.mem_cons] at hrule
    rcases hrule with rfl | hbelow
    · simp [Sheet.Node.content] at hselector
    · exact hbelow
  have hat : RuleAt Point.origin (lex .spanning text ++ []) rule :=
    hlaid.ruleAt (fun _ => rfl) (by simpa using hparens) hbelow hselector
  rw [List.append_nil] at hat
  exact findsAll_of_ruleAt hat hlaid.isClosed hplain hfeed hsearch

/-- A rule with a pseudo-class in its header, colons in a comment and in a string, a property behind
a vendor mark, a word that is no declaration, and a semicolon in parentheses. -/
def vendorText : List Char :=
  ['a', ':', 'b', '{', '/', '*', ':', '*', '/', '-', 'x', '-', 'c', ' ', ':', '\x22', 'c', ':',
    '\x22', '!', 'i', 'm', 'p', 'o', 'r', 't', 'a', 'n', 't', ';', 'w', ';', 'c', ':', 'f', '(',
    ';', ')', '}']

/-- The node of the rule. -/
def vendorRule : Sheet.Node :=
  .mk (.rule ['a', ':', 'b']) (some ⟨⟨1, 1, 0⟩, ⟨1, 39, 38⟩⟩)
    [.mk (.comment [':']) (some ⟨⟨1, 5, 4⟩, ⟨1, 9, 8⟩⟩) [],
      .mk (.declaration ['-', 'x', '-', 'c'] ['\x22', 'c', ':', '\x22'] true)
        (some ⟨⟨1, 10, 9⟩, ⟨1, 30, 29⟩⟩) [],
      .mk (.declaration ['c'] ['f', '(', ';', ')'] false)
        (some ⟨⟨1, 33, 32⟩, ⟨1, 38, 37⟩⟩) []]

/-- Both declarations of the rule are found at their starts. -/
theorem openBlock_findsAll_vendorText :
    parse vendorText = .ok (.mk .root none [vendorRule]) ∧
      (init.openBlock ⟨vendorText⟩ 0).findEach ⟨vendorText⟩
        [.property ['-', 'x', '-', 'c'], .property ['c']] = [some 9, some 32] := by
  have hparse : parse vendorText = .ok (.mk .root none [vendorRule]) := rfl
  have hplain : vendorText.all (fun c => decide (IsPlain c)) = true := by decide
  have hfeed : ∀ t ∈ lex .spanning vendorText, '\n' ∉ t.text := by decide
  have hrule : vendorRule ∈ (Sheet.Node.mk .root none [vendorRule]).preorder := by
    simp [Sheet.Node.preorder, Sheet.Node.preorderAll, vendorRule]
  rcases openBlock_findsAll (fun c hc => of_decide_eq_true (List.all_eq_true.mp hplain c hc)) hparse
    (fun content closed hmem => hfeed _ hmem) (by decide) hrule rfl (by decide) with
    ⟨span, hspan, -, hfind⟩
  obtain rfl := Option.some.inj hspan
  exact ⟨hparse, hfind⟩

end Scanner
end StyleAtlas
