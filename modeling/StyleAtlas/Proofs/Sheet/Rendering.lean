import StyleAtlas.Proofs.Sheet.Fields
import StyleAtlas.Proofs.Sheet.Layout
import StyleAtlas.Proofs.Text.Lexing

/-!
# Reading undoes writing

A draft is a forest of comments, declarations, rules and at-rules, with the blanks that stand
between them when it is written down.  What its fields may be is said of each field alone: nothing
is left open in it, and nothing in it would end an item.  The text of such a draft is read as the
forest again, whatever its blanks and however deep it is.

Main results:

- Definitions `Sheet.IsField` and `Sheet.IsHead`: texts that may be written as fields.
- Definition `Sheet.Draft`, with `Sheet.Draft.text` and `Sheet.Draft.nodes`: forests to be written.
- Definition `Sheet.ReadsAs`: texts that are laid out as a forest wherever they stand.
- Theorem `Sheet.Draft.bare_parse_text`: a draft that is written down is read as its forest.
-/

namespace StyleAtlas

namespace Sheet

open Text
open Token (textOf lex)

/-! ## Fields -/

/-- A text may stand inside an item: every string, comment and parenthesis in it is closed, and
outside of them there is nothing that ends an item. -/
def Enclosed (cs : List Char) : Prop :=
  Inside 0 (lex .spanning cs) 0

/-- A text that may be a field of an item; it has no blanks at its ends. -/
structure IsField (cs : List Char) : Prop where
  trimmed : trim cs = cs
  enclosed : Enclosed cs

/-- A field that an item may start with. -/
structure IsHead (cs : List Char) : Prop extends IsField cs where
  ne_nil : cs ≠ []
  not_keyword : cs.head? ≠ some '@'
  not_comment : ¬['/', '*'] <+: cs

/-- What a node may say so that it can be written down. -/
def Content.WellFormed : Content → Prop
  | .root => False
  | .comment text => trim text = text ∧ ¬['*', '/'] <:+: text
  | .declaration property value important =>
      IsHead property ∧ ':' ∉ property ∧ IsField value ∧
        (important = false → splitImportant value = (value, false))
  | .rule selector => IsHead selector
  | .atRule name params => name ≠ [] ∧ name.all isKeywordChar = true ∧ IsField params

/-- The number of parentheses that are open behind tokens inside an item; there is none where the
item ends before. -/
def openBehind? : Nat → List Token → Option Nat
  | parens, [] => some parens
  | parens, .char c :: ts =>
      if parens = 0 ∧ isTerminator c = true then none else openBehind? (parensBehind parens c) ts
  | parens, .quoted _ closed :: ts => if closed then openBehind? parens ts else none
  | parens, .comment _ closed :: ts => if closed then openBehind? parens ts else none

/-- The open parentheses behind some tokens can be counted where the tokens stay inside the item. -/
theorem openBehind?_eq_some_iff {parens stop : Nat} {ts : List Token} :
    openBehind? parens ts = some stop ↔ Inside parens ts stop := by
  constructor
  · intro h
    fun_induction openBehind? parens ts with
    | case1 parens => exact Option.some.inj h ▸ .nil parens
    | case2 => simp at h
    | case3 parens c ts hopen ih =>
        exact .char (fun hparens => by simpa [hparens] using hopen) (ih h)
    | case4 parens content ts ih => exact .quoted content (ih h)
    | case5 => simp at h
    | case6 parens content ts ih => exact .comment content (ih h)
    | case7 => simp at h
  · intro h
    induction h with
    | nil parens => rfl
    | char hc _ ih => rw [openBehind?, if_neg (by simpa using hc), ih]
    | quoted content _ ih => simpa [openBehind?] using ih
    | comment content _ ih => simpa [openBehind?] using ih

instance : DecidablePred Enclosed := fun _ => decidable_of_iff _ openBehind?_eq_some_iff

instance : DecidablePred IsField := fun cs =>
  decidable_of_iff (trim cs = cs ∧ Enclosed cs) ⟨fun h => ⟨h.1, h.2⟩, fun h => ⟨h.1, h.2⟩⟩

instance : DecidablePred IsHead := fun cs =>
  decidable_of_iff (IsField cs ∧ cs ≠ [] ∧ cs.head? ≠ some '@' ∧ ¬['/', '*'] <+: cs)
    ⟨fun h => ⟨h.1, h.2.1, h.2.2.1, h.2.2.2⟩, fun h => ⟨h.1, h.2, h.3, h.4⟩⟩

instance : DecidablePred Content.WellFormed
  | .root => inferInstanceAs (Decidable False)
  | .comment text => inferInstanceAs (Decidable (trim text = text ∧ ¬['*', '/'] <:+: text))
  | .declaration property value important =>
      inferInstanceAs (Decidable (IsHead property ∧ ':' ∉ property ∧ IsField value ∧
        (important = false → splitImportant value = (value, false))))
  | .rule selector => inferInstanceAs (Decidable (IsHead selector))
  | .atRule name params =>
      inferInstanceAs (Decidable (name ≠ [] ∧ name.all isKeywordChar = true ∧ IsField params))

/-- What a node says, written down without the end of its item. -/
def Content.written : Content → List Char
  | .root => []
  | .comment text => '/' :: '*' :: ' ' :: (text ++ [' ', '*', '/'])
  | .declaration property value important =>
      property ++ ':' :: ' ' :: (value ++ if important then ' ' :: '!' :: importantWord else [])
  | .rule selector => selector
  | .atRule name params => '@' :: (name ++ ' ' :: params)

/-! ## Drafts -/

/-- A forest to be written down, with the blanks before each item and at its end. -/
inductive Draft where
  | done (gap : Gap)
  | comment (gap : Gap) (text : List Char) (rest : Draft)
  | declaration (gap : Gap) (property value : List Char) (important : Bool) (rest : Draft)
  | rule (gap : Gap) (selector : List Char) (body rest : Draft)
  | atRule (gap : Gap) (name params : List Char) (body rest : Draft)

namespace Draft

/-- The nodes of the forest, which were not read from anywhere. -/
def nodes : Draft → List Node
  | done _ => []
  | comment _ text rest => .mk (.comment text) none [] :: rest.nodes
  | declaration _ property value important rest =>
      .mk (.declaration property value important) none [] :: rest.nodes
  | rule _ selector body rest => .mk (.rule selector) none body.nodes :: rest.nodes
  | atRule _ name params body rest => .mk (.atRule name params) none body.nodes :: rest.nodes

/-- The text of the forest.  An at-rule without nodes in it is written as a statement. -/
def text : Draft → List Char
  | done gap => gap.chars
  | comment gap text rest => gap.chars ++ (Content.comment text).written ++ rest.text
  | declaration gap property value important rest =>
      gap.chars ++ (Content.declaration property value important).written ++ ';' :: rest.text
  | rule gap selector body rest =>
      gap.chars ++ (Content.rule selector).written ++ ' ' :: '{' :: (body.text ++ '}' :: rest.text)
  | atRule gap name params body rest =>
      gap.chars ++ (Content.atRule name params).written ++
        if body.nodes.isEmpty then ';' :: rest.text
        else ' ' :: '{' :: (body.text ++ '}' :: rest.text)

/-- All nodes of the forest can be written down. -/
def WellFormed : Draft → Prop
  | done _ => True
  | comment _ text rest => (Content.comment text).WellFormed ∧ rest.WellFormed
  | declaration _ property value important rest =>
      (Content.declaration property value important).WellFormed ∧ rest.WellFormed
  | rule _ selector body rest =>
      (Content.rule selector).WellFormed ∧ body.WellFormed ∧ rest.WellFormed
  | atRule _ name params body rest =>
      (Content.atRule name params).WellFormed ∧ body.WellFormed ∧ rest.WellFormed

/-- Whether a draft can be written down is decided node by node. -/
def decideWellFormed : (d : Draft) → Decidable d.WellFormed
  | done _ => inferInstanceAs (Decidable True)
  | comment _ text rest =>
      @instDecidableAnd (Content.comment text).WellFormed _ _ rest.decideWellFormed
  | declaration _ property value important rest =>
      @instDecidableAnd (Content.declaration property value important).WellFormed _ _
        rest.decideWellFormed
  | rule _ selector body rest =>
      @instDecidableAnd (Content.rule selector).WellFormed _ _
        (@instDecidableAnd _ _ body.decideWellFormed rest.decideWellFormed)
  | atRule _ name params body rest =>
      @instDecidableAnd (Content.atRule name params).WellFormed _ _
        (@instDecidableAnd _ _ body.decideWellFormed rest.decideWellFormed)

instance : DecidablePred WellFormed :=
  decideWellFormed

end Draft

namespace Node

mutual

/-- The node as if it was not read from anywhere. -/
def bare : Node → Node
  | mk content _ children => mk content none (bareAll children)

/-- The nodes as if they were not read from anywhere. -/
def bareAll : List Node → List Node
  | [] => []
  | n :: ns => bare n :: bareAll ns

end

end Node

/-! ## Texts that leave nothing open -/

/-- A character that stands for itself and neither opens, closes nor ends anything. -/
def isOrdinary (c : Char) : Bool :=
  Token.isInert c && !(c == '(' || c == ')' || isTerminator c)

/-- What no delimiter satisfies is satisfied by ordinary characters only. -/
theorem isOrdinary_of {P : Char → Prop} (hdelimiter : ¬P '\x22' ∧ ¬P '\x27' ∧ ¬P '/' ∧ ¬P '*')
    (hparen : ¬P '(' ∧ ¬P ')') (hterminator : ¬P '{' ∧ ¬P ';' ∧ ¬P '}') {c : Char} (h : P c) :
    isOrdinary c = true := by
  rw [isOrdinary, Token.isInert_of hdelimiter h, Bool.true_and]
  by_contra hnot
  simp only [isTerminator, Bool.not_eq_true, Bool.not_eq_false', Bool.or_eq_true,
    beq_iff_eq] at hnot
  rcases hnot with (rfl | rfl) | ((rfl | rfl) | rfl)
  · exact hparen.1 h
  · exact hparen.2 h
  · exact hterminator.1 h
  · exact hterminator.2.1 h
  · exact hterminator.2.2 h

/-- The characters of keywords are ordinary. -/
theorem isOrdinary_of_isKeywordChar {c : Char} (h : isKeywordChar c = true) :
    isOrdinary c = true :=
  isOrdinary_of (P := fun c => isKeywordChar c = true) (by decide) (by decide) (by decide) h

/-- Blanks are ordinary. -/
theorem isOrdinary_of_isBlank {c : Char} (h : isBlank c = true) : isOrdinary c = true :=
  isOrdinary_of (P := fun c => isBlank c = true) (by decide) (by decide) (by decide) h

/-- Tokens inside an item may follow one another. -/
theorem Inside.append {start middle stop : Nat} {ts us : List Token} (h : Inside start ts middle)
    (hus : Inside middle us stop) : Inside start (ts ++ us) stop := by
  induction h with
  | nil parens => exact hus
  | char hc _ ih => exact .char hc (ih hus)
  | quoted content _ ih => exact .quoted content (ih hus)
  | comment content _ ih => exact .comment content (ih hus)

/-- What is inside an item behind some of its tokens. -/
theorem Inside.of_append {start middle stop : Nat} {ts us : List Token} (h : Inside start ts middle)
    (hus : Inside start (ts ++ us) stop) : Inside middle us stop := by
  induction h with
  | nil parens => exact hus
  | char _ _ ih =>
      rcases hus with _ | ⟨_, hus⟩
      exact ih hus
  | quoted content _ ih =>
      rcases hus with _ | _ | ⟨_, hus⟩
      exact ih hus
  | comment content _ ih =>
      rcases hus with _ | _ | _ | ⟨_, hus⟩
      exact ih hus

/-- The empty text is enclosed. -/
theorem Enclosed.nil : Enclosed [] :=
  Inside.nil 0

/-- An enclosed text ends before a character that is part of no delimiter. -/
theorem Enclosed.lex_append_cons {cs : List Char} (h : Enclosed cs) {c : Char}
    (hc : Token.isInert c = true) (rest : List Char) :
    lex .spanning (cs ++ c :: rest) = lex .spanning cs ++ .char c :: lex .spanning rest :=
  Token.lex_append_cons .spanning h.isClosed hc rest

/-- An ordinary character may stand before an enclosed text. -/
theorem Enclosed.cons {c : Char} (hc : isOrdinary c = true) {cs : List Char} (h : Enclosed cs) :
    Enclosed (c :: cs) := by
  simp only [isOrdinary, Bool.and_eq_true, Bool.not_eq_true', Bool.or_eq_false_iff,
    beq_eq_false_iff_ne] at hc
  rw [Enclosed, Token.lex_cons .spanning hc.1]
  refine .char (fun _ => hc.2.2) ?_
  rwa [parensBehind, if_neg hc.2.1.1, if_neg hc.2.1.2]

/-- Ordinary characters may stand before an enclosed text. -/
theorem Enclosed.chars_append {front : List Char} (hfront : ∀ c ∈ front, isOrdinary c = true)
    {cs : List Char} (h : Enclosed cs) : Enclosed (front ++ cs) := by
  induction front with
  | nil => exact h
  | cons c front ih => exact .cons (hfront c (by simp)) (ih fun d hd => hfront d (by simp [hd]))

/-- Two such texts with an ordinary character between them. -/
theorem Enclosed.append_cons {cs ds : List Char} (h : Enclosed cs) {c : Char}
    (hc : isOrdinary c = true) (hds : Enclosed ds) : Enclosed (cs ++ c :: ds) := by
  have hinert : Token.isInert c = true := (Bool.and_eq_true_iff.mp hc).1
  have htail := Enclosed.cons hc hds
  rw [Enclosed, Token.lex_cons .spanning hinert] at htail
  rw [Enclosed, h.lex_append_cons hinert]
  exact Inside.append h htail

/-- Blanks may stand behind a text that leaves nothing open. -/
theorem Enclosed.append_blanks {cs gap : List Char} (h : Enclosed cs)
    (hgap : ∀ c ∈ gap, isBlank c = true) : Enclosed (cs ++ gap) := by
  cases gap with
  | nil => rwa [List.append_nil]
  | cons c gap =>
      rcases List.forall_mem_cons.mp hgap with ⟨hc, hrest⟩
      have htail := Enclosed.nil.chars_append fun d hd => isOrdinary_of_isBlank (hrest d hd)
      rw [List.append_nil] at htail
      exact h.append_cons (isOrdinary_of_isBlank hc) htail

/-- A text that an item may start with: it starts visibly, and not with a comment. -/
structure Leads (cs : List Char) : Prop where
  visible : ∃ c rest, cs = c :: rest ∧ isBlank c = false
  not_comment : ¬['/', '*'] <+: cs

/-- A text that leads may be followed by anything but a star. -/
theorem Leads.append {cs ds : List Char} (h : Leads cs) (hds : ds.head? ≠ some '*') :
    Leads (cs ++ ds) := by
  rcases h.visible with ⟨c, rest, rfl, hc⟩
  refine ⟨⟨c, rest ++ ds, rfl, hc⟩, ?_⟩
  have hsecond := h.not_comment
  rw [List.cons_prefix_cons] at hsecond
  rw [List.cons_append, List.cons_prefix_cons]
  rintro ⟨rfl, others, hothers⟩
  cases rest with
  | nil =>
      obtain rfl : '*' :: others = ds := hothers
      exact hds rfl
  | cons d rest =>
      obtain rfl : '*' = d := (List.cons.inj hothers).1
      exact hsecond ⟨rfl, rest, rfl⟩

/-- A text that leaves nothing open is that of an item if one may start with it. -/
theorem Enclosed.isItem {cs : List Char} (h : Enclosed cs) (hleads : Leads cs) :
    IsItem (lex .spanning cs) 0 := by
  refine ⟨?_, h⟩
  rcases hleads.visible with ⟨c, rest, rfl, hc⟩
  have hproper := Token.proper_lex .spanning (c :: rest)
  have htext : textOf (lex .spanning (c :: rest)) = c :: rest := Token.flatMap_text_lex .spanning _
  rw [Enclosed] at h
  generalize lex .spanning (c :: rest) = ts at h hproper htext
  cases h with
  | nil => simp at htext
  | @char _ _ d ts hd _ =>
      obtain rfl : d = c := (List.cons.inj htext).1
      have hend := hd rfl
      simp only [isTerminator, Bool.or_eq_false_iff] at hend
      exact ⟨_, ts, rfl, by simp [begins, hc, hend]⟩
  | quoted content _ => exact ⟨_, _, rfl, rfl⟩
  | @comment _ _ ts content _ =>
      rcases (hproper.delimited _ List.mem_cons_self) rfl with ⟨body, hbody, -⟩
      refine absurd ⟨body ++ ['*', '/'] ++ textOf ts, ?_⟩ hleads.not_comment
      rw [← htext]
      simp [Token.text, hbody]

/-- A head leads. -/
theorem IsHead.leads {cs : List Char} (h : IsHead cs) : Leads cs := by
  refine ⟨?_, h.not_comment⟩
  rcases List.exists_cons_of_ne_nil h.ne_nil with ⟨c, rest, rfl⟩
  exact ⟨c, rest, rfl, isBlank_head_eq_false h.trimmed⟩

/-- What a node says starts an item, comments apart. -/
theorem Content.WellFormed.leads {content : Content} (h : content.WellFormed)
    (hcomment : ∀ text, content ≠ .comment text) : Leads content.written := by
  cases content with
  | root => exact h.elim
  | comment text => exact absurd rfl (hcomment text)
  | declaration property value important => exact h.1.leads.append (by simp)
  | rule selector => exact IsHead.leads h
  | atRule name params => exact ⟨⟨'@', _, rfl, by decide⟩, by simp [written]⟩

/-- What a node says, other than a comment, is written as an enclosed text. -/
theorem Content.WellFormed.enclosed {content : Content} (h : content.WellFormed)
    (hcomment : ∀ text, content ≠ .comment text) : Enclosed content.written := by
  cases content with
  | root => exact h.elim
  | comment text => exact absurd rfl (hcomment text)
  | declaration property value important =>
      refine h.1.enclosed.append_cons (by decide) (.cons (by decide) ?_)
      cases important with
      | false => simpa using h.2.2.1.enclosed
      | true =>
          refine h.2.2.1.enclosed.append_cons (by decide) ?_
          have hmark : ('!' :: importantWord).all isOrdinary = true := by decide
          simpa using Enclosed.nil.chars_append (List.all_eq_true.mp hmark)
  | rule selector => exact IsField.enclosed (IsHead.toIsField h)
  | atRule name params =>
      refine .cons (by decide) (.chars_append ?_ (.cons (by decide) h.2.2.enclosed))
      exact fun c hc => isOrdinary_of_isKeywordChar (List.all_eq_true.mp h.2.1 c hc)

/-! ## Fields are found again -/

/-- The text of a comment that was written down. -/
theorem commentText_written {text : List Char} (h : trim text = text) :
    commentText (Content.comment text).written = text := by
  have hbody : (Content.comment text).written.drop 2 =
      ' ' :: (text ++ [' ']) ++ ['*'] ++ ['/'] := by simp [Content.written]
  rw [commentText, hbody, List.dropLast_concat, List.dropLast_concat, trim_space_cons,
    trim_concat_space, h]

/-- The name of an at-rule is read up to the space behind it. -/
theorem atRuleOf_append {name : List Char} (h : name.all isKeywordChar = true)
    (params : List Char) : atRuleOf (name ++ ' ' :: params) = .atRule name (trim params) := by
  have hspace : isKeywordChar ' ' = false := by decide
  have hname := List.all_eq_true.mp h
  rw [atRuleOf, List.takeWhile_append_of_pos hname, List.dropWhile_append_of_pos hname,
    List.takeWhile_cons_of_neg (by simp [hspace]), List.dropWhile_cons_of_neg (by simp [hspace]),
    List.append_nil, trim_space_cons]

/-- A rule is told from its header. -/
theorem Content.ofHeader_rule {selector : List Char} (h : (Content.rule selector).WellFormed) :
    ofHeader ((Content.rule selector).written ++ [' ']) = .rule selector := by
  rw [written]
  have hhead : (selector ++ [' ']).head? ≠ some '@' := by
    rw [List.head?_append_of_ne_nil _ h.ne_nil]
    exact h.not_keyword
  unfold ofHeader
  split
  · simp_all
  · rw [trim_concat_space, h.trimmed]

/-- An at-rule is told from its header. -/
theorem Content.ofHeader_atRule {name params : List Char}
    (h : (Content.atRule name params).WellFormed) :
    ofHeader ((Content.atRule name params).written ++ [' ']) = .atRule name params := by
  rw [written, List.cons_append, List.append_assoc, List.cons_append, ofHeader,
    atRuleOf_append h.2.1, trim_concat_space, h.2.2.trimmed]

/-- An at-rule that is written as a statement is read back. -/
theorem Content.ofStatement?_atRule {name params : List Char}
    (h : (Content.atRule name params).WellFormed) :
    ofStatement? (Content.atRule name params).written = some (.atRule name params) := by
  rw [written, ofStatement?, atRuleOf_append h.2.1, h.2.2.trimmed]

/-- A declaration is told from its statement. -/
theorem Content.ofStatement?_declaration {property value : List Char} {important : Bool}
    (h : (Content.declaration property value important).WellFormed) :
    ofStatement? (Content.declaration property value important).written =
      some (.declaration property value important) := by
  rcases h with ⟨hproperty, hcolon, hvalue, hwhole⟩
  have hhead : (Content.declaration property value important).written.head? ≠ some '@' := by
    rw [written, List.head?_append_of_ne_nil _ hproperty.ne_nil]
    exact hproperty.not_keyword
  unfold ofStatement?
  split
  · simp_all
  · rw [written, splitFirst?_append hcolon, Option.map_some, hproperty.trimmed, trim_space_cons]
    cases important with
    | false => simp [hvalue.trimmed, hwhole rfl]
    | true => simp [splitImportant_trim hvalue.trimmed]

/-! ## Written drafts are laid out -/

/-- Wherever a text stands, its tokens are laid out as nodes that say the same as the given ones. -/
def ReadsAs (nested : Bool) (text : List Char) (nodes : List Node) : Prop :=
  ∀ p, ∃ found, Laid nested p (lex .spanning text) found ∧ Node.bareAll found = nodes

namespace ReadsAs

variable {nested : Bool} {rest : List Char} {nodes : List Node}

/-- Blanks may stand in front. -/
theorem gap_append (gap : Gap) (h : ReadsAs nested rest nodes) :
    ReadsAs nested (gap.chars ++ rest) nodes := by
  rcases gap with ⟨chars, hblank⟩
  induction chars with
  | nil => exact h
  | cons c chars ih =>
      have hc : isBlank c = true := hblank c (by simp)
      intro p
      rcases ih (fun d hd => hblank d (by simp [hd])) (p.next c) with ⟨found, hfound, hnodes⟩
      rw [List.cons_append, Token.lex_cons .spanning (Token.isInert_of_isBlank hc)]
      exact ⟨found, .skip (Or.inl hc) hfound, hnodes⟩

/-- A comment in front is read as one more node. -/
theorem comment {text : List Char} (htext : (Content.comment text).WellFormed)
    (h : ReadsAs nested rest nodes) :
    ReadsAs nested ((Content.comment text).written ++ rest)
      (.mk (.comment text) none [] :: nodes) := by
  intro p
  have hcomment : IsComment (Content.comment text).written := by
    refine ⟨' ' :: text ++ [' '], by simp [Content.written], ?_⟩
    refine Token.not_infix_concat ?_ fun _ => by decide
    rw [List.infix_cons_iff, List.cons_prefix_cons]
    rintro (⟨hspace, -⟩ | hinfix)
    · exact absurd hspace (by decide)
    · exact htext.2 hinfix
  rcases h (p.advance (Content.comment text).written) with ⟨found, hfound, hnodes⟩
  rw [Token.lex_comment .spanning hcomment]
  refine ⟨_, .comment hfound, ?_⟩
  simp [commentNode, commentText_written htext.1, Node.bareAll, Node.bare, hnodes]

/-- A statement with its semicolon in front is read as one more node. -/
theorem statement {content : Content} (hwritten : IsItem (lex .spanning content.written) 0)
    (hcontent : Content.ofStatement? content.written = some content)
    (h : ReadsAs nested rest nodes) :
    ReadsAs nested (content.written ++ ';' :: rest) (.mk content none [] :: nodes) := by
  intro p
  have htext : textOf (lex .spanning content.written) = content.written :=
    Token.flatMap_text_lex .spanning _
  rcases h ((p.advance content.written).next ';') with ⟨found, hfound, hnodes⟩
  have hlaid := Laid.statement (p := p) hwritten rfl (htext.symm ▸ hfound)
  rw [Token.lex_append_cons .spanning hwritten.inside.isClosed (by decide)]
  refine ⟨_, hlaid, ?_⟩
  simp [statementNode?, htext, hcontent, Node.bareAll, Node.bare, hnodes]

/-- A block in front is read as one more node, with the nodes between its braces. -/
theorem block {content : Content} {header body : List Char} {children : List Node}
    (hheader : IsItem (lex .spanning header) 0) (hcontent : Content.ofHeader header = content)
    (hbody : ReadsAs true body children) (h : ReadsAs nested rest nodes) :
    ReadsAs nested (header ++ '{' :: (body ++ '}' :: rest))
      (.mk content none children :: nodes) := by
  intro p
  have htext : ∀ cs, textOf (lex .spanning cs) = cs := Token.flatMap_text_lex .spanning
  rcases hbody ((p.advance header).next '{') with ⟨inner, hinner, hchildren⟩
  rcases h ((((p.advance header).next '{').advance body).next '}') with ⟨found, hfound, hnodes⟩
  have hlaid := Laid.block (p := p) (Or.inr hheader) rfl ((htext header).symm ▸ hinner) rfl
    (by simpa only [htext] using hfound)
  rw [Token.lex_append_cons .spanning hheader.inside.isClosed (by decide),
    Token.lex_append_cons .spanning hinner.isClosed (by decide)]
  refine ⟨_, hlaid, ?_⟩
  simp [blockNode, htext, hcontent, Node.bareAll, Node.bare, hchildren, hnodes]

end ReadsAs

/-- What a node says is the text of an item, comments apart. -/
theorem Content.WellFormed.isItem {content : Content} (h : content.WellFormed)
    (hcomment : ∀ text, content ≠ .comment text) : IsItem (lex .spanning content.written) 0 :=
  (h.enclosed hcomment).isItem (h.leads hcomment)

/-- So it is with a blank behind it. -/
theorem Content.WellFormed.isItem_header {content : Content} (h : content.WellFormed)
    (hcomment : ∀ text, content ≠ .comment text) :
    IsItem (lex .spanning (content.written ++ [' '])) 0 :=
  ((h.enclosed hcomment).append_cons (by decide) .nil).isItem ((h.leads hcomment).append (by simp))

/-- The text of a draft is laid out as its forest. -/
theorem Draft.readsAs (d : Draft) (h : d.WellFormed) (nested : Bool) :
    ReadsAs nested d.text d.nodes := by
  induction d generalizing nested with
  | done gap =>
      have hnil : ReadsAs nested [] [] := fun p => ⟨[], .nil nested p, rfl⟩
      simpa [Draft.text, Draft.nodes] using hnil.gap_append gap
  | comment gap text rest ih =>
      rw [Draft.text, List.append_assoc]
      exact ((ih h.2 nested).comment h.1).gap_append gap
  | declaration gap property value important rest ih =>
      have hitem := h.1.isItem (by simp)
      rw [Draft.text, List.append_assoc]
      exact ((ih h.2 nested).statement hitem (Content.ofStatement?_declaration h.1)).gap_append gap
  | rule gap selector body rest ihbody ih =>
      have hblock := ReadsAs.block (h.1.isItem_header (by simp)) (Content.ofHeader_rule h.1)
        (ihbody h.2.1 true) (ih h.2.2 nested)
      simpa [Draft.text, Draft.nodes] using hblock.gap_append gap
  | atRule gap name params body rest ihbody ih =>
      by_cases hempty : body.nodes.isEmpty = true
      · have hstatement := (ih h.2.2 nested).statement (h.1.isItem (by simp))
          (Content.ofStatement?_atRule h.1)
        simpa [Draft.text, Draft.nodes, hempty, List.isEmpty_iff.mp hempty] using
          hstatement.gap_append gap
      · have hblock := ReadsAs.block (h.1.isItem_header (by simp)) (Content.ofHeader_atRule h.1)
          (ihbody h.2.1 true) (ih h.2.2 nested)
        simpa [Draft.text, Draft.nodes, hempty] using hblock.gap_append gap

/-- A draft that is written down is read as its forest. -/
theorem Draft.bare_parse_text (d : Draft) (h : d.WellFormed) :
    (parse d.text).map Node.bare = .ok (.mk .root none d.nodes) := by
  rcases d.readsAs h false Point.origin with ⟨found, hfound, hnodes⟩
  rw [parse, parseForest_eq_ok_iff.mpr hfound, ← hnodes]
  rfl

/-- A forest whose fields hide braces and semicolons, with no blanks between its items. -/
def hiddenDelimiters : Draft :=
  let gap : Gap := ⟨[], by simp⟩
  .atRule gap ['m'] ['(', ';', ')']
    (.rule gap ['[', '\x22', '}', '\x22', ']']
      (.comment gap ['{']
        (.declaration gap ['p', '/', '*', ';', '*', '/'] ['f', '(', '}', ')', ':'] true
          (.done gap)))
      (.atRule gap ['i'] [] (.done gap) (.done gap)))
    (.declaration gap ['q'] [] false (.done gap))

/-- The forest is read back from its text, for all the delimiters in its fields. -/
theorem Draft.bare_parse_hiddenDelimiters :
    String.ofList hiddenDelimiters.text =
        "@m (;) \x7b[\x22\x7d\x22] \x7b/* \x7b */p/*;*/: f(\x7d): !important;\x7d@i ;\x7dq: ;" ∧
      hiddenDelimiters.WellFormed ∧
      (parse hiddenDelimiters.text).map Node.bare =
        .ok (.mk .root none hiddenDelimiters.nodes) := by
  have hformed : hiddenDelimiters.WellFormed := by decide
  exact ⟨by decide, hformed, Draft.bare_parse_text _ hformed⟩

end Sheet
end StyleAtlas
