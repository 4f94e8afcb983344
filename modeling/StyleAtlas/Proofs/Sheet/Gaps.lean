import StyleAtlas.Proofs.Sheet.Listings
import StyleAtlas.Proofs.Sheet.Rendering
import StyleAtlas.Proofs.Sheet.Spelling
import StyleAtlas.Proofs.Sheet.Standing

/-!
# What is dropped between nodes

Reading a sheet is tolerant: a statement that says nothing is dropped without an error.  Here every
character is accounted for that lies in no node, at the top of a sheet and in every block of it.
The text before, between and behind the nodes consists of blanks, semicolons and statements without
a colon, so that no declaration, no at-rule and no comment is ever lost.

Main results:

- Definition `Sheet.Dropped`: texts that are passed over between nodes.
- Definition `Sheet.gaps`: the extents between nodes.
- Theorem `Sheet.Laid.droppedAt_gaps`: what lies between the nodes of a sequence is dropped text.
- Definition `Sheet.HasBody`: nodes with a body between braces.
- Theorem `Sheet.parse_drops_no_declaration`: the same of all gaps of a sheet.
-/

namespace StyleAtlas

/-! ## Items -/

/-- A text that starts like a comment has a comment as its first token. -/
theorem Token.exists_lexFrom_inComment (quoting : Quoting) (read cs : List Char) :
    ∃ content closed ts,
      lexFrom quoting (.inComment read) cs = .comment content closed :: ts := by
  generalize hmode : Mode.inComment read = mode
  fun_induction lexFrom quoting mode cs generalizing read with
  | case5 read => exact ⟨_, _, _, rfl⟩
  | case6 read cs ih => exact ⟨_, _, _, rfl⟩
  | case7 read c cs hopen ih => exact ih _ rfl
  | _ => cases hmode

namespace Sheet

open Text
open Token (textOf lex)

/-- The text of an item does not start like a comment. -/
theorem IsItem.not_comment {item : List Token} {parens : Nat} (h : IsItem item parens)
    (hwhole : Token.Whole item) : ¬['/', '*'] <+: textOf item := by
  rintro ⟨rest, htext⟩
  have hlex : lex .spanning ('/' :: '*' :: rest) = item := by
    rw [← hwhole.lexed, ← htext]
    rfl
  rcases Token.exists_lexFrom_inComment .spanning ['*', '/'] rest with
    ⟨content, closed, ts, hcomment⟩
  rcases h.begins with ⟨t, others, hcons, ht⟩
  rw [lex, Token.lexFrom, hcomment, hcons] at hlex
  rw [← (List.cons.inj hlex).1] at ht
  exact Bool.noConfusion ht

/-- Tokens that end at a terminator do not go on with it inside an item. -/
theorem Inside.not_append_terminator {start stop : Nat} {ts : List Token} (h : Inside start ts 0)
    {c : Char} (hc : isTerminator c = true) (rest : List Token) :
    ¬Inside start (ts ++ .char c :: rest) stop := by
  intro hts
  rcases h.of_append hts with _ | ⟨hopen, _⟩
  rw [hopen rfl] at hc
  exact Bool.noConfusion hc

/-- An item does not reach over the brace behind a header. -/
theorem IsItem.textOf_ne {item : List Token} {parens : Nat} (h : IsItem item parens)
    (hwhole : Token.Whole item) {header : List Char} (hheader : Enclosed header)
    (rest : List Char) : textOf item ≠ header ++ '{' :: rest := by
  intro htext
  have hlexed := hwhole.lexed
  rw [htext, hheader.lex_append_cons (by decide)] at hlexed
  have hinside := h.inside
  rw [← hlexed] at hinside
  exact Inside.not_append_terminator hheader rfl _ hinside

/-- A text has one header in front of a brace. -/
theorem Enclosed.header_unique {header header' rest rest' : List Char} (h : Enclosed header)
    (h' : Enclosed header') (heq : header ++ '{' :: rest = header' ++ '{' :: rest') :
    header = header' := by
  -- Otherwise the longer header would reach over the brace behind the shorter one.
  have hshorter : ∀ {front back more : List Char}, Enclosed front → Enclosed (front ++ more) →
      '{' :: back = more ++ '{' :: rest' ∨ '{' :: back = more ++ '{' :: rest → more = [] := by
    intro front back more hfront hmore hcut
    cases more with
    | nil => rfl
    | cons c more =>
        have hc : c = '{' := by
          rcases hcut with hcut | hcut <;> exact (List.cons.inj hcut).1.symm
        subst hc
        rw [Enclosed, hfront.lex_append_cons (by decide)] at hmore
        exact absurd hmore (Inside.not_append_terminator hfront rfl _)
  rcases List.append_eq_append_iff.mp heq with ⟨more, rfl, hcut⟩ | ⟨more, rfl, hcut⟩
  · rw [hshorter h h' (Or.inl hcut), List.append_nil]
  · rw [hshorter h' h (Or.inr hcut), List.append_nil]

/-! ## Dropped texts -/

/-- An item that says nothing and leaves some parentheses open: it has no colon, and starts neither
with `@` nor with a comment. -/
structure SaysNothing (item : List Char) (parens : Nat) : Prop where
  isItem : IsItem (lex .spanning item) parens
  no_colon : ':' ∉ item
  not_atRule : item.head? ≠ some '@'
  not_comment : ¬['/', '*'] <+: item

/-- Texts that are passed over between nodes: blanks, semicolons, and items that say nothing, each
with the semicolon that ends it; only the last item may go without. -/
inductive Dropped : List Char → Prop where
  | nil : Dropped []
  | skip {c : Char} {cs : List Char} (hc : isBlank c = true ∨ c = ';') (hcs : Dropped cs) :
      Dropped (c :: cs)
  | item {item cs : List Char} (hitem : SaysNothing item 0) (hcs : Dropped cs) :
      Dropped (item ++ ';' :: cs)
  | last {item : List Char} {parens : Nat} (hitem : SaysNothing item parens) : Dropped item

/-- Blanks may be dropped. -/
theorem Dropped.blanks {cs : List Char} (h : ∀ c ∈ cs, isBlank c = true) : Dropped cs := by
  induction cs with
  | nil => exact .nil
  | cons c cs ih =>
      rcases List.forall_mem_cons.mp h with ⟨hc, hcs⟩
      exact .skip (Or.inl hc) (ih hcs)

/-- Dropped texts have no colon. -/
theorem Dropped.no_colon {cs : List Char} (h : Dropped cs) : ':' ∉ cs := by
  induction h with
  | nil => simp
  | @skip c cs hc _ ih =>
      rintro hmem
      rcases List.mem_cons.mp hmem with rfl | hmem
      · exact absurd hc (by decide)
      · exact ih hmem
  | item hitem _ ih => simp [hitem.no_colon, ih]
  | last hitem => exact hitem.no_colon

/-- An item of which no node comes says nothing. -/
theorem IsItem.saysNothing {item : List Token} {parens : Nat} (h : IsItem item parens)
    (hwhole : Token.Whole item) (hnone : Content.ofStatement? (textOf item) = none) :
    SaysNothing (textOf item) parens := by
  rcases Content.ofStatement?_cases (textOf item) with
    ⟨-, hcolon⟩ | ⟨rest, -, hsome⟩ | ⟨before, after, -, -, hsome⟩
  · refine ⟨by rwa [hwhole.lexed], hcolon, ?_, h.not_comment hwhole⟩
    intro hat
    rcases List.head?_eq_some_iff.mp hat with ⟨rest, hrest⟩
    rw [hrest] at hnone
    simp [Content.ofStatement?] at hnone
  · simp [hsome] at hnone
  · simp [hsome] at hnone

/-! ## Gaps -/

/-- The extents before, between and behind some nodes that lie between two offsets. -/
def gaps (source : Source) : (lower upper : Nat) → List Node → List Extent
  | lower, upper, [] => [⟨lower, upper⟩]
  | lower, upper, node :: nodes =>
      match node.extent? source with
      | some x => ⟨lower, x.start⟩ :: gaps source x.stop upper nodes
      | none => gaps source lower upper nodes

/-- What stands in an extent of a source is dropped text. -/
def DroppedAt (source : Source) (gap : Extent) : Prop :=
  ∃ dropped, source.sliceOffsets gap = .ok dropped ∧ ':' ∉ dropped ∧ Dropped dropped

variable {source : Source}

/-- Dropped text stands where it is cut off by its sizes. -/
theorem Dropped.droppedAt {before dropped after : List Char} (h : Dropped dropped)
    (hsplit : source.chars = before ++ dropped ++ after) :
    DroppedAt source ⟨byteSize before, byteSize before + byteSize dropped⟩ :=
  ⟨dropped, Source.sliceOffsets_byteSize hsplit, h.no_colon, h⟩

/-- The gap in front of a node, and those behind it. -/
theorem droppedAt_gaps_cons {content : Content} {span : Span} {children nodes : List Node}
    {before front part rest : List Char} {upper : Nat}
    (hreads : span.Reads source (before ++ front) part rest) (hfront : Dropped front)
    (hnodes : ∀ gap ∈ gaps source (byteSize (before ++ front ++ part)) upper nodes,
      DroppedAt source gap) :
    ∀ gap ∈ gaps source (byteSize before) upper (.mk content (some span) children :: nodes),
      DroppedAt source gap := by
  have hsplit : source.chars = before ++ front ++ (part ++ rest) := by simpa using hreads.split
  have hextent : (Node.mk content (some span) children).extent? source =
      some ⟨byteSize before + byteSize front, byteSize (before ++ front ++ part)⟩ := by
    rw [Node.extent?, Node.span, Option.map_some, hreads.extent_eq, ← byteSize_append,
      ← byteSize_append]
  rw [gaps, hextent]
  exact List.forall_mem_cons.mpr ⟨hfront.droppedAt hsplit, hnodes⟩

/-- A reader is in the gap behind `before`: it has passed over the dropped text `front`, and stands
at a place with some tokens ahead, which reach to an offset. -/
structure InGap (source : Source) (upper : Nat) (before front : List Char) (p : Point)
    (ts : List Token) : Prop where
  split : ∃ after, source.chars = before ++ front ++ textOf ts ++ after
  upper_eq : upper = byteSize (before ++ front ++ textOf ts)
  place : p = source.pointAt (byteSize (before ++ front))
  dropped : ∀ cs, Dropped cs → Dropped (front ++ cs)
  whole : Token.Whole ts

namespace InGap

variable {upper : Nat} {before front part : List Char} {p : Point} {segment ts : List Token}

/-- In front of a sequence a gap starts. -/
theorem start {after : List Char} (hsplit : source.chars = before ++ textOf ts ++ after)
    (hp : p = source.pointAt (byteSize before)) (hts : Token.Whole ts) :
    InGap source (byteSize (before ++ textOf ts)) before [] p ts :=
  ⟨⟨after, by simpa using hsplit⟩, by simp, by simpa using hp, fun _ hcs => hcs, hts⟩

/-- What was passed over in a gap is dropped text. -/
theorem dropped_front (h : InGap source upper before front p ts) : Dropped front := by
  simpa using h.dropped [] .nil

/-- The place behind some of the tokens. -/
theorem advance (h : InGap source upper before front p (segment ++ ts))
    (hpart : textOf segment = part) :
    p.advance part = source.pointAt (byteSize (before ++ front ++ part)) := by
  rcases h.split with ⟨after, hsplit⟩
  have hsplit' : source.chars = before ++ front ++ part ++ (textOf ts ++ after) := by
    simpa [← hpart] using hsplit
  rw [h.place, Source.advance_pointAt hsplit']

/-- Tokens that are dropped belong to the gap. -/
theorem drop (h : InGap source upper before front p (segment ++ ts))
    (hpart : textOf segment = part) (hdropped : ∀ cs, Dropped cs → Dropped (part ++ cs)) :
    InGap source upper before (front ++ part) (p.advance part) ts := by
  rcases h.split with ⟨after, hsplit⟩
  refine ⟨⟨after, by simpa [← hpart] using hsplit⟩, by simpa [← hpart] using h.upper_eq,
    by simpa using h.advance hpart, fun cs hcs => ?_, h.whole.of_append.2⟩
  simpa using h.dropped _ (hdropped cs hcs)

/-- Behind the tokens of a node the next gap starts. -/
theorem pass (h : InGap source upper before front p (segment ++ ts))
    (hpart : textOf segment = part) :
    InGap source upper (before ++ front ++ part) [] (p.advance part) ts := by
  rcases h.split with ⟨after, hsplit⟩
  exact ⟨⟨after, by simpa [← hpart] using hsplit⟩, by simpa [← hpart] using h.upper_eq,
    by simpa using h.advance hpart, fun _ hcs => hcs, h.whole.of_append.2⟩

/-- The text of the source around some of the tokens. -/
theorem split_part (h : InGap source upper before front p (segment ++ ts))
    (hpart : textOf segment = part) : ∃ after, source.chars = before ++ front ++ part ++ after := by
  rcases h.split with ⟨after, hsplit⟩
  exact ⟨textOf ts ++ after, by simpa [← hpart] using hsplit⟩

/-- Where nothing but dropped text is left, it ends the gap. -/
theorem droppedAt (h : InGap source upper before front p ts) (hts : Dropped (textOf ts)) :
    DroppedAt source ⟨byteSize before, upper⟩ := by
  rcases h.split with ⟨after, hsplit⟩
  have hdropped := (h.dropped _ hts).droppedAt (by simpa using hsplit)
  simpa [h.upper_eq] using hdropped

end InGap

/-- What lies between the nodes of a sequence is dropped text, and so is what a reader has passed
over in front of it. -/
theorem Laid.droppedAt_gaps {nested : Bool} {p : Point} {ts : List Token} {nodes : List Node}
    (h : Laid nested p ts nodes) {upper : Nat} {before front : List Char}
    (hgap : InGap source upper before front p ts) :
    ∀ gap ∈ gaps source (byteSize before) upper nodes, DroppedAt source gap := by
  -- The gap in front of the next node grows along the tokens, until a node ends it.
  induction h generalizing before front with
  | nil nested p => exact List.forall_mem_singleton.mpr (hgap.droppedAt .nil)
  | @skip nested p c ts nodes hc hts ih =>
      have hfirst : InGap source upper before front p ([.char c] ++ ts) := hgap
      have htext : textOf [.char c] = [c] := by simp [Token.text]
      exact ih (hfirst.drop htext fun cs hcs => .skip hc hcs)
  | @comment nested p content ts nodes hts ih =>
      have hfirst : InGap source upper before front p ([.comment content true] ++ ts) := hgap
      have htext : textOf [.comment content true] = content := by simp [Token.text]
      have hcontent : IsComment content := hgap.whole.delimited _ List.mem_cons_self rfl
      rcases hfirst.split_part htext with ⟨after, hsplit⟩
      rcases Span.exists_over?_comment hcontent hsplit with ⟨span, rest, hover, hreads⟩
      have hgaps := ih (hfirst.pass htext)
      rw [commentNode, hgap.place, hover]
      exact droppedAt_gaps_cons hreads hgap.dropped_front hgaps
  | @statement nested p semicolon item ts nodes hitem hsemicolon hts ih =>
      subst hsemicolon
      have hfirst : InGap source upper before front p ((item ++ [.char ';']) ++ ts) := by
        simpa using hgap
      have htext : textOf (item ++ [.char ';']) = textOf item ++ [';'] := by simp [Token.text]
      have hplace : p.advance (textOf item ++ [';']) = (p.advance (textOf item)).next ';' :=
        Point.advance_append p _ _
      have hwhole := hgap.whole.of_append.1
      cases hcontent : Content.ofStatement? (textOf item) with
      | none =>
          have hdrop := hfirst.drop htext fun cs hcs => by
            simpa using Dropped.item (hitem.saysNothing hwhole hcontent) hcs
          rw [hplace] at hdrop
          simpa [statementNode?, hcontent] using ih hdrop
      | some content =>
          rcases hfirst.split_part htext with ⟨after, hsplit⟩
          have hpass := hfirst.pass htext
          rw [hplace] at hpass
          have hreads := hitem.reads_semicolon hwhole.delimited hsplit
          rw [← hgap.place] at hreads
          simp only [statementNode?, hcontent, Option.map_some, Option.toList_some,
            List.singleton_append]
          exact droppedAt_gaps_cons hreads hgap.dropped_front (ih hpass)
  | @last nested p item parens hitem hparens =>
      cases hcontent : Content.ofStatement? (textOf item) with
      | none =>
          have hdropped := hgap.droppedAt (.last (hitem.saysNothing hgap.whole hcontent))
          simpa [statementNode?, hcontent, gaps] using hdropped
      | some content =>
          rcases hgap.split with ⟨after, hsplit⟩
          have hvisible := hitem.visible hgap.whole.delimited
          rcases Span.exists_over?_reads hsplit hvisible with ⟨span, rest, hover, hreads⟩
          -- The node ends in its last visible character, so that only blanks are left.
          rcases exists_eq_trimEnd (textOf item) with ⟨blanks, htrim, hblanks⟩
          have hsplit' : source.chars =
              before ++ front ++ trimEnd (textOf item) ++ blanks ++ after := by
            rw [List.append_assoc (before ++ front), ← htrim, hsplit]
          have hend := (Dropped.blanks hblanks).droppedAt hsplit'
          have hupper : byteSize (before ++ front ++ trimEnd (textOf item)) + byteSize blanks =
              upper := by
            rw [hgap.upper_eq, ← byteSize_append, List.append_assoc (before ++ front), ← htrim]
          rw [hupper] at hend
          simp only [statementNode?, hcontent, Option.map_some, Option.toList_some, hgap.place,
            hover]
          exact droppedAt_gaps_cons hreads hgap.dropped_front (List.forall_mem_singleton.mpr hend)
  | @block nested p brace closing header inner ts children nodes hheader hbrace hinner hclosing hts
      ihinner ih =>
      subst hbrace hclosing
      have hfirst : InGap source upper before front p
          ((header ++ .char '{' :: (inner ++ [.char '}'])) ++ ts) := by
        simpa using hgap
      have htext : textOf (header ++ .char '{' :: (inner ++ [.char '}'])) =
          (textOf header ++ '{' :: textOf inner) ++ ['}'] := by
        simp [Token.text]
      rcases hfirst.split_part htext with ⟨after, hsplit⟩
      have hpass := hfirst.pass htext
      rw [Point.advance_append, Point.advance_append] at hpass
      have hreads := reads_block hheader hgap.whole.of_append.1.delimited hsplit
      rw [← hgap.place] at hreads
      exact droppedAt_gaps_cons hreads hgap.dropped_front (ih hpass)

/-! ## Bodies -/

/-- A node has a body between two offsets: its text is a header, which leaves nothing open and in
which nothing would end an item, and the body between braces. -/
def HasBody (source : Source) (node : Node) (opening closing : Nat) : Prop :=
  ∃ x header body, node.extent? source = some x ∧
    source.sliceOffsets x = .ok (header ++ '{' :: (body ++ ['}'])) ∧ Enclosed header ∧
    opening = x.start + byteSize header + 1 ∧ closing = opening + byteSize body

/-- Where the body of a node lies in the text that its span reads. -/
theorem hasBody_iff {node : Node} {span : Span} {before part after : List Char}
    (hspan : node.span = some span) (hreads : span.Reads source before part after)
    {opening closing : Nat} :
    HasBody source node opening closing ↔ ∃ header body, part = header ++ '{' :: (body ++ ['}']) ∧
      Enclosed header ∧ opening = byteSize before + byteSize header + 1 ∧
      closing = opening + byteSize body := by
  have hextent : node.extent? source = some ⟨byteSize before, byteSize before + byteSize part⟩ := by
    rw [Node.extent?, hspan, Option.map_some, hreads.extent_eq]
  have hslice := Source.sliceOffsets_byteSize hreads.split
  constructor
  · rintro ⟨x, header, body, hx, htext, hheader, hopening, hclosing⟩
    obtain rfl := Option.some.inj (hextent.symm.trans hx)
    exact ⟨header, body, Except.ok.inj (hslice.symm.trans htext), hheader, hopening, hclosing⟩
  · rintro ⟨header, body, hpart, hheader, hopening, hclosing⟩
    exact ⟨_, header, body, hextent, hpart ▸ hslice, hheader, hopening, hclosing⟩

/-- A text with a body ends in a brace. -/
theorem concat_ne_body (cs : List Char) {c : Char} (hc : c ≠ '}') (header body : List Char) :
    cs ++ [c] ≠ header ++ '{' :: (body ++ ['}']) := by
  intro heq
  have hlast := congrArg List.getLast? heq
  rw [← List.cons_append, ← List.append_assoc, List.getLast?_concat, List.getLast?_concat] at hlast
  exact hc (Option.some.inj hlast)

/-- The gaps in the body of a node are dropped text; rules, and all nodes with children, have a
body. -/
structure DropsOnly (source : Source) (node : Node) : Prop where
  hasBody : (∃ selector, node.content = .rule selector) ∨ node.children ≠ [] →
    ∃ opening closing, HasBody source node opening closing
  droppedAt : ∀ opening closing, HasBody source node opening closing →
    ∀ gap ∈ gaps source opening closing node.children, DroppedAt source gap

/-- A node whose text has no body has no gaps. -/
theorem DropsOnly.of_leaf {content : Content} {span : Span} {before part after : List Char}
    (hreads : span.Reads source before part after) (hrule : ∀ selector, content ≠ .rule selector)
    (hbody : ∀ header body, Enclosed header → part ≠ header ++ '{' :: (body ++ ['}'])) :
    DropsOnly source (.mk content (some span) []) := by
  constructor
  · rintro (⟨selector, hselector⟩ | hchildren)
    · exact absurd hselector (hrule selector)
    · exact absurd rfl hchildren
  · intro opening closing hnode
    rcases (hasBody_iff rfl hreads).mp hnode with ⟨header, body, hpart, hheader, -⟩
    exact absurd hpart (hbody header body hheader)

/-- A block has the gaps of its nodes. -/
theorem DropsOnly.of_block {content : Content} {span : Span} {before header inner after : List Char}
    {children : List Node} (hheader : Enclosed header)
    (hreads : span.Reads source before ((header ++ '{' :: inner) ++ ['}']) after)
    (hgaps : ∀ gap ∈ gaps source (byteSize (before ++ (header ++ ['{'])))
      (byteSize (before ++ (header ++ ['{']) ++ inner)) children, DroppedAt source gap) :
    DropsOnly source (.mk content (some span) children) := by
  have hopen : '{'.utf8Size = 1 := by decide
  have htext : (header ++ '{' :: inner) ++ ['}'] = header ++ '{' :: (inner ++ ['}']) := by simp
  constructor
  · intro _
    exact ⟨_, _, (hasBody_iff rfl hreads).mpr ⟨header, inner, htext, hheader, rfl, rfl⟩⟩
  · intro opening closing hnode
    rcases (hasBody_iff rfl hreads).mp hnode with
      ⟨header', body, hpart, hheader', rfl, rfl⟩
    rw [htext] at hpart
    obtain rfl := hheader.header_unique hheader' hpart
    obtain rfl : inner = body := by simpa using hpart
    simpa [hopen, Node.children, Nat.add_assoc] using hgaps

/-- The nodes of a sheet have nothing but dropped text in their gaps. -/
theorem HeadedBy.dropsOnly {p : Point} {ts : List Token} {node : Node} (h : HeadedBy p ts node)
    (hts : Token.Whole ts) {before : List Char} (hsplit : source.chars = before ++ textOf ts)
    (hp : p = source.pointAt (byteSize before)) : DropsOnly source node := by
  subst hp
  cases h with
  | comment content rest =>
      have hcontent : IsComment content := hts.delimited _ List.mem_cons_self rfl
      have hsplit' : source.chars = before ++ content ++ textOf rest := by
        simpa [Token.text] using hsplit
      rcases Span.exists_over?_comment hcontent hsplit' with ⟨span, after, hover, hreads⟩
      rw [commentNode, hover]
      refine .of_leaf hreads (by simp) fun header body _ => ?_
      rcases hcontent with ⟨cs, rfl, -⟩
      have hslash : '/' ≠ '}' := by decide
      simpa using concat_ne_body ('/' :: '*' :: (cs ++ ['*'])) hslash header body
  | @statement item node hitem hnode rest =>
      rcases Option.map_eq_some_iff.mp hnode with ⟨content, hcontent, rfl⟩
      have hsplit' : source.chars = before ++ (textOf item ++ [';']) ++ textOf rest := by
        simpa [Token.text] using hsplit
      have hreads := hitem.reads_semicolon hts.of_append.1.delimited hsplit'
      refine .of_leaf hreads ?_ fun header body _ =>
        concat_ne_body (textOf item) (by decide) header body
      rintro selector rfl
      exact Content.ofStatement?_ne_rule _ _ hcontent
  | @last item rest parens node hitem hnode hrest =>
      rcases Option.map_eq_some_iff.mp hnode with ⟨content, hcontent, rfl⟩
      have hwhole := hts.of_append.1
      have hsplit' : source.chars = before ++ textOf item ++ textOf rest := by simpa using hsplit
      rcases Span.exists_over?_reads hsplit' (hitem.visible hwhole.delimited) with
        ⟨span, after, hover, hreads⟩
      dsimp only
      rw [hover]
      refine .of_leaf hreads ?_ fun header body hheader hpart => ?_
      · rintro selector rfl
        exact Content.ofStatement?_ne_rule _ _ hcontent
      · rcases exists_eq_trimEnd (textOf item) with ⟨blanks, htrim, -⟩
        rw [hpart, List.append_assoc] at htrim
        exact hitem.textOf_ne hwhole hheader _ htrim
  | @block header inner children hheader hinner rest =>
      rcases hts.of_append with ⟨hwhole, hwhole'⟩
      have hsplit' : source.chars =
          before ++ ((textOf header ++ '{' :: textOf inner) ++ ['}']) ++ textOf rest := by
        simpa [Token.text] using hsplit
      have hopen : source.chars =
          before ++ (textOf header ++ ['{']) ++ (textOf inner ++ '}' :: textOf rest) := by
        simpa using hsplit'
      have henclosed : Enclosed (textOf header) := by
        rw [Enclosed, hwhole.lexed]
        exact inside_header hheader
      have hplace := Source.next_advance_pointAt hopen
      have hbody : source.chars =
          before ++ (textOf header ++ ['{']) ++ textOf inner ++ '}' :: textOf rest := by
        simpa using hopen
      exact .of_block henclosed (reads_block hheader hwhole.delimited hsplit')
        (hinner.droppedAt_gaps (.start hbody hplace hwhole'.of_cons.of_append.1))

/-- Reading a sheet drops nothing but blanks, semicolons and items that say nothing: neither at the
top of the sheet nor between the braces of a node does a gap hold a colon, an at-rule or a
comment. -/
theorem parse_drops_no_declaration {text : List Char} {root : Node} (h : parse text = .ok root) :
    (∀ gap ∈ gaps ⟨text⟩ 0 (byteSize text) root.children, DroppedAt ⟨text⟩ gap) ∧
      ∀ node ∈ Node.preorderAll root.children, DropsOnly ⟨text⟩ node := by
  have hstands := standsAmong_of_parse h
  rcases exists_parseForest_of_parse h with ⟨forest, hforest, rfl⟩
  have htext : textOf (lex .spanning text) = text := Token.flatMap_text_lex .spanning text
  have horigin : Point.origin = Source.pointAt ⟨text⟩ (byteSize []) :=
    Source.advance_origin (List.nil_append text).symm
  constructor
  · have hsplit : text = [] ++ textOf (lex .spanning text) ++ [] := by simp [htext]
    have hgap : InGap ⟨text⟩ _ [] [] Point.origin (lex .spanning text) :=
      .start hsplit horigin hstands.1
    rw [List.nil_append, htext] at hgap
    exact (laid_of_parseForest hforest).droppedAt_gaps hgap
  · intro node hnode
    rcases hstands.2 node hnode with ⟨before, back, htokens, hback⟩
    have hsplit : text = textOf before ++ textOf back := by
      rw [← List.flatMap_append, ← htokens, Token.flatMap_text_lex]
    have hwhole := hstands.1
    rw [htokens] at hwhole
    exact hback.dropsOnly hwhole.of_append.2 hsplit (Source.advance_origin hsplit)

/-- A rule with a lone semicolon and a word that is no declaration, which has a semicolon in
parentheses, in front of a declaration. -/
def idleWord : List Char :=
  ['a', '{', ';', 'w', '(', ';', ')', ';', 'b', ':', 'c', '}']

/-- The node of the rule. -/
def idleRule : Node :=
  .mk (.rule ['a']) (some ⟨⟨1, 1, 0⟩, ⟨1, 12, 11⟩⟩)
    [.mk (.declaration ['b'] ['c'] false) (some ⟨⟨1, 9, 8⟩, ⟨1, 11, 10⟩⟩) []]

/-- The word and the semicolon in front of the declaration are dropped, and nothing else. -/
theorem parse_drops_no_declaration_idleWord :
    parse idleWord = .ok (.mk .root none [idleRule]) ∧ HasBody ⟨idleWord⟩ idleRule 2 11 ∧
      gaps ⟨idleWord⟩ 2 11 idleRule.children = [⟨2, 8⟩, ⟨11, 11⟩] ∧
      DroppedAt ⟨idleWord⟩ ⟨2, 8⟩ := by
  have hparse : parse idleWord = .ok (.mk .root none [idleRule]) := rfl
  have hbody : HasBody ⟨idleWord⟩ idleRule 2 11 :=
    ⟨⟨0, 12⟩, ['a'], (idleWord.drop 2).dropLast, rfl, rfl, by decide, rfl, rfl⟩
  have hgaps : gaps ⟨idleWord⟩ 2 11 idleRule.children = [⟨2, 8⟩, ⟨11, 11⟩] := rfl
  have hdrops := (parse_drops_no_declaration hparse).2 idleRule List.mem_cons_self
  refine ⟨hparse, hbody, hgaps, hdrops.droppedAt 2 11 hbody ⟨2, 8⟩ ?_⟩
  rw [hgaps]
  exact List.mem_cons_self

end Sheet
end StyleAtlas
