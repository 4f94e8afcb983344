import StyleAtlas.Proofs.Sheet.Layout

/-!
# Nodes in the text

Where the nodes of a sheet lie in its text.  Each node reads a part that starts and ends in a
visible character; the parts of its children lie strictly inside it, in order and apart; and the
parts of the nodes at the top lie in order and apart as well.

Main results:

- Definition `Sheet.Braced`: parts with a body between braces.
- Definition `Sheet.Seated`: nodes seated between two offsets of a source.
- Theorem `Sheet.Laid.seated`: tokens that are laid out as nodes seat them where they stand.
- Theorem `Sheet.seated_of_parseForest`: the nodes of a sheet are seated in its text.
-/

namespace StyleAtlas
namespace Sheet

open Text
open Token (textOf)

/-! ## Seated nodes -/

/-- A part that starts at an offset is a header and a body between braces, and the body lies between
the other two offsets. -/
def Braced (part : List Char) (start opening closing : Nat) : Prop :=
  ∃ header body, part = header ++ '{' :: (body ++ ['}']) ∧
    opening = start + byteSize header + 1 ∧ closing = opening + byteSize body

/-- The body of a braced part lies behind its start, and ends with it. -/
theorem Braced.bounds {part : List Char} {start opening closing : Nat}
    (h : Braced part start opening closing) :
    start < opening ∧ closing + 1 = start + byteSize part := by
  rcases h with ⟨header, body, rfl, rfl, rfl⟩
  have hopening : '{'.utf8Size = 1 := by decide
  have hclosing : '}'.utf8Size = 1 := by decide
  simp only [byteSize_append, byteSize_cons, byteSize_nil, hopening, hclosing]
  omega

/-- Nodes seated between two offsets, in order and apart, each with its children between its
braces. -/
inductive Seated (source : Source) : (lower upper : Nat) → List Node → Prop where
  | nil (lower upper : Nat) : Seated source lower upper []
  | cons {lower upper opening closing : Nat} {content : Content} {span : Span}
      {children nodes : List Node} {before part after : List Char}
      (hreads : span.Reads source before part after)
      (hlower : lower ≤ byteSize before) (hupper : byteSize before + byteSize part ≤ upper)
      (hbraced : children = [] ∨ Braced part (byteSize before) opening closing)
      (hchildren : Seated source opening closing children)
      (hnodes : Seated source (byteSize before + byteSize part) upper nodes) :
      Seated source lower upper (.mk content (some span) children :: nodes)

variable {source : Source}

/-- A seat may be widened to the left. -/
theorem Seated.mono {lower lower' upper : Nat} {nodes : List Node} (hle : lower' ≤ lower)
    (h : Seated source lower upper nodes) : Seated source lower' upper nodes := by
  cases h with
  | nil => exact .nil _ _
  | cons hreads hlower hupper hbraced hchildren hnodes =>
      exact .cons hreads (Nat.le_trans hle hlower) hupper hbraced hchildren hnodes

/-- A node without children in front of seated nodes. -/
theorem Seated.leaf {upper : Nat} {content : Content} {span : Span} {nodes : List Node}
    {before part after : List Char} (hreads : span.Reads source before part after)
    (hupper : byteSize before + byteSize part ≤ upper)
    (hnodes : Seated source (byteSize before + byteSize part) upper nodes) :
    Seated source (byteSize before) upper (.mk content (some span) [] :: nodes) :=
  .cons hreads (Nat.le_refl _) hupper (Or.inl rfl) (.nil 0 0) hnodes

/-- Every node of a seated forest reads a part of the source. -/
theorem Seated.reads_of_mem {lower upper : Nat} {nodes : List Node}
    (h : Seated source lower upper nodes) :
    ∀ node ∈ Node.preorderAll nodes, ∃ span before part after,
      node.span = some span ∧ span.Reads source before part after := by
  induction h with
  | nil => simp [Node.preorderAll]
  | cons hreads _ _ _ _ _ ihchildren ihnodes =>
      intro node hnode
      simp only [Node.preorderAll, Node.preorder, List.cons_append, List.mem_cons,
        List.mem_append] at hnode
      rcases hnode with rfl | hnode | hnode
      · exact ⟨_, _, _, _, rfl, hreads⟩
      · exact ihchildren node hnode
      · exact ihnodes node hnode

/-! ## The parts that tokens read -/

/-- A token that begins an item starts visibly. -/
theorem visible_of_begins {t : Token} (ht : begins t = true) (hdelimited : t.Delimited) :
    ∃ c cs, t.text = c :: cs ∧ isBlank c = false := by
  cases t with
  | char c =>
      simp only [begins, Bool.not_eq_true', Bool.or_eq_false_iff] at ht
      exact ⟨c, [], rfl, ht.1.1⟩
  | quoted content closed =>
      rcases hdelimited with ⟨quote, body, rfl, hquote⟩
      simp only [Token.isQuote, Bool.or_eq_true, beq_iff_eq] at hquote
      refine ⟨quote, body, rfl, ?_⟩
      rcases hquote with rfl | rfl <;> decide
  | comment content closed => simp [begins] at ht

/-- The text of an item starts with a visible character. -/
theorem IsItem.visible {item : List Token} {parens : Nat} (h : IsItem item parens)
    (hdelimited : ∀ t ∈ item, t.Delimited) :
    ∃ c cs, textOf item = c :: cs ∧ isBlank c = false := by
  rcases h.begins with ⟨t, rest, rfl, ht⟩
  rcases visible_of_begins ht (hdelimited t List.mem_cons_self) with ⟨c, cs, htext, hc⟩
  exact ⟨c, cs ++ textOf rest, by simp [htext], hc⟩

/-- The text of a header is empty, or starts with a visible character. -/
theorem visible_header {header : List Token} (h : header = [] ∨ IsItem header 0)
    (hdelimited : ∀ t ∈ header, t.Delimited) :
    textOf header = [] ∨ ∃ c cs, textOf header = c :: cs ∧ isBlank c = false := by
  rcases h with rfl | hitem
  · exact Or.inl rfl
  · exact Or.inr (hitem.visible hdelimited)

/-- A header starts visibly, and so does a block without one. -/
theorem visible_block {header : List Char}
    (h : header = [] ∨ ∃ c cs, header = c :: cs ∧ isBlank c = false) (inner : List Char) :
    ∃ c cs, header ++ '{' :: inner = c :: cs ∧ isBlank c = false := by
  rcases h with rfl | ⟨c, cs, rfl, hc⟩
  · exact ⟨'{', inner, rfl, by decide⟩
  · exact ⟨c, cs ++ '{' :: inner, rfl, hc⟩

/-- The nodes of a statement that reaches to its last visible character, in front of others. -/
theorem Seated.over {upper : Nat} {content : Content} {nodes : List Node}
    {before text after : List Char} (hsplit : source.chars = before ++ text ++ after)
    (hvisible : ∃ c cs, text = c :: cs ∧ isBlank c = false)
    (hupper : byteSize before + byteSize text ≤ upper)
    (hnodes : Seated source (byteSize before + byteSize text) upper nodes) :
    Seated source (byteSize before) upper
      (.mk content (Span.over? (source.pointAt (byteSize before)) text) [] :: nodes) := by
  rcases hvisible with ⟨c, cs, rfl, hc⟩
  rcases Span.exists_over? hsplit hc with ⟨span, part, blanks, hover, htext, -, hreads⟩
  have hsize : byteSize (c :: cs) = byteSize part + byteSize blanks := by
    rw [htext, byteSize_append]
  rw [hover]
  exact .leaf hreads (by omega) (hnodes.mono (by omega))

/-- The node of a statement with a semicolon reaches to the semicolon. -/
theorem statementNode?_semicolon (start : Point) (text : List Char) (last : Point) :
    statementNode? start text (some last) = none ∨
      ∃ content, statementNode? start text (some last) =
        some (.mk content (some ⟨start, last⟩) []) := by
  unfold statementNode?
  cases Content.ofStatement? text with
  | none => exact Or.inl rfl
  | some content => exact Or.inr ⟨content, rfl⟩

/-- The node of a statement without a semicolon reaches to its last visible character. -/
theorem statementNode?_none (start : Point) (text : List Char) :
    statementNode? start text none = none ∨
      ∃ content, statementNode? start text none =
        some (.mk content (Span.over? start text) []) := by
  unfold statementNode?
  cases Content.ofStatement? text with
  | none => exact Or.inl rfl
  | some content => exact Or.inr ⟨content, rfl⟩

/-- The span between two visible characters reads what stands between them. -/
theorem reads_of_ends {before init after : List Char} {c : Char}
    (hsplit : source.chars = before ++ (init ++ [c]) ++ after) (hc : isBlank c = false)
    (hinit : init = [] ∨ ∃ d ds, init = d :: ds ∧ isBlank d = false) :
    Span.Reads source ⟨source.pointAt (byteSize before), source.pointAt (byteSize (before ++ init))⟩
      before (init ++ [c]) after := by
  refine ⟨hsplit, ?_, rfl, init, c, rfl, hc, rfl⟩
  rcases hinit with rfl | ⟨d, ds, rfl, hd⟩
  · exact ⟨c, [], rfl, hc⟩
  · exact ⟨d, ds ++ [c], rfl, hd⟩

/-- A block in front of seated nodes, with its children between its braces. -/
theorem Seated.block {upper : Nat} {content : Content} {children nodes : List Node}
    {before header inner after : List Char}
    (hsplit : source.chars = before ++ ((header ++ ['{'] ++ inner) ++ ['}']) ++ after)
    (hheader : header = [] ∨ ∃ c cs, header = c :: cs ∧ isBlank c = false)
    (hchildren : Seated source (byteSize (before ++ (header ++ ['{'])))
      (byteSize (before ++ (header ++ ['{'] ++ inner))) children)
    (hupper : byteSize before + byteSize ((header ++ ['{'] ++ inner) ++ ['}']) ≤ upper)
    (hnodes : Seated source (byteSize before + byteSize ((header ++ ['{'] ++ inner) ++ ['}'])) upper
      nodes) :
    Seated source (byteSize before) upper
      (.mk content (some ⟨source.pointAt (byteSize before),
        source.pointAt (byteSize (before ++ (header ++ ['{'] ++ inner)))⟩) children :: nodes) := by
  have hopening : '{'.utf8Size = 1 := by decide
  have hvisible : ∃ c cs, header ++ ['{'] ++ inner = c :: cs ∧ isBlank c = false := by
    simpa using visible_block hheader inner
  have hbraced : Braced ((header ++ ['{'] ++ inner) ++ ['}']) (byteSize before)
      (byteSize (before ++ (header ++ ['{']))) (byteSize (before ++ (header ++ ['{'] ++ inner))) :=
    ⟨header, inner, by simp, by simp [hopening, Nat.add_assoc], by simp [Nat.add_assoc]⟩
  exact .cons (reads_of_ends hsplit (by decide) (Or.inr hvisible)) (Nat.le_refl _) hupper
    (Or.inr hbraced) hchildren hnodes

/-- Tokens that are laid out as nodes seat them between the ends of their text. -/
theorem Laid.seated {nested : Bool} {p : Point} {ts : List Token} {nodes : List Node}
    (h : Laid nested p ts nodes) (hts : ∀ t ∈ ts, t.Delimited) {before after : List Char}
    (hsplit : source.chars = before ++ textOf ts ++ after)
    (hp : p = source.pointAt (byteSize before)) {upper : Nat}
    (hupper : byteSize before + byteSize (textOf ts) ≤ upper) :
    Seated source (byteSize before) upper nodes := by
  induction h generalizing before after upper with
  | nil => exact .nil _ _
  | @skip nested p c ts nodes hc _ ih =>
      subst hp
      have hsplit' : source.chars = before ++ [c] ++ (textOf ts ++ after) := by
        simpa [Token.text] using hsplit
      have hrest := ih (List.forall_mem_cons.mp hts).2 (by simpa using hsplit')
        (Source.advance_pointAt hsplit') (by simpa [Token.text, Nat.add_assoc] using hupper)
      exact hrest.mono (by simp)
  | @comment nested p content ts nodes _ ih =>
      subst hp
      rcases List.forall_mem_cons.mp hts with ⟨hcomment, hts⟩
      rcases hcomment rfl with ⟨body, hcontent, -⟩
      have hsplit' : source.chars = before ++ content ++ (textOf ts ++ after) := by
        simpa [Token.text] using hsplit
      have hrest := ih hts (by simpa using hsplit') (Source.advance_pointAt hsplit')
        (by simpa [Token.text, Nat.add_assoc] using hupper)
      apply Seated.over hsplit' ⟨'/', _, hcontent, by decide⟩
      · simp [Token.text] at hupper
        omega
      · simpa using hrest
  | @statement nested p semicolon item ts nodes hitem hsemicolon _ ih =>
      subst hp hsemicolon
      simp only [List.forall_mem_append, List.forall_mem_cons] at hts
      have hsplit' : source.chars = before ++ (textOf item ++ [';']) ++ (textOf ts ++ after) := by
        simpa [Token.text] using hsplit
      have hmark : source.chars = before ++ textOf item ++ (';' :: (textOf ts ++ after)) := by
        simpa using hsplit'
      have hsize : byteSize before + byteSize (textOf item ++ [';']) + byteSize (textOf ts) ≤
          upper := by
        simpa [Token.text, Nat.add_assoc] using hupper
      have hrest := ih hts.2.2 (by simpa using hsplit') (Source.next_advance_pointAt hsplit')
        (by simpa using hsize)
      rw [Source.advance_pointAt hmark]
      rcases statementNode?_semicolon (source.pointAt (byteSize before)) (textOf item)
          (source.pointAt (byteSize (before ++ textOf item))) with hnone | ⟨content, hsome⟩
      · rw [hnone]
        exact hrest.mono (by simp)
      · rw [hsome]
        apply Seated.leaf (reads_of_ends hsplit' (by decide) (Or.inr (hitem.visible hts.1)))
        · omega
        · simpa using hrest
  | @last nested p item parens hitem _ =>
      subst hp
      rcases statementNode?_none (source.pointAt (byteSize before)) (textOf item) with
        hnone | ⟨content, hsome⟩
      · rw [hnone]
        exact .nil _ _
      · rw [hsome]
        exact Seated.over hsplit (hitem.visible hts) hupper (.nil _ _)
  | @block nested p brace closing header inner ts children nodes hheader hbrace _ hclosing _
      ihinner ih =>
      subst hp hbrace hclosing
      simp only [List.forall_mem_append, List.forall_mem_cons] at hts
      have hsplit' : source.chars = before ++ ((textOf header ++ ['{'] ++ textOf inner) ++ ['}']) ++
          (textOf ts ++ after) := by
        simpa [Token.text] using hsplit
      have hsize : byteSize before + byteSize ((textOf header ++ ['{'] ++ textOf inner) ++ ['}']) +
          byteSize (textOf ts) ≤ upper := by
        simpa [Token.text, Nat.add_assoc] using hupper
      have hopen : source.chars =
          before ++ (textOf header ++ ['{']) ++ (textOf inner ++ '}' :: (textOf ts ++ after)) := by
        simpa using hsplit'
      have hbody : source.chars = (before ++ (textOf header ++ ['{'])) ++ textOf inner ++
          '}' :: (textOf ts ++ after) := by
        simpa using hopen
      have hclose : source.chars = (before ++ (textOf header ++ ['{'])) ++
          (textOf inner ++ ['}']) ++ (textOf ts ++ after) := by
        simpa using hopen
      rw [Source.next_advance_pointAt hopen] at ih ihinner ⊢
      have hinner : Seated source (byteSize (before ++ (textOf header ++ ['{'])))
          (byteSize (before ++ (textOf header ++ ['{'] ++ textOf inner))) children :=
        ihinner hts.2.2.1 hbody rfl (by simp [Nat.add_assoc])
      have hrest := ih hts.2.2.2.2 (by simpa using hclose) (Source.next_advance_pointAt hclose)
        (by simpa using hsize)
      rw [Source.advance_pointAt hbody, List.append_assoc before]
      have hvisible := visible_header hheader hts.1
      have hupper' : byteSize before +
          byteSize ((textOf header ++ ['{'] ++ textOf inner) ++ ['}']) ≤ upper := by
        omega
      exact Seated.block hsplit' hvisible hinner hupper' (by simpa [Nat.add_assoc] using hrest)

/-- The nodes of a sheet are seated in its text. -/
theorem seated_of_parseForest {text : List Char} {forest : List Node}
    (h : parseForest text = .ok forest) : Seated ⟨text⟩ 0 (byteSize text) forest := by
  have hlaid := laid_of_parseForest h
  have htext : textOf (Token.lex .spanning text) = text := Token.flatMap_text_lex _ _
  have horigin : Point.origin = Source.pointAt ⟨text⟩ (byteSize []) :=
    Source.advance_origin (List.nil_append text).symm
  have hsplit : text = [] ++ textOf (Token.lex .spanning text) ++ [] := by simp [htext]
  exact hlaid.seated (Token.proper_lex .spanning text).delimited hsplit horigin (by simp [htext])

end Sheet
end StyleAtlas
