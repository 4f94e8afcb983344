import StyleAtlas.Proofs.Hint.Declarations
import StyleAtlas.Proofs.Sheet.Standing

/-!
# Rules end where their sheet says

A scanner finds the end of a rule by counting braces from its start on, and knows nothing of the
items in between.  The reader of a sheet counts parentheses from the start of each item, skips what
stands in them, and finds the closing brace of a rule when the blocks inside it are complete.  Where
no string has a line feed and no parenthesis is open at a brace, both come to the same brace,
however deep the rule lies and whatever lies in it.

Main results:

- Theorem `Sheet.ParensClosed.of_append`: the condition on parentheses holds from any token on.
- Definition `Hint.Balanced`, Theorem `Sheet.Laid.balanced`: sequences of nodes have balanced
  braces.
- Theorem `Hint.blockEnd_eq_rule_end`: the end of a rule.
-/

namespace StyleAtlas

open Text
open Token (textOf lex)

/-! ## Parentheses from a token on -/

namespace Sheet

/-- Where more parentheses are open before a character, no fewer are open behind it. -/
theorem parensBehind_mono {parens parens' : Nat} (h : parens ≤ parens') (c : Char) :
    parensBehind parens c ≤ parensBehind parens' c := by
  unfold parensBehind
  split
  · omega
  · split <;> omega

/-- Fewer open parentheses are closed as well. -/
theorem ParensClosed.mono {parens parens' : Nat} (hle : parens ≤ parens') {ts : List Token}
    (h : ParensClosed parens' ts) : ParensClosed parens ts := by
  induction ts generalizing parens parens' with
  | nil => trivial
  | cons t ts ih =>
      cases t with
      | char c =>
          refine ⟨fun hbrace => ?_, ih (parensBehind_mono hle c) h.2⟩
          have hzero := h.1 hbrace
          omega
      | quoted content closed => exact ih hle h
      | comment content closed => exact ih hle h

/-- From any token on the parentheses are closed at the braces, if those in front of it are not
counted. -/
theorem ParensClosed.of_append {parens : Nat} (front : List Token) {ts : List Token}
    (h : ParensClosed parens (front ++ ts)) : ParensClosed 0 ts := by
  induction front generalizing parens with
  | nil => exact h.mono (Nat.zero_le _)
  | cons t front ih =>
      cases t with
      | char c => exact ih h.2
      | quoted content closed =>
          have hrest : ParensClosed parens (front ++ ts) := h
          exact ih hrest
      | comment content closed =>
          have hrest : ParensClosed parens (front ++ ts) := h
          exact ih hrest

/-- An item whose parentheses are closed before the next brace has no brace in it. -/
theorem IsItem.not_isBrace {item rest : List Token} {parens : Nat} (h : IsItem item parens)
    (hparens : ParensClosed 0 (item ++ rest)) : ∀ t ∈ item, t.isBrace = false :=
  (h.inside.parensClosed hparens).1

end Sheet

/-! ## Balanced braces -/

namespace Hint

/-- Inside a block parentheses do not matter for its end. -/
theorem blockEndFrom_parens {size braces : Nat} (h : 0 < braces) (parens parens' : Nat)
    (ts : List Placed) :
    blockEndFrom size braces parens ts = blockEndFrom size braces parens' ts := by
  induction ts generalizing braces parens parens' with
  | nil => rfl
  | cons t ts ih =>
      rw [blockEndFrom, blockEndFrom]
      split
      · exact ih h _ _
      · exact ih h _ _
      · rw [if_neg (by omega), if_neg (by omega)]
        exact ih h _ _
      · exact ih (Nat.succ_pos _) _ _
      · by_cases hlast : braces ≤ 1
        · rw [if_pos hlast, if_pos hlast]
        · rw [if_neg hlast, if_neg hlast]
          exact ih (by omega) _ _
      · exact ih h _ _

/-- Tokens inside a block that close as many braces as they open: the end of the block is the same
as if they were not there. -/
def Balanced (segment : List Token) : Prop :=
  ∀ size braces parens offset rest, 0 < braces →
    blockEndFrom size braces parens (Placed.ofTokens offset (segment ++ rest)) =
      blockEndFrom size braces 0 (Placed.ofTokens (offset + byteSize (textOf segment)) rest)

namespace Balanced

/-- No tokens are balanced. -/
theorem nil : Balanced [] := by
  intro size braces parens offset rest hbraces
  exact blockEndFrom_parens hbraces _ _ _

/-- Balanced segments may follow one another. -/
theorem append {segment segment' : List Token} (h : Balanced segment) (h' : Balanced segment') :
    Balanced (segment ++ segment') := by
  intro size braces parens offset rest hbraces
  rw [List.append_assoc, h _ _ _ _ _ hbraces, h' _ _ _ _ _ hbraces]
  simp [Nat.add_assoc]

/-- A token that is no brace is balanced. -/
theorem singleton {t : Token} (ht : t.isBrace = false) : Balanced [t] := by
  intro size braces parens offset rest hbraces
  have hsize : byteSize (textOf [t]) = byteSize t.text := by simp
  rw [hsize, List.singleton_append]
  cases t with
  | char c =>
      rw [blockEndFrom_char ht (by omega), blockEndFrom_parens hbraces _ 0]
      simp [Token.text]
  | quoted content closed =>
      rw [blockEndFrom_other (by simp), blockEndFrom_parens hbraces]
  | comment content closed =>
      rw [blockEndFrom_other (by simp), blockEndFrom_parens hbraces]

/-- Tokens without braces are balanced. -/
theorem flat {segment : List Token} (h : ∀ t ∈ segment, t.isBrace = false) : Balanced segment := by
  induction segment with
  | nil => exact nil
  | cons t segment ih =>
      rcases List.forall_mem_cons.mp h with ⟨ht, hsegment⟩
      exact (singleton ht).append (ih hsegment)

/-- Balanced tokens between braces are balanced. -/
theorem block {inner : List Token} (h : Balanced inner) :
    Balanced (.char '{' :: (inner ++ [.char '}'])) := by
  intro size braces parens offset rest hbraces
  have hopen : '{'.utf8Size = 1 := by decide
  have hclose : '}'.utf8Size = 1 := by decide
  have hinner := h size (braces + 1) parens (offset + 1) (.char '}' :: rest) (Nat.succ_pos _)
  have hlast : ¬braces + 1 ≤ 1 := by omega
  simp only [Placed.ofTokens, blockEndFrom, if_neg hlast, Nat.add_sub_cancel, Token.text,
    byteSize_cons, byteSize_nil, hclose] at hinner
  simp only [List.cons_append, List.append_assoc, List.nil_append, Placed.ofTokens, blockEndFrom,
    Token.text, byteSize_cons, byteSize_nil, hopen, hinner]
  simp [Token.text, hopen, hclose, Nat.add_assoc]

end Balanced
end Hint

namespace Sheet

open Hint (Balanced)

/-- A sequence of nodes has balanced braces, where no parenthesis is open at one. -/
theorem Laid.balanced {nested : Bool} {p : Point} {ts rest : List Token} {nodes : List Node}
    (h : Laid nested p ts nodes) (hparens : ParensClosed 0 (ts ++ rest)) : Balanced ts := by
  induction h generalizing rest with
  | nil nested p => exact .nil
  | @skip nested p c ts nodes hc hts ih =>
      have hbrace : Token.isBrace (.char c) = false := by
        rw [Token.isBrace_char]
        constructor
        · rintro rfl
          exact absurd hc (by decide)
        · rintro rfl
          exact absurd hc (by decide)
      exact (Balanced.singleton hbrace).append (ih (hparens.tail_skip hc))
  | @comment nested p content ts nodes hts ih =>
      exact (Balanced.singleton rfl).append (ih hparens)
  | @statement nested p semicolon item ts nodes hitem hsemicolon hts ih =>
      rw [List.append_assoc] at hparens
      have hrest : ParensClosed 0 (ts ++ rest) :=
        ParensClosed.of_append (item ++ [.char ';']) (by simpa using hparens)
      have hitem' : Balanced (item ++ [.char ';']) :=
        (Balanced.flat (hitem.not_isBrace hparens)).append (.singleton rfl)
      simpa using hitem'.append (ih hrest)
  | @last nested p item parens hitem hparens' => exact .flat (hitem.not_isBrace hparens)
  | @block nested p brace closing header inner ts children nodes hheader hbrace hinner hclosing hts
      ihinner ih =>
      simp only [List.append_assoc, List.cons_append] at hparens
      have hopen : ParensClosed 0 (inner ++ .char '}' :: (ts ++ rest)) :=
        ParensClosed.of_append (header ++ [.char '{']) (by simpa using hparens)
      have hrest : ParensClosed 0 (ts ++ rest) :=
        ParensClosed.of_append (inner ++ [.char '}']) (by simpa using hopen)
      have hheader' := ((inside_header hheader).parensClosed hparens).1
      have hblock := (Balanced.flat hheader').append (ihinner hopen).block
      simpa using hblock.append (ih hrest)

end Sheet

/-! ## The end of a rule -/

namespace Hint

open Sheet

/-- A block ends past its closing brace. -/
theorem blockEnd_block {source : Source} {start : Nat} {header inner rest : List Token}
    (htokens : source.tokensFrom .singleLine start =
      Placed.ofTokens start (header ++ .char '{' :: (inner ++ .char '}' :: rest)))
    (hheader : Inside 0 header 0) (hbrace : ∀ t ∈ header, t.isBrace = false)
    (hinner : Balanced inner) :
    blockEnd source start =
      start + byteSize (textOf header) + 1 + byteSize (textOf inner) + 1 := by
  have hopen : '{'.utf8Size = 1 := by decide
  rw [blockEnd, htokens, blockEndFrom_header hheader hbrace]
  simp only [Placed.ofTokens, blockEndFrom, Token.text, byteSize_cons, byteSize_nil, hopen]
  rw [hinner _ _ _ _ _ Nat.one_pos]
  simp [Placed.ofTokens, blockEndFrom]

/-- A rule that stands in front of the tokens from an offset on ends past its closing brace. -/
theorem blockEnd_of_headedBy {source : Source} {p : Point} {ts : List Token} {rule : Sheet.Node}
    (h : HeadedBy p ts rule) (hparens : ParensClosed 0 ts)
    (htokens : source.tokensFrom .singleLine p.offset = Placed.ofTokens p.offset ts)
    {selector : List Char} (hselector : rule.content = .rule selector) :
    ∃ span, rule.span = some span ∧ span.first = p ∧
      blockEnd source p.offset = span.last.offset + 1 := by
  cases h with
  | comment content rest => simp [commentNode, Sheet.Node.content] at hselector
  | statement hitem hnode rest =>
      rcases Option.map_eq_some_iff.mp hnode with ⟨content, hcontent, rfl⟩
      obtain rfl : content = .rule selector := hselector
      exact absurd hcontent (Content.ofStatement?_ne_rule _ _)
  | last hitem hnode hrest =>
      rcases Option.map_eq_some_iff.mp hnode with ⟨content, hcontent, rfl⟩
      obtain rfl : content = .rule selector := hselector
      exact absurd hcontent (Content.ofStatement?_ne_rule _ _)
  | @block header inner children hheader hinner rest =>
      have hopen : '{'.utf8Size = 1 := by decide
      have hbrace := ((inside_header hheader).parensClosed hparens).1
      have hbehind : ParensClosed 0 (inner ++ .char '}' :: rest) :=
        ParensClosed.of_append (header ++ [.char '{']) (by simpa using hparens)
      have hend := blockEnd_block htokens (inside_header hheader) hbrace (hinner.balanced hbehind)
      refine ⟨_, rfl, rfl, ?_⟩
      rw [hend]
      simp [hopen]

/-- In a sheet in which no string has a line feed and no parenthesis is open at a brace, a rule ends
for a scanner at the brace at which it ends in the sheet. -/
theorem blockEnd_eq_rule_end {text : List Char} {root : Sheet.Node} (h : parse text = .ok root)
    (hfeed : ∀ content closed, .quoted content closed ∈ lex .spanning text → '\n' ∉ content)
    (hparens : ParensClosed 0 (lex .spanning text)) {rule : Sheet.Node}
    (hrule : rule ∈ root.preorder) {selector : List Char}
    (hselector : rule.content = .rule selector) :
    ∃ span, rule.span = some span ∧
      blockEnd ⟨text⟩ span.first.offset = span.last.offset + 1 := by
  rcases standsAmong_of_parse h with ⟨hwhole, hstands⟩
  have hbelow := mem_preorderAll_of_parse h hrule (by simp [hselector])
  rcases hstands rule hbelow with ⟨before, back, htokens, hback⟩
  have hstart : (Point.origin.advance (textOf before)).offset = byteSize (textOf before) := by
    simp [Point.origin]
  have hfrom := Scanner.tokensFrom_textOf htokens
    (fun t ht => hwhole.closed t (htokens ▸ List.mem_append_left _ ht)) hfeed
  rw [htokens] at hparens
  rw [← hstart] at hfrom
  rcases blockEnd_of_headedBy hback (hparens.of_append before) hfrom hselector with
    ⟨span, hspan, hfirst, hend⟩
  exact ⟨span, hspan, by rw [hfirst, hend]⟩

/-- A rule in a block, with a semicolon in parentheses in its header; the rule inside it has a brace
in a string. -/
def nestedBlocks : List Char :=
  ['@', 'm', '{', 'a', '(', ';', ')', '{', 'b', '{', 'c', ':', '\x22', '}', '\x22', '}', '}', '}']

/-- The inner rule of the nested blocks ends at its own brace, not at the one in its string. -/
theorem blockEnd_eq_rule_end_nestedBlocks :
    ∃ root rule span, parse nestedBlocks = .ok root ∧ rule ∈ root.preorder ∧
      rule.content = .rule ['a', '(', ';', ')'] ∧ rule.span = some span ∧ span.first.offset = 3 ∧
      blockEnd ⟨nestedBlocks⟩ 3 = 17 := by
  have hparse : ∃ root, parse nestedBlocks = .ok root := ⟨_, rfl⟩
  rcases hparse with ⟨root, hparse⟩
  have hfeed : ∀ t ∈ lex .spanning nestedBlocks, '\n' ∉ t.text := by decide
  have hrule : ∃ rule ∈ root.preorder, rule.content = .rule ['a', '(', ';', ')'] ∧
      ∀ span, rule.span = some span → span.first.offset = 3 ∧ span.last.offset = 16 := by
    obtain rfl := Except.ok.inj hparse
    refine ⟨_, List.mem_cons_of_mem _ (List.mem_cons_of_mem _ List.mem_cons_self), rfl, ?_⟩
    intro span hspan
    obtain rfl := Option.some.inj hspan
    exact ⟨rfl, rfl⟩
  rcases hrule with ⟨rule, hmem, hcontent, hplace⟩
  rcases blockEnd_eq_rule_end hparse (fun content closed => hfeed _) (by decide) hmem hcontent with
    ⟨span, hspan, hend⟩
  rcases hplace span hspan with ⟨hfirst, hlast⟩
  rw [hfirst, hlast] at hend
  exact ⟨root, rule, span, hparse, hmem, hcontent, hspan, hfirst, hend⟩

end Hint
end StyleAtlas
