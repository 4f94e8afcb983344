import Mathlib.Data.List.Infix
import StyleAtlas.Proofs.Hint.Declarations
import StyleAtlas.Proofs.Sheet.Rendering
import StyleAtlas.Proofs.Sheet.Spelling
import StyleAtlas.Proofs.Sheet.Standing

/-!
# Two readings of the important mark

The reader of a sheet takes a declaration as important when the word of the mark stands behind the
last exclamation mark of its value.  A scanner looks for the mark anywhere in the text from the
colon to the end of the statement, strings and comments included.  The two readings agree on every
declaration that is important, and on every other one whose value nowhere carries the mark, not even
in a string.

Main results:

- Definition `Hint.CarriesMark`: texts in which the mark stands somewhere.
- Theorem `Hint.isImportant_iff_carriesMark`: what a scanner reads from an offset on.
- Definition `Token.ReadsAlike`: tokens of a value that a scanner reads as a sheet does.
- Theorem `Hint.carriesMark_iff`: the text behind a colon carries the mark behind its value or in
  it.
- Theorem `Hint.isImportant_eq_important_iff`: where the two readings agree.
-/

namespace StyleAtlas

open Text
open Token (textOf lex)

/-! ## Runs -/

namespace Text

/-- Searching for a run of characters finds it if it is there. -/
theorem containsRun_iff {part cs : List Char} : containsRun part cs = true ↔ part <:+: cs := by
  induction cs with
  | nil => simp [containsRun]
  | cons c cs ih =>
      rw [containsRun, Bool.or_eq_true, ih, List.isPrefixOf_iff_prefix, List.infix_cons_iff]

/-- A run does not reach to a character that it does not have. -/
theorem infix_concat_iff_of_not_mem {part : List Char} {c : Char} (hne : part ≠ [])
    (hc : c ∉ part) (cs : List Char) : part <:+: cs ++ [c] ↔ part <:+: cs := by
  rw [List.infix_concat_iff, or_iff_right_iff_imp]
  intro hsuffix
  have hlast := hsuffix.getLast hne
  rw [List.getLast_append_singleton] at hlast
  exact absurd (hlast ▸ List.getLast_mem hne) hc

end Text

/-! ## Tokens behind a colon -/

namespace Token

/-- A token that a scanner reads inside a value as a sheet does: neither a brace, nor a string with
a line feed. -/
def ReadsAlike : Token → Prop
  | .char c => c ≠ '{' ∧ c ≠ '}'
  | .quoted content _ => '\n' ∉ content
  | .comment _ _ => True

instance : DecidablePred ReadsAlike
  | .char c => inferInstanceAs (Decidable (c ≠ '{' ∧ c ≠ '}'))
  | .quoted content _ => inferInstanceAs (Decidable ('\n' ∉ content))
  | .comment _ _ => inferInstanceAs (Decidable True)

/-- A token that reads alike is no brace. -/
theorem ReadsAlike.not_isBrace {t : Token} (h : t.ReadsAlike) : t.isBrace = false := by
  cases t with
  | char c => exact isBrace_char.mpr h
  | quoted content closed => rfl
  | comment content closed => rfl

end Token

namespace Sheet

/-- The characters of a mark read alike. -/
theorem IsMarking.readsAlike {c : Char} (h : IsMarking c) : Token.ReadsAlike (.char c) := by
  unfold IsMarking at h
  constructor
  · rintro rfl
    exact absurd h (by decide)
  · rintro rfl
    exact absurd h (by decide)

/-- A statement that says a declaration has its property in front of its first colon. -/
theorem Content.exists_of_ofStatement?_declaration {text property value : List Char}
    {important : Bool} (h : ofStatement? text = some (.declaration property value important)) :
    ∃ before after, text = before ++ ':' :: after ∧ ':' ∉ before ∧ trim before = property ∧
      splitImportant (trim after) = (value, important) := by
  rcases ofStatement?_cases text with
    ⟨hnone, -⟩ | ⟨rest, -, hsome⟩ | ⟨before, after, htext, hcolon, hsome⟩
  · simp [hnone] at h
  · simp [hsome] at h
  · obtain ⟨hproperty, hvalue, himportant⟩ :=
      Content.declaration.inj (Option.some.inj (hsome.symm.trans h))
    exact ⟨before, after, htext, hcolon, hproperty, Prod.ext hvalue himportant⟩

/-- Headers say no declaration. -/
theorem Content.ofHeader_ne_declaration (header property value : List Char) (important : Bool) :
    ofHeader header ≠ .declaration property value important := by
  unfold ofHeader
  split <;> simp [atRuleOf]

/-- Behind a colon at which nothing is open the tokens of an item start anew. -/
theorem IsItem.inside_behind_colon {item : List Token} {parens : Nat} (h : IsItem item parens)
    (hwhole : Token.Whole item) {before after : List Char}
    (htext : textOf item = before ++ ':' :: after) (hproperty : Enclosed (trim before)) :
    Inside 0 (lex .spanning after) parens := by
  have hvisible := h.visible hwhole.delimited
  rw [htext] at hvisible
  rcases exists_eq_trim_append (visible_before hvisible) with ⟨gap, hbefore⟩
  have henclosed : Enclosed before := by
    rw [hbefore]
    exact hproperty.append_blanks gap.blank
  have hinside := h.inside
  rw [← hwhole.lexed, htext, henclosed.lex_append_cons (by decide)] at hinside
  rcases Inside.of_append henclosed hinside with _ | ⟨_, hafter⟩
  exact hafter

end Sheet

/-! ## Texts with the mark -/

namespace Hint

open Sheet

/-- A text without its blanks, in small letters. -/
def squeezed (cs : List Char) : List Char :=
  lower (cs.filter fun c => !isBlank c)

/-- Texts are squeezed one after the other. -/
@[simp]
theorem squeezed_append (cs ds : List Char) : squeezed (cs ++ ds) = squeezed cs ++ squeezed ds := by
  simp [squeezed, lower]

/-- Nothing is left of blanks. -/
@[simp]
theorem squeezed_gap (gap : Gap) : squeezed gap.chars = [] := by
  have hnone : gap.chars.filter (fun c => !isBlank c) = [] :=
    List.filter_eq_nil_iff.mpr fun c hc => by simp [gap.blank c hc]
  rw [squeezed, hnone]
  rfl

/-- Texts in which the important mark stands somewhere, in letters of any case and with any blanks
in it. -/
def CarriesMark (cs : List Char) : Prop :=
  importantMark <:+: squeezed cs

instance : DecidablePred CarriesMark := fun cs =>
  inferInstanceAs (Decidable (importantMark <:+: squeezed cs))

/-- All written forms of the mark are squeezed to one. -/
theorem squeezed_mark {mark : List Char} (h : IsMark mark) : squeezed mark = importantMark := by
  rcases h with ⟨gap, word, rfl, hword⟩
  have hvisible : word.filter (fun c => !isBlank c) = word := by
    apply List.filter_eq_self.mpr
    intro c hc
    have hletter : c.toLower ∈ importantWord := hword ▸ List.mem_map_of_mem hc
    simp [isBlank_eq_false_of_toLower_mem hletter]
  have hsmall : squeezed word = importantWord := by rw [squeezed, hvisible, hword]
  have hbang : squeezed ['!'] = ['!'] := by decide
  have hsplit : '!' :: (gap.chars ++ word) = ['!'] ++ (gap.chars ++ word) := rfl
  rw [hsplit, squeezed_append, squeezed_append, squeezed_gap, hsmall, hbang]
  rfl

/-- The text behind the colon of a declaration carries the mark behind its value or in it. -/
theorem carriesMark_iff (after : List Char) :
    CarriesMark after ↔ (splitImportant (trim after)).2 = true ∨
      CarriesMark (splitImportant (trim after)).1 := by
  rcases exists_eq_trim after with ⟨gap, gap', hafter, hgap, hgap'⟩
  rcases exists_marksBehind (trim after) with ⟨mark, gap'', htrim, hmark⟩
  have hsqueezed : squeezed after =
      squeezed (splitImportant (trim after)).1 ++ squeezed mark := by
    conv_lhs => rw [hafter, htrim]
    simp [squeezed_gap ⟨gap, hgap⟩, squeezed_gap ⟨gap', hgap'⟩]
  rw [CarriesMark, hsqueezed]
  cases hflag : (splitImportant (trim after)).2 with
  | true =>
      rw [hflag] at hmark
      rcases hmark with ⟨front, written, rfl, hwritten⟩
      rw [squeezed_append, squeezed_gap, List.nil_append, squeezed_mark hwritten]
      simp [List.infix_append_of_infix_right]
  | false =>
      rw [hflag] at hmark
      rw [hmark.1]
      simp [CarriesMark, squeezed, lower]

/-! ## What a scanner reads -/

variable {source : Source}

/-- What may stand behind a value that leaves some parentheses open: nothing, or a semicolon or a
closing brace, if no parenthesis is open. -/
def EndsValue (parens : Nat) (rest : List Char) : Prop :=
  rest = [] ∨ parens = 0 ∧ ∃ c others, (c = ';' ∨ c = '}') ∧ rest = c :: others

/-- A value ends for a scanner past the character behind it. -/
theorem blockEnd_value {before value rest : List Char} {parens : Nat}
    (hsplit : source.chars = before ++ (value ++ rest))
    (hinside : Inside 0 (lex .spanning value) parens)
    (halike : ∀ t ∈ lex .spanning value, t.ReadsAlike) (hrest : EndsValue parens rest) :
    blockEnd source (byteSize before) =
      byteSize before + byteSize (value ++ rest.take 1) := by
  have hline : lex .singleLine value = lex .spanning value :=
    Token.lex_singleLine fun content closed hmem => halike _ hmem
  have hbrace : ∀ t ∈ lex .spanning value, t.isBrace = false :=
    fun t ht => (halike t ht).not_isBrace
  have htext : textOf (lex .spanning value) = value := Token.flatMap_text_lex .spanning value
  rw [blockEnd, Source.tokensFrom_byteSize hsplit]
  rcases hrest with rfl | ⟨rfl, c, others, hc, rfl⟩
  · rw [List.append_nil, hline, ← List.append_nil (lex .spanning value),
      blockEndFrom_header hinside hbrace, htext]
    simp [Placed.ofTokens, blockEndFrom, Source.size, hsplit]
  · have hclosed : ∀ t ∈ lex .singleLine value, t.isClosed = true := hline ▸ hinside.isClosed
    have hinert : Token.isInert c = true := by rcases hc with rfl | rfl <;> decide
    have hsize : c.utf8Size = 1 := by rcases hc with rfl | rfl <;> decide
    rw [Token.lex_append_cons .singleLine hclosed hinert, hline,
      blockEndFrom_header hinside hbrace, htext]
    rcases hc with rfl | rfl <;> simp [Placed.ofTokens, blockEndFrom, hsize, Nat.add_assoc]

/-- A scanner takes a value as important if it carries the mark anywhere. -/
theorem isImportant_iff_carriesMark {before value rest : List Char} {parens : Nat}
    (hsplit : source.chars = before ++ (value ++ rest))
    (hinside : Inside 0 (lex .spanning value) parens)
    (halike : ∀ t ∈ lex .spanning value, t.ReadsAlike) (hrest : EndsValue parens rest) :
    isImportant source (byteSize before) = true ↔ CarriesMark value := by
  have hcut : source.chars = before ++ (value ++ rest.take 1) ++ rest.drop 1 := by
    rw [List.append_assoc, List.append_assoc, List.take_append_drop, hsplit]
  have hslice : slice? source.chars (byteSize before) (blockEnd source (byteSize before)) =
      some (value ++ rest.take 1) := by
    rw [blockEnd_value hsplit hinside halike hrest, hcut, slice?_byteSize]
  have hread : isImportant source (byteSize before) = true ↔
      importantMark <:+: squeezed (value ++ rest.take 1) := by
    rw [isImportant, hslice]
    exact containsRun_iff
  rw [hread, squeezed_append]
  rcases hrest with rfl | ⟨-, c, others, hc, rfl⟩
  · simp [CarriesMark, squeezed, lower]
  · have hsmall : squeezed [c] = [c] := by rcases hc with rfl | rfl <;> decide
    have hmark : c ∉ importantMark := by rcases hc with rfl | rfl <;> decide
    rw [List.take_succ_cons, List.take_zero, hsmall]
    exact infix_concat_iff_of_not_mem (by decide) hmark _

/-! ## Where the two readings agree -/

/-- A scanner takes the declaration of an item as important if the sheet does, or if its value
carries the mark. -/
theorem isImportant_of_item {item : List Token} {parens : Nat} (hitem : IsItem item parens)
    (hwhole : Token.Whole item) {front before after rest value : List Char} {important : Bool}
    (htext : textOf item = before ++ ':' :: after) (hproperty : Enclosed (trim before))
    (hvalue : splitImportant (trim after) = (value, important))
    (halike : ∀ t ∈ lex .spanning value, t.ReadsAlike)
    (hsplit : source.chars = front ++ textOf item ++ rest) (hrest : EndsValue parens rest) :
    isImportant source (byteSize front + byteSize before + 1) = true ↔
      important = true ∨ CarriesMark value := by
  have hinside := hitem.inside_behind_colon hwhole htext hproperty
  have hcolon : ':'.utf8Size = 1 := by decide
  have hplace : byteSize (front ++ before ++ [':']) = byteSize front + byteSize before + 1 := by
    simp [hcolon, Nat.add_assoc]
  have hcut : source.chars = front ++ before ++ [':'] ++ (after ++ rest) := by
    rw [hsplit, htext]
    simp
  have halike' : ∀ t ∈ lex .spanning after, t.ReadsAlike := by
    apply forall_mem_lex_of_value hinside.isClosed fun c hc => hc.readsAlike
    rwa [hvalue]
  rw [← hplace, isImportant_iff_carriesMark hcut hinside halike' hrest, carriesMark_iff, hvalue]

/-- The declaration that stands in front of some tokens. -/
theorem isImportant_of_headedBy {p : Point} {ts : List Token} {node : Sheet.Node}
    (h : HeadedBy p ts node) (hts : Token.Whole ts) {before : List Char}
    (hsplit : source.chars = before ++ textOf ts) (hp : p = source.pointAt (byteSize before))
    {property value : List Char} {important : Bool}
    (hcontent : node.content = .declaration property value important)
    (hproperty : Enclosed property) (halike : ∀ t ∈ lex .spanning value, t.ReadsAlike) :
    ∃ span front back rest, node.span = some span ∧
      span.Reads source before (front ++ ':' :: back) rest ∧ ':' ∉ front ∧
      (isImportant source (byteSize before + byteSize front + 1) = true ↔
        important = true ∨ CarriesMark value) := by
  subst hp
  cases h with
  | comment content rest => simp [commentNode, Sheet.Node.content] at hcontent
  | @statement item node hitem hnode rest =>
      rcases Option.map_eq_some_iff.mp hnode with ⟨content, hsays, rfl⟩
      obtain rfl : content = .declaration property value important := hcontent
      rcases Content.exists_of_ofStatement?_declaration hsays with
        ⟨front, after, htext, hcolon, rfl, hvalue⟩
      have hwhole := hts.of_append.1
      have hsplit' : source.chars = before ++ (textOf item ++ [';']) ++ textOf rest := by
        simpa [Token.text] using hsplit
      have hreads := hitem.reads_semicolon hwhole.delimited hsplit'
      have hpart : textOf item ++ [';'] = front ++ ':' :: (after ++ [';']) := by simp [htext]
      rw [hpart] at hreads
      refine ⟨_, front, _, _, rfl, hreads, hcolon, ?_⟩
      exact isImportant_of_item hitem hwhole htext hproperty hvalue halike
        (by simpa using hsplit') (Or.inr ⟨rfl, ';', textOf rest, Or.inl rfl, rfl⟩)
  | @last item rest parens node hitem hnode hrest =>
      rcases Option.map_eq_some_iff.mp hnode with ⟨content, hsays, rfl⟩
      obtain rfl : content = .declaration property value important := hcontent
      rcases Content.exists_of_ofStatement?_declaration hsays with
        ⟨front, after, htext, hcolon, rfl, hvalue⟩
      have hwhole := hts.of_append.1
      have hsplit' : source.chars = before ++ textOf item ++ textOf rest := by simpa using hsplit
      rcases Span.exists_over?_reads hsplit' (hitem.visible hwhole.delimited) with
        ⟨span, behind, hover, hreads⟩
      rw [htext, trimEnd_append_cons front (by decide)] at hreads
      refine ⟨span, front, _, behind, hover, hreads, hcolon, ?_⟩
      refine isImportant_of_item hitem hwhole htext hproperty hvalue halike hsplit' ?_
      rcases hrest with rfl | ⟨rfl, others, rfl⟩
      · exact Or.inl rfl
      · exact Or.inr ⟨rfl, '}', textOf others, Or.inr rfl, rfl⟩
  | block hheader hinner rest => exact absurd hcontent (Content.ofHeader_ne_declaration _ _ _ _)

/-- A scanner and a sheet agree on whether a declaration is important exactly if it is, or if its
value does not carry the mark.  This is so of every declaration with nothing open at its colon, and
with no brace and no line feed in a string in its value. -/
theorem isImportant_eq_important_iff {text : List Char} {root node : Sheet.Node}
    (h : parse text = .ok root) (hnode : node ∈ root.preorder) {property value : List Char}
    {important : Bool} (hcontent : node.content = .declaration property value important)
    (hproperty : Enclosed property) (halike : ∀ t ∈ lex .spanning value, t.ReadsAlike) :
    ∃ span front back, node.span = some span ∧
      Source.sliceOffsets ⟨text⟩ (span.extent ⟨text⟩) = .ok (front ++ ':' :: back) ∧
      ':' ∉ front ∧
      (isImportant ⟨text⟩ (span.first.offset + byteSize front + 1) = important ↔
        important = true ∨ ¬CarriesMark value) := by
  rcases standsAmong_of_parse h with ⟨hwhole, hstands⟩
  have hbelow := mem_preorderAll_of_parse h hnode (by simp [hcontent])
  rcases hstands node hbelow with ⟨before, ts, htokens, hts⟩
  have hsplit : text = textOf before ++ textOf ts := by
    rw [← List.flatMap_append, ← htokens, Token.flatMap_text_lex]
  rw [htokens] at hwhole
  rcases isImportant_of_headedBy hts hwhole.of_append.2 hsplit (Source.advance_origin hsplit)
    hcontent hproperty halike with ⟨span, front, back, rest, hspan, hreads, hcolon, hread⟩
  refine ⟨span, front, back, hspan, ?_, hcolon, ?_⟩
  · rw [hreads.extent_eq, Source.sliceOffsets_byteSize hreads.split]
  · rw [hreads.first_offset]
    cases important with
    | true => simpa using hread
    | false =>
        rw [← Bool.not_eq_true, hread]
        simp

/-- A rule with an important declaration, and with one that has the mark in a string. -/
def quotedMark : List Char :=
  ['a', '{', 'b', ':', 'c', '!', 'i', 'm', 'p', 'o', 'r', 't', 'a', 'n', 't', ';', 'd', ':', '\x22',
    '!', 'i', 'm', 'p', 'o', 'r', 't', 'a', 'n', 't', '\x22', '}']

/-- The node of the second declaration. -/
def quotedMarkNode : Sheet.Node :=
  .mk (.declaration ['d'] (quotedMark.drop 18).dropLast false)
    (some ⟨⟨1, 17, 16⟩, ⟨1, 30, 29⟩⟩) []

/-- The second declaration is not important, but its value is read as if it were. -/
theorem isImportant_ne_important_quotedMark :
    ∃ root, parse quotedMark = .ok root ∧ quotedMarkNode ∈ root.preorder ∧
      isImportant ⟨quotedMark⟩ 18 ≠ false := by
  have hparse : parse quotedMark = .ok (.mk .root none [.mk (.rule ['a'])
      (some ⟨⟨1, 1, 0⟩, ⟨1, 31, 30⟩⟩) [.mk (.declaration ['b'] ['c'] true)
        (some ⟨⟨1, 3, 2⟩, ⟨1, 16, 15⟩⟩) [], quotedMarkNode]]) := rfl
  have hmem : quotedMarkNode ∈ (Sheet.Node.mk .root none [.mk (.rule ['a'])
      (some ⟨⟨1, 1, 0⟩, ⟨1, 31, 30⟩⟩) [.mk (.declaration ['b'] ['c'] true)
        (some ⟨⟨1, 3, 2⟩, ⟨1, 16, 15⟩⟩) [], quotedMarkNode]]).preorder := by
    simp [Sheet.Node.preorder, Sheet.Node.preorderAll, quotedMarkNode]
  rcases isImportant_eq_important_iff hparse hmem rfl (by decide) (by decide) with
    ⟨span, front, back, hspan, hslice, hcolon, hagree⟩
  obtain rfl := Option.some.inj hspan
  -- The first colon of the declaration stands behind its property.
  have hcut := congrArg (splitFirst? ':') (Except.ok.inj hslice)
  rw [splitFirst?_append hcolon] at hcut
  obtain rfl : ['d'] = front := (Prod.mk.inj (Option.some.inj hcut)).1
  refine ⟨_, hparse, hmem, fun heq => ?_⟩
  rcases hagree.mp heq with htrue | hnot
  · exact Bool.noConfusion htrue
  · exact hnot (by decide)

end Hint
end StyleAtlas
