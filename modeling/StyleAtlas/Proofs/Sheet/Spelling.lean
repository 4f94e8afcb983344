import StyleAtlas.Proofs.Sheet.Fields
import StyleAtlas.Proofs.Sheet.Seating

/-!
# Nodes spell their text

The fields of a node are cut out of its text and trimmed, and its span is counted while the text is
read; still nothing but blanks and delimiters is lost between them.  The text of a node is its
fields in their order, with blanks between them and the delimiters of its kind.

Main results:

- Definition `Sheet.Content.Spells`: texts that are put together from the fields of a node.
- Theorems `Sheet.Content.spells_ofHeader` and `Sheet.Content.spells_of_ofStatement?`: headers and
  statements spell what they say.
- Definition `Sheet.ReadFrom`, Theorem `Sheet.Laid.standsIn`: the tokens that a node is read from.
- Theorem `Sheet.parse_spells_text`: the text of each node of a sheet is spelled by its fields.
-/

namespace StyleAtlas

/-! ## Trimming -/

namespace Text

/-- Letters and digits are visible. -/
theorem isBlank_eq_false_of_isAlphanumeric {c : Char} (h : isAlphanumeric c = true) :
    isBlank c = false := by
  -- No range of the table reaches over a blank, and none starts before the first of them.
  have hapart : ∀ range ∈ alphanumericRanges, 0x85 < range.1 ∧
      (range.2 < 0xA0 ∨ 0xA0 < range.1) ∧ (range.2 < 0x1680 ∨ 0x1680 < range.1) ∧
      (range.2 < 0x2000 ∨ 0x205F < range.1) ∧ (range.2 < 0x3000 ∨ 0x3000 < range.1) := by
    decide +kernel
  by_contra hblank
  simp only [isBlank, Bool.not_eq_false, Bool.or_eq_true, Bool.and_eq_true, decide_eq_true_eq,
    beq_iff_eq] at hblank
  by_cases hascii : c.toNat < 0x80
  · have hcontrol : ∀ n < 0x21, (Char.ofNat n).isAlphanum = false := by decide
    have hother := hcontrol c.toNat (by omega)
    rw [Char.ofNat_toNat] at hother
    rw [isAlphanumeric, if_pos hascii, hother] at h
    exact absurd h (by decide)
  · rw [isAlphanumeric, if_neg hascii, List.any_eq_true] at h
    rcases h with ⟨range, hmem, hin⟩
    have hrange := hapart range hmem
    simp only [Bool.and_eq_true, decide_eq_true_eq] at hin
    omega

/-- Behind a visible character the end of a text is trimmed by itself. -/
theorem trimEnd_append_cons (cs : List Char) {c : Char} (hc : isBlank c = false)
    (ds : List Char) : trimEnd (cs ++ c :: ds) = cs ++ c :: trimEnd ds := by
  induction cs with
  | nil =>
      rw [List.nil_append, List.nil_append, trimEnd]
      cases trimEnd ds with
      | nil => simp [hc]
      | cons d ds => rfl
  | cons b cs ih =>
      rw [List.cons_append, trimEnd, ih]
      cases cs <;> rfl

/-- Visible characters in front are not trimmed off. -/
theorem trimEnd_visible_append {cs : List Char} (h : ∀ c ∈ cs, isBlank c = false)
    (ds : List Char) : trimEnd (cs ++ ds) = cs ++ trimEnd ds := by
  induction cs with
  | nil => rfl
  | cons c cs ih =>
      rcases List.forall_mem_cons.mp h with ⟨hc, hcs⟩
      rw [List.cons_append, ← List.nil_append (c :: (cs ++ ds)), trimEnd_append_cons [] hc, ih hcs]
      rfl

/-- Trimming the end alone leaves the blanks at the start, where a text has anything else. -/
theorem exists_trimEnd_eq (cs : List Char) : ∃ gap : Gap, trimEnd cs = gap.chars ++ trim cs := by
  induction cs with
  | nil => exact ⟨⟨[], by simp⟩, rfl⟩
  | cons c cs ih =>
      by_cases hc : isBlank c = true
      · rcases ih with ⟨gap, hgap⟩
        have htrim : trim (c :: cs) = trim cs := by
          rw [trim, trimStart, List.dropWhile_cons_of_pos hc]
          rfl
        rw [htrim, trimEnd]
        cases hend : trimEnd cs with
        | nil =>
            -- Nothing but blanks: they are all trimmed, those at the start included.
            rw [hend] at hgap
            rw [(List.append_eq_nil_iff.mp hgap.symm).2]
            exact ⟨⟨[], by simp⟩, by simp [hc]⟩
        | cons d ds =>
            refine ⟨⟨c :: gap.chars, List.forall_mem_cons.mpr ⟨hc, gap.blank⟩⟩, ?_⟩
            rw [List.cons_append, ← hgap, hend]
      · refine ⟨⟨[], by simp⟩, ?_⟩
        rw [trim, trimStart, List.dropWhile_cons_of_neg (by simpa using hc), List.nil_append]

/-- A text that starts visibly has blanks at its end only. -/
theorem exists_eq_trim_append {cs : List Char}
    (h : cs = [] ∨ ∃ c ds, cs = c :: ds ∧ isBlank c = false) :
    ∃ gap : Gap, cs = trim cs ++ gap.chars := by
  have hstart : trimStart cs = cs := by
    rcases h with rfl | ⟨c, ds, rfl, hc⟩
    · rfl
    · rw [trimStart, List.dropWhile_cons_of_neg (by simp [hc])]
  rcases exists_eq_trimEnd cs with ⟨gap, hcs, hgap⟩
  exact ⟨⟨gap, hgap⟩, by rwa [trim, hstart]⟩

end Text

namespace Sheet

open Text
open Token (textOf)

/-! ## Spelled nodes -/

/-- The important mark: an exclamation mark, blanks, and the word in letters of any case. -/
def IsMark (cs : List Char) : Prop :=
  ∃ (gap : Gap) (word : List Char), cs = '!' :: (gap.chars ++ word) ∧ lower word = importantWord

/-- What stands behind a value: blanks and the mark, if it is important; otherwise nothing, and the
value does not end in a mark either. -/
def MarksBehind (value : List Char) : (important : Bool) → List Char → Prop
  | true, rest => ∃ (gap : Gap) (mark : List Char), rest = gap.chars ++ mark ∧ IsMark mark
  | false, rest => rest = [] ∧ ∀ front mark, value = front ++ mark → ¬IsMark mark

/-- What stands behind the parameters of an at-rule: nothing, a semicolon, or a body between
braces. -/
def EndsAtRule (ending : List Char) : Prop :=
  ending = [] ∨ ∃ gap : Gap, ending = gap.chars ++ [';'] ∨
    ∃ body, ending = gap.chars ++ '{' :: (body ++ ['}'])

/-- A text is put together from the fields of a node: there is nothing else in it than blanks, the
delimiters, and the body of a block. -/
inductive Content.Spells : Content → List Char → Prop where
  | rule (selector : List Char) (gap : Gap) (body : List Char) :
      Spells (.rule selector) (selector ++ gap.chars ++ '{' :: (body ++ ['}']))
  | atRule (name params : List Char) (gap : Gap) {ending : List Char}
      (hending : EndsAtRule ending) :
      Spells (.atRule name params) ('@' :: (name ++ gap.chars ++ params ++ ending))
  | declaration {property value mark ending : List Char} {important : Bool} (gap gap' gap'' : Gap)
      (hproperty : ':' ∉ property) (hmark : MarksBehind value important mark)
      (hending : ending = [] ∨ ending = [';']) :
      Spells (.declaration property value important)
        (property ++ gap.chars ++ ':' :: (gap'.chars ++ value ++ mark ++ gap''.chars ++ ending))
  | comment (text : List Char) (gap gap' : Gap) :
      Spells (.comment text) ('/' :: '*' :: (gap.chars ++ text ++ gap'.chars ++ ['*', '/']))

/-! ## Values and their marks -/

/-- The letters of the mark are visible. -/
theorem isBlank_eq_false_of_toLower_mem {c : Char} (h : c.toLower ∈ importantWord) :
    isBlank c = false := by
  by_contra hblank
  have hsame : c.toLower = c := by
    unfold Char.toLower
    split
    · rename_i hcapital
      simp only [isBlank, Bool.not_eq_false, Bool.or_eq_true, Bool.and_eq_true, decide_eq_true_eq,
        beq_iff_eq] at hblank
      simp only [ge_iff_le, UInt32.le_iff_toNat_le, Char.toNat_val] at hcapital
      simp at hcapital
      omega
    · rfl
  have hletters : importantWord.all (fun d => !isBlank d) = true := by decide
  have hvisible := List.all_eq_true.mp hletters c (hsame ▸ h)
  exact hblank (by simpa using hvisible)

/-- A mark is found behind whatever stands in front of it. -/
theorem splitImportant_append {mark : List Char} (h : IsMark mark) (front : List Char) :
    splitImportant (front ++ mark) = (trimEnd front, true) := by
  rcases h with ⟨gap, word, rfl, hword⟩
  have hvisible : ∀ c ∈ word, isBlank c = false := by
    intro c hc
    exact isBlank_eq_false_of_toLower_mem (hword ▸ List.mem_map_of_mem hc)
  have hbang : '!' ∉ gap.chars ++ word := by
    rw [List.mem_append, not_or]
    refine ⟨fun hmem => absurd (gap.blank _ hmem) (by decide), fun hmem => ?_⟩
    have hsmall : '!'.toLower ∈ importantWord := hword ▸ List.mem_map_of_mem hmem
    exact absurd hsmall (by decide)
  have htrim : trim (gap.chars ++ word) = word := by
    have hstart : word.dropWhile isBlank = word := by
      cases word with
      | nil => rfl
      | cons c word => rw [List.dropWhile_cons_of_neg (by simp [hvisible c])]
    rw [trim, trimStart, List.dropWhile_append_of_pos gap.blank, hstart]
    have hend := trimEnd_visible_append hvisible []
    rwa [List.append_nil, trimEnd, List.append_nil] at hend
  have hsame : equalsIgnoringCase word importantWord = true := by
    rw [equalsIgnoringCase, hword]
    decide
  rw [splitImportant, splitLast?_append front hbang]
  simp only [htrim, hsame, if_true]

/-- A value is left as it is, or has the word of the mark behind its last exclamation mark. -/
theorem splitImportant_cases (value : List Char) :
    splitImportant value = (value, false) ∨
      ∃ front back, value = front ++ '!' :: back ∧ lower (trim back) = importantWord ∧
        splitImportant value = (trimEnd front, true) := by
  unfold splitImportant
  split
  · rename_i front back hsplit
    split
    · rename_i hword
      have hsmall : lower importantWord = importantWord := by decide
      rw [equalsIgnoringCase, beq_iff_eq, hsmall] at hword
      exact Or.inr ⟨front, back, eq_append_of_splitLast? hsplit, hword, rfl⟩
    · exact Or.inl rfl
  · exact Or.inl rfl

/-- A value is spelled by what is left of it, its mark, and blanks. -/
theorem exists_marksBehind (value : List Char) :
    ∃ (mark : List Char) (gap : Gap), value = (splitImportant value).1 ++ mark ++ gap.chars ∧
      MarksBehind (splitImportant value).1 (splitImportant value).2 mark := by
  rcases splitImportant_cases value with hplain | ⟨front, back, hvalue, hword, himportant⟩
  · rw [hplain]
    refine ⟨[], ⟨[], by simp⟩, by simp, rfl, ?_⟩
    rintro front mark rfl hmark
    simp [splitImportant_append hmark] at hplain
  · rw [himportant]
    rcases exists_eq_trimEnd front with ⟨gap, hfront, hgap⟩
    rcases exists_eq_trim back with ⟨gap', gap'', hback, hgap', hgap''⟩
    refine ⟨gap ++ '!' :: (gap' ++ trim back), ⟨gap'', hgap''⟩, ?_, ⟨gap, hgap⟩, _, rfl,
      ⟨gap', hgap'⟩, _, rfl, hword⟩
    calc value = front ++ '!' :: back := hvalue
      _ = (trimEnd front ++ gap) ++ '!' :: (gap' ++ (trim back ++ gap'')) := by
          rw [← hfront, ← hback]
      _ = trimEnd front ++ (gap ++ '!' :: (gap' ++ trim back)) ++ gap'' := by simp

/-! ## Headers and statements -/

/-- The text behind the `@` of an at-rule is its name and its parameters, with blanks between and
behind them. -/
theorem exists_eq_keyword_append (rest : List Char) :
    ∃ gap gap' : Gap, rest = rest.takeWhile isKeywordChar ++ gap.chars ++
      trim (rest.dropWhile isKeywordChar) ++ gap'.chars := by
  rcases exists_eq_trim (rest.dropWhile isKeywordChar) with ⟨gap, gap', hrest, hgap, hgap'⟩
  refine ⟨⟨gap, hgap⟩, ⟨gap', hgap'⟩, ?_⟩
  calc rest = rest.takeWhile isKeywordChar ++ rest.dropWhile isKeywordChar :=
        List.takeWhile_append_dropWhile.symm
    _ = rest.takeWhile isKeywordChar ++ (gap ++ (trim (rest.dropWhile isKeywordChar) ++ gap')) := by
        rw [← hrest]
    _ = _ := by simp

/-- An at-rule is its name, blanks, and its trimmed parameters. -/
theorem exists_trimEnd_keyword_eq (rest : List Char) :
    ∃ gap : Gap, trimEnd ('@' :: rest) = '@' :: (rest.takeWhile isKeywordChar ++ gap.chars ++
      trim (rest.dropWhile isKeywordChar)) := by
  have hname : ∀ c ∈ '@' :: rest.takeWhile isKeywordChar, isBlank c = false := by
    refine List.forall_mem_cons.mpr ⟨by decide, fun c hc => ?_⟩
    have hkeyword : isKeywordChar c = true := List.mem_takeWhile_imp hc
    simp only [isKeywordChar, Bool.or_eq_true, beq_iff_eq] at hkeyword
    rcases hkeyword with (hletter | rfl) | rfl
    · exact isBlank_eq_false_of_isAlphanumeric hletter
    · decide
    · decide
  rcases exists_trimEnd_eq (rest.dropWhile isKeywordChar) with ⟨gap, hgap⟩
  refine ⟨gap, ?_⟩
  calc trimEnd ('@' :: rest)
      = trimEnd ('@' :: rest.takeWhile isKeywordChar ++ rest.dropWhile isKeywordChar) := by
        rw [List.cons_append, List.takeWhile_append_dropWhile]
    _ = '@' :: rest.takeWhile isKeywordChar ++ trimEnd (rest.dropWhile isKeywordChar) :=
        trimEnd_visible_append hname _
    _ = _ := by simp [hgap]

/-- A comment is spelled by its text. -/
theorem Content.spells_comment (body : List Char) :
    (comment (commentText ('/' :: '*' :: (body ++ ['*', '/'])))).Spells
      ('/' :: '*' :: (body ++ ['*', '/'])) := by
  rcases exists_eq_trim body with ⟨gap, gap', hbody, hgap, hgap'⟩
  have hfield : commentText ('/' :: '*' :: (body ++ ['*', '/'])) = trim body := by
    simp [commentText]
  have hspells := Spells.comment (trim body) ⟨gap, hgap⟩ ⟨gap', hgap'⟩
  rw [hfield]
  simpa [← hbody] using hspells

/-- A header and a body between braces are spelled by what the header says. -/
theorem Content.spells_ofHeader {header : List Char}
    (h : header = [] ∨ ∃ c cs, header = c :: cs ∧ isBlank c = false) (body : List Char) :
    (ofHeader header).Spells (header ++ '{' :: (body ++ ['}'])) := by
  unfold ofHeader
  split
  · rename_i rest
    rcases exists_eq_keyword_append rest with ⟨gap, gap', hrest⟩
    have htext : '@' :: rest ++ '{' :: (body ++ ['}']) = '@' :: (rest.takeWhile isKeywordChar ++
        gap.chars ++ trim (rest.dropWhile isKeywordChar) ++
        (gap'.chars ++ '{' :: (body ++ ['}']))) := by
      conv_lhs => rw [hrest]
      simp
    rw [htext]
    exact .atRule _ _ gap (Or.inr ⟨gap', Or.inr ⟨body, rfl⟩⟩)
  · rcases exists_eq_trim_append h with ⟨gap, hheader⟩
    have htext : header ++ '{' :: (body ++ ['}']) =
        trim header ++ gap.chars ++ '{' :: (body ++ ['}']) := by rw [← hheader]
    rw [htext]
    exact .rule _ gap body

/-- What stands in front of a mark starts visibly, if all of the text does. -/
theorem visible_before {mark : Char} {before after : List Char}
    (h : ∃ c cs, before ++ mark :: after = c :: cs ∧ isBlank c = false) :
    before = [] ∨ ∃ c cs, before = c :: cs ∧ isBlank c = false := by
  cases before with
  | nil => exact Or.inl rfl
  | cons c cs =>
      rcases h with ⟨d, ds, hhead, hd⟩
      exact Or.inr ⟨c, cs, rfl, (List.cons.inj hhead).1 ▸ hd⟩

/-- A declaration is spelled by its property, its value, and the mark. -/
theorem Content.spells_declaration {before : List Char} (after : List Char) {ending : List Char}
    (gap gap' : Gap) (hbefore : before = [] ∨ ∃ c cs, before = c :: cs ∧ isBlank c = false)
    (hcolon : ':' ∉ before) (hending : ending = [] ∨ ending = [';']) :
    Spells (.declaration (trim before) (splitImportant (trim after)).1
        (splitImportant (trim after)).2)
      (before ++ ':' :: (gap.chars ++ trim after ++ gap'.chars ++ ending)) := by
  rcases exists_eq_trim_append hbefore with ⟨front, hfront⟩
  rcases exists_marksBehind (trim after) with ⟨mark, back, hvalue, hmark⟩
  have hblank : ∀ c ∈ back.chars ++ gap'.chars, isBlank c = true :=
    List.forall_mem_append.mpr ⟨back.blank, gap'.blank⟩
  have hproperty : ':' ∉ trim before := by
    intro hmem
    rw [hfront] at hcolon
    exact hcolon (List.mem_append_left _ hmem)
  have htext : before ++ ':' :: (gap.chars ++ trim after ++ gap'.chars ++ ending) =
      trim before ++ front.chars ++ ':' :: (gap.chars ++ (splitImportant (trim after)).1 ++ mark ++
        (back.chars ++ gap'.chars) ++ ending) := by
    rw [← hfront]
    conv_lhs => rw [hvalue]
    simp
  rw [htext]
  exact .declaration front gap ⟨_, hblank⟩ hproperty hmark hending

/-- A statement is spelled by what it says, with its semicolon or up to its last visible
character. -/
theorem Content.spells_of_ofStatement? {text : List Char} {content : Content}
    (hvisible : ∃ c cs, text = c :: cs ∧ isBlank c = false)
    (h : ofStatement? text = some content) :
    content.Spells (text ++ [';']) ∧ content.Spells (trimEnd text) := by
  rcases ofStatement?_cases text with
    ⟨hnone, -⟩ | ⟨rest, rfl, hsome⟩ | ⟨before, after, rfl, hcolon, hsome⟩
  · simp [hnone] at h
  · obtain rfl := Option.some.inj (hsome.symm.trans h)
    rcases exists_eq_keyword_append rest with ⟨gap, gap', hrest⟩
    rcases exists_trimEnd_keyword_eq rest with ⟨front, htrim⟩
    have htext : '@' :: rest ++ [';'] = '@' :: (rest.takeWhile isKeywordChar ++ gap.chars ++
        trim (rest.dropWhile isKeywordChar) ++ (gap'.chars ++ [';'])) := by
      conv_lhs => rw [hrest]
      simp
    rw [htext, htrim]
    refine ⟨.atRule _ _ gap (Or.inr ⟨gap', Or.inl rfl⟩), ?_⟩
    simpa using Spells.atRule (rest.takeWhile isKeywordChar) (trim (rest.dropWhile isKeywordChar))
      front (Or.inl rfl)
  · obtain rfl := Option.some.inj (hsome.symm.trans h)
    have hbefore := visible_before hvisible
    rcases exists_eq_trim after with ⟨gap, gap', hafter, hgap, hgap'⟩
    rcases exists_trimEnd_eq after with ⟨front, htrim⟩
    constructor
    · have hspells := spells_declaration after ⟨gap, hgap⟩ ⟨gap', hgap'⟩ hbefore hcolon
        (Or.inr rfl)
      simpa [← hafter] using hspells
    · have hspells := spells_declaration after front ⟨[], by simp⟩ hbefore hcolon
        (Or.inl rfl)
      rw [trimEnd_append_cons before (by decide), htrim]
      simpa using hspells

/-! ## The tokens of a node -/

/-- Tokens from a place on that a node is read from: a comment, a statement with its semicolon, a
statement to the end of its block, or a block with its braces. -/
inductive ReadFrom (p : Point) : List Token → Node → Prop where
  | comment (content : List Char) : ReadFrom p [.comment content true] (commentNode p content)
  | statement {item : List Token} {node : Node} (hitem : IsItem item 0)
      (hnode : statementNode? p (textOf item) (some (p.advance (textOf item))) = some node) :
      ReadFrom p (item ++ [.char ';']) node
  | last {item : List Token} {parens : Nat} {node : Node} (hitem : IsItem item parens)
      (hnode : statementNode? p (textOf item) none = some node) : ReadFrom p item node
  | block {header : List Token} (inner : List Token) (children : List Node)
      (hheader : header = [] ∨ IsItem header 0) :
      ReadFrom p (header ++ .char '{' :: (inner ++ [.char '}']))
        (blockNode p (textOf header) (((p.advance (textOf header)).next '{').advance (textOf inner))
          children)

/-- The tokens that a node is read from stand among others, which start at a place. -/
def StandsIn (p : Point) (ts : List Token) (node : Node) : Prop :=
  ∃ before part after, ts = before ++ part ++ after ∧
    ReadFrom (p.advance (textOf before)) part node

/-- Tokens that a node is read from stand in front of others. -/
theorem ReadFrom.standsIn {p : Point} {part : List Token} {node : Node}
    (h : ReadFrom p part node) (after : List Token) : StandsIn p (part ++ after) node :=
  ⟨[], part, after, rfl, h⟩

/-- More tokens may stand around. -/
theorem StandsIn.between {p q : Point} {ts : List Token} {node : Node} (h : StandsIn q ts node)
    (front back : List Token) (hq : q = p.advance (textOf front)) :
    StandsIn p (front ++ ts ++ back) node := by
  rcases h with ⟨before, part, after, rfl, hpart⟩
  refine ⟨front ++ before, part, after ++ back, by simp, ?_⟩
  simpa [hq, Point.advance_append] using hpart

/-- The nodes of a sheet, and all below them, are read from tokens of it. -/
theorem Laid.standsIn {nested : Bool} {p : Point} {ts : List Token} {nodes : List Node}
    (h : Laid nested p ts nodes) : ∀ node ∈ Node.preorderAll nodes, StandsIn p ts node := by
  induction h with
  | nil nested p => simp [Node.preorderAll]
  | @skip nested p c ts nodes hc hts ih =>
      intro node hnode
      have hstands := (ih node hnode).between [.char c] [] (p := p) (by simp [Token.text])
      simpa using hstands
  | @comment nested p content ts nodes hts ih =>
      intro node hnode
      rw [Node.preorderAll, List.mem_append, commentNode, Node.preorder, Node.preorderAll,
        List.mem_singleton] at hnode
      rcases hnode with rfl | hnode
      · exact (ReadFrom.comment content).standsIn ts
      · have hstands := (ih node hnode).between [.comment content true] [] (p := p)
          (by simp [Token.text])
        simpa using hstands
  | @statement nested p semicolon item ts nodes hitem hsemicolon hts ih =>
      intro node hnode
      subst hsemicolon
      rw [Node.preorderAll_append, List.mem_append] at hnode
      rcases hnode with hnode | hnode
      · have hfound := statementNode?_eq_some_of_mem hnode
        simpa using (ReadFrom.statement hitem hfound).standsIn ts
      · have hstands := (ih node hnode).between (item ++ [.char ';']) [] (p := p)
          (by simp [Point.advance_append, Token.text])
        simpa using hstands
  | @last nested p item parens hitem hparens =>
      intro node hnode
      have hfound := statementNode?_eq_some_of_mem hnode
      simpa using (ReadFrom.last hitem hfound).standsIn []
  | @block nested p brace closing header inner ts children nodes hheader hbrace hinner hclosing hts
      ihinner ih =>
      intro node hnode
      subst hbrace hclosing
      rw [Node.preorderAll, List.mem_append, blockNode, Node.preorder, List.mem_cons] at hnode
      rcases hnode with (rfl | hnode) | hnode
      · simpa [blockNode] using (ReadFrom.block inner children hheader).standsIn ts
      · have hstands := (ihinner node hnode).between (header ++ [.char '{']) (.char '}' :: ts)
          (p := p) (by simp [Point.advance_append, Token.text])
        simpa using hstands
      · have hstands := (ih node hnode).between (header ++ .char '{' :: (inner ++ [.char '}'])) []
          (p := p) (by simp [Point.advance_append, Token.text])
        simpa using hstands

/-! ## The text of a node -/

variable {source : Source}

/-- The span over a text that starts visibly reads the text without the blanks at its end. -/
theorem Span.exists_over?_reads {before text after : List Char}
    (hsplit : source.chars = before ++ text ++ after)
    (hvisible : ∃ c cs, text = c :: cs ∧ isBlank c = false) :
    ∃ span rest, Span.over? (source.pointAt (byteSize before)) text = some span ∧
      span.Reads source before (trimEnd text) rest := by
  rcases hvisible with ⟨c, cs, rfl, hc⟩
  rcases Span.exists_over? hsplit hc with ⟨span, part, blanks, hover, htext, hblanks, hreads⟩
  have hpart : trimEnd (c :: cs) = part := by
    rcases hreads.last_eq with ⟨init, d, rfl, hd, -⟩
    rw [htext, trimEnd_append_blank _ hblanks, trimEnd_concat init hd]
  exact ⟨span, blanks ++ after, hover, hpart ▸ hreads⟩

/-- The span over a comment reads all of it. -/
theorem Span.exists_over?_comment {before content after : List Char} (h : IsComment content)
    (hsplit : source.chars = before ++ content ++ after) :
    ∃ span rest, Span.over? (source.pointAt (byteSize before)) content = some span ∧
      span.Reads source before content rest := by
  rcases h with ⟨body, rfl, -⟩
  have hend : trimEnd ('/' :: '*' :: (body ++ ['*', '/'])) =
      '/' :: '*' :: (body ++ ['*', '/']) := by
    have hslash : isBlank '/' = false := by decide
    simpa using trimEnd_concat ('/' :: '*' :: (body ++ ['*'])) hslash
  rcases Span.exists_over?_reads hsplit ⟨'/', _, rfl, by decide⟩ with ⟨span, rest, hover, hreads⟩
  exact ⟨span, rest, hover, hend ▸ hreads⟩

/-- The span of an item with its semicolon reads both. -/
theorem IsItem.reads_semicolon {item : List Token} {parens : Nat} (h : IsItem item parens)
    (hdelimited : ∀ t ∈ item, t.Delimited) {before after : List Char}
    (hsplit : source.chars = before ++ (textOf item ++ [';']) ++ after) :
    Span.Reads source
      ⟨source.pointAt (byteSize before), (source.pointAt (byteSize before)).advance (textOf item)⟩
      before (textOf item ++ [';']) after := by
  have hmark : source.chars = before ++ textOf item ++ (';' :: after) := by simpa using hsplit
  rw [Source.advance_pointAt hmark]
  exact reads_of_ends hsplit (by decide) (Or.inr (h.visible hdelimited))

/-- The span of a block reads it from its header to its closing brace. -/
theorem reads_block {header : List Token} (h : header = [] ∨ IsItem header 0)
    (hdelimited : ∀ t ∈ header, t.Delimited) {before inner after : List Char}
    (hsplit : source.chars = before ++ ((textOf header ++ '{' :: inner) ++ ['}']) ++ after) :
    Span.Reads source
      ⟨source.pointAt (byteSize before),
        (((source.pointAt (byteSize before)).advance (textOf header)).next '{').advance inner⟩
      before ((textOf header ++ '{' :: inner) ++ ['}']) after := by
  have hbody : source.chars = before ++ (textOf header ++ '{' :: inner) ++ '}' :: after := by
    simpa using hsplit
  have hreads := reads_of_ends hsplit (by decide)
    (Or.inr (visible_block (visible_header h hdelimited) inner))
  rwa [← Source.advance_pointAt hbody, Point.advance_append, Point.advance_cons] at hreads

/-- The text that a node is read from is the text of its span, and is spelled by its fields. -/
theorem ReadFrom.spells {p : Point} {ts : List Token} {node : Node} (h : ReadFrom p ts node)
    (hts : ∀ t ∈ ts, t.Delimited) {before after : List Char}
    (hsplit : source.chars = before ++ textOf ts ++ after)
    (hp : p = source.pointAt (byteSize before)) :
    ∃ span part rest, node.span = some span ∧ span.Reads source before part rest ∧
      node.content.Spells part := by
  subst hp
  cases h with
  | comment content =>
      have hcontent : IsComment content := hts _ List.mem_cons_self rfl
      rcases Span.exists_over?_comment hcontent (by simpa [Token.text] using hsplit) with
        ⟨span, rest, hover, hreads⟩
      rcases hcontent with ⟨body, rfl, -⟩
      exact ⟨span, _, rest, hover, hreads, Content.spells_comment body⟩
  | @statement item node hitem hnode =>
      simp only [List.forall_mem_append] at hts
      rcases Option.map_eq_some_iff.mp hnode with ⟨content, hcontent, rfl⟩
      exact ⟨_, textOf item ++ [';'], after, rfl,
        hitem.reads_semicolon hts.1 (by simpa [Token.text] using hsplit),
        (Content.spells_of_ofStatement? (hitem.visible hts.1) hcontent).1⟩
  | @last item parens node hitem hnode =>
      rcases Option.map_eq_some_iff.mp hnode with ⟨content, hcontent, rfl⟩
      have hvisible := hitem.visible hts
      rcases Span.exists_over?_reads hsplit hvisible with ⟨span, rest, hover, hreads⟩
      exact ⟨span, trimEnd (textOf ts), rest, hover, hreads,
        (Content.spells_of_ofStatement? hvisible hcontent).2⟩
  | @block header inner children hheader =>
      simp only [List.forall_mem_append] at hts
      refine ⟨_, _, after, rfl, reads_block hheader hts.1 (by simpa [Token.text] using hsplit), ?_⟩
      simpa [blockNode, Node.content] using
        Content.spells_ofHeader (visible_header hheader hts.1) (textOf inner)

/-- Every node below the root of a sheet has a span, and the text of the span is spelled by the
fields of the node. -/
theorem parse_spells_text {text : List Char} {root : Node} (h : parse text = .ok root) :
    ∀ node ∈ Node.preorderAll root.children, ∃ span part, node.span = some span ∧
      Source.sliceOffsets ⟨text⟩ (span.extent ⟨text⟩) = .ok part ∧ node.content.Spells part := by
  rcases exists_parseForest_of_parse h with ⟨forest, hforest, rfl⟩
  intro node hnode
  rcases (laid_of_parseForest hforest).standsIn node hnode with
    ⟨before, ts, after, htokens, hread⟩
  have hdelimited := (Token.proper_lex .spanning text).delimited
  rw [htokens, List.forall_mem_append, List.forall_mem_append] at hdelimited
  have htext : text = textOf before ++ textOf ts ++ textOf after := by
    rw [← List.flatMap_append, ← List.flatMap_append, ← htokens, Token.flatMap_text_lex]
  have hplace : Point.origin.advance (textOf before) =
      Source.pointAt ⟨text⟩ (byteSize (textOf before)) :=
    Source.advance_origin (by simpa using htext)
  rcases hread.spells hdelimited.1.2 htext hplace with ⟨span, part, rest, hspan, hreads, hspells⟩
  refine ⟨span, part, hspan, ?_, hspells⟩
  rw [hreads.extent_eq, Source.sliceOffsets_byteSize hreads.split]

/-- A rule with a declaration that is marked as important in capital letters, behind blanks. -/
def markedDeclaration : List Char :=
  ['a', '{', 'b', ' ', ':', 'c', '!', ' ', 'I', 'M', 'P', 'O', 'R', 'T', 'A', 'N', 'T', ' ', ';',
    '}']

/-- The declaration in the rule is put together from its fields and the mark. -/
theorem parse_spells_text_markedDeclaration :
    ∃ root node part, parse markedDeclaration = .ok root ∧
      node ∈ Node.preorderAll root.children ∧ node.content = .declaration ['b'] ['c'] true ∧
      part = (markedDeclaration.drop 2).dropLast ∧ node.content.Spells part := by
  have hparse : ∃ root, parse markedDeclaration = .ok root := ⟨_, rfl⟩
  rcases hparse with ⟨root, hparse⟩
  have hnode : ∃ node ∈ Node.preorderAll root.children,
      node.content = .declaration ['b'] ['c'] true ∧ ∀ span part, node.span = some span →
        Source.sliceOffsets ⟨markedDeclaration⟩ (span.extent ⟨markedDeclaration⟩) = .ok part →
        part = (markedDeclaration.drop 2).dropLast := by
    obtain rfl := Except.ok.inj hparse
    refine ⟨_, List.mem_cons_of_mem _ List.mem_cons_self, rfl, ?_⟩
    intro span part hspan hpart
    obtain rfl := Option.some.inj hspan
    exact (Except.ok.inj hpart).symm
  rcases hnode with ⟨node, hmem, hcontent, hslice⟩
  rcases parse_spells_text hparse node hmem with ⟨span, part, hspan, hpart, hspells⟩
  exact ⟨root, node, part, hparse, hmem, hcontent, hslice span part hspan hpart, hspells⟩

end Sheet
end StyleAtlas
