import StyleAtlas.Proofs.Hint.SourceOrder
import StyleAtlas.Proofs.Sheet.Layout
import StyleAtlas.Proofs.Text.Lexing

/-!
# Searching a block segment by segment

A search runs over all tokens of its window at once.  Here the tokens of a rule are taken in
segments instead: a header, in which no property is found; segments without a colon, in which none
is found either; and the name of a declaration with its colon, which is found.  A scanner is then
described by what lies ahead of it.

Main results:

- Definition `Token.isBrace`: the tokens that open and close blocks.
- Theorem `Hint.blockEnd_rule`: where a rule ends.
- Theorem `Hint.exists_occurrencesFrom_append`: occurrences in a segment and behind it.
- Definition `Hint.Quiet`: segments in which no property is found.
- Definition `Scanner.Ahead`, Theorem `Scanner.Ahead.find`: what a scanner finds next.
-/

namespace StyleAtlas

open Text
open Token (textOf)

/-- Whether a token opens or closes a block. -/
def Token.isBrace : Token → Bool
  | .char c => c == '{' || c == '}'
  | _ => false

/-- Two characters are braces. -/
theorem Token.isBrace_char {c : Char} : (Token.char c).isBrace = false ↔ c ≠ '{' ∧ c ≠ '}' := by
  simp [isBrace]

namespace Hint

open Sheet (Inside parensBehind isTerminator)

/-! ## Where a rule ends -/

/-- A character that is no brace, and no semicolon outside of everything, at most counts as a
parenthesis. -/
theorem blockEndFrom_char {size braces parens offset : Nat} {c : Char} {ts : List Token}
    (hbrace : Token.isBrace (.char c) = false)
    (hsemicolon : c = ';' → ¬(braces = 0 ∧ parens = 0)) :
    blockEndFrom size braces parens (Placed.ofTokens offset (.char c :: ts)) =
      blockEndFrom size braces (parensBehind parens c)
        (Placed.ofTokens (offset + c.utf8Size) ts) := by
  rw [Token.isBrace_char] at hbrace
  simp only [Placed.ofTokens, Token.text, byteSize_cons, byteSize_nil, Nat.add_zero]
  rw [blockEndFrom]
  split
  · rename_i hopen
    obtain rfl : c = '(' := Token.char.inj hopen
    rfl
  · rename_i hclose
    obtain rfl : c = ')' := Token.char.inj hclose
    rfl
  · rename_i hend
    obtain rfl : c = ';' := Token.char.inj hend
    rw [if_neg (hsemicolon rfl)]
    rfl
  · rename_i hleft
    exact absurd (Token.char.inj hleft) hbrace.1
  · rename_i hright
    exact absurd (Token.char.inj hright) hbrace.2
  · rename_i hopen hclose _ _ _
    rw [parensBehind, if_neg fun hc => hopen (by rw [hc]), if_neg fun hc => hclose (by rw [hc])]

/-- A comment or string leaves a block as open as it was. -/
theorem blockEndFrom_other {size braces parens offset : Nat} {t : Token} {ts : List Token}
    (ht : ∀ c, t ≠ .char c) :
    blockEndFrom size braces parens (Placed.ofTokens offset (t :: ts)) =
      blockEndFrom size braces parens (Placed.ofTokens (offset + byteSize t.text) ts) := by
  cases t with
  | char c => exact absurd rfl (ht c)
  | quoted content closed => rfl
  | comment content closed => rfl

/-- A header is passed over, with the parentheses in it. -/
theorem blockEndFrom_header {size parens stop offset : Nat} {header : List Token}
    (h : Inside parens header stop) (hbrace : ∀ t ∈ header, t.isBrace = false)
    (rest : List Token) :
    blockEndFrom size 0 parens (Placed.ofTokens offset (header ++ rest)) =
      blockEndFrom size 0 stop (Placed.ofTokens (offset + byteSize (textOf header)) rest) := by
  induction h generalizing offset with
  | nil parens => simp
  | @char parens stop c ts hc _ ih =>
      have hsemicolon : c = ';' → ¬(0 = 0 ∧ parens = 0) := by
        rintro rfl ⟨-, hparens⟩
        exact absurd (hc hparens) (by decide)
      rw [List.cons_append, blockEndFrom_char (hbrace _ (by simp)) hsemicolon,
        ih fun t ht => hbrace t (by simp [ht])]
      simp [Token.text, Nat.add_assoc]
  | quoted content _ ih =>
      rw [List.cons_append, blockEndFrom_other (by simp), ih fun t ht => hbrace t (by simp [ht])]
      simp [Token.text, Nat.add_assoc]
  | comment content _ ih =>
      rw [List.cons_append, blockEndFrom_other (by simp), ih fun t ht => hbrace t (by simp [ht])]
      simp [Token.text, Nat.add_assoc]

/-- In a block without blocks inside, the first closing brace ends it. -/
theorem blockEndFrom_inner {size parens offset : Nat} {inner : List Token}
    (hbrace : ∀ t ∈ inner, t.isBrace = false) (rest : List Token) :
    blockEndFrom size 1 parens (Placed.ofTokens offset (inner ++ .char '}' :: rest)) =
      offset + byteSize (textOf inner) + 1 := by
  induction inner generalizing parens offset with
  | nil => simp [Placed.ofTokens, blockEndFrom]
  | cons t inner ih =>
      have hrest : ∀ u ∈ inner, u.isBrace = false := fun u hu => hbrace u (by simp [hu])
      by_cases ht : ∃ c, t = .char c
      · rcases ht with ⟨c, rfl⟩
        rw [List.cons_append, blockEndFrom_char (hbrace _ (by simp)) (by simp), ih hrest]
        simp [Token.text, Nat.add_assoc]
      · rw [List.cons_append, blockEndFrom_other (not_exists.mp ht), ih hrest]
        simp [Nat.add_assoc]

/-- A rule ends past its closing brace. -/
theorem blockEnd_rule {source : Source} {start : Nat} {header inner after : List Token}
    (htokens : source.tokensFrom .singleLine start =
      Placed.ofTokens start (header ++ .char '{' :: (inner ++ .char '}' :: after)))
    (hheader : Inside 0 header 0) (hbrace : ∀ t ∈ header ++ inner, t.isBrace = false) :
    blockEnd source start =
      start + byteSize (textOf header) + 1 + byteSize (textOf inner) + 1 := by
  have hopen : '{'.utf8Size = 1 := by decide
  rw [blockEnd, htokens,
    blockEndFrom_header hheader fun t ht => hbrace t (List.mem_append_left _ ht)]
  simp only [Placed.ofTokens, blockEndFrom, Token.text, byteSize_cons, byteSize_nil, hopen]
  exact blockEndFrom_inner (fun t ht => hbrace t (List.mem_append_right _ ht)) after

/-! ## Occurrences in a segment -/

variable {signature : Signature} {ceiling : Nat}

/-- Nothing occurs from the ceiling of a window on. -/
theorem occurrencesFrom_of_ceiling_le {inName : Bool} {depth offset : Nat}
    (h : ceiling ≤ offset) (ts : List Token) :
    occurrencesFrom signature ceiling inName depth (Placed.ofTokens offset ts) = [] := by
  cases ts with
  | nil => rfl
  | cons t ts => simp [Placed.ofTokens, occurrencesFrom, h]

/-- A character outside names changes the depth at most. -/
theorem occurrencesFrom_char {c : Char} (hc : isNameChar c = false) (inName : Bool)
    (depth offset : Nat) (ts : List Token) :
    occurrencesFrom signature ceiling inName depth (Placed.ofTokens offset (.char c :: ts)) =
      occurrencesFrom signature ceiling false (depthAfter depth c)
        (Placed.ofTokens (offset + c.utf8Size) ts) := by
  by_cases hceiling : ceiling ≤ offset
  · rw [occurrencesFrom_of_ceiling_le hceiling, occurrencesFrom_of_ceiling_le (by omega)]
  · simp [Placed.ofTokens, occurrencesFrom, hceiling, hc, Token.text]

/-- A string or comment is skipped. -/
theorem occurrencesFrom_other {t : Token} (ht : ∀ c, t ≠ .char c) (inName : Bool)
    (depth offset : Nat) (ts : List Token) :
    occurrencesFrom signature ceiling inName depth (Placed.ofTokens offset (t :: ts)) =
      occurrencesFrom signature ceiling false depth
        (Placed.ofTokens (offset + byteSize t.text) ts) := by
  by_cases hceiling : ceiling ≤ offset
  · rw [occurrencesFrom_of_ceiling_le hceiling, occurrencesFrom_of_ceiling_le (by omega)]
  · cases t with
    | char c => exact absurd rfl (ht c)
    | quoted content closed => simp [Placed.ofTokens, occurrencesFrom, hceiling]
    | comment content closed => simp [Placed.ofTokens, occurrencesFrom, hceiling]

/-- The end of a signature that stands at the start of some tokens. -/
def matchAt? (signature : Signature) (depth offset : Nat) (ts : List Token) : Option Nat :=
  let name := spanName (Placed.ofTokens offset ts)
  matchEnd? signature depth name.1 name.2

/-- A character before the ceiling, at which a signature may stand. -/
theorem occurrencesFrom_cons_char {offset : Nat} (h : offset < ceiling) (c : Char) (inName : Bool)
    (depth : Nat) (ts : List Token) :
    occurrencesFrom signature ceiling inName depth (Placed.ofTokens offset (.char c :: ts)) =
      (if isNameChar c && !inName then matchAt? signature depth offset (.char c :: ts)
        else none).toList.map (Occurrence.mk offset) ++
      occurrencesFrom signature ceiling (isNameChar c) (depthAfter depth c)
        (Placed.ofTokens (offset + c.utf8Size) ts) := by
  have hsize : byteSize (Token.char c).text = c.utf8Size := by simp [Token.text]
  rw [Placed.ofTokens, occurrencesFrom, if_neg (by simpa using h), hsize]
  dsimp only
  split
  · rw [matchAt?, Placed.ofTokens, hsize]
    split <;> simp_all
  · rfl

/-- An occurrence whose name starts in a segment that stands at an offset, in front of others. -/
structure FoundIn (signature : Signature) (depth offset : Nat) (segment rest : List Token)
    (m : Occurrence) : Prop where
  start_lt : m.start < offset + byteSize (textOf segment)
  matched : ∃ back, back <:+ segment ∧
    matchAt? signature depth m.start (back ++ rest) = some m.stop

/-- What is found in a segment is found behind one more token. -/
theorem FoundIn.cons {depth offset : Nat} {t : Token} {segment rest : List Token} {m : Occurrence}
    (h : FoundIn signature depth (offset + byteSize t.text) segment rest m) :
    FoundIn signature depth offset (t :: segment) rest m := by
  rcases h.matched with ⟨back, hback, hmatch⟩
  refine ⟨?_, back, hback.trans (List.suffix_cons _ _), hmatch⟩
  simpa [Nat.add_assoc] using h.start_lt

/-- The occurrences in a segment without braces, and behind a character that ends it and all names
in it. -/
theorem exists_occurrencesFrom_append (signature : Signature) (ceiling : Nat)
    {segment : List Token} (hbrace : ∀ t ∈ segment, t.isBrace = false) {c : Char}
    (hc : isNameChar c = false) (inName : Bool) (depth offset : Nat) (ts : List Token) :
    ∃ found, occurrencesFrom signature ceiling inName depth
          (Placed.ofTokens offset (segment ++ .char c :: ts)) =
        found ++ occurrencesFrom signature ceiling false (depthAfter depth c)
          (Placed.ofTokens (offset + byteSize (textOf segment) + c.utf8Size) ts) ∧
      ∀ m ∈ found, FoundIn signature depth offset segment (.char c :: ts) m := by
  induction segment generalizing inName offset with
  | nil => exact ⟨[], by simpa using occurrencesFrom_char hc inName depth offset ts, by simp⟩
  | cons t segment ih =>
      have hrest : ∀ u ∈ segment, u.isBrace = false := fun u hu => hbrace u (by simp [hu])
      by_cases hceiling : ceiling ≤ offset
      · refine ⟨[], ?_, by simp⟩
        rw [occurrencesFrom_of_ceiling_le hceiling, occurrencesFrom_of_ceiling_le (by omega)]
        rfl
      by_cases ht : ∃ a, t = .char a
      · rcases ht with ⟨a, rfl⟩
        have hdepth : depthAfter depth a = depth := by
          have hbrace' := Token.isBrace_char.mp (hbrace (.char a) (by simp))
          simp [depthAfter, hbrace']
        have hsize : byteSize (Token.char a).text = a.utf8Size := by simp [Token.text]
        rcases ih hrest (isNameChar a) (offset + a.utf8Size) with ⟨found, heq, hfound⟩
        rw [List.cons_append, occurrencesFrom_cons_char (by omega), hdepth, heq]
        generalize hhere : List.map (Occurrence.mk offset) _ = here
        refine ⟨here ++ found, by simp [Token.text, Nat.add_assoc], ?_⟩
        intro m hm
        rcases List.mem_append.mp hm with hm | hm
        · rw [← hhere, List.mem_map] at hm
          rcases hm with ⟨stop, hstop, rfl⟩
          have hpos := a.utf8Size_pos
          refine ⟨by simp [Token.text]; omega, _, List.suffix_refl _, ?_⟩
          split at hstop
          · simpa using hstop
          · simp at hstop
        · rw [← hsize] at hfound
          exact (hfound m hm).cons
      · rcases ih hrest false (offset + byteSize t.text) with ⟨found, heq, hfound⟩
        refine ⟨found, ?_, fun m hm => (hfound m hm).cons⟩
        rw [List.cons_append, occurrencesFrom_other (not_exists.mp ht), heq]
        simp [Nat.add_assoc]

/-! ## Segments without a property -/

/-- There is no colon behind tokens without one, when a character follows them that is neither. -/
theorem past?_eq_none {segment : List Token} (hcolon : .char ':' ∉ segment) {c : Char}
    (hc : c ≠ ':') (htrivia : isPlainBlank c = false) (offset : Nat) (ts : List Token) :
    past? ':' ((Placed.ofTokens offset (segment ++ .char c :: ts)).dropWhile fun t =>
      isTrivia t.token) = none := by
  induction segment generalizing offset with
  | nil => simp [Placed.ofTokens, isTrivia, htrivia, past?, hc]
  | cons t segment ih =>
      rw [List.mem_cons, not_or] at hcolon
      rw [List.cons_append, Placed.ofTokens]
      by_cases ht : isTrivia t = true
      · rw [List.dropWhile_cons_of_pos (by simpa using ht)]
        exact ih hcolon.2 _
      · rw [List.dropWhile_cons_of_neg (by simpa using ht)]
        simp [past?, Ne.symm hcolon.1]

/-- A name in a segment ends in it, when a character outside names follows. -/
theorem exists_spanName_append (segment : List Token) {c : Char} (hc : isNameChar c = false)
    (offset : Nat) (ts : List Token) :
    ∃ rest place, rest <:+ segment ∧
      (spanName (Placed.ofTokens offset (segment ++ .char c :: ts))).2 =
        Placed.ofTokens place (rest ++ .char c :: ts) := by
  induction segment generalizing offset with
  | nil =>
      refine ⟨[], offset, List.suffix_refl _, ?_⟩
      simp [Placed.ofTokens, spanName, nameChar?, hc]
  | cons t segment ih =>
      cases hname : nameChar? t with
      | none =>
          refine ⟨t :: segment, offset, List.suffix_refl _, ?_⟩
          simp [Placed.ofTokens, spanName, hname]
      | some a =>
          rcases ih (offset + byteSize t.text) with ⟨rest, place, hrest, hspan⟩
          refine ⟨rest, place, hrest.trans (List.suffix_cons _ _), ?_⟩
          simpa [Placed.ofTokens, spanName, hname] using hspan

/-- No property stands in tokens without a colon. -/
theorem matchAt?_eq_none {segment : List Token} (hcolon : .char ':' ∉ segment) {c : Char}
    (hname : isNameChar c = false) (hc : c ≠ ':') (htrivia : isPlainBlank c = false)
    (name : List Char) (depth offset : Nat) (ts : List Token) :
    matchAt? (.property name) depth offset (segment ++ .char c :: ts) = none := by
  rcases exists_spanName_append segment hname offset ts with ⟨rest, place, hrest, hspan⟩
  have hnone := past?_eq_none (fun hmem => hcolon (hrest.subset hmem)) hc htrivia place ts
  rw [matchAt?, hspan, matchEnd?]
  simp [hnone]

/-- Tokens directly inside a block in which no property is found, whatever follows them. -/
def Quiet (segment : List Token) : Prop :=
  ∀ name ceiling offset ts,
    occurrencesFrom (.property name) ceiling false 1 (Placed.ofTokens offset (segment ++ ts)) =
      occurrencesFrom (.property name) ceiling false 1
        (Placed.ofTokens (offset + byteSize (textOf segment)) ts)

/-- A character that neither belongs to names nor is a brace is quiet. -/
theorem Quiet.char {c : Char} (hname : isNameChar c = false)
    (hbrace : Token.isBrace (.char c) = false) : Quiet [.char c] := by
  intro name ceiling offset ts
  rw [Token.isBrace_char] at hbrace
  have hdepth : depthAfter 1 c = 1 := by simp [depthAfter, hbrace]
  rw [List.singleton_append, occurrencesFrom_char hname, hdepth]
  simp [Token.text]

/-- A comment is quiet. -/
theorem Quiet.comment (content : List Char) (closed : Bool) : Quiet [.comment content closed] := by
  intro name ceiling offset ts
  rw [List.singleton_append, occurrencesFrom_other (by simp)]
  simp

/-- Tokens without a colon up to a semicolon. -/
theorem Quiet.statement {segment : List Token} (hcolon : .char ':' ∉ segment)
    (hbrace : ∀ t ∈ segment, t.isBrace = false) : Quiet (segment ++ [.char ';']) := by
  intro name ceiling offset ts
  have hname : isNameChar ';' = false := by decide
  rcases exists_occurrencesFrom_append (.property name) ceiling hbrace hname false 1 offset ts with
    ⟨found, heq, hfound⟩
  have hnone : found = [] := by
    rw [List.eq_nil_iff_forall_not_mem]
    intro m hm
    rcases (hfound m hm).matched with ⟨back, hback, hmatch⟩
    rw [matchAt?_eq_none (fun hmem => hcolon (hback.subset hmem)) hname (by decide) (by decide)]
      at hmatch
    simp at hmatch
  rw [List.append_assoc, List.singleton_append, heq, hnone]
  simp [Token.text, Nat.add_assoc, depthAfter]

/-- In front of a block no property is found. -/
theorem occurrencesFrom_header {header : List Token} (hbrace : ∀ t ∈ header, t.isBrace = false)
    (name : List Char) (ceiling : Nat) (inName : Bool) (offset : Nat) (ts : List Token) :
    occurrencesFrom (.property name) ceiling inName 0
        (Placed.ofTokens offset (header ++ .char '{' :: ts)) =
      occurrencesFrom (.property name) ceiling false 1
        (Placed.ofTokens (offset + byteSize (textOf header) + 1) ts) := by
  have hname : isNameChar '{' = false := by decide
  rcases exists_occurrencesFrom_append (.property name) ceiling hbrace hname inName 0 offset ts with
    ⟨found, heq, hfound⟩
  have hnone : found = [] := by
    rw [List.eq_nil_iff_forall_not_mem]
    intro m hm
    rcases (hfound m hm).matched with ⟨back, -, hmatch⟩
    simp [matchAt?, matchEnd?] at hmatch
  rw [heq, hnone]
  rfl

/-! ## The head of a declaration -/

/-- The name at the front of some tokens is all of its characters. -/
theorem spanName_chars {name : List Char} (hname : ∀ c ∈ name, isNameChar c = true)
    {ts : List Token} (hts : ∀ t ∈ ts.head?, nameChar? t = none) (offset : Nat) :
    spanName (Placed.ofTokens offset (name.map Token.char ++ ts)) =
      (name, Placed.ofTokens (offset + byteSize name) ts) := by
  induction name generalizing offset with
  | nil =>
      cases ts with
      | nil => rfl
      | cons t ts => simp [Placed.ofTokens, spanName, hts t (by simp)]
  | cons c name ih =>
      have hc : nameChar? (.char c) = some c := by simp [nameChar?, hname c (by simp)]
      have hrest := ih (fun d hd => hname d (by simp [hd])) (offset + c.utf8Size)
      simp [Placed.ofTokens, spanName, hc, Token.text, hrest, Nat.add_assoc]

/-- Blanks in front of a colon are passed over. -/
theorem past?_blanks {gap : List Char} (hgap : ∀ c ∈ gap, isPlainBlank c = true) (offset : Nat)
    (ts : List Token) :
    past? ':' ((Placed.ofTokens offset (gap.map Token.char ++ .char ':' :: ts)).dropWhile fun t =>
      isTrivia t.token) = some (offset + byteSize gap + 1) := by
  induction gap generalizing offset with
  | nil =>
      have hcolon : isTrivia (.char ':') = false := by decide
      simp [Placed.ofTokens, hcolon, past?]
  | cons c gap ih =>
      have hc : isTrivia (.char c) = true := hgap c (by simp)
      have hrest := ih (fun d hd => hgap d (by simp [hd])) (offset + c.utf8Size)
      simp [Placed.ofTokens, hc, Token.text, hrest, Nat.add_assoc]

/-- The head of a declaration: its name, blanks and the colon. -/
def declarationHead (name gap : List Char) : List Token :=
  (name ++ gap).map Token.char ++ [.char ':']

/-- The head of a declaration is as long as its name, the blanks and the colon. -/
theorem byteSize_declarationHead (name gap : List Char) :
    byteSize (textOf (declarationHead name gap)) = byteSize name + byteSize gap + 1 := by
  have hcolon : ':'.utf8Size = 1 := by decide
  simp [declarationHead, List.flatMap_map, Token.text, hcolon, Nat.add_assoc]

/-- A name character opens no comment and no string. -/
theorem isInert_of_isNameChar {c : Char} (h : isNameChar c = true) : Token.isInert c = true :=
  Token.isInert_of (P := fun c => isNameChar c = true) (by decide) h

/-- A plain blank is no name character. -/
theorem isNameChar_of_isPlainBlank {c : Char} (h : isPlainBlank c = true) :
    isNameChar c = false := by
  simp only [isPlainBlank, Bool.or_eq_true, beq_iff_eq] at h
  have hc : c = ' ' ∨ c = '\t' ∨ c = '\n' ∨ c = '\x0c' ∨ c = '\r' := by
    simp only [← Char.toNat_inj]
    simpa [or_assoc] using h
  rcases hc with rfl | rfl | rfl | rfl | rfl <;> decide

/-- A property stands at the start of its declaration. -/
theorem matchAt?_declarationHead {name gap : List Char} (hname : ∀ c ∈ name, isNameChar c = true)
    (hgap : ∀ c ∈ gap, isPlainBlank c = true) (offset : Nat) (ts : List Token) :
    matchAt? (.property name) 1 offset (declarationHead name gap ++ ts) =
      some (offset + byteSize (textOf (declarationHead name gap))) := by
  have hends : ∀ t ∈ (gap.map Token.char ++ .char ':' :: ts).head?, nameChar? t = none := by
    cases gap with
    | nil => simp [nameChar?, show isNameChar ':' = false by decide]
    | cons c gap => simp [nameChar?, isNameChar_of_isPlainBlank (hgap c (by simp))]
  have hself : namesProperty name name = true := by simp [namesProperty, equalsIgnoringCase]
  have hsplit : declarationHead name gap ++ ts =
      name.map Token.char ++ (gap.map Token.char ++ .char ':' :: ts) := by simp [declarationHead]
  rw [matchAt?, hsplit, spanName_chars hname hends, matchEnd?, byteSize_declarationHead]
  simp [hself, past?_blanks hgap, Nat.add_assoc]

/-- So it is the first that a search from there finds. -/
theorem head?_occurrencesFrom {name gap : List Char} (hne : name ≠ [])
    (hname : ∀ c ∈ name, isNameChar c = true) (hgap : ∀ c ∈ gap, isPlainBlank c = true)
    {offset ceiling : Nat} (hceiling : offset < ceiling) (ts : List Token) :
    (occurrencesFrom (.property name) ceiling false 1
        (Placed.ofTokens offset (declarationHead name gap ++ ts))).head? =
      some ⟨offset, offset + byteSize (textOf (declarationHead name gap))⟩ := by
  rcases List.exists_cons_of_ne_nil hne with ⟨c, rest, rfl⟩
  have hmatch := matchAt?_declarationHead hname hgap offset ts
  rw [declarationHead, List.cons_append, List.map_cons, List.cons_append, List.cons_append]
    at hmatch ⊢
  rw [occurrencesFrom_cons_char hceiling, hmatch]
  simp [hname c (by simp)]

/-- Occurrences among some tokens do not start before them. -/
theorem le_start_of_mem_occurrencesFrom {signature : Signature} {ceiling : Nat} {inName : Bool}
    {depth offset : Nat} {ts : List Token} {m : Occurrence}
    (hm : m ∈ occurrencesFrom signature ceiling inName depth (Placed.ofTokens offset ts)) :
    offset ≤ m.start := by
  induction ts generalizing inName depth offset with
  | nil => simp [Placed.ofTokens, occurrencesFrom] at hm
  | cons t ts ih =>
      by_cases hceiling : ceiling ≤ offset
      · simp [occurrencesFrom_of_ceiling_le hceiling] at hm
      by_cases ht : ∃ c, t = .char c
      · rcases ht with ⟨c, rfl⟩
        rw [occurrencesFrom_cons_char (by omega), List.mem_append, List.mem_map] at hm
        rcases hm with ⟨stop, -, rfl⟩ | hm
        · exact Nat.le_refl _
        · exact Nat.le_trans (Nat.le_add_right _ _) (ih hm)
      · rw [occurrencesFrom_other (not_exists.mp ht)] at hm
        exact Nat.le_trans (Nat.le_add_right _ _) (ih hm)

/-- Behind the head of a declaration a search goes on as if it started there. -/
theorem filter_occurrencesFrom_declarationHead {name gap : List Char}
    (hbrace : ∀ t ∈ declarationHead name gap, t.isBrace = false) (other : List Char)
    (ceiling offset : Nat) (ts : List Token) :
    (occurrencesFrom (.property other) ceiling false 1
        (Placed.ofTokens offset (declarationHead name gap ++ ts))).filter
        (offset + byteSize (textOf (declarationHead name gap)) ≤ ·.start) =
      occurrencesFrom (.property other) ceiling false 1
        (Placed.ofTokens (offset + byteSize (textOf (declarationHead name gap))) ts) := by
  have hcolon : isNameChar ':' = false := by decide
  rw [declarationHead] at hbrace ⊢
  generalize (name ++ gap).map Token.char = segment at hbrace ⊢
  rcases exists_occurrencesFrom_append (.property other) ceiling
    (fun t ht => hbrace t (List.mem_append_left _ ht)) hcolon false 1 offset ts with
    ⟨found, heq, hfound⟩
  have hsize : byteSize (textOf (segment ++ [.char ':'])) =
      byteSize (textOf segment) + ':'.utf8Size := by simp [Token.text]
  rw [List.append_assoc, List.singleton_append, heq, hsize, List.filter_append, ← Nat.add_assoc]
  have hbefore :
      found.filter (offset + byteSize (textOf segment) + ':'.utf8Size ≤ ·.start) = [] := by
    rw [List.filter_eq_nil_iff]
    intro m hm
    have hlt := (hfound m hm).start_lt
    simp
    omega
  rw [hbefore, List.nil_append]
  apply List.filter_eq_self.mpr
  intro m hm
  simpa using le_start_of_mem_occurrencesFrom hm

end Hint

/-! ## What lies ahead of a scanner -/

namespace Scanner

/-- From the cursor on, a scanner finds the properties that stand among some tokens directly inside
a block. -/
structure Ahead (source : Source) (s : Scanner) (offset : Nat) (ts : List Token) : Prop where
  cursor_le : s.cursor ≤ offset
  ahead : ∀ name, (Hint.occurrences source (s.window source) (.property name)).filter
      (s.cursor ≤ ·.start) =
    Hint.occurrencesFrom (.property name) (s.window source).ceiling false 1
      (Placed.ofTokens offset ts)

variable {source : Source} {s : Scanner} {offset : Nat} {ts : List Token}

/-- A scanner that enters a rule has all of its block ahead. -/
theorem ahead_openBlock {start : Nat} {header : List Token}
    (htokens : source.tokensFrom .singleLine start =
      Placed.ofTokens start (header ++ .char '{' :: ts))
    (hbrace : ∀ t ∈ header, t.isBrace = false) :
    (init.openBlock source start).Ahead source (start + byteSize (textOf header) + 1) ts := by
  have hfloor : ((init.openBlock source start).window source).floor = start := rfl
  refine ⟨?_, fun name => ?_⟩
  · exact Nat.le_trans (Nat.le_add_right _ _) (Nat.le_succ _)
  · rw [Hint.occurrences, hfloor, htokens, List.filter_eq_self.mpr]
    · exact Hint.occurrencesFrom_header hbrace _ _ _ _ _
    · intro m hm
      exact decide_eq_true (Hint.le_start_of_mem_occurrencesFrom hm)

/-- What is quiet may be passed over. -/
theorem Ahead.quiet (segment : List Token) (h : s.Ahead source offset (segment ++ ts))
    (hquiet : Hint.Quiet segment) : s.Ahead source (offset + byteSize (textOf segment)) ts := by
  refine ⟨Nat.le_trans h.cursor_le (Nat.le_add_right _ _), fun name => ?_⟩
  rw [h.ahead, hquiet]

/-- The declaration that comes next is found at its start, and lies behind the scanner then. -/
theorem Ahead.find {name gap : List Char} (hne : name ≠ [])
    (hname : ∀ c ∈ name, Hint.isNameChar c = true) (hgap : ∀ c ∈ gap, isPlainBlank c = true)
    (hbrace : ∀ t ∈ Hint.declarationHead name gap, t.isBrace = false)
    (h : s.Ahead source offset (Hint.declarationHead name gap ++ ts))
    (hceiling : offset < (s.window source).ceiling) :
    ∃ next, s.find source (.property name) = (some offset, next) ∧
      next.window source = s.window source ∧
      next.Ahead source (offset + byteSize (textOf (Hint.declarationHead name gap))) ts := by
  have hcursor := h.cursor_le
  have hhead := Hint.head?_occurrencesFrom hne hname hgap hceiling ts
  rw [← h.ahead, List.head?_filter] at hhead
  generalize hstop : offset + byteSize (textOf (Hint.declarationHead name gap)) = stop at hhead ⊢
  have hle : s.cursor ≤ stop := by omega
  refine ⟨{ s with cursor := stop }, ?_, rfl, Nat.le_refl _, fun other => ?_⟩
  · rw [Scanner.find, next?]
    simp only [hhead, Nat.max_eq_right hle]
  · -- What lies behind the new cursor lies behind the old one as well.
    have hfilter : (Hint.occurrences source (s.window source) (.property other)).filter
        (stop ≤ ·.start) = ((Hint.occurrences source (s.window source) (.property other)).filter
          (s.cursor ≤ ·.start)).filter (stop ≤ ·.start) := by
      rw [List.filter_filter]
      apply List.filter_congr
      intro m _
      by_cases hm : stop ≤ m.start
      · simp [hm, Nat.le_trans hle hm]
      · simp [hm]
    refine hfilter.trans ?_
    rw [h.ahead, ← hstop]
    exact Hint.filter_occurrencesFrom_declarationHead hbrace other _ offset ts

end Scanner
end StyleAtlas
