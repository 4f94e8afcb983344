import Mathlib.Data.List.TakeWhile
import StyleAtlas.Hint.Scanner
import StyleAtlas.Proofs.Text.Tokens

/-!
# Occurrences are genuine

What a search for a signature finds is said here without the search: a whole name of the source
starts at the place, it is the name that was looked for, and the text behind it goes on as the
signature asks.  Every occurrence in a window stands inside the window in this sense.

Main results:

- Definition `Hint.NameAt`: a whole name at an offset, and what follows it.
- Definition `Hint.IsNameOf`, Theorem `Hint.namesProperty_iff`: names with a vendor mark.
- Definition `Signature.StandsAt`: a signature at an offset.
- Definition `Signature.StandsIn`, Theorem `Hint.standsIn_of_mem_occurrences`: occurrences stand in
  their window.
-/

namespace StyleAtlas

open Text
open Token (textOf)

/-! ## Signatures at an offset -/

namespace Hint

/-- `written` is the whole run of name characters that starts at the offset, and `rest` is the text
after it. -/
structure NameAt (source : Source) (offset : Nat) (written rest : List Char) : Prop where
  text : ∃ before, source.chars = before ++ written ++ rest ∧ byteSize before = offset ∧
    ∀ c ∈ before.getLast?, isNameChar c = false
  ne_nil : written ≠ []
  isName : ∀ c ∈ written, isNameChar c = true
  ends : ∀ c ∈ rest.head?, isNameChar c = false

/-- A written name is the given one up to letter case, perhaps behind one vendor mark. -/
def IsNameOf (name written : List Char) : Prop :=
  equalsIgnoringCase written name = true ∨
    ∃ vendor bare, written = '-' :: (vendor ++ '-' :: bare) ∧ vendor ≠ [] ∧ '-' ∉ vendor ∧
      equalsIgnoringCase bare name = true

/-- A text of plain blanks and comments. -/
inductive Trivia : List Char → Prop where
  | nil : Trivia []
  | blank {c : Char} {cs : List Char} (hc : isPlainBlank c = true) (hcs : Trivia cs) :
      Trivia (c :: cs)
  | comment {content cs : List Char} (hcontent : IsComment content) (hcs : Trivia cs) :
      Trivia (content ++ cs)

end Hint

/-- A signature stands at an offset: a property as a name with a colon behind it, with plain blanks
and comments between them at most; a call as a name with a parenthesis directly behind it. -/
def Signature.StandsAt (source : Source) (offset : Nat) : Signature → Prop
  | .property name => ∃ written gap after, Hint.NameAt source offset written (gap ++ ':' :: after) ∧
      Hint.IsNameOf name written ∧ Hint.Trivia gap
  | .call name => ∃ written after, Hint.NameAt source offset written ('(' :: after) ∧
      equalsIgnoringCase written name = true

/-- A name starts between two characters. -/
theorem Hint.NameAt.isBoundary {source : Source} {offset : Nat} {written rest : List Char}
    (h : Hint.NameAt source offset written rest) : isBoundary source.chars offset = true := by
  rcases h.text with ⟨before, htext, rfl, -⟩
  rw [htext, List.append_assoc]
  exact isBoundary_byteSize before (written ++ rest)

/-- Signatures stand between characters. -/
theorem Signature.StandsAt.isBoundary {source : Source} {offset : Nat} {signature : Signature}
    (h : signature.StandsAt source offset) : isBoundary source.chars offset = true := by
  cases signature with
  | property name =>
      rcases h with ⟨written, gap, after, hname, -⟩
      exact hname.isBoundary
  | call name =>
      rcases h with ⟨written, after, hname, -⟩
      exact hname.isBoundary

/-- A signature stands at an offset in a window. -/
structure Signature.StandsIn (source : Source) (window : Window) (signature : Signature)
    (offset : Nat) : Prop where
  floor_le : window.floor ≤ offset
  lt_ceiling : offset < window.ceiling
  stands : signature.StandsAt source offset

/-- What stands in a window stands in one that starts earlier, too. -/
theorem Signature.StandsIn.lower {source : Source} {signature : Signature}
    {floor lower ceiling offset : Nat} (h : signature.StandsIn source ⟨floor, ceiling⟩ offset)
    (hle : lower ≤ floor) : signature.StandsIn source ⟨lower, ceiling⟩ offset :=
  ⟨Nat.le_trans hle h.floor_le, h.lt_ceiling, h.stands⟩

namespace Hint

/-! ## Names of properties -/

/-- What a name is without its vendor mark. -/
theorem withoutVendor?_eq_some_iff {written bare : List Char} :
    withoutVendor? written = some bare ↔
      ∃ vendor, written = '-' :: (vendor ++ '-' :: bare) ∧ vendor ≠ [] ∧ '-' ∉ vendor := by
  constructor
  · intro h
    unfold withoutVendor? at h
    split at h
    · simp at h
    · rename_i rest hsecond
      split at h
      · rename_i c found hfound
        obtain rfl := Option.some.inj h
        have hc : c = '-' := by
          have hhead := List.head?_dropWhile_not (· != '-') rest
          rw [hfound] at hhead
          simpa using hhead
        have hrest : rest = rest.takeWhile (· != '-') ++ '-' :: found := by
          have hwhole := List.takeWhile_append_dropWhile (p := (· != '-')) (l := rest)
          rw [hfound, hc] at hwhole
          exact hwhole.symm
        refine ⟨rest.takeWhile (· != '-'), by rw [← hrest], ?_, ?_⟩
        · intro hnil
          exact hsecond found (by rw [hrest, hnil]; rfl)
        · intro hmem
          simpa using List.mem_takeWhile_imp hmem
      · simp at h
    · simp at h
  · rintro ⟨vendor, rfl, hne, hvendor⟩
    have hcut : (vendor ++ '-' :: bare).dropWhile (· != '-') = '-' :: bare := by
      rw [List.dropWhile_append_of_pos]
      · simp
      · intro c hc
        simpa using ne_of_mem_of_not_mem hc hvendor
    unfold withoutVendor?
    split
    · rename_i tail hsecond
      cases vendor with
      | nil => exact absurd rfl hne
      | cons c vendor =>
          have hc : c = '-' := (List.cons.inj (List.cons.inj hsecond).2).1
          exact absurd (by simp [hc]) hvendor
    · rename_i rest _ hrest
      obtain rfl := (List.cons.inj hrest).2
      rw [hcut]
    · rename_i hnone
      exact absurd rfl (hnone _)

/-- The test for a written name, said without it. -/
theorem namesProperty_iff {written name : List Char} :
    namesProperty written name = true ↔ IsNameOf name written := by
  unfold namesProperty IsNameOf
  rw [Bool.or_eq_true]
  refine or_congr Iff.rfl ?_
  constructor
  · intro h
    split at h
    · rename_i bare hbare
      rcases withoutVendor?_eq_some_iff.mp hbare with ⟨vendor, hwritten, hne, hvendor⟩
      exact ⟨vendor, bare, hwritten, hne, hvendor, h⟩
    · simp at h
  · rintro ⟨vendor, bare, hwritten, hne, hvendor, hbare⟩
    rw [withoutVendor?_eq_some_iff.mpr ⟨vendor, hwritten, hne, hvendor⟩]
    exact hbare

/-! ## Names among tokens -/

/-- A quote is no name character. -/
theorem isNameChar_of_isQuote {quote : Char} (h : Token.isQuote quote = true) :
    isNameChar quote = false := by
  simp only [Token.isQuote, Bool.or_eq_true, beq_iff_eq] at h
  rcases h with rfl | rfl <;> decide

/-- Only a character token starts with a name character. -/
theorem isNameChar_head_eq_false {ts : List Token} (h : Token.Proper ts)
    (hname : ∀ t ∈ ts.head?, nameChar? t = none) :
    ∀ c ∈ (textOf ts).head?, isNameChar c = false := by
  intro c hc
  cases h with
  | nil => simp [textOf] at hc
  | @char d ts _ _ =>
      have hd : nameChar? (.char d) = none := hname _ (by simp)
      obtain rfl : d = c := by simpa [textOf, Token.text] using hc
      by_contra hchar
      simp [nameChar?, hchar] at hd
  | @quoted q ts body hq _ =>
      obtain rfl : q = c := by simpa [textOf, Token.text] using hc
      exact isNameChar_of_isQuote hq
  | @brokenString q ts body hq _ =>
      obtain rfl : q = c := by simpa [textOf, Token.text] using hc
      exact isNameChar_of_isQuote hq
  | @openString q body hq =>
      obtain rfl : q = c := by simpa [textOf, Token.text] using hc
      exact isNameChar_of_isQuote hq
  | comment hcontent _ =>
      rcases hcontent with ⟨body, rfl, -⟩
      obtain rfl : '/' = c := by simpa [textOf, Token.text] using hc
      decide
  | openComment body =>
      obtain rfl : '/' = c := by simpa [textOf, Token.text] using hc
      decide

/-- What `spanName` makes of tokens: the longest run of name characters at the front of their text,
and the tokens behind it. -/
def SpansName (offset : Nat) (ts : List Token) : Prop :=
  ∃ written rest, spanName (Placed.ofTokens offset ts) =
      (written, Placed.ofTokens (offset + byteSize written) rest) ∧
    ts = written.map Token.char ++ rest ∧ Token.Proper rest ∧
    (∀ c ∈ written, isNameChar c = true) ∧ ∀ c ∈ (textOf rest).head?, isNameChar c = false

/-- A name is empty in front of a token that does not belong to names. -/
theorem SpansName.stop {ts : List Token} (hts : Token.Proper ts)
    (hname : ∀ t ∈ ts.head?, nameChar? t = none) (offset : Nat) : SpansName offset ts := by
  refine ⟨[], ts, ?_, by simp, hts, by simp, isNameChar_head_eq_false hts hname⟩
  cases ts with
  | nil => rfl
  | cons t ts =>
      have ht : nameChar? t = none := hname t (by simp)
      simp [Placed.ofTokens, spanName, ht]

/-- A name is read in full, whatever the tokens are. -/
theorem spansName {ts : List Token} (h : Token.Proper ts) (offset : Nat) :
    SpansName offset ts := by
  induction h generalizing offset with
  | nil => exact .stop .nil (by simp) offset
  | @char c ts hc hts ih =>
      by_cases hchar : isNameChar c = true
      · rcases ih (offset + byteSize [c]) with ⟨written, rest, hspan, rfl, hrest, hname, hhead⟩
        refine ⟨c :: written, rest, ?_, rfl, hrest, ?_, hhead⟩
        · simp only [Placed.ofTokens, spanName, nameChar?, hchar, if_true, Token.text, hspan]
          simp [Nat.add_assoc]
        · intro d hd
          rcases List.mem_cons.mp hd with rfl | hd
          · exact hchar
          · exact hname d hd
      · exact .stop (.char hc hts) (by simp [nameChar?, hchar]) offset
  | quoted body hq hts _ => exact .stop (.quoted body hq hts) (by simp [nameChar?]) offset
  | brokenString body hq hts _ =>
      exact .stop (.brokenString body hq hts) (by simp [nameChar?]) offset
  | openString body hq => exact .stop (.openString body hq) (by simp [nameChar?]) offset
  | comment hcontent hts _ => exact .stop (.comment hcontent hts) (by simp [nameChar?]) offset
  | openComment body => exact .stop (.openComment body) (by simp [nameChar?]) offset

/-! ## What follows a name -/

/-- Where a search goes past a character, the text goes on with it. -/
theorem exists_of_past? {c : Char} {offset stop : Nat} {ts : List Token}
    (h : past? c (Placed.ofTokens offset ts) = some stop) :
    ∃ after, textOf ts = c :: after := by
  cases ts with
  | nil => simp [Placed.ofTokens, past?] at h
  | cons t ts =>
      simp only [Placed.ofTokens, past?] at h
      split at h
      · rename_i ht
        exact ⟨textOf ts, by simp [textOf, ht, Token.text]⟩
      · simp at h

/-- A colon behind trivial tokens is a colon behind plain blanks and comments. -/
theorem exists_trivia {offset stop : Nat} {ts : List Token} (hts : Token.Proper ts)
    (h : past? ':' ((Placed.ofTokens offset ts).dropWhile fun t => isTrivia t.token) = some stop) :
    ∃ gap after, textOf ts = gap ++ ':' :: after ∧ Trivia gap := by
  induction ts generalizing offset with
  | nil => simp [Placed.ofTokens, past?] at h
  | cons t ts ih =>
      by_cases ht : isTrivia t = true
      · rw [Placed.ofTokens, List.dropWhile_cons_of_pos (by simpa using ht)] at h
        cases hts with
        | @char c _ _ hts =>
            rcases ih hts h with ⟨gap, after, htext, hgap⟩
            exact ⟨c :: gap, after, by simp [textOf, Token.text, ← htext], .blank ht hgap⟩
        | @comment content _ hcontent hts =>
            rcases ih hts h with ⟨gap, after, htext, hgap⟩
            refine ⟨content ++ gap, after, ?_, .comment hcontent hgap⟩
            rw [List.append_assoc, ← htext]
            rfl
        | openComment body => simp [Placed.ofTokens, past?] at h
        | quoted _ _ _ => simp [isTrivia] at ht
        | brokenString _ _ _ => simp [isTrivia] at ht
        | openString _ _ => simp [isTrivia] at ht
      · rw [Placed.ofTokens, List.dropWhile_cons_of_neg (by simpa using ht)] at h
        have hpast : ∃ after, textOf (t :: ts) = ':' :: after := exists_of_past? h
        rcases hpast with ⟨after, hafter⟩
        exact ⟨[], after, hafter, .nil⟩

/-- A match behind a whole name is a signature that stands at the name. -/
theorem standsAt_of_matchEnd? {source : Source} {signature : Signature}
    {offset depth place stop : Nat} {written : List Char} {rest : List Token}
    (hrest : Token.Proper rest)
    (hname : NameAt source offset written (textOf rest))
    (h : matchEnd? signature depth written (Placed.ofTokens place rest) = some stop) :
    signature.StandsAt source offset := by
  cases signature with
  | property name =>
      simp only [matchEnd?] at h
      split at h
      · rename_i hnames
        rcases exists_trivia hrest h with ⟨gap, after, htext, hgap⟩
        rw [htext] at hname
        rw [Bool.and_eq_true] at hnames
        exact ⟨written, gap, after, hname, namesProperty_iff.mp hnames.2, hgap⟩
      · simp at h
  | call name =>
      simp only [matchEnd?] at h
      split at h
      · rename_i hequals
        rcases exists_of_past? h with ⟨after, htext⟩
        rw [htext] at hname
        exact ⟨written, after, hname, hequals⟩
      · simp at h

/-! ## Occurrences -/

/-- Where a search has come to: what was read, the tokens that are left, and whether the last
character read belongs to a name. -/
structure Reached (source : Source) (before : List Char) (ts : List Token) (inName : Bool) :
    Prop where
  text : source.chars = before ++ textOf ts
  proper : Token.Proper ts
  name : inName = false → ∀ c ∈ before.getLast?, isNameChar c = false

/-- A search that reads a character has come behind it. -/
theorem Reached.char {source : Source} {before : List Char} {c : Char} {ts : List Token}
    {inName : Bool} (h : Reached source before (.char c :: ts) inName) (hts : Token.Proper ts) :
    Reached source (before ++ [c]) ts (isNameChar c) := by
  refine ⟨by simpa [textOf, Token.text] using h.text, hts, ?_⟩
  intro hc d hd
  obtain rfl : c = d := by simpa using hd
  exact hc

/-- A search that reads a comment or string has come behind it, outside of any name. -/
theorem Reached.skip {source : Source} {before front : List Char} {t : Token} {last : Char}
    {ts : List Token} {inName : Bool} (h : Reached source before (t :: ts) inName)
    (hts : Token.Proper ts) (ht : t.text = front ++ [last]) (hlast : isNameChar last = false) :
    Reached source (before ++ t.text) ts false := by
  refine ⟨by simpa [textOf] using h.text, hts, ?_⟩
  intro _ c hc
  obtain rfl : last = c := by simpa [ht, ← List.append_assoc] using hc
  exact hlast

/-- A name that starts where a search has come to is a whole name. -/
theorem Reached.nameAt {source : Source} {before written : List Char} {rest : List Token}
    (h : Reached source before (written.map Token.char ++ rest) false) (hne : written ≠ [])
    (hname : ∀ c ∈ written, isNameChar c = true)
    (hends : ∀ c ∈ (textOf rest).head?, isNameChar c = false) :
    NameAt source (byteSize before) written (textOf rest) := by
  refine ⟨⟨before, ?_, rfl, h.name rfl⟩, hne, hname, hends⟩
  have hwritten : textOf (written.map Token.char) = written := by
    rw [textOf, List.flatMap_map]
    exact List.flatMap_singleton' written
  have htext := h.text
  rwa [textOf, List.flatMap_append, ← textOf, hwritten, ← List.append_assoc] at htext

/-- The occurrences among tokens stand behind what was read and before the ceiling. -/
theorem standsIn_of_mem_occurrencesFrom {source : Source} {signature : Signature} {ceiling : Nat}
    {inName : Bool} {depth : Nat} {before : List Char} {ts : List Token}
    (h : Reached source before ts inName) {m : Occurrence}
    (hm : m ∈ occurrencesFrom signature ceiling inName depth
      (Placed.ofTokens (byteSize before) ts)) :
    signature.StandsIn source ⟨byteSize before, ceiling⟩ m.start := by
  have hproper := h.proper
  induction hproper generalizing before inName depth with
  | nil => simp [Placed.ofTokens, occurrencesFrom] at hm
  | @char c ts hc hts ih =>
      simp only [Placed.ofTokens, occurrencesFrom, Token.text, ← byteSize_append] at hm
      have hlater (hm : m ∈ occurrencesFrom signature ceiling (isNameChar c) (depthAfter depth c)
          (Placed.ofTokens (byteSize (before ++ [c])) ts)) :
          signature.StandsIn source ⟨byteSize before, ceiling⟩ m.start :=
        (ih (h.char hts) hm).lower (by simp)
      split at hm
      · simp at hm
      · rename_i hceiling
        split at hm
        · rename_i hstart
          split at hm
          · rename_i stop hstop
            rcases List.mem_cons.mp hm with rfl | hm
            · rw [Bool.and_eq_true, Bool.not_eq_true'] at hstart
              rcases spansName h.proper (byteSize before) with
                ⟨written, rest, hspan, hsplit, hrest, hname, hends⟩
              have hne : written ≠ [] := by
                rintro rfl
                rw [List.map_nil, List.nil_append] at hsplit
                have hhead := hends c (by simp [← hsplit, textOf, Token.text])
                rw [hhead] at hstart
                exact Bool.noConfusion hstart.1
              have hbegin : Reached source before (written.map Token.char ++ rest) false := by
                rw [← hsplit, ← hstart.2]
                exact h
              simp only [Placed.ofTokens, Token.text, ← byteSize_append] at hspan
              rw [hspan] at hstop
              exact ⟨Nat.le_refl _, Nat.lt_of_not_le hceiling,
                standsAt_of_matchEnd? hrest (hbegin.nameAt hne hname hends) hstop⟩
            · exact hlater hm
          · exact hlater hm
        · exact hlater hm
  | @quoted quote ts body hquote hts ih =>
      simp only [Placed.ofTokens, occurrencesFrom, ← byteSize_append] at hm
      split at hm
      · simp at hm
      · have hend : (Token.quoted (quote :: (body ++ [quote])) true).text =
            quote :: body ++ [quote] := rfl
        exact (ih (h.skip hts hend (isNameChar_of_isQuote hquote)) hm).lower (by simp)
  | @brokenString quote ts body hquote hts ih =>
      have hskip : Reached source (before ++ (quote :: body) ++ ['\n']) ts false := by
        refine ⟨by simpa [textOf, Token.text] using h.text, hts, ?_⟩
        intro _ c hc
        obtain rfl : '\n' = c := by simpa [← List.append_assoc] using hc
        decide
      have hfeed : isNameChar '\n' = false := by decide
      simp only [Placed.ofTokens, occurrencesFrom, Token.text, hfeed, Bool.false_and,
        Bool.false_eq_true, if_false, ← byteSize_append] at hm
      split at hm
      · simp at hm
      · split at hm
        · simp at hm
        · exact (ih hskip hm).lower (by simp)
  | openString body hquote => simp [Placed.ofTokens, occurrencesFrom] at hm
  | @comment content ts hcontent hts ih =>
      rcases hcontent with ⟨body, hbody, -⟩
      simp only [Placed.ofTokens, occurrencesFrom, ← byteSize_append] at hm
      split at hm
      · simp at hm
      · have hend : (Token.comment content true).text = '/' :: '*' :: (body ++ ['*']) ++ ['/'] := by
          simp [Token.text, hbody]
        exact (ih (h.skip hts hend (by decide)) hm).lower (by simp)
  | openComment body => simp [Placed.ofTokens, occurrencesFrom] at hm

/-- What is left of a text from an offset on stands behind the offset, and a name goes on there
where the byte before the offset belongs to one. -/
theorem exists_eq_append_charsFrom (cs : List Char) (offset : Nat) :
    ∃ front, cs = front ++ charsFrom cs offset ∧
      (charsFrom cs offset ≠ [] → offset ≤ byteSize front ∧
        (nameEndsAt cs offset = false ↔ ∀ c ∈ front.getLast?, isNameChar c = false)) := by
  induction cs generalizing offset with
  | nil => exact ⟨[], rfl, fun hne => absurd rfl hne⟩
  | cons c cs ih =>
      rw [charsFrom, nameEndsAt]
      by_cases hzero : offset = 0
      · rw [if_pos hzero]
        exact ⟨[], rfl, fun _ => ⟨by simp [hzero], by simp [hzero]⟩⟩
      rw [if_neg hzero, if_neg hzero]
      rcases ih (offset - c.utf8Size) with ⟨front, hcs, hfront⟩
      refine ⟨c :: front, congrArg (List.cons c) hcs, fun hne => ?_⟩
      rcases hfront hne with ⟨hle, hname⟩
      refine ⟨by simp; omega, ?_⟩
      by_cases hlast : offset ≤ c.utf8Size
      · have hnil : front = [] := by
          have hrest : charsFrom cs 0 = cs := charsFrom_byteSize [] cs
          rw [Nat.sub_eq_zero_of_le hlast, hrest] at hcs
          simpa using hcs
        rw [if_pos hlast, hnil]
        simp
      · have hcons : (c :: front).getLast? = front.getLast? := by
          cases front with
          | nil => simp at hle; omega
          | cons d front => exact List.getLast?_cons_cons
        rw [if_neg hlast, hcons]
        exact hname

/-- The tokens of a source from an offset on. -/
theorem tokensFrom_charsFrom {source : Source} {offset : Nat} {front : List Char}
    (h : source.chars = front ++ charsFrom source.chars offset) (quoting : Quoting) :
    source.tokensFrom quoting offset =
      Placed.ofTokens (byteSize front) (Token.lex quoting (charsFrom source.chars offset)) := by
  have hsize := congrArg byteSize h
  rw [byteSize_append] at hsize
  have hplace : source.size - byteSize (charsFrom source.chars offset) = byteSize front := by
    rw [Source.size]
    omega
  rw [Source.tokensFrom, hplace]

/-- The occurrences of a signature in a window stand in the window. -/
theorem standsIn_of_mem_occurrences {source : Source} {window : Window} {signature : Signature}
    {m : Occurrence} (hm : m ∈ occurrences source window signature) :
    signature.StandsIn source window m.start := by
  rcases exists_eq_append_charsFrom source.chars window.floor with ⟨front, hsplit, hfront⟩
  rw [occurrences, tokensFrom_charsFrom hsplit] at hm
  have hne : charsFrom source.chars window.floor ≠ [] := by
    intro hnil
    simp [hnil, Token.lex, Token.lexFrom, Placed.ofTokens, occurrencesFrom] at hm
  rcases hfront hne with ⟨hle, hname⟩
  have hreached : Reached source front (Token.lex .singleLine (charsFrom source.chars window.floor))
      (nameEndsAt source.chars window.floor) := by
    refine ⟨?_, Token.proper_lex _ _, hname.mp⟩
    rw [textOf, Token.flatMap_text_lex, ← hsplit]
  exact (standsIn_of_mem_occurrencesFrom hreached hm).lower hle

end Hint

namespace Scanner

/-- What a search finds is an occurrence in the innermost window. -/
theorem exists_mem_of_find {s : Scanner} {source : Source} {signature : Signature} {start : Nat}
    (h : (s.find source signature).1 = some start) :
    ∃ m ∈ Hint.occurrences source (s.window source) signature, m.start = start := by
  have hnext : ∀ m, s.next? source signature = some m →
      m ∈ Hint.occurrences source (s.window source) signature := by
    intro m hm
    unfold next? at hm
    dsimp only at hm
    split at hm
    · rename_i found hfound
      obtain rfl := Option.some.inj hm
      exact List.mem_of_find?_eq_some hfound
    · exact List.mem_of_head? hm
  unfold find at h
  split at h
  · rename_i m hm
    exact ⟨m, hnext m hm, by simpa using h⟩
  · simp at h

end Scanner
end StyleAtlas
