import Mathlib.Data.List.Infix
import StyleAtlas.Proofs.Text.Boundary
import StyleAtlas.Text.Token

/-!
# What tokens look like

The tokens of a text are more than a partition of it: a string starts with a quote and, where it is
closed, ends in the same quote; a comment closes at the first chance; and only the last token, or a
string before a line feed, is left open.

Main results:

- Definition `Text.IsComment`: comments with their delimiters.
- Definition `Token.Proper`, Theorem `Token.proper_lex`: the tokens of a text are proper.
- Definition `Token.Delimited`, Theorem `Token.Proper.delimited`: the same of each token alone.
- Theorem `Source.tokensFrom_byteSize`: the tokens from a place between two characters on.
-/

namespace StyleAtlas

/-- A comment with its delimiters, which closes at the first chance. -/
def Text.IsComment (cs : List Char) : Prop :=
  ∃ body, cs = '/' :: '*' :: (body ++ ['*', '/']) ∧ ¬['*', '/'] <:+: body

namespace Token

/-- The text of some tokens. -/
abbrev textOf (ts : List Token) : List Char :=
  ts.flatMap text

/-- Whether a token is complete. -/
def isClosed : Token → Bool
  | .char _ => true
  | .quoted _ closed => closed
  | .comment _ closed => closed

/-- Tokens as they stand in a text: strings are between quotes, comments between their delimiters,
and nothing but a line feed follows what is left open. -/
inductive Proper : List Token → Prop where
  | nil : Proper []
  | char {c : Char} {ts : List Token} (hc : isQuote c = false) (hts : Proper ts) :
      Proper (.char c :: ts)
  | quoted {quote : Char} {ts : List Token} (body : List Char) (hquote : isQuote quote = true)
      (hts : Proper ts) : Proper (.quoted (quote :: (body ++ [quote])) true :: ts)
  | brokenString {quote : Char} {ts : List Token} (body : List Char)
      (hquote : isQuote quote = true) (hts : Proper ts) :
      Proper (.quoted (quote :: body) false :: .char '\n' :: ts)
  | openString {quote : Char} (body : List Char) (hquote : isQuote quote = true) :
      Proper [.quoted (quote :: body) false]
  | comment {content : List Char} {ts : List Token} (hcontent : Text.IsComment content)
      (hts : Proper ts) : Proper (.comment content true :: ts)
  | openComment (body : List Char) : Proper [.comment ('/' :: '*' :: body) false]

/-- A single token between its delimiters: a string starts with a quote, and a comment that is
closed is one. -/
def Delimited : Token → Prop
  | .char _ => True
  | .quoted content _ => ∃ quote body, content = quote :: body ∧ isQuote quote = true
  | .comment content closed => closed = true → Text.IsComment content

/-- Each of the tokens of a text stands between its delimiters. -/
theorem Proper.delimited {ts : List Token} (h : Proper ts) : ∀ t ∈ ts, t.Delimited := by
  induction h with
  | nil => simp
  | char _ _ ih => exact List.forall_mem_cons.mpr ⟨trivial, ih⟩
  | quoted body hquote _ ih => exact List.forall_mem_cons.mpr ⟨⟨_, _, rfl, hquote⟩, ih⟩
  | brokenString body hquote _ ih =>
      exact List.forall_mem_cons.mpr ⟨⟨_, _, rfl, hquote⟩, List.forall_mem_cons.mpr ⟨trivial, ih⟩⟩
  | openString body hquote => exact List.forall_mem_singleton.mpr ⟨_, _, rfl, hquote⟩
  | comment hcontent _ ih => exact List.forall_mem_cons.mpr ⟨fun _ => hcontent, ih⟩
  | openComment body => exact List.forall_mem_singleton.mpr (by simp [Delimited])

/-- What was read of an open token fits what comes next: a comment did not end so far, and does not
end between the two. -/
def Mode.Fits : Mode → List Char → Prop
  | .plain, _ => True
  | .inString quote read, _ => isQuote quote = true ∧ ∃ body, read.reverse = quote :: body
  | .inComment read, cs =>
      ∃ body, read.reverse = '/' :: '*' :: body ∧ ¬['*', '/'] <:+: body ∧
        (body.getLast? = some '*' → cs.head? ≠ some '/')

/-- A comment that goes on by one character does not end with it. -/
theorem not_infix_concat {body : List Char} {c : Char} (hbody : ¬['*', '/'] <:+: body)
    (hlast : body.getLast? = some '*' → c ≠ '/') : ¬['*', '/'] <:+: body ++ [c] := by
  intro h
  rcases List.infix_concat_iff.mp h with hsuffix | hinfix
  · rcases List.suffix_concat_iff.mp hsuffix with hnil | ⟨front, hfront, hend⟩
    · simp at hnil
    · have hboth : front = ['*'] ∧ c = '/' := by
        have heq : ['*'] ++ ['/'] = front ++ [c] := hfront
        have := List.append_inj' heq rfl
        exact ⟨this.1.symm, by simpa using this.2.symm⟩
      rcases hend with ⟨start, rfl⟩
      exact hlast (by simp [hboth.1]) hboth.2
  · exact hbody hinfix

/-- One more character of a comment fits, unless the comment ends there. -/
theorem Mode.Fits.comment_cons {read cs : List Char} {c : Char}
    (h : (Mode.inComment read).Fits (c :: cs)) (hopen : c = '*' → cs.head? ≠ some '/') :
    (Mode.inComment (c :: read)).Fits cs := by
  rcases h with ⟨body, hread, hbody, hlast⟩
  refine ⟨body ++ [c], by simp [hread], ?_, ?_⟩
  · apply not_infix_concat hbody
    intro hstar hslash
    exact hlast hstar (by simp [hslash])
  · intro hstar
    exact hopen (by simpa using hstar)

/-- One more character of a string fits. -/
theorem Mode.Fits.string_cons {quote : Char} {read cs ds : List Char}
    (h : (Mode.inString quote read).Fits cs) (c : Char) :
    (Mode.inString quote (c :: read)).Fits ds := by
  rcases h with ⟨hquote, body, hread⟩
  exact ⟨hquote, body ++ [c], by simp [hread]⟩

/-- The tokens that are read from a fitting mode on are proper. -/
theorem proper_lexFrom (quoting : Quoting) {mode : Mode} {cs : List Char} (h : mode.Fits cs) :
    Proper (lexFrom quoting mode cs) := by
  fun_induction lexFrom quoting mode cs with
  | case1 => exact .nil
  | case2 cs ih => exact ih ⟨[], by simp⟩
  | case3 c cs _ hquote ih => exact ih ⟨hquote, [], rfl⟩
  | case4 c cs _ hquote ih => exact .char (by simpa using hquote) (ih trivial)
  | case5 read =>
      rcases h with ⟨body, hread, -⟩
      rw [hread]
      exact .openComment body
  | case6 read cs ih =>
      rcases h with ⟨body, hread, hbody, -⟩
      exact .comment ⟨body, by simp [hread], hbody⟩ (ih trivial)
  | case7 read c cs hopen ih =>
      apply ih
      apply h.comment_cons
      intro hstar hslash
      rcases List.head?_eq_some_iff.mp hslash with ⟨rest, hrest⟩
      exact hopen rest hstar hrest
  | case8 quote read =>
      rcases h with ⟨hquote, body, hread⟩
      rw [hread]
      exact .openString body hquote
  | case9 quote read c cs ih =>
      have hescape : (Mode.inString quote ('\\' :: read)).Fits (c :: cs) := h.string_cons '\\'
      exact ih (hescape.string_cons c)
  | case10 read c cs _ ih =>
      rcases h with ⟨hquote, body, hread⟩
      rw [List.reverse_cons, hread]
      exact .quoted body hquote (ih trivial)
  | case11 quote read c cs _ _ hbreak ih =>
      rcases h with ⟨hquote, body, hread⟩
      rw [hread, hbreak.1]
      exact .brokenString body hquote (ih trivial)
  | case12 quote read c cs _ _ _ ih => exact ih (h.string_cons c)

/-- The tokens of a text are proper. -/
theorem proper_lex (quoting : Quoting) (cs : List Char) : Proper (lex quoting cs) :=
  proper_lexFrom quoting trivial

end Token

/-! ## Placed tokens -/

/-- The tokens from a place between two characters on are those of what follows it. -/
theorem Source.tokensFrom_byteSize {s : Source} {front back : List Char}
    (h : s.chars = front ++ back) (quoting : Quoting) :
    s.tokensFrom quoting (Text.byteSize front) =
      Placed.ofTokens (Text.byteSize front) (Token.lex quoting back) := by
  have hsize : s.size - Text.byteSize back = Text.byteSize front := by
    simp [Source.size, h]
  simp only [Source.tokensFrom, h, Text.charsFrom_byteSize, hsize]

end StyleAtlas
