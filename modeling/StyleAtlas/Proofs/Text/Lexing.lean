import StyleAtlas.Proofs.Text.Tokens

/-!
# Lexing texts in parts

The tokens of a text that is put together are those of its parts, as long as the first part leaves
no string and no comment open and no comment starts across the seam.  The other way round, the last
tokens of a text are the tokens of the text behind the others.  Where no string has a line feed, it
does not matter what a line feed does inside one.

Main results:

- Theorems `Token.lex_cons`, `Token.lex_append_cons` and `Token.lex_append`: the tokens of joined
  texts.
- Theorem `Token.lex_comment`: a comment in front of a text.
- Theorem `Token.lex_textOf`: the tokens of the parts of a text.
- Theorem `Token.lex_append_chars`: the tokens at the end of a text.
- Theorem `Token.lex_singleLine`: texts in which the ways to quote agree.
-/

namespace StyleAtlas
namespace Token

/-- A character that no delimiter of a string or a comment contains. -/
def isInert (c : Char) : Bool :=
  !(isQuote c || c == '/' || c == '*')

/-- What the delimiters of strings and comments do not satisfy is satisfied by inert characters
only. -/
theorem isInert_of {P : Char → Prop} (hdelimiter : ¬P '\x22' ∧ ¬P '\x27' ∧ ¬P '/' ∧ ¬P '*')
    {c : Char} (h : P c) : isInert c = true := by
  by_contra hnot
  simp only [isInert, isQuote, Bool.not_eq_true, Bool.not_eq_false', Bool.or_eq_true,
    beq_iff_eq] at hnot
  rcases hnot with ((rfl | rfl) | rfl) | rfl
  · exact hdelimiter.1 h
  · exact hdelimiter.2.1 h
  · exact hdelimiter.2.2.1 h
  · exact hdelimiter.2.2.2 h

/-- Blanks are inert. -/
theorem isInert_of_isBlank {c : Char} (h : Text.isBlank c = true) : isInert c = true :=
  isInert_of (P := fun c => Text.isBlank c = true) (by decide) h

/-! ## Joined texts -/

/-- A character that opens nothing stands for itself. -/
theorem lex_cons (quoting : Quoting) {c : Char} (hc : isInert c = true) (cs : List Char) :
    lex quoting (c :: cs) = .char c :: lex quoting cs := by
  simp only [isInert, Bool.not_eq_true', Bool.or_eq_false_iff, beq_eq_false_iff_ne] at hc
  rw [lex, lexFrom, if_neg (by simp [hc.1.1]), lex]
  intro rest hopen
  exact absurd hopen hc.1.2

/-- Inert characters in front stand for themselves. -/
theorem lex_chars_append (quoting : Quoting) {front : List Char}
    (h : ∀ c ∈ front, isInert c = true) (cs : List Char) :
    lex quoting (front ++ cs) = front.map Token.char ++ lex quoting cs := by
  induction front with
  | nil => rfl
  | cons c front ih =>
      rw [List.cons_append, lex_cons quoting (h c (by simp)), ih fun d hd => h d (by simp [hd])]
      rfl

/-- What is not the last of some tokens is not the last behind the first one. -/
theorem getLast?_ne_of_cons {t u : Token} {ts : List Token} (h : (t :: ts).getLast? ≠ some u) :
    ts.getLast? ≠ some u := by
  intro hlast
  exact h (by simp [List.getLast?_cons, hlast])

/-- The tokens of a text behind which another one starts, from a fitting mode on. -/
theorem lexFrom_append (quoting : Quoting) {mode : Mode} {cs : List Char} (hmode : mode.Fits cs)
    (hclosed : ∀ t ∈ lexFrom quoting mode cs, t.isClosed = true) {c : Char}
    (hseam : c = '*' → (lexFrom quoting mode cs).getLast? ≠ some (.char '/')) (rest : List Char) :
    lexFrom quoting mode (cs ++ c :: rest) =
      lexFrom quoting mode cs ++ lex quoting (c :: rest) := by
  -- What opens or closes a token takes two characters, so each case looks across the seam.
  fun_induction lexFrom quoting mode cs with
  | case1 => rfl
  | case2 cs ih => exact ih ⟨[], by simp⟩ hclosed hseam
  | case3 d cs hstart hquote ih =>
      rw [List.cons_append, lexFrom, if_pos hquote, ih ⟨hquote, [], rfl⟩ hclosed hseam]
      rintro others rfl
      simp [isQuote] at hquote
  | case4 d cs hstart hquote ih =>
      rw [List.cons_append, lexFrom, if_neg hquote,
        ih trivial (fun t ht => hclosed t (by simp [ht])) fun hc => getLast?_ne_of_cons (hseam hc)]
      · rfl
      · intro others hslash hstar
        cases cs with
        | nil => exact hseam (List.cons.inj hstar).1 (by simp [hslash, lexFrom])
        | cons e cs => exact hstart cs hslash (by rw [(List.cons.inj hstar).1])
  | case5 read => simp [isClosed] at hclosed
  | case6 read cs ih =>
      have hrest : ∀ t ∈ lexFrom quoting .plain cs, t.isClosed = true :=
        fun t ht => hclosed t (by simp [ht])
      rw [List.cons_append, List.cons_append, lexFrom,
        ih trivial hrest fun hc => getLast?_ne_of_cons (hseam hc)]
      rfl
  | case7 read d cs hopen ih =>
      have hfits : (Mode.inComment (d :: read)).Fits cs := by
        apply hmode.comment_cons
        intro hstar hslash
        rcases List.head?_eq_some_iff.mp hslash with ⟨others, hothers⟩
        exact hopen others hstar hothers
      rw [List.cons_append, lexFrom, ih hfits hclosed hseam]
      intro others hstar hslash
      cases cs with
      | nil => simp [lexFrom, isClosed] at hclosed
      | cons e cs => exact hopen cs hstar (by rw [(List.cons.inj hslash).1])
  | case8 quote read => simp [isClosed] at hclosed
  | case9 quote read d cs ih =>
      have hescape : (Mode.inString quote ('\\' :: read)).Fits (d :: cs) := hmode.string_cons '\\'
      rw [List.cons_append, List.cons_append, lexFrom, ih (hescape.string_cons d) hclosed hseam]
  | case10 read d cs hescape ih =>
      rw [List.cons_append, lexFrom, if_pos rfl,
        ih trivial (fun t ht => hclosed t (by simp [ht])) fun hc => getLast?_ne_of_cons (hseam hc)]
      · rfl
      · rintro e others rfl
        exact absurd hmode.1 (by decide)
  | case11 quote read d cs hescape hquote hbreak ih => simp [isClosed] at hclosed
  | case12 quote read d cs hescape hquote hbreak ih =>
      rw [List.cons_append, lexFrom, if_neg hquote, if_neg hbreak,
        ih (hmode.string_cons d) hclosed hseam]
      intro e others hslash hnext
      cases cs with
      | nil => simp [lexFrom, isClosed] at hclosed
      | cons f cs => exact hescape f cs hslash rfl

/-- The tokens of a text that leaves nothing open, and of what follows it. -/
theorem lex_append_cons (quoting : Quoting) {cs : List Char}
    (hclosed : ∀ t ∈ lex quoting cs, t.isClosed = true) {c : Char} (hc : isInert c = true)
    (rest : List Char) :
    lex quoting (cs ++ c :: rest) = lex quoting cs ++ .char c :: lex quoting rest := by
  have hstar : c ≠ '*' := by
    rintro rfl
    exact absurd hc (by decide)
  rw [← lex_cons quoting hc]
  exact lexFrom_append quoting (show Mode.plain.Fits cs from trivial) hclosed
    (fun hc => absurd hc hstar) rest

/-- The tokens of two texts, the first of which leaves nothing open and does not end in a slash,
with which a comment might start. -/
theorem lex_append (quoting : Quoting) {cs : List Char}
    (hclosed : ∀ t ∈ lex quoting cs, t.isClosed = true)
    (hseam : (lex quoting cs).getLast? ≠ some (.char '/')) (ds : List Char) :
    lex quoting (cs ++ ds) = lex quoting cs ++ lex quoting ds := by
  cases ds with
  | nil => simp [lex, lexFrom]
  | cons d ds =>
      exact lexFrom_append quoting (show Mode.plain.Fits cs from trivial) hclosed
        (fun _ => hseam) ds

/-! ## Comments -/

/-- A comment ends with the first star and slash. -/
theorem lexFrom_comment (quoting : Quoting) (read : List Char) {body : List Char}
    (h : ¬['*', '/'] <:+: body) (rest : List Char) :
    lexFrom quoting (.inComment read) (body ++ '*' :: '/' :: rest) =
      .comment (read.reverse ++ body ++ ['*', '/']) true :: lex quoting rest := by
  induction body generalizing read with
  | nil =>
      rw [List.nil_append, lexFrom]
      simp [lex]
  | cons c body ih =>
      have hbody : ¬['*', '/'] <:+: body := fun hinfix => h (List.infix_cons hinfix)
      rw [List.cons_append, lexFrom, ih (c :: read) hbody]
      · simp
      · rintro others rfl hslash
        cases body with
        | nil => simp at hslash
        | cons d body =>
            obtain rfl := (List.cons.inj hslash).1
            exact h ⟨[], body, rfl⟩

/-- A comment in front of a text is its first token. -/
theorem lex_comment (quoting : Quoting) {content : List Char} (h : Text.IsComment content)
    (rest : List Char) :
    lex quoting (content ++ rest) = .comment content true :: lex quoting rest := by
  rcases h with ⟨body, rfl, hbody⟩
  have hread := lexFrom_comment quoting ['*', '/'] hbody rest
  simpa [lex, lexFrom] using hread

/-! ## Texts taken apart -/

/-- Complete tokens do not start with one that is left open. -/
theorem eq_nil_of_cons_eq_append {t : Token} {ts front back : List Token}
    (h : t :: ts = front ++ back) (ht : t.isClosed = false)
    (hclosed : ∀ t ∈ front, t.isClosed = true) : front = [] := by
  cases front with
  | nil => rfl
  | cons u front =>
      obtain rfl := (List.cons.inj h).1
      exact absurd (hclosed t List.mem_cons_self) (by simp [ht])

/-- Where the tokens of a text are cut behind complete ones, the text is cut as well. -/
theorem exists_lexFrom_split {quoting : Quoting} {mode : Mode} {cs : List Char}
    {front back : List Token} (h : lexFrom quoting mode cs = front ++ back)
    (hclosed : ∀ t ∈ front, t.isClosed = true) (hmode : front = [] → mode = .plain) :
    ∃ ds es, cs = ds ++ es ∧ lexFrom quoting mode ds = front ∧ lex quoting es = back := by
  fun_induction lexFrom quoting mode cs generalizing front with
  | case1 =>
      obtain ⟨rfl, rfl⟩ := List.append_eq_nil_iff.mp h.symm
      exact ⟨[], [], rfl, rfl, rfl⟩
  | case2 cs ih =>
      by_cases hfront : front = []
      · subst hfront
        exact ⟨[], '/' :: '*' :: cs, rfl, rfl, h⟩
      · rcases ih h hclosed fun hnil => absurd hnil hfront with ⟨ds, es, rfl, hds, hes⟩
        exact ⟨'/' :: '*' :: ds, es, rfl, hds, hes⟩
  | case3 c cs hstart hquote ih =>
      by_cases hfront : front = []
      · subst hfront
        refine ⟨[], c :: cs, rfl, rfl, ?_⟩
        rw [lex, lexFrom, if_pos hquote]
        · exact h
        · exact hstart
      · rcases ih h hclosed fun hnil => absurd hnil hfront with ⟨ds, es, rfl, hds, hes⟩
        refine ⟨c :: ds, es, rfl, ?_, hes⟩
        rw [lexFrom, if_pos hquote]
        · exact hds
        · rintro others hslash rfl
          exact hstart _ hslash rfl
  | case4 c cs hstart hquote ih =>
      cases front with
      | nil =>
          refine ⟨[], c :: cs, rfl, rfl, ?_⟩
          rw [lex, lexFrom, if_neg hquote]
          · exact h
          · exact hstart
      | cons t front =>
          obtain ⟨rfl, htail⟩ := List.cons.inj h
          rcases ih htail (fun t ht => hclosed t (by simp [ht])) fun _ => rfl with
            ⟨ds, es, rfl, hds, hes⟩
          refine ⟨c :: ds, es, rfl, ?_, hes⟩
          rw [lexFrom, if_neg hquote, hds]
          rintro others hslash rfl
          exact hstart _ hslash rfl
  | case5 read => exact absurd (hmode (eq_nil_of_cons_eq_append h rfl hclosed)) (by simp)
  | case6 read cs ih =>
      cases front with
      | nil => exact absurd (hmode rfl) (by simp)
      | cons t front =>
          obtain ⟨rfl, htail⟩ := List.cons.inj h
          rcases ih htail (fun t ht => hclosed t (by simp [ht])) fun _ => rfl with
            ⟨ds, es, rfl, hds, hes⟩
          exact ⟨'*' :: '/' :: ds, es, rfl, by rw [lexFrom, hds], hes⟩
  | case7 read c cs hopen ih =>
      rcases ih h hclosed fun hnil => absurd (hmode hnil) (by simp) with ⟨ds, es, rfl, hds, hes⟩
      refine ⟨c :: ds, es, rfl, ?_, hes⟩
      rw [lexFrom, hds]
      rintro others hstar rfl
      exact hopen _ hstar rfl
  | case8 quote read => exact absurd (hmode (eq_nil_of_cons_eq_append h rfl hclosed)) (by simp)
  | case9 quote read c cs ih =>
      rcases ih h hclosed fun hnil => absurd (hmode hnil) (by simp) with ⟨ds, es, rfl, hds, hes⟩
      exact ⟨'\\' :: c :: ds, es, rfl, by rw [lexFrom, hds], hes⟩
  | case10 read c cs hescape ih =>
      cases front with
      | nil => exact absurd (hmode rfl) (by simp)
      | cons t front =>
          obtain ⟨rfl, htail⟩ := List.cons.inj h
          rcases ih htail (fun t ht => hclosed t (by simp [ht])) fun _ => rfl with
            ⟨ds, es, rfl, hds, hes⟩
          refine ⟨c :: ds, es, rfl, ?_, hes⟩
          rw [lexFrom, if_pos rfl, hds]
          rintro d others hslash rfl
          exact hescape _ _ hslash rfl
  | case11 quote read c cs hescape hquote hbreak ih =>
      exact absurd (hmode (eq_nil_of_cons_eq_append h rfl hclosed)) (by simp)
  | case12 quote read c cs hescape hquote hbreak ih =>
      rcases ih h hclosed fun hnil => absurd (hmode hnil) (by simp) with ⟨ds, es, rfl, hds, hes⟩
      refine ⟨c :: ds, es, rfl, ?_, hes⟩
      rw [lexFrom, if_neg hquote, if_neg hbreak, hds]
      rintro d others hslash rfl
      exact hescape _ _ hslash rfl

/-- Both parts of the tokens of a text, the first of which is complete, are those of their texts. -/
theorem lex_textOf {quoting : Quoting} {cs : List Char} {front back : List Token}
    (h : lex quoting cs = front ++ back) (hclosed : ∀ t ∈ front, t.isClosed = true) :
    lex quoting (textOf front) = front ∧ lex quoting (textOf back) = back := by
  rcases exists_lexFrom_split h hclosed fun _ => rfl with ⟨ds, es, -, rfl, rfl⟩
  have htext : ∀ cs, textOf (lex quoting cs) = cs := flatMap_text_lex quoting
  exact ⟨congrArg (lex quoting) (htext ds), congrArg (lex quoting) (htext es)⟩

/-- Behind its first token, a text is read afresh. -/
theorem lex_textOf_tail {quoting : Quoting} {mode : Mode} {cs : List Char} {t : Token}
    {ts : List Token} (h : lexFrom quoting mode cs = t :: ts) : lex quoting (textOf ts) = ts := by
  have hafresh : ∀ {u : Token} {cs : List Char}, u :: lexFrom quoting .plain cs = t :: ts →
      lex quoting (textOf ts) = ts := by
    intro u cs heq
    rw [← (List.cons.inj heq).2]
    exact congrArg (lex quoting) (flatMap_text_lex quoting cs)
  fun_induction lexFrom quoting mode cs with
  | case1 => cases h
  | case2 cs ih => exact ih h
  | case3 c cs _ _ ih => exact ih h
  | case4 c cs _ _ _ => exact hafresh h
  | case5 read =>
      rw [← (List.cons.inj h).2]
      rfl
  | case6 read cs _ => exact hafresh h
  | case7 read c cs _ ih => exact ih h
  | case8 quote read =>
      rw [← (List.cons.inj h).2]
      rfl
  | case9 quote read c cs ih => exact ih h
  | case10 read c cs _ _ => exact hafresh h
  | case11 quote read c cs _ _ hbreak _ =>
      -- The line feed that breaks the string stands for itself.
      have hfeed : lex quoting ('\n' :: cs) = .char '\n' :: lexFrom quoting .plain cs :=
        lex_cons quoting (by decide) cs
      rw [hbreak.1, ← hfeed] at h
      exact hafresh h
  | case12 quote read c cs _ _ _ ih => exact ih h

/-- Behind any of its tokens, a text is read afresh. -/
theorem lex_textOf_append {quoting : Quoting} {cs : List Char} {front back : List Token}
    (h : lex quoting cs = front ++ back) : lex quoting (textOf back) = back := by
  induction front generalizing cs with
  | nil =>
      rw [List.nil_append] at h
      rw [← h]
      exact congrArg (lex quoting) (flatMap_text_lex quoting cs)
  | cons t front ih => exact ih (lex_textOf_tail h)

/-- A complete token that ends in an inert character is that character. -/
theorem Proper.exists_getLast? {ts : List Token} (h : Proper ts) :
    ∀ t ∈ ts, t.isClosed = true →
      ∃ c, t.text.getLast? = some c ∧ (isInert c = true → t = .char c) := by
  have hquoted : ∀ quote body, isQuote quote = true →
      ∃ c, (Token.quoted (quote :: (body ++ [quote])) true).text.getLast? = some c ∧
        (isInert c = true → Token.quoted (quote :: (body ++ [quote])) true = .char c) := by
    intro quote body hquote
    exact ⟨quote, by simp [text, List.getLast?_cons], by simp [isInert, hquote]⟩
  induction h with
  | nil => simp
  | char _ _ ih => exact List.forall_mem_cons.mpr ⟨fun _ => ⟨_, rfl, fun _ => rfl⟩, ih⟩
  | quoted body hquote _ ih => exact List.forall_mem_cons.mpr ⟨fun _ => hquoted _ body hquote, ih⟩
  | brokenString body _ _ ih =>
      refine List.forall_mem_cons.mpr ⟨by simp [isClosed], List.forall_mem_cons.mpr ⟨?_, ih⟩⟩
      exact fun _ => ⟨_, rfl, fun _ => rfl⟩
  | openString body _ => exact List.forall_mem_singleton.mpr (by simp [isClosed])
  | comment hcontent _ ih =>
      refine List.forall_mem_cons.mpr ⟨fun _ => ⟨'/', ?_, fun hslash => ?_⟩, ih⟩
      · rcases hcontent with ⟨body, rfl, -⟩
        simp [text, List.getLast?_cons]
      · exact absurd hslash (by decide)
  | openComment body => exact List.forall_mem_singleton.mpr (by simp [isClosed])

/-- Inert characters at the end of a text that leaves nothing open stand for themselves. -/
theorem lex_append_chars {quoting : Quoting} {cs back : List Char}
    (hback : ∀ c ∈ back, isInert c = true)
    (hclosed : ∀ t ∈ lex quoting (cs ++ back), t.isClosed = true) :
    lex quoting (cs ++ back) = lex quoting cs ++ back.map Token.char := by
  induction back using List.reverseRecOn with
  | nil => simp
  | append_singleton back c ih =>
      have htext : textOf (lex quoting (cs ++ (back ++ [c]))) = cs ++ back ++ [c] := by
        rw [textOf, flatMap_text_lex, List.append_assoc]
      have hproper := proper_lex quoting (cs ++ (back ++ [c]))
      rcases List.eq_nil_or_concat (lex quoting (cs ++ (back ++ [c]))) with hnil | ⟨init, t, hinit⟩
      · simp [hnil] at htext
      · rw [List.concat_eq_append] at hinit
        have ht : t ∈ lex quoting (cs ++ (back ++ [c])) := by simp [hinit]
        have hsplit := lex_textOf hinit fun u hu => hclosed u (by simp [hinit, hu])
        rcases hproper.exists_getLast? t ht (hclosed t ht) with ⟨d, hd, hchar⟩
        have hlast : d = c := by
          have := congrArg List.getLast? htext
          simpa [hinit, hd, List.getLast?_append] using this
        obtain rfl : t = .char c := hlast ▸ hchar (hlast ▸ hback c (by simp))
        have hfront : textOf init = cs ++ back := by
          rw [hinit, textOf, List.flatMap_append] at htext
          exact List.append_cancel_right htext
        rw [hfront] at hsplit
        rw [hinit, ← hsplit.1, ih fun e he => hback e (by simp [he])]
        · simp
        · rw [hsplit.1]
          exact fun u hu => hclosed u (by simp [hinit, hu])

/-! ## Line feeds in strings -/

/-- A string that is being read becomes a token with all that was read of it. -/
theorem exists_quoted_mem_lexFrom (quoting : Quoting) (quote : Char) {read : List Char} {c : Char}
    (hc : c ∈ read) (cs : List Char) :
    ∃ content closed, .quoted content closed ∈ lexFrom quoting (.inString quote read) cs ∧
      c ∈ content := by
  generalize hmode : Mode.inString quote read = mode
  fun_induction lexFrom quoting mode cs generalizing read with
  | case8 _ read =>
      obtain ⟨rfl, rfl⟩ := Mode.inString.inj hmode
      exact ⟨_, _, List.mem_singleton_self _, by simpa using hc⟩
  | case9 _ read d cs ih =>
      obtain ⟨rfl, rfl⟩ := Mode.inString.inj hmode
      exact ih (by simp [hc]) rfl
  | case10 read d cs _ ih =>
      obtain ⟨rfl, rfl⟩ := Mode.inString.inj hmode
      exact ⟨_, _, List.mem_cons_self, by simp [hc]⟩
  | case11 _ read d cs _ _ _ ih =>
      obtain ⟨rfl, rfl⟩ := Mode.inString.inj hmode
      exact ⟨_, _, List.mem_cons_self, by simpa using hc⟩
  | case12 _ read d cs _ _ _ ih =>
      obtain ⟨rfl, rfl⟩ := Mode.inString.inj hmode
      exact ih (by simp [hc]) rfl
  | _ => cases hmode

/-- Where no string has a line feed in it, it makes no difference what a line feed does there. -/
theorem lexFrom_singleLine {mode : Mode} {cs : List Char}
    (h : ∀ content closed, .quoted content closed ∈ lexFrom .spanning mode cs → '\n' ∉ content) :
    lexFrom .singleLine mode cs = lexFrom .spanning mode cs := by
  generalize hquoting : Quoting.spanning = quoting at h ⊢
  fun_induction lexFrom quoting mode cs with
  | case1 => rfl
  | case2 cs ih => rw [lexFrom, ih h]
  | case3 c cs hstart hquote ih =>
      rw [lexFrom, if_pos hquote, ih h]
      exact hstart
  | case4 c cs hstart hquote ih =>
      rw [lexFrom, if_neg hquote, ih fun content closed ht => h content closed (by simp [ht])]
      exact hstart
  | case5 read => rfl
  | case6 read cs ih => rw [lexFrom, ih fun content closed ht => h content closed (by simp [ht])]
  | case7 read c cs hopen ih =>
      rw [lexFrom, ih h]
      exact hopen
  | case8 quote read => rfl
  | case9 quote read c cs ih => rw [lexFrom, ih h]
  | case10 read c cs hescape ih =>
      rw [lexFrom, if_pos rfl, ih fun content closed ht => h content closed (by simp [ht])]
      exact hescape
  | case11 quote read c cs hescape hquote hbreak ih => simp [← hquoting] at hbreak
  | case12 quote read c cs hescape hquote hbreak ih =>
      have hfeed : c ≠ '\n' := by
        rintro rfl
        rcases exists_quoted_mem_lexFrom quoting quote (List.mem_cons_self (a := '\n') (l := read))
          cs with ⟨content, closed, hmem, hfeed⟩
        exact h content closed hmem hfeed
      rw [lexFrom, if_neg hquote, if_neg (by simp [hfeed]), ih h]
      exact hescape

/-- Where no string has a line feed, it does not matter what one does inside a string. -/
theorem lex_singleLine {cs : List Char}
    (h : ∀ content closed, .quoted content closed ∈ lex .spanning cs → '\n' ∉ content) :
    lex .singleLine cs = lex .spanning cs :=
  lexFrom_singleLine h

end Token
end StyleAtlas
