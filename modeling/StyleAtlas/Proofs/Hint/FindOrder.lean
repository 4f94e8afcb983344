import Mathlib.Order.Bounds.Basic
import StyleAtlas.Proofs.Hint.Placement

/-!
# Searches go through a window in order

The occurrences of a signature in a window are all the places of the window at which the signature
stands outside strings and comments, a property directly inside the block, and no others.  They do
not overlap: the next one starts where the last one stops, or behind it.  So a search from the
cursor on finds the least place that is left, or else the least of all, and a scanner that enters a
rule finds every place once, in ascending order, before it finds one again.

Main results:

- Definition `Signature.ExposedAt`, Theorems `Hint.exposedAt_of_mem_occurrences`,
  `Hint.exists_mem_of_exposedAt`: the places of occurrences.
- Theorem `Hint.pairwise_occurrences`: occurrences do not overlap.
- Definition `IsNext`, Theorem `isNext_iff`: the place that comes next, and how it is searched for.
- Definition `Scanner.Splits`, Theorems `Scanner.Splits.find_ahead`, `Scanner.Splits.find_again`:
  what one search does to the occurrences behind and ahead of the cursor.
- Definition `Scanner.finds`, Theorem `Scanner.Splits.finds_eq`: searches one after the other.
- Theorem `Scanner.find_follows_places`: what a search finds, and what a fresh scanner finds.
-/

namespace StyleAtlas

open Text
open Token (textOf)

/-! ## Occurrences are all the places -/

/-- The brace depths at which a signature is looked for. -/
def Signature.FitsDepth : Signature → Nat → Prop
  | .property _, depth => depth = 1
  | .call _, _ => True

/-- A signature stands at an offset in a window, between two tokens of the text from the start of
the window on, and at a brace depth at which it is looked for. -/
structure Signature.ExposedAt (source : Source) (window : Window) (signature : Signature)
    (offset : Nat) : Prop where
  standsIn : signature.StandsIn source window offset
  exposed : ∃ front back,
    Token.lex .singleLine (charsFrom source.chars window.floor) = front ++ back ∧
      offset + byteSize (textOf back) = source.size ∧
      signature.FitsDepth (Hint.depthBehind 0 front)

namespace Hint

/-- Whether a name goes on behind some tokens. -/
def nameBehind : (inName : Bool) → List Token → Bool
  | inName, [] => inName
  | _, .char c :: ts => nameBehind (isNameChar c) ts
  | _, .quoted _ _ :: ts => nameBehind false ts
  | _, .comment _ _ :: ts => nameBehind false ts

/-- A comment or string ends a name. -/
theorem nameBehind_other {t : Token} (ht : ∀ c, t ≠ .char c) (inName : Bool) (ts : List Token) :
    nameBehind inName (t :: ts) = nameBehind false ts := by
  cases t with
  | char c => exact absurd rfl (ht c)
  | quoted content closed => rfl
  | comment content closed => rfl

/-- A name goes on behind tokens that end in a name character, and behind no others. -/
theorem exists_getLast?_of_nameBehind {inName : Bool} {ts : List Token}
    (h : nameBehind inName ts = true) :
    (ts = [] ∧ inName = true) ∨ ∃ c, (textOf ts).getLast? = some c ∧ isNameChar c = true := by
  have hcons : ∀ {t : Token} {ts : List Token}, (∃ c, (textOf ts).getLast? = some c ∧
      isNameChar c = true) → ∃ c, (textOf (t :: ts)).getLast? = some c ∧ isNameChar c = true := by
    rintro t ts ⟨c, hlast, hc⟩
    exact ⟨c, by simp [List.getLast?_append, hlast], hc⟩
  induction ts generalizing inName with
  | nil => exact Or.inl ⟨rfl, h⟩
  | cons t ts ih =>
      right
      by_cases ht : ∃ c, t = .char c
      · rcases ht with ⟨c, rfl⟩
        rcases ih h with ⟨rfl, hc⟩ | hlast
        · exact ⟨c, by simp [Token.text], hc⟩
        · exact hcons hlast
      · rw [nameBehind_other (not_exists.mp ht)] at h
        rcases ih h with ⟨-, hfalse⟩ | hlast
        · simp at hfalse
        · exact hcons hlast

/-- No name goes on behind what does not end in a name character. -/
theorem nameBehind_eq_false {inName : Bool} {before : List Char} {ts : List Token}
    (hinName : (∀ c ∈ before.getLast?, isNameChar c = false) → inName = false)
    (hlast : ∀ c ∈ (before ++ textOf ts).getLast?, isNameChar c = false) :
    nameBehind inName ts = false := by
  by_contra hname
  rcases exists_getLast?_of_nameBehind (by simpa using hname) with ⟨rfl, hends⟩ | ⟨c, hc, hends⟩
  · rw [hinName (by simpa using hlast)] at hends
    simp at hends
  · rw [hlast c (by simp [List.getLast?_append, hc])] at hends
    simp at hends

variable {signature : Signature} {ceiling : Nat}

/-- A match at a character before the ceiling with which a name starts is an occurrence. -/
theorem mem_occurrencesFrom_of_matchAt? {inName : Bool} {depth offset stop : Nat}
    {front back : List Token} {c : Char}
    (hceiling : offset + byteSize (textOf front) < ceiling) (hc : isNameChar c = true)
    (hbehind : nameBehind inName front = false)
    (hmatch : matchAt? signature (depthBehind depth front) (offset + byteSize (textOf front))
      (.char c :: back) = some stop) :
    ⟨offset + byteSize (textOf front), stop⟩ ∈ occurrencesFrom signature ceiling inName depth
      (Placed.ofTokens offset (front ++ .char c :: back)) := by
  induction front generalizing inName depth offset with
  | nil =>
      have hzero : offset + byteSize (textOf []) = offset := by simp
      rw [hzero] at hceiling hmatch ⊢
      rw [List.nil_append, occurrencesFrom_cons_char hceiling, List.mem_append, List.mem_map]
      have hstart : (isNameChar c && !inName) = true := by
        rw [hc, show inName = false from hbehind]
        rfl
      exact Or.inl ⟨stop, by rw [if_pos hstart, show matchAt? signature depth offset
        (.char c :: back) = some stop from hmatch]; simp, rfl⟩
  | cons t front ih =>
      have hsize : offset + byteSize (textOf (t :: front)) =
          offset + byteSize t.text + byteSize (textOf front) := by simp [Nat.add_assoc]
      rw [hsize] at hceiling hmatch ⊢
      by_cases ht : ∃ d, t = .char d
      · rcases ht with ⟨d, rfl⟩
        have hchar : byteSize (Token.char d).text = d.utf8Size := by simp [Token.text]
        rw [List.cons_append, occurrencesFrom_cons_char (by omega), ← hchar]
        exact List.mem_append_right _ (ih hceiling hbehind hmatch)
      · have hother := not_exists.mp ht
        rw [nameBehind_other hother] at hbehind
        rw [depthBehind_other hother] at hmatch
        rw [List.cons_append, occurrencesFrom_other hother]
        exact ih hceiling hbehind hmatch

/-! ## Places are matched -/

/-- A whole name at the front of a text is read as the name. -/
theorem matchAt?_name {written rest : List Char} (hname : ∀ c ∈ written, isNameChar c = true)
    (hends : ∀ c ∈ rest.head?, isNameChar c = false) (depth offset : Nat) :
    matchAt? signature depth offset (Token.lex .singleLine (written ++ rest)) =
      matchEnd? signature depth written
        (Placed.ofTokens (offset + byteSize written) (Token.lex .singleLine rest)) := by
  have hinert : ∀ c ∈ written, Token.isInert c = true := fun c hc =>
    isInert_of_isNameChar (hname c hc)
  have hstop : ∀ t ∈ (Token.lex .singleLine rest).head?, nameChar? t = none := by
    intro t ht
    rcases List.head?_eq_some_iff.mp ht with ⟨ts, hts⟩
    have htext := Token.flatMap_text_lex .singleLine rest
    rw [hts] at htext
    cases t with
    | char c =>
        have hc : isNameChar c = false := hends c (by simp [← htext, Token.text])
        simp [nameChar?, hc]
    | quoted content closed => rfl
    | comment content closed => rfl
  rw [Token.lex_chars_append _ hinert, matchAt?, spanName_chars hname hstop]

/-- A colon behind plain blanks and comments is found. -/
theorem past?_trivia {gap : List Char} (hgap : Trivia gap) (after : List Char) (offset : Nat) :
    past? ':' ((Placed.ofTokens offset (Token.lex .singleLine (gap ++ ':' :: after))).dropWhile
      fun t => isTrivia t.token) = some (offset + byteSize gap + 1) := by
  induction hgap generalizing offset with
  | nil =>
      have hcolon : isTrivia (.char ':') = false := by decide
      rw [List.nil_append, Token.lex_cons _ (by decide)]
      simp [Placed.ofTokens, hcolon, past?]
  | @blank c cs hc _ ih =>
      have htrivia : isTrivia (.char c) = true := hc
      have hinert : Token.isInert c = true :=
        Token.isInert_of (P := fun c => isPlainBlank c = true) (by decide) hc
      rw [List.cons_append, Token.lex_cons _ hinert, Placed.ofTokens,
        List.dropWhile_cons_of_pos (by simpa using htrivia), ih]
      simp [Token.text, Nat.add_assoc]
  | @comment content cs hcontent _ ih =>
      have htrivia : isTrivia (.comment content true) = true := rfl
      rw [List.append_assoc, Token.lex_comment _ hcontent, Placed.ofTokens,
        List.dropWhile_cons_of_pos (by simpa using htrivia), ih]
      simp [Token.text, Nat.add_assoc]

/-- What stands at an offset is matched there, in the tokens of the text from the offset on. -/
theorem exists_matchAt? {source : Source} {offset depth : Nat} {before after : List Char}
    (h : signature.StandsAt source offset) (hsplit : source.chars = before ++ after)
    (hsize : byteSize before = offset) (hdepth : signature.FitsDepth depth) :
    (∀ c ∈ before.getLast?, isNameChar c = false) ∧ (∃ c ∈ after.head?, isNameChar c = true) ∧
      ∃ stop, matchAt? signature depth offset (Token.lex .singleLine after) = some stop := by
  -- The text is cut at the offset in one way only.
  have hcut : ∀ {written rest}, NameAt source offset written rest →
      (∀ c ∈ before.getLast?, isNameChar c = false) ∧ after = written ++ rest := by
    rintro written rest hname
    rcases hname.text with ⟨front, hchars, hfront, hlast⟩
    have hfirst := splitAt?_byteSize before after
    have hsecond := splitAt?_byteSize front (written ++ rest)
    rw [← hsplit, hsize] at hfirst
    rw [← List.append_assoc, ← hchars, hfront, hfirst] at hsecond
    obtain ⟨rfl, rfl⟩ := Prod.mk.inj (Option.some.inj hsecond)
    exact ⟨hlast, rfl⟩
  have hhead : ∀ {written rest}, NameAt source offset written rest → after = written ++ rest →
      ∃ c ∈ after.head?, isNameChar c = true := by
    rintro written rest hname rfl
    rcases List.exists_cons_of_ne_nil hname.ne_nil with ⟨c, cs, rfl⟩
    exact ⟨c, rfl, hname.isName c List.mem_cons_self⟩
  cases signature with
  | property name =>
      rcases h with ⟨written, gap, rest, hname, hnames, hgap⟩
      rcases hcut hname with ⟨hlast, hafter⟩
      have hdepth' : depth = 1 := hdepth
      refine ⟨hlast, hhead hname hafter, offset + byteSize written + byteSize gap + 1, ?_⟩
      rw [hafter, matchAt?_name hname.isName hname.ends, matchEnd?,
        if_pos (by simp [hdepth', namesProperty_iff.mpr hnames])]
      exact past?_trivia hgap rest _
  | call name =>
      rcases h with ⟨written, rest, hname, hequals⟩
      rcases hcut hname with ⟨hlast, hafter⟩
      refine ⟨hlast, hhead hname hafter, offset + byteSize written + 1, ?_⟩
      rw [hafter, matchAt?_name hname.isName hname.ends, matchEnd?, if_pos hequals,
        Token.lex_cons _ (by decide)]
      simp [Placed.ofTokens, past?]

variable {source : Source} {window : Window}

/-- The search reads the text from the start of the window on. -/
theorem occurrences_eq {before : List Char}
    (h : source.chars = before ++ charsFrom source.chars window.floor) :
    occurrences source window signature =
      occurrencesFrom signature window.ceiling (nameEndsAt source.chars window.floor) 0
        (Placed.ofTokens (byteSize before)
          (Token.lex .singleLine (charsFrom source.chars window.floor))) := by
  rw [occurrences, tokensFrom_charsFrom h]

/-- The occurrences of a signature start at places at which it is exposed. -/
theorem exposedAt_of_mem_occurrences {m : Occurrence}
    (hm : m ∈ occurrences source window signature) :
    signature.ExposedAt source window m.start := by
  rcases exists_eq_append_charsFrom source.chars window.floor with ⟨before, hchars, -⟩
  refine ⟨standsIn_of_mem_occurrences hm, ?_⟩
  rw [occurrences_eq hchars] at hm
  rcases exists_matchAt?_of_mem hm with ⟨front, c, back, hsplit, hplace, hmatch⟩
  refine ⟨front, .char c :: back, hsplit, ?_, ?_⟩
  · have htext := Token.flatMap_text_lex .singleLine (charsFrom source.chars window.floor)
    have hsize := congrArg byteSize hchars
    rw [← htext, hsplit, List.flatMap_append, byteSize_append, byteSize_append] at hsize
    rw [Source.size, hsize, hplace, Nat.add_assoc]
  · cases signature with
    | property name => exact (matchAt?_property hmatch).1
    | call name => trivial

/-- A signature that is exposed at a place has an occurrence there. -/
theorem exists_mem_of_exposedAt {p : Nat} (h : signature.ExposedAt source window p) :
    ∃ m ∈ occurrences source window signature, m.start = p := by
  rcases exists_eq_append_charsFrom source.chars window.floor with ⟨before, hchars, hbefore⟩
  rcases h with ⟨⟨-, hceiling, hstands⟩, front, back, hsplit, hback, hdepth⟩
  have htext := Token.flatMap_text_lex .singleLine (charsFrom source.chars window.floor)
  rw [hsplit, List.flatMap_append, ← textOf, ← textOf] at htext
  have hsource : source.chars = before ++ textOf front ++ textOf back := by
    rw [List.append_assoc, htext]
    exact hchars
  have hplace : byteSize (before ++ textOf front) = p := by
    have hsize := congrArg byteSize hsource
    rw [byteSize_append] at hsize
    rw [Source.size] at hback
    omega
  rcases exists_matchAt? hstands hsource hplace hdepth with ⟨hlast, ⟨c, hhead, hc⟩, stop, hmatch⟩
  -- The tokens behind the place start with the first character of the name.
  have hlex := Token.lex_textOf_append hsplit
  rcases List.head?_eq_some_iff.mp hhead with ⟨cs, hcs⟩
  have hcons : back = .char c :: Token.lex .singleLine cs := by
    rw [← hlex, hcs, Token.lex_cons _ (isInert_of_isNameChar hc)]
  have hrest : charsFrom source.chars window.floor ≠ [] := by
    rw [← htext, hcs]
    simp
  have hbehind := nameBehind_eq_false (hbefore hrest).2.mpr hlast
  rw [byteSize_append] at hplace
  rw [hlex, hcons, ← hplace] at hmatch
  rw [← hplace] at hceiling
  rw [occurrences_eq hchars, hsplit, hcons]
  exact ⟨_, mem_occurrencesFrom_of_matchAt? hceiling hc hbehind hmatch, hplace⟩

/-! ## Occurrences do not overlap -/

/-- Behind a character with which a name starts, all occurrences start behind the name. -/
theorem exists_of_mem_behind_name {depth offset : Nat} {ts : List Token} {m : Occurrence}
    (hm : m ∈ occurrencesFrom signature ceiling true depth (Placed.ofTokens offset ts)) :
    ∃ place rest inName depth', (spanName (Placed.ofTokens offset ts)).2 =
        Placed.ofTokens place rest ∧
      m ∈ occurrencesFrom signature ceiling inName depth' (Placed.ofTokens place rest) := by
  induction ts generalizing offset depth with
  | nil => simp [Placed.ofTokens, occurrencesFrom] at hm
  | cons t ts ih =>
      by_cases ht : ∃ c, t = .char c ∧ isNameChar c = true
      · rcases ht with ⟨c, rfl, hc⟩
        have hspan : (spanName (Placed.ofTokens offset (.char c :: ts))).2 =
            (spanName (Placed.ofTokens (offset + c.utf8Size) ts)).2 := by
          simp [Placed.ofTokens, spanName, nameChar?, hc, Token.text]
        by_cases hceiling : ceiling ≤ offset
        · simp [occurrencesFrom_of_ceiling_le hceiling] at hm
        rw [occurrencesFrom_cons_char (by omega), hc] at hm
        rw [hspan]
        exact ih (by simpa using hm)
      · have hname : nameChar? t = none := by
          cases t with
          | char c => simpa [nameChar?] using ht
          | quoted content closed => rfl
          | comment content closed => rfl
        exact ⟨offset, t :: ts, true, depth, by simp [Placed.ofTokens, spanName, hname], hm⟩

/-- In front of tokens that are not trivial there are no occurrences. -/
theorem exists_of_mem_behind_trivia {inName : Bool} {depth offset : Nat} {ts : List Token}
    {m : Occurrence}
    (hm : m ∈ occurrencesFrom signature ceiling inName depth (Placed.ofTokens offset ts)) :
    ∃ place rest inName' depth',
      (Placed.ofTokens offset ts).dropWhile (fun t => isTrivia t.token) =
        Placed.ofTokens place rest ∧
      m ∈ occurrencesFrom signature ceiling inName' depth' (Placed.ofTokens place rest) := by
  induction ts generalizing inName offset depth with
  | nil => simp [Placed.ofTokens, occurrencesFrom] at hm
  | cons t ts ih =>
      by_cases ht : isTrivia t = true
      · rw [Placed.ofTokens, List.dropWhile_cons_of_pos (by simpa using ht)]
        cases t with
        | char c =>
            rw [occurrencesFrom_char (isNameChar_of_isPlainBlank ht)] at hm
            exact ih (by simpa [Token.text] using hm)
        | quoted content closed => simp [isTrivia] at ht
        | comment content closed =>
            rw [occurrencesFrom_other (by simp)] at hm
            exact ih hm
      · refine ⟨offset, t :: ts, inName, depth, ?_, hm⟩
        rw [Placed.ofTokens, List.dropWhile_cons_of_neg (by simpa using ht)]

/-- Occurrences start behind a character that belongs to no name. -/
theorem stop_le_of_past? {c : Char} (hc : isNameChar c = false) {inName : Bool}
    {depth offset stop : Nat} {ts : List Token} {m : Occurrence}
    (hpast : past? c (Placed.ofTokens offset ts) = some stop)
    (hm : m ∈ occurrencesFrom signature ceiling inName depth (Placed.ofTokens offset ts)) :
    stop ≤ m.start := by
  cases ts with
  | nil => simp [Placed.ofTokens, past?] at hpast
  | cons t ts =>
      simp only [Placed.ofTokens, past?] at hpast
      split at hpast
      · rename_i ht
        obtain rfl : t = .char c := ht
        rw [occurrencesFrom_char hc] at hm
        have hstart := le_start_of_mem_occurrencesFrom hm
        have hpos := c.utf8Size_pos
        have hstop := Option.some.inj hpast
        omega
      · simp at hpast

/-- Behind the start of an occurrence, the others start where it stops or further behind. -/
theorem stop_le_of_matchAt? {depth depth' offset stop : Nat} {c : Char} {ts : List Token}
    {m : Occurrence} (hc : isNameChar c = true)
    (hmatch : matchAt? signature depth offset (.char c :: ts) = some stop)
    (hm : m ∈ occurrencesFrom signature ceiling true depth'
      (Placed.ofTokens (offset + c.utf8Size) ts)) : stop ≤ m.start := by
  have hspan : (spanName (Placed.ofTokens offset (.char c :: ts))).2 =
      (spanName (Placed.ofTokens (offset + c.utf8Size) ts)).2 := by
    simp [Placed.ofTokens, spanName, nameChar?, hc, Token.text]
  rcases exists_of_mem_behind_name hm with ⟨place, rest, inName, depth'', hrest, hm⟩
  rw [matchAt?, hspan, hrest] at hmatch
  cases signature with
  | property name =>
      simp only [matchEnd?] at hmatch
      split at hmatch
      · rcases exists_of_mem_behind_trivia hm with ⟨place, rest, _, _, hdrop, hm⟩
        rw [hdrop] at hmatch
        exact stop_le_of_past? (by decide) hmatch hm
      · simp at hmatch
  | call name =>
      simp only [matchEnd?] at hmatch
      split at hmatch
      · exact stop_le_of_past? (by decide) hmatch hm
      · simp at hmatch

/-- Occurrences among some tokens do not overlap, and stand in order. -/
theorem pairwise_occurrencesFrom (inName : Bool) (depth offset : Nat) (ts : List Token) :
    (occurrencesFrom signature ceiling inName depth (Placed.ofTokens offset ts)).Pairwise
      fun m n => m.stop ≤ n.start := by
  induction ts generalizing inName depth offset with
  | nil => exact List.Pairwise.nil
  | cons t ts ih =>
      by_cases hceiling : ceiling ≤ offset
      · rw [occurrencesFrom_of_ceiling_le hceiling]
        exact List.Pairwise.nil
      by_cases ht : ∃ c, t = .char c
      · rcases ht with ⟨c, rfl⟩
        rw [occurrencesFrom_cons_char (by omega), List.pairwise_append]
        refine ⟨?_, ih _ _ _, ?_⟩
        · split
          · cases matchAt? signature depth offset (.char c :: ts) <;> simp
          · simp
        · intro m hm n hn
          rcases List.mem_map.mp hm with ⟨stop, hstop, rfl⟩
          split at hstop
          · rename_i hstart
            rw [Bool.and_eq_true] at hstart
            rw [hstart.1] at hn
            exact stop_le_of_matchAt? hstart.1 (by simpa using hstop) hn
          · simp at hstop
      · rw [occurrencesFrom_other (not_exists.mp ht)]
        exact ih _ _ _

/-- Each occurrence stops before the next one starts, or where it starts. -/
theorem pairwise_occurrences (source : Source) (window : Window) (signature : Signature) :
    (occurrences source window signature).Pairwise fun m n => m.stop ≤ n.start :=
  pairwise_occurrencesFrom _ _ _ _

/-- The places of the occurrences of a signature. -/
def starts (source : Source) (window : Window) (signature : Signature) : List Nat :=
  (occurrences source window signature).map Occurrence.start

/-- A signature has an occurrence exactly where it is exposed. -/
theorem mem_starts_iff {p : Nat} :
    p ∈ starts source window signature ↔ signature.ExposedAt source window p := by
  rw [starts, List.mem_map]
  constructor
  · rintro ⟨m, hm, rfl⟩
    exact exposedAt_of_mem_occurrences hm
  · exact exists_mem_of_exposedAt

/-- The places of a signature ascend. -/
theorem pairwise_starts (source : Source) (window : Window) (signature : Signature) :
    (starts source window signature).Pairwise (· < ·) := by
  rw [starts, List.pairwise_map]
  refine List.Pairwise.imp_of_mem ?_ (pairwise_occurrences source window signature)
  intro m n hm _ hle
  exact Nat.lt_of_lt_of_le (start_lt_stop hm) hle

end Hint

/-! ## One search -/

/-- The least of some places from a bound on, or the least of all where none is left there. -/
def IsNext (places : Set Nat) (bound p : Nat) : Prop :=
  IsLeast {q ∈ places | bound ≤ q} p ∨ {q ∈ places | bound ≤ q} = ∅ ∧ IsLeast places p

/-- There is one next place at most. -/
theorem IsNext.unique {places : Set Nat} {bound p q : Nat} (hp : IsNext places bound p)
    (hq : IsNext places bound q) : p = q := by
  rcases hp with hp | ⟨hempty, hp⟩
  · rcases hq with hq | ⟨hempty, -⟩
    · exact hp.unique hq
    · exact absurd hp.1 (by simp [hempty])
  · rcases hq with hq | ⟨-, hq⟩
    · exact absurd hq.1 (by simp [hempty])
    · exact hp.unique hq

section Ascending

variable {places : List Nat} {bound p : Nat}

/-- The first member of an ascending list is its least. -/
theorem isLeast_of_head? (h : places.Pairwise (· < ·)) (hp : places.head? = some p) :
    IsLeast {q | q ∈ places} p := by
  rcases List.head?_eq_some_iff.mp hp with ⟨rest, rfl⟩
  refine ⟨List.mem_cons_self, fun q hq => ?_⟩
  rcases List.mem_cons.mp hq with rfl | hq
  · exact Nat.le_refl _
  · exact Nat.le_of_lt ((List.pairwise_cons.mp h).1 q hq)

/-- The first member of an ascending list that is not less than a bound is the least of these. -/
theorem isLeast_of_find? (h : places.Pairwise (· < ·))
    (hp : places.find? (fun q => decide (bound ≤ q)) = some p) :
    IsLeast {q ∈ {q | q ∈ places} | bound ≤ q} p := by
  rcases List.find?_eq_some_iff_append.mp hp with ⟨hbound, front, back, rfl, hfront⟩
  refine ⟨⟨by simp, by simpa using hbound⟩, ?_⟩
  rintro q ⟨hq, hle⟩
  rcases List.mem_append.mp hq with hq | hq
  · have hlt := hfront q hq
    simp only [Bool.not_eq_true', decide_eq_false_iff_not] at hlt
    exact absurd hle hlt
  · exact (isLeast_of_head? (List.pairwise_append.mp h).2.1 rfl).2 hq

/-- The first member that is not less than a bound, or else the first of all, is the next. -/
theorem isNext_iff (h : places.Pairwise (· < ·)) :
    (places.find? fun q => decide (bound ≤ q)).or places.head? = some p ↔
      IsNext {q | q ∈ places} bound p := by
  have hnext : ∀ {p}, (places.find? fun q => decide (bound ≤ q)).or places.head? = some p →
      IsNext {q | q ∈ places} bound p := by
    intro p hp
    rcases Option.or_eq_some_iff.mp hp with hp | ⟨hnone, hp⟩
    · exact Or.inl (isLeast_of_find? h hp)
    · refine Or.inr ⟨Set.eq_empty_of_forall_notMem ?_, isLeast_of_head? h hp⟩
      rintro q ⟨hq, hle⟩
      simpa [hle] using List.find?_eq_none.mp hnone q hq
  refine ⟨hnext, fun hp => ?_⟩
  have hmem : p ∈ places := by
    rcases hp with hp | ⟨-, hp⟩
    · exact hp.1.1
    · exact hp.1
  rcases List.exists_cons_of_ne_nil (List.ne_nil_of_mem hmem) with ⟨q, rest, rfl⟩
  cases hfound : ((q :: rest).find? fun q => decide (bound ≤ q)).or (q :: rest).head? with
  | some found => rw [(hnext hfound).unique hp]
  | none => simp at hfound

end Ascending

namespace Scanner

variable {s : Scanner} {source : Source} {signature : Signature}

/-- A search answers the first place from the cursor on, or else the first of all. -/
theorem find_fst (s : Scanner) (source : Source) (signature : Signature) :
    (s.find source signature).1 =
      ((Hint.starts source (s.window source) signature).find? fun p => decide (s.cursor ≤ p)).or
        (Hint.starts source (s.window source) signature).head? := by
  have hfirst : (Hint.starts source (s.window source) signature).find?
        (fun p => decide (s.cursor ≤ p)) =
      ((Hint.occurrences source (s.window source) signature).find? fun m =>
        decide (s.cursor ≤ m.start)).map Occurrence.start := List.find?_map
  have hnext : (s.find source signature).1 =
      (s.next? source signature).map Occurrence.start := by
    rw [find]
    cases s.next? source signature <;> rfl
  rw [hnext, hfirst, Hint.starts, List.head?_map, next?]
  cases (Hint.occurrences source (s.window source) signature).find? fun m =>
      decide (s.cursor ≤ m.start) with
  | some m => rfl
  | none => rfl

/-- A search moves the cursor forward only, and keeps the windows. -/
theorem le_cursor_find (s : Scanner) (source : Source) (signature : Signature) :
    s.cursor ≤ (s.find source signature).2.cursor ∧
      (s.find source signature).2.windows = s.windows := by
  unfold find
  split
  · exact ⟨Nat.le_max_left _ _, rfl⟩
  · exact ⟨Nat.le_refl _, rfl⟩

/-! ## Searches one after the other -/

/-- The answers to searches for one signature, one after the other. -/
def finds (source : Source) (signature : Signature) : Nat → Scanner → List (Option Nat)
  | 0, _ => []
  | n + 1, s => (s.find source signature).1 :: finds source signature n (s.find source signature).2

/-- The cursor splits the occurrences in the window into those behind it and those ahead. -/
structure Splits (s : Scanner) (source : Source) (signature : Signature)
    (behind ahead : List Occurrence) : Prop where
  all : Hint.occurrences source (s.window source) signature = behind ++ ahead
  stop_le : ∀ m ∈ behind, m.stop ≤ s.cursor
  le_start : ∀ m ∈ ahead, s.cursor ≤ m.start

/-- All occurrences lie ahead of a scanner that has just entered a rule. -/
theorem splits_openBlock (s : Scanner) (source : Source) (start : Nat) (signature : Signature) :
    (s.openBlock source start).Splits source signature []
      (Hint.occurrences source ((s.openBlock source start).window source) signature) :=
  ⟨rfl, by simp, fun _ hm => (Hint.standsIn_of_mem_occurrences hm).floor_le⟩

namespace Splits

variable {behind ahead : List Occurrence} {m : Occurrence}

/-- A search finds the first of the occurrences ahead, and leaves it behind. -/
theorem find_ahead (h : s.Splits source signature behind (m :: ahead)) :
    (s.find source signature).1 = some m.start ∧
      (s.find source signature).2.Splits source signature (behind ++ [m]) ahead := by
  have hmem : ∀ n ∈ behind ++ m :: ahead, n.start < n.stop := fun n hn =>
    Hint.start_lt_stop (h.all ▸ hn)
  have hlt : m.start < m.stop := hmem m (by simp)
  have hcursor : s.cursor ≤ m.start := h.le_start m List.mem_cons_self
  have hnext : s.next? source signature = some m := by
    have hbehind : behind.find? (fun n => decide (s.cursor ≤ n.start)) = none := by
      rw [List.find?_eq_none]
      intro n hn
      have := h.stop_le n hn
      have := hmem n (by simp [hn])
      simp
      omega
    simp [next?, h.all, List.find?_append, hbehind, hcursor]
  have hfind : s.find source signature = (some m.start, { s with cursor := m.stop }) := by
    rw [find, hnext]
    simp only [Nat.max_eq_right (Nat.le_of_lt (Nat.lt_of_le_of_lt hcursor hlt))]
  have hpairwise := Hint.pairwise_occurrences source (s.window source) signature
  rw [h.all, List.pairwise_append, List.pairwise_cons] at hpairwise
  rw [hfind]
  refine ⟨rfl, ?_, ?_, hpairwise.2.1.1⟩
  · rw [List.append_assoc]
    exact h.all
  · intro n hn
    rcases List.mem_append.mp hn with hn | hn
    · exact Nat.le_trans (h.stop_le n hn) (by simp; omega)
    · rw [List.mem_singleton.mp hn]

/-- Where none is ahead, a search starts over, and leaves the scanner as it is. -/
theorem find_again (h : s.Splits source signature behind []) :
    s.find source signature = ((behind.map Occurrence.start).head?, s) := by
  have hnone : behind.find? (fun n => decide (s.cursor ≤ n.start)) = none := by
    rw [List.find?_eq_none]
    intro n hn
    have hmem : n ∈ Hint.occurrences source (s.window source) signature := by simp [h.all, hn]
    have hlt := Hint.start_lt_stop hmem
    have := h.stop_le n hn
    simp
    omega
  have hnext : s.next? source signature = behind.head? := by
    simp [next?, h.all, hnone]
  rw [find, hnext]
  cases behind with
  | nil => rfl
  | cons n behind =>
      have hcursor := h.stop_le n List.mem_cons_self
      simp [Nat.max_eq_left hcursor]

/-- Searches one after the other find what is ahead, and then the first occurrence again and
again. -/
theorem finds_eq (h : s.Splits source signature behind ahead) (n : Nat) :
    s.finds source signature n = ((ahead.map Occurrence.start).take n).map some ++
      List.replicate (n - ahead.length) ((behind ++ ahead).map Occurrence.start).head? := by
  induction n generalizing s behind ahead with
  | zero => simp [finds]
  | succ n ih =>
      cases ahead with
      | nil =>
          rw [finds, h.find_again, ih h]
          simp [List.replicate_succ]
      | cons m ahead =>
          rcases h.find_ahead with ⟨hfound, hrest⟩
          rw [finds, hfound, ih hrest]
          simp

end Splits

/-- A scanner that has just entered a rule finds the places in order, and then the first one again
and again. -/
theorem finds_openBlock (s : Scanner) (source : Source) (start : Nat) (signature : Signature)
    (n : Nat) :
    let fresh := s.openBlock source start
    let places := Hint.starts source (fresh.window source) signature
    fresh.finds source signature n =
      (places.take n).map some ++ List.replicate (n - places.length) places.head? := by
  simpa [Hint.starts] using (splits_openBlock s source start signature).finds_eq n

/-- Searches go through a window in order.  A search answers the least place from the cursor and the
start of the window on at which the signature is exposed, or else the least of all, and nothing only
where there is no such place; it never moves the cursor back.  A scanner that has just entered a
rule finds the places in ascending order, each once, and then the first one again and again. -/
theorem find_follows_places (s : Scanner) (source : Source) (signature : Signature) :
    let places := {p | signature.ExposedAt source (s.window source) p}
    let found := s.find source signature
    (∀ p, found.1 = some p ↔ IsNext places (max s.cursor (s.window source).floor) p) ∧
      (found.1 = none ↔ places = ∅) ∧
      s.cursor ≤ found.2.cursor ∧ found.2.windows = s.windows ∧
      ∀ start, let fresh := s.openBlock source start
        ∃ ascending : List Nat, ascending.Pairwise (· < ·) ∧
          (∀ p, p ∈ ascending ↔ signature.ExposedAt source (fresh.window source) p) ∧
          ∀ n, fresh.finds source signature n = (ascending.take n).map some ++
            List.replicate (n - ascending.length) ascending.head? := by
  intro places found
  have hplaces : places = {p | p ∈ Hint.starts source (s.window source) signature} :=
    Set.ext fun p => Hint.mem_starts_iff.symm
  -- All places lie in the window, so only the cursor counts.
  have hahead : {q ∈ places | max s.cursor (s.window source).floor ≤ q} =
      {q ∈ places | s.cursor ≤ q} := by
    ext q
    refine and_congr_right fun hq => ?_
    have hfloor : (s.window source).floor ≤ q := hq.standsIn.floor_le
    omega
  rcases le_cursor_find s source signature with ⟨hcursor, hwindows⟩
  refine ⟨fun p => ?_, ?_, hcursor, hwindows, fun start => ?_⟩
  · rw [find_fst, isNext_iff (Hint.pairwise_starts source (s.window source) signature), ← hplaces,
      IsNext, IsNext, hahead]
  · have hempty : places = ∅ ↔ Hint.starts source (s.window source) signature = [] := by
      rw [hplaces, Set.eq_empty_iff_forall_notMem, List.eq_nil_iff_forall_not_mem]
      rfl
    rw [find_fst, Option.or_eq_none_iff, List.head?_eq_none_iff, hempty]
    exact ⟨And.right, fun hnil => ⟨by simp [hnil], hnil⟩⟩
  · exact ⟨_, Hint.pairwise_starts source _ signature, fun p => Hint.mem_starts_iff,
      finds_openBlock s source start signature⟩

/-- A rule that sets one property twice, with a comment that looks like a third time. -/
def twiceSet : Source :=
  ⟨['{', 'b', ':', 'c', ';', '/', '*', 'b', ':', '*', '/', '-', 'v', '-', 'b', ':', 'd', '}']⟩

-- The comment is passed over, and the third search starts over.
example : (init.openBlock twiceSet 0).finds twiceSet (.property ['b']) 3 =
    [some 1, some 11, some 1] := by
  cbv

end Scanner
end StyleAtlas
