import Mathlib.Data.List.TakeWhile
import StyleAtlas.Proofs.Hint.ByteLexers
import StyleAtlas.Proofs.Hint.Segments

/-!
# The bytes of tokens

All characters that mean something to a scanner are ASCII and take one byte, and the bytes of other
characters are none of them.  So what a scanner reads byte by byte is what is read of the text
character by character: it ends a comment or a string where the token ends, even where it jumps into
a character behind a backslash, and runs of blanks and names end between characters.

Main results:

- Definition `Hint.Alike`, Theorem `Hint.exists_byte?`: the bytes of a character.
- Theorem `Hint.spanEnd_eq`: runs of bytes are runs of characters.
- Definition `Hint.Meets`, Theorem `Hint.meets`: comments and strings are skipped as tokens.
- Theorem `Hint.exists_skipTrivia_eq`: blanks and comments are skipped as tokens.
-/

namespace StyleAtlas
namespace Hint

open Text
open Token (lex lexFrom)

/-! ## Bytes of a character -/

/-- What a byte looks like, and the character it is a byte of: both the same, or both outside
ASCII. -/
def Alike (d c : Char) : Prop :=
  d = c ∨ (0x80 ≤ d.toNat ∧ 0x80 ≤ c.toNat)

namespace Alike

variable {d c : Char}

/-- A byte is a certain character of ASCII where its own character is. -/
theorem eq_iff (h : Alike d c) {k : Char} (hk : k.toNat < 0x80) : d = k ↔ c = k := by
  rcases h with rfl | ⟨hd, hc⟩
  · exact Iff.rfl
  · constructor
    · rintro rfl
      omega
    · rintro rfl
      omega

/-- Each byte of a character outside ASCII lies outside ASCII. -/
theorem wide (h : Alike d c) (hc : 0x80 ≤ c.toNat) : 0x80 ≤ d.toNat := by
  rcases h with rfl | ⟨hd, -⟩
  · exact hc
  · exact hd

/-- A class of characters that all characters outside ASCII are in, or none, does not tell a byte
from its character. -/
theorem inClass_eq (h : Alike d c) {inClass : Char → Bool} {outside : Bool}
    (hclass : ∀ c : Char, 0x80 ≤ c.toNat → inClass c = outside) : inClass d = inClass c := by
  rcases h with rfl | ⟨hd, hc⟩
  · rfl
  · rw [hclass d hd, hclass c hc]

end Alike

/-- All that lies outside ASCII belongs to names. -/
theorem isNameChar_of_le {c : Char} (h : 0x80 ≤ c.toNat) : isNameChar c = true := by
  simp [isNameChar, h]

/-- Plain blanks lie in ASCII. -/
theorem isPlainBlank_of_le {c : Char} (h : 0x80 ≤ c.toNat) : isPlainBlank c = false := by
  simp only [isPlainBlank, Bool.or_eq_false_iff, beq_eq_false_iff_ne]
  omega

/-- Nothing outside ASCII is a quote. -/
theorem isQuote_of_le {c : Char} (h : 0x80 ≤ c.toNat) : Token.isQuote c = false := by
  simp only [Token.isQuote, Bool.or_eq_false_iff, beq_eq_false_iff_ne]
  constructor <;> rintro rfl <;> exact absurd h (by decide)

/-- Quotes lie in ASCII. -/
theorem lt_of_isQuote {c : Char} (h : Token.isQuote c = true) : c.toNat < 0x80 := by
  by_contra hle
  rw [isQuote_of_le (by omega)] at h
  exact Bool.noConfusion h

/-- A byte of the encoding of a character is like the character. -/
theorem alike_of_mem {c : Char} {b : UInt8} (hb : b ∈ String.utf8EncodeChar c) :
    Alike (Char.ofUInt8 b) c := by
  have hnat : (Char.ofUInt8 b).toNat = b.toNat := rfl
  have hvalue : c.val.toNat = c.toNat := rfl
  unfold String.utf8EncodeChar at hb
  dsimp only at hb
  split at hb
  · rename_i hlow
    rw [List.mem_singleton] at hb
    refine Or.inl (Char.toNat_inj.mp ?_)
    rw [hnat, hb, UInt8.toNat_ofNat', ← hvalue]
    omega
  · refine Or.inr ⟨?_, by omega⟩
    rw [hnat]
    split at hb
    · simp only [List.mem_cons, List.not_mem_nil, or_false] at hb
      rcases hb with rfl | rfl <;> rw [UInt8.toNat_ofNat'] <;> omega
    · split at hb
      · simp only [List.mem_cons, List.not_mem_nil, or_false] at hb
        rcases hb with rfl | rfl | rfl <;> rw [UInt8.toNat_ofNat'] <;> omega
      · simp only [List.mem_cons, List.not_mem_nil, or_false] at hb
        rcases hb with rfl | rfl | rfl | rfl <;> rw [UInt8.toNat_ofNat'] <;> omega

/-- A character of ASCII is one byte. -/
theorem utf8Size_of_lt {c : Char} (h : c.toNat < 0x80) : c.utf8Size = 1 := by
  have hlow : c.val.toNat ≤ 127 := Nat.le_of_lt_succ h
  rw [← String.length_utf8EncodeChar, String.utf8EncodeChar, if_pos hlow, List.length_singleton]

/-- An offset inside a character lies in one outside ASCII. -/
theorem le_toNat_of_inside {c : Char} {start offset : Nat} (hlt : start < offset)
    (hlt' : offset < start + c.utf8Size) : 0x80 ≤ c.toNat := by
  by_contra hascii
  have hone := utf8Size_of_lt (c := c) (by omega)
  omega

variable {text before : List Char}

/-- A byte that can be read lies before the end of the text. -/
theorem lt_of_byte? {n : Nat} {d : Char} (h : byte? (bytes text) n = some d) :
    n < byteSize text := by
  rw [← length_bytes]
  exact exists_byte?_iff.mp ⟨d, h⟩

/-- The bytes of a character are alike to it. -/
theorem exists_byte? {c : Char} {cs : List Char} (h : text = before ++ c :: cs) {n : Nat}
    (hle : byteSize before ≤ n) (hlt : n < byteSize before + c.utf8Size) :
    ∃ d, byte? (bytes text) n = some d ∧ Alike d c := by
  have hbytes : bytes text = bytes before ++ (String.utf8EncodeChar c ++ bytes cs) := by
    rw [h, bytes_append]
    rfl
  have hinside : n - byteSize before < (String.utf8EncodeChar c).length := by
    rw [String.length_utf8EncodeChar]
    omega
  have hat : (bytes text)[n]? = some (String.utf8EncodeChar c)[n - byteSize before] := by
    rw [hbytes, List.getElem?_append_right (by simpa using hle), length_bytes,
      List.getElem?_append_left hinside, List.getElem?_eq_getElem hinside]
  exact ⟨_, by rw [byte?, hat, Option.map_some], alike_of_mem (List.getElem_mem hinside)⟩

/-- A byte that is read inside a character is like the character. -/
theorem alike_of_byte? {c d : Char} {cs : List Char} (h : text = before ++ c :: cs) {n : Nat}
    (hle : byteSize before ≤ n) (hlt : n < byteSize before + c.utf8Size)
    (hd : byte? (bytes text) n = some d) : Alike d c := by
  rcases exists_byte? h hle hlt with ⟨e, he, halike⟩
  obtain rfl := Option.some.inj (he.symm.trans hd)
  exact halike

/-- A test for an ASCII character at a byte is one at the character that starts there. -/
theorem byte?_eq_some_iff {rest : List Char} (h : text = before ++ rest) {k : Char}
    (hk : k.toNat < 0x80) :
    byte? (bytes text) (byteSize before) = some k ↔ rest.head? = some k := by
  cases rest with
  | nil =>
      have hnone : byte? (bytes text) (byteSize before) = none := by
        simp [byte?_eq_none_iff, h]
      simp [hnone]
  | cons c cs =>
      have hpos := c.utf8Size_pos
      rcases exists_byte? h (Nat.le_refl _) (by omega) with ⟨d, hd, halike⟩
      rw [hd, List.head?_cons, Option.some_inj, Option.some_inj, halike.eq_iff hk]

/-- Between two characters, a comment opens where the text goes on with a slash and a star. -/
theorem opensComment_iff {rest : List Char} (h : text = before ++ rest) :
    opensComment (bytes text) (byteSize before) = true ↔ ∃ cs, rest = '/' :: '*' :: cs := by
  have hslash : '/'.utf8Size = 1 := by decide
  rw [opensComment, Bool.and_eq_true, decide_eq_true_eq, decide_eq_true_eq,
    byte?_eq_some_iff h (by decide)]
  constructor
  · rintro ⟨hfirst, hsecond⟩
    rcases List.head?_eq_some_iff.mp hfirst with ⟨tail, rfl⟩
    have hbehind : text = (before ++ ['/']) ++ tail := by simp [h]
    have hplace : byteSize before + 1 = byteSize (before ++ ['/']) := by simp [hslash]
    rw [hplace, byte?_eq_some_iff hbehind (by decide)] at hsecond
    rcases List.head?_eq_some_iff.mp hsecond with ⟨cs, rfl⟩
    exact ⟨cs, rfl⟩
  · rintro ⟨cs, rfl⟩
    have hbehind : text = (before ++ ['/']) ++ '*' :: cs := by simp [h]
    have hplace : byteSize before + 1 = byteSize (before ++ ['/']) := by simp [hslash]
    rw [hplace, byte?_eq_some_iff hbehind (by decide)]
    exact ⟨rfl, rfl⟩

/-- What does not change over any byte of a character does not change over the character. -/
theorem eq_of_char {α : Type} {f : Nat → α} {c : Char} {cs : List Char}
    (h : text = before ++ c :: cs)
    (hf : ∀ n d, byteSize before ≤ n → n < byteSize before + c.utf8Size →
      byte? (bytes text) n = some d → Alike d c → f n = f (n + 1)) :
    f (byteSize before) = f (byteSize before + c.utf8Size) := by
  refine eq_of_forall_eq_succ (Nat.le_add_right _ _) fun n hle hlt => ?_
  rcases exists_byte? h hle hlt with ⟨d, hd, halike⟩
  exact hf n d hle hlt hd halike

/-! ## Runs -/

/-- A run of bytes of a class is a run of characters of it. -/
theorem spanEnd_eq {inClass : Char → Bool} {outside : Bool}
    (hclass : ∀ c : Char, 0x80 ≤ c.toNat → inClass c = outside) {rest : List Char}
    (h : text = before ++ rest) :
    spanEnd (bytes text) inClass (byteSize before) =
      some (byteSize before + byteSize (rest.takeWhile inClass)) := by
  induction rest generalizing before with
  | nil =>
      refine loop_answer (spanRound_of_not ?_)
      intro c hc
      have hlt := lt_of_byte? hc
      simp [h] at hlt
  | cons c cs ih =>
      by_cases hc : inClass c = true
      · have hwalk : spanEnd (bytes text) inClass (byteSize before) =
            spanEnd (bytes text) inClass (byteSize before + c.utf8Size) := by
          refine eq_of_char h fun n d _ _ hd halike => ?_
          exact loop_next (spanRound_of_inClass hd (by rw [halike.inClass_eq hclass, hc]))
        have hbehind : text = (before ++ [c]) ++ cs := by simp [h]
        have hrest := ih hbehind
        rw [byteSize_append, byteSize_cons, byteSize_nil, Nat.add_zero] at hrest
        rw [hwalk, hrest, List.takeWhile_cons_of_pos hc, byteSize_cons, Nat.add_assoc]
      · have hpos := c.utf8Size_pos
        rcases exists_byte? h (Nat.le_refl _) (by omega) with ⟨d, hd, halike⟩
        rw [List.takeWhile_cons_of_neg hc]
        refine loop_answer (spanRound_of_not ?_)
        intro e he
        obtain rfl := Option.some.inj (hd.symm.trans he)
        simpa [halike.inClass_eq hclass] using hc

/-- The run at the front of a text, and what follows it. -/
theorem exists_run {inClass : Char → Bool} {outside : Bool}
    (hclass : ∀ c : Char, 0x80 ≤ c.toNat → inClass c = outside) {rest : List Char}
    (h : text = before ++ rest) :
    ∃ run more, rest = run ++ more ∧ (∀ c ∈ run, inClass c = true) ∧
      (∀ c ∈ more.head?, inClass c = false) ∧
      spanEnd (bytes text) inClass (byteSize before) = some (byteSize (before ++ run)) := by
  refine ⟨rest.takeWhile inClass, rest.dropWhile inClass, List.takeWhile_append_dropWhile.symm,
    fun c hc => by simpa using List.mem_takeWhile_imp hc, ?_, ?_⟩
  · intro c hc
    have hstop := List.head?_dropWhile_not inClass rest
    rw [hc] at hstop
    exact hstop
  · rw [spanEnd_eq hclass h, byteSize_append]

/-! ## Comments and strings -/

/-- A loop that has come to an offset inside a token ends with the token. -/
def ReadsOn (round : Nat → Option (Nat ⊕ Nat)) (before : List Char) (mode : Token.Mode)
    (cs : List Char) : Prop :=
  ∃ part back t, cs = part ++ back ∧ lexFrom .singleLine mode cs = t :: lex .singleLine back ∧
    (∀ c, t ≠ .char c) ∧ loop round (byteSize before) = some (byteSize before + byteSize part)

/-- A loop that passes over some characters of a token reads on behind them. -/
theorem ReadsOn.prepend {round : Nat → Option (Nat ⊕ Nat)} {mode mode' : Token.Mode}
    {cs : List Char} (front : List Char) (h : ReadsOn round (before ++ front) mode' cs)
    (hlex : lexFrom .singleLine mode (front ++ cs) = lexFrom .singleLine mode' cs)
    (hloop : loop round (byteSize before) = loop round (byteSize before + byteSize front)) :
    ReadsOn round before mode (front ++ cs) := by
  rcases h with ⟨part, back, t, rfl, htoken, hchar, hend⟩
  refine ⟨front ++ part, back, t, by simp, hlex.trans htoken, hchar, ?_⟩
  rw [hloop, ← byteSize_append, hend, byteSize_append, byteSize_append, Nat.add_assoc]

/-- A comment that is still open at the last byte ends with the text. -/
theorem loop_commentRound_of_le {offset : Nat} (h : byteSize text ≤ offset + 1) :
    loop (commentRound (bytes text)) offset = some (byteSize text) :=
  loop_answer (by simp [commentRound, Nat.not_lt.mpr h])

/-- In a comment, one byte is like the next unless the comment closes. -/
theorem loop_commentRound_succ {c : Char} {cs : List Char} (h : text = before ++ c :: cs)
    (hclose : ¬(c = '*' ∧ cs.head? = some '/')) :
    loop (commentRound (bytes text)) (byteSize before) =
      loop (commentRound (bytes text)) (byteSize before + c.utf8Size) := by
  refine eq_of_char h fun n d hle hlt hd halike => ?_
  by_cases hend : n + 1 < (bytes text).length
  · rcases exists_byte?_iff.mpr hend with ⟨e, he⟩
    refine loop_next ?_
    have hopen : ¬(d = '*' ∧ e = '/') := by
      rintro ⟨hstar, rfl⟩
      obtain rfl : c = '*' := (halike.eq_iff (by decide)).mp hstar
      have hsize : '*'.utf8Size = 1 := by decide
      have hbehind : text = (before ++ ['*']) ++ cs := by simp [h]
      have hplace : n + 1 = byteSize (before ++ ['*']) := by simp [hsize]; omega
      rw [hplace, byte?_eq_some_iff hbehind (by decide)] at he
      exact hclose ⟨rfl, he⟩
    simp only [commentRound, if_pos hend, hd, he, Option.bind_eq_bind, Option.bind_some,
      if_neg hopen]
  · rw [length_bytes] at hend
    rw [loop_commentRound_of_le (by omega), loop_commentRound_of_le (by omega)]

/-- Reading the bytes of a comment ends with the comment. -/
theorem readsOn_comment {cs : List Char} (h : text = before ++ cs) (read : List Char) :
    ReadsOn (commentRound (bytes text)) before (.inComment read) cs := by
  induction cs generalizing before read with
  | nil =>
      refine ⟨[], [], .comment read.reverse false, rfl, rfl, by simp, ?_⟩
      rw [loop_commentRound_of_le (by simp [h])]
      simp [h]
  | cons c cs ih =>
      by_cases hclose : c = '*' ∧ cs.head? = some '/'
      · obtain ⟨rfl, hslash⟩ := hclose
        rcases List.head?_eq_some_iff.mp hslash with ⟨back, rfl⟩
        have hstar : '*'.utf8Size = 1 := by decide
        have hslash : '/'.utf8Size = 1 := by decide
        have hbehind : text = (before ++ ['*']) ++ '/' :: back := by simp [h]
        have hplace : byteSize before + 1 = byteSize (before ++ ['*']) := by simp [hstar]
        have hc : byte? (bytes text) (byteSize before) = some '*' :=
          (byte?_eq_some_iff h (by decide)).mpr rfl
        have hd : byte? (bytes text) (byteSize before + 1) = some '/' := by
          rw [hplace]
          exact (byte?_eq_some_iff hbehind (by decide)).mpr rfl
        have hlt := lt_of_byte? hd
        refine ⟨['*', '/'], back, .comment ('/' :: '*' :: read).reverse true, rfl,
          by rw [lexFrom]; rfl, by simp, loop_answer ?_⟩
        simp [commentRound, hlt, hc, hd, hstar, hslash]
      · refine ReadsOn.prepend [c] (ih (by simp [h]) (c :: read)) ?_ ?_
        · rw [List.singleton_append, lexFrom]
          rintro others rfl rfl
          exact hclose ⟨rfl, rfl⟩
        · simpa using loop_commentRound_succ h hclose

/-- A string that is still open at the end of the text ends there. -/
theorem loop_stringRound_of_le {quote : Char} {offset : Nat} (h : byteSize text ≤ offset) :
    loop (stringRound (bytes text) quote) offset = some (byteSize text) :=
  loop_answer (by simp [stringRound, Nat.not_lt.mpr h])

/-- In a string, a byte that is no delimiter is passed over. -/
theorem stringRound_next {quote d : Char} {n : Nat} (hd : byte? (bytes text) n = some d)
    (hescape : d ≠ '\\') (hfeed : d ≠ '\n') (hquote : d ≠ quote) :
    stringRound (bytes text) quote n = some (.inl (n + 1)) := by
  have hlt := lt_of_byte? hd
  simp [stringRound, hlt, hd, hescape, hfeed, hquote]

/-- Behind a backslash, the next character is passed over, of which a jump takes the first byte
only. -/
theorem loop_stringRound_escape {quote c : Char} (hquote : quote.toNat < 0x80) {cs : List Char}
    (h : text = before ++ '\\' :: c :: cs) :
    loop (stringRound (bytes text) quote) (byteSize before) =
      loop (stringRound (bytes text) quote) (byteSize before + byteSize ['\\', c]) := by
  have hslash : '\\'.utf8Size = 1 := by decide
  have hpos := c.utf8Size_pos
  have hbehind : text = (before ++ ['\\']) ++ c :: cs := by simp [h]
  have hplace : byteSize (before ++ ['\\']) = byteSize before + 1 := by simp [hslash]
  have hd : byte? (bytes text) (byteSize before) = some '\\' :=
    (byte?_eq_some_iff h (by decide)).mpr rfl
  have hlt := lt_of_byte? hd
  have hjump : stringRound (bytes text) quote (byteSize before) =
      some (.inl (byteSize before + 2)) := by
    simp [stringRound, hlt, hd]
  have hsize : byteSize before + byteSize ['\\', c] = byteSize before + 1 + c.utf8Size := by
    simp [hslash]
    omega
  rw [loop_next hjump, hsize]
  refine eq_of_forall_eq_succ (by omega) fun n hle hn => ?_
  rcases exists_byte? hbehind (n := n) (by omega) (by omega) with ⟨d, hd, halike⟩
  -- The jump landed inside the character, so the character has more than one byte.
  have hwide : 0x80 ≤ d.toNat :=
    halike.wide (le_toNat_of_inside (show byteSize before + 1 < n by omega) (by omega))
  refine loop_next (stringRound_next hd ?_ ?_ ?_)
  · rintro rfl
    exact absurd hwide (by decide)
  · rintro rfl
    exact absurd hwide (by decide)
  · rintro rfl
    omega

/-- A backslash at the end of the text is like the end: the jump behind it goes past the end. -/
theorem loop_stringRound_last {quote : Char} (h : text = before ++ ['\\']) :
    loop (stringRound (bytes text) quote) (byteSize before) =
      loop (stringRound (bytes text) quote) (byteSize before + '\\'.utf8Size) := by
  have hslash : '\\'.utf8Size = 1 := by decide
  have hsize : byteSize text = byteSize before + 1 := by simp [h, hslash]
  have hd : byte? (bytes text) (byteSize before) = some '\\' :=
    (byte?_eq_some_iff h (by decide)).mpr rfl
  have hjump : stringRound (bytes text) quote (byteSize before) =
      some (.inl (byteSize before + 2)) := by
    simp [stringRound, lt_of_byte? hd, hd]
  rw [loop_next hjump, loop_stringRound_of_le (by omega), loop_stringRound_of_le (by omega)]

/-- Reading the bytes of a string ends with the string. -/
theorem readsOn_string {quote : Char} (hquote : Token.isQuote quote = true) {cs : List Char}
    (h : text = before ++ cs) (read : List Char) :
    ReadsOn (stringRound (bytes text) quote) before (.inString quote read) cs := by
  have hascii := lt_of_isQuote hquote
  generalize hmode : Token.Mode.inString quote read = mode
  generalize hquoting : Quoting.singleLine = quoting at *
  -- Inside a string there may be its end without a quote, an escaped character, the quote, a line
  -- feed, or any other character.
  fun_induction lexFrom quoting mode cs generalizing read before with
  | case8 _ read =>
      obtain ⟨rfl, rfl⟩ := Token.Mode.inString.inj hmode
      refine ⟨[], [], .quoted read.reverse false, rfl, rfl, by simp, ?_⟩
      rw [loop_stringRound_of_le (by simp [h])]
      simp [h]
  | case9 _ read c cs ih =>
      obtain ⟨rfl, rfl⟩ := Token.Mode.inString.inj hmode
      refine ReadsOn.prepend ['\\', c] (ih (by simp [h]) _ rfl) ?_
        (loop_stringRound_escape hascii h)
      rw [List.cons_append, List.singleton_append, lexFrom]
  | case10 read c cs hescape ih =>
      obtain ⟨rfl, rfl⟩ := Token.Mode.inString.inj hmode
      have hsize := utf8Size_of_lt hascii
      have hd : byte? (bytes text) (byteSize before) = some quote :=
        (byte?_eq_some_iff h hascii).mpr rfl
      have hlt := lt_of_byte? hd
      have hslash : quote ≠ '\\' := by
        rintro rfl
        exact absurd hquote (by decide)
      have hfeed : quote ≠ '\n' := by
        rintro rfl
        exact absurd hquote (by decide)
      refine ⟨[quote], cs, .quoted (quote :: read).reverse true, rfl, ?_, by simp,
        loop_answer ?_⟩
      · rw [lexFrom, if_pos rfl]
        · rfl
        · exact hescape
      · simp [stringRound, hlt, hd, hslash, hfeed, hsize]
  | case11 _ read c cs hescape hne hbreak ih =>
      obtain ⟨rfl, rfl⟩ := Token.Mode.inString.inj hmode
      obtain ⟨rfl, -⟩ := hbreak
      have hd : byte? (bytes text) (byteSize before) = some '\n' :=
        (byte?_eq_some_iff h (by decide)).mpr rfl
      have hlt := lt_of_byte? hd
      refine ⟨[], '\n' :: cs, .quoted read.reverse false, rfl, ?_, by simp, loop_answer ?_⟩
      · rw [lexFrom, if_neg hne, if_pos ⟨rfl, rfl⟩, Token.lex_cons _ (by decide)]
        · rfl
        · exact hescape
      · simp [stringRound, hlt, hd]
  | case12 _ read c cs hescape hne hbreak ih =>
      obtain ⟨rfl, rfl⟩ := Token.Mode.inString.inj hmode
      have hlex : lexFrom .singleLine (.inString quote read) ([c] ++ cs) =
          lexFrom .singleLine (.inString quote (c :: read)) cs := by
        rw [List.singleton_append, lexFrom, if_neg hne, if_neg (hquoting ▸ hbreak)]
        exact hescape
      refine ReadsOn.prepend [c] (ih (by simp [h]) _ rfl) hlex ?_
      have hfeed : c ≠ '\n' := fun hc => hbreak ⟨hc, hquoting.symm⟩
      by_cases hslash : c = '\\'
      · -- A backslash at the end of the text takes the scanner past the end.
        have hnil : cs = [] := by
          cases cs with
          | nil => rfl
          | cons e cs => exact absurd rfl (hescape e cs hslash)
        subst hslash hnil
        simpa using loop_stringRound_last h
      · have hwalk := eq_of_char (f := loop (stringRound (bytes text) quote)) h
          fun n d _ _ hd halike => loop_next (stringRound_next hd
            (fun hd' => hslash ((halike.eq_iff (by decide)).mp hd'))
            (fun hd' => hfeed ((halike.eq_iff (by decide)).mp hd'))
            (fun hd' => hne ((halike.eq_iff hascii).mp hd')))
        simpa using hwalk
  | _ => cases hmode

/-! ## Tokens -/

/-- What a scanner meets between two characters: the end of the text, a character that stands for
itself, or a comment or string, which it skips. -/
inductive Meets (text before : List Char) : List Char → Prop where
  | nil : Meets text before []
  | char {c : Char} {cs : List Char}
      (hlex : lex .singleLine (c :: cs) = .char c :: lex .singleLine cs)
      (hskip : ∀ n d, byteSize before ≤ n → n < byteSize before + c.utf8Size →
        byte? (bytes text) n = some d → skip? (bytes text) n d = some none) :
      Meets text before (c :: cs)
  | token {t : Token} {back : List Char} {d : Char} (hchar : ∀ c, t ≠ .char c)
      (hne : t.text ≠ []) (hlex : lex .singleLine (t.text ++ back) = t :: lex .singleLine back)
      (hd : byte? (bytes text) (byteSize before) = some d)
      (hskip : skip? (bytes text) (byteSize before) d =
        some (some (byteSize before + byteSize t.text))) :
      Meets text before (t.text ++ back)

/-- A token that was read on from behind its opening is skipped. -/
theorem meets_of_readsOn {round : Nat → Option (Nat ⊕ Nat)} {mode : Token.Mode}
    {cs : List Char} {d : Char} (h : ReadsOn round (before ++ mode.text) mode cs)
    (hne : mode.text ≠ []) (hlex : lex .singleLine (mode.text ++ cs) = lexFrom .singleLine mode cs)
    (hd : byte? (bytes text) (byteSize before) = some d)
    (hskip : skip? (bytes text) (byteSize before) d =
      (loop round (byteSize before + byteSize mode.text)).map some) :
    Meets text before (mode.text ++ cs) := by
  rcases h with ⟨part, back, t, rfl, htoken, hchar, hend⟩
  have htext : t.text = mode.text ++ part := by
    have hwhole := Token.flatMap_text_lexFrom .singleLine mode (part ++ back)
    rw [htoken, List.flatMap_cons, Token.flatMap_text_lex, ← List.append_assoc] at hwhole
    exact List.append_cancel_right hwhole
  rw [← List.append_assoc, ← htext]
  rw [← List.append_assoc, ← htext, htoken] at hlex
  refine .token hchar (by simp [htext, hne]) hlex hd ?_
  rw [hskip, ← byteSize_append, hend, htext]
  simp [Nat.add_assoc]

/-- Between two characters, a scanner meets what the next token is. -/
theorem meets {rest : List Char} (h : text = before ++ rest) : Meets text before rest := by
  cases rest with
  | nil => exact .nil
  | cons c cs =>
      by_cases hopens : ∃ back, c :: cs = '/' :: '*' :: back
      · rcases hopens with ⟨back, hback⟩
        rw [hback] at h ⊢
        have hbehind : text = (before ++ ['/', '*']) ++ back := by simp [h]
        refine meets_of_readsOn (readsOn_comment hbehind ['*', '/']) (by simp [Token.Mode.text])
          (by simp [lex, lexFrom, Token.Mode.text]) ((byte?_eq_some_iff h (by decide)).mpr rfl) ?_
        rw [skip?, if_pos ((opensComment_iff h).mpr ⟨back, rfl⟩)]
        rfl
      by_cases hquote : Token.isQuote c = true
      · have hascii := lt_of_isQuote hquote
        have hbehind : text = (before ++ [c]) ++ cs := by simp [h]
        have hd : byte? (bytes text) (byteSize before) = some c :=
          (byte?_eq_some_iff h hascii).mpr rfl
        refine meets_of_readsOn (d := c) (readsOn_string hquote hbehind [c])
          (by simp [Token.Mode.text]) ?_ hd ?_
        · rw [Token.Mode.text, List.reverse_singleton, List.singleton_append, lex, lexFrom,
            if_pos hquote]
          rintro back rfl rfl
          exact hopens ⟨back, rfl⟩
        · have hno : opensComment (bytes text) (byteSize before) = false := by
            rw [← Bool.not_eq_true, opensComment_iff h]
            exact hopens
          simp [skip?, hno, hquote, skipString, hd, utf8Size_of_lt hascii, Token.Mode.text]
      · refine .char ?_ ?_
        · rw [lex, lexFrom, if_neg hquote]
          · rfl
          · rintro back rfl rfl
            exact hopens ⟨back, rfl⟩
        · intro n d hle hlt hd
          have halike := alike_of_byte? h hle hlt hd
          have hno : opensComment (bytes text) n = false := by
            rw [← Bool.not_eq_true]
            intro hopen
            have hslash : d = '/' := by
              simp only [opensComment, hd, Bool.and_eq_true, decide_eq_true_eq] at hopen
              exact Option.some.inj hopen.1
            obtain rfl : c = '/' := (halike.eq_iff (by decide)).mp hslash
            have hone : '/'.utf8Size = 1 := by decide
            obtain rfl : n = byteSize before := by omega
            exact hopens ((opensComment_iff h).mp hopen)
          have hclass : Token.isQuote d = false := by
            rw [halike.inClass_eq fun _ => isQuote_of_le]
            simpa using hquote
          simp [skip?, hno, hclass]

/-! ## Blanks and comments -/

/-- Where nothing is skipped, no comment opens. -/
theorem opensComment_eq_false {n : Nat} {d : Char} (h : skip? (bytes text) n d = some none) :
    opensComment (bytes text) n = false := by
  by_contra hopens
  rw [skip?, if_pos (by simpa using hopens)] at h
  simp at h

/-- Among comments and strings, those that start with a slash are comments. -/
theorem isTrivia_iff {t : Token} {ts : List Token} (h : Token.Proper (t :: ts))
    (hchar : ∀ c, t ≠ .char c) : isTrivia t = true ↔ t.text.head? = some '/' := by
  have hquoted : ∀ {quote : Char}, Token.isQuote quote = true → quote ≠ '/' := by
    rintro quote hquote rfl
    exact absurd hquote (by decide)
  cases h with
  | char _ _ => exact absurd rfl (hchar _)
  | quoted body hquote _ => simp [isTrivia, Token.text, hquoted hquote]
  | brokenString body hquote _ => simp [isTrivia, Token.text, hquoted hquote]
  | openString body hquote => simp [isTrivia, Token.text, hquoted hquote]
  | comment hcontent _ =>
      rcases hcontent with ⟨body, rfl, -⟩
      simp [isTrivia, Token.text]
  | openComment body => simp [isTrivia, Token.text]

/-- Blanks in front of some tokens are dropped with the trivia behind them. -/
theorem dropWhile_blanks {blanks : List Char} (h : ∀ c ∈ blanks, isPlainBlank c = true)
    (offset : Nat) (ts : List Token) :
    (Placed.ofTokens offset (blanks.map Token.char ++ ts)).dropWhile (fun t => isTrivia t.token) =
      (Placed.ofTokens (offset + byteSize blanks) ts).dropWhile fun t => isTrivia t.token := by
  induction blanks generalizing offset with
  | nil => rfl
  | cons c blanks ih =>
      have hc : isTrivia (.char c) = true := h c List.mem_cons_self
      rw [List.map_cons, List.cons_append, Placed.ofTokens,
        List.dropWhile_cons_of_pos (by simpa using hc),
        ih fun d hd => h d (List.mem_cons_of_mem c hd)]
      simp [Token.text, Nat.add_assoc]

/-- Where no blank comes next, a comment does and is skipped, or the next token is neither. -/
theorem comment_or_neither {rest : List Char} (h : text = before ++ rest)
    (hblank : ∀ c ∈ rest.head?, isPlainBlank c = false) :
    (∃ t back, rest = t.text ++ back ∧ t.text ≠ [] ∧ isTrivia t = true ∧
        lex .singleLine rest = t :: lex .singleLine back ∧
        opensComment (bytes text) (byteSize before) = true ∧
        skipComment (bytes text) (byteSize before) = some (byteSize (before ++ t.text))) ∨
      (opensComment (bytes text) (byteSize before) = false ∧
        ∀ t ∈ (lex .singleLine rest).head?, isTrivia t = false) := by
  cases meets h with
  | nil =>
      refine Or.inr ⟨?_, by simp [lex, lexFrom]⟩
      rw [← Bool.not_eq_true, opensComment_iff h]
      simp
  | @char c cs hlex hskip =>
      have hpos := c.utf8Size_pos
      rcases exists_byte? h (Nat.le_refl _) (by omega) with ⟨d, hd, -⟩
      refine Or.inr ⟨opensComment_eq_false (hskip _ d (Nat.le_refl _) (by omega) hd), ?_⟩
      rw [hlex]
      simpa [isTrivia] using hblank
  | @token t back d hchar hne hlex hd hskip =>
      have hproper := Token.proper_lex .singleLine (t.text ++ back)
      rw [hlex] at hproper
      have hhead : t.text.head? = (t.text ++ back).head? := by
        rw [List.head?_append_of_ne_nil _ hne]
      have htrivia := isTrivia_iff hproper hchar
      rw [hhead, ← byte?_eq_some_iff h (by decide), hd, Option.some_inj] at htrivia
      by_cases hopens : opensComment (bytes text) (byteSize before) = true
      · refine Or.inl ⟨t, back, rfl, hne, ?_, hlex, hopens, ?_⟩
        · simp only [opensComment, hd, Bool.and_eq_true, decide_eq_true_eq, Option.some_inj]
            at hopens
          exact htrivia.mpr hopens.1
        · rw [skip?, if_pos hopens, Option.map_eq_some_iff] at hskip
          rcases hskip with ⟨stop, hstop, heq⟩
          rw [hstop, byteSize_append, ← Option.some.inj heq]
      · refine Or.inr ⟨by simpa using hopens, ?_⟩
        rw [skip?, if_neg hopens] at hskip
        split at hskip
        · rename_i hquote
          rw [hlex]
          rintro u hu
          obtain rfl := Option.some.inj hu
          rw [← Bool.not_eq_true, htrivia]
          rintro rfl
          exact absurd hquote (by decide)
        · simp at hskip

/-- Blanks and comments are skipped up to the first token that is neither. -/
theorem exists_skipTrivia_eq {rest : List Char} (h : text = before ++ rest) :
    ∃ gap back, rest = gap ++ back ∧
      skipTrivia (bytes text) (byteSize before) = some (byteSize (before ++ gap)) ∧
      (Placed.ofTokens (byteSize before) (lex .singleLine rest)).dropWhile
          (fun t => isTrivia t.token) =
        Placed.ofTokens (byteSize (before ++ gap)) (lex .singleLine back) := by
  induction hlength : rest.length using Nat.strong_induction_on generalizing before rest with
  | _ length ih =>
    subst hlength
    rcases exists_run (fun _ => isPlainBlank_of_le) h with
      ⟨blanks, more, rfl, hblanks, hhead, hspan⟩
    have hmore : text = (before ++ blanks) ++ more := by rw [h, List.append_assoc]
    have hinert : ∀ c ∈ blanks, Token.isInert c = true := fun c hc =>
      Token.isInert_of (P := fun c => isPlainBlank c = true) (by decide) (hblanks c hc)
    rw [Token.lex_chars_append _ hinert, dropWhile_blanks hblanks, ← byteSize_append]
    rcases comment_or_neither hmore hhead with
      ⟨t, back, rfl, hne, ht, hlex, hopens, hskip⟩ | ⟨hopens, hneither⟩
    · have hround : triviaRound (bytes text) (byteSize before) =
          some (.inl (byteSize (before ++ blanks ++ t.text))) := by
        simp only [triviaRound, hspan, hopens, hskip, Option.bind_eq_bind, Option.bind_some,
          if_true, Option.map_some]
      have hpos := List.length_pos_iff.mpr hne
      have hback : text = (before ++ blanks ++ t.text) ++ back := by simp [h]
      rcases ih back.length (by simp; omega) hback rfl with ⟨gap, back', rfl, hend, hdrop⟩
      refine ⟨blanks ++ t.text ++ gap, back', by simp, ?_, ?_⟩
      · rw [skipTrivia, loop_next hround, ← skipTrivia, hend]
        simp
      · rw [hlex, Placed.ofTokens, List.dropWhile_cons_of_pos (by simpa using ht),
          ← byteSize_append, hdrop]
        simp
    · refine ⟨blanks, more, rfl, loop_answer ?_, ?_⟩
      · simp only [triviaRound, hspan, hopens, Option.bind_eq_bind, Option.bind_some,
          Bool.false_eq_true, if_false]
      · cases hts : lex .singleLine more with
        | nil => rfl
        | cons t ts =>
            have ht := hneither t (by simp [hts])
            rw [Placed.ofTokens, List.dropWhile_cons_of_neg (by simpa using ht)]

/-- A test for the byte at an offset is a test for the first token there. -/
theorem pastByte?_eq {rest : List Char} (h : text = before ++ rest) {k : Char}
    (hk : k.toNat < 0x80) (hinert : Token.isInert k = true) :
    pastByte? (bytes text) k (byteSize before) =
      past? k (Placed.ofTokens (byteSize before) (lex .singleLine rest)) := by
  have hbyte := byte?_eq_some_iff h hk
  cases meets h with
  | nil => simp [pastByte?, hbyte, lex, lexFrom, Placed.ofTokens, past?]
  | @char c cs hlex _ => simp [pastByte?, hbyte, hlex, Placed.ofTokens, past?]
  | @token t back d hchar _ hlex hd hskip =>
      have hne : byte? (bytes text) (byteSize before) ≠ some k := by
        rw [hd]
        rintro heq
        obtain rfl := Option.some.inj heq
        simp only [Token.isInert, Bool.not_eq_true', Bool.or_eq_false_iff, beq_eq_false_iff_ne]
          at hinert
        have hopens : opensComment (bytes text) (byteSize before) = false := by
          simp [opensComment, hd, hinert.1.2]
        simp [skip?, hopens, hinert.1.1] at hskip
      simp [pastByte?, hne, hlex, Placed.ofTokens, past?, hchar k]

end Hint
end StyleAtlas
