import StyleAtlas.Proofs.Hint.ByteTokens
import StyleAtlas.Proofs.Hint.FindOrder

/-!
# Scanning by bytes

Scanning the bytes of a source comes to the same as scanning its tokens: a block that is read byte
by byte ends where it ends among the tokens, and what is found in a window is the first occurrence
there, from wherever the block or the window starts, inside a name, inside a character or past the
end.

Main results:

- Theorem `Hint.charsFrom_cases`: offsets between characters and inside them.
- Theorem `Hint.readBlock_eq`: the end of a block.
- Theorem `Hint.scan_eq`: the first occurrence in a window.
-/

namespace StyleAtlas
namespace Hint

open Text
open Token (lex textOf)

/-! ## Offsets inside characters -/

/-- An offset lies behind the text, between two of its characters, or inside one. -/
theorem charsFrom_cases (cs : List Char) (offset : Nat) :
    (byteSize cs ≤ offset ∧ charsFrom cs offset = []) ∨
      (∃ before, cs = before ++ charsFrom cs offset ∧ byteSize before = offset) ∨
      ∃ before c, cs = before ++ c :: charsFrom cs offset ∧ byteSize before < offset ∧
        offset < byteSize before + c.utf8Size := by
  induction cs generalizing offset with
  | nil => exact Or.inl ⟨Nat.zero_le _, rfl⟩
  | cons c cs ih =>
      rw [charsFrom]
      by_cases hzero : offset = 0
      · rw [if_pos hzero]
        exact Or.inr (Or.inl ⟨[], rfl, hzero.symm⟩)
      rw [if_neg hzero]
      by_cases hinside : offset < c.utf8Size
      · have hrest : charsFrom cs 0 = cs := charsFrom_byteSize [] cs
        rw [Nat.sub_eq_zero_of_le (Nat.le_of_lt hinside), hrest]
        exact Or.inr (Or.inr ⟨[], c, rfl, by simp; omega, by simpa using hinside⟩)
      · rcases ih (offset - c.utf8Size) with
          ⟨hle, hnil⟩ | ⟨before, hcs, hsize⟩ | ⟨before, d, hcs, hlt, hlt'⟩
        · exact Or.inl ⟨by simp; omega, hnil⟩
        · exact Or.inr (Or.inl ⟨c :: before, congrArg (List.cons c) hcs, by simp; omega⟩)
        · exact Or.inr (Or.inr ⟨c :: before, d, congrArg (List.cons c) hcs, by simp; omega,
            by simp; omega⟩)

variable {text before : List Char}

/-- What does not change over bytes outside ASCII is the same inside a character as behind it. -/
theorem eq_of_inside {α : Type} {f : Nat → α} {c : Char} {cs : List Char}
    (h : text = before ++ c :: cs) {offset : Nat} (hlt : byteSize before < offset)
    (hlt' : offset < byteSize before + c.utf8Size)
    (hf : ∀ n d, 0x80 ≤ d.toNat → byte? (bytes text) n = some d →
      endsName? (bytes text) n = some true → f n = f (n + 1)) :
    f offset = f (byteSize (before ++ [c])) := by
  have hwide := le_toNat_of_inside hlt hlt'
  have hsize : byteSize (before ++ [c]) = byteSize before + c.utf8Size := by simp
  rw [hsize]
  refine eq_of_forall_eq_succ (Nat.le_of_lt hlt') fun n hle hn => ?_
  rcases exists_byte? h (n := n) (by omega) hn with ⟨d, hd, halike⟩
  rcases exists_byte? h (n := n - 1) (by omega) (by omega) with ⟨e, he, halike'⟩
  refine hf n d (halike.wide hwide) hd ?_
  rw [endsName?, if_neg (by omega), he, Option.map_some, isNameChar_of_le (halike'.wide hwide)]

/-- No comment and no string opens with a byte outside ASCII. -/
theorem skip?_of_le {n : Nat} {d : Char} (hd : byte? (bytes text) n = some d)
    (hwide : 0x80 ≤ d.toNat) : skip? (bytes text) n d = some none := by
  have hopens : opensComment (bytes text) n = false := by
    rw [← Bool.not_eq_true]
    intro hopen
    simp only [opensComment, hd, Bool.and_eq_true, decide_eq_true_eq, Option.some_inj] at hopen
    rw [hopen.1] at hwide
    exact absurd hwide (by decide)
  simp [skip?, hopens, isQuote_of_le hwide]

/-! ## Blocks -/

/-- The end of a block, one token at a time. -/
theorem blockEndFrom_cons_char (size braces parens offset : Nat) (c : Char) (ts : List Token) :
    blockEndFrom size braces parens (Placed.ofTokens offset (.char c :: ts)) =
      match openAfter? braces parens c with
      | some (braces, parens) =>
          blockEndFrom size braces parens (Placed.ofTokens (offset + c.utf8Size) ts)
      | none => offset + 1 := by
  have hsize : byteSize (Token.char c).text = c.utf8Size := by simp [Token.text]
  rw [Placed.ofTokens, hsize, blockEndFrom]
  split
  · rename_i hc
    obtain rfl := Token.char.inj hc
    rfl
  · rename_i hc
    obtain rfl := Token.char.inj hc
    rfl
  · rename_i hc
    obtain rfl := Token.char.inj hc
    rw [openAfter?]
    split <;> rfl
  · rename_i hc
    obtain rfl := Token.char.inj hc
    rfl
  · rename_i hc
    obtain rfl := Token.char.inj hc
    rw [openAfter?]
    split <;> rfl
  · rename_i hleft hright hend hopen hclose
    rw [openAfter?]
    · exact fun hc => hleft (by rw [hc])
    · exact fun hc => hright (by rw [hc])
    · exact fun hc => hend (by rw [hc])
    · exact fun hc => hopen (by rw [hc])
    · exact fun hc => hclose (by rw [hc])

/-- A byte outside ASCII opens and closes nothing. -/
theorem openAfter?_of_le {c : Char} (h : 0x80 ≤ c.toNat) (braces parens : Nat) :
    openAfter? braces parens c = some (braces, parens) := by
  unfold openAfter?
  split
  all_goals first | rfl | exact absurd h (by decide)

/-- A block is read on behind a comment or string in it. -/
theorem blockRound_skip {braces parens n stop : Nat} {d : Char}
    (hd : byte? (bytes text) n = some d) (hskip : skip? (bytes text) n d = some (some stop)) :
    blockRound (bytes text) ⟨braces, parens, n⟩ = some (.inl ⟨braces, parens, stop⟩) := by
  have hlt : n < (bytes text).length := exists_byte?_iff.mp ⟨d, hd⟩
  simp only [blockRound, if_pos hlt, hd, hskip, Option.bind_eq_bind, Option.bind_some]

/-- Any other byte of a block is read for what it opens or closes. -/
theorem blockRound_char (braces parens : Nat) {n : Nat} {d : Char}
    (hd : byte? (bytes text) n = some d) (hskip : skip? (bytes text) n d = some none) :
    blockRound (bytes text) ⟨braces, parens, n⟩ =
      match openAfter? braces parens d with
      | some (braces, parens) => some (.inl ⟨braces, parens, n + 1⟩)
      | none => some (.inr (n + 1)) := by
  have hlt : n < (bytes text).length := exists_byte?_iff.mp ⟨d, hd⟩
  rcases hopen : openAfter? braces parens d with _ | ⟨braces', parens'⟩ <;>
    simp only [blockRound, if_pos hlt, hd, hskip, hopen, Option.bind_eq_bind, Option.bind_some]

/-- A block that is still open at the end of the text ends there. -/
theorem loop_blockRound_of_le {braces parens n : Nat} (h : byteSize text ≤ n) :
    loop (blockRound (bytes text)) ⟨braces, parens, n⟩ = some (byteSize text) :=
  loop_answer (by simp [blockRound, Nat.not_lt.mpr h])

/-- Between two characters, reading a block on byte by byte ends where the tokens say. -/
theorem loop_blockRound {rest : List Char} (h : text = before ++ rest) (braces parens : Nat) :
    loop (blockRound (bytes text)) ⟨braces, parens, byteSize before⟩ =
      some (blockEndFrom (byteSize text) braces parens
        (Placed.ofTokens (byteSize before) (lex .singleLine rest))) := by
  -- A round may pass over a whole token, so the induction is on what is left of the text.
  induction hlength : rest.length using Nat.strong_induction_on
    generalizing before rest braces parens with
  | _ length ih =>
    subst hlength
    cases meets h with
    | nil =>
        rw [loop_blockRound_of_le (by simp [h])]
        rfl
    | @char c cs hlex hskip =>
        rw [hlex, blockEndFrom_cons_char]
        have hbehind : text = (before ++ [c]) ++ cs := by simp [h]
        have hplace : byteSize before + c.utf8Size = byteSize (before ++ [c]) := by simp
        by_cases hascii : c.toNat < 0x80
        · have hone := utf8Size_of_lt hascii
          have hd : byte? (bytes text) (byteSize before) = some c :=
            (byte?_eq_some_iff h hascii).mpr rfl
          have hround := blockRound_char braces parens hd
            (hskip _ c (Nat.le_refl _) (by omega) hd)
          cases hopen : openAfter? braces parens c with
          | none =>
              rw [hopen] at hround
              exact loop_answer hround
          | some counts =>
              rw [hopen] at hround
              rw [loop_next hround, hplace, ← ih cs.length (by simp) hbehind counts.1 counts.2 rfl,
                ← hplace, hone]
        -- The bytes of a character outside ASCII open and close nothing, one after the other.
        · have hwide : 0x80 ≤ c.toNat := by omega
          have hwalk := eq_of_char
            (f := fun n => loop (blockRound (bytes text)) ⟨braces, parens, n⟩) h
            fun n d hle hlt hd halike => loop_next (by
              rw [blockRound_char _ _ hd (hskip n d hle hlt hd),
                openAfter?_of_le (halike.wide hwide)])
          rw [openAfter?_of_le hwide]
          dsimp only at hwalk ⊢
          rw [hwalk, hplace]
          exact ih cs.length (by simp) hbehind braces parens rfl
    | @token t back d hchar hne hlex hd hskip =>
        have hpos := List.length_pos_iff.mpr hne
        rw [loop_next (blockRound_skip hd hskip), hlex, blockEndFrom_other hchar,
          ← byteSize_append]
        exact ih back.length (by simp; omega) (by simp [h]) braces parens rfl

/-- A block that is read byte by byte ends where it ends among the tokens. -/
theorem readBlock_eq (source : Source) (start : Nat) :
    readBlock (bytes source.chars) start = some (blockEnd source start) := by
  rw [readBlock]
  rcases charsFrom_cases source.chars start with
    ⟨hle, hnil⟩ | ⟨before, hsplit, rfl⟩ | ⟨before, c, hsplit, hlt, hlt'⟩
  · rw [loop_blockRound_of_le hle, blockEnd, Source.tokensFrom, hnil]
    rfl
  · rw [loop_blockRound hsplit, blockEnd, tokensFrom_charsFrom hsplit]
    rfl
  · have hbehind : source.chars = (before ++ [c]) ++ charsFrom source.chars start := by
      rw [List.append_assoc, List.singleton_append]
      exact hsplit
    rw [eq_of_inside (f := fun n => loop (blockRound (bytes source.chars)) ⟨0, 0, n⟩) hsplit hlt
      hlt', loop_blockRound hbehind, blockEnd, tokensFrom_charsFrom hbehind]
    · rfl
    · intro n d hwide hd _
      exact loop_next (by
        rw [blockRound_char _ _ hd (skip?_of_le hd hwide), openAfter?_of_le hwide])

/-! ## Names -/

/-- Whether the byte before an offset belongs to a name is told by the character before it. -/
theorem endsName?_eq {rest : List Char} (h : text = before ++ rest) :
    endsName? (bytes text) (byteSize before) = some (before.getLast?.any isNameChar) := by
  rcases List.eq_nil_or_concat before with rfl | ⟨init, c, rfl⟩
  · rfl
  · rw [List.concat_eq_append] at h ⊢
    have hsplit : text = init ++ c :: rest := by simpa using h
    have hpos := c.utf8Size_pos
    have hsize : byteSize (init ++ [c]) = byteSize init + c.utf8Size := by simp
    rcases exists_byte? hsplit (n := byteSize (init ++ [c]) - 1) (by omega) (by omega) with
      ⟨d, hd, halike⟩
    rw [endsName?, if_neg (by omega), hd, Option.map_some,
      halike.inClass_eq fun _ => isNameChar_of_le]
    simp

/-- Inside a name, every byte stands behind one of the name. -/
theorem endsName?_inside {c : Char} {cs : List Char} (h : text = before ++ c :: cs)
    (hc : isNameChar c = true) (hbefore : before.getLast?.any isNameChar = true) {n : Nat}
    (hle : byteSize before ≤ n) (hlt : n < byteSize before + c.utf8Size) :
    endsName? (bytes text) n = some true := by
  rcases Nat.eq_or_lt_of_le hle with rfl | hinside
  · rw [endsName?_eq h, hbefore]
  · rcases exists_byte? h (n := n - 1) (by omega) (by omega) with ⟨d, hd, halike⟩
    rw [endsName?, if_neg (by omega), hd, Option.map_some,
      halike.inClass_eq fun _ => isNameChar_of_le, hc]

/-- A byte of a name is no brace. -/
theorem depthAfter_of_isNameChar {c : Char} (h : isNameChar c = true) (depth : Nat) :
    depthAfter depth c = depth := by
  unfold depthAfter
  rw [if_neg, if_neg]
  · rintro rfl
    exact absurd h (by decide)
  · rintro rfl
    exact absurd h (by decide)

/-- Behind a comment or string no name goes on. -/
theorem any_isNameChar_behind {t : Token} {back : List Char} (hchar : ∀ c, t ≠ .char c)
    (hlex : lex .singleLine (t.text ++ back) = t :: lex .singleLine back) :
    ∀ c ∈ back.head?, isNameChar c = true →
      (before ++ t.text).getLast?.any isNameChar = false := by
  have hproper := Token.proper_lex .singleLine (t.text ++ back)
  have hback : textOf (lex .singleLine back) = back := Token.flatMap_text_lex .singleLine back
  rw [hlex] at hproper
  intro c hc hname
  by_cases hclosed : t.isClosed = true
  · rcases hproper.exists_getLast? t List.mem_cons_self hclosed with ⟨last, hlast, hinert⟩
    have hend : (before ++ t.text).getLast? = some last := by simp [List.getLast?_append, hlast]
    rw [hend, Option.any_some, ← Bool.not_eq_true]
    exact fun hlastName => hchar last (hinert (isInert_of_isNameChar hlastName))
  · -- Nothing but a line feed follows a token that is left open.
    generalize lex .singleLine back = ts at hproper hback
    cases hproper with
    | brokenString body _ _ =>
        obtain rfl : c = '\n' := by
          rw [← hback] at hc
          simpa [Token.text] using hc.symm
        exact absurd hname (by decide)
    | openString body _ => simp [← hback] at hc
    | openComment body => simp [← hback] at hc
    | _ => exact absurd rfl hclosed

/-! ## Signatures -/

variable {source : Source} {window : Window} {cursor : Nat} {signature : Signature}

/-- A name that was read byte by byte is cut out of the source, and what follows it is read as the
tokens behind it are. -/
theorem matchName?_eq {written back : List Char} (h : source.chars = before ++ written ++ back)
    (depth : Nat) :
    matchName? source signature depth (byteSize before) (byteSize (before ++ written)) =
      some (matchEnd? signature depth written
        (Placed.ofTokens (byteSize (before ++ written)) (lex .singleLine back))) := by
  have hcut : slice? source.chars (byteSize before) (byteSize (before ++ written)) =
      some written := by
    rw [h, byteSize_append]
    exact slice?_byteSize before written back
  rw [matchName?, hcut]
  cases signature with
  | property name =>
      dsimp only [matchEnd?]
      split
      · rcases exists_skipTrivia_eq h with ⟨gap, rest, rfl, hskip, hdrop⟩
        have hrest : source.chars = (before ++ written ++ gap) ++ rest := by simp [h]
        rw [hskip, hdrop, Option.map_some, pastByte?_eq hrest (by decide) (by decide)]
      · rfl
  | call name =>
      dsimp only [matchEnd?]
      split
      · rw [pastByte?_eq h (by decide) (by decide)]
      · rfl

/-- Inside a name there are no occurrences. -/
theorem occurrencesFrom_name {ceiling : Nat} {name : List Char}
    (hname : ∀ c ∈ name, isNameChar c = true) (depth offset : Nat) (ts : List Token) :
    occurrencesFrom signature ceiling true depth
        (Placed.ofTokens offset (name.map Token.char ++ ts)) =
      occurrencesFrom signature ceiling true depth
        (Placed.ofTokens (offset + byteSize name) ts) := by
  induction name generalizing offset with
  | nil => rfl
  | cons c name ih =>
      have hc := hname c List.mem_cons_self
      by_cases hceiling : ceiling ≤ offset
      · rw [occurrencesFrom_of_ceiling_le hceiling, occurrencesFrom_of_ceiling_le (by omega)]
      · rw [List.map_cons, List.cons_append, occurrencesFrom_cons_char (by omega), hc,
          depthAfter_of_isNameChar hc, ih fun d hd => hname d (List.mem_cons_of_mem c hd)]
        simp [Nat.add_assoc]

/-! ## Rounds of a scan -/

variable {depth n : Nat} {d : Char}

/-- A scan ends at the ceiling of its window, and at the end of the source. -/
theorem scanRound_end (h : window.ceiling ≤ n ∨ source.size ≤ n) :
    scanRound source window cursor signature ⟨depth, n⟩ = some (.inr none) := by
  have hlength : (bytes source.chars).length = source.size := length_bytes source.chars
  rw [scanRound, if_neg]
  dsimp only
  omega

/-- A scan goes on behind a comment or string. -/
theorem scanRound_skip {stop : Nat} (hlt : n < window.ceiling)
    (hd : byte? (bytes source.chars) n = some d)
    (hskip : skip? (bytes source.chars) n d = some (some stop)) :
    scanRound source window cursor signature ⟨depth, n⟩ = some (.inl ⟨depth, stop⟩) := by
  have hin : n < min window.ceiling (bytes source.chars).length :=
    Nat.lt_min.mpr ⟨hlt, exists_byte?_iff.mp ⟨d, hd⟩⟩
  simp only [scanRound, if_pos hin, hd, hskip, Option.bind_eq_bind, Option.bind_some]

/-- What stands for itself and starts no name is passed over. -/
theorem scanRound_pass (hlt : n < window.ceiling) (hd : byte? (bytes source.chars) n = some d)
    (hskip : skip? (bytes source.chars) n d = some none)
    (hname : isNameChar d = true → endsName? (bytes source.chars) n = some true) :
    scanRound source window cursor signature ⟨depth, n⟩ =
      some (.inl ⟨depthAfter depth d, n + 1⟩) := by
  have hin : n < min window.ceiling (bytes source.chars).length :=
    Nat.lt_min.mpr ⟨hlt, exists_byte?_iff.mp ⟨d, hd⟩⟩
  simp only [scanRound, if_pos hin, hd, hskip, Option.bind_eq_bind, Option.bind_some]
  by_cases hc : isNameChar d = true
  · rw [if_pos hc, hname hc]
    rfl
  · rw [if_neg hc]

/-- A name that starts is matched from the cursor on, and passed over where it does not match. -/
theorem scanRound_name {stop : Nat} {found : Option Nat} (hlt : n < window.ceiling)
    (hd : byte? (bytes source.chars) n = some d)
    (hskip : skip? (bytes source.chars) n d = some none) (hname : isNameChar d = true)
    (hends : endsName? (bytes source.chars) n = some false)
    (hspan : spanEnd (bytes source.chars) isNameChar n = some stop)
    (hmatch : matchName? source signature depth n stop = some found) :
    scanRound source window cursor signature ⟨depth, n⟩ =
      match (found.toList.map (Occurrence.mk n)).find? (cursor ≤ ·.start) with
      | some m => some (.inr (some m))
      | none => some (.inl ⟨depth, stop⟩) := by
  have hin : n < min window.ceiling (bytes source.chars).length :=
    Nat.lt_min.mpr ⟨hlt, exists_byte?_iff.mp ⟨d, hd⟩⟩
  simp only [scanRound, if_pos hin, hd, hskip, hends, hspan, depthAfter_of_isNameChar hname, hmatch,
    hname, Option.bind_eq_bind, Option.bind_some, if_true, Bool.false_eq_true, if_false]
  by_cases hcursor : cursor ≤ n
  · cases found <;> simp [hcursor]
  · cases found <;> simp [hcursor]

/-- Inside a name, a scan goes on behind the next character. -/
theorem loop_scanRound_inName {c : Char} {cs : List Char} (h : source.chars = before ++ c :: cs)
    (hc : isNameChar c = true) (hbefore : before.getLast?.any isNameChar = true)
    (hskip : ∀ n d, byteSize before ≤ n → n < byteSize before + c.utf8Size →
      byte? (bytes source.chars) n = some d → skip? (bytes source.chars) n d = some none) :
    loop (scanRound source window cursor signature) ⟨depth, byteSize before⟩ =
      loop (scanRound source window cursor signature) ⟨depth, byteSize before + c.utf8Size⟩ := by
  refine eq_of_char
    (f := fun n => loop (scanRound source window cursor signature) ⟨depth, n⟩) h ?_
  intro n d hle hn hd halike
  by_cases hceiling : window.ceiling ≤ n
  · exact (loop_answer (scanRound_end (Or.inl hceiling))).trans
      (loop_answer (scanRound_end (Or.inl (by omega)))).symm
  · have hname : isNameChar d = true := by rw [halike.inClass_eq fun _ => isNameChar_of_le, hc]
    have hround : scanRound source window cursor signature ⟨depth, n⟩ = _ :=
      scanRound_pass (Nat.lt_of_not_le hceiling) hd (hskip n d hle hn hd)
        fun _ => endsName?_inside h hc hbefore hle hn
    rw [depthAfter_of_isNameChar hname] at hround
    exact loop_next hround

/-- At the start of a name, a scan matches the name, and goes on behind it if that was in vain. -/
theorem loop_scanRound_name {c : Char} {name back : List Char}
    (h : source.chars = before ++ (c :: name ++ back)) (hlt : byteSize before < window.ceiling)
    (hname : ∀ e ∈ c :: name, isNameChar e = true) (hhead : ∀ e ∈ back.head?, isNameChar e = false)
    (hbefore : before.getLast?.any isNameChar = false)
    (hskip : ∀ n d, byteSize before ≤ n → n < byteSize before + c.utf8Size →
      byte? (bytes source.chars) n = some d → skip? (bytes source.chars) n d = some none)
    (hspan : spanEnd (bytes source.chars) isNameChar (byteSize before) =
      some (byteSize (before ++ c :: name))) :
    loop (scanRound source window cursor signature) ⟨depth, byteSize before⟩ =
      match ((matchAt? signature depth (byteSize before)
          (lex .singleLine (c :: name ++ back))).toList.map
            (Occurrence.mk (byteSize before))).find? (cursor ≤ ·.start) with
      | some m => some (some m)
      | none =>
          loop (scanRound source window cursor signature)
            ⟨depth, byteSize (before ++ c :: name)⟩ := by
  have hpos := c.utf8Size_pos
  have hsplit : source.chars = before ++ (c :: name) ++ back := by simp [h]
  rcases exists_byte? h (Nat.le_refl _) (by omega) with ⟨d, hd, halike⟩
  have hchar : isNameChar d = true := by
    rw [halike.inClass_eq fun _ => isNameChar_of_le, hname c List.mem_cons_self]
  have hends : endsName? (bytes source.chars) (byteSize before) = some false := by
    rw [endsName?_eq h, hbefore]
  have hmatch : matchName? source signature depth _ _ = _ := matchName?_eq hsplit depth
  rw [byteSize_append, ← matchAt?_name hname hhead, ← byteSize_append] at hmatch
  have hround : scanRound source window cursor signature ⟨depth, byteSize before⟩ = _ :=
    scanRound_name hlt hd (hskip _ d (Nat.le_refl _) (by omega) hd) hchar hends hspan hmatch
  split
  · rename_i m hm
    rw [hm] at hround
    exact loop_answer hround
  · rename_i hm
    rw [hm] at hround
    exact loop_next hround

/-- A scan that has come to a place between two characters finds the first occurrence from there
on. -/
theorem loop_scanRound {rest : List Char} (h : source.chars = before ++ rest) {inName : Bool}
    (hname : ∀ c ∈ rest.head?, isNameChar c = true → before.getLast?.any isNameChar = inName)
    (depth : Nat) :
    loop (scanRound source window cursor signature) ⟨depth, byteSize before⟩ =
      some ((occurrencesFrom signature window.ceiling inName depth
        (Placed.ofTokens (byteSize before) (lex .singleLine rest))).find? (cursor ≤ ·.start)) := by
  induction hlength : rest.length using Nat.strong_induction_on
    generalizing before rest inName depth with
  | _ length ih =>
    subst hlength
    by_cases hceiling : window.ceiling ≤ byteSize before
    · rw [occurrencesFrom_of_ceiling_le hceiling]
      exact loop_answer (scanRound_end (Or.inl hceiling))
    have hlt : byteSize before < window.ceiling := by omega
    cases meets h with
    | nil => exact loop_answer (scanRound_end (Or.inr (by simp [Source.size, h])))
    | @token t back d hchar hne hlex hd hskip =>
        have hpos := List.length_pos_iff.mpr hne
        rw [loop_next (scanRound_skip hlt hd hskip), hlex, occurrencesFrom_other hchar,
          ← byteSize_append]
        exact ih back.length (by simp; omega) (by simp [h]) (any_isNameChar_behind hchar hlex) depth
          rfl
    | @char c cs hlex hskip =>
        have hbehind : source.chars = (before ++ [c]) ++ cs := by simp [h]
        have hplace : byteSize before + c.utf8Size = byteSize (before ++ [c]) := by simp
        by_cases hc : isNameChar c = true
        -- A name that the window starts inside is passed over byte by byte, any other one at once.
        · cases inName with
          | true =>
              rw [loop_scanRound_inName h hc (hname c rfl hc) hskip, hlex,
                occurrencesFrom_cons_char hlt, hc, depthAfter_of_isNameChar hc, hplace]
              exact ih cs.length (by simp) hbehind (fun _ _ _ => by simpa using hc) depth rfl
          | false =>
              rcases exists_run (fun _ => isNameChar_of_le) h with
                ⟨written, back, hrest, hwritten, hhead, hspan⟩
              obtain ⟨name, rfl, rfl⟩ : ∃ name, written = c :: name ∧ cs = name ++ back := by
                cases written with
                | nil =>
                    rw [List.nil_append] at hrest
                    simp [hhead c (by simp [← hrest])] at hc
                | cons e name =>
                    obtain ⟨rfl, rfl⟩ := List.cons.inj hrest
                    exact ⟨name, rfl, rfl⟩
              have htail : ∀ e ∈ name, isNameChar e = true := fun e he =>
                hwritten e (List.mem_cons_of_mem c he)
              have hback : source.chars = (before ++ c :: name) ++ back := by simp [h]
              have hin : ∀ e ∈ back.head?, isNameChar e = true →
                  (before ++ c :: name).getLast?.any isNameChar = true :=
                fun e he hchar => by simp [hhead e he] at hchar
              have hshorter : back.length < (c :: (name ++ back)).length := by
                rw [List.length_cons, List.length_append]
                omega
              have hbehindName := ih back.length hshorter hback hin depth rfl
              have hend : byteSize before + c.utf8Size + byteSize name =
                  byteSize (before ++ c :: name) := by simp [Nat.add_assoc]
              rw [loop_scanRound_name h hlt hwritten hhead (hname c rfl hc) hskip hspan,
                hbehindName, List.cons_append, hlex, occurrencesFrom_cons_char hlt, hc,
                depthAfter_of_isNameChar hc,
                Token.lex_chars_append _ fun e he => isInert_of_isNameChar (htail e he),
                occurrencesFrom_name htail, List.find?_append, hend, Bool.not_false, Bool.and_true,
                if_pos rfl]
              split
              · rename_i hm
                rw [hm]
                rfl
              · rename_i hm
                rw [hm]
                rfl
        · have hascii : c.toNat < 0x80 := by
            by_contra hwide
            exact hc (isNameChar_of_le (by omega))
          have hone := utf8Size_of_lt hascii
          have hd : byte? (bytes source.chars) (byteSize before) = some c :=
            (byte?_eq_some_iff h hascii).mpr rfl
          have hround : scanRound source window cursor signature ⟨depth, byteSize before⟩ = _ :=
            scanRound_pass hlt hd (hskip _ c (Nat.le_refl _) (by omega) hd) fun hname =>
              absurd hname hc
          have hplace' : byteSize before + 1 = byteSize (before ++ [c]) := by rw [← hplace, hone]
          rw [loop_next hround, hlex, occurrencesFrom_char (by simpa using hc), hplace, hplace']
          exact ih cs.length (by simp) hbehind (fun _ _ _ => by simpa using hc) _ rfl

/-- Whether a name goes on from an offset is told by the character before what is left there. -/
theorem any_isNameChar_eq {offset : Nat} (h : text = before ++ charsFrom text offset) :
    ∀ c ∈ (charsFrom text offset).head?, isNameChar c = true →
      before.getLast?.any isNameChar = nameEndsAt text offset := by
  intro c hc _
  rcases exists_eq_append_charsFrom text offset with ⟨front, hsplit, hfront⟩
  obtain rfl : before = front := List.append_cancel_right (h.symm.trans hsplit)
  have hne : charsFrom text offset ≠ [] := by
    intro hnil
    simp [hnil] at hc
  rw [Bool.eq_iff_iff, ← not_iff_not, Bool.not_eq_true, Bool.not_eq_true, (hfront hne).2]
  cases before.getLast? <;> simp

/-- A scan finds the first occurrence in its window that starts at the cursor or behind it. -/
theorem scan_eq (source : Source) (window : Window) (cursor : Nat) (signature : Signature) :
    scan source window cursor signature =
      some ((occurrences source window signature).find? (cursor ≤ ·.start)) := by
  rw [scan]
  rcases charsFrom_cases source.chars window.floor with
    ⟨hle, hnil⟩ | ⟨before, hsplit, hfloor⟩ | ⟨before, c, hsplit, hlt, hlt'⟩
  · rw [occurrences, Source.tokensFrom, hnil]
    exact loop_answer (scanRound_end (Or.inr hle))
  · rw [← hfloor, loop_scanRound hsplit (any_isNameChar_eq hsplit), occurrences,
      tokensFrom_charsFrom hsplit]
  · have hbehind : source.chars = (before ++ [c]) ++ charsFrom source.chars window.floor := by
      rw [List.append_assoc, List.singleton_append]
      exact hsplit
    rw [eq_of_inside (f := fun n => loop (scanRound source window cursor signature) ⟨0, n⟩) hsplit
      hlt hlt', loop_scanRound hbehind (any_isNameChar_eq hbehind), occurrences,
      tokensFrom_charsFrom hbehind]
    intro n d hwide hd hends
    by_cases hceiling : window.ceiling ≤ n
    · exact (loop_answer (scanRound_end (Or.inl hceiling))).trans
        (loop_answer (scanRound_end (Or.inl (by omega)))).symm
    · have hround : scanRound source window cursor signature ⟨0, n⟩ = _ :=
        scanRound_pass (Nat.lt_of_not_le hceiling) hd (skip?_of_le hd hwide) fun _ => hends
      rw [depthAfter_of_isNameChar (isNameChar_of_le hwide)] at hround
      exact loop_next hround

end Hint
end StyleAtlas
