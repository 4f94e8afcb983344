import StyleAtlas.Proofs.Hint.ByteScan

/-!
# A scan stays inside its source

No loop of a scanner fails or goes on forever, whatever the source is and wherever in it the loop
starts, but for a string that would start at the very end, where no quote is left to read; neither a
scan nor a block comes to one there.  A loop ends inside the source, past its start where it skips
anything.  What a scan reports lies between characters, and so does the end of the value behind it;
a name that a scan reads starts and ends between characters.  So the name and the value can always
be cut out of the source, and no match is lost because they cannot.

Main results:

- Theorems `Hint.blockEnd_bounds` and `Hint.isBoundary_stop`: ends lie between characters.
- Theorem `Hint.exists_slice?_name`: a name can be cut out of the source.
- Theorem `Hint.exists_skipString_iff`: where a string has an end.
- Theorem `Hint.scanner_stays_inside`: where the loops of a scanner end.
-/

namespace StyleAtlas

open Text
open Token (textOf)

/-! ## Ends between characters -/

/-- The tokens behind some others are placed behind their text. -/
theorem Placed.ofTokens_append (offset : Nat) (front back : List Token) :
    Placed.ofTokens offset (front ++ back) =
      Placed.ofTokens offset front ++ Placed.ofTokens (offset + byteSize (textOf front)) back := by
  induction front generalizing offset with
  | nil => rfl
  | cons t front ih => simp [ofTokens, ih, Nat.add_assoc]

/-- A placed token stands behind the tokens before it. -/
theorem Placed.exists_of_mem {offset : Nat} {tokens : List Token} {t : Placed}
    (h : t ∈ Placed.ofTokens offset tokens) :
    ∃ front back, tokens = front ++ t.token :: back ∧
      t.offset = offset + byteSize (textOf front) := by
  induction tokens generalizing offset with
  | nil => simp [ofTokens] at h
  | cons token tokens ih =>
      rcases List.mem_cons.mp h with rfl | h
      · exact ⟨[], tokens, rfl, rfl⟩
      · rcases ih h with ⟨front, back, rfl, hoffset⟩
        exact ⟨token :: front, back, rfl, by simp [hoffset, Nat.add_assoc]⟩

/-- The place past a character lies between characters, and not before the tokens start. -/
theorem Source.isBoundary_past {source : Source} {quoting : Quoting} {start : Nat} {t : Placed}
    (ht : t ∈ source.tokensFrom quoting start) {c : Char} (hc : t.token = .char c) :
    start ≤ t.offset ∧ isBoundary source.chars (t.offset + c.utf8Size) = true := by
  rcases Hint.exists_eq_append_charsFrom source.chars start with ⟨before, hsplit, hbefore⟩
  rw [Hint.tokensFrom_charsFrom hsplit] at ht
  have hne : charsFrom source.chars start ≠ [] := by
    intro hnil
    simp [hnil, Token.lex, Token.lexFrom, Placed.ofTokens] at ht
  refine ⟨Nat.le_trans (hbefore hne).1 (Placed.le_offset_of_mem ht), ?_⟩
  rcases Placed.exists_of_mem ht with ⟨front, back, htokens, hoffset⟩
  have htext : charsFrom source.chars start = textOf (front ++ .char c :: back) := by
    rw [← hc, ← htokens, textOf, Token.flatMap_text_lex]
  rw [isBoundary_iff]
  refine ⟨before ++ textOf front ++ [c], textOf back, ?_, by simp [hoffset, Nat.add_assoc]⟩
  rw [hsplit, htext]
  simp [Token.text]

namespace Hint

/-- A block ends with the text, or past a brace or a semicolon. -/
theorem blockEndFrom_cases (size braces parens : Nat) (ts : List Placed) :
    blockEndFrom size braces parens ts = size ∨
      ∃ t ∈ ts, (t.token = .char ';' ∨ t.token = .char '}') ∧
        blockEndFrom size braces parens ts = t.offset + 1 := by
  induction ts generalizing braces parens with
  | nil => exact Or.inl rfl
  | cons t ts ih =>
      have hbehind : ∀ braces parens, blockEndFrom size braces parens ts = size ∨
          ∃ u ∈ t :: ts, (u.token = .char ';' ∨ u.token = .char '}') ∧
            blockEndFrom size braces parens ts = u.offset + 1 := by
        intro braces parens
        rcases ih braces parens with hsize | ⟨u, hu, htoken, hend⟩
        · exact Or.inl hsize
        · exact Or.inr ⟨u, List.mem_cons_of_mem t hu, htoken, hend⟩
      rw [blockEndFrom]
      split
      · exact hbehind _ _
      · exact hbehind _ _
      · rename_i htoken
        split
        · exact Or.inr ⟨t, List.mem_cons_self, Or.inl htoken, rfl⟩
        · exact hbehind _ _
      · exact hbehind _ _
      · rename_i htoken
        split
        · exact Or.inr ⟨t, List.mem_cons_self, Or.inr htoken, rfl⟩
        · exact hbehind _ _
      · exact hbehind _ _

/-- A block ends between characters, with the text or past its start. -/
theorem blockEnd_bounds (source : Source) (start : Nat) :
    isBoundary source.chars (blockEnd source start) = true ∧
      (blockEnd source start = source.size ∨ start < blockEnd source start) := by
  rcases blockEndFrom_cases source.size 0 0 (source.tokensFrom .singleLine start) with
    hsize | ⟨t, ht, htoken, hend⟩
  · rw [blockEnd, hsize]
    exact ⟨source.isBoundary_size, Or.inl rfl⟩
  · have hpast : start ≤ t.offset ∧ isBoundary source.chars (t.offset + 1) = true := by
      rcases htoken with htoken | htoken
      · exact Source.isBoundary_past ht htoken
      · exact Source.isBoundary_past ht htoken
    rw [blockEnd, hend]
    exact ⟨hpast.2, Or.inr (Nat.lt_succ_of_le hpast.1)⟩

variable {source : Source} {window : Window} {signature : Signature}

/-- What a scan reports ends between characters. -/
theorem isBoundary_stop {m : Occurrence} (hm : m ∈ occurrences source window signature) :
    isBoundary source.chars m.stop = true := by
  rw [occurrences] at hm
  rcases exists_eq_append_charsFrom source.chars window.floor with ⟨before, hsplit, -⟩
  have htokens := tokensFrom_charsFrom hsplit .singleLine
  rw [htokens] at hm
  rcases exists_matchAt?_of_mem hm with ⟨front, c, back, hlex, hstart, hmatch⟩
  rcases exists_mem_of_matchEnd? hmatch with ⟨t, ht, htoken, hstop⟩
  have htokens' : t ∈ source.tokensFrom .singleLine window.floor := by
    rw [htokens, hlex, Placed.ofTokens_append, ← hstart]
    exact List.mem_append_right _ ((spanName_suffix _).subset ht)
  rw [hstop]
  rcases htoken with htoken | htoken
  · exact (Source.isBoundary_past htokens' htoken).2
  · exact (Source.isBoundary_past htokens' htoken).2

/-- What lies between two boundaries of a text can be cut out of it. -/
theorem exists_slice? {cs : List Char} {start stop : Nat} (hstart : isBoundary cs start = true)
    (hstop : isBoundary cs stop = true) (hle : start ≤ stop) :
    ∃ part, slice? cs start stop = some part := by
  rcases exists_part hstart hstop hle with ⟨before, part, after, rfl, rfl, rfl⟩
  exact ⟨part, by rw [byteSize_append, slice?_byteSize]⟩

/-! ## Names -/

/-- A name that starts at a byte can be cut out of the source. -/
theorem exists_slice?_name {offset : Nat} {d : Char}
    (hd : byte? (bytes source.chars) offset = some d) (hname : isNameChar d = true)
    (hends : endsName? (bytes source.chars) offset = some false) :
    ∃ stop written, spanEnd (bytes source.chars) isNameChar offset = some stop ∧
      offset < stop ∧ slice? source.chars offset stop = some written := by
  have hlt := lt_of_byte? hd
  rcases charsFrom_cases source.chars offset with
    ⟨hle, -⟩ | ⟨before, hsplit, rfl⟩ | ⟨before, c, hsplit, hbefore, hinside⟩
  · omega
  · rcases exists_run (fun _ => isNameChar_of_le) hsplit with
      ⟨written, back, hrest, -, -, hspan⟩
    have hlength : byteSize before ≤ (bytes source.chars).length := by
      rw [length_bytes]
      exact Nat.le_of_lt hlt
    rcases exists_spanEnd isNameChar hlength with ⟨stop, hstop, -, -, hpast⟩
    obtain rfl := Option.some.inj (hspan.symm.trans hstop)
    refine ⟨_, written, hspan, hpast d hd hname, ?_⟩
    rw [hrest, ← List.append_assoc] at hsplit
    conv_lhs => rw [hsplit]
    rw [byteSize_append, slice?_byteSize]
  · -- Inside a character outside ASCII, the byte before belongs to it too.
    have hwide := le_toNat_of_inside hbefore hinside
    rcases exists_byte? hsplit (n := offset - 1) (by omega) (by omega) with ⟨e, he, halike⟩
    rw [endsName?, if_neg (by omega), he, Option.map_some, isNameChar_of_le (halike.wide hwide)]
      at hends
    simp at hends

/-! ## All loops -/

/-- What a loop answers that starts at an offset: an offset inside the source, past the start where
the loop skips anything. -/
def EndsInside (source : Source) (start : Nat) (skips : Prop) (answer : Option Nat) : Prop :=
  ∃ stop, answer = some stop ∧ start ≤ stop ∧ stop ≤ source.size ∧ (skips → start < stop)

/-- A source without characters. -/
def emptySource : Source :=
  ⟨[]⟩

/-- Not all loops end wherever they start: a string is skipped from its opening quote on, and that
byte is not there at the end of a source. -/
theorem skipString_leaves_emptySource :
    0 = emptySource.size ∧ byte? (bytes emptySource.chars) 0 = none ∧
      ¬EndsInside emptySource 0 False (skipString (bytes emptySource.chars) 0) := by
  refine ⟨rfl, rfl, ?_⟩
  rintro ⟨stop, hstop, -⟩
  have hnone : skipString (bytes emptySource.chars) 0 = none := rfl
  rw [hnone] at hstop
  simp at hstop

/-- A string has an end exactly where its opening quote is there to be read. -/
theorem exists_skipString_iff {bytes : List UInt8} {start : Nat} :
    (∃ stop, skipString bytes start = some stop) ↔ start < bytes.length := by
  constructor
  · rintro ⟨stop, hstop⟩
    rcases Option.bind_eq_some_iff.mp hstop with ⟨quote, hquote, -⟩
    exact exists_byte?_iff.mp ⟨quote, hquote⟩
  · intro hlt
    rcases exists_skipString hlt with ⟨stop, hstop, -⟩
    exact ⟨stop, hstop⟩

/-- The loops over lexical units and blocks that start at an offset end inside the source.  A string
is skipped from its opening quote on, so it has an end exactly where there is a byte, and at a byte
nothing fails that is skipped there; a block ends where the tokens say. -/
structure LexersStayInside (source : Source) (start : Nat) : Prop where
  comment : EndsInside source start (start < source.size) (skipComment (bytes source.chars) start)
  string : start < source.size →
    EndsInside source start True (skipString (bytes source.chars) start)
  string_iff : (∃ stop, skipString (bytes source.chars) start = some stop) ↔ start < source.size
  skipped : ∀ d, byte? (bytes source.chars) start = some d →
    ∃ skipped, skip? (bytes source.chars) start d = some skipped ∧
      ∀ stop ∈ skipped, start < stop ∧ stop ≤ source.size
  trivia : EndsInside source start
    ((∃ c, byte? (bytes source.chars) start = some c ∧ isPlainBlank c = true) ∨
      opensComment (bytes source.chars) start = true)
    (skipTrivia (bytes source.chars) start)
  block : EndsInside source start (start < source.size) (readBlock (bytes source.chars) start)
  readBlock_eq : readBlock (bytes source.chars) start = some (blockEnd source start)

/-- All loops over lexical units and blocks stay inside a source in which they start. -/
theorem lexersStayInside {start : Nat} (h : start ≤ source.size) :
    LexersStayInside source start := by
  have hsize : (bytes source.chars).length = source.size := length_bytes source.chars
  have hlength : start ≤ (bytes source.chars).length := by rwa [hsize]
  refine ⟨?_, ?_, ?_, ?_, ?_, ?_, readBlock_eq source start⟩
  · have hcomment := exists_skipComment hlength
    rwa [hsize] at hcomment
  · intro hlt
    rw [← hsize] at hlt
    rcases exists_skipString hlt with ⟨stop, hstop, hpast, hle⟩
    exact ⟨stop, hstop, Nat.le_of_lt hpast, hsize ▸ hle, fun _ => hpast⟩
  · rw [← hsize]
    exact exists_skipString_iff
  · intro d hd
    have hskip := exists_skip? hd
    rwa [hsize] at hskip
  · have htrivia := exists_skipTrivia hlength
    rwa [hsize] at htrivia
  · rcases blockEnd_bounds source start with ⟨hboundary, hend⟩
    have hle : blockEnd source start ≤ source.size := le_byteSize_of_isBoundary hboundary
    refine ⟨_, readBlock_eq source start, ?_, hle, ?_⟩
    · rcases hend with heq | hlt
      · omega
      · omega
    · rcases hend with heq | hlt
      · omega
      · exact fun _ => hlt

/-- What a scan may report: it lies between characters of the window, from the cursor on, and the
value behind it can be cut out of the source. -/
structure Reported (source : Source) (window : Window) (cursor : Nat) (m : Occurrence) : Prop where
  floor_le : window.floor ≤ m.start
  cursor_le : cursor ≤ m.start
  lt_ceiling : m.start < window.ceiling
  start_lt_stop : m.start < m.stop
  stop_le : m.stop ≤ source.size
  start_isBoundary : isBoundary source.chars m.start = true
  stop_isBoundary : isBoundary source.chars m.stop = true
  value : ∃ stop value, readBlock (bytes source.chars) m.stop = some stop ∧
    slice? source.chars m.stop stop = some value

/-- What a scan reports is an occurrence, and so lies where it may. -/
theorem reported_of_scan {cursor : Nat} {m : Occurrence}
    (h : scan source window cursor signature = some (some m)) :
    Reported source window cursor m := by
  have hfind := Option.some.inj ((scan_eq source window cursor signature).symm.trans h)
  have hm := List.mem_of_find?_eq_some hfind
  have hstands := standsIn_of_mem_occurrences hm
  have hstop := isBoundary_stop hm
  have hsize : m.stop ≤ source.size := le_byteSize_of_isBoundary hstop
  have hend := blockEnd_bounds source m.stop
  have hle : m.stop ≤ blockEnd source m.stop := by
    rcases hend.2 with heq | hlt
    · omega
    · omega
  rcases exists_slice? hstop hend.1 hle with ⟨value, hvalue⟩
  exact ⟨hstands.floor_le, by simpa using List.find?_some hfind, hstands.lt_ceiling,
    start_lt_stop hm, hsize, hstands.stands.isBoundary, hstop, _, value, readBlock_eq _ _, hvalue⟩

/-- A scan of a window has an answer: the first occurrence from the cursor on.  It lies between
characters, and a name that the scan comes to can be cut out of the source. -/
structure ScanStaysInside (source : Source) (window : Window) (cursor : Nat)
    (signature : Signature) : Prop where
  scan_eq : scan source window cursor signature =
    some ((occurrences source window signature).find? (cursor ≤ ·.start))
  reported : ∀ m, scan source window cursor signature = some (some m) →
    Reported source window cursor m
  name : ∀ offset d, byte? (bytes source.chars) offset = some d → isNameChar d = true →
    endsName? (bytes source.chars) offset = some false →
    ∃ stop written, spanEnd (bytes source.chars) isNameChar offset = some stop ∧
      offset < stop ∧ slice? source.chars offset stop = some written

/-- Wherever the loops of a scanner start in a source, and whatever window it scans, they end inside
the source without reading past its end, and what they cut out of it is there. -/
theorem scanner_stays_inside (source : Source) (window : Window) (cursor : Nat)
    (signature : Signature) {start : Nat} (hstart : start ≤ source.size) :
    LexersStayInside source start ∧ ScanStaysInside source window cursor signature :=
  ⟨lexersStayInside hstart, scan_eq source window cursor signature, fun _ => reported_of_scan,
    fun _ _ => exists_slice?_name⟩

/-- A declaration outside ASCII, whose value is a string with an escaped character. -/
def escapedName : Source :=
  ⟨['{', 'é', ':', '\x22', '\\', 'é', '\x22', ';', '}']⟩

/-- A scan finds the declaration, and its string is skipped over the escaped character. -/
theorem scanner_stays_inside_escapedName :
    EndsInside escapedName 4 True (skipString (bytes escapedName.chars) 4) ∧
      scan escapedName ⟨0, 11⟩ 1 (.property ['é']) = some (some ⟨1, 4⟩) ∧
      Reported escapedName ⟨0, 11⟩ 1 ⟨1, 4⟩ := by
  have hstart : 4 ≤ escapedName.size := by decide
  rcases scanner_stays_inside escapedName ⟨0, 11⟩ 1 (.property ['é']) hstart with
    ⟨hlexers, hscan⟩
  have hfound : (occurrences escapedName ⟨0, 11⟩ (.property ['é'])).find? (1 ≤ ·.start) =
      some ⟨1, 4⟩ := by decide
  have hanswer := hscan.scan_eq
  rw [hfound] at hanswer
  exact ⟨hlexers.string (by decide), hanswer, hscan.reported _ hanswer⟩

end Hint
end StyleAtlas
