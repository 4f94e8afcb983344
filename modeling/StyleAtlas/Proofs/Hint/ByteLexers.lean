import StyleAtlas.Hint.Occurrence
import StyleAtlas.Proofs.Loop
import StyleAtlas.Proofs.Text.LineTable

/-!
# Lexing by bytes

A scanner need not take a source apart into tokens: it can read the bytes of the source one after
the other, and jump over a comment or a string where one starts.  Here are the loops of such a
scanner.  Each of them reads single bytes, and fails where it reads one that is not there; a jump
behind a backslash may land inside a character, or past the end.  Whatever the bytes are, and
wherever a loop starts among them, it ends without such a failure, at an offset behind its start.

Main definitions:

- `Hint.byte?`: the byte at an offset.
- `Hint.skipComment`, `Hint.skipString`, `Hint.spanEnd`, `Hint.skipTrivia`: the ends of lexical
  units.
- `Hint.readBlock`: the end of a block.
- `Hint.scan`: the first occurrence of a signature in a window, from a cursor on.

Main results:

- Theorems `Hint.exists_skipComment`, `Hint.exists_skipString`, `Hint.exists_skip?`,
  `Hint.exists_spanEnd` and `Hint.exists_skipTrivia`: where lexical units end.
-/

namespace StyleAtlas
namespace Hint

/-! ## Bytes -/

/-- The byte at an offset, written as the character with its number. -/
def byte? (bytes : List UInt8) (offset : Nat) : Option Char :=
  bytes[offset]?.map Char.ofUInt8

/-- A byte can be read before the end of the bytes only. -/
theorem exists_byte?_iff {bytes : List UInt8} {offset : Nat} :
    (∃ c, byte? bytes offset = some c) ↔ offset < bytes.length := by
  simp [byte?, ← Option.isSome_iff_exists]

/-- No byte can be read from the end of the bytes on. -/
theorem byte?_eq_none_iff {bytes : List UInt8} {offset : Nat} :
    byte? bytes offset = none ↔ bytes.length ≤ offset := by
  simp [byte?]

/-- Whether the byte before an offset is one of a name. -/
def endsName? (bytes : List UInt8) (offset : Nat) : Option Bool :=
  if offset = 0 then some false else (byte? bytes (offset - 1)).map isNameChar

variable (bytes : List UInt8)

/-! ## Comments and strings -/

/-- One byte of a comment: its end behind a star and a slash, or the next byte. -/
def commentRound (offset : Nat) : Option (Nat ⊕ Nat) :=
  if offset + 1 < bytes.length then do
    let c ← byte? bytes offset
    let d ← byte? bytes (offset + 1)
    if c = '*' ∧ d = '/' then some (.inr (offset + 2)) else some (.inl (offset + 1))
  else some (.inr bytes.length)

/-- The end of the comment that opens at an offset. -/
def skipComment (start : Nat) : Option Nat :=
  loop (commentRound bytes) (start + 2)

/-- One byte of a string: its end behind a quote or at a line feed, or the next byte, or the one
after it behind a backslash. -/
def stringRound (quote : Char) (offset : Nat) : Option (Nat ⊕ Nat) :=
  if offset < bytes.length then do
    let c ← byte? bytes offset
    if c = '\\' then some (.inl (offset + 2))
    else if c = '\n' then some (.inr offset)
    else if c = quote then some (.inr (offset + 1))
    else some (.inl (offset + 1))
  else some (.inr bytes.length)

/-- The end of the string whose opening quote is at an offset. -/
def skipString (start : Nat) : Option Nat := do
  let quote ← byte? bytes start
  loop (stringRound bytes quote) (start + 1)

/-- Whether a comment opens at an offset. -/
def opensComment (offset : Nat) : Bool :=
  byte? bytes offset = some '/' && byte? bytes (offset + 1) = some '*'

/-- The end of the comment or string that opens at an offset with the byte `c`, where one does. -/
def skip? (offset : Nat) (c : Char) : Option (Option Nat) :=
  if opensComment bytes offset then (skipComment bytes offset).map some
  else if Token.isQuote c then (skipString bytes offset).map some
  else some none

/-! ## Names and blanks -/

/-- One byte of a run of bytes of one class. -/
def spanRound (inClass : Char → Bool) (offset : Nat) : Option (Nat ⊕ Nat) :=
  if offset < bytes.length then do
    let c ← byte? bytes offset
    if inClass c then some (.inl (offset + 1)) else some (.inr offset)
  else some (.inr offset)

/-- The end of the run of bytes of one class that starts at an offset. -/
def spanEnd (inClass : Char → Bool) (start : Nat) : Option Nat :=
  loop (spanRound bytes inClass) start

/-- Plain blanks, and one comment behind them. -/
def triviaRound (offset : Nat) : Option (Nat ⊕ Nat) := do
  let stop ← spanEnd bytes Text.isPlainBlank offset
  if opensComment bytes stop then (skipComment bytes stop).map .inl else some (.inr stop)

/-- The end of the plain blanks and comments that start at an offset. -/
def skipTrivia (start : Nat) : Option Nat :=
  loop (triviaRound bytes) start

/-! ## Blocks -/

/-- The open braces and parentheses behind a character, unless the block ends with it. -/
def openAfter? (braces parens : Nat) (c : Char) : Option (Nat × Nat) :=
  match c with
  | '(' => some (braces, parens + 1)
  | ')' => some (braces, parens - 1)
  | ';' => if braces = 0 ∧ parens = 0 then none else some (braces, parens)
  | '{' => some (braces + 1, parens)
  | '}' => if braces ≤ 1 then none else some (braces - 1, parens)
  | _ => some (braces, parens)

/-- What is open in a block that was read up to an offset. -/
structure BlockState where
  braces : Nat
  parens : Nat
  offset : Nat

/-- One byte of a block, or a comment or string in it. -/
def blockRound (s : BlockState) : Option (BlockState ⊕ Nat) :=
  if s.offset < bytes.length then do
    let c ← byte? bytes s.offset
    match ← skip? bytes s.offset c with
    | some stop => some (.inl { s with offset := stop })
    | none =>
        match openAfter? s.braces s.parens c with
        | some (braces, parens) => some (.inl ⟨braces, parens, s.offset + 1⟩)
        | none => some (.inr (s.offset + 1))
  else some (.inr bytes.length)

/-- The end of the block or statement that starts at an offset. -/
def readBlock (start : Nat) : Option Nat :=
  loop (blockRound bytes) ⟨0, 0, start⟩

/-! ## Signatures -/

/-- The offset past a byte, where the byte at an offset is that one. -/
def pastByte? (c : Char) (offset : Nat) : Option Nat :=
  if byte? bytes offset = some c then some (offset + 1) else none

/-- The end of a signature whose name lies between two offsets.  A name that cannot be cut out of
the source is taken for no match. -/
def matchName? (source : Source) (signature : Signature) (depth start stop : Nat) :
    Option (Option Nat) :=
  let bytes := Text.bytes source.chars
  match Text.slice? source.chars start stop with
  | none => some none
  | some written =>
      match signature with
      | .property name =>
          if depth = 1 && namesProperty written name then
            (skipTrivia bytes stop).map fun behind => pastByte? bytes ':' behind
          else some none
      | .call name =>
          if Text.equalsIgnoringCase written name then some (pastByte? bytes '(' stop)
          else some none

/-- How deep in braces a scan is that has come to an offset. -/
structure ScanState where
  depth : Nat
  offset : Nat

/-- One byte of a window, or a comment, string or name in it.  Names before the cursor are passed
over. -/
def scanRound (source : Source) (window : Window) (cursor : Nat) (signature : Signature)
    (s : ScanState) : Option (ScanState ⊕ Option Occurrence) :=
  let bytes := Text.bytes source.chars
  if s.offset < min window.ceiling bytes.length then do
    let c ← byte? bytes s.offset
    match ← skip? bytes s.offset c with
    | some stop => some (.inl { s with offset := stop })
    | none =>
        let depth := depthAfter s.depth c
        if isNameChar c then
          if ← endsName? bytes s.offset then some (.inl ⟨depth, s.offset + 1⟩)
          else
            let stop ← spanEnd bytes isNameChar s.offset
            if cursor ≤ s.offset then
              match ← matchName? source signature depth s.offset stop with
              | some behind => some (.inr (some ⟨s.offset, behind⟩))
              | none => some (.inl ⟨depth, stop⟩)
            else some (.inl ⟨depth, stop⟩)
        else some (.inl ⟨depth, s.offset + 1⟩)
  else some (.inr none)

/-- The first occurrence of a signature in a window that starts at the cursor or behind it. -/
def scan (source : Source) (window : Window) (cursor : Nat) (signature : Signature) :
    Option (Option Occurrence) :=
  loop (scanRound source window cursor signature) ⟨0, window.floor⟩

/-! ## Ends of lexical units -/

variable {bytes}

/-- A comment ends among the bytes, and past its start unless it starts at their end. -/
theorem exists_skipComment {start : Nat} (h : start ≤ bytes.length) :
    ∃ stop, skipComment bytes start = some stop ∧ start ≤ stop ∧ stop ≤ bytes.length ∧
      (start < bytes.length → start < stop) := by
  -- The loop stays past the start, and comes nearer to the last byte.
  refine exists_loop (start < ·) (bytes.length - ·) ?_
    (show start < start + 2 by omega)
  intro offset hoffset
  unfold commentRound
  by_cases hlt : offset + 1 < bytes.length
  · rcases exists_byte?_iff.mpr (Nat.lt_of_succ_lt hlt) with ⟨c, hc⟩
    rcases exists_byte?_iff.mpr hlt with ⟨d, hd⟩
    simp only [if_pos hlt, hc, hd, Option.bind_eq_bind, Option.bind_some]
    by_cases hclose : c = '*' ∧ d = '/'
    · rw [if_pos hclose]
      exact Or.inr ⟨offset + 2, rfl, by omega, by omega, by omega⟩
    · rw [if_neg hclose]
      exact Or.inl ⟨offset + 1, rfl, by omega, by omega⟩
  · rw [if_neg hlt]
    exact Or.inr ⟨bytes.length, rfl, h, Nat.le_refl _, id⟩

/-- A string ends among the bytes and past its start, where its opening quote is there. -/
theorem exists_skipString {start : Nat} (h : start < bytes.length) :
    ∃ stop, skipString bytes start = some stop ∧ start < stop ∧ stop ≤ bytes.length := by
  rcases exists_byte?_iff.mpr h with ⟨quote, hquote⟩
  rw [skipString, hquote, Option.bind_eq_bind, Option.bind_some]
  refine exists_loop (start < ·) (bytes.length - ·) ?_
    (Nat.lt_succ_self start)
  intro offset hoffset
  unfold stringRound
  by_cases hlt : offset < bytes.length
  · rcases exists_byte?_iff.mpr hlt with ⟨c, hc⟩
    simp only [if_pos hlt, hc, Option.bind_eq_bind, Option.bind_some]
    split
    · exact Or.inl ⟨offset + 2, rfl, by omega, by omega⟩
    · split
      · exact Or.inr ⟨offset, rfl, hoffset, Nat.le_of_lt hlt⟩
      · split
        · exact Or.inr ⟨offset + 1, rfl, by omega, hlt⟩
        · exact Or.inl ⟨offset + 1, rfl, by omega, by omega⟩
  · rw [if_neg hlt]
    exact Or.inr ⟨bytes.length, rfl, h, Nat.le_refl _⟩

/-- A run goes on with a byte of its class. -/
theorem spanRound_of_inClass {inClass : Char → Bool} {offset : Nat} {c : Char}
    (hc : byte? bytes offset = some c) (h : inClass c = true) :
    spanRound bytes inClass offset = some (.inl (offset + 1)) := by
  have hlt : offset < bytes.length := exists_byte?_iff.mp ⟨c, hc⟩
  simp [spanRound, hlt, hc, h]

/-- A run ends at a byte of another class, and with the bytes. -/
theorem spanRound_of_not {inClass : Char → Bool} {offset : Nat}
    (h : ∀ c, byte? bytes offset = some c → inClass c = false) :
    spanRound bytes inClass offset = some (.inr offset) := by
  unfold spanRound
  by_cases hlt : offset < bytes.length
  · rcases exists_byte?_iff.mpr hlt with ⟨c, hc⟩
    simp [hlt, hc, h c hc]
  · rw [if_neg hlt]

/-- A run ends among the bytes, and past its start where the first byte is one of the class. -/
theorem exists_spanEnd (inClass : Char → Bool) {start : Nat} (h : start ≤ bytes.length) :
    ∃ stop, spanEnd bytes inClass start = some stop ∧ start ≤ stop ∧ stop ≤ bytes.length ∧
      ∀ c, byte? bytes start = some c → inClass c = true → start < stop := by
  have hfrom : ∀ first, first ≤ bytes.length → ∃ stop,
      loop (spanRound bytes inClass) first = some stop ∧ first ≤ stop ∧ stop ≤ bytes.length := by
    intro first hfirst
    refine exists_loop (fun offset => first ≤ offset ∧ offset ≤ bytes.length)
      (bytes.length - ·) ?_ ⟨Nat.le_refl first, hfirst⟩
    rintro offset ⟨hle, hlength⟩
    by_cases hin : ∃ c, byte? bytes offset = some c ∧ inClass c = true
    · rcases hin with ⟨c, hc, hclass⟩
      have hlt : offset < bytes.length := exists_byte?_iff.mp ⟨c, hc⟩
      exact Or.inl ⟨offset + 1, spanRound_of_inClass hc hclass, by omega, by omega⟩
    · have hout : ∀ c, byte? bytes offset = some c → inClass c = false := by
        simpa using hin
      exact Or.inr ⟨offset, spanRound_of_not hout, hle, hlength⟩
  by_cases hin : ∃ c, byte? bytes start = some c ∧ inClass c = true
  · rcases hin with ⟨c, hc, hclass⟩
    rcases hfrom (start + 1) (exists_byte?_iff.mp ⟨c, hc⟩) with ⟨stop, hstop, hle, hlength⟩
    rw [← loop_next (spanRound_of_inClass hc hclass)] at hstop
    exact ⟨stop, hstop, by omega, hlength, fun _ _ _ => hle⟩
  · rcases hfrom start h with ⟨stop, hstop, hle, hlength⟩
    exact ⟨stop, hstop, hle, hlength, fun c hc hclass => absurd ⟨c, hc, hclass⟩ hin⟩

/-- A comment opens at a byte. -/
theorem lt_length_of_opensComment {offset : Nat} (h : opensComment bytes offset = true) :
    offset < bytes.length := by
  simp only [opensComment, Bool.and_eq_true, decide_eq_true_eq] at h
  exact exists_byte?_iff.mp ⟨_, h.1⟩

/-- Where a comment or string is skipped, it ends among the bytes and past its start. -/
theorem exists_skip? {offset : Nat} {c : Char} (hc : byte? bytes offset = some c) :
    ∃ skipped, skip? bytes offset c = some skipped ∧
      ∀ stop ∈ skipped, offset < stop ∧ stop ≤ bytes.length := by
  have hlt : offset < bytes.length := exists_byte?_iff.mp ⟨c, hc⟩
  unfold skip?
  split
  · rcases exists_skipComment (Nat.le_of_lt hlt) with ⟨stop, hstop, -, hlength, hpast⟩
    exact ⟨some stop, by rw [hstop, Option.map_some], by simpa using ⟨hpast hlt, hlength⟩⟩
  · split
    · rcases exists_skipString hlt with ⟨stop, hstop, hpast, hlength⟩
      exact ⟨some stop, by rw [hstop, Option.map_some], by simpa using ⟨hpast, hlength⟩⟩
    · exact ⟨none, rfl, by simp⟩

/-- One round over blanks and a comment ends among the bytes, and goes on only past a comment. -/
theorem exists_triviaRound {offset : Nat} (h : offset ≤ bytes.length) :
    (∃ next, triviaRound bytes offset = some (.inl next) ∧ offset < next ∧
        next ≤ bytes.length) ∨
      ∃ stop, triviaRound bytes offset = some (.inr stop) ∧ offset ≤ stop ∧
        stop ≤ bytes.length ∧
        ∀ c, byte? bytes offset = some c → Text.isPlainBlank c = true → offset < stop := by
  rcases exists_spanEnd Text.isPlainBlank h with ⟨stop, hstop, hle, hlength, hpast⟩
  by_cases hopens : opensComment bytes stop = true
  · rcases exists_skipComment hlength with ⟨next, hnext, -, hbound, hlt⟩
    have hinside := hlt (lt_length_of_opensComment hopens)
    exact Or.inl ⟨next, by simp [triviaRound, hstop, hopens, hnext], by omega, hbound⟩
  · exact Or.inr ⟨stop, by simp [triviaRound, hstop, hopens], hle, hlength, hpast⟩

/-- A comment that opens is not passed over as a blank. -/
theorem triviaRound_ne_of_opensComment {offset stop : Nat}
    (h : opensComment bytes offset = true) : triviaRound bytes offset ≠ some (.inr stop) := by
  have hslash : byte? bytes offset = some '/' := by
    simp only [opensComment, Bool.and_eq_true, decide_eq_true_eq] at h
    exact h.1
  have hspan : spanEnd bytes Text.isPlainBlank offset = some offset := by
    refine loop_answer (spanRound_of_not ?_)
    intro c hc
    obtain rfl := Option.some.inj (hslash.symm.trans hc)
    decide
  rcases exists_skipComment (Nat.le_of_lt (lt_length_of_opensComment h)) with ⟨next, hnext, -⟩
  simp [triviaRound, hspan, h, hnext]

/-- Blanks and comments end among the bytes, and past their start where there are any. -/
theorem exists_skipTrivia {start : Nat} (h : start ≤ bytes.length) :
    ∃ stop, skipTrivia bytes start = some stop ∧ start ≤ stop ∧ stop ≤ bytes.length ∧
      ((∃ c, byte? bytes start = some c ∧ Text.isPlainBlank c = true) ∨
        opensComment bytes start = true → start < stop) := by
  have hfrom : ∀ first, first ≤ bytes.length → ∃ stop,
      loop (triviaRound bytes) first = some stop ∧ first ≤ stop ∧ stop ≤ bytes.length := by
    intro first hfirst
    refine exists_loop (fun offset => first ≤ offset ∧ offset ≤ bytes.length)
      (bytes.length - ·) ?_ ⟨Nat.le_refl first, hfirst⟩
    rintro offset ⟨hle, hlength⟩
    rcases exists_triviaRound hlength with
      ⟨next, hnext, hlt, hbound⟩ | ⟨stop, hstop, hlast, hbound, -⟩
    · exact Or.inl ⟨next, hnext, ⟨by omega, hbound⟩, by omega⟩
    · exact Or.inr ⟨stop, hstop, by omega, hbound⟩
  rcases exists_triviaRound h with ⟨next, hnext, hlt, hbound⟩ | ⟨stop, hstop, hle, hbound, hpast⟩
  · rcases hfrom next hbound with ⟨stop, hstop, hle, hlength⟩
    rw [← loop_next hnext] at hstop
    exact ⟨stop, hstop, by omega, hlength, fun _ => by omega⟩
  · refine ⟨stop, loop_answer hstop, hle, hbound, ?_⟩
    rintro (⟨c, hc, hblank⟩ | hopens)
    · exact hpast c hc hblank
    · exact absurd hstop (triviaRound_ne_of_opensComment hopens)

end Hint
end StyleAtlas
