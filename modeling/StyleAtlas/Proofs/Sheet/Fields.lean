import Mathlib.Data.List.TakeWhile
import StyleAtlas.Proofs.Text.WalkBack
import StyleAtlas.Sheet.Parser

/-!
# Fields in the text of an item

The fields of a declaration are what its text leaves when it is cut at the first colon, trimmed, and
cut at the last exclamation mark.  Here each cut is said without the search for it, so that a field
can be found in the text that it was read from, and a text can be written that has given fields.

Main results:

- Theorem `Text.exists_eq_trim`: what trimming takes away.
- Theorems `Sheet.splitFirst?_append` and `Sheet.splitLast?_append`: cuts at a mark.
- Theorems `Sheet.splitImportant_trim` and `Sheet.exists_eq_splitImportant`: values and their mark.
- Theorem `Sheet.Content.ofStatement?_cases`: what a statement may say.
-/

namespace StyleAtlas

/-! ## Trimming -/

namespace Text

/-- A blank in front is trimmed off. -/
theorem trim_space_cons (cs : List Char) : trim (' ' :: cs) = trim cs := by
  have hspace : isBlank ' ' = true := by decide
  rw [trim, trimStart, List.dropWhile_cons_of_pos hspace]
  rfl

/-- A blank behind is trimmed off. -/
theorem trim_concat_space (cs : List Char) : trim (cs ++ [' ']) = trim cs := by
  have hspace : isBlank ' ' = true := by decide
  unfold trim trimStart
  rw [List.dropWhile_append]
  split
  · rename_i hempty
    rw [List.isEmpty_iff.mp hempty, List.dropWhile_cons_of_pos hspace]
    rfl
  · exact trimEnd_append_blank _ (by simp [hspace])

/-- Trimming makes no text longer. -/
theorem length_trimEnd_le (cs : List Char) : (trimEnd cs).length ≤ cs.length := by
  induction cs with
  | nil => exact Nat.le_refl _
  | cons c cs ih =>
      rw [trimEnd]
      split
      · split <;> simp
      · rename_i d ds hds
        rw [hds] at ih
        simpa using ih

/-- A text without blanks at its ends has none at its start. -/
theorem trimStart_eq_self {cs : List Char} (h : trim cs = cs) : trimStart cs = cs := by
  have hsuffix : trimStart cs <:+ cs := List.dropWhile_suffix _
  have hlength : (trim cs).length ≤ (trimStart cs).length := length_trimEnd_le _
  rw [h] at hlength
  exact hsuffix.eq_of_length_le hlength

/-- A text without blanks at its ends has none behind. -/
theorem trimEnd_eq_self {cs : List Char} (h : trim cs = cs) : trimEnd cs = cs := by
  rwa [trim, trimStart_eq_self h] at h

/-- A text without blanks at its ends starts with a visible character. -/
theorem isBlank_head_eq_false {c : Char} {cs : List Char} (h : trim (c :: cs) = c :: cs) :
    isBlank c = false := by
  by_contra hc
  have hstart := trimStart_eq_self h
  rw [trimStart, List.dropWhile_cons_of_pos (by simpa using hc)] at hstart
  have hlength := (List.dropWhile_suffix (p := isBlank) (l := cs)).length_le
  rw [hstart, List.length_cons] at hlength
  omega

/-- What is taken away at the end of a text is blank. -/
theorem exists_eq_trimEnd (cs : List Char) :
    ∃ gap, cs = trimEnd cs ++ gap ∧ ∀ c ∈ gap, isBlank c = true := by
  induction cs with
  | nil => exact ⟨[], rfl, by simp⟩
  | cons c cs ih =>
      rcases ih with ⟨gap, hcs, hgap⟩
      rw [trimEnd]
      split
      · rename_i hempty
        rw [hempty, List.nil_append] at hcs
        split
        · rename_i hc
          exact ⟨c :: cs, rfl, List.forall_mem_cons.mpr ⟨hc, hcs ▸ hgap⟩⟩
        · exact ⟨cs, rfl, hcs ▸ hgap⟩
      · rename_i d ds hds
        exact ⟨gap, by rw [← hds, List.cons_append, ← hcs], hgap⟩

/-- What is taken away at the ends of a text is blank. -/
theorem exists_eq_trim (cs : List Char) :
    ∃ gap gap', cs = gap ++ (trim cs ++ gap') ∧ (∀ c ∈ gap, isBlank c = true) ∧
      ∀ c ∈ gap', isBlank c = true := by
  rcases exists_eq_trimEnd (trimStart cs) with ⟨gap', hend, hgap'⟩
  refine ⟨cs.takeWhile isBlank, gap', ?_, fun c hc => List.mem_takeWhile_imp hc, hgap'⟩
  rw [trim, ← hend, trimStart, List.takeWhile_append_dropWhile]

end Text

namespace Sheet

open Text

/-! ## Cuts -/

/-- A text that cannot be split at a mark has none. -/
theorem not_mem_of_splitFirst? {mark : Char} {cs : List Char} (h : splitFirst? mark cs = none) :
    mark ∉ cs := by
  induction cs with
  | nil => simp
  | cons c cs ih =>
      by_cases hc : c = mark
      · simp [splitFirst?, hc] at h
      · rw [splitFirst?, if_neg hc, Option.map_eq_none_iff] at h
        simp [ih h, Ne.symm hc]

/-- A cut at a mark leaves both parts, and no mark in the first one. -/
theorem eq_append_of_splitFirst? {mark : Char} {cs : List Char} {parts : List Char × List Char}
    (h : splitFirst? mark cs = some parts) :
    cs = parts.1 ++ mark :: parts.2 ∧ mark ∉ parts.1 := by
  induction cs generalizing parts with
  | nil => simp [splitFirst?] at h
  | cons c cs ih =>
      by_cases hc : c = mark
      · rw [splitFirst?, if_pos hc, Option.some.injEq] at h
        simp [← h, hc]
      · rw [splitFirst?, if_neg hc, Option.map_eq_some_iff] at h
        rcases h with ⟨inner, hinner, rfl⟩
        rcases ih hinner with ⟨hcs, hmark⟩
        exact ⟨congrArg (List.cons c) hcs, by simp [hmark, Ne.symm hc]⟩

/-- The first mark of a text cuts it in two. -/
theorem splitFirst?_append {mark : Char} {front : List Char} (h : mark ∉ front)
    (back : List Char) : splitFirst? mark (front ++ mark :: back) = some (front, back) := by
  induction front with
  | nil => simp [splitFirst?]
  | cons c front ih =>
      rw [List.mem_cons, not_or] at h
      rw [List.cons_append, splitFirst?, if_neg (Ne.symm h.1), ih h.2]
      rfl

/-- A text is its parts before and after a mark, with the mark between. -/
theorem eq_append_of_splitLast? {mark : Char} {cs : List Char} {parts : List Char × List Char}
    (h : splitLast? mark cs = some parts) : cs = parts.1 ++ mark :: parts.2 := by
  induction cs generalizing parts with
  | nil => simp [splitLast?] at h
  | cons c cs ih =>
      rw [splitLast?] at h
      split at h
      · rename_i inner hinner
        obtain rfl := Option.some.inj h
        exact congrArg (List.cons c) (ih hinner)
      · split at h
        · rename_i hc
          obtain rfl := Option.some.inj h
          simp [hc]
        · simp at h

/-- The last mark of a text cuts it in two. -/
theorem splitLast?_append {mark : Char} (front : List Char) {back : List Char} (h : mark ∉ back) :
    splitLast? mark (front ++ mark :: back) = some (front, back) := by
  have hback : splitLast? mark back = none := by
    induction back with
    | nil => rfl
    | cons c back ih =>
        rw [List.mem_cons, not_or] at h
        simp [splitLast?, ih h.2, Ne.symm h.1]
  induction front with
  | nil => simp [splitLast?, hback]
  | cons c front ih => simp [splitLast?, ih]

/-! ## Values -/

/-- A value with the important mark behind it is told from the mark. -/
theorem splitImportant_trim {value : List Char} (h : trim value = value) :
    splitImportant (trim (value ++ ' ' :: '!' :: importantWord)) = (value, true) := by
  -- An empty value leaves no blank in front of the mark, and any other one leaves one.
  have hcut : ∃ front, trim (value ++ ' ' :: '!' :: importantWord) = front ++ '!' :: importantWord ∧
      trimEnd front = value := by
    cases value with
    | nil => exact ⟨[], by decide, rfl⟩
    | cons c value =>
        refine ⟨c :: value ++ [' '], ?_, ?_⟩
        · have hvisible : ¬isBlank c = true := by simp [isBlank_head_eq_false h]
          have hlast := trimEnd_concat (c :: value ++ ' ' :: '!' :: importantWord.dropLast)
            (c := 't') (by decide)
          rw [trim, trimStart, List.cons_append, List.dropWhile_cons_of_neg hvisible]
          simpa [importantWord] using hlast
        · have hspace : isBlank ' ' = true := by decide
          rw [trimEnd_append_blank _ (by simp [hspace])]
          exact trimEnd_eq_self h
  have hmark : equalsIgnoringCase (trim importantWord) importantWord = true := by decide
  rcases hcut with ⟨front, hfront, htrim⟩
  rw [splitImportant, hfront, splitLast?_append front (by decide)]
  simp only [hmark, if_true, htrim]

/-- The characters that may stand behind a value: blanks and those of the important mark. -/
def IsMarking (c : Char) : Prop :=
  isBlank c = true ∨ c = '!' ∨ c.toLower ∈ importantWord

/-- The word of the important mark, with blanks around it, has marking characters only. -/
theorem isMarking_of_equalsIgnoringCase {cs : List Char}
    (h : equalsIgnoringCase (trim cs) importantWord = true) : ∀ c ∈ cs, IsMarking c := by
  rcases exists_eq_trim cs with ⟨gap, gap', hcs, hgap, hgap'⟩
  have hword : lower (trim cs) = importantWord := by
    have hsmall : lower importantWord = importantWord := by decide
    rw [equalsIgnoringCase, beq_iff_eq, hsmall] at h
    exact h
  intro c hc
  rw [hcs, List.mem_append, List.mem_append] at hc
  rcases hc with hc | hc | hc
  · exact Or.inl (hgap c hc)
  · exact Or.inr (Or.inr (hword ▸ List.mem_map_of_mem hc))
  · exact Or.inl (hgap' c hc)

/-- A value is found in the text that it was read from. -/
theorem exists_eq_splitImportant (text : List Char) :
    ∃ gap rest, text = gap ++ ((splitImportant (trim text)).1 ++ rest) ∧
      (∀ c ∈ gap, isBlank c = true) ∧ ∀ c ∈ rest, IsMarking c := by
  rcases exists_eq_trim text with ⟨gap, gap', htext, hgap, hgap'⟩
  have hblank : ∀ c ∈ gap', IsMarking c := fun c hc => Or.inl (hgap' c hc)
  unfold splitImportant
  split
  · rename_i before after hsplit
    split
    · rename_i hword
      rcases exists_eq_trimEnd before with ⟨gap'', hbefore, hgap''⟩
      refine ⟨gap, gap'' ++ '!' :: (after ++ gap'), ?_, hgap, ?_⟩
      · rw [eq_append_of_splitLast? hsplit] at htext
        rw [← List.append_assoc (trimEnd before), ← hbefore]
        simpa using htext
      · intro c hc
        rw [List.mem_append, List.mem_cons, List.mem_append] at hc
        rcases hc with hc | rfl | hc | hc
        · exact Or.inl (hgap'' c hc)
        · exact Or.inr (Or.inl rfl)
        · exact isMarking_of_equalsIgnoringCase hword c hc
        · exact hblank c hc
    · exact ⟨gap, gap', htext, hgap, hblank⟩
  · exact ⟨gap, gap', htext, hgap, hblank⟩

/-! ## Statements -/

/-- What a statement may say: nothing, an at-rule, or a declaration with the parts before and behind
its first colon. -/
theorem Content.ofStatement?_cases (text : List Char) :
    (ofStatement? text = none ∧ ':' ∉ text) ∨
      (∃ rest, text = '@' :: rest ∧ ofStatement? text = some (.atRule (rest.takeWhile isKeywordChar)
        (trim (rest.dropWhile isKeywordChar)))) ∨
      ∃ before after, text = before ++ ':' :: after ∧ ':' ∉ before ∧
        ofStatement? text = some (.declaration (trim before) (splitImportant (trim after)).1
          (splitImportant (trim after)).2) := by
  unfold ofStatement?
  split
  · exact Or.inr (Or.inl ⟨_, rfl, rfl⟩)
  · cases hsplit : splitFirst? ':' text with
    | none => exact Or.inl ⟨rfl, not_mem_of_splitFirst? hsplit⟩
    | some parts =>
        rcases eq_append_of_splitFirst? hsplit with ⟨htext, hcolon⟩
        exact Or.inr (Or.inr ⟨parts.1, parts.2, htext, hcolon, rfl⟩)

/-- A statement has no nodes below its own. -/
theorem statementNode?_eq_some_of_mem {p : Point} {text : List Char} {semicolon : Option Point}
    {node : Node} (h : node ∈ Node.preorderAll (statementNode? p text semicolon).toList) :
    statementNode? p text semicolon = some node := by
  unfold statementNode? at h ⊢
  cases hcontent : Content.ofStatement? text with
  | none => simp [hcontent, Node.preorderAll] at h
  | some content =>
      simp only [hcontent, Option.map_some, Option.toList_some, Node.preorderAll, Node.preorder,
        List.append_nil, List.mem_singleton] at h
      rw [h, Option.map_some]

/-- Statements say no rule. -/
theorem Content.ofStatement?_ne_rule (text selector : List Char) :
    ofStatement? text ≠ some (.rule selector) := by
  intro hrule
  rcases ofStatement?_cases text with
    ⟨hnone, -⟩ | ⟨rest, -, hsome⟩ | ⟨before, after, -, -, hsome⟩
  · simp [hnone] at hrule
  · simp [hsome] at hrule
  · simp [hsome] at hrule

/-- No statement is a rule. -/
theorem content_ne_rule {p : Point} {text : List Char} {semicolon : Option Point} {node : Node}
    (h : node ∈ Node.preorderAll (statementNode? p text semicolon).toList) (selector : List Char) :
    node.content ≠ .rule selector := by
  rcases Option.map_eq_some_iff.mp (statementNode?_eq_some_of_mem h) with ⟨content, hcontent, rfl⟩
  intro hrule
  obtain rfl : content = .rule selector := hrule
  exact Content.ofStatement?_ne_rule text selector hcontent

end Sheet
end StyleAtlas
