import Mathlib.Data.List.Basic
import Mathlib.Logic.Function.Iterate
import StyleAtlas.Outline.Backfill

/-!
# Walking back over visible characters

Walking back from an offset scans the text twice for a character that is not blank.  Here the
walk is described without a scan, by the ascending list of the offsets just past the visible
characters: one step leads from an offset to the last but one of those at or before it.

Main results:

- Definitions `visibleEnds` and `stepBack`: the list, and the step read off it.
- Theorem `walkBack_eq_stepBack`: the scan takes exactly this step.
- Theorem `closingEnd_eq_iterate`: the end of a node is an iterated step.
- Theorem `le_iterate_stepBack_iff`: a walk of several steps stays at or past an offset exactly
  when enough visible characters end in between.
- Theorem `stepBack_past_delimiter`: a step over a closing character leads to the last visible
  character before it.
-/

namespace StyleAtlas

/-- Blanks. -/
structure Gap where
  chars : List Char
  blank : ∀ c ∈ chars, Text.isBlank c = true

namespace Text

/-! ## Visible ends -/

/-- The offsets just past the visible characters of a text, in ascending order. -/
def visibleEnds : List Char → List Nat
  | [] => []
  | c :: cs =>
      (if isBlank c then [] else [c.utf8Size]) ++ (visibleEnds cs).map (c.utf8Size + ·)

/-- The visible ends at or before an offset. -/
def visibleEndsTo (cs : List Char) (offset : Nat) : List Nat :=
  (visibleEnds cs).filter (· ≤ offset)

/-- The last but one of the visible ends at or before an offset; zero where there is none. -/
def stepBack (cs : List Char) (offset : Nat) : Nat :=
  (visibleEndsTo cs offset).dropLast.getLast?.getD 0

@[simp]
theorem visibleEnds_nil : visibleEnds [] = [] :=
  rfl

/-- A visible end lies past the first byte. -/
theorem pos_of_mem_visibleEnds {cs : List Char} {e : Nat} (h : e ∈ visibleEnds cs) : 0 < e := by
  cases cs with
  | nil => simp at h
  | cons c cs =>
      have hc : 0 < c.utf8Size := c.utf8Size_pos
      simp only [visibleEnds, List.mem_append, List.mem_map] at h
      rcases h with h | ⟨e', _, rfl⟩
      · split at h
        · simp at h
        · simp at h
          omega
      · omega

/-- A visible end lies in the text. -/
theorem le_byteSize_of_mem_visibleEnds {cs : List Char} {e : Nat} (h : e ∈ visibleEnds cs) :
    e ≤ byteSize cs := by
  induction cs generalizing e with
  | nil => simp at h
  | cons c cs ih =>
      simp only [visibleEnds, List.mem_append, List.mem_map] at h
      rcases h with h | ⟨e', he', rfl⟩
      · split at h
        · simp at h
        · simp at h
          simp [h]
      · simpa using ih he'

/-- The visible ends of a concatenation. -/
theorem visibleEnds_append (cs ds : List Char) :
    visibleEnds (cs ++ ds) = visibleEnds cs ++ (visibleEnds ds).map (byteSize cs + ·) := by
  induction cs with
  | nil => simp
  | cons c cs ih =>
      simp only [List.cons_append, visibleEnds, ih, List.map_append, List.map_map,
        List.append_assoc, byteSize_cons]
      congr 3
      funext e
      simp only [Function.comp_apply]
      omega

/-- Blanks have no visible ends. -/
theorem visibleEnds_eq_nil {cs : List Char} (h : ∀ c ∈ cs, isBlank c = true) :
    visibleEnds cs = [] := by
  induction cs with
  | nil => rfl
  | cons c cs ih =>
      have hc : isBlank c = true := h c (by simp)
      have hcs : visibleEnds cs = [] := ih fun d hd => h d (by simp [hd])
      simp [visibleEnds, hc, hcs]

/-- Visible ends ascend. -/
theorem visibleEnds_pairwise (cs : List Char) : (visibleEnds cs).Pairwise (· < ·) := by
  induction cs with
  | nil => simp
  | cons c cs ih =>
      have hrest : ((visibleEnds cs).map (c.utf8Size + ·)).Pairwise (· < ·) := by
        rw [List.pairwise_map]
        exact ih.imp fun h => by omega
      unfold visibleEnds
      split
      · simpa using hrest
      · refine List.pairwise_cons.mpr ⟨?_, hrest⟩
        intro e he
        obtain ⟨e', he', rfl⟩ := List.mem_map.mp he
        have := pos_of_mem_visibleEnds he'
        omega

/-- The last visible end is the size of the text without its trailing blanks. -/
theorem visibleEnds_getLast?_getD (cs : List Char) :
    (visibleEnds cs).getLast?.getD 0 = byteSize (trimEnd cs) := by
  induction cs with
  | nil => simp [trimEnd]
  | cons c cs ih =>
      unfold visibleEnds trimEnd
      cases htrim : trimEnd cs with
      | nil =>
          rw [htrim, byteSize_nil] at ih
          have hnil : visibleEnds cs = [] := by
            by_contra hne
            have hlast := List.getLast?_eq_some_getLast hne
            rw [hlast, Option.getD_some] at ih
            have := pos_of_mem_visibleEnds (List.getLast_mem hne)
            omega
          by_cases hc : isBlank c <;> simp [hnil, hc]
      | cons d ds =>
          rw [htrim] at ih
          have hd : 0 < d.utf8Size := d.utf8Size_pos
          cases hlast : (visibleEnds cs).getLast? with
          | none =>
              rw [hlast] at ih
              simp at ih
              omega
          | some e =>
              rw [hlast, Option.getD_some] at ih
              simp [List.getLast?_append, hlast, ih]

/-! ## One step -/

/-- The visible ends up to an offset are those at or before it. -/
theorem mem_visibleEndsTo {cs : List Char} {offset e : Nat} :
    e ∈ visibleEndsTo cs offset ↔ e ∈ visibleEnds cs ∧ e ≤ offset := by
  simp [visibleEndsTo]

/-- Visible ends up to an offset ascend. -/
theorem visibleEndsTo_pairwise (cs : List Char) (offset : Nat) :
    (visibleEndsTo cs offset).Pairwise (· < ·) :=
  (visibleEnds_pairwise cs).filter _

theorem visibleEndsTo_zero (cs : List Char) : visibleEndsTo cs 0 = [] := by
  rw [visibleEndsTo, List.filter_eq_nil_iff]
  intro e he
  have := pos_of_mem_visibleEnds he
  simp
  omega

/-- The visible ends of a text behind its first character, seen from the whole text. -/
theorem filter_map_visibleEnds (cs : List Char) {size limit : Nat} (h : size ≤ limit) :
    ((visibleEnds cs).map (size + ·)).filter (· ≤ limit) =
      (visibleEndsTo cs (limit - size)).map (size + ·) := by
  rw [List.filter_map, visibleEndsTo]
  congr 2
  funext e
  simp only [Function.comp_apply, decide_eq_decide]
  omega

/-- Behind a character, visible ends are those of the text after it. -/
theorem visibleEndsTo_cons {c : Char} (cs : List Char) {limit : Nat} (h : c.utf8Size ≤ limit) :
    visibleEndsTo (c :: cs) limit =
      (if isBlank c then [] else [c.utf8Size]) ++
        (visibleEndsTo cs (limit - c.utf8Size)).map (c.utf8Size + ·) := by
  rw [visibleEndsTo, visibleEnds, List.filter_append, filter_map_visibleEnds cs h]
  congr 1
  split <;> simp [h]

/-- No character ends inside the first one. -/
theorem visibleEndsTo_cons_of_lt {c : Char} (cs : List Char) {limit : Nat}
    (h : limit < c.utf8Size) : visibleEndsTo (c :: cs) limit = [] := by
  rw [visibleEndsTo, List.filter_eq_nil_iff]
  intro e he
  simp only [visibleEnds, List.mem_append, List.mem_map] at he
  rcases he with he | ⟨e', _, rfl⟩
  · split at he <;> simp at he
    simp [he, h]
  · simp
    omega

/-- The scan finds no visible character exactly where no visible end lies. -/
theorem lastVisible?_eq_none_iff (cs : List Char) (limit : Nat) :
    lastVisible? cs limit = none ↔ visibleEndsTo cs limit = [] := by
  induction cs generalizing limit with
  | nil => simp [lastVisible?, visibleEndsTo]
  | cons c cs ih =>
      unfold lastVisible?
      split
      · rename_i hlt
        simp [visibleEndsTo_cons_of_lt cs hlt]
      · rename_i hle
        rw [visibleEndsTo_cons cs (Nat.not_lt.mp hle)]
        have hrest := ih (limit - c.utf8Size)
        cases hfound : lastVisible? cs (limit - c.utf8Size) with
        | none =>
            rw [hrest.mp hfound]
            by_cases hc : isBlank c <;> simp [hc]
        | some found =>
            have hne : visibleEndsTo cs (limit - c.utf8Size) ≠ [] := by
              intro hnil
              rw [hrest.mpr hnil] at hfound
              simp at hfound
            simp [hne]

/-- The character that the scan finds ends at the last visible end, and the visible ends before it
are all the others. -/
theorem lastVisible?_eq_some {cs : List Char} {limit : Nat} {found : Nat × Nat}
    (h : lastVisible? cs limit = some found) :
    visibleEndsTo cs limit = visibleEndsTo cs found.1 ++ [found.1 + found.2] := by
  induction cs generalizing limit found with
  | nil => simp [lastVisible?] at h
  | cons c cs ih =>
      unfold lastVisible? at h
      split at h
      · simp at h
      · rename_i hle
        rw [visibleEndsTo_cons cs (Nat.not_lt.mp hle)]
        cases hrest : lastVisible? cs (limit - c.utf8Size) with
        | some later =>
            rw [hrest] at h
            simp only [Option.some.injEq] at h
            subst h
            rw [visibleEndsTo_cons cs (Nat.le_add_right _ _), ih hrest]
            simp [Nat.add_assoc]
        | none =>
            rw [hrest] at h
            rw [(lastVisible?_eq_none_iff cs _).mp hrest]
            by_cases hc : isBlank c
            · simp [hc] at h
            · simp only [hc] at h
              simp at h
              subst h
              simp [visibleEndsTo_zero, hc]

/-- Walking back by two scans is one step down the list of visible ends. -/
theorem walkBack_eq_stepBack (cs : List Char) (offset : Nat) :
    walkBack cs offset = stepBack cs offset := by
  unfold walkBack stepBack
  cases hdelimiter : lastVisible? cs offset with
  | none => simp [(lastVisible?_eq_none_iff cs offset).mp hdelimiter]
  | some delimiter =>
      rw [lastVisible?_eq_some hdelimiter, List.dropLast_concat]
      dsimp only
      cases hfound : lastVisible? cs delimiter.1 with
      | none => simp [(lastVisible?_eq_none_iff cs delimiter.1).mp hfound]
      | some found => simp [lastVisible?_eq_some hfound]

/-- The end of a node some levels below the outermost closed one is an iterated step. -/
theorem closingEnd_eq_iterate (cs : List Char) (boundary levels : Nat) :
    closingEnd cs boundary levels = (stepBack cs)^[levels] boundary := by
  induction levels with
  | zero => rfl
  | succ levels ih =>
      rw [closingEnd, walkBack_eq_stepBack, ih, Function.iterate_succ_apply']

/-! ## Several steps -/

/-- The visible ends at or before the place that a step leads to. -/
theorem visibleEndsTo_stepBack (cs : List Char) (offset : Nat) :
    visibleEndsTo cs (stepBack cs offset) = (visibleEndsTo cs offset).dropLast := by
  rcases List.eq_nil_or_concat (visibleEndsTo cs offset).dropLast with hnil | ⟨front, e, hfront⟩
  · rw [stepBack, hnil]
    simpa using visibleEndsTo_zero cs
  · have hstep : stepBack cs offset = e := by
      rw [stepBack, hfront]
      simp
    have hne : visibleEndsTo cs offset ≠ [] := by
      intro h
      rw [h] at hfront
      simp at hfront
    obtain ⟨last, hlast⟩ : ∃ last, visibleEndsTo cs offset = front ++ [e] ++ [last] := by
      refine ⟨(visibleEndsTo cs offset).getLast hne, ?_⟩
      rw [List.concat_eq_append] at hfront
      rw [← hfront, List.dropLast_concat_getLast]
    have hsorted := visibleEndsTo_pairwise cs offset
    rw [hlast, List.append_assoc, List.pairwise_append] at hsorted
    have hfrontLt : ∀ a ∈ front, a ≤ e := fun a ha =>
      Nat.le_of_lt (hsorted.2.2 a ha e (by simp))
    have hlastLt : e < last := by simpa using hsorted.2.1
    have hle : e ≤ offset := by
      have : e ∈ visibleEndsTo cs offset := by simp [hlast]
      exact (mem_visibleEndsTo.mp this).2
    have hnarrow : visibleEndsTo cs e = (visibleEndsTo cs offset).filter (· ≤ e) := by
      rw [visibleEndsTo, visibleEndsTo, List.filter_filter]
      refine List.filter_congr fun a _ => ?_
      simp
      omega
    rw [hstep, hnarrow, hlast, List.dropLast_concat, List.filter_append, List.filter_append,
      List.filter_eq_self.mpr (by simpa using hfrontLt)]
    simp [Nat.not_le.mpr hlastLt]

/-- Walking back never goes forward. -/
theorem stepBack_le (cs : List Char) (offset : Nat) : stepBack cs offset ≤ offset := by
  unfold stepBack
  cases hlast : (visibleEndsTo cs offset).dropLast.getLast? with
  | none => simp
  | some e =>
      have hmem : e ∈ visibleEndsTo cs offset :=
        List.dropLast_subset _ (List.mem_of_getLast? hlast)
      exact (mem_visibleEndsTo.mp hmem).2

/-- Steps back lead to no later offset. -/
theorem iterate_stepBack_le (cs : List Char) (steps offset : Nat) :
    (stepBack cs)^[steps] offset ≤ offset := by
  induction steps with
  | zero => simp
  | succ steps ih =>
      rw [Function.iterate_succ_apply']
      exact Nat.le_trans (stepBack_le cs _) ih

/-- The number of visible characters that end between two offsets. -/
def visibleBetween (cs : List Char) (start stop : Nat) : Nat :=
  (visibleEndsTo cs stop).countP (start ≤ ·)

/-- A step takes one visible character away from what lies past an offset. -/
theorem visibleBetween_stepBack (cs : List Char) (start stop : Nat) :
    visibleBetween cs start (stepBack cs stop) = visibleBetween cs start stop - 1 := by
  unfold visibleBetween
  rw [visibleEndsTo_stepBack]
  rcases List.eq_nil_or_concat (visibleEndsTo cs stop) with hnil | ⟨front, last, hconcat⟩
  · simp [hnil]
  · rw [hconcat, List.concat_eq_append, List.dropLast_concat, List.countP_append]
    by_cases hlast : start ≤ last
    · simp [hlast]
    · -- The ends ascend, so none of them reaches the start when the last does not.
      have hsorted := visibleEndsTo_pairwise cs stop
      rw [hconcat, List.concat_eq_append, List.pairwise_append] at hsorted
      have hnone : front.countP (start ≤ ·) = 0 := by
        rw [List.countP_eq_zero]
        intro e he
        have := hsorted.2.2 e he last (by simp)
        simp
        omega
      simp [hlast, hnone]

/-- Each step back leaves one visible character less, as long as there are any. -/
theorem visibleBetween_iterate_stepBack (cs : List Char) (start stop steps : Nat) :
    visibleBetween cs start ((stepBack cs)^[steps] stop) =
      visibleBetween cs start stop - steps := by
  induction steps with
  | zero => rfl
  | succ steps ih =>
      rw [Function.iterate_succ_apply', visibleBetween_stepBack, ih]
      omega

/-- One step stays at or past an offset exactly when two visible characters end from there on. -/
theorem le_stepBack_iff {cs : List Char} {start stop : Nat} (hpos : 0 < start) :
    start ≤ stepBack cs stop ↔ 1 < visibleBetween cs start stop := by
  unfold stepBack visibleBetween
  have hsorted := visibleEndsTo_pairwise cs stop
  rcases List.eq_nil_or_concat (visibleEndsTo cs stop) with hnil | ⟨front, last, hconcat⟩
  · simp [hnil]
    omega
  · rw [hconcat, List.concat_eq_append] at hsorted ⊢
    rw [List.dropLast_concat, List.countP_append]
    rcases List.eq_nil_or_concat front with hnil | ⟨front', e, hfront⟩
    · simp [hnil]
      split <;> omega
    · rw [hfront, List.concat_eq_append] at hsorted ⊢
      have hlt : e < last := by
        rw [List.pairwise_append] at hsorted
        exact hsorted.2.2 e (by simp) last (by simp)
      rw [List.pairwise_append, List.pairwise_append] at hsorted
      simp only [List.getLast?_concat, Option.getD_some, List.countP_append]
      by_cases he : start ≤ e
      · simp [he, Nat.le_trans he (Nat.le_of_lt hlt)]
      · have hnone : front'.countP (start ≤ ·) = 0 := by
          rw [List.countP_eq_zero]
          intro a ha
          have := hsorted.1.2.2 a ha e (by simp)
          simp
          omega
        simp [he, hnone]
        split <;> omega

/-- A walk of at least one step stays at or past an offset exactly when more visible characters
end from there on than steps are taken. -/
theorem le_iterate_stepBack_iff {cs : List Char} {start stop steps : Nat} (hpos : 0 < start) :
    start ≤ (stepBack cs)^[steps + 1] stop ↔ steps + 1 < visibleBetween cs start stop := by
  rw [Function.iterate_succ_apply', le_stepBack_iff hpos, visibleBetween_iterate_stepBack]
  omega

/-! ## Trailing blanks -/

/-- Trailing blanks make no difference. -/
theorem trimEnd_append_blank (cs : List Char) {gap : List Char}
    (h : ∀ c ∈ gap, isBlank c = true) : trimEnd (cs ++ gap) = trimEnd cs := by
  induction cs with
  | nil =>
      induction gap with
      | nil => rfl
      | cons c gap ih =>
          have hgap : trimEnd gap = [] := ih fun d hd => h d (by simp [hd])
          simp [trimEnd, hgap, h c (by simp)]
  | cons c cs ih => simp [trimEnd, ih]

/-- A text that ends visibly has no trailing blanks. -/
theorem trimEnd_concat (cs : List Char) {c : Char} (h : isBlank c = false) :
    trimEnd (cs ++ [c]) = cs ++ [c] := by
  induction cs with
  | nil => simp [trimEnd, h]
  | cons d cs ih =>
      rw [List.cons_append, trimEnd, ih]
      cases cs <;> rfl

/-! ## Closing characters -/

/-- At a cut of the text all visible ends of the first part, and no others, lie before. -/
theorem visibleEndsTo_byteSize (cs ds : List Char) :
    visibleEndsTo (cs ++ ds) (byteSize cs) = visibleEnds cs := by
  rw [visibleEndsTo, visibleEnds_append, List.filter_append]
  have hfirst : (visibleEnds cs).filter (· ≤ byteSize cs) = visibleEnds cs := by
    rw [List.filter_eq_self]
    intro e he
    simpa using le_byteSize_of_mem_visibleEnds he
  have hsecond : ((visibleEnds ds).map (byteSize cs + ·)).filter (· ≤ byteSize cs) = [] := by
    rw [List.filter_eq_nil_iff]
    intro e he
    obtain ⟨e', he', rfl⟩ := List.mem_map.mp he
    have := pos_of_mem_visibleEnds he'
    simp
    omega
  rw [hfirst, hsecond, List.append_nil]

/-- A step over a closing character, with blanks behind it, leads to the last visible character
before it. -/
theorem stepBack_past_delimiter {cs gap ds : List Char} {delimiter : Char}
    (hdelimiter : isBlank delimiter = false) (hgap : ∀ c ∈ gap, isBlank c = true) :
    stepBack (cs ++ delimiter :: gap ++ ds) (byteSize (cs ++ delimiter :: gap)) =
      byteSize (trimEnd cs) := by
  have hends : visibleEnds (cs ++ delimiter :: gap) =
      visibleEnds cs ++ [byteSize cs + delimiter.utf8Size] := by
    rw [visibleEnds_append]
    simp [visibleEnds, hdelimiter, visibleEnds_eq_nil hgap]
  rw [stepBack, visibleEndsTo_byteSize, hends, List.dropLast_concat, visibleEnds_getLast?_getD]

end Text
end StyleAtlas
