import StyleAtlas.Proofs.Index.Search
import StyleAtlas.Proofs.Loop

/-!
# Halving among ordered candidates

Siblings usually stand in source order: neither their starts nor their ends go back.  They may still
share a place with others or be empty.  Among such candidates the halving search is exact.  Those
that start past the offset are the last ones, so halving ends at the last candidate that does not;
and if any candidate contains the offset, that one does.  So a search among ordered candidates
answers with the last candidate around the offset, and never has to look for the tightest.

Main results:

- Definition `Index.binarySearch`: halving as a loop, whose rounds read the candidates one by one.
- Theorem `Index.loop_halvingRound`: the loop ends where `Index.halve` does.
- Definition `Index.Ordered`: candidates whose starts and ends do not go back.
- Theorem `Index.exists_narrowed`: where halving ends among ordered candidates.
- Theorem `Index.ordered_search_finds_last`: searches among ordered candidates.
-/

namespace StyleAtlas
namespace Index

variable {α : Type}

/-! ## The halving loop -/

/-- A stretch of candidates that is searched. -/
structure Stretch where
  base : Nat
  size : Nat
deriving DecidableEq, Repr

/-- One round of halving: the upper half of the stretch is kept unless its first candidate lies
after the offset.  A stretch of one candidate is the answer. -/
def halvingRound (extent : α → Extent) (candidates : List α) (offset : Nat) (s : Stretch) :
    Option (Stretch ⊕ Nat) :=
  if 1 < s.size then do
    let half := s.size / 2
    let middle := s.base + half
    let a ← candidates[middle]?
    some (.inl ⟨if (extent a).locate offset = .gt then s.base else middle, s.size - half⟩)
  else some (.inr s.base)

/-- The index that halving finds: where the loop ends, if the candidate there contains the offset.
There is no answer at all where a round reads past the candidates. -/
def binarySearch (extent : α → Extent) (candidates : List α) (offset : Nat) :
    Option (Option Nat) :=
  if candidates.isEmpty then some none
  else do
    let base ← loop (halvingRound extent candidates offset) ⟨0, candidates.length⟩
    let a ← candidates[base]?
    some (if (extent a).locate offset = .eq then some base else none)

section Loop

variable {extent : α → Extent} {candidates : List α} {offset : Nat}

/-- A round on a stretch that is not down to one candidate. -/
theorem halvingRound_of_lt {s : Stretch} {a : α} (hsize : 1 < s.size)
    (ha : candidates[s.base + s.size / 2]? = some a) :
    halvingRound extent candidates offset s =
      some (.inl ⟨if (extent a).locate offset = .gt then s.base else s.base + s.size / 2,
        s.size - s.size / 2⟩) := by
  simp only [halvingRound, if_pos hsize, ha, Option.bind_eq_bind, Option.bind_some]

/-- A stretch of one candidate is the answer. -/
theorem halvingRound_of_le {s : Stretch} (hsize : s.size ≤ 1) :
    halvingRound extent candidates offset s = some (.inr s.base) :=
  if_neg (by omega)

/-- On which side of the offset a candidate lies; past the last one, after it. -/
def sideOf (extent : α → Extent) (candidates : List α) (offset i : Nat) : Ordering :=
  match candidates[i]? with
  | some a => (extent a).locate offset
  | none => .gt

/-- Among the candidates the loop ends where `halve` does: every round leaves fewer of them, so as
many halvings as there are candidates are enough. -/
theorem loop_halvingRound (fuel : Nat) {base size : Nat} (hfuel : size ≤ fuel + 1)
    (hwithin : base + size ≤ candidates.length) :
    loop (halvingRound extent candidates offset) ⟨base, size⟩ =
      some (halve (sideOf extent candidates offset) fuel base size) := by
  induction fuel generalizing base size with
  | zero => exact loop_answer (halvingRound_of_le (by simpa using hfuel))
  | succ fuel ih =>
      by_cases hsize : size ≤ 1
      · rw [halve, if_pos hsize]
        exact loop_answer (halvingRound_of_le hsize)
      · have hlt : base + size / 2 < candidates.length := by omega
        have ha := List.getElem?_eq_getElem hlt
        have hside : sideOf extent candidates offset (base + size / 2) =
            (extent candidates[base + size / 2]).locate offset := by rw [sideOf, ha]
        rw [loop_next (halvingRound_of_lt (by simpa using hsize) ha), halve, if_neg hsize]
        simp only [hside]
        apply ih
        · omega
        · split <;> omega

/-- What the loop ends at decides the search, and the halving search answers with the candidate at
the index that was found. -/
theorem binarySearch_of_loop {base : Nat} {a : α}
    (hloop : loop (halvingRound extent candidates offset) ⟨0, candidates.length⟩ = some base)
    (ha : candidates[base]? = some a) :
    binarySearch extent candidates offset =
        some (if (extent a).contains offset = true then some base else none) ∧
      halvingSearch? extent candidates offset =
        if (extent a).contains offset = true then some a else none := by
  have hne : ¬candidates.isEmpty = true := by
    rintro hempty
    rw [List.isEmpty_iff.mp hempty] at ha
    simp at ha
  have hhalve : halve (sideOf extent candidates offset) candidates.length 0 candidates.length =
      base := by
    rw [loop_halvingRound candidates.length (by omega) (by omega)] at hloop
    exact Option.some.inj hloop
  constructor
  · rw [binarySearch, if_neg hne, hloop]
    simp only [Option.bind_eq_bind, Option.bind_some, ha, Extent.locate_eq_eq_iff]
  · have hsearch : halvingSearch? extent candidates offset =
        match candidates[halve (sideOf extent candidates offset) candidates.length 0
          candidates.length]? with
        | some a => if (extent a).locate offset = Ordering.eq then some a else none
        | none => none := rfl
    simp only [hsearch, hhalve, ha, Extent.locate_eq_eq_iff]

end Loop

/-! ## Ordered candidates -/

/-- Neither the starts nor the ends of the candidates go back. -/
def Ordered (extent : α → Extent) (candidates : List α) : Prop :=
  candidates.Pairwise fun a b =>
    (extent a).start ≤ (extent b).start ∧ (extent a).stop ≤ (extent b).stop

instance (extent : α → Extent) (candidates : List α) : Decidable (Ordered extent candidates) :=
  inferInstanceAs (Decidable (candidates.Pairwise fun a b =>
    (extent a).start ≤ (extent b).start ∧ (extent a).stop ≤ (extent b).stop))

/-- A candidate contains the offset, and none behind it does. -/
structure LastAround (extent : α → Extent) (candidates : List α) (offset i : Nat) : Prop where
  around : ∃ a, candidates[i]? = some a ∧ (extent a).contains offset = true
  last : ∀ j a, i < j → candidates[j]? = some a → (extent a).contains offset = false

/-- Where halving has come to: the candidates behind the stretch start past the offset, and the
first one of the stretch does not, unless it is the very first. -/
structure Narrowed (extent : α → Extent) (candidates : List α) (offset : Nat) (s : Stretch) :
    Prop where
  pos : 0 < s.size
  within : s.base + s.size ≤ candidates.length
  behind : ∀ j a, s.base + s.size ≤ j → candidates[j]? = some a → offset < (extent a).start
  reached : ∀ a, 0 < s.base → candidates[s.base]? = some a → (extent a).start ≤ offset

section Ordered

variable {extent : α → Extent} {candidates : List α} {offset : Nat}

/-- A candidate further on neither starts nor ends earlier. -/
theorem Ordered.le {i j : Nat} {a b : α} (h : Ordered extent candidates) (hij : i ≤ j)
    (ha : candidates[i]? = some a) (hb : candidates[j]? = some b) :
    (extent a).start ≤ (extent b).start ∧ (extent a).stop ≤ (extent b).stop := by
  rcases Nat.lt_or_eq_of_le hij with hlt | rfl
  · obtain ⟨hi, rfl⟩ := List.getElem?_eq_some_iff.mp ha
    obtain ⟨hj, rfl⟩ := List.getElem?_eq_some_iff.mp hb
    exact List.pairwise_iff_getElem.mp h i j hi hj hlt
  · obtain rfl := Option.some.inj (ha.symm.trans hb)
    exact ⟨Nat.le_refl _, Nat.le_refl _⟩

/-- A round keeps the stretch narrowed and makes it smaller. -/
theorem Narrowed.halvingRound {s : Stretch} (h : Narrowed extent candidates offset s)
    (hordered : Ordered extent candidates) (hsize : 1 < s.size) :
    ∃ next, halvingRound extent candidates offset s = some (.inl next) ∧
      Narrowed extent candidates offset next ∧ next.size < s.size := by
  have hwithin := h.within
  have hlt : s.base + s.size / 2 < candidates.length := by omega
  have ha := List.getElem?_eq_getElem hlt
  refine ⟨_, halvingRound_of_lt hsize ha, ?_, by simp only; omega⟩
  by_cases hside : (extent candidates[s.base + s.size / 2]).locate offset = .gt
  · -- All candidates from the middle on start past the offset, so the lower half is kept.
    rw [Extent.locate_eq_gt_iff] at hside
    simp only [if_pos ((Extent.locate_eq_gt_iff _ _).mpr hside)]
    refine ⟨by simp only; omega, by simp only; omega, ?_, h.reached⟩
    intro j b hj hb
    simp only at hj
    exact Nat.lt_of_lt_of_le hside (hordered.le (by omega) ha hb).1
  · simp only [if_neg hside]
    rw [Extent.locate_eq_gt_iff, Nat.not_lt] at hside
    refine ⟨by simp only; omega, by simp only; omega, ?_, ?_⟩
    · intro j b hj hb
      simp only at hj
      exact h.behind j b (by omega) hb
    · intro b _ hb
      obtain rfl := Option.some.inj (ha.symm.trans hb)
      exact hside

/-- Halving ends at one candidate: all candidates behind it start past the offset, and it does not
itself unless all of them do. -/
theorem exists_narrowed (hordered : Ordered extent candidates) (hne : candidates ≠ [])
    (offset : Nat) :
    ∃ base, loop (halvingRound extent candidates offset) ⟨0, candidates.length⟩ = some base ∧
      Narrowed extent candidates offset ⟨base, 1⟩ := by
  -- What is known of both sides of the stretch stays, and its size falls to one.
  refine exists_loop (Narrowed extent candidates offset) Stretch.size ?_ ?_
  · intro s hs
    by_cases hsize : 1 < s.size
    · exact Or.inl (hs.halvingRound hordered hsize)
    · have hone : s.size = 1 := by
        have := hs.pos
        omega
      refine Or.inr ⟨s.base, halvingRound_of_le (by omega), ?_⟩
      rw [← hone]
      exact hs
  · refine ⟨List.length_pos_iff.mpr hne, by simp, ?_, by simp⟩
    intro j a hj ha
    rw [List.getElem?_eq_none (by simpa using hj)] at ha
    simp at ha

/-- Where any candidate contains the offset, the one that halving ends at is the last that does. -/
theorem Narrowed.lastAround {base i : Nat} {a : α}
    (h : Narrowed extent candidates offset ⟨base, 1⟩) (hordered : Ordered extent candidates)
    (ha : candidates[i]? = some a) (hcontains : (extent a).contains offset = true) :
    LastAround extent candidates offset base := by
  simp only [Extent.contains, Bool.and_eq_true, decide_eq_true_eq] at hcontains
  have hle : i ≤ base := by
    refine Nat.le_of_not_lt fun hlt => ?_
    have hpast := h.behind i a hlt ha
    omega
  have hlt : base < candidates.length := h.within
  have hbase := List.getElem?_eq_getElem hlt
  have hstop := (hordered.le hle ha hbase).2
  have hstart : (extent candidates[base]).start ≤ offset := by
    rcases Nat.eq_zero_or_pos base with rfl | hpos
    · obtain rfl : i = 0 := by omega
      obtain rfl := Option.some.inj (ha.symm.trans hbase)
      exact hcontains.1
    · exact h.reached _ hpos hbase
  refine ⟨⟨_, hbase, ?_⟩, ?_⟩
  · simp only [Extent.contains, Bool.and_eq_true, decide_eq_true_eq]
    exact ⟨hstart, by omega⟩
  · intro j b hj hb
    have hpast := h.behind j b hj hb
    simp only [Extent.contains, Bool.and_eq_false_iff, decide_eq_false_iff_not]
    omega

/-- The last candidate around the offset, read off all that are around it. -/
theorem LastAround.getLast?_filter {i : Nat} (h : LastAround extent candidates offset i) :
    (candidates.filter fun a => (extent a).contains offset).getLast? = candidates[i]? := by
  rcases h.around with ⟨a, ha, hcontains⟩
  obtain ⟨hi, rfl⟩ := List.getElem?_eq_some_iff.mp ha
  have hbehind : (candidates.drop (i + 1)).filter (fun a => (extent a).contains offset) = [] := by
    rw [List.filter_eq_nil_iff]
    intro b hb
    obtain ⟨k, hk⟩ := List.mem_iff_getElem?.mp hb
    rw [List.getElem?_drop] at hk
    simp [h.last (i + 1 + k) b (by omega) hk]
  have hsplit : candidates = candidates.take i ++ candidates[i] :: candidates.drop (i + 1) := by
    rw [← List.drop_eq_getElem_cons hi, List.take_append_drop]
  calc (candidates.filter fun a => (extent a).contains offset).getLast?
      = ((candidates.take i ++ candidates[i] :: candidates.drop (i + 1)).filter
          fun a => (extent a).contains offset).getLast? := by rw [← hsplit]
    _ = some candidates[i] := by
        rw [List.filter_append, List.filter_cons, if_pos hcontains, hbehind]
        exact List.getLast?_concat
    _ = candidates[i]? := ha.symm

/-- Halving finds nothing where no candidate contains the offset, and the last one that does where
there are some. -/
theorem binarySearch_cases (hordered : Ordered extent candidates) (offset : Nat) :
    (binarySearch extent candidates offset = some none ∧
        halvingSearch? extent candidates offset = none ∧
        ∀ a ∈ candidates, (extent a).contains offset = false) ∨
      ∃ i, binarySearch extent candidates offset = some (some i) ∧
        halvingSearch? extent candidates offset = candidates[i]? ∧
        LastAround extent candidates offset i := by
  by_cases hempty : candidates = []
  · subst hempty
    exact Or.inl ⟨rfl, rfl, by simp⟩
  rcases exists_narrowed hordered hempty offset with ⟨base, hloop, hnarrowed⟩
  have hlt : base < candidates.length := hnarrowed.within
  have hbase := List.getElem?_eq_getElem hlt
  rcases binarySearch_of_loop hloop hbase with ⟨hfound, hhalving⟩
  by_cases hcontains : (extent candidates[base]).contains offset = true
  · rw [if_pos hcontains] at hfound hhalving
    exact Or.inr ⟨base, hfound, hhalving.trans hbase.symm,
      hnarrowed.lastAround hordered hbase hcontains⟩
  · rw [if_neg hcontains] at hfound hhalving
    refine Or.inl ⟨hfound, hhalving, fun a ha => ?_⟩
    obtain ⟨i, hi⟩ := List.mem_iff_getElem?.mp ha
    refine Bool.eq_false_iff.mpr fun hinside => hcontains ?_
    rcases (hnarrowed.lastAround hordered hi hinside).around with ⟨b, hb, haround⟩
    obtain rfl := Option.some.inj (hb.symm.trans hbase)
    exact haround

end Ordered

/-- Searches among candidates whose starts and ends do not go back, however many there are and
whether or not they share places or are empty.  Halving reads candidates only, and finds an index
exactly if some candidate contains the offset: that of the last one that does.  The search answers
with this candidate, or with nothing, and where halving finds nothing the search for the tightest
candidate behind it finds nothing either. -/
theorem ordered_search_finds_last (extent : α → Extent) {candidates : List α}
    (hordered : Ordered extent candidates) (offset : Nat) :
    ∃ found, binarySearch extent candidates offset = some found ∧
      (found.isSome = true ↔ ∃ a ∈ candidates, (extent a).contains offset = true) ∧
      (∀ i, found = some i → LastAround extent candidates offset i) ∧
      halvingSearch? extent candidates offset = found.bind (candidates[·]?) ∧
      search extent candidates offset = found.bind (candidates[·]?) ∧
      search extent candidates offset =
        (candidates.filter fun a => (extent a).contains offset).getLast? ∧
      (found = none → tightest? extent candidates offset = none) := by
  rcases binarySearch_cases hordered offset with
    ⟨hfound, hhalving, hnone⟩ | ⟨i, hfound, hhalving, hlast⟩
  · have hsearch : search extent candidates offset = none := search_eq_none_iff.mpr hnone
    have htightest : tightest? extent candidates offset = none := by
      rwa [search, hhalving] at hsearch
    refine ⟨none, hfound, ?_, by simp, hhalving, hsearch, ?_, fun _ => htightest⟩
    · simpa using hnone
    · rw [hsearch, List.filter_eq_nil_iff.mpr fun a ha => by simp [hnone a ha]]
      rfl
  · rcases hlast.around with ⟨a, ha, hcontains⟩
    have hsearch : search extent candidates offset = candidates[i]? := by
      rw [search, hhalving, ha]
    refine ⟨some i, hfound, ?_, ?_, hhalving, hsearch, ?_, by simp⟩
    · simpa using ⟨a, List.mem_of_getElem? ha, hcontains⟩
    · rintro j hj
      obtain rfl := Option.some.inj hj
      exact hlast
    · rw [hsearch, hlast.getLast?_filter]

/-- Two siblings at the same place, behind an empty one and in front of another. -/
def twinSiblings : List (Nat × Extent) :=
  [(0, ⟨0, 4⟩), (1, ⟨4, 4⟩), (2, ⟨4, 8⟩), (3, ⟨4, 8⟩), (4, ⟨8, 8⟩)]

/-- Of two siblings at the same place the second is found. -/
theorem ordered_search_finds_last_twinSiblings :
    Ordered Prod.snd twinSiblings ∧
      ∃ found, binarySearch Prod.snd twinSiblings 5 = some found ∧
        (found.isSome = true ↔ ∃ a ∈ twinSiblings, a.2.contains 5 = true) ∧
        (∀ i, found = some i → LastAround Prod.snd twinSiblings 5 i) ∧
        halvingSearch? Prod.snd twinSiblings 5 = found.bind (twinSiblings[·]?) ∧
        search Prod.snd twinSiblings 5 = found.bind (twinSiblings[·]?) ∧
        search Prod.snd twinSiblings 5 = some (3, ⟨4, 8⟩) ∧
        (found = none → tightest? Prod.snd twinSiblings 5 = none) := by
  have hordered : Ordered Prod.snd twinSiblings := by decide
  exact ⟨hordered, ordered_search_finds_last Prod.snd hordered 5⟩

end Index
end StyleAtlas
