import StyleAtlas.Proofs.Links

/-!
# Search among extents is exact

Halving may be misled by candidates that overlap or are out of order, but it never answers with a
candidate that does not contain the offset, and the search for the tightest candidate behind it
misses none.  So a search finds a candidate exactly where one contains the offset, in whatever order
the candidates stand.

Main results:

- Theorems `Index.search_eq_none_iff`, `Index.mem_of_search`: when the search finds something, and
  what it finds.
- Theorem `RangeIndex.nodeAt_eq_none_iff`: a lookup by offset finds a node exactly where some root
  contains the offset.
-/

namespace StyleAtlas
namespace Index

variable {α : Type} {extent : α → Extent} {candidates : List α} {offset : Nat} {a : α}

/-- Halving answers with candidates around the offset only. -/
theorem mem_of_halvingSearch? (h : halvingSearch? extent candidates offset = some a) :
    a ∈ candidates ∧ (extent a).contains offset = true := by
  unfold halvingSearch? at h
  dsimp only at h
  split at h
  · rename_i found hfound
    split at h
    · rename_i hlocate
      obtain rfl := Option.some.inj h
      exact ⟨List.mem_of_getElem? hfound, (Extent.locate_eq_eq_iff _ _).mp hlocate⟩
    · simp at h
  · simp at h

/-- There is a smallest candidate where there is one at all, and it is one of them. -/
theorem smallest?_cases (extent : α → Extent) (candidates : List α) :
    (candidates = [] ∧ smallest? extent candidates = none) ∨
      ∃ a ∈ candidates, smallest? extent candidates = some a := by
  induction candidates with
  | nil => exact Or.inl ⟨rfl, rfl⟩
  | cons a as ih =>
      refine Or.inr ?_
      rcases ih with ⟨rfl, -⟩ | ⟨b, hb, hsmallest⟩
      · exact ⟨a, List.mem_cons_self, rfl⟩
      · simp only [smallest?, hsmallest]
        by_cases hlt : (extent b).size < (extent a).size
        · exact ⟨b, List.mem_cons_of_mem a hb, by simp [hlt]⟩
        · exact ⟨a, List.mem_cons_self, by simp [hlt]⟩

/-- The tightest candidate is one around the offset, and is missed only where there is none. -/
theorem tightest?_cases (extent : α → Extent) (candidates : List α) (offset : Nat) :
    ((∀ a ∈ candidates, (extent a).contains offset = false) ∧
        tightest? extent candidates offset = none) ∨
      ∃ a ∈ candidates, (extent a).contains offset = true ∧
        tightest? extent candidates offset = some a := by
  unfold tightest?
  rcases smallest?_cases extent (candidates.filter fun a => (extent a).contains offset) with
    ⟨hnil, hnone⟩ | ⟨a, ha, hsome⟩
  · refine Or.inl ⟨?_, hnone⟩
    intro a ha
    simpa using List.filter_eq_nil_iff.mp hnil a ha
  · obtain ⟨hmem, hcontains⟩ := List.mem_filter.mp ha
    exact Or.inr ⟨a, hmem, hcontains, hsome⟩

/-- A search finds a candidate that contains the offset. -/
theorem mem_of_search (h : search extent candidates offset = some a) :
    a ∈ candidates ∧ (extent a).contains offset = true := by
  unfold search at h
  split at h
  · rename_i found hfound
    obtain rfl := Option.some.inj h
    exact mem_of_halvingSearch? hfound
  · rcases tightest?_cases extent candidates offset with ⟨-, hnone⟩ | ⟨b, hb, hcontains, hsome⟩
    · rw [hnone] at h
      simp at h
    · rw [hsome] at h
      obtain rfl := Option.some.inj h
      exact ⟨hb, hcontains⟩

/-- A search finds nothing only where no candidate contains the offset. -/
theorem search_eq_none_iff :
    search extent candidates offset = none ↔
      ∀ a ∈ candidates, (extent a).contains offset = false := by
  constructor
  · intro h
    unfold search at h
    split at h
    · simp at h
    · rcases tightest?_cases extent candidates offset with ⟨hall, -⟩ | ⟨b, -, -, hsome⟩
      · exact hall
      · rw [hsome] at h
        simp at h
  · intro h
    cases hsearch : search extent candidates offset with
    | none => rfl
    | some a =>
        obtain ⟨hmem, hcontains⟩ := mem_of_search hsearch
        rw [h a hmem] at hcontains
        simp at hcontains

end Index

namespace RangeIndex

variable {κ : Type} {index : RangeIndex κ}

/-- Links lead to entries. -/
theorem lt_size_of_mem_under {parent : Option Nat} {ordinal : Nat}
    (h : ordinal ∈ index.under parent) : ordinal < index.size := by
  rw [under_eq_indicesOf] at h
  exact (mem_indicesOf_map.mp h).1

/-- Going down from an entry leads to an entry. -/
theorem descend_lt_size {offset fuel ordinal : Nat} (h : ordinal < index.size) :
    index.descend offset fuel ordinal < index.size := by
  induction fuel generalizing ordinal with
  | zero => exact h
  | succ fuel ih =>
      unfold descend
      cases hfound : index.findUnder (some ordinal) offset with
      | none => exact h
      | some child => exact ih (lt_size_of_mem_under (Index.mem_of_search hfound).1)

/-- A lookup by offset finds nothing only where no root contains the offset. -/
theorem nodeAt_eq_none_iff (offset : Nat) :
    index.nodeAt offset = none ↔
      ∀ root ∈ index.under none, (index.extentAt root).contains offset = false := by
  rw [← Index.search_eq_none_iff]
  change _ ↔ index.findUnder none offset = none
  unfold nodeAt
  cases hfound : index.findUnder none offset with
  | none => simp
  | some root =>
      have hroot := lt_size_of_mem_under (Index.mem_of_search hfound).1
      have hlt : index.descend offset 1 root < index.size := descend_lt_size hroot
      simp [keyAt, List.getElem?_eq_getElem hlt]

end RangeIndex
end StyleAtlas
