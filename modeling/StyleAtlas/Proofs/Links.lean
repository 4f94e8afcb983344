import Mathlib.Data.List.Count
import StyleAtlas.Index.Basic
import StyleAtlas.Outline.Forest

/-!
# Lists of links

The nodes of an outline name their parents, and so do the entries of an index; children and roots
are read off these names.  Both are a matter of the list of parents alone: what is under a parent
are the numbers at which the list holds it.

Main results:

- Definition `indicesOf`: the numbers at which a list holds an item.
- Theorems `pairwise_indicesOf` and `count_indicesOf_map`: they ascend, and each stands once in the
  list that it belongs to.
- Theorems `Forest.under_eq_indicesOf` and `RangeIndex.under_eq_indicesOf`: what is under a parent.
-/

namespace StyleAtlas

/-! ## The numbers of an item -/

/-- The numbers at which a list holds an item, in ascending order. -/
def indicesOf {α : Type} [DecidableEq α] (xs : List α) (a : α) : List Nat :=
  (xs.zipIdx.filter fun x => x.1 = a).map Prod.snd

/-- The numbers at which the image of a list holds an item, read off the list. -/
theorem indicesOf_map {α β : Type} [DecidableEq β] (f : α → β) (xs : List α) (b : β) :
    indicesOf (xs.map f) b = (xs.zipIdx.filter fun x => f x.1 = b).map Prod.snd := by
  rw [indicesOf, List.zipIdx_map, List.filter_map, List.map_map]
  rfl

section

variable {α : Type} [DecidableEq α]

/-- A number belongs to the item that the list holds there. -/
theorem mem_indicesOf {xs : List α} {a : α} {i : Nat} : i ∈ indicesOf xs a ↔ xs[i]? = some a := by
  simp [indicesOf, List.mem_zipIdx_iff_getElem?]

/-- A new last item is added to its own numbers. -/
theorem indicesOf_concat (xs : List α) (x a : α) :
    indicesOf (xs ++ [x]) a = indicesOf xs a ++ if x = a then [xs.length] else [] := by
  unfold indicesOf
  rw [List.zipIdx_append, List.filter_append, List.map_append]
  by_cases hitem : x = a <;> simp [hitem]

/-- The numbers of an item ascend. -/
theorem pairwise_indicesOf (xs : List α) (a : α) : (indicesOf xs a).Pairwise (· < ·) := by
  have hsub : (indicesOf xs a).Sublist (xs.zipIdx.map Prod.snd) :=
    List.filter_sublist.map Prod.snd
  rw [List.zipIdx_map_snd] at hsub
  exact List.Pairwise.sublist hsub List.pairwise_lt_range'

end

/-! ## Links by number -/

variable {α : Type} {xs : List α} {link : α → Option Nat} {parent : Option Nat} {i : Nat}

/-- What is under a parent are the items that name it. -/
theorem mem_indicesOf_map :
    i ∈ indicesOf (xs.map link) parent ↔ i < xs.length ∧ xs[i]?.bind link = parent := by
  rw [mem_indicesOf, List.getElem?_map, Option.map_eq_some_iff]
  constructor
  · rintro ⟨x, hx, hlink⟩
    exact ⟨(List.getElem?_eq_some_iff.mp hx).1, by rw [hx, Option.bind_some, hlink]⟩
  · rintro ⟨hlt, hlink⟩
    rw [List.getElem?_eq_getElem hlt, Option.bind_some] at hlink
    exact ⟨xs[i], List.getElem?_eq_getElem hlt, hlink⟩

/-- An item stands once under the parent that it names, and under no other. -/
theorem count_indicesOf_map (hi : i < xs.length) (parent : Option Nat) :
    (indicesOf (xs.map link) parent).count i = if xs[i]?.bind link = parent then 1 else 0 := by
  have hnodup : (indicesOf (xs.map link) parent).Nodup :=
    (pairwise_indicesOf _ parent).imp Nat.ne_of_lt
  by_cases hparent : xs[i]?.bind link = parent
  · rw [if_pos hparent, hnodup.count, if_pos (mem_indicesOf_map.mpr ⟨hi, hparent⟩)]
  · rw [if_neg hparent, List.count_eq_zero]
    exact fun hmem => hparent (mem_indicesOf_map.mp hmem).2

/-- The children of a node, and the roots, are read off the list of parents. -/
theorem Forest.under_eq_indicesOf (nodes : Forest) (parent : Option Nat) :
    nodes.under parent = indicesOf (nodes.map Node.parent) parent := by
  rw [indicesOf_map, under]

/-- What is under an entry, and the roots, are read off the list of parent links. -/
theorem RangeIndex.under_eq_indicesOf {κ : Type} (index : RangeIndex κ) (parent : Option Nat) :
    index.under parent = indicesOf (index.entries.map IndexEntry.parent) parent := by
  rw [indicesOf_map, under]

end StyleAtlas
