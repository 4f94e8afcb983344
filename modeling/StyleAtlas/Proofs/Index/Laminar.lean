import Mathlib.Logic.Relation
import StyleAtlas.Proofs.Index.Search

/-!
# Lookup in laminar indexes

An index is laminar when children lie inside their parents and entries under one parent share no
offset.  The descent of a lookup commits to one child at each level; in a laminar index there is no
other child to commit to, so it ends at the one entry for which the entries around the offset are
exactly itself and its ancestors.

Main results:

- Definition `RangeIndex.Laminar`: the condition.
- Theorem `RangeIndex.Laminar.holds_iff_above`: the entries around an offset are the deepest one and
  its ancestors.
- Theorem `RangeIndex.Laminar.findUnder_none_eq_none_iff`: nothing is found only where no entry lies
  around the offset.
- Theorem `RangeIndex.Laminar.deepestAt_eq_some_iff`: the deepest key is the only innermost one.
-/

namespace StyleAtlas
namespace RangeIndex

variable {κ : Type} {index : RangeIndex κ} {i j offset : Nat}

/-! ## Entries and links -/

/-- The parent link of the entry at an ordinal. -/
def linkAt (index : RangeIndex κ) (ordinal : Nat) : Option Nat :=
  index.entries[ordinal]?.bind IndexEntry.parent

/-- The entry at an ordinal lies around an offset. -/
def Holds (index : RangeIndex κ) (ordinal offset : Nat) : Prop :=
  (index.extentAt ordinal).contains offset = true

/-- The second entry is the first one or an ancestor of it. -/
def Above (index : RangeIndex κ) : Nat → Nat → Prop :=
  Relation.ReflTransGen fun child parent => index.linkAt child = some parent

/-- Only entries have parent links. -/
theorem lt_size_of_linkAt (h : index.linkAt i = some j) : i < index.size := by
  rcases Option.bind_eq_some_iff.mp h with ⟨entry, hentry, -⟩
  exact (List.getElem?_eq_some_iff.mp hentry).1

/-- Past the last entry nothing lies around an offset. -/
theorem Holds.lt_size (h : index.Holds i offset) : i < index.size := by
  apply Nat.lt_of_not_ge
  intro hge
  have hnone : index.entries[i]? = none := List.getElem?_eq_none hge
  simp [Holds, extentAt, hnone, Extent.contains] at h

/-- What is under an entry, and the roots, are the entries that have it as their link. -/
theorem mem_under {parent : Option Nat} :
    i ∈ index.under parent ↔ i < index.size ∧ index.linkAt i = parent := by
  rw [under_eq_indicesOf]
  exact mem_indicesOf_map

/-- What is found under a parent is linked to it, and lies around the offset. -/
theorem of_findUnder_eq_some {parent : Option Nat} (h : index.findUnder parent offset = some i) :
    index.linkAt i = parent ∧ index.Holds i offset := by
  have hfound := Index.mem_of_search h
  exact ⟨(mem_under.mp hfound.1).2, hfound.2⟩

/-- Nothing is found under a parent only where no entry under it lies around the offset. -/
theorem findUnder_eq_none_iff {parent : Option Nat} :
    index.findUnder parent offset = none ↔
      ∀ i, index.linkAt i = parent → ¬index.Holds i offset := by
  unfold findUnder
  rw [Index.search_eq_none_iff]
  constructor
  · intro h i hlink hholds
    have hout := h i (mem_under.mpr ⟨hholds.lt_size, hlink⟩)
    rw [Holds, hout] at hholds
    simp at hholds
  · intro h i hmem
    exact Bool.not_eq_true _ ▸ h i (mem_under.mp hmem).2

/-- Where children come after their parents, the descent ends at an entry below its start that lies
around the offset, with no child that does: the fuel suffices. -/
theorem descend_spec (hlinks : ∀ {i j}, index.linkAt i = some j → j < i) {fuel : Nat}
    (hfuel : index.size ≤ fuel + i) (hholds : index.Holds i offset) :
    index.Holds (index.descend offset fuel i) offset ∧
      index.Above (index.descend offset fuel i) i ∧
      ∀ child, index.linkAt child = some (index.descend offset fuel i) →
        ¬index.Holds child offset := by
  induction fuel generalizing i with
  | zero =>
      have hlt := hholds.lt_size
      omega
  | succ fuel ih =>
      unfold descend
      cases hfound : index.findUnder (some i) offset with
      | none => exact ⟨hholds, .refl, findUnder_eq_none_iff.mp hfound⟩
      | some child =>
          rcases of_findUnder_eq_some hfound with ⟨hlink, hchild⟩
          have hafter := hlinks hlink
          rcases ih (by omega) hchild with ⟨hend, habove, hnone⟩
          exact ⟨hend, habove.tail hlink, hnone⟩

/-! ## Laminar indexes -/

/-- Children come after their parents and lie inside them, and entries under one parent share no
offset. -/
structure Laminar (index : RangeIndex κ) : Prop where
  parent_lt : ∀ {i j}, index.linkAt i = some j → j < i
  covers : ∀ {i j}, index.linkAt i = some j →
    (index.extentAt j).covers (index.extentAt i) = true
  apart : ∀ {i j offset}, index.linkAt i = index.linkAt j → index.Holds i offset →
    index.Holds j offset → i = j

namespace Laminar

variable (h : index.Laminar)
include h

/-- A parent lies around every offset that its child lies around. -/
theorem holds_parent (hlink : index.linkAt i = some j) (hholds : index.Holds i offset) :
    index.Holds j offset := by
  have hcovers := h.covers hlink
  simp only [Holds, Extent.covers, Extent.contains, Bool.and_eq_true, decide_eq_true_eq] at *
  omega

/-- In a laminar index, the ancestors of an entry around an offset lie around it, too. -/
theorem holds_of_above (habove : index.Above i j) (hholds : index.Holds i offset) :
    index.Holds j offset := by
  induction habove with
  | refl => exact hholds
  | tail _ hlink ih => exact h.holds_parent hlink ih

/-- Where an entry without such a child lies around an offset, together with its root, all entries
around the offset are it and its ancestors. -/
theorem above_of_holds {root deepest : Nat} (hroot : index.linkAt root = none)
    (hdeepest : index.Holds deepest offset) (habove : index.Above deepest root)
    (hnone : ∀ child, index.linkAt child = some deepest → ¬index.Holds child offset)
    (hholds : index.Holds i offset) : index.Above deepest i := by
  induction i using Nat.strongRecOn with
  | _ i ih =>
    cases hlink : index.linkAt i with
    | none =>
        have hsame := h.apart (hlink.trans hroot.symm) hholds (h.holds_of_above habove hdeepest)
        rwa [hsame]
    | some parent =>
        have hparent := ih parent (h.parent_lt hlink) (h.holds_parent hlink hholds)
        -- The path down from the parent goes through the entry itself, which has no rival.
        rcases Relation.ReflTransGen.cases_tail hparent with rfl | ⟨child, hchild, hlink'⟩
        · exact absurd hholds (hnone i hlink)
        · have hsame := h.apart (hlink.trans hlink'.symm) hholds (h.holds_of_above hchild hdeepest)
          rwa [hsame]

/-- The entries around an offset are the one that the descent ends at and its ancestors. -/
theorem holds_iff_above {root : Nat} (hroot : index.findUnder none offset = some root) :
    index.Holds i offset ↔ index.Above (index.descend offset index.size root) i := by
  rcases of_findUnder_eq_some hroot with ⟨hlink, hholds⟩
  rcases descend_spec h.parent_lt (Nat.le_add_right index.size root) hholds with
    ⟨hend, habove, hnone⟩
  constructor
  · exact h.above_of_holds hlink hend habove hnone
  · exact fun hi => h.holds_of_above hi hend

/-- No other entry lies around the offset without a child that does. -/
theorem eq_descend {root : Nat} (hroot : index.findUnder none offset = some root)
    (hholds : index.Holds i offset)
    (hnone : ∀ child, index.linkAt child = some i → ¬index.Holds child offset) :
    i = index.descend offset index.size root := by
  rcases of_findUnder_eq_some hroot with ⟨-, hholds'⟩
  rcases descend_spec h.parent_lt (Nat.le_add_right index.size root) hholds' with ⟨hend, -, -⟩
  rcases Relation.ReflTransGen.cases_tail ((h.holds_iff_above hroot).mp hholds) with
    heq | ⟨child, hchild, hlink⟩
  · exact heq
  · exact absurd (h.holds_of_above hchild hend) (hnone child hlink)

/-- Nothing is found among the roots only where no entry lies around the offset. -/
theorem findUnder_none_eq_none_iff :
    index.findUnder none offset = none ↔ ∀ i, ¬index.Holds i offset := by
  rw [findUnder_eq_none_iff]
  refine ⟨fun hroots i => ?_, fun hall i _ => hall i⟩
  induction i using Nat.strongRecOn with
  | _ i ih =>
    intro hholds
    cases hlink : index.linkAt i with
    | none => exact hroots i hlink hholds
    | some parent => exact ih parent (h.parent_lt hlink) (h.holds_parent hlink hholds)

end Laminar

/-! ## Lookup by key -/

/-- Every entry has a key. -/
theorem exists_keyAt (h : i < index.size) : ∃ key, index.keyAt i = some key :=
  ⟨_, by rw [keyAt, List.getElem?_eq_getElem h, Option.map_some]⟩

/-- There is no deepest key only where none is found among the roots. -/
theorem deepestAt_eq_none_iff :
    index.deepestAt offset = none ↔ index.findUnder none offset = none := by
  unfold deepestAt
  cases hroot : index.findUnder none offset with
  | none => simp
  | some root =>
      have hlt : index.descend offset index.size root < index.size :=
        descend_lt_size (of_findUnder_eq_some hroot).2.lt_size
      rcases RangeIndex.exists_keyAt hlt with ⟨deepest, hdeepest⟩
      simp [hdeepest]

variable [DecidableEq κ] {key : κ}

/-- No key occurs twice. -/
def Distinct (index : RangeIndex κ) : Prop :=
  index.entries.Pairwise fun a b => a.key ≠ b.key

/-- The entry of a key lies around an offset. -/
def HoldsKey (index : RangeIndex κ) (key : κ) (offset : Nat) : Prop :=
  ∃ x, index.extentOf key = some x ∧ x.contains offset = true

/-- The second key is the first one or that of an ancestor of it. -/
def AboveKey (index : RangeIndex κ) : κ → κ → Prop :=
  Relation.ReflTransGen fun child parent => index.parentOf child = some parent

/-- The entry of a key lies around an offset, and no child of it does. -/
def Innermost (index : RangeIndex κ) (key : κ) (offset : Nat) : Prop :=
  index.HoldsKey key offset ∧
    ∀ child, index.parentOf child = some key → ¬index.HoldsKey child offset

/-- The entry of a key stands at an ordinal of the key. -/
theorem exists_keyAt_of_entryOf {entry : IndexEntry κ} (h : index.entryOf key = some entry) :
    ∃ i, index.keyAt i = some key ∧ index.entries[i]? = some entry := by
  have hkey : entry.key = key := by simpa using List.find?_some h
  rcases List.getElem?_of_mem (List.mem_of_find?_eq_some h) with ⟨i, hentry⟩
  exact ⟨i, by rw [keyAt, hentry, Option.map_some, hkey], hentry⟩

/-- The key of an ordinal stands there. -/
theorem keyAt_of_indexOf (h : index.indexOf key = some i) : index.keyAt i = some key := by
  rcases List.findIdx?_eq_some_iff_getElem.mp h with ⟨hlt, hkey, -⟩
  rw [keyAt, List.getElem?_eq_getElem hlt, Option.map_some]
  simpa using hkey

namespace Distinct

variable (h : index.Distinct)
include h

/-- The entry of a key is the one that has it. -/
theorem entryOf_eq {entry : IndexEntry κ} (hentry : index.entries[i]? = some entry) :
    index.entryOf entry.key = some entry := by
  rcases List.getElem?_eq_some_iff.mp hentry with ⟨hlt, rfl⟩
  refine List.find?_eq_some_iff_getElem.mpr ⟨by simp, i, hlt, rfl, ?_⟩
  intro j hj
  simpa using List.pairwise_iff_getElem.mp h j i _ hlt hj

/-- The ordinal of a key is where the key stands. -/
theorem indexOf_eq (hkey : index.keyAt i = some key) : index.indexOf key = some i := by
  rcases Option.map_eq_some_iff.mp hkey with ⟨entry, hentry, rfl⟩
  rcases List.getElem?_eq_some_iff.mp hentry with ⟨hlt, rfl⟩
  refine List.findIdx?_eq_some_iff_getElem.mpr ⟨hlt, by simp, ?_⟩
  intro j hj
  simpa using List.pairwise_iff_getElem.mp h j i _ hlt hj

/-- The extent of a key is that at its ordinal. -/
theorem extentOf_eq (hkey : index.keyAt i = some key) :
    index.extentOf key = some (index.extentAt i) := by
  rcases Option.map_eq_some_iff.mp hkey with ⟨entry, hentry, rfl⟩
  simp [extentOf, extentAt, hentry, h.entryOf_eq hentry]

/-- The parent of a key is the key at its parent link. -/
theorem parentOf_eq (hkey : index.keyAt i = some key) :
    index.parentOf key = (index.linkAt i).bind index.keyAt := by
  rcases Option.map_eq_some_iff.mp hkey with ⟨entry, hentry, rfl⟩
  simp [parentOf, linkAt, hentry, h.entryOf_eq hentry]

/-- The roots are the keys of the entries without a parent. -/
theorem mem_roots_iff (hkey : index.keyAt i = some key) :
    key ∈ index.roots ↔ index.linkAt i = none := by
  rw [roots, List.mem_filterMap]
  constructor
  · rintro ⟨j, hj, hjkey⟩
    obtain rfl : j = i := Option.some.inj ((h.indexOf_eq hjkey).symm.trans (h.indexOf_eq hkey))
    exact (mem_under.mp hj).2
  · intro hlink
    rcases Option.map_eq_some_iff.mp hkey with ⟨entry, hentry, -⟩
    exact ⟨i, mem_under.mpr ⟨(List.getElem?_eq_some_iff.mp hentry).1, hlink⟩, hkey⟩

/-- The entry of a key is the one at its ordinal. -/
theorem holdsKey_iff (hkey : index.keyAt i = some key) :
    index.HoldsKey key offset ↔ index.Holds i offset := by
  simp [HoldsKey, Holds, h.extentOf_eq hkey]

end Distinct

/-- A key whose entry lies around an offset stands somewhere. -/
theorem HoldsKey.exists_keyAt (h : index.HoldsKey key offset) : ∃ i, index.keyAt i = some key := by
  rcases h with ⟨x, hx, -⟩
  rcases Option.map_eq_some_iff.mp hx with ⟨entry, hentry, -⟩
  rcases exists_keyAt_of_entryOf hentry with ⟨i, hkey, -⟩
  exact ⟨i, hkey⟩

/-- A key that has a parent stands somewhere. -/
theorem exists_keyAt_of_parentOf {parent : κ} (h : index.parentOf key = some parent) :
    ∃ i, index.keyAt i = some key := by
  rcases Option.bind_eq_some_iff.mp h with ⟨entry, hentry, -⟩
  rcases exists_keyAt_of_entryOf hentry with ⟨i, hkey, -⟩
  exact ⟨i, hkey⟩

/-- Ancestors by key are ancestors by ordinal. -/
theorem Distinct.aboveKey_iff (h : index.Distinct) (hkey : index.keyAt i = some key)
    {ancestor : κ} :
    index.AboveKey key ancestor ↔ ∃ j, index.keyAt j = some ancestor ∧ index.Above i j := by
  constructor
  · intro habove
    induction habove with
    | refl => exact ⟨i, hkey, .refl⟩
    | tail _ hparent ih =>
        rcases ih with ⟨j, hj, habove⟩
        rw [h.parentOf_eq hj] at hparent
        rcases Option.bind_eq_some_iff.mp hparent with ⟨m, hlink, hm⟩
        exact ⟨m, hm, habove.tail hlink⟩
  · rintro ⟨j, hj, habove⟩
    induction habove generalizing ancestor with
    | refl =>
        rw [hkey] at hj
        rw [Option.some.inj hj]
        exact .refl
    | @tail b c _ hlink ih =>
        rcases RangeIndex.exists_keyAt (lt_size_of_linkAt hlink) with ⟨between, hbetween⟩
        refine (ih hbetween).tail ?_
        rw [h.parentOf_eq hbetween, hlink, Option.bind_some, hj]

/-- There is no deepest key only where no key without a parent lies around the offset. -/
theorem Distinct.deepestAt_eq_none_iff (h : index.Distinct)
    (hlinks : ∀ i j, index.linkAt i = some j → j < index.size) :
    index.deepestAt offset = none ↔
      ∀ key, index.parentOf key = none → ¬index.HoldsKey key offset := by
  rw [RangeIndex.deepestAt_eq_none_iff, findUnder_eq_none_iff]
  constructor
  · intro hroots key hparent hholds
    rcases hholds.exists_keyAt with ⟨i, hi⟩
    rw [h.parentOf_eq hi] at hparent
    apply hroots i _ ((h.holdsKey_iff hi).mp hholds)
    cases hlink : index.linkAt i with
    | none => rfl
    | some j =>
        rcases RangeIndex.exists_keyAt (hlinks i j hlink) with ⟨parent, hj⟩
        simp [hlink, hj] at hparent
  · intro hkeys i hlink hholds
    rcases RangeIndex.exists_keyAt hholds.lt_size with ⟨key, hi⟩
    apply hkeys key _ ((h.holdsKey_iff hi).mpr hholds)
    rw [h.parentOf_eq hi, hlink, Option.bind_none]

namespace Laminar

variable (h : index.Laminar) (hdistinct : index.Distinct)
include h hdistinct

/-- The keys around an offset are the deepest one and its ancestors. -/
theorem holdsKey_iff_aboveKey {deepest : κ} (hdeepest : index.deepestAt offset = some deepest) :
    index.HoldsKey key offset ↔ index.AboveKey deepest key := by
  rcases Option.bind_eq_some_iff.mp hdeepest with ⟨root, hroot, hkey⟩
  rw [hdistinct.aboveKey_iff hkey]
  constructor
  · intro hholds
    rcases hholds.exists_keyAt with ⟨i, hi⟩
    exact ⟨i, hi, (h.holds_iff_above hroot).mp ((hdistinct.holdsKey_iff hi).mp hholds)⟩
  · rintro ⟨i, hi, habove⟩
    exact (hdistinct.holdsKey_iff hi).mpr ((h.holds_iff_above hroot).mpr habove)

/-- The deepest key around an offset is the only innermost one. -/
theorem deepestAt_eq_some_iff : index.deepestAt offset = some key ↔ index.Innermost key offset := by
  constructor
  · intro hdeepest
    refine ⟨(h.holdsKey_iff_aboveKey hdistinct hdeepest).mpr .refl, ?_⟩
    intro child hparent hchild
    rcases Option.bind_eq_some_iff.mp hdeepest with ⟨root, hroot, hkey⟩
    rcases exists_keyAt_of_parentOf hparent with ⟨i, hi⟩
    rw [hdistinct.parentOf_eq hi] at hparent
    rcases Option.bind_eq_some_iff.mp hparent with ⟨j, hlink, hj⟩
    have hsame : j = index.descend offset index.size root := by
      have hordinal := hdistinct.indexOf_eq hj
      rw [hdistinct.indexOf_eq hkey] at hordinal
      exact (Option.some.inj hordinal).symm
    have hroot' := (of_findUnder_eq_some hroot).2
    have hnone := (descend_spec h.parent_lt (Nat.le_add_right index.size root) hroot').2.2
    exact hnone i (hsame ▸ hlink) ((hdistinct.holdsKey_iff hi).mp hchild)
  · rintro ⟨hholds, hnone⟩
    rcases hholds.exists_keyAt with ⟨i, hi⟩
    have hi' := (hdistinct.holdsKey_iff hi).mp hholds
    cases hroot : index.findUnder none offset with
    | none => exact absurd hi' (h.findUnder_none_eq_none_iff.mp hroot i)
    | some root =>
        have hsame : i = index.descend offset index.size root := by
          apply h.eq_descend hroot hi'
          intro child hlink hchild
          rcases RangeIndex.exists_keyAt (lt_size_of_linkAt hlink) with ⟨below, hbelow⟩
          apply hnone below _ ((hdistinct.holdsKey_iff hbelow).mpr hchild)
          rw [hdistinct.parentOf_eq hbelow, hlink, Option.bind_some, hi]
        simp only [deepestAt, hroot, Option.bind_eq_bind, Option.bind_some, ← hsame, hi]

end Laminar
end RangeIndex
end StyleAtlas
