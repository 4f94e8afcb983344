import StyleAtlas.Proofs.Index.Laminar

/-!
# Lookup in any index

An index may hold any extents: they may overlap, escape their parents, be empty or reversed, and
stand in any order.  What is left then is that keys are distinct and that children come after their
parents.  This suffices for the two lookups by offset to be well behaved: they find something
exactly where a root lies around the offset, and both follow one chain of entries around it, the one
to its end and the other by at most one level.  Where children lie inside their parents and siblings
share no offset, there is only one such chain, and the order of the siblings is still of no
importance.

Main results:

- Definition `RangeIndex.Built`: the indexes that successful additions lead to.
- Theorems `RangeIndex.Built.distinct`, `RangeIndex.Built.parent_lt`: what holds of all of them.
- Definition `RangeIndex.Path`: the keys from a root down to a key.
- Theorem `RangeIndex.holds_of_above_descend`: the descent stays around the offset.
- Theorem `RangeIndex.lookups_follow_one_chain`: where the lookups end, and that they end.
- Definition `RangeIndex.KeysNest`, Theorem `RangeIndex.deepestAt_is_only_innermost`: where keys
  nest, the deep lookup answers the only key for which those around the offset are exactly itself
  and its ancestors.
-/

namespace StyleAtlas
namespace RangeIndex

variable {κ : Type}

/-! ## The descent in any index -/

section Descent

variable {index : RangeIndex κ} {i j offset : Nat}

/-- Whatever is above the end of a descent lies around the offset, or is above its start already. -/
theorem holds_of_above_descend {fuel : Nat} (hholds : index.Holds i offset)
    (habove : index.Above (index.descend offset fuel i) j) :
    index.Holds j offset ∨ index.Above i j := by
  induction fuel generalizing i with
  | zero => exact Or.inr habove
  | succ fuel ih =>
      unfold descend at habove
      cases hfound : index.findUnder (some i) offset with
      | none =>
          rw [hfound] at habove
          exact Or.inr habove
      | some child =>
          rw [hfound] at habove
          rcases of_findUnder_eq_some hfound with ⟨hlink, hchild⟩
          rcases ih hchild habove with hj | habove'
          · exact Or.inl hj
          · -- The way up from the child goes through its only parent, where the descent came from.
            rcases Relation.ReflTransGen.cases_head habove' with rfl | ⟨parent, hparent, hrest⟩
            · exact Or.inl hchild
            · rw [hlink] at hparent
              rw [Option.some.inj hparent]
              exact Or.inr hrest

/-- All that is above the end of a descent from a root lies around the offset. -/
theorem holds_of_above_descend_root {fuel : Nat} (hroot : index.linkAt i = none)
    (hholds : index.Holds i offset) (habove : index.Above (index.descend offset fuel i) j) :
    index.Holds j offset := by
  rcases holds_of_above_descend hholds habove with hj | habove'
  · exact hj
  · rcases Relation.ReflTransGen.cases_head habove' with rfl | ⟨parent, hparent, -⟩
    · exact hholds
    · rw [hroot] at hparent
      simp at hparent

/-- One step of a descent: from an entry to a child around the offset. -/
def StepsTo (index : RangeIndex κ) (offset current next : Nat) : Prop :=
  index.findUnder (some current) offset = some next

/-- A descent takes such steps. -/
theorem stepsTo_descend (fuel : Nat) :
    Relation.ReflTransGen (index.StepsTo offset) i (index.descend offset fuel i) := by
  induction fuel generalizing i with
  | zero => exact .refl
  | succ fuel ih =>
      unfold descend
      cases hfound : index.findUnder (some i) offset with
      | none => exact .refl
      | some child => exact .head hfound ih

/-- No descent goes on for ever: each step leads to a later entry. -/
theorem wellFounded_stepsTo (hlinks : ∀ {i j}, index.linkAt i = some j → j < i) (offset : Nat) :
    WellFounded fun next current => index.StepsTo offset current next := by
  apply Subrelation.wf (r := (measure fun i => index.size - i).rel) _ (measure _).wf
  intro next current hstep
  rcases of_findUnder_eq_some hstep with ⟨hlink, hholds⟩
  have hafter := hlinks hlink
  have hlt := hholds.lt_size
  change index.size - next < index.size - current
  omega

/-- How the two lookups go on from an entry around the offset: where no child lies around the offset
both stay, and otherwise the shallow one takes the child that the deep one goes through. -/
theorem descend_cases (hlinks : ∀ {i j}, index.linkAt i = some j → j < i)
    (hholds : index.Holds i offset) :
    (index.descend offset index.size i = i ∧ index.descend offset 1 i = i) ∨
      ∃ child, index.linkAt child = some i ∧ index.descend offset 1 i = child ∧
        index.Above (index.descend offset index.size i) child := by
  have hlt := hholds.lt_size
  rcases Nat.exists_eq_add_one_of_ne_zero (Nat.ne_zero_of_lt hlt) with ⟨fuel, hfuel⟩
  cases hfound : index.findUnder (some i) offset with
  | none => exact Or.inl ⟨by rw [hfuel, descend, hfound], by simp [descend, hfound]⟩
  | some child =>
      rcases of_findUnder_eq_some hfound with ⟨hchild, hholds'⟩
      have hafter := hlinks hchild
      refine Or.inr ⟨child, hchild, by simp [descend, hfound], ?_⟩
      rw [hfuel, descend, hfound]
      exact (descend_spec hlinks (by omega) hholds').2.1

/-- The shallow lookup answers an entry around the offset that is a root or the child of one. -/
theorem of_nodeAt_eq_some {key : κ} (h : index.nodeAt offset = some key) :
    ∃ i, index.keyAt i = some key ∧ index.Holds i offset ∧
      (index.linkAt i = none ∨ ∃ root, index.linkAt i = some root ∧ index.linkAt root = none) := by
  rcases Option.bind_eq_some_iff.mp h with ⟨root, hroot, hkey⟩
  rcases of_findUnder_eq_some hroot with ⟨hlink, hholds⟩
  unfold descend at hkey
  cases hfound : index.findUnder (some root) offset with
  | none =>
      rw [hfound] at hkey
      exact ⟨root, hkey, hholds, Or.inl hlink⟩
  | some child =>
      rw [hfound] at hkey
      rcases of_findUnder_eq_some hfound with ⟨hchild, hholds'⟩
      exact ⟨child, hkey, hholds', Or.inr ⟨root, hchild, hlink⟩⟩

/-- The two lookups find nothing in the same cases. -/
theorem nodeAt_eq_none_iff_deepestAt :
    index.nodeAt offset = none ↔ index.deepestAt offset = none := by
  rw [RangeIndex.deepestAt_eq_none_iff, nodeAt_eq_none_iff, findUnder, Index.search_eq_none_iff]

end Descent

/-! ## Indexes that are built -/

variable [DecidableEq κ] {index : RangeIndex κ} {key : κ} {i j offset : Nat}

/-- An index that successful additions lead to, by extents and by positions. -/
inductive Built : RangeIndex κ → Prop where
  | empty : Built empty
  | push {index next : RangeIndex κ} {key : κ} {parent : Option κ} {extent : Extent} {ordinal : Nat}
      (h : Built index) (hpush : index.push key parent extent = .ok (ordinal, next)) : Built next
  | pushRange {index next : RangeIndex κ} {source : Source} {key : κ} {parent : Option κ}
      {range : PositionRange} {ordinal : Nat} (h : Built index)
      (hpush : index.pushRange source key parent range = .ok (ordinal, next)) : Built next

/-- What a successful addition does: the key is new, and its entry comes last. -/
theorem push_eq_ok {next : RangeIndex κ} {parent : Option κ} {extent : Extent} {ordinal : Nat}
    (h : index.push key parent extent = .ok (ordinal, next)) :
    index.indexOf key = none ∧
      next.entries = index.entries ++ [⟨key, extent, parent.bind index.indexOf⟩] := by
  unfold push at h
  cases hkey : index.indexOf key with
  | some taken => simp [hkey] at h
  | none =>
      simp only [hkey, Except.ok.injEq, Prod.mk.injEq] at h
      exact ⟨rfl, by rw [← h.2]⟩

/-- Adding a node by positions adds it by some extent. -/
theorem pushRange_eq_ok {next : RangeIndex κ} {source : Source} {parent : Option κ}
    {range : PositionRange} {ordinal : Nat}
    (h : index.pushRange source key parent range = .ok (ordinal, next)) :
    ∃ extent, index.push key parent extent = .ok (ordinal, next) := by
  unfold pushRange at h
  cases hextent : source.extentOf range with
  | error cause => simp [hextent] at h
  | ok extent => exact ⟨extent, by simpa [hextent] using h⟩

/-- What holds of the index without entries, and is kept by each new entry whose key is new and
whose parent is an entry, holds of all indexes that are built. -/
theorem Built.invariant {P : List (IndexEntry κ) → Prop} (hempty : P [])
    (hadd : ∀ entries entry, P entries → (∀ other ∈ entries, other.key ≠ entry.key) →
      (∀ j ∈ entry.parent, j < entries.length) → P (entries ++ [entry]))
    (h : index.Built) : P index.entries := by
  have hpush : ∀ {index next : RangeIndex κ} {key parent extent ordinal}, P index.entries →
      index.push key parent extent = .ok (ordinal, next) → P next.entries := by
    intro index next key parent extent ordinal hP hpush
    rcases push_eq_ok hpush with ⟨hnew, hentries⟩
    rw [hentries]
    apply hadd _ _ hP
    · simpa [indexOf, List.findIdx?_eq_none_iff] using hnew
    · intro j hj
      rcases Option.bind_eq_some_iff.mp hj with ⟨parentKey, -, hindex⟩
      exact (List.findIdx?_eq_some_iff_getElem.mp hindex).1
  induction h with
  | empty => exact hempty
  | push _ hnext ih => exact hpush ih hnext
  | pushRange _ hnext ih =>
      rcases pushRange_eq_ok hnext with ⟨extent, hnext'⟩
      exact hpush ih hnext'

/-- The keys of an index that is built are distinct. -/
theorem Built.distinct (h : index.Built) : index.Distinct := by
  apply h.invariant (P := fun entries => entries.Pairwise fun a b => a.key ≠ b.key)
    List.Pairwise.nil
  intro entries entry hentries hnew _
  refine List.pairwise_append.mpr ⟨hentries, List.pairwise_singleton _ _, ?_⟩
  simpa using hnew

/-- In an index that is built, children come after their parents. -/
theorem Built.parent_lt (h : index.Built) (hlink : index.linkAt i = some j) : j < i := by
  have hall : ∀ (i : Nat) entry, index.entries[i]? = some entry → ∀ j ∈ entry.parent, j < i := by
    apply h.invariant (P := fun entries => ∀ (i : Nat) entry, entries[i]? = some entry →
      ∀ j ∈ entry.parent, j < i) (by simp)
    intro entries entry hentries _ hparent i other hother
    rcases Nat.lt_or_ge i entries.length with hlt | hge
    · rw [List.getElem?_append_left hlt] at hother
      exact hentries i other hother
    · rw [List.getElem?_append_right hge, List.getElem?_singleton] at hother
      split at hother
      · obtain rfl := Option.some.inj hother
        intro j hj
        have := hparent j hj
        omega
      · simp at hother
  rcases Option.bind_eq_some_iff.mp hlink with ⟨entry, hentry, hparent⟩
  exact hall i entry hentry j hparent

/-! ## Paths of keys -/

/-- The keys on the way from a root down to a key, both included. -/
inductive Path (index : RangeIndex κ) : κ → List κ → Prop where
  | root {key : κ} (hroot : key ∈ index.roots) : Path index key [key]
  | child {key parent : κ} {path : List κ} (hparent : index.parentOf key = some parent)
      (hpath : Path index parent path) : Path index key (path ++ [key])

/-- A root is the whole way to itself. -/
theorem path_root (hi : index.keyAt i = some key) (hlink : index.linkAt i = none) :
    index.Path key [key] := by
  apply Path.root
  rcases Option.map_eq_some_iff.mp hi with ⟨entry, hentry, -⟩
  have hlt : i < index.size := (List.getElem?_eq_some_iff.mp hentry).1
  exact List.mem_filterMap.mpr ⟨i, mem_under.mpr ⟨hlt, hlink⟩, hi⟩

/-- The path to an entry goes on to the entries below it. -/
theorem exists_path_of_above (hdistinct : index.Distinct) {top : κ} {path : List κ}
    (hpath : index.Path top path) (hj : index.keyAt j = some top) (habove : index.Above i j)
    (hi : index.keyAt i = some key) : ∃ below, index.Path key (path ++ below) := by
  induction habove using Relation.ReflTransGen.head_induction_on generalizing key with
  | refl =>
      rw [hi] at hj
      rw [Option.some.inj hj]
      exact ⟨[], by simpa using hpath⟩
  | @head child parent hlink habove ih =>
      have hparent : parent < index.size := by
        rcases Relation.ReflTransGen.cases_head habove with rfl | ⟨next, hnext, -⟩
        · rcases Option.map_eq_some_iff.mp hj with ⟨entry, hentry, -⟩
          exact (List.getElem?_eq_some_iff.mp hentry).1
        · exact lt_size_of_linkAt hnext
      rcases RangeIndex.exists_keyAt hparent with ⟨between, hbetween⟩
      rcases ih hbetween with ⟨below, hbelow⟩
      refine ⟨below ++ [key], ?_⟩
      rw [← List.append_assoc]
      refine .child ?_ hbelow
      rw [hdistinct.parentOf_eq hi, hlink, Option.bind_some, hbetween]

/-! ## The two lookups -/

/-- An entry around the offset without such a child has an innermost key. -/
theorem Distinct.innermost (h : index.Distinct) (hi : index.keyAt i = some key)
    (hholds : index.Holds i offset)
    (hnone : ∀ child, index.linkAt child = some i → ¬index.Holds child offset) :
    index.Innermost key offset := by
  refine ⟨(h.holdsKey_iff hi).mpr hholds, ?_⟩
  intro child hparent hchild
  rcases hchild.exists_keyAt with ⟨k, hk⟩
  rw [h.parentOf_eq hk] at hparent
  rcases Option.bind_eq_some_iff.mp hparent with ⟨parent, hlink, hkey⟩
  have hsame := h.indexOf_eq hkey
  rw [h.indexOf_eq hi] at hsame
  rw [← Option.some.inj hsame] at hlink
  exact hnone k hlink ((h.holdsKey_iff hk).mp hchild)

/-- Both lookups find something exactly where a key without a parent lies around the offset. -/
theorem Built.isSome_deepestAt (h : index.Built) :
    (index.deepestAt offset).isSome = true ↔
      ∃ root, index.parentOf root = none ∧ index.HoldsKey root offset := by
  have hlinks : ∀ i j, index.linkAt i = some j → j < index.size := fun i j hlink =>
    Nat.lt_trans (h.parent_lt hlink) (lt_size_of_linkAt hlink)
  rw [Option.isSome_iff_ne_none, Ne, h.distinct.deepestAt_eq_none_iff hlinks]
  simp

/-- Where the deep lookup ends, the keys on the path to its answer show the shallow one. -/
theorem Built.exists_path (h : index.Built) {deepest : κ}
    (hdeepest : index.deepestAt offset = some deepest) :
    ∃ path, index.Path deepest path ∧ index.nodeAt offset = path[min 1 (path.length - 1)]? := by
  rcases Option.bind_eq_some_iff.mp hdeepest with ⟨root, hroot, hlast⟩
  rcases of_findUnder_eq_some hroot with ⟨hlink, hholds⟩
  have hnode : index.nodeAt offset = index.keyAt (index.descend offset 1 root) := by
    simp [nodeAt, hroot]
  rcases descend_cases h.parent_lt hholds with ⟨hdeep, hshallow⟩ | ⟨child, hchild, hshallow, habove⟩
  · rw [hdeep] at hlast
    refine ⟨[deepest], path_root hlast hlink, ?_⟩
    rw [hnode, hshallow, hlast]
    rfl
  · rcases RangeIndex.exists_keyAt hholds.lt_size with ⟨top, htop⟩
    rcases RangeIndex.exists_keyAt (lt_size_of_linkAt hchild) with ⟨second, hsecond⟩
    have hparent : index.parentOf second = some top := by
      rw [h.distinct.parentOf_eq hsecond, hchild, Option.bind_some, htop]
    have hpath : index.Path second [top, second] := .child hparent (path_root htop hlink)
    rcases exists_path_of_above h.distinct hpath hsecond habove hlast with ⟨below, hbelow⟩
    refine ⟨_, hbelow, ?_⟩
    rw [hnode, hshallow, hsecond]
    simp

/-- In every index that is built, the descent of a lookup ends, and where it ends no child lies
around the offset.  Both lookups find something exactly where a root lies around the offset.  The
deepest key and all its ancestors lie around the offset, and no child of it does; the other lookup
answers the key at level one on the path to it, or the root where the path has no such level, and
that only where no child of the root lies around the offset. -/
theorem lookups_follow_one_chain (h : index.Built) (offset : Nat) :
    (WellFounded fun next current => index.StepsTo offset current next) ∧
    ((index.deepestAt offset).isSome = true ↔
      ∃ root, index.parentOf root = none ∧ index.HoldsKey root offset) ∧
    ((index.nodeAt offset).isSome = true ↔
      ∃ root, index.parentOf root = none ∧ index.HoldsKey root offset) ∧
    (∀ deepest, index.deepestAt offset = some deepest →
      (∃ root last, index.findUnder none offset = some root ∧
        Relation.ReflTransGen (index.StepsTo offset) root last ∧
        index.findUnder (some last) offset = none ∧ index.keyAt last = some deepest) ∧
      index.Innermost deepest offset ∧
      (∀ key, index.AboveKey deepest key → index.HoldsKey key offset) ∧
      ∃ path, index.Path deepest path ∧
        index.nodeAt offset = path[min 1 (path.length - 1)]?) ∧
    ∀ root, index.nodeAt offset = some root → index.parentOf root = none →
      index.Innermost root offset := by
  refine ⟨wellFounded_stepsTo h.parent_lt offset, h.isSome_deepestAt, ?_, ?_, ?_⟩
  · rw [← h.isSome_deepestAt, Option.isSome_iff_ne_none, Option.isSome_iff_ne_none, Ne, Ne,
      nodeAt_eq_none_iff_deepestAt]
  · intro deepest hdeepest
    rcases Option.bind_eq_some_iff.mp hdeepest with ⟨root, hroot, hlast⟩
    rcases of_findUnder_eq_some hroot with ⟨hlink, hholds⟩
    rcases descend_spec h.parent_lt (Nat.le_add_right index.size root) hholds with
      ⟨hend, -, hnone⟩
    refine ⟨⟨root, _, hroot, stepsTo_descend index.size, findUnder_eq_none_iff.mpr hnone, hlast⟩,
      h.distinct.innermost hlast hend hnone, ?_, h.exists_path hdeepest⟩
    intro key habove
    rcases (h.distinct.aboveKey_iff hlast).mp habove with ⟨j, hj, habove'⟩
    exact (h.distinct.holdsKey_iff hj).mpr (holds_of_above_descend_root hlink hholds habove')
  · intro top hnode hparent
    rcases Option.bind_eq_some_iff.mp hnode with ⟨root, hroot, hkey⟩
    rcases of_findUnder_eq_some hroot with ⟨hlink, hholds⟩
    rcases descend_cases h.parent_lt hholds with ⟨hdeep, hshallow⟩ | ⟨child, hchild, hshallow, -⟩
    · rw [hshallow] at hkey
      have hnone := (descend_spec h.parent_lt (Nat.le_add_right index.size root) hholds).2.2
      rw [hdeep] at hnone
      exact h.distinct.innermost hkey hholds hnone
    · -- A child that was found has a parent, so the answer is no root.
      rcases RangeIndex.exists_keyAt hholds.lt_size with ⟨above, habove⟩
      rw [hshallow] at hkey
      rw [h.distinct.parentOf_eq hkey, hchild, Option.bind_some, habove] at hparent
      simp at hparent

/-- Entries with a reversed extent among the roots and among the children, and a child that reaches
past its parent. -/
def unrulyEntries : RangeIndex Nat :=
  ⟨[⟨7, ⟨0, 10⟩, none⟩, ⟨8, ⟨6, 2⟩, some 0⟩, ⟨9, ⟨5, 20⟩, some 0⟩, ⟨3, ⟨6, 8⟩, some 2⟩,
    ⟨1, ⟨8, 3⟩, none⟩]⟩

/-- Among unruly entries both lookups find entries of one chain, or nothing. -/
theorem lookups_follow_one_chain_unrulyEntries :
    unrulyEntries.Built ∧ unrulyEntries.deepestAt 7 = some 3 ∧ unrulyEntries.nodeAt 7 = some 9 ∧
      unrulyEntries.Innermost 3 7 ∧
      (∀ key, unrulyEntries.AboveKey 3 key → unrulyEntries.HoldsKey key 7) ∧
      unrulyEntries.deepestAt 15 = none := by
  have hfirst : Built (κ := Nat) ⟨unrulyEntries.entries.take 1⟩ :=
    .push .empty (show empty.push 7 none ⟨0, 10⟩ = .ok (0, _) from rfl)
  have hsecond : Built (κ := Nat) ⟨unrulyEntries.entries.take 2⟩ :=
    .push hfirst (show push _ 8 (some 7) ⟨6, 2⟩ = .ok (1, _) from rfl)
  have hthird : Built (κ := Nat) ⟨unrulyEntries.entries.take 3⟩ :=
    .push hsecond (show push _ 9 (some 7) ⟨5, 20⟩ = .ok (2, _) from rfl)
  have hfourth : Built (κ := Nat) ⟨unrulyEntries.entries.take 4⟩ :=
    .push hthird (show push _ 3 (some 9) ⟨6, 8⟩ = .ok (3, _) from rfl)
  -- The last one names a parent that is not indexed, and so is a root.
  have hbuilt : unrulyEntries.Built :=
    .push hfourth (show push _ 1 (some 4) ⟨8, 3⟩ = .ok (4, _) from rfl)
  rcases lookups_follow_one_chain hbuilt 7 with ⟨-, -, -, hdeepest, -⟩
  rcases hdeepest 3 rfl with ⟨-, hinnermost, habove, -⟩
  exact ⟨hbuilt, rfl, rfl, hinnermost, habove, rfl⟩

/-! ## Indexes whose keys nest -/

/-- The extents of children lie inside those of their parents, and different keys with the same
parent, or without one, share no offset. -/
structure KeysNest (index : RangeIndex κ) : Prop where
  inside : ∀ {child parent : κ} {x y : Extent}, index.parentOf child = some parent →
    index.extentOf child = some x → index.extentOf parent = some y → y.covers x = true
  apart : ∀ {key other : κ} {x y : Extent}, key ≠ other →
    index.parentOf key = index.parentOf other → index.extentOf key = some x →
    index.extentOf other = some y → ∀ offset, x.contains offset = true → y.contains offset = false

/-- Whether the keys of an index nest can be seen from its entries. -/
theorem keysNest_of_entries
    (hinside : ∀ child ∈ index.entries, ∀ parent ∈ index.entries,
      index.parentOf child.key = some parent.key → parent.extent.covers child.extent = true)
    (hapart : ∀ entry ∈ index.entries, ∀ other ∈ index.entries, entry.key ≠ other.key →
      index.parentOf entry.key = index.parentOf other.key →
      entry.extent.apart other.extent = true) : index.KeysNest := by
  have hentry : ∀ {key x}, index.extentOf key = some x →
      ∃ entry ∈ index.entries, entry.key = key ∧ entry.extent = x := by
    intro key x hx
    rcases Option.map_eq_some_iff.mp hx with ⟨entry, hfound, hextent⟩
    exact ⟨entry, List.mem_of_find?_eq_some hfound, by simpa using List.find?_some hfound, hextent⟩
  constructor
  · intro child parent x y hparent hx hy
    rcases hentry hx with ⟨entry, hmem, rfl, rfl⟩
    rcases hentry hy with ⟨above, habove, rfl, rfl⟩
    exact hinside entry hmem above habove hparent
  · intro key other x y hne hparents hx hy offset hholds
    rcases hentry hx with ⟨entry, hmem, rfl, rfl⟩
    rcases hentry hy with ⟨beside, hbeside, rfl, rfl⟩
    have hout := hapart entry hmem beside hbeside hne hparents
    simp only [Extent.apart, Extent.contains, Bool.or_eq_true, Bool.and_eq_true,
      Bool.and_eq_false_iff, decide_eq_true_eq, decide_eq_false_iff_not] at *
    omega

/-- An index that is built is laminar where its keys nest. -/
theorem Built.laminar (h : index.Built) (hnest : index.KeysNest) : index.Laminar where
  parent_lt := h.parent_lt
  covers := by
    intro i j hlink
    have hi := lt_size_of_linkAt hlink
    rcases RangeIndex.exists_keyAt hi with ⟨child, hchild⟩
    rcases RangeIndex.exists_keyAt (Nat.lt_trans (h.parent_lt hlink) hi) with ⟨parent, hparent⟩
    have hlink' : index.parentOf child = some parent := by
      rw [h.distinct.parentOf_eq hchild, hlink, Option.bind_some, hparent]
    exact hnest.inside hlink' (h.distinct.extentOf_eq hchild) (h.distinct.extentOf_eq hparent)
  apart := by
    intro i j offset hlinks hi hj
    rcases RangeIndex.exists_keyAt hi.lt_size with ⟨key, hkey⟩
    rcases RangeIndex.exists_keyAt hj.lt_size with ⟨other, hother⟩
    by_cases hsame : key = other
    · -- A key stands at one ordinal only.
      have hordinal := h.distinct.indexOf_eq hkey
      rw [hsame, h.distinct.indexOf_eq hother] at hordinal
      exact (Option.some.inj hordinal).symm
    · have hparents : index.parentOf key = index.parentOf other := by
        rw [h.distinct.parentOf_eq hkey, h.distinct.parentOf_eq hother, hlinks]
      have hout := hnest.apart hsame hparents (h.distinct.extentOf_eq hkey)
        (h.distinct.extentOf_eq hother) offset hi
      rw [Holds, hout] at hj
      exact Bool.noConfusion hj

/-- No child is above its parent. -/
theorem Built.not_aboveKey_child (h : index.Built) {child parent : κ}
    (hparent : index.parentOf child = some parent) : ¬index.AboveKey parent child := by
  have hle : ∀ {i j}, index.Above i j → j ≤ i := by
    intro i j habove
    induction habove with
    | refl => exact Nat.le_refl _
    | tail _ hlink ih => exact Nat.le_trans (Nat.le_of_lt (h.parent_lt hlink)) ih
  intro habove
  rcases exists_keyAt_of_parentOf hparent with ⟨i, hi⟩
  rw [h.distinct.parentOf_eq hi] at hparent
  rcases Option.bind_eq_some_iff.mp hparent with ⟨j, hlink, hj⟩
  rcases (h.distinct.aboveKey_iff hj).mp habove with ⟨k, hk, habove'⟩
  have hsame := h.distinct.indexOf_eq hk
  rw [h.distinct.indexOf_eq hi] at hsame
  have hlt := h.parent_lt hlink
  have hback := hle habove'
  rw [← Option.some.inj hsame] at hback
  omega

/-- Where keys nest, and in whatever order they were added, the deep lookup is exact.  If some key
lies around the offset, the answer is the only key for which those around the offset are exactly
itself and its ancestors; and if none does, there is no answer. -/
theorem deepestAt_is_only_innermost (h : index.Built) (hnest : index.KeysNest) (offset : Nat) :
    ((∃ key, index.HoldsKey key offset) →
      ∃ deepest, index.deepestAt offset = some deepest ∧
        (∀ key, index.HoldsKey key offset ↔ index.AboveKey deepest key) ∧
        ∀ other, (∀ key, index.HoldsKey key offset ↔ index.AboveKey other key) →
          other = deepest) ∧
    ((∀ key, ¬index.HoldsKey key offset) → index.deepestAt offset = none) := by
  have hlaminar := h.laminar hnest
  constructor
  · rintro ⟨key, hkey⟩
    cases hdeepest : index.deepestAt offset with
    | none =>
        rw [RangeIndex.deepestAt_eq_none_iff, hlaminar.findUnder_none_eq_none_iff] at hdeepest
        rcases hkey.exists_keyAt with ⟨i, hi⟩
        exact absurd ((h.distinct.holdsKey_iff hi).mp hkey) (hdeepest i)
    | some deepest =>
        refine ⟨deepest, rfl, fun key => hlaminar.holdsKey_iff_aboveKey h.distinct hdeepest, ?_⟩
        intro other hother
        -- A child around the offset would be above its parent.
        have hinnermost : index.Innermost other offset :=
          ⟨(hother other).mpr .refl, fun child hparent hchild =>
            h.not_aboveKey_child hparent ((hother child).mp hchild)⟩
        rw [(hlaminar.deepestAt_eq_some_iff h.distinct).mpr hinnermost] at hdeepest
        exact Option.some.inj hdeepest
  · intro hnone
    rw [RangeIndex.deepestAt_eq_none_iff, hlaminar.findUnder_none_eq_none_iff]
    intro i hi
    rcases RangeIndex.exists_keyAt hi.lt_size with ⟨key, hkey⟩
    exact hnone key ((h.distinct.holdsKey_iff hkey).mpr hi)

/-- Siblings that were added out of order, so that halving among them misses the one around the
offset. -/
def shuffledEntries : RangeIndex Nat :=
  ⟨[⟨7, ⟨0, 20⟩, none⟩, ⟨8, ⟨0, 4⟩, some 0⟩, ⟨9, ⟨12, 18⟩, some 0⟩, ⟨3, ⟨6, 10⟩, some 0⟩,
    ⟨5, ⟨7, 9⟩, some 3⟩]⟩

/-- Siblings out of order mislead halving, but not the lookup. -/
theorem deepestAt_is_only_innermost_shuffledEntries :
    shuffledEntries.Built ∧ shuffledEntries.KeysNest ∧
      Index.halvingSearch? shuffledEntries.extentAt (shuffledEntries.under (some 0)) 8 = none ∧
      shuffledEntries.deepestAt 8 = some 5 ∧
      (∀ key, shuffledEntries.HoldsKey key 8 ↔ shuffledEntries.AboveKey 5 key) ∧
      shuffledEntries.deepestAt 25 = none := by
  have hfirst : Built (κ := Nat) ⟨shuffledEntries.entries.take 1⟩ :=
    .push .empty (show empty.push 7 none ⟨0, 20⟩ = .ok (0, _) from rfl)
  have hsecond : Built (κ := Nat) ⟨shuffledEntries.entries.take 2⟩ :=
    .push hfirst (show push _ 8 (some 7) ⟨0, 4⟩ = .ok (1, _) from rfl)
  have hthird : Built (κ := Nat) ⟨shuffledEntries.entries.take 3⟩ :=
    .push hsecond (show push _ 9 (some 7) ⟨12, 18⟩ = .ok (2, _) from rfl)
  have hfourth : Built (κ := Nat) ⟨shuffledEntries.entries.take 4⟩ :=
    .push hthird (show push _ 3 (some 7) ⟨6, 10⟩ = .ok (3, _) from rfl)
  have hbuilt : shuffledEntries.Built :=
    .push hfourth (show push _ 5 (some 3) ⟨7, 9⟩ = .ok (4, _) from rfl)
  have hnest : shuffledEntries.KeysNest := keysNest_of_entries (by decide) (by decide)
  have hkey : shuffledEntries.HoldsKey 5 8 := ⟨⟨7, 9⟩, rfl, rfl⟩
  rcases (deepestAt_is_only_innermost hbuilt hnest 8).1 ⟨5, hkey⟩ with
    ⟨deepest, hdeepest, hholds, -⟩
  obtain rfl : 5 = deepest := Option.some.inj hdeepest
  exact ⟨hbuilt, hnest, rfl, rfl, hholds, rfl⟩

end RangeIndex
end StyleAtlas
