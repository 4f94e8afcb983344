import Mathlib.Data.List.Induction
import Mathlib.Logic.Function.Basic
import StyleAtlas.Proofs.Index.Lookup

/-!
# Indexes kept addition by addition

A table of entries in which every link is written down: the children of an entry in a list beside
it, the roots in a list of their own, and the ordinals of the keys in a map.  An addition writes
several of them at once, or is refused, because its range is no part of the text or because its key
is taken.  Whatever additions are asked for, the table stays the one that an index reads off the
parents of its entries, and its parts stay consistent.

Main results:

- Definition `EntryTable`, with `EntryTable.attempt`: the table and its additions.
- Theorem `RangeIndex.attempt_cases`: what an addition can do.
- Theorem `EntryTable.Agrees.attempt`: the table agrees with the index after each addition.
- Definition `EntryTable.Consistent`: how the parts of the table hang together.
- Definition `RangeIndex.Recounts`: what an index says of the additions that were accepted.
- Theorem `RangeIndex.attempts_stay_consistent`: all of this for every sequence of additions.
-/

namespace StyleAtlas

/-! ## Additions -/

/-- An addition that is asked for, by extent or by the positions of the ends. -/
inductive Addition (κ : Type) where
  | push (key : κ) (parent : Option κ) (extent : Extent)
  | pushRange (key : κ) (parent : Option κ) (range : PositionRange)
deriving DecidableEq

namespace Addition

variable {κ : Type}

/-- The key that is to be added. -/
def key : Addition κ → κ
  | push key _ _ => key
  | pushRange key _ _ => key

/-- The key under which it is to be added. -/
def parent : Addition κ → Option κ
  | push _ parent _ => parent
  | pushRange _ parent _ => parent

/-- The extent with which it is to be added. -/
def extent (source : Source) : Addition κ → Except TextError Extent
  | push _ _ extent => .ok extent
  | pushRange _ _ range => source.extentOf range

/-- The additions of a log that were accepted, in order. -/
def accepted (log : List (Addition κ × Except IndexError Nat)) : List (Addition κ) :=
  log.filterMap fun entry => entry.2.toOption.map fun _ => entry.1

/-- An addition that is refused is none of the accepted ones. -/
theorem accepted_refused (log : List (Addition κ × Except IndexError Nat)) (a : Addition κ)
    (cause : IndexError) : accepted (log ++ [(a, .error cause)]) = accepted log := by
  simp [accepted, Except.toOption]

/-- An addition that is accepted is the last of the accepted ones. -/
theorem accepted_added (log : List (Addition κ × Except IndexError Nat)) (a : Addition κ)
    (ordinal : Nat) : accepted (log ++ [(a, .ok ordinal)]) = accepted log ++ [a] := by
  simp [accepted, Except.toOption]

end Addition

/-- Take steps one after the other, and note what each of them answers. -/
def logged {σ α β : Type} (step : σ → α → β × σ) (start : σ) (asked : List α) :
    List (α × β) × σ :=
  asked.foldl (fun state a => (state.1 ++ [(a, (step state.2 a).1)], (step state.2 a).2))
    ([], start)

section Logged

variable {σ α β : Type} {step : σ → α → β × σ} {start : σ}

/-- The last step is taken in the state that the others lead to. -/
theorem logged_concat (asked : List α) (a : α) :
    logged step start (asked ++ [a]) =
      ((logged step start asked).1 ++ [(a, (step (logged step start asked).2 a).1)],
        (step (logged step start asked).2 a).2) := by
  simp [logged]

/-- There is one note for each step. -/
@[simp]
theorem length_logged (asked : List α) : (logged step start asked).1.length = asked.length := by
  induction asked using List.reverseRecOn with
  | nil => rfl
  | append_singleton asked a ih => simp [logged_concat, ih]

/-- A note holds what was asked and the answer in the state that the steps before lead to. -/
theorem getElem?_logged {asked : List α} {i : Nat} {a : α} {b : β}
    (h : (logged step start asked).1[i]? = some (a, b)) :
    asked[i]? = some a ∧ (step (logged step start (asked.take i)).2 a).1 = b ∧
      (logged step start (asked.take (i + 1))).2 =
        (step (logged step start (asked.take i)).2 a).2 := by
  induction asked using List.reverseRecOn with
  | nil => simp [logged] at h
  | append_singleton asked last ih =>
      rw [logged_concat] at h
      rcases Nat.lt_trichotomy i asked.length with hlt | rfl | hgt
      · rw [List.getElem?_append_left (by simpa using hlt)] at h
        rw [List.getElem?_append_left hlt, List.take_append_of_le_length (Nat.le_of_lt hlt),
          List.take_append_of_le_length hlt]
        exact ih h
      · rw [List.getElem?_append_right (by simp)] at h
        obtain ⟨rfl, rfl⟩ : last = a ∧ (step (logged step start asked).2 last).1 = b := by
          simpa using h
        have hall : (asked ++ [last]).take (asked.length + 1) = asked ++ [last] :=
          List.take_of_length_le (by simp)
        rw [hall, List.take_left, logged_concat]
        exact ⟨by simp, rfl, rfl⟩
      · rw [List.getElem?_eq_none (by simp; omega)] at h
        simp at h

end Logged

/-! ## The table -/

/-- An entry with its parent and its children. -/
structure TableEntry (κ : Type) where
  key : κ
  extent : Extent
  parent : Option Nat
  children : List Nat
deriving DecidableEq

/-- Entries in the order in which they were added, the ordinals of those without a parent, and the
ordinal of each key. -/
structure EntryTable (κ : Type) where
  entries : List (TableEntry κ)
  roots : List Nat
  ordinals : κ → Option Nat

namespace EntryTable

variable {κ : Type}

/-- No entry yet. -/
def empty : EntryTable κ :=
  ⟨[], [], fun _ => none⟩

/-- The key at an ordinal. -/
def keyAt (t : EntryTable κ) (ordinal : Nat) : Option κ :=
  t.entries[ordinal]?.map TableEntry.key

/-- The parent link of the entry at an ordinal. -/
def linkAt (t : EntryTable κ) (ordinal : Nat) : Option Nat :=
  t.entries[ordinal]?.bind TableEntry.parent

/-- The list that the children of an entry, or the roots, are kept in. -/
def siblings (t : EntryTable κ) : Option Nat → List Nat
  | some parent => (t.entries[parent]?.map TableEntry.children).getD []
  | none => t.roots

/-- Add an ordinal to the list of children of an entry, or to the roots. -/
def join (t : EntryTable κ) (parent : Option Nat) (ordinal : Nat) : EntryTable κ :=
  match parent with
  | some parent =>
      { t with
        entries := t.entries.modify parent fun e => { e with children := e.children ++ [ordinal] } }
  | none => { t with roots := t.roots ++ [ordinal] }

/-- Joining a list of links changes the list of one entry. -/
theorem getElem?_join (t : EntryTable κ) (parent : Option Nat) (ordinal n : Nat) :
    (t.join parent ordinal).entries[n]? = t.entries[n]?.map fun e =>
      if parent = some n then { e with children := e.children ++ [ordinal] } else e := by
  cases parent with
  | none => simp [join]
  | some parent => by_cases hsame : parent = n <;> simp [join, hsame]

/-- Only without a parent does an ordinal join the roots. -/
theorem roots_join (t : EntryTable κ) (parent : Option Nat) (ordinal : Nat) :
    (t.join parent ordinal).roots = t.roots ++ if parent = none then [ordinal] else [] := by
  cases parent <;> simp [join]

/-- Joining a list of links adds no entry. -/
@[simp]
theorem length_join (t : EntryTable κ) (parent : Option Nat) (ordinal : Nat) :
    (t.join parent ordinal).entries.length = t.entries.length := by
  cases parent <;> simp [join]

/-- Joining a list of links leaves the ordinals. -/
@[simp]
theorem ordinals_join (t : EntryTable κ) (parent : Option Nat) (ordinal : Nat) :
    (t.join parent ordinal).ordinals = t.ordinals := by
  cases parent <;> rfl

variable [DecidableEq κ]

/-- Add a key with its extent, unless the key is taken: link it to its parent, or to the roots where
the parent is not known, then store the entry, and then the ordinal of the key. -/
def push (t : EntryTable κ) (key : κ) (parent : Option κ) (extent : Extent) :
    Except IndexError Nat × EntryTable κ :=
  match t.ordinals key with
  | some taken => (.error (.duplicateKey taken), t)
  | none =>
      let ordinal := t.entries.length
      let link := parent.bind t.ordinals
      let joined := t.join link ordinal
      let stored : EntryTable κ :=
        { joined with entries := joined.entries ++ [⟨key, extent, link, []⟩] }
      (.ok ordinal, { stored with ordinals := Function.update stored.ordinals key (some ordinal) })

/-- What is written down for a new key. -/
theorem push_eq {t : EntryTable κ} {key : κ} (hnew : t.ordinals key = none) (parent : Option κ)
    (extent : Extent) :
    t.push key parent extent = (.ok t.entries.length,
      ⟨(t.join (parent.bind t.ordinals) t.entries.length).entries ++
          [⟨key, extent, parent.bind t.ordinals, []⟩],
        (t.join (parent.bind t.ordinals) t.entries.length).roots,
        Function.update t.ordinals key (some t.entries.length)⟩) := by
  simp [push, hnew]

/-- Carry out an addition. -/
def attempt (source : Source) (t : EntryTable κ) (a : Addition κ) :
    Except IndexError Nat × EntryTable κ :=
  match a with
  | .push key parent extent => t.push key parent extent
  | .pushRange key parent range =>
      match source.extentOf range with
      | .error cause => (.error (.text cause), t)
      | .ok extent => t.push key parent extent

/-- A table that refuses an addition is left as it was. -/
theorem eq_of_refused {source : Source} {t : EntryTable κ} {a : Addition κ} {cause : IndexError}
    (h : (t.attempt source a).1 = .error cause) : (t.attempt source a).2 = t := by
  have hpush : ∀ key parent extent, (t.push key parent extent).1 = .error cause →
      (t.push key parent extent).2 = t := by
    intro key parent extent hrefused
    cases hkey : t.ordinals key with
    | none => simp [push_eq hkey] at hrefused
    | some taken => simp [push, hkey]
  cases a with
  | push key parent extent => exact hpush key parent extent h
  | pushRange key parent range =>
      simp only [attempt] at h ⊢
      cases hextent : source.extentOf range with
      | error reason => rfl
      | ok extent =>
          simp only [hextent] at h ⊢
          exact hpush key parent extent h

end EntryTable

namespace RangeIndex

variable {κ : Type}

/-! ## Lists of links -/

/-- A new entry is added to the list of links that it belongs to. -/
theorem under_concat (entries : List (IndexEntry κ)) (entry : IndexEntry κ) (parent : Option Nat) :
    under ⟨entries ++ [entry]⟩ parent =
      under ⟨entries⟩ parent ++ if entry.parent = parent then [entries.length] else [] := by
  rw [under_eq_indicesOf, under_eq_indicesOf, List.map_append, List.map_singleton,
    indicesOf_concat, List.length_map]

/-- What is under an entry ascends. -/
theorem pairwise_under (index : RangeIndex κ) (parent : Option Nat) :
    (index.under parent).Pairwise (· < ·) := by
  rw [under_eq_indicesOf]
  exact pairwise_indicesOf _ parent

/-- An entry stands once in the list that it belongs to, and in no other list. -/
theorem count_under {index : RangeIndex κ} {n : Nat} (hn : n < index.size) (parent : Option Nat) :
    (index.under parent).count n = if index.linkAt n = parent then 1 else 0 := by
  rw [under_eq_indicesOf]
  exact count_indicesOf_map hn parent

/-! ## Additions to an index -/

variable [DecidableEq κ]

/-- Carry out an addition; where it is refused, the index is still there. -/
def attempt (source : Source) (index : RangeIndex κ) (a : Addition κ) :
    Except IndexError Nat × RangeIndex κ :=
  let result :=
    match a with
    | .push key parent extent => index.push key parent extent
    | .pushRange key parent range => index.pushRange source key parent range
  match result with
  | .ok (ordinal, next) => (.ok ordinal, next)
  | .error cause => (.error cause, index)

/-- The entry of an addition that is accepted. -/
def entryFor (index : RangeIndex κ) (a : Addition κ) (extent : Extent) : IndexEntry κ :=
  ⟨a.key, extent, a.parent.bind index.indexOf⟩

/-- What an addition can do: its range is no part of the text, or its key is taken, or its entry
comes last. -/
theorem attempt_cases (source : Source) (index : RangeIndex κ) (a : Addition κ) :
    (∃ cause, a.extent source = .error cause ∧
      index.attempt source a = (.error (.text cause), index)) ∨
    (∃ extent taken, a.extent source = .ok extent ∧ index.indexOf a.key = some taken ∧
      index.attempt source a = (.error (.duplicateKey taken), index)) ∨
    ∃ extent, a.extent source = .ok extent ∧ index.indexOf a.key = none ∧
      index.attempt source a = (.ok index.size, ⟨index.entries ++ [index.entryFor a extent]⟩) := by
  have hpush : ∀ key parent extent, (∃ taken, index.indexOf key = some taken ∧
        index.push key parent extent = .error (.duplicateKey taken)) ∨
      index.indexOf key = none ∧ index.push key parent extent =
        .ok (index.size, ⟨index.entries ++ [⟨key, extent, parent.bind index.indexOf⟩]⟩) := by
    intro key parent extent
    unfold push
    cases index.indexOf key with
    | some taken => exact Or.inl ⟨taken, rfl, rfl⟩
    | none => exact Or.inr ⟨rfl, rfl⟩
  cases a with
  | push key parent extent =>
      rcases hpush key parent extent with ⟨taken, htaken, heq⟩ | ⟨hnew, heq⟩
      · exact Or.inr (Or.inl ⟨extent, taken, rfl, htaken, by simp [attempt, heq]⟩)
      · exact Or.inr (Or.inr ⟨extent, rfl, hnew, by simp only [attempt, heq]; rfl⟩)
  | pushRange key parent range =>
      cases hextent : source.extentOf range with
      | error cause => exact Or.inl ⟨cause, hextent, by simp [attempt, pushRange, hextent]⟩
      | ok extent =>
          rcases hpush key parent extent with ⟨taken, htaken, heq⟩ | ⟨hnew, heq⟩
          · refine Or.inr (Or.inl ⟨extent, taken, hextent, htaken, ?_⟩)
            simp [attempt, pushRange, hextent, heq]
          · refine Or.inr (Or.inr ⟨extent, hextent, hnew, ?_⟩)
            simp only [attempt, pushRange, hextent, heq]
            rfl

/-- An index that refuses an addition is left as it was. -/
theorem eq_of_refused {source : Source} {index : RangeIndex κ} {a : Addition κ}
    {cause : IndexError} (h : (index.attempt source a).1 = .error cause) :
    (index.attempt source a).2 = index := by
  rcases attempt_cases source index a with ⟨_, -, heq⟩ | ⟨_, _, -, -, heq⟩ | ⟨_, -, -, heq⟩
  · rw [heq]
  · rw [heq]
  · rw [heq] at h
    simp at h

/-- An addition leads from one index that is built to another. -/
theorem Built.attempt {index : RangeIndex κ} (h : index.Built) (source : Source) (a : Addition κ) :
    (index.attempt source a).2.Built := by
  cases a with
  | push key parent extent =>
      cases hpush : index.push key parent extent with
      | error cause => simpa [RangeIndex.attempt, hpush] using h
      | ok result => simpa [RangeIndex.attempt, hpush] using h.push hpush
  | pushRange key parent range =>
      cases hpush : index.pushRange source key parent range with
      | error cause => simpa [RangeIndex.attempt, hpush] using h
      | ok result => simpa [RangeIndex.attempt, hpush] using h.pushRange hpush

/-- A new key gets the ordinal of its entry, and all others keep theirs. -/
theorem indexOf_concat {entries : List (IndexEntry κ)} {entry : IndexEntry κ}
    (hnew : indexOf ⟨entries⟩ entry.key = none) :
    indexOf ⟨entries ++ [entry]⟩ =
      Function.update (indexOf ⟨entries⟩) entry.key (some entries.length) := by
  funext key
  simp only [indexOf, List.findIdx?_append]
  by_cases hkey : key = entry.key
  · rw [hkey, Function.update_self]
    have hnone : entries.findIdx? (fun e => decide (e.key = entry.key)) = none := hnew
    simp [hnone]
  · rw [Function.update_of_ne hkey]
    simp [Ne.symm hkey, indexOf]

end RangeIndex

/-! ## The table agrees with the index -/

namespace EntryTable

open RangeIndex

variable {κ : Type} [DecidableEq κ] {t : EntryTable κ} {index : RangeIndex κ}

/-- The links of the table are those that an index reads off the parents of its entries, and its
ordinals are those of the index. -/
structure Agrees (t : EntryTable κ) (index : RangeIndex κ) : Prop where
  getElem?_eq : ∀ n, t.entries[n]? =
    index.entries[n]?.map fun e => TableEntry.mk e.key e.extent e.parent (index.under (some n))
  roots_eq : t.roots = index.under none
  ordinals_eq : t.ordinals = index.indexOf

/-- The table has as many entries as the index. -/
theorem Agrees.length_eq (h : t.Agrees index) : t.entries.length = index.size := by
  apply Nat.le_antisymm
  · apply List.getElem?_eq_none_iff.mp
    have hnone : index.entries[index.size]? = none := List.getElem?_eq_none (Nat.le_refl _)
    rw [h.getElem?_eq, hnone, Option.map_none]
  · apply List.getElem?_eq_none_iff.mp
    have hnone := h.getElem?_eq t.entries.length
    rw [List.getElem?_eq_none (Nat.le_refl _)] at hnone
    exact Option.map_eq_none_iff.mp hnone.symm

/-- The lists of the table are those of the index. -/
theorem Agrees.siblings_eq (h : t.Agrees index) (hlinks : ∀ {i j}, index.linkAt i = some j → j < i)
    (parent : Option Nat) : t.siblings parent = index.under parent := by
  cases parent with
  | none => exact h.roots_eq
  | some parent =>
      rw [siblings, h.getElem?_eq]
      cases hentry : index.entries[parent]? with
      | some entry => rfl
      | none =>
          -- There is no such entry, so none names it as its parent.
          rw [Option.map_none, Option.map_none, Option.getD_none, eq_comm,
            List.eq_nil_iff_forall_not_mem]
          intro child hchild
          rcases mem_under.mp hchild with ⟨hlt, hlink⟩
          have hbefore := hlinks hlink
          have hle := List.getElem?_eq_none_iff.mp hentry
          rw [RangeIndex.size] at hlt
          omega

/-- A new key is written into the table as the index takes it. -/
theorem Agrees.push (h : t.Agrees index) {key : κ} {parent : Option κ} {extent : Extent}
    (hnew : index.indexOf key = none) {next : RangeIndex κ} (hnext : next.Built)
    (hentries : next.entries = index.entries ++ [⟨key, extent, parent.bind index.indexOf⟩]) :
    (t.push key parent extent).1 = .ok index.size ∧ (t.push key parent extent).2.Agrees next := by
  have hlength := h.length_eq
  have hsize : index.entries.length = index.size := rfl
  have hnext' : next = ⟨index.entries ++ [⟨key, extent, parent.bind index.indexOf⟩]⟩ := by
    rw [← hentries]
  rw [push_eq (by rw [h.ordinals_eq, hnew]), h.ordinals_eq, hlength]
  refine ⟨rfl, ?_, ?_, ?_⟩
  · intro n
    dsimp only
    rcases Nat.lt_trichotomy n index.size with hlt | rfl | hgt
    · rw [List.getElem?_append_left (by simpa [hlength] using hlt), getElem?_join, h.getElem?_eq,
        hentries, List.getElem?_append_left hlt, Option.map_map, hnext', under_concat]
      congr 1
      funext e
      simp only [Function.comp_apply]
      split <;> simp_all
    · have hchildren : next.under (some index.size) = [] := by
        rw [List.eq_nil_iff_forall_not_mem]
        intro child hchild
        rcases mem_under.mp hchild with ⟨hlt, hlink⟩
        have hbefore := hnext.parent_lt hlink
        rw [RangeIndex.size, hentries, List.length_append, List.length_singleton] at hlt
        omega
      rw [List.getElem?_append_right (by simp [hlength]), hentries,
        List.getElem?_append_right (Nat.le_of_eq hsize), hchildren]
      simp [hlength, hsize]
    · rw [List.getElem?_eq_none (by simp [hlength]; omega),
        List.getElem?_eq_none (by rw [hentries]; simp; omega)]
      rfl
  · rw [roots_join, h.roots_eq, hnext', under_concat]
    rfl
  · rw [hnext', indexOf_concat hnew]
    rfl

/-- An addition is accepted or refused by both, and does the same to the links. -/
theorem Agrees.attempt (h : t.Agrees index) (hbuilt : index.Built) (source : Source)
    (a : Addition κ) :
    (t.attempt source a).1 = (index.attempt source a).1 ∧
      (t.attempt source a).2.Agrees (index.attempt source a).2 := by
  have htable : ∀ extent, a.extent source = .ok extent →
      t.attempt source a = t.push a.key a.parent extent := by
    intro extent hextent
    cases a with
    | push key parent x =>
        obtain rfl : x = extent := Except.ok.inj hextent
        rfl
    | pushRange key parent range =>
        have hrange : source.extentOf range = .ok extent := hextent
        simp only [EntryTable.attempt, hrange]
        rfl
  rcases attempt_cases source index a with ⟨cause, hextent, heq⟩ | ⟨extent, taken, hextent, htaken,
    heq⟩ | ⟨extent, hextent, hnew, heq⟩
  · cases a with
    | push key parent x => simp [Addition.extent] at hextent
    | pushRange key parent range =>
        have hrange : source.extentOf range = .error cause := hextent
        simp only [EntryTable.attempt, hrange, heq, true_and]
        exact h
  · rw [htable extent hextent, heq, EntryTable.push, h.ordinals_eq, htaken]
    exact ⟨rfl, h⟩
  · have hnext := hbuilt.attempt source a
    rw [heq] at hnext
    rw [htable extent hextent, heq]
    exact h.push hnew hnext rfl

/-- The table has the keys of the index. -/
theorem Agrees.keyAt_eq (h : t.Agrees index) (n : Nat) : t.keyAt n = index.keyAt n := by
  rw [EntryTable.keyAt, h.getElem?_eq, Option.map_map]
  rfl

/-- The table has the parent links of the index. -/
theorem Agrees.linkAt_eq (h : t.Agrees index) (n : Nat) : t.linkAt n = index.linkAt n := by
  rw [EntryTable.linkAt, h.getElem?_eq, RangeIndex.linkAt]
  cases index.entries[n]? <;> rfl

/-- How the parts of a table hang together: ordinals and keys are inverse to each other; an entry
stands once in the list of children of its parent, or once in the list of roots, and in no other
list; these lists name entries only, in ascending order; and parents come before their children. -/
structure Consistent (t : EntryTable κ) : Prop where
  keyAt_ordinal : ∀ key n, t.ordinals key = some n → n < t.entries.length ∧ t.keyAt n = some key
  ordinal_keyAt : ∀ n, n < t.entries.length → ∃ key, t.keyAt n = some key ∧ t.ordinals key = some n
  listed : ∀ n, n < t.entries.length → ∀ parent,
    (t.siblings parent).count n = if t.linkAt n = parent then 1 else 0
  entries_only : ∀ parent, ∀ n ∈ t.siblings parent, n < t.entries.length
  ascending : ∀ parent, (t.siblings parent).Pairwise (· < ·)
  parent_lt : ∀ n parent, t.linkAt n = some parent → parent < n

/-- A table that agrees with an index that was built is consistent. -/
theorem Agrees.consistent (h : t.Agrees index) (hbuilt : index.Built) : t.Consistent := by
  have hlength := h.length_eq
  have hsiblings := h.siblings_eq hbuilt.parent_lt
  constructor
  · intro key n hkey
    rw [h.ordinals_eq] at hkey
    rw [hlength, h.keyAt_eq]
    exact ⟨(List.findIdx?_eq_some_iff_getElem.mp hkey).1, keyAt_of_indexOf hkey⟩
  · intro n hn
    rcases exists_keyAt (hlength ▸ hn) with ⟨key, hkey⟩
    exact ⟨key, by rw [h.keyAt_eq, hkey], by rw [h.ordinals_eq, hbuilt.distinct.indexOf_eq hkey]⟩
  · intro n hn parent
    rw [hsiblings, h.linkAt_eq, count_under (hlength ▸ hn)]
  · intro parent n hn
    rw [hsiblings] at hn
    rw [hlength]
    exact (mem_under.mp hn).1
  · intro parent
    rw [hsiblings]
    exact pairwise_under index parent
  · intro n parent hlink
    rw [h.linkAt_eq] at hlink
    exact hbuilt.parent_lt hlink

end EntryTable

/-! ## The index and the accepted additions -/

namespace RangeIndex

variable {κ : Type} [DecidableEq κ] {index : RangeIndex κ} {source : Source}
  {accepted : List (Addition κ)}

/-- The entries of an index are those of the accepted additions, each linked to its parent among the
entries before it. -/
structure Stores (source : Source) (index : RangeIndex κ) (accepted : List (Addition κ)) :
    Prop where
  size_eq : index.size = accepted.length
  entry : ∀ n a, accepted[n]? = some a → ∃ extent, a.extent source = .ok extent ∧
    index.entries[n]? = some (entryFor ⟨index.entries.take n⟩ a extent)

/-- An addition that is accepted is stored behind the others. -/
theorem Stores.concat (h : index.Stores source accepted) {a : Addition κ} {extent : Extent}
    (hextent : a.extent source = .ok extent) :
    Stores source ⟨index.entries ++ [index.entryFor a extent]⟩ (accepted ++ [a]) := by
  have hsize : index.entries.length = accepted.length := h.size_eq
  refine ⟨by simp [RangeIndex.size, hsize], ?_⟩
  intro n b hb
  rcases Nat.lt_trichotomy n accepted.length with hlt | rfl | hgt
  · rw [List.getElem?_append_left hlt] at hb
    rcases h.entry n b hb with ⟨x, hx, hentry⟩
    refine ⟨x, hx, ?_⟩
    rw [List.getElem?_append_left (hsize ▸ hlt), hentry,
      List.take_append_of_le_length (Nat.le_of_lt (hsize ▸ hlt))]
  · obtain rfl : a = b := by simpa using hb
    refine ⟨extent, hextent, ?_⟩
    rw [← hsize, List.getElem?_append_right (Nat.le_refl _), List.take_left]
    simp
  · rw [List.getElem?_eq_none (by simp; omega)] at hb
    simp at hb

/-- The keys of the entries are those of the accepted additions. -/
theorem Stores.keys_eq (h : index.Stores source accepted) :
    index.entries.map IndexEntry.key = accepted.map Addition.key := by
  apply List.ext_getElem?
  intro n
  rw [List.getElem?_map, List.getElem?_map]
  cases ha : accepted[n]? with
  | none =>
      have hnone : index.entries[n]? = none := by
        have hsize : index.entries.length = accepted.length := h.size_eq
        rw [List.getElem?_eq_none_iff, hsize]
        exact List.getElem?_eq_none_iff.mp ha
      rw [hnone]
      rfl
  | some a =>
      rcases h.entry n a ha with ⟨extent, -, hentry⟩
      rw [hentry]
      rfl

/-- What an index says of the additions that were accepted: their number, keys and extents in the
order of their acceptance, and for each the parent that was asked for, if that had been accepted
before, and none otherwise, which makes it a root. -/
structure Recounts (source : Source) (index : RangeIndex κ) (accepted : List (Addition κ)) :
    Prop where
  size_eq : index.size = accepted.length
  keyAt_eq : ∀ n, index.keyAt n = accepted[n]?.map Addition.key
  indexOf_iff : ∀ key n, index.indexOf key = some n ↔ index.keyAt n = some key
  extent : ∀ a ∈ accepted, ∃ extent, a.extent source = .ok extent ∧
    index.extentOf a.key = some extent
  parentOf_eq : ∀ (n : Nat) (a : Addition κ), accepted[n]? = some a → index.parentOf a.key =
    a.parent.filter fun parent => parent ∈ (accepted.take n).map Addition.key
  root_iff : ∀ a ∈ accepted, a.key ∈ index.roots ↔ index.parentOf a.key = none

/-- An index that stores the accepted additions tells all of them. -/
theorem Stores.recounts (h : index.Stores source accepted) (hbuilt : index.Built) :
    index.Recounts source accepted := by
  have hkeys := h.keys_eq
  have hkeyAt : ∀ n, index.keyAt n = accepted[n]?.map Addition.key := by
    intro n
    rw [keyAt, ← List.getElem?_map, ← List.getElem?_map, hkeys]
  have hindexOf : ∀ key n, index.indexOf key = some n ↔ index.keyAt n = some key := fun key n =>
    ⟨keyAt_of_indexOf, hbuilt.distinct.indexOf_eq⟩
  refine ⟨h.size_eq, hkeyAt, hindexOf, ?_, ?_, ?_⟩
  · intro a ha
    rcases List.getElem?_of_mem ha with ⟨n, hn⟩
    rcases h.entry n a hn with ⟨extent, hextent, hentry⟩
    have hkey : index.keyAt n = some a.key := by rw [hkeyAt, hn, Option.map_some]
    refine ⟨extent, hextent, ?_⟩
    rw [hbuilt.distinct.extentOf_eq hkey, extentAt, hentry]
    rfl
  · intro n a ha
    rcases h.entry n a ha with ⟨extent, -, hentry⟩
    have hkey : index.keyAt n = some a.key := by rw [hkeyAt, ha, Option.map_some]
    have hlink : index.linkAt n = a.parent.bind (indexOf ⟨index.entries.take n⟩) := by
      rw [linkAt, hentry]
      rfl
    have htake : (index.entries.take n).map IndexEntry.key =
        (accepted.take n).map Addition.key := by
      rw [List.map_take, hkeys, List.map_take]
    rw [hbuilt.distinct.parentOf_eq hkey, hlink, ← htake]
    cases a.parent with
    | none => rfl
    | some parent =>
        rw [Option.bind_some]
        cases hindex : indexOf ⟨index.entries.take n⟩ parent with
        | none =>
            have hnew : parent ∉ (index.entries.take n).map IndexEntry.key := by
              rw [List.mem_map]
              rintro ⟨entry, hmem, rfl⟩
              simpa using List.findIdx?_eq_none_iff.mp hindex entry hmem
            rw [Option.filter_some_neg (by simpa using hnew)]
            rfl
        | some j =>
            have hfound := keyAt_of_indexOf hindex
            rcases Option.map_eq_some_iff.mp hfound with ⟨entry, hj, rfl⟩
            have hmem : entry.key ∈ (index.entries.take n).map IndexEntry.key :=
              List.mem_map_of_mem (List.mem_of_getElem? hj)
            rw [Option.filter_some_pos (by simpa using hmem), Option.bind_some, keyAt]
            rw [List.getElem?_take] at hj
            split at hj
            · rw [hj, Option.map_some]
            · simp at hj
  · intro a ha
    rcases List.getElem?_of_mem ha with ⟨n, hn⟩
    have hkey : index.keyAt n = some a.key := by rw [hkeyAt, hn, Option.map_some]
    have hlt : n < index.size := h.size_eq ▸ (List.getElem?_eq_some_iff.mp hn).1
    rw [hbuilt.distinct.mem_roots_iff hkey, hbuilt.distinct.parentOf_eq hkey]
    cases hlink : index.linkAt n with
    | none => simp
    | some parent =>
        rcases exists_keyAt (Nat.lt_trans (hbuilt.parent_lt hlink) hlt) with ⟨above, habove⟩
        simp [habove]

/-- Along every sequence of additions the table agrees with the index, and the index stores what was
accepted, under ordinals that count the successes. -/
theorem stores_of_logged (source : Source) (asked : List (Addition κ)) :
    let run := logged (attempt source) empty asked
    let table := logged (EntryTable.attempt source) .empty asked
    let accepted := Addition.accepted run.1
    table.1 = run.1 ∧ table.2.Agrees run.2 ∧ run.2.Built ∧ run.2.Stores source accepted ∧
      run.1.filterMap (fun note => note.2.toOption) = List.range accepted.length := by
  induction asked using List.reverseRecOn with
  | nil =>
      have hstores : Stores source (empty : RangeIndex κ) [] := ⟨rfl, by simp⟩
      exact ⟨rfl, ⟨fun _ => rfl, rfl, rfl⟩, .empty, hstores, rfl⟩
  | append_singleton asked a ih =>
      rcases ih with ⟨hlog, hagrees, hbuilt, hstores, hordinals⟩
      simp only [logged_concat]
      generalize logged (RangeIndex.attempt source) empty asked = run at *
      generalize logged (EntryTable.attempt source) .empty asked = table at *
      rcases hagrees.attempt hbuilt source a with ⟨hanswer, hagrees'⟩
      refine ⟨by rw [hlog, hanswer], hagrees', hbuilt.attempt source a, ?_⟩
      rcases attempt_cases source run.2 a with ⟨cause, -, heq⟩ | ⟨extent, taken, -, -, heq⟩ |
        ⟨extent, hextent, -, heq⟩
      · rw [heq, Addition.accepted_refused]
        exact ⟨hstores, by simpa [Except.toOption] using hordinals⟩
      · rw [heq, Addition.accepted_refused]
        exact ⟨hstores, by simpa [Except.toOption] using hordinals⟩
      · rw [heq, Addition.accepted_added]
        refine ⟨hstores.concat hextent, ?_⟩
        rw [List.filterMap_append, hordinals, List.length_append, List.length_singleton,
          List.range_succ, hstores.size_eq]
        rfl

/-- Every sequence of additions, refused ones included, keeps an index consistent.  The table that
is written addition by addition gives the same answers and the same links, and its parts hang
together; the answers that are ordinals count up from zero; the index recounts the additions that
were accepted; and an addition is refused for its range or for its key only, and then leaves
everything as it was. -/
theorem attempts_stay_consistent (source : Source) (asked : List (Addition κ)) :
    let run := logged (attempt source) empty asked
    let table := logged (EntryTable.attempt source) .empty asked
    let accepted := Addition.accepted run.1
    (table.1 = run.1 ∧ table.2.Agrees run.2) ∧ table.2.Consistent ∧
      run.1.filterMap (fun note => note.2.toOption) = List.range accepted.length ∧
      run.2.Recounts source accepted ∧
      ∀ i a cause, run.1[i]? = some (a, .error cause) →
        let before := (logged (attempt source) empty (asked.take i)).2
        asked[i]? = some a ∧
        (logged (attempt source) empty (asked.take (i + 1))).2 = before ∧
        (logged (EntryTable.attempt source) .empty (asked.take (i + 1))).2 =
          (logged (EntryTable.attempt source) .empty (asked.take i)).2 ∧
        ((∃ reason, a.extent source = .error reason ∧ cause = .text reason) ∨
          ∃ extent taken, a.extent source = .ok extent ∧ before.indexOf a.key = some taken ∧
            cause = .duplicateKey taken) := by
  intro run table accepted
  rcases stores_of_logged source asked with ⟨hlog, hagrees, hbuilt, hstores, hordinals⟩
  refine ⟨⟨hlog, hagrees⟩, hagrees.consistent hbuilt, hordinals, hstores.recounts hbuilt, ?_⟩
  intro i a cause hnote before
  rcases getElem?_logged hnote with ⟨ha, hanswer, hafter⟩
  rcases getElem?_logged (hlog ▸ hnote) with ⟨-, htable, htableAfter⟩
  refine ⟨ha, ?_, htableAfter.trans (EntryTable.eq_of_refused htable), ?_⟩
  · rw [hafter]
    exact eq_of_refused hanswer
  · rcases attempt_cases source before a with ⟨reason, hextent, heq⟩ | ⟨extent, taken, hextent,
      htaken, heq⟩ | ⟨extent, -, -, heq⟩
    · rw [heq] at hanswer
      exact Or.inl ⟨reason, hextent, (Except.error.inj hanswer).symm⟩
    · rw [heq] at hanswer
      exact Or.inr ⟨extent, taken, hextent, htaken, (Except.error.inj hanswer).symm⟩
    · rw [heq] at hanswer
      simp at hanswer

end RangeIndex
end StyleAtlas
