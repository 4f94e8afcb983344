import Mathlib.Data.List.Sort
import StyleAtlas.Hint.Scanner

/-!
# Source order is an interleaving

The declarations of a block stand in two lists, and their source order is found by sorting them by
the places at which they are found.  Within one list each declaration is searched for behind the one
before it, so the places ascend and the sort, which is stable, keeps the order of the list.  So
whatever the source says, the source order names every declaration of both lists once and changes
only how the two lists interleave.

Main results:

- Definition `Interleaved`: a list made of two lists, each in its own order.
- Theorem `Hint.start_lt_stop`: occurrences end behind their start.
- Theorem `Scanner.pairwise_sortKeys`: the sort keys of one list ascend.
- Theorem `Scanner.interleaved_sourceOrder`: the source order interleaves the two lists.
-/

namespace StyleAtlas

/-! ## Interleavings -/

/-- The third list is made of the other two, each in its own order. -/
inductive Interleaved {α : Type} : List α → List α → List α → Prop where
  | nil : Interleaved [] [] []
  | left {xs ys zs : List α} (x : α) (h : Interleaved xs ys zs) :
      Interleaved (x :: xs) ys (x :: zs)
  | right {xs ys zs : List α} (y : α) (h : Interleaved xs ys zs) :
      Interleaved xs (y :: ys) (y :: zs)

namespace Interleaved

variable {α β : Type} {xs ys zs : List α}

/-- An interleaving has the members of both lists. -/
theorem perm (h : Interleaved xs ys zs) : zs.Perm (xs ++ ys) := by
  induction h with
  | nil => exact List.Perm.refl []
  | left x _ ih => exact ih.cons x
  | @right xs ys zs y _ ih => exact (ih.cons y).trans List.perm_middle.symm

/-- Either list may be called the first one. -/
theorem symm (h : Interleaved xs ys zs) : Interleaved ys xs zs := by
  induction h with
  | nil => exact nil
  | left x _ ih => exact right x ih
  | right y _ ih => exact left y ih

/-- The first list keeps its order. -/
theorem sublist_left (h : Interleaved xs ys zs) : xs.Sublist zs := by
  induction h with
  | nil => exact List.Sublist.slnil
  | left x _ ih => exact ih.cons_cons x
  | right y _ ih => exact ih.cons y

/-- Members of both lists may be picked and mapped at once. -/
theorem filterMap (f : α → Option β) (h : Interleaved xs ys zs) :
    Interleaved (xs.filterMap f) (ys.filterMap f) (zs.filterMap f) := by
  induction h with
  | nil => exact nil
  | left x _ ih =>
      cases hx : f x with
      | none => simpa [List.filterMap_cons_none hx] using ih
      | some b => simpa [List.filterMap_cons_some hx] using left b ih
  | right y _ ih =>
      cases hy : f y with
      | none => simpa [List.filterMap_cons_none hy] using ih
      | some b => simpa [List.filterMap_cons_some hy] using right b ih

/-- Members of both lists may be mapped at once. -/
theorem map (f : α → β) (h : Interleaved xs ys zs) :
    Interleaved (xs.map f) (ys.map f) (zs.map f) := by
  induction h with
  | nil => exact nil
  | left x _ ih => exact left (f x) ih
  | right y _ ih => exact right (f y) ih

/-- A list interleaves those of its members that pass a test with those that do not. -/
theorem of_filter (p : α → Bool) (zs : List α) :
    Interleaved (zs.filter p) (zs.filter fun z => !p z) zs := by
  induction zs with
  | nil => exact nil
  | cons z zs ih =>
      cases hz : p z with
      | true => simpa [hz] using left z ih
      | false => simpa [hz] using right z ih

/-- A stable sort interleaves two parts that are in order and can be told apart. -/
theorem of_mergeSort {le : α → α → Bool} (htrans : ∀ a b c, le a b → le b c → le a c)
    (htotal : ∀ a b, le a b || le b a) (hxs : xs.Pairwise fun a b => le a b)
    (hys : ys.Pairwise fun a b => le a b) {p : α → Bool} (hleft : ∀ x ∈ xs, p x = true)
    (hright : ∀ y ∈ ys, p y = false) : Interleaved xs ys ((xs ++ ys).mergeSort le) := by
  have hperm := List.mergeSort_perm (xs ++ ys) le
  -- Each part stays in order, and has as many members after the sort as before it.
  have hfilterLeft : ((xs ++ ys).mergeSort le).filter p = xs := by
    have hsub : xs.Sublist (((xs ++ ys).mergeSort le).filter p) := by
      have hsub := (List.sublist_mergeSort htrans htotal hxs
        (List.sublist_append_left xs ys)).filter p
      rwa [List.filter_eq_self.mpr hleft] at hsub
    refine (hsub.eq_of_length ?_).symm
    rw [(hperm.filter p).length_eq, List.filter_append, List.filter_eq_self.mpr hleft,
      List.filter_eq_nil_iff.mpr (by simpa using hright), List.append_nil]
  have hfilterRight : (((xs ++ ys).mergeSort le).filter fun z => !p z) = ys := by
    have hright' : ∀ y ∈ ys, (!p y) = true := by simpa using hright
    have hsub : ys.Sublist (((xs ++ ys).mergeSort le).filter fun z => !p z) := by
      have hsub := (List.sublist_mergeSort htrans htotal hys
        (List.sublist_append_right xs ys)).filter fun z => !p z
      rwa [List.filter_eq_self.mpr hright'] at hsub
    refine (hsub.eq_of_length ?_).symm
    rw [(hperm.filter fun z => !p z).length_eq, List.filter_append,
      List.filter_eq_self.mpr hright', List.filter_eq_nil_iff.mpr (by simpa using hleft),
      List.nil_append]
  have hsplit := of_filter p ((xs ++ ys).mergeSort le)
  rwa [hfilterLeft, hfilterRight] at hsplit

end Interleaved

/-! ## Occurrences end behind their start -/

/-- Placed tokens stand at or behind the offset from which they are placed. -/
theorem Placed.le_offset_of_mem {offset : Nat} {tokens : List Token} {t : Placed}
    (h : t ∈ Placed.ofTokens offset tokens) : offset ≤ t.offset := by
  induction tokens generalizing offset with
  | nil => simp [ofTokens] at h
  | cons token tokens ih =>
      rcases List.mem_cons.mp h with rfl | h
      · exact Nat.le_refl _
      · exact Nat.le_trans (Nat.le_add_right _ _) (ih h)

/-- Placed tokens stand in order. -/
theorem Placed.pairwise_ofTokens (offset : Nat) (tokens : List Token) :
    (Placed.ofTokens offset tokens).Pairwise fun t u => t.offset ≤ u.offset := by
  induction tokens generalizing offset with
  | nil => exact List.Pairwise.nil
  | cons token tokens ih =>
      refine List.pairwise_cons.mpr ⟨?_, ih _⟩
      intro t ht
      exact Nat.le_trans (Nat.le_add_right _ _) (le_offset_of_mem ht)

namespace Hint

/-- What is left behind a name is the end of the tokens. -/
theorem spanName_suffix (ts : List Placed) : (spanName ts).2 <:+ ts := by
  induction ts with
  | nil => exact List.suffix_refl []
  | cons t ts ih =>
      unfold spanName
      split
      · exact ih.trans (List.suffix_cons t ts)
      · exact List.suffix_refl _

/-- A signature ends just past one of the tokens behind its name, which is a colon or an opening
parenthesis. -/
theorem exists_mem_of_matchEnd? {signature : Signature} {depth stop : Nat} {written : List Char}
    {rest : List Placed} (h : matchEnd? signature depth written rest = some stop) :
    ∃ t ∈ rest, (t.token = .char ':' ∨ t.token = .char '(') ∧ stop = t.offset + 1 := by
  have hpast : ∀ c ts, past? c ts = some stop →
      ∃ t ∈ ts, t.token = .char c ∧ stop = t.offset + 1 := by
    intro c ts hstop
    cases ts with
    | nil => simp [past?] at hstop
    | cons t ts =>
        simp only [past?] at hstop
        split at hstop
        · rename_i ht
          exact ⟨t, List.mem_cons_self, ht, (Option.some.inj hstop).symm⟩
        · simp at hstop
  cases signature with
  | property name =>
      simp only [matchEnd?] at h
      split at h
      · obtain ⟨t, ht, htoken, hstop⟩ := hpast _ _ h
        exact ⟨t, (List.dropWhile_sublist _).subset ht, Or.inl htoken, hstop⟩
      · simp at h
  | call name =>
      simp only [matchEnd?] at h
      split at h
      · obtain ⟨t, ht, htoken, hstop⟩ := hpast _ _ h
        exact ⟨t, ht, Or.inr htoken, hstop⟩
      · simp at h

/-- An occurrence ends past its start. -/
theorem start_lt_stop_of_mem_occurrencesFrom {signature : Signature} {ceiling : Nat}
    {inName : Bool} {depth : Nat} {ts : List Placed}
    (hts : ts.Pairwise fun t u => t.offset ≤ u.offset) {m : Occurrence}
    (hm : m ∈ occurrencesFrom signature ceiling inName depth ts) : m.start < m.stop := by
  induction ts generalizing inName depth with
  | nil => simp [occurrencesFrom] at hm
  | cons t ts ih =>
      obtain ⟨hbehind, hrest⟩ := List.pairwise_cons.mp hts
      unfold occurrencesFrom at hm
      split at hm
      · simp at hm
      · split at hm
        · dsimp only at hm
          split at hm
          · split at hm
            · rename_i stop hstop
              rcases List.mem_cons.mp hm with rfl | hm
              · -- The signature ends past a token at or behind the first one.
                obtain ⟨u, hu, -, rfl⟩ := exists_mem_of_matchEnd? hstop
                rcases List.mem_cons.mp ((spanName_suffix _).subset hu) with rfl | hu
                · exact Nat.lt_succ_self _
                · exact Nat.lt_succ_of_le (hbehind u hu)
              · exact ih hrest hm
            · exact ih hrest hm
          · exact ih hrest hm
        · exact ih hrest hm

/-- Occurrences end behind their start. -/
theorem start_lt_stop {source : Source} {window : Window} {signature : Signature}
    {m : Occurrence} (hm : m ∈ occurrences source window signature) : m.start < m.stop :=
  start_lt_stop_of_mem_occurrencesFrom (Placed.pairwise_ofTokens _ _) hm

end Hint

/-! ## Sort keys ascend -/

namespace Scanner

variable (source : Source) (window : Window) (important : Bool)

/-- What is picked among occurrences behind a cursor stands behind it, and the next cursor behind
what is picked. -/
theorem le_of_pick {ms : List Occurrence} {floor cursor : Nat}
    (hms : ∀ m ∈ ms, floor ≤ m.start ∧ m.start < m.stop) (hcursor : floor ≤ cursor) :
    floor ≤ (pick source important ms cursor).2 ∧
      ∀ start, (pick source important ms cursor).1 = some start →
        floor ≤ start ∧ start < (pick source important ms cursor).2 := by
  induction ms generalizing cursor with
  | nil => simpa [pick] using hcursor
  | cons m ms ih =>
      obtain ⟨hm, hms⟩ := List.forall_mem_cons.mp hms
      unfold pick
      split
      · refine ⟨Nat.le_trans hm.1 hm.2.le, ?_⟩
        intro start hstart
        rw [← Option.some.inj hstart]
        exact hm
      · exact ih hms (Nat.le_trans hm.1 hm.2.le)

/-- A search for a property from a cursor on finds it behind the cursor, and the next search starts
behind what is found. -/
theorem le_of_pick_ahead (name : List Char) (cursor : Nat) :
    let found := pick source important
      ((Hint.occurrences source window (.property name)).filter (cursor ≤ ·.start)) cursor
    cursor ≤ found.2 ∧ ∀ start, found.1 = some start → cursor ≤ start ∧ start < found.2 := by
  refine le_of_pick source important ?_ (Nat.le_refl cursor)
  intro m hm
  obtain ⟨hmem, hstart⟩ := List.mem_filter.mp hm
  exact ⟨by simpa using hstart, Hint.start_lt_stop hmem⟩

/-- The sort keys of declarations that are searched for from a cursor on ascend. -/
theorem pairwise_sortKeys_from (names : List (List Char)) {cursor previous : Nat}
    (hprevious : previous ≤ cursor) :
    (∀ key ∈ sortKeys (startsInOrder source window important names cursor) previous,
        previous ≤ key) ∧
      (sortKeys (startsInOrder source window important names cursor) previous).Pairwise
        (· ≤ ·) := by
  induction names generalizing cursor previous with
  | nil => simp [startsInOrder, sortKeys]
  | cons name names ih =>
      obtain ⟨hnext, hfound⟩ := le_of_pick_ahead source window important name cursor
      simp only [startsInOrder, sortKeys]
      generalize pick source important _ cursor = found at hnext hfound ⊢
      -- A declaration that is not found keeps the key before it.
      have hkey : previous ≤ found.1.getD previous ∧ found.1.getD previous ≤ found.2 := by
        cases hstart : found.1 with
        | none => exact ⟨Nat.le_refl _, Nat.le_trans hprevious hnext⟩
        | some start =>
            obtain ⟨hle, hlt⟩ := hfound start hstart
            exact ⟨Nat.le_trans hprevious hle, hlt.le⟩
      obtain ⟨hrest, hpairwise⟩ := ih hkey.2
      constructor
      · intro key hmem
        rcases List.mem_cons.mp hmem with rfl | hmem
        · exact hkey.1
        · exact Nat.le_trans hkey.1 (hrest key hmem)
      · exact List.pairwise_cons.mpr ⟨hrest, hpairwise⟩

/-- The sort keys of one list ascend. -/
theorem pairwise_sortKeys (names : List (List Char)) (cursor : Nat) :
    (sortKeys (startsInOrder source window important names cursor) 0).Pairwise (· ≤ ·) :=
  (pairwise_sortKeys_from source window important names (Nat.zero_le cursor)).2

/-! ## Source order -/

/-- Each name of a list is searched for once. -/
theorem length_startsInOrder (names : List (List Char)) (cursor : Nat) :
    (startsInOrder source window important names cursor).length = names.length := by
  induction names generalizing cursor with
  | nil => rfl
  | cons name names ih => simp [startsInOrder, ih]

/-- Each start has a sort key. -/
theorem length_sortKeys (starts : List (Option Nat)) (previous : Nat) :
    (sortKeys starts previous).length = starts.length := by
  induction starts generalizing previous with
  | nil => rfl
  | cons start starts ih => simp [sortKeys, ih]

/-- The first slots of one list. -/
def slots (important : Bool) (count : Nat) : List Slot :=
  (List.range count).map (Slot.mk important)

/-- The slots of a list with keys are its first slots. -/
theorem map_snd_keyedSlots (important : Bool) (keys : List Nat) :
    (keyedSlots important keys).map Prod.snd = slots important keys.length := by
  rw [keyedSlots, List.map_map, slots, List.range_eq_range', ← List.zipIdx_map_snd 0 keys,
    List.map_map]
  rfl

/-- Where the keys of a list ascend, so do its slots with their keys. -/
theorem pairwise_keyedSlots (important : Bool) {keys : List Nat} (h : keys.Pairwise (· ≤ ·)) :
    (keyedSlots important keys).Pairwise fun a b => decide (a.1 ≤ b.1) = true := by
  rw [keyedSlots, List.pairwise_map]
  have hfst : (keys.zipIdx.map Prod.fst).Pairwise (· ≤ ·) := by
    rwa [List.zipIdx_map_fst]
  simpa using List.pairwise_map.mp hfst

/-- All slots of a list are marked important as the list says. -/
theorem important_of_mem_keyedSlots {important : Bool} {keys : List Nat} {keyed : Nat × Slot}
    (h : keyed ∈ keyedSlots important keys) : keyed.2.important = important := by
  obtain ⟨key, -, rfl⟩ := List.mem_map.mp h
  rfl

/-- Keys are compared as numbers. -/
theorem keyed_le_trans (a b c : Nat × Slot) (hab : decide (a.1 ≤ b.1) = true)
    (hbc : decide (b.1 ≤ c.1) = true) : decide (a.1 ≤ c.1) = true := by
  simp only [decide_eq_true_eq] at hab hbc ⊢
  exact Nat.le_trans hab hbc

/-- Of any two keys, one is at most the other. -/
theorem keyed_le_total (a b : Nat × Slot) :
    (decide (a.1 ≤ b.1) || decide (b.1 ≤ a.1)) = true := by
  simpa using Nat.le_total a.1 b.1

/-- The source order interleaves the normal with the important declarations: it names each of them
once, and keeps the order of each list. -/
theorem interleaved_sourceOrder (s : Scanner) (source : Source)
    (normal important : List (List Char)) :
    Interleaved (slots false normal.length) (slots true important.length)
      (s.sourceOrder source normal important) := by
  have hslots : ∀ flag names cursor, (keyedSlots flag (sortKeys
      (startsInOrder source (s.window source) flag names cursor) 0)).map Prod.snd =
        slots flag names.length := by
    intro flag names cursor
    rw [map_snd_keyedSlots, length_sortKeys, length_startsInOrder]
  rw [← hslots false normal (max s.cursor (s.window source).floor),
    ← hslots true important (max s.cursor (s.window source).floor)]
  refine Interleaved.map Prod.snd (Interleaved.of_mergeSort (p := fun a => !a.2.important)
    keyed_le_trans keyed_le_total (pairwise_keyedSlots false (pairwise_sortKeys _ _ _ _ _))
    (pairwise_keyedSlots true (pairwise_sortKeys _ _ _ _ _)) ?_ ?_)
  · intro keyed hkeyed
    simp [important_of_mem_keyedSlots hkeyed]
  · intro keyed hkeyed
    simp [important_of_mem_keyedSlots hkeyed]

end Scanner
end StyleAtlas
