import StyleAtlas.Proofs.Hint.Occurrence
import StyleAtlas.Proofs.Hint.Segments

/-!
# Source order follows the places of declarations

A declaration that is found in the source is matched to an occurrence of its property, directly
inside the block of the window and marked important as its list says.  No two declarations are
matched to the same occurrence, so the source order lists the matched ones by ascending places.
Those that are not found follow the matched ones before them in their list, and come before all
that are matched further behind.

Main results:

- Definition `Hint.DirectlyInside`: offsets directly inside the block of a window.
- Theorem `Hint.stop_eq_of_start_eq`: where an occurrence of a property ends does not depend on the
  property.
- Definition `Scanner.placeOf?`: where a declaration is found.
- Theorem `Scanner.matched_of_placeOf?`: found declarations are matched to genuine occurrences.
- Theorem `Scanner.placeOf?_injective`: no two declarations are found at the same place.
- Theorem `Scanner.sourceOrder_follows_places`: the source order.
-/

namespace StyleAtlas

open Text
open Token (textOf)

/-! ## Occurrences among tokens -/

namespace Hint

/-- The brace depth behind some tokens. -/
def depthBehind : (depth : Nat) → List Token → Nat
  | depth, [] => depth
  | depth, .char c :: ts => depthBehind (depthAfter depth c) ts
  | depth, .quoted _ _ :: ts => depthBehind depth ts
  | depth, .comment _ _ :: ts => depthBehind depth ts

/-- A comment or string leaves the brace depth. -/
theorem depthBehind_other {t : Token} (ht : ∀ c, t ≠ .char c) (depth : Nat) (ts : List Token) :
    depthBehind depth (t :: ts) = depthBehind depth ts := by
  cases t with
  | char c => exact absurd rfl (ht c)
  | quoted content closed => rfl
  | comment content closed => rfl

/-- A text opens at most as many braces as it has bytes. -/
theorem depthBehind_le (depth : Nat) (ts : List Token) :
    depthBehind depth ts ≤ depth + byteSize (textOf ts) := by
  induction ts generalizing depth with
  | nil => exact Nat.le_add_right _ _
  | cons t ts ih =>
      by_cases ht : ∃ c, t = .char c
      · rcases ht with ⟨c, rfl⟩
        have hstep : depthAfter depth c ≤ depth + 1 := by
          unfold depthAfter
          split
          · exact Nat.le_refl _
          · split <;> omega
        have hpos := c.utf8Size_pos
        have hsize : byteSize (textOf (.char c :: ts)) = c.utf8Size + byteSize (textOf ts) := by
          simp [Token.text]
        have hrest := ih (depthAfter depth c)
        rw [depthBehind]
        omega
      · have hsize : byteSize (textOf (t :: ts)) = byteSize t.text + byteSize (textOf ts) := by simp
        have hrest := ih depth
        rw [depthBehind_other (not_exists.mp ht)]
        omega

/-- An occurrence starts at one of the tokens, with those before it on its left. -/
theorem exists_matchAt?_of_mem {signature : Signature} {ceiling : Nat} {inName : Bool}
    {depth offset : Nat} {ts : List Token} {m : Occurrence}
    (hm : m ∈ occurrencesFrom signature ceiling inName depth (Placed.ofTokens offset ts)) :
    ∃ front c back, ts = front ++ .char c :: back ∧
      m.start = offset + byteSize (textOf front) ∧
      matchAt? signature (depthBehind depth front) m.start (.char c :: back) = some m.stop := by
  induction ts generalizing inName depth offset with
  | nil => simp [Placed.ofTokens, occurrencesFrom] at hm
  | cons t ts ih =>
      by_cases hceiling : ceiling ≤ offset
      · simp [occurrencesFrom_of_ceiling_le hceiling] at hm
      by_cases ht : ∃ c, t = .char c
      · rcases ht with ⟨c, rfl⟩
        rw [occurrencesFrom_cons_char (by omega), List.mem_append, List.mem_map] at hm
        rcases hm with ⟨stop, hstop, rfl⟩ | hm
        · refine ⟨[], c, ts, rfl, rfl, ?_⟩
          split at hstop
          · simpa [depthBehind] using hstop
          · simp at hstop
        · rcases ih hm with ⟨front, d, back, rfl, hstart, hmatch⟩
          refine ⟨.char c :: front, d, back, rfl, ?_, hmatch⟩
          simp [hstart, Token.text, Nat.add_assoc]
      · rw [occurrencesFrom_other (not_exists.mp ht)] at hm
        rcases ih hm with ⟨front, d, back, rfl, hstart, hmatch⟩
        refine ⟨t :: front, d, back, rfl, by simp [hstart, Nat.add_assoc], ?_⟩
        rwa [depthBehind_other (not_exists.mp ht)]

/-- A property is matched directly inside a block, and ends at the first colon behind its name. -/
theorem matchAt?_property {name : List Char} {depth offset stop : Nat} {ts : List Token}
    (h : matchAt? (.property name) depth offset ts = some stop) :
    depth = 1 ∧ past? ':' ((spanName (Placed.ofTokens offset ts)).2.dropWhile fun t =>
      isTrivia t.token) = some stop := by
  simp only [matchAt?, matchEnd?] at h
  split at h
  · rename_i hmatch
    rw [Bool.and_eq_true, decide_eq_true_eq] at hmatch
    exact ⟨hmatch.1, h⟩
  · simp at h

/-- Tokens are cut in one way only in front of a character at an offset. -/
theorem back_eq_of_byteSize_eq {front front' back back' : List Token} {c c' : Char}
    (h : front ++ .char c :: back = front' ++ .char c' :: back')
    (hsize : byteSize (textOf front) = byteSize (textOf front')) :
    Token.char c :: back = .char c' :: back' := by
  have hextra : ∀ {extra : List Token} {d : Char} {ts us : List Token},
      Token.char d :: ts = extra ++ us → byteSize (textOf extra) = 0 → extra = [] := by
    intro extra d ts us hcut hzero
    cases extra with
    | nil => rfl
    | cons t extra =>
        obtain rfl := (List.cons.inj hcut).1
        have hpos := d.utf8Size_pos
        simp [Token.text] at hzero
        omega
  rcases List.append_eq_append_iff.mp h with ⟨extra, rfl, hcut⟩ | ⟨extra, rfl, hcut⟩
  · obtain rfl := hextra hcut (by simpa using hsize.symm)
    exact hcut
  · obtain rfl := hextra hcut (by simpa using hsize)
    exact hcut.symm

variable {source : Source} {window : Window}

/-- Where an occurrence of a property ends does not depend on the property. -/
theorem stop_eq_of_start_eq {name name' : List Char} {m m' : Occurrence}
    (hm : m ∈ occurrences source window (.property name))
    (hm' : m' ∈ occurrences source window (.property name')) (hstart : m.start = m'.start) :
    m.stop = m'.stop := by
  rcases exists_matchAt?_of_mem hm with ⟨front, c, back, hsplit, hplace, hmatch⟩
  rcases exists_matchAt?_of_mem hm' with ⟨front', c', back', hsplit', hplace', hmatch'⟩
  have hback := back_eq_of_byteSize_eq (hsplit.symm.trans hsplit') (by omega)
  rw [← hstart, ← hback] at hmatch'
  exact Option.some.inj ((matchAt?_property hmatch).2.symm.trans (matchAt?_property hmatch').2)

/-- An offset lies directly inside the block of a window: the tokens between the start of the window
and the offset leave one brace open. -/
def DirectlyInside (source : Source) (window : Window) (offset : Nat) : Prop :=
  ∃ front back, Token.lex .singleLine (charsFrom source.chars window.floor) = front ++ back ∧
    offset + byteSize (textOf back) = source.size ∧ depthBehind 0 front = 1

/-- Properties are found directly inside the block of the window. -/
theorem directlyInside_of_mem_occurrences {name : List Char} {m : Occurrence}
    (hm : m ∈ occurrences source window (.property name)) :
    DirectlyInside source window m.start := by
  rcases exists_eq_append_charsFrom source.chars window.floor with ⟨before, hchars, -⟩
  rw [occurrences, tokensFrom_charsFrom hchars] at hm
  rcases exists_matchAt?_of_mem hm with ⟨front, c, back, hsplit, hplace, hmatch⟩
  refine ⟨front, .char c :: back, hsplit, ?_, (matchAt?_property hmatch).1⟩
  have htext := Token.flatMap_text_lex .singleLine (charsFrom source.chars window.floor)
  have hsize := congrArg byteSize hchars
  rw [← htext, hsplit, List.flatMap_append, byteSize_append, byteSize_append] at hsize
  rw [Source.size, hsize, hplace, Nat.add_assoc]

/-- A brace stands in front of what lies directly inside a block. -/
theorem pos_of_mem_occurrences {name : List Char} {m : Occurrence}
    (hm : m ∈ occurrences source window (.property name)) : 0 < m.start := by
  rcases exists_matchAt?_of_mem hm with ⟨front, c, back, -, hplace, hmatch⟩
  have hdepth := depthBehind_le 0 front
  have hone := (matchAt?_property hmatch).1
  omega

end Hint

/-! ## Places of declarations -/

/-- In a list whose members are related in order, one that is not related to another comes before
it. -/
theorem pair_sublist_of_pairwise {α : Type} {R : α → α → Prop} {l : List α} (h : l.Pairwise R)
    {a b : α} (ha : a ∈ l) (hb : b ∈ l) (hne : a ≠ b) (hnot : ¬R b a) : [a, b].Sublist l := by
  induction h with
  | nil => simp at ha
  | @cons x l hx _ ih =>
      rcases List.mem_cons.mp ha with rfl | hal
      · rcases List.mem_cons.mp hb with rfl | hbl
        · exact absurd rfl hne
        · exact (List.singleton_sublist.mpr hbl).cons_cons a
      · rcases List.mem_cons.mp hb with rfl | hbl
        · exact absurd (hx a hal) hnot
        · exact (ih hal hbl).cons x

namespace Scanner

section Search

variable {source : Source} {window : Window} {important : Bool}

/-- What is picked is an occurrence that is marked important or not, as asked. -/
theorem exists_mem_of_pick {ms : List Occurrence} {cursor start : Nat}
    (h : (pick source important ms cursor).1 = some start) :
    ∃ stop, ⟨start, stop⟩ ∈ ms ∧ Hint.isImportant source stop = important := by
  induction ms generalizing cursor with
  | nil => simp [pick] at h
  | cons m ms ih =>
      unfold pick at h
      split at h
      · rename_i himportant
        obtain rfl := Option.some.inj h
        exact ⟨m.stop, List.mem_cons_self, himportant⟩
      · rcases ih h with ⟨stop, hmem, himportant⟩
        exact ⟨stop, List.mem_cons_of_mem _ hmem, himportant⟩

/-- What is found for a list of properties. -/
theorem exists_occurrence_of_startsInOrder {names : List (List Char)} {cursor index start : Nat}
    (h : (startsInOrder source window important names cursor)[index]? = some (some start)) :
    ∃ name stop, names[index]? = some name ∧
      ⟨start, stop⟩ ∈ Hint.occurrences source window (.property name) ∧
      Hint.isImportant source stop = important := by
  induction names generalizing cursor index with
  | nil => simp [startsInOrder] at h
  | cons name names ih =>
      rw [startsInOrder] at h
      cases index with
      | zero =>
          rcases exists_mem_of_pick (Option.some.inj h) with ⟨stop, hmem, himportant⟩
          exact ⟨name, stop, rfl, List.mem_of_mem_filter hmem, himportant⟩
      | succ index => exact ih h

/-- The places of one list stand behind the cursor, and ascend. -/
theorem pairwise_startsInOrder (source : Source) (window : Window) (important : Bool)
    (names : List (List Char)) (cursor : Nat) :
    (∀ found ∈ startsInOrder source window important names cursor, ∀ start ∈ found,
        cursor ≤ start) ∧
      (startsInOrder source window important names cursor).Pairwise
        fun found other => ∀ start ∈ found, ∀ start' ∈ other, start < start' := by
  induction names generalizing cursor with
  | nil => simp [startsInOrder]
  | cons name names ih =>
      rcases le_of_pick_ahead source window important name cursor with ⟨hnext, hfound⟩
      rw [startsInOrder]
      generalize pick source important _ cursor = found at hnext hfound ⊢
      rcases ih found.2 with ⟨hbehind, hpairwise⟩
      constructor
      · refine List.forall_mem_cons.mpr ⟨fun start hstart => (hfound start hstart).1, ?_⟩
        intro other hother start hstart
        exact Nat.le_trans hnext (hbehind other hother start hstart)
      · refine List.pairwise_cons.mpr ⟨?_, hpairwise⟩
        intro other hother start hstart start' hstart'
        exact Nat.lt_of_lt_of_le (hfound start hstart).2 (hbehind other hother start' hstart')

/-- Of two declarations of a list that are found, the later one is found further on. -/
theorem lt_of_startsInOrder {names : List (List Char)} {cursor i j a b : Nat}
    (hi : (startsInOrder source window important names cursor)[i]? = some (some a))
    (hj : (startsInOrder source window important names cursor)[j]? = some (some b)) (hij : i < j) :
    a < b := by
  rcases List.getElem?_eq_some_iff.mp hi with ⟨hilt, hia⟩
  rcases List.getElem?_eq_some_iff.mp hj with ⟨hjlt, hjb⟩
  have hpairwise := List.pairwise_iff_getElem.mp
    (pairwise_startsInOrder source window important names cursor).2
  exact hpairwise i j hilt hjlt hij a hia b hjb

/-- A sort key is the start of its declaration, or that of one before it; without one it is the
first key. -/
theorem sortKeys_cases {starts : List (Option Nat)} {previous index key : Nat}
    (h : (sortKeys starts previous)[index]? = some key) :
    starts[index]? = some (some key) ∨ starts[index]? = some none ∧
      (key = previous ∨ ∃ earlier < index, starts[earlier]? = some (some key)) := by
  induction starts generalizing previous index with
  | nil => simp [sortKeys] at h
  | cons start starts ih =>
      rw [sortKeys] at h
      cases index with
      | zero =>
          have hkey := Option.some.inj h
          cases start with
          | none => exact Or.inr ⟨rfl, Or.inl hkey.symm⟩
          | some start =>
              obtain rfl : start = key := hkey
              exact Or.inl rfl
      | succ index =>
          rcases ih h with hfound | ⟨hnone, hkey | ⟨earlier, hlt, hearlier⟩⟩
          · exact Or.inl hfound
          · refine Or.inr ⟨hnone, ?_⟩
            cases start with
            | none => exact Or.inl hkey
            | some start =>
                obtain rfl : key = start := hkey
                exact Or.inr ⟨0, Nat.succ_pos _, rfl⟩
          · exact Or.inr ⟨hnone, Or.inr ⟨earlier + 1, Nat.succ_lt_succ hlt, hearlier⟩⟩

end Search

/-- One slot comes before another one in their list. -/
def Slot.Before (slot other : Slot) : Prop :=
  slot.important = other.important ∧ slot.index < other.index

/-- One slot comes before another one in an order of both lists. -/
def Slot.Precedes (order : List Slot) (slot other : Slot) : Prop :=
  [slot, other].Sublist order

variable (s : Scanner) (source : Source) (normal important : List (List Char))

/-- The names of the list in which a slot stands. -/
def namesOf (slot : Slot) : List (List Char) :=
  if slot.important then important else normal

/-- Where the declaration of a slot is found. -/
def placeOf? (slot : Slot) : Option Nat :=
  (startsInOrder source (s.window source) slot.important (namesOf normal important slot)
    (max s.cursor (s.window source).floor))[slot.index]?.join

/-- A slot is matched to an occurrence of its property: directly inside the block of the window, not
before the cursor, and marked important as the list of the slot says. -/
structure Matched (slot : Slot) (m : Occurrence) : Prop where
  occurs : ∃ name, (namesOf normal important slot)[slot.index]? = some name ∧
    m ∈ Hint.occurrences source (s.window source) (.property name) ∧
    (Signature.property name).StandsIn source (s.window source) m.start
  directly : Hint.DirectlyInside source (s.window source) m.start
  cursor_le : s.cursor ≤ m.start
  important_eq : Hint.isImportant source m.stop = slot.important

variable {s source normal important}

/-- The place of a slot is read off the starts of its list. -/
theorem placeOf?_eq_some_iff {slot : Slot} {start : Nat} :
    s.placeOf? source normal important slot = some start ↔
      (startsInOrder source (s.window source) slot.important (namesOf normal important slot)
        (max s.cursor (s.window source).floor))[slot.index]? = some (some start) := by
  rw [placeOf?, Option.join_eq_some_iff]

/-- What is found is matched to an occurrence. -/
theorem matched_of_placeOf? {slot : Slot} {start : Nat}
    (h : s.placeOf? source normal important slot = some start) :
    ∃ stop, s.Matched source normal important slot ⟨start, stop⟩ := by
  rw [placeOf?_eq_some_iff] at h
  rcases exists_occurrence_of_startsInOrder h with ⟨name, stop, hname, hmem, himportant⟩
  have hcursor := (pairwise_startsInOrder _ _ _ _ _).1 _ (List.mem_of_getElem? h) start rfl
  exact ⟨stop, ⟨name, hname, hmem, Hint.standsIn_of_mem_occurrences hmem⟩,
    Hint.directlyInside_of_mem_occurrences hmem, Nat.le_trans (Nat.le_max_left _ _) hcursor,
    himportant⟩

/-- Of two declarations of one list, the one that comes before is found before. -/
theorem lt_of_before {slot other : Slot} {start start' : Nat} (hbefore : slot.Before other)
    (h : s.placeOf? source normal important slot = some start)
    (h' : s.placeOf? source normal important other = some start') : start < start' := by
  rcases slot with ⟨flag, index⟩
  rcases other with ⟨flag', index'⟩
  obtain ⟨rfl, hindex⟩ : flag = flag' ∧ index < index' := hbefore
  rw [placeOf?_eq_some_iff] at h h'
  exact lt_of_startsInOrder h h' hindex

/-- No two declarations are found at the same place. -/
theorem placeOf?_injective {slot other : Slot} {start : Nat}
    (h : s.placeOf? source normal important slot = some start)
    (h' : s.placeOf? source normal important other = some start) : slot = other := by
  by_cases hlist : slot.important = other.important
  · rcases Nat.lt_trichotomy slot.index other.index with hlt | heq | hgt
    · exact absurd (lt_of_before ⟨hlist, hlt⟩ h h') (Nat.lt_irrefl _)
    · rcases slot with ⟨flag, index⟩
      exact congrArg₂ Slot.mk hlist heq
    · exact absurd (lt_of_before ⟨hlist.symm, hgt⟩ h' h) (Nat.lt_irrefl _)
  · -- The value behind one occurrence is important or not.
    rcases matched_of_placeOf? h with ⟨stop, ⟨name, -, hmem, -⟩, -, -, himportant⟩
    rcases matched_of_placeOf? h' with ⟨stop', ⟨name', -, hmem', -⟩, -, -, himportant'⟩
    obtain rfl : stop = stop' := Hint.stop_eq_of_start_eq hmem hmem' rfl
    exact absurd (himportant.symm.trans himportant') hlist

/-- No declaration is found at the very start of the source. -/
theorem pos_of_placeOf? {slot : Slot} {start : Nat}
    (h : s.placeOf? source normal important slot = some start) : 0 < start := by
  rcases matched_of_placeOf? h with ⟨stop, ⟨name, -, hmem, -⟩, -, -, -⟩
  exact Hint.pos_of_mem_occurrences hmem

/-! ## The sorted declarations -/

/-- The key of a slot stands in the keys of its list at the number of the slot. -/
theorem mem_keyedSlots {flag : Bool} {keys : List Nat} {key : Nat} {slot : Slot}
    (h : (key, slot) ∈ keyedSlots flag keys) :
    slot.important = flag ∧ keys[slot.index]? = some key := by
  rcases List.mem_map.mp h with ⟨⟨k, i⟩, hmem, heq⟩
  obtain ⟨rfl, rfl⟩ := Prod.mk.inj heq
  exact ⟨rfl, List.mem_zipIdx_iff_getElem?.mp hmem⟩

/-- The key of a slot is its place, or that of one before it in its list; without one it is zero. -/
def KeyFits (s : Scanner) (source : Source) (normal important : List (List Char)) (key : Nat)
    (slot : Slot) : Prop :=
  s.placeOf? source normal important slot = some key ∨
    s.placeOf? source normal important slot = none ∧
      (key = 0 ∨ ∃ earlier : Slot, earlier.Before slot ∧
        s.placeOf? source normal important earlier = some key)

/-- The key of a slot that has a place is its place. -/
theorem KeyFits.key_eq {key start : Nat} {slot : Slot}
    (h : s.KeyFits source normal important key slot)
    (hplace : s.placeOf? source normal important slot = some start) : key = start := by
  rcases h with hkey | ⟨hnone, -⟩
  · exact Option.some.inj (hkey.symm.trans hplace)
  · simp [hnone] at hplace

/-- The keys of a list fit its slots. -/
theorem keyFits_of_mem_keyedSlots (flag : Bool) {key : Nat} {slot : Slot}
    (h : (key, slot) ∈ keyedSlots flag (sortKeys (startsInOrder source (s.window source) flag
      (if flag then important else normal) (max s.cursor (s.window source).floor)) 0)) :
    s.KeyFits source normal important key slot := by
  rcases mem_keyedSlots h with ⟨rfl, hkey⟩
  rcases sortKeys_cases hkey with hfound | ⟨hnone, hprevious⟩
  · exact Or.inl (placeOf?_eq_some_iff.mpr hfound)
  · refine Or.inr ⟨?_, hprevious.imp_right ?_⟩
    · rw [placeOf?, namesOf, hnone]
      rfl
    · rintro ⟨earlier, hlt, hearlier⟩
      exact ⟨⟨slot.important, earlier⟩, ⟨rfl, hlt⟩, placeOf?_eq_some_iff.mpr hearlier⟩

/-- The source order is that of ascending keys. -/
theorem exists_sorted (s : Scanner) (source : Source) (normal important : List (List Char)) :
    ∃ sorted : List (Nat × Slot), s.sourceOrder source normal important = sorted.map Prod.snd ∧
      sorted.Pairwise (fun a b => a.1 ≤ b.1) ∧
      ∀ entry ∈ sorted, s.KeyFits source normal important entry.1 entry.2 := by
  refine ⟨_, rfl, ?_, ?_⟩
  · exact (List.pairwise_mergeSort keyed_le_trans keyed_le_total _).imp of_decide_eq_true
  · rintro ⟨key, slot⟩ hentry
    rw [List.mem_mergeSort, List.mem_append] at hentry
    rcases hentry with hentry | hentry
    · exact keyFits_of_mem_keyedSlots false hentry
    · exact keyFits_of_mem_keyedSlots true hentry

/-- The slots of both lists are named once. -/
theorem nodup_sourceOrder (s : Scanner) (source : Source) (normal important : List (List Char)) :
    (s.sourceOrder source normal important).Nodup := by
  rw [(interleaved_sourceOrder s source normal important).perm.nodup_iff]
  have hslots : ∀ flag count, (slots flag count).Nodup := by
    intro flag count
    exact List.nodup_range.map fun i j heq => (Slot.mk.inj heq).2
  refine (hslots _ _).append (hslots _ _) ?_
  intro slot hleft hright
  rcases List.mem_map.mp hleft with ⟨i, -, rfl⟩
  rcases List.mem_map.mp hright with ⟨j, -, heq⟩
  exact Bool.noConfusion (Slot.mk.inj heq).1

/-- The slots of a list come in its order. -/
theorem precedes_of_before {slot other : Slot} (hbefore : slot.Before other)
    (hother : other ∈ s.sourceOrder source normal important) :
    slot.Precedes (s.sourceOrder source normal important) other := by
  have hinter := interleaved_sourceOrder s source normal important
  have hpair : ∀ {flag : Bool} {count i j : Nat}, i < j → j < count →
      [Slot.mk flag i, Slot.mk flag j].Sublist (slots flag count) := by
    intro flag count i j hij hj
    have hrange : [i, j].Sublist (List.range count) :=
      pair_sublist_of_pairwise List.pairwise_lt_range (List.mem_range.mpr (hij.trans hj))
        (List.mem_range.mpr hj) hij.ne hij.asymm
    exact hrange.map (Slot.mk flag)
  rw [hinter.perm.mem_iff, List.mem_append] at hother
  rcases slot with ⟨flag, i⟩
  obtain ⟨rfl, hij⟩ : flag = other.important ∧ i < other.index := hbefore
  rcases hother with hother | hother
  · rcases List.mem_map.mp hother with ⟨j, hj, rfl⟩
    exact (hpair hij (List.mem_range.mp hj)).trans hinter.sublist_left
  · rcases List.mem_map.mp hother with ⟨j, hj, rfl⟩
    exact (hpair hij (List.mem_range.mp hj)).trans hinter.symm.sublist_left

/-- What is found is one of the declarations. -/
theorem mem_sourceOrder_of_placeOf? {slot : Slot} {start : Nat}
    (h : s.placeOf? source normal important slot = some start) :
    slot ∈ s.sourceOrder source normal important := by
  rcases matched_of_placeOf? h with ⟨stop, ⟨name, hname, -⟩, -⟩
  have hlt : slot.index < (namesOf normal important slot).length :=
    (List.getElem?_eq_some_iff.mp hname).1
  rw [(interleaved_sourceOrder s source normal important).perm.mem_iff, List.mem_append]
  rcases slot with ⟨_ | _, index⟩
  · exact Or.inl (List.mem_map.mpr ⟨index, List.mem_range.mpr hlt, rfl⟩)
  · exact Or.inr (List.mem_map.mpr ⟨index, List.mem_range.mpr hlt, rfl⟩)

/-- The declarations that are found come by ascending places. -/
theorem pairwise_places (s : Scanner) (source : Source) (normal important : List (List Char)) :
    ((s.sourceOrder source normal important).filterMap
      (s.placeOf? source normal important)).Pairwise (· < ·) := by
  have hnodup := nodup_sourceOrder s source normal important
  rcases exists_sorted s source normal important with ⟨sorted, horder, hsorted, hfits⟩
  rw [horder] at hnodup ⊢
  have hdistinct : sorted.Pairwise fun a b => a.2 ≠ b.2 := List.pairwise_map.mp hnodup
  rw [List.filterMap_map, List.pairwise_filterMap]
  refine (hsorted.and hdistinct).imp_of_mem ?_
  rintro ⟨key, slot⟩ ⟨key', other⟩ hmem hmem' ⟨hle, hne⟩ start hstart start' hstart'
  obtain rfl : key = start := (hfits _ hmem).key_eq hstart
  obtain rfl : key' = start' := (hfits _ hmem').key_eq hstart'
  refine Nat.lt_of_le_of_ne hle ?_
  rintro rfl
  exact hne (placeOf?_injective hstart hstart')

/-- A declaration that is not found comes before one that is found behind all that are found before
it in its list. -/
theorem precedes_of_placeOf? {slot other : Slot} {start : Nat}
    (hslot : slot ∈ s.sourceOrder source normal important)
    (hnone : s.placeOf? source normal important slot = none)
    (hother : s.placeOf? source normal important other = some start)
    (hbehind : ∀ earlier place, Slot.Before earlier slot →
      s.placeOf? source normal important earlier = some place → place < start) :
    slot.Precedes (s.sourceOrder source normal important) other := by
  have hmem := mem_sourceOrder_of_placeOf? hother
  rcases exists_sorted s source normal important with ⟨sorted, horder, hsorted, hfits⟩
  rw [horder] at hslot hmem ⊢
  rcases List.mem_map.mp hslot with ⟨⟨key, _⟩, hentry, rfl⟩
  rcases List.mem_map.mp hmem with ⟨⟨key', _⟩, hentry', rfl⟩
  obtain rfl : key' = start := (hfits _ hentry').key_eq hother
  have hlt : key < key' := by
    rcases hfits _ hentry with hfound | ⟨-, rfl | ⟨earlier, hbefore, hplace⟩⟩
    · simp [hnone] at hfound
    · exact pos_of_placeOf? hother
    · exact hbehind earlier key hbefore hplace
  have hpair := pair_sublist_of_pairwise hsorted hentry hentry'
    (fun heq => hlt.ne (Prod.mk.inj heq).1) (Nat.not_le_of_lt hlt)
  exact hpair.map Prod.snd

/-- The source order interleaves the normal with the important declarations.  Those that are found
come by ascending places, each of which is an occurrence of the property in the window that is
marked as its list says.  One that is not found comes behind those before it in its list, and before
all that are found further behind. -/
theorem sourceOrder_follows_places (s : Scanner) (source : Source)
    (normal important : List (List Char)) :
    Interleaved (slots false normal.length) (slots true important.length)
        (s.sourceOrder source normal important) ∧
      ((s.sourceOrder source normal important).filterMap
        (s.placeOf? source normal important)).Pairwise (· < ·) ∧
      (∀ slot start, s.placeOf? source normal important slot = some start →
        ∃ stop, s.Matched source normal important slot ⟨start, stop⟩) ∧
      ∀ slot ∈ s.sourceOrder source normal important,
        s.placeOf? source normal important slot = none →
          (∀ other : Slot, other.Before slot →
            other.Precedes (s.sourceOrder source normal important) slot) ∧
          ∀ other start, s.placeOf? source normal important other = some start →
            (∀ earlier place, Slot.Before earlier slot →
              s.placeOf? source normal important earlier = some place → place < start) →
            slot.Precedes (s.sourceOrder source normal important) other := by
  refine ⟨interleaved_sourceOrder s source normal important,
    pairwise_places s source normal important, fun slot start => matched_of_placeOf?, ?_⟩
  intro slot hslot hnone
  exact ⟨fun other hbefore => precedes_of_before hbefore hslot,
    fun other start => precedes_of_placeOf? hslot hnone⟩

/-- A rule with an important declaration between two normal ones. -/
def mixedRule : Source :=
  ⟨['a', '{', 'b', ':', 'c', ';', 'd', ':', 'e', '!', 'i', 'm', 'p', 'o', 'r', 't', 'a', 'n', 't',
    ';', 'f', ':', 'g', '}']⟩

-- The second normal name is not in the rule, and stays behind the first one.
example :
    (init.openBlock mixedRule 0).sourceOrder mixedRule [['b'], ['x'], ['f']] [['d']] =
        [⟨false, 0⟩, ⟨false, 1⟩, ⟨true, 0⟩, ⟨false, 2⟩] ∧
      [Slot.mk false 0, ⟨false, 1⟩, ⟨true, 0⟩, ⟨false, 2⟩].map
        ((init.openBlock mixedRule 0).placeOf? mixedRule [['b'], ['x'], ['f']] [['d']]) =
        [some 2, none, some 6, some 20] := by
  cbv

end Scanner
end StyleAtlas
