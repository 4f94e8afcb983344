import Mathlib.Data.List.Induction
import Mathlib.Order.Nat
import StyleAtlas.Outline.Builder
import StyleAtlas.Proofs.Text.WalkBack

/-!
# Extents in closed form

Of a stream of events only the depths and the located offsets bear on the extents of the nodes.
This module lists them in the order of the visits and reads the extent of a node off the list: its
start is the last located offset up to it, and its end is found by walking back from the first
located offset behind it, in both cases among the visits at its depth or above.

Main results:

- Definitions `Visit`, `Visit.ofEvents`: what the extents depend on.
- Definition `Visit.extent`: the extent of a node, given what is visited before and after it.
- Definition `Visit.Ascending`: located offsets never go back.
- Theorems `Visit.le_lastOffset` and `Visit.lastOffset_le`: the last located offset is the
  greatest one when offsets ascend.
- Theorem `Visit.closing_eq_closingEnd`: where a node closes, by the scan of the builder.
-/

namespace StyleAtlas

/-- The offset at which a node was seen. -/
def Payload.offset (s : Source) (payload : Payload) : Option Nat :=
  payload.location.map fun location => s.clamp location.position

/-- A payload without a label, seen at a line and column. -/
def Payload.seenAt (line column : Nat) : Payload :=
  ⟨"", none, some ⟨⟨line, column⟩, .engine⟩⟩

/-- A payload without a label, seen nowhere. -/
def Payload.unseen : Payload :=
  ⟨"", none, none⟩

/-- What a node is announced with, besides its place. -/
structure Tag where
  kind : Kind
  label : String
  detail : Option String
  origin : Origin

/-- The payload of a node seen at a position. -/
def Tag.payload (tag : Tag) (p : Position) : Payload :=
  ⟨tag.label, tag.detail, some ⟨p, tag.origin⟩⟩

/-- What bears on extents when a node is visited: its depth, and the offset at which it was seen,
if any. -/
structure Visit where
  depth : Nat
  offset : Option Nat
deriving DecidableEq, Repr

namespace Visit

/-- The visits that a stream of events makes when it starts at a depth. -/
def ofEvents (s : Source) : (depth : Nat) → List Event → List Visit
  | _, [] => []
  | depth, .enter _ payload :: events =>
      ⟨depth, payload.offset s⟩ :: ofEvents s (depth + 1) events
  | depth, .leaf _ payload :: events => ⟨depth, payload.offset s⟩ :: ofEvents s depth events
  | depth, .exit _ :: events => ofEvents s (depth - 1) events

/-- The offset of a located visit at a depth or above. -/
def within? (depth : Nat) (v : Visit) : Option Nat :=
  if v.depth ≤ depth then v.offset else none

/-- The offset of the last located visit at a depth or above; zero where there is none. -/
def lastOffset (visits : List Visit) (depth : Nat) : Nat :=
  (visits.filterMap (within? depth)).getLast?.getD 0

/-- The offset and the depth of the first located visit at a depth or above. -/
def next? (later : List Visit) (depth : Nat) : Option (Nat × Nat) :=
  later.findSome? fun v => (v.within? depth).map fun offset => (offset, v.depth)

/-- Where a node at a depth closes when these visits come after it: a step back for every level
between it and the next located visit at its depth or above, or the end of the text. -/
def closing (s : Source) (later : List Visit) (depth : Nat) : Nat :=
  match next? later depth with
  | some next => (Text.stepBack s.chars)^[depth - next.2] next.1
  | none => (Text.stepBack s.chars)^[depth] s.size

/-- The extent of a visited node, which never ends before its start. -/
def extent (s : Source) (before : List Visit) (v : Visit) (later : List Visit) : Extent :=
  let start := lastOffset (before ++ [v]) v.depth
  ⟨start, max start (closing s later v.depth)⟩

/-- Located offsets never go back. -/
def Ascending (visits : List Visit) : Prop :=
  (visits.filterMap Visit.offset).Pairwise (· ≤ ·)

instance (visits : List Visit) : Decidable (Ascending visits) :=
  inferInstanceAs (Decidable ((visits.filterMap Visit.offset).Pairwise (· ≤ ·)))

/-! ## Splitting the visits at a node -/

/-- Every number of a visit splits the list there. -/
theorem exists_split {visits : List Visit} {id : Nat} (h : id < visits.length) :
    ∃ before v later, visits = before ++ v :: later ∧ before.length = id :=
  ⟨visits.take id, visits[id], visits.drop (id + 1), by simp, by simp; omega⟩

/-- A split of a longer list is at the new visit, or a split of the list before. -/
theorem split_concat {visits before later : List Visit} {v w : Visit}
    (h : visits ++ [w] = before ++ v :: later) :
    (visits = before ∧ w = v ∧ later = []) ∨
      ∃ rest, later = rest ++ [w] ∧ visits = before ++ v :: rest := by
  rcases List.eq_nil_or_concat later with rfl | ⟨rest, u, rfl⟩
  · obtain ⟨hvisits, hw⟩ := List.append_inj' h rfl
    exact Or.inl ⟨hvisits, by simpa using hw, rfl⟩
  · have hsplit : visits ++ [w] = (before ++ v :: rest) ++ [u] := by simpa using h
    obtain ⟨hvisits, hw⟩ := List.append_inj' hsplit rfl
    exact Or.inr ⟨rest, by simpa using hw.symm, hvisits⟩

/-! ## Ascending offsets -/

/-- The first of some ascending visits ascend. -/
theorem Ascending.left {visits later : List Visit} (h : Ascending (visits ++ later)) :
    Ascending visits := by
  rw [Ascending, List.filterMap_append, List.pairwise_append] at h
  exact h.1

/-- What was located before an offset lies at or before it. -/
theorem Ascending.le_of_mem {visits later : List Visit} (h : Ascending (visits ++ later))
    {v w : Visit} {x y : Nat} (hv : v ∈ visits) (hx : v.offset = some x) (hw : w ∈ later)
    (hy : w.offset = some y) : x ≤ y := by
  rw [Ascending, List.filterMap_append, List.pairwise_append] at h
  exact h.2.2 x (List.mem_filterMap.mpr ⟨v, hv, hx⟩) y (List.mem_filterMap.mpr ⟨w, hw, hy⟩)

/-- A located visit at a depth or above lies there, at its offset. -/
theorem offset_of_within? {depth offset : Nat} {v : Visit} (h : v.within? depth = some offset) :
    v.depth ≤ depth ∧ v.offset = some offset := by
  unfold within? at h
  split at h
  · rename_i hdepth
    exact ⟨hdepth, h⟩
  · simp at h

/-- A visit that counts at a depth counts further down. -/
theorem within?_mono {depth depth' offset : Nat} {v : Visit} (hle : depth ≤ depth')
    (h : v.within? depth = some offset) : v.within? depth' = some offset := by
  obtain ⟨hdepth, hoffset⟩ := offset_of_within? h
  simp [within?, hdepth.trans hle, hoffset]

/-- A visit that is not located at a depth or above is not located at one further up. -/
theorem within?_eq_none_of_le {depth depth' : Nat} {v : Visit} (hle : depth ≤ depth')
    (h : v.within? depth' = none) : v.within? depth = none := by
  cases hwithin : v.within? depth with
  | none => rfl
  | some offset =>
      rw [within?_mono hle hwithin] at h
      simp at h

/-! ## The last located offset -/

/-- Visits that are not located, or lie deeper, do not count. -/
theorem lastOffset_append {visits later : List Visit} {depth : Nat}
    (h : ∀ v ∈ later, v.within? depth = none) :
    lastOffset (visits ++ later) depth = lastOffset visits depth := by
  have hlater : later.filterMap (within? depth) = [] := by
    simpa using h
  rw [lastOffset, List.filterMap_append, hlater, List.append_nil, lastOffset]

/-- There is nothing to find where no visit counts. -/
theorem lastOffset_eq_zero {visits : List Visit} {depth : Nat}
    (h : ∀ v ∈ visits, v.within? depth = none) : lastOffset visits depth = 0 := by
  rw [← List.nil_append visits, lastOffset_append h]
  rfl

/-- The last located visit gives the last offset. -/
theorem lastOffset_concat {visits : List Visit} {v : Visit} {depth offset : Nat}
    (h : v.within? depth = some offset) : lastOffset (visits ++ [v]) depth = offset := by
  simp [lastOffset, h]

/-- The last located offset is zero or the offset of a visit that counts. -/
theorem lastOffset_cases (visits : List Visit) (depth : Nat) :
    ((∀ v ∈ visits, v.within? depth = none) ∧ lastOffset visits depth = 0) ∨
      ∃ before v later, visits = before ++ v :: later ∧
        v.within? depth = some (lastOffset visits depth) ∧
        ∀ w ∈ later, w.within? depth = none := by
  induction visits using List.reverseRecOn with
  | nil => exact Or.inl ⟨by simp, rfl⟩
  | append_singleton visits w ih =>
      cases hw : w.within? depth with
      | some offset =>
          refine Or.inr ⟨visits, w, [], rfl, ?_, by simp⟩
          rw [lastOffset_concat hw, hw]
      | none =>
          have hsame : lastOffset (visits ++ [w]) depth = lastOffset visits depth :=
            lastOffset_append (by simpa using hw)
          rw [hsame]
          rcases ih with ⟨hnone, hzero⟩ | ⟨before, v, later, rfl, hv, hlater⟩
          · refine Or.inl ⟨?_, hzero⟩
            intro v hv
            rcases List.mem_append.mp hv with hv | hv
            · exact hnone v hv
            · rw [List.mem_singleton.mp hv, hw]
          · refine Or.inr ⟨before, v, later ++ [w], by simp, hv, ?_⟩
            intro u hu
            rcases List.mem_append.mp hu with hu | hu
            · exact hlater u hu
            · rw [List.mem_singleton.mp hu, hw]

/-- Bounds of the located offsets bound the last one. -/
theorem lastOffset_le {visits : List Visit} {depth bound : Nat}
    (h : ∀ v ∈ visits, ∀ x, v.offset = some x → x ≤ bound) : lastOffset visits depth ≤ bound := by
  rcases lastOffset_cases visits depth with ⟨-, hzero⟩ | ⟨before, v, later, hsplit, hv, -⟩
  · omega
  · exact h v (by simp [hsplit]) _ (offset_of_within? hv).2

/-- When offsets ascend, the last one that counts is the greatest. -/
theorem le_lastOffset {visits : List Visit} (hasc : Ascending visits) {v : Visit}
    (hv : v ∈ visits) {depth offset : Nat} (h : v.within? depth = some offset) :
    offset ≤ lastOffset visits depth := by
  induction visits using List.reverseRecOn with
  | nil => simp at hv
  | append_singleton visits w ih =>
      cases hw : w.within? depth with
      | some offset' =>
          rw [lastOffset_concat hw]
          rcases List.mem_append.mp hv with hv | hv
          · exact hasc.le_of_mem hv (offset_of_within? h).2 (by simp) (offset_of_within? hw).2
          · rw [List.mem_singleton.mp hv, hw] at h
            exact (Option.some.inj h).ge
      | none =>
          rw [lastOffset_append (by simpa using hw)]
          rcases List.mem_append.mp hv with hv | hv
          · exact ih hasc.left hv
          · rw [List.mem_singleton.mp hv, hw] at h
            simp at h

/-- The last located offset grows with the visits and with the depth. -/
theorem lastOffset_mono {visits later : List Visit} (hasc : Ascending (visits ++ later))
    {depth depth' : Nat} (hle : depth ≤ depth') :
    lastOffset visits depth ≤ lastOffset (visits ++ later) depth' := by
  rcases lastOffset_cases visits depth with ⟨-, hzero⟩ | ⟨before, v, rest, hsplit, hv, -⟩
  · omega
  · exact le_lastOffset hasc (by simp [hsplit]) (within?_mono hle hv)

/-! ## The next located visit -/

/-- There is no next visit only where none is located at the depth or above. -/
theorem next?_eq_none_iff {later : List Visit} {depth : Nat} :
    next? later depth = none ↔ ∀ v ∈ later, v.within? depth = none := by
  simp [next?, List.findSome?_eq_none_iff]

/-- The next visit is one of the first ones, or else of the others. -/
theorem next?_append (later rest : List Visit) (depth : Nat) :
    next? (later ++ rest) depth = (next? later depth).or (next? rest depth) := by
  simp [next?, List.findSome?_append]

/-- The next located visit, with what comes before and after it. -/
theorem next?_eq_some {later : List Visit} {depth : Nat} {next : Nat × Nat}
    (h : next? later depth = some next) :
    ∃ before v rest, later = before ++ v :: rest ∧ (∀ w ∈ before, w.within? depth = none) ∧
      v.within? depth = some next.1 ∧ v.depth = next.2 := by
  obtain ⟨before, v, rest, hsplit, hv, hbefore⟩ := List.findSome?_eq_some_iff.mp h
  obtain ⟨offset, hoffset, rfl⟩ := Option.map_eq_some_iff.mp hv
  refine ⟨before, v, rest, hsplit, ?_, hoffset, rfl⟩
  intro w hw
  simpa using hbefore w hw

/-- Where a node closes, by the scan of the builder. -/
theorem closing_eq_closingEnd (s : Source) (later : List Visit) (depth : Nat) :
    closing s later depth =
      match next? later depth with
      | some next => Text.closingEnd s.chars next.1 (depth - next.2)
      | none => Text.closingEnd s.chars s.size depth := by
  unfold closing
  cases next? later depth <;> simp only [Text.closingEnd_eq_iterate]

end Visit
end StyleAtlas
