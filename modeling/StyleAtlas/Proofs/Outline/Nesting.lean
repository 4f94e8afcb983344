import StyleAtlas.Proofs.Outline.Backfill

/-!
# When extents nest

The walk back takes one visible character away for every level that closes, whether or not a
delimiter stands there.  So a container may be given an end before the start of one of its
children, and the extents of an outline need not nest.  This module says exactly when they do:
every child starts where its parent starts, or enough visible characters end between its start and
the place where the branch of the parent closes.

Main results:

- Definition `Visit.extentAt`: extents in closed form, by the number of the visit.
- Theorems `Visit.extentAt_eq_of_quiet` and `Visit.stop_le_start_of_not_quiet`: nodes of one depth
  share their extent, or lie apart.
- Definition `Visit.HasRoom`: the text has room to close a parent behind the start of a child.
- Definition `Outline.WellNested`, Theorem `Outline.wellNested_iff_hasRoom`: extents nest exactly
  when every parent has room for its children.
-/

namespace StyleAtlas

/-! ## How extents lie -/

namespace Extent

/-- An extent covers what starts no earlier and ends no later. -/
theorem covers_iff {x y : Extent} : x.covers y = true ↔ x.start ≤ y.start ∧ y.stop ≤ x.stop := by
  simp [covers]

theorem covers_refl (x : Extent) : x.covers x = true := by
  simp [covers]

/-- What is covered by a part is covered by the whole. -/
theorem covers_trans {x y z : Extent} (hxy : x.covers y = true) (hyz : y.covers z = true) :
    x.covers z = true := by
  rw [covers_iff] at *
  omega

/-- Partial overlap goes both ways. -/
theorem partiallyOverlaps_comm (x y : Extent) :
    x.partiallyOverlaps y = y.partiallyOverlaps x := by
  unfold partiallyOverlaps apart
  rw [Bool.or_comm, Bool.and_assoc, Bool.and_assoc, Bool.and_comm (!x.covers y)]

/-- Where one extent covers the other, the overlap is not partial. -/
theorem partiallyOverlaps_of_covers {x y : Extent} (h : x.covers y = true) :
    x.partiallyOverlaps y = false := by
  simp [partiallyOverlaps, h]

/-- Extents one behind the other do not overlap. -/
theorem partiallyOverlaps_of_le {x y : Extent} (h : x.stop ≤ y.start) :
    x.partiallyOverlaps y = false := by
  simp [partiallyOverlaps, apart, h]

end Extent

namespace Visit

/-! ## Extents by number -/

/-- The depth of a visit, by its number. -/
def depthAt (visits : List Visit) (id : Nat) : Nat :=
  match visits[id]? with
  | some v => v.depth
  | none => 0

/-- The extent of a visit, by its number. -/
def extentAt (s : Source) (visits : List Visit) (id : Nat) : Extent :=
  match visits[id]? with
  | some v => extent s (visits.take id) v (visits.drop (id + 1))
  | none => ⟨0, 0⟩

/-- No located visit at a depth or above comes after one number up to another. -/
def Quiet (visits : List Visit) (depth first last : Nat) : Prop :=
  ∀ id v, first < id → id ≤ last → visits[id]? = some v → v.within? depth = none

section Split

variable {s : Source} {visits before mid later : List Visit} {v w : Visit}

/-- The depth of a visit in front of others. -/
theorem depthAt_split (h : visits = before ++ v :: later) :
    depthAt visits before.length = v.depth := by
  simp [depthAt, h]

/-- The extent of a visit in front of others. -/
theorem extentAt_split (h : visits = before ++ v :: later) :
    extentAt s visits before.length = extent s before v later := by
  simp [extentAt, h]

/-- Two numbers split the visits in two places. -/
theorem exists_split_two {i j : Nat} (hij : i < j) (hj : j < visits.length) :
    ∃ before v mid w later, visits = before ++ v :: (mid ++ w :: later) ∧ before.length = i ∧
      (before ++ v :: mid).length = j := by
  obtain ⟨before, v, rest, hsplit, hbefore⟩ := exists_split (Nat.lt_trans hij hj)
  have hlength : visits.length = before.length + (rest.length + 1) := by simp [hsplit]
  obtain ⟨mid, w, later, hrest, hmid⟩ :=
    exists_split (show j - (i + 1) < rest.length by omega)
  refine ⟨before, v, mid, w, later, by rw [hsplit, hrest], hbefore, ?_⟩
  simp
  omega

/-- What stands between two splits stands between their numbers. -/
theorem quiet_split_iff (h : visits = before ++ v :: (mid ++ w :: later)) {depth : Nat} :
    Quiet visits depth before.length (before ++ v :: mid).length ↔
      ∀ u ∈ mid ++ [w], u.within? depth = none := by
  have hvisits : visits = (before ++ [v]) ++ ((mid ++ [w]) ++ later) := by simp [h]
  constructor
  · intro hquiet u hu
    obtain ⟨k, hk, rfl⟩ := List.mem_iff_getElem.mp hu
    refine hquiet (before.length + 1 + k) _ (by omega) ?_ ?_
    · simp at hk ⊢
      omega
    · rw [hvisits, List.getElem?_append_right (by simp),
        List.getElem?_append_left (by simpa using hk)]
      simp [List.getElem?_eq_getElem hk]
  · intro hall id u hfirst hlast hu
    refine hall u ?_
    have hk : id - (before.length + 1) < (mid ++ [w]).length := by
      simp at hlast ⊢
      omega
    rw [hvisits, List.getElem?_append_right (by simp; omega),
      List.getElem?_append_left (by simpa using hk)] at hu
    exact List.mem_of_getElem? hu

end Split

/-! ## Nodes of one depth -/

section Siblings

variable {s : Source} {visits : List Visit} {i j : Nat}

/-- A node starts no earlier than those before it at its depth or above. -/
theorem start_le_start (hasc : Ascending visits) (hij : i < j) (hj : j < visits.length)
    (hdepth : depthAt visits i ≤ depthAt visits j) :
    (extentAt s visits i).start ≤ (extentAt s visits j).start := by
  obtain ⟨before, v, mid, w, later, hsplit, rfl, rfl⟩ := exists_split_two hij hj
  have hw : visits = (before ++ v :: mid) ++ w :: later := by simpa using hsplit
  rw [depthAt_split hsplit, depthAt_split hw] at hdepth
  rw [extentAt_split hsplit, extentAt_split hw]
  have hupto : before ++ v :: mid ++ [w] = (before ++ [v]) ++ (mid ++ [w]) := by simp
  rw [extent, extent, hupto]
  refine lastOffset_mono ?_ hdepth
  have hall : visits = ((before ++ [v]) ++ (mid ++ [w])) ++ later := by simp [hsplit]
  rw [hall] at hasc
  exact hasc.left

/-- Nodes of one depth with no located visit between them share their extent. -/
theorem extentAt_eq_of_quiet (hij : i < j) (hj : j < visits.length)
    (hdepth : depthAt visits i = depthAt visits j)
    (hquiet : Quiet visits (depthAt visits i) i j) :
    extentAt s visits i = extentAt s visits j := by
  obtain ⟨before, v, mid, w, later, hsplit, rfl, rfl⟩ := exists_split_two hij hj
  have hw : visits = (before ++ v :: mid) ++ w :: later := by simpa using hsplit
  rw [depthAt_split hsplit] at hdepth hquiet
  rw [depthAt_split hw] at hdepth
  rw [quiet_split_iff hsplit] at hquiet
  have hnext : next? (mid ++ w :: later) v.depth = next? later v.depth := by
    rw [List.append_cons, next?_append, next?_eq_none_iff.mpr hquiet, Option.none_or]
  have hstart : lastOffset (before ++ v :: mid ++ [w]) v.depth =
      lastOffset (before ++ [v]) v.depth := by
    have hupto : before ++ v :: mid ++ [w] = (before ++ [v]) ++ (mid ++ [w]) := by simp
    rw [hupto, lastOffset_append hquiet]
  rw [extentAt_split hsplit, extentAt_split hw, extent, extent, ← hdepth, hstart, closing, closing,
    hnext]

/-- Nodes of one depth with a located visit between them lie apart. -/
theorem stop_le_start_of_not_quiet (hasc : Ascending visits) (hij : i < j)
    (hj : j < visits.length) (hdepth : depthAt visits i = depthAt visits j)
    (hloud : ¬Quiet visits (depthAt visits i) i j) :
    (extentAt s visits i).stop ≤ (extentAt s visits j).start := by
  have hstart := start_le_start (s := s) hasc hij hj hdepth.le
  obtain ⟨before, v, mid, w, later, hsplit, rfl, rfl⟩ := exists_split_two hij hj
  have hw : visits = (before ++ v :: mid) ++ w :: later := by simpa using hsplit
  rw [depthAt_split hsplit] at hdepth hloud
  rw [depthAt_split hw] at hdepth
  rw [quiet_split_iff hsplit] at hloud
  rw [extentAt_split hsplit, extentAt_split hw] at *
  -- The next located visit is among those between the two, so it starts at or before the second.
  have hsome : next? (mid ++ [w]) v.depth ≠ none := by
    rwa [Ne, next?_eq_none_iff]
  obtain ⟨next, hnext⟩ := Option.ne_none_iff_exists'.mp hsome
  obtain ⟨first, u, rest, hu, -, hwithin, -⟩ := next?_eq_some hnext
  have hclosing : closing s (mid ++ w :: later) v.depth ≤ next.1 := by
    rw [closing, List.append_cons, next?_append, hnext]
    exact Text.iterate_stepBack_le _ _ _
  have hoffset : next.1 ≤ lastOffset (before ++ v :: mid ++ [w]) w.depth := by
    have hupto : before ++ v :: mid ++ [w] = (before ++ [v]) ++ (mid ++ [w]) := by simp
    have hall : visits = (before ++ v :: mid ++ [w]) ++ later := by simp [hsplit]
    rw [hall] at hasc
    rw [hdepth] at hwithin
    refine le_lastOffset hasc.left ?_ hwithin
    rw [hupto, hu]
    simp
  simp only [extent] at hstart ⊢
  omega

end Siblings

/-! ## Parents and children -/

section Children

variable {s : Source} {visits : List Visit}

/-- A level further in closes no later, or right at a located visit of that level. -/
theorem closing_succ (s : Source) (later : List Visit) (depth : Nat) :
    closing s later (depth + 1) ≤ closing s later depth ∨
      ∃ first v rest, later = first ++ v :: rest ∧
        (∀ u ∈ first, u.within? (depth + 1) = none) ∧ v.depth = depth + 1 ∧
        v.within? (depth + 1) = some (closing s later (depth + 1)) := by
  cases hnext : next? later (depth + 1) with
  | none =>
      left
      have hnone : next? later depth = none := by
        rw [next?_eq_none_iff] at hnext ⊢
        exact fun v hv => within?_eq_none_of_le (Nat.le_succ depth) (hnext v hv)
      rw [closing, closing, hnext, hnone]
      dsimp only
      rw [Function.iterate_succ_apply']
      exact Text.stepBack_le _ _
  | some next =>
      obtain ⟨first, v, rest, hlater, hfirst, hv, hdepth⟩ := next?_eq_some hnext
      obtain ⟨hle, hoffset⟩ := offset_of_within? hv
      by_cases hdeep : v.depth = depth + 1
      · right
        refine ⟨first, v, rest, hlater, hfirst, hdeep, ?_⟩
        rw [closing, hnext, hv]
        simp [← hdepth, hdeep]
      · left
        -- The visit that closes the inner level closes the outer one too, a step less back.
        have hsame : next? later depth = some next := by
          have hv' : v.within? depth = some next.1 := by
            rw [← hoffset]
            exact if_pos (by omega)
          have hfirst' : next? first depth = none := by
            rw [next?_eq_none_iff]
            exact fun u hu => within?_eq_none_of_le (Nat.le_succ depth) (hfirst u hu)
          rw [hlater, next?_append, hfirst', Option.none_or]
          simp [next?, hv', hdepth]
        have hlevels : depth + 1 - next.2 = (depth - next.2) + 1 := by omega
        rw [closing, closing, hnext, hsame]
        dsimp only
        rw [hlevels, Function.iterate_succ_apply']
        exact Text.stepBack_le _ _

/-- Depths by number are the depths of the visits in between. -/
theorem depth_lt_of_mem {before mid later : List Visit} {v : Visit} {depth : Nat}
    (h : visits = before ++ v :: (mid ++ later))
    (hbetween : ∀ id, before.length < id → id < (before ++ v :: mid).length →
      depth < depthAt visits id) : ∀ u ∈ mid, depth < u.depth := by
  intro u hu
  obtain ⟨front, back, rfl⟩ := List.append_of_mem hu
  have hsplit : visits = (before ++ v :: front) ++ u :: (back ++ later) := by simp [h]
  rw [← depthAt_split hsplit]
  apply hbetween
  · simp
  · simp

/-- A child ends no later than its parent or its own start, or right at the start of a later node
of its depth, up to which no located visit closes the parent. -/
theorem stop_le_of_child {i j : Nat} (hasc : Ascending visits) (hij : i < j)
    (hj : j < visits.length) (hchild : depthAt visits j = depthAt visits i + 1)
    (hbetween : ∀ id, i < id → id < j → depthAt visits i < depthAt visits id) :
    (extentAt s visits j).stop ≤ max (extentAt s visits j).start (extentAt s visits i).stop ∨
      ∃ k, j < k ∧ k < visits.length ∧ depthAt visits k = depthAt visits j ∧
        (extentAt s visits j).stop ≤ (extentAt s visits k).start ∧
        Quiet visits (depthAt visits i) i k := by
  obtain ⟨before, v, mid, w, later, hsplit, rfl, rfl⟩ := exists_split_two hij hj
  have hw : visits = (before ++ v :: mid) ++ w :: later := by simpa using hsplit
  rw [depthAt_split hsplit] at hchild hbetween ⊢
  rw [depthAt_split hw] at hchild ⊢
  have hmid : ∀ u ∈ mid ++ [w], u.within? v.depth = none := by
    intro u hu
    have hdeep : v.depth < u.depth := by
      rcases List.mem_append.mp hu with hu | hu
      · exact depth_lt_of_mem hsplit hbetween u hu
      · rw [List.mem_singleton.mp hu]
        omega
    exact if_neg (Nat.not_le.mpr hdeep)
  rcases closing_succ s later v.depth with hle | ⟨first, y, rest, hlater, hfirst, hdepth, hy⟩
  · left
    have hparent : closing s (mid ++ w :: later) v.depth = closing s later v.depth := by
      rw [closing, closing, List.append_cons, next?_append, next?_eq_none_iff.mpr hmid,
        Option.none_or]
    rw [extentAt_split hsplit, extentAt_split hw]
    simp only [extent, hparent, hchild]
    omega
  · right
    have hk : visits = (before ++ v :: (mid ++ w :: first)) ++ y :: rest := by
      simp [hsplit, hlater]
    have hjk : (before ++ v :: mid).length < (before ++ v :: (mid ++ w :: first)).length := by
      simp
    have hkl : (before ++ v :: (mid ++ w :: first)).length < visits.length := by
      rw [hk]
      simp
    refine ⟨(before ++ v :: (mid ++ w :: first)).length, hjk, hkl, ?_, ?_, ?_⟩
    · rw [depthAt_split hk, hdepth, hchild]
    · have hsame : w.depth = y.depth := by rw [hchild, hdepth]
      have hstart := start_le_start (s := s) hasc hjk hkl (by
        rw [depthAt_split hw, depthAt_split hk, hsame])
      rw [← hdepth] at hy
      rw [extentAt_split hw, extentAt_split hk] at hstart ⊢
      simp only [extent, hsame, lastOffset_concat hy] at hstart ⊢
      omega
    · have hquiet : visits = before ++ v :: ((mid ++ w :: first) ++ y :: rest) := by
        simpa using hk
      rw [quiet_split_iff hquiet]
      intro u hu
      have hu' : u ∈ mid ++ [w] ∨ u ∈ first ∨ u = y := by
        simp only [List.mem_append, List.mem_cons, List.not_mem_nil] at hu ⊢
        tauto
      rcases hu' with hu | hu | rfl
      · exact hmid u hu
      · exact within?_eq_none_of_le (Nat.le_succ v.depth) (hfirst u hu)
      · exact if_neg (by omega)

end Children

/-! ## Nesting from starts -/

section Nesting

variable {s : Source} {visits : List Visit} {nodes : Forest}

/-- Nodes with the depths of the visits, of which all below the roots are enclosed. -/
structure Carries (nodes : Forest) (visits : List Visit) : Prop where
  depth : ∀ id, nodes.depthOf id = depthAt visits id
  exists_encloses : ∀ id, id < visits.length → nodes.depthOf id ≠ 0 →
    ∃ outer, nodes.Encloses outer id

/-- Every node starts at or before the end of the node around it. -/
def StartsInside (s : Source) (visits : List Visit) (nodes : Forest) : Prop :=
  ∀ outer inner, inner < visits.length → nodes.Encloses outer inner →
    (extentAt s visits inner).start ≤ (extentAt s visits outer).stop

/-- When starts lie inside, so do the whole extents. -/
theorem StartsInside.covers (h : StartsInside s visits nodes) (hasc : Ascending visits)
    (hnodes : Carries nodes visits) {outer inner : Nat} (hinner : inner < visits.length)
    (hencloses : nodes.Encloses outer inner) :
    (extentAt s visits outer).covers (extentAt s visits inner) = true := by
  have hchild := hencloses.depth_eq
  have hbetween := hencloses.between
  simp only [hnodes.depth] at hchild hbetween
  rw [Extent.covers_iff]
  refine ⟨start_le_start hasc hencloses.lt hinner (by omega), ?_⟩
  rcases stop_le_of_child (s := s) hasc hencloses.lt hinner hchild hbetween with
    hle | ⟨k, hinnerk, hk, hdepth, hstop, hquiet⟩
  · have hstart := h outer inner hinner hencloses
    omega
  · -- The child ends where a later node starts, and the node around that one shares the extent of
    -- the parent.
    refine hstop.trans ?_
    obtain ⟨other, hother⟩ := hnodes.exists_encloses k hk (by rw [hnodes.depth]; omega)
    have hstart := h other k hk hother
    have hotherDepth := hother.depth_eq
    simp only [hnodes.depth] at hotherDepth
    rcases Nat.lt_trichotomy outer other with hlt | rfl | hgt
    · have hsame : extentAt s visits outer = extentAt s visits other := by
        apply extentAt_eq_of_quiet hlt (hother.lt.trans hk) (by omega)
        exact fun id v hfirst hlast => hquiet id v hfirst (hlast.trans hother.lt.le)
      rwa [hsame]
    · exact hstart
    · have hdeep := hother.between outer hgt (hencloses.lt.trans hinnerk)
      simp only [hnodes.depth] at hdeep
      omega

/-- Above every node there is one at each smaller depth, and it covers the node. -/
theorem StartsInside.exists_ancestor (h : StartsInside s visits nodes) (hasc : Ascending visits)
    (hnodes : Carries nodes visits) {id depth : Nat} (hid : id < visits.length)
    (hdepth : depth ≤ depthAt visits id) :
    ∃ above, above ≤ id ∧ depthAt visits above = depth ∧
      (∀ other, above < other → other ≤ id → depth < depthAt visits other) ∧
      (extentAt s visits above).covers (extentAt s visits id) = true := by
  induction id using Nat.strong_induction_on with
  | h id ih =>
      by_cases heq : depthAt visits id = depth
      · exact ⟨id, le_rfl, heq, fun other hlt hle => by omega, Extent.covers_refl _⟩
      · obtain ⟨outer, houter⟩ := hnodes.exists_encloses id hid (by rw [hnodes.depth]; omega)
        have hchild := houter.depth_eq
        have hbetween := houter.between
        simp only [hnodes.depth] at hchild hbetween
        obtain ⟨above, hle, habove, hdeep, hcovers⟩ :=
          ih outer houter.lt (houter.lt.trans hid) (by omega)
        refine ⟨above, hle.trans houter.lt.le, habove, ?_, ?_⟩
        · intro other hlt hother
          rcases Nat.lt_trichotomy other outer with hbefore | rfl | hafter
          · exact hdeep other hlt hbefore.le
          · exact hdeep other hlt le_rfl
          · rcases Nat.lt_or_ge other id with hinside | hlast
            · have := hbetween other hafter hinside
              omega
            · have : other = id := by omega
              subst this
              omega
        · exact Extent.covers_trans hcovers (h.covers hasc hnodes hid houter)

/-- When starts lie inside, no two extents overlap partially. -/
theorem StartsInside.not_partiallyOverlaps (h : StartsInside s visits nodes)
    (hasc : Ascending visits) (hnodes : Carries nodes visits) {i j : Nat} (hij : i < j)
    (hj : j < visits.length) :
    (extentAt s visits i).partiallyOverlaps (extentAt s visits j) = false := by
  -- Compare the nodes around the two at the smaller of their depths; one of them is not above.
  obtain ⟨a, hai, hadepth, hadeep, hacovers⟩ := h.exists_ancestor hasc hnodes (hij.trans hj)
    (Nat.min_le_left (depthAt visits i) (depthAt visits j))
  obtain ⟨b, hbj, hbdepth, hbdeep, hbcovers⟩ := h.exists_ancestor hasc hnodes hj
    (Nat.min_le_right (depthAt visits i) (depthAt visits j))
  have hself : a = i ∨ b = j := by
    rcases Nat.le_total (depthAt visits i) (depthAt visits j) with hle | hle
    · left
      by_contra hne
      have := hadeep i (by omega) le_rfl
      omega
    · right
      by_contra hne
      have := hbdeep j (by omega) le_rfl
      omega
  have hab : a ≤ b := by
    by_contra hlt
    have := hbdeep a (by omega) (by omega)
    omega
  rcases hab.lt_or_eq with hlt | rfl
  · by_cases hquiet : Quiet visits (depthAt visits a) a b
    · have hsame := extentAt_eq_of_quiet (s := s) hlt (by omega) (by omega) hquiet
      rcases hself with rfl | rfl
      · rw [← hsame] at hbcovers
        exact Extent.partiallyOverlaps_of_covers hbcovers
      · rw [hsame] at hacovers
        rw [Extent.partiallyOverlaps_comm]
        exact Extent.partiallyOverlaps_of_covers hacovers
    · have hapart := stop_le_start_of_not_quiet (s := s) hasc hlt (by omega) (by omega) hquiet
      rw [Extent.covers_iff] at hacovers hbcovers
      exact Extent.partiallyOverlaps_of_le (by omega)
  · rcases hself with rfl | rfl
    · exact Extent.partiallyOverlaps_of_covers hbcovers
    · omega

end Nesting

/-! ## Room in the text -/

section Room

variable {s : Source} {visits : List Visit}

/-- Where the branch of a node at a depth closes when these visits come after it, and the number
of levels that close there further out. -/
def closingPoint (s : Source) (later : List Visit) (depth : Nat) : Nat × Nat :=
  match next? later depth with
  | some next => (next.1, depth - next.2)
  | none => (s.size, depth)

/-- A node closes as many steps back from the end of its branch as levels close further out. -/
theorem closing_eq_iterate (s : Source) (later : List Visit) (depth : Nat) :
    closing s later depth =
      (Text.stepBack s.chars)^[(closingPoint s later depth).2] (closingPoint s later depth).1 := by
  unfold closing closingPoint
  cases next? later depth <;> rfl

/-- Where the branch of a visit closes, by its number. -/
def closingPointAt (s : Source) (visits : List Visit) (id : Nat) : Nat × Nat :=
  closingPoint s (visits.drop (id + 1)) (depthAt visits id)

/-- The text has room to close a node behind the start of a node inside it: the inner node starts
where the outer one does, or no level closes further out, or more visible characters end between
the start of the inner node and the place where the branch closes than levels close there. -/
def HasRoom (s : Source) (visits : List Visit) (outer inner : Nat) : Prop :=
  (extentAt s visits inner).start = (extentAt s visits outer).start ∨
    (closingPointAt s visits outer).2 = 0 ∨
    (closingPointAt s visits outer).2 <
      Text.visibleBetween s.chars (extentAt s visits inner).start (closingPointAt s visits outer).1

instance (s : Source) (visits : List Visit) (outer inner : Nat) :
    Decidable (HasRoom s visits outer inner) :=
  inferInstanceAs (Decidable (_ ∨ _ ∨ _))

/-- A node starts at or before the place where the branch around it closes. -/
theorem start_le_closingPoint {nodes : Forest} (hasc : Ascending visits)
    (hsize : ∀ v ∈ visits, ∀ x, v.offset = some x → x ≤ s.size) (hnodes : Carries nodes visits)
    {outer inner : Nat} (hinner : inner < visits.length)
    (hencloses : nodes.Encloses outer inner) :
    (extentAt s visits inner).start ≤ (closingPointAt s visits outer).1 := by
  have hchild := hencloses.depth_eq
  have hbetween := hencloses.between
  simp only [hnodes.depth] at hchild hbetween
  obtain ⟨before, v, mid, w, later, hsplit, rfl, rfl⟩ := exists_split_two hencloses.lt hinner
  have hw : visits = (before ++ v :: mid) ++ w :: later := by simpa using hsplit
  have hall : visits = (before ++ v :: mid ++ [w]) ++ later := by simp [hsplit]
  have hdrop : visits.drop (before.length + 1) = mid ++ w :: later := by simp [hsplit]
  rw [depthAt_split hsplit] at hchild hbetween
  rw [depthAt_split hw] at hchild
  rw [extentAt_split hw, closingPointAt, depthAt_split hsplit, hdrop, closingPoint]
  cases hnext : next? (mid ++ w :: later) v.depth with
  | none =>
      apply lastOffset_le
      intro u hu
      exact hsize u (by rw [hall]; exact List.mem_append_left later hu)
  | some next =>
      -- Everything up to the inner node lies deeper than the outer one.
      have hmid : ∀ u ∈ mid ++ [w], u.within? v.depth = none := by
        intro u hu
        have hdeep : v.depth < u.depth := by
          rcases List.mem_append.mp hu with hu | hu
          · exact depth_lt_of_mem hsplit hbetween u hu
          · rw [List.mem_singleton.mp hu]
            omega
        exact if_neg (Nat.not_le.mpr hdeep)
      rw [List.append_cons, next?_append, next?_eq_none_iff.mpr hmid, Option.none_or] at hnext
      obtain ⟨first, u, rest, hlater, -, hu, -⟩ := next?_eq_some hnext
      rw [hall] at hasc
      apply lastOffset_le
      intro t ht x hx
      exact hasc.le_of_mem ht hx (by simp [hlater]) (offset_of_within? hu).2

/-- A node starts at or before the end of the node around it exactly when the text has room. -/
theorem start_le_stop_iff {nodes : Forest} (hasc : Ascending visits)
    (hsize : ∀ v ∈ visits, ∀ x, v.offset = some x → x ≤ s.size) (hnodes : Carries nodes visits)
    {outer inner : Nat} (hinner : inner < visits.length)
    (hencloses : nodes.Encloses outer inner) :
    (extentAt s visits inner).start ≤ (extentAt s visits outer).stop ↔
      HasRoom s visits outer inner := by
  have hpoint := start_le_closingPoint hasc hsize hnodes hinner hencloses
  have hdepth := hencloses.depth_eq
  simp only [hnodes.depth] at hdepth
  have hstart := start_le_start (s := s) hasc hencloses.lt hinner (by omega)
  have hstop : (extentAt s visits outer).stop = max (extentAt s visits outer).start
      (closing s (visits.drop (outer + 1)) (depthAt visits outer)) := by
    obtain ⟨before, v, later, hsplit, rfl⟩ := exists_split (hencloses.lt.trans hinner)
    rw [extentAt_split hsplit, depthAt_split hsplit]
    simp [extent, hsplit]
  rw [hstop, closing_eq_iterate, HasRoom]
  change _ ≤ max _ ((Text.stepBack s.chars)^[(closingPointAt s visits outer).2]
    (closingPointAt s visits outer).1) ↔ _
  cases hlevels : (closingPointAt s visits outer).2 with
  | zero => exact iff_of_true (hpoint.trans (Nat.le_max_right _ _)) (Or.inr (Or.inl rfl))
  | succ levels =>
      rcases hstart.eq_or_lt with heq | hlt
      · exact iff_of_true (heq.symm.le.trans (Nat.le_max_left _ _)) (Or.inl heq.symm)
      · have hroom : (extentAt s visits inner).start ≤
            (Text.stepBack s.chars)^[levels + 1] (closingPointAt s visits outer).1 ↔
              levels + 1 < Text.visibleBetween s.chars (extentAt s visits inner).start
                (closingPointAt s visits outer).1 :=
          Text.le_iterate_stepBack_iff (Nat.zero_lt_of_lt hlt)
        rw [← hroom]
        omega

end Room

end Visit

/-! ## Well-nested outlines -/

namespace Outline

open Visit

/-- Parents cover their children, and no two extents overlap partially. -/
structure WellNested (o : Outline) : Prop where
  covers : ∀ inner outer, o.nodes.parentOf inner = some outer →
    ∃ x y, o.extentOf outer = some x ∧ o.extentOf inner = some y ∧ x.covers y = true
  noOverlap : ∀ i j x y, o.extentOf i = some x → o.extentOf j = some y →
    x.partiallyOverlaps y = false

variable {s : Source} {visits : List Visit} {o : Outline}

/-- The extent of a node is that of its visit. -/
theorem Traces.extentOf_eq (h : o.Traces s visits) {id : Nat} (hid : id < visits.length) :
    o.extentOf id = some (extentAt s visits id) := by
  obtain ⟨before, v, later, hsplit, rfl⟩ := exists_split hid
  rw [h.extent before v later hsplit, extentAt_split hsplit]

/-- The depth of a node is that of its visit. -/
theorem Traces.depthOf_eq (h : o.Traces s visits) (id : Nat) :
    o.nodes.depthOf id = depthAt visits id := by
  by_cases hid : id < visits.length
  · obtain ⟨before, v, later, hsplit, rfl⟩ := exists_split hid
    rw [h.depth before v later hsplit, depthAt_split hsplit]
  · have hnode : o.nodes.length ≤ id := by
      have := h.size
      unfold Outline.size at this
      omega
    rw [Forest.depthOf, depthAt, List.getElem?_eq_none hnode,
      List.getElem?_eq_none (Nat.le_of_not_lt hid)]

/-- The nodes of a finished outline carry its visits. -/
theorem Traces.carries {events : List Event} (h : o.Traces s visits)
    (ho : Outline.ofEvents s events = .ok o) : Carries o.nodes visits := by
  obtain ⟨b, hshaped, hnodes⟩ := exists_shaped_of_ofEvents ho
  refine ⟨h.depthOf_eq, ?_⟩
  intro id hid hdepth
  rw [hnodes] at hdepth ⊢
  refine hshaped.exists_encloses ?_ hdepth
  rw [← hnodes]
  exact Nat.lt_of_lt_of_eq hid h.size.symm

/-- Parents are exactly the enclosing nodes. -/
theorem parentOf_eq_some_iff {events : List Event} (ho : Outline.ofEvents s events = .ok o)
    {inner outer : Nat} (hinner : inner < o.size) :
    o.nodes.parentOf inner = some outer ↔ o.nodes.Encloses outer inner := by
  obtain ⟨b, hshaped, hnodes⟩ := exists_shaped_of_ofEvents ho
  unfold Outline.size at hinner
  rw [hnodes] at hinner ⊢
  exact hshaped.parentOf_eq_some_iff hinner

/-- An outline is well nested exactly when every node starts at or before the end of its
parent. -/
theorem Traces.wellNested_iff {events : List Event} (h : o.Traces s visits)
    (ho : Outline.ofEvents s events = .ok o) (hasc : Ascending visits) :
    o.WellNested ↔ StartsInside s visits o.nodes := by
  have hcarries := h.carries ho
  have hlength : o.nodes.length = visits.length := h.size
  constructor
  · intro hnested outer inner hinner hencloses
    have hparent := (parentOf_eq_some_iff ho (h.size.symm ▸ hinner)).mpr hencloses
    obtain ⟨x, y, hx, hy, hcovers⟩ := hnested.covers inner outer hparent
    rw [h.extentOf_eq (hencloses.lt.trans hinner), Option.some.injEq] at hx
    rw [h.extentOf_eq hinner, Option.some.injEq] at hy
    rw [hx, hy]
    rw [Extent.covers_iff] at hcovers
    have hordered : y.start ≤ y.stop := by
      obtain ⟨before, v, later, hsplit, rfl⟩ := exists_split hinner
      rw [← hy, extentAt_split hsplit]
      exact Nat.le_max_left _ _
    omega
  · intro hinside
    constructor
    · intro inner outer hparent
      have hinner : inner < visits.length := hlength ▸ Forest.lt_length_of_parentOf hparent
      have hencloses := (parentOf_eq_some_iff ho (h.size.symm ▸ hinner)).mp hparent
      exact ⟨_, _, h.extentOf_eq (hencloses.lt.trans hinner), h.extentOf_eq hinner,
        hinside.covers hasc hcarries hinner hencloses⟩
    · intro i j x y hx hy
      have hi := hlength ▸ lt_length_of_extentOf hx
      have hj := hlength ▸ lt_length_of_extentOf hy
      rw [h.extentOf_eq hi, Option.some.injEq] at hx
      rw [h.extentOf_eq hj, Option.some.injEq] at hy
      subst hx hy
      rcases Nat.lt_trichotomy i j with hlt | rfl | hgt
      · exact hinside.not_partiallyOverlaps hasc hcarries hlt hj
      · exact Extent.partiallyOverlaps_of_covers (Extent.covers_refl _)
      · rw [Extent.partiallyOverlaps_comm]
        exact hinside.not_partiallyOverlaps hasc hcarries hgt hi

/-- Extents nest exactly when the text has room for every child.  Whenever located offsets never
go back, all parents cover their children and no two extents overlap partially if and only if each
child starts where its parent starts, or no level closes around the parent, or more visible
characters end between the start of the child and the place where the branch of the parent closes
than levels close there. -/
theorem wellNested_iff_hasRoom {events : List Event} (h : Outline.ofEvents s events = .ok o)
    (hasc : Ascending (Visit.ofEvents s 0 events)) :
    o.WellNested ↔ ∀ inner outer, o.nodes.parentOf inner = some outer →
      HasRoom s (Visit.ofEvents s 0 events) outer inner := by
  have htraces := traces_of_ofEvents h hasc
  have hcarries := htraces.carries h
  have hsize : ∀ v ∈ Visit.ofEvents s 0 events, ∀ x, v.offset = some x → x ≤ s.size :=
    fun v hv x hx => offset_le_size hv hx
  rw [htraces.wellNested_iff h hasc]
  constructor
  · intro hinside inner outer hparent
    have hinner : inner < (Visit.ofEvents s 0 events).length :=
      htraces.size ▸ Forest.lt_length_of_parentOf hparent
    have hencloses := (parentOf_eq_some_iff h (htraces.size.symm ▸ hinner)).mp hparent
    rw [← start_le_stop_iff hasc hsize hcarries hinner hencloses]
    exact hinside outer inner hinner hencloses
  · intro hroom outer inner hinner hencloses
    rw [start_le_stop_iff hasc hsize hcarries hinner hencloses]
    exact hroom inner outer ((parentOf_eq_some_iff h (htraces.size.symm ▸ hinner)).mpr hencloses)

/-- Three nested containers and two leaves, in a text that ends before any of the containers is
closed. -/
def unclosedContainers : List Event :=
  [.enter .rule (.seenAt 0 0), .enter .rule (.seenAt 0 2), .enter .rule (.seenAt 0 4),
    .leaf .color (.seenAt 0 6), .leaf .color (.seenAt 0 8), .exit .rule, .exit .rule, .exit .rule]

/-- Without closing delimiters the innermost container ends before its last child starts. -/
theorem not_wellNested_unclosedContainers :
    ∃ o, Outline.ofEvents ⟨"a(b(c(d;e".toList⟩ unclosedContainers = .ok o ∧
      Ascending (Visit.ofEvents ⟨"a(b(c(d;e".toList⟩ 0 unclosedContainers) ∧
      o.extentOf 2 = some ⟨4, 7⟩ ∧ o.extentOf 3 = some ⟨6, 8⟩ ∧ ¬o.WellNested := by
  have hasc : Ascending (Visit.ofEvents ⟨"a(b(c(d;e".toList⟩ 0 unclosedContainers) := by decide
  refine ⟨_, rfl, hasc, rfl, rfl, ?_⟩
  rw [wellNested_iff_hasRoom rfl hasc]
  intro hroom
  exact absurd (hroom 4 2 rfl) (by decide)

end Outline
end StyleAtlas
