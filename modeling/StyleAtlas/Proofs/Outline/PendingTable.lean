import StyleAtlas.Proofs.Outline.Pending

/-!
# Pending nodes kept by depth

A builder that keeps its pending nodes in lists by depth.  To close branches it takes all lists from
a depth down out of the table, looks up the end of every node under the head of its branch, and puts
the nodes back that stay pending.  A node whose branch has no head in the table would have to be
given a fallback instead.  In no state that a stream of events can lead to is there such a node, so
the builder does what the plain one does whatever the fallback is, and also without any: then a
missing head would leave it without an answer.

Main results:

- Definition `DepthTable`, with `DepthTable.put`, `DepthTable.above`, `DepthTable.below`: the table.
- Definition `DepthBuilder`, with `DepthBuilder.resolvePending`, `DepthBuilder.feed`: the builder.
- Definition `DepthBuilder.Agrees`: the builder is in the state of a plain one.
- Theorem `DepthBuilder.Agrees.verdict?_eq`: every pending node finds the head of its branch.
- Theorem `DepthBuilder.Agrees.exists_resolvePending`: closing branches needs no fallback.
- Theorem `DepthBuilder.Agrees.exists_feedAll`: no event needs a fallback.
- Definition `DepthBuilder.Consistent`: what stands in the table.
- Theorem `DepthBuilder.pending_table_stays_consistent`: the table after every stream of events.
-/

namespace StyleAtlas

/-! ## Tables by depth -/

/-- Numbers in lists by depth, the depths in ascending order. -/
structure DepthTable where
  levels : List (Nat × List Nat)
  ascending : levels.Pairwise fun upper lower => upper.1 < lower.1

namespace DepthTable

/-- The list of a depth in some levels. -/
def levelIn : List (Nat × List Nat) → (depth : Nat) → List Nat
  | [], _ => []
  | (d, ids) :: rest, depth => if d = depth then ids else levelIn rest depth

/-- Some levels with a number behind the others of its depth. -/
def insertAt (depth id : Nat) : List (Nat × List Nat) → List (Nat × List Nat)
  | [] => [(depth, [id])]
  | (d, ids) :: rest =>
      if depth < d then (depth, [id]) :: (d, ids) :: rest
      else if depth = d then (d, ids ++ [id]) :: rest
      else (d, ids) :: insertAt depth id rest

/-- A number that is added below a depth leaves all levels below it. -/
theorem le_of_mem_insertAt {depth id bound : Nat} {levels : List (Nat × List Nat)}
    (hdepth : bound < depth) (hlevels : ∀ level ∈ levels, bound < level.1) :
    ∀ level ∈ insertAt depth id levels, bound < level.1 := by
  induction levels with
  | nil => simpa [insertAt] using hdepth
  | cons first rest ih =>
      rcases first with ⟨d, ids⟩
      rw [List.forall_mem_cons] at hlevels
      unfold insertAt
      split
      · simpa [hdepth] using hlevels
      · split
        · simpa using hlevels
        · exact List.forall_mem_cons.mpr ⟨hlevels.1, ih hlevels.2⟩

/-- A number that is added leaves the levels in order. -/
theorem pairwise_insertAt (depth id : Nat) {levels : List (Nat × List Nat)}
    (h : levels.Pairwise fun upper lower => upper.1 < lower.1) :
    (insertAt depth id levels).Pairwise fun upper lower => upper.1 < lower.1 := by
  induction levels with
  | nil => exact List.pairwise_singleton _ _
  | cons first rest ih =>
      rcases first with ⟨d, ids⟩
      rcases List.pairwise_cons.mp h with ⟨hfirst, hrest⟩
      unfold insertAt
      split
      · rename_i hlt
        refine List.pairwise_cons.mpr ⟨?_, h⟩
        intro level hlevel
        rcases List.mem_cons.mp hlevel with rfl | hlevel
        · exact hlt
        · exact Nat.lt_trans hlt (hfirst level hlevel)
      · split
        · exact List.pairwise_cons.mpr ⟨hfirst, hrest⟩
        · exact List.pairwise_cons.mpr ⟨le_of_mem_insertAt (by omega) hfirst, ih hrest⟩

/-- A table without entries. -/
def empty : DepthTable :=
  ⟨[], .nil⟩

/-- The list of a depth. -/
def level (t : DepthTable) (depth : Nat) : List Nat :=
  levelIn t.levels depth

/-- The table with a number behind the others of its depth. -/
def put (t : DepthTable) (depth id : Nat) : DepthTable :=
  ⟨insertAt depth id t.levels, pairwise_insertAt depth id t.ascending⟩

/-- The lists of the depths above a depth. -/
def above (t : DepthTable) (depth : Nat) : DepthTable :=
  ⟨t.levels.filter fun level => decide (level.1 < depth), t.ascending.filter _⟩

/-- The lists from a depth down. -/
def below (t : DepthTable) (depth : Nat) : DepthTable :=
  ⟨t.levels.filter fun level => decide (depth ≤ level.1), t.ascending.filter _⟩

/-- All numbers with their depths, level by level. -/
def entries (t : DepthTable) : List (Nat × Nat) :=
  t.levels.flatMap fun level => level.2.map fun id => (level.1, id)

/-- A depth without a level has an empty list. -/
theorem levelIn_eq_nil {levels : List (Nat × List Nat)} {depth : Nat}
    (h : ∀ level ∈ levels, level.1 ≠ depth) : levelIn levels depth = [] := by
  induction levels with
  | nil => rfl
  | cons first rest ih =>
      rw [List.forall_mem_cons] at h
      rw [levelIn, if_neg h.1, ih h.2]

/-- A number that is put into the table comes last in the list of its depth. -/
theorem level_put (t : DepthTable) (depth id d : Nat) :
    (t.put depth id).level d = t.level d ++ if d = depth then [id] else [] := by
  rcases t with ⟨levels, ascending⟩
  simp only [level, put]
  induction levels with
  | nil => simp [insertAt, levelIn, eq_comm]
  | cons first rest ih =>
      rcases first with ⟨e, ids⟩
      rcases List.pairwise_cons.mp ascending with ⟨hfirst, hrest⟩
      unfold insertAt
      split
      · rename_i hlt
        by_cases hd : d = depth
        · -- The levels behind lie deeper, so the depth has no list among them.
          have hnil : levelIn ((e, ids) :: rest) d = [] := by
            refine levelIn_eq_nil (List.forall_mem_cons.mpr ⟨by simp; omega, ?_⟩)
            intro level hlevel
            have := hfirst level hlevel
            simp only at this
            omega
          rw [hnil, levelIn, if_pos hd.symm, if_pos hd, List.nil_append]
        · rw [levelIn, if_neg (Ne.symm hd), if_neg hd, List.append_nil]
      · split
        · rename_i heq
          subst heq
          by_cases hd : d = depth
          · simp [levelIn, hd]
          · simp [levelIn, hd, Ne.symm hd]
        · by_cases hd : e = d
          · have hne : d ≠ depth := by omega
            simp [levelIn, hd, hne]
          · simpa [levelIn, hd] using ih hrest

/-- Picking levels by depth keeps or empties the list of each depth. -/
theorem levelIn_filter (levels : List (Nat × List Nat)) (p : Nat → Bool) (depth : Nat) :
    levelIn (levels.filter fun level => p level.1) depth =
      if p depth then levelIn levels depth else [] := by
  induction levels with
  | nil => simp [levelIn]
  | cons first rest ih =>
      rcases first with ⟨d, ids⟩
      by_cases hd : d = depth
      · subst hd
        by_cases hp : p d = true
        · simp [levelIn, hp]
        · simp [hp, ih]
      · by_cases hp : p d = true
        · simp [levelIn, hd, hp, ih]
        · simp [levelIn, hd, hp, ih]

/-- Above a depth are the lists of smaller depths. -/
theorem level_above (t : DepthTable) (depth d : Nat) :
    (t.above depth).level d = if d < depth then t.level d else [] := by
  simpa [level, above] using levelIn_filter t.levels (fun d => decide (d < depth)) d

/-- From a depth down are the lists of that depth and of greater ones. -/
theorem level_below (t : DepthTable) (depth d : Nat) :
    (t.below depth).level d = if depth ≤ d then t.level d else [] := by
  simpa [level, below] using levelIn_filter t.levels (fun d => decide (depth ≤ d)) d

/-- The entries of a depth are its list. -/
theorem map_snd_entries (t : DepthTable) (depth : Nat) :
    (t.entries.filter fun entry => decide (entry.1 = depth)).map Prod.snd = t.level depth := by
  rcases t with ⟨levels, ascending⟩
  simp only [level, entries]
  induction levels with
  | nil => rfl
  | cons first rest ih =>
      rcases first with ⟨d, ids⟩
      rcases List.pairwise_cons.mp ascending with ⟨hfirst, hrest⟩
      rw [List.flatMap_cons, List.filter_append, List.map_append, ih hrest, levelIn]
      by_cases hd : d = depth
      · have hnil : levelIn rest depth = [] := by
          refine levelIn_eq_nil fun level hlevel => ?_
          have := hfirst level hlevel
          simp only at this
          omega
        simp [hd, hnil, List.filter_map, Function.comp_def]
      · simp [hd, List.filter_map, Function.comp_def]

/-- An entry is a number in the list of its depth. -/
theorem mem_entries {t : DepthTable} {depth id : Nat} :
    (depth, id) ∈ t.entries ↔ id ∈ t.level depth := by
  rw [← map_snd_entries]
  simp

/-- The entries from a depth down are those of the lists there. -/
theorem mem_entries_below {t : DepthTable} {depth d id : Nat} :
    (d, id) ∈ (t.below depth).entries ↔ depth ≤ d ∧ id ∈ t.level d := by
  rw [mem_entries, level_below]
  by_cases hd : depth ≤ d <;> simp [hd]

end DepthTable

/-! ## The builder -/

/-- An outline under construction: the nodes so far, the open containers with the innermost first,
the node that was visited last, and the nodes whose ends are not settled, by depth. -/
structure DepthBuilder where
  source : Source
  nodes : Forest
  stack : List Nat
  last : Option Nat
  pending : DepthTable

namespace DepthBuilder

open Forest

/-- Nothing built yet. -/
def init (source : Source) : DepthBuilder :=
  ⟨source, [], [], none, .empty⟩

/-- The depth of the next node. -/
def depth (k : DepthBuilder) : Nat :=
  k.stack.length

/-- The innermost open container. -/
def current (k : DepthBuilder) : Option Nat :=
  k.stack.head?

/-- The plain builder with the same nodes and the same pending nodes in one list. -/
def plain (k : DepthBuilder) : Builder :=
  ⟨k.source, k.nodes, k.stack, k.pending.entries.map Prod.snd⟩

/-- The heads that start by a boundary, each with the place where its branch ends: at the least
larger start of a head, if that comes before the boundary. -/
def headEnds (k : DepthBuilder) (heads : List Nat) (boundary : Nat) : List (Nat × Nat) :=
  heads.filterMap fun head =>
    let next := ((heads.map k.nodes.startOf).filter (k.nodes.startOf head < ·)).min?
    if boundary < k.nodes.startOf head then none
    else some (head, next.elim boundary fun start => min start boundary)

/-- What becomes of an entry when all branches from a depth down close at a boundary: its end, or
none if its branch starts past the boundary.  The end is walked back to from where the branch of its
head ends; without a head it is walked back to from the fallback, and there is no answer if the
fallback is missing too. -/
def verdict? (k : DepthBuilder) (fallback : Option Nat) (depth boundary : Nat)
    (entry : Nat × Nat) : Option (Option Nat) :=
  let ends := k.headEnds (k.pending.level depth) boundary
  let endFrom (branch : Option Nat) : Option (Option Nat) :=
    (branch.or fallback).map fun stop =>
      some (Text.closingEnd k.source.chars stop (entry.1 - depth))
  match k.nodes.ancestorAt depth entry.2 with
  | some head =>
      if boundary < k.nodes.startOf head then some none else endFrom (ends.lookup head)
  | none => endFrom none

/-- Settle the end of an entry, or put it back into the table. -/
def carryOut (k : DepthBuilder) (entry : Nat × Nat) : Option Nat → DepthBuilder
  | some stop => { k with nodes := k.nodes.modify entry.2 fun n => n.close stop }
  | none => { k with pending := k.pending.put entry.1 entry.2 }

/-- Close all branches from a depth down at a boundary.  The fallback may depend on the boundary. -/
def resolvePending (fallback : Nat → Option Nat) (k : DepthBuilder) (depth boundary : Nat) :
    Option DepthBuilder :=
  (k.pending.below depth).entries.foldlM
    (fun rest entry =>
      (k.verdict? (fallback boundary) depth boundary entry).map (rest.carryOut entry))
    { k with pending := k.pending.above depth }

/-- Whether a located node has branches to close: it is a root, it comes after a node that lies as
deep or deeper, or there are pending nodes that do. -/
def closesBranch (k : DepthBuilder) : Bool :=
  k.depth == 0 || k.last.any (fun id => decide (k.depth ≤ k.nodes.depthOf id)) ||
    !(k.pending.below k.depth).levels.isEmpty

/-- Cut the siblings that reach past a place back to it, with all that lies below them. -/
def trim (k : DepthBuilder) (place : Nat) : DepthBuilder :=
  { k with nodes := (k.plain.trim k.current place).nodes }

/-- The start of a node that was not located: that of the last pending node at its depth, else of
its parent, else of the last root, else zero. -/
def inheritedStart (k : DepthBuilder) : Nat :=
  let outer := k.current.or (k.nodes.under none).getLast?
  ((k.pending.level k.depth).getLast?.or outer).elim 0 k.nodes.startOf

/-- The start that a new node gets. -/
def startFor (k : DepthBuilder) (payload : Payload) : Nat :=
  match payload.location with
  | some location => max (k.source.clamp location.position) k.plain.floor
  | none => max k.inheritedStart k.plain.floor

/-- Close the branches before a new node, if it is located, and cut back the siblings that reach
past it. -/
def closeBefore (fallback : Nat → Option Nat) (k : DepthBuilder) (payload : Payload) :
    Option DepthBuilder :=
  match payload.location with
  | some _ =>
      let start := k.startFor payload
      let closed := if k.closesBranch then k.resolvePending fallback k.depth start else some k
      closed.map fun closed => closed.trim start
  | none => some k

/-- Add a node with a start, its end pending. -/
def append (k : DepthBuilder) (kind : Kind) (payload : Payload) (start : Nat) : DepthBuilder :=
  { k with
    nodes := k.nodes ++ [⟨kind, payload, k.depth, k.current, start, none⟩]
    last := some k.nodes.length
    pending := k.pending.put k.depth k.nodes.length }

/-- Add a node. -/
def visit (fallback : Nat → Option Nat) (k : DepthBuilder) (kind : Kind) (payload : Payload) :
    Option DepthBuilder :=
  (k.closeBefore fallback payload).map fun closed =>
    closed.append kind payload (k.startFor payload)

/-- Feed an event; one that is refused leaves the builder as it was. -/
def feed (fallback : Nat → Option Nat) (k : DepthBuilder) : Event → Option DepthBuilder
  | .enter kind payload =>
      if kind.isContainer then
        (k.visit fallback kind payload).map fun visited =>
          { visited with stack := k.nodes.length :: k.stack }
      else some k
  | .leaf kind payload => k.visit fallback kind payload
  | .exit kind =>
      match k.stack with
      | [] => some k
      | top :: rest =>
          if k.nodes[top]?.map Node.kind = some kind then some { k with stack := rest }
          else some k

/-- Feed a stream of events, of which some may be refused. -/
def feedAll (fallback : Nat → Option Nat) (k : DepthBuilder) (events : List Event) :
    Option DepthBuilder :=
  events.foldlM (feed fallback) k

/-- Close what is still pending at the end of the text. -/
def finish (fallback : Nat → Option Nat) (k : DepthBuilder) : Option Outline :=
  (k.resolvePending fallback 0 k.source.size).map fun done => ⟨done.source, done.nodes⟩

/-! ## Carrying out verdicts -/

section CarryOut

variable (ends : Nat → Option Nat) (k : DepthBuilder)

/-- Carrying out an entry leaves the source. -/
@[simp]
theorem carryOut_source (entry : Nat × Nat) (stop : Option Nat) :
    (k.carryOut entry stop).source = k.source := by
  cases stop <;> rfl

/-- Carrying out an entry leaves the open containers. -/
@[simp]
theorem carryOut_stack (entry : Nat × Nat) (stop : Option Nat) :
    (k.carryOut entry stop).stack = k.stack := by
  cases stop <;> rfl

/-- Carry out what becomes of some entries. -/
def carryAll (entries : List (Nat × Nat)) : DepthBuilder :=
  entries.foldl (fun rest entry => rest.carryOut entry (ends entry.2)) k

/-- Entries are carried out one after the other. -/
@[simp]
theorem carryAll_cons (entry : Nat × Nat) (entries : List (Nat × Nat)) :
    carryAll ends k (entry :: entries) =
      carryAll ends (k.carryOut entry (ends entry.2)) entries :=
  rfl

/-- Carrying out entries leaves the source. -/
@[simp]
theorem carryAll_source (entries : List (Nat × Nat)) :
    (carryAll ends k entries).source = k.source := by
  induction entries generalizing k with
  | nil => rfl
  | cons entry entries ih => rw [carryAll_cons, ih, carryOut_source]

/-- Carrying out entries leaves the open containers. -/
@[simp]
theorem carryAll_stack (entries : List (Nat × Nat)) :
    (carryAll ends k entries).stack = k.stack := by
  induction entries generalizing k with
  | nil => rfl
  | cons entry entries ih => rw [carryAll_cons, ih, carryOut_stack]

/-- The entries without an end go back to their lists, in their order. -/
theorem level_carryAll (entries : List (Nat × Nat)) (depth : Nat) :
    (carryAll ends k entries).pending.level depth = k.pending.level depth ++
      ((entries.filter fun entry => decide (entry.1 = depth)).map Prod.snd).filter
        fun id => (ends id).isNone := by
  induction entries generalizing k with
  | nil => simp [carryAll]
  | cons entry entries ih =>
      rcases entry with ⟨d, id⟩
      rw [carryAll_cons, ih]
      cases hend : ends id with
      | some stop =>
          by_cases hd : d = depth <;> simp [carryOut, hd, hend]
      | none =>
          by_cases hd : d = depth
          · simp [carryOut, DepthTable.level_put, hd, hend]
          · simp [carryOut, DepthTable.level_put, hd, Ne.symm hd]

/-- The entries with an end are closed there, and all other nodes are left. -/
theorem getElem?_carryAll (entries : List (Nat × Nat)) (id : Nat) :
    (carryAll ends k entries).nodes[id]? =
      k.nodes[id]?.map fun n =>
        match if id ∈ entries.map Prod.snd then ends id else none with
        | some stop => n.close stop
        | none => n := by
  induction entries generalizing k with
  | nil => simp [carryAll]
  | cons entry entries ih =>
      rcases entry with ⟨d, id'⟩
      rw [carryAll_cons, ih]
      by_cases hid : id' = id
      · subst hid
        -- A node that is met again is closed at the same place again.
        cases ends id' with
        | none => simp [carryOut]
        | some stop =>
            by_cases hmem : id' ∈ entries.map Prod.snd
            · simp [carryOut, hmem, Node.close, Function.comp_def]
            · simp [carryOut, hmem, Function.comp_def]
      · have hkeep : (k.carryOut (d, id') (ends id')).nodes[id]? = k.nodes[id]? := by
          cases ends id' with
          | none => rfl
          | some stop => simp [carryOut, hid]
        have hmem : id ∈ ((d, id') :: entries).map Prod.snd ↔ id ∈ entries.map Prod.snd := by
          rw [List.map_cons, List.mem_cons, or_iff_right (Ne.symm hid)]
        simp only [hkeep, hmem]

/-- Where every entry has a verdict, all are carried out. -/
theorem foldlM_carryOut {entries : List (Nat × Nat)}
    {verdict : Nat × Nat → Option (Option Nat)}
    (h : ∀ entry ∈ entries, verdict entry = some (ends entry.2)) :
    entries.foldlM (fun rest entry => (verdict entry).map (rest.carryOut entry)) k =
      some (carryAll ends k entries) := by
  induction entries generalizing k with
  | nil => rfl
  | cons entry entries ih =>
      rw [List.forall_mem_cons] at h
      rw [List.foldlM_cons, h.1]
      exact ih (k.carryOut entry (ends entry.2)) h.2

end CarryOut

/-! ## The two builders agree -/

/-- The builder is in the state of a plain one: its lists are the pending nodes of each depth. -/
structure Agrees (k : DepthBuilder) (b : Builder) : Prop where
  source_eq : k.source = b.source
  nodes_eq : k.nodes = b.nodes
  stack_eq : k.stack = b.stack
  level_eq : ∀ depth, k.pending.level depth = b.pendingAt depth

/-- Both builders start with nothing built. -/
theorem Agrees.init (source : Source) : (init source).Agrees (Builder.init source) :=
  ⟨rfl, rfl, rfl, fun _ => rfl⟩

section Steps

variable {k : DepthBuilder} {b : Builder}

/-- Both builders give the next node the same depth. -/
theorem Agrees.depth_eq (h : k.Agrees b) : k.depth = b.depth := by
  rw [depth, h.stack_eq, Builder.depth]

/-- Both builders have the same container innermost. -/
theorem Agrees.current_eq (h : k.Agrees b) : k.current = b.current := by
  rw [current, h.stack_eq, Builder.current]

/-- The list of a depth holds the pending nodes of that depth. -/
theorem Agrees.mem_level (h : k.Agrees b) {depth id : Nat} :
    id ∈ k.pending.level depth ↔ id ∈ b.pending ∧ b.nodes.depthOf id = depth := by
  simp [h.level_eq, Builder.pendingAt]

/-- What a key is mapped to is found under it. -/
theorem lookup_filterMap {f : Nat → Option (Nat × Nat)}
    (hkey : ∀ a pair, f a = some pair → pair.1 = a) {keys : List Nat} {key value : Nat}
    (hmem : key ∈ keys) (hvalue : f key = some (key, value)) :
    (keys.filterMap f).lookup key = some value := by
  induction keys with
  | nil => simp at hmem
  | cons first rest ih =>
      by_cases hfirst : first = key
      · rw [hfirst, List.filterMap_cons_some hvalue, List.lookup_cons_self]
      · have hrest := ih (List.mem_of_ne_of_mem (Ne.symm hfirst) hmem)
        cases hf : f first with
        | none => rwa [List.filterMap_cons_none hf]
        | some pair =>
            have hne : ¬key = pair.1 := fun heq => hfirst ((hkey first pair hf).symm.trans heq.symm)
            rwa [List.filterMap_cons_some hf, List.lookup_cons, beq_false_of_ne hne]

/-- A head that starts by the boundary is found with the end of its branch. -/
theorem Agrees.lookup_headEnds (h : k.Agrees b) {depth boundary head : Nat}
    (hhead : head ∈ b.pendingAt depth) (hstart : ¬boundary < b.nodes.startOf head) :
    (k.headEnds (k.pending.level depth) boundary).lookup head =
      some (b.branchEnd depth boundary head) := by
  rw [← h.level_eq] at hhead
  unfold headEnds
  refine lookup_filterMap ?_ hhead ?_
  · intro first pair hpair
    dsimp only at hpair
    split at hpair
    · simp at hpair
    · rw [← Option.some.inj hpair]
  · dsimp only
    rw [if_neg (h.nodes_eq ▸ hstart), Builder.branchEnd, ← h.level_eq, ← h.nodes_eq, if_pos hhead]
    cases (((k.pending.level depth).map k.nodes.startOf).filter
      (k.nodes.startOf head < ·)).min? <;> rfl

/-- Every pending node finds the head of its branch, so it is told the end that the plain builder
gives it, whatever the fallback is. -/
theorem Agrees.verdict?_eq (h : k.Agrees b) (hshape : b.Shaped) (hexact : b.PendingExact)
    (hlinked : b.PendingLinked) {depth boundary : Nat} {entry : Nat × Nat}
    (hdepth : depth ≤ entry.1) (hentry : entry.2 ∈ k.pending.level entry.1)
    (fallback : Option Nat) :
    k.verdict? fallback depth boundary entry = some (b.endFor depth boundary entry.2) := by
  rcases entry with ⟨d, id⟩
  have hmem := h.mem_level.mp hentry
  dsimp only at hdepth hmem ⊢
  rcases hmem with ⟨hid, rfl⟩
  rcases hlinked.exists_head hshape hexact hid hdepth with ⟨head, hancestor, hhead⟩
  unfold verdict? Builder.endFor
  rw [h.nodes_eq, hancestor]
  by_cases hlt : boundary < b.nodes.startOf head
  · simp [hlt]
  · simp [hlt, h.lookup_headEnds hhead hlt, h.source_eq]

/-- A pending node below a settled root, which no stream of events leads to. -/
def orphaned : DepthBuilder :=
  let settled : Node := ⟨.rule, ⟨"a", none, none⟩, 0, none, 0, some 1⟩
  let below : Node := ⟨.selector, ⟨"a", none, none⟩, 1, some 0, 0, none⟩
  ⟨⟨['a']⟩, [settled, below], [], some 1, DepthTable.empty.put 1 1⟩

example : orphaned.verdict? none 0 1 (1, 1) = none ∧
    orphaned.verdict? (some 1) 0 1 (1, 1) = some (some 0) := by
  decide

/-- The entries from a depth down are the pending nodes that lie there. -/
theorem Agrees.mem_map_below (h : k.Agrees b) {depth id : Nat} :
    id ∈ (k.pending.below depth).entries.map Prod.snd ↔
      id ∈ b.pending ∧ depth ≤ b.nodes.depthOf id := by
  simp only [List.mem_map, Prod.exists, DepthTable.mem_entries_below, h.mem_level]
  constructor
  · rintro ⟨d, id, ⟨hdepth, hid, rfl⟩, rfl⟩
    exact ⟨hid, hdepth⟩
  · rintro ⟨hid, hdepth⟩
    exact ⟨_, id, ⟨hdepth, hid, rfl⟩, rfl⟩

/-- Closing branches does what the plain builder does, whatever the fallback is. -/
theorem Agrees.exists_resolvePending (h : k.Agrees b) (hshape : b.Shaped)
    (hexact : b.PendingExact) (hlinked : b.PendingLinked) (depth boundary : Nat) :
    ∃ k' : DepthBuilder, (∀ fallback, k.resolvePending fallback depth boundary = some k') ∧
      k'.Agrees (b.resolvePending depth boundary) := by
  refine ⟨carryAll (b.endFor depth boundary) { k with pending := k.pending.above depth }
    (k.pending.below depth).entries, ?_, ?_, ?_, ?_, ?_⟩
  · intro fallback
    refine foldlM_carryOut _ _ fun entry hentry => ?_
    rcases DepthTable.mem_entries_below.mp hentry with ⟨hdepth, hlevel⟩
    exact h.verdict?_eq hshape hexact hlinked hdepth hlevel _
  · rw [carryAll_source]
    exact h.source_eq
  · apply List.ext_getElem?
    intro id
    rw [getElem?_carryAll, Builder.getElem?_resolvePending, ← h.nodes_eq]
    simp only [h.mem_map_below]
    rfl
  · rw [carryAll_stack]
    exact h.stack_eq
  · intro d
    have hkept : ∀ id, id ∈ b.pendingAt d → b.settledEnd depth boundary id =
        if depth ≤ d then b.endFor depth boundary id else none := by
      intro id hid
      obtain ⟨hmem, rfl⟩ : id ∈ b.pending ∧ b.nodes.depthOf id = d := by
        simpa [Builder.pendingAt] using hid
      simp [Builder.settledEnd, hmem]
    have hlevel : (b.resolvePending depth boundary).pendingAt d =
        (b.pendingAt d).filter fun id => (b.settledEnd depth boundary id).isNone := by
      simp only [Builder.pendingAt, Builder.depthOf_resolvePending]
      exact List.filter_comm _ _ _
    rw [level_carryAll, DepthTable.map_snd_entries, DepthTable.level_above,
      DepthTable.level_below, hlevel, h.level_eq]
    by_cases hd : depth ≤ d
    · rw [if_neg (Nat.not_lt.mpr hd), if_pos hd, List.nil_append]
      refine List.filter_congr fun id hid => ?_
      rw [hkept id hid, if_pos hd]
    · rw [if_pos (Nat.lt_of_not_le hd), if_neg hd, List.filter_nil, List.append_nil, eq_comm,
        List.filter_eq_self]
      intro id hid
      rw [hkept id hid, if_neg hd]
      rfl

/-- Where the builder sees no branch to close, the plain one closes none. -/
theorem Agrees.resolvePending_eq_self (h : k.Agrees b) (hcloses : k.closesBranch = false)
    (boundary : Nat) : b.resolvePending b.depth boundary = b := by
  have hempty : (k.pending.below k.depth).levels = [] := by
    simpa [closesBranch] using (Bool.or_eq_false_iff.mp hcloses).2
  have hnone : ∀ id, b.settledEnd b.depth boundary id = none := by
    intro id
    rw [Builder.settledEnd, if_neg]
    rintro hid
    rw [← h.depth_eq, ← h.mem_map_below, DepthTable.entries, hempty] at hid
    simp at hid
  have hnodes : (b.resolvePending b.depth boundary).nodes = b.nodes := by
    apply List.ext_getElem?
    intro id
    rw [Builder.getElem?_resolvePending, hnone]
    exact Option.map_id'
  have hpending : (b.resolvePending b.depth boundary).pending = b.pending := by
    rw [Builder.resolvePending, List.filter_eq_self]
    exact fun id _ => by rw [hnone]; rfl
  calc b.resolvePending b.depth boundary
      = ⟨b.source, (b.resolvePending b.depth boundary).nodes, b.stack,
          (b.resolvePending b.depth boundary).pending⟩ := rfl
    _ = b := by rw [hnodes, hpending]

/-- Both builders cut back the same siblings. -/
theorem Agrees.trim (h : k.Agrees b) (place : Nat) :
    (k.trim place).Agrees (b.trim b.current place) := by
  refine ⟨h.source_eq, ?_, h.stack_eq, ?_⟩
  · rcases k with ⟨source, nodes, stack, last, pending⟩
    obtain ⟨rfl, rfl, rfl, -⟩ := h
    rfl
  · intro d
    have hsame : (b.trim b.current place).pendingAt d = b.pendingAt d :=
      List.filter_congr fun id _ => by rw [Builder.depthOf_trim]
    rw [hsame]
    exact h.level_eq d

/-- A node without a place inherits the same start from both builders. -/
theorem Agrees.inheritedStart_eq (h : k.Agrees b) : k.inheritedStart = b.inheritedStart := by
  unfold inheritedStart Builder.inheritedStart
  rw [h.level_eq, h.depth_eq, h.current_eq, h.nodes_eq]
  cases (b.pendingAt b.depth).getLast? with
  | some sibling => rfl
  | none =>
      cases b.current with
      | some parent => rfl
      | none => cases (b.nodes.under none).getLast? <;> rfl

/-- A node gets the same start from both builders. -/
theorem Agrees.startFor_eq (h : k.Agrees b) (payload : Payload) :
    k.startFor payload = b.startFor payload := by
  have hfloor : k.plain.floor = b.floor := by
    rcases k with ⟨source, nodes, stack, last, pending⟩
    obtain ⟨rfl, rfl, rfl, -⟩ := h
    rfl
  unfold startFor Builder.startFor
  cases payload.location with
  | none => simp only [hfloor, h.inheritedStart_eq]
  | some location => simp only [hfloor, h.source_eq]

/-- Both builders close the same branches before a new node, whatever the fallback. -/
theorem Agrees.exists_closeBefore (h : k.Agrees b) (hshape : b.Shaped) (hexact : b.PendingExact)
    (hlinked : b.PendingLinked) (payload : Payload) :
    ∃ k' : DepthBuilder, (∀ fallback, k.closeBefore fallback payload = some k') ∧
      k'.Agrees (b.closeBefore payload) := by
  unfold closeBefore Builder.closeBefore
  cases payload.location with
  | none => exact ⟨k, fun _ => rfl, h⟩
  | some location =>
      have hstart := h.startFor_eq payload
      cases hcloses : k.closesBranch with
      | false =>
          refine ⟨k.trim (k.startFor payload), fun _ => by simp, ?_⟩
          rw [h.resolvePending_eq_self hcloses, hstart]
          exact h.trim _
      | true =>
          rcases h.exists_resolvePending hshape hexact hlinked k.depth (k.startFor payload) with
            ⟨closed, hclosed, hagrees⟩
          refine ⟨closed.trim (k.startFor payload), fun fallback => by simp [hclosed], ?_⟩
          rw [← hstart, ← h.depth_eq]
          exact hagrees.trim _

/-- Both builders hold the new node pending. -/
theorem Agrees.append (h : k.Agrees b) (hexact : b.PendingExact) (kind : Kind)
    (payload : Payload) (start : Nat) :
    (k.append kind payload start).Agrees (b.append kind payload start) := by
  refine ⟨h.source_eq, ?_, h.stack_eq, ?_⟩
  · simp only [DepthBuilder.append, Builder.append, h.nodes_eq, h.depth_eq, h.current_eq]
  · intro d
    have hold : ∀ id ∈ b.pending,
        (b.append kind payload start).nodes.depthOf id = b.nodes.depthOf id :=
      fun id hid => depthOf_append ((hexact id).mp hid).1 _
    have hnew : (b.append kind payload start).nodes.depthOf b.nodes.length = b.depth :=
      depthOf_append_length _ _
    have hpending : (b.append kind payload start).pending = b.pending ++ [b.nodes.length] := rfl
    rw [Builder.pendingAt, hpending, List.filter_append,
      List.filter_congr fun id hid => by rw [hold id hid], ← Builder.pendingAt, ← h.level_eq]
    simp only [DepthBuilder.append, DepthTable.level_put, h.nodes_eq, h.depth_eq]
    by_cases hd : d = b.depth
    · simp [hd, hnew]
    · simp [hd, hnew, Ne.symm hd]

/-- Both builders visit a node alike, whatever the fallback. -/
theorem Agrees.exists_visit (h : k.Agrees b) (hshape : b.Shaped) (hexact : b.PendingExact)
    (hlinked : b.PendingLinked) (kind : Kind) (payload : Payload) :
    ∃ k' : DepthBuilder, (∀ fallback, k.visit fallback kind payload = some k') ∧
      k'.Agrees (b.visit kind payload) := by
  rcases h.exists_closeBefore hshape hexact hlinked payload with ⟨closed, hclosed, hagrees⟩
  refine ⟨closed.append kind payload (k.startFor payload), fun fallback => ?_, ?_⟩
  · rw [visit, hclosed, Option.map_some]
  · rw [Builder.visit_eq, h.startFor_eq]
    exact hagrees.append (hexact.closeBefore payload) kind payload _

/-- An event is accepted or refused by both, and needs no fallback. -/
theorem Agrees.exists_feed (h : k.Agrees b) (hshape : b.Shaped) (hexact : b.PendingExact)
    (hlinked : b.PendingLinked) (event : Event) :
    ∃ k' : DepthBuilder, (∀ fallback, k.feed fallback event = some k') ∧
      k'.Agrees (b.feed event) := by
  cases event with
  | enter kind payload =>
      by_cases hkind : kind.isContainer = true
      · rcases h.exists_visit hshape hexact hlinked kind payload with ⟨visited, hvisit, hagrees⟩
        refine ⟨{ visited with stack := k.nodes.length :: k.stack }, ?_, ?_⟩
        · intro fallback
          rw [feed, if_pos hkind, hvisit, Option.map_some]
        · simp only [Builder.feed, Builder.push, Builder.enter, hkind, if_true]
          refine ⟨hagrees.source_eq, hagrees.nodes_eq, ?_, hagrees.level_eq⟩
          rw [h.stack_eq, h.nodes_eq, Builder.nodeCount]
      · refine ⟨k, fun _ => by rw [feed, if_neg hkind], ?_⟩
        simpa [Builder.feed, Builder.push, Builder.enter, hkind] using h
  | leaf kind payload => exact h.exists_visit hshape hexact hlinked kind payload
  | exit kind =>
      simp only [DepthBuilder.feed, Builder.feed, Builder.push, Builder.exit, h.stack_eq]
      cases hstack : b.stack with
      | nil => exact ⟨k, fun _ => rfl, h⟩
      | cons top rest =>
          have htop : top < b.nodes.length := hshape.stack_lt top (by simp [hstack])
          have hnode := List.getElem?_eq_getElem htop
          have hkinds : k.nodes[top]?.map Node.kind = some b.nodes[top].kind := by
            rw [h.nodes_eq, hnode, Option.map_some]
          simp only [hkinds, hnode, Option.some.injEq]
          by_cases hkind : b.nodes[top].kind = kind
          · rw [if_pos hkind, if_pos hkind]
            exact ⟨{ k with stack := rest }, fun _ => rfl, h.source_eq, h.nodes_eq, rfl, h.level_eq⟩
          · rw [if_neg hkind, if_neg hkind]
            exact ⟨k, fun _ => rfl, h⟩

/-- No stream of events needs a fallback. -/
theorem Agrees.exists_feedAll (h : k.Agrees b) (hshape : b.Shaped) (hexact : b.PendingExact)
    (hlinked : b.PendingLinked) (events : List Event) :
    ∃ k' : DepthBuilder, (∀ fallback, k.feedAll fallback events = some k') ∧
      k'.Agrees (b.feedAll events) := by
  induction events generalizing k b with
  | nil => exact ⟨k, fun _ => rfl, h⟩
  | cons event events ih =>
      rcases h.exists_feed hshape hexact hlinked event with ⟨next, hnext, hagrees⟩
      rcases ih hagrees (hshape.feedAll [event]) (hexact.feedAll [event])
        (hlinked.feedAll hshape hexact [event]) with ⟨k', hk', hagrees'⟩
      refine ⟨k', fun fallback => ?_, hagrees'⟩
      rw [feedAll, List.foldlM_cons, hnext]
      exact hk' fallback

end Steps

/-! ## What holds after every stream -/

/-- A node is pending exactly if it stands in the list of its depth, where it stands once, and it
stands in no other list.  The open containers and the nodes around a pending node are pending, and
the head of its branch at each depth above it stands in the list of that depth. -/
structure Consistent (k : DepthBuilder) : Prop where
  listed : ∀ depth id, (k.pending.level depth).count id =
    if id < k.nodes.length ∧ k.nodes.stopOf id = none ∧ k.nodes.depthOf id = depth then 1 else 0
  opened : ∀ id ∈ k.stack, id ∈ k.pending.level (k.nodes.depthOf id)
  ancestors : ∀ depth id, id ∈ k.pending.level depth → ∀ other ∈ k.nodes.ancestors id,
    other ∈ k.pending.level (k.nodes.depthOf other)
  heads : ∀ cut depth id, cut ≤ depth → id ∈ k.pending.level depth →
    ∃ head, k.nodes.ancestorAt cut id = some head ∧ head ∈ k.pending.level cut

/-- A builder in the state of a plain one that was run is consistent. -/
theorem Agrees.consistent {k : DepthBuilder} {b : Builder} (h : k.Agrees b) (hshape : b.Shaped)
    (hexact : b.PendingExact) (hlinked : b.PendingLinked) : k.Consistent := by
  constructor
  · intro depth id
    have hnodup : (b.pendingAt depth).Nodup :=
      (hlinked.ascending.imp Nat.ne_of_lt).filter _
    rw [h.level_eq, hnodup.count, ← h.level_eq, h.nodes_eq]
    simp only [h.mem_level, hexact id, and_assoc]
  · intro id hid
    rw [h.stack_eq] at hid
    rw [h.mem_level, h.nodes_eq]
    exact ⟨hlinked.opened id hid, rfl⟩
  · intro depth id hid other hother
    rw [h.nodes_eq] at hother ⊢
    exact h.mem_level.mpr
      ⟨hlinked.ancestors hshape hexact (h.mem_level.mp hid).1 hother, rfl⟩
  · intro cut depth id hcut hid
    obtain ⟨hmem, rfl⟩ := h.mem_level.mp hid
    rw [h.nodes_eq, h.level_eq]
    exact hlinked.exists_head hshape hexact hmem hcut

/-- What holds of the table after every stream of events, in any order of their places and
whichever of them are refused.  The builder comes to its state without the fallback; the state is
that of the plain builder; every node without a settled end stands once in the table, in the list
of its depth, with the open containers and all that lies around it; and whenever branches are closed
next, at whatever depth and boundary, no node needs the fallback, at the end of the text
included. -/
theorem pending_table_stays_consistent (s : Source) (events : List Event) :
    let b := (Builder.init s).feedAll events
    ∃ k : DepthBuilder, (∀ fallback, (init s).feedAll fallback events = some k) ∧ k.Agrees b ∧
      k.Consistent ∧
      (∀ depth boundary, ∃ k' : DepthBuilder,
        (∀ fallback, k.resolvePending fallback depth boundary = some k') ∧
          k'.Agrees (b.resolvePending depth boundary)) ∧
      ∀ fallback, k.finish fallback = some b.finish := by
  have hshape := (Builder.Shaped.init s).feedAll events
  have hexact := (Builder.PendingExact.init s).feedAll events
  have hlinked := (Builder.PendingLinked.init s).feedAll (Builder.Shaped.init s)
    (Builder.PendingExact.init s) events
  intro b
  rcases (Agrees.init s).exists_feedAll (Builder.Shaped.init s) (Builder.PendingExact.init s)
    (Builder.PendingLinked.init s) events with ⟨k, hfeed, hagrees⟩
  have hresolve := hagrees.exists_resolvePending hshape hexact hlinked
  refine ⟨k, hfeed, hagrees, hagrees.consistent hshape hexact hlinked, hresolve, ?_⟩
  intro fallback
  rcases hresolve 0 k.source.size with ⟨done, hdone, hsettled⟩
  rw [finish, hdone, Option.map_some, hsettled.source_eq, hsettled.nodes_eq, Builder.finish,
    hagrees.source_eq]

end DepthBuilder
end StyleAtlas
