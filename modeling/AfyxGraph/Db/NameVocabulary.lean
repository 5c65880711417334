import AfyxGraph.Core.Transition
import AfyxGraph.Core.Transaction
import AfyxGraph.Store.Tables

/-! # The name-segment vocabulary

`NameVocabulary` remembers the names whose rows it has written, so that it does not split a
name twice. The memory is updated when a name is collected; the rows follow when they are
flushed, and a statement on the way may throw. The memory is not part of the transaction.
-/

namespace AfyxGraph.Db.NameVocabulary

open AfyxGraph.Core Extraction

/-- A row `(segment, name)`. -/
abbrev Row := String × String

def MAX_REMEMBERED_NAMES : Nat := 65536

def contributesToVocabulary (kind : NodeKind) : Bool := kind ≠ .file && kind ≠ .import

/-- `session` holds the rows of `name_segment_vocab`. -/
structure State where
  session : Session (List Row)
  remembered : List String
  deriving DecidableEq

/-- Where a write throws: at a row of the nodes table, or at the vocabulary with some of its
rows written. -/
inductive Fault where
  | node
  | segments (written : Nat)
  deriving DecidableEq, Repr

/-- The vocabulary rows that are written when a write throws. -/
def Fault.written : Fault → List Row → List Row
  | .node, _ => []
  | .segments written, rows => rows.take written

/-- `INSERT OR IGNORE` -/
def insertOrIgnore (table : List Row) (row : Row) : List Row :=
  if row ∈ table then table else table ++ [row]

variable (splitIdentifierSegments : String → List String)

def rowsOf (name : String) : List Row := (splitIdentifierSegments name).map (·, name)

/-- The memory after a name is collected, and the rows the name still needs. -/
def collect (remembered : List String) (name : String) : List String × List Row :=
  if name ∈ remembered then (remembered, [])
  else
    ((if MAX_REMEMBERED_NAMES ≤ remembered.length then [] else remembered) ++ [name],
      rowsOf splitIdentifierSegments name)

def collectAll (remembered : List String) : List String → List String × List Row
  | [] => (remembered, [])
  | name :: names =>
      let (remembered, rows) := collect splitIdentifierSegments remembered name
      let (remembered, more) := collectAll remembered names
      (remembered, rows ++ more)

namespace State

def flush (s : State) (rows : List Row) : State :=
  { s with session := s.session.write fun table => rows.foldl insertOrIgnore table }

/-- One name, outside a transaction of its own. -/
def add (s : State) (name : String) (fault : Option Fault) : State :=
  let (remembered, rows) := collect splitIdentifierSegments s.remembered name
  { s with remembered }.flush (fault.elim rows (·.written rows))

/-- Many names in one transaction: collected first, flushed at its end. -/
def addMany (s : State) (names : List String) (fault : Option Fault) : State :=
  let (remembered, rows) := collectAll splitIdentifierSegments s.remembered names
  let s := { session := s.session.enter, remembered : State }.flush
    (fault.elim rows (·.written rows))
  { s with session := if fault.isSome then s.session.fail else s.session.leave }

/-- A row of one node, and its name. -/
def writeNode (s : State) (node : Node) (fault : Option Fault) : State :=
  if !Store.isStorable node || fault = some .node then s
  else if contributesToVocabulary node.kind then s.add splitIdentifierSegments node.name fault
  else s

/-! ## The operations -/

def insert (s : State) (node : Node) (fault : Option Fault) : State :=
  s.writeNode splitIdentifierSegments node fault

def update (s : State) (node : Node) (fault : Option Fault) : State :=
  s.writeNode splitIdentifierSegments node fault

/-- The names that a bulk insert collects. -/
def namesOf (nodes : List Node) : List String :=
  ((nodes.filter Store.isStorable).filter (contributesToVocabulary ·.kind)).map (·.name)

def insertMany (s : State) (nodes : List Node) (fault : Option Fault) : State :=
  s.addMany splitIdentifierSegments (namesOf nodes) fault

/-- The heal path. -/
def addAll (s : State) (names : List String) (fault : Option Nat) : State :=
  s.addMany splitIdentifierSegments names (fault.map .segments)

/-- `later`: the edges, the references or the file record throw. -/
def storeBundle (s : State) (nodes : List Node) (fault : Option Fault) (later : Bool) : State :=
  let s := { s with session := s.session.enter }.insertMany splitIdentifierSegments nodes fault
  { s with session := if fault.isSome || later then s.session.fail else s.session.leave }

def clear (s : State) (throws : Bool) : State :=
  if throws then s else { session := s.session.write fun _ => [], remembered := [] }

end State

inductive Event where
  | enters
  | leaves
  | throws
  | insert (node : Node) (fault : Option Fault)
  | update (node : Node) (fault : Option Fault)
  | insertMany (nodes : List Node) (fault : Option Fault)
  | storeBundle (nodes : List Node) (fault : Option Fault) (later : Bool)
  | addAll (names : List String) (fault : Option Nat)
  | clear (throws : Bool)
  deriving DecidableEq, Repr

def machine : Machine State Event := fun s e =>
  match e with
  | .enters => some { s with session := s.session.enter }
  | .leaves => if s.session.depth = 0 then none else some { s with session := s.session.leave }
  | .throws => if s.session.depth = 0 then none else some { s with session := s.session.fail }
  | .insert node fault => some (s.insert splitIdentifierSegments node fault)
  | .update node fault => some (s.update splitIdentifierSegments node fault)
  | .insertMany nodes fault => some (s.insertMany splitIdentifierSegments nodes fault)
  | .storeBundle nodes fault later =>
      some (s.storeBundle splitIdentifierSegments nodes fault later)
  | .addAll names fault => some (s.addAll splitIdentifierSegments names fault)
  | .clear throws => some (s.clear throws)

/-- A new session on a table. -/
def opened (table : List Row) : State where
  session := { data := table }
  remembered := []

/-! ## The memory and the table -/

/-- The table has every row of the name. -/
def Written (table : List Row) (name : String) : Prop :=
  ∀ row ∈ rowsOf splitIdentifierSegments name, row ∈ table

/-- Between two transactions every remembered name has its rows in the committed table. -/
def RemembersWritten (s : State) : Prop :=
  s.session.depth = 0 → ∀ name ∈ s.remembered,
    Written splitIdentifierSegments s.session.committed name

/-- The rows are there after the throw: they were before, or they have been written and no
rollback takes them back. -/
def SurvivesThrow (s : State) (rows written : List Row) : Prop :=
  ∀ row ∈ rows, row ∈ s.session.data ∨ (0 < s.session.depth ∧ row ∈ written)

/-- What throws, or rolls back, loses no row of a name that is remembered. -/
def ThrowsKeepRows (s : State) : Event → Prop
  | .throws => s.session.depth = 1 → ∀ saved, s.session.saved = some saved →
      ∀ name ∈ s.remembered, Written splitIdentifierSegments saved name
  | .insert node (some (.segments written)) | .update node (some (.segments written)) =>
      Store.isStorable node = true → contributesToVocabulary node.kind = true →
        ∀ row ∈ (collect splitIdentifierSegments s.remembered node.name).2,
          row ∈ s.session.data ∨
            row ∈ (collect splitIdentifierSegments s.remembered node.name).2.take written
  | .insertMany nodes (some fault) =>
      let rows := (collectAll splitIdentifierSegments s.remembered (State.namesOf nodes)).2
      SurvivesThrow s rows (fault.written rows)
  | .addAll names (some written) =>
      let rows := (collectAll splitIdentifierSegments s.remembered names).2
      SurvivesThrow s rows (rows.take written)
  | .storeBundle nodes fault later =>
      let rows := (collectAll splitIdentifierSegments s.remembered (State.namesOf nodes)).2
      fault.isSome = true ∨ later = true →
        SurvivesThrow s rows (fault.elim rows (·.written rows))
  | _ => True

/-! ## Collected rows -/

variable {splitIdentifierSegments}

theorem mem_insertOrIgnore {table : List Row} {new row : Row} :
    row ∈ insertOrIgnore table new ↔ row ∈ table ∨ row = new := by
  unfold insertOrIgnore
  split
  · rename_i h
    refine ⟨.inl, ?_⟩
    rintro (hrow | rfl)
    · exact hrow
    · exact h
  · rw [List.mem_append, List.mem_singleton]

theorem mem_foldl_insertOrIgnore {rows table : List Row} {row : Row} :
    row ∈ rows.foldl insertOrIgnore table ↔ row ∈ table ∨ row ∈ rows := by
  induction rows generalizing table with
  | nil => simp
  | cons new rows ih =>
      rw [List.foldl_cons, ih, mem_insertOrIgnore, List.mem_cons, or_assoc]

/-- A name that is remembered was so before, or its rows are collected. -/
theorem mem_collect {remembered : List String} {name other : String}
    (h : other ∈ (collect splitIdentifierSegments remembered name).1) : other ∈ remembered ∨
      ∀ row ∈ rowsOf splitIdentifierSegments other,
        row ∈ (collect splitIdentifierSegments remembered name).2 := by
  unfold collect at h ⊢
  split at h
  · exact .inl h
  · rename_i hnew
    rw [if_neg hnew]
    rcases List.mem_append.mp h with hmem | hmem
    · left
      split at hmem
      · cases hmem
      · exact hmem
    · obtain rfl := List.mem_singleton.mp hmem
      exact .inr fun row hrow => hrow

theorem mem_collectAll {names remembered : List String} {other : String}
    (h : other ∈ (collectAll splitIdentifierSegments remembered names).1) :
    other ∈ remembered ∨ ∀ row ∈ rowsOf splitIdentifierSegments other,
      row ∈ (collectAll splitIdentifierSegments remembered names).2 := by
  induction names generalizing remembered with
  | nil => exact .inl h
  | cons name names ih =>
      simp only [collectAll] at h ⊢
      rcases ih h with hmem | hrows
      · refine (mem_collect hmem).imp_right fun hrows row hrow => ?_
        exact List.mem_append_left _ (hrows row hrow)
      · exact .inr fun row hrow => List.mem_append_right _ (hrows row hrow)

/-! ## Single operations -/

/-- Every remembered name has its rows in the table of the connection. -/
structure Sound (splitIdentifierSegments : String → List String) (s : State) : Prop where
  session : s.session.WellFormed
  written : ∀ name ∈ s.remembered, Written splitIdentifierSegments s.session.data name

namespace Sound

variable {s t : State}

theorem remembersWritten (h : Sound splitIdentifierSegments s) :
    RemembersWritten splitIdentifierSegments s := by
  intro hdepth name hname
  have hnone : s.session.saved = none := by
    have hsession := h.session
    rw [Session.WellFormed, hdepth] at hsession
    simpa using hsession
  rw [Session.committed, hnone]
  exact h.written name hname

/-- The table grows by the rows of what is newly remembered. -/
theorem grow (h : Sound splitIdentifierSegments s) (rows : List Row)
    (hsession : t.session.WellFormed)
    (htable : ∀ row, row ∈ s.session.data ∨ row ∈ rows → row ∈ t.session.data)
    (hremembered : ∀ name ∈ t.remembered, name ∈ s.remembered ∨
      ∀ row ∈ rowsOf splitIdentifierSegments name, row ∈ rows) :
    Sound splitIdentifierSegments t := by
  refine ⟨hsession, fun name hname row hrow => ?_⟩
  rcases hremembered name hname with hold | hnew
  · exact htable row (.inl (h.written name hold row hrow))
  · exact htable row (.inr (hnew row hrow))

theorem add (h : Sound splitIdentifierSegments s) (name : String) (fault : Option Fault)
    (hrows : ∀ f, fault = some f →
      ∀ row ∈ (collect splitIdentifierSegments s.remembered name).2, row ∈ s.session.data ∨
        row ∈ f.written (collect splitIdentifierSegments s.remembered name).2) :
    Sound splitIdentifierSegments (s.add splitIdentifierSegments name fault) := by
  refine h.grow (collect splitIdentifierSegments s.remembered name).2
    (h.session.write _) (fun row hrow => ?_) fun other hother => mem_collect hother
  show row ∈ List.foldl insertOrIgnore s.session.data _
  rw [mem_foldl_insertOrIgnore]
  rcases hrow with hold | hnew
  · exact .inl hold
  · cases fault with
    | none => exact .inr hnew
    | some f => exact hrows f rfl row hnew

theorem writeNode (h : Sound splitIdentifierSegments s) (node : Node) (fault : Option Fault)
    (hrows : ∀ written, fault = some (.segments written) →
      Store.isStorable node = true → contributesToVocabulary node.kind = true →
      ∀ row ∈ (collect splitIdentifierSegments s.remembered node.name).2, row ∈ s.session.data ∨
        row ∈ (collect splitIdentifierSegments s.remembered node.name).2.take written) :
    Sound splitIdentifierSegments (s.writeNode splitIdentifierSegments node fault) := by
  unfold State.writeNode
  split
  · exact h
  · rename_i hstored
    split
    · rename_i hkind
      refine h.add node.name fault fun f hf => ?_
      cases f with
      | node =>
          rw [hf] at hstored
          exact (hstored (by simp)).elim
      | segments written =>
          refine hrows written hf ?_ hkind
          cases hstorable : Store.isStorable node with
          | true => rfl
          | false =>
              rw [hstorable] at hstored
              exact (hstored rfl).elim
    · exact h

variable (splitIdentifierSegments) in
/-- The table after many names were collected and flushed in one transaction. -/
theorem addMany_data (s : State) (names : List String) (fault : Option Fault) (row : Row) :
    row ∈ (s.addMany splitIdentifierSegments names fault).session.data ↔
      row ∈ s.session.data ∨
        row ∈ fault.elim (collectAll splitIdentifierSegments s.remembered names).2
            (·.written (collectAll splitIdentifierSegments s.remembered names).2) ∧
          (fault.isSome = true → 0 < s.session.depth) := by
  cases fault with
  | none =>
      show row ∈ List.foldl insertOrIgnore s.session.data _ ↔ _
      rw [mem_foldl_insertOrIgnore]
      simp
  | some f =>
      show row ∈ ((s.session.enter.write _).fail).data ↔ _
      by_cases hdepth : s.session.depth = 0
      · rw [Session.fail_write_enter _ hdepth]
        simp [hdepth]
      · have hpos := Nat.pos_of_ne_zero hdepth
        rw [Session.fail_write_enter_of_pos _ hpos, mem_foldl_insertOrIgnore]
        simp [hpos]

variable (splitIdentifierSegments) in
theorem addMany_session (h : s.session.WellFormed) (names : List String) (fault : Option Fault) :
    (s.addMany splitIdentifierSegments names fault).session.WellFormed := by
  cases fault with
  | none => exact (h.enter.write _).leave
  | some f => exact (h.enter.write _).fail

theorem addMany (h : Sound splitIdentifierSegments s) (names : List String)
    (fault : Option Fault) (hrows : ∀ f, fault = some f →
      SurvivesThrow s (collectAll splitIdentifierSegments s.remembered names).2
        (f.written (collectAll splitIdentifierSegments s.remembered names).2)) :
    Sound splitIdentifierSegments (s.addMany splitIdentifierSegments names fault) := by
  refine h.grow (collectAll splitIdentifierSegments s.remembered names).2
    (addMany_session splitIdentifierSegments h.session names fault) (fun row hrow => ?_) fun other hother => ?_
  · rw [addMany_data splitIdentifierSegments]
    rcases hrow with hold | hnew
    · exact .inl hold
    · cases fault with
      | none => exact .inr ⟨hnew, nofun⟩
      | some f => exact (hrows f rfl row hnew).imp_right fun h => ⟨h.2, fun _ => h.1⟩
  · cases fault <;> exact mem_collectAll hother

variable (splitIdentifierSegments) in
theorem addMany_depth (s : State) (names : List String) (fault : Option Fault) :
    (s.addMany splitIdentifierSegments names fault).session.depth = s.session.depth := by
  cases fault <;> exact Nat.add_sub_cancel ..

variable (splitIdentifierSegments) in
theorem addMany_saved (h : s.session.WellFormed) (names : List String) (fault : Option Fault) :
    (s.addMany splitIdentifierSegments names fault).session.saved = s.session.saved := by
  cases fault with
  | none => exact Session.saved_leave_write_enter h _
  | some f => exact Session.saved_fail_write_enter h _

/-- The table after a bundle. -/
theorem storeBundle_data (h : s.session.WellFormed) (nodes : List Node) (fault : Option Fault)
    (later : Bool) (row : Row) :
    row ∈ (s.storeBundle splitIdentifierSegments nodes fault later).session.data ↔
      row ∈ s.session.data ∨
        row ∈ fault.elim
            (collectAll splitIdentifierSegments s.remembered (State.namesOf nodes)).2
            (·.written
              (collectAll splitIdentifierSegments s.remembered (State.namesOf nodes)).2) ∧
          ((fault.isSome || later) = true → 0 < s.session.depth) := by
  have hinner := addMany_data splitIdentifierSegments
    { s with session := s.session.enter } (State.namesOf nodes) fault row
  have hdepth := addMany_depth splitIdentifierSegments
    { s with session := s.session.enter } (State.namesOf nodes) fault
  have hsaved := addMany_saved splitIdentifierSegments
    (s := { s with session := s.session.enter }) h.enter (State.namesOf nodes) fault
  simp only [State.storeBundle, State.insertMany]
  generalize State.addMany splitIdentifierSegments { s with session := s.session.enter }
    (State.namesOf nodes) fault = u at hinner hdepth hsaved
  cases hthrows : fault.isSome || later with
  | false =>
      simp only [Bool.false_eq_true, if_false, Session.leave_data, hinner]
      simp
  | true =>
      simp only [if_true]
      by_cases hzero : s.session.depth = 0
      · have hone : u.session.depth = 1 := by
          rw [hdepth]
          simp [hzero]
        have hfail : u.session.fail.data = s.session.data := by
          simp [Session.fail, hone, hsaved, Session.enter, hzero]
        simp [hfail, hzero]
      · have hmore : u.session.depth ≠ 1 := by
          rw [hdepth]
          simp [hzero]
        rw [Session.fail_data_of_ne hmore, hinner]
        simp [Nat.pos_of_ne_zero hzero]

theorem storeBundle (h : Sound splitIdentifierSegments s) (nodes : List Node)
    (fault : Option Fault) (later : Bool) (hrows : fault.isSome = true ∨ later = true →
      SurvivesThrow s (collectAll splitIdentifierSegments s.remembered (State.namesOf nodes)).2
        (fault.elim (collectAll splitIdentifierSegments s.remembered (State.namesOf nodes)).2
          (·.written (collectAll splitIdentifierSegments s.remembered
            (State.namesOf nodes)).2))) :
    Sound splitIdentifierSegments (s.storeBundle splitIdentifierSegments nodes fault later) := by
  refine h.grow
    (collectAll splitIdentifierSegments s.remembered (State.namesOf nodes)).2 ?_
    (fun row hrow => ?_) fun other hother => ?_
  · have hinner := addMany_session splitIdentifierSegments
      (s := { s with session := s.session.enter }) h.session.enter (State.namesOf nodes) fault
    simp only [State.storeBundle]
    split
    · exact hinner.fail
    · exact hinner.leave
  · rw [storeBundle_data h.session]
    rcases hrow with hold | hnew
    · exact .inl hold
    · cases hthrows : fault.isSome || later with
      | false =>
          rw [Bool.or_eq_false_iff, Option.isSome_eq_false_iff, Option.isNone_iff_eq_none]
            at hthrows
          rw [hthrows.1]
          exact .inr ⟨hnew, nofun⟩
      | true =>
          rw [Bool.or_eq_true] at hthrows
          exact (hrows hthrows row hnew).imp_right fun hlater => ⟨hlater.2, fun _ => hlater.1⟩
  · cases fault <;> exact mem_collectAll hother

end Sound

/-! ## Every step, every run -/

theorem Sound.step {s t : State} {e : Event} (h : Sound splitIdentifierSegments s)
    (hguard : ThrowsKeepRows splitIdentifierSegments s e)
    (ht : machine splitIdentifierSegments s e = some t) : Sound splitIdentifierSegments t := by
  cases e with
  | enters =>
      cases ht
      exact ⟨h.session.enter, h.written⟩
  | leaves =>
      simp only [machine, Option.ite_none_left_eq_some, Option.some.injEq] at ht
      obtain ⟨-, rfl⟩ := ht
      exact ⟨h.session.leave, h.written⟩
  | throws =>
      simp only [machine, Option.ite_none_left_eq_some, Option.some.injEq] at ht
      obtain ⟨-, rfl⟩ := ht
      refine ⟨h.session.fail, ?_⟩
      by_cases hdepth : s.session.depth = 1
      · obtain ⟨saved, hsaved⟩ := Option.isSome_iff_exists.mp (h.session.mpr (by omega))
        have hdata : s.session.fail.data = saved := by
          simp [Session.fail, hdepth, hsaved]
        show ∀ name ∈ s.remembered, Written splitIdentifierSegments s.session.fail.data name
        rw [hdata]
        exact hguard hdepth saved hsaved
      · show ∀ name ∈ s.remembered, Written splitIdentifierSegments s.session.fail.data name
        rw [Session.fail_data_of_ne hdepth]
        exact h.written
  | insert node fault =>
      cases ht
      apply h.writeNode
      rintro written rfl
      exact hguard
  | update node fault =>
      cases ht
      apply h.writeNode
      rintro written rfl
      exact hguard
  | insertMany nodes fault =>
      cases ht
      apply h.addMany
      rintro f rfl
      exact hguard
  | storeBundle nodes fault later =>
      cases ht
      exact h.storeBundle nodes fault later hguard
  | addAll names fault =>
      cases ht
      apply h.addMany
      intro f hf
      obtain ⟨written, rfl, rfl⟩ := Option.map_eq_some_iff.mp hf
      exact hguard
  | clear throws =>
      cases ht
      cases throws with
      | true => exact h
      | false =>
          refine ⟨h.session.write _, ?_⟩
          intro name hname
          cases hname

/-- As long as what throws or rolls back loses no row of a remembered name, a remembered name
has all its rows in the committed table whenever no transaction is open. -/
theorem remembersWritten_always (splitIdentifierSegments : String → List String)
    (table : List Row) (events : List Event)
    (h : (machine splitIdentifierSegments).Guarded (ThrowsKeepRows splitIdentifierSegments)
      (opened table) events) :
    (machine splitIdentifierSegments).Always (RemembersWritten splitIdentifierSegments)
      (opened table) events := by
  have hstart : Sound splitIdentifierSegments (opened table) := by
    refine ⟨?_, nofun⟩
    simp [Session.WellFormed, opened]
  exact h.always (I := Sound splitIdentifierSegments)
    (fun _ _ _ hs hguard ht => hs.step hguard ht) (fun _ hs => hs.remembersWritten) hstart

/-- The segments of two names. -/
def splitSample (name : String) : List String :=
  if name = "getUser" then ["get", "user"] else if name = "render" then ["render"] else []

def getUser : Node := ⟨"f1", .function, "getUser", "getUser", "src/a.ts", .typescript, 1⟩

/-- A name is written, and a later bundle with the same name rolls back. -/
def writtenThenThrown : List Event :=
  [.insert getUser none, .storeBundle [getUser] none true, .addAll ["render"] none]

theorem remembersWritten_writtenThenThrown :
    (machine splitSample).Always (RemembersWritten splitSample) (opened []) writtenThenThrown := by
  apply remembersWritten_always
  refine fun t ht => ⟨trivial, ?_⟩
  cases ht
  refine fun t ht => ⟨fun _ row hrow => ?_, ?_⟩
  · have hnone : (collectAll splitSample
        (State.insert splitSample (opened []) getUser none).remembered
        (State.namesOf [getUser])).2 = [] := by decide
    rw [hnone] at hrow
    cases hrow
  · cases ht
    exact fun t ht => ⟨trivial, trivial⟩

/-- The first bundle of a session throws after its nodes and names were written. -/
def thrownBundle : List Event := [.storeBundle [getUser] none true]

theorem not_remembersWritten_thrownBundle :
    ¬ (machine splitSample).Always (RemembersWritten splitSample) (opened []) thrownBundle := by
  intro h
  have hend : (machine splitSample).run (opened []) thrownBundle =
      some ⟨⟨[], none, 0⟩, ["getUser"]⟩ := by decide
  have hrow := h.last hend rfl "getUser" (List.mem_cons_self ..) ("get", "getUser") (by decide)
  cases hrow

end AfyxGraph.Db.NameVocabulary
