import AfyxGraph.Core.Entries
import AfyxGraph.Core.Places
import AfyxGraph.Core.Loop
import AfyxGraph.Core.LongestPath
import AfyxGraph.Core.PathText

/-! # The rows of the program view

A step sits on the row of the longest run of links that ends at it. A walk over the links finds
those that close a cycle, and the rows are raised link by link over the others.
-/

namespace AfyxGraph.Ui

open AfyxGraph.Core

/-- One "and then". -/
structure OrderEdge where
  from_ : Text
  to_ : Text
  when : Text
  runs : List Text
  arm : Option Text
  deriving DecidableEq, Repr

/-! ## The links that close a cycle -/

/-- `1` and `2`: open on the way in, done with. -/
inductive StepMark where
  | open_ | done
  deriving DecidableEq, Repr

structure StepFrame where
  id : Text
  next : Nat
  deriving DecidableEq, Repr

/-- The top of the stack comes first. -/
structure BackWalk where
  state : List (Text × StepMark)
  stack : List StepFrame
  back : List OrderEdge

section Walk

variable (edges : List OrderEdge)

/-- `out.get(id) ?? []` -/
def outOf (id : Text) : List OrderEdge := edges.filter (·.from_ = id)

def backTurn (w : BackWalk) : Option BackWalk :=
  match w.stack with
  | [] => none
  | top :: below =>
      match (outOf edges top.id)[top.next]? with
      | none => some { w with state := setEntry w.state top.id .done, stack := below }
      | some edge =>
          let stack := { top with next := top.next + 1 } :: below
          match w.state.lookup edge.to_ with
          | some .open_ => some { w with stack, back := w.back ++ [edge] }
          | some .done => some { w with stack }
          | none =>
              some { w with
                state := setEntry w.state edge.to_ .open_
                stack := ⟨edge.to_, 0⟩ :: stack }

/-- One turn for each link and one to leave each node. -/
def backTurns (nodes : List Text) : Nat :=
  (nodes.map fun id => (outOf edges id).length + 1).sum

def backFrom (turns : Nat) (w : BackWalk) (root : Text) : BackWalk :=
  if (w.state.lookup root).isSome then w
  else loop (backTurn edges) turns
    { w with state := setEntry w.state root .open_, stack := [⟨root, 0⟩] }

def backWalk (anchor : Text) (nodes : List Text) : BackWalk :=
  (anchor :: nodes).foldl (backFrom edges (backTurns edges nodes)) ⟨[], [], []⟩

end Walk

/-- No two links have the same ends, so a link is told from the others by its value. -/
def withoutBackEdges (anchor : Text) (nodes : List Text) (edges : List OrderEdge) :
    List OrderEdge :=
  edges.filter fun e => e ∉ (backWalk edges anchor nodes).back

/-! ## The rows -/

abbrev RowTable := List (Text × Nat)

/-- `depth.get(id) ?? 0` -/
def RowTable.row (depth : RowTable) (id : Text) : Nat := (depth.lookup id).getD 0

/-- The table, and whether the pass has moved anything. -/
def relaxEdge (s : RowTable × Bool) (e : OrderEdge) : RowTable × Bool :=
  let next := s.1.row e.from_ + 1
  if s.1.row e.to_ < next then (setEntry s.1 e.to_ next, true) else s

def relaxPass (forward : List OrderEdge) (depth : RowTable) : RowTable × Bool :=
  forward.foldl relaxEdge (depth, false)

def relaxRows (forward : List OrderEdge) : (passes : Nat) → RowTable → RowTable
  | 0, depth => depth
  | passes + 1, depth =>
      let (depth, moved) := relaxPass forward depth
      if moved then relaxRows forward passes depth else depth

def startRows (anchor : Text) (nodes : List Text) : RowTable :=
  setEntry (nodes.foldl (fun depth id => setEntry depth id 0) []) anchor 0

def rows (anchor : Text) (nodes : List Text) (edges : List OrderEdge) : RowTable :=
  relaxRows (withoutBackEdges anchor nodes edges) nodes.length (startRows anchor nodes)

/-! ## What they promise -/

/-- The picture: its nodes, where the reading starts, and at most one link between two ends. -/
structure StepGraph where
  anchor : Text
  nodes : List Text
  edges : List OrderEdge
  distinct : nodes.Nodup
  anchored : anchor ∈ nodes
  ends : ∀ e ∈ edges, e.from_ ∈ nodes ∧ e.to_ ∈ nodes
  single : (edges.map fun e => (e.from_, e.to_)).Nodup

def Linked (edges : List OrderEdge) (u v : Text) : Prop := ∃ e ∈ edges, e.from_ = u ∧ e.to_ = v

/-! ## The walk -/

section Walk

variable (edges : List OrderEdge) (nodes : List Text)

/-- What has been read of a frame's links closes a cycle, or leads to a node that is done or to
the frame above. -/
def Scanned (back : List OrderEdge) (finished : List Text) :
    (above : Option Text) → List StepFrame → Prop
  | _, [] => True
  | above, frame :: below =>
      (∀ e ∈ (outOf edges frame.id).take frame.next,
        e ∈ back ∨ e.to_ ∈ finished ∨ above = some e.to_) ∧
      Scanned back finished (some frame.id) below

/-- `finished` holds the nodes that are done, the last one first. -/
structure BackInv (w : BackWalk) (finished : List Text) : Prop where
  opened : ∀ v, w.state.lookup v = some .open_ ↔ v ∈ w.stack.map (·.id)
  done : ∀ v, w.state.lookup v = some .done ↔ v ∈ finished
  once : (w.stack.map (·.id)).Nodup
  doneOnce : finished.Nodup
  inside : ∀ v ∈ w.state.map Prod.fst, v ∈ nodes
  within : ∀ frame ∈ w.stack, frame.next ≤ (outOf edges frame.id).length
  chain : w.stack.IsChain fun above below => Linked edges below.id above.id
  scanned : Scanned edges w.back finished none w.stack
  closes : ∀ e ∈ w.back, Relation.ReflTransGen (Linked edges) e.to_ e.from_
  falls : ∀ later u earlier, finished = later ++ u :: earlier →
    ∀ e ∈ edges, e.from_ = u → e ∈ w.back ∨ e.to_ ∈ earlier

variable {edges nodes} {w w' : BackWalk} {finished : List Text}

theorem mem_outOf {id : Text} {e : OrderEdge} : e ∈ outOf edges id ↔ e ∈ edges ∧ e.from_ = id := by
  rw [outOf, List.mem_filter, decide_eq_true_eq]

theorem Scanned.mono {back more : List OrderEdge} {finished others : List Text}
    {above : Option Text} {stack : List StepFrame} (hback : back ⊆ more)
    (hfinished : finished ⊆ others) (h : Scanned edges back finished above stack) :
    Scanned edges more others above stack := by
  induction stack generalizing above with
  | nil => trivial
  | cons frame below ih =>
      refine ⟨fun e he => ?_, ih h.2⟩
      rcases h.1 e he with he | he | he
      · exact Or.inl (hback he)
      · exact Or.inr (Or.inl (hfinished he))
      · exact Or.inr (Or.inr he)

/-- When the frame above is done, no frame above is needed. -/
theorem Scanned.leave {back : List OrderEdge} {top : Text} {stack : List StepFrame}
    (h : Scanned edges back finished (some top) stack) :
    Scanned edges back (top :: finished) none stack := by
  cases stack with
  | nil => trivial
  | cons frame below =>
      refine ⟨fun e he => ?_, h.2.mono (List.Subset.refl back) (List.subset_cons_self ..)⟩
      rcases h.1 e he with he | he | he
      · exact Or.inl he
      · exact Or.inr (Or.inl (List.mem_cons_of_mem top he))
      · obtain rfl := Option.some.inj he
        exact Or.inr (Or.inl List.mem_cons_self)

/-- Every open node leads to the top of the stack. -/
theorem reaches_top {top : StepFrame} {below : List StepFrame}
    (h : (top :: below).IsChain fun above below => Linked edges below.id above.id) :
    ∀ v ∈ (top :: below).map (·.id), Relation.ReflTransGen (Linked edges) v top.id := by
  induction below generalizing top with
  | nil =>
      intro v hv
      obtain rfl := List.mem_singleton.mp hv
      exact Relation.ReflTransGen.refl
  | cons frame below ih =>
      obtain ⟨hlink, hrest⟩ := List.isChain_cons_cons.mp h
      intro v hv
      rcases List.mem_cons.mp hv with rfl | hv
      · exact Relation.ReflTransGen.refl
      · exact (ih hrest v hv).tail hlink

/-- What a turn can do. -/
theorem backTurn_cases (h : backTurn edges w = some w') :
    ∃ top below, w.stack = top :: below ∧
      (((outOf edges top.id).length ≤ top.next ∧
          w' = { w with state := setEntry w.state top.id .done, stack := below }) ∨
        ∃ edge, (outOf edges top.id)[top.next]? = some edge ∧
          ((w.state.lookup edge.to_ = some .open_ ∧
              w' = { w with
                stack := { top with next := top.next + 1 } :: below, back := w.back ++ [edge] }) ∨
            (w.state.lookup edge.to_ = some .done ∧
              w' = { w with stack := { top with next := top.next + 1 } :: below }) ∨
            (w.state.lookup edge.to_ = none ∧
              w' = { w with
                state := setEntry w.state edge.to_ .open_,
                stack := ⟨edge.to_, 0⟩ :: { top with next := top.next + 1 } :: below }))) := by
  rw [backTurn] at h
  cases hstack : w.stack with
  | nil =>
      rw [hstack] at h
      cases h
  | cons top below =>
      rw [hstack] at h
      refine ⟨top, below, rfl, ?_⟩
      cases hnext : (outOf edges top.id)[top.next]? with
      | none =>
          simp only [hnext] at h
          exact Or.inl ⟨List.getElem?_eq_none_iff.mp hnext, (Option.some.inj h).symm⟩
      | some edge =>
          simp only [hnext] at h
          refine Or.inr ⟨edge, rfl, ?_⟩
          cases hmark : w.state.lookup edge.to_ with
          | none =>
              simp only [hmark] at h
              exact Or.inr (Or.inr ⟨rfl, (Option.some.inj h).symm⟩)
          | some mark =>
              cases mark with
              | open_ =>
                  simp only [hmark] at h
                  exact Or.inl ⟨rfl, (Option.some.inj h).symm⟩
              | done =>
                  simp only [hmark] at h
                  exact Or.inr (Or.inl ⟨rfl, (Option.some.inj h).symm⟩)

theorem Scanned.advance {back : List OrderEdge} {top : StepFrame} {below : List StepFrame}
    {edge : OrderEdge} {above : Option Text}
    (h : Scanned edges back finished none (top :: below))
    (hnext : (outOf edges top.id)[top.next]? = some edge)
    (hedge : edge ∈ back ∨ edge.to_ ∈ finished ∨ above = some edge.to_) :
    Scanned edges back finished above ({ top with next := top.next + 1 } :: below) := by
  refine ⟨fun e he => ?_, h.2⟩
  rw [List.take_add_one, hnext] at he
  rcases List.mem_append.mp he with he | he
  · rcases h.1 e he with he | he | he
    · exact Or.inl he
    · exact Or.inr (Or.inl he)
    · cases he
  · obtain rfl := List.mem_singleton.mp he
    exact hedge

variable {top : StepFrame} {below : List StepFrame} {edge : OrderEdge}

theorem BackInv.top_open (h : BackInv edges nodes w finished) (hstack : w.stack = top :: below) :
    w.state.lookup top.id = some .open_ :=
  (h.opened top.id).mpr (by rw [hstack]; exact List.mem_cons_self)

theorem BackInv.pop (h : BackInv edges nodes w finished) (hstack : w.stack = top :: below)
    (hend : (outOf edges top.id).length ≤ top.next) :
    BackInv edges nodes { w with state := setEntry w.state top.id .done, stack := below }
      (top.id :: finished) := by
  have hopen := h.top_open hstack
  have honce := h.once
  rw [hstack, List.map_cons, List.nodup_cons] at honce
  have hscanned := h.scanned
  rw [hstack] at hscanned
  have hmarks : ∀ v, v ≠ top.id → (setEntry w.state top.id .done).lookup v = w.state.lookup v :=
    fun v hv => lookup_setEntry_ne w.state .done hv
  have hopenOnly : top.id ∉ finished := by
    rw [← h.done, hopen]
    exact fun hmark => nomatch hmark
  refine ⟨fun v => ?_, fun v => ?_, honce.2, List.nodup_cons.mpr ⟨hopenOnly, h.doneOnce⟩,
    fun v hv => ?_, ?_, ?_, hscanned.2.leave, h.closes, ?_⟩
  · by_cases hv : v = top.id
    · subst hv
      rw [lookup_setEntry_self]
      exact ⟨fun hmark => (nomatch hmark), fun hmem => absurd hmem honce.1⟩
    · rw [hmarks v hv, h.opened, hstack, List.map_cons, List.mem_cons]
      exact or_iff_right hv
  · by_cases hv : v = top.id
    · subst hv
      rw [lookup_setEntry_self]
      exact iff_of_true rfl List.mem_cons_self
    · rw [hmarks v hv, h.done, List.mem_cons]
      exact (or_iff_right hv).symm
  · rw [mem_keys_setEntry] at hv
    rcases hv with rfl | hv
    · exact h.inside _ (List.mem_map_of_mem (mem_of_lookup hopen))
    · exact h.inside v hv
  · intro frame hframe
    exact h.within frame (by rw [hstack]; exact List.mem_cons_of_mem top hframe)
  · have hchain := h.chain
    rw [hstack] at hchain
    exact hchain.tail
  · intro later u earlier hsplit e he hfrom
    cases later with
    | nil =>
        obtain ⟨rfl, rfl⟩ := List.cons.inj hsplit
        have hread : e ∈ (outOf edges top.id).take top.next := by
          rw [List.take_of_length_le hend]
          exact mem_outOf.mpr ⟨he, hfrom⟩
        rcases hscanned.1 e hread with hback | hdone | habove
        · exact Or.inl hback
        · exact Or.inr hdone
        · cases habove
    | cons first later =>
        obtain ⟨-, hrest⟩ := List.cons.inj hsplit
        exact h.falls later u earlier hrest e he hfrom

/-- The top frame reads its next link. -/
theorem BackInv.advance (h : BackInv edges nodes w finished) (hstack : w.stack = top :: below)
    (hnext : (outOf edges top.id)[top.next]? = some edge) {back : List OrderEdge}
    (hback : w.back ⊆ back)
    (hcloses : ∀ e ∈ back, Relation.ReflTransGen (Linked edges) e.to_ e.from_)
    (hedge : edge ∈ back ∨ edge.to_ ∈ finished) :
    BackInv edges nodes { w with stack := { top with next := top.next + 1 } :: below, back }
      finished := by
  have hchain := h.chain
  have hscanned := h.scanned
  have hwithin := h.within
  rw [hstack] at hchain hscanned hwithin
  have hids : ({ top with next := top.next + 1 } :: below).map (·.id) = w.stack.map (·.id) := by
    rw [hstack]
    rfl
  refine ⟨fun v => by rw [hids]; exact h.opened v, h.done, by rw [hids]; exact h.once, h.doneOnce,
    h.inside, ?_, ?_, ?_, hcloses, ?_⟩
  · intro frame hframe
    rcases List.mem_cons.mp hframe with rfl | hframe
    · exact (List.getElem?_eq_some_iff.mp hnext).1
    · exact hwithin frame (List.mem_cons_of_mem top hframe)
  · cases below with
    | nil => exact List.isChain_singleton _
    | cons frame below =>
        obtain ⟨hlink, hrest⟩ := List.isChain_cons_cons.mp hchain
        exact List.isChain_cons_cons.mpr ⟨hlink, hrest⟩
  · exact (hscanned.mono hback (List.Subset.refl _)).advance hnext (hedge.imp_right Or.inl)
  · intro later u earlier hsplit e he hu
    exact (h.falls later u earlier hsplit e he hu).imp_left (hback ·)

theorem BackInv.close (h : BackInv edges nodes w finished) (hstack : w.stack = top :: below)
    (hnext : (outOf edges top.id)[top.next]? = some edge)
    (hopen : w.state.lookup edge.to_ = some .open_) :
    BackInv edges nodes { w with
      stack := { top with next := top.next + 1 } :: below, back := w.back ++ [edge] } finished := by
  refine h.advance hstack hnext (List.subset_append_left _ _) ?_
    (Or.inl (List.mem_append_right _ (List.mem_singleton_self edge)))
  intro e he
  rcases List.mem_append.mp he with he | he
  · exact h.closes e he
  · obtain rfl := List.mem_singleton.mp he
    have hchain := h.chain
    rw [hstack] at hchain
    rw [(mem_outOf.mp (List.mem_of_getElem? hnext)).2]
    apply reaches_top hchain
    rw [← hstack]
    exact (h.opened e.to_).mp hopen

theorem BackInv.descend (h : BackInv edges nodes w finished) (hstack : w.stack = top :: below)
    (hends : ∀ e ∈ edges, e.to_ ∈ nodes) (hnext : (outOf edges top.id)[top.next]? = some edge)
    (hnew : w.state.lookup edge.to_ = none) :
    BackInv edges nodes { w with
      state := setEntry w.state edge.to_ .open_,
      stack := ⟨edge.to_, 0⟩ :: { top with next := top.next + 1 } :: below } finished := by
  have hchain := h.chain
  have hscanned := h.scanned
  have hwithin := h.within
  rw [hstack] at hchain hscanned hwithin
  obtain ⟨hedge, hfrom⟩ := mem_outOf.mp (List.mem_of_getElem? hnext)
  have hids : ({ top with next := top.next + 1 } :: below).map (·.id) = w.stack.map (·.id) := by
    rw [hstack]
    rfl
  have hclosed : edge.to_ ∉ w.stack.map (·.id) := by
    rw [← h.opened, hnew]
    exact fun hmark => nomatch hmark
  have hmarks : ∀ v, v ≠ edge.to_ →
      (setEntry w.state edge.to_ .open_).lookup v = w.state.lookup v :=
    fun v hv => lookup_setEntry_ne w.state .open_ hv
  refine ⟨fun v => ?_, fun v => ?_, ?_, h.doneOnce, fun v hv => ?_, ?_, ?_, ⟨?_, ?_⟩, h.closes,
    h.falls⟩
  · rw [List.map_cons, hids, List.mem_cons]
    by_cases hv : v = edge.to_
    · subst hv
      rw [lookup_setEntry_self]
      exact iff_of_true rfl (Or.inl rfl)
    · rw [hmarks v hv, h.opened]
      exact (or_iff_right hv).symm
  · by_cases hv : v = edge.to_
    · subst hv
      rw [lookup_setEntry_self, ← h.done, hnew]
      exact iff_of_false (fun hmark => nomatch hmark) (fun hmark => nomatch hmark)
    · rw [hmarks v hv, h.done]
  · rw [List.map_cons, hids, List.nodup_cons]
    exact ⟨hclosed, h.once⟩
  · rw [mem_keys_setEntry] at hv
    rcases hv with rfl | hv
    · exact hends edge hedge
    · exact h.inside v hv
  · intro frame hframe
    rcases List.mem_cons.mp hframe with rfl | hframe
    · exact Nat.zero_le _
    · rcases List.mem_cons.mp hframe with rfl | hframe
      · exact (List.getElem?_eq_some_iff.mp hnext).1
      · exact hwithin frame (List.mem_cons_of_mem top hframe)
  · refine List.isChain_cons_cons.mpr ⟨⟨edge, hedge, hfrom, rfl⟩, ?_⟩
    cases below with
    | nil => exact List.isChain_singleton _
    | cons frame below =>
        obtain ⟨hlink, hrest⟩ := List.isChain_cons_cons.mp hchain
        exact List.isChain_cons_cons.mpr ⟨hlink, hrest⟩
  · exact fun e he => absurd he List.not_mem_nil
  · exact hscanned.advance hnext (Or.inr (Or.inr rfl))

/-! ## Turns that are left -/

/-- One for every link that has not been read and every node that has not been left. -/
def backLeft (edges : List OrderEdge) (nodes : List Text) (w : BackWalk) : Nat :=
  unmarked (fun id => (outOf edges id).length + 1) nodes (w.state.map Prod.fst) +
    (w.stack.map fun frame => (outOf edges frame.id).length + 1 - frame.next).sum

theorem unmarked_setEntry_old (weight : Text → Nat) (all : List Text)
    {state : List (Text × StepMark)} {id : Text} {mark : StepMark}
    (h : id ∈ state.map Prod.fst) : unmarked weight all ((setEntry state id mark).map Prod.fst) =
      unmarked weight all (state.map Prod.fst) := by
  refine unmarked_congr weight all fun v => ?_
  rw [mem_keys_setEntry]
  exact or_iff_right_of_imp fun hv => hv ▸ h

theorem unmarked_setEntry_new (weight : Text → Nat) {all : List Text}
    {state : List (Text × StepMark)} {id : Text} (mark : StepMark) (hall : id ∈ all)
    (h : id ∉ state.map Prod.fst) :
    unmarked weight all ((setEntry state id mark).map Prod.fst) + weight id ≤
      unmarked weight all (state.map Prod.fst) := by
  have hkeys : unmarked weight all ((setEntry state id mark).map Prod.fst) =
      unmarked weight all (state.map Prod.fst ++ [id]) := by
    refine unmarked_congr weight all fun v => ?_
    rw [mem_keys_setEntry, List.mem_append, List.mem_singleton]
    exact or_comm
  rw [hkeys]
  exact unmarked_mark hall h

theorem BackInv.step (h : BackInv edges nodes w finished) (hends : ∀ e ∈ edges, e.to_ ∈ nodes)
    (hturn : backTurn edges w = some w') :
    (∃ finished', BackInv edges nodes w' finished') ∧
      backLeft edges nodes w' < backLeft edges nodes w := by
  obtain ⟨top, below, hstack, ⟨hend, rfl⟩ | ⟨edge, hnext, hread⟩⟩ := backTurn_cases hturn
  · refine ⟨⟨_, h.pop hstack hend⟩, ?_⟩
    have hkey : top.id ∈ w.state.map Prod.fst :=
      List.mem_map_of_mem (mem_of_lookup (h.top_open hstack))
    have hlen := h.within top (by rw [hstack]; exact List.mem_cons_self)
    simp only [backLeft, unmarked_setEntry_old _ nodes hkey, hstack, List.map_cons, List.sum_cons]
    omega
  · have hlen := (List.getElem?_eq_some_iff.mp hnext).1
    rcases hread with ⟨hopen, rfl⟩ | ⟨hdone, rfl⟩ | ⟨hnew, rfl⟩
    · refine ⟨⟨_, h.close hstack hnext hopen⟩, ?_⟩
      simp only [backLeft, hstack, List.map_cons, List.sum_cons]
      omega
    · refine ⟨⟨_, h.advance hstack hnext (List.Subset.refl _) h.closes
        (Or.inr ((h.done edge.to_).mp hdone))⟩, ?_⟩
      simp only [backLeft, hstack, List.map_cons, List.sum_cons]
      omega
    · refine ⟨⟨_, h.descend hstack hends hnext hnew⟩, ?_⟩
      have hnode := hends edge (mem_outOf.mp (List.mem_of_getElem? hnext)).1
      have hweight := unmarked_setEntry_new (fun id => (outOf edges id).length + 1) .open_ hnode
        (not_mem_keys_of_lookup hnew)
      simp only [backLeft, hstack, List.map_cons, List.sum_cons]
      omega

/-! ## The whole walk -/

theorem backLeft_start (edges : List OrderEdge) (nodes : List Text) {root : Text}
    (hroot : root ∈ nodes) (hnew : root ∉ w.state.map Prod.fst) :
    backLeft edges nodes
        { w with state := setEntry w.state root .open_, stack := [⟨root, 0⟩] } ≤
      backTurns edges nodes := by
  have hweight := unmarked_setEntry_new (fun id => (outOf edges id).length + 1) .open_ hroot hnew
  have hle := unmarked_le (fun id => (outOf edges id).length + 1) nodes (w.state.map Prod.fst)
  simp only [backLeft, backTurns, List.map_cons, List.map_nil, List.sum_cons, List.sum_nil]
  omega

theorem BackInv.open_root (h : BackInv edges nodes w finished) (hstack : w.stack = [])
    {root : Text} (hroot : root ∈ nodes) (hnew : w.state.lookup root = none) :
    BackInv edges nodes
      { w with state := setEntry w.state root .open_, stack := [⟨root, 0⟩] } finished := by
  have hmarks : ∀ v, v ≠ root → (setEntry w.state root .open_).lookup v = w.state.lookup v :=
    fun v hv => lookup_setEntry_ne w.state .open_ hv
  refine ⟨fun v => ?_, fun v => ?_, List.nodup_singleton root, h.doneOnce, fun v hv => ?_, ?_,
    List.isChain_singleton _, ⟨fun e he => absurd he List.not_mem_nil, trivial⟩, h.closes, h.falls⟩
  · by_cases hv : v = root
    · subst hv
      rw [lookup_setEntry_self]
      exact iff_of_true rfl (List.mem_singleton_self v)
    · rw [hmarks v hv, h.opened, hstack]
      exact iff_of_false List.not_mem_nil fun hmem => hv (List.mem_singleton.mp hmem)
  · by_cases hv : v = root
    · subst hv
      rw [lookup_setEntry_self, ← h.done, hnew]
      exact iff_of_false (fun hmark => nomatch hmark) (fun hmark => nomatch hmark)
    · rw [hmarks v hv, h.done]
  · rw [mem_keys_setEntry] at hv
    rcases hv with rfl | hv
    · exact hroot
    · exact h.inside v hv
  · intro frame hframe
    obtain rfl := List.mem_singleton.mp hframe
    exact Nat.zero_le _

/-- Between two roots the stack is empty. -/
def Idle (edges : List OrderEdge) (nodes : List Text) (w : BackWalk) (finished : List Text) :
    Prop :=
  BackInv edges nodes w finished ∧ w.stack = []

theorem backTurn_keys (h : backTurn edges w = some w') :
    w.state.map Prod.fst ⊆ w'.state.map Prod.fst := by
  intro v hv
  obtain ⟨top, below, -, ⟨-, rfl⟩ | ⟨edge, -, ⟨-, rfl⟩ | ⟨-, rfl⟩ | ⟨-, rfl⟩⟩⟩ := backTurn_cases h
  · exact (mem_keys_setEntry _ _ _ _).mpr (Or.inr hv)
  · exact hv
  · exact hv
  · exact (mem_keys_setEntry _ _ _ _).mpr (Or.inr hv)

theorem Idle.backFrom (h : Idle edges nodes w finished) (hends : ∀ e ∈ edges, e.to_ ∈ nodes)
    {root : Text} (hroot : root ∈ nodes) :
    (∃ finished', Idle edges nodes (backFrom edges (backTurns edges nodes) w root) finished') ∧
      root ∈ (backFrom edges (backTurns edges nodes) w root).state.map Prod.fst ∧
      w.state.map Prod.fst ⊆
        (backFrom edges (backTurns edges nodes) w root).state.map Prod.fst := by
  obtain ⟨hinv, hstack⟩ := h
  rw [AfyxGraph.Ui.backFrom]
  cases hlook : w.state.lookup root with
  | some mark =>
      exact ⟨⟨finished, hinv, hstack⟩, List.mem_map_of_mem (mem_of_lookup hlook),
        List.Subset.refl _⟩
  | none =>
      have hnew := not_mem_keys_of_lookup hlook
      have hkeep : ∀ s t : BackWalk, (∃ finished', BackInv edges nodes s finished') →
          backTurn edges s = some t → ∃ finished', BackInv edges nodes t finished' :=
        fun s t ⟨_, hs⟩ hturn => (hs.step hends hturn).1
      have hstart : ∃ finished', BackInv edges nodes
          { w with state := setEntry w.state root .open_, stack := [⟨root, 0⟩] } finished' :=
        ⟨finished, hinv.open_root hstack hroot hlook⟩
      have hend := loop_stops hkeep (fun s t ⟨_, hs⟩ hturn => (hs.step hends hturn).2) hstart
        (backLeft_start edges nodes hroot hnew)
      obtain ⟨finished', hinv'⟩ := loop_invariant hkeep (backTurns edges nodes) hstart
      have hgrow : ∀ s t : BackWalk, (root ∈ s.state.map Prod.fst ∧
          w.state.map Prod.fst ⊆ s.state.map Prod.fst) → backTurn edges s = some t →
            root ∈ t.state.map Prod.fst ∧ w.state.map Prod.fst ⊆ t.state.map Prod.fst :=
        fun s t hs hturn =>
          ⟨backTurn_keys hturn hs.1, List.Subset.trans hs.2 (backTurn_keys hturn)⟩
      have hkeys := loop_invariant hgrow (backTurns edges nodes)
        (s := { w with state := setEntry w.state root .open_, stack := [⟨root, 0⟩] })
        ⟨(mem_keys_setEntry _ _ _ _).mpr (Or.inl rfl),
          fun v hv => (mem_keys_setEntry _ _ _ _).mpr (Or.inr hv)⟩
      refine ⟨⟨finished', hinv', ?_⟩, hkeys⟩
      rw [backTurn] at hend
      split at hend
      · rename_i hempty
        exact hempty
      · split at hend
        · cases hend
        · split at hend <;> cases hend

theorem Idle.foldl (hends : ∀ e ∈ edges, e.to_ ∈ nodes) (roots : List Text)
    (hroots : ∀ root ∈ roots, root ∈ nodes) (h : Idle edges nodes w finished) :
    ∃ finished', Idle edges nodes
        (roots.foldl (AfyxGraph.Ui.backFrom edges (backTurns edges nodes)) w) finished' ∧
      ∀ v, v ∈ roots ∨ v ∈ w.state.map Prod.fst →
        v ∈ (roots.foldl (AfyxGraph.Ui.backFrom edges (backTurns edges nodes)) w).state.map
          Prod.fst := by
  induction roots generalizing w finished with
  | nil =>
      refine ⟨finished, h, fun v hv => ?_⟩
      rcases hv with hv | hv
      · exact absurd hv List.not_mem_nil
      · exact hv
  | cons root roots ih =>
      obtain ⟨⟨finished', hidle⟩, hmem, hkeys⟩ := h.backFrom hends (hroots root List.mem_cons_self)
      obtain ⟨last, hlast, hall⟩ := ih (fun r hr => hroots r (List.mem_cons_of_mem root hr)) hidle
      refine ⟨last, hlast, fun v hv => hall v ?_⟩
      rcases hv with hv | hv
      · rcases List.mem_cons.mp hv with rfl | hv
        · exact Or.inr hmem
        · exact Or.inl hv
      · exact Or.inr (hkeys hv)

end Walk

/-! ## The relaxation -/

section Relax

open LongestPath

variable {forward : List OrderEdge} {depth : RowTable}

theorem row_relaxEdge (s : RowTable × Bool) (e : OrderEdge) :
    (relaxEdge s e).1.row = if s.1.row e.to_ < s.1.row e.from_ + 1 then
      Function.update s.1.row e.to_ (s.1.row e.from_ + 1) else s.1.row := by
  rw [relaxEdge]
  split
  · funext v
    by_cases hv : v = e.to_
    · subst hv
      rw [Function.update_self, RowTable.row, lookup_setEntry_self]
      rfl
    · rw [Function.update_of_ne hv, RowTable.row, lookup_setEntry_ne _ _ hv]
      rfl
  · rfl

/-- What a link does: it moves its end up, or it is settled already. -/
theorem relaxEdge_cases (s : RowTable × Bool) (e : OrderEdge) :
    (s.1.row e.from_ < s.1.row e.to_ ∧ relaxEdge s e = s) ∨
      (s.1.row e.to_ < s.1.row e.from_ + 1 ∧ (relaxEdge s e).2 = true ∧
        (relaxEdge s e).1.row = Function.update s.1.row e.to_ (s.1.row e.from_ + 1)) := by
  by_cases h : s.1.row e.to_ < s.1.row e.from_ + 1
  · refine Or.inr ⟨h, ?_, ?_⟩
    · rw [relaxEdge, if_pos h]
    · rw [row_relaxEdge, if_pos h]
  · refine Or.inl ⟨by omega, ?_⟩
    rw [relaxEdge, if_neg h]

theorem row_le_relaxEdge (s : RowTable × Bool) (e : OrderEdge) (v : Text) :
    s.1.row v ≤ (relaxEdge s e).1.row v := by
  rcases relaxEdge_cases s e with ⟨-, hsame⟩ | ⟨hlow, -, hraise⟩
  · rw [hsame]
  · rw [hraise]
    by_cases hv : v = e.to_
    · subst hv
      rw [Function.update_self]
      omega
    · rw [Function.update_of_ne hv]

theorem row_le_foldl (links : List OrderEdge) (s : RowTable × Bool) (v : Text) :
    s.1.row v ≤ (links.foldl relaxEdge s).1.row v := by
  induction links generalizing s with
  | nil => exact Nat.le_refl _
  | cons e links ih =>
      rw [List.foldl_cons]
      exact Nat.le_trans (row_le_relaxEdge s e v) (ih _)

theorem supported_foldl (links : List OrderEdge) (hlinks : links ⊆ forward) {s : RowTable × Bool}
    (h : Supported (Linked forward) s.1.row) :
    Supported (Linked forward) (links.foldl relaxEdge s).1.row := by
  induction links generalizing s with
  | nil => exact h
  | cons e links ih =>
      rw [List.foldl_cons]
      refine ih (fun x hx => hlinks (List.mem_cons_of_mem e hx)) ?_
      rcases relaxEdge_cases s e with ⟨-, hsame⟩ | ⟨-, -, hraise⟩
      · rwa [hsame]
      · rw [hraise]
        exact h.update ⟨e, hlinks List.mem_cons_self, rfl, rfl⟩

/-- After a pass every link reaches above what its start was before the pass. -/
theorem row_lt_foldl (links : List OrderEdge) (s : RowTable × Bool) {e : OrderEdge}
    (he : e ∈ links) : s.1.row e.from_ < (links.foldl relaxEdge s).1.row e.to_ := by
  induction links generalizing s with
  | nil => exact absurd he List.not_mem_nil
  | cons first links ih =>
      rw [List.foldl_cons]
      rcases List.mem_cons.mp he with rfl | he
      · refine Nat.lt_of_lt_of_le ?_ (row_le_foldl links _ _)
        rcases relaxEdge_cases s e with ⟨hlt, hsame⟩ | ⟨-, -, hraise⟩
        · rwa [hsame]
        · rw [hraise, Function.update_self]
          exact Nat.lt_succ_self _
      · exact Nat.lt_of_le_of_lt (row_le_relaxEdge s first _) (ih _ he)

theorem moved_foldl (links : List OrderEdge) {s : RowTable × Bool} (h : s.2 = true) :
    (links.foldl relaxEdge s).2 = true := by
  induction links generalizing s with
  | nil => exact h
  | cons e links ih =>
      rw [List.foldl_cons]
      apply ih
      rcases relaxEdge_cases s e with ⟨-, hsame⟩ | ⟨-, hmoved, -⟩
      · rwa [hsame]
      · exact hmoved

/-- A pass that moves nothing leaves the table as it is, and every link rises. -/
theorem foldl_of_not_moved (links : List OrderEdge) {s : RowTable × Bool} :
    (links.foldl relaxEdge s).2 = false ↔
      s.2 = false ∧ ∀ e ∈ links, s.1.row e.from_ < s.1.row e.to_ := by
  induction links generalizing s with
  | nil => simp
  | cons e links ih =>
      rw [List.foldl_cons, List.forall_mem_cons]
      rcases relaxEdge_cases s e with ⟨hlt, hsame⟩ | ⟨hlow, hmoved, -⟩
      · rw [hsame, ih]
        tauto
      · rw [moved_foldl links hmoved]
        constructor
        · exact fun h => nomatch h
        · rintro ⟨-, hlt, -⟩
          omega

theorem foldl_eq_self (links : List OrderEdge) {s : RowTable × Bool}
    (h : (links.foldl relaxEdge s).2 = false) : links.foldl relaxEdge s = s := by
  induction links generalizing s with
  | nil => rfl
  | cons e links ih =>
      rw [List.foldl_cons] at h ⊢
      obtain ⟨-, hlt⟩ := (foldl_of_not_moved (e :: links)).mp (by rwa [List.foldl_cons])
      rcases relaxEdge_cases s e with ⟨-, hsame⟩ | ⟨hlow, -, -⟩
      · rw [hsame] at h ⊢
        exact ih h
      · have hrises := hlt e List.mem_cons_self
        omega

theorem relaxPass_settled_iff :
    (relaxPass forward depth).2 = false ↔ Settled (Linked forward) depth.row := by
  rw [relaxPass, foldl_of_not_moved]
  constructor
  · rintro ⟨-, hlt⟩ u v ⟨e, he, rfl, rfl⟩
    exact hlt e he
  · intro h
    exact ⟨rfl, fun e he => h _ _ ⟨e, he, rfl, rfl⟩⟩

/-- The passes end with a table in which every link rises. -/
theorem relaxRows_spec {done passes : Nat}
    (hshort : ∀ k v, EndsAfter (Linked forward) (k + 1) v → k + 1 ≤ done + passes)
    (hsupported : Supported (Linked forward) depth.row)
    (hcovers : Covers (Linked forward) done depth.row) :
    Supported (Linked forward) (relaxRows forward passes depth).row ∧
      Settled (Linked forward) (relaxRows forward passes depth).row := by
  induction passes generalizing depth done with
  | zero => exact ⟨hsupported, hcovers.settled hsupported hshort⟩
  | succ passes ih =>
      have hpass := supported_foldl forward (List.Subset.refl _) (s := (depth, false)) hsupported
      simp only [relaxRows]
      split
      · have hrest : ∀ k v, EndsAfter (Linked forward) (k + 1) v →
            k + 1 ≤ (done + 1) + passes := by
          intro k v hpath
          have hle := hshort k v hpath
          omega
        refine ih hrest hpass ?_
        · apply hcovers.pass
          rintro u v ⟨e, he, rfl, rfl⟩
          exact row_lt_foldl forward (depth, false) he
      · rename_i hmoved
        have hstill : (relaxPass forward depth).2 = false := by simpa using hmoved
        have hsame : relaxPass forward depth = (depth, false) := foldl_eq_self forward hstill
        rw [hsame]
        exact ⟨hsupported, relaxPass_settled_iff.mp hstill⟩

theorem keys_foldl (links : List OrderEdge) (s : RowTable × Bool) :
    s.1.map Prod.fst ⊆ (links.foldl relaxEdge s).1.map Prod.fst := by
  induction links generalizing s with
  | nil => exact List.Subset.refl _
  | cons e links ih =>
      rw [List.foldl_cons]
      refine List.Subset.trans (fun v hv => ?_) (ih _)
      rw [relaxEdge]
      split
      · exact (mem_keys_setEntry _ _ _ _).mpr (Or.inr hv)
      · exact hv

theorem keys_relaxRows (forward : List OrderEdge) (passes : Nat) (depth : RowTable) :
    depth.map Prod.fst ⊆ (relaxRows forward passes depth).map Prod.fst := by
  induction passes generalizing depth with
  | zero => exact List.Subset.refl _
  | succ passes ih =>
      simp only [relaxRows]
      split
      · exact List.Subset.trans (keys_foldl forward (depth, false)) (ih _)
      · exact keys_foldl forward (depth, false)

theorem mem_startRows {nodes : List Text} (anchor : Text) {v : Text} (hv : v ∈ nodes) :
    v ∈ (startRows anchor nodes).map Prod.fst := by
  have hfold : ∀ depth : RowTable, v ∈ nodes ∨ v ∈ depth.map Prod.fst →
      v ∈ (nodes.foldl (fun depth id => setEntry depth id 0) depth).map Prod.fst := by
    clear hv
    induction nodes with
    | nil => exact fun depth hv => hv.resolve_left List.not_mem_nil
    | cons id nodes ih =>
        intro depth hv
        apply ih
        rw [mem_keys_setEntry, List.mem_cons] at *
        tauto
  exact (mem_keys_setEntry _ _ _ _).mpr (Or.inr (hfold [] (Or.inl hv)))

theorem row_startRows (anchor : Text) (nodes : List Text) :
    (startRows anchor nodes).row = fun _ => 0 := by
  have hset : ∀ (depth : RowTable) (id : Text), depth.row = (fun _ => 0) →
      RowTable.row (setEntry depth id 0) = fun _ => 0 := by
    intro depth id h
    funext v
    by_cases hv : v = id
    · subst hv
      rw [RowTable.row, lookup_setEntry_self]
      rfl
    · rw [RowTable.row, lookup_setEntry_ne _ _ hv]
      exact congrFun h v
  have hfold : ∀ depth : RowTable, depth.row = (fun _ => 0) →
      RowTable.row (nodes.foldl (fun depth id => setEntry depth id 0) depth) = fun _ => 0 := by
    induction nodes with
    | nil => exact fun depth h => h
    | cons id nodes ih => exact fun depth h => ih _ (hset depth id h)
  exact hset _ anchor (hfold [] rfl)

end Relax

/-! ## Every picture -/

namespace StepGraph

open LongestPath

variable (g : StepGraph)

def kept : List OrderEdge := withoutBackEdges g.anchor g.nodes g.edges

def rowTable : RowTable := rows g.anchor g.nodes g.edges

/-- What the rows promise. -/
structure RowsHold : Prop where
  sublist : g.kept.Sublist g.edges
  acyclic : Acyclic (Linked g.kept)
  dropped : ∀ e ∈ g.edges, e ∉ g.kept → Relation.ReflTransGen (Linked g.edges) e.to_ e.from_
  fixpoint : (relaxPass g.kept g.rowTable).2 = false ∧ (relaxPass g.kept g.rowTable).1 = g.rowTable
  longest : ∀ v ∈ g.nodes, ∃ row, g.rowTable.lookup v = some row ∧
    IsGreatest {k | EndsAfter (Linked g.kept) k v} row ∧ row < g.nodes.length
  rises : ∀ e ∈ g.kept, g.rowTable.row e.from_ < g.rowTable.row e.to_

variable {g}

theorem mem_kept {e : OrderEdge} :
    e ∈ g.kept ↔ e ∈ g.edges ∧ e ∉ (backWalk g.edges g.anchor g.nodes).back := by
  rw [kept, withoutBackEdges, List.mem_filter, decide_eq_true_eq]

/-- The walk ends with every node done. -/
theorem exists_finished (g : StepGraph) : ∃ finished,
    BackInv g.edges g.nodes (backWalk g.edges g.anchor g.nodes) finished ∧
      ∀ v ∈ g.nodes, v ∈ finished := by
  have hstart : Idle g.edges g.nodes ⟨[], [], []⟩ [] := by
    refine ⟨⟨?_, ?_, List.nodup_nil, List.nodup_nil, ?_, ?_, List.isChain_nil, trivial, ?_, ?_⟩,
      rfl⟩
    · exact fun v => iff_of_false (fun hmark => nomatch hmark) List.not_mem_nil
    · exact fun v => iff_of_false (fun hmark => nomatch hmark) List.not_mem_nil
    · exact fun v hv => absurd hv List.not_mem_nil
    · exact fun frame hframe => absurd hframe List.not_mem_nil
    · exact fun e he => absurd he List.not_mem_nil
    · intro later u earlier hsplit
      simp at hsplit
  obtain ⟨finished, ⟨hinv, hstack⟩, hall⟩ := hstart.foldl (fun e he => (g.ends e he).2)
    (g.anchor :: g.nodes) (List.forall_mem_cons.mpr ⟨g.anchored, fun _ hv => hv⟩)
  change BackInv g.edges g.nodes (backWalk g.edges g.anchor g.nodes) finished at hinv
  change (backWalk g.edges g.anchor g.nodes).stack = [] at hstack
  refine ⟨finished, hinv, fun v hv => ?_⟩
  have hkey := hall v (Or.inl (List.mem_cons_of_mem g.anchor hv))
  rw [← hinv.done]
  cases hlook : (backWalk g.edges g.anchor g.nodes).state.lookup v with
  | none => exact absurd hkey (not_mem_keys_of_lookup hlook)
  | some mark =>
      cases mark with
      | done => rfl
      | open_ =>
          have hopen := (hinv.opened v).mp hlook
          rw [hstack] at hopen
          exact absurd hopen List.not_mem_nil

theorem acyclic_kept (g : StepGraph) : Acyclic (Linked g.kept) := by
  obtain ⟨finished, hinv, hall⟩ := g.exists_finished
  -- a kept link leads to a node that was done before
  suffices hfalls : Settled (Linked g.kept) fun v => finished.idxOf v from hfalls.acyclic
  rintro u v ⟨e, he, rfl, rfl⟩
  obtain ⟨hedge, hback⟩ := mem_kept.mp he
  obtain ⟨later, earlier, hsplit⟩ := List.append_of_mem (hall e.from_ (g.ends e hedge).1)
  have hearlier := (hinv.falls later e.from_ earlier hsplit e hedge rfl).resolve_left hback
  have honce := hinv.doneOnce
  rw [hsplit] at honce ⊢
  have hsep := List.nodup_append.mp honce
  have hfrom : e.from_ ∉ later := fun hmem => hsep.2.2 _ hmem _ List.mem_cons_self rfl
  have hto : e.to_ ∉ later := fun hmem => hsep.2.2 _ hmem _ (List.mem_cons_of_mem _ hearlier) rfl
  have hne : e.from_ ≠ e.to_ := fun heq => (List.nodup_cons.mp hsep.2.1).1 (heq ▸ hearlier)
  dsimp only
  rw [List.idxOf_append_of_notMem hfrom, List.idxOf_append_of_notMem hto, List.idxOf_cons_self,
    List.idxOf_cons_ne _ hne]
  omega

/-- The rows are the lengths of the longest kept paths, for every picture. -/
theorem rowsHold (g : StepGraph) : g.RowsHold := by
  have hacyclic := g.acyclic_kept
  have hinside : ∀ u v, Linked g.kept u v → u ∈ g.nodes ∧ v ∈ g.nodes := by
    rintro u v ⟨e, he, rfl, rfl⟩
    exact g.ends e (mem_kept.mp he).1
  have hshort : ∀ k v, EndsAfter (Linked g.kept) (k + 1) v → k + 1 ≤ 0 + g.nodes.length := by
    intro k v hpath
    have hv : v ∈ g.nodes := by
      cases hpath with
      | step walk hop => exact (hinside _ v hop).2
    have hlt := hpath.lt_length hacyclic (fun u w hop => (hinside u w hop).1) hv
    omega
  have hstart : Supported (Linked g.kept) (startRows g.anchor g.nodes).row :=
    row_startRows g.anchor g.nodes ▸ supported_zero _
  obtain ⟨hsupported, hsettled⟩ := relaxRows_spec hshort hstart (covers_zero _ _)
  have hstill := relaxPass_settled_iff.mpr hsettled
  refine ⟨List.filter_sublist, hacyclic, ?_, ⟨hstill, ?_⟩, ?_, ?_⟩
  · intro e he hdropped
    obtain ⟨finished, hinv, -⟩ := g.exists_finished
    exact hinv.closes e (by_contra fun hback => hdropped (mem_kept.mpr ⟨he, hback⟩))
  · exact congrArg Prod.fst (foldl_eq_self g.kept hstill)
  · intro v hv
    have hkey : v ∈ g.rowTable.map Prod.fst :=
      keys_relaxRows g.kept g.nodes.length _ (mem_startRows g.anchor hv)
    cases hlook : g.rowTable.lookup v with
    | none => exact absurd hkey (not_mem_keys_of_lookup hlook)
    | some row =>
        have hgreatest := isGreatest_of_settled hsupported hsettled v
        have hrow : RowTable.row (relaxRows g.kept g.nodes.length (startRows g.anchor g.nodes)) v =
            row := by
          change (g.rowTable.lookup v).getD 0 = row
          rw [hlook]
          rfl
        rw [hrow] at hgreatest
        exact ⟨row, rfl, hgreatest,
          hgreatest.1.lt_length hacyclic (fun u w hop => (hinside u w hop).1) hv⟩
  · exact fun e he => hsettled _ _ ⟨e, he, rfl, rfl⟩

end StepGraph

end AfyxGraph.Ui
