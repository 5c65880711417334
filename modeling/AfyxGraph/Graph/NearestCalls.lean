import AfyxGraph.Graph.Relations

/-! # Callers and callees at depth one

With depth one the walk reads the calling edges of the start in order, and reports each existing
neighbour with the first edge that leads to it, whatever kinds the others are.
-/

namespace AfyxGraph.Graph.GraphReader

open AfyxGraph.Core Extraction

variable (store : GraphReader) (side : Side)

/-- The new ends of some edges, each with the first edge that leads to it. -/
def firstReached : (met : List String) → List Edge → List Reached
  | _, [] => []
  | met, edge :: edges =>
      match store.getNodeById (side.endOf edge) with
      | none => firstReached met edges
      | some node =>
          if node.id ∈ met then firstReached met edges
          else ⟨node, edge⟩ :: firstReached (met ++ [node.id]) edges

/-- The walk of depth one between two turns. -/
structure NearestInv (startId : String) (w : CallWalk) : Prop where
  stack : w.stack = [] ∧
      w.out = store.firstReached side [startId] (store.callingEdges side startId) ∨
    ∃ frame, w.stack = [frame] ∧ frame.depth = 0 ∧
      (∀ e ∈ frame.edges, frame.found.get (side.endOf e) = store.getNodeById (side.endOf e)) ∧
      w.out ++ store.firstReached side w.met frame.edges =
        store.firstReached side [startId] (store.callingEdges side startId)

variable {store side} {startId : String} {w w' : CallWalk}

theorem nearestInv_root :
    store.NearestInv side startId (CallWalk.openFrame store side 1 ⟨[], [], []⟩ startId 0) := by
  have hstack := @openFrame_stack store side 1 ⟨[], [], []⟩ startId 0 List.not_mem_nil
  have hmet := @openFrame_met store side 1 ⟨[], [], []⟩ startId 0 List.not_mem_nil
  have hout := @openFrame_out store side 1 ⟨[], [], []⟩ startId 0
  constructor
  by_cases hnone : store.callingEdges side startId = []
  · left
    rw [hstack, hout, hnone]
    exact ⟨if_pos (Or.inr rfl), rfl⟩
  · right
    rw [if_neg (by simp [hnone])] at hstack
    refine ⟨_, hstack, rfl, fun e he => get_getNodesByIds (List.mem_map_of_mem he), ?_⟩
    rw [hout, hmet]
    rfl

theorem NearestInv.turn (h : store.NearestInv side startId w)
    (hturn : store.followCallsTurn side 1 w = some w') : store.NearestInv side startId w' := by
  obtain ⟨frame, below, hstack, hcase⟩ := followCallsTurn_cases hturn
  obtain ⟨frame', hframe, hdepth, hfound, hout⟩ := h.stack.resolve_left fun hnone =>
    List.cons_ne_nil frame below (hstack.symm.trans hnone.1)
  rw [hstack, List.cons.injEq] at hframe
  obtain ⟨rfl, rfl⟩ := hframe
  rcases hcase with ⟨hedges, rfl⟩ | ⟨edge, edges, hedges, hcase⟩
  · rw [hedges, firstReached, List.append_nil] at hout
    exact ⟨.inl ⟨rfl, hout⟩⟩
  · have hget := hfound edge (hedges ▸ List.mem_cons_self)
    have hrest : ∀ e ∈ edges, frame.found.get (side.endOf e) = store.getNodeById (side.endOf e) :=
      fun e he => hfound e (hedges ▸ List.mem_cons_of_mem _ he)
    rw [hedges, firstReached, ← hget] at hout
    rcases hcase with ⟨hnone, rfl⟩ | ⟨node, hsome, ⟨hmet, rfl⟩ | ⟨hmet, rfl⟩⟩
    · rw [hnone] at hout
      exact ⟨.inr ⟨_, rfl, hdepth, hrest, hout⟩⟩
    · rw [hsome] at hout
      simp only [hmet, if_true] at hout
      exact ⟨.inr ⟨_, rfl, hdepth, hrest, hout⟩⟩
    · rw [hsome] at hout
      simp only [hmet, if_false] at hout
      have hopen := @openFrame_stack store side 1
        ⟨[{ frame with edges }], w.met, w.out ++ [⟨node, edge⟩]⟩ node.id (frame.depth + 1) hmet
      have hnext := @openFrame_met store side 1
        ⟨[{ frame with edges }], w.met, w.out ++ [⟨node, edge⟩]⟩ node.id (frame.depth + 1) hmet
      rw [if_pos (Or.inl (Nat.le_add_left 1 frame.depth))] at hopen
      refine ⟨.inr ⟨_, hopen, hdepth, hrest, ?_⟩⟩
      rw [openFrame_out, hnext, List.append_assoc]
      exact hout

/-- Depth one: the neighbours in the order of the edges. -/
theorem followCalls_one : store.followCalls side startId 1 =
    store.firstReached side [startId] (store.callingEdges side startId) := by
  have hinv := loop_invariant (fun _ _ => NearestInv.turn) (store.callTurns side startId)
    (@nearestInv_root store side startId)
  have hstop := stack_of_stopped (@followCalls_stops store side startId 1)
  rcases hinv.stack with ⟨-, hout⟩ | ⟨frame, hframe, -⟩
  · exact hout
  · rw [hstop] at hframe
    exact absurd hframe.symm (List.cons_ne_nil frame [])

theorem mem_firstReached {met : List String} {edges : List Edge} {r : Reached} :
    r ∈ store.firstReached side met edges ↔
      r.node.id ∉ met ∧ store.getNodeById (side.endOf r.edge) = some r.node ∧
        edges.find? (fun e => side.endOf e = r.node.id) = some r.edge := by
  induction edges generalizing met with
  | nil => simp [firstReached]
  | cons edge edges ih =>
      -- an edge that leads elsewhere says nothing about a neighbour
      have hother : side.endOf edge ≠ r.node.id →
          (edge :: edges).find? (fun e => side.endOf e = r.node.id) =
            edges.find? (fun e => side.endOf e = r.node.id) :=
        fun hne => List.find?_cons_of_neg (by simpa using hne)
      rw [firstReached]
      cases hnode : store.getNodeById (side.endOf edge) with
      | none =>
          rw [ih]
          by_cases heq : side.endOf edge = r.node.id
          · constructor <;> rintro ⟨-, hget, hfind⟩ <;> exfalso
            · have hend := List.find?_some hfind
              rw [decide_eq_true_eq, ← heq] at hend
              rw [hend, hnode] at hget
              exact absurd hget (by simp)
            · have hend := List.find?_some hfind
              rw [decide_eq_true_eq, ← heq] at hend
              rw [hend, hnode] at hget
              exact absurd hget (by simp)
          · rw [hother heq]
      | some node =>
          have hid := getNodeById_id hnode
          simp only
          by_cases heq : side.endOf edge = r.node.id
          · have hfirst : (edge :: edges).find? (fun e => side.endOf e = r.node.id) = some edge :=
              List.find?_cons_of_pos (by simpa using heq)
            rw [hfirst]
            split
            · rename_i hmet
              rw [ih]
              constructor <;> rintro ⟨hout, -⟩ <;> exact absurd (heq ▸ hid ▸ hmet) hout
            · rename_i hmet
              rw [List.mem_cons, ih]
              constructor
              · rintro (rfl | ⟨hout, -⟩)
                · exact ⟨hmet, hnode, rfl⟩
                · exact absurd (List.mem_append_right met
                    (List.mem_singleton.mpr (heq.symm.trans hid.symm))) hout
              · rintro ⟨-, hget, hedge⟩
                obtain rfl := Option.some.inj hedge
                rw [hnode] at hget
                left
                obtain ⟨node', edge'⟩ := r
                rw [Option.some.inj hget]
          · rw [hother heq]
            split
            · exact ih
            · rw [List.mem_cons, ih]
              have hne : r ≠ ⟨node, edge⟩ := by
                rintro rfl
                exact heq hid.symm
              rw [or_iff_right hne, List.mem_append, List.mem_singleton, not_or]
              refine and_congr_left fun _ => and_iff_left ?_
              exact fun hsame => heq (hid.symm.trans hsame.symm)

theorem nodup_firstReached (met : List String) (edges : List Edge) :
    ((store.firstReached side met edges).map (·.node.id)).Nodup := by
  induction edges generalizing met with
  | nil => exact List.nodup_nil
  | cons edge edges ih =>
      rw [firstReached]
      cases store.getNodeById (side.endOf edge) with
      | none => exact ih met
      | some node =>
          simp only
          split
          · exact ih met
          · rw [List.map_cons, List.nodup_cons]
            refine ⟨fun hmem => ?_, ih _⟩
            obtain ⟨r, hr, hid⟩ := List.mem_map.mp hmem
            have hout := (mem_firstReached.mp hr).1
            exact hout (hid ▸ List.mem_append_right met (List.mem_singleton_self _))

/-- No neighbour is reported twice. -/
theorem nodup_followCalls_one :
    ((store.followCalls side startId 1).map (·.node.id)).Nodup := by
  rw [followCalls_one]
  exact nodup_firstReached _ _

/-- A neighbour is reported with the first calling edge that leads to it. -/
theorem mem_followCalls_one {r : Reached} : r ∈ store.followCalls side startId 1 ↔
    r.node.id ≠ startId ∧ store.getNodeById (side.endOf r.edge) = some r.node ∧
      (store.callingEdges side startId).find? (fun e => side.endOf e = r.node.id) =
        some r.edge := by
  rw [followCalls_one, mem_firstReached, List.mem_singleton]

end AfyxGraph.Graph.GraphReader
