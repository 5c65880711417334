import AfyxGraph.Core.Breadth
import AfyxGraph.Core.Loop
import AfyxGraph.Graph.Reader
import Mathlib.Data.List.Chain
import Mathlib.Data.List.Perm.Subperm

/-! # Shortest routes

`shortestRoute` is a breadth-first search over outgoing edges. Arrivals point to the arrival they
come from, so that a route is assembled once, from the goal back.
-/

namespace AfyxGraph.Graph

open AfyxGraph.Core Extraction

/-- `edge` is absent at the origin. -/
structure RouteStop where
  node : Node
  edge : Option Edge
  deriving DecidableEq, Repr

/-- `previous` is `none` for `-1`. -/
structure Arrival where
  node : Node
  edge : Option Edge
  previous : Option Nat
  deriving DecidableEq, Repr

structure RouteSearch where
  arrivals : List Arrival
  claimed : List String
  head : Nat

/-- One turn of the inner loop. -/
def RouteSearch.claim (found : Found) (head : Nat) (w : RouteSearch) (edge : Edge) : RouteSearch :=
  if edge.target ∈ w.claimed then w
  else
    match found.get edge.target with
    | none => w
    | some node =>
        { w with
          claimed := w.claimed ++ [edge.target]
          arrivals := w.arrivals ++ [⟨node, some edge, some head⟩] }

/-- From the arrival at an index back to the origin. -/
def stopsBack (arrivals : List Arrival) : (fuel : Nat) → Option Nat → List RouteStop
  | fuel + 1, some at_ =>
      match arrivals[at_]? with
      | some arrival => ⟨arrival.node, arrival.edge⟩ :: stopsBack arrivals fuel arrival.previous
      | none => []
  | _, _ => []

/-- An arrival comes from an earlier one. -/
def assemble (arrivals : List Arrival) (last : Nat) : List RouteStop :=
  (stopsBack arrivals arrivals.length (some last)).reverse

namespace GraphReader

variable (store : GraphReader) (fromId toId : String) (kinds : List EdgeKind)

/-- One turn of the outer loop; it ends at the goal and behind the last arrival. -/
def routeTurn (w : RouteSearch) : Option RouteSearch :=
  match w.arrivals[w.head]? with
  | none => none
  | some here =>
      if here.node.id = toId then none
      else
        let outgoing := store.getOutgoingEdges here.node.id kinds
        let unclaimed := (outgoing.map (·.target)).filter (· ∉ w.claimed)
        let found := store.getNodesByIds unclaimed
        some { outgoing.foldl (RouteSearch.claim found w.head) w with head := w.head + 1 }

/-- Every node is claimed once. -/
def routeSearch (origin : Node) : RouteSearch :=
  loop (store.routeTurn toId kinds) (store.nodes.length + 1)
    ⟨[⟨origin, none, none⟩], [fromId], 0⟩

def shortestRoute : Option (List RouteStop) :=
  match store.getNodeById fromId, store.getNodeById toId with
  | some origin, some _ =>
      let w := store.routeSearch fromId toId kinds origin
      (w.arrivals[w.head]?).map fun _ => assemble w.arrivals w.head
  | _, _ => none

/-! ## What it is to find -/

/-- An outgoing edge of an allowed kind to an existing node. -/
def Leads (u v : String) : Prop :=
  ∃ e ∈ store.getOutgoingEdges u kinds, e.target = v ∧ (store.getNodeById v).isSome = true

/-- The edge of the second stop leads there from the first one. -/
def Connects (a b : RouteStop) : Prop :=
  ∃ e ∈ store.getOutgoingEdges a.node.id kinds, b.edge = some e ∧ e.target = b.node.id

structure IsRoute (stops : List RouteStop) : Prop where
  departs : ∃ origin, store.getNodeById fromId = some origin ∧ stops.head? = some ⟨origin, none⟩
  arrives : stops.getLast?.map (·.node.id) = some toId
  joined : stops.IsChain (store.Connects kinds)
  stored : ∀ stop ∈ stops, store.getNodeById stop.node.id = some stop.node
  once : (stops.map (·.node.id)).Nodup

/-- `null` without nodes or path, otherwise a route with no more edges than any path. -/
structure FindsShortest : Prop where
  none_iff : store.shortestRoute fromId toId kinds = none ↔
    store.getNodeById fromId = none ∨ store.getNodeById toId = none ∨
      ¬ ∃ k, Steps (store.Leads kinds) (· = fromId) k toId
  route : ∀ stops, store.shortestRoute fromId toId kinds = some stops →
    store.IsRoute fromId toId kinds stops ∧
      ∀ k, Steps (store.Leads kinds) (· = fromId) k toId → stops.length ≤ k + 1

/-! ## The search -/

variable {store fromId toId kinds}

/-- What the inner loop adds: an arrival for every target that is new and found. -/
structure NewArrivals (found : Found) (head : Nat) (edges : List Edge) (claimed : List String)
    (new : List Arrival) : Prop where
  once : (new.map (·.node.id)).Nodup
  fresh : ∀ a ∈ new, a.node.id ∉ claimed
  arrived : ∀ a ∈ new, a.previous = some head ∧ ∃ e ∈ edges, a.edge = some e ∧
    e.target = a.node.id ∧ found.get a.node.id = some a.node
  all : ∀ e ∈ edges, (found.get e.target).isSome = true →
    e.target ∈ claimed ∨ e.target ∈ new.map (·.node.id)

theorem NewArrivals.keep {found : Found} {head : Nat} {edge : Edge} {edges : List Edge}
    {claimed : List String} {new : List Arrival} (h : NewArrivals found head edges claimed new)
    (hkeep : edge.target ∈ claimed ∨ found.get edge.target = none) :
    NewArrivals found head (edge :: edges) claimed new where
  once := h.once
  fresh := h.fresh
  arrived a ha := by
    obtain ⟨hprevious, e, he, hedge⟩ := h.arrived a ha
    exact ⟨hprevious, e, List.mem_cons_of_mem _ he, hedge⟩
  all e he hsome := by
    rcases List.mem_cons.mp he with rfl | he
    · rcases hkeep with hclaimed | hnone
      · exact .inl hclaimed
      · rw [hnone] at hsome
        cases hsome
    · exact h.all e he hsome

theorem claimAll_spec (found : Found) (head : Nat) (edges : List Edge) (w : RouteSearch) :
    ∃ new : List Arrival, NewArrivals found head edges w.claimed new ∧
      (edges.foldl (RouteSearch.claim found head) w).arrivals = w.arrivals ++ new ∧
      (edges.foldl (RouteSearch.claim found head) w).claimed =
        w.claimed ++ new.map (·.node.id) := by
  induction edges generalizing w with
  | nil =>
      refine ⟨[], ⟨List.nodup_nil, ?_, ?_, ?_⟩, by simp, by simp⟩
      · exact fun a ha => absurd ha List.not_mem_nil
      · exact fun a ha => absurd ha List.not_mem_nil
      · exact fun e he => absurd he List.not_mem_nil
  | cons edge edges ih =>
      rw [List.foldl_cons]
      by_cases hclaimed : edge.target ∈ w.claimed
      · have hsame : w.claim found head edge = w := if_pos hclaimed
        rw [hsame]
        obtain ⟨new, hnew, hrest⟩ := ih w
        exact ⟨new, hnew.keep (.inl hclaimed), hrest⟩
      · cases hfound : found.get edge.target with
        | none =>
            have hsame : w.claim found head edge = w := by
              rw [RouteSearch.claim, if_neg hclaimed, hfound]
            rw [hsame]
            obtain ⟨new, hnew, hrest⟩ := ih w
            exact ⟨new, hnew.keep (.inr hfound), hrest⟩
        | some node =>
            have hid : node.id = edge.target := Found.get_id hfound
            have hclaim : w.claim found head edge =
                ⟨w.arrivals ++ [⟨node, some edge, some head⟩], w.claimed ++ [edge.target],
                  w.head⟩ := by
              rw [RouteSearch.claim, if_neg hclaimed, hfound]
            rw [hclaim]
            obtain ⟨new, hnew, harrivals, hids⟩ := ih
              ⟨w.arrivals ++ [⟨node, some edge, some head⟩], w.claimed ++ [edge.target], w.head⟩
            refine ⟨⟨node, some edge, some head⟩ :: new, ?_, by simp [harrivals], by
              simp [hids, hid]⟩
            constructor
            · rw [List.map_cons, List.nodup_cons]
              refine ⟨fun hmem => ?_, hnew.once⟩
              obtain ⟨a, ha, hsame⟩ := List.mem_map.mp hmem
              apply hnew.fresh a ha
              simp [hsame, hid]
            · intro a ha
              rcases List.mem_cons.mp ha with rfl | ha
              · exact hid ▸ hclaimed
              · exact fun hmem => hnew.fresh a ha (List.mem_append_left _ hmem)
            · intro a ha
              rcases List.mem_cons.mp ha with rfl | ha
              · exact ⟨rfl, edge, List.mem_cons_self .., rfl, hid.symm, hid ▸ hfound⟩
              · obtain ⟨hprevious, e, he, hedge⟩ := hnew.arrived a ha
                exact ⟨hprevious, e, List.mem_cons_of_mem _ he, hedge⟩
            · intro e he hsome
              rcases List.mem_cons.mp he with rfl | he
              · exact .inr (by simp [hid])
              · rcases hnew.all e he hsome with hmem | hmem
                · rcases List.mem_append.mp hmem with hmem | hmem
                  · exact .inl hmem
                  · exact .inr (by simp [List.mem_singleton.mp hmem, hid])
                · exact .inr (List.mem_cons_of_mem _ hmem)

/-! ## Arrivals in a line -/

/-- The depth of an arrival beside it. -/
def lineKey (x : Arrival × Nat) : String × Nat := (x.1.node.id, x.2)

/-- An arrival is the origin, or follows an edge from an arrival before it. -/
def Linked (store : GraphReader) (kinds : List EdgeKind) (origin : Node)
    (queue : List (Arrival × Nat)) (i : Nat) (x : Arrival × Nat) : Prop :=
  x = (⟨origin, none, none⟩, 0) ∨
    ∃ p b d e, p < i ∧ x.1.previous = some p ∧ queue[p]? = some (b, d) ∧ x.2 = d + 1 ∧
      x.1.edge = some e ∧ e ∈ store.getOutgoingEdges b.node.id kinds ∧ e.target = x.1.node.id

/-- What holds between two turns, `line` being the arrivals with their depths. -/
structure RouteInv (store : GraphReader) (fromId toId : String) (kinds : List EdgeKind)
    (origin : Node) (w : RouteSearch) (queue : List (Arrival × Nat)) : Prop where
  arrivals : queue.map Prod.fst = w.arrivals
  claimed : w.claimed = w.arrivals.map (·.node.id)
  head : w.head ≤ w.arrivals.length
  breadth : Breadth.Line (store.Leads kinds) fromId ⊤ lineKey queue w.head
  stored : ∀ x ∈ queue, store.getNodeById x.1.node.id = some x.1.node
  linked : ∀ i x, queue[i]? = some x → Linked store kinds origin queue i x
  missed : ∀ x ∈ queue.take w.head, x.1.node.id ≠ toId

theorem routeInv_start {origin : Node} (h : store.getNodeById fromId = some origin) :
    RouteInv store fromId toId kinds origin ⟨[⟨origin, none, none⟩], [fromId], 0⟩
      [(⟨origin, none, none⟩, 0)] where
  arrivals := rfl
  claimed := by
    rw [List.map_cons, List.map_nil, getNodeById_id h]
  head := Nat.zero_le _
  breadth := by
    have hkey : lineKey (⟨origin, none, none⟩, 0) = (fromId, 0) := by
      rw [lineKey, getNodeById_id h]
    simpa [Breadth.Line, hkey] using Breadth.inv_init (store.Leads kinds) fromId ⊤
  stored x hx := by
    obtain rfl := List.mem_singleton.mp hx
    show store.getNodeById origin.id = some origin
    rw [getNodeById_id h, h]
  linked i x hx := by
    cases i with
    | zero =>
        obtain rfl : (⟨origin, none, none⟩, 0) = x := by simpa using hx
        exact .inl rfl
    | succ i => simp at hx
  missed x hx := absurd hx List.not_mem_nil

/-- A turn expands the head. -/
theorem routeTurn_cases {w w' : RouteSearch} (h : store.routeTurn toId kinds w = some w') :
    ∃ here, w.arrivals[w.head]? = some here ∧ here.node.id ≠ toId ∧
      w' = { (store.getOutgoingEdges here.node.id kinds).foldl
        (RouteSearch.claim (store.getNodesByIds (((store.getOutgoingEdges here.node.id kinds).map
          (·.target)).filter (· ∉ w.claimed))) w.head) w with head := w.head + 1 } := by
  unfold routeTurn at h
  cases hhere : w.arrivals[w.head]? with
  | none => simp [hhere] at h
  | some here =>
      simp only [hhere, Option.ite_none_left_eq_some, Option.some.injEq] at h
      exact ⟨here, rfl, h.1, h.2.symm⟩

theorem routeTurn_inv {origin : Node} {w w' : RouteSearch} {queue : List (Arrival × Nat)}
    (hinv : RouteInv store fromId toId kinds origin w queue)
    (h : store.routeTurn toId kinds w = some w') :
    ∃ queue', RouteInv store fromId toId kinds origin w' queue' := by
  obtain ⟨here, hhere, hgoal, rfl⟩ := routeTurn_cases h
  generalize hfound : store.getNodesByIds (((store.getOutgoingEdges here.node.id kinds).map
    (·.target)).filter (· ∉ w.claimed)) = found
  obtain ⟨new, hnew, harrivals, hclaimed⟩ :=
    claimAll_spec found w.head (store.getOutgoingEdges here.node.id kinds) w
  have hhead : w.head < queue.length := by
    have hlt := (List.getElem?_eq_some_iff.mp hhere).1
    rwa [← hinv.arrivals, List.length_map] at hlt
  obtain ⟨d, hline⟩ : ∃ d, queue[w.head]? = some (here, d) := by
    have hmap : (queue.map Prod.fst)[w.head]? = some here := hinv.arrivals ▸ hhere
    rw [List.getElem?_map, Option.map_eq_some_iff] at hmap
    obtain ⟨⟨a, d⟩, hx, rfl⟩ := hmap
    exact ⟨d, hx⟩
  -- a new target is looked up as it is stored
  have hget : ∀ e ∈ store.getOutgoingEdges here.node.id kinds, e.target ∉ w.claimed →
      found.get e.target = store.getNodeById e.target := by
    intro e he hout
    rw [← hfound]
    apply get_getNodesByIds
    exact List.mem_filter.mpr ⟨List.mem_map_of_mem he, by simpa using hout⟩
  have hkeys : queue.map (fun x => (lineKey x).1) = w.claimed := by
    rw [hinv.claimed, ← hinv.arrivals, List.map_map]
    rfl
  have htakeSucc : (queue ++ new.map (·, d + 1)).take (w.head + 1) =
      queue.take w.head ++ [(here, d)] := by
    rw [List.take_append_of_le_length hhead, List.take_add_one, hline]
    rfl
  have hnode : ∀ a ∈ new, store.getNodeById a.node.id = some a.node := by
    intro a ha
    obtain ⟨-, e, he, -, htarget, hsome⟩ := hnew.arrived a ha
    have hout : e.target ∉ w.claimed := htarget ▸ hnew.fresh a ha
    rw [← htarget] at hsome ⊢
    rw [← hget e he hout]
    exact hsome
  refine ⟨queue ++ new.map (·, d + 1), ?_, ?_, ?_, ?_, ?_, ?_, ?_⟩
  · simp [hinv.arrivals, harrivals, Function.comp_def]
  · simp [hclaimed, harrivals, hinv.claimed]
  · rw [harrivals, List.length_append, ← hinv.arrivals, List.length_map]
    show w.head + 1 ≤ _
    omega
  · refine hinv.breadth.advance hline ?_ ?_ ?_ ?_
    · rw [List.map_map]
      exact hnew.once
    · intro x hx
      obtain ⟨a, -, rfl⟩ := List.mem_map.mp hx
      rfl
    · intro x hx
      obtain ⟨a, ha, rfl⟩ := List.mem_map.mp hx
      obtain ⟨-, e, he, -, htarget, -⟩ := hnew.arrived a ha
      refine ⟨WithTop.coe_lt_top _, ⟨e, he, htarget, ?_⟩, hkeys ▸ hnew.fresh a ha⟩
      rw [show (lineKey (a, d + 1)).1 = a.node.id from rfl, hnode a ha]
      rfl
    · rintro - id ⟨e, he, rfl, hsome⟩
      rw [List.map_append, List.map_map, hkeys, List.mem_append]
      by_cases hmem : e.target ∈ w.claimed
      · exact .inl hmem
      · exact hnew.all e he (by rw [hget e he hmem]; exact hsome)
  · intro x hx
    rcases List.mem_append.mp hx with hx | hx
    · exact hinv.stored x hx
    · obtain ⟨a, ha, rfl⟩ := List.mem_map.mp hx
      exact hnode a ha
  · intro i x hx
    by_cases hi : i < queue.length
    · rw [List.getElem?_append_left hi] at hx
      rcases hinv.linked i x hx with horigin | ⟨p, b, e, edge, hlt, hprevious, hp, hrest⟩
      · exact .inl horigin
      · refine .inr ⟨p, b, e, edge, hlt, hprevious, ?_, hrest⟩
        rw [List.getElem?_append_left (by omega)]
        exact hp
    · rw [List.getElem?_append_right (Nat.le_of_not_lt hi)] at hx
      obtain ⟨a, ha, rfl⟩ := List.mem_map.mp (List.mem_of_getElem? hx)
      obtain ⟨hprevious, e, he, hedge, htarget, -⟩ := hnew.arrived a ha
      refine .inr ⟨w.head, here, d, e, by omega, hprevious, ?_, rfl, hedge, he, htarget⟩
      rw [List.getElem?_append_left hhead]
      exact hline
  · intro x hx
    change x ∈ (queue ++ new.map (·, d + 1)).take (w.head + 1) at hx
    rw [htakeSucc] at hx
    rcases List.mem_append.mp hx with hx | hx
    · exact hinv.missed x hx
    · obtain rfl := List.mem_singleton.mp hx
      exact hgoal

/-! ## The loop ends -/

theorem length_arrivals_le {origin : Node} {w : RouteSearch} {queue : List (Arrival × Nat)}
    (hinv : RouteInv store fromId toId kinds origin w queue) :
    w.arrivals.length ≤ store.nodes.length := by
  have hnodup : (w.arrivals.map (·.node.id)).Nodup := by
    rw [← hinv.arrivals, List.map_map]
    exact hinv.breadth.once
  have hsubset : w.arrivals.map (·.node.id) ⊆ store.nodes.map (·.id) := by
    intro id hid
    obtain ⟨a, ha, rfl⟩ := List.mem_map.mp hid
    rw [← hinv.arrivals] at ha
    obtain ⟨x, hx, rfl⟩ := List.mem_map.mp ha
    exact List.mem_map_of_mem (getNodeById_mem (hinv.stored x hx))
  have hle := (List.subperm_of_subset hnodup hsubset).length_le
  simpa using hle

theorem routeSearch_end {origin : Node} (h : store.getNodeById fromId = some origin) :
    (∃ queue, RouteInv store fromId toId kinds origin
      (store.routeSearch fromId toId kinds origin) queue) ∧
      store.routeTurn toId kinds (store.routeSearch fromId toId kinds origin) = none := by
  have hkeeps : ∀ w w', (∃ queue, RouteInv store fromId toId kinds origin w queue) →
      store.routeTurn toId kinds w = some w' →
      ∃ queue, RouteInv store fromId toId kinds origin w' queue := by
    rintro w w' ⟨queue, hinv⟩ hturn
    exact routeTurn_inv hinv hturn
  have hstart : ∃ queue, RouteInv store fromId toId kinds origin
      ⟨[⟨origin, none, none⟩], [fromId], 0⟩ queue := ⟨_, routeInv_start h⟩
  refine ⟨loop_invariant hkeeps _ hstart, ?_⟩
  apply @loop_stops _ _ _ (fun w => store.nodes.length + 1 - w.head) hkeeps ?_ _ _ hstart
  · exact Nat.sub_le _ _
  · rintro w w' ⟨queue, hinv⟩ hturn
    obtain ⟨here, hhere, -, rfl⟩ := routeTurn_cases hturn
    have hlt := (List.getElem?_eq_some_iff.mp hhere).1
    have hle := length_arrivals_le hinv
    show store.nodes.length + 1 - (w.head + 1) < store.nodes.length + 1 - w.head
    omega

/-! ## The route is put together -/

variable (store fromId kinds) in
/-- The stops up to an arrival of a given depth. -/
structure RouteTo (origin : Node) (a : Arrival) (d : Nat) (stops : List RouteStop) : Prop where
  departs : stops.head? = some ⟨origin, none⟩
  arrives : stops.getLast? = some ⟨a.node, a.edge⟩
  joined : stops.IsChain (store.Connects kinds)
  stored : ∀ stop ∈ stops, store.getNodeById stop.node.id = some stop.node
  layers : ∀ i stop, stops[i]? = some stop →
    AtDistance (store.Leads kinds) (· = fromId) i stop.node.id
  length : stops.length = d + 1

/-- By induction on the index: the arrival before is earlier in the line and one level nearer. -/
theorem stopsBack_routeTo {origin : Node} {w : RouteSearch} {queue : List (Arrival × Nat)}
    (hinv : RouteInv store fromId toId kinds origin w queue) {i fuel : Nat} (hfuel : i < fuel)
    {a : Arrival} {d : Nat} (hi : queue[i]? = some (a, d)) :
    RouteTo store fromId kinds origin a d (stopsBack w.arrivals fuel (some i)).reverse := by
  induction i using Nat.strong_induction_on generalizing fuel a d with
  | _ i ih =>
      obtain ⟨fuel, rfl⟩ : ∃ f, fuel = f + 1 := ⟨fuel - 1, by omega⟩
      have hmem := List.mem_of_getElem? hi
      have hdistance := hinv.breadth.distance _ hmem
      have harrival : w.arrivals[i]? = some a := by
        rw [← hinv.arrivals, List.getElem?_map, hi]
        rfl
      have hback : (stopsBack w.arrivals (fuel + 1) (some i)).reverse =
          (stopsBack w.arrivals fuel a.previous).reverse ++ [⟨a.node, a.edge⟩] := by
        simp only [stopsBack, harrival, List.reverse_cons]
      rw [hback]
      rcases hinv.linked i _ hi with horigin | ⟨p, b, e, edge, hlt, hprevious, hp, hd, hrest⟩
      · obtain ⟨rfl, rfl⟩ := Prod.mk.inj horigin
        have hnone : (stopsBack w.arrivals fuel none).reverse = [] := by
          cases fuel <;> rfl
        rw [hnone]
        refine ⟨rfl, rfl, List.isChain_singleton _, ?_, ?_, rfl⟩
        · intro stop hstop
          obtain rfl := List.mem_singleton.mp hstop
          exact hinv.stored _ hmem
        · intro j stop hstop
          cases j with
          | zero =>
              obtain rfl : RouteStop.mk origin none = stop := by simpa using hstop
              exact hdistance
          | succ j => simp at hstop
      · obtain ⟨hedge, hout, htarget⟩ := hrest
        obtain rfl : d = e + 1 := hd
        rw [show a.previous = some p from hprevious]
        have hbefore := ih p hlt (show p < fuel by omega) hp
        generalize (stopsBack w.arrivals fuel (some p)).reverse = stops at hbefore
        constructor
        · rw [List.head?_append, hbefore.departs]
          rfl
        · rw [List.getLast?_append]
          rfl
        · rw [List.isChain_append]
          refine ⟨hbefore.joined, List.isChain_singleton _, ?_⟩
          intro x hx y hy
          rw [hbefore.arrives] at hx
          obtain rfl : RouteStop.mk b.node b.edge = x := by simpa using hx
          obtain rfl : RouteStop.mk a.node a.edge = y := by simpa using hy
          exact ⟨edge, hout, hedge, htarget⟩
        · intro stop hstop
          rcases List.mem_append.mp hstop with hstop | hstop
          · exact hbefore.stored stop hstop
          · obtain rfl := List.mem_singleton.mp hstop
            exact hinv.stored _ hmem
        · intro j stop hstop
          by_cases hj : j < stops.length
          · rw [List.getElem?_append_left hj] at hstop
            exact hbefore.layers j stop hstop
          · rw [List.getElem?_append_right (Nat.le_of_not_lt hj), List.getElem?_singleton] at hstop
            simp only [Option.ite_none_right_eq_some, Option.some.injEq] at hstop
            obtain ⟨hj', rfl⟩ := hstop
            obtain rfl : j = e + 1 := by
              have hlength := hbefore.length
              omega
            exact hdistance
        · rw [List.length_append, hbefore.length]
          rfl

theorem RouteTo.once {origin : Node} {a : Arrival} {d : Nat} {stops : List RouteStop}
    (h : RouteTo store fromId kinds origin a d stops) : (stops.map (·.node.id)).Nodup := by
  rw [List.nodup_iff_pairwise_ne, List.pairwise_map, List.pairwise_iff_getElem]
  intro i j hi hj hlt heq
  have hdi := h.layers i stops[i] (List.getElem?_eq_getElem hi)
  have hdj := h.layers j stops[j] (List.getElem?_eq_getElem hj)
  rw [heq] at hdi
  have := hdi.unique hdj
  omega

/-! ## The search finds a shortest route -/

theorem shortestRoute_of_nodes {origin goal : Node}
    (horigin : store.getNodeById fromId = some origin)
    (hgoal : store.getNodeById toId = some goal) :
    store.shortestRoute fromId toId kinds =
      ((store.routeSearch fromId toId kinds origin).arrivals[
        (store.routeSearch fromId toId kinds origin).head]?).map fun _ =>
          assemble (store.routeSearch fromId toId kinds origin).arrivals
            (store.routeSearch fromId toId kinds origin).head := by
  rw [shortestRoute, horigin, hgoal]

/-- With both nodes, the search ends behind the last arrival and there is no path, or at the
goal. -/
theorem shortestRoute_cases {origin goal : Node} (horigin : store.getNodeById fromId = some origin)
    (hgoal : store.getNodeById toId = some goal) :
    (store.shortestRoute fromId toId kinds = none ∧
      ∀ k, ¬ Steps (store.Leads kinds) (· = fromId) k toId) ∨
    ∃ a d stops, store.shortestRoute fromId toId kinds = some stops ∧ a.node.id = toId ∧
      RouteTo store fromId kinds origin a d stops := by
  obtain ⟨⟨queue, hinv⟩, hend⟩ := @routeSearch_end store fromId toId kinds origin horigin
  rw [shortestRoute_of_nodes horigin hgoal]
  generalize store.routeSearch fromId toId kinds origin = w at hinv hend
  have hlength : queue.length = w.arrivals.length := by rw [← hinv.arrivals, List.length_map]
  cases hhere : w.arrivals[w.head]? with
  | none =>
      left
      have hle : queue.length ≤ w.head := hlength ▸ List.getElem?_eq_none_iff.mp hhere
      have hmissed := hinv.missed
      rw [List.take_of_length_le hle] at hmissed
      refine ⟨rfl, fun k hk => ?_⟩
      obtain ⟨j, -, hdist⟩ := hk.exists_distance
      have hmem := (hinv.breadth.complete hle).mpr ⟨le_top, hdist⟩
      obtain ⟨x, hx, hkey⟩ := List.mem_map.mp hmem
      exact hmissed x hx (congrArg Prod.fst hkey)
  | some here =>
      right
      have hid : here.node.id = toId := by
        simpa [routeTurn, hhere] using hend
      have hlt : w.head < queue.length := hlength ▸ (List.getElem?_eq_some_iff.mp hhere).1
      have hline : queue[w.head]? = some (here, queue[w.head].2) := by
        rw [List.getElem?_eq_getElem hlt, Option.some_inj]
        have hfst := hinv.arrivals ▸ hhere
        rw [List.getElem?_map, List.getElem?_eq_getElem hlt] at hfst
        exact Prod.ext (Option.some.inj hfst) rfl
      exact ⟨here, _, _, rfl, hid, stopsBack_routeTo hinv (hlength ▸ hlt) hline⟩

/-- Correct and with the fewest edges, for all nodes and kinds. -/
theorem shortestRoute_findsShortest (store : GraphReader) (fromId toId : String)
    (kinds : List EdgeKind) : store.FindsShortest fromId toId kinds := by
  cases horigin : store.getNodeById fromId with
  | none =>
      have hnone : store.shortestRoute fromId toId kinds = none := by rw [shortestRoute, horigin]
      refine ⟨by simp [hnone, horigin], fun stops h => ?_⟩
      rw [hnone] at h
      cases h
  | some origin =>
      cases hgoal : store.getNodeById toId with
      | none =>
          have hnone : store.shortestRoute fromId toId kinds = none := by
            rw [shortestRoute, horigin, hgoal]
          refine ⟨by simp [hnone, hgoal], fun stops h => ?_⟩
          rw [hnone] at h
          cases h
      | some goal =>
          rcases @shortestRoute_cases store fromId toId kinds origin goal horigin hgoal with
            ⟨hnone, hpath⟩ | ⟨a, d, stops, hsome, hid, hroute⟩
          · refine ⟨by simp [hnone, hpath], fun stops h => ?_⟩
            rw [hnone] at h
            cases h
          · have hlast : stops[d]? = some ⟨a.node, a.edge⟩ := by
              have harrives := hroute.arrives
              rw [List.getLast?_eq_getElem?, hroute.length] at harrives
              exact harrives
            have hdist := hroute.layers d _ hlast
            rw [show RouteStop.node ⟨a.node, a.edge⟩ = a.node from rfl, hid] at hdist
            constructor
            · rw [hsome, horigin, hgoal]
              simp only [reduceCtorEq, false_or, false_iff, not_not]
              exact ⟨d, hdist.1⟩
            · rintro stops' h
              obtain rfl := Option.some.inj (hsome.symm.trans h)
              refine ⟨⟨⟨origin, horigin, hroute.departs⟩, ?_, hroute.joined, hroute.stored,
                hroute.once⟩, fun k hk => ?_⟩
              · rw [hroute.arrives, Option.map_some, hid]
              · rw [hroute.length]
                exact Nat.succ_le_succ (hdist.2 k hk)

end GraphReader

end AfyxGraph.Graph
