import AfyxGraph.Core.Components
import AfyxGraph.Ui.MapLayering

/-! # Cycles of modules

`moduleCycles` is a depth-first search that keeps the modules of open components on a stack. The
`low` of a module is the least index on the stack that the search has seen its part lead to; where
it is the module's own index, the stack down to the module is a component.
-/

namespace AfyxGraph.Ui

open AfyxGraph.Core AfyxGraph.Runtime

/-- The top of the stack is its head. -/
structure ComponentSearch where
  index : DepthTable
  low : DepthTable
  onStack : List JsString
  stack : List JsString
  found : List (List JsString)
  counter : Nat
  deriving DecidableEq, Repr

namespace ComponentSearch

def enter (s : ComponentSearch) (id : JsString) : ComponentSearch :=
  { s with
    index := setEntry s.index id s.counter
    low := setEntry s.low id s.counter
    counter := s.counter + 1
    stack := id :: s.stack
    onStack := id :: s.onStack }

/-- `low.set(id, Math.min(low.get(id) ?? 0, value))` -/
def lower (s : ComponentSearch) (id : JsString) (value : Nat) : ComponentSearch :=
  { s with low := setEntry s.low id (min ((s.low.lookup id).getD 0) value) }

/-- What is popped until the module has been, and what is left. -/
def popUntil (id : JsString) : List JsString → List JsString × List JsString
  | [] => ([], [])
  | popped :: stack =>
      if popped = id then ([popped], stack)
      else
        let (component, rest) := popUntil id stack
        (popped :: component, rest)

def finish (s : ComponentSearch) (id : JsString) : ComponentSearch :=
  if s.low.lookup id = s.index.lookup id then
    let (component, stack) := popUntil id s.stack
    { s with
      stack := stack
      onStack := s.onStack.filter (· ∉ component)
      found := if 2 < component.length then s.found ++ [sortIds component] else s.found }
  else s

end ComponentSearch

open ComponentSearch

section Search

variable (ids : List JsString) (ends : List (JsString × JsString))

/-- One target in the loop of `id`. -/
def scanTarget (strongconnect : ComponentSearch → JsString → ComponentSearch) (id : JsString)
    (s : ComponentSearch) (next : JsString) : ComponentSearch :=
  if (s.index.lookup next).isNone then
    let s := strongconnect s next
    s.lower id ((s.low.lookup next).getD 0)
  else if next ∈ s.onStack then s.lower id ((s.index.lookup next).getD 0)
  else s

/-- Each call inside of another enters a module that had no index. -/
def strongconnect : Nat → ComponentSearch → JsString → ComponentSearch
  | 0, s, _ => s
  | calls + 1, s, id =>
      ((outList ids ends id).foldl (scanTarget (strongconnect calls) id) (s.enter id)).finish id

/-- All that can be given an index. -/
def searched : List JsString := ids ++ ends.map Prod.snd

def connectAll : ComponentSearch :=
  (sortIds ids).foldl
    (fun s id =>
      if (s.index.lookup id).isNone then strongconnect ids ends (searched ids ends).length s id
      else s)
    ⟨[], [], [], [], [], 0⟩

/-- The longest first, then by `localeCompare` of the first module. -/
def moduleCycles (localeCompare : JsString → JsString → Ordering) : List (List JsString) :=
  (connectAll ids ends).found.mergeSort fun a b =>
    b.length < a.length || (b.length = a.length &&
      localeCompare (a.headD []) (b.headD []) ≠ .gt)

end Search

namespace ModuleCycles

open MapLayering

variable (ids : List JsString) (ends : List (JsString × JsString))

/-- The cycles are the components with three modules or more. -/
structure CyclesAreComponents (cycles : List (List JsString)) : Prop where
  component : ∀ cycle ∈ cycles,
    cycle.Nodup ∧ 2 < cycle.length ∧ IsComponent (Linked ids ends) cycle
  once : cycles.Pairwise List.Disjoint
  every : ∀ a b c, SameComponent (Linked ids ends) a b → SameComponent (Linked ids ends) a c →
    a ≠ b → a ≠ c → b ≠ c →
      ∃ cycle ∈ cycles, ∀ w, w ∈ cycle ↔ SameComponent (Linked ids ends) a w

/-! ## The invariant -/

def rank (s : ComponentSearch) (v : JsString) : Nat := (s.index.lookup v).getD 0

/-- Met and no longer on the stack. -/
def Closed (s : ComponentSearch) (v : JsString) : Prop :=
  (s.index.lookup v).isSome ∧ v ∉ s.stack

/-- The cycles found so far are the components among the closed modules. -/
structure Found (closed : JsString → Prop) (found : List (List JsString)) : Prop where
  component : ∀ cycle ∈ found, cycle.Nodup ∧ 2 < cycle.length ∧
    IsComponent (Linked ids ends) cycle ∧ ∀ w ∈ cycle, closed w
  once : found.Pairwise List.Disjoint
  every : ∀ a b c, closed a → SameComponent (Linked ids ends) a b →
    SameComponent (Linked ids ends) a c → a ≠ b → a ≠ c → b ≠ c →
      ∃ cycle ∈ found, ∀ w, w ∈ cycle ↔ SameComponent (Linked ids ends) a w

structure SearchInv (path : List JsString) (s : ComponentSearch) : Prop where
  stack : OpenStack (Linked ids ends) (rank s) path s.stack (Closed s)
  met : ∀ v ∈ s.stack, (s.index.lookup v).isSome
  onStack : ∀ v, v ∈ s.onStack ↔ v ∈ s.stack
  counter : ∀ v n, s.index.lookup v = some n → n < s.counter
  found : Found ids ends (Closed s) s.found

/-- What is known about a module stays known while others are searched. -/
structure Keeps (s s' : ComponentSearch) : Prop where
  index : ∀ v n, s.index.lookup v = some n → s'.index.lookup v = some n
  low : ∀ v, (s.index.lookup v).isSome → s'.low.lookup v = s.low.lookup v

/-- After the call for `id`: `low` bounds where its part of the stack leads to. -/
structure Connected (path : List JsString) (s s' : ComponentSearch) (id : JsString) : Prop where
  inv : SearchInv ids ends path s'
  keeps : Keeps s s'
  entered : (s'.index.lookup id).isSome
  part : ∃ above least, s'.stack = above ++ s.stack ∧ s'.low.lookup id = some least ∧
    (s.counter ≤ least ∨ ∃ z ∈ s'.stack, rank s' z = least ∧
      Relation.ReflTransGen (Linked ids ends) id z) ∧
    ∀ u ∈ above, ∀ v ∈ s.stack, Linked ids ends u v → least ≤ rank s v

/-- In the loop of `id`, when some of the targets have been scanned. -/
structure Scanning (path : List JsString) (s s' : ComponentSearch) (id : JsString)
    (scanned : List JsString) : Prop where
  before : SearchInv ids ends path s
  fresh : s.index.lookup id = none
  inv : SearchInv ids ends (id :: path) s'
  keeps : Keeps s s'
  entered : s'.index.lookup id = some s.counter
  met : ∀ v ∈ scanned, (s'.index.lookup v).isSome
  part : ∃ above least, s'.stack = above ++ id :: s.stack ∧ s'.low.lookup id = some least ∧
    least ≤ s.counter ∧
    (∃ z ∈ s'.stack, rank s' z = least ∧ Relation.ReflTransGen (Linked ids ends) id z) ∧
    (∀ u ∈ above, ∀ v ∈ s.stack, Linked ids ends u v → least ≤ rank s v) ∧
    ∀ v ∈ scanned, v ∈ s.stack → least ≤ rank s v

variable {ids ends} {path : List JsString} {s s' s'' : ComponentSearch} {id : JsString}

theorem Keeps.trans (h : Keeps s s') (h' : Keeps s' s'') : Keeps s s'' where
  index := fun v n hv => h'.index v n (h.index v n hv)
  low := by
    intro v hv
    obtain ⟨n, hn⟩ := Option.isSome_iff_exists.mp hv
    rw [h'.low v (by rw [h.index v n hn]; rfl), h.low v hv]

theorem Keeps.rank (h : Keeps s s') {v : JsString} (hv : (s.index.lookup v).isSome) :
    rank s' v = rank s v := by
  obtain ⟨n, hn⟩ := Option.isSome_iff_exists.mp hv
  rw [ModuleCycles.rank, ModuleCycles.rank, hn, h.index v n hn]

theorem Keeps.isSome (h : Keeps s s') {v : JsString} (hv : (s.index.lookup v).isSome) :
    (s'.index.lookup v).isSome := by
  obtain ⟨n, hn⟩ := Option.isSome_iff_exists.mp hv
  rw [h.index v n hn]
  rfl

theorem SearchInv.rank_lt (h : SearchInv ids ends path s) {v : JsString} (hv : v ∈ s.stack) :
    rank s v < s.counter := by
  obtain ⟨n, hn⟩ := Option.isSome_iff_exists.mp (h.met v hv)
  rw [rank, hn]
  exact h.counter v n hn

/-! ## Entering a module -/

theorem keeps_enter (hnew : s.index.lookup id = none) : Keeps s (s.enter id) where
  index := by
    intro v n hv
    have hne : v ≠ id := by
      rintro rfl
      rw [hnew] at hv
      cases hv
    exact (lookup_setEntry_ne _ _ hne).trans hv
  low := by
    intro v hv
    have hne : v ≠ id := by
      rintro rfl
      rw [hnew] at hv
      cases hv
    exact lookup_setEntry_ne _ _ hne

theorem closed_enter (hnew : s.index.lookup id = none) (v : JsString) :
    Closed (s.enter id) v ↔ Closed s v := by
  by_cases hid : v = id
  · subst hid
    refine iff_of_false (fun h => h.2 List.mem_cons_self) (fun h => ?_)
    have hsome := h.1
    rw [hnew] at hsome
    cases hsome
  · simp only [Closed, enter, lookup_setEntry_ne _ _ hid, List.mem_cons, hid, false_or]

theorem Found.congr {closed closed' : JsString → Prop} {found : List (List JsString)}
    (h : Found ids ends closed found) (hclosed : ∀ v, closed' v ↔ closed v) :
    Found ids ends closed' found := by
  obtain rfl : closed' = closed := funext fun v => propext (hclosed v)
  exact h

theorem SearchInv.enter (h : SearchInv ids ends path s) (hnew : s.index.lookup id = none)
    (hlead : ∀ x ∈ path, Relation.ReflTransGen (Linked ids ends) x id) :
    Scanning ids ends path s (s.enter id) id [] := by
  have hkeeps := keeps_enter hnew
  have hentered : (s.enter id).index.lookup id = some s.counter := lookup_setEntry_self _ _ _
  have hrank : ∀ v ∈ s.stack, rank (s.enter id) v = rank s v := fun v hv => hkeeps.rank (h.met v hv)
  have hself : rank (s.enter id) id = s.counter := by
    rw [rank, hentered]
    rfl
  refine ⟨h, hnew, ⟨?_, ?_, ?_, ?_, h.found.congr (closed_enter hnew)⟩, hkeeps, hentered,
    fun v hv => absurd hv List.not_mem_nil, ?_⟩
  · refine (h.stack.congr hrank (closed_enter hnew)).push ?_ ?_ hlead
    · exact fun hclosed => hclosed.2 List.mem_cons_self
    · intro v hv
      rw [hrank v hv, hself]
      exact h.rank_lt hv
  · intro v hv
    rcases List.mem_cons.mp hv with rfl | hv
    · rw [hentered]
      rfl
    · exact hkeeps.isSome (h.met v hv)
  · intro v
    exact (List.mem_cons.trans (or_congr_right (h.onStack v))).trans List.mem_cons.symm
  · intro v n hv
    by_cases hid : v = id
    · subst hid
      rw [hentered] at hv
      obtain rfl := Option.some.inj hv
      exact Nat.lt_succ_self _
    · have hold := h.counter v n ((lookup_setEntry_ne _ _ hid).symm.trans hv)
      exact Nat.lt_succ_of_lt hold
  · refine ⟨[], s.counter, rfl, lookup_setEntry_self _ _ _, Nat.le_refl _,
      ⟨id, List.mem_cons_self, hself, Relation.ReflTransGen.refl⟩,
      fun u hu => absurd hu List.not_mem_nil, fun v hv => absurd hv List.not_mem_nil⟩

/-! ## Scanning a target -/

theorem keeps_lower {value : Nat} (hkeeps : Keeps s s') (hnew : s.index.lookup id = none) :
    Keeps s (s'.lower id value) where
  index := hkeeps.index
  low := by
    intro v hv
    have hne : v ≠ id := by
      rintro rfl
      rw [hnew] at hv
      cases hv
    exact (lookup_setEntry_ne _ _ hne).trans (hkeeps.low v hv)

theorem SearchInv.lower (h : SearchInv ids ends path s) (id : JsString) (value : Nat) :
    SearchInv ids ends path (s.lower id value) := ⟨h.stack, h.met, h.onStack, h.counter, h.found⟩

theorem lookup_low_lower {least : Nat} (h : s.low.lookup id = some least) (value : Nat) :
    (s.lower id value).low.lookup id = some (min least value) := by
  rw [ComponentSearch.lower, h]
  exact lookup_setEntry_self _ _ _

/-- The target had no index: its call has been made. -/
theorem Scanning.called {scanned : List JsString} {next : JsString}
    (h : Scanning ids ends path s s' id scanned) (hlink : Linked ids ends id next)
    (hnext : s'.index.lookup next = none) (hcall : Connected ids ends (id :: path) s' s'' next) :
    Scanning ids ends path s (s''.lower id ((s''.low.lookup next).getD 0)) id
      (scanned ++ [next]) := by
  obtain ⟨above, least, hstack, hlow, hle, ⟨z, hz, hrank, hreach⟩, habove, hscanned⟩ := h.part
  obtain ⟨part, value, hstack', hvalue, hbound, hpart⟩ := hcall.part
  have hsome : (s'.index.lookup id).isSome := by rw [h.entered]; rfl
  have hlow' : s''.low.lookup id = some least := (hcall.keeps.low id hsome).trans hlow
  have hbelow : ∀ v ∈ s.stack, v ∈ s'.stack := by
    intro v hv
    rw [hstack]
    simp [hv]
  have hlater : s.counter ≤ s'.counter := Nat.le_of_lt (h.inv.counter id _ h.entered)
  rw [hvalue, Option.getD_some]
  refine ⟨h.before, h.fresh, hcall.inv.lower id value,
    keeps_lower (h.keeps.trans hcall.keeps) h.fresh, hcall.keeps.index id _ h.entered, ?_,
    part ++ above, min least value, ?_, lookup_low_lower hlow' value,
    Nat.le_trans (Nat.min_le_left _ _) hle, ?_, ?_, ?_⟩
  · intro v hv
    rcases List.mem_append.mp hv with hv | hv
    · exact hcall.keeps.isSome (h.met v hv)
    · rw [List.mem_singleton.mp hv]
      exact hcall.entered
  · exact hstack'.trans (by rw [hstack, List.append_assoc])
  · rcases Nat.le_total least value with hmin | hmin
    · rw [Nat.min_eq_left hmin]
      refine ⟨z, ?_, (hcall.keeps.rank (h.inv.met z hz)).trans hrank, hreach⟩
      exact hstack' ▸ List.mem_append_right part hz
    · rw [Nat.min_eq_right hmin]
      rcases hbound with hbound | ⟨z', hz', hrank', hreach'⟩
      · have heq : value = least := by omega
        refine ⟨z, ?_, (hcall.keeps.rank (h.inv.met z hz)).trans (hrank.trans heq.symm), hreach⟩
        exact hstack' ▸ List.mem_append_right part hz
      · exact ⟨z', hz', hrank', (Relation.ReflTransGen.single hlink).trans hreach'⟩
  · intro u hu v hv huv
    rcases List.mem_append.mp hu with hu | hu
    · have hle' := hpart u hu v (hbelow v hv) huv
      rw [h.keeps.rank (h.before.met v hv)] at hle'
      exact Nat.le_trans (Nat.min_le_right _ _) hle'
    · exact Nat.le_trans (Nat.min_le_left _ _) (habove u hu v hv huv)
  · intro v hv hmem
    rcases List.mem_append.mp hv with hv | hv
    · exact Nat.le_trans (Nat.min_le_left _ _) (hscanned v hv hmem)
    · rw [List.mem_singleton.mp hv] at hmem
      have hmet := h.inv.met next (hbelow next hmem)
      rw [hnext] at hmet
      cases hmet

/-- The target has an index and is on the stack. -/
theorem Scanning.lowered {scanned : List JsString} {next : JsString}
    (h : Scanning ids ends path s s' id scanned) (hlink : Linked ids ends id next)
    (hnext : next ∈ s'.stack) :
    Scanning ids ends path s (s'.lower id (rank s' next)) id (scanned ++ [next]) := by
  obtain ⟨above, least, hstack, hlow, hle, ⟨z, hz, hrank, hreach⟩, habove, hscanned⟩ := h.part
  refine ⟨h.before, h.fresh, h.inv.lower id _, keeps_lower h.keeps h.fresh, h.entered, ?_,
    above, min least (rank s' next), hstack, lookup_low_lower hlow _,
    Nat.le_trans (Nat.min_le_left _ _) hle, ?_, fun u hu v hv huv =>
      Nat.le_trans (Nat.min_le_left _ _) (habove u hu v hv huv), ?_⟩
  · intro v hv
    rcases List.mem_append.mp hv with hv | hv
    · exact h.met v hv
    · rw [List.mem_singleton.mp hv]
      exact h.inv.met next hnext
  · rcases Nat.le_total least (rank s' next) with hmin | hmin
    · rw [Nat.min_eq_left hmin]
      exact ⟨z, hz, hrank, hreach⟩
    · rw [Nat.min_eq_right hmin]
      exact ⟨next, hnext, rfl, Relation.ReflTransGen.single hlink⟩
  · intro v hv hmem
    rcases List.mem_append.mp hv with hv | hv
    · exact Nat.le_trans (Nat.min_le_left _ _) (hscanned v hv hmem)
    · rw [List.mem_singleton.mp hv] at hmem ⊢
      rw [h.keeps.rank (h.before.met next hmem)]
      exact Nat.min_le_right _ _

/-- The target is in a component that has been closed. -/
theorem Scanning.passed {scanned : List JsString} {next : JsString}
    (h : Scanning ids ends path s s' id scanned) (hmet : (s'.index.lookup next).isSome)
    (hnext : next ∉ s'.stack) : Scanning ids ends path s s' id (scanned ++ [next]) := by
  obtain ⟨above, least, hstack, hlow, hle, hwitness, habove, hscanned⟩ := h.part
  refine ⟨h.before, h.fresh, h.inv, h.keeps, h.entered, ?_,
    above, least, hstack, hlow, hle, hwitness, habove, ?_⟩
  · intro v hv
    rcases List.mem_append.mp hv with hv | hv
    · exact h.met v hv
    · rw [List.mem_singleton.mp hv]
      exact hmet
  · intro v hv hmem
    rcases List.mem_append.mp hv with hv | hv
    · exact hscanned v hv hmem
    · rw [List.mem_singleton.mp hv] at hmem
      exact absurd (by rw [hstack]; simp [hmem]) hnext

/-! ## Closing a component -/

theorem popUntil_append {above below : List JsString} (h : id ∉ above) :
    popUntil id (above ++ id :: below) = (above ++ [id], below) := by
  induction above with
  | nil => simp [popUntil]
  | cons v above ih =>
      rw [List.mem_cons, not_or] at h
      rw [List.cons_append, popUntil, if_neg (Ne.symm h.1), ih h.2]
      rfl

theorem three_of_mem {nodes : List JsString} {a b c : JsString} (ha : a ∈ nodes) (hb : b ∈ nodes)
    (hc : c ∈ nodes) (hab : a ≠ b) (hac : a ≠ c) (hbc : b ≠ c) : 2 < nodes.length := by
  have hnodup : [a, b, c].Nodup := by simp [hab, hac, hbc]
  have hsubset : [a, b, c] ⊆ nodes := by
    intro v hv
    simp only [List.mem_cons, List.not_mem_nil, or_false] at hv
    rcases hv with rfl | rfl | rfl
    · exact ha
    · exact hb
    · exact hc
  exact (hnodup.subperm hsubset).length_le

/-- A component is closed, and found when it has three modules. -/
theorem Found.close {closed closed' : JsString → Prop} {found : List (List JsString)}
    {component : List JsString} (h : Found ids ends closed found) (hnodup : component.Nodup)
    (hcomponent : ∀ w, w ∈ component ↔ SameComponent (Linked ids ends) id w)
    (hopen : ∀ w ∈ component, ¬ closed w)
    (hclosed : ∀ v, closed' v ↔ v ∈ component ∨ closed v) :
    Found ids ends closed'
      (if 2 < component.length then found ++ [sortIds component] else found) := by
  have hperm : (sortIds component).Perm component := List.mergeSort_perm _ _
  have hmem : ∀ w, w ∈ sortIds component ↔ w ∈ component := fun w => hperm.mem_iff
  have hold : ∀ cycle ∈ found, cycle.Nodup ∧ 2 < cycle.length ∧
      IsComponent (Linked ids ends) cycle ∧ ∀ w ∈ cycle, closed' w := by
    intro cycle hcycle
    obtain ⟨hcycleNodup, hlong, hmembers, hcycleClosed⟩ := h.component cycle hcycle
    exact ⟨hcycleNodup, hlong, hmembers,
      fun w hw => (hclosed w).mpr (Or.inr (hcycleClosed w hw))⟩
  refine ⟨?_, ?_, ?_⟩
  · split
    · rename_i hlong
      intro cycle hcycle
      rcases List.mem_append.mp hcycle with hcycle | hcycle
      · exact hold cycle hcycle
      · rw [List.mem_singleton.mp hcycle]
        exact ⟨hperm.nodup_iff.mpr hnodup, hperm.length_eq ▸ hlong,
          ⟨id, fun w => (hmem w).trans (hcomponent w)⟩,
          fun w hw => (hclosed w).mpr (Or.inl ((hmem w).mp hw))⟩
    · exact hold
  · split
    · refine List.pairwise_append.mpr ⟨h.once, List.pairwise_singleton _ _, ?_⟩
      intro cycle hcycle last hlast w hw hw'
      rw [List.mem_singleton.mp hlast] at hw'
      exact hopen w ((hmem w).mp hw') ((h.component cycle hcycle).2.2.2 w hw)
    · exact h.once
  · intro a b c ha hab hac hne hne' hne''
    rcases (hclosed a).mp ha with hmember | hbefore
    · have hroot := (hcomponent a).mp hmember
      have hlong := three_of_mem hmember ((hcomponent b).mpr (hroot.trans hab))
        ((hcomponent c).mpr (hroot.trans hac)) hne hne' hne''
      rw [if_pos hlong]
      refine ⟨sortIds component, List.mem_append_right found List.mem_cons_self, fun w => ?_⟩
      rw [hmem, hcomponent]
      exact ⟨fun hw => hroot.symm.trans hw, fun hw => hroot.trans hw⟩
    · obtain ⟨cycle, hcycle, hmembers⟩ := h.every a b c hbefore hab hac hne hne' hne''
      refine ⟨cycle, ?_, hmembers⟩
      split
      · exact List.mem_append_left _ hcycle
      · exact hcycle

/-- When its loop is done every target of the module has been met. -/
theorem Scanning.seen (h : Scanning ids ends path s s' id (outList ids ends id)) {v : JsString}
    (hlink : Linked ids ends id v) : v ∈ s'.stack ∨ Closed s' v :=
  or_iff_not_imp_left.mpr fun hnot => ⟨h.met v (mem_outList.mpr hlink), hnot⟩

/-- The part of the stack above the module and the module itself. -/
theorem Scanning.parts_nodup {above : List JsString}
    (h : Scanning ids ends path s s' id (outList ids ends id))
    (hstack : s'.stack = above ++ id :: s.stack) : ((above ++ [id]) ++ s.stack).Nodup := by
  have hnodup := h.inv.stack.nodup
  rwa [hstack, ← List.singleton_append, ← List.append_assoc] at hnodup

/-- Without a link below it, the module takes its part off the stack. -/
theorem Scanning.finish_pop {above : List JsString}
    (h : Scanning ids ends path s s' id (outList ids ends id))
    (hstack : s'.stack = above ++ id :: s.stack) (hlow : s'.low.lookup id = some s.counter) :
    s'.finish id = { s' with
      stack := s.stack
      onStack := s'.onStack.filter (· ∉ above ++ [id])
      found := if 2 < (above ++ [id]).length then s'.found ++ [sortIds (above ++ [id])]
        else s'.found } := by
  have hid : id ∉ above := fun hmem =>
    (List.nodup_append.mp (List.nodup_append.mp (h.parts_nodup hstack)).1).2.2 id hmem id
      (List.mem_singleton_self id) rfl
  rw [ComponentSearch.finish, if_pos (hlow.trans h.entered.symm), hstack, popUntil_append hid]

theorem Scanning.closed_finish {above : List JsString}
    (h : Scanning ids ends path s s' id (outList ids ends id))
    (hstack : s'.stack = above ++ id :: s.stack) (hlow : s'.low.lookup id = some s.counter)
    (v : JsString) : Closed (s'.finish id) v ↔ v ∈ above ++ [id] ∨ Closed s' v := by
  rw [h.finish_pop hstack hlow]
  constructor
  · rintro ⟨hsome, hout⟩
    by_cases hmem : v ∈ above ++ [id]
    · exact Or.inl hmem
    · refine Or.inr ⟨hsome, fun hin => ?_⟩
      rw [hstack, OpenStack.mem_parts] at hin
      exact hin.elim hmem hout
  · rintro (hmem | ⟨hsome, hout⟩)
    · refine ⟨h.inv.met v ?_, fun hin => ?_⟩
      · rw [hstack, OpenStack.mem_parts]
        exact Or.inl hmem
      · exact (List.nodup_append.mp (h.parts_nodup hstack)).2.2 v hmem v hin rfl
    · refine ⟨hsome, fun hin => hout ?_⟩
      rw [hstack, OpenStack.mem_parts]
      exact Or.inr hin

/-- Nothing leads below the module: its part of the stack is a component. -/
theorem Scanning.closes {above : List JsString}
    (h : Scanning ids ends path s s' id (outList ids ends id))
    (hstack : s'.stack = above ++ id :: s.stack) (hlow : s'.low.lookup id = some s.counter)
    (hnone : ∀ u ∈ above ++ [id], ∀ v ∈ s.stack, ¬ Linked ids ends u v) :
    Connected ids ends path s (s'.finish id) id := by
  have hopen : OpenStack (Linked ids ends) (rank s') (id :: path) (above ++ id :: s.stack)
      (Closed s') := hstack ▸ h.inv.stack
  have hmet : ∀ v, Linked ids ends id v → v ∈ above ++ id :: s.stack ∨ Closed s' v :=
    fun v hlink => hstack ▸ h.seen hlink
  have hparts := h.parts_nodup hstack
  have hfinish := h.finish_pop hstack hlow
  have hclosed := h.closed_finish hstack hlow
  have hfound := h.inv.found.close (List.nodup_append.mp hparts).1
    (hopen.isComponent hmet hnone) (fun w hw hw' => hw'.2 (by
      rw [hstack, OpenStack.mem_parts]
      exact Or.inl hw)) hclosed
  have hinv : SearchInv ids ends path (s'.finish id) := by
    have hrank : ∀ v ∈ s.stack, rank (s'.finish id) v = rank s' v := by
      rw [hfinish]
      exact fun _ _ => rfl
    have hopen' := (hopen.pop hmet hnone).congr hrank hclosed
    rw [hfinish] at hopen' hfound ⊢
    refine ⟨hopen', fun v hv => h.keeps.isSome (h.before.met v hv), fun v => ?_, h.inv.counter,
      hfound⟩
    rw [List.mem_filter, decide_eq_true_eq, h.inv.onStack, hstack, OpenStack.mem_parts]
    constructor
    · rintro ⟨hin, hout⟩
      exact hin.resolve_left hout
    · exact fun hin => ⟨Or.inr hin, fun hmem =>
        (List.nodup_append.mp hparts).2.2 v hmem v hin rfl⟩
  refine ⟨hinv, ?_, ?_, [], s.counter, ?_, ?_, Or.inl (Nat.le_refl _),
    fun u hu => absurd hu List.not_mem_nil⟩
  · rw [hfinish]
    exact ⟨h.keeps.index, h.keeps.low⟩
  · rw [hfinish]
    exact Option.isSome_iff_exists.mpr ⟨_, h.entered⟩
  · rw [hfinish]
    rfl
  · rw [hfinish]
    exact hlow

/-- The module leads below: it stays on the stack. -/
theorem Scanning.stays {above : List JsString} {least : Nat}
    (h : Scanning ids ends path s s' id (outList ids ends id))
    (hstack : s'.stack = above ++ id :: s.stack) (hlow : s'.low.lookup id = some least)
    (hless : least < s.counter) {z : JsString} (hz : z ∈ s'.stack) (hrank : rank s' z = least)
    (hreach : Relation.ReflTransGen (Linked ids ends) id z)
    (hpart : ∀ u ∈ above ++ [id], ∀ v ∈ s.stack, Linked ids ends u v → least ≤ rank s v) :
    Connected ids ends path s (s'.finish id) id := by
  have hself : rank s' id = s.counter := by
    rw [rank, h.entered]
    rfl
  have hfinish : s'.finish id = s' := by
    rw [ComponentSearch.finish, if_neg]
    rw [hlow, h.entered]
    intro heq
    exact Nat.ne_of_lt hless (Option.some.inj heq)
  rw [hfinish]
  have hopen := h.inv.stack.leave (fun v hlink => h.seen hlink) hz (by omega) hreach
  refine ⟨⟨hopen, h.inv.met, h.inv.onStack, h.inv.counter, h.inv.found⟩, h.keeps,
    Option.isSome_iff_exists.mpr ⟨_, h.entered⟩, above ++ [id], least, ?_, hlow,
    Or.inr ⟨z, hz, hrank, hreach⟩, hpart⟩
  rw [hstack, List.append_assoc]
  rfl

theorem Scanning.finish (h : Scanning ids ends path s s' id (outList ids ends id)) :
    Connected ids ends path s (s'.finish id) id := by
  obtain ⟨above, least, hstack, hlow, hle, ⟨z, hz, hrank, hreach⟩, habove, hscanned⟩ := h.part
  have hpart : ∀ u ∈ above ++ [id], ∀ v ∈ s.stack, Linked ids ends u v → least ≤ rank s v := by
    intro u hu v hv huv
    rcases List.mem_append.mp hu with hu | hu
    · exact habove u hu v hv huv
    · rw [List.mem_singleton.mp hu] at huv
      exact hscanned v (mem_outList.mpr huv) hv
  rcases Nat.lt_or_eq_of_le hle with hless | hroot
  · exact h.stays hstack hlow hless hz hrank hreach hpart
  · refine h.closes hstack (hroot ▸ hlow) fun u hu v hv huv => ?_
    have hearlier := h.before.rank_lt hv
    have hle' := hpart u hu v hv huv
    omega

/-! ## The calls -/

variable (ids ends) in
/-- The modules that have no index. -/
def unmet (s : ComponentSearch) : List JsString :=
  (searched ids ends).filter fun v => (s.index.lookup v).isNone

theorem unmet_lt (hkeeps : Keeps s s') (hmem : id ∈ searched ids ends)
    (hnew : s.index.lookup id = none) (hentered : (s'.index.lookup id).isSome) :
    (unmet ids ends s').length < (unmet ids ends s).length := by
  have hsub : unmet ids ends s' =
      (unmet ids ends s).filter fun v => (s'.index.lookup v).isNone := by
    rw [unmet, unmet, List.filter_filter]
    refine List.filter_congr fun v _ => ?_
    cases hbefore : s.index.lookup v with
    | none => simp
    | some n => simp [hkeeps.index v n hbefore]
  rw [hsub]
  refine List.length_filter_lt_length_iff_exists.mpr
    ⟨id, List.mem_filter.mpr ⟨hmem, by rw [hnew]; rfl⟩, ?_⟩
  rw [Option.isNone_eq_false_iff.mpr hentered]
  exact Bool.false_ne_true

/-- One target, when a call for it would do its work. -/
theorem Scanning.target {connect : ComponentSearch → JsString → ComponentSearch}
    {scanned : List JsString} {next : JsString} (h : Scanning ids ends path s s' id scanned)
    (hlink : Linked ids ends id next)
    (hcall : s'.index.lookup next = none →
      Connected ids ends (id :: path) s' (connect s' next) next) :
    Scanning ids ends path s (scanTarget connect id s' next) id (scanned ++ [next]) := by
  rw [scanTarget]
  split
  · rename_i hnone
    have hnext := Option.isNone_iff_eq_none.mp hnone
    exact h.called hlink hnext (hcall hnext)
  · rename_i hsome
    split
    · rename_i hon
      exact h.lowered hlink ((h.inv.onStack next).mp hon)
    · rename_i hoff
      refine h.passed ?_ fun hon => hoff ((h.inv.onStack next).mpr hon)
      exact Option.isSome_iff_ne_none.mpr fun hnone => hsome (by rw [hnone]; rfl)

/-- With enough calls the component search of a module is complete. -/
theorem strongconnect_spec (calls : Nat) : ∀ (s : ComponentSearch) (id : JsString)
    (path : List JsString), SearchInv ids ends path s → s.index.lookup id = none →
    id ∈ searched ids ends → (∀ x ∈ path, Relation.ReflTransGen (Linked ids ends) x id) →
    (unmet ids ends s).length ≤ calls →
      Connected ids ends path s (strongconnect ids ends calls s id) id := by
  induction calls with
  | zero =>
      intro s id path _ hnew hmem _ hcalls
      have hpos : id ∈ unmet ids ends s := List.mem_filter.mpr ⟨hmem, by rw [hnew]; rfl⟩
      have hlength := List.length_pos_of_mem hpos
      omega
  | succ calls ih =>
      intro s id path hinv hnew hmem hlead hcalls
      -- What has been scanned is a prefix of the targets.
      have hloop : ∀ (targets scanned : List JsString) (s' : ComponentSearch),
          (∀ v ∈ targets, Linked ids ends id v) → Scanning ids ends path s s' id scanned →
            Scanning ids ends path s
              (targets.foldl (scanTarget (strongconnect ids ends calls) id) s') id
              (scanned ++ targets) := by
        intro targets
        induction targets with
        | nil =>
            intro scanned s' _ hscan
            rwa [List.append_nil]
        | cons next targets ihTargets =>
            intro scanned s' hlinks hscan
            have hlink := hlinks next List.mem_cons_self
            rw [List.foldl_cons, ← List.singleton_append, ← List.append_assoc]
            refine ihTargets _ _ (fun v hv => hlinks v (List.mem_cons_of_mem next hv)) ?_
            refine hscan.target hlink fun hnext => ?_
            have hless := unmet_lt hscan.keeps hmem hnew
              (Option.isSome_iff_exists.mpr ⟨_, hscan.entered⟩)
            refine ih s' next (id :: path) hscan.inv hnext ?_ ?_ (by omega)
            · exact List.mem_append_right _ (List.mem_map.mpr ⟨_, hlink.2, rfl⟩)
            · intro x hx
              rcases List.mem_cons.mp hx with rfl | hx
              · exact Relation.ReflTransGen.single hlink
              · exact (hlead x hx).tail hlink
      rw [strongconnect]
      exact (hloop (outList ids ends id) [] (s.enter id) (fun v hv => mem_outList.mp hv)
        (hinv.enter hnew hlead)).finish

/-! ## The whole search -/

theorem searchInv_start (ids : List JsString) (ends : List (JsString × JsString)) :
    SearchInv ids ends [] ⟨[], [], [], [], [], 0⟩ where
  stack := {
    ordered := List.Pairwise.nil
    rising := List.Pairwise.nil
    onStack := fun _ hx => absurd hx List.not_mem_nil
    leads := fun _ hx => absurd hx List.not_mem_nil
    back := fun _ hy => absurd hy List.not_mem_nil
    apart := fun _ hv => absurd hv List.not_mem_nil
    stays := fun _ _ hu => (nomatch hu.1)
    met := fun _ hu => absurd hu List.not_mem_nil }
  met := fun _ hv => absurd hv List.not_mem_nil
  onStack := fun _ => Iff.rfl
  counter := fun _ _ hv => (nomatch hv)
  found := {
    component := fun _ hcycle => absurd hcycle List.not_mem_nil
    once := List.Pairwise.nil
    every := fun _ _ _ ha => (nomatch ha.1) }

/-- From outside of all modules, one root after the other. -/
theorem connect_roots (roots : List JsString) (s : ComponentSearch) (hinv : SearchInv ids ends [] s)
    (hroots : ∀ id ∈ roots, id ∈ searched ids ends) :
    let s' := roots.foldl (fun s id =>
      if (s.index.lookup id).isNone then
        strongconnect ids ends (searched ids ends).length s id
      else s) s
    SearchInv ids ends [] s' ∧ Keeps s s' ∧ ∀ id ∈ roots, (s'.index.lookup id).isSome := by
  induction roots generalizing s with
  | nil =>
      exact ⟨hinv, ⟨fun _ _ hv => hv, fun _ _ => rfl⟩, fun _ hid => absurd hid List.not_mem_nil⟩
  | cons root roots ih =>
      rw [List.foldl_cons]
      have hrest : ∀ id ∈ roots, id ∈ searched ids ends :=
        fun id hid => hroots id (List.mem_cons_of_mem root hid)
      split
      · rename_i hnone
        have hcall := strongconnect_spec (searched ids ends).length s root [] hinv
          (Option.isNone_iff_eq_none.mp hnone) (hroots root List.mem_cons_self)
          (fun x hx => absurd hx List.not_mem_nil) (List.length_filter_le _ _)
        obtain ⟨hdone, hkeeps, hall⟩ := ih _ hcall.inv hrest
        refine ⟨hdone, hcall.keeps.trans hkeeps, fun id hid => ?_⟩
        rcases List.mem_cons.mp hid with rfl | hid
        · exact hkeeps.isSome hcall.entered
        · exact hall id hid
      · rename_i hsome
        obtain ⟨hdone, hkeeps, hall⟩ := ih s hinv hrest
        refine ⟨hdone, hkeeps, fun id hid => ?_⟩
        rcases List.mem_cons.mp hid with rfl | hid
        · refine hkeeps.isSome (Option.isSome_iff_ne_none.mpr fun hnone => hsome ?_)
          rw [hnone]
          rfl
        · exact hall id hid

/-- A component with two modules is among those that have links. -/
theorem mem_ids_of_sameComponent {a b : JsString} (h : SameComponent (Linked ids ends) a b)
    (hne : a ≠ b) : a ∈ ids := by
  rcases Relation.ReflTransGen.cases_head h.1 with heq | ⟨c, hlink, -⟩
  · exact absurd heq hne
  · exact hlink.1

theorem Found.perm {closed : JsString → Prop} {found cycles : List (List JsString)}
    (h : Found ids ends closed found) (hperm : cycles.Perm found) :
    Found ids ends closed cycles where
  component := fun cycle hcycle => h.component cycle (hperm.mem_iff.mp hcycle)
  once := (hperm.pairwise_iff fun hdisjoint => hdisjoint.symm).mpr h.once
  every := by
    intro a b c ha hab hac hne hne' hne''
    obtain ⟨cycle, hcycle, hmembers⟩ := h.every a b c ha hab hac hne hne' hne''
    exact ⟨cycle, hperm.mem_iff.mpr hcycle, hmembers⟩

/-- The cycles of every drawn graph are its components with three modules or more. -/
theorem cyclesAreComponents (ids : List JsString) (ends : List (JsString × JsString))
    (localeCompare : JsString → JsString → Ordering) :
    CyclesAreComponents ids ends (moduleCycles ids ends localeCompare) := by
  obtain ⟨hinv, -, hall⟩ := connect_roots (sortIds ids) ⟨[], [], [], [], [], 0⟩
    (searchInv_start ids ends)
    (fun id hid => List.mem_append_left _ (EntryLayering.mem_sortIds.mp hid))
  have hfound : Found ids ends (Closed (connectAll ids ends))
      (moduleCycles ids ends localeCompare) := hinv.found.perm (List.mergeSort_perm _ _)
  refine ⟨fun cycle hcycle => ?_, hfound.once, fun a b c hab hac hne hne' hne'' => ?_⟩
  · obtain ⟨hnodup, hlong, hcomponent, -⟩ := hfound.component cycle hcycle
    exact ⟨hnodup, hlong, hcomponent⟩
  · refine hfound.every a b c ⟨?_, fun hstack => ?_⟩ hab hac hne hne' hne''
    · exact hall a (EntryLayering.mem_sortIds.mpr (mem_ids_of_sameComponent hab hne))
    · obtain ⟨x, hx, -⟩ := hinv.stack.back a hstack
      exact absurd hx List.not_mem_nil

end ModuleCycles

end AfyxGraph.Ui
