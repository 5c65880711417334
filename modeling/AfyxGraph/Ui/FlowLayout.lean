import AfyxGraph.Core.KeyedLinks
import AfyxGraph.Core.LongestPath
import AfyxGraph.Core.Loop
import AfyxGraph.Core.Places
import AfyxGraph.Ui.EntryLayering
import Mathlib.Algebra.Order.Field.Rat
import Mathlib.Tactic.Linarith

/-! # The layout of flows

One card for each symbol of the flows, in the column that is its longest distance from a start,
and one cap a column past each symbol where a flow stops. The members of a column are stacked with
a gap between them, and columns are as wide as their widest member.
-/

namespace AfyxGraph.Ui

open AfyxGraph.Core AfyxGraph.Core.LongestPath AfyxGraph.Runtime

structure FlowEdge where
  /-- What the label asks of the gap: `Math.ceil(widest * LABEL_CHAR_WIDTH) + LABEL_PAD`. -/
  labelWidth : Nat
  deriving DecidableEq, Repr

structure FlowHop where
  node : JsString
  /-- Lines of the source window; none without a source. -/
  lines : Nat
  edge : Option FlowEdge
  deriving DecidableEq, Repr

structure FlowBoundary where
  node : JsString
  /-- The text of the cap in whole pixels. -/
  endCapHeight : Nat
  deriving DecidableEq, Repr

structure Flow where
  id : JsString
  hops : List FlowHop
  boundary : Option FlowBoundary
  deriving DecidableEq, Repr

namespace FlowLayout

def cardWidth : Nat := 380

def linkWidth : Nat := 86

def headerHeight : Nat := 35

def codeLineHeight : Nat := 19

def codePadding : Nat := 12

def noSourceHeight : Nat := codeLineHeight + codePadding

def rowGap : Nat := 24

def padding : Nat := 32

def endCapWidth : Nat := 240

def cardHeight (hop : FlowHop) : Nat :=
  headerHeight +
    if 0 < hop.lines then hop.lines * codeLineHeight + codePadding else noSourceHeight

/-- `cap:` -/
def capPrefix : JsString := [unit 'c', unit 'a', unit 'p', unit ':']

def capId (anchorId : JsString) : JsString := capPrefix ++ anchorId

def isCapId (id : JsString) : Bool := capPrefix.isPrefixOf id

def anchorOf (id : JsString) : JsString := if isCapId id then id.drop 4 else id

/-- The two ids with a space between them. -/
def linkKey (source target : JsString) : JsString := source ++ unit ' ' :: target

/-! ## Nodes and edges over every flow -/

structure FlowCard where
  hop : FlowHop
  order : Nat

structure FlowLink where
  source : JsString
  target : JsString
  edge : FlowEdge

/-- The keys of `successors` and `indegree` are those of `cards`. -/
structure Collected where
  cards : List (JsString × FlowCard)
  links : List (JsString × FlowLink)
  successors : JsString → List JsString
  indegree : JsString → Int
  order : Nat

namespace Collected

def empty : Collected := ⟨[], [], fun _ => [], fun _ => 0, 0⟩

def addCard (c : Collected) (hop : FlowHop) : Collected :=
  if (c.cards.lookup hop.node).isSome then c
  else
    { c with
      cards := c.cards ++ [(hop.node, ⟨hop, c.order⟩)]
      order := c.order + 1
      indegree := Function.update c.indegree hop.node 0
      successors := Function.update c.successors hop.node [] }

def addLink (c : Collected) (source target : JsString) (edge : FlowEdge) : Collected :=
  if (c.links.lookup (linkKey source target)).isSome then c
  else
    let c := { c with links := c.links ++ [(linkKey source target, ⟨source, target, edge⟩)] }
    if target ∈ c.successors source then c
    else
      { c with
        successors := Function.update c.successors source (c.successors source ++ [target])
        indegree := Function.update c.indegree target (c.indegree target + 1) }

def addHop (c : Collected) (previous : Option FlowHop) (hop : FlowHop) : Collected :=
  let c := c.addCard hop
  match previous, hop.edge with
  | some previous, some edge => c.addLink previous.node hop.node edge
  | _, _ => c

def addHops (c : Collected) (previous : Option FlowHop) : List FlowHop → Collected
  | [] => c
  | hop :: hops => (c.addHop previous hop).addHops (some hop) hops

/-- `cards.keys()` -/
def ids (c : Collected) : List JsString := c.cards.map Prod.fst

end Collected

def collect (flows : List Flow) : Collected :=
  flows.foldl (fun c flow => c.addHops none flow.hops) Collected.empty

/-! ## Columns -/

structure Settling where
  column : JsString → Nat
  pending : JsString → Int
  queue : List JsString
  settled : List JsString

/-- One successor of a node that is taken from the queue. -/
def Settling.reach (id : JsString) (s : Settling) (next : JsString) : Settling :=
  let left := s.pending next - 1
  { s with
    column := Function.update s.column next (max (s.column next) (s.column id + 1))
    pending := Function.update s.pending next left
    queue := if left = 0 then s.queue ++ [next] else s.queue }

def settleTurn (c : Collected) (s : Settling) : Option Settling :=
  match s.queue with
  | [] => none
  | id :: queue =>
      some ((c.successors id).foldl (Settling.reach id)
        { s with queue := queue, settled := id :: s.settled })

def settleStart (c : Collected) : Settling :=
  ⟨fun _ => 0, c.indegree, c.ids.filter (c.indegree · = 0), []⟩

/-- Every node is taken from the queue once at most. -/
def settle (c : Collected) : Settling := loop (settleTurn c) c.ids.length (settleStart c)

/-- One past the furthest of what reaches an unsettled node. -/
def leftoverColumn (c : Collected) (column : JsString → Nat) (id : JsString) : Nat :=
  (c.ids.filter fun source => id ∈ c.successors source).foldl
    (fun best source => max best (column source + 1)) 0

def column (c : Collected) : JsString → Nat :=
  c.ids.foldl (fun column id =>
    if id ∈ (settle c).settled then column
    else Function.update column id (leftoverColumn c column id)) (settle c).column

/-! ## Members of the columns -/

/-- One cap for each symbol where a flow stops. -/
def caps (flows : List Flow) : List (JsString × FlowBoundary) :=
  flows.foldl (fun caps flow =>
    match flow.boundary with
    | none => caps
    | some boundary =>
        if boundary.node ∈ (collect flows).ids ∧ (caps.lookup boundary.node).isNone then
          caps ++ [(boundary.node, boundary)]
        else caps) []

structure Member where
  id : JsString
  width : Nat
  height : Nat
  /-- Cards before caps, then in the order they were first seen. -/
  rank : Nat
  onActive : Bool

section Geometry

variable (flows : List Flow) (activeId : Option JsString)

def activeIds : List JsString :=
  match (flows.find? fun f => activeId = some f.id).or flows.head? with
  | none => []
  | some active => active.hops.map (·.node)

def cardMembers : List (JsString × Member) :=
  (collect flows).cards.map fun card =>
    (card.1, ⟨card.1, cardWidth, cardHeight card.2.hop, card.2.order,
      card.1 ∈ activeIds flows activeId⟩)

/-- A cap of the same id as a card would take its place. -/
def memberTable : List (JsString × Member) :=
  (caps flows).zipIdx.foldl (fun members cap =>
    setEntry members (capId cap.1.1) ⟨capId cap.1.1, endCapWidth, cap.1.2.endCapHeight,
      (collect flows).cards.length + cap.2, cap.1.1 ∈ activeIds flows activeId⟩)
    (cardMembers flows activeId)

def members : List Member := (memberTable flows activeId).map Prod.snd

def capColumn : List (JsString × Nat) :=
  (caps flows).map fun cap => (capId cap.1, column (collect flows) cap.1 + 1)

def columnOf (id : JsString) : Nat :=
  ((capColumn flows).lookup id).getD (column (collect flows) id)

/-- The active flow first. -/
def before (a b : Member) : Bool :=
  if a.onActive = b.onActive then a.rank ≤ b.rank else a.onActive

/-- `byColumn.get(c)`, sorted. -/
def listOf (c : Nat) : List Member :=
  ((members flows activeId).filter (columnOf flows ·.id = c)).mergeSort before

def columns : Nat :=
  ((members flows activeId).map fun m => columnOf flows m.id).foldl max 0 + 1

/-- Wide enough for the widest label of a link that leaves the column. -/
def gap (c : Nat) : Nat :=
  (((collect flows).links.filter fun l => column (collect flows) l.2.source = c).map
    (·.2.edge.labelWidth)).foldl max linkWidth

def columnWidth (c : Nat) : Nat := ((listOf flows activeId c).map (·.width)).foldl max 0

def columnX : Nat → Nat
  | 0 => padding
  | c + 1 => columnX c + columnWidth flows activeId c + gap flows c

def columnHeight (c : Nat) : Nat :=
  ((listOf flows activeId c).map (·.height)).sum +
    rowGap * ((listOf flows activeId c).length - 1)

def tallest : Nat :=
  ((List.range (columns flows activeId)).map (columnHeight flows activeId)).foldl max 0

end Geometry

structure Placed where
  id : JsString
  x : Nat
  y : Rat
  width : Nat
  height : Nat
  column : Nat

/-- The members of a column below each other. -/
def placeList (x c : Nat) : Rat → List Member → List Placed
  | _, [] => []
  | y, m :: rest => ⟨m.id, x, y, m.width, m.height, c⟩ :: placeList x c (y + m.height + rowGap) rest

def placeColumn (flows : List Flow) (activeId : Option JsString) (c : Nat) : List Placed :=
  placeList (columnX flows activeId c) c
    (padding + ((tallest flows activeId : Rat) - columnHeight flows activeId c) / 2)
    (listOf flows activeId c)

def placed (flows : List Flow) (activeId : Option JsString) : List Placed :=
  (List.range (columns flows activeId)).flatMap (placeColumn flows activeId)

def isEndCap (flows : List Flow) (id : JsString) : Bool :=
  ((caps flows).lookup (anchorOf id)).isSome && isCapId id

/-- By column, then from the top. -/
def readsBefore (a b : Placed) : Bool := a.column < b.column || (a.column = b.column && a.y ≤ b.y)

end FlowLayout

open FlowLayout

structure FlowLayout where
  cards : List Placed
  endCaps : List Placed

def buildFlowLayout (flows : List Flow) (activeId : Option JsString) : FlowLayout :=
  let placed := if (collect flows).cards.length = 0 then [] else placed flows activeId
  { cards := (placed.filter fun p => !isEndCap flows p.id).mergeSort readsBefore
    endCaps := (placed.filter fun p => isEndCap flows p.id).mergeSort readsBefore }

/-! ## What it is to show -/

/-- The pairs of consecutive hops that an edge joins. -/
def hopLinks (previous : Option FlowHop) : List FlowHop → List (JsString × JsString)
  | [] => []
  | hop :: hops =>
      (match previous, hop.edge with
      | some previous, some _ => [(previous.node, hop.node)]
      | _, _ => []) ++ hopLinks (some hop) hops

/-- The interiors of the rectangles meet. -/
def FlowLayout.Placed.Overlaps (a b : Placed) : Prop :=
  a.x < b.x + b.width ∧ b.x < a.x + a.width ∧ a.y < b.y + b.height ∧ b.y < a.y + a.height

/-- Flows whose ids are not those of caps. -/
structure FlowPicture where
  flows : List Flow
  activeId : Option JsString
  plain : ∀ flow ∈ flows, ∀ hop ∈ flow.hops, isCapId hop.node = false

namespace FlowPicture

variable (p : FlowPicture)

def links : List (JsString × JsString) := p.flows.flatMap fun flow => hopLinks none flow.hops

def HopLink (u v : JsString) : Prop := (u, v) ∈ p.links

def layout : FlowLayout := buildFlowLayout p.flows p.activeId

structure LayoutHolds : Prop where
  apart : (p.layout.cards ++ p.layout.endCaps).Pairwise fun a b => ¬ a.Overlaps b
  drawn : ∀ flow ∈ p.flows, ∀ hop ∈ flow.hops, ∃ card ∈ p.layout.cards, card.id = hop.node
  longest : Acyclic p.HopLink → ∀ card ∈ p.layout.cards,
    IsGreatest {k | EndsAfter p.HopLink k card.id} card.column
  callers : Acyclic p.HopLink → ∀ a ∈ p.layout.cards, ∀ b ∈ p.layout.cards,
    p.HopLink a.id b.id → a.column < b.column

end FlowPicture

/-! ## What is collected -/

namespace FlowLayout

/-- The state of the collection when so many links have been read. -/
structure CollectInv (seen : List (JsString × JsString)) (c : Collected) : Prop where
  once : c.ids.Nodup
  inside : ∀ l ∈ seen, l.1 ∈ c.ids ∧ l.2 ∈ c.ids
  links : ∀ u v, (c.links.lookup (linkKey u v)).isSome = (firstLink linkKey seen u v).isSome
  successors : ∀ u v, v ∈ c.successors u ↔ Kept linkKey seen u v
  single : ∀ u, (c.successors u).Nodup
  indegree : ∀ v, c.indegree v = (c.ids.filter fun u => v ∈ c.successors u).length

variable {seen : List (JsString × JsString)} {c : Collected}

theorem mem_ids_iff_lookup {id : JsString} : (c.cards.lookup id).isSome ↔ id ∈ c.ids := by
  rw [Collected.ids, List.mem_map]
  constructor
  · intro h
    obtain ⟨card, hcard⟩ := Option.isSome_iff_exists.mp h
    exact ⟨(id, card), mem_of_lookup hcard, rfl⟩
  · rintro ⟨card, hcard, rfl⟩
    by_contra hnone
    have hlook := List.lookup_eq_none_iff.mp (Option.not_isSome_iff_eq_none.mp hnone) card hcard
    simp at hlook

/-- A new card has no links yet. -/
theorem CollectInv.addCard_new (h : CollectInv seen c) {hop : FlowHop} (hnew : hop.node ∉ c.ids) :
    c.addCard hop =
      { c with cards := c.cards ++ [(hop.node, ⟨hop, c.order⟩)], order := c.order + 1 } := by
  have hempty : c.successors hop.node = [] := by
    refine List.eq_nil_iff_forall_not_mem.mpr fun v hv => hnew ?_
    exact (h.inside _ (mem_of_kept ((h.successors _ v).mp hv))).1
  have hdegree : c.indegree hop.node = 0 := by
    rw [h.indegree, List.filter_eq_nil_iff.mpr]
    · rfl
    · intro u _ hu
      exact hnew (h.inside _ (mem_of_kept ((h.successors u _).mp (of_decide_eq_true hu)))).2
  rw [Collected.addCard, if_neg (fun hsome => hnew (mem_ids_iff_lookup.mp hsome)),
    Function.update_eq_self_iff.mpr hempty.symm, Function.update_eq_self_iff.mpr hdegree.symm]

theorem CollectInv.addCard (h : CollectInv seen c) (hop : FlowHop) :
    CollectInv seen (c.addCard hop) ∧ hop.node ∈ (c.addCard hop).ids ∧
      c.ids ⊆ (c.addCard hop).ids := by
  by_cases hold : hop.node ∈ c.ids
  · rw [Collected.addCard, if_pos (mem_ids_iff_lookup.mpr hold)]
    exact ⟨h, hold, fun _ hid => hid⟩
  · rw [h.addCard_new hold]
    have hids : ∀ c' : Collected, c'.cards = c.cards ++ [(hop.node, ⟨hop, c.order⟩)] →
        c'.ids = c.ids ++ [hop.node] := by
      intro c' hc'
      rw [Collected.ids, hc', List.map_append]
      rfl
    have hids := hids { c with
      cards := c.cards ++ [(hop.node, ⟨hop, c.order⟩)], order := c.order + 1 } rfl
    refine ⟨⟨?_, ?_, h.links, h.successors, h.single, ?_⟩, ?_, ?_⟩
    · rw [hids, List.nodup_append]
      refine ⟨h.once, List.nodup_singleton _, fun a ha b hb heq => hold ?_⟩
      rwa [← List.mem_singleton.mp hb, ← heq]
    · intro l hl
      rw [hids]
      exact ⟨List.mem_append_left _ (h.inside l hl).1, List.mem_append_left _ (h.inside l hl).2⟩
    · intro v
      have hnone : v ∉ c.successors hop.node := fun hv =>
        hold (h.inside _ (mem_of_kept ((h.successors _ v).mp hv))).1
      rw [hids, List.filter_append, List.length_append,
        List.filter_cons_of_neg (by simpa using hnone), List.filter_nil]
      exact h.indegree v
    · rw [hids]
      exact List.mem_append_right _ (List.mem_singleton.mpr rfl)
    · rw [hids]
      exact List.subset_append_left _ _

theorem mem_update_append {f : JsString → List JsString} {source target u v : JsString} :
    v ∈ Function.update f source (f source ++ [target]) u ↔
      v ∈ f u ∨ u = source ∧ v = target := by
  by_cases hu : u = source
  · subst hu
    simp
  · simp [hu]

theorem nodup_update_append {f : JsString → List JsString} {source target : JsString}
    (hsingle : ∀ u, (f u).Nodup) (hnew : target ∉ f source) (u : JsString) :
    (Function.update f source (f source ++ [target]) u).Nodup := by
  by_cases hu : u = source
  · subst hu
    rw [Function.update_self, List.nodup_append]
    refine ⟨hsingle u, List.nodup_singleton _, fun a ha b hb heq => hnew ?_⟩
    rwa [← List.mem_singleton.mp hb, ← heq]
  · rw [Function.update_of_ne hu]
    exact hsingle u

/-- A new link raises the number of callers of its target. -/
theorem CollectInv.indegree_addLink (h : CollectInv seen c) {source target : JsString}
    (hsource : source ∈ c.ids) (hnew : target ∉ c.successors source) (v : JsString) :
    Function.update c.indegree target (c.indegree target + 1) v =
      ((c.ids.filter fun u =>
        v ∈ Function.update c.successors source (c.successors source ++ [target]) u).length :
          Int) := by
  simp only [mem_update_append]
  by_cases hv : v = target
  · subst hv
    have hmore := length_filter_insert h.once hsource
      (p := fun u => decide (v ∈ c.successors u))
      (q := fun u => decide (v ∈ c.successors u ∨ u = source ∧ v = v))
      (fun u _ => by simp [or_comm]) (decide_eq_false hnew)
    rw [Function.update_self, h.indegree, hmore, Nat.cast_succ]
  · rw [Function.update_of_ne hv, h.indegree]
    simp only [hv, and_false, or_false]

/-- A link that reads like one before it is left out. -/
theorem CollectInv.addLink_again (h : CollectInv seen c) {source target : JsString}
    (hinside : ∀ l ∈ seen ++ [(source, target)], l.1 ∈ c.ids ∧ l.2 ∈ c.ids)
    (hsome : (firstLink linkKey seen source target).isSome = true) :
    CollectInv (seen ++ [(source, target)]) c := by
  refine ⟨h.once, hinside, fun u v => ?_, fun u v => ?_, h.single, h.indegree⟩
  · rw [h.links u v, isSome_firstLink_append]
    by_cases hkey : linkKey source target = linkKey u v
    · rw [(firstLink_congr hkey).symm, hsome]
      rfl
    · rw [decide_eq_false hkey, Bool.or_false]
  · rw [h.successors, kept_append]
    refine (or_iff_left fun hlast => ?_).symm
    rw [hlast.1] at hsome
    cases hsome

/-- Of the links whose ids read the same when joined the first one counts. -/
theorem CollectInv.addLink (h : CollectInv seen c) {source target : JsString} (edge : FlowEdge)
    (hsource : source ∈ c.ids) (htarget : target ∈ c.ids) :
    CollectInv (seen ++ [(source, target)]) (c.addLink source target edge) ∧
      (c.addLink source target edge).ids = c.ids := by
  have hinside : ∀ l ∈ seen ++ [(source, target)], l.1 ∈ c.ids ∧ l.2 ∈ c.ids := by
    intro l hl
    rcases List.mem_append.mp hl with hl | hl
    · exact h.inside l hl
    · rw [List.mem_singleton.mp hl]
      exact ⟨hsource, htarget⟩
  rw [Collected.addLink]
  split
  · rename_i hsome
    rw [h.links] at hsome
    exact ⟨h.addLink_again hinside hsome, rfl⟩
  · rename_i hnone
    rw [h.links] at hnone
    have hfirst : firstLink linkKey seen source target = none :=
      Option.not_isSome_iff_eq_none.mp hnone
    have hnew : target ∉ c.successors source := by
      intro hmem
      have hkept := (h.successors source target).mp hmem
      rw [Kept, hfirst] at hkept
      cases hkept
    simp only [if_neg hnew]
    refine ⟨⟨h.once, hinside, fun u v => ?_, fun u v => ?_,
      nodup_update_append h.single hnew, h.indegree_addLink hsource hnew⟩, rfl⟩
    · rw [List.lookup_append, Option.isSome_or, h.links u v, isSome_firstLink_append,
        List.lookup_cons, List.lookup_nil]
      by_cases hkey : linkKey source target = linkKey u v
      · rw [hkey, beq_self_eq_true, decide_eq_true rfl]
        rfl
      · rw [beq_eq_false_iff_ne.mpr (Ne.symm hkey), decide_eq_false hkey]
        rfl
    · rw [kept_append, ← h.successors, hfirst, Prod.mk.injEq]
      exact mem_update_append.trans (or_congr_right (and_iff_right rfl).symm)

/-- One hop adds the link from the hop before it. -/
theorem CollectInv.addHop (h : CollectInv seen c) {previous : Option FlowHop} (hop : FlowHop)
    (hprevious : ∀ before, previous = some before → before.node ∈ c.ids) :
    CollectInv (seen ++ hopLinks previous [hop]) (c.addHop previous hop) ∧
      hop.node ∈ (c.addHop previous hop).ids ∧ c.ids ⊆ (c.addHop previous hop).ids := by
  obtain ⟨hcard, hmem, hsub⟩ := h.addCard hop
  unfold Collected.addHop
  cases previous with
  | none =>
      simp only [hopLinks, List.append_nil]
      exact ⟨hcard, hmem, hsub⟩
  | some before =>
      cases hedge : hop.edge with
      | none =>
          simp only [hopLinks, hedge, List.append_nil]
          exact ⟨hcard, hmem, hsub⟩
      | some edge =>
          simp only [hopLinks, hedge, List.append_nil]
          obtain ⟨hlink, hids⟩ := hcard.addLink edge (hsub (hprevious before rfl)) hmem
          exact ⟨hlink, hids ▸ hmem, hids ▸ hsub⟩

theorem hopLinks_cons (previous : Option FlowHop) (hop : FlowHop) (hops : List FlowHop) :
    hopLinks previous (hop :: hops) = hopLinks previous [hop] ++ hopLinks (some hop) hops := by
  show _ ++ _ = (_ ++ []) ++ _
  rw [List.append_nil]

theorem CollectInv.addHops (h : CollectInv seen c) {previous : Option FlowHop}
    (hprevious : ∀ before, previous = some before → before.node ∈ c.ids) (hops : List FlowHop) :
    CollectInv (seen ++ hopLinks previous hops) (c.addHops previous hops) ∧
      (∀ hop ∈ hops, hop.node ∈ (c.addHops previous hops).ids) ∧
      c.ids ⊆ (c.addHops previous hops).ids := by
  induction hops generalizing seen c previous with
  | nil =>
      rw [hopLinks, List.append_nil]
      exact ⟨h, fun hop hmem => absurd hmem List.not_mem_nil, fun _ hid => hid⟩
  | cons hop hops ih =>
      obtain ⟨hadd, hmem, hsub⟩ := h.addHop hop hprevious
      rw [hopLinks_cons, ← List.append_assoc, Collected.addHops]
      have hbefore : ∀ before, some hop = some before →
          before.node ∈ (c.addHop previous hop).ids := by
        rintro _ ⟨⟩
        exact hmem
      obtain ⟨hall, hnodes, hmore⟩ := ih hadd hbefore
      refine ⟨hall, fun other hother => ?_, fun id hid => hmore (hsub hid)⟩
      rcases List.mem_cons.mp hother with rfl | hother
      · exact hmore hmem
      · exact hnodes other hother

theorem mem_ids_addHop {previous : Option FlowHop} {hop : FlowHop} {id : JsString}
    (h : id ∈ (c.addHop previous hop).ids) : id ∈ c.ids ∨ id = hop.node := by
  have hlink : ∀ (c : Collected) (source target : JsString) (edge : FlowEdge),
      (c.addLink source target edge).ids = c.ids := by
    intro c source target edge
    rw [Collected.addLink]
    split
    · rfl
    · dsimp only
      split <;> rfl
  have hcard : id ∈ (c.addCard hop).ids := by
    unfold Collected.addHop at h
    split at h
    · rwa [hlink] at h
    · exact h
  rw [Collected.addCard] at hcard
  split at hcard
  · exact Or.inl hcard
  · rw [Collected.ids, List.map_append, List.mem_append] at hcard
    exact hcard.imp_right List.mem_singleton.mp

theorem mem_ids_addHops {previous : Option FlowHop} {hops : List FlowHop} {id : JsString}
    (h : id ∈ (c.addHops previous hops).ids) : id ∈ c.ids ∨ ∃ hop ∈ hops, hop.node = id := by
  induction hops generalizing c previous with
  | nil => exact Or.inl h
  | cons hop hops ih =>
      rcases ih h with h | ⟨other, hother, rfl⟩
      · rcases mem_ids_addHop h with h | rfl
        · exact Or.inl h
        · exact Or.inr ⟨hop, List.mem_cons_self, rfl⟩
      · exact Or.inr ⟨other, List.mem_cons_of_mem hop hother, rfl⟩

/-- Only the symbols of hops have cards. -/
theorem mem_ids_collect {flows : List Flow} {id : JsString} (h : id ∈ (collect flows).ids) :
    ∃ flow ∈ flows, ∃ hop ∈ flow.hops, hop.node = id := by
  have hfold : ∀ (rest : List Flow) (c : Collected),
      id ∈ (rest.foldl (fun c flow => c.addHops none flow.hops) c).ids →
        id ∈ c.ids ∨ ∃ flow ∈ rest, ∃ hop ∈ flow.hops, hop.node = id := by
    intro rest
    induction rest with
    | nil => exact fun c h => Or.inl h
    | cons flow rest ih =>
        intro c h
        rcases ih _ h with h | ⟨other, hother, hhop⟩
        · exact (mem_ids_addHops h).imp_right fun hhop => ⟨flow, List.mem_cons_self, hhop⟩
        · exact Or.inr ⟨other, List.mem_cons_of_mem flow hother, hhop⟩
  exact (hfold flows Collected.empty h).resolve_left List.not_mem_nil

/-- The graph of the flows: its nodes are their symbols, its links the kept ones. -/
theorem collectInv (flows : List Flow) :
    CollectInv (flows.flatMap fun flow => hopLinks none flow.hops) (collect flows) ∧
      ∀ flow ∈ flows, ∀ hop ∈ flow.hops, hop.node ∈ (collect flows).ids := by
  have hfold : ∀ (rest : List Flow) (seen : List (JsString × JsString)) (c : Collected),
      CollectInv seen c →
      CollectInv (seen ++ rest.flatMap fun flow => hopLinks none flow.hops)
        (rest.foldl (fun c flow => c.addHops none flow.hops) c) ∧
      (∀ flow ∈ rest, ∀ hop ∈ flow.hops,
        hop.node ∈ (rest.foldl (fun c flow => c.addHops none flow.hops) c).ids) ∧
      c.ids ⊆ (rest.foldl (fun c flow => c.addHops none flow.hops) c).ids := by
    intro rest
    induction rest with
    | nil =>
        intro seen c h
        rw [List.flatMap_nil, List.append_nil]
        exact ⟨h, fun flow hmem => absurd hmem List.not_mem_nil, fun _ hid => hid⟩
    | cons flow rest ih =>
        intro seen c h
        have hnone : ∀ before : FlowHop, none = some before → before.node ∈ c.ids := by
          rintro _ ⟨⟩
        obtain ⟨hadd, hnodes, hsub⟩ := h.addHops hnone flow.hops
        rw [List.flatMap_cons, ← List.append_assoc, List.foldl_cons]
        obtain ⟨hall, hrest, hmore⟩ := ih _ _ hadd
        refine ⟨hall, fun other hother hop hhop => ?_, fun id hid => hmore (hsub hid)⟩
        rcases List.mem_cons.mp hother with rfl | hother
        · exact hmore (hnodes hop hhop)
        · exact hrest other hother hop hhop
  have hstart : CollectInv [] Collected.empty := by
    refine ⟨List.nodup_nil, fun l hl => absurd hl List.not_mem_nil, fun u v => rfl, fun u v => ?_,
      fun u => List.nodup_nil, fun v => rfl⟩
    exact iff_of_false List.not_mem_nil (fun h => nomatch h)
  obtain ⟨hall, hnodes, -⟩ := hfold flows [] Collected.empty hstart
  exact ⟨hall, hnodes⟩

/-! ## Columns of settled nodes -/

section Settle

variable {s s' : Settling} {id : JsString}

/-- The successors of a node that is not one of them, one after the other. -/
theorem foldl_reach {targets : List JsString} (hsingle : targets.Nodup) (hid : id ∉ targets)
    (s : Settling) : targets.foldl (Settling.reach id) s =
      { column := fun v => if v ∈ targets then max (s.column v) (s.column id + 1) else s.column v
        pending := fun v => if v ∈ targets then s.pending v - 1 else s.pending v
        queue := s.queue ++ targets.filter fun v => s.pending v - 1 = 0
        settled := s.settled } := by
  induction targets generalizing s with
  | nil => simp
  | cons next targets ih =>
      rw [List.nodup_cons] at hsingle
      rw [List.mem_cons, not_or] at hid
      have hrest : (targets.filter fun v => (s.reach id next).pending v - 1 = 0) =
          targets.filter fun v => s.pending v - 1 = 0 := by
        refine List.filter_congr fun v hv => ?_
        have hother : v ≠ next := by
          rintro rfl
          exact hsingle.1 hv
        simp only [Settling.reach, Function.update_of_ne hother]
      rw [List.foldl_cons, ih hsingle.2 hid.2, hrest]
      simp only [Settling.reach, Settling.mk.injEq, and_true]
      refine ⟨funext fun v => ?_, funext fun v => ?_, ?_⟩
      · by_cases hv : v = next
        · subst hv
          simp [hsingle.1]
        · simp [hv, hid.1]
      · by_cases hv : v = next
        · subst hv
          simp [hsingle.1]
        · simp [hv]
      · rw [List.filter_cons]
        by_cases hleft : s.pending next - 1 = 0
        · simp [hleft]
        · simp [hleft]

/-- The nodes from which a link to `v` is still to be counted. -/
def unread (c : Collected) (settled : List JsString) (v : JsString) : List JsString :=
  c.ids.filter fun u => v ∈ c.successors u ∧ u ∉ settled

structure SettleInv (c : Collected) (s : Settling) : Prop where
  once : (s.settled ++ s.queue).Nodup
  inside : ∀ v ∈ s.settled ++ s.queue, v ∈ c.ids
  pending : ∀ v, s.pending v = (unread c s.settled v).length
  ready : ∀ v ∈ c.ids, s.pending v = 0 ↔ v ∈ s.settled ++ s.queue
  supported : ∀ v, EndsAfter (fun u v => v ∈ c.successors u) (s.column v) v
  raised : ∀ u ∈ s.settled, ∀ v ∈ c.successors u, s.column u < s.column v

theorem mem_unread {settled : List JsString} {u v : JsString} :
    u ∈ unread c settled v ↔ u ∈ c.ids ∧ v ∈ c.successors u ∧ u ∉ settled := by
  rw [unread, List.mem_filter, decide_eq_true_eq]

/-- A node that is taken from the queue counts no more for its successors. -/
theorem length_unread_cons (hc : CollectInv seen c) {settled : List JsString} (hmem : id ∈ c.ids)
    (hnew : id ∉ settled) (v : JsString) :
    (unread c settled v).length =
      (unread c (id :: settled) v).length + if v ∈ c.successors id then 1 else 0 := by
  split
  · rename_i hv
    refine length_filter_insert hc.once hmem (fun u _ => ?_) ?_
    · simp only [decide_eq_true_eq, List.mem_cons, not_or]
      constructor
      · rintro ⟨hu, hout⟩
        by_cases heq : u = id
        · exact Or.inl heq
        · exact Or.inr ⟨hu, heq, hout⟩
      · rintro (rfl | ⟨hu, -, hout⟩)
        · exact ⟨hv, hnew⟩
        · exact ⟨hu, hout⟩
    · exact decide_eq_false fun h => h.2 List.mem_cons_self
  · rename_i hv
    refine congrArg List.length (List.filter_congr fun u _ => ?_)
    simp only [decide_eq_decide, List.mem_cons, not_or]
    refine and_congr_right fun hu => (and_iff_right ?_).symm
    rintro rfl
    exact hv hu

/-- What a node of the queue leads to is neither settled nor in the queue. -/
theorem SettleInv.successor_not_ready (hc : CollectInv seen c) (h : SettleInv c s)
    {queue : List JsString} (hqueue : s.queue = id :: queue) {v : JsString}
    (hv : v ∈ c.successors id) : v ∉ s.settled ++ s.queue := by
  have hid : id ∈ s.settled ++ s.queue := by
    rw [hqueue]
    simp
  have hnew : id ∉ s.settled := by
    have honce := h.once
    rw [hqueue, List.nodup_append] at honce
    exact fun hmem => honce.2.2 id hmem id List.mem_cons_self rfl
  have hvmem := (hc.inside _ (mem_of_kept ((hc.successors id v).mp hv))).2
  intro hready
  have hzero := (h.ready v hvmem).mpr hready
  rw [h.pending v] at hzero
  have hpos := List.length_pos_of_mem (mem_unread.mpr ⟨h.inside id hid, hv, hnew⟩)
  omega

theorem SettleInv.pending_read (hc : CollectInv seen c) (h : SettleInv c s) (hmem : id ∈ c.ids)
    (hnew : id ∉ s.settled) (v : JsString) :
    (if v ∈ c.successors id then s.pending v - 1 else s.pending v) =
      ((unread c (id :: s.settled) v).length : Int) := by
  have hcount := length_unread_cons hc hmem hnew v
  have hbefore := h.pending v
  split
  · rename_i hv
    rw [if_pos hv] at hcount
    omega
  · rename_i hv
    rw [if_neg hv] at hcount
    omega

theorem SettleInv.supported_read (h : SettleInv c s) (v : JsString) :
    EndsAfter (fun u v => v ∈ c.successors u)
      (if v ∈ c.successors id then max (s.column v) (s.column id + 1) else s.column v) v := by
  split
  · rename_i hv
    rcases Nat.le_total (s.column v) (s.column id + 1) with hle | hle
    · rw [Nat.max_eq_right hle]
      exact Steps.step (h.supported id) hv
    · rw [Nat.max_eq_left hle]
      exact h.supported v
  · exact h.supported v

/-- A node that has been read stays where it is, and its successors are beyond it. -/
theorem SettleInv.raised_read (h : SettleInv c s) (hself : id ∉ c.successors id)
    (hfresh : ∀ v ∈ c.successors id, v ∉ s.settled) {u v : JsString} (hu : u ∈ id :: s.settled)
    (hv : v ∈ c.successors u) :
    (if u ∈ c.successors id then max (s.column u) (s.column id + 1) else s.column u) <
      if v ∈ c.successors id then max (s.column v) (s.column id + 1) else s.column v := by
  rcases List.mem_cons.mp hu with rfl | hu
  · rw [if_neg hself, if_pos hv]
    omega
  · rw [if_neg fun hsucc => hfresh u hsucc hu]
    have hlt := h.raised u hu v hv
    split <;> omega

theorem SettleInv.turn (hc : CollectInv seen c) (h : SettleInv c s) {queue : List JsString}
    (hqueue : s.queue = id :: queue) :
    SettleInv c ((c.successors id).foldl (Settling.reach id)
      { s with queue := queue, settled := id :: s.settled }) := by
  have honce := h.once
  rw [hqueue] at honce
  have hnew : id ∉ s.settled := fun hmem =>
    (List.nodup_append.mp honce).2.2 id hmem id List.mem_cons_self rfl
  have hmem : id ∈ c.ids := h.inside id (by rw [hqueue]; simp)
  have hfresh : ∀ v ∈ c.successors id, v ∉ s.settled ++ id :: queue := fun v hv =>
    hqueue ▸ h.successor_not_ready hc hqueue hv
  have hself : id ∉ c.successors id := fun hv => hfresh id hv (by simp)
  have hperm : ∀ more : List JsString, ((id :: s.settled) ++ (queue ++ more)).Perm
      ((s.settled ++ id :: queue) ++ more) := by
    intro more
    rw [← List.append_assoc]
    exact (List.perm_middle.symm.append_right more)
  rw [foldl_reach (hc.single id) hself]
  refine ⟨?_, ?_, ?_, ?_, ?_, ?_⟩
  · rw [(hperm _).nodup_iff, List.nodup_append]
    refine ⟨honce, (hc.single id).filter _, ?_⟩
    rintro a ha _ hb rfl
    exact hfresh a (List.mem_filter.mp hb).1 ha
  · intro v hv
    rw [(hperm _).mem_iff] at hv
    rcases List.mem_append.mp hv with hv | hv
    · exact h.inside v (hqueue ▸ hv)
    · exact (hc.inside _ (mem_of_kept ((hc.successors id v).mp (List.mem_filter.mp hv).1))).2
  · exact h.pending_read hc hmem hnew
  · intro v hv
    rw [(hperm _).mem_iff, List.mem_append, List.mem_filter, decide_eq_true_eq]
    show (if v ∈ c.successors id then s.pending v - 1 else s.pending v) = 0 ↔ _
    split
    · rename_i hsucc
      constructor
      · exact fun hzero => Or.inr ⟨hsucc, hzero⟩
      · rintro (hready | ⟨-, hzero⟩)
        · exact absurd hready (hfresh v hsucc)
        · exact hzero
    · rename_i hsucc
      rw [h.ready v hv, hqueue]
      exact (or_iff_left fun hmore => hsucc hmore.1).symm
  · exact h.supported_read
  · exact fun u hu v hv =>
      h.raised_read hself (fun w hw hin => hfresh w hw (List.mem_append_left _ hin)) hu hv

theorem settleInv_start (hc : CollectInv seen c) : SettleInv c (settleStart c) := by
  have hpending : ∀ v, c.indegree v = (unread c [] v).length := by
    intro v
    rw [hc.indegree]
    simp [unread]
  refine ⟨?_, ?_, hpending, ?_, fun v => Steps.source trivial,
    fun u hu => absurd hu List.not_mem_nil⟩
  · exact hc.once.filter _
  · exact fun v hv => (List.mem_filter.mp hv).1
  · intro v hv
    show c.indegree v = 0 ↔ v ∈ c.ids.filter (c.indegree · = 0)
    rw [List.mem_filter, decide_eq_true_eq, and_iff_right hv]

theorem settleTurn_some (hturn : settleTurn c s = some s') : ∃ id queue, s.queue = id :: queue ∧
    s' = (c.successors id).foldl (Settling.reach id)
      { s with queue := queue, settled := id :: s.settled } := by
  unfold settleTurn at hturn
  cases hqueue : s.queue with
  | nil =>
      rw [hqueue] at hturn
      cases hturn
  | cons id queue =>
      rw [hqueue] at hturn
      exact ⟨id, queue, rfl, (Option.some.inj hturn).symm⟩

theorem settleTurn_none (hturn : settleTurn c s = none) : s.queue = [] := by
  unfold settleTurn at hturn
  cases hqueue : s.queue with
  | nil => rfl
  | cons id queue =>
      rw [hqueue] at hturn
      cases hturn

/-- The queue runs empty. -/
theorem settle_spec (hc : CollectInv seen c) :
    SettleInv c (settle c) ∧ (settle c).queue = [] := by
  have hkeeps : ∀ s s', SettleInv c s → settleTurn c s = some s' → SettleInv c s' := by
    intro s s' h hturn
    obtain ⟨id, queue, hqueue, rfl⟩ := settleTurn_some hturn
    exact h.turn hc hqueue
  have hstart := settleInv_start hc
  have hless : ∀ s s', SettleInv c s → settleTurn c s = some s' →
      c.ids.length - s'.settled.length < c.ids.length - s.settled.length := by
    intro s s' h hturn
    obtain ⟨id, queue, hqueue, rfl⟩ := settleTurn_some hturn
    have hself : id ∉ c.successors id := fun hv =>
      h.successor_not_ready hc hqueue hv (by rw [hqueue]; simp)
    have hlength := (h.once.subperm h.inside).length_le
    rw [hqueue, List.length_append, List.length_cons] at hlength
    rw [foldl_reach (hc.single id) hself]
    show c.ids.length - (id :: s.settled).length < c.ids.length - s.settled.length
    rw [List.length_cons]
    omega
  have hstops : settleTurn c (settle c) = none :=
    loop_stops hkeeps hless hstart (Nat.sub_le _ _)
  exact ⟨loop_invariant hkeeps _ hstart, settleTurn_none hstops⟩

/-- Without a cycle everything is settled, at the end of the longest chains. -/
theorem isGreatest_column (hc : CollectInv seen c) (hacyclic : Acyclic (Kept linkKey seen))
    (id : JsString) : IsGreatest {k | EndsAfter (Kept linkKey seen) k id} (column c id) := by
  obtain ⟨hinv, hempty⟩ := settle_spec hc
  have hkept : (fun u v => v ∈ c.successors u) = Kept linkKey seen :=
    funext fun u => funext fun v => propext (hc.successors u v)
  have hnodes : ∀ u v, Kept linkKey seen u v → u ∈ c.ids := fun u v hlink =>
    (hc.inside _ (mem_of_kept hlink)).1
  have hall : ∀ v ∈ c.ids, v ∈ (settle c).settled := by
    intro v hv
    by_contra hout
    refine hacyclic.not_of_pred hnodes (S := fun v => v ∈ c.ids ∧ v ∉ (settle c).settled) ?_ v
      ⟨hv, hout⟩
    rintro w ⟨hw, hwout⟩
    have hunread : (unread c (settle c).settled w).length ≠ 0 := by
      intro hzero
      have hready := (hinv.ready w hw).mp (by rw [hinv.pending w, hzero]; rfl)
      rw [hempty, List.append_nil] at hready
      exact hwout hready
    obtain ⟨u, hu⟩ := List.exists_mem_of_length_pos (Nat.pos_of_ne_zero hunread)
    obtain ⟨humem, hlink, huout⟩ := mem_unread.mp hu
    exact ⟨hw, u, ⟨humem, huout⟩, (hc.successors u w).mp hlink⟩
  have hcolumn : column c = (settle c).column := by
    have hfold : ∀ (rest : List JsString), (∀ v ∈ rest, v ∈ (settle c).settled) →
        rest.foldl (fun column id => if id ∈ (settle c).settled then column
          else Function.update column id (leftoverColumn c column id)) (settle c).column =
            (settle c).column := by
      intro rest
      induction rest with
      | nil => exact fun _ => rfl
      | cons v rest ih =>
          intro hrest
          rw [List.foldl_cons, if_pos (hrest v List.mem_cons_self)]
          exact ih fun w hw => hrest w (List.mem_cons_of_mem v hw)
    exact hfold c.ids hall
  rw [hcolumn]
  refine isGreatest_of_settled (fun v => hkept ▸ hinv.supported v) (fun u v hlink => ?_) id
  exact hinv.raised u (hall u (hnodes u v hlink)) v ((hc.successors u v).mpr hlink)

end Settle

/-! ## Geometry -/

section Apart

variable {flows : List Flow} {activeId : Option JsString} {a b : Placed}

theorem not_overlaps_of_left (h : a.x + a.width ≤ b.x) : ¬ a.Overlaps b := by
  rintro ⟨-, hx, -⟩
  omega

theorem not_overlaps_of_above (h : a.y + a.height ≤ b.y) : ¬ a.Overlaps b := by
  rintro ⟨-, -, -, hy⟩
  linarith

theorem overlaps_comm : a.Overlaps b ↔ b.Overlaps a :=
  ⟨fun ⟨hx, hx', hy, hy'⟩ => ⟨hx', hx, hy', hy⟩, fun ⟨hx, hx', hy, hy'⟩ => ⟨hx', hx, hy', hy⟩⟩

theorem mem_placeList {x c : Nat} {y : Rat} {list : List Member} (h : a ∈ placeList x c y list) :
    a.x = x ∧ a.column = c ∧ y ≤ a.y ∧
      ∃ m ∈ list, a.id = m.id ∧ a.width = m.width ∧ a.height = m.height := by
  induction list generalizing y with
  | nil => exact absurd h List.not_mem_nil
  | cons m rest ih =>
      rcases List.mem_cons.mp h with rfl | h
      · exact ⟨rfl, rfl, le_refl y, m, List.mem_cons_self, rfl, rfl, rfl⟩
      · obtain ⟨hx, hc, hy, m', hm', hfields⟩ := ih h
        refine ⟨hx, hc, ?_, m', List.mem_cons_of_mem m hm', hfields⟩
        have hheight : (0 : Rat) ≤ m.height := Nat.cast_nonneg _
        have hgap : (0 : Rat) ≤ rowGap := Nat.cast_nonneg _
        linarith

/-- Every member of a column starts below the one before it. -/
theorem placeList_apart (x c : Nat) (y : Rat) (list : List Member) :
    (placeList x c y list).Pairwise fun a b => ¬ a.Overlaps b := by
  induction list generalizing y with
  | nil => exact List.Pairwise.nil
  | cons m rest ih =>
      refine List.pairwise_cons.mpr ⟨fun b hb => not_overlaps_of_above ?_, ih _⟩
      have hgap : (0 : Rat) ≤ rowGap := Nat.cast_nonneg _
      have hbelow := (mem_placeList hb).2.2.1
      show y + m.height ≤ b.y
      linarith

theorem exists_placed {x c : Nat} {y : Rat} {list : List Member} {m : Member} (h : m ∈ list) :
    ∃ a ∈ placeList x c y list, a.id = m.id := by
  induction list generalizing y with
  | nil => exact absurd h List.not_mem_nil
  | cons m' rest ih =>
      rcases List.mem_cons.mp h with rfl | h
      · exact ⟨_, List.mem_cons_self, rfl⟩
      · obtain ⟨a, ha, hid⟩ := ih h (y := y + m'.height + rowGap)
        exact ⟨a, List.mem_cons_of_mem _ ha, hid⟩

theorem columnX_mono {c c' : Nat} (h : c ≤ c') :
    columnX flows activeId c ≤ columnX flows activeId c' := by
  induction h with
  | refl => exact Nat.le_refl _
  | step _ ih =>
      rw [columnX]
      omega

theorem width_le {c : Nat} {m : Member} (h : m ∈ listOf flows activeId c) :
    m.width ≤ columnWidth flows activeId c :=
  le_foldl_max (Or.inl (List.mem_map.mpr ⟨m, h, rfl⟩))

/-- A column ends before the next one starts. -/
theorem apart_of_column_lt {c c' : Nat} (hlt : c < c') (ha : a ∈ placeColumn flows activeId c)
    (hb : b ∈ placeColumn flows activeId c') : ¬ a.Overlaps b := by
  obtain ⟨hax, -, -, m, hm, -, hwidth, -⟩ := mem_placeList ha
  obtain ⟨hbx, -, -, -⟩ := mem_placeList hb
  refine not_overlaps_of_left ?_
  have hstep : columnX flows activeId (c + 1) =
      columnX flows activeId c + columnWidth flows activeId c + gap flows c := rfl
  have hmono : columnX flows activeId (c + 1) ≤ columnX flows activeId c' := columnX_mono hlt
  have hle := width_le hm
  rw [hax, hbx, hwidth]
  omega

theorem placed_apart (flows : List Flow) (activeId : Option JsString) :
    (placed flows activeId).Pairwise fun a b => ¬ a.Overlaps b := by
  rw [placed, List.pairwise_flatMap]
  refine ⟨fun c _ => placeList_apart _ _ _ _, ?_⟩
  exact List.pairwise_lt_range.imp fun hlt a ha b hb => apart_of_column_lt hlt ha hb

/-! ## Cards and caps -/

theorem isCapId_capId (id : JsString) : isCapId (capId id) = true := by
  rw [isCapId, capId, List.isPrefixOf_iff_prefix]
  exact List.prefix_append _ _

theorem anchorOf_capId (id : JsString) : anchorOf (capId id) = id := by
  rw [anchorOf, isCapId_capId]
  rfl

/-- The table keeps each member under its own id: a card, or the cap of a symbol. -/
theorem memberTable_entries {e : JsString × Member} (h : e ∈ memberTable flows activeId) :
    e.2.id = e.1 ∧ (e.1 ∈ (collect flows).ids ∨
      ∃ cap ∈ caps flows, e.1 = capId cap.1) := by
  have hfold : ∀ (list : List ((JsString × FlowBoundary) × Nat)) (table : List (JsString × Member)),
      e ∈ list.foldl (fun members cap =>
        setEntry members (capId cap.1.1) ⟨capId cap.1.1, endCapWidth, cap.1.2.endCapHeight,
          (collect flows).cards.length + cap.2, cap.1.1 ∈ activeIds flows activeId⟩) table →
      e ∈ table ∨ e.2.id = e.1 ∧ ∃ cap ∈ list, e.1 = capId cap.1.1 := by
    intro list
    induction list with
    | nil => exact fun table he => Or.inl he
    | cons cap list ih =>
        intro table he
        rcases ih _ he with he | ⟨hid, other, hother, hkey⟩
        · rcases mem_setEntry he with rfl | he
          · exact Or.inr ⟨rfl, cap, List.mem_cons_self, rfl⟩
          · exact Or.inl he
        · exact Or.inr ⟨hid, other, List.mem_cons_of_mem cap hother, hkey⟩
  rcases hfold _ _ h with hcard | ⟨hid, cap, hcap, hkey⟩
  · obtain ⟨card, hmem, rfl⟩ := List.mem_map.mp hcard
    exact ⟨rfl, Or.inl (List.mem_map.mpr ⟨card, hmem, rfl⟩)⟩
  · exact ⟨hid, Or.inr ⟨cap.1, (List.mem_zipIdx' hcap).2 ▸ List.getElem_mem _, hkey⟩⟩

theorem mem_memberTable_keys (activeId : Option JsString) {id : JsString}
    (h : id ∈ (collect flows).ids) :
    id ∈ (memberTable flows activeId).map Prod.fst := by
  have hfold : ∀ (list : List ((JsString × FlowBoundary) × Nat)) (table : List (JsString × Member)),
      id ∈ table.map Prod.fst → id ∈ (list.foldl (fun members cap =>
        setEntry members (capId cap.1.1) ⟨capId cap.1.1, endCapWidth, cap.1.2.endCapHeight,
          (collect flows).cards.length + cap.2, cap.1.1 ∈ activeIds flows activeId⟩)
            table).map Prod.fst := by
    intro list
    induction list with
    | nil => exact fun table hmem => hmem
    | cons cap list ih =>
        intro table hmem
        exact ih _ ((mem_keys_setEntry _ _ _ _).mpr (Or.inr hmem))
  refine hfold _ _ ?_
  obtain ⟨card, hcard, rfl⟩ := List.mem_map.mp h
  exact List.mem_map.mpr ⟨_, List.mem_map.mpr ⟨card, hcard, rfl⟩, rfl⟩

theorem columnOf_plain {id : JsString} (h : isCapId id = false) :
    columnOf flows id = column (collect flows) id := by
  have hnone : (capColumn flows).lookup id = none := by
    rw [List.lookup_eq_none_iff]
    intro e he
    obtain ⟨cap, -, rfl⟩ := List.mem_map.mp he
    have hne : id ≠ capId cap.1 := by
      rintro rfl
      rw [isCapId_capId] at h
      cases h
    simpa using hne
  rw [columnOf, hnone]
  rfl

theorem mem_placed (h : a ∈ placed flows activeId) :
    ∃ e ∈ memberTable flows activeId, a.id = e.1 ∧ a.column = columnOf flows e.1 := by
  obtain ⟨c, -, hc⟩ := List.mem_flatMap.mp h
  obtain ⟨-, hcolumn, -, m, hm, hid, -⟩ := mem_placeList hc
  obtain ⟨hmember, hof⟩ := List.mem_filter.mp (List.mem_mergeSort.mp hm)
  obtain ⟨e, he, rfl⟩ := List.mem_map.mp hmember
  have hkey := (memberTable_entries he).1
  refine ⟨e, he, hid.trans hkey, ?_⟩
  rw [hcolumn, ← hkey]
  exact (of_decide_eq_true hof).symm

theorem exists_mem_placed (activeId : Option JsString) {id : JsString}
    (h : id ∈ (collect flows).ids) :
    ∃ a ∈ placed flows activeId, a.id = id := by
  obtain ⟨e, he, rfl⟩ := List.mem_map.mp (mem_memberTable_keys activeId h)
  have hkey := (memberTable_entries he).1
  have hmember : e.2 ∈ members flows activeId := List.mem_map.mpr ⟨e, he, rfl⟩
  have hlist : e.2 ∈ listOf flows activeId (columnOf flows e.1) := by
    refine List.mem_mergeSort.mpr (List.mem_filter.mpr ⟨hmember, ?_⟩)
    rw [hkey]
    exact decide_eq_true rfl
  have hcolumn : columnOf flows e.1 < columns flows activeId := by
    refine Nat.lt_succ_of_le (le_foldl_max (Or.inl (List.mem_map.mpr ⟨e.2, hmember, ?_⟩)))
    rw [hkey]
  obtain ⟨a, ha, hid⟩ := exists_placed hlist
    (x := columnX flows activeId (columnOf flows e.1)) (c := columnOf flows e.1)
    (y := padding + ((tallest flows activeId : Rat) -
      columnHeight flows activeId (columnOf flows e.1)) / 2)
  exact ⟨a, List.mem_flatMap.mpr ⟨_, List.mem_range.mpr hcolumn, ha⟩, hid.trans hkey⟩

end Apart

end FlowLayout

/-! ## The layout of every picture -/

namespace FlowPicture

variable {p : FlowPicture}

theorem collected (p : FlowPicture) : CollectInv p.links (collect p.flows) :=
  (collectInv p.flows).1

theorem plain_ids {id : JsString} (h : id ∈ (collect p.flows).ids) : isCapId id = false := by
  obtain ⟨flow, hflow, hop, hhop, rfl⟩ := mem_ids_collect h
  exact p.plain flow hflow hop hhop

theorem mem_cards {card : Placed} (h : card ∈ p.layout.cards) :
    card.id ∈ (collect p.flows).ids ∧ card.column = column (collect p.flows) card.id := by
  obtain ⟨hplaced, hcard⟩ := List.mem_filter.mp (List.mem_mergeSort.mp h)
  split at hplaced
  · exact absurd hplaced List.not_mem_nil
  · obtain ⟨e, he, hid, hcolumn⟩ := mem_placed hplaced
    rcases (memberTable_entries he).2 with hmem | ⟨cap, hcap, hkey⟩
    · rw [hid, hcolumn, columnOf_plain (plain_ids hmem)]
      exact ⟨hmem, rfl⟩
    · rw [hid, hkey, isEndCap, isCapId_capId, anchorOf_capId] at hcard
      have hlook : ((caps p.flows).lookup cap.1).isSome := by
        by_contra hnone
        have hout := List.lookup_eq_none_iff.mp (Option.not_isSome_iff_eq_none.mp hnone) cap hcap
        simp at hout
      rw [hlook] at hcard
      cases hcard

theorem exists_card {id : JsString} (h : id ∈ (collect p.flows).ids) :
    ∃ card ∈ p.layout.cards, card.id = id := by
  obtain ⟨a, ha, rfl⟩ := exists_mem_placed p.activeId h
  refine ⟨a, List.mem_mergeSort.mpr (List.mem_filter.mpr ⟨?_, ?_⟩), rfl⟩
  · rw [if_neg]
    · exact ha
    · rw [List.length_eq_zero_iff]
      intro hnil
      rw [Collected.ids, hnil] at h
      exact absurd h List.not_mem_nil
  · rw [isEndCap, plain_ids h, Bool.and_false]
    rfl

/-- No two rectangles of the picture overlap. -/
theorem layout_apart (p : FlowPicture) :
    (p.layout.cards ++ p.layout.endCaps).Pairwise fun a b => ¬ a.Overlaps b := by
  have hplaced : (if (collect p.flows).cards.length = 0 then []
      else placed p.flows p.activeId).Pairwise fun a b => ¬ a.Overlaps b := by
    split
    · exact List.Pairwise.nil
    · exact placed_apart p.flows p.activeId
  have hsymm : ∀ {a b : Placed}, ¬ a.Overlaps b → ¬ b.Overlaps a :=
    fun hapart hover => hapart (overlaps_comm.mp hover)
  refine (List.Perm.pairwise_iff hsymm ?_).mpr hplaced
  refine ((List.mergeSort_perm _ _).append (List.mergeSort_perm _ _)).trans ?_
  refine List.perm_append_comm.trans ?_
  exact List.filter_append_perm _ _

/-- Where the links have no cycle, a link whose joined ids read like those of an earlier one is
made up for by a longer chain of the others. -/
def LostLinksCovered (p : FlowPicture) : Prop :=
  Acyclic p.HopLink → ∀ u v, p.HopLink u v → ¬ Kept linkKey p.links u v →
    ∃ k, EndsAfter (Kept linkKey p.links) k v ∧ ∀ j, EndsAfter (Kept linkKey p.links) j u → j < k

theorem acyclic_kept (h : Acyclic p.HopLink) : Acyclic (Kept linkKey p.links) := fun v hcycle =>
  h v (Relation.TransGen.mono (fun _ _ => mem_of_kept) _ _ hcycle)

theorem settled_of_covered (hcovered : p.LostLinksCovered) (hacyclic : Acyclic p.HopLink) :
    Settled p.HopLink (column (collect p.flows)) := by
  intro u v hlink
  have hgreatest := isGreatest_column p.collected (acyclic_kept hacyclic)
  by_cases hkept : Kept linkKey p.links u v
  · exact Nat.lt_of_succ_le ((hgreatest v).2 (Steps.step (hgreatest u).1 hkept))
  · obtain ⟨k, hchain, hlonger⟩ := hcovered hacyclic u v hlink hkept
    exact Nat.lt_of_lt_of_le (hlonger _ (hgreatest u).1) ((hgreatest v).2 hchain)

theorem layoutHolds_of_covered (hcovered : p.LostLinksCovered) : p.LayoutHolds := by
  refine ⟨p.layout_apart, fun flow hflow hop hhop => ?_, fun hacyclic card hcard => ?_,
    fun hacyclic a ha b hb hlink => ?_⟩
  · exact exists_card ((collectInv p.flows).2 flow hflow hop hhop)
  · rw [(mem_cards hcard).2]
    refine isGreatest_of_settled (fun v => ?_) (settled_of_covered hcovered hacyclic) card.id
    exact (isGreatest_column p.collected (acyclic_kept hacyclic) v).1.mono
      (fun _ _ => mem_of_kept) fun _ h => h
  · rw [(mem_cards ha).2, (mem_cards hb).2]
    exact settled_of_covered hcovered hacyclic a.id b.id hlink

/-- The layout keeps its promises exactly when no lost link shortens a chain. -/
theorem layoutHolds_iff_lostLinksCovered (p : FlowPicture) :
    p.LayoutHolds ↔ p.LostLinksCovered := by
  refine ⟨fun h hacyclic u v hlink _ => ?_, layoutHolds_of_covered⟩
  have hgreatest := isGreatest_column p.collected (acyclic_kept hacyclic)
  obtain ⟨hu, hv⟩ := p.collected.inside _ hlink
  obtain ⟨a, ha, rfl⟩ := exists_card hu
  obtain ⟨b, hb, rfl⟩ := exists_card hv
  refine ⟨_, (hgreatest b.id).1, fun j hj => ?_⟩
  have hlonger := (h.longest hacyclic b hb).2 (Steps.step (h.longest hacyclic a ha).1 hlink)
  have hle := (hgreatest a.id).2 hj
  rw [(mem_cards ha).2, (mem_cards hb).2] at hlonger
  omega

section Collision

def hopTo (node : String) : FlowHop := ⟨node.toList.map unit, 0, some ⟨18⟩⟩

/-- Two flows of two files each; the second link reads like the first. -/
def spacedFiles : FlowPicture where
  flows := [⟨[], [hopTo "file:a file:b", hopTo "file:c"], none⟩,
    ⟨[], [hopTo "file:a", hopTo "file:b file:c"], none⟩]
  activeId := none
  plain := by decide +kernel

/-- The second link is lost, and its target stays level with its source. -/
theorem not_layoutHolds_spacedFiles : ¬ spacedFiles.LayoutHolds := by
  have hlinks : spacedFiles.links =
      [((hopTo "file:a file:b").node, (hopTo "file:c").node),
        ((hopTo "file:a").node, (hopTo "file:b file:c").node)] := rfl
  have hsettled : Settled spacedFiles.HopLink fun v =>
      if v = (hopTo "file:c").node ∨ v = (hopTo "file:b file:c").node then 1 else 0 := by
    intro u v hlink
    rw [HopLink, hlinks] at hlink
    rcases List.mem_cons.mp hlink with heq | hlink
    · obtain ⟨rfl, rfl⟩ := Prod.mk.inj heq
      decide +kernel
    · obtain ⟨rfl, rfl⟩ := Prod.mk.inj (List.mem_singleton.mp hlink)
      decide +kernel
  have hmem : (hopTo "file:b file:c").node ∈ (collect spacedFiles.flows).ids := by decide +kernel
  have hlevel : column (collect spacedFiles.flows) (hopTo "file:b file:c").node = 0 := by
    decide +kernel
  intro h
  obtain ⟨card, hcard, hid⟩ := exists_card hmem
  have hgreatest := h.longest hsettled.acyclic card hcard
  rw [(mem_cards hcard).2, hid, hlevel] at hgreatest
  have hchain : EndsAfter spacedFiles.HopLink 1 (hopTo "file:b file:c").node := by
    refine Steps.step (Steps.source trivial) (u := (hopTo "file:a").node) ?_
    rw [HopLink, hlinks]
    exact List.mem_cons_of_mem _ List.mem_cons_self
  exact absurd (hgreatest.2 hchain) (by decide)

end Collision

/-! ## Ids without spaces -/

theorem linkKey_injective {u v u' v' : JsString} (hu : unit ' ' ∉ u) (hu' : unit ' ' ∉ u')
    (h : linkKey u v = linkKey u' v') : u = u' ∧ v = v' := by
  induction u generalizing u' with
  | nil =>
      cases u' with
      | nil => exact ⟨rfl, List.tail_eq_of_cons_eq h⟩
      | cons x u' =>
          obtain ⟨rfl, -⟩ := List.cons.inj h
          exact absurd List.mem_cons_self hu'
  | cons x u ih =>
      cases u' with
      | nil =>
          obtain ⟨rfl, -⟩ := List.cons.inj h
          exact absurd List.mem_cons_self hu
      | cons x' u' =>
          obtain ⟨rfl, hrest⟩ := List.cons.inj h
          obtain ⟨rfl, rfl⟩ := ih (fun hmem => hu (List.mem_cons_of_mem x hmem))
            (fun hmem => hu' (List.mem_cons_of_mem x hmem)) hrest
          exact ⟨rfl, rfl⟩

/-- No link is lost where no id has a space. -/
theorem layoutHolds_of_no_space (p : FlowPicture)
    (h : ∀ flow ∈ p.flows, ∀ hop ∈ flow.hops, unit ' ' ∉ hop.node) : p.LayoutHolds := by
  refine layoutHolds_of_covered fun _ u v hlink hlost => ?_
  have hplain : ∀ l ∈ p.links, unit ' ' ∉ l.1 := by
    intro l hl
    obtain ⟨flow, hflow, hop, hhop, hid⟩ := mem_ids_collect (p.collected.inside l hl).1
    exact hid ▸ h flow hflow hop hhop
  refine absurd ?_ hlost
  cases hfirst : firstLink linkKey p.links u v with
  | none =>
      have htaken : (firstLink linkKey p.links u v).isSome := firstLink_isSome_of_mem hlink
      rw [hfirst] at htaken
      cases htaken
  | some l =>
      obtain ⟨hmem, hkey⟩ := key_of_firstLink hfirst
      obtain ⟨hsource, htarget⟩ := linkKey_injective (hplain l hmem)
        (hplain (u, v) hlink) hkey
      rw [Kept, hfirst]
      exact congrArg some (Prod.ext hsource htarget)

end FlowPicture

end AfyxGraph.Ui
