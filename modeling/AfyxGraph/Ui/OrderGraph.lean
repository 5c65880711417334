import AfyxGraph.Core.KeyedLinks
import AfyxGraph.Ui.StepRows

/-! # The order graph

The block tree of a program is read with the tails that a next step would follow. A fork with two
drawn arms or more gets a point of its own; an arm that ends leaves no tail. What nothing leads to
in the end follows the anchor.
-/

namespace AfyxGraph.Ui

open AfyxGraph.Core

inductive ForkForm where
  | if_ | switch | ternary | try_
  deriving DecidableEq, Repr

inductive WireArmEnd where
  | reply | return_ | throw_ | exit_
  deriving DecidableEq, Repr

inductive BlockKind where
  | inline_ | loop_ | later | together
  deriving DecidableEq, Repr

mutual

inductive WireItem where
  /-- A step without a body has an empty one. -/
  | step (step : Text) (body : List WireItem)
  | fork (on : Text) (form : ForkForm) (arms : List WireArm)
  /-- `isWhile` is for loops; `via` is the name of the helper. -/
  | block (kind : BlockKind) (by_ : Option Text) (isWhile : Bool) (via : Option Text)
      (body : List WireItem)
  | cut

inductive WireArm where
  | arm (when : Text) (not_ : Bool) (ends : Option WireArmEnd) (body : List WireItem)

end

abbrev WireBlock := List WireItem

/-- Where a next step would follow from, and under what. -/
structure Tail where
  id : Text
  when : List Text
  runs : List Text
  arm : Option Text
  deriving DecidableEq, Repr

structure OrderFork where
  id : Text
  on : Text
  form : ForkForm
  deriving DecidableEq, Repr

/-- What the reading has so far; `at` holds the links under the keys of their ends. -/
structure OrderReading where
  edges : List OrderEdge
  seen : List Text
  forks : List OrderFork
  deriving DecidableEq, Repr

namespace OrderGraph

/-- The two ids with a space between them. -/
def linkKey (source target : Text) : Text := source ++ ' ' :: target

/-! ## Words -/

/-- An empty text says nothing. -/
def said (text : Option Text) : Option Text := text.filter (· ≠ [])

def runWords (kind : BlockKind) (by_ : Option Text) (isWhile : Bool) (via : Option Text) : Text :=
  match kind, said by_ with
  | .inline_, _ =>
      match via with
      | some name => "via ".toList ++ name
      | none => "via a helper".toList
  | .loop_, none => if isWhile then "again and again".toList else "for each item".toList
  | .loop_, some words =>
      (if isWhile then "again while ".toList else "for each ".toList) ++ words
  | .later, none => "later".toList
  | .later, some words => "later · ".toList ++ words
  | .together, none => "together".toList
  | .together, some words => "together · ".toList ++ words

/-- `list.filter((w, i) => w && list.indexOf(w) === i).join(' && ')` -/
def joinWhen (conditions : List Text) : Text :=
  (" && ".toList).intercalate ((conditions.filter (· ≠ [])).reverse.dedup.reverse)

def joinRuns (runs more : List Text) : List Text :=
  more.foldl (fun runs r => if r ∈ runs then runs else runs ++ [r]) runs

/-- A second way to the same step keeps both conditions. -/
def mergeEdge (found : OrderEdge) (when : Text) (tail : Tail) : OrderEdge :=
  { found with
    when :=
      if when = found.when then found.when
      else if when = [] ∨ found.when = [] then [] else found.when ++ " || ".toList ++ when
    runs := joinRuns found.runs tail.runs
    arm := if found.arm = tail.arm then found.arm else none }

/-! ## The reading -/

def edgeKey (e : OrderEdge) : Text := linkKey e.from_ e.to_

def join (r : OrderReading) (source target : Text) (tail : Tail) : OrderReading :=
  if source = target then r
  else
    let when := joinWhen tail.when
    if linkKey source target ∈ r.edges.map edgeKey then
      { r with
        edges := r.edges.map fun e =>
          if edgeKey e = linkKey source target then mergeEdge e when tail else e }
    else { r with edges := r.edges ++ [⟨source, target, when, tail.runs, tail.arm⟩] }

/-- The tail, inside the runs. -/
def Tail.inside (runs : List Text) (t : Tail) : Tail := { t with runs := t.runs ++ runs }

def joinTails (r : OrderReading) (tails : List Tail) (target : Text) (runs : List Text) :
    OrderReading :=
  tails.foldl (fun r t => join r t.id target (Tail.inside runs t)) r

def see (r : OrderReading) (step : Text) : OrderReading :=
  if step ∈ r.seen then r else { r with seen := r.seen ++ [step] }

mutual

/-- Whether anything in the block draws a box. -/
def hasStep : List WireItem → Bool
  | [] => false
  | item :: rest => itemHasStep item || hasStep rest

def itemHasStep : WireItem → Bool
  | .step _ _ => true
  | .fork _ _ arms => armsHaveStep arms
  | .block _ _ _ _ body => hasStep body
  | .cut => false

def armsHaveStep : List WireArm → Bool
  | [] => false
  | .arm _ _ _ body :: rest => hasStep body || armsHaveStep rest

end

def WireArm.body : WireArm → WireBlock
  | .arm _ _ _ body => body

def drawnArms (arms : List WireArm) : Nat := (arms.filter fun a => hasStep (WireArm.body a)).length

def forkId (n : Nat) : Text := "fork:".toList ++ (toString n).toList

section Flow

variable (armWord : (on : Text) → ForkForm → (when : Text) → (not_ : Bool) → Text)

/-- The point of a fork, and the reading with it. -/
def drawPoint (r : OrderReading) (tails : List Tail) (runs : List Text) (on : Text)
    (form : ForkForm) (arms : List WireArm) : OrderReading × Option Text :=
  if 2 ≤ drawnArms arms ∧ tails ≠ [] then
    let id := forkId r.forks.length
    (joinTails { r with forks := r.forks ++ [⟨id, on, form⟩] } tails id runs, some id)
  else (r, none)

def armEntry (tails : List Tail) (runs : List Text) (on : Text) (form : ForkForm)
    (point : Option Text) (when : Text) (not_ : Bool) (body : WireBlock) : List Tail :=
  match point, hasStep body with
  | some id, true => [⟨id, [when], runs, some (armWord on form when not_)⟩]
  | _, _ => tails.map fun t => ⟨t.id, t.when ++ [when], t.runs ++ runs, none⟩

mutual

def flow (r : OrderReading) (tails : List Tail) (runs : List Text) :
    List WireItem → OrderReading × List Tail
  | [] => (r, tails)
  | item :: rest =>
      let (r, tails) := flowItem r tails runs item
      flow r tails runs rest

def flowItem (r : OrderReading) (tails : List Tail) (runs : List Text) :
    WireItem → OrderReading × List Tail
  | .step step body => flow (joinTails (see r step) tails step runs) [⟨step, [], [], none⟩] [] body
  | .fork on form arms =>
      let (r, point) := drawPoint r tails runs on form arms
      let (r, out) := flowArms r tails runs on form point arms
      (r, if arms.length < 2 then out ++ tails.map (Tail.inside runs) else out)
  | .block kind by_ isWhile via body =>
      let label := runWords kind by_ isWhile via
      let (r, inner) := flow r tails (runs ++ [label]) body
      (r, (if inner ≠ [] then inner else tails).map fun t =>
        { t with runs := t.runs.filter (· ≠ label) })
  | .cut => (r, tails)

/-- The arms of a fork; an arm that ends leaves no tail. -/
def flowArms (r : OrderReading) (tails : List Tail) (runs : List Text) (on : Text) (form : ForkForm)
    (point : Option Text) : List WireArm → OrderReading × List Tail
  | [] => (r, [])
  | .arm when not_ ends body :: rest =>
      let (r, armTails) := flow r (armEntry armWord tails runs on form point when not_ body) [] body
      let (r, out) := flowArms r tails runs on form point rest
      (r, (if ends.isNone then armTails else []) ++ out)

end

end Flow

/-- What nothing leads to follows the anchor. -/
def placeStep (anchor : Text) (r : OrderReading) (id : Text) : OrderReading :=
  if id ≠ anchor ∧ id ∉ r.edges.map (·.to_) then join r anchor id ⟨anchor, [], [], none⟩ else r

end OrderGraph

open OrderGraph

structure OrderGraph where
  edges : List OrderEdge
  depth : RowTable
  forks : List OrderFork

/-- `armWord` is the word on a line out of a decision's point. -/
def orderGraph (armWord : (on : Text) → ForkForm → (when : Text) → (not_ : Bool) → Text)
    (root : WireBlock) (anchor : Text) : OrderGraph :=
  let r := (flow armWord ⟨[], [anchor], []⟩ [⟨anchor, [], [], none⟩] [] root).1
  let r := r.seen.foldl (placeStep anchor) r
  { edges := r.edges
    depth := rows anchor (r.seen ++ (r.forks.map (·.id)).filter (· ∉ r.seen)) r.edges
    forks := r.forks }

/-! ## What the reading meets

The same reading with the words left out: the steps and the points in the order in which they are
met, each with what it would follow.
-/

namespace OrderGraph

/-- A drawn arm of a fork with a point follows the point. -/
def entryTails (tails : List Text) (point : Option Text) (body : WireBlock) : List Text :=
  match point, hasStep body with
  | some id, true => [id]
  | _, _ => tails

structure Visit where
  node : Text
  isStep : Bool
  tails : List Text
  deriving DecidableEq, Repr

mutual

def meet (tails : List Text) (forks : Nat) : List WireItem → List Visit × List Text × Nat
  | [] => ([], tails, forks)
  | item :: rest =>
      let first := meetItem tails forks item
      let more := meet first.2.1 first.2.2 rest
      (first.1 ++ more.1, more.2)

def meetItem (tails : List Text) (forks : Nat) : WireItem → List Visit × List Text × Nat
  | .step step body =>
      let inner := meet [step] forks body
      (⟨step, true, tails⟩ :: inner.1, inner.2)
  | .fork _ _ arms =>
      if 2 ≤ drawnArms arms ∧ tails ≠ [] then
        let out := meetArms tails (some (forkId forks)) (forks + 1) arms
        (⟨forkId forks, false, tails⟩ :: out.1,
          if arms.length < 2 then out.2.1 ++ tails else out.2.1, out.2.2)
      else
        let out := meetArms tails none forks arms
        (out.1, if arms.length < 2 then out.2.1 ++ tails else out.2.1, out.2.2)
  | .block _ _ _ _ body =>
      let inner := meet tails forks body
      (inner.1, if inner.2.1 ≠ [] then inner.2.1 else tails, inner.2.2)
  | .cut => ([], tails, forks)

def meetArms (tails : List Text) (point : Option Text) (forks : Nat) :
    List WireArm → List Visit × List Text × Nat
  | [] => ([], [], forks)
  | .arm _ _ ends body :: rest =>
      let first := meet (entryTails tails point body) forks body
      let more := meetArms tails point first.2.2 rest
      (first.1 ++ more.1, (if ends.isNone then first.2.1 else []) ++ more.2.1, more.2.2)

end

/-- The links that the visits ask for. -/
def asked (visits : List Visit) : List (Text × Text) :=
  visits.flatMap fun v => (v.tails.map fun t => (t, v.node)).filter fun l => l.1 ≠ l.2

def stepsOf (visits : List Visit) : List Text := (visits.filter (·.isStep)).map (·.node)

/-! ## The graph from what is met -/

def ends (r : OrderReading) : List (Text × Text) := r.edges.map fun e => (e.from_, e.to_)

def askLink (kept : List (Text × Text)) (l : Text × Text) : List (Text × Text) :=
  if l.1 = l.2 then kept else keepLink linkKey kept l

def seeStep (seen : List Text) (step : Text) : List Text :=
  if step ∈ seen then seen else seen ++ [step]

/-- The links and the steps after a visit. -/
def afterVisit (s : List (Text × Text) × List Text) (v : Visit) :
    List (Text × Text) × List Text :=
  ((v.tails.map fun t => (t, v.node)).foldl askLink s.1,
    if v.isStep then seeStep s.2 v.node else s.2)

variable {r : OrderReading}

theorem key_taken_iff (r : OrderReading) (source target : Text) :
    linkKey source target ∈ r.edges.map edgeKey ↔
      (firstLink linkKey (ends r) source target).isSome := by
  rw [firstLink, List.find?_isSome, ends, List.mem_map]
  constructor
  · rintro ⟨e, he, hkey⟩
    exact ⟨_, List.mem_map.mpr ⟨e, he, rfl⟩, decide_eq_true hkey⟩
  · rintro ⟨l, hl, hkey⟩
    obtain ⟨e, he, rfl⟩ := List.mem_map.mp hl
    exact ⟨e, he, of_decide_eq_true hkey⟩

theorem ends_join (r : OrderReading) (source target : Text) (tail : Tail) :
    ends (join r source target tail) = askLink (ends r) (source, target) := by
  rw [join, askLink]
  split
  · rfl
  · rw [keepLink]
    by_cases hkey : linkKey source target ∈ r.edges.map edgeKey
    · simp only [if_pos hkey, if_pos ((key_taken_iff r source target).mp hkey)]
      rw [ends, ends, List.map_map]
      refine List.map_congr_left fun e _ => ?_
      dsimp only [Function.comp_apply]
      split <;> rfl
    · have hfree := fun htaken => hkey ((key_taken_iff r source target).mpr htaken)
      simp only [if_neg hkey, if_neg hfree]
      rw [ends, ends, List.map_append]
      rfl

theorem seen_join (r : OrderReading) (source target : Text) (tail : Tail) :
    (join r source target tail).seen = r.seen ∧ (join r source target tail).forks = r.forks := by
  rw [join]
  split
  · exact ⟨rfl, rfl⟩
  · dsimp only
    split <;> exact ⟨rfl, rfl⟩

theorem joinTails_spec (r : OrderReading) (tails : List Tail) (target : Text) (runs : List Text) :
    ends (joinTails r tails target runs) =
        ((tails.map (·.id)).map fun t => (t, target)).foldl askLink (ends r) ∧
      (joinTails r tails target runs).seen = r.seen ∧
      (joinTails r tails target runs).forks = r.forks := by
  rw [joinTails]
  induction tails generalizing r with
  | nil => exact ⟨rfl, rfl, rfl⟩
  | cons t tails ih =>
      obtain ⟨hends, hseen, hforks⟩ := ih (join r t.id target (Tail.inside runs t))
      obtain ⟨hseen', hforks'⟩ := seen_join r t.id target (Tail.inside runs t)
      rw [ends_join] at hends
      exact ⟨hends, hseen.trans hseen', hforks.trans hforks'⟩

/-- What the reading adds is what it meets. -/
structure Meets (r : OrderReading) (out : OrderReading × List Tail)
    (met : List Visit × List Text × Nat) : Prop where
  graph : (ends out.1, out.1.seen) = met.1.foldl afterVisit (ends r, r.seen)
  tails : out.2.map (·.id) = met.2.1
  forks : out.1.forks.length = met.2.2

theorem seen_see (r : OrderReading) (step : Text) :
    (see r step).seen = seeStep r.seen step ∧ ends (see r step) = ends r ∧
      (see r step).forks = r.forks := by
  rw [see, seeStep]
  split <;> exact ⟨rfl, rfl, rfl⟩

theorem tails_nil_iff {tails : List Tail} : tails.map (·.id) ≠ [] ↔ tails ≠ [] :=
  not_congr List.map_eq_nil_iff

theorem map_id_inside (tails : List Tail) (runs : List Text) :
    (tails.map (Tail.inside runs)).map (·.id) = tails.map (·.id) := by
  rw [List.map_map]
  rfl

section Simulation

variable (armWord : (on : Text) → ForkForm → (when : Text) → (not_ : Bool) → Text)

theorem map_id_armEntry (tails : List Tail) (runs : List Text) (on : Text) (form : ForkForm)
    (point : Option Text) (when : Text) (not_ : Bool) (body : WireBlock) :
    (armEntry armWord tails runs on form point when not_ body).map (·.id) =
      entryTails (tails.map (·.id)) point body := by
  unfold armEntry entryTails
  split
  · rfl
  · rw [List.map_map]
    rfl

/-- The point of a fork, where it gets one. -/
theorem drawPoint_pos {tails : List Tail} {arms : List WireArm} (runs : List Text) (on : Text)
    (form : ForkForm) (h : 2 ≤ drawnArms arms ∧ tails ≠ []) :
    (drawPoint r tails runs on form arms).2 = some (forkId r.forks.length) ∧
      (ends (drawPoint r tails runs on form arms).1,
        (drawPoint r tails runs on form arms).1.seen) =
        afterVisit (ends r, r.seen) ⟨forkId r.forks.length, false, tails.map (·.id)⟩ ∧
      (drawPoint r tails runs on form arms).1.forks.length = r.forks.length + 1 := by
  rw [drawPoint, if_pos h]
  obtain ⟨hends, hseen, hforks⟩ := joinTails_spec
    { r with forks := r.forks ++ [⟨forkId r.forks.length, on, form⟩] } tails
    (forkId r.forks.length) runs
  refine ⟨rfl, Prod.ext hends hseen, ?_⟩
  rw [hforks, List.length_append]
  rfl

mutual

theorem flow_meets (r : OrderReading) (tails : List Tail) (runs : List Text) : ∀ block,
    Meets r (flow armWord r tails runs block) (meet (tails.map (·.id)) r.forks.length block)
  | [] => by
      rw [flow, meet]
      exact ⟨rfl, rfl, rfl⟩
  | item :: rest => by
      have hitem := flowItem_meets r tails runs item
      have hrest := flow_meets (flowItem armWord r tails runs item).1
        (flowItem armWord r tails runs item).2 runs rest
      rw [hitem.tails, hitem.forks] at hrest
      rw [flow, meet]
      refine ⟨?_, hrest.tails, hrest.forks⟩
      rw [List.foldl_append, ← hitem.graph]
      exact hrest.graph

theorem flowItem_meets (r : OrderReading) (tails : List Tail) (runs : List Text) : ∀ item,
    Meets r (flowItem armWord r tails runs item)
      (meetItem (tails.map (·.id)) r.forks.length item)
  | .step step body => by
      obtain ⟨hends, hseen, hforks⟩ := joinTails_spec (see r step) tails step runs
      obtain ⟨hseen', hends', hforks'⟩ := seen_see r step
      have hbody := flow_meets (joinTails (see r step) tails step runs)
        [⟨step, [], [], none⟩] [] body
      rw [hforks, hforks'] at hbody
      rw [flowItem, meetItem]
      refine ⟨?_, hbody.tails, hbody.forks⟩
      rw [List.foldl_cons]
      refine hbody.graph.trans (congrArg (fun s => List.foldl afterVisit s _) ?_)
      rw [hends, hseen, hends', hseen']
      rfl
  | .fork on form arms => by
      by_cases hpoint : 2 ≤ drawnArms arms ∧ tails ≠ []
      · obtain ⟨hid, hgraph, hforks⟩ := drawPoint_pos runs on form hpoint
        have harms := flowArms_meets (drawPoint r tails runs on form arms).1 tails runs on form
          (some (forkId r.forks.length)) arms
        rw [hforks] at harms
        rw [flowItem, meetItem, if_pos ⟨hpoint.1, tails_nil_iff.mpr hpoint.2⟩]
        simp only [hid]
        refine ⟨?_, ?_, harms.forks⟩
        · rw [List.foldl_cons, ← hgraph]
          exact harms.graph
        · dsimp only
          rw [← harms.tails]
          split
          · rw [List.map_append, map_id_inside]
          · rfl
      · have hdraw : drawPoint r tails runs on form arms = (r, none) := if_neg hpoint
        have harms := flowArms_meets r tails runs on form none arms
        rw [flowItem, meetItem,
          if_neg fun h => hpoint ⟨h.1, tails_nil_iff.mp h.2⟩]
        simp only [hdraw]
        refine ⟨harms.graph, ?_, harms.forks⟩
        dsimp only
        rw [← harms.tails]
        split
        · rw [List.map_append, map_id_inside]
        · rfl
  | .block kind by_ isWhile via body => by
      have hbody := flow_meets r tails (runs ++ [runWords kind by_ isWhile via]) body
      rw [flowItem, meetItem]
      refine ⟨hbody.graph, ?_, hbody.forks⟩
      dsimp only
      rw [List.map_map, ← hbody.tails]
      by_cases hinner : (flow armWord r tails (runs ++ [runWords kind by_ isWhile via]) body).2 ≠ []
      · rw [if_pos hinner, if_pos (tails_nil_iff.mpr hinner)]
        rfl
      · rw [if_neg hinner, if_neg fun h => hinner (tails_nil_iff.mp h)]
        rfl
  | .cut => by
      rw [flowItem, meetItem]
      exact ⟨rfl, rfl, rfl⟩

theorem flowArms_meets (r : OrderReading) (tails : List Tail) (runs : List Text) (on : Text)
    (form : ForkForm) (point : Option Text) : ∀ arms,
    Meets r (flowArms armWord r tails runs on form point arms)
      (meetArms (tails.map (·.id)) point r.forks.length arms)
  | [] => by
      rw [flowArms, meetArms]
      exact ⟨rfl, rfl, rfl⟩
  | .arm when not_ armEnds body :: rest => by
      have hbody := flow_meets r (armEntry armWord tails runs on form point when not_ body) [] body
      rw [map_id_armEntry] at hbody
      have hrest := flowArms_meets
        (flow armWord r (armEntry armWord tails runs on form point when not_ body) [] body).1
        tails runs on form point rest
      rw [hbody.forks] at hrest
      rw [flowArms, meetArms]
      refine ⟨?_, ?_, hrest.forks⟩
      · rw [List.foldl_append, ← hbody.graph]
        exact hrest.graph
      · dsimp only
        rw [List.map_append, hrest.tails, ← hbody.tails]
        split <;> rfl

end

end Simulation

/-! ## The links and the steps -/

theorem seeStep_spec {seen : List Text} (h : seen.Nodup) (step : Text) :
    (seeStep seen step).Nodup ∧ ∀ x, x ∈ seeStep seen step ↔ x ∈ seen ∨ x = step := by
  rw [seeStep]
  split
  · rename_i hmem
    refine ⟨h, fun x => (or_iff_left_of_imp ?_).symm⟩
    rintro rfl
    exact hmem
  · rename_i hnew
    refine ⟨List.nodup_append.mpr ⟨h, List.nodup_singleton _, ?_⟩, fun x => ?_⟩
    · rintro a ha b hb rfl
      exact hnew (List.mem_singleton.mp hb ▸ ha)
    · rw [List.mem_append, List.mem_singleton]

/-- The kept links are those that were asked for first, the steps those that were met. -/
theorem foldl_afterVisit (visits : List Visit) (kept : List (Text × Text)) {seen : List Text}
    (h : seen.Nodup) :
    (visits.foldl afterVisit (kept, seen)).1 = (asked visits).foldl (keepLink linkKey) kept ∧
      (visits.foldl afterVisit (kept, seen)).2.Nodup ∧
      ∀ x, x ∈ (visits.foldl afterVisit (kept, seen)).2 ↔ x ∈ seen ∨ x ∈ stepsOf visits := by
  induction visits generalizing kept seen with
  | nil => exact ⟨rfl, h, fun x => (or_iff_left List.not_mem_nil).symm⟩
  | cons v visits ih =>
      have hlinks : ∀ (l : List (Text × Text)) (kept : List (Text × Text)),
          l.foldl askLink kept = (l.filter fun l => l.1 ≠ l.2).foldl (keepLink linkKey) kept := by
        intro l
        induction l with
        | nil => exact fun _ => rfl
        | cons link l ihl =>
            intro kept
            rw [List.foldl_cons, ihl, askLink, List.filter_cons]
            by_cases hself : link.1 = link.2
            · simp [hself]
            · simp [hself]
      rw [List.foldl_cons, afterVisit, asked, List.flatMap_cons, List.foldl_append, ← hlinks]
      by_cases hstep : v.isStep
      · obtain ⟨hnodup, hmem⟩ := seeStep_spec h v.node
        obtain ⟨hkept, hrest, hsteps⟩ := ih
          ((v.tails.map fun t => (t, v.node)).foldl askLink kept) hnodup
        simp only [if_pos hstep]
        refine ⟨hkept, hrest, fun x => ?_⟩
        rw [hsteps, hmem, stepsOf, stepsOf, List.filter_cons_of_pos hstep, List.map_cons,
          List.mem_cons, or_assoc]
      · obtain ⟨hkept, hrest, hsteps⟩ := ih
          ((v.tails.map fun t => (t, v.node)).foldl askLink kept) h
        simp only [if_neg hstep]
        refine ⟨hkept, hrest, fun x => ?_⟩
        rw [hsteps, stepsOf, stepsOf, List.filter_cons_of_neg hstep]

theorem linkKey_right {source u v : Text} (h : linkKey source u = linkKey source v) : u = v :=
  List.tail_eq_of_cons_eq (List.append_cancel_left h)

def placeEnds (anchor : Text) (kept : List (Text × Text)) (id : Text) : List (Text × Text) :=
  if id ≠ anchor ∧ id ∉ kept.map Prod.snd then askLink kept (anchor, id) else kept

theorem ends_placeStep (anchor : Text) (r : OrderReading) (id : Text) :
    ends (placeStep anchor r id) = placeEnds anchor (ends r) id := by
  have hends : (ends r).map Prod.snd = r.edges.map (·.to_) := by
    rw [ends, List.map_map]
    rfl
  rw [placeStep, placeEnds, hends]
  split
  · exact ends_join _ _ _ _
  · rfl

/-- The last pass has a link for the step. -/
def Placeable (anchor : Text) (kept : List (Text × Text)) (v : Text) : Prop :=
  v ≠ anchor ∧ v ∉ kept.map Prod.snd ∧ firstLink linkKey kept anchor v = none

theorem placeEnds_pos {anchor id : Text} {kept : List (Text × Text)}
    (h : Placeable anchor kept id) : placeEnds anchor kept id = kept ++ [(anchor, id)] := by
  obtain ⟨hne, hout, hfree⟩ := h
  rw [placeEnds, if_pos ⟨hne, hout⟩, askLink, if_neg (Ne.symm hne), keepLink, hfree]
  rfl

theorem placeEnds_neg {anchor id : Text} {kept : List (Text × Text)}
    (h : ¬ Placeable anchor kept id) : placeEnds anchor kept id = kept := by
  rw [placeEnds]
  split
  · rename_i hplace
    have htaken : firstLink linkKey kept anchor id ≠ none := fun hfree =>
      h ⟨hplace.1, hplace.2, hfree⟩
    rw [askLink, if_neg (Ne.symm hplace.1), keepLink, if_pos (Option.isSome_iff_ne_none.mpr htaken)]
  · rfl

theorem placeable_append {anchor id v : Text} {kept : List (Text × Text)} (hne : v ≠ id) :
    Placeable anchor (kept ++ [(anchor, id)]) v ↔ Placeable anchor kept v := by
  rw [Placeable, Placeable, firstLink_append_of_ne fun hkey => hne (linkKey_right hkey).symm,
    List.map_append, List.mem_append]
  simp [hne]

/-- The last pass adds a link from the anchor to each step that nothing leads to, where the key of
the link is free. -/
theorem mem_foldl_placeEnds {anchor : Text} {ids : List Text} (hids : ids.Nodup)
    (kept : List (Text × Text)) (u v : Text) :
    (u, v) ∈ ids.foldl (placeEnds anchor) kept ↔
      (u, v) ∈ kept ∨ u = anchor ∧ v ∈ ids ∧ Placeable anchor kept v := by
  induction ids generalizing kept with
  | nil => exact (or_iff_left fun h => absurd h.2.1 List.not_mem_nil).symm
  | cons id ids ih =>
      rw [List.nodup_cons] at hids
      rw [List.foldl_cons, ih hids.2]
      by_cases hplace : Placeable anchor kept id
      · rw [placeEnds_pos hplace, List.mem_append, List.mem_singleton, or_assoc]
        refine or_congr_right ?_
        by_cases hv : v = id
        · subst hv
          simp [hids.1, hplace]
        · rw [placeable_append hv]
          simp [hv]
      · rw [placeEnds_neg hplace]
        refine or_congr_right (and_congr_right fun _ => ?_)
        rw [List.mem_cons]
        constructor
        · exact fun h => ⟨Or.inr h.1, h.2⟩
        · rintro ⟨rfl | hmem, hv⟩
          · exact absurd hv hplace
          · exact ⟨hmem, hv⟩

/-! ## Where the links come from -/

/-- Each visit follows what was known before or has been met. -/
def Chained (known : Text → Prop) : List Visit → Prop
  | [] => True
  | v :: visits => (∀ t ∈ v.tails, known t) ∧ Chained (fun x => known x ∨ x = v.node) visits

def nodesOf (visits : List Visit) : List Text := visits.map (·.node)

theorem Chained.mono {known known' : Text → Prop} {visits : List Visit}
    (h : Chained known visits) (hsub : ∀ x, known x → known' x) : Chained known' visits := by
  induction visits generalizing known known' with
  | nil => trivial
  | cons v visits ih =>
      exact ⟨fun t ht => hsub t (h.1 t ht), ih h.2 fun x hx => hx.imp_left (hsub x)⟩

theorem chained_append {known : Text → Prop} {visits more : List Visit} :
    Chained known (visits ++ more) ↔
      Chained known visits ∧ Chained (fun x => known x ∨ x ∈ nodesOf visits) more := by
  induction visits generalizing known with
  | nil =>
      refine ⟨fun h => ⟨trivial, h.mono fun x hx => Or.inl hx⟩, fun h => h.2.mono fun x hx => ?_⟩
      exact hx.resolve_right List.not_mem_nil
  | cons v visits ih =>
      rw [List.cons_append, Chained, Chained, ih, and_assoc]
      refine and_congr_right fun _ => and_congr_right fun _ => ?_
      have hsame : ∀ x, (known x ∨ x = v.node) ∨ x ∈ nodesOf visits ↔
          known x ∨ x ∈ nodesOf (v :: visits) := by
        intro x
        rw [nodesOf, nodesOf, List.map_cons, List.mem_cons, or_assoc]
      exact ⟨fun h => h.mono fun x => (hsame x).mp, fun h => h.mono fun x => (hsame x).mpr⟩

/-- The visits are chained, and what is left to follow has been met. -/
def MetFrom (known : Text → Prop) (met : List Visit × List Text × Nat) : Prop :=
  Chained known met.1 ∧ ∀ t ∈ met.2.1, known t ∨ t ∈ nodesOf met.1

mutual

theorem meet_metFrom (known : Text → Prop) (tails : List Text) (forks : Nat)
    (h : ∀ t ∈ tails, known t) : ∀ block, MetFrom known (meet tails forks block)
  | [] => by
      rw [meet]
      exact ⟨trivial, fun t ht => Or.inl (h t ht)⟩
  | item :: rest => by
      obtain ⟨hchain, htails⟩ := meetItem_metFrom known tails forks h item
      obtain ⟨hmore, hout⟩ := meet_metFrom (fun x => known x ∨ x ∈ nodesOf
        (meetItem tails forks item).1) (meetItem tails forks item).2.1
        (meetItem tails forks item).2.2 htails rest
      rw [meet]
      refine ⟨chained_append.mpr ⟨hchain, hmore⟩, fun t ht => ?_⟩
      rw [nodesOf, List.map_append, List.mem_append, ← or_assoc]
      exact hout t ht

theorem meetItem_metFrom (known : Text → Prop) (tails : List Text) (forks : Nat)
    (h : ∀ t ∈ tails, known t) : ∀ item, MetFrom known (meetItem tails forks item)
  | .step step body => by
      obtain ⟨hchain, hout⟩ := meet_metFrom (fun x => known x ∨ x = step) [step] forks
        (fun t ht => Or.inr (List.mem_singleton.mp ht)) body
      rw [meetItem]
      refine ⟨⟨h, hchain⟩, fun t ht => ?_⟩
      rw [nodesOf, List.map_cons, List.mem_cons, ← or_assoc]
      exact hout t ht
  | .fork _ _ arms => by
      rw [meetItem]
      split
      · obtain ⟨hchain, hout⟩ := meetArms_metFrom (fun x => known x ∨ x = forkId forks) tails
          (some (forkId forks)) (forks + 1) (fun t ht => Or.inl (h t ht))
          (by rintro _ ⟨⟩; exact Or.inr rfl) arms
        refine ⟨⟨h, hchain⟩, fun t ht => ?_⟩
        rw [nodesOf, List.map_cons, List.mem_cons, ← or_assoc]
        dsimp only at ht
        split at ht
        · rcases List.mem_append.mp ht with ht | ht
          · exact hout t ht
          · exact Or.inl (Or.inl (h t ht))
        · exact hout t ht
      · obtain ⟨hchain, hout⟩ := meetArms_metFrom known tails none forks h
          (by rintro _ ⟨⟩) arms
        refine ⟨hchain, fun t ht => ?_⟩
        dsimp only at ht
        split at ht
        · rcases List.mem_append.mp ht with ht | ht
          · exact hout t ht
          · exact Or.inl (h t ht)
        · exact hout t ht
  | .block _ _ _ _ body => by
      obtain ⟨hchain, hout⟩ := meet_metFrom known tails forks h body
      rw [meetItem]
      refine ⟨hchain, fun t ht => ?_⟩
      dsimp only at ht
      split at ht
      · exact hout t ht
      · exact Or.inl (h t ht)
  | .cut => by
      rw [meetItem]
      exact ⟨trivial, fun t ht => Or.inl (h t ht)⟩

theorem meetArms_metFrom (known : Text → Prop) (tails : List Text) (point : Option Text)
    (forks : Nat) (h : ∀ t ∈ tails, known t) (hpoint : ∀ id, point = some id → known id) :
    ∀ arms, MetFrom known (meetArms tails point forks arms)
  | [] => by
      rw [meetArms]
      exact ⟨trivial, fun t ht => absurd ht List.not_mem_nil⟩
  | .arm _ _ armEnds body :: rest => by
      have hentry : ∀ t ∈ entryTails tails point body, known t := by
        intro t ht
        unfold entryTails at ht
        split at ht
        · rw [List.mem_singleton.mp ht]
          exact hpoint _ rfl
        · exact h t ht
      obtain ⟨hchain, hout⟩ := meet_metFrom known (entryTails tails point body) forks hentry body
      obtain ⟨hmore, hrest⟩ := meetArms_metFrom
        (fun x => known x ∨ x ∈ nodesOf (meet (entryTails tails point body) forks body).1) tails
        point (meet (entryTails tails point body) forks body).2.2 (fun t ht => Or.inl (h t ht))
        (fun id hid => Or.inl (hpoint id hid)) rest
      rw [meetArms]
      refine ⟨chained_append.mpr ⟨hchain, hmore⟩, fun t ht => ?_⟩
      rw [nodesOf, List.map_append, List.mem_append, ← or_assoc]
      dsimp only at ht
      rcases List.mem_append.mp ht with ht | ht
      · split at ht
        · exact Or.inl (hout t ht)
        · exact absurd ht List.not_mem_nil
      · exact hrest t ht

end

/-! ## The steps of the tree -/

mutual

def stepsIn : List WireItem → List Text
  | [] => []
  | item :: rest => itemSteps item ++ stepsIn rest

def itemSteps : WireItem → List Text
  | .step step body => step :: stepsIn body
  | .fork _ _ arms => armsSteps arms
  | .block _ _ _ _ body => stepsIn body
  | .cut => []

def armsSteps : List WireArm → List Text
  | [] => []
  | .arm _ _ _ body :: rest => stepsIn body ++ armsSteps rest

end

theorem stepsOf_append (visits more : List Visit) :
    stepsOf (visits ++ more) = stepsOf visits ++ stepsOf more := by
  rw [stepsOf, stepsOf, stepsOf, List.filter_append, List.map_append]

mutual

/-- Every step is met, whatever it follows. -/
theorem stepsOf_meet (tails : List Text) (forks : Nat) : ∀ block,
    stepsOf (meet tails forks block).1 = stepsIn block
  | [] => by
      rw [meet, stepsIn]
      rfl
  | item :: rest => by
      rw [meet, stepsIn, stepsOf_append, stepsOf_meetItem, stepsOf_meet]

theorem stepsOf_meetItem (tails : List Text) (forks : Nat) : ∀ item,
    stepsOf (meetItem tails forks item).1 = itemSteps item
  | .step step body => by
      rw [meetItem, itemSteps, ← stepsOf_meet [step] forks body]
      rfl
  | .fork _ _ arms => by
      rw [meetItem, itemSteps]
      split
      · rw [← stepsOf_meetArms tails (some (forkId forks)) (forks + 1) arms]
        rfl
      · rw [← stepsOf_meetArms tails none forks arms]
  | .block _ _ _ _ body => by
      rw [meetItem, itemSteps, ← stepsOf_meet tails forks body]
  | .cut => by
      rw [meetItem, itemSteps]
      rfl

theorem stepsOf_meetArms (tails : List Text) (point : Option Text) (forks : Nat) : ∀ arms,
    stepsOf (meetArms tails point forks arms).1 = armsSteps arms
  | [] => by
      rw [meetArms, armsSteps]
      rfl
  | .arm _ _ armEnds body :: rest => by
      rw [meetArms, armsSteps, stepsOf_append,
        stepsOf_meet (entryTails tails point body) forks body, stepsOf_meetArms]

end

end OrderGraph

/-! ## When nothing floats -/

section Floating

variable (root : WireBlock) (anchor : Text)

/-- The steps and the points in the order in which the tree has them, with what each follows. -/
def visitsOf : List Visit := (meet [anchor] 0 root).1

/-- What the tree says follows what; of two links whose ids read the same the first counts. -/
def Leads (u v : Text) : Prop := Kept linkKey (asked (visitsOf root anchor)) u v

/-- The anchor, or a step that nothing leads to and whose link from the anchor is not lost. -/
def Start (s : Text) : Prop :=
  s = anchor ∨ s ∈ stepsIn root ∧ (∀ u, ¬ Leads root anchor u s) ∧
    firstLink linkKey (asked (visitsOf root anchor)) anchor s = none

/-- Met for the first time where nothing is left to follow. -/
def Loose (d : Text) : Prop :=
  ∃ before v after, visitsOf root anchor = before ++ v :: after ∧ v.node = d ∧ d ≠ anchor ∧
    d ∉ nodesOf before ∧ ∀ t ∈ v.tails, ¬ Leads root anchor t d

/-- What follows a loose step or point follows a start as well. -/
def LooseEndsLed : Prop :=
  ∀ d, Loose root anchor d → ∀ step ∈ stepsIn root,
    Relation.ReflTransGen (Leads root anchor) d step →
      ∃ s, Start root anchor s ∧ Relation.ReflTransGen (Leads root anchor) s step

/-- Every step is reached from the anchor. -/
def NothingFloats (armWord : (on : Text) → ForkForm → (when : Text) → (not_ : Bool) → Text) :
    Prop :=
  ∀ step ∈ stepsIn root,
    Relation.ReflTransGen (Linked (orderGraph armWord root anchor).edges) anchor step

variable {root anchor}
variable {armWord : (on : Text) → ForkForm → (when : Text) → (not_ : Bool) → Text}

theorem linked_iff_mem_ends {r : OrderReading} {u v : Text} :
    Linked r.edges u v ↔ (u, v) ∈ ends r := by
  simp only [Linked, ends, List.mem_map, Prod.mk.injEq]

theorem ends_foldl_placeStep (ids : List Text) (r : OrderReading) :
    ends (ids.foldl (placeStep anchor) r) = ids.foldl (placeEnds anchor) (ends r) := by
  induction ids generalizing r with
  | nil => rfl
  | cons id ids ih => rw [List.foldl_cons, List.foldl_cons, ih, ends_placeStep]

/-- The reading when the tree has been read: its links and its steps. -/
theorem flow_spec (root : WireBlock) (anchor : Text)
    (armWord : (on : Text) → ForkForm → (when : Text) → (not_ : Bool) → Text) :
    let r := (flow armWord ⟨[], [anchor], []⟩ [⟨anchor, [], [], none⟩] [] root).1
    ends r = keepLinks linkKey (asked (visitsOf root anchor)) ∧ r.seen.Nodup ∧
      ∀ x, x ∈ r.seen ↔ x = anchor ∨ x ∈ stepsIn root := by
  intro r
  have hgraph := (flow_meets armWord ⟨[], [anchor], []⟩ [⟨anchor, [], [], none⟩] [] root).graph
  obtain ⟨hkept, hnodup, hsteps⟩ := foldl_afterVisit (visitsOf root anchor) []
    (List.nodup_singleton anchor)
  have hends : ends r = ((visitsOf root anchor).foldl afterVisit ([], [anchor])).1 :=
    congrArg Prod.fst hgraph
  have hseen : r.seen = ((visitsOf root anchor).foldl afterVisit ([], [anchor])).2 :=
    congrArg Prod.snd hgraph
  rw [hends, hseen]
  refine ⟨hkept, hnodup, fun x => ?_⟩
  rw [hsteps, List.mem_singleton, visitsOf, stepsOf_meet]

/-- The links of the picture: those of the tree, and from the anchor to what nothing leads to. -/
theorem linked_iff {u v : Text} : Linked (orderGraph armWord root anchor).edges u v ↔
    Leads root anchor u v ∨ u = anchor ∧ v ≠ anchor ∧ Start root anchor v := by
  obtain ⟨hends, hnodup, hseen⟩ := flow_spec root anchor armWord
  rw [orderGraph, linked_iff_mem_ends, ends_foldl_placeStep, mem_foldl_placeEnds hnodup, hends,
    mem_keepLinks]
  refine or_congr_right (and_congr_right fun _ => ?_)
  have hnone : v ∉ (keepLinks linkKey (asked (visitsOf root anchor))).map Prod.snd ↔
      ∀ u, ¬ Leads root anchor u v := by
    rw [List.mem_map, not_exists]
    constructor
    · exact fun h u hleads => h (u, v) ⟨mem_keepLinks.mpr hleads, rfl⟩
    · rintro h ⟨u, _⟩ ⟨hmem, rfl⟩
      exact h u (mem_keepLinks.mp hmem)
  have hfree :
      firstLink linkKey (keepLinks linkKey (asked (visitsOf root anchor))) anchor v = none ↔
        firstLink linkKey (asked (visitsOf root anchor)) anchor v = none := by
    rw [← Option.isSome_eq_false_iff.trans Option.isNone_iff_eq_none,
      ← Option.isSome_eq_false_iff.trans Option.isNone_iff_eq_none, isSome_firstLink_keepLinks]
  rw [hseen, Placeable, hnone, hfree, Start]
  constructor
  · rintro ⟨hmem, hne, hout, hkey⟩
    exact ⟨hne, Or.inr ⟨hmem.resolve_left hne, hout, hkey⟩⟩
  · rintro ⟨hne, hstart⟩
    obtain ⟨hmem, hout, hkey⟩ := hstart.resolve_left hne
    exact ⟨Or.inr hmem, hne, hout, hkey⟩

/-- Every node that is met follows, in the order of the tree, the anchor or something loose. -/
theorem led_or_loose_of_met (before after : List Visit)
    (h : visitsOf root anchor = before ++ after) : ∀ node ∈ nodesOf before,
    Relation.ReflTransGen (Leads root anchor) anchor node ∨
      ∃ d, Loose root anchor d ∧ Relation.ReflTransGen (Leads root anchor) d node := by
  induction before using List.reverseRecOn generalizing after with
  | nil => exact fun node hnode => absurd hnode List.not_mem_nil
  | append_singleton before v ih =>
      rw [List.append_assoc] at h
      have hbefore := ih (v :: after) h
      have hchain : Chained (fun x => x = anchor) (before ++ v :: after) := by
        rw [← List.singleton_append, ← h]
        exact (meet_metFrom (fun x => x = anchor) [anchor] 0
          (fun t ht => List.mem_singleton.mp ht) root).1
      intro node hnode
      rw [nodesOf, List.map_append, List.mem_append] at hnode
      rcases hnode with hnode | hnode
      · exact hbefore node hnode
      · obtain rfl := List.mem_singleton.mp hnode
        by_cases hanchor : v.node = anchor
        · exact Or.inl (hanchor ▸ Relation.ReflTransGen.refl)
        · by_cases hmet : v.node ∈ nodesOf before
          · exact hbefore v.node hmet
          · by_cases hfollows : ∃ t ∈ v.tails, Leads root anchor t v.node
            · -- The tail it follows is the anchor or has been met.
              obtain ⟨t, ht, hleads⟩ := hfollows
              have htail : Relation.ReflTransGen (Leads root anchor) anchor t ∨
                  ∃ d, Loose root anchor d ∧ Relation.ReflTransGen (Leads root anchor) d t := by
                rcases (chained_append.mp hchain).2.1 t ht with rfl | hknown
                · exact Or.inl Relation.ReflTransGen.refl
                · exact hbefore t hknown
              rcases htail with hled | ⟨d, hloose, hled⟩
              · exact Or.inl (hled.tail hleads)
              · exact Or.inr ⟨d, hloose, hled.tail hleads⟩
            · refine Or.inr ⟨v.node, ⟨before, v, after, h, rfl, hanchor, hmet, ?_⟩,
                Relation.ReflTransGen.refl⟩
              exact fun t ht hleads => hfollows ⟨t, ht, hleads⟩

theorem led_or_loose {step : Text} (h : step ∈ stepsIn root) :
    Relation.ReflTransGen (Leads root anchor) anchor step ∨
      ∃ d, Loose root anchor d ∧ Relation.ReflTransGen (Leads root anchor) d step := by
  refine led_or_loose_of_met (visitsOf root anchor) [] (List.append_nil _).symm step ?_
  rw [← stepsOf_meet [anchor] 0 root] at h
  obtain ⟨v, hv, rfl⟩ := List.mem_map.mp h
  exact List.mem_map.mpr ⟨v, (List.mem_filter.mp hv).1, rfl⟩

theorem start_of_reach {step : Text}
    (h : Relation.ReflTransGen (Linked (orderGraph armWord root anchor).edges) anchor step) :
    ∃ s, Start root anchor s ∧ Relation.ReflTransGen (Leads root anchor) s step := by
  induction h with
  | refl => exact ⟨anchor, Or.inl rfl, Relation.ReflTransGen.refl⟩
  | tail _ hop ih =>
      rcases linked_iff.mp hop with hleads | ⟨-, -, hstart⟩
      · obtain ⟨s, hs, hreach⟩ := ih
        exact ⟨s, hs, hreach.tail hleads⟩
      · exact ⟨_, hstart, Relation.ReflTransGen.refl⟩

theorem reach_of_start {s step : Text} (hs : Start root anchor s)
    (h : Relation.ReflTransGen (Leads root anchor) s step) :
    Relation.ReflTransGen (Linked (orderGraph armWord root anchor).edges) anchor step := by
  have hfirst : Relation.ReflTransGen (Linked (orderGraph armWord root anchor).edges) anchor s := by
    by_cases hanchor : s = anchor
    · rw [hanchor]
    · exact Relation.ReflTransGen.single (linked_iff.mpr (Or.inr ⟨rfl, hanchor, hs⟩))
  refine hfirst.trans (Relation.ReflTransGen.mono (fun _ _ hleads => ?_) _ _ h)
  exact linked_iff.mpr (Or.inl hleads)

def ifWord (_ : Text) (_ : ForkForm) (_ : Text) (not_ : Bool) : Text :=
  if not_ then "no".toList else "yes".toList

/-- `if (user) reply 200 else reply 401`, and then `log`, `notify` and `log` again. -/
def bothAnswered : WireBlock :=
  [.fork "user".toList .if_
      [.arm "user".toList false (some .reply) [.step "200".toList []],
        .arm "!user".toList true (some .reply) [.step "401".toList []]],
    .step "log".toList [], .step "notify".toList [], .step "log".toList []]

end Floating

end AfyxGraph.Ui
