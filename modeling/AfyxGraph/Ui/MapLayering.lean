import AfyxGraph.Core.Components
import AfyxGraph.Core.LongestPath
import AfyxGraph.Ui.EntryLayering

/-! # The layers of the map

A module stands one layer above the deepest module it depends on. Of two modules that depend on
each other the lighter direction is left out; a longer loop is cut where the walk meets a module
it is still inside of.
-/

namespace AfyxGraph.Ui

open AfyxGraph.Core AfyxGraph.Core.LongestPath AfyxGraph.Runtime

structure MapModule where
  id : JsString
  test : Bool
  deriving DecidableEq, Repr

structure MapLink where
  source : JsString
  target : JsString
  /-- Every confident edge behind the link. -/
  count : Nat
  /-- Those the layering trusts. -/
  declared : Nat
  deriving DecidableEq, Repr

structure MapPayload where
  modules : List MapModule
  links : List MapLink
  deriving Repr

def linkId (source target : JsString) : JsString := source ++ 0 :: target

/-- The list that `out` holds for a module once it is sorted; empty for what is not a module. -/
def outList (ids : List JsString) (ends : List (JsString × JsString)) (id : JsString) :
    List JsString :=
  if id ∈ ids then sortIds ((ends.filter (·.1 = id)).map (·.2)) else []

theorem mem_outList {ids : List JsString} {ends : List (JsString × JsString)} {u v : JsString} :
    v ∈ outList ids ends u ↔ u ∈ ids ∧ (u, v) ∈ ends := by
  rw [outList]
  split
  · rename_i hmem
    rw [EntryLayering.mem_sortIds]
    simp only [List.mem_map, List.mem_filter, decide_eq_true_eq]
    constructor
    · rintro ⟨⟨a, b⟩, ⟨hends, rfl⟩, rfl⟩
      exact ⟨hmem, hends⟩
    · rintro ⟨-, hends⟩
      exact ⟨(u, v), ⟨hends, rfl⟩, rfl⟩
  · rename_i hmem
    exact iff_of_false List.not_mem_nil fun h => hmem h.1

namespace MapLayering

/-! ## The walk down -/

section Walk

variable (ids : List JsString) (ends : List (JsString × JsString))

/-- The modules the walk is not inside of. -/
def unvisited (visiting : List JsString) : List JsString := ids.filter (· ∉ visiting)

theorem unvisited_cons_lt {visiting : List JsString} {id : JsString} (hid : id ∈ ids)
    (hnew : id ∉ visiting) :
    (unvisited ids (id :: visiting)).length < (unvisited ids visiting).length := by
  have hsub : unvisited ids (id :: visiting) = (unvisited ids visiting).filter (· ≠ id) := by
    simp only [unvisited, List.filter_filter, List.mem_cons, not_or, Bool.decide_and]
  rw [hsub]
  exact List.length_filter_lt_length_iff_exists.mpr
    ⟨id, List.mem_filter.mpr ⟨hid, decide_eq_true hnew⟩, by simp⟩

theorem unvisited_cons_of_not_mem {visiting : List JsString} {id : JsString} (hid : id ∉ ids) :
    unvisited ids (id :: visiting) = unvisited ids visiting := by
  refine List.filter_congr fun other hother => ?_
  have hne : other ≠ id := by
    rintro rfl
    exact hid hother
  simp only [List.mem_cons, hne, false_or]

theorem outList_of_not_mem {id : JsString} (hid : id ∉ ids) : outList ids ends id = [] := if_neg hid

mutual

/-- A call leaves `visiting` as it found it, so a caller goes on with its own. -/
def longestPath (layer : DepthTable) (visiting : List JsString) (id : JsString) :
    Nat × DepthTable :=
  match layer.lookup id with
  | some known => (known, layer)
  | none =>
      if id ∈ visiting then (0, layer)
      else
        let (value, layer) := longestOver layer (id :: visiting) (outList ids ends id) 0
        (value, setEntry layer id value)
termination_by ((unvisited ids visiting).length, 0, 1)
decreasing_by
  rename_i hnew
  by_cases hid : id ∈ ids
  · exact Prod.Lex.left _ _ (unvisited_cons_lt ids hid hnew)
  · rw [outList_of_not_mem ids ends hid, unvisited_cons_of_not_mem ids hid]
    exact Prod.Lex.right _ (Prod.Lex.right _ Nat.zero_lt_one)

/-- The loop over the modules that one depends on. -/
def longestOver (layer : DepthTable) (visiting : List JsString) (targets : List JsString)
    (value : Nat) : Nat × DepthTable :=
  match targets with
  | [] => (value, layer)
  | next :: targets =>
      let (below, layer) := longestPath layer visiting next
      longestOver layer visiting targets (max value (below + 1))
termination_by ((unvisited ids visiting).length, targets.length, 0)

end

/-- The loop over the modules. -/
def layers : DepthTable := ids.foldl (fun layer id => (longestPath ids ends layer [] id).2) []

/-! ## What the walk settles -/

/-- A link between modules. -/
def Linked (u v : JsString) : Prop := u ∈ ids ∧ (u, v) ∈ ends

/-- So many links lead down from the module. -/
abbrev DownFrom (k : Nat) (u : JsString) : Prop := EndsAfter (fun v u => Linked ids ends u v) k u

/-- What is settled stays settled. -/
def Extends (layer layer' : DepthTable) : Prop :=
  ∀ v n, layer.lookup v = some n → layer'.lookup v = some n

/-- The layers that are settled while the walk is inside of some modules. -/
structure Walked (visiting : List JsString) (layer : DepthTable) : Prop where
  supported : ∀ u n, layer.lookup u = some n → DownFrom ids ends n u
  /-- What a settled module depends on is settled lower, or leads back to it. -/
  below : ∀ u n v, layer.lookup u = some n → Linked ids ends u v →
    ¬ Relation.ReflTransGen (Linked ids ends) v u → ∃ m < n, layer.lookup v = some m
  inside : ∀ v ∈ visiting, layer.lookup v = none

variable {ids ends} {layer : DepthTable} {visiting : List JsString}

theorem Walked.setEntry {id : JsString} {value : Nat}
    (h : Walked ids ends (id :: visiting) layer) (hnew : id ∉ visiting)
    (hsupported : DownFrom ids ends value id)
    (hbelow : ∀ v, Linked ids ends id v → ¬ Relation.ReflTransGen (Linked ids ends) v id →
      ∃ m < value, layer.lookup v = some m) :
    Walked ids ends visiting (setEntry layer id value) ∧
      Extends layer (setEntry layer id value) := by
  have hkeep : Extends layer (Core.setEntry layer id value) := by
    intro v n hv
    have hne : v ≠ id := by
      rintro rfl
      rw [h.inside v List.mem_cons_self] at hv
      cases hv
    rwa [lookup_setEntry_ne _ _ hne]
  refine ⟨⟨fun u n hu => ?_, fun u n v hu hlink hback => ?_, fun v hv => ?_⟩, hkeep⟩
  · by_cases hid : u = id
    · subst hid
      rw [lookup_setEntry_self] at hu
      exact Option.some.inj hu ▸ hsupported
    · rw [lookup_setEntry_ne _ _ hid] at hu
      exact h.supported u n hu
  · have hbefore : ∃ m < n, layer.lookup v = some m := by
      by_cases hid : u = id
      · subst hid
        rw [lookup_setEntry_self] at hu
        exact Option.some.inj hu ▸ hbelow v hlink hback
      · rw [lookup_setEntry_ne _ _ hid] at hu
        exact h.below u n v hu hlink hback
    obtain ⟨m, hm, hlook⟩ := hbefore
    exact ⟨m, hm, hkeep v m hlook⟩
  · have hne : v ≠ id := by
      rintro rfl
      exact hnew hv
    rw [lookup_setEntry_ne _ _ hne]
    exact h.inside v (List.mem_cons_of_mem id hv)

variable (ids ends) in
/-- A call from inside of modules that lead to `id`. -/
def PathSpec (layer : DepthTable) (visiting : List JsString) (id : JsString) : Prop :=
  Walked ids ends visiting layer →
  (∀ x ∈ visiting, Relation.ReflTransGen (Linked ids ends) x id) →
    Walked ids ends visiting (longestPath ids ends layer visiting id).2 ∧
      Extends layer (longestPath ids ends layer visiting id).2 ∧
      DownFrom ids ends (longestPath ids ends layer visiting id).1 id ∧
      (id ∈ visiting ∨ (longestPath ids ends layer visiting id).2.lookup id =
        some (longestPath ids ends layer visiting id).1)

variable (ids ends) in
/-- The rest of the loop for `u`, which has found `value` so far. -/
def OverSpec (layer : DepthTable) (visiting targets : List JsString) (value : Nat) : Prop :=
  ∀ u, Walked ids ends visiting layer →
  (∀ x ∈ visiting, Relation.ReflTransGen (Linked ids ends) x u) →
  (∀ v ∈ targets, Linked ids ends u v) → DownFrom ids ends value u →
    Walked ids ends visiting (longestOver ids ends layer visiting targets value).2 ∧
      Extends layer (longestOver ids ends layer visiting targets value).2 ∧
      DownFrom ids ends (longestOver ids ends layer visiting targets value).1 u ∧
      value ≤ (longestOver ids ends layer visiting targets value).1 ∧
      ∀ v ∈ targets, ¬ Relation.ReflTransGen (Linked ids ends) v u →
        ∃ m < (longestOver ids ends layer visiting targets value).1,
          (longestOver ids ends layer visiting targets value).2.lookup v = some m

theorem linked_of_mem_outList {u v : JsString} (h : v ∈ outList ids ends u) : Linked ids ends u v :=
  mem_outList.mp h

theorem pathSpec_known {id : JsString} {known : Nat} (h : layer.lookup id = some known) :
    PathSpec ids ends layer visiting id := by
  intro hwalked _
  rw [longestPath, h]
  exact ⟨hwalked, fun v n hv => hv, hwalked.supported id known h, Or.inr h⟩

/-- Nothing is settled where the walk meets a module it is inside of. -/
theorem pathSpec_inside {id : JsString} (h : layer.lookup id = none) (hmem : id ∈ visiting) :
    PathSpec ids ends layer visiting id := by
  intro hwalked _
  rw [longestPath, h]
  simp only [if_pos hmem]
  exact ⟨hwalked, fun v n hv => hv, Steps.source trivial, Or.inl hmem⟩

theorem pathSpec_open {id : JsString} (h : layer.lookup id = none) (hnew : id ∉ visiting)
    (hover : OverSpec ids ends layer (id :: visiting) (outList ids ends id) 0) :
    PathSpec ids ends layer visiting id := by
  intro hwalked hlead
  rw [longestPath, h]
  simp only [if_neg hnew]
  have hinside : Walked ids ends (id :: visiting) layer := by
    refine ⟨hwalked.supported, hwalked.below, fun v hv => ?_⟩
    rcases List.mem_cons.mp hv with rfl | hv
    · exact h
    · exact hwalked.inside v hv
  have hlead' : ∀ x ∈ id :: visiting, Relation.ReflTransGen (Linked ids ends) x id := by
    intro x hx
    rcases List.mem_cons.mp hx with rfl | hx
    · exact Relation.ReflTransGen.refl
    · exact hlead x hx
  obtain ⟨hdone, hext, hdown, -, hbelow⟩ := hover id hinside hlead'
    (fun v hv => linked_of_mem_outList hv) (Steps.source trivial)
  obtain ⟨hset, hkeep⟩ := hdone.setEntry hnew hdown
    (fun v hlink => hbelow v (mem_outList.mpr hlink))
  exact ⟨hset, fun v n hv => hkeep v n (hext v n hv), hdown, Or.inr (lookup_setEntry_self _ _ _)⟩

theorem overSpec_nil (value : Nat) : OverSpec ids ends layer visiting [] value := by
  intro u hwalked _ _ hdown
  rw [longestOver]
  exact ⟨hwalked, fun v n hv => hv, hdown, Nat.le_refl value,
    fun v hv => absurd hv List.not_mem_nil⟩

theorem overSpec_cons {next : JsString} {targets : List JsString} {value : Nat}
    (hpath : PathSpec ids ends layer visiting next)
    (hover : OverSpec ids ends (longestPath ids ends layer visiting next).2 visiting targets
      (max value ((longestPath ids ends layer visiting next).1 + 1))) :
    OverSpec ids ends layer visiting (next :: targets) value := by
  intro u hwalked hlead hlinks hdown
  rw [longestOver]
  have hlink := hlinks next List.mem_cons_self
  obtain ⟨hwalked', hext, hdownNext, hsettled⟩ :=
    hpath hwalked fun x hx => (hlead x hx).tail hlink
  have hdown' : DownFrom ids ends
      (max value ((longestPath ids ends layer visiting next).1 + 1)) u := by
    rcases Nat.le_total value ((longestPath ids ends layer visiting next).1 + 1) with hle | hle
    · rw [Nat.max_eq_right hle]
      exact Steps.step hdownNext hlink
    · rwa [Nat.max_eq_left hle]
  obtain ⟨hdone, hext', hdownAll, hle, hbelow⟩ := hover u hwalked' hlead
    (fun v hv => hlinks v (List.mem_cons_of_mem next hv)) hdown'
  refine ⟨hdone, fun v n hv => hext' v n (hext v n hv), hdownAll,
    Nat.le_trans (Nat.le_max_left _ _) hle, fun v hv hback => ?_⟩
  rcases List.mem_cons.mp hv with rfl | hv
  · rcases hsettled with hmem | hlook
    · exact absurd (hlead v hmem) hback
    · exact ⟨_, Nat.lt_of_lt_of_le (Nat.lt_succ_self _) (Nat.le_trans (Nat.le_max_right _ _) hle),
        hext' v _ hlook⟩
  · exact hbelow v hv hback

theorem pathSpec (layer : DepthTable) (visiting : List JsString) (id : JsString) :
    PathSpec ids ends layer visiting id := by
  refine (longestPath.mutual_induct ids ends (PathSpec ids ends) (OverSpec ids ends)
    ?_ ?_ ?_ ?_ ?_).1 layer visiting id
  · intro layer visiting id known h
    exact pathSpec_known h
  · intro layer visiting id h hmem
    exact pathSpec_inside h hmem
  · intro layer visiting id h hnew value layer' _ hover
    exact pathSpec_open h hnew hover
  · intro layer visiting value
    exact overSpec_nil value
  · intro layer visiting value next targets below layer' heq hpath hover
    refine overSpec_cons hpath ?_
    rw [heq]
    exact hover

/-- Settled from outside, after some of the modules. -/
theorem walked_foldl (todo : List JsString) (h : Walked ids ends [] layer) :
    Walked ids ends [] (todo.foldl (fun layer id => (longestPath ids ends layer [] id).2) layer) ∧
      Extends layer (todo.foldl (fun layer id => (longestPath ids ends layer [] id).2) layer) ∧
      ∀ id ∈ todo, ∃ n,
        (todo.foldl (fun layer id => (longestPath ids ends layer [] id).2) layer).lookup id =
          some n := by
  induction todo generalizing layer with
  | nil => exact ⟨h, fun v n hv => hv, fun id hid => absurd hid List.not_mem_nil⟩
  | cons next todo ih =>
      rw [List.foldl_cons]
      obtain ⟨hwalked, hext, -, hsettled⟩ := pathSpec layer [] next h
        fun x hx => absurd hx List.not_mem_nil
      obtain ⟨hdone, hext', hall⟩ := ih hwalked
      refine ⟨hdone, fun v n hv => hext' v n (hext v n hv), fun id hid => ?_⟩
      rcases List.mem_cons.mp hid with rfl | hid
      · exact ⟨_, hext' id _ (hsettled.resolve_left List.not_mem_nil)⟩
      · exact hall id hid

theorem walked_layers (ids : List JsString) (ends : List (JsString × JsString)) :
    Walked ids ends [] (layers ids ends) ∧ ∀ id ∈ ids, ∃ n, (layers ids ends).lookup id = some n :=
  have hstart : Walked ids ends [] [] :=
    ⟨fun _ _ h => (nomatch h), fun _ _ _ h => (nomatch h),
      fun _ hv => absurd hv List.not_mem_nil⟩
  ⟨(walked_foldl ids hstart).1, (walked_foldl ids hstart).2.2⟩

end Walk

end MapLayering

open MapLayering

/-! ## The layering graph -/

namespace MapPayload

section Drawing

variable (payload : MapPayload) (includeTests : Bool)

def drawnIds : List JsString :=
  (payload.modules.filter fun m => includeTests || !m.test).map (·.id)

def drawnLinks : List MapLink :=
  payload.links.filter fun l =>
    l.source ∈ payload.drawnIds includeTests ∧ l.target ∈ payload.drawnIds includeTests

def declaredLinks : List MapLink := (payload.drawnLinks includeTests).filter (0 < ·.declared)

/-- `DECLARED_BASIS_COVERAGE` is two fifths of the links. -/
def useDeclared : Bool :=
  0 < (payload.drawnLinks includeTests).length &&
    2 * (payload.drawnLinks includeTests).length ≤ 5 * (payload.declaredLinks includeTests).length

def weightOf (link : MapLink) : Nat :=
  if payload.useDeclared includeTests then link.declared else link.count

def layeringLinks : List MapLink :=
  if payload.useDeclared includeTests then payload.declaredLinks includeTests
  else payload.drawnLinks includeTests

def byPair : List (JsString × MapLink) :=
  (payload.layeringLinks includeTests).foldl
    (fun table l => setEntry table (linkId l.source l.target) l) []

/-- Ties are broken by the ids. -/
def isLighter (link back : MapLink) : Bool :=
  payload.weightOf includeTests link < payload.weightOf includeTests back ||
    (payload.weightOf includeTests back = payload.weightOf includeTests link &&
      link.target < link.source)

/-- The links that are left when the lighter direction of each two-module cycle is dropped. -/
def acyclic : List MapLink :=
  (payload.layeringLinks includeTests).filter fun link =>
    match (payload.byPair includeTests).lookup (linkId link.target link.source) with
    | none => true
    | some back => !payload.isLighter includeTests link back

def ends : List (JsString × JsString) :=
  (payload.acyclic includeTests).map fun l => (l.source, l.target)

/-- The layer of each module that is drawn. -/
def layer : DepthTable := layers (payload.drawnIds includeTests) (payload.ends includeTests)

/-- A link of the layering graph. -/
def Above (u v : JsString) : Prop :=
  ∃ l ∈ payload.acyclic includeTests, l.source = u ∧ l.target = v

/-- What the layers of a map promise. -/
structure LayersFall : Prop where
  /-- One direction at most is left of a two-module cycle. -/
  broken : ((payload.layeringLinks includeTests).map fun l => linkId l.source l.target).Nodup →
    ∀ link ∈ payload.acyclic includeTests, ∀ back ∈ payload.acyclic includeTests,
      back.source = link.target → back.target = link.source → link.source = link.target
  /-- The direction that is dropped is the lighter one. -/
  dropped : ∀ link ∈ payload.layeringLinks includeTests, link ∉ payload.acyclic includeTests →
    ∃ back ∈ payload.layeringLinks includeTests,
      linkId back.source back.target = linkId link.target link.source ∧
        payload.isLighter includeTests link back
  across : ∀ link ∈ payload.acyclic includeTests,
    ¬ SameComponent (payload.Above includeTests) link.source link.target →
      ∃ upper lower, (payload.layer includeTests).lookup link.source = some upper ∧
        (payload.layer includeTests).lookup link.target = some lower ∧ lower < upper
  /-- The length of the longest path that leads down from the module. -/
  longest : Acyclic (payload.Above includeTests) → ∀ id ∈ payload.drawnIds includeTests,
    ∃ n, (payload.layer includeTests).lookup id = some n ∧
      IsGreatest {k | EndsAfter (fun v u => payload.Above includeTests u v) k id} n

/-! ## What is left of the links -/

variable {payload includeTests}

theorem mem_drawnIds_of_mem_layeringLinks {link : MapLink}
    (h : link ∈ payload.layeringLinks includeTests) :
    link.source ∈ payload.drawnIds includeTests ∧ link.target ∈ payload.drawnIds includeTests := by
  have hdrawn : link ∈ payload.drawnLinks includeTests := by
    rw [layeringLinks] at h
    split at h
    · exact (List.mem_filter.mp h).1
    · exact h
  exact of_decide_eq_true (List.mem_filter.mp hdrawn).2

theorem mem_acyclic {link : MapLink} : link ∈ payload.acyclic includeTests ↔
    link ∈ payload.layeringLinks includeTests ∧
      ∀ back, (payload.byPair includeTests).lookup (linkId link.target link.source) = some back →
        payload.isLighter includeTests link back = false := by
  rw [acyclic, List.mem_filter]
  refine and_congr_right fun _ => ?_
  cases (payload.byPair includeTests).lookup (linkId link.target link.source) with
  | none => exact iff_of_true rfl fun back h => nomatch h
  | some back =>
      simp only [Bool.not_eq_true', Option.some.injEq]
      constructor
      · rintro h _ rfl
        exact h
      · exact fun h => h back rfl

theorem linked_iff_above {u v : JsString} :
    Linked (payload.drawnIds includeTests) (payload.ends includeTests) u v ↔
      payload.Above includeTests u v := by
  simp only [Linked, ends, List.mem_map, Prod.mk.injEq, Above]
  refine ⟨fun h => h.2, fun h => ⟨?_, h⟩⟩
  obtain ⟨link, hlink, rfl, -⟩ := h
  exact (mem_drawnIds_of_mem_layeringLinks (mem_acyclic.mp hlink).1).1

theorem byPair_entries {e : JsString × MapLink} (h : e ∈ payload.byPair includeTests) :
    e.2 ∈ payload.layeringLinks includeTests ∧ e.1 = linkId e.2.source e.2.target := by
  have hfold : ∀ (links : List MapLink) (table : List (JsString × MapLink)),
      e ∈ links.foldl (fun table l => setEntry table (linkId l.source l.target) l) table →
        e ∈ table ∨ e.2 ∈ links ∧ e.1 = linkId e.2.source e.2.target := by
    intro links
    induction links with
    | nil => exact fun table he => Or.inl he
    | cons l links ih =>
        intro table he
        rcases ih _ he with he | ⟨hmem, hkey⟩
        · rcases mem_setEntry he with rfl | he
          · exact Or.inr ⟨List.mem_cons_self, rfl⟩
          · exact Or.inl he
        · exact Or.inr ⟨List.mem_cons_of_mem l hmem, hkey⟩
  exact (hfold _ [] h).resolve_left List.not_mem_nil

/-- With one link for each pair every link is found under its own key. -/
theorem lookup_byPair
    (hone : ((payload.layeringLinks includeTests).map fun l => linkId l.source l.target).Nodup)
    {link : MapLink} (h : link ∈ payload.layeringLinks includeTests) :
    (payload.byPair includeTests).lookup (linkId link.source link.target) = some link := by
  have hkeys : (((payload.layeringLinks includeTests).map
      fun l => (linkId l.source l.target, l)).map Prod.fst).Nodup := by
    rwa [List.map_map]
  have hbyPair : payload.byPair includeTests =
      ((payload.layeringLinks includeTests).map fun l => (linkId l.source l.target, l)).foldl
        (fun entries e => setEntry entries e.1 (id e.2)) [] := by
    rw [List.foldl_map]
    rfl
  rw [hbyPair, lookup_foldl_setEntry id hkeys]
  have hlook := lookup_of_mem hkeys (List.mem_map.mpr ⟨link, h, rfl⟩)
  rw [hlook]
  rfl

/-- Of two opposite directions one is the lighter. -/
theorem eq_of_neither_lighter {link back : MapLink}
    (h : payload.isLighter includeTests link back = false)
    (h' : payload.isLighter includeTests back link = false)
    (hsource : back.source = link.target) (htarget : back.target = link.source) :
    link.source = link.target := by
  simp only [isLighter, Bool.or_eq_false_iff, Bool.and_eq_false_iff, decide_eq_false_iff_not,
    Nat.not_lt] at h h'
  have hweight := Nat.le_antisymm h.1 h'.1
  have hfirst := h.2.resolve_left (not_not_intro hweight)
  have hsecond := h'.2.resolve_left (not_not_intro hweight.symm)
  rw [hsource, htarget] at hsecond
  exact List.le_antisymm hfirst hsecond

/-- With no cycle the settled layers are the longest ways down. -/
theorem isGreatest_layer (hacyclic : Acyclic (payload.Above includeTests)) {id : JsString}
    (hid : id ∈ payload.drawnIds includeTests) :
    ∃ n, (payload.layer includeTests).lookup id = some n ∧
      IsGreatest {k | EndsAfter (fun v u => payload.Above includeTests u v) k id} n := by
  obtain ⟨hwalked, hall⟩ :=
    walked_layers (payload.drawnIds includeTests) (payload.ends includeTests)
  have habove : (Linked (payload.drawnIds includeTests) (payload.ends includeTests)) =
      payload.Above includeTests := funext fun u => funext fun v => propext linked_iff_above
  obtain ⟨n, hn⟩ := hall id hid
  refine ⟨n, hn, habove ▸ hwalked.supported id n hn, fun k hk => ?_⟩
  -- Longer ways down need higher layers: each link of the way goes one layer down at least.
  have hway : ∀ k u, EndsAfter (fun v u => payload.Above includeTests u v) k u →
      ∀ n, (payload.layer includeTests).lookup u = some n → k ≤ n := by
    intro k u hpath
    induction hpath with
    | source => exact fun n _ => Nat.zero_le n
    | step walk hop ih =>
        intro n hn
        obtain ⟨m, hlt, hm⟩ := hwalked.below _ n _ hn (linked_iff_above.mpr hop)
          (fun hback => hacyclic _ (Relation.TransGen.head' hop (habove ▸ hback)))
        have hle := ih m hm
        omega
  exact hway k id hk n hn

variable (payload includeTests) in
/-- The layers of every map keep their promises. -/
theorem layersFall : payload.LayersFall includeTests := by
  obtain ⟨hwalked, hall⟩ :=
    walked_layers (payload.drawnIds includeTests) (payload.ends includeTests)
  refine ⟨fun hone link hlink back hback hsource htarget => ?_, fun link hlink hdropped => ?_,
    fun link hlink hapart => ?_, fun hacyclic id hid => isGreatest_layer hacyclic hid⟩
  · obtain ⟨hlink, hkept⟩ := mem_acyclic.mp hlink
    obtain ⟨hback, hkept'⟩ := mem_acyclic.mp hback
    have hfound := lookup_byPair hone hback
    have hfound' := lookup_byPair hone hlink
    rw [hsource, htarget] at hfound
    refine eq_of_neither_lighter (hkept back hfound) (hkept' link ?_) hsource htarget
    rw [hsource, htarget]
    exact hfound'
  · cases hlook : (payload.byPair includeTests).lookup (linkId link.target link.source) with
    | none =>
        refine absurd (mem_acyclic.mpr ⟨hlink, fun back hback => ?_⟩) hdropped
        rw [hlook] at hback
        cases hback
    | some back =>
        obtain ⟨hmem, hkey⟩ := byPair_entries (mem_of_lookup hlook)
        refine ⟨back, hmem, hkey.symm, ?_⟩
        by_contra hheavy
        refine hdropped (mem_acyclic.mpr ⟨hlink, fun other hother => ?_⟩)
        obtain rfl := Option.some.inj (hlook.symm.trans hother)
        exact Bool.eq_false_iff.mpr hheavy
  · have habove : payload.Above includeTests link.source link.target := ⟨link, hlink, rfl, rfl⟩
    have hends := mem_drawnIds_of_mem_layeringLinks (mem_acyclic.mp hlink).1
    obtain ⟨upper, hupper⟩ := hall link.source hends.1
    obtain ⟨lower, hlt, hlower⟩ := hwalked.below _ upper _ hupper (linked_iff_above.mpr habove)
      (fun hback => hapart ⟨Relation.ReflTransGen.single habove,
        Relation.ReflTransGen.mono (fun _ _ => linked_iff_above.mp) _ _ hback⟩)
    exact ⟨upper, lower, hupper, hlower, hlt⟩

end Drawing

end MapPayload

end AfyxGraph.Ui
