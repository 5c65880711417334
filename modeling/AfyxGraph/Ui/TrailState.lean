import AfyxGraph.Core.Transition
import AfyxGraph.Core.Entries
import AfyxGraph.Ui.LinkRoundTrip
import Mathlib.Data.List.Nodup

/-! # The state of the trail

The viewer keeps the hops walked so far and the names it has learnt. A hop that is pushed again
takes the trail back to it, so that no symbol stands twice in the trail; a hop that is renamed
keeps its place whatever its new id is.
-/

namespace AfyxGraph.Ui

open AfyxGraph.Core AfyxGraph.Core.Percent

/-! ## The state and its operations -/

structure HopInfo where
  name : Option Text
  kind : Option Text
  deriving DecidableEq, Repr

structure TrailState where
  trailHops : List TrailHop
  known : List (Text × HopInfo)
  deriving DecidableEq, Repr

/-- The value when it is neither missing nor the empty text. -/
def truthy (value : Option Text) : Option Text := value.filter fun t => !t.isEmpty

def remember (known : List (Text × HopInfo)) (id : Text) (info : HopInfo) :
    List (Text × HopInfo) :=
  if truthy info.name = none ∧ truthy info.kind = none then known
  else
    let current := (known.lookup id).getD ⟨none, none⟩
    setEntry known id ⟨(truthy info.name).or current.name, (truthy info.kind).or current.kind⟩

structure PushedHop where
  id : Text
  info : HopInfo
  dir : Option HopDirection
  deriving DecidableEq, Repr

/-- `{ ...hop, name: info.name ?? hop.name, kind: info.kind ?? hop.kind }` -/
def TrailHop.learn (hop : TrailHop) (info : HopInfo) : TrailHop :=
  { hop with name := info.name.or hop.name, kind := info.kind.or hop.kind }

namespace TrailState

def empty : TrailState := ⟨[], []⟩

def ids (s : TrailState) : List Text := s.trailHops.map (·.id)

def push (s : TrailState) (hop : PushedHop) : TrailState :=
  let known := remember s.known hop.id hop.info
  match s.trailHops.findIdx? (·.id = hop.id) with
  | some at_ =>
      let previous := s.trailHops[at_]?.toList
      ⟨s.trailHops.take at_ ++ previous.map (·.learn hop.info), known⟩
  | none =>
      let dir := hop.dir.getD (if s.trailHops.length = 0 then .start else .down)
      ⟨s.trailHops ++ [⟨hop.id, hop.info.name, hop.info.kind, dir⟩], known⟩

def rename (s : TrailState) (oldId newId : Text) (info : HopInfo) : TrailState :=
  match s.trailHops.findIdx? (·.id = oldId) with
  | none => s
  | some at_ =>
      ⟨s.trailHops.modify at_ fun previous => { previous.learn info with id := newId },
        remember s.known newId info⟩

def truncateTo (s : TrailState) (index : Int) : TrailState :=
  if index < 0 ∨ s.trailHops.length ≤ index then s
  else { s with trailHops := s.trailHops.take (index.toNat + 1) }

def resolve (s : TrailState) (id : Text) (info : HopInfo) : TrailState :=
  ⟨s.trailHops.map fun hop => if hop.id = id then hop.learn info else hop,
    remember s.known id info⟩

def clear (s : TrailState) : TrailState := { s with trailHops := [] }

/-- A remembered name takes the place of the missing one. -/
def recollect (known : List (Text × HopInfo)) (hop : TrailHop) : TrailHop :=
  match known.lookup hop.id with
  | none => hop
  | some remembered => { hop with name := remembered.name, kind := remembered.kind }

def hydrate (s : TrailState) (encoded : Option Text) : TrailState :=
  let decoded := decodeTrail encoded
  if encodeTrail decoded = encodeTrail s.trailHops then s
  else { s with trailHops := decoded.map (recollect s.known) }

end TrailState

/-! ## Runs -/

/-- The state now and the ones before it, the latest first. -/
structure TrailRun where
  current : TrailState
  earlier : List TrailState
  deriving DecidableEq, Repr

/-- `hydrate back` is with the encoding of the state that many operations ago. -/
inductive TrailOp where
  | push (hop : PushedHop)
  | rename (oldId newId : Text) (info : HopInfo)
  | truncateTo (index : Int)
  | resolve (id : Text) (info : HopInfo)
  | clear
  | hydrate (back : Nat)
  deriving DecidableEq, Repr

def TrailRun.next (r : TrailRun) (s : TrailState) : TrailRun := ⟨s, r.current :: r.earlier⟩

def trailMachine : Machine TrailRun TrailOp := fun r op =>
  match op with
  | .push hop => some (r.next (r.current.push hop))
  | .rename oldId newId info => some (r.next (r.current.rename oldId newId info))
  | .truncateTo index => some (r.next (r.current.truncateTo index))
  | .resolve id info => some (r.next (r.current.resolve id info))
  | .clear => some (r.next r.current.clear)
  | .hydrate back => (r.current :: r.earlier)[back]?.map fun s =>
      r.next (r.current.hydrate (some (encodeTrail s.trailHops)))

def TrailRun.start : TrailRun := ⟨.empty, []⟩

/-- No symbol stands twice, and the trail is what its own text says. -/
structure SimplePath (s : TrailState) : Prop where
  distinct : s.ids.Nodup
  hydrates : s.hydrate (some (encodeTrail s.trailHops)) = s

/-- The operation gives no hop the empty id and renames none to the id of another one. -/
def KeepsIdsApart (r : TrailRun) : TrailOp → Prop
  | .push hop => hop.id ≠ []
  | .rename oldId newId _ =>
      oldId ∈ r.current.ids → newId ≠ [] ∧ (newId ∈ r.current.ids → newId = oldId)
  | _ => True

/-! ## The text of the trail -/

theorem id_ne_nil_of_decodeToken {token : Text} {hop : TrailHop}
    (h : decodeToken token = some hop) : hop.id ≠ [] := by
  cases token with
  | nil => cases h
  | cons c rest =>
      rw [decodeToken] at h
      split at h
      · cases h
      · split at h
        · cases h
        · dsimp only at h
          split at h
          · cases h
          · rename_i hid
            obtain rfl := Option.some.inj h
            exact fun hnil => hid (by rw [List.isEmpty_iff]; exact hnil)

theorem id_ne_nil_of_decodeTrail {encoded : Option Text} {hop : TrailHop}
    (h : hop ∈ decodeTrail encoded) : hop.id ≠ [] := by
  cases encoded with
  | none => exact absurd h List.not_mem_nil
  | some encoded =>
      rw [decodeTrail] at h
      split at h
      · exact absurd h List.not_mem_nil
      · obtain ⟨token, -, htoken⟩ := List.mem_filterMap.mp h
        exact id_ne_nil_of_decodeToken htoken

def TrailHop.token (hop : TrailHop) : Text := dirToChar hop.dir :: encodeURIComponent hop.id

theorem encodeTrail_eq_nil_iff {hops : List TrailHop} : encodeTrail hops = [] ↔ hops = [] := by
  constructor
  · intro h
    by_contra hne
    refine Text.joinWith_ne_nil (by simpa using hne) (fun t ht => ?_) h
    obtain ⟨hop, -, rfl⟩ := List.mem_map.mp ht
    exact List.cons_ne_nil _ _
  · rintro rfl
    rfl

/-- The text of a trail says its tokens. -/
theorem tokens_eq_of_encodeTrail_eq {hops others : List TrailHop}
    (h : encodeTrail hops = encodeTrail others) :
    hops.map TrailHop.token = others.map TrailHop.token := by
  have hsplit : ∀ trail : List TrailHop, trail ≠ [] →
      (encodeTrail trail).split ',' = trail.map TrailHop.token := by
    intro trail hne
    apply Text.split_joinWith (by simpa using hne)
    intro t ht
    obtain ⟨hop, -, rfl⟩ := List.mem_map.mp ht
    exact comma_notMem_token hop.id hop.dir
  by_cases hnil : hops = []
  · subst hnil
    rw [encodeTrail_eq_nil_iff.mp h.symm]
  · have hother : others ≠ [] := by
      rintro rfl
      exact hnil (encodeTrail_eq_nil_iff.mp h)
    rw [← hsplit hops hnil, ← hsplit others hother, h]

namespace TrailState

theorem ids_recollect (known : List (Text × HopInfo)) (hops : List TrailHop) :
    (hops.map (recollect known)).map (·.id) = hops.map (·.id) := by
  rw [List.map_map]
  apply List.map_congr_left
  intro hop _
  simp only [Function.comp_apply, recollect]
  split <;> rfl

theorem nil_notMem_ids {s : TrailState} : [] ∉ s.ids ↔ ∀ hop ∈ s.trailHops, hop.id ≠ [] := by
  simp [ids]

/-- A trail is what its own text says as long as no hop has the empty id. -/
theorem hydrate_self_iff (s : TrailState) :
    s.hydrate (some (encodeTrail s.trailHops)) = s ↔ [] ∉ s.ids := by
  rw [nil_notMem_ids]
  constructor
  · intro h hop hhop hnil
    rw [hydrate] at h
    split at h
    · rename_i hsame
      have htoken : hop.token ∈ (decodeTrail (some (encodeTrail s.trailHops))).map
          TrailHop.token := by
        rw [tokens_eq_of_encodeTrail_eq hsame]
        exact List.mem_map_of_mem hhop
      obtain ⟨other, hother, heq⟩ := List.mem_map.mp htoken
      have hrest : encodeURIComponent other.id = encodeURIComponent hop.id :=
        (List.cons.inj heq).2
      rw [hnil, encodeURIComponent_eq_nil.mpr rfl, encodeURIComponent_eq_nil] at hrest
      exact id_ne_nil_of_decodeTrail hother hrest
    · have hids : hop.id ∈ (decodeTrail (some (encodeTrail s.trailHops))).map (·.id) := by
        have hhops : (decodeTrail (some (encodeTrail s.trailHops))).map (recollect s.known) =
            s.trailHops := congrArg TrailState.trailHops h
        rw [← ids_recollect s.known, hhops]
        exact List.mem_map_of_mem hhop
      obtain ⟨other, hother, heq⟩ := List.mem_map.mp hids
      exact id_ne_nil_of_decodeTrail hother (heq.trans hnil)
  · intro hids
    rw [hydrate, decodeTrail_encodeTrail hids, if_pos]
    rw [encodeTrail, encodeTrail, List.map_map]
    rfl

theorem simplePath_iff (s : TrailState) : SimplePath s ↔ s.ids.Nodup ∧ [] ∉ s.ids := by
  rw [← hydrate_self_iff]
  exact ⟨fun h => ⟨h.distinct, h.hydrates⟩, fun h => ⟨h.1, h.2⟩⟩

/-! ## What an operation does to the ids -/

theorem ids_hydrate_of_simplePath (s : TrailState) {t : TrailState} (ht : SimplePath t) :
    (s.hydrate (some (encodeTrail t.trailHops))).ids = s.ids ∨
      (s.hydrate (some (encodeTrail t.trailHops))).ids = t.ids := by
  have hids := ((simplePath_iff t).mp ht).2
  rw [hydrate]
  split
  · exact Or.inl rfl
  · right
    change ((decodeTrail (some (encodeTrail t.trailHops))).map (recollect s.known)).map (·.id) = _
    rw [ids_recollect, decodeTrail_encodeTrail (nil_notMem_ids.mp hids), List.map_map]
    rfl

theorem ids_resolve (s : TrailState) (id : Text) (info : HopInfo) :
    (s.resolve id info).ids = s.ids := by
  change (s.trailHops.map _).map _ = s.trailHops.map _
  rw [List.map_map]
  apply List.map_congr_left
  intro hop _
  simp only [Function.comp_apply]
  split <;> rfl

theorem ids_truncateTo (s : TrailState) (index : Int) : (s.truncateTo index).ids <+: s.ids := by
  rw [truncateTo]
  split
  · exact List.prefix_refl s.ids
  · exact (List.take_prefix _ s.trailHops).map _

theorem ids_push (s : TrailState) (hop : PushedHop) :
    hop.id ∈ s.ids ∧ (s.push hop).ids <+: s.ids ∨
      hop.id ∉ s.ids ∧ (s.push hop).ids = s.ids ++ [hop.id] := by
  rw [push]
  cases hfind : s.trailHops.findIdx? (·.id = hop.id) with
  | none =>
      right
      rw [List.findIdx?_eq_none_iff] at hfind
      refine ⟨fun hmem => ?_, by simp [ids]⟩
      obtain ⟨other, hother, heq⟩ := List.mem_map.mp hmem
      exact absurd heq (by simpa using hfind other hother)
  | some at_ =>
      left
      obtain ⟨hlt, hat, -⟩ := List.findIdx?_eq_some_iff_getElem.mp hfind
      refine ⟨List.mem_map.mpr ⟨_, List.getElem_mem hlt, of_decide_eq_true hat⟩, ?_⟩
      have hids : (s.trailHops.take at_ ++ s.trailHops[at_]?.toList.map
          (·.learn hop.info)).map (·.id) = (s.trailHops.take (at_ + 1)).map (·.id) := by
        rw [List.take_add_one, List.map_append, List.map_append, List.map_map]
        rfl
      change (List.map _ _) <+: s.ids
      rw [hids]
      exact (List.take_prefix _ s.trailHops).map _

/-- A renamed hop keeps its place. -/
theorem ids_rename (s : TrailState) (oldId newId : Text) (info : HopInfo) :
    oldId ∉ s.ids ∧ s.rename oldId newId info = s ∨
      ∃ before after, s.ids = before ++ oldId :: after ∧
        (s.rename oldId newId info).ids = before ++ newId :: after := by
  rw [rename]
  cases hfind : s.trailHops.findIdx? (·.id = oldId) with
  | none =>
      left
      rw [List.findIdx?_eq_none_iff] at hfind
      refine ⟨fun hmem => ?_, rfl⟩
      obtain ⟨other, hother, heq⟩ := List.mem_map.mp hmem
      exact absurd heq (by simpa using hfind other hother)
  | some at_ =>
      right
      obtain ⟨hlt, hat, -⟩ := List.findIdx?_eq_some_iff_getElem.mp hfind
      have hold : s.trailHops[at_].id = oldId := of_decide_eq_true hat
      refine ⟨(s.trailHops.take at_).map (·.id), (s.trailHops.drop (at_ + 1)).map (·.id), ?_, ?_⟩
      · rw [ids, ← hold, ← List.map_cons, List.getElem_cons_drop, ← List.map_append,
          List.take_append_drop]
      · simp only [ids, List.modify_eq_take_cons_drop hlt, List.map_append, List.map_cons]

end TrailState

/-! ## Runs -/

open TrailState

theorem simplePath_rename_iff {s : TrailState} (h : SimplePath s) (oldId newId : Text)
    (info : HopInfo) : SimplePath (s.rename oldId newId info) ↔
      (oldId ∈ s.ids → newId ≠ [] ∧ (newId ∈ s.ids → newId = oldId)) := by
  obtain ⟨hnodup, hids⟩ := (simplePath_iff s).mp h
  rw [simplePath_iff]
  rcases ids_rename s oldId newId info with ⟨hold, hsame⟩ | ⟨before, after, hbefore, hafter⟩
  · rw [hsame]
    exact ⟨fun _ hmem => absurd hmem hold, fun _ => ⟨hnodup, hids⟩⟩
  · rw [hafter]
    rw [hbefore] at hnodup hids ⊢
    have hold : oldId ∈ before ++ oldId :: after := by simp
    rw [List.nodup_middle, List.nodup_cons] at hnodup ⊢
    have hnil : [] ∉ before ++ after := fun hmem => hids (by
      rcases List.mem_append.mp hmem with hmem | hmem
      · exact List.mem_append_left _ hmem
      · exact List.mem_append_right _ (List.mem_cons_of_mem _ hmem))
    have hmem : ∀ id newId : Text, id ∈ before ++ newId :: after ↔
        id = newId ∨ id ∈ before ++ after := by
      intro id newId
      simp only [List.mem_append, List.mem_cons]
      tauto
    constructor
    · rintro ⟨⟨hnew, -⟩, hne⟩ -
      refine ⟨fun hempty => hne ((hmem _ _).mpr (Or.inl hempty.symm)), fun hin => ?_⟩
      exact ((hmem _ _).mp hin).resolve_right hnew
    · intro hguard
      obtain ⟨hne, hin⟩ := hguard hold
      refine ⟨⟨fun hnew => ?_, hnodup.2⟩, fun hempty => ?_⟩
      · have heq := hin ((hmem _ _).mpr (Or.inr hnew))
        exact hnodup.1 (heq ▸ hnew)
      · rcases (hmem _ _).mp hempty with hempty | hempty
        · exact hne hempty.symm
        · exact hnil hempty

theorem simplePath_push_iff {s : TrailState} (h : SimplePath s) (hop : PushedHop) :
    SimplePath (s.push hop) ↔ hop.id ≠ [] := by
  obtain ⟨hnodup, hids⟩ := (simplePath_iff s).mp h
  rw [simplePath_iff]
  rcases ids_push s hop with ⟨hmem, hless⟩ | ⟨hnew, hpush⟩
  · constructor
    · rintro - hnil
      exact hids (hnil ▸ hmem)
    · exact fun _ => ⟨hnodup.sublist hless.sublist, fun hnil => hids (hless.subset hnil)⟩
  · rw [hpush, ← List.concat_eq_append, List.nodup_concat, List.concat_eq_append]
    constructor
    · rintro ⟨-, hnil⟩ hempty
      exact hnil (List.mem_append_right _ (by simp [hempty]))
    · intro hne
      refine ⟨⟨hnew, hnodup⟩, fun hnil => ?_⟩
      rcases List.mem_append.mp hnil with hnil | hnil
      · exact hids hnil
      · exact hne (List.mem_singleton.mp hnil).symm

theorem simplePath_of_ids {s t : TrailState} (h : SimplePath s) (hids : t.ids <+: s.ids) :
    SimplePath t := by
  obtain ⟨hnodup, hnil⟩ := (simplePath_iff s).mp h
  exact (simplePath_iff t).mpr
    ⟨hnodup.sublist hids.sublist, fun hmem => hnil (hids.subset hmem)⟩

/-- From a simple path, an operation leads to a simple path exactly when it keeps the ids apart. -/
theorem simplePath_step_iff {r r' : TrailRun} {op : TrailOp}
    (hearlier : ∀ s ∈ r.earlier, SimplePath s) (h : SimplePath r.current)
    (hstep : trailMachine r op = some r') : SimplePath r'.current ↔ KeepsIdsApart r op := by
  cases op with
  | push hop =>
      obtain rfl := Option.some.inj hstep
      exact simplePath_push_iff h hop
  | rename oldId newId info =>
      obtain rfl := Option.some.inj hstep
      exact simplePath_rename_iff h oldId newId info
  | truncateTo index =>
      obtain rfl := Option.some.inj hstep
      exact iff_true_intro (simplePath_of_ids h (ids_truncateTo r.current index))
  | resolve id info =>
      obtain rfl := Option.some.inj hstep
      refine iff_true_intro (simplePath_of_ids h ?_)
      exact ids_resolve r.current id info ▸ List.prefix_refl _
  | clear =>
      obtain rfl := Option.some.inj hstep
      exact iff_true_intro (simplePath_of_ids h (List.nil_prefix))
  | hydrate back =>
      obtain ⟨s, hs, rfl⟩ := Option.map_eq_some_iff.mp hstep
      have hold : SimplePath s := by
        rcases List.mem_cons.mp (List.mem_of_getElem? hs) with rfl | hs
        · exact h
        · exact hearlier s hs
      refine iff_true_intro ?_
      rcases ids_hydrate_of_simplePath r.current hold with hids | hids
      · exact simplePath_of_ids h (hids ▸ List.prefix_refl _)
      · exact simplePath_of_ids hold (hids ▸ List.prefix_refl _)

theorem earlier_step {r r' : TrailRun} {op : TrailOp} (hstep : trailMachine r op = some r') :
    r'.earlier = r.current :: r.earlier := by
  cases op with
  | hydrate back =>
      obtain ⟨s, -, rfl⟩ := Option.map_eq_some_iff.mp hstep
      rfl
  | _ =>
      obtain rfl := Option.some.inj hstep
      rfl

/-- Along a run from the empty trail, every state is a simple path exactly when no operation gives
a hop the empty id or the id of another hop. -/
theorem trail_always_simplePath_iff (ops : List TrailOp) :
    trailMachine.Always (fun r => SimplePath r.current) .start ops ↔
      trailMachine.Guarded KeepsIdsApart .start ops := by
  refine Machine.always_iff_guarded (I := fun r => ∀ s ∈ r.earlier, SimplePath s) ?_ ?_ ?_ ?_ ops
  · intro r op r' hearlier h hstep s hs
    rw [earlier_step hstep] at hs
    rcases List.mem_cons.mp hs with rfl | hs
    · exact h
    · exact hearlier s hs
  · exact fun r op r' hearlier h hstep => simplePath_step_iff hearlier h hstep
  · exact fun s hs => absurd hs List.not_mem_nil
  · exact (simplePath_iff _).mpr ⟨List.nodup_nil, List.not_mem_nil⟩

/-- The second of two hops is renamed to the first. -/
def renamedOntoAnother : List TrailOp :=
  [.push ⟨['a'], ⟨none, none⟩, none⟩, .push ⟨['b'], ⟨none, none⟩, none⟩,
    .rename ['b'] ['a'] ⟨none, none⟩]

theorem not_always_simplePath_renamedOntoAnother :
    ¬ trailMachine.Always (fun r => SimplePath r.current) .start renamedOntoAnother := by
  intro h
  have hend : (trailMachine.run .start renamedOntoAnother).any (fun r =>
      ¬ r.current.ids.Nodup) = true := by decide
  obtain ⟨r, hr, htwice⟩ := (Option.any_eq_true _ _).mp hend
  exact absurd (h.last hr).distinct (of_decide_eq_true htwice)

end AfyxGraph.Ui
