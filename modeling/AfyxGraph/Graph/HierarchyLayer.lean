import AfyxGraph.Graph.TypeHierarchy
import Mathlib.Data.List.Nodup

/-! # One layer of subtypes

What reading the links of a layer does, said without the order of the two caps and the upgrades:
the new subtypes in the order in which the links first name them, of which the layer takes as many
as the row cap leaves room for. The others are hidden under every parent that links to them.
-/

namespace AfyxGraph.Graph

open AfyxGraph.Core Extraction

/-! ## Hidden identities -/

theorem hiddenAt_hide (hidden : List (String × List String)) (parent other id : String) :
    hiddenAt (hide hidden parent id) other =
      if other = parent then addNew (hiddenAt hidden parent) id else hiddenAt hidden other := by
  unfold hide
  split
  · rename_i heq
    rw [hiddenAt, heq, lookup_setEntry_self]
    rfl
  · rename_i hne
    rw [hiddenAt, lookup_setEntry_ne _ _ hne]
    rfl

/-- Every set of hidden identities is one, and every parent has one. -/
structure HiddenInv (hidden : List (String × List String)) : Prop where
  keys : (hidden.map Prod.fst).Nodup
  sets : ∀ parent, (hiddenAt hidden parent).Nodup

theorem HiddenInv.hide {hidden : List (String × List String)} (h : HiddenInv hidden)
    (parent id : String) : HiddenInv (hide hidden parent id) where
  keys := nodup_keys_setEntry h.keys _ _
  sets other := by
    rw [hiddenAt_hide]
    split
    · exact nodup_addNew (h.sets parent) id
    · exact h.sets other

theorem hiddenInv_nil : HiddenInv [] := ⟨List.nodup_nil, fun _ => List.nodup_nil⟩

/-- Adding the hidden counts changes nothing but the counts. -/
theorem addHidden_eq {hidden : List (String × List String)}
    (h : (hidden.map Prod.fst).Nodup) (entries : List HierarchyEntry) :
    addHidden entries hidden = entries.map fun e =>
      { e with hiddenSubtypes := e.hiddenSubtypes + (hiddenAt hidden e.node.id).length } := by
  unfold addHidden
  induction hidden generalizing entries with
  | nil => simp [hiddenAt]
  | cons p hidden ih =>
      obtain ⟨parent, ids⟩ := p
      rw [List.map_cons, List.nodup_cons] at h
      rw [List.foldl_cons, ih h.2, List.map_map]
      apply List.map_congr_left
      intro e _
      have hnone : hidden.lookup parent = none := by
        rw [List.lookup_eq_none_iff]
        intro q hq
        rw [bne_iff_ne]
        rintro rfl
        exact h.1 (List.mem_map.mpr ⟨q, hq, rfl⟩)
      by_cases hid : e.node.id = parent
      · subst hid
        simp [hiddenAt, hnone]
      · have hbeq : (e.node.id == parent) = false := by simpa using hid
        simp [hiddenAt, hid, List.lookup_cons, hbeq]

/-! ## New subtypes -/

namespace HierarchySource

variable (source : HierarchySource)

/-- The existing subtypes at the far ends of links that are not known yet, first ones first. -/
def freshSubtypes (known : List String) (links : List Edge) : List String :=
  links.foldl (fun fresh link =>
    if (source.node link.source).isSome = true ∧ link.source ∉ known then addNew fresh link.source
    else fresh) []

variable {source} {known : List String} {links : List Edge} {link : Edge} {v : String}

theorem freshSubtypes_append : source.freshSubtypes known (links ++ [link]) =
    if (source.node link.source).isSome = true ∧ link.source ∉ known then
      addNew (source.freshSubtypes known links) link.source
    else source.freshSubtypes known links := by
  rw [freshSubtypes, List.foldl_append]
  rfl

theorem mem_freshSubtypes : v ∈ source.freshSubtypes known links ↔
    (source.node v).isSome = true ∧ v ∉ known ∧ ∃ l ∈ links, l.source = v := by
  induction links using List.reverseRecOn with
  | nil => simp [freshSubtypes]
  | append_singleton links link ih =>
      rw [freshSubtypes_append]
      split
      · rename_i hnew
        rw [mem_addNew, ih]
        constructor
        · rintro (⟨hsome, hout, l, hl, rfl⟩ | rfl)
          · exact ⟨hsome, hout, l, List.mem_append_left _ hl, rfl⟩
          · exact ⟨hnew.1, hnew.2, link, by simp, rfl⟩
        · rintro ⟨hsome, hout, l, hl, rfl⟩
          rcases List.mem_append.mp hl with hl | hl
          · exact .inl ⟨hsome, hout, l, hl, rfl⟩
          · exact .inr (congrArg Edge.source (List.mem_singleton.mp hl))
      · rename_i hold
        rw [ih]
        constructor
        · rintro ⟨hsome, hout, l, hl, rfl⟩
          exact ⟨hsome, hout, l, List.mem_append_left _ hl, rfl⟩
        · rintro ⟨hsome, hout, l, hl, rfl⟩
          rcases List.mem_append.mp hl with hl | hl
          · exact ⟨hsome, hout, l, hl, rfl⟩
          · obtain rfl := List.mem_singleton.mp hl
            exact absurd ⟨hsome, hout⟩ hold

theorem nodup_freshSubtypes : (source.freshSubtypes known links).Nodup := by
  induction links using List.reverseRecOn with
  | nil => exact List.nodup_nil
  | append_singleton links link ih =>
      rw [freshSubtypes_append]
      split
      · exact nodup_addNew ih _
      · exact ih

end HierarchySource

/-! ## Reading the links -/

/-- What reading some links of a layer has come to; there is room for `room` entries. -/
structure Scanned (source : HierarchySource) (known : List String) (depth room : Nat)
    (before : LayerScan) (links : List Edge) (s : LayerScan) : Prop where
  ids : s.layer.map (·.node.id) = (source.freshSubtypes known links).take room
  entries : ∀ e ∈ s.layer, e.depth = depth ∧ e.hiddenSubtypes = 0 ∧
    source.node e.node.id = some e.node ∧ ∃ l ∈ links, l.target = e.parentId ∧ l.source = e.node.id
  relation : ∀ e ∈ s.layer, e.relation = .extends ↔
    ∃ l ∈ links, l.source = e.node.id ∧ l.kind = .extends
  hidden : ∀ parent v, v ∈ hiddenAt s.hiddenByParent parent ↔
    v ∈ (source.freshSubtypes known links).drop room ∧ ∃ l ∈ links, l.target = parent ∧ l.source = v
  sets : HiddenInv s.hiddenByParent
  bounded : s.bounded =
    (before.bounded || decide (room < (source.freshSubtypes known links).length))
  direct : depth = 1 → (∀ l ∈ links, ∀ l' ∈ links, l.target = l'.target) →
    s.direct = before.direct + (source.freshSubtypes known links).length
  direct_later : depth ≠ 1 → s.direct = before.direct

section Scan

variable {source : HierarchySource} {policy : TypeHierarchyPolicy} {nodes : Found}
  {known : List String} {depth rows room : Nat} {before s : LayerScan} {links : List Edge}
  {link : Edge}

theorem scanned_start (direct implementers : Nat) (bounded : Bool) :
    Scanned source known depth room ⟨[], [], direct, implementers, bounded⟩ []
      ⟨[], [], direct, implementers, bounded⟩ where
  ids := by simp [HierarchySource.freshSubtypes]
  entries e he := absurd he List.not_mem_nil
  relation e he := absurd he List.not_mem_nil
  hidden parent v := by simp [hiddenAt, HierarchySource.freshSubtypes]
  sets := hiddenInv_nil
  bounded := by simp [HierarchySource.freshSubtypes]
  direct _ _ := rfl
  direct_later _ := rfl

theorem Scanned.mem_layer (h : Scanned source known depth room before links s) {v : String} :
    (∃ e ∈ s.layer, e.node.id = v) ↔ v ∈ (source.freshSubtypes known links).take room := by
  rw [← h.ids, List.mem_map]

/-- A link that leads to nothing new. -/
theorem Scanned.ignore (h : Scanned source known depth room before links s)
    (hold : ¬ ((source.node link.source).isSome = true ∧ link.source ∉ known)) :
    Scanned source known depth room before (links ++ [link]) s := by
  have hfresh : source.freshSubtypes known (links ++ [link]) =
      source.freshSubtypes known links := by
    rw [HierarchySource.freshSubtypes_append, if_neg hold]
  have hne : ∀ v ∈ source.freshSubtypes known links, link.source ≠ v := by
    rintro v hv rfl
    obtain ⟨hsome, hout, -⟩ := HierarchySource.mem_freshSubtypes.mp hv
    exact hold ⟨hsome, hout⟩
  constructor
  · rw [hfresh]
    exact h.ids
  · intro e he
    obtain ⟨hdepth, hzero, hnode, l, hl, hends⟩ := h.entries e he
    exact ⟨hdepth, hzero, hnode, l, List.mem_append_left _ hl, hends⟩
  · intro e he
    have hmem := List.mem_of_mem_take (h.mem_layer.mp ⟨e, he, rfl⟩)
    rw [h.relation e he]
    constructor
    · rintro ⟨l, hl, hrest⟩
      exact ⟨l, List.mem_append_left _ hl, hrest⟩
    · rintro ⟨l, hl, hsource, hkind⟩
      rcases List.mem_append.mp hl with hl | hl
      · exact ⟨l, hl, hsource, hkind⟩
      · obtain rfl := List.mem_singleton.mp hl
        exact absurd hsource (hne _ hmem)
  · intro parent v
    rw [hfresh, h.hidden]
    refine and_congr_right fun hv => ?_
    constructor
    · rintro ⟨l, hl, hrest⟩
      exact ⟨l, List.mem_append_left _ hl, hrest⟩
    · rintro ⟨l, hl, htarget, hsource⟩
      rcases List.mem_append.mp hl with hl | hl
      · exact ⟨l, hl, htarget, hsource⟩
      · obtain rfl := List.mem_singleton.mp hl
        exact absurd hsource (hne _ (List.mem_of_mem_drop hv))
  · exact h.sets
  · rw [hfresh]
    exact h.bounded
  · intro hone hsame
    rw [hfresh]
    exact h.direct hone fun l hl l' hl' =>
      hsame l (List.mem_append_left _ hl) l' (List.mem_append_left _ hl')
  · exact h.direct_later

/-- A link to a subtype that earlier links have led to. -/
theorem freshSubtypes_of_mem
    (hmem : link.source ∈ source.freshSubtypes known links) :
    source.freshSubtypes known (links ++ [link]) = source.freshSubtypes known links := by
  rw [HierarchySource.freshSubtypes_append]
  split
  · exact if_pos hmem
  · rfl

theorem freshSubtypes_of_new (hsome : (source.node link.source).isSome = true)
    (hout : link.source ∉ known) (hnew : link.source ∉ source.freshSubtypes known links) :
    source.freshSubtypes known (links ++ [link]) =
      source.freshSubtypes known links ++ [link.source] := by
  rw [HierarchySource.freshSubtypes_append, if_pos ⟨hsome, hout⟩]
  exact if_neg hnew

/-- Who links where, with one link more. -/
theorem exists_link_append {P : Edge → Prop} :
    (∃ l ∈ links ++ [link], P l) ↔ (∃ l ∈ links, P l) ∨ P link := by
  constructor
  · rintro ⟨l, hl, hp⟩
    rcases List.mem_append.mp hl with hl | hl
    · exact .inl ⟨l, hl, hp⟩
    · exact .inr (List.mem_singleton.mp hl ▸ hp)
  · rintro (⟨l, hl, hp⟩ | hp)
    · exact ⟨l, List.mem_append_left _ hl, hp⟩
    · exact ⟨link, List.mem_append_right _ (List.mem_singleton_self _), hp⟩

theorem not_mem_drop_of_mem_take {fresh : List String} (hnodup : fresh.Nodup) {v : String}
    (h : v ∈ fresh.take room) : v ∉ fresh.drop room := by
  intro hdrop
  rw [← List.take_append_drop room fresh] at hnodup
  exact (List.nodup_append.mp hnodup).2.2 v h v hdrop rfl

theorem map_id_upgrade (layer : List HierarchyEntry) (id : String) (link : Edge) :
    (upgrade layer id link).map (·.node.id) = layer.map (·.node.id) := by
  unfold upgrade
  rw [List.map_map]
  apply List.map_congr_left
  intro e _
  show (if _ then _ else e : HierarchyEntry).node.id = e.node.id
  split <;> rfl

/-- A link to an entry of the layer can upgrade it, and says nothing else. -/
theorem Scanned.meet (h : Scanned source known depth room before links s)
    (hlayer : ∃ e ∈ s.layer, e.node.id = link.source) :
    Scanned source known depth room before (links ++ [link])
      { s with layer := upgrade s.layer link.source link } := by
  have htake := h.mem_layer.mp hlayer
  have hfresh := freshSubtypes_of_mem (List.mem_of_mem_take htake)
  have hdrop := not_mem_drop_of_mem_take HierarchySource.nodup_freshSubtypes htake
  have hentry : ∀ e ∈ upgrade s.layer link.source link, ∃ e' ∈ s.layer, e.node = e'.node ∧
      e.depth = e'.depth ∧ e.hiddenSubtypes = e'.hiddenSubtypes ∧ e.parentId = e'.parentId ∧
      (e.relation = .extends ↔ e'.relation = .extends ∨
        link.source = e'.node.id ∧ link.kind = .extends) := by
    intro e he
    obtain ⟨e', he', rfl⟩ := List.mem_map.mp he
    refine ⟨e', he', ?_⟩
    split
    · rename_i hup
      exact ⟨rfl, rfl, rfl, rfl, fun _ => .inr ⟨hup.1.symm, hup.2.2⟩, fun _ => rfl⟩
    · rename_i hkeep
      refine ⟨rfl, rfl, rfl, rfl, .inl, ?_⟩
      rintro (hext | ⟨hid, hkind⟩)
      · exact hext
      · by_cases hrelation : e'.relation = .implements
        · exact absurd ⟨hid.symm, hrelation, hkind⟩ hkeep
        · cases hcase : e'.relation with
          | «extends» => rfl
          | implements => exact absurd hcase hrelation
  constructor
  · rw [hfresh, map_id_upgrade]
    exact h.ids
  · intro e he
    obtain ⟨e', he', hnode, hdepth, hzero, hparent, -⟩ := hentry e he
    obtain ⟨h1, h2, h3, l, hl, hends⟩ := h.entries e' he'
    rw [hnode, hdepth, hzero, hparent]
    exact ⟨h1, h2, h3, l, List.mem_append_left _ hl, hends⟩
  · intro e he
    obtain ⟨e', he', hnode, -, -, -, hrelation⟩ := hentry e he
    rw [hrelation, h.relation e' he', exists_link_append, hnode]
  · intro parent v
    rw [hfresh, h.hidden, exists_link_append]
    refine and_congr_right fun hv => ⟨.inl, fun hcase => hcase.resolve_right ?_⟩
    rintro ⟨-, rfl⟩
    exact hdrop hv
  · exact h.sets
  · rw [hfresh]
    exact h.bounded
  · intro hone hsame
    rw [hfresh]
    exact h.direct hone fun l hl l' hl' =>
      hsame l (List.mem_append_left _ hl) l' (List.mem_append_left _ hl')
  · exact h.direct_later

/-- A link to a subtype that is hidden under the same parent. -/
theorem Scanned.again (h : Scanned source known depth room before links s)
    (hhidden : link.source ∈ hiddenAt s.hiddenByParent link.target) :
    Scanned source known depth room before (links ++ [link]) s := by
  obtain ⟨hdrop, l₀, hl₀, htarget₀, hsource₀⟩ := (h.hidden _ _).mp hhidden
  have hfresh := freshSubtypes_of_mem (List.mem_of_mem_drop hdrop)
  constructor
  · rw [hfresh]
    exact h.ids
  · intro e he
    obtain ⟨h1, h2, h3, l, hl, hends⟩ := h.entries e he
    exact ⟨h1, h2, h3, l, List.mem_append_left _ hl, hends⟩
  · intro e he
    rw [h.relation e he, exists_link_append]
    refine ⟨.inl, fun hcase => hcase.resolve_right fun ⟨hsource, _⟩ => ?_⟩
    have htake := h.mem_layer.mp ⟨e, he, hsource.symm⟩
    exact not_mem_drop_of_mem_take HierarchySource.nodup_freshSubtypes htake hdrop
  · intro parent v
    rw [hfresh, h.hidden, exists_link_append]
    refine and_congr_right fun hv => ⟨.inl, ?_⟩
    rintro (hold | ⟨rfl, rfl⟩)
    · exact hold
    · exact ⟨l₀, hl₀, htarget₀, hsource₀⟩
  · exact h.sets
  · rw [hfresh]
    exact h.bounded
  · intro hone hsame
    rw [hfresh]
    exact h.direct hone fun l hl l' hl' =>
      hsame l (List.mem_append_left _ hl) l' (List.mem_append_left _ hl')
  · exact h.direct_later

/-- The count of direct subtypes goes up with a new subtype of the only parent. -/
theorem Scanned.direct_succ (h : Scanned source known depth room before links s)
    (hlayer : ¬ ∃ e ∈ s.layer, e.node.id = link.source)
    (hhidden : link.source ∉ hiddenAt s.hiddenByParent link.target)
    (hsome : (source.node link.source).isSome = true) (hout : link.source ∉ known)
    (hone : depth = 1)
    (hsame : ∀ l ∈ links ++ [link], ∀ l' ∈ links ++ [link], l.target = l'.target) :
    s.direct + 1 = before.direct + (source.freshSubtypes known (links ++ [link])).length := by
  have hnew : link.source ∉ source.freshSubtypes known links := by
    intro hmem
    rw [← List.take_append_drop room (source.freshSubtypes known links)] at hmem
    rcases List.mem_append.mp hmem with htake | hdrop
    · exact hlayer (h.mem_layer.mpr htake)
    · -- it is hidden under the only parent there is
      obtain ⟨-, -, l, hl, hsource⟩ :=
        HierarchySource.mem_freshSubtypes.mp (List.mem_of_mem_drop hdrop)
      have htarget := hsame l (List.mem_append_left _ hl) link (by simp)
      exact hhidden ((h.hidden _ _).mpr ⟨hdrop, l, hl, htarget, hsource⟩)
  rw [freshSubtypes_of_new hsome hout hnew, List.length_append, List.length_singleton,
    h.direct hone fun l hl l' hl' =>
      hsame l (List.mem_append_left _ hl) l' (List.mem_append_left _ hl')]
  rfl

/-- Without room a subtype is hidden. -/
theorem Scanned.hide (h : Scanned source known depth room before links s) {direct : Nat}
    (implementers : Nat) (hlayer : ¬ ∃ e ∈ s.layer, e.node.id = link.source)
    (hsome : (source.node link.source).isSome = true) (hout : link.source ∉ known)
    (hfull : room ≤ s.layer.length)
    (hdirect : depth = 1 → (∀ l ∈ links ++ [link], ∀ l' ∈ links ++ [link], l.target = l'.target) →
      direct = before.direct + (source.freshSubtypes known (links ++ [link])).length)
    (hlater : depth ≠ 1 → direct = before.direct) :
    Scanned source known depth room before (links ++ [link])
      ⟨s.layer, hide s.hiddenByParent link.target link.source, direct, implementers, true⟩ := by
  have hlength : room ≤ (source.freshSubtypes known links).length := by
    have hids := congrArg List.length h.ids
    rw [List.length_map, List.length_take] at hids
    omega
  have hnottake : link.source ∉ (source.freshSubtypes known links).take room :=
    fun htake => hlayer (h.mem_layer.mpr htake)
  -- what is new comes behind what is in the layer
  have hcases : (source.freshSubtypes known (links ++ [link])).take room =
        (source.freshSubtypes known links).take room ∧
      (∀ v, v ∈ (source.freshSubtypes known (links ++ [link])).drop room ↔
        v ∈ (source.freshSubtypes known links).drop room ∨ v = link.source) ∧
      room < (source.freshSubtypes known (links ++ [link])).length := by
    by_cases hmem : link.source ∈ source.freshSubtypes known links
    · have hdrop : link.source ∈ (source.freshSubtypes known links).drop room := by
        rw [← List.take_append_drop room (source.freshSubtypes known links)] at hmem
        exact (List.mem_append.mp hmem).resolve_left hnottake
      rw [freshSubtypes_of_mem hmem]
      refine ⟨rfl, fun v => ⟨.inl, fun hv => hv.elim (fun hv => hv) (fun hv => hv ▸ hdrop)⟩, ?_⟩
      have hpos := List.length_pos_of_mem hdrop
      rw [List.length_drop] at hpos
      omega
    · rw [freshSubtypes_of_new hsome hout hmem]
      refine ⟨List.take_append_of_le_length hlength, fun v => ?_, ?_⟩
      · rw [List.drop_append_of_le_length hlength, List.mem_append, List.mem_singleton]
      · rw [List.length_append, List.length_singleton]
        omega
  obtain ⟨htake, hdrop, hover⟩ := hcases
  constructor
  · rw [htake]
    exact h.ids
  · intro e he
    obtain ⟨h1, h2, h3, l, hl, hends⟩ := h.entries e he
    exact ⟨h1, h2, h3, l, List.mem_append_left _ hl, hends⟩
  · intro e he
    rw [h.relation e he, exists_link_append]
    exact ⟨.inl, fun hcase => hcase.resolve_right fun ⟨hsource, _⟩ => hlayer ⟨e, he, hsource.symm⟩⟩
  · intro parent v
    rw [hiddenAt_hide, exists_link_append, hdrop]
    split
    · rename_i heq
      rw [mem_addNew, ← heq, h.hidden]
      constructor
      · rintro (⟨hv, hlink⟩ | rfl)
        · exact ⟨.inl hv, .inl hlink⟩
        · exact ⟨.inr rfl, .inr ⟨rfl, rfl⟩⟩
      · rintro ⟨hv, hlink⟩
        rcases hv with hv | rfl
        · rcases hlink with hlink | ⟨-, rfl⟩
          · exact .inl ⟨hv, hlink⟩
          · exact .inr rfl
        · exact .inr rfl
    · rename_i hne
      rw [h.hidden]
      constructor
      · rintro ⟨hv, hlink⟩
        exact ⟨.inl hv, .inl hlink⟩
      · rintro ⟨hv, hlink⟩
        have hold := hlink.resolve_right fun hends => hne hends.1.symm
        refine ⟨?_, hold⟩
        rcases hv with hv | rfl
        · exact hv
        · obtain ⟨l, hl, -, hsource⟩ := hold
          have hmem := HierarchySource.mem_freshSubtypes.mpr ⟨hsome, hout, l, hl, hsource⟩
          rw [← List.take_append_drop room (source.freshSubtypes known links)] at hmem
          exact (List.mem_append.mp hmem).resolve_left hnottake
  · exact h.sets.hide _ _
  · simp [hover]
  · exact hdirect
  · exact hlater

/-- With room a subtype is put in the layer. -/
theorem Scanned.add (h : Scanned source known depth room before links s) {direct : Nat}
    (implementers : Nat) {node : Node} (hnode : source.node link.source = some node)
    (hlayer : ¬ ∃ e ∈ s.layer, e.node.id = link.source) (hout : link.source ∉ known)
    (hkind : link.kind = .extends ∨ link.kind = .implements) (hroom : ¬ room ≤ s.layer.length)
    (hdirect : depth = 1 → (∀ l ∈ links ++ [link], ∀ l' ∈ links ++ [link], l.target = l'.target) →
      direct = before.direct + (source.freshSubtypes known (links ++ [link])).length)
    (hlater : depth ≠ 1 → direct = before.direct) :
    Scanned source known depth room before (links ++ [link])
      ⟨s.layer ++ [asEntry node depth link.target link], s.hiddenByParent, direct, implementers,
        s.bounded⟩ := by
  have hsome : (source.node link.source).isSome = true := by rw [hnode]; rfl
  have hid := source.ids _ _ hnode
  have hshort : (source.freshSubtypes known links).length < room := by
    have hids := congrArg List.length h.ids
    rw [List.length_map, List.length_take] at hids
    omega
  have hall : s.layer.map (·.node.id) = source.freshSubtypes known links := by
    rw [h.ids, List.take_of_length_le (Nat.le_of_lt hshort)]
  have hnew : link.source ∉ source.freshSubtypes known links := by
    rw [← hall, List.mem_map]
    exact hlayer
  have hfresh := freshSubtypes_of_new hsome hout hnew
  have hdrop : (source.freshSubtypes known links).drop room = [] :=
    List.drop_eq_nil_of_le (Nat.le_of_lt hshort)
  have hlength : (source.freshSubtypes known (links ++ [link])).length ≤ room := by
    rw [hfresh, List.length_append, List.length_singleton]
    omega
  constructor
  · rw [List.take_of_length_le hlength, hfresh, ← hall, List.map_append]
    exact congrArg (s.layer.map (·.node.id) ++ [·]) hid
  · intro e he
    rcases List.mem_append.mp he with he | he
    · obtain ⟨h1, h2, h3, l, hl, hends⟩ := h.entries e he
      exact ⟨h1, h2, h3, l, List.mem_append_left _ hl, hends⟩
    · obtain rfl := List.mem_singleton.mp he
      refine ⟨rfl, rfl, ?_, link, by simp, rfl, hid.symm⟩
      show source.node node.id = some node
      rw [hid, hnode]
  · intro e he
    rw [exists_link_append]
    rcases List.mem_append.mp he with he | he
    · rw [h.relation e he]
      refine ⟨.inl, fun hcase => hcase.resolve_right fun ⟨hsource, _⟩ => ?_⟩
      exact hlayer ⟨e, he, hsource.symm⟩
    · obtain rfl := List.mem_singleton.mp he
      show relationOf link = .extends ↔ _
      have hfirst : ¬ ∃ l ∈ links, l.source = node.id ∧ l.kind = .extends := by
        rintro ⟨l, hl, hsource, -⟩
        exact hnew (HierarchySource.mem_freshSubtypes.mpr ⟨hsome, hout, l, hl, hsource.trans hid⟩)
      unfold relationOf
      rcases hkind with hkind | hkind
      · simp [hkind, hid, asEntry]
      · simp only [hkind, if_true, reduceCtorEq, and_false, or_false, false_iff]
        exact hfirst
  · intro parent v
    rw [h.hidden, hdrop, List.drop_eq_nil_of_le hlength]
    simp
  · exact h.sets
  · rw [h.bounded]
    have h1 : ¬ room < (source.freshSubtypes known links).length := by omega
    have h2 : ¬ room < (source.freshSubtypes known (links ++ [link])).length := by omega
    simp [h1, h2]
  · exact hdirect
  · exact hlater

/-- One more link is read. -/
theorem Scanned.read (h : Scanned source known depth room before links s)
    (hnodes : nodes.get link.source = source.node link.source)
    (hkind : link.kind = .extends ∨ link.kind = .implements)
    (hroom : ∀ n, policy.descendantRows ≤ rows + n ↔ room ≤ n) :
    Scanned source known depth room before (links ++ [link])
      (scanLink policy nodes known depth rows s link) := by
  cases hnode : source.node link.source with
  | none =>
      have hstep : scanLink policy nodes known depth rows s link = s := by
        simp only [scanLink, hnodes, hnode]
      rw [hstep]
      exact h.ignore fun hsome => by simp [hnode] at hsome
  | some node =>
      have hid := source.ids _ _ hnode
      have hsome : (source.node link.source).isSome = true := by rw [hnode]; rfl
      simp only [scanLink, hnodes, hnode, hid]
      by_cases hknown : link.source ∈ known
      · rw [if_pos hknown]
        exact h.ignore fun hnew => hnew.2 hknown
      · rw [if_neg hknown]
        by_cases hlayer : ∃ e ∈ s.layer, e.node.id = link.source
        · rw [if_pos hlayer]
          exact h.meet hlayer
        · rw [if_neg hlayer]
          by_cases hhidden : link.source ∈ hiddenAt s.hiddenByParent link.target
          · rw [if_pos hhidden]
            exact h.again hhidden
          · rw [if_neg hhidden]
            have hsucc := h.direct_succ hlayer hhidden hsome hknown
            by_cases hone : depth = 1
            · simp only [hone, if_true, hroom]
              subst hone
              split
              · rename_i hfull
                exact h.hide _ hlayer hsome hknown hfull hsucc fun hne => absurd rfl hne
              · rename_i hfree
                exact h.add _ hnode hlayer hknown hkind hfree hsucc fun hne => absurd rfl hne
            · simp only [hone, if_false, hroom]
              split
              · rename_i hfull
                exact h.hide _ hlayer hsome hknown hfull (fun heq => absurd heq hone)
                  h.direct_later
              · rename_i hfree
                exact h.add _ hnode hlayer hknown hkind hfree (fun heq => absurd heq hone)
                  h.direct_later

end Scan

end AfyxGraph.Graph
