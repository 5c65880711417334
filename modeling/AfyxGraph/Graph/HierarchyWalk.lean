import AfyxGraph.Graph.HierarchyLayer

/-! # The downward walk of the type hierarchy

The layers without the row cap, in the order in which they are presented, and the walk along them:
it ends when a layer is empty, when the row cap bites inside a layer, or at the depth cap.
-/

namespace AfyxGraph.Graph

open AfyxGraph.Core Extraction

/-! ## Layers in the order they are presented -/

/-- An entry that several links put there extends if one of them does. -/
def relationIn (links : List Edge) (id : String) : HierarchyRelation :=
  if ∃ l ∈ links, l.source = id ∧ l.kind = .extends then .extends else .implements

namespace HierarchySource

section Layers

variable (source : HierarchySource) (localeCompare : String → String → Ordering)
  (policy : TypeHierarchyPolicy)

def orderIn (links : List Edge) (u v : String) : Bool :=
  match source.node u, source.node v with
  | some a, some b => presentOrder localeCompare (relationIn links u, a) (relationIn links v, b)
  | _, _ => true

/-- The types at a distance from the focus, and all that are no farther. -/
def layerAt (focus : Node) : Nat → List String × List String
  | 0 => ([focus.id], [focus.id])
  | d + 1 =>
      let links := source.relations policy (layerAt focus d).1
      let ordered := (source.freshSubtypes (layerAt focus d).2 links).mergeSort
        (source.orderIn localeCompare links)
      (ordered, (layerAt focus d).2 ++ ordered)

/-- The new subtypes of a layer, in the order in which the links name them. -/
def freshAt (focus : Node) (d : Nat) : List String :=
  source.freshSubtypes (source.layerAt localeCompare policy focus d).2
    (source.relations policy (source.layerAt localeCompare policy focus d).1)

end Layers

variable {source : HierarchySource} {localeCompare : String → String → Ordering}
  {policy : TypeHierarchyPolicy} {focus : Node} {w : ChildrenWalk} {d : Nat}

theorem mem_relations {ids : List String} {e : Edge} :
    e ∈ source.relations policy ids ↔ source.Links policy e ∧ e.target ∈ ids := by
  rw [relations, List.mem_filter, source.incoming, decide_eq_true_eq, Links]
  constructor
  · rintro ⟨⟨hedge, htarget, hkind⟩, hrelation⟩
    exact ⟨⟨hedge, hkind, hrelation⟩, htarget⟩
  · rintro ⟨⟨hedge, hkind, hrelation⟩, htarget⟩
    exact ⟨⟨hedge, htarget, hkind⟩, hrelation⟩

theorem relations_nil : source.relations policy [] = [] := by
  rw [List.eq_nil_iff_forall_not_mem]
  exact fun e he => absurd (mem_relations.mp he).2 List.not_mem_nil

theorem layerAt_succ (d : Nat) : source.layerAt localeCompare policy focus (d + 1) =
    ((source.freshAt localeCompare policy focus d).mergeSort (source.orderIn localeCompare
        (source.relations policy (source.layerAt localeCompare policy focus d).1)),
      (source.layerAt localeCompare policy focus d).2 ++
        (source.freshAt localeCompare policy focus d).mergeSort (source.orderIn localeCompare
          (source.relations policy (source.layerAt localeCompare policy focus d).1))) := rfl

theorem mem_layerAt_succ {v : String} :
    v ∈ (source.layerAt localeCompare policy focus (d + 1)).1 ↔
      v ∈ source.freshAt localeCompare policy focus d := by
  rw [layerAt_succ]
  exact List.mem_mergeSort

theorem length_layerAt_succ (d : Nat) :
    (source.layerAt localeCompare policy focus (d + 1)).2.length =
      (source.layerAt localeCompare policy focus d).2.length +
        (source.freshAt localeCompare policy focus d).length := by
  rw [layerAt_succ, List.length_append, List.length_mergeSort]

/-- The layers hold the types by their distance. -/
theorem layerAt_distance (d : Nat) :
    (∀ v, v ∈ (source.layerAt localeCompare policy focus d).1 ↔
      AtDistance (source.Below policy) (· = focus.id) d v) ∧
    (∀ v, v ∈ (source.layerAt localeCompare policy focus d).2 ↔
      Near (source.Below policy) (· = focus.id) d v) := by
  induction d with
  | zero =>
      constructor
      · intro v
        rw [atDistance_zero_iff]
        exact List.mem_singleton
      · intro v
        rw [near_zero_iff]
        exact List.mem_singleton
  | succ d ih =>
      obtain ⟨hlayer, hknown⟩ := ih
      have hnext : ∀ v, v ∈ (source.layerAt localeCompare policy focus (d + 1)).1 ↔
          AtDistance (source.Below policy) (· = focus.id) (d + 1) v := by
        intro v
        rw [mem_layerAt_succ, freshAt, mem_freshSubtypes, atDistance_succ_iff, hknown]
        constructor
        · rintro ⟨hsome, hfar, l, hl, rfl⟩
          obtain ⟨hlink, htarget⟩ := mem_relations.mp hl
          exact ⟨⟨l.target, (hlayer _).mp htarget, l, hlink, rfl, rfl, hsome⟩, hfar⟩
        · rintro ⟨⟨u, hu, l, hlink, rfl, rfl, hsome⟩, hfar⟩
          exact ⟨hsome, hfar, l, mem_relations.mpr ⟨hlink, (hlayer _).mpr hu⟩, rfl⟩
      refine ⟨hnext, fun v => ?_⟩
      have hsplit : v ∈ (source.layerAt localeCompare policy focus (d + 1)).2 ↔
          v ∈ (source.layerAt localeCompare policy focus d).2 ∨
            v ∈ (source.layerAt localeCompare policy focus (d + 1)).1 := by
        rw [layerAt_succ, List.mem_append]
      rw [hsplit, hnext, hknown]
      constructor
      · rintro (hnear | hdist)
        · exact hnear.mono (Nat.le_succ d)
        · exact near_of_steps hdist.1
      · rintro ⟨j, hj, hsteps⟩
        obtain ⟨i, hi, hdist⟩ := hsteps.exists_distance
        rcases Nat.lt_or_eq_of_le (Nat.le_trans hi hj) with hlt | rfl
        · exact .inl ⟨i, Nat.le_of_lt_succ hlt, hdist.1⟩
        · exact .inr hdist

/-! ## A listing of entries -/

/-- What every listing has, whatever its entries hide. -/
structure Listing (source : HierarchySource) (policy : TypeHierarchyPolicy) (focus : Node)
    (entries : List HierarchyEntry) : Prop where
  once : (entries.map (·.node.id)).Nodup
  proper : ∀ e ∈ entries, e.node.id ≠ focus.id
  ordered : entries.Pairwise fun a b => a.depth ≤ b.depth
  nearest : ∀ e ∈ entries, AtDistance (source.Below policy) (· = focus.id) e.depth e.node.id ∧
    ∃ depth, e.depth = depth + 1 ∧
      AtDistance (source.Below policy) (· = focus.id) depth e.parentId ∧
        source.Below policy e.parentId e.node.id

theorem map_id_addHidden {hidden : List (String × List String)}
    (h : (hidden.map Prod.fst).Nodup) (entries : List HierarchyEntry) :
    (addHidden entries hidden).map (·.node.id) = entries.map (·.node.id) := by
  rw [addHidden_eq h, List.map_map]
  rfl

theorem Listing.addHidden {entries : List HierarchyEntry} (h : Listing source policy focus entries)
    {hidden : List (String × List String)} (hkeys : (hidden.map Prod.fst).Nodup) :
    Listing source policy focus (addHidden entries hidden) := by
  constructor
  · rw [map_id_addHidden hkeys]
    exact h.once
  · intro e he
    rw [addHidden_eq hkeys] at he
    obtain ⟨e', he', rfl⟩ := List.mem_map.mp he
    exact h.proper e' he'
  · rw [addHidden_eq hkeys, List.pairwise_map]
    exact h.ordered
  · intro e he
    rw [addHidden_eq hkeys] at he
    obtain ⟨e', he', rfl⟩ := List.mem_map.mp he
    exact h.nearest e' he'

/-! ## One layer is taken -/

/-- What holds when some layers have been taken and no cap has bitten. -/
structure LayersInv (source : HierarchySource) (localeCompare : String → String → Ordering)
    (policy : TypeHierarchyPolicy) (focus : Node) (d : Nat) (w : ChildrenWalk) : Prop where
  current : w.current = (source.layerAt localeCompare policy focus d).1
  discovered : w.discovered = (source.layerAt localeCompare policy focus d).2
  listed : w.discovered = focus.id :: w.entries.map (·.node.id)
  listing : Listing source policy focus w.entries
  shallow : ∀ e ∈ w.entries, e.depth ≤ d
  plain : ∀ e ∈ w.entries, e.hiddenSubtypes = 0
  direct : w.direct = if d = 0 then 0 else
    {v | source.Below policy focus.id v ∧ v ≠ focus.id}.ncard
  unbounded : w.bounded = false
  roomy : w.entries.length ≤ policy.descendantRows

variable (source localeCompare policy focus) in
theorem layersInv_start : LayersInv source localeCompare policy focus 0
    ⟨⟨[], 0, 0, false⟩, [focus.id], [focus.id]⟩ where
  current := rfl
  discovered := rfl
  listed := rfl
  listing := by
    refine ⟨List.nodup_nil, ?_, List.Pairwise.nil, ?_⟩
    · exact fun e he => absurd he List.not_mem_nil
    · exact fun e he => absurd he List.not_mem_nil
  shallow e he := absurd he List.not_mem_nil
  plain e he := absurd he List.not_mem_nil
  direct := rfl
  unbounded := rfl
  roomy := Nat.zero_le _

variable (policy) in
/-- The room for entries before a layer. -/
def roomFor (w : ChildrenWalk) : Nat := policy.descendantRows - w.entries.length

variable (source policy) in
theorem scanLayer_spec (depth : Nat) (w : ChildrenWalk) {links : List Edge}
    (hkinds : ∀ l ∈ links, l.kind = .extends ∨ l.kind = .implements) :
    Scanned source w.discovered depth (roomFor policy w)
      ⟨[], [], w.direct, w.implementers, w.bounded⟩ links
      (source.scanLayer policy depth w links) := by
  have hroom : ∀ n, policy.descendantRows ≤ w.entries.length + n ↔ roomFor policy w ≤ n := by
    intro n
    unfold roomFor
    omega
  have hpart : ∀ part ⊆ links, Scanned source w.discovered depth (roomFor policy w)
      ⟨[], [], w.direct, w.implementers, w.bounded⟩ part
      (part.foldl (scanLink policy (source.getNodesByIds (links.map (·.source))) w.discovered depth
        w.entries.length) ⟨[], [], w.direct, w.implementers, w.bounded⟩) := by
    intro part
    induction part using List.reverseRecOn with
    | nil => exact fun _ => scanned_start _ _ _
    | append_singleton part link ih =>
        intro hsub
        have hlink : link ∈ links := hsub (List.mem_append_right _ (List.mem_singleton_self link))
        rw [List.foldl_append]
        apply (ih fun l hl => hsub (List.mem_append_left _ hl)).read _ (hkinds link hlink) hroom
        rw [source.found, if_pos (List.mem_map_of_mem hlink)]
  exact hpart links (List.Subset.refl links)

variable (localeCompare) in
/-- The entries of a layer are presented as their identities are ordered. -/
theorem map_id_present {known : List String} {depth room : Nat} {before s : LayerScan}
    {links : List Edge} (h : Scanned source known depth room before links s) :
    (present localeCompare s.layer).map (·.node.id) =
      ((source.freshSubtypes known links).take room).mergeSort
        (source.orderIn localeCompare links) := by
  have hrelation : ∀ e ∈ s.layer, relationIn links e.node.id = e.relation := by
    intro e he
    unfold relationIn
    split
    · rename_i hext
      exact ((h.relation e he).mpr hext).symm
    · rename_i hnot
      cases hcase : e.relation with
      | «extends» => exact absurd ((h.relation e he).mp hcase) hnot
      | implements => rfl
  rw [present, List.map_mergeSort, h.ids]
  intro a ha b hb
  rw [orderIn, (h.entries a ha).2.2.1, (h.entries b hb).2.2.1, hrelation a ha, hrelation b hb]

/-- What the entries of a new layer are. -/
theorem LayersInv.mem_layer {room : Nat} {before s : LayerScan}
    (h : LayersInv source localeCompare policy focus d w)
    (hscan : Scanned source w.discovered (d + 1) room before (source.relations policy w.current) s)
    {e : HierarchyEntry} (he : e ∈ present localeCompare s.layer) :
    e.depth = d + 1 ∧ e.hiddenSubtypes = 0 ∧
      e.node.id ∈ source.freshAt localeCompare policy focus d ∧
      AtDistance (source.Below policy) (· = focus.id) d e.parentId ∧
      source.Below policy e.parentId e.node.id := by
  have hmem : e ∈ s.layer := List.mem_mergeSort.mp he
  obtain ⟨hdepth, hzero, hnode, l, hl, htarget, hsource⟩ := hscan.entries e hmem
  have hfresh := List.mem_of_mem_take (hscan.mem_layer.mp ⟨e, hmem, rfl⟩)
  rw [h.discovered, h.current] at hfresh
  obtain ⟨hlink, hcurrent⟩ := mem_relations.mp hl
  rw [h.current, htarget] at hcurrent
  refine ⟨hdepth, hzero, hfresh, (layerAt_distance d).1 _ |>.mp hcurrent, ?_⟩
  exact ⟨l, hlink, htarget, hsource, by rw [hnode]; rfl⟩

theorem mem_freshAt {v : String} : v ∈ source.freshAt localeCompare policy focus d ↔
    AtDistance (source.Below policy) (· = focus.id) (d + 1) v := by
  rw [← mem_layerAt_succ]
  exact (layerAt_distance (d + 1)).1 v

/-- The entries with the new layer behind them. -/
theorem LayersInv.listing_append {room : Nat} {before s : LayerScan}
    (h : LayersInv source localeCompare policy focus d w)
    (hscan : Scanned source w.discovered (d + 1) room before
      (source.relations policy w.current) s) :
    Listing source policy focus (w.entries ++ present localeCompare s.layer) := by
  have hids : ((present localeCompare s.layer).map (·.node.id)).Nodup := by
    rw [map_id_present localeCompare hscan, (List.mergeSort_perm _ _).nodup_iff]
    exact nodup_freshSubtypes.sublist (List.take_sublist _ _)
  have hout : ∀ e ∈ present localeCompare s.layer, e.node.id ∉ w.discovered := by
    intro e he
    have hmem : e ∈ s.layer := List.mem_mergeSort.mp he
    have hfresh := List.mem_of_mem_take (hscan.mem_layer.mp ⟨e, hmem, rfl⟩)
    exact (mem_freshSubtypes.mp hfresh).2.1
  rw [h.listed] at hout
  constructor
  · rw [List.map_append, List.nodup_append]
    refine ⟨h.listing.once, hids, fun a ha b hb heq => ?_⟩
    obtain ⟨e, he, rfl⟩ := List.mem_map.mp hb
    exact hout e he (List.mem_cons_of_mem _ (heq ▸ ha))
  · intro e he
    rcases List.mem_append.mp he with he | he
    · exact h.listing.proper e he
    · intro heq
      exact hout e he (heq ▸ List.mem_cons_self ..)
  · rw [List.pairwise_append]
    refine ⟨h.listing.ordered, ?_, fun a ha b hb => ?_⟩
    · apply List.pairwise_of_forall_mem_list
      intro a ha b hb
      rw [(h.mem_layer hscan ha).1, (h.mem_layer hscan hb).1]
    · rw [(h.mem_layer hscan hb).1]
      exact Nat.le_succ_of_le (h.shallow a ha)
  · intro e he
    rcases List.mem_append.mp he with he | he
    · exact h.listing.nearest e he
    · obtain ⟨hdepth, -, hfresh, hparent, hbelow⟩ := h.mem_layer hscan he
      rw [hdepth]
      exact ⟨mem_freshAt.mp hfresh, d, rfl, hparent, hbelow⟩

variable (source localeCompare policy) in
/-- The walk when a layer more has been taken. -/
def taken (d : Nat) (w : ChildrenWalk) : ChildrenWalk :=
  source.takeLayer localeCompare policy (d + 1) w (source.relations policy w.current)

variable (source policy) in
theorem scanRelations_spec (depth : Nat) (w : ChildrenWalk) :
    Scanned source w.discovered depth (roomFor policy w)
      ⟨[], [], w.direct, w.implementers, w.bounded⟩ (source.relations policy w.current)
      (source.scanLayer policy depth w (source.relations policy w.current)) :=
  scanLayer_spec source policy depth w fun _ hl => (mem_relations.mp hl).1.2.2

theorem LayersInv.fresh (h : LayersInv source localeCompare policy focus d w) :
    source.freshSubtypes w.discovered (source.relations policy w.current) =
      source.freshAt localeCompare policy focus d := by
  rw [h.discovered, h.current, freshAt]

/-- The row cap bites in a layer that has more new subtypes than there is room for. -/
theorem LayersInv.bounded_taken (h : LayersInv source localeCompare policy focus d w) :
    (source.taken localeCompare policy d w).bounded =
      decide (roomFor policy w < (source.freshAt localeCompare policy focus d).length) := by
  have hbounded := (scanRelations_spec source policy (d + 1) w).bounded
  rw [h.fresh] at hbounded
  rw [← Bool.false_or (decide _), ← h.unbounded]
  exact hbounded

variable (source localeCompare policy focus) in
theorem direct_subtypes : {v | source.Below policy focus.id v ∧ v ≠ focus.id}.ncard =
    (source.freshAt localeCompare policy focus 0).length := by
  have hnodup : (source.freshAt localeCompare policy focus 0).Nodup := nodup_freshSubtypes
  apply ncard_eq_length hnodup
  intro v
  rw [freshAt, mem_freshSubtypes]
  constructor
  · rintro ⟨hsome, hout, l, hl, rfl⟩
    obtain ⟨hlink, htarget⟩ := mem_relations.mp hl
    have hfocus : l.target = focus.id := List.mem_singleton.mp htarget
    exact ⟨⟨l, hlink, hfocus, rfl, hsome⟩, fun heq => hout (List.mem_singleton.mpr heq)⟩
  · rintro ⟨⟨l, hlink, htarget, rfl, hsome⟩, hne⟩
    refine ⟨hsome, fun hmem => hne (List.mem_singleton.mp hmem), l, ?_, rfl⟩
    exact mem_relations.mpr ⟨hlink, List.mem_singleton.mpr htarget⟩

/-- The count of direct subtypes is whole after the first layer, whether the row cap bites in it or
not. -/
theorem LayersInv.direct_taken (h : LayersInv source localeCompare policy focus d w) :
    (source.taken localeCompare policy d w).direct =
      {v | source.Below policy focus.id v ∧ v ≠ focus.id}.ncard := by
  have hscan := scanRelations_spec source policy (d + 1) w
  cases d with
  | zero =>
      have hsame : ∀ l ∈ source.relations policy w.current,
          ∀ l' ∈ source.relations policy w.current, l.target = l'.target := by
        rw [h.current]
        intro l hl l' hl'
        have ht := List.mem_singleton.mp (mem_relations.mp hl).2
        have ht' := List.mem_singleton.mp (mem_relations.mp hl').2
        rw [ht, ht']
      have hdirect := hscan.direct rfl hsame
      rw [h.fresh] at hdirect
      have hnone : w.direct = 0 := h.direct
      simp only [hnone, Nat.zero_add] at hdirect
      rw [direct_subtypes source localeCompare policy focus]
      exact hdirect
  | succ d =>
      have hdirect := hscan.direct_later (by omega)
      rw [h.direct, if_neg (by omega)] at hdirect
      exact hdirect

/-- A layer that there is room for is taken whole. -/
theorem LayersInv.succ (h : LayersInv source localeCompare policy focus d w)
    (hfits : (source.freshAt localeCompare policy focus d).length ≤ roomFor policy w) :
    LayersInv source localeCompare policy focus (d + 1)
      (source.taken localeCompare policy d w) := by
  have hscan := scanRelations_spec source policy (d + 1) w
  have hfresh := h.fresh
  have hids := map_id_present localeCompare hscan
  rw [hfresh, List.take_of_length_le hfits] at hids
  have hplain : ∀ parent, hiddenAt (source.scanLayer policy (d + 1) w
      (source.relations policy w.current)).hiddenByParent parent = [] := by
    intro parent
    rw [List.eq_nil_iff_forall_not_mem]
    intro v hv
    have hdrop := ((hscan.hidden parent v).mp hv).1
    rw [hfresh, List.drop_eq_nil_of_le hfits] at hdrop
    exact absurd hdrop List.not_mem_nil
  have hentries : (source.taken localeCompare policy d w).entries =
      w.entries ++ present localeCompare (source.scanLayer policy (d + 1) w
        (source.relations policy w.current)).layer := by
    show addHidden _ _ = _
    rw [addHidden_eq hscan.sets.keys]
    simp only [hplain, List.length_nil, Nat.add_zero]
    exact List.map_id' _
  have hcurrent : (source.taken localeCompare policy d w).current =
      (source.layerAt localeCompare policy focus (d + 1)).1 := by
    rw [layerAt_succ, ← h.current]
    exact hids
  constructor
  · exact hcurrent
  · rw [layerAt_succ, ← h.discovered, ← h.current]
    exact congrArg (w.discovered ++ ·) hids
  · rw [hentries, List.map_append, ← List.cons_append, ← h.listed]
    rfl
  · rw [hentries]
    exact h.listing_append hscan
  · rw [hentries]
    intro e he
    rcases List.mem_append.mp he with he | he
    · exact Nat.le_succ_of_le (h.shallow e he)
    · exact Nat.le_of_eq (h.mem_layer hscan he).1
  · rw [hentries]
    intro e he
    rcases List.mem_append.mp he with he | he
    · exact h.plain e he
    · exact (h.mem_layer hscan he).2.1
  · rw [if_neg (by omega)]
    exact h.direct_taken
  · rw [h.bounded_taken, decide_eq_false_iff_not]
    omega
  · have hlength := congrArg List.length hids
    rw [List.length_map, List.length_mergeSort] at hlength
    rw [hentries, List.length_append, hlength]
    have hroomy := h.roomy
    unfold roomFor at hfits
    omega

/-! ## How the walk ends -/

/-- The walk ends at a layer that is empty, at one that has no room, or at the depth cap. -/
inductive Outcome (source : HierarchySource) (localeCompare : String → String → Ordering)
    (policy : TypeHierarchyPolicy) (focus : Node) : ChildrenWalk → Prop
  | flat (hdepth : policy.descendantDepth = 0) :
      Outcome source localeCompare policy focus ⟨⟨[], 0, 0, false⟩, [focus.id], [focus.id]⟩
  | usedUp {d : Nat} {w : ChildrenWalk} (inv : LayersInv source localeCompare policy focus d w)
      (hdepth : d < policy.descendantDepth)
      (hempty : source.freshAt localeCompare policy focus d = []) :
      Outcome source localeCompare policy focus w
  | full {d : Nat} {w : ChildrenWalk} (inv : LayersInv source localeCompare policy focus d w)
      (hdepth : d < policy.descendantDepth)
      (hroom : roomFor policy w < (source.freshAt localeCompare policy focus d).length) :
      Outcome source localeCompare policy focus (source.taken localeCompare policy d w)
  | deep {w : ChildrenWalk}
      (inv : LayersInv source localeCompare policy focus policy.descendantDepth w)
      (hdepth : 0 < policy.descendantDepth) :
      Outcome source localeCompare policy focus (source.lookAhead policy w)

/-- At the depth cap the look-ahead has been made. -/
theorem outcome_layers (remaining : Nat) (hdepth : d + remaining = policy.descendantDepth)
    (h : remaining = 0 ∧ Outcome source localeCompare policy focus w ∨
      remaining ≠ 0 ∧ LayersInv source localeCompare policy focus d w) :
    Outcome source localeCompare policy focus
      (source.childrenLayers localeCompare policy remaining w) := by
  induction remaining generalizing d w with
  | zero => exact h.elim And.right fun hinv => absurd rfl hinv.1
  | succ remaining ih =>
      have hinv := (h.resolve_left fun hzero => absurd hzero.1 (Nat.succ_ne_zero _)).2
      have hlt : d < policy.descendantDepth := by omega
      rw [childrenLayers]
      split
      · rename_i hcurrent
        refine .usedUp hinv hlt ?_
        rw [← hinv.fresh, hcurrent, relations_nil]
        rfl
      · simp only
        split
        · rename_i hlinks
          refine .usedUp hinv hlt ?_
          rw [← hinv.fresh, hlinks]
          rfl
        · rw [show policy.descendantDepth - remaining = d + 1 by omega]
          change Outcome source localeCompare policy focus
            (if (source.taken localeCompare policy d w).bounded
              then source.taken localeCompare policy d w
              else source.childrenLayers localeCompare policy remaining
                (if remaining = 0 then
                  source.lookAhead policy (source.taken localeCompare policy d w)
                else source.taken localeCompare policy d w))
          have hbounded := hinv.bounded_taken
          split
          · rename_i hfull
            rw [hfull, eq_comm, decide_eq_true_eq] at hbounded
            exact .full hinv hlt hbounded
          · rename_i hopen
            rw [Bool.not_eq_true] at hopen
            rw [hopen, eq_comm, decide_eq_false_iff_not] at hbounded
            have hnext := hinv.succ (Nat.le_of_not_lt hbounded)
            refine ih (d := d + 1) (by omega) ?_
            split
            · rename_i hzero
              rw [show d + 1 = policy.descendantDepth by omega] at hnext
              exact .inl ⟨hzero, .deep hnext (by omega)⟩
            · rename_i hmore
              exact .inr ⟨hmore, hnext⟩

variable (source localeCompare policy focus) in
theorem outcome_childrenOf : ∃ w, Outcome source localeCompare policy focus w ∧
    source.childrenOf localeCompare policy focus = w.toDescendantResult := by
  refine ⟨_, outcome_layers (d := 0) _ (Nat.zero_add _) ?_, rfl⟩
  by_cases hdepth : policy.descendantDepth = 0
  · exact .inl ⟨hdepth, .flat hdepth⟩
  · exact .inr ⟨hdepth, layersInv_start source localeCompare policy focus⟩

/-! ## The look-ahead -/

/-- Everything that some links lead to, by the types they come from. -/
def hiddenBy (links : List Edge) : List (String × List String) :=
  links.foldl (fun hidden e => hide hidden e.target e.source) []

theorem hiddenBy_append (links : List Edge) (link : Edge) :
    hiddenBy (links ++ [link]) = hide (hiddenBy links) link.target link.source := by
  rw [hiddenBy, List.foldl_append]
  rfl

theorem hiddenInv_hiddenBy (links : List Edge) : HiddenInv (hiddenBy links) := by
  induction links using List.reverseRecOn with
  | nil => exact hiddenInv_nil
  | append_singleton links link ih =>
      rw [hiddenBy_append]
      exact ih.hide _ _

theorem mem_hiddenBy {links : List Edge} {parent v : String} :
    v ∈ hiddenAt (hiddenBy links) parent ↔ ∃ l ∈ links, l.target = parent ∧ l.source = v := by
  induction links using List.reverseRecOn with
  | nil => simp [hiddenBy, hiddenAt]
  | append_singleton links link ih =>
      rw [hiddenBy_append, hiddenAt_hide, exists_link_append, ← ih]
      split
      · rename_i hparent
        rw [mem_addNew, hparent, eq_comm (a := v)]
        exact or_congr_right ⟨fun hv => ⟨rfl, hv⟩, And.right⟩
      · rename_i hother
        exact ⟨.inl, fun hcase => hcase.resolve_right fun hlink => hother hlink.1.symm⟩

variable (source policy) in
/-- The links that the depth cap cuts off. -/
def linksBeyond (w : ChildrenWalk) : List Edge :=
  (source.relations policy w.current).filter (·.source ∉ w.discovered)

theorem entries_lookAhead (w : ChildrenWalk) :
    (source.lookAhead policy w).entries =
      addHidden w.entries (hiddenBy (source.linksBeyond policy w)) := by
  rw [lookAhead]
  split
  · rename_i hcurrent
    rw [linksBeyond, hcurrent, relations_nil]
    rfl
  · rfl

theorem bounded_lookAhead (w : ChildrenWalk) :
    (source.lookAhead policy w).bounded =
      (w.bounded || !(source.linksBeyond policy w).isEmpty) := by
  rw [lookAhead]
  split
  · rename_i hcurrent
    rw [linksBeyond, hcurrent, relations_nil]
    simp
  · rfl

theorem direct_lookAhead (w : ChildrenWalk) :
    (source.lookAhead policy w).direct = w.direct := by
  rw [lookAhead]
  split <;> rfl

/-! ## What the walk finds -/

theorem Outcome.listing (h : Outcome source localeCompare policy focus w) :
    Listing source policy focus w.entries := by
  cases h with
  | flat => exact (layersInv_start source localeCompare policy focus).listing
  | usedUp inv => exact inv.listing
  | @full d w inv =>
      have hscan := scanRelations_spec source policy (d + 1) w
      exact (inv.listing_append hscan).addHidden hscan.sets.keys
  | deep inv =>
      rw [entries_lookAhead]
      exact inv.listing.addHidden (hiddenInv_hiddenBy _).keys

theorem Outcome.direct (h : Outcome source localeCompare policy focus w)
    (hpositive : 0 < policy.descendantDepth) :
    w.direct = {v | source.Below policy focus.id v ∧ v ≠ focus.id}.ncard := by
  cases h with
  | flat hdepth => omega
  | @usedUp d w inv hdepth hempty =>
      rw [inv.direct]
      split
      · rename_i hzero
        subst hzero
        rw [direct_subtypes source localeCompare policy focus, hempty]
        rfl
      · rfl
  | full inv => exact inv.direct_taken
  | deep inv hdepth =>
      rw [direct_lookAhead, inv.direct, if_neg (by omega)]

/-- What is near has been listed, and the focus. -/
theorem LayersInv.listed_of_near (h : LayersInv source localeCompare policy focus d w) {v : String}
    (hne : v ≠ focus.id) (hv : Near (source.Below policy) (· = focus.id) d v) :
    ∃ e ∈ w.entries, e.node.id = v := by
  have hmem : v ∈ w.discovered := by
    rw [h.discovered, (layerAt_distance d).2]
    exact hv
  rw [h.listed, List.mem_cons] at hmem
  exact List.mem_map.mp (hmem.resolve_left hne)

theorem Outcome.complete (h : Outcome source localeCompare policy focus w)
    (hpositive : 0 < policy.descendantDepth) (hopen : w.bounded = false) {v : String}
    (hne : v ≠ focus.id) {k : Nat} (hv : Steps (source.Below policy) (· = focus.id) k v) :
    ∃ e ∈ w.entries, e.node.id = v := by
  cases h with
  | flat hdepth => omega
  | @usedUp d w inv hdepth hempty =>
      refine inv.listed_of_near hne (hv.near_of_empty (k := d + 1) fun u hu => ?_)
      have hmem : u ∈ source.freshAt localeCompare policy focus d := mem_freshAt.mpr hu
      rw [hempty] at hmem
      exact absurd hmem List.not_mem_nil
  | @full d w inv hdepth hroom =>
      rw [inv.bounded_taken, decide_eq_false_iff_not] at hopen
      exact absurd hroom hopen
  | @deep w inv hdepth =>
      rw [bounded_lookAhead, inv.unbounded, Bool.false_or, Bool.not_eq_false',
        List.isEmpty_iff] at hopen
      have hnear : Near (source.Below policy) (· = focus.id) policy.descendantDepth v := by
        refine hv.near_of_empty (k := policy.descendantDepth + 1) fun u hu => ?_
        have hmem : u ∈ source.freshAt localeCompare policy focus policy.descendantDepth :=
          mem_freshAt.mpr hu
        obtain ⟨-, hout, l, hl, rfl⟩ := mem_freshSubtypes.mp hmem
        rw [← inv.current] at hl
        rw [← inv.discovered] at hout
        have hbeyond : l ∈ source.linksBeyond policy w :=
          List.mem_filter.mpr ⟨hl, decide_eq_true hout⟩
        rw [hopen] at hbeyond
        exact absurd hbeyond List.not_mem_nil
      obtain ⟨e, he, hid⟩ := inv.listed_of_near hne hnear
      rw [entries_lookAhead, addHidden_eq (hiddenInv_hiddenBy _).keys]
      exact ⟨_, List.mem_map_of_mem he, hid⟩

/-- The subtypes listed are what the walk is to find; when no cap has bitten they are all. -/
theorem childrenOf_contract (source : HierarchySource)
    (localeCompare : String → String → Ordering) (policy : TypeHierarchyPolicy) (focus : Node) :
    source.HierarchyContract localeCompare policy focus := by
  obtain ⟨w, houtcome, heq⟩ := outcome_childrenOf source localeCompare policy focus
  have hlisting := houtcome.listing
  constructor <;> rw [heq]
  · exact hlisting.once
  · exact hlisting.proper
  · exact hlisting.ordered
  · exact hlisting.nearest
  · exact houtcome.direct
  · intro hpositive hopen v hne hsteps
    obtain ⟨k, hsteps⟩ := hsteps
    exact houtcome.complete hpositive hopen hne hsteps

end HierarchySource

end AfyxGraph.Graph
