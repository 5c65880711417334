import AfyxGraph.Graph.HierarchyWalk

/-! # What the entries of the type hierarchy hide

The count of hidden subtypes is kept for the parents of the layer in which the row cap bites and,
at the depth cap, for the last layer. Nothing is counted for the entries that the row cap lets into
the layer it bites in, and the look-ahead does not ask whether a subtype exists.
-/

namespace AfyxGraph.Graph

open AfyxGraph.Core Extraction

namespace HierarchySource

section Settled

variable (source : HierarchySource) (localeCompare : String → String → Ordering)
  (policy : TypeHierarchyPolicy)

/-- The new subtypes that the row cap lets in after so many layers. -/
def keptAt (focus : Node) (d : Nat) : List String :=
  (source.freshAt localeCompare policy focus d).take
    (policy.descendantRows + 1 - (source.layerAt localeCompare policy focus d).2.length)

/-- What the caps leave out is nothing that the counts leave out. -/
structure Settled (focus : Node) : Prop where
  /-- Where the row cap bites, what it lets in has no subtypes but listed ones. -/
  rows : ∀ d < policy.descendantDepth,
    (source.layerAt localeCompare policy focus d).2.length ≤ policy.descendantRows + 1 →
    policy.descendantRows + 1 < (source.layerAt localeCompare policy focus (d + 1)).2.length →
    ∀ u ∈ source.keptAt localeCompare policy focus d, ∀ v, source.Below policy u v →
      v ∈ (source.layerAt localeCompare policy focus d).2 ∨
        v ∈ source.keptAt localeCompare policy focus d
  /-- At the depth cap, a subtype of the last layer is listed or exists. -/
  depth : 0 < policy.descendantDepth →
    (source.layerAt localeCompare policy focus policy.descendantDepth).2.length ≤
      policy.descendantRows + 1 →
    ∀ u ∈ (source.layerAt localeCompare policy focus policy.descendantDepth).1, ∀ e,
      source.Links policy e → e.target = u →
        e.source ∈ (source.layerAt localeCompare policy focus policy.descendantDepth).2 ∨
          (source.node e.source).isSome = true

end Settled

variable {source : HierarchySource} {localeCompare : String → String → Ordering}
  {policy : TypeHierarchyPolicy} {focus : Node} {w : ChildrenWalk} {d : Nat}

/-! ## What a listing leaves out -/

variable (source policy focus) in
/-- The existing direct subtypes that some entries leave out. -/
def LeftOut (entries : List HierarchyEntry) (id v : String) : Prop :=
  source.Below policy id v ∧ v ≠ focus.id ∧ ∀ e ∈ entries, e.node.id ≠ v

theorem finite_below (id : String) : {v | source.Below policy id v}.Finite := by
  apply Set.Finite.subset (List.finite_toSet ((source.relations policy [id]).map (·.source)))
  rintro v ⟨l, hlink, htarget, rfl, -⟩
  exact List.mem_map_of_mem (mem_relations.mpr ⟨hlink, List.mem_singleton.mpr htarget⟩)

theorem finite_leftOut (entries : List HierarchyEntry) (id : String) :
    {v | source.LeftOut policy focus entries id v}.Finite :=
  (finite_below id).subset fun _ hv => hv.1

theorem ncard_leftOut_eq_zero {entries : List HierarchyEntry} {id : String} :
    0 = {v | source.LeftOut policy focus entries id v}.ncard ↔
      ∀ v, ¬ source.LeftOut policy focus entries id v := by
  rw [eq_comm, Set.ncard_eq_zero (finite_leftOut entries id), Set.eq_empty_iff_forall_notMem]
  rfl

/-- Counts do not change what is listed. -/
theorem leftOut_addHidden {hidden : List (String × List String)}
    (hkeys : (hidden.map Prod.fst).Nodup) {entries : List HierarchyEntry} {id v : String} :
    source.LeftOut policy focus (addHidden entries hidden) id v ↔
      source.LeftOut policy focus entries id v := by
  unfold LeftOut
  rw [addHidden_eq hkeys]
  simp

/-- The counts of a listing are right. -/
def Exact (source : HierarchySource) (policy : TypeHierarchyPolicy) (focus : Node)
    (entries : List HierarchyEntry) : Prop :=
  ∀ e ∈ entries, e.hiddenSubtypes = {v | source.LeftOut policy focus entries e.node.id v}.ncard

variable (source policy focus) in
/-- When nothing has been counted before, the counts are right if the hidden sets are. -/
theorem exact_addHidden_iff {hidden : List (String × List String)}
    (hkeys : (hidden.map Prod.fst).Nodup) {entries : List HierarchyEntry}
    (hplain : ∀ e ∈ entries, e.hiddenSubtypes = 0) :
    Exact source policy focus (addHidden entries hidden) ↔
      ∀ e ∈ entries, (hiddenAt hidden e.node.id).length =
        {v | source.LeftOut policy focus entries e.node.id v}.ncard := by
  unfold Exact
  simp only [leftOut_addHidden hkeys]
  rw [addHidden_eq hkeys, List.forall_mem_map]
  refine forall₂_congr fun e he => ?_
  rw [hplain e he, Nat.zero_add]

/-! ## How many are known -/

variable (source localeCompare policy focus) in
theorem length_layerAt_mono {k : Nat} (hle : d ≤ k) :
    (source.layerAt localeCompare policy focus d).2.length ≤
      (source.layerAt localeCompare policy focus k).2.length := by
  induction hle with
  | refl => exact Nat.le_refl _
  | step _ ih =>
      rw [length_layerAt_succ]
      omega

theorem LayersInv.length_known (h : LayersInv source localeCompare policy focus d w) :
    (source.layerAt localeCompare policy focus d).2.length = w.entries.length + 1 := by
  rw [← h.discovered, h.listed, List.length_cons, List.length_map]

theorem LayersInv.keptAt_eq (h : LayersInv source localeCompare policy focus d w) :
    source.keptAt localeCompare policy focus d =
      (source.freshAt localeCompare policy focus d).take (roomFor policy w) := by
  rw [keptAt, h.length_known, roomFor]
  congr 1
  omega

/-- No layer that has been taken has too many. -/
theorem LayersInv.fits (h : LayersInv source localeCompare policy focus d w) {k : Nat}
    (hle : k ≤ d) : (source.layerAt localeCompare policy focus k).2.length ≤
      policy.descendantRows + 1 := by
  have hknown := h.length_known
  have hroomy := h.roomy
  have hmono := length_layerAt_mono source localeCompare policy focus hle
  omega

theorem LayersInv.leftOut_iff (h : LayersInv source localeCompare policy focus d w)
    {id v : String} : source.LeftOut policy focus w.entries id v ↔
      source.Below policy id v ∧ v ∉ (source.layerAt localeCompare policy focus d).2 := by
  rw [← h.discovered, h.listed, List.mem_cons, not_or, List.mem_map, LeftOut]
  simp only [not_exists, not_and, ne_eq]

/-- The subtypes of an entry are at most one layer deeper. -/
theorem LayersInv.near_below (h : LayersInv source localeCompare policy focus d w)
    {e : HierarchyEntry} (he : e ∈ w.entries) {v : String}
    (hbelow : source.Below policy e.node.id v) :
    Near (source.Below policy) (· = focus.id) (e.depth + 1) v :=
  near_succ_iff.mpr (.inr ⟨_, (h.listing.nearest e he).1, hbelow⟩)

/-! ## When no layer is left -/

theorem no_layer (hempty : source.freshAt localeCompare policy focus d = []) {k : Nat}
    (hlt : d < k) (u : String) : ¬ AtDistance (source.Below policy) (· = focus.id) k u := by
  intro hu
  refine hu.not_near hlt (hu.1.near_of_empty (k := d + 1) fun v hv => ?_)
  have hmem : v ∈ source.freshAt localeCompare policy focus d := mem_freshAt.mpr hv
  rw [hempty] at hmem
  exact absurd hmem List.not_mem_nil

theorem LayersInv.exact_of_empty (h : LayersInv source localeCompare policy focus d w)
    (hempty : source.freshAt localeCompare policy focus d = []) :
    Exact source policy focus w.entries := by
  intro e he
  rw [h.plain e he, ncard_leftOut_eq_zero]
  intro v hleft
  obtain ⟨hbelow, hout⟩ := h.leftOut_iff.mp hleft
  have hnear := (h.near_below he hbelow).mono (Nat.succ_le_succ (h.shallow e he))
  obtain ⟨i, hi, hdist⟩ := near_iff.mp hnear
  rcases Nat.lt_or_eq_of_le hi with hlt | rfl
  · exact hout (((layerAt_distance d).2 v).mpr ⟨i, Nat.le_of_lt_succ hlt, hdist.1⟩)
  · exact no_layer hempty (Nat.lt_succ_self d) v hdist

theorem LayersInv.settled_of_empty (h : LayersInv source localeCompare policy focus d w)
    (hdepth : d < policy.descendantDepth)
    (hempty : source.freshAt localeCompare policy focus d = []) :
    source.Settled localeCompare policy focus := by
  constructor
  · intro k hk hbefore hafter
    exfalso
    by_cases hlt : k < d
    · have hfits := h.fits (show k + 1 ≤ d from hlt)
      omega
    · have hnone : source.freshAt localeCompare policy focus k = [] := by
        rw [List.eq_nil_iff_forall_not_mem]
        intro v hv
        exact no_layer hempty (by omega) v (mem_freshAt.mp hv)
      rw [length_layerAt_succ, hnone, List.length_nil] at hafter
      omega
  · intro _ _ u hu
    exact absurd (((layerAt_distance _).1 u).mp hu) (no_layer hempty hdepth u)

/-! ## When the row cap bites -/

/-- Where the row cap bites, the rest of the condition says nothing. -/
theorem LayersInv.settled_iff_of_full (h : LayersInv source localeCompare policy focus d w)
    (hdepth : d < policy.descendantDepth)
    (hroom : roomFor policy w < (source.freshAt localeCompare policy focus d).length) :
    source.Settled localeCompare policy focus ↔
      ∀ u ∈ source.keptAt localeCompare policy focus d, ∀ v, source.Below policy u v →
        v ∈ (source.layerAt localeCompare policy focus d).2 ∨
          v ∈ source.keptAt localeCompare policy focus d := by
  have hknown := h.length_known
  have hroomy := h.roomy
  have hmany : policy.descendantRows + 1 <
      (source.layerAt localeCompare policy focus (d + 1)).2.length := by
    rw [length_layerAt_succ]
    unfold roomFor at hroom
    omega
  constructor
  · intro hsettled
    exact hsettled.rows d hdepth (h.fits (Nat.le_refl d)) hmany
  · intro hkept
    have hlater : ∀ k, d < k → policy.descendantRows + 1 <
        (source.layerAt localeCompare policy focus k).2.length :=
      fun k hk =>
        Nat.lt_of_lt_of_le hmany (length_layerAt_mono source localeCompare policy focus hk)
    constructor
    · intro k _ hbefore hafter
      rcases Nat.lt_trichotomy k d with hlt | rfl | hgt
      · have hfits := h.fits (show k + 1 ≤ d from hlt)
        omega
      · exact hkept
      · have hmore := hlater k hgt
        omega
    · intro _ hfew
      have hmore := hlater _ hdepth
      omega

theorem LayersInv.mem_hidden (h : LayersInv source localeCompare policy focus d w)
    {parent v : String} :
    v ∈ hiddenAt (source.scanLayer policy (d + 1) w
        (source.relations policy w.current)).hiddenByParent parent ↔
      v ∈ (source.freshAt localeCompare policy focus d).drop (roomFor policy w) ∧
        parent ∈ (source.layerAt localeCompare policy focus d).1 ∧
          source.Below policy parent v := by
  rw [(scanRelations_spec source policy (d + 1) w).hidden, h.fresh]
  refine and_congr_right fun hv => ?_
  have hsome := (mem_freshSubtypes.mp (List.mem_of_mem_drop hv)).1
  constructor
  · rintro ⟨l, hl, rfl, rfl⟩
    obtain ⟨hlink, htarget⟩ := mem_relations.mp hl
    rw [h.current] at htarget
    exact ⟨htarget, l, hlink, rfl, rfl, hsome⟩
  · rintro ⟨hparent, l, hlink, rfl, rfl, -⟩
    rw [← h.current] at hparent
    exact ⟨l, mem_relations.mpr ⟨hlink, hparent⟩, rfl, rfl⟩

/-- The new entries are those that are kept. -/
theorem LayersInv.mem_present (h : LayersInv source localeCompare policy focus d w) {v : String} :
    (∃ e ∈ present localeCompare (source.scanLayer policy (d + 1) w
      (source.relations policy w.current)).layer, e.node.id = v) ↔
      v ∈ source.keptAt localeCompare policy focus d := by
  have hids := map_id_present localeCompare (scanRelations_spec source policy (d + 1) w)
  rw [h.fresh, ← h.keptAt_eq] at hids
  rw [← List.mem_map, hids, List.mem_mergeSort]

/-- Left out are the subtypes that are neither known nor kept. -/
theorem LayersInv.leftOut_append (h : LayersInv source localeCompare policy focus d w)
    {id v : String} :
    source.LeftOut policy focus (w.entries ++ present localeCompare (source.scanLayer policy (d + 1)
        w (source.relations policy w.current)).layer) id v ↔
      source.Below policy id v ∧ v ∉ (source.layerAt localeCompare policy focus d).2 ∧
        v ∉ source.keptAt localeCompare policy focus d := by
  constructor
  · rintro ⟨hbelow, hne, hall⟩
    rw [List.forall_mem_append] at hall
    have hold := h.leftOut_iff.mp ⟨hbelow, hne, hall.1⟩
    refine ⟨hbelow, hold.2, fun hkept => ?_⟩
    obtain ⟨e, he, hid⟩ := h.mem_present.mpr hkept
    exact hall.2 e he hid
  · rintro ⟨hbelow, hout, hkept⟩
    obtain ⟨-, hne, hold⟩ := h.leftOut_iff.mpr ⟨hbelow, hout⟩
    refine ⟨hbelow, hne, List.forall_mem_append.mpr ⟨hold, fun e he hid => ?_⟩⟩
    exact hkept (h.mem_present.mp ⟨e, he, hid⟩)

/-- The parents of the layer in which the row cap bites have it right. -/
theorem LayersInv.exact_parent (h : LayersInv source localeCompare policy focus d w)
    {e : HierarchyEntry} (he : e ∈ w.entries) :
    (hiddenAt (source.scanLayer policy (d + 1) w
        (source.relations policy w.current)).hiddenByParent e.node.id).length =
      {v | source.LeftOut policy focus (w.entries ++ present localeCompare (source.scanLayer policy
        (d + 1) w (source.relations policy w.current)).layer) e.node.id v}.ncard := by
  have hscan := scanRelations_spec source policy (d + 1) w
  refine (ncard_eq_length (hscan.sets.sets e.node.id) fun v => ?_).symm
  rw [h.mem_hidden, h.leftOut_append, h.keptAt_eq]
  constructor
  · rintro ⟨hdrop, -, hbelow⟩
    refine ⟨hbelow, (mem_freshSubtypes.mp (List.mem_of_mem_drop hdrop)).2.1, fun htake => ?_⟩
    exact not_mem_drop_of_mem_take nodup_freshSubtypes htake hdrop
  · rintro ⟨hbelow, hfar, hout⟩
    rw [(layerAt_distance d).2] at hfar
    have hdist := (h.listing.nearest e he).1
    have hnear := h.near_below he hbelow
    have hshallow := h.shallow e he
    -- what is not near is one step from the last layer only
    have hlast : e.depth = d := by
      by_contra hne
      exact hfar (hnear.mono (by omega))
    rw [hlast] at hdist
    have hfresh : v ∈ source.freshAt localeCompare policy focus d :=
      mem_freshAt.mpr (atDistance_succ_iff.mpr ⟨⟨_, hdist, hbelow⟩, hfar⟩)
    rw [← List.take_append_drop (roomFor policy w) (source.freshAt localeCompare policy focus d),
      List.mem_append] at hfresh
    exact ⟨hfresh.resolve_left hout, ((layerAt_distance d).1 _).mpr hdist, hbelow⟩

theorem LayersInv.exact_full_iff (h : LayersInv source localeCompare policy focus d w) :
    Exact source policy focus (source.taken localeCompare policy d w).entries ↔
      ∀ u ∈ source.keptAt localeCompare policy focus d, ∀ v, source.Below policy u v →
        v ∈ (source.layerAt localeCompare policy focus d).2 ∨
          v ∈ source.keptAt localeCompare policy focus d := by
  have hscan := scanRelations_spec source policy (d + 1) w
  have hplain : ∀ e ∈ w.entries ++ present localeCompare (source.scanLayer policy (d + 1) w
      (source.relations policy w.current)).layer, e.hiddenSubtypes = 0 := by
    intro e he
    rcases List.mem_append.mp he with he | he
    · exact h.plain e he
    · exact (h.mem_layer hscan he).2.1
  have hiff := exact_addHidden_iff source policy focus hscan.sets.keys hplain
  refine hiff.trans ?_
  -- nothing is counted for the new entries
  have hnew : ∀ e ∈ present localeCompare (source.scanLayer policy (d + 1) w
      (source.relations policy w.current)).layer, hiddenAt (source.scanLayer policy (d + 1) w
        (source.relations policy w.current)).hiddenByParent e.node.id = [] := by
    intro e he
    rw [List.eq_nil_iff_forall_not_mem]
    intro v hv
    have hlayer := (h.mem_hidden.mp hv).2.1
    rw [(layerAt_distance d).1] at hlayer
    have heq := hlayer.unique (mem_freshAt.mp (h.mem_layer hscan he).2.2.1)
    omega
  constructor
  · intro hall u hu v hbelow
    obtain ⟨e, he, rfl⟩ := h.mem_present.mpr hu
    have hzero := hall e (List.mem_append_right _ he)
    rw [hnew e he, List.length_nil, ncard_leftOut_eq_zero] at hzero
    by_contra hout
    rw [not_or] at hout
    exact hzero v (h.leftOut_append.mpr ⟨hbelow, hout⟩)
  · intro hall e he
    rcases List.mem_append.mp he with he | he
    · exact h.exact_parent he
    · rw [hnew e he, List.length_nil, ncard_leftOut_eq_zero]
      intro v hleft
      obtain ⟨hbelow, hout⟩ := h.leftOut_append.mp hleft
      rw [← not_or] at hout
      exact hout (hall e.node.id (h.mem_present.mp ⟨e, he, rfl⟩) v hbelow)

/-! ## At the depth cap -/

theorem LayersInv.mem_hiddenBy (h : LayersInv source localeCompare policy focus d w)
    {parent v : String} :
    v ∈ hiddenAt (hiddenBy (source.linksBeyond policy w)) parent ↔
      parent ∈ (source.layerAt localeCompare policy focus d).1 ∧
        v ∉ (source.layerAt localeCompare policy focus d).2 ∧
          ∃ e, source.Links policy e ∧ e.target = parent ∧ e.source = v := by
  rw [HierarchySource.mem_hiddenBy]
  constructor
  · rintro ⟨l, hl, rfl, rfl⟩
    obtain ⟨hlink, hout⟩ := List.mem_filter.mp hl
    obtain ⟨hlink, htarget⟩ := mem_relations.mp hlink
    rw [h.current] at htarget
    rw [h.discovered, decide_eq_true_eq] at hout
    exact ⟨htarget, hout, l, hlink, rfl, rfl⟩
  · rintro ⟨hparent, hout, l, hlink, rfl, rfl⟩
    rw [← h.current] at hparent
    rw [← h.discovered] at hout
    exact ⟨l, List.mem_filter.mpr ⟨mem_relations.mpr ⟨hlink, hparent⟩, decide_eq_true hout⟩, rfl,
      rfl⟩

/-- What is left out under an entry has been counted under it. -/
theorem LayersInv.counted (h : LayersInv source localeCompare policy focus d w)
    {e : HierarchyEntry} (he : e ∈ w.entries) {v : String}
    (hleft : source.LeftOut policy focus w.entries e.node.id v) :
    v ∈ hiddenAt (hiddenBy (source.linksBeyond policy w)) e.node.id := by
  obtain ⟨hbelow, hout⟩ := h.leftOut_iff.mp hleft
  obtain ⟨l, hlink, htarget, hsource, -⟩ := hbelow
  rw [h.mem_hiddenBy]
  refine ⟨?_, hout, l, hlink, htarget, hsource⟩
  have hnear := h.near_below he hleft.1
  have hshallow := h.shallow e he
  have hlast : e.depth = d := by
    by_contra hne
    exact hout (((layerAt_distance d).2 v).mpr (hnear.mono (by omega)))
  rw [(layerAt_distance d).1, ← hlast]
  exact (h.listing.nearest e he).1

theorem LayersInv.exact_deep_iff
    (h : LayersInv source localeCompare policy focus policy.descendantDepth w)
    (hpositive : 0 < policy.descendantDepth) :
    Exact source policy focus (source.lookAhead policy w).entries ↔
      source.Settled localeCompare policy focus := by
  have hkeys := hiddenInv_hiddenBy (source.linksBeyond policy w)
  rw [entries_lookAhead, exact_addHidden_iff source policy focus hkeys.keys h.plain]
  have hcount : ∀ e ∈ w.entries, ((hiddenAt (hiddenBy (source.linksBeyond policy w))
      e.node.id).length = {v | source.LeftOut policy focus w.entries e.node.id v}.ncard ↔
        ∀ v ∈ hiddenAt (hiddenBy (source.linksBeyond policy w)) e.node.id,
          source.LeftOut policy focus w.entries e.node.id v) :=
    fun e he => length_eq_ncard_iff (hkeys.sets _) fun _ => h.counted he
  rw [forall₂_congr hcount]
  constructor
  · intro hall
    constructor
    · intro k hk _ hafter
      have hfits := h.fits (show k + 1 ≤ policy.descendantDepth from hk)
      omega
    · intro _ _ u hu l hlink htarget
      by_cases hknown : l.source ∈
          (source.layerAt localeCompare policy focus policy.descendantDepth).2
      · exact .inl hknown
      · right
        have hdist := ((layerAt_distance _).1 u).mp hu
        have hne : u ≠ focus.id := by
          rintro rfl
          have hzero := hdist.2 0 (.source rfl)
          omega
        obtain ⟨e, he, rfl⟩ := h.listed_of_near hne (near_of_steps hdist.1)
        have hleft := hall e he l.source (h.mem_hiddenBy.mpr ⟨hu, hknown, l, hlink, htarget, rfl⟩)
        obtain ⟨-, -, -, hsource, hsome⟩ := hleft.1
        exact hsome
  · intro hsettled e he v hv
    obtain ⟨hlayer, hout, l, hlink, htarget, rfl⟩ := h.mem_hiddenBy.mp hv
    have hcase := hsettled.depth hpositive (h.fits (Nat.le_refl _)) _ hlayer l hlink htarget
    exact h.leftOut_iff.mpr ⟨⟨l, hlink, htarget, rfl, hcase.resolve_left hout⟩, hout⟩

/-! ## When the counts are right -/

theorem Outcome.exact_iff (h : Outcome source localeCompare policy focus w) :
    Exact source policy focus w.entries ↔ source.Settled localeCompare policy focus := by
  cases h with
  | flat hdepth =>
      constructor
      · intro _
        constructor
        · intro k hk
          omega
        · intro hpositive
          omega
      · exact fun _ e he => absurd he List.not_mem_nil
  | usedUp inv hdepth hempty =>
      exact ⟨fun _ => inv.settled_of_empty hdepth hempty, fun _ => inv.exact_of_empty hempty⟩
  | full inv hdepth hroom =>
      rw [inv.exact_full_iff, inv.settled_iff_of_full hdepth hroom]
  | deep inv hdepth => exact inv.exact_deep_iff hdepth

theorem hiddenExact_iff_exact : source.HiddenExact localeCompare policy focus ↔
    Exact source policy focus (source.childrenOf localeCompare policy focus).entries := Iff.rfl

/-- The counts are right exactly when nothing is left out that is not counted, and nothing counted
that does not exist. -/
theorem hiddenExact_iff (source : HierarchySource)
    (localeCompare : String → String → Ordering) (policy : TypeHierarchyPolicy) (focus : Node) :
    source.HiddenExact localeCompare policy focus ↔
      source.Settled localeCompare policy focus := by
  obtain ⟨w, houtcome, heq⟩ := outcome_childrenOf source localeCompare policy focus
  rw [hiddenExact_iff_exact, heq]
  exact houtcome.exact_iff

/-! ## A crowd of subtypes -/

/-- The lookups over lists of rows. -/
def ofRows (nodes : List Node) (edges : List Edge) : HierarchySource where
  node id := nodes.find? fun n => n.id = id
  edges
  getNodesByIds ids := nodes.filter fun n => n.id ∈ ids
  getIncomingEdgesTo ids kinds :=
    edges.filter fun e => e.target ∈ ids ∧ (kinds = [] ∨ e.kind ∈ kinds)
  ids id n hn := by simpa using List.find?_some hn
  found ids id := by
    rw [Found.get, List.find?_filter]
    split
    · rename_i hid
      congr 1
      funext n
      by_cases hn : n.id = id <;> simp [hn, hid]
    · rename_i hid
      rw [List.find?_eq_none]
      intro n _
      by_cases hn : n.id = id <;> simp [hn, hid]
  incoming ids kinds e := by simp

def crowdType (id : String) : Node := ⟨id, .class, id, id, "f.ts", .typescript, 1⟩

def crowdLink (source target : String) : Edge :=
  ⟨source, target, .extends, none, none, none, none⟩

/-- The names of 401 types. -/
def crowdNames : List String :=
  (List.range 401).map fun n => String.ofList ('s' :: List.replicate n 'n')

/-- 401 subtypes of `F`, with the one subtype `X` of them all. -/
def crowd : HierarchySource :=
  ofRows (crowdType "F" :: crowdType "X" :: crowdNames.map crowdType)
    (crowdNames.map (crowdLink · "F") ++ crowdNames.map (crowdLink "X" ·))

theorem crowdNames_nodup : crowdNames.Nodup := by
  refine List.Nodup.map (fun m n hmn => ?_) List.nodup_range
  have hlength := congrArg List.length (String.ofList_inj.mp hmn)
  simpa using hlength

theorem crowdNames_ne {id : String} (h : id ∈ crowdNames) : id ≠ "F" ∧ id ≠ "X" := by
  obtain ⟨n, -, rfl⟩ := List.mem_map.mp h
  constructor <;> intro heq <;> have hlist := congrArg String.toList heq <;> simp at hlist

theorem crowd_node {id : String} (h : id ∈ crowdNames) : (crowd.node id).isSome = true := by
  show (List.find? _ _).isSome = true
  rw [List.find?_isSome]
  refine ⟨crowdType id, ?_, decide_eq_true rfl⟩
  exact List.mem_cons_of_mem _ (List.mem_cons_of_mem _ (List.mem_map_of_mem h))

theorem crowd_links {e : Edge} : crowd.Links TYPE_HIERARCHY_POLICY e ↔
    (∃ id ∈ crowdNames, crowdLink id "F" = e) ∨ ∃ id ∈ crowdNames, crowdLink "X" id = e := by
  have hedges : e ∈ crowd.edges ↔
      (∃ id ∈ crowdNames, crowdLink id "F" = e) ∨ ∃ id ∈ crowdNames, crowdLink "X" id = e := by
    show e ∈ _ ++ _ ↔ _
    rw [List.mem_append, List.mem_map, List.mem_map]
  rw [← hedges, Links]
  refine and_iff_left_of_imp fun he => ?_
  have hkind : e.kind = .extends := by
    obtain ⟨id, -, rfl⟩ | ⟨id, -, rfl⟩ := hedges.mp he <;> rfl
  rw [hkind]
  exact ⟨.inr (List.mem_cons_self ..), .inl rfl⟩

theorem mem_crowd_fresh {v : String} :
    v ∈ crowd.freshAt compare TYPE_HIERARCHY_POLICY (crowdType "F") 0 ↔ v ∈ crowdNames := by
  rw [freshAt, mem_freshSubtypes]
  constructor
  · rintro ⟨-, -, l, hl, rfl⟩
    obtain ⟨hlink, htarget⟩ := mem_relations.mp hl
    rcases crowd_links.mp hlink with ⟨id, hid, rfl⟩ | ⟨id, hid, rfl⟩
    · exact hid
    · exact absurd (List.mem_singleton.mp htarget) (crowdNames_ne hid).1
  · intro hv
    refine ⟨crowd_node hv, fun hmem => (crowdNames_ne hv).1 (List.mem_singleton.mp hmem), ?_⟩
    refine ⟨crowdLink v "F", mem_relations.mpr ⟨?_, List.mem_singleton_self _⟩, rfl⟩
    exact crowd_links.mpr (.inl ⟨v, hv, rfl⟩)

/-- 400 of the types are listed, each of which hides `X` and says that it hides nothing. -/
theorem hiddenExact_fails :
    ¬ crowd.HiddenExact compare TYPE_HIERARCHY_POLICY (crowdType "F") := by
  intro hexact
  obtain ⟨w, houtcome, heq⟩ :=
    outcome_childrenOf crowd compare TYPE_HIERARCHY_POLICY (crowdType "F")
  rw [hiddenExact_iff_exact, heq, houtcome.exact_iff] at hexact
  have hperm : (crowd.freshAt compare TYPE_HIERARCHY_POLICY (crowdType "F") 0).Perm crowdNames :=
    (List.perm_ext_iff_of_nodup nodup_freshSubtypes crowdNames_nodup).mpr fun _ => mem_crowd_fresh
  have hlength : (crowd.freshAt compare TYPE_HIERARCHY_POLICY (crowdType "F") 0).length = 401 := by
    rw [hperm.length_eq, crowdNames, List.length_map, List.length_range]
  have hkept : 0 < (crowd.keptAt compare TYPE_HIERARCHY_POLICY (crowdType "F") 0).length := by
    rw [keptAt, List.length_take, hlength]
    decide
  obtain ⟨u, hu⟩ := List.exists_mem_of_length_pos hkept
  have hname : ∀ v ∈ crowd.keptAt compare TYPE_HIERARCHY_POLICY (crowdType "F") 0,
      v ∈ crowdNames := fun v hv => mem_crowd_fresh.mp (List.mem_of_mem_take hv)
  have hbelow : crowd.Below TYPE_HIERARCHY_POLICY u "X" :=
    ⟨crowdLink "X" u, crowd_links.mpr (.inr ⟨u, hname u hu, rfl⟩), rfl, rfl, rfl⟩
  have hmany : TYPE_HIERARCHY_POLICY.descendantRows + 1 <
      (crowd.layerAt compare TYPE_HIERARCHY_POLICY (crowdType "F") 1).2.length := by
    rw [length_layerAt_succ, hlength]
    decide
  rcases hexact.rows 0 (by decide) (by decide) hmany u hu "X" hbelow with hfocus | hkept
  · exact absurd (List.mem_singleton.mp hfocus) (by decide)
  · exact (crowdNames_ne (hname "X" hkept)).2 rfl

end HierarchySource

end AfyxGraph.Graph
