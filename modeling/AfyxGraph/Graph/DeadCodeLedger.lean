import AfyxGraph.Graph.DeadCode
import Mathlib.Algebra.BigOperators.Group.List.Basic
import Mathlib.Data.List.Perm.Basic
import Mathlib.Data.List.Nodup
import Mathlib.Data.List.Pairwise

/-! # The ledger of the dead-code report

Every candidate ends in one place: under an exclusion counter, as a ranked entry, or as a member
of one. The passes only move rows; the regrouping loses none because what owns a member is of a
kind that is never a member itself.
-/

namespace AfyxGraph.Graph.DeadCode

open AfyxGraph.Core AfyxGraph.Extraction

/-! ## What a pass does -/

/-- Rows went in, `kept` came out, and every row left out was counted under one reason. -/
structure Sifted (rows : List Candidate) (before : Ledger) (kept : List Candidate)
    (after : Ledger) (out : List (Candidate × Exclusion)) : Prop where
  parts : rows.Perm (out.map Prod.fst ++ kept)
  counts : ∀ reason, after reason = before reason + out.countP fun o => o.2 = reason
  reasons : ∀ o ∈ out, o.2 ≠ .nested

theorem Sifted.refl (rows : List Candidate) (ledger : Ledger) :
    Sifted rows ledger rows ledger [] where
  parts := .refl rows
  counts _ := rfl
  reasons _ ho := absurd ho List.not_mem_nil

theorem Sifted.trans {rows kept last : List Candidate} {before mid after : Ledger}
    {out more : List (Candidate × Exclusion)} (h : Sifted rows before kept mid out)
    (h' : Sifted kept mid last after more) : Sifted rows before last after (out ++ more) where
  parts := by
    rw [List.map_append, List.append_assoc]
    exact h.parts.trans (h'.parts.append_left _)
  counts reason := by
    rw [h'.counts, h.counts, List.countP_append, Nat.add_assoc]
  reasons o ho := by
    rcases List.mem_append.mp ho with ho | ho
    · exact h.reasons o ho
    · exact h'.reasons o ho

theorem rejectFrom_sifted {σ : Type} {reasonFor : σ → Candidate → Option Exclusion × σ}
    (hreason : ∀ s row, (reasonFor s row).1 ≠ some .nested) (s : σ) (rows : List Candidate)
    (ledger : Ledger) :
    ∃ out, Sifted rows ledger (rejectFrom reasonFor s rows ledger).1
      (rejectFrom reasonFor s rows ledger).2 out := by
  induction rows generalizing s ledger with
  | nil => exact ⟨[], .refl [] ledger⟩
  | cons row rows ih =>
      rw [rejectFrom]
      obtain ⟨answer, hanswer⟩ : ∃ answer, reasonFor s row = answer := ⟨_, rfl⟩
      obtain ⟨reason, s'⟩ := answer
      rw [hanswer]
      cases reason with
      | none =>
          obtain ⟨out, h⟩ := ih s' ledger
          exact ⟨out, (h.parts.cons row).trans List.perm_middle.symm, h.counts, h.reasons⟩
      | some reason =>
          obtain ⟨out, h⟩ := ih s' (ledger.bump reason)
          refine ⟨(row, reason) :: out, h.parts.cons row, ?_, ?_⟩
          · intro r
            rw [h.counts, List.countP_cons, Ledger.bump]
            by_cases hr : r = reason
            · subst hr
              simp only [if_pos, decide_true]
              omega
            · have hne : reason ≠ r := fun h => hr h.symm
              simp only [if_neg hr, decide_eq_true_eq, if_neg hne, Nat.add_zero]
          · intro o ho
            rcases List.mem_cons.mp ho with rfl | ho
            · intro hnested
              apply hreason s row
              rw [hanswer]
              exact congrArg some hnested
            · exact h.reasons o ho

theorem reject_sifted {reasonFor : Candidate → Option Exclusion}
    (hreason : ∀ row, reasonFor row ≠ some .nested) (rows : List Candidate) (ledger : Ledger) :
    ∃ out, Sifted rows ledger (reject rows ledger reasonFor).1
      (reject rows ledger reasonFor).2 out :=
  rejectFrom_sifted (fun _ row => hreason row) () rows ledger

theorem cheapReason_ne_nested (platform : Platform) (options : Options)
    (exportLanguages : List Language) (row : Candidate) :
    cheapReason platform options exportLanguages row ≠ some .nested := by
  simp only [cheapReason]
  repeat' split
  all_goals simp

theorem graphReason_ne_nested (decorated overriding unresolved ambiguous : List String)
    (containers : List (String × Symbol)) (row : Candidate) :
    graphReason decorated overriding unresolved ambiguous containers row ≠ some .nested := by
  simp only [graphReason]
  repeat' split
  all_goals simp

theorem corroborationReason_ne_nested (platform : Platform) (cg : CodeGraph)
    (readSource : String → Option String) (cache : SourceCache) (row : Candidate) :
    (corroborationReason platform cg readSource cache row).1 ≠ some .nested := by
  simp only [corroborationReason]
  split
  · simp
  · simp only
    split <;> simp

theorem corroborateWith_sifted (platform : Platform) (cg : CodeGraph)
    (sourceReader : Option (String → Option String)) (rows : List Candidate) (ledger : Ledger) :
    ∃ out, Sifted rows ledger (corroborateWith platform cg sourceReader rows ledger).1
      (corroborateWith platform cg sourceReader rows ledger).2 out := by
  cases sourceReader with
  | none => exact ⟨[], .refl _ _⟩
  | some readSource =>
      exact rejectFrom_sifted (corroborationReason_ne_nested platform cg readSource) [] _ _

/-! ## Owners -/

variable {cg : CodeGraph}

theorem mem_of_getNode {id : String} {n : Symbol} (h : cg.getNode id = some n) :
    n ∈ cg.nodes ∧ n.id = id := by
  have hfind : cg.nodes.find? (fun n => decide (n.id = id)) = some n := h
  have hid := List.find?_some hfind
  exact ⟨List.mem_of_find?_eq_some hfind, of_decide_eq_true hid⟩

theorem node_unique {n m : Symbol} (hn : n ∈ cg.nodes) (hm : m ∈ cg.nodes) (hid : n.id = m.id) :
    n = m :=
  List.inj_on_of_nodup_map cg.ids hn hm hid

theorem mem_keys_ownerByMember {edges : List Edge} {memberId : String}
    (h : memberId ∈ (ownerByMember edges).map Prod.fst) : ∃ e ∈ edges, e.target = memberId := by
  have hfold : ∀ (edges : List Edge) (owners : List (String × String)),
      memberId ∈ ((edges.foldl (fun owners e => if (owners.lookup e.target).isSome then owners
        else setEntry owners e.target e.source) owners).map Prod.fst) →
      memberId ∈ owners.map Prod.fst ∨ ∃ e ∈ edges, e.target = memberId := by
    intro edges
    induction edges with
    | nil => exact fun owners h => .inl h
    | cons e edges ih =>
        intro owners h
        rcases ih _ h with h | ⟨e', he', htarget⟩
        · beta_reduce at h
          split at h
          · exact .inl h
          · rcases (mem_keys_setEntry _ _ _ _).mp h with rfl | h
            · exact .inr ⟨e, List.mem_cons_self .., rfl⟩
            · exact .inl h
        · exact .inr ⟨e', List.mem_cons_of_mem _ he', htarget⟩
  rcases hfold edges [] h with h | h
  · cases h
  · exact h

/-- A row that has an owner is of a kind that can be overridden, and the owner is of a kind that
holds members. -/
theorem candidateContainers_spec {rows : List Candidate} {id : String} {owner : Symbol}
    (h : (candidateContainers cg rows).lookup id = some owner) :
    (∃ row ∈ rows, row.node.id = id ∧ row.node.kind ∈ overridable) ∧ owner ∈ cg.nodes ∧
      owner.kind ∈ memberContainers := by
  obtain ⟨front, back, hsplit, -⟩ := List.lookup_eq_some_iff.mp h
  have hmem : (id, owner) ∈ candidateContainers cg rows := by
    rw [hsplit]
    exact List.mem_append_right _ (List.mem_cons_self ..)
  obtain ⟨⟨memberId, ownerId⟩, howned, hentry⟩ := List.mem_filterMap.mp hmem
  simp only at hentry
  split at hentry
  · rename_i found hfound
    split at hentry
    · rename_i hkind
      obtain ⟨rfl, rfl⟩ := Prod.mk.inj (Option.some.inj hentry)
      refine ⟨?_, (mem_of_getNode hfound).1, hkind⟩
      obtain ⟨e, he, rfl⟩ := mem_keys_ownerByMember (List.mem_map_of_mem howned)
      have htarget := (List.mem_filter.mp he).2
      simp only [Bool.and_eq_true, decide_eq_true_eq] at htarget
      obtain ⟨row, hrow, hid⟩ := List.mem_map.mp htarget.1
      obtain ⟨hrow, hover⟩ := List.mem_filter.mp hrow
      exact ⟨row, hrow, hid, of_decide_eq_true hover⟩
    · cases hentry
  · cases hentry

theorem not_overridable_of_memberContainer {kind : NodeKind} (h : kind ∈ memberContainers) :
    kind ∉ overridable := by
  revert h
  cases kind <;> decide

/-! ## Regrouping -/

/-- The surviving owner under which a row is listed. -/
def ownerIn (containers : List (String × Symbol)) (survivingIds : List String) (row : Candidate) :
    Option String :=
  match containers.lookup row.node.id with
  | some owner => if owner.id ∈ survivingIds then some owner.id else none
  | none => none

section Regrouping

variable {containers : List (String × Symbol)} {survivingIds : List String}

theorem placeRow_nested {a : Assembly} {row : Candidate} {owner : String}
    (h : ownerIn containers survivingIds row = some owner) :
    placeRow containers survivingIds a row =
      { a with
        children := a.children ++ [{ node := row.node, owner }]
        ledger := a.ledger.bump .nested } := by
  cases hfound : containers.lookup row.node.id with
  | none =>
      rw [ownerIn, hfound] at h
      cases h
  | some found =>
      simp only [ownerIn, hfound, Option.ite_none_right_eq_some] at h
      obtain ⟨hsurvives, howner⟩ := h
      obtain rfl := Option.some.inj howner
      simp only [placeRow, hfound, if_pos hsurvives]

theorem placeRow_kept {a : Assembly} {row : Candidate}
    (h : ownerIn containers survivingIds row = none) :
    placeRow containers survivingIds a row =
      { a with entries := setEntry a.entries row.node.id (entryOf row.node) } := by
  cases hfound : containers.lookup row.node.id with
  | none => simp only [placeRow, hfound]
  | some found =>
      have hgone : found.id ∉ survivingIds := by
        intro hsurvives
        simp only [ownerIn, hfound, if_pos hsurvives] at h
        cases h
      simp only [placeRow, hfound, if_neg hgone]

/-- What the first loop makes of the rows: children under an owner, and entries. -/
structure Placed (containers : List (String × Symbol)) (survivingIds : List String)
    (rows : List Candidate) (before after : Assembly) (nested kept : List Candidate)
    (children : List Child) : Prop where
  parts : rows.Perm (nested ++ kept)
  keeps : ∀ row ∈ rows, ownerIn containers survivingIds row = none → row ∈ kept
  entries : after.entries =
    before.entries ++ kept.map fun row => (row.node.id, entryOf row.node)
  grown : after.children = before.children ++ children
  nodes : children.map (·.node) = nested.map (·.node)
  owned : ∀ child ∈ children, ∃ row ∈ rows,
    ownerIn containers survivingIds row = some child.owner
  counts : ∀ reason, after.ledger reason =
    before.ledger reason + if reason = .nested then nested.length else 0

theorem foldl_placeRow (rows : List Candidate) (a : Assembly)
    (hids : (a.entries.map Prod.fst ++ rows.map (·.node.id)).Nodup) :
    ∃ nested kept children, Placed containers survivingIds rows a
      (rows.foldl (placeRow containers survivingIds) a) nested kept children := by
  induction rows generalizing a with
  | nil =>
      refine ⟨[], [], [], .refl [], ?_, ?_, ?_, rfl, ?_, ?_⟩
      · exact fun row hrow => absurd hrow List.not_mem_nil
      · exact (List.append_nil _).symm
      · exact (List.append_nil _).symm
      · exact fun child hchild => absurd hchild List.not_mem_nil
      · intro reason
        rw [List.length_nil, ite_self]
        rfl
  | cons row rows ih =>
      rw [List.foldl_cons]
      cases howner : ownerIn containers survivingIds row with
      | some owner =>
          rw [placeRow_nested howner]
          obtain ⟨nested, kept, children, h⟩ := ih
            { a with
              children := a.children ++ [{ node := row.node, owner }]
              ledger := a.ledger.bump .nested }
            (hids.sublist ((List.sublist_cons_self _ _).append_left _))
          refine ⟨row :: nested, kept, { node := row.node, owner } :: children,
            h.parts.cons row, ?_, h.entries, ?_, ?_, ?_, ?_⟩
          · intro r hr hnone
            rcases List.mem_cons.mp hr with rfl | hr
            · rw [howner] at hnone
              cases hnone
            · exact h.keeps r hr hnone
          · rw [h.grown, List.append_assoc]
            rfl
          · rw [List.map_cons, List.map_cons, h.nodes]
          · intro child hchild
            rcases List.mem_cons.mp hchild with rfl | hchild
            · exact ⟨row, List.mem_cons_self .., howner⟩
            · obtain ⟨r, hr, hr'⟩ := h.owned child hchild
              exact ⟨r, List.mem_cons_of_mem _ hr, hr'⟩
          · intro reason
            rw [h.counts]
            show a.ledger.bump .nested reason + _ = _
            rw [Ledger.bump]
            by_cases hreason : reason = .nested
            · simp only [if_pos hreason, List.length_cons]
              omega
            · simp only [if_neg hreason]
      | none =>
          have hfresh : row.node.id ∉ a.entries.map Prod.fst := by
            intro hmem
            exact (List.disjoint_of_nodup_append hids) hmem (List.mem_cons_self ..)
          rw [placeRow_kept howner, setEntry_of_not_mem _ hfresh]
          obtain ⟨nested, kept, children, h⟩ := ih
            { a with entries := a.entries ++ [(row.node.id, entryOf row.node)] }
            (by simpa only [List.map_append, List.map_cons, List.map_nil, List.append_assoc,
                  List.singleton_append] using hids)
          refine ⟨nested, row :: kept, children,
            (h.parts.cons row).trans List.perm_middle.symm, ?_, ?_, h.grown, h.nodes, ?_,
            h.counts⟩
          · intro r hr hnone
            rcases List.mem_cons.mp hr with rfl | hr
            · exact List.mem_cons_self ..
            · exact List.mem_cons_of_mem _ (h.keeps r hr hnone)
          · rw [h.entries, List.append_assoc]
            rfl
          · intro child hchild
            obtain ⟨r, hr, hr'⟩ := h.owned child hchild
            exact ⟨r, List.mem_cons_of_mem _ hr, hr'⟩

/-- The members pushed onto an entry are the nodes of its children, in their order. -/
theorem foldl_pushMember (children : List Child) (entries : List (String × DeadCodeEntry)) :
    children.foldl pushMember entries = entries.map fun (id, entry) =>
      (id, { entry with members :=
        entry.members ++ (children.filter fun c => c.owner = id).map (·.node) }) := by
  induction children generalizing entries with
  | nil => simp
  | cons child children ih =>
      rw [List.foldl_cons, ih, pushMember, List.map_map]
      apply List.map_congr_left
      rintro ⟨id, entry⟩ -
      by_cases howner : id = child.owner
      · subst howner
        simp
      · have hne : ¬ child.owner = id := fun h => howner h.symm
        simp [howner, hne]

end Regrouping

/-- Items sorted into bins by key: nothing is lost when every key has one bin. -/
theorem flatMap_filter_perm {α : Type} (f : α → String) (items : List α) (keys : List String)
    (hnodup : keys.Nodup) (hcovered : ∀ x ∈ items, f x ∈ keys) :
    (keys.flatMap fun k => items.filter fun x => f x = k).Perm items := by
  induction keys generalizing items with
  | nil =>
      cases items with
      | nil => exact .refl _
      | cons x xs => exact absurd (hcovered x (List.mem_cons_self ..)) List.not_mem_nil
  | cons k keys ih =>
      obtain ⟨hfresh, hnodup⟩ := List.nodup_cons.mp hnodup
      have hrest := ih (items.filter fun x => !decide (f x = k)) hnodup (by
        intro x hx
        obtain ⟨hx, hne⟩ := List.mem_filter.mp hx
        have hne : ¬ f x = k := by simpa using hne
        exact (List.mem_cons.mp (hcovered x hx)).resolve_left hne)
      have hbins : (keys.flatMap fun k' =>
          (items.filter fun x => !decide (f x = k)).filter fun x => f x = k') =
          keys.flatMap fun k' => items.filter fun x => f x = k' := by
        apply List.flatMap_congr
        intro k' hk'
        have hne : k' ≠ k := fun h => hfresh (h ▸ hk')
        rw [List.filter_filter]
        apply List.filter_congr
        intro x _
        by_cases hx : f x = k'
        · simp [hx, hne]
        · simp [hx]
      rw [hbins] at hrest
      rw [List.flatMap_cons]
      exact (hrest.append_left _).trans (List.filter_append_perm (fun x => decide (f x = k)) items)

/-- What assembly makes of the rows: entries of some, members of the others. -/
structure Regrouped (rows : List Candidate) (before : Ledger) (entries : List DeadCodeEntry)
    (after : Ledger) (nested kept : List Candidate) : Prop where
  parts : rows.Perm (nested ++ kept)
  ranked : (entries.map (·.node)).Perm (kept.map (·.node))
  members : (entries.flatMap (·.members)).Perm (nested.map (·.node))
  counts : ∀ reason, after reason =
    before reason + if reason = .nested then nested.length else 0

theorem assemble_regrouped (platform : Platform) {rows : List Candidate}
    {containers : List (String × Symbol)} (ledger : Ledger)
    (hids : (rows.map (·.node.id)).Nodup)
    (howners : ∀ row ∈ rows, ∀ owner,
      ownerIn containers (rows.map (·.node.id)) row = some owner →
        ∃ r ∈ rows, r.node.id = owner ∧
          ownerIn containers (rows.map (·.node.id)) r = none) :
    ∃ nested kept, Regrouped rows ledger (assemble platform rows containers ledger).1
      (assemble platform rows containers ledger).2 nested kept := by
  obtain ⟨nested, kept, children, h⟩ := foldl_placeRow rows { ledger } (by simpa using hids)
  have hentries : ((rows.foldl (placeRow containers (rows.map (·.node.id)))
        { ledger }).children.foldl pushMember
      (rows.foldl (placeRow containers (rows.map (·.node.id))) { ledger }).entries).map
        (fun entry => { entry.2 with members := entry.2.members.mergeSort (memberOrder platform) }) =
      kept.map fun row => { entryOf row.node with
        members := ((children.filter fun c => c.owner = row.node.id).map (·.node)).mergeSort
          (memberOrder platform) } := by
    rw [h.entries, h.grown, List.nil_append, List.nil_append, foldl_pushMember, List.map_map,
      List.map_map]
    rfl
  have hranked : (assemble platform rows containers ledger).1.Perm (kept.map fun row =>
      { entryOf row.node with
        members := ((children.filter fun c => c.owner = row.node.id).map (·.node)).mergeSort
          (memberOrder platform) }) := by
    rw [← hentries]
    exact List.mergeSort_perm _ _
  have hkept : (kept.map (·.node.id)).Nodup := by
    have hall := (h.parts.map (·.node.id)).nodup_iff.mp hids
    rw [List.map_append] at hall
    exact (List.nodup_append.mp hall).2.1
  have hcovered : ∀ c ∈ children, c.owner ∈ kept.map (·.node.id) := by
    intro c hc
    obtain ⟨row, hrow, howner⟩ := h.owned c hc
    obtain ⟨r, hr, hid, hnone⟩ := howners row hrow c.owner howner
    rw [← hid]
    exact List.mem_map_of_mem (h.keeps r hr hnone)
  refine ⟨nested, kept, h.parts, ?_, ?_, h.counts⟩
  · have hnodes := hranked.map (·.node)
    rw [List.map_map] at hnodes
    exact hnodes
  · have hmembers := hranked.flatMap_right (·.members)
    rw [List.flatMap_map] at hmembers
    have hsorted := List.Perm.flatMap_left kept (fun row _ =>
      List.mergeSort_perm ((children.filter fun c => c.owner = row.node.id).map (·.node))
        (memberOrder platform))
    have hbins := (flatMap_filter_perm Child.owner children _ hkept hcovered).map (·.node)
    rw [List.map_flatMap, List.flatMap_map, h.nodes] at hbins
    exact hmembers.trans (hsorted.trans hbins)

/-! ## The report -/

theorem mem_getUnreferencedNodes {kinds : List NodeKind} {limit : Nat} {row : Candidate}
    (h : row ∈ cg.getUnreferencedNodes kinds limit) :
    row.node ∈ cg.nodes ∧ ∀ e ∈ cg.edges, CodeGraph.refersTo row.node.id e = false := by
  have hsorted := List.mem_of_mem_take h
  obtain ⟨n, hn, rfl⟩ := List.mem_map.mp ((List.mergeSort_perm _ _).mem_iff.mp hsorted)
  obtain ⟨hn, hkeep⟩ := List.mem_filter.mp hn
  simp only [Bool.and_eq_true, Bool.not_eq_true', List.any_eq_false] at hkeep
  exact ⟨hn, fun e he => by simpa using hkeep.2 e he⟩

theorem nodup_getUnreferencedNodes (kinds : List NodeKind) (limit : Nat) :
    ((cg.getUnreferencedNodes kinds limit).map (·.node.id)).Nodup := by
  rw [CodeGraph.getUnreferencedNodes, List.map_take]
  apply List.Nodup.sublist (List.take_sublist _ _)
  apply ((List.mergeSort_perm _ _).map _).nodup_iff.mpr
  rw [List.map_map]
  exact cg.ids.sublist (List.filter_sublist.map _)

section Report

variable (platform : Platform) (projectSource : String → Option String)

/-- Where every candidate went. -/
structure Accounted (candidates : List Candidate) (entries : List DeadCodeEntry)
    (ledger : Ledger) (out : List (Candidate × Exclusion)) (nested kept : List Candidate) :
    Prop where
  parts : candidates.Perm (out.map Prod.fst ++ (nested ++ kept))
  reasons : ∀ o ∈ out, o.2 ≠ .nested
  ranked : (entries.map (·.node)).Perm (kept.map (·.node))
  members : (entries.flatMap (·.members)).Perm (nested.map (·.node))
  counts : ∀ reason, ledger reason =
    out.countP (fun o => o.2 = reason) + if reason = .nested then nested.length else 0

/-- A row that survives to the assembly under an owner that survives too: the owner is a row of
its own and becomes an entry. -/
theorem owner_kept {candidates rows : List Candidate} {containers : List (String × Symbol)}
    (hcontainers : ∀ id owner, containers.lookup id = some owner →
      (∃ row ∈ candidates, row.node.id = id ∧ row.node.kind ∈ overridable) ∧
        owner ∈ cg.nodes ∧ owner.kind ∈ memberContainers)
    (hcandidates : ∀ row ∈ candidates, row.node ∈ cg.nodes)
    (hrows : ∀ row ∈ rows, row.node ∈ cg.nodes) {row : Candidate} {owner : String}
    (howner : ownerIn containers (rows.map (·.node.id)) row = some owner) :
    ∃ r ∈ rows, r.node.id = owner ∧ ownerIn containers (rows.map (·.node.id)) r = none := by
  rw [ownerIn] at howner
  split at howner
  · rename_i found hfound
    split at howner
    · rename_i hsurvives
      obtain rfl := Option.some.inj howner
      obtain ⟨r, hr, hid⟩ := List.mem_map.mp hsurvives
      obtain ⟨-, hstored, hkind⟩ := hcontainers _ _ hfound
      have hsame : r.node = found := node_unique (hrows r hr) hstored hid
      refine ⟨r, hr, hid, ?_⟩
      -- An owner of the owner would make it overridable.
      have hnone : containers.lookup r.node.id = none := by
        by_contra hsome
        obtain ⟨above, habove⟩ := Option.ne_none_iff_exists'.mp hsome
        obtain ⟨⟨member, hmember, hmemberId, hover⟩, -⟩ := hcontainers _ _ habove
        have hnode : member.node = found := by
          rw [← hsame]
          exact node_unique (hcandidates member hmember) (hrows r hr) hmemberId
        rw [hnode] at hover
        exact not_overridable_of_memberContainer hkind hover
      rw [ownerIn, hnone]
    · cases howner
  · cases howner

theorem Sifted.mem {rows kept : List Candidate} {before after : Ledger}
    {out : List (Candidate × Exclusion)} (h : Sifted rows before kept after out) {row : Candidate}
    (hrow : row ∈ kept) : row ∈ rows :=
  h.parts.mem_iff.mpr (List.mem_append_right _ hrow)

theorem Sifted.nodup {rows kept : List Candidate} {before after : Ledger}
    {out : List (Candidate × Exclusion)} (h : Sifted rows before kept after out)
    (hids : (rows.map (·.node.id)).Nodup) : (kept.map (·.node.id)).Nodup := by
  have hall := (h.parts.map (·.node.id)).nodup_iff.mp hids
  rw [List.map_append] at hall
  exact (List.nodup_append.mp hall).2.1

theorem candidatesOf_stored {query : DeadCodeQuery} {row : Candidate}
    (h : row ∈ candidatesOf cg query) :
    row.node ∈ cg.nodes ∧ ∀ e ∈ cg.edges, CodeGraph.refersTo row.node.id e = false :=
  mem_getUnreferencedNodes (List.mem_of_mem_take h)

variable (cg) in
theorem nodup_candidatesOf (query : DeadCodeQuery) :
    ((candidatesOf cg query).map (·.node.id)).Nodup := by
  rw [candidatesOf, List.map_take]
  exact (nodup_getUnreferencedNodes _ _).sublist (List.take_sublist _ _)

variable (cg) in
theorem ranked_accounted (query : DeadCodeQuery) :
    ∃ out nested kept, Accounted (candidatesOf cg query)
      (ranked platform cg projectSource query).1 (ranked platform cg projectSource query).2
      out nested kept := by
  have hstored : ∀ row ∈ candidatesOf cg query, row.node ∈ cg.nodes :=
    fun row hrow => (candidatesOf_stored hrow).1
  have hids := nodup_candidatesOf cg query
  rw [ranked]
  generalize candidatesOf cg query = candidates at hstored hids ⊢
  obtain ⟨out₁, h₁⟩ := reject_sifted (cheapReason_ne_nested platform
    { tests := query.includeTests, generated := query.includeGenerated,
      exported := query.includeExported }
    (if query.includeExported then []
      else cg.getLanguagesWithExports (candidates.map (·.node.language)))) candidates emptyLedger
  dsimp only
  generalize reject candidates emptyLedger _ = r₁ at h₁ ⊢
  obtain ⟨rows₁, ledger₁⟩ := r₁
  dsimp only at h₁ ⊢
  have hcontainers := fun id owner => @candidateContainers_spec cg rows₁ id owner
  generalize candidateContainers cg rows₁ = containers at hcontainers ⊢
  have hislands : ∀ row : Candidate,
      (if row.node.filePath ∈ unreachedFiles cg rows₁ then some Exclusion.unreachableFile
        else none) ≠ some .nested := by
    intro row
    split <;> simp
  obtain ⟨out₂, h₂⟩ := reject_sifted hislands rows₁ ledger₁
  generalize reject rows₁ ledger₁ _ = r₂ at h₂ ⊢
  obtain ⟨rows₂, ledger₂⟩ := r₂
  dsimp only at h₂ ⊢
  obtain ⟨out₃, h₃⟩ := reject_sifted (graphReason_ne_nested
    ((cg.getOutgoingEdgesFrom (rows₁.map (·.node.id)) [.decorates]).map (·.source))
    (overridingCandidates cg rows₁ containers)
    (cg.getUnresolvedNamesAmong (rows₂.map (·.node.name)))
    (cg.getAmbiguousReferencedNames (rows₂.map (·.node.name))) containers) rows₂ ledger₂
  generalize reject rows₂ ledger₂ _ = r₃ at h₃ ⊢
  obtain ⟨rows₃, ledger₃⟩ := r₃
  dsimp only at h₃ ⊢
  obtain ⟨out₄, h₄⟩ := corroborateWith_sifted platform cg (query.sourceReader projectSource)
    rows₃ ledger₃
  generalize corroborateWith platform cg (query.sourceReader projectSource) rows₃ ledger₃ = r₄
    at h₄ ⊢
  obtain ⟨rows₄, ledger₄⟩ := r₄
  dsimp only at h₄ ⊢
  have h := ((h₁.trans h₂).trans h₃).trans h₄
  have hrows : ∀ row ∈ rows₄, row.node ∈ cg.nodes := fun row hrow => hstored row (h.mem hrow)
  obtain ⟨nested, kept, hassembled⟩ := assemble_regrouped platform ledger₄ (h.nodup hids)
    (fun row hrow owner howner => owner_kept hcontainers
      (fun row hrow => hstored row (h₁.mem hrow)) hrows howner)
  refine ⟨_, nested, kept, ?_, h.reasons, hassembled.ranked, hassembled.members, ?_⟩
  · exact h.parts.trans (hassembled.parts.append_left _)
  · intro reason
    rw [hassembled.counts, h.counts, emptyLedger, Nat.zero_add]

theorem Accounted.length {candidates : List Candidate} {entries : List DeadCodeEntry}
    {ledger : Ledger} {out : List (Candidate × Exclusion)} {nested kept : List Candidate}
    (h : Accounted candidates entries ledger out nested kept) :
    candidates.length = entries.length + ledger.sum := by
  have hout : out.length =
      (Exclusion.all.map fun reason => out.countP fun o => o.2 = reason).sum := by
    clear h
    induction out with
    | nil => rfl
    | cons o out ih =>
        have hone : ∀ reason : Exclusion,
            (Exclusion.all.map fun r => if decide (reason = r) = true then 1 else 0).sum = 1 := by
          intro reason
          cases reason <;> rfl
        simp only [List.countP_cons, List.sum_map_add, hone, List.length_cons, ← ih]
  have hnested :
      (Exclusion.all.map fun reason => if reason = .nested then nested.length else 0).sum =
        nested.length := by
    simp [Exclusion.all]
  have hsum : ledger.sum = out.length + nested.length := by
    rw [Ledger.sum, hout, ← hnested, ← List.sum_map_add]
    exact congrArg List.sum (List.map_congr_left fun reason _ => h.counts reason)
  have hparts := h.parts.length_eq
  have hranked := h.ranked.length_eq
  simp only [List.length_append, List.length_map] at hparts hranked
  omega

/-- A member is listed under one entry only. -/
theorem Accounted.unique_entry {candidates : List Candidate} {entries : List DeadCodeEntry}
    {ledger : Ledger} {out : List (Candidate × Exclusion)} {nested kept : List Candidate}
    (h : Accounted candidates entries ledger out nested kept)
    (hids : (candidates.map (·.node.id)).Nodup) {row : Candidate} (hrow : row ∈ nested) :
    ∃ entry ∈ entries, row.node ∈ entry.members ∧
      ∀ e ∈ entries, row.node ∈ e.members → e = entry := by
  have hnested : (nested.map (·.node)).Nodup := by
    have hall := (h.parts.map (·.node.id)).nodup_iff.mp hids
    rw [List.map_append, List.map_append] at hall
    have hnested := (List.nodup_append.mp (List.nodup_append.mp hall).2.1).1
    apply List.Nodup.of_map (fun n : Symbol => n.id)
    rw [List.map_map]
    exact hnested
  obtain ⟨-, hdisjoint⟩ := List.nodup_flatMap.mp (h.members.nodup_iff.mpr hnested)
  obtain ⟨entry, hentry, hmember⟩ := List.mem_flatMap.mp
    (h.members.mem_iff.mpr (List.mem_map_of_mem hrow))
  refine ⟨entry, hentry, hmember, ?_⟩
  intro e he hother
  by_contra hne
  have hsymm : Std.Symm (Function.onFun List.Disjoint fun x : DeadCodeEntry => x.members) :=
    ⟨fun _ _ hd _ ha hb => hd hb ha⟩
  exact hdisjoint.forall he hentry hne hother hmember

/-- Rows of the report, entries and members, are candidates. -/
theorem Accounted.candidate_of_entry {candidates : List Candidate}
    {entries : List DeadCodeEntry} {ledger : Ledger} {out : List (Candidate × Exclusion)}
    {nested kept : List Candidate} (h : Accounted candidates entries ledger out nested kept)
    {entry : DeadCodeEntry} (hentry : entry ∈ entries) {n : Symbol}
    (hn : n = entry.node ∨ n ∈ entry.members) : ∃ row ∈ candidates, row.node = n := by
  rcases hn with rfl | hn
  · obtain ⟨row, hrow, hnode⟩ := List.mem_map.mp
      (h.ranked.mem_iff.mp (List.mem_map_of_mem hentry))
    exact ⟨row, h.parts.mem_iff.mpr (by simp [hrow]), hnode⟩
  · obtain ⟨row, hrow, hnode⟩ := List.mem_map.mp
      (h.members.mem_iff.mp (List.mem_flatMap.mpr ⟨entry, hentry, hn⟩))
    exact ⟨row, h.parts.mem_iff.mpr (by simp [hrow]), hnode⟩

/-- The report accounts for every candidate once: under one counter, as one ranked entry, or among
the members of exactly one; and nothing it lists is referred to from another node. The list of
entries is the ranking cut to the limit. -/
theorem buildDeadCodeReport_conserves (platform : Platform) (cg : CodeGraph)
    (projectSource : String → Option String) (query : DeadCodeQuery) :
    let report := buildDeadCodeReport platform cg projectSource query
    let candidates := candidatesOf cg query
    ∃ entries out nested kept,
      report.entries = entries.take query.entryLimit ∧ report.total = entries.length ∧
      report.candidates = candidates.length ∧
      report.candidates = report.total + report.excluded.sum ∧
      (candidates.map (·.node.id)).Nodup ∧
      Accounted candidates entries report.excluded out nested kept ∧
      (∀ row ∈ nested, ∃ entry ∈ entries, row.node ∈ entry.members ∧
        ∀ e ∈ entries, row.node ∈ e.members → e = entry) ∧
      ∀ entry ∈ entries, ∀ n, n = entry.node ∨ n ∈ entry.members →
        ∀ e ∈ cg.edges, e.target = n.id → e.kind ≠ .contains → e.source = n.id := by
  intro report candidates
  obtain ⟨out, nested, kept, h⟩ := ranked_accounted cg platform projectSource query
  have hids := nodup_candidatesOf cg query
  refine ⟨_, out, nested, kept, rfl, rfl, rfl, h.length, hids, h,
    fun row hrow => h.unique_entry hids hrow, ?_⟩
  intro entry hentry n hn e he htarget hkind
  obtain ⟨row, hrow, rfl⟩ := h.candidate_of_entry hentry hn
  have hfree := (candidatesOf_stored hrow).2 e he
  by_contra hsource
  rw [CodeGraph.refersTo] at hfree
  simp [htarget, hkind, hsource] at hfree

end Report

end AfyxGraph.Graph.DeadCode
