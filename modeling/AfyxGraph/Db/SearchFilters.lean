import AfyxGraph.Db.SearchReader
import Mathlib.Data.List.Dedup
import Mathlib.Data.List.Infix

/-! # Filters of a search compose

Every source of candidates answers rows of the table that pass the combined filters, each row
once. The combined filter of a list of the options and a list of the query lets through what
is in either of them.
-/

namespace AfyxGraph.Db.Search

open AfyxGraph.Core AfyxGraph.Extraction AfyxGraph.Search

variable {platform : Platform} {index : SearchIndex} {filters : CandidateFilters}
  {options : SearchOptions} {query : Text}

/-! ## The sources -/

/-- Rows that pass the filters, each once. -/
structure Candidates (index : SearchIndex) (filters : CandidateFilters) (nodes : List Node) :
    Prop where
  once : (nodes.map (·.id)).Nodup
  stored : ∀ node ∈ nodes, node ∈ index.table.rows
  filtered : ∀ node ∈ nodes, filterClause filters node = true

def nodesOf (results : List SearchResult) : List Node := results.map (·.node)

namespace Candidates

theorem nil : Candidates index filters [] where
  once := List.nodup_nil
  stored _ hnode := absurd hnode List.not_mem_nil
  filtered _ hnode := absurd hnode List.not_mem_nil

theorem sublist {nodes more : List Node} (h : Candidates index filters more)
    (hsub : nodes.Sublist more) : Candidates index filters nodes where
  once := h.once.sublist (hsub.map _)
  stored node hnode := h.stored node (hsub.subset hnode)
  filtered node hnode := h.filtered node (hsub.subset hnode)

theorem perm {nodes more : List Node} (h : Candidates index filters more)
    (hperm : nodes.Perm more) : Candidates index filters nodes where
  once := (hperm.map _).nodup_iff.mpr h.once
  stored node hnode := h.stored node (hperm.subset hnode)
  filtered node hnode := h.filtered node (hperm.subset hnode)

/-- The rows of a `WHERE` clause. -/
theorem of_filter {keep : Node → Bool}
    (hkeep : ∀ node ∈ index.table.rows, keep node = true → filterClause filters node = true) :
    Candidates index filters (index.table.rows.filter keep) where
  once := index.table.ids.sublist (List.filter_sublist.map _)
  stored _ hnode := List.mem_of_mem_filter hnode
  filtered node hnode := hkeep node (List.mem_of_mem_filter hnode) (List.mem_filter.mp hnode).2

theorem append {nodes : List Node} {node : Node} (h : Candidates index filters nodes)
    (hstored : node ∈ index.table.rows) (hfiltered : filterClause filters node = true)
    (hnew : node.id ∉ nodes.map (·.id)) : Candidates index filters (nodes ++ [node]) where
  once := by
    rw [List.map_append]
    refine List.nodup_append.mpr ⟨h.once, List.nodup_singleton _, ?_⟩
    rintro id hid _ hid' rfl
    have heq : id = node.id := List.mem_singleton.mp hid'
    exact hnew (heq ▸ hid)
  stored other hother := by
    rcases List.mem_append.mp hother with hother | hother
    · exact h.stored other hother
    · exact List.mem_singleton.mp hother ▸ hstored
  filtered other hother := by
    rcases List.mem_append.mp hother with hother | hother
    · exact h.filtered other hother
    · exact List.mem_singleton.mp hother ▸ hfiltered

end Candidates

theorem candidates_all (limit : Nat) :
    Candidates index filters (nodesOf (index.all filters limit)) := by
  have hrows : Candidates index filters (index.table.rows.filter (filterClause filters)) :=
    .of_filter fun _ _ h => h
  have hsame : nodesOf (index.all filters limit) =
      ((index.table.rows.filter (filterClause filters)).mergeSort
        fun a b => a.name ≤ b.name).take limit := by
    simp [nodesOf, SearchIndex.all, Function.comp_def]
  rw [hsame]
  exact (hrows.perm (List.mergeSort_perm _ _)).sublist (List.take_sublist _ _)

theorem candidates_exactTerm (term : Text) (limit : Nat) :
    Candidates index filters (index.exactTerm filters term limit) :=
  (Candidates.of_filter fun _ _ h => (Bool.and_eq_true_iff.mp h).2).sublist (List.take_sublist _ _)

theorem candidates_exactSpelling (name : String) (limit : Nat) :
    Candidates index filters (index.exactSpelling filters name limit) :=
  (Candidates.of_filter fun _ _ h => (Bool.and_eq_true_iff.mp h).2).sublist (List.take_sublist _ _)

/-- Rows of a `WHERE` clause that are scored, ordered, and cut to a page. -/
theorem candidates_page {keep : Node → Bool} {score : Node → Rat}
    {order : SearchResult → SearchResult → Bool} (limit offset : Nat)
    (hkeep : ∀ node ∈ index.table.rows, keep node = true → filterClause filters node = true) :
    Candidates index filters (nodesOf ((((index.table.rows.filter keep).map fun node =>
      SearchResult.mk node (score node)).mergeSort order).drop offset |>.take limit)) := by
  have hrows : Candidates index filters (index.table.rows.filter keep) := .of_filter hkeep
  have hscored : nodesOf ((index.table.rows.filter keep).map fun node =>
      SearchResult.mk node (score node)) = index.table.rows.filter keep := by
    simp [nodesOf, Function.comp_def]
  rw [← hscored] at hrows
  have hsorted := hrows.perm (((List.mergeSort_perm _ order).map SearchResult.node))
  exact hsorted.sublist (((List.take_sublist _ _).trans (List.drop_sublist _ _)).map _)

theorem candidates_prefixText (text : Text) (limit offset : Nat) :
    Candidates index filters (nodesOf (index.prefixText filters text limit offset)) := by
  simp only [SearchIndex.prefixText]
  split
  · exact .nil
  · split
    · exact .nil
    · rename_i bm25 _
      have hpage := @candidates_page index filters
        (fun node => (bm25 node).isSome && filterClause filters node)
        (fun node => (bm25 node).getD 0) (fun a b => a.score ≤ b.score) limit offset
        fun _ _ h => (Bool.and_eq_true_iff.mp h).2
      simpa [nodesOf, Function.comp_def] using hpage

theorem candidates_substringText (text : Text) (limit offset : Nat) :
    Candidates index filters (nodesOf (index.substringText filters text limit offset)) :=
  candidates_page limit offset fun _ _ h => (Bool.and_eq_true_iff.mp h).2

theorem candidates_pushSpelled {limit : Nat} {score : Rat} {results : List SearchResult}
    {nodes : List Node} (h : Candidates index filters (nodesOf results))
    (hnodes : Candidates index filters nodes) :
    Candidates index filters (nodesOf (pushSpelled limit score results nodes)) := by
  induction nodes generalizing results with
  | nil => exact h
  | cons node nodes ih =>
      have hrest := hnodes.sublist (List.sublist_cons_self node nodes)
      rw [pushSpelled]
      split
      · exact ih h hrest
      · rename_i hnew
        have hpushed : Candidates index filters (nodesOf (results ++ [⟨node, score⟩])) := by
          rw [nodesOf, List.map_append]
          refine h.append (hnodes.stored node (List.mem_cons_self ..))
            (hnodes.filtered node (List.mem_cons_self ..)) ?_
          simpa [nodesOf, Function.comp_def] using hnew
        split
        · exact hpushed
        · exact ih hpushed hrest

theorem candidates_collectSpelled {limit : Nat} {results : List SearchResult}
    (names : List (String × Nat)) (h : Candidates index filters (nodesOf results)) :
    Candidates index filters (nodesOf (collectSpelled index filters limit results names)) := by
  induction names generalizing results with
  | nil => exact h
  | cons candidate names ih =>
      rw [collectSpelled]
      split
      · exact h
      · exact ih (candidates_pushSpelled h (candidates_exactSpelling ..))

theorem candidates_pushExact {score : Rat} {results : List SearchResult} {nodes : List Node}
    (h : Candidates index filters (nodesOf results)) (hnodes : Candidates index filters nodes) :
    Candidates index filters (nodesOf (pushExact score results nodes)) := by
  induction nodes generalizing results with
  | nil => exact h
  | cons node nodes ih =>
      have hrest := hnodes.sublist (List.sublist_cons_self node nodes)
      rw [pushExact]
      split
      · exact ih h hrest
      · rename_i hnew
        refine ih ?_ hrest
        rw [nodesOf, List.map_append]
        refine h.append (hnodes.stored node (List.mem_cons_self ..))
          (hnodes.filtered node (List.mem_cons_self ..)) ?_
        simpa [nodesOf, Function.comp_def] using hnew

theorem candidates_foldInExactNames {results : List SearchResult} (query : Text)
    (h : Candidates index filters (nodesOf results)) :
    Candidates index filters (nodesOf (foldInExactNames index results query filters)) := by
  have hterms : ∀ (terms : List Text) (found : List SearchResult),
      Candidates index filters (nodesOf found) →
        Candidates index filters (nodesOf (terms.foldl (fun found term =>
          pushExact (maxScore results) found (index.exactTerm filters term 20)) found)) := by
    intro terms
    induction terms with
    | nil => exact fun _ hfound => hfound
    | cons term terms ih =>
        intro found hfound
        exact ih _ (candidates_pushExact hfound (candidates_exactTerm term 20))
  exact hterms _ results h

theorem candidates_rescore {results : List SearchResult} (scoringQuery : Text) (limit : Nat)
    (h : Candidates index filters (nodesOf results)) :
    Candidates index filters (nodesOf (rescore platform results scoringQuery limit)) := by
  simp only [rescore]
  have hscored : nodesOf (results.map fun r =>
      { r with score := r.score + platform.bonus r.node scoringQuery }) = nodesOf results := by
    simp [nodesOf, Function.comp_def]
  rw [← hscored] at h
  exact (h.perm ((List.mergeSort_perm _ _).map _)).sublist ((List.take_sublist _ _).map _)

theorem candidates_candidates (text : Text) (limit offset : Nat) :
    Candidates index filters (nodesOf (candidates platform index text filters limit offset)) := by
  have hfirst : Candidates index filters (nodesOf (if text = [] then index.all filters (limit * 5)
      else if index.ftsAvailable then searchNodesFTS index text filters limit offset else [])) := by
    split
    · exact candidates_all _
    · split
      · exact candidates_prefixText ..
      · exact .nil
  simp only [candidates]
  generalize (if text = [] then index.all filters (limit * 5)
    else if index.ftsAvailable then searchNodesFTS index text filters limit offset else []) =
      first at hfirst
  have hsecond : Candidates index filters (nodesOf (if first.isEmpty && 2 ≤ length16 text then
      index.substringText filters text limit offset else first)) := by
    split
    · exact candidates_substringText ..
    · exact hfirst
  generalize (if first.isEmpty && decide (2 ≤ length16 text) then
      index.substringText filters text limit offset else first) = second at hsecond
  split
  · exact candidates_collectSpelled _ .nil
  · exact hsecond

/-! ## Trimming -/

/-- The candidates of all sources. -/
def gathered (platform : Platform) (index : SearchIndex) (query : Text) (options : SearchOptions) :
    List SearchResult :=
  let parsed := parseQuery platform.toLowerCase query
  let filters := combinedFilters parsed options
  let results := candidates platform index parsed.text filters options.limitOf options.offsetOf
  if results ≠ [] ∧ query ≠ [] then foldInExactNames index results query filters else results

/-- The results before the filters on paths and names. -/
def ranked (platform : Platform) (index : SearchIndex) (query : Text) (options : SearchOptions) :
    List SearchResult :=
  let text := (parseQuery platform.toLowerCase query).text
  let results := gathered platform index query options
  if results ≠ [] ∧ (text ≠ [] ∨ query ≠ []) then
    rescore platform results (if text ≠ [] then text else query) options.limitOf
  else results

theorem searchNodes_eq : searchNodes platform index query options =
    ((ranked platform index query options).filter fun r =>
      containsAny platform (parseQuery platform.toLowerCase query).pathFilters
        r.node.filePath).filter fun r =>
          containsAny platform (parseQuery platform.toLowerCase query).nameFilters r.node.name := rfl

theorem candidates_gathered : Candidates index
    (combinedFilters (parseQuery platform.toLowerCase query) options)
    (nodesOf (gathered platform index query options)) := by
  simp only [gathered]
  split
  · exact candidates_foldInExactNames query (candidates_candidates _ _ _)
  · exact candidates_candidates _ _ _

theorem candidates_ranked : Candidates index
    (combinedFilters (parseQuery platform.toLowerCase query) options)
    (nodesOf (ranked platform index query options)) := by
  simp only [ranked]
  split
  · exact candidates_rescore _ _ candidates_gathered
  · exact candidates_gathered

theorem length_rescore_le (results : List SearchResult) (scoringQuery : Text) (limit : Nat) :
    (rescore platform results scoringQuery limit).length ≤ limit := by
  simp only [rescore, List.length_take]
  exact Nat.min_le_left _ _

/-- Whatever is searched for is trimmed. -/
theorem length_ranked_le (hquery : query ≠ []) :
    (ranked platform index query options).length ≤ options.limitOf := by
  simp only [ranked]
  split
  · exact length_rescore_le _ _ _
  · rename_i hnone
    simp only [ne_eq, hquery, not_false_eq_true, or_true, and_true, not_not] at hnone
    rw [hnone]
    exact Nat.zero_le _

/-! ## Composition -/

/-- The results meet every filter of the options and of the query; an empty list of the options
is no filter. -/
structure Narrowed (platform : Platform) (query : Text) (options : SearchOptions)
    (results : List SearchResult) : Prop where
  kinds : ∀ r ∈ results, ∀ ks, options.kinds = some ks → ks ≠ [] → r.node.kind ∈ ks
  queryKinds : ∀ r ∈ results, (parseQuery platform.toLowerCase query).kinds ≠ [] →
    r.node.kind ∈ (parseQuery platform.toLowerCase query).kinds
  languages : ∀ r ∈ results, ∀ ls, options.languages = some ls → ls ≠ [] → r.node.language ∈ ls
  queryLanguages : ∀ r ∈ results, (parseQuery platform.toLowerCase query).languages ≠ [] →
    r.node.language ∈ (parseQuery platform.toLowerCase query).languages
  path : ∀ r ∈ results, (parseQuery platform.toLowerCase query).pathFilters ≠ [] →
    ∃ part ∈ (parseQuery platform.toLowerCase query).pathFilters,
      platform.toLowerCase part <:+: platform.toLowerCase r.node.filePath.toList
  name : ∀ r ∈ results, (parseQuery platform.toLowerCase query).nameFilters ≠ [] →
    ∃ part ∈ (parseQuery platform.toLowerCase query).nameFilters,
      platform.toLowerCase part <:+: platform.toLowerCase r.node.name.toList
  distinct : (results.map (·.node.id)).Nodup
  limited : results.length ≤ options.limitOf

/-- Two lists that are both there name the same. -/
def Agree {α : Type} (given : Option (List α)) (asked : List α) : Prop :=
  ∀ xs, given = some xs → xs ≠ [] → asked ≠ [] → ∀ x, x ∈ xs ↔ x ∈ asked

/-- The free text can find something: the full-text expression has a term, or there is enough
text for a substring. -/
def Answerable (text : Text) : Prop := text = [] ∨ ftsExpression text ≠ [] ∨ 2 ≤ length16 text

/-- The query and the options ask for the same kinds and languages where both ask for any, and
the query is not empty; a search that finds nothing needs nothing. -/
def Composes (platform : Platform) (query : Text) (options : SearchOptions) : Prop :=
  options.limitOf = 0 ∨ ¬ Answerable (parseQuery platform.toLowerCase query).text ∨
    (query ≠ [] ∧ Agree options.kinds (parseQuery platform.toLowerCase query).kinds ∧
      Agree options.languages (parseQuery platform.toLowerCase query).languages)

theorem mem_of_listed_merged {α : Type} [DecidableEq α] {given : Option (List α)} {asked : List α}
    {x : α} (hagree : Agree given asked) (h : listed (merged given asked) x = true) :
    (∀ xs, given = some xs → xs ≠ [] → x ∈ xs) ∧ (asked ≠ [] → x ∈ asked) := by
  by_cases hasked : asked = []
  · refine ⟨fun xs hgiven hxs => ?_, fun hne => absurd hasked hne⟩
    simpa [merged, hasked, hgiven, listed, hxs] using h
  · have hmem : x ∈ given.getD [] ∨ x ∈ asked := by
      simpa [merged, hasked, listed, List.dedup_eq_nil] using h
    cases hgiven : given with
    | none =>
        rw [hgiven] at hmem
        exact ⟨nofun, fun _ => by simpa using hmem⟩
    | some xs =>
        rw [hgiven] at hmem
        by_cases hxs : xs = []
        · refine ⟨fun ys hys hne => ?_, fun _ => by simpa [hxs] using hmem⟩
          obtain rfl := Option.some.inj hys
          exact absurd hxs hne
        · have hsame := hagree xs hgiven hxs hasked x
          have hin : x ∈ asked := hmem.elim hsame.mp id
          refine ⟨fun ys hys _ => ?_, fun _ => hin⟩
          obtain rfl := Option.some.inj hys
          exact hsame.mpr hin

/-- Nothing is found by a text that cannot find anything. -/
theorem ranked_eq_nil
    (h : ¬ Answerable (parseQuery platform.toLowerCase query).text) :
    ranked platform index query options = [] := by
  simp only [Answerable, not_or, not_not] at h
  obtain ⟨htext, hexpression, hshort⟩ := h
  have hnone : candidates platform index (parseQuery platform.toLowerCase query).text
      (combinedFilters (parseQuery platform.toLowerCase query) options) options.limitOf
      options.offsetOf = [] := by
    have hlong : ¬ 3 ≤ length16 (parseQuery platform.toLowerCase query).text := by omega
    simp [candidates, htext, hshort, hlong, searchNodesFTS, SearchIndex.prefixText, hexpression]
  simp [ranked, gathered, hnone]

theorem ranked_of_limit (h : options.limitOf = 0) : ranked platform index query options = [] := by
  by_cases hquery : query = []
  · have hnone : candidates platform index (parseQuery platform.toLowerCase query).text
        (combinedFilters (parseQuery platform.toLowerCase query) options) options.limitOf
        options.offsetOf = [] := by
      have htext : (parseQuery platform.toLowerCase query).text = [] := by
        rw [hquery, parseQuery_nil]
      have hempty : length16 [] = 0 := rfl
      simp [candidates, htext, h, SearchIndex.all, hempty]
    simp [ranked, gathered, hnone]
  · have hle := @length_ranked_le platform index options query hquery
    rw [h] at hle
    exact List.length_eq_zero_iff.mp (Nat.le_zero.mp hle)

theorem narrowed_nil : Narrowed platform query options [] where
  kinds _ hr := absurd hr List.not_mem_nil
  queryKinds _ hr := absurd hr List.not_mem_nil
  languages _ hr := absurd hr List.not_mem_nil
  queryLanguages _ hr := absurd hr List.not_mem_nil
  path _ hr := absurd hr List.not_mem_nil
  name _ hr := absurd hr List.not_mem_nil
  distinct := List.nodup_nil
  limited := Nat.zero_le _

theorem exists_of_containsAny {filters : List Text} {text : String}
    (h : containsAny platform filters text = true) (hfilters : filters ≠ []) :
    ∃ part ∈ filters, platform.toLowerCase part <:+: platform.toLowerCase text.toList := by
  simpa [containsAny, hfilters, includes] using h

/-- Filters that agree are met by the results for every stored graph. -/
theorem narrowed_of_composes (h : Composes platform query options) :
    Narrowed platform query options (searchNodes platform index query options) := by
  have hnone : ranked platform index query options = [] →
      Narrowed platform query options (searchNodes platform index query options) := by
    intro hnone
    rw [searchNodes_eq, hnone]
    exact narrowed_nil
  rcases h with hlimit | htext | ⟨hquery, hkinds, hlanguages⟩
  · exact hnone (ranked_of_limit hlimit)
  · exact hnone (ranked_eq_nil htext)
  · have hranked := @candidates_ranked platform index options query
    have hmem : ∀ r ∈ searchNodes platform index query options,
        r ∈ ranked platform index query options := fun r hr =>
      List.mem_of_mem_filter (List.mem_of_mem_filter hr)
    have hpasses : ∀ r ∈ searchNodes platform index query options, filterClause
        (combinedFilters (parseQuery platform.toLowerCase query) options) r.node = true :=
      fun r hr => hranked.filtered r.node (List.mem_map_of_mem (hmem r hr))
    have hkind : ∀ r ∈ searchNodes platform index query options, _ := fun r hr =>
      mem_of_listed_merged hkinds (Bool.and_eq_true_iff.mp (hpasses r hr)).1
    have hlanguage : ∀ r ∈ searchNodes platform index query options, _ := fun r hr =>
      mem_of_listed_merged hlanguages (Bool.and_eq_true_iff.mp (hpasses r hr)).2
    refine ⟨fun r hr => (hkind r hr).1, fun r hr => (hkind r hr).2, fun r hr => (hlanguage r hr).1,
      fun r hr => (hlanguage r hr).2, fun r hr => ?_, fun r hr => ?_, ?_, ?_⟩
    · exact exists_of_containsAny (List.mem_filter.mp (List.mem_of_mem_filter hr)).2
    · exact exists_of_containsAny (List.mem_filter.mp hr).2
    · have honce := hranked.once
      rw [nodesOf, List.map_map] at honce
      exact honce.sublist ((List.filter_sublist.trans List.filter_sublist).map _)
    · exact Nat.le_trans ((List.filter_sublist.trans List.filter_sublist).length_le)
        (length_ranked_le hquery)

/-! ## Graphs that answer -/

theorem like_append_percent (t : Text) : like (t ++ ['%']) t = true := by
  induction t with
  | nil => rfl
  | cons c t ih =>
      simp only [List.cons_append, like]
      split
      · exact List.any_eq_true.mpr ⟨t, (List.mem_tails _ _).mpr (List.suffix_cons c t), ih⟩
      · simp [ih]

/-- A text contains itself, whatever wildcards it has. -/
theorem like_contains_self (t : Text) : like ('%' :: t ++ ['%']) t = true := by
  simp only [List.cons_append, like, if_true]
  exact List.any_eq_true.mpr ⟨t, (List.mem_tails _ _).mpr (List.suffix_refl t),
    like_append_percent t⟩

/-- Rows that differ in their ids only. -/
def copies (node : Node) (n : Nat) : NodeTable where
  rows := (List.range n).map fun i => { node with id := String.ofList (List.replicate i 'a') }
  ids := by
    rw [List.map_map]
    refine List.Nodup.map_on ?_ List.nodup_range
    intro i _ j _ h
    have hlength := congrArg String.length h
    simpa using hlength

/-- Copies of a node that match every full-text expression. -/
def answering (node : Node) (n : Nat) : SearchIndex where
  table := copies node n
  ftsAvailable := true
  fts _ := some fun _ => some 0

theorem exists_of_mem_copies {node row : Node} {n : Nat} (h : row ∈ (copies node n).rows) :
    ∃ id, row = { node with id } := by
  obtain ⟨i, -, rfl⟩ := List.mem_map.mp h
  exact ⟨_, rfl⟩

theorem length_copies (node : Node) (n : Nat) : (copies node n).rows.length = n := by
  simp [copies]

/-- A condition that does not read the id keeps all copies. -/
theorem filter_copies {node : Node} {n : Nat} {keep : Node → Bool}
    (h : ∀ id, keep { node with id } = true) :
    (copies node n).rows.filter keep = (copies node n).rows := by
  refine List.filter_eq_self.mpr fun row hrow => ?_
  obtain ⟨id, rfl⟩ := exists_of_mem_copies hrow
  exact h id

variable {node : Node} {n limit offset : Nat} {text : Text}

theorem length_all_answering (hclause : filterClause filters node = true) :
    ((answering node n).all filters limit).length = min limit n := by
  have hrows := @filter_copies node n (filterClause filters) fun _ => hclause
  simp [SearchIndex.all, answering, hrows, length_copies]

theorem length_prefixText_answering (hclause : filterClause filters node = true)
    (htext : ftsExpression text ≠ []) :
    ((answering node n).prefixText filters text limit offset).length = min limit (n - offset) := by
  have hrows := @filter_copies node n (fun row => filterClause filters row) fun _ => hclause
  simp [SearchIndex.prefixText, answering, htext, hrows, length_copies]

theorem length_substringText_answering (hclause : filterClause filters node = true)
    (hname : node.qualifiedName = String.ofList text) :
    ((answering node n).substringText filters text limit offset).length =
      min limit (n - offset) := by
  have hlike : like ('%' :: text ++ ['%']) node.qualifiedName.toList = true := by
    rw [hname, String.toList_ofList]
    exact like_contains_self text
  have hrows := @filter_copies node n (fun row =>
    (like ('%' :: text ++ ['%']) row.name.toList ||
      like ('%' :: text ++ ['%']) row.qualifiedName.toList ||
        like (text ++ ['%']) row.name.toList) && filterClause filters row) fun id => by
          simp only [hlike, Bool.or_true, Bool.true_or, Bool.true_and]
          exact hclause
  simp only [SearchIndex.substringText, answering, hrows]
  simp [length_copies]

theorem candidates_answering (hclause : filterClause filters node = true)
    (hname : node.qualifiedName = String.ofList text) (hlimit : 0 < limit) (hoffset : offset < n)
    (htext : Answerable text) :
    candidates platform (answering node n) text filters limit offset ≠ [] := by
  have hsome : ∀ {results : List SearchResult} {a b : Nat}, results.length = min a b → 0 < a →
      0 < b → results.isEmpty = false := by
    intro results a b hlength ha hb
    cases results with
    | nil =>
        simp only [List.length_nil] at hlength
        omega
    | cons r results => rfl
  have hne : ∀ {results : List SearchResult}, results.isEmpty = false → results ≠ [] := by
    intro results hresults hnil
    rw [hnil] at hresults
    cases hresults
  by_cases hempty : text = []
  · have hall := @hsome _ _ _ (@length_all_answering filters node n (limit * 5) hclause) (by omega)
      (by omega)
    simp only [candidates, if_pos hempty, hall, Bool.false_and, Bool.false_eq_true, if_false]
    exact hne hall
  · by_cases hexpression : ftsExpression text = []
    · have hlong : 2 ≤ length16 text := by
        rcases htext with htext | htext | htext
        · exact absurd htext hempty
        · exact absurd hexpression htext
        · exact htext
      have hfound := hsome (@length_substringText_answering filters node n limit offset text hclause
        hname) hlimit (by omega)
      have hnone : searchNodesFTS (answering node n) text filters limit offset = [] := by
        simp [searchNodesFTS, SearchIndex.prefixText, hexpression]
      have havailable : (answering node n).ftsAvailable = true := rfl
      simp only [candidates, if_neg hempty, havailable, if_true, hnone, List.isEmpty_nil,
        Bool.true_and, decide_eq_true hlong, hfound, Bool.false_and, Bool.false_eq_true, if_false]
      exact hne hfound
    · have hfound : (searchNodesFTS (answering node n) text filters limit offset).isEmpty = false :=
        hsome (@length_prefixText_answering filters node n (max (limit * 5) 100) offset text hclause
          hexpression) (by omega) (by omega)
      have havailable : (answering node n).ftsAvailable = true := rfl
      simp only [candidates, if_neg hempty, havailable, if_true, hfound, Bool.false_and,
        Bool.false_eq_true, if_false]
      exact hne hfound

/-! ## Results that are there -/

theorem length_pushExact_ge (score : Rat) (results : List SearchResult) (nodes : List Node) :
    results.length ≤ (pushExact score results nodes).length := by
  induction nodes generalizing results with
  | nil => exact Nat.le_refl _
  | cons node nodes ih =>
      rw [pushExact]
      split
      · exact ih results
      · refine Nat.le_trans ?_ (ih _)
        simp

theorem foldInExactNames_ne_nil {results : List SearchResult} (h : results ≠ []) :
    foldInExactNames index results query filters ≠ [] := by
  have hterms : ∀ (terms : List Text) (found : List SearchResult), found ≠ [] →
      terms.foldl (fun found term =>
        pushExact (maxScore results) found (index.exactTerm filters term 20)) found ≠ [] := by
    intro terms
    induction terms with
    | nil => exact fun _ hfound => hfound
    | cons term terms ih =>
        intro found hfound
        refine ih _ (List.length_pos_iff.mp ?_)
        exact Nat.lt_of_lt_of_le (List.length_pos_iff.mpr hfound) (length_pushExact_ge ..)
  exact hterms _ results h

theorem rescore_ne_nil {results : List SearchResult} (h : results ≠ []) (hlimit : 0 < limit)
    (scoringQuery : Text) : rescore platform results scoringQuery limit ≠ [] := by
  have hlength := List.length_pos_iff.mpr h
  apply List.length_pos_iff.mp
  simp only [rescore, List.length_take, List.length_mergeSort, List.length_map]
  omega

theorem ranked_ne_nil (hlimit : 0 < options.limitOf)
    (h : candidates platform index (parseQuery platform.toLowerCase query).text
      (combinedFilters (parseQuery platform.toLowerCase query) options) options.limitOf
        options.offsetOf ≠ []) : ranked platform index query options ≠ [] := by
  have hgathered : gathered platform index query options ≠ [] := by
    simp only [gathered]
    split
    · exact foldInExactNames_ne_nil h
    · exact h
  simp only [ranked]
  split
  · exact rescore_ne_nil hgathered hlimit _
  · exact hgathered

/-- The first alternative of a filter is found in itself. -/
theorem containsAny_headD (parts : List Text) :
    containsAny platform parts (String.ofList (parts.headD [])) = true := by
  cases parts with
  | nil => rfl
  | cons part parts =>
      simp only [containsAny, List.headD_cons, String.toList_ofList, Bool.or_eq_true,
        List.any_eq_true]
      exact .inr ⟨part, List.mem_cons_self .., by simp [includes]⟩

/-- A node of a kind and a language that everything else in a query lets through. -/
def passing (platform : Platform) (query : Text) (kind : NodeKind) (language : Language) : Node where
  id := ""
  kind := kind
  name := String.ofList ((parseQuery platform.toLowerCase query).nameFilters.headD [])
  qualifiedName := String.ofList (parseQuery platform.toLowerCase query).text
  filePath := String.ofList ((parseQuery platform.toLowerCase query).pathFilters.headD [])
  language := language
  startLine := 1

variable {kind : NodeKind} {language : Language}

/-- The filters on paths and names take nothing away from copies of the node. -/
theorem searchNodes_answering :
    searchNodes platform (answering (passing platform query kind language) n) query options =
      ranked platform (answering (passing platform query kind language) n) query options := by
  have hrow : ∀ r ∈ ranked platform (answering (passing platform query kind language) n) query
      options, ∃ id, r.node = { passing platform query kind language with id } := fun r hr =>
    exists_of_mem_copies (candidates_ranked.stored r.node (List.mem_map_of_mem hr))
  rw [searchNodes_eq, List.filter_filter]
  refine List.filter_eq_self.mpr fun r hr => ?_
  obtain ⟨id, hnode⟩ := hrow r hr
  rw [hnode, Bool.and_eq_true]
  exact ⟨containsAny_headD _, containsAny_headD _⟩

/-- A kind and a language that pass the combined filters are found. -/
theorem exists_result (hlimit : 0 < options.limitOf)
    (htext : Answerable (parseQuery platform.toLowerCase query).text)
    (hkind : listed (merged options.kinds (parseQuery platform.toLowerCase query).kinds) kind = true)
    (hlanguage : listed
      (merged options.languages (parseQuery platform.toLowerCase query).languages) language = true) :
    ∃ index, ∃ r ∈ searchNodes platform index query options,
      r.node.kind = kind ∧ r.node.language = language := by
  refine ⟨answering (passing platform query kind language) (options.offsetOf + 1), ?_⟩
  have hclause : filterClause (combinedFilters (parseQuery platform.toLowerCase query) options)
      (passing platform query kind language) = true := Bool.and_eq_true_iff.mpr ⟨hkind, hlanguage⟩
  have hfound := @candidates_answering platform _ _ (options.offsetOf + 1) options.limitOf
    options.offsetOf _ hclause rfl hlimit (Nat.lt_succ_self _) htext
  obtain ⟨r, hr⟩ := List.exists_mem_of_ne_nil _ (ranked_ne_nil hlimit hfound)
  refine ⟨r, searchNodes_answering ▸ hr, ?_⟩
  obtain ⟨id, hnode⟩ := exists_of_mem_copies
    (candidates_ranked.stored r.node (List.mem_map_of_mem hr))
  rw [hnode]
  exact ⟨rfl, rfl⟩

theorem exists_listed {α : Type} [DecidableEq α] (given : Option (List α)) (other : α) :
    ∃ x, listed given x = true := by
  cases given with
  | none => exact ⟨other, rfl⟩
  | some xs =>
      cases xs with
      | nil => exact ⟨other, rfl⟩
      | cons x xs => exact ⟨x, by simp [listed]⟩

/-- Lists that do not agree let something through that is not in both. -/
theorem exists_of_not_agree {α : Type} [DecidableEq α] {given : Option (List α)} {asked : List α}
    (h : ¬ Agree given asked) : ∃ x, listed (merged given asked) x = true ∧
      ¬ ((∀ xs, given = some xs → xs ≠ [] → x ∈ xs) ∧ (asked ≠ [] → x ∈ asked)) := by
  simp only [Agree, not_forall] at h
  obtain ⟨xs, rfl, hxs, hasked, x, hx⟩ := h
  have hmerged : merged (some xs) asked = some (xs ++ asked).dedup := by
    simp [merged, hasked]
  by_cases hmem : x ∈ xs
  · have hnot : x ∉ asked := fun hin => hx ⟨fun _ => hin, fun _ => hmem⟩
    exact ⟨x, by simp [hmerged, listed, hmem], fun hboth => hnot (hboth.2 hasked)⟩
  · have hin : x ∈ asked := by
      by_contra hnot
      exact hx ⟨fun hin => absurd hin hmem, fun hin => absurd hin hnot⟩
    exact ⟨x, by simp [hmerged, listed, hin], fun hboth => hmem (hboth.1 xs rfl hxs)⟩

/-- Without a query the limit is taken five times. -/
theorem length_searchNodes_nil (hlimit : 0 < options.limitOf)
    (hkind : listed options.kinds kind = true) (hlanguage : listed options.languages language = true) :
    (searchNodes platform (answering (passing platform [] kind language) (options.limitOf + 1)) []
      options).length = options.limitOf + 1 := by
  have hclause : filterClause (combinedFilters (parseQuery platform.toLowerCase []) options)
      (passing platform [] kind language) = true := Bool.and_eq_true_iff.mpr ⟨hkind, hlanguage⟩
  have hall := @length_all_answering _ _ (options.limitOf + 1) (options.limitOf * 5) hclause
  have hempty : length16 [] = 0 := rfl
  rw [searchNodes_answering]
  simp only [ranked, gathered, parseQuery_nil, candidates, ne_eq, not_true_eq_false, and_false,
    or_self, if_false, if_true, hempty]
  rw [parseQuery_nil] at hall
  simp [hall]
  omega

/-- A query and options that do not compose fail on some stored graph. -/
theorem composes_of_narrowed
    (h : ∀ index, Narrowed platform query options (searchNodes platform index query options)) :
    Composes platform query options := by
  by_cases hlimit : options.limitOf = 0
  · exact .inl hlimit
  by_cases htext : Answerable (parseQuery platform.toLowerCase query).text
  swap
  · exact .inr (.inl htext)
  have hpos : 0 < options.limitOf := Nat.pos_of_ne_zero hlimit
  refine .inr (.inr ⟨?_, ?_, ?_⟩)
  · rintro rfl
    obtain ⟨kind, hkind⟩ := exists_listed options.kinds .function
    obtain ⟨language, hlanguage⟩ := exists_listed options.languages .typescript
    have hlength := @length_searchNodes_nil platform options kind language hpos hkind hlanguage
    have hle := (h (answering (passing platform [] kind language) (options.limitOf + 1))).limited
    omega
  · by_contra hnot
    obtain ⟨kind, hkind, hout⟩ := exists_of_not_agree hnot
    obtain ⟨language, hlanguage⟩ := exists_listed
      (merged options.languages (parseQuery platform.toLowerCase query).languages) .typescript
    obtain ⟨index, r, hr, rfl, -⟩ := exists_result hpos htext hkind hlanguage
    exact hout ⟨(h index).kinds r hr, (h index).queryKinds r hr⟩
  · by_contra hnot
    obtain ⟨language, hlanguage, hout⟩ := exists_of_not_agree hnot
    obtain ⟨kind, hkind⟩ := exists_listed
      (merged options.kinds (parseQuery platform.toLowerCase query).kinds) .function
    obtain ⟨index, r, hr, -, rfl⟩ := exists_result hpos htext hkind hlanguage
    exact hout ⟨(h index).languages r hr, (h index).queryLanguages r hr⟩

/-- The filters of a query and of the options are all met, for every stored graph, exactly when
they agree where both are there. -/
theorem narrowed_iff_composes (platform : Platform) (query : Text) (options : SearchOptions) :
    (∀ index, Narrowed platform query options (searchNodes platform index query options)) ↔
      Composes platform query options :=
  ⟨composes_of_narrowed, fun h _ => narrowed_of_composes h⟩

def ascii : Platform where
  toLowerCase := lower
  bonus _ _ := 0

/-- A function and no class. -/
def oneFunction : NodeTable where
  rows := [⟨"f1", .function, "load", "load", "src/a.ts", .typescript, 1⟩]
  ids := by decide

/-- The options ask for classes and the query for functions. -/
theorem not_narrowed_kindsOfBoth :
    ¬ Narrowed ascii "kind:function".toList { kinds := some [.class] }
      (searchNodes ascii ⟨oneFunction, true, fun _ => none⟩ "kind:function".toList
        { kinds := some [.class] }) := by
  intro h
  have hkinds : (searchNodes ascii ⟨oneFunction, true, fun _ => none⟩ "kind:function".toList
      { kinds := some [.class] }).map (·.node.kind) = [.function] := by decide +kernel
  obtain ⟨r, hr, hkind⟩ := List.mem_map.mp (hkinds ▸ List.mem_singleton_self NodeKind.function)
  have hin := h.kinds r hr [.class] rfl (by decide)
  rw [hkind] at hin
  exact absurd hin (by decide)

end AfyxGraph.Db.Search
