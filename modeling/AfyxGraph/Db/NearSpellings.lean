import AfyxGraph.Db.SearchFilters

/-! # The nearest spellings come first

The sweep answers the rows of the names within the bound. A name is passed over only for names
that are no farther from the query, or for the cap on the names that are looked up.
-/

namespace AfyxGraph.Db.Search

open AfyxGraph.Core AfyxGraph.Extraction AfyxGraph.Search

variable {platform : Platform} {index : SearchIndex} {filters : CandidateFilters} {limit : Nat}

/-! ## What the sweep promises -/

def spelledBound (platform : Platform) (text : Text) : Nat :=
  if (Runtime.codeUnits (platform.toLowerCase text)).length ≤ 4 then 1 else 2

/-- How far the sweep finds a name from the query: over the bound where it gives up. -/
def spelledDist (platform : Platform) (text : Text) (name : String) : Nat :=
  boundedEditDistance (Runtime.codeUnits (platform.toLowerCase name.toList))
    (Runtime.codeUnits (platform.toLowerCase text)) (spelledBound platform text)

/-- The near names with their distances, nearest first. -/
def nearNames (platform : Platform) (index : SearchIndex) (text : Text) : List (String × Nat) :=
  ((index.allNodeNames.map fun name => (name, spelledDist platform text name)).filter
    (·.2 ≤ spelledBound platform text)).mergeSort fun c d => c.2 ≤ d.2

/-- Everything that is looked up of a name is among the results. -/
def Listed (index : SearchIndex) (filters : CandidateFilters) (results : List SearchResult)
    (name : String) : Prop :=
  ∀ node ∈ index.exactSpelling filters name 5, node.id ∈ results.map (·.node.id)

structure NearestFirst (platform : Platform) (index : SearchIndex) (filters : CandidateFilters)
    (text : Text) (limit : Nat) (results : List SearchResult) : Prop where
  size : results.length ≤ limit
  rows : Candidates index filters (nodesOf results)
  near : ∀ r ∈ results, spelledDist platform text r.node.name ≤ spelledBound platform text ∧
    r.score = 1 / (1 + spelledDist platform text r.node.name)
  order : results.Pairwise fun r s =>
    spelledDist platform text r.node.name ≤ spelledDist platform text s.node.name
  nearest : ∀ r ∈ results, ∀ name ∈ index.allNodeNames,
    spelledDist platform text name < spelledDist platform text r.node.name →
      Listed index filters results name
  full : results.length < limit →
    (nearNames platform index text).length ≤ max (limit * 2) 50 →
    ∀ name ∈ index.allNodeNames, spelledDist platform text name ≤ spelledBound platform text →
      Listed index filters results name

/-! ## One name -/

theorem pushSpelled_append (score : Rat) {results : List SearchResult} (nodes : List Node)
    (h : results.length < limit) :
    ∃ more, pushSpelled limit score results nodes = results ++ more ∧
      (∀ r ∈ more, r.node ∈ nodes ∧ r.score = score) ∧ (results ++ more).length ≤ limit ∧
      ((results ++ more).length < limit →
        ∀ node ∈ nodes, node.id ∈ (results ++ more).map (·.node.id)) := by
  induction nodes generalizing results with
  | nil => exact ⟨[], by simp [pushSpelled], by simp, by simpa using h.le, by simp⟩
  | cons node nodes ih =>
      rw [pushSpelled]
      split
      · rename_i hseen
        obtain ⟨more, heq, hmore, hsize, hall⟩ := ih h
        refine ⟨more, heq, fun r hr => ?_, hsize, fun hroom => ?_⟩
        · exact ⟨List.mem_cons_of_mem _ (hmore r hr).1, (hmore r hr).2⟩
        · refine List.forall_mem_cons.mpr ⟨?_, hall hroom⟩
          rw [List.map_append]
          exact List.mem_append_left _ hseen
      · have hlength : (results ++ [SearchResult.mk node score]).length = results.length + 1 := by
          simp
        split
        · exact ⟨[⟨node, score⟩], rfl, by simp, by omega, fun hroom => by omega⟩
        · obtain ⟨more, heq, hmore, hsize, hall⟩ := @ih (results ++ [⟨node, score⟩]) (by omega)
          rw [List.append_assoc, List.singleton_append] at heq hsize hall
          refine ⟨⟨node, score⟩ :: more, heq, ?_, hsize, fun hroom => ?_⟩
          · refine List.forall_mem_cons.mpr ⟨by simp, fun r hr => ?_⟩
            exact ⟨List.mem_cons_of_mem _ (hmore r hr).1, (hmore r hr).2⟩
          · refine List.forall_mem_cons.mpr ⟨?_, hall hroom⟩
            exact List.mem_map_of_mem (List.mem_append_right _ List.mem_cons_self)

theorem name_of_exactSpelling {name : String} {node : Node}
    (h : node ∈ index.exactSpelling filters name limit) : node.name = name := by
  have hkept := List.of_mem_filter (List.mem_of_mem_take h)
  exact of_decide_eq_true (Bool.and_eq_true_iff.mp hkept).1

/-! ## All names, in the order of their distances -/

/-- What the names add: of each, all its rows, or it comes after the limit is reached. -/
structure Collected (index : SearchIndex) (filters : CandidateFilters) (limit : Nat)
    (dist : String → Nat) (names : List (String × Nat)) (results more : List SearchResult) :
    Prop where
  size : (results ++ more).length ≤ limit
  named : ∀ r ∈ more, (r.node.name, dist r.node.name) ∈ names ∧
    r.score = 1 / (1 + dist r.node.name)
  order : more.Pairwise fun r s => dist r.node.name ≤ dist s.node.name
  left : ∀ c ∈ names, Listed index filters (results ++ more) c.1 ∨
    (results ++ more).length = limit ∧ ∀ r ∈ more, dist r.node.name ≤ c.2

theorem collectSpelled_append (index : SearchIndex) (filters : CandidateFilters)
    {dist : String → Nat} {names : List (String × Nat)} (hdist : ∀ c ∈ names, c.2 = dist c.1)
    (hsorted : names.Pairwise fun c d => c.2 ≤ d.2) (results : List SearchResult)
    (h : results.length ≤ limit) :
    ∃ more, collectSpelled index filters limit results names = results ++ more ∧
      Collected index filters limit dist names results more := by
  induction names generalizing results with
  | nil => exact ⟨[], by simp [collectSpelled], by simpa using h, by simp, .nil, by simp⟩
  | cons c names ih =>
      obtain ⟨name, d⟩ := c
      obtain ⟨hfirst, hrest⟩ := List.pairwise_cons.mp hsorted
      obtain rfl : d = dist name := hdist _ List.mem_cons_self
      rw [collectSpelled]
      split
      · have hreached : results.length = limit := by omega
        exact ⟨[], by simp, by simpa using h, by simp, .nil,
          fun _ _ => .inr ⟨by simpa using hreached, by simp⟩⟩
      · rename_i hroom
        obtain ⟨rows, heq, hrows, hsize, hall⟩ := pushSpelled_append (1 / (1 + dist name))
          (index.exactSpelling filters name 5) (Nat.lt_of_not_le hroom)
        have hname : ∀ r ∈ rows, r.node.name = name := fun r hr =>
          name_of_exactSpelling (hrows r hr).1
        obtain ⟨more, hmore, hcoll⟩ := ih
          (fun c hc => hdist c (List.mem_cons_of_mem _ hc)) hrest _ hsize
        have hlater : ∀ r ∈ more, dist name ≤ dist r.node.name := fun r hr =>
          hfirst _ (hcoll.named r hr).1
        rw [heq, hmore, List.append_assoc]
        refine ⟨rows ++ more, rfl, ?_⟩
        obtain ⟨hlimit, hnamed, horder, hleft⟩ := hcoll
        rw [List.append_assoc] at hlimit hleft
        refine ⟨hlimit, ?_, ?_, List.forall_mem_cons.mpr ⟨?_, fun c hc => ?_⟩⟩
        · intro r hr
          rcases List.mem_append.mp hr with hr | hr
          · rw [hname r hr]
            exact ⟨List.mem_cons_self, (hrows r hr).2⟩
          · exact ⟨List.mem_cons_of_mem _ (hnamed r hr).1, (hnamed r hr).2⟩
        · refine List.pairwise_append.mpr ⟨?_, horder, fun r hr s hs => ?_⟩
          · refine List.pairwise_of_forall_mem_list fun r hr s hs => ?_
            rw [hname r hr, hname s hs]
          · rw [hname r hr]
            exact hlater s hs
        · rcases Nat.lt_or_eq_of_le hsize with hless | hreached
          · refine .inl fun node hnode => ?_
            rw [← List.append_assoc, List.map_append]
            exact List.mem_append_left _ (hall hless node hnode)
          · -- the rows of this name have reached the limit, and nothing comes after them
            rw [List.length_append] at hreached
            rw [List.length_append, List.length_append] at hlimit
            obtain rfl : more = [] := List.length_eq_zero_iff.mp (by omega)
            refine .inr ⟨by rw [List.append_nil, List.length_append]; omega, fun r hr => ?_⟩
            rw [List.append_nil] at hr
            rw [hname r hr]
        · refine (hleft c hc).imp_right fun hreached => ⟨hreached.1, fun r hr => ?_⟩
          rcases List.mem_append.mp hr with hr | hr
          · rw [hname r hr]
            exact hfirst c hc
          · exact hreached.2 r hr

/-! ## The sweep -/

theorem pairwise_nearNames (text : Text) :
    (nearNames platform index text).Pairwise fun c d => c.2 ≤ d.2 := by
  refine (List.pairwise_mergeSort ?_ ?_ _).imp of_decide_eq_true
  · intro c d e hcd hde
    exact decide_eq_true ((of_decide_eq_true hcd).trans (of_decide_eq_true hde))
  · intro c d
    simpa using Nat.le_total c.2 d.2

theorem mem_nearNames {text : Text} {name : String} {d : Nat} :
    (name, d) ∈ nearNames platform index text ↔
      (name ∈ index.allNodeNames ∧ spelledDist platform text name = d) ∧
        d ≤ spelledBound platform text := by
  simp [nearNames, List.mem_mergeSort]

/-- Whatever the store, the query, the filters and the limit are. -/
theorem searchNodesFuzzy_nearestFirst (platform : Platform) (index : SearchIndex) (text : Text)
    (filters : CandidateFilters) (limit : Nat) :
    NearestFirst platform index filters text limit
      (searchNodesFuzzy platform index text filters limit) := by
  let cap := max (limit * 2) 50
  have hnames := List.take_append_drop cap (nearNames platform index text)
  have horder := @pairwise_nearNames platform index text
  rw [← hnames] at horder
  obtain ⟨hcapped, -, hcut⟩ := List.pairwise_append.mp horder
  obtain ⟨results, heq, hcoll⟩ := collectSpelled_append index filters
    (fun c hc => (mem_nearNames.mp (List.mem_of_mem_take hc)).1.2.symm) hcapped []
    (Nat.zero_le limit)
  have hrun : searchNodesFuzzy platform index text filters limit = results := heq
  rw [hrun]
  refine ⟨hcoll.size, hrun ▸ candidates_collectSpelled _ .nil, fun r hr => ?_, hcoll.order, ?_, ?_⟩
  · obtain ⟨hnamed, hscore⟩ := hcoll.named r hr
    exact ⟨(mem_nearNames.mp (List.mem_of_mem_take hnamed)).2, hscore⟩
  · intro r hr name hname hnearer
    have hnamed := (hcoll.named r hr).1
    have hbound := (mem_nearNames.mp (List.mem_of_mem_take hnamed)).2
    have hin := mem_nearNames.mpr ⟨⟨hname, rfl⟩, hnearer.le.trans hbound⟩
    rw [← hnames] at hin
    rcases List.mem_append.mp hin with hin | hin
    · exact (hcoll.left _ hin).resolve_right fun h => absurd (h.2 r hr) (Nat.not_le_of_lt hnearer)
    · exact absurd (hcut _ hnamed _ hin) (Nat.not_le_of_lt hnearer)
  · intro hroom hfew name hname hnear
    have hin := mem_nearNames.mpr ⟨⟨hname, rfl⟩, hnear⟩
    rw [← List.take_of_length_le hfew] at hin
    exact (hcoll.left _ hin).resolve_right fun h => absurd h.1 hroom.ne

end AfyxGraph.Db.Search
