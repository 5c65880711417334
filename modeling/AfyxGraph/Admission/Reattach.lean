import AfyxGraph.Admission.Loading

/-! # Incoming edges across a re-extraction

A node id contains the line, so an edit that moves lines gives every node below
it a new id, and `admitFile` must carry the edges of other files over. It looks the
new target up by kind and plain name. This module compares that with what the
edges pointed to: the kind and the qualified name.
-/

namespace AfyxGraph.Admission

open AfyxGraph.Core Extraction Store

/-! ## The property -/

/-- The rows of a file. -/
def fileNodes (t : Tables) (path : String) : List Node := t.nodes.filter fun n => n.filePath = path

/-- `n` is the one node of `S` that satisfies `p`. -/
def Only (S p : Node → Prop) (n : Node) : Prop := S n ∧ p n ∧ ∀ m, S m → p m → m = n

def SameSymbol (old n : Node) : Prop := n.kind = old.kind ∧ n.qualifiedName = old.qualifiedName

def SameName (old n : Node) : Prop := n.kind = old.kind ∧ n.name = old.name

/-- `e` is `incoming` with another target, as far as the claim on it goes. -/
def Carries (incoming : IncomingEdge) (e : Edge) : Prop :=
  e.source = incoming.edge.source ∧ e.kind = incoming.edge.kind ∧
    e.line = incoming.edge.line ∧ e.metadata = incoming.edge.metadata

/-- `e` starts in the same place as `incoming` and has its kind. -/
def SameSpot (incoming : IncomingEdge) (e : Edge) : Prop :=
  e.source = incoming.edge.source ∧ e.kind = incoming.edge.kind ∧
    e.line = incoming.edge.line ∧ e.column = incoming.edge.column

/-- An edge that pointed to `old` follows it from `nodes` into the tables `t`. -/
structure Follows (nodes : List Node) (path : String) (t : Tables) (incoming : IncomingEdge)
    (old : Node) : Prop where
  present : ∀ n, Only (· ∈ fileNodes t path) (SameSymbol old) n →
    ∃ e ∈ t.edges, e.target = n.id ∧ Carries incoming e
  faithful : ∀ e, reattached nodes incoming = some e → ∀ n ∈ fileNodes t path,
    n.id = e.target → n.qualifiedName = old.qualifiedName

namespace Environment

variable (env : Environment)

/-- An admission that replaces the facts of a tracked file goes through, and
every incoming edge follows its target. -/
def EdgesFollow (g : Graph) (x : Extracted) : Prop :=
  env.Replaces g.toTables x → ∃ t, env.admitFile g.toTables x = some t ∧
    ∀ incoming ∈ incomingAcrossFiles g.toTables x.filePath, ∀ old ∈ g.nodes,
      old.id = incoming.edge.target → Follows (env.bundle x).nodes x.filePath t incoming old

/-! ## The condition -/

/-- Of the result's nodes with the id of `n`, `n` is the last, and it is one of this file. -/
def IsNew (x : Extracted) (n : Node) : Prop :=
  n.filePath = x.filePath ∧ LastWith (fun m => m.id = n.id) (env.bundle x).nodes n

/-- `n` has the id of the last new node with the kind and the name `incoming`
pointed to. -/
def GoesTo (x : Extracted) (incoming : IncomingEdge) (n : Node) : Prop :=
  ∃ last, LastWith (fun m => m.kind = incoming.targetKind ∧ m.name = incoming.targetName)
    (env.bundle x).nodes last ∧ last.id = n.id

/-- `named`: the last new node with the kind and the plain name of `old` has its
qualified name. `carried`: where one new node `n` alone has the kind and the
qualified name of `old`, an edge like `incoming` goes to it, and no edge from the
same spot to `n` comes before that one, among the edges of the result or behind
them among the incoming ones. -/
structure TargetFollows (t : Tables) (x : Extracted) (incoming : IncomingEdge) (old : Node) :
    Prop where
  named : ∀ last, LastWith (SameName old) (env.bundle x).nodes last →
    ∀ n, env.IsNew x n → n.id = last.id → n.qualifiedName = old.qualifiedName
  carried : ∀ n, Only (env.IsNew x) (SameSymbol old) n →
    (∃ e, e.target = n.id ∧ Carries incoming e ∧
      FirstWith (fun other => identity other = identity e) (env.bundle x).edges e) ∨
    ∃ i, env.GoesTo x i n ∧ Carries incoming i.edge ∧
      FirstWith (fun j => env.GoesTo x j n ∧ SameSpot i j.edge) (env.savedEdges t x) i ∧
      ∀ e ∈ (env.bundle x).edges, e.target = n.id → ¬ SameSpot i e

/-! ## What an admission leaves -/

variable {env} {x : Extracted} {t t' : Tables}

/-- The edges the admission writes, in order. -/
def edgesWritten (env : Environment) (t : Tables) (x : Extracted) : List Edge :=
  (env.bundle x).edges ++ (env.savedEdges t x).filterMap (reattached (env.bundle x).nodes)

theorem reattached_iff_goesTo {incoming : IncomingEdge} {n : Node} :
    reattached (env.bundle x).nodes incoming = some { incoming.edge with target := n.id } ↔
      env.GoesTo x incoming n := by
  constructor
  · intro h
    obtain ⟨last, hlast, he⟩ := reattached_target h
    exact ⟨last, hlast, (congrArg Edge.target he).symm⟩
  · rintro ⟨last, hlast, hid⟩
    rw [reattached, targetByIdentity_eq_some.mpr ⟨last, hlast, hid⟩]
    rfl

/-- Which re-attached edge is the first with an identity can be read off the
incoming edges. -/
theorem firstWith_reattached {saved : List IncomingEdge} {n : Node} {e : Edge}
    (he : e.target = n.id) :
    FirstWith (fun other => identity other = identity e)
        (saved.filterMap (reattached (env.bundle x).nodes)) e ↔
      ∃ i, e = { i.edge with target := n.id } ∧ env.GoesTo x i n ∧
        FirstWith (fun j => env.GoesTo x j n ∧ SameSpot i j.edge) saved i := by
  have hspot : ∀ i j : IncomingEdge, e = { i.edge with target := n.id } →
      ((∃ image, reattached (env.bundle x).nodes j = some image ∧ identity image = identity e) ↔
        env.GoesTo x j n ∧ SameSpot i j.edge) := by
    rintro i j rfl
    constructor
    · rintro ⟨image, himage, hsame⟩
      obtain ⟨last, hlast, rfl⟩ := reattached_target himage
      simp only [identity, EdgeIdentity.mk.injEq] at hsame
      obtain ⟨hsource, htarget, hkind, hline, hcolumn⟩ := hsame
      exact ⟨⟨last, hlast, htarget⟩, hsource, hkind, hline, hcolumn⟩
    · rintro ⟨hgoes, hsource, hkind, hline, hcolumn⟩
      refine ⟨_, reattached_iff_goesTo.mpr hgoes, ?_⟩
      simp [identity, hsource, hkind, hline, hcolumn]
  rw [firstWith_filterMap]
  constructor
  · rintro ⟨i, himage, hfirst⟩
    obtain ⟨last, hlast, hi⟩ := reattached_target himage
    have hid : last.id = n.id := by
      rw [← he, hi]
    have hi' : e = { i.edge with target := n.id } := by
      rw [hi, hid]
    refine ⟨i, hi', ⟨last, hlast, hid⟩, ?_⟩
    simpa only [hspot i _ hi'] using hfirst
  · rintro ⟨i, hi, hgoes, hfirst⟩
    refine ⟨i, ?_, ?_⟩
    · rw [hi]
      exact reattached_iff_goesTo.mpr hgoes
    · simpa only [hspot i _ hi] using hfirst

theorem carried_iff {saved : List IncomingEdge} {incoming : IncomingEdge} {n : Node} :
    (∃ e, e.target = n.id ∧ Carries incoming e ∧
      FirstWith (fun other => identity other = identity e)
        ((env.bundle x).edges ++ saved.filterMap (reattached (env.bundle x).nodes)) e) ↔
    (∃ e, e.target = n.id ∧ Carries incoming e ∧
      FirstWith (fun other => identity other = identity e) (env.bundle x).edges e) ∨
    ∃ i, env.GoesTo x i n ∧ Carries incoming i.edge ∧
      FirstWith (fun j => env.GoesTo x j n ∧ SameSpot i j.edge) saved i ∧
      ∀ e ∈ (env.bundle x).edges, e.target = n.id → ¬ SameSpot i e := by
  simp only [firstWith_append]
  constructor
  · rintro ⟨e, htarget, hcarries, hfirst | ⟨hnone, hfirst⟩⟩
    · exact Or.inl ⟨e, htarget, hcarries, hfirst⟩
    · obtain ⟨i, rfl, hgoes, hi⟩ := (firstWith_reattached htarget).mp hfirst
      refine Or.inr ⟨i, hgoes, hcarries, hi, fun own hown hownid hspot => hnone own hown ?_⟩
      obtain ⟨hsource, hkind, hline, hcolumn⟩ := hspot
      simp [identity, hownid, hsource, hkind, hline, hcolumn]
  · rintro (⟨e, htarget, hcarries, hfirst⟩ | ⟨i, hgoes, hcarries, hi, hnone⟩)
    · exact ⟨e, htarget, hcarries, Or.inl hfirst⟩
    · refine ⟨{ i.edge with target := n.id }, rfl, hcarries, Or.inr ⟨fun own hown hsame => ?_,
        (firstWith_reattached rfl).mpr ⟨i, rfl, hgoes, hi⟩⟩⟩
      simp only [identity, EdgeIdentity.mk.injEq] at hsame
      obtain ⟨hsource, hownid, hkind, hline, hcolumn⟩ := hsame
      exact hnone own hown hownid ⟨hsource, hkind, hline, hcolumn⟩

/-- What the query reads of the target is the target's. -/
theorem target_of_incoming (ht : t.Valid) {path : String} {incoming : IncomingEdge}
    (hi : incoming ∈ incomingAcrossFiles t path) {old : Node} (hold : old ∈ t.nodes)
    (hid : old.id = incoming.edge.target) :
    old.kind = incoming.targetKind ∧ old.name = incoming.targetName := by
  obtain ⟨_, _, ⟨target, htarget, htid, _, hkind, hname⟩, _⟩ := mem_incomingAcrossFiles.mp hi
  obtain rfl := ht.node_unique hold htarget (hid.trans htid.symm)
  exact ⟨hkind, hname⟩

/-- The rows of the file are the new nodes. -/
theorem mem_fileNodes_of_written {es : List Edge} {rs : List UnresolvedReference}
    {fs : List FileRecord}
    (h : Written (t.deleteFile x.filePath) (env.bundle x).nodes es rs fs t') {n : Node} :
    n ∈ fileNodes t' x.filePath ↔ env.IsNew x n := by
  rw [fileNodes, h.nodes, List.mem_filter, Tables.mem_insertNodes_nodes bundle_nodes_storable]
  constructor
  · rintro ⟨⟨hold, _⟩ | hlast, hpath⟩
    · have hother := (Tables.mem_deleteNodes_nodes.mp hold).2
      exact absurd (of_decide_eq_true hpath) (of_decide_eq_false hother)
    · exact ⟨of_decide_eq_true hpath, hlast⟩
  · rintro ⟨hpath, hlast⟩
    exact ⟨Or.inr hlast, decide_eq_true hpath⟩

/-- An edge into a new node is in the tables when it is the first written with
its identity: the old edges into such an id are gone. -/
theorem mem_edges_of_written (ht : t.Valid) {es : List Edge} {rs : List UnresolvedReference}
    {fs : List FileRecord}
    (h : Written (t.deleteFile x.filePath) (env.bundle x).nodes es rs fs t') {e : Edge}
    (he : ∃ n ∈ (env.bundle x).nodes, n.id = e.target) :
    e ∈ t'.edges ↔ FirstWith (fun other => identity other = identity e) es e := by
  obtain ⟨n, hn, hid⟩ := he
  have hgone : ∀ old ∈ ((t.deleteFile x.filePath).insertNodes (env.bundle x).nodes).edges,
      old.target ≠ e.target := by
    intro old hold htarget
    have hkept := (Tables.mem_insertNodes_edges (ht.deleteFile _) bundle_nodes_storable).mp hold
    exact (hkept.2 n hn).2 (hid.trans htarget.symm)
  rw [h.edges, mem_insertAllOrIgnore]
  constructor
  · rintro (hold | ⟨_, hfirst⟩)
    · exact (hgone e hold rfl).elim
    · exact hfirst
  · intro hfirst
    refine Or.inr ⟨fun old hold hsame => ?_, hfirst⟩
    exact hgone old hold (congrArg EdgeIdentity.target hsame)

theorem follows_iff (ht : t.Valid) {rs : List UnresolvedReference} {fs : List FileRecord}
    (h : Written (t.deleteFile x.filePath) (env.bundle x).nodes (env.edgesWritten t x) rs fs t')
    {incoming : IncomingEdge} {old : Node} (hkind : old.kind = incoming.targetKind)
    (hname : old.name = incoming.targetName) :
    Follows (env.bundle x).nodes x.filePath t' incoming old ↔ env.TargetFollows t x incoming old := by
  have hrows : (· ∈ fileNodes t' x.filePath) = env.IsNew x :=
    funext fun n => propext (mem_fileNodes_of_written h)
  constructor
  · rintro ⟨hpresent, hfaithful⟩
    rw [hrows] at hpresent
    constructor
    · intro last hlast n hn hid
      have hfound : targetByIdentity (env.bundle x).nodes incoming.targetKind
          incoming.targetName = some last.id := by
        rw [← hkind, ← hname]
        exact targetByIdentity_eq_some.mpr ⟨last, hlast, rfl⟩
      refine hfaithful { incoming.edge with target := last.id } ?_ n ?_ hid
      · rw [reattached, hfound]
        rfl
      · exact (mem_fileNodes_of_written h).mpr hn
    · intro n hn
      obtain ⟨e, he, htarget, hcarries⟩ := hpresent n hn
      refine carried_iff.mp ⟨e, htarget, hcarries, ?_⟩
      exact (mem_edges_of_written ht h ⟨n, hn.1.2.mem, htarget.symm⟩).mp he
  · rintro ⟨hnamed, hcarried⟩
    constructor
    · rw [hrows]
      intro n hn
      obtain ⟨e, htarget, hcarries, hfirst⟩ := carried_iff.mpr (hcarried n hn)
      exact ⟨e, (mem_edges_of_written ht h ⟨n, hn.1.2.mem, htarget.symm⟩).mpr hfirst,
        htarget, hcarries⟩
    · intro e hre n hn hid
      obtain ⟨last, hlast, rfl⟩ := reattached_target hre
      rw [← hkind, ← hname] at hlast
      exact hnamed last hlast n ((mem_fileNodes_of_written h).mp hn) hid

theorem written_of_replaces (ht : t.Valid) (h : env.Replaces t x) :
    ∃ t' rs fs, env.admitFile t x = some t' ∧
      Written (t.deleteFile x.filePath) (env.bundle x).nodes (env.edgesWritten t x) rs fs t' := by
  obtain ⟨t', rs, hdone, _, hwritten, _⟩ := admitFile_of_admits ht (Or.inr h)
  obtain ⟨existing, hfile, _⟩ := h
  refine ⟨t', rs, [env.fileRecord x], hdone, ?_⟩
  simpa [base, carriedEdges, hfile, edgesWritten] using hwritten

/-- The condition for a graph and a result. -/
def TargetsFollow (env : Environment) (g : Graph) (x : Extracted) : Prop :=
  env.Replaces g.toTables x → ∀ incoming ∈ incomingAcrossFiles g.toTables x.filePath,
    ∀ old ∈ g.nodes, old.id = incoming.edge.target → env.TargetFollows g.toTables x incoming old

theorem targetsFollow_of_edgesFollow {g : Graph} (h : env.EdgesFollow g x) :
    env.TargetsFollow g x := by
  intro hr incoming hi old hold hid
  obtain ⟨t', hdone, hfollows⟩ := h hr
  obtain ⟨u, rs, fs, hdone', hwritten⟩ := written_of_replaces g.valid hr
  obtain rfl : t' = u := Option.some.inj (hdone.symm.trans hdone')
  obtain ⟨hkind, hname⟩ := target_of_incoming g.valid hi hold hid
  exact (follows_iff g.valid hwritten hkind hname).mp (hfollows incoming hi old hold hid)

/-- Every incoming edge follows its target exactly when the names of the new
nodes lead it there and nothing takes its place. -/
theorem edgesFollow_iff (env : Environment) (g : Graph) (x : Extracted) :
    env.EdgesFollow g x ↔ env.TargetsFollow g x := by
  constructor
  · exact targetsFollow_of_edgesFollow
  · intro h hr
    obtain ⟨t', rs, fs, hdone, hwritten⟩ := written_of_replaces g.valid hr
    refine ⟨t', hdone, fun incoming hi old hold hid => ?_⟩
    obtain ⟨hkind, hname⟩ := target_of_incoming g.valid hi hold hid
    exact (follows_iff g.valid hwritten hkind hname).mpr (h hr incoming hi old hold hid)

/-! ## Two classes with a method of the same name -/

/-- Contents are their own hashes and query rows come in table order. -/
def plain : Environment where
  hashContent content := content
  materializeKernelResult result _ _ := result
  rowOrder rows := rows
  rowOrder_perm _ := List.Perm.refl _

def method (id qualifiedName : String) (line : Nat) : Node :=
  ⟨id, .method, "m", qualifiedName, "ab.ts", .typescript, line⟩

def caller : Node := ⟨"f", .function, "f", "f", "main.ts", .typescript, 1⟩

/-- `main.ts` calls the first of the two methods of `ab.ts`. -/
def twoClasses : Graph where
  nodes := [method "m2" "A::m" 2, method "m6" "B::m" 6, caller]
  edges := [⟨"f", "m2", .calls, some ⟨some "a.m", none, ""⟩, some 3, some 0, none⟩]
  files := [⟨"ab.ts", "old", .typescript, 90, 0, 2, []⟩]
  valid := by constructor <;> decide

/-- Both methods of `ab.ts` one line further down. -/
def shifted : Extracted where
  filePath := "ab.ts"
  content := "new"
  language := .typescript
  size := 91
  mtimeMs := 1
  rawResult := ⟨[method "m3" "A::m" 3, method "m7" "B::m" 7], [], [], [], none⟩

/-- The call of `A::m` ends up at `B::m`. -/
theorem edgesFollow_fails : ¬ ∀ (env : Environment) (g : Graph) (x : Extracted),
    env.EdgesFollow g x := by
  intro h
  have hfollows := targetsFollow_of_edgesFollow (h plain twoClasses shifted)
  have hreplaces : plain.Replaces twoClasses.toTables shifted :=
    ⟨⟨"ab.ts", "old", .typescript, 90, 0, 2, []⟩, by decide, by decide⟩
  have hnamed := (hfollows hreplaces
    ⟨⟨"f", "m2", .calls, some ⟨some "a.m", none, ""⟩, some 3, some 0, none⟩, .method, "m",
      "main.ts", .typescript⟩ (by decide) (method "m2" "A::m" 2) (by decide) rfl).named
  have hlast : LastWith (SameName (method "m2" "A::m" 2)) (plain.bundle shifted).nodes
      (method "m7" "B::m" 7) := ⟨[method "m3" "A::m" 3], [], by decide, ⟨rfl, rfl⟩, by simp⟩
  have hnew : plain.IsNew shifted (method "m7" "B::m" 7) :=
    ⟨rfl, [method "m3" "A::m" 3], [], by decide, rfl, by simp⟩
  have hsame := hnamed _ hlast _ hnew rfl
  exact absurd hsame (by decide)

end Environment

end AfyxGraph.Admission
