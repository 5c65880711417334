import AfyxGraph.Core.Occurrences
import AfyxGraph.Core.LruCache
import AfyxGraph.Core.TextParts
import AfyxGraph.Extraction.Types

/-! # Looking up the methods of a type

A method is found by the end of its qualified name. The candidates of a method name are put into
buckets once, by the last two parts of their qualified names, and every later question is a lookup
in these buckets. The answers are also kept by language, type and method.
-/

namespace AfyxGraph.Resolution.MethodMatches

open AfyxGraph.Core AfyxGraph.Extraction

/-! ## Languages -/

def languageName : Language → Text
  | .typescript => "typescript".toList
  | .javascript => "javascript".toList
  | .tsx => "tsx".toList
  | .jsx => "jsx".toList
  | .arkts => "arkts".toList
  | .python => "python".toList
  | .go => "go".toList
  | .rust => "rust".toList
  | .java => "java".toList
  | .c => "c".toList
  | .cpp => "cpp".toList
  | .csharp => "csharp".toList
  | .razor => "razor".toList
  | .php => "php".toList
  | .ruby => "ruby".toList
  | .swift => "swift".toList
  | .kotlin => "kotlin".toList
  | .dart => "dart".toList
  | .svelte => "svelte".toList
  | .vue => "vue".toList
  | .astro => "astro".toList
  | .liquid => "liquid".toList
  | .pascal => "pascal".toList
  | .scala => "scala".toList
  | .lua => "lua".toList
  | .luau => "luau".toList
  | .objc => "objc".toList
  | .r => "r".toList
  | .solidity => "solidity".toList
  | .nix => "nix".toList
  | .yaml => "yaml".toList
  | .twig => "twig".toList
  | .xml => "xml".toList
  | .properties => "properties".toList
  | .cfml => "cfml".toList
  | .cfscript => "cfscript".toList
  | .cfquery => "cfquery".toList
  | .cobol => "cobol".toList
  | .vbnet => "vbnet".toList
  | .erlang => "erlang".toList
  | .terraform => "terraform".toList
  | .unknown => "unknown".toList

inductive LanguageFamily where
  | jvm | apple | web | c | dotnet
  deriving DecidableEq, Repr

/-- `LANGUAGE_FAMILY` -/
def languageFamily : Language → Option LanguageFamily
  | .java | .kotlin | .scala => some .jvm
  | .swift | .objc => some .apple
  | .typescript | .tsx | .javascript | .jsx | .arkts => some .web
  | .c | .cpp => some .c
  | .csharp | .razor => some .dotnet
  | _ => none

def sameLanguageFamily (a b : Language) : Bool :=
  a = b || (languageFamily a).isSome && languageFamily a = languageFamily b

/-! ## The lookup -/

/-- `'::'` -/
def colons : Text := [':', ':']

/-- `${typeName}::${methodName}` -/
def want (typeName methodName : Text) : Text := typeName ++ (colons ++ methodName)

/-- `${language} ${name}` -/
def cacheKey (language : Language) (name : Text) : Text := languageName language ++ ' ' :: name

def isMethodOf (language : Language) (m : Node) : Bool :=
  m.kind = .method && sameLanguageFamily m.language language

/-- `qn === want || qn.endsWith('::' + want)` -/
def accepts (typeName methodName : Text) (m : Node) : Bool :=
  m.qualifiedName.toList = want typeName methodName ||
    (colons ++ want typeName methodName) <:+ m.qualifiedName.toList

/-- The linear filter. -/
def filterMatches (candidates : List Node) (language : Language) (typeName methodName : Text) :
    List Node :=
  candidates.filter fun m => isMethodOf language m && accepts typeName methodName m

/-- What is behind the last separator but one; a negative position is read as zero. -/
def bucketKey (qn : Text) : Option Text :=
  match lastIndexOf qn colons qn.length with
  | none => none
  | some i2 =>
      match lastIndexOf qn colons (i2 - 1) with
      | none => some qn
      | some i1 => some (qn.drop (i1 + 2))

abbrev OwnerIndex := List (Text × List Node)

def addToBucket (language : Language) (index : OwnerIndex) (m : Node) : OwnerIndex :=
  if isMethodOf language m then
    match bucketKey m.qualifiedName.toList with
    | none => index
    | some key => setEntry index key ((index.lookup key).getD [] ++ [m])
  else index

def buildOwnerIndex (candidates : List Node) (language : Language) : OwnerIndex :=
  candidates.foldl (addToBucket language) []

structure ResolverCaches where
  nameCache : LruCache Text (List Node)
  methodMatchCache : LruCache Text (List Node)
  methodOwnerIndexCache : List (Text × OwnerIndex)

namespace ResolverCaches

variable (nodesByName : Text → List Node)

def fresh (limit : Nat) (hlimit : 0 < limit) : ResolverCaches :=
  ⟨LruCache.empty limit hlimit, LruCache.empty limit hlimit, []⟩

def clearCaches (s : ResolverCaches) : ResolverCaches :=
  ⟨s.nameCache.clear, s.methodMatchCache.clear, []⟩

def getNodesByName (s : ResolverCaches) (name : Text) : List Node × ResolverCaches :=
  let (nodes, nameCache) := s.nameCache.readThrough name (nodesByName name)
  (nodes, { s with nameCache })

def ownerIndex (s : ResolverCaches) (candidates : List Node) (language : Language)
    (methodName : Text) : OwnerIndex × ResolverCaches :=
  let idxKey := cacheKey language methodName
  match s.methodOwnerIndexCache.lookup idxKey with
  | some index => (index, s)
  | none =>
      let index := buildOwnerIndex candidates language
      (index, { s with methodOwnerIndexCache := setEntry s.methodOwnerIndexCache idxKey index })

def getMethodMatches (s : ResolverCaches) (typeName methodName : Text) (language : Language) :
    List Node × ResolverCaches :=
  let key := cacheKey language (want typeName methodName)
  match s.methodMatchCache.get key with
  | (some cached, methodMatchCache) => (cached, { s with methodMatchCache })
  | (none, methodMatchCache) =>
      let (candidates, s) := getNodesByName nodesByName { s with methodMatchCache } methodName
      let (found, s) :=
        if colons <:+: typeName ∨ ':' ∈ methodName then
          (filterMatches candidates language typeName methodName, s)
        else
          let (index, s) := s.ownerIndex candidates language methodName
          ((index.lookup (want typeName methodName)).getD [], s)
      (found, { s with methodMatchCache := s.methodMatchCache.set key found })

/-- What is asked of the resolver between two lookups. -/
inductive Request where
  | nodesByName (name : Text)
  | methodMatches (typeName methodName : Text) (language : Language)
  | clearCaches

def answer (s : ResolverCaches) : Request → ResolverCaches
  | .nodesByName name => (s.getNodesByName nodesByName name).2
  | .methodMatches typeName methodName language =>
      (s.getMethodMatches nodesByName typeName methodName language).2
  | .clearCaches => s.clearCaches

def after (limit : Nat) (hlimit : 0 < limit) (history : List Request) : ResolverCaches :=
  history.foldl (answer nodesByName) (fresh limit hlimit)

end ResolverCaches

/-! ## The bucket of a qualified name -/

section Buckets

variable {qn typeName methodName : Text} {i j : Nat}

theorem occursAt_colons : OccursAt colons qn i ↔ qn[i]? = some ':' ∧ qn[i + 1]? = some ':' := by
  rw [OccursAt, ← List.getElem?_drop (i := i) (j := 1), ← List.head?_drop]
  cases qn.drop i with
  | nil => simp [colons]
  | cons c rest =>
      cases rest with
      | nil => simp [colons]
      | cons d rest => simp [colons, List.cons_prefix_cons, eq_comm]

/-- The separator before the method is the last one. -/
theorem lastIndexOf_owner (owner : Text) (hmethod : ':' ∉ methodName) :
    lastIndexOf (owner ++ (colons ++ methodName)) colons
      (owner ++ (colons ++ methodName)).length = some owner.length := by
  rw [lastIndexOf_eq_some_iff]
  refine ⟨by simp, occursAt_length colons methodName owner, fun j hj _ hocc => ?_⟩
  obtain ⟨-, hnext⟩ := occursAt_colons.mp hocc
  have hbehind : owner.length + 2 ≤ j + 1 := by omega
  rw [← List.append_assoc, List.getElem?_append_right (by simpa [colons] using hbehind)] at hnext
  exact hmethod (List.mem_of_getElem? hnext)

theorem bucketKey_owner (owner : Text) (hmethod : ':' ∉ methodName) :
    bucketKey (owner ++ (colons ++ methodName)) =
      match lastIndexOf (owner ++ (colons ++ methodName)) colons (owner.length - 1) with
      | none => some (owner ++ (colons ++ methodName))
      | some i1 => some ((owner ++ (colons ++ methodName)).drop (i1 + 2)) := by
  rw [bucketKey, lastIndexOf_owner owner hmethod]

/-- A separator that starts inside a type name, or at its end, would be a colon of the name. -/
theorem not_occursAt_inside (htype : ¬ colons <:+: typeName) (hend : typeName.getLast? ≠ some ':')
    (hi : i < typeName.length) (rest : Text) :
    ¬ OccursAt colons (typeName ++ (colons ++ rest)) i := by
  intro hocc
  obtain ⟨hfirst, hsecond⟩ := occursAt_colons.mp hocc
  rw [List.getElem?_append_left hi] at hfirst
  rcases Nat.lt_or_ge (i + 1) typeName.length with hlt | hge
  · rw [List.getElem?_append_left hlt] at hsecond
    apply htype
    have hprefix : OccursAt colons typeName i := occursAt_colons.mpr ⟨hfirst, hsecond⟩
    exact hprefix.isInfix.trans (List.drop_suffix i typeName).isInfix
  · apply hend
    rw [List.getLast?_eq_getElem?, show typeName.length - 1 = i by omega]
    exact hfirst

theorem bucketKey_want (hmethod : ':' ∉ methodName) (htype : ¬ colons <:+: typeName)
    (hne : typeName ≠ []) (hend : typeName.getLast? ≠ some ':') :
    bucketKey (want typeName methodName) = some (want typeName methodName) := by
  have hnone : lastIndexOf (want typeName methodName) colons (typeName.length - 1) = none := by
    rw [lastIndexOf_eq_none_iff]
    intro i hi
    have hpos := List.length_pos_iff.mpr hne
    exact not_occursAt_inside htype hend (by omega) methodName
  rw [want] at hnone ⊢
  rw [bucketKey_owner typeName hmethod, hnone]

theorem bucketKey_inside (outer : Text) (hmethod : ':' ∉ methodName)
    (htype : ¬ colons <:+: typeName) (hne : typeName ≠ [])
    (hstart : typeName.head? ≠ some ':') (hend : typeName.getLast? ≠ some ':') :
    bucketKey (outer ++ (colons ++ want typeName methodName)) =
      some (want typeName methodName) := by
  have hpos := List.length_pos_iff.mpr hne
  have hsome : lastIndexOf (outer ++ (colons ++ want typeName methodName)) colons
      ((outer ++ (colons ++ typeName)).length - 1) = some outer.length := by
    rw [lastIndexOf_eq_some_iff]
    refine ⟨by simp [colons], occursAt_length colons _ outer, fun j hj hle hocc => ?_⟩
    obtain ⟨k, rfl⟩ : ∃ k, j = outer.length + (k + 1) := ⟨j - outer.length - 1, by omega⟩
    rw [occursAt_append_right] at hocc
    cases k with
    | zero =>
        apply hstart
        have hsecond := (occursAt_colons.mp hocc).2
        rw [List.getElem?_append_right (by simp [colons]), want,
          List.getElem?_append_left (by simpa [colons] using hpos)] at hsecond
        rw [List.head?_eq_getElem?]
        exact hsecond
    | succ k =>
        rw [show k + 1 + 1 = colons.length + k by simp [colons]; omega,
          occursAt_append_right] at hocc
        have hk : k < typeName.length := by
          simp [colons] at hle
          omega
        exact not_occursAt_inside htype hend hk methodName hocc
  have hassoc : outer ++ (colons ++ want typeName methodName) =
      (outer ++ (colons ++ typeName)) ++ (colons ++ methodName) := by simp [want]
  rw [hassoc] at hsome ⊢
  rw [bucketKey_owner _ hmethod, hsome]
  simp [want, colons, List.drop_append]

/-- A separator near the end of the owner makes the piece too short. -/
theorem length_bucketKey_lt (owner : Text) (hmethod : ':' ∉ methodName)
    (hocc : OccursAt colons (owner ++ (colons ++ methodName)) i) (hi : i ≤ owner.length - 1) :
    ∃ key, bucketKey (owner ++ (colons ++ methodName)) = some key ∧
      key.length ≤ owner.length + methodName.length - i := by
  rw [bucketKey_owner owner hmethod]
  cases hlast : lastIndexOf (owner ++ (colons ++ methodName)) colons (owner.length - 1) with
  | none => exact absurd hocc (lastIndexOf_eq_none_iff.mp hlast i hi)
  | some i1 =>
      obtain ⟨-, -, hafter⟩ := lastIndexOf_eq_some_iff.mp hlast
      have hle : i ≤ i1 := by
        by_contra hlt
        exact hafter i (by omega) hi hocc
      refine ⟨_, rfl, ?_⟩
      simp only [List.length_drop, List.length_append, colons, List.length_cons, List.length_nil]
      omega

theorem accepts_iff {m : Node} : accepts typeName methodName m = true ↔
    m.qualifiedName.toList = want typeName methodName ∨
      (colons ++ want typeName methodName) <:+ m.qualifiedName.toList := by
  rw [accepts, Bool.or_eq_true, decide_eq_true_eq, decide_eq_true_eq]

theorem accepts_of_bucketKey {m : Node}
    (h : bucketKey m.qualifiedName.toList = some (want typeName methodName)) :
    accepts typeName methodName m = true := by
  rw [accepts_iff]
  generalize m.qualifiedName.toList = qn at h
  rw [bucketKey] at h
  cases hlast : lastIndexOf qn colons qn.length with
  | none =>
      rw [hlast] at h
      cases h
  | some i2 =>
      simp only [hlast] at h
      obtain ⟨hi2, -, -⟩ := lastIndexOf_eq_some_iff.mp hlast
      cases hbefore : lastIndexOf qn colons (i2 - 1) with
      | none =>
          rw [hbefore] at h
          exact Or.inl (Option.some.inj h)
      | some i1 =>
          rw [hbefore] at h
          obtain ⟨hi1, hocc, -⟩ := lastIndexOf_eq_some_iff.mp hbefore
          obtain ⟨before, rest, rfl, hlength⟩ := hocc.split (by omega)
          right
          have hrest : rest = want typeName methodName := by
            have hdrop := Option.some.inj h
            rw [← hlength, ← List.drop_drop, List.drop_left] at hdrop
            exact hdrop
          rw [← hrest]
          exact List.suffix_append _ _

/-- The type names whose end runs into the separator. -/
def OpenEnd (typeName : Text) : Prop := typeName = [] ∨ typeName.getLast? = some ':'

/-- The filter accepts the node and its bucket is another one. -/
def Mislaid (typeName methodName : Text) (m : Node) : Prop :=
  OpenEnd typeName ∨ typeName.head? = some ':' ∧
    (colons ++ want typeName methodName) <:+ m.qualifiedName.toList

/-- An owner that ends with a colon is cut at that colon. -/
theorem bucketKey_ne_of_open {owner : Text} (hmethod : ':' ∉ methodName)
    (hopen : OpenEnd owner) (hlong : typeName.length ≤ owner.length) :
    bucketKey (owner ++ (colons ++ methodName)) ≠ some (want typeName methodName) := by
  intro hkey
  have hocc : OccursAt colons (owner ++ (colons ++ methodName)) (owner.length - 1) := by
    rcases hopen with rfl | hlast
    · exact occursAt_length colons methodName []
    · have hpos : 0 < owner.length := by
        cases owner with
        | nil => cases hlast
        | cons c rest => exact Nat.succ_pos _
      rw [List.getLast?_eq_getElem?] at hlast
      rw [occursAt_colons, List.getElem?_append_left (by omega), Nat.sub_add_cancel hpos,
        List.getElem?_append_right (Nat.le_refl _), Nat.sub_self]
      exact ⟨hlast, rfl⟩
  obtain ⟨key, hcut, hshort⟩ := length_bucketKey_lt owner hmethod hocc (Nat.le_refl _)
  rw [hkey] at hcut
  obtain rfl := Option.some.inj hcut
  simp only [want, colons, List.length_append, List.length_cons, List.length_nil] at hshort
  omega

theorem bucketKey_eq_want_iff {m : Node} (hmethod : ':' ∉ methodName)
    (htype : ¬ colons <:+: typeName) (h : accepts typeName methodName m = true) :
    bucketKey m.qualifiedName.toList = some (want typeName methodName) ↔
      ¬ Mislaid typeName methodName m := by
  rw [accepts_iff] at h
  rw [Mislaid]
  generalize m.qualifiedName.toList = qn at h
  rcases h with rfl | ⟨outer, rfl⟩
  · have hshort : ¬ (colons ++ want typeName methodName) <:+ want typeName methodName := by
      intro hsuffix
      have hle := hsuffix.length_le
      simp only [colons, List.length_append, List.length_cons, List.length_nil] at hle
      omega
    constructor
    · rintro hkey (hopen | ⟨-, hsuffix⟩)
      · exact bucketKey_ne_of_open hmethod hopen (Nat.le_refl _) hkey
      · exact hshort hsuffix
    · intro hclear
      obtain ⟨hne, hend⟩ := not_or.mp fun hopen => hclear (Or.inl hopen)
      exact bucketKey_want hmethod htype hne hend
  · have hassoc : outer ++ (colons ++ want typeName methodName) =
        (outer ++ (colons ++ typeName)) ++ (colons ++ methodName) := by simp [want]
    have hsuffix : (colons ++ want typeName methodName) <:+
        outer ++ (colons ++ want typeName methodName) := List.suffix_append _ _
    constructor
    · rintro hkey (hopen | ⟨hstart, -⟩)
      · rw [hassoc] at hkey
        refine bucketKey_ne_of_open hmethod ?_ (by simp; omega) hkey
        right
        rcases hopen with rfl | hlast
        · simp [colons]
        · simp [List.getLast?_append, hlast]
      · rw [hassoc] at hkey
        obtain ⟨rest, rfl⟩ := List.head?_eq_some_iff.mp hstart
        have hocc : OccursAt colons ((outer ++ (colons ++ ':' :: rest)) ++ (colons ++ methodName))
            (outer.length + 1) := by
          rw [List.append_assoc, occursAt_append_right, occursAt_colons]
          exact ⟨rfl, rfl⟩
        obtain ⟨key, hcut, hlen⟩ := length_bucketKey_lt _ hmethod hocc (by simp [colons])
        rw [hkey] at hcut
        obtain rfl := Option.some.inj hcut
        simp only [want, colons, List.length_append, List.length_cons, List.length_nil] at hlen
        omega
    · intro hclear
      obtain ⟨hne, hend⟩ := not_or.mp fun hopen => hclear (Or.inl hopen)
      refine bucketKey_inside outer hmethod htype hne (fun hstart => ?_) hend
      exact hclear (Or.inr ⟨hstart, hsuffix⟩)

end Buckets

/-! ## The index -/

theorem addToBucket_of_method {language : Language} {m : Node} (index : OwnerIndex) {key : Text}
    (hm : isMethodOf language m = true) (hkey : bucketKey m.qualifiedName.toList = some key) :
    addToBucket language index m = setEntry index key ((index.lookup key).getD [] ++ [m]) := by
  rw [addToBucket, if_pos hm, hkey]

theorem lookup_addToBucket (language : Language) (index : OwnerIndex) (m : Node) (key : Text) :
    ((addToBucket language index m).lookup key).getD [] = (index.lookup key).getD [] ++
      [m].filter fun m => isMethodOf language m && bucketKey m.qualifiedName.toList = some key := by
  cases hm : isMethodOf language m with
  | false => simp [addToBucket, hm]
  | true =>
      cases hkey : bucketKey m.qualifiedName.toList with
      | none => simp [addToBucket, hm, hkey]
      | some own =>
          rw [addToBucket_of_method index hm hkey]
          by_cases hown : own = key
          · subst hown
            rw [lookup_setEntry_self]
            simp [hm, hkey]
          · rw [lookup_setEntry_ne index _ (Ne.symm hown)]
            simp [hm, hkey, hown]

/-- A bucket keeps the order of the candidates. -/
theorem lookup_buildOwnerIndex (candidates : List Node) (language : Language) (key : Text) :
    ((buildOwnerIndex candidates language).lookup key).getD [] =
      candidates.filter fun m =>
        isMethodOf language m && bucketKey m.qualifiedName.toList = some key := by
  rw [buildOwnerIndex]
  have hfold : ∀ index : OwnerIndex,
      ((candidates.foldl (addToBucket language) index).lookup key).getD [] =
        (index.lookup key).getD [] ++ candidates.filter fun m =>
          isMethodOf language m && bucketKey m.qualifiedName.toList = some key := by
    induction candidates with
    | nil => simp
    | cons m candidates ih =>
        intro index
        rw [List.foldl_cons, ih, lookup_addToBucket, List.append_assoc, ← List.filter_append]
        rfl
  simpa using hfold []

/-! ## Answers -/

section Answers

variable (nodesByName : Text → List Node)

/-- What a resolver without caches answers. -/
def freshMatches (typeName methodName : Text) (language : Language) : List Node :=
  if colons <:+: typeName ∨ ':' ∈ methodName then
    filterMatches (nodesByName methodName) language typeName methodName
  else ((buildOwnerIndex (nodesByName methodName) language).lookup
    (want typeName methodName)).getD []

/-- Every cache holds answers for its keys. -/
structure Coherent (s : ResolverCaches) : Prop where
  names : s.nameCache.Holds fun name nodes => nodes = nodesByName name
  found : s.methodMatchCache.Holds fun key nodes => ∃ typeName methodName language,
    key = cacheKey language (want typeName methodName) ∧
      nodes = freshMatches nodesByName typeName methodName language
  indexes : ∀ e ∈ s.methodOwnerIndexCache, ∃ methodName language,
    e.1 = cacheKey language methodName ∧ e.2 = buildOwnerIndex (nodesByName methodName) language

variable {nodesByName} {s : ResolverCaches}

theorem coherent_fresh (limit : Nat) (hlimit : 0 < limit) :
    Coherent nodesByName (.fresh limit hlimit) where
  names := LruCache.holds_empty _ limit hlimit
  found := LruCache.holds_empty _ limit hlimit
  indexes _ he := absurd he List.not_mem_nil

theorem Coherent.clearCaches (s : ResolverCaches) : Coherent nodesByName s.clearCaches where
  names := LruCache.holds_clear _ s.nameCache
  found := LruCache.holds_clear _ s.methodMatchCache
  indexes _ he := absurd he List.not_mem_nil

theorem Coherent.getNodesByName (h : Coherent nodesByName s) (name : Text) :
    (s.getNodesByName nodesByName name).1 = nodesByName name ∧
      Coherent nodesByName (s.getNodesByName nodesByName name).2 := by
  obtain ⟨hread, hnames⟩ := h.names.readThrough (Eq.refl (nodesByName name))
  exact ⟨hread, hnames, h.found, h.indexes⟩

theorem space_notMem_languageName (language : Language) : ' ' ∉ languageName language := by
  cases language <;> decide

def allLanguages : List Language :=
  [.typescript, .javascript, .tsx, .jsx, .arkts, .python, .go, .rust, .java, .c, .cpp, .csharp,
    .razor, .php, .ruby, .swift, .kotlin, .dart, .svelte, .vue, .astro, .liquid, .pascal, .scala,
    .lua, .luau, .objc, .r, .solidity, .nix, .yaml, .twig, .xml, .properties, .cfml, .cfscript,
    .cfquery, .cobol, .vbnet, .erlang, .terraform, .unknown]

theorem mem_allLanguages (language : Language) : language ∈ allLanguages := by
  cases language <;> decide

theorem nodup_languageNames : (allLanguages.map languageName).Nodup := by decide

/-- A key says its language, since no language has a space in its name. -/
theorem cacheKey_inj {a b : Language} {t u : Text} (h : cacheKey a t = cacheKey b u) :
    a = b ∧ t = u := by
  have hcut : Text.cut ' ' (cacheKey a t) = Text.cut ' ' (cacheKey b u) := congrArg _ h
  rw [cacheKey, cacheKey, Text.cut_append t (space_notMem_languageName a),
    Text.cut_append u (space_notMem_languageName b)] at hcut
  obtain ⟨hname, htext⟩ := Prod.mk.inj (Option.some.inj hcut)
  refine ⟨?_, htext⟩
  exact List.inj_on_of_nodup_map nodup_languageNames (mem_allLanguages a) (mem_allLanguages b) hname

theorem Coherent.ownerIndex (h : Coherent nodesByName s) (language : Language)
    (methodName : Text) :
    (s.ownerIndex (nodesByName methodName) language methodName).1 =
        buildOwnerIndex (nodesByName methodName) language ∧
      Coherent nodesByName (s.ownerIndex (nodesByName methodName) language methodName).2 := by
  rw [ResolverCaches.ownerIndex]
  cases hlook : s.methodOwnerIndexCache.lookup (cacheKey language methodName) with
  | some index =>
      refine ⟨?_, h⟩
      obtain ⟨name, other, hkey, hindex⟩ := h.indexes _ (mem_of_lookup hlook)
      obtain ⟨rfl, rfl⟩ := cacheKey_inj hkey
      exact hindex
  | none =>
      refine ⟨rfl, h.names, h.found, fun e he => ?_⟩
      rcases mem_setEntry he with rfl | he
      · exact ⟨methodName, language, rfl, rfl⟩
      · exact h.indexes e he

/-- A lookup gives a fresh answer, but maybe that of another pair of names with the same key. -/
theorem Coherent.getMethodMatches (h : Coherent nodesByName s) (typeName methodName : Text)
    (language : Language) :
    (∃ otherType otherMethod, want typeName methodName = want otherType otherMethod ∧
      (s.getMethodMatches nodesByName typeName methodName language).1 =
        freshMatches nodesByName otherType otherMethod language) ∧
      Coherent nodesByName (s.getMethodMatches nodesByName typeName methodName language).2 := by
  obtain ⟨hsome, hfound⟩ := h.found.get (cacheKey language (want typeName methodName))
  rw [ResolverCaches.getMethodMatches]
  cases hget : s.methodMatchCache.get (cacheKey language (want typeName methodName)) with
  | mk cached methodMatchCache =>
      rw [hget] at hsome hfound
      cases cached with
      | some cached =>
          refine ⟨?_, h.names, hfound, h.indexes⟩
          obtain ⟨otherType, otherMethod, other, hkey, hcached⟩ := hsome cached rfl
          obtain ⟨rfl, hwant⟩ := cacheKey_inj hkey
          exact ⟨otherType, otherMethod, hwant, hcached⟩
      | none =>
          have hread : Coherent nodesByName { s with methodMatchCache } :=
            ⟨h.names, hfound, h.indexes⟩
          obtain ⟨hnodes, hnamed⟩ := hread.getNodesByName methodName
          obtain ⟨hindex, hindexed⟩ := hnamed.ownerIndex language methodName
          by_cases hshape : colons <:+: typeName ∨ ':' ∈ methodName
          · have hfresh : freshMatches nodesByName typeName methodName language =
                filterMatches (nodesByName methodName) language typeName methodName :=
              if_pos hshape
            simp only [if_pos hshape, hnodes]
            refine ⟨⟨typeName, methodName, rfl, hfresh.symm⟩, hnamed.names, ?_, hnamed.indexes⟩
            exact hnamed.found.set ⟨typeName, methodName, language, rfl, hfresh.symm⟩
          · have hfresh : freshMatches nodesByName typeName methodName language =
                ((buildOwnerIndex (nodesByName methodName) language).lookup
                  (want typeName methodName)).getD [] := if_neg hshape
            simp only [if_neg hshape, hnodes, hindex]
            refine ⟨⟨typeName, methodName, rfl, hfresh.symm⟩, hindexed.names, ?_,
              hindexed.indexes⟩
            exact hindexed.found.set ⟨typeName, methodName, language, rfl, hfresh.symm⟩

theorem Coherent.after (limit : Nat) (hlimit : 0 < limit) (history : List ResolverCaches.Request) :
    Coherent nodesByName (.after nodesByName limit hlimit history) := by
  induction history using List.reverseRecOn with
  | nil => exact coherent_fresh limit hlimit
  | append_singleton history request ih =>
      rw [ResolverCaches.after, List.foldl_append, List.foldl_cons, List.foldl_nil]
      cases request with
      | nodesByName name => exact (ih.getNodesByName name).2
      | methodMatches typeName methodName language =>
          exact (ih.getMethodMatches typeName methodName language).2
      | clearCaches => exact Coherent.clearCaches _

/-- Two pairs of names have the same key only if the type name ends with a colon. -/
theorem want_eq_want {typeName methodName otherType otherMethod : Text}
    (hmethod : ':' ∉ methodName) (htype : ¬ colons <:+: typeName)
    (h : want typeName methodName = want otherType otherMethod) :
    otherType = typeName ∧ otherMethod = methodName ∨
      typeName = otherType ++ [':'] ∧ otherMethod = ':' :: methodName := by
  simp only [want, colons, List.cons_append, List.nil_append] at h
  rcases List.append_eq_append_iff.mp h with ⟨more, rfl, hrest⟩ | ⟨more, rfl, hrest⟩
  · cases more with
    | nil =>
        simp only [List.nil_append, List.cons.injEq, true_and] at hrest
        exact Or.inl ⟨List.append_nil typeName, hrest.symm⟩
    | cons c more =>
        refine absurd ?_ hmethod
        cases more with
        | nil =>
            simp only [List.cons_append, List.nil_append, List.cons.injEq] at hrest
            rw [hrest.2.2]
            exact List.mem_cons_self
        | cons d more =>
            simp only [List.cons_append, List.cons.injEq] at hrest
            rw [hrest.2.2]
            exact List.mem_append_right more List.mem_cons_self
  · cases more with
    | nil =>
        simp only [List.nil_append, List.cons.injEq, true_and] at hrest
        exact Or.inl ⟨(List.append_nil otherType).symm, hrest⟩
    | cons c more =>
        cases more with
        | nil =>
            simp only [List.cons_append, List.nil_append, List.cons.injEq] at hrest
            obtain ⟨rfl, -, hrest⟩ := hrest
            exact Or.inr ⟨rfl, hrest⟩
        | cons d more =>
            simp only [List.cons_append, List.cons.injEq] at hrest
            obtain ⟨rfl, rfl, -⟩ := hrest
            exact absurd ⟨otherType, more, by simp [colons]⟩ htype

theorem mem_freshMatches_iff {typeName methodName : Text} {language : Language} {m : Node}
    (hmethod : ':' ∉ methodName) (htype : ¬ colons <:+: typeName) :
    m ∈ freshMatches nodesByName typeName methodName language ↔
      m ∈ nodesByName methodName ∧ isMethodOf language m = true ∧
        bucketKey m.qualifiedName.toList = some (want typeName methodName) := by
  rw [freshMatches, if_neg (not_or.mpr ⟨htype, hmethod⟩), lookup_buildOwnerIndex, List.mem_filter,
    Bool.and_eq_true, decide_eq_true_eq]

theorem freshMatches_eq_filterMatches {typeName methodName : Text} {language : Language}
    (hmethod : ':' ∉ methodName) (htype : ¬ colons <:+: typeName)
    (hlaid : ∀ m ∈ nodesByName methodName, isMethodOf language m = true →
      accepts typeName methodName m = true → ¬ Mislaid typeName methodName m) :
    freshMatches nodesByName typeName methodName language =
      filterMatches (nodesByName methodName) language typeName methodName := by
  rw [freshMatches, if_neg (not_or.mpr ⟨htype, hmethod⟩), lookup_buildOwnerIndex, filterMatches]
  apply List.filter_congr
  intro m hm
  cases hkind : isMethodOf language m with
  | false => rfl
  | true =>
      rw [Bool.true_and, Bool.true_and, Bool.eq_iff_iff, decide_eq_true_eq]
      constructor
      · exact accepts_of_bucketKey
      · intro hacc
        exact (bucketKey_eq_want_iff hmethod htype hacc).mpr (hlaid m hm hkind hacc)

theorem getMethodMatches_fresh (nodesByName : Text → List Node) (limit : Nat)
    (hlimit : 0 < limit) (typeName methodName : Text) (language : Language) :
    ((ResolverCaches.fresh limit hlimit).getMethodMatches nodesByName typeName methodName
      language).1 = freshMatches nodesByName typeName methodName language := by
  by_cases hshape : colons <:+: typeName ∨ ':' ∈ methodName
  · rw [freshMatches, if_pos hshape]
    simp only [ResolverCaches.getMethodMatches, if_pos hshape]
    rfl
  · rw [freshMatches, if_neg hshape]
    simp only [ResolverCaches.getMethodMatches, if_neg hshape]
    rfl

/-- A second lookup with the same key gives the first answer. -/
theorem getMethodMatches_again (s : ResolverCaches)
    {typeName methodName otherType otherMethod : Text} (language : Language)
    (h : want typeName methodName = want otherType otherMethod) :
    ((s.getMethodMatches nodesByName otherType otherMethod language).2.getMethodMatches
      nodesByName typeName methodName language).1 =
        (s.getMethodMatches nodesByName otherType otherMethod language).1 := by
  have hkept : ∀ (t : ResolverCaches) (found : List Node),
      (t.methodMatchCache.get (cacheKey language (want typeName methodName))).1 = some found →
        (t.getMethodMatches nodesByName typeName methodName language).1 = found := by
    intro t found hfound
    rw [ResolverCaches.getMethodMatches]
    cases hget : t.methodMatchCache.get (cacheKey language (want typeName methodName)) with
    | mk cached cache =>
        rw [hget] at hfound
        obtain rfl : cached = some found := hfound
        rfl
  apply hkept
  rw [h, ResolverCaches.getMethodMatches]
  cases hget : s.methodMatchCache.get (cacheKey language (want otherType otherMethod)) with
  | mk cached cache =>
      cases cached with
      | some cached => exact LruCache.get_get_self hget
      | none => exact LruCache.get_set_self _ _ _

/-- The buckets answer as the filter does, after any lookups, exactly when no node that the filter
accepts is mislaid, and no selector that begins with a colon shares the key. -/
theorem getMethodMatches_eq_filterMatches_iff (nodesByName : Text → List Node) (limit : Nat)
    (hlimit : 0 < limit) (typeName methodName : Text) (language : Language)
    (htype : ¬ colons <:+: typeName) (hmethod : ':' ∉ methodName) :
    (∀ history, ((ResolverCaches.after nodesByName limit hlimit history).getMethodMatches
        nodesByName typeName methodName language).1 =
          filterMatches (nodesByName methodName) language typeName methodName) ↔
      (∀ m ∈ nodesByName methodName, isMethodOf language m = true →
        accepts typeName methodName m = true → ¬ Mislaid typeName methodName m) ∧
      (typeName.getLast? = some ':' → ∀ m ∈ nodesByName (':' :: methodName),
        isMethodOf language m = true → ¬ accepts typeName methodName m = true) := by
  constructor
  · intro h
    have hlaid : ∀ m ∈ nodesByName methodName, isMethodOf language m = true →
        accepts typeName methodName m = true → ¬ Mislaid typeName methodName m := by
      intro m hm hkind hacc
      have hfilter : m ∈ filterMatches (nodesByName methodName) language typeName methodName := by
        rw [filterMatches, List.mem_filter, hkind, hacc]
        exact ⟨hm, rfl⟩
      rw [← h [], ResolverCaches.after, List.foldl_nil, getMethodMatches_fresh,
        mem_freshMatches_iff hmethod htype] at hfilter
      exact (bucketKey_eq_want_iff hmethod htype hacc).mp hfilter.2.2
    refine ⟨hlaid, fun hlast m hm hkind hacc => ?_⟩
    obtain ⟨shorter, rfl⟩ := List.getLast?_eq_some_iff.mp hlast
    have hwant : want (shorter ++ [':']) methodName = want shorter (':' :: methodName) := by
      simp [want, colons]
    -- the selector that begins with a colon is looked up first
    have hselector := h [.methodMatches shorter (':' :: methodName) language]
    rw [ResolverCaches.after, List.foldl_cons, List.foldl_nil, ResolverCaches.answer,
      getMethodMatches_again _ language hwant, getMethodMatches_fresh, freshMatches,
      if_pos (Or.inr List.mem_cons_self)] at hselector
    have hshared : m ∈ filterMatches (nodesByName (':' :: methodName)) language shorter
        (':' :: methodName) := by
      rw [filterMatches, List.mem_filter, hkind, accepts, ← hwant]
      exact ⟨hm, hacc⟩
    rw [hselector, filterMatches, List.mem_filter, Bool.and_eq_true] at hshared
    exact hlaid m hshared.1 hshared.2.1 hshared.2.2 (Or.inl (Or.inr hlast))
  · rintro ⟨hlaid, hselector⟩ history
    obtain ⟨⟨otherType, otherMethod, hwant, hanswer⟩, -⟩ :=
      (Coherent.after limit hlimit history).getMethodMatches typeName methodName language
    rw [hanswer]
    rcases want_eq_want hmethod htype hwant with ⟨rfl, rfl⟩ | ⟨rfl, rfl⟩
    · exact freshMatches_eq_filterMatches hmethod htype hlaid
    · rw [freshMatches, if_pos (Or.inr List.mem_cons_self), filterMatches, filterMatches]
      have hlast : (otherType ++ [':']).getLast? = some ':' := List.getLast?_concat
      rw [List.filter_eq_nil_iff.mpr, List.filter_eq_nil_iff.mpr]
      · rintro m hm hfound
        obtain ⟨hkind, hacc⟩ := Bool.and_eq_true_iff.mp hfound
        exact hlaid m hm hkind hacc (Or.inl (Or.inr hlast))
      · rintro m hm hfound
        obtain ⟨hkind, hacc⟩ := Bool.and_eq_true_iff.mp hfound
        rw [accepts, ← hwant] at hacc
        exact hselector hlast m hm hkind hacc

end Answers

/-! ## A name without an owner -/

def initializer (qualifiedName : String) : Node :=
  { id := "m", kind := .method, name := "init", qualifiedName, filePath := "a.swift",
    language := .swift, startLine := 1 }

theorem getMethodMatches_initializer :
    ((ResolverCaches.after (fun _ => [initializer "Outer::Point::init"]) 8 (by decide)
        [.nodesByName "init".toList]).getMethodMatches
          (fun _ => [initializer "Outer::Point::init"]) "Point".toList "init".toList .swift).1 =
      filterMatches [initializer "Outer::Point::init"] .swift "Point".toList "init".toList := by
  refine (getMethodMatches_eq_filterMatches_iff (fun _ => [initializer "Outer::Point::init"]) 8
    (by decide) "Point".toList "init".toList .swift (by decide) (by decide)).mpr ⟨?_, ?_⟩ _
  · rintro m - - - ((hnil | hlast) | ⟨hhead, -⟩)
    · exact absurd hnil (by decide)
    · exact absurd hlast (by decide)
    · exact absurd hhead (by decide)
  · intro hlast
    exact absurd hlast (by decide)

theorem not_getMethodMatches_withoutOwner :
    ¬ ∀ history, ((ResolverCaches.after (fun _ => [initializer "::init"]) 8 (by decide)
        history).getMethodMatches (fun _ => [initializer "::init"]) [] "init".toList .swift).1 =
      filterMatches [initializer "::init"] .swift [] "init".toList :=
  fun h => absurd (h []) (by decide)

end AfyxGraph.Resolution.MethodMatches
