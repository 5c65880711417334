import AfyxGraph.Runtime.JsoncCut
import AfyxGraph.Runtime.JsoncEdit

/-! # The editor removes a path

The walk of `updateJsoncPath` without a value follows the first property with each key. It
leaves the text alone, puts an empty object in, or cuts one property out; what that does to the
value depends on the other properties with those keys.
-/

namespace AfyxGraph.Runtime

open AfyxGraph.Core

variable {ν : Type} {numbers : NumberFormat ν} {text key : JsString}

/-! ## Removing a path from a value -/

def Json.removePath : Json ν → List JsString → Json ν
  | .object entries, key :: path =>
      if path.isEmpty then .object (removeEntry entries key)
      else
        match entries.lookup key with
        | some w => .object (setEntry entries key (w.removePath path))
        | none => .object entries
  | v, _ => v

theorem Json.removePath_single (entries : List (JsString × Json ν)) (key : JsString) :
    (Json.object entries).removePath [key] = .object (removeEntry entries key) := rfl

theorem Json.removePath_of_lookup {entries : List (JsString × Json ν)} {path : List JsString}
    {w : Json ν} (hpath : path ≠ []) (h : entries.lookup key = some w) :
    (Json.object entries).removePath (key :: path) =
      .object (setEntry entries key (w.removePath path)) := by
  rw [removePath, if_neg (by simpa using hpath), h]

theorem Json.removePath_eq_self {v : Json ν} {path : List JsString} (h : v.getPath path = none) :
    v.removePath path = v := by
  induction path generalizing v with
  | nil => cases v <;> cases h
  | cons key path ih =>
      cases v with
      | object entries =>
          rw [getPath] at h
          cases hlookup : entries.lookup key with
          | none =>
              rw [removePath, hlookup, removeEntry_eq_self hlookup]
              split <;> rfl
          | some w =>
              rw [hlookup, Option.bind_some] at h
              have hpath : path ≠ [] := by
                rintro rfl
                cases w <;> cases h
              rw [removePath_of_lookup hpath hlookup, ih h]
              congr 1
              exact setEntry_lookup_self hlookup
      | _ => rfl

/-- The path is gone. -/
theorem Json.getPath_removePath (v : Json ν) {path : List JsString} (hpath : path ≠ []) :
    (v.removePath path).getPath path = none := by
  induction path generalizing v with
  | nil => exact absurd rfl hpath
  | cons key path ih =>
      cases v with
      | object entries =>
          by_cases hlast : path = []
          · subst hlast
            rw [removePath_single, getPath, lookup_removeEntry_self, Option.bind_none]
          · cases hlookup : entries.lookup key with
            | none =>
                rw [removePath, if_neg (by simpa using hlast), hlookup, getPath, hlookup,
                  Option.bind_none]
            | some w =>
                rw [removePath_of_lookup hlast hlookup, getPath, lookup_setEntry_self,
                  Option.bind_some, ih w hlast]
      | _ => rfl

/-- Nothing beside the path is changed. -/
theorem Json.getPath_removePath_ne (v : Json ν) (path : List JsString) {key other : JsString}
    (hne : other ≠ key) (rest more : List JsString) :
    (v.removePath (path ++ key :: rest)).getPath (path ++ other :: more) =
      v.getPath (path ++ other :: more) := by
  induction path generalizing v with
  | nil =>
      cases v with
      | object entries =>
          rw [List.nil_append, List.nil_append, removePath]
          split
          · rw [getPath, getPath, lookup_removeEntry_ne _ hne]
          · split
            · rw [getPath, getPath, lookup_setEntry_ne _ _ hne]
            · rfl
      | _ => rfl
  | cons first path ih =>
      cases v with
      | object entries =>
          rw [List.cons_append, List.cons_append]
          cases hlookup : entries.lookup first with
          | none =>
              rw [removePath, if_neg (by simp), hlookup]
          | some w =>
              rw [removePath_of_lookup (by simp) hlookup, getPath, getPath, lookup_setEntry_self,
                hlookup, Option.bind_some, Option.bind_some, ih]
      | _ => rfl

theorem Json.removePath_ne_self {v : Json ν} {path : List JsString} (hpath : path ≠ [])
    (h : (v.getPath path).isSome = true) : v.removePath path ≠ v := by
  intro heq
  have hgone := v.getPath_removePath hpath
  rw [heq] at hgone
  rw [hgone] at h
  cases h

/-! ## Where the walk ends -/

inductive Removal where
  | stays
  | inserts
  | removes
  deriving DecidableEq, Repr

/-- What `updateNode` does without a value. -/
def removal (node : JsonNode ν) : List JsString → Removal
  | [] => .stays
  | key :: path =>
      match property node key with
      | none => if path.isEmpty then .stays else .inserts
      | some entry =>
          if path.isEmpty then .removes
          else if entry.value.type ≠ .object then .stays
          else removal entry.value path

/-- What the properties of a text assign to a new object. -/
def assignProperties (properties : List (JsonProperty ν (JsonNode ν))) : JsObject ν :=
  properties.foldl (fun o entry => o.assign entry.key entry.value.value entry.value.inherits)
    ⟨[], true⟩

/-- Each key before the last is found once and is no accessor, and the last is the object's own
only by the first property with it. -/
def isolated (node : JsonNode ν) : List JsString → Bool
  | [] => true
  | key :: path =>
      match property node key with
      | none => true
      | some entry =>
          if path.isEmpty then
            (node.value.getPath [key]).isSome &&
              ((assignProperties (node.properties.eraseP (·.key = key))).entries.lookup key).isNone
          else
            key ≠ protoKey && (node.properties.map (·.key)).count key = 1 &&
              isolated entry.value path

/-- When the removal meets its place. -/
def removable (numbers : NumberFormat ν) (text : JsString) (path : List JsString) : Bool :=
  match parseNode numbers text with
  | .error _ => true
  | .ok root =>
      root.type ≠ .object ||
        match removal root path with
        | .stays => (root.value.getPath path).isNone
        | .inserts => false
        | .removes => isolated root path

/-- An object on the walk lacks a key of the path, and a later property brings the path back. -/
def strays (numbers : NumberFormat ν) (text : JsString) (path : List JsString) : Bool :=
  match parseNode numbers text with
  | .error _ => false
  | .ok root => removal root path = .inserts && (root.value.getPath path).isSome

theorem updateNode_stays {node : JsonNode ν} {path : List JsString}
    (h : removal node path = .stays) : updateNode numbers text node none path = text := by
  induction path generalizing node with
  | nil => rfl
  | cons key path ih =>
      rw [removal] at h
      rw [updateNode]
      cases hfind : property node key with
      | none =>
          rw [hfind] at h
          by_cases hpath : path = []
          · subst hpath
            rfl
          · rw [if_neg (by simpa using hpath)] at h
            cases h
      | some entry =>
          rw [hfind] at h
          by_cases hpath : path = []
          · subst hpath
            cases h
          · simp only [if_neg (show ¬path.isEmpty = true by simpa using hpath)] at h ⊢
            by_cases hobject : entry.value.type ≠ .object
            · rw [if_pos hobject]
            · rw [if_neg hobject] at h ⊢
              exact ih h

theorem insertProperty_length (text : JsString) (object : JsonNode ν) (key : JsString)
    (value : Json ν) :
    text.length < (insertProperty numbers text object key value).length := by
  unfold insertProperty
  cases object.properties.getLast? with
  | none =>
      simp only [quote, List.length_append, List.length_cons, List.length_take, List.length_drop]
      omega
  | some last =>
      dsimp only
      cases last.commaAfter with
      | none =>
          simp only [quote, slice, List.length_append, List.length_cons, List.length_take,
            List.length_drop]
          omega
      | some comma =>
          simp only [quote, List.length_append, List.length_cons, List.length_take,
            List.length_drop]
          omega

variable (numbers text) in
theorem updateNode_inserts {node : JsonNode ν} {path : List JsString}
    (h : removal node path = .inserts) :
    text.length < (updateNode numbers text node none path).length := by
  induction path generalizing node with
  | nil => cases h
  | cons key path ih =>
      rw [removal] at h
      rw [updateNode]
      cases hfind : property node key with
      | none =>
          rw [hfind] at h
          by_cases hpath : path = []
          · subst hpath
            cases h
          · simp only [if_neg (show ¬(path.isEmpty && (none : Option (Json ν)).isNone) = true by
              simpa using hpath)]
            exact insertProperty_length text node key _
      | some entry =>
          rw [hfind] at h
          by_cases hpath : path = []
          · subst hpath
            cases h
          · simp only [if_neg (show ¬path.isEmpty = true by simpa using hpath)] at h ⊢
            by_cases hobject : entry.value.type ≠ .object
            · rw [if_pos hobject] at h
              cases h
            · rw [if_neg hobject] at h ⊢
              exact ih h

/-! ## What a cut does to the value -/

theorem AgreeBeside.lookup_eq_none_iff {o o' : JsObject ν} (h : AgreeBeside key o' o) :
    o'.entries.lookup key = none ↔ o'.entries = removeEntry o.entries key := by
  constructor
  · intro hnone
    rw [← h.entries, removeEntry_eq_self hnone]
  · intro heq
    rw [heq, lookup_removeEntry_self]

/-- The contents before and after the first property with the key. -/
theorem contents_split : ∀ (members : Members ν) {offset : Nat} {comma : Option (Token ν)}
    {entry : JsonProperty ν (JsonNode ν)},
    (members.properties offset comma).find? (·.key = key) = some entry →
    ∃ pre post, key ∉ pre.map Prod.fst ∧
      members.contents = pre ++ (key, entry.value.value, entry.value.inherits) :: post ∧
      ∀ t, (members.setValue key t).contents = pre ++ (key, t.content) :: post
  | .nil, _, _, _, h => by cases h
  | .last k child, offset, comma, entry, h => by
      by_cases hname : k.name = key
      · simp only [Members.properties, List.find?_cons, hname, decide_true] at h
        cases h
        refine ⟨[], [], nofun, ?_, fun t => ?_⟩
        · simp only [Members.contents, hname, List.nil_append, Tree.node_value, Tree.node_inherits]
        · rw [Members.setValue, if_pos hname, Members.contents, hname, List.nil_append]
      · simp [Members.properties, hname] at h
  | .cons k child post rest, offset, comma, entry, h => by
      by_cases hname : k.name = key
      · simp only [Members.properties, List.find?_cons, hname, decide_true] at h
        cases h
        refine ⟨[], rest.contents, nofun, ?_, fun t => ?_⟩
        · simp only [Members.contents, hname, List.nil_append, Tree.node_value, Tree.node_inherits]
        · rw [Members.setValue, if_pos hname, Members.contents, hname, List.nil_append]
      · simp only [Members.properties, List.find?_cons, hname, decide_false] at h
        obtain ⟨pre, post', hpre, hcontents, hset⟩ := contents_split rest h
        refine ⟨(k.name, child.content) :: pre, post', ?_, ?_, fun t => ?_⟩
        · simpa [Ne.symm hname] using hpre
        · rw [Members.contents, hcontents, List.cons_append]
        · rw [Members.setValue, if_neg hname, Members.contents, hset, List.cons_append]

/-- Another value in the first property of a key is not seen when the key comes again, or is taken
by the accessor. -/
theorem lookup_of_shadowed {pre post : Contents ν} {w : Json ν} (c c' : Json ν × Bool)
    (hpre : key ∉ pre.map Prod.fst) (hshadow : key = protoKey ∨ key ∈ post.map Prod.fst)
    (hw : (assignAll ⟨[], true⟩ (pre ++ (key, c) :: post)).entries.lookup key = some w) :
    (assignAll ⟨[], true⟩ (pre ++ (key, c') :: post)).entries.lookup key = none ∨
      (assignAll ⟨[], true⟩ (pre ++ (key, c') :: post)).entries.lookup key = some w := by
  have hsplit : ∀ c : Json ν × Bool, assignAll ⟨[], true⟩ (pre ++ (key, c) :: post) =
      assignAll ((assignAll ⟨[], true⟩ pre).assign key c.1 c.2) post := by
    intro c
    simp only [assignAll, List.foldl_append, List.foldl_cons]
  rw [hsplit] at hw ⊢
  by_cases hproto : key = protoKey
  · obtain ⟨hnone, hinherits⟩ := assignAll_of_not_mem (o := (⟨[], true⟩ : JsObject ν)) hpre
    have htaken : ∀ c : Json ν × Bool,
        ((assignAll ⟨[], true⟩ pre).assign key c.1 c.2).entries.lookup key = none := by
      intro c
      subst hproto
      rw [JsObject.entries_assign_proto (hinherits rfl)]
      exact hnone
    rcases lookup_assignAll_cases key post
      ((assignAll ⟨[], true⟩ pre).assign key c.1 c.2) with hsame | ⟨w', hlast, hw'⟩
    · rw [hsame, htaken c] at hw
      cases hw
    · rw [hw'] at hw
      rcases lookup_assignAll_cases key post
        ((assignAll ⟨[], true⟩ pre).assign key c'.1 c'.2) with hsame | ⟨w'', hlast', hw''⟩
      · exact Or.inl (hsame.trans (htaken c'))
      · rw [hlast, hw] at hlast'
        exact Or.inr (hw''.trans hlast'.symm)
  · have hlater := hshadow.resolve_left hproto
    rw [lookup_assignAll (Or.inl hproto)] at hw ⊢
    obtain ⟨w', hw'⟩ := Option.isSome_iff_exists.mp (lastValue_isSome hlater)
    rw [hw', Option.some_or] at hw ⊢
    exact Or.inr hw

/-- The step of the walk into an object. -/
theorem setValue_removes_iff {members : Members ν} {offset : Nat} {path : List JsString}
    {entry : JsonProperty ν (JsonNode ν)} {t : Tree ν} {inner : Prop} (hpath : path ≠ [])
    (hfind : (members.properties offset none).find? (·.key = key) = some entry)
    (slot : Members.Slot numbers members key)
    (hinner : inner ↔ (slot.child.content.1.getPath path).isSome = true ∧
      t.content.1 = slot.child.content.1.removePath path) :
    ((key ≠ protoKey ∧ members.names.count key = 1) ∧ inner) ↔
      ((Json.object (members.assign ⟨[], true⟩).entries).getPath (key :: path)).isSome = true ∧
        Json.object ((members.setValue key t).assign ⟨[], true⟩).entries =
          (Json.object (members.assign ⟨[], true⟩).entries).removePath (key :: path) := by
  by_cases honce : key ≠ protoKey ∧ members.names.count key = 1
  · have hlookup := slot.lookup_assign honce.1 honce.2 ⟨[], true⟩
    have hassign := slot.assign_setValue honce.1 honce.2 ⟨[], true⟩ t
    rw [hassign, Json.getPath, hlookup, Option.bind_some, Json.removePath_of_lookup hpath hlookup,
      hinner]
    constructor
    · rintro ⟨-, hsome, heq⟩
      exact ⟨hsome, by rw [heq]⟩
    · rintro ⟨hsome, heq⟩
      refine ⟨honce, hsome, ?_⟩
      have hsame := congrArg (List.lookup key) (Json.object.inj heq)
      rw [lookup_setEntry_self, lookup_setEntry_self] at hsame
      exact Option.some.inj hsame
  · refine iff_of_false (fun h => honce h.1) ?_
    rintro ⟨hsome, heq⟩
    obtain ⟨pre, post, hpre, hcontents, hset⟩ := contents_split members hfind
    have hshadow : key = protoKey ∨ key ∈ post.map Prod.fst := by
      by_contra hnot
      simp only [not_or] at hnot
      refine honce ⟨hnot.1, ?_⟩
      rw [members.names_eq, hcontents, List.map_append, List.map_cons, List.count_append,
        List.count_cons_self, List.count_eq_zero.mpr hpre, List.count_eq_zero.mpr hnot.2]
    rw [Json.getPath] at hsome
    cases hlookup : (members.assign ⟨[], true⟩).entries.lookup key with
    | none =>
        rw [hlookup] at hsome
        cases hsome
    | some w =>
        rw [hlookup, Option.bind_some] at hsome
        rw [Json.removePath_of_lookup hpath hlookup] at heq
        have hedited := congrArg (List.lookup key) (Json.object.inj heq)
        rw [lookup_setEntry_self] at hedited
        rw [Members.assign_eq, hcontents] at hlookup
        rw [Members.assign_eq, hset] at hedited
        rcases lookup_of_shadowed _ t.content hpre hshadow hlookup with hnone | hsame
        · rw [hnone] at hedited
          cases hedited
        · rw [hsame] at hedited
          exact Json.removePath_ne_self hpath hsome (Option.some.inj hedited).symm

/-- The properties that stay assign what is left of the contents. -/
theorem assignProperties_eraseP (members : Members ν) (offset : Nat) (comma : Option (Token ν)) :
    assignProperties ((members.properties offset comma).eraseP (·.key = key)) =
      assignAll ⟨[], true⟩ (members.contents.eraseP (·.1 = key)) := by
  rw [← members.contents_properties offset comma, List.eraseP_map, assignAll, List.foldl_map]
  rfl

/-! ## The walk -/

variable {before after closing : JsString} {members : Members ν}

theorem updateNode_cuts {entry : JsonProperty ν (JsonNode ν)}
    (hmembers : members.WellFormed numbers) (hclosing : Closed closing)
    (htext : text = before ++ ((Tree.object members closing).render ++ after))
    (hfind : property ((Tree.object members closing).node before.length) key = some entry) :
    ∃ members' closing', members'.WellFormed numbers ∧ Closed closing' ∧
      removeProperty text entry = before ++ ((Tree.object members' closing').render ++ after) ∧
      (Tree.object members' closing').render.length <
        (Tree.object members closing).render.length ∧
      (isolated ((Tree.object members closing).node before.length) [key] = true ↔
        ((Tree.object members closing).content.1.getPath [key]).isSome = true ∧
          (Tree.object members' closing').content.1 =
            (Tree.object members closing).content.1.removePath [key]) := by
  obtain ⟨cut⟩ := members.cut_of_find numbers hfind (Or.inl rfl)
  refine ⟨cut.rest, cut.gap ++ closing, (cut.wellFormed hmembers).1,
    (cut.wellFormed hmembers).2.append hclosing, ?_, ?_, ?_⟩
  · have hcut := cut.removeProperty_eq (before ++ [unit '{']) (closing ++ unit '}' :: after)
      (by simp)
    rw [htext]
    simpa [Tree.render] using hcut
  · have hshorter := cut.shorter
    simp only [Tree.render, List.length_append, List.length_cons] at hshorter ⊢
    omega
  · have hagree : AgreeBeside key (cut.rest.assign ⟨[], true⟩) (members.assign ⟨[], true⟩) := by
      rw [Members.assign_eq, Members.assign_eq, cut.contents_eq]
      exact agreeBeside_eraseP (AgreeBeside.refl key _)
    have hrest : assignProperties (((Tree.object members closing).node
        before.length).properties.eraseP (·.key = key)) = cut.rest.assign ⟨[], true⟩ := by
      rw [Members.assign_eq, cut.contents_eq]
      exact assignProperties_eraseP members _ _
    rw [isolated, hfind]
    simp only [List.isEmpty_nil, if_true, Bool.and_eq_true, hrest, Tree.node_value,
      Option.isNone_iff_eq_none, hagree.lookup_eq_none_iff]
    rw [Tree.content, Tree.content, Json.removePath_single, Json.object.injEq]

/-- The walk that removes something cuts a property out, and the value has lost the path if and
only if that property was isolated. -/
theorem updateNode_removes : ∀ (path : List JsString) {before after closing : JsString}
    {members : Members ν}, members.WellFormed numbers → Closed closing →
    text = before ++ ((Tree.object members closing).render ++ after) →
    removal ((Tree.object members closing).node before.length) path = .removes →
    ∃ members' closing', members'.WellFormed numbers ∧ Closed closing' ∧
      updateNode numbers text ((Tree.object members closing).node before.length) none path =
        before ++ ((Tree.object members' closing').render ++ after) ∧
      (Tree.object members' closing').render.length <
        (Tree.object members closing).render.length ∧
      (isolated ((Tree.object members closing).node before.length) path = true ↔
        ((Tree.object members closing).content.1.getPath path).isSome = true ∧
          (Tree.object members' closing').content.1 =
            (Tree.object members closing).content.1.removePath path)
  | [], _, _, _, _, _, _, _, h => by cases h
  | key :: path, before, after, closing, members, hmembers, hclosing, htext, h => by
      rw [removal] at h
      rw [updateNode]
      cases hfind : property ((Tree.object members closing).node before.length) key with
      | none =>
          rw [hfind] at h
          by_cases hpath : path = []
          · subst hpath
            cases h
          · rw [if_neg (by simpa using hpath)] at h
            cases h
      | some entry =>
          by_cases hpath : path = []
          · subst hpath
            exact updateNode_cuts hmembers hclosing htext hfind
          · have hmore : ¬path.isEmpty = true := by simpa using hpath
            simp only [hfind, if_neg hmore] at h
            by_cases hobject : entry.value.type ≠ .object
            · rw [if_pos hobject] at h
              cases h
            · rw [if_neg hobject] at h
              simp only [if_neg hmore, if_neg hobject]
              obtain ⟨slot, hslot⟩ := members.slot_of_find numbers hfind
              have hsplit : text = before ++ unit '{' :: slot.before ++
                  (slot.child.render ++ (slot.after ++ (closing ++ unit '}' :: after))) := by
                simp [htext, Tree.render, slot.render_eq]
              have hnode : entry.value =
                  slot.child.node (before ++ unit '{' :: slot.before).length := by
                have hoffset : before.length + 1 + slot.before.length =
                    (before ++ unit '{' :: slot.before).length := by
                  simp only [List.length_append, List.length_cons]
                  omega
                rw [hslot, hoffset]
              have hchild := slot.wellFormed hmembers
              obtain ⟨inner, closing₂, hinner⟩ : ∃ inner closing₂,
                  slot.child = .object inner closing₂ := by
                rw [hslot] at hobject
                cases hshape : slot.child with
                | object inner closing₂ => exact ⟨inner, closing₂, rfl⟩
                | _ => simp [hshape, Tree.node, JsonNode.type] at hobject
              rw [hnode] at h ⊢
              rw [hinner] at h hchild hsplit ⊢
              obtain ⟨inner', closing', hinner', hclosing', heq, hshorter, hiff⟩ :=
                updateNode_removes path hchild.1 hchild.2 hsplit h
              have hformed : (Tree.object inner' closing').WellFormed numbers :=
                ⟨hinner', hclosing'⟩
              refine ⟨members.setValue key (.object inner' closing'), closing,
                Members.setValue_wellFormed hformed members hmembers, hclosing, ?_, ?_, ?_⟩
              · rw [heq]
                simp [Tree.render, slot.render_setValue]
              · have hold := slot.render_eq
                rw [hinner] at hold
                simp only [Tree.render, slot.render_setValue, hold, List.length_append,
                  List.length_cons] at hshorter ⊢
                omega
              · have hnames : ((Tree.object members closing).node before.length).properties.map
                    (·.key) = members.names := members.keys_properties _ _
                rw [isolated, hfind]
                simp only [if_neg hmore, hnames, hnode, Bool.and_eq_true, decide_eq_true_eq]
                rw [← hinner] at hiff
                exact setValue_removes_iff hpath hfind slot hiff

/-! ## The law -/

/-- The edited text is read as the old value without the path, and is the old text when the value
does not have the path. -/
def RemovesPath (numbers : NumberFormat ν) (text : JsString) (path : List JsString) : Prop :=
  ∀ entries, parseJsonc numbers text = some (.object entries) →
    ∃ text', updateJsoncPath numbers text path none = .ok text' ∧
      parseJsonc numbers text' = some ((Json.object entries).removePath path) ∧
      ((Json.object entries).getPath path = none → text' = text)

theorem removesPath_document {lead : JsString} {path : List JsString} (hpath : path ≠ [])
    (hdocument : IsDocument numbers text lead (.object members closing)) :
    RemovesPath numbers text path ↔ ∃ text',
      updateNode numbers text ((Tree.object members closing).node lead.length) none path = text' ∧
      parseJsonc numbers text' =
        some ((Tree.object members closing).content.1.removePath path) ∧
      ((Tree.object members closing).content.1.getPath path = none → text' = text) := by
  have hparse := parseJsonc_document hdocument
  have hupdate : updateJsoncPath numbers text path none =
      .ok (updateNode numbers text ((Tree.object members closing).node lead.length) none path) := by
    rw [updateJsoncPath, if_neg (by simpa using hpath), parseNode_of_document hdocument]
    rfl
  rw [RemovesPath, hupdate]
  constructor
  · intro h
    obtain ⟨text', heq, hrest⟩ := h _ hparse
    exact ⟨text', Except.ok.inj heq, hrest⟩
  · rintro ⟨text', rfl, hrest⟩ entries hentries
    rw [hparse] at hentries
    rw [← Option.some.inj hentries]
    exact ⟨_, rfl, hrest⟩

/-- The three ends of the walk in an object. -/
theorem removesPath_cases {lead : JsString} {path : List JsString} (hpath : path ≠ [])
    (hdocument : IsDocument numbers text lead (.object members closing)) :
    (removal ((Tree.object members closing).node lead.length) path = .stays →
      (RemovesPath numbers text path ↔
        (Tree.object members closing).content.1.getPath path = none)) ∧
    (removal ((Tree.object members closing).node lead.length) path = .inserts →
      RemovesPath numbers text path →
        ((Tree.object members closing).content.1.getPath path).isSome = true) ∧
    (removal ((Tree.object members closing).node lead.length) path = .removes →
      (RemovesPath numbers text path ↔
        isolated ((Tree.object members closing).node lead.length) path = true)) := by
  have hparse := parseJsonc_document hdocument
  have hlaw := removesPath_document hpath hdocument
  generalize hv : (Tree.object members closing).content.1 = v at hparse hlaw
  refine ⟨fun h => ?_, fun h => ?_, fun h => ?_⟩
  · rw [hlaw, updateNode_stays h]
    constructor
    · rintro ⟨text', rfl, hremoved, -⟩
      rw [hparse] at hremoved
      by_contra hpresent
      rw [← ne_eq, Option.ne_none_iff_isSome] at hpresent
      exact v.removePath_ne_self hpath hpresent (Option.some.inj hremoved).symm
    · intro hnone
      exact ⟨text, rfl, by rw [hparse, Json.removePath_eq_self hnone], fun _ => rfl⟩
  · rw [hlaw]
    rintro ⟨text', rfl, -, hsame⟩
    have hlength := updateNode_inserts numbers text h
    cases hget : v.getPath path with
    | none =>
        rw [hsame hget] at hlength
        exact absurd hlength (Nat.lt_irrefl _)
    | some w => rfl
  · obtain ⟨trail, htext, hlead, ⟨hmembers, hclosing⟩, htrail⟩ := hdocument
    obtain ⟨members', closing', hmembers', hclosing', heq, hshorter, hiff⟩ :=
      updateNode_removes path hmembers hclosing htext h
    have hparse' := parseJsonc_document ⟨trail, heq, hlead, ⟨hmembers', hclosing'⟩, htrail⟩
    rw [hv] at hiff
    rw [hlaw, hiff]
    constructor
    · rintro ⟨text', rfl, hremoved, hsame⟩
      rw [hparse'] at hremoved
      refine ⟨?_, Option.some.inj hremoved⟩
      cases hget : v.getPath path with
      | none =>
          have hlength := congrArg List.length (heq.symm.trans ((hsame hget).trans htext))
          simp only [List.length_append] at hlength
          omega
      | some w => rfl
    · rintro ⟨hsome, hcontent⟩
      refine ⟨_, rfl, by rw [hparse', hcontent], fun hnone => ?_⟩
      rw [hnone] at hsome
      cases hsome

/-- The law holds when the removal meets its place, and otherwise in no text but one where the
walk strays. -/
theorem updateJsoncPath_removes (numbers : NumberFormat ν) (text key : JsString)
    (path : List JsString) :
    (removable numbers text (key :: path) = true → RemovesPath numbers text (key :: path)) ∧
      (RemovesPath numbers text (key :: path) →
        removable numbers text (key :: path) = true ∨
          strays numbers text (key :: path) = true) := by
  cases hparse : parseNode numbers text with
  | error message =>
      have hvacuous : RemovesPath numbers text (key :: path) := by
        intro entries hentries
        rw [parseJsonc, hparse] at hentries
        cases hentries
      refine ⟨fun _ => hvacuous, fun _ => Or.inl ?_⟩
      rw [removable, hparse]
  | ok root =>
      simp only [removable, strays, hparse, Bool.or_eq_true, Bool.and_eq_true, decide_eq_true_eq]
      obtain ⟨lead, t, hdocument, rfl⟩ := parseNode_iff.mp hparse
      cases t with
      | object members closing =>
          obtain ⟨hstays, hinserts, hremoves⟩ :=
            removesPath_cases (List.cons_ne_nil key path) hdocument
          rw [Tree.node_value]
          have htype : ¬((Tree.object members closing).node lead.length).type ≠ .object := by
            simp [Tree.node, JsonNode.type]
          cases hend : removal ((Tree.object members closing).node lead.length) (key :: path) with
          | stays =>
              simp only [htype, false_or, Option.isNone_iff_eq_none, hstays hend]
              exact ⟨id, Or.inl⟩
          | inserts =>
              simp only [htype, false_or, Bool.false_eq_true, true_and]
              exact ⟨False.elim, hinserts hend⟩
          | removes =>
              simp only [htype, false_or, hremoves hend]
              exact ⟨id, Or.inl⟩
      | _ =>
          refine ⟨fun _ entries hentries => ?_, fun _ => Or.inl (Or.inl (by
            simp [Tree.node, JsonNode.type]))⟩
          obtain ⟨lead', members, closing, hdocument', -⟩ := object_of_parseJsonc hentries
          rw [parseNode_of_document hdocument'] at hparse
          simp [Tree.node] at hparse

/-- An object that lacks the first key of a path gets it. -/
theorem not_removesPath_oneEntry : ¬RemovesPath digits oneEntry [[unit 'b'], [unit 'c']] := by
  intro h
  have hentries : parseJsonc digits oneEntry = some (.object [([unit 'a'], .number 0)]) := rfl
  have hlonger : (updateJsoncPath digits oneEntry [[unit 'b'], [unit 'c']] none).toOption.map
      List.length = some 17 := by decide +kernel
  obtain ⟨text', hupdate, -, hsame⟩ := h _ hentries
  rw [hupdate, hsame rfl] at hlonger
  revert hlonger
  decide

end AfyxGraph.Runtime
