import AfyxGraph.Resolution.StrippedJson
import AfyxGraph.Runtime.JsoncEdit

/-! # Two readers of JSON with comments

`parseJsonc` parses the text; for a tsconfig `JSON.parse` reads the stripped text. They agree
where the comments are the same for both, the whitespace is that of JSON, no string has a comma
before a closing bracket in it and no key is `__proto__`.
-/

namespace AfyxGraph.Resolution.StripJsonc

open AfyxGraph.Runtime AfyxGraph.Core

variable {ν : Type} {numbers : NumberFormat ν} {text : JsString}

/-! ## Documents -/

/-- A text that `parseJsonc` accepts, in its parts. -/
structure Document (numbers : NumberFormat ν) (text : JsString) where
  lead : JsString
  tree : Runtime.Tree ν
  trail : JsString
  text_eq : text = lead ++ (tree.render ++ trail)
  lead_closed : Closed lead
  wellFormed : tree.WellFormed numbers
  trail_skip : skipTrivia .code trail = .ok []

theorem Document.parse (d : Document numbers text) :
    parseJsonc numbers text = some d.tree.content.1 := by
  have hdocument : IsDocument numbers text d.lead d.tree :=
    ⟨d.trail, d.text_eq, d.lead_closed, d.wellFormed, d.trail_skip⟩
  rw [parseJsonc, parseNode_of_document hdocument]
  exact congrArg some (d.tree.node_value _)

theorem exists_document {v : Json ν} (h : parseJsonc numbers text = some v) :
    Nonempty (Document numbers text) := by
  cases hparse : parseNode numbers text with
  | error message =>
      rw [parseJsonc, hparse] at h
      cases h
  | ok node =>
      obtain ⟨lead, t, ⟨trail, htext, hlead, ht, htrail⟩, -⟩ := parseNode_iff.mp hparse
      exact ⟨⟨lead, t, trail, htext, hlead, ht, htrail⟩⟩

/-- The loop of `stripJsonc` sees the comments of the document. -/
structure Document.Synced (d : Document numbers text) : Prop where
  lead : StripJsonc.Synced d.lead
  tree : SyncedTree d.tree
  trail : ∀ c ∈ stripComments .code d.trail, isSpace c = true

/-! ## Without carriage returns -/

mutual

theorem syncedTree_of_noReturn : ∀ (t : Runtime.Tree ν), t.WellFormed numbers →
    unit '\r' ∉ t.render → SyncedTree t
  | .scalar _ _, _, _ => trivial
  | .array items closing, ht, h => by
      simp only [Runtime.Tree.render, List.mem_cons, List.mem_append, not_or] at h
      exact ⟨syncedItems_of_noReturn items ht.1 h.2.1, synced_of_closed ht.2 h.2.2.1⟩
  | .object members closing, ht, h => by
      simp only [Runtime.Tree.render, List.mem_cons, List.mem_append, not_or] at h
      exact ⟨syncedMembers_of_noReturn members ht.1 h.2.1, synced_of_closed ht.2 h.2.2.1⟩

theorem syncedItems_of_noReturn : ∀ (items : Items ν), items.WellFormed numbers →
    unit '\r' ∉ items.render → SyncedItems items
  | .nil, _, _ => trivial
  | .last lead item, ht, h => by
      simp only [Items.render, List.mem_append, not_or] at h
      exact ⟨synced_of_closed ht.1 h.1, syncedTree_of_noReturn item ht.2 h.2⟩
  | .cons lead item post rest, ht, h => by
      simp only [Items.render, List.mem_cons, List.mem_append, not_or] at h
      exact ⟨synced_of_closed ht.1 h.1, syncedTree_of_noReturn item ht.2.1 h.2.1,
        synced_of_closed ht.2.2.1 h.2.2.1, syncedItems_of_noReturn rest ht.2.2.2 h.2.2.2.2⟩

theorem syncedMembers_of_noReturn : ∀ (members : Members ν), members.WellFormed numbers →
    unit '\r' ∉ members.render → SyncedMembers members
  | .nil, _, _ => trivial
  | .last key child, ht, h => by
      simp only [Members.render, MemberKey.text, List.mem_cons, List.mem_append, not_or] at h
      exact ⟨⟨synced_of_closed ht.1.lead h.1.1, synced_of_closed ht.1.mid h.1.2.2.1,
        synced_of_closed ht.1.pre h.1.2.2.2.2⟩, syncedTree_of_noReturn child ht.2 h.2⟩
  | .cons key child post rest, ht, h => by
      simp only [Members.render, MemberKey.text, List.mem_cons, List.mem_append, not_or] at h
      exact ⟨⟨synced_of_closed ht.1.lead h.1.1, synced_of_closed ht.1.mid h.1.2.2.1,
        synced_of_closed ht.1.pre h.1.2.2.2.2⟩, syncedTree_of_noReturn child ht.2.1 h.2.1,
        synced_of_closed ht.2.2.1 h.2.2.1, syncedMembers_of_noReturn rest ht.2.2.2 h.2.2.2.2⟩

end

/-- A comment can only be seen in two ways when a carriage return ends it. -/
theorem Document.synced_of_noReturn (d : Document numbers text) (h : unit '\r' ∉ text) :
    d.Synced := by
  rw [d.text_eq] at h
  simp only [List.mem_append, not_or] at h
  exact ⟨synced_of_closed d.lead_closed h.1, syncedTree_of_noReturn d.tree d.wellFormed h.2.1,
    spaces_of_skip h.2.2 d.trail_skip⟩

/-! ## What `JSON.parse` returns -/

theorem stripped_pos {raw : JsString} {kind : TokenKind} {value : Json ν}
    (h : IsToken numbers raw kind value) : 0 < (dropTrailingCommas raw).length := by
  obtain ⟨c, tail, rfl, -, -, -, hcomma⟩ := token_head h
  rw [dropTrailingCommas_cons hcomma, List.length_cons]
  omega

mutual

theorem size_le_tree : ∀ (t : Runtime.Tree ν), t.WellFormed numbers →
    t.size ≤ 2 * (strippedTree t).length
  | .scalar raw value, ⟨kind, hraw⟩ => by
      have hpos := stripped_pos hraw
      rw [Runtime.Tree.size, strippedTree]
      omega
  | .array items closing, ht => by
      have hitems := size_le_items items ht.1
      simp only [Runtime.Tree.size, strippedTree, List.length_cons, List.length_append,
        List.length_nil]
      omega
  | .object members closing, ht => by
      have hmembers := size_le_members members ht.1
      simp only [Runtime.Tree.size, strippedTree, List.length_cons, List.length_append,
        List.length_nil]
      omega

theorem size_le_items : ∀ (items : Items ν), items.WellFormed numbers →
    items.size ≤ 2 * (strippedItems items).length + 2
  | .nil, _ => by simp [Items.size]
  | .last lead item, ht => by
      have hitem := size_le_tree item ht.2
      simp only [Items.size, strippedItems, List.length_append]
      omega
  | .cons lead item post rest, ht => by
      have hitem := size_le_tree item ht.2.1
      have hrest := size_le_items rest ht.2.2.2
      cases rest with
      | nil =>
          simp only [Items.size, strippedItems, List.length_append]
          omega
      | _ =>
          simp only [Items.size, strippedItems, itemsComma, List.length_append, List.length_cons,
            List.length_nil] at hrest ⊢
          omega

theorem size_le_members : ∀ (members : Members ν), members.WellFormed numbers →
    members.size ≤ 2 * (strippedMembers members).length + 2
  | .nil, _ => by simp [Members.size]
  | .last key child, ht => by
      have hchild := size_le_tree child ht.2
      simp only [Members.size, strippedMembers, List.length_append]
      omega
  | .cons key child post rest, ht => by
      have hchild := size_le_tree child ht.2.1
      have hrest := size_le_members rest ht.2.2.2
      cases rest with
      | nil =>
          simp only [Members.size, strippedMembers, List.length_append]
          omega
      | _ =>
          simp only [Members.size, strippedMembers, membersComma, List.length_append,
            List.length_cons, List.length_nil] at hrest ⊢
          omega

end

/-- All whitespace that the loop leaves is that of JSON. -/
def Document.spaced (d : Document numbers text) : Bool :=
  StripJsonc.spaced d.lead && spacedTree d.tree && StripJsonc.spaced d.trail

/-- What `JSON.parse` makes of the stripped text. -/
theorem Document.parseJson_stripJsonc (d : Document numbers text) (hsynced : d.Synced)
    (infinity : ν) : parseJson (literalValue numbers infinity) (stripJsonc text) =
      if d.spaced then some (plainTree d.tree) else none := by
  have htrail : stripJsonc d.trail = stripComments .code d.trail :=
    dropTrailingCommas_self (comma_not_mem_of_isSpace hsynced.trail)
  have htext : stripJsonc text = stripComments .code d.lead ++
      (strippedTree d.tree ++ stripComments .code d.trail) := by
    conv => lhs; rw [d.text_eq]
    rw [hsynced.lead.stripJsonc, stripJsonc_tree d.tree d.wellFormed hsynced.tree, htrail]
  have hdelimited : Delimited (stripComments .code d.trail) := by
    intro c hc
    exact isNumberUnit_of_isSpace (hsynced.trail c (List.mem_of_mem_head? hc))
  have hsize := size_le_tree d.tree d.wellFormed
  have hread := readValue_any (n := 2 * (stripJsonc text).length + 1) hsynced.lead.spaces fun hx =>
    readValue_tree numbers infinity d.tree d.wellFormed hsynced.tree hx hdelimited
      (by rw [htext]; simp only [List.length_append]; omega)
  rw [← htext] at hread
  rw [parseJson, hread, Document.spaced]
  show _ = if StripJsonc.spaced d.lead && spacedTree d.tree && StripJsonc.spaced d.trail then _
    else _
  rw [show (stripComments .code d.lead).all isJsonSpace = StripJsonc.spaced d.lead from rfl]
  cases StripJsonc.spaced d.lead && spacedTree d.tree with
  | false => rfl
  | true =>
      have hend : skipSpace (stripComments .code d.trail) = [] ↔
          StripJsonc.spaced d.trail = true := by
        rw [skipSpace, List.dropWhile_eq_nil_iff, StripJsonc.spaced, List.all_eq_true]
      simp only [if_true, hend, Bool.true_and]

/-! ## The values -/

mutual

/-- No string loses a comma and no key is `__proto__`. -/
def alikeTree : Runtime.Tree ν → Bool
  | .scalar raw _ => dropTrailingCommas raw = raw
  | .array items _ => alikeItems items
  | .object members _ => alikeMembers members

def alikeItems : Items ν → Bool
  | .nil => true
  | .last _ item => alikeTree item
  | .cons _ item _ rest => alikeTree item && alikeItems rest

def alikeMembers : Members ν → Bool
  | .nil => true
  | .last key child =>
      dropTrailingCommas key.raw = key.raw && key.name ≠ protoKey && alikeTree child
  | .cons key child _ rest =>
      dropTrailingCommas key.raw = key.raw && key.name ≠ protoKey && alikeTree child &&
        alikeMembers rest

end

mutual

/-- No object has a key twice. -/
def DistinctTree : Runtime.Tree ν → Prop
  | .scalar _ _ => True
  | .array items _ => DistinctItems items
  | .object members _ => members.names.Nodup ∧ DistinctChildren members

def DistinctItems : Items ν → Prop
  | .nil => True
  | .last _ item => DistinctTree item
  | .cons _ item _ rest => DistinctTree item ∧ DistinctItems rest

def DistinctChildren : Members ν → Prop
  | .nil => True
  | .last _ child => DistinctTree child
  | .cons _ child _ rest => DistinctTree child ∧ DistinctChildren rest

end

mutual

theorem plainTree_eq : ∀ (t : Runtime.Tree ν), t.WellFormed numbers → alikeTree t = true →
    plainTree t = t.content.1
  | .scalar raw value, ⟨kind, hraw⟩, h => by
      rw [alikeTree, decide_eq_true_eq] at h
      rw [plainTree, Runtime.Tree.content]
      cases value with
      | string name => exact congrArg Json.string ((respelled_eq_iff hraw).mpr h)
      | _ => rfl
  | .array items closing, ht, h => by
      rw [plainTree, Runtime.Tree.content, plainItems_eq items ht.1 h]
  | .object members closing, ht, h => by
      rw [plainTree, Runtime.Tree.content, plainMembers_eq members ht.1 h ⟨[], true⟩]

theorem plainItems_eq : ∀ (items : Items ν), items.WellFormed numbers →
    alikeItems items = true → plainItems items = items.values
  | .nil, _, _ => rfl
  | .last lead item, ht, h => by
      rw [plainItems, Items.values, plainTree_eq item ht.2 h]
  | .cons lead item post rest, ht, h => by
      rw [alikeItems, Bool.and_eq_true] at h
      rw [plainItems, Items.values, plainTree_eq item ht.2.1 h.1, plainItems_eq rest ht.2.2.2 h.2]

theorem plainMembers_eq : ∀ (members : Members ν), members.WellFormed numbers →
    alikeMembers members = true → ∀ o : JsObject ν,
    plainMembers o.entries members = (members.assign o).entries
  | .nil, _, _, _ => rfl
  | .last key child, ht, h, o => by
      simp only [alikeMembers, Bool.and_eq_true, decide_eq_true_eq] at h
      rw [plainMembers, Members.assign, JsObject.assign_of_ne h.1.2,
        (respelled_eq_iff ht.1.raw).mpr h.1.1, plainTree_eq child ht.2 h.2]
  | .cons key child post rest, ht, h, o => by
      simp only [alikeMembers, Bool.and_eq_true, decide_eq_true_eq] at h
      have hrest := plainMembers_eq rest ht.2.2.2 h.2
        (o.assign key.name child.content.1 child.content.2)
      rw [Members.assign, ← hrest, plainMembers, JsObject.assign_of_ne h.1.1.2,
        (respelled_eq_iff ht.1.raw).mpr h.1.1.1, plainTree_eq child ht.2.1 h.1.2]

end

/-! ## The values of distinct keys -/

def setAll (entries : List (JsString × Json ν)) (more : List (JsString × Json ν)) :
    List (JsString × Json ν) :=
  more.foldl (fun entries entry => setEntry entries entry.1 entry.2) entries

theorem setEntry_length (entries : List (JsString × Json ν)) (key : JsString) (value : Json ν) :
    (setEntry entries key value).length =
      if key ∈ entries.map Prod.fst then entries.length else entries.length + 1 := by
  split
  · rename_i hmem
    induction entries with
    | nil => cases hmem
    | cons entry rest ih =>
        obtain ⟨key', value'⟩ := entry
        by_cases hkey : key' = key
        · subst hkey
          rw [setEntry_cons_self, List.length_cons, List.length_cons]
        · rw [setEntry_cons_ne _ _ _ hkey, List.length_cons, List.length_cons,
            ih (by simpa [Ne.symm hkey] using hmem)]
  · rename_i hmem
    rw [setEntry_of_not_mem _ hmem, List.length_append, List.length_singleton]

theorem setAll_length (entries more : List (JsString × Json ν)) :
    (setAll entries more).length ≤ entries.length + more.length := by
  induction more generalizing entries with
  | nil => exact Nat.le_refl _
  | cons entry more ih =>
      have hset := setEntry_length entries entry.1 entry.2
      have hrest := ih (setEntry entries entry.1 entry.2)
      show (setAll (setEntry entries entry.1 entry.2) more).length ≤ _
      rw [List.length_cons]
      split at hset <;> omega

/-- Where no entry is lost none was set twice. -/
theorem setAll_eq_append {entries more : List (JsString × Json ν)}
    (h : (setAll entries more).length = entries.length + more.length) :
    setAll entries more = entries ++ more := by
  induction more generalizing entries with
  | nil => exact (List.append_nil entries).symm
  | cons entry more ih =>
      have hset := setEntry_length entries entry.1 entry.2
      have hbound := setAll_length (setEntry entries entry.1 entry.2) more
      have hstep : setAll entries (entry :: more) =
        setAll (setEntry entries entry.1 entry.2) more := rfl
      rw [hstep, List.length_cons] at h
      split at hset
      · omega
      · rename_i hmem
        rw [hstep, ih (by omega), setEntry_of_not_mem _ hmem, List.append_assoc]
        rfl

theorem setAll_of_nodup {entries more : List (JsString × Json ν)}
    (h : ((entries ++ more).map Prod.fst).Nodup) : setAll entries more = entries ++ more := by
  induction more generalizing entries with
  | nil => exact (List.append_nil entries).symm
  | cons entry more ih =>
      have hmem : entry.1 ∉ entries.map Prod.fst := by
        rw [List.map_append, List.map_cons, List.nodup_append] at h
        exact fun hmem => h.2.2 _ hmem _ (List.mem_cons_self ..) rfl
      show setAll (setEntry entries entry.1 entry.2) more = _
      rw [setEntry_of_not_mem _ hmem, ih (by simpa using h), List.append_assoc]
      rfl

theorem assignAll_of_ne {contents : Contents ν} (h : protoKey ∉ contents.map Prod.fst)
    (o : JsObject ν) : (assignAll o contents).entries =
      setAll o.entries (contents.map fun entry => (entry.1, entry.2.1)) := by
  induction contents generalizing o with
  | nil => rfl
  | cons entry rest ih =>
      simp only [List.map_cons, List.mem_cons, not_or] at h
      show (assignAll (o.assign entry.1 entry.2.1 entry.2.2) rest).entries = _
      rw [ih h.2, JsObject.assign_of_ne (Ne.symm h.1)]
      rfl

/-- A key `__proto__` that comes once is taken by the accessor. -/
theorem lookup_proto_of_nodup {contents : Contents ν} (h : (contents.map Prod.fst).Nodup) :
    (assignAll ⟨[], true⟩ contents).entries.lookup protoKey = none := by
  by_cases hmem : protoKey ∈ contents.map Prod.fst
  · obtain ⟨⟨key, c⟩, hentry, hkey⟩ := List.mem_map.mp hmem
    obtain ⟨pre, post, rfl⟩ := List.append_of_mem hentry
    subst hkey
    rw [List.map_append, List.map_cons, List.nodup_append, List.nodup_cons] at h
    have hpre : protoKey ∉ pre.map Prod.fst := fun hmem =>
      h.2.2 _ hmem _ (List.mem_cons_self ..) rfl
    obtain ⟨hnone, hinherits⟩ := assignAll_of_not_mem (o := (⟨[], true⟩ : JsObject ν)) hpre
    have hsplit : assignAll ⟨[], true⟩ (pre ++ (protoKey, c) :: post) =
        assignAll ((assignAll ⟨[], true⟩ pre).assign protoKey c.1 c.2) post := by
      simp only [assignAll, List.foldl_append, List.foldl_cons]
    rw [hsplit, (assignAll_of_not_mem h.2.1.1).1, JsObject.entries_assign_proto (hinherits rfl)]
    exact hnone
  · exact (assignAll_of_not_mem hmem).1

/-- What `JSON.parse` sets, in order. -/
def plainContents : Members ν → List (JsString × Json ν)
  | .nil => []
  | .last key child => [(respelled key.raw key.name, plainTree child)]
  | .cons key child _ rest => (respelled key.raw key.name, plainTree child) :: plainContents rest

theorem plainMembers_eq_setAll : ∀ (members : Members ν) (entries : List (JsString × Json ν)),
    plainMembers entries members = setAll entries (plainContents members)
  | .nil, _ => rfl
  | .last _ _, _ => rfl
  | .cons _ _ _ rest, _ => plainMembers_eq_setAll rest _

theorem plainContents_length : ∀ members : Members ν,
    (plainContents members).length = members.contents.length
  | .nil => rfl
  | .last _ _ => rfl
  | .cons _ _ _ rest => congrArg (· + 1) (plainContents_length rest)

theorem mem_keys_setAll {entries more : List (JsString × Json ν)} {key : JsString} :
    key ∈ (setAll entries more).map Prod.fst ↔
      key ∈ entries.map Prod.fst ∨ key ∈ more.map Prod.fst := by
  induction more generalizing entries with
  | nil => simp [setAll]
  | cons entry more ih =>
      show key ∈ (setAll (setEntry entries entry.1 entry.2) more).map Prod.fst ↔ _
      rw [ih, mem_keys_setEntry, List.map_cons, List.mem_cons, or_assoc]
      exact or_left_comm

theorem Spells.comma_mem {body value : JsString} (h : Spells body value)
    (hmem : unit ',' ∈ body) : unit ',' ∈ value := by
  induction h with
  | nil => cases hmem
  | plain _ _ _ _ ih =>
      rcases List.mem_cons.mp hmem with heq | hrest
      · exact heq ▸ List.mem_cons_self ..
      · exact List.mem_cons_of_mem _ (ih hrest)
  | escape _ hunescape _ ih =>
      simp only [List.mem_cons] at hmem
      rcases hmem with heq | rfl | hrest
      · exact absurd heq (by decide)
      · cases hunescape
      · exact List.mem_cons_of_mem _ (ih hrest)
  | hex ha hb hc hd _ ih =>
      simp only [List.mem_cons] at hmem
      rcases hmem with heq | heq | heq | heq | heq | heq | hrest
      · exact absurd heq (by decide)
      · exact absurd heq (by decide)
      · exact absurd heq.symm (hexValue_plain ha).2.2.2
      · exact absurd heq.symm (hexValue_plain hb).2.2.2
      · exact absurd heq.symm (hexValue_plain hc).2.2.2
      · exact absurd heq.symm (hexValue_plain hd).2.2.2
      · exact List.mem_cons_of_mem _ (ih hrest)

/-- A name without commas is spelled without them. -/
theorem respelled_of_no_comma {raw name : JsString} {kind : TokenKind}
    (h : IsToken numbers raw kind (.string name)) (hcomma : unit ',' ∉ name) :
    respelled raw name = name := by
  obtain ⟨body, body', hraw, hspells, -⟩ := respelled_spells h
  refine (respelled_eq_iff h).mpr (dropTrailingCommas_self ?_)
  rw [hraw]
  simp only [List.mem_cons, List.mem_append, List.not_mem_nil, or_false, not_or]
  exact ⟨by decide, fun hmem => hcomma (hspells.comma_mem hmem), by decide⟩

theorem respelled_proto {key : MemberKey} (h : key.WellFormed numbers)
    (hname : protoKey = key.name) : protoKey = respelled key.raw key.name := by
  refine hname.trans (respelled_of_no_comma h.raw ?_).symm
  rw [← hname]
  decide

theorem proto_mem_plainContents : ∀ members : Members ν, members.WellFormed numbers →
    protoKey ∈ members.names → protoKey ∈ (plainContents members).map Prod.fst
  | .nil, _, h => h
  | .last key child, ht, h => by
      simp only [Members.names, List.mem_singleton] at h
      simp only [plainContents, List.map_cons, List.map_nil, List.mem_singleton]
      exact respelled_proto ht.1 h
  | .cons key child post rest, ht, h => by
      simp only [Members.names, List.mem_cons] at h
      simp only [plainContents, List.map_cons, List.mem_cons]
      exact h.imp (respelled_proto ht.1) (proto_mem_plainContents rest ht.2.2.2)

mutual

/-- Where the keys are distinct, the values are the same for no other reason. -/
theorem alikeTree_of_eq : ∀ (t : Runtime.Tree ν), t.WellFormed numbers → DistinctTree t →
    plainTree t = t.content.1 → alikeTree t = true
  | .scalar raw value, ⟨kind, hraw⟩, _, h => by
      rw [alikeTree, decide_eq_true_eq]
      rcases token_cases hraw with ⟨body, name, -, rfl, -⟩ | ⟨-, hunits, -⟩ | hword
      · exact (respelled_eq_iff hraw).mp (Json.string.inj h)
      · exact dropTrailingCommas_self (unquoted_token (.inl hunits)).2
      · exact dropTrailingCommas_self
          (unquoted_token (.inr (hword.imp And.left (Or.imp And.left And.left)))).2
  | .array items closing, ht, hdistinct, h =>
      alikeItems_of_eq items ht.1 hdistinct (Json.array.inj h)
  | .object members closing, ht, hdistinct, h => by
      have hentries : setAll [] (plainContents members) =
          (assignAll ⟨[], true⟩ members.contents).entries := by
        rw [← plainMembers_eq_setAll, ← Members.assign_eq]
        exact Json.object.inj h
      have hnodup := hdistinct.1
      rw [Members.names_eq] at hnodup
      have hproto : protoKey ∉ members.names := by
        intro hmem
        have hplain : protoKey ∈ (setAll [] (plainContents members)).map Prod.fst :=
          mem_keys_setAll.mpr (.inr (proto_mem_plainContents members ht.1 hmem))
        rw [hentries] at hplain
        obtain ⟨entry, hentry, hkey⟩ := List.mem_map.mp hplain
        have hnone := List.lookup_eq_none_iff.mp (lookup_proto_of_nodup hnodup) entry hentry
        simp [hkey] at hnone
      have hkeys : ((members.contents.map fun entry => (entry.1, entry.2.1)).map
          Prod.fst).Nodup := by
        rwa [List.map_map]
      have hassigned := assignAll_of_ne (by rwa [← Members.names_eq]) (⟨[], true⟩ : JsObject ν)
      rw [setAll_of_nodup hkeys] at hassigned
      rw [hassigned, List.nil_append] at hentries
      have hlength : (setAll [] (plainContents members)).length =
          0 + (plainContents members).length := by
        rw [hentries, List.length_map, plainContents_length, Nat.zero_add]
      rw [setAll_eq_append hlength, List.nil_append] at hentries
      exact alikeMembers_of_eq members ht.1 hdistinct.2 hproto hentries

theorem alikeItems_of_eq : ∀ (items : Items ν), items.WellFormed numbers → DistinctItems items →
    plainItems items = items.values → alikeItems items = true
  | .nil, _, _, _ => rfl
  | .last lead item, ht, hdistinct, h =>
      alikeTree_of_eq item ht.2 hdistinct (List.cons.inj h).1
  | .cons lead item post rest, ht, hdistinct, h => by
      rw [alikeItems, alikeTree_of_eq item ht.2.1 hdistinct.1 (List.cons.inj h).1,
        alikeItems_of_eq rest ht.2.2.2 hdistinct.2 (List.cons.inj h).2]
      rfl

theorem alikeMembers_of_eq : ∀ (members : Members ν), members.WellFormed numbers →
    DistinctChildren members → protoKey ∉ members.names →
    plainContents members = (members.contents.map fun entry => (entry.1, entry.2.1)) →
    alikeMembers members = true
  | .nil, _, _, _, _ => rfl
  | .last key child, ht, hdistinct, hproto, h => by
      simp only [Members.names, List.mem_singleton] at hproto
      simp only [plainContents, Members.contents, List.map_cons, List.cons.injEq,
        Prod.mk.injEq] at h
      simp only [alikeMembers, Bool.and_eq_true, decide_eq_true_eq]
      exact ⟨⟨(respelled_eq_iff ht.1.raw).mp h.1.1, Ne.symm hproto⟩,
        alikeTree_of_eq child ht.2 hdistinct h.1.2⟩
  | .cons key child post rest, ht, hdistinct, hproto, h => by
      simp only [Members.names, List.mem_cons, not_or] at hproto
      simp only [plainContents, Members.contents, List.map_cons, List.cons.injEq,
        Prod.mk.injEq] at h
      simp only [alikeMembers, Bool.and_eq_true, decide_eq_true_eq]
      exact ⟨⟨⟨(respelled_eq_iff ht.1.raw).mp h.1.1, Ne.symm hproto.1⟩,
        alikeTree_of_eq child ht.2.1 hdistinct.1 h.1.2⟩,
        alikeMembers_of_eq rest ht.2.2.2 hdistinct.2 hproto.2 h.2⟩

end

/-! ## The law -/

/-- What `parseJsonc` returns is what `JSON.parse` makes of the stripped text. -/
def ReadersAgree (numbers : NumberFormat ν) (infinity : ν) (text : JsString) : Prop :=
  ∀ v, parseJsonc numbers text = some v →
    parseJson (literalValue numbers infinity) (stripJsonc text) = some v

/-- Nothing in the document is read in two ways. -/
structure Document.Plain (d : Document numbers text) : Prop where
  synced : d.Synced
  spaced : d.spaced = true
  alike : alikeTree d.tree = true

theorem Document.readersAgree_iff (d : Document numbers text) (hsynced : d.Synced) (infinity : ν) :
    ReadersAgree numbers infinity text ↔
      d.spaced = true ∧ plainTree d.tree = d.tree.content.1 := by
  rw [ReadersAgree, d.parse, d.parseJson_stripJsonc hsynced]
  constructor
  · intro h
    have hread := h _ rfl
    split at hread
    · rename_i hspaced
      exact ⟨hspaced, Option.some.inj hread⟩
    · cases hread
  · rintro ⟨hspaced, hvalue⟩ v hv
    rw [if_pos hspaced, hvalue, hv]

theorem Document.Plain.readersAgree {d : Document numbers text} (h : d.Plain) (infinity : ν) :
    ReadersAgree numbers infinity text :=
  (d.readersAgree_iff h.synced infinity).mpr
    ⟨h.spaced, plainTree_eq d.tree d.wellFormed h.alike⟩

theorem Document.plain_of_readersAgree {d : Document numbers text} {infinity : ν}
    (hsynced : d.Synced) (hdistinct : DistinctTree d.tree)
    (h : ReadersAgree numbers infinity text) : d.Plain := by
  obtain ⟨hspaced, hvalue⟩ := (d.readersAgree_iff hsynced infinity).mp h
  exact ⟨hsynced, hspaced, alikeTree_of_eq d.tree d.wellFormed hdistinct hvalue⟩

/-- The readers agree on plain documents, and on others only where a comment is seen in two ways
or an object has a key twice. -/
theorem Document.readersAgree_cases (d : Document numbers text) (infinity : ν) :
    (d.Plain → ReadersAgree numbers infinity text) ∧
      (ReadersAgree numbers infinity text →
        d.Plain ∨ ¬d.Synced ∨ ¬DistinctTree d.tree) := by
  refine ⟨fun h => h.readersAgree infinity, fun h => ?_⟩
  by_cases hsynced : d.Synced
  · by_cases hdistinct : DistinctTree d.tree
    · exact .inl (d.plain_of_readersAgree hsynced hdistinct h)
    · exact .inr (.inr hdistinct)
  · exact .inr (.inl hsynced)

/-- A string that is a JSON text itself. -/
def commaString : JsString := [unit '"', unit ',', unit '}', unit '"']

theorem not_readersAgree_commaString : ¬ReadersAgree digits 0 commaString := by
  intro h
  have hjsonc : parseJsonc digits commaString = some (.string [unit ',', unit '}']) := rfl
  have hjson : parseJson (literalValue digits 0) (stripJsonc commaString) =
      some (.string [unit '}']) := rfl
  have hsame := h _ hjsonc
  rw [hjson] at hsame
  cases hsame

end AfyxGraph.Resolution.StripJsonc
