import AfyxGraph.Runtime.JsoncSplice

/-! # A property cut out of an object

What becomes of the text when a property goes with one comma, and what is assigned without
it. A key can occur more than once, so both are said of the first property with the key.
-/

namespace AfyxGraph.Runtime

open AfyxGraph.Core

variable {ν : Type} {numbers : NumberFormat ν} {key : JsString}

/-! ## What the properties assign -/

/-- The keys in their order, each with its value and whether that inherits. -/
abbrev Contents (ν : Type) := List (JsString × Json ν × Bool)

def assignAll (o : JsObject ν) (contents : Contents ν) : JsObject ν :=
  contents.foldl (fun o entry => o.assign entry.1 entry.2.1 entry.2.2) o

def Members.contents : Members ν → Contents ν
  | .nil => []
  | .last k child => [(k.name, child.content)]
  | .cons k child _ rest => (k.name, child.content) :: rest.contents

theorem Members.assign_eq : ∀ (members : Members ν) (o : JsObject ν),
    members.assign o = assignAll o members.contents
  | .nil, _ => rfl
  | .last _ _, _ => rfl
  | .cons _ _ _ rest, _ => rest.assign_eq _

theorem Members.names_eq : ∀ members : Members ν, members.names = members.contents.map Prod.fst
  | .nil => rfl
  | .last _ _ => rfl
  | .cons k child post rest => by rw [names, contents, List.map_cons, rest.names_eq]

theorem Members.contents_properties : ∀ (members : Members ν) (offset : Nat)
    (comma : Option (Token ν)), (members.properties offset comma).map
      (fun entry => (entry.key, entry.value.value, entry.value.inherits)) = members.contents
  | .nil, _, _ => rfl
  | .last k child, offset, comma => by
      simp only [properties, contents, List.map_cons, List.map_nil, Tree.node_value,
        Tree.node_inherits]
  | .cons k child post rest, offset, comma => by
      simp only [properties, contents, List.map_cons, Tree.node_value, Tree.node_inherits,
        rest.contents_properties]

/-- The objects differ in the entry of the key, or of `__proto__` in what they inherit too. -/
structure AgreeBeside (key : JsString) (o o' : JsObject ν) : Prop where
  entries : removeEntry o.entries key = removeEntry o'.entries key
  inherits : key ≠ protoKey → o.inherits = o'.inherits

theorem AgreeBeside.refl (key : JsString) (o : JsObject ν) : AgreeBeside key o o :=
  ⟨rfl, fun _ => rfl⟩

theorem AgreeBeside.set {o o' : JsObject ν} (h : AgreeBeside key o o') (name : JsString)
    (child : Json ν) :
    AgreeBeside key { o with entries := setEntry o.entries name child }
      { o' with entries := setEntry o'.entries name child } := by
  refine ⟨?_, h.inherits⟩
  by_cases hname : name = key
  · subst hname
    simp only [removeEntry_setEntry_self, h.entries]
  · simp only [removeEntry_setEntry_ne _ _ hname, h.entries]

theorem AgreeBeside.assign_self {o o' : JsObject ν} (h : AgreeBeside key o o') (child : Json ν)
    (inherits : Bool) : AgreeBeside key o (o'.assign key child inherits) := by
  unfold JsObject.assign
  by_cases hproto : key = protoKey ∧ o'.inherits = true
  · rw [if_pos hproto]
    refine ⟨?_, fun hne => absurd hproto.1 hne⟩
    cases child <;> exact h.entries
  · rw [if_neg hproto]
    exact ⟨by rw [removeEntry_setEntry_self, h.entries], h.inherits⟩

theorem AgreeBeside.assign {o o' : JsObject ν} (h : AgreeBeside key o o') (name : JsString)
    (child : Json ν) (inherits : Bool) :
    AgreeBeside key (o.assign name child inherits) (o'.assign name child inherits) := by
  by_cases hname : name = key
  · subst hname
    have hself := (h.assign_self child inherits)
    exact ⟨((AgreeBeside.refl name o).assign_self child inherits).entries.symm.trans hself.entries,
      fun hne => by
        rw [JsObject.assign_of_ne hne, JsObject.assign_of_ne hne]
        exact h.inherits hne⟩
  · by_cases hproto : name = protoKey
    · have hinherits := h.inherits fun heq => hname (hproto.trans heq.symm)
      unfold JsObject.assign
      by_cases hsetter : name = protoKey ∧ o.inherits = true
      · rw [if_pos hsetter, if_pos (by rwa [hinherits] at hsetter)]
        cases child <;> exact ⟨h.entries, fun _ => by first | rfl | exact hinherits⟩
      · rw [if_neg hsetter, if_neg (by rwa [hinherits] at hsetter)]
        exact h.set name child
    · rw [JsObject.assign_of_ne hproto, JsObject.assign_of_ne hproto]
      exact h.set name child

theorem AgreeBeside.assignAll {contents : Contents ν} {o o' : JsObject ν}
    (h : AgreeBeside key o o') :
    AgreeBeside key (assignAll o contents) (assignAll o' contents) := by
  induction contents generalizing o o' with
  | nil => exact h
  | cons entry rest ih => exact ih (h.assign _ _ _)

/-- Without its first property a key leaves the others what they were. -/
theorem agreeBeside_eraseP {contents : Contents ν} {o o' : JsObject ν}
    (h : AgreeBeside key o o') :
    AgreeBeside key (assignAll o (contents.eraseP (·.1 = key))) (assignAll o' contents) := by
  induction contents generalizing o o' with
  | nil => exact h
  | cons entry rest ih =>
      by_cases hname : entry.1 = key
      · rw [List.eraseP_cons_of_pos (by simpa using hname)]
        refine AgreeBeside.assignAll ?_
        show AgreeBeside key o (o'.assign entry.1 entry.2.1 entry.2.2)
        rw [hname]
        exact h.assign_self _ _
      · rw [List.eraseP_cons_of_neg (by simpa using hname)]
        exact ih (h.assign _ _ _)

/-! ## The last property with a key -/

def lastValue (key : JsString) : Contents ν → Option (Json ν)
  | [] => none
  | entry :: rest => (lastValue key rest).or (if entry.1 = key then some entry.2.1 else none)

theorem lastValue_isSome {contents : Contents ν} (h : key ∈ contents.map Prod.fst) :
    (lastValue key contents).isSome = true := by
  induction contents with
  | nil => cases h
  | cons entry rest ih =>
      rw [lastValue, Option.isSome_or]
      rcases List.mem_cons.mp h with heq | hrest
      · simp [heq]
      · simp [ih hrest]

theorem JsObject.inherits_assign {o : JsObject ν} (h : o.inherits = false) (name : JsString)
    (child : Json ν) (inherits : Bool) : (o.assign name child inherits).inherits = false := by
  unfold JsObject.assign
  rw [if_neg (by simp [h])]
  exact h

theorem JsObject.lookup_assign_self {o : JsObject ν} (h : key ≠ protoKey ∨ o.inherits = false)
    (child : Json ν) (inherits : Bool) :
    (o.assign key child inherits).entries.lookup key = some child := by
  unfold JsObject.assign
  rw [if_neg (by rintro ⟨heq, htrue⟩; rcases h with h | h <;> simp_all)]
  exact lookup_setEntry_self _ _ _

/-- The accessor sets no entry. -/
theorem JsObject.entries_assign_proto {o : JsObject ν} (h : o.inherits = true) (child : Json ν)
    (inherits : Bool) : (o.assign protoKey child inherits).entries = o.entries := by
  unfold JsObject.assign
  rw [if_pos ⟨rfl, h⟩]
  cases child <;> rfl

/-- Where assigning is setting, the last property wins. -/
theorem lookup_assignAll {contents : Contents ν} {o : JsObject ν}
    (h : key ≠ protoKey ∨ o.inherits = false) : (assignAll o contents).entries.lookup key =
      (lastValue key contents).or (o.entries.lookup key) := by
  induction contents generalizing o with
  | nil => rfl
  | cons entry rest ih =>
      have hnext : key ≠ protoKey ∨ (o.assign entry.1 entry.2.1 entry.2.2).inherits = false :=
        h.imp_right fun hfalse => JsObject.inherits_assign hfalse _ _ _
      rw [lastValue, show assignAll o (entry :: rest) =
        assignAll (o.assign entry.1 entry.2.1 entry.2.2) rest from rfl, ih hnext]
      by_cases hname : entry.1 = key
      · subst hname
        rw [JsObject.lookup_assign_self h, if_pos rfl]
        cases lastValue entry.1 rest <;> rfl
      · rw [Members.lookup_assign_ne (Ne.symm hname), if_neg hname, Option.or_none]

/-- The accessor may take some of them, but what is set is the last one. -/
theorem lookup_assignAll_cases (key : JsString) (contents : Contents ν) (o : JsObject ν) :
    (assignAll o contents).entries.lookup key = o.entries.lookup key ∨
      ∃ w, lastValue key contents = some w ∧
        (assignAll o contents).entries.lookup key = some w := by
  induction contents generalizing o with
  | nil => exact Or.inl rfl
  | cons entry rest ih =>
      by_cases hset : key ≠ protoKey ∨ o.inherits = false
      · rw [lookup_assignAll hset]
        cases lastValue key (entry :: rest) with
        | none => exact Or.inl rfl
        | some w => exact Or.inr ⟨w, rfl, rfl⟩
      · have hsame : (o.assign entry.1 entry.2.1 entry.2.2).entries.lookup key =
            o.entries.lookup key := by
          simp only [ne_eq, not_or, not_not, Bool.not_eq_false] at hset
          by_cases hname : entry.1 = key
          · rw [hname, hset.1, JsObject.entries_assign_proto hset.2]
          · exact Members.lookup_assign_ne (Ne.symm hname) _ _
        rcases ih (o.assign entry.1 entry.2.1 entry.2.2) with hrest | ⟨w, hlast, hw⟩
        · exact Or.inl (hrest.trans hsame)
        · exact Or.inr ⟨w, by rw [lastValue, hlast]; rfl, hw⟩

/-- Nothing is assigned to a key before its first property. -/
theorem assignAll_of_not_mem {pre : Contents ν} {o : JsObject ν}
    (h : key ∉ pre.map Prod.fst) : (assignAll o pre).entries.lookup key = o.entries.lookup key ∧
      (key = protoKey → (assignAll o pre).inherits = o.inherits) := by
  induction pre generalizing o with
  | nil => exact ⟨rfl, fun _ => rfl⟩
  | cons entry rest ih =>
      simp only [List.map_cons, List.mem_cons, not_or] at h
      obtain ⟨hlookup, hinherits⟩ := ih (o := o.assign entry.1 entry.2.1 entry.2.2) h.2
      refine ⟨hlookup.trans (Members.lookup_assign_ne h.1 _ _), fun hproto => ?_⟩
      subst hproto
      refine (hinherits rfl).trans ?_
      rw [JsObject.assign_of_ne (Ne.symm h.1)]

/-! ## The text without a property -/

namespace Members

/-- More trivia before the first property. -/
def leadBy (lead : JsString) : Members ν → Members ν
  | .nil => .nil
  | .last k child => .last { k with lead := lead ++ k.lead } child
  | .cons k child post rest => .cons { k with lead := lead ++ k.lead } child post rest

/-- The trivia that finds no property. -/
def leadGap (lead : JsString) : Members ν → JsString
  | .nil => lead
  | _ => []

theorem leadBy_render (lead : JsString) (members : Members ν) :
    (members.leadBy lead).render ++ members.leadGap lead = lead ++ members.render := by
  cases members <;> simp [leadBy, leadGap, render, MemberKey.text]

theorem leadBy_contents (lead : JsString) (members : Members ν) :
    (members.leadBy lead).contents = members.contents := by
  cases members <;> rfl

theorem leadBy_wellFormed {lead : JsString} (hlead : Closed lead) {members : Members ν}
    (h : members.WellFormed numbers) :
    (members.leadBy lead).WellFormed numbers ∧ Closed (members.leadGap lead) := by
  cases members with
  | nil => exact ⟨trivial, hlead⟩
  | last k child =>
      exact ⟨⟨⟨hlead.append h.1.lead, h.1.raw, h.1.mid, h.1.pre⟩, h.2⟩, closed_nil⟩
  | cons k child post rest =>
      exact ⟨⟨⟨hlead.append h.1.lead, h.1.raw, h.1.mid, h.1.pre⟩, h.2⟩, closed_nil⟩

/-- The properties without the entry, and the trivia that is left behind them. -/
structure Cut (numbers : NumberFormat ν) (members : Members ν) (key : JsString) (offset : Nat)
    (entry : JsonProperty ν (JsonNode ν)) where
  rest : Members ν
  gap : JsString
  wellFormed : members.WellFormed numbers → rest.WellFormed numbers ∧ Closed gap
  contents_eq : rest.contents = members.contents.eraseP (·.1 = key)
  shorter : (rest.render ++ gap).length < members.render.length
  removeProperty_eq : ∀ before after : JsString, before.length = offset →
    removeProperty (before ++ (members.render ++ after)) entry =
      before ++ (rest.render ++ (gap ++ after))

/-- The only property goes without a comma. -/
def cutLast {k : MemberKey} (child : Tree ν) (hname : k.name = key) (offset : Nat) :
    Cut numbers (.last k child) key offset
      ⟨k.name, offset + k.lead.length, offset + k.text.length + child.render.length,
        child.node (offset + k.text.length), none, none⟩ where
  rest := .nil
  gap := k.lead
  wellFormed h := ⟨trivial, h.1.lead⟩
  contents_eq := by simp [contents, hname]
  shorter := by
    simp only [render, MemberKey.text, List.nil_append, List.length_append, List.length_cons]
    omega
  removeProperty_eq before after hoffset := by
    have htake : (before ++ ((Members.last k child).render ++ after)).take
        (offset + k.lead.length) = before ++ k.lead := by
      simp only [render, MemberKey.text, List.append_assoc]
      rw [← List.append_assoc, List.take_left' (by simp [hoffset])]
    have hdrop : (before ++ ((Members.last k child).render ++ after)).drop
        (offset + k.text.length + child.render.length) = after := by
      rw [← List.append_assoc, List.drop_left' (by simp [render, hoffset, Nat.add_assoc])]
    simp only [removeProperty, htake, hdrop]
    simp only [render, List.nil_append, List.append_assoc]

/-- A property with a comma behind it goes with that, and its trivia comes before the next. -/
def cutHead {k : MemberKey} (child : Tree ν) (post : JsString) (rest : Members ν)
    (hname : k.name = key) (offset : Nat) (commaBefore : Option (Token ν)) :
    Cut numbers (.cons k child post rest) key offset
      ⟨k.name, offset + k.lead.length, offset + k.text.length + child.render.length,
        child.node (offset + k.text.length),
        some ⟨.comma, offset + k.text.length + child.render.length + post.length,
          offset + k.text.length + child.render.length + post.length + 1, none⟩,
        commaBefore⟩ where
  rest := rest.leadBy k.lead
  gap := rest.leadGap k.lead
  wellFormed h := leadBy_wellFormed h.1.lead h.2.2.2
  contents_eq := by simp [contents, leadBy_contents, hname]
  shorter := by
    rw [leadBy_render]
    simp only [render, MemberKey.text, List.length_append, List.length_cons]
    omega
  removeProperty_eq before after hoffset := by
    have htake : (before ++ ((Members.cons k child post rest).render ++ after)).take
        (offset + k.lead.length) = before ++ k.lead := by
      simp only [render, MemberKey.text, List.append_assoc]
      rw [← List.append_assoc, List.take_left' (by simp [hoffset])]
    have hdrop : (before ++ ((Members.cons k child post rest).render ++ after)).drop
        (offset + k.text.length + child.render.length + post.length + 1) =
          rest.render ++ after := by
      have hsplit : before ++ ((Members.cons k child post rest).render ++ after) =
          (before ++ (k.text ++ (child.render ++ (post ++ [unit ','])))) ++
            (rest.render ++ after) := by
        simp [render]
      rw [hsplit, List.drop_left']
      simp only [List.length_append, List.length_cons, List.length_nil]
      omega
    simp only [removeProperty, htake, hdrop]
    rw [← List.append_assoc (rest.leadBy k.lead).render, leadBy_render]
    simp only [List.append_assoc]

/-- The last property goes with the comma before it, and the trivia before that comma stays. -/
def cutBehind {k k' : MemberKey} (child child' : Tree ν) (post : JsString)
    (hne : k.name ≠ key) (hname : k'.name = key) (offset : Nat) :
    Cut numbers (.cons k child post (.last k' child')) key offset
      ⟨k'.name,
        offset + k.text.length + child.render.length + post.length + 1 + k'.lead.length,
        offset + k.text.length + child.render.length + post.length + 1 + k'.text.length +
          child'.render.length,
        child'.node
          (offset + k.text.length + child.render.length + post.length + 1 + k'.text.length), none,
        some ⟨.comma, offset + k.text.length + child.render.length + post.length,
          offset + k.text.length + child.render.length + post.length + 1, none⟩⟩ where
  rest := .last k child
  gap := post
  wellFormed h := ⟨⟨h.1, h.2.1⟩, h.2.2.1⟩
  contents_eq := by simp [contents, hne, hname]
  shorter := by
    simp only [render, List.length_append, List.length_cons]
    omega
  removeProperty_eq before after hoffset := by
    have hsplit : before ++ ((Members.cons k child post (.last k' child')).render ++ after) =
        (before ++ (k.text ++ (child.render ++ post))) ++
          (unit ',' :: (k'.text ++ (child'.render ++ after))) := by
      simp [render]
    have htake : (before ++ ((Members.cons k child post (.last k' child')).render ++ after)).take
        (offset + k.text.length + child.render.length + post.length) =
          before ++ (k.text ++ (child.render ++ post)) := by
      rw [hsplit, List.take_left']
      simp only [List.length_append]
      omega
    have hdrop : (before ++ ((Members.cons k child post (.last k' child')).render ++ after)).drop
        (offset + k.text.length + child.render.length + post.length + 1 + k'.text.length +
          child'.render.length) = after := by
      rw [← List.append_assoc, List.drop_left']
      simp only [render, List.length_append, List.length_cons]
      omega
    simp only [removeProperty, htake, hdrop]
    simp only [render, List.append_assoc]

def Cut.cons {k : MemberKey} {rest : Members ν} {offset : Nat}
    {entry : JsonProperty ν (JsonNode ν)} (child : Tree ν) (post : JsString)
    (hne : k.name ≠ key)
    (cut : Cut numbers rest key
      (offset + k.text.length + child.render.length + post.length + 1) entry) :
    Cut numbers (.cons k child post rest) key offset entry where
  rest := .cons k child post cut.rest
  gap := cut.gap
  wellFormed h := ⟨⟨h.1, h.2.1, h.2.2.1, (cut.wellFormed h.2.2.2).1⟩, (cut.wellFormed h.2.2.2).2⟩
  contents_eq := by simp [contents, cut.contents_eq, hne]
  shorter := by
    have hrest := cut.shorter
    simp only [render, List.length_append, List.length_cons] at hrest ⊢
    omega
  removeProperty_eq before after hoffset := by
    have hrest := cut.removeProperty_eq
      (before ++ (k.text ++ (child.render ++ (post ++ [unit ','])))) after (by
        simp only [List.length_append, List.length_cons, List.length_nil]
        omega)
    simpa [render] using hrest

variable (numbers) in
/-- The entry that is found can be cut, unless it is the last one behind a comma. -/
theorem cut_of_find : ∀ (members : Members ν) {offset : Nat} {comma : Option (Token ν)}
    {entry : JsonProperty ν (JsonNode ν)},
    (members.properties offset comma).find? (·.key = key) = some entry →
    (comma = none ∨ ∀ k child, members = .last k child → k.name ≠ key) →
    Nonempty (Cut numbers members key offset entry)
  | .nil, _, _, _, h, _ => by cases h
  | .last k child, offset, comma, entry, h, hcomma => by
      by_cases hname : k.name = key
      · rcases hcomma with rfl | hother
        · simp only [properties, List.find?_cons, hname, decide_true] at h
          cases h
          subst hname
          exact ⟨cutLast child rfl offset⟩
        · exact absurd hname (hother k child rfl)
      · simp [properties, hname] at h
  | .cons k child post rest, offset, comma, entry, h, _ => by
      by_cases hname : k.name = key
      · simp only [properties, List.find?_cons, hname, decide_true] at h
        cases h
        subst hname
        exact ⟨cutHead child post rest rfl offset comma⟩
      · simp only [properties, List.find?_cons, hname, decide_false] at h
        by_cases hlast : ∃ k' child', rest = .last k' child' ∧ k'.name = key
        · obtain ⟨k', child', rfl, hname'⟩ := hlast
          simp only [properties, List.find?_cons, hname', decide_true] at h
          cases h
          subst hname'
          exact ⟨cutBehind child child' post hname rfl offset⟩
        · obtain ⟨cut⟩ := cut_of_find rest h
            (Or.inr fun k' child' heq hname' => hlast ⟨k', child', heq, hname'⟩)
          exact ⟨cut.cons child post hname⟩

end Members

end AfyxGraph.Runtime
