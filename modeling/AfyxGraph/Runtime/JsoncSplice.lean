import AfyxGraph.Runtime.JsoncPrint

/-! # Splices into the properties of an object

A value put in the place of another, and a property put behind the last one: what becomes
of the text, and what of the value.
-/

namespace AfyxGraph.Runtime

open AfyxGraph.Core

variable {ν : Type} {numbers : NumberFormat ν} {key : JsString}

namespace Members

def names : Members ν → List JsString
  | .nil => []
  | .last k _ => [k.name]
  | .cons k _ _ rest => k.name :: rest.names

theorem keys_properties : ∀ (members : Members ν) (offset : Nat) (comma : Option (Token ν)),
    (members.properties offset comma).map (·.key) = members.names
  | .nil, _, _ => rfl
  | .last _ _, _, _ => rfl
  | .cons k child post rest, offset, comma => by
      simp only [properties, names, List.map_cons, keys_properties rest]

/-! ## What is assigned -/

/-- A key that is there is set to the same effect before or after another. -/
theorem assign_setEntry_comm {o : JsObject ν} {name : JsString} (hne : name ≠ key)
    (hkey : key ∈ o.entries.map Prod.fst) (value child : Json ν) (inherits : Bool) :
    JsObject.assign { o with entries := setEntry o.entries key value } name child inherits =
      { o.assign name child inherits with
        entries := setEntry (o.assign name child inherits).entries key value } := by
  unfold JsObject.assign
  by_cases hproto : name = protoKey ∧ o.inherits = true
  · rw [if_pos hproto, if_pos hproto]
    cases child <;> rfl
  · rw [if_neg hproto, if_neg hproto, setEntry_comm value child hne hkey]

theorem mem_keys_assign {o : JsObject ν} {name : JsString} (hkey : key ∈ o.entries.map Prod.fst)
    (child : Json ν) (inherits : Bool) :
    key ∈ (o.assign name child inherits).entries.map Prod.fst := by
  unfold JsObject.assign
  by_cases hproto : name = protoKey ∧ o.inherits = true
  · rw [if_pos hproto]
    cases child <;> exact hkey
  · rw [if_neg hproto, mem_keys_setEntry]
    exact Or.inr hkey

theorem assign_set : ∀ (members : Members ν) {o : JsObject ν}, key ∉ members.names →
    key ∈ o.entries.map Prod.fst → ∀ value,
    members.assign { o with entries := setEntry o.entries key value } =
      { members.assign o with entries := setEntry (members.assign o).entries key value }
  | .nil, _, _, _, _ => rfl
  | .last k child, o, hnot, hkey, value => by
      have hne : k.name ≠ key := by simpa [names, eq_comm] using hnot
      exact assign_setEntry_comm hne hkey value _ _
  | .cons k child post rest, o, hnot, hkey, value => by
      simp only [names, List.mem_cons, not_or] at hnot
      rw [assign, assign_setEntry_comm (Ne.symm hnot.1) hkey,
        assign_set rest hnot.2 (mem_keys_assign hkey _ _), assign]

theorem lookup_assign_ne {o : JsObject ν} {name : JsString} (hne : key ≠ name) (child : Json ν)
    (inherits : Bool) : (o.assign name child inherits).entries.lookup key =
      o.entries.lookup key := by
  unfold JsObject.assign
  by_cases hproto : name = protoKey ∧ o.inherits = true
  · rw [if_pos hproto]
    cases child <;> rfl
  · rw [if_neg hproto]
    exact lookup_setEntry_ne _ _ hne

theorem lookup_assign_of_not_mem : ∀ (members : Members ν) {o : JsObject ν},
    key ∉ members.names → (members.assign o).entries.lookup key = o.entries.lookup key
  | .nil, _, _ => rfl
  | .last k child, o, hnot => by
      simp only [names, List.mem_singleton] at hnot
      exact lookup_assign_ne hnot _ _
  | .cons k child post rest, o, hnot => by
      simp only [names, List.mem_cons, not_or] at hnot
      rw [assign, lookup_assign_of_not_mem rest hnot.2, lookup_assign_ne hnot.1]

/-! ## Another value for a property -/

/-- The first property with the key gets another value. -/
def setValue (key : JsString) (value : Tree ν) : Members ν → Members ν
  | .nil => .nil
  | .last k child => if k.name = key then .last k value else .last k child
  | .cons k child post rest =>
      if k.name = key then .cons k value post rest
      else .cons k child post (rest.setValue key value)

theorem setValue_wellFormed {value : Tree ν} (hvalue : value.WellFormed numbers)
    (members : Members ν) (h : members.WellFormed numbers) :
    (members.setValue key value).WellFormed numbers := by
  cases members with
  | nil => exact trivial
  | last k child =>
      rw [setValue]
      split
      · exact ⟨h.1, hvalue⟩
      · exact h
  | cons k child post rest =>
      rw [setValue]
      split
      · exact ⟨h.1, hvalue, h.2.2⟩
      · exact ⟨h.1, h.2.1, h.2.2.1, setValue_wellFormed hvalue rest h.2.2.2⟩

/-- The property with the key: its value, and the text before and after. -/
structure Slot (numbers : NumberFormat ν) (members : Members ν) (key : JsString) where
  before : JsString
  child : Tree ν
  after : JsString
  render_eq : members.render = before ++ (child.render ++ after)
  wellFormed : members.WellFormed numbers → child.WellFormed numbers
  render_setValue : ∀ value : Tree ν,
    (members.setValue key value).render = before ++ (value.render ++ after)
  assign_setValue : key ≠ protoKey → members.names.count key = 1 →
    ∀ (o : JsObject ν) (value : Tree ν), (members.setValue key value).assign o =
      { members.assign o with
        entries := setEntry (members.assign o).entries key value.content.1 }
  lookup_assign : key ≠ protoKey → members.names.count key = 1 → ∀ o : JsObject ν,
    (members.assign o).entries.lookup key = some child.content.1

def slotLast {k : MemberKey} (child : Tree ν) (hname : k.name = key) :
    Slot numbers (.last k child) key where
  before := k.text
  child := child
  after := []
  render_eq := by rw [render, List.append_nil]
  wellFormed h := h.2
  render_setValue value := by rw [setValue, if_pos hname, render, List.append_nil]
  assign_setValue hproto _ o value := by
    subst hname
    rw [setValue, if_pos rfl, assign, assign, JsObject.assign_of_ne hproto,
      JsObject.assign_of_ne hproto, setEntry_setEntry]
  lookup_assign hproto _ o := by
    subst hname
    rw [assign, JsObject.assign_of_ne hproto]
    exact lookup_setEntry_self o.entries k.name child.content.1

theorem not_mem_of_count {names : List JsString} (h : (key :: names).count key = 1) :
    key ∉ names := by
  rw [List.count_cons_self] at h
  exact List.count_eq_zero.mp (by omega)

def slotHead {k : MemberKey} (child : Tree ν) (post : JsString) (rest : Members ν)
    (hname : k.name = key) : Slot numbers (.cons k child post rest) key where
  before := k.text
  child := child
  after := post ++ unit ',' :: rest.render
  render_eq := rfl
  wellFormed h := h.2.1
  render_setValue value := by rw [setValue, if_pos hname, render]
  assign_setValue hproto hcount o value := by
    subst hname
    have hkey : k.name ∈ (setEntry o.entries k.name child.content.1).map Prod.fst := by
      rw [mem_keys_setEntry]
      exact Or.inl rfl
    have hset := assign_set (o := { o with entries := setEntry o.entries k.name child.content.1 })
      rest (not_mem_of_count hcount) hkey value.content.1
    rw [setEntry_setEntry] at hset
    rw [setValue, if_pos rfl, assign, assign, JsObject.assign_of_ne hproto,
      JsObject.assign_of_ne hproto]
    exact hset
  lookup_assign hproto hcount o := by
    subst hname
    rw [assign, lookup_assign_of_not_mem rest (not_mem_of_count hcount),
      JsObject.assign_of_ne hproto]
    exact lookup_setEntry_self o.entries k.name child.content.1

def Slot.cons {k : MemberKey} {rest : Members ν} (child : Tree ν) (post : JsString)
    (hname : k.name ≠ key) (slot : Slot numbers rest key) :
    Slot numbers (.cons k child post rest) key where
  before := k.text ++ (child.render ++ (post ++ unit ',' :: slot.before))
  child := slot.child
  after := slot.after
  render_eq := by simp only [render, slot.render_eq, List.append_assoc, List.cons_append]
  wellFormed h := slot.wellFormed h.2.2.2
  render_setValue value := by
    simp only [setValue, if_neg hname, render, slot.render_setValue, List.append_assoc,
      List.cons_append]
  assign_setValue hproto hcount o value := by
    rw [names, List.count_cons_of_ne hname] at hcount
    rw [setValue, if_neg hname, assign, slot.assign_setValue hproto hcount, assign]
  lookup_assign hproto hcount o := by
    rw [names, List.count_cons_of_ne hname] at hcount
    rw [assign, slot.lookup_assign hproto hcount]

variable (numbers) in
theorem slot_of_find : ∀ (members : Members ν) {offset : Nat} {comma : Option (Token ν)}
    {entry : JsonProperty ν (JsonNode ν)},
    (members.properties offset comma).find? (·.key = key) = some entry →
    ∃ slot : Slot numbers members key, entry.value = slot.child.node (offset + slot.before.length)
  | .nil, _, _, _, h => by cases h
  | .last k child, offset, comma, entry, h => by
      by_cases hname : k.name = key
      · simp only [properties, List.find?_cons, hname, decide_true] at h
        cases h
        exact ⟨slotLast child hname, rfl⟩
      · simp [properties, hname] at h
  | .cons k child post rest, offset, comma, entry, h => by
      by_cases hname : k.name = key
      · simp only [properties, List.find?_cons, hname, decide_true] at h
        cases h
        exact ⟨slotHead child post rest hname, rfl⟩
      · simp only [properties, List.find?_cons, hname, decide_false] at h
        obtain ⟨slot, hslot⟩ := slot_of_find rest h
        refine ⟨slot.cons child post hname, hslot.trans ?_⟩
        have hoffset : offset + k.text.length + child.render.length + post.length + 1 +
            slot.before.length = offset + (slot.cons child post hname).before.length := by
          simp only [Slot.cons, List.length_append, List.length_cons]
          omega
        rw [hoffset]
        rfl

/-! ## One more property -/

def append (key : MemberKey) (value : Tree ν) : Members ν → Members ν
  | .nil => .last key value
  | .last k child => .cons k child [] (.last key value)
  | .cons k child post rest => .cons k child post (rest.append key value)

/-- The comma that another property needs before it. -/
def missingComma : Members ν → JsString
  | .nil => []
  | .last _ _ => [unit ',']
  | .cons _ _ _ rest => rest.missingComma

theorem append_render {k : MemberKey} {value : Tree ν} : ∀ members : Members ν,
    (members.append k value).render =
      members.render ++ (members.missingComma ++ (k.text ++ value.render))
  | .nil => rfl
  | .last _ _ => by simp [append, render, missingComma]
  | .cons _ _ _ rest => by simp [append, render, missingComma, append_render rest]

theorem render_missingComma : ∀ members : Members ν, members ≠ .nil →
    ∃ x, members.render ++ members.missingComma = x ++ [unit ',']
  | .nil, h => absurd rfl h
  | .last k child, _ => ⟨k.text ++ child.render, rfl⟩
  | .cons k child post rest, _ => by
      by_cases hrest : rest = .nil
      · subst hrest
        exact ⟨k.text ++ (child.render ++ post), by simp [render, missingComma]⟩
      · obtain ⟨x, hx⟩ := render_missingComma rest hrest
        refine ⟨k.text ++ (child.render ++ (post ++ unit ',' :: x)), ?_⟩
        simp only [render, missingComma, List.append_assoc, List.cons_append, hx]

theorem append_wellFormed {k : MemberKey} {value : Tree ν} (hk : k.WellFormed numbers)
    (hvalue : value.WellFormed numbers) (members : Members ν) (h : members.WellFormed numbers) :
    (members.append k value).WellFormed numbers := by
  cases members with
  | nil => exact ⟨hk, hvalue⟩
  | last _ _ => exact ⟨h.1, h.2, closed_nil, hk, hvalue⟩
  | cons _ _ _ rest => exact ⟨h.1, h.2.1, h.2.2.1, append_wellFormed hk hvalue rest h.2.2.2⟩

theorem append_assign {k : MemberKey} {value : Tree ν} : ∀ (members : Members ν) (o : JsObject ν),
    (members.append k value).assign o =
      (members.assign o).assign k.name value.content.1 value.content.2
  | .nil, _ => rfl
  | .last _ _, _ => rfl
  | .cons _ _ _ rest, _ => append_assign rest _

end Members

/-- Where what an insertion keeps behind the last property starts. -/
def gapStart (last : JsonProperty ν (JsonNode ν)) : Nat :=
  match last.commaAfter with
  | some comma => comma.stop
  | none => last.stop

namespace Members

theorem properties_cons_ne_nil {members : Members ν} (h : members ≠ .nil) (offset : Nat)
    (comma : Option (Token ν)) : members.properties offset comma ≠ [] := by
  cases members with
  | nil => exact absurd rfl h
  | last => simp [properties]
  | cons => simp [properties]

theorem getLast_properties : ∀ (members : Members ν) (offset : Nat) (comma : Option (Token ν)),
    members ≠ .nil → ∃ last, (members.properties offset comma).getLast? = some last ∧
      gapStart last = offset + members.render.length ∧
      members.missingComma = if last.commaAfter.isSome then [] else [unit ',']
  | .nil, _, _, h => absurd rfl h
  | .last k child, offset, comma, _ => by
      refine ⟨_, List.getLast?_singleton, ?_, rfl⟩
      simp only [gapStart, render, List.length_append]
      omega
  | .cons k child post rest, offset, comma, _ => by
      by_cases hrest : rest = .nil
      · subst hrest
        refine ⟨_, List.getLast?_singleton, ?_, rfl⟩
        simp only [gapStart, render, List.length_append, List.length_cons, List.length_nil]
        omega
      · obtain ⟨last, hlast, hstart, hcomma⟩ := getLast_properties rest
          (offset + k.text.length + child.render.length + post.length + 1)
          (some ⟨.comma, offset + k.text.length + child.render.length + post.length,
            offset + k.text.length + child.render.length + post.length + 1, none⟩) hrest
        refine ⟨last, ?_, ?_, hcomma⟩
        · rw [properties, List.getLast?_cons_of_ne_nil (properties_cons_ne_nil hrest _ _)]
          exact hlast
        · rw [hstart]
          simp only [render, List.length_append, List.length_cons]
          omega

end Members

end AfyxGraph.Runtime
