import AfyxGraph.Runtime.JsoncScan

/-! # Syntax trees of JSONC

A tree has all the text of a value in it. What the parser accepts is the text of a
well-formed tree between trivia, and its node is that of the tree: `parseNode_iff`.
-/

namespace AfyxGraph.Runtime

variable {ν : Type} {numbers : NumberFormat ν}

/-- The text of a property up to its value; `name` is the key that `raw` stands for. -/
structure MemberKey where
  lead : JsString
  raw : JsString
  name : JsString
  mid : JsString
  pre : JsString

def MemberKey.text (key : MemberKey) : JsString :=
  key.lead ++ (key.raw ++ (key.mid ++ unit ':' :: key.pre))

mutual

/-- `closing` is the trivia before the closing bracket. -/
inductive Tree (ν : Type) where
  | scalar (raw : JsString) (value : Json ν)
  | array (items : Items ν) (closing : JsString)
  | object (members : Members ν) (closing : JsString)

/-- The items of an array; `cons` is one with a comma behind it, after `post`. -/
inductive Items (ν : Type) where
  | nil
  | last (lead : JsString) (item : Tree ν)
  | cons (lead : JsString) (item : Tree ν) (post : JsString) (rest : Items ν)

/-- The properties of an object; `cons` is one with a comma behind it, after `post`. -/
inductive Members (ν : Type) where
  | nil
  | last (key : MemberKey) (child : Tree ν)
  | cons (key : MemberKey) (child : Tree ν) (post : JsString) (rest : Members ν)

end

/-! ## Text, value and node of a tree -/

mutual

def Tree.render : Tree ν → JsString
  | .scalar raw _ => raw
  | .array items closing => unit '[' :: (items.render ++ (closing ++ [unit ']']))
  | .object members closing => unit '{' :: (members.render ++ (closing ++ [unit '}']))

def Items.render : Items ν → JsString
  | .nil => []
  | .last lead item => lead ++ item.render
  | .cons lead item post rest => lead ++ (item.render ++ (post ++ unit ',' :: rest.render))

def Members.render : Members ν → JsString
  | .nil => []
  | .last key child => key.text ++ child.render
  | .cons key child post rest => key.text ++ (child.render ++ (post ++ unit ',' :: rest.render))

end

mutual

/-- The value, and whether it inherits the accessor `__proto__`. -/
def Tree.content : Tree ν → Json ν × Bool
  | .scalar _ value => (value, true)
  | .array items _ => (.array items.values, true)
  | .object members _ =>
      (.object (members.assign ⟨[], true⟩).entries, (members.assign ⟨[], true⟩).inherits)

def Items.values : Items ν → List (Json ν)
  | .nil => []
  | .last _ item => [item.content.1]
  | .cons _ item _ rest => item.content.1 :: rest.values

def Members.assign : Members ν → JsObject ν → JsObject ν
  | .nil, o => o
  | .last key child, o => o.assign key.name child.content.1 child.content.2
  | .cons key child _ rest, o =>
      rest.assign (o.assign key.name child.content.1 child.content.2)

end

mutual

def Tree.node (offset : Nat) : Tree ν → JsonNode ν
  | .scalar raw value => .mk .value offset (offset + raw.length) value true []
  | .array items closing =>
      .mk .array offset (offset + (Tree.array items closing).render.length)
        (.array items.values) true []
  | .object members closing =>
      .mk .object offset (offset + (Tree.object members closing).render.length)
        (.object (members.assign ⟨[], true⟩).entries) (members.assign ⟨[], true⟩).inherits
        (members.properties (offset + 1) none)

def Members.properties (offset : Nat) (commaBefore : Option (Token ν)) :
    Members ν → List (JsonProperty ν (JsonNode ν))
  | .nil => []
  | .last key child =>
      [⟨key.name, offset + key.lead.length, offset + key.text.length + child.render.length,
        child.node (offset + key.text.length), none, commaBefore⟩]
  | .cons key child post rest =>
      ⟨key.name, offset + key.lead.length, offset + key.text.length + child.render.length,
        child.node (offset + key.text.length),
        some ⟨.comma, offset + key.text.length + child.render.length + post.length,
          offset + key.text.length + child.render.length + post.length + 1, none⟩,
        commaBefore⟩ ::
      rest.properties (offset + key.text.length + child.render.length + post.length + 1)
        (some ⟨.comma, offset + key.text.length + child.render.length + post.length,
          offset + key.text.length + child.render.length + post.length + 1, none⟩)

end

mutual

/-- The calls the parser nests. -/
def Tree.size : Tree ν → Nat
  | .scalar _ _ => 1
  | .array items _ => items.size + 1
  | .object members _ => members.size + 1

def Items.size : Items ν → Nat
  | .nil => 1
  | .last _ item => item.size + 1
  | .cons _ item _ rest => item.size + rest.size + 1

def Members.size : Members ν → Nat
  | .nil => 1
  | .last _ child => child.size + 1
  | .cons _ child _ rest => child.size + rest.size + 1

end

structure MemberKey.WellFormed (numbers : NumberFormat ν) (key : MemberKey) : Prop where
  lead : Closed key.lead
  raw : IsToken numbers key.raw .string (.string key.name)
  mid : Closed key.mid
  pre : Closed key.pre

mutual

def Tree.WellFormed (numbers : NumberFormat ν) : Tree ν → Prop
  | .scalar raw value => ∃ kind, IsToken numbers raw kind value
  | .array items closing => items.WellFormed numbers ∧ Closed closing
  | .object members closing => members.WellFormed numbers ∧ Closed closing

def Items.WellFormed (numbers : NumberFormat ν) : Items ν → Prop
  | .nil => True
  | .last lead item => Closed lead ∧ item.WellFormed numbers
  | .cons lead item post rest =>
      Closed lead ∧ item.WellFormed numbers ∧ Closed post ∧ rest.WellFormed numbers

def Members.WellFormed (numbers : NumberFormat ν) : Members ν → Prop
  | .nil => True
  | .last key child => key.WellFormed numbers ∧ child.WellFormed numbers
  | .cons key child post rest =>
      key.WellFormed numbers ∧ child.WellFormed numbers ∧ Closed post ∧ rest.WellFormed numbers

end

theorem Tree.node_value (t : Tree ν) (offset : Nat) : (t.node offset).value = t.content.1 := by
  cases t <;> simp [Tree.node, Tree.content, JsonNode.value]

theorem Tree.node_inherits (t : Tree ν) (offset : Nat) :
    (t.node offset).inherits = t.content.2 := by
  cases t <;> simp [Tree.node, Tree.content, JsonNode.inherits]

theorem Tree.node_start (t : Tree ν) (offset : Nat) : (t.node offset).start = offset := by
  cases t <;> simp [Tree.node, JsonNode.start]

theorem Tree.node_stop (t : Tree ν) (offset : Nat) :
    (t.node offset).stop = offset + t.render.length := by
  cases t <;> simp [Tree.node, Tree.render, JsonNode.stop]

end AfyxGraph.Runtime
