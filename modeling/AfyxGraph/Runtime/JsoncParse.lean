import AfyxGraph.Core.Except
import AfyxGraph.Runtime.JsoncTree

/-! # What the parser accepts

Both directions are mutual inductions: over the tree for what the parser does with its text,
over the fuel for the tree that an accepted text has.
-/

namespace AfyxGraph.Runtime

open AfyxGraph.Core

variable {ν : Type} {numbers : NumberFormat ν} {x rest s : JsString} {c : CodeUnit}
  {offset fuel : Nat}

namespace Parser

/-- The parser at a character of punctuation. -/
def atPunctuation (kind : TokenKind) (offset : Nat) (rest : JsString) : Parser ν :=
  ⟨⟨offset + 1, rest⟩, ⟨kind, offset, offset + 1, none⟩⟩

variable (numbers rest offset) in
theorem advance_punctuation {kind : TokenKind} (hx : Closed x) (hc : punctuation c = some kind) :
    advance numbers ⟨offset, x ++ c :: rest⟩ =
      .ok (atPunctuation kind (offset + x.length) rest) := by
  rw [advance, next_punctuation hx hc]
  rfl

variable (numbers offset) in
theorem advance_scalar {raw : JsString} {kind : TokenKind} {value : Json ν} (hx : Closed x)
    (hraw : IsToken numbers raw kind value) (hrest : Delimited rest) :
    advance numbers ⟨offset, x ++ (raw ++ rest)⟩ =
      .ok ⟨⟨offset + x.length + raw.length, rest⟩,
        ⟨kind, offset + x.length, offset + x.length + raw.length, some value⟩⟩ := by
  rw [advance, next_scalar hx hraw hrest]
  rfl

variable (numbers offset) in
theorem advance_eof (hx : skipTrivia .code x = .ok []) :
    advance numbers ⟨offset, x⟩ =
      .ok ⟨⟨offset + x.length, []⟩, ⟨.eof, offset + x.length, offset + x.length, none⟩⟩ := by
  rw [advance, next_eof hx]
  rfl

variable (numbers) in
theorem consume_eq {p : Parser ν} {kind : TokenKind} (h : p.current.kind = kind) :
    p.consume numbers kind = (advance numbers p.scanner).map fun next => (p.current, next) := by
  rw [consume, if_neg (by simp [h])]
  cases advance numbers p.scanner <;> rfl

theorem parseValue_scalar {p p' : Parser ν} {value : Json ν}
    (hkind : p.current.kind = .string ∨ p.current.kind = .number ∨ p.current.kind = .literal)
    (hvalue : p.current.value = some value) (hp : advance numbers p.scanner = .ok p') :
    parseValue numbers (fuel + 1) p =
      .ok (.mk .value p.current.start p.current.stop value true [], p') := by
  rcases hkind with hkind | hkind | hkind <;>
    simp only [parseValue, hkind, hp, hvalue, bind, Except.bind, Option.getD_some]

theorem parseValue_object {p p' p'' : Parser ν} {value : JsObject ν}
    {properties : List (JsonProperty ν (JsonNode ν))} {stop : Nat}
    (hkind : p.current.kind = .openBrace) (hp : advance numbers p.scanner = .ok p')
    (hproperties : parseProperties numbers fuel p' ⟨[], true⟩ [] none =
      .ok (value, properties, atPunctuation .closeBrace stop rest))
    (hp' : advance numbers ⟨stop + 1, rest⟩ = .ok p'') :
    parseValue numbers (fuel + 1) p =
      .ok (.mk .object p.current.start (stop + 1) (.object value.entries) value.inherits
        properties, p'') := by
  have hclose := consume_eq numbers
    (show (atPunctuation .closeBrace stop rest).current.kind = .closeBrace from rfl)
  simp only [atPunctuation, hp', Except.map] at hclose
  simp only [parseValue, hkind, consume_eq numbers hkind, hp, Except.map, bind, Except.bind, hproperties,
    atPunctuation, hclose]

theorem parseValue_array {p p' p'' : Parser ν} {items : List (Json ν)} {stop : Nat}
    (hkind : p.current.kind = .openBracket) (hp : advance numbers p.scanner = .ok p')
    (hitems : parseItems numbers fuel p' [] = .ok (items, atPunctuation .closeBracket stop rest))
    (hp' : advance numbers ⟨stop + 1, rest⟩ = .ok p'') :
    parseValue numbers (fuel + 1) p =
      .ok (.mk .array p.current.start (stop + 1) (.array items) true [], p'') := by
  have hclose := consume_eq numbers
    (show (atPunctuation .closeBracket stop rest).current.kind = .closeBracket from rfl)
  simp only [atPunctuation, hp', Except.map] at hclose
  simp only [parseValue, hkind, consume_eq numbers hkind, hp, Except.map, bind, Except.bind, hitems,
    atPunctuation, hclose]

theorem parseProperties_close {p : Parser ν} {value : JsObject ν}
    {properties : List (JsonProperty ν (JsonNode ν))} {comma : Option (Token ν)}
    (h : p.current.kind = .closeBrace) :
    parseProperties numbers (fuel + 1) p value properties comma = .ok (value, properties, p) := by
  rw [parseProperties, if_pos h]

/-- The loop asks for the closing bracket behind a comma before it starts again. -/
theorem parseProperties_or_close {p : Parser ν} {value : JsObject ν}
    {properties : List (JsonProperty ν (JsonNode ν))} {comma : Option (Token ν)}
    (hfuel : 0 < fuel) :
    (if p.current.kind = .closeBrace then .ok (value, properties, p)
      else parseProperties numbers fuel p value properties comma) =
      parseProperties numbers fuel p value properties comma := by
  split
  · rename_i hclose
    obtain ⟨n, rfl⟩ : ∃ n, fuel = n + 1 := ⟨fuel - 1, by omega⟩
    rw [parseProperties_close hclose]
  · rfl

/-- The loop of `parseObject` up to the value of a property. -/
structure AtMember (numbers : NumberFormat ν) (p : Parser ν) (name : JsString)
    (childAt : Parser ν) : Prop where
  kind : p.current.kind = .string
  value : p.current.value = some (.string name)
  colon : ∃ p', advance numbers p.scanner = .ok p' ∧ p'.current.kind = .colon ∧
    advance numbers p'.scanner = .ok childAt

theorem parseProperties_last {p childAt p' : Parser ν} {name : JsString} {child : JsonNode ν}
    {value : JsObject ν} {properties : List (JsonProperty ν (JsonNode ν))}
    {comma : Option (Token ν)} (hp : AtMember numbers p name childAt)
    (hchild : parseValue numbers fuel childAt = .ok (child, p'))
    (hp' : p'.current.kind ≠ .comma) :
    parseProperties numbers (fuel + 1) p value properties comma =
      .ok (value.assign name child.value child.inherits,
        properties ++ [⟨name, p.current.start, child.stop, child, none, comma⟩], p') := by
  obtain ⟨hkind, hvalue, q, hq, hcolon, hchildAt⟩ := hp
  rw [parseProperties, if_neg (by simp [hkind]), if_neg (by simp [hkind])]
  simp only [consume_eq numbers hkind, hq, Except.map, bind, Except.bind, hvalue, consume_eq numbers hcolon,
    hchildAt, hchild, if_neg hp']

theorem parseProperties_comma {p childAt p' p'' : Parser ν} {name : JsString}
    {child : JsonNode ν} {value : JsObject ν} {properties : List (JsonProperty ν (JsonNode ν))}
    {comma : Option (Token ν)} (hp : AtMember numbers p name childAt)
    (hchild : parseValue numbers fuel childAt = .ok (child, p'))
    (hp' : p'.current.kind = .comma) (hnext : advance numbers p'.scanner = .ok p'') :
    parseProperties numbers (fuel + 1) p value properties comma =
      if p''.current.kind = .closeBrace then
        .ok (value.assign name child.value child.inherits,
          properties ++ [⟨name, p.current.start, child.stop, child, some p'.current, comma⟩], p'')
      else
        parseProperties numbers fuel p'' (value.assign name child.value child.inherits)
          (properties ++ [⟨name, p.current.start, child.stop, child, some p'.current, comma⟩])
          (some p'.current) := by
  obtain ⟨hkind, hvalue, q, hq, hcolon, hchildAt⟩ := hp
  rw [parseProperties, if_neg (by simp [hkind]), if_neg (by simp [hkind])]
  simp only [consume_eq numbers hkind, hq, Except.map, bind, Except.bind, hvalue, consume_eq numbers hcolon,
    hchildAt, hchild, if_pos hp', consume_eq numbers hp', hnext]

theorem parseItems_close {p : Parser ν} {items : List (Json ν)}
    (h : p.current.kind = .closeBracket) :
    parseItems numbers (fuel + 1) p items = .ok (items, p) := by
  rw [parseItems, if_pos h]

theorem parseItems_or_close {p : Parser ν} {items : List (Json ν)} (hfuel : 0 < fuel) :
    (if p.current.kind = .closeBracket then .ok (items, p)
      else parseItems numbers fuel p items) = parseItems numbers fuel p items := by
  split
  · rename_i hclose
    obtain ⟨n, rfl⟩ : ∃ n, fuel = n + 1 := ⟨fuel - 1, by omega⟩
    rw [parseItems_close hclose]
  · rfl

theorem parseItems_last {p p' : Parser ν} {child : JsonNode ν} {items : List (Json ν)}
    (hkind : p.current.kind ≠ .closeBracket) (heof : p.current.kind ≠ .eof)
    (hchild : parseValue numbers fuel p = .ok (child, p')) (hp' : p'.current.kind ≠ .comma) :
    parseItems numbers (fuel + 1) p items = .ok (items ++ [child.value], p') := by
  rw [parseItems, if_neg hkind, if_neg heof]
  simp only [hchild, bind, Except.bind, if_neg hp']

theorem parseItems_comma {p p' p'' : Parser ν} {child : JsonNode ν} {items : List (Json ν)}
    (hkind : p.current.kind ≠ .closeBracket) (heof : p.current.kind ≠ .eof)
    (hchild : parseValue numbers fuel p = .ok (child, p')) (hp' : p'.current.kind = .comma)
    (hnext : advance numbers p'.scanner = .ok p'') :
    parseItems numbers (fuel + 1) p items =
      if p''.current.kind = .closeBracket then .ok (items ++ [child.value], p'')
      else parseItems numbers fuel p'' (items ++ [child.value]) := by
  rw [parseItems, if_neg hkind, if_neg heof]
  simp only [hchild, bind, Except.bind, if_pos hp', consume_eq numbers hp', hnext, Except.map]

/-- What `parseValue` accepts is no bracket that closes and not the end. -/
theorem kind_of_parseValue {p : Parser ν} {result : JsonNode ν × Parser ν}
    (h : parseValue numbers fuel p = .ok result) :
    p.current.kind ≠ .closeBracket ∧ p.current.kind ≠ .eof := by
  cases fuel with
  | zero => cases h
  | succ fuel =>
      constructor <;>
      · intro hkind
        rw [parseValue, hkind] at h
        cases h

end Parser

open AfyxGraph.Runtime.Parser

theorem MemberKey.text_length (key : MemberKey) :
    key.text.length =
      key.lead.length + key.raw.length + key.mid.length + 1 + key.pre.length := by
  simp only [MemberKey.text, List.length_append, List.length_cons]
  omega

/-! ## The text of a tree is accepted -/

theorem MemberKey.advance {key : MemberKey} {childAt : Parser ν} (hkey : key.WellFormed numbers)
    (hchild : Parser.advance numbers
      ⟨offset + key.lead.length + key.raw.length + key.mid.length + 1, key.pre ++ s⟩ =
        .ok childAt) :
    ∃ p, Parser.advance numbers ⟨offset, key.text ++ s⟩ = .ok p ∧
      AtMember numbers p key.name childAt ∧ p.current.start = offset + key.lead.length := by
  have hcolon : Delimited (key.mid ++ unit ':' :: (key.pre ++ s)) :=
    hkey.mid.delimited (delimited_cons (by decide))
  have hp := advance_scalar numbers offset hkey.lead hkey.raw hcolon
  have htext : key.text ++ s =
      key.lead ++ (key.raw ++ (key.mid ++ unit ':' :: (key.pre ++ s))) := by
    simp [MemberKey.text]
  rw [htext]
  refine ⟨_, hp, ⟨rfl, rfl, _, advance_punctuation _ _ _ hkey.mid (by decide), rfl, hchild⟩, rfl⟩

theorem Items.size_pos (items : Items ν) : 0 < items.size := by
  cases items <;> simp [Items.size]

theorem Members.size_pos (members : Members ν) : 0 < members.size := by
  cases members <;> simp [Members.size]

mutual

theorem Tree.parse_render : ∀ (t : Tree ν) {n k : Nat} {x r : JsString}
    {p' : Parser ν}, t.WellFormed numbers → Closed x → Delimited r → t.size ≤ n →
    Parser.advance numbers ⟨k + x.length + t.render.length, r⟩ = .ok p' →
    ∃ p, Parser.advance numbers ⟨k, x ++ (t.render ++ r)⟩ = .ok p ∧
      parseValue numbers n p = .ok (t.node (k + x.length), p')
  | .scalar raw value, fuel, offset, x, rest, p', ht, hx, hrest, hfuel, hp' => by
      obtain ⟨fuel, rfl⟩ : ∃ n, fuel = n + 1 := ⟨fuel - 1, by simp [Tree.size] at hfuel; omega⟩
      obtain ⟨kind, hraw⟩ := ht
      refine ⟨_, advance_scalar _ _ hx hraw hrest, ?_⟩
      apply parseValue_scalar _ rfl hp'
      rcases hraw.scalar with ⟨hkind, -⟩ | hkind
      · exact Or.inl hkind
      · exact Or.inr hkind
  | .array items closing, fuel, offset, x, rest, p', ht, hx, hrest, hfuel, hp' => by
      obtain ⟨fuel, rfl⟩ : ∃ n, fuel = n + 1 := ⟨fuel - 1, by simp [Tree.size] at hfuel; omega⟩
      obtain ⟨p, hp, hitems⟩ := Items.parse_render items (n := fuel)
        (k := offset + x.length + 1) (y := closing) (r := rest) (v := [])
        ht.1 ht.2 (by simp [Tree.size] at hfuel; omega)
      have hopen := advance_punctuation (c := unit '[') numbers
        (items.render ++ (closing ++ unit ']' :: rest)) offset hx rfl
      have htext : x ++ ((Tree.array items closing).render ++ rest) =
          x ++ unit '[' :: (items.render ++ (closing ++ unit ']' :: rest)) := by
        simp [Tree.render]
      have hstop : offset + x.length + 1 + items.render.length + closing.length + 1 =
          offset + x.length + (Tree.array items closing).render.length := by
        simp only [Tree.render, List.length_cons, List.length_append, List.length_nil]
        omega
      rw [← hstop] at hp'
      refine ⟨_, htext ▸ hopen, (parseValue_array rfl hp hitems hp').trans ?_⟩
      rw [hstop, List.nil_append]
      rfl
  | .object members closing, fuel, offset, x, rest, p', ht, hx, hrest, hfuel, hp' => by
      obtain ⟨fuel, rfl⟩ : ∃ n, fuel = n + 1 := ⟨fuel - 1, by simp [Tree.size] at hfuel; omega⟩
      obtain ⟨p, hp, hproperties⟩ := Members.parse_render members (n := fuel)
        (k := offset + x.length + 1) (y := closing) (r := rest)
        (o := ⟨[], true⟩) (a := []) (b := none) ht.1 ht.2
        (by simp [Tree.size] at hfuel; omega)
      have hopen := advance_punctuation (c := unit '{') numbers
        (members.render ++ (closing ++ unit '}' :: rest)) offset hx rfl
      have htext : x ++ ((Tree.object members closing).render ++ rest) =
          x ++ unit '{' :: (members.render ++ (closing ++ unit '}' :: rest)) := by
        simp [Tree.render]
      have hstop : offset + x.length + 1 + members.render.length + closing.length + 1 =
          offset + x.length + (Tree.object members closing).render.length := by
        simp only [Tree.render, List.length_cons, List.length_append, List.length_nil]
        omega
      rw [← hstop] at hp'
      refine ⟨_, htext ▸ hopen, (parseValue_object rfl hp hproperties hp').trans ?_⟩
      rw [hstop, List.nil_append]
      rfl

theorem Items.parse_render : ∀ (items : Items ν) {n k : Nat} {y r : JsString}
    {v : List (Json ν)}, items.WellFormed numbers → Closed y → items.size ≤ n →
    ∃ p, Parser.advance numbers ⟨k, items.render ++ (y ++ unit ']' :: r)⟩ = .ok p ∧
      parseItems numbers n p v =
        .ok (v ++ items.values,
          atPunctuation .closeBracket (k + items.render.length + y.length) r)
  | .nil, fuel, offset, closing, rest, values, hitems, hclosing, hfuel => by
      obtain ⟨fuel, rfl⟩ : ∃ n, fuel = n + 1 := ⟨fuel - 1, by simp [Items.size] at hfuel; omega⟩
      refine ⟨_, advance_punctuation _ _ _ hclosing rfl, ?_⟩
      rw [parseItems_close rfl]
      simp [Items.values, Items.render, atPunctuation]
  | .last lead item, fuel, offset, closing, rest, values, hitems, hclosing, hfuel => by
      obtain ⟨fuel, rfl⟩ : ∃ n, fuel = n + 1 := ⟨fuel - 1, by simp [Items.size] at hfuel; omega⟩
      have hclose := advance_punctuation (c := unit ']') numbers rest
        (offset + lead.length + item.render.length) hclosing rfl
      obtain ⟨p, hp, hitem⟩ := Tree.parse_render item (n := fuel) (k := offset) hitems.2
        hitems.1 (hclosing.delimited (delimited_cons (by decide)))
        (by simp [Items.size] at hfuel; omega) hclose
      obtain ⟨hkind, heof⟩ := kind_of_parseValue hitem
      have htext : (Items.last lead item).render ++ (closing ++ unit ']' :: rest) =
          lead ++ (item.render ++ (closing ++ unit ']' :: rest)) := by
        simp [Items.render]
      rw [htext]
      refine ⟨p, hp, (parseItems_last hkind heof hitem (by simp [atPunctuation])).trans ?_⟩
      simp [Items.values, Items.render, atPunctuation, Tree.node_value, Nat.add_assoc]
  | .cons lead item post more, fuel, offset, closing, rest, values, hitems, hclosing, hfuel => by
      obtain ⟨fuel, rfl⟩ : ∃ n, fuel = n + 1 := ⟨fuel - 1, by simp [Items.size] at hfuel; omega⟩
      obtain ⟨hlead, hitem, hpost, hmore⟩ := hitems
      have hsize : item.size ≤ fuel ∧ more.size ≤ fuel ∧ 0 < fuel := by
        have hpos := Items.size_pos more
        simp only [Items.size] at hfuel
        omega
      obtain ⟨pm, hpm, hrest⟩ := Items.parse_render more (n := fuel)
        (k := offset + lead.length + item.render.length + post.length + 1)
        (y := closing) (r := rest) (v := values ++ [item.content.1]) hmore hclosing
        hsize.2.1
      have hcomma := advance_punctuation (c := unit ',') numbers
        (more.render ++ (closing ++ unit ']' :: rest))
        (offset + lead.length + item.render.length) hpost rfl
      obtain ⟨p, hp, hparsed⟩ := Tree.parse_render item (n := fuel) (k := offset) hitem
        hlead (hpost.delimited (delimited_cons (by decide))) hsize.1 hcomma
      obtain ⟨hkind, heof⟩ := kind_of_parseValue hparsed
      have htext : (Items.cons lead item post more).render ++ (closing ++ unit ']' :: rest) =
          lead ++ (item.render ++ (post ++ unit ',' ::
            (more.render ++ (closing ++ unit ']' :: rest)))) := by
        simp [Items.render]
      rw [htext]
      refine ⟨p, hp, (parseItems_comma hkind heof hparsed rfl hpm).trans ?_⟩
      rw [Tree.node_value, parseItems_or_close hsize.2.2, hrest]
      have hstop : offset + lead.length + item.render.length + post.length + 1 +
          more.render.length + closing.length =
          offset + (Items.cons lead item post more).render.length + closing.length := by
        simp only [Items.render, List.length_append, List.length_cons]
        omega
      rw [hstop]
      simp [Items.values]

theorem Members.parse_render : ∀ (members : Members ν) {n k : Nat} {y r : JsString}
    {o : JsObject ν} {a : List (JsonProperty ν (JsonNode ν))} {b : Option (Token ν)},
    members.WellFormed numbers → Closed y → members.size ≤ n →
    ∃ p, Parser.advance numbers ⟨k, members.render ++ (y ++ unit '}' :: r)⟩ = .ok p ∧
      parseProperties numbers n p o a b =
        .ok (members.assign o, a ++ members.properties k b,
          atPunctuation .closeBrace (k + members.render.length + y.length) r)
  | .nil, fuel, offset, closing, rest, value, properties, comma, _, hclosing, hfuel => by
      obtain ⟨fuel, rfl⟩ : ∃ n, fuel = n + 1 := ⟨fuel - 1, by simp [Members.size] at hfuel; omega⟩
      refine ⟨_, advance_punctuation _ _ _ hclosing rfl, ?_⟩
      rw [parseProperties_close rfl]
      simp [Members.assign, Members.properties, Members.render, atPunctuation]
  | .last key child, fuel, offset, closing, rest, value, properties, comma, hmembers, hclosing,
      hfuel => by
      obtain ⟨fuel, rfl⟩ : ∃ n, fuel = n + 1 := ⟨fuel - 1, by simp [Members.size] at hfuel; omega⟩
      obtain ⟨hkey, hchild⟩ := hmembers
      have hlength := key.text_length
      have hclose := advance_punctuation (c := unit '}') numbers rest
        (offset + key.text.length + child.render.length) hclosing rfl
      have hstart : offset + key.lead.length + key.raw.length + key.mid.length + 1 +
          key.pre.length = offset + key.text.length := by omega
      rw [← hstart] at hclose
      obtain ⟨childAt, hchildAt, hparsed⟩ := Tree.parse_render child (n := fuel) hchild hkey.pre
        (hclosing.delimited (delimited_cons (by decide)))
        (by simp [Members.size] at hfuel; omega) hclose
      obtain ⟨p, hp, hmember, hkeyStart⟩ := MemberKey.advance hkey hchildAt
      have htext : (Members.last key child).render ++ (closing ++ unit '}' :: rest) =
          key.text ++ (child.render ++ (closing ++ unit '}' :: rest)) := by
        simp [Members.render]
      rw [htext]
      refine ⟨p, hp, (parseProperties_last hmember hparsed (by simp [atPunctuation])).trans ?_⟩
      rw [Tree.node_value, Tree.node_inherits, Tree.node_stop, hkeyStart, hstart]
      simp only [Members.assign, Members.properties, Members.render, List.length_append,
        Nat.add_assoc]
  | .cons key child post more, fuel, offset, closing, rest, value, properties, comma, hmembers,
      hclosing, hfuel => by
      obtain ⟨fuel, rfl⟩ : ∃ n, fuel = n + 1 := ⟨fuel - 1, by simp [Members.size] at hfuel; omega⟩
      obtain ⟨hkey, hchild, hpost, hmore⟩ := hmembers
      have hsize : child.size ≤ fuel ∧ more.size ≤ fuel ∧ 0 < fuel := by
        have hpos := Members.size_pos more
        simp only [Members.size] at hfuel
        omega
      have hlength := key.text_length
      have hcomma := advance_punctuation (c := unit ',') numbers
        (more.render ++ (closing ++ unit '}' :: rest))
        (offset + key.text.length + child.render.length) hpost rfl
      have hstart : offset + key.lead.length + key.raw.length + key.mid.length + 1 +
          key.pre.length = offset + key.text.length := by omega
      rw [← hstart] at hcomma
      obtain ⟨childAt, hchildAt, hparsed⟩ := Tree.parse_render child (n := fuel) hchild hkey.pre
        (hpost.delimited (delimited_cons (by decide))) hsize.1 hcomma
      obtain ⟨p, hp, hmember, hkeyStart⟩ := MemberKey.advance hkey hchildAt
      rw [hstart] at hparsed
      obtain ⟨pm, hpm, hrest⟩ := Members.parse_render more (n := fuel)
        (k := offset + key.text.length + child.render.length + post.length + 1)
        (y := closing) (r := rest)
        (o := value.assign key.name child.content.1 child.content.2)
        (a := properties ++
          [⟨key.name, offset + key.lead.length, offset + key.text.length + child.render.length,
            child.node (offset + key.text.length),
            some ⟨.comma, offset + key.text.length + child.render.length + post.length,
              offset + key.text.length + child.render.length + post.length + 1, none⟩, comma⟩])
        (b := some ⟨.comma, offset + key.text.length + child.render.length + post.length,
          offset + key.text.length + child.render.length + post.length + 1, none⟩)
        hmore hclosing hsize.2.1
      have htext : (Members.cons key child post more).render ++ (closing ++ unit '}' :: rest) =
          key.text ++ (child.render ++ (post ++ unit ',' ::
            (more.render ++ (closing ++ unit '}' :: rest)))) := by
        simp [Members.render]
      rw [htext]
      refine ⟨p, hp, (parseProperties_comma hmember hparsed rfl hpm).trans ?_⟩
      rw [Tree.node_value, Tree.node_inherits, Tree.node_stop, hkeyStart,
        parseProperties_or_close hsize.2.2]
      refine hrest.trans ?_
      have hstop : offset + key.text.length + child.render.length + post.length + 1 +
          more.render.length + closing.length =
          offset + (Members.cons key child post more).render.length + closing.length := by
        simp only [Members.render, List.length_append, List.length_cons]
        omega
      rw [hstop]
      simp [Members.assign, Members.properties]

end

/-! ## An accepted text is that of a tree -/

/-- The characters of punctuation and their kinds. -/
theorem punctuation_cases {kind : TokenKind} (h : punctuation c = some kind) :
    (c = unit '{' ∧ kind = .openBrace) ∨ (c = unit '}' ∧ kind = .closeBrace) ∨
      (c = unit '[' ∧ kind = .openBracket) ∨ (c = unit ']' ∧ kind = .closeBracket) ∨
      (c = unit ':' ∧ kind = .colon) ∨ (c = unit ',' ∧ kind = .comma) := by
  unfold punctuation at h
  split at h
  · cases h
    exact Or.inl ⟨‹_›, rfl⟩
  · split at h
    · cases h
      exact Or.inr (Or.inl ⟨‹_›, rfl⟩)
    · split at h
      · cases h
        exact Or.inr (Or.inr (Or.inl ⟨‹_›, rfl⟩))
      · split at h
        · cases h
          exact Or.inr (Or.inr (Or.inr (Or.inl ⟨‹_›, rfl⟩)))
        · split at h
          · cases h
            exact Or.inr (Or.inr (Or.inr (Or.inr (Or.inl ⟨‹_›, rfl⟩))))
          · split at h
            · cases h
              exact Or.inr (Or.inr (Or.inr (Or.inr (Or.inr ⟨‹_›, rfl⟩))))
            · cases h

namespace Parser

theorem consume_split {p p' : Parser ν} {kind : TokenKind} {token : Token ν}
    (h : p.consume numbers kind = .ok (token, p')) :
    p.current.kind = kind ∧ token = p.current ∧ advance numbers p.scanner = .ok p' := by
  unfold consume at h
  split at h
  · cases h
  · rename_i hkind
    obtain ⟨next, hnext, h⟩ := ok_of_bind h
    cases h
    exact ⟨not_not.mp hkind, rfl, hnext⟩

theorem advance_split {p : Parser ν} (h : advance numbers ⟨offset, s⟩ = .ok p) :
    Next numbers offset s p.current p.scanner := by
  obtain ⟨⟨token, scanner⟩, hnext, h⟩ := ok_of_bind h
  cases h
  exact next_split hnext

/-- The parser is at a character of punctuation. -/
theorem split_punctuation {p : Parser ν} (h : advance numbers ⟨offset, s⟩ = .ok p)
    (hkind : punctuation c = some p.current.kind) :
    ∃ x rest, Closed x ∧ s = x ++ c :: rest ∧
      p = atPunctuation p.current.kind (offset + x.length) rest := by
  obtain ⟨scanner, current⟩ := p
  dsimp only at hkind ⊢
  cases advance_split h with
  | eof _ => cases punctuation_cases hkind <;> simp_all
  | punctuation hx hc hs =>
      rename_i x rest d kind
      have hsame : d = c := by
        rcases punctuation_cases hkind with h | h | h | h | h | h <;>
          rcases punctuation_cases hc with h' | h' | h' | h' | h' | h' <;> simp_all
      subst hsame
      exact ⟨x, rest, hx, hs, rfl⟩
  | scalar hx hraw hs =>
      have hscalar := hraw.scalar
      rcases punctuation_cases hkind with h | h | h | h | h | h <;> simp_all

/-- The parser is at a string, number or literal. -/
theorem split_scalar {p : Parser ν} (h : advance numbers ⟨offset, s⟩ = .ok p)
    (hkind : p.current.kind = .string ∨ p.current.kind = .number ∨ p.current.kind = .literal) :
    ∃ x raw rest value, Closed x ∧ IsToken numbers raw p.current.kind value ∧
      s = x ++ (raw ++ rest) ∧
      p = ⟨⟨offset + x.length + raw.length, rest⟩,
        ⟨p.current.kind, offset + x.length, offset + x.length + raw.length, some value⟩⟩ := by
  obtain ⟨scanner, current⟩ := p
  dsimp only at hkind ⊢
  cases advance_split h with
  | eof _ => simp at hkind
  | punctuation hx hc hs =>
      rcases punctuation_cases hc with h | h | h | h | h | h <;> simp_all
  | scalar hx hraw hs => exact ⟨_, _, _, _, hx, hraw, hs, rfl⟩

/-- What `parseValue` has read. -/
def ReadsValue (numbers : NumberFormat ν) (offset : Nat) (s : JsString) (node : JsonNode ν)
    (p' : Parser ν) : Prop :=
  ∃ (x : JsString) (t : Tree ν) (rest : JsString), s = x ++ (t.render ++ rest) ∧ Closed x ∧
    t.WellFormed numbers ∧ node = t.node (offset + x.length) ∧
    advance numbers ⟨offset + x.length + t.render.length, rest⟩ = .ok p'

/-- What the loop of `parseArray` has read. -/
def ReadsItems (numbers : NumberFormat ν) (offset : Nat) (s : JsString)
    (before after : List (Json ν)) (p' : Parser ν) : Prop :=
  ∃ (items : Items ν) (rest : JsString), s = items.render ++ rest ∧ items.WellFormed numbers ∧
    after = before ++ items.values ∧
    advance numbers ⟨offset + items.render.length, rest⟩ = .ok p'

/-- What the loop of `parseObject` has read. -/
def ReadsMembers (numbers : NumberFormat ν) (offset : Nat) (s : JsString)
    (before after : JsObject ν) (properties properties' : List (JsonProperty ν (JsonNode ν)))
    (comma : Option (Token ν)) (p' : Parser ν) : Prop :=
  ∃ (members : Members ν) (rest : JsString), s = members.render ++ rest ∧
    members.WellFormed numbers ∧ after = members.assign before ∧
    properties' = properties ++ members.properties offset comma ∧
    advance numbers ⟨offset + members.render.length, rest⟩ = .ok p'

/-- A key and its colon. -/
theorem readsKey {p p₁ p₂ : Parser ν} {key colon : Token ν}
    (hp : advance numbers ⟨offset, s⟩ = .ok p)
    (hkey : p.consume numbers .string = .ok (key, p₁))
    (hcolon : p₁.consume numbers .colon = .ok (colon, p₂)) :
    ∃ lead raw name mid rest, s = lead ++ (raw ++ (mid ++ unit ':' :: rest)) ∧ Closed lead ∧
      IsToken numbers raw .string (.string name) ∧ Closed mid ∧
      key = ⟨.string, offset + lead.length, offset + lead.length + raw.length,
        some (.string name)⟩ ∧
      advance numbers ⟨offset + lead.length + raw.length + mid.length + 1, rest⟩ = .ok p₂ := by
  obtain ⟨hkind, rfl, hp₁⟩ := consume_split hkey
  obtain ⟨hkind₁, -, hp₂⟩ := consume_split hcolon
  obtain ⟨lead, raw, rest, value, hlead, hraw, rfl, heq⟩ := split_scalar hp (Or.inl hkind)
  rw [hkind] at hraw heq
  rw [heq] at hp₁
  obtain ⟨mid, rest, hmid, rfl, heq₁⟩ := split_punctuation (c := unit ':') hp₁ (by rw [hkind₁]; rfl)
  rw [heq₁] at hp₂
  have hscalar : ∃ name, value = .string name := by simpa using hraw.scalar
  obtain ⟨name, rfl⟩ := hscalar
  rw [heq]
  exact ⟨lead, raw, name, mid, rest, rfl, hlead, hraw, hmid, rfl, hp₂⟩

theorem scalar_reads {p p' : Parser ν} {node : JsonNode ν}
    (hp : advance numbers ⟨offset, s⟩ = .ok p)
    (hkind : p.current.kind = .string ∨ p.current.kind = .number ∨ p.current.kind = .literal)
    (h : (do
      let next ← advance numbers p.scanner
      .ok (JsonNode.mk .value p.current.start p.current.stop (p.current.value.getD .null) true [],
        next)) = .ok (node, p')) : ReadsValue numbers offset s node p' := by
  obtain ⟨next, hnext, h⟩ := ok_of_bind h
  cases h
  obtain ⟨x, raw, rest, value, hx, hraw, rfl, heq⟩ := split_scalar hp hkind
  rw [heq] at hnext
  refine ⟨x, .scalar raw value, rest, rfl, hx, ⟨_, hraw⟩, ?_, hnext⟩
  rw [heq]
  rfl

mutual

theorem parseValue_reads : ∀ {fuel offset : Nat} {s : JsString} {p p' : Parser ν}
    {node : JsonNode ν}, advance numbers ⟨offset, s⟩ = .ok p →
    parseValue numbers fuel p = .ok (node, p') → ReadsValue numbers offset s node p'
  | 0, _, _, _, _, _, _, h => by cases h
  | fuel + 1, offset, s, p, p', node, hp, h => by
      rw [parseValue] at h
      split at h
      · rename_i hkind
        obtain ⟨⟨opening, p₁⟩, hopen, h⟩ := ok_of_bind h
        obtain ⟨⟨value, properties, p₂⟩, hproperties, h⟩ := ok_of_bind h
        obtain ⟨⟨close, p₃⟩, hclose, h⟩ := ok_of_bind h
        cases h
        obtain ⟨-, rfl, hp₁⟩ := consume_split hopen
        obtain ⟨hkind₂, rfl, hp₃⟩ := consume_split hclose
        obtain ⟨x, rest, hx, rfl, heq⟩ := split_punctuation (c := unit '{') hp (by rw [hkind]; rfl)
        rw [heq] at hp₁
        obtain ⟨members, rest, rfl, hmembers, rfl, rfl, hp₂⟩ :=
          parseProperties_reads hp₁ hproperties
        obtain ⟨closing, rest, hclosing, rfl, heq₂⟩ :=
          split_punctuation (c := unit '}') hp₂ (by rw [hkind₂]; rfl)
        rw [heq₂] at hp₃
        have hlength : offset + x.length + 1 + members.render.length + closing.length + 1 =
            offset + x.length + (Tree.object members closing).render.length := by
          simp only [Tree.render, List.length_cons, List.length_append, List.length_nil]
          omega
        have hstart : p.current.start = offset + x.length := by
          rw [heq]
          rfl
        have hstop : p₂.current.stop =
            offset + x.length + (Tree.object members closing).render.length := by
          rw [heq₂, ← hlength]
          rfl
        refine ⟨x, .object members closing, rest, by simp [Tree.render], hx, ⟨hmembers, hclosing⟩,
          ?_, ?_⟩
        · rw [hstart, hstop, List.nil_append]
          rfl
        · rw [← hlength]
          exact hp₃
      · rename_i hkind
        obtain ⟨⟨opening, p₁⟩, hopen, h⟩ := ok_of_bind h
        obtain ⟨⟨items, p₂⟩, hitems, h⟩ := ok_of_bind h
        obtain ⟨⟨close, p₃⟩, hclose, h⟩ := ok_of_bind h
        cases h
        obtain ⟨-, rfl, hp₁⟩ := consume_split hopen
        obtain ⟨hkind₂, rfl, hp₃⟩ := consume_split hclose
        obtain ⟨x, rest, hx, rfl, heq⟩ := split_punctuation (c := unit '[') hp (by rw [hkind]; rfl)
        rw [heq] at hp₁
        obtain ⟨items, rest, rfl, hwell, rfl, hp₂⟩ := parseItems_reads hp₁ hitems
        obtain ⟨closing, rest, hclosing, rfl, heq₂⟩ :=
          split_punctuation (c := unit ']') hp₂ (by rw [hkind₂]; rfl)
        rw [heq₂] at hp₃
        have hlength : offset + x.length + 1 + items.render.length + closing.length + 1 =
            offset + x.length + (Tree.array items closing).render.length := by
          simp only [Tree.render, List.length_cons, List.length_append, List.length_nil]
          omega
        have hstart : p.current.start = offset + x.length := by
          rw [heq]
          rfl
        have hstop : p₂.current.stop =
            offset + x.length + (Tree.array items closing).render.length := by
          rw [heq₂, ← hlength]
          rfl
        refine ⟨x, .array items closing, rest, by simp [Tree.render], hx, ⟨hwell, hclosing⟩,
          ?_, ?_⟩
        · rw [hstart, hstop, List.nil_append]
          rfl
        · rw [← hlength]
          exact hp₃
      · exact scalar_reads hp (Or.inl ‹_›) h
      · exact scalar_reads hp (Or.inr (Or.inl ‹_›)) h
      · exact scalar_reads hp (Or.inr (Or.inr ‹_›)) h
      · cases h

theorem parseProperties_reads : ∀ {fuel offset : Nat} {s : JsString} {p p' : Parser ν}
    {value value' : JsObject ν} {properties properties' : List (JsonProperty ν (JsonNode ν))}
    {comma : Option (Token ν)}, advance numbers ⟨offset, s⟩ = .ok p →
    parseProperties numbers fuel p value properties comma = .ok (value', properties', p') →
    ReadsMembers numbers offset s value value' properties properties' comma p'
  | 0, _, _, _, _, _, _, _, _, _, _, h => by cases h
  | fuel + 1, offset, s, p, p', value, value', properties, properties', comma, hp, h => by
      rw [parseProperties] at h
      split at h
      · cases h
        exact ⟨.nil, s, rfl, trivial, rfl, by simp [Members.properties], hp⟩
      · split at h
        · cases h
        · obtain ⟨⟨key, p₁⟩, hkey, h⟩ := ok_of_bind h
          obtain ⟨⟨colon, p₂⟩, hcolon, h⟩ := ok_of_bind h
          obtain ⟨⟨child, p₃⟩, hchild, h⟩ := ok_of_bind h
          obtain ⟨lead, raw, name, mid, rest, rfl, hlead, hraw, hmid, rfl, hp₂⟩ :=
            readsKey hp hkey hcolon
          obtain ⟨pre, t, rest, rfl, hpre, ht, rfl, hp₃⟩ := parseValue_reads hp₂ hchild
          have hwell : MemberKey.WellFormed numbers ⟨lead, raw, name, mid, pre⟩ :=
            ⟨hlead, hraw, hmid, hpre⟩
          have hstart : offset + lead.length + raw.length + mid.length + 1 + pre.length =
              offset + (MemberKey.text ⟨lead, raw, name, mid, pre⟩).length := by
            simp only [MemberKey.text_length]
            omega
          rw [hstart] at hp₃ h
          dsimp only at h
          rw [Tree.node_value, Tree.node_inherits, Tree.node_stop] at h
          split at h
          · rename_i hkind
            obtain ⟨⟨comma', p₄⟩, hcomma, h⟩ := ok_of_bind h
            obtain ⟨-, rfl, hp₄⟩ := consume_split hcomma
            obtain ⟨post, rest, hpost, rfl, heq⟩ :=
              split_punctuation (c := unit ',') hp₃ (by rw [hkind]; rfl)
            rw [hkind] at heq
            rw [heq] at hp₄ h
            dsimp only at h
            split at h
            · cases h
              refine ⟨.cons ⟨lead, raw, name, mid, pre⟩ t post .nil, rest,
                by simp [Members.render, MemberKey.text], ⟨hwell, ht, hpost, trivial⟩, rfl, rfl, ?_⟩
              rw [← hp₄]
              simp [Members.render, atPunctuation, Nat.add_assoc]
            · obtain ⟨more, rest, rfl, hmore, rfl, rfl, hp'⟩ := parseProperties_reads hp₄ h
              refine ⟨.cons ⟨lead, raw, name, mid, pre⟩ t post more, rest,
                by simp [Members.render, MemberKey.text], ⟨hwell, ht, hpost, hmore⟩, rfl, ?_, ?_⟩
              · rw [List.append_assoc]
                rfl
              · rw [← hp']
                congr 2
                simp only [Members.render, List.length_append, List.length_cons]
                omega
          · cases h
            refine ⟨.last ⟨lead, raw, name, mid, pre⟩ t, rest,
              by simp [Members.render, MemberKey.text], ⟨hwell, ht⟩, rfl, rfl, ?_⟩
            rw [← hp₃]
            simp [Members.render, Nat.add_assoc]

theorem parseItems_reads : ∀ {fuel offset : Nat} {s : JsString} {p p' : Parser ν}
    {items items' : List (Json ν)}, advance numbers ⟨offset, s⟩ = .ok p →
    parseItems numbers fuel p items = .ok (items', p') →
    ReadsItems numbers offset s items items' p'
  | 0, _, _, _, _, _, _, _, h => by cases h
  | fuel + 1, offset, s, p, p', items, items', hp, h => by
      rw [parseItems] at h
      split at h
      · cases h
        exact ⟨.nil, s, rfl, trivial, by simp [Items.values], hp⟩
      · split at h
        · cases h
        · obtain ⟨⟨child, p₁⟩, hchild, h⟩ := ok_of_bind h
          obtain ⟨lead, item, rest, rfl, hlead, hitem, rfl, hp₁⟩ := parseValue_reads hp hchild
          dsimp only at h
          rw [Tree.node_value] at h
          split at h
          · rename_i hkind
            obtain ⟨⟨comma, p₂⟩, hcomma, h⟩ := ok_of_bind h
            obtain ⟨-, rfl, hp₂⟩ := consume_split hcomma
            obtain ⟨post, rest, hpost, rfl, heq⟩ :=
              split_punctuation (c := unit ',') hp₁ (by rw [hkind]; rfl)
            rw [heq] at hp₂
            dsimp only at h
            split at h
            · cases h
              refine ⟨.cons lead item post .nil, rest, by simp [Items.render],
                ⟨hlead, hitem, hpost, trivial⟩, by simp [Items.values], ?_⟩
              rw [← hp₂]
              simp [Items.render, atPunctuation, Nat.add_assoc]
            · obtain ⟨more, rest, rfl, hmore, rfl, hp'⟩ := parseItems_reads hp₂ h
              refine ⟨.cons lead item post more, rest, by simp [Items.render],
                ⟨hlead, hitem, hpost, hmore⟩, by simp [Items.values], ?_⟩
              rw [← hp']
              congr 2
              simp only [Items.render, List.length_append, List.length_cons]
              omega
          · cases h
            refine ⟨.last lead item, rest, by simp [Items.render], ⟨hlead, hitem⟩, rfl, ?_⟩
            rw [← hp₁]
            simp [Items.render, Nat.add_assoc]

end

end Parser

/-! ## Documents -/

mutual

theorem Tree.size_le : ∀ (t : Tree ν), t.WellFormed numbers → t.size ≤ 2 * t.render.length
  | .scalar raw value, ht => by
      obtain ⟨kind, hraw⟩ := ht
      have hpos := hraw.length_pos
      simp only [Tree.size, Tree.render]
      omega
  | .array items closing, ht => by
      have hitems := items.size_le ht.1
      simp only [Tree.size, Tree.render, List.length_cons, List.length_append]
      omega
  | .object members closing, ht => by
      have hmembers := members.size_le ht.1
      simp only [Tree.size, Tree.render, List.length_cons, List.length_append]
      omega

theorem Items.size_le : ∀ (items : Items ν), items.WellFormed numbers →
    items.size ≤ 2 * items.render.length + 2
  | .nil, _ => by simp [Items.size]
  | .last lead item, hitems => by
      have hitem := item.size_le hitems.2
      simp only [Items.size, Items.render, List.length_append]
      omega
  | .cons lead item post rest, hitems => by
      have hitem := item.size_le hitems.2.1
      have hrest := rest.size_le hitems.2.2.2
      simp only [Items.size, Items.render, List.length_append, List.length_cons]
      omega

theorem Members.size_le : ∀ (members : Members ν), members.WellFormed numbers →
    members.size ≤ 2 * members.render.length + 2
  | .nil, _ => by simp [Members.size]
  | .last key child, hmembers => by
      have hchild := child.size_le hmembers.2
      simp only [Members.size, Members.render, List.length_append]
      omega
  | .cons key child post rest, hmembers => by
      have hchild := child.size_le hmembers.2.1
      have hrest := rest.size_le hmembers.2.2.2
      simp only [Members.size, Members.render, List.length_append, List.length_cons]
      omega

end

/-- A value between trivia. -/
def IsDocument (numbers : NumberFormat ν) (text lead : JsString) (t : Tree ν) : Prop :=
  ∃ trail, text = lead ++ (t.render ++ trail) ∧ Closed lead ∧ t.WellFormed numbers ∧
    skipTrivia .code trail = .ok []

/-- The fuel of `parseNode` is enough: more of it accepts nothing else. -/
theorem parseNode_of_document {text lead : JsString} {t : Tree ν}
    (h : IsDocument numbers text lead t) : parseNode numbers text = .ok (t.node lead.length) := by
  obtain ⟨trail, rfl, hlead, ht, htrail⟩ := h
  have heof := advance_eof numbers (0 + lead.length + t.render.length) htrail
  have hsize := t.size_le ht
  obtain ⟨p, hp, hparsed⟩ := Tree.parse_render t
    (n := 2 * (lead ++ (t.render ++ trail)).length + 1) ht hlead
    (delimited_of_skipTrivia htrail delimited_nil)
    (by simp only [List.length_append]; omega) heof
  simp only [parseNode, hp, parseDocument, hparsed, bind, Except.bind, Nat.zero_add]
  rfl

theorem document_of_parse {text : JsString} {node : JsonNode ν} {p : Parser ν}
    (hp : Parser.advance numbers ⟨0, text⟩ = .ok p)
    (h : parseDocument numbers fuel p = .ok node) :
    ∃ lead t, IsDocument numbers text lead t ∧ node = t.node lead.length := by
  obtain ⟨⟨node', p'⟩, hvalue, h⟩ := ok_of_bind h
  obtain ⟨lead, t, trail, rfl, hlead, ht, rfl, hp'⟩ := parseValue_reads hp hvalue
  dsimp only at h
  split at h
  · cases h
  · rename_i hkind
    have hkind := not_not.mp hkind
    cases h
    refine ⟨lead, t, ⟨trail, rfl, hlead, ht, ?_⟩, by rw [Nat.zero_add]⟩
    obtain ⟨scanner, current⟩ := p'
    dsimp only at hkind
    cases advance_split hp' with
    | eof hskip => exact hskip
    | punctuation hx hc hs =>
        rcases punctuation_cases hc with h | h | h | h | h | h <;> simp_all
    | scalar hx hraw hs =>
        have hscalar := hraw.scalar
        simp_all

/-- What `parseNode` accepts is a value between trivia, and what it returns is its node. -/
theorem parseNode_iff {text : JsString} {node : JsonNode ν} :
    parseNode numbers text = .ok node ↔
      ∃ lead t, IsDocument numbers text lead t ∧ node = t.node lead.length := by
  constructor
  · intro h
    obtain ⟨p, hp, h⟩ := ok_of_bind h
    exact document_of_parse hp h
  · rintro ⟨lead, t, hdocument, rfl⟩
    exact parseNode_of_document hdocument

/-- No fuel accepts a text that `parseNode` does not. -/
theorem parseNode_of_fuel {text : JsString} {node : JsonNode ν} {p : Parser ν}
    (hp : Parser.advance numbers ⟨0, text⟩ = .ok p)
    (h : parseDocument numbers fuel p = .ok node) : parseNode numbers text = .ok node :=
  parseNode_iff.mpr (document_of_parse hp h)

end AfyxGraph.Runtime
