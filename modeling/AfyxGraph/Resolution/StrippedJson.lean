import AfyxGraph.Resolution.StripJsonc
import AfyxGraph.Runtime.JsoncCut

/-! # What `JSON.parse` reads after the stripping

The stripped text of a syntax tree is written down piece by piece, and so is what `JSON.parse`
makes of it. Where no comment swallows more than trivia, this decides when the two readers of
JSON with comments agree: `parseJson_stripJsonc`.
-/

namespace AfyxGraph.Resolution.StripJsonc

open AfyxGraph.Runtime AfyxGraph.Core

variable {ν : Type} {numbers : NumberFormat ν} {x y r closing : JsString}

/-! ## The stripped text of a tree -/

def itemsComma : Items ν → JsString
  | .nil => []
  | _ => [unit ',']

def membersComma : Members ν → JsString
  | .nil => []
  | _ => [unit ',']

def strippedKey (key : MemberKey) : JsString :=
  stripComments .code key.lead ++ (dropTrailingCommas key.raw ++
    (stripComments .code key.mid ++ unit ':' :: stripComments .code key.pre))

mutual

def strippedTree : Runtime.Tree ν → JsString
  | .scalar raw _ => dropTrailingCommas raw
  | .array items closing =>
      unit '[' :: (strippedItems items ++ (stripComments .code closing ++ [unit ']']))
  | .object members closing =>
      unit '{' :: (strippedMembers members ++ (stripComments .code closing ++ [unit '}']))

/-- The comma behind the last item is gone. -/
def strippedItems : Items ν → JsString
  | .nil => []
  | .last lead item => stripComments .code lead ++ strippedTree item
  | .cons lead item post rest =>
      stripComments .code lead ++ (strippedTree item ++
        (stripComments .code post ++ (itemsComma rest ++ strippedItems rest)))

def strippedMembers : Members ν → JsString
  | .nil => []
  | .last key child => strippedKey key ++ strippedTree child
  | .cons key child post rest =>
      strippedKey key ++ (strippedTree child ++
        (stripComments .code post ++ (membersComma rest ++ strippedMembers rest)))

end

structure SyncedKey (key : MemberKey) : Prop where
  lead : Synced key.lead
  mid : Synced key.mid
  pre : Synced key.pre

mutual

/-- The loop sees the comments between the tokens as the scanner does. -/
def SyncedTree : Runtime.Tree ν → Prop
  | .scalar _ _ => True
  | .array items closing => SyncedItems items ∧ Synced closing
  | .object members closing => SyncedMembers members ∧ Synced closing

def SyncedItems : Items ν → Prop
  | .nil => True
  | .last lead item => Synced lead ∧ SyncedTree item
  | .cons lead item post rest =>
      Synced lead ∧ SyncedTree item ∧ Synced post ∧ SyncedItems rest

def SyncedMembers : Members ν → Prop
  | .nil => True
  | .last key child => SyncedKey key ∧ SyncedTree child
  | .cons key child post rest =>
      SyncedKey key ∧ SyncedTree child ∧ Synced post ∧ SyncedMembers rest

end

theorem closes_tree (t : Runtime.Tree ν) (ht : t.WellFormed numbers) (rest : JsString) :
    closes (stripComments .code (t.render ++ rest)) = false := by
  cases t with
  | scalar raw value =>
      obtain ⟨kind, hraw⟩ := ht
      rw [Runtime.Tree.render, (strip_token hraw rest).1]
      exact not_closes_token hraw _
  | array items closing =>
      rw [Runtime.Tree.render, List.cons_append, stripComments, if_neg (by decide),
        if_neg (by decide), closes_cons (by decide)]
      decide
  | object members closing =>
      rw [Runtime.Tree.render, List.cons_append, stripComments, if_neg (by decide),
        if_neg (by decide), closes_cons (by decide)]
      decide

theorem closes_synced (hx : Synced x) (rest : JsString) :
    closes (stripComments .code (x ++ rest)) = closes (stripComments .code rest) := by
  rw [hx.next, closes_append hx.spaces]

theorem stripJsonc_bracket {c : CodeUnit}
    (hc : c ∈ [unit '[', unit ']', unit '{', unit '}', unit ':']) (rest : JsString) : stripJsonc (c :: rest) = c :: stripJsonc rest := by
  have hall : [unit '[', unit ']', unit '{', unit '}', unit ':'].all
      (fun c => c ≠ unit '"' && c ≠ unit '/' && c ≠ unit ',') = true := by decide
  have hother := List.all_eq_true.mp hall c hc
  simp only [Bool.and_eq_true, decide_eq_true_eq] at hother
  exact stripJsonc_cons hother.1.1 hother.1.2 hother.2

theorem stripJsonc_key {key : MemberKey} (hkey : key.WellFormed numbers) (hsynced : SyncedKey key)
    (rest : JsString) : stripJsonc (key.text ++ rest) = strippedKey key ++ stripJsonc rest := by
  simp only [MemberKey.text, strippedKey, List.append_assoc, List.cons_append]
  rw [hsynced.lead.stripJsonc, (strip_token hkey.raw _).2, hsynced.mid.stripJsonc,
    stripJsonc_bracket (by simp), hsynced.pre.stripJsonc]

theorem closes_key {key : MemberKey} (hkey : key.WellFormed numbers) (hsynced : SyncedKey key)
    (rest : JsString) : closes (stripComments .code (key.text ++ rest)) = false := by
  simp only [MemberKey.text, List.append_assoc]
  rw [closes_synced hsynced.lead, (strip_token hkey.raw _).1]
  exact not_closes_token hkey.raw _

mutual

theorem stripJsonc_tree : ∀ (t : Runtime.Tree ν), t.WellFormed numbers → SyncedTree t →
    ∀ rest : JsString, stripJsonc (t.render ++ rest) = strippedTree t ++ stripJsonc rest
  | .scalar raw value, ht, _, rest => by
      obtain ⟨kind, hraw⟩ := ht
      exact (strip_token hraw rest).2
  | .array items closing, ht, hsynced, rest => by
      simp only [Runtime.Tree.render, strippedTree, List.cons_append, List.append_assoc,
        List.nil_append]
      rw [stripJsonc_bracket (by simp), stripJsonc_items items ht.1 hsynced.1 hsynced.2]
  | .object members closing, ht, hsynced, rest => by
      simp only [Runtime.Tree.render, strippedTree, List.cons_append, List.append_assoc,
        List.nil_append]
      rw [stripJsonc_bracket (by simp), stripJsonc_members members ht.1 hsynced.1 hsynced.2]

theorem stripJsonc_items : ∀ (items : Items ν), items.WellFormed numbers → SyncedItems items →
    ∀ {closing : JsString}, Synced closing → ∀ rest : JsString,
    stripJsonc (items.render ++ (closing ++ unit ']' :: rest)) =
      strippedItems items ++ (stripComments .code closing ++ unit ']' :: stripJsonc rest)
  | .nil, _, _, closing, hclosing, rest => by
      simp only [Items.render, strippedItems, List.nil_append]
      rw [hclosing.stripJsonc, stripJsonc_bracket (by simp)]
  | .last lead item, ht, hsynced, closing, hclosing, rest => by
      simp only [Items.render, strippedItems, List.append_assoc]
      rw [hsynced.1.stripJsonc, stripJsonc_tree item ht.2 hsynced.2, hclosing.stripJsonc,
        stripJsonc_bracket (by simp)]
  | .cons lead item post more, ht, hsynced, closing, hclosing, rest => by
      simp only [Items.render, strippedItems, List.append_assoc, List.cons_append]
      rw [hsynced.1.stripJsonc, stripJsonc_tree item ht.2.1 hsynced.2.1,
        hsynced.2.2.1.stripJsonc]
      have hmore := stripJsonc_items more ht.2.2.2 hsynced.2.2.2 hclosing rest
      cases more with
      | nil => rw [Items.render, List.nil_append, hclosing.comma_closing (.inr rfl)]; rfl
      | last lead' item' =>
          have hnot : closes (stripComments .code ((Items.last lead' item').render ++
              (closing ++ unit ']' :: rest))) = false := by
            rw [Items.render, List.append_assoc, closes_synced hsynced.2.2.2.1]
            exact closes_tree item' ht.2.2.2.2 _
          rw [stripJsonc_comma hnot, hmore]
          rfl
      | cons lead' item' post' rest' =>
          have hnot : closes (stripComments .code ((Items.cons lead' item' post' rest').render ++
              (closing ++ unit ']' :: rest))) = false := by
            rw [Items.render, List.append_assoc, closes_synced hsynced.2.2.2.1, List.append_assoc]
            exact closes_tree item' ht.2.2.2.2.1 _
          rw [stripJsonc_comma hnot, hmore]
          rfl

theorem stripJsonc_members : ∀ (members : Members ν), members.WellFormed numbers →
    SyncedMembers members → ∀ {closing : JsString}, Synced closing → ∀ rest : JsString,
    stripJsonc (members.render ++ (closing ++ unit '}' :: rest)) =
      strippedMembers members ++ (stripComments .code closing ++ unit '}' :: stripJsonc rest)
  | .nil, _, _, closing, hclosing, rest => by
      simp only [Members.render, strippedMembers, List.nil_append]
      rw [hclosing.stripJsonc, stripJsonc_bracket (by simp)]
  | .last key child, ht, hsynced, closing, hclosing, rest => by
      simp only [Members.render, strippedMembers, List.append_assoc]
      rw [stripJsonc_key ht.1 hsynced.1, stripJsonc_tree child ht.2 hsynced.2,
        hclosing.stripJsonc, stripJsonc_bracket (by simp)]
  | .cons key child post more, ht, hsynced, closing, hclosing, rest => by
      simp only [Members.render, strippedMembers, List.append_assoc, List.cons_append]
      rw [stripJsonc_key ht.1 hsynced.1, stripJsonc_tree child ht.2.1 hsynced.2.1,
        hsynced.2.2.1.stripJsonc]
      have hmore := stripJsonc_members more ht.2.2.2 hsynced.2.2.2 hclosing rest
      cases more with
      | nil => rw [Members.render, List.nil_append, hclosing.comma_closing (.inl rfl)]; rfl
      | last key' child' =>
          have hnot : closes (stripComments .code ((Members.last key' child').render ++
              (closing ++ unit '}' :: rest))) = false := by
            rw [Members.render, List.append_assoc]
            exact closes_key ht.2.2.2.1 hsynced.2.2.2.1 _
          rw [stripJsonc_comma hnot, hmore]
          rfl
      | cons key' child' post' rest' =>
          have hnot : closes (stripComments .code ((Members.cons key' child' post' rest').render ++
              (closing ++ unit '}' :: rest))) = false := by
            rw [Members.render, List.append_assoc]
            exact closes_key ht.2.2.2.1 hsynced.2.2.2.1 _
          rw [stripJsonc_comma hnot, hmore]
          rfl

end

/-! ## Strings without some of their commas -/

theorem dropTrailingCommas_sublist (x : JsString) : (dropTrailingCommas x).Sublist x := by
  induction x with
  | nil => exact List.Sublist.refl []
  | cons c x ih =>
      rw [dropTrailingCommas]
      split
      · exact ih.cons c
      · exact ih.cons₂ c

/-- The string that the text of one stands for when its commas are gone. -/
def respelled (raw name : JsString) : JsString :=
  (parseStringBody ((dropTrailingCommas raw).tail.dropLast)).getD name

theorem respelled_spells {raw name : JsString} {kind : TokenKind}
    (h : IsToken numbers raw kind (.string name)) :
    ∃ body body', raw = unit '"' :: (body ++ [unit '"']) ∧ Spells body name ∧
      dropTrailingCommas raw = unit '"' :: (body' ++ [unit '"']) ∧
      Spells body' (respelled raw name) ∧
      (respelled raw name).length + body.length = name.length + body'.length := by
  rcases token_cases h with ⟨body, name', rfl, hname, hspells⟩ | ⟨-, -, v, -, hv⟩ |
    ⟨-, hv⟩ | ⟨-, hv⟩ | ⟨-, hv⟩
  · cases hname
    obtain ⟨value', hspells', hlength⟩ := hspells.dropTrailingCommas
    have hdrop : dropTrailingCommas (unit '"' :: (body ++ [unit '"'])) =
        unit '"' :: (dropTrailingCommas body ++ [unit '"']) := by
      rw [dropTrailingCommas_cons (by decide), dropTrailingCommas_quoted]
      rfl
    have hvalue : respelled (unit '"' :: (body ++ [unit '"'])) name = value' := by
      rw [respelled, hdrop, List.tail_cons, List.dropLast_concat, hspells'.parse]
      rfl
    exact ⟨body, dropTrailingCommas body, rfl, hspells, hdrop, hvalue ▸ hspells', hvalue ▸ hlength⟩
  all_goals cases hv

/-- A string keeps its value if and only if it keeps its commas. -/
theorem respelled_eq_iff {raw name : JsString} {kind : TokenKind}
    (h : IsToken numbers raw kind (.string name)) :
    respelled raw name = name ↔ dropTrailingCommas raw = raw := by
  obtain ⟨body, body', hraw, hspells, hdrop, hspells', hlength⟩ := respelled_spells h
  constructor
  · intro heq
    rw [heq] at hlength
    refine (dropTrailingCommas_sublist raw).eq_of_length ?_
    rw [hdrop, hraw]
    simp only [List.length_cons, List.length_append, List.length_nil]
    omega
  · intro heq
    rw [hdrop, hraw, List.cons.injEq, List.append_cancel_right_eq] at heq
    rw [heq.2] at hspells'
    exact Option.some.inj (hspells'.parse.symm.trans hspells.parse)

/-! ## What `JSON.parse` makes of the tree -/

def plainScalar (raw : JsString) : Json ν → Json ν
  | .string name => .string (respelled raw name)
  | value => value

mutual

def plainTree : Runtime.Tree ν → Json ν
  | .scalar raw value => plainScalar raw value
  | .array items _ => .array (plainItems items)
  | .object members _ => .object (plainMembers [] members)

def plainItems : Items ν → List (Json ν)
  | .nil => []
  | .last _ item => [plainTree item]
  | .cons _ item _ rest => plainTree item :: plainItems rest

/-- There is no accessor: `__proto__` is a key like others. -/
def plainMembers (entries : List (JsString × Json ν)) : Members ν → List (JsString × Json ν)
  | .nil => entries
  | .last key child => setEntry entries (respelled key.raw key.name) (plainTree child)
  | .cons key child _ rest =>
      plainMembers (setEntry entries (respelled key.raw key.name) (plainTree child)) rest

end

/-- The whitespace that the loop leaves is that of JSON. -/
def spaced (x : JsString) : Bool := (stripComments .code x).all isJsonSpace

def spacedKey (key : MemberKey) : Bool := spaced key.lead && spaced key.mid && spaced key.pre

mutual

def spacedTree : Runtime.Tree ν → Bool
  | .scalar _ _ => true
  | .array items closing => spacedItems items && spaced closing
  | .object members closing => spacedMembers members && spaced closing

def spacedItems : Items ν → Bool
  | .nil => true
  | .last lead item => spaced lead && spacedTree item
  | .cons lead item post rest => spaced lead && spacedTree item && spaced post && spacedItems rest

def spacedMembers : Members ν → Bool
  | .nil => true
  | .last key child => spacedKey key && spacedTree child
  | .cons key child post rest =>
      spacedKey key && spacedTree child && spaced post && spacedMembers rest

end

/-! ## Whitespace before a value -/

variable {ofLiteral : JsString → ν}

theorem not_isSpace_start {c : CodeUnit} (h : isSpace c = true) :
    c ∉ [unit '[', unit ']', unit '{', unit '}', unit ',', unit ':', unit '"', unit '-', unit 't',
      unit 'f', unit 'n'] ∧ isDigit c = false := by
  have hall : [unit '[', unit ']', unit '{', unit '}', unit ',', unit ':', unit '"', unit '-',
      unit 't', unit 'f', unit 'n'].all (fun c => !isSpace c) = true := by decide
  constructor
  · intro hmem
    have hspace := List.all_eq_true.mp hall c hmem
    rw [h] at hspace
    cases hspace
  · have hnumber := isNumberUnit_of_isSpace h
    simp only [isNumberUnit, Bool.or_eq_false_iff] at hnumber
    exact hnumber.1.1.1.1.1

/-- `JSON.parse` stops at other whitespace. -/
theorem skipSpace_stop (hx : ∀ c ∈ x, isSpace c = true) (hall : x.all isJsonSpace = false)
    (s : JsString) : ∃ c s', skipSpace (x ++ s) = c :: s' ∧ isSpace c = true := by
  induction x with
  | nil => cases hall
  | cons c x ih =>
      rw [List.forall_mem_cons] at hx
      rw [List.cons_append, skipSpace, List.dropWhile_cons]
      by_cases hjson : isJsonSpace c = true
      · rw [if_pos hjson]
        rw [List.all_cons, hjson, Bool.true_and] at hall
        exact ih hx.2 hall
      · rw [if_neg hjson]
        exact ⟨c, _, rfl, hx.1⟩

theorem readValue_stop {c : CodeUnit} {s s' : JsString} (h : skipSpace s = c :: s')
    (hspace : isSpace c = true) (n : Nat) : readValue ofLiteral n s = none := by
  obtain ⟨hother, hdigit⟩ := not_isSpace_start hspace
  simp only [List.mem_cons, List.not_mem_nil, or_false, not_or] at hother
  obtain ⟨hbracket, -, hbrace, -, -, -, hquote, hminus, ht, hf, hn⟩ := hother
  have hliteral : (literalAt (c :: s') : Option (JsString × Json ν)) = none := by
    cases hword : (literalAt (c :: s') : Option (JsString × Json ν)) with
    | none => rfl
    | some found =>
        obtain ⟨hcases, rest, hsplit⟩ := literalAt_split hword
        rcases hcases with ⟨heq, -⟩ | ⟨heq, -⟩ | ⟨heq, -⟩
        all_goals
          rw [heq] at hsplit
          simp only [trueWord, falseWord, nullWord, List.cons_append, List.cons.injEq] at hsplit
          exact absurd hsplit.1 (by assumption)
  cases n with
  | zero => rfl
  | succ n =>
      rw [readValue, h]
      simp only [hbracket, hbrace, hquote, hminus, hdigit, hliteral, if_false, decide_false,
        Bool.or_self, Bool.false_eq_true, Option.map_none]

theorem spaces_of_all (h : x.all isJsonSpace = true) : Spaces x :=
  fun c hc => List.all_eq_true.mp h c hc

theorem delimited_space {c : CodeUnit} {s : JsString} (hy : ∀ d ∈ y, isSpace d = true)
    (hc : isNumberUnit c = false) : Delimited (y ++ c :: s) := by
  cases y with
  | nil => exact delimited_cons hc
  | cons d y => exact delimited_cons (isNumberUnit_of_isSpace (hy d (by simp)))

/-- What stands behind whitespace, if it is found. -/
theorem skipSpace_next {c : CodeUnit} (hc : isSpace c = false) (hall : y.all isJsonSpace = true)
    (s : JsString) : skipSpace (y ++ c :: s) = c :: s := by
  refine skipSpace_append (spaces_of_all hall) ?_
  cases hjson : isJsonSpace c with
  | false => rfl
  | true =>
      simp only [isJsonSpace, Bool.or_eq_true, decide_eq_true_eq] at hjson
      rcases hjson with ((rfl | rfl) | rfl) | rfl <;> cases hc

/-! ## One item and one property -/

section Steps

variable {n : Nat} {s t : JsString} {b b' : Bool} {v : Json ν}

theorem readItems_last (hy : ∀ c ∈ y, isSpace c = true)
    (h : readValue ofLiteral n s = if b then some (v, y ++ unit ']' :: r) else none) :
    readItems ofLiteral (n + 1) s = if b && y.all isJsonSpace then some ([v], r) else none := by
  rw [readItems, h]
  cases b with
  | false => rfl
  | true =>
      cases hall : y.all isJsonSpace with
      | true =>
          have hne : unit ']' ≠ unit ',' := by decide
          simp only [if_true, skipSpace_next (c := unit ']') (by decide) hall, hne, if_false,
            Bool.and_self]
      | false =>
          obtain ⟨c, s', hstop, hspace⟩ := skipSpace_stop hy hall (unit ']' :: r)
          have hother := (not_isSpace_start hspace).1
          simp only [List.mem_cons, not_or] at hother
          simp only [if_true, hstop, hother, if_false, Bool.and_false, Bool.false_eq_true]

theorem readItems_next {items : List (Json ν)} (hy : ∀ c ∈ y, isSpace c = true)
    (h : readValue ofLiteral n s = if b then some (v, y ++ unit ',' :: t) else none)
    (hitems : readItems ofLiteral n t = if b' then some (items, r) else none) :
    readItems ofLiteral (n + 1) s =
      if b && y.all isJsonSpace && b' then some (v :: items, r) else none := by
  rw [readItems, h]
  cases b with
  | false => rfl
  | true =>
      cases hall : y.all isJsonSpace with
      | true =>
          simp only [if_true, skipSpace_next (c := unit ',') (by decide) hall, hitems,
            Bool.true_and]
          cases b' <;> rfl
      | false =>
          obtain ⟨c, s', hstop, hspace⟩ := skipSpace_stop hy hall (unit ',' :: t)
          have hother := (not_isSpace_start hspace).1
          simp only [List.mem_cons, not_or] at hother
          simp only [if_true, hstop, hother, if_false, Bool.and_false, Bool.false_and,
            Bool.false_eq_true]

/-- What `readMembers` does behind a value. -/
def readAfter (ofLiteral : JsString → ν) (n : Nat) (entries : List (JsString × Json ν))
    (rest : JsString) : Option (List (JsString × Json ν) × JsString) :=
  match skipSpace rest with
  | [] => none
  | c :: rest =>
      if c = unit ',' then readMembers ofLiteral n entries rest
      else if c = unit '}' then some (entries, rest)
      else none

theorem readMembers_key {entries : List (JsString × Json ν)} {key : MemberKey}
    (hkey : key.WellFormed numbers) (hsynced : SyncedKey key) :
    readMembers ofLiteral (n + 1) entries
        (stripComments .code key.lead ++ (dropTrailingCommas key.raw ++
          (stripComments .code key.mid ++ unit ':' :: s))) =
      if spaced key.lead && spaced key.mid then
        (readValue ofLiteral n s).bind fun found =>
          readAfter ofLiteral n (setEntry entries (respelled key.raw key.name) found.1) found.2
      else none := by
  obtain ⟨body, body', -, -, hdrop, hspells, -⟩ := respelled_spells hkey.raw
  have htext : dropTrailingCommas key.raw ++ (stripComments .code key.mid ++ unit ':' :: s) =
      unit '"' :: (body' ++ unit '"' :: (stripComments .code key.mid ++ unit ':' :: s)) := by
    simp [hdrop]
  have hname : readString (body' ++ unit '"' :: (stripComments .code key.mid ++ unit ':' :: s)) =
      some (respelled key.raw key.name, stripComments .code key.mid ++ unit ':' :: s) := by
    rw [readString, hspells.scan]
    simp only [hspells.parse, Option.map_some]
  rw [readMembers, htext]
  cases hlead : spaced key.lead with
  | false =>
      obtain ⟨c, s', hstop, hspace⟩ := skipSpace_stop hsynced.lead.spaces hlead
        (unit '"' :: (body' ++ unit '"' :: (stripComments .code key.mid ++ unit ':' :: s)))
      have hother := (not_isSpace_start hspace).1
      simp only [List.mem_cons, not_or] at hother
      simp only [hstop, hother, if_false, Bool.false_and, Bool.false_eq_true]
  | true =>
      simp only [skipSpace_next (c := unit '"') (by decide) hlead, if_true, hname, Bool.true_and]
      cases hmid : spaced key.mid with
      | false =>
          obtain ⟨c, s', hstop, hspace⟩ := skipSpace_stop hsynced.mid.spaces hmid (unit ':' :: s)
          have hother := (not_isSpace_start hspace).1
          simp only [List.mem_cons, not_or] at hother
          simp only [hstop, hother, if_false, Bool.false_eq_true]
      | true =>
          simp only [skipSpace_next (c := unit ':') (by decide) hmid, if_true]
          cases readValue ofLiteral n s with
          | none => rfl
          | some found => rfl

theorem readAfter_brace {entries : List (JsString × Json ν)} (hy : ∀ c ∈ y, isSpace c = true) :
    readAfter ofLiteral n entries (y ++ unit '}' :: r) =
      if y.all isJsonSpace then some (entries, r) else none := by
  rw [readAfter]
  cases hall : y.all isJsonSpace with
  | true =>
      have hne : unit '}' ≠ unit ',' := by decide
      simp only [skipSpace_next (c := unit '}') (by decide) hall, hne, if_false, if_true]
  | false =>
      obtain ⟨c, s', hstop, hspace⟩ := skipSpace_stop hy hall (unit '}' :: r)
      have hother := (not_isSpace_start hspace).1
      simp only [List.mem_cons, not_or] at hother
      simp only [hstop, hother, if_false, Bool.false_eq_true]

theorem readAfter_comma {entries : List (JsString × Json ν)} (hy : ∀ c ∈ y, isSpace c = true) :
    readAfter ofLiteral n entries (y ++ unit ',' :: t) =
      if y.all isJsonSpace then readMembers ofLiteral n entries t else none := by
  rw [readAfter]
  cases hall : y.all isJsonSpace with
  | true => simp only [skipSpace_next (c := unit ',') (by decide) hall, if_true]
  | false =>
      obtain ⟨c, s', hstop, hspace⟩ := skipSpace_stop hy hall (unit ',' :: t)
      have hother := (not_isSpace_start hspace).1
      simp only [List.mem_cons, not_or] at hother
      simp only [hstop, hother, if_false, Bool.false_eq_true]

end Steps

/-! ## The reading -/

section Reading

variable (numbers) (infinity : ν)

/-- `JSON.parse` of a number; one that is too large is infinite. -/
def literalValue (raw : JsString) : ν := (numbers.ofLiteral raw).getD infinity

theorem readValue_scalar {raw : JsString} {kind : TokenKind} {value : Json ν} {n : Nat}
    (h : IsToken numbers raw kind value) (hx : Spaces x) (hr : Delimited r) :
    readValue (literalValue numbers infinity) (n + 1) (x ++ (dropTrailingCommas raw ++ r)) =
      some (plainScalar raw value, r) := by
  rcases token_cases h with ⟨body, name, -, rfl, -⟩ | ⟨hliteral, hunits, v, hv, rfl⟩ | hword
  · obtain ⟨body, body', -, -, hdrop, hspells, -⟩ := respelled_spells h
    have htext : dropTrailingCommas raw ++ r = unit '"' :: (body' ++ unit '"' :: r) := by
      simp [hdrop]
    have hname : readString (body' ++ unit '"' :: r) = some (respelled raw name, r) := by
      rw [readString, hspells.scan]
      simp only [hspells.parse, Option.map_some]
    rw [htext, readValue, skipSpace_append hx (by decide)]
    dsimp only
    rw [if_neg (by decide), if_neg (by decide), if_pos rfl, hname]
    rfl
  · rw [dropTrailingCommas_self (unquoted_token (.inl hunits)).2,
      readValue_number hx hliteral hr, literalValue, hv]
    rfl
  · rw [dropTrailingCommas_self (unquoted_token (.inr
      (hword.imp And.left (Or.imp And.left And.left)))).2, readValue_literal hx hword]
    rcases hword with ⟨-, rfl⟩ | ⟨-, rfl⟩ | ⟨-, rfl⟩ <;> rfl

theorem strippedTree_head (t : Runtime.Tree ν) (ht : t.WellFormed numbers) : ∃ c tail,
    strippedTree t = c :: tail ∧ isSpace c = false ∧ c ≠ unit '}' ∧ c ≠ unit ']' := by
  cases t with
  | scalar raw value =>
      obtain ⟨kind, hraw⟩ := ht
      obtain ⟨c, tail, rfl, hspace, hbrace, hbracket, hcomma⟩ := token_head hraw
      exact ⟨c, dropTrailingCommas tail, dropTrailingCommas_cons hcomma, hspace, hbrace, hbracket⟩
  | array items closing => exact ⟨_, _, rfl, by decide, by decide, by decide⟩
  | object members closing => exact ⟨_, _, rfl, by decide, by decide, by decide⟩

/-- The first character that is no blank. -/
theorem head_skipSpace {c : CodeUnit} {s : JsString} (hx : ∀ d ∈ x, isSpace d = true)
    (hc : isSpace c = false) :
    ∃ d s', skipSpace (x ++ c :: s) = d :: s' ∧ (d = c ∨ isSpace d = true) := by
  cases hall : x.all isJsonSpace with
  | true => exact ⟨c, s, skipSpace_next hc hall s, .inl rfl⟩
  | false =>
      obtain ⟨d, s', hstop, hspace⟩ := skipSpace_stop hx hall (c :: s)
      exact ⟨d, s', hstop, .inr hspace⟩

theorem items_head {items : Items ν} (hne : items ≠ .nil) (ht : items.WellFormed numbers)
    (hsynced : SyncedItems items) (rest : JsString) :
    (skipSpace (strippedItems items ++ rest)).head? ≠ some (unit ']') := by
  have hlead : ∀ {lead : JsString} {item : Runtime.Tree ν}, Synced lead → item.WellFormed numbers →
      ∀ rest : JsString, (skipSpace (stripComments .code lead ++
        (strippedTree item ++ rest))).head? ≠ some (unit ']') := by
    intro lead item hlead hitem rest
    obtain ⟨c, tail, htext, hspace, -, hbracket⟩ := strippedTree_head numbers item hitem
    rw [htext, List.cons_append]
    obtain ⟨d, s', hskip, hd⟩ := head_skipSpace (s := tail ++ rest) hlead.spaces hspace
    rw [hskip, List.head?_cons]
    intro heq
    rw [Option.some.inj heq] at hd
    rcases hd with heq | hspace
    · exact hbracket heq.symm
    · cases hspace
  cases items with
  | nil => exact absurd rfl hne
  | last lead item =>
      rw [strippedItems, List.append_assoc]
      exact hlead hsynced.1 ht.2 rest
  | cons lead item post more =>
      rw [strippedItems, List.append_assoc, List.append_assoc]
      exact hlead hsynced.1 ht.2.1 _

theorem members_head {members : Members ν} (hne : members ≠ .nil)
    (ht : members.WellFormed numbers) (hsynced : SyncedMembers members) (rest : JsString) :
    (skipSpace (strippedMembers members ++ rest)).head? ≠ some (unit '}') := by
  have hlead : ∀ {key : MemberKey}, SyncedKey key → key.WellFormed numbers →
      ∀ rest : JsString, (skipSpace (strippedKey key ++ rest)).head? ≠ some (unit '}') := by
    intro key hsynced hkey rest
    obtain ⟨c, tail, hraw, hspace, hbrace, -, hcomma⟩ := token_head hkey.raw
    rw [strippedKey, hraw, dropTrailingCommas_cons hcomma, List.append_assoc, List.cons_append,
      List.cons_append]
    obtain ⟨d, s', hskip, hd⟩ := head_skipSpace (s := dropTrailingCommas tail ++
      (stripComments .code key.mid ++ unit ':' :: stripComments .code key.pre) ++ rest)
      hsynced.lead.spaces hspace
    rw [hskip, List.head?_cons]
    intro heq
    rw [Option.some.inj heq] at hd
    rcases hd with heq | hspace
    · exact hbrace heq.symm
    · cases hspace
  cases members with
  | nil => exact absurd rfl hne
  | last key child =>
      rw [strippedMembers, List.append_assoc]
      exact hlead hsynced.1 ht.1 _
  | cons key child post more =>
      rw [strippedMembers, List.append_assoc]
      exact hlead hsynced.1 ht.1 _

theorem readValue_array {n : Nat} {s : JsString} (hx : Spaces x) :
    readValue (literalValue numbers infinity) (n + 1) (x ++ unit '[' :: s) =
      if (skipSpace s).head? = some (unit ']') then some (.array [], (skipSpace s).tail)
      else (readItems (literalValue numbers infinity) n s).map
        fun (items, rest) => (.array items, rest) := by
  rw [readValue, skipSpace_append hx (by decide)]
  rfl

theorem readValue_object {n : Nat} {s : JsString} (hx : Spaces x) :
    readValue (literalValue numbers infinity) (n + 1) (x ++ unit '{' :: s) =
      if (skipSpace s).head? = some (unit '}') then some (.object [], (skipSpace s).tail)
      else (readMembers (literalValue numbers infinity) n [] s).map
        fun (entries, rest) => (.object entries, rest) := by
  rw [readValue, skipSpace_append hx (by decide)]
  rfl

theorem readItems_stop {c : CodeUnit} {s s' : JsString} (h : skipSpace s = c :: s')
    (hspace : isSpace c = true) (n : Nat) : readItems ofLiteral n s = none := by
  cases n with
  | zero => rfl
  | succ n => rw [readItems, readValue_stop h hspace]

theorem readMembers_stop {c : CodeUnit} {s s' : JsString} (h : skipSpace s = c :: s')
    (hspace : isSpace c = true) (n : Nat) (entries : List (JsString × Json ν)) :
    readMembers ofLiteral n entries s = none := by
  have hother := (not_isSpace_start hspace).1
  simp only [List.mem_cons, not_or] at hother
  cases n with
  | zero => rfl
  | succ n =>
      rw [readMembers, h]
      simp only [hother, if_false]

/-- Whitespace before a tree. -/
theorem readValue_any {t : Runtime.Tree ν} {n : Nat} (hx : ∀ c ∈ x, isSpace c = true)
    (h : Spaces x → readValue ofLiteral n (x ++ (strippedTree t ++ r)) =
      if spacedTree t then some (plainTree t, r) else none) :
    readValue ofLiteral n (x ++ (strippedTree t ++ r)) =
      if x.all isJsonSpace && spacedTree t then some (plainTree t, r) else none := by
  cases hall : x.all isJsonSpace with
  | false =>
      obtain ⟨c, s', hstop, hspace⟩ := skipSpace_stop hx hall (strippedTree t ++ r)
      rw [readValue_stop hstop hspace]
      rfl
  | true => exact h (spaces_of_all hall)

theorem readMembers_step (entries : List (JsString × Json ν))
    {found : List (JsString × Json ν)} {key : MemberKey} {child : Runtime.Tree ν} {n : Nat}
    {s : JsString} {b : Bool} (hkey : key.WellFormed numbers)
    (hsynced : SyncedKey key)
    (hchild : readValue ofLiteral n (stripComments .code key.pre ++ (strippedTree child ++ s)) =
      if spaced key.pre && spacedTree child then some (plainTree child, s) else none)
    (hafter : readAfter ofLiteral n
      (setEntry entries (respelled key.raw key.name) (plainTree child)) s =
        if b then some (found, r) else none) :
    readMembers ofLiteral (n + 1) entries (strippedKey key ++ (strippedTree child ++ s)) =
      if spacedKey key && spacedTree child && b then some (found, r) else none := by
  simp only [strippedKey, List.append_assoc, List.cons_append]
  rw [readMembers_key hkey hsynced, hchild, spacedKey]
  cases spaced key.lead with
  | false => rfl
  | true =>
      cases spaced key.mid with
      | false => rfl
      | true =>
          cases spaced key.pre with
          | false => rfl
          | true =>
              cases spacedTree child with
              | false => rfl
              | true => exact hafter

mutual

/-- `JSON.parse` reads the value of the tree, unless whitespace stops it. -/
theorem readValue_tree : ∀ (t : Runtime.Tree ν) {n : Nat} {x r : JsString}, t.WellFormed numbers →
    SyncedTree t → Spaces x → Delimited r → t.size ≤ n →
    readValue (literalValue numbers infinity) n (x ++ (strippedTree t ++ r)) =
      if spacedTree t then some (plainTree t, r) else none
  | .scalar raw value, n + 1, x, r, ⟨kind, hraw⟩, _, hx, hr, _ =>
      readValue_scalar numbers infinity hraw hx hr
  | .array items closing, n + 1, x, r, ht, hsynced, hx, hr, hn => by
      have htext : strippedTree (.array items closing) ++ r = unit '[' ::
          (strippedItems items ++ (stripComments .code closing ++ unit ']' :: r)) := by
        simp [strippedTree]
      rw [htext, readValue_array numbers infinity hx]
      by_cases hne : items = .nil
      · subst hne
        rw [strippedItems, List.nil_append]
        show _ = if spaced closing then some (Json.array (plainItems .nil), r) else none
        cases hall : spaced closing with
        | true =>
            rw [skipSpace_next (by decide) hall]
            rfl
        | false =>
            obtain ⟨c, s', hstop, hspace⟩ := skipSpace_stop hsynced.2.spaces hall (unit ']' :: r)
            have hother := (not_isSpace_start hspace).1
            simp only [List.mem_cons, not_or] at hother
            rw [readItems_stop hstop hspace, hstop, List.head?_cons,
              if_neg (by simpa using hother.2.1)]
            rfl
      · rw [if_neg (items_head numbers hne ht.1 hsynced.1 _), readItems_items items hne ht.1
          hsynced.1 hsynced.2.spaces (by rw [Runtime.Tree.size] at hn; omega)]
        show Option.map _ (if spacedItems items && spaced closing then _ else _) =
          if spacedItems items && spaced closing then _ else _
        cases spacedItems items && spaced closing <;> rfl
  | .object members closing, n + 1, x, r, ht, hsynced, hx, hr, hn => by
      have htext : strippedTree (.object members closing) ++ r = unit '{' ::
          (strippedMembers members ++ (stripComments .code closing ++ unit '}' :: r)) := by
        simp [strippedTree]
      rw [htext, readValue_object numbers infinity hx]
      by_cases hne : members = .nil
      · subst hne
        rw [strippedMembers, List.nil_append]
        show _ = if spaced closing then some (Json.object (plainMembers [] .nil), r) else none
        cases hall : spaced closing with
        | true =>
            rw [skipSpace_next (by decide) hall]
            rfl
        | false =>
            obtain ⟨c, s', hstop, hspace⟩ := skipSpace_stop hsynced.2.spaces hall (unit '}' :: r)
            have hother := (not_isSpace_start hspace).1
            simp only [List.mem_cons, not_or] at hother
            rw [readMembers_stop hstop hspace, hstop, List.head?_cons,
              if_neg (by simpa using hother.2.2.2.1)]
            rfl
      · rw [if_neg (members_head numbers hne ht.1 hsynced.1 _), readMembers_members members [] hne
          ht.1 hsynced.1 hsynced.2.spaces (by rw [Runtime.Tree.size] at hn; omega)]
        show Option.map _ (if spacedMembers members && spaced closing then _ else _) =
          if spacedMembers members && spaced closing then _ else _
        cases spacedMembers members && spaced closing <;> rfl

theorem readItems_items : ∀ (items : Items ν) {n : Nat} {y r : JsString}, items ≠ .nil →
    items.WellFormed numbers → SyncedItems items → (∀ c ∈ y, isSpace c = true) → items.size ≤ n →
    readItems (literalValue numbers infinity) n (strippedItems items ++ (y ++ unit ']' :: r)) =
      if spacedItems items && y.all isJsonSpace then some (plainItems items, r) else none
  | .last lead item, n + 1, y, r, _, ht, hsynced, hy, hn => by
      rw [Items.size] at hn
      have hbracket : Delimited (y ++ unit ']' :: r) := delimited_space hy (by decide)
      rw [strippedItems, List.append_assoc]
      exact readItems_last hy (readValue_any hsynced.1.spaces fun hx =>
        readValue_tree item ht.2 hsynced.2 hx hbracket (by omega))
  | .cons lead item post more, n + 1, y, r, _, ht, hsynced, hy, hn => by
      rw [Items.size] at hn
      have hitem : ∀ s, Delimited s → readValue (literalValue numbers infinity) n
          (stripComments .code lead ++ (strippedTree item ++ s)) =
            if (stripComments .code lead).all isJsonSpace && spacedTree item then
              some (plainTree item, s) else none := fun s hs =>
        readValue_any hsynced.1.spaces fun hx => readValue_tree item ht.2.1 hsynced.2.1 hx hs
          (by omega)
      by_cases hmore : more = .nil
      · subst hmore
        have hpost : ∀ c ∈ stripComments .code post ++ y, isSpace c = true := fun c hc =>
          (List.mem_append.mp hc).elim (hsynced.2.2.1.spaces c) (hy c)
        have hbracket : Delimited (stripComments .code post ++ y ++ unit ']' :: r) :=
          delimited_space hpost (by decide)
        have hlast := readItems_last hpost (hitem _ hbracket)
        simp only [strippedItems, itemsComma, List.append_nil, List.append_assoc] at hlast ⊢
        rw [hlast, List.all_append, ← Bool.and_assoc]
        show _ = if spaced lead && spacedTree item && spaced post && true && _ then _ else _
        rw [Bool.and_true]
        rfl
      · have hcomma : itemsComma more = [unit ','] := by
          cases more with
          | nil => exact absurd rfl hmore
          | _ => rfl
        have hbehind : Delimited (stripComments .code post ++ unit ',' ::
            (strippedItems more ++ (y ++ unit ']' :: r))) :=
          delimited_space hsynced.2.2.1.spaces (by decide)
        have hnext := readItems_next hsynced.2.2.1.spaces (hitem _ hbehind)
          (readItems_items more hmore ht.2.2.2 hsynced.2.2.2 hy (by omega))
        simp only [strippedItems, hcomma, List.append_assoc, List.cons_append, List.nil_append]
        rw [hnext, ← Bool.and_assoc]
        rfl

theorem readMembers_members : ∀ (members : Members ν) (entries : List (JsString × Json ν))
    {n : Nat} {y r : JsString}, members ≠ .nil → members.WellFormed numbers →
    SyncedMembers members → (∀ c ∈ y, isSpace c = true) → members.size ≤ n →
    readMembers (literalValue numbers infinity) n entries
        (strippedMembers members ++ (y ++ unit '}' :: r)) =
      if spacedMembers members && y.all isJsonSpace then some (plainMembers entries members, r)
      else none
  | .last key child, entries, n + 1, y, r, _, ht, hsynced, hy, hn => by
      rw [Members.size] at hn
      have hbrace : Delimited (y ++ unit '}' :: r) := delimited_space hy (by decide)
      have hchild := readValue_any hsynced.1.pre.spaces fun hx =>
        readValue_tree child ht.2 hsynced.2 hx hbrace (Nat.le_of_succ_le_succ hn)
      rw [strippedMembers, List.append_assoc]
      exact readMembers_step numbers entries ht.1 hsynced.1 hchild (readAfter_brace hy)
  | .cons key child post more, entries, n + 1, y, r, _, ht, hsynced, hy, hn => by
      rw [Members.size] at hn
      have hchild : ∀ s, Delimited s → readValue (literalValue numbers infinity) n
          (stripComments .code key.pre ++ (strippedTree child ++ s)) =
            if spaced key.pre && spacedTree child then some (plainTree child, s) else none :=
        fun s hs => readValue_any hsynced.1.pre.spaces fun hx =>
          readValue_tree child ht.2.1 hsynced.2.1 hx hs (by omega)
      by_cases hmore : more = .nil
      · subst hmore
        have hpost : ∀ c ∈ stripComments .code post ++ y, isSpace c = true := fun c hc =>
          (List.mem_append.mp hc).elim (hsynced.2.2.1.spaces c) (hy c)
        have hbrace : Delimited (stripComments .code post ++ y ++ unit '}' :: r) :=
          delimited_space hpost (by decide)
        have hlast := readMembers_step numbers entries ht.1 hsynced.1 (hchild _ hbrace)
          (readAfter_brace hpost)
        simp only [strippedMembers, membersComma, List.append_nil, List.append_assoc] at hlast ⊢
        rw [hlast, List.all_append, ← Bool.and_assoc]
        show _ = if spacedKey key && spacedTree child && spaced post && true && _ then _ else _
        rw [Bool.and_true]
        rfl
      · have hcomma : membersComma more = [unit ','] := by
          cases more with
          | nil => exact absurd rfl hmore
          | _ => rfl
        have hbehind : Delimited (stripComments .code post ++ unit ',' ::
            (strippedMembers more ++ (y ++ unit '}' :: r))) :=
          delimited_space hsynced.2.2.1.spaces (by decide)
        have hafter : readAfter (literalValue numbers infinity) n
            (setEntry entries (respelled key.raw key.name) (plainTree child))
            (stripComments .code post ++ unit ',' ::
              (strippedMembers more ++ (y ++ unit '}' :: r))) =
            if spaced post && (spacedMembers more && y.all isJsonSpace) then
              some (plainMembers entries (.cons key child post more), r) else none := by
          rw [readAfter_comma hsynced.2.2.1.spaces, readMembers_members more _ hmore ht.2.2.2
            hsynced.2.2.2 hy (by omega)]
          show (if spaced post then _ else _) = _
          cases spaced post <;> rfl
        have hnext := readMembers_step numbers entries ht.1 hsynced.1 (hchild _ hbehind) hafter
        simp only [strippedMembers, hcomma, List.append_assoc, List.cons_append, List.nil_append]
        rw [hnext]
        show _ = if spacedKey key && spacedTree child && spaced post && spacedMembers more && _
          then _ else _
        simp only [Bool.and_assoc]

end

end Reading

end AfyxGraph.Resolution.StripJsonc
