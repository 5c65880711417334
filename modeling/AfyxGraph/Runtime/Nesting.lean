import AfyxGraph.Runtime.Json

/-! # Quotes and brackets

What a reader knows that goes over a text unit by unit and minds only quotes and brackets: how many
brackets are open, and the quote it is inside. A closing bracket too many is passed over.
-/

namespace AfyxGraph.Runtime

def isQuote (c : CodeUnit) : Bool := c = unit '\'' || c = unit '"' || c = unit '\x60'

def isOpening (c : CodeUnit) : Bool := c = unit '(' || c = unit '[' || c = unit '\x7b'

def isClosing (c : CodeUnit) : Bool := c = unit ')' || c = unit ']' || c = unit '\x7d'

/-- Neither a quote, nor a bracket, nor a backslash. -/
def isPlain (c : CodeUnit) : Bool :=
  !isQuote c && !isOpening c && !isClosing c && c ≠ unit '\\'

/-- A unit that opens a string. -/
abbrev Quote := { c : CodeUnit // isQuote c = true }

/-- A quote is kept with whether the unit before was a backslash that escapes. -/
structure Nesting where
  depth : Nat
  quote : Option (Quote × Bool)
  deriving DecidableEq

namespace Nesting

/-- Outside of everything. -/
def top : Nesting := ⟨0, none⟩

def next (n : Nesting) (c : CodeUnit) : Nesting :=
  match n.quote with
  | some (q, true) => { n with quote := some (q, false) }
  | some (q, false) =>
      if c = unit '\\' then { n with quote := some (q, true) }
      else if c = q.val then { n with quote := none }
      else n
  | none =>
      if h : isQuote c = true then { n with quote := some (⟨c, h⟩, false) }
      else if isOpening c then { n with depth := n.depth + 1 }
      else if isClosing c then { n with depth := n.depth - 1 }
      else n

def after (n : Nesting) (s : JsString) : Nesting := s.foldl next n

@[simp] theorem after_nil (n : Nesting) : n.after [] = n := rfl

@[simp] theorem after_cons (n : Nesting) (c : CodeUnit) (s : JsString) :
    n.after (c :: s) = (n.next c).after s := rfl

@[simp] theorem after_append (n : Nesting) (s t : JsString) :
    n.after (s ++ t) = (n.after s).after t :=
  List.foldl_append ..

theorem next_plain_top {c : CodeUnit} (h : isPlain c = true) : top.next c = top := by
  simp only [isPlain, Bool.and_eq_true, Bool.not_eq_true'] at h
  simp [top, next, h.1.1.1, h.1.1.2, h.1.2]

/-- A plain unit leads out of nothing. -/
theorem next_plain_ne_top {n : Nesting} {c : CodeUnit} (h : isPlain c = true) (hn : n ≠ top) :
    n.next c ≠ top := by
  simp only [isPlain, Bool.and_eq_true, Bool.not_eq_true', ne_eq, decide_eq_true_eq] at h
  obtain ⟨⟨⟨hquote, hopening⟩, hclosing⟩, hback⟩ := h
  obtain ⟨depth, quote⟩ := n
  cases quote with
  | none => simpa [next, hquote, hopening, hclosing] using hn
  | some q =>
      obtain ⟨q, escaped⟩ := q
      cases escaped with
      | true => simp [next, top]
      | false =>
          have hc : c ≠ q.val := by
            rintro rfl
            rw [q.property] at hquote
            exact Bool.noConfusion hquote
          simp [next, top, hback, hc]

theorem after_plain_top {s : JsString} (h : ∀ c ∈ s, isPlain c = true) : top.after s = top := by
  induction s with
  | nil => rfl
  | cons c s ih =>
      rw [after_cons, next_plain_top (h c List.mem_cons_self)]
      exact ih fun d hd => h d (List.mem_cons_of_mem _ hd)

theorem after_plain_ne_top {n : Nesting} {s : JsString} (h : ∀ c ∈ s, isPlain c = true)
    (hn : n ≠ top) : n.after s ≠ top := by
  induction s generalizing n with
  | nil => exact hn
  | cons c s ih =>
      exact ih (fun d hd => h d (List.mem_cons_of_mem _ hd))
        (next_plain_ne_top (h c List.mem_cons_self) hn)

end Nesting

end AfyxGraph.Runtime
