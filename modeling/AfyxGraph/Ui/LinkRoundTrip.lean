import AfyxGraph.Ui.TrailLinks
import Mathlib.Data.List.Basic

/-! # What a link gives back

A link gives back its trail for every trail, and its line unless that is zero; it gives back its
id exactly when no slash-separated part of the id is empty, since the router drops empty parts.
A saved trail's text gives back the first longest run of hops that resolved.
-/

namespace AfyxGraph.Ui

open AfyxGraph.Core AfyxGraph.Core.Percent

/-! ## The trail -/

/-- A hop as the codec carries it: its name and kind are fetched later. -/
def TrailHop.bare (h : TrailHop) : TrailHop := { h with name := none, kind := none }

theorem charToDir_dirToChar (dir : HopDirection) : charToDir (dirToChar dir) = some dir := by
  cases dir <;> rfl

theorem decodeToken_encode {id : Text} (hid : id ≠ []) (dir : HopDirection) :
    decodeToken (dirToChar dir :: encodeURIComponent id) =
      some { id, name := none, kind := none, dir } := by
  have hrest : (encodeURIComponent id).isEmpty = false := by
    simpa using fun h => hid (encodeURIComponent_eq_nil.mp h)
  have hempty : id.isEmpty = false := by simpa using hid
  simp only [decodeToken, hrest, charToDir_dirToChar, decodeURIComponent_encode, Option.getD_some,
    hempty, Bool.false_eq_true, if_false]

theorem comma_notMem_token (id : Text) (dir : HopDirection) :
    ',' ∉ dirToChar dir :: encodeURIComponent id := by
  intro h
  rcases List.mem_cons.mp h with h | h
  · cases dir <;> revert h <;> decide
  · rcases mem_encodeURIComponent h with h | h <;> revert h <;> decide

/-- Tokens that were written are read back one by one. -/
theorem decodeTrail_tokens {α : Type} (idOf : α → Text) (dirOf : α → HopDirection)
    (items : List α) (hids : ∀ x ∈ items, idOf x ≠ []) (hne : items ≠ []) :
    decodeTrail (some (Text.joinWith ','
      (items.map fun x => dirToChar (dirOf x) :: encodeURIComponent (idOf x)))) =
      items.map fun x => { id := idOf x, name := none, kind := none, dir := dirOf x } := by
  have htokens : (items.map fun x => dirToChar (dirOf x) :: encodeURIComponent (idOf x)) ≠ [] := by
    simpa using hne
  have hfull : (Text.joinWith ','
      (items.map fun x => dirToChar (dirOf x) :: encodeURIComponent (idOf x))).isEmpty = false := by
    have hjoin : Text.joinWith ','
        (items.map fun x => dirToChar (dirOf x) :: encodeURIComponent (idOf x)) ≠ [] := by
      apply Text.joinWith_ne_nil htokens
      intro t ht
      obtain ⟨x, -, rfl⟩ := List.mem_map.mp ht
      exact List.cons_ne_nil _ _
    simpa using hjoin
  rw [decodeTrail, hfull, Text.split_joinWith htokens]
  · simp only [Bool.false_eq_true, if_false]
    rw [List.filterMap_map]
    rw [← List.filterMap_eq_map]
    apply List.filterMap_congr
    intro x hx
    exact decodeToken_encode (hids x hx) (dirOf x)
  · intro t ht
    obtain ⟨x, -, rfl⟩ := List.mem_map.mp ht
    exact comma_notMem_token (idOf x) (dirOf x)

theorem decodeTrail_encodeTrail {hops : List TrailHop} (hids : ∀ h ∈ hops, h.id ≠ []) :
    decodeTrail (some (encodeTrail hops)) = hops.map TrailHop.bare := by
  cases hops with
  | nil => rfl
  | cons h hs =>
      exact decodeTrail_tokens TrailHop.id TrailHop.dir (h :: hs) hids (List.cons_ne_nil h hs)

/-! ## The link -/

variable (d : Bytes.TextDecoder)

/-- The parts of the id that the router keeps. -/
def keptParts (id : Text) : List Text := (id.split '/').filter fun s => !s.isEmpty

theorem notMem_encoded {c : Char} (hc : c = '/' ∨ c = '?') (t : Text) :
    c ∉ encodeURIComponent t := by
  intro h
  rcases mem_encodeURIComponent h with h | h
  · rcases hc with rfl | rfl <;> revert h <;> decide
  · rcases hc with rfl | rfl <;> revert h <;> decide

theorem question_notMem_encodePath (id : Text) : '?' ∉ encodePath id := by
  apply Text.notMem_joinWith (by decide)
  intro part hpart
  obtain ⟨s, -, rfl⟩ := List.mem_map.mp hpart
  exact notMem_encoded (.inr rfl) s

/-- The query behind a path without a question mark is cut off again. -/
theorem cut_query {path : Text} (hpath : '?' ∉ path) (params : SearchParams) :
    (Text.cut '?' (path ++ query params)).getD (path ++ query params, []) =
      (path, params.toText) := by
  rw [query]
  by_cases hempty : params.toText = []
  · simp only [hempty, List.isEmpty_nil, if_true, List.append_nil]
    rw [Text.cut_eq_none.mpr hpath]
    rfl
  · have hfull : params.toText.isEmpty = false := by simpa using hempty
    simp only [hfull, Bool.false_eq_true, if_false]
    rw [Text.cut_append _ hpath]
    rfl

theorem segments_symbolPath (id : Text) :
    ((Text.split '/' ("/s/".toList ++ encodePath id)).filter fun s => !s.isEmpty).map
      decodeSegment = "s".toList :: keptParts id := by
  have hparts : (id.split '/').map encodeURIComponent ≠ [] := by
    simpa using Text.split_ne_nil '/' id
  have hsplit : Text.split '/' ("/s/".toList ++ encodePath id) =
      [] :: "s".toList :: (id.split '/').map encodeURIComponent := by
    have hshape : "/s/".toList ++ encodePath id =
        [] ++ '/' :: ("s".toList ++ '/' :: encodePath id) := rfl
    rw [hshape, Text.split_append_cons List.not_mem_nil, Text.split_append_cons (by decide),
      encodePath, Text.split_joinWith hparts]
    intro part hpart
    obtain ⟨s, -, rfl⟩ := List.mem_map.mp hpart
    exact notMem_encoded (.inl rfl) s
  have hkept : (((id.split '/').map encodeURIComponent).filter fun s => !s.isEmpty) =
      (keptParts id).map encodeURIComponent := by
    rw [List.filter_map, keptParts]
    congr 1
    apply List.filter_congr
    intro s _
    simp only [Function.comp, Bool.not_eq_eq_eq_not, Bool.not_not]
    rw [Bool.eq_iff_iff, List.isEmpty_iff, List.isEmpty_iff, encodeURIComponent_eq_nil]
  have hdecoded : ((keptParts id).map encodeURIComponent).map decodeSegment = keptParts id := by
    rw [List.map_map]
    conv_rhs => rw [← List.map_id (keptParts id)]
    apply List.map_congr_left
    intro s _
    rw [Function.comp, decodeSegment, decodeURIComponent_encode]
    rfl
  have hs : decodeSegment "s".toList = "s".toList := by decide
  rw [hsplit]
  simp only [List.filter_cons, List.isEmpty_nil, Bool.not_true, Bool.false_eq_true, if_false]
  rw [hkept, if_pos (by decide), List.map_cons, hdecoded, hs]

theorem parseHash_symbolHref {id : Text} (hid : id ≠ []) (opts : SymbolHrefOptions) :
    (parseHash d (symbolHref (some id) opts)).params = symbolParams opts ∧
      (parseHash d (symbolHref (some id) opts)).route =
        .symbol (if (keptParts id).isEmpty then none else some (Text.joinWith '/' (keptParts id)))
          (parseLine (symbolParams opts)) := by
  have hfull : id.isEmpty = false := by simpa using hid
  have hpath : '?' ∉ "/s/".toList ++ encodePath id := by
    rw [List.mem_append, not_or]
    exact ⟨by decide, question_notMem_encodePath id⟩
  have hraw : symbolHref (some id) opts =
      '#' :: (("/s/".toList ++ encodePath id) ++ query (symbolParams opts)) := by
    simp only [symbolHref, Option.getD_some, hfull, Bool.false_eq_true, if_false]
    rw [List.append_assoc]
    rfl
  have hparts := cut_query hpath (symbolParams opts)
  rw [hraw]
  simp only [parseHash, List.head?_cons, if_true, List.tail_cons, hparts,
    SearchParams.ofText_toText, segments_symbolPath]
  exact ⟨trivial, rfl⟩

/-! ## What comes back -/

/-- The id comes back when none of its parts is empty. -/
theorem keptParts_eq_id {id : Text} :
    (if (keptParts id).isEmpty then none else some (Text.joinWith '/' (keptParts id))) = some id ↔
      [] ∉ id.split '/' := by
  constructor
  · intro h hempty
    split at h
    · cases h
    · rename_i hkept
      have hne : keptParts id ≠ [] := by simpa using hkept
      have hjoin := Option.some.inj h
      have hall : keptParts id = id.split '/' := by
        conv_rhs => rw [← hjoin]
        rw [Text.split_joinWith hne]
        intro part hpart
        exact Text.notMem_of_mem_split (List.mem_filter.mp hpart).1
      rw [← hall] at hempty
      have hfull := (List.mem_filter.mp hempty).2
      cases hfull
  · intro hparts
    have hall : keptParts id = id.split '/' := by
      apply List.filter_eq_self.mpr
      intro part hpart
      have hne : part ≠ [] := fun h => hparts (h ▸ hpart)
      simpa using hne
    have hne : (id.split '/').isEmpty = false := by simpa using Text.split_ne_nil '/' id
    rw [hall, hne, Text.joinWith_split]
    rfl

theorem get_trail (trail : Text) (line : Option Nat) :
    (symbolParams { trail := some trail, line }).get "t".toList =
      if trail.isEmpty then none else some trail := by
  cases line with
  | none =>
      simp only [symbolParams]
      split <;> rfl
  | some line =>
      simp only [symbolParams]
      split <;> split <;> rfl

theorem parseLine_symbolParams (trail : Text) (line : Option Nat) :
    parseLine (symbolParams { trail := some trail, line }) = line ↔ line ≠ some 0 := by
  have hget : (symbolParams { trail := some trail, line }).get "hl".toList =
      line.bind fun n => if n = 0 then none else some (Text.ofNat n) := by
    cases line with
    | none =>
        simp only [symbolParams]
        split <;> rfl
    | some line =>
        simp only [symbolParams, Option.bind_some]
        by_cases hzero : line = 0
        · simp only [hzero, if_true]
          split <;> rfl
        · simp only [hzero, if_false]
          split <;> rfl
  rw [parseLine, numberParam, hget]
  cases line with
  | none => exact ⟨nofun, fun _ => rfl⟩
  | some n =>
      rw [Option.bind_some]
      by_cases hzero : n = 0
      · subst hzero
        exact ⟨nofun, fun h => absurd rfl h⟩
      · have hpos : decide ((0 : Int) < n) = true := by
          apply decide_eq_true
          omega
        simp only [if_neg hzero, Option.getD_some, Text.parseInt_ofNat, Bool.and_true, hpos,
          if_true, Int.toNat_natCast]
        exact ⟨fun _ h => hzero (Option.some.inj h), fun _ => trivial⟩

/-- A symbol's link gives back the id, the line and the trail it was built from. -/
def LinkRoundTrips (id : Text) (hops : List TrailHop) (line : Option Nat) : Prop :=
  let location := parseHash d (symbolHref (some id) { trail := some (encodeTrail hops), line })
  location.route = .symbol (some id) line ∧
    decodeTrail (location.params.get "t".toList) = hops.map TrailHop.bare

theorem linkRoundTrips_iff {id : Text} (hid : id ≠ []) {hops : List TrailHop}
    (hhops : ∀ h ∈ hops, h.id ≠ []) (line : Option Nat) :
    LinkRoundTrips d id hops line ↔ [] ∉ id.split '/' ∧ line ≠ some 0 := by
  obtain ⟨hparams, hroute⟩ :=
    parseHash_symbolHref d hid { trail := some (encodeTrail hops), line }
  have htrail : decodeTrail ((symbolParams { trail := some (encodeTrail hops), line }).get
      "t".toList) = hops.map TrailHop.bare := by
    rw [get_trail, ← decodeTrail_encodeTrail hhops]
    split
    · rename_i hempty
      rw [decodeTrail, decodeTrail, hempty]
      rfl
    · rfl
  rw [LinkRoundTrips]
  simp only [hparams, hroute, htrail, and_true, Route.symbol.injEq, keptParts_eq_id,
    parseLine_symbolParams]

end AfyxGraph.Ui
