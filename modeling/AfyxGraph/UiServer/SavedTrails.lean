import AfyxGraph.Core.Places
import AfyxGraph.UiServer.TrailStore

/-! # A saved trail is listed

What is written is read back when no name in it is empty and the file is small enough; a listing
reaches it when not too many trails have file names before its own. A save that picks its own
file name can meet a file that the listing has skipped: that file is lost.
-/

namespace AfyxGraph.UiServer

open AfyxGraph.Core AfyxGraph.Runtime

variable {ν : Type}

/-! ## Entries of the directory -/

namespace Directory

variable {dir : Directory} {name other : JsString} {entry : Entry}

theorem lookup_put_self (dir : Directory) (name : JsString) (entry : Entry) :
    (dir.put name entry).lookup name = some entry :=
  lookup_setEntry_self dir.entries name entry

theorem lookup_put_ne (dir : Directory) (entry : Entry) (h : other ≠ name) :
    (dir.put name entry).lookup other = dir.lookup other :=
  lookup_setEntry_ne dir.entries entry h

theorem lookup_remove_self (dir : Directory) (name : JsString) :
    (dir.remove name).lookup name = none := by
  cases h : (dir.remove name).lookup name with
  | none => rfl
  | some entry =>
      have hmem : (name, entry) ∈ (dir.remove name).entries := mem_of_lookup h
      simp [remove] at hmem

theorem lookup_remove_ne (dir : Directory) (h : other ≠ name) :
    (dir.remove name).lookup other = dir.lookup other := by
  cases hother : dir.lookup other with
  | none =>
      apply List.lookup_eq_none_iff.mpr
      intro entry hentry
      exact List.lookup_eq_none_iff.mp hother entry (List.mem_of_mem_filter hentry)
  | some entry =>
      have hmem : (other, entry) ∈ (dir.remove name).entries :=
        List.mem_filter.mpr ⟨mem_of_lookup hother, by simpa using h⟩
      exact lookup_of_mem (dir.remove name).names_nodup hmem

theorem nodup_names (dir : Directory) : dir.names.Nodup := dir.names_nodup

theorem mem_names_iff : name ∈ dir.names ↔ (dir.lookup name).isSome = true := by
  constructor
  · intro h
    obtain ⟨⟨key, entry⟩, hmem, rfl⟩ := List.mem_map.mp h
    have hentry : dir.lookup key = some entry := lookup_of_mem dir.names_nodup hmem
    rw [hentry]
    rfl
  · intro h
    obtain ⟨entry, hentry⟩ := Option.isSome_iff_exists.mp h
    exact List.mem_map_of_mem (mem_of_lookup hentry)

theorem write_eq_some {written : Directory} {bytes : Bytes} (h : dir.write name bytes = some written) :
    ∃ readable, written = dir.put name (.file bytes readable true) ∧
      (dir.lookup name = none → readable = true) := by
  unfold write at h
  cases hentry : dir.lookup name with
  | none =>
      rw [hentry, Option.some.injEq] at h
      exact ⟨true, h.symm, fun _ => rfl⟩
  | some entry =>
      cases entry with
      | directory => simp [hentry] at h
      | file old readable writable =>
          simp only [hentry, Option.ite_none_right_eq_some, Option.some.injEq] at h
          exact ⟨readable, h.2.symm, nofun⟩

end Directory

variable {env : TrailEnvironment ν} {dir : Directory} {trail : StoredTrail Nat}

theorem tempFile_ne (env : TrailEnvironment ν) (id : JsString) : tempFile env id ≠ trailFile id := by
  intro h
  have hlength := congrArg List.length h
  simp only [tempFile, List.length_append, List.length_cons] at hlength
  omega

/-- A trail that is written is the only change, but for an entry that has the name of the
temporary file. -/
theorem writeStoredTrail_ok (h : (writeStoredTrail env dir trail).2 = .ok ()) :
    isTrailId trail.id = true ∧ dir.lookup (trailFile trail.id) ≠ some .directory ∧
      (writeStoredTrail env dir trail).1.lookup (tempFile env trail.id) = none ∧
      (∀ name, name ≠ trailFile trail.id → name ≠ tempFile env trail.id →
        (writeStoredTrail env dir trail).1.lookup name = dir.lookup name) ∧
      ∃ readable, (writeStoredTrail env dir trail).1.lookup (trailFile trail.id) =
          some (.file trail.bytes readable true) ∧
        (dir.lookup (tempFile env trail.id) = none → readable = true) := by
  have htemp := tempFile_ne env trail.id
  cases hid : isTrailId trail.id with
  | false => simp [writeStoredTrail, hid] at h
  | true =>
      cases hwrite : dir.write (tempFile env trail.id) trail.bytes with
      | none => simp [writeStoredTrail, hid, hwrite] at h
      | some written =>
          cases hrename : written.rename (tempFile env trail.id) (trailFile trail.id) with
          | none => simp [writeStoredTrail, hid, hwrite, hrename] at h
          | some renamed =>
              have hresult : (writeStoredTrail env dir trail).1 = renamed := by
                simp [writeStoredTrail, hid, hwrite, hrename]
              rw [hresult]
              obtain ⟨readable, rfl, hreadable⟩ := Directory.write_eq_some hwrite
              simp only [Directory.rename, Directory.lookup_put_self,
                Directory.lookup_put_ne _ _ htemp.symm, Option.ite_none_left_eq_some,
                Option.some.injEq] at hrename
              obtain ⟨htarget, rfl⟩ := hrename
              refine ⟨rfl, htarget, ?_, fun name hname hother => ?_, readable,
                Directory.lookup_put_self .., hreadable⟩
              · rw [Directory.lookup_put_ne _ _ htemp, Directory.lookup_remove_self]
              · rw [Directory.lookup_put_ne _ _ hname, Directory.lookup_remove_ne _ hother,
                  Directory.lookup_put_ne _ _ hother]

/-! ## The listing -/

/-- The trail in the entry of that name. -/
def trailAt (env : TrailEnvironment ν) (dir : Directory) (name : JsString) :
    Option (StoredTrail ν) :=
  if dotJson <:+ name ∧ isTrailId (idOf name) = true then
    readTrailFile env (dir.lookup name) (idOf name)
  else none

theorem listFrom_fst (names : List JsString) {trails : List (StoredTrail ν)} {skipped : Nat}
    (h : trails.length ≤ MAX_TRAILS) : (listFrom env dir names trails skipped).1 =
      trails ++ (names.filterMap (trailAt env dir)).take (MAX_TRAILS - trails.length) := by
  induction names generalizing trails skipped with
  | nil => simp [listFrom]
  | cons name names ih =>
      rw [listFrom]
      by_cases hjson : dotJson <:+ name
      · rw [if_neg (not_not_intro hjson)]
        by_cases hfull : MAX_TRAILS ≤ trails.length
        · rw [if_pos hfull, Nat.sub_eq_zero_of_le hfull]
          simp
        · rw [if_neg hfull]
          by_cases hid : isTrailId (idOf name) = true
          · have hat : trailAt env dir name = readTrailFile env (dir.lookup name) (idOf name) :=
              if_pos ⟨hjson, hid⟩
            rw [if_pos hid]
            cases hread : readTrailFile env (dir.lookup name) (idOf name) with
            | none => rw [List.filterMap_cons_none (hat.trans hread), ← ih h]
            | some trail =>
                have hlength : (trails ++ [trail]).length ≤ MAX_TRAILS := by
                  rw [List.length_append, List.length_singleton]
                  omega
                have hroom : MAX_TRAILS - trails.length = MAX_TRAILS - (trails.length + 1) + 1 := by
                  omega
                rw [List.filterMap_cons_some (hat.trans hread), hroom, List.take_succ_cons]
                show (listFrom env dir names (trails ++ [trail]) skipped).1 = _
                rw [ih hlength, List.length_append, List.length_singleton, List.append_assoc]
                rfl
          · have hat : trailAt env dir name = none := if_neg fun hboth => hid hboth.2
            rw [if_neg hid, List.filterMap_cons_none hat, ih h]
      · have hat : trailAt env dir name = none := if_neg fun hboth => hjson hboth.1
        rw [if_pos hjson, List.filterMap_cons_none hat, ih h]

/-- The listing has room for the file when it comes to it. -/
def Reached (env : TrailEnvironment ν) (dir : Directory) (name : JsString) : Prop :=
  ((dir.names.filter (· < name)).filterMap (trailAt env dir)).length < MAX_TRAILS

theorem id_of_parseTrail {numbers : Numbers ν} {id text : JsString} {trail : StoredTrail ν}
    (h : parseTrail numbers id text = some trail) : trail.id = id := by
  unfold parseTrail at h
  split at h
  · cases h
  · split at h
    · split at h
      · cases h
      · obtain ⟨hops, -, rfl⟩ := Option.map_eq_some_iff.mp h
        rfl
    · cases h

theorem id_of_readTrailFile {entry : Option Entry} {id : JsString} {trail : StoredTrail ν}
    (h : readTrailFile env entry id = some trail) : trail.id = id := by
  unfold readTrailFile at h
  split at h
  · rw [Option.ite_none_left_eq_some] at h
    exact id_of_parseTrail h.2
  · cases h

theorem trailFile_idOf {name : JsString} (h : dotJson <:+ name) : trailFile (idOf name) = name := by
  obtain ⟨front, rfl⟩ := h
  rw [trailFile, idOf, List.length_append, Nat.add_sub_cancel, List.take_left]

theorem idOf_trailFile (id : JsString) : idOf (trailFile id) = id := by
  rw [trailFile, idOf, List.length_append, Nat.add_sub_cancel, List.take_left]

theorem trailAt_trailFile {id : JsString} (hid : isTrailId id = true) :
    trailAt env dir (trailFile id) = readTrailFile env (dir.lookup (trailFile id)) id := by
  have hboth : dotJson <:+ trailFile id ∧ isTrailId (idOf (trailFile id)) = true :=
    ⟨⟨id, rfl⟩, (idOf_trailFile id).symm ▸ hid⟩
  rw [trailAt, if_pos hboth, idOf_trailFile]

theorem trailAt_eq_some {name : JsString} {trail : StoredTrail ν}
    (h : trailAt env dir name = some trail) :
    isTrailId trail.id = true ∧ name = trailFile trail.id := by
  obtain ⟨⟨hjson, hid⟩, hread⟩ := Option.ite_none_right_eq_some.mp h
  rw [id_of_readTrailFile hread]
  exact ⟨hid, (trailFile_idOf hjson).symm⟩

/-- A trail is listed when it is in the file of its id and the listing reaches that. -/
theorem mem_listStoredTrails {trail : StoredTrail ν} :
    trail ∈ (listStoredTrails env dir).trails ↔ isTrailId trail.id = true ∧
      readTrailFile env (dir.lookup (trailFile trail.id)) trail.id = some trail ∧
        Reached env dir (trailFile trail.id) := by
  have hloop : (listFrom env dir (inOrder dir.names) [] 0).1 =
      firstFew MAX_TRAILS (trailAt env dir) dir.names := by
    rw [listFrom_fst _ (Nat.zero_le _), List.nil_append]
    rfl
  rw [listStoredTrails, List.mem_mergeSort, hloop, mem_firstFew dir.nodup_names]
  constructor
  · rintro ⟨name, -, hat, hreached⟩
    obtain ⟨hid, rfl⟩ := trailAt_eq_some hat
    rw [trailAt_trailFile hid] at hat
    exact ⟨hid, hat, hreached⟩
  · rintro ⟨hid, hread, hreached⟩
    refine ⟨trailFile trail.id, ?_, (trailAt_trailFile hid).trans hread, hreached⟩
    apply Directory.mem_names_iff.mpr
    cases hentry : dir.lookup (trailFile trail.id) with
    | none => simp [hentry, readTrailFile] at hread
    | some entry => rfl

/-- Only the entries below a name decide whether the listing reaches it. -/
theorem reached_congr {dir' : Directory} {name : JsString}
    (h : ∀ other, other < name → dir'.lookup other = dir.lookup other) :
    Reached env dir' name ↔ Reached env dir name := by
  have hnames : (dir'.names.filter (· < name)).Perm (dir.names.filter (· < name)) := by
    refine (List.perm_ext_iff_of_nodup (dir'.nodup_names.filter _)
      (dir.nodup_names.filter _)).mpr fun other => ?_
    simp only [List.mem_filter, Directory.mem_names_iff, decide_eq_true_eq]
    refine and_congr_left fun hlt => ?_
    rw [h other hlt]
  have hread : (dir.names.filter (· < name)).filterMap (trailAt env dir') =
      (dir.names.filter (· < name)).filterMap (trailAt env dir) := by
    apply List.filterMap_congr
    intro other hother
    have hlt : other < name := of_decide_eq_true (List.mem_filter.mp hother).2
    rw [trailAt, trailAt, h other hlt]
  rw [Reached, Reached, (hnames.filterMap _).length_eq, hread]

/-! ## Reading back -/

variable {μ : Type}

theorem lookup_mapEntries (f : μ → ν) (entries : List (JsString × Json μ)) (key : JsString) :
    (mapEntries f entries).lookup key = (entries.lookup key).map (Json.mapNumbers f) := by
  induction entries with
  | nil => rfl
  | cons entry entries ih =>
      obtain ⟨other, value⟩ := entry
      rw [mapEntries, List.lookup_cons, List.lookup_cons, ih]
      cases key == other <;> rfl

theorem field_mapNumbers {entries : List (JsString × Json μ)} (f : μ → ν)
    (hnodup : (entries.map Prod.fst).Nodup) {key : JsString} {value : Json μ}
    (h : (key, value) ∈ entries) :
    Json.field ((Json.object entries).mapNumbers f) key = some (value.mapNumbers f) := by
  have hlookup : entries.lookup key = some value := lookup_of_mem hnodup h
  show (mapEntries f entries).lookup key = _
  rw [lookup_mapEntries, hlookup, Option.map_some]

theorem mapItems_eq_map (f : μ → ν) (items : List (Json μ)) :
    mapItems f items = items.map (Json.mapNumbers f) := by
  induction items with
  | nil => rfl
  | cons item items ih => rw [mapItems, ih, List.map_cons]

theorem directionOf_text (dir : StoredHopDirection) : directionOf (some dir.text) = dir := by
  cases dir <;> decide +kernel

def StoredHop.Named (hop : StoredHop Nat) : Prop := hop.name ≠ [] ∧ hop.qualifiedName ≠ []

/-- The keys of a hop, in the order in which they are written. -/
def hopKeys : List JsString :=
  [js "dir", js "name", js "qualifiedName", js "kind", js "file", js "line", js "id"]

def trailKeys : List JsString :=
  [js "version", js "id", js "name", js "note", js "author", js "createdAt", js "updatedAt",
    js "hops"]

theorem nodup_hopKeys : hopKeys.Nodup := by decide +kernel

theorem nodup_trailKeys : trailKeys.Nodup := by decide +kernel

section Fields

variable {entries : List (JsString × Json μ)} {f : μ → ν} {key text : JsString}

theorem textField?_mapNumbers (hnodup : (entries.map Prod.fst).Nodup)
    (h : (key, .string text) ∈ entries) :
    Json.textField? ((Json.object entries).mapNumbers f) key = some text := by
  rw [Json.textField?, field_mapNumbers f hnodup h]
  rfl

theorem textField_mapNumbers (hnodup : (entries.map Prod.fst).Nodup)
    (h : (key, .string text) ∈ entries) :
    Json.textField ((Json.object entries).mapNumbers f) key = text := by
  rw [Json.textField, field_mapNumbers f hnodup h]
  rfl

end Fields

/-- What is read of a hop: an empty name is taken for the other one. -/
theorem parseHop_fields (numbers : Numbers ν) (hop : StoredHop Nat) :
    parseHop numbers ((Json.object hop.fields).mapNumbers numbers.ofNat) =
      if hop.qualifiedName = [] ∧ hop.name = [] then none
      else some
        { hop.mapLine numbers.ofNat with
          name := if hop.name = [] then hop.qualifiedName else hop.name
          qualifiedName := if hop.qualifiedName = [] then hop.name else hop.qualifiedName } := by
  have hnodup : (hop.fields.map Prod.fst).Nodup := nodup_hopKeys
  have hdir : Json.textField? ((Json.object hop.fields).mapNumbers numbers.ofNat) (js "dir") =
      some hop.dir.text := textField?_mapNumbers hnodup (by simp [StoredHop.fields])
  have hname : Json.textField ((Json.object hop.fields).mapNumbers numbers.ofNat) (js "name") =
      hop.name := textField_mapNumbers hnodup (by simp [StoredHop.fields])
  have hqualified : Json.textField ((Json.object hop.fields).mapNumbers numbers.ofNat)
      (js "qualifiedName") = hop.qualifiedName :=
    textField_mapNumbers hnodup (by simp [StoredHop.fields])
  have hkind : Json.textField ((Json.object hop.fields).mapNumbers numbers.ofNat) (js "kind") =
      hop.kind := textField_mapNumbers hnodup (by simp [StoredHop.fields])
  have hfile : Json.textField ((Json.object hop.fields).mapNumbers numbers.ofNat) (js "file") =
      hop.file := textField_mapNumbers hnodup (by simp [StoredHop.fields])
  have hid : Json.textField ((Json.object hop.fields).mapNumbers numbers.ofNat) (js "id") =
      hop.id := textField_mapNumbers hnodup (by simp [StoredHop.fields])
  have hline : Json.field ((Json.object hop.fields).mapNumbers numbers.ofNat) (js "line") =
      some (.number (numbers.ofNat hop.line)) := by
    have hmem : (js "line", Json.number hop.line) ∈ hop.fields := by simp [StoredHop.fields]
    exact field_mapNumbers numbers.ofNat hnodup hmem
  have hobject : Json.isObject ((Json.object hop.fields).mapNumbers numbers.ofNat) = true := rfl
  have hfloor : (if numbers.isPositive (numbers.ofNat hop.line) then
      numbers.floor (numbers.ofNat hop.line) else numbers.ofNat 0) = numbers.ofNat hop.line := by
    rw [numbers.isPositive_ofNat, numbers.floor_ofNat]
    by_cases hpos : 0 < hop.line
    · rw [if_pos (decide_eq_true hpos)]
    · obtain hzero : hop.line = 0 := by omega
      simp [hzero]
  simp only [parseHop, hobject, if_true, hdir, hname, hqualified, hkind, hfile, hid, hline,
    hfloor, directionOf_text, StoredHop.mapLine]

theorem parseHop_fields_eq_iff (numbers : Numbers ν) (hop : StoredHop Nat) :
    parseHop numbers ((Json.object hop.fields).mapNumbers numbers.ofNat) =
      some (hop.mapLine numbers.ofNat) ↔ hop.Named := by
  rw [parseHop_fields]
  constructor
  · intro h
    split at h
    · cases h
    · rename_i hsome
      rw [Option.some.injEq] at h
      have hname := congrArg StoredHop.name h
      have hqualified := congrArg StoredHop.qualifiedName h
      constructor
      · intro hempty
        rw [StoredHop.mapLine, hempty] at hname
        exact hsome ⟨by simpa using hname, hempty⟩
      · intro hempty
        rw [StoredHop.mapLine, hempty] at hqualified
        exact hsome ⟨hempty, by simpa using hqualified⟩
  · rintro ⟨hname, hqualified⟩
    rw [if_neg fun hboth => hname hboth.2, if_neg hname, if_neg hqualified]
    rfl

theorem mapM_eq_some_map_iff {α β γ : Type} {p : β → Option γ} {g : α → β} {r : α → γ}
    (xs : List α) : (xs.map g).mapM p = some (xs.map r) ↔ ∀ x ∈ xs, p (g x) = some (r x) := by
  induction xs with
  | nil => simp
  | cons x xs ih =>
      rw [List.map_cons, List.mapM_cons, List.map_cons, List.forall_mem_cons, ← ih]
      cases hx : p (g x) with
      | none => simp
      | some y =>
          cases hxs : (xs.map g).mapM p with
          | none => simp
          | some ys => simp

theorem spaces_gap : Spaces (js "  ") := by
  have hall : (js "  ").all isJsonSpace = true := by decide +kernel
  exact List.all_eq_true.mp hall

/-- The directory has every file as it is written. -/
theorem decode_bytes (d : Bytes.TextDecoder) (trail : StoredTrail Nat) :
    decodeUtf8 d trail.bytes =
      stringify wholeNumbers (js "  ") [] (.object trail.fields) ++ [unit '\n'] := by
  apply decodeUtf8_encodeUtf8
  apply (wellFormed_stringify spaces_gap _ spaces_nil).append
  exact wellFormed_of_all (by decide)

theorem distinct_fields (trail : StoredTrail Nat) : (Json.object trail.fields).Distinct := by
  have hhops : distinctItems (trail.hops.map fun hop => Json.object hop.fields) := by
    induction trail.hops with
    | nil => trivial
    | cons hop hops ih =>
        have hfields : (Json.object hop.fields).Distinct :=
          ⟨nodup_hopKeys, by simp [StoredHop.fields, distinctEntries, Json.Distinct]⟩
        exact ⟨hfields, ih⟩
  exact ⟨nodup_trailKeys, by simp [StoredTrail.fields, distinctEntries, Json.Distinct, hhops]⟩

theorem parseJson_bytes (numbers : Numbers ν) (d : Bytes.TextDecoder) (trail : StoredTrail Nat) :
    parseJson numbers.ofLiteral (decodeUtf8 d trail.bytes) =
      some ((Json.object trail.fields).mapNumbers numbers.ofNat) := by
  rw [decode_bytes]
  exact parseJson_stringify spaces_gap numbers.ofLiteral_decimal (distinct_fields trail)
    spaces_nil.lineFeed

/-- A trail that is written and read back has the name, and the hops that can be read. -/
theorem parseTrail_bytes (numbers : Numbers ν) (d : Bytes.TextDecoder) (id : JsString)
    {trail : StoredTrail Nat} (hname : trim trail.name ≠ []) (hhops : trail.hops ≠ [])
    (hlength : trail.hops.length ≤ MAX_TRAIL_HOPS) :
    ∃ build : List (StoredHop ν) → StoredTrail ν,
      (∀ hops, (build hops).hops = hops ∧ (build hops).name = trail.name.take MAX_TRAIL_NAME) ∧
      parseTrail numbers id (decodeUtf8 d trail.bytes) =
        ((trail.hops.map fun hop => (Json.object hop.fields).mapNumbers numbers.ofNat).mapM
          (parseHop numbers)).map build := by
  have hnodup : (trail.fields.map Prod.fst).Nodup := nodup_trailKeys
  have htext : Json.textField? ((Json.object trail.fields).mapNumbers numbers.ofNat) (js "name") =
      some trail.name := textField?_mapNumbers hnodup (by simp [StoredTrail.fields])
  have hitems : Json.itemsField? ((Json.object trail.fields).mapNumbers numbers.ofNat)
      (js "hops") = some (trail.hops.map fun hop =>
        (Json.object hop.fields).mapNumbers numbers.ofNat) := by
    have hmem : (js "hops", Json.array (trail.hops.map fun hop => .object hop.fields)) ∈
        trail.fields := by
      simp [StoredTrail.fields]
    rw [Json.itemsField?, field_mapNumbers numbers.ofNat hnodup hmem, Json.mapNumbers,
      mapItems_eq_map, List.map_map]
    rfl
  have hsome : ¬ (trim trail.name = [] ∨ (trail.hops.map fun hop =>
      (Json.object hop.fields).mapNumbers numbers.ofNat) = []) := by
    simp [hname, hhops]
  have htake : (trail.hops.map fun hop =>
      (Json.object hop.fields).mapNumbers numbers.ofNat).take MAX_TRAIL_HOPS =
        trail.hops.map fun hop => (Json.object hop.fields).mapNumbers numbers.ofNat :=
    List.take_of_length_le (by simpa using hlength)
  simp only [parseTrail, parseJson_bytes, htext, hitems]
  rw [if_neg hsome, htake]
  exact ⟨_, fun hops => ⟨rfl, rfl⟩, rfl⟩

/-- A trail is read back as it was written when no name in it is empty. -/
theorem exists_parseTrail_bytes_iff (numbers : Numbers ν) (d : Bytes.TextDecoder) (id : JsString)
    {trail : StoredTrail Nat} (hname : trim trail.name ≠ []) (hhops : trail.hops ≠ [])
    (hshort : trail.name.length ≤ MAX_TRAIL_NAME) (hlength : trail.hops.length ≤ MAX_TRAIL_HOPS) :
    (∃ read, parseTrail numbers id (decodeUtf8 d trail.bytes) = some read ∧
      read.name = trail.name ∧ read.hops = trail.hops.map (·.mapLine numbers.ofNat)) ↔
      ∀ hop ∈ trail.hops, hop.Named := by
  obtain ⟨build, hbuild, hparse⟩ := parseTrail_bytes numbers d id hname hhops hlength
  have hnamed := mapM_eq_some_map_iff (p := parseHop numbers)
    (g := fun hop : StoredHop Nat => (Json.object hop.fields).mapNumbers numbers.ofNat)
    (r := (·.mapLine numbers.ofNat)) trail.hops
  simp only [parseHop_fields_eq_iff] at hnamed
  rw [hparse, ← hnamed]
  constructor
  · rintro ⟨read, hread, -, hhops⟩
    obtain ⟨hops, hops_eq, rfl⟩ := Option.map_eq_some_iff.mp hread
    rw [hops_eq, ← hhops, (hbuild hops).1]
  · intro hread
    refine ⟨build (trail.hops.map (·.mapLine numbers.ofNat)), by rw [hread]; rfl, ?_, ?_⟩
    · rw [(hbuild _).2, List.take_of_length_le hshort]
    · exact (hbuild _).1

/-! ## The request -/

theorem eq_false_of_dropWhile {p : CodeUnit → Bool} {s rest : JsString} {c : CodeUnit}
    (h : s.dropWhile p = c :: rest) : p c = false := by
  have hhead := List.head?_dropWhile_not p s
  rw [h] at hhead
  exact hhead

theorem exists_of_trim_ne_nil {s : JsString} (h : trim s ≠ []) :
    ∃ c ∈ trim s, isWhite c = false := by
  unfold trim stripEnd at h ⊢
  cases hstrip : (s.dropWhile isWhite).reverse.dropWhile isWhite with
  | nil => exact absurd (by rw [hstrip]; rfl) h
  | cons c rest => exact ⟨c, by simp, eq_false_of_dropWhile hstrip⟩

theorem trim_ne_nil {s : JsString} {c : CodeUnit} (hc : c ∈ s) (hwhite : isWhite c = false) :
    trim s ≠ [] := by
  intro h
  have hall : (s.dropWhile isWhite).reverse.dropWhile isWhite = [] := List.reverse_eq_nil_iff.mp h
  rw [List.dropWhile_eq_nil_iff] at hall
  have hnil : s.dropWhile isWhite = [] := by
    cases hdrop : s.dropWhile isWhite with
    | nil => rfl
    | cons d rest =>
        have hd : isWhite d = true := hall d (by simp [hdrop])
        rw [eq_false_of_dropWhile hdrop] at hd
        cases hd
  have hcwhite := List.dropWhile_eq_nil_iff.mp hnil c hc
  rw [hwhite] at hcwhite
  cases hcwhite

theorem mem_replaceRuns {p : CodeUnit → Bool} {by_ c : CodeUnit} {s : JsString} {inside : Bool}
    (hc : c ∈ s) (hp : p c = false) : c ∈ replaceRuns p by_ inside s := by
  induction s generalizing inside with
  | nil => cases hc
  | cons d ds ih =>
      rw [replaceRuns]
      rcases List.mem_cons.mp hc with rfl | hc
      · rw [hp]
        exact List.mem_cons_self ..
      · split
        · split
          · exact ih hc
          · exact List.mem_cons_of_mem _ (ih hc)
        · exact List.mem_cons_of_mem _ (ih hc)

theorem length_mapM_except {α β ε : Type} {p : α → Except ε β} {xs : List α} {ys : List β}
    (h : xs.mapM p = .ok ys) : ys.length = xs.length := by
  induction xs generalizing ys with
  | nil =>
      rw [List.mapM_nil] at h
      cases h
      rfl
  | cons x xs ih =>
      rw [List.mapM_cons] at h
      cases hx : p x with
      | error e =>
          rw [hx] at h
          cases h
      | ok y =>
          cases hxs : xs.mapM p with
          | error e =>
              rw [hx, hxs] at h
              cases h
          | ok rest =>
              rw [hx, hxs] at h
              cases h
              rw [List.length_cons, List.length_cons, ih hxs]

theorem length_hopsFrom {getNode : JsString → Option HopNode}
    {asked : List (Option JsString × JsString)} {index : Nat} {hops : List (StoredHop Nat)}
    (h : hopsFrom getNode index asked = .ok hops) : hops.length = asked.length := by
  induction asked generalizing index hops with
  | nil =>
      cases h
      rfl
  | cons first rest ih =>
      obtain ⟨dir, id⟩ := first
      rw [hopsFrom] at h
      cases hnode : getNode id with
      | none =>
          rw [hnode] at h
          cases h
      | some node =>
          cases hrest : hopsFrom getNode (index + 1) rest with
          | error e =>
              rw [hnode, hrest] at h
              cases h
          | ok others =>
              rw [hnode, hrest] at h
              cases h
              rw [List.length_cons, List.length_cons, ih hrest]

theorem length_startFirst (hops : List (StoredHop Nat)) :
    (startFirst hops).length = hops.length := by
  cases hops <;> rfl

/-- What every accepted request keeps to. -/
structure Accepted (request : SaveTrailRequest) (hops : List (StoredHop Nat)) : Prop where
  name : trim request.name ≠ []
  short : request.name.length ≤ MAX_TRAIL_NAME
  some : hops ≠ []
  few : hops.length ≤ MAX_TRAIL_HOPS

theorem parseSaveRequest_ok {body : Json ν} {request : SaveTrailRequest}
    (h : parseSaveRequest body = .ok request) : trim request.name ≠ [] ∧
      request.name.length ≤ MAX_TRAIL_NAME ∧ request.hops ≠ [] ∧
        request.hops.length ≤ MAX_TRAIL_HOPS := by
  cases body with
  | object entries =>
      simp only [parseSaveRequest] at h
      split at h
      · cases h
      · rename_i hname
        split at h
        · cases h
        · rename_i hshort
          split at h
          · cases h
          · split at h
            · cases h
            · split at h
              · cases h
              · rename_i items hitems hsome
                split at h
                · cases h
                · rename_i hfew
                  cases hmap : items.mapM parseRequestHop with
                  | error e =>
                      rw [hmap] at h
                      cases h
                  | ok hops =>
                      rw [hmap] at h
                      cases h
                      have hlength := length_mapM_except hmap
                      refine ⟨?_, Nat.le_of_not_lt hshort, fun hempty => ?_, ?_⟩
                      · have htrim : trim (Json.textField (Json.object entries) (js "name")) ≠ [] :=
                          fun hempty => hname (by rw [hempty]; rfl)
                        obtain ⟨c, hc, hwhite⟩ := exists_of_trim_ne_nil htrim
                        exact trim_ne_nil (mem_replaceRuns hc hwhite) hwhite
                      · obtain rfl : hops = [] := hempty
                        exact hsome (List.length_eq_zero_iff.mp hlength.symm)
                      · show hops.length ≤ MAX_TRAIL_HOPS
                        omega
  | null => cases h
  | bool value => cases h
  | number value => cases h
  | string value => cases h
  | array items => cases h

theorem accepted_of_requested {getNode : JsString → Option HopNode} {readOnly : Bool}
    {body : Json ν} {request : SaveTrailRequest} {hops : List (StoredHop Nat)}
    (h : requested getNode readOnly body = .ok (request, hops)) : Accepted request hops := by
  unfold requested at h
  split at h
  · cases h
  · cases hparse : parseSaveRequest body with
    | error e =>
        rw [hparse] at h
        cases h
    | ok parsed =>
        cases hfrom : hopsFrom getNode 0 parsed.hops with
        | error e =>
            simp only [hparse, hfrom] at h
            cases h
        | ok found =>
            simp only [hparse, hfrom] at h
            cases h
            obtain ⟨hname, hshort, hsome, hfew⟩ := parseSaveRequest_ok hparse
            have hlength : (startFirst found).length = request.hops.length := by
              rw [length_startFirst, length_hopsFrom hfrom]
            refine ⟨hname, hshort, fun hempty => hsome ?_, by omega⟩
            rw [hempty] at hlength
            exact List.length_eq_zero_iff.mp hlength.symm

/-! ## A save -/

/-- The listing has the trail with the hops that were asked for, every other file is as it was,
and a file that is replaced was a trail of that name. -/
structure SavesTrail (env : TrailEnvironment ν) (dir dir' : Directory)
    (request : SaveTrailRequest) (hops : List (StoredHop Nat)) (id : JsString) : Prop where
  listed : ∃ trail ∈ (listStoredTrails env dir').trails, trail.id = id ∧
    trail.name = request.name ∧ trail.hops = hops.map (·.mapLine env.numbers.ofNat)
  others : ∀ name, name ≠ trailFile id → dir'.lookup name = dir.lookup name
  replaces : ∀ entry, dir.lookup (trailFile id) = some entry →
    ∃ trail, readTrailFile env (some entry) id = some trail ∧ trail.name = request.name

/-- Nothing has the name of the temporary file, what is written is small enough and has no empty
name, and it goes to the listed trail of that name or to a new file that a listing reaches. -/
structure KeepsApart (env : TrailEnvironment ν) (dir : Directory) (request : SaveTrailRequest)
    (hops : List (StoredHop Nat)) (id : JsString) : Prop where
  temp : dir.lookup (tempFile env id) = none
  small : (trailToSave env dir request hops id).bytes.length ≤ MAX_TRAIL_FILE_BYTES
  named : ∀ hop ∈ hops, hop.Named
  place : (sameName env dir request.name).isSome = true ∨
    (dir.lookup (trailFile id) = none ∧ Reached env dir (trailFile id))

section Save

variable {request : SaveTrailRequest} {hops : List (StoredHop Nat)} {id name : JsString}

theorem sameName_eq_some {trail : StoredTrail ν} (h : sameName env dir name = some trail) :
    trail ∈ (listStoredTrails env dir).trails ∧ trail.name = name :=
  ⟨List.mem_of_find?_eq_some h, by simpa using List.find?_some h⟩

theorem id_of_sameName {trail : StoredTrail ν} (h : sameName env dir name = some trail)
    (hid : trailIdFor env dir name = .ok id) : trail.id = id := by
  rw [trailIdFor, h] at hid
  exact Except.ok.inj hid

theorem sameName_isSome {trail : StoredTrail ν} (h : trail ∈ (listStoredTrails env dir).trails)
    (hname : trail.name = name) : (sameName env dir name).isSome = true :=
  List.find?_isSome.mpr ⟨trail, h, decide_eq_true hname⟩

/-- What the file of a saved trail is read as. -/
theorem readTrailFile_saved (haccepted : Accepted request hops) {readable : Bool} :
    (∃ trail, readTrailFile env
        (some (.file (trailToSave env dir request hops id).bytes readable true)) id = some trail ∧
      trail.name = request.name ∧ trail.hops = hops.map (·.mapLine env.numbers.ofNat)) ↔
      (trailToSave env dir request hops id).bytes.length ≤ MAX_TRAIL_FILE_BYTES ∧
        readable = true ∧ ∀ hop ∈ hops, hop.Named := by
  have hparse := @exists_parseTrail_bytes_iff _ env.numbers env.decoder id
    (trailToSave env dir request hops id) haccepted.name haccepted.some haccepted.short
    haccepted.few
  simp only [readTrailFile, Option.ite_none_left_eq_some, not_or, Nat.not_lt,
    Bool.not_eq_false]
  constructor
  · rintro ⟨trail, ⟨⟨hsmall, hreadable⟩, hread⟩, hname, hhops⟩
    exact ⟨hsmall, hreadable, hparse.mp ⟨trail, hread, hname, hhops⟩⟩
  · rintro ⟨hsmall, hreadable, hnamed⟩
    obtain ⟨trail, hread, hname, hhops⟩ := hparse.mpr hnamed
    exact ⟨trail, ⟨⟨hsmall, hreadable⟩, hread⟩, hname, hhops⟩

/-- What an accepted save has written, and under which id. -/
theorem writeStoredTrail_of_saveTrail {getNode : JsString → Option HopNode} {readOnly : Bool}
    {body : Json ν} {saved : Saved} (hrequest : requested getNode readOnly body = .ok (request, hops))
    (h : (saveTrail env getNode readOnly dir body).2 = .ok saved) :
    trailIdFor env dir request.name = .ok saved.id ∧
      (saveTrail env getNode readOnly dir body).1 =
        (writeStoredTrail env dir (trailToSave env dir request hops saved.id)).1 ∧
      (writeStoredTrail env dir (trailToSave env dir request hops saved.id)).2 = .ok () := by
  simp only [saveTrail, hrequest] at h ⊢
  cases hid : trailIdFor env dir request.name with
  | error e =>
      rw [hid] at h
      cases h
  | ok id =>
      simp only [hid] at h ⊢
      cases hwrite : (writeStoredTrail env dir (trailToSave env dir request hops id)).2 with
      | error e =>
          rw [hwrite] at h
          cases h
      | ok done =>
          rw [hwrite] at h
          cases h
          exact ⟨rfl, rfl, hwrite⟩

/-- An accepted save does what it is asked for, and nothing else, exactly when it keeps apart from
every other file. -/
theorem savesTrail_iff_keepsApart (env : TrailEnvironment ν) (getNode : JsString → Option HopNode)
    (readOnly : Bool) (dir : Directory) (body : Json ν) {saved : Saved}
    (hrequest : requested getNode readOnly body = .ok (request, hops))
    (h : (saveTrail env getNode readOnly dir body).2 = .ok saved) :
    SavesTrail env dir (saveTrail env getNode readOnly dir body).1 request hops saved.id ↔
      KeepsApart env dir request hops saved.id := by
  have haccepted := accepted_of_requested hrequest
  obtain ⟨hpicked, hresult, hwrite⟩ := writeStoredTrail_of_saveTrail hrequest h
  rw [hresult]
  obtain ⟨hid, -, hgone, hframe, readable, htarget, hreadable⟩ := writeStoredTrail_ok hwrite
  obtain ⟨id, replaced⟩ := saved
  simp only at hpicked hid hgone hframe htarget hreadable ⊢
  generalize (writeStoredTrail env dir (trailToSave env dir request hops id)).1 = dir'
    at hgone hframe htarget ⊢
  change isTrailId id = true at hid
  change dir'.lookup (tempFile env id) = none at hgone
  change ∀ name, name ≠ trailFile id → name ≠ tempFile env id →
    dir'.lookup name = dir.lookup name at hframe
  change dir'.lookup (trailFile id) =
    some (.file (trailToSave env dir request hops id).bytes readable true) at htarget
  change dir.lookup (tempFile env id) = none → readable = true at hreadable
  -- without an entry of the temporary name, only the file of the trail changes
  have hothers : dir.lookup (tempFile env id) = none →
      ∀ name, name ≠ trailFile id → dir'.lookup name = dir.lookup name := by
    intro htemp name hname
    by_cases hother : name = tempFile env id
    · rw [hother, hgone, htemp]
    · exact hframe name hname hother
  have hreached : dir.lookup (tempFile env id) = none →
      (Reached env dir' (trailFile id) ↔ Reached env dir (trailFile id)) := fun htemp =>
    reached_congr fun other hlt => hothers htemp other fun heq => Std.lt_irrefl (heq ▸ hlt)
  constructor
  · rintro ⟨⟨trail, hlisted, rfl, hname, hhops⟩, hsame, hreplaces⟩
    have htemp : dir.lookup (tempFile env trail.id) = none :=
      (hsame _ (tempFile_ne env trail.id)).symm.trans hgone
    obtain ⟨-, hread, hcount⟩ := mem_listStoredTrails.mp hlisted
    rw [htarget] at hread
    obtain ⟨hsmall, -, hnamed⟩ := (readTrailFile_saved haccepted).mp ⟨trail, hread, hname, hhops⟩
    refine ⟨htemp, hsmall, hnamed, ?_⟩
    cases hentry : dir.lookup (trailFile trail.id) with
    | none => exact .inr ⟨rfl, (hreached htemp).mp hcount⟩
    | some entry =>
        left
        obtain ⟨old, hold, holdname⟩ := hreplaces entry hentry
        have hidold := id_of_readTrailFile hold
        apply sameName_isSome _ holdname
        apply mem_listStoredTrails.mpr
        rw [hidold, hentry]
        exact ⟨hid, hold, (hreached htemp).mp hcount⟩
  · rintro ⟨htemp, hsmall, hnamed, hplace⟩
    obtain ⟨trail, hread, hname, hhops⟩ :=
      (readTrailFile_saved haccepted).mpr ⟨hsmall, hreadable htemp, hnamed⟩
    have hidtrail := id_of_readTrailFile hread
    have hold : ∀ old, sameName env dir request.name = some old →
        readTrailFile env (dir.lookup (trailFile id)) id = some old ∧
          Reached env dir (trailFile id) := by
      intro old hsame
      obtain ⟨-, holdread, holdreached⟩ := mem_listStoredTrails.mp (sameName_eq_some hsame).1
      rw [id_of_sameName hsame hpicked] at holdread holdreached
      exact ⟨holdread, holdreached⟩
    have hcount : Reached env dir (trailFile id) := by
      rcases hplace with hsome | ⟨-, hcount⟩
      · obtain ⟨old, hsame⟩ := Option.isSome_iff_exists.mp hsome
        exact (hold old hsame).2
      · exact hcount
    refine ⟨⟨trail, ?_, hidtrail, hname, hhops⟩, hothers htemp, fun entry hentry => ?_⟩
    · apply mem_listStoredTrails.mpr
      rw [hidtrail, htarget]
      exact ⟨hid, hread, (hreached htemp).mpr hcount⟩
    · rcases hplace with hsome | ⟨hfree, -⟩
      · obtain ⟨old, hsame⟩ := Option.isSome_iff_exists.mp hsome
        refine ⟨old, ?_, (sameName_eq_some hsame).2⟩
        rw [← hentry]
        exact (hold old hsame).1
      · rw [hfree] at hentry
        cases hentry

end Save

/-! ## A file that the listing has skipped -/

def smallNumbers : Numbers Nat where
  ofLiteral raw := (wholeNumbers.ofLiteral raw).getD 0
  ofNat n := n
  isPositive n := 0 < n
  floor n := n
  ofLiteral_decimal n := by
    have hread : wholeNumbers.ofLiteral ((Text.ofNat n).map unit) = some n :=
      wholeNumbers.ofLiteral_toLiteral n
    rw [hread, Option.getD_some]
  isPositive_ofNat _ := rfl
  floor_ofNat _ := rfl

def adasEnvironment : TrailEnvironment Nat where
  numbers := smallNumbers
  decoder := Bytes.strictDecoder
  toLowerCase name := name.map fun c => if unit 'A' ≤ c ∧ c ≤ unit 'Z' then c + 32 else c
  localeLE a b := a ≤ b
  pid := 7
  now := js "2026-01-01T00:00:00.000Z"
  author := js "ada"

def oneNode (id : JsString) : Option HopNode :=
  if id = js "n1" then some ⟨js "n1", js "function", js "main", js "app.main", js "src/a.ts", 3⟩
  else none

/-- A file that was being written by hand. -/
def halfWritten : Directory where
  entries := [(js "my-trail.json", .file [0x7B] true true)]
  names_nodup := List.nodup_singleton _

def myTrail : Json Nat :=
  .object
    [(js "name", .string (js "My trail")),
      (js "hops", .array [.object [(js "id", .string (js "n1"))]])]

def myRequest : SaveTrailRequest := ⟨js "My trail", [], [(none, js "n1")]⟩

def myHops : List (StoredHop Nat) :=
  [⟨.start, js "main", js "app.main", js "function", js "src/a.ts", 3, js "n1"⟩]

theorem requested_myTrail : requested oneNode false myTrail = .ok (myRequest, myHops) := by
  rfl

theorem saved_myTrail : (saveTrail adasEnvironment oneNode false halfWritten myTrail).2 =
    .ok ⟨js "my-trail", false⟩ := by
  decide +kernel

theorem savesTrail_iff_keepsApart_myTrail :
    SavesTrail adasEnvironment halfWritten
        (saveTrail adasEnvironment oneNode false halfWritten myTrail).1 myRequest myHops
        (js "my-trail") ↔
      KeepsApart adasEnvironment halfWritten myRequest myHops (js "my-trail") :=
  savesTrail_iff_keepsApart adasEnvironment oneNode false halfWritten myTrail requested_myTrail
    saved_myTrail

/-- The file is no trail, so that no listed trail has its id; it is replaced. -/
theorem not_savesTrail_myTrail :
    requested oneNode false myTrail = .ok (myRequest, myHops) ∧
      (saveTrail adasEnvironment oneNode false halfWritten myTrail).2 =
        .ok ⟨js "my-trail", false⟩ ∧
      ¬ SavesTrail adasEnvironment halfWritten
        (saveTrail adasEnvironment oneNode false halfWritten myTrail).1 myRequest myHops
        (js "my-trail") := by
  refine ⟨requested_myTrail, saved_myTrail, fun h => ?_⟩
  have hentry : halfWritten.lookup (trailFile (js "my-trail")) = some (.file [0x7B] true true) := by
    decide +kernel
  have hnone : (readTrailFile adasEnvironment (some (.file [0x7B] true true))
      (js "my-trail")).isNone = true := by
    decide +kernel
  obtain ⟨trail, hread, -⟩ := h.replaces _ hentry
  rw [hread] at hnone
  cases hnone

end AfyxGraph.UiServer
