import AfyxGraph.Runtime.Json

/-! # Absolute paths

An absolute path is a list of names. `path.resolve` goes through its arguments as `cd` would, and
`path.relative` leads up to the last directory two paths share and down again.
-/

namespace AfyxGraph.Runtime.PosixPath

def slash : CodeUnit := unit '/'

def here : JsString := [unit '.']

def up : JsString := [unit '.', unit '.']

/-- A name that stands for itself in a path. -/
def IsName (s : JsString) : Prop := s ≠ [] ∧ s ≠ here ∧ s ≠ up

/-- The names from the root on. -/
structure AbsolutePath where
  names : List JsString
  proper : ∀ s ∈ names, IsName s

namespace AbsolutePath

def root : AbsolutePath := ⟨[], fun _ h => absurd h List.not_mem_nil⟩

/-- One step of a path. -/
def step (p : AbsolutePath) (s : JsString) : AbsolutePath :=
  if h : s = [] ∨ s = here then p
  else if hup : s = up then ⟨p.names.dropLast, fun t ht => p.proper t (List.dropLast_subset _ ht)⟩
  else
    ⟨p.names ++ [s], fun t ht => by
      rcases List.mem_append.mp ht with ht | ht
      · exact p.proper t ht
      · obtain rfl := List.mem_singleton.mp ht
        exact ⟨fun hs => h (.inl hs), fun hs => h (.inr hs), hup⟩⟩

/-- The directory a path leads to; a path that begins with a slash begins at the root. -/
def cd (p : AbsolutePath) (path : JsString) : AbsolutePath :=
  (path.splitOn slash).foldl step (if path.head? = some slash then root else p)

/-- `path.resolve(...)` in a working directory. -/
def resolve (cwd : AbsolutePath) (paths : List JsString) : AbsolutePath := paths.foldl cd cwd

/-- How many names two paths share. -/
def shared : List JsString → List JsString → Nat
  | s :: ss, t :: ts => if s = t then shared ss ts + 1 else 0
  | _, _ => 0

/-- The names of `path.relative`. -/
def relativeNames (start target : AbsolutePath) : List JsString :=
  let common := shared start.names target.names
  List.replicate (start.names.length - common) up ++ target.names.drop common

/-- `path.relative(start, target)` -/
def relative (start target : AbsolutePath) : JsString :=
  [slash].intercalate (relativeNames start target)

/-- The path is the directory or below it. -/
def Within (dir path : AbsolutePath) : Prop := dir.names <+: path.names

instance (dir path : AbsolutePath) : Decidable (Within dir path) :=
  inferInstanceAs (Decidable (_ <+: _))

/-! ## What is below a directory -/

theorem shared_append (ss ts : List JsString) : shared ss (ss ++ ts) = ss.length := by
  induction ss with
  | nil => cases ts <;> rfl
  | cons s ss ih => rw [List.cons_append, shared, if_pos rfl, ih, List.length_cons]

theorem shared_le_left (ss ts : List JsString) : shared ss ts ≤ ss.length := by
  induction ss generalizing ts with
  | nil => exact Nat.zero_le _
  | cons s ss ih =>
      cases ts with
      | nil => exact Nat.zero_le _
      | cons t ts =>
          rw [shared]
          split
          · exact Nat.succ_le_succ (ih ts)
          · exact Nat.zero_le _

theorem isPrefix_of_shared {ss ts : List JsString} (h : shared ss ts = ss.length) : ss <+: ts := by
  induction ss generalizing ts with
  | nil => exact List.nil_prefix
  | cons s ss ih =>
      cases ts with
      | nil => cases h
      | cons t ts =>
          rw [shared] at h
          split at h
          next heq =>
            rw [heq]
            exact (List.prefix_append_right_inj [t]).mpr (ih (Nat.succ.inj h))
          next => cases h

variable {dir path : AbsolutePath}

theorem relativeNames_within (h : Within dir path) :
    relativeNames dir path = path.names.drop dir.names.length := by
  obtain ⟨rest, hrest⟩ := h
  have hshared : shared dir.names path.names = dir.names.length := by
    rw [← hrest, shared_append]
  rw [relativeNames]
  simp only [hshared, Nat.sub_self, List.replicate_zero, List.nil_append]

/-- Out of the directory the way begins upwards. -/
theorem relativeNames_outside (h : ¬ Within dir path) :
    ∃ rest, relativeNames dir path = up :: rest := by
  have hlt : shared dir.names path.names < dir.names.length :=
    Nat.lt_of_le_of_ne (shared_le_left ..) fun heq => h (isPrefix_of_shared heq)
  obtain ⟨k, hk⟩ : ∃ k, dir.names.length - shared dir.names path.names = k + 1 :=
    ⟨_, (Nat.sub_add_cancel (Nat.sub_pos_of_lt hlt)).symm⟩
  exact ⟨_, by rw [relativeNames, hk]; rfl⟩

/-- The first name begins with two dots, as a step up does. -/
def Dotted (names : List JsString) : Prop := ∃ s ∈ names.head?, up <+: s

instance (names : List JsString) : Decidable (Dotted names) :=
  match names with
  | [] => isFalse fun ⟨_, h, _⟩ => by cases h
  | s :: _ => decidable_of_iff (up <+: s) ⟨fun h => ⟨s, rfl, h⟩, fun ⟨_, h, hup⟩ => by
      cases h
      exact hup⟩

theorem up_isPrefix_intercalate {names : List JsString} (h : ∀ s ∈ names.head?, s ≠ [] ∧ s ≠ here) :
    up <+: [slash].intercalate names ↔ Dotted names := by
  cases names with
  | nil =>
      constructor
      · intro hup
        simp [up, List.intercalate] at hup
      · rintro ⟨_, h, _⟩
        cases h
  | cons s rest =>
      obtain ⟨hne, hhere⟩ := h s rfl
      have hhead : ∃ after, [slash].intercalate (s :: rest) = s ++ after := by
        cases rest with
        | nil => exact ⟨[], by simp [List.intercalate]⟩
        | cons t rest => exact ⟨_, by simp only [List.intercalate, List.intersperse]; rfl⟩
      obtain ⟨after, hafter⟩ := hhead
      rw [hafter]
      constructor
      · intro hup
        refine ⟨s, rfl, ?_⟩
        match s, hne, hhere with
        | [c], _, hhere =>
            obtain rfl : unit '.' = c := (List.cons_prefix_cons.mp hup).1
            exact absurd rfl hhere
        | c :: d :: s, _, _ =>
            obtain ⟨hc, hup⟩ := List.cons_prefix_cons.mp hup
            obtain ⟨hd, -⟩ := List.cons_prefix_cons.mp hup
            exact ⟨s, by rw [← hc, ← hd]; rfl⟩
      · rintro ⟨_, hs, hup⟩
        cases hs
        exact hup.trans (List.prefix_append ..)

/-- The way begins with two dots: it leads out, or into a directory with such a name. -/
theorem up_isPrefix_relative :
    up <+: relative dir path ↔ ¬ Within dir path ∨ Dotted (path.names.drop dir.names.length) := by
  by_cases h : Within dir path
  · have hproper : ∀ s ∈ (path.names.drop dir.names.length).head?, s ≠ [] ∧ s ≠ here := by
      intro s hs
      have hmem := List.mem_of_mem_drop (List.mem_of_head? hs)
      exact ⟨(path.proper s hmem).1, (path.proper s hmem).2.1⟩
    rw [relative, relativeNames_within h, up_isPrefix_intercalate hproper]
    exact ⟨.inr, fun hdotted => hdotted.resolve_left fun hnot => hnot h⟩
  · obtain ⟨rest, hrest⟩ := relativeNames_outside h
    rw [relative, hrest, up_isPrefix_intercalate]
    · exact ⟨fun _ => .inl h, fun _ => ⟨up, rfl, List.prefix_rfl⟩⟩
    · intro s hs
      cases hs
      exact ⟨by decide, by decide⟩

end AbsolutePath

end AfyxGraph.Runtime.PosixPath
