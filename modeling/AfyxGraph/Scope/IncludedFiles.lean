import AfyxGraph.Scope.IncludeWalk

/-! # Which included files are found

A walk finds the files that pass its tests below the directories where it starts. These are the
wanted files if every wanted one lies below such a directory, and none of the directories where it
starts is a hidden one.
-/

namespace AfyxGraph.Scope.IncludeProject

open AfyxGraph.Core

variable {p : IncludeProject} {m : IncludeMatchers} {here below path : List Text}
  {l inside : Listing Text} {s : Collected} {text name : Text}

/-! ## Paths of entries -/

theorem relText_append (hhere : here ≠ []) (hbelow : below ≠ []) :
    relText (here ++ below) = relText here ++ '/' :: relText below := by
  rw [relText, Text.join_append hhere hbelow, normalizePath, List.map_append, List.map_cons]
  rfl

theorem relText_ne_nil (hname : name ≠ []) : relText (here ++ [name]) ≠ [] := by
  cases here with
  | nil =>
      rw [List.nil_append, relText, Text.join, normalizePath]
      simpa using hname
  | cons first here =>
      rw [relText_append (List.cons_ne_nil _ _) (List.cons_ne_nil _ _)]
      simp

/-- The file passes the tests that a walk makes of it. -/
def Passes (p : IncludeProject) (m : IncludeMatchers) (path : List Text) : Prop :=
  outside (relText path) = false ∧ p.accepts m (relText path) = true

theorem leaves_of_ignores {rules : Matcher} {rel : Text} (h : rules.ignores rel = true) :
    Matcher.leaves (Matcher.normalized rel) = false := by
  rw [Matcher.ignores] at h
  split at h
  · cases h
  · next hin =>
      rw [Bool.or_eq_true, not_or, Bool.not_eq_true, Bool.not_eq_true] at hin
      exact hin.2

/-- No directory on the way to a file that passes is closed to the walk. -/
theorem Passes.opens (h : p.Passes m (here ++ below)) (hhere : here ≠ []) (hbelow : below ≠ []) :
    m.opens (relText here) = true := by
  have haccepts := h.2
  rw [relText_append hhere hbelow] at haccepts
  simp only [accepts, Bool.and_eq_true, Bool.not_eq_true'] at haccepts
  obtain ⟨⟨⟨hdefaults, hincludes⟩, hexcludes⟩, -⟩ := haccepts
  have hin := leaves_of_ignores hincludes
  have hopen : ∀ rules : Matcher, rules.ignores (relText here ++ '/' :: relText below) = false →
      rules.ignores (relText here ++ ['/']) = false := by
    intro rules hfile
    rw [← Bool.not_eq_true] at hfile ⊢
    exact fun hdir => hfile (rules.ignores_within hdir hin)
  rw [IncludeMatchers.opens, hopen _ hdefaults, IncludeMatchers.excludes]
  rw [IncludeMatchers.excludes] at hexcludes
  cases hexclude : m.exclude with
  | none => rfl
  | some rules =>
      rw [hexclude, Option.any_some] at hexcludes
      rw [Option.any_some, hopen _ hexcludes]
      rfl

theorem Passes.not_outside (h : p.Passes m ((here ++ [name]) ++ below)) (hname : name ≠ [])
    (hbelow : below ≠ []) : outside (relText (here ++ [name])) = false := by
  have hfile := h.1
  rw [relText_append (by simp) hbelow] at hfile
  simp only [outside, Bool.or_eq_false_iff, decide_eq_false_iff_not] at hfile ⊢
  refine ⟨relText_ne_nil hname, ?_⟩
  rw [← Bool.not_eq_true, List.isPrefixOf_iff_prefix] at hfile ⊢
  exact fun hbegins => hfile.2 (hbegins.trans (List.prefix_append _ _))

/-! ## What a walk finds -/

/-- A walk that starts in the directory `here` finds the file. -/
def Found (p : IncludeProject) (m : IncludeMatchers) (here : List Text) (l : Listing Text)
    (text : Text) : Prop :=
  ∃ below, l.HasFile below ∧ (∀ name ∈ below, p.skips name = false) ∧
    p.Passes m (here ++ below) ∧ relText (here ++ below) = text

theorem mem_addFile {rel : Text} : text ∈ (addFile s rel).out ↔ text ∈ s.out ∨ text = rel := by
  unfold addFile
  split
  · next hmem =>
      refine (or_iff_left_of_imp ?_).symm
      rintro rfl
      exact hmem
  · simp

/-- Looking at a file adds it if it passes, and does nothing else. -/
theorem look_file {next : Collected}
    (hnext : (if p.skips name || outside (relText (here ++ [name])) then s
      else if p.accepts m (relText (here ++ [name])) then addFile s (relText (here ++ [name]))
      else s) = next) :
    s.out ⊆ next.out ∧ next.visited = s.visited ∧
      (p.skips name = false → p.Passes m (here ++ [name]) →
        relText (here ++ [name]) ∈ next.out) := by
  have hadd : s.out ⊆ (addFile s (relText (here ++ [name]))).out := fun text htext =>
    mem_addFile.mpr (.inl htext)
  have hvisited : (addFile s (relText (here ++ [name]))).visited = s.visited := by
    unfold addFile
    split
    · rfl
    · rfl
  subst hnext
  refine ⟨?_, ?_, ?_⟩
  · split
    · exact List.Subset.refl _
    · split
      · exact hadd
      · exact List.Subset.refl _
  · split
    · rfl
    · split
      · exact hvisited
      · rfl
  · rintro hskips ⟨hin, haccepts⟩
    rw [hskips, hin, if_neg (by simp), if_pos haccepts]
    exact mem_addFile.mpr (.inr rfl)

theorem found_file_iff {rest : Listing Text} : p.Found m here (.file name rest) text ↔
    (p.skips name = false ∧ p.Passes m (here ++ [name]) ∧ relText (here ++ [name]) = text) ∨
      p.Found m here rest text := by
  constructor
  · rintro ⟨below, rfl | hrest, hskips, hpasses, heq⟩
    · exact .inl ⟨hskips name List.mem_cons_self, hpasses, heq⟩
    · exact .inr ⟨below, hrest, hskips, hpasses, heq⟩
  · rintro (⟨hskips, hpasses, heq⟩ | ⟨below, hrest, hskips, hpasses, heq⟩)
    · exact ⟨[name], .inl rfl, by simpa using hskips, hpasses, heq⟩
    · exact ⟨below, .inr hrest, hskips, hpasses, heq⟩

theorem found_dir_iff {rest : Listing Text} : p.Found m here (.dir name inside rest) text ↔
    (p.skips name = false ∧ p.Found m (here ++ [name]) inside text) ∨
      p.Found m here rest text := by
  constructor
  · rintro ⟨path, ⟨below, rfl, hbelow⟩ | hrest, hskips, hpasses, heq⟩
    · rw [← List.singleton_append, ← List.append_assoc] at hpasses heq
      exact .inl ⟨hskips name List.mem_cons_self, below, hbelow,
        fun other hother => hskips other (List.mem_cons_of_mem _ hother), hpasses, heq⟩
    · exact .inr ⟨path, hrest, hskips, hpasses, heq⟩
  · rintro (⟨hname, below, hbelow, hskips, hpasses, heq⟩ | ⟨path, hrest, hskips, hpasses, heq⟩)
    · rw [List.append_assoc, List.singleton_append] at hpasses heq
      exact ⟨name :: below, .inl ⟨below, rfl, hbelow⟩, List.forall_mem_cons.mpr ⟨hname, hskips⟩,
        hpasses, heq⟩
    · exact ⟨path, .inr hrest, hskips, hpasses, heq⟩

/-- A directory in which something is found is gone into. -/
theorem Found.opens (h : p.Found m (here ++ [name]) inside text) (hname : name ≠ []) :
    outside (relText (here ++ [name])) = false ∧ m.opens (relText (here ++ [name])) = true := by
  obtain ⟨below, hbelow, -, hpasses, -⟩ := h
  have hne : below ≠ [] := by
    rintro rfl
    exact inside.not_hasFile_nil hbelow
  exact ⟨hpasses.not_outside hname hne, hpasses.opens (by simp) hne⟩

/-- Nothing is found but what is there. -/
theorem mem_walkEntries (h : text ∈ (p.walkEntries m here l s).out) :
    text ∈ s.out ∨ p.Found m here l text := by
  induction l generalizing here s with
  | nil => exact .inl h
  | file name rest ih =>
      rw [found_file_iff]
      rcases ih h with hout | hrest
      · split at hout
        · exact .inl hout
        · next hlook =>
            simp only [Bool.or_eq_true, not_or, Bool.not_eq_true] at hlook
            split at hout
            · next haccepts =>
                rcases mem_addFile.mp hout with hout | rfl
                · exact .inl hout
                · exact .inr (.inl ⟨hlook.1, ⟨hlook.2, haccepts⟩, rfl⟩)
            · exact .inl hout
      · exact .inr (.inr hrest)
  | dir name inside rest ihInside ih =>
      rw [found_dir_iff]
      rcases ih h with hout | hrest
      · split at hout
        · exact .inl hout
        · next hlook =>
            simp only [Bool.or_eq_true, not_or, Bool.not_eq_true] at hlook
            split at hout
            · split at hout
              · exact .inl hout
              · exact (ihInside hout).imp_right fun hfound => .inl ⟨hlook.1, hfound⟩
            · exact .inl hout
      · exact .inr (.inr hrest)

theorem walkEntries_subset (p : IncludeProject) (m : IncludeMatchers) (here : List Text)
    (l : Listing Text) (s : Collected) : s.out ⊆ (p.walkEntries m here l s).out := by
  induction l generalizing here s with
  | nil => exact fun _ h => h
  | file name rest ih => exact List.Subset.trans (look_file rfl).1 (ih _ _)
  | dir name inside rest ihInside ih =>
      refine fun text htext => ih _ _ ?_
      split
      · exact htext
      · split
        · split
          · exact htext
          · exact ihInside _ _ htext
        · exact htext

/-! ## Everything that can be found -/

/-- All that is to be found below the directory has been found. -/
def Complete (p : IncludeProject) (m : IncludeMatchers) (s : Collected) (here : List Text) : Prop :=
  ∀ inside, p.tree.openDir here = some inside → ∀ text, p.Found m here inside text → text ∈ s.out

theorem complete_of_found (hopen : p.tree.openDir here = some inside)
    (h : ∀ text, p.Found m here inside text → text ∈ s.out) : p.Complete m s here := by
  intro own hown text hfound
  rw [hopen] at hown
  obtain rfl := Option.some.inj hown
  exact h text hfound

/-- Every directory that was visited is complete, or still being walked. -/
def Settled (p : IncludeProject) (m : IncludeMatchers) (s : Collected)
    (walking : List (List Text)) : Prop := ∀ dir ∈ s.visited, dir ∈ walking ∨ p.Complete m s dir

theorem Complete.mono {s' : Collected} (h : p.Complete m s here) (hsub : s.out ⊆ s'.out) :
    p.Complete m s' here := fun inside hinside text htext => hsub (h inside hinside text htext)

theorem Settled.addOut {s' : Collected} {walking : List (List Text)} (h : p.Settled m s walking)
    (hvisited : s'.visited = s.visited) (hsub : s.out ⊆ s'.out) : p.Settled m s' walking := by
  intro dir hdir
  rw [hvisited] at hdir
  exact (h dir hdir).imp_right fun hcomplete => hcomplete.mono hsub

theorem Settled.enter {walking : List (List Text)} (h : p.Settled m s walking)
    (here : List Text) :
    p.Settled m { s with visited := s.visited ++ [here] } (here :: walking) := by
  intro dir hdir
  rcases List.mem_append.mp hdir with hdir | hdir
  · exact (h dir hdir).imp (List.mem_cons_of_mem _) id
  · exact .inl (List.mem_singleton.mp hdir ▸ List.mem_cons_self)

theorem Settled.leave {walking : List (List Text)} (h : p.Settled m s (here :: walking))
    (hcomplete : p.Complete m s here) : p.Settled m s walking := by
  intro dir hdir
  rcases h dir hdir with hwalking | hdone
  · rcases List.mem_cons.mp hwalking with rfl | hwalking
    · exact .inr hcomplete
    · exact .inl hwalking
  · exact .inr hdone

/-- The entries are those of the directory at the path, or some of them. -/
def EntriesOf (p : IncludeProject) (here : List Text) (l : Listing Text) : Prop :=
  ∀ name inside, l.subdirectory name = some inside →
    p.tree.openDir (here ++ [name]) = some inside

theorem entriesOf_openDir (h : p.tree.openDir here = some l) : p.EntriesOf here l := by
  intro name inside hinside
  rw [Listing.openDir_append_one h, hinside]

/-- Looking at a directory finds what is below it, if the walk of it does: it is left out only
when it is closed, or was visited and is complete. -/
theorem look_dir {walking : List (List Text)} {next : Collected}
    (hnext : (if p.skips name || outside (relText (here ++ [name])) then s
      else if m.opens (relText (here ++ [name])) then
        if here ++ [name] ∈ s.visited then s
        else p.walkEntries m (here ++ [name]) inside
          { s with visited := s.visited ++ [here ++ [name]] }
      else s) = next)
    (hsettled : p.Settled m s walking) (hwalking : ∀ dir ∈ walking, dir.length ≤ here.length)
    (hopen : p.tree.openDir (here ++ [name]) = some inside) (hname : name ≠ [])
    (hwalk : ∀ {s'}, p.Settled m s' ((here ++ [name]) :: walking) →
      p.Settled m (p.walkEntries m (here ++ [name]) inside s') ((here ++ [name]) :: walking) ∧
        ∀ text, p.Found m (here ++ [name]) inside text →
          text ∈ (p.walkEntries m (here ++ [name]) inside s').out) :
    p.Settled m next walking ∧ (p.skips name = false →
      ∀ text, p.Found m (here ++ [name]) inside text → text ∈ next.out) := by
  have hopens := fun text (h : p.Found m (here ++ [name]) inside text) => h.opens hname
  by_cases hlook : (p.skips name || outside (relText (here ++ [name]))) = true
  · rw [if_pos hlook] at hnext
    subst hnext
    refine ⟨hsettled, fun hskips text hfound => ?_⟩
    rw [hskips, (hopens text hfound).1] at hlook
    cases hlook
  · rw [if_neg hlook] at hnext
    by_cases hinto : m.opens (relText (here ++ [name])) = true
    · rw [if_pos hinto] at hnext
      by_cases hvisited : here ++ [name] ∈ s.visited
      · rw [if_pos hvisited] at hnext
        subst hnext
        refine ⟨hsettled, fun _ text hfound => ?_⟩
        rcases hsettled _ hvisited with hwalked | hcomplete
        · have hlength := hwalking _ hwalked
          rw [List.length_append, List.length_singleton] at hlength
          omega
        · exact hcomplete inside hopen text hfound
      · rw [if_neg hvisited] at hnext
        subst hnext
        obtain ⟨hset, hall⟩ := hwalk (hsettled.enter (here ++ [name]))
        exact ⟨hset.leave (complete_of_found hopen hall), fun _ => hall⟩
    · rw [if_neg hinto] at hnext
      subst hnext
      exact ⟨hsettled, fun _ text hfound => absurd (hopens text hfound).2 hinto⟩

/-- A walk finds everything below the directory, whatever was walked before: of the directories
that are being walked none is below it. -/
theorem walkEntries_complete {walking : List (List Text)} (hsettled : p.Settled m s walking)
    (hwalking : ∀ dir ∈ walking, dir.length ≤ here.length) (hentries : p.EntriesOf here l)
    (hdistinct : l.Distinct) (hnamed : l.Named IsEntryName) :
    p.Settled m (p.walkEntries m here l s) walking ∧
      ∀ text, p.Found m here l text → text ∈ (p.walkEntries m here l s).out := by
  induction l generalizing here s walking with
  | nil =>
      refine ⟨hsettled, fun text hfound => ?_⟩
      obtain ⟨below, hbelow, -⟩ := hfound
      exact hbelow.elim
  | file name rest ih =>
      have hrest : p.EntriesOf here rest := fun other inside h => hentries other inside h
      rw [walkEntries]
      generalize hnext : (if p.skips name || outside (relText (here ++ [name])) then s
        else if p.accepts m (relText (here ++ [name])) then addFile s (relText (here ++ [name]))
        else s) = next
      obtain ⟨hsub, hvisited, hfile⟩ := look_file hnext
      obtain ⟨hset, hall⟩ := ih (hsettled.addOut hvisited hsub) hwalking hrest hdistinct.2 hnamed.2
      refine ⟨hset, fun text hfound => ?_⟩
      rcases found_file_iff.mp hfound with ⟨hskips, hpasses, rfl⟩ | hfound
      · exact walkEntries_subset _ _ _ _ _ (hfile hskips hpasses)
      · exact hall text hfound
  | dir name inside rest ihInside ih =>
      have hopen : p.tree.openDir (here ++ [name]) = some inside :=
        hentries name inside (by rw [Listing.subdirectory, if_pos rfl])
      have hrest : p.EntriesOf here rest := by
        intro other own hown
        refine hentries other own ?_
        rw [Listing.subdirectory, if_neg]
        · exact hown
        · rintro rfl
          exact hdistinct.1 (Listing.mem_names_of_subdirectory hown)
      rw [walkEntries]
      generalize hnext : (if p.skips name || outside (relText (here ++ [name])) then s
        else if m.opens (relText (here ++ [name])) then
          if here ++ [name] ∈ s.visited then s
          else p.walkEntries m (here ++ [name]) inside
            { s with visited := s.visited ++ [here ++ [name]] }
        else s) = next
      have hstep := look_dir hnext hsettled hwalking hopen hnamed.1.1 fun hentered =>
        ihInside hentered
          (by
            intro dir hdir
            rcases List.mem_cons.mp hdir with rfl | hdir
            · exact Nat.le_refl _
            · have hlength := hwalking dir hdir
              rw [List.length_append]
              omega)
          (entriesOf_openDir hopen) hdistinct.2.1 hnamed.2.1
      obtain ⟨hset, hall⟩ := ih hstep.1 hwalking hrest hdistinct.2.2 hnamed.2.2
      refine ⟨hset, fun text hfound => ?_⟩
      rcases found_dir_iff.mp hfound with ⟨hskips, hfound⟩ | hfound
      · exact walkEntries_subset _ _ _ _ _ (hstep.2 hskips text hfound)
      · exact hall text hfound

/-! ## All roots -/

/-- A walk from one of the roots comes to the file. -/
def Reached (p : IncludeProject) (path : List Text) : Prop :=
  p.tree.HasFile path ∧ outside (relText path) = false ∧
    ∃ root ∈ includeStaticRoots p.includePatterns, ∃ here below, p.resolveRoot root = some here ∧
      path = here ++ below ∧ below ≠ [] ∧ ∀ name ∈ below, p.skips name = false

theorem mem_walkRoot {root : Text} (h : text ∈ (p.walkRoot m s root).out) :
    text ∈ s.out ∨ ∃ here inside, p.resolveRoot root = some here ∧
      p.tree.openDir here = some inside ∧ p.Found m here inside text := by
  unfold walkRoot at h
  split at h
  · exact .inl h
  · next here hroot =>
      split at h
      · exact .inl h
      · next inside hopen =>
          split at h
          · exact .inl h
          · exact (mem_walkEntries h).imp_right fun hfound => ⟨here, inside, hroot, hopen, hfound⟩

theorem walkRoot_subset (p : IncludeProject) (m : IncludeMatchers) (s : Collected) (root : Text) :
    s.out ⊆ (p.walkRoot m s root).out := by
  unfold walkRoot
  split
  · exact fun _ h => h
  · split
    · exact fun _ h => h
    · split
      · exact fun _ h => h
      · exact fun text htext => walkEntries_subset p m _ _ _ (by exact htext)

theorem walkRoot_complete (root : Text) (hsettled : p.Settled m s []) :
    p.Settled m (p.walkRoot m s root) [] ∧ ∀ here, p.resolveRoot root = some here →
      p.Complete m (p.walkRoot m s root) here := by
  cases hroot : p.resolveRoot root with
  | none =>
      rw [walkRoot, hroot]
      exact ⟨hsettled, fun here h => nomatch h⟩
  | some here =>
      cases hopen : p.tree.openDir here with
      | none =>
          rw [walkRoot, hroot]
          simp only [hopen]
          refine ⟨hsettled, fun other hother inside hinside => ?_⟩
          rw [← Option.some.inj hother, hopen] at hinside
          cases hinside
      | some inside =>
          by_cases hvisited : here ∈ s.visited
          · rw [walkRoot, hroot]
            simp only [hopen, if_pos hvisited]
            refine ⟨hsettled, fun other hother => ?_⟩
            rw [← Option.some.inj hother]
            exact (hsettled here hvisited).resolve_left List.not_mem_nil
          · rw [walkRoot, hroot]
            simp only [hopen, if_neg hvisited]
            obtain ⟨hset, hall⟩ := walkEntries_complete (hsettled.enter here)
              (fun dir hdir => Nat.le_of_eq (congrArg _ (List.mem_singleton.mp hdir)))
              (entriesOf_openDir hopen) (Listing.distinct_openDir p.distinct hopen)
              (Listing.named_openDir p.named hopen)
            have hcomplete := complete_of_found hopen hall
            refine ⟨hset.leave hcomplete, fun other hother => ?_⟩
            rwa [← Option.some.inj hother]

theorem foldl_walkRoot (roots : List Text) (hsettled : p.Settled m s []) :
    text ∈ (roots.foldl (p.walkRoot m) s).out ↔ text ∈ s.out ∨ ∃ root ∈ roots, ∃ here inside,
      p.resolveRoot root = some here ∧ p.tree.openDir here = some inside ∧
        p.Found m here inside text := by
  induction roots generalizing s with
  | nil => simp
  | cons root roots ih =>
      obtain ⟨hset, hcomplete⟩ := walkRoot_complete root hsettled
      rw [List.foldl_cons, ih hset]
      constructor
      · rintro (hout | ⟨other, hother, hfound⟩)
        · exact (mem_walkRoot hout).imp_right fun hfound => ⟨root, List.mem_cons_self, hfound⟩
        · exact .inr ⟨other, List.mem_cons_of_mem _ hother, hfound⟩
      · rintro (hout | ⟨other, hother, here, inside, hroot, hopen, hfound⟩)
        · exact .inl (walkRoot_subset _ _ _ _ hout)
        · rcases List.mem_cons.mp hother with rfl | hother
          · exact .inl (hcomplete here hroot inside hopen text hfound)
          · exact .inr ⟨other, hother, here, inside, hroot, hopen, hfound⟩

/-- The files that are collected are those that are reached and accepted. -/
theorem mem_collectIncludedFiles (p : IncludeProject) (m : IncludeMatchers) (text : Text) :
    text ∈ p.collectIncludedFiles m (includeStaticRoots p.includePatterns) ↔
      ∃ path, p.Reached path ∧ p.accepts m (relText path) = true ∧ relText path = text := by
  rw [collectIncludedFiles, foldl_walkRoot _ fun dir hdir => absurd hdir List.not_mem_nil]
  constructor
  · rintro (hnone | ⟨root, hroot, here, inside, hresolve, hopen, hfound⟩)
    · cases hnone
    · obtain ⟨below, hbelow, hskips, hpasses, heq⟩ := hfound
      have hne : below ≠ [] := by
        rintro rfl
        exact inside.not_hasFile_nil hbelow
      exact ⟨here ++ below, ⟨(Listing.hasFile_append_iff p.distinct hopen).mpr hbelow, hpasses.1,
        root, hroot, here, below, hresolve, rfl, hne, hskips⟩, hpasses.2, heq⟩
  · rintro ⟨path, ⟨hfile, hin, root, hroot, here, below, hresolve, rfl, hne, hskips⟩, haccepts, heq⟩
    obtain ⟨inside, hopen⟩ := Listing.exists_openDir p.distinct hfile hne
    exact .inr ⟨root, hroot, here, inside, hresolve, hopen, below,
      (Listing.hasFile_append_iff p.distinct hopen).mp hfile, hskips, ⟨hin, haccepts⟩, heq⟩

end AfyxGraph.Scope.IncludeProject
