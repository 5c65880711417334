import AfyxGraph.Sync.FsWatch

/-! # No change of a watched tree is lost

A directory that appears gets its watch some time later, and what was written into it before then
is found by the walk. So once the adapter has caught up, the callback knows of every file in scope
what the file system has, as long as no limit was hit, no error passed over and no watched path
made into a directory again.
-/

namespace AfyxGraph.Sync.FsWatch

open AfyxGraph.Core

/-! ## The file system -/

namespace FileSystem

variable {fs fs' : FileSystem} {dir : Path} {name : String} {kind : Change}

/-- Everything is in a directory, and nothing is a file and a directory. -/
structure Sound (fs : FileSystem) : Prop where
  root : [] ∈ fs.dirs
  closed : ∀ n p, n :: p ∈ fs.dirs → p ∈ fs.dirs
  inDir : ∀ n p, fs.content (n :: p) ≠ none → p ∈ fs.dirs
  apart : ∀ p ∈ fs.dirs, fs.content p = none

/-- A change is one of its path, in a directory that is there. -/
structure Changes (fs fs' : FileSystem) (dir : Path) (name : String) (kind : Change) : Prop where
  sound : fs'.Sound
  inside : dir ∈ fs.dirs
  dirs : ∀ p, p ≠ name :: dir → (p ∈ fs'.dirs ↔ p ∈ fs.dirs)
  content : ∀ p, p ≠ name :: dir → fs'.content p = fs.content p
  made : name :: dir ∈ fs'.dirs → name :: dir ∈ fs.dirs ∨ kind = .mkdir
  removed : kind = .rmdir → name :: dir ∉ fs'.dirs

theorem Sound.mkdir (h : fs.Sound) (hdir : dir ∈ fs.dirs)
    (hnew : name :: dir ∉ fs.dirs ∧ fs.content (name :: dir) = none) :
    Changes fs { fs with dirs := fs.dirs ++ [name :: dir] } dir name .mkdir where
  sound :=
    { root := List.mem_append_left _ h.root
      closed := by
        intro n p hmem
        rcases List.mem_append.mp hmem with hold | hlast
        · exact List.mem_append_left _ (h.closed n p hold)
        · obtain ⟨rfl, rfl⟩ := List.cons.inj (List.mem_singleton.mp hlast)
          exact List.mem_append_left _ hdir
      inDir := fun n p hcontent => List.mem_append_left _ (h.inDir n p hcontent)
      apart := by
        intro p hmem
        rcases List.mem_append.mp hmem with hold | hlast
        · exact h.apart p hold
        · rw [List.mem_singleton.mp hlast]
          exact hnew.2 }
  inside := hdir
  dirs p hp := by simp [hp]
  content _ _ := rfl
  made _ := .inr rfl
  removed hkind := by cases hkind

theorem Sound.rmdir (h : fs.Sound) (hdir : dir ∈ fs.dirs)
    (hempty : fs.isEmpty (name :: dir) = true) :
    Changes fs { fs with dirs := fs.dirs.filter (· ≠ name :: dir) } dir name .rmdir where
  sound :=
    { root := by simpa using h.root
      closed := by
        intro n p hmem
        obtain ⟨hmem, -⟩ := List.mem_filter.mp hmem
        refine List.mem_filter.mpr ⟨h.closed n p hmem, ?_⟩
        simp only [isEmpty, Bool.and_eq_true, List.all_eq_true, Bool.or_eq_true,
          decide_eq_true_eq] at hempty ⊢
        exact (hempty.1 _ hmem).resolve_right (List.cons_ne_nil n p)
      inDir := by
        intro n p hcontent
        refine List.mem_filter.mpr ⟨h.inDir n p hcontent, ?_⟩
        simp only [isEmpty, Bool.and_eq_true, List.all_eq_true, decide_eq_true_eq] at hempty ⊢
        obtain ⟨stamp, hstamp⟩ := Option.ne_none_iff_exists'.mp hcontent
        obtain ⟨before, after, hsplit, -⟩ := List.lookup_eq_some_iff.mp hstamp
        have hmem : (n :: p, stamp) ∈ fs.files :=
          hsplit ▸ List.mem_append_right _ List.mem_cons_self
        exact hempty.2 _ hmem
      apart := fun p hmem => h.apart p (List.mem_filter.mp hmem).1 }
  inside := hdir
  dirs p hp := by simp [hp]
  content _ _ := rfl
  made hmem := .inl (List.mem_filter.mp hmem).1
  removed _ hmem := by simp at hmem

theorem Sound.write (h : fs.Sound) (hdir : dir ∈ fs.dirs) (hfile : name :: dir ∉ fs.dirs) :
    Changes fs
      { fs with
        files := (name :: dir, fs.clock) :: removeEntry fs.files (name :: dir)
        clock := fs.clock + 1 } dir name .write := by
  have hcontent : ∀ p, p ≠ name :: dir →
      ((name :: dir, fs.clock) :: removeEntry fs.files (name :: dir)).lookup p =
        fs.content p := by
    intro p hp
    rw [List.lookup_cons, beq_false_of_ne hp]
    exact lookup_removeEntry_ne _ hp
  refine ⟨⟨h.root, h.closed, ?_, ?_⟩, hdir, fun _ _ => Iff.rfl, hcontent, .inl, by simp⟩
  · intro n p hne
    by_cases heq : n :: p = name :: dir
    · rw [(List.cons.inj heq).2]
      exact hdir
    · exact h.inDir n p (hcontent _ heq ▸ hne)
  · intro p hp
    exact (hcontent p fun heq => hfile (heq ▸ hp)).trans (h.apart p hp)

theorem Sound.unlink (h : fs.Sound) (hdir : dir ∈ fs.dirs) :
    Changes fs { fs with files := removeEntry fs.files (name :: dir) } dir name .unlink := by
  have hcontent : ∀ p, (removeEntry fs.files (name :: dir)).lookup p =
      if p = name :: dir then none else fs.content p := by
    intro p
    split_ifs with hp
    · rw [hp]
      exact lookup_removeEntry_self _ _
    · exact lookup_removeEntry_ne _ hp
  refine ⟨⟨h.root, h.closed, ?_, ?_⟩, hdir, fun _ _ => Iff.rfl, ?_, .inl, by simp⟩
  · intro n p hne
    refine h.inDir n p fun hnone => hne ?_
    show List.lookup _ _ = none
    rw [hcontent, hnone, ite_self]
  · intro p hp
    show List.lookup _ _ = none
    rw [hcontent, h.apart p hp, ite_self]
  · exact fun p hp => (hcontent p).trans (if_neg hp)

/-- What a change does: the only spec of the file system that the adapter's proofs use. -/
theorem Sound.change (h : fs.Sound) (hchange : fs.change dir name kind = some fs') :
    Changes fs fs' dir name kind := by
  unfold FileSystem.change at hchange
  simp only [Option.ite_none_right_eq_some] at hchange
  obtain ⟨hdir, hchange⟩ := hchange
  cases kind with
  | mkdir =>
      simp only [Option.ite_none_right_eq_some, Option.some.injEq] at hchange
      obtain ⟨hnew, rfl⟩ := hchange
      exact h.mkdir hdir hnew
  | rmdir =>
      simp only [Option.ite_none_right_eq_some, Option.some.injEq] at hchange
      obtain ⟨⟨-, hempty⟩, rfl⟩ := hchange
      exact h.rmdir hdir hempty
  | write =>
      simp only [Option.ite_none_right_eq_some, Option.some.injEq] at hchange
      obtain ⟨hfile, rfl⟩ := hchange
      exact h.write hdir hfile
  | unlink =>
      simp only [Option.ite_none_right_eq_some, Option.some.injEq] at hchange
      obtain ⟨-, rfl⟩ := hchange
      exact h.unlink hdir

end FileSystem

/-! ## The invariant -/

variable {config : Config} {s t : State}

/-- The adapter runs, no limit was hit, and no directory was passed over or made again. -/
structure Intact (s : State) : Prop where
  stopped : s.stopped = false
  dirCapWarned : s.dirCapWarned = false
  inotifyLimitWarned : s.inotifyLimitWarned = false
  skipped : s.skipped = false
  reused : s.reused = false

theorem Intact.congr (h : Intact s) (hstopped : t.stopped = s.stopped)
    (hcap : t.dirCapWarned = s.dirCapWarned) (hlimit : t.inotifyLimitWarned = s.inotifyLimitWarned)
    (hskipped : t.skipped = s.skipped) (hreused : t.reused = s.reused) : Intact t :=
  ⟨hstopped.trans h.stopped, hcap.trans h.dirCapWarned, hlimit.trans h.inotifyLimitWarned,
    hskipped.trans h.skipped, hreused.trans h.reused⟩

/-- What waits: an event in the kernel's queue, or a call of the walk. -/
inductive Item where
  | event (dir : Path) (name : String)
  | task (task : Task)

def State.todo (s : State) : List Item :=
  s.events.map (fun e => .event e.1 e.2) ++ s.stack.map .task

@[simp] theorem mem_todo_event {s : State} {dir : Path} {name : String} :
    .event dir name ∈ s.todo ↔ (dir, name) ∈ s.events := by
  simp [State.todo]

@[simp] theorem mem_todo_task {s : State} {task : Task} : .task task ∈ s.todo ↔ task ∈ s.stack := by
  simp [State.todo]

namespace Item

/-- A directory that is listed has its watch; once the first walk is over, each one reports. -/
def Sound (s : State) : Item → Prop
  | .event dir _ => dir ∈ s.dirWatchers
  | .task (.watch _ mark) => s.started = true → mark = true
  | .task (.read dir mark) | .task (.visit dir _ mark) =>
      dir ∈ s.dirWatchers ∧ (s.started = true → mark = true)

/-- The adapter comes to the directory `n` of `p` by it. -/
def Leads (n : String) (p : Path) : Item → Prop
  | .event dir name => dir = p ∧ name = n
  | .task (.watch dir _) => dir = n :: p
  | .task (.read dir _) => dir = p
  | .task (.visit dir entry _) => dir = p ∧ entry = ⟨n, true⟩

/-- The callback hears of the file `n` of `p` by it: by the walk only when the file is new. -/
def Finds (s : State) (n : String) (p : Path) : Item → Prop
  | .event dir name => dir = p ∧ name = n
  | .task (.watch ..) => False
  | .task (.read dir mark) =>
      dir = p ∧ mark = true ∧ s.known (n :: p) = none ∧ s.fs.content (n :: p) ≠ none
  | .task (.visit dir entry mark) =>
      dir = p ∧ entry = ⟨n, false⟩ ∧ mark = true ∧
        s.known (n :: p) = none ∧ s.fs.content (n :: p) ≠ none

theorem Sound.mono {item : Item} (h : item.Sound s) (hstarted : t.started = s.started)
    (hwatchers : ∀ p ∈ s.dirWatchers, p ∈ t.dirWatchers) : item.Sound t := by
  cases item with
  | event dir name => exact hwatchers dir h
  | task task =>
      cases task with
      | watch dir mark => exact fun hs => h (hstarted ▸ hs)
      | read dir mark => exact ⟨hwatchers dir h.1, fun hs => h.2 (hstarted ▸ hs)⟩
      | visit dir entry mark => exact ⟨hwatchers dir h.1, fun hs => h.2 (hstarted ▸ hs)⟩

theorem Finds.of_same {item : Item} {n : String} {p : Path} (h : item.Finds s n p)
    (hknown : t.known (n :: p) = s.known (n :: p))
    (hcontent : t.fs.content (n :: p) = s.fs.content (n :: p)) : item.Finds t n p := by
  cases item with
  | event dir name => exact h
  | task task => cases task <;> simpa [Finds, hknown, hcontent] using h

end Item

/-- A directory of a watched one has its watch or something leads to it, and so for the files that
the callback does not know as they are. -/
structure Covered (config : Config) (s : State) : Prop where
  fs : s.fs.Sound
  watches : ∀ p ∈ s.dirWatchers, p ∈ s.fs.dirs → p ∈ s.watches
  watched : ∀ p ∈ s.watches, p ∈ s.dirWatchers
  todo : ∀ item ∈ s.todo, item.Sound s
  root : [] ∈ s.dirWatchers ∨ ∃ mark, .task (.watch [] mark) ∈ s.todo
  dirs : ∀ n p, p ∈ s.dirWatchers → n :: p ∈ s.fs.dirs → config.shouldIgnoreDir (n :: p) = false →
    n :: p ∉ s.dirWatchers → ∃ item ∈ s.todo, item.Leads n p
  unknown : s.started = true → ∀ n p, p ∉ s.dirWatchers → s.known (n :: p) = none
  files : s.started = true → ∀ n p, p ∈ s.dirWatchers → n :: p ∉ s.fs.dirs →
    s.fs.content (n :: p) ≠ s.known (n :: p) → ∃ item ∈ s.todo, item.Finds s n p

theorem covered_init : Covered config {} where
  fs :=
    { root := List.mem_cons_self
      closed := fun n p hmem => by simp at hmem
      inDir := fun n p hcontent => absurd rfl hcontent
      apart := fun _ _ => rfl }
  watches _ hp := absurd hp List.not_mem_nil
  watched _ hp := absurd hp List.not_mem_nil
  todo item hitem := by
    obtain rfl := List.mem_singleton.mp hitem
    intro hstarted
    cases hstarted
  root := .inr ⟨false, List.mem_cons_self⟩
  dirs _ _ hp := absurd hp List.not_mem_nil
  unknown hstarted := by cases hstarted
  files hstarted := by cases hstarted

/-! ## Changes -/

/-- A watched directory reports. -/
theorem Covered.report (h : Covered config s) {dir : Path} {name : String}
    (hdir : dir ∈ s.dirWatchers) :
    Covered config { s with events := s.events ++ [(dir, name)] } := by
  have htodo : ∀ item, item ∈ State.todo { s with events := s.events ++ [(dir, name)] } ↔
      item ∈ s.todo ∨ item = .event dir name := by
    intro item
    simp only [State.todo, List.map_append, List.map_cons, List.map_nil, List.mem_append,
      List.mem_singleton]
    tauto
  refine ⟨h.fs, h.watches, h.watched, ?_, ?_, ?_, h.unknown, ?_⟩
  · intro item hitem
    rcases (htodo item).mp hitem with hold | rfl
    · exact (h.todo item hold).mono rfl fun _ hp => hp
    · exact hdir
  · exact h.root.imp_right (.imp fun _ hmark => (htodo _).mpr (.inl hmark))
  · intro n p hp hmem hignore hun
    obtain ⟨item, hitem, hleads⟩ := h.dirs n p hp hmem hignore hun
    exact ⟨item, (htodo item).mpr (.inl hitem), hleads⟩
  · intro hstarted n p hp hfile hne
    obtain ⟨item, hitem, hfinds⟩ := h.files hstarted n p hp hfile hne
    exact ⟨item, (htodo item).mpr (.inl hitem), hfinds.of_same rfl rfl⟩

theorem Covered.notify (h : Covered config s) (dir : Path) (name : String) :
    Covered config (s.notify dir name) ∧
      (dir ∈ s.watches → (dir, name) ∈ (s.notify dir name).events) := by
  unfold State.notify
  split
  · rename_i hwatch
    exact ⟨h.report (h.watched dir hwatch), fun _ => List.mem_append_right _ List.mem_cons_self⟩
  · exact ⟨h, fun hwatch => absurd hwatch ‹_›⟩

theorem notify_eq (s : State) (dir : Path) (name : String) :
    s.notify dir name = { s with events := (s.notify dir name).events } := by
  unfold State.notify
  split <;> rfl

theorem changed_eq (s : State) (fs : FileSystem) (dir : Path) (name : String)
    (kind : FileSystem.Change) :
    s.changed fs dir name kind = { s with
      fs
      events := (s.notify dir name).events
      watches := if kind = .rmdir then s.watches.filter (· ≠ name :: dir) else s.watches
      reused := s.reused || kind = .mkdir && name :: dir ∈ s.dirWatchers } := by
  unfold State.changed State.notify
  cases kind <;> (dsimp only; split <;> simp)

/-- The event of a change waits before the change is made. -/
theorem Covered.change (h : Covered config s) {dir : Path} {name : String}
    {kind : FileSystem.Change} {fs : FileSystem}
    (hchange : FileSystem.Changes s.fs fs dir name kind)
    (hreused : kind = .mkdir → name :: dir ∉ s.dirWatchers)
    (hevent : dir ∈ s.dirWatchers → (dir, name) ∈ s.events) {reused : Bool} :
    Covered config { s with
      fs
      watches := if kind = .rmdir then s.watches.filter (· ≠ name :: dir) else s.watches
      reused } := by
  refine ⟨hchange.sound, ?_, ?_, ?_, h.root, ?_, h.unknown, ?_⟩
  · intro p hp hdir
    show p ∈ if kind = .rmdir then _ else _
    by_cases heq : p = name :: dir
    · rw [heq] at hp hdir ⊢
      split
      · exact absurd hdir (hchange.removed ‹_›)
      · rcases hchange.made hdir with hold | hmade
        · exact h.watches _ hp hold
        · exact absurd hp (hreused hmade)
    · have hmem := h.watches p hp ((hchange.dirs p heq).mp hdir)
      split
      · exact List.mem_filter.mpr ⟨hmem, by simpa using heq⟩
      · exact hmem
  · intro p hp
    have hp' : p ∈ if kind = .rmdir then s.watches.filter (· ≠ name :: dir) else s.watches := hp
    split at hp'
    · exact h.watched p (List.mem_filter.mp hp').1
    · exact h.watched p hp'
  · exact fun item hitem => (h.todo item hitem).mono rfl fun _ hp => hp
  · intro n p hp hdir hignore hun
    by_cases heq : n :: p = name :: dir
    · obtain ⟨rfl, rfl⟩ := List.cons.inj heq
      exact ⟨.event p n, mem_todo_event.mpr (hevent hp), rfl, rfl⟩
    · exact h.dirs n p hp ((hchange.dirs _ heq).mp hdir) hignore hun
  · intro hstarted n p hp hdir hne
    by_cases heq : n :: p = name :: dir
    · obtain ⟨rfl, rfl⟩ := List.cons.inj heq
      exact ⟨.event p n, mem_todo_event.mpr (hevent hp), rfl, rfl⟩
    · have hcontent := hchange.content _ heq
      have hdir' : n :: p ∉ s.fs.dirs := fun hmem => hdir ((hchange.dirs _ heq).mpr hmem)
      obtain ⟨item, hitem, hfinds⟩ := h.files hstarted n p hp hdir' (hcontent ▸ hne)
      exact ⟨item, hitem, hfinds.of_same rfl hcontent⟩

/-! ## Turns of the adapter -/

/-- One item is taken and others are put in its place. -/
def Turn (s t : State) (x : Item) (ys : List Item) : Prop :=
  ∃ rest : List Item, (∀ item, item ∈ s.todo ↔ item = x ∨ item ∈ rest) ∧
    ∀ item, item ∈ t.todo ↔ item ∈ ys ∨ item ∈ rest

theorem Turn.call {task : Task} {stack : List Task} (new : List Task)
    (hstack : s.stack = task :: stack) (hevents : t.events = s.events)
    (hnew : t.stack = new ++ stack) : Turn s t (.task task) (new.map .task) := by
  refine ⟨s.events.map (fun e => .event e.1 e.2) ++ stack.map .task, fun item => ?_, fun item => ?_⟩
  · simp only [State.todo, hstack, List.map_cons, List.mem_append, List.mem_cons]
    tauto
  · simp only [State.todo, hevents, hnew, List.map_append, List.mem_append]
    tauto

theorem Turn.delivered {dir : Path} {name : String} {events : List (Path × String)}
    (new : List Task) (hevents : s.events = (dir, name) :: events) (hrest : t.events = events)
    (hnew : t.stack = new ++ s.stack) : Turn s t (.event dir name) (new.map .task) := by
  refine ⟨events.map (fun e => .event e.1 e.2) ++ s.stack.map .task, fun item => ?_, fun item => ?_⟩
  · simp only [State.todo, hevents, List.map_cons, List.mem_append, List.mem_cons]
    tauto
  · simp only [State.todo, hrest, hnew, List.map_append, List.mem_append]
    tauto

/-- A turn in which no directory gets or loses its watch: what the item led to, its successors lead
to, or nothing needs to. -/
theorem Covered.turn (h : Covered config s) {x : Item} {ys : List Item} (hturn : Turn s t x ys)
    (hsame : t.fs = s.fs ∧ t.watches = s.watches ∧ t.dirWatchers = s.dirWatchers ∧
      t.started = s.started)
    (hsound : ∀ y ∈ ys, y.Sound s)
    (hroot : ∀ mark, x = .task (.watch [] mark) → [] ∈ s.dirWatchers)
    (hdirs : ∀ n p, n :: p ∈ s.fs.dirs → config.shouldIgnoreDir (n :: p) = false →
      n :: p ∉ s.dirWatchers → x.Leads n p → ∃ y ∈ ys, y.Leads n p)
    (hknown : ∀ n p, t.known (n :: p) = s.known (n :: p) ∨
      p ∈ s.dirWatchers ∧ t.known (n :: p) = s.fs.content (n :: p))
    (hfiles : ∀ n p, n :: p ∉ s.fs.dirs → s.fs.content (n :: p) ≠ t.known (n :: p) →
      x.Finds s n p → ∃ y ∈ ys, y.Finds s n p) : Covered config t := by
  obtain ⟨rest, hbefore, hafter⟩ := hturn
  obtain ⟨hfs, hwatches, hwatchers, hstarted⟩ := hsame
  have hmono : ∀ item : Item, item.Sound s → item.Sound t :=
    fun item hsound => hsound.mono hstarted fun p hp => hwatchers ▸ hp
  refine ⟨hfs ▸ h.fs, ?_, ?_, ?_, ?_, ?_, ?_, ?_⟩
  · rw [hfs, hwatches, hwatchers]
    exact h.watches
  · rw [hwatches, hwatchers]
    exact h.watched
  · intro item hitem
    rcases (hafter item).mp hitem with hnew | hrest
    · exact hmono item (hsound item hnew)
    · exact hmono item (h.todo item ((hbefore item).mpr (.inr hrest)))
  · rw [hwatchers]
    rcases h.root with hwatched | ⟨mark, hmark⟩
    · exact .inl hwatched
    · rcases (hbefore _).mp hmark with heq | hrest
      · exact .inl (hroot mark heq.symm)
      · exact .inr ⟨mark, (hafter _).mpr (.inr hrest)⟩
  · rw [hfs, hwatchers]
    intro n p hp hdir hignore hun
    obtain ⟨item, hitem, hleads⟩ := h.dirs n p hp hdir hignore hun
    rcases (hbefore item).mp hitem with rfl | hrest
    · obtain ⟨y, hy, hleads⟩ := hdirs n p hdir hignore hun hleads
      exact ⟨y, (hafter y).mpr (.inl hy), hleads⟩
    · exact ⟨item, (hafter item).mpr (.inr hrest), hleads⟩
  · rw [hstarted, hwatchers]
    intro hs n p hp
    rcases hknown n p with hsame | ⟨hwatched, -⟩
    · exact hsame.trans (h.unknown hs n p hp)
    · exact absurd hwatched hp
  · rw [hstarted, hfs, hwatchers]
    intro hs n p hp hfile hne
    have hold : t.known (n :: p) = s.known (n :: p) :=
      (hknown n p).resolve_right fun hnow => hne hnow.2.symm
    have hcontent : t.fs.content (n :: p) = s.fs.content (n :: p) := by rw [hfs]
    obtain ⟨item, hitem, hfinds⟩ := h.files hs n p hp hfile (hold ▸ hne)
    rcases (hbefore item).mp hitem with rfl | hrest
    · obtain ⟨y, hy, hfinds⟩ := hfiles n p hfile hne hfinds
      exact ⟨y, (hafter y).mpr (.inl hy), hfinds.of_same hold hcontent⟩
    · exact ⟨item, (hafter item).mpr (.inr hrest), hfinds.of_same hold hcontent⟩

/-- A directory that is watched or gone needs no watch. -/
theorem Covered.dropWatch (h : Covered config s) {dir : Path} {mark : Bool} {stack : List Task}
    (hstack : s.stack = .watch dir mark :: stack)
    (hdone : dir ∈ s.dirWatchers ∨ dir ∉ s.fs.dirs) : Covered config { s with stack } := by
  refine h.turn (.call [] hstack rfl rfl) ⟨rfl, rfl, rfl, rfl⟩
    (fun _ hy => absurd hy List.not_mem_nil) ?_ ?_ (fun _ _ => .inl rfl) ?_
  · intro m heq
    cases heq
    exact hdone.resolve_right fun hgone => hgone h.fs.root
  · intro n p hdir _ hun hleads
    have hleads' : dir = n :: p := hleads
    subst hleads'
    exact (hdone.elim hun fun hgone => hgone hdir).elim
  · exact fun _ _ _ _ hfinds => hfinds.elim

/-- A directory gets its watch, and is read next. -/
theorem Covered.install (h : Covered config s) {dir : Path} {mark : Bool} {stack : List Task}
    (hstack : s.stack = .watch dir mark :: stack) (hnew : dir ∉ s.dirWatchers) :
    Covered config { s with
      watches := s.watches ++ [dir]
      dirWatchers := s.dirWatchers ++ [dir]
      stack := .read dir mark :: stack } := by
  obtain ⟨rest, hbefore, hafter⟩ : Turn s { s with
      watches := s.watches ++ [dir]
      dirWatchers := s.dirWatchers ++ [dir]
      stack := .read dir mark :: stack } (.task (.watch dir mark)) _ :=
    .call [.read dir mark] hstack rfl rfl
  have hmarked : s.started = true → mark = true := h.todo _ ((hbefore _).mpr (.inl rfl))
  refine ⟨h.fs, ?_, ?_, ?_, ?_, ?_, ?_, ?_⟩
  · intro p hp hdir
    rcases List.mem_append.mp hp with hold | hlast
    · exact List.mem_append_left _ (h.watches p hold hdir)
    · exact List.mem_append_right _ hlast
  · intro p hp
    rcases List.mem_append.mp hp with hold | hlast
    · exact List.mem_append_left _ (h.watched p hold)
    · exact List.mem_append_right _ hlast
  · intro item hitem
    rcases (hafter item).mp hitem with hlast | hrest
    · rw [List.mem_singleton.mp hlast]
      exact ⟨List.mem_append_right _ List.mem_cons_self, hmarked⟩
    · have hold := h.todo item ((hbefore item).mpr (.inr hrest))
      exact hold.mono rfl fun p hp => List.mem_append_left _ hp
  · rcases h.root with hroot | ⟨m, hm⟩
    · exact .inl (List.mem_append_left _ hroot)
    · rcases (hbefore _).mp hm with heq | hrest
      · cases heq
        exact .inl (List.mem_append_right _ List.mem_cons_self)
      · exact .inr ⟨m, (hafter _).mpr (.inr hrest)⟩
  · intro n p hp hdir hignore hun
    obtain ⟨hun', hne⟩ := not_or.mp (mt List.mem_append.mpr hun)
    rcases List.mem_append.mp hp with hold | hlast
    · obtain ⟨item, hitem, hleads⟩ := h.dirs n p hold hdir hignore hun'
      rcases (hbefore item).mp hitem with rfl | hrest
      · have hleads' : dir = n :: p := hleads
        exact absurd (List.mem_singleton.mpr hleads'.symm) hne
      · exact ⟨item, (hafter item).mpr (.inr hrest), hleads⟩
    · exact ⟨.task (.read dir mark), (hafter _).mpr (.inl List.mem_cons_self),
        (List.mem_singleton.mp hlast).symm⟩
  · exact fun hs n p hp => h.unknown hs n p fun hold => hp (List.mem_append_left _ hold)
  · intro hs n p hp hdir hne
    rcases List.mem_append.mp hp with hold | hlast
    · obtain ⟨item, hitem, hfinds⟩ := h.files hs n p hold hdir hne
      rcases (hbefore item).mp hitem with rfl | hrest
      · exact hfinds.elim
      · exact ⟨item, (hafter item).mpr (.inr hrest), hfinds.of_same rfl rfl⟩
    · -- The callback knows nothing of a directory without a watch, so its files are new.
      obtain rfl := List.mem_singleton.mp hlast
      have hnone := h.unknown hs n p hnew
      exact ⟨.task (.read p mark), (hafter _).mpr (.inl List.mem_cons_self), rfl, hmarked hs, hnone,
        fun hgone => hne (hgone.trans hnone.symm)⟩

/-- A directory that is gone has nothing to read. -/
theorem Covered.dropRead (h : Covered config s) {dir : Path} {mark : Bool} {stack : List Task}
    (hstack : s.stack = .read dir mark :: stack) (hgone : dir ∉ s.fs.dirs) :
    Covered config { s with stack } := by
  refine h.turn (.call [] hstack rfl rfl) ⟨rfl, rfl, rfl, rfl⟩
    (fun _ hy => absurd hy List.not_mem_nil) (by simp) ?_ (fun _ _ => .inl rfl) ?_
  · intro n p hdir _ _ hleads
    have hleads' : dir = p := hleads
    exact absurd (h.fs.closed n p hdir) (hleads' ▸ hgone)
  · intro n p _ _ hfinds
    obtain ⟨rfl, -, -, hfile⟩ := hfinds
    exact absurd (h.fs.inDir n dir hfile) hgone

theorem lists_dir {dir : Path} {entries : List Entry} {n : String} (h : s.lists dir entries = true)
    (hmem : n :: dir ∈ s.fs.dirs) : ⟨n, true⟩ ∈ entries := by
  simp only [State.lists, Bool.and_eq_true, List.all_eq_true] at h
  simpa using h.1.2 _ hmem

theorem lists_file {dir : Path} {entries : List Entry} {n : String} (h : s.lists dir entries = true)
    (hfile : s.fs.content (n :: dir) ≠ none) : ⟨n, false⟩ ∈ entries := by
  simp only [State.lists, Bool.and_eq_true, List.all_eq_true] at h
  obtain ⟨stamp, hstamp⟩ := Option.ne_none_iff_exists'.mp hfile
  obtain ⟨before, after, hsplit, -⟩ := List.lookup_eq_some_iff.mp hstamp
  have hmem : (n :: dir, stamp) ∈ s.fs.files := hsplit ▸ List.mem_append_right _ List.mem_cons_self
  simpa using h.2 _ hmem

/-- Every entry is looked at. -/
theorem Covered.readdir (h : Covered config s) {dir : Path} {mark : Bool} {stack : List Task}
    {entries : List Entry} (hstack : s.stack = .read dir mark :: stack)
    (hlists : s.lists dir entries = true) :
    Covered config { s with stack := entries.map (.visit dir · mark) ++ stack } := by
  have htaken : .task (.read dir mark) ∈ s.todo :=
    mem_todo_task.mpr (hstack ▸ List.mem_cons_self)
  refine h.turn (.call (entries.map (.visit dir · mark)) hstack rfl rfl) ⟨rfl, rfl, rfl, rfl⟩ ?_
    (by simp) ?_ (fun _ _ => .inl rfl) ?_
  · intro item hitem
    obtain ⟨entry, -, rfl⟩ : ∃ entry ∈ entries, .task (.visit dir entry mark) = item := by
      simpa using hitem
    exact h.todo (.task (.read dir mark)) htaken
  · intro n p hdir _ _ hleads
    have hleads' : dir = p := hleads
    subst hleads'
    refine ⟨.task (.visit dir ⟨n, true⟩ mark), ?_, rfl, rfl⟩
    exact List.mem_map_of_mem (List.mem_map_of_mem (lists_dir hlists hdir))
  · intro n p _ _ hfinds
    obtain ⟨rfl, hmark, hknown, hfile⟩ := hfinds
    refine ⟨.task (.visit dir ⟨n, false⟩ mark), ?_, rfl, rfl, hmark, hknown, hfile⟩
    exact List.mem_map_of_mem (List.mem_map_of_mem (lists_file hlists hfile))

/-- What the callback is told of one path it knows as it is. -/
theorem known_onPathEvent (s : State) (dir : Path) (name : String) (n : String) (p : Path)
    (hwatched : dir ∈ s.dirWatchers) :
    (s.onPathEvent (name :: dir)).known (n :: p) = s.known (n :: p) ∨
      p ∈ s.dirWatchers ∧ (s.onPathEvent (name :: dir)).known (n :: p) = s.fs.content (n :: p) := by
  by_cases heq : n :: p = name :: dir
  · refine .inr ⟨?_, if_pos heq⟩
    rw [(List.cons.inj heq).2]
    exact hwatched
  · exact .inl (if_neg heq)

theorem Covered.visit (h : Covered config s) {dir : Path} {entry : Entry} {mark : Bool}
    {stack : List Task} (hstack : s.stack = .visit dir entry mark :: stack) :
    Covered config (State.visit config { s with stack } dir entry mark) := by
  have htaken : .task (.visit dir entry mark) ∈ s.todo :=
    mem_todo_task.mpr (hstack ▸ List.mem_cons_self)
  obtain ⟨hwatched, hmarked⟩ := h.todo _ htaken
  obtain ⟨name, isDirectory⟩ := entry
  unfold State.visit
  dsimp only
  cases isDirectory with
  | true =>
      by_cases hignore : config.shouldIgnoreDir (name :: dir) = true
      · simp only [if_true, hignore]
        refine h.turn (.call [] hstack rfl rfl) ⟨rfl, rfl, rfl, rfl⟩
          (fun _ hy => absurd hy List.not_mem_nil) (by simp) ?_ (fun _ _ => .inl rfl) ?_
        · intro n p _ hnot _ hleads
          obtain ⟨rfl, hentry⟩ := hleads
          cases hentry
          exact absurd hignore (by simp [hnot])
        · intro n p _ _ hfinds
          obtain ⟨-, hentry, -⟩ := hfinds
          cases hentry
      · simp only [if_true, hignore, Bool.false_eq_true, if_false]
        refine h.turn (.call [.watch (name :: dir) mark] hstack rfl rfl)
          ⟨rfl, rfl, rfl, rfl⟩ ?_ (by simp) ?_ (fun _ _ => .inl rfl) ?_
        · intro y hy
          rw [List.mem_singleton.mp hy]
          exact hmarked
        · intro n p _ _ _ hleads
          obtain ⟨rfl, hentry⟩ := hleads
          cases hentry
          exact ⟨_, List.mem_cons_self, rfl⟩
        · intro n p _ _ hfinds
          obtain ⟨-, hentry, -⟩ := hfinds
          cases hentry
  | false =>
      have hleads : ∀ n p, ¬ Item.Leads n p (.task (.visit dir ⟨name, false⟩ mark)) := by
        intro n p hleads
        obtain ⟨-, hentry⟩ := hleads
        cases hentry
      cases mark with
      | false =>
          simp only [Bool.false_eq_true, if_false]
          refine h.turn (.call [] hstack rfl rfl) ⟨rfl, rfl, rfl, rfl⟩
            (fun _ hy => absurd hy List.not_mem_nil) (by simp)
            (fun n p _ _ _ hway => absurd hway (hleads n p)) (fun _ _ => .inl rfl) ?_
          intro n p _ _ hfinds
          obtain ⟨-, -, hmark, -⟩ := hfinds
          cases hmark
      | true =>
          simp only [Bool.false_eq_true, if_false, if_true]
          refine h.turn (.call [] hstack rfl rfl) ⟨rfl, rfl, rfl, rfl⟩
            (fun _ hy => absurd hy List.not_mem_nil) (by simp)
            (fun n p _ _ _ hway => absurd hway (hleads n p))
            (fun n p => known_onPathEvent { s with stack } dir name n p hwatched) ?_
          intro n p _ hne hfinds
          obtain ⟨rfl, hentry, -⟩ := hfinds
          cases hentry
          exact absurd (if_pos rfl).symm hne

/-! ## Events -/

theorem Covered.deliver (h : Covered config s) (hrun : s.stopped = false) {dir : Path}
    {name : String} {events : List (Path × String)} (hevents : s.events = (dir, name) :: events) :
    Covered config (State.handleDirEvent config { s with events } dir name) := by
  have hwatched : dir ∈ s.dirWatchers :=
    h.todo (.event dir name) (mem_todo_event.mpr (hevents ▸ List.mem_cons_self))
  unfold State.handleDirEvent
  dsimp only
  rw [if_neg (show ¬ s.stopped = true by simp [hrun])]
  by_cases hdir : name :: dir ∈ s.fs.dirs
  · rw [if_pos hdir]
    have hfile : ∀ n p, n :: p ∉ s.fs.dirs → ¬ Item.Finds s n p (.event dir name) := by
      intro n p hno hfinds
      obtain ⟨rfl, rfl⟩ := hfinds
      exact hno hdir
    by_cases hignore : config.shouldIgnoreDir (name :: dir) = true
    · rw [if_pos hignore]
      refine h.turn (.delivered [] hevents rfl rfl) ⟨rfl, rfl, rfl, rfl⟩
        (fun _ hy => absurd hy List.not_mem_nil) (by simp) ?_ (fun _ _ => .inl rfl)
        (fun n p hno _ hfinds => absurd hfinds (hfile n p hno))
      intro n p _ hnot _ hleads
      obtain ⟨rfl, rfl⟩ := hleads
      exact absurd hignore (by simp [hnot])
    · rw [if_neg hignore]
      refine h.turn (.delivered [.watch (name :: dir) true] hevents rfl rfl)
        ⟨rfl, rfl, rfl, rfl⟩ ?_ (by simp) ?_ (fun _ _ => .inl rfl)
        (fun n p hno _ hfinds => absurd hfinds (hfile n p hno))
      · intro y hy
        rw [List.mem_singleton.mp hy]
        exact fun _ => rfl
      · intro n p _ _ _ hleads
        obtain ⟨rfl, rfl⟩ := hleads
        exact ⟨_, List.mem_cons_self, rfl⟩
  · rw [if_neg hdir]
    refine h.turn (.delivered [] hevents rfl rfl) ⟨rfl, rfl, rfl, rfl⟩
      (fun _ hy => absurd hy List.not_mem_nil) (by simp) ?_
      (fun n p => known_onPathEvent { s with events } dir name n p hwatched) ?_
    · intro n p hthere _ _ hleads
      obtain ⟨rfl, rfl⟩ := hleads
      exact absurd hthere hdir
    · intro n p _ hne hfinds
      obtain ⟨rfl, rfl⟩ := hfinds
      exact absurd (if_pos rfl).symm hne

/-- What the first walk found in the directories that it watches is the baseline. -/
theorem Covered.start (h : Covered config s) (hstack : s.stack = []) :
    Covered config { s with
      started := true
      known := fun p => if p.tail ∈ s.dirWatchers then s.fs.content p else none } := by
  refine ⟨h.fs, h.watches, h.watched, ?_, h.root, h.dirs, fun _ n p hp => if_neg hp,
    fun _ n p hp _ hne => absurd (if_pos hp).symm hne⟩
  intro item hitem
  cases item with
  | event d m => exact h.todo (.event d m) hitem
  | task task =>
      have hnil : task ∈ s.stack := mem_todo_task.mp hitem
      rw [hstack] at hnil
      exact absurd hnil List.not_mem_nil

/-! ## Runs -/

/-- A flag that is clear was clear before, as only a stop resets one. -/
theorem intact_watchTree {dir : Path} {mark : Bool} {outcome : Outcome}
    (h : Intact (State.watchTree config s dir mark outcome)) : Intact s := by
  unfold State.watchTree at h
  split at h
  · exact h
  · split at h
    · exact h
    · split at h
      · exact absurd h.dirCapWarned (by simp)
      · cases outcome with
        | installed => exact h.congr rfl rfl rfl rfl rfl
        | exhausted => exact absurd h.stopped (by simp [State.stop])
        | noSpace => exact absurd h.inotifyLimitWarned (by simp)
        | failed =>
            obtain ⟨hstopped, hcap, hlimit, hskipped, hreused⟩ := h
            exact ⟨hstopped, hcap, hlimit, (Bool.or_eq_false_iff.mp hskipped).1, hreused⟩

theorem Covered.watchTree (h : Covered config s) {dir : Path} {mark : Bool} {stack : List Task}
    (hstack : s.stack = .watch dir mark :: stack) {outcome : Outcome}
    (ht : Intact (State.watchTree config { s with stack } dir mark outcome)) :
    Covered config (State.watchTree config { s with stack } dir mark outcome) := by
  have hs := intact_watchTree ht
  unfold State.watchTree at ht ⊢
  rw [if_neg (by simp [show s.stopped = false from hs.stopped,
    show s.inotifyLimitWarned = false from hs.inotifyLimitWarned])] at ht ⊢
  by_cases hwatched : dir ∈ s.dirWatchers
  · rw [if_pos hwatched]
    exact h.dropWatch hstack (.inl hwatched)
  · rw [if_neg hwatched] at ht ⊢
    split at ht
    · exact absurd ht.dirCapWarned (by simp)
    · rw [if_neg ‹_›]
      cases outcome with
      | installed => exact h.install hstack hwatched
      | exhausted => exact absurd ht.stopped (by simp [State.stop])
      | noSpace => exact absurd ht.inotifyLimitWarned (by simp)
      | failed =>
          have hgone : dir ∉ s.fs.dirs := by
            have hskipped := ht.skipped
            simpa using (Bool.or_eq_false_iff.mp hskipped).2
          have hdropped := h.dropWatch hstack (.inr hgone)
          have hsame : (s.skipped || decide (dir ∈ s.fs.dirs)) = s.skipped := by simp [hgone]
          simp only [hsame]
          exact hdropped

theorem covered_step {event : State.Event} (hstep : State.step config s event = some t)
    (ht : Intact t) : Intact s ∧ (Covered config s → Covered config t) := by
  cases event with
  | change dir name kind =>
      obtain ⟨fs, hchange, rfl⟩ := Option.map_eq_some_iff.mp hstep
      rw [changed_eq] at ht
      obtain ⟨hstopped, hcap, hlimit, hskipped, hreused⟩ := ht
      obtain ⟨hold, hnew⟩ := Bool.or_eq_false_iff.mp hreused
      refine ⟨⟨hstopped, hcap, hlimit, hskipped, hold⟩, fun h => ?_⟩
      rw [changed_eq]
      obtain ⟨hnotified, hevent⟩ := h.notify dir name
      rw [notify_eq] at hnotified
      have hinside := (h.fs.change hchange).inside
      exact hnotified.change (h.fs.change hchange) (fun hkind => by simpa [hkind] using hnew)
        fun hdir => hevent (h.watches dir hdir hinside)
  | report dir name =>
      simp only [State.step, Option.ite_none_right_eq_some, Option.some.injEq] at hstep
      obtain ⟨hdir, rfl⟩ := hstep
      exact ⟨ht.congr rfl rfl rfl rfl rfl, fun h => h.report hdir⟩
  | watch outcome =>
      simp only [State.step] at hstep
      split at hstep
      · rename_i dir mark stack hstack
        simp only [Option.ite_none_right_eq_some, Option.some.injEq] at hstep
        obtain ⟨-, rfl⟩ := hstep
        have hs := intact_watchTree ht
        exact ⟨hs.congr rfl rfl rfl rfl rfl, fun h => h.watchTree hstack ht⟩
      · cases hstep
  | read entries =>
      simp only [State.step] at hstep
      split at hstep
      · rename_i dir mark stack hstack
        cases entries with
        | none =>
            simp only [State.readdir, Option.some.injEq] at hstep
            subst hstep
            obtain ⟨hstopped, hcap, hlimit, hskipped, hreused⟩ := ht
            obtain ⟨hold, hnew⟩ := Bool.or_eq_false_iff.mp hskipped
            refine ⟨⟨hstopped, hcap, hlimit, hold, hreused⟩, fun h => ?_⟩
            have hgone : dir ∉ s.fs.dirs := by simpa using hnew
            have hsame : (s.skipped || decide (dir ∈ s.fs.dirs)) = s.skipped := by simp [hgone]
            simp only [hsame]
            exact h.dropRead hstack hgone
        | some entries =>
            simp only [State.readdir, Option.ite_none_right_eq_some, Option.some.injEq] at hstep
            obtain ⟨⟨-, hlists⟩, rfl⟩ := hstep
            exact ⟨ht.congr rfl rfl rfl rfl rfl, fun h => h.readdir hstack hlists⟩
      · cases hstep
  | visit =>
      simp only [State.step] at hstep
      split at hstep
      · rename_i dir entry mark stack hstack
        cases hstep
        refine ⟨?_, fun h => h.visit hstack⟩
        unfold State.visit at ht
        dsimp only at ht
        split at ht
        · split at ht <;>
            exact ht.congr rfl rfl rfl rfl rfl
        · split at ht <;>
            exact ht.congr rfl rfl rfl rfl rfl
      · cases hstep
  | started =>
      simp only [State.step, Option.ite_none_right_eq_some, Option.some.injEq] at hstep
      obtain ⟨⟨hstack, -⟩, rfl⟩ := hstep
      exact ⟨ht.congr rfl rfl rfl rfl rfl, fun h => h.start hstack⟩
  | deliver =>
      simp only [State.step] at hstep
      split at hstep
      · rename_i dir name events hevents
        simp only [Option.ite_none_right_eq_some, Option.some.injEq] at hstep
        obtain ⟨-, rfl⟩ := hstep
        have hs : Intact s := by
          unfold State.handleDirEvent at ht
          dsimp only at ht
          split at ht
          · exact ht.congr rfl rfl rfl rfl rfl
          · split at ht
            · split at ht <;>
                exact ht.congr rfl rfl rfl rfl rfl
            · exact ht.congr rfl rfl rfl rfl rfl
        exact ⟨hs, fun h => h.deliver hs.stopped hevents⟩
      · cases hstep
  | watchError dir outcome =>
      simp only [State.step, Option.ite_none_right_eq_some, Option.some.injEq] at hstep
      obtain ⟨-, rfl⟩ := hstep
      cases outcome with
      | exhausted => exact absurd ht.stopped (by simp [State.onWatchError, State.stop])
      | _ => exact absurd ht.skipped (by simp [State.onWatchError, State.unwatchDir])
  | stop =>
      simp only [State.step, Option.ite_none_right_eq_some, Option.some.injEq] at hstep
      obtain ⟨-, rfl⟩ := hstep
      exact absurd ht.stopped (by simp [State.stop])

theorem covered_of_reaches (h : (State.step config).Reaches {} s) :
    Intact s → Covered config s := by
  refine @Machine.Reaches.invariant _ _ _ (fun s => Intact s → Covered config s)
    (fun u event v hu hstep hv => ?_) _ _ h fun _ => covered_init
  obtain ⟨hintact, hcovered⟩ := covered_step hstep hv
  exact hcovered (hu hintact)

end AfyxGraph.Sync.FsWatch
