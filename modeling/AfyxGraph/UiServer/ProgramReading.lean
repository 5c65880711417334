import AfyxGraph.UiServer.ProgramPlaces
import Mathlib.Data.List.Sort
import Mathlib.Logic.Relation

/-! # A program reads each function once

The reading of a program opens the functions that its sites lead to, each at the first call it
comes to. What it draws is what the sites of the functions it opened write, each step once and
under the conditions and loops of its site; and it has opened all that can be reached unless it
says that it stopped.
-/

namespace AfyxGraph.UiServer.Program

open AfyxGraph.Runtime AfyxGraph.Graph.Guards
open AfyxGraph.UiServer.SourceOrder (Span)

variable {ν : Type}

/-! ## What the sites write -/

def ProgramSite.scopes (site : ProgramSite) : List Scope :=
  site.guards.map .guard ++ site.loops.map .loop

/-- What a site draws itself: a site of a helper draws what the helper does. -/
def ProgramSite.drawnAt (site : ProgramSite) (path : List Label) : List Drawn :=
  match present "" site.into with
  | some _ => []
  | none =>
      ((present "" site.step).map fun step =>
        (⟨path, step, present "" site.link, present [] site.within⟩ : Drawn)).toList

namespace ProgramInput

variable (input : ProgramInput ν)

/-- The function that a site leads to: the helper that is called, or what its step does. -/
def linkOf (site : ProgramSite) : Option String :=
  match present "" site.into with
  | some into => some into
  | none => (present "" site.step).bind input.stepInto

def Links (fn g : String) : Prop := ∃ site ∈ input.sitesOf fn, input.linkOf site = some g

/-- The functions that calls lead to. -/
def Reaches : String → String → Prop := Relation.ReflTransGen input.Links

/-- The steps of one function, each under the arms and loops of its site. -/
def stepsOf (engine : Engine) (fn : String) : List Drawn :=
  (input.sitesOf fn).flatMap fun site => site.drawnAt ((engine.scopesOf site).map Scope.label)

/-- Every scope of one function. -/
def scopes (fn : String) : List Scope := (input.sitesOf fn).flatMap ProgramSite.scopes

end ProgramInput

namespace WireProgram

/-- The steps of a program; no program is an empty one. -/
def steps : Option (WireProgram ν) → List Drawn
  | none => []
  | some program => drawnBlock [] program.root

def cuts : Option (WireProgram ν) → Nat
  | none => 0
  | some program => program.truncated

end WireProgram

theorem Engine.mem_scopesOf (engine : Engine) {site : ProgramSite} {scope : Scope}
    (h : scope ∈ engine.scopesOf site) : scope ∈ site.scopes := by
  unfold Engine.scopesOf at h
  split at h
  · exact List.mem_append_left _ h
  · exact (engine.sort_perm _ _).mem_iff.mp h

/-! ## What a reading has opened -/

variable (input : ProgramInput ν) (engine : Engine)

/-- From one reading to a later one `more` was opened, all of it reached from `start`, and if
nothing was cut off then what was opened leads only to what was read. -/
structure Opens (start : String) (r r' : Reading) (more : List String) : Prop where
  read : r'.read = r.read ++ more
  nodup : r.read.Nodup → r'.read.Nodup
  reach : ∀ fn ∈ more, input.Reaches start fn
  truncated : r.truncated ≤ r'.truncated
  closed : r'.truncated = 0 → ∀ fn ∈ more, ∀ g, input.Links fn g → g ∈ r'.read

variable {input engine}

namespace Opens

variable {start fn : String} {r r' r'' : Reading} {more more' : List String}

theorem refl (h : r'.read = r.read) (ht : r.truncated ≤ r'.truncated) :
    Opens input start r r' [] where
  read := by simp [h]
  nodup hr := by rwa [h]
  reach _ hfn := absurd hfn List.not_mem_nil
  truncated := ht
  closed _ _ hfn := absurd hfn List.not_mem_nil

theorem subset (h : Opens input start r r' more) : r.read ⊆ r'.read := by
  rw [h.read]
  exact List.subset_append_left _ _

theorem trans (h : Opens input start r r' more) (h' : Opens input start r' r'' more') :
    Opens input start r r'' (more ++ more') where
  read := by rw [h'.read, h.read, List.append_assoc]
  nodup hr := h'.nodup (h.nodup hr)
  reach fn hfn := (List.mem_append.mp hfn).elim (h.reach fn) (h'.reach fn)
  truncated := h.truncated.trans h'.truncated
  closed hz fn hfn g hg := by
    rcases List.mem_append.mp hfn with hfirst | hlater
    · have hz' : r'.truncated = 0 := Nat.le_zero.mp (hz ▸ h'.truncated)
      exact h'.subset (h.closed hz' fn hfirst g hg)
    · exact h'.closed hz fn hlater g hg

/-- A count that goes up changes nothing here. -/
theorem counted (h : Opens input start r r' more) (n : Nat) :
    Opens input start r { r' with items := n } more :=
  ⟨h.read, h.nodup, h.reach, h.truncated, h.closed⟩

end Opens

/-- What a function draws when it is read: its steps and those of all it opens. -/
def Reads (input : ProgramInput ν) (engine : Engine) (fn : String) (r : Reading)
    (result : Block ν × Reading) : Prop :=
  ∃ more, Opens input fn r result.2 more ∧
    (drawnBlock [] result.1).Perm ((fn :: more).flatMap (input.stepsOf engine)) ∧
    (result.2.truncated = 0 → ∀ g, input.Links fn g → g ∈ result.2.read) ∧
    (result.1 = [] → result.2.truncated = r.truncated)

theorem mayOpen_of_true {fn : String} {path : List String} {r r' : Reading}
    (h : mayOpen fn path r = (true, r')) :
    fn ∉ r.read ∧ path.length < MAX_INLINE ∧ r' = { r with read := r.read ++ [fn] } := by
  unfold mayOpen at h
  split at h
  · simp at h
  · rename_i hread
    split at h
    · simp at h
    · rename_i hlimit
      simp only [Prod.mk.injEq, true_and] at h
      exact ⟨fun hfn => hread (.inr hfn), by omega, h.symm⟩

theorem mayOpen_of_false (input : ProgramInput ν) (start : String) {fn : String}
    {path : List String} {r r' : Reading} (hpath : ∀ f ∈ path, f ∈ r.read)
    (h : mayOpen fn path r = (false, r')) :
    Opens input start r r' [] ∧ (r'.truncated = 0 → fn ∈ r'.read) := by
  unfold mayOpen at h
  split at h
  · rename_i hread
    obtain rfl := (Prod.mk.inj h).2
    exact ⟨.refl rfl le_rfl, fun _ => hread.elim (hpath fn) id⟩
  · split at h
    · obtain rfl := (Prod.mk.inj h).2
      exact ⟨.refl rfl (Nat.le_succ _), fun hz => absurd hz (Nat.succ_ne_zero _)⟩
    · simp at h

/-- A call that opens a function has opened it and all that it opened. -/
theorem Opens.call {start fn : String} {path : List String} {r r' r'' : Reading}
    {more : List String} (hlink : input.Links start fn) (hmay : mayOpen fn path r = (true, r'))
    (hopens : Opens input fn r' r'' more)
    (hclosed : r''.truncated = 0 → ∀ g, input.Links fn g → g ∈ r''.read) :
    Opens input start r r'' (fn :: more) := by
  obtain ⟨hfn, _, rfl⟩ := mayOpen_of_true hmay
  refine ⟨by simp [hopens.read], fun hr => hopens.nodup ?_, ?_, hopens.truncated, ?_⟩
  · exact List.nodup_append.mpr ⟨hr, List.nodup_singleton fn,
      fun x hx y hy hxy => hfn (List.mem_singleton.mp hy ▸ hxy ▸ hx)⟩
  · refine List.forall_mem_cons.mpr ⟨.single hlink, fun g hg => ?_⟩
    exact .head hlink (hopens.reach g hg)
  · intro hz
    exact List.forall_mem_cons.mpr ⟨hclosed hz, hopens.closed hz⟩

/-! ## One site -/

section Site

variable {bodyFor : String → Reading → Block ν × Reading} {path : List String} {fn : String}

/-- What the sites of a function may ask of a function they open. -/
def ReadsBodies (input : ProgramInput ν) (engine : Engine) (path : List String)
    (bodyFor : String → Reading → Block ν × Reading) : Prop :=
  path.length < MAX_INLINE → ∀ g r, (∀ f ∈ path ++ [g], f ∈ r.read) →
    Reads input engine g r (bodyFor g r)

/-- What one site adds: its own step, and what it opens. -/
structure SiteDraws (input : ProgramInput ν) (engine : Engine) (fn : String) (site : ProgramSite)
    (r : Reading) (result : Option (Item ν) × Reading) (more : List String) : Prop where
  opens : Opens input fn r result.2 more
  drawn : ∀ path, (result.1.elim [] (drawnItem path)).Perm
    (site.drawnAt path ++ more.flatMap (input.stepsOf engine))
  links : result.2.truncated = 0 → ∀ g, input.linkOf site = some g → g ∈ result.2.read
  bare : result.1 = none → result.2.truncated = r.truncated

/-- A function that is opened at a call, with what its body draws. -/
theorem ReadsBodies.call (hbodies : ReadsBodies input engine path bodyFor) {r r' : Reading}
    {g : String} (hlink : input.Links fn g) (hpath : ∀ f ∈ path, f ∈ r.read)
    (hmay : mayOpen g path r = (true, r')) :
    ∃ more, Opens input fn r (bodyFor g r').2 (g :: more) ∧
      (drawnBlock [] (bodyFor g r').1).Perm ((g :: more).flatMap (input.stepsOf engine)) ∧
      ((bodyFor g r').1 = [] → (bodyFor g r').2.truncated = r.truncated) := by
  obtain ⟨_, hlength, hr'⟩ := mayOpen_of_true hmay
  have hread : ∀ f ∈ path ++ [g], f ∈ r'.read := by
    subst hr'
    intro f hf
    rcases List.mem_append.mp hf with hold | hnew
    · exact List.mem_append_left _ (hpath f hold)
    · exact List.mem_append_right _ hnew
  obtain ⟨more, hopens, hdrawn, hclosed, hbare⟩ := hbodies hlength g r' hread
  refine ⟨more, .call hlink hmay hopens hclosed, hdrawn, fun hb => (hbare hb).trans ?_⟩
  rw [hr']

theorem Opens.mem_of_cons {r r' : Reading} {g : String} {more : List String}
    (h : Opens input fn r r' (g :: more)) : g ∈ r'.read := by
  rw [h.read]
  simp

theorem itemFor_spec (hbodies : ReadsBodies input engine path bodyFor) {site : ProgramSite}
    (hsite : site ∈ input.sitesOf fn) {r : Reading} (hpath : ∀ f ∈ path, f ∈ r.read) :
    ∃ more, SiteDraws input engine fn site r (input.itemFor bodyFor site path r) more := by
  cases hinto : present "" site.into with
  | some into =>
      have hlink : input.linkOf site = some into := by simp [ProgramInput.linkOf, hinto]
      have hown : ∀ p, site.drawnAt p = [] := fun p => by simp [ProgramSite.drawnAt, hinto]
      cases hmay : mayOpen into path r with
      | mk opens r' =>
          cases opens with
          | true =>
              obtain ⟨more, hopens, hdrawn, hbare⟩ := hbodies.call ⟨site, hsite, hlink⟩ hpath hmay
              refine ⟨into :: more, ?_, ?_, ?_, ?_⟩ <;>
                simp only [ProgramInput.itemFor, hinto, hmay, if_true]
              · exact hopens
              · intro p
                rw [hown, List.nil_append]
                split
                · rename_i hempty
                  rw [List.isEmpty_iff.mp hempty] at hdrawn
                  exact hdrawn
                · exact hdrawn
              · intro _ g hg
                rw [hlink] at hg
                exact Option.some.inj hg ▸ hopens.mem_of_cons
              · intro hnone
                split at hnone
                · rename_i hempty
                  exact hbare (List.isEmpty_iff.mp hempty)
                · simp at hnone
          | false =>
              obtain ⟨hopens, hread⟩ := mayOpen_of_false input fn hpath hmay
              refine ⟨[], ?_, ?_, ?_, ?_⟩ <;>
                simp only [ProgramInput.itemFor, hinto, hmay, Bool.false_eq_true, if_false]
              · exact hopens
              · intro p
                simp [hown, drawnItem, drawnBlock]
              · intro hz g hg
                rw [hlink] at hg
                exact Option.some.inj hg ▸ hread hz
              · simp
  | none =>
      cases hstep : present "" site.step with
      | none =>
          refine ⟨[], ?_, ?_, ?_, ?_⟩ <;> simp only [ProgramInput.itemFor, hinto, hstep]
          · exact .refl rfl le_rfl
          · intro p
            simp [ProgramSite.drawnAt, hinto, hstep]
          · intro _ g hg
            simp [ProgramInput.linkOf, hinto, hstep] at hg
          · simp
      | some step =>
          have hlinkOf : input.linkOf site = input.stepInto step := by
            simp [ProgramInput.linkOf, hinto, hstep]
          have hown : ∀ p, site.drawnAt p =
              [⟨p, step, present "" site.link, present [] site.within⟩] :=
            fun p => by simp [ProgramSite.drawnAt, hinto, hstep]
          cases hdoes : input.stepInto step with
          | none =>
              refine ⟨[], ?_, ?_, ?_, ?_⟩ <;> simp only [ProgramInput.itemFor, hinto, hstep, hdoes]
              · exact .refl rfl le_rfl
              · intro p
                simp [hown, drawnItem, drawnBlock]
              · intro _ g hg
                simp [hlinkOf, hdoes] at hg
              · simp
          | some into =>
              rw [hdoes] at hlinkOf
              cases hmay : mayOpen into path r with
              | mk opens r' =>
                  cases opens with
                  | true =>
                      obtain ⟨more, hopens, hdrawn, _⟩ :=
                        hbodies.call ⟨site, hsite, hlinkOf⟩ hpath hmay
                      refine ⟨into :: more, ?_, ?_, ?_, ?_⟩ <;>
                        simp only [ProgramInput.itemFor, hinto, hstep, hdoes, hmay, if_true]
                      · exact hopens
                      · intro p
                        rw [hown]
                        exact hdrawn.cons _
                      · intro _ g hg
                        rw [hlinkOf] at hg
                        exact Option.some.inj hg ▸ hopens.mem_of_cons
                      · simp
                  | false =>
                      obtain ⟨hopens, hread⟩ := mayOpen_of_false input fn hpath hmay
                      refine ⟨[], ?_, ?_, ?_, ?_⟩ <;>
                        simp only [ProgramInput.itemFor, hinto, hstep, hdoes, hmay,
                          Bool.false_eq_true, if_false]
                      · exact hopens
                      · intro p
                        simp [hown, drawnItem, drawnBlock]
                      · intro hz g hg
                        rw [hlinkOf] at hg
                        exact Option.some.inj hg ▸ hread hz
                      · simp

/-- A site adds its step, under the labels of its scopes, and what it opens. -/
structure SiteReads (input : ProgramInput ν) (engine : Engine) (known : List Scope) (fn : String)
    (drawn : List Drawn) (links : String → Prop) (state state' : Place ν × Reading)
    (more : List String) : Prop where
  sound : Place.Sound known state'.1
  opens : Opens input fn state.2 state'.2 more
  drawn : (drawnBlock [] state'.1.block).Perm
    (drawnBlock [] state.1.block ++ (drawn ++ more.flatMap (input.stepsOf engine)))
  links : state'.2.truncated = 0 → ∀ g, links g → g ∈ state'.2.read
  empty : state'.1.block = [] → state.1.block = [] ∧ state'.2.truncated = state.2.truncated

theorem readSite_spec (hbodies : ReadsBodies input engine path bodyFor)
    (hcoherent : Coherent (input.scopes fn)) {site : ProgramSite} (hsite : site ∈ input.sitesOf fn)
    {state : Place ν × Reading} (hsound : Place.Sound (input.scopes fn) state.1)
    (hpath : ∀ f ∈ path, f ∈ state.2.read) :
    ∃ more, SiteReads input engine (input.scopes fn) fn
      (site.drawnAt ((engine.scopesOf site).map Scope.label))
      (fun g => input.linkOf site = some g) state (input.readSite engine bodyFor path state site)
      more := by
  have hscopes : ∀ scope ∈ engine.scopesOf site, scope ∈ input.scopes fn :=
    fun scope hscope => List.mem_flatMap.mpr ⟨site, hsite, engine.mem_scopesOf hscope⟩
  obtain ⟨hkeeps, hlabels⟩ := hsound.enter hcoherent hscopes
  obtain ⟨more, hdraws⟩ := itemFor_spec hbodies hsite hpath
  cases hitem : (input.itemFor bodyFor site path state.2).1 with
  | none =>
      have hadded := hdraws.drawn ((engine.scopesOf site).map Scope.label)
      simp only [hitem, Option.elim_none] at hadded
      refine ⟨more, ?_, ?_, ?_, ?_, ?_⟩ <;> simp only [ProgramInput.readSite, hitem]
      · exact hkeeps.sound
      · exact hdraws.opens
      · simpa [List.nil_perm.mp hadded] using hkeeps.drawn []
      · exact hdraws.links
      · exact fun hempty => ⟨hkeeps.empty hempty, hdraws.bare hitem⟩
  | some item =>
      have hadded := hdraws.drawn ((engine.scopesOf site).map Scope.label)
      simp only [hitem, Option.elim_some] at hadded
      refine ⟨more, ?_, ?_, ?_, ?_, ?_⟩ <;> simp only [ProgramInput.readSite, hitem]
      · refine ⟨?_, hkeeps.sound.known⟩
        have hlead : Leads (_ ++ []) (bodyAt _ (put item site) _) :=
          hkeeps.sound.leads.change fun body => .root
        simpa using hlead
      · exact hdraws.opens.counted _
      · have hput : (drawnBlock [] (bodyAt _ (put item site) _)).Perm
            (drawnBlock [] _ ++ drawnItem ((engine.scopesOf site).map Scope.label) item) :=
          hkeeps.sound.leads.drawn_change [] (by simp [hlabels, drawnBlock_put])
        exact hput.trans ((hkeeps.drawn []).append hadded)
      · exact hdraws.links
      · intro hempty
        cases hstack : (state.1.enter (engine.scopesOf site)).stack with
        | nil =>
            rw [hstack] at hempty
            exact absurd hempty (put_ne_nil _ _ _)
        | cons o stack =>
            have hlead := hkeeps.sound.leads
            rw [hstack] at hempty hlead
            have hnil : (state.1.enter (engine.scopesOf site)).block = [] :=
              modifyLast_eq_nil hempty
            rw [hnil] at hlead
            generalize hblock : ([] : Block ν) = block at hlead
            cases hlead with
            | inside => simp at hblock

/-- The sites one after the other. -/
theorem foldl_readSite_spec (hbodies : ReadsBodies input engine path bodyFor)
    (hcoherent : Coherent (input.scopes fn)) (sites : List ProgramSite)
    (hsites : ∀ site ∈ sites, site ∈ input.sitesOf fn) (state : Place ν × Reading)
    (hsound : Place.Sound (input.scopes fn) state.1) (hpath : ∀ f ∈ path, f ∈ state.2.read) :
    ∃ more, SiteReads input engine (input.scopes fn) fn
      (sites.flatMap fun site => site.drawnAt ((engine.scopesOf site).map Scope.label))
      (fun g => ∃ site ∈ sites, input.linkOf site = some g) state
      (sites.foldl (input.readSite engine bodyFor path) state) more := by
  induction sites generalizing state with
  | nil =>
      refine ⟨[], hsound, .refl rfl le_rfl, by simp, ?_, fun h => ⟨h, rfl⟩⟩
      rintro - g ⟨site, hsite, -⟩
      exact absurd hsite List.not_mem_nil
  | cons site sites ih =>
      obtain ⟨hsite, hsites⟩ := List.forall_mem_cons.mp hsites
      obtain ⟨more, hone⟩ := readSite_spec hbodies hcoherent hsite hsound hpath
      obtain ⟨more', hrest⟩ := ih hsites _ hone.sound fun f hf => hone.opens.subset (hpath f hf)
      refine ⟨more ++ more', hrest.sound, hone.opens.trans hrest.opens, ?_, ?_, ?_⟩
      · refine hrest.drawn.trans ((hone.drawn.append_right _).trans ?_)
        simp only [List.flatMap_cons, List.flatMap_append, List.append_assoc]
        refine .append_left _ (.append_left _ ?_)
        simp only [← List.append_assoc]
        exact .append_right _ List.perm_append_comm
      · intro hz g hg
        obtain ⟨site', hsite', hlink⟩ := hg
        rcases List.mem_cons.mp hsite' with rfl | hmem
        · have hz' := Nat.le_zero.mp (hz ▸ hrest.opens.truncated)
          exact hrest.opens.subset (hone.links hz' g hlink)
        · exact hrest.links hz g ⟨site', hmem, hlink⟩
      · intro hempty
        obtain ⟨hmid, htruncated⟩ := hrest.empty hempty
        obtain ⟨hstart, htruncated'⟩ := hone.empty hmid
        exact ⟨hstart, htruncated.trans htruncated'⟩

end Site

/-! ## The whole reading -/

theorem sealBlock_eq_nil {reply : String → Bool} {block : Block ν}
    (h : sealBlock reply block = []) : block = [] := by
  cases block with
  | nil => rfl
  | cons item rest => simp [sealBlock] at h

/-- At every depth that the path leaves, a function that is read draws its steps and those of
all it opens. -/
theorem blockFor_reads (engine : Engine) (hcoherent : ∀ fn, Coherent (input.scopes fn))
    (depth : Nat) : ∀ (fn : String) (path : List String) (r : Reading), 0 < depth →
      path.length + depth = MAX_INLINE + 1 → (∀ f ∈ path, f ∈ r.read) →
      Reads input engine fn r (input.blockFor engine depth fn path r) := by
  induction depth with
  | zero =>
      intro fn path r hdepth
      exact absurd hdepth (Nat.lt_irrefl 0)
  | succ depth ih =>
      intro fn path r _ hlength hpath
      have hbodies : ReadsBodies input engine path
          fun g => input.blockFor engine depth g (path ++ [g]) := by
        intro hlt g r' hread
        exact ih g (path ++ [g]) r' (by omega) (by simp; omega) hread
      have hperm : (engine.sortSites (input.sitesOf fn)).Perm (input.sitesOf fn) :=
        engine.sort_perm _ _
      obtain ⟨more, hreads⟩ := foldl_readSite_spec hbodies (hcoherent fn)
        (engine.sortSites (input.sitesOf fn)) (fun site hsite => hperm.mem_iff.mp hsite) ({}, r)
        .empty hpath
      refine ⟨more, hreads.opens, ?_, ?_, ?_⟩ <;> simp only [ProgramInput.blockFor]
      · rw [drawnBlock_sealBlock]
        refine hreads.drawn.trans ?_
        simp only [drawnBlock, List.nil_append, List.flatMap_cons]
        exact (hperm.flatMap_right _).append_right _
      · intro hz g hlink
        obtain ⟨site, hsite, hg⟩ := hlink
        exact hreads.links hz g ⟨site, hperm.mem_iff.mpr hsite, hg⟩
      · exact fun hempty => (hreads.empty (sealBlock_eq_nil hempty)).2

/-- The steps of a program are those of the functions it has read, each function once and each
step under the arms and loops of its site; and a program that says of no cut has read every
function that calls lead to. -/
theorem buildProgram_draws_what_it_reads (input : ProgramInput ν) (engine : Engine)
    (hcoherent : ∀ fn, Coherent (input.scopes fn)) {root : String}
    (hroot : input.root = some root) :
    ∃ read : List String, read.Nodup ∧ root ∈ read ∧ (∀ fn ∈ read, input.Reaches root fn) ∧
      (WireProgram.cuts (input.buildProgram engine) = 0 →
        ∀ fn, input.Reaches root fn → fn ∈ read) ∧
      (WireProgram.steps (input.buildProgram engine)).Perm
        (read.flatMap (input.stepsOf engine)) := by
  obtain ⟨more, hopens, hdrawn, hclosed, hbare⟩ :=
    blockFor_reads engine hcoherent MAX_INLINE root [root] { read := [root] }
      (by decide) rfl (by simp)
  have hread := hopens.read
  have hall : (input.blockFor engine MAX_INLINE root [root] { read := [root] }).2.truncated = 0 →
      ∀ fn, input.Reaches root fn → fn ∈ root :: more := by
    intro hz fn hreach
    induction hreach with
    | refl => exact List.mem_cons_self
    | tail _ hlink ih =>
        rcases List.mem_cons.mp ih with rfl | hmore
        · simpa [hread] using hclosed hz _ hlink
        · simpa [hread] using hopens.closed hz _ hmore _ hlink
  refine ⟨root :: more, ?_, List.mem_cons_self, ?_, ?_, ?_⟩
  · simpa [hread] using hopens.nodup (List.nodup_singleton root)
  · exact List.forall_mem_cons.mpr ⟨.refl, hopens.reach⟩
  · intro hz
    apply hall
    unfold ProgramInput.buildProgram at hz
    simp only [hroot] at hz
    split at hz
    · rename_i hempty
      exact hbare (List.isEmpty_iff.mp hempty)
    · exact hz
  · unfold ProgramInput.buildProgram
    simp only [hroot]
    split
    · rename_i hempty
      rw [List.isEmpty_iff.mp hempty] at hdrawn
      exact hdrawn
    · exact hdrawn

/-! ## A login -/

/-- An engine with an insertion sort. -/
def plainEngine : Engine where
  sort compare xs := xs.insertionSort fun a b => compare a b ≤ 0
  sort_perm compare xs := xs.perm_insertionSort fun a b => compare a b ≤ 0
  localeCompare a b := if a = b then 0 else if a < b then -1 else 1
  number text := text.foldl (fun n c => n * 10 + (c.toNat - 48)) 0

/-- `if (match) res.json(sign()) else res.status(401)` after a lookup. -/
def loginGuard (negated : Bool) : SiteGuard :=
  { text := js "match", negated, form := .if, branch := js "2:2" }

def spanAt (line column stop : Nat) : Span := ⟨⟨line, column⟩, ⟨line, stop⟩⟩

def loginSites : List ProgramSite :=
  [{ step := some "401", at_ := spanAt 5 4 20, guards := [loginGuard true] },
    { step := some "200", at_ := spanAt 3 4 30, guards := [loginGuard false] },
    { into := some "sign", at_ := spanAt 3 13 19, within := some (js "res.json"),
      guards := [loginGuard false] },
    { step := some "findOne", at_ := spanAt 1 2 18 }]

def signSites : List ProgramSite := [{ step := some "jwt.sign", at_ := spanAt 9 2 20 }]

def loginInput : ProgramInput String where
  sites fn := if fn = "login" then some loginSites else if fn = "sign" then some signSites else none
  root := some "login"
  node fn := some fn
  step s := some { reply := s = "200" ∨ s = "401", into := none }

theorem loginInput_coherent (fn : String) : Coherent (loginInput.scopes fn) := by
  unfold ProgramInput.scopes ProgramInput.sitesOf loginInput
  simp only []
  split
  · unfold Coherent
    decide +kernel
  · split
    · unfold Coherent
      decide +kernel
    · exact fun a ha => absurd ha (by simp)

theorem login_draws_what_it_reads :
    ∃ read : List String, read.Nodup ∧ "login" ∈ read ∧
      (∀ fn ∈ read, loginInput.Reaches "login" fn) ∧
      (WireProgram.cuts (loginInput.buildProgram plainEngine) = 0 →
        ∀ fn, loginInput.Reaches "login" fn → fn ∈ read) ∧
      (WireProgram.steps (loginInput.buildProgram plainEngine)).Perm
        (read.flatMap (loginInput.stepsOf plainEngine)) :=
  buildProgram_draws_what_it_reads loginInput plainEngine loginInput_coherent rfl

/-- The two arms of one fork, with the helper drawn before the reply it is written in. -/
example :
    (WireProgram.steps (loginInput.buildProgram plainEngine)).map (fun d => (d.path, d.step)) =
    [([], "findOne"), ([], "jwt.sign"), ([.arm (js "match")], "200"),
      ([.arm (js "!match")], "401")] := by
  decide +kernel

end AfyxGraph.UiServer.Program
