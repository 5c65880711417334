import AfyxGraph.UiServer.Program

/-! # What a change at an open place does to a reading

A reading is looked at through the steps it draws, each under the arms and loops around it. A
change of the block that the open constructs lead to adds what it adds there and nothing else,
and closing and opening constructs adds nothing.
-/

namespace AfyxGraph.UiServer.Program

open AfyxGraph.Runtime AfyxGraph.Graph.Guards

variable {ν : Type}

/-! ## The steps of a reading -/

/-- A step where it is drawn: the arms and loops around it, in the function that has the site. -/
structure Drawn where
  path : List Label
  step : String
  link : Option String
  within : Option JsString
  deriving DecidableEq

/-- The path in the body of a block. What a helper draws starts anew. -/
def pathIn (path : List Label) (kind : BlockKind) (by_ : Option JsString) (loop : Option LoopKind) :
    List Label :=
  match kind with
  | .inline => []
  | .loop => path ++ [.loop (by_.getD []) (loop.getD .each)]
  | _ => path

mutual

def drawnItem (path : List Label) : Item ν → List Drawn
  | .step step link within body _ => ⟨path, step, link, within⟩ :: drawnBlock [] body
  | .fork _ _ arms => drawnArms path arms
  | .block kind by_ loop _ _ body _ => drawnBlock (pathIn path kind by_ loop) body

def drawnBlock (path : List Label) : List (Item ν) → List Drawn
  | [] => []
  | item :: rest => drawnItem path item ++ drawnBlock path rest

def drawnArms (path : List Label) : List (Arm ν) → List Drawn
  | [] => []
  | .mk w _ _ body :: rest => drawnBlock (path ++ [.arm w]) body ++ drawnArms path rest

end

theorem drawnBlock_append (path : List Label) (xs ys : Block ν) :
    drawnBlock path (xs ++ ys) = drawnBlock path xs ++ drawnBlock path ys := by
  induction xs with
  | nil => simp [drawnBlock]
  | cons x xs ih => simp [drawnBlock, ih]

theorem drawnArms_append (path : List Label) (xs ys : List (Arm ν)) :
    drawnArms path (xs ++ ys) = drawnArms path xs ++ drawnArms path ys := by
  induction xs with
  | nil => simp [drawnArms]
  | cons x xs ih => cases x; simp [drawnArms, ih]

theorem drawnBlock_singleton (path : List Label) (item : Item ν) :
    drawnBlock path [item] = drawnItem path item := by
  simp [drawnBlock]

mutual

/-- Sealing decides how arms end and what a switch is on, not what is drawn. -/
theorem drawnItem_sealItem (reply : String → Bool) (path : List Label) :
    ∀ item : Item ν, drawnItem path (sealItem reply item) = drawnItem path item
  | .step _ _ _ body _ => by simp [sealItem, drawnItem, drawnBlock_sealBlock reply [] body]
  | .fork _ _ arms => by simp [sealItem, drawnItem, drawnArms_sealArms reply path arms]
  | .block _ _ _ _ _ body _ => by simp [sealItem, drawnItem, drawnBlock_sealBlock reply _ body]

theorem drawnBlock_sealBlock (reply : String → Bool) (path : List Label) :
    ∀ block : List (Item ν), drawnBlock path (sealBlock reply block) = drawnBlock path block
  | [] => by simp [sealBlock]
  | item :: rest => by
      simp [sealBlock, drawnBlock, drawnItem_sealItem reply path item,
        drawnBlock_sealBlock reply path rest]

theorem drawnArms_sealArms (reply : String → Bool) (path : List Label) :
    ∀ arms : List (Arm ν), drawnArms path (sealArms reply arms) = drawnArms path arms
  | [] => by simp [sealArms]
  | .mk _ _ _ body :: rest => by
      simp [sealArms, drawnArms, drawnBlock_sealBlock reply _ body,
        drawnArms_sealArms reply path rest]

end

theorem perm_append_swap {α : Type} {xs ys ds : List α} (h : xs.Perm (ys ++ ds)) (zs : List α) :
    (xs ++ zs).Perm ((ys ++ zs) ++ ds) := by
  have happ := h.append_right zs
  rw [List.append_assoc] at happ ⊢
  exact happ.trans (List.perm_append_comm.append_left ys)

/-! ## Where the open constructs lead -/

theorem modifyLast_append {α : Type} (f : α → α) (front : List α) (last : α) :
    modifyLast f (front ++ [last]) = front ++ [f last] := by
  induction front with
  | nil => rfl
  | cons x front ih =>
      cases front with
      | nil => rfl
      | cons y front => simpa [modifyLast] using ih

/-- The body that a construct has under a label. -/
inductive BodyOf : Label → Item ν → Block ν → Prop
  | arm {on form front w not_ ends body rest} (hfront : ∀ arm ∈ front, arm.when_ ≠ w) :
      BodyOf (.arm w) (.fork on form (front ++ .mk w not_ ends body :: rest)) body
  | loop {text kind via within body again} :
      BodyOf (.loop text kind) (.block .loop (some text) (some kind) via within body again) body

/-- Each open construct is the last item of the block around it. -/
inductive Leads : List Open → Block ν → Prop
  | root {block} : Leads [] block
  | inside {o stack front item body} (hbody : BodyOf o.label item body) (hlead : Leads stack body) :
      Leads (o :: stack) (front ++ [item])

theorem modifyArm_append {w : JsString} {front rest : List (Arm ν)} {not_ : Bool}
    {ends : Option ArmEnd} {body : Block ν} (f : Block ν → Block ν)
    (hfront : ∀ arm ∈ front, arm.when_ ≠ w) :
    modifyArm w f (front ++ .mk w not_ ends body :: rest) =
      front ++ .mk w not_ ends (f body) :: rest := by
  induction front with
  | nil => simp [modifyArm]
  | cons arm front ih =>
      obtain ⟨v, n, e, b⟩ := arm
      obtain ⟨hne, htail⟩ := List.forall_mem_cons.mp hfront
      have hv : v ≠ w := hne
      simp [modifyArm, hv, ih htail]

namespace BodyOf

variable {label : Label} {item : Item ν} {body : Block ν}

theorem inBody (h : BodyOf label item body) (f : Block ν → Block ν) :
    BodyOf label (inBody label f item) (f body) := by
  cases h with
  | arm hfront => simpa [Program.inBody, modifyArm_append f hfront] using .arm hfront
  | loop => exact .loop

/-- What is drawn more in the body is drawn more in the construct, under its label. -/
theorem drawn_inBody (h : BodyOf label item body) {f : Block ν → Block ν} {path : List Label}
    {more : List Drawn}
    (hmore : (drawnBlock (path ++ [label]) (f body)).Perm
      (drawnBlock (path ++ [label]) body ++ more)) :
    (drawnItem path (Program.inBody label f item)).Perm (drawnItem path item ++ more) := by
  cases h with
  | @arm on form front w not_ ends body rest hfront =>
      simp only [Program.inBody, modifyArm_append f hfront, drawnItem, drawnArms_append, drawnArms]
      rw [List.append_assoc]
      exact (perm_append_swap hmore _).append_left _
  | loop => simpa [Program.inBody, drawnItem, pathIn] using hmore

end BodyOf

namespace Leads

variable {stack more rest : List Open} {block : Block ν}

theorem take (h : Leads stack block) (n : Nat) : Leads (stack.take n) block := by
  induction h generalizing n with
  | root => simpa using .root
  | inside hbody _ ih =>
      cases n with
      | zero => exact .root
      | succ n => exact .inside hbody (ih n)

/-- A change behind some open constructs leaves them open and opens what it opens. -/
theorem bodyAt {f : Block ν → Block ν} (h : Leads (stack ++ rest) block)
    (hf : ∀ body, Leads rest body → Leads more (f body)) :
    Leads (stack ++ more) (bodyAt stack f block) := by
  induction stack generalizing block with
  | nil => exact hf block h
  | cons o stack ih =>
      cases h with
      | @inside _ _ front item body hbody hlead =>
          simp only [Program.bodyAt, modifyLast_append]
          exact .inside (hbody.inBody _) (ih hlead)

/-- What a change draws more is drawn under the labels of the open constructs. -/
theorem drawn_bodyAt {f : Block ν → Block ν} (path : List Label) {more : List Drawn}
    (h : Leads (stack ++ rest) block)
    (hf : ∀ body, Leads rest body →
      (drawnBlock (path ++ stack.map Open.label) (f body)).Perm
        (drawnBlock (path ++ stack.map Open.label) body ++ more)) :
    (drawnBlock path (Program.bodyAt stack f block)).Perm (drawnBlock path block ++ more) := by
  induction stack generalizing block path with
  | nil => simpa [Program.bodyAt] using hf block h
  | cons o stack ih =>
      cases h with
      | @inside _ _ front item body hbody hlead =>
          have hmore := ih (path ++ [o.label]) hlead (by simpa using hf)
          simp only [Program.bodyAt, modifyLast_append, drawnBlock_append, drawnBlock_singleton,
            List.append_assoc]
          exact (hbody.drawn_inBody hmore).append_left _

/-- A change of the block that all open constructs lead to. -/
theorem change {f : Block ν → Block ν} (h : Leads stack block)
    (hf : ∀ body, Leads more (f body)) : Leads (stack ++ more) (Program.bodyAt stack f block) := by
  rw [← List.append_nil stack] at h
  exact h.bodyAt fun body _ => hf body

theorem drawn_change {f : Block ν → Block ν} (path : List Label) {more : List Drawn}
    (h : Leads stack block)
    (hf : ∀ body, (drawnBlock (path ++ stack.map Open.label) (f body)).Perm
      (drawnBlock (path ++ stack.map Open.label) body ++ more)) :
    (drawnBlock path (Program.bodyAt stack f block)).Perm (drawnBlock path block ++ more) := by
  rw [← List.append_nil stack] at h
  exact h.drawn_bodyAt path fun body _ => hf body

end Leads

theorem modifyLast_eq_nil {α : Type} {f : α → α} {xs : List α} (h : modifyLast f xs = []) :
    xs = [] := by
  cases xs with
  | nil => rfl
  | cons x xs => cases xs <;> simp [modifyLast] at h

theorem bodyAt_eq_nil {f : Block ν → Block ν} (hf : ∀ body, f body = [] → body = [])
    {stack : List Open} {block : Block ν} (h : bodyAt stack f block = []) : block = [] := by
  cases stack with
  | nil => exact hf block h
  | cons o stack => exact modifyLast_eq_nil h

/-! ## Opening and closing -/

theorem armFor_spec (g : SiteGuard) (arms : List (Arm ν)) :
    ∃ front not_ ends body rest, armFor g arms = front ++ .mk (armWords g) not_ ends body :: rest ∧
      ∀ arm ∈ front, arm.when_ ≠ armWords g := by
  unfold armFor
  by_cases hany : arms.any fun arm => arm.when_ = armWords g
  · rw [if_pos hany]
    induction arms with
    | nil => simp at hany
    | cons arm arms ih =>
        obtain ⟨w, n, e, b⟩ := arm
        by_cases hw : w = armWords g
        · exact ⟨[], n, e, b, arms, by simp [hw], by simp⟩
        · have htail : (arms.any fun arm => arm.when_ = armWords g) = true := by
            simpa [Arm.when_, hw] using hany
          obtain ⟨front, n', e', b', rest, heq, hfront⟩ := ih htail
          refine ⟨.mk w n e b :: front, n', e', b', rest, by rw [heq]; rfl, ?_⟩
          exact List.forall_mem_cons.mpr ⟨hw, hfront⟩
  · rw [if_neg hany]
    refine ⟨arms, _, _, _, [], rfl, fun arm harm heq => hany ?_⟩
    exact List.any_eq_true.mpr ⟨arm, harm, by simpa⟩

theorem drawnArms_armFor (path : List Label) (g : SiteGuard) (arms : List (Arm ν)) :
    drawnArms path (armFor g arms) = drawnArms path arms := by
  unfold armFor
  split
  · rfl
  · simp [drawnArms_append, drawnArms, drawnBlock]

theorem drawnItem_addArm (path : List Label) (g : SiteGuard) (item : Item ν) :
    drawnItem path (addArm g item) = drawnItem path item := by
  cases item with
  | fork on form arms => simp [addArm, drawnItem, drawnArms_armFor]
  | _ => rfl

theorem drawnItem_construct (path : List Label) (scope : Scope) :
    drawnItem (ν := ν) path (construct scope) = [] := by
  cases scope with
  | loop l => simp [construct, drawnItem, drawnBlock]
  | guard g =>
      simp only [construct, drawnItem, drawnArms_armFor]
      split <;> simp [drawnArms, drawnBlock]

theorem opened_label (scope : Scope) : (opened scope).label = scope.label := by
  cases scope <;> rfl

theorem leads_construct (scope : Scope) (block : Block ν) :
    Leads [opened scope] (block ++ [construct scope]) := by
  cases scope with
  | loop l => exact .inside .loop .root
  | guard g =>
      obtain ⟨front, not_, ends, body, rest, heq, hfront⟩ :=
        armFor_spec (ν := ν) g
          (if g.form = .guard && g.negated then
            [.mk (decisionWords g) false (some (exitEnd (g.exit.getD .return))) []]
          else [])
      refine .inside (show BodyOf _ _ body from ?_) .root
      simp only [construct, opened, heq]
      exact .arm hfront

theorem leads_addArm {o : Open} {block : Block ν} (g : SiteGuard) (harm : ∃ w, o.label = .arm w)
    (h : Leads [o] block) :
    Leads [{ o with armKey := some (armKey g), label := .arm (armWords g) }]
      (modifyLast (addArm g) block) := by
  obtain ⟨w, hw⟩ := harm
  cases h with
  | @inside _ _ front item body hbody _ =>
      rw [modifyLast_append]
      rw [hw] at hbody
      cases hbody with
      | @arm on form before _ not_ ends _ behind _ =>
          obtain ⟨before', not_', ends', body', behind', heq, hbefore⟩ :=
            armFor_spec g (before ++ .mk w not_ ends body :: behind)
          refine .inside (show BodyOf _ _ body' from ?_) .root
          simp only [addArm, heq]
          exact .arm hbefore

/-! ## The scopes of a site -/

/-- Scopes that count as one construct are labelled alike: what stands at one place in the code
reads the same at each site. -/
def Coherent (scopes : List Scope) : Prop :=
  ∀ a ∈ scopes, ∀ b ∈ scopes, sameScope (opened a) b = true → a.label = b.label

namespace Place

variable {known scopes : List Scope} {p : Place ν}

/-- The open constructs are the last items, and each was opened by a scope of the function. -/
structure Sound (known : List Scope) (p : Place ν) : Prop where
  leads : Leads p.stack p.block
  known : ∀ o ∈ p.stack, ∃ scope ∈ known, o = opened scope

theorem Sound.empty : Sound known ({} : Place ν) :=
  ⟨.root, fun _ ho => absurd ho List.not_mem_nil⟩

/-- What every step of `enter` keeps: soundness, what is drawn, and that something is there. -/
structure Keeps (known : List Scope) (p q : Place ν) : Prop where
  sound : Sound known q
  drawn : ∀ path, (drawnBlock path q.block).Perm (drawnBlock path p.block)
  empty : q.block = [] → p.block = []

theorem Keeps.trans {q r : Place ν} (h : Keeps known p q) (h' : Keeps known q r) :
    Keeps known p r where
  sound := h'.sound
  drawn path := (h'.drawn path).trans (h.drawn path)
  empty hr := h.empty (h'.empty hr)

theorem Sound.openScope (h : Sound known p) {scope : Scope} (hscope : scope ∈ known) :
    Keeps known p (p.openScope scope) where
  sound :=
    { leads := h.leads.change fun body => leads_construct scope body
      known := by
        intro o ho
        rcases List.mem_append.mp ho with hold | hnew
        · exact h.known o hold
        · exact ⟨scope, hscope, List.mem_singleton.mp hnew⟩ }
  drawn := by
    intro path
    have hadd : (drawnBlock path (bodyAt p.stack (· ++ [construct scope]) p.block)).Perm
        (drawnBlock path p.block ++ []) :=
      h.leads.drawn_change path
        (by simp [drawnBlock_append, drawnBlock_singleton, drawnItem_construct])
    simpa [Place.openScope] using hadd
  empty := bodyAt_eq_nil fun body hbody => absurd hbody (by simp)

theorem Sound.switchArm (h : Sound known p) {keep : Nat} {o : Open} {g : SiteGuard}
    (ho : p.stack[keep]? = some o) (hbranch : o.branch = g.branch) (hfork : o.armKey.isSome)
    (hg : .guard g ∈ known) : Keeps known p (p.switchArm keep o g) := by
  have harm : ∃ w, o.label = .arm w := by
    obtain ⟨scope, _, rfl⟩ := h.known o (List.mem_of_getElem? ho)
    cases scope with
    | guard g' => exact ⟨armWords g', rfl⟩
    | loop l => exact absurd hfork (by simp [opened])
  have hlead : Leads (p.stack.take keep ++ [o]) p.block := by
    have htake := h.leads.take (keep + 1)
    rwa [List.take_add_one, ho] at htake
  constructor
  · constructor
    · exact Leads.bodyAt hlead fun body hbody => leads_addArm g harm hbody
    · intro o' ho'
      rcases List.mem_append.mp ho' with hold | hnew
      · exact h.known o' (List.mem_of_mem_take hold)
      · refine ⟨.guard g, hg, ?_⟩
        rw [List.mem_singleton.mp hnew]
        simp [opened, hbranch]
  · intro path
    have hadd : (drawnBlock path (bodyAt (p.stack.take keep) (modifyLast (addArm g)) p.block)).Perm
        (drawnBlock path p.block ++ []) := by
      refine hlead.drawn_bodyAt path fun body hbody => ?_
      cases hbody with
      | @inside _ _ front item _ _ _ =>
          simp [modifyLast_append, drawnBlock_append, drawnBlock_singleton, drawnItem_addArm]
    simpa [Place.switchArm] using hadd
  · exact bodyAt_eq_nil fun body => modifyLast_eq_nil

theorem Sound.foldl_openScope (h : Sound known p) (hscopes : ∀ scope ∈ scopes, scope ∈ known) :
    Keeps known p (scopes.foldl Place.openScope p) := by
  induction scopes generalizing p with
  | nil => exact ⟨h, fun _ => .refl _, fun hp => hp⟩
  | cons scope scopes ih =>
      obtain ⟨hscope, hscopes⟩ := List.forall_mem_cons.mp hscopes
      have hone := h.openScope hscope
      exact hone.trans (ih hone.sound hscopes)

theorem foldl_openScope_stack (scopes : List Scope) (p : Place ν) :
    (scopes.foldl openScope p).stack = p.stack ++ scopes.map opened := by
  induction scopes generalizing p with
  | nil => simp
  | cons scope scopes ih => simp [ih, openScope]

theorem keepOf_labels (hcoherent : Coherent known) {stack : List Open}
    (hstack : ∀ o ∈ stack, ∃ scope ∈ known, o = opened scope)
    (hscopes : ∀ scope ∈ scopes, scope ∈ known) :
    (stack.take (keepOf stack scopes)).map Open.label =
      (scopes.take (keepOf stack scopes)).map Scope.label := by
  induction stack generalizing scopes with
  | nil => simp [keepOf]
  | cons o stack ih =>
      obtain ⟨⟨scope, hscope, ho⟩, htail⟩ := List.forall_mem_cons.mp hstack
      subst ho
      cases scopes with
      | nil => simp [keepOf]
      | cons scope' scopes =>
          obtain ⟨hscope', hscopes⟩ := List.forall_mem_cons.mp hscopes
          unfold keepOf
          split
          · rename_i hsame
            simp [opened_label, hcoherent scope hscope scope' hscope' hsame, List.map_take,
              ← ih htail hscopes]
          · rfl

theorem otherArm_eq_some {keep : Nat} {o : Open} {g : SiteGuard}
    (h : p.otherArm keep scopes = some (o, g)) :
    p.stack[keep]? = some o ∧ scopes[keep]? = some (.guard g) ∧ o.branch = g.branch ∧
      o.armKey.isSome = true := by
  unfold otherArm at h
  cases hstack : p.stack[keep]? with
  | none => simp [hstack] at h
  | some o' =>
      cases hscope : scopes[keep]? with
      | none => simp [hstack, hscope] at h
      | some scope =>
          cases scope with
          | loop l => simp [hstack, hscope] at h
          | guard g' =>
              simp only [hstack, hscope, Option.ite_none_right_eq_some, Option.some.injEq,
                Prod.mk.injEq, Bool.and_eq_true, decide_eq_true_eq] at h
              obtain ⟨⟨hbranch, hfork⟩, rfl, rfl⟩ := h
              exact ⟨rfl, rfl, hbranch, hfork⟩

/-- Entering a site draws nothing and leaves open exactly the scopes of the site. -/
theorem Sound.enter (hcoherent : Coherent known) (h : Sound known p)
    (hscopes : ∀ scope ∈ scopes, scope ∈ known) :
    Keeps known p (p.enter scopes) ∧
      (p.enter scopes).stack.map Open.label = scopes.map Scope.label := by
  have hlabels := keepOf_labels hcoherent h.known hscopes
  have hdrop : ∀ n, ∀ scope ∈ scopes.drop n, scope ∈ known :=
    fun n scope hscope => hscopes scope (List.mem_of_mem_drop hscope)
  cases hother : p.otherArm (keepOf p.stack scopes) scopes with
  | some og =>
      obtain ⟨o, g⟩ := og
      rw [show p.enter scopes = (scopes.drop (keepOf p.stack scopes + 1)).foldl Place.openScope
        (p.switchArm (keepOf p.stack scopes) o g) by simp only [Place.enter, hother]]
      obtain ⟨ho, hg, hbranch, hfork⟩ := otherArm_eq_some hother
      have hswitch := h.switchArm ho hbranch hfork (hscopes _ (List.mem_of_getElem? hg))
      have hrest := hswitch.sound.foldl_openScope (hdrop (keepOf p.stack scopes + 1))
      refine ⟨hswitch.trans hrest, ?_⟩
      have hsplit : scopes = scopes.take (keepOf p.stack scopes) ++
          .guard g :: scopes.drop (keepOf p.stack scopes + 1) := by
        obtain ⟨hlt, hget⟩ := List.getElem?_eq_some_iff.mp hg
        rw [← hget, ← List.drop_eq_getElem_cons hlt, List.take_append_drop]
      simp only [foldl_openScope_stack, Place.switchArm, List.map_append, hlabels]
      conv_rhs => rw [hsplit]
      have hlabel : (Scope.guard g).label = .arm (armWords g) := rfl
      simp [hlabel, Function.comp_def, opened_label]
  | none =>
      have hclosed : Sound known { p with stack := p.stack.take (keepOf p.stack scopes) } :=
        ⟨h.leads.take _, fun o ho => h.known o (List.mem_of_mem_take ho)⟩
      rw [show p.enter scopes = (scopes.drop (keepOf p.stack scopes)).foldl Place.openScope
        { p with stack := p.stack.take (keepOf p.stack scopes) } by simp only [Place.enter, hother]]
      have hrest := hclosed.foldl_openScope (hdrop (keepOf p.stack scopes))
      refine ⟨⟨hrest.sound, hrest.drawn, hrest.empty⟩, ?_⟩
      simp only [foldl_openScope_stack, List.map_append, hlabels]
      conv_rhs => rw [← List.take_append_drop (keepOf p.stack scopes) scopes]
      simp [Function.comp_def, opened_label]

end Place

/-! ## Putting an item -/

theorem isRun_eq_true {run : BlockKind × JsString} {item : Item ν} (h : isRun run item = true) :
    ∃ loop via within body again,
      item = .block run.1 (some run.2) loop via within body again := by
  cases item with
  | block kind by_ loop via within body again =>
      simp only [isRun, Bool.and_eq_true, decide_eq_true_eq] at h
      obtain ⟨rfl, rfl⟩ := h
      exact ⟨loop, via, within, body, again, rfl⟩
  | _ => exact absurd h (by simp [isRun])

theorem pathIn_runFor {site : ProgramSite} {run : BlockKind × JsString}
    (h : runFor site = some run) (path : List Label) (loop : Option LoopKind) :
    pathIn path run.1 (some run.2) loop = path := by
  unfold runFor at h
  split at h
  · obtain rfl := Option.some.inj h; rfl
  · obtain ⟨w, _, rfl⟩ := Option.map_eq_some_iff.mp h; rfl

theorem put_ne_nil (item : Item ν) (site : ProgramSite) (block : Block ν) :
    put item site block ≠ [] := by
  unfold put
  split
  · simp
  · split
    · rename_i hlast
      intro hput
      simp [modifyLast_eq_nil hput] at hlast
    · simp

/-- An item in its run is drawn where the run is. -/
theorem drawnBlock_put (path : List Label) (item : Item ν) (site : ProgramSite) (block : Block ν) :
    drawnBlock path (put item site block) = drawnBlock path block ++ drawnItem path item := by
  unfold put
  cases hrun : runFor site with
  | none => simp [drawnBlock_append, drawnBlock_singleton]
  | some run =>
      have hpath := pathIn_runFor hrun path
      simp only []
      split
      · rename_i hlast
        cases hget : block.getLast? with
        | none => simp [hget] at hlast
        | some last =>
            obtain ⟨front, rfl⟩ := List.getLast?_eq_some_iff.mp hget
            obtain ⟨loop, via, within, body, again, rfl⟩ :=
              isRun_eq_true (by simpa [hget] using hlast)
            simp [modifyLast_append, drawnBlock_append, drawnBlock_singleton, intoRun, drawnItem,
              hpath]
      · simp [drawnBlock_append, drawnBlock_singleton, drawnItem, hpath]

end AfyxGraph.UiServer.Program
