import AfyxGraph.Core.Entries
import AfyxGraph.Core.Places
import AfyxGraph.Core.Loop
import AfyxGraph.Core.SeededDistance
import AfyxGraph.Runtime.Json
import Mathlib.Order.Bounds.Basic

/-! # The layers of the screens

The entry screen stands on top and every other screen as many rows below as it is transitions away.
Origins hang one row above the shallowest screen they open; what only they open is measured from
them. What nothing reaches stands in a band at the bottom.
-/

namespace AfyxGraph.Ui

open AfyxGraph.Core AfyxGraph.Runtime

structure ScreenLink where
  source : JsString
  target : JsString
  deriving DecidableEq, Repr

/-- `ids.sort()`: by code units. -/
def sortIds (ids : List JsString) : List JsString := ids.mergeSort fun a b => a ≤ b

abbrev DepthTable := List (JsString × Nat)

/-- `Math.max(0, ...numbers)` -/
def maxOf (numbers : List Nat) : Nat := numbers.foldl max 0

theorem le_foldl_max {numbers : List Nat} {a n : Nat} (h : n ∈ numbers ∨ n ≤ a) :
    n ≤ numbers.foldl max a := by
  induction numbers generalizing a with
  | nil => exact h.resolve_left List.not_mem_nil
  | cons m numbers ih =>
      rw [List.foldl_cons]
      apply ih
      rcases h with h | h
      · rcases List.mem_cons.mp h with rfl | h
        · exact Or.inr (Nat.le_max_right a n)
        · exact Or.inl h
      · exact Or.inr (Nat.le_trans h (Nat.le_max_left a m))

namespace EntryLayering

section Links

variable (ids : List JsString) (links : List ScreenLink)

/-- The links that are not skipped. -/
def drawn : List ScreenLink :=
  links.filter fun l => l.source ∈ ids ∧ l.target ∈ ids ∧ l.source ≠ l.target

/-- `out.get(id) ?? []` -/
def targetsOf (id : JsString) : List JsString :=
  sortIds (((drawn ids links).filter (·.source = id)).map (·.target))

/-- `indeg.get(id) ?? 0` -/
def indegree (id : JsString) : Nat := ((drawn ids links).filter (·.target = id)).length

/-! ## The walk from seeds -/

structure LayerWalk where
  depth : DepthTable
  buckets : List (Nat × List JsString)

/-- The first assignment wins. -/
def LayerWalk.push (w : LayerWalk) (id : JsString) (d : Nat) : LayerWalk :=
  if (w.depth.lookup id).isSome then w
  else ⟨setEntry w.depth id d, setEntry w.buckets d ((w.buckets.lookup d).getD [] ++ [id])⟩

def walkBucket (w : LayerWalk) (d : Nat) : LayerWalk :=
  match w.buckets.lookup d with
  | none => w
  | some list =>
      list.foldl (fun w id => (targetsOf ids links id).foldl (fun w t => w.push t (d + 1)) w) w

def maxStart (starts : List (JsString × Nat)) : Nat := maxOf (starts.map Prod.snd)

def openWalk (depth : DepthTable) (starts : List (JsString × Nat)) : LayerWalk :=
  starts.foldl (fun w s => w.push s.1 s.2) ⟨depth, []⟩

def walk (depth : DepthTable) (starts : List (JsString × Nat)) : DepthTable :=
  let w := openWalk depth starts
  ((List.range (ids.length + maxStart starts + 1)).foldl (walkBucket ids links) w).depth

/-! ## The phases -/

/-- The screens, by their distance from the entry. -/
def entryDepth (entry : Option JsString) : DepthTable :=
  match entry with
  | none => []
  | some e => if e ∈ ids then walk ids links [] [(e, 0)] else []

/-- One row above the shallowest target that is placed. -/
def seedOf (depth : DepthTable) (origin : JsString) : Nat :=
  match ((targetsOf ids links origin).filterMap fun t => depth.lookup t).min? with
  | none => 0
  | some least => least - 1

def seeds (origins : List JsString) (depth : DepthTable) : List (JsString × Nat) :=
  (sortIds (origins.filter (· ∈ ids))).map fun o => (o, seedOf ids links depth o)

def reachedDepth (entry : Option JsString) (origins : List JsString) : DepthTable :=
  let depth := entryDepth ids links entry
  walk ids links depth (seeds ids links origins depth)

/-! ## The band of the rest -/

structure RestWalk where
  frontier : List JsString
  restDepth : DepthTable
  d : Nat

/-- One link of a screen of the frontier. -/
def restLink (rest : List JsString) (d : Nat) (s : List JsString × DepthTable) (t : JsString) :
    List JsString × DepthTable :=
  if (s.2.lookup t).isSome ∨ t ∉ rest then s else (s.1 ++ [t], setEntry s.2 t d)

def restTurn (rest : List JsString) (w : RestWalk) : Option RestWalk :=
  if w.frontier = [] then none
  else
    let d := w.d + 1
    let (next, restDepth) := w.frontier.foldl
      (fun s id => (targetsOf ids links id).foldl (restLink rest d) s) ([], w.restDepth)
    some ⟨next, restDepth, d⟩

/-- Enough turns for the frontier to run empty. -/
def restTurns (rest : List JsString) : Nat := 2 * rest.length + 1

def restStart (rest : List JsString) : RestWalk :=
  let restSources := rest.filter fun id => indegree ids links id = 0
  let frontier := if 0 < restSources.length then restSources else rest.take 1
  ⟨frontier, frontier.foldl (fun table s => setEntry table s 0) [], 0⟩

def restWalk (rest : List JsString) : RestWalk :=
  loop (restTurn ids links rest) (restTurns rest) (restStart ids links rest)

def restDepth (rest : List JsString) : DepthTable :=
  rest.foldl (fun table id => if (table.lookup id).isSome then table else setEntry table id 0)
    (restWalk ids links rest).restDepth

end Links

end EntryLayering

open EntryLayering

/-- `Math.max(0, ...depth.values())` -/
def maxDepth (depth : DepthTable) : Nat := maxOf (depth.map Prod.snd)

def entryLayering (entry : Option JsString) (origins : List JsString) (links : List ScreenLink)
    (ids : List JsString) : List (JsString × Int) :=
  let depth := reachedDepth ids links entry origins
  let reachedMax := maxDepth depth
  let rest := ids.filter fun id => (depth.lookup id).isNone
  let restDepth := if 0 < rest.length then restDepth ids links rest else []
  let restMax := maxDepth restDepth
  let base : Int := if 0 < rest.length then restMax + 2 else 0
  let layer := depth.foldl (fun layer e => setEntry layer e.1 (base + reachedMax - e.2)) []
  restDepth.foldl (fun layer e => setEntry layer e.1 ((restMax : Int) - e.2)) layer

/-! ## What a walk from seeds finds -/

namespace EntryLayering

section Walk

variable {ids : List JsString} {links : List ScreenLink} {old : DepthTable}
  {starts : List (JsString × Nat)}

theorem mem_sortIds {id : JsString} {l : List JsString} : id ∈ sortIds l ↔ id ∈ l :=
  List.mem_mergeSort

theorem mem_targetsOf {u v : JsString} : v ∈ targetsOf ids links u ↔
    u ≠ v ∧ u ∈ ids ∧ v ∈ ids ∧ ∃ l ∈ links, l.source = u ∧ l.target = v := by
  rw [targetsOf, mem_sortIds]
  simp only [drawn, List.mem_map, List.mem_filter, decide_eq_true_eq]
  constructor
  · rintro ⟨l, ⟨⟨hl, hsource, htarget, hne⟩, rfl⟩, rfl⟩
    exact ⟨hne, hsource, htarget, l, hl, rfl, rfl⟩
  · rintro ⟨hne, hsource, htarget, l, hl, rfl, rfl⟩
    exact ⟨l, ⟨⟨hl, hsource, htarget, hne⟩, rfl⟩, rfl⟩

variable (ids links old) in
/-- A step to a screen that was not placed before the walk. -/
def Fresh (u v : JsString) : Prop := v ∈ targetsOf ids links u ∧ old.lookup v = none

variable (ids links old starts) in
/-- The walk when the buckets below `d` have been read. -/
structure LayerInv (d : Nat) (w : LayerWalk) : Prop where
  kept : ∀ v k, old.lookup v = some k → w.depth.lookup v = some k
  sound : ∀ v k, old.lookup v = none → w.depth.lookup v = some k →
    Seeded (Fresh ids links old) starts k v ∧ (k ≤ d ∨ (v, k) ∈ starts)
  bucket : ∀ v k, v ∈ (w.buckets.lookup k).getD [] ↔
    old.lookup v = none ∧ w.depth.lookup v = some k

/-- Nothing that is placed is lost. -/
def Grows (w w' : LayerWalk) : Prop := ∀ v k, w.depth.lookup v = some k → w'.depth.lookup v = some k

theorem push_grows (w : LayerWalk) (id : JsString) (d : Nat) : Grows w (w.push id d) := by
  intro v k h
  rw [LayerWalk.push]
  split
  · exact h
  · rename_i hnew
    have hne : v ≠ id := by
      rintro rfl
      exact hnew (by rw [h]; rfl)
    rwa [lookup_setEntry_ne _ _ hne]

theorem lookup_push_isSome (w : LayerWalk) (id : JsString) (d : Nat) :
    ((w.push id d).depth.lookup id).isSome := by
  rw [LayerWalk.push]
  split
  · assumption
  · rw [lookup_setEntry_self]
    rfl

theorem LayerInv.push {d k : Nat} {w : LayerWalk} {id : JsString}
    (h : LayerInv ids links old starts d w)
    (hwalk : old.lookup id = none → Seeded (Fresh ids links old) starts k id)
    (hnear : k ≤ d ∨ (id, k) ∈ starts) : LayerInv ids links old starts d (w.push id k) := by
  refine ⟨fun v j hv => push_grows w id k v j (h.kept v j hv), ?_, ?_⟩
  · intro v j hold hv
    rw [LayerWalk.push] at hv
    split at hv
    · exact h.sound v j hold hv
    · by_cases hid : v = id
      · subst hid
        rw [lookup_setEntry_self] at hv
        obtain rfl := Option.some.inj hv
        exact ⟨hwalk hold, hnear⟩
      · rw [lookup_setEntry_ne _ _ hid] at hv
        exact h.sound v j hold hv
  · intro v j
    rw [LayerWalk.push]
    split
    · exact h.bucket v j
    · rename_i hnew
      have hlook : w.depth.lookup id = none := Option.not_isSome_iff_eq_none.mp hnew
      have hold : old.lookup id = none := by
        cases hold : old.lookup id with
        | none => rfl
        | some m => rw [h.kept id m hold] at hlook; cases hlook
      by_cases hj : j = k
      · subst hj
        simp only [lookup_setEntry_self, Option.getD_some, List.mem_append, List.mem_singleton,
          h.bucket]
        by_cases hid : v = id
        · subst hid
          rw [lookup_setEntry_self]
          exact iff_of_true (Or.inr rfl) ⟨hold, rfl⟩
        · rw [lookup_setEntry_ne _ _ hid]
          exact or_iff_left hid
      · simp only [lookup_setEntry_ne _ _ hj, h.bucket]
        by_cases hid : v = id
        · subst hid
          rw [lookup_setEntry_self, hlook]
          refine iff_of_false (fun hmark => ?_) fun hmark => hj (Option.some.inj hmark.2).symm
          cases hmark.2
        · rw [lookup_setEntry_ne _ _ hid]

/-- What every part of a fold keeps, and what each part has done stays done. -/
theorem foldl_push {α : Type} {f : LayerWalk → α → LayerWalk} {I : LayerWalk → Prop}
    {D : α → LayerWalk → Prop} {l : List α}
    (hf : ∀ w, ∀ x ∈ l, I w → I (f w x) ∧ Grows w (f w x) ∧ D x (f w x))
    (hdone : ∀ x w w', D x w → Grows w w' → D x w') {w : LayerWalk} (h : I w) :
    I (l.foldl f w) ∧ Grows w (l.foldl f w) ∧ ∀ x ∈ l, D x (l.foldl f w) := by
  induction l generalizing w with
  | nil => exact ⟨h, fun v k hv => hv, fun x hx => absurd hx List.not_mem_nil⟩
  | cons x l ih =>
      rw [List.foldl_cons]
      obtain ⟨hx, hgrows, hfirst⟩ := hf w x List.mem_cons_self h
      obtain ⟨hrest, hmore, hall⟩ := ih (fun w y hy => hf w y (List.mem_cons_of_mem x hy)) hx
      refine ⟨hrest, fun v k hv => hmore v k (hgrows v k hv), fun y hy => ?_⟩
      rcases List.mem_cons.mp hy with rfl | hy
      · exact hdone y _ _ hfirst hmore
      · exact hall y hy

/-- The screen is placed. -/
def Placed (v : JsString) (w : LayerWalk) : Prop := (w.depth.lookup v).isSome

theorem Placed.grows {v : JsString} {w w' : LayerWalk} (h : Placed v w) (hgrows : Grows w w') :
    Placed v w' := by
  obtain ⟨k, hk⟩ := Option.isSome_iff_exists.mp h
  exact Option.isSome_iff_exists.mpr ⟨k, hgrows v k hk⟩

/-- Reading a bucket places every target of its screens. -/
theorem LayerInv.walkBucket {d : Nat} {w : LayerWalk} (h : LayerInv ids links old starts d w) :
    LayerInv ids links old starts (d + 1) (walkBucket ids links w d) ∧
      Grows w (walkBucket ids links w d) ∧
      ∀ u v, old.lookup u = none → w.depth.lookup u = some d → v ∈ targetsOf ids links u →
        Placed v (walkBucket ids links w d) := by
  have hnext : LayerInv ids links old starts (d + 1) w :=
    ⟨h.kept, fun v k hold hv => (h.sound v k hold hv).imp_right (Or.imp_left Nat.le_succ_of_le),
      h.bucket⟩
  rw [EntryLayering.walkBucket]
  cases hlist : w.buckets.lookup d with
  | none =>
      refine ⟨hnext, fun v k hv => hv, fun u v hold hu _ => ?_⟩
      have hmem := (h.bucket u d).mpr ⟨hold, hu⟩
      rw [hlist] at hmem
      exact absurd hmem List.not_mem_nil
  | some list =>
      have hread : ∀ id ∈ list, old.lookup id = none ∧ w.depth.lookup id = some d := by
        intro id hid
        exact (h.bucket id d).mp (by rw [hlist]; exact hid)
      have hfold := foldl_push (l := list)
        (f := fun w id => (targetsOf ids links id).foldl (fun w t => w.push t (d + 1)) w)
        (I := LayerInv ids links old starts (d + 1))
        (D := fun id w => ∀ t ∈ targetsOf ids links id, Placed t w)
        (fun w' id hid hw' => foldl_push
        (D := Placed)
          (fun w'' t ht hw'' => ⟨hw''.push
            (fun hold => .step ((h.sound id d (hread id hid).1 (hread id hid).2).1) ⟨ht, hold⟩)
            (Or.inl (Nat.le_refl _)), push_grows w'' t (d + 1), lookup_push_isSome w'' t (d + 1)⟩)
          (fun t _ _ ht hgrows => ht.grows hgrows) hw')
        (fun id _ _ hid hgrows t ht => (hid t ht).grows hgrows) hnext
      refine ⟨hfold.1, hfold.2.1, fun u v hold hu hv => hfold.2.2 u ?_ v hv⟩
      have hmem := (h.bucket u d).mpr ⟨hold, hu⟩
      rwa [hlist] at hmem

variable (ids links old starts) in
/-- Every start has its least number already, and none was placed before the walk. -/
def StartsLeast : Prop :=
  ∀ s d, (s, d) ∈ starts → old.lookup s = none ∧ LeastSeeded (Fresh ids links old) starts d s

variable (ids links old starts) in
/-- All least numbers up to `d` are assigned. -/
def Complete (d : Nat) (w : LayerWalk) : Prop :=
  ∀ v k, k ≤ d → LeastSeeded (Fresh ids links old) starts k v → w.depth.lookup v = some k

theorem LeastSeeded.old_none (hstarts : StartsLeast ids links old starts) {k : Nat} {v : JsString}
    (h : LeastSeeded (Fresh ids links old) starts k v) : old.lookup v = none := by
  rcases h.cases_last with hstart | ⟨j, u, -, -, hop⟩
  · exact (hstarts v k hstart).1
  · exact hop.2

theorem LayerInv.least {d k : Nat} {v : JsString} {w : LayerWalk}
    (hstarts : StartsLeast ids links old starts) (h : LayerInv ids links old starts d w)
    (hv : LeastSeeded (Fresh ids links old) starts k v) (hplaced : Placed v w) (hk : d ≤ k) :
    w.depth.lookup v = some k := by
  obtain ⟨j, hj⟩ := Option.isSome_iff_exists.mp hplaced
  obtain ⟨hseeded, hnear | hstart⟩ := h.sound v j (LeastSeeded.old_none hstarts hv) hj
  · have hle := hv.2 j hseeded
    rw [hj, Nat.le_antisymm (Nat.le_trans hnear hk) hle]
  · rw [hj, ((hstarts v j hstart).2).unique hv]

/-- The walk after its starts, and after so many buckets. -/
theorem layerInv_buckets (hstarts : StartsLeast ids links old starts) (d : Nat) :
    LayerInv ids links old starts d ((List.range d).foldl (walkBucket ids links)
        (openWalk old starts)) ∧
      Complete ids links old starts d ((List.range d).foldl (walkBucket ids links)
        (openWalk old starts)) ∧
      ∀ s k, (s, k) ∈ starts → ((List.range d).foldl (walkBucket ids links)
        (openWalk old starts)).depth.lookup s = some k := by
  induction d with
  | zero =>
      have hinit : LayerInv ids links old starts 0 ⟨old, []⟩ := by
        refine ⟨fun v k hv => hv, fun v k hold hv => ?_, fun v k => ?_⟩
        · rw [hold] at hv
          cases hv
        · refine iff_of_false List.not_mem_nil ?_
          rintro ⟨hold, hv⟩
          rw [hold] at hv
          cases hv
      have hpush : ∀ w : LayerWalk, ∀ s ∈ starts, LayerInv ids links old starts 0 w →
          LayerInv ids links old starts 0 (w.push s.1 s.2) ∧ Grows w (w.push s.1 s.2) ∧
            Placed s.1 (w.push s.1 s.2) :=
        fun w s hs hw => ⟨hw.push (fun _ => .seed hs) (Or.inr hs), push_grows w s.1 s.2,
          lookup_push_isSome w s.1 s.2⟩
      obtain ⟨hinv, -, hplaced⟩ := foldl_push
        (D := fun (s : JsString × Nat) w => Placed s.1 w) hpush
        (fun s w w' hs hgrows => Placed.grows hs hgrows) hinit
      have hseeds : ∀ s k, (s, k) ∈ starts →
          (openWalk old starts).depth.lookup s = some k := fun s k hs =>
        hinv.least hstarts (hstarts s k hs).2 (hplaced (s, k) hs) (Nat.zero_le k)
      refine ⟨hinv, fun v k hk hv => ?_, hseeds⟩
      obtain rfl := Nat.le_zero.mp hk
      rcases hv.cases_last with hstart | ⟨j, u, hzero, -⟩
      · exact hseeds v 0 hstart
      · cases hzero
  | succ d ih =>
      obtain ⟨hinv, hcomplete, hseeds⟩ := ih
      rw [List.range_succ, List.foldl_append, List.foldl_cons, List.foldl_nil]
      obtain ⟨hnext, hgrows, htargets⟩ := hinv.walkBucket
      refine ⟨hnext, fun v k hk hv => ?_, fun s k hs => hgrows s k (hseeds s k hs)⟩
      rcases Nat.le_succ_iff.mp hk with hk | rfl
      · exact hgrows v k (hcomplete v k hk hv)
      · rcases hv.cases_last with hstart | ⟨j, u, hj, hu, hop⟩
        · exact hgrows v _ (hseeds v _ hstart)
        · obtain rfl := Nat.succ.inj hj
          refine hnext.least hstarts hv ?_ (Nat.le_refl _)
          exact htargets u v (LeastSeeded.old_none hstarts hu)
            (hcomplete u d (Nat.le_refl d) hu) hop.1

/-- A walk keeps what was placed and places the other screens at their least numbers. -/
theorem lookup_walk (hstarts : StartsLeast ids links old starts)
    (hids : ∀ s d, (s, d) ∈ starts → s ∈ ids) (v : JsString) (k : Nat) :
    (walk ids links old starts).lookup v = some k ↔
      old.lookup v = some k ∨
        (old.lookup v = none ∧ LeastSeeded (Fresh ids links old) starts k v) := by
  obtain ⟨hinv, hcomplete, -⟩ := layerInv_buckets hstarts (ids.length + maxStart starts + 1)
  have htop : ∀ s d, (s, d) ∈ starts → s ∈ ids ∧ d ≤ maxStart starts := by
    intro s d hs
    refine ⟨hids s d hs, ?_⟩
    have hmem : d ∈ starts.map Prod.snd := List.mem_map_of_mem hs
    exact le_foldl_max (Or.inl hmem)
  have hbound : ∀ j u, LeastSeeded (Fresh ids links old) starts j u →
      j ≤ ids.length + maxStart starts + 1 := by
    intro j u hu
    have hlt := hu.lt_add htop fun a b hop => (mem_targetsOf.mp hop.1).2.2.1
    omega
  constructor
  · intro hv
    cases hold : old.lookup v with
    | some m =>
        have hkept := hinv.kept v m hold
        rw [walk] at hv
        rw [hv] at hkept
        exact Or.inl hkept.symm
    | none =>
        obtain ⟨hseeded, -⟩ := hinv.sound v k hold hv
        obtain ⟨j, -, hj⟩ := hseeded.exists_least
        have hfound := hcomplete v j (hbound j v hj) hj
        rw [walk] at hv
        rw [hv] at hfound
        obtain rfl := Option.some.inj hfound
        exact Or.inr ⟨rfl, hj⟩
  · rintro (hv | ⟨-, hv⟩)
    · exact hinv.kept v k hv
    · exact hcomplete v k (hbound k v hv) hv

theorem nodup_push {w : LayerWalk} (h : (w.depth.map Prod.fst).Nodup) (id : JsString) (d : Nat) :
    ((w.push id d).depth.map Prod.fst).Nodup := by
  rw [LayerWalk.push]
  split
  · exact h
  · exact nodup_keys_setEntry h id d

theorem nodup_walk (h : (old.map Prod.fst).Nodup) (starts : List (JsString × Nat)) :
    ((walk ids links old starts).map Prod.fst).Nodup := by
  have hfold : ∀ {α : Type} (f : LayerWalk → α → LayerWalk) (items : List α) (w : LayerWalk),
      (∀ w x, (w.depth.map Prod.fst).Nodup → ((f w x).depth.map Prod.fst).Nodup) →
        (w.depth.map Prod.fst).Nodup → ((items.foldl f w).depth.map Prod.fst).Nodup := by
    intro α f items
    induction items with
    | nil => exact fun w _ hw => hw
    | cons x items ih => exact fun w hf hw => ih (f w x) hf (hf w x hw)
  refine hfold _ _ _ (fun w d hw => ?_) (hfold _ _ _ (fun w s hw => nodup_push hw s.1 s.2) h)
  rw [walkBucket]
  split
  · exact hw
  · exact hfold _ _ _ (fun w id hw => hfold _ _ _ (fun w t hw => nodup_push hw t (d + 1)) hw) hw

end Walk

/-! ## The band covers the rest -/

section Band

variable {ids : List JsString} {links : List ScreenLink} {rest : List JsString}

variable (rest) in
/-- A table of screens of the rest, each once. -/
def Banded (table : DepthTable) : Prop :=
  (table.map Prod.fst).Nodup ∧ table.map Prod.fst ⊆ rest

theorem Banded.set {table : DepthTable} (h : Banded rest table) {id : JsString} (hid : id ∈ rest)
    (d : Nat) : Banded rest (setEntry table id d) := by
  refine ⟨nodup_keys_setEntry h.1 id d, fun v hv => ?_⟩
  rcases (mem_keys_setEntry _ _ _ _).mp hv with rfl | hv
  · exact hid
  · exact h.2 hv

theorem Banded.foldl {α : Type} {f : DepthTable → α → DepthTable} {items : List α}
    (hf : ∀ table, ∀ x ∈ items, Banded rest table → Banded rest (f table x)) {table : DepthTable}
    (h : Banded rest table) : Banded rest (items.foldl f table) := by
  induction items generalizing table with
  | nil => exact h
  | cons x items ih =>
      exact ih (fun t y hy => hf t y (List.mem_cons_of_mem x hy)) (hf table x List.mem_cons_self h)

theorem banded_restStart (ids : List JsString) (links : List ScreenLink) (rest : List JsString) :
    Banded rest (restStart ids links rest).restDepth := by
  refine Banded.foldl (fun table id hid h => h.set ?_ 0) ⟨List.nodup_nil, List.nil_subset rest⟩
  split at hid
  · exact List.mem_of_mem_filter hid
  · exact List.mem_of_mem_take hid

/-- What one link adds to the next frontier is new, and stands in the table. -/
theorem restLink_cases (d : Nat) (s : List JsString × DepthTable) (t : JsString) :
    restLink rest d s t = s ∨ (t ∈ rest ∧ s.2.lookup t = none ∧
      restLink rest d s t = (s.1 ++ [t], setEntry s.2 t d)) := by
  rw [restLink]
  split
  · exact Or.inl rfl
  · rename_i h
    obtain ⟨hnew, hrest⟩ := not_or.mp h
    exact Or.inr ⟨not_not.mp hrest, Option.not_isSome_iff_eq_none.mp hnew, rfl⟩

/-- The screens of the rest that are still without a row. -/
def restLeft (rest : List JsString) (table : DepthTable) : Nat :=
  unmarked (fun _ => 1) rest (table.map Prod.fst)

/-- Every screen of the next frontier has taken its place from what was left. -/
theorem foldl_restLink {d : Nat} (targets : List JsString) {s : List JsString × DepthTable}
    (h : Banded rest s.2) : Banded rest (targets.foldl (restLink rest d) s).2 ∧
      (targets.foldl (restLink rest d) s).1.length +
          restLeft rest (targets.foldl (restLink rest d) s).2 ≤
        s.1.length + restLeft rest s.2 := by
  induction targets generalizing s with
  | nil => exact ⟨h, Nat.le_refl _⟩
  | cons t targets ih =>
      rw [List.foldl_cons]
      rcases restLink_cases d s t with hsame | ⟨hrest, hnew, hadd⟩
      · rw [hsame]
        exact ih h
      · rw [hadd]
        obtain ⟨hband, hle⟩ := ih (s := (s.1 ++ [t], setEntry s.2 t d)) (h.set hrest d)
        have hnotMem := not_mem_keys_of_lookup hnew
        have hkeys : restLeft rest (setEntry s.2 t d) =
            unmarked (fun _ => 1) rest (s.2.map Prod.fst ++ [t]) := by
          refine unmarked_congr _ rest fun v => ?_
          rw [mem_keys_setEntry, List.mem_append, List.mem_singleton]
          exact or_comm
        have hmark : unmarked (fun _ => 1) rest (s.2.map Prod.fst ++ [t]) + 1 ≤
            unmarked (fun _ => 1) rest (s.2.map Prod.fst) := unmarked_mark hrest hnotMem
        rw [← hkeys] at hmark
        refine ⟨hband, Nat.le_trans hle ?_⟩
        rw [List.length_append, List.length_singleton]
        dsimp only [restLeft] at hmark ⊢
        omega

variable (ids links) in
theorem foldl_frontier {d : Nat} (frontier : List JsString) {s : List JsString × DepthTable}
    (h : Banded rest s.2) :
    Banded rest (frontier.foldl
        (fun s id => (targetsOf ids links id).foldl (restLink rest d) s) s).2 ∧
      (frontier.foldl
          (fun s id => (targetsOf ids links id).foldl (restLink rest d) s) s).1.length +
        restLeft rest (frontier.foldl
          (fun s id => (targetsOf ids links id).foldl (restLink rest d) s) s).2 ≤
        s.1.length + restLeft rest s.2 := by
  induction frontier generalizing s with
  | nil => exact ⟨h, Nat.le_refl _⟩
  | cons id frontier ih =>
      rw [List.foldl_cons]
      obtain ⟨hband, hle⟩ := foldl_restLink (d := d) (targetsOf ids links id) h
      obtain ⟨hrest, hmore⟩ := ih hband
      exact ⟨hrest, Nat.le_trans hmore hle⟩

/-- What is left to do: the screens without a row, and the frontier. -/
def restMeasure (rest : List JsString) (w : RestWalk) : Nat :=
  2 * restLeft rest w.restDepth + if w.frontier = [] then 0 else 1

theorem restTurn_step {w w' : RestWalk} (h : Banded rest w.restDepth)
    (hturn : restTurn ids links rest w = some w') :
    Banded rest w'.restDepth ∧ restMeasure rest w' < restMeasure rest w := by
  rw [restTurn] at hturn
  split at hturn
  · cases hturn
  · rename_i hfrontier
    obtain rfl := Option.some.inj hturn
    obtain ⟨hband, hle⟩ := foldl_frontier ids links (d := w.d + 1) w.frontier
      (s := ([], w.restDepth)) h
    refine ⟨hband, ?_⟩
    dsimp only at hle
    rw [List.length_nil, Nat.zero_add] at hle
    simp only [restMeasure, if_neg hfrontier]
    split
    · omega
    · rename_i hnext
      have hpos := List.length_pos_iff.mpr hnext
      omega

/-- The frontier of the rest runs empty. -/
theorem restWalk_ends (ids : List JsString) (links : List ScreenLink) (rest : List JsString) :
    Banded rest (restWalk ids links rest).restDepth ∧ (restWalk ids links rest).frontier = [] := by
  have hkeep : ∀ w w' : RestWalk, Banded rest w.restDepth →
      restTurn ids links rest w = some w' → Banded rest w'.restDepth :=
    fun _ _ h hturn => (restTurn_step h hturn).1
  have hstart := banded_restStart ids links rest
  have henough : restMeasure rest (restStart ids links rest) ≤ restTurns rest := by
    have hle := unmarked_le (fun _ => 1) rest ((restStart ids links rest).restDepth.map Prod.fst)
    have hsum : (rest.map fun _ => 1).sum = rest.length := by simp
    rw [hsum] at hle
    simp only [restMeasure, restTurns, restLeft]
    split <;> omega
  have hend := loop_stops hkeep (fun _ _ h hturn => (restTurn_step h hturn).2) hstart henough
  refine ⟨loop_invariant hkeep (restTurns rest) hstart, ?_⟩
  rw [restTurn] at hend
  split at hend
  · assumption
  · cases hend

theorem banded_restDepth (ids : List JsString) (links : List ScreenLink) (rest : List JsString) :
    Banded rest (restDepth ids links rest) := by
  refine Banded.foldl (fun table id hid h => ?_) (restWalk_ends ids links rest).1
  split
  · exact h
  · exact h.set hid 0

theorem lookup_restDepth {id : JsString} (h : id ∈ rest) :
    ((restDepth ids links rest).lookup id).isSome := by
  have hfold : ∀ (items : List JsString) (table : DepthTable),
      id ∈ items ∨ (table.lookup id).isSome → ((items.foldl (fun table id =>
        if (table.lookup id).isSome then table else setEntry table id 0) table).lookup
          id).isSome := by
    intro items
    induction items with
    | nil => exact fun table h => h.resolve_left List.not_mem_nil
    | cons x items ih =>
        intro table h
        apply ih
        dsimp only
        by_cases hx : id = x
        · subst hx
          right
          split
          · assumption
          · rw [lookup_setEntry_self]
            rfl
        · rcases h with h | h
          · exact Or.inl ((List.mem_cons.mp h).resolve_left hx)
          · right
            split
            · exact h
            · rwa [lookup_setEntry_ne _ _ hx]
  exact hfold rest _ (Or.inl h)

end Band

end EntryLayering

/-! ## Every picture -/

/-- The screens, where the app starts, what opens screens without being one, and the links. -/
structure Screens where
  ids : List JsString
  entry : Option JsString
  origins : List JsString
  links : List ScreenLink
  distinct : ids.Nodup
  unopened : ∀ o ∈ origins, entry ≠ some o ∧ ∀ l ∈ links, l.target ≠ o

namespace Screens

variable (s : Screens)

/-- A link between two screens of the picture. -/
def Linked (u v : JsString) : Prop :=
  ∃ l ∈ s.links, l.source = u ∧ l.target = v ∧ u ∈ s.ids ∧ v ∈ s.ids

def layer : List (JsString × Int) := entryLayering s.entry s.origins s.links s.ids

/-- Rows below the top row. -/
def DepthIs (id : JsString) (k : Nat) : Prop :=
  ∃ top, IsGreatest {n | ∃ other, s.layer.lookup other = some n} top ∧
    s.layer.lookup id = some (top - k)

/-- At this distance from the entry. -/
def FromEntry (k : Nat) (id : JsString) : Prop :=
  ∃ e, s.entry = some e ∧ AtDistance s.Linked (· = e) k id

/-- The depth of an origin and the distance from it. -/
def FromOrigin (k : Nat) (id : JsString) : Prop :=
  ∃ o ∈ s.origins, o ∈ s.ids ∧ ∃ d l, s.DepthIs o d ∧ AtDistance s.Linked (· = o) l id ∧ k = d + l

/-- What the layers promise. -/
structure LayersHold : Prop where
  every : ∀ id ∈ s.ids, ∃ n : Nat, s.layer.lookup id = some (n : Int)
  entry : ∀ id ∈ s.ids, ∀ k, s.FromEntry k id → s.DepthIs id k
  originAbove : ∀ o ∈ s.origins, o ∈ s.ids → ∀ m,
    IsLeast {k | ∃ t, s.Linked o t ∧ s.FromEntry k t} m → s.DepthIs o (m - 1)
  originAlone : ∀ o ∈ s.origins, o ∈ s.ids →
    (∀ t k, s.Linked o t → ¬ s.FromEntry k t) → s.DepthIs o 0
  fromOrigins : ∀ id ∈ s.ids, (∀ k, ¬ s.FromEntry k id) →
    ∀ k, IsLeast {k | s.FromOrigin k id} k → s.DepthIs id k
  rest : ∀ id ∈ s.ids, (∀ k, ¬ s.FromEntry k id) → (∀ k, ¬ s.FromOrigin k id) →
    ∀ other ∈ s.ids, (∃ k, s.FromEntry k other ∨ s.FromOrigin k other) →
      ∃ n m, s.layer.lookup id = some n ∧ s.layer.lookup other = some m ∧ n + 2 ≤ m

/-! ## The phases -/

variable {s}

theorem mem_targetsOf_iff {u v : JsString} :
    v ∈ targetsOf s.ids s.links u ↔ u ≠ v ∧ s.Linked u v := by
  rw [mem_targetsOf]
  constructor
  · rintro ⟨hne, hu, hv, l, hl, hsource, htarget⟩
    exact ⟨hne, l, hl, hsource, htarget, hu, hv⟩
  · rintro ⟨hne, l, hl, hsource, htarget, hu, hv⟩
    exact ⟨hne, hu, hv, l, hl, hsource, htarget⟩

variable (s) in
/-- The table after the first phase. -/
def placed : DepthTable := entryDepth s.ids s.links s.entry

theorem steps_source_mem {e v : JsString} {k : Nat} (h : Steps s.Linked (· = e) k v)
    (hv : v ∈ s.ids) : e ∈ s.ids := by
  induction h with
  | source h => exact h ▸ hv
  | step _ hop ih =>
      obtain ⟨l, -, -, -, hu, -⟩ := hop
      exact ih hu

theorem startsLeast_single {ids : List JsString} {links : List ScreenLink} (e : JsString) :
    StartsLeast ids links [] [(e, 0)] := by
  intro t d ht
  obtain ⟨rfl, rfl⟩ := Prod.mk.inj (List.mem_singleton.mp ht)
  exact ⟨rfl, .seed (List.mem_singleton_self _), fun j _ => Nat.zero_le j⟩

theorem single_mem {ids : List JsString} {e : JsString} (he : e ∈ ids) (t : JsString) (d : Nat)
    (h : (t, d) ∈ [(e, 0)]) : t ∈ ids := by
  obtain ⟨rfl, rfl⟩ := Prod.mk.inj (List.mem_singleton.mp h)
  exact he

theorem lookup_placed {v : JsString} (hv : v ∈ s.ids) (k : Nat) :
    s.placed.lookup v = some k ↔ s.FromEntry k v := by
  rw [FromEntry]
  unfold placed entryDepth
  cases hentry : s.entry with
  | none => exact ⟨fun h => (nomatch h), fun ⟨e, he, _⟩ => (nomatch he)⟩
  | some e =>
      have hdistance : (∃ e', some e = some e' ∧ AtDistance s.Linked (· = e') k v) ↔
          AtDistance s.Linked (· = e) k v :=
        ⟨fun ⟨_, he, h⟩ => Option.some.inj he ▸ h, fun h => ⟨e, rfl, h⟩⟩
      rw [hdistance]
      by_cases hmem : e ∈ s.ids
      · simp only [if_pos hmem, lookup_walk (startsLeast_single e) (single_mem hmem)]
        rw [leastSeeded_single_iff]
        have hsame : AtDistance (Fresh s.ids s.links []) (· = e) k v ↔
            AtDistance s.Linked (· = e) k v := by
          apply atDistance_iff_of_distinct
          · exact fun u w hop => (mem_targetsOf_iff.mp hop.1).2
          · exact fun u w hne hop => ⟨mem_targetsOf_iff.mpr ⟨Ne.symm hne, hop⟩, rfl⟩
        rw [hsame]
        exact ⟨fun h => h.elim (fun h => nomatch h) And.right, fun h => Or.inr ⟨rfl, h⟩⟩
      · simp only [if_neg hmem]
        exact ⟨fun h => (nomatch h), fun h => absurd (steps_source_mem h.1 hv) hmem⟩

theorem placed_mem {v : JsString} {k : Nat} (h : s.placed.lookup v = some k) : v ∈ s.ids := by
  unfold placed entryDepth at h
  cases hentry : s.entry with
  | none =>
      rw [hentry] at h
      cases h
  | some e =>
      simp only [hentry] at h
      split at h
      · rename_i hmem
        rcases (lookup_walk (startsLeast_single e) (single_mem hmem) v k).mp h with h | ⟨-, h⟩
        · cases h
        · rcases h.cases_last with hstart | ⟨j, u, -, -, hop⟩
          · exact single_mem hmem v k hstart
          · exact (mem_targetsOf.mp hop.1).2.2.1
      · cases h

variable (s) in
def reached : DepthTable := reachedDepth s.ids s.links s.entry s.origins

theorem not_linked_origin {o u : JsString} (ho : o ∈ s.origins) : ¬ s.Linked u o := by
  rintro ⟨l, hl, -, htarget, -⟩
  exact (s.unopened o ho).2 l hl htarget

theorem placed_origin {o : JsString} (ho : o ∈ s.origins) : s.placed.lookup o = none := by
  cases hlook : s.placed.lookup o with
  | none => rfl
  | some k =>
      obtain ⟨e, he, hwalk, -⟩ := (lookup_placed (placed_mem hlook) k).mp hlook
      cases hwalk with
      | source h => exact absurd (h ▸ he) (s.unopened o ho).1
      | step _ hop => exact absurd hop (not_linked_origin ho)

theorem mem_seeds {o : JsString} {d : Nat} : (o, d) ∈ seeds s.ids s.links s.origins s.placed ↔
    o ∈ s.origins ∧ o ∈ s.ids ∧ d = seedOf s.ids s.links s.placed o := by
  rw [seeds, List.mem_map]
  simp only [mem_sortIds, List.mem_filter, decide_eq_true_eq, Prod.mk.injEq]
  constructor
  · rintro ⟨_, ⟨ho, hmem⟩, rfl, rfl⟩
    exact ⟨ho, hmem, rfl⟩
  · rintro ⟨ho, hmem, rfl⟩
    exact ⟨o, ⟨ho, hmem⟩, rfl, rfl⟩

theorem startsLeast_seeds : StartsLeast s.ids s.links s.placed
    (seeds s.ids s.links s.origins s.placed) := by
  intro o d hseed
  obtain ⟨ho, -, rfl⟩ := mem_seeds.mp hseed
  refine ⟨placed_origin ho, .seed hseed, fun j hj => ?_⟩
  cases hj with
  | seed h => exact Nat.le_of_eq (mem_seeds.mp h).2.2.symm
  | step _ hop => exact absurd (mem_targetsOf_iff.mp hop.1).2 (not_linked_origin ho)

theorem lookup_reached (v : JsString) (k : Nat) : s.reached.lookup v = some k ↔
    s.placed.lookup v = some k ∨ (s.placed.lookup v = none ∧
      LeastSeeded (Fresh s.ids s.links s.placed) (seeds s.ids s.links s.origins s.placed) k v) :=
  lookup_walk startsLeast_seeds (fun _ _ h => (mem_seeds.mp h).2.1) v k

theorem reached_mem {v : JsString} {k : Nat} (h : s.reached.lookup v = some k) : v ∈ s.ids := by
  rcases (lookup_reached v k).mp h with h | ⟨-, h⟩
  · exact placed_mem h
  · rcases h.cases_last with hseed | ⟨j, u, -, -, hop⟩
    · exact (mem_seeds.mp hseed).2.1
    · exact (mem_targetsOf.mp hop.1).2.2.1

theorem lookup_reached_origin {o : JsString} (ho : o ∈ s.origins) (hmem : o ∈ s.ids) :
    s.reached.lookup o = some (seedOf s.ids s.links s.placed o) := by
  have hseed := mem_seeds.mpr ⟨ho, hmem, rfl⟩
  exact (lookup_reached o _).mpr (Or.inr (startsLeast_seeds o _ hseed))

theorem mem_placedTargets {o : JsString} (ho : o ∈ s.origins) (k : Nat) :
    k ∈ (targetsOf s.ids s.links o).filterMap (fun t => s.placed.lookup t) ↔
      ∃ t, s.Linked o t ∧ s.FromEntry k t := by
  rw [List.mem_filterMap]
  constructor
  · rintro ⟨t, ht, hk⟩
    obtain ⟨-, hlink⟩ := mem_targetsOf_iff.mp ht
    exact ⟨t, hlink, (lookup_placed (placed_mem hk) k).mp hk⟩
  · rintro ⟨t, hlink, hk⟩
    have ht : t ∈ s.ids := by
      obtain ⟨l, -, -, -, -, ht⟩ := hlink
      exact ht
    refine ⟨t, mem_targetsOf_iff.mpr ⟨?_, hlink⟩, (lookup_placed ht k).mpr hk⟩
    rintro rfl
    exact not_linked_origin ho hlink

theorem seedOf_above {o : JsString} (ho : o ∈ s.origins) {m : Nat}
    (hm : IsLeast {k | ∃ t, s.Linked o t ∧ s.FromEntry k t} m) :
    seedOf s.ids s.links s.placed o = m - 1 := by
  have hmin : ((targetsOf s.ids s.links o).filterMap fun t => s.placed.lookup t).min? = some m := by
    rw [List.min?_eq_some_iff]
    exact ⟨(mem_placedTargets ho m).mpr hm.1, fun k hk => hm.2 ((mem_placedTargets ho k).mp hk)⟩
  rw [seedOf, hmin]

theorem seedOf_alone {o : JsString} (ho : o ∈ s.origins)
    (hnone : ∀ t k, s.Linked o t → ¬ s.FromEntry k t) :
    seedOf s.ids s.links s.placed o = 0 := by
  have hempty : (targetsOf s.ids s.links o).filterMap (fun t => s.placed.lookup t) = [] := by
    rw [List.eq_nil_iff_forall_not_mem]
    intro k hk
    obtain ⟨t, hlink, hentry⟩ := (mem_placedTargets ho k).mp hk
    exact hnone t k hlink hentry
  rw [seedOf, hempty]
  rfl

/-- What the entry reaches, it reaches through what it reaches. -/
theorem placed_of_linked {u v : JsString} {k : Nat} (hlink : s.Linked u v)
    (hu : s.placed.lookup u = some k) : s.placed.lookup v ≠ none := by
  obtain ⟨e, he, hwalk, -⟩ := (lookup_placed (placed_mem hu) k).mp hu
  obtain ⟨j, -, hdist⟩ := (Steps.step hwalk hlink).exists_distance
  have hv : v ∈ s.ids := by
    obtain ⟨l, -, -, -, -, hv⟩ := hlink
    exact hv
  rw [(lookup_placed hv j).mpr ⟨e, he, hdist⟩]
  exact fun h => nomatch h

/-- A walk to a screen that the entry does not reach stays away from what it reaches. -/
theorem steps_fresh {o v : JsString} {l : Nat} (h : AtDistance s.Linked (· = o) l v)
    (hv : s.placed.lookup v = none) : Steps (Fresh s.ids s.links s.placed) (· = o) l v := by
  induction l generalizing v with
  | zero => exact .source h.eq_start
  | succ l ih =>
      obtain ⟨⟨u, hu, hop⟩, hfar⟩ := atDistance_succ_iff.mp h
      have hplaced : s.placed.lookup u = none := by
        cases hlook : s.placed.lookup u with
        | none => rfl
        | some k => exact absurd hv (placed_of_linked hop hlook)
      have hne : u ≠ v := by
        rintro rfl
        exact hfar (near_of_steps hu.1)
      exact .step (ih hu hplaced) ⟨mem_targetsOf_iff.mpr ⟨hne, hop⟩, hv⟩

theorem steps_of_fresh {o v : JsString} {l : Nat}
    (h : Steps (Fresh s.ids s.links s.placed) (· = o) l v) : Steps s.Linked (· = o) l v :=
  h.mono (fun _ _ hop => (mem_targetsOf_iff.mp hop.1).2) fun _ heq => heq

/-- If anything is reached, something stands in the top row. -/
theorem exists_reached_zero {v : JsString} {k : Nat} (h : s.reached.lookup v = some k) :
    ∃ u, s.reached.lookup u = some 0 := by
  by_cases hplaced : ∃ u j, s.placed.lookup u = some j
  · obtain ⟨u, j, hu⟩ := hplaced
    obtain ⟨e, he, hwalk, -⟩ := (lookup_placed (placed_mem hu) j).mp hu
    have hmem := steps_source_mem hwalk (placed_mem hu)
    refine ⟨e, (lookup_reached e 0).mpr (Or.inl ((lookup_placed hmem 0).mpr ⟨e, he, ?_⟩))⟩
    exact atDistance_zero_iff.mpr rfl
  · rcases (lookup_reached v k).mp h with h | ⟨-, h⟩
    · exact absurd ⟨v, k, h⟩ hplaced
    · obtain ⟨o, d, l, hseed, -⟩ := seeded_iff_steps.mp h.1
      obtain ⟨ho, hmem, -⟩ := mem_seeds.mp hseed
      refine ⟨o, ?_⟩
      rw [lookup_reached_origin ho hmem, seedOf_alone ho]
      intro t j hlink hentry
      have ht : t ∈ s.ids := by
        obtain ⟨l, -, -, -, -, ht⟩ := hlink
        exact ht
      exact hplaced ⟨t, j, (lookup_placed ht j).mpr hentry⟩

/-! ## The layers -/

section Layers

variable (s)

def restIds : List JsString := s.ids.filter fun id => (s.reached.lookup id).isNone

def band : DepthTable := if 0 < s.restIds.length then restDepth s.ids s.links s.restIds else []

def base : Int := if 0 < s.restIds.length then maxDepth s.band + 2 else 0

variable {s}

theorem mem_restIds {id : JsString} : id ∈ s.restIds ↔ id ∈ s.ids ∧ s.reached.lookup id = none := by
  rw [restIds, List.mem_filter, Option.isNone_iff_eq_none]

theorem nodup_reached : (s.reached.map Prod.fst).Nodup := by
  apply nodup_walk
  unfold entryDepth
  split
  · exact List.nodup_nil
  · split
    · exact @nodup_walk s.ids s.links [] List.nodup_nil _
    · exact List.nodup_nil

theorem banded_band : Banded s.restIds s.band := by
  rw [band]
  split
  · exact banded_restDepth s.ids s.links s.restIds
  · exact ⟨List.nodup_nil, List.nil_subset _⟩

theorem lookup_band {id : JsString} (h : id ∈ s.restIds) : ∃ d, s.band.lookup id = some d := by
  rw [band, if_pos (List.length_pos_of_mem h)]
  exact Option.isSome_iff_exists.mp (lookup_restDepth h)

theorem le_maxDepth {depth : DepthTable} {id : JsString} {d : Nat}
    (h : depth.lookup id = some d) : d ≤ maxDepth depth :=
  le_foldl_max (Or.inl (List.mem_map_of_mem (mem_of_lookup h)))

theorem lookup_layer (id : JsString) : s.layer.lookup id =
    ((s.band.lookup id).map fun d : Nat => (maxDepth s.band : Int) - (d : Int)).or
      ((s.reached.lookup id).map fun d : Nat => s.base + maxDepth s.reached - (d : Int)) := by
  have hreached := lookup_foldl_setEntry
    (fun d : Nat => s.base + maxDepth s.reached - (d : Int)) (nodup_reached (s := s)) [] id
  have hband := lookup_foldl_setEntry (fun d : Nat => (maxDepth s.band : Int) - (d : Int))
    (banded_band (s := s)).1
    (s.reached.foldl (fun layer e => setEntry layer e.1 (s.base + maxDepth s.reached - e.2)) []) id
  rw [hreached, List.lookup_nil, Option.or_none] at hband
  exact hband

theorem layer_reached {id : JsString} {k : Nat} (h : s.reached.lookup id = some k) :
    s.layer.lookup id = some (s.base + maxDepth s.reached - k) := by
  have hband : s.band.lookup id = none := by
    cases hlook : s.band.lookup id with
    | none => rfl
    | some d =>
        have hrest := banded_band.2 (List.mem_map_of_mem (mem_of_lookup hlook))
        have hnone := (mem_restIds.mp hrest).2
        rw [h] at hnone
        cases hnone
  rw [lookup_layer, hband, h]
  rfl

theorem layer_rest {id : JsString} (h : id ∈ s.restIds) :
    ∃ d ≤ maxDepth s.band, s.layer.lookup id = some ((maxDepth s.band : Int) - d) := by
  obtain ⟨d, hd⟩ := lookup_band h
  refine ⟨d, le_maxDepth hd, ?_⟩
  rw [lookup_layer, hd]
  rfl

theorem base_of_rest {id : JsString} (h : id ∈ s.restIds) : s.base = maxDepth s.band + 2 := by
  rw [base, if_pos (List.length_pos_of_mem h)]

theorem base_nonneg : 0 ≤ s.base := by
  rw [base]
  split <;> omega

/-- A screen with a layer is reached or of the rest. -/
theorem reached_or_rest {id : JsString} (h : id ∈ s.ids) :
    (∃ k, s.reached.lookup id = some k) ∨ id ∈ s.restIds := by
  cases hlook : s.reached.lookup id with
  | some k => exact Or.inl ⟨k, rfl⟩
  | none => exact Or.inr (mem_restIds.mpr ⟨h, hlook⟩)

theorem mem_ids_of_layer {id : JsString} {n : Int} (h : s.layer.lookup id = some n) :
    id ∈ s.ids := by
  rw [lookup_layer] at h
  cases hband : s.band.lookup id with
  | some d =>
      exact (mem_restIds.mp (banded_band.2 (List.mem_map_of_mem (mem_of_lookup hband)))).1
  | none =>
      cases hreached : s.reached.lookup id with
      | some k => exact reached_mem hreached
      | none =>
          rw [hband, hreached] at h
          cases h

theorem isGreatest_top {v : JsString} {k : Nat} (h : s.reached.lookup v = some k) :
    IsGreatest {n | ∃ other, s.layer.lookup other = some n} (s.base + maxDepth s.reached) := by
  constructor
  · obtain ⟨u, hu⟩ := exists_reached_zero h
    refine ⟨u, ?_⟩
    rw [layer_reached hu, Nat.cast_zero, Int.sub_zero]
  · rintro n ⟨other, hother⟩
    rcases reached_or_rest (mem_ids_of_layer hother) with ⟨j, hj⟩ | hrest
    · rw [layer_reached hj] at hother
      obtain rfl := Option.some.inj hother
      omega
    · obtain ⟨d, -, hlayer⟩ := layer_rest hrest
      have hbase := base_of_rest hrest
      rw [hlayer] at hother
      obtain rfl := Option.some.inj hother
      omega

theorem depthIs_of_reached {id : JsString} {k : Nat} (h : s.reached.lookup id = some k) :
    s.DepthIs id k := ⟨_, isGreatest_top h, layer_reached h⟩

theorem depthIs_iff {id : JsString} {j k : Nat} (h : s.reached.lookup id = some j) :
    s.DepthIs id k ↔ k = j := by
  constructor
  · rintro ⟨top, htop, hlayer⟩
    rw [htop.unique (isGreatest_top h), layer_reached h] at hlayer
    have heq := Option.some.inj hlayer
    omega
  · rintro rfl
    exact depthIs_of_reached h

/-- Reached from an origin, by the depth of the origin and the distance from it. -/
theorem fromOrigin_iff {k : Nat} {id : JsString} : s.FromOrigin k id ↔
    ∃ o d l, (o, d) ∈ seeds s.ids s.links s.origins s.placed ∧
      AtDistance s.Linked (· = o) l id ∧ k = d + l := by
  constructor
  · rintro ⟨o, ho, hmem, d, l, hdepth, hdist, rfl⟩
    obtain rfl := (depthIs_iff (lookup_reached_origin ho hmem)).mp hdepth
    exact ⟨o, _, l, mem_seeds.mpr ⟨ho, hmem, rfl⟩, hdist, rfl⟩
  · rintro ⟨o, d, l, hseed, hdist, rfl⟩
    obtain ⟨ho, hmem, rfl⟩ := mem_seeds.mp hseed
    exact ⟨o, ho, hmem, _, l, depthIs_of_reached (lookup_reached_origin ho hmem), hdist, rfl⟩

theorem fromOrigin_of_seeded {j : Nat} {id : JsString}
    (h : Seeded (Fresh s.ids s.links s.placed) (seeds s.ids s.links s.origins s.placed) j id) :
    ∃ i ≤ j, s.FromOrigin i id := by
  obtain ⟨o, d, l, hseed, hwalk, rfl⟩ := seeded_iff_steps.mp h
  obtain ⟨i, hi, hdist⟩ := (steps_of_fresh hwalk).exists_distance
  exact ⟨d + i, by omega, fromOrigin_iff.mpr ⟨o, d, i, hseed, hdist, rfl⟩⟩

/-- For a screen the entry does not reach, the least way from an origin is its number. -/
theorem leastSeeded_of_fromOrigin {k : Nat} {id : JsString} (hnone : s.placed.lookup id = none)
    (h : IsLeast {k | s.FromOrigin k id} k) : LeastSeeded (Fresh s.ids s.links s.placed)
      (seeds s.ids s.links s.origins s.placed) k id := by
  obtain ⟨o, d, l, hseed, hdist, rfl⟩ := fromOrigin_iff.mp h.1
  refine ⟨seeded_iff_steps.mpr ⟨o, d, l, hseed, steps_fresh hdist hnone, rfl⟩, fun j hj => ?_⟩
  obtain ⟨i, hi, horigin⟩ := fromOrigin_of_seeded hj
  exact Nat.le_trans (h.2 horigin) hi

theorem placed_eq_none_iff {id : JsString} (hid : id ∈ s.ids) :
    s.placed.lookup id = none ↔ ∀ k, ¬ s.FromEntry k id := by
  rw [Option.eq_none_iff_forall_ne_some]
  exact forall_congr' fun k => not_congr (lookup_placed hid k)

/-- The layers of every picture keep their promises. -/
theorem layersHold (s : Screens) : s.LayersHold := by
  refine ⟨?_, ?_, ?_, ?_, ?_, ?_⟩
  · intro id hid
    have hbase := base_nonneg (s := s)
    rcases reached_or_rest hid with ⟨k, hk⟩ | hrest
    · have hle := le_maxDepth hk
      refine ⟨(s.base + maxDepth s.reached - k).toNat, ?_⟩
      rw [layer_reached hk, Int.toNat_of_nonneg (by omega)]
    · obtain ⟨d, hle, hlayer⟩ := layer_rest hrest
      refine ⟨maxDepth s.band - d, ?_⟩
      rw [hlayer, Nat.cast_sub hle]
  · intro id hid k hk
    exact depthIs_of_reached ((lookup_reached id k).mpr (Or.inl ((lookup_placed hid k).mpr hk)))
  · intro o ho hmem m hm
    rw [← seedOf_above ho hm]
    exact depthIs_of_reached (lookup_reached_origin ho hmem)
  · intro o ho hmem hnone
    rw [← seedOf_alone ho hnone]
    exact depthIs_of_reached (lookup_reached_origin ho hmem)
  · intro id hid hentry k hk
    have hnone := (placed_eq_none_iff hid).mpr hentry
    exact depthIs_of_reached
      ((lookup_reached id k).mpr (Or.inr ⟨hnone, leastSeeded_of_fromOrigin hnone hk⟩))
  · intro id hid hentry horigin other hother hreach
    have hrest : id ∈ s.restIds := by
      refine mem_restIds.mpr ⟨hid, ?_⟩
      cases hlook : s.reached.lookup id with
      | none => rfl
      | some k =>
          rcases (lookup_reached id k).mp hlook with hplaced | ⟨-, hseeded⟩
          · exact absurd ((lookup_placed hid k).mp hplaced) (hentry k)
          · obtain ⟨i, -, hi⟩ := fromOrigin_of_seeded hseeded.1
            exact absurd hi (horigin i)
    have hfound : ∃ j, s.reached.lookup other = some j := by
      cases hplaced : s.placed.lookup other with
      | some j => exact ⟨j, (lookup_reached other j).mpr (Or.inl hplaced)⟩
      | none =>
          obtain ⟨k, hk | hk⟩ := hreach
          · exact absurd hk ((placed_eq_none_iff hother).mp hplaced k)
          · obtain ⟨o, d, l, hseed, hdist, rfl⟩ := fromOrigin_iff.mp hk
            obtain ⟨j, -, hj⟩ := (seeded_iff_steps.mpr
              ⟨o, d, l, hseed, steps_fresh hdist hplaced, rfl⟩).exists_least
            exact ⟨j, (lookup_reached other j).mpr (Or.inr ⟨hplaced, hj⟩)⟩
    obtain ⟨j, hj⟩ := hfound
    obtain ⟨d, -, hlayer⟩ := layer_rest hrest
    have hle := le_maxDepth hj
    have hbase := base_of_rest hrest
    exact ⟨_, _, hlayer, layer_reached hj, by omega⟩

end Layers

end Screens

end AfyxGraph.Ui
