import Mathlib.Data.List.Nodup
import Mathlib.Data.List.Perm.Subperm

/-! # First come, first served

Chains are written with the last node first. What may follow a chain is offered in an order, and
may depend on the whole chain. Each node goes to the chain that offers it first, and later offers of
it are passed over. A queue of the chains that have not been taken up yet finds the ones that come
first, and when it is used up it has held them all.
-/

namespace AfyxGraph.Core

universe u

variable {ν : Type u} [DecidableEq ν]

/-- A chain comes sooner if it is shorter, or parts from one of its length by an earlier offer. -/
def Sooner (offers : List ν → List ν) : List ν → List ν → Prop
  | [], q => q ≠ []
  | _ :: _, [] => False
  | v :: p, w :: q => Sooner offers p q ∨ p = q ∧ (offers p).idxOf v < (offers p).idxOf w

/-- A chain comes first if it extends one that does, and no sooner one that does offers its last
node. -/
def FirstCome (offers : List ν → List ν) : List ν → Prop
  | [] => True
  | v :: p => FirstCome offers p ∧ v ∈ offers p ∧
      ∀ q, (_ : q.length ≤ p.length) → FirstCome offers q → v ∈ offers q → ¬ Sooner offers q p
termination_by c => c.length
decreasing_by
  all_goals simp only [List.length_cons]
  all_goals omega

variable {offers : List ν → List ν} {p q : List ν} {v w : ν}

/-! ## The order of chains -/

theorem Sooner.length_le (h : Sooner offers p q) : p.length ≤ q.length := by
  induction p generalizing q with
  | nil => exact Nat.zero_le _
  | cons v p ih =>
      cases q with
      | nil => exact h.elim
      | cons w q =>
          rcases h with h | ⟨rfl, -⟩
          · exact Nat.succ_le_succ (ih h)
          · exact Nat.le_refl _

theorem sooner_of_length_lt (h : p.length < q.length) : Sooner offers p q := by
  induction p generalizing q with
  | nil => exact List.ne_nil_of_length_pos h
  | cons v p ih =>
      cases q with
      | nil => exact absurd h (Nat.not_lt_zero _)
      | cons w q => exact .inl (ih (Nat.lt_of_succ_lt_succ h))

theorem not_sooner_self (p : List ν) : ¬ Sooner offers p p := by
  induction p with
  | nil => exact fun h => h rfl
  | cons v p ih =>
      rintro (h | ⟨-, hlt⟩)
      · exact ih h
      · exact Nat.lt_irrefl _ hlt

theorem Sooner.asymm (h : Sooner offers p q) : ¬ Sooner offers q p := by
  induction p generalizing q with
  | nil =>
      cases q with
      | nil => exact absurd rfl h
      | cons w q => exact id
  | cons v p ih =>
      cases q with
      | nil => exact h.elim
      | cons w q =>
          rcases h with h | ⟨rfl, hlt⟩
          · rintro (h' | ⟨rfl, -⟩)
            · exact ih h h'
            · exact not_sooner_self _ h
          · rintro (h' | ⟨-, hlt'⟩)
            · exact not_sooner_self _ h'
            · exact Nat.lt_asymm hlt hlt'

/-! ## Chains that come first -/

theorem firstCome_nil : FirstCome offers [] := by
  rw [FirstCome]
  trivial

theorem firstCome_cons_iff : FirstCome offers (v :: p) ↔ FirstCome offers p ∧ v ∈ offers p ∧
    ∀ q, FirstCome offers q → v ∈ offers q → ¬ Sooner offers q p := by
  rw [FirstCome]
  refine and_congr_right fun _ => and_congr_right fun _ => ?_
  exact ⟨fun h q hq hv hsooner => h q hsooner.length_le hq hv hsooner, fun h q _ => h q⟩

/-- Of two chains that come first, one comes sooner. -/
theorem FirstCome.sooner_or (hp : FirstCome offers p) (hq : FirstCome offers q) (hne : p ≠ q) :
    Sooner offers p q ∨ Sooner offers q p := by
  induction p generalizing q with
  | nil => exact .inl hne.symm
  | cons v p ih =>
      cases q with
      | nil => exact .inr hne
      | cons w q =>
          obtain ⟨hp, hv, -⟩ := firstCome_cons_iff.mp hp
          obtain ⟨hq, hw, -⟩ := firstCome_cons_iff.mp hq
          by_cases heq : p = q
          · subst heq
            have hidx : (offers p).idxOf v ≠ (offers p).idxOf w := by
              intro hsame
              rw [List.idxOf_inj hv] at hsame
              exact hne (by rw [hsame])
            rcases Nat.lt_or_gt_of_ne hidx with hlt | hlt
            · exact .inl (.inr ⟨rfl, hlt⟩)
            · exact .inr (.inr ⟨rfl, hlt⟩)
          · exact (ih hp hq heq).imp .inl .inl

/-- One chain comes first to a node. -/
theorem FirstCome.unique (hp : FirstCome offers (v :: p)) (hq : FirstCome offers (v :: q)) :
    p = q := by
  obtain ⟨hp, hvp, hfirstp⟩ := firstCome_cons_iff.mp hp
  obtain ⟨hq, hvq, hfirstq⟩ := firstCome_cons_iff.mp hq
  by_contra hne
  rcases hp.sooner_or hq hne with h | h
  · exact hfirstq p hp hvp h
  · exact hfirstp q hq hvq h

theorem FirstCome.of_append (hp : FirstCome offers (q ++ p)) : FirstCome offers p := by
  induction q with
  | nil => exact hp
  | cons w q ih => exact ih (firstCome_cons_iff.mp hp).1

theorem FirstCome.nodup (hp : FirstCome offers p) : p.Nodup := by
  induction p with
  | nil => exact List.nodup_nil
  | cons v p ih =>
      refine List.nodup_cons.mpr ⟨fun hv => ?_, ih (firstCome_cons_iff.mp hp).1⟩
      obtain ⟨before, after, rfl⟩ := List.append_of_mem hv
      have hsame := hp.unique (FirstCome.of_append (firstCome_cons_iff.mp hp).1)
      have hlength := congrArg List.length hsame
      simp only [List.length_append, List.length_cons] at hlength
      omega

/-! ## The queue -/

/-- The nodes that some chains lead to. -/
def taken (chains : List (List ν)) : List ν := chains.filterMap List.head?

omit [DecidableEq ν] in
theorem mem_taken {chains : List (List ν)} : v ∈ taken chains ↔ ∃ p, v :: p ∈ chains := by
  rw [taken, List.mem_filterMap]
  constructor
  · rintro ⟨c, hc, hhead⟩
    cases c with
    | nil => exact absurd hhead (by simp)
    | cons w p =>
        obtain rfl := Option.some.inj hhead
        exact ⟨p, hc⟩
  · rintro ⟨p, hp⟩
    exact ⟨v :: p, hp, rfl⟩

/-- What a chain offers that has not been taken. -/
def untaken (offers : List ν → List ν) (chains : List (List ν)) (c : List ν) : List ν :=
  (offers c).filter (· ∉ taken chains)

/-- `done` are the chains that have been taken up, `line` the ones in the queue. -/
structure FirstServed (offers : List ν → List ν) (done line : List (List ν)) : Prop where
  root : [] ∈ done
  first : ∀ c ∈ done ++ line, FirstCome offers c
  ordered : (done ++ line).Pairwise (Sooner offers)
  born : ∀ v p, v :: p ∈ done ++ line → p ∈ done
  closed : ∀ p ∈ done, ∀ v ∈ offers p, v ∈ taken (done ++ line)

variable {done line : List (List ν)} {c : List ν}

theorem FirstServed.mem_done (h : FirstServed offers done (c :: line))
    (hp : p ∈ done ++ c :: line) (hsooner : Sooner offers p c) : p ∈ done := by
  rcases List.mem_append.mp hp with hp | hp
  · exact hp
  · rcases List.mem_cons.mp hp with rfl | hp
    · exact absurd hsooner (not_sooner_self p)
    · have hordered := (List.pairwise_append.mp h.ordered).2.1
      exact absurd hsooner ((List.pairwise_cons.mp hordered).1 p hp).asymm

/-- Chains that come first and sooner than the head have been taken up. -/
theorem FirstServed.served (h : FirstServed offers done (c :: line)) (hp : FirstCome offers p)
    (hsooner : Sooner offers p c) : p ∈ done := by
  induction p with
  | nil => exact h.root
  | cons w p ih =>
      cases c with
      | nil => exact hsooner.elim
      | cons v c =>
          have hfirst := (firstCome_cons_iff.mp hp).1
          have hdone : p ∈ done := by
            refine ih hfirst (sooner_of_length_lt ?_)
            have hle := hsooner.length_le
            simp only [List.length_cons] at hle ⊢
            omega
          obtain ⟨q, hq⟩ := mem_taken.mp (h.closed p hdone w (firstCome_cons_iff.mp hp).2.1)
          obtain rfl := hp.unique (h.first _ hq)
          exact h.mem_done hq hsooner

omit [DecidableEq ν] in
theorem taken_append (chains more : List (List ν)) :
    taken (chains ++ more) = taken chains ++ taken more := List.filterMap_append

omit [DecidableEq ν] in
theorem taken_map_cons (vs : List ν) (c : List ν) : taken (vs.map (· :: c)) = vs := by
  rw [taken, List.filterMap_map]
  exact List.filterMap_some

theorem pairwise_idxOf {vs : List ν} (h : vs.Nodup) :
    vs.Pairwise fun v w => vs.idxOf v < vs.idxOf w := by
  rw [List.pairwise_iff_getElem]
  intro i j hi hj hlt
  rwa [h.idxOf_getElem, h.idxOf_getElem]

/-- Offers of one chain that have not been taken come in their order. -/
theorem ordered_extend (hnodup : (offers c).Nodup) (chains : List (List ν)) :
    ((untaken offers chains c).map (· :: c)).Pairwise (Sooner offers) := by
  rw [List.pairwise_map]
  exact ((pairwise_idxOf hnodup).filter _).imp fun hlt => .inr ⟨rfl, hlt⟩

theorem firstServed_start (hnodup : (offers []).Nodup) :
    FirstServed offers [[]] ((offers []).map (· :: [])) := by
  have hfirst : ∀ v ∈ offers [], FirstCome offers [v] := by
    intro v hv
    refine firstCome_cons_iff.mpr ⟨firstCome_nil, hv, fun q _ _ hsooner => ?_⟩
    cases q with
    | nil => exact hsooner rfl
    | cons w q => exact hsooner
  constructor
  · exact List.mem_singleton_self _
  · intro c hc
    rcases List.mem_cons.mp hc with rfl | hc
    · exact firstCome_nil
    · obtain ⟨v, hv, rfl⟩ := List.mem_map.mp hc
      exact hfirst v hv
  · refine List.pairwise_cons.mpr ⟨fun c hc => ?_, ?_⟩
    · obtain ⟨v, -, rfl⟩ := List.mem_map.mp hc
      exact List.cons_ne_nil v []
    · refine List.pairwise_map.mpr ?_
      exact (pairwise_idxOf hnodup).imp fun hlt => .inr ⟨rfl, hlt⟩
  · intro v p hp
    rcases List.mem_cons.mp hp with hp | hp
    · exact absurd hp (List.cons_ne_nil v p)
    · obtain ⟨w, -, heq⟩ := List.mem_map.mp hp
      rw [← (List.cons.inj heq).2]
      exact List.mem_singleton_self _
  · intro p hp v hv
    obtain rfl := List.mem_singleton.mp hp
    rw [taken_append, taken_map_cons]
    exact List.mem_append_right _ hv

/-- The head is taken up. -/
theorem FirstServed.turn (h : FirstServed offers done (c :: line)) (hnodup : (offers c).Nodup) :
    FirstServed offers (done ++ [c])
      (line ++ (untaken offers (done ++ c :: line) c).map (· :: c)) := by
  have hsplit : done ++ [c] ++ (line ++ (untaken offers (done ++ c :: line) c).map (· :: c)) =
      (done ++ c :: line) ++ (untaken offers (done ++ c :: line) c).map (· :: c) := by simp
  have hhead : c ∈ done ++ c :: line := List.mem_append_right _ List.mem_cons_self
  constructor
  · exact List.mem_append_left _ h.root
  · rw [hsplit]
    intro d hd
    rcases List.mem_append.mp hd with hd | hd
    · exact h.first d hd
    · obtain ⟨v, hv, rfl⟩ := List.mem_map.mp hd
      obtain ⟨hoffer, hnew⟩ := List.mem_filter.mp hv
      refine firstCome_cons_iff.mpr ⟨h.first c hhead, hoffer, fun q hq hvq hsooner => ?_⟩
      exact of_decide_eq_true hnew (h.closed q (h.served hq hsooner) v hvq)
  · rw [hsplit]
    refine List.pairwise_append.mpr ⟨h.ordered, ordered_extend hnodup _, fun d hd e he => ?_⟩
    obtain ⟨v, -, rfl⟩ := List.mem_map.mp he
    cases d with
    | nil => exact List.cons_ne_nil v c
    | cons w p =>
        have hborn := h.born w p hd
        exact .inl ((List.pairwise_append.mp h.ordered).2.2 p hborn c List.mem_cons_self)
  · rw [hsplit]
    intro v p hp
    rcases List.mem_append.mp hp with hp | hp
    · exact List.mem_append_left _ (h.born v p hp)
    · obtain ⟨w, -, heq⟩ := List.mem_map.mp hp
      rw [← (List.cons.inj heq).2]
      exact List.mem_append_right _ (List.mem_singleton_self _)
  · rw [hsplit, taken_append, taken_map_cons]
    intro p hp v hv
    rcases List.mem_append.mp hp with hp | hp
    · exact List.mem_append_left _ (h.closed p hp v hv)
    · obtain rfl := List.mem_singleton.mp hp
      by_cases hnew : v ∈ taken (done ++ p :: line)
      · exact List.mem_append_left _ hnew
      · exact List.mem_append_right _ (List.mem_filter.mpr ⟨hv, decide_eq_true hnew⟩)

theorem FirstServed.nil_not_mem (h : FirstServed offers done line) : [] ∉ line := by
  intro hline
  exact (List.pairwise_append.mp h.ordered).2.2 [] h.root [] hline rfl

/-- A queue that is used up has held the chains that come first. -/
theorem FirstServed.mem_done_iff (h : FirstServed offers done []) :
    p ∈ done ↔ FirstCome offers p := by
  constructor
  · exact fun hp => h.first p (List.mem_append_left _ hp)
  · intro hp
    induction p with
    | nil => exact h.root
    | cons v p ih =>
        obtain ⟨hfirst, hv, -⟩ := firstCome_cons_iff.mp hp
        obtain ⟨q, hq⟩ := mem_taken.mp (h.closed p (ih hfirst) v hv)
        obtain rfl := hp.unique (h.first _ hq)
        exact List.append_nil done ▸ hq

/-- A chain passes through nodes that have been taken. -/
theorem FirstServed.subset_taken (h : FirstServed offers done line) (hp : p ∈ done ++ line) :
    p ⊆ taken (done ++ line) := by
  induction p with
  | nil => exact List.nil_subset _
  | cons v p ih =>
      refine List.cons_subset.mpr ⟨mem_taken.mpr ⟨p, hp⟩, ?_⟩
      exact ih (List.mem_append_left _ (h.born v p hp))

theorem FirstServed.length_le (h : FirstServed offers done line) (hp : p ∈ done ++ line) :
    p.length ≤ (taken (done ++ line)).length :=
  (List.subperm_of_subset (h.first p hp).nodup (h.subset_taken hp)).length_le

/-- No node is taken twice. -/
theorem FirstServed.nodup_taken (h : FirstServed offers done line) :
    (taken (done ++ line)).Nodup := by
  refine List.pairwise_filterMap.mpr (h.ordered.imp_of_mem fun {c d} hc hd hsooner => ?_)
  rintro v hv w hw rfl
  cases c with
  | nil => exact absurd hv (by simp)
  | cons v' p =>
      cases d with
      | nil => exact absurd hw (by simp)
      | cons w' q =>
          obtain rfl := Option.some.inj hv
          obtain rfl := Option.some.inj hw
          obtain rfl := (h.first _ hc).unique (h.first _ hd)
          exact not_sooner_self _ hsooner

/-! ## Where the first chain is as good as any -/

/-- A chain of offers. -/
def Offered (offers : List ν → List ν) : List ν → Prop
  | [] => True
  | v :: p => Offered offers p ∧ v ∈ offers p

theorem FirstCome.length_le (hp : FirstCome offers (v :: p)) (hq : FirstCome offers q)
    (hv : v ∈ offers q) : p.length ≤ q.length := by
  by_contra hlt
  exact (firstCome_cons_iff.mp hp).2.2 q hq hv (sooner_of_length_lt (by omega))

/-- If the first chain to a node offers what longer ones do, one comes first to every node. -/
theorem FirstServed.exists_firstCome (h : FirstServed offers done [])
    (hmore : ∀ w p q, FirstCome offers (w :: p) → Offered offers (w :: q) →
      p.length ≤ q.length → offers (w :: q) ⊆ offers (w :: p)) (hq : Offered offers (v :: q)) :
    ∃ p, FirstCome offers (v :: p) ∧ p.length ≤ q.length := by
  have hnext : ∀ w r, FirstCome offers r → w ∈ offers r →
      ∃ p, FirstCome offers (w :: p) ∧ p.length ≤ r.length := by
    intro w r hr hw
    obtain ⟨p, hp⟩ := mem_taken.mp (h.closed r (h.mem_done_iff.mpr hr) w hw)
    have hfirst := h.first _ hp
    exact ⟨p, hfirst, hfirst.length_le hr hw⟩
  induction q generalizing v with
  | nil => exact hnext v [] firstCome_nil hq.2
  | cons w q ih =>
      obtain ⟨r, hr, hle⟩ := ih hq.1
      obtain ⟨p, hp, hlength⟩ := hnext v _ hr (hmore w r q hr hq.1 hle hq.2)
      exact ⟨p, hp, Nat.le_trans hlength (Nat.succ_le_succ hle)⟩

end AfyxGraph.Core
