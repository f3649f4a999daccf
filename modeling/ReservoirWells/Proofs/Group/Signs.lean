import ReservoirWells.Proofs.Group.Agreement
import ReservoirWells.Proofs.Group.Correction
import ReservoirWells.Proofs.Group.Weighting
import ReservoirWells.Proofs.Group.Writes

/-! # Signs — production is negative and injection is positive

    Rates and rate targets are negative for producers and positive for injectors.  A caller who
    keeps to that gets group controls that keep to it as well: guide rates and efficiency factors do
    not turn a sign, targets that limit anything are not negative, and what is injected again is
    production with its sign changed.  There is one exception.  A refresh shares what the producers
    under individual control leave of a target, and when they produce more than the target, that is
    less than nothing (`Hierarchy.Overdrawn`).

    * `Order.Signed` — what is true of every order of a plan;
    * `Forest.push_signed` — a push of a target that is not negative;
    * `Site.plan_signed` — the plan of any operation;
    * `Site.record_signed` — hence whatever is written in a list of calls, and exactly what a refresh
      that is overdrawn gets wrong. -/

namespace ReservoirWells

variable {α : Type} [ExactScalar α]

/-! ## Signs -/

/-- The rate or the rate target has the sign of the kind of well. -/
def WellKind.Suits (kind : WellKind) (rate : α) : Prop :=
  match kind with
  | .producer => rate ≤ 0
  | .injector => 0 ≤ rate

instance (kind : WellKind) (rate : α) : Decidable (kind.Suits rate) :=
  match kind with
  | .producer => inferInstanceAs (Decidable (rate ≤ 0))
  | .injector => inferInstanceAs (Decidable (0 ≤ rate))

theorem WellKind.suits_zero (kind : WellKind) : kind.Suits (0 : α) := by
  cases kind with
  | producer => exact le_refl 0
  | injector => exact le_refl 0

/-- A share that is not negative makes a target of the right sign. -/
theorem Direction.suits_wellTarget (d : Direction) {share : α} (hshare : 0 ≤ share)
    (efficiency : Positive α) : d.wellKind.Suits (d.wellTarget share efficiency.val) := by
  cases d with
  | production => exact div_nonpos_of_nonpos_of_nonneg (neg_nonpos.mpr hshare) efficiency.pos.le
  | injection => exact div_nonneg hshare efficiency.pos.le

/-- A well that the order puts under a control gets a target of the right sign. -/
def Order.Signed (h : Hierarchy α) : Order α → Prop
  | .install id c => ∀ n, h.node id = .ok n → ∀ a, n.attachment? = some a → a.kind.Suits c.target
  | _ => True

/-! ## Guide rates -/

theorem Node.share_nonneg (n : Node α) (d : Direction) (onlyGroup : Bool) :
    0 ≤ n.share d onlyGroup := by
  rw [share]
  split
  · exact le_refl 0
  · exact n.specs.guideRate_nonneg d

/-- The guide rates of a forest only add to a sum. -/
theorem Forest.le_guideTotal (d : Direction) (onlyGroup : Bool) (f : Forest α) :
    ∀ sum : α, sum ≤ f.guideTotal d onlyGroup sum := by
  induction f with
  | nil => intro sum; exact le_refl sum
  | well id n next ih =>
      intro sum
      exact (le_add_of_nonneg_right (n.share_nonneg d onlyGroup)).trans (ih _)
  | group id n below next ihb ihn =>
      intro sum
      rw [guideTotal]
      split
      · exact ihn sum
      · exact (le_add_of_nonneg_right (ihb 0)).trans (ihn _)

theorem Forest.guideTotal_nonneg (d : Direction) (onlyGroup : Bool) (f : Forest α) :
    0 ≤ f.guideTotal d onlyGroup 0 := f.le_guideTotal d onlyGroup 0

/-- A sum that is there beforehand can be added afterwards. -/
theorem Forest.guideTotal_add (d : Direction) (onlyGroup : Bool) (f : Forest α) (sum : α) :
    f.guideTotal d onlyGroup sum = sum + f.guideTotal d onlyGroup 0 := by
  induction f generalizing sum with
  | nil => exact (add_zero sum).symm
  | well id n next ih =>
      rw [guideTotal, guideTotal, ih, ih (0 + n.share d onlyGroup), zero_add, add_assoc]
  | group id n below next ihb ihn =>
      rw [guideTotal, guideTotal]
      split
      · exact ihn sum
      · rw [ihn, ihn (0 + below.guideTotal d onlyGroup 0), zero_add, add_assoc]

/-- The nodes under group control bring in no more than all nodes. -/
theorem Forest.guideTotal_true_le (d : Direction) (f : Forest α) :
    f.guideTotal d true 0 ≤ f.guideTotal d false 0 := by
  induction f with
  | nil => exact le_refl 0
  | well id n next ih =>
      have hself : n.share d true ≤ n.share d false := by
        cases hind : n.individual with
        | true =>
            rw [Node.share, hind]
            exact n.share_nonneg d false
        | false =>
            rw [Node.share, Node.share, hind]
            exact le_refl _
      rw [guideTotal, guideTotal, guideTotal_add, guideTotal_add d false, zero_add, zero_add]
      exact add_le_add hself ih
  | group id n below next ihb ihn =>
      rw [guideTotal, guideTotal, guideTotal_add, guideTotal_add d false]
      refine add_le_add ?_ ihn
      rw [Bool.and_false, Bool.false_and, if_neg Bool.false_ne_true]
      split
      · exact add_nonneg (le_refl 0) (below.guideTotal_nonneg d false)
      · exact add_le_add (le_refl 0) ihb

/-- A well among siblings brings in no more than all of them. -/
theorem Forest.share_le_guideTotal {h : Hierarchy α} (d : Direction) (onlyGroup : Bool)
    {f : Forest α} (hf : f.IsPart h) {c : Nat × Node α} (hc : c ∈ f.siblings)
    (hwell : c.2.isGroup = false) :
    ∀ {sum : α}, 0 ≤ sum → c.2.share d onlyGroup ≤ f.guideTotal d onlyGroup sum := by
  induction f with
  | nil => cases hc
  | well id n next ih =>
      intro sum hsum
      rw [guideTotal]
      rcases List.mem_cons.mp hc with rfl | hnext
      · exact (le_add_of_nonneg_left hsum).trans (next.le_guideTotal d onlyGroup _)
      · exact ih hf.2.2 hnext (add_nonneg hsum (n.share_nonneg d onlyGroup))
  | group id n below next _ ihn =>
      intro sum hsum
      obtain ⟨_, hgroup, _, _, hnextPart⟩ := hf
      rw [guideTotal]
      rcases List.mem_cons.mp hc with rfl | hnext
      · rw [hgroup] at hwell
        cases hwell
      · refine ihn hnextPart hnext ?_
        split
        · exact hsum
        · exact add_nonneg hsum (below.guideTotal_nonneg d onlyGroup)

/-! ## Pushes -/

/-- A well that takes a share that is not negative gets a target of the right sign. -/
theorem Node.take_signed {h : Hierarchy α} {id : Nat} {n : Node α} (hn : h.node id = .ok n)
    {a : ActivePhases} {mode : Mode} {onlyGroup : Bool} {share : α} (hshare : 0 ≤ share) :
    ∀ o ∈ n.take id a mode onlyGroup share, o.Signed h := by
  intro o ho
  obtain ⟨hkind, ⟨c, hc, rfl⟩ | ⟨e, _, rfl⟩⟩ := Node.mem_take ho
  · intro m hm attachment hattachment
    rw [hn] at hm
    cases hm
    have hsame : attachment.kind = mode.direction.wellKind := by
      rw [Node.isKind, hattachment] at hkind
      exact Option.some.inj (beq_iff_eq.mp hkind)
    rw [hsame, target_of_groupControl hc]
    exact mode.direction.suits_wellTarget hshare n.efficiency
  · exact True.intro

namespace Forest

variable {h : Hierarchy α} {a : ActivePhases} {mode : Mode}

/-- A target that is not negative is pushed down with the right sign. -/
theorem push_signed {f : Forest α} (hf : f.IsPart h) :
    ∀ {onlyGroup shareGroup : Bool} {target : α → α}, (∀ guide, 0 ≤ guide → 0 ≤ target guide) →
      ∀ o ∈ f.push a mode onlyGroup shareGroup target, o.Signed h := by
  induction f with
  | nil => intro _ _ _ _ o ho; cases ho
  | well id n next ih =>
      intro onlyGroup shareGroup target htarget o ho
      rw [push] at ho
      rcases List.mem_append.mp ho with hself | hnext
      · exact Node.take_signed hf.1 (htarget _ (n.share_nonneg _ _)) o hself
      · exact ih hf.2.2 htarget o hnext
  | group id n below next ihb ihn =>
      intro onlyGroup shareGroup target htarget o ho
      obtain ⟨_, _, _, hbelow, hnextPart⟩ := hf
      rcases mem_push_group ho with ⟨_, _, hin | rfl⟩ | hnext
      · -- what the group hands on is a part of a share that is not negative
        refine ihb hbelow (fun guide hguide => ?_) o hin
        have hscaled : 0 ≤ target (below.guideTotal mode.direction shareGroup 0) / n.efficiency.val :=
          div_nonneg (htarget _ (below.guideTotal_nonneg _ _)) n.efficiency.pos.le
        exact mul_nonneg hscaled (div_nonneg hguide (below.guideTotal_nonneg _ _))
      · exact True.intro
      · exact ihn hnextPart htarget o hnext

/-- The own target of a group is not negative. -/
theorem ownTarget_nonneg {n : Node α} {divisor t : α} (ht : ownTarget n divisor mode = .ok t) :
    0 ≤ t := by
  rw [ownTarget] at ht
  split at ht
  · cases ht
  · cases htarget : n.target mode with
    | error e => rw [htarget] at ht; cases ht
    | ok found =>
        cases found with
        | none => rw [htarget] at ht; cases ht
        | some t' =>
            rw [htarget] at ht
            cases ht
            exact Node.target_nonneg htarget

theorem ownProduction_signed {f : Forest α} (hf : f.IsPart h) :
    ∀ o ∈ f.ownProduction a, o.Signed h := by
  induction f with
  | nil => intro o ho; cases ho
  | well id n next ih => exact ih hf.2.2
  | group id n below next ihb ihn =>
      intro o ho
      obtain ⟨_, _, _, hbelow, hnextPart⟩ := hf
      have hdivisor := below.guideTotal_nonneg .production false
      rw [ownProduction] at ho
      rcases List.mem_append.mp ho with hself | hnext
      · split at hself
        · cases ht : ownTarget n (below.guideTotal .production false 0)
              (.production n.specs.production.mode) with
          | error e =>
              rw [ht] at hself
              rw [List.mem_singleton.mp hself]
              exact True.intro
          | ok t =>
              rw [ht] at hself
              exact push_signed hbelow (fun guide hguide =>
                mul_nonneg (div_nonneg hguide hdivisor) (ownTarget_nonneg ht)) o hself
        · split at hself
          · exact ihb hbelow o hself
          · rw [List.mem_singleton.mp hself]
            exact True.intro
      · exact ihn hnextPart o hnext

theorem ownInjection_signed {f : Forest α} (hf : f.IsPart h) :
    ∀ o ∈ f.ownInjection a, o.Signed h := by
  induction f with
  | nil => intro o ho; cases ho
  | well id n next ih => exact ih hf.2.2
  | group id n below next ihb ihn =>
      intro o ho
      obtain ⟨_, _, _, hbelow, hnextPart⟩ := hf
      have hrate : ∀ {m : InjectionMode}, n.specs.injection.mode = m → (m = .rate ∨ m = .resv) →
          o.Signed h := by
        intro m hm hcases
        rcases ownInjection_of_rate a id below next hm hcases with ⟨e, he⟩ | ⟨t, ht, hpush⟩
        · rw [he] at ho
          rcases List.mem_cons.mp ho with rfl | hnext
          · exact True.intro
          · exact ihn hnextPart o hnext
        · rw [hpush] at ho
          rcases List.mem_append.mp ho with hself | hnext
          · refine push_signed hbelow (fun guide hguide => ?_) o hself
            have hshare := div_nonneg hguide (below.guideTotal_nonneg .injection false)
            exact div_nonneg (mul_nonneg hshare (ownTarget_nonneg ht)) n.efficiency.pos.le
          · exact ihn hnextPart o hnext
      have hother : o ∈ next.ownInjection a → o.Signed h := ihn hnextPart o
      rw [ownInjection] at ho
      cases hmode : n.specs.injection.mode with
      | rate => exact hrate hmode (Or.inl rfl)
      | resv => exact hrate hmode (Or.inr rfl)
      | rein =>
          simp only [hmode, List.nil_append] at ho
          exact hother ho
      | vrep =>
          simp only [hmode, List.nil_append] at ho
          exact hother ho
      | fld =>
          simp only [hmode] at ho
          exact (List.mem_append.mp ho).elim (ihb hbelow o) hother
      | none =>
          simp only [hmode] at ho
          exact (List.mem_append.mp ho).elim (ihb hbelow o) hother
      | _ =>
          simp only [hmode] at ho
          rcases List.mem_append.mp ho with hself | hnext
          · rw [List.mem_singleton.mp hself]
            exact True.intro
          · exact hother hnext

/-! ## Production -/

/-- Production that has the sign of producers adds up to production that has it. -/
theorem producedAt_nonpos {phases place : Nat} {flows : List α} (f : Forest α)
    (hwells : ∀ w ∈ f.wells, ∀ x, w.2.producedAt phases place flows = .ok x → x ≤ 0) :
    ∀ {sum total : α}, f.producedAt phases place flows sum = .ok total → sum ≤ 0 → total ≤ 0 := by
  induction f with
  | nil =>
      intro sum total htotal hsum
      cases htotal
      exact hsum
  | well id n next ih =>
      intro sum total htotal hsum
      obtain ⟨own, hown, hrest⟩ := bind_eq_ok.mp htotal
      refine ih (fun w hw => hwells w (List.mem_cons_of_mem _ hw)) hrest ?_
      exact add_nonpos hsum (hwells (id, n) (List.mem_cons_self ..) own hown)
  | group id n below next ihb ihn =>
      intro sum total htotal hsum
      obtain ⟨own, hown, hrest⟩ := bind_eq_ok.mp htotal
      have hbelow := fun w hw => hwells w (List.mem_append.mpr (Or.inl hw))
      have hnext := fun w hw => hwells w (List.mem_append.mpr (Or.inr hw))
      exact ihn hnext hrest (add_nonpos hsum (ihb hbelow hown (le_refl 0)))

end Forest

namespace Site

/-- The rates of all attached wells have the signs of their kinds, place by place. -/
def Suited (s : Site α) (flows : List α) : Prop :=
  ∀ n ∈ s.hierarchy.nodes, ∀ a ∈ n.attachment?, ∀ place < s.hierarchy.phases.count,
    ∀ x ∈ flows[a.index * s.hierarchy.phases.count + place]?, a.kind.Suits x

instance (s : Site α) (flows : List α) : Decidable (s.Suited flows) :=
  inferInstanceAs (Decidable (∀ n ∈ s.hierarchy.nodes, _))

variable {s : Site α}

/-- What wells produce of a phase is then not positive. -/
theorem Suited.produced_nonpos {flows : List α} (h : s.Suited flows) {f : Forest α}
    (hf : f.IsPart s.hierarchy) {p : Phase} {x : α}
    (hx : f.produced s.hierarchy.phases flows p = .ok x) : x ≤ 0 := by
  obtain ⟨place, hplace, hx⟩ := bind_eq_ok.mp hx
  have hlt : place < s.hierarchy.phases.count :=
    ActivePhases.position?_lt_count (ActivePhases.position_eq_ok.mp hplace)
  refine f.producedAt_nonpos (fun w hw y hy => ?_) hx (le_refl 0)
  obtain ⟨hnode, _⟩ := hf.node_of_mem_wells hw
  rw [Node.producedAt] at hy
  split at hy
  · cases hy
    exact le_refl 0
  · next hinjector =>
      obtain ⟨index, hi, hy⟩ := bind_eq_ok.mp hy
      rw [Node.tableIndex_eq_ok] at hi
      cases ha : w.2.attachment? with
      | none => rw [ha] at hi; cases hi
      | some a =>
          rw [ha] at hi
          cases hi
          have hsuits := h w.2 (List.mem_of_getElem? (Hierarchy.node_eq_ok.mp hnode)) a ha place hlt
            y (Rates.entry_eq_ok.mp hy)
          cases hkind : a.kind with
          | producer => rwa [hkind] at hsuits
          | injector =>
              rw [Node.isInjector, Node.isKind, ha, Option.map_some, hkind] at hinjector
              exact absurd rfl hinjector

/-- What a group injects again is then not negative. -/
theorem Suited.replacement_nonneg {rates : RateTable α} (hr : s.Suited rates.reservoir)
    (hs : s.Suited rates.surface) {n : Node α} {f : Forest α} (hf : f.IsPart s.hierarchy)
    {mode : InjectionMode} {volume fraction : α}
    (h : s.hierarchy.replacement? n f rates = .ok (some (mode, volume, fraction))) :
    0 ≤ volume ∧ 0 ≤ fraction := by
  rw [Hierarchy.replacement?] at h
  cases hmode : n.specs.injection.mode with
  | rein =>
      rw [hmode] at h
      obtain ⟨produced, hproduced, heq⟩ := bind_eq_ok.mp h
      cases heq
      exact ⟨neg_nonneg.mpr (hs.produced_nonpos hf hproduced), n.specs.injection.reinjection.nonneg⟩
  | vrep =>
      rw [hmode] at h
      obtain ⟨produced, hproduced, heq⟩ := bind_eq_ok.mp h
      cases heq
      refine ⟨neg_nonneg.mpr ?_, n.specs.injection.voidage.nonneg⟩
      rw [Scalar.total_eq_sum]
      have heach := forall_of_mapM (fun p _ y hy => hr.produced_nonpos hf hy) hproduced
      exact (List.sum_le_card_nsmul produced 0 heach).trans_eq (nsmul_zero _)
  | _ => rw [hmode] at h; cases h

end Site

/-! ## What is left of a target -/

namespace Hierarchy

variable {h : Hierarchy α} {id : Nat} {n : Node α} {flows : List α}

/-- What a refresh shares: the target over the efficiency factor of the group, without what the
    producers under individual control take. -/
def refreshRemainder (h : Hierarchy α) (id : Nat) (flows : List α) : Except GroupError α := do
  let n ← h.node id
  let (mode, target) ← h.refreshTarget n
  let taken ← h.individualRate mode flows (h.below id).siblings
  return target / n.efficiency.val - taken

/-- The producers under individual control produce more than the target of the group, and there is
    a producer under group control to share what is left. -/
def Overdrawn (h : Hierarchy α) (id : Nat) (flows : List α) : Prop :=
  (∃ n ∈ h.nodes[id]?, n.isGroup = true) ∧ (∃ x ∈ (h.refreshRemainder id flows).toOption, x < 0) ∧
    ∃ c ∈ (h.below id).siblings, c.2.individual = false ∧ c.2.isProducer = true ∧
      0 < c.2.specs.guideRate .production

instance (h : Hierarchy α) (id : Nat) (flows : List α) : Decidable (h.Overdrawn id flows) :=
  inferInstanceAs (Decidable (_ ∧ _ ∧ _))

/-- A refresh that has a plan knows what is left. -/
theorem refreshRemainder_of_plan (hn : h.node id = .ok n) (hg : n.isGroup = true)
    {l : List (Order α)} (hl : h.refreshPlan id flows = .ok l) :
    ∃ x, h.refreshRemainder id flows = .ok x := by
  rw [refreshRemainder, hn]
  rw [refreshPlan, hn] at hl
  simp only [bind, Except.bind, hg, Bool.not_true, Bool.false_eq_true, if_false] at hl ⊢
  cases ht : h.refreshTarget n with
  | error e => rw [ht] at hl; cases hl
  | ok found =>
      obtain ⟨m, t⟩ := found
      simp only [ht] at hl ⊢
      cases htaken : h.individualRate m flows (h.below id).siblings with
      | error e => rw [htaken] at hl; cases hl
      | ok taken => exact ⟨_, rfl⟩

/-- The plan of a refresh shares what is left by guide rate. -/
theorem refreshPlan_of_remainder (hn : h.node id = .ok n) (hg : n.isGroup = true) {x : α}
    (hx : h.refreshRemainder id flows = .ok x) :
    ∃ m, h.refreshPlan id flows = .ok
      (if Scalar.isZero ((h.below id).guideTotal .production true 0) then []
        else (h.below id).siblings.flatMap fun c =>
          if c.2.individual || !c.2.isProducer then []
          else c.2.take c.1 h.phases (.production m) true
            (c.2.share .production true / (h.below id).guideTotal .production true 0 * x)
              ++ [.refresh c.1]) := by
  rw [refreshRemainder, hn] at hx
  simp only [bind, Except.bind] at hx
  cases ht : h.refreshTarget n with
  | error e => rw [ht] at hx; cases hx
  | ok found =>
      obtain ⟨m, t⟩ := found
      simp only [ht] at hx
      refine ⟨m, ?_⟩
      rw [refreshPlan_eq hn hg ht]
      cases htaken : h.individualRate m flows (h.below id).siblings with
      | error e => rw [htaken] at hx; cases hx
      | ok taken =>
          rw [htaken] at hx
          cases hx
          rfl

/-- A refresh that is not overdrawn keeps to the signs. -/
theorem refreshPlan_signed {l : List (Order α)} (hl : h.refreshPlan id flows = .ok l)
    (hnot : ¬ h.Overdrawn id flows) : ∀ o ∈ l, o.Signed h := by
  intro o ho
  obtain ⟨n, hn, hrest⟩ := bind_eq_ok.mp hl
  cases hg : n.isGroup with
  | false =>
      rw [hg] at hrest
      cases hrest
      cases ho
  | true =>
      obtain ⟨x, hx⟩ := refreshRemainder_of_plan hn hg hl
      obtain ⟨m, hplan⟩ := refreshPlan_of_remainder hn hg hx
      rw [hl] at hplan
      rw [Except.ok.inj hplan] at ho
      split at ho
      · cases ho
      · obtain ⟨c, hc, ho⟩ := List.mem_flatMap.mp ho
        split at ho
        · cases ho
        · next htakes =>
            rw [Bool.not_eq_true, Bool.or_eq_false_iff, Bool.not_eq_false'] at htakes
            obtain ⟨hfree, hkind⟩ := htakes
            have hshare : 0 ≤ c.2.share .production true
                / (h.below id).guideTotal .production true 0 * x := by
              rcases (c.2.share_nonneg .production true).eq_or_lt with hzero | hpos
              · rw [← hzero, zero_div, zero_mul]
              · rw [Node.share_of_free hfree] at hpos
                refine mul_nonneg (div_nonneg (c.2.share_nonneg _ _)
                  (Forest.guideTotal_nonneg _ _ _)) ?_
                by_contra hneg
                refine hnot ⟨⟨n, node_eq_ok.mp hn, hg⟩, ⟨x, ?_, not_le.mp hneg⟩, c, hc, hfree, hkind,
                  hpos⟩
                rw [hx]
                rfl
            have hnode := Forest.node_of_mem_siblings (h.below_isPart id) hc
            rcases List.mem_append.mp ho with htake | hmark
            · exact Node.take_signed hnode hshare o htake
            · rw [List.mem_singleton.mp hmark]
              exact True.intro

/-- A refresh that is overdrawn and goes through hands a producer a positive target. -/
theorem Overdrawn.exists_install (hover : h.Overdrawn id flows) {l : List (Order α)}
    (hl : h.refreshPlan id flows = .ok l) (hrefuse : ∀ e, .refuse e ∉ l) :
    ∃ child c control, h.node child = .ok c ∧ c.isProducer = true ∧ .install child control ∈ l ∧
      0 < control.target := by
  obtain ⟨⟨n, hn, hg⟩, ⟨x, hx, hneg⟩, ⟨child, c⟩, hc, hfree, hkind, hguide⟩ := hover
  have hnode := Forest.node_of_mem_siblings (h.below_isPart id) hc
  have hshare : c.share .production true = c.specs.guideRate .production := by
    rw [Node.share_of_free hfree]
    rfl
  have hdivisor : 0 < (h.below id).guideTotal .production true 0 := by
    refine lt_of_lt_of_le hguide ?_
    rw [← hshare]
    exact Forest.share_le_guideTotal .production true (h.below_isPart id) hc
      (Node.isGroup_of_isKind hkind) (le_refl 0)
  have hremainder : h.refreshRemainder id flows = .ok x := by
    cases hr : h.refreshRemainder id flows with
    | error e => rw [hr] at hx; cases hx
    | ok y => rw [hr] at hx; cases hx; rfl
  obtain ⟨m, hplan⟩ := refreshPlan_of_remainder (node_eq_ok.mpr hn) hg hremainder
  rw [hl, Scalar.isZero_of_pos hdivisor, if_neg Bool.false_ne_true] at hplan
  have htake : ∀ o ∈ c.take child h.phases (.production m) false
      (c.share .production true / (h.below id).guideTotal .production true 0 * x), o ∈ l := by
    intro o ho
    rw [Except.ok.inj hplan]
    refine List.mem_flatMap.mpr ⟨(child, c), hc, ?_⟩
    rw [hfree, hkind, Bool.not_true, Bool.or_false, if_neg Bool.false_ne_true,
      Node.take_of_free hfree]
    exact List.mem_append.mpr (Or.inl ho)
  rcases Node.take_cases (show c.isKind (Mode.production m).direction.wellKind = true from hkind)
      (show ¬ (false && c.individual) = true from Bool.false_ne_true) child h.phases
      (c.share .production true / (h.below id).guideTotal .production true 0 * x) with
    ⟨control, hcontrol, heq⟩ | ⟨e, heq⟩
  · refine ⟨child, c, control, hnode, hkind, htake _ (heq ▸ List.mem_singleton.mpr rfl), ?_⟩
    rw [target_of_groupControl hcontrol, hshare]
    have hpart := mul_neg_of_pos_of_neg (div_pos hguide hdivisor) hneg
    exact div_pos (neg_pos.mpr hpart) c.efficiency.pos
  · exact absurd (htake _ (heq ▸ List.mem_singleton.mpr rfl)) (hrefuse e)

end Hierarchy

/-! ## Calls -/

namespace Call

/-- The target that the caller wants to be pushed down. -/
def pushed? : Call α → Option α
  | .push _ _ target _ => some target
  | _ => none

/-- The lists of rates that the caller hands over. -/
def flows : Call α → List (List α)
  | .check _ rates => [rates.reservoir, rates.surface]
  | .reinject _ rates => [rates.reservoir, rates.surface]
  | .refreshProduction _ flows => [flows]
  | _ => []

/-- The group whose target is to be shared again, and the rates with which it is. -/
def refreshed? : Call α → Option (Nat × List α)
  | .refreshProduction id flows => some (id, flows)
  | _ => none

/-- The caller keeps to the signs: a target to be pushed down is not negative, and rates have the
    signs of the wells. -/
def Conventional (s : Site α) (c : Call α) : Prop :=
  (∀ t ∈ c.pushed?, 0 ≤ t) ∧ ∀ flows ∈ c.flows, s.Suited flows

instance (s : Site α) (c : Call α) : Decidable (c.Conventional s) :=
  inferInstanceAs (Decidable (_ ∧ _))

/-- The caller keeps to the signs and refreshes no group whose target is overdrawn. -/
def Signed (s : Site α) (c : Call α) : Prop :=
  c.Conventional s ∧ ∀ r ∈ c.refreshed?, ¬ s.hierarchy.Overdrawn r.1 r.2

instance (s : Site α) (c : Call α) : Decidable (c.Signed s) := inferInstanceAs (Decidable (_ ∧ _))

end Call

namespace Site

variable {s : Site α}

/-- What a group pushes down has the right sign. -/
theorem enforce_signed {id : Nat} {n : Node α} (hn : s.hierarchy.node id = .ok n)
    (hg : n.isGroup = true) {mode : Mode} {t : α} (ht : 0 ≤ t) :
    ∀ o ∈ n.enforce id (s.hierarchy.below id) s.hierarchy.phases mode t, o.Signed s.hierarchy := by
  have hpart : (Forest.group id n (s.hierarchy.below id) .nil).IsPart s.hierarchy :=
    ⟨hn, hg, rfl, s.hierarchy.below_isPart id, True.intro⟩
  exact Forest.push_signed hpart fun _ _ => ht

/-- The answer to a violation keeps to the signs: a target that is exceeded is not negative. -/
theorem repair_signed {root : Nat} {rates : RateTable α} {v : Violation α}
    (hv : s.firstViolation root rates = .ok (some v)) {l : List (Order α)}
    (hl : s.repair rates v = .ok l) : ∀ o ∈ l, o.Signed s.hierarchy := by
  intro o ho
  cases v with
  | control index place =>
      cases hl
      rw [List.mem_singleton.mp ho]
      exact True.intro
  | target gid mode t =>
      obtain ⟨n, _, hn, hg, htarget, _⟩ := exceeded_of_firstViolation hv
      have ht := Node.target_nonneg htarget
      rw [repair, hn] at hl
      replace hl : n.answer gid (s.hierarchy.below gid) s.hierarchy.phases rates mode t = .ok l := hl
      cases mode with
      | injection m =>
          cases hl
          rcases List.mem_append.mp ho with hpush | hadopt
          · exact enforce_signed hn hg ht o hpush
          · rw [List.mem_singleton.mp hadopt]
            exact True.intro
      | production m =>
          rw [Node.answer] at hl
          cases hprocedure : n.specs.production.procedure with
          | none =>
              rw [hprocedure] at hl
              cases hl
              cases ho
          | rate =>
              rw [hprocedure] at hl
              cases hl
              exact enforce_signed hn hg ht o ho
          | well =>
              simp only [hprocedure] at hl
              cases hw : (s.hierarchy.below gid).worst s.hierarchy.phases rates m none with
              | error e => rw [hw] at hl; cases hl
              | ok found =>
                  rw [hw] at hl
                  cases found with
                  | none =>
                      cases hl
                      cases ho
                  | some worst =>
                      cases hl
                      rw [List.mem_singleton.mp ho]
                      exact True.intro

/-- A part that goes by a subtree is decided for a part of the hierarchy. -/
theorem plan_of_subtree {id : Nat} {make : Forest α → List (Order α)} {l : List (Order α)}
    (hl : (s.hierarchy.subtree id).map make = .ok l) :
    ∃ f, f.IsPart s.hierarchy ∧ l = make f := by
  cases hf : s.hierarchy.subtree id with
  | error e => rw [hf] at hl; cases hl
  | ok f =>
      rw [hf] at hl
      cases hl
      exact ⟨f, Hierarchy.subtree_isPart hf, rfl⟩

/-- The plan of a call that keeps to the signs keeps to them, too. -/
theorem plan_signed {c : Call α} (hc : c.Signed s) {l : List (Order α)} (hl : s.plan c = .ok l) :
    ∀ o ∈ l, o.Signed s.hierarchy := by
  intro o ho
  obtain ⟨⟨hpushed, hflows⟩, hrefreshed⟩ := hc
  cases c with
  | check id rates =>
      rw [plan, assess_subtree] at hl
      cases hv : s.firstViolation id rates with
      | error e => rw [hv] at hl; cases hl
      | ok found =>
          rw [hv] at hl
          cases found with
          | none =>
              cases hl
              cases ho
          | some v =>
              simp only [Except.bind, finding] at hl
              cases hrepair : s.repair rates v with
              | error e => rw [hrepair] at hl; cases hl
              | ok orders =>
                  rw [hrepair] at hl
                  cases hl
                  exact repair_signed hv hrepair o ho
  | push id mode target onlyGroup =>
      obtain ⟨f, hf, rfl⟩ := plan_of_subtree hl
      exact Forest.push_signed hf (fun _ _ => hpushed target rfl) o ho
  | shareProduction id =>
      obtain ⟨f, hf, rfl⟩ := plan_of_subtree hl
      exact Forest.ownProduction_signed hf o ho
  | shareInjection id =>
      obtain ⟨f, hf, rfl⟩ := plan_of_subtree hl
      exact Forest.ownInjection_signed hf o ho
  | reinject id rates =>
      obtain ⟨n, _, hl⟩ := bind_eq_ok.mp hl
      split at hl
      · cases hl
        cases ho
      · obtain ⟨found, hfound, hl⟩ := bind_eq_ok.mp hl
        cases found with
        | none =>
            cases hl
            cases ho
        | some found =>
            obtain ⟨m, volume, fraction⟩ := found
            cases hl
            have hpart := s.hierarchy.below_isPart id
            obtain ⟨hvolume, hfraction⟩ := Suited.replacement_nonneg
              (hflows _ (List.mem_cons_self ..))
              (hflows _ (List.mem_cons_of_mem _ (List.mem_cons_self ..))) hpart hfound
            rw [Forest.inject] at ho
            split at ho
            · cases ho
            · refine Forest.push_signed hpart (fun guide hguide => ?_) o ho
              have hshare := div_nonneg hguide ((s.hierarchy.below id).guideTotal_nonneg .injection true)
              exact mul_nonneg (mul_nonneg hshare hvolume) hfraction
  | refreshProduction id flows =>
      exact Hierarchy.refreshPlan_signed hl (hrefreshed (id, flows) rfl) o ho
  | refreshInjection id =>
      cases hn : s.hierarchy.node id with
      | error e => rw [plan, hn] at hl; cases hl
      | ok n =>
          rw [plan, hn] at hl
          cases hl
          dsimp only at ho
          split at ho
          · cases ho
          · obtain ⟨c, _, ho⟩ := List.mem_flatMap.mp ho
            split at ho
            · rw [List.mem_singleton.mp ho]
              exact True.intro
            · cases ho
  | withdraw id =>
      cases hl
      rw [List.mem_singleton.mp ho]
      exact True.intro
  | _ =>
      cases hl
      cases ho

/-! ## What is written -/

/-- Every order that keeps to the signs writes a control that does. -/
theorem write?_signed {o : Order α} (ho : o.Signed s.hierarchy) {w : Write α}
    (hw : w ∈ s.write? o) : w.kind.Suits w.control.target := by
  have hat : ∀ {id : Nat} {c : Control α}, w ∈ s.writeAt? id c →
      ∃ n a, s.hierarchy.node id = .ok n ∧ n.attachment? = some a ∧ w.kind = a.kind ∧
        w.control = c := by
    intro id c hw
    obtain ⟨n, hn, hw⟩ := Option.bind_eq_some_iff.mp hw
    obtain ⟨a, ha, hw⟩ := Option.bind_eq_some_iff.mp hw
    obtain ⟨entry, _, hw⟩ := Option.bind_eq_some_iff.mp hw
    cases hw
    exact ⟨n, a, Hierarchy.node_eq_ok.mpr hn, ha, rfl, rfl⟩
  cases o with
  | install id c =>
      obtain ⟨n, a, hn, ha, hkind, hcontrol⟩ := hat hw
      rw [hkind, hcontrol]
      exact ho n hn a ha
  | withdraw id =>
      obtain ⟨n, hn, hw⟩ := Option.bind_eq_some_iff.mp hw
      obtain ⟨link, _, hw⟩ := Option.bind_eq_some_iff.mp hw
      split at hw
      · cases hw
      · obtain ⟨_, _, _, _, _, hcontrol⟩ := hat hw
        rw [hcontrol]
        exact w.kind.suits_zero
  | _ => cases hw

/-- A run of orders that keep to the signs writes nothing else. -/
theorem writes_signed {l : List (Order α)} (hl : ∀ o ∈ l, o.Signed s.hierarchy) :
    ∀ w ∈ s.writes l, w.kind.Suits w.control.target := by
  induction l generalizing s with
  | nil => intro w hw; cases hw
  | cons o rest ih =>
      intro w hw
      rw [writes] at hw
      cases ht : s.obey o with
      | error e => rw [ht] at hw; cases hw
      | ok t =>
          rw [ht] at hw
          rcases List.mem_append.mp hw with hself | hrest
          · exact write?_signed (hl o (List.mem_cons_self ..)) (Option.mem_toList.mp hself)
          · -- the wells are of the same kinds after an order
            refine ih (fun o' ho' => ?_) w hrest
            have hsigned := hl o' (List.mem_cons_of_mem o ho')
            cases o' with
            | install id c =>
                intro n hn a ha
                obtain ⟨m, hm, hlasting⟩ := Hierarchy.exists_node_of_map (obey_lasting ht).1 hn
                exact hsigned m hm a ((Node.attachment?_of_lasting hlasting).trans ha)
            | _ => exact True.intro

/-- What is true of every call of a list when its turn comes. -/
def Throughout (P : Site α → Call α → Prop) (s : Site α) : List (Call α) → Prop
  | [] => True
  | c :: rest => P s c ∧ (s.call c).1.Throughout P rest

instance decidableThroughout {P : Site α → Call α → Prop} [∀ s c, Decidable (P s c)] :
    (s : Site α) → (calls : List (Call α)) → Decidable (s.Throughout P calls)
  | _, [] => instDecidableTrue
  | s, c :: rest =>
    have := decidableThroughout (P := P) (s.call c).1 rest
    inferInstanceAs (Decidable (P s c ∧ (s.call c).1.Throughout P rest))

/-- Whatever a call writes that keeps to the signs keeps to them, too. -/
theorem writesOf_signed {c : Call α} (hc : c.Signed s) :
    ∀ w ∈ s.writesOf c, w.kind.Suits w.control.target := by
  intro w hw
  rw [writesOf] at hw
  cases hplan : s.plan c with
  | error e => rw [hplan] at hw; cases hw
  | ok l =>
      rw [hplan] at hw
      exact writes_signed (plan_signed hc hplan) w hw

theorem record_signed_of_throughout {calls : List (Call α)}
    (h : s.Throughout Call.Signed calls) :
    ∀ w ∈ s.record calls, w.kind.Suits w.control.target := by
  induction calls generalizing s with
  | nil => intro w hw; cases hw
  | cons c rest ih =>
      intro w hw
      rcases List.mem_append.mp hw with hself | hrest
      · exact writesOf_signed h.1 w hself
      · exact ih h.2 w hrest

/-- An overdrawn refresh that goes through writes a positive target for a producer. -/
theorem overdrawn_writesOf {id : Nat} {flows : List α} (hover : s.hierarchy.Overdrawn id flows)
    (hrun : (s.refreshProduction id flows).2 = .ok ()) :
    ∃ w ∈ s.writesOf (.refreshProduction id flows), w.kind = .producer ∧ 0 < w.control.target := by
  rw [refreshProduction] at hrun
  rw [writesOf, plan]
  cases hl : s.hierarchy.refreshPlan id flows with
  | error e => rw [hl] at hrun; cases hrun
  | ok l =>
      rw [hl] at hrun
      obtain ⟨child, c, control, hnode, hkind, hmem, hpos⟩ :=
        hover.exists_install hl (refuse_notMem_of_run hrun)
      cases ha : c.attachment? with
      | none =>
          rw [Node.isProducer, Node.isKind, ha] at hkind
          cases hkind
      | some a =>
          obtain ⟨w, hw, hwkind, hwcontrol⟩ := mem_writes_of_run hrun hmem hnode ha
          refine ⟨w, hw, ?_, hwcontrol ▸ hpos⟩
          rw [Node.isProducer, Node.isKind, ha] at hkind
          exact hwkind.trans (Option.some.inj (beq_iff_eq.mp hkind))

/-- In every list of calls that keep to the signs and refresh no group whose target is overdrawn, each
    group control that is written has the sign of its well. Nothing is missing from the record:
    whatever a list holds came with its entry or was written. And in every site that such calls
    lead to, a refresh of an overdrawn group that goes through writes a positive target for a
    producer. -/
theorem record_signed {phases : ActivePhases} {calls : List (Call α)}
    (h : (vacant phases).Throughout Call.Signed calls) :
    let s := (vacant phases).serve calls
    (∀ w ∈ (vacant phases).record calls, w.kind.Suits w.control.target) ∧
    ((∀ c ∈ calls, c.table?.isNone = true) → ∀ index k v c, s.wells.well index = .ok v →
      v.controls.controls[k]? = some c →
        (∃ l, (calls.filterMap Call.enrolled?)[index]? = some l ∧ l[k]? = some c) ∨
          ∃ w ∈ (vacant phases).record calls, w.IsAt index k c) ∧
    ∀ id flows, s.hierarchy.Overdrawn id flows → (s.refreshProduction id flows).2 = .ok () →
      ∃ w ∈ s.writesOf (.refreshProduction id flows),
        w.kind = .producer ∧ 0 < w.control.target := by
  intro s
  refine ⟨record_signed_of_throughout h, fun htable index k v c hv hc => ?_,
    fun _ _ => overdrawn_writesOf⟩
  rcases written_of_serve htable hv hc with ⟨w, hw, _⟩ | ⟨_, hown⟩ | hwritten
  · cases hw
  · exact Or.inl hown
  · exact Or.inr hwritten

/-- A field with a producer of its own, a producer under group control and an injector under group
    control, whose targets are refreshed when the first producer flows at some oil rate. -/
def refreshedCalls (rate : ℚ) : List (Call ℚ) := [
  .enrol "P1" .producer [.bhp 100],
  .enrol "P2" .producer [.bhp 100],
  .enrol "I1" .injector [.bhp 500],
  .addGroup "FIELD" none .one
    ⟨{ ProductionSpec.default with mode := .orat, oil := some 100 },
      { InjectionSpec.default with mode := .rein, reinjection := .one }⟩,
  .addWell "P1" (some 0) .one (.producer .default),
  .addWell "P2" (some 0) .one (.producer .default),
  .addWell "I1" (some 0) .one (.injector .default),
  .attach 1 0,
  .attach 2 1,
  .attach 3 2,
  .edit 2 (.individual false),
  .edit 3 (.individual false),
  .reinject 0 ⟨[200, 200, 300], [-5, rate, -1, 0, 9, 0], [-4, rate, -1, 0, 8, 0]⟩,
  .refreshProduction 0 [-4, rate, -1, 0, 8, 0]]

/-- Forty of oil from the first producer leave sixty for the second one, and the water of both of
    them goes to the injector. -/
theorem record_signed_refreshedCalls :
    (vacant ⟨true, true, false⟩).Throughout Call.Signed (refreshedCalls (-40)) ∧
      (vacant ⟨true, true, false⟩).record (refreshedCalls (-40)) =
        [⟨.injector, 2, 1, .surfaceRate 5 (.const 1)⟩,
          ⟨.producer, 1, 1, .surfaceRate (-60) ⟨0, 1, 0⟩⟩] ∧
      ∀ w ∈ (vacant ⟨true, true, false⟩).record (refreshedCalls (-40)),
        w.kind.Suits w.control.target := by
  have hsigned : (vacant ⟨true, true, false⟩).Throughout Call.Signed
      (refreshedCalls (-40)) := by decide +kernel
  exact ⟨hsigned, by decide +kernel, (record_signed hsigned).1⟩

/-- A hundred and fifty are more than the target, and the second producer is to inject. -/
theorem not_forall_record_signed :
    ¬ ∀ (phases : ActivePhases) (calls : List (Call ℚ)),
      (vacant phases).Throughout Call.Conventional calls →
      ∀ w ∈ (vacant phases).record calls, w.kind.Suits w.control.target := by
  intro hall
  have hsigns := hall ⟨true, true, false⟩ (refreshedCalls (-150)) (by decide +kernel)
  exact absurd hsigns (by decide +kernel)

end Site

end ReservoirWells
