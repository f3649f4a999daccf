import Mathlib.Algebra.BigOperators.Ring.List
import Mathlib.Algebra.Order.BigOperators.Group.List
import Mathlib.Tactic.FieldSimp
import Mathlib.Tactic.Ring
import ReservoirWells.Proofs.Exact
import ReservoirWells.Proofs.Group.Installed
import ReservoirWells.Proofs.Group.Push

/-! # Splitting — level by level comes to the same as all at once

    A push divides the target of a group by the guide rates of its children, every child group
    divides its share again, and every node on the way divides by its own efficiency factor.  In
    exact arithmetic the guide rates of the groups in between cancel, and what a well gets depends
    on its own guide rate, on the total at the top and on the efficiency factors on its path only:

    * `Forest.descents` — the wells of a forest with the nodes on the way down to them;
    * `Forest.guideTotal_eq` — the guide rate of a forest is the sum over its wells;
    * `Forest.mem_push_of_descent`, `Forest.descent_of_mem_push` — the orders of a push, flat;
    * `Site.pushTarget_splits` — the targets that the wells are held to after a production target was
      pushed down, and that nothing of the target is lost. -/

namespace ReservoirWells

variable {α : Type}

/-! ## Ways down -/

/-- A well with the nodes on the way down to it, from the top to the well itself. -/
structure Descent (α : Type) [Scalar α] where
  id : Nat
  node : Node α
  path : List (Node α)

/-- The wells of a forest that lies below the nodes `above`. -/
def Forest.descents [Scalar α] : (above : List (Node α)) → Forest α → List (Descent α)
  | _, .nil => []
  | above, .well id n next => ⟨id, n, above ++ [n]⟩ :: descents above next
  | above, .group _ n below next => descents (above ++ [n]) below ++ descents above next

/-- No group of a forest with a positive guide rate is without control in a direction. -/
def Forest.Controlled [Scalar α] (d : Direction) : Forest α → Prop
  | .nil => True
  | .well _ _ next => next.Controlled d
  | .group _ n below next =>
    (0 < below.guideTotal d false 0 → n.specs.mode d ≠ d.uncontrolled) ∧ below.Controlled d ∧
      next.Controlled d

/-- Whether every group with a guide rate is controlled can be decided. -/
instance Forest.decidableControlled [Scalar α] (d : Direction) :
    (f : Forest α) → Decidable (f.Controlled d)
  | .nil => isTrue True.intro
  | .well _ _ next => decidableControlled d next
  | .group _ n below next =>
    have := decidableControlled d below
    have := decidableControlled d next
    inferInstanceAs (Decidable ((0 < below.guideTotal d false 0 →
      n.specs.mode d ≠ d.uncontrolled) ∧ below.Controlled d ∧ next.Controlled d))

/-- A group is controlled together with all below it when it is and all groups below it are. -/
theorem Forest.controlled_group [Scalar α] {d : Direction} {id : Nat} {n : Node α} {below : Forest α}
    (hn : n.specs.mode d ≠ d.uncontrolled)
    (hbelow : ∀ g ∈ below.groups, g.2.specs.mode d ≠ d.uncontrolled) :
    (Forest.group id n below .nil).Controlled d := by
  have hall : ∀ f : Forest α, (∀ g ∈ f.groups, g.2.specs.mode d ≠ d.uncontrolled) →
      f.Controlled d := by
    intro f h
    induction f with
    | nil => exact True.intro
    | well id n next ih => exact ih h
    | group id n below next ihb ihn =>
        refine ⟨fun _ => h (id, n) (List.mem_cons_self ..), ihb fun g hg => ?_, ihn fun g hg => ?_⟩
        · exact h g (List.mem_cons_of_mem _ (List.mem_append.mpr (Or.inl hg)))
        · exact h g (List.mem_cons_of_mem _ (List.mem_append.mpr (Or.inr hg)))
  exact ⟨fun _ => hn, hall below hbelow, True.intro⟩

/-- The wells on the ways down are the wells of the forest. -/
theorem Forest.descents_wells [Scalar α] (f : Forest α) (above : List (Node α)) :
    (f.descents above).map (fun w => (w.id, w.node)) = f.wells := by
  induction f generalizing above with
  | nil => rfl
  | well id n next ih =>
      rw [descents, wells, List.map_cons, ih]
  | group id n below next ihb ihn =>
      rw [descents, wells, List.map_append, ihb, ihn]

variable [ExactScalar α]

/-- The product of the efficiency factors on a way. -/
def pathEfficiency (path : List (Node α)) : α := (path.map fun n => n.efficiency.val).prod

/-- Efficiency factors are positive, and so is their product. -/
theorem pathEfficiency_pos (path : List (Node α)) : 0 < pathEfficiency path := by
  induction path with
  | nil => exact one_pos
  | cons n rest ih =>
      rw [pathEfficiency, List.map_cons, List.prod_cons]
      exact mul_pos n.efficiency.pos ih

theorem pathEfficiency_append (path : List (Node α)) (n : Node α) :
    pathEfficiency (path ++ [n]) = pathEfficiency path * n.efficiency.val := by
  rw [pathEfficiency, List.map_append, List.prod_append]
  exact congrArg (pathEfficiency path * ·) (mul_one n.efficiency.val)

namespace Descent

/-- The guide rate of the well. -/
def guideRate (w : Descent α) (d : Direction) : α := w.node.specs.guideRate d

/-- The product of the efficiency factors on the way down to the well. -/
def efficiency (w : Descent α) : α := pathEfficiency w.path

/-- The control target of the well when every unit of guide rate stands for a share `unit`. -/
def target (w : Descent α) (d : Direction) (unit : α) : α :=
  d.wellTarget (unit * w.guideRate d) w.efficiency

end Descent

/-! ## The guide rate of a forest -/

theorem Specs.guideRate_nonneg (s : Specs α) (d : Direction) : 0 ≤ s.guideRate d := by
  cases d with
  | production => exact s.production.guideRate.nonneg
  | injection => exact s.injection.guideRate.nonneg

namespace Forest

/-- The guide rate of a forest is the sum of the guide rates of its wells. -/
theorem guideTotal_eq (d : Direction) (f : Forest α) (sum : α) :
    f.guideTotal d false sum = sum + (f.wells.map fun w => w.2.specs.guideRate d).sum := by
  induction f generalizing sum with
  | nil => exact (add_zero sum).symm
  | well id n next ih =>
      rw [guideTotal, ih, wells, List.map_cons, List.sum_cons, ← add_assoc]
      rfl
  | group id n below next ihb ihn =>
      rw [guideTotal, ihn, ihb, wells, List.map_append, List.sum_append, zero_add, Bool.and_false,
        Bool.false_and, if_neg Bool.false_ne_true, add_assoc]

/-- No well has a larger guide rate than the forest. -/
theorem guideRate_le_guideTotal (d : Direction) {f : Forest α} {w : Nat × Node α}
    (hw : w ∈ f.wells) : w.2.specs.guideRate d ≤ f.guideTotal d false 0 := by
  rw [guideTotal_eq, zero_add]
  refine List.single_le_sum ?_ _ (List.mem_map_of_mem hw)
  intro x hx
  obtain ⟨v, _, rfl⟩ := List.mem_map.mp hx
  exact v.2.specs.guideRate_nonneg d

theorem divisor_eq (below : Forest α) (d : Direction) :
    below.divisor d false = below.guideTotal d false 0 := by
  rw [divisor, Bool.and_false]

end Forest

/-- A group that is controlled and has a guide rate takes part in a push. -/
theorem Node.declines_or_isZero {n : Node α} {d : Direction} {total : α}
    (hmode : n.specs.mode d ≠ d.uncontrolled) (htotal : 0 < total) :
    (n.declines d false || Scalar.isZero total) = false := by
  rw [Scalar.isZero_of_pos htotal, Bool.or_false, declines, Bool.false_and, Bool.or_false]
  exact beq_false_of_ne hmode

/-- A push through a group that takes part goes to the children by guide rate; then the group follows,
    and the push goes on to the later siblings. -/
theorem Forest.push_group {a : ActivePhases} {mode : Mode} {id : Nat} {n : Node α}
    {below : Forest α} (hmode : n.specs.mode mode.direction ≠ mode.direction.uncontrolled)
    (htotal : 0 < below.guideTotal mode.direction false 0) (next : Forest α) (target : α → α) :
    (Forest.group id n below next).push a mode false false target
      = below.push a mode false false (fun guide =>
          target (below.guideTotal mode.direction false 0) / n.efficiency.val
            * (guide / below.guideTotal mode.direction false 0))
        ++ [.adopt id mode.direction.following] ++ next.push a mode false false target := by
  rw [push]
  simp only [divisor_eq, Node.declines_or_isZero hmode htotal, Bool.false_eq_true, if_false]

/-! ## The shares cancel -/

/-- A target over an efficiency factor is a target over the product with that factor. -/
theorem Direction.wellTarget_div (d : Direction) (share efficiency factor : α) :
    d.wellTarget (share / efficiency) factor = d.wellTarget share (efficiency * factor) := by
  cases d with
  | production =>
      show -(share / efficiency) / factor = -share / (efficiency * factor)
      rw [← neg_div, div_div]
  | injection => exact div_div share efficiency factor

theorem Direction.wellTarget_zero (d : Direction) (efficiency : α) :
    d.wellTarget 0 efficiency = 0 := by
  cases d with
  | production =>
      show -(0 : α) / efficiency = 0
      rw [neg_zero, zero_div]
  | injection => exact zero_div efficiency

/-- What a group hands on: the guide rate of the group cancels, and its efficiency factor joins those
    of the nodes above. -/
theorem share_below {unit total : α} (above : List (Node α)) (n : Node α) (htotal : total ≠ 0)
    (guide : α) :
    unit * total / pathEfficiency above / n.efficiency.val * (guide / total)
      = unit * guide / pathEfficiency (above ++ [n]) := by
  have habove := (pathEfficiency_pos above).ne'
  have hn := n.efficiency.pos.ne'
  rw [pathEfficiency_append]
  field_simp

namespace Forest

variable {a : ActivePhases} {mode : Mode} {unit : α}

/-- In a push that hands a share `unit` to every unit of guide rate, over the efficiency factors
    above, a well with guide rate is handed its target, unless a control for it is refused. -/
theorem mem_push_of_descent (f : Forest α) : ∀ (above : List (Node α)) (target : α → α),
    (∀ guide, target guide = unit * guide / pathEfficiency above) → f.Controlled mode.direction →
    ∀ w ∈ f.descents above, w.node.isKind mode.direction.wellKind = true →
      0 < w.guideRate mode.direction →
      (∃ c, groupControl a mode (w.target mode.direction unit) = .ok c ∧
        .install w.id c ∈ f.push a mode false false target) ∨
      ∃ e, .refuse e ∈ f.push a mode false false target := by
  induction f with
  | nil => intro above target _ _ w hw; cases hw
  | well id n next ih =>
      intro above target htarget hcontrolled w hw hkind hpos
      rw [push]
      rcases List.mem_cons.mp hw with rfl | hnext
      · have hshare : mode.direction.wellTarget (target (n.share mode.direction false))
            n.efficiency.val = Descent.target ⟨id, n, above ++ [n]⟩ mode.direction unit := by
          rw [htarget, Direction.wellTarget_div, ← pathEfficiency_append]
          rfl
        rw [Node.take, hkind, if_neg (by simp), Bool.false_and, if_neg Bool.false_ne_true, hshare]
        cases hc : groupControl a mode
            (Descent.target ⟨id, n, above ++ [n]⟩ mode.direction unit) with
        | ok c =>
            exact Or.inl ⟨c, rfl, List.mem_append.mpr (Or.inl (List.mem_cons_self ..))⟩
        | error e => exact Or.inr ⟨e, List.mem_append.mpr (Or.inl (List.mem_cons_self ..))⟩
      · rcases ih above target htarget hcontrolled w hnext hkind hpos with ⟨c, hc, hmem⟩ | ⟨e, hmem⟩
        · exact Or.inl ⟨c, hc, List.mem_append.mpr (Or.inr hmem)⟩
        · exact Or.inr ⟨e, List.mem_append.mpr (Or.inr hmem)⟩
  | group id n below next ihb ihn =>
      intro above target htarget hcontrolled w hw hkind hpos
      obtain ⟨hmode, hbelow, hnext⟩ := hcontrolled
      rcases List.mem_append.mp hw with hmem | hmem
      · -- the guide rate of the well makes that of the group positive, so the group takes part
        have htotal : 0 < below.guideTotal mode.direction false 0 := by
          have hwell : (w.id, w.node) ∈ below.wells := by
            rw [← below.descents_wells (above ++ [n])]
            exact List.mem_map_of_mem hmem
          exact lt_of_lt_of_le hpos (guideRate_le_guideTotal mode.direction hwell)
        have hshare : ∀ guide, target (below.guideTotal mode.direction false 0) / n.efficiency.val
            * (guide / below.guideTotal mode.direction false 0)
              = unit * guide / pathEfficiency (above ++ [n]) := by
          intro guide
          rw [htarget]
          exact share_below above n htotal.ne' guide
        rw [push_group (hmode htotal) htotal, List.append_assoc]
        rcases ihb (above ++ [n]) _ hshare hbelow w hmem hkind hpos with ⟨c, hc, hin⟩ | ⟨e, hin⟩
        · exact Or.inl ⟨c, hc, List.mem_append.mpr (Or.inl hin)⟩
        · exact Or.inr ⟨e, List.mem_append.mpr (Or.inl hin)⟩
      · rw [push]
        rcases ihn above target htarget hnext w hmem hkind hpos with ⟨c, hc, hin⟩ | ⟨e, hin⟩
        · exact Or.inl ⟨c, hc, List.mem_append.mpr (Or.inr hin)⟩
        · exact Or.inr ⟨e, List.mem_append.mpr (Or.inr hin)⟩

/-- A control that such a push installs is the target of a well on its way down. -/
theorem descent_of_mem_push {id : Nat} {c : Control α} (f : Forest α) :
    ∀ (above : List (Node α)) (target : α → α),
      (∀ guide, target guide = unit * guide / pathEfficiency above) →
      .install id c ∈ f.push a mode false false target →
      ∃ w ∈ f.descents above, w.id = id ∧ w.node.isKind mode.direction.wellKind = true ∧
        groupControl a mode (w.target mode.direction unit) = .ok c := by
  induction f with
  | nil => intro above target _ h; cases h
  | well wid n next ih =>
      intro above target htarget h
      rw [push] at h
      rcases List.mem_append.mp h with hown | hnext
      · obtain ⟨hkind, ⟨c', hc, heq⟩ | ⟨e, _, heq⟩⟩ := Node.mem_take hown
        · cases heq
          refine ⟨⟨id, n, above ++ [n]⟩, List.mem_cons_self .., rfl, hkind, ?_⟩
          rw [htarget, Direction.wellTarget_div, ← pathEfficiency_append] at hc
          exact hc
        · cases heq
      · obtain ⟨w, hw, hrest⟩ := ih above target htarget hnext
        exact ⟨w, List.mem_cons_of_mem _ hw, hrest⟩
  | group gid n below next ihb ihn =>
      intro above target htarget h
      rcases mem_push_group h with ⟨_, hdivisor, hbelow | hself⟩ | hnext
      · have htotal : below.guideTotal mode.direction false 0 ≠ 0 := by
          intro hzero
          rw [divisor_eq, (Scalar.isZero_iff _).mpr hzero] at hdivisor
          cases hdivisor
        have hshare : ∀ guide, target (below.guideTotal mode.direction false 0)
            / n.efficiency.val * (guide / below.divisor mode.direction false)
              = unit * guide / pathEfficiency (above ++ [n]) := by
          intro guide
          rw [htarget, divisor_eq]
          exact share_below above n htotal guide
        obtain ⟨w, hw, hrest⟩ := ihb (above ++ [n]) _ hshare hbelow
        exact ⟨w, List.mem_append.mpr (Or.inl hw), hrest⟩
      · cases hself
      · obtain ⟨w, hw, hrest⟩ := ihn above target htarget hnext
        exact ⟨w, List.mem_append.mpr (Or.inr hw), hrest⟩

end Forest

/-! ## What a push leaves behind -/

/-- A group that takes part hands its target to its children by guide rate, and follows. -/
theorem Node.enforce_eq {n : Node α} {id : Nat} {below : Forest α} {a : ActivePhases} {mode : Mode}
    {t : α} (hmode : n.specs.mode mode.direction ≠ mode.direction.uncontrolled)
    (htotal : 0 < below.guideTotal mode.direction false 0) :
    n.enforce id below a mode t
      = below.push a mode false false (fun guide =>
          t / n.efficiency.val * (guide / below.guideTotal mode.direction false 0))
        ++ [.adopt id mode.direction.following] := by
  rw [enforce, Forest.push_group hmode htotal, Forest.push, List.append_nil]

/-- The first target of a push is a share of the guide rate of the group. -/
theorem share_top (t : α) (n : Node α) {total : α} (htotal : total ≠ 0) (guide : α) :
    t / n.efficiency.val * (guide / total) = t / total * guide / pathEfficiency [n] := by
  have hn := n.efficiency.pos.ne'
  rw [show pathEfficiency [n] = n.efficiency.val from mul_one n.efficiency.val]
  field_simp

namespace Site

section Push

variable {s : Site α} {id : Nat} {n : Node α} {mode : Mode} {t : α}

/-- A push from a group is about nodes with entries of their own when the wells below the group have
    such entries, and each of these wells may be added. -/
theorem separateOn_enforce (hn : s.hierarchy.node id = .ok n) (hg : n.isGroup = true)
    (hsep : s.SeparateOn ((s.hierarchy.below id).wells.map (·.1))) {w : Descent α}
    (hw : w ∈ (s.hierarchy.below id).descents [n]) :
    s.SeparateOn (w.id :: (n.enforce id (s.hierarchy.below id) s.hierarchy.phases mode
      t).filterMap Order.subject?) := by
  refine hsep.of_attached fun i hi index ha => ⟨?_, ha⟩
  rcases List.mem_cons.mp hi with rfl | hsubject
  · rw [← (s.hierarchy.below id).descents_wells [n], List.map_map]
    exact List.mem_map_of_mem hw
  · have hgroup : (Forest.group id n (s.hierarchy.below id) .nil).IsPart s.hierarchy :=
      ⟨hn, hg, rfl, s.hierarchy.below_isPart id, True.intro⟩
    have hmem := mem_wells_of_push hgroup hsubject ha
    rwa [Forest.wells, Forest.wells, List.append_nil] at hmem

/-- After a push from a group that takes part, a well of the direction with a guide rate is under
    the control of its target. -/
theorem pushTarget_installs (hn : s.hierarchy.node id = .ok n) (hg : n.isGroup = true)
    (hsep : s.SeparateOn ((s.hierarchy.below id).wells.map (·.1)))
    (htotal : 0 < (s.hierarchy.below id).guideTotal mode.direction false 0)
    (hcontrolled : (Forest.group id n (s.hierarchy.below id) .nil).Controlled mode.direction)
    (hrun : (s.pushTarget id mode t false).2 = .ok ()) {w : Descent α}
    (hw : w ∈ (s.hierarchy.below id).descents [n])
    (hkind : w.node.isKind mode.direction.wellKind = true) (hpos : 0 < w.guideRate mode.direction) :
    ∃ c, groupControl s.hierarchy.phases mode (w.target mode.direction
        (t / (s.hierarchy.below id).guideTotal mode.direction false 0)) = .ok c ∧
      (s.pushTarget id mode t false).1.UnderControl w.id c := by
  obtain ⟨hmode, hbelow, _⟩ := hcontrolled
  have hsubjects : s.SeparateOn ((n.enforce id (s.hierarchy.below id) s.hierarchy.phases
    mode t).filterMap Order.subject?) := (separateOn_enforce hn hg hsep hw).tail
  rw [pushTarget_group hn hg] at hrun ⊢
  rcases (s.hierarchy.below id).mem_push_of_descent [n] _ (share_top t n htotal.ne') hbelow w hw hkind
    hpos with ⟨c, hc, hmem⟩ | ⟨e, hmem⟩
  · refine ⟨c, hc, run_install hsubjects ?_ (Node.enforce_nodup ..)
      Forest.activate_notMem_push hrun⟩
    rw [Node.enforce_eq (hmode htotal) htotal]
    exact List.mem_append.mpr (Or.inl hmem)
  · refine absurd ?_ (refuse_notMem_of_run hrun e)
    rw [Node.enforce_eq (hmode htotal) htotal]
    exact List.mem_append.mpr (Or.inl hmem)

/-- After such a push every other well is as it was, or is held to zero. -/
theorem pushTarget_leaves (hn : s.hierarchy.node id = .ok n) (hg : n.isGroup = true)
    (hsep : s.SeparateOn ((s.hierarchy.below id).wells.map (·.1)))
    (htotal : 0 < (s.hierarchy.below id).guideTotal mode.direction false 0)
    (hcontrolled : (Forest.group id n (s.hierarchy.below id) .nil).Controlled mode.direction)
    (hrun : (s.pushTarget id mode t false).2 = .ok ()) {w : Descent α}
    (hw : w ∈ (s.hierarchy.below id).descents [n])
    (hzero : w.node.isKind mode.direction.wellKind = true → w.guideRate mode.direction = 0) :
    ((s.pushTarget id mode t false).1.hierarchy.node w.id = s.hierarchy.node w.id ∧
        ∀ index, w.node.tableIndex = .ok index →
          (s.pushTarget id mode t false).1.wells.well index = s.wells.well index) ∨
      ∃ c, (s.pushTarget id mode t false).1.UnderControl w.id c ∧ c.target = 0 := by
  obtain ⟨hmode, _, _⟩ := hcontrolled
  have hpart := s.hierarchy.below_isPart id
  have hwell : ∀ v ∈ (s.hierarchy.below id).descents [n],
      s.hierarchy.node v.id = .ok v.node ∧ v.node.isGroup = false := by
    intro v hv
    refine hpart.node_of_mem_wells (w := (v.id, v.node)) ?_
    rw [← (s.hierarchy.below id).descents_wells [n]]
    exact List.mem_map_of_mem hv
  obtain ⟨hnode, hisWell⟩ := hwell w hw
  have hsubjects : s.SeparateOn (w.id :: (n.enforce id (s.hierarchy.below id) s.hierarchy.phases
    mode t).filterMap Order.subject?) := separateOn_enforce hn hg hsep hw
  rw [pushTarget_group hn hg] at hrun ⊢
  by_cases hmem : ∃ c, .install w.id c
      ∈ n.enforce id (s.hierarchy.below id) s.hierarchy.phases mode t
  · obtain ⟨c, hmem⟩ := hmem
    refine Or.inr ⟨c, run_install hsubjects.tail hmem (Node.enforce_nodup ..)
      Forest.activate_notMem_push hrun, ?_⟩
    rw [Node.enforce_eq (hmode htotal) htotal] at hmem
    rcases List.mem_append.mp hmem with hbelow | hself
    · obtain ⟨v, hv, hid, hkind, hc⟩ := (s.hierarchy.below id).descent_of_mem_push [n] _
        (share_top t n htotal.ne') hbelow
      -- the control is the share of a well at the same place, which is no share
      have hsame : v.node = w.node := by
        obtain ⟨hvnode, _⟩ := hwell v hv
        rw [hid, hnode] at hvnode
        exact (Except.ok.inj hvnode).symm
      have hguide : v.guideRate mode.direction = 0 := by
        rw [Descent.guideRate, hsame]
        exact hzero (hsame ▸ hkind)
      rw [target_of_groupControl hc, Descent.target, hguide, mul_zero]
      exact Direction.wellTarget_zero mode.direction v.efficiency
    · cases List.mem_singleton.mp hself
  · have hnot : ∀ o ∈ n.enforce id (s.hierarchy.below id) s.hierarchy.phases mode t,
        o.subject? ≠ some w.id := by
      intro o ho hid
      have hgroup : (Forest.group id n (s.hierarchy.below id) .nil).IsPart s.hierarchy :=
        ⟨hn, hg, rfl, hpart, True.intro⟩
      obtain ⟨c, rfl⟩ := Forest.install_of_mem_push hgroup ho hid hnode hisWell
      exact hmem ⟨c, ho⟩
    refine Or.inl ⟨run_node_of_notMem hnot, ?_⟩
    intro index hi
    exact (run_leaves_well hsubjects ⟨w.node, hnode, hi⟩ Forest.activate_notMem_push hnot).2

end Push

end Site

/-! ## Targets in either direction -/

namespace Descent

/-- Whether the well takes a share of a production target: an attached producer with a guide rate. -/
def sharesProduction (w : Descent α) : Bool :=
  w.node.isProducer && decide (0 < w.guideRate .production)

/-- The production target of a well when `t` is shared over a guide rate `total`. -/
theorem target_production (w : Descent α) (t total : α) :
    w.target .production (t / total) = -t * w.guideRate .production / total / w.efficiency := by
  show -(t / total * w.guideRate .production) / w.efficiency = _
  ring

/-- The injection target of a well when `t` is shared over a guide rate `total`. -/
theorem target_injection (w : Descent α) (t total : α) :
    w.target .injection (t / total) = t * w.guideRate .injection / total / w.efficiency := by
  show t / total * w.guideRate .injection / w.efficiency = _
  ring

end Descent

/-- The guide rates of the wells that take a share make up the guide rate of the forest when all other
    wells have none. -/
theorem Forest.sum_sharesProduction (f : Forest α) (above : List (Node α))
    (h : ∀ w ∈ f.descents above, w.node.isProducer = false → w.guideRate .production = 0) :
    (((f.descents above).filter Descent.sharesProduction).map (·.guideRate .production)).sum
      = f.guideTotal .production false 0 := by
  rw [sum_map_filter_of_zero, guideTotal_eq, zero_add, ← f.descents_wells above, List.map_map]
  · rfl
  · intro w hw hnot
    cases hk : w.node.isProducer with
    | false => exact h w hw hk
    | true =>
        rw [Descent.sharesProduction, hk, Bool.true_and, decide_eq_false_iff_not, not_lt] at hnot
        exact le_antisymm hnot (w.node.specs.guideRate_nonneg .production)

namespace Site

/-- A production target `t` that was pushed down a group with a positive guide rate `total` holds every
    producer below with a guide rate to its part of `t`, over the efficiency factors of all nodes on
    its way, and every other well is as it was or is held to zero. When only producers have a guide
    rate, what the wells are held to adds up to `t`. -/
theorem pushTarget_splits {s : Site α} {id : Nat} {n : Node α} {m : ProductionMode} {t total : α}
    (hn : s.hierarchy.node id = .ok n) (hg : n.isGroup = true) (hsep : s.Separate)
    (htotal : s.hierarchy.guideRate .production id false = .ok total) (hpos : 0 < total)
    (hcontrolled : (Forest.group id n (s.hierarchy.below id) .nil).Controlled .production)
    (hrun : (s.pushTarget id (.production m) t false).2 = .ok ()) :
    (∀ w ∈ (s.hierarchy.below id).descents [n], w.node.isProducer = true →
      0 < w.guideRate .production →
        ∃ c, (s.pushTarget id (.production m) t false).1.UnderControl w.id c ∧
          groupControl s.hierarchy.phases (.production m) c.target = .ok c ∧
          c.target = -t * w.guideRate .production / total / w.efficiency) ∧
    (∀ w ∈ (s.hierarchy.below id).descents [n],
      (w.node.isProducer = true → w.guideRate .production = 0) →
        ((s.pushTarget id (.production m) t false).1.hierarchy.node w.id = s.hierarchy.node w.id ∧
          ∀ index, w.node.tableIndex = .ok index →
            (s.pushTarget id (.production m) t false).1.wells.well index
              = s.wells.well index) ∨
        ∃ c, (s.pushTarget id (.production m) t false).1.UnderControl w.id c ∧ c.target = 0) ∧
    ((∀ w ∈ (s.hierarchy.below id).descents [n],
        w.node.isProducer = false → w.guideRate .production = 0) →
      ((((s.hierarchy.below id).descents [n]).filter Descent.sharesProduction).map fun w =>
        w.efficiency * -(s.pushTarget id (.production m) t false).1.heldTarget w.id).sum = t) := by
  have hguide : total = (s.hierarchy.below id).guideTotal .production false 0 := by
    rw [Hierarchy.guideRate, hn] at htotal
    simp only [Except.map, (Node.isGroup_iff n).mp hg] at htotal
    exact (Except.ok.inj htotal).symm
  have hsum : 0 < (s.hierarchy.below id).guideTotal (Mode.production m).direction false 0 :=
    hguide ▸ hpos
  replace hcontrolled : (Forest.group id n (s.hierarchy.below id) .nil).Controlled
    (Mode.production m).direction := hcontrolled
  have hinstalls : ∀ w ∈ (s.hierarchy.below id).descents [n], w.node.isProducer = true →
      0 < w.guideRate .production →
      ∃ c, (s.pushTarget id (.production m) t false).1.UnderControl w.id c ∧
        groupControl s.hierarchy.phases (.production m) c.target = .ok c ∧
        c.target = -t * w.guideRate .production / total / w.efficiency := by
    intro w hw hkind hw0
    obtain ⟨c, hc, hunder⟩ := pushTarget_installs hn hg (hsep.on _) hsum hcontrolled hrun hw hkind hw0
    have htarget := target_of_groupControl hc
    refine ⟨c, hunder, ?_, ?_⟩
    · rw [htarget]
      exact hc
    · rw [htarget, hguide]
      exact w.target_production t _
  refine ⟨hinstalls, ?_, ?_⟩
  · intro w hw hzero
    exact pushTarget_leaves hn hg (hsep.on _) hsum hcontrolled hrun hw hzero
  · intro honly
    have hheld : ∀ w ∈ ((s.hierarchy.below id).descents [n]).filter Descent.sharesProduction,
        w.efficiency * -(s.pushTarget id (.production m) t false).1.heldTarget w.id
          = t / total * w.guideRate .production := by
      intro w hw
      obtain ⟨hmem, hshares⟩ := List.mem_filter.mp hw
      rw [Descent.sharesProduction, Bool.and_eq_true, decide_eq_true_eq] at hshares
      obtain ⟨c, hunder, _, htarget⟩ := hinstalls w hmem hshares.1 hshares.2
      have heff : w.efficiency ≠ 0 := (pathEfficiency_pos w.path).ne'
      rw [hunder.heldTarget, htarget]
      field_simp
    calc (((((s.hierarchy.below id).descents [n]).filter Descent.sharesProduction).map fun w =>
          w.efficiency * -(s.pushTarget id (.production m) t false).1.heldTarget w.id).sum)
        = ((((s.hierarchy.below id).descents [n]).filter Descent.sharesProduction).map fun w =>
            t / total * w.guideRate .production).sum := by rw [List.map_congr_left hheld]
      _ = t / total * total := by
          rw [List.sum_map_mul_left, Forest.sum_sharesProduction _ [n] honly, hguide]
      _ = t := div_mul_cancel₀ t hpos.ne'

/-- A field with a producer of its own and one in a group, both of them half of the time on. -/
def twoLevels : Site ℚ where
  hierarchy := {
    phases := ⟨true, true, false⟩
    nodes := [
      .make "FIELD" none ⟨1, by decide⟩ fieldSpecs .group,
      .make "NORTH" (some 0) ⟨1 / 2, by decide +kernel⟩ fieldSpecs .group,
      .make "P1" (some 1) ⟨1, by decide⟩ (.producer .default) (.well ⟨some ⟨0, .producer⟩, none, true⟩),
      .make "P2" (some 0) ⟨1 / 2, by decide +kernel⟩
        (.producer { ProductionSpec.default with guideRate := ⟨2, by decide +kernel⟩ })
        (.well ⟨some ⟨1, .producer⟩, none, true⟩)] }
  wells := [.ofControls "P1" .producer [.bhp 100], .ofControls "P2" .producer [.bhp 100]]
where
  fieldSpecs : Specs ℚ := .producer { ProductionSpec.default with mode := .orat }

/-- A target of sixty goes to the wells in parts of twenty and forty, each over the time that the
    well is on. -/
theorem pushTarget_splits_twoLevels :
    (twoLevels.pushTarget 0 (.production .orat) 60 false).2 = .ok () ∧
      (∃ c, (twoLevels.pushTarget 0 (.production .orat) 60 false).1.UnderControl 2 c ∧
        c.target = -40) ∧
      (∃ c, (twoLevels.pushTarget 0 (.production .orat) 60 false).1.UnderControl 3 c ∧
        c.target = -80) ∧
      ((((twoLevels.hierarchy.below 0).descents [twoLevels.hierarchy.nodes[0]]).filter
          Descent.sharesProduction).map fun w => w.efficiency *
            -(twoLevels.pushTarget 0 (.production .orat) 60 false).1.heldTarget w.id).sum = 60 := by
  have hrun : (twoLevels.pushTarget 0 (.production .orat) 60 false).2 = .ok () := by decide +kernel
  have htotal : twoLevels.hierarchy.guideRate .production 0 false = .ok 3 := by decide +kernel
  have hn : twoLevels.hierarchy.node 0 = .ok twoLevels.hierarchy.nodes[0] := rfl
  obtain ⟨hinstalls, _, hsum⟩ := pushTarget_splits hn rfl (separate_of_nodup (by decide)) htotal
    (by decide) (by decide +kernel) hrun
  refine ⟨hrun, ?_, ?_, hsum (by decide +kernel)⟩
  · obtain ⟨c, hunder, _, htarget⟩ := hinstalls _ (List.mem_cons_self ..) rfl (by decide +kernel)
    exact ⟨c, hunder, htarget.trans (by decide +kernel)⟩
  · obtain ⟨c, hunder, _, htarget⟩ := hinstalls _
      (List.mem_cons_of_mem _ (List.mem_cons_self ..)) rfl (by decide +kernel)
    exact ⟨c, hunder, htarget.trans (by decide +kernel)⟩

end Site

end ReservoirWells
