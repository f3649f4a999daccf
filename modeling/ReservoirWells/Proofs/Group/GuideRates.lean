import ReservoirWells.Proofs.Group.Signs
import ReservoirWells.Proofs.Group.Lineage

/-! # Guide rates — which wells a group counts

    The guide rate of a group is added up by a walk over everything below it.  With the flag for group
    control the walk passes over nodes under individual control, in production at every node on the
    way, in injection at the wells only.  When nothing is rounded, the outcome is a sum over wells:

    * `Route.counts` — whether a well is counted, by the nodes on the way down to it;
    * `Forest.guideTotal_eq_sum_counts` — the walk adds up the guide rates of the wells that count;
    * `Site.guideRate_sums` — so the guide rates of a group are those of the wells under it, or of the
      ones among them that count. -/

namespace ReservoirWells

variable {α : Type}

namespace Route

variable [Scalar α]

/-- The nodes on the way with their places, the well itself being the last. -/
def stops (r : Route α) : List (Nat × Node α) := r.groups ++ [(r.id, r.node)]

/-- Whether a well counts when only wells under group control do: in production no node on the way may
    be under individual control, in injection only the well itself may not. -/
def counts (d : Direction) (r : Route α) : Bool :=
  match d with
  | .production => r.stops.all fun stop => !stop.2.individual
  | .injection => !r.node.individual

/-- A group on top of the way matters in production only. -/
theorem counts_under (d : Direction) (g : Nat × Node α) (r : Route α) :
    (r.under g).counts d = (!(d == .production && g.2.individual) && r.counts d) := by
  cases d with
  | production => rfl
  | injection => rfl

end Route

/-! ## A walk that adds up guide rates -/

namespace Forest

variable [ExactScalar α]

/-- The guide rates at the ends of some ways. -/
def guideSum (d : Direction) (ways : List (Route α)) : α :=
  (ways.map fun r => r.node.specs.guideRate d).sum

theorem guideSum_under (d : Direction) (g : Nat × Node α) (ways : List (Route α)) :
    guideSum d (ways.map (·.under g)) = guideSum d ways := by
  rw [guideSum, List.map_map]
  rfl

theorem guideSum_append (d : Direction) (ways ways' : List (Route α)) :
    guideSum d (ways ++ ways') = guideSum d ways + guideSum d ways' := by
  rw [guideSum, List.map_append, List.sum_append]
  rfl

/-- Without the flag all wells count. -/
theorem guideTotal_eq_sum_routes (d : Direction) (f : Forest α) :
    f.guideTotal d false 0 = guideSum d f.routes := by
  rw [guideTotal_eq, zero_add, ← f.routes_wells, List.map_map]
  rfl

/-- With the flag the walk adds up the guide rates of the wells that count. -/
theorem guideTotal_eq_sum_counts (d : Direction) (f : Forest α) :
    f.guideTotal d true 0 = guideSum d (f.routes.filter (·.counts d)) := by
  induction f with
  | nil => rfl
  | well id n next ih =>
      have hself : (⟨[], id, n⟩ : Route α).counts d = !n.individual := by
        cases d with
        | production => exact Bool.and_true _
        | injection => rfl
      rw [guideTotal, guideTotal_add, ih, routes, List.filter_cons, hself, zero_add, Node.share]
      cases n.individual with
      | true => exact zero_add _
      | false => rfl
  | group id n below next ihb ihn =>
      rw [guideTotal, guideTotal_add, ihb, ihn, routes, List.filter_append, guideSum_append,
        List.filter_map, guideSum_under, Bool.and_true, zero_add]
      refine congrArg (· + _) ?_
      show _ = guideSum d (below.routes.filter fun r => (r.under (id, n)).counts d)
      simp only [Route.counts_under]
      cases hskip : d == .production && n.individual with
      | true =>
          -- no well below the group counts
          rw [if_pos rfl, show (below.routes.filter fun r => !true && r.counts d) = [] from
            List.filter_eq_nil_iff.mpr fun r _ => Bool.false_ne_true]
          rfl
      | false => rfl

end Forest

/-! ## The guide rate of a group -/

namespace Hierarchy

variable [Scalar α] {h : Hierarchy α} {id : Nat}

/-- There is one way to each well under a group, and none to anything else. -/
theorem IsTree.mem_ends (htree : h.IsTree) {n : Node α} (hn : h.node id = .ok n)
    (hgroup : n.isGroup = true) (j : Nat) : j ∈ (h.below id).routes.map (·.id) ↔
      h.IsUnder id j ∧ ∃ w, h.node j = .ok w ∧ w.isGroup = false := by
  rw [Forest.routes_ids, List.mem_map]
  constructor
  · rintro ⟨⟨j, w⟩, hmem, rfl⟩
    obtain ⟨_, hunder, hw, hwell⟩ := htree.mem_wells_below.mp hmem
    exact ⟨hunder, w, hw, hwell⟩
  · rintro ⟨hunder, w, hw, hwell⟩
    refine ⟨(j, w), htree.mem_wells_below.mpr ⟨?_, hunder, hw, hwell⟩, rfl⟩
    rintro rfl
    rw [hn] at hw
    cases hw
    rw [hgroup] at hwell
    cases hwell

/-- The stops of a way are the nodes between the group and the well, the well included and the group
    not. -/
theorem IsTree.mem_stops (htree : h.IsTree) {r : Route α} (hr : r ∈ (h.below id).routes) (k : Nat)
    (m : Node α) : (k, m) ∈ r.stops ↔
      k ≠ id ∧ h.IsUnder id k ∧ h.IsUnder k r.id ∧ h.node k = .ok m := by
  obtain ⟨hne, hunder, hw, hwell⟩ := htree.mem_wells_below.mp (Forest.mem_wells_of_mem_routes hr)
  rw [Route.stops, List.mem_append, List.mem_singleton, htree.mem_groups_route hr]
  constructor
  · rintro (⟨hk, htop, hend, hm, _⟩ | heq)
    · exact ⟨hk, htop, hend, hm⟩
    · cases heq
      exact ⟨hne, hunder, .refl, hw⟩
  · rintro ⟨hk, htop, hend, hm⟩
    cases hkind : m.isGroup with
    | true => exact Or.inl ⟨hk, htop, hend, hm, rfl⟩
    | false =>
        -- nothing but the well itself is a well that the well lies under
        refine Or.inr ?_
        by_cases heq : r.id = k
        · subst heq
          rw [Except.ok.inj (hm.symm.trans hw)]
        · obtain ⟨g, hg, hgroup⟩ := htree.isGroup_of_isUnder hend heq
          rw [Except.ok.inj (hm.symm.trans hg), hgroup] at hkind
          cases hkind

end Hierarchy

namespace Site

variable [ExactScalar α]

/-- The guide rate of a group is the sum over the wells under it. With the flag it is the sum over a
    part of them: in production over the wells to which the way down, from below the group to the
    well itself, meets no node under individual control; in injection over the wells that are not
    under individual control themselves. The part is at least zero and at most the whole. -/
theorem guideRate_sums (phases : ActivePhases) (calls : List (Call α)) {id : Nat} {n : Node α}
    (hn : ((vacant phases).serve calls).hierarchy.node id = .ok n) (hgroup : n.isGroup = true) :
    let h := ((vacant phases).serve calls).hierarchy
    let ways := (h.below id).routes
    ((ways.map (·.id)).Nodup ∧ ∀ j, j ∈ ways.map (·.id) ↔
      h.IsUnder id j ∧ ∃ w, h.node j = .ok w ∧ w.isGroup = false) ∧
    (∀ r ∈ ways, ∀ k m, (k, m) ∈ r.stops ↔
      k ≠ id ∧ h.IsUnder id k ∧ h.IsUnder k r.id ∧ h.node k = .ok m) ∧
    h.guideRate .production id false = .ok (Forest.guideSum .production ways) ∧
    h.guideRate .production id true
      = .ok (Forest.guideSum .production (ways.filter fun r => r.stops.all fun k => !k.2.individual)) ∧
    h.guideRate .injection id false = .ok (Forest.guideSum .injection ways) ∧
    h.guideRate .injection id true
      = .ok (Forest.guideSum .injection (ways.filter fun r => !r.node.individual)) ∧
    ∀ d, ∃ part whole, h.guideRate d id true = .ok part ∧ h.guideRate d id false = .ok whole ∧
      0 ≤ part ∧ part ≤ whole := by
  intro h ways
  have htree : h.IsTree := serve_isTree phases calls
  have hall : ∀ d, h.guideRate d id false = .ok (Forest.guideSum d ways) := by
    intro d
    rw [Hierarchy.guideRate_group hn hgroup, Forest.guideTotal_eq_sum_routes]
  have hcounting : ∀ d, h.guideRate d id true = .ok (Forest.guideSum d (ways.filter (·.counts d))) := by
    intro d
    rw [Hierarchy.guideRate_group hn hgroup, Forest.guideTotal_eq_sum_counts]
  refine ⟨⟨?_, htree.mem_ends hn hgroup⟩, fun r hr => htree.mem_stops hr, hall .production,
    hcounting .production, hall .injection, hcounting .injection, fun d => ?_⟩
  · rw [Forest.routes_ids]
    exact (h.below id).wells_sublist_postorder.nodup (h.nodup_postorder_below id).1
  · exact ⟨_, _, Hierarchy.guideRate_group hn hgroup d true,
      Hierarchy.guideRate_group hn hgroup d false, Forest.guideTotal_nonneg d true _,
      Forest.guideTotal_true_le d _⟩

/-- A field with two producers and two injectors, one of each in a group of their own. The producer
    outside of that group and the injector in it count twice. The group and the injector outside of it
    stay under individual control. -/
def guidedFieldCalls : List (Call ℚ) := [
  .addGroup "FIELD" none .one ⟨.default, .default⟩,
  .addWell "P1" (some 0) .one (.producer { ProductionSpec.default with guideRate := .two }),
  .addGroup "EAST" (some 0) .one ⟨.default, .default⟩,
  .addWell "P2" (some 2) .one (.producer .default),
  .addWell "I1" (some 2) .one (.injector { InjectionSpec.default with guideRate := .two }),
  .addWell "I2" (some 0) .one (.injector .default),
  .edit 1 (.individual false),
  .edit 3 (.individual false),
  .edit 4 (.individual false)]

/-- The hierarchy of that field. -/
def guidedField : Hierarchy ℚ := ((vacant ⟨true, true, true⟩).serve guidedFieldCalls).hierarchy

/-- The group of all wells. -/
def guidedFieldGroup : Node ℚ := guidedField.nodes.get ⟨0, by decide +kernel⟩

/-- The group of their own keeps its producer from being counted, but not its injector. -/
theorem guideRate_sums_guidedField :
    guidedField.guideRate .production 0 false = .ok 3 ∧
      guidedField.guideRate .production 0 true = .ok 2 ∧
      guidedField.guideRate .injection 0 false = .ok 3 ∧
      guidedField.guideRate .injection 0 true = .ok 2 := by
  have hn : guidedField.node 0 = .ok guidedFieldGroup :=
    Hierarchy.node_eq_ok.mpr (List.getElem?_eq_getElem _)
  obtain ⟨_, _, hproduction, hproducing, hinjection, hinjecting, _⟩ :=
    guideRate_sums ⟨true, true, true⟩ guidedFieldCalls hn (by decide +kernel)
  refine ⟨hproduction.trans ?_, hproducing.trans ?_, hinjection.trans ?_, hinjecting.trans ?_⟩ <;>
    decide +kernel

end Site

end ReservoirWells
