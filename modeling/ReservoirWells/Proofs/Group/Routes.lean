import Mathlib.Data.List.Nodup
import ReservoirWells.Proofs.Group.Individual
import ReservoirWells.Proofs.Group.Splitting

/-! # Routes — what a push hands to each single well

    A push is a recursion over a forest.  For a single well only the groups on the way down to it
    matter: each of them takes its share of what it is handed and hands it on, or stops the push.
    This file reads a push along that way, for any flags and any target:

    * `Forest.routes` — the wells of a forest, each with the groups on the way down to it;
    * `Hierarchy.handed` — what arrives at the end of such a way;
    * `Forest.install_of_handed`, `Forest.handed_of_install` — the controls that a push installs are
      those of what arrives. -/

namespace ReservoirWells

variable {α : Type} [Scalar α]

/-! ## Ways down, with the groups on them -/

/-- A well with the groups on the way down to it, from the top. -/
structure Route (α : Type) [Scalar α] where
  groups : List (Nat × Node α)
  id : Nat
  node : Node α

namespace Route

/-- The same well, seen from a group further up. -/
def under (g : Nat × Node α) (r : Route α) : Route α := { r with groups := g :: r.groups }

/-- The nodes on the way, the well itself being the last. -/
def path (r : Route α) : List (Node α) := r.groups.map (·.2) ++ [r.node]

/-- The way without the places of the groups. -/
def descent (r : Route α) : Descent α := ⟨r.id, r.node, r.path⟩

end Route

namespace Forest

/-- The wells of a forest, each with the groups of the forest that it lies below. -/
def routes : Forest α → List (Route α)
  | .nil => []
  | .well id n next => ⟨[], id, n⟩ :: next.routes
  | .group id n below next => below.routes.map (·.under (id, n)) ++ next.routes

/-- The wells at the ends are the wells of the forest. -/
theorem routes_wells (f : Forest α) : f.routes.map (fun r => (r.id, r.node)) = f.wells := by
  induction f with
  | nil => rfl
  | well id n next ih => rw [routes, wells, List.map_cons, ih]
  | group id n below next ihb ihn =>
      rw [routes, wells, List.map_append, List.map_map, ihn, ← ihb]
      rfl

/-- The places at the ends are those of the wells of the forest. -/
theorem routes_ids (f : Forest α) : f.routes.map (·.id) = f.wells.map (·.1) := by
  rw [← f.routes_wells, List.map_map]
  rfl

/-- The ways are the ways down that were taken without the places of the groups. -/
theorem routes_descents (f : Forest α) (above : List (Node α)) :
    f.routes.map (fun r => ⟨r.id, r.node, above ++ r.path⟩) = f.descents above := by
  induction f generalizing above with
  | nil => rfl
  | well id n next ih => rw [routes, descents, List.map_cons, ih]; rfl
  | group id n below next ihb ihn =>
      rw [routes, descents, List.map_append, List.map_map, ihn, ← ihb]
      refine congrArg (· ++ _) (List.map_congr_left fun r _ => ?_)
      show (⟨r.id, r.node, above ++ (n :: r.path)⟩ : Descent α) = _
      rw [List.append_cons]

theorem map_descent_routes (f : Forest α) : f.routes.map Route.descent = f.descents [] :=
  f.routes_descents []

theorem mem_wells_of_mem_routes {f : Forest α} {r : Route α} (hr : r ∈ f.routes) :
    (r.id, r.node) ∈ f.wells := by
  rw [← f.routes_wells]
  exact List.mem_map_of_mem hr

/-- Where no place comes twice, there is one way to a well. -/
theorem eq_of_mem_routes {f : Forest α} (hnodup : f.postorder.Nodup) {r r' : Route α}
    (hr : r ∈ f.routes) (hr' : r' ∈ f.routes) (hid : r.id = r'.id) : r = r' := by
  refine List.inj_on_of_nodup_map ?_ hr hr' hid
  rw [f.routes_ids]
  exact f.wells_sublist_postorder.nodup hnodup

/-- The groups on a way are groups of the hierarchy. -/
theorem groups_of_mem_routes {h : Hierarchy α} {f : Forest α} (hf : f.IsPart h) {r : Route α}
    (hr : r ∈ f.routes) {g : Nat × Node α} (hg : g ∈ r.groups) :
    h.node g.1 = .ok g.2 ∧ g.2.isGroup = true := by
  induction f generalizing r with
  | nil => cases hr
  | well id n next ih =>
      rcases List.mem_cons.mp hr with rfl | hin
      · cases hg
      · exact ih hf.2.2 hin hg
  | group id n below next ihb ihn =>
      obtain ⟨hn, hgroup, _, hpart, hnext⟩ := hf
      rcases List.mem_append.mp hr with hin | hin
      · obtain ⟨r', hr', rfl⟩ := List.mem_map.mp hin
        rcases List.mem_cons.mp hg with rfl | hmem
        · exact ⟨hn, hgroup⟩
        · exact ihb hpart hr' hmem
      · exact ihn hnext hin hg

end Forest

/-- No place comes twice in a subtree. -/
theorem Hierarchy.nodup_postorder_subtree {h : Hierarchy α} {id : Nat} {f : Forest α}
    (hf : h.subtree id = .ok f) : f.postorder.Nodup := by
  cases hn : h.node id with
  | error e => rw [subtree_error hn] at hf; cases hf
  | ok n =>
      cases hg : n.isGroup with
      | true =>
          rw [subtree_group hn hg] at hf
          cases hf
          exact h.nodup_postorder_group id n
      | false =>
          rw [subtree_well hn hg] at hf
          cases hf
          exact List.pairwise_singleton _ id

/-! ## What arrives at the end of a way -/

/-- What a push hands to a well at the end of a way: nothing when a group on the way takes no part, or
    when the well is passed over. A group that takes part hands on the part of its share that
    belongs to a guide rate. -/
def Hierarchy.handed (h : Hierarchy α) (d : Direction) (w : Node α) :
    (onlyGroup shareGroup : Bool) → (target : α → α) → List (Nat × Node α) → Option α
  | onlyGroup, shareGroup, target, [] =>
    if onlyGroup && w.individual then none else some (target (w.share d shareGroup))
  | onlyGroup, shareGroup, target, g :: groups =>
    let below := h.below g.1
    if g.2.declines d onlyGroup || Scalar.isZero (below.divisor d onlyGroup) then none
    else h.handed d w false onlyGroup (fun guide =>
      target (below.guideTotal d shareGroup 0) / g.2.efficiency.val
        * (guide / below.divisor d onlyGroup)) groups

namespace Forest

variable {h : Hierarchy α} {a : ActivePhases} {mode : Mode}

/-- A well of the direction takes the control of what arrives, unless there is no such control. -/
theorem install_of_handed (a : ActivePhases) (mode : Mode) {f : Forest α} (hf : f.IsPart h) :
    ∀ {onlyGroup shareGroup : Bool} {target : α → α} {r : Route α} {x : α}, r ∈ f.routes →
      r.node.isKind mode.direction.wellKind = true →
      h.handed mode.direction r.node onlyGroup shareGroup target r.groups = some x →
      (∃ c, groupControl a mode (mode.direction.wellTarget x r.node.efficiency.val) = .ok c ∧
        .install r.id c ∈ f.push a mode onlyGroup shareGroup target) ∨
      ∃ e, .refuse e ∈ f.push a mode onlyGroup shareGroup target := by
  induction f with
  | nil => intro _ _ _ r x hr; cases hr
  | well id n next ih =>
      intro onlyGroup shareGroup target r x hr hkind hx
      rw [push]
      rcases List.mem_cons.mp hr with rfl | hnext
      · rw [Hierarchy.handed] at hx
        split at hx
        · cases hx
        · next htakes =>
            cases hx
            rcases Node.take_cases hkind htakes id a (target (n.share mode.direction shareGroup))
              with ⟨c, hc, heq⟩ | ⟨e, heq⟩
            · rw [heq]
              exact Or.inl ⟨c, hc, List.mem_append.mpr (Or.inl (List.mem_cons_self ..))⟩
            · rw [heq]
              exact Or.inr ⟨e, List.mem_append.mpr (Or.inl (List.mem_cons_self ..))⟩
      · rcases ih hf.2.2 hnext hkind hx with ⟨c, hc, hmem⟩ | ⟨e, hmem⟩
        · exact Or.inl ⟨c, hc, List.mem_append.mpr (Or.inr hmem)⟩
        · exact Or.inr ⟨e, List.mem_append.mpr (Or.inr hmem)⟩
  | group id n below next ihb ihn =>
      intro onlyGroup shareGroup target r x hr hkind hx
      obtain ⟨_, _, hbelow, hpart, hnext⟩ := hf
      rw [push]
      rcases List.mem_append.mp hr with hin | hin
      · obtain ⟨r', hr', rfl⟩ := List.mem_map.mp hin
        rw [Route.under, Hierarchy.handed] at hx
        simp only [← hbelow] at hx
        split at hx
        · cases hx
        · next htakes =>
            simp only [if_neg htakes]
            rcases ihb hpart hr' hkind hx with ⟨c, hc, hmem⟩ | ⟨e, hmem⟩
            · exact Or.inl ⟨c, hc,
                List.mem_append.mpr (Or.inl (List.mem_append.mpr (Or.inl hmem)))⟩
            · exact Or.inr ⟨e, List.mem_append.mpr (Or.inl (List.mem_append.mpr (Or.inl hmem)))⟩
      · rcases ihn hnext hin hkind hx with ⟨c, hc, hmem⟩ | ⟨e, hmem⟩
        · exact Or.inl ⟨c, hc, List.mem_append.mpr (Or.inr hmem)⟩
        · exact Or.inr ⟨e, List.mem_append.mpr (Or.inr hmem)⟩

/-- A control that a push installs is the control of what arrives at a well of the direction. -/
theorem handed_of_install {f : Forest α} (hf : f.IsPart h) {id : Nat} {c : Control α} :
    ∀ {onlyGroup shareGroup : Bool} {target : α → α},
      .install id c ∈ f.push a mode onlyGroup shareGroup target →
      ∃ r ∈ f.routes, r.id = id ∧ r.node.isKind mode.direction.wellKind = true ∧ ∃ x,
        h.handed mode.direction r.node onlyGroup shareGroup target r.groups = some x ∧
        groupControl a mode (mode.direction.wellTarget x r.node.efficiency.val) = .ok c := by
  induction f with
  | nil => intro _ _ _ hmem; cases hmem
  | well wid n next ih =>
      intro onlyGroup shareGroup target hmem
      rw [push] at hmem
      rcases List.mem_append.mp hmem with hown | hnext
      · obtain ⟨hkind, ⟨c', hc, heq⟩ | ⟨e, _, heq⟩⟩ := Node.mem_take hown
        · cases heq
          refine ⟨⟨[], id, n⟩, List.mem_cons_self .., rfl, hkind, _, ?_, hc⟩
          rw [Hierarchy.handed]
          refine if_neg fun hskip => ?_
          rw [Node.take, hkind, Bool.not_true, if_neg Bool.false_ne_true, if_pos hskip] at hown
          cases hown
        · cases heq
      · obtain ⟨r, hr, hrest⟩ := ih hf.2.2 hnext
        exact ⟨r, List.mem_cons_of_mem _ hr, hrest⟩
  | group gid n below next ihb ihn =>
      intro onlyGroup shareGroup target hmem
      obtain ⟨_, _, hbelow, hpart, hnext⟩ := hf
      rw [push] at hmem
      rcases List.mem_append.mp hmem with hown | hin
      · split at hown
        · cases hown
        · next htakes =>
            rcases List.mem_append.mp hown with hin | hself
            · obtain ⟨r, hr, hid, hkind, x, hx, hc⟩ := ihb hpart hin
              refine ⟨r.under (gid, n), List.mem_append.mpr (Or.inl (List.mem_map_of_mem hr)), hid,
                hkind, x, ?_, hc⟩
              rw [Route.under, Hierarchy.handed]
              simp only [← hbelow, if_neg htakes]
              exact hx
            · cases List.mem_singleton.mp hself
      · obtain ⟨r, hr, hrest⟩ := ihn hnext hin
        exact ⟨r, List.mem_append.mpr (Or.inr hr), hrest⟩

end Forest

end ReservoirWells
