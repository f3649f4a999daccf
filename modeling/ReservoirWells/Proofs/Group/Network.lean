import ReservoirWells.Group.Network
import ReservoirWells.Proofs.Group.Tree

/-! # Network — the stored children are the nodes that name their parent

    Every member of a network keeps a list of its children, and every node names its parent.  A
    network is consistent when the nodes form a tree and every list says what the parents say; then
    a walk down the lists finds the same forest as a walk over the nodes, to any depth that no way
    down reaches (`Network.Consistent.unfold_eq`).

    An insertion changes two places, the list of the parent and the end of the network, but only
    after everything that can be wrong was looked at.

    * `Network.run_insert` — an insertion fails and changes nothing, or makes both changes;
    * `Network.Consistent.joined` — which leave a consistent network consistent;
    * `Network.Consistent.of_outline` — and so does everything that changes neither lists nor
      outline. -/

namespace ReservoirWells

variable {α : Type} [Scalar α]

namespace Steps

variable {σ β : Type}

theorem run_ask (value : σ → Except GroupError β) (s : σ) :
    (ask value).run s = match value s with
      | .ok b => .ok b s
      | .error e => .error e s := rfl

end Steps

/-- A change of one entry goes through a map. -/
theorem map_modify {β γ : Type} {g : β → γ} {f : β → β} {f' : γ → γ} (h : ∀ b, g (f b) = f' (g b))
    (l : List β) (i : Nat) : (l.modify i f).map g = (l.map g).modify i f' := by
  refine List.ext_getElem? fun j => ?_
  rw [List.getElem?_map, List.getElem?_modify, List.getElem?_modify, List.getElem?_map]
  cases l[j]? with
  | none => rfl
  | some b =>
      show some (g (if i = j then f b else b)) = some (if i = j then f' (g b) else g b)
      split
      · rw [h]
      · rfl

/-- A change of one entry that a map does not see. -/
theorem map_modify_eq_map {β γ : Type} {g : β → γ} {f : β → β} (h : ∀ b, g (f b) = g b)
    (l : List β) (i : Nat) : (l.modify i f).map g = l.map g := by
  rw [← List.modify_id i (l.map g)]
  exact map_modify h l i

namespace Network

variable {w w' : Network α} {id : Nat} {m : Member α} {n : Node α}

/-! ## Members and nodes -/

theorem member_eq_ok : w.member id = .ok m ↔ w.members[id]? = some m := by
  cases hl : w.members[id]? with
  | none => simp [member, hl]
  | some m' => simp [member, hl]

theorem node_hierarchy (w : Network α) (id : Nat) :
    w.hierarchy.node id = (w.member id).map (·.node) := by
  rw [Hierarchy.node, hierarchy, member, List.getElem?_map]
  cases w.members[id]? <;> rfl

theorem node_of_member (h : w.member id = .ok m) : w.hierarchy.node id = .ok m.node := by
  rw [node_hierarchy, h]
  rfl

theorem member_of_node (h : w.hierarchy.node id = .ok n) :
    ∃ m, w.member id = .ok m ∧ m.node = n := by
  rw [node_hierarchy] at h
  cases hm : w.member id with
  | error e => rw [hm] at h; cases h
  | ok m =>
      rw [hm] at h
      exact ⟨m, rfl, Except.ok.inj h⟩

theorem member_of_error {e : GroupError} (h : w.hierarchy.node id = .error e) :
    w.member id = .error e := by
  rw [node_hierarchy] at h
  cases hm : w.member id with
  | error e' =>
      rw [hm] at h
      exact congrArg Except.error (Except.error.inj h)
  | ok m => rw [hm] at h; cases h

theorem length_nodes (w : Network α) : w.hierarchy.nodes.length = w.members.length :=
  List.length_map ..

theorem lt_length_of_member (h : w.member id = .ok m) : id < w.members.length :=
  (List.getElem?_eq_some_iff.mp (member_eq_ok.mp h)).1

/-- The stored lists of children, in order. -/
def lists (w : Network α) : List (List Nat) := w.members.map (·.children)

/-- The nodes form a tree, and every list says what the parents say. -/
structure Consistent (w : Network α) : Prop where
  tree : w.hierarchy.IsTree
  lists_eq : ∀ id m, w.member id = .ok m → m.children = w.hierarchy.childrenOf (some id)

theorem consistent_empty (phases : ActivePhases) : (empty phases : Network α).Consistent :=
  ⟨Hierarchy.isTree_empty phases, fun _ _ hm => by cases hm⟩

/-- Whether a network is consistent can be seen from its lists and its outline. -/
theorem Consistent.of_outline (h : w.Consistent) (hlists : w'.lists = w.lists)
    (houtline : w'.hierarchy.outline = w.hierarchy.outline) : w'.Consistent := by
  refine ⟨h.tree.of_outline houtline, fun id m hm => ?_⟩
  have hget : (w'.members[id]?).map (·.children) = (w.members[id]?).map (·.children) := by
    rw [← List.getElem?_map, ← List.getElem?_map]
    exact congrArg (·[id]?) hlists
  rw [member_eq_ok.mp hm] at hget
  obtain ⟨k, hk, hchildren⟩ := Option.map_eq_some_iff.mp hget.symm
  rw [← show k.children = m.children from hchildren, h.lists_eq id k (member_eq_ok.mpr hk),
    Hierarchy.childrenOf_of_outline houtline]

/-! ## The lists of a consistent network -/

namespace Consistent

variable (hw : w.Consistent)

include hw

/-- No name comes twice. -/
theorem names : (w.members.map (·.node.name)).Nodup := by
  have hnames := hw.tree.names
  rwa [hierarchy, List.map_map] at hnames

/-- A parent is a group that comes before its children. -/
theorem parent {q : Nat} (hm : w.member id = .ok m) (hq : m.node.parent = some q) :
    q < id ∧ ∃ g, w.member q = .ok g ∧ g.node.isGroup = true := by
  obtain ⟨hlt, n, hn, hgroup⟩ := hw.tree.parents id m.node q (node_of_member hm) hq
  obtain ⟨g, hg, rfl⟩ := member_of_node hn
  exact ⟨hlt, g, hg, hgroup⟩

/-- A node is on the list of its parent once, and on no other list. -/
theorem count_children (hm : w.member id = .ok m) {q : Nat} {g : Member α}
    (hg : w.member q = .ok g) :
    g.children.count id = if m.node.parent = some q then 1 else 0 := by
  rw [hw.lists_eq q g hg]
  exact Hierarchy.count_childrenOf (node_of_member hm) (some q)

/-- Children are listed in the order in which they were added. -/
theorem pairwise_children (hm : w.member id = .ok m) : m.children.Pairwise (· < ·) := by
  rw [hw.lists_eq id m hm]
  exact w.hierarchy.pairwise_childrenOf (some id)

/-- What is on a list is there, and names the owner of the list as its parent. -/
theorem mem_children (hm : w.member id = .ok m) {child : Nat} (hchild : child ∈ m.children) :
    ∃ c, w.member child = .ok c ∧ c.node.parent = some id := by
  rw [hw.lists_eq id m hm] at hchild
  obtain ⟨n, hn, hparent⟩ := Hierarchy.mem_childrenOf.mp hchild
  obtain ⟨c, hc, rfl⟩ := member_of_node hn
  exact ⟨c, hc, hparent⟩

end Consistent

/-! ## Walks down the lists -/

theorem unfold_nil (w : Network α) (depth : Nat) : w.unfold depth [] = .ok .nil := by
  cases depth <;> rfl

namespace Consistent

variable (hw : w.Consistent)

include hw

/-- Nothing is on the list of a well. -/
theorem children_of_well (hm : w.member id = .ok m) (hwell : m.node.isGroup = false) :
    m.children = [] := by
  rw [List.eq_nil_iff_forall_not_mem]
  intro child hchild
  obtain ⟨c, hc, hparent⟩ := hw.mem_children hm hchild
  obtain ⟨_, g, hg, hgroup⟩ := hw.parent hc hparent
  rw [hm] at hg
  cases hg
  rw [hwell] at hgroup
  cases hgroup

/-- The list of a member leads to what is below its node. -/
theorem children_eq (hm : w.member id = .ok m) :
    m.children = (w.hierarchy.below id).siblings.map (·.1) := by
  rw [hw.lists_eq id m hm, hw.tree.siblings_below id]

/-- A walk down the lists that goes deep enough finds the forest that is found from the nodes. -/
theorem unfold_eq {f : Forest α} {depth : Nat} (hf : f.IsPart w.hierarchy)
    (hdeep : ∀ j ∈ f.postorder, w.members.length < depth + j) :
    w.unfold depth (f.siblings.map (·.1)) = .ok f := by
  induction f generalizing depth with
  | nil => exact w.unfold_nil depth
  | well id n next ih =>
      obtain ⟨hn, hwell, hnext⟩ := hf
      obtain ⟨m, hm, rfl⟩ := member_of_node hn
      have hid := hdeep id (List.mem_cons_self ..)
      obtain ⟨depth, rfl⟩ : ∃ d, depth = d + 1 :=
        Nat.exists_eq_succ_of_ne_zero (by have := lt_length_of_member hm; omega)
      have hrest := ih hnext fun j hj => hdeep j (List.mem_cons_of_mem id hj)
      show (w.member id >>= fun m => _) = _
      rw [hm, ok_bind, hw.children_of_well hm hwell, unfold_nil, ok_bind]
      show (w.unfold (depth + 1) (next.siblings.map (·.1)) >>= fun rest => _) = _
      rw [hrest, ok_bind]
      obtain ⟨link, hr⟩ := Node.role_of_well hwell
      rw [hr]
      rfl
  | group id n below next ihb ihn =>
      obtain ⟨hn, hgroup, rfl, hbelow, hnext⟩ := hf
      obtain ⟨m, hm, rfl⟩ := member_of_node hn
      have hid := hdeep id (List.mem_append_right _ (List.mem_cons_self ..))
      obtain ⟨depth, rfl⟩ : ∃ d, depth = d + 1 :=
        Nat.exists_eq_succ_of_ne_zero (by have := lt_length_of_member hm; omega)
      have hunder : w.unfold depth ((w.hierarchy.below id).siblings.map (·.1))
          = .ok (w.hierarchy.below id) :=
        ihb hbelow fun j hj => by have := Hierarchy.lt_of_mem_below hj; omega
      have hrest := ihn hnext fun j hj =>
        hdeep j (List.mem_append_right _ (List.mem_cons_of_mem id hj))
      show (w.member id >>= fun m => _) = _
      rw [hm, ok_bind, hw.children_eq hm, hunder, ok_bind]
      show (w.unfold (depth + 1) (next.siblings.map (·.1)) >>= fun rest => _) = _
      rw [hrest, ok_bind, (Node.isGroup_iff _).mp hgroup]
      rfl

/-- The lists lead to the forest below a node. -/
theorem below_eq (hm : w.member id = .ok m) : w.below id = .ok (w.hierarchy.below id) := by
  rw [below, hm, ok_bind, hw.children_eq hm]
  refine hw.unfold_eq (w.hierarchy.below_isPart id) fun j hj => ?_
  have := Hierarchy.lt_of_mem_below hj
  omega

theorem below_of_node (hn : w.hierarchy.node id = .ok n) :
    w.below id = .ok (w.hierarchy.below id) := by
  obtain ⟨m, hm, _⟩ := member_of_node hn
  exact hw.below_eq hm

/-- And to the subtree of a node. -/
theorem subtree_eq (id : Nat) : w.subtree id = w.hierarchy.subtree id := by
  cases hf : w.hierarchy.subtree id with
  | error e =>
      have hn : w.hierarchy.node id = .error e := by
        cases hn : w.hierarchy.node id with
        | error e' =>
            rw [Hierarchy.subtree_error hn] at hf
            exact congrArg Except.error (Except.error.inj hf)
        | ok n => rw [Hierarchy.subtree, hn] at hf; cases hf
      show (w.member id >>= fun m => _) = _
      rw [member_of_error hn]
      rfl
  | ok f =>
      have hsiblings : f.siblings.map (·.1) = [id] := by
        cases hn : w.hierarchy.node id with
        | error e => rw [Hierarchy.subtree_error hn] at hf; cases hf
        | ok n =>
            cases hgroup : n.isGroup with
            | true =>
                rw [Hierarchy.subtree_group hn hgroup] at hf
                cases hf
                rfl
            | false =>
                rw [Hierarchy.subtree_well hn hgroup] at hf
                cases hf
                rfl
      rw [subtree, ← hsiblings]
      exact hw.unfold_eq (Hierarchy.subtree_isPart hf) fun j _ => by omega

/-- The guide rate that the lists lead to. -/
theorem guideRate_eq (d : Direction) (id : Nat) (onlyGroup : Bool) :
    w.guideRate d id onlyGroup = w.hierarchy.guideRate d id onlyGroup := by
  rw [guideRate]
  cases hn : w.hierarchy.node id with
  | error e =>
      rw [member_of_error hn, Hierarchy.guideRate, hn]
      rfl
  | ok n =>
      obtain ⟨m, hm, rfl⟩ := member_of_node hn
      rw [hm, ok_bind]
      cases hg : m.node.isGroup with
      | true =>
          rw [Hierarchy.guideRate_group hn hg, hw.below_eq hm, (Node.isGroup_iff _).mp hg]
          rfl
      | false =>
          obtain ⟨link, hr⟩ := Node.role_of_well hg
          rw [Hierarchy.guideRate_well hn hg, hr]
          rfl

theorem find?_eq (start : Nat) (name : String) :
    w.find? start name = w.hierarchy.find? start name := by
  rw [find?, hw.subtree_eq]
  rfl

theorem wellCount_eq (id : Nat) : w.wellCount id = w.hierarchy.wellCount id := by
  rw [wellCount, hw.subtree_eq]
  rfl

omit hw in
theorem roots_eq (w : Network α) : w.roots = w.hierarchy.roots := by
  have hroot : ∀ entry : Member α × Nat,
      entry.1.node.parent.isNone = (entry.1.node.parent == none) := by
    intro entry
    cases entry.1.node.parent <;> rfl
  rw [roots, Hierarchy.roots, Hierarchy.childrenOf, hierarchy, List.zipIdx_map, List.filter_map,
    List.map_map]
  simp only [hroot]
  rfl

/-- The numbers of wells that the lists of the roots lead to add up to the number of all wells. -/
theorem sum_wellCount_roots : ∃ counts, w.roots.mapM w.wellCount = .ok counts ∧
    counts.sum = w.members.countP fun m => !m.node.isGroup := by
  obtain ⟨counts, hcounts, hsum⟩ := hw.tree.sum_wellCount_roots
  refine ⟨counts, ?_, ?_⟩
  · rw [roots_eq, funext hw.wellCount_eq]
    exact hcounts
  · rw [hsum, hierarchy, List.countP_map]
    rfl

theorem produced_eq (id : Nat) (flows : List α) (p : Phase) :
    w.produced id flows p = w.hierarchy.produced id flows p := by
  rw [produced, hw.subtree_eq]
  rfl

theorem worst_eq (id : Nat) (rates : RateTable α) (mode : ProductionMode) :
    w.worst id rates mode = w.hierarchy.worst id rates mode := by
  rw [worst, hw.subtree_eq]
  rfl

end Consistent

/-! ## Insertions -/

/-- The network with one more node: at the end, and on the list of its parent. -/
def joined (w : Network α) (n : Node α) : Network α :=
  (match n.parent with
    | some parent => w.enlist parent w.members.length
    | none => w).append n

/-- A node is refused as the hierarchy refuses it, before anything is written, or it joins. -/
theorem run_insert (w : Network α) (n : Node α) :
    (insert n).run w = match w.hierarchy.insert n with
      | .ok (_, id) => .ok id (w.joined n)
      | .error e => .error e w := by
  rw [insert, Hierarchy.insert,
    show w.hierarchy.nodes.any (·.name == n.name) = w.members.any (·.node.name == n.name) from
      List.any_map]
  simp only [EStateM.run_bind, EStateM.run_get]
  split
  · rfl
  · cases hp : n.parent with
    | none =>
        rw [joined, hp, ← length_nodes]
        rfl
    | some parent =>
        rw [Hierarchy.checkParent, node_hierarchy, EStateM.run_bind, Steps.run_ask]
        cases hm : w.member parent with
        | error e => rfl
        | ok above =>
            rw [joined, hp, ← length_nodes]
            dsimp only [Except.map]
            cases above.node.isGroup <;> rfl

theorem hierarchy_enlist (w : Network α) (parent id : Nat) :
    (w.enlist parent id).hierarchy = w.hierarchy := by
  have hnodes : (w.enlist parent id).members.map (·.node) = w.members.map (·.node) :=
    map_modify_eq_map (by intro m; rfl) _ _
  rw [hierarchy, hnodes]
  rfl

theorem hierarchy_append (w : Network α) (n : Node α) :
    (w.append n).hierarchy = w.hierarchy.concat n := by
  rw [hierarchy, append, List.map_append]
  rfl

/-- The nodes are those before, and the new one. -/
theorem hierarchy_joined (w : Network α) (n : Node α) :
    (w.joined n).hierarchy = w.hierarchy.concat n := by
  rw [joined, hierarchy_append]
  cases n.parent with
  | none => rfl
  | some parent => rw [hierarchy_enlist]

theorem length_joined (w : Network α) (n : Node α) :
    (w.joined n).members.length = w.members.length + 1 := by
  rw [← length_nodes, hierarchy_joined, Hierarchy.concat, List.length_append, length_nodes]
  rfl

/-- Earlier members keep their nodes, and their lists but for that of the parent. -/
theorem member_joined (hm : w.member id = .ok m) (n : Node α) :
    (w.joined n).member id = .ok { m with
      children := m.children ++ if n.parent = some id then [w.members.length] else [] } := by
  have hlt := lt_length_of_member hm
  rw [member_eq_ok] at hm ⊢
  cases hp : n.parent with
  | none =>
      rw [joined, hp, append, List.getElem?_append_left hlt, hm, if_neg (by simp), List.append_nil]
  | some parent =>
      rw [joined, hp, append]
      show ((w.enlist parent w.members.length).members ++ [_])[id]? = _
      rw [List.getElem?_append_left (by rwa [enlist, List.length_modify]), enlist,
        List.getElem?_modify, hm]
      by_cases heq : parent = id
      · rw [if_pos (congrArg some heq)]
        simp [heq]
      · rw [if_neg fun h => heq (Option.some.inj h)]
        simp [heq]

theorem member_joined_last (w : Network α) (n : Node α) :
    (w.joined n).member w.members.length = .ok ⟨n, []⟩ := by
  have hlength : ∀ v : Network α, v.members.length = w.members.length →
      (v.append n).member w.members.length = .ok ⟨n, []⟩ := by
    intro v hv
    rw [member_eq_ok, append, ← hv, List.getElem?_concat_length]
  rw [joined]
  cases n.parent with
  | none => exact hlength w rfl
  | some parent => exact hlength _ (List.length_modify ..)

/-- A member of the larger network was there before, or is the new one. -/
theorem member_of_joined (hm : (w.joined n).member id = .ok m) :
    (∃ k, w.member id = .ok k ∧ m = { k with
      children := k.children ++ if n.parent = some id then [w.members.length] else [] }) ∨
    (id = w.members.length ∧ m = ⟨n, []⟩) := by
  have hnode := node_of_member hm
  rw [hierarchy_joined] at hnode
  rcases Hierarchy.node_concat.mp hnode with hold | ⟨hlast, _⟩
  · obtain ⟨k, hk, _⟩ := member_of_node hold
    exact Or.inl ⟨k, hk, Except.ok.inj (hm.symm.trans (member_joined hk n))⟩
  · rw [length_nodes] at hlast
    subst hlast
    exact Or.inr ⟨rfl, Except.ok.inj (hm.symm.trans (w.member_joined_last n))⟩

/-- An admitted node may join a consistent network. -/
theorem Consistent.joined (hw : w.Consistent) (hn : w.hierarchy.Admits n) :
    (w.joined n).Consistent := by
  have htree := hw.tree.concat hn
  refine ⟨hierarchy_joined w n ▸ htree, fun id m hm => ?_⟩
  rw [hierarchy_joined, Hierarchy.childrenOf_concat, length_nodes]
  rcases member_of_joined hm with ⟨k, hk, rfl⟩ | ⟨rfl, rfl⟩
  · rw [hw.lists_eq id k hk]
  · -- nothing names the new place as its parent, for a parent is there before its children
    rw [← length_nodes, ← Hierarchy.childrenOf_concat]
    refine (List.eq_nil_iff_forall_not_mem.mpr fun child hchild => ?_).symm
    obtain ⟨c, hc, hparent⟩ := Hierarchy.mem_childrenOf.mp hchild
    have hbefore := (htree.parents child c _ hc hparent).1
    have hthere := (List.getElem?_eq_some_iff.mp (Hierarchy.node_eq_ok.mp hc)).1
    rw [Hierarchy.concat, List.length_append, List.length_singleton] at hthere
    omega

/-! ## Attachments and edits -/

theorem hierarchy_modifyNode (w : Network α) (id : Nat) (f : Node α → Node α) :
    (w.modifyNode id f).hierarchy = w.hierarchy.modify id f := by
  have hnodes : (w.modifyNode id f).members.map (·.node) = (w.members.map (·.node)).modify id f :=
    map_modify (by intro m; rfl) _ _
  rw [hierarchy, hnodes]
  rfl

theorem lists_modifyNode (w : Network α) (id : Nat) (f : Node α → Node α) :
    (w.modifyNode id f).lists = w.lists :=
  map_modify_eq_map (by intro m; rfl) _ _

/-- An attachment is refused as the hierarchy refuses it, or it changes the node of the well. -/
theorem run_attach (w : Network α) (id index : Nat) (wells : WellTable α) :
    (∃ e, w.hierarchy.attach id index wells = .error e ∧
      (attach id index wells).run w = .error e w) ∨
    ∃ f, w.hierarchy.attach id index wells = .ok (w.hierarchy.modify id f) ∧
      (attach id index wells).run w = .ok () (w.modifyNode id f) := by
  rw [attach, Hierarchy.attach, node_hierarchy, EStateM.run_bind, Steps.run_ask]
  cases wells.well index with
  | error e => exact Or.inl ⟨e, rfl, rfl⟩
  | ok entry =>
      dsimp only
      rw [EStateM.run_bind, Steps.run_ask]
      cases w.member id with
      | error e => exact Or.inl ⟨e, rfl, rfl⟩
      | ok m =>
          simp only [bind, Except.bind, Except.map]
          cases m.node.isGroup with
          | true => exact Or.inl ⟨_, rfl, rfl⟩
          | false => exact Or.inr ⟨_, rfl, rfl⟩

/-- An edit is refused as the hierarchy refuses it, or it changes its node. -/
theorem run_edit (w : Network α) (id : Nat) (e : Edit α) :
    (∃ e', w.hierarchy.edit id e = .error e' ∧ (edit id e).run w = .error e' w) ∨
    (w.hierarchy.edit id e = .ok (w.hierarchy.modify id (·.edit e)) ∧
      (edit id e).run w = .ok () (w.modifyNode id (·.edit e))) := by
  rw [edit, Hierarchy.edit, node_hierarchy, EStateM.run_bind, Steps.run_ask]
  cases w.member id with
  | error e' => exact Or.inl ⟨e', rfl, rfl⟩
  | ok m => exact Or.inr ⟨rfl, rfl⟩

end Network

end ReservoirWells
