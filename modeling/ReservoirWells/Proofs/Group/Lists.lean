import ReservoirWells.Proofs.Group.Walks

/-! # Lists — the stored children after any calls

    A plant starts empty and is changed by the same calls as a site.  Additions, attachments and
    edits work on the network step by step, so what an addition has done before it is refused would
    stay; operations walk down the stored lists.

    * `Plant.call`, `Plant.serve` — what becomes of a plant;
    * `Plant.call_site` — the same as of its site, and the plant stays consistent;
    * `Plant.serve_lists` — so the lists of every plant are those of a tree. -/

namespace ReservoirWells

variable {α : Type} [Scalar α]

namespace Plant

variable {p : Plant α}

/-! ## Calls -/

/-- A plant without nodes and wells. -/
def vacant (phases : ActivePhases) : Plant α := ⟨.empty phases, []⟩

/-- Whether a question has an answer. Questions about a subtree follow the lists. -/
def answers (p : Plant α) (id : Nat) : Query α → Except GroupError Unit
  | .node => (p.network.member id).map fun _ => ()
  | .efficiency => (p.network.hierarchy.efficiency id).map fun _ => ()
  | .wellCount => (p.network.wellCount id).map fun _ => ()
  | .guideRate d onlyGroup => (p.network.guideRate d id onlyGroup).map fun _ => ()
  | .target mode => (p.network.hierarchy.target id mode).map fun _ => ()
  | .produced flows phase => (p.network.produced id flows phase).map fun _ => ()
  | .productionRate flows mode =>
    (p.network.hierarchy.productionRate id flows mode).map fun _ => ()
  | .worst rates mode => (p.network.worst id rates mode).map fun _ => ()

/-- Forgets what is returned. -/
def quiet {β : Type} (done : Plant α × Except GroupError β) : Plant α × Except GroupError Unit :=
  (done.1, done.2.map fun _ => ())

/-- What becomes of a plant under a call, and whether the call went through. -/
def call (p : Plant α) : Call α → Plant α × Except GroupError Unit
  | .addGroup name parent efficiency specs =>
    quiet (p.build (Network.addGroup name parent efficiency specs))
  | .addWell name parent efficiency specs =>
    quiet (p.build (Network.addWell name parent efficiency specs))
  | .attach id index => p.build (Network.attach id index p.wells)
  | .edit id e => p.build (Network.edit id e)
  | .enrol name kind controls =>
    ({ p with wells := p.wells ++ [.ofControls name kind controls] }, .ok ())
  | .select index place =>
    ({ p with wells := (p.site.retouch index (·.select place)).wells }, .ok ())
  | .stop index => ({ p with wells := (p.site.retouch index (·.stop)).wells }, .ok ())
  | .reopen index => ({ p with wells := (p.site.retouch index (·.reopen)).wells }, .ok ())
  | .useTable wells => ({ p with wells }, .ok ())
  | .check id rates => quiet (p.perform fun depth => check rates depth id)
  | .push id mode target onlyGroup => p.perform fun depth => push mode depth id target onlyGroup
  | .shareProduction id => p.perform fun depth => shareProduction depth id
  | .shareInjection id => p.perform fun depth => shareInjection depth id
  | .reinject id rates => p.perform fun depth => reinject depth id rates
  | .refreshProduction id flows => p.perform fun depth => refreshProduction depth id flows
  | .refreshInjection id => p.perform fun _ => refreshInjection id
  | .withdraw id => p.perform fun _ => order (.withdraw id)
  | .ask id q => (p, p.answers id q)

/-- The plant after a list of calls, whether or not they went through. -/
def serve (p : Plant α) (calls : List (Call α)) : Plant α :=
  calls.foldl (fun p c => (p.call c).1) p

/-! ## What a call does -/

/-- A new node is inserted. -/
theorem call_of_newNode? (p : Plant α) {c : Call α} {n : Node α} (hc : c.newNode? = some n) :
    p.call c = quiet (p.build (Network.insert n)) := by
  cases c with
  | addGroup name parent efficiency specs =>
      cases hc
      rfl
  | addWell name parent efficiency specs =>
      cases hc
      rfl
  | _ => cases hc

/-- An addition is refused before anything is written, or the new node joins the network; the same
    becomes of the site. -/
theorem call_newNode (p : Plant α) {c : Call α} {n : Node α} (hc : c.newNode? = some n) :
    (∃ e, p.site.call c = (p.site, .error e) ∧ p.call c = (p, .error e)) ∨
      (p.network.hierarchy.Admits n ∧
        p.site.call c = ({ p.site with hierarchy := p.network.hierarchy.concat n }, .ok ()) ∧
        p.call c = ({ p with network := p.network.joined n }, .ok ())) := by
  have hrun := p.network.run_insert n
  rw [p.call_of_newNode? hc, p.site.call_of_newNode? hc, build]
  rcases p.network.hierarchy.insert_cases n with ⟨e, he⟩ | ⟨hadmits, hok⟩
  · rw [he] at hrun
    rw [hrun, show p.site.hierarchy.insert n = .error e from he]
    exact Or.inl ⟨e, rfl, rfl⟩
  · rw [hok] at hrun
    rw [hrun, show p.site.hierarchy.insert n = _ from hok]
    exact Or.inr ⟨hadmits, rfl, rfl⟩

variable (hw : p.network.Consistent)

include hw

theorem answers_eq (id : Nat) (q : Query α) : p.answers id q = p.site.ask id q := by
  cases q with
  | node =>
      show (p.network.member id).map _ = (p.network.hierarchy.node id).map _
      rw [Network.node_hierarchy]
      cases p.network.member id <;> rfl
  | efficiency => rfl
  | wellCount => rw [answers, hw.wellCount_eq]; rfl
  | guideRate d onlyGroup => rw [answers, hw.guideRate_eq]; rfl
  | target mode => rfl
  | produced flows phase => rw [answers, hw.produced_eq]; rfl
  | productionRate flows mode => rfl
  | worst rates mode => rw [answers, hw.worst_eq]; rfl

/-- An operation changes the plant as it changes its site. -/
theorem call_operates {c : Call α} (hc : c.operates = true) :
    p.call c = p.took (p.site.call c) := by
  cases c with
  | check id rates =>
      -- what is returned does not tell the rates
      obtain ⟨hplant, hresult⟩ := Prod.mk.inj (perform_check hw id rates)
      refine Prod.ext hplant ?_
      show Except.map _ _ = (p.site.checkLimits id rates).2.map _
      rw [← hresult]
      cases (p.perform fun depth => check rates depth id).2 <;> rfl
  | push id mode target onlyGroup => exact perform_push hw id mode target onlyGroup
  | shareProduction id => exact perform_shareProduction hw id
  | shareInjection id => exact perform_shareInjection hw id
  | reinject id rates => exact perform_reinject hw id rates
  | refreshProduction id flows => exact perform_refreshProduction hw id flows
  | refreshInjection id => exact perform_refreshInjection hw id
  | withdraw id => exact perform_withdraw id
  | _ => cases hc

/-- A call that adds no node leaves all lists alone, and does to the plant what it does to the
    site. -/
theorem call_lists {c : Call α} (hc : c.newNode? = none) :
    (p.call c).1.network.lists = p.network.lists ∧ (p.call c).1.site = (p.site.call c).1 ∧
      (p.call c).2 = (p.site.call c).2 := by
  have hact : c.operates = true → (p.call c).1.network.lists = p.network.lists ∧
      (p.call c).1.site = (p.site.call c).1 ∧ (p.call c).2 = (p.site.call c).2 := by
    intro hop
    obtain ⟨l, hl⟩ := p.site.call_eq_run hop
    have hlength : (p.site.call c).1.hierarchy.nodes.length = p.network.members.length := by
      rw [hl, length_run, length_site]
    rw [call_operates hw hop]
    exact ⟨lists_withSite hlength, site_withSite hlength, rfl⟩
  cases c with
  | addGroup name parent efficiency specs => cases hc
  | addWell name parent efficiency specs => cases hc
  | attach id index =>
      rw [call, Site.call, build]
      rcases p.network.run_attach id index p.wells with ⟨e, he, hrun⟩ | ⟨f, hok, hrun⟩
      · rw [hrun, show p.site.hierarchy.attach id index p.site.wells = .error e from he]
        exact ⟨rfl, rfl, rfl⟩
      · rw [hrun, show p.site.hierarchy.attach id index p.site.wells = _ from hok]
        exact ⟨p.network.lists_modifyNode id f, p.site_modifyNode id f, rfl⟩
  | edit id e =>
      rw [call, Site.call, build]
      rcases p.network.run_edit id e with ⟨e', he, hrun⟩ | ⟨hok, hrun⟩
      · rw [hrun, show p.site.hierarchy.edit id e = .error e' from he]
        exact ⟨rfl, rfl, rfl⟩
      · rw [hrun, show p.site.hierarchy.edit id e = _ from hok]
        exact ⟨p.network.lists_modifyNode id _, p.site_modifyNode id _, rfl⟩
  | ask id q => exact ⟨rfl, rfl, answers_eq hw id q⟩
  | enrol name kind controls => exact ⟨rfl, rfl, rfl⟩
  | select index place => exact ⟨rfl, rfl, rfl⟩
  | stop index => exact ⟨rfl, rfl, rfl⟩
  | reopen index => exact ⟨rfl, rfl, rfl⟩
  | useTable wells => exact ⟨rfl, rfl, rfl⟩
  | _ => exact hact rfl

/-- Calls do the same to a consistent plant and to its site, and leave the plant consistent. -/
theorem call_site (c : Call α) :
    (p.call c).1.site = (p.site.call c).1 ∧ (p.call c).2 = (p.site.call c).2 ∧
      (p.call c).1.network.Consistent := by
  cases hc : c.newNode? with
  | none =>
      obtain ⟨hlists, hsite, hresult⟩ := call_lists hw hc
      have houtline : (p.call c).1.site.hierarchy.outline = p.site.hierarchy.outline := by
        rw [hsite, Site.call_outline hc]
      exact ⟨hsite, hresult, hw.of_outline hlists houtline⟩
  | some n =>
      rcases p.call_newNode hc with ⟨e, hs, hp⟩ | ⟨hadmits, hs, hp⟩
      · rw [hs, hp]
        exact ⟨rfl, rfl, hw⟩
      · rw [hs, hp]
        refine ⟨?_, rfl, hw.joined hadmits⟩
        rw [site, Network.hierarchy_joined]
        rfl

/-! ## Lists of calls -/

omit hw in
theorem consistent_vacant (phases : ActivePhases) : (vacant phases : Plant α).network.Consistent :=
  Network.consistent_empty phases

/-- A consistent plant goes through calls as its site does. -/
theorem serve_site (calls : List (Call α)) :
    (p.serve calls).site = p.site.serve calls ∧ (p.serve calls).network.Consistent := by
  induction calls generalizing p with
  | nil => exact ⟨rfl, hw⟩
  | cons c rest ih =>
      obtain ⟨hsite, _, hconsistent⟩ := call_site hw c
      obtain ⟨hrest, hafter⟩ := ih hconsistent
      refine ⟨hrest.trans ?_, hafter⟩
      rw [hsite]
      rfl

/-- A call that builds and fails changes nothing. -/
theorem call_of_builds {c : Call α} (hc : c.builds = true) {e : GroupError}
    (he : (p.call c).2 = .error e) : (p.call c).1 = p := by
  cases hn : c.newNode? with
  | none =>
      obtain ⟨hlists, hsite, hresult⟩ := call_lists hw hn
      obtain ⟨x, hx⟩ := p.site.call_eq_rebuild hc
      rw [hresult, hx] at he
      rw [hx, Site.rebuild_of_error he] at hsite
      exact ext_site hsite hlists
  | some n =>
      rcases p.call_newNode hn with ⟨e', _, hp⟩ | ⟨_, _, hp⟩
      · rw [hp]
      · rw [hp] at he
        cases he

omit hw in
/-- In every plant that calls lead to: names are distinct; a parent is a group and comes before its
    children; a node is on the list of its parent once and on no other list, so a root is on none;
    every list is in order, and what is on it names the owner of the list as its parent; every node
    has one root; following the lists finds what lies below a node by parents, and the wells below
    the roots are all the wells. A call that names members of the plant never fails with an unknown
    node. A call that builds and fails changes nothing. An addition that goes through puts the new
    member at the end, with nothing on its list, and changes the list of its parent only; other
    calls change no list, no name, no parent and no role. -/
theorem serve_lists (phases : ActivePhases) (calls : List (Call α)) :
    let p := (vacant phases).serve calls
    let w := p.network
    (w.members.map (·.node.name)).Nodup ∧
    (∀ id m q, w.member id = .ok m → m.node.parent = some q →
      q < id ∧ ∃ g, w.member q = .ok g ∧ g.node.isGroup = true) ∧
    (∀ id m, w.member id = .ok m → ∀ q g, w.member q = .ok g →
      g.children.count id = if m.node.parent = some q then 1 else 0) ∧
    (∀ q g, w.member q = .ok g → g.children.Pairwise (· < ·) ∧
      ∀ id ∈ g.children, ∃ m, w.member id = .ok m ∧ m.node.parent = some q) ∧
    (∀ id m, w.member id = .ok m → ∃! root, w.hierarchy.IsRootOf root id) ∧
    (∀ id, w.subtree id = w.hierarchy.subtree id) ∧
    (∃ counts, w.roots.mapM w.wellCount = .ok counts ∧
      counts.sum = w.members.countP fun m => !m.node.isGroup) ∧
    (∀ c : Call α, (∀ id ∈ c.subjects, id < w.members.length) →
      ∀ id, (p.call c).2 ≠ .error (.unknownNode id)) ∧
    (∀ (c : Call α) e, c.builds = true → (p.call c).2 = .error e → (p.call c).1 = p) ∧
    (∀ (c : Call α) n, c.newNode? = some n → (p.call c).2 = .ok () →
      (p.call c).1.wells = p.wells ∧ (p.call c).1.network.phases = w.phases ∧
      (p.call c).1.network.members.length = w.members.length + 1 ∧
      (p.call c).1.network.member w.members.length = .ok ⟨n, []⟩ ∧
      ∀ id m, w.member id = .ok m → (p.call c).1.network.member id = .ok { m with
        children := m.children ++ if n.parent = some id then [w.members.length] else [] }) ∧
    (∀ c : Call α, c.newNode? = none → (p.call c).1.network.lists = w.lists ∧
      (p.call c).1.network.hierarchy.outline = w.hierarchy.outline) := by
  intro p w
  have hw : w.Consistent := (serve_site (consistent_vacant phases) calls).2
  refine ⟨hw.names, fun id m q => hw.parent, fun id m hm q g => hw.count_children hm,
    fun q g hg => ⟨hw.pairwise_children hg, fun id => hw.mem_children hg⟩,
    fun id m hm => hw.tree.existsUnique_root (Network.node_of_member hm), hw.subtree_eq,
    hw.sum_wellCount_roots, ?_, fun c e hc he => call_of_builds hw hc he, ?_, ?_⟩
  · intro c hc
    rw [(call_site hw c).2.1]
    refine (Site.call_known hw.tree.hasParents fun id hid => ?_).ne_unknownNode
    exact ⟨_, Network.node_of_member (Network.member_eq_ok.mpr
      (List.getElem?_eq_getElem (hc id hid)))⟩
  · intro c n hc hok
    rcases p.call_newNode hc with ⟨e, _, hp⟩ | ⟨_, _, hp⟩
    · rw [hp] at hok
      cases hok
    · rw [hp]
      exact ⟨rfl, congrArg (·.phases) (w.hierarchy_joined n), w.length_joined n,
        w.member_joined_last n, fun id m hm => Network.member_joined hm n⟩
  · intro c hc
    obtain ⟨hlists, hsite, _⟩ := call_lists hw hc
    refine ⟨hlists, ?_⟩
    show (p.call c).1.site.hierarchy.outline = p.site.hierarchy.outline
    rw [hsite, Site.call_outline hc]

end Plant

end ReservoirWells
