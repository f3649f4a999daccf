import Mathlib.Data.List.Forall2
import Mathlib.Data.List.Pairwise

/-! # Fallible — steps, maps and searches that may fail

    The operations of this library return `Except`, and most of them are a few steps one after the
    other, a map over a list, or a search for the first event in a list.  This file says once what
    it means that such a computation returned a value.  The last lemmas are about partial functions. -/

namespace ReservoirWells

variable {ε β γ δ : Type}

/-- Two steps return a value when the first returns one with which the second does. -/
theorem bind_eq_ok {x : Except ε β} {f : β → Except ε γ} {c : γ} :
    (x >>= f) = .ok c ↔ ∃ b, x = .ok b ∧ f b = .ok c := by
  cases x with
  | error e =>
      constructor
      · intro h
        cases h
      · rintro ⟨_, h, _⟩
        cases h
  | ok b =>
      constructor
      · intro h
        exact ⟨b, rfl, h⟩
      · rintro ⟨d, hd, h⟩
        cases hd
        exact h

theorem ok_bind (b : β) (f : β → Except ε γ) : (Except.ok b >>= f) = f b := rfl

/-- Two computations fail alike, or return values that belong together. -/
inductive Agree (R : β → γ → Prop) : Except ε β → Except ε γ → Prop
  | error (e : ε) : Agree R (.error e) (.error e)
  | ok {b : β} {c : γ} (h : R b c) : Agree R (.ok b) (.ok c)

/-- Computations that agree go on to agree. -/
theorem Agree.bind {β' γ' : Type} {R : β → γ → Prop} {S : β' → γ' → Prop} {x : Except ε β}
    {y : Except ε γ} {f : β → Except ε β'} {g : γ → Except ε γ'} (h : Agree R x y)
    (hf : ∀ b c, R b c → Agree S (f b) (g c)) : Agree S (x >>= f) (y >>= g) := by
  cases h with
  | error e => exact .error e
  | ok h => exact hf _ _ h

/-- A value that was returned is the value, whatever would stand for an error. -/
theorem getD_of_ok {x : Except ε β} {b : β} (h : x = .ok b) (d : β) : x.toOption.getD d = b := by
  rw [h]
  rfl

/-- Errors are forgotten, values are kept. -/
theorem toOption_eq_some {x : Except ε β} {b : β} : x.toOption = some b ↔ x = .ok b := by
  cases x with
  | error e =>
      constructor
      · intro h
        cases h
      · intro h
        cases h
  | ok c =>
      constructor
      · intro h
        cases h
        rfl
      · intro h
        cases h
        rfl

/-- A list is mapped without error exactly when every member is. -/
theorem mapM_ok_iff {f : β → Except ε γ} {l : List β} :
    (∃ ys, l.mapM f = .ok ys) ↔ ∀ b ∈ l, ∃ y, f b = .ok y := by
  induction l with
  | nil =>
      constructor
      · intro _ b hb
        cases hb
      · intro _
        exact ⟨[], rfl⟩
  | cons b rest ih =>
      rw [List.mapM_cons, List.forall_mem_cons, ← ih]
      cases hb : f b with
      | error e =>
          constructor
          · rintro ⟨_, h⟩
            cases h
          · rintro ⟨⟨_, h⟩, _⟩
            cases h
      | ok y =>
          cases rest.mapM f with
          | error e =>
              constructor
              · rintro ⟨_, h⟩
                cases h
              · rintro ⟨_, _, h⟩
                cases h
          | ok ys =>
              constructor
              · intro _
                exact ⟨⟨y, rfl⟩, ⟨ys, rfl⟩⟩
              · intro _
                exact ⟨y :: ys, rfl⟩

/-- A list whose members have known results is mapped to these. -/
theorem mapM_of_forall {f : β → Except ε γ} {g : β → γ} {l : List β}
    (h : ∀ b ∈ l, f b = .ok (g b)) : l.mapM f = .ok (l.map g) := by
  induction l with
  | nil => rfl
  | cons b rest ih =>
      rw [List.mapM_cons, h b (List.mem_cons_self ..), ih fun c hc => h c (List.mem_cons_of_mem b hc)]
      rfl

/-- A map fails with the error of a member if it fails. -/
theorem mapM_cases (f : β → Except ε γ) (l : List β) :
    (∃ ys, l.mapM f = .ok ys) ∨ ∃ b ∈ l, ∃ e, f b = .error e ∧ l.mapM f = .error e := by
  induction l with
  | nil => exact Or.inl ⟨[], rfl⟩
  | cons b rest ih =>
      rw [List.mapM_cons]
      cases hb : f b with
      | error e => exact Or.inr ⟨b, List.mem_cons_self .., e, hb, rfl⟩
      | ok y =>
          rcases ih with ⟨ys, hys⟩ | ⟨c, hc, e, he, herror⟩
          · rw [hys]
            exact Or.inl ⟨y :: ys, rfl⟩
          · rw [herror]
            exact Or.inr ⟨c, List.mem_cons_of_mem b hc, e, he, rfl⟩

/-- A map fails with the error of the first member that fails. -/
theorem mapM_eq_error {f : β → Except ε γ} {l : List β} {e : ε} :
    l.mapM f = .error e ↔ ∃ before b after, l = before ++ b :: after ∧
      (∀ c ∈ before, ∃ y, f c = .ok y) ∧ f b = .error e := by
  induction l with
  | nil =>
      constructor
      · intro h
        cases h
      · rintro ⟨before, b, after, hl, _⟩
        cases before <;> cases hl
  | cons b rest ih =>
      rw [List.mapM_cons]
      constructor
      · intro h
        cases hb : f b with
        | error e' =>
            rw [hb] at h
            cases h
            exact ⟨[], b, rest, rfl, fun c hc => absurd hc List.not_mem_nil, hb⟩
        | ok y =>
            rw [hb] at h
            have hrest : rest.mapM f = .error e := by
              cases hmap : rest.mapM f with
              | error e' => rw [hmap] at h; exact h
              | ok ys => rw [hmap] at h; cases h
            obtain ⟨before, c, after, rfl, hbefore, hc⟩ := ih.mp hrest
            exact ⟨b :: before, c, after, rfl, List.forall_mem_cons.mpr ⟨⟨y, hb⟩, hbefore⟩, hc⟩
      · rintro ⟨before, c, after, hl, hbefore, hc⟩
        cases before with
        | nil =>
            cases hl
            rw [hc]
            rfl
        | cons d before =>
            cases hl
            obtain ⟨⟨y, hy⟩, hbefore⟩ := List.forall_mem_cons.mp hbefore
            rw [hy, ih.mpr ⟨before, c, after, rfl, hbefore, hc⟩]
            rfl

/-- What holds of every result of a function holds of all results of a map. -/
theorem forall_of_mapM {P : γ → Prop} {f : β → Except ε γ} {l : List β} {ys : List γ}
    (hf : ∀ b ∈ l, ∀ y, f b = .ok y → P y) (h : l.mapM f = .ok ys) : ∀ y ∈ ys, P y := by
  induction l generalizing ys with
  | nil =>
      intro y hy
      cases h
      cases hy
  | cons b rest ih =>
      rw [List.mapM_cons] at h
      obtain ⟨z, hz, h⟩ := bind_eq_ok.mp h
      obtain ⟨zs, hzs, h⟩ := bind_eq_ok.mp h
      obtain rfl : z :: zs = ys := Except.ok.inj h
      rw [List.forall_mem_cons]
      exact ⟨hf b (List.mem_cons_self ..) z hz,
        ih (fun c hc => hf c (List.mem_cons_of_mem b hc)) hzs⟩

/-- The results of a map stand in the places of the members they come from. -/
theorem forall₂_of_mapM {f : β → Except ε γ} {l : List β} {ys : List γ} (h : l.mapM f = .ok ys) :
    List.Forall₂ (fun b y => f b = .ok y) l ys := by
  induction l generalizing ys with
  | nil =>
      cases h
      exact .nil
  | cons b rest ih =>
      rw [List.mapM_cons] at h
      obtain ⟨y, hy, h⟩ := bind_eq_ok.mp h
      obtain ⟨zs, hzs, h⟩ := bind_eq_ok.mp h
      obtain rfl : y :: zs = ys := Except.ok.inj h
      exact .cons hy (ih hzs)

/-- A map returns a list whose entries are the results of the members in their places. -/
theorem mapM_of_forall₂ {f : β → Except ε γ} {l : List β} {ys : List γ}
    (h : List.Forall₂ (fun b y => f b = .ok y) l ys) : l.mapM f = .ok ys := by
  induction h with
  | nil => rfl
  | cons hy _ ih =>
      rw [List.mapM_cons, hy, ih]
      rfl

/-- A map whose results remember the members they come from gives the list back. -/
theorem map_of_mapM {f : β → Except ε γ} {g : γ → β} {l : List β} {ys : List γ}
    (hg : ∀ b y, f b = .ok y → g y = b) (h : l.mapM f = .ok ys) : ys.map g = l := by
  have hall := forall₂_of_mapM h
  clear h
  induction hall with
  | nil => rfl
  | cons hy _ ih => rw [List.map_cons, hg _ _ hy, ih]

/-- A map over the places up to `n` has one result for each of them. -/
theorem mapM_range {f : Nat → Except ε γ} {n : Nat} {ys : List γ}
    (h : (List.range n).mapM f = .ok ys) :
    ys.length = n ∧ ∀ i < n, ∃ y, ys[i]? = some y ∧ f i = .ok y := by
  obtain ⟨hlen, hall⟩ := List.forall₂_iff_get.mp (forall₂_of_mapM h)
  rw [List.length_range] at hlen
  refine ⟨hlen.symm, fun i hi => ⟨ys.get ⟨i, hlen ▸ hi⟩, List.getElem?_eq_getElem _, ?_⟩⟩
  have hplace := hall i (by rwa [List.length_range]) (hlen ▸ hi)
  rw [List.get_eq_getElem, List.getElem_range] at hplace
  exact hplace

/-- Results may be changed one by one, or all at the end. -/
theorem map_mapM {f : β → Except ε γ} {f' : β → Except ε δ} {g : γ → δ}
    (hf : ∀ b, (f b).map g = f' b) (l : List β) : (l.mapM f).map (List.map g) = l.mapM f' := by
  induction l with
  | nil => rfl
  | cons b rest ih =>
      rw [List.mapM_cons, List.mapM_cons, ← hf b, ← ih]
      cases f b with
      | error e => rfl
      | ok y => cases rest.mapM f <;> rfl

/-! ## The first event of a list -/

section FirstEvent

variable {f : β → Except ε (Option γ)}

theorem findSomeM?_cons_error {b : β} {e : ε} (h : f b = .error e) (l : List β) :
    (b :: l).findSomeM? f = .error e := by
  rw [List.findSomeM?_cons, h]
  rfl

theorem findSomeM?_cons_some {b : β} {c : γ} (h : f b = .ok (some c)) (l : List β) :
    (b :: l).findSomeM? f = .ok (some c) := by
  rw [List.findSomeM?_cons, h]
  rfl

theorem findSomeM?_cons_none {b : β} (h : f b = .ok none) (l : List β) :
    (b :: l).findSomeM? f = l.findSomeM? f := by
  rw [List.findSomeM?_cons, h]
  rfl

/-- An event of the first list decides, otherwise the second list does. -/
theorem findSomeM?_append (l l' : List β) :
    (l ++ l').findSomeM? f = (l.findSomeM? f).bind fun
      | some c => .ok (some c)
      | none => l'.findSomeM? f := by
  induction l with
  | nil => rfl
  | cons b rest ih =>
      rw [List.cons_append]
      cases hb : f b with
      | error e => rw [findSomeM?_cons_error hb, findSomeM?_cons_error hb]; rfl
      | ok found =>
          cases found with
          | some c => rw [findSomeM?_cons_some hb, findSomeM?_cons_some hb]; rfl
          | none => rw [findSomeM?_cons_none hb, findSomeM?_cons_none hb, ih]

/-- A hit is found at a member of the list. -/
theorem exists_of_findSomeM? {l : List β} {c : γ} (h : l.findSomeM? f = .ok (some c)) :
    ∃ b ∈ l, f b = .ok (some c) := by
  induction l with
  | nil => cases h
  | cons b rest ih =>
      rw [List.findSomeM?_cons] at h
      obtain ⟨found, hb, hrest⟩ := bind_eq_ok.mp h
      cases found with
      | some d => exact ⟨b, List.mem_cons_self .., hb.trans hrest⟩
      | none =>
          obtain ⟨d, hd, hf⟩ := ih hrest
          exact ⟨d, List.mem_cons_of_mem b hd, hf⟩

/-- A list without event has none anywhere. -/
theorem findSomeM?_eq_none {l : List β} (h : l.findSomeM? f = .ok none) :
    ∀ b ∈ l, f b = .ok none := by
  induction l with
  | nil => intro b hb; cases hb
  | cons a rest ih =>
      rw [List.findSomeM?_cons] at h
      obtain ⟨found, ha, hrest⟩ := bind_eq_ok.mp h
      cases found with
      | some c => cases hrest
      | none =>
          intro b hb
          rcases List.mem_cons.mp hb with heq | hmem
          · rw [heq]
            exact ha
          · exact ih hrest b hmem

/-- Steps that all come to an end find what they find one after the other. -/
theorem findSomeM?_of_forall {f : β → Option (Option γ)} {g : β → Option γ} {l : List β}
    (h : ∀ b ∈ l, f b = some (g b)) : l.findSomeM? f = some (l.findSome? g) := by
  induction l with
  | nil => rfl
  | cons b rest ih =>
      rw [List.findSomeM?_cons, List.findSome?_cons, h b (List.mem_cons_self ..)]
      cases hb : g b with
      | none => exact ih fun c hc => h c (List.mem_cons_of_mem b hc)
      | some d => rfl

end FirstEvent

/-- A partial function yields for the first member what it yields for that one, if anything. -/
theorem filterMap_cons_toList (f : β → Option γ) (b : β) (l : List β) :
    (b :: l).filterMap f = (f b).toList ++ l.filterMap f := by
  simp only [List.filterMap_eq_flatMap_toList, List.flatMap_cons]

/-- A partial function that yields nothing twice yields nothing for two members. -/
theorem eq_of_filterMap_nodup {f : β → Option γ} {l : List β} (h : (l.filterMap f).Nodup) {a b : β}
    (ha : a ∈ l) (hb : b ∈ l) {c : γ} (hac : f a = some c) (hbc : f b = some c) : a = b := by
  by_contra hne
  have hsymm : Std.Symm fun x y : β => ∀ d, f x = some d → ∀ d', f y = some d' → d ≠ d' :=
    ⟨fun x y hxy d hd d' hd' => (hxy d' hd' d hd).symm⟩
  exact (List.pairwise_filterMap.mp h).forall ha hb hne c hac c hbc rfl

end ReservoirWells
