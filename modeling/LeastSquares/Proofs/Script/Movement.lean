import LeastSquares.Proofs.Buffer.Moving
import LeastSquares.Proofs.Script.Accumulation

/-!
# Moves of a store

A store that is moved in place, or a copy of it: both come equally far, and the copy leaves the store alone.
-/

namespace LeastSquares

variable {C α : Type} [DecidableEq C] [FactorFamily C] [Scalar α]

namespace Machine

variable {σ : Session C α} {x y : String} {i : Nat} {s : Store C α} {along : Buffers C α}

theorem perform_move (hx : σ.refers x = some i) (hs : σ.objects[i]? = some (.store s))
    (hy : σ.buffersSeen y = some along) : perform (.move x y) σ =
      (edit i .store s (Store.move along) >>= fun _ => present i) σ := by
  obtain ⟨o, ho, halong⟩ := Option.bind_eq_some_iff.1 hy
  have hbuffers : buffersOf o σ = .ok along σ := by
    rw [buffersOf, halong]
    rfl
  have hstore : storeOf (.store s) σ = .ok s σ := rfl
  rw [perform, Edit.bind_ok (reference_ok hx), Edit.bind_ok (object_ok hs), Edit.bind_ok hstore,
    Edit.bind_ok (named_ok ho), Edit.bind_ok hbuffers]

theorem perform_moved (hx : σ.refers x = some i) (hs : σ.objects[i]? = some (.store s))
    (hy : σ.buffersSeen y = some along) : perform (.moved x y) σ =
      (checked (s.moved along) >>= fun t => create (.store t)) σ := by
  obtain ⟨o, ho, halong⟩ := Option.bind_eq_some_iff.1 hy
  have hbuffers : buffersOf o σ = .ok along σ := by
    rw [buffersOf, halong]
    rfl
  have hstore : storeOf (.store s) σ = .ok s σ := rfl
  rw [perform, Edit.bind_ok (named_ok (Session.seen_of_refers hx hs)), Edit.bind_ok hstore,
    Edit.bind_ok (named_ok ho), Edit.bind_ok hbuffers]

/-- A move in place and a move of a copy do what the move of the store does. -/
theorem move_spec (hx : σ.refers x = some i) (hs : σ.objects[i]? = some (.store s))
    (hy : σ.buffersSeen y = some along) :
    (∀ t, Store.move along s = .ok () t →
      (∃ τ, perform (.move x y) σ = .ok (.object i) τ ∧ σ.Replaced τ i (.store t)) ∧
      ∃ j o τ, perform (.moved x y) σ = .ok (.object j) τ ∧ σ.objects.size ≤ j ∧
        τ.objects[j]? = some o ∧ (Object.store t).Same o ∧
        ∀ k, k < σ.objects.size → τ.objects[k]? = σ.objects[k]?) ∧
    ∀ e t, Store.move along s = .error e t →
      (∃ τ, perform (.move x y) σ = .error (.solver (.failed e)) τ ∧ σ.Replaced τ i (.store t)) ∧
      perform (.moved x y) σ = .error (.solver (.failed e)) σ := by
  have hi : i < σ.objects.size := (Array.getElem?_eq_some_iff.1 hs).1
  obtain ⟨hok, herror⟩ := edit_spec Object.store s (Store.move along) hi
  refine ⟨fun t ht => ⟨?_, ?_⟩, fun e t ht => ⟨?_, ?_⟩⟩
  · obtain ⟨τ, hτ, hreplaced⟩ := hok () t ht
    refine ⟨τ, ?_, hreplaced⟩
    rw [perform_move hx hs hy, Edit.bind_ok hτ]
    rfl
  · obtain ⟨j, o, τ, hallocate, hj, ho, hsame, hextends⟩ :=
      allocate_spec (o := .store t) rfl σ.objects.size [] σ le_rfl
    have hmoved : s.moved along = .ok t := by rw [Store.moved, ht]
    refine ⟨j, o, τ, ?_, hj, ho, hsame, hextends.objects⟩
    rw [perform_moved hx hs hy, hmoved]
    exact Edit.bind_ok hallocate _
  · obtain ⟨τ, hτ, hreplaced⟩ := herror e t ht
    refine ⟨τ, ?_, hreplaced⟩
    rw [perform_move hx hs hy, Edit.bind_error hτ]
  · have hmoved : s.moved along = .error e := by rw [Store.moved, ht]
    rw [perform_moved hx hs hy, hmoved]
    rfl

/-- A store of given values is moved if each step that is not empty is for a type that has a tangent space and
that the store contains, with as many rows, along which the values can be retracted. Then all of them are, and
else those before the first step that cannot be taken; nothing else changes. A copy moves if the store does,
and leaves the store alone. Values that have the arrays of their type can always be retracted; they move row by
row, and remain as many. -/
theorem moves_given {given : List (Literal α × Option VariableType)} (hgiven : Store.ofGiven given = .ok s)
    (hx : σ.refers x = some i) (hs : σ.objects[i]? = some (.store s))
    (hy : σ.buffersSeen y = some along) :
    ((∃ τ, perform (.move x y) σ = .ok (.object i) τ) ↔
      ∀ e ∈ along.entries, e.2.isEmpty = false → s.Takes e) ∧
    (∀ r τ, perform (.move x y) σ = .ok r τ → ∃ t, s.MovedAlong along.entries t ∧
      σ.Replaced τ i (.store t) ∧ ∃ j o τ', perform (.moved x y) σ = .ok (.object j) τ' ∧
        σ.objects.size ≤ j ∧ τ'.objects[j]? = some o ∧ (Object.store t).Same o ∧
        ∀ k, k < σ.objects.size → τ'.objects[k]? = σ.objects[k]?) ∧
    (∀ f τ, perform (.move x y) σ = .error f τ → perform (.moved x y) σ = .error f σ ∧
      ∃ done e rest t, along.entries = done ++ e :: rest ∧ e.2.isEmpty = false ∧ ¬ s.Takes e ∧
        s.MovedAlong done t ∧ σ.Replaced τ i (.store t)) ∧
    ∀ T step, Store.AllOfShapes C given T → T.shapes.leaves ≠ [] → Store.Tangential step T →
      (s.Takes (.type T, step) ↔ s.Admits (.type T) step) ∧
      ∀ b, s.Admits (.type T) step → s.Retracts step (.type T) b → s.MovesRows T step b := by
  have htyped := Store.typed_ofGiven hgiven
  obtain ⟨hok, herror⟩ := move_spec hx hs hy
  have hcases := Store.moveAlong_cases htyped along.entries along.distinct
  have htaken : ∀ {done t}, s.MovedAlong done t → ∀ e ∈ done, e.2.isEmpty = false → s.Takes e :=
    fun hmoved e he hne => ⟨(hmoved.moved e he hne).1, _, (hmoved.moved e he hne).2⟩
  refine ⟨⟨?_, fun htakes => ?_⟩, fun r τ h => ?_, fun f τ h => ?_, ?_⟩
  · rintro ⟨τ, hτ⟩
    rcases hcases with ⟨t, -, hmoved⟩ | ⟨done, e, rest, f', t, -, hrun, -⟩
    · exact htaken hmoved
    · obtain ⟨⟨τ', hτ', -⟩, -⟩ := herror f' t hrun
      cases hτ'.symm.trans hτ
  · rcases hcases with ⟨t, hrun, -⟩ | ⟨done, e, rest, f', t, hentries, -, -, hne, hnot⟩
    · obtain ⟨⟨τ, hτ, -⟩, -⟩ := hok t hrun
      exact ⟨τ, hτ⟩
    · exact absurd (htakes e (by simp [hentries]) hne) hnot
  · rcases hcases with ⟨t, hrun, hmoved⟩ | ⟨done, e, rest, f', t, -, hrun, -⟩
    · obtain ⟨⟨τ', hτ', hreplaced⟩, hcopy⟩ := hok t hrun
      cases hτ'.symm.trans h
      exact ⟨t, hmoved, hreplaced, hcopy⟩
    · obtain ⟨⟨τ', hτ', -⟩, -⟩ := herror f' t hrun
      cases hτ'.symm.trans h
  · rcases hcases with ⟨t, hrun, -⟩ | ⟨done, e, rest, f', t, hentries, hrun, hmoved, hne, hnot⟩
    · obtain ⟨⟨τ', hτ', -⟩, -⟩ := hok t hrun
      cases hτ'.symm.trans h
    · obtain ⟨⟨τ', hτ', hreplaced⟩, hcopy⟩ := herror f' t hrun
      cases hτ'.symm.trans h
      exact ⟨hcopy, done, e, rest, t, hentries, hne, hnot, hmoved, hreplaced⟩
  · intro T step hshapes harrays hstep
    have htakes : s.Admits (.type T) step → s.Takes (.type T, step) ∧
        ∀ b, s.Retracts step (.type T) b → s.MovesRows T step b := by
      intro hadmits
      obtain ⟨old, hold⟩ := Table.mem_keys_iff.1 hadmits.stored
      have hrows : (s.buffer (.type T)).HasRowsOf T.shapes := by
        rw [show s.buffer (.type T) = old from Buffers.buffer_of_get? hold]
        exact Store.hasRowsOf_ofGiven hgiven hshapes old hold
      exact hadmits.takes hrows harrays hstep
    exact ⟨⟨fun h => h.1, fun h => (htakes h).1⟩, fun b h => (htakes h).2 b⟩

/-- A point of the plane and a label. -/
def pointed : List (Literal ℚ × Option VariableType) :=
  [(.leaf (.array .host (.vector [1, 2])), none), (.leaf (.int 3), none)]

/-- The point and the label under the name `v`, a step for the point under the name `a`, and under the name `b`
a step for the label in addition. -/
def pinned : Session Catalogue ℚ where
  names := [("v", 0), ("a", 1), ("b", 2)]
  objects := #[.store ((Store.ofGiven pointed).toOption.getD .empty),
    .vectors ⟨.ofList [(.type (.real 2), .tangentZeros (.real 2) 1)]⟩,
    .vectors ⟨.ofList [(.type (.real 2), .tangentZeros (.real 2) 1),
      (.type .discrete, .tangentZeros .discrete 1)]⟩]
  events := #[]

/-- The point can be moved. A label cannot, but the point has been moved by then, unless it is one of a copy. -/
theorem pinned_moved :
    (∃ τ, perform (.move "v" "a") pinned = .ok (.object 0) τ) ∧
    ∃ f s t τ, perform (.move "v" "b") pinned = .error f τ ∧
      perform (.moved "v" "b") pinned = .error f pinned ∧ pinned.Replaced τ 0 (.store t) ∧
      pinned.objects[0]? = some (.store s) ∧
      s.MovesRows (.real 2) (.tangentZeros (.real 2) 1) (t.buffer (.type (.real 2))) := by
  have hpointed : Store.AllOfShapes Catalogue pointed (.real 2) := by
    intro g hg hstored
    rcases List.mem_cons.1 hg with rfl | hg
    · exact ⟨_, rfl, rfl, List.cons_ne_nil _ _⟩
    · obtain rfl := List.mem_singleton.1 hg
      cases hstored
  have hstep : Store.Tangential (C := Catalogue) (α := ℚ) (.tangentZeros (.real 2) 1) (.real 2) :=
    ⟨_, _, rfl, rfl⟩
  have hfits : ∀ {s : Store Catalogue ℚ}, Store.ofGiven pointed = .ok s →
      s.Admits (.type (.real 2)) (.tangentZeros (.real 2) 1) := by
    rintro s hs
    cases hs
    exact ⟨by decide, rfl, 1, rfl, rfl⟩
  refine ⟨?_, ?_⟩
  · obtain ⟨hsucceeds, -, -, hreal⟩ :=
      moves_given (σ := pinned) (x := "v") (y := "a")
        (show Store.ofGiven pointed = .ok _ from rfl) rfl rfl rfl
    refine hsucceeds.2 fun e he _ => ?_
    obtain rfl := List.mem_singleton.1 he
    exact (hreal _ _ hpointed (List.cons_ne_nil _ _) hstep).1.2 (hfits rfl)
  · obtain ⟨-, -, hfails, hreal⟩ :=
      moves_given (σ := pinned) (x := "v") (y := "b")
        (show Store.ofGiven pointed = .ok _ from rfl) rfl rfl rfl
    obtain ⟨htaken, hrows⟩ := hreal _ _ hpointed (List.cons_ne_nil _ _) hstep
    obtain ⟨hcopy, done, e, rest, t, hentries, -, hnot, hmoved, hreplaced⟩ := hfails _ _ rfl
    refine ⟨_, _, t, _, rfl, hcopy, hreplaced, rfl, ?_⟩
    cases done with
    | nil =>
      injection hentries with hentry
      exact absurd (hentry ▸ htaken.2 (hfits rfl)) hnot
    | cons first done =>
      injection hentries with hentry
      obtain ⟨hadmits, hretracts⟩ := hmoved.moved first (by simp) (by rw [← hentry]; rfl)
      rw [← hentry] at hadmits hretracts
      exact hrows _ hadmits hretracts

end Machine

/-- A point of space that is stored as one of the plane cannot be moved along a step of the plane. -/
theorem Store.misfit_moves : ¬ ∀ (given : List (Literal ℚ × Option VariableType))
    (s : Store Catalogue ℚ) (along : Buffers Catalogue ℚ), Store.ofGiven given = .ok s →
    (∀ T step, (.type T, step) ∈ along.entries → Tangential step T) →
    ((∃ t, Store.move along s = .ok () t) ↔
      ∀ e ∈ along.entries, e.2.isEmpty = false → s.Admits e.1 e.2) := by
  intro h
  let given : List (Literal ℚ × Option VariableType) :=
    [(.leaf (.array .host (.vector [1, 2, 3])), some (.real 2))]
  let along : Buffers Catalogue ℚ := .ofList [(.type (.real 2), .tangentZeros (.real 2) 1)]
  have hiff := h given _ along rfl (by
    rintro T step hmem
    cases List.mem_singleton.1 hmem
    exact ⟨_, _, rfl, rfl⟩)
  obtain ⟨t, ht⟩ := hiff.2 (by
    rintro e he -
    obtain rfl := List.mem_singleton.1 he
    exact ⟨by decide, rfl, 1, rfl, rfl⟩)
  cases ht

end LeastSquares
