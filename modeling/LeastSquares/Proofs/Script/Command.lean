import LeastSquares.Proofs.Solver.Contents
import LeastSquares.Script.Run

/-!
# Commands

What a step does to a collection in place, with all that it reads from elsewhere already looked up. A
command acts on one object, and on what this holds only: objects that hold the same hold the same
afterwards.
-/

namespace LeastSquares

variable {C α : Type}

theorem Checked.Alike.getD {β γ : Type} {R : β → γ → Prop} {x : Checked β} {y : Checked γ} {b : β} {c : γ}
    (h : Alike R x y) (hb : R b c) : R (x.toOption.getD b) (y.toOption.getD c) := by
  cases h with
  | ok h => exact h
  | error e => exact hb

/-! ## Objects -/

namespace Object

/-- The object with its buffers without numbers. -/
def bare (o : Object C α) : Object C α :=
  match o.buffers? with
  | some t => o.withBuffers t.bare
  | none => o

/-- Two objects hold the same. -/
def Same (o o' : Object C α) : Prop := o.bare = o'.bare

/-! ## Changes by kind

An object of another kind stays as it is. -/

def mapBuffers (change : Buffers C α → Buffers C α) (o : Object C α) : Object C α :=
  match o.buffers? with
  | some t => o.withBuffers (change t)
  | none => o

def mapVectors (change : Vectors C α → Vectors C α) : Object C α → Object C α
  | vectors v => vectors (change v)
  | o => o

def mapStore (change : Store C α → Store C α) : Object C α → Object C α
  | store s => store (change s)
  | o => o

def mapGraph (change : FactorGraph C α → FactorGraph C α) : Object C α → Object C α
  | graph g => graph (change g)
  | o => o

def mapLinear (change : Buffers C α → Buffers C α) : Object C α → Object C α
  | linear t template => linear (change t) template
  | o => o

variable {o o' : Object C α}

theorem same_vectors {v v' : Vectors C α} (h : v.Same v') : (vectors v).Same (vectors v') :=
  congrArg (fun t => vectors ⟨t⟩) h

theorem same_store {s s' : Store C α} (h : s.Same s') : (store s).Same (store s') :=
  congrArg (fun t => store ⟨t⟩) h

theorem same_graph {g g' : FactorGraph C α} (h : g.Same g') : (graph g).Same (graph g') :=
  congrArg (fun t => graph ⟨t⟩) h

theorem same_linear {t t' : Buffers C α} (h : t.Same t') (template : Nat) :
    (linear t template).Same (linear t' template) := congrArg (linear · template) h

theorem same_withBuffers {t t' : Buffers C α} (ho : o.buffers? = some t) (h : t.Same t') :
    o.Same (o.withBuffers t') := by
  cases o with
  | vectors v =>
    cases ho
    exact same_vectors h
  | store s =>
    cases ho
    exact same_store h
  | graph g =>
    cases ho
    exact same_graph h
  | linear t template =>
    cases ho
    exact same_linear h template
  | buffer | factor | summary | solved | other => cases ho

/-- Objects that hold the same are of one kind. -/
theorem Same.cases (h : o.Same o') : o = o' ∨
    (∃ v v', o = .vectors v ∧ o' = .vectors v' ∧ v.Same v') ∨
    (∃ s s', o = .store s ∧ o' = .store s' ∧ s.Same s') ∨
    (∃ g g', o = .graph g ∧ o' = .graph g' ∧ g.Same g') ∨
    ∃ t t' template, o = .linear t template ∧ o' = .linear t' template ∧ t.Same t' := by
  cases o <;> cases o' <;>
    simp [Object.Same, bare, buffers?, withBuffers, Vectors.Same, Store.Same, FactorGraph.Same,
      Buffers.Same] at h ⊢ <;> tauto

theorem Same.mapBuffers (h : o.Same o') {change : Buffers C α → Buffers C α}
    (hchange : ∀ t t' : Buffers C α, t.Same t' → (change t).Same (change t')) :
    (o.mapBuffers change).Same (o'.mapBuffers change) := by
  obtain rfl | ⟨v, v', rfl, rfl, hv⟩ | ⟨s, s', rfl, rfl, hs⟩ | ⟨g, g', rfl, rfl, hg⟩ |
    ⟨t, t', template, rfl, rfl, ht⟩ := h.cases
  · rfl
  · exact same_vectors (hchange _ _ hv)
  · exact same_store (hchange _ _ hs)
  · exact same_graph (hchange _ _ hg)
  · exact same_linear (hchange _ _ ht) template

theorem Same.mapVectors (h : o.Same o') {change : Vectors C α → Vectors C α}
    (hchange : ∀ v v' : Vectors C α, v.Same v' → (change v).Same (change v')) :
    (o.mapVectors change).Same (o'.mapVectors change) := by
  obtain rfl | ⟨v, v', rfl, rfl, hv⟩ | ⟨s, s', rfl, rfl, -⟩ | ⟨g, g', rfl, rfl, -⟩ |
    ⟨t, t', template, rfl, rfl, -⟩ := h.cases
  · rfl
  · exact same_vectors (hchange _ _ hv)
  all_goals exact h

theorem Same.mapStore (h : o.Same o') {change : Store C α → Store C α}
    (hchange : ∀ s s' : Store C α, s.Same s' → (change s).Same (change s')) :
    (o.mapStore change).Same (o'.mapStore change) := by
  obtain rfl | ⟨v, v', rfl, rfl, -⟩ | ⟨s, s', rfl, rfl, hs⟩ | ⟨g, g', rfl, rfl, -⟩ |
    ⟨t, t', template, rfl, rfl, -⟩ := h.cases
  · rfl
  · exact h
  · exact same_store (hchange _ _ hs)
  all_goals exact h

theorem Same.mapGraph (h : o.Same o') {change : FactorGraph C α → FactorGraph C α}
    (hchange : ∀ g g' : FactorGraph C α, g.Same g' → (change g).Same (change g')) :
    (o.mapGraph change).Same (o'.mapGraph change) := by
  obtain rfl | ⟨v, v', rfl, rfl, -⟩ | ⟨s, s', rfl, rfl, -⟩ | ⟨g, g', rfl, rfl, hg⟩ |
    ⟨t, t', template, rfl, rfl, -⟩ := h.cases
  · rfl
  · exact h
  · exact h
  · exact same_graph (hchange _ _ hg)
  · exact h

theorem Same.mapLinear (h : o.Same o') {change : Buffers C α → Buffers C α}
    (hchange : ∀ t t' : Buffers C α, t.Same t' → (change t).Same (change t')) :
    (o.mapLinear change).Same (o'.mapLinear change) := by
  obtain rfl | ⟨v, v', rfl, rfl, -⟩ | ⟨s, s', rfl, rfl, -⟩ | ⟨g, g', rfl, rfl, -⟩ |
    ⟨t, t', template, rfl, rfl, ht⟩ := h.cases
  · rfl
  · exact h
  · exact h
  · exact h
  · exact same_linear (hchange _ _ ht) template

end Object

/-! ## Commands -/

/-- A change of a collection in place. -/
inductive Command (C α : Type) where
  | setBuffer (t : VariableType) (b : Buffer C α)
  | restore (theirs : Buffers C α)
  | fillEmpty (theirs : Buffers C α)
  | increase (v : Vectors C α)
  | decrease (v : Vectors C α)
  | scatterAdd (h : Handle (Item α)) (rows : Block α)
  | store (x : Literal α) (t : Option VariableType)
  | write (h : Handle (Item α)) (x : Literal α)
  | move (along : Buffers C α)
  | addFactor (f : FactorLiteral C α)
  | damp (s : α) (template : Vectors C α)
  | cgls (config : Cgls.Config α) (g : LinearGraph C α) (shared : Bool)
  | levenbergMarquardt (config : LevenbergMarquardt.Config α) (g : FactorGraph C α)
  | gradientDescent (config : GradientDescent.Config α) (g : FactorGraph C α)

namespace Command

variable [DecidableEq C] [FactorFamily C] [Scalar α]

/-- Our buffer, or theirs if ours is empty. -/
def fill (ours theirs : Buffer C α) : Checked (Buffer C α) := return if ours.isEmpty then theirs else ours

/-- Rows added to vectors on the device. -/
def scatter (h : Handle (Item α)) (rows : Block α) (v : Vectors C α) : Checked (Vectors C α) :=
  let accumulator := v.buffer (.type h.type)
  if !accumulator.isEmpty && accumulator.place = .host then misfit else v.scatterAdd h rows

/-- What an object is after a command. It keeps what it was where the command fails before it changes
anything, or is not for such an object. -/
def apply : Command C α → Object C α → Object C α
  | setBuffer t b => Object.mapBuffers (·.insert (.type t) b)
  | restore theirs => Object.mapBuffers fun _ => theirs
  | fillEmpty theirs => Object.mapBuffers (Edit.left (Buffers.update fill theirs.entries))
  | increase v => Object.mapVectors (Edit.left (Vectors.increase v))
  | decrease v => Object.mapVectors (Edit.left (Vectors.decrease v))
  | scatterAdd h rows => Object.mapVectors fun v => (scatter h rows v).toOption.getD v
  | store x t => Object.mapStore fun s => ((s.insert x t).map Prod.fst).toOption.getD s
  | write h x => Object.mapStore fun s => (s.write h x).toOption.getD s
  | move along => Object.mapStore (Edit.left (Store.move along))
  | addFactor f => Object.mapGraph fun g => (g.insert f).toOption.getD g
  | damp s template => Object.mapLinear fun t => (Edit.left (LinearGraph.damp s) ⟨t, template⟩).buffers
  | cgls config g shared => Object.mapVectors (Edit.left (Cgls.solve config g shared))
  | levenbergMarquardt config g =>
    Object.mapStore fun s => (Edit.left (LevenbergMarquardt.optimize config g) ⟨s, #[]⟩).point
  | gradientDescent config g =>
    Object.mapStore fun s => (Edit.left (GradientDescent.optimize config g) ⟨s, #[]⟩).point

omit [FactorFamily C] [Scalar α] in
theorem alike_fill (theirs : Buffers C α) : Edit.Alike Buffers.Same Eq
    (Buffers.update fill theirs.entries) (Buffers.update fill theirs.entries) := by
  refine Buffers.alike_update (fun ha hb => .ok ?_) (Buffers.Same.entries rfl)
  rw [ha.eq, hb.eq]
  unfold Buffer.isEmpty
  dsimp only
  split <;> rfl

omit [FactorFamily C] in
theorem alike_scatter (h : Handle (Item α)) (rows : Block α) {v v' : Vectors C α} (hv : v.Same v') :
    Checked.Alike Vectors.Same (scatter h rows v) (scatter h rows v') := by
  have hbuffer : (v.buffer (.type h.type)).Same (v'.buffer (.type h.type)) := Buffers.Same.buffer hv _
  unfold scatter
  dsimp only
  rw [hbuffer.eq]
  unfold Buffer.isEmpty
  dsimp only
  split
  · exact .error _
  · exact hv.scatterAdd h rows

/-- Objects that hold the same do so after a command. -/
theorem apply_same (c : Command C α) {o o' : Object C α} (h : o.Same o') : (c.apply o).Same (c.apply o') := by
  cases c with
  | setBuffer t b => exact h.mapBuffers fun _ _ ht => ht.insert _ rfl
  | restore theirs => exact h.mapBuffers fun _ _ _ => rfl
  | fillEmpty theirs => exact h.mapBuffers fun _ _ ht => (alike_fill theirs).left ht
  | increase v =>
    exact h.mapVectors fun _ _ hw => (Vectors.alike_updateWith Buffer.Same.add (w := v) rfl).left hw
  | decrease v =>
    exact h.mapVectors fun _ _ hw => (Vectors.alike_updateWith Buffer.Same.sub (w := v) rfl).left hw
  | scatterAdd a rows => exact h.mapVectors fun _ _ hv => (alike_scatter a rows hv).getD hv
  | store x t =>
    refine h.mapStore fun s s' hs => Checked.Alike.getD ?_ hs
    exact (hs.insert x t).bind fun _ _ hp => .ok hp
  | write a x => exact h.mapStore fun _ _ hs => (hs.write a x).getD hs
  | move along => exact h.mapStore fun _ _ hs => (Store.alike_moveAlong _).left hs
  | addFactor f => exact h.mapGraph fun _ _ hg => (hg.insert f).getD hg
  | damp s template =>
    exact h.mapLinear fun t t' ht => ((LinearGraph.alike_damp s).left (s := ⟨t, template⟩)
      (t := ⟨t', template⟩) ⟨ht, rfl⟩).1
  | cgls config g shared => exact h.mapVectors fun _ _ hv => Cgls.alike_solve.left hv
  | levenbergMarquardt config g =>
    exact h.mapStore fun s s' hs => (LevenbergMarquardt.alike_optimize.left (s := ⟨s, #[]⟩)
      (t := ⟨s', #[]⟩) ⟨hs, rfl⟩).1
  | gradientDescent config g =>
    exact h.mapStore fun s s' hs => (GradientDescent.alike_optimize.left (s := ⟨s, #[]⟩)
      (t := ⟨s', #[]⟩) ⟨hs, rfl⟩).1

/-- What an object is after commands, one after the other. -/
def applyAll (cs : List (Command C α)) (o : Object C α) : Object C α :=
  cs.foldl (fun o c => c.apply o) o

/-- Objects that hold the same do so after any commands. -/
theorem applyAll_same (cs : List (Command C α)) {o o' : Object C α} (h : o.Same o') :
    (applyAll cs o).Same (applyAll cs o') := by
  induction cs generalizing o o' with
  | nil => exact h
  | cons c cs ih => exact ih (c.apply_same h)

end Command

end LeastSquares
