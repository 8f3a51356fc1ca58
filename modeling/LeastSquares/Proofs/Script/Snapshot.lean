import LeastSquares.Proofs.Script.Stepping
import LeastSquares.Proofs.Numeric.Exact
import LeastSquares.Catalogue

/-!
# Snapshots

A copy shares buffers with the object that it was made from, and nothing else: after any script each of
the two holds what the commands on it alone make of what both held at first.
-/

namespace LeastSquares

variable {C α : Type} [DecidableEq C] [FactorFamily C] [Scalar α]

namespace Machine

open Session

/-- Naming and reporting what a step answers changes no object. -/
theorem stepped_performNamed (step : Step C α) (name : Option String) (σ : Session C α) :
    Stepped (name.toList ++ step.binds) (step.target.bind σ.refers) (step.command? σ) σ
      (Edit.left (performNamed step name) σ) := by
  refine stepped_bind (stepped_perform step fun x hx => List.mem_append_right _ hx) fun r n => ?_
  cases r with
  | data r =>
    cases name with
    | none => exact (reads_pure r).spares
    | some name =>
      exact (spares_allocate (.other r)).bind fun id => (spares_bindName (by simp) id).bind fun _ =>
        (reads_pure r).spares
  | object id =>
    cases name with
    | none => exact (reads_reportOf id).spares
    | some name => exact (spares_bindName (by simp) id).bind fun _ => (reads_reportOf id).spares

end Machine

namespace Session

/-- The names that a script binds. -/
def bound (script : List (Step C α × Option String)) : List String :=
  script.flatMap fun entry => entry.2.toList ++ entry.1.binds

theorem run_cons (σ : Session C α) (step : Step C α) (name : Option String)
    (rest : List (Step C α × Option String)) :
    (σ.run ((step, name) :: rest)).2 = ((Edit.left (Machine.performNamed step name) σ).run rest).2 := by
  rw [run, Edit.left]
  cases Machine.performNamed step name σ <;> rfl

omit [DecidableEq C] [FactorFamily C] in
theorem commandOn_eq (σ : Session C α) (id : Nat) (step : Step C α) : σ.commandOn id step =
    if step.target.bind σ.refers = some id then step.command? σ else none := by
  rw [commandOn]
  cases step.target with
  | none => rfl
  | some a => cases h : σ.refers a <;> simp [h]

/-- After a script each object holds what the commands on it made of it, and an object without commands
is what it was. Names that the script does not bind refer to what they did. -/
theorem run_commands (script : List (Step C α × Option String)) (σ : Session C α) :
    (∀ id o, σ.objects[id]? = some o → ∃ o', (σ.run script).2.objects[id]? = some o' ∧
      (Command.applyAll (commandsOn id σ script) o).Same o' ∧
      (commandsOn id σ script = [] → o' = o)) ∧
    ∀ x, x ∉ bound script → (σ.run script).2.refers x = σ.refers x := by
  induction script generalizing σ with
  | nil => exact ⟨fun id o ho => ⟨o, ho, Object.same_refl o, fun _ => rfl⟩, fun _ _ => rfl⟩
  | cons entry rest ih =>
    obtain ⟨step, name⟩ := entry
    have hstep := Machine.stepped_performNamed step name σ
    obtain ⟨hobjects, hnames⟩ := ih (Edit.left (Machine.performNamed step name) σ)
    rw [run_cons]
    refine ⟨fun id o ho => ?_, fun x hx => ?_⟩
    · have hid : id < σ.objects.size := (Array.getElem?_eq_some_iff.1 ho).1
      rw [commandsOn]
      cases hc : σ.commandOn id step with
      | none =>
        have hnone : step.target.bind σ.refers ≠ some id ∨ step.command? σ = none := by
          rw [commandOn_eq] at hc
          split at hc
          · exact .inr hc
          · exact .inl ‹_›
        obtain ⟨o', ho', hsame, hkept⟩ := hobjects id o ((hstep.others id hid hnone).trans ho)
        exact ⟨o', ho', hsame, hkept⟩
      | some c =>
        obtain ⟨htarget, hcommand⟩ : step.target.bind σ.refers = some id ∧ step.command? σ = some c := by
          rw [commandOn_eq] at hc
          split at hc
          · exact ⟨‹_›, hc⟩
          · cases hc
        obtain ⟨o₁, ho₁, hsame₁⟩ := hstep.changed id c o htarget hcommand ho
        obtain ⟨o', ho', hsame, -⟩ := hobjects id o₁ ho₁
        exact ⟨o', ho', (Command.applyAll_same _ hsame₁).trans hsame, fun h => nomatch h⟩
    · rw [bound, List.flatMap_cons, List.mem_append, not_or] at hx
      exact (hnames x hx.2).trans (hstep.names x hx.1)

/-- A step that makes a new object from another: the number of the other, what that holds, and what the new
one is to hold. -/
inductive Derives (σ : Session C α) : Step C α → Nat → Object C α → Object C α → Prop
  | copy {a : String} {i : Nat} {o : Object C α} (ha : σ.refers a = some i)
      (ho : σ.objects[i]? = some o) (hbuffers : o.buffers?.isSome) : Derives σ (.copy a) i o o
  | moved {a d : String} {i : Nat} {s s' : Store C α} {along : Buffers C α}
      (ha : σ.refers a = some i) (hs : σ.objects[i]? = some (.store s))
      (hd : σ.buffersSeen d = some along) (hmoved : s.moved along = .ok s') :
      Derives σ (.moved a d) i (.store s) (.store s')

variable {σ : Session C α} {step : Step C α} {i : Nat} {source o : Object C α}

omit [FactorFamily C] in
theorem Derives.source_eq (h : σ.Derives step i source o) : σ.objects[i]? = some source := by
  cases h with
  | copy _ ho _ => exact ho
  | moved _ hs _ _ => exact hs

theorem Derives.perform (h : σ.Derives step i source o) : o.buffer? = none ∧
    Machine.perform step σ = Machine.create o σ := by
  cases h with
  | copy ha ho hbuffers =>
    obtain ⟨t, ht⟩ := Option.isSome_iff_exists.1 hbuffers
    have hbuffer : source.buffer? = none := by
      cases source with
      | buffer => cases ht
      | _ => rfl
    refine ⟨hbuffer, ?_⟩
    have hchecked : Machine.buffersOf source σ = .ok t σ := by rw [Machine.buffersOf, ht]; rfl
    rw [Machine.perform, Edit.bind_ok (Machine.named_ok (seen_of_refers ha ho)),
      Edit.bind_ok hchecked]
  | @moved a d i s s' along ha hs hd hmoved =>
    refine ⟨rfl, ?_⟩
    obtain ⟨od, hod, halong⟩ := Option.bind_eq_some_iff.1 hd
    have hchecked : Machine.buffersOf od σ = .ok along σ := by rw [Machine.buffersOf, halong]; rfl
    have hstore : Machine.storeOf (.store s) σ = .ok s σ := rfl
    rw [Machine.perform, Edit.bind_ok (Machine.named_ok (seen_of_refers ha hs)),
      Edit.bind_ok hstore, Edit.bind_ok (Machine.named_ok hod), Edit.bind_ok hchecked, hmoved]
    rfl

/-- The new object holds what it is to hold, and all others are as they were. -/
theorem Derives.performNamed (h : σ.Derives step i source o) (b : String) : ∃ j o',
    (Edit.left (Machine.performNamed step (some b)) σ).refers b = some j ∧
      σ.objects.size ≤ j ∧
      (Edit.left (Machine.performNamed step (some b)) σ).objects[j]? = some o' ∧ o.Same o' ∧
      (Edit.left (Machine.performNamed step (some b)) σ).objects[i]? = some source := by
  obtain ⟨hbuffer, hperform⟩ := h.perform
  obtain ⟨j, o', τ, hallocate, hj, ho', hsame, hextends⟩ :=
    Machine.allocate_spec hbuffer σ.objects.size [] σ le_rfl
  have hcreate : Machine.create o σ = .ok (.object j) τ := by
    rw [Machine.create, Edit.bind_ok hallocate]
    rfl
  have hleft : Edit.left (Machine.performNamed step (some b)) σ =
      { τ with names := (b, j) :: τ.names } := by
    unfold Machine.performNamed
    rw [Edit.left_bind_ok (hperform.trans hcreate)]
    exact (Edit.left_bind_ok rfl).trans ((Machine.reads_reportOf j).left_eq _)
  have hi : i < σ.objects.size := (Array.getElem?_eq_some_iff.1 h.source_eq).1
  rw [hleft]
  refine ⟨j, o', ?_, hj, ho', hsame, (hextends.objects i hi).trans h.source_eq⟩
  show (((b, j) :: τ.names).find? (·.1 = b)).map Prod.snd = some j
  rw [List.find?_cons_of_pos (by simp)]
  rfl

/-- A vector of the line under the name `a`, and a copy of it under the name `b`. -/
def paired : Session Catalogue ℚ :=
  Edit.left (Machine.performNamed (.copy "a") (some "b"))
    ⟨[("a", 0)], #[.vectors ⟨.ofList [(.type (.real 1), .tangentZeros (.real 1) 1)]⟩], #[]⟩

end Session

end LeastSquares
