import LeastSquares.Proofs.Script.Isolation

/-!
# Steps that change nothing in place

Most steps only read, or make new objects. They leave the objects that are there as they are, and all
names that they do not bind.
-/

namespace LeastSquares

variable {C α β γ : Type}

/-- The name that a step gives to what it makes, before it is done. -/
def Step.binds : Step C α → List String
  | .values (some name) _ | .graph (some name) _ => [name]
  | _ => []

namespace Machine

variable {n : Nat} {bound : List String}

theorem Reads.then_spares {m : Machine C α β} {f : β → Machine C α γ} (h : m.Reads)
    (hf : ∀ b, (f b).Spares n bound) : (m >>= f).Spares n bound := h.spares.bind hf

theorem reads_named (name : String) : (named name : Machine C α (Object C α)).Reads :=
  (reads_reference name).bind reads_object

theorem reads_buffersOf (o : Object C α) : (buffersOf o).Reads := reads_checked _

theorem reads_bufferOf (o : Object C α) : (bufferOf o).Reads := by
  cases o <;> first | exact reads_pure _ | exact reads_throw _

theorem reads_vectorsOf (o : Object C α) : (vectorsOf o).Reads := by
  cases o <;> first | exact reads_pure _ | exact reads_throw _

theorem reads_graphOf (o : Object C α) : (graphOf o).Reads := by
  cases o <;> first | exact reads_pure _ | exact reads_throw _

theorem reads_factorOf (o : Object C α) : (factorOf o).Reads := by
  cases o <;> first | exact reads_pure _ | exact reads_throw _

theorem reads_linearOf (o : Object C α) : (linearOf o).Reads := by
  cases o with
  | linear buffers template =>
    exact (reads_object _).bind fun o => (reads_vectorsOf o).bind fun _ => reads_pure _
  | _ => exact reads_throw _

theorem spares_forM {f : β → Machine C α PUnit} (h : ∀ b, (f b).Spares n bound) (l : List β) :
    (l.forM f).Spares n bound := by
  induction l with
  | nil => exact (reads_pure _).spares
  | cons b l ih => exact (h b).bind fun _ => ih

theorem reads_mapM {f : β → Machine C α γ} (h : ∀ b, (f b).Reads) (l : List β) :
    (l.mapM f).Reads := by
  induction l with
  | nil => exact reads_pure _
  | cons b l ih =>
    rw [List.mapM_cons]
    exact (h b).bind fun _ => ih.bind fun _ => reads_pure _

theorem reads_answer (r : Report α) : (answer r : Machine C α (Answer α)).Reads := reads_pure _

theorem reads_present (id : Nat) : (present id : Machine C α (Answer α)).Reads := reads_pure _

theorem reads_fail : (fail : Machine C α β).Reads := reads_throw _

theorem reads_reportOf [FactorFamily C] [Scalar α] (id : Nat) :
    (reportOf id : Machine C α (Report α)).Reads := by
  unfold reportOf
  refine (reads_object id).bind fun o => ?_
  split
  · exact (reads_object _).bind fun _ => (reads_checked _).bind fun _ => reads_pure _
  · exact (reads_object _).bind fun _ => (reads_checked _).bind fun _ => reads_pure _
  · exact reads_checked _

/-- A step that goes on unless it fails before. -/
theorem spares_unless {fails : Prop} [Decidable fails] {f : Unit → Machine C α β}
    (h : ∀ u, (f u).Spares n bound) : (if fails then fail >>= f else f ()).Spares n bound := by
  split
  · exact reads_fail.then_spares h
  · exact h ()

section

variable [DecidableEq C]

theorem spares_create_checked (x : Checked β) (make : β → Object C α) :
    (checked x >>= fun b => create (make b)).Spares n bound :=
  (reads_checked x).then_spares fun _ => spares_create _

theorem spares_createFactor (f : FactorLiteral C α) :
    (createFactor f : Machine C α (Answer α)).Spares n bound :=
  reads_nextId.then_spares fun _ => spares_create _

theorem spares_rebuilt (id : Nat) : (rebuilt id : Machine C α (Answer α)).Spares n bound := by
  have hpoint : ∀ id, (rebuilt.rebuiltPoint id : Machine C α (Answer α)).Spares n bound := by
    intro id
    refine (reads_object id).then_spares fun o => ?_
    split
    · exact (reads_present _).spares
    · exact (reads_present _).spares
    · exact spares_create _
  unfold rebuilt
  refine (reads_object id).then_spares fun o => ?_
  split
  · exact (reads_present _).spares
  · exact (reads_present _).spares
  · exact spares_create _
  · exact spares_create _
  · refine (hpoint _).bind fun r => ?_
    split
    · exact spares_create _
    · exact reads_fail.spares
  · refine (hpoint _).bind fun r => ?_
    split
    · exact spares_create _
    · exact reads_fail.spares
  · exact spares_create _

/-- An object that is added holds what it held, under a number that no object had. -/
theorem allocate_spec {o : Object C α} (ho : o.buffer? = none) (n : Nat) (bound : List String)
    (σ : Session C α) (hn : n ≤ σ.objects.size) : ∃ id o' τ, allocate o σ = .ok id τ ∧
      n ≤ id ∧ τ.objects[id]? = some o' ∧ o.Same o' ∧ σ.Extends n bound τ := by
  obtain ⟨o', τ, ho', hsame⟩ := settled_same o σ
  have hsettled : σ.Extends n bound (Edit.left (settled o) σ) := spares_settled o σ hn
  rw [Edit.left, ho'] at hsettled
  refine ⟨τ.objects.size, o', Edit.left (push o') τ, ?_, hsettled.size, ?_, hsame,
    hsettled.trans (spares_push o' τ hsettled.size)⟩
  · cases o with
    | buffer => cases ho
    | _ => exact Edit.bind_ok ho' _
  · show (τ.objects.push o')[τ.objects.size]? = some o'
    exact Array.getElem?_push_size

/-- What is made with a number of its own can be worked on: no object from before has it. -/
theorem spares_allocated {o : Object C α} (ho : o.buffer? = none) {f : Nat → Machine C α β}
    (hf : ∀ id, n ≤ id → (f id).Spares n bound) : (allocate o >>= f).Spares n bound := by
  intro σ hσ
  obtain ⟨id, o', τ, hallocate, hid, -, -, hextends⟩ := allocate_spec ho n bound σ hσ
  rw [Edit.left_bind_ok hallocate]
  exact hextends.trans (hf id hid τ hextends.size)

end

variable [DecidableEq C] [FactorFamily C] [Scalar α]

theorem spares_sumOf (minus : Bool) (id : Nat) (b : Operand α) :
    (sumOf minus id b : Machine C α (Answer α)).Spares n bound := by
  unfold sumOf
  refine (reads_object id).then_spares fun o => ?_
  split
  · refine (reads_reference _).then_spares fun other => (reads_object other).then_spares fun o => ?_
    split
    · exact spares_create_checked _ _
    · split
      · exact (reads_present _).spares
      · exact reads_fail.spares
  · split
    · exact (reads_answer _).spares
    · exact reads_fail.spares
  · refine (reads_named _).then_spares fun o => (reads_buffersOf o).then_spares fun _ => ?_
    exact spares_create_checked _ _
  · exact (reads_reference _).then_spares fun _ => reads_fail.spares
  · exact reads_fail.spares

theorem reads_dotOf (id : Nat) (b : Operand α) : (dotOf id b : Machine C α (Answer α)).Reads := by
  unfold dotOf
  refine (reads_object id).bind fun o => ?_
  split
  · refine (reads_named _).bind fun o => ?_
    split
    · exact (reads_checked _).bind fun _ => reads_answer _
    · split
      · exact reads_answer _
      · exact reads_fail
  · split
    · exact reads_answer _
    · exact reads_fail
  · refine (reads_named _).bind fun o => ?_
    split
    · exact reads_answer _
    · exact (reads_checked _).bind fun _ => (reads_checked _).bind fun _ => reads_answer _
  · split
    · exact reads_answer _
    · exact reads_fail
  · exact reads_fail

theorem reads_equalOf (id : Nat) (b : Operand α) : (equalOf id b : Machine C α Bool).Reads := by
  unfold equalOf
  split
  · exact reads_pure _
  · refine (reads_reference _).bind fun other => (reads_object id).bind fun o =>
      (reads_object other).bind fun o' => ?_
    split
    · exact reads_checked _
    · exact reads_checked _
    · split
      · exact reads_pure _
      · exact reads_checked _
    · exact reads_pure _

theorem spares_arithmetic {op : Arithmetic} (hincrease : op ≠ .increase)
    (hdecrease : op ≠ .decrease) (a : String) (b : Operand α) :
    (arithmetic op a b : Machine C α (Answer α)).Spares n bound := by
  refine (reads_reference a).then_spares fun id => ?_
  cases op with
  | add | sub => exact spares_sumOf _ _ _
  | dot => exact (reads_dotOf _ _).spares
  | eq | ne => exact ((reads_equalOf _ _).bind fun _ => reads_answer _).spares
  | increase => exact absurd rfl hincrease
  | decrease => exact absurd rfl hdecrease
  | same =>
    cases b with
    | number => exact (reads_answer _).spares
    | object => exact ((reads_reference _).bind fun _ => reads_answer _).spares

theorem spares_scaleOf (a : String) (s : α) :
    (scaleOf a s : Machine C α (Answer α)).Spares n bound := by
  refine (reads_named a).then_spares fun o => ?_
  split
  · exact spares_create_checked _ _
  · exact spares_create_checked _ _
  · exact reads_fail.spares

/-! ## Questions -/

theorem spares_askFactor (query : FactorQuery) (a point : String) :
    (askFactor query a point : Machine C α (Answer α)).Spares n bound := by
  unfold askFactor
  refine (reads_named a).then_spares fun o => (reads_factorOf o).then_spares fun f =>
    spares_unless fun _ => (reads_named point).then_spares fun p =>
    (reads_checked _).then_spares fun values => ?_
  split
  · exact (reads_answer _).spares
  refine (reads_checked _).then_spares fun f => ?_
  cases query with
  | values => exact (reads_answer _).spares
  | error | residual | forward => exact ((reads_checked _).bind fun _ => reads_answer _).spares
  | component => exact ((reads_checked _).bind fun _ => reads_answer _).spares
  | linearized => exact (reads_checked _).then_spares fun _ => spares_createFactor _

omit [DecidableEq C] in
theorem reads_factorAdjoint (a : String) (y : Literal α) :
    (factorAdjoint a y : Machine C α (Answer α)).Reads :=
  (reads_named a).bind fun o => (reads_factorOf o).bind fun _ => (reads_checked _).bind fun _ =>
    (reads_checked _).bind fun _ => (reads_checked _).bind fun _ => reads_answer _

theorem spares_askNonlinear (query : GraphQuery) (g : FactorGraph C α) (point : Object C α) :
    (askNonlinear query g point : Machine C α (Answer α)).Spares n bound := by
  cases query with
  | error | residualError => exact ((reads_checked _).bind fun _ => reads_answer _).spares
  | residuals => exact spares_create_checked _ _
  | gradient => exact (reads_storeOf _).then_spares fun _ => spares_create_checked _ _
  | linearize =>
    refine (reads_checked _).then_spares fun _ => (reads_checked _).then_spares fun _ =>
      (spares_log _).bind fun _ => (reads_storeOf _).then_spares fun _ => ?_
    exact (reads_checked _).then_spares fun zeros =>
      (spares_allocate (.vectors zeros)).bind fun id => spares_create (.linear _ id)
  | forward | adjoint => exact reads_fail.spares

theorem spares_askLinear (query : GraphQuery) (g : LinearGraph C α) (point : Object C α) :
    (askLinear query g point : Machine C α (Answer α)).Spares n bound := by
  cases query with
  | error => exact ((reads_checked _).bind fun _ => reads_answer _).spares
  | residuals | forward => exact spares_create_checked _ _
  | adjoint =>
    have hcreate : ∀ y, (checked (g.adjoint y) >>= fun v => create (.vectors v) :
        Machine C α (Answer α)).Spares n bound := fun _ => spares_create_checked _ _
    unfold askLinear
    dsimp only
    split
    · exact (reads_pure _).then_spares hcreate
    · exact (reads_buffersOf point).then_spares hcreate
  | residualError | gradient | linearize => exact reads_fail.spares

theorem spares_askGraph (query : GraphQuery) (a point : String) :
    (askGraph query a point : Machine C α (Answer α)).Spares n bound := by
  refine (reads_named a).then_spares fun o => ?_
  split
  · exact spares_unless fun _ => (reads_named point).then_spares fun _ =>
      spares_askNonlinear _ _ _
  · exact spares_unless fun _ => (reads_linearOf _).then_spares fun _ =>
      (reads_named point).then_spares fun _ => spares_askLinear _ _ _
  · exact reads_fail.spares

theorem spares_derivativeOf (a point : String) :
    (derivativeOf a point : Machine C α (Answer α)).Spares n bound := by
  refine (reads_named a).then_spares fun o => (reads_named point).then_spares fun p =>
    (reads_storeOf p).then_spares fun s => ?_
  split
  · exact spares_create_checked _ _
  · exact spares_create_checked _ _
  · exact reads_fail.spares

/-! ## New stores and graphs -/

theorem spares_storeAll {id : Nat} (hid : n ≤ id) (xs : List (Given α)) :
    (storeAll id xs : Machine C α Unit).Spares n bound := by
  induction xs with
  | nil => exact (reads_pure ()).spares
  | cons x xs ih =>
    exact (reads_object id).then_spares fun o => (reads_storeOf o).then_spares fun s =>
      (reads_checked _).then_spares fun x => (reads_checked _).then_spares fun p =>
      (spares_assign hid _).bind fun _ => ih

theorem spares_addFactor {id : Nat} (hid : n ≤ id) (x : GivenFactor C α) :
    (addFactor id x : Machine C α Unit).Spares n bound := by
  refine (reads_object id).then_spares fun o => (reads_graphOf o).then_spares fun g =>
    (reads_checked _).then_spares fun f => ?_
  have hinsert : ∀ _ : PUnit, (checked (g.insert f) >>= fun g => assign id (.graph g) :
      Machine C α Unit).Spares n bound :=
    fun _ => (reads_checked _).then_spares fun _ => spares_assign hid _
  dsimp only
  split
  · exact (spares_log _).bind hinsert
  · exact hinsert ()

/-- A step that works on no object leaves all as they are. -/
theorem spares_perform (step : Step C α) (htarget : step.target = none)
    (hbound : ∀ x ∈ step.binds, x ∈ bound) : (perform step).Spares n bound := by
  cases step with
  | typeInfo t => exact ((reads_checked _).bind fun _ => reads_answer _).spares
  | realType dim => exact ((reads_checked _).bind fun _ => reads_answer _).spares
  | infer x =>
    exact ((reads_checked _).bind fun _ => (reads_checked _).bind fun _ => reads_answer _).spares
  | handleText h => exact ((reads_checked _).bind fun _ => reads_answer _).spares
  | retract t x d =>
    exact ((reads_checked _).bind fun _ => (reads_checked _).bind fun _ =>
      (reads_checked _).bind fun _ => reads_answer _).spares
  | localCoordinates t x y =>
    exact ((reads_checked _).bind fun _ => (reads_checked _).bind fun _ =>
      (reads_checked _).bind fun _ => reads_answer _).spares
  | flatten x =>
    exact ((reads_checked _).bind fun _ => (reads_checked _).bind fun _ =>
      (reads_checked _).bind fun _ => reads_answer _).spares
  | unflatten t flat =>
    exact ((reads_checked _).bind fun _ => (reads_checked _).bind fun _ => reads_answer _).spares
  | noise m =>
    exact ((reads_checked _).bind fun _ => (reads_checked _).bind fun _ => reads_answer _).spares
  | whiten m residual =>
    exact ((reads_checked _).bind fun _ => (reads_checked _).bind fun _ =>
      (reads_checked _).bind fun _ => reads_answer _).spares
  | stack xs axis =>
    exact ((reads_mapM (fun _ => reads_checked _) xs).bind fun _ => (reads_checked _).bind fun _ =>
      reads_answer _).spares
  | concat xs axis =>
    exact ((reads_mapM (fun _ => reads_checked _) xs).bind fun _ => (reads_checked _).bind fun _ =>
      reads_answer _).spares
  | index x i =>
    exact ((reads_checked _).bind fun _ => (reads_checked _).bind fun _ => reads_answer _).spares
  | newBuffer b => exact spares_create_checked _ _
  | append a x =>
    exact (reads_named a).then_spares fun o => (reads_bufferOf o).then_spares fun _ =>
      (reads_checked _).then_spares fun _ => spares_create_checked _ _
  | replace a i x =>
    exact (reads_named a).then_spares fun o => (reads_bufferOf o).then_spares fun _ =>
      (reads_checked _).then_spares fun _ => (reads_checked _).then_spares fun _ =>
      spares_create_checked _ _
  | jacobians a s =>
    exact ((reads_named a).bind fun o => (reads_bufferOf o).bind fun _ =>
      (reads_checked _).bind fun _ => (reads_checked _).bind fun _ => reads_answer _).spares
  | tangentZeros t count =>
    show (if count < 0 then fail else create (.buffer (.tangentZeros t count.toNat)) :
      Machine C α (Answer α)).Spares n bound
    split
    · exact reads_fail.spares
    · exact spares_create _
  | sameContent t u => exact (reads_answer _).spares
  | scaledDotGradient t s x y =>
    have hrows : ∀ rows : Literal α, (do
        return Buffer.ofVectors (.type t) (← checked (Literal.arrayOf rows)) :
          Machine C α (Buffer C α)).Reads :=
      fun _ => (reads_checked _).bind fun _ => reads_pure _
    exact ((hrows x).bind fun _ => (hrows y).bind fun _ => (reads_checked _).bind fun _ =>
      reads_answer _).spares
  | arithmetic op a b =>
    exact spares_arithmetic (fun h => by subst h; cases htarget)
      (fun h => by subst h; cases htarget) a b
  | neg a => exact spares_scaleOf a _
  | squaredNorm a =>
    refine (reads_named a).then_spares fun o => ?_
    split
    · exact ((reads_checked _).bind fun _ => reads_answer _).spares
    · exact ((reads_checked _).bind fun _ => reads_answer _).spares
    · exact reads_fail.spares
  | scaled a s => exact spares_scaleOf a s
  | dump a => exact ((reads_reference a).bind fun _ => reads_present _).spares
  | storage a =>
    exact ((reads_named a).bind fun o => (reads_buffersOf o).bind fun _ =>
      (reads_checked _).bind fun _ => reads_answer _).spares
  | print a =>
    exact ((reads_named a).bind fun _ => (reads_checked _).bind fun _ => reads_answer _).spares
  | length a =>
    exact ((reads_named a).bind fun _ => (reads_checked _).bind fun _ => reads_answer _).spares
  | isEmpty a =>
    exact ((reads_named a).bind fun o => (reads_bufferOf o).bind fun _ => reads_answer _).spares
  | keys a =>
    exact ((reads_named a).bind fun _ => (reads_checked _).bind fun _ => reads_answer _).spares
  | counts a =>
    exact ((reads_named a).bind fun o => (reads_buffersOf o).bind fun _ =>
      (reads_checked _).bind fun _ => reads_answer _).spares
  | countsFrom a least =>
    exact ((reads_named a).bind fun o => (reads_buffersOf o).bind fun _ =>
      (reads_checked _).bind fun _ => (reads_checked _).bind fun _ => reads_answer _).spares
  | contains a t =>
    exact ((reads_named a).bind fun _ => (reads_checked _).bind fun _ => reads_answer _).spares
  | buffer a t =>
    exact (reads_named a).then_spares fun o => (reads_buffersOf o).then_spares fun _ =>
      spares_create _
  | copy a =>
    exact (reads_named a).then_spares fun o => (reads_buffersOf o).then_spares fun _ =>
      spares_create o
  | rebuild a => exact (reads_reference a).then_spares fun id => spares_rebuilt id
  | atHandle a h =>
    exact ((reads_named a).bind fun _ => (reads_checked _).bind fun _ =>
      (reads_checked _).bind fun _ => reads_answer _).spares
  | atIndex a i =>
    exact ((reads_named a).bind fun o => (reads_bufferOf o).bind fun _ =>
      (reads_checked _).bind fun _ => (reads_checked _).bind fun _ => reads_answer _).spares
  | vectors entries => exact spares_create_checked _ _
  | like a entries =>
    exact (reads_named a).then_spares fun o => (reads_buffersOf o).then_spares fun _ =>
      spares_create_checked _ _
  | values name xs =>
    refine spares_allocated rfl fun id hid => ?_
    have hstored : ∀ _ : PUnit, (storeAll id xs >>= fun _ => present id :
        Machine C α (Answer α)).Spares n bound :=
      fun _ => (spares_storeAll hid xs).bind fun _ => (reads_present id).spares
    cases name with
    | none => exact hstored ()
    | some name => exact (spares_bindName (hbound name (by simp [Step.binds])) id).bind hstored
  | stacked a t =>
    exact ((reads_named a).bind fun o => (reads_storeOf o).bind fun _ =>
      (reads_checked _).bind fun _ => reads_answer _).spares
  | zeros a =>
    exact (reads_named a).then_spares fun o => (reads_storeOf o).then_spares fun _ =>
      spares_create_checked _ _
  | moved a b =>
    exact (reads_named a).then_spares fun o => (reads_storeOf o).then_spares fun _ =>
      (reads_named b).then_spares fun o => (reads_buffersOf o).then_spares fun _ =>
      spares_create_checked _ _
  | factor x => exact (reads_checked _).then_spares fun _ => spares_createFactor _
  | groupName x => exact ((reads_checked _).bind fun _ => reads_answer _).spares
  | sameGroup x y =>
    exact ((reads_checked _).bind fun _ => (reads_checked _).bind fun _ => reads_answer _).spares
  | askFactor query a point => exact spares_askFactor query a point
  | factorAdjoint a y => exact (reads_factorAdjoint a y).spares
  | graph name xs =>
    refine spares_allocated rfl fun id hid => ?_
    have hadded : ∀ _ : PUnit, (xs.forM (addFactor id) >>= fun _ => present id :
        Machine C α (Answer α)).Spares n bound :=
      fun _ => (spares_forM (spares_addFactor hid) xs).bind fun _ => (reads_present id).spares
    cases name with
    | none => exact hadded ()
    | some name => exact (spares_bindName (hbound name (by simp [Step.binds])) id).bind hadded
  | factorCount a =>
    exact ((reads_named a).bind fun o => (reads_graphOf o).bind fun _ =>
      (reads_checked _).bind fun _ => reads_answer _).spares
  | askGraph query a point => exact spares_askGraph query a point
  | derivative a point => exact spares_derivativeOf a point
  | template a =>
    exact ((reads_named a).bind fun o => (reads_linearOf o).bind fun _ => reads_present _).spares
  | setBuffer | restore | fillEmpty | scatterAdd | store | write | move | addFactor | damp | cgls
  | levenbergMarquardt | gradientDescent => cases htarget

end Machine

end LeastSquares

