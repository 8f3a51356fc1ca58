import LeastSquares.Proofs.Script.Atomic
import LeastSquares.Proofs.Script.Command

/-!
# Isolation of objects

Copies share their buffers, but a step replaces the buffers of the object that it works on and never what
is in a buffer. So after any script each object holds what the commands on it make of what it held before,
and whatever no command is on stays exactly as it was.
-/

namespace LeastSquares

variable {C α β γ : Type}

namespace Object

def buffer? : Object C α → Option (Buffer C α)
  | buffer b => some b
  | _ => none

def vectors? : Object C α → Option (Vectors C α)
  | vectors v => some v
  | _ => none

def store? : Object C α → Option (Store C α)
  | store s => some s
  | _ => none

def graph? : Object C α → Option (FactorGraph C α)
  | graph g => some g
  | _ => none

def linear? : Object C α → Option (Buffers C α × Nat)
  | linear buffers template => some (buffers, template)
  | _ => none

end Object

namespace Session

/-- The number of the object that a name refers to. -/
def refers (σ : Session C α) (name : String) : Option Nat := (σ.names.find? (·.1 = name)).map Prod.snd

/-- The object that a name refers to. -/
def seen (σ : Session C α) (name : String) : Option (Object C α) := do σ.objects[← σ.refers name]?

def buffersSeen (σ : Session C α) (name : String) : Option (Buffers C α) := do (← σ.seen name).buffers?

/-- An object as a linear graph, with the number of its template. -/
def linear? (σ : Session C α) (o : Object C α) : Option (LinearGraph C α × Nat) := do
  let (buffers, template) ← o.linear?
  return (⟨buffers, ← (← σ.objects[template]?).vectors?⟩, template)

end Session

/-! ## Commands of steps -/

section Commands

variable [DecidableEq C] [FactorFamily C] [Scalar α]

/-- The name of the object that a step works on in place. Most steps have none. -/
def Step.target : Step C α → Option String
  | .setBuffer a .. | .restore a _ | .fillEmpty a _ | .scatterAdd a .. | .store a .. | .write a ..
  | .move a _ | .addFactor a _ | .damp a _ => some a
  | .arithmetic .increase a _ | .arithmetic .decrease a _ => some a
  | .cgls _ x _ => some x
  | .levenbergMarquardt _ point _ | .gradientDescent _ point _ => some point
  | _ => none

/-- The command of a step on the object that it works on, with what it reads from others as it is in a
session. -/
@[simp] def Step.command? (σ : Session C α) : Step C α → Option (Command C α)
  | .setBuffer _ t b => do return .setBuffer t (← (← σ.seen b).buffer?)
  | .restore _ b => do return .restore (← σ.buffersSeen b)
  | .fillEmpty _ b => do return .fillEmpty (← σ.buffersSeen b)
  | .arithmetic .increase _ (.object b) => do return .increase ⟨← σ.buffersSeen b⟩
  | .arithmetic .decrease _ (.object b) => do return .decrease ⟨← σ.buffersSeen b⟩
  | .scatterAdd _ h rows => do
    return .scatterAdd (← h.build.toOption) (← (Literal.arrayOf rows).toOption)
  | .store _ x t => do return .store (← x.build.toOption) t
  | .write _ h x => do return .write (← h.build.toOption) (← x.build.toOption)
  | .move _ b => do return .move (← σ.buffersSeen b)
  | .addFactor _ x => do return .addFactor (← x.build.toOption)
  | .damp a s => do return .damp s (← σ.linear? (← σ.seen a)).1.template
  | .cgls a x config => do
    let (g, origin) ← σ.linear? (← σ.seen a)
    return .cgls config g (σ.refers x = some origin)
  | .levenbergMarquardt a _ config => do return .levenbergMarquardt config (← (← σ.seen a).graph?)
  | .gradientDescent a _ config => do return .gradientDescent config (← (← σ.seen a).graph?)
  | _ => none

/-- The command of a step on one object. -/
def Session.commandOn (σ : Session C α) (id : Nat) (step : Step C α) : Option (Command C α) := do
  if (← σ.refers (← step.target)) = id then step.command? σ else none

/-- The commands of a script on one object, in order. -/
def Session.commandsOn (id : Nat) : Session C α → List (Step C α × Option String) → List (Command C α)
  | _, [] => []
  | σ, (step, name) :: rest =>
    (σ.commandOn id step).toList ++
      Session.commandsOn id (Edit.left (Machine.performNamed step name) σ) rest

end Commands

/-! ## Machines that leave objects alone -/

/-- A later session has the first `n` objects of an earlier one, and all names that are not bound anew refer
to what they did. -/
structure Session.Extends (n : Nat) (bound : List String) (σ τ : Session C α) : Prop where
  size : n ≤ τ.objects.size
  objects : ∀ k, k < n → τ.objects[k]? = σ.objects[k]?
  names : ∀ x, x ∉ bound → τ.refers x = σ.refers x

namespace Session.Extends

variable {n : Nat} {bound : List String} {σ τ υ : Session C α}

theorem refl (h : n ≤ σ.objects.size) : Extends n bound σ σ := ⟨h, fun _ _ => rfl, fun _ _ => rfl⟩

theorem trans (h : Extends n bound σ τ) (h' : Extends n bound τ υ) : Extends n bound σ υ :=
  ⟨h'.size, fun k hk => (h'.objects k hk).trans (h.objects k hk),
    fun x hx => (h'.names x hx).trans (h.names x hx)⟩

end Session.Extends

namespace Machine

variable {n : Nat} {bound : List String}

/-- The computation leaves the first `n` objects as they are, and all names that it may not bind. It may make
new objects. -/
def Spares (n : Nat) (bound : List String) (m : Machine C α β) : Prop :=
  ∀ σ : Session C α, n ≤ σ.objects.size → σ.Extends n bound (Edit.left m σ)

theorem Reads.left_eq {m : Machine C α β} (h : m.Reads) (σ : Session C α) : Edit.left m σ = σ := by
  unfold Edit.left
  rcases h σ with ⟨b, hb⟩ | ⟨e, he⟩
  · rw [hb]
  · rw [he]

theorem Reads.spares {m : Machine C α β} (h : m.Reads) : m.Spares n bound := by
  intro σ hσ
  rw [h.left_eq]
  exact .refl hσ

theorem Spares.bind {m : Machine C α β} {f : β → Machine C α γ} (h : m.Spares n bound)
    (hf : ∀ b, (f b).Spares n bound) : (m >>= f).Spares n bound := by
  intro σ hσ
  have hfirst := h σ hσ
  unfold Edit.left at hfirst ⊢
  cases hm : m σ with
  | ok b τ =>
    rw [hm] at hfirst
    rw [Edit.bind_ok hm]
    exact hfirst.trans (hf b τ hfirst.size)
  | error e τ =>
    rw [hm] at hfirst
    rwa [Edit.bind_error hm]

theorem spares_push (o : Object C α) : (push o).Spares n bound := by
  intro σ hσ
  refine ⟨?_, fun k hk => ?_, fun _ _ => rfl⟩
  · show n ≤ (σ.objects.push o).size
    rw [Array.size_push]
    omega
  · show (σ.objects.push o)[k]? = _
    rw [Array.getElem?_push, if_neg (by omega)]

theorem spares_bindName {name : String} (h : name ∈ bound) (id : Nat) :
    (bindName name id : Machine C α Unit).Spares n bound := by
  refine fun σ hσ => ⟨hσ, fun _ _ => rfl, fun x hx => ?_⟩
  have hne : name ≠ x := fun heq => hx (heq ▸ h)
  show (((name, id) :: σ.names).find? (·.1 = x)).map Prod.snd = _
  rw [List.find?_cons_of_neg (by simpa using hne)]
  rfl

theorem spares_log (e : Event α) : (log e : Machine C α Unit).Spares n bound :=
  fun _ hσ => ⟨hσ, fun _ _ => rfl, fun _ _ => rfl⟩

theorem reads_pure (b : β) : (pure b : Machine C α β).Reads := fun _ => .inl ⟨b, rfl⟩

theorem reads_throw (e : StepError α) : (throw e : Machine C α β).Reads := fun _ => .inr ⟨e, rfl⟩

theorem reads_nextId : (nextId : Machine C α Nat).Reads := fun _ => .inl ⟨_, rfl⟩

theorem spares_foldlM {f : β → γ → Machine C α β} (h : ∀ b c, (f b c).Spares n bound) (l : List γ) (b : β) :
    (l.foldlM f b).Spares n bound := by
  induction l generalizing b with
  | nil => exact (reads_pure b).spares
  | cons c l ih =>
    rw [List.foldlM_cons]
    exact (h b c).bind ih

theorem spares_keep (b : Buffer C α) : (keep b).Spares n bound := by
  unfold keep
  cases b.serial with
  | some id => exact (reads_pure _).spares
  | none => exact reads_nextId.spares.bind fun id => (spares_push _).bind fun _ => (reads_pure _).spares

variable [DecidableEq C]

theorem spares_settled (o : Object C α) : (settled o).Spares n bound := by
  unfold settled
  cases o.buffers? with
  | none => exact (reads_pure o).spares
  | some t =>
    refine (spares_foldlM (fun out e => ?_) _ _).bind fun _ => (reads_pure _).spares
    refine (((spares_keep e.2).bind fun _ => (reads_pure _).spares).bind fun _ =>
      (reads_pure _).spares).bind fun kept => ?_
    cases kept <;> exact (reads_pure _).spares

theorem spares_allocate (o : Object C α) : (allocate o).Spares n bound := by
  unfold allocate
  split
  · exact (spares_keep _).bind fun _ => (reads_pure _).spares
  · exact (spares_settled _).bind fun _ => reads_nextId.spares.bind fun _ =>
      (spares_push _).bind fun _ => (reads_pure _).spares

theorem spares_create (o : Object C α) : (create o).Spares n bound :=
  (spares_allocate o).bind fun _ => (reads_pure _).spares

/-- A new object can be assigned again. -/
theorem spares_assign {id : Nat} (h : n ≤ id) (o : Object C α) : (assign id o).Spares n bound := by
  refine (spares_settled o).bind fun o σ hσ => ⟨?_, fun k hk => ?_, fun _ _ => rfl⟩
  · show n ≤ (σ.objects.setIfInBounds id o).size
    rw [Array.size_setIfInBounds]
    exact hσ
  · show (σ.objects.setIfInBounds id o)[k]? = _
    rw [Array.getElem?_setIfInBounds_ne (by omega)]

/-! ## Assigning -/

omit [DecidableEq C] in
theorem keep_same (b : Buffer C α) (σ : Session C α) : ∃ p τ, keep b σ = .ok p τ ∧ b.Same p.1 := by
  unfold keep
  cases b.serial with
  | some id => exact ⟨_, _, rfl, rfl⟩
  | none => exact ⟨_, _, rfl, rfl⟩

/-- A table that is put together again from buffers that hold the same. -/
theorem foldlM_same {f : Buffers C α → Key C × Buffer C α → Machine C α (Buffers C α)}
    (hf : ∀ out e σ, ∃ b τ, f out e σ = .ok (out.insert e.1 b) τ ∧ e.2.Same b)
    (l : List (Key C × Buffer C α)) (out : Buffers C α) (σ : Session C α)
    (hkeys : ((out.entries ++ l).map Prod.fst).Nodup) : ∃ u τ, l.foldlM f out σ = .ok u τ ∧
      u.bare.entries = (out.entries ++ l).map fun e => (e.1, e.2.bare) := by
  induction l generalizing out σ with
  | nil => exact ⟨out, σ, rfl, by rw [List.append_nil]; rfl⟩
  | cons e l ih =>
    obtain ⟨b, τ, hstep, hsame⟩ := hf out e σ
    have hfresh : e.1 ∉ out.keys := by
      rw [List.map_append, List.nodup_append] at hkeys
      exact fun hmem => hkeys.2.2 _ hmem _ (by simp) rfl
    have hentries : (out.insert e.1 b).entries = out.entries ++ [(e.1, b)] :=
      Table.entries_insert_of_not_mem hfresh
    obtain ⟨u, υ, hu, hbare⟩ := ih (out.insert e.1 b) τ (by simpa [hentries] using hkeys)
    refine ⟨u, υ, ?_, ?_⟩
    · rw [List.foldlM_cons, Edit.bind_ok hstep, hu]
    · rw [hbare, hentries]
      simp [show b.bare = e.2.bare from hsame.symm]

theorem mapM_keep_same (t : Buffers C α) (σ : Session C α) : ∃ u τ,
    (t.mapM fun _ b => do return (← keep b).1 : Machine C α (Buffers C α)) σ = .ok u τ ∧ t.Same u := by
  unfold Table.mapM Table.filterMapM
  refine (foldlM_same (fun out e σ => ?_) t.entries .empty σ t.distinct).imp fun u hu =>
    hu.imp fun τ h => ⟨h.1, ?_⟩
  · obtain ⟨p, τ, hp, hsame⟩ := keep_same e.2 σ
    refine ⟨p.1, τ, ?_, hsame⟩
    simp only [bind_assoc, pure_bind]
    exact Edit.bind_ok hp _
  · exact Table.eq_of_entries h.2.symm

/-- An object as it is kept holds the same. -/
theorem settled_same (o : Object C α) (σ : Session C α) :
    ∃ o' τ, settled o σ = .ok o' τ ∧ o.Same o' := by
  unfold settled
  cases hbuffers : o.buffers? with
  | none => exact ⟨o, σ, rfl, rfl⟩
  | some t =>
    obtain ⟨u, τ, hu, hsame⟩ := mapM_keep_same t σ
    exact ⟨o.withBuffers u, τ, Edit.bind_ok hu _, Object.same_withBuffers hbuffers hsame⟩

/-- What an object is that is assigned; all others stay, and all names. -/
theorem assign_spec (id : Nat) (o : Object C α) (σ : Session C α) (hid : id < σ.objects.size) :
    ∃ τ o', assign id o σ = .ok () τ ∧ τ.objects[id]? = some o' ∧ o.Same o' ∧
      σ.objects.size ≤ τ.objects.size ∧ (∀ k, k ≠ id → k < σ.objects.size → τ.objects[k]? = σ.objects[k]?) ∧
      ∀ x, τ.refers x = σ.refers x := by
  obtain ⟨o', τ, ho, hsame⟩ := settled_same o σ
  have hspares : σ.Extends σ.objects.size [] (Edit.left (settled o) σ) := spares_settled o σ le_rfl
  rw [Edit.left, ho] at hspares
  refine ⟨{ τ with objects := τ.objects.setIfInBounds id o' }, o', Edit.bind_ok ho _, ?_, hsame, ?_,
    fun k hk hlt => ?_, fun x => hspares.names x List.not_mem_nil⟩
  · exact Array.getElem?_setIfInBounds_self_of_lt (hid.trans_le hspares.size)
  · show _ ≤ (τ.objects.setIfInBounds id o').size
    rw [Array.size_setIfInBounds]
    exact hspares.size
  · show (τ.objects.setIfInBounds id o')[k]? = _
    rw [Array.getElem?_setIfInBounds_ne (Ne.symm hk)]
    exact hspares.objects k hlt

end Machine

end LeastSquares
