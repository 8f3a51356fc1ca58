import LeastSquares.Proofs.Edit
import LeastSquares.Script.Run

/-!
# Steps that fail leave the session as it was

A step that changes an object reads it, computes, and assigns the result. Reading changes nothing and
assigning does not fail, so a step of this make that fails has changed nothing.
-/

namespace LeastSquares.Machine

variable {C α β γ : Type}

/-- The computation changes nothing, whether it fails or not. -/
def Reads (m : Machine C α β) : Prop :=
  ∀ s, (∃ b, m s = .ok b s) ∨ ∃ e, m s = .error e s

/-- The computation does not fail. -/
def Total (m : Machine C α β) : Prop := ∀ s, ∃ b t, m s = .ok b t

/-- The computation changes nothing if it fails. -/
def Atomic (m : Machine C α β) : Prop := ∀ s e t, m s = .error e t → t = s

/-! ## Parts of a step -/

theorem Reads.bind {m : Machine C α β} {f : β → Machine C α γ} (hm : m.Reads)
    (hf : ∀ b, (f b).Reads) : (m >>= f).Reads := by
  intro s
  rcases hm s with ⟨b, hb⟩ | ⟨e, he⟩
  · rw [Edit.bind_ok hb]
    exact hf b s
  · exact .inr ⟨e, Edit.bind_error he f⟩

theorem Total.bind {m : Machine C α β} {f : β → Machine C α γ} (hm : m.Total)
    (hf : ∀ b, (f b).Total) : (m >>= f).Total := by
  intro s
  obtain ⟨b, t, hb⟩ := hm s
  rw [Edit.bind_ok hb]
  exact hf b t

theorem Total.atomic {m : Machine C α β} (h : m.Total) : m.Atomic := by
  intro s e t he
  obtain ⟨b, t', hb⟩ := h s
  rw [hb] at he
  cases he

theorem Reads.bind_atomic {m : Machine C α β} {f : β → Machine C α γ} (hm : m.Reads)
    (hf : ∀ b, (f b).Atomic) : (m >>= f).Atomic := by
  intro s e t he
  rcases hm s with ⟨b, hb⟩ | ⟨e', he'⟩
  · rw [Edit.bind_ok hb] at he
    exact hf b s e t he
  · rw [Edit.bind_error he' f] at he
    cases he
    rfl

theorem total_pure (b : β) : (pure b : Machine C α β).Total := fun s => ⟨b, s, rfl⟩

theorem total_modify (f : Session C α → Session C α) : (modify f : Machine C α Unit).Total :=
  fun s => ⟨(), f s, rfl⟩

theorem total_foldlM {f : β → γ → Machine C α β} (h : ∀ b c, (f b c).Total) (l : List γ) (b : β) :
    (l.foldlM f b).Total := by
  induction l generalizing b with
  | nil => exact total_pure b
  | cons c l ih =>
    rw [List.foldlM_cons]
    exact (h b c).bind ih

/-! ## Reading and assigning -/

theorem reads_checked (x : Checked β) : (checked x : Machine C α β).Reads := by
  intro s
  cases x with
  | ok b => exact .inl ⟨b, rfl⟩
  | error e => exact .inr ⟨_, rfl⟩

theorem reads_reference (name : String) : (reference name : Machine C α Nat).Reads := by
  intro s
  unfold reference
  rw [Edit.get_bind]
  cases s.names.find? (·.1 = name) with
  | none => exact .inr ⟨_, rfl⟩
  | some entry => exact .inl ⟨_, rfl⟩

theorem reads_object (id : Nat) : (object id : Machine C α (Object C α)).Reads := by
  intro s
  unfold object
  rw [Edit.get_bind]
  cases s.objects[id]? with
  | none => exact .inr ⟨_, rfl⟩
  | some o => exact .inl ⟨o, rfl⟩

theorem reads_storeOf (o : Object C α) : (storeOf o).Reads := by
  intro s
  cases o with
  | store t => exact .inl ⟨t, rfl⟩
  | _ => exact .inr ⟨_, rfl⟩

theorem total_keep (b : Buffer C α) : (keep b).Total := by
  unfold keep
  cases b.serial with
  | some id => exact total_pure _
  | none => exact Total.bind (fun s => ⟨_, _, rfl⟩) fun id => (total_modify _).bind fun _ => total_pure _

variable [DecidableEq C]

theorem total_settled (o : Object C α) : (settled o).Total := by
  unfold settled
  cases o.buffers? with
  | none => exact total_pure o
  | some t =>
    refine Total.bind (total_foldlM (fun out e => ?_) _ _) fun _ => total_pure _
    refine Total.bind (Total.bind (Total.bind (total_keep e.2) fun _ => total_pure _)
      fun _ => total_pure _) fun kept => ?_
    cases kept <;> exact total_pure _

theorem total_assign (id : Nat) (o : Object C α) : (assign id o).Total :=
  (total_settled o).bind fun _ => total_modify _

/-! ## Changing a store -/

variable [FactorFamily C] [Scalar α]

/-- A value that cannot be stored leaves everything as it was. -/
theorem perform_store_atomic (name : String) (x : Given α) (type : Option VariableType) :
    (perform (.store name x type : Step C α)).Atomic := by
  unfold perform
  refine (reads_reference name).bind_atomic fun id => (reads_object id).bind_atomic fun o =>
    (reads_storeOf o).bind_atomic fun s => (reads_checked _).bind_atomic fun x =>
    (reads_checked _).bind_atomic fun r => Total.atomic ?_
  exact (total_assign id _).bind fun _ => total_pure _

theorem perform_write_atomic (name : String) (h : GivenHandle α) (x : Given α) :
    (perform (.write name h x : Step C α)).Atomic := by
  unfold perform
  refine (reads_reference name).bind_atomic fun id => (reads_object id).bind_atomic fun o =>
    (reads_storeOf o).bind_atomic fun s => (reads_checked _).bind_atomic fun h =>
    (reads_checked _).bind_atomic fun x => (reads_checked _).bind_atomic fun r => Total.atomic ?_
  exact (total_assign id _).bind fun _ => total_pure _

end LeastSquares.Machine
