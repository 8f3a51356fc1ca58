import LeastSquares.Proofs.Buffer.InPlace
import LeastSquares.Proofs.Script.Stepping
import LeastSquares.Proofs.Numeric.Exact
import LeastSquares.Catalogue

/-!
# Sums in place

Adding one collection of vectors to another in place, and subtracting it: what the object holds then that
the step works on, also if the step fails halfway, and also if both are one object.
-/

namespace LeastSquares

variable {C α β : Type} [DecidableEq C]

/-- One object is replaced by one that holds what a given object does. All else is as it was. -/
structure Session.Replaced (σ τ : Session C α) (id : Nat) (o : Object C α) : Prop where
  here : ∃ o', τ.objects[id]? = some o' ∧ o.Same o'
  others : ∀ k, k ≠ id → k < σ.objects.size → τ.objects[k]? = σ.objects[k]?
  names : ∀ x, τ.refers x = σ.refers x

namespace Machine

variable {σ : Session C α} {id : Nat}

/-- An edit of an object ends as the change does, and what the change leaves is kept either way. -/
theorem edit_spec {S : Type} (wrap : S → Object C α) (s : S) (change : Edit S β)
    (hid : id < σ.objects.size) :
    (∀ b t, change s = .ok b t → ∃ τ, edit id wrap s change σ = .ok b τ ∧ σ.Replaced τ id (wrap t)) ∧
      ∀ e t, change s = .error e t → ∃ τ, edit id wrap s change σ = .error (.solver (.failed e)) τ ∧
        σ.Replaced τ id (wrap t) := by
  have hassign : ∀ t, ∃ τ, assign id (wrap t) σ = .ok () τ ∧ σ.Replaced τ id (wrap t) := by
    intro t
    obtain ⟨τ, o', hτ, ho', hsame, -, hothers, hnames⟩ := assign_spec id (wrap t) σ hid
    exact ⟨τ, hτ, ⟨o', ho', hsame⟩, hothers, hnames⟩
  constructor
  · intro b t hchange
    obtain ⟨τ, hτ, hreplaced⟩ := hassign t
    refine ⟨τ, ?_, hreplaced⟩
    rw [edit, hchange]
    exact Edit.bind_ok hτ _
  · intro e t hchange
    obtain ⟨τ, hτ, hreplaced⟩ := hassign t
    refine ⟨τ, ?_, hreplaced⟩
    rw [edit, hchange]
    exact Edit.bind_ok hτ _

variable [FactorFamily C] [Scalar α]

/-- The step that adds in place, or subtracts. -/
def accumulating (minus : Bool) (x y : String) : Step C α :=
  .arithmetic (if minus then .decrease else .increase) x (.object y)

/-- What the step makes of two buffers. -/
def mergeOf (minus : Bool) : Buffer C α → Buffer C α → Checked (Buffer C α) :=
  if minus then Buffer.sub else Buffer.add

variable {x y : String} {i j : Nat} {a b : Vectors C α}

theorem perform_accumulating (minus : Bool) (hx : σ.refers x = some i)
    (ha : σ.objects[i]? = some (.vectors a)) (hy : σ.refers y = some j)
    (hb : σ.objects[j]? = some (.vectors b)) : perform (accumulating minus x y) σ =
      (edit i .vectors a (Vectors.updateWith (mergeOf minus) b) >>= fun _ => present i) σ := by
  have hperform : perform (accumulating minus x y : Step C α) =
      reference x >>= fun i => accumulate minus i (.object y) := by
    cases minus <;> rfl
  have hbuffers : buffersOf (.vectors b) σ = .ok b.buffers σ := rfl
  have hseen : σ.seen y = some (.vectors b) := Session.seen_of_refers hy hb
  rw [hperform, Edit.bind_ok (reference_ok hx), accumulate, Edit.bind_ok (object_ok ha)]
  dsimp only
  rw [Edit.bind_ok (named_ok hseen), Edit.bind_ok hbuffers]
  cases minus <;> rfl

/-- Vectors of the line under the name `a`. Under the name `b`, vectors of the plane, and then of two points
of the line. -/
def crossed : Session Catalogue ℚ where
  names := [("a", 0), ("b", 1)]
  objects := #[.vectors ⟨.ofList [(.type (.real 1), .tangentZeros (.real 1) 1)]⟩,
    .vectors ⟨.ofList [(.type (.real 2), .tangentZeros (.real 2) 1),
      (.type (.real 1), .tangentZeros (.real 1) 2)]⟩]
  events := #[]

end Machine

end LeastSquares
