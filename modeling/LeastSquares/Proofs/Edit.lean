import LeastSquares.Proofs.Checked
import LeastSquares.Buffer.Vectors

/-!
# Runs of edits

One step of a computation that changes an object: what a bind does after a first part that
succeeded or failed, and checked operations within it, which leave the object as it is. Two edits are
alike if they do the same to objects that are related.
-/

namespace LeastSquares.Edit

variable {ε S β γ : Type}

theorem bind_ok {m : EStateM ε S β} {s t : S} {b : β} (h : m s = .ok b t)
    (f : β → EStateM ε S γ) : (m >>= f) s = f b t := by
  show EStateM.bind m f s = f b t
  rw [EStateM.bind, h]

theorem bind_error {m : EStateM ε S β} {s t : S} {e : ε} (h : m s = .error e t)
    (f : β → EStateM ε S γ) : (m >>= f) s = .error e t := by
  show EStateM.bind m f s = .error e t
  rw [EStateM.bind, h]

/-- A bind that succeeds has done so in both parts. -/
theorem bind_eq_ok {m : EStateM ε S β} {f : β → EStateM ε S γ} {s t : S} {c : γ}
    (h : (m >>= f) s = .ok c t) : ∃ b u, m s = .ok b u ∧ f b u = .ok c t := by
  cases hm : m s with
  | ok b u => exact ⟨b, u, rfl, (bind_ok hm f).symm.trans h⟩
  | error e u => cases (bind_error hm f).symm.trans h

theorem get_bind (f : S → EStateM ε S γ) (s : S) : (get >>= f) s = f s s := rfl

theorem lift_ok {x : Checked β} {b : β} (h : x = .ok b) (s : S) :
    (liftM x : Edit S β) s = .ok b s := by
  rw [h]
  rfl

theorem lift_error {x : Checked β} {e : Failure} (h : x = .error e) (s : S) :
    (liftM x : Edit S β) s = .error e s := by
  rw [h]
  rfl

/-- A checked operation that succeeds, as a part of an edit. -/
theorem lift_bind {x : Checked β} {b : β} (h : x = .ok b) (f : β → Edit S γ) (s : S) :
    ((liftM x : Edit S β) >>= f) s = f b s := bind_ok (lift_ok h s) f

theorem lift_eq_ok {x : Checked β} {b : β} {s t : S} (h : (liftM x : Edit S β) s = .ok b t) :
    x = .ok b ∧ t = s := by
  cases x with
  | ok c =>
    cases h
    exact ⟨rfl, rfl⟩
  | error e => cases h

/-- A bind that succeeds after a checked operation. -/
theorem lift_bind_eq_ok {x : Checked β} {f : β → Edit S γ} {s t : S} {c : γ}
    (h : ((liftM x : Edit S β) >>= f) s = .ok c t) : ∃ b, x = .ok b ∧ f b s = .ok c t := by
  obtain ⟨b, u, hx, hf⟩ := bind_eq_ok h
  obtain ⟨hb, rfl⟩ := lift_eq_ok hx
  exact ⟨b, hb, hf⟩

/-- An edit along a list, one step for each entry. It comes to the end, or to the first entry whose step
fails; whatever the steps preserve then holds with the entries worked off. -/
theorem along_cases {X S : Type} {run : List X → Edit S Unit} {step : X → S → Checked S}
    (nil : ∀ s, run [] s = .ok () s)
    (ok : ∀ {x s t}, step x s = .ok t → ∀ rest, run (x :: rest) s = run rest t)
    (error : ∀ {x s e}, step x s = .error e → ∀ rest, run (x :: rest) s = .error e s)
    {P : List X → S → Prop} {s : S} (start : P [] s) (xs : List X)
    (next : ∀ done x rest s t, xs = done ++ x :: rest → P done s → step x s = .ok t →
      P (done ++ [x]) t) :
    (∃ t, run xs s = .ok () t ∧ P xs t) ∨
      ∃ done x rest e t, xs = done ++ x :: rest ∧ run xs s = .error e t ∧ P done t ∧
        step x t = .error e := by
  have go : ∀ rest done s, xs = done ++ rest → P done s →
      (∃ t, run rest s = .ok () t ∧ P xs t) ∨ ∃ done' x rest' e t, xs = done' ++ x :: rest' ∧
        run rest s = .error e t ∧ P done' t ∧ step x t = .error e := by
    intro rest
    induction rest with
    | nil =>
      intro done s hxs hP
      rw [List.append_nil] at hxs
      exact .inl ⟨s, nil s, hxs ▸ hP⟩
    | cons x rest ih =>
      intro done s hxs hP
      cases hstep : step x s with
      | ok t =>
        rw [ok hstep]
        exact ih (done ++ [x]) t (by simp [hxs]) (next done x rest s t hxs hP hstep)
      | error e => exact .inr ⟨done, x, rest, e, s, hxs, error hstep rest, hP, hstep⟩
  exact go xs [] s rfl start

/-- The object that an edit leaves, whether it succeeds or fails. -/
def left (m : EStateM ε S β) (s : S) : S :=
  match m s with
  | .ok _ t | .error _ t => t

theorem left_bind_ok {m : EStateM ε S β} {f : β → EStateM ε S γ} {s t : S} {b : β}
    (h : m s = .ok b t) : left (m >>= f) s = left (f b) t := by
  unfold left
  rw [bind_ok h]

theorem left_bind_error {m : EStateM ε S β} {f : β → EStateM ε S γ} {s t : S} {e : ε}
    (h : m s = .error e t) : left (m >>= f) s = t := by
  unfold left
  rw [bind_error h]

/-! ## Alike edits -/

variable {T δ ζ : Type} {R : S → T → Prop}

/-- Two results that are of one make, in what they answer and in the objects they leave. -/
inductive Related (R : S → T → Prop) (Q : β → γ → Prop) :
    EStateM.Result ε S β → EStateM.Result ε T γ → Prop
  | ok {b : β} {c : γ} {s : S} {t : T} (answer : Q b c) (left : R s t) : Related R Q (.ok b s) (.ok c t)
  | error (e : ε) {s : S} {t : T} (left : R s t) : Related R Q (.error e s) (.error e t)

/-- Two edits that do the same to related objects. -/
def Alike (R : S → T → Prop) (Q : β → γ → Prop) (m : EStateM ε S β) (n : EStateM ε T γ) : Prop :=
  ∀ s t, R s t → Related R Q (m s) (n t)

theorem Alike.left {Q : β → γ → Prop} {m : EStateM ε S β} {n : EStateM ε T γ} (h : Alike R Q m n) {s : S}
    {t : T} (hst : R s t) : R (left m s) (left n t) := by
  have hrelated := h s t hst
  unfold Edit.left
  cases hm : m s <;> cases hn : n t <;> rw [hm, hn] at hrelated <;> cases hrelated <;> assumption

theorem Alike.bind {Q : β → γ → Prop} {P : δ → ζ → Prop} {m : EStateM ε S β} {n : EStateM ε T γ}
    {f : β → EStateM ε S δ} {g : γ → EStateM ε T ζ} (h : Alike R Q m n)
    (hf : ∀ b c, Q b c → Alike R P (f b) (g c)) : Alike R P (m >>= f) (n >>= g) := by
  intro s t hst
  have hrelated := h s t hst
  cases hm : m s <;> cases hn : n t <;> rw [hm, hn] at hrelated <;> cases hrelated
  case ok.ok hanswer hleft =>
    rw [bind_ok hm, bind_ok hn]
    exact hf _ _ hanswer _ _ hleft
  case error.error hleft =>
    rw [bind_error hm, bind_error hn]
    exact .error _ hleft

theorem alike_pure {Q : β → γ → Prop} {b : β} {c : γ} (h : Q b c) :
    Alike R Q (pure b : EStateM ε S β) (pure c) := fun _ _ hst => .ok h hst

theorem alike_throw {Q : β → γ → Prop} (e : ε) : Alike R Q (throw e : EStateM ε S β) (throw e) :=
  fun _ _ hst => .error e hst

theorem alike_get : Alike R R (get : EStateM ε S S) get := fun _ _ hst => .ok hst hst

theorem alike_modify {f : S → S} {g : T → T} (h : ∀ s t, R s t → R (f s) (g t)) :
    Alike R Eq (modify f : EStateM ε S Unit) (modify g) := fun _ _ hst => .ok rfl (h _ _ hst)

theorem alike_lift {S T : Type} {R : S → T → Prop} {Q : β → γ → Prop} {x : Checked β} {y : Checked γ}
    (h : Checked.Alike Q x y) : Alike R Q (liftM x : Edit S β) (liftM y) := by
  intro s t hst
  cases h with
  | ok h => exact .ok h hst
  | error e => exact .error e hst

/-- Edits that go on alike after the same checked operation. -/
theorem alike_lift_bind {S T : Type} {R : S → T → Prop} {Q : γ → δ → Prop} (x : Checked β)
    {f : β → Edit S γ} {g : β → Edit T δ} (h : ∀ b, Alike R Q (f b) (g b)) :
    Alike R Q ((liftM x : Edit S β) >>= f) ((liftM x : Edit T β) >>= g) :=
  (alike_lift (.refl (R := Eq) (fun _ => rfl) x)).bind fun b _ hb => hb ▸ h b

end LeastSquares.Edit
