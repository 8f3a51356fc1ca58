import Mathlib
import LeastSquares.Failure

/-!
# Runs of checked operations

How a checked computation that succeeds goes on: binding, mapping and folding over a list. A fold
is followed by a property of what was worked off so far.
-/

namespace LeastSquares

/-- A list that is told entry by entry from another. -/
theorem eq_map_of_forall₂ {β γ : Type} {f : β → γ} {l : List β} {l' : List γ}
    (h : List.Forall₂ (fun b c => f b = c) l l') : l' = l.map f := by
  have heq := List.forall₂_map_left_iff.2 h
  rw [List.forall₂_eq_eq_eq] at heq
  exact heq.symm

/-- A partial mapping that succeeds has an image for each entry. -/
theorem forall₂_of_mapM {β γ : Type} {f : β → Option γ} {l : List β} {ys : List γ}
    (h : l.mapM f = some ys) : List.Forall₂ (fun x y => f x = some y) l ys := by
  induction l generalizing ys with
  | nil =>
    obtain rfl : [] = ys := by simpa using h
    exact .nil
  | cons x l ih =>
    obtain ⟨y, hy, ys', hys, rfl⟩ : ∃ y, f x = some y ∧ ∃ ys', l.mapM f = some ys' ∧ y :: ys' = ys := by
      simpa [Option.bind_eq_some_iff] using h
    exact .cons hy (ih hys)

/-- A partial mapping succeeds where each entry has an image. -/
theorem exists_mapM {β γ : Type} {f : β → Option γ} {l : List β} (h : ∀ x ∈ l, ∃ y, f x = some y) :
    ∃ ys, l.mapM f = some ys := by
  induction l with
  | nil => exact ⟨[], rfl⟩
  | cons x l ih =>
    obtain ⟨y, hy⟩ := h x (by simp)
    obtain ⟨ys, hys⟩ := ih fun z hz => h z (by simp [hz])
    exact ⟨y :: ys, by simp [hy, hys]⟩

/-- A partial mapping whose images are known. -/
theorem mapM_eq_some_map {β γ : Type} {f : β → Option γ} {g : β → γ} {l : List β}
    (h : ∀ x ∈ l, f x = some (g x)) : l.mapM f = some (l.map g) := by
  induction l with
  | nil => rfl
  | cons x l ih =>
    rw [List.mapM_cons, h x (by simp), ih fun y hy => h y (by simp [hy])]
    rfl

namespace Checked

variable {β γ : Type}

/-- Two runs that fail alike, or both succeed, with related results. -/
inductive Alike (R : β → γ → Prop) : Checked β → Checked γ → Prop
  | ok {b : β} {c : γ} (h : R b c) : Alike R (.ok b) (.ok c)
  | error (e : Failure) : Alike R (.error e) (.error e)

@[simp] theorem pure_eq_ok (b : β) : (pure b : Checked β) = .ok b := rfl

theorem exists_of_isOk {x : Checked β} (h : x.isOk = true) : ∃ b, x = .ok b := by
  cases x with
  | ok b => exact ⟨b, rfl⟩
  | error e => cases h

@[simp] theorem ok_bind (b : β) (f : β → Checked γ) : ((.ok b : Checked β) >>= f) = f b := rfl

@[simp] theorem error_bind (e : Failure) (f : β → Checked γ) :
    ((.error e : Checked β) >>= f) = .error e := rfl

theorem bind_eq_ok {x : Checked β} {f : β → Checked γ} {c : γ} (h : x >>= f = .ok c) :
    ∃ b, x = .ok b ∧ f b = .ok c := by
  cases x with
  | error e => cases h
  | ok b => exact ⟨b, rfl, h⟩

theorem Alike.bind {δ ε : Type} {R : β → γ → Prop} {S : δ → ε → Prop} {x : Checked β}
    {y : Checked γ} {f : β → Checked δ} {g : γ → Checked ε} (h : Alike R x y)
    (hf : ∀ b c, R b c → Alike S (f b) (g c)) : Alike S (x >>= f) (y >>= g) := by
  cases h with
  | ok h => exact hf _ _ h
  | error e => exact .error e

theorem Alike.of_ok {R : β → γ → Prop} {b : β} {y : Checked γ} (h : Alike R (.ok b) y) :
    ∃ c, y = .ok c ∧ R b c := by
  cases h with
  | ok h => exact ⟨_, rfl, h⟩

theorem Alike.mono {R S : β → γ → Prop} {x : Checked β} {y : Checked γ} (h : Alike R x y)
    (hS : ∀ b c, R b c → S b c) : Alike S x y := by
  cases h with
  | ok h => exact .ok (hS _ _ h)
  | error e => exact .error e

/-- Two runs that are alike go on alike. -/
theorem Alike.bind_eq {δ : Type} {R : β → γ → Prop} {x : Checked β} {y : Checked γ}
    {f : β → Checked δ} {g : γ → Checked δ} (h : Alike R x y) (hf : ∀ b c, R b c → g c = f b) :
    y >>= g = x >>= f := by
  cases h with
  | ok h => exact hf _ _ h
  | error e => rfl

theorem Alike.refl {R : β → β → Prop} (hR : ∀ b, R b b) : (x : Checked β) → Alike R x x
  | .ok b => .ok (hR b)
  | .error e => .error e

theorem Alike.eq {x y : Checked β} (h : Alike Eq x y) : x = y := by
  cases h with
  | ok h => rw [h]
  | error e => rfl

/-- Runs that go on alike after the same run. -/
theorem alike_bind {δ ε : Type} {R : δ → ε → Prop} (x : Checked β) {f : β → Checked δ}
    {g : β → Checked ε} (h : ∀ b, Alike R (f b) (g b)) : Alike R (x >>= f) (x >>= g) :=
  (Alike.refl (R := Eq) (fun _ => rfl) x).bind fun b _ hb => hb ▸ h b

/-- Folds over related lists whose steps are alike. -/
theorem Alike.foldlM {δ ε : Type} {R : δ → ε → Prop} {T : β → γ → Prop} {f : δ → β → Checked δ}
    {g : ε → γ → Checked ε} {xs : List β} {ys : List γ} (hxs : List.Forall₂ T xs ys)
    (h : ∀ d e x y, R d e → T x y → Alike R (f d x) (g e y)) {d : δ} {e : ε} (hd : R d e) :
    Alike R (xs.foldlM f d) (ys.foldlM g e) := by
  induction hxs generalizing d e with
  | nil => exact .ok hd
  | cons hxy _ ih =>
    rw [List.foldlM_cons, List.foldlM_cons]
    exact (h _ _ _ _ hd hxy).bind fun _ _ hnext => ih hnext

theorem bind_map {δ : Type} (x : Checked β) (f : β → Checked γ) (g : γ → δ) :
    (x >>= f).map g = x >>= fun b => (f b).map g := by
  cases x <;> rfl

theorem map_bind {δ : Type} (x : Checked β) (f : β → γ) (g : γ → Checked δ) :
    x.map f >>= g = x >>= fun b => g (f b) := by
  cases x <;> rfl

/-- Runs with the same image are alike in what the image is of. -/
theorem alike_of_map {x y : Checked β} {f : β → γ} (h : x.map f = y.map f) :
    Alike (fun b c => f b = f c) x y := by
  cases x with
  | error e =>
    cases y with
    | error e' =>
      obtain rfl : e = e' := Except.error.inj h
      exact .error e
    | ok c => cases h
  | ok b =>
    cases y with
    | error e' => cases h
    | ok c => exact .ok (Except.ok.inj h)

/-- A bind succeeds where both parts do. -/
theorem exists_bind {x : Checked β} {f : β → Checked γ} {P : β → Prop} {Q : γ → Prop}
    (h : ∃ b, x = .ok b ∧ P b) (hf : ∀ b, P b → ∃ c, f b = .ok c ∧ Q c) :
    ∃ c, x >>= f = .ok c ∧ Q c := by
  obtain ⟨b, rfl, hb⟩ := h
  exact hf b hb

/-- A mapping that succeeds has an image for each entry. -/
theorem forall₂_of_mapM {f : β → Checked γ} {l : List β} {ys : List γ} (h : l.mapM f = .ok ys) :
    List.Forall₂ (fun x y => f x = .ok y) l ys := by
  induction l generalizing ys with
  | nil =>
    cases h
    exact .nil
  | cons x l ih =>
    rw [List.mapM_cons] at h
    obtain ⟨y, hy, h⟩ := bind_eq_ok h
    obtain ⟨ys', hys, h⟩ := bind_eq_ok h
    cases h
    exact .cons hy (ih hys)

/-- Mapping succeeds where each image does, and what is known of the images holds of the list. -/
theorem mapM_forall₂ {f : β → Checked γ} {P : β → γ → Prop} {l : List β}
    (h : ∀ x ∈ l, ∃ y, f x = .ok y ∧ P x y) :
    ∃ ys, l.mapM f = .ok ys ∧ List.Forall₂ P l ys := by
  induction l with
  | nil => exact ⟨[], rfl, .nil⟩
  | cons x l ih =>
    obtain ⟨y, hy, hP⟩ := h x (by simp)
    obtain ⟨ys, hys, hPs⟩ := ih fun z hz => h z (by simp [hz])
    refine ⟨y :: ys, ?_, .cons hP hPs⟩
    rw [List.mapM_cons, hy, ok_bind, hys]
    rfl

theorem mapM_of_forall₂ {f : β → Checked γ} {l : List β} {ys : List γ}
    (h : List.Forall₂ (fun x y => f x = .ok y) l ys) : l.mapM f = .ok ys := by
  induction h with
  | nil => rfl
  | cons hx _ ih => rw [List.mapM_cons, hx, ok_bind, ih, ok_bind, pure_eq_ok]

theorem mapM_congr {f g : β → Checked γ} {l : List β} (h : ∀ x ∈ l, f x = g x) :
    l.mapM f = l.mapM g := by
  induction l with
  | nil => rfl
  | cons x l ih =>
    rw [List.mapM_cons, List.mapM_cons, h x (by simp), ih fun y hy => h y (by simp [hy])]

/-- What each step of a fold keeps, the fold keeps. -/
theorem foldlM_keeps {δ : Type} (view : β → δ) {f : β → γ → Checked β}
    (h : ∀ x b c, f b x = .ok c → view c = view b) {xs : List γ} {b c : β}
    (hfold : xs.foldlM f b = .ok c) : view c = view b := by
  induction xs generalizing b with
  | nil =>
    cases hfold
    rfl
  | cons x xs ih =>
    obtain ⟨next, hnext, hfold⟩ := bind_eq_ok hfold
    exact (ih hfold).trans (h x b next hnext)

theorem foldlM_congr {f g : β → γ → Checked β} {xs : List γ} (h : ∀ x ∈ xs, ∀ b, f b x = g b x)
    (b : β) : xs.foldlM f b = xs.foldlM g b := by
  induction xs generalizing b with
  | nil => rfl
  | cons x xs ih =>
    rw [List.foldlM_cons, List.foldlM_cons, h x (by simp)]
    exact bind_congr fun next => ih (fun y hy => h y (by simp [hy])) next

/-- What each step of a fold over a list preserves holds of its result. -/
theorem foldlM_preserves_of_mem {P : β → Prop} {f : β → γ → Checked β} {xs : List γ} {b c : β}
    (h : ∀ x ∈ xs, ∀ b c, f b x = .ok c → P b → P c) (hfold : xs.foldlM f b = .ok c) (hb : P b) :
    P c := by
  induction xs generalizing b with
  | nil =>
    cases hfold
    exact hb
  | cons x xs ih =>
    obtain ⟨next, hnext, hfold⟩ := bind_eq_ok hfold
    exact ih (fun y hy => h y (by simp [hy])) hfold (h x (by simp) b next hnext hb)

theorem foldlM_preserves {P : β → Prop} {f : β → γ → Checked β}
    (h : ∀ x b c, f b x = .ok c → P b → P c) {xs : List γ} {b c : β}
    (hfold : xs.foldlM f b = .ok c) (hb : P b) : P c :=
  foldlM_preserves_of_mem (fun x _ => h x) hfold hb

/-- A fold that adds up is the sum of the images. -/
theorem foldlM_add {β : Type} [AddMonoid β] {F : γ → Checked β} {f : β → γ → Checked β}
    (hf : ∀ b x, f b x = F x >>= fun c => .ok (b + c)) (xs : List γ) (b : β) :
    xs.foldlM f b = xs.mapM F >>= fun cs => .ok (b + cs.sum) := by
  induction xs generalizing b with
  | nil => exact congrArg Except.ok (add_zero b).symm
  | cons x xs ih =>
    rw [List.foldlM_cons, List.mapM_cons, hf]
    cases F x with
    | error e => rfl
    | ok c =>
      rw [ok_bind, ok_bind, ok_bind, ih]
      cases xs.mapM F with
      | error e => rfl
      | ok cs =>
        show Except.ok (b + c + cs.sum) = Except.ok (b + (c :: cs).sum)
        rw [List.sum_cons, add_assoc]

/-- In a fold that succeeds each step has succeeded. -/
theorem foldlM_steps {f : β → γ → Checked β} {xs : List γ} {b c : β}
    (hfold : xs.foldlM f b = .ok c) : ∀ x ∈ xs, ∃ b' c', f b' x = .ok c' := by
  induction xs generalizing b with
  | nil => simp
  | cons x xs ih =>
    rw [List.foldlM_cons] at hfold
    obtain ⟨next, hnext, hfold⟩ := bind_eq_ok hfold
    exact List.forall_mem_cons.2 ⟨⟨b, next, hnext⟩, ih hfold⟩

/-- A fold succeeds if each step keeps a property of the part of the list that is done. -/
theorem foldlM_induct {P : List γ → β → Prop} {f : β → γ → Checked β} {b : β}
    (start : P [] b) (xs : List γ)
    (next : ∀ done x b, x ∈ xs → P done b → ∃ c, f b x = .ok c ∧ P (done ++ [x]) c) :
    ∃ c, xs.foldlM f b = .ok c ∧ P xs c := by
  have go : ∀ rest done b, (∀ x ∈ rest, x ∈ xs) → P done b →
      ∃ c, rest.foldlM f b = .ok c ∧ P (done ++ rest) c := by
    intro rest
    induction rest with
    | nil =>
      intro done b _ hb
      exact ⟨b, rfl, by simpa using hb⟩
    | cons x rest ih =>
      intro done b hmem hb
      obtain ⟨c, hc, hP⟩ := next done x b (hmem x (by simp)) hb
      obtain ⟨d, hd, hP'⟩ := ih (done ++ [x]) c (fun y hy => hmem y (by simp [hy])) hP
      refine ⟨d, ?_, by simpa using hP'⟩
      rw [List.foldlM_cons, hc, ok_bind, hd]
  exact go xs [] b (fun _ hx => hx) start

/-- A fold over a list succeeds if each step keeps a property of the part that is done, told of a
second list in step with the first. -/
theorem foldlM_forall₂ {δ : Type} {R : δ → γ → Prop} {P : List δ → β → Prop}
    {f : β → γ → Checked β} {ts : List δ} {xs : List γ} {b : β} (related : List.Forall₂ R ts xs)
    (start : P [] b)
    (next : ∀ done t x b, R t x → P done b → ∃ c, f b x = .ok c ∧ P (done ++ [t]) c) :
    ∃ c, xs.foldlM f b = .ok c ∧ P ts c := by
  have go : ∀ {rest xs}, List.Forall₂ R rest xs → ∀ done b, P done b →
      ∃ c, xs.foldlM f b = .ok c ∧ P (done ++ rest) c := by
    intro rest xs h
    induction h with
    | nil =>
      intro done b hb
      exact ⟨b, rfl, by simpa using hb⟩
    | cons hR _ ih =>
      rename_i t x rest xs _
      intro done b hb
      obtain ⟨c, hc, hP⟩ := next done t x b hR hb
      obtain ⟨d, hd, hP'⟩ := ih (done ++ [t]) c hP
      refine ⟨d, ?_, by simpa using hP'⟩
      rw [List.foldlM_cons, hc, ok_bind, hd]
  exact go related [] b start

/-! ## Failing -/

/-- The run gives no result. -/
def Fails (x : Checked β) : Prop := ∃ e, x = .error e

theorem Fails.bind {x : Checked β} (h : x.Fails) (f : β → Checked γ) : Fails (x >>= f) := by
  obtain ⟨e, rfl⟩ := h
  exact ⟨e, rfl⟩

theorem fails_bind {x : Checked β} {f : β → Checked γ} (h : ∀ b, x = .ok b → Fails (f b)) :
    Fails (x >>= f) := by
  cases x with
  | error e => exact ⟨e, rfl⟩
  | ok b => exact h b rfl

theorem fails_mapM {f : β → Checked γ} {l : List β} {x : β} (hx : x ∈ l) (h : Fails (f x)) :
    Fails (l.mapM f) := by
  induction l with
  | nil => cases hx
  | cons y l ih =>
    rw [List.mapM_cons]
    rcases List.mem_cons.1 hx with rfl | hx
    · exact h.bind _
    · exact fails_bind fun _ _ => (ih hx).bind _

theorem fails_foldlM {f : β → γ → Checked β} {l : List γ} {x : γ} (hx : x ∈ l)
    (h : ∀ b, Fails (f b x)) (b : β) : Fails (l.foldlM f b) := by
  induction l generalizing b with
  | nil => cases hx
  | cons y l ih =>
    rw [List.foldlM_cons]
    rcases List.mem_cons.1 hx with rfl | hx
    · exact (h b).bind _
    · exact fails_bind fun next _ => ih hx next

end Checked

@[simp] theorem fitting_some {β : Type} (b : β) : fitting (some b) = .ok b := rfl

theorem fitting_eq_ok {β : Type} {x : Option β} {b : β} (h : fitting x = .ok b) : x = some b := by
  cases x with
  | none => cases h
  | some b' =>
    cases h
    rfl

theorem fitting_map {β γ : Type} (x : Option β) (f : β → γ) :
    fitting (x.map f) = (fitting x).map f := by
  cases x <;> rfl

@[simp] theorem require_true (rule : Rule) : require rule true = .ok () := rfl

end LeastSquares
