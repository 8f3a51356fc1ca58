import LeastSquares.Proofs.Buffer.Table

/-!
# Sums that may fail

A run that comes to an element of a monoid has an amount: what it comes to, or `⊤` if it fails. Runs that
are added up one after another come to the sum of their amounts, so neither their order nor the groups in
which they are taken matter. Entries of a table that belong to the groups of a list add up to a sum over
that list.
-/

namespace LeastSquares

namespace Checked

variable {β γ M : Type}

/-- What a run comes to; `⊤` if it fails. -/
def amount : Checked M → WithTop M
  | .ok a => a
  | .error _ => ⊤

@[simp] theorem amount_ok (a : M) : amount (.ok a) = a := rfl

@[simp] theorem amount_error (e : Failure) : amount (.error e : Checked M) = ⊤ := rfl

theorem amount_eq_coe {x : Checked M} {a : M} : x.amount = a ↔ x = .ok a := by
  cases x with
  | ok b => simp [Except.ok.injEq]
  | error e => simp

/-- Both runs fail, or both succeed, with related results. -/
def Matches (R : β → γ → Prop) : Checked β → Checked γ → Prop
  | .ok b, .ok c => R b c
  | .error _, .error _ => True
  | _, _ => False

theorem matches_eq_iff {x y : Checked M} : Matches Eq x y ↔ x.amount = y.amount := by
  cases x <;> cases y <;> simp [Matches]

theorem Matches.mono {R S : β → γ → Prop} {x : Checked β} {y : Checked γ} (h : Matches R x y)
    (hS : ∀ b c, x = .ok b → y = .ok c → R b c → S b c) : Matches S x y := by
  cases x with
  | ok b =>
    cases y with
    | ok c => exact hS b c rfl rfl h
    | error e => exact h
  | error e =>
    cases y with
    | ok c => exact h
    | error e => trivial

/-- Runs match if each succeeds where the other does, and their results are related. -/
theorem matches_of_iff {R : β → γ → Prop} {x : Checked β} {y : Checked γ}
    (hsucceeds : (∃ b, x = .ok b) ↔ ∃ c, y = .ok c) (hR : ∀ b c, x = .ok b → y = .ok c → R b c) :
    Matches R x y := by
  cases x with
  | ok b =>
    cases y with
    | ok c => exact hR b c rfl rfl
    | error e =>
      obtain ⟨c, hc⟩ := hsucceeds.1 ⟨b, rfl⟩
      cases hc
  | error e =>
    cases y with
    | ok c =>
      obtain ⟨b, hb⟩ := hsucceeds.2 ⟨c, rfl⟩
      cases hb
    | error e => trivial

theorem Matches.cases {R : β → γ → Prop} {x : Checked β} {y : Checked γ} (h : Matches R x y) :
    (∃ b c, x = .ok b ∧ y = .ok c ∧ R b c) ∨ x.Fails ∧ y.Fails := by
  cases x with
  | ok b =>
    cases y with
    | ok c => exact .inl ⟨b, c, rfl, rfl, h⟩
    | error e => cases h
  | error e =>
    cases y with
    | ok c => cases h
    | error e' => exact .inr ⟨⟨e, rfl⟩, e', rfl⟩

theorem matches_of_fails {R : β → γ → Prop} {x : Checked β} {y : Checked γ} (hx : x.Fails) (hy : y.Fails) :
    Matches R x y := by
  obtain ⟨e, rfl⟩ := hx
  obtain ⟨e', rfl⟩ := hy
  trivial

/-- Runs that match go on to runs that match. -/
theorem Matches.bind {δ ε : Type} {R : β → γ → Prop} {S : δ → ε → Prop} {x : Checked β} {y : Checked γ}
    {f : β → Checked δ} {g : γ → Checked ε} (h : Matches R x y)
    (hf : ∀ b c, x = .ok b → y = .ok c → R b c → Matches S (f b) (g c)) : Matches S (x >>= f) (y >>= g) := by
  obtain ⟨b, c, rfl, rfl, hR⟩ | ⟨hx, hy⟩ := h.cases
  · exact hf b c rfl rfl hR
  · exact matches_of_fails (hx.bind f) (hy.bind g)

theorem Matches.symm {R : β → γ → Prop} {x : Checked β} {y : Checked γ} (h : Matches R x y) :
    Matches (fun c b => R b c) y x := by
  obtain ⟨b, c, rfl, rfl, hR⟩ | ⟨hx, hy⟩ := h.cases
  · exact hR
  · exact matches_of_fails hy hx

theorem Matches.trans {δ : Type} {R : β → γ → Prop} {S : γ → δ → Prop} {x : Checked β} {y : Checked γ}
    {z : Checked δ} (h : Matches R x y) (h' : Matches S y z) : Matches (fun b d => ∃ c, R b c ∧ S c d) x z := by
  obtain ⟨b, c, rfl, rfl, hR⟩ | ⟨hx, e, rfl⟩ := h.cases
  · obtain ⟨c, d, hc, rfl, hS⟩ | ⟨⟨e, hy⟩, -⟩ := h'.cases
    · cases hc
      exact ⟨_, hR, hS⟩
    · cases hy
  · obtain ⟨c, d, hc, -⟩ | ⟨-, hz⟩ := h'.cases
    · cases hc
    · exact matches_of_fails hx hz

variable [AddCommMonoid M]

/-- A fold that adds up comes to the sum of the amounts. -/
theorem amount_foldlM {F : γ → Checked M} {f : M → γ → Checked M}
    (hf : ∀ b x, f b x = F x >>= fun c => .ok (b + c)) (xs : List γ) (b : M) :
    (xs.foldlM f b).amount = b + (xs.map fun x => (F x).amount).sum := by
  induction xs generalizing b with
  | nil => exact (add_zero (b : WithTop M)).symm
  | cons x xs ih =>
    rw [List.foldlM_cons, hf, List.map_cons, List.sum_cons, ← add_assoc]
    cases F x with
    | error e => simp
    | ok c =>
      rw [ok_bind, ok_bind, ih, amount_ok, WithTop.coe_add]

/-- Runs one after another, whose results are weighed and added up. -/
theorem amount_mapM (F : γ → Checked β) (weight : β → M) (xs : List γ) :
    amount ((xs.mapM F).map fun ys => (ys.map weight).sum) =
      (xs.map fun x => amount ((F x).map weight)).sum := by
  induction xs with
  | nil => rfl
  | cons x xs ih =>
    rw [List.mapM_cons, List.map_cons, List.sum_cons, ← ih]
    cases F x with
    | error e => exact (WithTop.top_add _).symm
    | ok y =>
      cases xs.mapM F with
      | error e => exact (WithTop.add_top _).symm
      | ok ys => exact WithTop.coe_add _ _

/-- Runs that succeed come to the sum of their results. -/
theorem sum_amount {F : γ → Checked M} {xs : List γ} {ys : List M} (h : xs.mapM F = .ok ys) :
    (xs.map fun x => amount (F x)).sum = (ys.sum : M) := by
  have hid : ∀ x, (F x).map id = F x := fun x => by cases F x <;> rfl
  have hamount := amount_mapM F id xs
  rw [h, List.map_congr_left fun x _ => congrArg amount (hid x)] at hamount
  rw [← hamount]
  exact congrArg (fun l : List M => ((l.sum : M) : WithTop M)) (List.map_id ys)

end Checked

/-! ## Groups -/

/-- What is added up group by group is added up once. -/
theorem sum_groups {β K M : Type} [DecidableEq K] [AddCommMonoid M] (key : β → K) (weight : β → M)
    {keys : List K} (hkeys : keys.Nodup) (l : List β) :
    (keys.map fun k => ((l.filter fun b => key b = k).map weight).sum).sum =
      ((l.filter fun b => key b ∈ keys).map weight).sum := by
  induction l with
  | nil => simp
  | cons b l ih =>
    have hsplit : ∀ k, (((b :: l).filter fun b => key b = k).map weight).sum =
        (if key b = k then weight b else 0) + ((l.filter fun b => key b = k).map weight).sum := by
      intro k
      by_cases hk : key b = k <;> simp [hk]
    have hown : (keys.map fun k => if key b = k then weight b else 0).sum =
        if key b ∈ keys then weight b else 0 := by
      rw [← List.sum_toFinset _ hkeys, Finset.sum_ite_eq]
      simp
    simp only [hsplit, List.sum_map_add, ih, hown]
    by_cases hb : key b ∈ keys <;> simp [hb]

namespace Table

variable {β K V M : Type} [DecidableEq K] [AddCommMonoid M]

/-- Entries that hold the groups of a list add up to a sum over the list. -/
theorem sum_entries_filter {t : Table K V} {l : List β} {key : β → K} (P : K → Prop) [DecidablePred P]
    (hkeys : ∀ b ∈ l, P (key b) → key b ∈ t.keys) {w : K × V → M} {weight : β → M}
    (hw : ∀ e ∈ t.entries, P e.1 → w e = ((l.filter fun b => key b = e.1).map weight).sum) :
    ((t.entries.filter fun e => P e.1).map w).sum =
      ((l.filter fun b => P (key b)).map weight).sum := by
  have hdistinct : (((t.entries.filter fun e => P e.1)).map Prod.fst).Nodup :=
    t.distinct.sublist ((List.filter_sublist).map Prod.fst)
  have hentries : (t.entries.filter fun e => P e.1).map w =
      ((t.entries.filter fun e => P e.1).map Prod.fst).map fun k =>
        ((l.filter fun b => key b = k).map weight).sum := by
    rw [List.map_map]
    refine List.map_congr_left fun e he => ?_
    obtain ⟨hmem, hP⟩ := List.mem_filter.1 he
    exact hw e hmem (of_decide_eq_true hP)
  rw [hentries, sum_groups key weight hdistinct]
  refine congrArg (fun l => (List.map weight l).sum) (List.filter_congr fun b hb => ?_)
  rw [decide_eq_decide, List.mem_map]
  constructor
  · rintro ⟨e, he, hkey⟩
    rw [← hkey]
    exact of_decide_eq_true (List.mem_filter.1 he).2
  · intro hP
    obtain ⟨e, he, hkey⟩ := List.mem_map.1 (hkeys b hb hP)
    exact ⟨e, List.mem_filter.2 ⟨he, by rwa [hkey, decide_eq_true_iff]⟩, hkey⟩

/-- Entries under keys that both tables treat alike, in any order, add up to the same. -/
theorem sum_entries_eq {t t' : Table K V} (P : K → Prop) [DecidablePred P]
    (hother : ∀ k, ¬ P k → t.get? k = t'.get? k) {w w' : K × V → M}
    (hw : ∀ e ∈ t.entries, ¬ P e.1 → w e = w' e)
    (hsame : ((t.entries.filter fun e => P e.1).map w).sum =
      ((t'.entries.filter fun e => P e.1).map w').sum) :
    (t.entries.map w).sum = (t'.entries.map w').sum := by
  have hnodup : ∀ t : Table K V, (t.entries.filter fun e => ¬ P e.1).Nodup := fun t =>
    (List.Nodup.of_map Prod.fst t.distinct).filter _
  have hmem : ∀ e, e ∈ (t.entries.filter fun e => ¬ P e.1) ↔
      e ∈ (t'.entries.filter fun e => ¬ P e.1) := by
    intro e
    simp only [List.mem_filter, decide_eq_true_iff]
    refine and_congr_left fun hP => ?_
    rw [← get?_eq_some_iff, ← get?_eq_some_iff, hother e.1 hP]
  have hperm : (t.entries.filter fun e => ¬ P e.1).Perm (t'.entries.filter fun e => ¬ P e.1) :=
    (List.perm_ext_iff_of_nodup (hnodup t) (hnodup t')).2 hmem
  have hrest : ((t.entries.filter fun e => ¬ P e.1).map w).sum =
      ((t'.entries.filter fun e => ¬ P e.1).map w').sum := by
    refine Eq.trans (congrArg List.sum (List.map_congr_left fun e he => ?_)) (hperm.map w').sum_eq
    obtain ⟨hmem, hP⟩ := List.mem_filter.1 he
    exact hw e hmem (of_decide_eq_true hP)
  have hparts : ∀ (l : List (K × V)) (w : K × V → M), (l.map w).sum =
      ((l.filter fun e => P e.1).map w).sum + ((l.filter fun e => ¬ P e.1).map w).sum := by
    intro l w
    induction l with
    | nil => simp
    | cons e l ih =>
      by_cases hP : P e.1
      · simp [hP, ih, add_assoc]
      · simp [hP, ih, add_left_comm]
  rw [hparts, hparts t'.entries, hsame, hrest]

/-- Two tables have the same keys, and under each of them related values. -/
structure Tied {V' : Type} (R : K → V → V' → Prop) (t : Table K V) (t' : Table K V') : Prop where
  keys : ∀ key, key ∈ t.keys ↔ key ∈ t'.keys
  get : ∀ key v v', t.get? key = some v → t'.get? key = some v' → R key v v'

section Tied

variable {V' W W' : Type} {t : Table K V} {t' : Table K V'} {R : K → V → V' → Prop} {S : K → W → W' → Prop}

omit [AddCommMonoid M] in
theorem Tied.symm (h : Tied R t t') : Tied (fun key v' v => R key v v') t' t :=
  ⟨fun key => (h.keys key).symm, fun key v' v hv' hv => h.get key v v' hv hv'⟩

omit [AddCommMonoid M] in
theorem Tied.exists_filterMapM (h : Tied R t t') {f : K → V → Checked (Option W)}
    {g : K → V' → Checked (Option W')}
    (hstep : ∀ key v v', t.get? key = some v → t'.get? key = some v' → (∃ o, f key v = .ok o) → ∃ o, g key v' = .ok o)
    {u : Table K W} (hu : t.filterMapM f = .ok u) : ∃ u', t'.filterMapM g = .ok u' := by
  refine Table.exists_filterMapM fun e he => ?_
  have hv' := get?_eq_some_iff.2 he
  obtain ⟨v, hv⟩ := mem_keys_iff.1 ((h.keys e.1).2 (mem_keys_iff.2 ⟨_, hv'⟩))
  exact hstep e.1 v e.2 hv hv' ⟨_, get?_filterMapM hu hv⟩

omit [AddCommMonoid M] in
/-- Mappings over such tables match, if they do under each key. -/
theorem Tied.matches_filterMapM (h : Tied R t t') {f : K → V → Checked (Option W)}
    {g : K → V' → Checked (Option W')}
    (hstep : ∀ key v v', t.get? key = some v → t'.get? key = some v' →
      Checked.Matches (Option.Rel (S key)) (f key v) (g key v')) :
    Checked.Matches (Tied S) (t.filterMapM f) (t'.filterMapM g) := by
  refine Checked.matches_of_iff ⟨fun ⟨u, hu⟩ => ?_, fun ⟨u', hu'⟩ => ?_⟩ fun u u' hu hu' => ?_
  · refine h.exists_filterMapM (fun key v v' hv hv' ho => ?_) hu
    obtain ⟨_, o, -, ho', -⟩ | ⟨⟨_, hfails⟩, -⟩ := (hstep key v v' hv hv').cases
    · exact ⟨o, ho'⟩
    · obtain ⟨_, ho⟩ := ho
      cases ho.symm.trans hfails
  · refine h.symm.exists_filterMapM (fun key v' v hv' hv ho => ?_) hu'
    obtain ⟨o, _, ho', -⟩ | ⟨-, _, hfails⟩ := (hstep key v v' hv hv').cases
    · exact ⟨o, ho'⟩
    · obtain ⟨_, ho⟩ := ho
      cases ho.symm.trans hfails
  have hrel : ∀ key, Option.Rel (S key) (u.get? key) (u'.get? key) := by
    intro key
    cases hv : t.get? key with
    | none =>
      have hv' : t'.get? key = none :=
        get?_eq_none_iff.2 fun hmem => get?_eq_none_iff.1 hv ((h.keys key).2 hmem)
      rw [get?_filterMapM_none hu hv, get?_filterMapM_none hu' hv']
      exact .none
    | some v =>
      obtain ⟨v', hv'⟩ := mem_keys_iff.1 ((h.keys key).1 (mem_keys_iff.2 ⟨v, hv⟩))
      have hmatches := hstep key v v' hv hv'
      rwa [get?_filterMapM hu hv, get?_filterMapM hu' hv'] at hmatches
  refine ⟨fun key => ?_, fun key w w' hw hw' => ?_⟩
  · have hR := hrel key
    rw [mem_keys_iff, mem_keys_iff]
    generalize u.get? key = o, u'.get? key = o' at hR ⊢
    cases hR <;> simp
  · have hR := hrel key
    rw [hw, hw'] at hR
    cases hR with
    | some hS => exact hS

omit [AddCommMonoid M] in
theorem Tied.matches_mapM (h : Tied R t t') {f : K → V → Checked W} {g : K → V' → Checked W'}
    (hstep : ∀ key v v', t.get? key = some v → t'.get? key = some v' →
      Checked.Matches (S key) (f key v) (g key v')) :
    Checked.Matches (Tied S) (t.mapM f) (t'.mapM g) :=
  h.matches_filterMapM fun key v v' hv hv' => (hstep key v v' hv hv').bind fun _ _ _ _ hS => .some hS

end Tied

end Table

end LeastSquares
