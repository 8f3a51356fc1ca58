import LeastSquares.Proofs.Script.Sparing

/-!
# What a step does to the objects

A step may give new objects and names. Of the objects that are there it changes at most one, the object
that its command is on, as the command says.
-/

namespace LeastSquares

variable {C α β γ : Type}

theorem Session.seen_of_refers {σ : Session C α} {name : String} {id : Nat} {o : Object C α}
    (hid : σ.refers name = some id) (ho : σ.objects[id]? = some o) : σ.seen name = some o := by
  rw [seen, hid]
  exact ho

namespace Machine

/-! ## What a step reads -/

section Reading

variable {σ τ : Session C α} {f : β → Machine C α γ}

theorem reference_ok {name : String} {id : Nat} (h : σ.refers name = some id) :
    reference name σ = .ok id σ := by
  obtain ⟨entry, hfind, rfl⟩ := Option.map_eq_some_iff.1 h
  rw [reference, Edit.get_bind, hfind]
  rfl

theorem object_ok {id : Nat} {o : Object C α} (h : σ.objects[id]? = some o) :
    object id σ = .ok o σ := by
  rw [object, Edit.get_bind, h]
  rfl

theorem named_ok {name : String} {o : Object C α} (h : σ.seen name = some o) :
    named name σ = .ok o σ := by
  obtain ⟨id, hid, ho⟩ := Option.bind_eq_some_iff.1 h
  rw [named, Edit.bind_ok (reference_ok hid), object_ok ho]

theorem left_reference (name : String) (f : Nat → Machine C α γ) :
    Edit.left (reference name >>= f) σ = (σ.refers name).elim σ fun id => Edit.left (f id) σ := by
  cases h : σ.refers name with
  | none =>
    refine Edit.left_bind_error (e := .missingName) ?_
    rw [reference, Edit.get_bind, Option.map_eq_none_iff.1 h]
    rfl
  | some id => exact Edit.left_bind_ok (reference_ok h)

theorem left_object (id : Nat) (f : Object C α → Machine C α γ) :
    Edit.left (object id >>= f) σ = (σ.objects[id]?).elim σ fun o => Edit.left (f o) σ := by
  cases h : σ.objects[id]? with
  | none =>
    refine Edit.left_bind_error (e := .missingName) ?_
    rw [object, Edit.get_bind, h]
    rfl
  | some o => exact Edit.left_bind_ok (object_ok h)

theorem left_named (name : String) (f : Object C α → Machine C α γ) :
    Edit.left (named name >>= f) σ = (σ.seen name).elim σ fun o => Edit.left (f o) σ := by
  rw [named, bind_assoc, left_reference, Session.seen]
  cases σ.refers name with
  | none => rfl
  | some id => exact left_object id f

theorem left_checked (x : Checked β) (f : β → Machine C α γ) :
    Edit.left (checked x >>= f) σ = x.toOption.elim σ fun b => Edit.left (f b) σ := by
  cases x <;> rfl

theorem left_buffersOf (o : Object C α) (f : Buffers C α → Machine C α γ) :
    Edit.left (buffersOf o >>= f) σ = o.buffers?.elim σ fun t => Edit.left (f t) σ := by
  cases o <;> rfl

theorem left_buffersSeen (name : String) (f : Buffers C α → Machine C α γ) :
    Edit.left (named name >>= fun o => buffersOf o >>= f) σ =
      (σ.buffersSeen name).elim σ fun t => Edit.left (f t) σ := by
  simp only [left_named, left_buffersOf, Session.buffersSeen]
  cases σ.seen name <;> rfl

theorem left_bufferOf (o : Object C α) (f : Buffer C α → Machine C α γ) :
    Edit.left (bufferOf o >>= f) σ = o.buffer?.elim σ fun b => Edit.left (f b) σ := by
  cases o <;> rfl

theorem left_vectorsOf (o : Object C α) (f : Vectors C α → Machine C α γ) :
    Edit.left (vectorsOf o >>= f) σ = o.vectors?.elim σ fun v => Edit.left (f v) σ := by
  cases o <;> rfl

theorem left_storeOf (o : Object C α) (f : Store C α → Machine C α γ) :
    Edit.left (storeOf o >>= f) σ = o.store?.elim σ fun s => Edit.left (f s) σ := by
  cases o <;> rfl

theorem left_graphOf (o : Object C α) (f : FactorGraph C α → Machine C α γ) :
    Edit.left (graphOf o >>= f) σ = o.graph?.elim σ fun g => Edit.left (f g) σ := by
  cases o <;> rfl

theorem left_linearOf (o : Object C α) (f : LinearGraph C α × Nat → Machine C α γ) :
    Edit.left (linearOf o >>= f) σ = (σ.linear? o).elim σ fun g => Edit.left (f g) σ := by
  cases o with
  | linear buffers template =>
    simp only [linearOf, bind_assoc, pure_bind, left_object, left_vectorsOf, Session.linear?,
      Object.linear?, Option.bind_eq_bind, Option.bind_some]
    cases σ.objects[template]? with
    | none => rfl
    | some o => cases o <;> rfl
  | _ => rfl

end Reading

end Machine

/-! ## Steps and their commands -/

namespace Object

variable {o : Object C α}

theorem eq_vectors {v : Vectors C α} (h : o.vectors? = some v) : o = .vectors v := by
  cases o <;> cases h
  rfl

theorem eq_store {s : Store C α} (h : o.store? = some s) : o = .store s := by
  cases o <;> cases h
  rfl

theorem eq_graph {g : FactorGraph C α} (h : o.graph? = some g) : o = .graph g := by
  cases o <;> cases h
  rfl

theorem mapBuffers_of_some {t : Buffers C α} (h : o.buffers? = some t)
    (change : Buffers C α → Buffers C α) : o.mapBuffers change = o.withBuffers (change t) := by
  rw [mapBuffers, h]

theorem mapBuffers_of_none (h : o.buffers? = none) (change : Buffers C α → Buffers C α) :
    o.mapBuffers change = o := by
  rw [mapBuffers, h]

theorem mapVectors_of_none (h : o.vectors? = none) (change : Vectors C α → Vectors C α) :
    o.mapVectors change = o := by
  cases o <;> first | rfl | cases h

theorem mapStore_of_none (h : o.store? = none) (change : Store C α → Store C α) :
    o.mapStore change = o := by
  cases o <;> first | rfl | cases h

theorem mapGraph_of_none (h : o.graph? = none) (change : FactorGraph C α → FactorGraph C α) :
    o.mapGraph change = o := by
  cases o <;> first | rfl | cases h

theorem same_refl (o : Object C α) : o.Same o := rfl

end Object

variable [DecidableEq C] [FactorFamily C] [Scalar α]

/-- The later session has the objects and names of the earlier, but that the target, if there is one, is
what a command makes of it. Some names may be bound anew. -/
structure Session.Stepped (bound : List String) (target : Option Nat) (command : Option (Command C α))
    (σ τ : Session C α) : Prop where
  size : σ.objects.size ≤ τ.objects.size
  names : ∀ x, x ∉ bound → τ.refers x = σ.refers x
  changed : ∀ id c o, target = some id → command = some c → σ.objects[id]? = some o →
    ∃ o', τ.objects[id]? = some o' ∧ (c.apply o).Same o'
  others : ∀ k, k < σ.objects.size → target ≠ some k ∨ command = none →
    τ.objects[k]? = σ.objects[k]?

namespace Session

variable {bound : List String} {target : Option Nat} {command : Option (Command C α)}
  {σ τ υ : Session C α} {id : Nat} {o : Object C α} {X : Type}

theorem Extends.stepped (h : σ.Extends σ.objects.size bound τ)
    (hsame : ∀ id c o, target = some id → command = some c → σ.objects[id]? = some o →
      (c.apply o).Same o) : Stepped bound target command σ τ where
  size := h.size
  names := h.names
  changed id c o ht hc ho :=
    ⟨o, (h.objects id (Array.getElem?_eq_some_iff.1 ho).1).trans ho, hsame id c o ht hc ho⟩
  others k hk _ := h.objects k hk

theorem stepped_no_target : Stepped bound none command σ σ :=
  (Extends.refl le_rfl).stepped fun _ _ _ h => nomatch h

theorem stepped_no_command : Stepped bound target none σ σ :=
  (Extends.refl le_rfl).stepped fun _ _ _ _ h => nomatch h

/-- A command that leaves its target as it is, if there is a command. -/
def Idle (o : Object C α) (command : Option (Command C α)) : Prop :=
  ∀ c, command = some c → c.apply o = o

theorem idle_none : Idle o none := fun _ h => nomatch h

theorem idle_some {c : Command C α} (h : c.apply o = o) : Idle o (some c) := by
  rintro _ ⟨rfl⟩
  exact h

theorem idle_bind {k : X → Option (Command C α)} (x : Option X) (h : ∀ y, Idle o (k y)) :
    Idle o (x.bind k) := by
  cases x with
  | none => exact idle_none
  | some y => exact h y

theorem Extends.stepped_idle (h : σ.Extends σ.objects.size bound τ) (ho : σ.objects[id]? = some o)
    (hidle : Idle o command) : Stepped bound (some id) command σ τ := by
  refine h.stepped fun id' c o' hid hc ho' => ?_
  cases hid
  obtain rfl : o = o' := Option.some.inj (ho.symm.trans ho')
  rw [hidle c hc]
  exact Object.same_refl o

theorem stepped_idle (ho : σ.objects[id]? = some o) (hidle : Idle o command) :
    Stepped bound (some id) command σ σ := (Extends.refl le_rfl).stepped_idle ho hidle

/-- A step that stops where an operand is missing, which its command needs too. -/
theorem stepped_elim {k : X → Option (Command C α)} {f : X → Session C α} (x : Option X)
    (h : ∀ y, x = some y → Stepped bound target (k y) σ (f y)) :
    Stepped bound target (x.bind k) σ (x.elim σ f) := by
  cases x with
  | none => exact stepped_no_command
  | some y => exact h y rfl

theorem Stepped.extends (h : Stepped bound target command σ τ)
    (h' : τ.Extends τ.objects.size bound υ) : Stepped bound target command σ υ where
  size := h.size.trans h'.size
  names x hx := (h'.names x hx).trans (h.names x hx)
  changed id c o ht hc ho := by
    obtain ⟨o', ho', hsame⟩ := h.changed id c o ht hc ho
    exact ⟨o', (h'.objects id (Array.getElem?_eq_some_iff.1 ho').1).trans ho', hsame⟩
  others k hk hc := (h'.objects k (hk.trans_le h.size)).trans (h.others k hk hc)

/-- A step that does something harmless first. -/
theorem Stepped.after (h : Stepped bound target command τ υ) (h' : σ.Extends σ.objects.size bound τ) :
    Stepped bound target command σ υ where
  size := h'.size.trans h.size
  names x hx := (h.names x hx).trans (h'.names x hx)
  changed id c o ht hc ho :=
    h.changed id c o ht hc ((h'.objects id (Array.getElem?_eq_some_iff.1 ho).1).trans ho)
  others k hk hc := (h.others k (hk.trans_le h'.size) hc).trans (h'.objects k hk)

end Session

namespace Machine

open Session

variable {bound : List String} {target : Option Nat} {command : Option (Command C α)}
  {σ : Session C α} {id : Nat} {c : Command C α} {o o' : Object C α}

theorem stepped_bind {m : Machine C α β} {f : β → Machine C α γ}
    (h : Stepped bound target command σ (Edit.left m σ)) (hf : ∀ b n, (f b).Spares n bound) :
    Stepped bound target command σ (Edit.left (m >>= f) σ) := by
  unfold Edit.left at h
  cases hm : m σ with
  | ok b τ =>
    rw [Edit.left_bind_ok hm]
    rw [hm] at h
    exact h.extends (hf b _ τ le_rfl)
  | error e τ =>
    rw [Edit.left_bind_error hm]
    rwa [hm] at h

theorem stepped_assign (ho : σ.objects[id]? = some o) (hsame : (c.apply o).Same o') :
    Stepped bound (some id) (some c) σ (Edit.left (assign id o') σ) := by
  obtain ⟨τ, o'', hassign, hget, hkept, hsize, hothers, hnames⟩ :=
    assign_spec id o' σ (Array.getElem?_eq_some_iff.1 ho).1
  rw [Edit.left, hassign]
  refine ⟨hsize, fun x _ => hnames x, fun id' c' o₁ hid hc ho₁ => ?_, fun k hk hne => ?_⟩
  · cases hid
    cases hc
    obtain rfl : o = o₁ := Option.some.inj (ho.symm.trans ho₁)
    exact ⟨o'', hget, hsame.trans hkept⟩
  · rcases hne with hne | hne
    · exact hothers k (fun h => hne (by rw [h])) hk
    · cases hne

theorem stepped_edit {S : Type} {wrap : S → Object C α} {s : S} {change : Edit S β}
    (ho : σ.objects[id]? = some o) (hsame : (c.apply o).Same (wrap (Edit.left change s))) :
    Stepped bound (some id) (some c) σ (Edit.left (edit id wrap s change) σ) := by
  unfold edit
  unfold Edit.left at hsame
  cases hchange : change s with
  | ok b t =>
    rw [hchange] at hsame
    exact stepped_bind (stepped_assign ho hsame) fun _ _ => (reads_pure b).spares
  | error e t =>
    rw [hchange] at hsame
    exact stepped_bind (stepped_assign ho hsame) fun _ _ => (reads_throw _).spares

/-- A step that looks up the object it works on. -/
theorem stepped_reference {name : String} {f : Nat → Object C α → Machine C α γ}
    (h : ∀ id o, σ.refers name = some id → σ.objects[id]? = some o →
      Stepped bound (some id) command σ (Edit.left (f id o) σ)) :
    Stepped bound (σ.refers name) command σ
      (Edit.left (reference name >>= fun id => object id >>= f id) σ) := by
  rw [left_reference]
  cases hid : σ.refers name with
  | none => exact stepped_no_target
  | some id =>
    show Stepped bound (some id) command σ (Edit.left (object id >>= f id) σ)
    rw [left_object]
    cases ho : σ.objects[id]? with
    | none =>
      refine (Extends.refl le_rfl).stepped fun id' c o' hid' _ ho' => ?_
      cases hid'
      rw [ho] at ho'
      cases ho'
    | some o => exact h id o hid ho

/-! ## Collections of any kind -/

theorem stepped_setBuffer (a : String) (t : VariableType) (b : String) :
    Stepped bound (σ.refers a) (Step.command? σ (.setBuffer a t b)) σ
      (Edit.left (perform (.setBuffer a t b)) σ) := by
  refine stepped_reference fun id o _ ho => ?_
  simp only [Step.command?, left_buffersOf, left_named, left_bufferOf]
  cases ht : o.buffers? with
  | none =>
    exact stepped_idle ho (idle_bind _ fun _ => idle_bind _ fun _ =>
      idle_some (Object.mapBuffers_of_none ht _))
  | some ours =>
    refine stepped_elim (σ.seen b) fun ob _ => stepped_elim ob.buffer? fun theirs _ => ?_
    refine stepped_bind (stepped_assign ho ?_) fun _ _ => (reads_present id).spares
    rw [Command.apply, Object.mapBuffers_of_some ht]
    exact Object.same_refl _

theorem stepped_restore (a b : String) :
    Stepped bound (σ.refers a) (Step.command? σ (.restore a b)) σ
      (Edit.left (perform (.restore a b)) σ) := by
  refine stepped_reference fun id o _ ho => ?_
  simp only [Step.command?, left_buffersOf, left_buffersSeen]
  cases ht : o.buffers? with
  | none => exact stepped_idle ho (idle_bind _ fun _ => idle_some (Object.mapBuffers_of_none ht _))
  | some ours =>
    refine stepped_elim (σ.buffersSeen b) fun theirs _ => ?_
    refine stepped_bind (stepped_assign ho ?_) fun _ _ => (reads_present id).spares
    rw [Command.apply, Object.mapBuffers_of_some ht]
    exact Object.same_refl _

theorem stepped_fillEmpty (a b : String) :
    Stepped bound (σ.refers a) (Step.command? σ (.fillEmpty a b)) σ
      (Edit.left (perform (.fillEmpty a b)) σ) := by
  refine stepped_reference fun id o _ ho => ?_
  simp only [Step.command?, left_buffersOf, left_buffersSeen]
  cases ht : o.buffers? with
  | none => exact stepped_idle ho (idle_bind _ fun _ => idle_some (Object.mapBuffers_of_none ht _))
  | some ours =>
    refine stepped_elim (σ.buffersSeen b) fun theirs _ => ?_
    refine stepped_bind (stepped_edit ho ?_) fun _ _ => (reads_present id).spares
    rw [Command.apply, Object.mapBuffers_of_some ht]
    exact Object.same_refl _

/-! ## Vectors -/

/-- The command that adds in place, or subtracts. -/
def accumulation (minus : Bool) (v : Vectors C α) : Command C α :=
  if minus then .decrease v else .increase v

theorem stepped_accumulate (minus : Bool) (a : String) (b : String) :
    Stepped bound (σ.refers a)
      ((σ.buffersSeen b).bind fun t => some (accumulation minus ⟨t⟩)) σ
      (Edit.left (reference a >>= fun id => accumulate minus id (.object b)) σ) := by
  refine stepped_reference fun id o _ ho => ?_
  cases hv : o.vectors? with
  | none =>
    refine Extends.stepped_idle ?_ ho (idle_bind _ fun t => idle_some ?_)
    · cases o with
      | vectors => cases hv
      | _ => exact spares_sumOf minus id _ σ le_rfl
    · cases minus <;> exact Object.mapVectors_of_none hv _
  | some v =>
    obtain rfl := Object.eq_vectors hv
    simp only [left_buffersSeen]
    refine stepped_elim (σ.buffersSeen b) fun t _ => ?_
    refine stepped_bind (stepped_edit ho ?_) fun _ _ => (reads_present id).spares
    cases minus <;> exact Object.same_refl _

theorem stepped_arithmetic (op : Arithmetic) (a : String) (b : Operand α)
    (hplain : op ≠ .increase → op ≠ .decrease →
      (perform (.arithmetic op a b : Step C α)).Spares σ.objects.size bound) :
    Stepped bound ((Step.target (C := C) (.arithmetic op a b)).bind σ.refers)
      (Step.command? σ (.arithmetic op a b)) σ (Edit.left (perform (.arithmetic op a b)) σ) := by
  have hnumber : ∀ (minus : Bool) (x : Item α), (reference a >>= fun id =>
      accumulate minus id (.number x) : Machine C α (Answer α)).Spares σ.objects.size bound := by
    intro minus x
    refine (reads_reference a).then_spares fun id => (reads_object id).then_spares fun o => ?_
    cases o <;> exact spares_sumOf minus id _
  by_cases hincrease : op = .increase
  · subst hincrease
    cases b with
    | object b => exact stepped_accumulate false a b
    | number x => exact (hnumber false x σ le_rfl).stepped fun _ _ _ _ h => nomatch h
  by_cases hdecrease : op = .decrease
  · subst hdecrease
    cases b with
    | object b => exact stepped_accumulate true a b
    | number x => exact (hnumber true x σ le_rfl).stepped fun _ _ _ _ h => nomatch h
  refine (hplain hincrease hdecrease σ le_rfl).stepped fun _ _ _ htarget => ?_
  cases op <;> first | cases htarget | contradiction

theorem stepped_scatterAdd (a : String) (h : GivenHandle α) (rows : Literal α) :
    Stepped bound (σ.refers a) (Step.command? σ (.scatterAdd a h rows)) σ
      (Edit.left (perform (.scatterAdd a h rows)) σ) := by
  refine stepped_reference fun id o _ ho => ?_
  simp only [Step.command?, left_vectorsOf, left_checked]
  cases hv : o.vectors? with
  | none =>
    exact stepped_idle ho (idle_bind _ fun _ => idle_bind _ fun _ =>
      idle_some (Object.mapVectors_of_none hv _))
  | some v =>
    obtain rfl := Object.eq_vectors hv
    refine stepped_elim h.build.toOption fun h _ =>
      stepped_elim (Literal.arrayOf rows).toOption fun rows _ => ?_
    have hput : ∀ f : Checked (Vectors C α), f = Command.scatter h rows v →
        Stepped bound (some id) (some (.scatterAdd h rows)) σ
          (Edit.left (checked f >>= fun w => assign id (.vectors w) >>= fun _ => present id) σ) := by
      rintro f rfl
      rw [left_checked]
      cases hscatter : Command.scatter h rows v with
      | error e =>
        refine stepped_idle ho (idle_some ?_)
        rw [Command.apply, Object.mapVectors, hscatter]
        rfl
      | ok w =>
        refine stepped_bind (stepped_assign ho ?_) fun _ _ => (reads_present id).spares
        rw [Command.apply, Object.mapVectors, hscatter]
        exact Object.same_refl _
    show Stepped bound (some id) (some (.scatterAdd h rows)) σ (Edit.left (ite _ _ _) σ)
    split
    · rename_i hhost
      have hmisfit : (misfit : Checked (Vectors C α)) = Command.scatter h rows v := by
        rw [Command.scatter, if_pos hhost]
      exact hput _ hmisfit
    · rename_i hdevice
      exact hput _ (by rw [Command.scatter, if_neg hdevice])

/-! ## Stores -/

theorem stepped_store (a : String) (x : Given α) (t : Option VariableType) :
    Stepped bound (σ.refers a) (Step.command? σ (.store a x t)) σ
      (Edit.left (perform (.store a x t)) σ) := by
  refine stepped_reference fun id o _ ho => ?_
  simp only [Step.command?, left_storeOf, left_checked]
  cases hs : o.store? with
  | none => exact stepped_idle ho (idle_bind _ fun _ => idle_some (Object.mapStore_of_none hs _))
  | some s =>
    obtain rfl := Object.eq_store hs
    refine stepped_elim x.build.toOption fun x _ => ?_
    cases hinsert : s.insert x t with
    | error e =>
      refine stepped_idle ho (idle_some ?_)
      rw [Command.apply, Object.mapStore, hinsert]
      rfl
    | ok p =>
      refine stepped_bind (stepped_assign ho ?_) fun _ _ => (reads_answer _).spares
      rw [Command.apply, Object.mapStore, hinsert]
      exact Object.same_refl _

theorem stepped_write (a : String) (h : GivenHandle α) (x : Given α) :
    Stepped bound (σ.refers a) (Step.command? σ (.write a h x)) σ
      (Edit.left (perform (.write a h x)) σ) := by
  refine stepped_reference fun id o _ ho => ?_
  simp only [Step.command?, left_storeOf, left_checked]
  cases hs : o.store? with
  | none =>
    exact stepped_idle ho (idle_bind _ fun _ => idle_bind _ fun _ =>
      idle_some (Object.mapStore_of_none hs _))
  | some s =>
    obtain rfl := Object.eq_store hs
    refine stepped_elim h.build.toOption fun h _ => stepped_elim x.build.toOption fun x _ => ?_
    cases hwrite : s.write h x with
    | error e =>
      refine stepped_idle ho (idle_some ?_)
      rw [Command.apply, Object.mapStore, hwrite]
      rfl
    | ok s' =>
      refine stepped_bind (stepped_assign ho ?_) fun _ _ => (reads_present id).spares
      rw [Command.apply, Object.mapStore, hwrite]
      exact Object.same_refl _

theorem stepped_move (a b : String) :
    Stepped bound (σ.refers a) (Step.command? σ (.move a b)) σ
      (Edit.left (perform (.move a b)) σ) := by
  refine stepped_reference fun id o _ ho => ?_
  simp only [Step.command?, left_storeOf, left_buffersSeen]
  cases hs : o.store? with
  | none => exact stepped_idle ho (idle_bind _ fun _ => idle_some (Object.mapStore_of_none hs _))
  | some s =>
    obtain rfl := Object.eq_store hs
    refine stepped_elim (σ.buffersSeen b) fun along _ => ?_
    exact stepped_bind (stepped_edit ho (Object.same_refl _)) fun _ _ => (reads_present id).spares

/-! ## Graphs -/

theorem stepped_addFactor (a : String) (x : GivenFactor C α) :
    Stepped bound (σ.refers a) (Step.command? σ (.addFactor a x)) σ
      (Edit.left (perform (.addFactor a x)) σ) := by
  have hperform : perform (.addFactor a x) = reference a >>= fun id => object id >>= fun o =>
      graphOf o >>= fun g => checked x.build >>= fun f => (g.opening f).elim (pure ()) log >>=
        fun _ => checked (g.insert f) >>= fun g => assign id (.graph g) >>= fun _ => present id := by
    simp only [perform, addFactor, bind_assoc]
    refine congrArg _ (funext fun id => congrArg _ (funext fun o => congrArg _ (funext fun g =>
      congrArg _ (funext fun f => ?_))))
    cases g.opening f <;> simp [bind_assoc]
  rw [hperform]
  refine stepped_reference fun id o _ ho => ?_
  simp only [Step.command?, left_graphOf, left_checked]
  cases hg : o.graph? with
  | none => exact stepped_idle ho (idle_bind _ fun _ => idle_some (Object.mapGraph_of_none hg _))
  | some g =>
    obtain rfl := Object.eq_graph hg
    refine stepped_elim x.build.toOption fun f _ => ?_
    have hput : ∀ τ : Session C α, τ.objects[id]? = some (.graph g) →
        Stepped bound (some id) (some (.addFactor f)) τ
          (Edit.left (checked (g.insert f) >>= fun g => assign id (.graph g) >>= fun _ =>
            present id) τ) := by
      intro τ hτ
      rw [left_checked]
      cases hinsert : g.insert f with
      | error e =>
        refine stepped_idle hτ (idle_some ?_)
        rw [Command.apply, Object.mapGraph, hinsert]
        rfl
      | ok g' =>
        refine stepped_bind (stepped_assign hτ ?_) fun _ _ => (reads_present id).spares
        rw [Command.apply, Object.mapGraph, hinsert]
        exact Object.same_refl _
    cases g.opening f with
    | none => exact hput σ ho
    | some e =>
      exact (hput { σ with events := σ.events.push e } ho).after ⟨le_rfl, fun _ _ => rfl, fun _ _ => rfl⟩

omit [DecidableEq C] [FactorFamily C] [Scalar α] in
theorem eq_linear {g : LinearGraph C α × Nat} (h : σ.linear? o = some g) :
    o = .linear g.1.buffers g.2 := by
  cases o with
  | linear buffers template =>
    obtain ⟨_, _, h⟩ := Option.bind_eq_some_iff.1 h
    obtain ⟨_, _, h⟩ := Option.bind_eq_some_iff.1 h
    cases h
    rfl
  | _ => cases h

theorem stepped_damp (a : String) (s : α) :
    Stepped bound (σ.refers a) (Step.command? σ (.damp a s)) σ
      (Edit.left (perform (.damp a s)) σ) := by
  refine stepped_reference fun id o hid ho => ?_
  have hseen : σ.seen a = some o := by rw [Session.seen, hid]; exact ho
  simp only [Step.command?, left_linearOf, hseen]
  refine stepped_elim (σ.linear? o) fun g hg => ?_
  obtain rfl := eq_linear hg
  refine stepped_bind (stepped_edit ho ?_) fun _ _ => (reads_present id).spares
  exact Object.same_refl _

/-! ## Solvers -/

theorem stepped_runSolver {P : Type} {solver : Solve P α (Summary α)} {p : P}
    {keep : P → Machine C α Unit}
    (h : Stepped bound target command σ (Edit.left (keep (Edit.left solver ⟨p, #[]⟩).point) σ)) :
    Stepped bound target command σ (Edit.left (runSolver solver p keep) σ) := by
  have hlog : ∀ (events : Array (Event α)) n,
      (events.forM log : Machine C α PUnit).Spares n bound := by
    rintro ⟨events⟩ n
    rw [Array.forM_eq_forM, List.forM_toArray]
    exact spares_forM spares_log events
  unfold Edit.left at h
  unfold runSolver
  cases hsolver : solver ⟨p, #[]⟩ with
  | ok summary run =>
    rw [hsolver] at h
    exact stepped_bind (stepped_bind h fun _ => hlog run.events) fun _ _ => (reads_pure _).spares
  | error e run =>
    rw [hsolver] at h
    exact stepped_bind (stepped_bind h fun _ => hlog run.events) fun _ _ => (reads_throw _).spares

/-- A nonlinear solver moves a store, and nothing else. -/
theorem stepped_optimize (make : FactorGraph C α → Command C α) {method : Method C α}
    (hstore : ∀ g s, (make g).apply (.store s) =
      .store (Edit.left (method.onStore g) ⟨s, #[]⟩).point)
    (hother : ∀ g o, o.store? = none → (make g).apply o = o) (a point : String) :
    Stepped bound (σ.refers point)
      ((σ.seen a).bind fun o => o.graph?.bind fun g => some (make g)) σ
      (Edit.left (optimize a point method) σ) := by
  unfold optimize
  rw [left_named]
  refine stepped_elim (σ.seen a) fun o _ => stepped_reference fun id p hid hp => ?_
  have hsummary : ∀ (summary : Summary α) n,
      (create (.summary summary id) : Machine C α (Answer α)).Spares n bound :=
    fun _ _ => spares_create _
  have hatRest : ∀ {idle : Option (Command C α)} (error : Checked α) (linearized : Checked (Event α)),
      Idle p idle → Stepped bound (some id) idle σ
        (Edit.left (runSolver (method.atRest error linearized) () (fun _ => return) >>=
          fun summary => create (.summary summary id)) σ) :=
    fun _ _ hidle => stepped_bind (stepped_runSolver (stepped_idle hp hidle)) hsummary
  cases o with
  | graph g =>
    cases hs : p.store? with
    | none =>
      have hidle : Idle p (some (make g)) := idle_some (hother g p hs)
      cases p with
      | store => cases hs
      | _ => exact hatRest _ _ hidle
    | some s =>
      obtain rfl := Object.eq_store hs
      refine stepped_bind (stepped_runSolver (stepped_assign hp ?_)) hsummary
      rw [hstore]
      exact Object.same_refl _
  | linear buffers template =>
    show Stepped bound (some id) none σ (Edit.left (linearOf _ >>= _) σ)
    rw [left_linearOf]
    cases σ.linear? (.linear buffers template) with
    | none => exact stepped_no_command
    | some g => exact hatRest _ _ idle_none
  | _ => exact stepped_no_command

theorem stepped_cgls (a x : String) (config : Cgls.Config α) :
    Stepped bound (σ.refers x) (Step.command? σ (.cgls a x config)) σ
      (Edit.left (perform (.cgls a x config)) σ) := by
  show Stepped bound (σ.refers x) _ σ (Edit.left (cgls a x config) σ)
  unfold cgls
  simp only [Step.command?, left_named]
  refine stepped_elim (σ.seen a) fun o _ => stepped_reference fun id p hid hp => ?_
  cases o with
  | linear buffers template =>
    have hsolved : ∀ (r : Nat × α) n, (do
        log (.linearSolved r.1 r.2)
        create (.solved r.1 id) : Machine C α (Answer α)).Spares n bound :=
      fun _ _ => (spares_log _).bind fun _ => spares_create _
    dsimp only
    rw [left_linearOf]
    refine stepped_elim (σ.linear? _) fun g hg => ?_
    cases hv : p.vectors? with
    | none =>
      have hidle : Idle p (some (.cgls config g.1 (decide (σ.refers x = some g.2)))) :=
        idle_some (Object.mapVectors_of_none hv _)
      refine Extends.stepped_idle ?_ hp hidle
      cases p with
      | vectors => cases hv
      | _ => exact (reads_checked _).then_spares (fun _ => hsolved _ _) σ le_rfl
    | some v =>
      obtain rfl := Object.eq_vectors hv
      have hshared : decide (id = template) = decide (σ.refers x = some g.2) := by
        have horigin := eq_linear hg
        injection horigin with _ htemplate
        simp [hid, htemplate]
      refine stepped_bind (stepped_edit hp ?_) hsolved
      rw [hshared]
      exact Object.same_refl _
  | graph g =>
    refine Extends.stepped_idle ?_ hp idle_none
    exact ((reads_checked _).bind fun _ => reads_fail).spares σ le_rfl
  | _ => exact stepped_no_command

theorem stepped_perform (step : Step C α) (hbound : ∀ x ∈ step.binds, x ∈ bound) :
    Stepped bound (step.target.bind σ.refers) (step.command? σ) σ (Edit.left (perform step) σ) := by
  cases step with
  | setBuffer a t b => exact stepped_setBuffer a t b
  | restore a b => exact stepped_restore a b
  | fillEmpty a b => exact stepped_fillEmpty a b
  | arithmetic op a b =>
    refine stepped_arithmetic op a b fun hincrease hdecrease => ?_
    exact spares_arithmetic hincrease hdecrease a b
  | scatterAdd a h rows => exact stepped_scatterAdd a h rows
  | store a x t => exact stepped_store a x t
  | write a h x => exact stepped_write a h x
  | move a b => exact stepped_move a b
  | addFactor a x => exact stepped_addFactor a x
  | damp a s => exact stepped_damp a s
  | cgls a x config => exact stepped_cgls a x config
  | levenbergMarquardt a point config =>
    exact stepped_optimize (.levenbergMarquardt config) (fun _ _ => rfl)
      (fun _ _ h => Object.mapStore_of_none h _) a point
  | gradientDescent a point config =>
    exact stepped_optimize (.gradientDescent config) (fun _ _ => rfl)
      (fun _ _ h => Object.mapStore_of_none h _) a point
  | _ => exact (spares_perform _ rfl hbound σ le_rfl).stepped fun _ _ _ h => nomatch h

end Machine

end LeastSquares
