import LeastSquares.Proofs.Array.Wider
import LeastSquares.Proofs.Factor.Deposit
import LeastSquares.Proofs.Factor.Shuffle

/-!
# Additions in another order

What a stack of factors adds to vectors does not depend on the order of the factors, if each of them adds one
vector to one variable at each of its handles: the vectors are kept in arrays, but what is added to a cell is the
sum of what each of them adds there. It does depend on the order if handles name several variables, since then the
vectors of some factors may be repeated along the indices of others.
-/

namespace LeastSquares

open Checked (Matches)

/-- The rows of a matrix as rows of another length, each repeated if it has one number. -/
def Tensor.repeated {β : Type} [Inhabited β] (t : Tensor β) (n d w : Nat) : Tensor β :=
  .generate [n, w] fun k => t.entry (k / w * d + if d = 1 then 0 else k % w)

theorem Tensor.broadcast?_matrix {β : Type} [Inhabited β] {t : Tensor β} {n d w : Nat} (ht : t.shape = [n, d])
    (h : d = w ∨ d = 1) : t.broadcast? [n, w] = some (t.repeated n d w) := by
  by_cases hd : d = w
  · subst hd
    rw [broadcast?_shape ht]
    refine congrArg some (eq_generate ht fun k hk => ?_)
    congr 1
    by_cases h1 : d = 1
    · subst h1
      simp
    · rw [if_neg h1, mul_comm, Nat.div_add_mod]
  obtain rfl : d = 1 := h.resolve_left hd
  rw [broadcast?_of_join? (by simp [ht, hd])]
  · refine congrArg some (generate_congr fun k hk => ?_)
    rw [Shape.volume_matrix] at hk
    have hrow : (if n = 1 then 0 else k / w) = k / w := by
      split
      next h => rw [Nat.div_eq_of_lt (by simpa [h] using hk)]
      next => rfl
    simp [ht, Shape.padded, Shape.project, hrow]
  · simp [ht, Shape.join?, Shape.padded, Shape.joinExtent?, hd]

theorem Tensor.broadcast?_matrix_eq_none {β : Type} [Inhabited β] {t : Tensor β} {n d w : Nat}
    (ht : t.shape = [n, d]) (hd : d ≠ w) (h1 : d ≠ 1) : t.broadcast? [n, w] = none := by
  refine broadcast?_eq_none (by simp [ht, hd]) ?_
  rw [ht]
  by_cases hw : w = 1 <;> simp [Shape.join?, Shape.padded, Shape.joinExtent?, hd, h1, hw]

namespace Block

variable {α : Type} [Scalar α] {t rows : Tensor α} {index : Tensor Int} {m n d w : Nat}

/-- Rows of another length are added as they are repeated. -/
theorem putAdd?_repeated (ht : t.shape = [m, w]) (hindex : index.shape = [n]) (hrows : rows.shape = [n, d])
    (h : w = 0 ∨ d = w ∨ d = 1) : (reals t).putAdd? (.ints index) (.reals rows) =
      (reals t).putAdd? (.ints index) (.reals (rows.repeated n d w)) := by
  have hshape : index.shape ++ (reals t).shape.tail = [n, w] := by
    rw [hindex, show (reals t).shape = [m, w] from ht]
    rfl
  unfold putAdd? update?
  simp only [asIndex?, hshape, Option.bind_eq_bind, Option.bind_some]
  by_cases hvolume : Shape.volume [n, w] = 0
  · rw [if_pos hvolume, if_pos hvolume]
  · have hrepeat := Tensor.broadcast?_matrix hrows (h.resolve_left fun hw => hvolume (by simp [hw]))
    have hsame : (rows.repeated n d w).broadcast? [n, w] = some (rows.repeated n d w) := Tensor.broadcast?_self _
    simp only [kind_reals, join_real_left, toReals_reals, hrepeat, hsame]

theorem putAdd?_eq_none (ht : t.shape = [m, w]) (hindex : index.shape = [n]) (hrows : rows.shape = [n, d])
    (hn : n ≠ 0) (hw : w ≠ 0) (hd : d ≠ w) (h1 : d ≠ 1) :
    (reals t).putAdd? (.ints index) (.reals rows) = none := by
  have hshape : index.shape ++ (reals t).shape.tail = [n, w] := by
    rw [hindex, show (reals t).shape = [m, w] from ht]
    rfl
  unfold putAdd? update?
  simp [asIndex?, hshape, hn, hw, Tensor.broadcast?_matrix_eq_none hrows hd h1, Kind.join]

end Block

/-! ## Steps that agree -/

namespace Vectors

variable {C α : Type} [DecidableEq C] [LinearOrder α] [ExactScalar α] {L : Layout C}
  {step step' next next' : Vectors C α → Checked (Vectors C α)}

/-- The steps add the same to whatever fills the layout. -/
def Agree (L : Layout C) (step step' : Vectors C α → Checked (Vectors C α)) : Prop :=
  ∃ d, Adds L step d ∧ Adds L step' d

theorem Agree.congr (h : Agree L step step') (hnext : ∀ v, next v = step v) (hnext' : ∀ v, next' v = step' v) :
    Agree L next next' := by
  obtain ⟨d, h, h'⟩ := h
  exact ⟨d, h.congr hnext, h'.congr hnext'⟩

theorem Agree.bind (h : Agree L step step') (hnext : Agree L next next') :
    Agree L (fun v => step v >>= next) (fun v => step' v >>= next') := by
  obtain ⟨d, h, h'⟩ := h
  obtain ⟨e, hnext, hnext'⟩ := hnext
  exact ⟨d + e, h.bind hnext, h'.bind hnext'⟩

/-- Steps that agree give equal vectors. -/
theorem Agree.matches_equal [FactorFamily C] (h : Agree L step step') {v : Vectors C α} (hv : v.Fills L) :
    Matches (fun w z => w.equal z = .ok true) (step v) (step' v) := by
  obtain ⟨d, h, h'⟩ := h
  refine (h.matches h' hv).mono fun w z _ _ hwz => ?_
  obtain ⟨hw, hz, hcells⟩ := hwz
  exact Represents.equal (L := L) ⟨hw.within, rfl⟩ ⟨hz.within, hcells.symm⟩

theorem agree_of_fails (h : ∀ v, v.Fills L → (step v).Fails) (h' : ∀ v, v.Fills L → (step' v).Fails) :
    Agree L step step' :=
  ⟨⊤, .fails h, .fails h'⟩

theorem agree_foldlM {γ δ : Type} {f : Vectors C α → γ → Checked (Vectors C α)}
    {g : Vectors C α → δ → Checked (Vectors C α)} {xs : List γ} {ys : List δ}
    (h : List.Forall₂ (fun x y => Agree L (f · x) (g · y)) xs ys) :
    Agree L (fun v => xs.foldlM f v) fun v => ys.foldlM g v := by
  induction h with
  | nil => exact ⟨0, adds_zero fun v hv => ⟨v, rfl, hv, rfl⟩, adds_zero fun v hv => ⟨v, rfl, hv, rfl⟩⟩
  | cons hxy _ ih => exact (hxy.bind ih).congr (fun _ => List.foldlM_cons ..) fun _ => List.foldlM_cons ..

/-- What is added up over two tables of the same keys, under each key the same, is the same. -/
theorem agree_tables {K V V' : Type} [DecidableEq K] {t : Table K V} {t' : Table K V'}
    {f : Vectors C α → K × V → Checked (Vectors C α)} {g : Vectors C α → K × V' → Checked (Vectors C α)}
    (hkeys : ∀ key, key ∈ t.keys ↔ key ∈ t'.keys)
    (h : ∀ key v v', t.get? key = some v → t'.get? key = some v' → Agree L (f · (key, v)) (g · (key, v'))) :
    Agree L (fun out => t.entries.foldlM f out) fun out => t'.entries.foldlM g out := by
  have hkey : ∀ key, ∃ d, ∀ v v', t.get? key = some v → t'.get? key = some v' →
      Adds L (f · (key, v)) d ∧ Adds L (g · (key, v')) d := by
    intro key
    cases hv : t.get? key with
    | none => exact ⟨0, fun v v' h => by cases h⟩
    | some v =>
      cases hv' : t'.get? key with
      | none => exact ⟨0, fun v v' _ h => by cases h⟩
      | some v' =>
        obtain ⟨d, hd⟩ := h key v v' hv hv'
        exact ⟨d, fun w w' hw hw' => by rwa [← Option.some.inj hw, ← Option.some.inj hw']⟩
  choose D hD using hkey
  have hsum : (t.entries.map fun e => D e.1).sum = (t'.entries.map fun e => D e.1).sum := by
    have hperm : t.keys.Perm t'.keys := (List.perm_ext_iff_of_nodup t.distinct t'.distinct).2 hkeys
    simpa [Table.keys, Function.comp_def] using (hperm.map D).sum_eq
  refine ⟨_, Adds.foldlM (D := fun e : K × V => D e.1) fun e he => ?_,
    hsum ▸ Adds.foldlM (D := fun e : K × V' => D e.1) fun e he => ?_⟩
  · have hget := Table.get?_eq_some_iff.2 he
    obtain ⟨v', hv'⟩ := Table.mem_keys_iff.1 ((hkeys e.1).1 (Table.mem_keys_iff.2 ⟨_, hget⟩))
    exact (hD e.1 e.2 v' hget hv').1
  · have hget := Table.get?_eq_some_iff.2 he
    obtain ⟨v, hv⟩ := Table.mem_keys_iff.1 ((hkeys e.1).2 (Table.mem_keys_iff.2 ⟨_, hget⟩))
    exact (hD e.1 v e.2 hv hget).2

end Vectors

/-! ## Slots -/

namespace Factor

section Slots

variable {C α : Type} [DecidableEq C] [LinearOrder α] [ExactScalar α] {L : Layout C}

/-- An index of one variable, and a vector with `d` coordinates. -/
def Sent (d : Nat) (p : Block α × Block α) : Prop :=
  (∃ t : Tensor Int, p.1 = .ints t ∧ t.shape = []) ∧ ∃ v : Tensor α, p.2 = .reals v ∧ v.shape = [d]

/-- What one vector with `d` coordinates adds to a cell: a coordinate, in the row that its index addresses.
The only coordinate of a vector stands for all. -/
def share (L : Layout C) (T : VariableType) (d : Nat) (p : Block α × Block α) : L.cells → α := fun u =>
  if u.1.1 = .type T then
    if target (L.rows u.1.1) (p.1.toInts.entry 0) = some (u.1.2 / L.width u.1.1) then
      p.2.toReals.entry (if d = 1 then 0 else u.1.2 % L.width u.1.1)
    else 0
  else 0

/-- The indices and the vectors of a slot, each in one array. -/
theorem stacks_of_sent {d : Nat} {parts : List (Block α × Block α)} (hne : parts ≠ [])
    (hsent : ∀ p ∈ parts, Sent d p) : ∃ index V,
      Block.stack? (parts.map (·.1)) = some (.ints index) ∧ index.shape = [parts.length] ∧
      Block.stack? (parts.map (·.2)) = some (.reals V) ∧ V.shape = [parts.length, d] ∧
      ∀ i (hi : i < parts.length), index.entry i = (parts[i]).1.toInts.entry 0 ∧
        ∀ c, c < d → V.entry (i * d + c) = (parts[i]).2.toReals.entry c := by
  have hpos : 0 < parts.length := List.length_pos_of_ne_nil hne
  have hpart : ∀ i, i < parts.length → parts.getD i (.int 0, .int 0) ∈ parts ∧
      ∀ hi : i < parts.length, parts[i] = parts.getD i (.int 0, .int 0) := by
    intro i hi
    rw [List.getD_eq_getElem _ _ hi]
    exact ⟨List.getElem_mem hi, fun _ => rfl⟩
  obtain ⟨index, hindex, hindexshape, hindexentry⟩ := Block.stack?_indexes (l := parts.map (·.1))
    (F := fun i => (parts.getD i (.int 0, .int 0)).1.toInts.entry 0) hpos
    (List.forall₂_iff_get.2 ⟨by simp, fun i hi hi' => by
      have hi : i < parts.length := by simpa using hi
      obtain ⟨⟨t, ht, hshape⟩, -⟩ := hsent _ (hpart i hi).1
      refine ⟨t, ?_, hshape, ?_⟩
      · simpa [(hpart i hi).2 hi] using ht
      · simp only [List.get_eq_getElem, List.getElem_range, ht]
        rfl⟩)
  obtain ⟨V, hV, hVshape, hVentry⟩ := Block.stack?_tabulates (l := parts.map (·.2)) (s := [d])
    (F := fun i c => (parts.getD i (.int 0, .int 0)).2.toReals.entry c) hpos
    (List.forall₂_iff_get.2 ⟨by simp, fun i hi hi' => by
      have hi : i < parts.length := by simpa using hi
      obtain ⟨-, v, hv, hshape⟩ := hsent _ (hpart i hi).1
      refine ⟨v, ?_, hshape, fun c _ => ?_⟩
      · simpa [(hpart i hi).2 hi] using hv
      · simp only [List.get_eq_getElem, List.getElem_range, hv]
        rfl⟩)
  refine ⟨index, V, hindex, hindexshape, hV, hVshape, fun i hi => ?_⟩
  rw [(hpart i hi).2 hi]
  refine ⟨hindexentry i hi, fun c hc => ?_⟩
  have hcell := hVentry i hi c (by simpa using hc)
  rwa [Shape.volume_row] at hcell

/-- What the parts of a slot add, if their vectors fit. -/
theorem adds_addInto {T : VariableType} {d : Nat} {parts : List (Block α × Block α)} (hne : parts ≠ [])
    (hsent : ∀ p ∈ parts, Sent d p) (hkey : Key.type T ∈ L.keys)
    (hd : L.width (.type T) = 0 ∨ d = L.width (.type T) ∨ d = 1) :
    Vectors.Adds L (fun v : Vectors C α => Slot.addInto ⟨T, parts⟩ v)
      ((parts.map (share L T d)).sum : L.cells → α) := by
  obtain ⟨index, V, hindex, hindexshape, hV, hVshape, hentry⟩ := stacks_of_sent hne hsent
  refine .adds fun v hv => ?_
  have hrepeated : (V.repeated parts.length d (L.width (.type T))).shape =
    [parts.length, L.width (.type T)] := rfl
  obtain ⟨w, hw, hfills, hcoordinate⟩ := Vectors.scatterAdd_of_fills hv hkey hindexshape hrepeated
  refine ⟨w, ?_, hfills, funext fun u => (hcoordinate u u.2).trans ?_⟩
  · unfold Slot.addInto
    rw [hindex, hV, ← hw]
    obtain ⟨t, ht, htshape⟩ := hv.holds _ hkey
    show v.scatterAdd (Handle.inStack ⟨T, .ints index⟩) (.reals V) = _
    rw [Vectors.scatterAdd_of_rows ht.2, Vectors.scatterAdd_of_rows ht.2]
    show (fitting ((Block.reals t).putAdd? (.ints index) (.reals V)) >>= _) = _
    rw [Block.putAdd?_repeated htshape hindexshape hVshape hd]
    rfl
  · refine congrArg (v.coordinate u + ·) ?_
    rw [Pi.list_sum_apply, List.map_map]
    obtain ⟨⟨key, k⟩, hu⟩ := u
    by_cases hT : key = .type T
    · subst hT
      have hk : k < L.rows (.type T) * L.width (.type T) := (Layout.mem_cells.1 hu).2
      have hwidth : 0 < L.width (.type T) := Nat.pos_of_mul_pos_left (Nat.zero_lt_of_lt hk)
      rw [if_pos rfl, ← Block.sum_map_range]
      refine congrArg List.sum (List.ext_getElem (by simp) fun i hi hi' => ?_)
      have hi : i < parts.length := by simpa using hi
      have hc : k % L.width (.type T) < L.width (.type T) := Nat.mod_lt _ hwidth
      rw [List.getElem_map, List.getElem_map, List.getElem_range, Function.comp_apply, share, if_pos rfl,
        (hentry i hi).1]
      refine if_congr Iff.rfl ?_ rfl
      have hcell : i * L.width (.type T) + k % L.width (.type T) <
          Shape.volume [parts.length, L.width (.type T)] := by
        rw [Shape.volume_matrix]
        exact Shape.cell_lt hi hc
      rw [Tensor.repeated, Tensor.entry_generate hcell, Shape.cell_div hc, Shape.cell_mod hc]
      refine (hentry i hi).2 _ ?_
      split
      next h1 => omega
      next h1 => rcases hd with hd | hd | hd <;> omega
    · rw [if_neg hT]
      symm
      refine List.sum_eq_zero fun x hx => ?_
      obtain ⟨p, -, rfl⟩ := List.mem_map.1 hx
      rw [Function.comp_apply, share, if_neg hT]

/-- The parts of a slot add the same in another order. -/
theorem agree_addInto {T : VariableType} {d : Nat} {parts parts' : List (Block α × Block α)}
    (hperm : parts.Perm parts') (hsent : ∀ p ∈ parts, Sent d p) :
    Vectors.Agree L (fun v : Vectors C α => Slot.addInto ⟨T, parts⟩ v) fun v => Slot.addInto ⟨T, parts'⟩ v := by
  by_cases hne : parts = []
  · subst hne
    obtain rfl := hperm.nil_eq
    exact Vectors.agree_of_fails (fun v _ => ⟨_, rfl⟩) fun v _ => ⟨_, rfl⟩
  have hne' : parts' ≠ [] := fun hnil => hne (hnil ▸ hperm).eq_nil
  have hsent' : ∀ p ∈ parts', Sent d p := fun p hp => hsent p (hperm.mem_iff.2 hp)
  by_cases hkey : Key.type T ∈ L.keys
  case neg =>
    have hfails : ∀ parts : List (Block α × Block α), ∀ v : Vectors C α, v.Fills L →
        (Slot.addInto ⟨T, parts⟩ v).Fails := fun parts v hv =>
      Checked.fails_bind fun index _ => Checked.fails_bind fun x _ => by
        unfold Vectors.scatterAdd Handle.inStack
        dsimp only
        rw [hv.outside _ hkey]
        exact ⟨_, rfl⟩
    exact Vectors.agree_of_fails (hfails parts) (hfails parts')
  by_cases hd : L.width (.type T) = 0 ∨ d = L.width (.type T) ∨ d = 1
  · exact ⟨_, adds_addInto hne hsent hkey hd, (hperm.map (share L T d)).sum_eq ▸ adds_addInto hne' hsent' hkey hd⟩
  · have hfails : ∀ parts : List (Block α × Block α), parts ≠ [] → (∀ p ∈ parts, Sent d p) →
        ∀ v : Vectors C α, v.Fills L → (Slot.addInto ⟨T, parts⟩ v).Fails := by
      intro parts hne hsent v hv
      obtain ⟨index, V, hindex, hindexshape, hV, hVshape, -⟩ := stacks_of_sent hne hsent
      obtain ⟨t, ht, htshape⟩ := hv.holds _ hkey
      unfold Slot.addInto
      rw [hindex, hV]
      show (v.scatterAdd (Handle.inStack ⟨T, .ints index⟩) (.reals V)).Fails
      rw [Vectors.scatterAdd_of_rows ht.2]
      show (fitting ((Block.reals t).putAdd? (.ints index) (.reals V)) >>= _).Fails
      rw [Block.putAdd?_eq_none htshape hindexshape hVshape (by simpa using hne) (by tauto) (by tauto) (by tauto)]
      exact ⟨_, rfl⟩
    exact Vectors.agree_of_fails (hfails parts hne hsent) (hfails parts' hne' hsent')

/-- A handle of one variable of a type, and a vector with so many coordinates. -/
def Delivers (t : VariableType × Nat) (p : Handle (Block α) × Block α) : Prop :=
  p.1.type = t.1 ∧ Sent t.2 (p.1.index, p.2)

/-- Contributions to variables of the same types add the same in another order. -/
theorem agree_accumulate {types : List (VariableType × Nat)} {rows rows' : List (List (Handle (Block α) × Block α))}
    (hperm : rows.Perm rows') (hrows : ∀ row ∈ rows, List.Forall₂ Delivers types row) :
    Vectors.Agree L (fun v : Vectors C α => accumulate rows v) (accumulate rows') := by
  have hslots : List.Forall₂ (fun slot slot' => Vectors.Agree L (fun v : Vectors C α => Slot.addInto slot v)
      fun v => Slot.addInto slot' v) (slots rows) (slots rows') := by
    cases rows with
    | nil =>
      obtain rfl := hperm.nil_eq
      exact .nil
    | cons first rest =>
      cases rows' with
      | nil => cases hperm.eq_nil
      | cons first' rest' =>
        have hfirst := hrows first (by simp)
        have hfirst' := hrows first' (hperm.mem_iff.2 (by simp))
        unfold slots
        refine List.forall₂_iff_get.2 ⟨by simp [← hfirst.length_eq, ← hfirst'.length_eq], fun k hk hk' => ?_⟩
        have hkf : k < first.length := by simpa using hk
        have hkf' : k < first'.length := by simpa using hk'
        have hkt : k < types.length := hfirst.length_eq ▸ hkf
        have htype : (first[k]).1.type = (types[k]).1 := (hfirst.get hkt hkf).1
        have htype' : (first'[k]).1.type = (types[k]).1 := (hfirst'.get hkt hkf').1
        simp only [List.get_eq_getElem, List.getElem_map, List.getElem_zipIdx, Nat.zero_add]
        rw [htype, htype']
        refine agree_addInto (d := (types[k]).2) (hperm.filterMap _) fun p hp => ?_
        obtain ⟨row, hrow, hp⟩ := List.mem_filterMap.1 hp
        obtain ⟨q, hq, rfl⟩ := Option.map_eq_some_iff.1 hp
        obtain ⟨hkr, rfl⟩ := List.getElem?_eq_some_iff.1 hq
        exact ((hrows row hrow).get hkt hkr).2
  have hrenewed : Vectors.Agree L (fun v : Vectors C α => .ok ⟨v.buffers.renewed⟩)
      fun v => .ok ⟨v.buffers.renewed⟩ :=
    ⟨0, Vectors.adds_renewed, Vectors.adds_renewed⟩
  exact ((Vectors.agree_foldlM (f := fun v slot => Slot.addInto slot v) (g := fun v slot => Slot.addInto slot v)
    hslots).bind hrenewed).congr (fun _ => rfl) fun _ => rfl

/-- What some factors come to, added up in another order. -/
theorem agree_of_rows {γ : Type} {types : List (VariableType × Nat)}
    {f : γ → Checked (List (Handle (Block α) × Block α))} {xs xs' : List γ} (hperm : xs.Perm xs')
    (h : ∀ x ∈ xs, ∀ row, f x = .ok row → List.Forall₂ Delivers types row) :
    Vectors.Agree L (fun v : Vectors C α => xs.mapM f >>= fun rows => accumulate rows v)
      fun v => xs'.mapM f >>= fun rows => accumulate rows v := by
  obtain ⟨rows, rows', hrun, hrun', hrows⟩ | ⟨hfails, hfails'⟩ := (Checked.matches_perm (f := f) hperm).cases
  · simp only [hrun, hrun', Checked.ok_bind]
    have hspec := Checked.forall₂_of_mapM hrun
    have hdelivers : ∀ row ∈ rows, List.Forall₂ Delivers types row := by
      intro row hrow
      obtain ⟨i, hi, rfl⟩ := List.getElem_of_mem hrow
      have hi' : i < xs.length := hspec.length_eq ▸ hi
      exact h _ (List.getElem_mem hi') _ (hspec.get hi' hi)
    exact agree_accumulate hrows hdelivers
  · exact Vectors.agree_of_fails (fun _ _ => hfails.bind _) fun _ _ => hfails'.bind _

omit [DecidableEq C] [LinearOrder α] [ExactScalar α] in
/-- Vectors at handles of single variables. -/
theorem delivers_zip {handles : List (Handle (Block α))} {dims : List Nat} {vs : List (Block α)}
    (hsingle : ∀ a ∈ handles, ∃ t : Tensor Int, a.index = .ints t ∧ t.shape = [])
    (hvs : List.Forall₂ (fun d b => ∃ v : Tensor α, b = .reals v ∧ v.shape = [d]) dims vs) :
    List.Forall₂ Delivers ((handles.map (·.type)).zip dims) (handles.zip vs) := by
  induction handles generalizing dims vs with
  | nil => exact .nil
  | cons a handles ih =>
    cases hvs with
    | nil => simp
    | cons hv hvs =>
      exact .cons ⟨rfl, hsingle a (by simp), hv⟩ (ih (fun b hb => hsingle b (by simp [hb])) hvs)

end Slots

end Factor

end LeastSquares
