import LeastSquares.Proofs.Array.Index
import LeastSquares.Proofs.Array.Number
import LeastSquares.Proofs.Buffer.Rows
import LeastSquares.Catalogue

/-!
# Vectors added into rows

Vectors are delivered to places, one to each of a list, and the same place may stand there more than
once. Each row receives the sum of what is delivered to it, nothing else changes, and in which order
and in how many portions the vectors come makes no difference.
-/

namespace LeastSquares

/-- Vectors and the list of places that they go to. -/
structure Delivery (α : Type) where
  count : Nat
  index : Tensor Int
  rows : Block α

/-! ## What a row receives -/

namespace Delivery

variable {C α : Type} [DecidableEq C] [LinearOrder α] [ExactScalar α] {n : Nat} {s : Shape}
  {b c d : Block α} {ps qs : List (Int × Tensor α)}

/-- One vector of shape `s` for each of the places, all of them among `n`, of a kind that an array of
kind `k` can hold. -/
structure Fits (p : Delivery α) (n : Nat) (s : Shape) (k : Kind) : Prop where
  listed : p.index.shape = [p.count]
  within : p.index.Within n
  shape : p.rows.shape = p.count :: s
  kind : Kind.join k p.rows.kind = k

/-- The places, each with its vector. -/
def pairs (p : Delivery α) : List (Int × Tensor α) :=
  (List.range p.count).map fun i => (p.index.entry i, (p.rows.row i).toReals)

/-- The sum of entry `k` of the vectors for place `j`. -/
def received (ps : List (Int × Tensor α)) (j k : Nat) : α :=
  (ps.map fun p => if p.1 = (j : Int) then p.2.entry k else 0).sum

theorem received_append (ps qs : List (Int × Tensor α)) (j k : Nat) :
    received (ps ++ qs) j k = received ps j k + received qs j k := by
  rw [received, List.map_append, List.sum_append]
  rfl

theorem received_perm (h : ps.Perm qs) (j k : Nat) : received ps j k = received qs j k :=
  (h.map _).sum_eq

theorem received_pairs (p : Delivery α) (j k : Nat) :
    received p.pairs j k =
      ∑ i ∈ Finset.range p.count with p.index.entry i = j, (p.rows.row i).toReals.entry k := by
  rw [received, pairs, List.map_map, Finset.sum_filter, ← Block.sum_map_range]
  rfl

/-- The array `c` is `b`, each row with what it receives. -/
structure Receives (n : Nat) (s : Shape) (b c : Block α) (ps : List (Int × Tensor α)) : Prop where
  kind : c.kind = b.kind
  shape : c.shape = n :: s
  entry : ∀ j, j < n → ∀ k, k < s.volume →
    (c.row j).toReals.entry k = (b.row j).toReals.entry k + received ps j k

theorem Receives.trans (h : Receives n s b c ps) (h' : Receives n s c d qs) :
    Receives n s b d (ps ++ qs) where
  kind := h'.kind.trans h.kind
  shape := h'.shape
  entry j hj k hk := by rw [h'.entry j hj k hk, h.entry j hj k hk, received_append, add_assoc]

/-- The order in which vectors are received makes no difference. -/
theorem Receives.unique (hb : b.IsNumeric) (h : Receives n s b c ps) (h' : Receives n s b d qs)
    (hperm : ps.Perm qs) : c = d := by
  have hkind : c.kind = d.kind := h.kind.trans h'.kind.symm
  refine Block.eq_of_rows hkind h.shape h'.shape fun j hj => ?_
  refine Block.eq_of_toReals ?_ ((c.kind_row j).trans (hkind.trans (d.kind_row j).symm)) ?_
  · exact fun hbool => hb (h.kind.symm.trans ((c.kind_row j).symm.trans hbool))
  · have hc : (c.row j).toReals.shape = s := ((c.row j).shape_toReals).trans (Block.shape_row h.shape j)
    have hd : (d.row j).toReals.shape = s := ((d.row j).shape_toReals).trans (Block.shape_row h'.shape j)
    refine Tensor.ext_entry (hc.trans hd.symm) fun k hk => ?_
    rw [hc] at hk
    rw [h.entry j hj k hk, h'.entry j hj k hk, received_perm hperm]

omit [LinearOrder α] [ExactScalar α] in
theorem target_within {p : Delivery α} {k : Kind} (hp : p.Fits n s k) {i j : Nat} (hi : i < p.count) :
    target n (p.index.entry i) = some j ↔ p.index.entry i = j := by
  obtain ⟨hnonneg, hlt⟩ := hp.within i (by rwa [hp.listed, Shape.volume_row])
  simp only [target, Access.locate, if_neg (not_lt.2 hnonneg), hnonneg, hlt, and_self, if_true,
    Option.some.injEq]
  omega

/-- An array of numbers receives vectors. -/
theorem exists_receives (whole : ∀ i, Scalar.wrap α i = i) (hb : b.IsNumeric) (hshape : b.shape = n :: s)
    {p : Delivery α} (hp : p.Fits n s b.kind) :
    ∃ c, b.putAdd? (.ints p.index) p.rows = some c ∧ Receives n s b c p.pairs := by
  obtain ⟨c, hc, hkind, hcshape, hentry⟩ :=
    Block.putAdd?_numbers whole hb hp.kind hshape hp.listed hp.shape
  refine ⟨c, hc, hkind, hcshape, fun j hj k hk => ?_⟩
  rw [Block.entry_toReals_row hcshape hj hk, Block.entry_toReals_row hshape hj hk,
    hentry _ (Shape.cell_lt hj hk), received_pairs, Finset.sum_filter]
  refine congrArg _ (Finset.sum_congr rfl fun i hi => ?_)
  have hi := Finset.mem_range.1 hi
  rw [Shape.cell_div hk, Shape.cell_mod hk, ← Block.entry_toReals_row hp.shape hi hk]
  exact if_congr (target_within hp hi) rfl rfl

end Delivery

/-! ## Deliveries to a collection -/

namespace Vectors

open Delivery (Receives)

variable {C α : Type} [DecidableEq C]

/-- The collection with another array for a type, on the device. -/
def withRows (v : Vectors C α) (T : VariableType) (rows : Block α) : Vectors C α :=
  ⟨v.buffers.insert (.type T) ((v.buffer (.type T)).holding (.values (.ofBlock rows)) .device)⟩

theorem buffer_withRows (v : Vectors C α) (T : VariableType) (rows : Block α) :
    (v.withRows T rows).buffer (.type T) =
      (v.buffer (.type T)).holding (.values (.ofBlock rows)) .device :=
  (Buffers.buffer_insert ..).trans (if_pos rfl)

theorem withRows_withRows (v : Vectors C α) (T : VariableType) (rows rows' : Block α) :
    (v.withRows T rows).withRows T rows' = v.withRows T rows' := by
  rw [withRows, buffer_withRows, withRows, withRows, Table.insert_insert]
  rfl

/-- Under the type stand `n` rows of numbers of shape `s`, in the array `rows`. -/
structure StoresRows (v : Vectors C α) (T : VariableType) (n : Nat) (s : Shape) (rows : Block α) :
    Prop where
  stack : (v.buffer (.type T)).stack = some (.values (.ofBlock rows))
  shape : rows.shape = n :: s
  numeric : rows.IsNumeric

/-- Vectors added into the rows at a list of places. -/
def receive [Scalar α] (T : VariableType) (v : Vectors C α) (p : Delivery α) : Checked (Vectors C α) :=
  v.scatterAdd ⟨T, .array .device (.ints p.index)⟩ p.rows

section Received

variable [LinearOrder α] [ExactScalar α] {v : Vectors C α} {T : VariableType} {n : Nat} {s : Shape}
  {b c : Block α} (whole : ∀ i, Scalar.wrap α i = i)

include whole

/-- One delivery changes the array of the type and nothing else. -/
theorem receive_of_rows (hv : v.StoresRows T n s b) {p : Delivery α} (hp : p.Fits n s b.kind) :
    ∃ c, v.receive T p = .ok (v.withRows T c) ∧ Receives n s b c p.pairs ∧
      (v.withRows T c).StoresRows T n s c := by
  obtain ⟨c, hc, hreceives⟩ := Delivery.exists_receives whole hv.numeric hv.shape hp
  refine ⟨c, ?_, hreceives, by rw [buffer_withRows]; rfl, hreceives.shape, fun hbool => ?_⟩
  · have hplaces : Residence.device.places (.array .device (.ints p.index) : Item α) =
        .ok (.ints p.index) := rfl
    rw [receive, scatterAdd_of_rows hv.stack, hplaces, Checked.ok_bind, hc]
    rfl
  · exact hv.numeric (hreceives.kind.symm.trans hbool)

/-- Deliveries one after another change the array as one delivery of all of it would. -/
theorem receive_all (hv : v.StoresRows T n s b) {parts : List (Delivery α)} (hne : parts ≠ [])
    (hparts : ∀ p ∈ parts, p.Fits n s b.kind) :
    ∃ c, parts.foldlM (receive T) v = .ok (v.withRows T c) ∧
      Receives n s b c (parts.flatMap Delivery.pairs) := by
  -- The first portion leaves an array of the same kind under the type, so the rest fits what it leaves.
  induction parts generalizing v b with
  | nil => exact absurd rfl hne
  | cons p rest ih =>
    obtain ⟨c, hc, hreceives, hstores⟩ := receive_of_rows whole hv (hparts p (by simp))
    rw [List.foldlM_cons, hc, Checked.ok_bind, List.flatMap_cons]
    -- Without portions nothing is written, and the buffer may still be one of the host.
    by_cases hrest : rest = []
    · subst hrest
      exact ⟨c, rfl, by simpa using hreceives⟩
    · obtain ⟨d, hd, hreceives'⟩ := ih hstores hrest fun q hq => by
        rw [hreceives.kind]
        exact hparts q (by simp [hq])
      exact ⟨d, hd.trans (congrArg Except.ok (withRows_withRows ..)), hreceives.trans hreceives'⟩

omit whole [LinearOrder α] [ExactScalar α] in
theorem StoresRows.count_eq [Scalar α] (hv : v.StoresRows T n s b) :
    (v.buffer (.type T)).count = .ok n := by
  rw [Buffer.count, hv.stack]
  simp [Stack.count, Value.ofBlock, Tree.leaves, hv.shape]

omit whole [LinearOrder α] [ExactScalar α] in
theorem StoresRows.mem_keys (hv : v.StoresRows T n s b) : Key.type T ∈ v.buffers.keys := by
  by_contra h
  have hstack := hv.stack
  rw [buffer, Buffers.buffer_of_not_mem h] at hstack
  cases hstack

end Received

/-! ## Three vectors of the plane -/

def trio : Vectors Catalogue ℚ :=
  ⟨.ofList [(.type (.real 2), .ofVectors (.type (.real 2)) (.reals (.generate [3, 2] fun k => k)))]⟩

/-- Two vectors for the third, and between them one for the first. -/
def mail : Delivery ℚ := ⟨3, .vector #[2, 0, 2], .reals (.generate [3, 2] fun k => k + 1)⟩

/-- The same in two portions: those for the third, the later one before the other, and that for the
first. -/
def portions : List (Delivery ℚ) :=
  [⟨2, .vector #[2, 2], .reals (.generate [2, 2] fun k => if k < 2 then k + 5 else k - 1)⟩,
    ⟨1, .vector #[0], .reals (.generate [1, 2] fun k => k + 3)⟩]

end Vectors

end LeastSquares
