import LeastSquares.Proofs.Buffer.Store
import LeastSquares.Graph.Nonlinear
import LeastSquares.Catalogue

/-!
# Handles outside a store

A direct read refuses an index that is out of range. A stack of factors does not: when a graph is
evaluated, each handle is read as the handle in range that is nearest to it, and only a type without
values stops the evaluation.
-/

namespace LeastSquares

open Checked (Fails)

/-- A table is not made where an entry has no image. -/
theorem Table.fails_filterMapM {K V W : Type} [DecidableEq K] {f : K → V → Checked (Option W)}
    {t : Table K V} {key : K} {v : V} (hv : t.get? key = some v) (h : Fails (f key v)) :
    Fails (t.filterMapM f) :=
  Checked.fails_foldlM (Table.get?_eq_some_iff.1 hv) (fun _ => h.bind _) _

/-! ## Indices that find no row, and their nearest row -/

/-- The row among `n` that is nearest to an index. A negative index counts once from the end. -/
def nearestRow (n : Nat) (i : Int) : Nat := min (if i < 0 then i + n else i).toNat (n - 1)

theorem nearestRow_lt {n : Nat} (hn : 0 < n) (i : Int) : nearestRow n i < n := by
  unfold nearestRow
  omega

/-- What is moved to the nearest row stays there. -/
theorem locate_nearestRow (n : Nat) (i : Int) :
    Access.clamped.locate n (nearestRow n i) = Access.clamped.locate n i := by
  unfold Access.locate nearestRow
  by_cases hn : n = 0
  · simp only [if_pos hn]
  · simp only [if_neg hn, Option.some.injEq]
    omega

namespace Block

variable {α : Type} [Scalar α]

theorem take?_of_noRows {b : Block α} (hb : b.shape.head? = some 0) {t : Tensor Int}
    (ht : t.cells ≠ #[]) : b.take? .clamped (.ints t) = none := by
  have hlocate : t.cells.mapM (Access.clamped.locate 0) = none := by
    obtain ⟨i, rest, hcells⟩ := List.exists_cons_of_ne_nil (mt Array.toList_eq_nil_iff.1 ht)
    rw [Array.mapM_eq_mapM_toList, hcells]
    rfl
  have htake : ∀ {γ : Type} [Inhabited γ] (u : Tensor γ), u.shape.head? = some 0 →
      u.take? .clamped t = none := by
    intro γ _ u hu
    cases hshape : u.shape with
    | nil => rw [hshape] at hu; cases hu
    | cons n tail =>
      rw [hshape] at hu
      obtain rfl := Option.some.inj hu
      simp only [Tensor.take?, hshape, hlocate]
      rfl
  cases b with
  | bools u => exact congrArg (Option.map bools) (htake u hb)
  | ints u => exact congrArg (Option.map ints) (htake u hb)
  | reals u => exact congrArg (Option.map reals) (htake u hb)

/-- Rows are taken at the places nearest to the indices. -/
theorem take?_nearestRow {b : Block α} {n : Nat} (hb : b.shape.head? = some n) (t : Tensor Int) :
    b.take? .clamped (.ints (t.map fun i => nearestRow n i)) = b.take? .clamped (.ints t) := by
  have hlocate : (t.map fun i => (nearestRow n i : Int)).cells.mapM (Access.clamped.locate n) =
      t.cells.mapM (Access.clamped.locate n) := by
    show (t.cells.map fun i => (nearestRow n i : Int)).mapM (Access.clamped.locate n) = _
    rw [Array.mapM_map]
    exact congrArg (t.cells.mapM ·) (funext fun i => locate_nearestRow n i)
  have htake : ∀ {γ : Type} [Inhabited γ] (u : Tensor γ), u.shape.head? = some n →
      u.take? .clamped (t.map fun i => (nearestRow n i : Int)) = u.take? .clamped t := by
    intro γ _ u hu
    cases hshape : u.shape with
    | nil => rw [hshape] at hu; cases hu
    | cons m tail =>
      rw [hshape] at hu
      obtain rfl := Option.some.inj hu
      simp only [Tensor.take?, hshape, hlocate]
      rfl
  cases b with
  | bools u => exact congrArg (Option.map bools) (htake u hb)
  | ints u => exact congrArg (Option.map ints) (htake u hb)
  | reals u => exact congrArg (Option.map reals) (htake u hb)

end Block

/-! ## Reading -/

namespace Store

variable {C α : Type} [DecidableEq C] [Scalar α] {s : Store C α}

/-- Elements that are values, as they are found on the device. -/
def foundOnDevice : Stack C α → Checked (Found α)
  | .values v => .ok ⟨v, .clamped⟩
  | .factors _ => misfit

/-- The elements of a buffer on the device that the indices of a stack name. -/
def taken (s : Store C α) (a : Handle (Block α)) : Checked (Stack C α) :=
  Buffer.get { s.buffer (.type a.type) with place := .device } (.array .device a.index)

/-- What the handles of a stack, or of a factor of a stack, read in a store. No index is checked. -/
theorem bulk_inStack (s : Store C α) (a : Handle (Block α)) :
    s.bulk a.inStack = require (.storedType a.type.name) (s.buffers.contains (.type a.type)) >>=
      fun _ => s.taken a >>= foundOnDevice := by
  have hbuffer : s.buffers.onDevice.buffer (.type a.type) =
      { s.buffer (.type a.type) with place := .device } := Vectors.buffer_onDevice s.buffers _
  have hcontains : s.buffers.onDevice.contains (.type a.type) = s.buffers.contains (.type a.type) := by
    rw [Table.contains, Table.contains, Buffers.onDevice, Table.keys_map_eq]
  unfold bulk read checkedBuffer Handle.inStack
  simp only [Store.buffer, hcontains]
  cases s.buffers.contains (.type a.type) with
  | false => rfl
  | true =>
    simp only [require_true, Checked.ok_bind, Checked.pure_eq_ok, hbuffer]
    rfl

theorem taken_values {a : Handle (Block α)} {v : Value α}
    (hstack : (s.buffer (.type a.type)).stack = some (.values v)) :
    s.taken a = fitting (v.traverse (·.take? .clamped a.index)) >>= fun w => .ok (.values w) := by
  unfold taken Buffer.get
  simp only [hstack]
  show ((v.traverse fun b => fitting (b.take? .clamped a.index)) : Checked (Value α)) >>= _ = _
  rw [Tree.traverse_fitting]
  rfl

/-- No value is read where none is stored. -/
theorem fails_bulk {a : Handle (Block α)} (hcount : (s.buffer (.type a.type)).count = .ok 0)
    {t : Tensor Int} (ha : a.index = .ints t) (ht : t.cells ≠ #[]) : Fails (s.bulk a.inStack) := by
  rw [bulk_inStack]
  refine Checked.fails_bind fun _ _ => ?_
  cases hstack : (s.buffer (.type a.type)).stack with
  | none =>
    refine Checked.Fails.bind ⟨.broken .readStored, ?_⟩ _
    unfold taken Buffer.get
    simp only [hstack]
  | some stack =>
    cases stack with
    | factors f =>
      refine Checked.fails_bind fun stack htaken => ?_
      unfold taken Buffer.get at htaken
      simp only [hstack] at htaken
      obtain ⟨g, -, htaken⟩ := Checked.bind_eq_ok htaken
      cases htaken
      exact ⟨_, rfl⟩
    | values v =>
      refine Checked.Fails.bind ?_ _
      rw [taken_values hstack]
      rw [Buffer.count, hstack] at hcount
      obtain ⟨leaf, hleaf, hcount⟩ := Checked.bind_eq_ok hcount
      obtain ⟨rest, hrest⟩ := List.head?_eq_some_iff.1 (fitting_eq_ok hleaf)
      cases htraverse : v.traverse (·.take? .clamped a.index) with
      | none => exact ⟨_, rfl⟩
      | some w =>
        -- each leaf would have been read, and the first one has no rows
        have hreads := (Tree.traverse_spec v htraverse).2
        rw [hrest] at hreads
        obtain ⟨first, -, hread, -, -⟩ := List.forall₂_cons_left_iff.1 hreads
        rw [ha, Block.take?_of_noRows (fitting_eq_ok hcount) ht] at hread
        cases hread

/-- The arrays of each type have a row for each value. -/
def Level (s : Store C α) : Prop :=
  ∀ T, (s.buffer (.type T)).stack = none ∨ ∃ v, (s.buffer (.type T)).stack = some (.values v) ∧
    ∀ leaf ∈ v.leaves, leaf.shape.head? = some (s.layout.rows (.type T))

theorem WellFormed.level (hs : s.WellFormed) : s.Level := by
  intro T
  by_cases hT : Key.type T ∈ s.buffers.keys
  · have h := hs.stores (List.mem_toFinset.2 hT)
    exact .inr ⟨_, h.stack, (Value.rowCount_eq_ok.1 h.rowCount).2⟩
  · exact .inl (by rw [buffer, Buffers.buffer_of_not_mem hT]; rfl)

/-- Reading for a stack, with each index moved to the nearest row of its type. -/
def nearest (s : Store C α) : Reader α := fun h =>
  match h.index with
  | .array .device (.ints t) =>
    let index := t.map fun i => (nearestRow (s.layout.rows (.type h.type)) i : Int)
    s.bulk ⟨h.type, .array .device (.ints index)⟩
  | _ => s.bulk h

/-- Reading for a stack moves each index to the nearest row of its type. -/
theorem Level.bulk_eq_nearest (hs : s.Level) : s.bulk = s.nearest := by
  funext h
  unfold nearest
  split
  next t ht =>
    obtain ⟨T, index⟩ := h
    obtain rfl : index = .array .device (.ints t) := ht
    show s.bulk (Handle.inStack ⟨T, .ints t⟩) = s.bulk (Handle.inStack ⟨T, .ints _⟩)
    rw [bulk_inStack, bulk_inStack]
    refine bind_congr fun _ => congrArg (· >>= foundOnDevice) ?_
    rcases hs T with hnone | ⟨v, hstack, hrows⟩
    · unfold taken Buffer.get
      simp only [hnone]
    · rw [taken_values hstack, taken_values hstack]
      refine congrArg (fun x => fitting x >>= fun w => Except.ok (Stack.values w)) ?_
      exact Tree.traverse_congr v fun leaf hleaf => (Block.take?_nearestRow (hrows leaf hleaf) t).symm
  next => rfl

/-- A direct read refuses an index that is out of range. -/
theorem read_outside {T : VariableType} {i : Int} {n : Nat}
    (hT : Key.type T ∈ s.buffers.keys) (hn : (s.buffer (.type T)).count = .ok n)
    (hi : ¬(0 ≤ i ∧ i < n)) :
    s.read ⟨T, .int i⟩ = .error (.broken (.handleInRange (Handle.text (α := α) ⟨T, .int i⟩) n)) := by
  unfold read checkedBuffer
  simp only [Table.contains_iff.2 hT, require_true, Checked.ok_bind, hn]
  simp [require, hi]

end Store

/-! ## Evaluating graphs -/

namespace Factor

variable {C α : Type} [DecidableEq C] [FactorFamily C] [Scalar α] {s : Store C α} {f : FactorStack C α}
  {n : Nat}

/-- A stack has a handle of a type without values. -/
def Stranded (f : FactorStack C α) (s : Store C α) (n : Nat) : Prop :=
  f.rowCount = .ok n ∧ 0 < n ∧ ∃ a ∈ f.handles, (s.buffer (.type a.type)).count = .ok 0 ∧
    ∃ t : Tensor Int, a.index = .ints t ∧ t.shape = [n]

omit [FactorFamily C] in
theorem Stranded.fails_values (h : f.Stranded s n) : Fails (f.values s.bulk) := by
  obtain ⟨-, hn, a, ha, hcount, t, ht, hshape⟩ := h
  refine Checked.fails_mapM ha (Store.fails_bulk hcount ht fun hcells => ?_)
  have hsize := t.size_eq
  rw [hcells, hshape] at hsize
  simp [Shape.volume] at hsize
  omega

omit [FactorFamily C] in
theorem Stranded.fails_overRows (h : f.Stranded s n) {β : Type}
    (rule : FactorStack C α → List (Found α) → Checked β) : Fails (f.overRows s.bulk rule) := by
  obtain ⟨hrows, hn, a, ha, hcount, t, ht, hshape⟩ := h
  have hlist : f.rows = .ok ((List.range n).map f.row) := by
    rw [rows, hrows]
    rfl
  have hmem : f.row 0 ∈ (List.range n).map f.row := List.mem_map_of_mem (List.mem_range.2 hn)
  have hhandle : (⟨a.type, a.index.row 0⟩ : Handle (Block α)) ∈ (f.row 0).handles :=
    List.mem_map_of_mem ha
  have hvalues : Fails ((f.row 0).values s.bulk) := by
    refine Checked.fails_mapM hhandle (Store.fails_bulk (t := t.row 0) hcount ?_ fun hcells => ?_)
    · show a.index.row 0 = _
      rw [ht]
      rfl
    · have hsize := (t.row 0).size_eq
      rw [hcells, Tensor.shape_row, hshape] at hsize
      cases hsize
  unfold overRows
  rw [hlist]
  exact Checked.fails_mapM hmem (hvalues.bind _)

theorem Stranded.fails_stackLinearized (h : f.Stranded s n) : Fails (f.stackLinearized s.bulk) := by
  unfold stackLinearized
  split
  · exact h.fails_values.bind _
  · exact (h.fails_overRows _).bind _

end Factor

namespace FactorGraph

variable {C α : Type} [DecidableEq C] [FactorFamily C] [Scalar α] {graph : FactorGraph C α}
  {s : Store C α}

/-- The gradients of all groups that have residuals, added up. -/
def gradientFrom (graph : FactorGraph C α) (read : Reader α) (zeros : Vectors C α) :
    Checked (Vectors C α) :=
  graph.buffers.entries.foldlM
    (fun out e => if e.2.hasResiduals then e.2.factors >>= fun f => f.stackGradient read out
      else .ok out) zeros

/-- A stack of factors with residuals has a handle of a type without values. -/
def Stranded (graph : FactorGraph C α) (s : Store C α) : Prop :=
  ∃ key b f n, graph.buffers.get? key = some b ∧ b.hasResiduals = true ∧ b.factors = .ok f ∧
    f.Stranded s n

/-- No evaluation returns where a factor is without values. -/
theorem Stranded.fails (h : graph.Stranded s) : Fails (graph.error s.bulk) ∧
    Fails (graph.residuals s.bulk) ∧ Fails (graph.gradient s) ∧ Fails (graph.linearize s) := by
  obtain ⟨key, b, f, n, hb, hresiduals, hf, hstranded⟩ := h
  have hmem := Table.get?_eq_some_iff.1 hb
  refine ⟨Checked.fails_foldlM hmem (fun total => ?_) _, ?_, ?_, ?_⟩
  · simp only [hf, Checked.ok_bind]
    exact ((hstranded.fails_overRows _).bind _).bind _ |>.bind _
  · refine Checked.Fails.bind (Table.fails_filterMapM hb ?_) _
    simp only [hresiduals, if_true, hf, Checked.ok_bind]
    exact ((hstranded.fails_overRows _).bind _).bind _
  · refine Checked.fails_bind fun zeros _ => Checked.fails_foldlM hmem (fun out => ?_) _
    simp only [hresiduals, if_true, hf, Checked.ok_bind]
    exact (hstranded.fails_overRows _).bind _
  · refine Checked.Fails.bind (Table.fails_filterMapM hb ?_) _
    simp only [hresiduals, if_true, hf, Checked.ok_bind]
    exact hstranded.fails_stackLinearized.bind _

/-- Where a factor has a handle of a type without values, no evaluation returns. Any other index is
moved to the nearest row of its type, and the evaluations are those at these rows; a direct read would
have refused it. -/
theorem evaluates_nearest (hs : s.Level) (graph : FactorGraph C α) :
    (graph.Stranded s → Fails (graph.error s.bulk) ∧ Fails (graph.residuals s.bulk) ∧
      Fails (graph.gradient s) ∧ Fails (graph.linearize s)) ∧
    (graph.error s.bulk = graph.error s.nearest ∧
      graph.residuals s.bulk = graph.residuals s.nearest ∧
      graph.gradient s = s.tangentZeros >>= graph.gradientFrom s.nearest ∧
      graph.linearStacks s.bulk = graph.linearStacks s.nearest) ∧
    ∀ T i n, Key.type T ∈ s.buffers.keys → (s.buffer (.type T)).count = .ok n → 0 < n →
      nearestRow n i < n ∧
        s.bulk ⟨T, .array .device (.int i)⟩ =
          s.bulk ⟨T, .array .device (.int (nearestRow n i))⟩ ∧
        (¬(0 ≤ i ∧ i < n) → s.read ⟨T, .int i⟩ =
          .error (.broken (.handleInRange (Handle.text (α := α) ⟨T, .int i⟩) n))) := by
  have hread := hs.bulk_eq_nearest
  refine ⟨Stranded.fails, ⟨?_, ?_, ?_, ?_⟩, fun T i n hT hn hpositive =>
    ⟨nearestRow_lt hpositive i, ?_, Store.read_outside hT hn⟩⟩
  · rw [hread]
  · rw [hread]
  · rw [← hread]
    rfl
  · rw [hread]
  · have hrows : s.layout.rows (.type T) = n := by
      show (s.buffer (.type T)).count.toOption.getD 0 = n
      rw [hn]
      rfl
    have hscalar : (Tensor.scalar i).map (fun j => (nearestRow n j : Int)) =
        .scalar (nearestRow n i : Int) := by
      simp [Tensor.map, Tensor.scalar]
    refine (congrFun hread _).trans ?_
    show s.bulk ⟨T, .array .device (.ints ((Tensor.scalar i).map fun j =>
      (nearestRow (s.layout.rows (.type T)) j : Int)))⟩ = _
    rw [hrows, hscalar]
    rfl

/-! ## A factor that belongs to another store -/

/-- A store without values. -/
def vacant : Store Catalogue ℚ := .empty

/-- The number two. -/
def two : Literal ℚ := .leaf (.array .host (.full [1] (1 + 1)))

/-- A store with the number two. -/
def lone : Store Catalogue ℚ where
  buffers := Table.empty.insert (.type (.real 1))
    { stack := some (.values (two.map fun x => x.block?.elim (.zeros []) Block.lifted))
      content := some (.values (.real 1))
      place := .host }

theorem lone_wellFormed : lone.WellFormed := by
  refine Table.forall_get? ?_
  rw [show lone.buffers.entries = [_] from rfl, List.forall_mem_singleton]
  exact ⟨.real 1, _, 1, rfl, rfl, rfl, rfl, by omega, fun _ => rfl⟩

/-- A factor on the eighth number of a store. -/
def astray : FactorLiteral Catalogue ℚ :=
  ⟨.jacobian, [⟨.real 1, .int 7⟩],
    [.node .tuple [.leaf (.array .host (.full [1, 1] 1))], .leaf (.array .host (.full [1] 0))]⟩

def astrayStack : FactorStack Catalogue ℚ :=
  ⟨.jacobian, [⟨.real 1, .ints (.generate [1] fun _ => 7)⟩],
    [.node .tuple [.leaf (.full [1, 1, 1] 1)], .leaf (.full [1, 1] 0)]⟩

/-- A graph with that factor. -/
def strayed : FactorGraph Catalogue ℚ where
  buffers := Table.empty.insert (.group (.ofItems astray))
    { stack := some (.factors astrayStack)
      content := some (.factors .jacobian)
      place := .host }

/-- The store has one number, and a graph on its eighth is evaluated in full. -/
theorem strayed_evaluates : Store.empty.insert two (some (.real 1)) = .ok (lone, ⟨.real 1, .int 0⟩) ∧
    FactorGraph.empty.insert astray = .ok strayed ∧
    lone.read ⟨.real 1, .int 7⟩ =
      .error (.broken (.handleInRange "TypedHandle(RealVectorVariable[1], 7)" 1)) ∧
    strayed.error lone.bulk = .ok 2 ∧ (strayed.residuals lone.bulk).isOk = true ∧
    (strayed.gradient lone).isOk = true ∧ (strayed.linearize lone).isOk = true :=
  ⟨rfl, rfl, rfl, by decide +kernel, by decide +kernel, by decide +kernel, by decide +kernel⟩

/-- Without numbers no evaluation returns; otherwise the eighth is read as the only one. -/
theorem strayed_nearest : (Fails (strayed.error vacant.bulk) ∧
      Fails (strayed.residuals vacant.bulk) ∧ Fails (strayed.gradient vacant) ∧
      Fails (strayed.linearize vacant)) ∧
    strayed.error lone.bulk = strayed.error lone.nearest ∧
    lone.bulk ⟨.real 1, .array .device (.int 7)⟩ = lone.bulk ⟨.real 1, .array .device (.int 0)⟩ ∧
    lone.read ⟨.real 1, .int 7⟩ =
      .error (.broken (.handleInRange "TypedHandle(RealVectorVariable[1], 7)" 1)) := by
  have hempty : vacant.Level := fun T => .inl rfl
  have hstranded : strayed.Stranded vacant :=
    ⟨.group (.ofItems astray), _, astrayStack, 1, rfl, rfl, rfl, rfl, by omega, ⟨.real 1, _⟩,
      List.mem_singleton.2 rfl, rfl, _, rfl, rfl⟩
  have hnear := evaluates_nearest lone_wellFormed.level strayed
  obtain ⟨-, hbulk, hread⟩ := hnear.2.2 (.real 1) 7 1 (by decide +kernel) rfl (by omega)
  exact ⟨(evaluates_nearest hempty strayed).1 hstranded, hnear.2.1.1, hbulk, hread (by omega)⟩

end FactorGraph

end LeastSquares
