import LeastSquares.Proofs.Graph.DesignMatrix
import LeastSquares.Catalogue

/-!
# The adjoint of the forward map

The forward map gathers, stack by stack, and the adjoint scatters into one table for each variable
type. They are adjoint to each other in the inner product of collections, whichever variables the
factors share and whichever operands are missing.
-/

namespace LeastSquares.LinearGraph

variable {C α : Type} [DecidableEq C] [FactorFamily C] [LinearOrder α] [ExactScalar α]
  {g : LinearGraph C α}

/-- `⟨A x, y⟩ = ⟨x, Aᵀ y⟩`. All four operations succeed. -/
theorem WellFormed.forward_dot_eq_dot_adjoint (hg : g.WellFormed) {x y : Vectors C α}
    (hx : x.Fits g.unknowns) (hy : y.Fits g.equations) :
    ∃ ax aty d, g.forward x.bulk = .ok ax ∧ g.adjoint y.buffers = .ok aty ∧
      ax.dot y = .ok d ∧ x.dot aty = .ok d := by
  obtain ⟨ax, hax, haxfills, haxcoord⟩ := hg.forward hx
  obtain ⟨aty, haty, hatyfills, hatycoord⟩ := hg.adjoint hy
  have hleft := Vectors.dot_of_fits haxfills.within.fits hy
    fun key hkey => .inl (haxfills.outside key hkey)
  have hright := Vectors.dot_of_fits hx hatyfills.within.fits
    fun key hkey => .inr (hatyfills.outside key hkey)
  refine ⟨ax, aty, _, hax, haty, hleft, hright.trans (congrArg Except.ok ?_)⟩
  calc ∑ u ∈ g.unknowns.cells, x.coordinate u * aty.coordinate u
      = ∑ u ∈ g.unknowns.cells, ∑ e ∈ g.equations.cells,
          x.coordinate u * (y.coordinate e * g.coefficient e u) := by
        refine Finset.sum_congr rfl fun u hu => ?_
        rw [hatycoord u hu, Finset.mul_sum]
    _ = ∑ e ∈ g.equations.cells, ∑ u ∈ g.unknowns.cells,
          x.coordinate u * (y.coordinate e * g.coefficient e u) := Finset.sum_comm
    _ = ∑ e ∈ g.equations.cells, ax.coordinate e * y.coordinate e := by
        refine Finset.sum_congr rfl fun e he => ?_
        rw [haxcoord e he, Finset.sum_mul]
        exact Finset.sum_congr rfl fun u _ => by ring

/-! ## A graph with shared variables -/

/-- The key of the factors on two numbers. -/
def pairKey : Key Catalogue :=
  .group ⟨.jacobian, [.real 1, .real 1], [[.node .tuple 2, .leaf, .leaf], [.leaf]],
    [[], [], [1, 1], [1, 1], [1]]⟩

/-- The key of the factor on one number. -/
def singleKey : Key Catalogue := .group ⟨.scalarJacobian, [.real 1], [[.leaf]], [[], []]⟩

/-- Two numbers, in three equations. The first stack reads the first number and the second, then
the second twice; the second stack reads the last number, by a negative index. -/
noncomputable def sharing : LinearGraph Catalogue ℝ where
  buffers :=
    { entries :=
        [(pairKey, .of (.factors
            { kind := .jacobian
              handles := [⟨.real 1, .ints (.generate [2] fun i => i)⟩,
                ⟨.real 1, .ints (.generate [2] fun _ => 1)⟩]
              fields := [.node .tuple [.leaf (.full [2, 1, 1] 1), .leaf (.full [2, 1, 1] (-1))],
                .leaf (.full [2, 1] 1)] }) (.factors .jacobian)),
         (singleKey, .of (.factors
            { kind := .scalarJacobian
              handles := [⟨.real 1, .ints (.generate [1] fun _ => -1)⟩]
              fields := [.leaf (.full [1] (-1))] }) (.factors .scalarJacobian))]
      distinct := by decide }
  template := ⟨.ofList [(.type (.real 1), .tangentZeros (.real 1) 2)]⟩

theorem sharing_addresses {n : Nat} {index : Nat → Int}
    (h : ∀ i, i < n → ∃ place, target 2 (index i) = some place) :
    Handle.Addresses (α := ℝ) ⟨.real 1, .ints (.generate [n] index)⟩ sharing.unknowns n :=
  Handle.addresses_generate (Finset.mem_singleton.2 rfl) h

theorem sharing_wellFormed : sharing.WellFormed where
  template key b hb := by
    obtain ⟨rfl, rfl⟩ : key = .type (.real 1) ∧ b = .tangentZeros (.real 1) 2 := by
      have hmem : (key, b) ∈ [(Key.type (.real 1), Buffer.tangentZeros (.real 1) 2)] :=
        Table.get?_eq_some_iff.1 hb
      simpa using hmem
    refine .inr ⟨.real 1, 2, _, rfl, ⟨rfl, rfl⟩, rfl, fun k hk => ?_⟩
    exact (Tensor.entry_generate hk).trans Scalar.zero_eq
  groups key b hb := by
    rcases List.mem_cons.1 (Table.get?_eq_some_iff.1 hb) with h | h
    · obtain ⟨rfl, rfl⟩ := Prod.mk.inj h
      refine ⟨_, 2, 1, rfl, by omega, ?_⟩
      show Factor.Linear _ 2 ⟨.jacobian, _, [.node _ (List.map .leaf [_, _]), .leaf _]⟩ 1
      refine .jacobian (by simp) ?_ rfl ?_
      · exact .cons rfl (.cons rfl .nil)
      · intro a ha
        rcases List.mem_cons.1 ha with rfl | ha
        · exact sharing_addresses fun i hi => ⟨i, Access.locate_of_lt hi⟩
        · obtain rfl := List.mem_singleton.1 ha
          exact sharing_addresses fun i _ => ⟨1, rfl⟩
    · obtain ⟨rfl, rfl⟩ := Prod.mk.inj (List.mem_singleton.1 h)
      exact ⟨_, 1, 1, rfl, by omega, .scalarJacobian rfl (sharing_addresses fun _ _ => ⟨1, rfl⟩)⟩

/-- The numbers one and two. -/
noncomputable def sharedPoint : Vectors Catalogue ℝ :=
  ⟨.ofList [(.type (.real 1), .ofVectors (.type (.real 1)) (.reals (.generate [2, 1] (· + 1))))]⟩

theorem sharedPoint_fits : sharedPoint.Fits sharing.unknowns := by
  intro key hkey
  obtain rfl : key = .type (.real 1) := Finset.mem_singleton.1 hkey
  exact .inr ⟨_, ⟨rfl, rfl⟩, rfl⟩

/-- A residual of the second stack, and none of the first. -/
noncomputable def partialResidual : Vectors Catalogue ℝ :=
  ⟨.ofList [(singleKey, .ofVectors singleKey (.full [1, 1] 1))]⟩

theorem partialResidual_fits : partialResidual.Fits sharing.equations := by
  intro key hkey
  have hkey : key ∈ [pairKey, singleKey] := List.mem_toFinset.1 hkey
  rcases List.mem_cons.1 hkey with rfl | hkey
  · exact .inl rfl
  · obtain rfl := List.mem_singleton.1 hkey
    exact .inr ⟨_, ⟨rfl, rfl⟩, rfl⟩

theorem sharing_forward_dot : ∃ ax aty d, sharing.forward sharedPoint.bulk = .ok ax ∧
    sharing.adjoint partialResidual.buffers = .ok aty ∧ ax.dot partialResidual = .ok d ∧
      sharedPoint.dot aty = .ok d :=
  sharing_wellFormed.forward_dot_eq_dot_adjoint sharedPoint_fits partialResidual_fits

end LeastSquares.LinearGraph
