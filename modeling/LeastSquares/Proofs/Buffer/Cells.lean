import LeastSquares.Proofs.Buffer.Interpretation
import LeastSquares.Proofs.Buffer.Rows

/-!
# Vectors on the cells of a layout

A collection within a layout is a function on the cells of the layout, in the sense of linear
algebra. Here the operations of collections are those of such functions.
-/

namespace LeastSquares.Vectors

variable {C α : Type} [DecidableEq C] [LinearOrder α] [ExactScalar α] {L : Layout C}

open Matrix

/-- The coordinates at the cells of a layout. -/
def onCells (v : Vectors C α) (L : Layout C) : L.cells → α := fun u => v.coordinate u

/-- The collection is a function on the cells of a layout, and nothing else. -/
structure Represents (v : Vectors C α) (L : Layout C) (f : L.cells → α) : Prop where
  within : v.Within L
  onCells_eq : v.onCells L = f

variable {v w : Vectors C α} {f g : L.cells → α}

theorem Represents.coordinate (h : v.Represents L f) (u : L.cells) : v.coordinate u = f u :=
  congrFun h.onCells_eq u

/-- Collections that are the same function have the same coordinates everywhere. -/
theorem Represents.coordinate_eq (hv : v.Represents L f) (hw : w.Represents L f)
    (u : Key C × Nat) : v.coordinate u = w.coordinate u := by
  by_cases hu : u ∈ L.cells
  · rw [hv.coordinate ⟨u, hu⟩, hw.coordinate ⟨u, hu⟩]
  · rw [hv.within.coordinate_eq_zero hu, hw.within.coordinate_eq_zero hu]

theorem Fills.represents (h : v.Fills L) (hf : ∀ u (hu : u ∈ L.cells), v.coordinate u = f ⟨u, hu⟩) :
    v.Represents L f := ⟨h.within, funext fun u => hf u u.2⟩

theorem sum_onCells (L : Layout C) (F : Key C × Nat → α) :
    ∑ u ∈ L.cells, F u = ∑ u : L.cells, F u := (Finset.sum_coe_sort L.cells F).symm

variable [FactorFamily C]

/-- Collections that are the same function are equal. -/
theorem Represents.equal (hv : v.Represents L f) (hw : w.Represents L f) : v.equal w = .ok true := by
  obtain ⟨r, hr, hiff⟩ := equal_of_within hv.within hw.within
  rw [hr, hiff.2 (funext (hv.coordinate_eq hw))]

theorem Represents.scaled (h : v.Represents L f) (s : α) :
    ∃ w, v.scaled s = .ok w ∧ w.Represents L (s • f) := by
  obtain ⟨w, hw, hwithin, hcoord⟩ := scaled_of_within h.within s
  refine ⟨w, hw, hwithin, funext fun u => ?_⟩
  show w.coordinate u = s * f u
  rw [hcoord, h.coordinate]

theorem Represents.neg (h : v.Represents L f) : ∃ w, v.neg = .ok w ∧ w.Represents L (-f) := by
  obtain ⟨w, hw, hwithin, hcoord⟩ := neg_of_within h.within
  refine ⟨w, hw, hwithin, funext fun u => ?_⟩
  show w.coordinate u = -f u
  rw [hcoord, h.coordinate]

theorem Represents.add (hv : v.Represents L f) (hw : w.Represents L g) :
    ∃ z, v.add w = .ok z ∧ z.Represents L (f + g) := by
  obtain ⟨z, hz, hwithin, hcoord⟩ := add_of_within hv.within hw.within
  refine ⟨z, hz, hwithin, funext fun u => ?_⟩
  show z.coordinate u = f u + g u
  rw [hcoord, hv.coordinate, hw.coordinate]

theorem Represents.sub (hv : v.Represents L f) (hw : w.Represents L g) :
    ∃ z, v.sub w = .ok z ∧ z.Represents L (f - g) := by
  obtain ⟨z, hz, hwithin, hcoord⟩ := sub_of_within hv.within hw.within
  refine ⟨z, hz, hwithin, funext fun u => ?_⟩
  show z.coordinate u = f u - g u
  rw [hcoord, hv.coordinate, hw.coordinate]

theorem Represents.increase {x d : Vectors C α} (hx : x.Fits L) (hd : d.Represents L f) :
    ∃ y, Vectors.increase d x = .ok () y ∧ y.Fits L ∧ (x.Within L → y.Within L) ∧
      (x.Fills L → y.Fills L) ∧ y.onCells L = x.onCells L + f := by
  obtain ⟨y, hy, hfits, hempty, hcoord⟩ := increase_of_fits hx hd.within
  have hwithin : x.Within L → y.Within L := fun h => ⟨hfits, fun key hkey => by
    rw [hempty, h.outside key hkey, hd.within.outside key hkey, Bool.and_self]⟩
  refine ⟨y, hy, hfits, hwithin, fun h => ⟨fun key hkey => ?_, (hwithin h.within).outside⟩,
    funext fun u => ?_⟩
  · obtain ⟨t, ht, -⟩ := h.holds key hkey
    refine (hfits key hkey).resolve_left ?_
    rw [hempty, ht.isEmpty, Bool.false_and]
    simp
  · show y.coordinate u = x.coordinate u + f u
    rw [hcoord, hd.coordinate]

theorem Represents.dot (hv : v.Represents L f) (hw : w.Represents L g) :
    v.dot w = .ok (f ⬝ᵥ g) := by
  have hdot := dot_of_fits hv.within.fits hw.within.fits fun key hkey =>
    .inl (hv.within.outside key hkey)
  rw [hdot, sum_onCells L fun u => v.coordinate u * w.coordinate u]
  refine congrArg Except.ok (Finset.sum_congr rfl fun u _ => ?_)
  rw [hv.coordinate, hw.coordinate]

theorem Represents.squaredNorm (h : v.Represents L f) : v.squaredNorm = .ok (f ⬝ᵥ f) := h.dot h

end LeastSquares.Vectors
