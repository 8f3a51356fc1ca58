import LeastSquares.Manifold.LieGroup

/-!
# Trees of arrays

A value with parts: a leaf, nothing, or a labelled node with children. Trees of one outline
differ in their leaves alone and can be combined leaf by leaf.
-/

namespace LeastSquares

inductive Label where
  | tuple
  | list
  /-- A record with these field names. -/
  | fields (names : List String)
  /-- An element of a group; its only child holds the parameters. -/
  | group (g : LieGroup)
  /-- A noise model given by its square root precision matrix. -/
  | fullNoise
  /-- A noise model given by the diagonal of its square root precision matrix. -/
  | diagonalNoise
  deriving DecidableEq

/-- A value with parts, with leaves in `β`. -/
inductive Tree (β : Type) where
  | leaf (b : β)
  | absent
  | node (label : Label) (children : List (Tree β))

/-- One step of a walk through a tree from the root, children in order. -/
inductive Mark where
  | leaf
  | absent
  | node (label : Label) (arity : Nat)
  deriving DecidableEq

namespace Tree

variable {β γ δ : Type}

def leaves : Tree β → List β
  | leaf b => [b]
  | absent => []
  | node _ cs => all cs
where
  all : List (Tree β) → List β
    | [] => []
    | c :: cs => c.leaves ++ all cs

/-- What is left of a tree without its leaves: the walk through it. -/
def outline : Tree β → List Mark
  | leaf _ => [.leaf]
  | absent => [.absent]
  | node l cs => .node l cs.length :: all cs
where
  all : List (Tree β) → List Mark
    | [] => []
    | c :: cs => c.outline ++ all cs

def map (f : β → γ) : Tree β → Tree γ
  | leaf b => leaf (f b)
  | absent => absent
  | node l cs => node l (all cs)
where
  all : List (Tree β) → List (Tree γ)
    | [] => []
    | c :: cs => c.map f :: all cs

/-- Each leaf replaced by its image, if it has one. -/
def traverse {m : Type → Type} [Monad m] (f : β → m γ) : Tree β → m (Tree γ)
  | leaf b => do return leaf (← f b)
  | absent => pure absent
  | node l cs => do return node l (← all cs)
where
  all : List (Tree β) → m (List (Tree γ))
    | [] => pure []
    | c :: cs => do
      let c ← c.traverse f
      return c :: (← all cs)

/-- Two trees of one outline combined leaf by leaf. -/
def zip? (f : β → γ → Option δ) : Tree β → Tree γ → Option (Tree δ)
  | leaf b, leaf c => (f b c).map leaf
  | absent, absent => some absent
  | node l cs, node l' ds => if l = l' then (all cs ds).map (node l) else none
  | _, _ => none
where
  all : List (Tree β) → List (Tree γ) → Option (List (Tree δ))
    | [], [] => some []
    | c :: cs, d :: ds => do
      let e ← c.zip? f d
      return e :: (← all cs ds)
    | _, _ => none

/-- A leaf of the first tree meets the subtree of the second in its place. -/
def graft? (f : β → Tree γ → Option δ) : Tree β → Tree γ → Option (Tree δ)
  | leaf b, t => (f b t).map leaf
  | absent, absent => some absent
  | node l cs, node l' ds => if l = l' then (all cs ds).map (node l) else none
  | _, _ => none
where
  all : List (Tree β) → List (Tree γ) → Option (List (Tree δ))
    | [], [] => some []
    | c :: cs, d :: ds => do
      let e ← c.graft? f d
      return e :: (← all cs ds)
    | _, _ => none

/-- The tree with its leaves replaced, in order, by those of a list; and what is left of the
list. -/
def refill? : Tree β → List γ → Option (Tree γ × List γ)
  | leaf _, x :: xs => some (leaf x, xs)
  | leaf _, [] => none
  | absent, xs => some (absent, xs)
  | node l cs, xs => do
    let (cs, xs) ← all cs xs
    return (node l cs, xs)
where
  all : List (Tree β) → List γ → Option (List (Tree γ) × List γ)
    | [], xs => some ([], xs)
    | c :: cs, xs => do
      let (c, xs) ← c.refill? xs
      let (cs, xs) ← all cs xs
      return (c :: cs, xs)

/-- The content of a tree that is a single leaf. -/
def single? : Tree β → Option β
  | leaf b => some b
  | _ => none

/-- Whether two trees are the same. -/
def same [DecidableEq β] : Tree β → Tree β → Bool
  | leaf b, leaf c => b = c
  | absent, absent => true
  | node l cs, node l' ds => decide (l = l') && all cs ds
  | _, _ => false
where
  all : List (Tree β) → List (Tree β) → Bool
    | [], [] => true
    | c :: cs, d :: ds => c.same d && all cs ds
    | _, _ => false

/-! ## Leaves and outlines -/

mutual

theorem leaves_map (f : β → γ) : (t : Tree β) → (t.map f).leaves = t.leaves.map f
  | leaf _ => rfl
  | absent => rfl
  | node _ cs => leaves_map_all f cs

theorem leaves_map_all (f : β → γ) :
    (cs : List (Tree β)) → leaves.all (map.all f cs) = (leaves.all cs).map f
  | [] => rfl
  | c :: cs => by
    rw [map.all, leaves.all, leaves.all, List.map_append, leaves_map f c, leaves_map_all f cs]

end

mutual

theorem same_iff [DecidableEq β] : (s t : Tree β) → (s.same t = true ↔ s = t)
  | leaf b, t => by cases t <;> simp [same]
  | absent, t => by cases t <;> simp [same]
  | node l cs, leaf _ => by simp [same]
  | node l cs, absent => by simp [same]
  | node l cs, node l' ds => by simp [same, same_all_iff cs ds]

theorem same_all_iff [DecidableEq β] :
    (cs ds : List (Tree β)) → (same.all cs ds = true ↔ cs = ds)
  | [], ds => by cases ds <;> simp [same.all]
  | c :: cs, [] => by simp [same.all]
  | c :: cs, d :: ds => by simp [same.all, same_iff c d, same_all_iff cs ds]

end

instance [DecidableEq β] : DecidableEq (Tree β) := fun s t =>
  decidable_of_iff _ (same_iff s t)

end Tree

end LeastSquares
