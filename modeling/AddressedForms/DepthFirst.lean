set_option autoImplicit false

/-!
Depth-first search of a finite graph. Vertices are listed when they are finished, so a vertex
follows all it leads to except where an edge leads back onto the path of the search; the targets of
such edges are kept apart.
-/

namespace AddressedForms

structure Walk (α : Type) where
  finished : List α
  /-- Vertices at which a cycle was seen to close. -/
  closing : List α

namespace Walk
variable {α : Type} [DecidableEq α]

def empty : Walk α := ⟨[],[]⟩

def finish (w : Walk α) (x : α) : Walk α := {w with finished := w.finished ++ [x]}

def close (w : Walk α) (x : α) : Walk α :=
  if x ∈ w.closing then w else {w with closing := w.closing ++ [x]}

/-- Searches from `x` at the end of `path`; the fuel bounds the length of the path. -/
def visit (next : α → List α) : Nat → List α → α → Walk α → Walk α
  | 0, _, _, w => w
  | fuel+1, path, x, w =>
    if x ∈ w.finished then w
    else if x ∈ path then w.close x
    else ((next x).foldl (fun v y => visit next fuel (x :: path) y v) w).finish x

def visitAll (next : α → List α) (fuel : Nat) (xs : List α) (w : Walk α) : Walk α :=
  xs.foldl (fun v x => visit next fuel [] x v) w

end Walk
end AddressedForms
