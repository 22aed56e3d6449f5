import AddressedForms.Denotator.Order
set_option autoImplicit false

/-!
What a denotator depends on: the named denotators in its tree, each after those inside it, and the
forms of all of its nodes.
-/

namespace AddressedForms
namespace Denotator

def remember (d : Denotator) (known : List Denotator) : List Denotator :=
  if d.name.isSome ∧ d ∉ known then known ++ [d] else known

mutual
/-- Extends a list by the named denotators of a tree, factors first. -/
def dependencies : Denotator → List Denotator → List Denotator
  | .simple h m, known => remember (.simple h m) known
  | .limit h ds, known => remember (.limit h ds) (allDependencies ds known)
  | .colimit h i d, known => remember (.colimit h i d) (d.dependencies known)
  | .power h ds, known => remember (.power h ds) (allDependencies ds known)
  | .list h ds, known => remember (.list h ds) (allDependencies ds known)
def allDependencies : List Denotator → List Denotator → List Denotator
  | [], known => known
  | d :: ds, known => allDependencies ds (d.dependencies known)
end

mutual
def formDependencies (g : FormGraph) : Denotator → List FormId → List FormId
  | .simple h _, known => g.dependencies h.form known
  | .colimit h _ d, known => g.dependencies h.form (d.formDependencies g known)
  | .limit h ds, known | .power h ds, known | .list h ds, known =>
    g.dependencies h.form (allFormDependencies g ds known)
def allFormDependencies (g : FormGraph) : List Denotator → List FormId → List FormId
  | [], known => known
  | d :: ds, known => allFormDependencies g ds (d.formDependencies g known)
end

end Denotator
end AddressedForms
