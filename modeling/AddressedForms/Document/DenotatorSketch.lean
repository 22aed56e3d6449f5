import AddressedForms.Document.Error
import AddressedForms.Document.Node
set_option autoImplicit false

/-!
Sketches of denotators, as a document gives them. The first denotator of a name defines it, wherever
it stands; a later one is a duplicate, which is built in its place and defines nothing.
-/

namespace AddressedForms

inductive DenotatorSketch where
  /-- What the name stands for. -/
  | use (name : String)
  /-- The definition of the name. -/
  | define (name : String) (node : Node) (parts : List DenotatorSketch)
  | inline (node : Node) (parts : List DenotatorSketch)

structure DenotatorDefinition where
  node : Node
  parts : List DenotatorSketch

namespace DenotatorSketch

mutual
/-- Sketches a node when some names are taken already. -/
def ofNode (taken : List String) : Node → DenotatorSketch × List String
  | ⟨tag,attrs,children⟩ =>
    match attrs.get? "ref" with
    | some name => (.use name,taken)
    | none =>
      match attrs.get? "name" with
      | none =>
        let (parts,later) := ofNodes taken children
        (.inline ⟨tag,attrs,children⟩ parts,later)
      | some name =>
        if name ∈ taken then
          let (parts,later) := ofNodes taken children
          (.inline ⟨tag,attrs,children⟩ parts,later)
        else
          let (parts,later) := ofNodes (name :: taken) children
          (.define name ⟨tag,attrs,children⟩ parts,later)
/-- Only denotators are parts of a denotator. -/
def ofNodes (taken : List String) : List Node → List DenotatorSketch × List String
  | [] => ([],taken)
  | n :: ns =>
    if n.tag = "Denotator" then
      let (s,later) := ofNode taken n
      let (ss,last) := ofNodes later ns
      (s :: ss,last)
    else ofNodes taken ns
end

mutual
/-- Names that were taken when they were given again. -/
def duplicates : DenotatorSketch → List String
  | .use _ => []
  | .define _ _ parts => allDuplicates parts
  | .inline node parts => node.name?.toList ++ allDuplicates parts
def allDuplicates : List DenotatorSketch → List String
  | [] => []
  | s :: ss => s.duplicates ++ allDuplicates ss
end

mutual
def definitions : DenotatorSketch → List (String × DenotatorDefinition)
  | .use _ => []
  | .define name node parts => (name,⟨node,parts⟩) :: allDefinitions parts
  | .inline _ parts => allDefinitions parts
def allDefinitions : List DenotatorSketch → List (String × DenotatorDefinition)
  | [] => []
  | s :: ss => s.definitions ++ allDefinitions ss
end

mutual
/-- The names whose values it takes to build the sketch. -/
def uses : DenotatorSketch → List String
  | .use name => [name]
  | .define name _ _ => [name]
  | .inline _ parts => allUses parts
def allUses : List DenotatorSketch → List String
  | [] => []
  | s :: ss => s.uses ++ allUses ss
end

end DenotatorSketch
end AddressedForms
