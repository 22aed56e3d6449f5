import AddressedForms.Denotator.Basic
set_option autoImplicit false

/-!
The text of a denotator: one line for each node, factors two columns further to the right.
-/

namespace AddressedForms
namespace Denotator

def valueText (m : Morphism) : String :=
  match m.constantValue? with
  | some v => v.text
  | none => m.text

def line (g : FormGraph) (depth : Nat) (h : Head) (kind : Kind) (rest : String) : String :=
  String.ofList (List.replicate (2*depth) ' ') ++ h.name.getD "_" ++ ":" ++ g.nameOrId h.form ++
    " [" ++ kind.text ++ "]" ++ (if h.address.isNull then "" else " @ " ++ h.address.text) ++
    rest ++ "\n"

mutual
def lines (g : FormGraph) (depth : Nat) : Denotator → String
  | .simple h m => line g depth h .simple (" = " ++ valueText m)
  | .colimit h i d => line g depth h .colimit (" #" ++ toString i) ++ d.lines g (depth+1)
  | .limit h ds => line g depth h .limit "" ++ allLines g (depth+1) ds
  | .power h ds => line g depth h .power "" ++ allLines g (depth+1) ds
  | .list h ds => line g depth h .list "" ++ allLines g (depth+1) ds
def allLines (g : FormGraph) (depth : Nat) : List Denotator → String
  | [] => ""
  | d :: ds => d.lines g depth ++ allLines g depth ds
end

def text (g : FormGraph) (d : Denotator) : String := d.lines g 0

end Denotator
end AddressedForms
