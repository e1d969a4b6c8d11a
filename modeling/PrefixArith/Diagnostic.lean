import PrefixArith.Fault
import PrefixArith.Text.Caret

namespace PrefixArith

structure Excerpt where
  source : String
  position : Nat
deriving Repr, DecidableEq

def Excerpt.text (x : Excerpt) : String :=
  "\n" ++ x.source ++ "\n" ++ Text.caretLine x.source x.position

structure Diagnostic where
  fault : Fault
  excerpt : Option Excerpt
deriving Repr, DecidableEq

namespace Diagnostic

def plain (fault : Fault) : Diagnostic := ⟨fault, none⟩

/-- A fault in a text; the excerpt points where the fault does. -/
def located (source : String) (fault : Fault) : Diagnostic :=
  ⟨fault, fault.position?.map fun p => ⟨source, p⟩⟩

def text (d : Diagnostic) : String :=
  d.fault.message ++ (d.excerpt.map Excerpt.text).getD ""

@[simp] theorem fault_located (source : String) (fault : Fault) :
    (located source fault).fault = fault := rfl

end Diagnostic

end PrefixArith
