/-!
Texts from documents whose escapes may name half of a surrogate pair, which is
no character. Such a text is kept as its codes.
-/
namespace Depot.Text

inductive Loose
  | plain (s : String)
  /-- Codes of which some are no characters. -/
  | codes (units : List Nat)
  deriving DecidableEq, Repr, Inhabited

namespace Loose

instance : Coe String Loose := ⟨plain⟩

instance : Coe (Option String) (Option Loose) := ⟨Option.map plain⟩

def units : Loose → List Nat
  | plain s => s.toList.map Char.toNat
  | codes units => units

def plainText? (units : List Nat) : Option String :=
  if units.all Nat.isValidChar then some (String.ofList (units.map Char.ofNat)) else none

def ofCodes (units : List Nat) : Loose :=
  match plainText? units with
  | some s => plain s
  | none => codes units

def text? : Loose → Option String
  | plain s => some s
  | codes units => plainText? units

def isEmpty : Loose → Bool
  | plain s => s = ""
  | codes units => units.isEmpty

def lossy : Loose → String
  | plain s => s
  | codes units => String.ofList (units.flatMap fun n =>
      if n.isValidChar then [Char.ofNat n] else List.replicate 3 '\uFFFD')

end Loose

end Depot.Text
