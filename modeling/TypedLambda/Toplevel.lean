import TypedLambda.Evaluation.Run
import TypedLambda.Script

/-!
# The top level

Checking and running a term under a context whose named terms are in sight. They are
folded around the term as a script before anything else happens.
-/

namespace TypedLambda.Toplevel

def fold (settings : Settings) (Γ : Context) (term : Term) : Except Fault Term :=
  match Γ.named with
  | [] => .ok term
  | named => Script.fold settings.detectAliasCycles Γ.withoutNamed ⟨named, term⟩

def announce {α : Type} (term : Term) (outcome : Except Fault α) : Logged α :=
  match outcome with
  | .error (.illTyped error) => ⟨outcome, [.rejected term error]⟩
  | _ => ⟨outcome, []⟩

/-- The type of a term under a context. An error is announced for the folded term, or for
the term itself when a named term is at fault. -/
def typeOf (settings : Settings) (Γ : Context) (term : Term) : Logged Ty :=
  match fold settings Γ term with
  | .error fault => announce term (.error fault)
  | .ok folded =>
      announce folded (folded.infer settings.detectAliasCycles Γ.withoutNamed)

def evaluate (settings : Settings) (fuel : Nat) (Γ : Context) (term : Term) : Logged Term :=
  match fold settings Γ term with
  | .error fault => ⟨.error fault, []⟩
  | .ok folded => folded.evaluate settings fuel

end TypedLambda.Toplevel
