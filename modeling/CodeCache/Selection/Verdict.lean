/-!
# Verdicts

What checking one version of a method came to.
-/

namespace CodeCache

inductive Verdict where
  | ok
  | badMetaArray
  | badOopArray
  | badRelocInfo
  | rejectedOpt
  | violatedDependency
  deriving DecidableEq, Repr, Inhabited

namespace Verdict

def name : Verdict → String
  | ok => "ok"
  | badMetaArray => "failed on meta array"
  | badOopArray => "failed on oop array"
  | badRelocInfo => "failed on reloc info"
  | rejectedOpt => "failed on opt record"
  | violatedDependency => "failed on dependency"

/-- Whether the failure holds for the rest of the process. A contradicted profile or a broken class
hierarchy does not heal; a class that is not initialized yet may be later. -/
def isPermanent : Verdict → Bool
  | rejectedOpt => true
  | violatedDependency => true
  | _ => false

end Verdict

end CodeCache
