import CodeCache.Selection.Check

/-!
# Selecting a version

The versions of a method are checked in the order of their chain. After each one the policy says
whether to go on, and in the end it picks one of those that passed. Versions that failed for good
are reported, so that they need not be checked again; if all of them did, the method does without
the cache.
-/

namespace CodeCache

namespace RevivePolicy

def scansOn (p : RevivePolicy) (version candidates : Nat) : Bool :=
  match p with
  | first => candidates == 0
  | random => true
  | appointed n => version < n || candidates == 0

def choose (p : RevivePolicy) (draw : Nat) (candidates : List VersionState) :
    Option VersionState :=
  match p with
  | first => candidates.head?
  | random => candidates[draw % candidates.length]?
  | appointed n => (candidates.find? (·.version == n)).or candidates.head?

end RevivePolicy

structure Selection.Scan where
  candidates : List VersionState := []
  unusable : List Nat := []
  /-- No version so far may ever be usable. -/
  allUnusable : Bool := true
  scannedAll : Bool := true
  checked : Nat := 0

structure Selection where
  selected : Option VersionState := none
  unusable : List Nat := []
  disable : Bool := false
  checked : Nat := 0
  deriving DecidableEq, Repr

namespace Selection

def Scan.record (s : Scan) (state : VersionState) : Scan :=
  if state.isValid then
    { s with candidates := s.candidates ++ [state], allUnusable := false }
  else if state.verdict.isPermanent then { s with unusable := s.unusable ++ [state.version] }
  else { s with allUnusable := false }

def scan (ctx : ReviveContext) (o : Options) (usable : Nat → Bool) :
    Nat → Scan → List (Except Error Blob) → InSpace Scan
  | _, s, [] => pure s
  | version, s, blob :: rest => do
    let b ← ofExcept blob
    let s := { s with checked := s.checked + 1 }
    if usable version then
      let s := s.record (← checkBlob ctx o version b)
      if o.revivePolicy.scansOn version s.candidates.length then
        scan ctx o usable (version + 1) s rest
      else return { s with scannedAll := rest.isEmpty }
    else scan ctx o usable (version + 1) s rest

def conclude (o : Options) (draw : Nat) (s : Scan) : Selection :=
  if s.allUnusable && s.scannedAll then
    { unusable := s.unusable, disable := true, checked := s.checked }
  else
    { selected := o.revivePolicy.choose draw s.candidates, unusable := s.unusable,
      checked := s.checked }

/-- Selects a version of the chain from `head` on. Only a broken chain is an error. -/
def select (ctx : ReviveContext) (o : Options) (space : CodeSpace) (head : UInt32)
    (usable : Nat → Bool) (draw : Nat) : InSpace Selection :=
  conclude o draw <$> scan ctx o usable 0 {} (space.versions head)

end Selection

end CodeCache
