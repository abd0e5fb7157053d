import CodeCache.Proofs.Merge.Output

/-!
# What a merge keeps, and what it makes of it

A merge plans first what it keeps of which groups, and then builds a file from
that. What it builds depends on little of the plan.
-/

namespace CodeCache.Merge

variable {inputs : List Input} {o : Options}

/-!
## Plans
-/

def plan (o : Options) (inputs : List Input) : List (Group × List Kept) :=
  (keptGroups o inputs.length (groups inputs)).map fun g => (g, keep o inputs g)

structure Kept.Alike (k k' : Kept) : Prop where
  key_eq : k.key = k'.key
  places_eq : k.places = k'.places
  report_eq : k.report = k'.report

structure Alike (p q : Group × List Kept) : Prop where
  group_eq : p.1 = q.1
  kept : List.Forall₂ Kept.Alike p.2 q.2

theorem Alike.refl (p : Group × List Kept) : Alike p p :=
  ⟨rfl, List.forall₂_same.mpr fun _ _ => ⟨rfl, rfl, rfl⟩⟩

def buildWith (plan : List Input → List (Group × List Kept)) (o : Options)
    (output : String) (paths : List String) (inputs : List Input)
    (identity : String) : Except Error (CacheFile × MergeReport) := do
  let planned := plan inputs
  let kept := planned.map (·.2)
  if o.maxFileSize < keptSize kept then
    throw (.fileTooLarge (keptSize kept) o.maxFileSize)
  let (containers, space) ← copyGroups inputs {} planned
  let report : MergeReport :=
    { output
      inputFiles := paths.length
      validFiles := inputs.length
      groups := (groups inputs).length
      keptGroups := planned.length
      containers := kept.map (·.map Kept.report)
      fileSize := 0 }
  return ({ buildIdentity := identity, space, containers }, report)

def runWith (plan : List Input → List (Group × List Kept)) (o : Options)
    (expected : Option String) (files : FileTree) :
    Except Error (FileTree × MergeReport) := do
  let some output := o.file
    | throw (.config .outputMissing)
  let paths ← inputFiles o files
  let inputs := readInputs files o.checkBuild expected paths
  let some first := inputs.head?
    | throw (.config .inputsUnreadable)
  let (file, report) ← buildWith plan o output paths inputs first.file.buildIdentity
  let (files, size) ← file.write files output o.maxFileSize
  return (files, { report with fileSize := size })

theorem build_eq (o : Options) (output : String) (paths : List String)
    (inputs : List Input) (identity : String) :
    build o output paths inputs identity =
      buildWith (plan o) o output paths inputs identity := by
  have hkept : (plan o inputs).map (·.2) =
      (keptGroups o inputs.length (groups inputs)).map (keep o inputs) :=
    List.map_map
  have hlength : (plan o inputs).length =
      (keptGroups o inputs.length (groups inputs)).length :=
    List.length_map _
  have hzip : plan o inputs = (keptGroups o inputs.length (groups inputs)).zip
      ((keptGroups o inputs.length (groups inputs)).map (keep o inputs)) :=
    List.map_prod_left_eq_zip
  unfold build buildWith
  dsimp only
  rw [hkept, hlength, hzip]

theorem run_eq (o : Options) (expected : Option String) (files : FileTree) :
    run o expected files = runWith (plan o) o expected files := by
  have hbuild : buildWith (plan o) o = build o := by
    funext output paths inputs identity
    exact (build_eq o output paths inputs identity).symm
  unfold runWith
  rw [hbuild]
  rfl

/-!
## Plans that are alike
-/

theorem copyMethods_congr {ks ks' : List Kept} (h : List.Forall₂ Kept.Alike ks ks')
    (out : Container × MetaSpace) :
    copyMethods inputs out ks = copyMethods inputs out ks' := by
  induction h generalizing out with
  | nil => rfl
  | cons hk _ ih =>
      rcases out with ⟨container, merged⟩
      unfold copyMethods
      rw [hk.key_eq, hk.places_eq]
      simp only [ih]

theorem copyGroups_congr {ps qs : List (Group × List Kept)}
    (h : List.Forall₂ Alike ps qs) (merged : MetaSpace) :
    copyGroups inputs merged ps = copyGroups inputs merged qs := by
  induction h generalizing merged with
  | nil => rfl
  | @cons p q _ _ hpq _ ih =>
      rcases p with ⟨g, ks⟩
      rcases q with ⟨g', ks'⟩
      rcases hpq with ⟨rfl, hks⟩
      unfold copyGroups
      rw [copyMethods_congr hks, hks.length_eq]
      simp only [ih]

theorem map_eq_of_forall₂ {α β : Type} {R : α → α → Prop} {g : α → β}
    (hg : ∀ a b, R a b → g a = g b) {as bs : List α}
    (h : List.Forall₂ R as bs) :
    as.map g = bs.map g := by
  induction h with
  | nil => rfl
  | cons hab _ ih => rw [List.map_cons, List.map_cons, hg _ _ hab, ih]

theorem keptSize_congr {kept kept' : List (List Kept)}
    (h : List.Forall₂ (List.Forall₂ Kept.Alike) kept kept') :
    keptSize kept = keptSize kept' := by
  have hplaces := map_eq_of_forall₂
    (g := fun k : Kept => k.places.map fun p => alignUp p.size.toNat)
    (fun _ _ (hk : Kept.Alike _ _) => by rw [hk.places_eq]) (List.rel_flatten h)
  unfold keptSize
  rw [List.flatMap_def, List.flatMap_def, hplaces]

variable {plan' : List Input → List (Group × List Kept)}

theorem buildWith_congr
    (h : List.Forall₂ Alike (plan o inputs) (plan' inputs)) (output : String)
    (paths : List String) (identity : String) :
    buildWith (plan o) o output paths inputs identity =
      buildWith plan' o output paths inputs identity := by
  have hkept : List.Forall₂ (List.Forall₂ Kept.Alike)
      ((plan o inputs).map (·.2)) ((plan' inputs).map (·.2)) := by
    rw [List.forall₂_map_left_iff, List.forall₂_map_right_iff]
    exact h.imp fun _ _ hpq => hpq.kept
  have hreports := map_eq_of_forall₂
    (g := fun ks : List Kept => ks.map Kept.report)
    (fun _ _ hks => map_eq_of_forall₂ (fun _ _ hk => Kept.Alike.report_eq hk) hks)
    hkept
  unfold buildWith
  dsimp only
  rw [keptSize_congr hkept, copyGroups_congr h, h.length_eq, hreports]

theorem run_eq_runWith {expected : Option String} {files : FileTree}
    {paths : List String} (hpaths : inputFiles o files = .ok paths)
    (h : List.Forall₂ Alike
      (plan o (readInputs files o.checkBuild expected paths))
      (plan' (readInputs files o.checkBuild expected paths))) :
    run o expected files = runWith plan' o expected files := by
  have hbuild := fun output => buildWith_congr h output paths
  rw [run_eq]
  unfold runWith
  cases o.file with
  | none => rfl
  | some output =>
      rw [hpaths]
      dsimp only [bind, Except.bind]
      cases (readInputs files o.checkBuild expected paths).head? with
      | none => rfl
      | some first =>
          dsimp only
          rw [hbuild]

end CodeCache.Merge
