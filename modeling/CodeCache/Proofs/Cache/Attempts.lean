import CodeCache.Cache.Revive
import CodeCache.Proofs.Cache.History
import CodeCache.Proofs.Store.Finding

/-!
# One attempt to revive a method

An attempt looks the method up by its present key, selects a version of the chain
that it finds, takes note of what was ruled out, and only then installs. Each of
these steps either ends the attempt or leads to one state.
-/

namespace CodeCache.Cache

variable {host : Host} {draw : Nat} {m : MethodId} {level : UInt32} {s : Cache}

/-!
## Looking a method up
-/

def chain (host : Host) (c : Cache) (m : MethodId) : List (Except Error Blob) :=
  match c.find host m, c.active? with
  | .ok (_, some head), some (_, container) => container.code.versions head
  | _, _ => []

def NotFound (host : Host) (c : Cache) (m : MethodId) : Prop :=
  ∀ status head, c.find host m ≠ .ok (status, some head)

theorem find_cases (host : Host) (c : Cache) (m : MethodId) :
    NotFound host c m ∨
    ∃ status head file container, c.active? = some (file, container) ∧
      c.find host m = .ok (status, some head) := by
  by_cases hfound : NotFound host c m
  · exact Or.inl hfound
  · unfold NotFound at hfound
    push Not at hfound
    rcases hfound with ⟨status, head, hfind⟩
    cases hactive : c.active? with
    | none =>
        unfold find at hfind
        rw [hactive] at hfind
        cases hfind
    | some used =>
        exact Or.inr ⟨status, head, used.1, used.2, rfl, hfind⟩

theorem NotFound.chain_eq {c : Cache} (h : NotFound host c m) :
    c.chain host m = [] := by
  unfold chain
  split
  · rename_i hfind _
    exact absurd hfind (h _ _)
  · rfl

theorem chain_of_find {c : Cache} {status : ReviveStatus} {head : UInt32}
    {file : CacheFile} {container : Container}
    (hactive : c.active? = some (file, container))
    (hfind : c.find host m = .ok (status, some head)) :
    c.chain host m = container.code.versions head := by
  unfold chain
  rw [hfind, hactive]

/-- The same file and container are in use, apart from what the metaspace
remembers. -/
structure SameFile (c s : Cache) : Prop where
  container_eq : s.container = c.container
  containers_eq :
    s.file.map (·.containers) = c.file.map (·.containers)
  keys_eq : s.file.map (·.space.keys) = c.file.map (·.space.keys)

namespace SameFile

variable {c s t : Cache}

theorem refl (c : Cache) : c.SameFile c := ⟨rfl, rfl, rfl⟩

theorem trans (h : c.SameFile s) (h' : s.SameFile t) : c.SameFile t :=
  ⟨h'.container_eq.trans h.container_eq,
    h'.containers_eq.trans h.containers_eq, h'.keys_eq.trans h.keys_eq⟩

theorem active?_cases (h : c.SameFile s) :
    (c.active? = none ∧ s.active? = none) ∨
    ∃ file file' container, c.active? = some (file, container) ∧
      s.active? = some (file', container) ∧
      file'.space.keys = file.space.keys := by
  have hcontainers := h.containers_eq
  have hkeys := h.keys_eq
  unfold active?
  rw [h.container_eq]
  cases hfile : c.file with
  | none =>
      rw [hfile, Option.map_none, Option.map_eq_none_iff] at hkeys
      rw [hkeys]
      exact Or.inl ⟨rfl, rfl⟩
  | some file =>
      rw [hfile, Option.map_some, Option.map_eq_some_iff] at hkeys
      rcases hkeys with ⟨file', hfile', hkeys⟩
      rw [hfile, hfile', Option.map_some, Option.map_some] at hcontainers
      rw [hfile']
      cases c.container with
      | none => exact Or.inl ⟨rfl, rfl⟩
      | some i =>
          change (Option.bind file.containers[i]? _ = none ∧
            Option.bind file'.containers[i]? _ = none) ∨
              ∃ _ _ _, Option.bind file.containers[i]? _ = _ ∧
                Option.bind file'.containers[i]? _ = _ ∧ _
          rw [Option.some.inj hcontainers]
          cases file.containers[i]? with
          | none => exact Or.inl ⟨rfl, rfl⟩
          | some container =>
              exact Or.inr ⟨file, file', container, rfl, rfl, hkeys⟩

theorem find_eq (h : c.SameFile s) {host host' : Host} {m : MethodId}
    (hkey : MetaKey.of host' (.method m) = MetaKey.of host (.method m)) :
    s.find host' m = c.find host m := by
  unfold find
  rcases h.active?_cases with ⟨hc, hs⟩ | ⟨file, file', container, hc, hs, hkeys⟩
  · rw [hc, hs]
  · rw [hc, hs, hkey]
    dsimp only
    cases MetaKey.of host (.method m) with
    | error e => rfl
    | ok key => exact container.find_congr hkeys key

theorem chain_eq (h : c.SameFile s) {host host' : Host} {m : MethodId}
    (hkey : MetaKey.of host' (.method m) = MetaKey.of host (.method m)) :
    s.chain host' m = c.chain host m := by
  unfold chain
  rw [h.find_eq hkey]
  rcases h.active?_cases with ⟨hc, hs⟩ | ⟨file, file', container, hc, hs, _⟩
  · rw [hc, hs]
  · rw [hc, hs]
    cases c.find host m with
    | error e => rfl
    | ok answer =>
        rcases answer with ⟨status, head?⟩
        cases head? with
        | none | some head => rfl

end SameFile

/-!
## Selecting
-/

def selecting (host : Host) (draw : Nat) (m : MethodId) (s : Cache)
    (container : Container) (head : UInt32) : InSpace Selection :=
  Selection.select (s.reviveContext host m) s.options container.code head
    (fun v => !(s.ruledOut m).contains v) draw

def withSpace (s : Cache) (file : CacheFile) (space : MetaSpace) : Cache :=
  { s with file := some { file with space } }

def taught (s : Cache) (m : MethodId) (selection : Selection) : Cache :=
  let s := s.ruleOut m selection.unusable
  if selection.disable then s.disable m else s

theorem lookup_replace {κ α : Type} [BEq κ] [LawfulBEq κ] {k k' : κ}
    (hne : k' ≠ k) (a : α) (known : List (κ × α)) :
    ((k, a) :: known.filter (·.1 != k)).lookup k' = known.lookup k' := by
  rw [List.lookup_cons, beq_false_of_ne hne]
  dsimp only
  induction known with
  | nil => rfl
  | cons entry known ih =>
      rcases entry with ⟨key, b⟩
      by_cases hkey : key = k
      · rw [List.filter_cons, hkey, bne_self_eq_false, if_neg Bool.false_ne_true,
          ih, List.lookup_cons, beq_false_of_ne hne]
      · rw [List.filter_cons, if_pos (bne_iff_ne.mpr hkey), List.lookup_cons,
          List.lookup_cons, ih]

theorem mem_or_mem_of_collect {versions known : List Nat} {v : Nat}
    (h : v ∈ versions.foldl
      (fun vs v => if vs.contains v then vs else vs ++ [v]) known) :
    v ∈ known ∨ v ∈ versions := by
  induction versions generalizing known with
  | nil => exact Or.inl h
  | cons first rest ih =>
      rcases ih h with hknown | hrest
      · dsimp only at hknown
        split at hknown
        · exact Or.inl hknown
        · rcases List.mem_append.mp hknown with hknown | hfirst
          · exact Or.inl hknown
          · exact Or.inr (List.mem_singleton.mp hfirst ▸ List.mem_cons_self)
      · exact Or.inr (List.mem_cons_of_mem _ hrest)

theorem mem_ruledOut_ruleOut {versions : List Nat} {m' : MethodId} {v : Nat}
    (h : v ∈ (s.ruleOut m versions).ruledOut m') :
    v ∈ s.ruledOut m' ∨ (m' = m ∧ v ∈ versions) := by
  unfold ruleOut at h
  split at h
  · exact Or.inl h
  · unfold ruledOut at h
    by_cases hm : m' = m
    · rw [hm, List.lookup_cons_self, Option.getD_some] at h
      rcases mem_or_mem_of_collect h with hknown | hnew
      · rw [hm]
        exact Or.inl hknown
      · exact Or.inr ⟨hm, hnew⟩
    · rw [lookup_replace hm] at h
      exact Or.inl h

theorem isDisabled_disable {m' : MethodId}
    (h : (s.disable m).isDisabled m' = true) :
    s.isDisabled m' = true ∨ m' = m := by
  unfold disable at h
  split at h
  · exact Or.inl h
  · change (m :: s.disabled).contains m' = true at h
    rw [List.contains_cons, Bool.or_eq_true] at h
    rcases h with hsame | hold
    · exact Or.inr (eq_of_beq hsame)
    · exact Or.inl hold

theorem taught_eq (s : Cache) (m : MethodId) (selection : Selection) :
    ∃ unusable disabled,
      s.taught m selection = { s with unusable, disabled } := by
  have hruled : ∃ unusable,
      s.ruleOut m selection.unusable = { s with unusable } := by
    unfold ruleOut
    split
    · exact ⟨s.unusable, rfl⟩
    · exact ⟨_, rfl⟩
  rcases hruled with ⟨unusable, hruled⟩
  unfold taught
  rw [hruled]
  refine ⟨unusable, ?_⟩
  dsimp only
  split
  · unfold disable
    split
    · exact ⟨s.disabled, rfl⟩
    · exact ⟨_, rfl⟩
  · exact ⟨s.disabled, rfl⟩

theorem ruledOut_disable (s : Cache) (m m' : MethodId) :
    (s.disable m).ruledOut m' = s.ruledOut m' := by
  unfold disable
  split
  · rfl
  · rfl

theorem isDisabled_ruleOut (s : Cache) (m m' : MethodId) (versions : List Nat) :
    (s.ruleOut m versions).isDisabled m' = s.isDisabled m' := by
  unfold ruleOut
  split
  · rfl
  · rfl

section Taught

variable {selection : Selection} {m' : MethodId}

theorem mem_ruledOut_taught {v : Nat}
    (h : v ∈ (s.taught m selection).ruledOut m') :
    v ∈ s.ruledOut m' ∨ (m' = m ∧ v ∈ selection.unusable) := by
  unfold taught at h
  dsimp only at h
  split at h
  · rw [ruledOut_disable] at h
    exact mem_ruledOut_ruleOut h
  · exact mem_ruledOut_ruleOut h

theorem isDisabled_taught
    (h : (s.taught m selection).isDisabled m' = true) :
    s.isDisabled m' = true ∨ (m' = m ∧ selection.disable = true) := by
  unfold taught at h
  dsimp only at h
  split at h
  · rename_i hdisable
    rcases isDisabled_disable h with hold | rfl
    · rw [isDisabled_ruleOut] at hold
      exact Or.inl hold
    · exact Or.inr ⟨rfl, hdisable⟩
  · rw [isDisabled_ruleOut] at h
    exact Or.inl h

end Taught

def installed (host : Host) (s : Cache) (m : MethodId) (container : Container)
    (state : VersionState) :
    Except Error (ReviveStatus × Option CompiledMethod) := do
  let b ← container.code.blob state.offset
  if s.isDisabled m then
    return (.fail, none)
  let space := (s.file.map (·.space)).getD {}
  if s.options.checkIdentity then
    if ← hasOtherIdentity host space b m then
      return (.fail, none)
  if s.options.failInstall then
    return (.fail, none)
  let nm ← b.revive (s.reviveContext host m) state.resolved
  return (.success, some nm)

theorem install_apply (container : Container) (state : VersionState) :
    install host m container state s =
      ending (s.installed host m container state) s := by
  change (ofExcept (container.code.blob state.offset) >>= fun b =>
    if s.isDisabled m then pure (.fail, none)
    else _ : InCache (ReviveStatus × Option CompiledMethod)) s = _
  unfold installed
  cases container.code.blob state.offset with
  | error e => rfl
  | ok b =>
      change (if s.isDisabled m then pure (.fail, none) else _ :
        InCache (ReviveStatus × Option CompiledMethod)) s = ending
          (if s.isDisabled m then pure (.fail, none) else _) s
      have hfinish : (if s.options.failInstall then pure (.fail, none)
          else ofExcept (b.revive (s.reviveContext host m) state.resolved) >>=
            fun nm => pure (ReviveStatus.success, some nm) :
              InCache (ReviveStatus × Option CompiledMethod)) s =
          ending (if s.options.failInstall then pure (.fail, none)
            else b.revive (s.reviveContext host m) state.resolved >>=
              fun nm => pure (.success, some nm)) s := by
        cases s.options.failInstall with
        | true => rfl
        | false =>
            cases b.revive (s.reviveContext host m) state.resolved with
            | error e | ok nm => rfl
      cases s.isDisabled m with
      | true => rfl
      | false =>
          cases hcheck : s.options.checkIdentity with
          | false => exact hfinish
          | true =>
              dsimp only
              cases hasOtherIdentity host ((s.file.map (·.space)).getD {}) b m with
              | error e => rfl
              | ok other =>
                  cases other with
                  | true => rfl
                  | false => exact hfinish

/-!
## An attempt as a whole
-/

theorem inSpace_of_ok {α : Type} {work : InSpace α} {file : CacheFile}
    {space : MetaSpace} {a : α} (h : work file.space = .ok a space) :
    inSpace file work s = .ok a (s.withSpace file space) := by
  unfold inSpace
  rw [h]
  rfl

theorem inSpace_of_error {α : Type} {work : InSpace α} {file : CacheFile}
    {space : MetaSpace} {e : Error} (h : work file.space = .error e space) :
    inSpace file work s = .error e (s.withSpace file space) := by
  unfold inSpace
  rw [h]
  rfl

theorem reviveMethod_of_not_found (h : NotFound host s m) :
    reviveMethod host draw m s =
      ending ((s.find host m).map fun answer => (answer.1, none)) s := by
  change (ofExcept (s.find host m) >>= _ : InCache _) s = _
  cases hfind : s.find host m with
  | error e => rfl
  | ok answer =>
      rcases answer with ⟨status, head?⟩
      cases head? with
      | none => rfl
      | some head => exact absurd hfind (h status head)

section Found

variable {status : ReviveStatus} {head : UInt32} {file : CacheFile}
  {container : Container} (hactive : s.active? = some (file, container))
  (hfind : s.find host m = .ok (status, some head))
include hactive hfind

theorem reviveMethod_of_select_error {e : Error} {space : MetaSpace}
    (hselect : selecting host draw m s container head file.space =
      .error e space) :
    reviveMethod host draw m s = .error e (s.withSpace file space) := by
  unfold reviveMethod
  rw [run_get_bind, run_ofExcept_bind hfind]
  dsimp only
  rw [hactive]
  exact run_bind_error (inSpace_of_error hselect)

theorem reviveMethod_of_select {selection : Selection} {space : MetaSpace}
    (hselect : selecting host draw m s container head file.space =
      .ok selection space) :
    reviveMethod host draw m s =
      match selection.selected with
      | none => .ok (.fail, none) ((s.withSpace file space).taught m selection)
      | some state =>
        ending (((s.withSpace file space).taught m selection).installed host m
          container state) ((s.withSpace file space).taught m selection) := by
  unfold reviveMethod
  rw [run_get_bind, run_ofExcept_bind hfind]
  dsimp only
  rw [hactive]
  dsimp only
  unfold selecting at hselect
  rw [run_bind (inSpace_of_ok hselect), run_modify_bind]
  unfold taught
  cases selection.disable with
  | true | false =>
      cases selection.selected with
      | none => rfl
      | some state => exact install_apply container state

end Found

theorem after_eq_of_ending {α : Type} {work : InCache α}
    {outcome : Except Error α} {s' : Cache} (h : work s = ending outcome s') :
    InCache.after work s = s' := by
  unfold InCache.after
  rw [h]
  cases outcome with
  | ok a | error e => rfl

/-- What an attempt does to the cache: nothing, what the checks do to the
metaspace, or that and what the selection ruled out. -/
theorem after_reviveMethod (host : Host) (draw : Nat) (m : MethodId)
    (s : Cache) :
    InCache.after (reviveMethod host draw m) s = s ∨
    ∃ status head file container, s.active? = some (file, container) ∧
      s.find host m = .ok (status, some head) ∧ ∃ space,
        (InCache.after (reviveMethod host draw m) s = s.withSpace file space ∨
        ∃ selection,
          selecting host draw m s container head file.space =
            .ok selection space ∧
          InCache.after (reviveMethod host draw m) s =
            (s.withSpace file space).taught m selection) := by
  rcases find_cases host s m with h |
    ⟨status, head, file, container, hactive, hfind⟩
  · exact Or.inl (after_eq_of_ending (reviveMethod_of_not_found h))
  · refine Or.inr ⟨status, head, file, container, hactive, hfind, ?_⟩
    cases hselect : selecting host draw m s container head file.space with
    | error e space =>
        refine ⟨space, Or.inl ?_⟩
        unfold InCache.after
        rw [reviveMethod_of_select_error hactive hfind hselect]
    | ok selection space =>
        refine ⟨space, Or.inr ⟨selection, rfl, ?_⟩⟩
        have hrun := reviveMethod_of_select hactive hfind hselect
        cases hselected : selection.selected with
        | none =>
            rw [hselected] at hrun
            unfold InCache.after
            rw [hrun]
        | some state =>
            rw [hselected] at hrun
            exact after_eq_of_ending hrun

/-!
## Revives

A revive counts its attempt. Unless failures are fatal, it answers the code or
nothing.
-/

theorem revive_of_not_candidate
    (hcandidate : s.isCandidate host m level = false) :
    revive host draw m level s = .ok none s := by
  change (if !s.isCandidate host m level then _ else _ :
    InCache (Option CompiledMethod)) s = _
  rw [hcandidate]
  rfl

section Candidate

variable {s' : Cache} (hcandidate : s.isCandidate host m level = true)
include hcandidate

theorem revive_of_candidate :
    revive host draw m level s =
      match reviveMethod host draw m s with
      | .ok (status, nm?) s' =>
        (if status = .fail ∧ s.options.fatalOnFail then
          throw (.internal (.reviveFailed (host.methodDisplayName m)))
        else pure nm? : InCache (Option CompiledMethod)) (s'.countRevive status)
      | .error e s' =>
        (if s.options.fatalOnFail then throw e else pure none :
          InCache (Option CompiledMethod)) (s'.countRevive .fail) := by
  change (if !s.isCandidate host m level then _
    else EStateM.bind (attempt (reviveMethod host draw m)) _ :
      InCache (Option CompiledMethod)) s = _
  rw [hcandidate]
  change EStateM.bind (attempt (reviveMethod host draw m)) _ s = _
  unfold EStateM.bind attempt
  cases reviveMethod host draw m s with
  | error e s' => rfl
  | ok answer s' =>
      rcases answer with ⟨status, nm?⟩
      change (if status = .fail ∧ s.options.fatalOnFail = true then
        throw _ >>= _ else _ : InCache (Option CompiledMethod))
          (s'.countRevive status) = _
      dsimp only
      split
      · rfl
      · rfl

theorem revive_of_ok {status : ReviveStatus} {nm? : Option CompiledMethod}
    (hfatal : s.options.fatalOnFail = false)
    (hrun : reviveMethod host draw m s = .ok (status, nm?) s') :
    revive host draw m level s = .ok nm? (s'.countRevive status) := by
  rw [revive_of_candidate hcandidate, hrun]
  dsimp only
  rw [hfatal, if_neg fun h => Bool.false_ne_true h.2]
  rfl

theorem revive_of_error {e : Error} (hfatal : s.options.fatalOnFail = false)
    (hrun : reviveMethod host draw m s = .error e s') :
    revive host draw m level s = .ok none (s'.countRevive .fail) := by
  rw [revive_of_candidate hcandidate, hrun, hfatal]
  rfl

end Candidate

theorem after_revive (host : Host) (draw : Nat) (m : MethodId) (level : UInt32)
    (s : Cache) :
    InCache.after (revive host draw m level) s = s ∨
    (s.isCandidate host m level = true ∧ ∃ status,
      InCache.after (revive host draw m level) s =
        (InCache.after (reviveMethod host draw m) s).countRevive status) := by
  cases hcandidate : s.isCandidate host m level with
  | false =>
      refine Or.inl ?_
      unfold InCache.after
      rw [revive_of_not_candidate hcandidate]
  | true =>
      refine Or.inr ⟨rfl, ?_⟩
      unfold InCache.after
      rw [revive_of_candidate hcandidate]
      cases reviveMethod host draw m s with
      | error e s' =>
          refine ⟨.fail, ?_⟩
          dsimp only
          cases s.options.fatalOnFail with
          | true | false => rfl
      | ok answer s' =>
          rcases answer with ⟨status, nm?⟩
          refine ⟨status, ?_⟩
          dsimp only
          by_cases hfatal : status = .fail ∧ s.options.fatalOnFail = true
          · rw [if_pos hfatal]
            rfl
          · rw [if_neg hfatal]
            rfl

end CodeCache.Cache
