import CodeCache.Cache.Revive
import CodeCache.Cache.Save
import CodeCache.Proofs.Metadata.Storage
import CodeCache.Proofs.Selection.Checked
import CodeCache.Proofs.Store.Reloading

/-!
# Histories of a process

A process runs with one cache while its classes come and go. The host is free to
change between two operations of the cache. What was found by name may be unloaded,
but keeps its identity and loader, unless a class is redefined; then the cache is
told before the next revive.
-/

namespace CodeCache

namespace InCache

def after {α : Type} (work : InCache α) (c : Cache) : Cache :=
  match work c with
  | .ok _ c' => c'
  | .error _ c' => c'

theorem eq_ok_after {work : InCache Unit} {c : Cache}
    (h : okWith (fun _ => true) (work c) = true) :
    work c = .ok () (after work c) := by
  rcases of_okWith h with ⟨a, c', hrun, -⟩
  unfold after
  rw [hrun]

theorem inv_after {α : Type} {inv : Cache → Prop} {Q : α → Prop}
    {work : InCache α} (h : Ensures inv work Q) {c : Cache} (hc : inv c) :
    inv (after work c) := by
  have hout := h c hc
  unfold after
  cases hrun : work c with
  | ok a c' =>
      rw [hrun] at hout
      exact hout.1
  | error e c' =>
      rw [hrun] at hout
      exact hout

end InCache

structure Process where
  host : Host
  cache : Cache
  /-- What a lookup of a key by name could find so far. -/
  seen : MetaKey → Entity → Prop
  /-- A class was redefined, and the cache was not told yet. -/
  pending : Bool

namespace Process

def start (host : Host) (o : Options) (roll : Nat) : Process where
  host := host
  cache := Cache.start o roll
  seen := host.Finds
  pending := false

def withHost (p : Process) (host : Host) : Process :=
  { p with host, seen := fun key e => p.seen key e ∨ host.Finds key e }

def withCache (p : Process) (cache : Cache) : Process :=
  { p with cache }

/-- One step of a history. `evolve` may unload what was found before; only `redefine`
touches its identity or its loader. -/
inductive Step : Process → Process → Prop where
  | evolve (p : Process) (host : Host)
      (hsame : ∀ key e, p.seen key e →
        host.entityIdentity e = p.host.entityIdentity e ∧
          host.entityLoader e = p.host.entityLoader e) :
      Step p (p.withHost host)
  | redefine (p : Process) (host : Host) :
      Step p { p.withHost host with pending := true }
  | announce (p : Process) :
      Step p { p.withCache p.cache.redefined with pending := false }
  | load (p : Process) (files : FileTree) :
      Step p (p.withCache (InCache.after (Cache.load p.host files) p.cache))
  | revive (p : Process) (hready : p.pending = false) (draw : Nat)
      (m : MethodId) (level : UInt32) :
      Step p (p.withCache
        (InCache.after (Cache.revive p.host draw m level) p.cache))
  | reviveVersion (p : Process) (hready : p.pending = false) (m : MethodId)
      (version : Nat) :
      Step p (p.withCache
        (InCache.after (Cache.reviveVersion p.host m version) p.cache))
  | disable (p : Process) (m : MethodId) :
      Step p (p.withCache (p.cache.disable m))
  | save (p : Process) (files : FileTree) (methods : List CompiledMethod) :
      Step p (p.withCache
        (InCache.after (Cache.save p.host files methods) p.cache))
  | merge (p : Process) (files : FileTree) :
      Step p (p.withCache (InCache.after (Cache.merge p.host files) p.cache))

inductive Reachable : Process → Prop where
  | start (host : Host) (o : Options) (roll : Nat) :
      Reachable (start host o roll)
  | step {p q : Process} (h : Reachable p) (hstep : Step p q) : Reachable q

/-!
## The invariant

Between a redefinition and its announcement the checks of entries mean nothing,
but their stamps still do: the announcement outdates all of them.
-/

structure Sound (p : Process) : Prop where
  finds_seen : ∀ key e, p.host.Finds key e → p.seen key e
  stamped : ∀ file, p.cache.file = some file →
    ∀ entry ∈ file.space.entries, entry.Stamped p.cache.epoch p.seen
  sound : p.pending = false → ∀ file, p.cache.file = some file →
    ∀ entry ∈ file.space.entries,
      entry.Sound p.host p.cache.epoch p.seen

end Process

theorem MetaSpace.Fresh.sound {space : MetaSpace} (h : space.Fresh) (host : Host)
    (epoch : Epoch) (seen : MetaKey → Entity → Prop) :
    ∀ entry ∈ space.entries, entry.Sound host epoch seen := by
  intro entry hentry
  rw [h entry hentry]
  exact MetaEntry.sound_of_key host epoch seen entry.key

/-!
## Loading
-/

/-- What loading leaves: the file of before, or one that is not resolved yet. -/
def Cache.Reloaded (c s : Cache) : Prop :=
  s.epoch = c.epoch ∧
    (s.file = c.file ∨ ∃ file, s.file = some file ∧ file.space.Fresh)

theorem Cache.Reloaded.refl (c : Cache) : c.Reloaded c :=
  ⟨rfl, Or.inl rfl⟩

theorem CacheFile.fresh_of_decode {view : Bytes} {expected : Option String}
    {file : CacheFile} (h : decode view expected = .ok file) :
    file.space.Fresh := by
  rcases of_decode h with ⟨_, -, -, -, hspace, -⟩
  exact MetaSpace.fresh_of_decode hspace

theorem CacheFile.fresh_of_load {files : FileTree} {path : String}
    {expected : Option String} {file : CacheFile}
    (h : load files path expected = .ok file) :
    file.space.Fresh := by
  unfold load at h
  rcases of_bind_eq_ok h with ⟨bytes, -, h⟩
  rcases of_bind_eq_ok h with ⟨loaded, hdecode, h⟩
  cases h
  have hfresh : loaded.space.Fresh := fresh_of_decode hdecode
  exact hfresh

theorem Cache.load_ensures (host : Host) (files : FileTree) (c : Cache) :
    Ensures c.Reloaded (load host files) (fun _ => True) := by
  unfold load
  refine Ensures.of_get.of_bind ?_
  intro c' _
  refine (Ensures.of_ofExcept (Q := fun _ => True) fun _ _ => trivial).of_bind ?_
  intro path _
  refine (Ensures.of_ofExcept (Q := fun file => file.space.Fresh) ?_).of_bind ?_
  · intro file hload
    exact CacheFile.fresh_of_load hload
  intro file hfresh
  have hplace : Ensures c.Reloaded (modify fun c : Cache =>
      { c with container := file.selectContainer host.settings } : InCache Unit)
      (fun _ => True) :=
    Ensures.of_modify fun s hs => hs
  have hset : Ensures c.Reloaded (modify fun c : Cache =>
      { c with file := some file } : InCache Unit) (fun _ => True) :=
    Ensures.of_modify fun s hs => ⟨hs.1, Or.inr ⟨file, rfl, hfresh⟩⟩
  refine hplace.of_bind ?_
  intro _ _
  refine Ensures.of_ite ?_ ?_
  · intro _
    refine (Ensures.of_ofExcept (Q := fun _ => True)
      fun _ _ => trivial).of_bind ?_
    intro _ _
    exact hset
  · intro _
    exact hset

/-!
## Saving and merging
-/

theorem Cache.disable_reloaded (c : Cache) (m : MethodId) :
    c.Reloaded (c.disable m) := by
  unfold disable
  split
  · exact Reloaded.refl c
  · exact Reloaded.refl c

theorem Cache.save_ensures (host : Host) (files : FileTree)
    (methods : List CompiledMethod) (c : Cache) :
    Ensures c.Reloaded (save host files methods) (fun _ => True) := by
  have hanything : ∀ {α : Type} (result : Except Error α),
      Ensures c.Reloaded (ofExcept result : InCache α) (fun _ => True) := by
    intro α result
    exact Ensures.of_ofExcept fun _ _ => trivial
  unfold save
  refine Ensures.of_get.of_bind ?_
  intro c' _
  refine Ensures.of_check fun _ => ?_
  refine (hanything _).of_bind ?_
  intro path _
  refine Ensures.of_ite (fun _ => Ensures.of_pure trivial) fun _ => ?_
  refine (hanything _).of_bind ?_
  intro done _
  refine Ensures.of_bind (P := fun _ => True)
    (Ensures.of_modify fun s hs => hs) ?_
  intro _ _
  refine (hanything _).of_bind ?_
  intro written _
  refine Ensures.of_bind (P := fun _ => True)
    (Ensures.of_modify fun s hs => hs) ?_
  intro _ _
  exact Ensures.of_pure trivial

theorem Cache.merge_ensures (host : Host) (files : FileTree) (c : Cache) :
    Ensures c.Reloaded (merge host files) (fun _ => True) := by
  unfold merge
  refine Ensures.of_get.of_bind ?_
  intro c' _
  refine Ensures.of_check fun _ => ?_
  refine (Ensures.of_ofExcept (Q := fun _ => True) fun _ _ => trivial).of_bind ?_
  intro merged _
  refine Ensures.of_bind (P := fun _ => True)
    (Ensures.of_modify fun s hs => hs) ?_
  intro _ _
  exact Ensures.of_pure trivial

end CodeCache
