import CodeCache.Blob.Resolve
import CodeCache.Proofs.Metadata.Resolution

/-!
# Two processes

Code is saved by one process and revived by another one. Their handles differ,
so a renaming says which class or method of the second is meant by one of the
first. Only entities with a key need a counterpart.
-/

namespace CodeCache

structure Renaming where
  klass : ClassId → ClassId
  method : MethodId → MethodId

namespace Renaming

def entity (r : Renaming) : Entity → Entity
  | .klass k => .klass (r.klass k)
  | .method m => .method (r.method m)

def object (r : Renaming) : Object → Object
  | .mirror k => .mirror (r.klass k)
  | o => o

end Renaming

namespace Host

def CanName (host : Host) (e : Entity) : Prop :=
  ∃ key, MetaKey.of host e = .ok key

/-- Whether code that mentions an entity can be revived: no class of it is in the
failed state, and the holder of a method is loaded. -/
def IsUsable (host : Host) : Entity → Prop
  | .klass k => host.initState k ≠ .failed
  | .method m =>
    host.initState (host.methodHolder m) ≠ .failed ∧
      InitState.loaded.code ≤ (host.initState (host.methodHolder m)).code

/-- Whatever the first host can name has a counterpart in the second one. -/
structure Counterparts (saved live : Host) (r : Renaming) : Prop where
  resolves : ∀ e key, MetaKey.of saved e = .ok key →
    key.resolve live = .ok (r.entity e)
  injective : ∀ e₁ e₂, saved.CanName e₁ → saved.CanName e₂ →
    r.entity e₁ = r.entity e₂ → e₁ = e₂
  initState : ∀ k, saved.CanName (.klass k) →
    live.initState (r.klass k) = saved.initState k
  holder : ∀ m, saved.CanName (.method m) →
    live.methodHolder (r.method m) = r.klass (saved.methodHolder m)
  known : ∀ o number, saved.knownObject o = some number → o = .known number
  globals : ∀ g n a, saved.globals.addressOf g n = .ok a →
    saved.globals.find? a = some (g, n) ∧
      ∃ b, live.globals.addressOf g n = .ok b

namespace Counterparts

variable {saved live : Host} {r : Renaming}

theorem loader (h : Counterparts saved live r) {e : Entity}
    (hname : saved.CanName e) :
    live.entityLoader (r.entity e) = saved.entityLoader e := by
  rcases hname with ⟨key, hkey⟩
  have hfits := (MetaKey.of_resolve (h.resolves e key hkey)).2
  rw [(MetaKey.fits_iff.mp hfits).2]
  exact MetaKey.loader_of hkey

theorem canName_holder {m : MethodId} (h : saved.CanName (.method m)) :
    saved.CanName (.klass (saved.methodHolder m)) := by
  rcases h with ⟨key, hkey⟩
  unfold CanName MetaKey.of at *
  dsimp only at hkey ⊢
  split at hkey
  · cases hkey
  · rename_i hloader
    rw [if_neg]
    · exact ⟨_, rfl⟩
    · exact hloader

theorem isReady_klass (h : Counterparts saved live r) {k : ClassId}
    (hname : saved.CanName (.klass k)) (husable : saved.IsUsable (.klass k))
    {needed : InitState} (hneeded : needed.code ≤ (saved.initState k).code) :
    ReviveContext.isReady live (r.klass k) needed = true := by
  unfold ReviveContext.isReady
  rw [h.initState k hname]
  simp only [Bool.and_eq_true, bne_iff_ne, Bool.or_eq_true, decide_eq_true_eq]
  exact ⟨husable, Or.inl hneeded⟩

theorem isReady_holder (h : Counterparts saved live r) {m : MethodId}
    (hname : saved.CanName (.method m))
    (husable : saved.IsUsable (.method m)) :
    ReviveContext.isReady live (live.methodHolder (r.method m)) .loaded =
      true := by
  rw [h.holder m hname]
  exact h.isReady_klass (canName_holder hname) husable.1 husable.2

end Counterparts

end Host

end CodeCache
