import CodeCache.Proofs.Store.Adding
import CodeCache.Store.File

/-!
# Listing assumptions

A listing walks through every chain and reads what every blob assumes. Of a file
that holds nothing but blobs of methods, it can always be made.
-/

namespace CodeCache

namespace CacheFile

variable {space : MetaSpace} {method : String}

theorem printVersion_eq_ok {b : Blob} {nm : CompiledMethod}
    {metas oops sites : List TagRecord} (h : b.Stores nm metas oops sites)
    (version : Nat) :
    ∃ shown, printVersion space method version b = .ok shown := by
  unfold printVersion slotNames
  rw [h.metas_held.decode, h.dependencies_eq, h.speculations_eq]
  exact ⟨_, rfl⟩

theorem printVersionsFrom_eq_ok {blobs : List Blob}
    (h : ∀ b ∈ blobs, ∃ nm metas oops sites, b.Stores nm metas oops sites)
    (version : Nat) :
    ∃ shown, printVersionsFrom space method version (blobs.map .ok) =
      .ok shown := by
  induction blobs generalizing version with
  | nil => exact ⟨"", rfl⟩
  | cons b blobs ih =>
      rcases h b List.mem_cons_self with ⟨_, _, _, _, hstores⟩
      have hrest := fun b hb => h b (List.mem_cons_of_mem _ hb)
      rw [List.map_cons, printVersionsFrom]
      refine exists_bind_eq_ok ⟨b, rfl⟩ fun _ hb => ?_
      cases hb
      refine exists_bind_eq_ok (printVersion_eq_ok hstores version) fun _ _ => ?_
      exact exists_bind_eq_ok (ih hrest (version + 1)) fun _ _ => ⟨_, rfl⟩

theorem printMethod_eq_ok {c : Container} {fingerprint : Fingerprint}
    {buckets count : Nat}
    (h : c.Stocked Blob.Image.OfMethod fingerprint buckets count)
    {entry : UInt32 × UInt32} (hentry : entry ∈ c.methods) :
    ∃ shown, printMethod space c entry.1 entry.2 = .ok shown := by
  rcases Container.of_mem_methods hentry with ⟨place, hplace, -, hcode, rfl⟩
  rcases h.versions_eq (LookupTable.entryAt_mem hplace) hcode with
    ⟨blobs, hblobs, hall⟩
  have hstores : ∀ b ∈ blobs, ∃ nm metas oops sites,
      b.Stores nm metas oops sites := by
    intro b hb
    rcases hall b hb with ⟨image, next, hkind, hsame⟩
    rw [hsame]
    exact hkind.stores next b.offset
  unfold printMethod
  rw [hblobs]
  exact exists_bind_eq_ok (printVersionsFrom_eq_ok hstores 0) fun _ _ => ⟨_, rfl⟩

theorem printAssumptions_eq_ok {f : CacheFile}
    (h : ∀ c ∈ f.containers, ∃ fingerprint buckets count,
      c.Stocked Blob.Image.OfMethod fingerprint buckets count) :
    ∃ listing, f.printAssumptions = .ok listing := by
  unfold printAssumptions
  refine exists_bind_eq_ok (exists_mapM_eq_ok ?_) fun _ _ => ⟨_, rfl⟩
  intro entry hentry
  rw [List.mem_mapIdx] at hentry
  rcases hentry with ⟨i, hi, rfl⟩
  rcases h _ (List.getElem_mem hi) with ⟨_, _, _, hstocked⟩
  refine exists_bind_eq_ok (exists_mapM_eq_ok ?_) fun _ _ => ⟨_, rfl⟩
  intro entry hentry
  exact printMethod_eq_ok hstocked hentry

end CacheFile

end CodeCache
