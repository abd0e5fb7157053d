import CodeCache.Proofs.Blob.Encodable
import CodeCache.Proofs.Cache.SavedFiles
import CodeCache.Proofs.Store.Interleaving
import Mathlib.Algebra.BigOperators.Group.List.Lemmas

/-!
# What a save keeps

A save goes through the compiled methods in order and counts what it kept of each
key. Behind any beginning of the list, what it kept of a key are the first
methods with this key that it may save and can encode, as many as the limit
allows, and the container holds just these, in this order.
-/

namespace CodeCache

namespace Saving

variable {host : Host} {o : Options}

def isVersionOf (host : Host) (key : MetaKey) (nm : CompiledMethod) : Bool :=
  isEligible host nm && nm.isEncodable host &&
    (MetaKey.of host (.method nm.method)).toOption == some key

/-- The versions that a save keeps of the method with the key. -/
def kept (host : Host) (limit : Nat) (methods : List CompiledMethod)
    (key : MetaKey) : List CompiledMethod :=
  (methods.filter (isVersionOf host key)).take limit

section

variable {limit : Nat} {methods : List CompiledMethod} {key : MetaKey}
  {nm : CompiledMethod}

theorem kept_concat_of_not (h : isVersionOf host key nm = false) :
    kept host limit (methods ++ [nm]) key = kept host limit methods key := by
  unfold kept
  rw [List.filter_append, List.filter_singleton, h]
  simp

theorem kept_concat_of_full (h : limit ≤ (kept host limit methods key).length) :
    kept host limit (methods ++ [nm]) key = kept host limit methods key := by
  unfold kept at h ⊢
  rw [List.length_take] at h
  rw [List.filter_append, List.take_append_of_le_length (by omega)]

theorem kept_concat_of_room (h : isVersionOf host key nm = true)
    (hroom : (kept host limit methods key).length < limit) :
    kept host limit (methods ++ [nm]) key =
      kept host limit methods key ++ [nm] := by
  unfold kept at hroom ⊢
  rw [List.length_take] at hroom
  rw [List.filter_append, List.filter_singleton, h,
    List.take_of_length_le (l := List.filter _ methods) (by omega)]
  apply List.take_of_length_le
  simp only [cond_true, List.length_append, List.length_singleton]
  omega

end

abbrev Log := List (MetaKey × CompiledMethod)

def Log.of (log : Log) (key : MetaKey) : List CompiledMethod :=
  (log.filter fun v => v.1 == key).map Prod.snd

theorem Log.of_concat_self (log : Log) (key : MetaKey) (nm : CompiledMethod) :
    Log.of (log ++ [(key, nm)]) key = log.of key ++ [nm] := by
  unfold Log.of
  rw [List.filter_append, List.map_append]
  simp

theorem Log.of_concat_ne (log : Log) {key other : MetaKey} (h : other ≠ key)
    (nm : CompiledMethod) :
    Log.of (log ++ [(key, nm)]) other = log.of other := by
  unfold Log.of
  rw [List.filter_append, List.map_append]
  simp [h.symm]

structure Tallies (host : Host) (o : Options) (methods : List CompiledMethod)
    (log : Log) (s : Saving) : Prop where
  kept_eq : ∀ key, log.of key = kept host o.maxVersions methods key
  counted : ∀ key, s.versions.lookup key =
    if log.of key = [] then none else some (log.of key).length
  distinct : (s.versions.map Prod.fst).Nodup
  versions_eq : s.report.versions = log.length
  total_eq : s.report.versions + s.report.skipped = methods.length

namespace Tallies

variable {methods : List CompiledMethod} {log : Log} {s s' : Saving}
  {nm : CompiledMethod} {key : MetaKey}

theorem start (host : Host) (o : Options) (file : CacheFile)
    (stats : Statistics) :
    Tallies host o [] [] { file, stats } := by
  constructor
  · intro key
    exact List.take_nil.symm
  · intro key
    rfl
  · exact List.nodup_nil
  · rfl
  · rfl

theorem versionsOf_eq (h : Tallies host o methods log s) (key : MetaKey) :
    s.versionsOf key = (log.of key).length := by
  unfold versionsOf
  rw [h.counted]
  split
  · rename_i hnone
    rw [hnone]
    rfl
  · rfl

theorem isFull_iff (h : Tallies host o methods log s) (hlimit : 1 ≤ o.maxVersions)
    (key : MetaKey) :
    s.isFull o key = true ↔ o.maxVersions ≤ (log.of key).length := by
  unfold isFull
  rw [h.counted]
  split
  · rename_i hnone
    simp [hnone]
    omega
  · simp

theorem skip (h : Tallies host o methods log s)
    (hpassed : ∀ key, isVersionOf host key nm = true →
      o.maxVersions ≤ (log.of key).length)
    (hversions : s'.versions = s.versions)
    (hreport : s'.report = s.skip.report) :
    Tallies host o (methods ++ [nm]) log s' := by
  constructor
  · intro key
    rw [h.kept_eq]
    cases hversion : isVersionOf host key nm with
    | false => rw [kept_concat_of_not hversion]
    | true =>
        have hfull := hpassed key hversion
        rw [h.kept_eq] at hfull
        rw [kept_concat_of_full hfull]
  · rw [hversions]
    exact h.counted
  · rw [hversions]
    exact h.distinct
  · rw [hreport]
    exact h.versions_eq
  · have htotal := h.total_eq
    rw [hreport, List.length_append, List.length_singleton]
    change s.report.versions + (s.report.skipped + 1) = _
    omega

theorem add (h : Tallies host o methods log s)
    (hversion : isVersionOf host key nm = true)
    (hroom : (log.of key).length < o.maxVersions)
    (hversions : s'.versions =
      (key, s.versionsOf key + 1) :: s.versions.filter (·.1 != key))
    (hcount : s'.report.versions = s.report.versions + 1)
    (hskipped : s'.report.skipped = s.report.skipped) :
    Tallies host o (methods ++ [nm]) (log ++ [(key, nm)]) s' := by
  constructor
  · intro other
    by_cases hkey : other = key
    · rw [hkey, Log.of_concat_self, h.kept_eq, kept_concat_of_room hversion]
      rw [← h.kept_eq]
      exact hroom
    · have hnot : isVersionOf host other nm = false := by
        unfold isVersionOf at hversion ⊢
        rw [Bool.and_eq_true, beq_iff_eq] at hversion
        rw [hversion.2]
        simp [Ne.symm hkey]
      rw [Log.of_concat_ne log hkey, h.kept_eq, kept_concat_of_not hnot]
  · intro other
    rw [hversions, h.versionsOf_eq]
    by_cases hkey : other = key
    · rw [hkey, Log.of_concat_self, List.lookup_cons_self]
      simp
    · rw [Cache.lookup_replace hkey, h.counted, Log.of_concat_ne log hkey]
  · rw [hversions, List.map_cons, List.nodup_cons]
    constructor
    · simp
    · exact h.distinct.sublist (List.filter_sublist.map Prod.fst)
  · rw [hcount, h.versions_eq, List.length_append, List.length_singleton]
  · have htotal := h.total_eq
    rw [hcount, hskipped, List.length_append, List.length_singleton]
    omega

theorem mem_keys_iff (h : Tallies host o methods log s) (key : MetaKey) :
    key ∈ s.versions.map Prod.fst ↔ log.of key ≠ [] := by
  have hcounted := h.counted key
  constructor
  · intro hmem hnone
    rw [if_pos hnone, List.lookup_eq_none_iff] at hcounted
    rcases List.mem_map.mp hmem with ⟨entry, hentry, rfl⟩
    simpa using hcounted entry hentry
  · intro hsome
    rw [if_neg hsome, List.lookup_eq_some_iff] at hcounted
    rcases hcounted with ⟨before, after, hsplit, -⟩
    rw [hsplit]
    simp

theorem sum_eq (h : Tallies host o methods log s) :
    ((s.versions.map Prod.fst).map fun key => (log.of key).length).sum =
      log.length := by
  have hcount : ∀ key, (log.of key).length =
      (log.map Prod.fst).count key := by
    intro key
    unfold Log.of
    rw [List.length_map, List.count, List.countP_map, List.countP_eq_length_filter]
    rfl
  have hperm : (s.versions.map Prod.fst).Perm (log.map Prod.fst).dedup := by
    rw [List.perm_ext_iff_of_nodup h.distinct (List.nodup_dedup _)]
    intro key
    rw [h.mem_keys_iff, List.mem_dedup, ← List.count_pos_iff, ← hcount,
      ← List.length_pos_iff]
  simp only [hcount]
  rw [(hperm.map _).sum_eq, List.sum_map_count_dedup_eq_length, List.length_map]

end Tallies

end Saving

end CodeCache
