import CodeCache.Proofs.Bytes.Bounds
import CodeCache.Proofs.Store.Reloading
import CodeCache.Proofs.Store.Walks

/-!
# Loading with machine words

On a machine an offset is a word: a sum may not fit, and a part that is cut out may
not be there. Either would be a trap, and not a failure that loading reports. This is
loading with words for all offsets, and with a record of the containers that it looked
at. On bytes that fit in half of the address space it never comes to a trap, and does
what loading does.
-/

namespace CodeCache

inductive Halt where
  | trap
  | fail (e : Error)

/-- Loading on a machine. The state holds the offsets of the containers that were
looked at. -/
abbrev Machine := EStateM Halt (List UInt64)

namespace Machine

variable {α β γ : Type}

def settle (result : Except Error α) : Machine α := fun visited =>
  match result with
  | .ok a => .ok a visited
  | .error e => .error (.fail e) visited

def checkedAdd (a b : UInt64) : Option UInt64 :=
  if a.toNat + b.toNat < UInt64.size then some (a + b) else none

def add (a b : UInt64) : Machine UInt64 :=
  match checkedAdd a b with
  | some sum => pure sum
  | none => throw .trap

def cut (view : Bytes) (first last : UInt64) : Machine Bytes :=
  if first ≤ last ∧ last.toNat ≤ view.length then
    pure (view.window first.toNat (last.toNat - first.toNat))
  else throw .trap

def sliceAt (view : Bytes) (offset len : UInt64) : Machine Bytes :=
  let short := Error.short offset.toNat len.toNat view.length
  match checkedAdd offset len with
  | some finish =>
    if finish.toNat ≤ view.length then pure (view.window offset.toNat len.toNat)
    else throw (.fail short)
  | none => throw (.fail short)

/-- Whether a reader that has come so far can add eight to its position, as it does to
go on to a multiple of eight, and to the number of bytes. No sum of a reader is larger. -/
def fits (part : Bytes) (c : Cursor) : Prop :=
  c.position + 8 < UInt64.size ∧ part.length + 8 < UInt64.size

instance (part : Bytes) (c : Cursor) : Decidable (fits part c) :=
  inferInstanceAs (Decidable (_ ∧ _))

/-- Runs a reader. As it never moves back (`Confined`), it is enough to look at its last
position. -/
def read (reader : Read α) (part : Bytes) : Machine α :=
  match reader { bytes := part } with
  | .ok a c => if fits part c then pure a else throw .trap
  | .error e c => if fits part c then throw (.fail e) else throw .trap

def holds (h : FileHeader) (start size : UInt64) : Bool :=
  h.headerSize.toUInt64 ≤ start && (checkedAdd start size).any (· ≤ h.fileSize)

def check (h : FileHeader) (size : UInt64) : Except Error Unit :=
  if h.fileSize ≠ size then .error (.format (.sizeMismatch h.fileSize.toNat size.toNat))
  else if !(holds h h.containerStart h.containerSize && holds h h.metaStart h.metaSize) then
    .error (.format .sectionOutside)
  else if FileHeader.maxContainers < h.containerCount.toNat then
    .error (.format (.containerCount h.containerCount.toNat))
  else .ok ()

def sectionAt (view : Bytes) (offset : UInt64) (s : Section) : Machine (UInt64 × UInt64) :=
  if s.start.toNat < Container.headerSize then
    throw (.fail (.corruption (.containerSection s.start.toNat)))
  else do
    let start ← add offset s.start.toUInt64
    let _ ← sliceAt view start s.length.toUInt64
    return (start, s.length.toUInt64)

def container (view : Bytes) (offset : UInt64) : Machine (Container × Option UInt64) := do
  let header ← sliceAt view offset 32
  let (fingerprint, table, code, next) ← read Container.decodeHeader header
  let fingerprint ← sectionAt view offset fingerprint
  let table ← sectionAt view offset table
  let code ← sectionAt view offset code
  let part ← cut view fingerprint.1 (← add fingerprint.1 fingerprint.2)
  let fingerprint ← read Fingerprint.decoder part
  let part ← cut view table.1 (← add table.1 table.2)
  let table ← read (LookupTable.decoder part.length) part
  let code ← sliceAt view code.1 code.2
  let container : Container := { fingerprint, table, code := ⟨code⟩ }
  if next = 0 then return (container, none)
  else if next ≤ offset then
    throw (.fail (.corruption (.containerLink offset.toNat next.toNat)))
  else return (container, some next)

def accept (space : MetaSpace) (c : Container) : Except Error Unit :=
  c.methods.forM fun (index, _) => do
    let _ ← space.key index

def chain (view : Bytes) (space : MetaSpace) (finish : UInt64) (count : Nat)
    (loaded : List Container) (offset : UInt64) : Machine (List Container) :=
  if _h : finish ≤ offset ∨ count ≤ loaded.length then
    throw (.fail (.corruption (.containerChain offset.toNat loaded.length)))
  else do
    modify (· ++ [offset])
    let (c, next) ← container view offset
    settle (accept space c)
    match next with
    | some next => chain view space finish count (loaded ++ [c]) next
    | none =>
      if loaded.length + 1 ≠ count then
        throw (.fail (.corruption (.containerCount count (loaded.length + 1))))
      else return loaded ++ [c]
termination_by count - loaded.length
decreasing_by
  rw [List.length_append, List.length_singleton]
  omega

def load (view : Bytes) (expected : Option String) : Machine CacheFile := do
  if view.length < FileHeader.fixedSize then
    throw (.fail (.format (.noCache view.length)))
  let header ← read FileHeader.decode view
  settle (check header (UInt64.ofNat view.length))
  settle (header.checkBuild expected)
  let part ← cut view header.metaStart (← add header.metaStart header.metaSize)
  let space ← read MetaSpace.decoder part
  let finish ← add header.containerStart header.containerSize
  let containers ←
    chain view space finish header.containerCount.toNat [] header.containerStart
  return { buildIdentity := header.buildIdentity, space, containers }

/-!
## Steps that do not trap
-/

theorem settle_bind {x : Except Error α} {f : α → Except Error β} {next : α → Machine β}
    (h : ∀ a, x = .ok a → next a = settle (f a)) :
    settle x >>= next = settle (x >>= f) := by
  cases x with
  | ok a => exact h a rfl
  | error e => rfl

theorem settle_map_bind {x : Except Error α} {g : α → γ} {f : α → Except Error β}
    {next : γ → Machine β} (h : ∀ a, x = .ok a → next (g a) = settle (f a)) :
    settle (g <$> x) >>= next = settle (x >>= f) := by
  cases x with
  | ok a => exact h a rfl
  | error e => rfl

theorem checkedAdd_eq_some {a b : UInt64} (h : a.toNat + b.toNat < 2 ^ 64) :
    checkedAdd a b = some (a + b) :=
  if_pos h

theorem toNat_add_of_lt {a b : UInt64} (h : a.toNat + b.toNat < 2 ^ 64) :
    (a + b).toNat = a.toNat + b.toNat := by
  rw [UInt64.toNat_add]
  exact Nat.mod_eq_of_lt h

theorem add_bind {a b : UInt64} (h : a.toNat + b.toNat < 2 ^ 64) (next : UInt64 → Machine α) :
    add a b >>= next = next (a + b) := by
  unfold add
  rw [checkedAdd_eq_some h]
  rfl

theorem of_slice {bs part : Bytes} {offset len : Nat} (h : bs.slice offset len = .ok part) :
    offset + len ≤ bs.length ∧ part = bs.window offset len := by
  unfold Bytes.slice at h
  split at h
  · rename_i hfits
    cases h
    exact ⟨hfits, rfl⟩
  · cases h

theorem slice_of_section? {view : Bytes} {start : Nat} {offset len : UInt32} {part : Bytes}
    (h : Container.section? view start offset len = .ok part) :
    view.slice (start + offset.toNat) len.toNat = .ok part := by
  unfold Container.section? at h
  split at h
  · cases h
  · exact h

theorem toNat_section_start {offset : UInt64} (hoffset : offset.toNat < 2 ^ 63) (s : Section) :
    (offset + s.start.toUInt64).toNat = offset.toNat + s.start.toNat := by
  have hstart := s.start.toNat_lt
  rw [toNat_add_of_lt (by rw [UInt32.toNat_toUInt64]; omega), UInt32.toNat_toUInt64]

section

variable {view : Bytes} (hsize : view.length < 2 ^ 63)

include hsize

theorem read_eq {reader : Read α} (h : Confined reader) :
    read reader view = settle (reader.run view) := by
  have hend := h.position_le view
  have hlt := alignUp_lt view.length
  have hfits : ∀ c : Cursor, c.position ≤ alignUp view.length → fits view c := by
    intro c hc
    unfold fits UInt64.size
    omega
  unfold read Read.run
  cases hrun : reader { bytes := view } with
  | ok a c =>
      rw [hrun] at hend
      dsimp only at hend ⊢
      rw [if_pos (hfits c hend)]
      rfl
  | error e c =>
      rw [hrun] at hend
      dsimp only at hend ⊢
      rw [if_pos (hfits c hend)]
      rfl

theorem cut_bind {first len : UInt64} (h : first.toNat + len.toNat ≤ view.length)
    (next : Bytes → Machine α) :
    (do next (← cut view first (← add first len))) =
      next (view.window first.toNat len.toNat) := by
  have hfits : first.toNat + len.toNat < 2 ^ 64 := by omega
  have hsum := toNat_add_of_lt hfits
  rw [add_bind hfits]
  unfold cut
  have hin : first ≤ first + len ∧ (first + len).toNat ≤ view.length := by
    rw [UInt64.le_iff_toNat_le, hsum]
    exact ⟨Nat.le_add_right _ _, h⟩
  rw [if_pos hin, hsum, Nat.add_sub_cancel_left]
  rfl

theorem sliceAt_eq (offset len : UInt64) :
    sliceAt view offset len = settle (view.slice offset.toNat len.toNat) := by
  unfold sliceAt Bytes.slice
  by_cases hfits : offset.toNat + len.toNat < 2 ^ 64
  · rw [checkedAdd_eq_some hfits]
    dsimp only
    rw [toNat_add_of_lt hfits]
    by_cases hin : offset.toNat + len.toNat ≤ view.length
    · rw [if_pos hin, if_pos hin]
      rfl
    · rw [if_neg hin, if_neg hin]
      rfl
  · have hnone : checkedAdd offset len = none := if_neg hfits
    rw [hnone, if_neg (by omega)]
    rfl

theorem sectionAt_eq {offset : UInt64} (hoffset : offset.toNat < 2 ^ 63) (s : Section) :
    sectionAt view offset s =
      settle ((fun _ => (offset + s.start.toUInt64, s.length.toUInt64)) <$>
        Container.section? view offset.toNat s.start s.length) := by
  unfold sectionAt Container.section?
  by_cases hfirst : s.start.toNat < Container.headerSize
  · rw [if_pos hfirst, if_pos hfirst]
    rfl
  · have hstart := s.start.toNat_lt
    have hfits : offset.toNat + s.start.toUInt64.toNat < 2 ^ 64 := by
      rw [UInt32.toNat_toUInt64]
      omega
    rw [if_neg hfirst, if_neg hfirst, add_bind hfits, sliceAt_eq hsize,
      toNat_section_start hoffset, UInt32.toNat_toUInt64]
    cases view.slice (offset.toNat + s.start.toNat) s.length.toNat with
    | ok part => rfl
    | error e => rfl

theorem cut_section_bind {offset : UInt64} (hoffset : offset.toNat < 2 ^ 63) {s : Section}
    {part : Bytes} (h : Container.section? view offset.toNat s.start s.length = .ok part)
    (next : Bytes → Machine α) :
    (do next (← cut view (offset + s.start.toUInt64)
        (← add (offset + s.start.toUInt64) s.length.toUInt64))) =
      next part := by
  obtain ⟨hfits, hpart⟩ := of_slice (slice_of_section? h)
  have hstart := toNat_section_start hoffset s
  have hin : (offset + s.start.toUInt64).toNat + s.length.toUInt64.toNat ≤ view.length := by
    rw [hstart, UInt32.toNat_toUInt64]
    exact hfits
  rw [cut_bind hsize hin, hstart, UInt32.toNat_toUInt64, ← hpart]

theorem length_section_lt {offset : UInt64} {s : Section} {part : Bytes}
    (h : Container.section? view offset.toNat s.start s.length = .ok part) :
    part.length < 2 ^ 63 := by
  have hslice := slice_of_section? h
  have hlength := Bytes.length_of_slice hslice
  have hfits := (of_slice hslice).1
  omega

theorem container_eq {offset : UInt64} (hoffset : offset.toNat < 2 ^ 63) :
    container view offset = settle (Container.decode view offset.toNat) := by
  unfold container Container.decode
  rw [sliceAt_eq hsize]
  apply settle_bind
  intro header hheader
  have hlength : header.length = 32 := Bytes.length_of_slice hheader
  rw [read_eq (by omega) Container.decodeHeader_confined]
  apply settle_bind
  rintro ⟨fingerprintAt, tableAt, codeAt, next⟩ -
  dsimp only
  rw [sectionAt_eq hsize hoffset]
  apply settle_map_bind
  intro fingerprintPart hfingerprint
  rw [sectionAt_eq hsize hoffset]
  apply settle_map_bind
  intro tablePart htable
  rw [sectionAt_eq hsize hoffset]
  apply settle_map_bind
  intro codePart hcode
  dsimp only
  rw [cut_section_bind hsize hoffset hfingerprint,
    read_eq (length_section_lt hsize hfingerprint) Fingerprint.decoder_confined]
  apply settle_bind
  intro fingerprint _
  rw [cut_section_bind hsize hoffset htable,
    read_eq (length_section_lt hsize htable) (LookupTable.decoder_confined _)]
  apply settle_bind
  intro table _
  rw [sliceAt_eq hsize, toNat_section_start hoffset, UInt32.toNat_toUInt64,
    slice_of_section? hcode]
  change (if next = 0 then _ else _) = _
  by_cases hlast : next = 0
  · rw [if_pos hlast, if_pos hlast]
    rfl
  · rw [if_neg hlast, if_neg hlast]
    simp only [UInt64.le_iff_toNat_le]
    by_cases hback : next.toNat ≤ offset.toNat
    · rw [if_pos hback, if_pos hback]
      rfl
    · rw [if_neg hback, if_neg hback]
      rfl

end

/-!
## The chain of containers
-/

theorem of_decode {view : Bytes} {start : Nat} {c : Container} {next : Option UInt64}
    (h : Container.decode view start = .ok (c, next)) :
    (∃ part, LookupTable.decode part = .ok c.table) ∧
      ∀ link, next = some link → start < link.toNat := by
  unfold Container.decode at h
  obtain ⟨header, -, h⟩ := of_bind_eq_ok h
  obtain ⟨⟨fingerprintAt, tableAt, codeAt, word⟩, -, h⟩ := of_bind_eq_ok h
  obtain ⟨fingerprintPart, -, h⟩ := of_bind_eq_ok h
  obtain ⟨tablePart, -, h⟩ := of_bind_eq_ok h
  obtain ⟨codePart, -, h⟩ := of_bind_eq_ok h
  obtain ⟨fingerprint, -, h⟩ := of_bind_eq_ok h
  obtain ⟨table, htable, h⟩ := of_bind_eq_ok h
  dsimp only at h
  split at h
  · cases h
    exact ⟨⟨tablePart, htable⟩, by simp⟩
  · split at h
    · cases h
    · rename_i hforwards
      cases h
      constructor
      · exact ⟨tablePart, htable⟩
      · intro link hlink
        cases hlink
        exact Nat.not_le.mp hforwards

section

variable {view : Bytes} {space : MetaSpace} {finish offset : UInt64} {count : Nat}
  {loaded : List Container} {visited : List UInt64}

theorem chain_stop (h : finish ≤ offset ∨ count ≤ loaded.length) :
    chain view space finish count loaded offset visited =
      .error (.fail (.corruption (.containerChain offset.toNat loaded.length))) visited := by
  rw [chain, dif_pos h]
  rfl

theorem chain_error (hsize : view.length < 2 ^ 63) (hoffset : offset.toNat < 2 ^ 63)
    (h : ¬ (finish ≤ offset ∨ count ≤ loaded.length)) {e : Error}
    (hread : Container.decode view offset.toNat = .error e) :
    chain view space finish count loaded offset visited =
      .error (.fail e) (visited ++ [offset]) := by
  rw [chain, dif_neg h, run_modify_bind, container_eq hsize hoffset, hread]
  rfl

theorem chain_step (hsize : view.length < 2 ^ 63) (hoffset : offset.toNat < 2 ^ 63)
    (h : ¬ (finish ≤ offset ∨ count ≤ loaded.length)) {c : Container} {next : Option UInt64}
    (hread : Container.decode view offset.toNat = .ok (c, next)) :
    chain view space finish count loaded offset visited =
      (do
        settle (accept space c)
        match next with
        | some next => chain view space finish count (loaded ++ [c]) next
        | none =>
          if loaded.length + 1 ≠ count then
            throw (.fail (.corruption (.containerCount count (loaded.length + 1))))
          else return loaded ++ [c] : Machine (List Container)) (visited ++ [offset]) := by
  rw [chain, dif_neg h, run_modify_bind, container_eq hsize hoffset, hread]
  rfl

end

/-- The offsets of a chain: they go up, and there are no more than containers left. -/
structure Visits (offset finish : UInt64) (left : Nat) (offsets : List UInt64) : Prop where
  ascending : offsets.Pairwise (· < ·)
  inside : ∀ o ∈ offsets, offset ≤ o ∧ o < finish
  length_le : offsets.length ≤ left

theorem Visits.nil (offset finish : UInt64) (left : Nat) : Visits offset finish left [] where
  ascending := .nil
  inside := fun _ h => absurd h List.not_mem_nil
  length_le := Nat.zero_le left

theorem Visits.cons {offset next finish : UInt64} {left : Nat} {offsets : List UInt64}
    (h : Visits next finish left offsets) (hnext : offset < next) (hin : offset < finish) :
    Visits offset finish (left + 1) (offset :: offsets) where
  ascending := by
    apply List.pairwise_cons.mpr
    constructor
    · intro o ho
      exact UInt64.lt_of_lt_of_le hnext (h.inside o ho).1
    · exact h.ascending
  inside := by
    intro o ho
    cases ho with
    | head => exact ⟨UInt64.le_refl offset, hin⟩
    | tail _ hmem =>
        obtain ⟨hle, hlt⟩ := h.inside o hmem
        exact ⟨UInt64.le_of_lt (UInt64.lt_of_lt_of_le hnext hle), hlt⟩
  length_le := Nat.succ_le_succ h.length_le

theorem Visits.single {offset finish : UInt64} (left : Nat) (hin : offset < finish) :
    Visits offset finish (left + 1) [offset] where
  ascending := List.pairwise_singleton _ _
  inside := by
    intro o ho
    cases List.mem_singleton.mp ho
    exact ⟨UInt64.le_refl offset, hin⟩
  length_le := Nat.succ_le_succ (Nat.zero_le left)

theorem last_eq (loaded : List Container) (c : Container) (left : Nat) :
    (if loaded.length + 1 ≠ loaded.length + (left + 1) then
      throw (.fail (.corruption
        (.containerCount (loaded.length + (left + 1)) (loaded.length + 1))))
    else return loaded ++ [c] : Machine (List Container)) =
      settle ((loaded ++ ·) <$> (if left ≠ 0 then
        .error (.corruption (.containerCount (loaded.length + 1 + left) (loaded.length + 1)))
      else .ok [c])) := by
  by_cases hleft : left = 0
  · rw [hleft, if_neg (not_not_intro rfl), if_neg (not_not_intro rfl)]
    rfl
  · have hcount : loaded.length + (left + 1) = loaded.length + 1 + left := by omega
    rw [if_pos (by omega), if_pos hleft, hcount]
    rfl

theorem append_rest (loaded : List Container) (c : Container)
    (rest : Except Error (List Container)) :
    (loaded ++ [c] ++ ·) <$> rest =
      (loaded ++ ·) <$> (rest >>= fun rest => .ok (c :: rest)) := by
  cases rest with
  | error e => rfl
  | ok rest =>
      change Except.ok (loaded ++ [c] ++ rest) = .ok (loaded ++ c :: rest)
      simp

/-- The machine goes through a chain as loading does. Each container is behind the one
before it, so that no offset is looked at twice. -/
theorem chain_eq {view : Bytes} (hsize : view.length < 2 ^ 63) (space : MetaSpace)
    {finish : UInt64} (hfinish : finish.toNat ≤ view.length) (left : Nat)
    (loaded : List Container) (offset : UInt64) (visited : List UInt64) :
    ∃ offsets, Visits offset finish left offsets ∧
      chain view space finish (loaded.length + left) loaded offset visited =
        settle ((loaded ++ ·) <$> CacheFile.decodeChain view space finish.toNat
          loaded.length left offset.toNat) (visited ++ offsets) := by
  induction left generalizing loaded offset visited with
  | zero =>
      refine ⟨[], Visits.nil offset finish 0, ?_⟩
      have hfull : loaded.length + 0 ≤ loaded.length := Nat.le_refl _
      rw [chain_stop (Or.inr hfull), List.append_nil]
      rfl
  | succ left ih =>
      by_cases hend : finish ≤ offset
      · refine ⟨[], Visits.nil offset finish _, ?_⟩
        rw [chain_stop (Or.inl hend), CacheFile.decodeChain,
          if_pos (UInt64.le_iff_toNat_le.mp hend), List.append_nil]
        rfl
      · have hin : offset < finish := UInt64.not_le.mp hend
        have hlt := UInt64.lt_iff_toNat_lt.mp hin
        have hoffset : offset.toNat < 2 ^ 63 := by omega
        have hgo : ¬ (finish ≤ offset ∨ loaded.length + (left + 1) ≤ loaded.length) := by
          intro h
          cases h with
          | inl h => exact hend h
          | inr h => omega
        rw [CacheFile.decodeChain, if_neg (Nat.not_le.mpr hlt)]
        cases hread : Container.decode view offset.toNat with
        | error e =>
            refine ⟨[offset], Visits.single left hin, ?_⟩
            rw [chain_error hsize hoffset hgo hread]
            rfl
        | ok answer =>
            obtain ⟨c, next⟩ := answer
            rw [chain_step hsize hoffset hgo hread]
            change ∃ offsets, _ ∧ _ = settle ((loaded ++ ·) <$> (accept space c >>= _)) _
            cases accept space c with
            | error e => exact ⟨[offset], Visits.single left hin, rfl⟩
            | ok _ =>
                cases next with
                | none =>
                    exact ⟨[offset], Visits.single left hin, congrFun (last_eq loaded c left) _⟩
                | some next =>
                    have hnext := UInt64.lt_iff_toNat_lt.mpr ((of_decode hread).2 next rfl)
                    obtain ⟨offsets, hvisits, hrest⟩ :=
                      ih (loaded ++ [c]) next (visited ++ [offset])
                    refine ⟨offset :: offsets, hvisits.cons hnext hin, ?_⟩
                    rw [append_rest, List.length_append, List.length_singleton,
                      List.append_assoc, List.singleton_append, Nat.add_assoc,
                      Nat.add_comm 1 left] at hrest
                    exact hrest

/-!
## Files
-/

theorem holds_eq (h : FileHeader) (start size : UInt64) :
    holds h start size = h.holds start size := by
  have hend := h.fileSize.toNat_lt
  have hfirst : (h.headerSize.toUInt64 ≤ start) = (h.headerSize.toNat ≤ start.toNat) := by
    rw [UInt64.le_iff_toNat_le, UInt32.toNat_toUInt64]
  unfold holds FileHeader.holds
  by_cases hfits : start.toNat + size.toNat < 2 ^ 64
  · have hlast : (start + size ≤ h.fileSize) =
        (start.toNat + size.toNat ≤ h.fileSize.toNat) := by
      rw [UInt64.le_iff_toNat_le, toNat_add_of_lt hfits]
    rw [checkedAdd_eq_some hfits]
    simp [hfirst, hlast]
  · have hnone : checkedAdd start size = none := if_neg hfits
    have hout : ¬ start.toNat + size.toNat ≤ h.fileSize.toNat := by omega
    rw [hnone]
    simp [hout]

theorem check_eq (h : FileHeader) {n : Nat} (hn : n < 2 ^ 63) :
    check h (UInt64.ofNat n) = h.check n := by
  have hsize : (UInt64.ofNat n).toNat = n :=
    UInt64.toNat_ofNat_of_lt' (show n < 2 ^ 64 by omega)
  have hsame : (h.fileSize ≠ UInt64.ofNat n) = (h.fileSize.toNat ≠ n) := by
    rw [ne_eq, ne_eq, ← UInt64.toNat_inj, hsize]
  unfold check FileHeader.check
  simp only [hsame, hsize, holds_eq]

theorem fits_of_check {h : FileHeader} {n : Nat} (hcheck : h.check n = .ok ()) :
    h.containerStart.toNat + h.containerSize.toNat ≤ n ∧
      h.metaStart.toNat + h.metaSize.toNat ≤ n := by
  unfold FileHeader.check at hcheck
  split at hcheck
  · cases hcheck
  · rename_i hsize
    split at hcheck
    · cases hcheck
    · rename_i hholds
      simp [FileHeader.holds] at hholds
      omega

structure Looked (view : Bytes) (visited : List UInt64) : Prop where
  ascending : visited.Pairwise (· < ·)
  declared : ∀ offset ∈ visited, ∃ header, FileHeader.decode.run view = .ok header ∧
    header.containerStart ≤ offset ∧
    offset.toNat < header.containerStart.toNat + header.containerSize.toNat ∧
    visited.length ≤ header.containerCount.toNat

theorem Looked.nil (view : Bytes) : Looked view [] where
  ascending := .nil
  declared := fun _ h => absurd h List.not_mem_nil

def Follows (view : Bytes) (work : Machine α) (result : Except Error α) : Prop :=
  ∃ visited, Looked view visited ∧ work [] = settle result visited

theorem Follows.of_settle {view : Bytes} (result : Except Error α) :
    Follows view (settle result) result :=
  ⟨[], Looked.nil view, rfl⟩

theorem Follows.of_settle_bind {view : Bytes} {x : Except Error α} {next : α → Machine β}
    {f : α → Except Error β} (h : ∀ a, x = .ok a → Follows view (next a) (f a)) :
    Follows view (settle x >>= next) (x >>= f) := by
  cases x with
  | ok a => exact h a rfl
  | error e => exact Follows.of_settle (.error e)

theorem chain_follows {view : Bytes} (hsize : view.length < 2 ^ 63) {header : FileHeader}
    (hheader : FileHeader.decode.run view = .ok header)
    (hfits : header.containerStart.toNat + header.containerSize.toNat ≤ view.length)
    (space : MetaSpace) (g : List Container → β) :
    Follows view
      (do
        let finish ← add header.containerStart header.containerSize
        let containers ←
          chain view space finish header.containerCount.toNat [] header.containerStart
        return g containers)
      (do
        let containers ← CacheFile.decodeChain view space
          (header.containerStart.toNat + header.containerSize.toNat) 0
          header.containerCount.toNat header.containerStart.toNat
        return g containers) := by
  have hword : header.containerStart.toNat + header.containerSize.toNat < 2 ^ 64 := by omega
  have hsum := toNat_add_of_lt hword
  obtain ⟨visited, hvisits, hrun⟩ := chain_eq hsize space (hsum.trans_le hfits)
    header.containerCount.toNat [] header.containerStart []
  rw [List.length_nil, Nat.zero_add, hsum] at hrun
  refine ⟨visited, ⟨hvisits.ascending, ?_⟩, ?_⟩
  · intro offset hoffset
    obtain ⟨hle, hlt⟩ := hvisits.inside offset hoffset
    rw [UInt64.lt_iff_toNat_lt, hsum] at hlt
    exact ⟨header, hheader, hle, hlt, hvisits.length_le⟩
  · rw [add_bind hword]
    cases hchain : CacheFile.decodeChain view space
        (header.containerStart.toNat + header.containerSize.toNat) 0
        header.containerCount.toNat header.containerStart.toNat with
    | error e =>
        rw [hchain] at hrun
        exact run_bind_error hrun
    | ok containers =>
        rw [hchain] at hrun
        exact run_bind hrun

/-- The machine loads what loading loads, and fails as it does. -/
theorem load_follows {view : Bytes} (hsize : view.length < 2 ^ 63) (expected : Option String) :
    Follows view (load view expected) (CacheFile.decode view expected) := by
  unfold load CacheFile.decode
  by_cases hshort : view.length < FileHeader.fixedSize
  · rw [if_pos hshort, if_pos hshort]
    exact Follows.of_settle (.error _)
  rw [if_neg hshort, if_neg hshort, read_eq hsize FileHeader.decode_confined]
  apply Follows.of_settle_bind
  intro header hheader
  rw [check_eq header hsize]
  apply Follows.of_settle_bind
  intro _ hcheck
  apply Follows.of_settle_bind
  intro _ _
  obtain ⟨hcontainers, hmeta⟩ := fits_of_check hcheck
  have hpart : (view.window header.metaStart.toNat header.metaSize.toNat).length < 2 ^ 63 := by
    rw [Bytes.length_window hmeta]
    omega
  rw [cut_bind hsize hmeta, read_eq hpart MetaSpace.decoder_confined]
  apply Follows.of_settle_bind
  intro space _
  exact chain_follows hsize hheader hcontainers space _

end Machine

/-!
## Loaded files
-/

theorem LookupTable.has_buckets_of_decode {bs : Bytes} {t : LookupTable}
    (h : decode bs = .ok t) :
    0 < t.bucketCount := by
  have hreads : Ensures (fun _ => True) (decoder bs.length) fun t => 0 < t.bucketCount := by
    unfold decoder
    refine (Ensures.of_true _).of_bind fun buckets _ => ?_
    refine (Ensures.of_true _).of_bind fun count _ => ?_
    refine (Ensures.of_true _).of_bind fun held _ => ?_
    refine .of_check fun hshape => ?_
    refine (Ensures.of_true _).of_bind fun entries _ => ?_
    exact .of_pure (Nat.pos_of_ne_zero fun hzero => hshape (Or.inl hzero))
  exact hreads.of_run h

theorem Container.walkable_of_decode {view : Bytes} {start : Nat} {c : Container}
    {next : Option UInt64} (h : decode view start = .ok (c, next)) :
    c.Walkable := by
  obtain ⟨⟨part, hpart⟩, -⟩ := Machine.of_decode h
  exact walkable (LookupTable.has_buckets_of_decode hpart)

namespace CacheFile

theorem walkable_of_decodeChain {view : Bytes} {space : MetaSpace}
    {finish before left offset : Nat} {cs : List Container}
    (h : decodeChain view space finish before left offset = .ok cs) :
    ∀ c ∈ cs, c.Walkable := by
  induction cs generalizing before left offset with
  | nil => intro c hc; cases hc
  | cons first rest ih =>
      obtain ⟨c, next, hread, hrest⟩ := of_decodeChain_eq_ok h
      have hfirst := Container.walkable_of_decode hread
      cases next with
      | none =>
          cases hrest
          intro other hother
          rw [List.mem_singleton.mp hother]
          exact hfirst
      | some next =>
          obtain ⟨rest', left', heq, hrest⟩ := hrest
          cases heq
          intro other hother
          cases hother with
          | head => exact hfirst
          | tail _ hmem => exact ih hrest other hmem

/-- On any bytes that fit in half of the address space, and whatever build is expected,
the machine comes to the file or to the failure that loading comes to, and never to a
trap. It looks at containers at offsets that go up, no more of them than the header
declares; and the chains of a file that was loaded can be walked. -/
theorem load_safe {view : Bytes} (hsize : view.length < 2 ^ 63) (expected : Option String) :
    (∃ visited, Machine.Looked view visited ∧
      match decode view expected with
      | .ok f => Machine.load view expected [] = .ok f visited
      | .error e => Machine.load view expected [] = .error (.fail e) visited) ∧
    ∀ f, decode view expected = .ok f → ∀ c ∈ f.containers, c.Walkable := by
  constructor
  · obtain ⟨visited, hlooked, hrun⟩ := Machine.load_follows hsize expected
    refine ⟨visited, hlooked, ?_⟩
    cases hdecode : decode view expected with
    | ok f =>
        rw [hdecode] at hrun
        exact hrun
    | error e =>
        rw [hdecode] at hrun
        exact hrun
  · intro f hf
    obtain ⟨header, -, -, -, -, hchain⟩ := of_decode hf
    exact walkable_of_decodeChain hchain

namespace Sample

def stored : Bytes :=
  encode
    { buildIdentity := "build"
      containers := [.sized (.capture {}) 0, .sized (.capture { objectAlignment := 16 }) 0] }

theorem length_stored_lt : stored.length < 2 ^ 63 := by
  decide +kernel

theorem count_stored :
    (decode stored (some "build")).toOption.map (·.containers.length) = some 2 := by
  decide +kernel

end Sample

theorem load_safe_stored :
    Sample.stored.length < 2 ^ 63 ∧
      ∃ f visited, Machine.load Sample.stored (some "build") [] = .ok f visited ∧
        Machine.Looked Sample.stored visited ∧ f.containers.length = 2 ∧
        ∀ c ∈ f.containers, c.Walkable := by
  have hsafe := load_safe Sample.length_stored_lt (some "build")
  have hcount := Sample.count_stored
  cases hdecode : decode Sample.stored (some "build") with
  | error e =>
      rw [hdecode] at hcount
      cases hcount
  | ok f =>
      rw [hdecode] at hsafe hcount
      obtain ⟨⟨visited, hlooked, hrun⟩, hwalkable⟩ := hsafe
      exact ⟨Sample.length_stored_lt, f, visited, hrun, hlooked, Option.some.inj hcount,
        hwalkable f rfl⟩

end CacheFile

end CodeCache
