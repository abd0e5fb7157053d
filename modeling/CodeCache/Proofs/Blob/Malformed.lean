import CodeCache.Proofs.Blob.Access
import CodeCache.Proofs.Blob.Faults
import CodeCache.Proofs.Tag.Passing

/-!
# Malformed sections

A read past the end is the failure of a file that is too short. Inside an accepted blob
it can only mean that a section contradicts itself, which is corruption, so whoever
reads a section has to word it anew. Record lists and tag streams do that for every
read, and relocations have as many bytes as their number asks for. The reader of stack
maps does it for the data of a map, but not for the words in front: its failure is one
of a short file exactly if the section ends inside such words.
-/

namespace CodeCache

def Consumes {α : Type} (size : Nat) (reader : Read α) : Prop :=
  ∀ c : Cursor, c.position + size ≤ c.bytes.length →
    (∃ a, reader c = .ok a { c with position := c.position + size }) ∨
      ∃ e c', reader c = .error e c' ∧ e.isCorruption = true

namespace Consumes

variable {α β : Type} {m n : Nat}

theorem of_takes {reader : Read α} (h : Takes n reader) : Consumes n reader :=
  fun c hfits => Or.inl (h c hfits)

theorem of_throw {e : Error} (h : e.isCorruption = true) (n : Nat) :
    Consumes n (throw e : Read α) :=
  fun c _ => Or.inr ⟨e, c, rfl, h⟩

theorem of_bind {reader : Read α} {next : α → Read β} (h : Consumes m reader)
    (hnext : ∀ a, Consumes n (next a)) :
    Consumes (n + m) (reader >>= next) := by
  intro c hfits
  rcases h c (by omega) with ⟨a, ha⟩ | ⟨e, c', he, hcorrupt⟩
  · rw [run_bind ha]
    have hrest := hnext a { c with position := c.position + m } (by simp only; omega)
    rwa [Nat.add_assoc, Nat.add_comm m n] at hrest
  · exact Or.inr ⟨e, c', run_bind_error he, hcorrupt⟩

theorem of_bind_pure {reader : Read α} {f : α → β} (h : Consumes m reader) :
    Consumes m (reader >>= fun a => pure (f a)) := by
  simpa using h.of_bind fun a => of_takes (.of_pure (f a))

theorem run {reader : Read α} (h : Consumes n reader) {bs : Bytes} (hlength : bs.length = n)
    {e : Error} (hrun : reader.run bs = .error e) :
    e.isCorruption = true := by
  unfold Read.run at hrun
  rcases h { bytes := bs } (by simp [hlength]) with ⟨a, ha⟩ | ⟨e', c', he, hcorrupt⟩
  · rw [ha] at hrun
    cases hrun
  · rw [he] at hrun
    cases hrun
    exact hcorrupt

end Consumes

/-!
## Relocations
-/

namespace Relocation

theorem decode_consumes : Consumes size decode := by
  change Consumes 16 decode
  have hword : Consumes 4 Read.uint32 := .of_takes .of_uint32
  have hhalf : Consumes 2 Read.uint16 := .of_takes .of_uint16
  unfold decode
  refine hword.of_bind fun offset => ?_
  refine hhalf.of_bind fun code => ?_
  refine hhalf.of_bind fun flags => ?_
  refine hword.of_bind fun a => ?_
  refine Consumes.of_bind (n := 0) hword fun b => ?_
  split
  · exact .of_takes (.of_pure _)
  · exact .of_throw rfl 0

theorem decodeMany_consumes (n : Nat) : Consumes (n * size) (decodeMany n) := by
  induction n with
  | zero =>
      rw [Nat.zero_mul]
      exact .of_takes (.of_pure [])
  | succ n ih =>
      unfold decodeMany
      rw [Nat.succ_mul]
      exact decode_consumes.of_bind fun r => ih.of_bind_pure

end Relocation

/-!
## Tag streams
-/

namespace TagRecord

theorem within_blames {α : Type} {reader : Read α} (start : Nat)
    (h : Blames (fun e => ∃ r, e = .format (.short r)) reader) :
    Blames (·.isCorruption = true) (within start reader) := by
  intro c e c' hrun
  unfold within Read.mapError at hrun
  split at hrun
  · cases hrun
  · rename_i e' c'' hread
    obtain ⟨r, rfl⟩ := h _ _ _ hread
    cases hrun
    rfl

theorem uint16_blames (start : Nat) :
    Blames (·.isCorruption = true) (within start Read.uint16) :=
  within_blames start (.of_uint16 fun _ _ _ => ⟨_, rfl⟩)

theorem uint32_blames (start : Nat) :
    Blames (·.isCorruption = true) (within start Read.uint32) :=
  within_blames start (.of_uint32 fun _ _ _ => ⟨_, rfl⟩)

theorem loaderOf_blames (start : Nat) (code : UInt16) :
    Blames (·.isCorruption = true) (loaderOf start code) := by
  unfold loaderOf
  split
  · exact .of_pure _
  · exact .of_throw rfl

theorem readText_blames (start : Nat) : Blames (·.isCorruption = true) (readText start) := by
  unfold readText
  refine (uint32_blames start).of_bind fun size => ?_
  refine (within_blames start (.of_bytes (fun _ _ _ => ⟨_, rfl⟩) _)).of_bind fun bs => ?_
  split
  · exact .of_pure _
  · exact .of_throw rfl

theorem readState_blames (start : Nat) : Blames (·.isCorruption = true) (readState start) := by
  unfold readState
  refine (uint32_blames start).of_bind fun code => ?_
  split
  · exact .of_pure _
  · exact .of_throw rfl

theorem decodeOperands_blames (start : Nat) (tag half : UInt16) :
    Blames (·.isCorruption = true) (decodeOperands start tag half) := by
  have hclass : ∀ f : Loader → UInt32 → InitState → TagRecord,
      Blames (·.isCorruption = true) (loaderOf start half >>= fun loader =>
        within start Read.uint32 >>= fun index =>
          readState start >>= fun state => pure (f loader index state)) := by
    intro f
    refine (loaderOf_blames start half).of_bind fun loader => ?_
    refine (uint32_blames start).of_bind fun index => ?_
    exact (readState_blames start).of_bind_pure
  unfold decodeOperands
  split
  · exact .of_throw rfl
  · split
    · exact (uint32_blames start).of_bind_pure
    · exact .of_throw rfl
  · exact (readText_blames start).of_bind_pure
  · exact (loaderOf_blames start half).of_bind_pure
  · refine (uint32_blames start).of_bind fun index => ?_
    split
    · exact .of_pure _
    · exact .of_throw rfl
  · exact .of_throw rfl
  · exact .of_pure _
  · exact (uint32_blames start).of_bind_pure
  · exact hclass _
  · exact hclass _
  · refine (loaderOf_blames start half).of_bind fun loader => ?_
    exact (uint32_blames start).of_bind_pure
  · exact .of_pure _
  · exact .of_pure _
  · exact .of_pure _
  · exact .of_throw rfl

theorem decode_blames : Blames (·.isCorruption = true) decode := by
  unfold decode
  refine Blames.of_bind (fun _ _ _ h => nomatch h) fun start => ?_
  refine .of_check rfl ?_
  refine (uint16_blames start).of_bind fun tag => ?_
  refine (uint16_blames start).of_bind fun half => ?_
  refine (decodeOperands_blames start tag half).of_bind fun record => ?_
  exact Blames.of_align.of_bind_pure

end TagRecord

namespace TagStream

theorem isCorruption_of_scanFrom {steps : Nat} {c : Cursor} {e : Error}
    (h : (scanFrom steps c).fault = some e) :
    e.isCorruption = true := by
  induction steps generalizing c with
  | zero => cases h
  | succ steps ih =>
      unfold scanFrom at h
      split at h
      · rename_i e' c' hdecode
        cases h
        exact TagRecord.decode_blames _ _ _ hdecode
      · cases h
      · exact ih h

theorem isCorruption_of_decode {bs : Bytes} {e : Error} (h : decode bs = .error e) :
    e.isCorruption = true := by
  cases hfault : (scan bs).fault with
  | some e' =>
      have hdecode : decode bs = .error e' := walk_of_fault hfault id
      rw [hdecode] at h
      cases h
      exact isCorruption_of_scanFrom hfault
  | none =>
      have hdecode : ∃ records, decode bs = .ok records := by
        refine ⟨(scan bs).records.map (·.2), ?_⟩
        unfold decode walk
        simp only [hfault]
        exact congrArg (· >>= _) List.mapM_pure
      obtain ⟨records, hok⟩ := hdecode
      rw [hok] at h
      cases h

end TagStream

/-!
## Stack maps
-/

namespace Read

variable {c : Cursor} {len : Nat}

theorem bytes_of_le (h : c.position + len ≤ c.bytes.length) :
    bytes len c =
      .ok (c.bytes.window c.position len) { c with position := c.position + len } := by
  unfold bytes Bytes.slice
  rw [if_pos h]

theorem bytes_of_lt (h : c.bytes.length < c.position + len) :
    bytes len c = .error (.short c.position len c.bytes.length) c := by
  unfold bytes Bytes.slice
  rw [if_neg (Nat.not_le.mpr h)]

theorem uint32_of_le (h : c.position + 4 ≤ c.bytes.length) :
    uint32 c = .ok (c.bytes.window c.position 4).toUInt32
      { c with position := c.position + 4 } :=
  run_bind (bytes_of_le h)

theorem uint32_of_lt (h : c.bytes.length < c.position + 4) :
    uint32 c = .error (.short c.position 4 c.bytes.length) c :=
  run_bind_error (bytes_of_lt h)

theorem mapError_of_ok {α : Type} {reader : Read α} {a : α} {c' : Cursor}
    (f : Error → Error) (h : reader c = .ok a c') :
    reader.mapError f c = .ok a c' := by
  unfold mapError
  rw [h]

theorem mapError_of_error {α : Type} {reader : Read α} {e : Error} {c' : Cursor}
    (f : Error → Error) (h : reader c = .error e c') :
    reader.mapError f c = .error (f e) c' := by
  unfold mapError
  rw [h]

end Read

namespace StackMap

def wordAt (bs : Bytes) (position : Nat) : Nat :=
  (bs.window position 4).toUInt32.toNat

/-- One of the next `n` maps has no room for the three words of its head, and all maps
before it have room for their data. -/
def endsInHead (bs : Bytes) : Nat → Nat → Bool
  | 0, _ => false
  | n + 1, start =>
    let finish := start + 12 + wordAt bs (start + 8)
    bs.length < start + 12 || finish ≤ bs.length && endsInHead bs n (alignUp finish)

/-- The bytes of a set end inside the two words in front, or they are as many as they
say and end inside the head of a map that is counted. -/
def endsInWord (bs : Bytes) : Bool :=
  bs.length < 8 || wordAt bs 0 = bs.length - 8 && endsInHead bs (wordAt bs 4) 8

variable {bs : Bytes} {start : Nat}

theorem decode_of_short_head (i : Nat) (h : bs.length < start + 12) :
    ∃ offset c, decode i ⟨bs, start⟩ = .error (.short offset 4 bs.length) c := by
  unfold decode
  by_cases hfirst : start + 4 ≤ bs.length
  · rw [run_bind (Read.uint32_of_le hfirst)]
    by_cases hsecond : start + 8 ≤ bs.length
    · rw [run_bind (Read.uint32_of_le hsecond), run_bind_error (Read.uint32_of_lt h)]
      exact ⟨_, _, rfl⟩
    · rw [run_bind_error (Read.uint32_of_lt (Nat.not_le.mp hsecond))]
      exact ⟨_, _, rfl⟩
  · rw [run_bind_error (Read.uint32_of_lt (Nat.not_le.mp hfirst))]
    exact ⟨_, _, rfl⟩

theorem decode_of_short_data (i : Nat) (hhead : start + 12 ≤ bs.length)
    (h : bs.length < start + 12 + wordAt bs (start + 8)) :
    ∃ c, decode i ⟨bs, start⟩ = .error (.corruption (.stackMapData i)) c := by
  have hfirst : start + 4 ≤ bs.length := by omega
  have hsecond : start + 8 ≤ bs.length := by omega
  unfold decode
  rw [run_bind (Read.uint32_of_le hfirst), run_bind (Read.uint32_of_le hsecond),
    run_bind (Read.uint32_of_le hhead),
    run_bind_error (Read.mapError_of_error _ (Read.bytes_of_lt h))]
  exact ⟨_, rfl⟩

theorem decode_of_le (i : Nat) (hhead : start + 12 ≤ bs.length)
    (h : start + 12 + wordAt bs (start + 8) ≤ bs.length) :
    ∃ m, decode i ⟨bs, start⟩ =
      .ok m ⟨bs, alignUp (start + 12 + wordAt bs (start + 8))⟩ := by
  have hfirst : start + 4 ≤ bs.length := by omega
  have hsecond : start + 8 ≤ bs.length := by omega
  unfold decode
  rw [run_bind (Read.uint32_of_le hfirst), run_bind (Read.uint32_of_le hsecond),
    run_bind (Read.uint32_of_le hhead),
    run_bind (Read.mapError_of_ok _ (Read.bytes_of_le h))]
  exact ⟨_, rfl⟩

/-- If the bytes end in a word, the reader fails to read it; else it answers, or the
bytes are corrupt. -/
def Settles {α : Type} (bs : Bytes) (ends : Bool) (result : EStateM.Result Error Cursor α) :
    Prop :=
  if ends then ∃ offset c, result = .error (.short offset 4 bs.length) c
  else ∀ e c, result = .error e c → e.isCorruption = true

theorem Settles.of_bind_pure {α β : Type} {reader : Read α} {f : α → β} {c : Cursor}
    {ends : Bool} (h : Settles bs ends (reader c)) :
    Settles bs ends ((reader >>= fun a => pure (f a)) c) := by
  cases hrun : reader c with
  | ok a c' =>
      rw [hrun] at h
      rw [run_bind hrun]
      cases ends with
      | true =>
          obtain ⟨_, _, hshort⟩ := h
          cases hshort
      | false => exact fun _ _ hfails => nomatch hfails
  | error e c' =>
      rw [hrun] at h
      rw [run_bind_error hrun]
      cases ends with
      | true =>
          obtain ⟨offset, _, hshort⟩ := h
          cases hshort
          exact ⟨offset, c', rfl⟩
      | false =>
          intro _ _ hfails
          cases hfails
          exact h e c' rfl

/-- The cases are those of `endsInHead`: the next map has no head, it has a head and no
data, or it is there. -/
theorem decodeMany_settles (i n start : Nat) :
    Settles bs (endsInHead bs n start) (decodeMany i n ⟨bs, start⟩) := by
  induction n generalizing i start with
  | zero => exact fun e c h => nomatch h
  | succ n ih =>
      unfold decodeMany
      by_cases hhead : bs.length < start + 12
      · have hends : endsInHead bs (n + 1) start = true := by
          simp [endsInHead, hhead]
        obtain ⟨offset, c, hrun⟩ := decode_of_short_head i hhead
        rw [hends, run_bind_error hrun]
        exact ⟨offset, c, rfl⟩
      · by_cases hdata : bs.length < start + 12 + wordAt bs (start + 8)
        · have hends : endsInHead bs (n + 1) start = false := by
            simp [endsInHead, hhead, hdata]
          obtain ⟨c, hrun⟩ := decode_of_short_data i (Nat.not_lt.mp hhead) hdata
          rw [hends, run_bind_error hrun]
          intro e c' h
          cases h
          rfl
        · have hends : endsInHead bs (n + 1) start =
              endsInHead bs n (alignUp (start + 12 + wordAt bs (start + 8))) := by
            simp [endsInHead, hhead, Nat.not_lt.mp hdata]
          obtain ⟨m, hrun⟩ := decode_of_le i (Nat.not_lt.mp hhead) (Nat.not_lt.mp hdata)
          rw [hends, run_bind hrun]
          exact (ih (i + 1) _).of_bind_pure

theorem decodeSet_of_le (h : 8 ≤ bs.length) :
    decodeSet { bytes := bs } =
      if wordAt bs 0 = bs.length - 8 then decodeMany 0 (wordAt bs 4) ⟨bs, 8⟩
      else .error (.corruption (.stackMapSize (wordAt bs 0) (bs.length - 8))) ⟨bs, 8⟩ := by
  have hfirst : 4 ≤ bs.length := Nat.le_trans (by decide) h
  unfold decodeSet
  rw [run_bind (Read.uint32_of_le (by simpa using hfirst)),
    run_bind (Read.uint32_of_le (by simpa using h))]
  by_cases hdeclared : wordAt bs 0 = bs.length - 8
  · rw [if_pos hdeclared]
    exact congrFun (if_neg (not_not_intro hdeclared)) (⟨bs, 8⟩ : Cursor)
  · rw [if_neg hdeclared]
    exact congrFun (if_pos hdeclared) (⟨bs, 8⟩ : Cursor)

theorem decodeSet_settles (bs : Bytes) :
    Settles bs (endsInWord bs) (decodeSet { bytes := bs }) := by
  by_cases hlength : bs.length < 8
  · have hends : endsInWord bs = true := by
      simp [endsInWord, hlength]
    unfold decodeSet
    rw [hends]
    by_cases hfirst : 4 ≤ bs.length
    · rw [run_bind (Read.uint32_of_le (by simpa using hfirst)),
        run_bind_error (Read.uint32_of_lt (by simpa using hlength))]
      exact ⟨_, _, rfl⟩
    · rw [run_bind_error (Read.uint32_of_lt (by simpa using hfirst))]
      exact ⟨_, _, rfl⟩
  · rw [decodeSet_of_le (Nat.not_lt.mp hlength)]
    by_cases hdeclared : wordAt bs 0 = bs.length - 8
    · have hends : endsInWord bs = endsInHead bs (wordAt bs 4) 8 := by
        simp [endsInWord, hlength, hdeclared]
      rw [hends, if_pos hdeclared]
      exact decodeMany_settles 0 _ 8
    · have hends : endsInWord bs = false := by
        simp [endsInWord, hlength, hdeclared]
      rw [hends, if_neg hdeclared]
      intro e c h
      cases h
      rfl

theorem decodeAll_settles (bs : Bytes) :
    if endsInWord bs then ∃ place, decodeAll bs = .error (.short place 4 bs.length)
    else ∀ e, decodeAll bs = .error e → e.isCorruption = true := by
  have hset := decodeSet_settles bs
  unfold Settles at hset
  unfold decodeAll Read.run
  split
  · rename_i hends
    rw [if_pos hends] at hset
    obtain ⟨place, c, hrun⟩ := hset
    rw [hrun]
    exact ⟨place, rfl⟩
  · rename_i hends
    rw [if_neg hends] at hset
    intro e h
    split at h
    · cases h
    · rename_i e' c hrun
      cases h
      exact hset _ _ hrun

end StackMap

/-!
## All sections
-/

theorem Wire.Fault.isCorruption {e : Error} (h : Wire.Fault e) : e.isCorruption = true := by
  cases h
  rfl

namespace Blob

def mapBytes (b : Blob) : Bytes :=
  b.part b.header.stackMaps

/-- One of the sections cannot be read, and the failure says why. -/
inductive Malformed (b : Blob) (e : Error) : Prop where
  | relocations (h : b.relocations = .error e)
  | dependencies (h : b.dependencies = .error e)
  | speculations (h : b.speculations = .error e)
  | tags {bs : Bytes} (hbs : bs ∈ [b.tagMeta, b.tagOop, b.tagReloc])
    (h : TagStream.decode bs = .error e)
  | stackMaps (h : b.stackMaps = .error e)

variable {b : Blob} {space : Bytes} {offset : UInt32} {e : Error}

theorem LiesAt.isCorruption_of_relocations (h : b.LiesAt space offset)
    (hfails : b.relocations = .error e) :
    e.isCorruption = true := by
  have hlength : (b.part b.header.relocs).length =
      b.header.relocCount.toNat * Relocation.size := by
    rw [← h.length_relocs]
    exact Bytes.length_window (h.inside (by simp [BlobHeader.sections])).2
  exact (Relocation.decodeMany_consumes _).run hlength hfails

theorem LiesAt.isCorruption_or (h : b.LiesAt space offset) (hbad : b.Malformed e) :
    e.isCorruption = true ∨ b.stackMaps = .error e := by
  cases hbad with
  | relocations hfails => exact Or.inl (h.isCorruption_of_relocations hfails)
  | dependencies hfails => exact Or.inl (fault_of_dependencies hfails).isCorruption
  | speculations hfails => exact Or.inl (fault_of_speculations hfails).isCorruption
  | tags _ hfails => exact Or.inl (TagStream.isCorruption_of_decode hfails)
  | stackMaps hfails => exact Or.inr hfails

/-- Whatever is wrong with a section of an accepted blob is corruption, with one
exception: where the set of stack maps ends in a word, reading it fails as a file does
that is too short. -/
theorem malformed_is_corruption (h : parse space offset = .ok b) :
    (∀ e, b.Malformed e → e.isCorruption = true ∨
      b.stackMaps = .error e ∧ ∃ place, e = .short place 4 b.mapBytes.length) ∧
    ((∀ e, b.Malformed e → e.isCorruption = true) ↔
      StackMap.endsInWord b.mapBytes = false) := by
  have hlies := liesAt_of_parse h
  have hmaps := StackMap.decodeAll_settles b.mapBytes
  cases hends : StackMap.endsInWord b.mapBytes with
  | true =>
      rw [if_pos hends] at hmaps
      obtain ⟨place, hshort⟩ := hmaps
      refine ⟨fun e hbad => ?_, fun hall => ?_, fun hfalse => nomatch hfalse⟩
      · rcases hlies.isCorruption_or hbad with hcorrupt | hfails
        · exact Or.inl hcorrupt
        · have he : e = .short place 4 b.mapBytes.length := by
            rw [show b.stackMaps = _ from hshort] at hfails
            cases hfails
            rfl
          exact Or.inr ⟨hfails, place, he⟩
      · have hcorrupt := hall _ (.stackMaps hshort)
        cases hcorrupt
  | false =>
      rw [hends] at hmaps
      have hcorrupt : ∀ e, b.Malformed e → e.isCorruption = true := by
        intro e hbad
        rcases hlies.isCorruption_or hbad with hcorrupt | hfails
        · exact hcorrupt
        · exact hmaps e hfails
      exact ⟨fun e hbad => Or.inl (hcorrupt e hbad), fun _ => rfl, fun _ => hcorrupt⟩

def torn : Blob :=
  let header : BlobHeader :=
    { size := 112, relocStart := 88, deps := ⟨88, 0⟩, opts := ⟨88, 0⟩, tagMeta := ⟨88, 0⟩,
      tagOop := ⟨88, 8⟩, tagReloc := ⟨96, 8⟩, stackMaps := ⟨104, 8⟩, nextVersion := -1 }
  { header, offset := 0,
    bytes := header.encode ++ TagStream.encode [] ++ TagStream.encode [] ++
      StackMap.encodeAll [] }

theorem malformed_is_corruption_torn :
    parse torn.bytes 0 = .ok torn ∧
      ∃ e, TagStream.decode torn.tagMeta = .error e ∧ e.isCorruption = true := by
  have hparse : parse torn.bytes 0 = .ok torn :=
    eq_ok_of_valueWith (by decide +kernel)
  have hends : StackMap.endsInWord torn.mapBytes = false := by decide +kernel
  cases htags : TagStream.decode torn.tagMeta with
  | ok records =>
      have hfails : valueWith (fun _ => true) (TagStream.decode torn.tagMeta) = false := by
        decide +kernel
      rw [htags] at hfails
      cases hfails
  | error e =>
      have hbad : torn.Malformed e := .tags List.mem_cons_self htags
      exact ⟨hparse, e, rfl, (malformed_is_corruption hparse).2.mpr hends e hbad⟩

def headless : Blob :=
  let header : BlobHeader :=
    { size := 120, relocStart := 88, deps := ⟨88, 0⟩, opts := ⟨88, 0⟩, tagMeta := ⟨88, 8⟩,
      tagOop := ⟨96, 8⟩, tagReloc := ⟨104, 8⟩, stackMaps := ⟨112, 8⟩, nextVersion := -1 }
  { header, offset := 0,
    bytes := header.encode ++ TagStream.encode [] ++ TagStream.encode [] ++
      TagStream.encode [] ++ Bytes.ofUInt32 0 ++ Bytes.ofUInt32 1 }

theorem missing_map_is_no_corruption :
    parse headless.bytes 0 = .ok headless ∧
      headless.stackMaps = .error (.short 8 4 8) ∧
      Error.isCorruption (.short 8 4 8) = false := by
  exact ⟨eq_ok_of_valueWith (by decide +kernel), by rfl, rfl⟩

end Blob

end CodeCache
