import CodeCache.Bytes.Cursor
import Mathlib.Algebra.Ring.Nat

/-!
# Reading back what was written

A reader undoes an encoder if it reads the encoded bytes wherever they stand and
stops right behind them. Padding depends on the position, so the relation says
at which positions modulo eight the bytes are expected. The second half bounds
how far a reader gets, whatever it reads.
-/

namespace CodeCache

/-- Reads the bytes as the value at every position that is `place` modulo eight,
and stops behind them. -/
def Reads {α : Type} (place : Nat) (reader : Read α) (bs : Bytes) (a : α) :
    Prop :=
  ∀ pre post : Bytes, pre.length % 8 = place % 8 →
    reader ⟨pre ++ bs ++ post, pre.length⟩ =
      .ok a ⟨pre ++ bs ++ post, pre.length + bs.length⟩

namespace Bytes

def padding (bs : Bytes) : Bytes :=
  zeros (alignUp bs.length - bs.length)

theorem padded_eq (bs : Bytes) : bs.padded = bs ++ bs.padding :=
  rfl

theorem padded_of_mod {bs : Bytes} (h : bs.length % 8 = 0) : bs.padded = bs := by
  unfold padded
  rw [alignUp_of_mod h, Nat.sub_self]
  exact List.append_nil bs

theorem length_le_flatMap {α : Type} {as : List α} {a : α} (h : a ∈ as)
    (f : α → Bytes) :
    (f a).length ≤ (as.flatMap f).length := by
  rcases List.append_of_mem h with ⟨before, after, hsplit⟩
  rw [hsplit, List.flatMap_append, List.flatMap_cons, List.length_append,
    List.length_append]
  omega

theorem length_le_length_flatMap {α : Type} {f : α → Bytes}
    (h : ∀ a, 0 < (f a).length) (as : List α) :
    as.length ≤ (as.flatMap f).length := by
  induction as with
  | nil => exact Nat.le_refl 0
  | cons a as ih =>
      have ha := h a
      rw [List.flatMap_cons, List.length_append, List.length_cons]
      omega

theorem window_append (pre bs post : Bytes) :
    window (pre ++ bs ++ post) pre.length bs.length = bs := by
  simp [window, List.append_assoc]

theorem slice_append (pre bs post : Bytes) :
    slice (pre ++ bs ++ post) pre.length bs.length = .ok bs := by
  unfold slice
  rw [if_pos, window_append]
  simp

end Bytes

namespace Reads

variable {α β : Type} {place : Nat}

theorem of_pure (a : α) : Reads place (pure a) [] a := by
  intro pre post _
  rfl

theorem of_bind {reader : Read α} {g : α → Read β} {bs cs : Bytes} {a : α}
    {b : β} (h : Reads place reader bs a)
    (hnext : Reads (place + bs.length) (g a) cs b) :
    Reads place (reader >>= g) (bs ++ cs) b := by
  intro pre post hpre
  have hfirst := h pre (cs ++ post) hpre
  have hplace : (pre ++ bs).length % 8 = (place + bs.length) % 8 := by
    rw [List.length_append]
    omega
  have hsecond := hnext (pre ++ bs) post hplace
  have hall : pre ++ (bs ++ cs) ++ post = pre ++ bs ++ (cs ++ post) := by
    simp only [List.append_assoc]
  have hall' : pre ++ bs ++ cs ++ post = pre ++ bs ++ (cs ++ post) := by
    simp only [List.append_assoc]
  show EStateM.bind reader g _ = _
  unfold EStateM.bind
  rw [hall, hfirst]
  rw [hall', List.length_append] at hsecond
  show g a _ = _
  rw [hsecond, List.length_append, Nat.add_assoc]

theorem of_bind_nil {reader : Read α} {g : α → Read β} {bs : Bytes} {a : α} {b : β}
    (h : Reads place reader bs a) (hnext : Reads (place + bs.length) (g a) [] b) :
    Reads place (reader >>= g) bs b := by
  have hall := h.of_bind hnext
  rwa [List.append_nil] at hall

theorem of_bind_pure {reader : Read α} {f : α → β} {bs : Bytes} {a : α}
    (h : Reads place reader bs a) :
    Reads place (reader >>= fun x => pure (f x)) bs (f a) :=
  h.of_bind_nil (of_pure (f a))

theorem of_mapError {reader : Read α} {bs : Bytes} {a : α} (f : Error → Error)
    (h : Reads place reader bs a) :
    Reads place (reader.mapError f) bs a := by
  intro pre post hpre
  unfold Read.mapError
  rw [h pre post hpre]

theorem of_bytes (bs : Bytes) : Reads place (Read.bytes bs.length) bs bs := by
  intro pre post _
  unfold Read.bytes
  rw [Bytes.slice_append]

theorem of_bytes_of_length {bs : Bytes} {n : Nat} (h : bs.length = n) :
    Reads place (Read.bytes n) bs bs := by
  rw [← h]
  exact of_bytes bs

theorem of_word {f : Bytes → α} {bs : Bytes} {n : Nat} {v : α}
    (hlength : bs.length = n) (hvalue : f bs = v) :
    Reads place (Read.bytes n >>= fun x => pure (f x)) bs v := by
  rw [← hvalue]
  exact (of_bytes_of_length hlength).of_bind_pure

theorem of_uint16 (v : UInt16) : Reads place Read.uint16 (Bytes.ofUInt16 v) v :=
  of_word (Bytes.length_ofUInt16 v) (Bytes.toUInt16_ofUInt16 v)

theorem of_uint32 (v : UInt32) : Reads place Read.uint32 (Bytes.ofUInt32 v) v :=
  of_word (Bytes.length_ofUInt32 v) (Bytes.toUInt32_ofUInt32 v)

theorem of_int32 (v : Int32) : Reads place Read.int32 (Bytes.ofInt32 v) v :=
  of_word (Bytes.length_ofInt32 v) (Bytes.toInt32_ofInt32 v)

theorem of_uint64 (v : UInt64) : Reads place Read.uint64 (Bytes.ofUInt64 v) v :=
  of_word (Bytes.length_ofUInt64 v) (Bytes.toUInt64_ofUInt64 v)

theorem of_align (place : Nat) :
    Reads place Read.align (Bytes.zeros (alignUp place - place)) () := by
  intro pre post hpre
  have hle := le_alignUp place
  have hlen : alignUp pre.length = pre.length + (alignUp place - place) := by
    unfold alignUp at hle ⊢
    omega
  show EStateM.Result.ok () (Cursor.mk _ (alignUp pre.length)) = _
  rw [Bytes.length_zeros, hlen]

theorem of_place_eq {reader : Read α} {bs : Bytes} {a : α} {n : Nat}
    (h : Reads n reader bs a) (hplace : place % 8 = n % 8) :
    Reads place reader bs a := by
  intro pre post hpre
  exact h pre post (hpre.trans hplace)

theorem of_position {g : Nat → Read β} {bs : Bytes} {b : β}
    (h : ∀ p, p % 8 = place % 8 → Reads place (g p) bs b) :
    Reads place (Read.position >>= g) bs b := by
  intro pre post hpre
  exact h pre.length hpre pre post hpre

theorem of_remaining {g : Nat → Read β} {bs : Bytes} {b : β}
    (h : ∀ held, bs.length ≤ held → Reads place (g held) bs b) :
    Reads place (Read.remaining >>= g) bs b := by
  intro pre post hpre
  have hheld : bs.length ≤ (pre ++ bs ++ post).length - pre.length := by
    simp only [List.length_append]
    omega
  exact h _ hheld pre post hpre

theorem of_check {c : Prop} [Decidable c] {e : Error} {f : α → Read β}
    {reader : Read β} {bs : Bytes} {b : β} (hc : ¬ c)
    (h : Reads place reader bs b) :
    Reads place (if c then throw e >>= f else reader) bs b := by
  rw [if_neg hc]
  exact h

theorem run_eq {reader : Read α} {bs : Bytes} {a : α} (h : Reads 0 reader bs a) :
    reader.run bs = .ok a := by
  have hall := h [] [] rfl
  rw [List.nil_append, List.append_nil] at hall
  unfold Read.run
  rw [show ({ bytes := bs } : Cursor) = ⟨bs, [].length⟩ from rfl, hall]

theorem run_append_eq {reader : Read α} {bs : Bytes} {a : α} (post : Bytes)
    (h : Reads 0 reader bs a) :
    reader.run (bs ++ post) = .ok a := by
  have hall := h [] post rfl
  rw [List.nil_append] at hall
  unfold Read.run
  rw [show ({ bytes := bs ++ post } : Cursor) = ⟨bs ++ post, [].length⟩ from rfl,
    hall]

end Reads

/-!
## Texts

A stored text ends at its first zero byte, so it must not hold one itself.
-/

def NulFree (s : String) : Prop :=
  '\x00' ∉ s.toList

instance (s : String) : Decidable (NulFree s) :=
  inferInstanceAs (Decidable ('\x00' ∉ s.toList))

namespace Utf8

theorem ne_zero_of_mem_encodeChar {c : Char} (hc : c ≠ '\x00') {b : UInt8}
    (hb : b ∈ encodeChar c) :
    b ≠ 0 := by
  have hn : c.toNat ≠ 0 := by
    intro hzero
    apply hc
    rw [← Char.ofNat_toNat c, hzero]
  have hmax : c.toNat < 0x110000 := by
    have hvalid := c.valid
    change c.toNat.isValidChar at hvalid
    unfold Nat.isValidChar at hvalid
    omega
  have hbyte : ∀ n, 0 < n → n < 256 → UInt8.ofNat n ≠ 0 := by
    intro n hpos hlt hzero
    have hnat := congrArg UInt8.toNat hzero
    rw [toNat_ofNat_of_lt hlt] at hnat
    rw [hnat] at hpos
    exact absurd hpos (Nat.lt_irrefl 0)
  unfold encodeChar at hb
  dsimp only at hb
  split at hb
  · rw [List.mem_singleton.mp hb]
    exact hbyte _ (by omega) (by omega)
  · split at hb
    · simp only [List.mem_cons, List.not_mem_nil, or_false] at hb
      rcases hb with rfl | rfl
      · exact hbyte _ (by omega) (by omega)
      · exact hbyte _ (by omega) (by omega)
    · split at hb
      · simp only [List.mem_cons, List.not_mem_nil, or_false] at hb
        rcases hb with rfl | rfl | rfl
        · exact hbyte _ (by omega) (by omega)
        · exact hbyte _ (by omega) (by omega)
        · exact hbyte _ (by omega) (by omega)
      · simp only [List.mem_cons, List.not_mem_nil, or_false] at hb
        rcases hb with rfl | rfl | rfl | rfl
        · exact hbyte _ (by omega) (by omega)
        · exact hbyte _ (by omega) (by omega)
        · exact hbyte _ (by omega) (by omega)
        · exact hbyte _ (by omega) (by omega)

theorem ne_zero_of_mem_encode {s : String} (h : NulFree s) {b : UInt8}
    (hb : b ∈ encode s) :
    b ≠ 0 := by
  unfold encode at hb
  rcases List.mem_flatMap.mp hb with ⟨c, hc, hbyte⟩
  refine ne_zero_of_mem_encodeChar ?_ hbyte
  intro hzero
  rw [hzero] at hc
  exact h hc

end Utf8

theorem Bytes.readText_append {s : String} (h : NulFree s) (pre post : Bytes) :
    readText (pre ++ ofText s ++ post) pre.length =
      .ok (s, (ofText s).length) := by
  have hrest : (pre ++ ofText s ++ post).drop pre.length =
      Utf8.encode s ++ 0 :: post := by
    simp [ofText, List.append_assoc]
  have hbody : (Utf8.encode s ++ 0 :: post).takeWhile (· != 0) =
      Utf8.encode s := by
    rw [List.takeWhile_append_of_pos]
    · simp
    · intro b hb
      simpa using Utf8.ne_zero_of_mem_encode h hb
  unfold readText
  rw [hrest]
  dsimp only
  rw [hbody, if_neg, if_neg, Utf8.decode_encode]
  · simp [ofText]
  · simp
  · simp

theorem Bytes.of_readText {bs : Bytes} {offset used : Nat} {s : String}
    (h : bs.readText offset = .ok (s, used)) :
    offset + used ≤ bs.length ∧
      Utf8.decode ((bs.drop offset).takeWhile (· != 0)) = .ok s := by
  unfold readText at h
  dsimp only at h
  split at h
  · cases h
  · split at h
    · cases h
    · rename_i hin hends
      split at h
      · rename_i text htext
        cases h
        have hle := (List.takeWhile_prefix (fun b => b != 0) (l := bs.drop offset)).length_le
        rw [List.length_drop] at hle hends
        exact ⟨by omega, htext⟩
      · cases h

namespace Reads

variable {place : Nat}

theorem of_text? {s : String} (h : NulFree s) :
    Reads place Read.text? (Bytes.ofText s) (.ok s) := by
  intro pre post _
  unfold Read.text?
  rw [Bytes.readText_append h]

theorem of_text {s : String} (h : NulFree s) :
    Reads place Read.text (Bytes.ofText s) s := by
  unfold Read.text
  refine (of_text? h).of_bind_nil ?_
  exact of_pure s

end Reads

/-!
## The end of the bytes
-/

def ReadsLast {α : Type} (place : Nat) (reader : Read α) (bs : Bytes) (a : α) :
    Prop :=
  ∀ pre : Bytes, pre.length % 8 = place % 8 →
    reader ⟨pre ++ bs, pre.length⟩ =
      .ok a ⟨pre ++ bs, pre.length + bs.length⟩

namespace ReadsLast

variable {α β : Type} {place : Nat}

theorem of_reads {reader : Read α} {bs : Bytes} {a : α}
    (h : Reads place reader bs a) :
    ReadsLast place reader bs a := by
  intro pre hpre
  have hread := h pre [] hpre
  rw [List.append_nil] at hread
  exact hread

theorem of_bind {reader : Read α} {g : α → Read β} {bs cs : Bytes} {a : α}
    {b : β} (h : Reads place reader bs a)
    (hnext : ReadsLast (place + bs.length) (g a) cs b) :
    ReadsLast place (reader >>= g) (bs ++ cs) b := by
  intro pre hpre
  have hfirst := h pre cs hpre
  have hplace : (pre ++ bs).length % 8 = (place + bs.length) % 8 := by
    rw [List.length_append]
    omega
  have hsecond := hnext (pre ++ bs) hplace
  rw [List.append_assoc, List.length_append] at hsecond
  rw [List.append_assoc] at hfirst
  show EStateM.bind reader g _ = _
  unfold EStateM.bind
  rw [hfirst]
  show g a _ = _
  rw [hsecond, List.length_append, Nat.add_assoc]

theorem of_remaining {g : Nat → Read β} {bs : Bytes} {b : β}
    (h : ReadsLast place (g bs.length) bs b) :
    ReadsLast place (Read.remaining >>= g) bs b := by
  intro pre hpre
  have hheld : (pre ++ bs).length - pre.length = bs.length := by
    rw [List.length_append, Nat.add_sub_cancel_left]
  show g ((pre ++ bs).length - pre.length) _ = _
  rw [hheld]
  exact h pre hpre

theorem run_eq {reader : Read α} {bs : Bytes} {a : α}
    (h : ReadsLast 0 reader bs a) :
    reader.run bs = .ok a := by
  have hread := h [] rfl
  rw [List.nil_append] at hread
  unfold Read.run
  rw [show ({ bytes := bs } : Cursor) = ⟨bs, [].length⟩ from rfl, hread]

end ReadsLast

/-!
## How far a reader gets
-/

/-- A successful read leaves the bytes alone, moves on by at least `size`, and
does not start to read behind the end. -/
def Advances {α : Type} (size : Nat) (reader : Read α) : Prop :=
  ∀ c a c', reader c = .ok a c' →
    c'.bytes = c.bytes ∧ c.position + size ≤ c'.position ∧
      (0 < size → c.position + size ≤ c.bytes.length)

namespace Advances

variable {α β : Type} {size n : Nat}

theorem of_pure (a : α) : Advances 0 (pure a) := by
  intro c b c' h
  cases h
  exact ⟨rfl, Nat.le_refl _, fun h => absurd h (Nat.lt_irrefl 0)⟩

theorem of_throw (e : Error) : Advances size (throw e : Read α) := by
  intro c b c' h
  cases h

theorem of_position : Advances 0 Read.position := by
  intro c b c' h
  cases h
  exact ⟨rfl, Nat.le_refl _, fun h => absurd h (Nat.lt_irrefl 0)⟩

theorem of_align : Advances 0 Read.align := by
  intro c b c' h
  cases h
  exact ⟨rfl, le_alignUp _, fun h => absurd h (Nat.lt_irrefl 0)⟩

theorem of_bytes (size : Nat) : Advances size (Read.bytes size) := by
  intro c a c' h
  unfold Read.bytes at h
  cases hslice : c.bytes.slice c.position size with
  | error e =>
      rw [hslice] at h
      cases h
  | ok part =>
      rw [hslice] at h
      cases h
      refine ⟨rfl, Nat.le_refl _, fun _ => ?_⟩
      unfold Bytes.slice at hslice
      split at hslice
      · rename_i hfits
        exact hfits
      · cases hslice

theorem of_bind {reader : Read α} {next : α → Read β}
    (h : Advances size reader) (hnext : ∀ a, Advances n (next a)) :
    Advances (size + n) (reader >>= next) := by
  intro c b c' hrun
  change EStateM.bind reader next c = _ at hrun
  unfold EStateM.bind at hrun
  cases hfirst : reader c with
  | error e s =>
      rw [hfirst] at hrun
      cases hrun
  | ok a s =>
      rw [hfirst] at hrun
      rcases h c a s hfirst with ⟨hbytes, hpos, hin⟩
      rcases hnext a s b c' hrun with ⟨hbytes', hpos', hin'⟩
      rw [hbytes] at hbytes' hin'
      refine ⟨hbytes', by omega, ?_⟩
      intro hsize
      by_cases hn : 0 < n
      · have hend := hin' hn
        omega
      · have hend := hin (by omega)
        omega

theorem of_mapError {reader : Read α} (f : Error → Error)
    (h : Advances size reader) : Advances size (reader.mapError f) := by
  intro c a c' hrun
  unfold Read.mapError at hrun
  cases hread : reader c with
  | error e s =>
      rw [hread] at hrun
      cases hrun
  | ok b s =>
      rw [hread] at hrun
      injection hrun with ha hs
      rw [← hs]
      exact h c b s hread

theorem mono {reader : Read α} (h : Advances size reader) (hle : n ≤ size) :
    Advances n reader := by
  intro c a c' hrun
  rcases h c a c' hrun with ⟨hbytes, hpos, hin⟩
  refine ⟨hbytes, by omega, ?_⟩
  intro hn
  have hend := hin (by omega)
  omega

theorem of_uint16 : Advances 2 Read.uint16 :=
  (of_bytes 2).of_bind fun _ => of_pure _

theorem of_uint32 : Advances 4 Read.uint32 :=
  (of_bytes 4).of_bind fun _ => of_pure _

end Advances

end CodeCache
