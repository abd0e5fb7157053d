import CodeCache.Proofs.Bytes.Reading
import CodeCache.Proofs.Work
import Mathlib.Data.List.TakeWhile

/-!
# Texts that were read

A text is read up to the first zero byte, and no other byte spells the character
zero. So a text that was read can be stored again.
-/

namespace CodeCache

namespace Utf8

theorem ofNat_ne_zero {n : Nat} (hpos : 0 < n)
    (hvalid : n < 0xD800 ∨ 0xDFFF < n ∧ n < 0x110000) :
    Char.ofNat n ≠ '\x00' := by
  have hchar : n.isValidChar := hvalid
  intro h
  unfold Char.ofNat at h
  rw [dif_pos hchar] at h
  have hnat : n = 0 := congrArg Char.toNat h
  rw [hnat] at hpos
  exact absurd hpos (Nat.lt_irrefl 0)

theorem toNat_pos {b : UInt8} (h : b ≠ 0) : 0 < b.toNat := by
  rw [Nat.pos_iff_ne_zero]
  intro hzero
  exact h (UInt8.toNat_inj.mp hzero)

theorem one_ne_zero {a : UInt8} (ha : a ≠ 0) (hone : a < 0x80) :
    Char.ofNat a.toNat ≠ '\x00' := by
  rw [UInt8.lt_iff_toNat_lt] at hone
  change a.toNat < 128 at hone
  exact ofNat_ne_zero (toNat_pos ha) (Or.inl (by omega))

/-!
A character that takes several bytes has a number for which fewer would not do.
-/

theorem two_range {a : UInt8} (b : UInt8)
    (hlead : (decide (0xC2 ≤ a) && decide (a ≤ 0xDF)) = true) :
    0x80 ≤ a.toNat % 32 * 64 + tailBits b ∧
      a.toNat % 32 * 64 + tailBits b < 0x800 := by
  simp only [Bool.and_eq_true, decide_eq_true_eq, UInt8.le_iff_toNat_le,
    UInt8.reduceToNat] at hlead
  have hb : tailBits b < 64 := Nat.mod_lt _ (by decide)
  omega

/-- The second byte excludes overlong forms and surrogates. -/
theorem three_range {a b : UInt8} (c : UInt8)
    (hlead : (decide (0xE0 ≤ a) && decide (a ≤ 0xEF)) = true)
    (hsecond : isSecondOfThree a b = true) :
    ∃ n, a.toNat % 16 * 4096 + tailBits b * 64 + tailBits c = n ∧ 0x800 ≤ n ∧
      n < 0x10000 ∧ (n < 0xD800 ∨ 0xDFFF < n) := by
  have hc : tailBits c < 64 := Nat.mod_lt _ (by decide)
  simp only [Bool.and_eq_true, decide_eq_true_eq, UInt8.le_iff_toNat_le,
    UInt8.reduceToNat] at hlead
  simp only [isSecondOfThree, isTail, beq_iff_eq, ← UInt8.toNat_inj,
    UInt8.le_iff_toNat_le, UInt8.reduceToNat] at hsecond
  refine ⟨_, rfl, ?_⟩
  unfold tailBits at hc ⊢
  split at hsecond
  · simp only [Bool.and_eq_true, decide_eq_true_eq] at hsecond
    omega
  · split at hsecond
    · simp only [Bool.and_eq_true, decide_eq_true_eq] at hsecond
      omega
    · simp only [Bool.and_eq_true, decide_eq_true_eq] at hsecond
      omega

theorem four_range {a b : UInt8} (c d : UInt8)
    (hlead : (decide (0xF0 ≤ a) && decide (a ≤ 0xF4)) = true)
    (hsecond : isSecondOfFour a b = true) :
    ∃ n, a.toNat % 8 * 262144 + tailBits b * 4096 + tailBits c * 64 +
      tailBits d = n ∧ 0x10000 ≤ n ∧ n < 0x110000 := by
  have hc : tailBits c < 64 := Nat.mod_lt _ (by decide)
  have hd : tailBits d < 64 := Nat.mod_lt _ (by decide)
  simp only [Bool.and_eq_true, decide_eq_true_eq, UInt8.le_iff_toNat_le,
    UInt8.reduceToNat] at hlead
  simp only [isSecondOfFour, isTail, beq_iff_eq, ← UInt8.toNat_inj,
    UInt8.le_iff_toNat_le, UInt8.reduceToNat] at hsecond
  refine ⟨_, rfl, ?_⟩
  unfold tailBits at hc hd ⊢
  split at hsecond
  · simp only [Bool.and_eq_true, decide_eq_true_eq] at hsecond
    omega
  · split at hsecond
    · simp only [Bool.and_eq_true, decide_eq_true_eq] at hsecond
      omega
    · simp only [Bool.and_eq_true, decide_eq_true_eq] at hsecond
      omega

theorem two_ne_zero {a b : UInt8}
    (hlead : (decide (0xC2 ≤ a) && decide (a ≤ 0xDF)) = true) :
    Char.ofNat (a.toNat % 32 * 64 + tailBits b) ≠ '\x00' := by
  have hrange := two_range b hlead
  exact ofNat_ne_zero (by omega) (Or.inl (by omega))

theorem three_ne_zero {a b c : UInt8}
    (hlead : (decide (0xE0 ≤ a) && decide (a ≤ 0xEF)) = true)
    (hsecond : isSecondOfThree a b = true) :
    Char.ofNat (a.toNat % 16 * 4096 + tailBits b * 64 + tailBits c) ≠
      '\x00' := by
  rcases three_range c hlead hsecond with ⟨n, hn, hlow, hhigh, hvalid⟩
  rw [hn]
  exact ofNat_ne_zero (by omega) (by omega)

theorem four_ne_zero {a b c d : UInt8}
    (hlead : (decide (0xF0 ≤ a) && decide (a ≤ 0xF4)) = true)
    (hsecond : isSecondOfFour a b = true) :
    Char.ofNat (a.toNat % 8 * 262144 + tailBits b * 4096 + tailBits c * 64 +
      tailBits d) ≠ '\x00' := by
  rcases four_range c d hlead hsecond with ⟨n, hn, hlow, hhigh⟩
  rw [hn]
  exact ofNat_ne_zero (by omega) (by omega)

theorem of_cons_eq_ok {c : Char} {rest : Except Fault (List Char)}
    {cs : List Char} (h : (c :: ·) <$> rest = .ok cs) :
    ∃ more, rest = .ok more ∧ cs = c :: more := by
  cases rest with
  | error fault => cases h
  | ok more =>
      cases h
      exact ⟨more, rfl, rfl⟩

theorem zero_not_mem_of_decodeFrom {index : Nat} {bs : Bytes}
    {cs : List Char} (hbs : ∀ b ∈ bs, b ≠ 0)
    (h : decodeFrom index bs = .ok cs) :
    '\x00' ∉ cs := by
  have hcons : ∀ {c : Char} {more : List Char}, c ≠ '\x00' → '\x00' ∉ more →
      '\x00' ∉ c :: more := fun hc hmore hmem =>
    (List.mem_cons.mp hmem).elim (fun heq => hc heq.symm) hmore
  fun_induction decodeFrom index bs generalizing cs with
  | case1 =>
      cases h
      exact List.not_mem_nil
  | case2 index a rest hone ih =>
      rcases of_cons_eq_ok h with ⟨more, hrest, rfl⟩
      rw [List.forall_mem_cons] at hbs
      exact hcons (one_ne_zero hbs.1 hone) (ih hbs.2 hrest)
  | case4 index a hone htwo b rest htail ih =>
      rcases of_cons_eq_ok h with ⟨more, hrest, rfl⟩
      simp only [List.forall_mem_cons] at hbs
      exact hcons (two_ne_zero htwo) (ih hbs.2.2 hrest)
  | case10 index a hone htwo hthree b c rest hsecond htail ih =>
      rcases of_cons_eq_ok h with ⟨more, hrest, rfl⟩
      simp only [List.forall_mem_cons] at hbs
      rw [Bool.not_eq_true', Bool.not_eq_false] at hsecond
      exact hcons (three_ne_zero hthree hsecond) (ih hbs.2.2.2 hrest)
  | case17 index a hone htwo hthree hfour b c d rest hsecond _ _ ih =>
      rcases of_cons_eq_ok h with ⟨more, hrest, rfl⟩
      simp only [List.forall_mem_cons] at hbs
      rw [Bool.not_eq_true', Bool.not_eq_false] at hsecond
      exact hcons (four_ne_zero hfour hsecond) (ih hbs.2.2.2.2 hrest)
  | _ => cases h

theorem of_decode {bs : Bytes} {s : String} (h : decode bs = .ok s) :
    decodeFrom 0 bs = .ok s.toList := by
  unfold decode at h
  cases hchars : decodeFrom 0 bs with
  | error fault =>
      rw [hchars] at h
      cases h
  | ok cs =>
      rw [hchars] at h
      cases h
      rw [String.toList_ofList]

theorem nulFree_of_decode {bs : Bytes} {s : String} (hbs : ∀ b ∈ bs, b ≠ 0)
    (h : decode bs = .ok s) :
    NulFree s :=
  zero_not_mem_of_decodeFrom hbs (of_decode h)

/-!
A text takes as many bytes as it was read from.
-/

theorem length_encodeChar_ofNat {n : Nat}
    (hvalid : n < 0xD800 ∨ 0xDFFF < n ∧ n < 0x110000) :
    (encodeChar (Char.ofNat n)).length = if n < 0x80 then 1
      else if n < 0x800 then 2 else if n < 0x10000 then 3 else 4 := by
  have hchar : n.isValidChar := hvalid
  have hnat : (Char.ofNat n).toNat = n := by
    unfold Char.ofNat
    rw [dif_pos hchar]
    rfl
  unfold encodeChar
  rw [hnat]
  dsimp only
  rw [apply_ite List.length, apply_ite List.length, apply_ite List.length]
  rfl

theorem length_of_decodeFrom {index : Nat} {bs : Bytes} {cs : List Char}
    (h : decodeFrom index bs = .ok cs) :
    (cs.flatMap encodeChar).length = bs.length := by
  fun_induction decodeFrom index bs generalizing cs with
  | case1 =>
      cases h
      rfl
  | case2 index a rest hone ih =>
      rcases of_cons_eq_ok h with ⟨more, hrest, rfl⟩
      rw [UInt8.lt_iff_toNat_lt] at hone
      change a.toNat < 128 at hone
      rw [List.flatMap_cons, List.length_append, ih hrest,
        length_encodeChar_ofNat (Or.inl (by omega)), if_pos hone,
        List.length_cons]
      omega
  | case4 index a hone htwo b rest htail ih =>
      rcases of_cons_eq_ok h with ⟨more, hrest, rfl⟩
      have hrange := two_range b htwo
      rw [List.flatMap_cons, List.length_append, ih hrest,
        length_encodeChar_ofNat (Or.inl (by omega)), if_neg (by omega),
        if_pos hrange.2, List.length_cons, List.length_cons]
      omega
  | case10 index a hone htwo hthree b c rest hsecond htail ih =>
      rcases of_cons_eq_ok h with ⟨more, hrest, rfl⟩
      rw [Bool.not_eq_true', Bool.not_eq_false] at hsecond
      rcases three_range c hthree hsecond with ⟨n, hn, hlow, hhigh, hvalid⟩
      rw [List.flatMap_cons, List.length_append, ih hrest, hn,
        length_encodeChar_ofNat (by omega), if_neg (by omega),
        if_neg (by omega), if_pos hhigh]
      simp only [List.length_cons]
      omega
  | case17 index a hone htwo hthree hfour b c d rest hsecond _ _ ih =>
      rcases of_cons_eq_ok h with ⟨more, hrest, rfl⟩
      rw [Bool.not_eq_true', Bool.not_eq_false] at hsecond
      rcases four_range c d hfour hsecond with ⟨n, hn, hlow, hhigh⟩
      rw [List.flatMap_cons, List.length_append, ih hrest, hn,
        length_encodeChar_ofNat (by omega), if_neg (by omega),
        if_neg (by omega), if_neg (by omega)]
      simp only [List.length_cons]
      omega
  | _ => cases h

theorem length_encode_of_decode {bs : Bytes} {s : String}
    (h : decode bs = .ok s) :
    (encode s).length = bs.length :=
  length_of_decodeFrom (of_decode h)

end Utf8

theorem Bytes.nulFree_of_readText {bs : Bytes} {offset used : Nat} {s : String}
    (h : bs.readText offset = .ok (s, used)) :
    NulFree s := by
  refine Utf8.nulFree_of_decode ?_ (of_readText h).2
  intro b hb
  have hpasses := List.mem_takeWhile_imp hb
  rwa [bne_iff_ne] at hpasses

theorem Ensures.of_run {α : Type} {reader : Read α} {Q : α → Prop}
    (h : Ensures (fun _ => True) reader Q) {bs : Bytes} {a : α}
    (hrun : reader.run bs = .ok a) :
    Q a := by
  unfold Read.run at hrun
  cases hread : reader { bytes := bs } with
  | ok b cursor =>
      rw [hread] at hrun
      cases hrun
      exact (h.ok_and_post trivial hread).2
  | error e cursor =>
      rw [hread] at hrun
      cases hrun

namespace Read

theorem text?_ensures :
    Ensures (fun _ => True) text?
      (fun result => ∀ s, result = .ok s → NulFree s) := by
  intro cursor _
  unfold text?
  cases hread : cursor.bytes.readText cursor.position with
  | ok read =>
      refine ⟨trivial, ?_⟩
      intro s hs
      cases hs
      exact Bytes.nulFree_of_readText hread
  | error fault =>
      refine ⟨trivial, ?_⟩
      intro s hs
      cases hs

theorem text_ensures : Ensures (fun _ => True) text NulFree := by
  unfold text
  refine text?_ensures.of_bind ?_
  intro result hresult
  cases result with
  | ok s => exact Ensures.of_pure (hresult s rfl)
  | error fault => exact Ensures.of_throw _

end Read

end CodeCache
